import Pmgd.ChunkListAllocation

/-!
# The frees of a commit

A free logs all words that it changes, so that a rollback gives the list that there was before the
commit.  A chunk leaves the list when its count says that all of it is free; if the count has not
wrapped around, no live block is then in it.
-/

namespace Pmgd.VariableAllocator

open AllocatorUnit (chunkSize headerSize minAllocBytes wordValues isBorderline chunkBound Failure)
open LinkedList ThrowingState

variable {world after : World} {blocks live : List Block} {old new unlinked : List Nat}
  {chunk size offset : Nat} {block : Block} {α : Type} {good : α → World → Prop}
  {bad : World → Prop}

/-- The count of a chunk, when it says after the free of a block that all of the chunk is free, has
not wrapped around. -/
def CountRight (mem : Memory) (block : Block) : Prop :=
  let space := mem.freeSpace block.chunk + firstPart block.size
  space % wordValues = chunkSize - headerSize → space = chunkSize - headerSize

instance (mem : Memory) (block : Block) : Decidable (CountRight mem block) :=
  inferInstanceAs (Decidable (_ → _))

theorem mem_staying : chunk ∈ staying old new unlinked ↔ chunk ∈ old ++ new ∧ chunk ∉ unlinked := by
  rw [staying, List.mem_filter, decide_eq_true_iff]

theorem bytesIn_erase_le : bytesIn chunk (live.erase block) ≤ bytesIn chunk live := by
  by_cases member : block ∈ live
  · rw [bytesIn_erase member]
    exact Nat.le_add_left _ _
  · rw [List.erase_of_not_mem member]

namespace Sound

/-- The commit begins to free a block. -/
theorem release (sound : Sound world blocks live old new) (block : Block) :
    Sound world blocks (live.erase block) old new := by
  have region := sound.current
  refine ⟨⟨region.linked, region.nodup, region.aligned, region.inUse, region.spots,
    fun chunk member => ?_, fun other isLive => region.blocks other (List.mem_of_mem_erase isLive)⟩,
    sound.restored, sound.tracked⟩
  have before := region.space chunk member
  have less := @bytesIn_erase_le live chunk block
  omega

theorem setRoom (sound : Sound world blocks live old new) (room : Nat) :
    Sound { world with room } blocks live old new :=
  ⟨sound.current, sound.restored, sound.tracked⟩

/-- A change of words that are rolled back. -/
theorem change (sound : Sound world blocks live old new) {saved : List Saved} {mem : Memory}
    {others : List Block}
    (undone : rollback (world.journal ++ saved) mem = rollback world.journal world.mem)
    (region : Region mem (staying old new world.unlinked) others) (room : Nat) :
    Sound { world with mem, journal := world.journal ++ saved, room } blocks others old new := by
  refine ⟨region, ?_, sound.tracked⟩
  dsimp only
  rw [undone]
  exact sound.restored

theorem logNothing (sound : Sound world blocks live old new) :
    Sound (world.logged []) blocks live old new := by
  refine sound.change ?_ sound.current _
  rw [List.append_nil]

theorem logSame (sound : Sound world blocks live old new) {saved : List Saved}
    (same : rollback saved world.mem = world.mem) :
    Sound (world.logged saved) blocks live old new := by
  refine sound.change ?_ sound.current _
  rw [rollback_append, same]

theorem setDram (sound : Sound world blocks live old new) {dram : Dram} {toFix : List (Nat × Bool)}
    (tracked : Tracked dram toFix old new world.unlinked) :
    Sound { world with dram, toFix } blocks live old new :=
  ⟨sound.current, sound.restored, tracked⟩

end Sound

theorem addSpot_inside {spots : List Spot} (fits : offset + size ≤ chunkSize)
    (inside : ∀ spot ∈ spots, spot.offset + spot.size ≤ chunkSize) :
    ∀ spot ∈ addSpot offset size spots, spot.offset + spot.size ≤ chunkSize := by
  cases spots with
  | nil => simpa [addSpot] using fits
  | cons head spots =>
      have first := inside head List.mem_cons_self
      have others := fun other member => inside other (List.mem_cons_of_mem head member)
      intro spot member
      rw [addSpot] at member
      split_ifs at member with joins
      · rcases List.mem_cons.mp member with rfl | later
        · dsimp only
          omega
        · exact others spot later
      · rcases List.mem_cons.mp member with rfl | later
        · exact fits
        · exact inside spot later

/-- The words behind the free of a block in a chunk. -/
def Memory.freed (mem : Memory) (chunk offset size : Nat) : Memory :=
  ((mem.setMaxContSpace chunk
      (newMaxContSpace offset size (mem.maxContSpace chunk) (mem.freeList chunk))).setFreeList
    chunk (addSpot offset size (mem.freeList chunk))).setFreeSpace chunk
      (mem.freeSpace chunk + size)

theorem rollback_freed (mem : Memory) (journal : List Saved) (chunk offset size : Nat) :
    rollback (journal ++ [.freeSpace chunk (mem.freeSpace chunk),
        .freeList chunk (mem.freeList chunk), .maxContSpace chunk (mem.maxContSpace chunk)])
      (mem.freed chunk offset size) = rollback journal mem := by
  rw [rollback_append]
  congr 1
  cases mem
  simp [rollback, Memory.restore, Memory.freed, Memory.setFreeSpace, Memory.setFreeList,
    Memory.setMaxContSpace]

/-- The block has become a spot of its chunk. -/
theorem Region.free {mem : Memory} {chunks : List Nat} (region : Region mem chunks live)
    (isLive : block ∈ live) :
    Region (mem.freed block.chunk (block.address - block.chunk) (firstPart block.size)) chunks
      (live.erase block) := by
  obtain ⟨isIn, fits⟩ := region.blocks block isLive
  refine ⟨region.linked, region.nodup, region.aligned, region.inUse, fun chunk member => ?_,
    fun chunk member => ?_, fun other member => region.blocks other (List.mem_of_mem_erase member)⟩
  · have before := region.spots chunk member
    by_cases same : chunk = block.chunk
    · subst same
      have offset : block.address - block.chunk = block.address % chunkSize := by
        have bound := Nat.mod_le block.address chunkSize
        rw [Block.chunk]
        omega
      rw [offset]
      simpa [Memory.freed, Memory.setFreeSpace, Memory.setFreeList, Memory.setMaxContSpace] using
        addSpot_inside fits.2 before
    · simpa [Memory.freed, Memory.setFreeSpace, Memory.setFreeList, Memory.setMaxContSpace,
        same] using before
  · have before := region.space chunk member
    rw [bytesIn_erase isLive] at before
    by_cases same : chunk = block.chunk
    · subst same
      rw [if_pos rfl] at before
      simp only [Memory.freed, Memory.setFreeSpace, Function.update_self]
      push_cast at before
      omega
    · rw [if_neg (Ne.symm same), Nat.zero_add] at before
      simpa [Memory.freed, Memory.setFreeSpace, Memory.setFreeList, Memory.setMaxContSpace,
        same] using before

theorem chunkFree_ends (sound : Sound world blocks live old new) (isLive : block ∈ live) :
    Ends (chunkFree block.chunk (block.address - block.chunk) (firstPart block.size) world)
      (fun _ after => Sound after blocks (live.erase block) old new ∧
        after.unlinked = world.unlinked ∧ after.mem = world.mem.freed block.chunk (block.address - block.chunk)
          (firstPart block.size))
      (fun after => Sound after blocks (live.erase block) old new) := by
  have released := sound.release block
  unfold chunkFree
  refine ends_log_bind released ?_
  have logged : Sound (world.logged [.freeSpace block.chunk (world.mem.freeSpace block.chunk),
      .freeList block.chunk (world.mem.freeList block.chunk),
      .maxContSpace block.chunk (world.mem.maxContSpace block.chunk)]) blocks
        (live.erase block) old new := by
    refine released.logSame ?_
    cases world.mem
    simp [rollback, Memory.restore, Memory.setFreeSpace, Memory.setFreeList,
      Memory.setMaxContSpace]
  refine ends_log_bind logged ?_
  have freed := sound.change (rollback_freed world.mem world.journal block.chunk
    (block.address - block.chunk) (firstPart block.size)) (sound.current.free isLive) world.room
  refine ⟨⟨freed.current, ?_, freed.tracked⟩, rfl, rfl⟩
  have restored := freed.restored
  dsimp only [World.logged] at restored ⊢
  rwa [List.append_nil]

/-! ## Taking a chunk out of the list -/

theorem staying_cons {first second : List Nat} (nodup : (old ++ new).Nodup)
    (split : staying old new unlinked = first ++ chunk :: second) :
    staying old new (chunk :: unlinked) = first ++ second := by
  have distinct : (first ++ chunk :: second).Nodup := by
    rw [← split]
    exact nodup.filter _
  have filtered : staying old new (chunk :: unlinked) =
      (staying old new unlinked).filter fun other => decide (other ≠ chunk) := by
    rw [staying, staying, List.filter_filter]
    congr 1
    funext other
    simp [not_or]
  obtain ⟨-, later, disjoint⟩ := List.nodup_append'.mp distinct
  have notSecond := (List.nodup_cons.mp later).1
  have keepsFirst : first.filter (fun other => decide (other ≠ chunk)) = first := by
    refine List.filter_eq_self.mpr fun other member => decide_eq_true ?_
    rintro rfl
    exact disjoint member List.mem_cons_self
  have keepsSecond : second.filter (fun other => decide (other ≠ chunk)) = second := by
    refine List.filter_eq_self.mpr fun other member => decide_eq_true ?_
    rintro rfl
    exact notSecond member
  rw [filtered, split, List.filter_append, keepsFirst, List.filter_cons_of_neg (by simp),
    keepsSecond]

/-- A chunk without blocks that is not on the list of those with space leaves the list. -/
theorem Sound.unlink (sound : Sound world blocks live old new) {first second : List Nat}
    (split : staying old new world.unlinked = first ++ chunk :: second)
    (noBlock : ∀ block ∈ live, block.chunk ≠ chunk) (notFree : chunk ∉ world.dram.freeChunks)
    (room : Nat) :
    Sound { world with
      mem := world.mem.setLink first.getLast? (world.mem.link (some chunk))
      journal := world.journal ++ [.link first.getLast? (world.mem.link first.getLast?)]
      dram :=
        ⟨world.dram.freeChunks,
          if world.dram.chunkToScan = some chunk then world.mem.link (some chunk)
          else world.dram.chunkToScan,
          if world.dram.lastChunkScanned = some chunk then first.getLast?
          else world.dram.lastChunkScanned⟩
      room
      unlinked := chunk :: world.unlinked } blocks live old new := by
  have region := sound.current
  have tracked := sound.tracked
  have stays := staying_cons tracked.nodup split
  have inStaying (other : Nat) (member : other ∈ first ++ second) :
      other ∈ staying old new world.unlinked := by
    rw [split]
    rw [List.mem_append] at member ⊢
    exact member.imp id (List.mem_cons_of_mem chunk)
  have remains (other : Nat) (member : other ∈ staying old new world.unlinked)
      (different : other ≠ chunk) : other ∈ first ++ second := by
    rw [split] at member
    rw [List.mem_append] at member ⊢
    exact member.imp id fun later => (List.mem_cons.mp later).resolve_left different
  have linked := region.linked
  have nodup := region.nodup
  have cursors := tracked.cursors
  rw [split] at linked nodup cursors
  refine ⟨?_, ?_, tracked.nodup, ?_, fun isLarge => ?_, tracked.largeFix, tracked.keys,
    tracked.keysIn, tracked.freeNodup, fun other isFree => ?_⟩
  · dsimp only
    rw [stays]
    refine ⟨linked.remove nodup, ?_, fun other member => region.aligned other (inStaying other member),
      fun other member => region.inUse other (inStaying other member),
      fun other member => region.spots other (inStaying other member),
      fun other member => region.space other (inStaying other member), fun other isLive => ?_⟩
    · exact nodup.sublist ((List.sublist_cons_self chunk second).append_left first)
    · obtain ⟨isIn, fits⟩ := region.blocks other isLive
      exact ⟨remains other.chunk isIn (noBlock other isLive), fits⟩
  · dsimp only
    rw [rollback_setLink]
    exact sound.restored
  · dsimp only
    rw [stays, linked.next]
    exact cursors.remove nodup
  · dsimp only
    rw [tracked.scanned isLarge]
    rfl
  · dsimp only at isFree ⊢
    rw [stays]
    refine remains other (tracked.freeIn other isFree) ?_
    rintro rfl
    exact notFree isFree

theorem findPlace_head {link : Option Nat → Option Nat} {first second : List Nat} {bound : Nat}
    {found : Option Nat × Bool} (linked : Linked link none (first ++ chunk :: second))
    (notFirst : chunk ∉ first)
    (walked : findPlace link chunk bound (link none) none = some found) :
    found = (first.getLast?, true) := by
  have keeps : (first ++ chunk :: second).takeWhile (fun other => decide (other ≠ chunk)) =
      first := by
    rw [List.takeWhile_append_of_pos, List.takeWhile_cons_of_neg (by simp), List.append_nil]
    intro other member
    refine decide_eq_true ?_
    rintro rfl
    exact notFirst member
  rw [findPlace_eq linked walked, keeps, placeBehind_none]
  simp

theorem unlinkChunk_ends (sound : Sound world blocks live old new)
    (member : chunk ∈ staying old new world.unlinked)
    (noBlock : ∀ block ∈ live, block.chunk ≠ chunk) (notFree : chunk ∉ world.dram.freeChunks) :
    Ends (unlinkChunk chunk world)
      (fun _ after => Sound after blocks live old new ∧
        chunk ∉ staying old new after.unlinked)
      (fun after => Sound after blocks live old new) := by
  unfold unlinkChunk
  rw [get_bind]
  obtain ⟨first, second, split⟩ := List.append_of_mem member
  have linked := sound.current.linked
  have nodup := sound.current.nodup
  rw [split] at linked nodup
  have notFirst : chunk ∉ first := by
    intro inFirst
    exact (List.nodup_append'.mp nodup).2.2 inFirst List.mem_cons_self
  cases walked : findPlace world.mem.link chunk chunkBound (world.mem.link none) none with
  | none => exact sound
  | some found =>
      obtain rfl := findPlace_head linked notFirst walked
      dsimp only
      rw [if_pos rfl]
      refine ends_writeLink_bind sound ?_
      refine ⟨sound.unlink split noBlock notFree _, ?_⟩
      simp [staying]

/-! ## The free of a block -/

theorem freeChunk_ends (sound : Sound world blocks live old new)
    (outside : chunk ∉ staying old new world.unlinked) :
    Ends (freeChunk chunk world) (fun _ after => Sound after blocks live old new)
      (fun after => Sound after blocks live old new) := by
  have region := sound.current
  unfold freeChunk
  refine ends_log_bind sound ?_
  refine sound.change (rollback_setInUse (world.mem.inUse.erase chunk))
    ⟨region.linked, region.nodup, region.aligned, fun other member => ?_, region.spots,
      region.space, region.blocks⟩ _
  refine (List.mem_erase_of_ne ?_).mpr (region.inUse other member)
  rintro rfl
  exact outside member

/-- No live block is in a chunk of which all is free. -/
theorem Region.noBlock {mem : Memory} {chunks : List Nat} (region : Region mem chunks live)
    (member : chunk ∈ chunks) (allFree : mem.freeSpace chunk = (chunkSize - headerSize : Int)) :
    ∀ block ∈ live, block.chunk ≠ chunk := by
  rintro block isLive rfl
  have space := region.space block.chunk member
  have positive := bytesIn_pos isLive (region.blocks block isLive).2
  omega

theorem free_ends (sound : Sound world blocks live old new) (isLive : block ∈ live)
    (countRight : CountRight world.mem block) :
    Ends (free block.address block.size world)
      (fun _ after => Sound after blocks (live.erase block) old new)
      (fun after => Sound after blocks (live.erase block) old new) := by
  have rest {start : World} (startSound : Sound start blocks live old new)
      (sameMem : start.mem = world.mem) :
      Ends ((do
        let before := (← get).mem.freeList block.chunk
        chunkFree block.chunk (block.address - block.chunk) (firstPart block.size)
        if (← get).mem.freeSpace block.chunk % wordValues = chunkSize - headerSize then do
          restoreDramState block.chunk false
          eraseChunk block.chunk
          unlinkChunk block.chunk
          log fun mem => [.link (some block.chunk) (mem.link (some block.chunk))]
          freeChunk block.chunk
        else if before = [] then do
          restoreDramState block.chunk true
          insertChunk block.chunk
        else return : Alloc Unit) start)
        (fun _ after => Sound after blocks (live.erase block) old new)
        (fun after => Sound after blocks (live.erase block) old new) := by
    rw [get_bind]
    refine Ends.bind (chunkFree_ends startSound isLive) ?_
    rintro ⟨⟩ middle ⟨middleSound, sameUnlinked, isFreed⟩
    have member : block.chunk ∈ staying old new middle.unlinked := by
      rw [sameUnlinked]
      exact (startSound.current.blocks block isLive).1
    have known : block.chunk ∈ old ++ new := (mem_staying.mp member).1
    rw [get_bind]
    refine ends_ite (fun allFree => ?_) fun _ => ends_ite (fun _ => ?_) fun _ => middleSound
    · have space : middle.mem.freeSpace block.chunk =
          world.mem.freeSpace block.chunk + firstPart block.size := by
        rw [isFreed, sameMem]
        exact Function.update_self _ _ _
      have isAll : middle.mem.freeSpace block.chunk = (chunkSize - headerSize : Int) := by
        rw [space] at allFree ⊢
        exact countRight allFree
      have noBlock := middleSound.current.noBlock member isAll
      have registered := middleSound.tracked.register known false
      have erased := registered.erase block.chunk
      unfold eraseChunk
      rw [restoreDramState_bind, modifyDram_bind]
      refine Ends.bind (unlinkChunk_ends (middleSound.setDram erased) member noBlock ?_) ?_
      · exact fun isFree => (registered.freeNodup.mem_erase_iff.mp isFree).1 rfl
      · rintro ⟨⟩ last ⟨lastSound, outside⟩
        refine ends_log_bind lastSound ?_
        refine freeChunk_ends (lastSound.logSame ?_) outside
        cases last.mem
        simp [rollback, Memory.restore, Memory.setLink]
    · unfold insertChunk
      rw [restoreDramState_bind]
      exact middleSound.setDram ((middleSound.tracked.register known true).insert member)
  unfold free
  refine ends_ite (fun _ => ?_) fun _ => rest sound rfl
  exact ends_log_bind (sound.release block) (rest sound.logNothing rfl)

end Pmgd.VariableAllocator
