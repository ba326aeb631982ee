import Pmgd.ChunkListInvariant

/-!
# Allocation keeps the chunk list
-/

namespace Pmgd.VariableAllocator

open AllocatorUnit (chunkSize headerSize minAllocBytes wordValues isBorderline chunkBound Failure)
open LinkedList ThrowingState

variable {world after : World} {blocks live : List Block} {old new : List Nat}
  {chunk size : Nat} {block : Block} {α : Type} {good : α → World → Prop} {bad : World → Prop}

/-! ## Rules -/

def World.logged (world : World) (saved : List Saved) : World :=
  { world with journal := world.journal ++ saved, room := world.room - 1 }

def World.register (world : World) (chunk : Nat) (remove : Bool) : World :=
  { world with
    toFix :=
      if chunk ∈ world.toFix.map Prod.fst then world.toFix
      else world.toFix ++ [(chunk, remove)] }

theorem ends_log_bind {saved : Memory → List Saved} {next : Unit → Alloc α} (stopped : bad world)
    (rest : Ends (next () (world.logged (saved world.mem))) good bad) :
    Ends ((log saved >>= next) world) good bad := by
  unfold log
  rw [bind_assoc, get_bind]
  by_cases full : world.room = 0
  · rw [if_pos full]
    exact stopped
  · rw [if_neg full]
    exact rest

@[simp]
theorem modifyMem_bind {change : Memory → Memory} {next : Unit → Alloc α} :
    (modifyMem change >>= next) world = next () { world with mem := change world.mem } :=
  rfl

@[simp]
theorem modifyDram_bind {change : Dram → Dram} {next : Unit → Alloc α} :
    (modifyDram change >>= next) world = next () { world with dram := change world.dram } :=
  rfl

@[simp]
theorem restoreDramState_bind {remove : Bool} {next : Unit → Alloc α} :
    (restoreDramState chunk remove >>= next) world = next () (world.register chunk remove) :=
  rfl

/-! ## One change -/

namespace Ready

theorem setRoom (ready : Ready world blocks live old new) (room : Nat) :
    Ready { world with room } blocks live old new :=
  ⟨⟨ready.sound.current, ready.sound.restored, ready.sound.tracked⟩, ready.unlinked, ready.calm⟩

theorem setGranted (ready : Ready world blocks live old new) (granted : Except Failure Nat) :
    Ready { world with granted } blocks live old new :=
  ⟨⟨ready.sound.current, ready.sound.restored, ready.sound.tracked⟩, ready.unlinked, ready.calm⟩

theorem current (ready : Ready world blocks live old new) :
    Region world.mem (old ++ new) live := by
  have current := ready.sound.current
  rwa [ready.unlinked, staying_nil] at current

theorem notMem_of_fresh (ready : Ready world blocks live old new)
    (fresh : chunk ∉ world.mem.inUse) : chunk ∉ old ++ new :=
  fun member => fresh (ready.current.inUse chunk member)

/-- A change of words that are rolled back and are no pointers. -/
theorem change (ready : Ready world blocks live old new) {saved : List Saved} {mem : Memory}
    {others : List Block}
    (undone : rollback (world.journal ++ saved) mem = rollback world.journal world.mem)
    (region : Region mem (old ++ new) others)
    (noSpace : ∀ chunk space, .freeSpace chunk space ∉ saved)
    (lists : ∀ chunk spots, .freeList chunk spots ∈ saved → chunk ∈ old ++ new)
    (noLink : ∀ place pointer, .link place pointer ∉ saved)
    (noGrant : ∀ chunks, .inUse chunks ∉ saved) (room : Nat) :
    Ready { world with mem, journal := world.journal ++ saved, room } blocks others old new := by
  refine ⟨⟨?_, ?_, ready.sound.tracked⟩, ready.unlinked, ?_⟩
  · dsimp only
    rwa [ready.unlinked, staying_nil]
  · dsimp only
    rw [undone]
    exact ready.sound.restored
  · refine ⟨fun chunk space member => ?_, fun chunk spots member => ?_, ready.calm.noLarge,
      fun unlocked place pointer member => ?_, fun unlocked chunks member => ?_,
      ready.calm.removals⟩
    · exact (List.mem_append.mp member).elim (ready.calm.noSpace chunk space) (noSpace chunk space)
    · exact (List.mem_append.mp member).elim (ready.calm.lists chunk spots) (lists chunk spots)
    · exact (List.mem_append.mp member).elim (ready.calm.noLink unlocked place pointer)
        (noLink place pointer)
    · exact (List.mem_append.mp member).elim (ready.calm.noGrant unlocked chunks) (noGrant chunks)

theorem logNothing (ready : Ready world blocks live old new) :
    Ready (world.logged []) blocks live old new := by
  refine ready.change ?_ ready.current ?_ ?_ ?_ ?_ _
  · rw [List.append_nil]
  all_goals simp

theorem setFreeList (ready : Ready world blocks live old new) (member : chunk ∈ old ++ new)
    {spots : List Spot} (inside : ∀ spot ∈ spots, spot.offset + spot.size ≤ chunkSize) (room : Nat) :
    Ready { world with
      mem := world.mem.setFreeList chunk spots
      journal := world.journal ++ [.freeList chunk (world.mem.freeList chunk)]
      room } blocks live old new := by
  have region := ready.current
  refine ready.change (rollback_setFreeList chunk spots)
    ⟨region.linked, region.nodup, region.aligned, region.inUse, fun other isIn => ?_,
      region.space, region.blocks⟩ ?_ ?_ ?_ ?_ room
  · by_cases same : other = chunk
    · subst same
      simpa [Memory.setFreeList] using inside
    · simpa [Memory.setFreeList, same] using region.spots other isIn
  · simp
  · intro other saved isSaved
    obtain ⟨rfl, -⟩ : other = chunk ∧ saved = _ := by simpa using isSaved
    exact member
  · simp
  · simp

theorem setMaxContSpace (ready : Ready world blocks live old new) (space room : Nat) :
    Ready { world with
      mem := world.mem.setMaxContSpace chunk space
      journal := world.journal ++ [.maxContSpace chunk (world.mem.maxContSpace chunk)]
      room } blocks live old new := by
  have region := ready.current
  refine ready.change (rollback_setMaxContSpace chunk space)
    ⟨region.linked, region.nodup, region.aligned, region.inUse, region.spots, region.space,
      region.blocks⟩ ?_ ?_ ?_ ?_ room
  all_goals simp

/-- The count of the free space goes down when a block is taken; it is not logged. -/
theorem take (ready : Ready world blocks live old new) (member : block.chunk ∈ old ++ new)
    (fits : block.Fits) (whole : firstPart block.size = size) :
    Ready { world with
      mem := world.mem.setFreeSpace block.chunk (world.mem.freeSpace block.chunk - size) }
      blocks (block :: live) old new := by
  let mem := world.mem.setFreeSpace block.chunk (world.mem.freeSpace block.chunk - size)
  have region := ready.current
  have restored := ready.sound.restored
  have less (other : Nat) : mem.freeSpace other ≤ world.mem.freeSpace other := by
    by_cases same : other = block.chunk
    · simp [mem, Memory.setFreeSpace, same]
    · simp [mem, Memory.setFreeSpace, same]
  have counts : (rollback world.journal mem).freeSpace = mem.freeSpace :=
    rollback_freeSpace_of_notMem ready.calm.noSpace
  have counted : (rollback world.journal world.mem).freeSpace = world.mem.freeSpace :=
    rollback_freeSpace_of_notMem ready.calm.noSpace
  have links (place : Option Nat) : (rollback world.journal mem).link place =
      (rollback world.journal world.mem).link place := rollback_link_congr rfl
  refine ⟨⟨?_, ?_, ready.sound.tracked⟩, ready.unlinked, ready.calm⟩
  · dsimp only
    rw [ready.unlinked, staying_nil]
    refine ⟨region.linked, region.nodup, region.aligned, region.inUse, region.spots,
      fun other isIn => ?_, fun other isLive => ?_⟩
    · have before := region.space other isIn
      rw [bytesIn_cons, whole]
      by_cases same : other = block.chunk
      · subst same
        simp only [Memory.setFreeSpace, Function.update_self, if_true]
        push_cast
        omega
      · simp only [Memory.setFreeSpace, Function.update_of_ne same, if_neg (Ne.symm same)]
        omega
    · rcases List.mem_cons.mp isLive with rfl | earlier
      · exact ⟨member, fits⟩
      · exact region.blocks other earlier
  · refine ⟨restored.linked.congr (links none) fun other _ => links (some other), restored.nodup,
      restored.aligned, ?_, ?_, fun other isIn => ?_, restored.blocks⟩
    · have same : (rollback world.journal mem).inUse = (rollback world.journal world.mem).inUse :=
        rollback_inUse_congr rfl
      rw [same]
      exact restored.inUse
    · intro other isIn
      have same : (rollback world.journal mem).freeList other =
          (rollback world.journal world.mem).freeList other := rollback_freeList_congr rfl
      rw [same]
      exact restored.spots other isIn
    · have before := restored.space other isIn
      rw [counted] at before
      rw [counts]
      have := less other
      omega

/-- A block that is not handed out is forgotten. -/
theorem forget (ready : Ready world blocks (block :: live) old new) :
    Ready world blocks live old new := by
  have region := ready.sound.current
  refine ⟨⟨⟨region.linked, region.nodup, region.aligned, region.inUse, region.spots,
    fun other isIn => ?_, fun other isLive => region.blocks other (List.mem_cons_of_mem _ isLive)⟩,
    ready.sound.restored, ready.sound.tracked⟩, ready.unlinked, ready.calm⟩
  have before := region.space other isIn
  rw [bytesIn_cons] at before
  push_cast at before
  split_ifs at before <;> omega

end Ready

/-! ## Blocks of a chunk -/

theorem takeSpot_inside {spots : List Spot} {taken : Taken}
    (inside : ∀ spot ∈ spots, spot.offset + spot.size ≤ chunkSize)
    (found : takeSpot size spots = some taken) :
    taken.offset + size ≤ chunkSize ∧
      ∀ spot ∈ taken.rest, spot.offset + spot.size ≤ chunkSize := by
  induction spots generalizing taken with
  | nil => simp [takeSpot] at found
  | cons spot spots ih =>
      have first := inside spot List.mem_cons_self
      have others := fun other member => inside other (List.mem_cons_of_mem spot member)
      rw [takeSpot] at found
      split_ifs at found with enough splits
      · obtain rfl := Option.some.inj found
        refine ⟨by dsimp only; omega, fun other member => ?_⟩
        rcases List.mem_cons.mp member with rfl | later
        · dsimp only
          omega
        · exact others other later
      · obtain rfl := Option.some.inj found
        exact ⟨by dsimp only; omega, others⟩
      · obtain ⟨found, isFound, rfl⟩ := Option.map_eq_some_iff.mp found
        obtain ⟨offset, rest⟩ := ih others isFound
        refine ⟨offset, fun other member => ?_⟩
        rcases List.mem_cons.mp member with rfl | later
        · exact first
        · exact rest other later

/-- What an allocation in a chunk leaves as it is. -/
structure Kept (before after : World) : Prop where
  dram : after.dram = before.dram
  toFix : after.toFix = before.toFix
  link : after.mem.link = before.mem.link
  inUse : after.mem.inUse = before.mem.inUse
  locked : after.locked = before.locked
  granted : after.granted = before.granted

theorem Kept.refl : Kept world world :=
  ⟨rfl, rfl, rfl, rfl, rfl, rfl⟩

/-- What the chunk allocator is asked and answers is as before. -/
structure SameGrant (before after : World) : Prop where
  inUse : after.mem.inUse = before.mem.inUse
  locked : after.locked = before.locked
  granted : after.granted = before.granted

theorem SameGrant.refl : SameGrant world world :=
  ⟨rfl, rfl, rfl⟩

theorem SameGrant.trans {middle : World} (first : SameGrant world middle)
    (second : SameGrant middle after) : SameGrant world after :=
  ⟨second.inUse.trans first.inUse, second.locked.trans first.locked,
    second.granted.trans first.granted⟩

theorem Kept.sameGrant (kept : Kept world after) : SameGrant world after :=
  ⟨kept.inUse, kept.locked, kept.granted⟩

theorem findMaxContSpace_ends (ready : Ready world blocks live old new) :
    Ends (findMaxContSpace chunk world)
      (fun _ after => Kept world after ∧ Ready after blocks live old new)
      (fun after => after = world) := by
  unfold findMaxContSpace
  rw [get_bind]
  refine ends_ite (fun _ => ?_) fun _ => ⟨Kept.refl, ready⟩
  refine ends_log_bind rfl ?_
  exact ⟨⟨rfl, rfl, rfl, rfl, rfl, rfl⟩, ready.setMaxContSpace _ _⟩

theorem chunk_of_offset {offset : Nat} (aligned : chunkSize ∣ chunk) (inside : offset < chunkSize) :
    Block.chunk ⟨chunk + offset, size⟩ = chunk ∧ (chunk + offset) % chunkSize = offset := by
  obtain ⟨index, rfl⟩ := aligned
  have offsetOf : (chunkSize * index + offset) % chunkSize = offset := by
    rw [Nat.mul_add_mod, Nat.mod_eq_of_lt inside]
  refine ⟨?_, offsetOf⟩
  rw [Block.chunk, offsetOf, Nat.add_sub_cancel]

theorem chunkAlloc_ends (ready : Ready world blocks live old new) (member : chunk ∈ old ++ new)
    (positive : 0 < size) (small : size ≤ chunkSize) :
    Ends (chunkAlloc chunk size world)
      (fun address after => Kept world after ∧
        match address with
        | none => Ready after blocks live old new
        | some p => Ready after blocks (⟨p, size⟩ :: live) old new)
      (fun after => Ready after blocks live old new) := by
  have region := ready.current
  unfold chunkAlloc
  rw [get_bind]
  refine ends_ite (fun _ => ⟨Kept.refl, ready⟩) fun _ => ?_
  cases found : takeSpot size (world.mem.freeList chunk) with
  | none => exact ready
  | some taken =>
      obtain ⟨inside, rest⟩ := takeSpot_inside (region.spots chunk member) found
      obtain ⟨isChunk, isOffset⟩ :=
        @chunk_of_offset chunk size taken.offset (region.aligned chunk member) (by omega)
      have whole : firstPart size = size := if_neg (not_lt.mpr small)
      have fits : Block.Fits ⟨chunk + taken.offset, size⟩ := by
        rw [Block.Fits, whole, isOffset]
        exact ⟨positive, inside⟩
      dsimp only
      refine ends_log_bind ready ?_
      rw [modifyMem_bind]
      have listed := ready.setFreeList member rest (world.room - 1)
      have finished {next : World} (kept : Kept world next)
          (ready : Ready next blocks live old new) :
          Ends ((do
            modifyMem fun mem => mem.setFreeSpace chunk (mem.freeSpace chunk - size)
            if taken.spotSize = world.mem.maxContSpace chunk then findMaxContSpace chunk
            else pure ()
            return some (chunk + taken.offset) : Alloc (Option Nat)) next)
          (fun address after => Kept world after ∧
            match address with
            | none => Ready after blocks live old new
            | some p => Ready after blocks (⟨p, size⟩ :: live) old new)
          (fun after => Ready after blocks live old new) := by
        rw [modifyMem_bind]
        have took := @Ready.take _ _ _ _ _ size ⟨chunk + taken.offset, size⟩ ready
          (by rwa [isChunk]) fits whole
        rw [isChunk] at took
        refine ends_ite (fun _ => ?_) fun _ => ?_
        · refine Ends.bind ((findMaxContSpace_ends took).mono (fun _ _ => id) ?_) ?_
          · rintro last rfl
            exact took.forget
          · rintro ⟨⟩ last ⟨lastKept, lastReady⟩
            exact ⟨⟨lastKept.dram.trans kept.dram, lastKept.toFix.trans kept.toFix,
              lastKept.link.trans kept.link, lastKept.inUse.trans kept.inUse,
              lastKept.locked.trans kept.locked, lastKept.granted.trans kept.granted⟩, lastReady⟩
        · exact ⟨⟨kept.dram, kept.toFix, kept.link, kept.inUse, kept.locked, kept.granted⟩, took⟩
      refine ends_ite (fun _ => ?_) fun _ => ?_
      · refine ends_log_bind listed ?_
        exact finished ⟨rfl, rfl, rfl, rfl, rfl, rfl⟩ listed.logNothing
      · exact finished ⟨rfl, rfl, rfl, rfl, rfl, rfl⟩ listed

/-! ## The DRAM state -/

section Tracked

variable {dram : Dram} {toFix : List (Nat × Bool)} {unlinked : List Nat}

theorem Tracked.register (tracked : Tracked dram toFix old new unlinked)
    (member : chunk ∈ old ++ new) (remove : Bool) :
    Tracked dram
      (if chunk ∈ toFix.map Prod.fst then toFix else toFix ++ [(chunk, remove)]) old new
      unlinked := by
  split_ifs with known
  · exact tracked
  · refine ⟨tracked.nodup, tracked.cursors, tracked.scanned, fun other isNew => ?_, ?_, ?_,
      tracked.freeNodup, tracked.freeIn⟩
    · exact List.mem_append_left _ (tracked.largeFix other isNew)
    · rw [List.map_append, List.nodup_append']
      exact ⟨tracked.keys, List.nodup_singleton _, by simpa using known⟩
    · intro other isKey
      rw [List.map_append, List.mem_append] at isKey
      rcases isKey with isKey | isKey
      · exact tracked.keysIn other isKey
      · obtain rfl := List.mem_singleton.mp isKey
        exact member

theorem Tracked.insert (tracked : Tracked dram toFix old new unlinked)
    (member : chunk ∈ staying old new unlinked) :
    Tracked { dram with freeChunks := dram.freeChunks.insert chunk } toFix old new unlinked := by
  refine ⟨tracked.nodup, tracked.cursors, tracked.scanned, tracked.largeFix, tracked.keys,
    tracked.keysIn, tracked.freeNodup.insert, fun other isFree => ?_⟩
  rcases List.mem_insert_iff.mp isFree with rfl | earlier
  · exact member
  · exact tracked.freeIn other earlier

theorem Tracked.erase (tracked : Tracked dram toFix old new unlinked) (chunk : Nat) :
    Tracked { dram with freeChunks := dram.freeChunks.erase chunk } toFix old new unlinked := by
  refine ⟨tracked.nodup, tracked.cursors, tracked.scanned, tracked.largeFix, tracked.keys,
    tracked.keysIn, tracked.freeNodup.erase chunk, fun other isFree => ?_⟩
  exact tracked.freeIn other (List.mem_of_mem_erase isFree)

end Tracked

namespace Ready

theorem register (ready : Ready world blocks live old new) (member : chunk ∈ old ++ new) :
    Ready (world.register chunk false) blocks live old new := by
  refine ⟨⟨ready.sound.current, ready.sound.restored, ready.sound.tracked.register member false⟩,
    ready.unlinked, ready.calm.noSpace, ready.calm.lists, ready.calm.noLarge, ready.calm.noLink,
    ready.calm.noGrant, fun other isKey => ?_⟩
  dsimp only [World.register] at isKey
  split_ifs at isKey
  · exact ready.calm.removals other isKey
  · rcases List.mem_append.mp isKey with earlier | isLast
    · exact ready.calm.removals other earlier
    · simp at isLast

theorem setDram (ready : Ready world blocks live old new) {dram : Dram}
    (tracked : Tracked dram world.toFix old new []) :
    Ready { world with dram } blocks live old new := by
  refine ⟨⟨ready.sound.current, ready.sound.restored, ?_⟩, ready.unlinked, ready.calm⟩
  dsimp only
  rw [ready.unlinked]
  exact tracked

theorem tracked (ready : Ready world blocks live old new) :
    Tracked world.dram world.toFix old new [] := by
  have tracked := ready.sound.tracked
  rwa [ready.unlinked] at tracked

theorem pass (ready : Ready world blocks live old new)
    (isNext : world.dram.chunkToScan = some chunk) :
    Ready { world with dram :=
      ⟨if world.mem.HasSpace chunk then world.dram.freeChunks.insert chunk
        else world.dram.freeChunks, world.mem.link (some chunk), some chunk⟩ } blocks live old new := by
  have tracked := ready.tracked
  have cursors := tracked.cursors
  rw [isNext] at cursors
  have member := cursors.toScan_mem
  have linked := ready.current.linked
  refine ready.setDram ⟨tracked.nodup, ?_, fun isLarge => ?_, tracked.largeFix, tracked.keys,
    tracked.keysIn, ?_, ?_⟩
  · rw [← staying_nil] at linked
    exact cursors.pass linked
  · have none := tracked.scanned isLarge
    rw [isNext] at none
    cases none
  · dsimp only
    split_ifs
    · exact tracked.freeNodup.insert
    · exact tracked.freeNodup
  · intro other isFree
    dsimp only at isFree
    split_ifs at isFree
    · exact (tracked.insert member).freeIn other isFree
    · exact tracked.freeIn other isFree

end Ready

/-! ## The loops of an allocation -/

theorem allocAmong_ends (ready : Ready world blocks live old new) {chunks : List Nat}
    (members : ∀ chunk ∈ chunks, chunk ∈ old ++ new) (positive : 0 < size)
    (small : size ≤ chunkSize) :
    Ends (allocAmong size chunks world)
      (fun address after =>
        match address with
        | none => Ready after blocks live old new ∧ SameGrant world after
        | some p => Ready after blocks (⟨p, size⟩ :: live) old new)
      (fun after => Ready after blocks live old new) := by
  induction chunks generalizing world with
  | nil => exact ⟨ready, SameGrant.refl⟩
  | cons chunk chunks ih =>
      have member := members chunk List.mem_cons_self
      unfold allocAmong
      refine Ends.bind (chunkAlloc_ends ready member positive small) ?_
      rintro (_ | p) middle ⟨kept, middleReady⟩
      · refine (ih middleReady fun other isIn => members other (List.mem_cons_of_mem _ isIn)).mono
          ?_ fun _ => id
        rintro (_ | p) after
        · rintro ⟨afterReady, same⟩
          exact ⟨afterReady, kept.sameGrant.trans same⟩
        · exact id
      · dsimp only
        rw [get_bind]
        refine ends_ite (fun _ => middleReady) fun _ => ?_
        rw [restoreDramState_bind]
        have registered := middleReady.register member
        exact registered.setDram (registered.tracked.erase chunk)

theorem allocScanning_ends (ready : Ready world blocks live old new) {bound : Nat}
    (positive : 0 < size) (small : size ≤ chunkSize) :
    Ends (allocScanning size bound world)
      (fun address after =>
        match address with
        | none => Ready after blocks live old new ∧ after.dram.chunkToScan = none ∧
            SameGrant world after
        | some p => Ready after blocks (⟨p, size⟩ :: live) old new)
      (fun after => Ready after blocks live old new) := by
  induction bound generalizing world with
  | zero => exact ready
  | succ bound ih =>
      unfold allocScanning
      rw [get_bind]
      cases isNext : world.dram.chunkToScan with
      | none => exact ⟨ready, isNext, SameGrant.refl⟩
      | some chunk =>
          have member : chunk ∈ old ++ new := by
            have cursors := ready.tracked.cursors
            rw [isNext, staying_nil] at cursors
            exact cursors.toScan_mem
          have rest {start : World} (startReady : Ready start blocks live old new)
              (sameDram : start.dram = world.dram) (same : SameGrant world start) :
              Ends ((do
                let address ← chunkAlloc chunk size
                passChunk chunk
                match address with
                | none => allocScanning size bound
                | some address => return some address : Alloc (Option Nat)) start)
              (fun address after =>
                match address with
                | none => Ready after blocks live old new ∧ after.dram.chunkToScan = none ∧
                    SameGrant world after
                | some p => Ready after blocks (⟨p, size⟩ :: live) old new)
              (fun after => Ready after blocks live old new) := by
            refine Ends.bind (chunkAlloc_ends startReady member positive small) ?_
            rintro address middle ⟨kept, middleReady⟩
            have stillNext : middle.dram.chunkToScan = some chunk := by
              rw [kept.dram, sameDram, isNext]
            unfold passChunk
            rw [modify_bind]
            cases address with
            | none =>
                refine (ih (middleReady.pass stillNext)).mono ?_ fun _ => id
                rintro (_ | p) after
                · rintro ⟨afterReady, isEnd, sameAfter⟩
                  refine ⟨afterReady, isEnd, same.trans (kept.sameGrant.trans ?_)⟩
                  exact ⟨sameAfter.inUse, sameAfter.locked, sameAfter.granted⟩
                · exact id
            | some p => exact middleReady.pass stillNext
          dsimp only
          refine ends_ite (fun _ => ?_) fun _ => rest ready rfl SameGrant.refl
          rw [restoreDramState_bind]
          exact rest (ready.register member) rfl ⟨rfl, rfl, rfl⟩

theorem scanAll_ends (ready : Ready world blocks live old new) {bound : Nat} :
    Ends (scanAll bound world)
      (fun _ after => Ready after blocks live old new ∧ after.dram.chunkToScan = none ∧
        after.mem = world.mem ∧ after.journal = world.journal ∧ after.toFix = world.toFix ∧
        after.locked = world.locked)
      (fun after => Ready after blocks live old new) := by
  induction bound generalizing world with
  | zero => exact ready
  | succ bound ih =>
      unfold scanAll
      rw [get_bind]
      cases isNext : world.dram.chunkToScan with
      | none => exact ⟨ready, isNext, rfl, rfl, rfl, rfl⟩
      | some chunk => exact ih (ready.pass isNext)

/-! ## New chunks -/

section NewChunk

variable {mem other : Memory} {chunks : List Nat}

theorem headerSize_le : headerSize ≤ chunkSize := by
  decide

/-- Nothing else than one chunk outside of the list may have changed. -/
theorem Region.congr (region : Region mem chunks blocks) (outside : chunk ∉ chunks)
    (link : ∀ place ≠ some chunk, other.link place = mem.link place)
    (inUse : ∀ used ∈ mem.inUse, used ∈ other.inUse)
    (freeList : ∀ form ≠ chunk, other.freeList form = mem.freeList form)
    (freeSpace : ∀ form ≠ chunk, other.freeSpace form = mem.freeSpace form) :
    Region other chunks blocks := by
  have different (form : Nat) (member : form ∈ chunks) : form ≠ chunk := by
    rintro rfl
    exact outside member
  refine ⟨region.linked.congr (link none (by simp)) fun form member => ?_, region.nodup,
    region.aligned, fun form member => inUse form (region.inUse form member),
    fun form member => ?_, fun form member => ?_, region.blocks⟩
  · exact link (some form) (by simpa using different form member)
  · rw [freeList form (different form member)]
    exact region.spots form member
  · rw [freeSpace form (different form member)]
    exact region.space form member

/-- A chunk is put at the end of the list. -/
theorem Region.append (region : Region mem chunks blocks) (outside : chunk ∉ chunks)
    (aligned : chunkSize ∣ chunk) (isLast : mem.link (some chunk) = none)
    (isUsed : chunk ∈ mem.inUse)
    (spots : ∀ spot ∈ mem.freeList chunk, spot.offset + spot.size ≤ chunkSize)
    (space : mem.freeSpace chunk ≤ (chunkSize - headerSize : Int)) :
    Region (mem.setLink chunks.getLast? (some chunk)) (chunks ++ [chunk]) blocks := by
  have elsewhere : bytesIn chunk blocks = 0 := by
    refine bytesIn_eq_zero fun block member => ?_
    rintro rfl
    exact outside (region.blocks block member).1
  refine ⟨region.linked.append region.nodup outside isLast, ?_, ?_, ?_, ?_, ?_, ?_⟩
  · rw [List.nodup_append']
    exact ⟨region.nodup, List.nodup_singleton _, by simpa using outside⟩
  all_goals intro form member
  · rcases List.mem_append.mp member with old | isNew
    · exact region.aligned form old
    · exact List.mem_singleton.mp isNew ▸ aligned
  · rcases List.mem_append.mp member with old | isNew
    · exact region.inUse form old
    · exact List.mem_singleton.mp isNew ▸ isUsed
  · rcases List.mem_append.mp member with old | isNew
    · exact region.spots form old
    · exact List.mem_singleton.mp isNew ▸ spots
  · rcases List.mem_append.mp member with old | isNew
    · exact region.space form old
    · obtain rfl := List.mem_singleton.mp isNew
      rw [elsewhere]
      simpa [Memory.setLink] using space
  · obtain ⟨isIn, fits⟩ := region.blocks form member
    exact ⟨List.mem_append_left _ isIn, fits⟩

/-- The words behind the constructor. -/
def Memory.constructed (mem : Memory) (chunk used : Nat) : Memory :=
  let space := chunkSize - headerSize - used
  { mem with
    link := Function.update mem.link (some chunk) none
    freeSpace := Function.update mem.freeSpace chunk space
    freeList := Function.update mem.freeList chunk [⟨headerSize, space⟩]
    maxContSpace := Function.update mem.maxContSpace chunk space }

@[simp]
theorem construct_bind {used : Nat} {next : Unit → Alloc α} :
    (construct chunk used >>= next) world =
      next () { world with mem := world.mem.constructed chunk used } :=
  rfl

theorem constructed_spots {used : Nat} :
    ∀ spot ∈ (mem.constructed chunk used).freeList chunk, spot.offset + spot.size ≤ chunkSize := by
  have bound := headerSize_le
  intro spot member
  obtain rfl : spot = ⟨headerSize, chunkSize - headerSize - used⟩ := by
    simpa [Memory.constructed] using member
  dsimp only
  omega

theorem constructed_space {used : Nat} :
    (mem.constructed chunk used).freeSpace chunk ≤ (chunkSize - headerSize : Int) := by
  have bound := headerSize_le
  simp only [Memory.constructed, Function.update_self]
  omega

theorem Region.construct (region : Region mem chunks blocks) (outside : chunk ∉ chunks)
    (used : Nat) : Region (mem.constructed chunk used) chunks blocks := by
  refine region.congr outside (fun place different => ?_) (fun _ => id) (fun form different => ?_)
    fun form different => ?_
  all_goals exact Function.update_of_ne different _ _

end NewChunk

/-- A chunk outside of the list is constructed. -/
theorem Ready.construct (ready : Ready world blocks live old new) (outside : chunk ∉ old ++ new)
    (used : Nat) :
    Ready { world with mem := world.mem.constructed chunk used } blocks live old new := by
  have notOld : chunk ∉ old := fun member => outside (List.mem_append_left _ member)
  refine ⟨⟨?_, ?_, ready.sound.tracked⟩, ready.unlinked, ready.calm⟩
  · dsimp only
    rw [ready.unlinked, staying_nil]
    exact ready.current.construct outside used
  · refine ready.sound.restored.congr notOld (fun place different => ?_) (fun form member => ?_)
      (fun form different => ?_) fun form different => ?_
    · exact rollback_link_congr (Function.update_of_ne different _ _)
    · have same : (rollback world.journal (world.mem.constructed chunk used)).inUse =
          (rollback world.journal world.mem).inUse := rollback_inUse_congr rfl
      rwa [same]
    · exact rollback_freeList_congr (Function.update_of_ne different _ _)
    · rw [rollback_freeSpace_of_notMem ready.calm.noSpace,
        rollback_freeSpace_of_notMem ready.calm.noSpace]
      exact Function.update_of_ne different _ _

theorem appendPlace_ends {chunks : List Nat} (linked : Linked world.mem.link none chunks)
    (isLast : chunks = [] ∨ world.dram.lastChunkScanned = chunks.getLast?) :
    Ends (appendPlace world) (fun place after => after = world ∧ place = chunks.getLast?)
      (fun _ => False) := by
  unfold appendPlace
  rw [get_bind]
  refine ends_ite (fun isEmpty => ?_) fun notEmpty => ?_
  · rw [linked.head] at isEmpty
    obtain rfl := List.head?_eq_none_iff.mp isEmpty
    exact ⟨rfl, rfl⟩
  · have someChunk : chunks ≠ [] := by
      rintro rfl
      exact notEmpty linked
    have isLast := isLast.resolve_left someChunk
    refine ends_ite (fun isNull => ?_) fun _ => ⟨rfl, isLast⟩
    rw [isLast, List.getLast?_eq_none_iff] at isNull
    exact someChunk isNull

/-- A chunk of an inner transaction belongs to the list that a rollback gives. -/
theorem allocChunk_ends (ready : Ready world blocks live old new)
    (isEnd : world.dram.chunkToScan = none)
    (fresh : ∀ chunk ∈ world.granted.toOption, chunkSize ∣ chunk ∧ chunk ∉ world.mem.inUse) :
    Ends (allocChunk world)
      (fun chunk after => new = [] ∧ Ready after blocks live (old ++ [chunk]) [])
      (fun after => Ready after blocks live old new) := by
  unfold allocChunk
  rw [get_bind]
  refine ends_ite (fun _ => ready) fun unlocked => ?_
  rw [Bool.not_eq_true] at unlocked
  cases grant : world.granted with
  | error failure => exact ready
  | ok chunk =>
      obtain ⟨aligned, unused⟩ := fresh chunk (by rw [grant]; rfl)
      have outside := ready.notMem_of_fresh unused
      obtain rfl := ready.calm.noLarge unlocked
      have region := ready.current
      have tracked := ready.tracked
      have cursors := tracked.cursors
      rw [staying_nil, isEnd] at cursors
      rw [List.append_nil] at outside region cursors
      have noLink := ready.calm.noLink unlocked
      have noGrant := ready.calm.noGrant unlocked
      have noSpots (spots : List Spot) : .freeList chunk spots ∉ world.journal := by
        intro member
        have isIn := ready.calm.lists chunk spots member
        rw [List.append_nil] at isIn
        exact outside isIn
      let mem := (world.mem.setInUse (chunk :: world.mem.inUse)).constructed chunk 0
      have constructed : Region mem old live := by
        refine region.congr outside (fun place different => ?_)
          (fun used => List.mem_cons_of_mem chunk) (fun form different => ?_)
          fun form different => ?_
        all_goals exact Function.update_of_ne different _ _
      have restored : Region (rollback world.journal mem) old blocks := by
        refine ready.sound.restored.congr outside (fun place different => ?_)
          (fun used member => ?_) (fun form different => ?_) fun form different => ?_
        · exact rollback_link_congr (Function.update_of_ne different _ _)
        · rw [rollback_inUse_of_notMem noGrant] at member ⊢
          exact List.mem_cons_of_mem chunk member
        · exact rollback_freeList_congr (Function.update_of_ne different _ _)
        · rw [rollback_freeSpace_of_notMem ready.calm.noSpace,
            rollback_freeSpace_of_notMem ready.calm.noSpace]
          exact Function.update_of_ne different _ _
      have atEnd : mem.link (some chunk) = none := Function.update_self _ _ _
      dsimp only
      rw [modifyMem_bind, construct_bind]
      refine Ends.bind ((@appendPlace_ends { world with mem } old constructed.linked
        cursors.last_eq).mono (fun _ _ => id) fun _ => False.elim) ?_
      rintro place middle ⟨rfl, rfl⟩
      rw [modifyMem_bind, modifyDram_bind, ends_pure]
      have extended := constructed.append outside aligned atEnd List.mem_cons_self
        constructed_spots constructed_space
      refine ⟨rfl, ⟨?_, ?_, ?_⟩, ready.unlinked, ready.calm.noSpace, fun form spots member => ?_,
        fun _ => rfl, fun _ => noLink, fun _ => noGrant, ready.calm.removals⟩
      · dsimp only
        rw [ready.unlinked, staying_nil, List.append_nil]
        exact extended
      · dsimp only
        rw [rollback_setLink_of_notMem noLink]
        refine restored.append outside aligned ?_ ?_ ?_ ?_
        · rw [rollback_link_of_notMem noLink]
          exact atEnd
        · rw [rollback_inUse_of_notMem noGrant]
          exact List.mem_cons_self
        · rw [rollback_freeList_of_notMem noSpots]
          exact constructed_spots
        · rw [rollback_freeSpace_of_notMem ready.calm.noSpace]
          exact constructed_space
      · dsimp only
        rw [ready.unlinked]
        have more (other : Nat) (member : other ∈ old ++ []) : other ∈ old ++ [chunk] ++ [] := by
          rw [List.append_nil] at member ⊢
          exact List.mem_append_left _ member
        refine ⟨by rw [List.append_nil]; exact extended.nodup, ?_, fun isLarge => absurd rfl isLarge,
          by simp, tracked.keys, fun other member => more other (tracked.keysIn other member),
          tracked.freeNodup, fun other member => ?_⟩
        · rw [staying_nil, List.append_nil]
          dsimp only
          rw [isEnd]
          exact Cursors.at_end (List.getLast?_concat).symm
        · have isIn := tracked.freeIn other member
          rw [staying_nil] at isIn ⊢
          exact more other isIn
      · have isIn := ready.calm.lists form spots member
        rw [List.append_nil] at isIn ⊢
        exact List.mem_append_left _ isIn

theorem allocNew_ends (ready : Ready world blocks live old new)
    (isEnd : world.dram.chunkToScan = none)
    (fresh : ∀ chunk ∈ world.granted.toOption, chunkSize ∣ chunk ∧ chunk ∉ world.mem.inUse)
    (positive : 0 < size) (small : size ≤ chunkSize) :
    Ends (allocNew size world)
      (fun p after => ∃ old new, Ready after blocks (⟨p, size⟩ :: live) old new)
      (fun after => ∃ old new, Ready after blocks live old new) := by
  unfold allocNew
  refine Ends.bind ((allocChunk_ends ready isEnd fresh).mono (fun _ _ => id)
    fun after afterReady => ⟨old, new, afterReady⟩) ?_
  rintro chunk middle ⟨-, middleReady⟩
  have member : chunk ∈ old ++ [chunk] ++ [] := by simp
  have stays : chunk ∈ staying (old ++ [chunk]) [] [] := by rwa [staying_nil]
  rw [restoreDramState_bind]
  refine Ends.bind ((chunkAlloc_ends (middleReady.register member) member positive small).mono
    (fun _ _ => id) fun after afterReady => ⟨_, _, afterReady⟩) ?_
  rintro (_ | p) after ⟨-, afterReady⟩
  · rw [get_bind]
    refine ends_ite (fun _ => ?_) fun _ => ⟨_, _, afterReady⟩
    exact ⟨_, _, afterReady.setDram (afterReady.tracked.insert stays)⟩
  · rw [get_bind]
    refine ends_ite (fun _ => ?_) fun _ => ⟨_, _, afterReady⟩
    exact ⟨_, _, afterReady.setDram (afterReady.tracked.insert stays)⟩

/-! ## Large blocks -/

theorem Ready.lock (ready : Ready world blocks live old new) :
    Ready { world with locked := true } blocks live old new :=
  ⟨⟨ready.sound.current, ready.sound.restored, ready.sound.tracked⟩, ready.unlinked,
    ready.calm.noSpace, ready.calm.lists, fun isFalse => Bool.noConfusion isFalse,
    fun isFalse => Bool.noConfusion isFalse, fun isFalse => Bool.noConfusion isFalse,
    ready.calm.removals⟩

/-- Pointers and grants that are logged while the chunk allocator is locked. -/
theorem Calm.logLocked {journal saved : List Saved} {toFix : List (Nat × Bool)}
    (calm : Calm journal true toFix old new)
    (noSpace : ∀ chunk space, .freeSpace chunk space ∉ saved)
    (noList : ∀ chunk spots, .freeList chunk spots ∉ saved) :
    Calm (journal ++ saved) true toFix old new := by
  refine ⟨fun chunk space member => ?_, fun chunk spots member => ?_,
    fun isFalse => Bool.noConfusion isFalse, fun isFalse => Bool.noConfusion isFalse,
    fun isFalse => Bool.noConfusion isFalse, calm.removals⟩
  · exact (List.mem_append.mp member).elim (calm.noSpace chunk space) (noSpace chunk space)
  · exact (List.mem_append.mp member).elim (calm.lists chunk spots) fun isIn =>
      absurd isIn (noList chunk spots)

theorem grantChunk_ends (ready : Ready world blocks live old new)
    (fresh : ∀ chunk ∈ world.granted.toOption, chunkSize ∣ chunk ∧ chunk ∉ world.mem.inUse) :
    Ends (grantChunk world)
      (fun chunk after => chunkSize ∣ chunk ∧ chunk ∉ old ++ new ∧ chunk ∈ after.mem.inUse ∧
        after.locked = true ∧ Ready after blocks live old new)
      (fun after => Ready after blocks live old new) := by
  unfold grantChunk
  rw [get_bind]
  cases grant : world.granted with
  | error failure =>
      cases failure with
      | lockTimeout => exact ready
      | _ => exact ready.lock
  | ok chunk =>
      obtain ⟨aligned, unused⟩ := fresh chunk (by rw [grant]; rfl)
      have outside := ready.notMem_of_fresh unused
      have locked := ready.lock
      dsimp only
      rw [modify_bind]
      refine ends_log_bind locked ?_
      rw [modifyMem_bind, ends_pure]
      have region := locked.current
      refine ⟨aligned, outside, List.mem_cons_self, rfl, ⟨?_, ?_, locked.sound.tracked⟩,
        locked.unlinked, ?_⟩
      · dsimp only [World.logged]
        rw [ready.unlinked, staying_nil]
        exact ⟨region.linked, region.nodup, region.aligned,
          fun other member => List.mem_cons_of_mem chunk (region.inUse other member),
          region.spots, region.space, region.blocks⟩
      · dsimp only [World.logged]
        rw [rollback_setInUse]
        exact locked.sound.restored
      · exact locked.calm.logLocked (by simp) (by simp)

/-- The last steps of a large allocation put its first chunk at the end of the list, from which a
rollback takes it. -/
theorem Ready.appendLarge (ready : Ready world blocks live old new)
    (isEnd : world.dram.chunkToScan = none) (isLocked : world.locked = true)
    (aligned : chunkSize ∣ chunk) (outside : chunk ∉ old ++ new)
    (isLast : world.mem.link (some chunk) = none) (isUsed : chunk ∈ world.mem.inUse)
    (spots : ∀ spot ∈ world.mem.freeList chunk, spot.offset + spot.size ≤ chunkSize)
    (space : world.mem.freeSpace chunk + (firstPart size : Int) ≤ (chunkSize - headerSize : Int))
    (isBlock : block.chunk = chunk ∧ block.Fits ∧ firstPart block.size = firstPart size)
    (room : Nat) :
    Ready { world with
      mem := world.mem.setLink (old ++ new).getLast? (some chunk)
      journal := world.journal ++
        [.link (old ++ new).getLast? (world.mem.link (old ++ new).getLast?)]
      toFix :=
        if chunk ∈ world.toFix.map Prod.fst then world.toFix
        else world.toFix ++ [(chunk, true)]
      dram :=
        ⟨world.dram.freeChunks.insert chunk, world.dram.chunkToScan, some chunk⟩
      room } blocks (block :: live) old (new ++ [chunk]) := by
  have tracked := ready.tracked
  have region := ready.current.append outside aligned isLast isUsed spots (by omega)
  rw [List.append_assoc] at region
  have notKey : chunk ∉ world.toFix.map Prod.fst := fun isKey => outside (tracked.keysIn chunk isKey)
  have elsewhere : bytesIn chunk live = 0 := by
    refine bytesIn_eq_zero fun other member => ?_
    rintro rfl
    exact outside (ready.current.blocks other member).1
  have more (other : Nat) (member : other ∈ old ++ new) : other ∈ old ++ (new ++ [chunk]) := by
    rw [← List.append_assoc]
    exact List.mem_append_left _ member
  have calm := ready.calm
  rw [isLocked] at calm
  rw [if_neg notKey]
  refine ⟨⟨?_, ?_, ?_⟩, ready.unlinked, ?_⟩
  · dsimp only
    rw [ready.unlinked, staying_nil]
    refine ⟨region.linked, region.nodup, region.aligned, region.inUse, region.spots,
      fun form member => ?_, fun other isLive => ?_⟩
    · have before := region.space form member
      rw [bytesIn_cons, isBlock.1]
      by_cases same : chunk = form
      · subst same
        rw [if_pos rfl, isBlock.2.2, elsewhere]
        simpa [Memory.setLink] using space
      · rw [if_neg same, Nat.zero_add]
        exact before
    · rcases List.mem_cons.mp isLive with rfl | earlier
      · exact ⟨by rw [isBlock.1]; simp, isBlock.2.1⟩
      · exact region.blocks other earlier
  · dsimp only
    rw [rollback_setLink]
    exact ready.sound.restored
  · dsimp only
    rw [ready.unlinked]
    refine ⟨region.nodup, ?_, fun _ => isEnd, fun other member => ?_, ?_, fun other isKey => ?_,
      tracked.freeNodup.insert, fun other isFree => ?_⟩
    · rw [staying_nil, isEnd, ← List.append_assoc]
      exact Cursors.at_end (List.getLast?_concat).symm
    · rcases List.mem_append.mp member with earlier | isNew
      · exact List.mem_append_left _ (tracked.largeFix other earlier)
      · obtain rfl := List.mem_singleton.mp isNew
        exact List.mem_append_right _ List.mem_cons_self
    · rw [List.map_append, List.nodup_append']
      exact ⟨tracked.keys, List.nodup_singleton _, by simpa using notKey⟩
    · rw [List.map_append, List.mem_append] at isKey
      rcases isKey with isKey | isNew
      · exact more other (tracked.keysIn other isKey)
      · obtain rfl := List.mem_singleton.mp isNew
        simp
    · rw [staying_nil]
      rcases List.mem_insert_iff.mp isFree with rfl | earlier
      · simp
      · have isIn := tracked.freeIn other earlier
        rw [staying_nil] at isIn
        exact more other isIn
  · dsimp only
    rw [isLocked]
    have logged : Calm (world.journal ++ [.link (old ++ new).getLast?
        (world.mem.link (old ++ new).getLast?)]) true world.toFix old new :=
      calm.logLocked (by simp) (by simp)
    refine ⟨logged.noSpace, fun form saved member => more form (logged.lists form saved member),
      fun isFalse => Bool.noConfusion isFalse, fun isFalse => Bool.noConfusion isFalse,
      fun isFalse => Bool.noConfusion isFalse, fun other isKey => ?_⟩
    rcases List.mem_append.mp isKey with earlier | isNew
    · exact List.mem_append_left _ (calm.removals other earlier)
    · obtain ⟨rfl, -⟩ : other = chunk ∧ true = true := by simpa using isNew
      exact List.mem_append_right _ List.mem_cons_self

theorem ends_writeLink_bind {place pointer : Option Nat} {next : Unit → Alloc α}
    (stopped : bad world)
    (rest : Ends (next () { world with
      mem := world.mem.setLink place pointer
      journal := world.journal ++ [.link place (world.mem.link place)]
      room := world.room - 1 }) good bad) :
    Ends ((writeLink place pointer >>= next) world) good bad := by
  unfold writeLink
  rw [bind_assoc]
  exact ends_log_bind stopped rest

/-- The first chunk of a large block has what is left of the block in front of the others. -/
theorem firstPart_eq (large : size > chunkSize) (notWhole : size % chunkSize ≠ 0)
    (bounded : size + chunkSize ≤ wordValues) : firstPart size = size % chunkSize := by
  have positive : 0 < chunkSize := AllocatorUnit.chunkSize_pos
  have split := Nat.div_add_mod size chunkSize
  have small := Nat.mod_lt size positive
  have quotient : (size + chunkSize - 1) / chunkSize = size / chunkSize + 1 := by
    have expanded : size + chunkSize - 1 =
        size % chunkSize - 1 + chunkSize * (size / chunkSize + 1) := by
      rw [Nat.mul_add_one]
      omega
    rw [expanded, Nat.add_mul_div_left _ _ positive, Nat.div_eq_of_lt (by omega), Nat.zero_add]
  have fitsWord : size / chunkSize + 1 < wordValues := by
    have quotientLe : size / chunkSize ≤ size := Nat.div_le_self _ _
    have several : 1 < chunkSize := by decide
    omega
  rw [firstPart, if_pos large, numChunks, quotient, Nat.mod_eq_of_lt fitsWord,
    Nat.add_sub_cancel, Nat.mul_comm]
  omega

/-- The world in which a large allocation puts its chunk in the list. -/
structure Appends (blocks live : List Block) (old new : List Nat) (chunk used : Nat)
    (middle : World) : Prop where
  ready : Ready middle blocks live old new
  isEnd : middle.dram.chunkToScan = none
  locked : middle.locked = true
  aligned : chunkSize ∣ chunk
  outside : chunk ∉ old ++ new
  isUsed : chunk ∈ middle.mem.inUse
  isNew : ∃ mem : Memory, middle.mem = mem.constructed chunk used

theorem allocChunks_ends (ready : Ready world blocks live old new)
    (fresh : ∀ chunk ∈ world.granted.toOption, chunkSize ∣ chunk ∧ chunk ∉ world.mem.inUse)
    {num used : Nat} :
    Ends (allocChunks num used world)
      (fun chunk after => ∃ middle, Appends blocks live old new chunk used middle ∧
        after = { middle with
          mem := middle.mem.setLink (old ++ new).getLast? (some chunk)
          journal := middle.journal ++
            [.link (old ++ new).getLast? (middle.mem.link (old ++ new).getLast?)]
          dram := { middle.dram with lastChunkScanned := some chunk }
          room := middle.room - 1 })
      (fun after => Ready after blocks live old new) := by
  unfold allocChunks
  refine ends_ite (fun _ => ?_) fun _ => ready
  refine Ends.bind (grantChunk_ends ready fresh) ?_
  rintro chunk first ⟨aligned, outside, isUsed, locked, firstReady⟩
  rw [construct_bind]
  refine Ends.bind (scanAll_ends (firstReady.construct outside used)) ?_
  rintro ⟨⟩ middle ⟨middleReady, isEnd, sameMem, -, -, sameLock⟩
  have cursors := middleReady.tracked.cursors
  rw [staying_nil, isEnd] at cursors
  refine Ends.bind ((appendPlace_ends middleReady.current.linked cursors.last_eq).mono
    (fun _ _ => id) fun _ => False.elim) ?_
  rintro place after ⟨rfl, rfl⟩
  refine ends_writeLink_bind middleReady ?_
  rw [modifyDram_bind, ends_pure]
  exact ⟨after, ⟨middleReady, isEnd, sameLock.trans locked, aligned, outside,
    by rw [sameMem]; exact isUsed, ⟨first.mem, sameMem⟩⟩, rfl⟩

theorem allocLarge_ends (ready : Ready world blocks live old new)
    (fresh : ∀ chunk ∈ world.granted.toOption, chunkSize ∣ chunk ∧ chunk ∉ world.mem.inUse)
    (large : size > chunkSize) (notBorderline : ¬ isBorderline size)
    (bounded : size + chunkSize ≤ wordValues) :
    Ends (allocLarge size world)
      (fun p after => ∃ old new, Ready after blocks (⟨p, size⟩ :: live) old new)
      (fun after => ∃ old new, Ready after blocks live old new) := by
  rw [isBorderline, not_or, not_lt] at notBorderline
  obtain ⟨notWhole, belowThreshold⟩ := notBorderline
  have isPart := firstPart_eq large notWhole bounded
  have threshold : AllocatorUnit.threshold ≤ chunkSize - headerSize := by decide
  have headerFits := headerSize_le
  have isUsed : (size - (numChunks size - 1) * chunkSize) % wordValues = firstPart size := by
    have unwrapped : firstPart size = size - (numChunks size - 1) * chunkSize := if_pos large
    rw [← unwrapped, Nat.mod_eq_of_lt (by omega)]
  unfold allocLarge
  rw [isUsed]
  refine Ends.bind ((allocChunks_ends ready fresh).mono (fun _ _ => id)
    fun after afterReady => ⟨_, _, afterReady⟩) ?_
  rintro chunk after ⟨middle, appends, rfl⟩
  obtain ⟨mem, isNew⟩ := appends.isNew
  obtain ⟨isChunk, isOffset⟩ := @chunk_of_offset chunk size (chunkSize - firstPart size)
    appends.aligned (by omega)
  unfold insertChunk
  rw [modifyDram_bind, restoreDramState_bind, ends_pure]
  have placed : (⟨chunk + (chunkSize - firstPart size), size⟩ : Block).chunk = chunk ∧
      (⟨chunk + (chunkSize - firstPart size), size⟩ : Block).Fits ∧
      firstPart (⟨chunk + (chunkSize - firstPart size), size⟩ : Block).size = firstPart size := by
    refine ⟨isChunk, ⟨by dsimp only; omega, ?_⟩, rfl⟩
    dsimp only
    rw [isOffset]
    omega
  refine ⟨old, new ++ [chunk], appends.ready.appendLarge appends.isEnd
    appends.locked appends.aligned appends.outside ?_ appends.isUsed ?_ ?_ placed _⟩
  · rw [isNew]
    exact Function.update_self _ _ _
  · rw [isNew]
    exact constructed_spots
  · have space : middle.mem.freeSpace chunk = (chunkSize - headerSize - firstPart size : ℕ) := by
      rw [isNew]
      exact Function.update_self _ _ _
    rw [space]
    omega

/-! ## Allocation -/

theorem alloc_ends (ready : Ready world blocks live old new)
    (fresh : ∀ chunk ∈ world.granted.toOption, chunkSize ∣ chunk ∧ chunk ∉ world.mem.inUse)
    (positive : 0 < size) (notBorderline : ¬ isBorderline size)
    (bounded : size + chunkSize ≤ wordValues) :
    Ends (alloc size world)
      (fun p after => ∃ old new, Ready after blocks (⟨p, size⟩ :: live) old new)
      (fun after => ∃ old new, Ready after blocks live old new) := by
  unfold alloc
  refine ends_ite (fun large => allocLarge_ends ready fresh large notBorderline bounded)
    fun notLarge => ?_
  have small := not_lt.mp notLarge
  have members (chunk : Nat) (isFree : chunk ∈ world.dram.freeChunks) : chunk ∈ old ++ new := by
    have isIn := ready.tracked.freeIn chunk isFree
    rwa [staying_nil] at isIn
  rw [get_bind]
  refine Ends.bind ((allocAmong_ends ready members positive small).mono (fun _ _ => id)
    fun after afterReady => ⟨_, _, afterReady⟩) ?_
  rintro (_ | p) first
  · rintro ⟨firstReady, firstGrant⟩
    refine Ends.bind ((allocScanning_ends firstReady positive small).mono (fun _ _ => id)
      fun after afterReady => ⟨_, _, afterReady⟩) ?_
    rintro (_ | p) second
    · rintro ⟨secondReady, isEnd, secondGrant⟩
      have same := firstGrant.trans secondGrant
      refine allocNew_ends secondReady isEnd ?_ positive small
      rw [same.granted, same.inUse]
      exact fresh
    · exact fun secondReady => ⟨_, _, secondReady⟩
  · exact fun firstReady => ⟨_, _, firstReady⟩

end Pmgd.VariableAllocator
