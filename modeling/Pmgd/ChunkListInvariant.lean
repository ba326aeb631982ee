import Mathlib.Tactic.Ring
import Pmgd.Lib.ThrowingState
import Pmgd.VariableAllocator

/-!
# The chunk list in a transaction

The chunks that were in the list when the transaction began, and those that inner transactions
have added, are in the list that a rollback gives; the chunks of large blocks come behind them.
The cursor of the last scanned chunk is at the end of the scanned part, or in the part that has
still to be scanned.
-/

namespace Pmgd.VariableAllocator

open AllocatorUnit (chunkSize headerSize minAllocBytes wordValues isBorderline chunkBound Failure)
open LinkedList ThrowingState

/-! ## The bytes of blocks in a chunk -/

/-- How many bytes of a chunk blocks have. -/
def bytesIn (chunk : Nat) (blocks : List Block) : Nat :=
  ((blocks.filter fun block => decide (block.chunk = chunk)).map
    fun block => firstPart block.size).sum

/-- The block has bytes in its first chunk, and these are inside of it. -/
def Block.Fits (block : Block) : Prop :=
  0 < firstPart block.size ∧ block.address % chunkSize + firstPart block.size ≤ chunkSize

section Bytes

variable {chunk : Nat} {block : Block} {blocks others : List Block}

theorem bytesIn_cons : bytesIn chunk (block :: blocks) =
    (if block.chunk = chunk then firstPart block.size else 0) + bytesIn chunk blocks := by
  by_cases same : block.chunk = chunk
  · simp [bytesIn, same]
  · simp [bytesIn, same]

theorem bytesIn_perm (perm : blocks.Perm others) : bytesIn chunk blocks = bytesIn chunk others :=
  ((perm.filter _).map _).sum_nat

theorem bytesIn_erase (member : block ∈ blocks) : bytesIn chunk blocks =
    (if block.chunk = chunk then firstPart block.size else 0) +
      bytesIn chunk (blocks.erase block) := by
  rw [← bytesIn_cons]
  exact bytesIn_perm (List.perm_cons_erase member)

theorem bytesIn_eq_zero (elsewhere : ∀ block ∈ blocks, block.chunk ≠ chunk) :
    bytesIn chunk blocks = 0 := by
  have noBlock : blocks.filter (fun block => decide (block.chunk = chunk)) = [] := by
    simpa using elsewhere
  rw [bytesIn, noBlock]
  rfl

theorem bytesIn_pos (member : block ∈ blocks) (fits : block.Fits) :
    0 < bytesIn block.chunk blocks := by
  rw [bytesIn_erase member, if_pos rfl]
  exact Nat.add_pos_left fits.1 _

end Bytes

/-! ## Rolling back -/

section Rollback

variable {journal saved : List Saved} {mem other : Memory}

theorem rollback_append :
    rollback (journal ++ saved) mem = rollback journal (rollback saved mem) :=
  List.foldr_append

/-- What no entry of the journal restores stays. -/
theorem rollback_keeps {γ : Type} (view : Memory → γ)
    (keeps : ∀ saved ∈ journal, ∀ mem : Memory, view (mem.restore saved) = view mem) :
    view (rollback journal mem) = view mem := by
  induction journal with
  | nil => rfl
  | cons saved journal ih =>
      refine (keeps saved List.mem_cons_self _).trans (ih ?_)
      exact fun entry member => keeps entry (List.mem_cons_of_mem saved member)

/-- Only one view of the words matters for what a rollback makes of it. -/
theorem rollback_congr {γ : Type} (view : Memory → γ) (same : view other = view mem)
    (respects : ∀ saved, ∀ mem other : Memory, view other = view mem →
      view (other.restore saved) = view (mem.restore saved)) :
    view (rollback journal other) = view (rollback journal mem) := by
  induction journal with
  | nil => exact same
  | cons saved journal ih => exact respects saved _ _ ih

theorem rollback_link_of_notMem (none : ∀ place pointer, .link place pointer ∉ journal) :
    (rollback journal mem).link = mem.link := by
  refine rollback_keeps Memory.link fun saved member mem => ?_
  cases saved with
  | link place pointer => exact absurd member (none place pointer)
  | _ => rfl

theorem rollback_inUse_of_notMem (none : ∀ chunks, .inUse chunks ∉ journal) :
    (rollback journal mem).inUse = mem.inUse := by
  refine rollback_keeps Memory.inUse fun saved member mem => ?_
  cases saved with
  | inUse chunks => exact absurd member (none chunks)
  | _ => rfl

theorem rollback_freeSpace_of_notMem (none : ∀ chunk space, .freeSpace chunk space ∉ journal) :
    (rollback journal mem).freeSpace = mem.freeSpace := by
  refine rollback_keeps Memory.freeSpace fun saved member mem => ?_
  cases saved with
  | freeSpace chunk space => exact absurd member (none chunk space)
  | _ => rfl

theorem rollback_freeList_of_notMem {chunk : Nat}
    (none : ∀ spots, .freeList chunk spots ∉ journal) :
    (rollback journal mem).freeList chunk = mem.freeList chunk := by
  refine rollback_keeps (fun mem => mem.freeList chunk) fun saved member mem => ?_
  cases saved with
  | freeList other spots =>
      refine Function.update_of_ne ?_ _ _
      rintro rfl
      exact none spots member
  | _ => rfl

theorem rollback_link_congr {place : Option Nat} (same : other.link place = mem.link place) :
    (rollback journal other).link place = (rollback journal mem).link place := by
  refine rollback_congr (fun mem => mem.link place) same fun saved mem other same => ?_
  cases saved with
  | link changed pointer =>
      by_cases hit : place = changed
      · simp [Memory.restore, Memory.setLink, hit]
      · simp [Memory.restore, Memory.setLink, hit, same]
  | _ => exact same

theorem rollback_freeList_congr {chunk : Nat} (same : other.freeList chunk = mem.freeList chunk) :
    (rollback journal other).freeList chunk = (rollback journal mem).freeList chunk := by
  refine rollback_congr (fun mem => mem.freeList chunk) same fun saved mem other same => ?_
  cases saved with
  | freeList changed spots =>
      by_cases hit : chunk = changed
      · simp [Memory.restore, Memory.setFreeList, hit]
      · simp [Memory.restore, Memory.setFreeList, hit, same]
  | _ => exact same

theorem rollback_inUse_congr (same : other.inUse = mem.inUse) :
    (rollback journal other).inUse = (rollback journal mem).inUse := by
  refine rollback_congr Memory.inUse same fun saved mem other same => ?_
  cases saved with
  | inUse chunks => rfl
  | _ => exact same

theorem rollback_setLink_of_notMem (none : ∀ place pointer, .link place pointer ∉ journal)
    (place pointer : Option Nat) :
    rollback journal (mem.setLink place pointer) = (rollback journal mem).setLink place pointer := by
  induction journal with
  | nil => rfl
  | cons saved journal ih =>
      have later := ih fun place pointer member =>
        none place pointer (List.mem_cons_of_mem saved member)
      change (rollback journal (mem.setLink place pointer)).restore saved =
        ((rollback journal mem).restore saved).setLink place pointer
      rw [later]
      cases saved with
      | link other value => exact absurd List.mem_cons_self (none other value)
      | _ => rfl

/-- A pointer that was logged and changed is restored. -/
theorem rollback_setLink (place pointer : Option Nat) :
    rollback (journal ++ [.link place (mem.link place)]) (mem.setLink place pointer) =
      rollback journal mem := by
  rw [rollback_append]
  congr 1
  cases mem
  simp [rollback, Memory.restore, Memory.setLink]

theorem rollback_setFreeList (chunk : Nat) (spots : List Spot) :
    rollback (journal ++ [.freeList chunk (mem.freeList chunk)]) (mem.setFreeList chunk spots) =
      rollback journal mem := by
  rw [rollback_append]
  congr 1
  cases mem
  simp [rollback, Memory.restore, Memory.setFreeList]

theorem rollback_setMaxContSpace (chunk space : Nat) :
    rollback (journal ++ [.maxContSpace chunk (mem.maxContSpace chunk)])
      (mem.setMaxContSpace chunk space) = rollback journal mem := by
  rw [rollback_append]
  congr 1
  cases mem
  simp [rollback, Memory.restore, Memory.setMaxContSpace]

theorem rollback_setInUse (chunks : List Nat) :
    rollback (journal ++ [.inUse mem.inUse]) (mem.setInUse chunks) = rollback journal mem := by
  rw [rollback_append]
  rfl

end Rollback

/-! ## Cursors -/

/-- A part of the list was scanned, and the rest is to be scanned; the last scanned chunk is at
the end of the first part, or in the second one. -/
def Cursors (chunks : List Nat) (toScan last : Option Nat) : Prop :=
  ∃ scanned rest, chunks = scanned ++ rest ∧ toScan = rest.head? ∧
    (scanned = [] ∨ last = scanned.getLast? ∨ ∃ chunk ∈ rest, last = some chunk)

section Cursors

variable {chunks first second : List Nat} {toScan last : Option Nat} {chunk : Nat}

theorem Cursors.toScan_mem (cursors : Cursors chunks (some chunk) last) : chunk ∈ chunks := by
  obtain ⟨scanned, rest, rfl, isNext, -⟩ := cursors
  exact List.mem_append_right _ (List.mem_of_head? isNext.symm)

/-- When all chunks were scanned the last one is at the end. -/
theorem Cursors.last_eq (cursors : Cursors chunks none last) :
    chunks = [] ∨ last = chunks.getLast? := by
  obtain ⟨scanned, rest, rfl, isNext, places⟩ := cursors
  obtain rfl := List.head?_eq_none_iff.mp isNext.symm
  rw [List.append_nil]
  refine places.imp id fun isLast => isLast.resolve_right ?_
  rintro ⟨chunk, member, -⟩
  exact List.not_mem_nil member

theorem Cursors.at_end (isLast : last = chunks.getLast?) : Cursors chunks none last :=
  ⟨chunks, [], (List.append_nil _).symm, rfl, .inr (.inl isLast)⟩

theorem Cursors.pass {link : Option Nat → Option Nat} (cursors : Cursors chunks (some chunk) last)
    (linked : Linked link none chunks) : Cursors chunks (link (some chunk)) (some chunk) := by
  obtain ⟨scanned, rest, rfl, isNext, -⟩ := cursors
  obtain ⟨rest, rfl⟩ := List.head?_eq_some_iff.mp isNext.symm
  exact ⟨scanned ++ [chunk], rest, by simp, linked.next, .inr (.inl (by simp))⟩

/-- Taking a chunk out of the list moves the cursors that are at it. -/
theorem Cursors.remove (cursors : Cursors (first ++ chunk :: second) toScan last)
    (nodup : (first ++ chunk :: second).Nodup) :
    Cursors (first ++ second) (if toScan = some chunk then second.head? else toScan)
      (if last = some chunk then first.getLast? else last) := by
  obtain ⟨scanned, rest, split, rfl, places⟩ := cursors
  have member : chunk ∈ scanned ++ rest := by
    rw [← split]
    simp
  obtain ⟨-, distinct, disjoint⟩ := List.nodup_append'.mp nodup
  have notFirst : chunk ∉ first := fun inFirst => disjoint inFirst List.mem_cons_self
  have notSecond : chunk ∉ second := (List.nodup_cons.mp distinct).1
  rw [split] at nodup
  obtain ⟨-, -, apart⟩ := List.nodup_append'.mp nodup
  rcases List.mem_append.mp member with inScanned | inRest
  · obtain ⟨front, back, rfl⟩ := List.append_of_mem inScanned
    have notRest : chunk ∉ rest := fun inRest => apart inScanned inRest
    have notNext : rest.head? ≠ some chunk := fun same => notRest (List.mem_of_head? same)
    rw [List.append_assoc, List.cons_append] at nodup split
    obtain ⟨rfl, -, rfl⟩ := (List.append_cons_inj_of_notMem notFirst notSecond).mp split
    refine ⟨first ++ back, rest, by simp, if_neg notNext, ?_⟩
    rcases places with isEmpty | isLast | ⟨other, inRest, isOther⟩
    · simp at isEmpty
    · refine .inr (.inl ?_)
      rcases List.eq_nil_or_concat' back with rfl | ⟨back, other, rfl⟩
      · rw [if_pos (by simpa using isLast), List.append_nil]
      · have different : other ≠ chunk := by
          rintro rfl
          exact notSecond (by simp)
        have isOther : last = some other := by
          rw [isLast, ← List.cons_append, ← List.append_assoc, List.getLast?_concat]
        rw [if_neg (by rw [isOther]; simpa using different), isOther, ← List.append_assoc,
          List.getLast?_concat]
    · refine .inr (.inr ⟨other, inRest, ?_⟩)
      have different : other ≠ chunk := by
        rintro rfl
        exact notRest inRest
      rw [if_neg (by rw [isOther]; simpa using different), isOther]
  · obtain ⟨front, back, rfl⟩ := List.append_of_mem inRest
    rw [← List.append_assoc] at nodup split
    have notFront : chunk ∉ scanned ++ front :=
      fun inFront => (List.nodup_append'.mp nodup).2.2 inFront List.mem_cons_self
    obtain ⟨rfl, -, rfl⟩ := (List.append_cons_inj_of_notMem notFirst notSecond).mp split
    refine ⟨scanned, front ++ second, by simp, ?_, ?_⟩
    · cases front with
      | nil => simp
      | cons head front =>
          have different : head ≠ chunk := by
            rintro rfl
            exact notFront (by simp)
          simp [different]
    · rcases places with isEmpty | isLast | ⟨other, inRest, isOther⟩
      · exact .inl isEmpty
      · rcases List.eq_nil_or_concat' scanned with isEmpty | ⟨scanned, other, rfl⟩
        · exact .inl isEmpty
        · have different : other ≠ chunk := by
            rintro rfl
            exact notFront (by simp)
          rw [List.getLast?_concat] at isLast ⊢
          exact .inr (.inl (by rw [if_neg (by rw [isLast]; simpa using different), isLast]))
      · by_cases same : other = chunk
        · subst same
          rw [if_pos isOther]
          rcases List.eq_nil_or_concat' front with rfl | ⟨front, before, rfl⟩
          · exact .inr (.inl (by rw [List.append_nil]))
          · refine .inr (.inr ⟨before, by simp, ?_⟩)
            rw [← List.append_assoc, List.getLast?_concat]
        · refine .inr (.inr ⟨other, by simpa [same] using inRest, ?_⟩)
          rw [if_neg (by rw [isOther]; simpa using same), isOther]

end Cursors

/-! ## The invariant -/

/-- A chunk list with the blocks in its chunks. -/
structure Region (mem : Memory) (chunks : List Nat) (blocks : List Block) : Prop where
  linked : Linked mem.link none chunks
  nodup : chunks.Nodup
  aligned : ∀ chunk ∈ chunks, chunkSize ∣ chunk
  inUse : ∀ chunk ∈ chunks, chunk ∈ mem.inUse
  spots : ∀ chunk ∈ chunks, ∀ spot ∈ mem.freeList chunk, spot.offset + spot.size ≤ chunkSize
  space : ∀ chunk ∈ chunks,
    mem.freeSpace chunk + bytesIn chunk blocks ≤ (chunkSize - headerSize : Int)
  blocks : ∀ block ∈ blocks, block.chunk ∈ chunks ∧ block.Fits

/-- The chunks that the commit has not taken out of the list. -/
def staying (old new unlinked : List Nat) : List Nat :=
  (old ++ new).filter fun chunk => decide (chunk ∉ unlinked)

/-- What the DRAM state and the abort callbacks know of the chunks.  The new ones are those of the
large blocks of the running transaction. -/
structure Tracked (dram : Dram) (toFix : List (Nat × Bool)) (old new unlinked : List Nat) :
    Prop where
  nodup : (old ++ new).Nodup
  cursors : Cursors (staying old new unlinked) dram.chunkToScan dram.lastChunkScanned
  scanned : new ≠ [] → dram.chunkToScan = none
  largeFix : ∀ chunk ∈ new, (chunk, true) ∈ toFix
  keys : (toFix.map Prod.fst).Nodup
  keysIn : ∀ chunk ∈ toFix.map Prod.fst, chunk ∈ old ++ new
  freeNodup : dram.freeChunks.Nodup
  freeIn : ∀ chunk ∈ dram.freeChunks, chunk ∈ staying old new unlinked

/-- The list now with the live blocks, and as a rollback gives it with the committed ones. -/
structure Sound (world : World) (blocks live : List Block) (old new : List Nat) : Prop where
  current : Region world.mem (staying old new world.unlinked) live
  restored : Region (rollback world.journal world.mem) old blocks
  tracked : Tracked world.dram world.toFix old new world.unlinked

/-- What a transaction that allocates has logged.  Only large allocations, which need the lock of
the chunk allocator, log the pointers of the list. -/
structure Calm (journal : List Saved) (locked : Bool) (toFix : List (Nat × Bool))
    (old new : List Nat) : Prop where
  noSpace : ∀ chunk space, .freeSpace chunk space ∉ journal
  lists : ∀ chunk spots, .freeList chunk spots ∈ journal → chunk ∈ old ++ new
  noLarge : locked = false → new = []
  noLink : locked = false → ∀ place pointer, .link place pointer ∉ journal
  noGrant : locked = false → ∀ chunks, .inUse chunks ∉ journal
  removals : ∀ chunk, (chunk, true) ∈ toFix → chunk ∈ new

/-- The invariant of a transaction that allocates. -/
structure Ready (world : World) (blocks live : List Block) (old new : List Nat) : Prop where
  sound : Sound world blocks live old new
  unlinked : world.unlinked = []
  calm : Calm world.journal world.locked world.toFix old new

theorem staying_nil (old new : List Nat) : staying old new [] = old ++ new := by
  simp [staying]

theorem Region.length_le {mem : Memory} {chunks : List Nat} {blocks : List Block}
    (region : Region mem chunks blocks) : chunks.length ≤ mem.inUse.length :=
  (List.subperm_of_subset region.nodup region.inUse).length_le

theorem Region.chunkList_eq {mem : Memory} {chunks : List Nat} {blocks : List Block}
    (region : Region mem chunks blocks) : mem.chunkList = chunks :=
  region.linked.nodesFrom_eq region.length_le

end Pmgd.VariableAllocator
