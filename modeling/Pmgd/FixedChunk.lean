import Mathlib.Data.Finset.Card
import Mathlib.Data.Finset.Range
import Pmgd.AllocationEffects

/-!
# The bitmap of a small chunk

A small chunk has spots for objects of one size.  Its bitmap has one bit for each spot and bits
behind the last spot, which are always set.
-/

namespace Pmgd.AllocatorUnit

open UndoLog ThrowingState LabelledRun

/-- `FixedChunk::free`, with the assertions. -/
def fixedChunkFree (objSize addr : Nat) : Alloc Unit := do
  let chunk := addr - addr % smallChunkSize
  let allocBase := chunk + allocOffset objSize
  if ¬ (allocBase ≤ addr ∧ addr < chunk + smallChunkSize) then throw .crash
  else if (addr - allocBase) % objSize ≠ 0 then throw .crash
  else
    let index := (addr - allocBase) / objSize
    let world ← get
    log [.freeSpots chunk, .nextIndex chunk]
    log [.occupants chunk (index / 32)]
    -- the complement of the mask in 32 bits
    store (.occupants chunk (index / 32))
      (world.mem (.occupants chunk (index / 32)) &&& ((wordValues - 1) ^^^ 2 ^ (index % 32)))
    store (.nextIndex chunk)
      (if world.mem (.freeSpots chunk) = 0 then index else world.mem (.nextIndex chunk))
    store (.freeSpots chunk) (world.mem (.freeSpots chunk) + 1)

namespace FixedChunk

/-- The words, and the objects that are in use. -/
structure State where
  world : World
  live : List Nat

/-- Calls, where `room` is the number of log calls that find room in the journal; `next_index` may
have any value. -/
inductive Label
  | alloc (room : Nat)
  | free (addr room : Nat)
  | nextIndex (value : Nat)

/-- `FixedChunk::alloc` is called if there are free spots, and `FixedChunk::free` for objects in
use. -/
def step (chunk objSize : Nat) (state : State) : Label → Option State
  | .alloc room =>
      if state.world.mem (.freeSpots chunk) = 0 then none
      else
        match fixedChunkAlloc chunk objSize { state.world with room := room } with
        | .ok address world => some ⟨world, address :: state.live⟩
        | .error .crash _ => none
        | .error _ world => some ⟨world, state.live⟩
  | .free addr room =>
      if addr ∈ state.live then
        match fixedChunkFree objSize addr { state.world with room := room } with
        | .ok _ world => some ⟨world, state.live.erase addr⟩
        | .error .crash _ => none
        | .error _ world => some ⟨world, state.live⟩
      else none
  | .nextIndex value =>
      some { state with world := state.world.store (.nextIndex chunk) value }

/-- The clear bits of the spots. -/
def clearSpots (mem : Cell → Nat) (chunk objSize : Nat) : Finset Nat :=
  (Finset.range (maxSpots objSize)).filter fun index => isOccupied mem chunk index = false

/-- The call returns, or it finds no room in the journal. -/
def Completes {α : Type} (body : Alloc α) (world : World) (good : α → Prop) : Prop :=
  match body world with
  | .ok value _ => good value
  | .error failure _ => failure = .outOfJournalSpace

/-- Two objects of one size do not overlap. -/
def Apart (objSize address other : Nat) : Prop :=
  address + objSize ≤ other ∨ other + objSize ≤ address

/-- What holds of a small chunk between the calls. -/
structure Sound (chunk objSize : Nat) (state : State) : Prop where
  freeSpots : state.world.mem (.freeSpots chunk) =
    (clearSpots state.world.mem chunk objSize).card
  unavailable : ∀ index, maxSpots objSize ≤ index → index < bitmapInts objSize * 32 →
    isOccupied state.world.mem chunk index = true
  disjoint : state.live.Pairwise (Apart objSize)
  inside : ∀ address ∈ state.live, chunk + headerSize + bitmapInts objSize * 4 ≤ address ∧
    address + objSize ≤ chunk + smallChunkSize
  allocates : state.world.mem (.freeSpots chunk) ≠ 0 → ∀ room,
    Completes (fixedChunkAlloc chunk objSize) { state.world with room := room } fun address =>
      ∀ other ∈ state.live, Apart objSize address other
  frees : ∀ addr ∈ state.live, ∀ room,
    Completes (fixedChunkFree objSize addr) { state.world with room := room } fun _ => True

/-! ## The sizes -/

/-- What the rounding macro gives for the sizes of the table, also for those that are not powers of
two. -/
theorem sizes {objSize : Nat} (isSize : objSize ∈ fixedSizes) :
    0 < objSize ∧ headerSize + bitmapInts objSize * 4 ≤ allocOffset objSize ∧
      allocOffset objSize + objSize * maxSpots objSize ≤ smallChunkSize ∧
      bitmapInts objSize = maxSpots objSize / 32 + 1 := by
  have ofAll : ∀ objSize ∈ fixedSizes, 0 < objSize ∧
      headerSize + bitmapInts objSize * 4 ≤ allocOffset objSize ∧
      allocOffset objSize + objSize * maxSpots objSize ≤ smallChunkSize ∧
      bitmapInts objSize = maxSpots objSize / 32 + 1 := by
    decide
  exact ofAll objSize isSize

/-- The address of a spot. -/
def spotAddress (chunk objSize index : Nat) : Nat :=
  chunk + allocOffset objSize + objSize * index

variable {chunk objSize index other : Nat} {mem : Cell → Nat}

theorem spotAddress_apart (different : index ≠ other) :
    Apart objSize (spotAddress chunk objSize index) (spotAddress chunk objSize other) := by
  have apart : ∀ {first second : Nat}, first < second →
      spotAddress chunk objSize first + objSize ≤ spotAddress chunk objSize second := by
    intro first second before
    have grows : objSize * (first + 1) ≤ objSize * second := Nat.mul_le_mul_left _ before
    rw [Nat.mul_add_one] at grows
    unfold spotAddress
    omega
  rcases Nat.lt_or_gt_of_ne different with before | after
  · exact Or.inl (apart before)
  · exact Or.inr (apart after)

theorem spotAddress_end (isSize : objSize ∈ fixedSizes) (isSpot : index < maxSpots objSize) :
    spotAddress chunk objSize index + objSize ≤ chunk + smallChunkSize := by
  obtain ⟨-, -, fits, -⟩ := sizes isSize
  have grows : objSize * (index + 1) ≤ objSize * maxSpots objSize := Nat.mul_le_mul_left _ isSpot
  rw [Nat.mul_add_one] at grows
  unfold spotAddress
  omega

theorem spotAddress_injective (isSize : objSize ∈ fixedSizes)
    (same : spotAddress chunk objSize index = spotAddress chunk objSize other) :
    index = other := by
  by_contra different
  obtain ⟨positive, -⟩ := sizes isSize
  have apart : Apart objSize (spotAddress chunk objSize index)
      (spotAddress chunk objSize other) := spotAddress_apart different
  unfold Apart at apart
  omega

/-- `addr & PAGE_MASK` finds the chunk. -/
theorem chunk_of_spotAddress (isSize : objSize ∈ fixedSizes) (aligned : smallChunkSize ∣ chunk)
    (isSpot : index < maxSpots objSize) :
    spotAddress chunk objSize index - spotAddress chunk objSize index % smallChunkSize = chunk := by
  obtain ⟨positive, -⟩ := sizes isSize
  have fits : spotAddress chunk objSize index + objSize ≤ chunk + smallChunkSize :=
    spotAddress_end isSize isSpot
  obtain ⟨page, rfl⟩ := aligned
  have inChunk : allocOffset objSize + objSize * index < smallChunkSize := by
    unfold spotAddress at fits
    omega
  have split : spotAddress (smallChunkSize * page) objSize index =
      smallChunkSize * page + (allocOffset objSize + objSize * index) := by
    rw [spotAddress, Nat.add_assoc]
  rw [split, Nat.mul_add_mod, Nat.mod_eq_of_lt inChunk, Nat.add_sub_cancel]

/-! ## Bits -/

theorem isOccupied_setBit (index other : Nat) :
    isOccupied (Function.update mem (.occupants chunk (index / 32))
        (mem (.occupants chunk (index / 32)) ||| 2 ^ (index % 32))) chunk other =
      (isOccupied mem chunk other || decide (other = index)) := by
  unfold isOccupied
  by_cases sameWord : other / 32 = index / 32
  · rw [sameWord, Function.update_self, Nat.testBit_or, Nat.testBit_two_pow]
    congr 1
    rw [decide_eq_decide]
    omega
  · rw [Function.update_of_ne (by simpa using sameWord)]
    have different : other ≠ index := fun same => sameWord (by rw [same])
    rw [decide_eq_false different, Bool.or_false]

theorem isOccupied_clearBit (index other : Nat) :
    isOccupied (Function.update mem (.occupants chunk (index / 32))
        (mem (.occupants chunk (index / 32)) &&& ((wordValues - 1) ^^^ 2 ^ (index % 32))))
        chunk other =
      (isOccupied mem chunk other && !decide (other = index)) := by
  unfold isOccupied
  by_cases sameWord : other / 32 = index / 32
  · have inWord : other % 32 < 32 := Nat.mod_lt _ (by decide)
    rw [sameWord, Function.update_self, Nat.testBit_and, Nat.testBit_xor, Nat.testBit_two_pow,
      wordValues, Nat.testBit_two_pow_sub_one, decide_eq_true inWord, Bool.true_xor]
    congr 2
    rw [decide_eq_decide]
    omega
  · rw [Function.update_of_ne (by simpa using sameWord)]
    have different : other ≠ index := fun same => sameWord (by rw [same])
    rw [decide_eq_false different, Bool.not_false, Bool.and_true]

theorem clearSpots_setBit {after : Cell → Nat}
    (isOccupied_after : ∀ other,
      isOccupied after chunk other = (isOccupied mem chunk other || decide (other = index))) :
    clearSpots after chunk objSize = (clearSpots mem chunk objSize).erase index := by
  ext other
  simp only [clearSpots, Finset.mem_filter, Finset.mem_erase, isOccupied_after,
    Bool.or_eq_false_iff, decide_eq_false_iff_not]
  grind

theorem clearSpots_clearBit {after : Cell → Nat} (isSpot : index < maxSpots objSize)
    (isOccupied_after : ∀ other,
      isOccupied after chunk other = (isOccupied mem chunk other && !decide (other = index))) :
    clearSpots after chunk objSize = insert index (clearSpots mem chunk objSize) := by
  ext other
  simp only [clearSpots, Finset.mem_filter, Finset.mem_insert, isOccupied_after,
    Bool.and_eq_false_iff, Bool.not_eq_false', decide_eq_true_eq, Finset.mem_range]
  constructor
  · rintro ⟨inRange, isClear | same⟩
    · exact Or.inr ⟨inRange, isClear⟩
    · exact Or.inl same
  · rintro (rfl | ⟨inRange, isClear⟩)
    · exact ⟨isSpot, Or.inr rfl⟩
    · exact ⟨inRange, Or.inl isClear⟩

/-! ## The search -/

theorem findIndex_eq_some (isSize : objSize ∈ fixedSizes)
    (isFound : findIndex mem chunk objSize = some index) :
    isOccupied mem chunk index = false ∧ index < bitmapInts objSize * 32 := by
  obtain ⟨-, -, -, words⟩ := sizes isSize
  unfold findIndex at isFound
  rcases Option.or_eq_some_iff.mp isFound with first | ⟨-, second⟩
  · have isClear := List.find?_some first
    have inRange := List.mem_range'_1.mp (List.mem_of_find?_eq_some first)
    exact ⟨by simpa using isClear, by omega⟩
  · have isClear := List.find?_some second
    have inRange := List.mem_range.mp (List.mem_of_find?_eq_some second)
    exact ⟨by simpa using isClear, inRange⟩

theorem findIndex_eq_none (isSize : objSize ∈ fixedSizes)
    (notFound : findIndex mem chunk objSize = none) : clearSpots mem chunk objSize = ∅ := by
  obtain ⟨-, -, -, words⟩ := sizes isSize
  unfold findIndex at notFound
  have second := (Option.or_eq_none_iff.mp notFound).2
  apply Finset.filter_eq_empty_iff.mpr
  intro index inRange isClear
  have isLess := Finset.mem_range.mp inRange
  have occupied := List.find?_eq_none.mp second index (List.mem_range.mpr (by omega))
  simp [isClear] at occupied

/-! ## The calls -/

/-- The words after a spot has been taken. -/
def taken (mem : Cell → Nat) (chunk index : Nat) : Cell → Nat :=
  Function.update (Function.update (Function.update mem (.freeSpots chunk)
    (mem (.freeSpots chunk) - 1)) (.occupants chunk (index / 32))
    (mem (.occupants chunk (index / 32)) ||| 2 ^ (index % 32))) (.nextIndex chunk) (index + 1)

/-- The words after a spot has been freed. -/
def released (mem : Cell → Nat) (chunk index : Nat) : Cell → Nat :=
  Function.update (Function.update (Function.update mem (.occupants chunk (index / 32))
    (mem (.occupants chunk (index / 32)) &&& ((wordValues - 1) ^^^ 2 ^ (index % 32))))
    (.nextIndex chunk)
    (if mem (.freeSpots chunk) = 0 then index else mem (.nextIndex chunk)))
    (.freeSpots chunk) (mem (.freeSpots chunk) + 1)

variable {world : World} {live : List Nat}

theorem log_bind {α : Type} {cells : List Cell} {next : Unit → Alloc α} :
    (log cells >>= next) world =
      if world.room = 0 then .error .outOfJournalSpace world else next () (world.log cells) := by
  change EStateM.bind (log cells) next world = _
  unfold EStateM.bind
  rw [log_eq]
  by_cases full : world.room = 0
  · rw [if_pos full, if_pos full]
  · rw [if_neg full, if_neg full]

/-- The call ends without an exception in these words, or without room in the journal in the old
ones. -/
def EndsIn {α : Type} (body : Alloc α) (world : World) (value : α) (mem : Cell → Nat) : Prop :=
  (∃ after, body world = .ok value after ∧ after.mem = mem) ∨
    ∃ after, body world = .error .outOfJournalSpace after ∧ after.mem = world.mem

theorem EndsIn.completes {α : Type} {body : Alloc α} {value : α} {good : α → Prop}
    (ends : EndsIn body world value mem) (isGood : good value) : Completes body world good := by
  unfold Completes
  rcases ends with ⟨after, isOk, -⟩ | ⟨after, isError, -⟩
  · rw [isOk]
    exact isGood
  · rw [isError]

theorem fixedChunkAlloc_endsIn (hasSpots : world.mem (.freeSpots chunk) ≠ 0)
    (isFound : findIndex world.mem chunk objSize = some index) :
    EndsIn (fixedChunkAlloc chunk objSize) world (spotAddress chunk objSize index)
      (taken world.mem chunk index) := by
  unfold EndsIn fixedChunkAlloc
  rw [get_bind, if_neg hasSpots, isFound]
  dsimp only
  rw [log_bind]
  by_cases full : world.room = 0
  · rw [if_pos full]
    exact Or.inr ⟨_, rfl, rfl⟩
  · rw [if_neg full, log_bind]
    by_cases fullAfter : (world.log [.freeSpots chunk, .nextIndex chunk]).room = 0
    · rw [if_pos fullAfter]
      exact Or.inr ⟨_, rfl, rfl⟩
    · rw [if_neg fullAfter]
      exact Or.inl ⟨_, rfl, rfl⟩

theorem fixedChunkFree_endsIn (isSize : objSize ∈ fixedSizes) (aligned : smallChunkSize ∣ chunk)
    (isSpot : index < maxSpots objSize) :
    EndsIn (fixedChunkFree objSize (spotAddress chunk objSize index)) world ()
      (released world.mem chunk index) := by
  obtain ⟨positive, -⟩ := sizes isSize
  have fits : spotAddress chunk objSize index + objSize ≤ chunk + smallChunkSize :=
    spotAddress_end isSize isSpot
  have inside : chunk + allocOffset objSize ≤ spotAddress chunk objSize index ∧
      spotAddress chunk objSize index < chunk + smallChunkSize :=
    ⟨Nat.le_add_right _ _, by omega⟩
  have distance : spotAddress chunk objSize index - (chunk + allocOffset objSize) =
      objSize * index := Nat.add_sub_cancel_left ..
  unfold EndsIn fixedChunkFree
  dsimp only
  rw [chunk_of_spotAddress isSize aligned isSpot, if_neg (not_not.mpr inside), distance,
    if_neg (by rw [Nat.mul_mod_right]; exact not_not.mpr rfl), get_bind,
    Nat.mul_div_cancel_left _ positive]
  rw [log_bind]
  by_cases full : world.room = 0
  · rw [if_pos full]
    exact Or.inr ⟨_, rfl, rfl⟩
  · rw [if_neg full, log_bind]
    by_cases fullAfter : (world.log [.freeSpots chunk, .nextIndex chunk]).room = 0
    · rw [if_pos fullAfter]
      exact Or.inr ⟨_, rfl, rfl⟩
    · rw [if_neg fullAfter]
      exact Or.inl ⟨_, rfl, rfl⟩

/-! ## The invariant -/

/-- The objects in use are those at the spots whose bit is set. -/
structure Counts (chunk objSize : Nat) (mem : Cell → Nat) (live : List Nat) : Prop where
  freeSpots : mem (.freeSpots chunk) = (clearSpots mem chunk objSize).card
  unavailable : ∀ index, maxSpots objSize ≤ index → index < bitmapInts objSize * 32 →
    isOccupied mem chunk index = true
  nodup : live.Nodup
  mem_live_iff : ∀ address, address ∈ live ↔ ∃ index < maxSpots objSize,
    isOccupied mem chunk index = true ∧ address = spotAddress chunk objSize index

theorem Counts.of_eq {after : Cell → Nat} (counts : Counts chunk objSize mem live)
    (sameSpots : after (.freeSpots chunk) = mem (.freeSpots chunk))
    (sameBits : ∀ word, after (.occupants chunk word) = mem (.occupants chunk word)) :
    Counts chunk objSize after live := by
  have sameOccupied : isOccupied after chunk = isOccupied mem chunk := by
    ext index
    rw [isOccupied, isOccupied, sameBits]
  have sameClear : clearSpots after chunk objSize = clearSpots mem chunk objSize := by
    rw [clearSpots, clearSpots, sameOccupied]
  exact ⟨by rw [sameSpots, counts.freeSpots, sameClear], by rw [sameOccupied]; exact
    counts.unavailable, counts.nodup, by rw [sameOccupied]; exact counts.mem_live_iff⟩

theorem Counts.isSpot_of_clear (counts : Counts chunk objSize mem live)
    (isClear : isOccupied mem chunk index = false) (inBitmap : index < bitmapInts objSize * 32) :
    index < maxSpots objSize := by
  by_contra beyond
  have isSet := counts.unavailable index (not_lt.mp beyond) inBitmap
  rw [isClear] at isSet
  cases isSet

/-- As long as the count says so, the search finds the index of a spot that is not in use. -/
theorem Counts.exists_findIndex (counts : Counts chunk objSize mem live)
    (isSize : objSize ∈ fixedSizes) (hasSpots : mem (.freeSpots chunk) ≠ 0) :
    ∃ index < maxSpots objSize, findIndex mem chunk objSize = some index ∧
      isOccupied mem chunk index = false := by
  cases isFound : findIndex mem chunk objSize with
  | none =>
      have isEmpty := findIndex_eq_none isSize isFound
      rw [counts.freeSpots, isEmpty, Finset.card_empty] at hasSpots
      exact absurd rfl hasSpots
  | some index =>
      obtain ⟨isClear, inBitmap⟩ := findIndex_eq_some isSize isFound
      exact ⟨index, counts.isSpot_of_clear isClear inBitmap, rfl, isClear⟩

theorem Counts.take (counts : Counts chunk objSize mem live) (isSize : objSize ∈ fixedSizes)
    (isSpot : index < maxSpots objSize) (isClear : isOccupied mem chunk index = false) :
    Counts chunk objSize (taken mem chunk index) (spotAddress chunk objSize index :: live) := by
  have isOccupied_taken : ∀ other, isOccupied (taken mem chunk index) chunk other =
      (isOccupied mem chunk other || decide (other = index)) := by
    intro other
    rw [← isOccupied_setBit]
    simp [isOccupied, taken, Function.update_apply]
  have notLive : spotAddress chunk objSize index ∉ live := by
    rw [counts.mem_live_iff]
    rintro ⟨other, -, isSet, same⟩
    rw [← spotAddress_injective isSize same, isClear] at isSet
    cases isSet
  have isMember : index ∈ clearSpots mem chunk objSize :=
    Finset.mem_filter.mpr ⟨Finset.mem_range.mpr isSpot, isClear⟩
  refine ⟨?_, fun other beyond inBitmap => ?_, List.nodup_cons.mpr ⟨notLive, counts.nodup⟩,
    fun address => ?_⟩
  · rw [clearSpots_setBit isOccupied_taken, Finset.card_erase_of_mem isMember, ← counts.freeSpots]
    simp [taken]
  · rw [isOccupied_taken, counts.unavailable other beyond inBitmap, Bool.true_or]
  · rw [List.mem_cons, counts.mem_live_iff]
    constructor
    · rintro (rfl | ⟨other, isOther, isSet, rfl⟩)
      · exact ⟨index, isSpot, by simp [isOccupied_taken], rfl⟩
      · exact ⟨other, isOther, by simp [isOccupied_taken, isSet], rfl⟩
    · rintro ⟨other, isOther, isSet, rfl⟩
      rw [isOccupied_taken, Bool.or_eq_true, decide_eq_true_eq] at isSet
      rcases isSet with isSet | rfl
      · exact Or.inr ⟨other, isOther, isSet, rfl⟩
      · exact Or.inl rfl

theorem Counts.release (counts : Counts chunk objSize mem live) (isSize : objSize ∈ fixedSizes)
    (isSpot : index < maxSpots objSize) (isSet : isOccupied mem chunk index = true) :
    Counts chunk objSize (released mem chunk index)
      (live.erase (spotAddress chunk objSize index)) := by
  have isOccupied_released : ∀ other, isOccupied (released mem chunk index) chunk other =
      (isOccupied mem chunk other && !decide (other = index)) := by
    intro other
    rw [← isOccupied_clearBit]
    simp [isOccupied, released, Function.update_apply]
  have notMember : index ∉ clearSpots mem chunk objSize := by
    rw [clearSpots, Finset.mem_filter, isSet]
    exact fun both => Bool.noConfusion both.2
  refine ⟨?_, fun other beyond inBitmap => ?_, counts.nodup.erase _, fun address => ?_⟩
  · rw [clearSpots_clearBit isSpot isOccupied_released, Finset.card_insert_of_notMem notMember,
      ← counts.freeSpots]
    simp [released]
  · have different : other ≠ index := by omega
    rw [isOccupied_released, counts.unavailable other beyond inBitmap,
      decide_eq_false different, Bool.not_false, Bool.true_and]
  · rw [counts.nodup.mem_erase_iff, counts.mem_live_iff]
    constructor
    · rintro ⟨notFreed, other, isOther, isUsed, rfl⟩
      have different : other ≠ index := fun same => notFreed (by rw [same])
      exact ⟨other, isOther, by simp [isOccupied_released, isUsed, different], rfl⟩
    · rintro ⟨other, isOther, isUsed, rfl⟩
      simp only [isOccupied_released, Bool.and_eq_true, Bool.not_eq_true',
        decide_eq_false_iff_not] at isUsed
      exact ⟨fun same => isUsed.2 (spotAddress_injective isSize same), other, isOther, isUsed.1,
        rfl⟩

/-! ## Runs -/

theorem Counts.sound {state : State} (counts : Counts chunk objSize state.world.mem state.live)
    (isSize : objSize ∈ fixedSizes) (aligned : smallChunkSize ∣ chunk) :
    Sound chunk objSize state where
  freeSpots := counts.freeSpots
  unavailable := counts.unavailable
  disjoint := by
    apply counts.nodup.imp_of_mem
    intro address other isLive otherLive different
    obtain ⟨index, -, -, rfl⟩ := (counts.mem_live_iff address).mp isLive
    obtain ⟨otherIndex, -, -, rfl⟩ := (counts.mem_live_iff other).mp otherLive
    exact spotAddress_apart fun same => different (by rw [same])
  inside := by
    intro address isLive
    obtain ⟨index, isSpot, -, rfl⟩ := (counts.mem_live_iff address).mp isLive
    obtain ⟨-, header, -⟩ := sizes isSize
    refine ⟨?_, spotAddress_end isSize isSpot⟩
    unfold spotAddress
    omega
  allocates := by
    intro hasSpots room
    obtain ⟨index, -, isFound, isClear⟩ := counts.exists_findIndex isSize hasSpots
    have ends : EndsIn (fixedChunkAlloc chunk objSize) { state.world with room := room } _ _ :=
      fixedChunkAlloc_endsIn hasSpots isFound
    refine ends.completes fun other otherLive => ?_
    obtain ⟨otherIndex, -, isSet, rfl⟩ := (counts.mem_live_iff other).mp otherLive
    apply spotAddress_apart
    rintro rfl
    rw [isClear] at isSet
    cases isSet
  frees := by
    intro addr isLive room
    obtain ⟨index, isSpot, -, rfl⟩ := (counts.mem_live_iff addr).mp isLive
    exact (fixedChunkFree_endsIn isSize aligned isSpot).completes trivial

theorem step_counts {state next : State} {label : Label} (isSize : objSize ∈ fixedSizes)
    (aligned : smallChunkSize ∣ chunk)
    (counts : Counts chunk objSize state.world.mem state.live)
    (stepped : step chunk objSize state label = some next) :
    Counts chunk objSize next.world.mem next.live := by
  cases label with
  | alloc room =>
      unfold step at stepped
      by_cases full : state.world.mem (.freeSpots chunk) = 0
      · simp only [if_pos full, reduceCtorEq] at stepped
      · simp only [if_neg full] at stepped
        obtain ⟨index, isSpot, isFound, isClear⟩ := counts.exists_findIndex isSize full
        have ends : EndsIn (fixedChunkAlloc chunk objSize) { state.world with room := room } _ _ :=
          fixedChunkAlloc_endsIn full isFound
        rcases ends with ⟨after, isOk, isTaken⟩ | ⟨after, isError, same⟩
        · rw [isOk] at stepped
          obtain rfl := Option.some.inj stepped
          rw [isTaken]
          exact counts.take isSize isSpot isClear
        · rw [isError] at stepped
          obtain rfl := Option.some.inj stepped
          rw [same]
          exact counts
  | free addr room =>
      unfold step at stepped
      by_cases isLive : addr ∈ state.live
      · simp only [if_pos isLive] at stepped
        obtain ⟨index, isSpot, isSet, rfl⟩ := (counts.mem_live_iff addr).mp isLive
        have ends : EndsIn (fixedChunkFree objSize (spotAddress chunk objSize index))
            { state.world with room := room } _ _ := fixedChunkFree_endsIn isSize aligned isSpot
        rcases ends with ⟨after, isOk, isReleased⟩ | ⟨after, isError, same⟩
        · rw [isOk] at stepped
          obtain rfl := Option.some.inj stepped
          rw [isReleased]
          exact counts.release isSize isSpot isSet
        · rw [isError] at stepped
          obtain rfl := Option.some.inj stepped
          rw [same]
          exact counts
      · simp only [if_neg isLive, reduceCtorEq] at stepped
  | nextIndex value =>
      obtain rfl := Option.some.inj stepped
      apply counts.of_eq
      · simp [World.store]
      · simp [World.store]

/-! ## New chunks -/

theorem clearOccupants_eq (chunk words : Nat) (world : World) :
    ∃ after, clearOccupants chunk words world = .ok () after ∧
      (∀ word < words, after.mem (.occupants chunk word) = 0) ∧
      ∀ cell, (∀ word, cell ≠ .occupants chunk word) → after.mem cell = world.mem cell := by
  induction words with
  | zero => exact ⟨world, rfl, fun _ isLess => absurd isLess (Nat.not_lt_zero _), fun _ _ => rfl⟩
  | succ words ih =>
      obtain ⟨middle, isMiddle, cleared, others⟩ := ih
      refine ⟨middle.store (.occupants chunk words) 0, ?_, fun word isLess => ?_,
        fun cell notBit => ?_⟩
      · change EStateM.bind (clearOccupants chunk words) _ world = _
        unfold EStateM.bind
        rw [isMiddle]
        rfl
      · rw [mem_store, Function.update_apply]
        split_ifs with last
        · rfl
        · have different : word ≠ words := fun same => last (by rw [same])
          exact cleared word (by omega)
      · rw [mem_store, Function.update_of_ne (notBit words), others cell notBit]

theorem testBit_unavailable {spots bit : Nat} (inWord : bit < 32) :
    (unavailable spots).testBit bit = decide (spots % 32 ≤ bit) := by
  have isLess : spots % 32 < 32 := Nat.mod_lt _ (by decide)
  have product : unavailable spots = 2 ^ (spots % 32) * (2 ^ (32 - spots % 32) - 1) := by
    rw [unavailable, wordValues, Nat.mul_sub_one, ← Nat.pow_add,
      Nat.add_sub_cancel' isLess.le]
  rw [product, Nat.testBit_two_pow_mul, Nat.testBit_two_pow_sub_one]
  by_cases behind : spots % 32 ≤ bit
  · have inRest : bit - spots % 32 < 32 - spots % 32 := by omega
    simp [behind, inRest]
  · simp [behind]

theorem newFixed_counts (isSize : objSize ∈ fixedSizes) {start : World}
    (isNew : newFixed chunk objSize world = .ok () start) :
    Counts chunk objSize start.mem [] := by
  obtain ⟨-, -, -, words⟩ := sizes isSize
  unfold newFixed at isNew
  simp only [store_bind] at isNew
  obtain ⟨middle, isMiddle, cleared, others⟩ := clearOccupants_eq chunk (bitmapInts objSize)
    (((world.store (.nextFixed chunk) 0).store (.freeSpots chunk) (maxSpots objSize)).store
      (.nextIndex chunk) 0)
  have isStart : start = middle.store (.occupants chunk (maxSpots objSize / 32))
      (middle.mem (.occupants chunk (maxSpots objSize / 32)) ||| unavailable (maxSpots objSize)) := by
    change EStateM.bind (clearOccupants chunk (bitmapInts objSize)) _ _ = _ at isNew
    unfold EStateM.bind at isNew
    rw [isMiddle] at isNew
    cases isNew
    rfl
  have isOccupied_start : ∀ index < bitmapInts objSize * 32,
      isOccupied start.mem chunk index = decide (maxSpots objSize ≤ index) := by
    intro index inBitmap
    unfold isOccupied
    rw [isStart, mem_store, Function.update_apply]
    split_ifs with last
    · have sameWord : index / 32 = maxSpots objSize / 32 := (Cell.occupants.inj last).2
      rw [cleared _ (by omega), Nat.zero_or, testBit_unavailable (Nat.mod_lt _ (by decide)),
        decide_eq_decide]
      omega
    · have otherWord : index / 32 ≠ maxSpots objSize / 32 := fun same => last (by rw [same])
      rw [cleared _ (by omega), Nat.zero_testBit, eq_comm, decide_eq_false_iff_not]
      omega
  have isAll : clearSpots start.mem chunk objSize = Finset.range (maxSpots objSize) := by
    apply Finset.filter_true_of_mem
    intro index inRange
    have isLess := Finset.mem_range.mp inRange
    rw [isOccupied_start index (by omega), decide_eq_false_iff_not]
    omega
  refine ⟨?_, fun index beyond inBitmap => ?_, List.nodup_nil, fun address => ?_⟩
  · rw [isAll, Finset.card_range, isStart, mem_store, Function.update_of_ne (by simp),
      others _ (by simp)]
    simp [World.store]
  · rw [isOccupied_start index inBitmap, decide_eq_true beyond]
  · refine iff_of_false List.not_mem_nil ?_
    rintro ⟨index, isSpot, isSet, -⟩
    rw [isOccupied_start index (by omega), decide_eq_true_eq] at isSet
    omega

/-- In every run of a new chunk, whatever is written to `next_index`, the count is that of the clear
bits, the bits behind the last spot stay set, and the objects in use are apart from each other, from
the header and from the bitmap; `alloc` finds a spot that is not in use, and neither call runs into
an assertion. -/
theorem sound_of_run {objSize chunk : Nat} (isSize : objSize ∈ fixedSizes)
    (aligned : smallChunkSize ∣ chunk) {world start : World}
    (isNew : newFixed chunk objSize world = .ok () start) {labels : List Label} {state : State}
    (ran : run (step chunk objSize) ⟨start, []⟩ labels = some state) :
    Sound chunk objSize state := by
  have counts := run_invariant
    (fun state : State => Counts chunk objSize state.world.mem state.live)
    (fun _ _ _ counts _ stepped => step_counts isSize aligned counts stepped)
    (newFixed_counts isSize isNew) (meetsAlong_true _ _) ran
  exact counts.sound isSize aligned

/-- No words, and nothing in DRAM. -/
def emptyWorld : World :=
  ⟨fun _ => 0, [], ⟨[], 0, 0, fun _ => [], fun _ => 0, fun _ => 0, [], 0⟩, false, false, 0,
    fun _ => none⟩

/-- The second object comes from a spot that `next_index` does not point to. -/
theorem sound_of_run_wrapsAround :
    ∃ start state, newFixed 8192 64 emptyWorld = .ok () start ∧
      run (step 8192 64) ⟨start, []⟩ [.alloc 2, .nextIndex 63, .alloc 2, .free 8256 2, .alloc 1] =
        some state ∧ state.live = [8320] ∧ Sound 8192 64 state := by
  have isNew : ∃ start, newFixed 8192 64 emptyWorld = .ok () start := ⟨_, rfl⟩
  obtain ⟨start, isNew⟩ := isNew
  have ran : ∃ state, run (step 8192 64) ⟨start, []⟩
      [.alloc 2, .nextIndex 63, .alloc 2, .free 8256 2, .alloc 1] = some state ∧
        state.live = [8320] := by
    cases isNew
    exact ⟨_, rfl, rfl⟩
  obtain ⟨state, ran, live⟩ := ran
  exact ⟨start, state, isNew, ran, live, sound_of_run (by decide) (by decide) isNew ran⟩

end FixedChunk

end Pmgd.AllocatorUnit
