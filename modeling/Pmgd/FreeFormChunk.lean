import Mathlib.Algebra.Order.Ring.Nat
import Mathlib.Data.List.Nodup
import Mathlib.Data.List.Pairwise
import Mathlib.Data.List.Perm.Subperm
import Pmgd.Lib.ByteMemory
import Pmgd.Lib.LabelledRun
import Pmgd.VariableAllocator

/-!
# The bytes of a free-form chunk

A chunk starts with its header.  Each free spot has the offset of the next one and its own size in
its first 8 bytes, so that the free list is threaded through the free memory.  Blocks are cut off
from the end of a spot, or take all of it with up to 7 bytes that are lost.  A freed block becomes
the first spot, or joins the first spot when that follows it.
-/

namespace Pmgd.FreeFormChunk

open ByteMemory LabelledRun
open AllocatorUnit (chunkSize headerSize minAllocBytes wordValues spotBound)
open VariableAllocator (Spot)

/-- A `uint32_t`. -/
def word (mem : Memory) (address : Nat) : Nat :=
  loadNat mem address 4

def setWord (mem : Memory) (address value : Nat) : Memory :=
  store mem address (encode 4 value)

/-! ## The header and the spots -/

/-- The address of `free_space`. -/
def freeSpaceAt (chunk : Nat) : Nat :=
  chunk + 8

/-- The address of `free_list`. -/
def freeListAt (chunk : Nat) : Nat :=
  chunk + 12

/-- The address of `max_cont_space`. -/
def maxContSpaceAt (chunk : Nat) : Nat :=
  chunk + 16

/-- The address of `my_id`. -/
def myIdAt (chunk : Nat) : Nat :=
  chunk + 20

/-- The address of `free_spot_t::next`. -/
def nextAt (chunk offset : Nat) : Nat :=
  chunk + offset

/-- The address of `free_spot_t::size`. -/
def sizeAt (chunk offset : Nat) : Nat :=
  chunk + offset + 4

/-- The constructor. -/
def construct (mem : Memory) (chunk allocId used : Nat) : Memory :=
  let space := chunkSize - headerSize - used
  let mem := setWord mem (myIdAt chunk) allocId
  let mem := store mem chunk (encode 8 0)
  let mem := setWord mem (freeSpaceAt chunk) space
  let mem := setWord mem (freeListAt chunk) headerSize
  let mem := setWord mem (nextAt chunk headerSize) 0
  let mem := setWord mem (sizeAt chunk headerSize) space
  setWord mem (maxContSpaceAt chunk) space

/-- The loop of `find_max_cont_space`. -/
def maxSpot (mem : Memory) (chunk : Nat) : Nat → Nat → Nat → Nat
  | 0, _, space => space
  | bound + 1, offset, space =>
      if offset = 0 then space
      else
        maxSpot mem chunk bound (word mem (nextAt chunk offset))
          (max space (word mem (sizeAt chunk offset)))

/-- `find_max_cont_space`. -/
def findMaxContSpace (mem : Memory) (chunk : Nat) : Memory :=
  let space := maxSpot mem chunk spotBound (word mem (freeListAt chunk)) 0
  if word mem (maxContSpaceAt chunk) ≠ space then
    setWord mem (maxContSpaceAt chunk) space
  else mem

/-- The loop of `alloc` up to a spot that is large enough: the address of the word that has its
offset, and the offset; `none` is a failed assertion. -/
def findSpot (mem : Memory) (chunk size : Nat) : Nat → Nat → Option (Nat × Nat)
  | 0, _ => none
  | bound + 1, prev =>
      let offset := word mem prev
      if offset = 0 then none
      else if word mem (sizeAt chunk offset) ≥ size then some (prev, offset)
      else findSpot mem chunk size bound (nextAt chunk offset)

/-- What `alloc` does with the spot: the offset of the block, and the words. -/
def takeSpot (mem : Memory) (chunk size prev offset : Nat) : Nat × Memory :=
  let sizeFree := word mem (sizeAt chunk offset)
  if sizeFree - size ≥ minAllocBytes then
    (offset + (sizeFree - size), setWord mem (sizeAt chunk offset) (sizeFree - size))
  else
    (offset, setWord mem prev (word mem (nextAt chunk offset)))

/-- `alloc`: `some (none, _)` is NULL, and `none` a failed assertion. -/
def alloc (mem : Memory) (chunk size : Nat) : Option (Option Nat × Memory) :=
  if size > word mem (maxContSpaceAt chunk) then some (none, mem)
  else
    (findSpot mem chunk size spotBound (freeListAt chunk)).map fun (prev, offset) =>
      let sizeFree := word mem (sizeAt chunk offset)
      let (newOffset, mem) := takeSpot mem chunk size prev offset
      let mem := setWord mem (freeSpaceAt chunk)
        (word mem (freeSpaceAt chunk) + wordValues - size)
      (some (chunk + newOffset),
        if sizeFree = word mem (maxContSpaceAt chunk) then findMaxContSpace mem chunk else mem)

/-- The part of `free` before the last line. -/
def addSpot (mem : Memory) (chunk offset size : Nat) : Memory :=
  let list := word mem (freeListAt chunk)
  if list = 0 then
    let mem := setWord mem (freeListAt chunk) offset
    let mem := setWord mem (nextAt chunk offset) 0
    let mem := setWord mem (sizeAt chunk offset) size
    setWord mem (maxContSpaceAt chunk) size
  else if offset + size = list then
    let next := word mem (nextAt chunk list)
    let newSize := word mem (sizeAt chunk list) + size
    let mem := setWord mem (freeListAt chunk) offset
    let mem := setWord mem (nextAt chunk offset) next
    let mem := setWord mem (sizeAt chunk offset) newSize
    if newSize > word mem (maxContSpaceAt chunk) then
      setWord mem (maxContSpaceAt chunk) newSize
    else mem
  else
    let mem := setWord mem (nextAt chunk offset) list
    let mem := setWord mem (sizeAt chunk offset) size
    let mem := setWord mem (freeListAt chunk) offset
    if size > word mem (maxContSpaceAt chunk) then setWord mem (maxContSpaceAt chunk) size
    else mem

/-- `free`. -/
def free (mem : Memory) (chunk address size : Nat) : Memory :=
  let mem := addSpot mem chunk (address - chunk) size
  setWord mem (freeSpaceAt chunk) (word mem (freeSpaceAt chunk) + size)

/-! ## Runs -/

/-- The bytes and the live blocks. -/
structure State where
  mem : Memory
  live : List Spot

/-- The calls, and what clients write to their blocks. -/
inductive Label
  | alloc (size : Nat)
  | free (block : Spot)
  | write (address : Nat) (bytes : List UInt8)

def step (chunk : Nat) (state : State) : Label → Option State
  | .alloc size =>
      (alloc state.mem chunk size).map fun (address, mem) =>
        ⟨mem, (address.map fun address => ⟨address - chunk, size⟩).toList ++ state.live⟩
  | .free block =>
      some ⟨free state.mem chunk (chunk + block.offset) block.size, state.live.erase block⟩
  | .write address bytes => some { state with mem := store state.mem address bytes }

/-- A new chunk, with a block at its end that has been set apart. -/
def constructed (mem : Memory) (chunk allocId used : Nat) : State :=
  ⟨construct mem chunk allocId used,
    if used = 0 then [] else [⟨chunkSize - used, used⟩]⟩

/-- Requests are from 8 bytes up to the capacity of a chunk; live blocks are freed once, with
their own size, and clients write inside their blocks. -/
def Disciplined (chunk : Nat) (state : State) : Label → Prop
  | .alloc size => minAllocBytes ≤ size ∧ size ≤ chunkSize - headerSize
  | .free block => block ∈ state.live
  | .write address bytes =>
      ∃ block ∈ state.live, chunk + block.offset ≤ address ∧
        address + bytes.length ≤ chunk + block.offset + block.size

instance (chunk : Nat) (state : State) (label : Label) :
    Decidable (Disciplined chunk state label) :=
  match label with
  | .alloc _ => inferInstanceAs (Decidable (_ ∧ _))
  | .free _ => inferInstanceAs (Decidable (_ ∈ _))
  | .write _ _ => inferInstanceAs (Decidable (∃ block ∈ state.live, _))

/-! ## What holds of a chunk -/

/-- The free list from an offset on. -/
def Links (mem : Memory) (chunk : Nat) : Nat → List Spot → Prop
  | offset, [] => offset = 0
  | offset, spot :: spots =>
      offset = spot.offset ∧ offset ≠ 0 ∧ word mem (sizeAt chunk offset) = spot.size ∧
        Links mem chunk (word mem (nextAt chunk offset)) spots

/-- Two blocks or spots do not overlap. -/
def Apart (first second : Spot) : Prop :=
  first.offset + first.size ≤ second.offset ∨ second.offset + second.size ≤ first.offset

/-- Within the memory behind the header, and no smaller than what is allocated. -/
def Inside (spot : Spot) : Prop :=
  headerSize ≤ spot.offset ∧ spot.offset + spot.size ≤ chunkSize ∧ minAllocBytes ≤ spot.size

/-- The size of the largest spot, 0 if there is none. -/
def IsLargest (spots : List Spot) (space : Nat) : Prop :=
  (∀ spot ∈ spots, spot.size ≤ space) ∧
    (spots = [] ∧ space = 0 ∨ ∃ spot ∈ spots, spot.size = space)

/-- The blocks and the spots of a chunk: the spots are what the free list leads to, one after the
other up to its end. -/
structure Layout (mem : Memory) (chunk : Nat) (live spots : List Spot) : Prop where
  links : Links mem chunk (word mem (freeListAt chunk)) spots
  inside : ∀ spot ∈ live ++ spots, Inside spot
  apart : (live ++ spots).Pairwise Apart

/-- The chunk with its live blocks. -/
structure Represents (mem : Memory) (chunk : Nat) (live spots : List Spot) : Prop where
  layout : Layout mem chunk live spots
  freeSpace : word mem (freeSpaceAt chunk) + (live.map Spot.size).sum = chunkSize - headerSize
  maxContSpace : IsLargest spots (word mem (maxContSpaceAt chunk))

/-! ## Words -/

section Words

variable {mem other : Memory} {chunk address place value : Nat}

theorem word_setWord_self (small : value < wordValues) :
    word (setWord mem address value) address = value :=
  loadNat_store_self small

theorem word_setWord_of_apart (apart : place + 4 ≤ address ∨ address + 4 ≤ place) :
    word (setWord mem address value) place = word mem place :=
  loadNat_store_of_disjoint (by simpa using apart)

theorem word_congr (same : ∀ offset < 4, other (address + offset) = mem (address + offset)) :
    word other address = word mem address := by
  rw [word, word, loadNat, loadNat, load_congr same]

theorem word_lt (mem : Memory) (address : Nat) : word mem address < wordValues :=
  loadNat_lt mem address 4

/-- Only the first words of the spots matter. -/
theorem Links.congr {offset : Nat} {spots : List Spot} (links : Links mem chunk offset spots)
    (same : ∀ spot ∈ spots, word other (nextAt chunk spot.offset) = word mem (nextAt chunk spot.offset) ∧
      word other (sizeAt chunk spot.offset) = word mem (sizeAt chunk spot.offset)) :
    Links other chunk offset spots := by
  induction spots generalizing offset with
  | nil => exact links
  | cons spot spots ih =>
      obtain ⟨rfl, nonzero, isSize, rest⟩ := links
      obtain ⟨sameNext, sameSize⟩ := same spot List.mem_cons_self
      refine ⟨rfl, nonzero, sameSize.trans isSize, ?_⟩
      rw [sameNext]
      exact ih rest fun other member => same other (List.mem_cons_of_mem spot member)

theorem Links.size_eq {offset : Nat} {spots : List Spot} (links : Links mem chunk offset spots)
    {spot : Spot} (member : spot ∈ spots) : word mem (sizeAt chunk spot.offset) = spot.size := by
  induction spots generalizing offset with
  | nil => exact absurd member List.not_mem_nil
  | cons first spots ih =>
      obtain ⟨rfl, -, isSize, rest⟩ := links
      rcases List.mem_cons.mp member with rfl | later
      · exact isSize
      · exact ih rest later

/-- The free list leads to no other spots. -/
theorem Links.unique {offset : Nat} {first second : List Spot} (links : Links mem chunk offset first)
    (others : Links mem chunk offset second) : first = second := by
  induction first generalizing offset second with
  | nil =>
      obtain rfl : offset = 0 := links
      cases second with
      | nil => rfl
      | cons spot second => exact absurd rfl others.2.1
  | cons spot first ih =>
      obtain ⟨isOffset, nonzero, isSize, rest⟩ := links
      cases second with
      | nil => exact absurd others nonzero
      | cons other second =>
          obtain ⟨sameOffset, -, sameSize, otherRest⟩ := others
          have same : spot = other := by
            cases spot
            cases other
            simp_all
          rw [same, ih rest otherRest]

theorem Links.setWord_outside {offset : Nat} {spots : List Spot}
    (links : Links mem chunk offset spots)
    (outside : ∀ spot ∈ spots, address + 4 ≤ chunk + spot.offset ∨
      chunk + spot.offset + 8 ≤ address) :
    Links (setWord mem address value) chunk offset spots := by
  apply links.congr
  intro spot member
  have apart := outside spot member
  exact ⟨word_setWord_of_apart (by rw [nextAt]; omega),
    word_setWord_of_apart (by rw [sizeAt]; omega)⟩

end Words

/-! ## Walking along the list -/

section Walks

variable {mem : Memory} {chunk size prev : Nat} {before spots : List Spot} {spot : Spot}

/-- The word that leads to the spot behind these spots. -/
def placeAfter (chunk prev : Nat) : List Spot → Nat
  | [] => prev
  | spot :: spots => placeAfter chunk (nextAt chunk spot.offset) spots

theorem placeAfter_cases (chunk prev : Nat) (before : List Spot) :
    placeAfter chunk prev before = prev ∧ before = [] ∨
      ∃ spot ∈ before, placeAfter chunk prev before = nextAt chunk spot.offset := by
  induction before generalizing prev with
  | nil => exact Or.inl ⟨rfl, rfl⟩
  | cons spot before ih =>
      rcases ih (nextAt chunk spot.offset) with ⟨isPrev, -⟩ | ⟨other, member, isOther⟩
      · exact Or.inr ⟨spot, List.mem_cons_self, isPrev⟩
      · exact Or.inr ⟨other, List.mem_cons_of_mem spot member, isOther⟩

/-- The loop of `alloc` finds the first spot that is large enough. -/
theorem findSpot_eq {bound : Nat}
    (links : Links mem chunk (word mem prev) (before ++ spot :: spots))
    (tooSmall : ∀ other ∈ before, other.size < size) (enough : size ≤ spot.size)
    (fuel : before.length < bound) :
    findSpot mem chunk size bound prev = some (placeAfter chunk prev before, spot.offset) := by
  induction before generalizing prev bound with
  | nil =>
      obtain ⟨isOffset, nonzero, isSize, -⟩ := links
      obtain ⟨bound, rfl⟩ := Nat.exists_eq_succ_of_ne_zero (Nat.ne_of_gt fuel)
      rw [isOffset] at nonzero isSize
      simp only [findSpot, isOffset]
      rw [if_neg nonzero, isSize, if_pos enough]
      rfl
  | cons first before ih =>
      obtain ⟨isOffset, nonzero, isSize, rest⟩ := links
      obtain ⟨bound, rfl⟩ := Nat.exists_eq_succ_of_ne_zero (Nat.ne_of_gt (Nat.zero_lt_of_lt fuel))
      rw [isOffset] at nonzero isSize rest
      simp only [findSpot, isOffset]
      rw [if_neg nonzero, isSize, if_neg (Nat.not_le.mpr (tooSmall first List.mem_cons_self))]
      exact ih rest (fun other member => tooSmall other (List.mem_cons_of_mem first member))
        (Nat.lt_of_succ_lt_succ fuel)

/-- What the loop of `alloc` finds. -/
theorem findSpot_cases {bound place offset : Nat}
    (links : Links mem chunk (word mem prev) spots)
    (found : findSpot mem chunk size bound prev = some (place, offset)) :
    ∃ before spot others, spots = before ++ spot :: others ∧ offset = spot.offset ∧
      place = placeAfter chunk prev before ∧ size ≤ spot.size := by
  induction spots generalizing prev bound with
  | nil =>
      have isNull : word mem prev = 0 := links
      cases bound with
      | zero => cases found
      | succ bound => simp [findSpot, isNull] at found
  | cons spot spots ih =>
      obtain ⟨isOffset, nonzero, isSize, rest⟩ := links
      cases bound with
      | zero => cases found
      | succ bound =>
          rw [isOffset] at nonzero isSize rest
          simp only [findSpot, isOffset] at found
          rw [if_neg nonzero, isSize] at found
          split_ifs at found with enough
          · obtain ⟨rfl, rfl⟩ := by simpa using found
            exact ⟨[], spot, spots, rfl, rfl, rfl, enough⟩
          · obtain ⟨before, other, others, rfl, isOther, isPlace, isLarge⟩ := ih rest found
            exact ⟨spot :: before, other, others, rfl, isOther, isPlace, isLarge⟩

/-- The loop of `find_max_cont_space` goes through all spots. -/
theorem maxSpot_eq {bound offset : Nat} (space : Nat) (links : Links mem chunk offset spots)
    (fuel : spots.length ≤ bound) :
    maxSpot mem chunk bound offset space =
      spots.foldl (fun space spot => max space spot.size) space := by
  induction spots generalizing offset bound space with
  | nil =>
      obtain rfl : offset = 0 := links
      cases bound with
      | zero => rfl
      | succ bound => rfl
  | cons spot spots ih =>
      obtain ⟨rfl, nonzero, isSize, rest⟩ := links
      obtain ⟨bound, rfl⟩ := Nat.exists_eq_succ_of_ne_zero (Nat.ne_of_gt (Nat.zero_lt_of_lt fuel))
      rw [maxSpot, if_neg nonzero, isSize, List.foldl_cons]
      exact ih _ rest (Nat.le_of_succ_le_succ fuel)

theorem isLargest_foldl (spots : List Spot) :
    IsLargest spots (spots.foldl (fun space spot => max space spot.size) 0) := by
  have bounds (spots : List Spot) (space : Nat) :
      space ≤ spots.foldl (fun space spot => max space spot.size) space ∧
        (∀ spot ∈ spots, spot.size ≤ spots.foldl (fun space spot => max space spot.size) space) ∧
        (spots.foldl (fun space spot => max space spot.size) space = space ∨
          ∃ spot ∈ spots, spot.size = spots.foldl (fun space spot => max space spot.size) space) := by
    induction spots generalizing space with
    | nil => exact ⟨le_rfl, by simp, Or.inl rfl⟩
    | cons spot spots ih =>
        obtain ⟨atLeast, all, attained⟩ := ih (max space spot.size)
        rw [List.foldl_cons]
        refine ⟨(le_max_left _ _).trans atLeast, ?_, ?_⟩
        · intro other member
          rcases List.mem_cons.mp member with rfl | later
          · exact (le_max_right _ _).trans atLeast
          · exact all other later
        · rcases attained with isStart | ⟨other, member, isOther⟩
          · rcases max_choice space spot.size with isSpace | isSpot
            · exact Or.inl (isStart.trans isSpace)
            · exact Or.inr ⟨spot, List.mem_cons_self, by rw [isStart, isSpot]⟩
          · exact Or.inr ⟨other, List.mem_cons_of_mem spot member, isOther⟩
  obtain ⟨-, all, attained⟩ := bounds spots 0
  refine ⟨all, ?_⟩
  cases spots with
  | nil => exact Or.inl ⟨rfl, rfl⟩
  | cons spot spots =>
      rcases attained with isZero | attained
      · have isSize := all spot List.mem_cons_self
        rw [isZero] at isSize ⊢
        exact Or.inr ⟨spot, List.mem_cons_self, Nat.le_zero.mp isSize⟩
      · exact Or.inr attained

end Walks

/-! ## Changes of the list -/

section Changes

variable {mem : Memory} {chunk size prev value : Nat} {before spots live : List Spot} {spot : Spot}

/-- The first words of two spots do not overlap. -/
def HeadsApart (first second : Spot) : Prop :=
  first.offset + 8 ≤ second.offset ∨ second.offset + 8 ≤ first.offset

theorem Apart.heads {first second : Spot} (apart : Apart first second) (isFirst : Inside first)
    (isSecond : Inside second) : HeadsApart first second := by
  obtain ⟨-, -, firstLarge⟩ := isFirst
  obtain ⟨-, -, secondLarge⟩ := isSecond
  simp only [minAllocBytes] at firstLarge secondLarge
  rw [Apart] at apart
  rw [HeadsApart]
  omega

theorem pairwise_heads {spots : List Spot} (apart : spots.Pairwise Apart)
    (inside : ∀ spot ∈ spots, Inside spot) : spots.Pairwise HeadsApart := by
  apply apart.imp_of_mem
  exact fun first second isApart => isApart.heads (inside _ first) (inside _ second)

theorem Links.resize {offset : Nat} (links : Links mem chunk offset (before ++ spot :: spots))
    (heads : (before ++ spot :: spots).Pairwise HeadsApart) (small : value < wordValues) :
    Links (setWord mem (sizeAt chunk spot.offset) value) chunk offset
      (before ++ ⟨spot.offset, value⟩ :: spots) := by
  induction before generalizing offset with
  | nil =>
      obtain ⟨rfl, nonzero, -, rest⟩ := links
      have apart := (List.pairwise_cons.mp heads).1
      refine ⟨rfl, nonzero, word_setWord_self small, ?_⟩
      rw [word_setWord_of_apart (by rw [nextAt, sizeAt]; omega)]
      apply rest.setWord_outside
      intro other member
      have isApart := apart other member
      rw [HeadsApart] at isApart
      rw [sizeAt]
      omega
  | cons first before ih =>
      obtain ⟨rfl, nonzero, isSize, rest⟩ := links
      obtain ⟨apart, later⟩ := List.pairwise_cons.mp heads
      have isApart := apart spot (List.mem_append_right _ List.mem_cons_self)
      rw [HeadsApart] at isApart
      refine ⟨rfl, nonzero, ?_, ?_⟩
      · rw [word_setWord_of_apart (by rw [sizeAt, sizeAt]; omega)]
        exact isSize
      · rw [word_setWord_of_apart (by rw [nextAt, sizeAt]; omega)]
        exact ih rest later

theorem Links.unlink (links : Links mem chunk (word mem prev) (before ++ spot :: spots))
    (heads : (before ++ spot :: spots).Pairwise HeadsApart)
    (outside : ∀ other ∈ before ++ spot :: spots, prev + 4 ≤ chunk + other.offset ∨
      chunk + other.offset + 8 ≤ prev) :
    let after := setWord mem (placeAfter chunk prev before) (word mem (nextAt chunk spot.offset))
    Links after chunk (word after prev) (before ++ spots) := by
  induction before generalizing prev with
  | nil =>
      obtain ⟨isOffset, -, -, rest⟩ := links
      rw [isOffset] at rest
      intro after
      have isNext : word after prev = word mem (nextAt chunk spot.offset) :=
        word_setWord_self (word_lt _ _)
      rw [isNext]
      exact rest.setWord_outside fun other member =>
        outside other (List.mem_cons_of_mem spot member)
  | cons first before ih =>
      obtain ⟨isOffset, nonzero, isSize, rest⟩ := links
      obtain ⟨apart, later⟩ := List.pairwise_cons.mp heads
      intro after
      rw [isOffset] at nonzero isSize rest
      have firstOutside := outside first List.mem_cons_self
      -- the changed word is the link of this spot, or of one that follows
      have isPlace : placeAfter chunk (nextAt chunk first.offset) before =
          nextAt chunk first.offset ∨
          ∃ other ∈ before, placeAfter chunk (nextAt chunk first.offset) before =
            nextAt chunk other.offset :=
        (placeAfter_cases _ _ before).imp And.left id
      have kept : word after prev = word mem prev ∧
          word after (sizeAt chunk first.offset) = word mem (sizeAt chunk first.offset) := by
        rcases isPlace with isFirst | ⟨other, member, isOther⟩
        · simp only [after, placeAfter, isFirst]
          exact ⟨word_setWord_of_apart (by rw [nextAt]; omega),
            word_setWord_of_apart (by rw [nextAt, sizeAt]; omega)⟩
        · have otherOutside := outside other
            (List.mem_cons_of_mem first (List.mem_append_left _ member))
          have isApart := apart other (List.mem_append_left _ member)
          rw [HeadsApart] at isApart
          simp only [after, placeAfter, isOther]
          exact ⟨word_setWord_of_apart (by rw [nextAt]; omega),
            word_setWord_of_apart (by rw [nextAt, sizeAt]; omega)⟩
      refine ⟨kept.1.trans isOffset, ?_, ?_, ?_⟩
      · rw [kept.1, isOffset]
        exact nonzero
      · rw [kept.1, isOffset, kept.2]
        exact isSize
      · rw [kept.1, isOffset]
        apply ih rest later
        intro other member
        have isApart := apart other member
        rw [HeadsApart] at isApart
        rw [nextAt]
        omega

/-- The memory is enough for all blocks and spots. -/
theorem sum_size_le {spots : List Spot} (apart : spots.Pairwise Apart)
    (inside : ∀ spot ∈ spots, Inside spot) :
    (spots.map Spot.size).sum ≤ chunkSize - headerSize := by
  let places := spots.flatMap fun spot => List.range' spot.offset spot.size
  have isSum : places.length = (spots.map Spot.size).sum := by
    simp [places, List.length_flatMap]
  have distinct : places.Nodup := by
    apply List.nodup_flatMap.mpr
    refine ⟨fun spot _ => List.nodup_range', apart.imp ?_⟩
    intro first second isApart place inFirst inSecond
    rw [List.mem_range'_1] at inFirst inSecond
    rw [Apart] at isApart
    omega
  have subset : places ⊆ List.range' headerSize (chunkSize - headerSize) := by
    intro place member
    obtain ⟨spot, isSpot, inSpot⟩ := List.mem_flatMap.mp member
    obtain ⟨low, high, -⟩ := inside spot isSpot
    rw [List.mem_range'_1] at inSpot ⊢
    omega
  have bound := (distinct.subperm subset).length_le
  rw [isSum, List.length_range'] at bound
  exact bound

theorem length_lt_spotBound {spots : List Spot} (apart : spots.Pairwise Apart)
    (inside : ∀ spot ∈ spots, Inside spot) : spots.length < spotBound := by
  have atLeast : spots.length * minAllocBytes ≤ (spots.map Spot.size).sum := by
    clear apart
    induction spots with
    | nil => exact Nat.zero_le _
    | cons spot spots ih =>
        have isLarge := (inside spot List.mem_cons_self).2.2
        have rest := ih fun other member => inside other (List.mem_cons_of_mem spot member)
        rw [List.length_cons, List.map_cons, List.sum_cons, Nat.succ_mul]
        omega
  have atMost := sum_size_le apart inside
  have isBound : spotBound * minAllocBytes = chunkSize := by decide
  have isCapacity : chunkSize - headerSize < chunkSize := by decide
  by_contra tooMany
  have more := Nat.mul_le_mul_right minAllocBytes (Nat.not_lt.mp tooMany)
  omega

end Changes

/-! ## Blocks and spots -/

/-- Blocks and spots that are inside the chunk and do not overlap. -/
structure Fits (list : List Spot) : Prop where
  inside : ∀ spot ∈ list, Inside spot
  apart : list.Pairwise Apart

section Fits

variable {list other others pieces : List Spot} {spot joined first : Spot}

theorem Apart.symm {first second : Spot} (apart : Apart first second) : Apart second first :=
  Or.symm apart

theorem Fits.perm (fits : Fits list) (perm : list.Perm other) : Fits other where
  inside spot member := fits.inside spot (perm.mem_iff.mpr member)
  apart := perm.pairwise fits.apart Apart.symm

/-- A spot is cut into pieces. -/
theorem Fits.cut (fits : Fits (spot :: others)) (piecesFit : Fits pieces)
    (within : ∀ piece ∈ pieces,
      spot.offset ≤ piece.offset ∧ piece.offset + piece.size ≤ spot.offset + spot.size) :
    Fits (pieces ++ others) := by
  obtain ⟨apart, othersApart⟩ := List.pairwise_cons.mp fits.apart
  constructor
  · intro piece member
    rcases List.mem_append.mp member with inPieces | inOthers
    · exact piecesFit.inside piece inPieces
    · exact fits.inside piece (List.mem_cons_of_mem spot inOthers)
  · apply List.pairwise_append.mpr
    refine ⟨piecesFit.apart, othersApart, fun piece inPieces third inOthers => ?_⟩
    have isWithin := within piece inPieces
    have isApart := apart third inOthers
    rw [Apart] at isApart ⊢
    omega

/-- Two neighbours are joined. -/
theorem Fits.join (fits : Fits (spot :: first :: others))
    (next : spot.offset + spot.size = first.offset) :
    Fits (⟨spot.offset, first.size + spot.size⟩ :: others) := by
  obtain ⟨apart, laterApart⟩ := List.pairwise_cons.mp fits.apart
  obtain ⟨firstApart, othersApart⟩ := List.pairwise_cons.mp laterApart
  have isInside := fits.inside spot List.mem_cons_self
  have firstInside := fits.inside first (List.mem_cons_of_mem _ List.mem_cons_self)
  constructor
  · intro piece member
    rcases List.mem_cons.mp member with rfl | inOthers
    · simp only [Inside] at isInside firstInside ⊢
      omega
    · exact fits.inside piece (List.mem_cons_of_mem _ (List.mem_cons_of_mem _ inOthers))
  · refine List.pairwise_cons.mpr ⟨fun third inOthers => ?_, othersApart⟩
    have isApart := apart third (List.mem_cons_of_mem first inOthers)
    have isFirstApart := firstApart third inOthers
    have isThird := fits.inside third (List.mem_cons_of_mem _ (List.mem_cons_of_mem _ inOthers))
    simp only [Apart, Inside, minAllocBytes] at isApart isFirstApart isThird isInside firstInside ⊢
    omega

theorem Fits.single (inside : Inside spot) : Fits [spot] where
  inside := by simpa using inside
  apart := List.pairwise_singleton _ _

end Fits

namespace Layout

variable {mem other : Memory} {chunk size : Nat} {live before spots : List Spot} {spot : Spot}

theorem fits (layout : Layout mem chunk live spots) : Fits (live ++ spots) :=
  ⟨layout.inside, layout.apart⟩

theorem of_fits (links : Links mem chunk (word mem (freeListAt chunk)) spots)
    (fits : Fits (live ++ spots)) : Layout mem chunk live spots :=
  ⟨links, fits.inside, fits.apart⟩

theorem spotFits (layout : Layout mem chunk live spots) : Fits spots where
  inside spot member := layout.inside spot (List.mem_append_right _ member)
  apart := (List.pairwise_append.mp layout.apart).2.1

theorem heads (layout : Layout mem chunk live spots) : spots.Pairwise HeadsApart :=
  pairwise_heads layout.spotFits.apart layout.spotFits.inside

theorem behindHeader (layout : Layout mem chunk live spots) (member : spot ∈ spots) :
    24 ≤ spot.offset :=
  (layout.spotFits.inside spot member).1

/-- Other words of the header do not matter. -/
theorem setHeader (layout : Layout mem chunk live spots) {address value : Nat}
    (isHeader : address = freeSpaceAt chunk ∨ address = maxContSpaceAt chunk) :
    Layout (setWord mem address value) chunk live spots := by
  have isList : word (setWord mem address value) (freeListAt chunk) = word mem (freeListAt chunk) := by
    apply word_setWord_of_apart
    simp only [freeSpaceAt, maxContSpaceAt, freeListAt] at isHeader ⊢
    omega
  refine ⟨?_, layout.inside, layout.apart⟩
  rw [isList]
  apply layout.links.setWord_outside
  intro spot member
  have behind := layout.behindHeader member
  simp only [freeSpaceAt, maxContSpaceAt] at isHeader
  omega

/-- A block is cut off from the end of a spot. -/
theorem split (layout : Layout mem chunk live (before ++ spot :: spots))
    (large : minAllocBytes ≤ size) (rest : minAllocBytes ≤ spot.size - size) :
    Layout (setWord mem (sizeAt chunk spot.offset) (spot.size - size)) chunk
      (⟨spot.offset + (spot.size - size), size⟩ :: live)
      (before ++ ⟨spot.offset, spot.size - size⟩ :: spots) := by
  have isSpot : spot ∈ before ++ spot :: spots := List.mem_append_right _ List.mem_cons_self
  have inside := layout.spotFits.inside spot isSpot
  have isInside := inside
  simp only [Inside, minAllocBytes, chunkSize] at isInside large rest
  apply of_fits
  · rw [word_setWord_of_apart (by rw [freeListAt, sizeAt, headerSize] at *; omega)]
    exact layout.links.resize layout.heads (by rw [wordValues]; omega)
  · have perm : (live ++ (before ++ spot :: spots)).Perm (spot :: (live ++ (before ++ spots))) := by
      rw [← List.append_assoc, ← List.append_assoc]
      exact List.perm_middle
    have piecesFit : Fits [⟨spot.offset + (spot.size - size), size⟩,
        ⟨spot.offset, spot.size - size⟩] := by
      constructor
      · simp only [List.mem_cons, List.not_mem_nil, or_false, forall_eq_or_imp, forall_eq, Inside,
          minAllocBytes, chunkSize]
        omega
      · simp only [List.pairwise_cons, List.mem_singleton, forall_eq, Apart]
        exact ⟨by omega, by simp⟩
    have cut := (layout.fits.perm perm).cut piecesFit (by
      simp only [List.mem_cons, List.not_mem_nil, or_false, forall_eq_or_imp, forall_eq]
      omega)
    apply cut.perm
    simp only [List.cons_append, List.nil_append]
    apply List.Perm.cons
    rw [← List.append_assoc, ← List.append_assoc]
    exact List.perm_middle.symm

/-- A block takes all of a spot. -/
theorem takeWhole (layout : Layout mem chunk live (before ++ spot :: spots))
    (large : minAllocBytes ≤ size) (enough : size ≤ spot.size) :
    Layout (setWord mem (placeAfter chunk (freeListAt chunk) before)
        (word mem (nextAt chunk spot.offset))) chunk
      (⟨spot.offset, size⟩ :: live) (before ++ spots) := by
  have isSpot : spot ∈ before ++ spot :: spots := List.mem_append_right _ List.mem_cons_self
  have inside := layout.spotFits.inside spot isSpot
  simp only [Inside, minAllocBytes, chunkSize] at inside large
  apply of_fits
  · apply layout.links.unlink layout.heads
    intro other member
    have behind := layout.behindHeader member
    rw [freeListAt]
    omega
  · have perm : (live ++ (before ++ spot :: spots)).Perm (spot :: (live ++ (before ++ spots))) := by
      rw [← List.append_assoc, ← List.append_assoc]
      exact List.perm_middle
    have pieceFits : Fits [⟨spot.offset, size⟩] := by
      apply Fits.single
      simp only [Inside, minAllocBytes, chunkSize]
      omega
    have cut := (layout.fits.perm perm).cut pieceFits (by
      simp only [List.mem_singleton, forall_eq]
      omega)
    exact cut

theorem liveInside {block : Spot} (layout : Layout mem chunk live spots) (member : block ∈ live) :
    Inside block :=
  layout.inside block (List.mem_append_left _ member)

/-- The first words of a live block are not those of a spot. -/
theorem liveHeads {block : Spot} (layout : Layout mem chunk live spots) (isLive : block ∈ live)
    (member : spot ∈ spots) : HeadsApart block spot :=
  ((List.pairwise_append.mp layout.apart).2.2 block isLive spot member).heads
    (layout.liveInside isLive) (layout.spotFits.inside spot member)

/-- A block becomes the first spot. -/
theorem push {block : Spot} (layout : Layout mem chunk live spots) (isLive : block ∈ live)
    (isList : word other (freeListAt chunk) = block.offset)
    (isNext : word other (nextAt chunk block.offset) = word mem (freeListAt chunk))
    (isSize : word other (sizeAt chunk block.offset) = block.size)
    (same : ∀ spot ∈ spots,
      word other (nextAt chunk spot.offset) = word mem (nextAt chunk spot.offset) ∧
        word other (sizeAt chunk spot.offset) = word mem (sizeAt chunk spot.offset)) :
    Layout other chunk (live.erase block) (block :: spots) := by
  have inside := (layout.liveInside isLive).1
  apply of_fits
  · rw [isList]
    refine ⟨rfl, by simp only [headerSize] at inside; omega, isSize, ?_⟩
    rw [isNext]
    exact layout.links.congr same
  · have perm : (live ++ spots).Perm (live.erase block ++ block :: spots) := by
      apply ((List.perm_cons_erase isLive).append_right spots).trans
      exact List.perm_middle.symm
    exact layout.fits.perm perm

/-- A block is joined to the first spot, which follows it. -/
theorem joinFirst {block first : Spot} (layout : Layout mem chunk live (first :: spots))
    (isLive : block ∈ live) (follows : block.offset + block.size = first.offset)
    (isList : word other (freeListAt chunk) = block.offset)
    (isNext : word other (nextAt chunk block.offset) = word mem (nextAt chunk first.offset))
    (isSize : word other (sizeAt chunk block.offset) = first.size + block.size)
    (same : ∀ spot ∈ spots,
      word other (nextAt chunk spot.offset) = word mem (nextAt chunk spot.offset) ∧
        word other (sizeAt chunk spot.offset) = word mem (sizeAt chunk spot.offset)) :
    Layout other chunk (live.erase block) (⟨block.offset, first.size + block.size⟩ :: spots) := by
  have inside := (layout.liveInside isLive).1
  obtain ⟨isFirst, -, -, rest⟩ := layout.links
  apply of_fits
  · rw [isList]
    refine ⟨rfl, by simp only [headerSize] at inside; omega, isSize, ?_⟩
    rw [isNext]
    rw [isFirst] at rest
    exact rest.congr same
  · have perm : (live ++ first :: spots).Perm (block :: first :: (live.erase block ++ spots)) := by
      apply ((List.perm_cons_erase isLive).append_right _).trans
      rw [List.cons_append]
      exact List.perm_middle.cons block
    apply ((layout.fits.perm perm).join follows).perm
    exact List.perm_middle.symm

end Layout

/-! ## The calls -/

namespace Represents

variable {mem : Memory} {chunk size : Nat} {live spots : List Spot}

theorem freeSpace_lt (represents : Represents mem chunk live spots) :
    word mem (freeSpaceAt chunk) ≤ chunkSize - headerSize := by
  have total := represents.freeSpace
  omega

/-- `find_max_cont_space` makes up for anything that happened to `max_cont_space`. -/
theorem findMaxContSpace (layout : Layout mem chunk live spots)
    (freeSpace : word mem (freeSpaceAt chunk) + (live.map Spot.size).sum =
      chunkSize - headerSize) :
    Represents (findMaxContSpace mem chunk) chunk live spots := by
  have fuel := (length_lt_spotBound layout.spotFits.apart layout.spotFits.inside).le
  have isSpace := maxSpot_eq 0 layout.links fuel
  have largest := isLargest_foldl spots
  rw [FreeFormChunk.findMaxContSpace, isSpace]
  have small : spots.foldl (fun space spot => max space spot.size) 0 < wordValues := by
    rcases largest.2 with ⟨-, isZero⟩ | ⟨spot, member, isSize⟩
    · rw [isZero]
      decide
    · have inside := (layout.spotFits.inside spot member).2.1
      have isChunk : chunkSize < wordValues := by decide
      omega
  split_ifs with differs
  · refine ⟨layout.setHeader (Or.inr rfl), ?_, ?_⟩
    · rw [word_setWord_of_apart (by rw [freeSpaceAt, maxContSpaceAt]; omega)]
      exact freeSpace
    · rw [word_setWord_self small]
      exact largest
  · refine ⟨layout, freeSpace, ?_⟩
    rw [not_not.mp differs]
    exact largest

/-- The words after a block has been taken from a spot. -/
theorem finish {before : List Spot} {spot : Spot} {after : Memory} {block : Spot}
    {newSpots : List Spot}
    (represents : Represents mem chunk live (before ++ spot :: spots))
    (layout : Layout after chunk (block :: live) newSpots)
    (sameSpace : word after (freeSpaceAt chunk) = word mem (freeSpaceAt chunk))
    (sameMax : word after (maxContSpaceAt chunk) = word mem (maxContSpaceAt chunk))
    (others : ∀ space, spot.size ≠ space → IsLargest (before ++ spot :: spots) space →
      IsLargest newSpots space) :
    let counted := setWord after (freeSpaceAt chunk)
      (word after (freeSpaceAt chunk) + wordValues - block.size)
    Represents (if spot.size = word counted (maxContSpaceAt chunk)
      then FreeFormChunk.findMaxContSpace counted chunk else counted) chunk (block :: live)
        newSpots := by
  intro counted
  have total := represents.freeSpace
  have sum := sum_size_le (List.pairwise_append.mp layout.apart).1
    fun other member => layout.inside other (List.mem_append_left _ member)
  rw [List.map_cons, List.sum_cons] at sum
  have isCounted : word counted (freeSpaceAt chunk) = word mem (freeSpaceAt chunk) - block.size := by
    have isMod : word counted (freeSpaceAt chunk) =
        (word after (freeSpaceAt chunk) + wordValues - block.size) % 256 ^ 4 :=
      loadNat_store_encode _ _ _ _
    have values : (256 : Nat) ^ 4 = wordValues := by decide
    have small := word_lt mem (freeSpaceAt chunk)
    rw [isMod, values, sameSpace]
    have isSum : word mem (freeSpaceAt chunk) + wordValues - block.size =
        word mem (freeSpaceAt chunk) - block.size + wordValues := by omega
    rw [isSum, Nat.add_mod_right, Nat.mod_eq_of_lt (by omega)]
  have freeSpace : word counted (freeSpaceAt chunk) + ((block :: live).map Spot.size).sum =
      chunkSize - headerSize := by
    rw [isCounted, List.map_cons, List.sum_cons]
    omega
  have isMax : word counted (maxContSpaceAt chunk) = word mem (maxContSpaceAt chunk) := by
    rw [← sameMax]
    exact word_setWord_of_apart (by rw [freeSpaceAt, maxContSpaceAt]; omega)
  have countedLayout : Layout counted chunk (block :: live) newSpots :=
    layout.setHeader (Or.inl rfl)
  split_ifs with isLargest
  · exact findMaxContSpace countedLayout freeSpace
  · refine ⟨countedLayout, freeSpace, ?_⟩
    rw [isMax] at isLargest ⊢
    exact others _ isLargest represents.maxContSpace

/-- The largest spot stays, whatever happens to a smaller one. -/
theorem isLargest_others {before others newSpots : List Spot} {spot : Spot} {space : Nat}
    (smaller : spot.size ≠ space) (largest : IsLargest (before ++ spot :: others) space)
    (kept : ∀ other ∈ before ++ others, other ∈ newSpots)
    (shrunk : ∀ other ∈ newSpots, other ∈ before ++ others ∨ other.size ≤ spot.size) :
    IsLargest newSpots space := by
  obtain ⟨all, isNone | ⟨other, member, isSpace⟩⟩ := largest
  · simp at isNone
  · constructor
    · intro third inNew
      rcases shrunk third inNew with old | small
      · apply all
        rcases List.mem_append.mp old with inBefore | inOthers
        · exact List.mem_append_left _ inBefore
        · exact List.mem_append_right _ (List.mem_cons_of_mem _ inOthers)
      · exact small.trans (all spot (List.mem_append_right _ List.mem_cons_self))
    · right
      refine ⟨other, kept other ?_, isSpace⟩
      rcases List.mem_append.mp member with inBefore | inRest
      · exact List.mem_append_left _ inBefore
      · rcases List.mem_cons.mp inRest with rfl | inOthers
        · exact absurd isSpace smaller
        · exact List.mem_append_right _ inOthers

theorem isLargest_split {before others : List Spot} {spot : Spot} {space : Nat}
    (smaller : spot.size ≠ space) (largest : IsLargest (before ++ spot :: others) space) :
    IsLargest (before ++ ⟨spot.offset, spot.size - size⟩ :: others) space := by
  apply isLargest_others smaller largest
  · intro other member
    rcases List.mem_append.mp member with inBefore | inOthers
    · exact List.mem_append_left _ inBefore
    · exact List.mem_append_right _ (List.mem_cons_of_mem _ inOthers)
  · intro other member
    rcases List.mem_append.mp member with inBefore | inRest
    · exact Or.inl (List.mem_append_left _ inBefore)
    · rcases List.mem_cons.mp inRest with rfl | inOthers
      · exact Or.inr (Nat.sub_le _ _)
      · exact Or.inl (List.mem_append_right _ inOthers)

theorem exists_first {spots : List Spot} (exists_large : ∃ spot ∈ spots, size ≤ spot.size) :
    ∃ before spot others, spots = before ++ spot :: others ∧
      (∀ other ∈ before, other.size < size) ∧ size ≤ spot.size := by
  induction spots with
  | nil => simp at exists_large
  | cons first spots ih =>
      by_cases enough : size ≤ first.size
      · exact ⟨[], first, spots, rfl, by simp, enough⟩
      · obtain ⟨spot, member, isLarge⟩ := exists_large
        have later : spot ∈ spots := by
          rcases List.mem_cons.mp member with rfl | later
          · exact absurd isLarge enough
          · exact later
        obtain ⟨before, spot, others, rfl, small, isLarge⟩ := ih ⟨spot, later, isLarge⟩
        refine ⟨first :: before, spot, others, rfl, ?_, isLarge⟩
        rw [List.forall_mem_cons]
        exact ⟨Nat.not_le.mp enough, small⟩

/-- `alloc` fails exactly for more than `max_cont_space` bytes; else it finds a spot. -/
theorem alloc (represents : Represents mem chunk live spots) (large : minAllocBytes ≤ size) :
    if size ≤ word mem (maxContSpaceAt chunk) then
      ∃ offset after newSpots, FreeFormChunk.alloc mem chunk size = some (some (chunk + offset), after) ∧
        Represents after chunk (⟨offset, size⟩ :: live) newSpots
    else FreeFormChunk.alloc mem chunk size = some (none, mem) := by
  split_ifs with fits
  · have layout := represents.layout
    have isLarge : ∃ spot ∈ spots, size ≤ spot.size := by
      rcases represents.maxContSpace.2 with ⟨-, isZero⟩ | ⟨spot, member, isSize⟩
      · simp only [minAllocBytes] at large
        omega
      · exact ⟨spot, member, isSize ▸ fits⟩
    obtain ⟨before, spot, others, rfl, tooSmall, enough⟩ := exists_first isLarge
    have fuel := length_lt_spotBound layout.spotFits.apart layout.spotFits.inside
    rw [List.length_append] at fuel
    have found := findSpot_eq layout.links tooSmall enough (show before.length < spotBound by omega)
    have isSpot : spot ∈ before ++ spot :: others := List.mem_append_right _ List.mem_cons_self
    have isSize : word mem (sizeAt chunk spot.offset) = spot.size := layout.links.size_eq isSpot
    have behind := layout.behindHeader isSpot
    rw [FreeFormChunk.alloc, if_neg (Nat.not_lt.mpr fits), found, Option.map_some]
    simp only [takeSpot, isSize]
    by_cases splits : spot.size - size ≥ minAllocBytes
    · rw [if_pos splits]
      have finished := represents.finish (layout.split large splits)
        (word_setWord_of_apart (by rw [freeSpaceAt, sizeAt]; omega))
        (word_setWord_of_apart (by rw [maxContSpaceAt, sizeAt]; omega))
        fun space => isLargest_split
      exact ⟨_, _, _, rfl, finished⟩
    · rw [if_neg splits]
      have isPlace := placeAfter_cases chunk (freeListAt chunk) before
      have apart : placeAfter chunk (freeListAt chunk) before = freeListAt chunk ∨
          chunk + 24 ≤ placeAfter chunk (freeListAt chunk) before := by
        rcases isPlace with ⟨isList, -⟩ | ⟨other, member, isOther⟩
        · exact Or.inl isList
        · have otherBehind := layout.behindHeader (List.mem_append_left _ member)
          right
          rw [isOther, nextAt]
          omega
      have taken := layout.takeWhole large enough
      generalize placeAfter chunk (freeListAt chunk) before = place at apart taken
      have sameSpace : word (setWord mem place (word mem (nextAt chunk spot.offset)))
          (freeSpaceAt chunk) = word mem (freeSpaceAt chunk) := by
        apply word_setWord_of_apart
        simp only [freeSpaceAt, freeListAt] at apart ⊢
        omega
      have sameMax : word (setWord mem place (word mem (nextAt chunk spot.offset)))
          (maxContSpaceAt chunk) = word mem (maxContSpaceAt chunk) := by
        apply word_setWord_of_apart
        simp only [maxContSpaceAt, freeListAt] at apart ⊢
        omega
      have finished := represents.finish taken sameSpace sameMax fun space smaller largest =>
        isLargest_others smaller largest (fun _ => id) fun _ => Or.inl
      exact ⟨_, _, _, rfl, finished⟩
  · rw [FreeFormChunk.alloc, if_pos (Nat.not_le.mp fits)]

/-- A block becomes the first spot, in either order of the writes. -/
theorem addSpot_first {block : Spot} (represents : Represents mem chunk live spots)
    (isLive : block ∈ live) {after : Memory} {space : Nat}
    (isList : word after (freeListAt chunk) = block.offset)
    (isNext : word after (nextAt chunk block.offset) = word mem (freeListAt chunk))
    (isSize : word after (sizeAt chunk block.offset) = block.size)
    (same : ∀ spot ∈ spots,
      word after (nextAt chunk spot.offset) = word mem (nextAt chunk spot.offset) ∧
        word after (sizeAt chunk spot.offset) = word mem (sizeAt chunk spot.offset))
    (isSpace : space = max (word mem (maxContSpaceAt chunk)) block.size) :
    Layout after chunk (live.erase block) (block :: spots) ∧ IsLargest (block :: spots) space := by
  refine ⟨represents.layout.push isLive isList isNext isSize same, ?_, ?_⟩
  · rw [List.forall_mem_cons, isSpace]
    exact ⟨le_max_right _ _, fun other member =>
      (represents.maxContSpace.1 other member).trans (le_max_left _ _)⟩
  · right
    rcases max_choice (word mem (maxContSpaceAt chunk)) block.size with isOld | isNew
    · rcases represents.maxContSpace.2 with ⟨-, isZero⟩ | ⟨spot, member, isSpot⟩
      · refine ⟨block, List.mem_cons_self, ?_⟩
        rw [isSpace, isZero, Nat.zero_max]
      · exact ⟨spot, List.mem_cons_of_mem block member, by rw [isSpot, isSpace, isOld]⟩
    · exact ⟨block, List.mem_cons_self, by rw [isSpace, isNew]⟩

/-- What `free` does to the list and to `max_cont_space`. -/
theorem addSpot {block : Spot} (represents : Represents mem chunk live spots)
    (isLive : block ∈ live) :
    let after := addSpot mem chunk block.offset block.size
    ∃ newSpots, Layout after chunk (live.erase block) newSpots ∧
      IsLargest newSpots (word after (maxContSpaceAt chunk)) ∧
      word after (freeSpaceAt chunk) = word mem (freeSpaceAt chunk) := by
  have layout := represents.layout
  have inside := layout.liveInside isLive
  simp only [Inside, headerSize, chunkSize, minAllocBytes] at inside
  have small : block.size < wordValues ∧ block.offset < wordValues := by
    simp only [wordValues]
    omega
  have behind (spot : Spot) (member : spot ∈ spots) := layout.behindHeader member
  have heads (spot : Spot) (member : spot ∈ spots) :
      block.offset + 8 ≤ spot.offset ∨ spot.offset + 8 ≤ block.offset :=
    layout.liveHeads isLive member
  have listSmall := word_lt mem (freeListAt chunk)
  intro after
  cases spots with
  | nil =>
      have isNull : word mem (freeListAt chunk) = 0 := layout.links
      have isZero : word mem (maxContSpaceAt chunk) = 0 := by
        rcases represents.maxContSpace.2 with ⟨-, isZero⟩ | ⟨spot, member, -⟩
        · exact isZero
        · exact absurd member List.not_mem_nil
      have isAfter : after = setWord (setWord (setWord (setWord mem (freeListAt chunk) block.offset)
          (nextAt chunk block.offset) 0) (sizeAt chunk block.offset) block.size)
            (maxContSpaceAt chunk) block.size := if_pos isNull
      have words : word after (freeListAt chunk) = block.offset ∧
          word after (nextAt chunk block.offset) = 0 ∧
          word after (sizeAt chunk block.offset) = block.size ∧
          word after (maxContSpaceAt chunk) = block.size ∧
          word after (freeSpaceAt chunk) = word mem (freeSpaceAt chunk) := by
        rw [isAfter]
        simp only [nextAt, sizeAt, freeListAt, maxContSpaceAt, freeSpaceAt]
        simp (disch := omega) only [word_setWord_self, word_setWord_of_apart, and_self]
      obtain ⟨isList, isNext, isSize, isMax, sameSpace⟩ := words
      obtain ⟨newLayout, largest⟩ := represents.addSpot_first isLive isList (isNext.trans isNull.symm)
        isSize (by simp) (show block.size = _ by rw [isZero, Nat.zero_max])
      exact ⟨_, newLayout, isMax ▸ largest, sameSpace⟩
  | cons first rest =>
      obtain ⟨isFirst, nonzero, isFirstSize, -⟩ := layout.links
      have firstInside := layout.spotFits.inside first List.mem_cons_self
      simp only [Inside, headerSize, chunkSize, minAllocBytes] at firstInside
      by_cases joins : block.offset + block.size = word mem (freeListAt chunk)
      · -- the block is in front of the first spot
        have newSmall : first.size + block.size < wordValues := by
          simp only [wordValues]
          omega
        have sizes := isFirstSize
        rw [isFirst] at sizes
        let joined := setWord (setWord (setWord mem (freeListAt chunk) block.offset)
          (nextAt chunk block.offset) (word mem (nextAt chunk first.offset)))
            (sizeAt chunk block.offset) (first.size + block.size)
        have isAfter : after = if first.size + block.size > word joined (maxContSpaceAt chunk) then
            setWord joined (maxContSpaceAt chunk) (first.size + block.size) else joined := by
          simp only [after, FreeFormChunk.addSpot, isFirst, if_neg (isFirst ▸ nonzero),
            if_pos (joins.trans isFirst), sizes, joined]
        have nextSmall := word_lt mem (nextAt chunk first.offset)
        have words : word joined (freeListAt chunk) = block.offset ∧
            word joined (nextAt chunk block.offset) = word mem (nextAt chunk first.offset) ∧
            word joined (sizeAt chunk block.offset) = first.size + block.size ∧
            word joined (maxContSpaceAt chunk) = word mem (maxContSpaceAt chunk) ∧
            word joined (freeSpaceAt chunk) = word mem (freeSpaceAt chunk) := by
          simp only [joined, nextAt, sizeAt, freeListAt, maxContSpaceAt, freeSpaceAt] at nextSmall ⊢
          simp (disch := omega) only [word_setWord_self, word_setWord_of_apart, and_self]
        obtain ⟨isList, isNext, isSize, sameMax, sameSpace⟩ := words
        have same : ∀ spot ∈ rest,
            word joined (nextAt chunk spot.offset) = word mem (nextAt chunk spot.offset) ∧
              word joined (sizeAt chunk spot.offset) = word mem (sizeAt chunk spot.offset) := by
          intro spot member
          have isApart := heads spot (List.mem_cons_of_mem first member)
          have isBehind := behind spot (List.mem_cons_of_mem first member)
          simp only [joined, nextAt, sizeAt, freeListAt]
          simp (disch := omega) only [word_setWord_of_apart, and_self]
        have newLayout := layout.joinFirst isLive (joins.trans isFirst) isList isNext isSize same
        obtain ⟨all, attained⟩ := represents.maxContSpace
        rw [isAfter, sameMax]
        split_ifs with grows
        · refine ⟨_, newLayout.setHeader (Or.inr rfl), ?_, ?_⟩
          · rw [word_setWord_self newSmall]
            refine ⟨?_, Or.inr ⟨_, List.mem_cons_self, rfl⟩⟩
            rw [List.forall_mem_cons]
            exact ⟨le_rfl, fun spot member =>
              (all spot (List.mem_cons_of_mem first member)).trans grows.le⟩
          · rw [word_setWord_of_apart (by rw [freeSpaceAt, maxContSpaceAt]; omega), sameSpace]
        · refine ⟨_, newLayout, ?_, sameSpace⟩
          rw [sameMax]
          constructor
          · rw [List.forall_mem_cons]
            exact ⟨Nat.not_lt.mp grows, fun spot member =>
              all spot (List.mem_cons_of_mem first member)⟩
          · rcases attained with ⟨isNil, -⟩ | ⟨spot, member, isLargest⟩
            · cases isNil
            · rcases List.mem_cons.mp member with rfl | later
              · omega
              · exact Or.inr ⟨spot, List.mem_cons_of_mem _ later, isLargest⟩
      · let pushed := setWord (setWord (setWord mem (nextAt chunk block.offset)
          (word mem (freeListAt chunk))) (sizeAt chunk block.offset) block.size)
            (freeListAt chunk) block.offset
        have isAfter : after = if block.size > word pushed (maxContSpaceAt chunk) then
            setWord pushed (maxContSpaceAt chunk) block.size else pushed := by
          simp only [after, FreeFormChunk.addSpot, if_neg nonzero, if_neg joins, pushed]
        have words : word pushed (freeListAt chunk) = block.offset ∧
            word pushed (nextAt chunk block.offset) = word mem (freeListAt chunk) ∧
            word pushed (sizeAt chunk block.offset) = block.size ∧
            word pushed (maxContSpaceAt chunk) = word mem (maxContSpaceAt chunk) ∧
            word pushed (freeSpaceAt chunk) = word mem (freeSpaceAt chunk) := by
          simp only [pushed, nextAt, sizeAt, freeListAt, maxContSpaceAt, freeSpaceAt] at listSmall ⊢
          simp (disch := omega) only [word_setWord_self, word_setWord_of_apart, and_self]
        obtain ⟨isList, isNext, isSize, sameMax, sameSpace⟩ := words
        have same : ∀ spot ∈ first :: rest,
            word pushed (nextAt chunk spot.offset) = word mem (nextAt chunk spot.offset) ∧
              word pushed (sizeAt chunk spot.offset) = word mem (sizeAt chunk spot.offset) := by
          intro spot member
          have isApart := heads spot member
          have isBehind := behind spot member
          simp only [pushed, nextAt, sizeAt, freeListAt]
          simp (disch := omega) only [word_setWord_of_apart, and_self]
        obtain ⟨newLayout, largest⟩ :=
          represents.addSpot_first isLive isList isNext isSize same rfl
        rw [isAfter, sameMax]
        split_ifs with grows
        · refine ⟨_, newLayout.setHeader (Or.inr rfl), ?_, ?_⟩
          · rw [word_setWord_self small.1]
            rw [max_eq_right grows.le] at largest
            exact largest
          · rw [word_setWord_of_apart (by rw [freeSpaceAt, maxContSpaceAt]; omega), sameSpace]
        · refine ⟨_, newLayout, ?_, sameSpace⟩
          rw [sameMax]
          rw [max_eq_left (Nat.not_lt.mp grows)] at largest
          exact largest

/-- `free` of a live block. -/
theorem free {block : Spot} (represents : Represents mem chunk live spots) (isLive : block ∈ live) :
    ∃ newSpots, Represents (free mem chunk (chunk + block.offset) block.size) chunk
      (live.erase block) newSpots := by
  obtain ⟨newSpots, layout, largest, sameSpace⟩ := represents.addSpot isLive
  have sum := ((List.perm_cons_erase isLive).map Spot.size).sum_nat
  rw [List.map_cons, List.sum_cons] at sum
  have total := represents.freeSpace
  have capacity : chunkSize - headerSize < wordValues := by decide
  rw [FreeFormChunk.free, Nat.add_sub_cancel_left]
  refine ⟨newSpots, layout.setHeader (Or.inl rfl), ?_, ?_⟩
  · rw [word_setWord_self (by rw [sameSpace]; omega), sameSpace]
    omega
  · rw [word_setWord_of_apart (by rw [freeSpaceAt, maxContSpaceAt]; omega)]
    exact largest

/-- What a client writes to its block. -/
theorem store {block : Spot} (represents : Represents mem chunk live spots) (isLive : block ∈ live)
    {address : Nat} {bytes : List UInt8} (low : chunk + block.offset ≤ address)
    (high : address + bytes.length ≤ chunk + block.offset + block.size) :
    Represents (ByteMemory.store mem address bytes) chunk live spots := by
  have layout := represents.layout
  have inside := layout.liveInside isLive
  simp only [Inside, headerSize] at inside
  have kept {place : Nat} (outside : place + 4 ≤ address ∨ address + bytes.length ≤ place) :
      word (ByteMemory.store mem address bytes) place = word mem place :=
    loadNat_store_of_disjoint outside
  refine ⟨⟨?_, layout.inside, layout.apart⟩, ?_, ?_⟩
  · rw [kept (by rw [freeListAt]; omega)]
    apply layout.links.congr
    intro spot member
    have isApart := (List.pairwise_append.mp layout.apart).2.2 block isLive spot member
    have isSpot := layout.spotFits.inside spot member
    simp only [Apart, Inside, minAllocBytes] at isApart isSpot
    exact ⟨kept (by rw [nextAt]; omega), kept (by rw [sizeAt]; omega)⟩
  · rw [kept (by rw [freeSpaceAt]; omega)]
    exact represents.freeSpace
  · rw [kept (by rw [maxContSpaceAt]; omega)]
    exact represents.maxContSpace

/-- The pointer to the next chunk and what is outside of the chunk do not matter. -/
theorem congr {other : Memory} (represents : Represents mem chunk live spots)
    (same : ∀ place, chunk + 8 ≤ place → place < chunk + chunkSize → other place = mem place) :
    Represents other chunk live spots := by
  have words (place : Nat) (low : chunk + 8 ≤ place) (high : place + 4 ≤ chunk + chunkSize) :
      word other place = word mem place :=
    word_congr fun offset inWord => same _ (by omega) (by omega)
  have layout := represents.layout
  have room : 32 ≤ chunkSize := by decide
  have isList := words (freeListAt chunk) (by rw [freeListAt]; omega) (by rw [freeListAt]; omega)
  have isSpace := words (freeSpaceAt chunk) (by rw [freeSpaceAt]) (by rw [freeSpaceAt]; omega)
  have isMax := words (maxContSpaceAt chunk) (by rw [maxContSpaceAt]; omega)
    (by rw [maxContSpaceAt]; omega)
  refine ⟨⟨?_, layout.inside, layout.apart⟩, ?_, ?_⟩
  · rw [isList]
    apply layout.links.congr
    intro spot member
    have inside := layout.spotFits.inside spot member
    simp only [Inside, headerSize, minAllocBytes] at inside
    exact ⟨words _ (by rw [nextAt]; omega) (by rw [nextAt]; omega),
      words _ (by rw [sizeAt]; omega) (by rw [sizeAt]; omega)⟩
  · rw [isSpace]
    exact represents.freeSpace
  · rw [isMax]
    exact represents.maxContSpace

/-- The header tells whether there are live blocks. -/
theorem freeSpace_eq_iff (represents : Represents mem chunk live spots) :
    word mem (freeSpaceAt chunk) = chunkSize - headerSize ↔ live = [] := by
  have total := represents.freeSpace
  constructor
  · intro isFull
    by_contra some
    obtain ⟨block, others, rfl⟩ := List.exists_cons_of_ne_nil some
    have inside := represents.layout.liveInside List.mem_cons_self
    simp only [Inside, minAllocBytes] at inside
    rw [List.map_cons, List.sum_cons] at total
    omega
  · rintro rfl
    simpa using total

end Represents

/-! ## What the calls leave alone -/

/-- Nothing changes outside of the chunk. -/
def SameOutside (chunk : Nat) (mem after : Memory) : Prop :=
  ∀ place, place < chunk ∨ chunk + chunkSize ≤ place → after place = mem place

section Outside

variable {mem after : Memory} {chunk size prev address : Nat} {live spots : List Spot}

theorem setWord_outside {value place : Nat} (outside : place < address ∨ address + 4 ≤ place) :
    setWord mem address value place = mem place :=
  store_outside (by rwa [length_encode])

theorem SameOutside.setWord (same : SameOutside chunk mem after) {value : Nat}
    (low : chunk ≤ address) (high : address + 4 ≤ chunk + chunkSize) :
    SameOutside chunk mem (setWord after address value) := by
  intro place outside
  rw [setWord_outside (by omega)]
  exact same place outside

theorem SameOutside.setHeader (same : SameOutside chunk mem after) {value offset : Nat}
    (inHeader : offset + 4 ≤ headerSize) :
    SameOutside chunk mem (FreeFormChunk.setWord after (chunk + offset) value) := by
  apply same.setWord
  · exact Nat.le_add_right chunk offset
  · simp only [headerSize] at inHeader
    have room : headerSize ≤ chunkSize := by decide
    simp only [headerSize] at room
    omega

theorem SameOutside.findMaxContSpace (same : SameOutside chunk mem after) :
    SameOutside chunk mem (findMaxContSpace after chunk) := by
  rw [FreeFormChunk.findMaxContSpace]
  split_ifs with differs
  · exact same.setHeader (by decide)
  · exact same

/-- The loop of `alloc` stays on the free list. -/
theorem findSpot_mem {bound place offset : Nat} (links : Links mem chunk (word mem prev) spots)
    (found : findSpot mem chunk size bound prev = some (place, offset)) :
    (∃ spot ∈ spots, offset = spot.offset) ∧
      (place = prev ∨ ∃ spot ∈ spots, place = nextAt chunk spot.offset) := by
  obtain ⟨before, spot, others, rfl, isOffset, isPlace, -⟩ := findSpot_cases links found
  refine ⟨⟨spot, List.mem_append_right _ List.mem_cons_self, isOffset⟩, ?_⟩
  rcases placeAfter_cases chunk prev before with ⟨isPrev, -⟩ | ⟨other, member, isOther⟩
  · exact Or.inl (isPlace.trans isPrev)
  · exact Or.inr ⟨other, List.mem_append_left _ member, isPlace.trans isOther⟩

theorem alloc_sameOutside (layout : Layout mem chunk live spots) {result : Option Nat}
    (allocated : alloc mem chunk size = some (result, after)) : SameOutside chunk mem after := by
  rw [alloc] at allocated
  split_ifs at allocated with tooLarge
  · obtain ⟨-, rfl⟩ := by simpa using allocated
    exact fun _ _ => rfl
  · obtain ⟨⟨place, offset⟩, found, isAfter⟩ := Option.map_eq_some_iff.mp allocated
    obtain ⟨⟨spot, member, rfl⟩, isPlace⟩ := findSpot_mem layout.links found
    have inside := layout.spotFits.inside spot member
    simp only [Inside, headerSize, minAllocBytes] at inside
    have room : 24 ≤ chunkSize := by decide
    have taken : SameOutside chunk mem (takeSpot mem chunk size place spot.offset).2 := by
      rw [takeSpot]
      split_ifs with splits
      · apply SameOutside.setWord (fun _ _ => rfl)
        · rw [sizeAt]
          omega
        · rw [sizeAt]
          omega
      · apply SameOutside.setWord (fun _ _ => rfl)
        · rcases isPlace with rfl | ⟨other, -, rfl⟩
          · exact Nat.le_add_right _ _
          · exact Nat.le_add_right _ _
        · rcases isPlace with rfl | ⟨other, isOther, rfl⟩
          · rw [freeListAt]
            omega
          · have otherInside := layout.spotFits.inside other isOther
            simp only [Inside, minAllocBytes] at otherInside
            rw [nextAt]
            omega
    have counted {value : Nat} : SameOutside chunk mem
        (setWord (takeSpot mem chunk size place spot.offset).2 (freeSpaceAt chunk) value) :=
      taken.setHeader (by decide)
    simp only [Prod.mk.injEq] at isAfter
    rw [← isAfter.2]
    split_ifs with isLargest
    · exact counted.findMaxContSpace
    · exact counted

/-- `free` writes the header and the first words of the block. -/
theorem free_outside {place : Nat} (inChunk : chunk ≤ address)
    (header : place < freeSpaceAt chunk ∨ chunk + headerSize ≤ place)
    (block : place < address ∨ address + 8 ≤ place) :
    free mem chunk address size place = mem place := by
  obtain ⟨offset, rfl⟩ := Nat.exists_eq_add_of_le inChunk
  simp only [freeSpaceAt, headerSize] at header
  rw [free, Nat.add_sub_cancel_left, setWord_outside (by rw [freeSpaceAt]; omega), addSpot]
  by_cases isNull : word mem (freeListAt chunk) = 0
  · rw [if_pos isNull]
    simp only [freeListAt, maxContSpaceAt, nextAt, sizeAt]
    simp (disch := omega) only [setWord_outside]
  · rw [if_neg isNull]
    by_cases joins : offset + size = word mem (freeListAt chunk)
    · rw [if_pos joins]
      split_ifs
      all_goals
        simp only [freeListAt, maxContSpaceAt, nextAt, sizeAt]
        simp (disch := omega) only [setWord_outside]
    · rw [if_neg joins]
      split_ifs
      all_goals
        simp only [freeListAt, maxContSpaceAt, nextAt, sizeAt]
        simp (disch := omega) only [setWord_outside]

/-- A freed block that is not in front of the first spot becomes the first spot. -/
theorem free_pushes {offset : Nat} (behind : headerSize ≤ offset) (inside : offset < chunkSize)
    (small : size < chunkSize) (some : word mem (freeListAt chunk) ≠ 0)
    (apart : offset + size ≠ word mem (freeListAt chunk)) :
    word (free mem chunk (chunk + offset) size) (freeListAt chunk) = offset ∧
      word (free mem chunk (chunk + offset) size) (sizeAt chunk offset) = size := by
  have values : chunkSize < wordValues := by decide
  simp only [headerSize] at behind
  rw [free, Nat.add_sub_cancel_left, addSpot, if_neg some, if_neg apart]
  dsimp only
  split_ifs
  all_goals
    simp only [freeListAt, sizeAt, nextAt, maxContSpaceAt, freeSpaceAt]
    constructor
    · simp (disch := omega) only [word_setWord_self, word_setWord_of_apart]
    · simp (disch := omega) only [word_setWord_self, word_setWord_of_apart]

/-- `free` of a block inside the chunk. -/
theorem free_sameOutside (inChunk : chunk ≤ address) (inside : address + 8 ≤ chunk + chunkSize) :
    SameOutside chunk mem (free mem chunk address size) := by
  intro place outside
  have room : headerSize ≤ chunkSize := by decide
  exact free_outside inChunk (by rw [freeSpaceAt]; omega) (by omega)

/-- The constructor writes the header and the first words behind it. -/
theorem construct_outside {allocId used place : Nat}
    (outside : place < chunk ∨ chunk + headerSize + 8 ≤ place) :
    construct mem chunk allocId used place = mem place := by
  simp only [headerSize] at outside
  simp only [construct, maxContSpaceAt, sizeAt, nextAt, freeListAt, freeSpaceAt, myIdAt,
    headerSize]
  simp (disch := omega) only [setWord_outside]
  rw [store_outside (by rw [length_encode]; omega), setWord_outside (by omega)]

end Outside

/-! ## Every run -/

/-- A new chunk is one spot, apart from a block that was set apart at its end. -/
theorem represents_construct (mem : Memory) (chunk allocId : Nat) {used : Nat}
    (isUsed : used = 0 ∨ minAllocBytes ≤ used ∧ used ≤ chunkSize - headerSize - minAllocBytes) :
    Represents (construct mem chunk allocId used) chunk (constructed mem chunk allocId used).live
      [⟨headerSize, chunkSize - headerSize - used⟩] := by
  have capacity : chunkSize = 2097152 := by decide
  have isHeader : headerSize = 24 := rfl
  have isMin : minAllocBytes = 8 := rfl
  have values : wordValues = 4294967296 := by decide
  rw [isHeader, isMin, capacity] at isUsed
  have words : word (construct mem chunk allocId used) (freeListAt chunk) = headerSize ∧
      word (construct mem chunk allocId used) (nextAt chunk headerSize) = 0 ∧
      word (construct mem chunk allocId used) (sizeAt chunk headerSize) =
        chunkSize - headerSize - used ∧
      word (construct mem chunk allocId used) (freeSpaceAt chunk) =
        chunkSize - headerSize - used ∧
      word (construct mem chunk allocId used) (maxContSpaceAt chunk) =
        chunkSize - headerSize - used := by
    simp only [construct, nextAt, sizeAt, freeListAt, maxContSpaceAt, freeSpaceAt, isHeader,
      capacity]
    simp (disch := omega) only [word_setWord_self, word_setWord_of_apart, and_self]
  obtain ⟨isList, isNext, isSize, isSpace, isMax⟩ := words
  refine ⟨⟨?_, ?_, ?_⟩, ?_, ?_⟩
  · rw [isList]
    exact ⟨rfl, by decide, isSize, isNext⟩
  · simp only [constructed, Inside, isHeader, isMin, capacity]
    split_ifs with none
    · simp
      omega
    · simp
      omega
  · simp only [constructed, isHeader, capacity]
    split_ifs with none
    · simp
    · simp [Apart]
      omega
  · rw [isSpace]
    simp only [constructed, isHeader, capacity]
    split_ifs with none
    · simp
      omega
    · simp
      omega
  · rw [isMax]
    exact ⟨by simp, Or.inr ⟨_, List.mem_cons_self, rfl⟩⟩

theorem word_construct_freeList {mem : Memory} {chunk allocId used : Nat} :
    word (construct mem chunk allocId used) (freeListAt chunk) = headerSize := by
  simp only [construct, nextAt, sizeAt, freeListAt, maxContSpaceAt, freeSpaceAt, headerSize]
  simp (disch := first | omega | decide) only [word_setWord_self, word_setWord_of_apart]

theorem step_represents {chunk : Nat} {state : State} {label : Label} {spots : List Spot}
    (represents : Represents state.mem chunk state.live spots)
    (disciplined : Disciplined chunk state label) :
    ∃ next, step chunk state label = some next ∧
      ∃ newSpots, Represents next.mem chunk next.live newSpots := by
  cases label with
  | alloc size =>
      have allocated := represents.alloc disciplined.1
      split_ifs at allocated with fits
      · obtain ⟨offset, after, newSpots, isAlloc, still⟩ := allocated
        refine ⟨_, by rw [step, isAlloc, Option.map_some], newSpots, ?_⟩
        simpa using still
      · exact ⟨state, by rw [step, allocated]; rfl, spots, represents⟩
  | free block =>
      obtain ⟨newSpots, still⟩ := represents.free disciplined
      exact ⟨_, rfl, newSpots, still⟩
  | write address bytes =>
      obtain ⟨block, isLive, low, high⟩ := disciplined
      exact ⟨_, rfl, spots, represents.store isLive low high⟩

/-- Steps of clients and of the allocator write to the chunk only. -/
theorem step_sameOutside {chunk : Nat} {state next : State} {label : Label} {spots : List Spot}
    (represents : Represents state.mem chunk state.live spots)
    (disciplined : Disciplined chunk state label) (stepped : step chunk state label = some next) :
    SameOutside chunk state.mem next.mem := by
  cases label with
  | alloc size =>
      obtain ⟨⟨result, after⟩, allocated, rfl⟩ := Option.map_eq_some_iff.mp stepped
      exact alloc_sameOutside represents.layout allocated
  | free block =>
      obtain rfl := Option.some.inj stepped
      have inside := represents.layout.liveInside disciplined
      simp only [Inside, minAllocBytes] at inside
      exact free_sameOutside (Nat.le_add_right _ _) (by omega)
  | write address bytes =>
      obtain rfl := Option.some.inj stepped
      obtain ⟨block, isLive, low, high⟩ := disciplined
      have inside := represents.layout.liveInside isLive
      simp only [Inside] at inside
      exact fun place outside => store_outside (by omega)

/-- No run fails an assertion.  After it the live blocks and the spots of the free list are apart
from each other behind the header, the header counts the free bytes and the largest spot, and
`alloc` succeeds exactly for what fits into the largest spot. -/
theorem run_represents (mem : Memory) (chunk allocId : Nat) {used : Nat}
    (isUsed : used = 0 ∨ minAllocBytes ≤ used ∧ used ≤ chunkSize - headerSize - minAllocBytes)
    {labels : List Label}
    (disciplined : MeetsAlong (step chunk) (Disciplined chunk)
      (constructed mem chunk allocId used) labels) :
    ∃ state, run (step chunk) (constructed mem chunk allocId used) labels = some state ∧
      (∃ spots, Represents state.mem chunk state.live spots) ∧
      ∀ size, minAllocBytes ≤ size → size ≤ chunkSize - headerSize →
        ∃ address after, alloc state.mem chunk size = some (address, after) ∧
          (address.isSome ↔ size ≤ word state.mem (maxContSpaceAt chunk)) := by
  obtain ⟨state, ran, spots, represents⟩ := exists_run_invariant
    (fun state => ∃ spots, Represents state.mem chunk state.live spots)
    (fun _ _ ⟨_, represents⟩ met => step_represents represents met)
    ⟨_, represents_construct mem chunk allocId isUsed⟩ disciplined
  refine ⟨state, ran, ⟨spots, represents⟩, fun size large _ => ?_⟩
  have allocated := represents.alloc large
  split_ifs at allocated with fits
  · obtain ⟨offset, after, -, isAlloc, -⟩ := allocated
    exact ⟨_, _, isAlloc, by simp [fits]⟩
  · exact ⟨_, _, allocated, by simp [fits]⟩

/-- The third allocation takes a whole spot of 100 bytes for 96. -/
def chunkRun : List Label :=
  [.alloc 100, .alloc 60, .write (chunkSize + 2096993) [1, 2, 3], .free ⟨2097052, 100⟩, .alloc 96]

theorem run_represents_chunkRun :
    ∃ state, run (step chunkSize) (constructed (fun _ => 0) chunkSize 0 0) chunkRun = some state ∧
      (∃ spots, Represents state.mem chunkSize state.live spots) ∧
      ∀ size, minAllocBytes ≤ size → size ≤ chunkSize - headerSize →
        ∃ address after, alloc state.mem chunkSize size = some (address, after) ∧
          (address.isSome ↔ size ≤ word state.mem (maxContSpaceAt chunkSize)) :=
  run_represents (fun _ => 0) chunkSize 0 (Or.inl rfl) (by decide +kernel)

end Pmgd.FreeFormChunk
