import Pmgd.ChunkPool
import Pmgd.FreeFormChunk

/-!
# Blocks of several chunks

The first chunk of a large block is a free-form chunk: the part of the block that does not fill
whole chunks is set apart at its end, and the rest of the chunk is for small blocks.  A free
returns the other chunks to the allocator of the chunks, and the part in the first chunk becomes a
free spot.
-/

namespace Pmgd.LargeBlock

open ByteMemory LabelledRun
open AllocatorUnit (chunkSize headerSize minAllocBytes wordValues threshold isBorderline)
open VariableAllocator (Spot numChunks)
open FixedAllocator (Extent)
open FreeFormChunk (word freeSpaceAt freeListAt nextAt sizeAt construct Represents)

/-- `used`, the bytes of a block in its first chunk. -/
def used (size : Nat) : Nat :=
  (size - (numChunks size - 1) * chunkSize) % wordValues

/-- `chunk_base`. -/
def chunkBase (address : Nat) : Nat :=
  address - address % chunkSize

/-- `alloc_large`.  The pointer to the new chunk goes to `place`, the end of the list of the
free-form chunks; `none` is an exception or a failed assertion. -/
def allocLarge (allocator : FixedAllocator) (header : RegionHeader) (mem : Memory)
    (allocId place size : Nat) : Option (Nat × RegionHeader × Memory) :=
  if numChunks size > 1 ∧ used size > 0 then
    (allocator.allocContiguous header mem (numChunks size)).map fun (chunk, header, mem) =>
      (chunk + (chunkSize - used size), header,
        store (construct mem chunk allocId (used size)) place (encode 8 chunk))
  else none

/-- The part of `VariableAllocator::free` that returns the chunks behind the first one. -/
def freeTail (allocator : FixedAllocator) (header : RegionHeader) (mem : Memory)
    (address size : Nat) : RegionHeader × Memory :=
  if size > chunkSize then
    allocator.freeContiguous header mem (chunkBase address + chunkSize) (numChunks size - 1)
  else (header, mem)

/-- The part that returns the bytes in the first chunk. -/
def freeSpot (mem : Memory) (address size : Nat) : Memory :=
  FreeFormChunk.free mem (chunkBase address) address (VariableAllocator.firstPart size)

/-- Take a chunk out of the list at `place`, which points to it. -/
def unlink (mem : Memory) (chunk : Nat) : Option Nat → Memory
  | none => mem
  | some place => store mem place (load mem chunk 8)

/-- `VariableAllocator::free`.  An empty chunk is returned, too. -/
def free (allocator : FixedAllocator) (header : RegionHeader) (mem : Memory) (place : Option Nat)
    (address size : Nat) : RegionHeader × Memory :=
  let chunk := chunkBase address
  let freed := freeTail allocator header mem address size
  let mem := freeSpot freed.2 address size
  if word mem (freeSpaceAt chunk) = chunkSize - headerSize then
    allocator.freeContiguous freed.1 (unlink mem chunk place) chunk 1
  else (freed.1, mem)

/-! ## Everything between the allocation and the free -/

/-- The chunks that a block of a size needs. -/
def spanned (size : Nat) : Nat :=
  (size + chunkSize - 1) / chunkSize

def extent (chunk size : Nat) : Extent :=
  ⟨chunk, spanned size⟩

/-- The part of the block in its first chunk. -/
def firstBlock (size : Nat) : Spot :=
  ⟨chunkSize - used size, used size⟩

/-- The pool of the chunks, the bytes, and the live blocks in the first chunk. -/
structure State where
  header : RegionHeader
  mem : Memory
  extents : List Extent
  live : List Spot

/-- A call or a write for the first chunk, or what others make of the pool. -/
inductive Label
  | chunk (label : FreeFormChunk.Label)
  | others (header : RegionHeader) (mem : Memory) (extents : List Extent)

def step (chunk : Nat) (state : State) : Label → Option State
  | .chunk label =>
      (FreeFormChunk.step chunk ⟨state.mem, state.live⟩ label).map fun next =>
        { state with mem := next.mem, live := next.live }
  | .others header mem extents => some { state with header := header, mem := mem, extents := extents }

/-- The chunk is used as it should be, and the large block is not freed.  The others keep the pool
consistent and the extent live, and write only to the pointer to the next chunk. -/
def Disciplined (allocator : FixedAllocator) (chunk size : Nat) (state : State) : Label → Prop
  | .chunk label =>
      FreeFormChunk.Disciplined chunk ⟨state.mem, state.live⟩ label ∧
        ∀ block, label = .free block → block ≠ firstBlock size
  | .others header mem extents =>
      allocator.Holds header mem extents ∧ extent chunk size ∈ extents ∧
        ∀ address, chunk + 8 ≤ address → address < chunk + chunkSize →
          mem address = state.mem address

/-- Where pointers to free-form chunks are: in the header of the unit, or in the first word of
another chunk. -/
def IsLink (allocator : FixedAllocator) (extents : List Extent) (place : Nat) : Prop :=
  place + 8 ≤ allocator.start ∨ allocator.maxAddr ≤ place ∨ ∃ extent ∈ extents, place = extent.p

/-- The address of the block. -/
def blockAddress (chunk size : Nat) : Nat :=
  chunk + (firstBlock size).offset

namespace State

/-- The pool after the first part of `free`. -/
def tailFreed (allocator : FixedAllocator) (chunk size : Nat) (state : State) :
    RegionHeader × Memory :=
  freeTail allocator state.header state.mem (blockAddress chunk size) size

/-- The bytes after the second part. -/
def spotFreed (allocator : FixedAllocator) (chunk size : Nat) (state : State) : Memory :=
  freeSpot (state.tailFreed allocator chunk size).2 (blockAddress chunk size) size

/-- The extents without those of the block. -/
def otherExtents (chunk size : Nat) (state : State) : List Extent :=
  state.extents.erase (extent chunk size)

/-- The blocks in the first chunk without the large one. -/
def otherBlocks (size : Nat) (state : State) : List Spot :=
  state.live.erase (firstBlock size)

end State

/-- A free writes to the header of the first chunk and to the block in it only.  The returned
chunks stay as the allocator of the chunks left them, the spots of the first chunk are as they
should be, and an empty chunk is returned, too. -/
structure FreesInside (allocator : FixedAllocator) (chunk size : Nat) (state : State) : Prop where
  metadata : ∀ place,
    state.spotFreed allocator chunk size place ≠ (state.tailFreed allocator chunk size).2 place →
      chunk ≤ place ∧ place < chunk + headerSize ∨
        blockAddress chunk size ≤ place ∧ place < chunk + chunkSize
  returned : allocator.Holds (state.tailFreed allocator chunk size).1
    (state.spotFreed allocator chunk size) (⟨chunk, 1⟩ :: state.otherExtents chunk size)
  spots : ∃ spots, Represents (state.spotFreed allocator chunk size) chunk (state.otherBlocks size)
    spots
  whole : ∀ place, (∀ link ∈ place, IsLink allocator (state.otherExtents chunk size) link) →
    let freed := free allocator state.header state.mem place (blockAddress chunk size) size
    allocator.Holds freed.1 freed.2
      (if state.otherBlocks size = [] then state.otherExtents chunk size
        else ⟨chunk, 1⟩ :: state.otherExtents chunk size)

/-- An allocation hands out chunks that are the block's alone.  It writes to the header of the first
one, to the first words behind it and to the pointer at the end of the list, and whatever happens
until then, the free stays inside. -/
def StaysInside (allocator : FixedAllocator) (header : RegionHeader) (mem : Memory)
    (extents : List Extent) (allocId place size : Nat) : Prop :=
  ∀ address after later, allocLarge allocator header mem allocId place size =
      some (address, after, later) →
    ∃ chunk, address = blockAddress chunk size ∧
      allocator.HandsOut extents (extent chunk size) after later ∧
      (∀ other, later other ≠ mem other →
        chunk ≤ other ∧ other < chunk + headerSize + 8 ∨ place ≤ other ∧ other < place + 8) ∧
      ∀ labels, MeetsAlong (step chunk) (Disciplined allocator chunk size)
          ⟨after, later, extent chunk size :: extents, [firstBlock size]⟩ labels →
        ∃ state, run (step chunk) ⟨after, later, extent chunk size :: extents, [firstBlock size]⟩
            labels = some state ∧
          FreesInside allocator chunk size state

/-! ## Sizes -/

section Sizes

variable {size : Nat}

theorem spanned_eq (notBorderline : ¬ isBorderline size) :
    spanned size = size / chunkSize + 1 := by
  rw [isBorderline, not_or] at notBorderline
  have split := Nat.div_add_mod size chunkSize
  have small : size % chunkSize < chunkSize := Nat.mod_lt _ (by decide)
  have isSum : size + chunkSize - 1 =
      (size % chunkSize - 1) + chunkSize * (size / chunkSize + 1) := by
    rw [Nat.mul_succ]
    omega
  rw [spanned, isSum, Nat.add_mul_div_left _ _ (by decide), Nat.div_eq_of_lt (by omega), Nat.zero_add]

/-- Sizes whose chunks have a size of 32 bits. -/
theorem sizes_eq (routed : chunkSize < size) (notBorderline : ¬ isBorderline size)
    (fits : spanned size * chunkSize < wordValues) :
    numChunks size = spanned size ∧ 1 < spanned size ∧ used size = size % chunkSize ∧
      VariableAllocator.firstPart size = size % chunkSize := by
  have isSpanned := spanned_eq notBorderline
  have several : 0 < size / chunkSize := Nat.div_pos routed.le (by decide)
  have positive : 0 < chunkSize := AllocatorUnit.chunkSize_pos
  have few : spanned size < wordValues :=
    (Nat.le_mul_of_pos_right _ positive).trans_lt fits
  have isNum : numChunks size = spanned size := Nat.mod_eq_of_lt few
  have split := Nat.div_add_mod size chunkSize
  have part : size - (spanned size - 1) * chunkSize = size % chunkSize := by
    rw [isSpanned, Nat.add_sub_cancel, Nat.mul_comm]
    omega
  have small : size % chunkSize < wordValues :=
    (Nat.mod_lt size positive).trans (by decide)
  refine ⟨isNum, by omega, ?_, ?_⟩
  · rw [used, isNum, part, Nat.mod_eq_of_lt small]
  · rw [VariableAllocator.firstPart, if_pos routed, isNum, part]

end Sizes

/-! ## Addresses -/

section Addresses

variable {allocator : FixedAllocator} {header : RegionHeader} {mem : Memory}
  {extents : List Extent} {chunk size : Nat}

theorem chunkBase_eq (aligned : chunkSize ∣ chunk) {offset : Nat} (inside : offset < chunkSize) :
    chunkBase (chunk + offset) = chunk := by
  obtain ⟨index, rfl⟩ := aligned
  rw [chunkBase, Nat.mul_add_mod, Nat.mod_eq_of_lt inside, Nat.add_sub_cancel]

/-- A pointer is not in the chunks of the block. -/
theorem IsLink.apart {place : Nat} {block : Extent} (link : IsLink allocator extents place)
    (holds : allocator.Holds header mem (block :: extents)) :
    place + 8 ≤ block.p ∨ block.p + block.num * allocator.size ≤ place := by
  have low := (holds.aligned List.mem_cons_self).1
  have inside := holds.inside List.mem_cons_self
  have wide := FixedAllocator.size_ge allocator
  rcases link with before | behind | ⟨other, member, rfl⟩
  · exact Or.inl (before.trans low)
  · exact Or.inr ((inside.1.trans inside.2).trans behind)
  · have several := holds.1 other (List.mem_cons_of_mem block member)
    have room := Nat.le_mul_of_pos_left allocator.size several
    have apart := holds.apart member
    omega

/-- A pointer to a chunk may be written. -/
theorem IsLink.holds {place : Nat} {bytes : List UInt8} (link : IsLink allocator extents place)
    (isPointer : bytes.length = 8) (holds : allocator.Holds header mem extents) :
    allocator.Holds header (store mem place bytes) extents := by
  apply holds.congr
  intro address low inFront outside
  apply store_outside
  rw [isPointer]
  have wide := FixedAllocator.size_ge allocator
  rcases link with before | behind | ⟨other, member, rfl⟩
  · exact Or.inr (before.trans low)
  · have bounded : header.tailPtr ≤ max allocator.start allocator.maxAddr := by
      obtain ⟨-, free, partition⟩ := holds
      exact partition.bounded
    omega
  · have room := Nat.le_mul_of_pos_left allocator.size (holds.1 other member)
    rcases outside other member with before | after
    · exact Or.inl before
    · right
      omega

end Addresses

/-! ## Until the free -/

/-- The pool is consistent, and the chunks are the block's. -/
structure Reserved (allocator : FixedAllocator) (chunk size : Nat) (state : State) : Prop where
  holds : allocator.Holds state.header state.mem state.extents
  reserved : extent chunk size ∈ state.extents

/-- What holds between the allocation and the free. -/
structure Between (allocator : FixedAllocator) (chunk size : Nat) (state : State) : Prop extends
    Reserved allocator chunk size state where
  isLive : firstBlock size ∈ state.live
  represents : ∃ spots, Represents state.mem chunk state.live spots

section Between

variable {allocator : FixedAllocator} {chunk size : Nat} {state : State}

/-- What is written to the first chunk does not matter to the pool. -/
theorem holds_of_sameOutside {header : RegionHeader} {mem after : Memory} {extents : List Extent}
    (isChunks : allocator.size = chunkSize) (holds : allocator.Holds header mem extents)
    {block : Extent} (reserved : block ∈ extents)
    (same : FreeFormChunk.SameOutside block.p mem after) :
    allocator.Holds header after extents := by
  apply holds.congr
  intro address _ _ outside
  have room := Nat.le_mul_of_pos_left allocator.size (holds.1 block reserved)
  have apart := outside block reserved
  exact same address (by omega)

theorem step_between (isChunks : allocator.size = chunkSize) {label : Label}
    (between : Between allocator chunk size state)
    (disciplined : Disciplined allocator chunk size state label) :
    ∃ next, step chunk state label = some next ∧ Between allocator chunk size next := by
  obtain ⟨⟨holds, reserved⟩, isLive, spots, represents⟩ := between
  cases label with
  | chunk label =>
      obtain ⟨isDisciplined, notFreed⟩ := disciplined
      let inside : FreeFormChunk.State := ⟨state.mem, state.live⟩
      have represents : FreeFormChunk.Represents inside.mem chunk inside.live spots := represents
      obtain ⟨⟨mem, live⟩, stepped, still⟩ :=
        FreeFormChunk.step_represents represents isDisciplined
      have same := FreeFormChunk.step_sameOutside represents isDisciplined stepped
      refine ⟨_, by rw [step, stepped, Option.map_some], ?_⟩
      refine ⟨⟨holds_of_sameOutside isChunks holds reserved same, reserved⟩, ?_, still⟩
      cases label with
      | alloc size =>
          obtain ⟨⟨address, after⟩, -, isNext⟩ := Option.map_eq_some_iff.mp stepped
          obtain ⟨rfl, rfl⟩ := by simpa using isNext
          exact List.mem_append_right _ isLive
      | free block =>
          obtain ⟨rfl, rfl⟩ := by simpa [FreeFormChunk.step] using stepped
          exact (List.mem_erase_of_ne (notFreed block rfl).symm).mpr isLive
      | write address bytes =>
          obtain ⟨rfl, rfl⟩ := by simpa [FreeFormChunk.step] using stepped
          exact isLive
  | others header mem extents =>
      obtain ⟨isPool, stillReserved, same⟩ := disciplined
      exact ⟨_, rfl, ⟨isPool, stillReserved⟩, isLive, spots, represents.congr same⟩

/-- The condition on a size. -/
structure Regular (size : Nat) : Prop where
  routed : chunkSize < size
  notBorderline : ¬ isBorderline size
  fits : spanned size * chunkSize < wordValues

theorem Regular.used_pos (regular : Regular size) : 0 < used size ∧ used size ≤ threshold := by
  have isUsed := (sizes_eq regular.routed regular.notBorderline regular.fits).2.2.1
  have notBorderline := regular.notBorderline
  rw [isBorderline, not_or] at notBorderline
  rw [isUsed]
  omega

theorem Reserved.aligned (pool : Reserved allocator chunk size state)
    (isChunks : allocator.size = chunkSize) : chunkSize ∣ chunk :=
  isChunks ▸ (pool.holds.aligned pool.reserved).2.2

theorem Reserved.chunkBase_eq (pool : Reserved allocator chunk size state)
    (isChunks : allocator.size = chunkSize) (regular : Regular size) :
    chunkBase (blockAddress chunk size) = chunk := by
  apply LargeBlock.chunkBase_eq (pool.aligned isChunks)
  have part := regular.used_pos
  have room : threshold < chunkSize := by decide
  have isOffset : (firstBlock size).offset = chunkSize - used size := rfl
  omega

/-- Returning the chunks behind the first one. -/
theorem Reserved.tailFreed (pool : Reserved allocator chunk size state)
    (isChunks : allocator.size = chunkSize) (regular : Regular size) :
    allocator.Holds (state.tailFreed allocator chunk size).1
        (state.tailFreed allocator chunk size).2 (⟨chunk, 1⟩ :: state.otherExtents chunk size) ∧
      ∀ place, place < chunk + chunkSize →
        (state.tailFreed allocator chunk size).2 place = state.mem place := by
  obtain ⟨isNum, several, -, -⟩ := sizes_eq regular.routed regular.notBorderline regular.fits
  have isExtent : extent chunk size = ⟨chunk, spanned size - 1 + 1⟩ := by
    rw [extent, Nat.sub_add_cancel (by omega)]
  have perm := List.perm_cons_erase pool.reserved
  have split : allocator.Holds state.header state.mem
      (⟨chunk, 1⟩ :: ⟨chunk + chunkSize, spanned size - 1⟩ :: state.otherExtents chunk size) := by
    rw [← isChunks]
    apply FixedAllocator.Holds.split
    · rw [← isExtent]
      exact pool.holds.perm perm
    · omega
  have swapped := split.perm (List.Perm.swap _ _ _)
  have small : (spanned size - 1) * allocator.size < wordValues := by
    rw [isChunks]
    exact (Nat.mul_le_mul_right _ (Nat.sub_le _ _)).trans_lt regular.fits
  obtain ⟨returned, same⟩ :=
    FixedAllocator.returnsExactly small _ _ _ swapped List.mem_cons_self
  rw [List.erase_cons_head] at returned
  have isFreed : state.tailFreed allocator chunk size =
      allocator.freeContiguous state.header state.mem (chunk + chunkSize) (spanned size - 1) := by
    rw [State.tailFreed, freeTail, if_pos regular.routed, pool.chunkBase_eq isChunks regular,
      isNum]
  rw [isFreed]
  exact ⟨returned, fun place before => same place (Or.inl before)⟩

/-- Everything that a free promises. -/
theorem Between.freesInside (between : Between allocator chunk size state)
    (isChunks : allocator.size = chunkSize) (regular : Regular size)
    (large : minAllocBytes ≤ used size) : FreesInside allocator chunk size state := by
  obtain ⟨holds, same⟩ := between.tailFreed isChunks regular
  obtain ⟨-, -, isUsed, isFirst⟩ := sizes_eq regular.routed regular.notBorderline regular.fits
  have isBase := between.chunkBase_eq isChunks regular
  obtain ⟨positive, bounded⟩ := regular.used_pos
  have room : threshold + 32 = chunkSize := by decide
  have isOffset : (firstBlock size).offset = chunkSize - used size := rfl
  simp only [minAllocBytes] at large
  obtain ⟨-, isLive, spots, represents⟩ := between
  have isFreed : state.spotFreed allocator chunk size =
      FreeFormChunk.free (state.tailFreed allocator chunk size).2 chunk
        (chunk + (firstBlock size).offset) (firstBlock size).size := by
    rw [State.spotFreed, freeSpot, isBase, isFirst, ← isUsed]
    rfl
  have stillRepresents : Represents (state.tailFreed allocator chunk size).2 chunk state.live spots :=
    represents.congr fun place _ high => same place high
  have freed := stillRepresents.free isLive
  rw [← isFreed] at freed
  have sameOutside : FreeFormChunk.SameOutside chunk (state.tailFreed allocator chunk size).2
      (state.spotFreed allocator chunk size) := by
    rw [isFreed]
    exact FreeFormChunk.free_sameOutside (Nat.le_add_right _ _) (by omega)
  have returned := holds_of_sameOutside isChunks holds List.mem_cons_self sameOutside
  refine ⟨?_, returned, freed, ?_⟩
  · intro place changed
    by_contra outside
    apply changed
    rw [isFreed]
    rw [blockAddress] at outside
    apply FreeFormChunk.free_outside (Nat.le_add_right _ _)
    · rw [freeSpaceAt]
      omega
    · omega
  · intro place links
    obtain ⟨newSpots, newRepresents⟩ := freed
    have isFree : free allocator state.header state.mem place (blockAddress chunk size) size =
        if word (state.spotFreed allocator chunk size) (freeSpaceAt chunk) =
            chunkSize - headerSize then
          allocator.freeContiguous (state.tailFreed allocator chunk size).1
            (unlink (state.spotFreed allocator chunk size) chunk place) chunk 1
        else ((state.tailFreed allocator chunk size).1, state.spotFreed allocator chunk size) := by
      rw [free, isBase]
      rfl
    have isFull : word (state.spotFreed allocator chunk size) (freeSpaceAt chunk) =
        chunkSize - headerSize ↔ state.otherBlocks size = [] := newRepresents.freeSpace_eq_iff
    by_cases isEmpty : state.otherBlocks size = []
    · rw [isFree, if_pos (isFull.mpr isEmpty), if_pos isEmpty]
      have unlinked : allocator.Holds (state.tailFreed allocator chunk size).1
          (unlink (state.spotFreed allocator chunk size) chunk place)
          (⟨chunk, 1⟩ :: state.otherExtents chunk size) := by
        cases place with
        | none => exact returned
        | some link =>
            have isLink := links link rfl
            apply IsLink.holds _ length_load returned
            rcases isLink with before | behind | ⟨other, member, isOther⟩
            · exact Or.inl before
            · exact Or.inr (Or.inl behind)
            · exact Or.inr (Or.inr ⟨other, List.mem_cons_of_mem _ member, isOther⟩)
      have small : 1 * allocator.size < wordValues := by
        rw [isChunks]
        decide
      have last := (FixedAllocator.returnsExactly small _ _ _ unlinked List.mem_cons_self).1
      rw [List.erase_cons_head] at last
      exact last
    · rw [isFree, if_neg (isFull.not.mpr isEmpty), if_neg isEmpty]
      exact returned

end Between

/-! ## Whole lives of blocks -/

section Blocks

variable {allocator : FixedAllocator} {header : RegionHeader} {mem : Memory}
  {extents : List Extent} {allocId place size : Nat}

/-- A request that gets no chunks. -/
def Refused (allocator : FixedAllocator) (header : RegionHeader) (size : Nat) : Prop :=
  numChunks size ≤ 1 ∨ used size = 0 ∨
    allocator.maxAddr < header.tailPtr + numChunks size * chunkSize % wordValues

instance (allocator : FixedAllocator) (header : RegionHeader) (size : Nat) :
    Decidable (Refused allocator header size) :=
  inferInstanceAs (Decidable (_ ∨ _ ∨ _))

theorem allocLarge_eq (isChunks : allocator.size = chunkSize) :
    allocLarge allocator header mem allocId place size =
      if Refused allocator header size then none
      else
        some (header.tailPtr + (chunkSize - used size),
          { header with
            tailPtr := header.tailPtr + numChunks size * chunkSize % wordValues
            numAllocated := header.numAllocated + numChunks size },
          store (construct mem header.tailPtr allocId (used size)) place
            (encode 8 header.tailPtr)) := by
  rw [allocLarge]
  by_cases asserted : numChunks size > 1 ∧ used size > 0
  · rw [if_pos asserted, FixedAllocator.allocContiguous, if_neg asserted.1.ne', isChunks]
    by_cases full : allocator.maxAddr < header.tailPtr + numChunks size * chunkSize % wordValues
    · have isRefused : Refused allocator header size := Or.inr (Or.inr full)
      rw [if_pos full, if_pos isRefused, Option.map_none]
    · have isGranted : ¬ Refused allocator header size := by
        rw [Refused]
        omega
      rw [if_neg full, if_neg isGranted, Option.map_some]
  · have isRefused : Refused allocator header size := by
      rw [Refused]
      omega
    rw [if_neg asserted, if_pos isRefused]

theorem allocLarge_cases (isChunks : allocator.size = chunkSize) {address : Nat}
    {after : RegionHeader} {later : Memory}
    (allocated : allocLarge allocator header mem allocId place size = some (address, after, later)) :
    ¬ Refused allocator header size ∧ address = blockAddress header.tailPtr size ∧
      after = { header with
        tailPtr := header.tailPtr + numChunks size * chunkSize % wordValues
        numAllocated := header.numAllocated + numChunks size } ∧
      later = store (construct mem header.tailPtr allocId (used size)) place
        (encode 8 header.tailPtr) := by
  rw [allocLarge_eq isChunks] at allocated
  split_ifs at allocated with refused
  obtain ⟨rfl, rfl, rfl⟩ := by simpa using allocated
  exact ⟨refused, rfl, rfl, rfl⟩

/-- What an allocation writes. -/
theorem allocLarge_metadata (isChunks : allocator.size = chunkSize) {address other : Nat}
    {after : RegionHeader} {later : Memory}
    (allocated : allocLarge allocator header mem allocId place size = some (address, after, later))
    (changed : later other ≠ mem other) :
    header.tailPtr ≤ other ∧ other < header.tailPtr + headerSize + 8 ∨
      place ≤ other ∧ other < place + 8 := by
  obtain ⟨-, -, -, rfl⟩ := allocLarge_cases isChunks allocated
  by_contra outside
  apply changed
  rw [store_outside (by rw [length_encode]; omega), FreeFormChunk.construct_outside (by omega)]

/-- An allocation hands out the chunks. -/
theorem allocLarge_handsOut (holds : allocator.Holds header mem extents)
    (isChunks : allocator.size = chunkSize) (regular : Regular size)
    (isLink : IsLink allocator extents place) {address : Nat} {after : RegionHeader} {later : Memory}
    (allocated : allocLarge allocator header mem allocId place size = some (address, after, later)) :
    allocator.HandsOut extents (extent header.tailPtr size) after later := by
  obtain ⟨granted, -, isAfter, isLater⟩ := allocLarge_cases isChunks allocated
  obtain ⟨isNum, several, -, -⟩ := sizes_eq regular.routed regular.notBorderline regular.fits
  rw [isNum, Nat.mod_eq_of_lt regular.fits] at isAfter
  have room : header.tailPtr + spanned size * allocator.size ≤ allocator.maxAddr := by
    rw [Refused, isNum, Nat.mod_eq_of_lt regular.fits] at granted
    rw [isChunks]
    omega
  have handed := FixedAllocator.handsOut_tail holds (Nat.zero_lt_of_lt several)
    (isChunks ▸ regular.fits) room
  rw [isChunks, ← isAfter] at handed
  refine ⟨handed.inside, handed.apart, ?_, handed.returns⟩
  rw [isLater]
  apply IsLink.holds _ (length_encode _ _)
  · apply holds_of_sameOutside isChunks handed.holds List.mem_cons_self
    intro other outside
    have inChunk : headerSize + 8 ≤ chunkSize := by decide
    dsimp only at outside
    exact FreeFormChunk.construct_outside (by omega)
  · rcases isLink with before | behind | ⟨other, member, isOther⟩
    · exact Or.inl before
    · exact Or.inr (Or.inl behind)
    · exact Or.inr (Or.inr ⟨other, List.mem_cons_of_mem _ member, isOther⟩)

/-- In the chunk there is what the constructor wrote. -/
theorem allocLarge_inChunk (isChunks : allocator.size = chunkSize) (regular : Regular size)
    (isLink : IsLink allocator extents place) {address other : Nat} {after : RegionHeader}
    {later : Memory}
    (allocated : allocLarge allocator header mem allocId place size = some (address, after, later))
    (handed : allocator.HandsOut extents (extent header.tailPtr size) after later)
    (low : header.tailPtr ≤ other) (high : other < header.tailPtr + chunkSize) :
    later other = construct mem header.tailPtr allocId (used size) other := by
  obtain ⟨-, -, -, isLater⟩ := allocLarge_cases isChunks allocated
  have apart := isLink.apart handed.holds
  have several := (sizes_eq regular.routed regular.notBorderline regular.fits).2.1
  have inChunks := Nat.le_mul_of_pos_left chunkSize (Nat.zero_lt_of_lt several)
  rw [isChunks] at apart
  simp only [extent] at apart
  rw [isLater]
  exact store_outside (by rw [length_encode]; omega)

/-- The state behind an allocation. -/
theorem between_allocated (holds : allocator.Holds header mem extents)
    (isChunks : allocator.size = chunkSize) (regular : Regular size)
    (large : minAllocBytes ≤ used size) (isLink : IsLink allocator extents place) {address : Nat}
    {after : RegionHeader} {later : Memory}
    (allocated : allocLarge allocator header mem allocId place size = some (address, after, later)) :
    Between allocator header.tailPtr size
      ⟨after, later, extent header.tailPtr size :: extents, [firstBlock size]⟩ := by
  have handed := allocLarge_handsOut holds isChunks regular isLink allocated
  obtain ⟨positive, bounded⟩ := regular.used_pos
  have represents := FreeFormChunk.represents_construct mem header.tailPtr allocId
    (Or.inr ⟨large, bounded⟩)
  have isLive : (FreeFormChunk.constructed mem header.tailPtr allocId (used size)).live =
      [firstBlock size] := if_neg positive.ne'
  rw [isLive] at represents
  refine ⟨⟨handed.holds, List.mem_cons_self⟩, List.mem_cons_self, _, represents.congr ?_⟩
  intro other low high
  exact allocLarge_inChunk isChunks regular isLink allocated handed (by omega) high

/-- With a remainder of less than 8 bytes the free makes a spot that is too small. -/
theorem large_of_freesInside (isChunks : allocator.size = chunkSize) (regular : Regular size)
    {after : RegionHeader} {chunk : Nat} {later : Memory}
    (pool : Reserved allocator chunk size ⟨after, later, extents, [firstBlock size]⟩)
    (same : ∀ other, chunk + 8 ≤ other → other < chunk + chunkSize →
      later other = construct mem chunk allocId (used size) other)
    (frees : FreesInside allocator chunk size ⟨after, later, extents, [firstBlock size]⟩) :
    minAllocBytes ≤ used size := by
  obtain ⟨-, sameTail⟩ := pool.tailFreed isChunks regular
  obtain ⟨-, -, isUsed, isFirst⟩ := sizes_eq regular.routed regular.notBorderline regular.fits
  obtain ⟨positive, bounded⟩ := regular.used_pos
  obtain ⟨spots, represents⟩ := frees.spots
  have room : threshold + 32 = chunkSize := by decide
  have isHeader : headerSize = 24 := rfl
  have isOffset : (firstBlock size).offset = chunkSize - used size := rfl
  -- before the free, the first spot is the one behind the header
  have isList : word (State.tailFreed allocator chunk size
      ⟨after, later, extents, [firstBlock size]⟩).2 (freeListAt chunk) = headerSize := by
    have isWord : word (construct mem chunk allocId (used size)) (freeListAt chunk) = headerSize :=
      FreeFormChunk.word_construct_freeList
    rw [← isWord]
    apply FreeFormChunk.word_congr
    intro offset inWord
    rw [freeListAt, sameTail _ (by omega)]
    exact same _ (by omega) (by omega)
  have isFreed : State.spotFreed allocator chunk size ⟨after, later, extents, [firstBlock size]⟩ =
      FreeFormChunk.free (State.tailFreed allocator chunk size
        ⟨after, later, extents, [firstBlock size]⟩).2 chunk
        (chunk + (firstBlock size).offset) (used size) := by
    rw [State.spotFreed, freeSpot, pool.chunkBase_eq isChunks regular, isFirst, ← isUsed]
    rfl
  generalize (State.tailFreed allocator chunk size
    ⟨after, later, extents, [firstBlock size]⟩).2 = freed at isList isFreed
  have some : word freed (freeListAt chunk) ≠ 0 := by omega
  have apart : (firstBlock size).offset + used size ≠ word freed (freeListAt chunk) := by omega
  obtain ⟨isFirstSpot, isSize⟩ :=
    FreeFormChunk.free_pushes (by omega) (by omega) (by omega) some apart
  have layout := represents.layout
  have links := layout.links
  rw [isFreed] at links layout
  rw [isFirstSpot] at links
  cases spots with
  | nil =>
      have isNull : (firstBlock size).offset = 0 := links
      omega
  | cons spot spots =>
      obtain ⟨-, -, isSpotSize, -⟩ := links
      have inside := layout.spotFits.inside spot List.mem_cons_self
      rw [isSize] at isSpotSize
      exact isSpotSize ▸ inside.2.2

/-- With chunks of more than 32 bits the pool does not hand out all of them. -/
theorem fits_of_handsOut (isChunks : allocator.size = chunkSize)
    {address chunk : Nat} {after : RegionHeader} {later : Memory}
    (allocated : allocLarge allocator header mem allocId place size = some (address, after, later))
    (isAddress : address = blockAddress chunk size)
    (handed : allocator.HandsOut extents (extent chunk size) after later) :
    chunk = header.tailPtr ∧ spanned size * chunkSize < wordValues := by
  obtain ⟨-, isBlock, isAfter, -⟩ := allocLarge_cases isChunks allocated
  have isChunk : chunk = header.tailPtr := by
    rw [isAddress] at isBlock
    exact Nat.add_right_cancel isBlock
  refine ⟨isChunk, ?_⟩
  have inside := (handed.holds.inside List.mem_cons_self).1
  have less : numChunks size * chunkSize % wordValues < wordValues := Nat.mod_lt _ (by decide)
  rw [isAfter, isChunk, isChunks] at inside
  dsimp only [extent] at inside
  omega

/-- A block of several chunks stays inside its memory, from the allocation to the free, exactly if
its last bytes are 8 or more and the size of its chunks fits into 32 bits, or if the request is
refused. -/
theorem staysInside_iff (holds : allocator.Holds header mem extents)
    (isChunks : allocator.size = chunkSize) (routed : chunkSize < size)
    (notBorderline : ¬ isBorderline size) (isLink : IsLink allocator extents place) :
    StaysInside allocator header mem extents allocId place size ↔
      minAllocBytes ≤ size % chunkSize ∧ spanned size * chunkSize < wordValues ∨
        Refused allocator header size := by
  constructor
  · intro stays
    by_cases refused : Refused allocator header size
    · exact Or.inr refused
    · left
      have allocated : allocLarge allocator header mem allocId place size = _ :=
        allocLarge_eq isChunks
      rw [if_neg refused] at allocated
      obtain ⟨chunk, isAddress, handed, -, frees⟩ := stays _ _ _ allocated
      obtain ⟨rfl, fits⟩ := fits_of_handsOut isChunks allocated isAddress handed
      have regular : Regular size := ⟨routed, notBorderline, fits⟩
      obtain ⟨state, ran, freesInside⟩ := frees [] trivial
      rw [run_nil, Option.some.injEq] at ran
      rw [← ran] at freesInside
      have inChunk (other : Nat) (low : header.tailPtr + 8 ≤ other) (high : _) :=
        allocLarge_inChunk isChunks regular isLink allocated handed (Nat.le_of_add_right_le low) high
      have isLarge := large_of_freesInside isChunks regular
        ⟨handed.holds, List.mem_cons_self⟩ inChunk freesInside
      rw [(sizes_eq routed notBorderline fits).2.2.1] at isLarge
      exact ⟨isLarge, fits⟩
  · rintro (⟨large, fits⟩ | refused) address after later allocated
    · have regular : Regular size := ⟨routed, notBorderline, fits⟩
      have isUsed := (sizes_eq routed notBorderline fits).2.2.1
      rw [← isUsed] at large
      obtain ⟨-, isAddress, -, -⟩ := allocLarge_cases isChunks allocated
      refine ⟨header.tailPtr, isAddress, allocLarge_handsOut holds isChunks regular isLink allocated,
        fun other changed => allocLarge_metadata isChunks allocated changed,
        fun labels disciplined => ?_⟩
      obtain ⟨state, ran, between⟩ := exists_run_invariant (Between allocator header.tailPtr size)
        (fun _ _ between met => step_between isChunks between met)
        (between_allocated holds isChunks regular large isLink allocated) disciplined
      exact ⟨state, ran, between.freesInside isChunks regular large⟩
    · rw [allocLarge_eq isChunks, if_pos refused] at allocated
      cases allocated

end Blocks

theorem staysInside_three_megabytes :
    StaysInside FixedAllocator.chunkPool ⟨chunkSize, 0, 0⟩ (fun _ => 0) [] 0 0 3000000 :=
  (staysInside_iff (FixedAllocator.holds_chunkPool _) rfl (by decide) (by decide)
    (Or.inl (by decide))).mpr (Or.inl (by decide))

/-- One byte in the first chunk.  While the chunk behind it is on the free list, the new spot
reaches into it: its first word is not marked as free any more and has lost its link. -/
theorem one_byte_overwrites_free_list :
    ¬ StaysInside FixedAllocator.chunkPool ⟨chunkSize, 0, 0⟩ (fun _ => 0) [] 0 0 (chunkSize + 1) ∧
      ∃ mem, allocLarge FixedAllocator.chunkPool ⟨chunkSize, 0, 0⟩ (fun _ => 0) 0 0
          (chunkSize + 1) = some (2 * chunkSize - 1, ⟨3 * chunkSize, 0, 2⟩, mem) ∧
        FixedAllocator.allocContiguous FixedAllocator.chunkPool ⟨3 * chunkSize, 0, 2⟩ mem 1 =
          some (3 * chunkSize, ⟨4 * chunkSize, 0, 3⟩, mem) ∧
        (∃ tail, freeTail FixedAllocator.chunkPool ⟨4 * chunkSize, 0, 3⟩ mem (2 * chunkSize - 1)
            (chunkSize + 1) = (⟨4 * chunkSize, 2 * chunkSize, 2⟩, tail) ∧
          loadNat tail (2 * chunkSize) 8 = 1 ∧
          loadNat (freeSpot tail (2 * chunkSize - 1) (chunkSize + 1)) (2 * chunkSize) 8 =
            2 ^ 24) := by
  refine ⟨?_, _, rfl, rfl, _, rfl, by decide, by decide⟩
  rw [staysInside_iff (FixedAllocator.holds_chunkPool _) rfl (by decide) (by decide)
    (Or.inl (by decide))]
  decide

end Pmgd.LargeBlock
