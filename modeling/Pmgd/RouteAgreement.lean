import Pmgd.RouteInvariant

/-!
# Allocation and free take the same route

A block is served by parts of chunks in the lists of its instance, or by whole chunks.  As long as
it is held, its chunk stays in the list, and the header at the masked address tells the instance,
so that a free returns to the sub-allocator what it has handed out.
-/

namespace Pmgd.AllocationRoutes

open ByteMemory LabelledRun
open AllocatorUnit (chunkSize smallChunkSize wordValues headerSize minAllocBytes poolHeaderSize
  fixedSizes threshold isBorderline allocOffset maxSpots)
open FixedAllocator (Extent)
open VariableAllocator (numChunks firstPart)
open LargeBlock (used chunkBase)

variable {config : Config} {leak : Nat → SubAllocator → Nat} {state after : State}
  {holdings : List Holding} {base allocId address size index page : Nat} {choice : Choice}
  {spots : Nat → FreeSpot}

/-! ## Sizes -/

theorem spanned_small (notBorderline : ¬ isBorderline size)
    (small : size + chunkSize ≤ wordValues) :
    LargeBlock.spanned size * chunkSize < wordValues := by
  rw [LargeBlock.spanned_eq notBorderline, Nat.succ_mul]
  have split := not_or.mp notBorderline
  have whole := Nat.div_add_mod size chunkSize
  rw [Nat.mul_comm] at whole
  omega

/-- The bytes of a block in its first chunk are less than a chunk has. -/
theorem firstPart_bounds (positive : 0 < size) (notBorderline : ¬ isBorderline size)
    (small : size + chunkSize ≤ wordValues) :
    0 < firstPart size ∧ firstPart size ≤ threshold := by
  have split := not_or.mp notBorderline
  by_cases large : size > chunkSize
  · have fits := spanned_small notBorderline small
    rw [(LargeBlock.sizes_eq large notBorderline fits).2.2.2]
    omega
  · rw [firstPart, if_neg large]
    have notChunk : size ≠ chunkSize := by
      rintro rfl
      exact split.1 (Nat.mod_self _)
    rw [Nat.mod_eq_of_lt (by omega)] at split
    omega

theorem numChunks_bounds (large : size > chunkSize) (notBorderline : ¬ isBorderline size)
    (small : size + chunkSize ≤ wordValues) :
    1 < numChunks size ∧ numChunks size * chunkSize < wordValues := by
  have fits := spanned_small notBorderline small
  obtain ⟨isNum, several, -⟩ := LargeBlock.sizes_eq large notBorderline fits
  rw [isNum]
  exact ⟨several, fits⟩

theorem used_eq_firstPart (large : size > chunkSize) (notBorderline : ¬ isBorderline size)
    (small : size + chunkSize ≤ wordValues) : used size = firstPart size := by
  have fits := spanned_small notBorderline small
  obtain ⟨-, -, isUsed, isFirst⟩ := LargeBlock.sizes_eq large notBorderline fits
  rw [isUsed, isFirst]

theorem take_addChunk {chunk : ListedChunk} {amount : Nat} :
    (state.addChunk chunk 0).take chunk.base amount = state.addChunk chunk amount := by
  have new : (state.addChunk chunk 0).headers chunk.base = ⟨chunk.allocId, chunk.sub.capacity⟩ :=
    Function.update_self _ _ _
  unfold State.take State.setFree State.free
  rw [new]
  simp only [State.addChunk, Function.update_idem]

theorem free_addChunk {chunk : ListedChunk} :
    (state.addChunk chunk 0).free chunk.base = chunk.sub.capacity := by
  simp only [State.free, State.addChunk, Function.update_self, Nat.sub_zero]

/-! ## Blocks of free-form chunks -/

theorem InChunk.mono {amount less : Nat} (inside : InChunk address amount) (le : less ≤ amount) :
    InChunk address less :=
  (Nat.add_le_add_left le address).trans inside

/-- What a block of a free-form chunk holds. -/
def formHoldings (address size allocId : Nat) : List Holding :=
  .part (formChunk address allocId) (firstPart size) ::
    if size > chunkSize then [.chunks ⟨chunkBase address + chunkSize, numChunks size - 1⟩] else []

theorem newOffset_le (room : size ≤ chunkSize - headerSize) : newOffset size + size ≤ chunkSize := by
  have wide : headerSize ≤ chunkSize := by decide
  unfold newOffset
  split_ifs
  · omega
  · omega

theorem newFormChunk_cases {num used : Nat}
    (isNew : newFormChunk config state allocId num used = some (base, after)) :
    ∃ middle, allocChunk config state num = some (base, middle) ∧
      after = middle.addChunk ⟨base, allocId, .freeForm⟩ used := by
  obtain ⟨⟨p, middle⟩, isAlloc, isAfter⟩ := Option.map_eq_some_iff.mp isNew
  obtain ⟨rfl, rfl⟩ := Prod.mk.inj isAfter
  exact ⟨middle, isAlloc, rfl⟩

/-- A part of a new free-form chunk. -/
theorem Sound.newForm {amount : Nat} (sound : Sound config leak state (.chunks ⟨base, 1⟩ :: holdings))
    (owner : allocId < state.units) (positive : 0 < amount)
    (room : amount ≤ chunkSize - headerSize) :
    Sound config leak (state.addChunk ⟨base, allocId, .freeForm⟩ amount)
      (.part ⟨base, allocId, .freeForm⟩ amount :: holdings) := by
  let chunk : ListedChunk := ⟨base, allocId, .freeForm⟩
  have member : chunk ∈ (state.addChunk chunk 0).listed :=
    List.mem_append_right _ (List.mem_singleton_self _)
  have isFree : amount ≤ (state.addChunk chunk 0).free chunk.base := by
    rw [free_addChunk]
    exact room
  have taken := (sound.addForm owner).take member positive isFree
  rw [take_addChunk] at taken
  exact taken

theorem newOffset_lt (positive : 0 < size) : newOffset size < chunkSize := by
  have wide : headerSize < chunkSize := by decide
  unfold newOffset
  split_ifs
  · omega
  · exact wide

/-- `VariableAllocator::alloc`. -/
theorem Sound.formAlloc_spec {place : Option (Nat × Nat)} (sound : Sound config leak state holdings)
    (owner : allocId < state.units) (positive : 0 < size) (notBorderline : ¬ isBorderline size)
    (small : size + chunkSize ≤ wordValues)
    (allocated : formAlloc config state allocId size place = some (address, after)) :
    Sound config leak after (formHoldings address size allocId ++ holdings) ∧
      InChunk address (firstPart size) ∧ after.pools = state.pools ∧
      after.units = state.units := by
  obtain ⟨isPositive, isSmall⟩ := firstPart_bounds positive notBorderline small
  have room : firstPart size ≤ chunkSize - headerSize := isSmall.trans (by decide)
  unfold formAlloc at allocated
  unfold formHoldings
  by_cases large : size > chunkSize
  · rw [if_pos large] at allocated ⊢
    rw [used_eq_firstPart large notBorderline small] at allocated
    obtain ⟨several, fits⟩ := numChunks_bounds large notBorderline small
    obtain ⟨-, mapped⟩ := Option.ite_none_right_eq_some.mp allocated
    obtain ⟨⟨base, last⟩, isNew, isAfter⟩ := Option.map_eq_some_iff.mp mapped
    obtain ⟨rfl, rfl⟩ := Prod.mk.inj isAfter
    obtain ⟨middle, isAlloc, rfl⟩ := newFormChunk_cases isNew
    obtain ⟨held, chunksHdr, mem, rfl⟩ := sound.allocChunk_spec (by omega) fits isAlloc
    have isBase : chunkBase (base + (chunkSize - firstPart size)) = base :=
      LargeBlock.chunkBase_eq held.base_aligned (by omega)
    rw [formChunk, isBase]
    have whole : numChunks size = numChunks size - 1 + 1 := by omega
    rw [whole] at held
    refine ⟨(held.split (by omega)).newForm owner isPositive room, ?_, rfl, rfl⟩
    rw [InChunk, isBase]
    omega
  · rw [if_neg large] at allocated ⊢
    have isFirst : firstPart size = size := if_neg large
    rw [isFirst] at room ⊢
    cases place with
    | some place =>
        obtain ⟨chunk, offset⟩ := place
        obtain ⟨⟨member, fits, low, high⟩, isSome⟩ :=
          Option.ite_none_right_eq_some.mp allocated
        obtain ⟨rfl, rfl⟩ := Prod.mk.inj (Option.some.inj isSome)
        have isBase : chunkBase (chunk + offset) = chunk :=
          LargeBlock.chunkBase_eq (sound.form_aligned member) (by omega)
        rw [formChunk, isBase]
        refine ⟨sound.take member positive fits, ?_, rfl, rfl⟩
        rw [InChunk, isBase]
        omega
    | none =>
        obtain ⟨⟨base, last⟩, isNew, isAfter⟩ := Option.map_eq_some_iff.mp allocated
        obtain ⟨rfl, rfl⟩ := Prod.mk.inj isAfter
        obtain ⟨middle, isAlloc, rfl⟩ := newFormChunk_cases isNew
        obtain ⟨held, chunksHdr, mem, rfl⟩ := sound.allocChunk_spec Nat.one_pos (by decide) isAlloc
        have isBase : chunkBase (base + newOffset size) = base :=
          LargeBlock.chunkBase_eq held.base_aligned (newOffset_lt positive)
        let chunk : ListedChunk := ⟨base, allocId, .freeForm⟩
        rw [formChunk, isBase, @take_addChunk _ chunk]
        refine ⟨held.newForm owner positive room, ?_, rfl, rfl⟩
        rw [InChunk, isBase, Nat.add_assoc]
        exact Nat.add_le_add_left (newOffset_le room) _

/-- What is free in a chunk, and a part of it that is held. -/
theorem Sound.part_fits {chunk : ListedChunk} {amount : Nat}
    (sound : Sound config leak state (.part chunk amount :: holdings)) :
    chunk ∈ state.listed ∧ 0 < amount ∧ state.free chunk.base + amount ≤ chunk.sub.capacity := by
  have kept := sound.kept.perm held_cons
  obtain ⟨member, positive⟩ := kept.parts chunk amount List.mem_cons_self
  have space := (kept.listed chunk member).space
  rw [amountAt_part, if_pos rfl] at space
  exact ⟨member, positive, by omega⟩

theorem Sound.formFreeFirst_spec {amount : Nat}
    (sound : Sound config leak state (.part (formChunk address allocId) amount :: holdings))
    (inside : InChunk address minAllocBytes) :
    ∃ last, formFreeFirst config spots state allocId address amount = some last ∧
      Sound config leak last holdings ∧ last.pools = state.pools ∧ last.units = state.units := by
  obtain ⟨member, -, fits⟩ := sound.part_fits
  have capacity : SubAllocator.freeForm.capacity < wordValues := by decide
  have noOverflow : (state.free (chunkBase address) + amount) % wordValues =
      state.free (chunkBase address) + amount :=
    Nat.mod_eq_of_lt (fits.trans_lt capacity)
  have put := (@Sound.writeSpot _ _ _ _ _ _ (spots address) sound member inside).put
  unfold formFreeFirst
  dsimp only
  rw [noOverflow]
  by_cases empty : state.free (chunkBase address) + amount = chunkSize - headerSize
  · rw [if_pos empty]
    obtain ⟨chunksHdr, mem, freed, after⟩ :=
      (put.unlinkForm member (free_setFree_self.trans empty)).freeChunk_spec
    exact ⟨_, freed, after, rfl, rfl⟩
  · rw [if_neg empty]
    exact ⟨_, rfl, put, rfl, rfl⟩

/-- `VariableAllocator::free`. -/
theorem Sound.formFree_spec
    (sound : Sound config leak state (formHoldings address size allocId ++ holdings))
    (inside : InChunk address minAllocBytes) :
    ∃ last, formFree config spots state allocId address size = some last ∧
      Sound config leak last holdings ∧ last.pools = state.pools ∧ last.units = state.units := by
  unfold formFree
  unfold formHoldings at sound
  by_cases large : size > chunkSize
  · rw [if_pos large] at sound ⊢
    obtain ⟨chunksHdr, mem, freed, after⟩ := (sound.perm (List.Perm.swap _ _ _)).freeChunk_spec
    obtain ⟨last, isLast, isSound, samePools, sameUnits⟩ := after.formFreeFirst_spec inside
    rw [freed]
    exact ⟨last, isLast, isSound, samePools, sameUnits⟩
  · rw [if_neg large] at sound ⊢
    exact sound.formFreeFirst_spec inside

/-! ## Spots of small chunks -/

/-- A small chunk is in a pool, and not yet in a list. -/
structure NewPage (state : State) (allocId page : Nat) : Prop where
  aligned : smallChunkSize ∣ page
  inPool : ∃ pool ∈ state.pools, pool.allocId = allocId ∧ pool.base = chunkBase page
  fresh : ∀ chunk ∈ state.listed, chunk.base ≠ page

theorem chunkBase_self (aligned : chunkSize ∣ base) : chunkBase base = base :=
  LargeBlock.chunkBase_eq aligned AllocatorUnit.chunkSize_pos

/-- `FlexFixedAllocator::alloc`. -/
theorem Sound.flexAlloc_spec (sound : Sound config leak state holdings)
    (owner : allocId < state.units)
    (allocated : flexAlloc config state allocId choice = some (page, after)) :
    Sound config leak after holdings ∧ NewPage after allocId page ∧
      after.units = state.units := by
  unfold flexAlloc at allocated
  cases isPage : choice.page with
  | some other =>
      rw [isPage] at allocated
      obtain ⟨⟨inPool, aligned, fresh⟩, isSome⟩ := Option.ite_none_right_eq_some.mp allocated
      obtain ⟨rfl, rfl⟩ := Prod.mk.inj (Option.some.inj isSome)
      exact ⟨sound, ⟨aligned, inPool, fresh⟩, rfl⟩
  | none =>
      rw [isPage] at allocated
      obtain ⟨-, bound⟩ := Option.ite_none_right_eq_some.mp allocated
      obtain ⟨⟨hdr, middle⟩, isForm, mapped⟩ := Option.bind_eq_some_iff.mp bound
      obtain ⟨⟨base, last⟩, isAlloc, isAfter⟩ := Option.map_eq_some_iff.mp mapped
      obtain ⟨rfl, rfl⟩ := Prod.mk.inj isAfter
      obtain ⟨withHdr, inChunk, -, sameUnits⟩ := sound.formAlloc_spec owner (by decide) (by decide)
        (by decide) isForm
      obtain ⟨held, chunksHdr, mem, rfl⟩ := withHdr.allocChunk_spec Nat.one_pos (by decide) isAlloc
      let pool : Pool := ⟨base, allocId, some hdr⟩
      have isSound : Sound config leak ((middle.setChunks chunksHdr mem).addPool pool) holdings :=
        held.addPool (sameUnits ▸ owner) fun other isHdr => Option.some.inj isHdr ▸ inChunk
      have small : smallChunkSize ∣ chunkSize := by decide
      refine ⟨isSound, ⟨small.trans held.base_aligned, ⟨pool, ?_, rfl, ?_⟩, ?_⟩, sameUnits⟩
      · exact List.mem_append_right _ (List.mem_singleton_self _)
      · exact (chunkBase_self held.base_aligned).symm
      · exact fun chunk member => held.fresh member

/-- `FlexFixedAllocator::free`. -/
theorem Sound.flexFree_spec (sound : Sound config leak state holdings)
    (inPool : ∃ pool ∈ state.pools, pool.allocId = allocId ∧ pool.base = chunkBase page) :
    ∃ last, flexFree config spots state allocId page = some last ∧ Sound config leak last holdings ∧
      last.units = state.units := by
  obtain ⟨pool, isPool, isRight⟩ := inPool
  unfold flexFree
  cases found : state.pools.find? fun pool =>
      decide (pool.allocId = allocId ∧ pool.base = chunkBase page) with
  | none => exact absurd (by simpa using isRight) (List.find?_eq_none.mp found pool isPool)
  | some other =>
      have isOther := List.mem_of_find?_eq_some found
      obtain ⟨isOwner, isBase⟩ : other.allocId = allocId ∧ other.base = chunkBase page := by
        simpa using List.find?_some found
      dsimp only
      cases isHdr : other.hdr with
      | none => exact ⟨state, rfl, sound, rfl⟩
      | some hdr =>
          dsimp only
          by_cases empty : state.numAllocated other.base = 0
          · rw [if_pos empty]
            have high : config.chunks.start ≤ other.base := by
              rcases (sound.kept.pools other isOther).place with high | ⟨-, noHdr⟩
              · exact high
              · rw [isHdr] at noHdr
                cases noHdr
            have noneInside (chunk : ListedChunk) (member : chunk ∈ state.listed) (index : Nat)
                (isSub : chunk.sub = .fixSize index) : chunkBase chunk.base ≠ other.base := by
              intro inside
              apply List.countP_eq_zero.mp empty chunk member
              rw [isSub]
              simpa using inside
            obtain ⟨chunksHdr, mem, freed, after⟩ :=
              (sound.removePool isOther high noneInside).freeChunk_spec
            have isHolding : other.holding?.toList = formHoldings hdr poolHeaderSize allocId := by
              rw [Pool.holding?, isHdr, isOwner]
              rfl
            rw [isHolding] at after
            have inChunk := ((sound.kept.pools other isOther).hdr hdr isHdr).mono
              (by decide : minAllocBytes ≤ poolHeaderSize)
            obtain ⟨last, isLast, isSound, -, sameUnits⟩ := after.formFree_spec inChunk
            rw [freed]
            exact ⟨last, isLast, isSound, sameUnits⟩
          · rw [if_neg empty]
            exact ⟨state, rfl, sound, rfl⟩

theorem objSize_bounds (isIndex : index < fixedSizes.length) :
    0 < objSize index ∧
      allocOffset (objSize index) + objSize index * maxSpots (objSize index) ≤ smallChunkSize ∧
      0 < maxSpots (objSize index) := by
  revert isIndex
  revert index
  decide

/-- The address of a spot. -/
theorem isSpot_of_lt {spot : Nat} (isIndex : index < fixedSizes.length)
    (aligned : smallChunkSize ∣ page) (less : spot < maxSpots (objSize index)) :
    let address := page + allocOffset (objSize index) + objSize index * spot
    pageBase address = page ∧ IsSpot index address := by
  intro address
  obtain ⟨positive, fits, -⟩ := objSize_bounds isIndex
  have inside : objSize index * spot + objSize index ≤
      objSize index * maxSpots (objSize index) := by
    rw [← Nat.mul_succ]
    exact Nat.mul_le_mul_left _ less
  obtain ⟨place, rfl⟩ := aligned
  have isBase : pageBase address = smallChunkSize * place := by
    have isMod : address % smallChunkSize =
        allocOffset (objSize index) + objSize index * spot := by
      rw [show address = smallChunkSize * place +
        (allocOffset (objSize index) + objSize index * spot) from Nat.add_assoc _ _ _,
        Nat.mul_add_mod]
      exact Nat.mod_eq_of_lt (by omega)
    rw [pageBase, isMod]
    omega
  refine ⟨isBase, ?_, ?_, ?_⟩
  · rw [isBase]
    exact Nat.le_add_right _ _
  · rw [isBase]
    omega
  · rw [isBase, Nat.add_sub_cancel_left]
    exact Nat.mul_mod_right _ _

/-- What a block of a fixed size holds. -/
def spotHolding (address allocId index : Nat) : Holding :=
  .part ⟨pageBase address, allocId, .fixSize index⟩ 1

theorem Sound.small_placed (sound : Sound config leak state holdings)
    (member : ⟨page, allocId, .fixSize index⟩ ∈ state.listed) :
    index < fixedSizes.length ∧ smallChunkSize ∣ page ∧
      ∃ pool ∈ state.pools, pool.allocId = allocId ∧ pool.base = chunkBase page :=
  (sound.kept.listed _ member).placed

/-- `FixSizeAllocator::alloc`. -/
theorem Sound.fixedAlloc_spec (sound : Sound config leak state holdings)
    (owner : allocId < state.units) (isIndex : index < fixedSizes.length)
    (allocated : fixedAlloc config state allocId index choice = some (address, after)) :
    Sound config leak after (spotHolding address allocId index :: holdings) ∧
      IsSpot index address ∧ after.units = state.units := by
  unfold fixedAlloc at allocated
  unfold spotHolding
  cases isSpot : choice.spot with
  | some place =>
      obtain ⟨page, spot⟩ := place
      rw [isSpot] at allocated
      obtain ⟨⟨member, room, less⟩, isSome⟩ := Option.ite_none_right_eq_some.mp allocated
      obtain ⟨rfl, rfl⟩ := Prod.mk.inj (Option.some.inj isSome)
      obtain ⟨isBase, atSpot⟩ := isSpot_of_lt isIndex (sound.small_placed member).2.1 less
      rw [isBase]
      exact ⟨sound.take member Nat.one_pos room, atSpot, rfl⟩
  | none =>
      rw [isSpot] at allocated
      obtain ⟨-, mapped⟩ := Option.ite_none_right_eq_some.mp allocated
      obtain ⟨⟨page, middle⟩, isFlex, isAfter⟩ := Option.map_eq_some_iff.mp mapped
      obtain ⟨rfl, rfl⟩ := Prod.mk.inj isAfter
      obtain ⟨isSound, newPage, sameUnits⟩ := sound.flexAlloc_spec owner isFlex
      have hasSpot := (objSize_bounds isIndex).2.2
      obtain ⟨isBase, atSpot⟩ := isSpot_of_lt isIndex newPage.aligned hasSpot
      rw [Nat.mul_zero, Nat.add_zero] at isBase atSpot
      rw [isBase]
      let chunk : ListedChunk := ⟨page, allocId, .fixSize index⟩
      have added := isSound.addSmall newPage.fresh (sameUnits ▸ owner)
        ⟨isIndex, newPage.aligned, newPage.inPool⟩
      have member : chunk ∈ (middle.addChunk chunk 0).listed :=
        List.mem_append_right _ (List.mem_singleton_self _)
      have room : 1 ≤ (middle.addChunk chunk 0).free chunk.base := by
        rw [free_addChunk]
        exact hasSpot
      exact ⟨added.take member Nat.one_pos room, atSpot, sameUnits⟩

/-- `FixSizeAllocator::free`. -/
theorem Sound.fixedFree_spec
    (sound : Sound config leak state (spotHolding address allocId index :: holdings))
    (atSpot : IsSpot index address) :
    ∃ last, fixedFree config spots state allocId index address = some last ∧
      Sound config leak last holdings ∧ last.units = state.units := by
  obtain ⟨member, -, fits⟩ := sound.part_fits
  have isFree : state.free (pageBase address) < maxSpots (objSize index) := fits
  unfold fixedFree
  dsimp only
  rw [if_pos ⟨isFree, atSpot⟩]
  by_cases empty : state.free (pageBase address) + 1 = maxSpots (objSize index)
  · rw [if_pos empty]
    have isSound := sound.put.unlinkSmall member (free_setFree_self.trans empty)
    obtain ⟨last, isLast, after, sameUnits⟩ := isSound.flexFree_spec (sound.small_placed member).2.2
    exact ⟨last, isLast, after, sameUnits⟩
  · rw [if_neg empty]
    exact ⟨_, rfl, sound.put, rfl⟩

/-! ## Blocks -/

/-- A block of whole chunks. -/
def Block.IsWhole (block : Block) : Prop :=
  fixedSizes.idxOf? block.size = none ∧ isBorderline block.size

/-- What a block holds. -/
def Block.parts (block : Block) : List Holding :=
  let size := atLeastMin block.size
  match fixedSizes.idxOf? size with
  | some index => [spotHolding block.address block.allocId index]
  | none =>
      if isBorderline size then [.chunks ⟨block.address, numChunks size⟩]
      else formHoldings block.address size block.allocId

/-- A block of a fixed size is a spot, and the part of another one in its first chunk is inside. -/
structure Block.AtSpot (block : Block) : Prop where
  spot : ∀ index ∈ fixedSizes.idxOf? (atLeastMin block.size), IsSpot index block.address
  part : fixedSizes.idxOf? (atLeastMin block.size) = none →
    ¬ isBorderline (atLeastMin block.size) →
      InChunk block.address (firstPart (atLeastMin block.size))

theorem atLeastMin_le (size : Nat) : minAllocBytes ≤ atLeastMin size := by
  unfold atLeastMin
  split_ifs with small
  · exact le_rfl
  · exact Nat.not_lt.mp small

theorem minAllocBytes_le_firstPart (fits : ¬ RunsOver size) :
    minAllocBytes ≤ firstPart (atLeastMin size) := by
  have least := atLeastMin_le size
  unfold atLeastMin at least ⊢
  split_ifs at least ⊢ with small
  · decide
  · by_cases large : size > chunkSize
    · exact Nat.not_lt.mp fun less => fits ⟨large, less⟩
    · rw [firstPart, if_neg large]
      exact least

/-- `alloc` and the functions on the way of a free find the same route for a size, but for 0. -/
theorem route_eq (nonzero : size ≠ 0) :
    fixedSizes.idxOf? (atLeastMin size) = fixedSizes.idxOf? size ∧
      (isBorderline (atLeastMin size) ↔ isBorderline size) := by
  unfold atLeastMin
  split_ifs with small
  · revert nonzero small
    have all : ∀ size < minAllocBytes, size ≠ 0 →
        fixedSizes.idxOf? minAllocBytes = fixedSizes.idxOf? size ∧
          (isBorderline minAllocBytes ↔ isBorderline size) := by decide
    exact fun nonzero small => all size small nonzero
  · exact ⟨rfl, Iff.rfl⟩

theorem numChunks_whole (positive : 0 < size) (small : size + chunkSize ≤ wordValues) :
    0 < numChunks size ∧ numChunks size * chunkSize < wordValues := by
  have wide : 0 < chunkSize := AllocatorUnit.chunkSize_pos
  have product := Nat.div_mul_le_self (size + chunkSize - 1) chunkSize
  have few : (size + chunkSize - 1) / chunkSize < wordValues :=
    (Nat.div_le_self _ _).trans_lt (by omega)
  rw [numChunks, Nat.mod_eq_of_lt few]
  exact ⟨Nat.div_pos (by omega) wide, by omega⟩

/-- `AllocatorUnit::alloc`. -/
theorem Sound.unitAlloc_spec (sound : Sound config leak state holdings)
    (owner : allocId < state.units) (small : size + chunkSize ≤ wordValues)
    (allocated : unitAlloc config state allocId size choice = some (address, after)) :
    Sound config leak after (Block.parts ⟨address, size, allocId⟩ ++ holdings) ∧
      Block.AtSpot ⟨address, size, allocId⟩ ∧ after.units = state.units := by
  have positive : 0 < atLeastMin size := (by decide : 0 < minAllocBytes).trans_le (atLeastMin_le _)
  have smallMin : atLeastMin size + chunkSize ≤ wordValues := by
    have least : minAllocBytes + chunkSize ≤ wordValues := by decide
    unfold atLeastMin
    split_ifs
    · exact least
    · exact small
  unfold unitAlloc at allocated
  unfold Block.parts
  dsimp only at allocated ⊢
  cases isFixed : fixedSizes.idxOf? (atLeastMin size) with
  | some index =>
      rw [isFixed] at allocated
      have isIndex : index < fixedSizes.length := (List.idxOf?_eq_some_iff.mp isFixed).1
      obtain ⟨isSound, atSpot, sameUnits⟩ := sound.fixedAlloc_spec owner isIndex allocated
      refine ⟨isSound, ⟨fun other isOther => ?_, fun noIndex => ?_⟩, sameUnits⟩
      · obtain rfl := Option.some.inj (isFixed.symm.trans isOther)
        exact atSpot
      · rw [isFixed] at noIndex
        cases noIndex
  | none =>
      rw [isFixed] at allocated
      have noSpot (index : Nat) (isSome : index ∈ fixedSizes.idxOf? (atLeastMin size)) :
          IsSpot index address := by
        rw [isFixed] at isSome
        cases isSome
      by_cases borderline : isBorderline (atLeastMin size)
      · dsimp only at allocated ⊢
        rw [if_pos borderline] at allocated ⊢
        obtain ⟨several, fits⟩ := numChunks_whole positive smallMin
        obtain ⟨isSound, chunksHdr, mem, rfl⟩ := sound.allocChunk_spec several fits allocated
        exact ⟨isSound, ⟨noSpot, fun _ whole => absurd borderline whole⟩, rfl⟩
      · dsimp only at allocated ⊢
        rw [if_neg borderline] at allocated ⊢
        obtain ⟨isSound, inChunk, -, sameUnits⟩ :=
          sound.formAlloc_spec owner positive borderline smallMin allocated
        exact ⟨isSound, ⟨noSpot, fun _ _ => inChunk⟩, sameUnits⟩

/-- The body of the loop of `AllocatorUnit::clean_free_list`. -/
theorem Sound.unitFree_spec {block : Block} {id : Nat}
    (sound : Sound config leak state (block.parts ++ holdings)) (atSpot : block.AtSpot)
    (nonzero : block.size ≠ 0) (fits : ¬ RunsOver block.size)
    (routed : block.IsWhole ∨ id = block.allocId) :
    ∃ last, unitFree config spots state id block.info = some last ∧
      Sound config leak last holdings ∧ last.units = state.units := by
  obtain ⟨sameIndex, sameBorderline⟩ := route_eq nonzero
  unfold Block.parts at sound
  have isSpot := atSpot.spot
  unfold unitFree Block.info
  dsimp only at sound ⊢
  rw [sameIndex] at sound isSpot
  cases isFixed : fixedSizes.idxOf? block.size with
  | some index =>
      rw [isFixed] at sound
      have isOwner : id = block.allocId := by
        apply routed.resolve_left
        rintro ⟨noIndex, -⟩
        rw [isFixed] at noIndex
        cases noIndex
      rw [isOwner]
      exact sound.fixedFree_spec (isSpot index isFixed)
  | none =>
      rw [isFixed] at sound
      by_cases borderline : isBorderline block.size
      · dsimp only at sound ⊢
        rw [if_pos (sameBorderline.mpr borderline)] at sound
        have isMin : atLeastMin block.size = block.size := by
          apply if_neg
          intro less
          have isBorderline8 := sameBorderline.mpr borderline
          rw [atLeastMin, if_pos less] at isBorderline8
          revert isBorderline8
          decide
        rw [if_pos borderline, wholeFree, if_pos (Nat.mod_eq_zero_of_dvd sound.base_aligned)]
        rw [isMin] at sound
        obtain ⟨chunksHdr, mem, freed, isSound⟩ := sound.freeChunk_spec
        exact ⟨_, freed, isSound, rfl⟩
      · dsimp only at sound ⊢
        rw [if_neg (mt sameBorderline.mp borderline)] at sound
        have isOwner : id = block.allocId :=
          routed.resolve_left fun isWhole => borderline isWhole.2
        rw [if_neg borderline, isOwner]
        have inside := (atSpot.part (sameIndex.trans isFixed) (mt sameBorderline.mp borderline)).mono
          (minAllocBytes_le_firstPart fits)
        obtain ⟨last, isLast, isSound, -, sameUnits⟩ := sound.formFree_spec inside
        exact ⟨last, isLast, isSound, sameUnits⟩

end Pmgd.AllocationRoutes
