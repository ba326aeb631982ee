import Mathlib.Data.List.Perm.Subperm
import Pmgd.RouteAgreement

/-!
# Frees of a transaction

A transaction lists its frees by instances, whole chunks under any of them, and the commit returns
all of it.  So what the blocks hold is what the chunks have handed out, in every run.
-/

namespace Pmgd.AllocationRoutes

open ByteMemory LabelledRun
open AllocatorUnit (chunkSize smallChunkSize wordValues headerSize minAllocBytes poolHeaderSize
  fixedSizes threshold isBorderline allocOffset maxSpots)
open FixedAllocator (Extent)
open VariableAllocator (numChunks firstPart)
open LargeBlock (used chunkBase)

variable {config : Config} {leak : Nat → SubAllocator → Nat} {state after : State}
  {holdings : List Holding} {base allocId address size index page units : Nat} {choice : Choice}
  {block : Block} {spots : Nat → FreeSpot}

/-! ## Addresses -/

theorem Config.pmBase_pos (config : Config) : 0 < config.pmBase :=
  Nat.sub_pos_of_lt config.room

theorem Config.pmBase_add (config : Config) :
    config.pmBase + chunkSize = config.chunks.start :=
  Nat.sub_add_cancel config.room.le

theorem Sound.base_region (sound : Sound config leak state holdings)
    (member : base ∈ state.chunkBases config) :
    config.chunks.start ≤ base ∧ base + chunkSize ≤ config.chunks.maxAddr := by
  have isExtent : (⟨base, 1⟩ : Extent) ∈ state.extents config holdings := mem_extents member
  have inside := sound.chunks.inside isExtent
  dsimp only at inside
  rw [Nat.one_mul, config.chunks_size] at inside
  exact ⟨(sound.chunks.aligned isExtent).1, inside.1.trans inside.2⟩

/-- A small chunk is in the region. -/
theorem Sound.page_region (sound : Sound config leak state holdings)
    (member : ⟨page, allocId, .fixSize index⟩ ∈ state.listed) :
    config.pmBase ≤ page ∧ page + smallChunkSize ≤ config.chunks.maxAddr := by
  obtain ⟨-, aligned, pool, isPool, -, isBase⟩ := sound.small_placed member
  have inPool : config.pmBase ≤ pool.base ∧
      pool.base + chunkSize ≤ config.chunks.maxAddr := by
    rcases (sound.kept.pools pool isPool).place with high | ⟨isFirst, -⟩
    · obtain ⟨low, top⟩ := sound.base_region (pool_mem isPool high)
      exact ⟨(Nat.sub_le _ _).trans low, top⟩
    · rw [isFirst, config.pmBase_add]
      exact ⟨le_rfl, config.inRegion⟩
  have inside : page + smallChunkSize ≤ chunkBase page + chunkSize := by
    obtain ⟨place, rfl⟩ := aligned
    have low := lt_chunkBase (smallChunkSize * place)
    obtain ⟨chunk, isChunk⟩ := (sound.kept.pools pool isPool).aligned
    rw [← isBase, isChunk] at low ⊢
    have isProduct : chunkSize * chunk + chunkSize = smallChunkSize * (512 * chunk + 512) := by
      rw [Nat.mul_add, ← Nat.mul_assoc]
      rfl
    rw [isProduct] at low ⊢
    rw [← Nat.mul_succ]
    exact Nat.mul_le_mul_left _ (Nat.lt_of_mul_lt_mul_left low)
  rw [isBase] at inPool
  exact ⟨inPool.1.trans (chunkBase_le page), inside.trans inPool.2⟩

/-- A block passes the assertions of `Allocator::free`. -/
theorem Sound.block_region (sound : Sound config leak state (block.parts ++ holdings))
    (atSpot : block.AtSpot) :
    block.address ≠ 0 ∧ config.pmBase ≤ block.address ∧
      block.address < config.chunks.maxAddr := by
  have inRegion : config.pmBase ≤ block.address ∧ block.address < config.chunks.maxAddr := by
    unfold Block.parts at sound
    dsimp only at sound
    cases isFixed : fixedSizes.idxOf? (atLeastMin block.size) with
    | some index =>
        rw [isFixed] at sound
        obtain ⟨low, high, -⟩ := atSpot.spot index isFixed
        obtain ⟨bottom, top⟩ := sound.page_region sound.part_fits.1
        exact ⟨bottom.trans ((Nat.le_add_right _ _).trans low), high.trans_le top⟩
    | none =>
        rw [isFixed] at sound
        dsimp only at sound
        by_cases borderline : isBorderline (atLeastMin block.size)
        · rw [if_pos borderline] at sound
          have holds := sound.chunks.perm extents_chunks
          have inside := holds.inside List.mem_cons_self
          have positive := holds.1 _ List.mem_cons_self
          have wide : chunkSize ≤ numChunks (atLeastMin block.size) * config.chunks.size := by
            rw [config.chunks_size]
            exact Nat.le_mul_of_pos_left _ positive
          have less : 0 < chunkSize := AllocatorUnit.chunkSize_pos
          have low := (holds.aligned List.mem_cons_self).1
          dsimp only at inside low
          exact ⟨(Nat.sub_le _ _).trans low, by omega⟩
        · rw [if_neg borderline] at sound
          obtain ⟨low, top⟩ := sound.base_region (sound.form_mem sound.part_fits.1 rfl)
          have inside := lt_chunkBase block.address
          have below := chunkBase_le block.address
          rw [formChunk] at low top
          exact ⟨(Nat.sub_le _ _).trans (low.trans below), inside.trans_le top⟩
  exact ⟨(config.pmBase_pos.trans_le inRegion.1).ne', inRegion⟩

/-- `get_alloc_id`. -/
theorem Sound.getAllocId_spec (sound : Sound config leak state (block.parts ++ holdings))
    (nonzero : block.size ≠ 0) :
    block.IsWhole ∧ getAllocId state block.address block.size = none ∨
      getAllocId state block.address block.size = some block.allocId ∧
        block.allocId < state.units := by
  obtain ⟨sameIndex, sameBorderline⟩ := route_eq nonzero
  unfold Block.parts at sound
  unfold getAllocId Block.IsWhole
  dsimp only at sound
  rw [sameIndex] at sound
  cases isFixed : fixedSizes.idxOf? block.size with
  | some index =>
      rw [isFixed] at sound
      have isSound := sound.kept.listed _ sound.part_fits.1
      exact Or.inr ⟨congrArg some isSound.myId, isSound.owner⟩
  | none =>
      rw [isFixed] at sound
      dsimp only at sound ⊢
      by_cases borderline : isBorderline block.size
      · exact Or.inl ⟨⟨rfl, borderline⟩, if_pos borderline⟩
      · rw [if_neg (mt sameBorderline.mp borderline)] at sound
        have isSound := sound.kept.listed _ sound.part_fits.1
        rw [if_neg borderline]
        exact Or.inr ⟨congrArg some isSound.myId, isSound.owner⟩

/-! ## Lists of frees -/

/-- A list of blocks instead of what the callback knows of them. -/
def infos (list : FreeList Block) : FreeList FreeInfo :=
  list.map fun entry => (entry.1, entry.2.map Block.info)

def blocksOf (list : FreeList Block) : List Block :=
  list.flatMap Prod.snd

/-- A block that an instance can free. -/
structure Block.Frees (block : Block) (id : Nat) : Prop where
  nonzero : block.size ≠ 0
  atSpot : block.AtSpot
  fits : ¬ RunsOver block.size
  routed : block.IsWhole ∨ id = block.allocId

/-- Every block is listed under its instance, but for whole chunks. -/
def Routed (units : Nat) (list : FreeList Block) : Prop :=
  ∀ entry ∈ list, entry.1 < units ∧ ∀ block ∈ entry.2, block.Frees entry.1

theorem infos_pushBack {id : Nat} (list : FreeList Block) :
    infos (pushBack id block list) = pushBack id block.info (infos list) := by
  induction list with
  | nil => rfl
  | cons entry list ih =>
      obtain ⟨other, blocks⟩ := entry
      simp only [infos, List.map_cons, pushBack] at ih ⊢
      split_ifs with less same
      · rfl
      · simp only [List.map_cons, List.map_append, List.map_nil]
      · rw [List.map_cons, ih]

theorem blocksOf_pushBack {id : Nat} (list : FreeList Block) :
    (blocksOf (pushBack id block list)).Perm (block :: blocksOf list) := by
  induction list with
  | nil => exact List.Perm.refl _
  | cons entry list ih =>
      obtain ⟨other, blocks⟩ := entry
      rw [pushBack]
      split_ifs with less same
      · exact List.Perm.refl _
      · rw [blocksOf, List.flatMap_cons, List.append_assoc, blocksOf, List.flatMap_cons]
        exact List.perm_middle
      · rw [blocksOf, List.flatMap_cons, blocksOf, List.flatMap_cons]
        exact (ih.append_left _).trans List.perm_middle

theorem Routed.push {id : Nat} {list : FreeList Block} (routed : Routed units list)
    (less : id < units) (frees : block.Frees id) : Routed units (pushBack id block list) := by
  induction list with
  | nil =>
      intro entry member
      rw [List.mem_singleton.mp member]
      refine ⟨less, fun other isOther => ?_⟩
      rw [List.mem_singleton.mp isOther]
      exact frees
  | cons entry list ih =>
      obtain ⟨other, blocks⟩ := entry
      obtain ⟨first, rest⟩ := List.forall_mem_cons.mp routed
      rw [pushBack]
      split_ifs with before same
      · apply List.forall_mem_cons.mpr ⟨⟨less, fun other isOther => ?_⟩, routed⟩
        rw [List.mem_singleton.mp isOther]
        exact frees
      · refine List.forall_mem_cons.mpr ⟨⟨first.1, fun other isOther => ?_⟩, rest⟩
        rcases List.mem_append.mp isOther with isOld | isNew
        · exact first.2 other isOld
        · rw [List.mem_singleton.mp isNew]
          exact same ▸ frees
      · exact List.forall_mem_cons.mpr ⟨first, ih rest⟩

/-- `add` lists whole chunks under some instance. -/
theorem add_cases {Info : Type} {info : Info} {list : FreeList Info} (positive : 0 < units)
    (less : ∀ entry ∈ list, entry.1 < units) (found : Option Nat) (known : ∀ id ∈ found, id < units) :
    ∃ id < units, add found info list = pushBack id info list ∧ ∀ other ∈ found, other = id := by
  cases found with
  | some id => exact ⟨id, known id rfl, rfl, fun other isOther => (Option.some.inj isOther).symm⟩
  | none =>
      cases list with
      | nil => exact ⟨0, positive, rfl, fun other isOther => absurd isOther (Option.not_mem_none _)⟩
      | cons entry list =>
          exact ⟨entry.1, less entry List.mem_cons_self, rfl,
            fun other isOther => absurd isOther (Option.not_mem_none _)⟩

/-- `Allocator::free` lists the block, unless its size is 0. -/
theorem Sound.delayedFree_spec (sound : Sound config leak state (block.parts ++ holdings))
    (atSpot : block.AtSpot) (fits : ¬ RunsOver block.size) (positive : 0 < state.units)
    {list : FreeList Block} (routed : Routed state.units list) :
    ∃ next, delayedFree config state block.info (infos list) = some (infos next) ∧
      Routed state.units next ∧
      (blocksOf next).Perm ([block].filter (fun block => block.size ≠ 0) ++ blocksOf list) := by
  obtain ⟨nonNull, inRegion⟩ := sound.block_region atSpot
  unfold delayedFree
  by_cases isZero : block.size = 0
  · have early : block.info.addr = 0 ∨ block.info.size = 0 := Or.inr isZero
    rw [if_pos early, List.filter_cons_of_neg (by simpa using isZero)]
    exact ⟨list, rfl, routed, List.Perm.refl _⟩
  · have goesOn : ¬ (block.info.addr = 0 ∨ block.info.size = 0) := not_or.mpr ⟨nonNull, isZero⟩
    rw [if_neg goesOn, List.filter_cons_of_pos (by simpa using isZero)]
    have known := sound.getAllocId_spec isZero
    obtain ⟨id, less, isAdd, isId⟩ := @add_cases _ _ block.info (infos list) positive
      (fun entry member => by
        obtain ⟨old, isOld, rfl⟩ := List.mem_map.mp member
        exact (routed old isOld).1)
      (getAllocId state block.address block.size) (fun id isSome => by
        rcases known with ⟨-, isNone⟩ | ⟨isOwner, less⟩
        · rw [isNone] at isSome
          cases isSome
        · rw [isOwner] at isSome
          exact Option.some.inj isSome ▸ less)
    have isRight : block.IsWhole ∨ id = block.allocId := by
      rcases known with ⟨isWhole, -⟩ | ⟨isOwner, -⟩
      · exact Or.inl isWhole
      · exact Or.inr (isId _ isOwner).symm
    refine ⟨pushBack id block list, ?_, routed.push less ⟨isZero, atSpot, fits, isRight⟩,
      blocksOf_pushBack list⟩
    have passes : config.pmBase ≤ block.info.addr ∧ block.info.addr < config.chunks.maxAddr :=
      inRegion
    rw [if_pos passes, infos_pushBack]
    exact congrArg some isAdd

/-- The frees of a transaction. -/
theorem delayedFrees_spec (positive : 0 < state.units) {freed : List Block}
    (live : ∀ block ∈ freed, block.AtSpot ∧ ¬ RunsOver block.size ∧
      ∃ leak rest, Sound config leak state (block.parts ++ rest))
    {list : FreeList Block} (routed : Routed state.units list) :
    ∃ next, delayedFrees config state (infos list) (freed.map Block.info) = some (infos next) ∧
      Routed state.units next ∧
      (blocksOf next).Perm (freed.filter (fun block => block.size ≠ 0) ++ blocksOf list) := by
  induction freed generalizing list with
  | nil => exact ⟨list, rfl, routed, List.Perm.refl _⟩
  | cons block freed ih =>
      obtain ⟨⟨atSpot, fits, leak, rest, sound⟩, others⟩ := List.forall_mem_cons.mp live
      obtain ⟨middle, isMiddle, routedMiddle, first⟩ :=
        sound.delayedFree_spec atSpot fits positive routed
      obtain ⟨next, isNext, routedNext, blocks⟩ := ih others routedMiddle
      refine ⟨next, ?_, routedNext, blocks.trans ?_⟩
      · rw [List.map_cons, delayedFrees, isMiddle]
        exact isNext
      · apply (first.append_left _).trans
        rw [← List.append_assoc]
        apply List.Perm.append_right
        apply List.perm_append_comm.trans
        rw [← List.filter_append, List.singleton_append]

/-! ## Commits -/

/-- `AllocatorUnit::clean_free_list`. -/
theorem Sound.unitCleanFreeList_spec {id : Nat} {blocks : List Block}
    (sound : Sound config leak state (blocks.flatMap Block.parts ++ holdings))
    (frees : ∀ block ∈ blocks, block.Frees id) :
    ∃ last, unitCleanFreeList config spots id state (blocks.map Block.info) = some last ∧
      Sound config leak last holdings ∧ last.units = state.units := by
  induction blocks generalizing state with
  | nil => exact ⟨state, rfl, sound, rfl⟩
  | cons block blocks ih =>
      obtain ⟨⟨nonzero, atSpot, fits, routed⟩, others⟩ := List.forall_mem_cons.mp frees
      rw [List.flatMap_cons, List.append_assoc] at sound
      obtain ⟨middle, isMiddle, isSound, units⟩ := sound.unitFree_spec atSpot nonzero fits routed
      obtain ⟨last, isLast, after, sameUnits⟩ := ih isSound others
      refine ⟨last, ?_, after, sameUnits.trans units⟩
      rw [List.map_cons, unitCleanFreeList, isMiddle]
      exact isLast

theorem Sound.cleanLoop_spec {list : FreeList Block}
    (sound : Sound config leak state ((blocksOf list).flatMap Block.parts ++ holdings))
    (routed : Routed units list) :
    ∃ last, cleanLoop config spots state (infos list) = some last ∧
      Sound config leak last holdings ∧ last.units = state.units := by
  induction list generalizing state with
  | nil => exact ⟨state, rfl, sound, rfl⟩
  | cons entry list ih =>
      obtain ⟨first, others⟩ := List.forall_mem_cons.mp routed
      rw [blocksOf, List.flatMap_cons, List.flatMap_append, List.append_assoc] at sound
      obtain ⟨middle, isMiddle, isSound, sameUnits⟩ := sound.unitCleanFreeList_spec first.2
      obtain ⟨last, isLast, after, units⟩ := ih isSound others
      refine ⟨last, ?_, after, units.trans sameUnits⟩
      rw [infos, List.map_cons, cleanLoop, isMiddle]
      exact isLast

/-- A transaction that frees live blocks commits. -/
theorem Sound.commitFrees_spec {freed : List Block}
    (sound : Sound config leak state
      ((freed.filter fun block => block.size ≠ 0).flatMap Block.parts ++ holdings))
    (positive : 0 < state.units)
    (live : ∀ block ∈ freed, block.AtSpot ∧ ¬ RunsOver block.size ∧
      ∃ leak rest, Sound config leak state (block.parts ++ rest)) :
    ∃ last, commitFrees config spots state (freed.map Block.info) = some last ∧
      Sound config leak last holdings ∧ last.units = state.units := by
  have nothing : Routed state.units [] := fun entry member => absurd member List.not_mem_nil
  obtain ⟨list, isList, routed, blocks⟩ := delayedFrees_spec positive live nothing
  have isEmpty : blocksOf [] = [] := rfl
  rw [isEmpty, List.append_nil] at blocks
  have isSound := sound.perm ((blocks.symm.flatMap_right Block.parts).append_right _)
  obtain ⟨last, isLast, after, sameUnits⟩ := isSound.cleanLoop_spec routed
  refine ⟨last, ?_, after, sameUnits⟩
  have isStart : infos [] = [] := rfl
  rw [isStart] at isList
  rw [commitFrees, isList, Option.bind_some, cleanFreeList, if_pos]
  · exact isLast
  · intro entry member
    obtain ⟨old, isOld, rfl⟩ := List.mem_map.mp member
    exact (routed old isOld).1

/-! ## Runs -/

/-- What the blocks hold is handed out. -/
structure Consistent (config : Config) (session : Session) : Prop where
  sound : ∃ leak, Sound config leak session.state (session.blocks.flatMap Block.parts)
  atSpot : ∀ block ∈ session.blocks, block.AtSpot
  units : 0 < session.state.units

variable {session next : Session}

theorem Config.pmBase_aligned (config : Config) : chunkSize ∣ config.pmBase := by
  have aligned : config.chunks.size ∣ config.chunks.start := config.chunks.aligned
  rw [config.chunks_size] at aligned
  exact Nat.dvd_sub aligned (dvd_refl chunkSize)

theorem Created.sound (created : Created config session) :
    Sound config (fun _ _ => 0) session.state [] := by
  have low : ¬ config.chunks.start ≤ config.pmBase := by
    have isSum := config.pmBase_add
    have wide : 0 < chunkSize := AllocatorUnit.chunkSize_pos
    omega
  have noExtents : session.state.extents config [] = [] := by
    rw [State.extents, State.chunkBases, created.pools, created.listed]
    simp [low]
  have noneListed (chunk : ListedChunk) : chunk ∉ session.state.listed := by
    rw [created.listed]
    exact List.not_mem_nil
  have noneHeld : session.state.held [] = [] := by
    rw [State.held, created.pools]
    rfl
  refine ⟨?_, fun extent member => absurd member List.not_mem_nil, ?_⟩
  · rw [noExtents, created.chunksHdr]
    exact FlexFixedAllocator.manages_new config.chunks session.state.mem
  · rw [noneHeld]
    refine ⟨fun pool member => ?_, ?_, fun chunk member => absurd member (noneListed chunk),
      fun chunk amount member => absurd member List.not_mem_nil, fun allocId sub => ?_⟩
    · rw [created.pools] at member
      rw [List.mem_singleton.mp member, created.units]
      refine ⟨Nat.one_pos, config.pmBase_aligned, Or.inr ⟨rfl, rfl⟩, fun hdr isHdr => ?_⟩
      cases isHdr
    · rw [created.listed]
      exact List.nodup_nil
    · rw [State.inUse, created.listed]
      rfl

theorem Created.consistent (created : Created config session) : Consistent config session where
  sound := by
    rw [created.blocks]
    exact ⟨_, created.sound⟩
  atSpot block member := by
    rw [created.blocks] at member
    exact absurd member List.not_mem_nil
  units := by
    rw [created.units]
    exact Nat.one_pos

/-- A request. -/
theorem Consistent.alloc {request : Nat} (consistent : Consistent config session)
    (small : request + chunkSize ≤ wordValues)
    (allocated : alloc config session.state allocId request choice = some (address, after)) :
    Consistent config ⟨after, ⟨address, request, allocId⟩ :: session.blocks⟩ ∧
      after.units = session.state.units := by
  obtain ⟨⟨leak, sound⟩, atSpot, positive⟩ := consistent
  obtain ⟨owner, isAlloc⟩ := Option.ite_none_right_eq_some.mp allocated
  obtain ⟨isSound, isSpot, sameUnits⟩ := sound.unitAlloc_spec owner small isAlloc
  refine ⟨⟨⟨leak, ?_⟩, List.forall_mem_cons.mpr ⟨isSpot, atSpot⟩, sameUnits ▸ positive⟩, sameUnits⟩
  rw [List.flatMap_cons]
  exact isSound

/-- There may be more instances. -/
theorem Sound.moreUnits (sound : Sound config leak state holdings) (more : state.units ≤ units) :
    Sound config leak { state with units := units } holdings :=
  ⟨sound.chunks, sound.small, sound.kept.moreUnits more⟩

/-- A new instance. -/
theorem Consistent.initAllocator {hdr : Nat} (consistent : Consistent config session)
    (added : initAllocator config session.state choice = some (hdr, after)) :
    Consistent config ⟨after, ⟨hdr, unitHeaderSize, 0⟩ :: session.blocks⟩ := by
  obtain ⟨⟨address, middle⟩, isAlloc, mapped⟩ := Option.bind_eq_some_iff.mp added
  obtain ⟨⟨base, last⟩, isChunk, isAfter⟩ := Option.map_eq_some_iff.mp mapped
  obtain ⟨rfl, rfl⟩ := Prod.mk.inj isAfter
  obtain ⟨⟨⟨leak, sound⟩, atSpot, positive⟩, -⟩ := consistent.alloc (by decide) isAlloc
  obtain ⟨held, chunksHdr, mem, rfl⟩ := sound.allocChunk_spec Nat.one_pos (by decide) isChunk
  have more := held.moreUnits (Nat.le_succ middle.units)
  let pool : Pool := ⟨base, middle.units, none⟩
  have isSound := @Sound.addPool _ _ _ _ pool more (Nat.lt_succ_self _) fun hdr isHdr => by
    cases isHdr
  exact ⟨⟨leak, isSound⟩, atSpot, Nat.succ_pos _⟩

/-- The part of a block of size 0 leaks. -/
theorem Sound.drop {chunk : ListedChunk} {amount : Nat}
    (sound : Sound config leak state (.part chunk amount :: holdings)) :
    ∃ leak, Sound config leak state holdings := by
  have kept := sound.kept.perm held_cons
  refine ⟨fun allocId sub => leak allocId sub +
    if chunk.allocId = allocId ∧ chunk.sub = sub then amount else 0, sound.chunks,
    fun extent member => sound.small extent (List.mem_cons_of_mem _ member), kept.pools, kept.bases,
    fun other member => ?_, fun other part member => ?_, fun allocId sub => ?_⟩
  · obtain ⟨owner, placed, myId, space⟩ := kept.listed other member
    rw [amountAt_part] at space
    exact ⟨owner, placed, myId, by omega⟩
  · exact kept.parts other part (List.mem_cons_of_mem _ member)
  · rw [kept.inUse allocId sub, amountOf_part, Nat.add_assoc]

theorem parts_of_zero (isZero : block.size = 0) :
    block.parts = [.part (formChunk block.address block.allocId) minAllocBytes] := by
  have isMin : atLeastMin block.size = minAllocBytes := if_pos (isZero ▸ (by decide))
  have noIndex : fixedSizes.idxOf? minAllocBytes = none := by decide
  have notBorderline : ¬ isBorderline minAllocBytes := by decide
  unfold Block.parts
  dsimp only
  rw [isMin, noIndex]
  dsimp only
  rw [if_neg notBorderline]
  rfl

theorem Sound.dropZeros {zeros : List Block} (isZero : ∀ block ∈ zeros, block.size = 0)
    (sound : Sound config leak state (zeros.flatMap Block.parts ++ holdings)) :
    ∃ leak, Sound config leak state holdings := by
  induction zeros generalizing leak with
  | nil => exact ⟨leak, sound⟩
  | cons block zeros ih =>
      obtain ⟨first, others⟩ := List.forall_mem_cons.mp isZero
      rw [List.flatMap_cons, parts_of_zero first, List.append_assoc] at sound
      obtain ⟨leak, dropped⟩ := sound.drop
      exact ih others dropped

/-- The frees of a transaction. -/
theorem Consistent.commitFrees {freed : List Block} (consistent : Consistent config session)
    (live : freed.Subperm session.blocks) (fits : ∀ block ∈ freed, ¬ RunsOver block.size) :
    ∃ last, commitFrees config spots session.state (freed.map Block.info) = some last ∧
      Consistent config ⟨last, session.blocks.diff freed⟩ := by
  obtain ⟨⟨leak, sound⟩, atSpot, positive⟩ := consistent
  have split : (freed ++ session.blocks.diff freed).Perm session.blocks :=
    List.subperm_append_diff_self_of_count_le (List.subperm_ext_iff.mp live)
  have isSound : Sound config leak session.state
      (freed.flatMap Block.parts ++ (session.blocks.diff freed).flatMap Block.parts) := by
    rw [← List.flatMap_append]
    exact sound.perm (split.symm.flatMap_right Block.parts)
  have each (block : Block) (member : block ∈ freed) :
      block.AtSpot ∧ ¬ RunsOver block.size ∧
        ∃ leak rest, Sound config leak session.state (block.parts ++ rest) := by
    have isLive := live.subset member
    have first := sound.perm ((List.perm_cons_erase isLive).flatMap_right Block.parts)
    rw [List.flatMap_cons] at first
    exact ⟨atSpot block isLive, fits block member, leak, _, first⟩
  have sorted : ((freed.filter fun block => block.size = 0) ++
      freed.filter fun block => block.size ≠ 0).Perm freed := by
    simpa only [decide_not] using
      List.filter_append_perm (fun block => decide (block.size = 0)) freed
  have withZeros := isSound.perm ((sorted.symm.flatMap_right Block.parts).append_right _)
  rw [List.flatMap_append, List.append_assoc] at withZeros
  obtain ⟨leak, dropped⟩ := withZeros.dropZeros fun block member =>
    by simpa using (List.mem_filter.mp member).2
  obtain ⟨last, isLast, after, sameUnits⟩ := dropped.commitFrees_spec positive each
  refine ⟨last, isLast, ⟨leak, after⟩, fun block member => ?_, sameUnits ▸ positive⟩
  exact atSpot block (List.diff_subset _ _ member)

end Pmgd.AllocationRoutes
