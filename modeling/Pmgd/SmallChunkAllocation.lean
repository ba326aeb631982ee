import Pmgd.AllocatorConsistency

/-!
# Allocation of small chunks

A small chunk comes from a pool, in an inner transaction that also puts it in the list of its
size.  If all pools are full, this transaction makes a new pool: it takes a block for the header
of the pool from a free-form chunk, and a chunk for the pool.
-/

namespace Pmgd.AllocatorUnit

open UndoLog ThrowingState

variable {world before middle after : World} {use more most : InUse} {cell : Cell}

/-! ## The words of the inner transaction -/

/-- The words of a small chunk that an allocation from it logs. -/
def CountCell (block : Nat) : Cell → Prop
  | .freeSpots other | .nextIndex other | .occupants other _ => other = block
  | _ => False

/-- The words that the constructor of a small chunk stores. -/
def BlockCell (block : Nat) : Cell → Prop
  | .nextFixed other => other = block
  | cell => CountCell block cell

def InUse.all : InUse where
  forms _ := True
  chunks _ := True
  pools _ := True
  blocks _ := True

theorem InUse.grows_all : use.Grows .all :=
  ⟨fun _ _ => .inr trivial, fun _ _ => trivial, fun _ _ => trivial, fun _ _ => trivial⟩

/-- The words of free-form chunks that come into use. -/
def FormCell (use more : InUse) (cell : Cell) : Prop :=
  ∃ chunk, FreeFormCell chunk cell ∧ ¬ use.chunks chunk ∧ more.chunks chunk

/-- What is stored without a log call: counts of free space, and pools and small chunks that come
into use. -/
def StoredCell (use more : InUse) (cell : Cell) : Prop :=
  cell.IsSpace ∨ (∃ pool, PoolCell pool cell ∧ ¬ use.chunks pool ∧ more.chunks pool) ∨
    ∃ block, BlockCell block cell ∧ ¬ use.blocks block ∧ more.blocks block

/-- What an inner transaction that takes a free-form chunk touches. -/
def TouchedCell (world : World) (use more : InUse) (cell : Cell) : Prop :=
  world.outerLocked = false ∧ world.locked = false ∧
    (RegionCell .chunks cell ∨ ListCell use.forms cell ∨ FormCell use more cell)

/-- A chunk can be taken. -/
def ChunkAvailable (mem : Cell → Nat) : Prop :=
  mem (.freePtr .chunks) ≠ 0 ∨ mem (.tailPtr .chunks) + chunkSize ≤ mem (.maxAddr .chunks)

/-- The words that taking the header of a pool logs, in a chunk of the lists. -/
def HeaderCell (mem : Cell → Nat) (dram : Dram) (cell : Cell) : Prop :=
  ∃ chunk, pickFreeForm mem dram poolHeaderSize = some chunk ∧
    cell ∈ carvedCells mem chunk poolHeaderSize

/-- The words of spots in a chunk that comes into use. -/
def NewSpotCell (use more : InUse) (cell : Cell) : Prop :=
  ∃ chunk, SpotCell chunk cell ∧ ¬ use.chunks chunk ∧ more.chunks chunk

/-- The words that making a pool logs. -/
def NewPoolCell (world : World) (use more : InUse) (cell : Cell) : Prop :=
  world.outerLocked = false ∧ ChunkAvailable world.mem ∧
    (RegionCell .chunks cell ∨ HeaderCell world.mem world.dram cell ∨ NewSpotCell use more cell ∨
      ∃ pool, cell = .nextPoolHdr pool ∧ more.pools pool)

theorem FormCell.mono (isForm : FormCell use more cell) (grows : more.Grows most) :
    FormCell use most cell := by
  obtain ⟨chunk, isCell, unused, isUsed⟩ := isForm
  exact ⟨chunk, isCell, unused, grows.chunks chunk isUsed⟩

theorem TouchedCell.mono (touched : TouchedCell world use more cell) (grows : more.Grows most) :
    TouchedCell world use most cell :=
  ⟨touched.1, touched.2.1, touched.2.2.imp_right (Or.imp_right (FormCell.mono · grows))⟩

theorem StoredCell.mono (stored : StoredCell use more cell) (grows : more.Grows most) :
    StoredCell use most cell := by
  rcases stored with isSpace | ⟨pool, isCell, unused, isUsed⟩ | ⟨block, isCell, unused, isUsed⟩
  · exact .inl isSpace
  · exact .inr (.inl ⟨pool, isCell, unused, grows.chunks pool isUsed⟩)
  · exact .inr (.inr ⟨block, isCell, unused, grows.blocks block isUsed⟩)

theorem NewSpotCell.mono (isSpot : NewSpotCell use more cell) (grows : more.Grows most) :
    NewSpotCell use most cell := by
  obtain ⟨chunk, isCell, unused, isUsed⟩ := isSpot
  exact ⟨chunk, isCell, unused, grows.chunks chunk isUsed⟩

/-- What an exception leaves of the body of the inner transaction: it was taking a free-form
chunk, or it had taken one or needed none. -/
def Stops (use : InUse) (before after : World) : Prop :=
  Progress (fun _ => False) (fun _ => True) (FormCell use .all) before after ∨
    Progress (TouchedCell before use .all) (fun _ => True) (StoredCell use .all) before after

theorem Commits.of_dram {touched : Cell → Prop} {dram : Dram}
    (commits : Commits touched { world with dram := dram } after) : Commits touched world after :=
  ⟨commits.images, commits.same, commits.permanent, commits.outerLocked⟩

theorem Progress.of_dram {touched logged unlogged : Cell → Prop} {dram : Dram}
    (progress : Progress touched logged unlogged { world with dram := dram } after) :
    Progress touched logged unlogged world after := by
  obtain ⟨middle, commits, extended⟩ := progress
  exact ⟨middle, commits.of_dram, extended⟩

theorem Progress.outerLocked {touched logged unlogged : Cell → Prop}
    (progress : Progress touched logged unlogged before after) :
    after.outerLocked = before.outerLocked := by
  obtain ⟨middle, commits, extended⟩ := progress
  exact extended.outerLocked.trans commits.outerLocked

theorem Stops.of_dram {dram : Dram} (stops : Stops use { world with dram := dram } after) :
    Stops use world after :=
  stops.imp Progress.of_dram Progress.of_dram

/-! ## The header of a pool -/

/-- A block for the header of a pool has been taken. -/
structure HeaderTaken (use more : InUse) (before after : World) : Prop where
  grows : use.Grows more
  samePools : more.pools = use.pools
  sameBlocks : more.blocks = use.blocks
  consistent : Consistent more after.mem after.dram
  progress : Progress (TouchedCell before use more)
    (fun cell => HeaderCell before.mem before.dram cell ∨ NewSpotCell use more cell)
    Cell.IsSpace before after
  available : ChunkAvailable after.mem → ChunkAvailable before.mem

theorem nextObject_ne_zero {mem : Cell → Nat} {used : Nat → Prop} (ok : RegionOk .chunks mem used) :
    nextObject .chunks mem ≠ 0 := by
  unfold nextObject
  split_ifs with isFree
  · exact isFree
  · exact ok.tail.2.ne'

theorem SmallCell.not_region (isSmall : SmallCell cell) : ¬ RegionCell .chunks cell := by
  intro isRegion
  cases cell
  case tailPtr | freePtr | numAllocated | link => obtain rfl := isRegion; exact isSmall
  all_goals exact isRegion

theorem SmallCell.not_list {forms : Nat → Prop} (isSmall : SmallCell cell) :
    ¬ ListCell forms cell := by
  intro isList
  cases cell
  case startFreeForm | nextFreeForm => exact isSmall
  all_goals exact isList

theorem SmallCell.not_form {chunk : Nat} (isSmall : SmallCell cell) : ¬ FreeFormCell chunk cell := by
  intro isForm
  cases cell
  case nextFreeForm | freeSpace | freeList | maxContSpace | spotNext | spotSize => exact isSmall
  all_goals exact isForm

theorem SpotCell.isForm {chunk : Nat} (isSpot : SpotCell chunk cell) : FreeFormCell chunk cell := by
  cases cell
  case nextFreeForm | freeSpace => exact isSpot.elim
  all_goals exact isSpot

theorem SmallCell.not_space (isSmall : SmallCell cell) : ¬ cell.IsSpace := by
  intro isSpace
  cases cell
  case freeSpace => exact isSmall
  all_goals exact isSpace

theorem RegionCell.not_space {region : Region} (isRegion : RegionCell region cell) :
    ¬ cell.IsSpace := by
  intro isSpace
  cases cell
  case freeSpace => exact isRegion
  all_goals exact isSpace

theorem Takes.available {mem mem' : Cell → Nat} {p : Nat} (taken : Takes .chunks mem p mem') :
    ChunkAvailable mem := by
  cases taken with
  | listed isFree nonzero => exact .inl (isFree ▸ nonzero)
  | grown isEmpty isTail fits => exact .inr (isTail ▸ fits)

namespace Carves

variable {size chunk : Nat}

theorem same (carves : Carves use.forms size chunk before after) (notSpot : ¬ SpotCell chunk cell)
    (notSpace : ¬ cell.IsSpace) : after.mem cell = before.mem cell :=
  carves.extended.same (fun member => notSpot (spotCell_of_mem_carvedCells member)) notSpace

theorem sameRegion (carves : Carves use.forms size chunk before after)
    (isRegion : RegionCell .chunks cell) : after.mem cell = before.mem cell :=
  carves.same (fun isSpot => isRegion.not_form isSpot.isForm) isRegion.not_space

theorem consistent (carves : Carves use.forms size chunk before after)
    (isConsistent : Consistent use before.mem before.dram)
    (small : after.dram.small = before.dram.small) : Consistent use after.mem after.dram :=
  isConsistent.withChunks carves.ok
    (isConsistent.chunks.congr (fun _ => carves.sameRegion) (carves.same id id))
    isConsistent.aligned (fun _ => id) small fun _ isSmall =>
      carves.same (fun isSpot => isSmall.not_form isSpot.isForm) isSmall.not_space

theorem headerTaken (carves : Carves use.forms poolHeaderSize chunk before after)
    (isConsistent : Consistent use before.mem before.dram)
    (small : after.dram.small = before.dram.small) : HeaderTaken use use before after := by
  refine ⟨.refl, rfl, rfl, carves.consistent isConsistent small, ?_, ?_⟩
  · refine Progress.of_extends (carves.extended.mono (fun cell member => .inl ?_) fun _ => id)
    exact ⟨chunk, carves.picked, member⟩
  · intro available
    have unchanged : after.mem (.maxAddr .chunks) = before.mem (.maxAddr .chunks) :=
      carves.same id id
    have region {cell : Cell} (isRegion : RegionCell .chunks cell) := carves.sameRegion isRegion
    rw [ChunkAvailable, @region (.freePtr .chunks) rfl, @region (.tailPtr .chunks) rfl,
      unchanged] at available
    exact available

end Carves

/-- A free-form chunk comes into use. -/
def InUse.withForm (use : InUse) (p : Nat) : InUse :=
  { use with
    forms := fun chunk => use.forms chunk ∨ chunk = p
    chunks := fun chunk => use.chunks chunk ∨ chunk = p }

theorem InUse.grows_withForm (use : InUse) (p : Nat) : use.Grows (use.withForm p) :=
  ⟨fun _ => Or.imp_right .inr, fun _ => .inl, fun _ => id, fun _ => id⟩

namespace CarvesNew

theorem same (carves : CarvesNew use.forms before middle after)
    (notNew : ¬ NewForm use.forms before.mem cell) (notSpace : ¬ cell.IsSpace) :
    after.mem cell = before.mem cell := by
  refine (carves.extended.same (fun isSpot => notNew ?_) notSpace).trans
    (carves.commits.same cell notNew)
  exact .inr (.inr isSpot.isForm)

theorem taken (carves : CarvesNew use.forms before middle after) :
    Takes .chunks before.mem (nextObject .chunks before.mem) after.mem := by
  refine carves.takes.congr fun cell isRegion => ?_
  exact carves.extended.same (fun isSpot => isRegion.not_form isSpot.isForm) isRegion.not_space

theorem takeChunk (carves : CarvesNew use.forms before middle after)
    (isConsistent : Consistent use before.mem before.dram) :
    ¬ use.chunks (nextObject .chunks before.mem) ∧
      RegionOk .chunks after.mem (use.withForm (nextObject .chunks before.mem)).chunks ∧
      ∀ chunk, (use.withForm (nextObject .chunks before.mem)).chunks chunk → chunkSize ∣ chunk := by
  have maxAddr : after.mem (.maxAddr .chunks) = before.mem (.maxAddr .chunks) := by
    refine carves.same ?_ id
    rintro (isRegion | isList | isForm)
    · exact isRegion
    · exact isList
    · exact isForm
  obtain ⟨unused, -, isOk, aligned⟩ := isConsistent.takeChunk carves.taken maxAddr
  exact ⟨unused, isOk, aligned⟩

theorem consistent (carves : CarvesNew use.forms before middle after)
    (isConsistent : Consistent use before.mem before.dram)
    (ok : FormsOk (use.withForm (nextObject .chunks before.mem)).forms after.mem after.dram)
    (small : after.dram.small = before.dram.small) :
    Consistent (use.withForm (nextObject .chunks before.mem)) after.mem after.dram := by
  obtain ⟨-, isOk, aligned⟩ := carves.takeChunk isConsistent
  refine isConsistent.withChunks ok isOk aligned (use.grows_withForm _).chunks small
    fun cell isSmall => carves.same ?_ isSmall.not_space
  rintro (isRegion | isList | isForm)
  · exact isSmall.not_region isRegion
  · exact isSmall.not_list isList
  · exact isSmall.not_form isForm

theorem progress (carves : CarvesNew use.forms before middle after)
    (isConsistent : Consistent use before.mem before.dram) :
    Progress (TouchedCell before use (use.withForm (nextObject .chunks before.mem)))
      (NewSpotCell use (use.withForm (nextObject .chunks before.mem))) Cell.IsSpace before after := by
  have unused := (carves.takeChunk isConsistent).1
  refine ⟨middle, carves.commits.mono ?_, carves.extended.mono ?_ fun _ => id⟩
  · rintro cell (isRegion | isList | isForm)
    · exact ⟨carves.outerUnlocked, carves.unlocked, .inl isRegion⟩
    · exact ⟨carves.outerUnlocked, carves.unlocked, .inr (.inl isList)⟩
    · exact ⟨carves.outerUnlocked, carves.unlocked, .inr (.inr ⟨_, isForm, unused, .inr rfl⟩)⟩
  · exact fun cell isSpot => ⟨_, isSpot, unused, .inr rfl⟩

theorem headerTaken (carves : CarvesNew use.forms before middle after)
    (isConsistent : Consistent use before.mem before.dram)
    (ok : FormsOk (use.withForm (nextObject .chunks before.mem)).forms after.mem after.dram)
    (small : after.dram.small = before.dram.small) :
    HeaderTaken use (use.withForm (nextObject .chunks before.mem)) before after where
  grows := use.grows_withForm _
  samePools := rfl
  sameBlocks := rfl
  consistent := carves.consistent isConsistent ok small
  progress := (carves.progress isConsistent).mono (fun _ => id) (fun _ => .inr) fun _ => id
  available _ := carves.taken.available

end CarvesNew

theorem nextObject_unused {mem : Cell → Nat} {used : Nat → Prop} (ok : RegionOk .chunks mem used) :
    ¬ used (nextObject .chunks mem) := by
  obtain ⟨list, linked, -, areFree⟩ := ok.free
  unfold nextObject
  split_ifs with isFree
  · cases list with
    | nil => exact absurd linked isFree
    | cons p rest =>
        rw [linked.1]
        exact (areFree p List.mem_cons_self).1
  · exact fun isUsed => (ok.below _ isUsed ok.tail.1).false

theorem StopsSmall.stops {size : Nat} (consistent : Consistent use before.mem before.dram)
    (stops : StopsSmall use.forms size before after) : Stops use before after := by
  have unused := nextObject_unused consistent.chunks
  cases stops with
  | carving picked extended =>
      exact .inr (Progress.of_extends (extended.mono (fun _ _ => trivial) fun _ => .inl))
  | taking progress =>
      exact .inl (progress.mono (fun _ => id) (fun _ => False.elim) fun cell isForm =>
        ⟨_, isForm, unused, trivial⟩)
  | @carvingNew middle carves =>
      refine .inr ⟨middle, carves.commits.mono ?_,
        carves.extended.mono (fun _ _ => trivial) fun _ => .inl⟩
      rintro cell (isRegion | isList | isForm)
      · exact ⟨carves.outerUnlocked, carves.unlocked, .inl isRegion⟩
      · exact ⟨carves.outerUnlocked, carves.unlocked, .inr (.inl isList)⟩
      · exact ⟨carves.outerUnlocked, carves.unlocked, .inr (.inr ⟨_, isForm, unused, trivial⟩)⟩

theorem headerAlloc_ends (consistent : Consistent use world.mem world.dram) :
    Ends (variableAlloc poolHeaderSize world)
      (fun _ after => ∃ more, HeaderTaken use more world after) (Stops use world) := by
  have small : poolHeaderSize ≤ chunkSize := by decide
  have allocated := variableAlloc_small_ends small consistent.forms
    (nextObject_ne_zero consistent.chunks)
  refine (allocated.and (variableAlloc_keepsSmall poolHeaderSize world)).mono ?_ ?_
  · rintro address after ⟨⟨chunk, carves⟩ | ⟨-, middle, carves, ok, -⟩, sameSmall⟩
    · exact ⟨use, carves.headerTaken consistent sameSmall⟩
    · exact ⟨_, carves.headerTaken consistent ok sameSmall⟩
  · rintro after ⟨stops, -⟩
    exact stops.stops consistent

/-! ## New pools -/

/-- A pool has been made. -/
structure PoolMade (use more : InUse) (pool : Nat) (before after : World) : Prop where
  grows : use.Grows more
  isPool : more.pools pool
  sameBlocks : more.blocks = use.blocks
  consistent : Consistent more after.mem after.dram
  progress : Progress (TouchedCell before use more) (NewPoolCell before use more)
    (StoredCell use more) before after

/-- The header of a pool. -/
def World.newPool (world : World) (pool : Nat) : World :=
  ((((world.store (.tailPtr (.pool pool)) pool).store (.freePtr (.pool pool)) 0).store
    (.numAllocated (.pool pool)) 0).store (.maxAddr (.pool pool)) (pool + chunkSize)).store
      (.nextPoolHdr pool) 0

theorem newPool_same {pool : Nat} (notPool : ¬ PoolCell pool cell) :
    (world.newPool pool).mem cell = world.mem cell := by
  have other (target : Cell) (isPool : PoolCell pool target) : cell ≠ target := by
    rintro rfl
    exact notPool isPool
  simp only [World.newPool, mem_store]
  rw [Function.update_of_ne (other (.nextPoolHdr pool) rfl),
    Function.update_of_ne (other (.maxAddr (.pool pool)) rfl),
    Function.update_of_ne (other (.numAllocated (.pool pool)) rfl),
    Function.update_of_ne (other (.freePtr (.pool pool)) rfl),
    Function.update_of_ne (other (.tailPtr (.pool pool)) rfl)]

theorem newPool_extends {logged unlogged : Cell → Prop} {pool : Nat}
    (extended : Extends logged unlogged before world)
    (isUnlogged : ∀ cell, PoolCell pool cell → unlogged cell) :
    Extends logged unlogged before (world.newPool pool) := by
  have stores (cell : Cell) (value : Nat) (isCell : PoolCell pool cell) {middle : World}
      (start : Extends logged unlogged before middle) :
      Extends logged unlogged before (middle.store cell value) :=
    start.store (.inr (isUnlogged cell isCell))
  refine stores _ _ ?_ (stores _ _ ?_ (stores _ _ ?_ (stores _ _ ?_ (stores _ _ ?_ extended))))
  all_goals rfl

/-- The chunk that has been taken becomes a pool behind the last one. -/
theorem Consistent.linkPool {pool last : Nat} {pools : List Nat}
    (consistent : Consistent use world.mem world.dram) (isChunk : use.chunks pool)
    (notPool : ¬ use.pools pool) (listed : ∀ other ∈ pools, other ∈ world.dram.pools ∨ other = pool) :
    Consistent { use with pools := fun other => use.pools other ∨ other = pool }
      (((world.newPool pool).log [.nextPoolHdr last]).store (.nextPoolHdr last) pool).mem
      { world.dram with pools := pools, lastHdrScanned := pool } := by
  have linked (other : Cell) (different : other ≠ .nextPoolHdr last) :
      (((world.newPool pool).log [.nextPoolHdr last]).store (.nextPoolHdr last) pool).mem other =
        (world.newPool pool).mem other := Function.update_of_ne different _ _
  refine consistent.addPool isChunk notPool ⟨?_, ?_, ?_⟩ ?_ ?_ listed
  · rw [linked (.tailPtr (.pool pool)) nofun]
    simp [World.newPool, mem_store]
  · rw [linked (.freePtr (.pool pool)) nofun]
    simp [World.newPool, mem_store]
  · rw [linked (.maxAddr (.pool pool)) nofun]
    simp [World.newPool, mem_store]
  · intro other
    by_cases same : other = last
    · exact .inl (by rw [same]; exact Function.update_self _ _ _)
    · refine .inr ?_
      rw [linked _ (by simpa using same)]
      by_cases isPool : other = pool
      · rw [if_pos isPool, isPool]
        exact Function.update_self _ _ _
      · rw [if_neg isPool]
        exact newPool_same isPool
  · intro other _ notPool notLink
    rw [linked _ (notLink last)]
    exact newPool_same notPool

theorem addNewPool_ends (consistent : Consistent use world.mem world.dram) :
    Ends (addNewPool world) (fun pool after => ∃ more, PoolMade use more pool world after)
      (Stops use world) := by
  unfold addNewPool
  refine Ends.bind (headerAlloc_ends consistent) ?_
  rintro address first ⟨more, header⟩
  have stopped {last : World} (extended : Extends (fun _ => True) (StoredCell use .all) first last) :
      Stops use world last := by
    refine .inr (Progress.extend (header.progress.mono ?_ (fun _ _ => trivial) fun _ => .inl)
      extended)
    exact fun cell touched => touched.mono more.grows_all
  refine Ends.bind ((allocChunk_ends 1).mono (fun _ _ => id) fun after extended =>
    stopped (extended.mono (fun _ _ => trivial) fun _ => False.elim)) ?_
  rintro pool second ⟨extended, taken, unlocked, -, sameDram⟩
  have takes := (taken.resolve_right fun several => several.1 rfl).2
  have maxAddr : second.mem (.maxAddr .chunks) = first.mem (.maxAddr .chunks) :=
    extended.same id id
  obtain ⟨unused, isAligned, isOk, aligned⟩ := header.consistent.takeChunk takes maxAddr
  have notPool : ¬ more.pools pool := fun isPool =>
    unused (header.consistent.poolChunk pool isPool)
  have fresh : ¬ use.chunks pool := fun isUsed => unused (header.grows.chunks pool isUsed)
  let withChunk : InUse := { more with chunks := fun chunk => more.chunks chunk ∨ chunk = pool }
  have isConsistent : Consistent withChunk second.mem second.dram := by
    refine header.consistent.withChunks ?_ isOk aligned (fun _ => .inl) (by rw [sameDram])
      fun cell isSmall => extended.same isSmall.not_region id
    refine ⟨header.consistent.forms.nonzero, ?_, ?_, ?_, fun chunk => ?_⟩
    · rw [sameDram]
      exact header.consistent.forms.listed
    · rw [sameDram]
      exact header.consistent.forms.toScan
    · rw [sameDram]
      exact header.consistent.forms.last
    · rw [extended.same id id]
      exact header.consistent.forms.next chunk
  let made : InUse := { withChunk with pools := fun other => more.pools other ∨ other = pool }
  have grows : more.Grows made := ⟨fun _ => .inl, fun _ => .inl, fun _ => .inl, fun _ => id⟩
  have isStored (cell : Cell) (isPool : PoolCell pool cell) : StoredCell use made cell :=
    .inr (.inl ⟨pool, isPool, fresh, .inr rfl⟩)
  have built : Extends (RegionCell .chunks) (StoredCell use made) first
      (second.newPool pool) :=
    newPool_extends (extended.mono (fun _ => id) fun _ => False.elim) isStored
  have change : ((do
      store (.tailPtr (.pool pool)) pool
      store (.freePtr (.pool pool)) 0
      store (.numAllocated (.pool pool)) 0
      store (.maxAddr (.pool pool)) (pool + chunkSize)
      store (.nextPoolHdr pool) 0
      write (.nextPoolHdr (← get).dram.lastHdrScanned) pool
      modifyDram fun dram => { dram with
        pools := dram.pools.insert pool
        lastHdrScanned := pool }
      return pool : Alloc Nat) second) =
      (write (.nextPoolHdr second.dram.lastHdrScanned) pool >>= fun _ => do
        modifyDram fun dram => { dram with
          pools := dram.pools.insert pool
          lastHdrScanned := pool }
        return pool : Alloc Nat) (second.newPool pool) := rfl
  rw [change]
  refine ends_write_bind (stopped (built.mono (fun _ _ => trivial) fun _ stored =>
    stored.mono made.grows_all)) ?_
  rw [modifyDram_bind, ends_pure]
  refine ⟨made, header.grows.trans grows, .inr rfl, header.sameBlocks, ?_, ?_⟩
  · exact isConsistent.linkPool (.inr rfl) notPool fun other member =>
      (List.mem_insert_iff.mp member).symm
  · have outerUnlocked : world.outerLocked = false := header.progress.outerLocked ▸ unlocked
    have available := header.available takes.available
    have isLast : more.pools second.dram.lastHdrScanned := by
      rw [sameDram]
      exact header.consistent.pools.last
    have written := @Extends.write _ _ _ _ (.nextPoolHdr second.dram.lastHdrScanned) pool
      (@Extends.mono _ _ _ _ (NewPoolCell world use made) _ built
        (fun cell isRegion => ⟨outerUnlocked, available, .inl isRegion⟩) fun _ => id)
      ⟨outerUnlocked, available, .inr (.inr (.inr ⟨_, rfl, .inl isLast⟩))⟩
    refine Progress.extend (header.progress.mono ?_ ?_ fun _ => .inl)
      (written.of_eq rfl rfl rfl rfl)
    · exact fun cell touched => touched.mono grows
    · rintro cell (isHeader | isSpot)
      · exact ⟨outerUnlocked, available, .inr (.inl isHeader)⟩
      · exact ⟨outerUnlocked, available, .inr (.inr (.inl (isSpot.mono grows)))⟩

/-! ## Pools -/

/-- The first pool that has not been scanned and is not full. -/
def firstPool (mem : Cell → Nat) : Nat → Nat → Option Nat
  | 0, _ => none
  | bound + 1, last =>
      if mem (.nextPoolHdr last) = 0 then none
      else if mem (.numAllocated (.pool (mem (.nextPoolHdr last)))) < maxObjsPerPool then
        some (mem (.nextPoolHdr last))
      else firstPool mem bound (mem (.nextPoolHdr last))

/-- All pools are full. -/
def PoolNeeded (mem : Cell → Nat) (dram : Dram) : Prop :=
  dram.pools = [] ∧ firstPool mem chunkBound dram.lastHdrScanned = none

theorem scanPools_ends {bound : Nat} (consistent : Consistent use world.mem world.dram) :
    Ends (scanPools bound world)
      (fun pool after =>
        (∃ last, after = { world with dram := { world.dram with lastHdrScanned := last } }) ∧
          Consistent use after.mem after.dram ∧
          (pool = 0 ∧ firstPool world.mem bound world.dram.lastHdrScanned = none ∨
            pool ≠ 0 ∧ use.pools pool))
      (fun after => ∃ dram, after = { world with dram := dram }) := by
  induction bound generalizing world with
  | zero => exact ⟨world.dram, rfl⟩
  | succ bound ih =>
      unfold scanPools
      rw [get_bind, read_bind]
      refine ends_ite (fun isEnd => ?_) fun notEnd => ?_
      · rw [ends_pure, firstPool, if_pos isEnd]
        exact ⟨⟨world.dram.lastHdrScanned, rfl⟩, consistent, .inl ⟨rfl, rfl⟩⟩
      · have isPool := (consistent.pools.next _ consistent.pools.last).resolve_left notEnd
        have scanned := consistent.withPools consistent.pools.listed isPool
        rw [modifyDram_bind, read_bind]
        refine ends_ite (fun isFree => ?_) fun isFull => ?_
        · exact ⟨⟨_, rfl⟩, scanned, .inr ⟨notEnd, isPool⟩⟩
        · rw [firstPool, if_neg notEnd, if_neg isFull]
          refine (@ih { world with dram := _ } scanned).mono ?_ ?_
          · rintro pool after ⟨⟨last, rfl⟩, rest⟩
            exact ⟨⟨last, rfl⟩, rest⟩
          · rintro after ⟨dram, rfl⟩
            exact ⟨dram, rfl⟩

/-- The words that taking a small chunk from a pool logs. -/
def FlexCell (world : World) (use more : InUse) (cell : Cell) : Prop :=
  (∃ pool, RegionCell (.pool pool) cell ∧ more.pools pool) ∨
    PoolNeeded world.mem world.dram ∧ NewPoolCell world use more cell

theorem FlexCell.mono (logged : FlexCell world use more cell) (grows : more.Grows most) :
    FlexCell world use most cell := by
  rcases logged with ⟨pool, isRegion, isPool⟩ | ⟨needed, unlocked, available, isNew⟩
  · exact .inl ⟨pool, isRegion, grows.pools pool isPool⟩
  · refine .inr ⟨needed, unlocked, available, ?_⟩
    rcases isNew with isRegion | isHeader | isSpot | ⟨pool, isLink, isPool⟩
    · exact .inl isRegion
    · exact .inr (.inl isHeader)
    · exact .inr (.inr (.inl (isSpot.mono grows)))
    · exact .inr (.inr (.inr ⟨pool, isLink, grows.pools pool isPool⟩))

/-- A small chunk has been taken from a pool, and is not in a list yet. -/
structure SmallTaken (use more : InUse) (pool block : Nat) (before after : World) : Prop where
  grows : use.Grows more
  isPool : more.pools pool
  sameBlocks : more.blocks = use.blocks
  unused : ¬ use.blocks block
  home : Home (.pool pool) block
  ok : RegionOk (.pool pool) after.mem (fun other => use.blocks other ∨ other = block)
  consistent : Consistent more after.mem after.dram
  progress : Progress (TouchedCell before use more) (FlexCell before use more)
    (StoredCell use more) before after

/-- A small chunk from a pool that exists. -/
theorem poolAlloc_ends {pool : Nat} {touched logged unlogged : Cell → Prop}
    (progress : Progress touched logged unlogged world middle)
    (consistent : Consistent more middle.mem middle.dram) (isPool : more.pools pool)
    (isLogged : ∀ cell, RegionCell (.pool pool) cell → logged cell) :
    Ends (fixedAlloc (.pool pool) middle)
      (fun block after => ¬ more.blocks block ∧ Home (.pool pool) block ∧
        RegionOk (.pool pool) after.mem (fun other => more.blocks other ∨ other = block) ∧
        Consistent more after.mem after.dram ∧ after.dram = middle.dram ∧
        Progress touched logged unlogged world after)
      (Progress touched logged unlogged world) := by
  have more (last : World) (extended : Extends (RegionCell (.pool pool)) (fun _ => False) middle last) :
      Progress touched logged unlogged world last :=
    progress.extend (extended.mono isLogged fun _ => False.elim)
  refine (fixedAlloc_ends (.pool pool)).mono ?_ more
  rintro block after ⟨extended, taken, sameDram, -⟩
  obtain ⟨unused, home, ok, isConsistent⟩ :=
    consistent.takeBlock isPool taken fun cell notRegion => extended.same notRegion id
  rw [sameDram]
  exact ⟨unused, home, ok, isConsistent, rfl, more after extended⟩

theorem flexAlloc_ends (consistent : Consistent use world.mem world.dram) :
    Ends (flexAlloc world)
      (fun block after => ∃ more pool, SmallTaken use more pool block world after)
      (Stops use world) := by
  have stops {logged : Cell → Prop} {last : World}
      (progress : Progress (TouchedCell world use use) logged (StoredCell use use) world last) :
      Stops use world last :=
    .inr (progress.mono (fun _ touched => touched.mono use.grows_all) (fun _ _ => trivial)
      fun _ stored => stored.mono use.grows_all)
  unfold flexAlloc
  rw [get_bind]
  cases isPools : world.dram.pools with
  | cons pool pools =>
      have isPool : use.pools pool :=
        consistent.pools.listed pool (isPools ▸ List.mem_cons_self)
      dsimp only
      refine Ends.bind ((@poolAlloc_ends world world use pool (TouchedCell world use use)
        (FlexCell world use use) (StoredCell use use) (Progress.of_extends Extends.refl)
        consistent isPool fun _ isRegion => .inl ⟨pool, isRegion, isPool⟩).mono (fun _ _ => id)
          fun _ => stops) ?_
      rintro block after ⟨unused, home, ok, isConsistent, sameDram, progress⟩
      rw [read_bind, modifyDram_bind, ends_pure]
      refine ⟨use, pool, .refl, isPool, rfl, unused, home, ok, ?_,
        progress.extend (Extends.refl.of_eq rfl rfl rfl rfl)⟩
      refine isConsistent.withPools (fun other member => ?_) isConsistent.pools.last
      split_ifs at member
      · exact isConsistent.pools.listed other (List.mem_of_mem_erase member)
      · exact isConsistent.pools.listed other member
  | nil =>
      dsimp only
      refine Ends.bind ((scanPools_ends consistent).mono (fun _ _ => id) ?_) ?_
      · rintro after ⟨dram, rfl⟩
        exact .inr (Progress.of_extends (Extends.refl.of_eq rfl rfl rfl rfl))
      rintro pool after ⟨⟨last, rfl⟩, scanned, (⟨isZero, noPool⟩ | ⟨nonzero, isPool⟩)⟩
      · rw [if_neg (not_not.mpr isZero)]
        refine Ends.bind ((addNewPool_ends scanned).mono (fun _ _ => id) fun _ => Stops.of_dram) ?_
        rintro pool after ⟨more, made⟩
        have isNew (cell : Cell) (logged : NewPoolCell
            { world with dram := { world.dram with lastHdrScanned := last } } use more cell) :
            FlexCell world use more cell := .inr ⟨⟨isPools, noPool⟩, logged⟩
        have progress : Progress (TouchedCell world use more) (FlexCell world use more)
            (StoredCell use more) world after :=
          made.progress.of_dram.mono (fun _ => id) isNew fun _ => id
        refine (poolAlloc_ends progress made.consistent made.isPool fun cell isRegion =>
          .inl ⟨pool, isRegion, made.isPool⟩).mono ?_ fun after stopped => .inr (stopped.mono ?_ ?_ ?_)
        · rintro block after ⟨unused, home, ok, isConsistent, -, progress⟩
          rw [made.sameBlocks] at unused ok
          exact ⟨more, pool, made.grows, made.isPool, made.sameBlocks, unused, home, ok,
            isConsistent, progress⟩
        · exact fun cell touched => touched.mono more.grows_all
        · exact fun _ _ => trivial
        · exact fun cell stored => stored.mono more.grows_all
      · rw [if_pos nonzero]
        have start : Progress (TouchedCell world use use) (FlexCell world use use)
            (StoredCell use use) world
            { world with dram := { world.dram with lastHdrScanned := last } } :=
          Progress.of_extends (Extends.refl.of_eq rfl rfl rfl rfl)
        refine Ends.bind ((poolAlloc_ends start scanned isPool fun _ isRegion =>
          .inl ⟨pool, isRegion, isPool⟩).mono (fun _ _ => id) fun _ => stops) ?_
        rintro block after ⟨unused, home, ok, isConsistent, sameDram, progress⟩
        rw [read_bind, modifyDram_bind, ends_pure]
        refine ⟨use, pool, .refl, isPool, rfl, unused, home, ok, ?_,
          progress.extend (Extends.refl.of_eq rfl rfl rfl rfl)⟩
        refine isConsistent.withPools (fun other member => ?_) isConsistent.pools.last
        split_ifs at member
        · rcases List.mem_insert_iff.mp member with rfl | old
          · exact isPool
          · exact isConsistent.pools.listed other old
        · exact isConsistent.pools.listed other member

/-! ## New small chunks -/

theorem clearOccupants_ends {chunk words : Nat} :
    Ends (clearOccupants chunk words world)
      (fun _ after => Extends (fun _ => False) (CountCell chunk) world after ∧ after.dram = world.dram)
      (fun _ => False) := by
  induction words with
  | zero => exact ⟨Extends.refl, rfl⟩
  | succ words ih =>
      unfold clearOccupants
      refine Ends.bind ih ?_
      rintro ⟨⟩ after ⟨extended, sameDram⟩
      exact ⟨extended.store (.inr rfl), sameDram⟩

/-- A new small chunk refers to no other one. -/
theorem newFixed_ends (chunk objSize : Nat) :
    Ends (newFixed chunk objSize world)
      (fun _ after => Extends (fun _ => False) (BlockCell chunk) world after ∧
        (∀ other, after.mem (.nextFixed other) =
          if other = chunk then 0 else world.mem (.nextFixed other)) ∧
        after.dram = world.dram)
      (fun _ => False) := by
  have isBlock (cell : Cell) (isCount : CountCell chunk cell) : BlockCell chunk cell := by
    cases cell
    case nextFixed => exact isCount.elim
    all_goals exact isCount
  have stores (cell : Cell) (value : Nat) (isCell : BlockCell chunk cell) {middle : World}
      (start : Extends (fun _ => False) (BlockCell chunk) world middle) :
      Extends (fun _ => False) (BlockCell chunk) world (middle.store cell value) := start.store (.inr isCell)
  unfold newFixed
  rw [store_bind, store_bind, store_bind]
  have start : Extends (fun _ => False) (BlockCell chunk) world (((world.store (.nextFixed chunk) 0).store
      (.freeSpots chunk) (maxSpots objSize)).store (.nextIndex chunk) 0) := by
    refine stores _ _ ?_ (stores _ _ ?_ (stores _ _ ?_ Extends.refl))
    all_goals rfl
  refine Ends.bind (clearOccupants_ends) ?_
  rintro ⟨⟩ after ⟨extended, sameDram⟩
  rw [read_bind]
  refine ⟨stores (.occupants chunk _) _ rfl (start.trans (extended.mono (fun _ => id) isBlock)),
    fun other => ?_, sameDram⟩
  have kept := @Extends.same _ _ _ _ (.nextFixed other) extended id id
  refine kept.trans ?_
  by_cases same : other = chunk
  · simp [mem_store, same]
  · simp [mem_store, same]

/-- The words that putting a small chunk in a list logs. -/
def FixedListCell (blocks : Nat → Prop) : Cell → Prop
  | .startFixed _ => True
  | .nextFixed chunk => blocks chunk
  | _ => False

theorem RegionCell.not_fixed {region : Region} {blocks : Nat → Prop}
    (isRegion : RegionCell region cell) : ¬ FixedListCell blocks cell := by
  intro isList
  cases cell
  case startFixed | nextFixed => exact isRegion
  all_goals exact isList

theorem RegionCell.not_block {region : Region} {block : Nat} (isRegion : RegionCell region cell) :
    ¬ BlockCell block cell := by
  intro isBlock
  cases cell
  case nextFixed | freeSpots | nextIndex | occupants => exact isRegion
  all_goals exact isBlock

theorem appendFixed_ends {blocks : Nat → Prop} (index chunk : Nat)
    (isLast : world.dram.lastFixed index = 0 ∨ blocks (world.dram.lastFixed index)) :
    Ends (appendFixed index chunk world)
      (fun _ after => Extends (FixedListCell blocks) (fun _ => False) world after ∧
        (∀ other, after.mem (.nextFixed other) = chunk ∨
          after.mem (.nextFixed other) = world.mem (.nextFixed other)) ∧
        after.dram = world.dram)
      (fun after => Extends (FixedListCell blocks) (fun _ => False) world after) := by
  unfold appendFixed
  rw [get_bind, read_bind]
  refine ends_ite (fun _ => ?_) fun _ => ends_ite (fun _ => Extends.refl) fun notFirst => ?_
  · refine ends_write Extends.refl ⟨Extends.refl.write trivial, fun other => .inr ?_, rfl⟩
    simp [mem_store]
  · have isLogged : FixedListCell blocks (.nextFixed (world.dram.lastFixed index)) :=
      isLast.resolve_left notFirst
    refine ends_write Extends.refl ⟨Extends.refl.write isLogged, fun other => ?_, rfl⟩
    by_cases same : other = world.dram.lastFixed index
    · exact .inl (by simp [mem_store, same])
    · exact .inr (by simp [mem_store, same])

/-- What the inner transaction that takes a small chunk changes when it commits. -/
def CommittedCell (world : World) (use more : InUse) (cell : Cell) : Prop :=
  TouchedCell world use more cell ∨ (FlexCell world use more cell ∨ FixedListCell more.blocks cell) ∨
    StoredCell use more cell

/-- What remains of the inner transaction that takes a small chunk when it is rolled back. -/
def RolledBack (use : InUse) (before after : World) : Prop :=
  Progress (fun _ => False) (fun _ => False) (FormCell use .all) before after ∨
    Progress (TouchedCell before.begin use .all) (fun _ => False) (StoredCell use .all) before after

theorem TouchedCell.not_stored (touched : TouchedCell world use more cell)
    (stored : StoredCell use more cell) : cell.IsSpace := by
  obtain ⟨-, -, touched⟩ := touched
  rcases stored with isSpace | ⟨pool, isPool, -⟩ | ⟨block, isBlock, -⟩
  · exact isSpace
  · rcases touched with isRegion | isList | ⟨chunk, isForm, -⟩
    · exact (isRegion.not_pool nofun isPool).elim
    · cases cell <;> first | exact isList.elim | exact isPool.elim
    · cases cell <;> first | exact isForm.elim | exact isPool.elim
  · rcases touched with isRegion | isList | ⟨chunk, isForm, -⟩
    · cases cell <;> first | exact isRegion.elim | exact isBlock.elim
    · cases cell <;> first | exact isList.elim | exact isBlock.elim
    · cases cell <;> first | exact isForm.elim | exact isBlock.elim

theorem allocFixedChunk_ends (consistent : Consistent use world.mem world.dram)
    (index objSize : Nat) :
    Ends (allocFixedChunk index objSize world)
      (fun block after => ∃ more, use.Grows more ∧ more.blocks block ∧
        Consistent more after.mem after.dram ∧
        Commits (CommittedCell world.begin use more) world after ∧ after.locked = world.locked)
      (RolledBack use world) := by
  have body : Ends ((do
      let chunk ← flexAlloc
      newFixed chunk objSize
      appendFixed index chunk
      return chunk : Alloc Nat) world.begin)
      (fun block after => ∃ more, use.Grows more ∧ more.blocks block ∧
        Consistent more after.mem after.dram ∧
        Progress (TouchedCell world.begin use more)
          (fun cell => FlexCell world.begin use more cell ∨ FixedListCell more.blocks cell)
          (StoredCell use more) world.begin after)
      (Stops use world.begin) := by
    refine Ends.bind (flexAlloc_ends consistent) ?_
    rintro block first ⟨more, pool, taken⟩
    let most : InUse := { more with blocks := fun other => more.blocks other ∨ other = block }
    have grows : more.Grows most := ⟨fun _ => .inl, fun _ => id, fun _ => id, fun _ => .inl⟩
    have isStored (cell : Cell) (isBlock : BlockCell block cell) : StoredCell use most cell :=
      .inr (.inr ⟨block, isBlock, taken.unused, .inr rfl⟩)
    refine Ends.bind ((newFixed_ends block objSize).mono
      (fun _ _ => id) fun _ => False.elim) ?_
    rintro ⟨⟩ second ⟨constructed, nexts, secondDram⟩
    have built : Extends (FixedListCell most.blocks) (StoredCell use most) first second :=
      constructed.mono (fun _ => False.elim) isStored
    have stopped (last : World) 
        (appended : Extends (FixedListCell most.blocks) (fun _ => False) second last) :
        Stops use world.begin last := by
      refine .inr (Progress.extend (taken.progress.mono ?_ (fun _ _ => trivial) ?_) ?_)
      · exact fun cell touched => touched.mono more.grows_all
      · exact fun cell stored => stored.mono more.grows_all
      · exact (built.trans (appended.mono (fun _ => id) fun _ => False.elim)).mono
          (fun _ _ => trivial) fun cell stored => stored.mono most.grows_all
    have isLast : second.dram.lastFixed index = 0 ∨ most.blocks (second.dram.lastFixed index) := by
      rw [secondDram]
      exact (taken.consistent.fixed.last index).imp_right .inl
    refine Ends.bind ((appendFixed_ends index block isLast).mono (fun _ _ => id) stopped) ?_
    rintro ⟨⟩ third ⟨appended, links, thirdDram⟩
    have unchanged (cell : Cell) (notFixed : ¬ FixedListCell most.blocks cell)
        (notBlock : ¬ BlockCell block cell) :
        third.mem cell = first.mem cell :=
      (appended.same notFixed id).trans (constructed.same id notBlock)
    refine ⟨most, taken.grows.trans grows, .inr rfl, ?_, ?_⟩
    · rw [thirdDram, secondDram]
      refine taken.consistent.addBlock taken.isPool taken.home ?_ ?_ ?_
      · exact taken.ok.congr (fun cell isRegion => unchanged cell isRegion.not_fixed
          isRegion.not_block) (unchanged (.maxAddr (.pool pool)) id id) |>.mono
          fun other isUsed _ => isUsed.imp_left (taken.sameBlocks ▸ id)
      · intro other
        rcases links other with isLast | old
        · exact .inl isLast
        · exact .inr (by rw [old, nexts])
      · intro cell isStructure notNext
        refine unchanged cell (fun isList => ?_) fun isBlock => ?_
        · cases cell
          case nextFixed other => exact notNext other rfl
          all_goals first
            | exact isList
            | exact isStructure
        · cases cell
          case nextFixed other => exact notNext other rfl
          all_goals first
            | exact isBlock
            | exact isStructure
    · refine Progress.extend (taken.progress.mono ?_ ?_ ?_)
        ((built.mono (fun _ => .inr) fun _ => id).trans
          (appended.mono (fun _ => .inr) fun _ => False.elim))
      · exact fun cell touched => touched.mono grows
      · exact fun cell logged => .inl (logged.mono grows)
      · exact fun cell stored => stored.mono grows
  refine ends_inner body ?_ ?_
  · rintro block after ⟨more, grows, isBlock, isConsistent, progress⟩
    exact ⟨more, grows, isBlock, isConsistent,
      progress.commit fun cell => TouchedCell.not_stored, rfl⟩
  · rintro after (progress | progress)
    · exact .inl progress.rollBack
    · exact .inr progress.rollBack

/-! ## Blocks from small chunks -/

theorem fixedChunkAlloc_ends (chunk objSize : Nat) :
    Ends (fixedChunkAlloc chunk objSize world)
      (fun _ after => Extends (CountCell chunk) (fun _ => False) world after ∧
        after.dram = world.dram ∧ after.locked = world.locked)
      (fun after => Extends (CountCell chunk) (fun _ => False) world after) := by
  unfold fixedChunkAlloc
  rw [get_bind]
  refine ends_ite (fun _ => Extends.refl) fun _ => ?_
  cases findIndex world.mem chunk objSize with
  | none => exact Extends.refl
  | some index =>
      dsimp only
      have first : Extends (CountCell chunk) (fun _ => False) world
          (world.log [.freeSpots chunk, .nextIndex chunk]) :=
        Extends.refl.log (by simp [CountCell])
      refine ends_log_bind Extends.refl (ends_log_bind first ?_)
      simp only [store_bind, ends_pure]
      refine ⟨((Extends.store ?_ ?_).store ?_).store ?_, rfl, rfl⟩
      · exact first.log (by simp [CountCell])
      all_goals refine .inl ⟨rfl, ?_⟩
      all_goals simp [World.store, covers_log]

/-- The first small chunk that has not been scanned and has a free spot. -/
def firstFixed (mem : Cell → Nat) : Nat → Nat → Option Nat
  | 0, _ => none
  | bound + 1, chunk =>
      if chunk = 0 then none
      else if mem (.freeSpots chunk) > 0 then some chunk
      else firstFixed mem bound (mem (.nextFixed chunk))

/-- All small chunks with objects of a size are full. -/
def FixedNeeded (mem : Cell → Nat) (dram : Dram) (index : Nat) : Prop :=
  dram.fixedChunks index = [] ∧ firstFixed mem chunkBound (dram.fixedToScan index) = none

theorem scanFixed_ends {bound index : Nat} (consistent : Consistent use world.mem world.dram) :
    Ends (scanFixed index bound world)
      (fun chunk after =>
        (∃ toScan lastFixed, after = { world with
          dram := { world.dram with fixedToScan := toScan, lastFixed := lastFixed } }) ∧
        Consistent use after.mem after.dram ∧
          (chunk = 0 ∧ firstFixed world.mem bound (world.dram.fixedToScan index) = none ∨
            chunk ≠ 0 ∧ use.blocks chunk))
      (fun after => ∃ dram, after = { world with dram := dram }) := by
  induction bound generalizing world with
  | zero => exact ⟨world.dram, rfl⟩
  | succ bound ih =>
      unfold scanFixed
      rw [get_bind]
      refine ends_ite (fun isEnd => ?_) fun notEnd => ?_
      · rw [ends_pure, firstFixed, if_pos isEnd]
        exact ⟨⟨world.dram.fixedToScan, world.dram.lastFixed, rfl⟩, consistent, .inl ⟨rfl, rfl⟩⟩
      · have isBlock := (consistent.fixed.toScan index).resolve_left notEnd
        have scanned : Consistent use world.mem { world.dram with
            lastFixed := Function.update world.dram.lastFixed index
              (world.dram.fixedToScan index)
            fixedToScan := Function.update world.dram.fixedToScan index
              (world.mem (.nextFixed (world.dram.fixedToScan index))) } := by
          refine consistent.withFixed consistent.fixed.listed (fun other => ?_) fun other => ?_
          · by_cases same : other = index
            · rw [same, Function.update_self]
              exact consistent.fixed.next _ isBlock
            · rw [Function.update_of_ne same]
              exact consistent.fixed.toScan other
          · by_cases same : other = index
            · rw [same, Function.update_self]
              exact .inr isBlock
            · rw [Function.update_of_ne same]
              exact consistent.fixed.last other
        rw [read_bind, modifyDram_bind, read_bind]
        refine ends_ite (fun isFree => ?_) fun isFull => ?_
        · exact ⟨⟨_, _, rfl⟩, scanned, .inr ⟨notEnd, isBlock⟩⟩
        · rw [firstFixed, if_neg notEnd, if_neg isFull]
          refine (@ih { world with dram := _ } scanned).mono ?_ ?_
          · rintro chunk after ⟨⟨toScan, lastFixed, rfl⟩, isConsistent, found⟩
            refine ⟨⟨toScan, lastFixed, rfl⟩, isConsistent, ?_⟩
            simpa only [Function.update_self] using found
          · rintro after ⟨dram, rfl⟩
            exact ⟨dram, rfl⟩

/-- The words that an allocation of a fixed size may have committed. -/
def FixedCell (world : World) (index : Nat) (use more : InUse) (cell : Cell) : Prop :=
  FixedNeeded world.mem world.dram index ∧ CommittedCell world.begin use more cell

/-- The counts of the small chunks in use. -/
def UsedCountCell (use : InUse) (cell : Cell) : Prop :=
  ∃ block, CountCell block cell ∧ use.blocks block

/-- A block has been taken from a small chunk that may be new. -/
structure FixedTaken (index : Nat) (use more : InUse) (before after : World) : Prop where
  grows : use.Grows more
  progress : Progress (FixedCell before index use more) (UsedCountCell more) (fun _ => False)
    before after

theorem RolledBack.of_dram {dram : Dram} (stopped : RolledBack use { world with dram := dram } after) :
    RolledBack use world after :=
  stopped.imp Progress.of_dram Progress.of_dram

/-- A block from a small chunk that is in use. -/
theorem blockAlloc_ends {chunk objSize : Nat} {touched : Cell → Prop}
    (commits : Commits touched world middle) (isBlock : more.blocks chunk)
    (isConsistent : Consistent more middle.mem middle.dram) :
    Ends (fixedChunkAlloc chunk objSize middle)
      (fun _ after => Progress touched (UsedCountCell more) (fun _ => False) world after ∧
        Consistent more after.mem middle.dram ∧ after.dram = middle.dram ∧
        after.locked = middle.locked)
      (Progress touched (UsedCountCell more) (fun _ => False) world) := by
  have progress (last : World) (extended : Extends (CountCell chunk) (fun _ => False) middle last) :
      Progress touched (UsedCountCell more) (fun _ => False) world last :=
    ⟨middle, commits, extended.mono (fun cell isCount => ⟨chunk, isCount, isBlock⟩) fun _ => id⟩
  refine (fixedChunkAlloc_ends chunk objSize).mono ?_ progress
  rintro address after ⟨extended, sameDram, sameLocked⟩
  refine ⟨progress after extended, isConsistent.congr fun cell isStructure => ?_, sameDram,
    sameLocked⟩
  refine extended.same (fun isCount => ?_) id
  cases cell
  case freeSpots | nextIndex | occupants => exact isStructure
  all_goals exact isCount

theorem Consistent.setFixedChunks {mem : Cell → Nat} {dram : Dram} {index : Nat}
    {chunks : List Nat} (consistent : Consistent use mem dram)
    (areBlocks : ∀ chunk ∈ chunks, use.blocks chunk) :
    Consistent use mem
      { dram with fixedChunks := Function.update dram.fixedChunks index chunks } := by
  refine consistent.withFixed (fun other chunk member => ?_) consistent.fixed.toScan
    consistent.fixed.last
  by_cases same : other = index
  · rw [same, Function.update_self] at member
    exact areBlocks chunk member
  · rw [Function.update_of_ne same] at member
    exact consistent.fixed.listed other chunk member

theorem fixSizeAlloc_ends (consistent : Consistent use world.mem world.dram)
    (index objSize : Nat) :
    Ends (fixSizeAlloc index objSize world)
      (fun _ after => ∃ more, FixedTaken index use more world after ∧
        Consistent more after.mem after.dram ∧ after.locked = world.locked)
      (fun after => RolledBack use world after ∨ ∃ more, FixedTaken index use more world after) := by
  unfold fixSizeAlloc
  rw [get_bind]
  cases isList : world.dram.fixedChunks index with
  | cons chunk chunks =>
      have isBlock := consistent.fixed.listed index chunk (isList ▸ List.mem_cons_self)
      dsimp only
      refine Ends.bind ((@blockAlloc_ends world world use chunk objSize
        (FixedCell world index use use) Commits.refl isBlock consistent).mono (fun _ _ => id)
          fun after progress => .inr ⟨use, .refl, progress⟩) ?_
      rintro address after ⟨progress, isConsistent, sameDram, sameLocked⟩
      rw [read_bind, setFixedChunks, modifyDram_bind, ends_pure]
      refine ⟨use, ⟨.refl, progress.extend (Extends.refl.of_eq rfl rfl rfl rfl)⟩, ?_, sameLocked⟩
      rw [sameDram]
      refine isConsistent.setFixedChunks fun other member => ?_
      split_ifs at member
      · exact consistent.fixed.listed index other (List.mem_of_mem_erase member)
      · exact consistent.fixed.listed index other member
  | nil =>
      dsimp only
      refine Ends.bind ((scanFixed_ends consistent).mono (fun _ _ => id) ?_) ?_
      · rintro after ⟨dram, rfl⟩
        exact .inr ⟨use, .refl, Progress.of_extends (Extends.refl.of_eq rfl rfl rfl rfl)⟩
      rintro chunk after ⟨⟨toScan, lastFixed, rfl⟩, scanned, (⟨isZero, noChunk⟩ | ⟨nonzero, isBlock⟩)⟩
      · rw [if_neg (not_not.mpr isZero)]
        refine Ends.bind ((allocFixedChunk_ends scanned index objSize).mono (fun _ _ => id)
          fun _ stopped => .inl stopped.of_dram) ?_
        rintro block first ⟨more, grows, isBlock, firstConsistent, commits, firstLocked⟩
        rw [modifyDram_bind]
        let linked : World := { first with
          dram := { first.dram with
            lastFixed := Function.update first.dram.lastFixed index block } }
        have linkedConsistent : Consistent more linked.mem linked.dram :=
          firstConsistent.withFixed firstConsistent.fixed.listed firstConsistent.fixed.toScan
            fun other => by
              by_cases same : other = index
              · rw [same, Function.update_self]
                exact .inr isBlock
              · rw [Function.update_of_ne same]
                exact firstConsistent.fixed.last other
        have isNew (cell : Cell) (committed : CommittedCell (World.begin { world with
            dram := { world.dram with fixedToScan := toScan, lastFixed := lastFixed } }) use more
            cell) : FixedCell world index use more cell := ⟨⟨isList, noChunk⟩, committed⟩
        have linkedCommits : Commits (FixedCell world index use more) world linked :=
          ⟨(commits.mono isNew).images, (commits.mono isNew).same, (commits.mono isNew).permanent,
            commits.outerLocked⟩
        refine Ends.bind ((blockAlloc_ends linkedCommits isBlock linkedConsistent).mono
          (fun _ _ => id) fun after progress => .inr ⟨more, grows, progress⟩) ?_
        rintro address after ⟨progress, isConsistent, sameDram, sameLocked⟩
        rw [setFixedChunks, modifyDram_bind, ends_pure]
        refine ⟨more, ⟨grows, progress.extend (Extends.refl.of_eq rfl rfl rfl rfl)⟩, ?_,
          sameLocked.trans firstLocked⟩
        rw [sameDram]
        refine isConsistent.setFixedChunks fun other member => ?_
        rcases List.mem_insert_iff.mp member with rfl | old
        · exact isBlock
        · exact firstConsistent.fixed.listed index other old
      · rw [if_pos nonzero]
        have start : Commits (FixedCell world index use use) world { world with
            dram := { world.dram with fixedToScan := toScan, lastFixed := lastFixed } } :=
          ⟨rfl, fun _ _ => rfl, fun _ _ => .inr ⟨rfl, rfl⟩, rfl⟩
        refine Ends.bind ((blockAlloc_ends start isBlock scanned).mono (fun _ _ => id)
          fun after progress => .inr ⟨use, .refl, progress⟩) ?_
        rintro address after ⟨progress, isConsistent, sameDram, sameLocked⟩
        rw [read_bind, setFixedChunks, modifyDram_bind, ends_pure]
        refine ⟨use, ⟨.refl, progress.extend (Extends.refl.of_eq rfl rfl rfl rfl)⟩, ?_, sameLocked⟩
        rw [sameDram]
        refine isConsistent.setFixedChunks fun other member => ?_
        split_ifs at member
        · rcases List.mem_insert_iff.mp member with rfl | old
          · exact isBlock
          · exact scanned.fixed.listed index other old
        · exact scanned.fixed.listed index other member

end Pmgd.AllocatorUnit
