import Pmgd.SmallChunkAllocation

/-!
# Inner transactions under an outer one that aborts

What an inner transaction has committed stays in place when the outer transaction is rolled back,
unless the outer transaction had logged one of its words before.  The only such words are in the
free spot that the header of a new pool is taken from.
-/

namespace Pmgd.AllocatorUnit

open UndoLog ThrowingState LabelledRun

variable {world before middle after : World} {use more : InUse} {cell : Cell}
  {touched logged unlogged : Cell → Prop}

/-! ## Effects in place -/

/-- If the outer transaction is rolled back now, the words that inner transactions changed or
logged are as they left them, and the counts of free space are as they are. -/
def State.InPlace (state : State) : Prop :=
  (∀ cell value, ¬ cell.IsSpace → state.world.permanent cell = some value →
    state.afterAbort cell = value) ∧
  ∀ cell, cell.IsSpace → state.afterAbort cell = state.world.mem cell

/-- The same with the reason for the counts. -/
structure Kept (world : World) : Prop where
  inPlace : ∀ cell value, ¬ cell.IsSpace → world.permanent cell = some value →
    undo world.images world.mem cell = value
  spaces : ∀ cell, cell.IsSpace → ¬ Covers world.images cell

/-- Inner transactions may touch words that the log does not have, and store without a log call
what no earlier one has touched. -/
theorem Kept.progress (kept : Kept before) (progress : Progress touched logged unlogged before after)
    (uncovered : ∀ cell, touched cell → ¬ cell.IsSpace → ¬ Covers before.images cell)
    (fresh : ∀ cell, unlogged cell → ¬ cell.IsSpace →
      before.permanent cell = none ∧ ¬ touched cell)
    (notSpace : ∀ cell, logged cell → ¬ cell.IsSpace) : Kept after := by
  obtain ⟨middle, commits, extended⟩ := progress
  constructor
  · intro cell value noSpace isPermanent
    rw [extended.permanent] at isPermanent
    have isLogged : ¬ unlogged cell := by
      intro isUnlogged
      obtain ⟨noValue, untouched⟩ := fresh cell isUnlogged noSpace
      rcases commits.permanent cell noSpace with ⟨isTouched, -⟩ | ⟨same, -⟩
      · exact untouched isTouched
      · rw [same, noValue] at isPermanent
        cases isPermanent
    refine (extended.undone cell isLogged).trans ?_
    rw [commits.images]
    rcases commits.permanent cell noSpace with ⟨isTouched, isValue⟩ | ⟨same, unchanged⟩
    · rw [undo_of_not_covers _ (uncovered cell isTouched noSpace)]
      exact Option.some.inj (isValue.symm.trans isPermanent)
    · rw [same] at isPermanent
      exact (undo_congr fun _ => unchanged).trans (kept.inPlace cell value noSpace isPermanent)
  · intro cell isSpace covered
    rcases extended.covers cell covered with older | isLogged
    · rw [commits.images] at older
      exact kept.spaces cell isSpace older
    · exact notSpace cell isLogged isSpace

/-! ## The invariant of the outer transaction -/

/-- The words of free-form chunks, pools and small chunks belong to what is in use. -/
def Owned (use : InUse) : Cell → Prop
  | .nextFreeForm chunk | .freeList chunk | .maxContSpace chunk | .spotNext chunk _
  | .spotSize chunk _ => use.chunks chunk
  | .tailPtr (.pool pool) | .freePtr (.pool pool) | .maxAddr (.pool pool)
  | .numAllocated (.pool pool) | .nextPoolHdr pool => use.chunks pool
  | .nextFixed block | .freeSpots block | .nextIndex block | .occupants block _ => use.blocks block
  | _ => True

/-- The words that the outer transaction can have logged: spots of free-form chunks, counts of
small chunks, and once it has the lock, the words of the chunk allocator. -/
def Coverable (use : InUse) (locked : Bool) : Cell → Prop
  | .freeList chunk | .maxContSpace chunk | .spotNext chunk _ | .spotSize chunk _ =>
      locked = true ∨ use.chunks chunk
  | .tailPtr .chunks | .freePtr .chunks | .numAllocated .chunks | .link .chunks _
  | .startFreeForm | .nextFreeForm _ => locked = true
  | .freeSpots block | .nextIndex block | .occupants block _ => use.blocks block
  | _ => False

structure Sound (use : InUse) (world : World) : Prop where
  consistent : Consistent use world.mem world.dram
  kept : Kept world
  covers : ∀ cell, Covers world.images cell → Coverable use world.locked cell
  owned : ∀ cell, world.permanent cell ≠ none → Owned use cell
  forms : ∀ chunk, use.forms chunk → world.locked = true ∨ use.chunks chunk
  outerUnlocked : world.outerLocked = false

theorem Owned.mono (owned : Owned use cell) (chunks : ∀ p, use.chunks p → more.chunks p)
    (blocks : ∀ p, use.blocks p → more.blocks p) : Owned more cell := by
  unfold Owned at owned ⊢
  split at owned
  all_goals first
    | exact chunks _ owned
    | exact blocks _ owned
    | simp_all

theorem FreeFormCell.owned_iff {chunk : Nat} (isForm : FreeFormCell chunk cell)
    (notSpace : ¬ cell.IsSpace) : Owned use cell ↔ use.chunks chunk := by
  cases cell
  case nextFreeForm | freeList | maxContSpace | spotNext | spotSize =>
    obtain rfl := isForm
    rfl
  case freeSpace => exact absurd trivial notSpace
  all_goals exact isForm.elim

theorem PoolCell.owned_iff {pool : Nat} (isPool : PoolCell pool cell) :
    Owned use cell ↔ use.chunks pool := by
  cases cell
  case tailPtr region | freePtr region | maxAddr region | numAllocated region =>
    cases region with
    | chunks => exact isPool.elim
    | pool base =>
        obtain rfl := isPool
        rfl
  case nextPoolHdr =>
    obtain rfl := isPool
    rfl
  all_goals exact isPool.elim

theorem BlockCell.owned_iff {block : Nat} (isBlock : BlockCell block cell) :
    Owned use cell ↔ use.blocks block := by
  cases cell
  case nextFixed | freeSpots | nextIndex | occupants =>
    obtain rfl := isBlock
    rfl
  all_goals exact isBlock.elim

theorem RegionCell.owned {region : Region} (isRegion : RegionCell region cell)
    (inUse : ∀ pool, region = .pool pool → use.chunks pool) : Owned use cell := by
  cases cell
  case tailPtr other | freePtr other | numAllocated other | link other _ =>
    cases other with
    | chunks => trivial
    | pool base =>
        first
          | exact inUse base isRegion.symm
          | trivial
  all_goals exact isRegion.elim

theorem ListCell.owned (isList : ListCell use.forms cell)
    (inUse : ∀ chunk, use.forms chunk → use.chunks chunk) : Owned use cell := by
  cases cell
  case startFreeForm => trivial
  case nextFreeForm chunk => exact inUse chunk isList
  all_goals exact isList.elim

theorem FixedListCell.owned (isList : FixedListCell use.blocks cell) : Owned use cell := by
  cases cell
  case startFixed => trivial
  case nextFixed => exact isList
  all_goals exact isList.elim

/-! ## What the outer transaction cannot have logged -/

theorem Coverable.mono {locked still : Bool} (coverable : Coverable use locked cell)
    (chunks : ∀ p, use.chunks p → more.chunks p) (blocks : ∀ p, use.blocks p → more.blocks p)
    (stays : locked = true → still = true) : Coverable more still cell := by
  unfold Coverable at coverable ⊢
  split at coverable
  all_goals first
    | exact coverable.imp stays (chunks _)
    | exact stays coverable
    | exact blocks _ coverable
    | exact coverable.elim

theorem SpotCell.coverable_iff {chunk : Nat} {locked : Bool} (isSpot : SpotCell chunk cell) :
    Coverable use locked cell ↔ locked = true ∨ use.chunks chunk := by
  cases cell
  case freeList | maxContSpace | spotNext | spotSize =>
    obtain rfl := isSpot
    rfl
  all_goals exact isSpot.elim

theorem CountCell.coverable_iff {block : Nat} {locked : Bool} (isCount : CountCell block cell) :
    Coverable use locked cell ↔ use.blocks block := by
  cases cell
  case freeSpots | nextIndex | occupants =>
    obtain rfl := isCount
    rfl
  all_goals exact isCount.elim

theorem LargeCell.coverable_iff {locked : Bool} (isLarge : LargeCell cell) :
    Coverable use locked cell ↔ locked = true := by
  rcases isLarge with isRegion | isList
  · cases cell
    case tailPtr | freePtr | numAllocated | link =>
      obtain rfl := isRegion
      rfl
    all_goals exact isRegion.elim
  · cases cell
    case startFreeForm | nextFreeForm => rfl
    all_goals exact isList.elim

theorem RegionCell.not_coverable {pool : Nat} {locked : Bool}
    (isRegion : RegionCell (.pool pool) cell) : ¬ Coverable use locked cell := by
  cases cell
  case tailPtr | freePtr | numAllocated | link =>
    obtain rfl := isRegion
    exact id
  all_goals exact isRegion.elim

theorem PoolCell.not_coverable {pool : Nat} {locked : Bool} (isPool : PoolCell pool cell) :
    ¬ Coverable use locked cell := by
  cases cell
  case tailPtr region | freePtr region | maxAddr region | numAllocated region =>
    cases region with
    | chunks => exact isPool.elim
    | pool base => exact id
  case nextPoolHdr => exact id
  all_goals exact isPool.elim

theorem FixedListCell.not_coverable {blocks : Nat → Prop} {locked : Bool}
    (isList : FixedListCell blocks cell) : ¬ Coverable use locked cell := by
  cases cell
  case startFixed | nextFixed => exact id
  all_goals exact isList.elim

theorem FormCell.not_coverable (isForm : FormCell use more cell) (notSpace : ¬ cell.IsSpace) :
    ¬ Coverable use false cell := by
  obtain ⟨chunk, isForm, unused, -⟩ := isForm
  cases cell
  case nextFreeForm => exact Bool.false_ne_true
  case freeList | maxContSpace | spotNext | spotSize =>
    obtain rfl := isForm
    exact not_or.mpr ⟨Bool.false_ne_true, unused⟩
  case freeSpace => exact absurd trivial notSpace
  all_goals exact isForm.elim

theorem TouchedCell.not_coverable {locked : Bool} (touched : TouchedCell world use more cell)
    (notSpace : ¬ cell.IsSpace) (unlocked : locked = false) : ¬ Coverable use locked cell := by
  subst unlocked
  rcases touched.2.2 with isRegion | isList | isForm
  · exact (@LargeCell.coverable_iff use cell false (.inl isRegion)).not.mpr Bool.false_ne_true
  · refine (@LargeCell.coverable_iff use cell false (.inr ?_)).not.mpr Bool.false_ne_true
    cases cell
    case startFreeForm | nextFreeForm => trivial
    all_goals exact isList.elim
  · exact isForm.not_coverable notSpace

theorem StoredCell.not_coverable {locked : Bool} (stored : StoredCell use more cell)
    (notSpace : ¬ cell.IsSpace) : ¬ Coverable use locked cell := by
  rcases stored with isSpace | ⟨pool, isPool, -⟩ | ⟨block, isBlock, unused, -⟩
  · exact absurd isSpace notSpace
  · exact isPool.not_coverable
  · cases cell
    case nextFixed => exact id
    case freeSpots | nextIndex | occupants =>
      obtain rfl := isBlock
      exact unused
    all_goals exact isBlock.elim

/-- A block of a new pool's header does not come from a spot that the outer transaction has
logged.  This matters if the request needs a small chunk of a new pool, and the inner transaction
can have a chunk for it. -/
def World.HeaderClear (world : World) (request : Nat) : Prop :=
  ∀ index, fixedSizes.idxOf? (max request minAllocBytes) = some index →
    FixedNeeded world.mem world.dram index → PoolNeeded world.mem world.dram →
      world.locked = false → ChunkAvailable world.mem →
        ∀ cell, HeaderCell world.mem world.dram cell → ¬ Covers world.images cell

theorem firstUnscanned_forms {mem : Cell → Nat} {dram : Dram} {forms : Nat → Prop}
    {size bound chunk p : Nat} (ok : FormsOk forms mem dram) (start : chunk = 0 ∨ forms chunk)
    (found : firstUnscanned mem size bound chunk = some p) : forms p := by
  induction bound generalizing chunk with
  | zero => cases found
  | succ bound ih =>
      rw [firstUnscanned] at found
      split_ifs at found with isEnd fits
      · exact Option.some.inj found ▸ start.resolve_left isEnd
      · exact ih (ok.next chunk (start.resolve_left isEnd)) found

theorem pickFreeForm_forms {mem : Cell → Nat} {dram : Dram} {forms : Nat → Prop} {size p : Nat}
    (ok : FormsOk forms mem dram) (picked : pickFreeForm mem dram size = some p) : forms p := by
  rcases Option.or_eq_some_iff.mp picked with listed | ⟨-, unscanned⟩
  · exact ok.listed p (List.mem_of_find?_eq_some listed)
  · exact firstUnscanned_forms ok ok.toScan unscanned

namespace Sound

theorem uncovered {locked : Bool} (sound : Sound use world) (isLocked : world.locked = locked)
    (notCoverable : ¬ Coverable use locked cell) : ¬ Covers world.images cell :=
  fun covered => notCoverable (isLocked ▸ sound.covers cell covered)

theorem unlocked_of_begin (sound : Sound use world) (unlocked : world.begin.outerLocked = false) :
    world.locked = false := by
  have both : (world.outerLocked || world.locked) = false := unlocked
  rw [sound.outerUnlocked] at both
  exact both

/-- The inner transaction for a small chunk stays clear of the log. -/
theorem fixedCell_uncovered {index : Nat} (sound : Sound use world) {request : Nat}
    (clear : world.HeaderClear request)
    (isIndex : fixedSizes.idxOf? (max request minAllocBytes) = some index)
    (fixed : FixedCell world index use more cell) (notSpace : ¬ cell.IsSpace) :
    ¬ Covers world.images cell := by
  obtain ⟨needed, committed⟩ := fixed
  rcases committed with isTouched | ((isFlex | isList) | isStored)
  · exact sound.uncovered rfl
      (isTouched.not_coverable notSpace (sound.unlocked_of_begin isTouched.1))
  · rcases isFlex with ⟨pool, isRegion, -⟩ | ⟨poolNeeded, unlocked, available, isNew⟩
    · exact sound.uncovered rfl isRegion.not_coverable
    · have isUnlocked := sound.unlocked_of_begin unlocked
      rcases isNew with isRegion | isHeader | ⟨chunk, isSpot, unused, -⟩ | ⟨pool, rfl, -⟩
      · refine sound.uncovered isUnlocked ?_
        exact (@LargeCell.coverable_iff use cell false (.inl isRegion)).not.mpr Bool.false_ne_true
      · exact clear index isIndex needed poolNeeded isUnlocked available cell isHeader
      · exact sound.uncovered isUnlocked
          (isSpot.coverable_iff.not.mpr (not_or.mpr ⟨Bool.false_ne_true, unused⟩))
      · exact sound.uncovered rfl id
  · exact sound.uncovered rfl isList.not_coverable
  · exact sound.uncovered rfl (isStored.not_coverable notSpace)

/-- What is stored in objects that are not in use has not been touched by an inner transaction. -/
theorem noValue (sound : Sound use world) (notOwned : ¬ Owned use cell) :
    world.permanent cell = none := by
  by_contra hasValue
  exact notOwned (sound.owned cell hasValue)

theorem formCell_noValue (sound : Sound use world) (isForm : FormCell use more cell)
    (notSpace : ¬ cell.IsSpace) : world.permanent cell = none := by
  obtain ⟨chunk, isForm, unused, -⟩ := isForm
  exact sound.noValue ((isForm.owned_iff notSpace).not.mpr unused)

theorem storedCell_noValue (sound : Sound use world) (isStored : StoredCell use more cell)
    (notSpace : ¬ cell.IsSpace) : world.permanent cell = none := by
  rcases isStored with isSpace | ⟨pool, isPool, unused, -⟩ | ⟨block, isBlock, unused, -⟩
  · exact absurd isSpace notSpace
  · exact sound.noValue (isPool.owned_iff.not.mpr unused)
  · exact sound.noValue (isBlock.owned_iff.not.mpr unused)

/-- An inner transaction has been rolled back. -/
theorem rolledBack (sound : Sound use world) (stopped : RolledBack use world after) : Kept after := by
  rcases stopped with progress | progress
  · refine sound.kept.progress progress (fun _ => False.elim) ?_ fun _ => False.elim
    exact fun cell isForm notSpace => ⟨sound.formCell_noValue isForm notSpace, id⟩
  · refine sound.kept.progress progress ?_ ?_ fun _ => False.elim
    · intro cell touched notSpace
      exact sound.uncovered rfl
        (touched.not_coverable notSpace (sound.unlocked_of_begin touched.1))
    · intro cell isStored notSpace
      exact ⟨sound.storedCell_noValue isStored notSpace,
        fun touched => notSpace (touched.not_stored isStored)⟩

/-- The transaction goes on with more in use. -/
theorem advance (sound : Sound use before) (progress : Progress touched logged unlogged before after)
    (chunks : ∀ p, use.chunks p → more.chunks p) (blocks : ∀ p, use.blocks p → more.blocks p)
    (consistent : Consistent more after.mem after.dram)
    (locked : before.locked = true → after.locked = true)
    (uncovered : ∀ cell, touched cell → ¬ cell.IsSpace → ¬ Covers before.images cell)
    (fresh : ∀ cell, unlogged cell → ¬ cell.IsSpace →
      before.permanent cell = none ∧ ¬ touched cell)
    (coverable : ∀ cell, logged cell → Coverable more after.locked cell)
    (owned : ∀ cell, touched cell → Owned more cell)
    (forms : ∀ chunk, more.forms chunk → after.locked = true ∨ more.chunks chunk) :
    Sound more after where
  consistent := consistent
  kept := by
    refine sound.kept.progress progress uncovered fresh fun cell isLogged isSpace => ?_
    cases cell
    case freeSpace => exact coverable _ isLogged
    all_goals exact isSpace
  covers cell covered := by
    obtain ⟨middle, commits, extended⟩ := progress
    rcases extended.covers cell covered with older | isLogged
    · rw [commits.images] at older
      exact (sound.covers cell older).mono chunks blocks locked
    · exact coverable cell isLogged
  owned cell hasValue := by
    obtain ⟨middle, commits, extended⟩ := progress
    rw [extended.permanent] at hasValue
    by_cases isSpace : cell.IsSpace
    · cases cell
      case freeSpace => trivial
      all_goals exact isSpace.elim
    · rcases commits.permanent cell isSpace with ⟨isTouched, -⟩ | ⟨same, -⟩
      · exact owned cell isTouched
      · exact (sound.owned cell (same ▸ hasValue)).mono chunks blocks
  forms := forms
  outerUnlocked := progress.outerLocked.trans sound.outerUnlocked

end Sound

/-! ## Requests -/

theorem SpotCell.not_space {chunk : Nat} (isSpot : SpotCell chunk cell) : ¬ cell.IsSpace := by
  intro isSpace
  cases cell
  case freeSpace => exact isSpot
  all_goals exact isSpace

theorem NewSpotCell.owned (isSpot : NewSpotCell use more cell) : Owned more cell := by
  obtain ⟨chunk, isSpot, -, isUsed⟩ := isSpot
  exact (isSpot.isForm.owned_iff isSpot.not_space).mpr isUsed

theorem TouchedCell.owned (touched : TouchedCell world use more cell)
    (forms : ∀ chunk, use.forms chunk → more.chunks chunk) : Owned more cell := by
  rcases touched.2.2 with isRegion | isList | ⟨chunk, isForm, -, isUsed⟩
  · exact isRegion.owned nofun
  · exact @ListCell.owned { more with forms := use.forms } cell isList forms
  · by_cases isSpace : cell.IsSpace
    · cases cell
      case freeSpace => trivial
      all_goals exact isSpace.elim
    · exact (isForm.owned_iff isSpace).mpr isUsed

theorem StoredCell.owned (isStored : StoredCell use more cell) : Owned more cell := by
  rcases isStored with isSpace | ⟨pool, isPool, -, isUsed⟩ | ⟨block, isBlock, -, isUsed⟩
  · cases cell
    case freeSpace => trivial
    all_goals exact isSpace.elim
  · exact isPool.owned_iff.mpr isUsed
  · exact isBlock.owned_iff.mpr isUsed

namespace Sound

theorem fixedCell_owned {index : Nat} (sound : Sound use world) (grows : use.Grows more)
    (consistent : Consistent more middle.mem middle.dram)
    (fixed : FixedCell world index use more cell) : Owned more cell := by
  have forms (isUnlocked : world.locked = false) (chunk : Nat) (isForm : use.forms chunk) :
      more.chunks chunk := by
    rcases sound.forms chunk isForm with isLocked | isUsed
    · rw [isUnlocked] at isLocked
      cases isLocked
    · exact grows.chunks chunk isUsed
  rcases fixed.2 with isTouched | ((isFlex | isList) | isStored)
  · exact isTouched.owned (forms (sound.unlocked_of_begin isTouched.1))
  · rcases isFlex with ⟨pool, isRegion, isPool⟩ | ⟨-, unlocked, -, isNew⟩
    · refine isRegion.owned fun other same => ?_
      exact consistent.poolChunk other (Region.pool.inj same ▸ isPool)
    · rcases isNew with isRegion | ⟨chunk, picked, isCarved⟩ | isSpot | ⟨pool, rfl, isPool⟩
      · exact isRegion.owned nofun
      · have isSpot := spotCell_of_mem_carvedCells isCarved
        refine (isSpot.isForm.owned_iff isSpot.not_space).mpr ?_
        exact forms (sound.unlocked_of_begin unlocked) chunk
          (pickFreeForm_forms sound.consistent.forms picked)
      · exact isSpot.owned
      · exact consistent.poolChunk pool isPool
  · exact isList.owned
  · exact isStored.owned

theorem forms_grow (sound : Sound use before) (grows : use.Grows more)
    (locked : before.locked = true → after.locked = true) (chunk : Nat)
    (isForm : more.forms chunk) : after.locked = true ∨ more.chunks chunk := by
  rcases grows.forms chunk isForm with old | isUsed
  · exact (sound.forms chunk old).imp locked (grows.chunks chunk)
  · exact .inr isUsed

/-- `FixSizeAllocator::alloc`. -/
theorem fixSizeAlloc_ends {index objSize request : Nat} (sound : Sound use world)
    (clear : world.HeaderClear request)
    (isIndex : fixedSizes.idxOf? (max request minAllocBytes) = some index) :
    Ends (fixSizeAlloc index objSize world) (fun _ after => ∃ more, Sound more after) Kept := by
  have count {more : InUse} {locked : Bool} (cell : Cell) (isCount : UsedCountCell more cell) :
      Coverable more locked cell := by
    obtain ⟨block, isCount, isUsed⟩ := isCount
    exact isCount.coverable_iff.mpr isUsed
  refine (AllocatorUnit.fixSizeAlloc_ends sound.consistent index objSize).mono ?_ ?_
  · rintro address after ⟨more, taken, consistent, sameLocked⟩
    have locked (isLocked : world.locked = true) : after.locked = true :=
      sameLocked.trans isLocked
    refine ⟨more, sound.advance taken.progress taken.grows.chunks taken.grows.blocks consistent
      locked ?_ (fun _ => False.elim) count ?_ (sound.forms_grow taken.grows locked)⟩
    · exact fun cell fixed notSpace => sound.fixedCell_uncovered clear isIndex fixed notSpace
    · exact fun cell fixed => sound.fixedCell_owned taken.grows consistent fixed
  · rintro after (rolledBack | ⟨more, taken⟩)
    · exact sound.rolledBack rolledBack
    · refine sound.kept.progress taken.progress ?_ (fun _ => False.elim) fun cell isCount => ?_
      · exact fun cell fixed notSpace => sound.fixedCell_uncovered clear isIndex fixed notSpace
      · intro isSpace
        cases cell
        case freeSpace => exact @count more false _ isCount
        all_goals exact isSpace

/-- `VariableAllocator::alloc` of at most a chunk. -/
theorem variableAlloc_small_ends {size : Nat} (small : size ≤ chunkSize) (sound : Sound use world) :
    Ends (variableAlloc size world) (fun _ after => ∃ more, Sound more after) Kept := by
  have consistent := sound.consistent
  have carved {chunk : Nat} {locked : Bool} (isLocked : world.locked = locked)
      (picked : pickFreeForm world.mem world.dram size = some chunk) (cell : Cell)
      (isCarved : cell ∈ carvedCells world.mem chunk size) : Coverable use locked cell := by
    refine (spotCell_of_mem_carvedCells isCarved).coverable_iff.mpr ?_
    exact isLocked ▸ sound.forms chunk (pickFreeForm_forms consistent.forms picked)
  have space (cell : Cell) (isSpace : cell.IsSpace) (notSpace : ¬ cell.IsSpace) :
      world.permanent cell = none ∧ ¬ False := absurd isSpace notSpace
  have newSpots {middle after : World} (carves : CarvesNew use.forms world middle after)
      (cell : Cell) (touched : TouchedCell world use
        (use.withForm (nextObject .chunks world.mem)) cell) (notSpace : ¬ cell.IsSpace) :
      ¬ Covers world.images cell :=
    sound.uncovered rfl (touched.not_coverable notSpace carves.unlocked)
  refine ((AllocatorUnit.variableAlloc_small_ends small consistent.forms
    (nextObject_ne_zero consistent.chunks)).and (variableAlloc_keepsSmall size world)).mono ?_ ?_
  · rintro address after ⟨⟨chunk, carves⟩ | ⟨-, middle, carves, ok, sameLocked⟩, sameSmall⟩
    · have locked (isLocked : world.locked = true) : after.locked = true :=
        carves.locked.trans isLocked
      refine ⟨use, sound.advance (Progress.of_extends carves.extended) (fun _ => id) (fun _ => id)
        (carves.consistent consistent sameSmall) locked (fun _ => False.elim) space
        (carved carves.locked.symm carves.picked) (fun _ => False.elim)
        (sound.forms_grow .refl locked)⟩
    · have grows := use.grows_withForm (nextObject .chunks world.mem)
      have locked (isLocked : world.locked = true) : after.locked = true :=
        sameLocked.trans isLocked
      have unlocked := carves.unlocked
      refine ⟨_, sound.advance (carves.progress consistent) grows.chunks grows.blocks
        (carves.consistent consistent ok sameSmall) locked (newSpots carves) ?_ ?_ ?_
        (sound.forms_grow grows locked)⟩
      · exact fun cell isSpace notSpace => absurd isSpace notSpace
      · rintro cell ⟨chunk, isSpot, -, isUsed⟩
        exact isSpot.coverable_iff.mpr (.inr isUsed)
      · refine fun cell touched => touched.owned fun chunk isForm => ?_
        rcases sound.forms chunk isForm with isLocked | isUsed
        · rw [unlocked] at isLocked
          cases isLocked
        · exact .inl isUsed
  · rintro after ⟨stops, -⟩
    cases stops with
    | carving picked extended =>
        refine sound.kept.progress (Progress.of_extends extended) (fun _ => False.elim) space ?_
        exact fun cell isCarved => (spotCell_of_mem_carvedCells isCarved).not_space
    | taking progress =>
        refine sound.kept.progress progress (fun _ => False.elim) ?_ fun _ => False.elim
        refine fun cell isForm notSpace => ⟨sound.noValue ?_, id⟩
        exact (isForm.owned_iff notSpace).not.mpr (nextObject_unused consistent.chunks)
    | carvingNew carves =>
        refine sound.kept.progress (carves.progress consistent) (newSpots carves) ?_ ?_
        · exact fun cell isSpace notSpace => absurd isSpace notSpace
        · rintro cell ⟨chunk, isSpot, -⟩
          exact isSpot.not_space

/-- Space behind the tail of the chunk allocator is not in use. -/
theorem tail_unused (sound : Sound use world) : ¬ use.chunks (world.mem (.tailPtr .chunks)) :=
  fun isUsed => (sound.consistent.chunks.below _ isUsed sound.consistent.chunks.tail.1).false

theorem storedForm_fresh (sound : Sound use world) (cell : Cell)
    (isForm : FreeFormCell (world.mem (.tailPtr .chunks)) cell) (notSpace : ¬ cell.IsSpace) :
    world.permanent cell = none ∧ ¬ False :=
  ⟨sound.noValue ((isForm.owned_iff notSpace).not.mpr sound.tail_unused), id⟩

/-- `VariableAllocator::alloc` of more than a chunk. -/
theorem variableAlloc_large_ends {size : Nat} (large : size > chunkSize) (sound : Sound use world) :
    Ends (variableAlloc size world) (fun _ after => ∃ more, Sound more after) Kept := by
  have consistent := sound.consistent
  have notSpace (cell : Cell) (isLarge : LargeCell cell) : ¬ cell.IsSpace := by
    rcases isLarge with isRegion | isList
    · exact isRegion.not_space
    · intro isSpace
      cases cell
      case freeSpace => exact isList
      all_goals exact isSpace
  refine ((AllocatorUnit.variableAlloc_large_ends large consistent.forms
    consistent.chunks.tail.2.ne').and (variableAlloc_keepsSmall size world)).mono ?_ ?_
  · rintro address after ⟨⟨extended, ⟨num, taken⟩, locked, ok⟩, sameSmall⟩
    have unchanged (cell : Cell) (isSmall : SmallCell cell) : after.mem cell = world.mem cell := by
      refine extended.same ?_ isSmall.not_form
      rintro (isRegion | isList)
      · exact isSmall.not_region isRegion
      · exact isSmall.not_list isList
    have maxAddr : after.mem (.maxAddr .chunks) = world.mem (.maxAddr .chunks) := by
      refine extended.same ?_ id
      rintro (isRegion | isList)
      · exact isRegion
      · exact isList
    refine ⟨{ use with
      forms := fun chunk => use.forms chunk ∨ chunk = world.mem (.tailPtr .chunks) }, ?_⟩
    refine sound.advance (Progress.of_extends extended) (fun _ => id) (fun _ => id)
      (consistent.withChunks ok (consistent.chunks.takesRun taken maxAddr).2 consistent.aligned
        (fun _ => id) sameSmall unchanged) (fun _ => locked) (fun _ => False.elim)
      sound.storedForm_fresh (fun cell isLarge => ?_) (fun _ => False.elim) fun _ _ => .inl locked
    exact isLarge.coverable_iff.mpr locked
  · rintro after ⟨extended, -⟩
    exact sound.kept.progress (Progress.of_extends extended) (fun _ => False.elim)
      sound.storedForm_fresh notSpace

/-- `ChunkAllocator::alloc`. -/
theorem allocChunk_ends {num : Nat} (sound : Sound use world) :
    Ends (allocChunk num world) (fun _ after => ∃ more, Sound more after) Kept := by
  have consistent := sound.consistent
  refine (AllocatorUnit.allocChunk_ends num).mono ?_ fun after extended =>
    sound.kept.progress (Progress.of_extends extended) (fun _ => False.elim) (fun _ => False.elim)
      fun cell isRegion => isRegion.not_space
  rintro p after ⟨extended, taken, -, locked, sameDram⟩
  have maxAddr : after.mem (.maxAddr .chunks) = world.mem (.maxAddr .chunks) := extended.same id id
  have chunks : RegionOk .chunks after.mem use.chunks := by
    rcases taken with ⟨-, taken⟩ | ⟨-, taken⟩
    · exact (consistent.chunks.takes taken maxAddr).2.2.mono fun q isUsed _ => .inl isUsed
    · exact (consistent.chunks.takesRun taken maxAddr).2
  have forms : FormsOk use.forms after.mem after.dram := by
    rw [sameDram]
    refine ⟨consistent.forms.nonzero, consistent.forms.listed, consistent.forms.toScan,
      consistent.forms.last, fun chunk => ?_⟩
    rw [extended.same id id]
    exact consistent.forms.next chunk
  refine ⟨use, sound.advance (Progress.of_extends extended) (fun _ => id) (fun _ => id)
    (consistent.withChunks forms chunks consistent.aligned (fun _ => id) (by rw [sameDram])
      fun cell isSmall => extended.same isSmall.not_region id) (fun _ => locked)
    (fun _ => False.elim) (fun _ => False.elim) (fun cell isRegion => ?_) (fun _ => False.elim)
    fun _ _ => .inl locked⟩
  exact (LargeCell.coverable_iff (.inl isRegion)).mpr locked

/-- `AllocatorUnit::alloc`. -/
theorem alloc_ends {request : Nat} (sound : Sound use world) (clear : world.HeaderClear request) :
    Ends (alloc request world) (fun _ after => ∃ more, Sound more after) Kept := by
  unfold alloc
  cases isIndex : fixedSizes.idxOf? (max request minAllocBytes) with
  | some index => exact sound.fixSizeAlloc_ends clear isIndex
  | none =>
      refine ends_ite (fun _ => sound.allocChunk_ends) fun _ => ?_
      by_cases large : max request minAllocBytes > chunkSize
      · exact sound.variableAlloc_large_ends large
      · exact sound.variableAlloc_small_ends (not_lt.mp large)

end Sound

/-! ## Runs of the outer transaction -/

/-- An outer transaction begins with consistent allocators. -/
structure Started (use : InUse) (state : State) : Prop where
  consistent : Consistent use state.world.mem state.world.dram
  forms : ∀ chunk, use.forms chunk → use.chunks chunk
  noImages : state.world.images = []
  nothingPermanent : ∀ cell, state.world.permanent cell = none
  unlocked : state.world.locked = false
  outerUnlocked : state.world.outerLocked = false
  running : state.thrown = false

def HeaderClear (state : State) : Label → Prop
  | .alloc request _ => state.world.HeaderClear request
  | _ => True

/-- What holds along a run. -/
structure Going (state : State) : Prop where
  kept : Kept state.world
  sound : state.thrown = false → ∃ use, Sound use state.world

theorem Started.going {state : State} (started : Started use state) : Going state := by
  have uncovered (cell : Cell) : ¬ Covers state.world.images cell := by
    rw [started.noImages]
    rintro ⟨image, isImage, -⟩
    exact List.not_mem_nil isImage
  have kept : Kept state.world := by
    refine ⟨fun cell value _ hasValue => ?_, fun cell _ => uncovered cell⟩
    rw [started.nothingPermanent] at hasValue
    cases hasValue
  refine ⟨kept, fun _ => ⟨use, started.consistent, kept, ?_, ?_, ?_, started.outerUnlocked⟩⟩
  · exact fun cell covered => absurd covered (uncovered cell)
  · exact fun cell hasValue => absurd (started.nothingPermanent cell) hasValue
  · exact fun chunk isForm => .inr (started.forms chunk isForm)

/-- A hash table rehashes. -/
theorem Going.setDram {state : State} {dram : Dram} (going : Going state)
    (consistent : ∀ use, Consistent use state.world.mem state.world.dram →
      Consistent use state.world.mem dram) : Going (state.setDram dram) := by
  refine ⟨⟨going.kept.inPlace, going.kept.spaces⟩, fun running => ?_⟩
  obtain ⟨use, sound⟩ := going.sound running
  exact ⟨use, consistent use sound.consistent, ⟨sound.kept.inPlace, sound.kept.spaces⟩,
    sound.covers, sound.owned, sound.forms, sound.outerUnlocked⟩

theorem step_going {state next : State} {label : Label} (going : Going state)
    (clear : HeaderClear state label) (stepped : step state label = some next) : Going next := by
  cases label with
  | alloc request room =>
      rw [step] at stepped
      by_cases thrown : state.thrown = true
      · rw [if_pos thrown] at stepped
        cases stepped
      · rw [if_neg thrown] at stepped
        obtain ⟨use, sound⟩ := going.sound (Bool.eq_false_of_not_eq_true thrown)
        let world : World := { state.world with room := room }
        have start : Sound use world :=
          ⟨sound.consistent, ⟨sound.kept.inPlace, sound.kept.spaces⟩, sound.covers, sound.owned,
            sound.forms, sound.outerUnlocked⟩
        have ends := @Sound.alloc_ends world use request start clear
        cases reached : alloc request world with
        | ok address after =>
            rw [reached] at ends stepped
            obtain ⟨more, isSound⟩ := ends
            obtain rfl := Option.some.inj stepped
            exact ⟨isSound.kept, fun _ => ⟨more, isSound⟩⟩
        | error failure after =>
            rw [reached] at ends stepped
            cases failure with
            | crash => cases stepped
            | outOfJournalSpace | badAlloc | lockTimeout =>
                obtain rfl := Option.some.inj stepped
                exact ⟨ends, nofun⟩
  | rehashFreeForm chunks =>
      simp only [step] at stepped
      split_ifs at stepped with isPerm
      obtain rfl := Option.some.inj stepped
      refine going.setDram fun use consistent => ?_
      exact { consistent with
        forms := ⟨consistent.forms.nonzero,
          fun chunk member => consistent.forms.listed chunk (isPerm.mem_iff.mpr member),
          consistent.forms.toScan, consistent.forms.last, consistent.forms.next⟩
        pools := ⟨consistent.pools.listed, consistent.pools.last, consistent.pools.next⟩
        fixed := ⟨consistent.fixed.listed, consistent.fixed.toScan, consistent.fixed.last,
          consistent.fixed.next⟩ }
  | rehashPools pools =>
      simp only [step] at stepped
      split_ifs at stepped with isPerm
      obtain rfl := Option.some.inj stepped
      refine going.setDram fun use consistent => consistent.withPools ?_ consistent.pools.last
      exact fun pool member => consistent.pools.listed pool (isPerm.mem_iff.mpr member)
  | rehashFixed index chunks =>
      simp only [step] at stepped
      split_ifs at stepped with isPerm
      obtain rfl := Option.some.inj stepped
      refine going.setDram fun use consistent => consistent.setFixedChunks ?_
      exact fun chunk member =>
        consistent.fixed.listed index chunk (isPerm.mem_iff.mpr member)

/-- In a run in which the headers of new pools stay clear of the outer transaction's log, what
inner transactions have committed survives an abort at the end. -/
theorem committedEffects_inPlace {state last : State} {labels : List Label}
    (started : ∃ use, Started use state) (clear : MeetsAlong step HeaderClear state labels)
    (reaches : run step state labels = some last) : last.InPlace := by
  obtain ⟨use, isStart⟩ := started
  have going : Going last :=
    run_invariant Going (fun _ _ _ => step_going) isStart.going clear reaches
  refine ⟨going.kept.inPlace, fun cell isSpace => ?_⟩
  exact undo_of_not_covers _ (going.kept.spaces cell isSpace)

/-- A unit with a free-form chunk that is empty, and a pool that is full. -/
def fullPool : State where
  world :=
    { mem := fun
        | .tailPtr .chunks => 3 * chunkSize
        | .maxAddr .chunks => 100 * chunkSize
        | .tailPtr (.pool 4194304) => 3 * chunkSize
        | .maxAddr (.pool 4194304) => 3 * chunkSize
        | .numAllocated (.pool 4194304) => maxObjsPerPool
        | .startFreeForm => chunkSize
        | .freeList 2097152 => headerSize
        | .freeSpace 2097152 => chunkSize - headerSize
        | .spotSize 2097152 24 => chunkSize - headerSize
        | .maxContSpace 2097152 => chunkSize - headerSize
        | _ => 0
      images := []
      dram :=
        { freeFormChunks := [chunkSize]
          freeFormToScan := 0
          lastFreeForm := chunkSize
          fixedChunks := fun _ => []
          fixedToScan := fun _ => 0
          lastFixed := fun _ => 0
          pools := []
          lastHdrScanned := 2 * chunkSize }
      locked := false
      outerLocked := false
      room := 0
      permanent := fun _ => none }
  thrown := false

theorem fullPool_started : ∃ use, Started use fullPool := by
  refine ⟨⟨(· = chunkSize), fun p => p = chunkSize ∨ p = 2 * chunkSize, (· = 2 * chunkSize),
    fun _ => False⟩, ?_, fun _ => .inl, rfl, fun _ => rfl, rfl, rfl, rfl⟩
  constructor
  · refine ⟨?_, ?_, .inl rfl, .inr rfl, fun _ _ => .inl rfl⟩
    · rintro chunk rfl
      decide
    · intro chunk member
      exact List.mem_singleton.mp member
  · refine ⟨nofun, rfl, fun _ _ => .inl rfl⟩
  · exact ⟨nofun, fun _ => .inl rfl, fun _ => .inl rfl, nofun⟩
  · rintro chunk (rfl | rfl)
    · exact Nat.dvd_refl _
    · exact Nat.dvd_mul_left _ _
  · refine ⟨⟨[], rfl, List.nodup_nil, nofun⟩, ?_, ?_⟩
    · rintro chunk (rfl | rfl) -
      · decide
      · decide
    · exact ⟨Nat.dvd_mul_left _ _, by decide⟩
  · rintro pool rfl
    exact .inr rfl
  · rintro pool rfl
    refine ⟨⟨[], rfl, List.nodup_nil, nofun⟩, nofun, ?_⟩
    exact ⟨by decide, by decide⟩
  · exact nofun
set_option maxRecDepth 10000 in
theorem committedEffects_inPlace_newPool :
    ∃ last, run step fullPool [.alloc 16 20, .alloc 100 10] = some last ∧ last.InPlace ∧
      last.world.permanent (.spotSize chunkSize headerSize) = some 2097072 := by
  have summary : (run step fullPool [.alloc 16 20, .alloc 100 10]).map (fun last =>
      last.world.permanent (.spotSize chunkSize headerSize)) = some (some 2097072) := by
    decide +kernel
  obtain ⟨last, reaches, isValue⟩ := Option.map_eq_some_iff.mp summary
  refine ⟨last, reaches, committedEffects_inPlace fullPool_started ?_ reaches, isValue⟩
  refine ⟨fun index _ _ _ _ _ cell _ => ?_, fun next _ => ⟨fun index isIndex => ?_,
    fun _ _ => trivial⟩⟩
  · rintro ⟨image, isImage, -⟩
    exact List.not_mem_nil isImage
  · cases isIndex

set_option maxRecDepth 10000 in
/-- A block of 100 bytes, then one of 16 bytes that needs a new pool: the abort gives the header
of the pool back to the free spot. -/
theorem committedEffects_lost :
    (∃ use, Started use fullPool) ∧
      ∃ last, run step fullPool [.alloc 100 10, .alloc 16 20] = some last ∧
        last.thrown = false ∧
        last.world.permanent (.spotSize chunkSize headerSize) = some 2096972 ∧
        last.afterAbort (.spotSize chunkSize headerSize) = 2097128 ∧ ¬ last.InPlace := by
  have summary : (run step fullPool [.alloc 100 10, .alloc 16 20]).map (fun last =>
      (last.thrown, last.world.permanent (.spotSize chunkSize headerSize),
        last.afterAbort (.spotSize chunkSize headerSize))) =
      some (false, some 2096972, 2097128) := by
    decide +kernel
  obtain ⟨last, reaches, isValue⟩ := Option.map_eq_some_iff.mp summary
  obtain ⟨running, rest⟩ := Prod.mk.inj isValue
  obtain ⟨isPermanent, isAfter⟩ := Prod.mk.inj rest
  refine ⟨fullPool_started, last, reaches, running, isPermanent, isAfter, fun inPlace => ?_⟩
  have kept := inPlace.1 _ _ id isPermanent
  rw [isAfter] at kept
  exact absurd kept (by decide)

end Pmgd.AllocatorUnit
