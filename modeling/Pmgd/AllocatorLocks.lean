import Pmgd.InnerTransactions

/-!
# The locks of the allocators

A transaction uses the first instance whose lock is free, and keeps it.  The lock of the chunk
allocator belongs to a transaction object: requests for whole chunks take it for the transaction
itself, requests that need another free-form chunk or another pool for the independent
transaction around them.  To the latter, the lock of the former is taken.
-/

namespace Pmgd.AllocatorUnit

open UndoLog ThrowingState LabelledRun

variable {world before after : World} {size : Nat}

/-! ## Steps that leave the lock alone -/

/-- Who has the lock of the chunk allocator. -/
def World.chunkLock (world : World) : Bool × Bool :=
  (world.locked, world.outerLocked)

theorem chunkLock_store {cell : Cell} {value : Nat} :
    (world.store cell value).chunkLock = world.chunkLock :=
  rfl

/-- A computation that takes no lock. -/
def Quiet {α : Type} (body : Alloc α) : Prop :=
  Spares .lockTimeout World.chunkLock body

theorem read_quiet (cell : Cell) : Quiet (read cell) :=
  fun _ => rfl

theorem store_quiet (cell : Cell) (value : Nat) : Quiet (store cell value) :=
  fun _ => rfl

theorem modifyDram_quiet (change : Dram → Dram) : Quiet (modifyDram change) :=
  fun _ => rfl

theorem log_quiet (cells : List Cell) : Quiet (log cells) := by
  intro world
  unfold log
  rw [get_bind]
  by_cases full : world.room = 0
  · rw [if_pos full]
    exact ⟨Failure.noConfusion, rfl⟩
  · rw [if_neg full]
    rfl

theorem write_quiet (cell : Cell) (value : Nat) : Quiet (write cell value) :=
  (log_quiet [cell]).bind fun _ => store_quiet cell value

theorem fixedAlloc_quiet (region : Region) : Quiet (fixedAlloc region) := by
  unfold fixedAlloc
  apply (log_quiet _).bind fun _ => ?_
  apply (read_quiet _).bind fun free => ?_
  apply (read_quiet _).bind fun tail => ?_
  apply (read_quiet _).bind fun count => ?_
  apply spares_ite
  · apply (log_quiet _).bind fun _ => ?_
    apply (read_quiet _).bind fun link => ?_
    apply (store_quiet _ _).bind fun _ => ?_
    apply (store_quiet _ _).bind fun _ => ?_
    exact (store_quiet _ _).bind fun _ => spares_pure
  · apply (read_quiet _).bind fun maxAddr => ?_
    apply spares_ite
    · exact spares_throw Failure.noConfusion
    · apply (store_quiet _ _).bind fun _ => ?_
      exact (store_quiet _ _).bind fun _ => spares_pure

theorem newFreeForm_quiet (chunk used : Nat) : Quiet (newFreeForm chunk used) := by
  unfold newFreeForm
  apply (store_quiet _ _).bind fun _ => ?_
  apply (store_quiet _ _).bind fun _ => ?_
  apply (store_quiet _ _).bind fun _ => ?_
  apply (store_quiet _ _).bind fun _ => ?_
  apply (store_quiet _ _).bind fun _ => ?_
  exact store_quiet _ _

theorem findMaxContSpace_quiet (chunk : Nat) : Quiet (findMaxContSpace chunk) := by
  unfold findMaxContSpace
  apply spares_get.bind fun world => ?_
  apply spares_ite
  · exact write_quiet _ _
  · exact spares_pure

theorem hasSpace_quiet (chunk : Nat) : Quiet (hasSpace chunk) :=
  (read_quiet _).bind fun _ => spares_pure

theorem appendFreeForm_quiet (chunk : Nat) : Quiet (appendFreeForm chunk) := by
  unfold appendFreeForm linkFreeForm
  refine Spares.bind ?_ fun _ => modifyDram_quiet _
  apply spares_get.bind fun world => ?_
  apply (read_quiet _).bind fun start => ?_
  apply spares_ite (write_quiet _ _)
  apply spares_ite
  · exact spares_throw Failure.noConfusion
  · exact write_quiet _ _

theorem passFreeForm_quiet (chunk : Nat) : Quiet (passFreeForm chunk) := by
  unfold passFreeForm
  apply (hasSpace_quiet chunk).bind fun space => ?_
  exact (read_quiet _).bind fun next => modifyDram_quiet _

theorem scanAllFreeForm_quiet (bound : Nat) : Quiet (scanAllFreeForm bound) := by
  induction bound with
  | zero => exact spares_throw Failure.noConfusion
  | succ bound ih =>
      unfold scanAllFreeForm
      apply spares_get.bind fun world => ?_
      apply spares_ite spares_pure
      exact (passFreeForm_quiet _).bind fun _ => ih

theorem clearOccupants_quiet (chunk words : Nat) : Quiet (clearOccupants chunk words) := by
  induction words with
  | zero => exact spares_pure
  | succ words ih => exact ih.bind fun _ => store_quiet _ _

theorem newFixed_quiet (chunk objSize : Nat) : Quiet (newFixed chunk objSize) := by
  unfold newFixed
  apply (store_quiet _ _).bind fun _ => ?_
  apply (store_quiet _ _).bind fun _ => ?_
  apply (store_quiet _ _).bind fun _ => ?_
  apply (clearOccupants_quiet chunk _).bind fun _ => ?_
  exact (read_quiet _).bind fun _ => store_quiet _ _

theorem appendFixed_quiet (index chunk : Nat) : Quiet (appendFixed index chunk) := by
  unfold appendFixed
  apply spares_get.bind fun world => ?_
  apply (read_quiet _).bind fun start => ?_
  apply spares_ite (write_quiet _ _)
  apply spares_ite
  · exact spares_throw Failure.noConfusion
  · exact write_quiet _ _

theorem fixedChunkAlloc_quiet (chunk objSize : Nat) : Quiet (fixedChunkAlloc chunk objSize) := by
  unfold fixedChunkAlloc
  apply spares_get.bind fun world => ?_
  apply spares_ite (spares_throw Failure.noConfusion)
  cases findIndex world.mem chunk objSize with
  | none => exact spares_throw Failure.noConfusion
  | some index =>
      apply (log_quiet _).bind fun _ => ?_
      apply (log_quiet _).bind fun _ => ?_
      apply (store_quiet _ _).bind fun _ => ?_
      apply (store_quiet _ _).bind fun _ => ?_
      exact (store_quiet _ _).bind fun _ => spares_pure

theorem setFixedChunks_quiet (index : Nat) (change : List Nat → List Nat) :
    Quiet (setFixedChunks index change) :=
  modifyDram_quiet _

/-! ## Blocks from free-form chunks -/

/-- An exception that is not about a lock. -/
def Silent (world : World) (failure : Failure) (after : World) : Prop :=
  failure ≠ .lockTimeout ∧ after.chunkLock = world.chunkLock

/-- A computation that takes no lock goes on. -/
theorem Quiet.goesOn {α : Type} {body : Alloc α} (quiet : Quiet body)
    (same : before.chunkLock = world.chunkLock) :
    EndsAs (body before) (fun _ after => after.chunkLock = world.chunkLock) (Silent world) := by
  apply (quiet before).mono
  · intro _ after still
    exact still.trans same
  · rintro failure after ⟨differs, still⟩
    exact ⟨differs, still.trans same⟩

theorem findSpot_ne_zero {mem : Cell → Nat} {chunk bound offset : Nat} {start prev : Cell}
    (found : findSpot mem chunk size bound start = some (prev, offset)) : offset ≠ 0 := by
  induction bound generalizing start with
  | zero => cases found
  | succ bound ih =>
      rw [findSpot] at found
      split_ifs at found with isEnd fits
      · obtain ⟨-, rfl⟩ := Prod.mk.inj (Option.some.inj found)
        exact isEnd
      · exact ih found

theorem takeSpot_silent {chunk offset : Nat} {prev : Cell} (nonzero : offset ≠ 0) :
    EndsAs (takeSpot chunk size prev offset world)
      (fun address after => address ≠ 0 ∧ after.chunkLock = world.chunkLock) (Silent world) := by
  unfold takeSpot
  rw [get_bind]
  apply EndsAs.ite
  · intro _
    apply EndsAs.bind (write_quiet _ _ world)
    intro _ after same
    exact ⟨by omega, same⟩
  · intro _
    apply EndsAs.bind (write_quiet _ _ world)
    intro _ middle same
    apply EndsAs.bind ((log_quiet _).goesOn same)
    intro _ after still
    exact ⟨by omega, still⟩

theorem freeFormAlloc_silent (chunk : Nat) :
    EndsAs (freeFormAlloc chunk size world)
      (fun address after => after.chunkLock = world.chunkLock ∧
        (address = 0 → after = world ∧ size > world.mem (.maxContSpace chunk)))
      (Silent world) := by
  unfold freeFormAlloc
  rw [get_bind]
  apply EndsAs.ite
  · intro tooLarge
    exact ⟨rfl, fun _ => ⟨rfl, tooLarge⟩⟩
  · intro _
    cases found : findSpot world.mem chunk size spotBound (.freeList chunk) with
    | none => exact ⟨Failure.noConfusion, rfl⟩
    | some place =>
        obtain ⟨prev, offset⟩ := place
        dsimp only
        apply EndsAs.bind (takeSpot_silent (findSpot_ne_zero found))
        rintro address middle ⟨nonzero, same⟩
        rw [store_bind]
        apply EndsAs.ite
        · intro _
          apply EndsAs.bind ((findMaxContSpace_quiet chunk).goesOn (chunkLock_store.trans same))
          intro _ after still
          exact ⟨still, fun isZero => absurd isZero nonzero⟩
        · intro _
          exact ⟨same, fun isZero => absurd isZero nonzero⟩

theorem allocAmong_silent (chunks : List Nat) :
    EndsAs (allocAmong size chunks world)
      (fun address after => after.chunkLock = world.chunkLock ∧
        (address = 0 → after = world ∧
          (chunks.find? fun chunk => decide (size ≤ world.mem (.maxContSpace chunk))) = none))
      (Silent world) := by
  induction chunks with
  | nil => exact ⟨rfl, fun _ => ⟨rfl, rfl⟩⟩
  | cons chunk chunks ih =>
      unfold allocAmong
      apply EndsAs.bind (freeFormAlloc_silent chunk)
      rintro address middle ⟨same, ifZero⟩
      apply EndsAs.ite
      · intro nonzero
        apply EndsAs.bind ((hasSpace_quiet chunk).goesOn same)
        intro space next still
        rw [modifyDram_bind]
        exact ⟨still, fun isZero => absurd isZero nonzero⟩
      · intro isZero
        obtain ⟨rfl, tooLarge⟩ := ifZero (not_not.mp isZero)
        rw [List.find?_cons_of_neg (by simpa using tooLarge)]
        exact ih

theorem allocScanning_silent (bound : Nat) :
    EndsAs (allocScanning size bound world)
      (fun address after => after.chunkLock = world.chunkLock ∧
        (address = 0 →
          firstUnscanned world.mem size bound world.dram.freeFormToScan = none))
      (Silent world) := by
  induction bound generalizing world with
  | zero => exact ⟨Failure.noConfusion, rfl⟩
  | succ bound ih =>
      unfold allocScanning
      rw [get_bind]
      apply EndsAs.ite
      · intro isEnd
        refine ⟨rfl, fun _ => ?_⟩
        rw [firstUnscanned, if_pos isEnd]
      · intro notEnd
        apply EndsAs.bind (freeFormAlloc_silent world.dram.freeFormToScan)
        rintro address middle ⟨same, ifZero⟩
        rw [pass_bind]
        apply EndsAs.ite
        · intro nonzero
          exact ⟨same, fun isZero => absurd isZero nonzero⟩
        · intro isZero
          obtain ⟨rfl, tooLarge⟩ := ifZero (not_not.mp isZero)
          rw [firstUnscanned, if_neg notEnd, if_neg (not_le.mpr tooLarge)]
          exact ih

/-! ## Chunks -/

/-- No lock has timed out, and none around the transaction is taken. -/
def Careful (failure : Failure) (after : World) : Prop :=
  failure ≠ .lockTimeout ∧ after.outerLocked = false

theorem outerLocked_of_chunkLock (same : after.chunkLock = world.chunkLock)
    (unlocked : world.outerLocked = false) : after.outerLocked = false :=
  (Prod.mk.inj same).2.trans unlocked

theorem careful_of_silent {α : Type} {result : EStateM.Result Failure World α}
    {good : α → World → Prop} (ends : EndsAs result good (Silent world))
    (unlocked : world.outerLocked = false) : EndsAs result good Careful :=
  ends.mono (fun _ _ => id) fun _ _ silent =>
    ⟨silent.1, outerLocked_of_chunkLock silent.2 unlocked⟩

theorem Quiet.careful {α : Type} {body : Alloc α} (quiet : Quiet body)
    (unlocked : before.outerLocked = false) :
    EndsAs (body before) (fun _ after => after.outerLocked = false) Careful := by
  apply careful_of_silent ((quiet before).mono ?_ fun _ _ => id) unlocked
  intro _ after same
  exact outerLocked_of_chunkLock same unlocked

theorem allocChunk_careful (num : Nat) (unlocked : world.outerLocked = false) :
    EndsAs (allocChunk num world) (fun _ after => after.outerLocked = false) Careful := by
  unfold allocChunk
  rw [get_bind, unlocked, if_neg Bool.false_ne_true, modify_bind]
  have start : ({ world with locked := true } : World).outerLocked = false := unlocked
  apply EndsAs.ite fun _ => (fixedAlloc_quiet .chunks).careful start
  intro _
  refine Quiet.careful ?_ start
  apply (read_quiet _).bind fun tail => ?_
  apply (read_quiet _).bind fun maxAddr => ?_
  apply spares_ite (spares_throw Failure.noConfusion)
  apply (write_quiet _ _).bind fun _ => ?_
  apply (read_quiet _).bind fun count => ?_
  exact (write_quiet _ _).bind fun _ => spares_pure

/-- An independent transaction leaves the locks of the one around it alone. -/
theorem inner_silent {α : Type} {body : Alloc α}
    (ends : EndsAs (body world.begin) (fun _ _ => True) fun failure _ => failure ≠ .lockTimeout) :
    EndsAs (inner body world) (fun _ after => after.chunkLock = world.chunkLock)
      (Silent world) := by
  unfold inner
  cases reached : body world.begin with
  | ok value after => rfl
  | error failure after =>
      rw [reached] at ends
      exact ⟨ends, rfl⟩

theorem allocFreeFormChunk_silent (isFree : world.chunkLock = (false, false)) :
    EndsAs (allocFreeFormChunk world) (fun _ after => after.chunkLock = world.chunkLock)
      (Silent world) := by
  have unlocked : world.begin.outerLocked = false := by
    obtain ⟨isUnlocked, isOuter⟩ := Prod.mk.inj isFree
    exact Bool.or_eq_false_iff.mpr ⟨isOuter, isUnlocked⟩
  apply inner_silent
  apply EndsAs.mono (EndsAs.bind (allocChunk_careful 1 unlocked) ?_) (fun _ _ _ => trivial)
    fun _ _ careful => careful.1
  · exact fun _ after => after.outerLocked = false
  · intro chunk after still
    apply EndsAs.bind ((newFreeForm_quiet chunk 0).careful still)
    intro _ next still
    apply EndsAs.bind ((appendFreeForm_quiet chunk).careful still)
    intro _ last still
    exact still

theorem allocLarge_careful (unlocked : world.outerLocked = false) :
    EndsAs (allocLarge size world) (fun _ after => after.outerLocked = false) Careful := by
  unfold allocLarge allocFreeFormChunks
  refine EndsAs.bind (EndsAs.ite (fun _ => ?_) fun _ => ?_) fun chunk after still => still
  · apply EndsAs.bind (allocChunk_careful _ unlocked)
    intro chunk after still
    refine Quiet.careful ?_ still
    apply (newFreeForm_quiet chunk _).bind fun _ => ?_
    apply (scanAllFreeForm_quiet chunkBound).bind fun _ => ?_
    exact (appendFreeForm_quiet chunk).bind fun _ => spares_pure
  · exact ⟨Failure.noConfusion, unlocked⟩

theorem variableAlloc_careful (unlocked : world.outerLocked = false)
    (isFree : size ≤ chunkSize → pickFreeForm world.mem world.dram size = none →
      world.locked = false) :
    EndsAs (variableAlloc size world) (fun _ after => after.outerLocked = false) Careful := by
  have kept {last : World} (same : last.chunkLock = world.chunkLock) : last.outerLocked = false :=
    outerLocked_of_chunkLock same unlocked
  unfold variableAlloc
  apply EndsAs.ite fun _ => allocLarge_careful unlocked
  intro small
  rw [get_bind]
  apply EndsAs.bind (careful_of_silent (allocAmong_silent world.dram.freeFormChunks) unlocked)
  rintro address middle ⟨same, ifZero⟩
  refine EndsAs.ite (fun _ => kept same) fun isZero => ?_
  obtain ⟨rfl, noneListed⟩ := ifZero (not_not.mp isZero)
  apply EndsAs.bind (careful_of_silent (allocScanning_silent chunkBound) unlocked)
  rintro address scanned ⟨same, ifZero⟩
  refine EndsAs.ite (fun _ => kept same) fun isZero => ?_
  have noPick : pickFreeForm middle.mem middle.dram size = none := by
    rw [pickFreeForm, noneListed, Option.none_or, ifZero (not_not.mp isZero)]
  have scannedFree : scanned.chunkLock = (false, false) := by
    rw [same, World.chunkLock, isFree (not_lt.mp small) noPick, unlocked]
  apply EndsAs.bind (careful_of_silent (allocFreeFormChunk_silent scannedFree) (kept same))
  intro chunk taken still
  apply EndsAs.bind (careful_of_silent (freeFormAlloc_silent chunk) (kept (still.trans same)))
  rintro address carved ⟨carvedSame, -⟩
  rw [hasSpace_bind, modifyDram_bind]
  have carvedUnlocked := kept (carvedSame.trans (still.trans same))
  apply EndsAs.ite
  · intro _
    exact ⟨Failure.noConfusion, carvedUnlocked⟩
  · intro _
    exact carvedUnlocked

/-! ## Pools and small chunks -/

/-- Nothing that is thrown is about a lock. -/
def Untimed {α : Type} (result : EStateM.Result Failure World α) : Prop :=
  EndsAs result (fun _ _ => True) fun failure _ => failure ≠ .lockTimeout

theorem Quiet.untimed {α : Type} {body : Alloc α} (quiet : Quiet body) (world : World) :
    Untimed (body world) :=
  (quiet world).mono (fun _ _ _ => trivial) fun _ _ silent => silent.1

theorem addNewPool_untimed (isFree : world.chunkLock = (false, false)) :
    Untimed (addNewPool world) := by
  obtain ⟨isUnlocked, isOuter⟩ := Prod.mk.inj isFree
  have careful : EndsAs (addNewPool world) (fun _ after => after.outerLocked = false) Careful := by
    unfold addNewPool
    apply EndsAs.bind (variableAlloc_careful isOuter fun _ _ => isUnlocked)
    intro _ middle unlocked
    apply EndsAs.bind (allocChunk_careful 1 unlocked)
    intro pool after still
    refine Quiet.careful ?_ still
    apply (store_quiet _ _).bind fun _ => ?_
    apply (store_quiet _ _).bind fun _ => ?_
    apply (store_quiet _ _).bind fun _ => ?_
    apply (store_quiet _ _).bind fun _ => ?_
    apply (store_quiet _ _).bind fun _ => ?_
    apply spares_get.bind fun last => ?_
    apply (write_quiet _ _).bind fun _ => ?_
    exact (modifyDram_quiet _).bind fun _ => spares_pure
  exact careful.mono (fun _ _ _ => trivial) fun _ _ ended => ended.1

theorem scanPools_silent (bound : Nat) :
    EndsAs (scanPools bound world)
      (fun pool after => after.chunkLock = world.chunkLock ∧
        (pool = 0 → firstPool world.mem bound world.dram.lastHdrScanned = none))
      (Silent world) := by
  induction bound generalizing world with
  | zero => exact ⟨Failure.noConfusion, rfl⟩
  | succ bound ih =>
      unfold scanPools
      rw [get_bind, read_bind]
      apply EndsAs.ite
      · intro isEnd
        refine ⟨rfl, fun _ => ?_⟩
        rw [firstPool, if_pos isEnd]
      · intro notEnd
        rw [modifyDram_bind, read_bind]
        apply EndsAs.ite
        · intro _
          exact ⟨rfl, fun isZero => absurd isZero notEnd⟩
        · intro isFull
          rw [firstPool, if_neg notEnd, if_neg isFull]
          exact ih

theorem flexAlloc_untimed (isFree : PoolNeeded world.mem world.dram →
    world.chunkLock = (false, false)) : Untimed (flexAlloc world) := by
  unfold flexAlloc
  rw [get_bind]
  cases isList : world.dram.pools with
  | cons pool pools =>
      refine Quiet.untimed ?_ world
      apply (fixedAlloc_quiet _).bind fun address => ?_
      apply (read_quiet _).bind fun count => ?_
      exact (modifyDram_quiet _).bind fun _ => spares_pure
  | nil =>
      apply EndsAs.bind ((scanPools_silent chunkBound).mono (fun _ _ => id) fun _ _ silent =>
        silent.1)
      rintro pool scanned ⟨same, ifZero⟩
      refine EndsAs.ite (fun _ => ?_) fun isZero => ?_
      · refine Quiet.untimed ?_ scanned
        apply (fixedAlloc_quiet _).bind fun address => ?_
        apply (read_quiet _).bind fun count => ?_
        exact (modifyDram_quiet _).bind fun _ => spares_pure
      · apply EndsAs.bind (addNewPool_untimed (same.trans (isFree ⟨isList, ifZero (not_not.mp isZero)⟩)))
        intro pool after _
        exact (fixedAlloc_quiet _).untimed after

theorem allocFixedChunk_silent (index objSize : Nat)
    (isFree : PoolNeeded world.mem world.dram → world.chunkLock = (false, false)) :
    EndsAs (allocFixedChunk index objSize world)
      (fun _ after => after.chunkLock = world.chunkLock) (Silent world) := by
  apply inner_silent
  have beginFree (needed : PoolNeeded world.begin.mem world.begin.dram) :
      world.begin.chunkLock = (false, false) := by
    obtain ⟨isUnlocked, isOuter⟩ := Prod.mk.inj (isFree needed)
    exact Prod.ext rfl (Bool.or_eq_false_iff.mpr ⟨isOuter, isUnlocked⟩)
  apply EndsAs.bind (flexAlloc_untimed beginFree)
  intro chunk after _
  refine Quiet.untimed ?_ after
  apply (newFixed_quiet chunk objSize).bind fun _ => ?_
  exact (appendFixed_quiet index chunk).bind fun _ => spares_pure

theorem scanFixed_silent (index bound : Nat) :
    EndsAs (scanFixed index bound world)
      (fun chunk after => after.chunkLock = world.chunkLock ∧
        (PoolNeeded after.mem after.dram → PoolNeeded world.mem world.dram) ∧
        (chunk = 0 → firstFixed world.mem bound (world.dram.fixedToScan index) = none))
      (Silent world) := by
  induction bound generalizing world with
  | zero => exact ⟨Failure.noConfusion, rfl⟩
  | succ bound ih =>
      unfold scanFixed
      rw [get_bind]
      apply EndsAs.ite
      · intro isEnd
        refine ⟨rfl, id, fun _ => ?_⟩
        rw [firstFixed, if_pos isEnd]
      · intro notEnd
        rw [read_bind, modifyDram_bind, read_bind]
        apply EndsAs.ite
        · intro _
          exact ⟨rfl, id, fun isZero => absurd isZero notEnd⟩
        · intro isFull
          rw [firstFixed, if_neg notEnd, if_neg isFull]
          apply (@ih { world with dram := _ }).mono
          · rintro chunk after ⟨same, needed, ifZero⟩
            refine ⟨same, needed, fun isZero => ?_⟩
            simpa only [Function.update_self] using ifZero isZero
          · exact fun _ _ => id

/-! ## Requests -/

theorem fixSizeAlloc_silent (index objSize : Nat)
    (isFree : FixedNeeded world.mem world.dram index → PoolNeeded world.mem world.dram →
      world.chunkLock = (false, false)) :
    EndsAs (fixSizeAlloc index objSize world) (fun _ after => after.chunkLock = world.chunkLock)
      (Silent world) := by
  unfold fixSizeAlloc
  rw [get_bind]
  cases isList : world.dram.fixedChunks index with
  | cons chunk chunks =>
      refine Quiet.goesOn ?_ rfl
      apply (fixedChunkAlloc_quiet _ _).bind fun address => ?_
      apply (read_quiet _).bind fun spots => ?_
      exact (setFixedChunks_quiet _ _).bind fun _ => spares_pure
  | nil =>
      apply EndsAs.bind (scanFixed_silent index chunkBound)
      rintro chunk scanned ⟨same, needed, ifZero⟩
      refine EndsAs.ite (fun _ => ?_) fun isZero => ?_
      · refine Quiet.goesOn ?_ same
        apply (fixedChunkAlloc_quiet _ _).bind fun address => ?_
        apply (read_quiet _).bind fun spots => ?_
        exact (setFixedChunks_quiet _ _).bind fun _ => spares_pure
      · have scannedFree (poolNeeded : PoolNeeded scanned.mem scanned.dram) :
            scanned.chunkLock = (false, false) :=
          same.trans (isFree ⟨isList, ifZero (not_not.mp isZero)⟩ (needed poolNeeded))
        apply EndsAs.bind ((allocFixedChunk_silent index objSize scannedFree).mono (fun _ _ => id)
          fun _ _ silent => ⟨silent.1, silent.2.trans same⟩)
        intro block taken still
        refine Quiet.goesOn ?_ (still.trans same)
        apply (modifyDram_quiet _).bind fun _ => ?_
        apply (fixedChunkAlloc_quiet _ _).bind fun address => ?_
        exact (setFixedChunks_quiet _ _).bind fun _ => spares_pure

/-- The request takes a chunk in an independent transaction: for a new pool of small chunks, or
for a new free-form chunk. -/
def World.NeedsInnerChunk (world : World) (request : Nat) : Prop :=
  let size := max request minAllocBytes
  match fixedSizes.idxOf? size with
  | some index => FixedNeeded world.mem world.dram index ∧ PoolNeeded world.mem world.dram
  | none =>
      ¬ isBorderline size ∧ size ≤ chunkSize ∧ pickFreeForm world.mem world.dram size = none

instance (mem : Cell → Nat) (dram : Dram) (index : Nat) : Decidable (FixedNeeded mem dram index) :=
  inferInstanceAs (Decidable (_ ∧ _))

instance (mem : Cell → Nat) (dram : Dram) : Decidable (PoolNeeded mem dram) :=
  inferInstanceAs (Decidable (_ ∧ _))

instance (world : World) (request : Nat) : Decidable (world.NeedsInnerChunk request) :=
  match isIndex : fixedSizes.idxOf? (max request minAllocBytes) with
  | some index =>
      decidable_of_iff (FixedNeeded world.mem world.dram index ∧ PoolNeeded world.mem world.dram)
        (by simp only [World.NeedsInnerChunk, isIndex])
  | none =>
      decidable_of_iff (¬ isBorderline (max request minAllocBytes) ∧
          max request minAllocBytes ≤ chunkSize ∧
          pickFreeForm world.mem world.dram (max request minAllocBytes) = none)
        (by simp only [World.NeedsInnerChunk, isIndex])

/-- `AllocatorUnit::alloc`. -/
theorem alloc_careful {request : Nat} (unlocked : world.outerLocked = false)
    (isFree : world.NeedsInnerChunk request → world.locked = false) :
    EndsAs (alloc request world) (fun _ after => after.outerLocked = false) Careful := by
  unfold alloc
  unfold World.NeedsInnerChunk at isFree
  dsimp only at isFree ⊢
  cases isIndex : fixedSizes.idxOf? (max request minAllocBytes) with
  | some index =>
      rw [isIndex] at isFree
      apply careful_of_silent (EndsAs.mono (fixSizeAlloc_silent index _ ?_) ?_ fun _ _ => id)
        unlocked
      · intro fixedNeeded poolNeeded
        exact Prod.ext (isFree ⟨fixedNeeded, poolNeeded⟩) unlocked
      · intro _ after same
        exact outerLocked_of_chunkLock same unlocked
  | none =>
      rw [isIndex] at isFree
      refine EndsAs.ite (fun _ => allocChunk_careful _ unlocked) fun notBorderline => ?_
      exact variableAlloc_careful unlocked fun small noPick => isFree ⟨notBorderline, small, noPick⟩

/-! ## Requests that cannot have their chunk -/

/-- The computation does not return. -/
def Fails {α : Type} (result : EStateM.Result Failure World α) : Prop :=
  EndsAs result (fun _ _ => False) fun _ _ => True

theorem EndsAs.fails {α β : Type} {body : Alloc α} {next : α → Alloc β} {good : α → World → Prop}
    {bad : Failure → World → Prop} (ends : EndsAs (body world) good bad)
    (rest : ∀ value after, good value after → Fails (next value after)) :
    Fails ((body >>= next) world) :=
  EndsAs.bind (ends.mono (fun _ _ => id) fun _ _ _ => trivial) rest

theorem allocChunk_fails (num : Nat) (locked : world.outerLocked = true) :
    Fails (allocChunk num world) := by
  unfold allocChunk
  rw [get_bind, if_pos locked]
  trivial

theorem inner_fails {α : Type} {body : Alloc α} (fails : Fails (body world.begin)) :
    Fails (inner body world) := by
  unfold inner
  cases reached : body world.begin with
  | ok value after =>
      rw [reached] at fails
      exact fails
  | error failure after => trivial

theorem begin_outerLocked (taken : world.chunkLock ≠ (false, false)) :
    world.begin.outerLocked = true := by
  by_contra free
  obtain ⟨isOuter, isUnlocked⟩ := Bool.or_eq_false_iff.mp (Bool.eq_false_of_not_eq_true free)
  exact taken (Prod.ext isUnlocked isOuter)

theorem allocAmong_eq_zero {chunks : List Nat}
    (noneListed : (chunks.find? fun chunk =>
      decide (size ≤ world.mem (.maxContSpace chunk))) = none) :
    allocAmong size chunks world = .ok 0 world := by
  induction chunks with
  | nil => rfl
  | cons chunk chunks ih =>
      have tooLarge : size > world.mem (.maxContSpace chunk) := by
        simpa using List.find?_eq_none.mp noneListed chunk List.mem_cons_self
      rw [List.find?_cons_of_neg (by simpa using tooLarge)] at noneListed
      have noSpot : freeFormAlloc chunk size world = .ok 0 world := by
        unfold freeFormAlloc
        rw [get_bind, if_pos tooLarge]
        rfl
      unfold allocAmong
      rw [bind_ok noSpot, if_neg (not_not.mpr rfl)]
      exact ih noneListed

theorem allocScanning_zero {bound : Nat}
    (noneUnscanned : firstUnscanned world.mem size bound world.dram.freeFormToScan = none) :
    EndsAs (allocScanning size bound world)
      (fun address after => address = 0 ∧ after.chunkLock = world.chunkLock) fun _ _ => True := by
  induction bound generalizing world with
  | zero => trivial
  | succ bound ih =>
      unfold allocScanning
      rw [get_bind]
      refine EndsAs.ite (fun _ => ⟨rfl, rfl⟩) fun notEnd => ?_
      rw [firstUnscanned, if_neg notEnd] at noneUnscanned
      have tooLarge : ¬ size ≤ world.mem (.maxContSpace world.dram.freeFormToScan) := by
        intro fits
        rw [if_pos fits] at noneUnscanned
        cases noneUnscanned
      rw [if_neg tooLarge] at noneUnscanned
      have noSpot : freeFormAlloc world.dram.freeFormToScan size world = .ok 0 world := by
        unfold freeFormAlloc
        rw [get_bind, if_pos (not_le.mp tooLarge)]
        rfl
      rw [bind_ok noSpot, pass_bind, if_neg (not_not.mpr rfl)]
      exact ih noneUnscanned

theorem allocFreeFormChunk_fails (taken : world.chunkLock ≠ (false, false)) :
    Fails (allocFreeFormChunk world) := by
  apply inner_fails
  apply EndsAs.bind (allocChunk_fails 1 (begin_outerLocked taken))
  exact fun _ _ => False.elim

theorem variableAlloc_fails (small : size ≤ chunkSize) (taken : world.chunkLock ≠ (false, false))
    (noPick : pickFreeForm world.mem world.dram size = none) :
    Fails (variableAlloc size world) := by
  obtain ⟨noneListed, noneUnscanned⟩ := Option.or_eq_none_iff.mp noPick
  unfold variableAlloc
  rw [if_neg (not_lt.mpr small), get_bind, bind_ok (allocAmong_eq_zero noneListed),
    if_neg (not_not.mpr rfl)]
  apply EndsAs.fails (allocScanning_zero noneUnscanned)
  rintro address scanned ⟨rfl, same⟩
  rw [if_neg (not_not.mpr rfl)]
  apply EndsAs.fails (allocFreeFormChunk_fails (same ▸ taken))
  exact fun _ _ => False.elim

/-- A block for the header of a pool may be found while the lock is taken. -/
theorem variableAlloc_keepsLock (small : size ≤ chunkSize)
    (taken : world.chunkLock ≠ (false, false)) :
    EndsAs (variableAlloc size world) (fun _ after => after.chunkLock = world.chunkLock)
      fun _ _ => True := by
  unfold variableAlloc
  rw [if_neg (not_lt.mpr small), get_bind]
  apply EndsAs.bind ((allocAmong_silent _).mono (fun _ _ => id) fun _ _ _ => trivial)
  rintro address middle ⟨same, -⟩
  refine EndsAs.ite (fun _ => same) fun _ => ?_
  apply EndsAs.bind ((allocScanning_silent _).mono (fun _ _ => id) fun _ _ _ => trivial)
  rintro address scanned ⟨still, -⟩
  have scannedSame := still.trans same
  refine EndsAs.ite (fun _ => scannedSame) fun _ => ?_
  apply EndsAs.bind (allocFreeFormChunk_fails (scannedSame ▸ taken))
  exact fun _ _ => False.elim

theorem addNewPool_fails (locked : world.outerLocked = true) : Fails (addNewPool world) := by
  have taken : world.chunkLock ≠ (false, false) := by
    intro free
    rw [(Prod.mk.inj free).2] at locked
    cases locked
  unfold addNewPool
  apply EndsAs.fails (variableAlloc_keepsLock (by decide) taken)
  intro _ middle same
  apply EndsAs.bind (allocChunk_fails 1 ((Prod.mk.inj same).2.trans locked))
  exact fun _ _ => False.elim

theorem scanPools_zero {bound : Nat}
    (noneUnscanned : firstPool world.mem bound world.dram.lastHdrScanned = none) :
    EndsAs (scanPools bound world)
      (fun pool after => pool = 0 ∧ after.chunkLock = world.chunkLock) fun _ _ => True := by
  induction bound generalizing world with
  | zero => trivial
  | succ bound ih =>
      unfold scanPools
      rw [get_bind, read_bind]
      refine EndsAs.ite (fun _ => ⟨rfl, rfl⟩) fun notEnd => ?_
      rw [firstPool, if_neg notEnd] at noneUnscanned
      rw [modifyDram_bind, read_bind]
      refine EndsAs.ite (fun isFree => ?_) fun isFull => ?_
      · rw [if_pos isFree] at noneUnscanned
        cases noneUnscanned
      · rw [if_neg isFull] at noneUnscanned
        exact ih noneUnscanned

theorem flexAlloc_fails (locked : world.outerLocked = true)
    (needed : PoolNeeded world.mem world.dram) : Fails (flexAlloc world) := by
  unfold flexAlloc
  rw [get_bind, needed.1]
  apply EndsAs.fails (scanPools_zero needed.2)
  rintro pool scanned ⟨rfl, same⟩
  rw [if_neg (not_not.mpr rfl)]
  apply EndsAs.bind (addNewPool_fails ((Prod.mk.inj same).2.trans locked))
  exact fun _ _ => False.elim

theorem allocFixedChunk_fails (index objSize : Nat) (taken : world.chunkLock ≠ (false, false))
    (needed : PoolNeeded world.mem world.dram) : Fails (allocFixedChunk index objSize world) := by
  apply inner_fails
  apply EndsAs.bind (flexAlloc_fails (begin_outerLocked taken) needed)
  exact fun _ _ => False.elim

theorem scanFixed_zero {index bound : Nat}
    (noneUnscanned : firstFixed world.mem bound (world.dram.fixedToScan index) = none) :
    EndsAs (scanFixed index bound world)
      (fun chunk after => chunk = 0 ∧ after.chunkLock = world.chunkLock ∧
        (PoolNeeded world.mem world.dram → PoolNeeded after.mem after.dram)) fun _ _ => True := by
  induction bound generalizing world with
  | zero => trivial
  | succ bound ih =>
      unfold scanFixed
      rw [get_bind]
      refine EndsAs.ite (fun _ => ⟨rfl, rfl, id⟩) fun notEnd => ?_
      rw [firstFixed, if_neg notEnd] at noneUnscanned
      rw [read_bind, modifyDram_bind, read_bind]
      refine EndsAs.ite (fun isFree => ?_) fun isFull => ?_
      · rw [if_pos isFree] at noneUnscanned
        cases noneUnscanned
      · rw [if_neg isFull] at noneUnscanned
        apply @ih { world with dram := _ }
        simpa only [Function.update_self] using noneUnscanned

theorem fixSizeAlloc_fails {index objSize : Nat} (taken : world.chunkLock ≠ (false, false))
    (fixedNeeded : FixedNeeded world.mem world.dram index)
    (poolNeeded : PoolNeeded world.mem world.dram) :
    Fails (fixSizeAlloc index objSize world) := by
  unfold fixSizeAlloc
  rw [get_bind, fixedNeeded.1]
  apply EndsAs.fails (scanFixed_zero fixedNeeded.2)
  rintro chunk scanned ⟨rfl, same, needed⟩
  rw [if_neg (not_not.mpr rfl)]
  apply EndsAs.fails (allocFixedChunk_fails index objSize (same ▸ taken) (needed poolNeeded))
  exact fun _ _ => False.elim

/-- A request that takes a chunk in an independent transaction does not return while the
transaction itself has the lock. -/
theorem alloc_fails {request : Nat} (locked : world.locked = true)
    (needed : world.NeedsInnerChunk request) : Fails (alloc request world) := by
  have taken : world.chunkLock ≠ (false, false) := by
    intro free
    rw [(Prod.mk.inj free).1] at locked
    cases locked
  unfold alloc
  unfold World.NeedsInnerChunk at needed
  dsimp only at needed ⊢
  cases isIndex : fixedSizes.idxOf? (max request minAllocBytes) with
  | some index =>
      rw [isIndex] at needed
      exact fixSizeAlloc_fails taken needed.1 needed.2
  | none =>
      rw [isIndex] at needed
      obtain ⟨notBorderline, small, noPick⟩ := needed
      rw [if_neg notBorderline]
      exact variableAlloc_fails small taken noPick

/-! ## A transaction and the allocator instances -/

/-- The owners of the locks of the instances; the instance that the transaction has, where `none`
is -1; what the unit of each instance finds; the exceptions so far.

The units share the words of the chunk allocator.  Only the unit that the transaction has sees
what the transaction does to them. -/
structure Session (Tx : Type) where
  lockOwners : List (Option Tx)
  allocId : Option Nat
  units : Nat → World
  thrown : List Failure

namespace Session

variable {Tx : Type} [DecidableEq Tx] {tx : Tx} {session next : Session Tx}

/-- `NUM_ATTEMPTS`. -/
def numAttempts : Nat :=
  3

/-- What `AllocatorLock::try_lock` returns. -/
def tryLock (tx : Tx) (owner : Option Tx) : Bool :=
  decide (owner = some tx ∨ owner = none)

/-- `Allocator::get_allocator`.  No other transaction changes an owner between two attempts. -/
def getAllocator (tx : Tx) : Nat → EStateM Failure (Session Tx) Nat
  | 0 => throw .lockTimeout
  | attempts + 1 => do
      match (← get).lockOwners.findIdx? (tryLock tx) with
      | some allocId =>
          modify fun session =>
            { session with lockOwners := session.lockOwners.set allocId (some tx) }
          return allocId
      | none => getAllocator tx attempts

/-- `AllocatorUnit::alloc` of an instance. -/
def allocInUnit (allocId size : Nat) : EStateM Failure (Session Tx) Nat := fun session =>
  match AllocatorUnit.alloc size (session.units allocId) with
  | .ok address world =>
      .ok address { session with units := Function.update session.units allocId world }
  | .error failure world =>
      .error failure { session with units := Function.update session.units allocId world }

/-- `Allocator::alloc`. -/
def alloc (tx : Tx) (size : Nat) : EStateM Failure (Session Tx) Nat := do
  match (← get).allocId with
  | some allocId => allocInUnit allocId size
  | none =>
      let allocId ← getAllocator tx numAttempts
      modify fun session => { session with allocId := some allocId }
      allocInUnit allocId size

/-- The transaction calls `Allocator::alloc`, or a hash table of its unit rehashes.  It may go on
after an exception. -/
def step (tx : Tx) (session : Session Tx) : Label → Option (Session Tx)
  | .alloc size room =>
      let units := fun allocId => { session.units allocId with room := room }
      match alloc tx size { session with units := units } with
      | .ok _ after => some after
      | .error .crash _ => none
      | .error failure after => some { after with thrown := after.thrown ++ [failure] }
  | label =>
      session.allocId.bind fun allocId =>
        (AllocatorUnit.step ⟨session.units allocId, false⟩ label).map fun state =>
          { session with units := Function.update session.units allocId state.world }

/-- A transaction begins while no other one is running. -/
structure Alone (session : Session Tx) : Prop where
  hasInstance : session.lockOwners ≠ []
  unowned : ∀ owner ∈ session.lockOwners, owner = none
  noAllocator : session.allocId = none
  unlocked : ∀ allocId, (session.units allocId).chunkLock = (false, false)
  nothingThrown : session.thrown = []

/-- A request that takes a chunk in an independent transaction comes before those that take the
lock of the chunk allocator for the transaction itself. -/
def LockFree (session : Session Tx) : Label → Prop
  | .alloc size _ =>
      ∀ allocId ∈ session.allocId, (session.units allocId).NeedsInnerChunk size →
        (session.units allocId).locked = false
  | _ => True

/-- What holds along a run. -/
structure Settled (tx : Tx) (session : Session Tx) : Prop where
  fresh : session.allocId = none →
    (∃ allocId, session.lockOwners.findIdx? (tryLock tx) = some allocId) ∧
      ∀ allocId, (session.units allocId).locked = false
  unlocked : ∀ allocId, (session.units allocId).outerLocked = false
  neverThrown : .lockTimeout ∉ session.thrown

omit [DecidableEq Tx] in
theorem allocInUnit_careful {allocId size : Nat}
    (unlocked : ∀ id, (session.units id).outerLocked = false)
    (isFree : (session.units allocId).NeedsInnerChunk size →
      (session.units allocId).locked = false)
    (assigned : session.allocId ≠ none) :
    EndsAs (allocInUnit allocId size session)
      (fun _ after => after.allocId ≠ none ∧ after.thrown = session.thrown ∧
        ∀ id, (after.units id).outerLocked = false)
      (fun failure after => failure ≠ .lockTimeout ∧ after.allocId ≠ none ∧
        after.thrown = session.thrown ∧ ∀ id, (after.units id).outerLocked = false) := by
  have careful := alloc_careful (unlocked allocId) isFree
  have updated {world : World} (still : world.outerLocked = false) (id : Nat) :
      (Function.update session.units allocId world id).outerLocked = false := by
    by_cases same : id = allocId
    · rw [same, Function.update_self]
      exact still
    · rw [Function.update_of_ne same]
      exact unlocked id
  unfold allocInUnit
  cases reached : AllocatorUnit.alloc size (session.units allocId) with
  | ok address world =>
      rw [reached] at careful
      exact ⟨assigned, rfl, updated careful⟩
  | error failure world =>
      rw [reached] at careful
      exact ⟨careful.1, assigned, rfl, updated careful.2⟩

theorem Alone.settled (alone : Alone session) : Settled tx session where
  fresh _ := by
    refine ⟨?_, fun allocId => (Prod.mk.inj (alone.unlocked allocId)).1⟩
    cases isOwners : session.lockOwners with
    | nil => exact absurd isOwners alone.hasInstance
    | cons owner owners =>
        have unowned : owner = none := alone.unowned owner (isOwners ▸ List.mem_cons_self)
        exact ⟨0, by simp [unowned, List.findIdx?_cons, tryLock]⟩
  unlocked allocId := (Prod.mk.inj (alone.unlocked allocId)).2
  neverThrown := by
    rw [alone.nothingThrown]
    exact List.not_mem_nil

theorem alloc_careful {size : Nat} (settled : Settled tx session)
    (isFree : ∀ allocId ∈ session.allocId, (session.units allocId).NeedsInnerChunk size →
      (session.units allocId).locked = false) :
    EndsAs (alloc tx size session)
      (fun _ after => after.allocId ≠ none ∧ after.thrown = session.thrown ∧
        ∀ id, (after.units id).outerLocked = false)
      (fun failure after => failure ≠ .lockTimeout ∧ after.allocId ≠ none ∧
        after.thrown = session.thrown ∧ ∀ id, (after.units id).outerLocked = false) := by
  unfold alloc
  rw [get_bind]
  cases isAssigned : session.allocId with
  | some allocId =>
      apply allocInUnit_careful settled.unlocked (isFree allocId isAssigned)
      rw [isAssigned]
      exact Option.some_ne_none allocId
  | none =>
      obtain ⟨⟨allocId, isFirst⟩, unlocked⟩ := settled.fresh isAssigned
      have acquires : getAllocator tx numAttempts session =
          .ok allocId { session with lockOwners := session.lockOwners.set allocId (some tx) } := by
        rw [numAttempts, getAllocator, get_bind, isFirst]
        rfl
      dsimp only
      rw [bind_ok acquires, modify_bind]
      exact allocInUnit_careful settled.unlocked (fun _ => unlocked allocId)
        (Option.some_ne_none allocId)

theorem Settled.of_alloc {last : Session Tx} {thrown : List Failure} (settled : Settled tx session)
    (assigned : last.allocId ≠ none) (sameThrown : last.thrown = session.thrown)
    (unlocked : ∀ id, (last.units id).outerLocked = false) (others : .lockTimeout ∉ thrown) :
    Settled tx { last with thrown := last.thrown ++ thrown } where
  fresh isNone := absurd isNone assigned
  unlocked := unlocked
  neverThrown := by
    rw [sameThrown, List.mem_append]
    exact not_or.mpr ⟨settled.neverThrown, others⟩

/-- The tables of a unit do not matter for the locks. -/
theorem outerLocked_of_rehash {state last : State} {label : Label}
    (isRehash : ∀ size room, label ≠ .alloc size room)
    (stepped : AllocatorUnit.step state label = some last) :
    last.world.outerLocked = state.world.outerLocked := by
  cases label with
  | alloc size room => exact absurd rfl (isRehash size room)
  | rehashFreeForm chunks | rehashPools pools | rehashFixed index chunks =>
      rw [AllocatorUnit.step] at stepped
      obtain ⟨-, isLast⟩ := Option.ite_none_right_eq_some.mp stepped
      obtain rfl := Option.some.inj isLast
      rfl

theorem Settled.rehash {label : Label} (settled : Settled tx session)
    (isRehash : ∀ size room, label ≠ .alloc size room)
    (stepped : (session.allocId.bind fun allocId =>
      (AllocatorUnit.step ⟨session.units allocId, false⟩ label).map fun state =>
        { session with units := Function.update session.units allocId state.world }) =
      some next) : Settled tx next := by
  obtain ⟨allocId, isAssigned, mapped⟩ := Option.bind_eq_some_iff.mp stepped
  obtain ⟨state, rehashed, rfl⟩ := Option.map_eq_some_iff.mp mapped
  refine ⟨fun isNone => ?_, fun id => ?_, settled.neverThrown⟩
  · rw [isAssigned] at isNone
    cases isNone
  · dsimp only
    by_cases same : id = allocId
    · subst same
      rw [Function.update_self, outerLocked_of_rehash isRehash rehashed]
      exact settled.unlocked id
    · rw [Function.update_of_ne same]
      exact settled.unlocked id

theorem settled_step {label : Label} (settled : Settled tx session)
    (free : LockFree session label) (stepped : step tx session label = some next) :
    Settled tx next := by
  cases label with
  | alloc size room =>
      let units : Nat → World := fun allocId => { session.units allocId with room := room }
      have start : Settled tx { session with units := units } :=
        ⟨settled.fresh, settled.unlocked, settled.neverThrown⟩
      have careful := alloc_careful start free
      rw [step] at stepped
      cases reached : alloc tx size { session with units := units } with
      | ok address after =>
          rw [reached] at careful stepped
          obtain ⟨assigned, sameThrown, unlocked⟩ := careful
          obtain rfl := Option.some.inj stepped
          have others := settled.of_alloc assigned sameThrown unlocked List.not_mem_nil
          rwa [List.append_nil] at others
      | error failure after =>
          rw [reached] at careful stepped
          obtain ⟨differs, assigned, sameThrown, unlocked⟩ := careful
          have others : Settled tx { after with thrown := after.thrown ++ [failure] } := by
            apply settled.of_alloc assigned sameThrown unlocked
            rw [List.mem_singleton]
            exact differs.symm
          cases failure with
          | crash => cases stepped
          | outOfJournalSpace | badAlloc | lockTimeout =>
              obtain rfl := Option.some.inj stepped
              exact others
  | rehashFreeForm chunks | rehashPools pools | rehashFixed index chunks =>
      apply settled.rehash ?_ stepped
      intro size room isAlloc
      cases isAlloc

/-! ### Runs without an exception -/

theorem getAllocator_thrown (attempts : Nat) :
    EndsAs (getAllocator tx attempts session) (fun _ after => after.thrown = session.thrown)
      fun _ after => after.thrown = session.thrown := by
  induction attempts with
  | zero => rfl
  | succ attempts ih =>
      unfold getAllocator
      rw [get_bind]
      cases session.lockOwners.findIdx? (tryLock tx) with
      | none => exact ih
      | some allocId => rfl

omit [DecidableEq Tx] in
theorem allocInUnit_thrown (allocId size : Nat) :
    EndsAs (allocInUnit allocId size session) (fun _ after => after.thrown = session.thrown)
      fun _ after => after.thrown = session.thrown := by
  unfold allocInUnit
  cases AllocatorUnit.alloc size (session.units allocId) with
  | ok address world => rfl
  | error failure world => rfl

theorem alloc_thrown (size : Nat) :
    EndsAs (alloc tx size session) (fun _ after => after.thrown = session.thrown)
      fun _ after => after.thrown = session.thrown := by
  unfold alloc
  rw [get_bind]
  cases session.allocId with
  | some allocId => exact allocInUnit_thrown allocId size
  | none =>
      apply EndsAs.bind (getAllocator_thrown numAttempts)
      intro allocId middle same
      rw [modify_bind]
      apply (allocInUnit_thrown allocId size).mono
      · intro _ after still
        exact still.trans same
      · intro _ after still
        exact still.trans same

theorem thrown_prefix {label : Label} (stepped : step tx session label = some next) :
    session.thrown <+: next.thrown := by
  cases label with
  | alloc size room =>
      let units : Nat → World := fun allocId => { session.units allocId with room := room }
      have same := @alloc_thrown _ _ tx { session with units := units } size
      rw [step] at stepped
      cases reached : alloc tx size { session with units := units } with
      | ok address after =>
          rw [reached] at same stepped
          obtain rfl := Option.some.inj stepped
          exact same ▸ List.prefix_refl _
      | error failure after =>
          rw [reached] at same stepped
          have appended : session.thrown <+: after.thrown ++ [failure] :=
            same ▸ List.prefix_append _ _
          cases failure with
          | crash => cases stepped
          | outOfJournalSpace | badAlloc | lockTimeout =>
              obtain rfl := Option.some.inj stepped
              exact appended
  | rehashFreeForm chunks | rehashPools pools | rehashFixed index chunks =>
      obtain ⟨allocId, -, mapped⟩ := Option.bind_eq_some_iff.mp stepped
      obtain ⟨state, -, rfl⟩ := Option.map_eq_some_iff.mp mapped
      exact List.prefix_refl _

theorem lockFree_of_step {label : Label} (stepped : step tx session label = some next)
    (nothingThrown : next.thrown = []) : LockFree session label := by
  cases label with
  | alloc size room =>
      intro allocId isAssigned needed
      by_contra notFree
      let units : Nat → World := fun allocId => { session.units allocId with room := room }
      have fails : Fails (AllocatorUnit.alloc size (units allocId)) :=
        alloc_fails (Bool.eq_true_of_not_eq_false notFree) needed
      have unfolded : alloc tx size { session with units := units } =
          allocInUnit allocId size { session with units := units } := by
        unfold alloc
        rw [get_bind, Option.mem_def.mp isAssigned]
      rw [step, unfolded] at stepped
      unfold allocInUnit at stepped
      dsimp only [units] at stepped fails
      cases reached : AllocatorUnit.alloc size { session.units allocId with room := room } with
      | ok address world =>
          rw [reached] at fails
          exact fails
      | error failure world =>
          rw [reached] at stepped
          cases failure with
          | crash => cases stepped
          | outOfJournalSpace | badAlloc | lockTimeout =>
              obtain rfl := Option.some.inj stepped
              exact List.append_ne_nil_of_right_ne_nil _ (List.cons_ne_nil _ _) nothingThrown
  | rehashFreeForm chunks | rehashPools pools | rehashFixed index chunks => trivial

theorem nothingThrown_of_run {last : Session Tx} {labels : List Label}
    (reaches : run (step tx) session labels = some last) (nothingThrown : last.thrown = []) :
    session.thrown = [] := by
  induction labels generalizing session with
  | nil =>
      rw [run_nil, Option.some.injEq] at reaches
      exact reaches ▸ nothingThrown
  | cons label labels ih =>
      rw [run_cons, Option.bind_eq_some_iff] at reaches
      obtain ⟨next, stepped, rest⟩ := reaches
      exact List.prefix_nil.mp (ih rest ▸ thrown_prefix stepped)

theorem lockFree_of_run {last : Session Tx} {labels : List Label}
    (reaches : run (step tx) session labels = some last) (nothingThrown : last.thrown = []) :
    MeetsAlong (step tx) LockFree session labels := by
  induction labels generalizing session with
  | nil => trivial
  | cons label labels ih =>
      rw [run_cons, Option.bind_eq_some_iff] at reaches
      obtain ⟨next, stepped, rest⟩ := reaches
      refine ⟨lockFree_of_step stepped (nothingThrown_of_run rest nothingThrown), ?_⟩
      intro other otherStep
      obtain rfl := Option.some.inj (stepped.symm.trans otherStep)
      exact ih rest

/-- In a run of a transaction that is alone, no request times out on a lock, provided that none
takes a chunk in an independent transaction after the lock of the chunk allocator has been taken
for the transaction itself; and where one does, not all requests return. -/
theorem neverThrown_of_run {last : Session Tx} {labels : List Label} (alone : Alone session)
    (reaches : run (step tx) session labels = some last) :
    (MeetsAlong (step tx) LockFree session labels → .lockTimeout ∉ last.thrown) ∧
      (last.thrown = [] → MeetsAlong (step tx) LockFree session labels) := by
  refine ⟨fun free => ?_, lockFree_of_run reaches⟩
  exact (run_invariant (Settled tx) (fun _ _ _ => settled_step) alone.settled free
    reaches).neverThrown

/-- One instance, with a unit that has a free-form chunk that is empty, and a pool that is full. -/
def fullPoolSession : Session Unit :=
  ⟨[none], none, fun _ => fullPool.world, []⟩

theorem fullPoolSession_alone : fullPoolSession.Alone :=
  ⟨nofun, fun _ member => List.mem_singleton.mp member, rfl, fun _ => rfl, rfl⟩

instance decidableLockFree (session : Session Unit) : ∀ label, Decidable (LockFree session label)
  | .alloc size _ =>
      inferInstanceAs (Decidable (∀ allocId ∈ session.allocId,
        (session.units allocId).NeedsInnerChunk size → (session.units allocId).locked = false))
  | .rehashFreeForm _ | .rehashPools _ | .rehashFixed _ _ => inferInstanceAs (Decidable True)

set_option maxRecDepth 10000 in
/-- A block of a new pool first, then a whole chunk, then another block of the pool. -/
theorem neverThrown_of_run_fullPool :
    ∃ last, run (step ()) fullPoolSession [.alloc 16 20, .alloc chunkSize 10, .alloc 16 10] =
        some last ∧ .lockTimeout ∉ last.thrown ∧ last.lockOwners = [some ()] := by
  have summary : (run (step ()) fullPoolSession
      [.alloc 16 20, .alloc chunkSize 10, .alloc 16 10]).map Session.lockOwners =
        some [some ()] := by
    decide +kernel
  obtain ⟨last, reaches, isOwner⟩ := Option.map_eq_some_iff.mp summary
  refine ⟨last, reaches, (neverThrown_of_run fullPoolSession_alone reaches).1 ?_, isOwner⟩
  decide +kernel

set_option maxRecDepth 10000 in
/-- A whole chunk first: the pool for the block cannot have one. -/
theorem request_timesOut_afterChunk :
    fullPoolSession.Alone ∧
      ∃ last, run (step ()) fullPoolSession [.alloc chunkSize 10, .alloc 16 20] = some last ∧
        .lockTimeout ∈ last.thrown := by
  have summary : (run (step ()) fullPoolSession [.alloc chunkSize 10, .alloc 16 20]).map
      Session.thrown = some [.lockTimeout] := by
    decide +kernel
  obtain ⟨last, reaches, isThrown⟩ := Option.map_eq_some_iff.mp summary
  refine ⟨fullPoolSession_alone, last, reaches, ?_⟩
  rw [isThrown]
  exact List.mem_singleton_self _

end Session

end Pmgd.AllocatorUnit
