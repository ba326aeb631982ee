import Pmgd.AllocatorUnit
import Pmgd.Lib.ThrowingState

/-!
# What allocations log and change

A step inside a transaction extends its log: the words that it changes have an image in the log,
except for the contents of new chunks and the count of the free space of a chunk, which are
stored without one.  An inner transaction leaves the log of the outer one alone.

Every allocation is of the form that some inner transactions commit first and then the
transaction itself goes on, also when an exception ends it.
-/

namespace Pmgd.AllocatorUnit

open UndoLog ThrowingState

namespace World

def store (world : World) (cell : Cell) (value : Nat) : World :=
  { world with mem := Function.update world.mem cell value }

def log (world : World) (cells : List Cell) : World :=
  { world with
    images := world.images ++ [snapshot (· ∈ cells) world.mem]
    room := world.room - 1 }

end World

/-- The words that no transaction logs. -/
def Cell.IsSpace : Cell → Prop
  | .freeSpace _ => True
  | _ => False

variable {world before middle after : World} {logged unlogged touched : Cell → Prop}
  {cell : Cell} {value : Nat} {cells : List Cell}

@[simp]
theorem mem_log : (world.log cells).mem = world.mem :=
  rfl

theorem mem_store : (world.store cell value).mem = Function.update world.mem cell value :=
  rfl

theorem covers_log :
    Covers (world.log cells).images cell ↔ Covers world.images cell ∨ cell ∈ cells :=
  covers_concat_snapshot _ _ _ _

/-! ## Extending the log -/

/-- Some words may be logged, and of these the ones with an image may change, and some others. -/
structure Extends (logged unlogged : Cell → Prop) (before after : World) : Prop where
  undone : ∀ cell, ¬ unlogged cell →
    undo after.images after.mem cell = undo before.images before.mem cell
  older : ∀ cell, Covers before.images cell → Covers after.images cell
  covers : ∀ cell, Covers after.images cell → Covers before.images cell ∨ logged cell
  changed : ∀ cell, after.mem cell ≠ before.mem cell →
    logged cell ∧ Covers after.images cell ∨ unlogged cell
  permanent : after.permanent = before.permanent
  outerLocked : after.outerLocked = before.outerLocked

namespace Extends

theorem refl : Extends logged unlogged world world where
  undone _ _ := rfl
  older _ := id
  covers _ := .inl
  changed _ different := absurd rfl different
  permanent := rfl
  outerLocked := rfl

theorem trans (first : Extends logged unlogged before middle)
    (second : Extends logged unlogged middle after) : Extends logged unlogged before after where
  undone cell isLogged := (second.undone cell isLogged).trans (first.undone cell isLogged)
  older cell covered := second.older cell (first.older cell covered)
  covers cell covered := (second.covers cell covered).elim (first.covers cell) .inr
  changed cell different := by
    by_cases same : after.mem cell = middle.mem cell
    · exact (first.changed cell (same ▸ different)).imp_left (And.imp_right (second.older cell))
    · exact second.changed cell same
  permanent := second.permanent.trans first.permanent
  outerLocked := second.outerLocked.trans first.outerLocked

theorem mono {more others : Cell → Prop} (extended : Extends logged unlogged before after)
    (isMore : ∀ cell, logged cell → more cell) (isOther : ∀ cell, unlogged cell → others cell) :
    Extends more others before after where
  undone cell isLogged := extended.undone cell fun isUnlogged => isLogged (isOther cell isUnlogged)
  older := extended.older
  covers cell covered := (extended.covers cell covered).imp_right (isMore cell)
  changed cell different :=
    (extended.changed cell different).imp (And.imp_left (isMore cell)) (isOther cell)
  permanent := extended.permanent
  outerLocked := extended.outerLocked

theorem log (extended : Extends logged unlogged before world)
    (isLogged : ∀ cell ∈ cells, logged cell) :
    Extends logged unlogged before (world.log cells) where
  undone cell isUnlogged :=
    (congrFun (undo_concat_snapshot world.images (· ∈ cells) world.mem) cell).trans
      (extended.undone cell isUnlogged)
  older cell covered := covers_log.mpr (.inl (extended.older cell covered))
  covers cell covered :=
    (covers_log.mp covered).elim (extended.covers cell) fun member => .inr (isLogged cell member)
  changed cell different :=
    (extended.changed cell different).imp_left
      (And.imp_right fun covered => covers_log.mpr (.inl covered))
  permanent := extended.permanent
  outerLocked := extended.outerLocked

theorem store (extended : Extends logged unlogged before world)
    (isCovered : logged cell ∧ Covers world.images cell ∨ unlogged cell) :
    Extends logged unlogged before (world.store cell value) where
  undone other isUnlogged := by
    refine Eq.trans (undo_congr fun uncovered => ?_) (extended.undone other isUnlogged)
    refine Function.update_of_ne ?_ _ _
    rintro rfl
    exact isCovered.elim (fun both => uncovered both.2) isUnlogged
  older := extended.older
  covers := extended.covers
  changed other different := by
    by_cases same : other = cell
    · exact same ▸ isCovered
    · have unchanged : (world.store cell value).mem other = world.mem other :=
        Function.update_of_ne same _ world.mem
      exact extended.changed other (unchanged ▸ different)
  permanent := extended.permanent
  outerLocked := extended.outerLocked

/-- `TransactionImpl::write`. -/
theorem write (extended : Extends logged unlogged before world) (isLogged : logged cell) :
    Extends logged unlogged before ((world.log [cell]).store cell value) :=
  (extended.log (by simpa using isLogged)).store
    (.inl ⟨isLogged, covers_log.mpr (.inr List.mem_cons_self)⟩)

/-- A change of something else than words and images. -/
theorem of_eq (extended : Extends logged unlogged before world) (mem : after.mem = world.mem)
    (images : after.images = world.images) (permanent : after.permanent = world.permanent)
    (outerLocked : after.outerLocked = world.outerLocked) :
    Extends logged unlogged before after where
  undone cell isUnlogged := by
    rw [mem, images]
    exact extended.undone cell isUnlogged
  older := images ▸ extended.older
  covers := images ▸ extended.covers
  changed := by
    rw [mem, images]
    exact extended.changed
  permanent := permanent.trans extended.permanent
  outerLocked := outerLocked.trans extended.outerLocked

theorem same (extended : Extends logged unlogged before after) (notLogged : ¬ logged cell)
    (notUnlogged : ¬ unlogged cell) : after.mem cell = before.mem cell := by
  by_contra different
  exact (extended.changed cell different).elim (fun both => notLogged both.1) notUnlogged

end Extends

/-! ## Inner commits -/

/-- Inner transactions may have touched some words, and are remembered. -/
structure Commits (touched : Cell → Prop) (before after : World) : Prop where
  images : after.images = before.images
  same : ∀ cell, ¬ touched cell → after.mem cell = before.mem cell
  permanent : ∀ cell, ¬ cell.IsSpace →
    touched cell ∧ after.permanent cell = some (after.mem cell) ∨
      after.permanent cell = before.permanent cell ∧ after.mem cell = before.mem cell
  outerLocked : after.outerLocked = before.outerLocked

/-- Inner transactions commit, then the running one goes on. -/
def Progress (touched logged unlogged : Cell → Prop) (before after : World) : Prop :=
  ∃ middle, Commits touched before middle ∧ Extends logged unlogged middle after

namespace Commits

theorem refl : Commits touched world world where
  images := rfl
  same _ _ := rfl
  permanent _ _ := .inr ⟨rfl, rfl⟩
  outerLocked := rfl

theorem mono {more : Cell → Prop} (commits : Commits touched before after)
    (isMore : ∀ cell, touched cell → more cell) : Commits more before after where
  images := commits.images
  same cell notMore := commits.same cell fun isTouched => notMore (isMore cell isTouched)
  permanent cell notSpace :=
    (commits.permanent cell notSpace).imp_left (And.imp_left (isMore cell))
  outerLocked := commits.outerLocked

end Commits

namespace Progress

theorem of_extends (extended : Extends logged unlogged before after) :
    Progress touched logged unlogged before after :=
  ⟨before, Commits.refl, extended⟩

theorem mono {more moreLogged others : Cell → Prop}
    (progress : Progress touched logged unlogged before after)
    (isMore : ∀ cell, touched cell → more cell)
    (isLogged : ∀ cell, logged cell → moreLogged cell)
    (isOther : ∀ cell, unlogged cell → others cell) :
    Progress more moreLogged others before after := by
  obtain ⟨middle, commits, extended⟩ := progress
  exact ⟨middle, commits.mono isMore, extended.mono isLogged isOther⟩

theorem extend (progress : Progress touched logged unlogged before middle)
    (extended : Extends logged unlogged middle after) :
    Progress touched logged unlogged before after := by
  obtain ⟨start, commits, first⟩ := progress
  exact ⟨start, commits, first.trans extended⟩

/-- An inner transaction that commits. -/
theorem commit (progress : Progress touched logged unlogged world.begin after)
    (apart : ∀ cell, touched cell → unlogged cell → cell.IsSpace) :
    Commits (fun cell => touched cell ∨ logged cell ∨ unlogged cell) world
      (world.commit after) := by
  obtain ⟨middle, commits, extended⟩ := progress
  have noImages (cell : Cell) : ¬ Covers middle.images cell := by
    rw [commits.images]
    rintro ⟨image, isImage, -⟩
    exact List.not_mem_nil isImage
  constructor
  · rfl
  · intro cell notTouched
    rw [not_or, not_or] at notTouched
    exact (extended.same notTouched.2.1 notTouched.2.2).trans (commits.same cell notTouched.1)
  · intro cell notSpace
    by_cases isTouched : after.mem cell ≠ world.mem cell ∨ Covers after.images cell
    · refine .inl ⟨?_, if_pos isTouched⟩
      by_contra notAny
      rw [not_or, not_or] at notAny
      rcases isTouched with different | covered
      · exact different ((extended.same notAny.2.1 notAny.2.2).trans
          (commits.same cell notAny.1))
      · exact (extended.covers cell covered).elim (noImages cell) notAny.2.1
    · have isPermanent : (world.commit after).permanent cell = middle.permanent cell :=
        (if_neg isTouched).trans (congrFun extended.permanent cell)
      rw [not_or, not_not] at isTouched
      rw [isPermanent]
      rcases commits.permanent cell notSpace with ⟨byInner, isValue⟩ | ⟨old, -⟩
      · refine .inl ⟨.inl byInner, isValue.trans (congrArg some ?_)⟩
        by_contra different
        rcases extended.changed cell (Ne.symm different) with ⟨-, covered⟩ | isUnlogged
        · exact isTouched.2 covered
        · exact notSpace (apart cell byInner isUnlogged)
      · exact .inr ⟨old, isTouched.1⟩
  · rfl

/-- An inner transaction that an exception ends. -/
theorem rollBack (progress : Progress touched logged unlogged world.begin after) :
    Progress touched (fun _ => False) unlogged world (world.rollBack after) := by
  obtain ⟨middle, commits, extended⟩ := progress
  have restored (cell : Cell) (notUnlogged : ¬ unlogged cell) :
      (world.rollBack after).mem cell = middle.mem cell := by
    refine (extended.undone cell notUnlogged).trans (undo_of_not_covers _ ?_)
    rw [commits.images]
    rintro ⟨image, isImage, -⟩
    exact List.not_mem_nil isImage
  refine ⟨{ middle with images := world.images, outerLocked := world.outerLocked },
    ⟨rfl, commits.same, commits.permanent, rfl⟩, ?_⟩
  refine ⟨fun cell notUnlogged => undo_congr fun _ => restored cell notUnlogged, fun _ => id,
    fun _ => .inl, fun cell different => .inr ?_, extended.permanent, rfl⟩
  by_contra notUnlogged
  exact different (restored cell notUnlogged)

end Progress

/-! ## Rules -/

section Rules

variable {α : Type} {next : Unit → Alloc α} {good : α → World → Prop} {bad : World → Prop}

@[simp]
theorem read_bind (next : Nat → Alloc α) :
    (read cell >>= next) world = next (world.mem cell) world :=
  rfl

@[simp]
theorem modifyDram_bind (change : Dram → Dram) :
    (modifyDram change >>= next) world = next () { world with dram := change world.dram } :=
  rfl

@[simp]
theorem hasSpace_bind {chunk : Nat} (next : Bool → Alloc α) :
    (hasSpace chunk >>= next) world =
      next (decide (world.mem (.maxContSpace chunk) ≥ minAllocBytes)) world :=
  rfl

@[simp]
theorem store_bind :
    (AllocatorUnit.store cell value >>= next) world = next () (world.store cell value) :=
  rfl

theorem log_eq : AllocatorUnit.log cells world =
    if world.room = 0 then .error .outOfJournalSpace world else .ok () (world.log cells) := by
  unfold AllocatorUnit.log
  rw [get_bind]
  split_ifs with full
  · rfl
  · rfl

theorem ends_log_bind (stopped : bad world)
    (rest : Ends (next () (world.log cells)) good bad) :
    Ends ((AllocatorUnit.log cells >>= next) world) good bad := by
  refine @Ends.bind _ _ _ _ _ (fun _ after => after = world.log cells) _ _ _ _ ?_ ?_
  · rw [log_eq]
    split_ifs
    · exact stopped
    · rfl
  · rintro ⟨⟩ after rfl
    exact rest

theorem ends_write_bind (stopped : bad world)
    (rest : Ends (next () ((world.log [cell]).store cell value)) good bad) :
    Ends ((write cell value >>= next) world) good bad := by
  rw [write, bind_assoc]
  exact ends_log_bind stopped rest

theorem ends_write {good : Unit → World → Prop} (stopped : bad world)
    (rest : good () ((world.log [cell]).store cell value)) :
    Ends (write cell value world) good bad := by
  have written := @ends_write_bind world cell value Unit pure good bad stopped rest
  rwa [bind_pure] at written

theorem ends_inner {body : Alloc α} {middle : α → World → Prop} {stopped : World → Prop}
    (runs : Ends (body world.begin) middle stopped)
    (commits : ∀ value after, middle value after → good value (world.commit after))
    (rolledBack : ∀ after, stopped after → bad (world.rollBack after)) :
    Ends (inner body world) good bad := by
  rw [inner]
  cases reached : body world.begin with
  | ok value after =>
      rw [reached] at runs
      exact commits value after runs
  | error failure after =>
      rw [reached] at runs
      exact rolledBack after runs

end Rules

/-! ## Fixed allocators -/

/-- The words that a fixed allocator changes. -/
def RegionCell (region : Region) : Cell → Prop
  | .tailPtr other | .freePtr other | .numAllocated other | .link other _ => other = region
  | _ => False

/-- An object is taken off the free list, or at the tail. -/
inductive Takes (region : Region) (mem : Cell → Nat) (p : Nat) (mem' : Cell → Nat) : Prop
  | listed (isFree : mem (.freePtr region) = p) (nonzero : p ≠ 0)
      (next : mem' (.freePtr region) = mem (.link region p) - mem (.link region p) % 2)
      (tail : mem' (.tailPtr region) = mem (.tailPtr region))
      (links : ∀ other ≠ p, mem' (.link region other) = mem (.link region other))
  | grown (isEmpty : mem (.freePtr region) = 0) (isTail : mem (.tailPtr region) = p)
      (fits : p + region.size ≤ mem (.maxAddr region)) (next : mem' (.freePtr region) = 0)
      (tail : mem' (.tailPtr region) = p + region.size)
      (links : ∀ other, mem' (.link region other) = mem (.link region other))

theorem fixedAlloc_ends (region : Region) :
    Ends (fixedAlloc region world)
      (fun p after => Extends (RegionCell region) (fun _ => False) world after ∧
        Takes region world.mem p after.mem ∧ after.dram = world.dram ∧
        after.locked = world.locked)
      (fun after => Extends (RegionCell region) (fun _ => False) world after) := by
  have header : Extends (RegionCell region) (fun _ => False) world
      (world.log [.tailPtr region, .freePtr region, .numAllocated region]) :=
    Extends.refl.log (by simp [RegionCell])
  unfold fixedAlloc
  refine ends_log_bind Extends.refl ?_
  simp only [read_bind, mem_log]
  refine ends_ite (fun isFree => ?_) fun isEmpty => ?_
  · have linked := @Extends.log _ _ _ _ [.link region (world.mem (.freePtr region))] header
      (by simp [RegionCell])
    refine ends_log_bind header ?_
    simp only [read_bind, store_bind, ends_pure, mem_log]
    refine ⟨?_, ?_, rfl, rfl⟩
    · refine ((linked.store ?_).store ?_).store ?_
      all_goals refine .inl ⟨rfl, ?_⟩
      all_goals simp [World.store, covers_log]
    · refine .listed rfl isFree ?_ ?_ ?_
      · simp [mem_store]
      · simp [mem_store]
      · intro other different
        simp [mem_store, different]
  · simp only [read_bind, mem_log]
    refine ends_ite (fun _ => header) fun fits => ?_
    simp only [store_bind, ends_pure]
    rw [not_not] at isEmpty
    refine ⟨?_, ?_, rfl, rfl⟩
    · refine (header.store ?_).store ?_
      all_goals refine .inl ⟨rfl, ?_⟩
      all_goals simp [World.store, covers_log]
    · refine .grown isEmpty rfl (not_lt.mp fits) ?_ ?_ ?_
      · simp [mem_store, isEmpty]
      · simp [mem_store]
      · intro other
        simp [mem_store]

/-- Several chunks are taken at the tail. -/
structure TakesRun (num : Nat) (mem : Cell → Nat) (p : Nat) (mem' : Cell → Nat) : Prop where
  isTail : mem (.tailPtr .chunks) = p
  next : mem' (.freePtr .chunks) = mem (.freePtr .chunks)
  tail : mem' (.tailPtr .chunks) = p + num * chunkSize % wordValues
  links : ∀ other, mem' (.link .chunks other) = mem (.link .chunks other)

theorem allocChunk_ends (num : Nat) :
    Ends (allocChunk num world)
      (fun p after => Extends (RegionCell .chunks) (fun _ => False) world after ∧
        (num = 1 ∧ Takes .chunks world.mem p after.mem ∨
          num ≠ 1 ∧ TakesRun num world.mem p after.mem) ∧
        world.outerLocked = false ∧ after.locked = true ∧ after.dram = world.dram)
      (fun after => Extends (RegionCell .chunks) (fun _ => False) world after) := by
  unfold allocChunk
  rw [get_bind]
  refine ends_ite (fun _ => Extends.refl) fun unlocked => ?_
  rw [Bool.not_eq_true] at unlocked
  let locked : World := { world with locked := true }
  have entered : Extends (RegionCell .chunks) (fun _ => False) world locked :=
    Extends.refl.of_eq rfl rfl rfl rfl
  rw [modify_bind]
  refine ends_ite (fun isOne => ?_) fun several => ?_
  · refine (@fixedAlloc_ends locked .chunks).mono ?_ fun after extended => entered.trans extended
    rintro p after ⟨extended, takes, sameDram, sameLocked⟩
    exact ⟨entered.trans extended, .inl ⟨isOne, takes⟩, unlocked, sameLocked, sameDram⟩
  · rw [read_bind, read_bind]
    refine ends_ite (fun _ => entered) fun fits => ?_
    have first := @Extends.write _ _ _ _ _ (locked.mem (.tailPtr .chunks) +
      num * chunkSize % wordValues) entered (by rfl : RegionCell .chunks (.tailPtr .chunks))
    refine ends_write_bind entered ?_
    rw [read_bind]
    refine ends_write_bind first ?_
    rw [ends_pure]
    refine ⟨first.write rfl, .inr ⟨several, rfl, ?_, ?_, ?_⟩, unlocked, rfl, rfl⟩
    · simp [mem_store]
    · simp [mem_store]
    · intro other
      simp [mem_store]

/-! ## Free-form chunks -/

/-- The words of a free-form chunk that an allocation from it may log. -/
def SpotCell (chunk : Nat) : Cell → Prop
  | .freeList other | .maxContSpace other | .spotNext other _ | .spotSize other _ => other = chunk
  | _ => False

/-- The words that the constructor of a free-form chunk stores. -/
def FreeFormCell (chunk : Nat) : Cell → Prop
  | .nextFreeForm other | .freeSpace other => other = chunk
  | cell => SpotCell chunk cell

/-- The words after a block has been taken from a free spot, but for the maximum. -/
def carved (mem : Cell → Nat) (chunk size : Nat) (prev : Cell) (offset : Nat) : Cell → Nat :=
  let rest := mem (.spotSize chunk offset) - size
  Function.update
    (if rest ≥ minAllocBytes then Function.update mem (.spotSize chunk offset) rest
      else Function.update mem prev (mem (.spotNext chunk offset)))
    (.freeSpace chunk) ((mem (.freeSpace chunk) + wordValues - size) % wordValues)

/-- The words that taking a block from a free-form chunk logs: the size of the spot, or the link
to the spot and the spot itself, and the maximum if it changes. -/
def carvedCells (mem : Cell → Nat) (chunk size : Nat) : List Cell :=
  match findSpot mem chunk size spotBound (.freeList chunk) with
  | none => []
  | some (prev, offset) =>
      let free := mem (.spotSize chunk offset)
      let after := carved mem chunk size prev offset
      (if free - size ≥ minAllocBytes then [.spotSize chunk offset]
        else [prev, .spotNext chunk offset, .spotSize chunk offset]) ++
      if free = mem (.maxContSpace chunk) ∧
          after (.maxContSpace chunk) ≠ maxSpot after chunk spotBound (after (.freeList chunk)) 0 then
        [.maxContSpace chunk]
      else []

theorem findSpot_prev {mem : Cell → Nat} {chunk size bound : Nat} {start prev : Cell}
    {offset : Nat} (isStart : SpotCell chunk start)
    (found : findSpot mem chunk size bound start = some (prev, offset)) :
    SpotCell chunk prev := by
  induction bound generalizing start with
  | zero => cases found
  | succ bound ih =>
      rw [findSpot] at found
      split_ifs at found
      · obtain ⟨rfl, -⟩ := Prod.mk.inj (Option.some.inj found)
        exact isStart
      · exact @ih (.spotNext chunk (mem start)) rfl found

theorem spotCell_of_mem_carvedCells {mem : Cell → Nat} {chunk size : Nat} {cell : Cell}
    (member : cell ∈ carvedCells mem chunk size) : SpotCell chunk cell := by
  rw [carvedCells] at member
  split at member
  · cases member
  · rename_i prev offset found
    have isPrev := @findSpot_prev _ _ _ _ (.freeList chunk) _ _ rfl found
    rcases List.mem_append.mp member with inSpot | isMax
    · split_ifs at inSpot
      · obtain rfl := List.mem_singleton.mp inSpot
        rfl
      · simp only [List.mem_cons, List.not_mem_nil, or_false] at inSpot
        rcases inSpot with rfl | rfl | rfl
        · exact isPrev
        · rfl
        · rfl
    · split_ifs at isMax
      · obtain rfl := List.mem_singleton.mp isMax
        rfl
      · cases isMax

/-- The log calls of taking a block from a spot. -/
theorem takeSpot_ends {chunk size offset : Nat} {prev : Cell}
    (found : findSpot world.mem chunk size spotBound (.freeList chunk) = some (prev, offset)) :
    Ends (takeSpot chunk size prev offset world)
      (fun address after => chunk ≤ address ∧
        Extends (· ∈ carvedCells world.mem chunk size) (fun _ => False) world after ∧
          (after.store (.freeSpace chunk)
            ((world.mem (.freeSpace chunk) + wordValues - size) % wordValues)).mem =
              carved world.mem chunk size prev offset ∧
          after.dram = world.dram ∧ after.locked = world.locked)
      (fun after =>
        Extends (· ∈ carvedCells world.mem chunk size) (fun _ => False) world after) := by
  unfold takeSpot
  rw [get_bind]
  refine ends_ite (fun splits => ?_) fun whole => ?_
  · have isSize : Cell.spotSize chunk offset ∈ carvedCells world.mem chunk size := by
      simp only [carvedCells, found, if_pos splits]
      exact List.mem_append_left _ List.mem_cons_self
    refine ends_write_bind Extends.refl ?_
    rw [ends_pure]
    refine ⟨by omega, Extends.refl.write isSize, ?_, rfl, rfl⟩
    rw [carved, mem_store, mem_store, mem_log, if_pos splits]
  · have inSpot (cell : Cell) (member : cell ∈ [prev, .spotNext chunk offset, .spotSize chunk offset]) :
        cell ∈ carvedCells world.mem chunk size := by
      simp only [carvedCells, found, if_neg whole]
      exact List.mem_append_left _ member
    have first : Extends (· ∈ carvedCells world.mem chunk size) (fun _ => False) world
        ((world.log [prev]).store prev (world.mem (.spotNext chunk offset))) :=
      Extends.refl.write (inSpot prev List.mem_cons_self)
    refine ends_write_bind Extends.refl ?_
    refine ends_log_bind first ?_
    rw [ends_pure]
    refine ⟨by omega,
      first.log fun cell member => inSpot cell (List.mem_cons_of_mem _ member), ?_, rfl, rfl⟩
    rw [carved, mem_store, mem_log, mem_store, mem_log, if_neg whole]

theorem findMaxContSpace_ends {chunk : Nat}
    (isMax : world.mem (.maxContSpace chunk) ≠
      maxSpot world.mem chunk spotBound (world.mem (.freeList chunk)) 0 →
        logged (.maxContSpace chunk)) :
    Ends (findMaxContSpace chunk world)
      (fun _ after => Extends logged (fun _ => False) world after ∧ after.dram = world.dram ∧
        after.locked = world.locked)
      (fun after => Extends logged (fun _ => False) world after) := by
  unfold findMaxContSpace
  rw [get_bind]
  refine ends_ite (fun different => ?_) fun _ => ⟨Extends.refl, rfl, rfl⟩
  exact ends_write Extends.refl ⟨Extends.refl.write (isMax different), rfl, rfl⟩

theorem freeFormAlloc_ends (chunk size : Nat) :
    Ends (freeFormAlloc chunk size world)
      (fun address after =>
        size > world.mem (.maxContSpace chunk) ∧ address = 0 ∧ after = world ∨
        size ≤ world.mem (.maxContSpace chunk) ∧ chunk ≤ address ∧
          Extends (· ∈ carvedCells world.mem chunk size) Cell.IsSpace world after ∧
          after.dram = world.dram ∧ after.locked = world.locked)
      (fun after => size ≤ world.mem (.maxContSpace chunk) ∧
        Extends (· ∈ carvedCells world.mem chunk size) Cell.IsSpace world after) := by
  unfold freeFormAlloc
  rw [get_bind]
  refine ends_ite (fun tooLarge => .inl ⟨tooLarge, rfl, rfl⟩) fun enough => ?_
  have notTooLarge := not_lt.mp enough
  cases found : findSpot world.mem chunk size spotBound (.freeList chunk) with
  | none => exact ⟨notTooLarge, Extends.refl⟩
  | some place =>
      obtain ⟨prev, offset⟩ := place
      dsimp only
      refine Ends.bind ((takeSpot_ends found).mono (fun _ _ => id) fun after extended =>
        ⟨notTooLarge, extended.mono (fun _ => id) fun _ => False.elim⟩) ?_
      rintro address after ⟨isIn, extended, isCarved, sameDram, sameLocked⟩
      rw [store_bind]
      have stored := @Extends.store _ _ _ _ (.freeSpace chunk)
        ((world.mem (.freeSpace chunk) + wordValues - size) % wordValues)
        (@Extends.mono _ _ _ _ (· ∈ carvedCells world.mem chunk size) Cell.IsSpace extended
          (fun _ => id) fun _ => False.elim)
        (.inr trivial)
      refine ends_ite (fun isLargest => ?_) fun _ => ?_
      · have isMax (different : carved world.mem chunk size prev offset (.maxContSpace chunk) ≠
            maxSpot (carved world.mem chunk size prev offset) chunk spotBound
              (carved world.mem chunk size prev offset (.freeList chunk)) 0) :
            Cell.maxContSpace chunk ∈ carvedCells world.mem chunk size := by
          simp only [carvedCells, found]
          exact List.mem_append_right _ (by
            rw [if_pos ⟨isLargest, different⟩]
            exact List.mem_cons_self)
        rw [← isCarved] at isMax
        refine Ends.bind ((findMaxContSpace_ends isMax).mono (fun _ _ => id) fun last finds =>
          ⟨notTooLarge, stored.trans (finds.mono (fun _ => id) fun _ => False.elim)⟩) ?_
        rintro ⟨⟩ last ⟨finds, lastDram, lastLocked⟩
        exact .inr ⟨notTooLarge, isIn,
          stored.trans (finds.mono (fun _ => id) fun _ => False.elim), lastDram.trans sameDram,
          lastLocked.trans sameLocked⟩
      · exact .inr ⟨notTooLarge, isIn, stored, sameDram, sameLocked⟩

end Pmgd.AllocatorUnit
