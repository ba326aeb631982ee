import Pmgd.AllocationEffects

/-!
# Allocation from free-form chunks
-/

namespace Pmgd.AllocatorUnit

open UndoLog ThrowingState

variable {world before middle after : World} {logged unlogged touched : Cell → Prop}
  {forms : Nat → Prop}

/-! ## The lists of chunks -/

/-- What the allocator has in its lists are free-form chunks. -/
structure FormsOk (forms : Nat → Prop) (mem : Cell → Nat) (dram : Dram) : Prop where
  nonzero : ∀ chunk, forms chunk → chunk ≠ 0
  listed : ∀ chunk ∈ dram.freeFormChunks, forms chunk
  toScan : dram.freeFormToScan = 0 ∨ forms dram.freeFormToScan
  last : dram.lastFreeForm = 0 ∨ forms dram.lastFreeForm
  next : ∀ chunk, forms chunk →
    mem (.nextFreeForm chunk) = 0 ∨ forms (mem (.nextFreeForm chunk))

/-- The words that putting a chunk in the list logs. -/
def ListCell (forms : Nat → Prop) : Cell → Prop
  | .startFreeForm => True
  | .nextFreeForm chunk => forms chunk
  | _ => False

/-- The first chunk that has not been scanned and has room for a block. -/
def firstUnscanned (mem : Cell → Nat) (size : Nat) : Nat → Nat → Option Nat
  | 0, _ => none
  | bound + 1, chunk =>
      if chunk = 0 then none
      else if size ≤ mem (.maxContSpace chunk) then some chunk
      else firstUnscanned mem size bound (mem (.nextFreeForm chunk))

/-- The chunk that a block of at most `CHUNK_SIZE` bytes is taken from, unless a new one is. -/
def pickFreeForm (mem : Cell → Nat) (dram : Dram) (size : Nat) : Option Nat :=
  (dram.freeFormChunks.find? fun chunk => decide (size ≤ mem (.maxContSpace chunk))).or
    (firstUnscanned mem size chunkBound dram.freeFormToScan)

theorem FormsOk.carve {chunk size : Nat} {dram : Dram}
    (ok : FormsOk forms before.mem dram)
    (extended : Extends (· ∈ carvedCells before.mem chunk size) Cell.IsSpace before after) :
    FormsOk forms after.mem dram where
  nonzero := ok.nonzero
  listed := ok.listed
  toScan := ok.toScan
  last := ok.last
  next other isForm := by
    have same : after.mem (.nextFreeForm other) = before.mem (.nextFreeForm other) :=
      extended.same (fun member => spotCell_of_mem_carvedCells member) id
    rw [same]
    exact ok.next other isForm

/-- The chunk with a block of at most the given size is one of some chunks. -/
theorem allocAmong_ends {size : Nat} {chunks : List Nat} (ok : FormsOk forms world.mem world.dram)
    (areForms : ∀ chunk ∈ chunks, forms chunk) :
    Ends (allocAmong size chunks world)
      (fun address after =>
        (chunks.find? fun chunk => decide (size ≤ world.mem (.maxContSpace chunk))) = none ∧
          address = 0 ∧ after = world ∨
        ∃ chunk, (chunks.find? fun chunk => decide (size ≤ world.mem (.maxContSpace chunk))) =
            some chunk ∧ address ≠ 0 ∧
          Extends (· ∈ carvedCells world.mem chunk size) Cell.IsSpace world after ∧
          FormsOk forms after.mem after.dram ∧ after.locked = world.locked)
      (fun after => ∃ chunk,
        (chunks.find? fun chunk => decide (size ≤ world.mem (.maxContSpace chunk))) =
            some chunk ∧
          Extends (· ∈ carvedCells world.mem chunk size) Cell.IsSpace world after) := by
  induction chunks with
  | nil => exact .inl ⟨rfl, rfl, rfl⟩
  | cons chunk chunks ih =>
      have isForm := areForms chunk List.mem_cons_self
      unfold allocAmong
      refine Ends.bind ((@freeFormAlloc_ends world chunk size).mono (fun _ _ => id) ?_) ?_
      · rintro after ⟨fits, extended⟩
        exact ⟨chunk, List.find?_cons_of_pos (by simpa using fits), extended⟩
      · rintro address after
          (⟨tooLarge, rfl, rfl⟩ | ⟨fits, isIn, extended, sameDram, sameLocked⟩)
        · rw [if_neg (not_not.mpr rfl), List.find?_cons_of_neg (by simpa using tooLarge)]
          exact ih fun other member => areForms other (List.mem_cons_of_mem chunk member)
        · have nonzero : address ≠ 0 := by
            have := ok.nonzero chunk isForm
            omega
          rw [if_pos nonzero, hasSpace_bind, modifyDram_bind, ends_pure]
          refine .inr ⟨chunk, List.find?_cons_of_pos (by simpa using fits), nonzero,
            extended.of_eq rfl rfl rfl rfl, ?_, sameLocked⟩
          have carved := ok.carve extended
          refine ⟨carved.nonzero, ?_, sameDram ▸ carved.toScan, sameDram ▸ carved.last, carved.next⟩
          intro other member
          rw [sameDram] at member
          refine carved.listed other ?_
          dsimp only at member
          split_ifs at member
          · exact member
          · exact List.mem_of_mem_erase member

/-- The world after a chunk has been stepped over. -/
def World.pass (world : World) (chunk : Nat) : World :=
  { world with
    dram := { world.dram with
      freeFormChunks :=
        if decide (world.mem (.maxContSpace chunk) ≥ minAllocBytes) then
          world.dram.freeFormChunks.insert chunk
        else world.dram.freeFormChunks
      lastFreeForm := chunk
      freeFormToScan := world.mem (.nextFreeForm chunk) } }

theorem pass_bind {α : Type} {chunk : Nat} (next : Unit → Alloc α) :
    (passFreeForm chunk >>= next) world = next () (world.pass chunk) :=
  rfl

theorem FormsOk.pass {chunk : Nat} (ok : FormsOk forms world.mem world.dram)
    (isForm : forms chunk) : FormsOk forms (world.pass chunk).mem (world.pass chunk).dram where
  nonzero := ok.nonzero
  listed other member := by
    dsimp only [World.pass] at member
    split_ifs at member
    · rcases List.mem_insert_iff.mp member with rfl | old
      · exact isForm
      · exact ok.listed other old
    · exact ok.listed other member
  toScan := ok.next chunk isForm
  last := .inr isForm
  next := ok.next

theorem allocScanning_ends {size bound : Nat} (ok : FormsOk forms world.mem world.dram) :
    Ends (allocScanning size bound world)
      (fun address after =>
        firstUnscanned world.mem size bound world.dram.freeFormToScan = none ∧ address = 0 ∧
          (∃ dram, after = { world with dram := dram }) ∧ FormsOk forms after.mem after.dram ∨
        ∃ chunk,
          firstUnscanned world.mem size bound world.dram.freeFormToScan = some chunk ∧
            address ≠ 0 ∧
            Extends (· ∈ carvedCells world.mem chunk size) Cell.IsSpace world after ∧
            FormsOk forms after.mem after.dram ∧ after.locked = world.locked)
      (fun after => (∃ dram, after = { world with dram := dram }) ∨
        ∃ chunk,
          firstUnscanned world.mem size bound world.dram.freeFormToScan = some chunk ∧
            Extends (· ∈ carvedCells world.mem chunk size) Cell.IsSpace world after) := by
  induction bound generalizing world with
  | zero => exact .inl ⟨world.dram, rfl⟩
  | succ bound ih =>
      unfold allocScanning
      rw [get_bind]
      refine ends_ite (fun isEnd => ?_) fun notEnd => ?_
      · rw [ends_pure, firstUnscanned, if_pos isEnd]
        exact .inl ⟨rfl, rfl, ⟨world.dram, rfl⟩, ok⟩
      · have isForm := ok.toScan.resolve_left notEnd
        refine Ends.bind ((@freeFormAlloc_ends world world.dram.freeFormToScan size).mono
          (fun _ _ => id) ?_) ?_
        · rintro after ⟨fits, extended⟩
          rw [firstUnscanned, if_neg notEnd, if_pos fits]
          exact .inr ⟨_, rfl, extended⟩
        · rintro address after
            (⟨tooLarge, isZero, same⟩ | ⟨fits, isIn, extended, sameDram, sameLocked⟩)
          · obtain rfl := same.symm
            rw [isZero, pass_bind, if_neg (not_not.mpr rfl), firstUnscanned, if_neg notEnd,
              if_neg (not_le.mpr tooLarge)]
            have passed {chunk : Nat} {last : World}
                (extended : Extends (· ∈ carvedCells world.mem chunk size) Cell.IsSpace
                  (world.pass world.dram.freeFormToScan) last) :
                Extends (· ∈ carvedCells world.mem chunk size) Cell.IsSpace world last := by
              refine Extends.trans ?_ extended
              exact Extends.refl.of_eq rfl rfl rfl rfl
            refine (ih (ok.pass isForm)).mono ?_ ?_
            · rintro address last
                (⟨isNone, isZero, ⟨dram, rfl⟩, lastOk⟩ | ⟨chunk, isFirst, nonzero, extended, rest⟩)
              · exact .inl ⟨isNone, isZero, ⟨dram, rfl⟩, lastOk⟩
              · exact .inr ⟨chunk, isFirst, nonzero, passed extended, rest⟩
            · rintro last (⟨dram, rfl⟩ | ⟨chunk, isFirst, extended⟩)
              · exact .inl ⟨dram, rfl⟩
              · exact .inr ⟨chunk, isFirst, passed extended⟩
          · have nonzero : address ≠ 0 := by
              have := ok.nonzero _ isForm
              omega
            have carved := ok.carve extended
            rw [pass_bind, if_pos nonzero, ends_pure, firstUnscanned, if_neg notEnd, if_pos fits]
            refine .inr ⟨_, rfl, nonzero, extended.of_eq rfl rfl rfl rfl, ?_, sameLocked⟩
            rw [← sameDram] at carved
            exact carved.pass isForm

/-! ## New chunks -/

/-- The object that a fixed allocator takes next. -/
def nextObject (region : Region) (mem : Cell → Nat) : Nat :=
  if mem (.freePtr region) ≠ 0 then mem (.freePtr region) else mem (.tailPtr region)

theorem Takes.eq_nextObject {region : Region} {mem mem' : Cell → Nat} {p : Nat}
    (takes : Takes region mem p mem') : p = nextObject region mem := by
  cases takes with
  | listed isFree nonzero => rw [nextObject, isFree, if_pos nonzero]
  | grown isEmpty isTail => rw [nextObject, isEmpty, if_neg (not_not.mpr rfl), isTail]

/-- A new chunk refers to no other one. -/
theorem newFreeForm_ends (chunk used : Nat) :
    Ends (newFreeForm chunk used world)
      (fun _ after => Extends logged (FreeFormCell chunk) world after ∧
        (∀ other, after.mem (.nextFreeForm other) =
          if other = chunk then 0 else world.mem (.nextFreeForm other)) ∧
        after.dram = world.dram ∧ after.locked = world.locked)
      (fun _ => False) := by
  unfold newFreeForm
  rw [store_bind, store_bind, store_bind, store_bind, store_bind]
  have stores (cell : Cell) (value : Nat) (isCell : FreeFormCell chunk cell) {middle : World}
      (extended : Extends logged (FreeFormCell chunk) world middle) :
      Extends logged (FreeFormCell chunk) world (middle.store cell value) :=
    extended.store (.inr isCell)
  refine ⟨?_, ?_, rfl, rfl⟩
  · refine stores _ _ ?_ (stores _ _ ?_ (stores _ _ ?_ (stores _ _ ?_
      (stores _ _ ?_ (stores _ _ ?_ Extends.refl)))))
    all_goals rfl
  · intro other
    by_cases same : other = chunk
    · subst same
      simp [mem_store]
    · simp [mem_store, same]

/-- A chunk is put in the list. -/
theorem appendFreeForm_ends (chunk : Nat)
    (isLast : world.dram.lastFreeForm = 0 ∨ forms world.dram.lastFreeForm) :
    Ends (appendFreeForm chunk world)
      (fun _ after => Extends (ListCell forms) (fun _ => False) world after ∧
        (∀ other, after.mem (.nextFreeForm other) = world.mem (.nextFreeForm other) ∨
          after.mem (.nextFreeForm other) = chunk) ∧
        after.dram = { world.dram with lastFreeForm := chunk } ∧ after.locked = world.locked)
      (fun after => Extends (ListCell forms) (fun _ => False) world after) := by
  have links : Ends (linkFreeForm chunk world)
      (fun _ after => Extends (ListCell forms) (fun _ => False) world after ∧
        (∀ other, after.mem (.nextFreeForm other) = world.mem (.nextFreeForm other) ∨
          after.mem (.nextFreeForm other) = chunk) ∧
        after.dram = world.dram ∧ after.locked = world.locked)
      (fun after => Extends (ListCell forms) (fun _ => False) world after) := by
    unfold linkFreeForm
    rw [get_bind, read_bind]
    refine ends_ite (fun _ => ?_) fun _ => ends_ite (fun _ => Extends.refl) fun notFirst => ?_
    · refine ends_write Extends.refl ⟨Extends.refl.write trivial, fun other => .inl ?_, rfl, rfl⟩
      simp [mem_store]
    · have isLogged : ListCell forms (.nextFreeForm world.dram.lastFreeForm) :=
        isLast.resolve_left notFirst
      refine ends_write Extends.refl ⟨Extends.refl.write isLogged, fun other => ?_, rfl, rfl⟩
      by_cases same : other = world.dram.lastFreeForm
      · exact .inr (by simp [mem_store, same])
      · exact .inl (by simp [mem_store, same])
  refine Ends.bind links ?_
  rintro ⟨⟩ after ⟨extended, next, sameDram, sameLocked⟩
  exact ⟨extended.of_eq rfl rfl rfl rfl, next, by rw [← sameDram], sameLocked⟩

theorem Takes.congr {region : Region} {mem mem' mem'' : Cell → Nat} {p : Nat}
    (takes : Takes region mem p mem')
    (same : ∀ cell, RegionCell region cell → mem'' cell = mem' cell) :
    Takes region mem p mem'' := by
  have next := same (.freePtr region) rfl
  have tail := same (.tailPtr region) rfl
  have links (other : Nat) := same (.link region other) rfl
  cases takes with
  | listed isFree nonzero isNext isTail isLinks =>
      exact .listed isFree nonzero (next.trans isNext) (tail.trans isTail)
        fun other different => (links other).trans (isLinks other different)
  | grown isEmpty isTail fits isNext grows isLinks =>
      exact .grown isEmpty isTail fits (next.trans isNext) (tail.trans grows)
        fun other => (links other).trans (isLinks other)

/-- The words that taking a new free-form chunk changes. -/
def NewForm (forms : Nat → Prop) (mem : Cell → Nat) (cell : Cell) : Prop :=
  RegionCell .chunks cell ∨ ListCell forms cell ∨ FreeFormCell (nextObject .chunks mem) cell

theorem RegionCell.not_list {region : Region} {cell : Cell} (isRegion : RegionCell region cell) :
    ¬ ListCell forms cell := by
  cases cell <;> simp_all [RegionCell, ListCell]

theorem RegionCell.not_form {region : Region} {chunk : Nat} {cell : Cell}
    (isRegion : RegionCell region cell) : ¬ FreeFormCell chunk cell := by
  cases cell <;> simp_all [RegionCell, FreeFormCell, SpotCell]

theorem allocFreeFormChunk_ends
    (isLast : world.dram.lastFreeForm = 0 ∨ forms world.dram.lastFreeForm) :
    Ends (allocFreeFormChunk world)
      (fun p after => p = nextObject .chunks world.mem ∧
        Commits (NewForm forms world.mem) world after ∧ Takes .chunks world.mem p after.mem ∧
        world.outerLocked = false ∧ world.locked = false ∧ after.locked = world.locked ∧
        after.dram = { world.dram with lastFreeForm := p } ∧
        ∀ other, after.mem (.nextFreeForm other) = p ∨
          after.mem (.nextFreeForm other) = if other = p then 0
            else world.mem (.nextFreeForm other))
      (fun after => Progress (fun _ => False) (fun _ => False)
        (FreeFormCell (nextObject .chunks world.mem)) world after) := by
  let isLogged (cell : Cell) : Prop := RegionCell .chunks cell ∨ ListCell forms cell
  let isNew := FreeFormCell (nextObject .chunks world.mem)
  have body : Ends ((do
      let chunk ← allocChunk 1
      newFreeForm chunk 0
      appendFreeForm chunk
      return chunk : Alloc Nat) world.begin)
      (fun p after => p = nextObject .chunks world.mem ∧
        Extends isLogged isNew world.begin after ∧ Takes .chunks world.mem p after.mem ∧
        world.begin.outerLocked = false ∧
        after.dram = { world.dram with lastFreeForm := p } ∧
        ∀ other, after.mem (.nextFreeForm other) = p ∨
          after.mem (.nextFreeForm other) = if other = p then 0
            else world.mem (.nextFreeForm other))
      (fun after => Extends isLogged isNew world.begin after) := by
    refine Ends.bind ((@allocChunk_ends world.begin 1).mono (fun _ _ => id) fun after extended =>
      extended.mono (fun _ => .inl) fun _ => False.elim) ?_
    rintro p first ⟨extended, taken, unlocked, -, firstDram⟩
    have takes := (taken.resolve_right fun several => several.1 rfl).2
    have isNext : p = nextObject .chunks world.mem := takes.eq_nextObject
    have start : Extends isLogged isNew world.begin first :=
      extended.mono (fun _ => .inl) fun _ => False.elim
    refine Ends.bind ((@newFreeForm_ends first (fun _ => False) p 0).mono (fun _ _ => id)
      fun _ => False.elim) ?_
    rintro ⟨⟩ second ⟨constructed, nexts, secondDram, -⟩
    have built : Extends isLogged isNew world.begin second :=
      start.trans (constructed.mono (fun _ => False.elim) (isNext ▸ fun _ => id))
    have stillLast : second.dram.lastFreeForm = 0 ∨ forms second.dram.lastFreeForm := by
      rw [secondDram, firstDram]
      exact isLast
    refine Ends.bind ((appendFreeForm_ends p stillLast).mono (fun _ _ => id)
      fun after appended => built.trans (appended.mono (fun _ => .inr) fun _ => False.elim)) ?_
    rintro ⟨⟩ third ⟨appended, links, thirdDram, -⟩
    refine ⟨isNext, built.trans (appended.mono (fun _ => .inr) fun _ => False.elim), ?_, unlocked,
      ?_, fun other => ?_⟩
    · refine takes.congr fun cell isRegion => ?_
      exact (appended.same isRegion.not_list id).trans
        (constructed.same id isRegion.not_form)
    · rw [thirdDram, secondDram, firstDram]
      rfl
    · have unchanged : first.mem (.nextFreeForm other) = world.mem (.nextFreeForm other) :=
        extended.same id id
      rcases links other with old | isLast
      · exact .inr (by rw [old, nexts, unchanged])
      · exact .inl isLast
  refine ends_inner body ?_ ?_
  · rintro p after ⟨isNext, extended, takes, unlocked, sameDram, nexts⟩
    obtain ⟨outerUnlocked, notLocked⟩ := Bool.or_eq_false_iff.mp unlocked
    have progress : Progress (fun _ => False) isLogged isNew world.begin after :=
      Progress.of_extends extended
    refine ⟨isNext, (progress.commit fun _ => False.elim).mono ?_, takes, outerUnlocked,
      notLocked, rfl, sameDram, nexts⟩
    rintro cell (isFalse | (isRegion | isList) | isForm)
    · exact isFalse.elim
    · exact .inl isRegion
    · exact .inr (.inl isList)
    · exact .inr (.inr isForm)
  · intro after extended
    have progress : Progress (fun _ => False) isLogged isNew world.begin after :=
      Progress.of_extends extended
    exact progress.rollBack

/-! ## Allocations of at most a chunk -/

/-- A block is taken from a chunk in the lists. -/
structure Carves (forms : Nat → Prop) (size chunk : Nat) (before after : World) : Prop where
  picked : pickFreeForm before.mem before.dram size = some chunk
  extended : Extends (· ∈ carvedCells before.mem chunk size) Cell.IsSpace before after
  ok : FormsOk forms after.mem after.dram
  locked : after.locked = before.locked

/-- A chunk is taken in an inner transaction, and a block from it. -/
structure CarvesNew (forms : Nat → Prop) (before middle after : World) : Prop where
  outerUnlocked : before.outerLocked = false
  unlocked : before.locked = false
  commits : Commits (NewForm forms before.mem) before middle
  takes : Takes .chunks before.mem (nextObject .chunks before.mem) middle.mem
  extended : Extends (SpotCell (nextObject .chunks before.mem)) Cell.IsSpace middle after

/-- What an exception leaves of an allocation of at most a chunk. -/
inductive StopsSmall (forms : Nat → Prop) (size : Nat) (before after : World) : Prop
  | carving {chunk : Nat} (picked : pickFreeForm before.mem before.dram size = some chunk)
      (extended : Extends (· ∈ carvedCells before.mem chunk size) Cell.IsSpace before after)
  | taking (progress : Progress (fun _ => False) (fun _ => False)
      (FreeFormCell (nextObject .chunks before.mem)) before after)
  | carvingNew {middle : World} (carves : CarvesNew forms before middle after)

theorem FormsOk.new {mem mem' : Cell → Nat} {dram dram' : Dram} {p : Nat}
    (ok : FormsOk forms mem dram) (nonzero : p ≠ 0)
    (listed : ∀ chunk ∈ dram'.freeFormChunks, chunk ∈ dram.freeFormChunks ∨ chunk = p)
    (toScan : dram'.freeFormToScan = dram.freeFormToScan)
    (last : dram'.lastFreeForm = dram.lastFreeForm ∨ dram'.lastFreeForm = p)
    (next : ∀ other, mem' (.nextFreeForm other) = p ∨
      mem' (.nextFreeForm other) = if other = p then 0 else mem (.nextFreeForm other)) :
    FormsOk (fun chunk => forms chunk ∨ chunk = p) mem' dram' where
  nonzero chunk isForm := by
    rcases isForm with old | rfl
    · exact ok.nonzero chunk old
    · exact nonzero
  listed chunk member := (listed chunk member).imp_left (ok.listed chunk)
  toScan := by
    rw [toScan]
    exact ok.toScan.imp_right .inl
  last := by
    rcases last with same | isNew
    · rw [same]
      exact ok.last.imp_right .inl
    · exact .inr (.inr isNew)
  next chunk isForm := by
    rcases next chunk with isNew | unchanged
    · exact .inr (.inr isNew)
    · rw [unchanged]
      split_ifs with same
      · exact .inl rfl
      · exact (ok.next chunk (isForm.resolve_right same)).imp_right .inl

theorem variableAlloc_small_ends {size : Nat} (small : size ≤ chunkSize)
    (ok : FormsOk forms world.mem world.dram) (nonzero : nextObject .chunks world.mem ≠ 0) :
    Ends (variableAlloc size world)
      (fun _ after => (∃ chunk, Carves forms size chunk world after) ∨
        (pickFreeForm world.mem world.dram size = none ∧ ∃ middle, CarvesNew forms world middle after ∧
          FormsOk (fun chunk => forms chunk ∨ chunk = nextObject .chunks world.mem) after.mem
            after.dram ∧ after.locked = world.locked))
      (StopsSmall forms size world) := by
  unfold variableAlloc
  rw [if_neg (not_lt.mpr small), get_bind]
  refine Ends.bind ((allocAmong_ends ok ok.listed).mono (fun _ _ => id) ?_) ?_
  · rintro after ⟨chunk, isFirst, extended⟩
    exact .carving (by rw [pickFreeForm, isFirst, Option.some_or]) extended
  rintro address after (⟨noneListed, isZero, same⟩ | ⟨chunk, isFirst, found, extended, afterOk, locked⟩)
  · obtain rfl := same.symm
    rw [isZero, if_neg (not_not.mpr rfl)]
    refine Ends.bind ((allocScanning_ends ok).mono (fun _ _ => id) ?_) ?_
    · rintro after (⟨dram, rfl⟩ | ⟨chunk, isFirst, extended⟩)
      · exact .taking (Progress.of_extends (Extends.refl.of_eq rfl rfl rfl rfl))
      · exact .carving (by rw [pickFreeForm, noneListed, Option.none_or, isFirst]) extended
    rintro address after
      (⟨noneUnscanned, isZero, ⟨dram, isAfter⟩, afterOk⟩ | ⟨chunk, isFirst, found, extended, afterOk, locked⟩)
    · have noPick : pickFreeForm world.mem world.dram size = none := by
        rw [pickFreeForm, noneListed, Option.none_or, noneUnscanned]
      subst isAfter
      rw [isZero, if_neg (not_not.mpr rfl)]
      refine Ends.bind ((allocFreeFormChunk_ends afterOk.last).mono (fun _ _ => id) ?_) ?_
      · rintro after ⟨middle, commits, extended⟩
        exact .taking ⟨middle, ⟨commits.images, commits.same, commits.permanent,
          commits.outerLocked⟩, extended⟩
      rintro p middle ⟨isNext, commits, takes, outerUnlocked, unlocked, locked, sameDram, nexts⟩
      rw [isNext] at takes nexts ⊢
      have carvesNew (last : World)
          (extended : Extends (SpotCell (nextObject .chunks world.mem)) Cell.IsSpace middle last) :
          CarvesNew forms world middle last :=
        ⟨outerUnlocked, unlocked, ⟨commits.images, commits.same, commits.permanent,
          commits.outerLocked⟩, takes, extended⟩
      have inSpot (cell : Cell)
          (member : cell ∈ carvedCells middle.mem (nextObject .chunks world.mem) size) :
          SpotCell (nextObject .chunks world.mem) cell := spotCell_of_mem_carvedCells member
      refine Ends.bind ((@freeFormAlloc_ends middle (nextObject .chunks world.mem) size).mono
        (fun _ _ => id) ?_) ?_
      · rintro last ⟨-, extended⟩
        exact .carvingNew (carvesNew last (extended.mono inSpot fun _ => id))
      rintro address last (⟨-, isZero, same⟩ | ⟨-, isIn, extended, lastDram, lastLocked⟩)
      · rw [hasSpace_bind, modifyDram_bind, if_pos isZero, ends_throw]
        have kept : Extends (SpotCell (nextObject .chunks world.mem)) Cell.IsSpace middle last :=
          same ▸ Extends.refl
        exact .carvingNew (carvesNew _ (kept.of_eq rfl rfl rfl rfl))
      · have found : address ≠ 0 := by omega
        rw [hasSpace_bind, modifyDram_bind, if_neg found, ends_pure]
        refine .inr ⟨noPick, middle, carvesNew _ ?_, ?_, lastLocked.trans locked⟩
        · exact (extended.mono inSpot fun _ => id).of_eq rfl rfl rfl rfl
        · refine afterOk.new nonzero (fun chunk member => ?_) ?_ (.inr ?_) fun other => ?_
          · rw [lastDram, sameDram] at member
            dsimp only at member ⊢
            split_ifs at member
            · exact (List.mem_insert_iff.mp member).symm
            · exact .inl member
          · rw [lastDram, sameDram]
          · rw [lastDram, sameDram, isNext]
          · have unchanged : last.mem (.nextFreeForm other) = middle.mem (.nextFreeForm other) :=
              extended.same (fun member => inSpot _ member) id
            dsimp only
            rw [unchanged]
            exact nexts other
    · rw [if_pos found, ends_pure]
      exact .inl ⟨chunk, by rw [pickFreeForm, noneListed, Option.none_or, isFirst], extended,
        afterOk, locked⟩
  · rw [if_pos found, ends_pure]
    exact .inl ⟨chunk, by rw [pickFreeForm, isFirst, Option.some_or], extended, afterOk, locked⟩

/-! ## Large allocations -/

theorem scanAllFreeForm_ends {bound : Nat} (ok : FormsOk forms world.mem world.dram) :
    Ends (scanAllFreeForm bound world)
      (fun _ after => (∃ dram, after = { world with dram := dram }) ∧
        FormsOk forms after.mem after.dram)
      (fun after => ∃ dram, after = { world with dram := dram }) := by
  induction bound generalizing world with
  | zero => exact ⟨world.dram, rfl⟩
  | succ bound ih =>
      unfold scanAllFreeForm
      rw [get_bind]
      refine ends_ite (fun _ => ⟨⟨world.dram, rfl⟩, ok⟩) fun notEnd => ?_
      rw [pass_bind]
      refine (ih (ok.pass (ok.toScan.resolve_left notEnd))).mono ?_ ?_
      · rintro ⟨⟩ after ⟨⟨dram, rfl⟩, afterOk⟩
        exact ⟨⟨dram, rfl⟩, afterOk⟩
      · rintro after ⟨dram, rfl⟩
        exact ⟨dram, rfl⟩

/-- The words that a large allocation logs. -/
def LargeCell (cell : Cell) : Prop :=
  RegionCell .chunks cell ∨ ListCell (fun _ => True) cell

theorem allocFreeFormChunks_ends {num used : Nat} (ok : FormsOk forms world.mem world.dram)
    (nonzero : world.mem (.tailPtr .chunks) ≠ 0) :
    Ends (allocFreeFormChunks num used world)
      (fun p after => p = world.mem (.tailPtr .chunks) ∧
        Extends LargeCell (FreeFormCell (world.mem (.tailPtr .chunks))) world after ∧
        TakesRun num world.mem (world.mem (.tailPtr .chunks)) after.mem ∧ after.locked = true ∧
        FormsOk (fun chunk => forms chunk ∨ chunk = world.mem (.tailPtr .chunks)) after.mem
          after.dram)
      (Extends LargeCell (FreeFormCell (world.mem (.tailPtr .chunks))) world) := by
  unfold allocFreeFormChunks
  refine ends_ite (fun several => ?_) fun _ => Extends.refl
  refine Ends.bind ((@allocChunk_ends world num).mono (fun _ _ => id) fun after extended =>
    extended.mono (fun _ => .inl) fun _ => False.elim) ?_
  rintro p first ⟨extended, taken, -, firstLocked, firstDram⟩
  have takes := (taken.resolve_left fun one => (one.1 ▸ several.1).false).2
  obtain rfl := takes.isTail
  have start : Extends LargeCell (FreeFormCell (world.mem (.tailPtr .chunks))) world first :=
    extended.mono (fun _ => .inl) fun _ => False.elim
  refine Ends.bind ((@newFreeForm_ends first (fun _ => False) (world.mem (.tailPtr .chunks))
    used).mono (fun _ _ => id) fun _ => False.elim) ?_
  rintro ⟨⟩ second ⟨constructed, nexts, secondDram, secondLocked⟩
  have built := start.trans (constructed.mono (fun _ => False.elim) fun _ => id)
  have secondOk : FormsOk (fun chunk => forms chunk ∨ chunk = world.mem (.tailPtr .chunks))
      second.mem second.dram := by
    rw [secondDram, firstDram]
    refine ok.new nonzero (fun _ => .inl) rfl (.inl rfl) fun other => .inr ?_
    rw [nexts, extended.same id id]
  refine Ends.bind ((scanAllFreeForm_ends secondOk).mono (fun _ _ => id) ?_) ?_
  · rintro after ⟨dram, rfl⟩
    exact built.of_eq rfl rfl rfl rfl
  rintro ⟨⟩ third ⟨⟨dram, rfl⟩, thirdOk⟩
  have scanned : Extends LargeCell (FreeFormCell (world.mem (.tailPtr .chunks))) world
      { second with dram := dram } := built.of_eq rfl rfl rfl rfl
  refine Ends.bind ((@appendFreeForm_ends _ (fun _ => True) (world.mem (.tailPtr .chunks))
    (.inr trivial)).mono (fun _ _ => id) fun after appended => ?_) ?_
  · exact scanned.trans (appended.mono (fun _ => .inr) fun _ => False.elim)
  · rintro ⟨⟩ last ⟨appended, links, lastDram, lastLocked⟩
    have unchanged (cell : Cell) (isRegion : RegionCell .chunks cell) :
        last.mem cell = first.mem cell :=
      (appended.same isRegion.not_list id).trans (constructed.same id isRegion.not_form)
    refine ⟨rfl, ?_, ⟨rfl, ?_, ?_, fun other => ?_⟩, ?_, thirdOk.nonzero, ?_, ?_, ?_, ?_⟩
    · exact scanned.trans (appended.mono (fun _ => .inr) fun _ => False.elim)
    · exact (unchanged (.freePtr .chunks) rfl).trans takes.next
    · exact (unchanged (.tailPtr .chunks) rfl).trans takes.tail
    · exact (unchanged (.link .chunks other) rfl).trans (takes.links other)
    · exact lastLocked.trans (secondLocked.trans firstLocked)
    · rw [lastDram]
      exact thirdOk.listed
    · rw [lastDram]
      exact thirdOk.toScan
    · rw [lastDram]
      exact .inr (.inr rfl)
    · intro chunk isForm
      rcases links chunk with old | isLast
      · rw [old]
        exact thirdOk.next chunk isForm
      · exact .inr (.inr isLast)

theorem variableAlloc_large_ends {size : Nat} (large : size > chunkSize)
    (ok : FormsOk forms world.mem world.dram) (nonzero : world.mem (.tailPtr .chunks) ≠ 0) :
    Ends (variableAlloc size world)
      (fun _ after => Extends LargeCell (FreeFormCell (world.mem (.tailPtr .chunks))) world after ∧
        (∃ num, TakesRun num world.mem (world.mem (.tailPtr .chunks)) after.mem) ∧
        after.locked = true ∧
        FormsOk (fun chunk => forms chunk ∨ chunk = world.mem (.tailPtr .chunks)) after.mem
          after.dram)
      (Extends LargeCell (FreeFormCell (world.mem (.tailPtr .chunks))) world) := by
  unfold variableAlloc
  rw [if_pos large]
  unfold allocLarge
  refine Ends.bind (allocFreeFormChunks_ends ok nonzero) ?_
  rintro p after ⟨isTail, extended, takes, locked, afterOk⟩
  rw [modifyDram_bind, ends_pure]
  refine ⟨extended.of_eq rfl rfl rfl rfl, ⟨_, takes⟩, locked, afterOk.nonzero, ?_, afterOk.toScan,
    afterOk.last, afterOk.next⟩
  intro chunk member
  rcases List.mem_insert_iff.mp member with rfl | old
  · exact .inr isTail
  · exact afterOk.listed chunk old

/-! ## The rest of the DRAM -/

/-- What the allocators keep in DRAM about pools and small chunks. -/
def Dram.small (dram : Dram) : Dram :=
  { dram with
    freeFormChunks := []
    freeFormToScan := 0
    lastFreeForm := 0 }

abbrev KeepsSmall {α : Type} (body : Alloc α) : Prop :=
  Keeps (fun world => world.dram.small) body

theorem modifyDram_keepsSmall {change : Dram → Dram}
    (same : ∀ dram, (change dram).small = dram.small) : KeepsSmall (modifyDram change) :=
  keeps_modify fun world => same world.dram

theorem freeFormAlloc_keepsSmall (chunk size : Nat) : KeepsSmall (freeFormAlloc chunk size) := by
  refine Keeps.of_ends (fun world => freeFormAlloc_ends chunk size) ?_
  rintro world address after (⟨-, -, same⟩ | ⟨-, -, -, sameDram, -⟩)
  · rw [same]
  · rw [sameDram]

theorem hasSpace_keepsSmall (chunk : Nat) : KeepsSmall (hasSpace chunk) :=
  fun _ => rfl

theorem passFreeForm_keepsSmall (chunk : Nat) : KeepsSmall (passFreeForm chunk) :=
  fun _ => rfl

theorem allocAmong_keepsSmall (size : Nat) (chunks : List Nat) :
    KeepsSmall (allocAmong size chunks) := by
  induction chunks with
  | nil => exact keeps_pure
  | cons chunk chunks ih =>
      refine (freeFormAlloc_keepsSmall chunk size).bind fun address => keeps_ite ?_ ih
      refine (hasSpace_keepsSmall chunk).bind fun space => ?_
      refine Keeps.bind (modifyDram_keepsSmall ?_) fun _ => keeps_pure
      exact fun _ => rfl

theorem allocScanning_keepsSmall (size bound : Nat) : KeepsSmall (allocScanning size bound) := by
  induction bound with
  | zero => exact keeps_throw
  | succ bound ih =>
      refine keeps_get.bind fun world => keeps_ite keeps_pure ?_
      refine (freeFormAlloc_keepsSmall _ size).bind fun address => ?_
      exact (passFreeForm_keepsSmall _).bind fun _ => keeps_ite keeps_pure ih

theorem scanAllFreeForm_keepsSmall (bound : Nat) : KeepsSmall (scanAllFreeForm bound) := by
  induction bound with
  | zero => exact keeps_throw
  | succ bound ih =>
      refine keeps_get.bind fun world => keeps_ite keeps_pure ?_
      exact (passFreeForm_keepsSmall _).bind fun _ => ih

theorem allocFreeFormChunk_keepsSmall : KeepsSmall allocFreeFormChunk := by
  refine Keeps.of_ends
    (fun world => @allocFreeFormChunk_ends world (fun _ => True) (.inr trivial)) ?_
  rintro world p after ⟨-, -, -, -, -, -, sameDram, -⟩
  rw [sameDram]
  rfl

theorem allocFreeFormChunks_keepsSmall (num used : Nat) :
    KeepsSmall (allocFreeFormChunks num used) := by
  refine keeps_ite ?_ keeps_throw
  refine Keeps.bind (Keeps.of_ends (fun world => allocChunk_ends num) ?_) fun chunk => ?_
  · rintro world p after ⟨-, -, -, -, sameDram⟩
    rw [sameDram]
  refine Keeps.bind (Keeps.of_ends
    (fun world => @newFreeForm_ends world (fun _ => False) chunk used) ?_) fun _ => ?_
  · rintro world ⟨⟩ after ⟨-, -, sameDram, -⟩
    rw [sameDram]
  refine (scanAllFreeForm_keepsSmall chunkBound).bind fun _ => ?_
  refine Keeps.bind (Keeps.of_ends
    (fun world => @appendFreeForm_ends world (fun _ => True) chunk (.inr trivial)) ?_)
    fun _ => keeps_pure
  rintro world ⟨⟩ after ⟨-, -, sameDram, -⟩
  rw [sameDram]
  rfl

theorem allocLarge_keepsSmall (size : Nat) : KeepsSmall (allocLarge size) := by
  refine (allocFreeFormChunks_keepsSmall _ _).bind fun chunk => ?_
  refine Keeps.bind (modifyDram_keepsSmall ?_) fun _ => keeps_pure
  exact fun _ => rfl

theorem variableAlloc_keepsSmall (size : Nat) : KeepsSmall (variableAlloc size) := by
  refine keeps_ite (allocLarge_keepsSmall size) (keeps_get.bind fun world => ?_)
  refine (allocAmong_keepsSmall size _).bind fun address => keeps_ite keeps_pure ?_
  refine (allocScanning_keepsSmall size chunkBound).bind fun address => keeps_ite keeps_pure ?_
  refine allocFreeFormChunk_keepsSmall.bind fun chunk => ?_
  refine (freeFormAlloc_keepsSmall chunk size).bind fun address => ?_
  refine (hasSpace_keepsSmall chunk).bind fun space => ?_
  refine Keeps.bind (modifyDram_keepsSmall ?_) fun _ => keeps_ite keeps_throw keeps_pure
  exact fun _ => rfl

end Pmgd.AllocatorUnit
