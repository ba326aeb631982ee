import Pmgd.ChunkListRuns

/-!
# Aborted changes of a list of chunks

An abort copies back what the transaction has logged, the newest entry first.  The contents of a
slot that `add` fills are not logged, so that an abort gives back the old contents of the list as
long as no element that was there at the beginning has lost its slot to another one.
-/

namespace Pmgd.ChunkList

open LabelledRun LinkedList

variable {K V : Type*}

/-! ## Rolling back -/

/-- An entry is copied back. -/
def LogEntry.restore (entry : LogEntry V) (list : ChunkList K V) : ChunkList K V :=
  match entry with
  | .head old => { list with head := old }
  | .numElems old => { list with numElems := old }
  | .next chunk old => list.setChunk chunk { list.chunks chunk with next := old }
  | .counts chunk occupants elems =>
      list.setChunk chunk { list.chunks chunk with occupants := occupants, numElems := elems }
  | .value place old => list.fill place (list.keyAt place, old)

/-- `rollback`; the transaction is then over. -/
def afterAbort (list : ChunkList K V) : ChunkList K V :=
  list.log.foldr LogEntry.restore { list with log := [] }

variable {list first second : ChunkList K V} {chunks : List Nat} {isOld : Place → Prop}

/-- A logged change that is then undone. -/
theorem afterAbort_of_logged {entry : LogEntry V} (isLog : second.log = first.log ++ [entry])
    (isUndone : entry.restore { second with log := [] } = { first with log := [] }) :
    second.afterAbort = first.afterAbort := by
  rw [afterAbort, isLog, List.foldr_append, List.foldr_cons, List.foldr_nil, isUndone, afterAbort]

theorem afterAbort_writeLink {prev next : Option Nat} :
    (list.writeLink prev next).afterAbort = list.afterAbort := by
  cases prev with
  | none => exact afterAbort_of_logged rfl rfl
  | some chunk =>
      apply afterAbort_of_logged rfl
      simp [LogEntry.restore, writeLink, setChunk]

theorem afterAbort_writeNumElems {numElems : Nat} :
    (list.writeNumElems numElems).afterAbort = list.afterAbort :=
  afterAbort_of_logged rfl rfl

theorem afterAbort_writeCounts {chunk numElems : Nat} {occupants : BitVec 16} :
    (list.writeCounts chunk occupants numElems).afterAbort = list.afterAbort := by
  apply afterAbort_of_logged rfl
  simp [LogEntry.restore, writeCounts, setChunk]

theorem afterAbort_writeValue {place : Place} {value : V} :
    (list.writeValue place value).afterAbort = list.afterAbort := by
  apply afterAbort_of_logged rfl
  simp [LogEntry.restore, writeValue, fill, setChunk, keyAt, valueAt]

/-! ## What is not logged -/

/-- Two chunks have the same header. -/
def SameHeader (first second : ChunkListType K V) : Prop :=
  first.next = second.next ∧ first.occupants = second.occupants ∧
    first.numElems = second.numElems

/-- Two lists have these chunks and the contents of these slots in common. -/
structure SameOn (chunks : List Nat) (isOld : Place → Prop) (first second : ChunkList K V) :
    Prop where
  head : first.head = second.head
  numElems : first.numElems = second.numElems
  log : first.log = second.log
  header : ∀ chunk ∈ chunks, SameHeader (first.chunks chunk) (second.chunks chunk)
  data : ∀ place, isOld place →
    (first.chunks place.chunk).data place.slot = (second.chunks place.chunk).data place.slot

theorem SameOn.refl (list : ChunkList K V) : SameOn chunks isOld list list :=
  ⟨rfl, rfl, rfl, fun _ _ => ⟨rfl, rfl, rfl⟩, fun _ _ => rfl⟩

theorem SameOn.trans {third : ChunkList K V} (same : SameOn chunks isOld first second)
    (later : SameOn chunks isOld second third) : SameOn chunks isOld first third where
  head := same.head.trans later.head
  numElems := same.numElems.trans later.numElems
  log := same.log.trans later.log
  header chunk member :=
    have ⟨next, occupants, elems⟩ := same.header chunk member
    have ⟨nextLater, occupantsLater, elemsLater⟩ := later.header chunk member
    ⟨next.trans nextLater, occupants.trans occupantsLater, elems.trans elemsLater⟩
  data place old := (same.data place old).trans (later.data place old)

theorem SameOn.setChunk (same : SameOn chunks isOld first second) {changed : Nat}
    {firstChunk secondChunk : ChunkListType K V}
    (header : changed ∈ chunks → SameHeader firstChunk secondChunk)
    (data : ∀ slot, isOld ⟨changed, slot⟩ → firstChunk.data slot = secondChunk.data slot) :
    SameOn chunks isOld (first.setChunk changed firstChunk)
      (second.setChunk changed secondChunk) := by
  refine ⟨same.head, same.numElems, same.log, fun chunk member => ?_, fun place old => ?_⟩
  · by_cases here : chunk = changed
    · subst here
      simpa only [ChunkList.setChunk, Function.update_self] using header member
    · simpa only [ChunkList.setChunk, Function.update_of_ne here] using same.header chunk member
  · by_cases here : place.chunk = changed
    · subst here
      simpa only [ChunkList.setChunk, Function.update_self] using data place.slot old
    · simpa only [ChunkList.setChunk, Function.update_of_ne here] using same.data place old

/-- A chunk of which nothing is in common may change. -/
theorem sameOn_setChunk {changed : Nat} {chunk : ChunkListType K V}
    (header : changed ∈ chunks → SameHeader chunk (list.chunks changed))
    (data : ∀ slot, isOld ⟨changed, slot⟩ → chunk.data slot = (list.chunks changed).data slot) :
    SameOn chunks isOld (list.setChunk changed chunk) list := by
  have unchanged : list.setChunk changed (list.chunks changed) = list := by
    simp [ChunkList.setChunk]
  have reflexive : SameOn chunks isOld list list := SameOn.refl list
  have same := reflexive.setChunk header data
  rwa [unchanged] at same

theorem sameOn_fill {place : Place} {content : K × V} (isNew : ¬ isOld place) :
    SameOn chunks isOld (list.fill place content) list := by
  apply sameOn_setChunk
  · exact fun _ => ⟨rfl, rfl, rfl⟩
  · intro slot old
    have different : slot ≠ place.slot := by
      rintro rfl
      exact isNew old
    exact Function.update_of_ne different _ _

/-- Copying an entry back keeps what two lists have in common. -/
theorem SameOn.restore (same : SameOn chunks isOld first second) (entry : LogEntry V) :
    SameOn chunks isOld (entry.restore first) (entry.restore second) := by
  cases entry with
  | head old => exact { same with head := rfl }
  | numElems old => exact { same with numElems := rfl }
  | next changed old =>
      apply same.setChunk
      · intro member
        exact ⟨rfl, (same.header changed member).2⟩
      · exact fun slot old => same.data ⟨changed, slot⟩ old
  | counts changed occupants elems =>
      apply same.setChunk
      · intro member
        exact ⟨(same.header changed member).1, rfl, rfl⟩
      · exact fun slot old => same.data ⟨changed, slot⟩ old
  | value changed value =>
      apply same.setChunk
      · exact fun member => same.header changed.chunk member
      · intro slot old
        have sameData := same.data ⟨changed.chunk, slot⟩ old
        dsimp only at sameData ⊢
        by_cases here : slot = changed.slot
        · subst here
          rw [Function.update_self, Function.update_self, keyAt, keyAt, sameData]
        · rw [Function.update_of_ne here, Function.update_of_ne here, sameData]

theorem SameOn.afterAbort (same : SameOn chunks isOld first second) :
    SameOn chunks isOld first.afterAbort second.afterAbort := by
  have restored : ∀ log : List (LogEntry V),
      SameOn chunks isOld (log.foldr LogEntry.restore { first with log := [] })
        (log.foldr LogEntry.restore { second with log := [] }) := by
    intro log
    induction log with
    | nil => exact { same with log := rfl }
    | cons entry log ih => exact ih.restore entry
  unfold ChunkList.afterAbort
  rw [same.log]
  exact restored second.log

/-! ## Transactions -/

section Transactions

variable {start after : ChunkList K V} {high : Nat → Nat} {maxPerChunk : Nat}

/-- What an invariant is about. -/
theorem Holds.of_sameOn (holds : Holds maxPerChunk start chunks high)
    (same : SameOn chunks (Live start chunks high) list start) :
    Holds maxPerChunk list chunks high ∧
      (∀ place, Live list chunks high place ↔ Live start chunks high place) ∧
      ∀ place, Live start chunks high place →
        list.keyAt place = start.keyAt place ∧ list.valueAt place = start.valueAt place := by
  have sameSlots : ∀ chunk ∈ chunks, (list.chunks chunk).liveSlots (high chunk) =
      (start.chunks chunk).liveSlots (high chunk) := fun chunk member =>
    liveSlots_congr (same.header chunk member).2.1 _
  have sameElems : ∀ chunk ∈ chunks, (list.chunks chunk).numElems =
      (start.chunks chunk).numElems := fun chunk member => (same.header chunk member).2.2
  have live : ∀ place, Live list chunks high place ↔ Live start chunks high place := by
    intro place
    unfold Live
    apply and_congr_right
    intro member
    rw [sameSlots place.chunk member]
  have sameContent : ∀ place, Live start chunks high place →
      list.keyAt place = start.keyAt place ∧ list.valueAt place = start.valueAt place := by
    intro place isLive
    have sameData := same.data place isLive
    exact ⟨congrArg Prod.fst sameData, congrArg Prod.snd sameData⟩
  refine ⟨⟨?_, holds.nodup, holds.high_le, fun chunk member => ?_, fun chunk member => ?_,
    fun first second firstLive secondLive sameKey => ?_, ?_⟩, live, sameContent⟩
  · exact holds.linked.congr same.head fun chunk member => (same.header chunk member).1
  · rw [sameSlots chunk member, sameElems chunk member]
    exact holds.count chunk member
  · rw [sameElems chunk member]
    exact holds.nonempty chunk member
  · rw [live] at firstLive secondLive
    rw [(sameContent first firstLive).1, (sameContent second secondLive).1] at sameKey
    exact holds.keys first second firstLive secondLive sameKey
  · have sameCounts : (chunks.map fun chunk => (list.chunks chunk).numElems) =
        chunks.map fun chunk => (start.chunks chunk).numElems :=
      List.map_congr_left sameElems
    rw [same.numElems, sameCounts]
    exact holds.total

variable [DecidableEq K]

/-- The places of all elements. -/
def places (maxPerChunk : Nat) (list : ChunkList K V) : List Place :=
  (list.getKeyValues maxPerChunk).getD []

/-- The first slot without an element, chunk by chunk. -/
def firstFree (maxPerChunk : Nat) (list : ChunkList K V) : Option Place :=
  (slotsOf maxPerChunk list.linkedChunks).find? fun place => place ∉ list.places maxPerChunk

omit [DecidableEq K] in
theorem Holds.mem_places (holds : Holds maxPerChunk list chunks high) {place : Place} :
    place ∈ list.places maxPerChunk ↔ Live list chunks high place := by
  obtain ⟨places, isPlaces, -, -, members⟩ := holds.getKeyValues_spec
  rw [ChunkList.places, isPlaces, Option.getD_some, members]

omit [DecidableEq K] in
theorem Holds.firstFree_eq (holds : Holds maxPerChunk list chunks high) :
    list.firstFree maxPerChunk = firstRoom maxPerChunk list high chunks := by
  rw [firstFree, firstRoom, holds.linkedChunks_eq, ← List.head?_filter, ← List.head?_filter]
  congr 1
  apply List.filter_congr
  intro place member
  have isChunk : place.chunk ∈ chunks := by
    obtain ⟨chunk, isChunk, isSlot⟩ := List.mem_flatMap.mp member
    obtain ⟨slot, -, rfl⟩ := List.mem_map.mp isSlot
    exact isChunk
  rw [decide_eq_decide, holds.mem_places, Live, not_and]
  exact ⟨fun notLive => notLive isChunk, fun notLive _ => notLive⟩

variable [Inhabited V]

/-- A step of a transaction that has found the list so: memory that was in use then is not given
out before the transaction ends. -/
def txStep (maxPerChunk : Nat) (start list : ChunkList K V) (label : Label K V) :
    Option (ChunkList K V) :=
  match label with
  | .add key fresh memory =>
      if fresh ∈ start.linkedChunks then none
      else step maxPerChunk list (.add key fresh memory)
  | .remove key => step maxPerChunk list (.remove key)
  | .set key value => step maxPerChunk list (.set key value)

/-- A new key does not go to a slot of an element that was there at the beginning. -/
def KeepsSlots (maxPerChunk : Nat) (start list : ChunkList K V) : Label K V → Prop
  | .add key _ _ => list.placeOf maxPerChunk key = none →
      ∀ place ∈ list.firstFree maxPerChunk, place ∉ start.places maxPerChunk
  | .remove _ => True
  | .set _ _ => True

instance (start list : ChunkList K V) :
    ∀ label, Decidable (KeepsSlots maxPerChunk start list label)
  | .add key _ _ => inferInstanceAs (Decidable (list.placeOf maxPerChunk key = none →
      ∀ place ∈ list.firstFree maxPerChunk, place ∉ start.places maxPerChunk))
  | .remove _ => inferInstanceAs (Decidable True)
  | .set _ _ => inferInstanceAs (Decidable True)

theorem step_of_txStep {label : Label K V}
    (stepped : txStep maxPerChunk start list label = some after) :
    step maxPerChunk list label = some after := by
  cases label with
  | add key fresh memory =>
      rw [txStep] at stepped
      split_ifs at stepped
      exact stepped
  | remove key => exact stepped
  | set key value => exact stepped

/-- What a step changes without logging it was not there at the beginning. -/
theorem sameOn_of_txStep {oldChunks : List Nat} {oldHigh : Nat → Nat} {label : Label K V}
    (old : Holds maxPerChunk start oldChunks oldHigh) (wellFormed : WellFormed maxPerChunk list)
    (keeps : KeepsSlots maxPerChunk start list label)
    (stepped : txStep maxPerChunk start list label = some after) :
    SameOn oldChunks (Live start oldChunks oldHigh) after.afterAbort list.afterAbort := by
  obtain ⟨chunks, high, holds⟩ := wellFormed
  cases label with
  | add key fresh memory =>
      rw [txStep] at stepped
      split_ifs at stepped with wasInUse
      rw [old.linkedChunks_eq] at wasInUse
      rw [step] at stepped
      split_ifs at stepped
      obtain ⟨⟨place, added⟩, isAdded, rfl⟩ := Option.map_eq_some_iff.mp stepped
      rcases holds.add_cases key fresh memory with ⟨found, -, isFound⟩ |
        ⟨isNone, ⟨free, isFirst, isFilled⟩ | isAppended⟩
      · obtain ⟨rfl, rfl⟩ := Prod.mk.inj (Option.some.inj (isFound.symm.trans isAdded))
        exact SameOn.refl _
      · obtain ⟨rfl, rfl⟩ := Prod.mk.inj (Option.some.inj (isFilled.symm.trans isAdded))
        have isNew : ¬ Live start oldChunks oldHigh free := by
          rw [← old.mem_places]
          exact keeps isNone free (holds.firstFree_eq.trans isFirst)
        have same := (@sameOn_fill K V ((list.writeCounts free.chunk
          ((list.chunks free.chunk).occupants ||| bitPos free.slot)
          ((list.chunks free.chunk).numElems + 1)).writeNumElems (list.numElems + 1)) oldChunks
            (Live start oldChunks oldHigh) free (key, default) isNew).afterAbort
        rwa [afterAbort_writeNumElems, afterAbort_writeCounts] at same
      · obtain ⟨rfl, rfl⟩ := Prod.mk.inj (Option.some.inj (isAppended.symm.trans isAdded))
        let linked := list.setChunk fresh
          { memory with next := none, occupants := memory.occupants ||| 1, numElems := 1 }
        have filled := (@sameOn_fill K V ((linked.writeLink chunks.getLast?
          (some fresh)).writeNumElems (list.numElems + 1)) oldChunks
            (Live start oldChunks oldHigh) ⟨fresh, 0⟩ (key, default)
            fun isLive => wasInUse isLive.1).afterAbort
        rw [afterAbort_writeNumElems, afterAbort_writeLink] at filled
        apply filled.trans
        apply SameOn.afterAbort
        apply sameOn_setChunk
        · exact fun wasLinked => absurd wasLinked wasInUse
        · exact fun slot isLive => absurd isLive.1 wasInUse
  | remove key =>
      rcases holds.remove_cases key with ⟨before, place, rest, -, -, -, isRemoved⟩ |
        ⟨-, isRemoved⟩
      · obtain rfl := Option.some.inj (isRemoved.symm.trans stepped)
        have unchanged : (list.clearSlot before.getLast? place).afterAbort = list.afterAbort := by
          unfold clearSlot
          dsimp only
          split_ifs
          · rw [afterAbort_writeLink, afterAbort_writeNumElems, afterAbort_writeCounts]
          · rw [afterAbort_writeNumElems, afterAbort_writeCounts]
        rw [unchanged]
        exact SameOn.refl _
      · obtain rfl := Option.some.inj (isRemoved.symm.trans stepped)
        exact SameOn.refl _
  | set key value =>
      rw [txStep, step, holds.find_eq, Option.bind_some, Option.map_eq_some_iff] at stepped
      obtain ⟨place, -, rfl⟩ := stepped
      rw [afterAbort_writeValue]
      exact SameOn.refl _

/-- If no new key of a transaction goes to a slot of an element that was there at the beginning, an
abort gives back the map. -/
theorem contents_afterAbort (hasSlot : 1 ≤ maxPerChunk) (inWord : maxPerChunk ≤ 16)
    (wellFormed : WellFormed maxPerChunk start) (isNew : start.log = [])
    (labels : List (Label K V))
    (keeps : MeetsAlong (txStep maxPerChunk start) (KeepsSlots maxPerChunk start) start labels)
    (reaches : run (txStep maxPerChunk start) start labels = some list) :
    IsMap maxPerChunk list.afterAbort ∧
      list.afterAbort.placeOf maxPerChunk = start.placeOf maxPerChunk ∧
      list.afterAbort.contents maxPerChunk = start.contents maxPerChunk := by
  have isWellFormed := wellFormed
  obtain ⟨chunks, high, holds⟩ := wellFormed
  have startSame : start.afterAbort = start := by
    rw [afterAbort, isNew, List.foldr_nil, ← isNew]
  have invariant := run_invariant
    (fun list => WellFormed maxPerChunk list ∧
      SameOn chunks (Live start chunks high) list.afterAbort start)
    (fun list label next good met stepped =>
      ⟨(good.1.step_spec hasSlot inWord (step_of_txStep stepped)).1,
        (sameOn_of_txStep holds good.1 met stepped).trans good.2⟩)
    ⟨isWellFormed, startSame.symm ▸ SameOn.refl start⟩ keeps reaches
  obtain ⟨restored, live, sameContent⟩ := holds.of_sameOn invariant.2
  have samePlaces : list.afterAbort.placeOf maxPerChunk = start.placeOf maxPerChunk := by
    funext key
    cases isPlace : start.placeOf maxPerChunk key with
    | some place =>
        obtain ⟨isLive, isKey⟩ := holds.placeOf_eq_some_iff.mp isPlace
        rw [restored.placeOf_eq_some_iff, live, (sameContent place isLive).1]
        exact ⟨isLive, isKey⟩
    | none =>
        rw [restored.placeOf_eq_none_iff]
        intro place isLive
        rw [live] at isLive
        rw [(sameContent place isLive).1]
        exact holds.placeOf_eq_none_iff.mp isPlace place isLive
  refine ⟨WellFormed.isMap ⟨chunks, high, restored⟩, samePlaces, ?_⟩
  funext key
  unfold contents
  rw [samePlaces]
  cases isPlace : start.placeOf maxPerChunk key with
  | none => rfl
  | some place =>
      have isLive := (holds.placeOf_eq_some_iff.mp isPlace).1
      exact congrArg some (sameContent place isLive).2

end Transactions

/-- Two elements in a chunk with room for three. -/
def twoKeys : ChunkList Nat Nat :=
  ⟨some 100, 2, fun _ => ⟨none, 3, 2, fun slot => (slot + 1, slot + 6)⟩, []⟩

theorem wellFormed_twoKeys : WellFormed 3 twoKeys := by
  refine ⟨[100], fun _ => 2, ⟨rfl, rfl⟩, List.nodup_singleton 100, by decide, by decide, by decide,
    fun first second firstLive secondLive same => ?_, rfl⟩
  have sameChunk := (List.mem_singleton.mp firstLive.1).trans
    (List.mem_singleton.mp secondLive.1).symm
  have sameSlot : first.slot + 1 = second.slot + 1 := same
  cases first
  cases second
  simp_all

theorem contents_afterAbort_newSlot :
    ∃ list, run (txStep 3 twoKeys) twoKeys
        [.set 1 9, .add 5 200 ⟨none, 0, 0, fun _ => (0, 0)⟩, .remove 2] = some list ∧
      list.afterAbort.contents 3 = twoKeys.contents 3 := by
  obtain ⟨list, reaches⟩ := Option.isSome_iff_exists.mp (by decide : (run (txStep 3 twoKeys)
    twoKeys [.set 1 9, .add 5 200 ⟨none, 0, 0, fun _ => (0, 0)⟩, .remove 2]).isSome = true)
  exact ⟨list, reaches,
    (contents_afterAbort (by decide) (by decide) wellFormed_twoKeys rfl _ (by decide) reaches).2.2⟩

/-- A removed element loses its slot to a new one, and is not given back. -/
theorem abort_loses_removed : WellFormed 3 twoKeys ∧ twoKeys.contents 3 1 = some 6 ∧
    (run (txStep 3 twoKeys) twoKeys
      [.remove 1, .add 5 200 ⟨none, 0, 0, fun _ => (0, 0)⟩]).map (fun list =>
        (list.afterAbort.contents 3 1, list.afterAbort.contents 3 5)) = some (none, some 0) :=
  ⟨wellFormed_twoKeys, by decide, by decide⟩

end Pmgd.ChunkList
