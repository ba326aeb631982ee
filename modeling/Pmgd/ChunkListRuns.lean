import Pmgd.ChunkListMap

/-!
# Runs of the operations on a list of chunks

A list is meant as a finite map.  Every operation is described by the map of places that it leaves
and by the values that it does not touch, and the contents of a list after a run are those that the
operations of the run have on a map.
-/

namespace Pmgd.ChunkList

open LabelledRun LinkedList

variable {K V : Type*} {list after : ChunkList K V} {chunks : List Nat}
  {high : Nat → Nat} {place : Place} {key : K} {maxPerChunk : Nat}

/-- The list has an invariant for some chunks and marks. -/
def WellFormed (maxPerChunk : Nat) (list : ChunkList K V) : Prop :=
  ∃ chunks high, Holds maxPerChunk list chunks high

theorem wellFormed_empty (memory : Nat → ChunkListType K V) :
    WellFormed maxPerChunk (empty memory) := by
  refine ⟨[], fun _ => 0, rfl, List.nodup_nil, ?_, ?_, ?_, fun place other isLive => ?_, rfl⟩
  · exact fun chunk member => absurd member List.not_mem_nil
  · exact fun chunk member => absurd member List.not_mem_nil
  · exact fun chunk member => absurd member List.not_mem_nil
  · exact absurd isLive.1 List.not_mem_nil

theorem Holds.length_of_chunk (holds : Holds maxPerChunk list chunks high) {places : List Place}
    (nodup : places.Nodup) (members : ∀ place, place ∈ places ↔ Live list chunks high place)
    {chunk : Nat} (isChunk : chunk ∈ chunks) :
    (places.filter fun place => place.chunk = chunk).length = (list.chunks chunk).numElems := by
  let slots := (places.filter fun place => place.chunk = chunk).map Place.slot
  have slotsNodup : slots.Nodup := by
    apply (nodup.filter _).map_on
    intro first inFirst second inSecond same
    obtain ⟨-, firstChunk⟩ := List.mem_filter.mp inFirst
    obtain ⟨-, secondChunk⟩ := List.mem_filter.mp inSecond
    cases first
    cases second
    simp_all
  have asFinset : slots.toFinset = (list.chunks chunk).liveSlots (high chunk) := by
    ext slot
    rw [List.mem_toFinset, List.mem_map]
    constructor
    · rintro ⟨place, inPlaces, rfl⟩
      obtain ⟨member, sameChunk⟩ := List.mem_filter.mp inPlaces
      have isLive := ((members place).mp member).2
      rwa [of_decide_eq_true sameChunk] at isLive
    · intro isLive
      have member := (members ⟨chunk, slot⟩).mpr ⟨isChunk, isLive⟩
      exact ⟨⟨chunk, slot⟩, List.mem_filter.mpr ⟨member, decide_eq_true rfl⟩, rfl⟩
  have card := List.toFinset_card_of_nodup slotsNodup
  rw [asFinset, holds.count chunk isChunk, List.length_map] at card
  exact card.symm

/-! ## Writing a value -/

theorem chunks_writeValue {value : V} (chunk : Nat) :
    ((list.writeValue place value).chunks chunk).next = (list.chunks chunk).next ∧
      ((list.writeValue place value).chunks chunk).occupants = (list.chunks chunk).occupants ∧
      ((list.writeValue place value).chunks chunk).numElems = (list.chunks chunk).numElems := by
  by_cases same : chunk = place.chunk
  · subst same
    simp [writeValue, fill, setChunk]
  · simp [writeValue, fill, setChunk, same]

theorem data_writeValue {value : V} (other : Place) :
    ((list.writeValue place value).chunks other.chunk).data other.slot =
      if other = place then (list.keyAt place, value)
      else (list.chunks other.chunk).data other.slot := by
  by_cases same : other = place
  · subst same
    simp [writeValue, fill, setChunk]
  · rw [if_neg same]
    by_cases sameChunk : other.chunk = place.chunk
    · have different : other.slot ≠ place.slot := by
        intro sameSlot
        apply same
        cases other
        cases place
        simp_all
      simp [writeValue, fill, setChunk, sameChunk, different]
    · simp [writeValue, fill, setChunk, sameChunk]

theorem keyAt_writeValue {value : V} (other : Place) :
    (list.writeValue place value).keyAt other = list.keyAt other := by
  rw [keyAt, data_writeValue]
  split_ifs with same
  · rw [same]
  · rfl

theorem Holds.writeValue (holds : Holds maxPerChunk list chunks high) (place : Place) (value : V) :
    Holds maxPerChunk (list.writeValue place value) chunks high ∧
      ∀ other, Live (list.writeValue place value) chunks high other ↔
        Live list chunks high other := by
  have sameSlots : ∀ chunk, ((list.writeValue place value).chunks chunk).liveSlots (high chunk) =
      (list.chunks chunk).liveSlots (high chunk) := fun chunk =>
    liveSlots_congr (chunks_writeValue chunk).2.1 _
  have sameElems : ∀ chunk, ((list.writeValue place value).chunks chunk).numElems =
      (list.chunks chunk).numElems := fun chunk => (chunks_writeValue chunk).2.2
  have live : ∀ other, Live (list.writeValue place value) chunks high other ↔
      Live list chunks high other := by
    intro other
    unfold Live
    rw [sameSlots]
  have sameLink : (list.writeValue place value).link = list.link := by
    funext pointer
    cases pointer with
    | none => rfl
    | some chunk => exact (chunks_writeValue chunk).1
  refine ⟨⟨sameLink ▸ holds.linked, holds.nodup, holds.high_le, fun chunk member => ?_,
    fun chunk member => ?_, fun first second firstLive secondLive same => ?_, ?_⟩, live⟩
  · rw [sameSlots, sameElems]
    exact holds.count chunk member
  · rw [sameElems]
    exact holds.nonempty chunk member
  · rw [keyAt_writeValue, keyAt_writeValue] at same
    exact holds.keys first second ((live first).mp firstLive) ((live second).mp secondLive) same
  · have sameCounts : (chunks.map fun chunk =>
        ((list.writeValue place value).chunks chunk).numElems) =
          chunks.map fun chunk => (list.chunks chunk).numElems :=
      List.map_congr_left fun chunk _ => sameElems chunk
    rw [sameCounts]
    exact holds.total

/-! ## Well-formed lists are maps -/

variable [DecidableEq K]

/-- What the walks over a list see. -/
structure IsMap (maxPerChunk : Nat) (list : ChunkList K V) : Prop where
  find_eq : ∀ key, list.find maxPerChunk key = some (list.placeOf maxPerChunk key)
  keyAt_eq : ∀ key place, list.placeOf maxPerChunk key = some place →
    list.keyAt place = key ∧ place.slot < maxPerChunk ∧ place.chunk ∈ list.linkedChunks
  listed : ∃ places, list.getKeyValues maxPerChunk = some places ∧ places.Nodup ∧
    (∀ place, place ∈ places ↔ ∃ key, list.placeOf maxPerChunk key = some place) ∧
    places.length = list.numElems ∧
    ∀ chunk ∈ list.linkedChunks,
      (places.filter fun place => place.chunk = chunk).length = (list.chunks chunk).numElems
  linked : Linked list.link none list.linkedChunks ∧ list.linkedChunks.Nodup
  nonempty : ∀ chunk ∈ list.linkedChunks, 0 < (list.chunks chunk).numElems
  scans_end : ∀ chunk ∈ list.linkedChunks,
    (∀ key, (scan (list.chunks chunk) key maxPerChunk 0 0 none).isSome) ∧
      (slotsFrom (list.chunks chunk) maxPerChunk 0 0).isSome

theorem WellFormed.isMap (wellFormed : WellFormed maxPerChunk list) : IsMap maxPerChunk list := by
  obtain ⟨chunks, high, holds⟩ := wellFormed
  have isLinked := holds.linkedChunks_eq
  obtain ⟨places, isPlaces, nodup, length, members⟩ := holds.getKeyValues_spec
  have ofKey : ∀ place, Live list chunks high place ↔
      ∃ key, list.placeOf maxPerChunk key = some place := by
    intro place
    constructor
    · intro isLive
      exact ⟨list.keyAt place, holds.placeOf_eq_some_iff.mpr ⟨isLive, rfl⟩⟩
    · rintro ⟨key, isPlace⟩
      exact (holds.placeOf_eq_some_iff.mp isPlace).1
  constructor
  case find_eq => exact holds.find_eq
  case keyAt_eq =>
    intro key place isPlace
    obtain ⟨isLive, isKey⟩ := holds.placeOf_eq_some_iff.mp isPlace
    have below := (mem_liveSlots.mp isLive.2).1
    exact ⟨isKey, below.trans_le (holds.high_le _ isLive.1), isLinked ▸ isLive.1⟩
  case listed =>
    refine ⟨places, isPlaces, nodup, fun place => (members place).trans (ofKey place), length, ?_⟩
    intro chunk isChunk
    rw [isLinked] at isChunk
    exact holds.length_of_chunk nodup members isChunk
  case linked =>
    rw [isLinked]
    exact ⟨holds.linked, holds.nodup⟩
  case nonempty =>
    rw [isLinked]
    exact holds.nonempty
  case scans_end =>
    rw [isLinked]
    intro chunk isChunk
    have count := holds.count chunk isChunk
    have bounded := holds.high_le chunk isChunk
    constructor
    · intro key
      rcases scan_chunk count bounded key with ⟨slot, -, -, isScan⟩ | ⟨last, elems, hole, isScan, -⟩
      · rw [isScan, Option.isSome_some]
      · rw [isScan, Option.isSome_some]
    · obtain ⟨slots, isSlots, -⟩ := slots_chunk count bounded
      rw [isSlots, Option.isSome_some]

/-! ## The operations -/

/-- An operation leaves the elements at these places, and the other keys with their values. -/
structure Leaves (maxPerChunk : Nat) (list : ChunkList K V) (key : K) (place : Option Place)
    (after : ChunkList K V) : Prop where
  wellFormed : WellFormed maxPerChunk after
  placeOf_eq : after.placeOf maxPerChunk =
    Function.update (list.placeOf maxPerChunk) key place
  valueAt_eq : ∀ other place, other ≠ key → list.placeOf maxPerChunk other = some place →
    after.valueAt place = list.valueAt place

theorem Holds.leaves_added {laterChunks : List Nat} {laterHigh : Nat → Nat} {value : V}
    (holds : Holds maxPerChunk list chunks high)
    (later : Holds maxPerChunk after laterChunks laterHigh)
    (live : ∀ other, Live after laterChunks laterHigh other ↔
      other = place ∨ Live list chunks high other)
    (adds : Adds list after chunks high place (key, value))
    (missing : ∀ other, Live list chunks high other → list.keyAt other ≠ key) :
    Leaves maxPerChunk list key (some place) after := by
  refine ⟨⟨laterChunks, laterHigh, later⟩, ?_, fun other place different isPlace => ?_⟩
  · funext other
    by_cases same : other = key
    · subst same
      rw [Function.update_self, later.placeOf_eq_some_iff]
      exact ⟨(live place).mpr (Or.inl rfl), adds.keyAt_new⟩
    · rw [Function.update_of_ne same]
      cases isPlace : list.placeOf maxPerChunk other with
      | some old =>
          obtain ⟨isLive, isKey⟩ := holds.placeOf_eq_some_iff.mp isPlace
          rw [later.placeOf_eq_some_iff, adds.keyAt_old old isLive]
          exact ⟨(live old).mpr (Or.inr isLive), isKey⟩
      | none =>
          rw [holds.placeOf_eq_none_iff] at isPlace
          rw [later.placeOf_eq_none_iff]
          intro old isLive
          rcases (live old).mp isLive with rfl | oldLive
          · rw [adds.keyAt_new]
            exact Ne.symm same
          · rw [adds.keyAt_old old oldLive]
            exact isPlace old oldLive
  · exact adds.valueAt_old place (holds.placeOf_eq_some_iff.mp isPlace).1

theorem Holds.leaves_removed {laterChunks : List Nat} {laterHigh : Nat → Nat}
    (holds : Holds maxPerChunk list chunks high)
    (later : Holds maxPerChunk after laterChunks laterHigh)
    (live : ∀ other, Live after laterChunks laterHigh other ↔
      Live list chunks high other ∧ other ≠ place)
    (sameData : ∀ chunk, (after.chunks chunk).data = (list.chunks chunk).data)
    (isLive : Live list chunks high place) (isKey : list.keyAt place = key) :
    Leaves maxPerChunk list key none after := by
  have keyAt_eq : ∀ other, after.keyAt other = list.keyAt other := by
    intro other
    unfold keyAt
    rw [sameData]
  refine ⟨⟨laterChunks, laterHigh, later⟩, ?_, fun other place different isPlace => ?_⟩
  · funext other
    by_cases same : other = key
    · subst same
      rw [Function.update_self, later.placeOf_eq_none_iff]
      intro old oldLive sameKey
      rw [keyAt_eq] at sameKey
      obtain ⟨wasLive, different⟩ := (live old).mp oldLive
      exact different (holds.keys old place wasLive isLive (sameKey.trans isKey.symm))
    · rw [Function.update_of_ne same]
      cases isPlace : list.placeOf maxPerChunk other with
      | some old =>
          obtain ⟨oldLive, oldKey⟩ := holds.placeOf_eq_some_iff.mp isPlace
          rw [later.placeOf_eq_some_iff, keyAt_eq]
          refine ⟨(live old).mpr ⟨oldLive, ?_⟩, oldKey⟩
          rintro rfl
          exact same (oldKey.symm.trans isKey)
      | none =>
          rw [holds.placeOf_eq_none_iff] at isPlace
          rw [later.placeOf_eq_none_iff]
          intro old oldLive
          rw [keyAt_eq]
          exact isPlace old ((live old).mp oldLive).1
  · unfold valueAt
    rw [sameData]

theorem WellFormed.leaves_self (wellFormed : WellFormed maxPerChunk list) (key : K) :
    Leaves maxPerChunk list key (list.placeOf maxPerChunk key) list :=
  ⟨wellFormed, (Function.update_eq_self key _).symm, fun _ _ _ _ => rfl⟩

/-- The outcomes of `add`. -/
theorem Holds.add_cases [Inhabited V] (holds : Holds maxPerChunk list chunks high) (key : K)
    (fresh : Nat) (memory : ChunkListType K V) :
    (∃ place, list.placeOf maxPerChunk key = some place ∧
      list.add maxPerChunk key fresh memory = some (place, list)) ∨
    list.placeOf maxPerChunk key = none ∧
      ((∃ place, firstRoom maxPerChunk list high chunks = some place ∧
        list.add maxPerChunk key fresh memory =
          some (place, list.fillRoom place (key, default))) ∨
      list.add maxPerChunk key fresh memory = some (⟨fresh, 0⟩,
        list.appendChunk chunks.getLast? fresh memory (key, default))) := by
  unfold add
  rcases holds.search_spec key with ⟨before, chunk, rest, slot, -, isLive, isKey, isFound⟩ |
    ⟨isMissing, missing⟩
  · left
    refine ⟨⟨chunk, slot⟩, holds.placeOf_eq_some_iff.mpr ⟨isLive, isKey⟩, ?_⟩
    rw [isFound, Option.map_some]
  · right
    refine ⟨holds.placeOf_eq_none_iff.mpr missing, ?_⟩
    rw [isMissing, Option.map_some]
    cases firstRoom maxPerChunk list high chunks with
    | some place => exact Or.inl ⟨place, rfl, rfl⟩
    | none => exact Or.inr rfl

/-- What `add` gives and leaves. -/
theorem WellFormed.add_spec [Inhabited V] (wellFormed : WellFormed maxPerChunk list)
    (hasSlot : 1 ≤ maxPerChunk) (inWord : maxPerChunk ≤ 16) (key : K) {fresh : Nat}
    (memory : ChunkListType K V) (isFresh : fresh ∉ list.linkedChunks) :
    ∃ place after, list.add maxPerChunk key fresh memory = some (place, after) ∧
      Leaves maxPerChunk list key (some place) after ∧
      (list.placeOf maxPerChunk key = some place ∧ after = list ∨
        list.placeOf maxPerChunk key = none ∧ after.valueAt place = default) := by
  have isWellFormed := wellFormed
  obtain ⟨chunks, high, holds⟩ := wellFormed
  rw [holds.linkedChunks_eq] at isFresh
  rcases holds.add_cases key fresh memory with ⟨place, isPlace, isAdded⟩ |
    ⟨isNone, ⟨place, isFirst, isAdded⟩ | isAdded⟩
  · have leaves := isWellFormed.leaves_self key
    rw [isPlace] at leaves
    exact ⟨place, list, isAdded, leaves, Or.inl ⟨isPlace, rfl⟩⟩
  · have missing := holds.placeOf_eq_none_iff.mp isNone
    obtain ⟨isChunk, hasRoom⟩ := isRoom_of_firstRoom isFirst
    obtain ⟨laterHigh, later, live, adds⟩ :=
      @Holds.fillRoom K V list chunks high place maxPerChunk holds inWord isChunk hasRoom key
        default missing
    refine ⟨place, list.fillRoom place (key, default), isAdded, ?_, Or.inr ⟨isNone, ?_⟩⟩
    · exact holds.leaves_added later live adds missing
    · exact adds.valueAt_new
  · have missing := holds.placeOf_eq_none_iff.mp isNone
    obtain ⟨laterHigh, later, live, adds⟩ :=
      @Holds.appendChunk K V list chunks high maxPerChunk fresh memory holds hasSlot isFresh
        key default missing
    refine ⟨⟨fresh, 0⟩, list.appendChunk chunks.getLast? fresh memory (key, default), isAdded, ?_,
      Or.inr ⟨isNone, ?_⟩⟩
    · exact holds.leaves_added later live adds missing
    · exact adds.valueAt_new

/-- The outcomes of `remove`. -/
theorem Holds.remove_cases (holds : Holds maxPerChunk list chunks high) (key : K) :
    (∃ before place rest, chunks = before ++ place.chunk :: rest ∧
      Live list chunks high place ∧ list.keyAt place = key ∧
      list.remove maxPerChunk key = some (list.clearSlot before.getLast? place)) ∨
    list.placeOf maxPerChunk key = none ∧ list.remove maxPerChunk key = some list := by
  unfold remove
  rcases holds.search_spec key with ⟨before, chunk, rest, slot, isChunks, isLive, isKey, isFound⟩ |
    ⟨isMissing, missing⟩
  · left
    refine ⟨before, ⟨chunk, slot⟩, rest, isChunks, isLive, isKey, ?_⟩
    rw [isFound, Option.map_some]
    rfl
  · right
    refine ⟨holds.placeOf_eq_none_iff.mpr missing, ?_⟩
    rw [isMissing, Option.map_some]

/-- What `remove` leaves. -/
theorem WellFormed.remove_spec (wellFormed : WellFormed maxPerChunk list) (key : K) :
    ∃ after, list.remove maxPerChunk key = some after ∧
      Leaves maxPerChunk list key none after := by
  have isWellFormed := wellFormed
  obtain ⟨chunks, high, holds⟩ := wellFormed
  rcases holds.remove_cases key with ⟨before, place, rest, isChunks, isLive, isKey, isRemoved⟩ |
    ⟨isNone, isRemoved⟩
  · obtain ⟨laterChunks, later, live⟩ := holds.clearSlot isChunks isLive
    refine ⟨list.clearSlot before.getLast? place, isRemoved, ?_⟩
    exact holds.leaves_removed later live (fun other => (chunks_clearSlot other).1) isLive isKey
  · have leaves := isWellFormed.leaves_self key
    rw [isNone] at leaves
    exact ⟨list, isRemoved, leaves⟩

theorem WellFormed.writeValue_spec (wellFormed : WellFormed maxPerChunk list)
    (isPlace : list.placeOf maxPerChunk key = some place) (value : V) :
    Leaves maxPerChunk list key (some place) (list.writeValue place value) ∧
      (list.writeValue place value).valueAt place = value := by
  obtain ⟨chunks, high, holds⟩ := wellFormed
  obtain ⟨later, live⟩ := holds.writeValue place value
  refine ⟨⟨⟨chunks, high, later⟩, ?_, fun other old different isOld => ?_⟩, ?_⟩
  · rw [← isPlace, Function.update_eq_self]
    funext other
    cases isOther : list.placeOf maxPerChunk other with
    | some old =>
        rw [later.placeOf_eq_some_iff, live, keyAt_writeValue]
        exact holds.placeOf_eq_some_iff.mp isOther
    | none =>
        rw [later.placeOf_eq_none_iff]
        intro old isLive
        rw [keyAt_writeValue]
        exact holds.placeOf_eq_none_iff.mp isOther old ((live old).mp isLive)
  · have notPlace : old ≠ place := by
      rintro rfl
      rw [holds.placeOf_eq_some_iff] at isPlace isOld
      exact different (isOld.2.symm.trans isPlace.2)
    rw [valueAt, data_writeValue, if_neg notPlace]
    rfl
  · rw [valueAt, data_writeValue, if_pos rfl]

/-! ## Runs -/

/-- What the clients of a list do; a new chunk of `add` would come from `fresh`, with what is in
this memory. -/
inductive Label (K V : Type*)
  | add (key : K) (fresh : Nat) (memory : ChunkListType K V)
  | remove (key : K)
  | set (key : K) (value : V)

variable [Inhabited V]

/-- The allocator gives no memory that is in use. -/
def step (maxPerChunk : Nat) (list : ChunkList K V) : Label K V → Option (ChunkList K V)
  | .add key fresh memory =>
      if fresh ∈ list.linkedChunks then none
      else (list.add maxPerChunk key fresh memory).map Prod.snd
  | .remove key => list.remove maxPerChunk key
  | .set key value =>
      (list.find maxPerChunk key).bind fun found =>
        found.map fun place => list.writeValue place value

/-- The operations on a map. -/
def Label.onMap (contents : K → Option V) : Label K V → K → Option V
  | .add key _ _ => Function.update contents key (some ((contents key).getD default))
  | .remove key => Function.update contents key none
  | .set key value => Function.update contents key (some value)

/-- The map that a list stands for. -/
def contents (maxPerChunk : Nat) (list : ChunkList K V) (key : K) : Option V :=
  (list.placeOf maxPerChunk key).map list.valueAt

omit [Inhabited V] in
theorem Leaves.contents_eq {place : Option Place}
    (leaves : Leaves maxPerChunk list key place after) :
    after.contents maxPerChunk =
      Function.update (list.contents maxPerChunk) key (place.map after.valueAt) := by
  funext other
  unfold contents
  rw [leaves.placeOf_eq]
  by_cases same : other = key
  · subst same
    rw [Function.update_self, Function.update_self]
  · rw [Function.update_of_ne same, Function.update_of_ne same]
    cases isPlace : list.placeOf maxPerChunk other with
    | none => rfl
    | some old => exact congrArg some (leaves.valueAt_eq other old same isPlace)

theorem WellFormed.step_spec (wellFormed : WellFormed maxPerChunk list)
    (hasSlot : 1 ≤ maxPerChunk) (inWord : maxPerChunk ≤ 16) {label : Label K V}
    (stepped : step maxPerChunk list label = some after) :
    WellFormed maxPerChunk after ∧
      after.contents maxPerChunk = label.onMap (list.contents maxPerChunk) := by
  cases label with
  | add key fresh memory =>
      rw [step] at stepped
      split_ifs at stepped with inUse
      obtain ⟨place, added, isAdded, leaves, isPlace⟩ :=
        wellFormed.add_spec hasSlot inWord key memory inUse
      rw [isAdded, Option.map_some, Option.some.injEq] at stepped
      obtain rfl : added = after := stepped
      refine ⟨leaves.wellFormed, leaves.contents_eq.trans (congrArg _ ?_)⟩
      rw [Option.map_some, contents]
      rcases isPlace with ⟨isOld, rfl⟩ | ⟨isNone, isDefault⟩
      · rw [isOld, Option.map_some, Option.getD_some]
      · rw [isNone, Option.map_none, Option.getD_none, isDefault]
  | remove key =>
      obtain ⟨removed, isRemoved, leaves⟩ := wellFormed.remove_spec key
      rw [step, isRemoved, Option.some.injEq] at stepped
      subst stepped
      exact ⟨leaves.wellFormed, leaves.contents_eq⟩
  | set key value =>
      rw [step, wellFormed.isMap.find_eq, Option.bind_some, Option.map_eq_some_iff] at stepped
      obtain ⟨place, isPlace, rfl⟩ := stepped
      obtain ⟨leaves, isValue⟩ := wellFormed.writeValue_spec isPlace value
      refine ⟨leaves.wellFormed, leaves.contents_eq.trans ?_⟩
      rw [Option.map_some, isValue]
      rfl

theorem wellFormed_of_run (hasSlot : 1 ≤ maxPerChunk) (inWord : maxPerChunk ≤ 16)
    (wellFormed : WellFormed maxPerChunk list) {labels : List (Label K V)}
    (reaches : run (step maxPerChunk) list labels = some after) :
    WellFormed maxPerChunk after ∧
      after.contents maxPerChunk = labels.foldl Label.onMap (list.contents maxPerChunk) := by
  induction labels generalizing list with
  | nil =>
      obtain rfl := Option.some.inj reaches
      exact ⟨wellFormed, rfl⟩
  | cons label labels ih =>
      rw [run_cons, Option.bind_eq_some_iff] at reaches
      obtain ⟨next, stepped, rest⟩ := reaches
      obtain ⟨nextWellFormed, sameContents⟩ := wellFormed.step_spec hasSlot inWord stepped
      rw [List.foldl_cons, ← sameContents]
      exact ih nextWellFormed rest

/-- After every run a list of chunks is the finite map that the operations of the run make, and
every operation works on it as on a map. -/
theorem finiteMap_of_run (hasSlot : 1 ≤ maxPerChunk) (inWord : maxPerChunk ≤ 16)
    (memory : Nat → ChunkListType K V) (labels : List (Label K V))
    (reaches : run (step maxPerChunk) (empty memory) labels = some list) :
    IsMap maxPerChunk list ∧
      list.contents maxPerChunk = labels.foldl Label.onMap (fun _ => none) ∧
      (∀ key fresh content, fresh ∉ list.linkedChunks →
        ∃ place after, list.add maxPerChunk key fresh content = some (place, after) ∧
          IsMap maxPerChunk after ∧
          after.placeOf maxPerChunk =
            Function.update (list.placeOf maxPerChunk) key (some place) ∧
          (∀ other place, other ≠ key → list.placeOf maxPerChunk other = some place →
            after.valueAt place = list.valueAt place) ∧
          (list.placeOf maxPerChunk key = some place ∧ after = list ∨
            list.placeOf maxPerChunk key = none ∧ after.valueAt place = default)) ∧
      ∀ key, ∃ after, list.remove maxPerChunk key = some after ∧ IsMap maxPerChunk after ∧
        after.placeOf maxPerChunk = Function.update (list.placeOf maxPerChunk) key none ∧
        ∀ other place, other ≠ key → list.placeOf maxPerChunk other = some place →
          after.valueAt place = list.valueAt place := by
  obtain ⟨wellFormed, isContents⟩ :=
    wellFormed_of_run hasSlot inWord (wellFormed_empty memory) reaches
  refine ⟨wellFormed.isMap, isContents, fun key fresh content isFresh => ?_, fun key => ?_⟩
  · obtain ⟨place, after, isAdded, leaves, isPlace⟩ :=
      wellFormed.add_spec hasSlot inWord key content isFresh
    exact ⟨place, after, isAdded, leaves.wellFormed.isMap, leaves.placeOf_eq, leaves.valueAt_eq,
      isPlace⟩
  · obtain ⟨after, isRemoved, leaves⟩ := wellFormed.remove_spec key
    exact ⟨after, isRemoved, leaves.wellFormed.isMap, leaves.placeOf_eq, leaves.valueAt_eq⟩

/-- All bits are set in the memory for new chunks, and the first slot is filled again. -/
def refill : List (Label Nat Nat) :=
  let memory := ⟨none, 0xffff#16, 9, fun _ => (4, 5)⟩
  [.add 1 100 memory, .add 2 200 memory, .set 2 7, .remove 1, .add 4 300 memory, .add 5 300 memory]

theorem finiteMap_of_run_refill :
    ∃ list, run (step 2) (empty fun _ => ⟨none, 0xffff#16, 9, fun _ => (4, 5)⟩) refill =
        some list ∧
      IsMap 2 list ∧ list.contents 2 2 = some 7 ∧ list.contents 2 4 = some 0 := by
  obtain ⟨list, reaches⟩ := Option.isSome_iff_exists.mp (by decide :
    (run (step 2) (empty fun _ => ⟨none, 0xffff#16, 9, fun _ => (4, 5)⟩) refill).isSome = true)
  obtain ⟨isMap, isContents, -⟩ := finiteMap_of_run (by decide) (by decide) _ _ reaches
  exact ⟨list, reaches, isMap, by rw [isContents]; rfl, by rw [isContents]; rfl⟩

end Pmgd.ChunkList
