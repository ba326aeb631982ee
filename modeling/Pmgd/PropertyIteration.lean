import Pmgd.PropertyListRuns

/-!
# Iterators over a property list

An iterator is at a property of the list and has those behind it before it.  The removal of the
property that it is at moves it to the next one, and `next` then stays there.  The removal of
another property of the same chunk lets `next` stay as well, so that it visits a property again,
but no removal lets it skip one.
-/

namespace Pmgd

open ByteMemory RecordRun ThrowingState ListEdit

/-! ## Loops over the properties -/

/-- What a caller does while it iterates. -/
inductive IterationAction
  | next
  | remove (id : BitVec 16)

/-- What a caller has seen and done. -/
inductive IterationEvent
  | visited (id : BitVec 16)
  | removed (id : BitVec 16)
  | ended
  deriving DecidableEq

namespace PropertyList

/-- The id of the property that an iterator is at; `none` ends a loop. -/
def visit (iterator : PropertyListIterator) : ListEdit (Option (BitVec 16)) := do
  if iterator.isValid then
    match iterator.ref with
    | .error failure => throw failure
    | .ok none => throw .assertion
    | .ok (some ref) =>
        let id ← ofOption (ref.getId (← get).mem)
        return some id
  else return none

/-- `next` of a registered iterator. -/
def nextAt (index : Nat) : ListEdit PropertyListIterator := do
  let world ← get
  let iterator ← ofOption world.iterators[index]?
  let moved ← ofOption (iterator.next world.mem world.rounds)
  set { world with iterators := world.iterators.set index moved }
  return moved

/-- A caller that removes properties while it iterates. -/
def follow (list index : Nat) : List IterationAction → ListEdit (List IterationEvent)
  | [] => return []
  | .remove id :: actions => do
      removeProperty list id
      let events ← follow list index actions
      return .removed id :: events
  | .next :: actions => do
      match ← visit (← nextAt index) with
      | none => return [.ended]
      | some id => do
          let events ← follow list index actions
          return .visited id :: events

def iterate (list : Nat) (actions : List IterationAction) : ListEdit (List IterationEvent) := do
  let index := (← get).iterators.length
  match ← visit (← getProperties list) with
  | none => return [.ended]
  | some id => do
      let events ← follow list index actions
      return .visited id :: events

/-- A loop that removes the property that it is at, if it is one to drop. -/
def removeFrom (list index : Nat) (drop : BitVec 16 → Bool) :
    Nat → PropertyListIterator → ListEdit (List (BitVec 16))
  | 0, _ => throw .assertion
  | rounds + 1, iterator => do
      match ← visit iterator with
      | none => return []
      | some id => do
          if drop id then removeProperty list id
          let ids ← removeFrom list index drop rounds (← nextAt index)
          return id :: ids

def removeWhere (list : Nat) (drop : BitVec 16 → Bool) : ListEdit (List (BitVec 16)) := do
  let world ← get
  removeFrom list world.iterators.length drop world.rounds (← getProperties list)

end PropertyList

/-! ## Where an iterator is -/

/-- The properties from the place of an iterator on. -/
def Upcoming (chain : List PropertyChunk) (cur : Option PropertyRef)
    (entries : List PropertyEntry) : Prop :=
  match cur with
  | none => entries = []
  | some ref => ∃ before after chunk front entry back,
      PlaceIn chain ref before after chunk front (.used entry :: back) ∧
        entries = entry :: (entriesOf back ++ chainEntries after)

/-- A registered iterator with the properties from its place on. -/
def AtEntries (world : ListWorld) (chain : List PropertyChunk) (index : Nat) (vacantFlag : Bool)
    (entries : List PropertyEntry) : Prop :=
  ∃ cur, world.iterators[index]? = some ⟨cur, vacantFlag⟩ ∧ Upcoming chain cur entries

/-- The properties that `next` has still to visit. -/
def pending (vacantFlag : Bool) (entries : List PropertyEntry) : List PropertyEntry :=
  if vacantFlag then entries else entries.tail

section Places

variable {list size : Nat} {world : ListWorld} {chain before after before' after' : List PropertyChunk}
  {ref other : PropertyRef} {chunk otherChunk : PropertyChunk} {front back front' back' : List Slot}
  {entry second : PropertyEntry}

/-- What is behind the only entry with an id. -/
theorem behind_unique {first last first' last' : List PropertyEntry}
    (same : first ++ entry :: last = first' ++ second :: last')
    (ids : ((first ++ entry :: last).map PropertyEntry.id).Nodup) (sameId : entry.id = second.id) :
    first = first' ∧ entry = second ∧ last = last' := by
  have ids' := ids
  rw [same] at ids'
  rw [List.map_append, List.map_cons] at ids ids'
  obtain ⟨-, lastIds, disjoint⟩ := List.nodup_append.mp ids
  obtain ⟨-, lastIds', disjoint'⟩ := List.nodup_append.mp ids'
  rcases split_cases same with ⟨more, rfl, rfl⟩ | all | ⟨more, rfl, rfl⟩
  · exact ((disjoint' entry.id (by simp) second.id List.mem_cons_self) sameId).elim
  · exact all
  · exact ((disjoint second.id (by simp) entry.id List.mem_cons_self) sameId.symm).elim

/-- There is one place for each entry. -/
theorem PlaceIn.ref_unique (held : ListHeld list size world chain)
    (place : PlaceIn chain ref before after chunk front (.used entry :: back))
    (place' : PlaceIn chain other before' after' otherChunk front' (.used second :: back'))
    (sameId : entry.id = second.id) : ref = other := by
  have ids := held.ids
  have areEntries := place.entries
  have areEntries' := place'.entries
  rw [entriesOf_used, List.cons_append] at areEntries areEntries'
  rw [areEntries] at ids
  obtain ⟨sameFirst, rfl, -⟩ := behind_unique (areEntries.symm.trans areEntries') ids sameId
  rw [List.map_append, List.map_cons] at ids
  have absent : entry ∉ chainEntries before ++ entriesOf front := by
    intro member
    exact (List.nodup_append.mp ids).2.2 _ (List.mem_map_of_mem member) _ List.mem_cons_self rfl
  have absent' := sameFirst ▸ absent
  obtain ⟨isChain, isSlots, isRef⟩ := place
  obtain ⟨isChain', isSlots', isRef'⟩ := place'
  have inSlots : entry ∈ entriesOf chunk.slots := by simp [isSlots]
  have inSlots' : entry ∈ entriesOf otherChunk.slots := by simp [isSlots']
  rcases split_cases (isChain ▸ isChain') with
    ⟨more, rfl, rfl⟩ | ⟨rfl, rfl, rfl⟩ | ⟨more, rfl, rfl⟩
  · exact (absent' (by simp [inSlots])).elim
  · rcases split_cases (isSlots ▸ isSlots') with
      ⟨more, rfl, rfl⟩ | ⟨rfl, -, -⟩ | ⟨more, rfl, rfl⟩
    · exact (absent' (by simp)).elim
    · rw [isRef, isRef']
    · exact (absent (by simp)).elim
  · exact (absent (by simp [inSlots'])).elim

/-- The move of an iterator to the first property from a place on. -/
theorem ListHeld.exists_moved (held : ListHeld list size world chain)
    (place : PlaceIn chain ref before after chunk front back) (vacantFlag : Bool) :
    ∃ cur, PropertyListIterator.moved world.mem world.rounds ref vacantFlag =
        some ⟨cur, vacantFlag⟩ ∧
      Upcoming chain cur (entriesOf back ++ chainEntries after) := by
  obtain ⟨steps, few, walk⟩ := place.walk held.held
  have areEntries : (chunk.placesFrom (1 + slotLayout.total front) back ++
      chainPlaces after).filterMap (fun place => place.2.toEntry) =
        entriesOf back ++ chainEntries after := by
    rw [List.filterMap_append, entries_of_places, entries_of_chainPlaces]
  have ids := held.ids
  rw [PropertyListIterator.moved, skipToNext_eq walk (few.trans held.chainBytes_le)]
  cases isPlace : (chunk.placesFrom (1 + slotLayout.total front) back ++ chainPlaces after).find?
      (fun place => ¬ place.2.IsUnused) with
  | none =>
      refine ⟨none, rfl, ?_⟩
      rw [← areEntries]
      apply List.filterMap_eq_nil_iff.mpr
      rintro ⟨other, slot⟩ member
      have isUnused := List.find?_eq_none.mp isPlace _ member
      cases slot with
      | unused count => rfl
      | used entry => exact absurd (decide_eq_true (show ¬ (Slot.used entry).IsUnused from id)) isUnused
  | some place' =>
      obtain ⟨other, slot⟩ := place'
      refine ⟨some other, rfl, ?_⟩
      obtain ⟨isUsed, first, last, isSplit, unused⟩ := List.find?_eq_some_iff_append.mp isPlace
      obtain ⟨before', after', otherChunk, front', back', later⟩ :=
        place.later (List.mem_of_find?_eq_some isPlace)
      cases slot with
      | unused count => exact absurd trivial (of_decide_eq_true isUsed)
      | used entry =>
          have noEntries : first.filterMap (fun place => place.2.toEntry) = [] := by
            apply List.filterMap_eq_nil_iff.mpr
            rintro ⟨another, slot⟩ member
            have isUnused := unused _ member
            cases slot with
            | unused count => rfl
            | used entry =>
                have notUnused : decide (¬ (Slot.used entry).IsUnused) = true :=
                  decide_eq_true (show ¬ (Slot.used entry).IsUnused from id)
                simp [notUnused] at isUnused
          rw [isSplit, List.filterMap_append, noEntries] at areEntries
          refine ⟨before', after', otherChunk, front', entry, back', later, ?_⟩
          have wholeEntries := place.entries
          rw [← areEntries] at wholeEntries
          have laterEntries := later.entries
          rw [wholeEntries] at ids
          obtain ⟨-, -, behind⟩ := behind_unique (wholeEntries.symm.trans laterEntries) ids rfl
          rw [← areEntries]
          exact congrArg (entry :: ·) behind

theorem Upcoming.suffix {cur : Option PropertyRef} {entries : List PropertyEntry}
    (upcoming : Upcoming chain cur entries) : entries <:+ chainEntries chain := by
  cases cur with
  | none =>
      obtain rfl : entries = [] := upcoming
      exact List.nil_suffix
  | some ref =>
      obtain ⟨before, after, chunk, front, entry, back, place, rfl⟩ := upcoming
      rw [place.entries, entriesOf_used, List.cons_append]
      exact List.suffix_append _ _

/-- The removal of a property that an iterator is not at. -/
theorem Upcoming.freed {cur : Option PropertyRef} {entries : List PropertyEntry}
    (held : ListHeld list size world chain) (upcoming : Upcoming chain cur entries)
    (place : PlaceIn chain ref before after chunk front (.used entry :: back))
    (elsewhere : ∀ first ∈ entries.head?, first.id ≠ entry.id) :
    Upcoming (freedChain before after chunk front back entry) cur
      (entries.filter fun other => other.id ≠ entry.id) := by
  cases cur with
  | none =>
      obtain rfl : entries = [] := upcoming
      rfl
  | some other =>
      obtain ⟨before', after', otherChunk, front', second, back', place', rfl⟩ := upcoming
      have otherId : second.id ≠ entry.id := elsewhere second rfl
      obtain ⟨before'', after'', changed, front'', rest, place'', -, -, -⟩ :=
        place'.freed place fun same => otherId (congrArg PropertyEntry.id (Slot.used.inj same))
      refine ⟨before'', after'', changed, front'', second, rest, place'', ?_⟩
      have areOthers : chainEntries (freedChain before after chunk front back entry) =
          othersOf chain entry.id := by
        rw [freedChain, entries_edit, entriesOf_freedSlots, (othersOf_eq held place).1]
      have kept (others : List PropertyEntry) :
          (second :: others).filter (fun other => other.id ≠ entry.id) =
            second :: others.filter fun other => other.id ≠ entry.id :=
        List.filter_cons_of_pos (by simp [otherId])
      have laterEntries := place''.entries
      rw [areOthers, othersOf, place'.entries, entriesOf_used, entriesOf_used, List.cons_append,
        List.cons_append, List.filter_append, kept] at laterEntries
      have ids := held.ids.sublist ((List.filter_sublist (p := fun other =>
        other.id ≠ entry.id)).map PropertyEntry.id)
      rw [place'.entries, entriesOf_used, List.cons_append, List.filter_append, kept] at ids
      obtain ⟨-, -, behind⟩ := behind_unique laterEntries ids rfl
      rw [kept, behind]

/-! ## What an iterator does -/

theorem visit_eq {cur : Option PropertyRef} {entries : List PropertyEntry}
    (held : ListHeld list size world chain) (upcoming : Upcoming chain cur entries) :
    PropertyList.visit ⟨cur, false⟩ world =
      .ok (entries.head?.map PropertyEntry.id) world := by
  cases cur with
  | none =>
      obtain rfl : entries = [] := upcoming
      rfl
  | some ref =>
      obtain ⟨before, after, chunk, front, entry, back, place, rfl⟩ := upcoming
      have isId := PropertyRef.getId_used (place.restAt held.held).held
      have isValid : (⟨some ref, false⟩ : PropertyListIterator).isValid = true := rfl
      rw [PropertyList.visit, if_pos isValid]
      exact bind_ok (ofOption_eq isId)

/-- `next` goes on to the first pending property. -/
theorem ListHeld.nextAt_eq {index : Nat} {vacantFlag : Bool} {entries : List PropertyEntry}
    (held : ListHeld list size world chain) (at_ : AtEntries world chain index vacantFlag entries)
    (isValid : vacantFlag = false → entries ≠ []) :
    ∃ cur iterators, PropertyList.nextAt index world = .ok ⟨cur, false⟩ { world with iterators } ∧
      Upcoming chain cur (pending vacantFlag entries) ∧
      AtEntries { world with iterators } chain index false (pending vacantFlag entries) := by
  obtain ⟨cur, isIterator, upcoming⟩ := at_
  have inside := (List.getElem?_eq_some_iff.mp isIterator).1
  have moves : ∃ next, (⟨cur, vacantFlag⟩ : PropertyListIterator).next world.mem world.rounds =
      some ⟨next, false⟩ ∧ Upcoming chain next (pending vacantFlag entries) := by
    cases vacantFlag with
    | true => exact ⟨cur, rfl, upcoming⟩
    | false =>
        cases cur with
        | none => exact absurd upcoming (isValid rfl)
        | some ref =>
            obtain ⟨before, after, chunk, front, entry, back, place, rfl⟩ := upcoming
            obtain ⟨next, isMoved, following⟩ := held.exists_moved place.next false
            refine ⟨next, ?_, following⟩
            rw [← isMoved, ← (place.restAt held.held).skip_eq]
            rfl
  obtain ⟨next, isNext, following⟩ := moves
  refine ⟨next, world.iterators.set index ⟨next, false⟩, ?_, following, next, ?_, following⟩
  · rw [PropertyList.nextAt, get_bind, bind_ok (ofOption_eq isIterator),
      bind_ok (ofOption_eq isNext)]
    rfl
  · exact List.getElem?_set_self inside

theorem getElem?_mapM {α β : Type*} {f : α → Option β} {as : List α} {bs : List β}
    (mapped : as.mapM f = some bs) (index : Nat) : bs[index]? = as[index]?.bind f := by
  induction as generalizing bs index with
  | nil =>
      obtain rfl : bs = [] := (Option.some.inj mapped).symm
      rfl
  | cons a as ih =>
      rw [List.mapM_cons] at mapped
      obtain ⟨b, isFirst, others⟩ := Option.bind_eq_some_iff.mp mapped
      obtain ⟨rest, areOthers, isAll⟩ := Option.bind_eq_some_iff.mp others
      obtain rfl : b :: rest = bs := Option.some.inj isAll
      cases index with
      | zero => exact isFirst.symm
      | succ index => exact ih areOthers index

/-- The removal of a property while an iterator is registered: it goes on behind the property, and
`next` stays if it was there. -/
theorem ListHeld.removeProperty_at {index : Nat} {vacantFlag : Bool} {entries : List PropertyEntry}
    (held : ListHeld list size world chain) (at_ : AtEntries world chain index vacantFlag entries)
    (id : BitVec 16) :
    ∃ next rest vacant, PropertyList.removeProperty list id world = .ok () next ∧
      ListHeld list size next rest ∧ chainEntries rest = othersOf chain id ∧
      AtEntries next rest index vacant (entries.filter fun entry => entry.id ≠ id) ∧
      (vacant = false → vacantFlag = false ∧ ∀ first ∈ entries.head?, first.id ≠ id) := by
  obtain ⟨cur, isIterator, upcoming⟩ := at_
  have suffix := upcoming.suffix
  rcases held.removeProperty_cases id with
    ⟨ref, before, after, chunk, front, entry, back, next, rfl, place, isRemoved, areOthers, changed,
      notified⟩ | ⟨others, isRemoved⟩
  · have isNotified := getElem?_mapM notified index
    rw [isIterator, Option.bind_some, PropertyListIterator.notify] at isNotified
    cases cur with
    | none =>
        obtain rfl : entries = [] := upcoming
        exact ⟨next, _, vacantFlag, isRemoved, changed.held, areOthers, ⟨none, isNotified, rfl⟩,
          fun same => ⟨same, by simp⟩⟩
    | some cur =>
        dsimp only at isNotified
        have notStart : ref.offset ≠ 0 := by
          have isOffset : ref.offset = 1 + slotLayout.total front := congrArg _ place.isRef
          omega
        rw [if_neg notStart] at isNotified
        by_cases here : cur = ref
        · subst here
          rw [if_pos rfl, if_pos rfl] at isNotified
          obtain ⟨before', after', otherChunk, front', second, back', place', rfl⟩ := upcoming
          have sameId : second.id = entry.id := by
            have isId := PropertyRef.getId_used (place.restAt held.held).held
            have isId' := PropertyRef.getId_used (place'.restAt held.held).held
            exact Option.some.inj (isId'.symm.trans isId)
          obtain ⟨following, isMoved, behind⟩ := held.exists_moved place'.next true
          rw [(place'.restAt held.held).skip_eq] at isNotified
          have ids := held.ids.sublist (suffix.sublist.map PropertyEntry.id)
          rw [List.map_cons, sameId] at ids
          have absent := (List.nodup_cons.mp ids).1
          have elsewhere : ∀ first ∈ (entriesOf back' ++ chainEntries after').head?,
              first.id ≠ entry.id := by
            intro first isFirst same
            exact absent (same ▸ List.mem_map_of_mem (List.mem_of_mem_head? isFirst))
          have upcoming := behind.freed held place elsewhere
          refine ⟨next, _, true, isRemoved, changed.held, areOthers,
            ⟨following, isNotified.trans isMoved, ?_⟩, Bool.noConfusion⟩
          rwa [List.filter_cons_of_neg (by simp [sameId])]
        · have elsewhere : ∀ first ∈ entries.head?, first.id ≠ entry.id := by
            obtain ⟨before', after', otherChunk, front', second, back', place', rfl⟩ := upcoming
            intro first isFirst same
            obtain rfl : second = first := Option.some.inj isFirst
            exact here (place'.ref_unique held place same)
          have upcoming := upcoming.freed held place elsewhere
          by_cases sameChunk : ref.chunk = cur.chunk
          · have otherOffset : ref.offset ≠ cur.offset := by
              intro sameOffset
              apply here
              cases cur
              cases ref
              simp_all
            rw [if_pos sameChunk, if_neg otherOffset] at isNotified
            exact ⟨next, _, true, isRemoved, changed.held, areOthers, ⟨some cur, isNotified, upcoming⟩,
              Bool.noConfusion⟩
          · rw [if_neg sameChunk] at isNotified
            exact ⟨next, _, vacantFlag, isRemoved, changed.held, areOthers,
              ⟨some cur, isNotified, upcoming⟩, fun same => ⟨same, elsewhere⟩⟩
  · have kept : entries.filter (fun entry => entry.id ≠ id) = entries :=
      List.filter_eq_self.mpr fun entry member =>
        decide_eq_true (others entry (suffix.subset member))
    refine ⟨world, chain, vacantFlag, isRemoved, held, (othersOf_of_missing others).1.symm,
      ⟨cur, isIterator, kept.symm ▸ upcoming⟩, fun same => ⟨same, ?_⟩⟩
    intro first isFirst
    exact others first (suffix.subset (List.mem_of_mem_head? isFirst))

theorem ListHeld.getProperties_eq (held : ListHeld list size world chain) :
    ∃ cur next, PropertyList.getProperties list world = .ok ⟨cur, false⟩ next ∧
      ListHeld list size next chain ∧ Upcoming chain cur (chainEntries chain) ∧
      (chainEntries chain ≠ [] →
        AtEntries next chain world.iterators.length false (chainEntries chain)) := by
  obtain ⟨first, rest, rfl, rfl, rfl⟩ := held.exists_head
  have place : PlaceIn (first :: rest) (first.refAt 1) [] rest first [] first.slots :=
    ⟨rfl, rfl, rfl⟩
  obtain ⟨cur, isMoved, upcoming⟩ := held.exists_moved place false
  have isStart : PropertyRef.first first.address = some (first.refAt 1) := dif_pos first.address_ge
  have isAll : entriesOf first.slots ++ chainEntries rest = chainEntries (first :: rest) := rfl
  rw [isAll] at upcoming
  rw [PropertyList.getProperties, get_bind, bind_ok (ofOption_eq isStart),
    bind_ok (ofOption_eq isMoved)]
  cases cur with
  | none => exact ⟨none, world, rfl, held, upcoming, fun some => absurd upcoming some⟩
  | some ref =>
      refine ⟨some ref, { world with iterators := world.iterators ++ [⟨some ref, false⟩] }, rfl,
        held.of_same rfl rfl rfl, upcoming, fun _ => ⟨some ref, ?_, upcoming⟩⟩
      exact List.getElem?_concat_length

/-! ## What loops visit -/

/-- The properties in the order of a loop: it visits none that it has removed, none is left out,
and the others remain. -/
structure Followed (events : List IterationEvent) (entries ahead all rest : List PropertyEntry) :
    Prop where
  visits : ∀ id, .visited id ∈ events → id ∈ entries.map PropertyEntry.id
  fresh : events.Pairwise fun earlier later => ∀ id, earlier = .removed id → later ≠ .visited id
  complete : .ended ∈ events →
    ∀ entry ∈ ahead, .visited entry.id ∈ events ∨ .removed entry.id ∈ events
  remaining : rest = all.filter fun entry => .removed entry.id ∉ events

theorem Followed.visited {events : List IterationEvent}
    {first : PropertyEntry} {entries ahead all rest : List PropertyEntry}
    (followed : Followed events (first :: ahead) ahead all rest)
    (subset : first :: ahead ⊆ entries) :
    Followed (.visited first.id :: events) entries (first :: ahead) all rest where
  visits := by
    rintro id (_ | ⟨_, member⟩)
    · exact List.mem_map_of_mem (subset List.mem_cons_self)
    · exact List.map_subset _ subset (followed.visits id member)
  fresh := List.pairwise_cons.mpr ⟨fun _ _ => nofun, followed.fresh⟩
  complete := by
    rintro (_ | ⟨_, isEnd⟩) entry (_ | ⟨_, member⟩)
    · exact .inl List.mem_cons_self
    · exact (followed.complete isEnd entry member).imp (List.mem_cons_of_mem _)
        (List.mem_cons_of_mem _)
  remaining := by
    rw [followed.remaining]
    simp

theorem Followed.removed {events : List IterationEvent} {id : BitVec 16}
    {entries ahead left all rest : List PropertyEntry}
    (followed : Followed events (entries.filter fun entry => entry.id ≠ id) left
      (all.filter fun entry => entry.id ≠ id) rest)
    (isLeft : ∀ entry ∈ ahead, entry.id ≠ id → entry ∈ left) :
    Followed (.removed id :: events) entries ahead all rest where
  visits := by
    rintro other (_ | ⟨_, member⟩)
    exact (List.filter_sublist.map _).subset (followed.visits other member)
  fresh := by
    refine List.pairwise_cons.mpr ⟨?_, followed.fresh⟩
    rintro event member other isRemoved rfl
    obtain rfl : id = other := IterationEvent.removed.inj isRemoved
    obtain ⟨entry, isEntry, isId⟩ := List.mem_map.mp (followed.visits id member)
    exact of_decide_eq_true (List.mem_filter.mp isEntry).2 isId
  complete := by
    rintro (_ | ⟨_, isEnd⟩) entry member
    by_cases same : entry.id = id
    · exact .inr (same ▸ List.mem_cons_self)
    · exact (followed.complete isEnd entry (isLeft entry member same)).imp
        (List.mem_cons_of_mem _) (List.mem_cons_of_mem _)
  remaining := by
    rw [followed.remaining, List.filter_filter]
    apply List.filter_congr
    intro entry _
    simp [Bool.and_comm]

/-- A removal takes no other property from those that are pending. -/
theorem pending_filter {vacantFlag vacant : Bool} {entries : List PropertyEntry} {id : BitVec 16}
    (stays : vacant = false → vacantFlag = false ∧ ∀ first ∈ entries.head?, first.id ≠ id)
    (member : entry ∈ pending vacantFlag entries) (differs : entry.id ≠ id) :
    entry ∈ pending vacant (entries.filter fun entry => entry.id ≠ id) := by
  cases vacant with
  | true =>
      apply List.mem_filter.mpr
      refine ⟨?_, decide_eq_true differs⟩
      cases vacantFlag with
      | true => exact member
      | false => exact List.mem_of_mem_tail member
  | false =>
      obtain ⟨rfl, elsewhere⟩ := stays rfl
      cases entries with
      | nil => cases member
      | cons first entries =>
          rw [List.filter_cons_of_pos (by simp [elsewhere first rfl])]
          exact List.mem_filter.mpr ⟨member, decide_eq_true differs⟩

theorem ListHeld.follow_ends {index : Nat} {vacantFlag : Bool} {entries : List PropertyEntry}
    (held : ListHeld list size world chain) (at_ : AtEntries world chain index vacantFlag entries)
    (isValid : vacantFlag = false → entries ≠ []) (actions : List IterationAction) :
    ∃ events next rest, PropertyList.follow list index actions world = .ok events next ∧
      ListHeld list size next rest ∧
      Followed events entries (pending vacantFlag entries) (chainEntries chain)
        (chainEntries rest) := by
  have noneRemoved (entries : List PropertyEntry) {events : List IterationEvent}
      (none : ∀ id, .removed id ∉ events) :
      entries = entries.filter fun entry => .removed entry.id ∉ events :=
    (List.filter_eq_self.mpr fun entry _ => decide_eq_true (none entry.id)).symm
  induction actions generalizing world chain vacantFlag entries with
  | nil => exact ⟨[], world, chain, rfl, held, nofun, .nil, nofun, noneRemoved _ nofun⟩
  | cons action actions ih =>
      cases action with
      | next =>
          obtain ⟨cur, iterators, isNext, upcoming, atNext⟩ := held.nextAt_eq at_ isValid
          have moved : ListHeld list size { world with iterators } chain :=
            held.of_same rfl rfl rfl
          have isVisit := visit_eq moved upcoming
          have subset : pending vacantFlag entries ⊆ entries := by
            cases vacantFlag with
            | true => exact List.Subset.refl _
            | false => exact List.tail_subset _
          rw [PropertyList.follow, bind_ok isNext, bind_ok isVisit]
          cases areAhead : pending vacantFlag entries with
          | nil =>
              exact ⟨[.ended], _, chain, rfl, moved, by simp, List.pairwise_singleton _ _, nofun,
                noneRemoved _ (by simp)⟩
          | cons first ahead =>
              rw [areAhead] at atNext subset
              obtain ⟨events, next, rest, isFollowed, heldAfter, followed⟩ :=
                ih moved atNext fun _ => List.cons_ne_nil _ _
              exact ⟨.visited first.id :: events, next, rest, bind_ok isFollowed, heldAfter,
                followed.visited subset⟩
      | remove id =>
          obtain ⟨middle, others, vacant, isRemoved, heldBetween, areOthers, atNext, stays⟩ :=
            held.removeProperty_at at_ id
          have isValid' : vacant = false → entries.filter (fun entry => entry.id ≠ id) ≠ [] := by
            intro notVacant
            obtain ⟨same, elsewhere⟩ := stays notVacant
            cases entries with
            | nil => exact absurd rfl (isValid same)
            | cons first entries =>
                rw [List.filter_cons_of_pos (by simp [elsewhere first rfl])]
                exact List.cons_ne_nil _ _
          obtain ⟨events, next, rest, isFollowed, heldAfter, followed⟩ := ih heldBetween atNext isValid'
          rw [areOthers] at followed
          refine ⟨.removed id :: events, next, rest, ?_, heldAfter,
            followed.removed fun entry => pending_filter stays⟩
          rw [PropertyList.follow, bind_ok isRemoved]
          exact bind_ok isFollowed

/-- A loop that removes only where it is visits each property once. -/
theorem ListHeld.removeFrom_eq {index rounds : Nat} {cur : Option PropertyRef}
    {entries : List PropertyEntry} (held : ListHeld list size world chain)
    (upcoming : Upcoming chain cur entries)
    (at_ : entries ≠ [] → AtEntries world chain index false entries) (drop : BitVec 16 → Bool)
    (enough : entries.length < rounds) :
    ∃ next rest, PropertyList.removeFrom list index drop rounds ⟨cur, false⟩ world =
        .ok (entries.map PropertyEntry.id) next ∧
      ListHeld list size next rest ∧
      chainEntries rest = (chainEntries chain).filter fun entry =>
        entry.id ∉ entries.map PropertyEntry.id ∨ drop entry.id = false := by
  induction entries generalizing world chain cur rounds with
  | nil =>
      obtain ⟨rounds, rfl⟩ : ∃ left, rounds = left + 1 := ⟨rounds - 1, by simp at enough; omega⟩
      refine ⟨world, chain, ?_, held, (List.filter_eq_self.mpr (by simp)).symm⟩
      rw [PropertyList.removeFrom, bind_ok (visit_eq held upcoming)]
      rfl
  | cons first entries ih =>
      obtain ⟨rounds, rfl⟩ : ∃ left, rounds = left + 1 := ⟨rounds - 1, by simp at enough; omega⟩
      have suffix := upcoming.suffix
      have isVisit := visit_eq held upcoming
      have atFirst := at_ (List.cons_ne_nil _ _)
      have ids := held.ids.sublist (suffix.sublist.map PropertyEntry.id)
      rw [List.map_cons] at ids
      have absent := (List.nodup_cons.mp ids).1
      have goOn {middle : ListWorld} {others : List PropertyChunk} {vacant : Bool}
          {left : List PropertyEntry} (heldBetween : ListHeld list size middle others)
          (atNext : AtEntries middle others index vacant left)
          (isValid : vacant = false → left ≠ []) (isLeft : pending vacant left = entries) :
          ∃ cur iterators next rest,
            PropertyList.nextAt index middle = .ok ⟨cur, false⟩ { middle with iterators } ∧
            PropertyList.removeFrom list index drop rounds ⟨cur, false⟩ { middle with iterators } =
              .ok (entries.map PropertyEntry.id) next ∧
            ListHeld list size next rest ∧
            chainEntries rest = (chainEntries others).filter fun entry =>
              entry.id ∉ entries.map PropertyEntry.id ∨ drop entry.id = false := by
        obtain ⟨cur, iterators, isNext, upcoming, atNext⟩ := heldBetween.nextAt_eq atNext isValid
        rw [isLeft] at upcoming atNext
        have moved : ListHeld list size { middle with iterators } others :=
          heldBetween.of_same rfl rfl rfl
        obtain ⟨next, rest, isRemoved, heldAfter, areEntries⟩ :=
          ih moved upcoming (fun _ => atNext) (Nat.lt_of_succ_lt_succ enough)
        exact ⟨cur, iterators, next, rest, isNext, isRemoved, heldAfter, areEntries⟩
      rw [PropertyList.removeFrom, bind_ok isVisit, List.head?_cons, Option.map_some]
      dsimp only
      cases isDropped : drop first.id with
      | true =>
          obtain ⟨middle, others, vacant, isRemoved, heldBetween, areOthers, atNext, stays⟩ :=
            held.removeProperty_at atFirst first.id
          obtain rfl : vacant = true := by
            cases vacant with
            | true => rfl
            | false => exact absurd rfl ((stays rfl).2 first rfl)
          have isLeft : (first :: entries).filter (fun entry => entry.id ≠ first.id) = entries := by
            rw [List.filter_cons_of_neg (by simp)]
            apply List.filter_eq_self.mpr
            intro entry member
            exact decide_eq_true fun same => absent (same ▸ List.mem_map_of_mem member)
          obtain ⟨next, iterators, last, rest, isNext, isRest, heldAfter, areEntries⟩ :=
            goOn heldBetween atNext nofun isLeft
          refine ⟨last, rest, ?_, heldAfter, ?_⟩
          · rw [if_pos rfl, bind_ok isRemoved, bind_ok isNext, bind_ok isRest]
            rfl
          · rw [areEntries, areOthers, othersOf, List.filter_filter]
            apply List.filter_congr
            intro entry _
            by_cases same : entry.id = first.id
            · simp [same, isDropped]
            · simp [same]
      | false =>
          obtain ⟨next, iterators, last, rest, isNext, isRest, heldAfter, areEntries⟩ :=
            goOn held atFirst (fun _ => List.cons_ne_nil _ _) rfl
          refine ⟨last, rest, ?_, heldAfter, ?_⟩
          · rw [if_neg Bool.false_ne_true, bind_ok isNext, bind_ok isRest]
            rfl
          · rw [areEntries]
            apply List.filter_congr
            intro entry _
            by_cases same : entry.id = first.id
            · simp [same, isDropped]
            · simp [same]

/-- A caller that removes properties while it iterates visits none that it has removed, and at the
end each property was visited or removed. -/
theorem iterate_of_run (mem : Memory) (iterators : List PropertyListIterator)
    {earlier calls : List (ListAction × Option ListFailure)} {began : ListWorld}
    (isAddress : 8 ≤ list) (low : 10 ≤ size) (high : size ≤ 256)
    (history : ListHistory list size (initialWorld mem list size iterators) earlier began)
    (run : ListRun list size began calls world)
    (actions : List IterationAction) :
    ∃ events next, PropertyList.iterate list actions world = .ok events next ∧
      (events.Pairwise fun earlier later => ∀ id, earlier = .removed id → later ≠ .visited id) ∧
      (∀ id, .visited id ∈ events → (valuesAfter (earlier ++ calls) id).isSome) ∧
      (.ended ∈ events → ∀ id, (valuesAfter (earlier ++ calls) id).isSome →
        .visited id ∈ events ∨ .removed id ∈ events) ∧
      ∀ id, PropertyList.checkProperty list id next =
        .ok (if .removed id ∈ events then none else valuesAfter (earlier ++ calls) id) next := by
  obtain ⟨-, chain, held, areValues⟩ := exists_held_of_run isAddress low high history run
  obtain ⟨cur, middle, isStart, heldBetween, upcoming, atStart⟩ := held.getProperties_eq
  have isVisit := visit_eq heldBetween upcoming
  simp only [← areValues, isSome_lookup]
  rw [PropertyList.iterate, get_bind, bind_ok isStart, bind_ok isVisit]
  cases areEntries : chainEntries chain with
  | nil =>
      refine ⟨[.ended], middle, rfl, List.pairwise_singleton _ _, by simp, by simp, fun id => ?_⟩
      rw [heldBetween.checkProperty_eq, areEntries]
      simp
  | cons first entries =>
      rw [areEntries] at atStart
      obtain ⟨events, next, rest, isFollowed, heldAfter, followed⟩ :=
        heldBetween.follow_ends (atStart (List.cons_ne_nil _ _)) (fun _ => List.cons_ne_nil _ _)
          actions
      rw [areEntries] at followed
      have all := followed.visited (List.Subset.refl _)
      refine ⟨.visited first.id :: events, next, bind_ok isFollowed, all.fresh, all.visits, ?_, ?_⟩
      · intro isEnd id member
        obtain ⟨entry, isEntry, rfl⟩ := List.mem_map.mp member
        exact all.complete isEnd entry isEntry
      · intro id
        rw [heldAfter.checkProperty_eq, all.remaining,
          lookup_filter fun id => .removed id ∉ IterationEvent.visited first.id :: events]
        simp only [decide_not, Bool.not_eq_true', decide_eq_false_iff_not, ite_not]

theorem iterate_of_run_longRun :
    let world := (longCall.outcome 64 (initialWorld (fun _ => 0) 64 10 [])).2
    ∃ events next, PropertyList.iterate 64 [.remove 5, .next] world = .ok events next ∧
      (.ended ∈ events → .visited 5 ∈ events ∨ .removed 5 ∈ events) ∧
      PropertyList.checkProperty 64 5 next =
        .ok (if .removed 5 ∈ events then none else some (.string (List.replicate 14 7))) next := by
  obtain ⟨events, next, isIterated, -, -, complete, values⟩ :=
    iterate_of_run _ _ (by decide) (by decide) (by decide) .start longRun [.remove 5, .next]
  exact ⟨events, next, isIterated, fun isEnd => complete isEnd 5 rfl, values 5⟩

theorem length_chainEntries_le {mem : Memory} (held : ChainHeld mem chain) :
    (chainEntries chain).length + chain.length ≤ chainBytes chain := by
  induction chain with
  | nil => exact le_rfl
  | cons first rest ih =>
      have others := ih held.2
      have place : PlaceIn (first :: rest) (first.refAt 1) [] rest first [] first.slots :=
        ⟨rfl, rfl, rfl⟩
      have stop := (place.restAt held).stop_le
      have isOffset : (first.refAt 1).offset = 1 := rfl
      have areBytes : chainBytes (first :: rest) = first.size + chainBytes rest := rfl
      have few := @Layout.length_le_total _ slotLayout first.slots
      have fewer : (entriesOf first.slots).length ≤ first.slots.length := List.length_filterMap_le _ _
      rw [chainEntries_cons, List.length_append, List.length_cons]
      omega

/-- A loop that removes properties where it is visits each property once, and removes those that it
is to remove. -/
theorem removeWhere_of_run (mem : Memory) (iterators : List PropertyListIterator)
    {earlier calls : List (ListAction × Option ListFailure)} {began : ListWorld}
    (isAddress : 8 ≤ list) (low : 10 ≤ size) (high : size ≤ 256)
    (history : ListHistory list size (initialWorld mem list size iterators) earlier began)
    (run : ListRun list size began calls world)
    (drop : BitVec 16 → Bool) :
    ∃ ids next, PropertyList.removeWhere list drop world = .ok ids next ∧ ids.Nodup ∧
      (∀ id, id ∈ ids ↔ (valuesAfter (earlier ++ calls) id).isSome) ∧
      ∀ id, PropertyList.checkProperty list id next =
        .ok (if drop id then none else valuesAfter (earlier ++ calls) id) next := by
  obtain ⟨-, chain, held, areValues⟩ := exists_held_of_run isAddress low high history run
  obtain ⟨cur, middle, isStart, heldBetween, upcoming, atStart⟩ := held.getProperties_eq
  have few : (chainEntries chain).length < world.rounds := by
    have inside := (length_chainEntries_le held.held).trans held.chainBytes_le
    obtain ⟨first, rest, rfl, -, -⟩ := held.exists_head
    rw [List.length_cons] at inside
    omega
  obtain ⟨next, rest, isRemoved, heldAfter, areEntries⟩ :=
    heldBetween.removeFrom_eq upcoming atStart drop few
  refine ⟨_, next, ?_, held.ids, fun id => areValues ▸ isSome_lookup.symm, fun id => ?_⟩
  · rw [PropertyList.removeWhere, get_bind, bind_ok isStart]
    exact isRemoved
  · rw [heldAfter.checkProperty_eq, areEntries, lookup_filter fun id =>
      id ∉ (chainEntries chain).map PropertyEntry.id ∨ drop id = false, ← areValues]
    by_cases member : id ∈ (chainEntries chain).map PropertyEntry.id
    · cases drop id <;> simp [member]
    · rw [lookup_eq_none member, ite_self, ite_self]

theorem removeWhere_of_run_longRun :
    let world := (longCall.outcome 64 (initialWorld (fun _ => 0) 64 10 [])).2
    ∃ ids next, PropertyList.removeWhere 64 (fun _ => true) world = .ok ids next ∧ 5 ∈ ids ∧
      PropertyList.checkProperty 64 5 next = .ok none next := by
  obtain ⟨ids, next, isRemoved, -, isVisited, values⟩ :=
    removeWhere_of_run _ _ (by decide) (by decide) (by decide) .start longRun fun _ => true
  exact ⟨ids, next, isRemoved, (isVisited 5).mpr rfl, values 5⟩

end Places

end Pmgd
