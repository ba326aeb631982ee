import Mathlib.Data.List.Flatten
import Pmgd.RemoveNode

/-!
# Where an iterator is

An iterator goes through the elements of all buckets of an index, or of the bucket of a tag,
in their order.  A call of `next` takes it to the following element, and it stays where it is
when another element is removed.
-/

namespace Pmgd

open EdgeIndex

namespace EdgeIndex

variable {index : EdgeIndex} {tag asked : Tag} {edge node : Nat}

/-- The elements of the buckets asked for; tag 0 asks for all of them. -/
def selected (index : EdgeIndex) (asked : Tag) : List EdgePosition :=
  (index.filter fun key => decide (asked = 0 ∨ key.key = asked)).flatMap KeyPosition.list

theorem mem_selected {position : EdgePosition} : position ∈ index.selected asked ↔
    ∃ key ∈ index, (asked = 0 ∨ key.key = asked) ∧ position ∈ key.list := by
  simp only [selected, List.mem_flatMap, List.mem_filter, decide_eq_true_eq, and_assoc]

theorem selected_zero (index : EdgeIndex) :
    index.selected 0 = index.flatMap KeyPosition.list := by
  simp [selected]

theorem selected_append (first second : EdgeIndex) :
    selected (first ++ second) asked = selected first asked ++ selected second asked := by
  rw [selected, List.filter_append, List.flatMap_append]
  rfl

theorem selected_cons (key : KeyPosition) (keys : EdgeIndex) :
    selected (key :: keys) asked =
      (if asked = 0 ∨ key.key = asked then key.list else []) ++ selected keys asked := by
  rw [selected, List.filter_cons]
  split_ifs with isAsked decided decided
  · exact List.flatMap_cons
  · exact absurd (of_decide_eq_true isAsked) decided
  · exact absurd (decide_eq_true decided) isAsked
  · rfl

theorem selected_eq_nil (others : ∀ key ∈ index, key.key ≠ asked) (some : asked ≠ 0) :
    index.selected asked = [] := by
  refine List.eq_nil_iff_forall_not_mem.mpr fun position member => ?_
  obtain ⟨key, isKey, isAsked, -⟩ := mem_selected.mp member
  exact others key isKey (isAsked.resolve_left some)

theorem selected_eq_find (tags : (index.map KeyPosition.key).Nodup) (some : asked ≠ 0) :
    index.selected asked = ((index.find asked).map KeyPosition.list).getD [] := by
  induction index with
  | nil => rfl
  | cons key keys ih =>
      rw [List.map_cons, List.nodup_cons] at tags
      rw [selected_cons]
      by_cases here : key.key = asked
      · have others : ∀ other ∈ keys, other.key ≠ asked := fun other member same =>
          tags.1 (here.trans same.symm ▸ List.mem_map_of_mem member)
        rw [if_pos (.inr here), selected_eq_nil others some, List.append_nil, find,
          List.find?_cons_of_pos (by simpa using here)]
        rfl
      · rw [if_neg (not_or.mpr ⟨some, here⟩), List.nil_append, ih tags.2, find, find,
          List.find?_cons_of_neg (by simpa using here)]

theorem selected_addresses_nodup (addresses : index.addresses.Nodup) :
    ((index.selected asked).map EdgePosition.address).Nodup := by
  have positions : ((index.selected asked).map EdgePosition.address).Sublist
      index.positions := by
    rw [selected, List.map_flatMap]
    exact List.filter_sublist.flatMap _
  have inAddresses : index.positions.Sublist index.addresses :=
    List.Sublist.flatMap_right _ fun key _ => List.sublist_cons_self _ _
  exact addresses.sublist (positions.trans inAddresses)

theorem positionAt_eq {position : EdgePosition} (addresses : index.addresses.Nodup)
    (member : position ∈ index.selected asked) :
    positionAt index position.address = .ok position := by
  have inAll : position ∈ index.selected 0 := by
    obtain ⟨key, isKey, -, isPosition⟩ := mem_selected.mp member
    exact mem_selected.mpr ⟨key, isKey, .inl rfl, isPosition⟩
  have found : (index.selected 0).find? (fun other =>
      decide (other.address = position.address)) = some position := by
    cases isFound : (index.selected 0).find? fun other =>
        decide (other.address = position.address) with
    | none => exact absurd (decide_eq_true rfl) (List.find?_eq_none.mp isFound position inAll)
    | some other =>
        have sameAddress : other.address = position.address := by
          simpa using List.find?_some isFound
        rw [List.inj_on_of_nodup_map (selected_addresses_nodup addresses)
          (List.mem_of_find?_eq_some isFound) inAll sameAddress]
  rw [positionAt, ← selected_zero, found]

theorem addresses_perm_keys (index : EdgeIndex) :
    index.addresses.Perm (index.map KeyPosition.address ++ index.positions) := by
  induction index with
  | nil => exact List.Perm.refl _
  | cons key keys ih =>
      rw [addresses_cons, KeyPosition.addresses, List.map_cons, positions_cons, List.cons_append,
        List.cons_append]
      refine List.Perm.cons _ ((ih.append_left _).trans ?_)
      rw [← List.append_assoc, ← List.append_assoc]
      exact List.perm_append_comm.append_right _

theorem key_ne_position {key : KeyPosition} (addresses : index.addresses.Nodup)
    (isKey : key ∈ index) : key.address ∉ index.positions := by
  rw [(addresses_perm_keys index).nodup_iff] at addresses
  exact fun isPosition => (List.nodup_append.mp addresses).2.2 _ (List.mem_map_of_mem isKey) _
    isPosition rfl

theorem selected_edges_sublist (index : EdgeIndex) (asked : Tag) :
    ((index.selected asked).map EdgePosition.edge).Sublist (index.entries.map Entry.edge) := by
  rw [selected, entries, List.map_flatMap, List.map_flatMap]
  have sameEdges (key : KeyPosition) :
      (bucketEntries key).map Entry.edge = key.list.map EdgePosition.edge := List.map_map
  simp only [sameEdges]
  exact List.filter_sublist.flatMap _

theorem selected_edges_nodup (edges : (index.entries.map Entry.edge).Nodup) :
    ((index.selected asked).map EdgePosition.edge).Nodup :=
  edges.sublist (selected_edges_sublist index asked)

theorem length_selected_le (index : EdgeIndex) (asked : Tag) :
    (index.selected asked).length ≤ index.entries.length := by
  have shorter := (selected_edges_sublist index asked).length_le
  rwa [List.length_map, List.length_map] at shorter

theorem selected_edge_mem {position : EdgePosition} (member : position ∈ index.selected asked) :
    ∃ entry ∈ index.entries, entry.edge = position.edge ∧ entry.node = position.node ∧
      (asked = 0 ∨ entry.tag = asked) := by
  obtain ⟨key, isKey, isAsked, isPosition⟩ := mem_selected.mp member
  exact ⟨entryOf key.key position, mem_entries.mpr ⟨key, isKey, position, isPosition, rfl⟩, rfl,
    rfl, isAsked⟩

theorem mem_selected_of_entry {entry : Entry} (member : entry ∈ index.entries)
    (isAsked : asked = 0 ∨ entry.tag = asked) :
    ∃ position ∈ index.selected asked,
      position.edge = entry.edge ∧ position.node = entry.node := by
  obtain ⟨key, isKey, position, isPosition, rfl⟩ := mem_entries.mp member
  exact ⟨position, mem_selected.mpr ⟨key, isKey, isAsked, isPosition⟩, rfl, rfl⟩

namespace Place

variable (place : Place tag edge node)

/-- What is asked for in front of the element of a place. -/
def selectedBefore (asked : Tag) : List EdgePosition :=
  selected place.before asked ++ place.first

/-- What is asked for behind the element of a place. -/
def selectedAfter (asked : Tag) : List EdgePosition :=
  place.rest ++ selected place.after asked

theorem selected_whole {place : Place tag edge node} (isAsked : asked = 0 ∨ tag = asked) :
    selected place.whole asked =
      place.selectedBefore asked ++ place.position :: place.selectedAfter asked := by
  rw [whole, selected_append, selected_cons, if_pos (place.key_eq.symm ▸ isAsked),
    place.list_eq, selectedBefore, selectedAfter]
  simp only [List.append_assoc, List.cons_append]

theorem selected_after_tag (tags : (place.whole.map KeyPosition.key).Nodup) (some : tag ≠ 0) :
    place.selectedAfter tag = place.rest := by
  have others : ∀ key ∈ place.after, key.key ≠ tag := by
    intro key isKey isTag
    rw [whole, List.map_append, List.map_cons] at tags
    have apart := (List.nodup_cons.mp (List.nodup_append.mp tags).2.1).1
    have sameTag : key.key = place.key.key := isTag.trans place.key_eq.symm
    exact apart (sameTag ▸ List.mem_map_of_mem isKey)
  rw [selectedAfter, selected_eq_nil others some, List.append_nil]

/-- Removing an edge takes its element out of what is asked for. -/
theorem selected_removed (wellFormed : WellFormed place.whole) (asked : Tag) :
    place.removed.selected asked =
      (place.whole.selected asked).filter fun position => decide (position.edge ≠ edge) := by
  have apart (position : EdgePosition) (member : position ∈ place.removed.selected asked) :
      position.edge ≠ edge := by
    obtain ⟨entry, isEntry, sameEdge, -⟩ := selected_edge_mem member
    exact sameEdge ▸ ((place.mem_entries_removed wellFormed).mp isEntry).2
  have stays {positions : List EdgePosition} (isPart : positions ⊆ place.removed.selected asked) :
      positions.filter (fun position => decide (position.edge ≠ edge)) = positions :=
    List.filter_eq_self.mpr fun position member => by simpa using apart position (isPart member)
  have sameKey : place.others.key = tag := place.key_eq
  by_cases isAsked : asked = 0 ∨ tag = asked
  · have removed : place.removed.selected asked =
        place.selectedBefore asked ++ place.selectedAfter asked := by
      rw [Place.removed, selectedBefore, selectedAfter]
      split_ifs with empty
      · have none : place.first = [] ∧ place.rest = [] := List.append_eq_nil_iff.mp empty
        rw [selected_append, none.1, none.2, List.append_nil, List.nil_append]
      · rw [selected_append, selected_cons, if_pos (sameKey.symm ▸ isAsked), others]
        simp only [List.append_assoc]
    rw [selected_whole isAsked, List.filter_append,
      List.filter_cons_of_neg (by simpa using place.edge_eq), stays, stays, removed]
    · exact removed ▸ List.subset_append_right _ _
    · exact removed ▸ List.subset_append_left _ _
  · have notKey : ¬ (asked = 0 ∨ place.key.key = asked) := by rwa [place.key_eq]
    have notOthers : ¬ (asked = 0 ∨ place.others.key = asked) := by rwa [sameKey]
    have same : place.removed.selected asked = place.whole.selected asked := by
      rw [whole, selected_append, selected_cons, if_neg notKey, List.nil_append, Place.removed]
      split_ifs
      · rw [selected_append]
      · rw [selected_append, selected_cons, if_neg notOthers, List.nil_append]
    rw [← same, stays (List.Subset.refl _)]

/-! ### Following the pointers of an index -/

variable {place}

theorem follower_append {α : Type} {addressOf : α → Nat} {first rest : List α} {element : α}
    (others : ∀ other ∈ first, addressOf other ≠ addressOf element) :
    follower addressOf (addressOf element) (first ++ element :: rest) = .ok rest.head? := by
  induction first with
  | nil => rw [List.nil_append, follower, if_pos rfl]
  | cons other first ih =>
      rw [List.cons_append, follower, if_neg (others other List.mem_cons_self),
        ih fun another member => others another (List.mem_cons_of_mem other member)]

theorem follower_key (addresses : place.whole.addresses.Nodup) :
    follower KeyPosition.address place.key.address place.whole = .ok place.after.head? := by
  refine follower_append fun other isBefore sameAddress => ?_
  rw [whole, addresses_append, addresses_cons, KeyPosition.addresses] at addresses
  refine (List.nodup_append.mp addresses).2.2 other.address ?_ place.key.address
    List.mem_cons_self sameAddress
  exact List.mem_flatMap.mpr ⟨other, isBefore, List.mem_cons_self⟩

theorem nextPosition_eq (addresses : place.whole.addresses.Nodup) :
    nextPosition place.whole place.position.address = .ok place.rest.head? := by
  have notBefore : ∀ other ∈ place.before,
      place.position.address ∉ other.list.map EdgePosition.address := by
    intro other isBefore member
    rw [whole, addresses_append, addresses_cons, KeyPosition.addresses] at addresses
    refine (List.nodup_append.mp addresses).2.2 place.position.address ?_
      place.position.address ?_ rfl
    · exact List.mem_flatMap.mpr ⟨other, isBefore, List.mem_cons_of_mem _ member⟩
    · simp [place.list_eq]
  have notFirst : ∀ other ∈ place.first, other.address ≠ place.position.address := by
    intro other isFirst sameAddress
    rw [whole, addresses_append, addresses_cons, KeyPosition.addresses] at addresses
    have inList := (List.nodup_append.mp (List.nodup_append.mp addresses).2.1).1
    rw [place.list_eq, List.map_append, List.map_cons] at inList
    exact (List.nodup_append.mp (List.nodup_cons.mp inList).2).2.2 _
      (List.mem_map_of_mem isFirst) _ List.mem_cons_self sameAddress
  have found : place.whole.find? (fun key =>
      decide (place.position.address ∈ key.list.map EdgePosition.address)) = some place.key := by
    have none : place.before.find? (fun key =>
        decide (place.position.address ∈ key.list.map EdgePosition.address)) = none :=
      List.find?_eq_none.mpr fun other isBefore => by simpa using notBefore other isBefore
    rw [whole, List.find?_append, none, Option.none_or,
      List.find?_cons_of_pos (by simp [place.list_eq])]
  rw [nextPosition, found]
  dsimp only
  rw [place.list_eq, follower_append notFirst]

end Place

end EdgeIndex

/-! ## A place on the path -/

open Place

/-- The iterator is at an element, with the others that it was asked for in front of it and
behind it. -/
structure Cursor (index : EdgeIndex) (asked : Tag) (iterator : EdgeIterator)
    (before : List EdgePosition) (position : EdgePosition) (after : List EdgePosition) :
    Prop where
  path : index.selected asked = before ++ position :: after
  pos : iterator.pos = some position.address
  bucket : if asked = 0 then
      ∃ key ∈ index, position ∈ key.list ∧ iterator.keyPos = some key.address
    else iterator.keyPos = none ∧ iterator.tag = asked

namespace Cursor

variable {index : EdgeIndex} {asked : Tag} {iterator : EdgeIterator} {graph : Graph}
  {before after : List EdgePosition} {position : EdgePosition}

/-- The place of the index at which the iterator is. -/
theorem exists_place (wellFormed : EdgeIndex.WellFormed index)
    (cursor : Cursor index asked iterator before position after) :
    ∃ tag, ∃ place : Place tag position.edge position.node, index = place.whole ∧
      place.position = position ∧ (asked = 0 ∨ tag = asked) ∧
      (asked = 0 → iterator.keyPos = some place.key.address) ∧
      before = place.selectedBefore asked ∧ after = place.selectedAfter asked := by
  obtain ⟨key, isKey, isAsked, isPosition, isKeyPos⟩ : ∃ key ∈ index,
      (asked = 0 ∨ key.key = asked) ∧ position ∈ key.list ∧
        (asked = 0 → iterator.keyPos = some key.address) := by
    have bucket := cursor.bucket
    split_ifs at bucket with all
    · obtain ⟨key, isKey, isPosition, isKeyPos⟩ := bucket
      exact ⟨key, isKey, .inl all, isPosition, fun _ => isKeyPos⟩
    · have member : position ∈ index.selected asked := by
        rw [cursor.path]
        exact List.mem_append_right _ List.mem_cons_self
      obtain ⟨key, isKey, isAsked, isPosition⟩ := mem_selected.mp member
      exact ⟨key, isKey, isAsked, isPosition, fun isZero => absurd isZero all⟩
  obtain ⟨place, rfl, sameKey, samePosition⟩ := exists_place_of_mem wellFormed isKey isPosition
  have distinct := (@selected_addresses_nodup _ asked wellFormed.addresses).of_map
  have path := (selected_whole isAsked).symm.trans cursor.path
  rw [selected_whole isAsked, samePosition, List.nodup_middle, List.nodup_cons,
    List.mem_append, not_or] at distinct
  rw [samePosition] at path
  obtain ⟨sameBefore, -, sameAfter⟩ :=
    (List.append_cons_inj_of_notMem distinct.1.1 distinct.1.2).mp path
  refine ⟨key.key, place, rfl, samePosition, isAsked, fun all => ?_, sameBefore.symm,
    sameAfter.symm⟩
  exact (isKeyPos all).trans (congrArg (fun key => some key.address) sameKey.symm)

/-- `next` goes to the following element. -/
theorem next_eq {next : EdgePosition} (wellFormed : EdgeIndex.WellFormed index)
    (isIndex : graph.index iterator.n1 iterator.dir = index) (notVacant : iterator.vacant = false)
    (cursor : Cursor index asked iterator before position (next :: after)) :
    ∃ moved, iterator.next graph = .ok moved ∧ moved.n1 = iterator.n1 ∧
      moved.dir = iterator.dir ∧ moved.outIdx = iterator.outIdx ∧ moved.vacant = false ∧
      Cursor index asked moved (before ++ [position]) next after := by
  have path : index.selected asked = (before ++ [position]) ++ next :: after := by
    rw [cursor.path, List.append_assoc]
    rfl
  have bucket := cursor.bucket
  obtain ⟨tag, place, rfl, isPosition, isAsked, isKeyPos, -, isAfter⟩ :=
    cursor.exists_place wellFormed
  have isPos : iterator.pos = some place.position.address := by
    rw [cursor.pos, isPosition]
  rw [EdgeIterator.next, notVacant, isPos, isIndex]
  simp only [Bool.false_eq_true, if_false, nextPosition_eq wellFormed.addresses, Except.bind]
  cases isRest : place.rest with
  | cons other rest =>
      rw [selectedAfter, isRest, List.cons_append, List.cons.injEq] at isAfter
      obtain ⟨rfl, -⟩ := isAfter
      refine ⟨_, rfl, rfl, rfl, rfl, rfl, path, rfl, ?_⟩
      split_ifs with all
      · exact ⟨place.key, List.mem_append_right _ List.mem_cons_self, by
          simp [place.list_eq, isRest], isKeyPos all⟩
      · rwa [if_neg all] at bucket
  | nil =>
      rw [selectedAfter, isRest, List.nil_append] at isAfter
      have all : asked = 0 := by
        by_contra some
        obtain rfl := isAsked.resolve_left some
        have none := selected_after_tag place wellFormed.tags some
        rw [selectedAfter, isRest, List.nil_append, ← isAfter] at none
        cases none
      subst all
      simp only [List.head?_nil, EdgeIterator.nextKey, isKeyPos rfl, isIndex,
        follower_key wellFormed.addresses, Except.bind]
      cases isBehind : place.after with
      | nil =>
          rw [isBehind] at isAfter
          cases isAfter
      | cons key keys =>
          have isKey : key ∈ place.whole := by
            rw [whole, isBehind]
            exact List.mem_append_right _ (List.mem_cons_of_mem _ List.mem_cons_self)
          rw [isBehind, selected_cons, if_pos (.inl rfl)] at isAfter
          cases isList : key.list with
          | nil => exact absurd isList (wellFormed.nonempty key isKey)
          | cons first others =>
              rw [isList, List.cons_append, List.cons.injEq] at isAfter
              obtain ⟨rfl, -⟩ := isAfter
              refine ⟨_, rfl, rfl, rfl, rfl, rfl, path, ?_, ?_⟩
              · rw [EdgeIterator.enter, isList]
                rfl
              · exact ⟨key, isKey, isList ▸ List.mem_cons_self, rfl⟩

/-- Behind the last element `next` changes the direction. -/
theorem next_last (wellFormed : EdgeIndex.WellFormed index)
    (isIndex : graph.index iterator.n1 iterator.dir = index) (notVacant : iterator.vacant = false)
    (cursor : Cursor index asked iterator before position []) :
    iterator.next graph = EdgeIterator.switchDirection graph
      { iterator with keyPos := none, pos := none } (decide (asked = 0)) := by
  have bucket := cursor.bucket
  obtain ⟨tag, place, rfl, isPosition, isAsked, isKeyPos, -, isAfter⟩ :=
    cursor.exists_place wellFormed
  have isPos : iterator.pos = some place.position.address := by
    rw [cursor.pos, isPosition]
  obtain ⟨isRest, noneBehind⟩ := List.append_eq_nil_iff.mp isAfter.symm
  rw [EdgeIterator.next, notVacant, isPos, isIndex]
  simp only [Bool.false_eq_true, if_false, nextPosition_eq wellFormed.addresses, Except.bind,
    isRest, List.head?_nil]
  by_cases all : asked = 0
  · subst all
    have isBehind : place.after = [] := by
      refine List.eq_nil_iff_forall_not_mem.mpr fun key isKey => ?_
      refine wellFormed.nonempty key ?_ (List.eq_nil_iff_forall_not_mem.mpr fun other member => ?_)
      · exact List.mem_append_right _ (List.mem_cons_of_mem _ isKey)
      · have inBehind : other ∈ selected place.after 0 :=
          mem_selected.mpr ⟨key, isKey, .inl rfl, member⟩
        rw [noneBehind] at inBehind
        cases inBehind
    simp only [EdgeIterator.nextKey, isKeyPos rfl, isIndex, follower_key wellFormed.addresses,
      Except.bind, isBehind, List.head?_nil, decide_true]
  · rw [if_neg all] at bucket
    simp only [EdgeIterator.nextKey, bucket.1, all, decide_false]

/-- The iterator stays at its element when another one is removed. -/
theorem removed {tag : Tag} {edge node : Nat} {place : Place tag edge node}
    (wellFormed : EdgeIndex.WellFormed place.whole) (other : position.edge ≠ edge)
    (cursor : Cursor place.whole asked iterator before position after) :
    Cursor place.removed asked iterator
      (before.filter fun position => decide (position.edge ≠ edge)) position
      (after.filter fun position => decide (position.edge ≠ edge)) where
  path := by
    rw [selected_removed place wellFormed, cursor.path, List.filter_append,
      List.filter_cons_of_pos (by simpa using other)]
  pos := cursor.pos
  bucket := by
    have bucket := cursor.bucket
    split_ifs at bucket ⊢
    · obtain ⟨key, isKey, isPosition, isKeyPos⟩ := bucket
      have still (unchanged : key ∈ place.before ∨ key ∈ place.after) : key ∈ place.removed := by
        rw [Place.removed]
        split_ifs
        · exact List.mem_append.mpr unchanged
        · exact List.mem_append.mpr (unchanged.imp_right (List.mem_cons_of_mem _))
      rcases List.mem_append.mp isKey with isBefore | isRest
      · exact ⟨key, still (.inl isBefore), isPosition, isKeyPos⟩
      · rcases List.mem_cons.mp isRest with rfl | isAfter
        · have inOthers : position ∈ place.others.list := by
            rw [place.list_eq, List.mem_append, List.mem_cons] at isPosition
            rcases isPosition with inFirst | rfl | inRest
            · exact List.mem_append_left _ inFirst
            · exact absurd place.edge_eq other
            · exact List.mem_append_right _ inRest
          refine ⟨place.others, ?_, inOthers, isKeyPos⟩
          rw [Place.removed, if_neg (List.ne_nil_of_mem inOthers)]
          exact List.mem_append_right _ List.mem_cons_self
        · exact ⟨key, still (.inr isAfter), isPosition, isKeyPos⟩
    · exact bucket

/-- At the first edge of an index. -/
theorem enter {key : KeyPosition} {keys : EdgeIndex}
    (wellFormed : EdgeIndex.WellFormed (key :: keys)) (iterator : EdgeIterator) :
    ∃ position after, Cursor (key :: keys) 0 (iterator.enter key) [] position after := by
  cases isList : key.list with
  | nil => exact absurd isList (wellFormed.nonempty key List.mem_cons_self)
  | cons first rest =>
      refine ⟨first, rest ++ selected keys 0, ?_, ?_, ?_⟩
      · rw [selected_cons, if_pos (.inl rfl), isList, List.nil_append, List.cons_append]
      · rw [EdgeIterator.enter, isList]
        rfl
      · exact ⟨key, List.mem_cons_self, isList ▸ List.mem_cons_self, rfl⟩

end Cursor

namespace EdgeIterator

/-- `EdgeIndex::get_first` of a tag. -/
def firstOf (index : EdgeIndex) (tag : Tag) : Option Nat :=
  (index.find tag).bind fun key => key.list.head?.map EdgePosition.address

theorem firstOf_cases {index : EdgeIndex} {asked : Tag} {iterator : EdgeIterator}
    (wellFormed : EdgeIndex.WellFormed index) (some : asked ≠ 0)
    (isPos : iterator.pos = firstOf index asked) (isKeyPos : iterator.keyPos = none)
    (isTag : iterator.tag = asked) :
    (iterator.pos = none ∧ index.selected asked = []) ∨
      ∃ position after, Cursor index asked iterator [] position after := by
  have path := selected_eq_find wellFormed.tags some
  cases found : index.find asked with
  | none =>
      rw [found] at path
      exact .inl ⟨by rw [isPos, firstOf, found]; rfl, path⟩
  | some key =>
      rw [found] at path
      cases isList : key.list with
      | nil => exact absurd isList (wellFormed.nonempty key (List.mem_of_find?_eq_some found))
      | cons first rest =>
          refine .inr ⟨first, rest, path.trans isList, ?_, ?_⟩
          · rw [isPos, firstOf, found, Option.bind_some, isList]
            rfl
          · rw [if_neg some]
            exact ⟨isKeyPos, isTag⟩

end EdgeIterator

end Pmgd
