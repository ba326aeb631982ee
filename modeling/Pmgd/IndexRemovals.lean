import Pmgd.AvlDeletions
import Pmgd.IndexInsertions

/-!
# Index iteration with removals

A transaction reads an index through an iterator and removes objects from the index at the same
time.  The iterator is told of the list nodes that are removed, but not of the tree nodes that are
freed, and it does not recognise what it is told of rotations.
-/

namespace Pmgd

open SortedInsert TreeNode LabelledRun

variable {K O : Type*} [LinearOrder K]

/-! ## Removals from an index -/

namespace TreeNode

/-- `find`, with the node whose value it returns. -/
def findEntry {V : Type*} : TreeNode K V → K → Option (TreeEntry K V)
  | null, _ => none
  | node address left right _ nodeKey value, key =>
      if key = nodeKey then
        some ⟨address, nodeKey, value⟩
      else if key < nodeKey then
        left.findEntry key
      else
        right.findEntry key

theorem findEntry_value {V : Type*} (tree : TreeNode K V) (key : K) :
    (tree.findEntry key).map TreeEntry.value = tree.find key := by
  induction tree with
  | null => rfl
  | node address left right height nodeKey value leftIh rightIh =>
      rw [findEntry, find]
      split_ifs
      · rfl
      · exact leftIh
      · exact rightIh

theorem mem_of_findEntry {V : Type*} {tree : TreeNode K V} {key : K} {entry : TreeEntry K V}
    (isFound : tree.findEntry key = some entry) : entry ∈ tree.entries ∧ entry.key = key := by
  induction tree with
  | null => cases isFound
  | node address left right height nodeKey value leftIh rightIh =>
      rw [findEntry] at isFound
      rw [entries_node, List.mem_append, List.mem_cons]
      split_ifs at isFound with isKey
      · obtain rfl := Option.some.inj isFound
        exact ⟨Or.inr (Or.inl rfl), isKey.symm⟩
      · exact (leftIh isFound).imp_left Or.inl
      · exact (rightIh isFound).imp_left fun inRight => Or.inr (Or.inr inRight)

/-- The list at the value that a pointer leads to has changed. -/
def setList (pointer : Nat) (rest : List (ListNode O)) (tree : TreeNode K (List (ListNode O))) :
    TreeNode K (List (ListNode O)) :=
  tree.mapValues fun address list => if address = pointer then rest else list

/-- The index without a list node. -/
def unlink (listNode : Nat) (tree : TreeNode K (List (ListNode O))) :
    TreeNode K (List (ListNode O)) :=
  tree.mapValues fun _ list => list.filter fun element => decide (element.address ≠ listNode)

omit [LinearOrder K] in
theorem mapValues_congr {V W : Type*} {change other : Nat → V → W} {tree : TreeNode K V}
    (same : ∀ entry ∈ tree.entries,
      change entry.address entry.value = other entry.address entry.value) :
    tree.mapValues change = tree.mapValues other := by
  induction tree with
  | null => rfl
  | node address left right height key value leftIh rightIh =>
      rw [entries_node, List.forall_mem_append, List.forall_mem_cons] at same
      obtain ⟨sameLeft, here, sameRight⟩ := same
      rw [mapValues, mapValues, leftIh sameLeft, rightIh sameRight, here]

omit [LinearOrder K] in
theorem mapValues_self {V : Type*} (tree : TreeNode K V) :
    (tree.mapValues fun _ value => value) = tree := by
  induction tree with
  | null => rfl
  | node address left right height key value leftIh rightIh => rw [mapValues, leftIh, rightIh]

omit [LinearOrder K] in
theorem setList_self {tree : TreeNode K (List (ListNode O))} (distinct : tree.addresses.Nodup)
    {dest : TreeEntry K (List (ListNode O))} (member : dest ∈ tree.entries) :
    tree.setList dest.address dest.value = tree := by
  refine (mapValues_congr fun entry inTree => ?_).trans (mapValues_self tree)
  split_ifs with here
  · rw [List.inj_on_of_nodup_map distinct inTree member here]
  · rfl

end TreeNode

omit [LinearOrder K] in
theorem eraseP_of_find [DecidableEq O] {list : List (ListNode O)} {object : O}
    {element : ListNode O}
    (isFound : (list.find? fun other => decide (other.value = object)) = some element) :
    ∃ earlier later, list = earlier ++ element :: later ∧
      (list.eraseP fun other => decide (other.value = object)) = earlier ++ later := by
  obtain ⟨isObject, earlier, later, rfl, notEarlier⟩ := List.find?_eq_some_iff_append.mp isFound
  refine ⟨earlier, later, rfl, ?_⟩
  have taken : ((element :: later).eraseP fun other => decide (other.value = object)) = later :=
    List.eraseP_cons_of_pos isObject
  rw [List.eraseP_append_right _ (by simpa using notEarlier), taken]

/-- `List::remove` takes out the first list node with the value. -/
theorem eraseP_eq_filter [DecidableEq O] {list : List (ListNode O)}
    (distinct : (list.map ListNode.address).Nodup) {object : O} {element : ListNode O}
    (isFound : (list.find? fun other => decide (other.value = object)) = some element) :
    (list.eraseP fun other => decide (other.value = object)) =
      list.filter fun other => decide (other.address ≠ element.address) := by
  obtain ⟨earlier, later, rfl, taken⟩ := eraseP_of_find isFound
  rw [List.map_append, List.map_cons, List.nodup_append] at distinct
  obtain ⟨-, laterDistinct, apart⟩ := distinct
  rw [taken, List.filter_append, List.filter_cons, if_neg (by simp), List.filter_eq_self.mpr,
    List.filter_eq_self.mpr]
  · intro other inLater
    have := (List.nodup_cons.mp laterDistinct).1
    apply decide_eq_true
    intro same
    exact this (same ▸ List.mem_map_of_mem inLater)
  · intro other inEarlier
    exact decide_eq_true (apart _ (List.mem_map_of_mem inEarlier) _ List.mem_cons_self)

namespace TreeNode

/-- Only the list of the key has the list node. -/
theorem setList_eq_unlink [DecidableEq O] {tree : TreeNode K (List (ListNode O))}
    (isPlaced : IsPlaced tree) {dest : TreeEntry K (List (ListNode O))}
    (member : dest ∈ tree.entries) {object : O} {element : ListNode O}
    (isFound : (dest.value.find? fun other => decide (other.value = object)) = some element) :
    tree.setList dest.address (dest.value.eraseP fun other => decide (other.value = object)) =
      tree.unlink element.address := by
  have distinct := isPlaced.elements
  rw [List.map_flatMap, List.nodup_flatMap] at distinct
  have symmetric : Std.Symm (Function.onFun List.Disjoint
      fun entry : TreeEntry K (List (ListNode O)) => entry.value.map ListNode.address) :=
    ⟨fun _ _ isDisjoint _ inSecond inFirst => isDisjoint inFirst inSecond⟩
  apply mapValues_congr
  intro entry inTree
  by_cases here : entry.address = dest.address
  · obtain rfl : entry = dest := List.inj_on_of_nodup_map isPlaced.nodes inTree member here
    rw [if_pos rfl]
    exact eraseP_eq_filter (distinct.1 entry inTree) isFound
  · have elsewhere : entry ≠ dest := fun same => here (congrArg TreeEntry.address same)
    have apart := distinct.2.forall inTree member elsewhere
    rw [if_neg here, List.filter_eq_self.mpr]
    intro other inEntry
    apply decide_eq_true
    intro same
    exact apart (List.mem_map_of_mem inEntry)
      (same ▸ List.mem_map_of_mem (List.mem_of_find?_eq_some isFound))

end TreeNode

/-! ## Positions -/

theorem IndexRange.IsAhead.withFlag {bounds : IndexRange K} {tree : TreeNode K (List (ListNode O))}
    {cursor : IndexCursor K} {pairs : List (K × ListNode O)}
    (isAhead : bounds.IsAhead tree cursor pairs) (vacantFlag : Bool) :
    bounds.IsAhead tree { cursor with vacantFlag } pairs := by
  cases isAhead with
  | ended curr path _ => exact IndexRange.IsAhead.ended curr path vacantFlag
  | atEntry member isSuffix _ => exact IndexRange.IsAhead.atEntry member isSuffix vacantFlag

namespace IndexCursor

/-- The iterator has these objects before it, for a range or for one key. -/
inductive IsBefore (tree : TreeNode K (List (ListNode O))) :
    IndexCursor K → List (K × ListNode O) → Prop
  | range {bounds : IndexRange K} {cursor : IndexCursor K} {pairs : List (K × ListNode O)}
      (sameKind : cursor.kind = .range bounds) (isAhead : bounds.IsAhead tree cursor pairs) :
      IsBefore tree cursor pairs
  | eqEnded (vacantFlag : Bool) : IsBefore tree ⟨.eq, none, [], none, vacantFlag⟩ []
  | eqAt {entry : TreeEntry K (List (ListNode O))} (member : entry ∈ tree.entries)
      {element : ListNode O} {rest : List (ListNode O)} (isSuffix : element :: rest <:+ entry.value)
      (vacantFlag : Bool) :
      IsBefore tree ⟨.eq, none, [], some element.address, vacantFlag⟩
        ((element :: rest).map fun element => (entry.key, element))

variable {tree : TreeNode K (List (ListNode O))} {cursor : IndexCursor K}
  {pairs : List (K × ListNode O)} {entry : TreeEntry K (List (ListNode O))} {element : ListNode O}
  {rest : List (ListNode O)}

theorem IsBefore.isAhead {bounds : IndexRange K} (isBefore : IsBefore tree cursor pairs)
    (sameKind : cursor.kind = .range bounds) : bounds.IsAhead tree cursor pairs := by
  cases isBefore with
  | range isKind isAhead =>
      obtain rfl := CursorKind.range.inj (isKind.symm.trans sameKind)
      exact isAhead
  | eqEnded => cases sameKind
  | eqAt => cases sameKind

theorem IsBefore.withFlag (isBefore : IsBefore tree cursor pairs) (vacantFlag : Bool) :
    IsBefore tree { cursor with vacantFlag } pairs := by
  cases isBefore with
  | range sameKind isAhead => exact IsBefore.range sameKind (isAhead.withFlag vacantFlag)
  | eqEnded => exact IsBefore.eqEnded vacantFlag
  | eqAt member isSuffix => exact IsBefore.eqAt member isSuffix vacantFlag

omit [LinearOrder K] in
theorem isAt_eq (member : entry ∈ tree.entries) (isSuffix : element :: rest <:+ entry.value) :
    (⟨.eq, none, [], some element.address, false⟩ : IndexCursor K).IsAt tree null []
      (element :: rest) :=
  ⟨rfl, null_isSubtree tree, Or.inl rfl, rfl, isStack_nil tree, rfl, ⟨entry, member, isSuffix⟩, rfl⟩

theorem IsBefore.listIt_eq (isBefore : IsBefore tree cursor pairs) :
    cursor.listIt = pairs.head?.map fun pair => pair.2.address := by
  cases isBefore with
  | range sameKind isAhead =>
      cases isAhead with
      | ended => rfl
      | atEntry => rfl
  | eqEnded => rfl
  | eqAt => rfl

theorem IsBefore.inTree (isBefore : IsBefore tree cursor pairs) :
    ∀ pair ∈ pairs, pair ∈ tree.pairs := by
  cases isBefore with
  | range sameKind isAhead => exact isAhead.inTree
  | eqEnded => exact fun pair inNil => absurd inNil List.not_mem_nil
  | eqAt member isSuffix =>
      intro pair isPair
      obtain ⟨other, inList, rfl⟩ := List.mem_map.mp isPair
      exact IndexRange.mem_pairs_iff.mpr ⟨_, member, rfl, isSuffix.subset inList⟩

theorem IsBefore.nodup (isBefore : IsBefore tree cursor pairs) (isPlaced : IsPlaced tree) :
    pairs.Nodup := by
  cases isBefore with
  | range sameKind isAhead => exact isAhead.nodup isPlaced
  | eqEnded => exact List.nodup_nil
  | eqAt member isSuffix =>
      have distinct := (List.nodup_flatMap.mp (List.Nodup.of_map _ isPlaced.elements)).1 _ member
      exact (distinct.sublist isSuffix.sublist).map fun _ _ same => (Prod.mk.inj same).2

theorem IsBefore.active_iff (isBefore : IsBefore tree cursor pairs)
    (notVacant : cursor.vacantFlag = false) : cursor.toBool = true ↔ pairs ≠ [] := by
  rw [toBool, notVacant, Bool.false_or, isBefore.listIt_eq]
  cases pairs <;> simp

theorem IsBefore.current (isBefore : IsBefore tree cursor pairs) (isPlaced : IsPlaced tree)
    (notVacant : cursor.vacantFlag = false) : cursor.current tree = pairs.head? := by
  cases isBefore with
  | range sameKind isAhead => exact (isAhead.current isPlaced notVacant).1
  | eqEnded vacantFlag =>
      obtain rfl : vacantFlag = false := notVacant
      rfl
  | eqAt member isSuffix vacantFlag =>
      obtain rfl : vacantFlag = false := notVacant
      rename_i entry element rest
      have inTree : (entry.key, element) ∈ tree.pairs :=
        IndexRange.mem_pairs_iff.mpr ⟨entry, member, rfl, isSuffix.subset List.mem_cons_self⟩
      rw [IndexCursor.current, (isAt_eq member isSuffix).ref_eq isPlaced, Option.bind_some]
      exact IndexRange.find_pairs isPlaced.elements inTree

theorem IsBefore.next (isBefore : IsBefore tree cursor pairs) (isPlaced : IsPlaced tree)
    (notVacant : cursor.vacantFlag = false) (active : cursor.toBool = true) :
    ∃ after, cursor.next tree = some after ∧ after.vacantFlag = false ∧
      after.kind = cursor.kind ∧ IsBefore tree after pairs.tail := by
  cases isBefore with
  | range sameKind isAhead =>
      obtain ⟨after, isNext, stillVacant, restAhead⟩ := isAhead.next isPlaced notVacant active
      have keepsKind := restAhead.kind_eq
      exact ⟨after, isNext, stillVacant, keepsKind.trans sameKind.symm,
        IsBefore.range keepsKind restAhead⟩
  | eqEnded vacantFlag =>
      obtain rfl : vacantFlag = false := notVacant
      cases active
  | eqAt member isSuffix vacantFlag =>
      obtain rfl : vacantFlag = false := notVacant
      rename_i entry element rest
      have isAt := isAt_eq member isSuffix
      cases rest with
      | nil => exact ⟨_, isAt.next_of_last isPlaced, rfl, rfl, IsBefore.eqEnded false⟩
      | cons second others =>
          obtain ⟨⟨kind, curr, path, listIt, vacantFlag⟩, isNext, sameKind, afterAt⟩ :=
            isAt.next_of_more isPlaced (List.cons_ne_nil _ _)
          obtain ⟨rfl, -, -, rfl, -, rfl, -, rfl⟩ := afterAt
          obtain rfl : kind = .eq := sameKind
          exact ⟨_, isNext, rfl, rfl,
            IsBefore.eqAt member ((List.suffix_cons _ _).trans isSuffix) false⟩

theorem IsBefore.yields (isBefore : IsBefore tree cursor pairs) (isPlaced : IsPlaced tree)
    (notVacant : cursor.vacantFlag = false) : cursor.Yields tree (pairs.map Prod.snd) := by
  cases isBefore with
  | range sameKind isAhead => exact isAhead.yields isPlaced notVacant
  | eqEnded vacantFlag =>
      obtain rfl : vacantFlag = false := notVacant
      exact ⟨1, rfl⟩
  | eqAt member isSuffix vacantFlag =>
      obtain rfl : vacantFlag = false := notVacant
      have yields := yields_remaining isPlaced (isAt_eq member isSuffix) (List.cons_ne_nil _ _)
      simpa [remaining, CursorKind.visits, CursorKind.pending, Function.comp_def] using yields

/-- The iterator moves on when the list node that it is at is removed. -/
theorem IsBefore.removeNotify (isBefore : IsBefore tree cursor pairs) (isPlaced : IsPlaced tree)
    {pair : K × ListNode O} (inTree : pair ∈ tree.pairs) :
    ∃ notified rest, cursor.removeNotify tree pair.2.address = some notified ∧
      notified.kind = cursor.kind ∧ IsBefore tree notified rest ∧
      notified.listIt ≠ some pair.2.address ∧
      (cursor.listIt = some pair.2.address ∧ pairs = pair :: rest ∨
        cursor.listIt ≠ some pair.2.address ∧ notified = cursor ∧ rest = pairs) := by
  rw [IndexCursor.removeNotify]
  by_cases here : cursor.listIt = some pair.2.address
  · rw [if_pos here]
    have isPos := isBefore.listIt_eq
    rw [here] at isPos
    obtain ⟨first, isFirst, sameAddress⟩ := Option.map_eq_some_iff.mp isPos.symm
    obtain ⟨rest, rfl⟩ := List.head?_eq_some_iff.mp isFirst
    have elements := isPlaced.elements
    rw [← IndexRange.pairs_elements, List.map_map] at elements
    have same : first = pair := List.inj_on_of_nodup_map elements
      (isBefore.inTree first List.mem_cons_self) inTree sameAddress
    subst same
    obtain ⟨after, isNext, -, sameKind, restBefore⟩ :=
      (isBefore.withFlag false).next isPlaced rfl (by simp [toBool, here])
    refine ⟨{ after with vacantFlag := true }, rest, by rw [isNext, Option.map_some], sameKind,
      restBefore.withFlag true, ?_, Or.inl ⟨here, rfl⟩⟩
    intro again
    have isNextPos := restBefore.listIt_eq
    rw [show after.listIt = some first.2.address from again] at isNextPos
    obtain ⟨second, isSecond, sameSecond⟩ := Option.map_eq_some_iff.mp isNextPos.symm
    have inRest : second ∈ rest := List.mem_of_mem_head? isSecond
    have same : second = first := List.inj_on_of_nodup_map elements
      (isBefore.inTree second (List.mem_cons_of_mem _ inRest)) inTree sameSecond
    exact (List.nodup_cons.mp (isBefore.nodup isPlaced)).1 (same ▸ inRest)
  · rw [if_neg here]
    exact ⟨cursor, pairs, rfl, rfl, isBefore, here, Or.inr ⟨here, rfl, rfl⟩⟩

end IndexCursor

/-! ## One list node less -/

section Unlink

variable {tree : TreeNode K (List (ListNode O))} {cursor : IndexCursor K}
  {pairs : List (K × ListNode O)} {listNode : Nat}

omit [LinearOrder K] in
theorem TreeNode.mem_pairs_unlink {pair : K × ListNode O} :
    pair ∈ (tree.unlink listNode).pairs ↔ pair ∈ tree.pairs ∧ pair.2.address ≠ listNode := by
  rw [IndexRange.mem_pairs_iff, IndexRange.mem_pairs_iff, unlink, entries_mapValues]
  simp only [List.mem_map]
  constructor
  · rintro ⟨_, ⟨entry, member, rfl⟩, isKey, inList⟩
    obtain ⟨inList, elsewhere⟩ := List.mem_filter.mp inList
    exact ⟨⟨entry, member, isKey, inList⟩, of_decide_eq_true elsewhere⟩
  · rintro ⟨⟨entry, member, isKey, inList⟩, elsewhere⟩
    exact ⟨_, ⟨entry, member, rfl⟩, isKey,
      List.mem_filter.mpr ⟨inList, decide_eq_true elsewhere⟩⟩

omit [LinearOrder K] in
theorem TreeNode.mem_entries_unlink {entry : TreeEntry K (List (ListNode O))}
    (member : entry ∈ tree.entries) :
    ⟨entry.address, entry.key,
        entry.value.filter fun element => decide (element.address ≠ listNode)⟩ ∈
      (tree.unlink listNode).entries := by
  rw [unlink, entries_mapValues]
  exact List.mem_map_of_mem member

omit [LinearOrder K] in
theorem suffix_filter {element : ListNode O} {rest list : List (ListNode O)}
    (isSuffix : element :: rest <:+ list) (elsewhere : element.address ≠ listNode) :
    element :: rest.filter (fun element => decide (element.address ≠ listNode)) <:+
      list.filter fun element => decide (element.address ≠ listNode) := by
  have filtered := isSuffix.filter fun element => decide (element.address ≠ listNode)
  rwa [List.filter_cons, if_pos (decide_eq_true elsewhere)] at filtered

/-- The iterator stays where it is when another list node goes. -/
theorem IndexCursor.IsBefore.unlink (isBefore : IsBefore tree cursor pairs)
    (elsewhere : cursor.listIt ≠ some listNode) :
    ∃ rest, IsBefore (tree.unlink listNode) cursor rest ∧ rest.head? = pairs.head? ∧
      ∀ pair, pair ∈ rest ↔ pair ∈ pairs ∧ pair.2.address ≠ listNode := by
  cases isBefore with
  | range sameKind isAhead =>
      cases isAhead with
      | ended curr path vacantFlag =>
          exact ⟨[], IsBefore.range rfl (IndexRange.IsAhead.ended curr path vacantFlag), rfl,
            by simp⟩
      | atEntry member isSuffix vacantFlag =>
          rename_i bounds entry element rest
          have elsewhere : element.address ≠ listNode := fun same => elsewhere (congrArg some same)
          have samePath : pointers ((tree.unlink listNode).search bounds.way ⟨entry.key, true⟩
              bounds.inside []) =
                pointers (tree.search bounds.way ⟨entry.key, true⟩ bounds.inside []) :=
            pointers_search_mapValues _ _ _
          let changed : TreeEntry K (List (ListNode O)) := ⟨entry.address, entry.key,
            entry.value.filter fun element => decide (element.address ≠ listNode)⟩
          have inUnlinked : changed ∈ (tree.unlink listNode).entries := mem_entries_unlink member
          have isAhead : bounds.IsAhead (tree.unlink listNode) _ _ :=
            IndexRange.IsAhead.atEntry inUnlinked (suffix_filter isSuffix elsewhere) vacantFlag
          have sameCursor : bounds.cursorAt tree entry element vacantFlag =
              bounds.cursorAt (tree.unlink listNode) changed element vacantFlag :=
            cursorAt_congr rfl samePath element vacantFlag
          rw [← sameCursor] at isAhead
          refine ⟨_, IsBefore.range rfl isAhead, rfl, fun pair => ?_⟩
          rw [IndexRange.mem_ahead_iff, IndexRange.mem_ahead_iff, mem_pairs_unlink,
            List.mem_cons, List.mem_cons, List.mem_filter, decide_eq_true_eq]
          grind
  | eqEnded vacantFlag => exact ⟨[], IsBefore.eqEnded vacantFlag, rfl, by simp⟩
  | eqAt member isSuffix vacantFlag =>
      rename_i entry element rest
      have elsewhere : element.address ≠ listNode := fun same => elsewhere (congrArg some same)
      refine ⟨_, IsBefore.eqAt (mem_entries_unlink member) (suffix_filter isSuffix elsewhere)
        vacantFlag, rfl, fun pair => ?_⟩
      simp only [List.mem_map, List.mem_cons, List.mem_filter, decide_eq_true_eq]
      grind

omit [LinearOrder K] in
theorem TreeNode.elements_unlink
    (elements : ((tree.entries.flatMap TreeEntry.value).map ListNode.address).Nodup) :
    (((tree.unlink listNode).entries.flatMap TreeEntry.value).map ListNode.address).Nodup := by
  apply List.Nodup.sublist _ elements
  rw [unlink, entries_mapValues, List.flatMap_map]
  apply List.Sublist.map
  apply List.Sublist.flatMap_right
  exact fun _ _ => List.filter_sublist

end Unlink

/-! ## One tree node less -/

section Deletion

variable {tree : TreeNode K (List (ListNode O))} {cursor : IndexCursor K}
  {pairs : List (K × ListNode O)} {key : K} {removed : Removed K (List (ListNode O))}

omit [LinearOrder K] in
theorem TreeNode.mem_toList_iff {V : Type*} {tree : TreeNode K V} {key : K} {value : V} :
    (key, value) ∈ tree.toList ↔ ∃ entry ∈ tree.entries, entry.key = key ∧ entry.value = value := by
  simp [toList]

/-- A deletion takes out the entry of the key. -/
theorem TreeNode.Deletes.mem_toList (deletes : Deletes tree key removed) {other : K}
    {list : List (ListNode O)} :
    (other, list) ∈ removed.tree.toList ↔ (other, list) ∈ tree.toList ∧ other ≠ key := by
  rw [deletes.toList_eq, eraseBy, List.mem_filter, decide_eq_true_eq]

/-- The list of the key is empty already. -/
theorem TreeNode.Deletes.mem_pairs (deletes : Deletes tree key removed)
    (emptied : ∀ entry ∈ tree.entries, entry.key = key → entry.value = [])
    {pair : K × ListNode O} : pair ∈ removed.tree.pairs ↔ pair ∈ tree.pairs := by
  have inList (tree : TreeNode K (List (ListNode O))) :
      pair ∈ tree.pairs ↔ ∃ list, (pair.1, list) ∈ tree.toList ∧ pair.2 ∈ list := by
    simp only [IndexRange.mem_pairs_iff, mem_toList_iff]
    grind
  rw [inList, inList]
  constructor
  · rintro ⟨list, member, inside⟩
    exact ⟨list, (deletes.mem_toList.mp member).1, inside⟩
  · rintro ⟨list, member, inside⟩
    refine ⟨list, deletes.mem_toList.mpr ⟨member, fun isKey => ?_⟩, inside⟩
    obtain ⟨entry, inTree, sameKey, rfl⟩ := mem_toList_iff.mp member
    rw [emptied entry inTree (sameKey.trans isKey)] at inside
    exact List.not_mem_nil inside

theorem TreeNode.Deletes.isPlaced (deletes : Deletes tree key removed) (isAvl : tree.IsAvl)
    (elements : ((tree.entries.flatMap TreeEntry.value).map ListNode.address).Nodup)
    (others : ∀ entry ∈ tree.entries, entry.key ≠ key → entry.value ≠ []) :
    IsPlaced removed.tree where
  index := by
    constructor
    · rw [ordered_iff_toList, deletes.toList_eq]
      exact sortedBy_eraseBy (ordered_iff_toList.mp isAvl.ordered) key
    · intro entry member
      obtain ⟨inTree, notKey⟩ :=
        deletes.mem_toList.mp (mem_toList_iff.mpr ⟨entry, member, rfl, rfl⟩)
      obtain ⟨old, isOld, sameKey, sameValue⟩ := mem_toList_iff.mp inTree
      rw [← sameValue]
      exact others old isOld (sameKey.symm ▸ notKey)
  nodes := deletes.distinct isAvl.distinct
  elements := by
    have values (tree : TreeNode K (List (ListNode O))) :
        tree.entries.flatMap TreeEntry.value = tree.toList.flatMap Prod.snd := by
      simp [toList, List.flatMap_map]
    rw [values] at elements ⊢
    rw [deletes.toList_eq]
    exact elements.sublist ((List.filter_sublist.flatMap Prod.snd).map _)

/-- The iterator after a deletion. -/
theorem IndexCursor.IsBefore.delete (isBefore : IsBefore tree cursor pairs) (isAvl : tree.IsAvl)
    (isRemoved : tree.removeRecursive key = some removed) (deletes : Deletes tree key removed)
    (emptied : ∀ entry ∈ tree.entries, entry.key = key → entry.value = [])
    (keeps : ∀ bounds, cursor.kind = .range bounds →
      ∀ first ∈ pairs.head?, StackKept bounds.way bounds.inside tree key first.1) :
    ∃ rest, IsBefore removed.tree cursor rest ∧ ∀ pair, pair ∈ rest ↔ pair ∈ pairs := by
  cases isBefore with
  | range sameKind isAhead =>
      cases isAhead with
      | ended curr path vacantFlag =>
          exact ⟨[], IsBefore.range rfl (IndexRange.IsAhead.ended curr path vacantFlag), by simp⟩
      | atEntry member isSuffix vacantFlag =>
          rename_i bounds entry element rest
          have notKey : entry.key ≠ key := by
            intro isKey
            rw [emptied entry member isKey] at isSuffix
            exact List.cons_ne_nil _ _ (List.suffix_nil.mp isSuffix)
          have kept := keeps bounds rfl _ rfl
          have stays : entry ∈ removed.tree.entries := by
            apply removeRecursive_kept isAvl.ordered isAvl.heightsOk isRemoved member notKey
            exact fun isFreed => kept.notStacked entry isFreed
              (mem_pointers_search isAvl.ordered member)
          have samePath := pointers_search_removeRecursive (fun _ _ => bounds.inside_of_before)
            isAvl.ordered isAvl.heightsOk isRemoved ⟨entry, member, rfl⟩ notKey kept
          have isCursor : bounds.cursorAt tree entry element vacantFlag =
              bounds.cursorAt removed.tree entry element vacantFlag :=
            cursorAt_congr rfl samePath element vacantFlag
          have isAfter : bounds.IsAhead removed.tree
              (bounds.cursorAt removed.tree entry element vacantFlag) _ :=
            IndexRange.IsAhead.atEntry stays isSuffix vacantFlag
          rw [← isCursor] at isAfter
          refine ⟨_, IsBefore.range rfl isAfter, fun pair => ?_⟩
          rw [IndexRange.mem_ahead_iff, IndexRange.mem_ahead_iff, deletes.mem_pairs emptied]
  | eqEnded vacantFlag => exact ⟨[], IsBefore.eqEnded vacantFlag, by simp⟩
  | eqAt member isSuffix vacantFlag =>
      rename_i entry element rest
      have notKey : entry.key ≠ key := by
        intro isKey
        rw [emptied entry member isKey] at isSuffix
        exact List.cons_ne_nil _ _ (List.suffix_nil.mp isSuffix)
      obtain ⟨other, stays, sameKey, sameValue⟩ := mem_toList_iff.mp
        (deletes.mem_toList.mpr ⟨mem_toList_iff.mpr ⟨entry, member, rfl, rfl⟩, notKey⟩)
      rw [← sameValue] at isSuffix
      refine ⟨_, IsBefore.eqAt stays isSuffix vacantFlag, ?_⟩
      rw [sameKey]
      exact fun _ => Iff.rfl

end Deletion

/-! ## One step -/

/-- What the transaction does between two calls of the iterator. -/
inductive IndexRemoval (K O : Type*)
  | next
  | remove (key : K) (object : O) (writeLocked : Bool)

/-- The action takes the object from the key. -/
def IndexRemoval.Removes : IndexRemoval K O → K × ListNode O → Prop
  | next, _ => False
  | remove key object _, pair => pair.1 = key ∧ pair.2.value = object

/-- The key of the node that the iterator is at. -/
def IndexCursor.currKey (tree : TreeNode K (List (ListNode O))) (cursor : IndexCursor K) :
    Option K :=
  cursor.listIt.bind fun _ => cursor.curr.bind fun curr =>
    (tree.entries.find? fun entry => decide (entry.address = curr)).map TreeEntry.key

namespace IndexIteration

/-- `Index::remove`: the iterator is told of the list node that goes, and `AvlTree` calls the
callback for rotations. -/
def remove [DecidableEq O] (state : IndexIteration K O) (key : K) (object : O)
    (writeLocked : Bool) : Option (IndexIteration K O) :=
  match state.tree.findEntry key with
  | none => some state
  | some dest =>
      let notified := match dest.value.find? fun element => decide (element.value = object) with
        | none => some state.cursor
        | some element => state.cursor.removeNotify state.tree element.address
      notified.bind fun cursor =>
        let rest := dest.value.eraseP fun element => decide (element.value = object)
        let tree := state.tree.setList dest.address rest
        if rest.isEmpty then
          (tree.remove key writeLocked).bind fun result =>
            let notified :=
              if result.rebalanced then
                cursor.rebalanceNotify result.tree state.address
                  (IndexCursor.avlTreePart state.address)
              else
                some cursor
            notified.map fun cursor => { state with tree := result.tree, cursor }
        else
          some { state with tree, cursor }

def removingStep [DecidableEq O] (state : IndexIteration K O) :
    IndexRemoval K O → Option (IndexIteration K O)
  | .next => state.next
  | .remove key object writeLocked => state.remove key object writeLocked

/-- The key that the iterator is at when the list of this list node has no other one and it is
told that it goes. -/
def keyWithout (state : IndexIteration K O) (bounds : IndexRange K) (listNode : Nat) : Option K :=
  (state.cursor.currKey state.tree).bind fun cur =>
    if state.cursor.listIt = some listNode then
      (bounds.way.following bounds.inside cur state.tree).head?.map TreeEntry.key
    else
      some cur

/-- The condition on the index and the iterator before the last object of a key is removed. -/
def SafeRemoval (state : IndexIteration K O) : IndexRemoval K O → Prop
  | .next => True
  | .remove key object _ =>
      ∀ dest ∈ state.tree.findEntry key, ∀ element, dest.value = [element] →
        element.value = object → state.tree.IsAvl ∧
          ∀ bounds, state.cursor.kind = .range bounds →
            ∀ cur ∈ state.keyWithout bounds element.address,
              StackKept bounds.way bounds.inside (state.tree.unlink element.address) key cur

end IndexIteration

/-- An object is in the list of a key once. -/
def TreeNode.ObjectsOnce (tree : TreeNode K (List (ListNode O))) : Prop :=
  ∀ first ∈ tree.pairs, ∀ second ∈ tree.pairs, first.1 = second.1 →
    first.2.value = second.2.value → first = second

namespace IndexIteration

/-- What the actions do to the objects and to what has been read. -/
structure Continues (state : IndexIteration K O) (actions : List (IndexRemoval K O))
    (final : IndexIteration K O) : Prop where
  reads : ∃ reads, final.trace = state.trace ++ reads ∧ ∀ pair ∈ reads, pair ∈ state.tree.pairs
  inTree : ∀ pair ∈ final.tree.pairs, pair ∈ state.tree.pairs
  gone : state.tree.ObjectsOnce →
    ∀ pair ∈ final.tree.pairs, ∀ action ∈ actions, ¬ action.Removes pair
  kept : ∀ pair ∈ state.tree.pairs, (∀ action ∈ actions, ¬ action.Removes pair) →
    pair ∈ final.tree.pairs

/-- What each step keeps. -/
structure RemovalInvariant (state : IndexIteration K O) (initial : List (K × ListNode O))
    (predicate : PropertyPredicate K) (ahead : List (K × ListNode O)) : Prop where
  isPlaced : IsPlaced state.tree
  isBefore : state.cursor.IsBefore state.tree ahead
  wasInTree : ∀ pair ∈ state.trace ++ ahead, pair ∈ initial
  nodup : (state.trace ++ ahead).Nodup
  complete : ∀ pair ∈ state.tree.pairs, predicate.compares pair.1 = true →
    pair ∈ state.trace ++ ahead

/-! The key that the iterator is at -/

omit [LinearOrder K] in
theorem head_flatMap_pairs {entries : List (TreeEntry K (List (ListNode O)))}
    (nonempty : ∀ entry ∈ entries, entry.value ≠ []) :
    (entries.flatMap TreeEntry.pairs).head?.map Prod.fst = entries.head?.map TreeEntry.key := by
  cases entries with
  | nil => rfl
  | cons entry entries =>
      obtain ⟨element, rest, isValue⟩ :=
        List.exists_cons_of_ne_nil (nonempty entry List.mem_cons_self)
      rw [List.flatMap_cons, TreeEntry.pairs, isValue]
      rfl

theorem currKey_eq {bounds : IndexRange K} {tree : TreeNode K (List (ListNode O))}
    {cursor : IndexCursor K} {pairs : List (K × ListNode O)}
    (isAhead : bounds.IsAhead tree cursor pairs) (isPlaced : IsPlaced tree) :
    cursor.currKey tree = pairs.head?.map Prod.fst := by
  cases isAhead with
  | ended => rfl
  | atEntry member isSuffix vacantFlag =>
      rename_i entry element rest
      have isFound : (tree.entries.find? fun other => decide (other.address = entry.address)) =
          some entry := by
        cases isFound : tree.entries.find? fun other => decide (other.address = entry.address) with
        | none => exact absurd (decide_eq_true rfl) (List.find?_eq_none.mp isFound entry member)
        | some other =>
            have sameAddress : other.address = entry.address := by
              simpa using List.find?_some isFound
            exact congrArg some (List.inj_on_of_nodup_map isPlaced.nodes
              (List.mem_of_find?_eq_some isFound) member sameAddress)
      rw [IndexCursor.currKey, IndexRange.cursorAt, Option.bind_some, Option.bind_some, isFound]
      rfl

variable {state : IndexIteration K O} {initial ahead : List (K × ListNode O)}
  {predicate : PropertyPredicate K}

/-- After the notification the iterator is at the first of the objects that it has before it. -/
theorem keyWithout_eq {bounds : IndexRange K} (isAhead : bounds.IsAhead state.tree state.cursor ahead)
    (isPlaced : IsPlaced state.tree) {dest : TreeEntry K (List (ListNode O))}
    (member : dest ∈ state.tree.entries) {element : ListNode O} (alone : dest.value = [element])
    {rest : List (K × ListNode O)}
    (moved : state.cursor.listIt = some element.address ∧ ahead = (dest.key, element) :: rest ∨
      state.cursor.listIt ≠ some element.address ∧ rest = ahead) :
    state.keyWithout bounds element.address = rest.head?.map Prod.fst := by
  rw [keyWithout, currKey_eq isAhead isPlaced]
  rcases moved with ⟨here, isFirst⟩ | ⟨elsewhere, rfl⟩
  · rw [isFirst, List.head?_cons, Option.map_some, Option.bind_some, if_pos here]
    generalize state.cursor = cursor at isAhead
    cases isAhead with
    | ended => cases isFirst
    | atEntry inTree isSuffix vacantFlag =>
        rename_i entry first others
        rw [IndexRange.ahead, List.map_cons, List.cons_append] at isFirst
        obtain ⟨isPair, rfl⟩ := List.cons.inj isFirst
        obtain ⟨sameKey, rfl⟩ := Prod.mk.inj isPair
        obtain rfl : entry = dest := isPlaced.index.1.eq_of_key_eq inTree member sameKey
        rw [alone] at isSuffix
        obtain rfl : others = [] := by
          rcases List.suffix_cons_iff.mp isSuffix with same | isNil
          · exact (List.cons.inj same).2
          · exact absurd (List.suffix_nil.mp isNil) (List.cons_ne_nil _ _)
        rw [List.map_nil, List.nil_append, head_flatMap_pairs]
        intro other inFollowing
        exact isPlaced.index.2 other
          ((bounds.way.mem_along).mp (List.mem_of_mem_filter inFollowing))
  · simp only [if_neg elsewhere]
    exact Option.bind_fun_some _

/-! The objects of the index -/

/-- One list node is taken out of the index and of what the iterator has before it. -/
structure TakesOut (state : IndexIteration K O) (ahead : List (K × ListNode O)) (listNode : Nat)
    (after : IndexIteration K O) (rest : List (K × ListNode O)) : Prop where
  sameTrace : after.trace = state.trace
  isPlaced : IsPlaced after.tree
  isBefore : after.cursor.IsBefore after.tree rest
  inTree : ∀ pair, pair ∈ after.tree.pairs ↔ pair ∈ state.tree.pairs ∧ pair.2.address ≠ listNode
  isRest : ∀ pair, pair ∈ rest ↔ pair ∈ ahead ∧ pair.2.address ≠ listNode

section Remove

variable [DecidableEq O] {key : K} {object : O} {writeLocked : Bool}
  {dest : TreeEntry K (List (ListNode O))} {element : ListNode O}

omit [LinearOrder K] in
theorem eq_singleton_of_eraseP_eq_nil {list : List (ListNode O)}
    (isFound : (list.find? fun other => decide (other.value = object)) = some element)
    (isNil : (list.eraseP fun other => decide (other.value = object)) = []) :
    list = [element] := by
  obtain ⟨earlier, later, isList, isRest⟩ := eraseP_of_find isFound
  rw [isNil, eq_comm, List.append_eq_nil_iff] at isRest
  rw [isList, isRest.1, isRest.2, List.nil_append]

/-- The other lists keep their list nodes. -/
theorem unlink_nonempty (isPlaced : IsPlaced state.tree) (member : dest ∈ state.tree.entries)
    (isElement : (dest.value.find? fun element => decide (element.value = object)) =
      some element)
    {entry : TreeEntry K (List (ListNode O))}
    (inUnlinked : entry ∈ (state.tree.unlink element.address).entries)
    (nonempty : entry.key = dest.key →
      (dest.value.eraseP fun element => decide (element.value = object)) ≠ []) :
    entry.value ≠ [] := by
  rw [← setList_eq_unlink isPlaced member isElement, setList, entries_mapValues] at inUnlinked
  obtain ⟨other, isOther, rfl⟩ := List.mem_map.mp inUnlinked
  dsimp only at nonempty ⊢
  split_ifs with here
  · have isDest := List.inj_on_of_nodup_map isPlaced.nodes isOther member here
    exact nonempty (congrArg TreeEntry.key isDest)
  · exact isPlaced.index.2 other isOther

/-- `AvlTree::remove` when the list of the key has become empty. -/
theorem takesOut_of_alone (isPlaced : IsPlaced state.tree) (member : dest ∈ state.tree.entries)
    (isElement : (dest.value.find? fun element => decide (element.value = object)) =
      some element)
    (alone : (dest.value.eraseP fun element => decide (element.value = object)) = [])
    (isAvl : state.tree.IsAvl) {notified : IndexCursor K} {rest : List (K × ListNode O)}
    (isBefore : notified.IsBefore (state.tree.unlink element.address) rest)
    (isRest : ∀ pair, pair ∈ rest ↔ pair ∈ ahead ∧ pair.2.address ≠ element.address)
    (keeps : ∀ bounds, notified.kind = .range bounds → ∀ first ∈ rest.head?,
      StackKept bounds.way bounds.inside (state.tree.unlink element.address) dest.key first.1)
    (writeLocked : Bool) :
    ∃ result last,
      (state.tree.unlink element.address).remove dest.key writeLocked = some result ∧
        state.TakesOut ahead element.address { state with tree := result.tree, cursor := notified }
          last := by
  have unlinkedAvl : (state.tree.unlink element.address).IsAvl := isAvl_mapValues _ isAvl
  obtain ⟨removed, isRemoved, deletes⟩ :=
    removeRecursive_spec unlinkedAvl.ordered unlinkedAvl.heightsOk dest.key
  obtain ⟨retval, isResult⟩ := remove_eq unlinkedAvl dest.key writeLocked isRemoved
  have emptied : ∀ entry ∈ (state.tree.unlink element.address).entries,
      entry.key = dest.key → entry.value = [] := by
    rw [← setList_eq_unlink isPlaced member isElement, setList, entries_mapValues]
    intro entry inEntries isKey
    obtain ⟨other, isOther, rfl⟩ := List.mem_map.mp inEntries
    have isDest : other = dest := isPlaced.index.1.eq_of_key_eq isOther member isKey
    rw [if_pos (congrArg TreeEntry.address isDest)]
    exact alone
  obtain ⟨last, isLast, lastIff⟩ := isBefore.delete unlinkedAvl isRemoved deletes emptied keeps
  have isPlacedRemoved : IsPlaced removed.tree := by
    apply deletes.isPlaced unlinkedAvl (elements_unlink isPlaced.elements)
    exact fun entry inUnlinked notKey =>
      unlink_nonempty isPlaced member isElement inUnlinked fun isKey => absurd isKey notKey
  refine ⟨_, last, isResult, rfl, isPlacedRemoved, isLast, fun pair => ?_, fun pair => ?_⟩
  · rw [deletes.mem_pairs emptied, mem_pairs_unlink]
  · rw [lastIff, isRest]

theorem remove_takesOut (isPlaced : IsPlaced state.tree)
    (isBefore : state.cursor.IsBefore state.tree ahead)
    (safe : state.SafeRemoval (.remove key object writeLocked))
    (isDest : state.tree.findEntry key = some dest)
    (isElement : (dest.value.find? fun element => decide (element.value = object)) =
      some element) :
    ∃ after rest, state.remove key object writeLocked = some after ∧
      state.TakesOut ahead element.address after rest := by
  obtain ⟨member, rfl⟩ := mem_of_findEntry isDest
  have inTree : (dest.key, element) ∈ state.tree.pairs :=
    IndexRange.mem_pairs_iff.mpr ⟨dest, member, rfl, List.mem_of_find?_eq_some isElement⟩
  obtain ⟨notified, moved, isNotified, sameKind, movedBefore, elsewhere, isMoved⟩ :=
    isBefore.removeNotify isPlaced inTree
  obtain ⟨rest, restBefore, sameHead, isRest⟩ := movedBefore.unlink elsewhere
  have fromAhead (pair : K × ListNode O) :
      pair ∈ rest ↔ pair ∈ ahead ∧ pair.2.address ≠ element.address := by
    rw [isRest]
    rcases isMoved with ⟨-, rfl⟩ | ⟨-, -, rfl⟩
    · rw [List.mem_cons]
      constructor
      · exact fun ⟨inMoved, other⟩ => ⟨Or.inr inMoved, other⟩
      · rintro ⟨rfl | inMoved, other⟩
        · exact absurd rfl other
        · exact ⟨inMoved, other⟩
    · exact Iff.rfl
  rw [remove, isDest]
  dsimp only
  rw [isElement]
  dsimp only
  rw [isNotified, Option.bind_some, setList_eq_unlink isPlaced member isElement]
  by_cases alone : (dest.value.eraseP fun element => decide (element.value = object)) = []
  · have isList := eq_singleton_of_eraseP_eq_nil isElement alone
    have isObject : element.value = object := by simpa using List.find?_some isElement
    obtain ⟨isAvl, keeps⟩ := safe dest isDest element isList isObject
    have restKeeps : ∀ bounds, notified.kind = .range bounds → ∀ first ∈ rest.head?,
        StackKept bounds.way bounds.inside (state.tree.unlink element.address) dest.key
          first.1 := by
      intro bounds isKind first isFirst
      have isRange := sameKind.symm.trans isKind
      have isCur := keyWithout_eq (isBefore.isAhead isRange) isPlaced member isList
        (isMoved.imp_right fun moved => ⟨moved.1, moved.2.2⟩)
      rw [sameHead] at isFirst
      have isFirst : moved.head? = some first := isFirst
      rw [isFirst, Option.map_some] at isCur
      exact keeps bounds isRange first.1 isCur
    obtain ⟨result, last, isResult, takesOut⟩ :=
      takesOut_of_alone isPlaced member isElement alone isAvl restBefore fromAhead restKeeps
        writeLocked
    refine ⟨_, last, ?_, takesOut⟩
    rw [alone, List.isEmpty_nil, if_pos rfl, isResult, Option.bind_some,
      IndexCursor.rebalanceNotify_avlTreePart, ite_self, Option.map_some]
  · refine ⟨_, rest, if_neg (by simpa using alone), rfl,
      ⟨⟨ordered_mapValues _ isPlaced.index.1, ?_⟩, ?_, elements_unlink isPlaced.elements⟩,
      restBefore, fun pair => mem_pairs_unlink, fromAhead⟩
    · exact fun entry inUnlinked =>
        unlink_nonempty isPlaced member isElement inUnlinked fun _ => alone
    · rw [unlink, addresses_mapValues]
      exact isPlaced.nodes

omit [DecidableEq O] in
theorem TakesOut.invariant {after : IndexIteration K O} {rest : List (K × ListNode O)}
    {listNode : Nat} (takesOut : state.TakesOut ahead listNode after rest)
    (invariant : state.RemovalInvariant initial predicate ahead) :
    after.RemovalInvariant initial predicate rest := by
  obtain ⟨sameTrace, isPlaced, isBefore, inTree, isRest⟩ := takesOut
  obtain ⟨traceNodup, -, apart⟩ := List.nodup_append.mp invariant.nodup
  have subset : ∀ pair ∈ rest, pair ∈ ahead := fun pair inRest => ((isRest pair).mp inRest).1
  refine ⟨isPlaced, isBefore, fun pair member => ?_, ?_, fun pair isPair passes => ?_⟩
  · rw [sameTrace] at member
    apply invariant.wasInTree
    exact List.mem_append.mpr ((List.mem_append.mp member).imp_right (subset pair))
  · rw [sameTrace, List.nodup_append]
    exact ⟨traceNodup, isBefore.nodup isPlaced,
      fun pair inTrace other inRest => apart pair inTrace other (subset other inRest)⟩
  · obtain ⟨wasPair, elsewhere⟩ := (inTree pair).mp isPair
    rw [sameTrace, List.mem_append]
    have inEither := List.mem_append.mp (invariant.complete pair wasPair passes)
    exact inEither.imp_right fun inAhead => (isRest pair).mpr ⟨inAhead, elsewhere⟩

omit [DecidableEq O] in
theorem TakesOut.continues {after : IndexIteration K O} {rest : List (K × ListNode O)}
    (takesOut : state.TakesOut ahead element.address after rest) (isPlaced : IsPlaced state.tree)
    (inTree : (key, element) ∈ state.tree.pairs) (isObject : element.value = object) :
    state.Continues [.remove key object writeLocked] after where
  reads := ⟨[], by rw [takesOut.sameTrace, List.append_nil], by simp⟩
  inTree := fun pair isPair => ((takesOut.inTree pair).mp isPair).1
  gone := by
    intro objectsOnce pair isPair action isAction removes
    obtain rfl := List.mem_singleton.mp isAction
    obtain ⟨wasPair, elsewhere⟩ := (takesOut.inTree pair).mp isPair
    have same := objectsOnce pair wasPair _ inTree removes.1 (removes.2.trans isObject.symm)
    rw [same] at elsewhere
    exact elsewhere rfl
  kept := by
    intro pair wasPair notRemoved
    refine (takesOut.inTree pair).mpr ⟨wasPair, fun sameAddress => ?_⟩
    have elements := isPlaced.elements
    rw [← IndexRange.pairs_elements, List.map_map] at elements
    have same : pair = (key, element) := List.inj_on_of_nodup_map elements wasPair inTree sameAddress
    exact notRemoved _ List.mem_cons_self (same ▸ ⟨rfl, isObject⟩)

omit [DecidableEq O] [LinearOrder K] in
/-- Nothing to remove. -/
theorem continues_of_absent
    (absent : ∀ pair ∈ state.tree.pairs, ¬ (pair.1 = key ∧ pair.2.value = object)) :
    state.Continues [.remove key object writeLocked] state where
  reads := ⟨[], (List.append_nil _).symm, by simp⟩
  inTree := fun _ isPair => isPair
  gone := by
    intro _ pair isPair action isAction removes
    obtain rfl := List.mem_singleton.mp isAction
    exact absent pair isPair removes
  kept := fun _ isPair _ => isPair

theorem RemovalInvariant.remove (invariant : state.RemovalInvariant initial predicate ahead)
    (safe : state.SafeRemoval (.remove key object writeLocked)) :
    ∃ after rest, state.remove key object writeLocked = some after ∧
      after.RemovalInvariant initial predicate rest ∧
      state.Continues [.remove key object writeLocked] after := by
  have isPlaced := invariant.isPlaced
  cases isDest : state.tree.findEntry key with
  | none =>
      refine ⟨state, ahead, by rw [IndexIteration.remove, isDest], invariant,
        continues_of_absent ?_⟩
      rintro pair isPair ⟨isKey, -⟩
      obtain ⟨entry, member, sameKey, -⟩ := IndexRange.mem_pairs_iff.mp isPair
      have isFound := findEntry_value state.tree key
      rw [isDest, Option.map_none] at isFound
      rcases find_cases isPlaced.index.1 key with ⟨_, -, -, isSome⟩ | ⟨absent, -⟩
      · cases isFound.trans isSome
      · exact absent entry member (sameKey.trans isKey)
  | some dest =>
      obtain ⟨member, isKey⟩ := mem_of_findEntry isDest
      cases isElement : dest.value.find? fun element => decide (element.value = object) with
      | none =>
          have notThere := List.find?_eq_none.mp isElement
          have sameTree := setList_self isPlaced.nodes member
          refine ⟨state, ahead, ?_, invariant, continues_of_absent ?_⟩
          · rw [IndexIteration.remove, isDest]
            dsimp only
            rw [isElement, List.eraseP_of_forall_not notThere]
            have nonempty : ¬ dest.value.isEmpty = true := by
              simpa using isPlaced.index.2 dest member
            simp only [Option.bind_some, if_neg nonempty, sameTree]
          · rintro pair isPair ⟨sameKey, isObject⟩
            obtain ⟨entry, inTree, entryKey, inList⟩ := IndexRange.mem_pairs_iff.mp isPair
            obtain rfl : entry = dest := isPlaced.index.1.eq_of_key_eq inTree member
              (entryKey.trans (sameKey.trans isKey.symm))
            exact notThere pair.2 inList (decide_eq_true isObject)
      | some element =>
          obtain ⟨after, rest, isRemoved, takesOut⟩ :=
            remove_takesOut isPlaced invariant.isBefore safe isDest isElement
          have inTree : (key, element) ∈ state.tree.pairs := IndexRange.mem_pairs_iff.mpr
            ⟨dest, member, isKey, List.mem_of_find?_eq_some isElement⟩
          have isObject : element.value = object := by simpa using List.find?_some isElement
          exact ⟨after, rest, isRemoved, takesOut.invariant invariant,
            takesOut.continues isPlaced inTree isObject⟩

end Remove

theorem RemovalInvariant.next (invariant : state.RemovalInvariant initial predicate ahead) :
    ∃ after rest, state.next = some after ∧ after.RemovalInvariant initial predicate rest ∧
      state.Continues [.next] after := by
  obtain ⟨isPlaced, isBefore, wasInTree, nodup, complete⟩ := invariant
  have continues (cursor : IndexCursor K) (reads : List (K × ListNode O))
      (inTree : ∀ pair ∈ reads, pair ∈ state.tree.pairs) :
      state.Continues [.next] { state with cursor, trace := state.trace ++ reads } :=
    ⟨⟨reads, rfl, inTree⟩, fun _ isPair => isPair, by simp [IndexRemoval.Removes],
      fun _ isPair _ => isPair⟩
  have notRead : state.Continues [.next] state := by
    simpa using continues state.cursor [] (by simp)
  by_cases isVacant : state.cursor.vacantFlag = true
  · have moved : state.cursor.next state.tree =
        some { state.cursor with vacantFlag := false } := by
      rw [IndexCursor.next, if_pos isVacant]
    refine ⟨{ state with cursor := { state.cursor with vacantFlag := false } }, ahead, ?_,
      ⟨isPlaced, isBefore.withFlag false, wasInTree, nodup, complete⟩, ?_⟩
    · rw [IndexIteration.next, if_pos isVacant, moved, Option.map_some]
    · simpa using continues { state.cursor with vacantFlag := false } [] (by simp)
  · have notVacant : state.cursor.vacantFlag = false := Bool.eq_false_iff.mpr isVacant
    by_cases active : state.cursor.toBool = true
    · obtain ⟨pair, rest, rfl⟩ :=
        List.exists_cons_of_ne_nil ((isBefore.active_iff notVacant).mp active)
      obtain ⟨cursor, isNext, -, -, restBefore⟩ := isBefore.next isPlaced notVacant active
      have isCurrent := isBefore.current isPlaced notVacant
      have moved : state.trace ++ pair :: rest = (state.trace ++ [pair]) ++ rest :=
        List.append_cons _ _ _
      rw [moved] at wasInTree nodup complete
      refine ⟨{ state with cursor, trace := state.trace ++ [pair] }, rest, ?_,
        ⟨isPlaced, restBefore, wasInTree, nodup, complete⟩, continues cursor [pair] ?_⟩
      · rw [IndexIteration.next, if_neg isVacant, if_pos active, isCurrent, List.head?_cons,
          Option.bind_some, isNext, Option.map_some]
      · intro other isOther
        rw [List.mem_singleton.mp isOther]
        exact isBefore.inTree pair List.mem_cons_self
    · exact ⟨state, ahead, by rw [IndexIteration.next, if_neg isVacant, if_neg active],
        ⟨isPlaced, isBefore, wasInTree, nodup, complete⟩, notRead⟩

/-! ## Runs -/

omit [LinearOrder K] in
theorem Continues.trans {middle final : IndexIteration K O} {first second : List (IndexRemoval K O)}
    (before : state.Continues first middle) (after : middle.Continues second final) :
    state.Continues (first ++ second) final := by
  obtain ⟨firstReads, isMiddle, firstInTree⟩ := before.reads
  obtain ⟨secondReads, isFinal, secondInTree⟩ := after.reads
  refine ⟨⟨firstReads ++ secondReads, ?_, ?_⟩, ?_, ?_, ?_⟩
  · rw [isFinal, isMiddle, List.append_assoc]
  · intro pair isRead
    rcases List.mem_append.mp isRead with inFirst | inSecond
    · exact firstInTree pair inFirst
    · exact before.inTree pair (secondInTree pair inSecond)
  · exact fun pair isPair => before.inTree pair (after.inTree pair isPair)
  · intro objectsOnce pair isPair action isAction
    have stillOnce : middle.tree.ObjectsOnce :=
      fun first isFirst second isSecond =>
        objectsOnce first (before.inTree first isFirst) second (before.inTree second isSecond)
    rcases List.mem_append.mp isAction with inFirst | inSecond
    · exact before.gone objectsOnce pair (after.inTree pair isPair) action inFirst
    · exact after.gone stillOnce pair isPair action inSecond
  · intro pair isPair notRemoved
    apply after.kept pair
    · exact before.kept pair isPair fun action inFirst =>
        notRemoved action (List.mem_append_left _ inFirst)
    · exact fun action inSecond => notRemoved action (List.mem_append_right _ inSecond)

theorem RemovalInvariant.removingStep [DecidableEq O]
    (invariant : state.RemovalInvariant initial predicate ahead) {action : IndexRemoval K O}
    (safe : state.SafeRemoval action) :
    ∃ after rest, state.removingStep action = some after ∧
      after.RemovalInvariant initial predicate rest ∧ state.Continues [action] after := by
  cases action with
  | next => exact invariant.next
  | remove key object writeLocked => exact invariant.remove safe

theorem RemovalInvariant.run [DecidableEq O]
    (invariant : state.RemovalInvariant initial predicate ahead)
    {actions : List (IndexRemoval K O)}
    (safe : MeetsAlong IndexIteration.removingStep SafeRemoval state actions) :
    ∃ final rest, LabelledRun.run IndexIteration.removingStep state actions = some final ∧
      final.RemovalInvariant initial predicate rest ∧ state.Continues actions final := by
  induction actions generalizing state ahead with
  | nil =>
      exact ⟨state, ahead, rfl, invariant, ⟨⟨[], (List.append_nil _).symm, by simp⟩,
        fun _ isPair => isPair, by simp, fun _ isPair _ => isPair⟩⟩
  | cons action actions ih =>
      obtain ⟨isSafe, laterSafe⟩ := safe
      obtain ⟨next, rest, stepped, nextInvariant, continues⟩ := invariant.removingStep isSafe
      obtain ⟨final, last, isRun, finalInvariant, continuesOn⟩ :=
        ih nextInvariant (laterSafe next stepped)
      exact ⟨final, last, (run_cons_of_step actions stepped).trans isRun, finalInvariant,
        continues.trans continuesOn⟩

theorem isBefore_getIterator_of_bounds (index : PlacedIndex K O) {reverse : Bool}
    {limits : IndexRange K × Option (Compare K)}
    (isBounds : predicate.bounds reverse = some limits) :
    ∃ ahead, (IndexCursor.getIterator index.tree predicate reverse).IsBefore index.tree ahead ∧
      ∀ pair ∈ index.tree.pairs, predicate.compares pair.1 = true → pair ∈ ahead := by
  obtain ⟨bounds, near⟩ := limits
  obtain ⟨-, isAhead⟩ := IndexRange.isAhead_getIterator index.isPlaced isBounds
  refine ⟨_, .range isAhead.kind_eq isAhead, fun pair isPair passes => ?_⟩
  obtain ⟨entry, member, isKey, inList⟩ := IndexRange.mem_pairs_iff.mp isPair
  apply List.mem_flatMap.mpr
  refine ⟨entry, List.mem_filter.mpr ⟨(bounds.way.mem_along).mpr member, ?_⟩, ?_⟩
  · rw [PropertyPredicate.reads_eq isBounds, isKey, passes, Bool.true_or]
  · exact List.mem_map.mpr ⟨pair.2, inList, by rw [isKey]⟩

theorem isBefore_getIterator_eq (index : PlacedIndex K O) (v1 : K) (reverse : Bool) :
    ∃ ahead, (IndexCursor.getIterator index.tree (.eq v1) reverse).IsBefore index.tree ahead ∧
      ∀ pair ∈ index.tree.pairs, (PropertyPredicate.eq v1).compares pair.1 = true →
        pair ∈ ahead := by
  have isIndex := index.isPlaced.index
  rcases find_cases isIndex.1 v1 with ⟨entry, member, rfl, isFound⟩ | ⟨absent, isFound⟩
  · obtain ⟨element, rest, isValue⟩ := List.exists_cons_of_ne_nil (isIndex.2 entry member)
    have isStart : IndexCursor.getIterator index.tree (.eq entry.key) reverse =
        ⟨.eq, none, [], some element.address, false⟩ := by
      simp [IndexCursor.getIterator, isFound, isValue]
    rw [isStart]
    refine ⟨_, .eqAt member ⟨[], isValue.symm⟩ false, fun pair isPair passes => ?_⟩
    rw [PropertyPredicate.compares_eq, decide_eq_true_eq] at passes
    obtain ⟨other, inTree, isKey, inList⟩ := IndexRange.mem_pairs_iff.mp isPair
    obtain rfl : other = entry := isIndex.1.eq_of_key_eq inTree member (isKey.trans passes)
    exact List.mem_map.mpr ⟨pair.2, isValue ▸ inList, by rw [isKey]⟩
  · have isStart : IndexCursor.getIterator index.tree (.eq v1) reverse =
        ⟨.eq, none, [], none, false⟩ := by
      simp [IndexCursor.getIterator, isFound]
    rw [isStart]
    refine ⟨_, .eqEnded false, fun pair isPair passes => ?_⟩
    rw [PropertyPredicate.compares_eq, decide_eq_true_eq] at passes
    obtain ⟨other, inTree, isKey, -⟩ := IndexRange.mem_pairs_iff.mp isPair
    exact absurd (isKey.trans passes) (absent other inTree)

/-- A new iterator for a range or for one key. -/
theorem start_removalInvariant (address : Nat) (index : PlacedIndex K O) (notNe : ∀ v1, predicate ≠ .ne v1)
    (reverse : Bool) :
    ∃ ahead, (start address index predicate reverse).RemovalInvariant index.tree.pairs predicate ahead := by
  have isBefore : ∃ ahead,
      (IndexCursor.getIterator index.tree predicate reverse).IsBefore index.tree ahead ∧
        ∀ pair ∈ index.tree.pairs, predicate.compares pair.1 = true → pair ∈ ahead := by
    cases isBounds : predicate.bounds reverse with
    | some limits => exact isBefore_getIterator_of_bounds index isBounds
    | none =>
        cases predicate with
        | dontCare => cases reverse <;> cases isBounds
        | eq v1 => exact isBefore_getIterator_eq index v1 reverse
        | ne v1 => exact absurd rfl (notNe v1)
        | bound op v1 => cases op <;> cases reverse <;> cases isBounds
        | range op v1 v2 => cases reverse <;> cases isBounds
  obtain ⟨ahead, isBefore, complete⟩ := isBefore
  exact ⟨ahead, index.isPlaced, isBefore, isBefore.inTree, isBefore.nodup index.isPlaced, complete⟩

/-- What has been read after the actions, and what the iterator reads from there on while nothing
changes. -/
structure Survives (index : PlacedIndex K O) (predicate : PropertyPredicate K)
    (actions : List (IndexRemoval K O)) (final : IndexIteration K O)
    (ahead : List (K × ListNode O)) : Prop where
  yields : IndexCursor.Yields final.tree { final.cursor with vacantFlag := false }
    (ahead.map Prod.snd)
  inTree : ∀ pair ∈ ahead, pair ∈ final.tree.pairs
  once : ((final.trace ++ ahead).map Prod.snd).Nodup
  -- an object that is in the index once
  objectsOnce : (index.tree.pairs.map fun pair => pair.2.value).Nodup →
    ((final.trace ++ ahead).map fun pair => pair.2.value).Nodup
  complete : ∀ pair ∈ index.tree.pairs, predicate.compares pair.1 = true →
    (∀ action ∈ actions, ¬ action.Removes pair) → pair ∈ final.trace ++ ahead

/-- What is read after the actions `before` is in the index then, so it is not what they have
removed. -/
structure ReadsOn (index : PlacedIndex K O) (before : List (IndexRemoval K O))
    (middle final : IndexIteration K O) (reads : List (K × ListNode O)) : Prop where
  isTrace : final.trace = middle.trace ++ reads
  inTree : ∀ pair ∈ reads, pair ∈ middle.tree.pairs
  notRemoved : index.tree.ObjectsOnce →
    ∀ pair ∈ reads, ∀ action ∈ before, ¬ action.Removes pair

theorem RemovalInvariant.survives {address : Nat} {index : PlacedIndex K O} {reverse : Bool}
    {actions : List (IndexRemoval K O)} {final : IndexIteration K O}
    (invariant : final.RemovalInvariant index.tree.pairs predicate ahead)
    (continues : (start address index predicate reverse).Continues actions final) :
    final.Survives index predicate actions ahead := by
  have once {Part : Type _} (part : K × ListNode O → Part)
      (distinct : (index.tree.pairs.map part).Nodup) :
      ((final.trace ++ ahead).map part).Nodup := by
    apply List.Nodup.map_on _ invariant.nodup
    intro first isFirst second isSecond same
    exact List.inj_on_of_nodup_map distinct (invariant.wasInTree first isFirst)
      (invariant.wasInTree second isSecond) same
  exact {
    yields := (invariant.isBefore.withFlag false).yields invariant.isPlaced rfl
    inTree := invariant.isBefore.inTree
    once := once _ (IndexRange.pairs_snd_nodup index.isPlaced.elements)
    objectsOnce := once _
    complete := fun pair isPair passes notRemoved =>
      invariant.complete pair (continues.kept pair isPair notRemoved) passes }

end IndexIteration

/-- An iterator for a range or for one key reads on as it should in every run whose removals are
safe. -/
theorem indexIteration_survives_removals [DecidableEq O] (address : Nat) (index : PlacedIndex K O)
    (predicate : PropertyPredicate K) (notNe : ∀ v1, predicate ≠ .ne v1) (reverse : Bool)
    (before after : List (IndexRemoval K O))
    (safe : MeetsAlong IndexIteration.removingStep IndexIteration.SafeRemoval
      (IndexIteration.start address index predicate reverse) (before ++ after)) :
    ∃ middle final ahead reads,
      run IndexIteration.removingStep (IndexIteration.start address index predicate reverse) before =
          some middle ∧
        run IndexIteration.removingStep middle after = some final ∧
        final.Survives index predicate (before ++ after) ahead ∧
        IndexIteration.ReadsOn index before middle final reads := by
  obtain ⟨start, startInvariant⟩ := IndexIteration.start_removalInvariant address index notNe reverse
  obtain ⟨safeBefore, safeAfter⟩ := meetsAlong_append.mp safe
  obtain ⟨middle, rest, isMiddle, middleInvariant, toMiddle⟩ := startInvariant.run safeBefore
  obtain ⟨final, ahead, isFinal, finalInvariant, toFinal⟩ :=
    middleInvariant.run (safeAfter middle isMiddle)
  obtain ⟨reads, isTrace, inTree⟩ := toFinal.reads
  exact ⟨middle, final, ahead, reads, isMiddle, isFinal,
    finalInvariant.survives (toMiddle.trans toFinal), isTrace, inTree,
    fun objectsOnce pair isRead => toMiddle.gone objectsOnce pair (inTree pair isRead)⟩

/-- The removal of the object at which the iterator is, which leaves it at the key 2. -/
theorem safeRemoval_threeKeys :
    (IndexIteration.start 640 threeKeys .dontCare false).SafeRemoval (.remove 1 71 false) := by
  intro dest isDest element isList _
  obtain rfl : ⟨11, 1, [⟨21, 71⟩]⟩ = dest := Option.some.inj isDest
  obtain rfl : ⟨21, 71⟩ = element := (List.cons.inj isList).1
  refine ⟨threeKeys_isAvl, fun bounds isKind cur isCur => ?_⟩
  obtain rfl : IndexRange.nomax = bounds := CursorKind.range.inj isKind
  have isTwo : (IndexIteration.start 640 threeKeys .dontCare false).keyWithout .nomax 21 = some 2 := by
    decide
  obtain rfl : 2 = cur := Option.some.inj (isTwo.symm.trans isCur)
  have isFreed : (threeKeys.tree.unlink 21).freedEntry 1 = some ⟨11, 1, []⟩ := by
    rfl
  refine ⟨fun freed member => ?_, fun freed member before => ?_, by decide⟩
  · obtain rfl := Option.some.inj (isFreed.symm.trans member)
    decide
  · exact absurd (show 2 < 1 from before) (by decide)

theorem indexIteration_survives_removals_threeKeys :
    ∃ middle final ahead reads,
      run IndexIteration.removingStep (IndexIteration.start 640 threeKeys .dontCare false)
          [.remove 1 71 false] = some middle ∧
        run IndexIteration.removingStep middle [.next, .next] = some final ∧
        final.Survives threeKeys .dontCare ([.remove 1 71 false] ++ [.next, .next]) ahead ∧
        IndexIteration.ReadsOn threeKeys [.remove 1 71 false] middle final reads :=
  indexIteration_survives_removals 640 threeKeys .dontCare (fun _ => by simp) false
    [.remove 1 71 false] [.next, .next]
    ⟨safeRemoval_threeKeys, fun _ _ => ⟨trivial, fun _ _ => ⟨trivial, fun _ _ => trivial⟩⟩⟩

/-- The deletion of the key 2 frees the node of its predecessor 1, at which the iterator is. -/
theorem removal_frees_current_node :
    ¬ ∃ middle final ahead reads,
      run IndexIteration.removingStep (IndexIteration.start 640 threeKeys .dontCare false)
          [.remove 2 72 false] = some middle ∧
        run IndexIteration.removingStep middle [.next] = some final ∧
        final.Survives threeKeys .dontCare ([.remove 2 72 false] ++ [.next]) ahead ∧
        IndexIteration.ReadsOn threeKeys [.remove 2 72 false] middle final reads := by
  have stuck : run IndexIteration.removingStep (IndexIteration.start 640 threeKeys .dontCare false)
      ([.remove 2 72 false] ++ [.next]) = none := by
    decide
  rintro ⟨middle, final, _, _, isMiddle, isFinal, -⟩
  rw [run_append, isMiddle, Option.bind_some, isFinal] at stuck
  cases stuck

end Pmgd
