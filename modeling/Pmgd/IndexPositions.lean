import Mathlib.Data.List.Flatten
import Pmgd.IndexRanges

/-!
# Positions of range iterators

At the entry of a key, an iterator has the stack that a search for the key leaves.  This is so
when the iterator is created and after each step.
-/

namespace Pmgd

open SortedInsert TreeNode

variable {K O : Type*} [LinearOrder K]

namespace TreeNode

variable {way : Way} {inside : K → Bool} {tree : TreeNode K (List O)} {address : Nat}
  {left right : TreeNode K (List O)} {height : Int} {key cur : K} {value : List O}

/-! ## Searches for a key -/

theorem search_of_before (isBefore : way.Before cur key) (path : Stack K O) :
    (node address left right height key value).search way ⟨cur, true⟩ inside path =
      (way.first (node address left right height key value)).search way ⟨cur, true⟩ inside
        (if inside key then node address left right height key value :: path else path) := by
  rw [search_node, if_pos isBefore]

theorem search_self (path : Stack K O) :
    (node address left right height key value).search way ⟨key, true⟩ inside path =
      node address left right height key value :: path := by
  rw [search_node, if_neg (Way.Before.irrefl way key), if_pos (by simp [Compare.equals])]

theorem search_of_after (isAfter : way.Before key cur) (path : Stack K O) :
    (node address left right height key value).search way ⟨cur, true⟩ inside path =
      (way.second (node address left right height key value)).search way ⟨cur, true⟩ inside
        path := by
  rw [search_node, if_neg isAfter.asymm, if_neg (by simp [Compare.equals, isAfter.ne.symm])]

/-- The nodes pushed on a stack are those that a search for some key of the tree pushes. -/
def Pushes (way : Way) (inside : K → Bool) (tree : TreeNode K (List O)) (path pushed : Stack K O) :
    Prop :=
  pushed = path ∨
    ∃ entry ∈ way.along tree, pushed = tree.search way ⟨entry.key, true⟩ inside path

section Pushes

variable {path pushed : Stack K O}

theorem Pushes.here :
    Pushes way inside (node address left right height key value) path
      (node address left right height key value :: path) := by
  refine Or.inr ⟨⟨address, key, value⟩, ?_, (search_self path).symm⟩
  rw [Way.along_node]
  exact List.mem_append_right _ List.mem_cons_self

theorem Pushes.of_first (ordered : (node address left right height key value).Ordered)
    (pushes : Pushes way inside (way.first (node address left right height key value))
      (if inside key then node address left right height key value :: path else path) pushed) :
    Pushes way inside (node address left right height key value) path pushed := by
  obtain ⟨-, -, before, -⟩ := way.ordered_node ordered
  rcases pushes with rfl | ⟨entry, member, rfl⟩
  · split_ifs
    · exact Pushes.here
    · exact Or.inl rfl
  · refine Or.inr ⟨entry, ?_, (search_of_before (before entry member) path).symm⟩
    rw [Way.along_node]
    exact List.mem_append_left _ member

theorem Pushes.of_second (ordered : (node address left right height key value).Ordered)
    (pushes : Pushes way inside (way.second (node address left right height key value)) path
      pushed) :
    Pushes way inside (node address left right height key value) path pushed := by
  obtain ⟨-, -, -, after⟩ := way.ordered_node ordered
  rcases pushes with rfl | ⟨entry, member, rfl⟩
  · exact Or.inl rfl
  · refine Or.inr ⟨entry, ?_, (search_of_after (after entry member) path).symm⟩
    rw [Way.along_node]
    exact List.mem_append_right _ (List.mem_cons_of_mem _ member)

end Pushes

theorem spine_pushes (ordered : tree.Ordered) (path : Stack K O) :
    Pushes way inside tree path (tree.spine way inside path) := by
  induction tree using way.induct generalizing path with
  | atNull => exact Or.inl rfl
  | atNode address left right height key value firstIh _ =>
      rw [spine_node]
      exact Pushes.of_first ordered (firstIh (way.ordered_node ordered).1 _)

/-- A search for the near bound. -/
theorem search_pushes (near : Compare K) (ordered : tree.Ordered) (path : Stack K O) :
    Pushes way inside tree path (tree.search way near inside path) := by
  induction tree using way.induct generalizing path with
  | atNull => exact Or.inl rfl
  | atNode address left right height key value firstIh secondIh =>
      rw [search_node]
      split_ifs with isBefore isInside
      · have pushes := firstIh (way.ordered_node ordered).1
          (node address left right height key value :: path)
        exact Pushes.of_first ordered (by rw [if_pos isInside]; exact pushes)
      · have pushes := firstIh (way.ordered_node ordered).1 path
        exact Pushes.of_first ordered (by rw [if_neg isInside]; exact pushes)
      · exact Pushes.here
      · exact Pushes.of_second ordered (secondIh (way.ordered_node ordered).2.1 path)

/-- `_next`, with the stack that a search for the current key leaves. -/
theorem spine_second_pushes (ordered : tree.Ordered) {entry : TreeEntry K (List O)}
    (member : entry ∈ way.along tree) {path stack : Stack K O} {top : TreeNode K (List O)}
    (isSearch : tree.search way ⟨entry.key, true⟩ inside path = top :: stack) :
    Pushes way inside tree path ((way.second top).spine way inside stack) := by
  induction tree using way.induct generalizing path with
  | atNull => exact absurd member (by simp)
  | atNode address left right height key value firstIh secondIh =>
      obtain ⟨firstOrdered, secondOrdered, before, after⟩ := way.ordered_node ordered
      rw [Way.along_node, List.mem_append, List.mem_cons] at member
      rcases member with inFirst | rfl | inSecond
      · rw [search_of_before (before entry inFirst)] at isSearch
        exact Pushes.of_first ordered (firstIh firstOrdered inFirst isSearch)
      · rw [search_self] at isSearch
        obtain ⟨rfl, rfl⟩ := List.cons.inj isSearch
        exact Pushes.of_second ordered (spine_pushes secondOrdered path)
      · rw [search_of_after (after entry inSecond)] at isSearch
        exact Pushes.of_second ordered (secondIh secondOrdered inSecond isSearch)

end TreeNode

/-! ## What lies ahead -/

/-- The objects of an entry with its key. -/
def TreeEntry.pairs (entry : TreeEntry K (List O)) : List (K × O) :=
  entry.value.map fun element => (entry.key, element)

/-- All objects of a tree with their keys. -/
def TreeNode.pairs (tree : TreeNode K (List O)) : List (K × O) :=
  tree.entries.flatMap TreeEntry.pairs

/-- The list node that `ref` reads, with the key under which the index has it. -/
def IndexCursor.current (tree : TreeNode K (List (ListNode O))) (cursor : IndexCursor K) :
    Option (K × ListNode O) :=
  (cursor.ref tree).bind fun element =>
    tree.pairs.find? fun pair => decide (pair.2.address = element.address)

/-- The nodes that an iterator points to. -/
def IndexCursor.nodes (cursor : IndexCursor K) : List Nat :=
  cursor.curr.toList ++ cursor.path

namespace IndexRange

/-- The iterator at a list node of an entry. -/
def cursorAt (bounds : IndexRange K) (tree : TreeNode K (List (ListNode O)))
    (entry : TreeEntry K (List (ListNode O))) (element : ListNode O) (vacantFlag : Bool) :
    IndexCursor K where
  kind := .range bounds
  curr := some entry.address
  path := (pointers (tree.search bounds.way ⟨entry.key, true⟩ bounds.inside [])).tail
  listIt := some element.address
  vacantFlag := vacantFlag

/-- The rest of a list, and what comes after its entry. -/
def ahead (bounds : IndexRange K) (tree : TreeNode K (List (ListNode O)))
    (entry : TreeEntry K (List (ListNode O))) (list : List (ListNode O)) :
    List (K × ListNode O) :=
  list.map (fun element => (entry.key, element)) ++
    (bounds.way.following bounds.inside entry.key tree).flatMap TreeEntry.pairs

/-- The iterator has these objects before it. -/
inductive IsAhead (bounds : IndexRange K) (tree : TreeNode K (List (ListNode O))) :
    IndexCursor K → List (K × ListNode O) → Prop
  | ended (curr : Option Nat) (path : List Nat) (vacantFlag : Bool) :
      bounds.IsAhead tree ⟨.range bounds, curr, path, none, vacantFlag⟩ []
  | atEntry {entry : TreeEntry K (List (ListNode O))} (member : entry ∈ tree.entries)
      {element : ListNode O} {rest : List (ListNode O)} (isSuffix : element :: rest <:+ entry.value)
      (vacantFlag : Bool) :
      bounds.IsAhead tree (bounds.cursorAt tree entry element vacantFlag)
        (bounds.ahead tree entry (element :: rest))

variable {bounds : IndexRange K}

theorem IsAhead.kind_eq {tree : TreeNode K (List (ListNode O))} {cursor : IndexCursor K}
    {pairs : List (K × ListNode O)} (isAhead : bounds.IsAhead tree cursor pairs) :
    cursor.kind = .range bounds := by
  cases isAhead <;> rfl

/-- A search for the key of an entry. -/
theorem search_entry (bounds : IndexRange K) {tree : TreeNode K (List O)} (ordered : tree.Ordered)
    {entry : TreeEntry K (List O)} (member : entry ∈ tree.entries) :
    ∃ top stack, tree.search bounds.way ⟨entry.key, true⟩ bounds.inside [] = top :: stack ∧
      rootEntry top = [entry] ∧
      (CursorKind.range bounds).pending (top :: stack) =
        entry :: bounds.way.following bounds.inside entry.key tree := by
  obtain ⟨top, stack, isSearch, isTop, isPending⟩ :=
    search_present (.range bounds) bounds.later_eq (fun _ _ => bounds.inside_of_before) ordered
      (fun subtree _ => bounds.visits_eq subtree) member []
  refine ⟨top, stack, isSearch, isTop, ?_⟩
  rw [CursorKind.pending_nil, List.append_nil] at isPending
  rw [CursorKind.pending_cons, isTop, bounds.later_eq, List.append_assoc, isPending]
  rfl

variable {tree : TreeNode K (List (ListNode O))} {cursor : IndexCursor K}
  {entry : TreeEntry K (List (ListNode O))} {element : ListNode O} {rest : List (ListNode O)}
  {pairs : List (K × ListNode O)}

omit [LinearOrder K] in
theorem pointers_of_top {top : TreeNode K (List O)} {entry : TreeEntry K (List O)}
    (isTop : rootEntry top = [entry]) (stack : Stack K O) :
    pointers (top :: stack) = entry.address :: pointers stack := by
  rw [pointers, List.filterMap_cons, rootAddress_of_rootEntry isTop]
  rfl

theorem cursorAt_of_search {top : TreeNode K (List (ListNode O))} {stack : Stack K (ListNode O)}
    (isSearch : tree.search bounds.way ⟨entry.key, true⟩ bounds.inside [] = top :: stack)
    (isTop : rootEntry top = [entry]) (element : ListNode O) (vacantFlag : Bool) :
    bounds.cursorAt tree entry element vacantFlag =
      ⟨.range bounds, some entry.address, pointers stack, some element.address, vacantFlag⟩ := by
  have isPath : (pointers (tree.search bounds.way ⟨entry.key, true⟩ bounds.inside [])).tail =
      pointers stack := by
    rw [isSearch, pointers_of_top isTop]
    rfl
  exact congrArg (IndexCursor.mk (.range bounds) (some entry.address) · (some element.address)
    vacantFlag) isPath

/-- At an entry, an iterator has pointers to the nodes that the search for its key leaves. -/
theorem nodes_cursorAt (ordered : tree.Ordered) (member : entry ∈ tree.entries)
    (element : ListNode O) (vacantFlag : Bool) :
    (bounds.cursorAt tree entry element vacantFlag).nodes =
      pointers (tree.search bounds.way ⟨entry.key, true⟩ bounds.inside []) := by
  obtain ⟨top, stack, isSearch, isTop, -⟩ := bounds.search_entry ordered member
  rw [cursorAt_of_search isSearch isTop, isSearch, pointers_of_top isTop]
  rfl

/-- A position with the stack of the search is the one of the entry. -/
theorem cursorAt_of_isAt (sameKind : cursor.kind = .range bounds)
    {top : TreeNode K (List (ListNode O))} {stack : Stack K (ListNode O)}
    (isSearch : tree.search bounds.way ⟨entry.key, true⟩ bounds.inside [] = top :: stack)
    (isTop : rootEntry top = [entry]) (isAt : cursor.IsAt tree top stack (element :: rest)) :
    cursor = bounds.cursorAt tree entry element false := by
  obtain ⟨kind, curr, path, listIt, vacantFlag⟩ := cursor
  obtain ⟨rfl, -, -, rfl, -, rfl, -, rfl⟩ := isAt
  obtain rfl : kind = .range bounds := sameKind
  rw [cursorAt_of_search isSearch isTop, rootAddress_of_rootEntry isTop]
  rfl

theorem isAt_cursorAt
    {top : TreeNode K (List (ListNode O))} {stack : Stack K (ListNode O)}
    (isSearch : tree.search bounds.way ⟨entry.key, true⟩ bounds.inside [] = top :: stack)
    (isTop : rootEntry top = [entry]) (member : entry ∈ tree.entries)
    (isSuffix : element :: rest <:+ entry.value) :
    (bounds.cursorAt tree entry element false).IsAt tree top stack (element :: rest) := by
  have isStack := isStack_search bounds.way ⟨entry.key, true⟩ bounds.inside tree
  rw [isSearch] at isStack
  rw [cursorAt_of_search isSearch isTop]
  exact IndexCursor.isAt_of_search member (.range bounds) isTop isStack isSuffix

/-- The position at the top of a stack that a search leaves. -/
theorem IsAhead.of_stack (isPlaced : IsPlaced tree) (sameKind : cursor.kind = .range bounds)
    (notVacant : cursor.vacantFlag = false) {stack : Stack K (ListNode O)}
    (pushes : Pushes bounds.way bounds.inside tree [] stack) :
    ∃ after, cursor.takeTop tree (pointers stack) = some after ∧ after.vacantFlag = false ∧
      bounds.IsAhead tree after
        (((CursorKind.range bounds).pending stack).flatMap TreeEntry.pairs) := by
  rcases pushes with rfl | ⟨entry, member, rfl⟩
  · refine ⟨_, rfl, notVacant, ?_⟩
    rw [sameKind, notVacant]
    exact IsAhead.ended _ _ _
  · have member := (bounds.way.mem_along).mp member
    obtain ⟨top, stack, isSearch, isTop, isPending⟩ := bounds.search_entry isPlaced.index.1 member
    have isStack := isStack_search bounds.way ⟨entry.key, true⟩ bounds.inside tree
    rw [isSearch] at isStack ⊢
    obtain ⟨after, isAfter, keepsKind, isAt, nonempty⟩ :=
      IndexCursor.isAt_takeTop isPlaced isStack notVacant
    have isList : top.objects = entry.value := by
      cases top with
      | null => cases isTop
      | node address left right height key value =>
          rw [← List.singleton_inj.mp isTop]
          rfl
    rw [isList] at isAt nonempty
    obtain ⟨element, rest, isValue⟩ := List.exists_cons_of_ne_nil nonempty
    rw [isValue] at isAt
    have isCursor := cursorAt_of_isAt (keepsKind.trans sameKind) isSearch isTop isAt
    refine ⟨after, isAfter, isAt.notVacant, ?_⟩
    rw [isCursor, isPending, List.flatMap_cons, TreeEntry.pairs, isValue]
    exact IsAhead.atEntry member ⟨[], isValue.symm⟩ false

/-- `next` takes the first of them. -/
theorem IsAhead.next (isAhead : bounds.IsAhead tree cursor pairs) (isPlaced : IsPlaced tree)
    (notVacant : cursor.vacantFlag = false) (active : cursor.toBool = true) :
    ∃ after, cursor.next tree = some after ∧ after.vacantFlag = false ∧
      bounds.IsAhead tree after pairs.tail := by
  cases isAhead with
  | ended curr path vacantFlag => cases notVacant; cases active
  | atEntry member isSuffix vacantFlag =>
      obtain rfl : vacantFlag = false := notVacant
      rename_i entry element rest
      obtain ⟨top, stack, isSearch, isTop, isPending⟩ := bounds.search_entry isPlaced.index.1 member
      have isAt := isAt_cursorAt isSearch isTop member isSuffix
      by_cases more : rest = []
      · subst more
        rw [isAt.next_of_last isPlaced]
        have isStack : (bounds.cursorAt tree entry element false).kind.next top [] ++ stack =
            (bounds.way.second top).spine bounds.way bounds.inside stack := by
          rw [spine_append, cursorAt, bounds.next_eq]
        have pushes := spine_second_pushes isPlaced.index.1
          ((bounds.way.mem_along).mpr member) isSearch
        have isFollowing : (CursorKind.range bounds).pending
            ((bounds.way.second top).spine bounds.way bounds.inside stack) =
              bounds.way.following bounds.inside entry.key tree := by
          have ordered := ((isSubtree_second bounds.way top).trans isAt.isSubtree).isIndex
            isPlaced.index
          rw [CursorKind.pending_cons, isTop, bounds.later_eq] at isPending
          rw [bounds.spine_pending _ ordered.1]
          exact (List.cons.inj isPending).2
        have sameKind : (bounds.cursorAt tree entry element false).kind = .range bounds := rfl
        have notVacant : (bounds.cursorAt tree entry element false).vacantFlag = false := rfl
        rw [isStack]
        obtain ⟨after, isAfter, afterVacant, isAhead⟩ :=
          IsAhead.of_stack isPlaced sameKind notVacant pushes
        refine ⟨after, isAfter, afterVacant, ?_⟩
        rw [isFollowing] at isAhead
        exact isAhead
      · obtain ⟨after, isAfter, sameKind, afterAt⟩ := isAt.next_of_more isPlaced more
        obtain ⟨second, others, rfl⟩ := List.exists_cons_of_ne_nil more
        have isCursor := cursorAt_of_isAt sameKind isSearch isTop afterAt
        refine ⟨after, isAfter, afterAt.notVacant, ?_⟩
        rw [isCursor]
        exact IsAhead.atEntry member ((List.suffix_cons _ _).trans isSuffix) false

omit [LinearOrder K] in
theorem mem_pairs_iff {tree : TreeNode K (List O)} {pair : K × O} :
    pair ∈ tree.pairs ↔ ∃ entry ∈ tree.entries, entry.key = pair.1 ∧ pair.2 ∈ entry.value := by
  simp only [TreeNode.pairs, TreeEntry.pairs, List.mem_flatMap, List.mem_map]
  constructor
  · rintro ⟨entry, member, element, inList, rfl⟩
    exact ⟨entry, member, rfl, inList⟩
  · rintro ⟨entry, member, isKey, inList⟩
    exact ⟨entry, member, pair.2, inList, by rw [isKey]⟩

omit [LinearOrder K] in
theorem pairs_elements (tree : TreeNode K (List (ListNode O))) :
    tree.pairs.map Prod.snd = tree.entries.flatMap TreeEntry.value := by
  simp [TreeNode.pairs, TreeEntry.pairs, List.map_flatMap, Function.comp_def]

omit [LinearOrder K] in
/-- A list node is in the index under one key. -/
theorem find_pairs (elements : ((tree.entries.flatMap TreeEntry.value).map ListNode.address).Nodup)
    {pair : K × ListNode O} (member : pair ∈ tree.pairs) :
    (tree.pairs.find? fun other => decide (other.2.address = pair.2.address)) = some pair := by
  rw [← pairs_elements, List.map_map] at elements
  cases isFound : tree.pairs.find? fun other => decide (other.2.address = pair.2.address) with
  | none => exact absurd (decide_eq_true rfl) (List.find?_eq_none.mp isFound pair member)
  | some other =>
      have sameAddress : other.2.address = pair.2.address := by simpa using List.find?_some isFound
      exact congrArg some
        (List.inj_on_of_nodup_map elements (List.mem_of_find?_eq_some isFound) member sameAddress)

/-- The first of them is the one that the iterator is at. -/
theorem IsAhead.current (isAhead : bounds.IsAhead tree cursor pairs) (isPlaced : IsPlaced tree)
    (notVacant : cursor.vacantFlag = false) :
    cursor.current tree = pairs.head? ∧ (cursor.toBool = true ↔ pairs ≠ []) := by
  cases isAhead with
  | ended curr path vacantFlag =>
      obtain rfl : vacantFlag = false := notVacant
      exact ⟨rfl, by simp [IndexCursor.toBool]⟩
  | atEntry member isSuffix vacantFlag =>
      obtain rfl : vacantFlag = false := notVacant
      rename_i entry element rest
      obtain ⟨top, stack, isSearch, isTop, -⟩ := bounds.search_entry isPlaced.index.1 member
      have isAt := isAt_cursorAt isSearch isTop member isSuffix
      have inTree : (entry.key, element) ∈ tree.pairs :=
        mem_pairs_iff.mpr ⟨entry, member, rfl, isSuffix.subset List.mem_cons_self⟩
      refine ⟨?_, by simp [IndexCursor.toBool, cursorAt, ahead]⟩
      rw [IndexCursor.current, isAt.ref_eq isPlaced, Option.bind_some]
      exact find_pairs isPlaced.elements inTree

/-- What the iterator reads from there on while nothing changes. -/
theorem IsAhead.yields (isAhead : bounds.IsAhead tree cursor pairs) (isPlaced : IsPlaced tree)
    (notVacant : cursor.vacantFlag = false) : cursor.Yields tree (pairs.map Prod.snd) := by
  cases isAhead with
  | ended curr path vacantFlag =>
      obtain rfl : vacantFlag = false := notVacant
      exact ⟨1, rfl⟩
  | atEntry member isSuffix vacantFlag =>
      obtain rfl : vacantFlag = false := notVacant
      rename_i entry element rest
      obtain ⟨top, stack, isSearch, isTop, isPending⟩ := bounds.search_entry isPlaced.index.1 member
      have isAt := isAt_cursorAt isSearch isTop member isSuffix
      have yields := IndexCursor.yields_remaining isPlaced isAt (List.cons_ne_nil _ _)
      have isRemaining : IndexCursor.remaining (.range bounds) top stack (element :: rest) =
          (bounds.ahead tree entry (element :: rest)).map Prod.snd := by
        rw [CursorKind.pending_cons, isTop] at isPending
        have isFollowing : (CursorKind.range bounds).visits ((CursorKind.range bounds).later top) ++
            (CursorKind.range bounds).pending stack =
              bounds.way.following bounds.inside entry.key tree := (List.cons.inj isPending).2
        rw [IndexCursor.remaining, isFollowing, ahead, List.map_append, List.map_map,
          List.map_flatMap]
        simp [TreeEntry.pairs, Function.comp_def]
      rw [← isRemaining]
      exact yields

/-- A new iterator. -/
theorem isAhead_getIterator (isPlaced : IsPlaced tree) {predicate : PropertyPredicate K}
    {reverse : Bool} {near : Option (Compare K)}
    (isRange : predicate.bounds reverse = some (bounds, near)) :
    (IndexCursor.getIterator tree predicate reverse).vacantFlag = false ∧
      bounds.IsAhead tree (IndexCursor.getIterator tree predicate reverse)
        (((bounds.way.along tree).filter fun entry => bounds.reads near entry.key).flatMap
          TreeEntry.pairs) := by
  have pushes : Pushes bounds.way bounds.inside tree [] (bounds.start near tree) := by
    cases near with
    | none => exact spine_pushes isPlaced.index.1 []
    | some near => exact search_pushes near isPlaced.index.1 []
  let initial : IndexCursor K := ⟨.range bounds, none, [], none, false⟩
  have sameKind : initial.kind = .range bounds := rfl
  have notVacant : initial.vacantFlag = false := rfl
  obtain ⟨after, isAfter, afterVacant, isAhead⟩ :=
    IsAhead.of_stack isPlaced sameKind notVacant pushes
  have isInit : IndexCursor.getIterator tree predicate reverse = after := by
    rw [getIterator_eq tree isRange]
    cases isStart : bounds.start near tree with
    | nil =>
        rw [isStart] at isAfter
        exact Option.some.inj isAfter
    | cons top path =>
        have isStack := bounds.isStack_start near tree
        rw [isStart] at isStack isAfter
        rw [IndexCursor.takeTop_cons isPlaced isStack] at isAfter
        exact Option.some.inj isAfter
  rw [bounds.start_pending near tree isPlaced.index.1] at isAhead
  rw [isInit]
  exact ⟨afterVacant, isAhead⟩

/-! ## The objects ahead -/

theorem mem_ahead_iff {pair : K × ListNode O} {list : List (ListNode O)} :
    pair ∈ bounds.ahead tree entry list ↔
      pair.1 = entry.key ∧ pair.2 ∈ list ∨
        pair ∈ tree.pairs ∧ bounds.way.Before entry.key pair.1 ∧ bounds.inside pair.1 = true := by
  rw [ahead, List.mem_append, mem_pairs_iff]
  apply or_congr
  · rw [List.mem_map]
    constructor
    · rintro ⟨element, inList, rfl⟩
      exact ⟨rfl, inList⟩
    · rintro ⟨isKey, inList⟩
      exact ⟨pair.2, inList, by rw [← isKey]⟩
  · simp only [Way.following, List.mem_flatMap, List.mem_filter, bounds.way.mem_along,
      Bool.and_eq_true, decide_eq_true_eq, TreeEntry.pairs, List.mem_map]
    constructor
    · rintro ⟨other, ⟨member, before, isInside⟩, element, inList, rfl⟩
      exact ⟨⟨other, member, rfl, inList⟩, before, isInside⟩
    · rintro ⟨⟨other, member, isKey, inList⟩, before, isInside⟩
      rw [← isKey] at before isInside
      exact ⟨other, ⟨member, before, isInside⟩, pair.2, inList, by rw [isKey]⟩

theorem along_sorted {V : Type*} {tree : TreeNode K V} (way : Way) (ordered : tree.Ordered) :
    (way.along tree).Pairwise fun first second => way.Before first.key second.key := by
  cases way with
  | forward => exact ordered
  | reverse => exact List.pairwise_reverse.mpr ordered

/-- They are a part of the objects in the order of the walk. -/
theorem ahead_sublist (ordered : tree.Ordered) (member : entry ∈ tree.entries)
    {list : List (ListNode O)} (isSuffix : list <:+ entry.value) :
    (bounds.ahead tree entry list).Sublist ((bounds.way.along tree).flatMap TreeEntry.pairs) := by
  obtain ⟨earlier, later, isAlong⟩ :=
    List.append_of_mem ((bounds.way.mem_along).mpr member)
  have sorted := along_sorted bounds.way ordered
  have isFollowing : (bounds.way.following bounds.inside entry.key tree).Sublist later := by
    rw [isAlong, List.pairwise_append] at sorted
    have noneEarlier : (earlier ++ [entry]).filter (fun other =>
        decide (bounds.way.Before entry.key other.key) && bounds.inside other.key) = [] := by
      rw [List.filter_eq_nil_iff]
      intro other inEarlier passes
      have before := of_decide_eq_true (Bool.and_eq_true_iff.mp passes).1
      rcases List.mem_append.mp inEarlier with inEarlier | isEntry
      · exact before.asymm (sorted.2.2 other inEarlier entry List.mem_cons_self)
      · rw [List.mem_singleton.mp isEntry] at before
        exact Way.Before.irrefl _ _ before
    rw [Way.following, isAlong, List.append_cons, List.filter_append, noneEarlier,
      List.nil_append]
    exact List.filter_sublist
  rw [ahead, isAlong, List.flatMap_append, List.flatMap_cons]
  apply List.Sublist.trans _ (List.sublist_append_right _ _)
  exact (isSuffix.sublist.map _).append (isFollowing.flatMap TreeEntry.pairs)

theorem along_pairs_sorted (way : Way) (ordered : tree.Ordered) :
    ((way.along tree).flatMap TreeEntry.pairs).Pairwise fun first second =>
      ¬ way.Before second.1 first.1 := by
  have sorted := along_sorted way ordered
  rw [List.pairwise_flatMap]
  constructor
  · intro entry _
    rw [TreeEntry.pairs, List.pairwise_map]
    exact List.pairwise_of_forall fun _ _ => Way.Before.irrefl way entry.key
  · apply sorted.imp
    intro first second before pair inFirst other inSecond
    obtain ⟨_, -, rfl⟩ := List.mem_map.mp inFirst
    obtain ⟨_, -, rfl⟩ := List.mem_map.mp inSecond
    exact before.asymm

theorem IsAhead.inTree (isAhead : bounds.IsAhead tree cursor pairs) :
    ∀ pair ∈ pairs, pair ∈ tree.pairs := by
  cases isAhead with
  | ended => simp
  | atEntry member isSuffix =>
      intro pair inAhead
      rcases mem_ahead_iff.mp inAhead with ⟨isKey, inList⟩ | ⟨inTree, -⟩
      · exact mem_pairs_iff.mpr ⟨_, member, isKey.symm, isSuffix.subset inList⟩
      · exact inTree

omit [LinearOrder K] in
theorem pairs_snd_nodup
    (elements : ((tree.entries.flatMap TreeEntry.value).map ListNode.address).Nodup) :
    (tree.pairs.map Prod.snd).Nodup := by
  rw [pairs_elements]
  exact elements.of_map _

theorem along_pairs_nodup (way : Way) (isPlaced : IsPlaced tree) :
    ((way.along tree).flatMap TreeEntry.pairs).Nodup := by
  have nodup : tree.pairs.Nodup := (pairs_snd_nodup isPlaced.elements).of_map _
  cases way with
  | forward => exact nodup
  | reverse => exact ((List.reverse_perm _).flatMap_right _).nodup_iff.mpr nodup

theorem IsAhead.nodup (isAhead : bounds.IsAhead tree cursor pairs) (isPlaced : IsPlaced tree) :
    pairs.Nodup := by
  cases isAhead with
  | ended => exact List.nodup_nil
  | atEntry member isSuffix =>
      exact (along_pairs_nodup bounds.way isPlaced).sublist
        (ahead_sublist isPlaced.index.1 member isSuffix)

theorem IsAhead.sorted (isAhead : bounds.IsAhead tree cursor pairs) (isPlaced : IsPlaced tree) :
    pairs.Pairwise fun first second => ¬ bounds.way.Before second.1 first.1 := by
  cases isAhead with
  | ended => exact List.Pairwise.nil
  | atEntry member isSuffix =>
      exact (along_pairs_sorted bounds.way isPlaced.index.1).sublist
        (ahead_sublist isPlaced.index.1 member isSuffix)

end IndexRange

end Pmgd
