import Mathlib.Data.List.Nodup
import Mathlib.Data.List.Pairwise
import Pmgd.AvlLockPlans
import Pmgd.IndexCursor

/-!
# Iterations of an index that does not change

A stack stands for the entries that will be read from its nodes.  Taking the top node and
pushing what comes next of its subtree removes one entry from that list, for each kind of
iterator.
-/

namespace Pmgd

open SortedInsert TreeNode

variable {K O : Type*} [LinearOrder K]

namespace TreeNode

/-- What a not-equal iterator reads of a tree after `add_nodes_neq`: of the child that comes
after the excluded node, only the root and what comes after it. -/
def neqReads (way : Way) (other : K) : TreeNode K (List O) → List (TreeEntry K (List O))
  | null => []
  | node address left right height key value =>
      let root := node address left right height key value
      let fromHere (reads : List (TreeEntry K (List O))) :=
        if other = key then
          rootEntry (way.second root) ++ way.along (way.second (way.second root))
        else
          ⟨address, key, value⟩ :: reads
      match way with
      | .forward => left.neqReads way other ++ fromHere (right.neqReads way other)
      | .reverse => right.neqReads way other ++ fromHere (left.neqReads way other)

variable {way : Way} {other : K}

theorem neqReads_node (address : Nat) (left right : TreeNode K (List O)) (height : Int) (key : K)
    (value : List O) :
    (node address left right height key value).neqReads way other =
      (way.first (node address left right height key value)).neqReads way other ++
        if other = key then
          rootEntry (way.second (node address left right height key value)) ++
            way.along (way.second (way.second (node address left right height key value)))
        else
          ⟨address, key, value⟩ ::
            (way.second (node address left right height key value)).neqReads way other := by
  cases way <;> rfl

theorem neqReads_of_absent {tree : TreeNode K (List O)}
    (absent : ∀ entry ∈ way.along tree, entry.key ≠ other) :
    tree.neqReads way other = way.along tree := by
  induction tree using way.induct with
  | atNull => rw [Way.along_null, neqReads]
  | atNode address left right height key value firstIh secondIh =>
      rw [Way.along_node] at absent ⊢
      rw [List.forall_mem_append, List.forall_mem_cons] at absent
      obtain ⟨firstAbsent, notHere, secondAbsent⟩ := absent
      rw [neqReads_node, if_neg (Ne.symm notHere), firstIh firstAbsent, secondIh secondAbsent]

theorem addNodesNeqAlong_node (address : Nat) (left right : TreeNode K (List O)) (height : Int)
    (key : K) (value : List O) (path : Stack K O) :
    (node address left right height key value).addNodesNeqAlong way other path =
      (way.first (node address left right height key value)).addNodesNeqAlong way other
        (if other = key then
          (way.second (node address left right height key value)).pushTo path
        else
          node address left right height key value :: path) := by
  cases way <;> rfl

end TreeNode

namespace CursorKind

/-- What is read of a tree after `_next` has gone through it. -/
def visits (kind : CursorKind K) (tree : TreeNode K (List O)) : List (TreeEntry K (List O)) :=
  match kind with
  | .eq => []
  | .range bounds => bounds.visits tree
  | .neq way other => tree.neqReads way other

/-- The child that `_next` goes through. -/
def later (kind : CursorKind K) (curr : TreeNode K (List O)) : TreeNode K (List O) :=
  match kind with
  | .eq => null
  | .range bounds => bounds.later curr
  | .neq way _ => way.second curr

/-- What is read from the nodes on a stack. -/
def pending (kind : CursorKind K) (path : Stack K O) : List (TreeEntry K (List O)) :=
  path.flatMap fun node => rootEntry node ++ kind.visits (kind.later node)

theorem pending_nil (kind : CursorKind K) : kind.pending ([] : Stack K O) = [] :=
  rfl

theorem pending_cons (kind : CursorKind K) (node : TreeNode K (List O)) (path : Stack K O) :
    kind.pending (node :: path) =
      rootEntry node ++ kind.visits (kind.later node) ++ kind.pending path :=
  List.flatMap_cons

theorem pending_append (kind : CursorKind K) (above path : Stack K O) :
    kind.pending (above ++ path) = kind.pending above ++ kind.pending path :=
  List.flatMap_append

end CursorKind

/-! ## What `_next` pushes -/

theorem addNodesNeqAlong_pending (way : Way) (other : K) {tree : TreeNode K (List O)}
    (ordered : tree.Ordered) (path : Stack K O) :
    (CursorKind.neq way other).pending (tree.addNodesNeqAlong way other path) =
      tree.neqReads way other ++ (CursorKind.neq way other).pending path := by
  induction tree using way.induct generalizing path with
  | atNull => rfl
  | atNode address left right height key value firstIh secondIh =>
      obtain ⟨firstOrdered, secondOrdered, -, after⟩ := way.ordered_node ordered
      rw [addNodesNeqAlong_node, neqReads_node, firstIh firstOrdered, List.append_assoc,
        List.append_cancel_left_eq]
      by_cases isOther : other = key
      · rw [if_pos isOther, if_pos isOther]
        cases isSecond : way.second (node address left right height key value) with
        | null => cases way <;> rfl
        | node secondAddress _ _ _ secondKey _ =>
            rw [pushTo, ← isSecond, CursorKind.pending_cons]
            have absent : ∀ entry ∈ way.along (way.second
                (way.second (node address left right height key value))), entry.key ≠ other := by
              intro entry member
              have inSecond := (isSubtree_second way _).entries_sublist.subset
                ((way.mem_along).mp member)
              exact isOther ▸ (after entry ((way.mem_along).mpr inSecond)).ne.symm
            exact congrArg (rootEntry _ ++ · ++ _) (neqReads_of_absent absent)
      · rw [if_neg isOther, if_neg isOther, CursorKind.pending_cons]
        simp [CursorKind.visits, CursorKind.later, rootEntry]

theorem CursorKind.next_pending (kind : CursorKind K) {curr : TreeNode K (List O)}
    (isIndex : IsIndex curr) : kind.pending (kind.next curr []) = kind.visits (kind.later curr) := by
  cases kind with
  | eq => rfl
  | range bounds =>
      have isPending := (Pmgd.next_pending bounds isIndex AvlTreeIndex.isPath_nil).2
      rw [Pmgd.pending_nil, List.append_nil] at isPending
      exact isPending
  | neq way other =>
      have ordered := ((isSubtree_second way curr).isIndex isIndex).1
      have isPending := addNodesNeqAlong_pending way other ordered []
      rw [pending_nil, List.append_nil] at isPending
      cases way with
      | forward => exact isPending
      | reverse => exact isPending

/-- The nodes on a stack are nodes of the tree. -/
def IsStack (tree : TreeNode K (List O)) (path : Stack K O) : Prop :=
  ∀ node ∈ path, node.IsSubtree tree ∧ node ≠ null

omit [LinearOrder K] in
theorem IsStack.append {tree : TreeNode K (List O)} {above path : Stack K O}
    (isAbove : IsStack tree above) (isStack : IsStack tree path) : IsStack tree (above ++ path) := by
  intro node member
  rcases List.mem_append.mp member with inAbove | inPath
  · exact isAbove node inAbove
  · exact isStack node inPath

omit [LinearOrder K] in
theorem IsStack.of_subtree {subtree tree : TreeNode K (List O)} {path : Stack K O}
    (isStack : IsStack subtree path) (isSubtree : subtree.IsSubtree tree) : IsStack tree path :=
  fun node member => ⟨(isStack node member).1.trans isSubtree, (isStack node member).2⟩

omit [LinearOrder K] in
theorem isStack_nil (tree : TreeNode K (List O)) : IsStack tree [] := by
  intro node member
  exact absurd member List.not_mem_nil

omit [LinearOrder K] in
theorem isStack_spine (way : Way) (inside : K → Bool) (tree : TreeNode K (List O)) :
    IsStack tree (tree.spine way inside []) := by
  intro node member
  rcases isSubtree_of_mem_spine member with inNil | isSubtree
  · exact absurd inNil List.not_mem_nil
  · exact isSubtree

theorem isStack_search (way : Way) (near : Compare K) (inside : K → Bool)
    (tree : TreeNode K (List O)) : IsStack tree (tree.search way near inside []) := by
  intro node member
  rcases isSubtree_of_mem_search member with inNil | isSubtree
  · exact absurd inNil List.not_mem_nil
  · exact isSubtree

omit [LinearOrder K] in
theorem isStack_pushTo {tree : TreeNode K (List O)} {path : Stack K O} {top : TreeNode K (List O)}
    (isSubtree : top.IsSubtree tree) (isStack : IsStack tree path) :
    IsStack tree (top.pushTo path) := by
  cases top with
  | null => exact isStack
  | node address left right height key value =>
      intro other member
      rcases List.mem_cons.mp member with rfl | inPath
      · exact ⟨isSubtree, by simp⟩
      · exact isStack other inPath

theorem isStack_addNodesNeqAlong {way : Way} {other : K} {subtree tree : TreeNode K (List O)}
    {path : Stack K O} (isSubtree : subtree.IsSubtree tree) (isStack : IsStack tree path) :
    IsStack tree (subtree.addNodesNeqAlong way other path) := by
  induction subtree using way.induct generalizing path with
  | atNull => exact isStack
  | atNode address left right height key value firstIh secondIh =>
      rw [addNodesNeqAlong_node]
      apply firstIh ((isSubtree_first way _).trans isSubtree)
      split_ifs with isOther
      · exact isStack_pushTo ((isSubtree_second way _).trans isSubtree) isStack
      · exact isStack_pushTo isSubtree isStack

theorem CursorKind.isStack_next (kind : CursorKind K) (curr : TreeNode K (List O)) :
    IsStack curr (kind.next curr []) := by
  cases kind with
  | eq => exact isStack_nil curr
  | range bounds =>
      cases bounds with
      | forward cmax =>
          rw [next, IndexRange.next, addRightTree_eq]
          exact (isStack_spine _ _ _).of_subtree (isSubtree_second .forward curr)
      | reverse cmin =>
          rw [next, IndexRange.next, addLeftTree_eq]
          exact (isStack_spine _ _ _).of_subtree (isSubtree_second .reverse curr)
      | nomax =>
          rw [next, IndexRange.next, addFullRightTree_eq]
          exact (isStack_spine _ _ _).of_subtree (isSubtree_second .forward curr)
      | nomin =>
          rw [next, IndexRange.next, addFullLeftTree_eq]
          exact (isStack_spine _ _ _).of_subtree (isSubtree_second .reverse curr)
  | neq way other =>
      cases way with
      | forward =>
          exact isStack_addNodesNeqAlong (isSubtree_second .forward curr) (isStack_nil curr)
      | reverse =>
          exact isStack_addNodesNeqAlong (isSubtree_second .reverse curr) (isStack_nil curr)

/-! ## Positions -/

omit [LinearOrder K] in
theorem pointers_cons {node : TreeNode K (List O)} (nonempty : node ≠ null) (path : Stack K O) :
    ∃ pointer, node.rootAddress = some pointer ∧
      pointers (node :: path) = pointer :: pointers path := by
  cases node with
  | null => exact absurd rfl nonempty
  | node address left right height key value => exact ⟨address, rfl, rfl⟩

omit [LinearOrder K] in
theorem pointers_append (above path : Stack K O) :
    pointers (above ++ path) = pointers above ++ pointers path :=
  List.filterMap_append

/-- The elements tell the entries that they come from. -/
theorem flatMap_value_injective {tree : TreeNode K (List (ListNode O))} (isPlaced : IsPlaced tree)
    {first second : List (TreeEntry K (List (ListNode O)))}
    (inFirst : ∀ entry ∈ first, entry ∈ tree.entries)
    (inSecond : ∀ entry ∈ second, entry ∈ tree.entries)
    (same : first.flatMap TreeEntry.value = second.flatMap TreeEntry.value) : first = second := by
  have disjoint := (List.nodup_flatMap.mp (List.Nodup.of_map _ isPlaced.elements)).2
  have symmetric : Std.Symm (Function.onFun List.Disjoint
      (TreeEntry.value : TreeEntry K (List (ListNode O)) → _)) :=
    ⟨fun _ _ isDisjoint _ inSecond inFirst => isDisjoint inFirst inSecond⟩
  induction first generalizing second with
  | nil =>
      cases second with
      | nil => rfl
      | cons entry second =>
          rw [List.flatMap_nil, List.flatMap_cons, eq_comm, List.append_eq_nil_iff] at same
          exact absurd same.1 (isPlaced.index.2 entry (inSecond entry List.mem_cons_self))
  | cons entry first ih =>
      rw [List.forall_mem_cons] at inFirst
      have nonempty := isPlaced.index.2 entry inFirst.1
      cases second with
      | nil =>
          rw [List.flatMap_nil, List.flatMap_cons, List.append_eq_nil_iff] at same
          exact absurd same.1 nonempty
      | cons other second =>
          rw [List.forall_mem_cons] at inSecond
          have otherNonempty := isPlaced.index.2 other inSecond.1
          rw [List.flatMap_cons, List.flatMap_cons] at same
          -- both lists start with the same element
          obtain ⟨element, rest, isValue⟩ := List.exists_cons_of_ne_nil nonempty
          obtain ⟨otherElement, otherRest, isOtherValue⟩ :=
            List.exists_cons_of_ne_nil otherNonempty
          have sameElement : element = otherElement := by
            rw [isValue, isOtherValue] at same
            exact (List.cons.inj same).1
          have sameEntry : entry = other := by
            by_contra different
            have apart := disjoint.forall inFirst.1 inSecond.1 different
            apply apart (a := element)
            · rw [isValue]
              exact List.mem_cons_self
            · rw [isOtherValue, sameElement]
              exact List.mem_cons_self
          subst sameEntry
          rw [ih inFirst.2 inSecond.2 (List.append_cancel_left same)]

namespace IndexCursor

/-- The iterator is at the first element of a list, in a node of the tree, with a stack of nodes
of the tree. -/
structure IsAt (tree curr : TreeNode K (List (ListNode O))) (path : Stack K (ListNode O))
    (list : List (ListNode O)) (cursor : IndexCursor K) : Prop where
  isCurr : cursor.curr = curr.rootAddress
  isSubtree : curr.IsSubtree tree
  isNode : cursor.kind = .eq ∨ curr ≠ null
  isPath : cursor.path = pointers path
  isStack : IsStack tree path
  isPos : cursor.listIt = list.head?.map ListNode.address
  inList : ∃ entry ∈ tree.entries, list <:+ entry.value
  notVacant : cursor.vacantFlag = false

/-- What is read from here on. -/
def remaining (kind : CursorKind K) (curr : TreeNode K (List (ListNode O)))
    (path : Stack K (ListNode O)) (list : List (ListNode O)) : List (ListNode O) :=
  list ++ (kind.visits (kind.later curr) ++ kind.pending path).flatMap TreeEntry.value

variable {tree curr : TreeNode K (List (ListNode O))} {path : Stack K (ListNode O)}
  {list rest : List (ListNode O)} {element : ListNode O} {cursor : IndexCursor K}

theorem IsAt.listFrom_eq (isAt : cursor.IsAt tree curr path (element :: rest))
    (isPlaced : IsPlaced tree) : cursor.listIt.bind tree.listFrom = some (element :: rest) := by
  obtain ⟨entry, member, isSuffix⟩ := isAt.inList
  rw [isAt.isPos]
  exact TreeNode.listFrom_eq isPlaced.elements member isSuffix

theorem IsAt.ref_eq (isAt : cursor.IsAt tree curr path (element :: rest))
    (isPlaced : IsPlaced tree) : cursor.ref tree = some element := by
  have isList := isAt.listFrom_eq isPlaced
  rw [isAt.isPos] at isList
  rw [ref, if_neg (by simp [isAt.notVacant]), isAt.isPos]
  change (tree.listFrom element.address).bind List.head? = some element
  rw [show tree.listFrom element.address = some (element :: rest) from isList]
  rfl

theorem IsAt.nextPath_eq (isAt : cursor.IsAt tree curr path list) (isPlaced : IsPlaced tree) :
    cursor.nextPath tree = some (pointers (cursor.kind.next curr [] ++ path)) := by
  obtain ⟨kind, pointer, _, pos, vacantFlag⟩ := cursor
  obtain ⟨rfl, isSubtree, isNode, rfl, -, -, -, -⟩ := isAt
  by_cases isEq : kind = .eq
  · subst isEq
    rfl
  · have nonempty := isNode.resolve_left isEq
    obtain ⟨pointer, isPointer, -⟩ := pointers_cons nonempty path
    have found := isSubtree.subtreeAt_eq isPlaced.nodes isPointer
    have isPath : (⟨kind, curr.rootAddress, pointers path, pos, vacantFlag⟩ :
        IndexCursor K).nextPath tree =
          (curr.rootAddress.bind tree.subtreeAt).map fun curr =>
            pointers (kind.next curr []) ++ pointers path := by
      cases kind with
      | eq => exact absurd rfl isEq
      | range bounds => rfl
      | neq way other => rfl
    rw [isPath, isPointer, Option.bind_some, found, Option.map_some, pointers_append]

theorem takeTop_cons {top : TreeNode K (List (ListNode O))} (isPlaced : IsPlaced tree)
    (isStack : IsStack tree (top :: path)) :
    cursor.takeTop tree (pointers (top :: path)) =
      some { cursor with
        curr := top.rootAddress, path := pointers path, listIt := top.firstElement } := by
  obtain ⟨isSubtree, nonempty⟩ := isStack top List.mem_cons_self
  obtain ⟨pointer, isPointer, isPath⟩ := pointers_cons nonempty path
  rw [isPath, takeTop, isSubtree.subtreeAt_eq isPlaced.nodes isPointer, Option.map_some, isPointer]

/-- The iterator goes on in the list. -/
theorem IsAt.next_of_more (isAt : cursor.IsAt tree curr path (element :: rest))
    (isPlaced : IsPlaced tree) (more : rest ≠ []) :
    ∃ after, cursor.next tree = some after ∧ after.kind = cursor.kind ∧
      after.IsAt tree curr path rest := by
  obtain ⟨second, others, rfl⟩ := List.exists_cons_of_ne_nil more
  refine ⟨{ cursor with listIt := some second.address }, ?_, rfl, ?_⟩
  · rw [next, if_neg (by simp [isAt.notVacant]), isAt.listFrom_eq isPlaced]
    rfl
  · obtain ⟨entry, member, isSuffix⟩ := isAt.inList
    exact ⟨isAt.isCurr, isAt.isSubtree, isAt.isNode, isAt.isPath, isAt.isStack, rfl,
      ⟨entry, member, (List.suffix_cons _ _).trans isSuffix⟩, isAt.notVacant⟩

theorem IsAt.next_of_last (isAt : cursor.IsAt tree curr path [element])
    (isPlaced : IsPlaced tree) :
    cursor.next tree =
      cursor.takeTop tree (pointers (cursor.kind.next curr [] ++ path)) := by
  rw [next, if_neg (by simp [isAt.notVacant]), isAt.listFrom_eq isPlaced, Option.bind_some,
    List.tail_cons, List.isEmpty_nil, if_pos rfl, isAt.nextPath_eq isPlaced, Option.bind_some]

omit [LinearOrder K] in
theorem isStack_tail {top : TreeNode K (List (ListNode O))}
    (isStack : IsStack tree (top :: path)) : IsStack tree path :=
  fun node member => isStack node (List.mem_cons_of_mem _ member)

/-- A node that was on the stack becomes the current one. -/
theorem isAt_takeTop {top : TreeNode K (List (ListNode O))} (isPlaced : IsPlaced tree)
    (isStack : IsStack tree (top :: path)) (notVacant : cursor.vacantFlag = false) :
    ∃ after, cursor.takeTop tree (pointers (top :: path)) = some after ∧
      after.kind = cursor.kind ∧ after.IsAt tree top path top.objects ∧ top.objects ≠ [] := by
  obtain ⟨isSubtree, nonempty⟩ := isStack top List.mem_cons_self
  refine ⟨_, takeTop_cons isPlaced isStack, rfl, ?_⟩
  cases top with
  | null => exact absurd rfl nonempty
  | node address left right height key value =>
      have member := isSubtree.rootEntry_mem (List.mem_singleton.mpr rfl)
      refine ⟨⟨rfl, isSubtree, Or.inr nonempty, rfl, isStack_tail isStack, rfl,
        ⟨_, member, List.suffix_refl _⟩, notVacant⟩, ?_⟩
      exact isPlaced.index.2 _ member

theorem remaining_of_top (kind : CursorKind K) (top : TreeNode K (List (ListNode O)))
    (path : Stack K (ListNode O)) :
    remaining kind top path top.objects =
      (kind.pending (top :: path)).flatMap TreeEntry.value := by
  rw [CursorKind.pending_cons, remaining]
  cases top with
  | null => simp [TreeNode.objects, rootEntry]
  | node address left right height key value => simp [TreeNode.objects, rootEntry]

/-- One step: the iterator ends, or it is one element further. -/
theorem IsAt.next_cases (isAt : cursor.IsAt tree curr path (element :: rest))
    (isPlaced : IsPlaced tree) :
    ∃ after, cursor.next tree = some after ∧ after.kind = cursor.kind ∧
      (after.toBool = false ∧ remaining cursor.kind curr path (element :: rest) = [element] ∨
        ∃ top stack list, after.IsAt tree top stack list ∧ list ≠ [] ∧
          remaining cursor.kind curr path (element :: rest) =
            element :: remaining cursor.kind top stack list) := by
  by_cases more : rest = []
  · subst more
    have isNext := isAt.next_of_last isPlaced
    have isPending : remaining cursor.kind curr path [element] = element ::
        (cursor.kind.pending (cursor.kind.next curr [] ++ path)).flatMap TreeEntry.value := by
      rw [remaining, CursorKind.pending_append,
        cursor.kind.next_pending (isAt.isSubtree.isIndex isPlaced.index)]
      rfl
    have isStack : IsStack tree (cursor.kind.next curr [] ++ path) :=
      ((cursor.kind.isStack_next curr).of_subtree isAt.isSubtree).append isAt.isStack
    cases isPath : cursor.kind.next curr [] ++ path with
    | nil =>
        rw [isPath] at isNext isPending
        refine ⟨_, isNext, rfl, Or.inl ⟨?_, isPending⟩⟩
        simp [toBool, isAt.notVacant]
    | cons top stack =>
        rw [isPath] at isNext isPending isStack
        obtain ⟨after, isAfter, sameKind, afterAt, nonempty⟩ :=
          isAt_takeTop isPlaced isStack isAt.notVacant
        refine ⟨after, isNext.trans isAfter, sameKind, Or.inr ⟨top, stack, _, afterAt, nonempty, ?_⟩⟩
        rw [remaining_of_top, isPending]
  · obtain ⟨after, isAfter, sameKind, afterAt⟩ := isAt.next_of_more isPlaced more
    exact ⟨after, isAfter, sameKind, Or.inr ⟨curr, path, rest, afterAt, more, rfl⟩⟩

theorem yields_remaining (isPlaced : IsPlaced tree) (isAt : cursor.IsAt tree curr path list)
    (nonempty : list ≠ []) : cursor.Yields tree (remaining cursor.kind curr path list) := by
  -- by induction on the number of elements that remain
  induction count : (remaining cursor.kind curr path list).length
    generalizing cursor curr path list with
  | zero =>
      rw [List.length_eq_zero_iff, remaining, List.append_eq_nil_iff] at count
      exact absurd count.1 nonempty
  | succ count ih =>
      obtain ⟨element, rest, rfl⟩ := List.exists_cons_of_ne_nil nonempty
      have active : cursor.toBool = true := by simp [toBool, isAt.isPos]
      have isStep (fuel : Nat) {after : IndexCursor K} (isNext : cursor.next tree = some after) :
          cursor.collect tree (fuel + 1) = (after.collect tree fuel).map (element :: ·) := by
        rw [collect, if_pos active, isAt.ref_eq isPlaced, Option.bind_some, isNext,
          Option.bind_some]
      obtain ⟨after, isNext, sameKind, ended⟩ := isAt.next_cases isPlaced
      rcases ended with ⟨ended, isLast⟩ | ⟨top, stack, more, afterAt, moreNonempty, isRemaining⟩
      · refine ⟨2, ?_⟩
        rw [isStep 1 isNext, collect, if_neg (by simp [ended]), isLast, Option.map_some]
      · rw [isRemaining, List.length_cons, Nat.succ_inj, ← sameKind] at count
        obtain ⟨fuel, collected⟩ := ih afterAt moreNonempty count
        refine ⟨fuel + 1, ?_⟩
        rw [isStep fuel isNext, collected, isRemaining, sameKind, Option.map_some]

theorem finishInit_yields (kind : CursorKind K) (isPlaced : IsPlaced tree)
    (isStack : IsStack tree path) :
    (finishInit kind path).Yields tree ((kind.pending path).flatMap TreeEntry.value) := by
  cases path with
  | nil => exact ⟨1, rfl⟩
  | cons top path =>
      let start : IndexCursor K := ⟨kind, none, [], none, false⟩
      have notVacant : start.vacantFlag = false := rfl
      obtain ⟨after, isAfter, rfl, afterAt, nonempty⟩ :=
        isAt_takeTop isPlaced isStack notVacant
      rw [takeTop_cons isPlaced isStack, Option.some_inj] at isAfter
      rw [← remaining_of_top]
      have yields := yields_remaining isPlaced afterAt nonempty
      rw [← isAfter] at yields
      exact yields

theorem collect_succ {elements : List (ListNode O)} {fuel : Nat}
    (collected : cursor.collect tree fuel = some elements) :
    cursor.collect tree (fuel + 1) = some elements := by
  induction fuel generalizing cursor elements with
  | zero => exact (Option.some_ne_none elements collected.symm).elim
  | succ fuel ih =>
      rw [collect] at collected ⊢
      split_ifs at collected ⊢ with active
      · simp only [Option.bind_eq_some_iff, Option.map_eq_some_iff] at collected ⊢
        obtain ⟨element, isElement, after, isAfter, others, othersCollected, isCons⟩ := collected
        exact ⟨element, isElement, after, isAfter, others, ih othersCollected, isCons⟩
      · exact collected

/-- An iterator yields one list of elements. -/
theorem Yields.unique {first second : List (ListNode O)} (yieldsFirst : cursor.Yields tree first)
    (yieldsSecond : cursor.Yields tree second) : first = second := by
  obtain ⟨fuel, collected⟩ := yieldsFirst
  obtain ⟨otherFuel, otherCollected⟩ := yieldsSecond
  have more {elements : List (ListNode O)} {fuel : Nat}
      (collected : cursor.collect tree fuel = some elements) (extra : Nat) :
      cursor.collect tree (fuel + extra) = some elements := by
    induction extra with
    | zero => exact collected
    | succ extra ih => exact collect_succ ih
  have same := (more collected otherFuel).symm.trans
    (Nat.add_comm fuel otherFuel ▸ more otherCollected fuel)
  exact Option.some.inj same

end IndexCursor

/-! ## Searching for the current key -/

/-- The entries after a key, as far as the bound allows. -/
def Way.following (way : Way) (inside : K → Bool) (cur : K) (tree : TreeNode K (List O)) :
    List (TreeEntry K (List O)) :=
  (way.along tree).filter fun entry => decide (way.Before cur entry.key) && inside entry.key

section Following

variable {way : Way} {inside : K → Bool} {cur key : K} {address : Nat}
  {left right : TreeNode K (List O)} {height : Int} {value : List O}

theorem Way.following_of_before (ordered : (node address left right height key value).Ordered)
    (isBefore : way.Before cur key) :
    let root := node address left right height key value
    way.following inside cur root = way.following inside cur (way.first root) ++
      ((if inside key then [⟨address, key, value⟩] else []) ++
        (way.along (way.second root)).filter fun entry => inside entry.key) := by
  intro root
  obtain ⟨-, -, -, after⟩ := way.ordered_node ordered
  have restFilter : way.following inside cur (way.second root) =
      (way.along (way.second root)).filter fun entry => inside entry.key := by
    apply List.filter_congr
    intro other inSecond
    rw [decide_eq_true (isBefore.trans (after other inSecond)), Bool.true_and]
  rw [← restFilter, following, Way.along_node, List.filter_append, List.filter_cons,
    decide_eq_true isBefore, Bool.true_and]
  split_ifs <;> rfl

theorem Way.following_of_not_before
    (ordered : (node address left right height key value).Ordered)
    (notBefore : ¬ way.Before cur key) :
    let root := node address left right height key value
    way.following inside cur root = way.following inside cur (way.second root) := by
  intro root
  obtain ⟨-, -, before, -⟩ := way.ordered_node ordered
  have noneFirst : way.following inside cur (way.first root) = [] := by
    rw [following, List.filter_eq_nil_iff]
    intro other inFirst passes
    simp only [Bool.and_eq_true, decide_eq_true_eq] at passes
    exact notBefore (passes.1.trans (before other inFirst))
  rw [following, Way.along_node, List.filter_append, List.filter_cons,
    if_neg (by simp [notBefore])]
  exact (congrArg (· ++ _) noneFirst).trans (List.nil_append _)

theorem Way.following_self (ordered : (node address left right height key value).Ordered) :
    let root := node address left right height key value
    way.following inside key root =
      (way.along (way.second root)).filter fun entry => inside entry.key := by
  intro root
  obtain ⟨-, -, -, after⟩ := way.ordered_node ordered
  rw [following_of_not_before ordered (Way.Before.irrefl way key)]
  apply List.filter_congr
  intro other inSecond
  rw [decide_eq_true (after other inSecond), Bool.true_and]

end Following

/-- A search for a stored key: the node of the key is on top, and the stack stands for what comes
after it. -/
theorem search_present (kind : CursorKind K) {way : Way} {inside : K → Bool}
    (isLater : ∀ node : TreeNode K (List O), kind.later node = way.second node)
    (downward : ∀ key other, way.Before key other → inside other = true → inside key = true)
    {tree : TreeNode K (List O)} (ordered : tree.Ordered)
    (isVisits : ∀ subtree : TreeNode K (List O), subtree.IsSubtree tree →
      kind.visits subtree = (way.along subtree).filter fun entry => inside entry.key)
    {entry : TreeEntry K (List O)} (member : entry ∈ tree.entries) (path : Stack K O) :
    ∃ top stack, tree.search way ⟨entry.key, true⟩ inside path = top :: stack ∧
      rootEntry top = [entry] ∧
      kind.visits (way.second top) ++ kind.pending stack =
        way.following inside entry.key tree ++ kind.pending path := by
  induction tree using way.induct generalizing path with
  | atNull => exact absurd member List.not_mem_nil
  | atNode address left right height key value firstIh secondIh =>
      obtain ⟨firstOrdered, secondOrdered, before, after⟩ := way.ordered_node ordered
      have ofSecond := isVisits _ (isSubtree_second way (node address left right height key value))
      rw [← way.mem_along, Way.along_node, List.mem_append, List.mem_cons] at member
      rw [search_node]
      rcases member with inFirst | rfl | inSecond
      · have isBefore := before entry inFirst
        rw [if_pos isBefore, Way.following_of_before ordered isBefore, ← ofSecond]
        have ih := firstIh firstOrdered
          (fun subtree isSubtree => isVisits subtree (isSubtree.trans (isSubtree_first way _)))
          ((way.mem_along).mp inFirst)
        by_cases isInside : inside key = true
        · obtain ⟨top, stack, isSearch, isTop, isPending⟩ :=
            ih (node address left right height key value :: path)
          refine ⟨top, stack, ?_, isTop, ?_⟩
          · rw [if_pos isInside, isSearch]
          · rw [isPending, CursorKind.pending_cons, isLater, if_pos isInside]
            simp [rootEntry]
        · have noneSecond :
              kind.visits (way.second (node address left right height key value)) = [] := by
            rw [ofSecond, List.filter_eq_nil_iff]
            intro other inSecond otherInside
            exact isInside (downward _ _ (after other inSecond) otherInside)
          obtain ⟨top, stack, isSearch, isTop, isPending⟩ := ih path
          refine ⟨top, stack, ?_, isTop, ?_⟩
          · rw [if_neg isInside, isSearch]
          · rw [isPending, noneSecond, if_neg isInside, List.append_nil, List.append_nil]
      · refine ⟨node address left right height key value, path, ?_, rfl, ?_⟩
        · rw [if_neg (Way.Before.irrefl way key), if_pos (by simp [Compare.equals])]
        · rw [Way.following_self ordered, ofSecond]
      · have isAfter := after entry inSecond
        obtain ⟨top, stack, isSearch, isTop, isPending⟩ := secondIh secondOrdered
          (fun subtree isSubtree => isVisits subtree (isSubtree.trans (isSubtree_second way _)))
          ((way.mem_along).mp inSecond) path
        refine ⟨top, stack, ?_, isTop, ?_⟩
        · rw [if_neg isAfter.asymm, if_neg (by simp [Compare.equals, isAfter.ne.symm]), isSearch]
        · rw [isPending, Way.following_of_not_before ordered isAfter.asymm]

omit [LinearOrder K] in
theorem rootAddress_of_rootEntry {top : TreeNode K (List O)} {entry : TreeEntry K (List O)}
    (isTop : rootEntry top = [entry]) : top.rootAddress = some entry.address := by
  cases top with
  | null => cases isTop
  | node address left right height key value =>
      rw [← List.singleton_inj.mp isTop]
      rfl

namespace IndexCursor

omit [LinearOrder K] in
/-- The position of an iterator with that stack. -/
theorem isAt_of_search {tree : TreeNode K (List (ListNode O))}
    {entry : TreeEntry K (List (ListNode O))} (member : entry ∈ tree.entries)
    (kind : CursorKind K) {top : TreeNode K (List (ListNode O))} {stack : Stack K (ListNode O)}
    (isTop : rootEntry top = [entry]) (isStack : IsStack tree (top :: stack))
    {element : ListNode O} {rest : List (ListNode O)} (isSuffix : element :: rest <:+ entry.value) :
    (⟨kind, some entry.address, pointers stack, some element.address, false⟩ :
      IndexCursor K).IsAt tree top stack (element :: rest) where
  isCurr := (rootAddress_of_rootEntry isTop).symm
  isSubtree := (isStack top List.mem_cons_self).1
  isNode := Or.inr (isStack top List.mem_cons_self).2
  isPath := rfl
  isStack := isStack_tail isStack
  isPos := rfl
  inList := ⟨entry, member, isSuffix⟩
  notVacant := rfl

end IndexCursor

end Pmgd
