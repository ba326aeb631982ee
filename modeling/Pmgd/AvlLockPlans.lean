import Pmgd.AvlLocks

/-!
# The lock plans are exact

A plan that selects a node below the root selects one where the change can start: the call of
`add_recursive` or `remove_recursive` for this node returns the node itself, as high as before,
and the rest of the tree is what it is after the call for the root.  On the search path of a
deletion the predicted heights are the heights after it.
-/

namespace Pmgd

open SortedInsert

namespace TreeNode

variable {K V : Type*} [LinearOrder K]

/-! ## Insertion -/

/-- The insertion of a key that a balanced tree holds finds its node. -/
theorem addRecursive_of_present {tree : TreeNode K V} (isAvl : tree.IsAvl) {pointer : Nat}
    {key : K} {value : V} (present : ⟨pointer, key, value⟩ ∈ tree.entries) (fresh : Nat)
    (initial : V) :
    tree.addRecursive key fresh initial = some ⟨tree, pointer, false⟩ := by
  induction tree with
  | null => simp at present
  | node address left right height nodeKey nodeValue leftIh rightIh =>
      obtain ⟨-, -, below, above⟩ := ordered_node.mp isAvl.ordered
      obtain ⟨-, -, isHeight⟩ := isAvl.heightsOk
      obtain ⟨-, -, lowBound, highBound⟩ := isAvl.balanced
      have notLeft : left.height - right.height ≠ 2 := by omega
      have notRight : left.height - right.height ≠ -2 := by omega
      rcases List.mem_append.mp present with inLeft | inRest
      · have before : key < nodeKey := below _ inLeft
        rw [addRecursive_of_lt before, leftIh isAvl.leftChild inLeft, Option.bind_some,
          balanceAddedLeft_of_ne notLeft, Option.map_some, ← isHeight]
        rfl
      · rcases List.mem_cons.mp inRest with isHere | inRight
        · simp only [TreeEntry.mk.injEq] at isHere
          obtain ⟨rfl, rfl, rfl⟩ := isHere
          rw [addRecursive, if_pos rfl]
        · have after : nodeKey < key := above _ inRight
          rw [addRecursive_of_gt after, rightIh isAvl.rightChild inRight, Option.bind_some,
            balanceAddedRight_of_ne notRight, Option.map_some, ← isHeight]
          rfl

omit [LinearOrder K] in
/-- What the pointer to an entry points to. -/
theorem subtreeAt_of_mem_entries {tree : TreeNode K V} (distinct : tree.addresses.Nodup)
    {pointer : Nat} {key : K} {value : V} (present : ⟨pointer, key, value⟩ ∈ tree.entries) :
    ∃ left right height,
      tree.subtreeAt pointer = some (node pointer left right height key value) ∧
        tree.replaceAt pointer (node pointer left right height key value) = tree := by
  induction tree with
  | null => simp at present
  | node address left right height nodeKey nodeValue leftIh rightIh =>
      rw [addresses_node, List.nodup_middle, List.nodup_cons, List.nodup_append] at distinct
      obtain ⟨notHere, leftDistinct, rightDistinct, disjoint⟩ := distinct
      rcases List.mem_append.mp present with inLeft | inRest
      · have onLeft : pointer ∈ left.addresses := List.mem_map_of_mem inLeft
        have notRight : pointer ∉ right.addresses := fun onRight =>
          disjoint pointer onLeft pointer onRight rfl
        have elsewhere : address ≠ pointer := by
          rintro rfl
          exact notHere (List.mem_append_left _ onLeft)
        obtain ⟨low, high, subHeight, isSubtree, replaced⟩ := leftIh leftDistinct inLeft
        refine ⟨low, high, subHeight, ?_, ?_⟩
        · rw [subtreeAt, if_neg elsewhere, isSubtree, Option.some_or]
        · rw [replaceAt, if_neg elsewhere, replaced, replaceAt_of_notMem notRight]
      · rcases List.mem_cons.mp inRest with isHere | inRight
        · simp only [TreeEntry.mk.injEq] at isHere
          obtain ⟨rfl, rfl, rfl⟩ := isHere
          exact ⟨left, right, height, by rw [subtreeAt, if_pos rfl], by
            rw [replaceAt, if_pos rfl]⟩
        · have onRight : pointer ∈ right.addresses := List.mem_map_of_mem inRight
          have notLeft : pointer ∉ left.addresses := fun onLeft =>
            disjoint pointer onLeft pointer onRight rfl
          have elsewhere : address ≠ pointer := by
            rintro rfl
            exact notHere (List.mem_append_right _ onRight)
          obtain ⟨low, high, subHeight, isSubtree, replaced⟩ := rightIh rightDistinct inRight
          refine ⟨low, high, subHeight, ?_, ?_⟩
          · rw [subtreeAt, if_neg elsewhere, subtreeAt_eq_none notLeft, Option.none_or, isSubtree]
          · rw [replaceAt, if_neg elsewhere, replaced, replaceAt_of_notMem notLeft]

theorem getLocksAdd_of_below {tree : TreeNode K V} {key : K} {writeLocked : Bool} {retval : Int}
    {toLock : Nat} (isPlan : tree.getLocksAdd key writeLocked = (retval, some toLock))
    (below : tree.rootAddress ≠ some toLock) :
    tree ≠ null ∧ (tree.getLocksAddRecursive key 0 0).r ≠ 0 ∧
      retval = (tree.getLocksAddRecursive key 0 0).retval ∧
      some toLock = (tree.getLocksAddRecursive key 0 0).locks[
        (tree.getLocksAddRecursive key 0 0).r]?.bind LockInfo.curr := by
  cases writeLocked with
  | true => cases tree <;> simp [getLocksAdd] at isPlan
  | false =>
      cases tree with
      | null => simp [getLocksAdd] at isPlan
      | node address left right height nodeKey value =>
          refine ⟨by simp, ?_⟩
          rw [getLocksAdd] at isPlan
          split_ifs at isPlan with isTop
          · exact absurd (Prod.mk.inj isPlan).2 below
          · exact ⟨isTop, (Prod.mk.inj isPlan).1.symm, (Prod.mk.inj isPlan).2.symm⟩
          all_goals simp

/-- `add_recursive` may start at the node that `get_locks_add` selects below the root.  When
`get_locks_add` reports that the key exists, this is the node of the key. -/
theorem addRecursive_at_getLocksAdd {tree : TreeNode K V} (isAvl : tree.IsAvl) (key : K)
    (fresh : Nat) (initial : V) {writeLocked : Bool} {retval : Int} {toLock : Nat}
    (isPlan : tree.getLocksAdd key writeLocked = (retval, some toLock))
    (below : tree.rootAddress ≠ some toLock) :
    (∃ subtree added, tree.subtreeAt toLock = some subtree ∧
      subtree.addRecursive key fresh initial = some added ∧
      added.tree.rootAddress = some toLock ∧ added.tree.height = subtree.height ∧
      tree.addRecursive key fresh initial =
        some ⟨tree.replaceAt toLock added.tree, added.r, added.rebalanced⟩) ∧
    (retval < 0 → ∃ value, ⟨toLock, key, value⟩ ∈ tree.entries) := by
  obtain ⟨nonempty, notTop, isRetval, isLock⟩ := getLocksAdd_of_below isPlan below
  by_cases present : ∃ entry ∈ tree.entries, entry.key = key
  · obtain ⟨⟨pointer, key, value⟩, member, rfl⟩ := present
    obtain ⟨found, -, isPointer⟩ := getLocksAddRecursive_of_present isAvl.ordered member 0 0
    rw [Nat.sub_zero, ← isLock] at isPointer
    obtain rfl := Option.some.inj isPointer
    obtain ⟨left, right, height, isSubtree, replaced⟩ :=
      subtreeAt_of_mem_entries isAvl.distinct member
    refine ⟨⟨_, ⟨_, toLock, false⟩, isSubtree, by rw [addRecursive, if_pos rfl], rfl, rfl, ?_⟩,
      fun _ => ⟨value, member⟩⟩
    rw [replaced]
    exact addRecursive_of_present isAvl member fresh initial
  · have absent : ∀ entry ∈ tree.entries, entry.key ≠ key := fun entry member same =>
      present ⟨entry, member, same⟩
    obtain ⟨added, isAdded, -⟩ :=
      addRecursive_spec isAvl.ordered isAvl.heightsOk key fresh initial
    have plan := getLocksAddRecursive_predicts isAvl absent fresh initial 0 0 isAdded
    have unchanged : (tree.getLocksAddRecursive key 0 0).here.changed = false := by
      by_contra changed
      exact notTop (plan.r_of_changed nonempty (by simpa using changed))
    obtain ⟨-, pointer, isPointer, -, inPlace⟩ := plan.inPlace_of_unchanged unchanged
    rw [Nat.sub_zero, ← isLock] at isPointer
    obtain rfl := Option.some.inj isPointer
    obtain ⟨subtree, after, isSubtree, operated, isRoot, sameHeight, isResult⟩ :=
      inPlace_keepsRoot inPlace
    obtain ⟨addedBelow, isAddedBelow, isOut⟩ := Option.map_eq_some_iff.mp operated
    simp only [Prod.mk.injEq] at isOut
    obtain ⟨rfl, sameR, sameRebalanced⟩ := isOut
    refine ⟨⟨subtree, addedBelow, isSubtree, isAddedBelow, isRoot, sameHeight, ?_⟩, fun negative =>
      ?_⟩
    · rw [isAdded, sameR, sameRebalanced, ← isResult]
    · have := addRecursive_height_nonneg isAvl isAdded
      rw [isRetval, plan.retval_eq] at negative
      omega

/-- A node at the address `key`, as high as its children make it. -/
def nodeAt (key : Nat) (left right : TreeNode Nat Nat) : TreeNode Nat Nat :=
  node key left right (max left.height right.height + 1) key 0

/-- A balanced tree of height 4. -/
def tallTree : TreeNode Nat Nat :=
  nodeAt 20
    (nodeAt 10
      (nodeAt 5 (nodeAt 3 (nodeAt 2 null null) (nodeAt 4 null null)) (nodeAt 7 null null))
      (nodeAt 15 (nodeAt 12 null null) null))
    (nodeAt 30 (nodeAt 25 null null) (nodeAt 35 null (nodeAt 40 null null)))

theorem tallTree_isAvl : tallTree.IsAvl where
  ordered := by simp [Ordered, SortedBy, tallTree, nodeAt]
  heightsOk := by simp [tallTree, nodeAt]
  balanced := by simp [tallTree, nodeAt]
  distinct := by simp [tallTree, nodeAt]

/-- The insertion of 6 changes the node 7, and may start at the node 5 above it. -/
theorem addRecursive_at_getLocksAdd_tallTree :
    ∃ subtree added, tallTree.subtreeAt 5 = some subtree ∧
      subtree.addRecursive 6 6 0 = some added ∧ added.tree.height = subtree.height ∧
      tallTree.addRecursive 6 6 0 =
        some ⟨tallTree.replaceAt 5 added.tree, added.r, added.rebalanced⟩ := by
  obtain ⟨⟨subtree, added, isSubtree, isAdded, -, sameHeight, isWhole⟩, -⟩ :=
    addRecursive_at_getLocksAdd tallTree_isAvl 6 6 0
      (by decide : tallTree.getLocksAdd 6 false = (4, some 5)) (by decide)
  exact ⟨subtree, added, isSubtree, isAdded, sameHeight, isWhole⟩

/-! ## Deletion -/

/-- The calls of `remove_recursive` for nodes: the subtree and the key of each. -/
def removeCalls : TreeNode K V → K → List (TreeNode K V × K)
  | null, _ => []
  | node address left right height nodeKey value, key =>
      (node address left right height nodeKey value, key) ::
        if key > nodeKey then
          right.removeCalls key
        else if key = nodeKey then
          match left, right with
          | null, _ | _, null => []
          | _, _ =>
              match left.findMax with
              | none => []
              | some toReplace => left.removeCalls toReplace.key
        else
          left.removeCalls key

theorem removeCalls_of_lt {nodeKey key : K} (before : key < nodeKey) (address : Nat)
    (left right : TreeNode K V) (height : Int) (value : V) :
    (node address left right height nodeKey value).removeCalls key =
      (node address left right height nodeKey value, key) :: left.removeCalls key := by
  simp only [removeCalls, gt_iff_lt, if_neg before.not_gt, if_neg before.ne]

theorem removeCalls_of_gt {nodeKey key : K} (after : nodeKey < key) (address : Nat)
    (left right : TreeNode K V) (height : Int) (value : V) :
    (node address left right height nodeKey value).removeCalls key =
      (node address left right height nodeKey value, key) :: right.removeCalls key := by
  simp only [removeCalls, gt_iff_lt, if_pos after]

/-- What the scan expects of a node: the height after the call for it. -/
def LockInfo.Foresees (info : LockInfo) (call : TreeNode K V × K) : Prop :=
  info.curr = call.1.rootAddress ∧
    ∃ removed, call.1.removeRecursive call.2 = some removed ∧ info.myht = removed.tree.height

theorem RemoveScan.Predicts.foresees {address : Nat} {left right : TreeNode K V} {height : Int}
    {nodeKey key : K} {value : V} {scan : RemoveScan K V} {removed : Removed K V} {level : Nat}
    (predicts : scan.Predicts (node address left right height nodeKey value) level key removed)
    (isRemoved :
      (node address left right height nodeKey value).removeRecursive key = some removed)
    (isCurr : scan.here.curr = some address) :
    scan.here.Foresees (node address left right height nodeKey value, key) :=
  ⟨isCurr, removed, isRemoved, predicts.myht_eq⟩

theorem getLocksRemoveRecursive_foresees {tree : TreeNode K V} (isAvl : tree.IsAvl) {key : K}
    (present : ∃ entry ∈ tree.entries, entry.key = key) (toDelete : Option (TreeEntry K V))
    (level : Nat) :
    ∃ scan, tree.getLocksRemoveRecursive key toDelete level = some scan ∧
      List.Forall₂ LockInfo.Foresees scan.locks (tree.removeCalls key) := by
  induction tree generalizing key toDelete level with
  | null => simp at present
  | node address left right height nodeKey value leftIh rightIh =>
      obtain ⟨-, -, below, above⟩ := ordered_node.mp isAvl.ordered
      obtain ⟨removed, isRemoved, -⟩ :=
        removeRecursive_spec isAvl.ordered isAvl.heightsOk key
      obtain ⟨scan, isScan, predicts⟩ :=
        getLocksRemoveRecursive_predicts isAvl present toDelete level isRemoved
      refine ⟨scan, isScan, ?_⟩
      rcases lt_trichotomy key nodeKey with before | rfl | after
      · have inLeft : ∃ entry ∈ left.entries, entry.key = key := by
          obtain ⟨entry, member, rfl⟩ := present
          rcases List.mem_append.mp member with inLeft | inRest
          · exact ⟨entry, inLeft, rfl⟩
          · rcases List.mem_cons.mp inRest with rfl | inRight
            · exact absurd before (lt_irrefl _)
            · exact absurd before (above entry inRight).not_gt
        obtain ⟨deeper, isDeeper, foresees⟩ :=
          leftIh isAvl.leftChild inLeft toDelete (level + 1)
        rw [getLocksRemoveRecursive_of_lt before, isDeeper, Option.map_some] at isScan
        obtain rfl := Option.some.inj isScan
        rw [removeCalls_of_lt before]
        exact List.Forall₂.cons (predicts.foresees isRemoved rfl) foresees
      · by_cases child : left = null ∨ right = null
        · have isTemp : ∃ temp, left = null ∧ temp = right ∨ right = null ∧ temp = left := by
            rcases child with isNull | isNull
            · exact ⟨right, Or.inl ⟨isNull, rfl⟩⟩
            · exact ⟨left, Or.inr ⟨isNull, rfl⟩⟩
          obtain ⟨temp, isTemp⟩ := isTemp
          rw [getLocksRemoveRecursive_of_child isTemp] at isScan
          obtain rfl := Option.some.inj isScan
          have noCall : (node address left right height key value).removeCalls key =
              [(node address left right height key value, key)] := by
            rcases isTemp with ⟨rfl, -⟩ | ⟨rfl, -⟩
            · simp [removeCalls]
            · cases left <;> simp [removeCalls]
          rw [noCall]
          exact List.Forall₂.cons (predicts.foresees isRemoved rfl) List.Forall₂.nil
        · obtain ⟨leftNonempty, rightNonempty⟩ := not_or.mp child
          obtain ⟨last, front, isLast, leftEntries⟩ := findMax_spec leftNonempty
          have lastMember : ∃ entry ∈ left.entries, entry.key = last.key :=
            ⟨last, by simp [leftEntries], rfl⟩
          obtain ⟨deeper, isDeeper, foresees⟩ :=
            leftIh isAvl.leftChild lastMember (some last) (level + 1)
          rw [getLocksRemoveRecursive_of_children toDelete level leftNonempty rightNonempty,
            isLast, Option.bind_some, isDeeper, Option.map_some] at isScan
          obtain rfl := Option.some.inj isScan
          have oneCall : (node address left right height key value).removeCalls key =
              (node address left right height key value, key) :: left.removeCalls last.key := by
            cases left with
            | null => exact absurd rfl leftNonempty
            | node _ _ _ _ _ _ =>
                cases right with
                | null => exact absurd rfl rightNonempty
                | node _ _ _ _ _ _ => simp [removeCalls, isLast]
          rw [oneCall]
          exact List.Forall₂.cons (predicts.foresees isRemoved rfl) foresees
      · have inRight : ∃ entry ∈ right.entries, entry.key = key := by
          obtain ⟨entry, member, rfl⟩ := present
          rcases List.mem_append.mp member with inLeft | inRest
          · exact absurd after (below entry inLeft).not_gt
          · rcases List.mem_cons.mp inRest with rfl | inRight
            · exact absurd after (lt_irrefl _)
            · exact ⟨entry, inRight, rfl⟩
        obtain ⟨deeper, isDeeper, foresees⟩ :=
          rightIh isAvl.rightChild inRight toDelete (level + 1)
        rw [getLocksRemoveRecursive_of_gt after, isDeeper, Option.map_some] at isScan
        obtain rfl := Option.some.inj isScan
        rw [removeCalls_of_gt after]
        exact List.Forall₂.cons (predicts.foresees isRemoved rfl) foresees

/-- `remove_recursive` may start at the node that `get_locks_remove` selects below the root,
and `get_locks_remove_recursive` predicts the heights on the search path. -/
theorem removeRecursive_at_getLocksRemove {tree : TreeNode K V} (isAvl : tree.IsAvl) {key : K}
    (present : ∃ entry ∈ tree.entries, entry.key = key) :
    (∀ writeLocked plan toLock, tree.getLocksRemove key writeLocked = some plan →
      plan.toLock = some toLock → tree.rootAddress ≠ some toLock →
      ∃ subtree removedBelow removed, tree.subtreeAt toLock = some subtree ∧
        subtree.removeRecursive key = some removedBelow ∧
        removedBelow.tree.rootAddress = some toLock ∧
        removedBelow.tree.height = subtree.height ∧
        tree.removeRecursive key = some removed ∧
        removed.tree = tree.replaceAt toLock removedBelow.tree ∧
        removed.rebalanced = removedBelow.rebalanced) ∧
    ∃ scan, tree.getLocksRemoveRecursive key none 0 = some scan ∧
      List.Forall₂ LockInfo.Foresees scan.locks (tree.removeCalls key) := by
  refine ⟨?_, getLocksRemoveRecursive_foresees isAvl present none 0⟩
  intro writeLocked plan toLock isPlan isLock below
  have nonempty : tree ≠ null := by
    rintro rfl
    simp at present
  cases writeLocked with
  | true =>
      cases tree with
      | null => exact absurd rfl nonempty
      | node address left right height nodeKey value =>
          obtain rfl := Option.some.inj isPlan
          exact absurd isLock below
  | false =>
      obtain ⟨removed, isRemoved, -⟩ :=
        removeRecursive_spec isAvl.ordered isAvl.heightsOk key
      obtain ⟨scan, isScan, predicts⟩ :=
        getLocksRemoveRecursive_predicts isAvl present none 0 isRemoved
      rw [getLocksRemove_of_nonempty nonempty, isScan, Option.map_some] at isPlan
      obtain rfl := Option.some.inj isPlan
      obtain ⟨pointer, isPointer, -, inPlace⟩ := predicts.inPlace_of_below isLock below.symm
      obtain rfl := Option.some.inj isPointer
      obtain ⟨subtree, after, isSubtree, operated, isRoot, sameHeight, isResult⟩ :=
        inPlace_keepsRoot inPlace
      obtain ⟨removedBelow, isRemovedBelow, isOut⟩ := Option.map_eq_some_iff.mp operated
      simp only [Prod.mk.injEq] at isOut
      obtain ⟨rfl, sameRebalanced⟩ := isOut
      exact ⟨subtree, removedBelow, removed, isSubtree, isRemovedBelow, isRoot, sameHeight,
        isRemoved, isResult, sameRebalanced.symm⟩

/-- The deletion of 2 changes the node 3, and may start at the node 10 two levels above it. -/
theorem removeRecursive_at_getLocksRemove_tallTree :
    ∃ subtree removedBelow removed, tallTree.subtreeAt 10 = some subtree ∧
      subtree.removeRecursive 2 = some removedBelow ∧
      removedBelow.tree.height = subtree.height ∧ tallTree.removeRecursive 2 = some removed ∧
      removed.tree = tallTree.replaceAt 10 removedBelow.tree := by
  have present : ∃ entry ∈ tallTree.entries, entry.key = 2 := ⟨⟨2, 2, 0⟩, by decide, rfl⟩
  have isLock : (tallTree.getLocksRemove 2 false).bind RemovePlan.toLock = some 10 := by
    decide
  obtain ⟨plan, isPlan, isLock⟩ := Option.bind_eq_some_iff.mp isLock
  obtain ⟨subtree, removedBelow, removed, isSubtree, isBelow, -, sameHeight, isRemoved,
    isResult, -⟩ := (removeRecursive_at_getLocksRemove tallTree_isAvl present).1 false plan 10
      isPlan isLock (by decide)
  exact ⟨subtree, removedBelow, removed, isSubtree, isBelow, sameHeight, isRemoved, isResult⟩

end TreeNode

end Pmgd
