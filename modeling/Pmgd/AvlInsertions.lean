import Pmgd.AvlLockPlans
import Pmgd.TreeWalk

/-!
# Insertions into trees that need not be balanced

An insertion in place drops the new root of the subtree in which it starts.  The subtree need not
be the whole tree, so nothing is lost when that subtree alone is balanced.
-/

namespace Pmgd

open SortedInsert

namespace TreeNode

variable {K V : Type*} [LinearOrder K]

/-- An insertion in place starts in a balanced subtree. -/
structure InsertionSafe (tree : TreeNode K V) (key : K) (writeLocked : Bool) : Prop where
  heightsOk : tree.HeightsOk
  balanced : ∀ retval toLock subtree, tree.getLocksAdd key writeLocked = (retval, some toLock) →
    0 ≤ retval → retval ≠ 1 → tree.subtreeAt toLock = some subtree → subtree.Balanced

/-- What a scan that has reached `level` says about an absent key, in a tree that need not be
balanced. -/
structure AddScan.StartsIn (scan : AddScan) (tree : TreeNode K V) (level : Nat)
    (operation : TreeNode K V → Option (TreeNode K V × Nat × Bool)) (added : Added K V) :
    Prop where
  retval_nonneg : 0 ≤ scan.retval
  nonempty : scan.here.ptrChangeForParent = false → tree ≠ null
  r_of_changed : tree ≠ null → scan.here.changed = true → scan.r = level - 1
  inPlace_of_unchanged : scan.here.changed = false → level ≤ scan.r ∧
    ∃ pointer subtree, scan.locks[scan.r - level]?.bind LockInfo.curr = some pointer ∧
      pointer ∈ tree.addresses ∧ tree.subtreeAt pointer = some subtree ∧
      (subtree.Balanced → scan.retval = added.tree.height ∧
        tree.inPlace pointer operation = some (added.tree, added.r, added.rebalanced))

omit [LinearOrder K] in
theorem AddScan.StartsIn.above {tree child : TreeNode K V} {address level : Nat} {height : Int}
    {below : AddScan} {operation : TreeNode K V → Option (TreeNode K V × Nat × Bool)}
    {addedChild added : Added K V} {lefth righth : Int}
    (starts : below.StartsIn child (level + 1) operation addedChild) (tall : 0 ≤ height)
    (grown : 0 ≤ max lefth righth + 1) (isRoot : tree.rootAddress = some address)
    (ofBalanced : tree.Balanced →
      (below.above address height lefth righth level).Predicts tree level operation added)
    (lifts : (lefth - righth) % 4 ≠ 2 → height = max lefth righth + 1 →
      ∀ pointer ∈ child.addresses,
        pointer ∈ tree.addresses ∧ tree.subtreeAt pointer = child.subtreeAt pointer ∧
          (below.retval = addedChild.tree.height →
            child.inPlace pointer operation =
              some (addedChild.tree, addedChild.r, addedChild.rebalanced) →
            max lefth righth + 1 = added.tree.height ∧
              tree.inPlace pointer operation = some (added.tree, added.r, added.rebalanced))) :
    (below.above address height lefth righth level).StartsIn tree level operation added := by
  have notFound : below.retval ≠ -1 := by
    have := starts.retval_nonneg
    omega
  have nonempty : tree ≠ null := by
    rintro rfl
    cases isRoot
  by_cases imbalance : (lefth - righth) % 4 = 2
  · simp only [AddScan.above, if_neg notFound, imbalance, decide_true, if_true, Bool.true_or]
    exact ⟨tall, fun _ => nonempty, fun _ _ => by simp [LockInfo.changed],
      by simp [LockInfo.changed]⟩
  · have isAbove : below.above address height lefth righth level =
        ⟨⟨some address, max lefth righth + 1, height ≠ max lefth righth + 1,
            below.here.ptrChangeForParent, false⟩, below.locks, max lefth righth + 1,
          if (height ≠ max lefth righth + 1) || below.here.ptrChangeForParent then level - 1
          else below.r⟩ := by
      simp only [AddScan.above, if_neg notFound, imbalance, decide_false, Bool.false_eq_true,
        if_false, Bool.false_or, LockInfo.changed, Bool.or_eq_true]
    refine ⟨by rw [isAbove]; exact grown, fun _ => nonempty, fun _ changed => ?_,
      fun unchanged => ?_⟩
    · rw [isAbove] at changed ⊢
      exact if_pos changed
    · have isStart := ofBalanced
      rw [isAbove] at unchanged isStart ⊢
      simp only [LockInfo.changed, Bool.or_eq_false_iff, decide_eq_false_iff_not, ne_eq, not_not]
        at unchanged
      obtain ⟨sameHeight, samePointer⟩ := unchanged
      have isR : (if (decide (height ≠ max lefth righth + 1) || below.here.ptrChangeForParent) = true
          then level - 1 else below.r) = below.r := if_neg (by simp [← sameHeight, samePointer])
      rw [isR] at isStart ⊢
      by_cases changed : below.here.changed = true
      · -- this is the lowest node that is not changed
        have isLevel : below.r = level :=
          starts.r_of_changed (starts.nonempty samePointer) changed
        refine ⟨isLevel.ge, address, tree, ?_, mem_addresses_of_rootAddress isRoot,
          subtreeAt_of_rootAddress isRoot, fun balanced => ?_⟩
        · rw [isLevel, Nat.sub_self]
          rfl
        · obtain ⟨isRetval, -, -, inPlace⟩ := isStart balanced
          obtain ⟨-, pointer, isPointer, -, isPlace⟩ :=
            inPlace (by simp [LockInfo.changed, ← sameHeight, samePointer])
          rw [isLevel, Nat.sub_self] at isPointer
          obtain rfl : address = pointer := Option.some.inj isPointer
          exact ⟨isRetval, isPlace⟩
      · obtain ⟨deeper, pointer, subtree, isPointer, member, isSubtree, inChild⟩ :=
          starts.inPlace_of_unchanged (by simpa using changed)
        obtain ⟨inTree, sameSubtree, inPlace⟩ := lifts imbalance sameHeight pointer member
        refine ⟨Nat.le_of_succ_le deeper, pointer, subtree, ?_, inTree,
          sameSubtree.trans isSubtree, fun balanced => ?_⟩
        · have isDeeper : below.r - level = below.r - (level + 1) + 1 := by omega
          rw [isDeeper, AddScan.locks, List.getElem?_cons_succ]
          exact isPointer
        · obtain ⟨isRetval, isPlace⟩ := inChild balanced
          exact inPlace isRetval isPlace

omit [LinearOrder K] in
theorem subtreeAt_left {address : Nat} {left right : TreeNode K V} {height : Int} {key : K}
    {value : V} (distinct : (node address left right height key value).addresses.Nodup)
    {pointer : Nat} (member : pointer ∈ left.addresses) :
    (node address left right height key value).subtreeAt pointer = left.subtreeAt pointer := by
  rw [addresses_node, List.nodup_middle, List.nodup_cons, List.nodup_append] at distinct
  obtain ⟨notElsewhere, -, -, disjoint⟩ := distinct
  have notHere : address ≠ pointer := fun same =>
    notElsewhere (List.mem_append_left _ (same ▸ member))
  have notRight : pointer ∉ right.addresses := fun onRight =>
    disjoint pointer member pointer onRight rfl
  rw [subtreeAt, if_neg notHere, subtreeAt_eq_none notRight, Option.or_none]

omit [LinearOrder K] in
theorem subtreeAt_right {address : Nat} {left right : TreeNode K V} {height : Int} {key : K}
    {value : V} (distinct : (node address left right height key value).addresses.Nodup)
    {pointer : Nat} (member : pointer ∈ right.addresses) :
    (node address left right height key value).subtreeAt pointer = right.subtreeAt pointer := by
  rw [addresses_node, List.nodup_middle, List.nodup_cons, List.nodup_append] at distinct
  obtain ⟨notElsewhere, -, -, disjoint⟩ := distinct
  have notHere : address ≠ pointer := fun same =>
    notElsewhere (List.mem_append_right _ (same ▸ member))
  have notLeft : pointer ∉ left.addresses := fun onLeft =>
    disjoint pointer onLeft pointer member rfl
  rw [subtreeAt, if_neg notHere, subtreeAt_eq_none notLeft, Option.none_or]

theorem getLocksAddRecursive_startsIn {tree : TreeNode K V} (ordered : tree.Ordered)
    (ok : tree.HeightsOk) (distinct : tree.addresses.Nodup) {key : K}
    (absent : ∀ entry ∈ tree.entries, entry.key ≠ key) (fresh : Nat) (initial : V)
    (r level : Nat) {added : Added K V}
    (isAdded : tree.addRecursive key fresh initial = some added) :
    (tree.getLocksAddRecursive key r level).StartsIn tree level
      (keepsRoot (addOperation key fresh initial)) added := by
  induction tree generalizing level added with
  | null => exact ⟨le_rfl, nofun, fun nonempty => absurd rfl nonempty, nofun⟩
  | node address left right height nodeKey value leftIh rightIh =>
      have ofBalanced (balanced : (node address left right height nodeKey value).Balanced) :=
        getLocksAddRecursive_predicts ⟨ordered, ok, balanced, distinct⟩ absent fresh initial r
          level isAdded
      obtain ⟨leftOrdered, rightOrdered, -, -⟩ := ordered_node.mp ordered
      obtain ⟨leftOk, rightOk, isHeight⟩ := ok
      have distinctChildren := distinct
      rw [addresses_node] at distinctChildren
      have leftTall := neg_one_le_height leftOk
      have rightTall := neg_one_le_height rightOk
      have distinctKey : key ≠ nodeKey := fun same =>
        absent ⟨address, nodeKey, value⟩ (by simp) same.symm
      rw [getLocksAddRecursive, if_neg distinctKey] at ofBalanced ⊢
      rcases lt_or_gt_of_ne distinctKey with before | after
      · rw [if_pos before] at ofBalanced ⊢
        obtain ⟨addedLeft, isAddedLeft, -⟩ :=
          addRecursive_spec leftOrdered leftOk key fresh initial
        have starts := leftIh leftOrdered leftOk distinctChildren.of_append_left
          (fun entry member => absent entry (List.mem_append_left _ member)) (level + 1)
          isAddedLeft
        apply starts.above (by omega) (by omega) rfl ofBalanced
        intro balance sameHeight pointer member
        refine ⟨by simp [member], subtreeAt_left distinct member, fun isRetval inChild => ?_⟩
        have near : addedLeft.tree.height - right.height ≠ 2 := by omega
        rw [addRecursive_of_lt before, isAddedLeft, Option.bind_some,
          balanceAddedLeft_of_ne near, Option.map_some, Option.some_inj] at isAdded
        rw [inPlace_left distinct member inChild, ← isAdded, sameHeight, isRetval]
        simp
      · rw [if_neg after.not_gt] at ofBalanced ⊢
        obtain ⟨addedRight, isAddedRight, -⟩ :=
          addRecursive_spec rightOrdered rightOk key fresh initial
        have starts := rightIh rightOrdered rightOk
          (List.nodup_cons.mp distinctChildren.of_append_right).2
          (fun entry member =>
            absent entry (List.mem_append_right _ (List.mem_cons_of_mem _ member)))
          (level + 1) isAddedRight
        apply starts.above (by omega) (by omega) rfl ofBalanced
        intro balance sameHeight pointer member
        refine ⟨by simp [member], subtreeAt_right distinct member, fun isRetval inChild => ?_⟩
        have near : left.height - addedRight.tree.height ≠ -2 := by omega
        rw [addRecursive_of_gt after, isAddedRight, Option.bind_some,
          balanceAddedRight_of_ne near, Option.map_some, Option.some_inj] at isAdded
        rw [inPlace_right distinct member inChild, ← isAdded, sameHeight, isRetval]
        simp

/-- `add` inserts the key, as `add_recursive` does from the root or because the key is there
already. -/
theorem add_of_safe {tree : TreeNode K V} (ordered : tree.Ordered)
    (distinct : tree.addresses.Nodup) {key : K} {writeLocked : Bool}
    (safe : tree.InsertionSafe key writeLocked) (fresh : Nat) (initial : V) :
    ∃ added, tree.add key fresh initial writeLocked = some added ∧
      (tree.addRecursive key fresh initial = some added ∨
        added.tree = tree ∧ added.rebalanced = false ∧
          ∃ value, ⟨added.r, key, value⟩ ∈ tree.entries) := by
  obtain ⟨added, isAdded, -⟩ := addRecursive_spec ordered safe.heightsOk key fresh initial
  by_cases isWhole : (tree.getLocksAdd key writeLocked).1 = 1
  · have whole := add_of_whole isWhole fresh initial
    exact ⟨added, whole.trans isAdded, Or.inl isAdded⟩
  · obtain ⟨nonempty, notTop, isPlan⟩ := getLocksAdd_of_ne_one isWhole
    by_cases present : ∃ entry ∈ tree.entries, entry.key = key
    · obtain ⟨⟨pointer, key, value⟩, member, rfl⟩ := present
      obtain ⟨found, -, isPointer⟩ := getLocksAddRecursive_of_present ordered member 0 0
      refine ⟨⟨tree, pointer, false⟩, ?_, Or.inr ⟨rfl, rfl, value, member⟩⟩
      rw [add, isPlan]
      simp only [found]
      rw [if_pos (by decide), ← Nat.sub_zero (AddScan.r _), isPointer, Option.map_some]
    · have absent : ∀ entry ∈ tree.entries, entry.key ≠ key := fun entry member same =>
        present ⟨entry, member, same⟩
      have starts := getLocksAddRecursive_startsIn ordered safe.heightsOk distinct absent fresh
        initial 0 0 isAdded
      have unchanged : (tree.getLocksAddRecursive key 0 0).here.changed = false := by
        by_contra changed
        exact notTop (starts.r_of_changed nonempty (by simpa using changed))
      obtain ⟨-, pointer, subtree, isPointer, -, isSubtree, ofBalanced⟩ :=
        starts.inPlace_of_unchanged unchanged
      rw [Nat.sub_zero] at isPointer
      rw [isPointer] at isPlan
      have notNegative := starts.retval_nonneg
      rw [isPlan] at isWhole
      obtain ⟨-, inPlace⟩ :=
        ofBalanced (safe.balanced _ _ _ isPlan notNegative isWhole isSubtree)
      refine ⟨added, ?_, Or.inl isAdded⟩
      rw [add, isPlan]
      dsimp only
      rw [if_neg (by omega), if_neg isWhole, Option.bind_some, inPlace_of_keepsRoot inPlace,
        Option.map_some]

end TreeNode

end Pmgd
