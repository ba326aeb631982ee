import Pmgd.AvlTree

/-!
# The balance of the AVL tree

An insertion into a balanced tree leaves it balanced.  A deletion does so exactly when it is
safe: on the way to the deleted node it does not shrink the right subtree of a node whose left
child is the higher one, has children of equal height, and leans to the right in its right
child.  There `remove_recursive` rotates twice, since `height(left) > height(right)` of the
left child fails, and the rotated left child is two levels deeper on its left.
-/

namespace Pmgd

open SortedInsert

namespace TreeNode

variable {K V : Type*}

/-- The heights of any two siblings differ by at most 1. -/
def Balanced : TreeNode K V → Prop
  | null => True
  | node _ left right _ _ _ =>
      left.Balanced ∧ right.Balanced ∧ -1 ≤ left.height - right.height ∧
        left.height - right.height ≤ 1

@[simp]
theorem balanced_null : (null : TreeNode K V).Balanced :=
  trivial

@[simp]
theorem balanced_node (address : Nat) (left right : TreeNode K V) (height : Int) (key : K)
    (value : V) :
    (node address left right height key value).Balanced ↔
      left.Balanced ∧ right.Balanced ∧ -1 ≤ left.height - right.height ∧
        left.height - right.height ≤ 1 :=
  Iff.rfl

/-! ## Insertion -/

section Add

variable [LinearOrder K]

/-- The subtree on the side of the key is the higher one. -/
def LeansTo (key : K) : TreeNode K V → Prop
  | null => False
  | node _ left right _ nodeKey _ =>
      key < nodeKey ∧ left.height = right.height + 1 ∨
        nodeKey < key ∧ right.height = left.height + 1

theorem balanceAddedLeft_of_ne {left right : TreeNode K V}
    (near : left.height - right.height ≠ 2) (key : K) (address : Nat) (height : Int)
    (nodeKey : K) (value : V) :
    balanceAddedLeft key address left right height nodeKey value =
      some (node address left right (max left.height right.height + 1) nodeKey value, false) := by
  unfold balanceAddedLeft
  rw [if_neg near, updateHeight]

theorem balanceAddedRight_of_ne {left right : TreeNode K V}
    (near : left.height - right.height ≠ -2) (key : K) (address : Nat) (height : Int)
    (nodeKey : K) (value : V) :
    balanceAddedRight key address left right height nodeKey value =
      some (node address left right (max left.height right.height + 1) nodeKey value, false) := by
  unfold balanceAddedRight
  rw [if_neg near, updateHeight]

theorem balanceAddedLeft_of_leansTo {left right : TreeNode K V} (leftOk : left.HeightsOk)
    (leftBalanced : left.Balanced) (rightBalanced : right.Balanced) {key : K}
    (leans : left.LeansTo key) (tooLarge : left.height - right.height = 2) (address : Nat)
    (height : Int) (nodeKey : K) (value : V) :
    ∃ result,
      balanceAddedLeft key address left right height nodeKey value = some (result, true) ∧
        result.Balanced ∧ result.height = left.height := by
  cases left with
  | null => exact leans.elim
  | node leftAddress outer inner leftHeight leftKey leftValue =>
      obtain ⟨outerOk, innerOk, isHeight⟩ := leftOk
      obtain ⟨outerBalanced, innerBalanced, -, -⟩ := leftBalanced
      unfold balanceAddedLeft
      rw [if_pos tooLarge]
      simp only [height_node] at tooLarge
      rcases leans with ⟨before, higher⟩ | ⟨after, higher⟩
      · simp only [gt_iff_lt, if_neg before.not_gt, rightRotate, Option.map_some]
        refine ⟨_, rfl, ?_, ?_⟩
        · simp only [updateHeight, balanced_node, height_node]
          exact ⟨outerBalanced, ⟨innerBalanced, rightBalanced, by omega, by omega⟩, by omega,
            by omega⟩
        · simp only [updateHeight, height_node]
          omega
      · have outerBound := neg_one_le_height outerOk
        obtain ⟨_, low, high, _, _, _, rfl⟩ := eq_node_of_height inner (by omega)
        obtain ⟨-, -, isInnerHeight⟩ := innerOk
        obtain ⟨lowBalanced, highBalanced, lowBound, highBound⟩ := innerBalanced
        simp only [height_node] at higher isHeight
        simp only [gt_iff_lt, if_pos after, rightleftRotate, leftRotate, rightRotate,
          Option.bind_some, Option.map_some]
        refine ⟨_, rfl, ?_, ?_⟩
        · simp only [updateHeight, balanced_node, height_node]
          exact ⟨⟨outerBalanced, lowBalanced, by omega, by omega⟩,
            ⟨highBalanced, rightBalanced, by omega, by omega⟩, by omega, by omega⟩
        · simp only [updateHeight, height_node]
          omega

theorem balanceAddedRight_of_leansTo {left right : TreeNode K V} (rightOk : right.HeightsOk)
    (leftBalanced : left.Balanced) (rightBalanced : right.Balanced) {key : K}
    (leans : right.LeansTo key) (tooLarge : left.height - right.height = -2) (address : Nat)
    (height : Int) (nodeKey : K) (value : V) :
    ∃ result,
      balanceAddedRight key address left right height nodeKey value = some (result, true) ∧
        result.Balanced ∧ result.height = right.height := by
  cases right with
  | null => exact leans.elim
  | node rightAddress inner outer rightHeight rightKey rightValue =>
      obtain ⟨innerOk, outerOk, isHeight⟩ := rightOk
      obtain ⟨innerBalanced, outerBalanced, -, -⟩ := rightBalanced
      unfold balanceAddedRight
      rw [if_pos tooLarge]
      simp only [height_node] at tooLarge
      rcases leans with ⟨before, higher⟩ | ⟨after, higher⟩
      · have outerBound := neg_one_le_height outerOk
        obtain ⟨_, low, high, _, _, _, rfl⟩ := eq_node_of_height inner (by omega)
        obtain ⟨-, -, isInnerHeight⟩ := innerOk
        obtain ⟨lowBalanced, highBalanced, lowBound, highBound⟩ := innerBalanced
        simp only [height_node] at higher isHeight
        simp only [if_pos before, leftrightRotate, leftRotate, rightRotate, Option.bind_some,
          Option.map_some]
        refine ⟨_, rfl, ?_, ?_⟩
        · simp only [updateHeight, balanced_node, height_node]
          exact ⟨⟨leftBalanced, lowBalanced, by omega, by omega⟩,
            ⟨highBalanced, outerBalanced, by omega, by omega⟩, by omega, by omega⟩
        · simp only [updateHeight, height_node]
          omega
      · simp only [if_neg after.not_gt, leftRotate, Option.map_some]
        refine ⟨_, rfl, ?_, ?_⟩
        · simp only [updateHeight, balanced_node, height_node]
          exact ⟨⟨leftBalanced, innerBalanced, by omega, by omega⟩, outerBalanced, by omega,
            by omega⟩
        · simp only [updateHeight, height_node]
          omega

/-- After an insertion the tree is balanced, and a tree that has grown leans to the key. -/
structure AddsBalanced (tree : TreeNode K V) (key : K) (result : TreeNode K V) : Prop where
  balanced : result.Balanced
  height : result.height = tree.height ∨
    result.height = tree.height + 1 ∧ (tree = null ∨ result.LeansTo key)

variable {address : Nat} {left right added : TreeNode K V} {height : Int} {nodeKey key : K}
  {value : V}

theorem balanceAddedLeft_cases
    (ok : (node address left right height nodeKey value).HeightsOk)
    (balanced : (node address left right height nodeKey value).Balanced)
    (addedOk : added.HeightsOk) (adds : AddsBalanced left key added) :
    added.height - right.height = 2 ∧
        (∃ result,
          balanceAddedLeft key address added right height nodeKey value = some (result, true) ∧
            result.Balanced ∧ result.height = height) ∨
      added.height - right.height ≠ 2 ∧
        balanceAddedLeft key address added right height nodeKey value =
          some (node address added right (max added.height right.height + 1) nodeKey value,
            false) := by
  obtain ⟨leftOk, rightOk, isHeight⟩ := ok
  obtain ⟨leftBalanced, rightBalanced, lowBound, highBound⟩ := balanced
  have rightBound := neg_one_le_height rightOk
  by_cases tooLarge : added.height - right.height = 2
  · -- The left subtree has grown, and it was not empty.
    have leans : added.LeansTo key := by
      rcases adds.height with same | ⟨grown, rfl | leans⟩
      · omega
      · rw [height_null] at grown
        omega
      · exact leans
    obtain ⟨result, isResult, resultBalanced, resultHeight⟩ :=
      balanceAddedLeft_of_leansTo addedOk adds.balanced rightBalanced leans tooLarge address
        height nodeKey value
    refine Or.inl ⟨tooLarge, result, isResult, resultBalanced, ?_⟩
    rcases adds.height with same | ⟨grown, -⟩
    · omega
    · omega
  · exact Or.inr ⟨tooLarge, balanceAddedLeft_of_ne tooLarge key address height nodeKey value⟩

theorem balanceAddedRight_cases
    (ok : (node address left right height nodeKey value).HeightsOk)
    (balanced : (node address left right height nodeKey value).Balanced)
    (addedOk : added.HeightsOk) (adds : AddsBalanced right key added) :
    left.height - added.height = -2 ∧
        (∃ result,
          balanceAddedRight key address left added height nodeKey value = some (result, true) ∧
            result.Balanced ∧ result.height = height) ∨
      left.height - added.height ≠ -2 ∧
        balanceAddedRight key address left added height nodeKey value =
          some (node address left added (max left.height added.height + 1) nodeKey value,
            false) := by
  obtain ⟨leftOk, rightOk, isHeight⟩ := ok
  obtain ⟨leftBalanced, rightBalanced, lowBound, highBound⟩ := balanced
  have leftBound := neg_one_le_height leftOk
  by_cases tooLarge : left.height - added.height = -2
  · have leans : added.LeansTo key := by
      rcases adds.height with same | ⟨grown, rfl | leans⟩
      · omega
      · rw [height_null] at grown
        omega
      · exact leans
    obtain ⟨result, isResult, resultBalanced, resultHeight⟩ :=
      balanceAddedRight_of_leansTo addedOk leftBalanced adds.balanced leans tooLarge address
        height nodeKey value
    refine Or.inl ⟨tooLarge, result, isResult, resultBalanced, ?_⟩
    rcases adds.height with same | ⟨grown, -⟩
    · omega
    · omega
  · exact Or.inr ⟨tooLarge, balanceAddedRight_of_ne tooLarge key address height nodeKey value⟩

theorem addRecursive_balanced {tree : TreeNode K V} (ordered : tree.Ordered)
    (ok : tree.HeightsOk) (balanced : tree.Balanced) (key : K) (fresh : Nat) (initial : V) :
    ∃ added, tree.addRecursive key fresh initial = some added ∧
      AddsBalanced tree key added.tree := by
  induction tree with
  | null =>
      refine ⟨_, rfl, by simp, Or.inr ⟨rfl, Or.inl rfl⟩⟩
  | node address left right height nodeKey value leftIh rightIh =>
      obtain ⟨leftOrdered, rightOrdered, -, -⟩ := ordered_node.mp ordered
      obtain ⟨leftOk, rightOk, isHeight⟩ := id ok
      obtain ⟨leftBalanced, rightBalanced, lowBound, highBound⟩ := id balanced
      rcases lt_trichotomy key nodeKey with before | rfl | after
      · obtain ⟨added, isAdded, adds⟩ := leftIh leftOrdered leftOk leftBalanced
        obtain ⟨_, isSame, -, addedOk, -⟩ :=
          addRecursive_spec leftOrdered leftOk key fresh initial
        obtain rfl := Option.some.inj (isAdded.symm.trans isSame)
        have grows := adds.height
        rw [addRecursive_of_lt before, isAdded, Option.bind_some]
        rcases balanceAddedLeft_cases ok balanced addedOk adds with
          ⟨tooLarge, result, isResult, resultBalanced, resultHeight⟩ | ⟨near, isResult⟩
        · exact ⟨_, by rw [isResult, Option.map_some], resultBalanced, Or.inl resultHeight⟩
        · refine ⟨_, by rw [isResult, Option.map_some], ?_, ?_⟩
          · exact ⟨adds.balanced, rightBalanced, by omega, by omega⟩
          · simp only [height_node, LeansTo]
            by_cases same : max added.tree.height right.height + 1 = height
            · exact Or.inl same
            · exact Or.inr ⟨by omega, Or.inr (Or.inl ⟨before, by omega⟩)⟩
      · exact ⟨_, by rw [addRecursive, if_pos rfl], balanced, Or.inl rfl⟩
      · obtain ⟨added, isAdded, adds⟩ := rightIh rightOrdered rightOk rightBalanced
        obtain ⟨_, isSame, -, addedOk, -⟩ :=
          addRecursive_spec rightOrdered rightOk key fresh initial
        obtain rfl := Option.some.inj (isAdded.symm.trans isSame)
        have grows := adds.height
        rw [addRecursive_of_gt after, isAdded, Option.bind_some]
        rcases balanceAddedRight_cases ok balanced addedOk adds with
          ⟨tooLarge, result, isResult, resultBalanced, resultHeight⟩ | ⟨near, isResult⟩
        · exact ⟨_, by rw [isResult, Option.map_some], resultBalanced, Or.inl resultHeight⟩
        · refine ⟨_, by rw [isResult, Option.map_some], ?_, ?_⟩
          · exact ⟨leftBalanced, adds.balanced, by omega, by omega⟩
          · simp only [height_node, LeansTo]
            by_cases same : max left.height added.tree.height + 1 = height
            · exact Or.inl same
            · exact Or.inr ⟨by omega, Or.inr (Or.inr ⟨after, by omega⟩)⟩

end Add

/-! ## Deletion -/

/-- `height(right) == height(left)` of a child. -/
def EvenChildren (child : TreeNode K V) : Prop :=
  child.right.height = child.left.height

instance (child : TreeNode K V) : Decidable child.EvenChildren :=
  inferInstanceAs (Decidable (_ = _))

/-- What `remove_recursive` makes of a node whose left child is too high. -/
structure RotatesRight (left right result : TreeNode K V) : Prop where
  height_of_even : left.EvenChildren → result.height = left.height + 1
  height_of_not_even : ¬ left.EvenChildren → result.height = left.height
  balanced_iff : result.Balanced ↔
    right.Balanced ∧ ¬ (left.EvenChildren ∧ left.right.left.height < left.right.right.height)

theorem balanceRemovedRight_of_ne {left right : TreeNode K V}
    (near : left.height - right.height ≠ 2) (address : Nat) (height : Int) (key : K)
    (value : V) :
    balanceRemovedRight address left right height key value =
      some (node address left right (max left.height right.height + 1) key value, false) := by
  unfold balanceRemovedRight
  rw [if_neg near, updateHeight]

theorem balanceRemovedLeft_of_ne {left right : TreeNode K V}
    (near : left.height - right.height ≠ -2) (address : Nat) (height : Int) (key : K)
    (value : V) :
    balanceRemovedLeft address left right height key value =
      some (node address left right (max left.height right.height + 1) key value, false) := by
  unfold balanceRemovedLeft
  rw [if_neg near, updateHeight]

/-- The rotation has the height that the children of the higher child say, whatever the balance
of the children. -/
theorem balanceRemovedRight_rotates {left right : TreeNode K V} (leftOk : left.HeightsOk)
    (rightOk : right.HeightsOk) (tooLarge : left.height - right.height = 2) (address : Nat)
    (height : Int) (key : K) (value : V) :
    ∃ result, balanceRemovedRight address left right height key value = some (result, true) ∧
      (left.EvenChildren → result.height = left.height + 1) ∧
      (¬ left.EvenChildren → result.height = left.height) ∧
      (left.Balanced → (result.Balanced ↔ right.Balanced ∧
        ¬ (left.EvenChildren ∧ left.right.left.height < left.right.right.height))) := by
  have rightBound := neg_one_le_height rightOk
  obtain ⟨_, outer, inner, leftHeight, _, _, rfl⟩ := eq_node_of_height left (by omega)
  obtain ⟨outerOk, innerOk, isHeight⟩ := leftOk
  unfold balanceRemovedRight
  rw [if_pos tooLarge]
  simp only [height_node] at tooLarge
  by_cases higher : outer.height > inner.height
  · simp only [if_pos higher, rightRotate, Option.map_some]
    refine ⟨_, rfl, ?_, ?_, ?_⟩
    · simp only [EvenChildren, left_node, right_node]
      omega
    · simp only [updateHeight, height_node]
      omega
    · rintro ⟨outerBalanced, innerBalanced, lowBound, highBound⟩
      simp only [updateHeight, balanced_node, height_node, EvenChildren, left_node, right_node]
      constructor
      · rintro ⟨-, ⟨-, rightBalanced, -⟩, -⟩
        exact ⟨rightBalanced, by omega⟩
      · rintro ⟨rightBalanced, -⟩
        exact ⟨outerBalanced, ⟨innerBalanced, rightBalanced, by omega, by omega⟩, by omega,
          by omega⟩
  · have outerBound := neg_one_le_height outerOk
    obtain ⟨_, low, high, _, _, _, rfl⟩ := eq_node_of_height inner (by omega)
    obtain ⟨lowOk, highOk, isInnerHeight⟩ := innerOk
    simp only [height_node] at higher isHeight
    simp only [height_node, gt_iff_lt, if_neg higher, rightleftRotate, leftRotate, rightRotate,
      Option.bind_some, Option.map_some]
    refine ⟨_, rfl, ?_, ?_, ?_⟩
    · simp only [EvenChildren, left_node, right_node, updateHeight, height_node]
      omega
    · simp only [EvenChildren, left_node, right_node, updateHeight, height_node]
      omega
    · rintro ⟨outerBalanced, ⟨lowBalanced, highBalanced, innerLow, innerHigh⟩, lowBound,
        highBound⟩
      simp only [updateHeight, balanced_node, height_node, EvenChildren, left_node, right_node]
        at lowBound highBound ⊢
      constructor
      · rintro ⟨⟨-, -, -, near⟩, ⟨-, rightBalanced, -⟩, -⟩
        exact ⟨rightBalanced, by omega⟩
      · rintro ⟨rightBalanced, safe⟩
        exact ⟨⟨outerBalanced, lowBalanced, by omega, by omega⟩,
          ⟨highBalanced, rightBalanced, by omega, by omega⟩, by omega, by omega⟩

theorem balanceRemovedRight_of_tooLarge {left right : TreeNode K V} (leftOk : left.HeightsOk)
    (rightOk : right.HeightsOk) (leftBalanced : left.Balanced)
    (tooLarge : left.height - right.height = 2) (address : Nat) (height : Int) (key : K)
    (value : V) :
    ∃ result, balanceRemovedRight address left right height key value = some (result, true) ∧
      RotatesRight left right result := by
  obtain ⟨result, isResult, even, uneven, balancedIff⟩ :=
    balanceRemovedRight_rotates leftOk rightOk tooLarge address height key value
  exact ⟨result, isResult, even, uneven, balancedIff leftBalanced⟩

/-- What `remove_recursive` makes of a node whose right child is too high. -/
structure RotatesLeft (left right result : TreeNode K V) : Prop where
  height_of_even : right.EvenChildren → result.height = right.height + 1
  height_of_not_even : ¬ right.EvenChildren → result.height = right.height
  balanced_iff : result.Balanced ↔ left.Balanced

theorem balanceRemovedLeft_rotates {left right : TreeNode K V} (leftOk : left.HeightsOk)
    (rightOk : right.HeightsOk) (tooLarge : left.height - right.height = -2) (address : Nat)
    (height : Int) (key : K) (value : V) :
    ∃ result, balanceRemovedLeft address left right height key value = some (result, true) ∧
      (right.EvenChildren → result.height = right.height + 1) ∧
      (¬ right.EvenChildren → result.height = right.height) ∧
      (right.Balanced → (result.Balanced ↔ left.Balanced)) := by
  have leftBound := neg_one_le_height leftOk
  obtain ⟨_, inner, outer, rightHeight, _, _, rfl⟩ :=
    eq_node_of_height right (by omega)
  obtain ⟨innerOk, outerOk, isHeight⟩ := rightOk
  unfold balanceRemovedLeft
  rw [if_pos tooLarge]
  simp only [height_node] at tooLarge
  by_cases higher : inner.height > outer.height
  · have outerBound := neg_one_le_height outerOk
    obtain ⟨_, low, high, _, _, _, rfl⟩ := eq_node_of_height inner (by omega)
    obtain ⟨lowOk, highOk, isInnerHeight⟩ := innerOk
    simp only [height_node] at higher isHeight
    simp only [height_node, gt_iff_lt, if_pos higher, leftrightRotate, leftRotate, rightRotate,
      Option.bind_some, Option.map_some]
    refine ⟨_, rfl, ?_, ?_, ?_⟩
    · simp only [EvenChildren, left_node, right_node, height_node]
      omega
    · simp only [updateHeight, height_node]
      omega
    · rintro ⟨⟨lowBalanced, highBalanced, innerLow, innerHigh⟩, outerBalanced, lowBound,
        highBound⟩
      simp only [updateHeight, balanced_node, height_node] at lowBound highBound ⊢
      constructor
      · rintro ⟨⟨leftBalanced, -⟩, -⟩
        exact leftBalanced
      · intro leftBalanced
        exact ⟨⟨leftBalanced, lowBalanced, by omega, by omega⟩,
          ⟨highBalanced, outerBalanced, by omega, by omega⟩, by omega, by omega⟩
  · simp only [if_neg higher, leftRotate, Option.map_some]
    refine ⟨_, rfl, ?_, ?_, ?_⟩
    · simp only [EvenChildren, left_node, right_node, updateHeight, height_node]
      omega
    · simp only [EvenChildren, left_node, right_node, updateHeight, height_node]
      omega
    · rintro ⟨innerBalanced, outerBalanced, lowBound, highBound⟩
      simp only [updateHeight, balanced_node, height_node]
      constructor
      · rintro ⟨⟨leftBalanced, -⟩, -⟩
        exact leftBalanced
      · intro leftBalanced
        exact ⟨⟨leftBalanced, innerBalanced, by omega, by omega⟩, outerBalanced, by omega,
          by omega⟩

theorem balanceRemovedLeft_of_tooLarge {left right : TreeNode K V} (leftOk : left.HeightsOk)
    (rightOk : right.HeightsOk) (rightBalanced : right.Balanced)
    (tooLarge : left.height - right.height = -2) (address : Nat) (height : Int) (key : K)
    (value : V) :
    ∃ result, balanceRemovedLeft address left right height key value = some (result, true) ∧
      RotatesLeft left right result := by
  obtain ⟨result, isResult, even, uneven, balancedIff⟩ :=
    balanceRemovedLeft_rotates leftOk rightOk tooLarge address height key value
  exact ⟨result, isResult, even, uneven, balancedIff rightBalanced⟩

/-- A node gets lower when this child does, next to its sibling. -/
def FollowsChild (child sibling : TreeNode K V) : Prop :=
  child.height > sibling.height ∨
    sibling.height = child.height + 1 ∧ ¬ sibling.EvenChildren

instance (child sibling : TreeNode K V) : Decidable (child.FollowsChild sibling) :=
  inferInstanceAs (Decidable (_ ∨ _))

section Remove

variable [LinearOrder K]

/-- The deletion of the key lowers the height of the tree. -/
def Shrinks : TreeNode K V → K → Prop
  | null, _ => False
  | node _ left right _ nodeKey _, key =>
      if key > nodeKey then
        right.Shrinks key ∧ right.FollowsChild left
      else if key = nodeKey then
        left = null ∨ right = null ∨
          (∀ last ∈ left.findMax, left.Shrinks last.key) ∧ left.FollowsChild right
      else
        left.Shrinks key ∧ left.FollowsChild right

/-- The deletion of the key does not shrink the right subtree of a node whose left child is
higher, has children of equal height, and a right child that leans to the right. -/
def RemovalSafe : TreeNode K V → K → Prop
  | null, _ => True
  | node _ left right _ nodeKey _, key =>
      if key > nodeKey then
        right.RemovalSafe key ∧
          ¬ (right.Shrinks key ∧ left.height = right.height + 1 ∧ left.EvenChildren ∧
            left.right.left.height < left.right.right.height)
      else if key = nodeKey then
        left = null ∨ right = null ∨ ∀ last ∈ left.findMax, left.RemovalSafe last.key
      else
        left.RemovalSafe key

theorem RemovalSafe.of_shrinks {tree : TreeNode K V} {key : K} (shrinks : tree.Shrinks key) :
    tree.RemovalSafe key := by
  induction tree generalizing key with
  | null => exact trivial
  | node address left right height nodeKey value leftIh rightIh =>
      unfold Shrinks at shrinks
      unfold RemovalSafe
      split_ifs at shrinks ⊢ with after same
      · obtain ⟨rightShrinks, follows⟩ := shrinks
        refine ⟨rightIh rightShrinks, ?_⟩
        rintro ⟨-, higher, even, -⟩
        rcases follows with lower | ⟨-, uneven⟩
        · omega
        · exact uneven even
      · exact shrinks.imp id (Or.imp id fun both last isLast => leftIh (both.1 last isLast))
      · exact leftIh shrinks.1

/-- What a deletion does to the height and to the balance. -/
structure RemovalOutcome (tree : TreeNode K V) (key : K) (result : TreeNode K V) : Prop where
  height_of_shrinks : tree.Shrinks key → result.height = tree.height - 1
  height_of_not_shrinks : ¬ tree.Shrinks key → result.height = tree.height
  balanced_iff : result.Balanced ↔ tree.RemovalSafe key

variable {address : Nat} {left right removed : TreeNode K V} {height : Int} {nodeKey key : K}
  {value : V}

/-- The outcome of a deletion in the left subtree, whatever entry the node has then. -/
theorem balanceRemovedLeft_outcome (ok : (node address left right height nodeKey value).HeightsOk)
    (balanced : (node address left right height nodeKey value).Balanced)
    (removedOk : removed.HeightsOk) (outcome : RemovalOutcome left key removed)
    (newKey : K) (newValue : V) :
    ∃ result rotated,
      balanceRemovedLeft address removed right height newKey newValue =
          some (result, rotated) ∧
        (left.Shrinks key ∧ left.FollowsChild right → result.height = height - 1) ∧
        (¬ (left.Shrinks key ∧ left.FollowsChild right) → result.height = height) ∧
        (result.Balanced ↔ left.RemovalSafe key) := by
  obtain ⟨leftOk, rightOk, isHeight⟩ := ok
  obtain ⟨leftBalanced, rightBalanced, lowBound, highBound⟩ := balanced
  rw [← outcome.balanced_iff]
  by_cases shrinks : left.Shrinks key
  · have lower := outcome.height_of_shrinks shrinks
    by_cases tooLarge : removed.height - right.height = -2
    · obtain ⟨result, isResult, evenHeight, unevenHeight, balancedIff⟩ :=
        balanceRemovedLeft_of_tooLarge removedOk rightOk rightBalanced tooLarge address height
          newKey newValue
      refine ⟨result, true, isResult, ?_, ?_, balancedIff⟩
      · rintro ⟨-, higher | ⟨-, uneven⟩⟩
        · omega
        · have := unevenHeight uneven
          omega
      · intro stays
        have even : right.EvenChildren := by
          by_contra uneven
          exact stays ⟨shrinks, Or.inr ⟨by omega, uneven⟩⟩
        have := evenHeight even
        omega
    · refine ⟨_, _, balanceRemovedLeft_of_ne tooLarge address height newKey newValue, ?_, ?_, ?_⟩
      · rintro ⟨-, higher | ⟨higher, -⟩⟩
        · rw [height_node]
          omega
        · omega
      · intro stays
        have notHigher : ¬ left.height > right.height := fun higher =>
          stays ⟨shrinks, Or.inl higher⟩
        rw [height_node]
        omega
      · rw [balanced_node]
        exact ⟨fun all => all.1, fun isBalanced => ⟨isBalanced, rightBalanced, by omega, by omega⟩⟩
  · have same := outcome.height_of_not_shrinks shrinks
    refine ⟨_, _, balanceRemovedLeft_of_ne (by omega) address height newKey newValue,
      fun both => absurd both.1 shrinks, fun _ => ?_, ?_⟩
    · rw [height_node, isHeight, same]
    · rw [balanced_node]
      exact ⟨fun all => all.1, fun isBalanced => ⟨isBalanced, rightBalanced, by omega, by omega⟩⟩

/-- The outcome of a deletion in the right subtree. -/
theorem balanceRemovedRight_outcome
    (ok : (node address left right height nodeKey value).HeightsOk)
    (balanced : (node address left right height nodeKey value).Balanced)
    (removedOk : removed.HeightsOk) (outcome : RemovalOutcome right key removed) :
    ∃ result rotated,
      balanceRemovedRight address left removed height nodeKey value = some (result, rotated) ∧
        (right.Shrinks key ∧ right.FollowsChild left → result.height = height - 1) ∧
        (¬ (right.Shrinks key ∧ right.FollowsChild left) → result.height = height) ∧
        (result.Balanced ↔ right.RemovalSafe key ∧
          ¬ (right.Shrinks key ∧ left.height = right.height + 1 ∧ left.EvenChildren ∧
            left.right.left.height < left.right.right.height)) := by
  obtain ⟨leftOk, rightOk, isHeight⟩ := ok
  obtain ⟨leftBalanced, rightBalanced, lowBound, highBound⟩ := balanced
  rw [← outcome.balanced_iff]
  by_cases shrinks : right.Shrinks key
  · have lower := outcome.height_of_shrinks shrinks
    by_cases tooLarge : left.height - removed.height = 2
    · obtain ⟨result, isResult, evenHeight, unevenHeight, balancedIff⟩ :=
        balanceRemovedRight_of_tooLarge leftOk removedOk leftBalanced tooLarge address height
          nodeKey value
      refine ⟨result, true, isResult, ?_, ?_, ?_⟩
      · rintro ⟨-, higher | ⟨-, uneven⟩⟩
        · omega
        · have := unevenHeight uneven
          omega
      · intro stays
        have even : left.EvenChildren := by
          by_contra uneven
          exact stays ⟨shrinks, Or.inr ⟨by omega, uneven⟩⟩
        have := evenHeight even
        omega
      · have higher : left.height = right.height + 1 := by omega
        simpa [shrinks, higher] using balancedIff
    · refine ⟨_, _, balanceRemovedRight_of_ne tooLarge address height nodeKey value, ?_, ?_, ?_⟩
      · rintro ⟨-, higher | ⟨higher, -⟩⟩
        · rw [height_node]
          omega
        · omega
      · intro stays
        have notHigher : ¬ right.height > left.height := fun higher =>
          stays ⟨shrinks, Or.inl higher⟩
        rw [height_node]
        omega
      · rw [balanced_node]
        exact ⟨fun all => ⟨all.2.1, fun unsafeRemoval => by omega⟩,
          fun safe => ⟨leftBalanced, safe.1, by omega, by omega⟩⟩
  · have same := outcome.height_of_not_shrinks shrinks
    refine ⟨_, _, balanceRemovedRight_of_ne (by omega) address height nodeKey value,
      fun both => absurd both.1 shrinks, fun _ => ?_, ?_⟩
    · rw [height_node, isHeight, same]
    · rw [balanced_node]
      exact ⟨fun all => ⟨all.2.1, fun unsafeRemoval => shrinks unsafeRemoval.1⟩,
        fun safe => ⟨leftBalanced, safe.1, by omega, by omega⟩⟩

theorem removeRecursive_outcome {tree : TreeNode K V} (ordered : tree.Ordered)
    (ok : tree.HeightsOk) (balanced : tree.Balanced) (key : K) :
    ∃ removed, tree.removeRecursive key = some removed ∧
      RemovalOutcome tree key removed.tree := by
  induction tree generalizing key with
  | null => exact ⟨_, rfl, False.elim, fun _ => rfl, iff_of_true trivial trivial⟩
  | node address left right height nodeKey value leftIh rightIh =>
      obtain ⟨leftOrdered, rightOrdered, -, -⟩ := ordered_node.mp ordered
      obtain ⟨leftOk, rightOk, isHeight⟩ := id ok
      obtain ⟨leftBalanced, rightBalanced, lowBound, highBound⟩ := id balanced
      rcases lt_trichotomy key nodeKey with before | rfl | after
      · obtain ⟨removed, isRemoved, outcome⟩ := leftIh leftOrdered leftOk leftBalanced key
        obtain ⟨_, isSame, deletes⟩ := removeRecursive_spec leftOrdered leftOk key
        obtain rfl := Option.some.inj (isRemoved.symm.trans isSame)
        obtain ⟨result, rotated, isResult, lower, same, balancedIff⟩ :=
          balanceRemovedLeft_outcome ok balanced deletes.heightsOk outcome nodeKey value
        refine ⟨_, by rw [removeRecursive_of_lt before, isRemoved, Option.bind_some, isResult,
          Option.map_some], ?_, ?_, ?_⟩
        · simpa [Shrinks, before.not_gt, before.ne] using lower
        · simpa [Shrinks, before.not_gt, before.ne] using same
        · simpa [RemovalSafe, before.not_gt, before.ne] using balancedIff
      · by_cases child : left = null ∨ right = null
        · obtain ⟨temp, isRemoved, isTemp⟩ :=
            removeRecursive_of_child address height key value child
          have shrinks : (node address left right height key value).Shrinks key := by
            simpa [Shrinks, or_assoc] using Or.inl child
          refine ⟨_, isRemoved, fun _ => ?_, fun keeps => absurd shrinks keeps, ?_⟩
          · rcases isTemp with ⟨rfl, rfl⟩ | ⟨rfl, rfl⟩
            · have := neg_one_le_height rightOk
              simp only [height_null, height_node] at isHeight ⊢
              omega
            · have := neg_one_le_height leftOk
              simp only [height_null, height_node] at isHeight ⊢
              omega
          · refine iff_of_true ?_ (RemovalSafe.of_shrinks shrinks)
            rcases isTemp with ⟨-, rfl⟩ | ⟨-, rfl⟩
            · exact rightBalanced
            · exact leftBalanced
        · obtain ⟨leftNonempty, rightNonempty⟩ := not_or.mp child
          obtain ⟨last, -, isLast, -⟩ := findMax_spec leftNonempty
          obtain ⟨removed, isRemoved, outcome⟩ :=
            leftIh leftOrdered leftOk leftBalanced last.key
          obtain ⟨_, isSame, deletes⟩ := removeRecursive_spec leftOrdered leftOk last.key
          obtain rfl := Option.some.inj (isRemoved.symm.trans isSame)
          obtain ⟨result, rotated, isResult, lower, same, balancedIff⟩ :=
            balanceRemovedLeft_outcome ok balanced deletes.heightsOk outcome last.key last.value
          refine ⟨_, by rw [removeRecursive_of_children address height key value leftNonempty
            rightNonempty, isLast, Option.bind_some, isRemoved, Option.bind_some, isResult,
            Option.map_some], ?_, ?_, ?_⟩
          · simpa [Shrinks, leftNonempty, rightNonempty, isLast] using lower
          · simpa [Shrinks, leftNonempty, rightNonempty, isLast] using same
          · simpa [RemovalSafe, leftNonempty, rightNonempty, isLast] using balancedIff
      · obtain ⟨removed, isRemoved, outcome⟩ := rightIh rightOrdered rightOk rightBalanced key
        obtain ⟨_, isSame, deletes⟩ := removeRecursive_spec rightOrdered rightOk key
        obtain rfl := Option.some.inj (isRemoved.symm.trans isSame)
        obtain ⟨result, rotated, isResult, lower, same, balancedIff⟩ :=
          balanceRemovedRight_outcome ok balanced deletes.heightsOk outcome
        refine ⟨_, by rw [removeRecursive_of_gt after, isRemoved, Option.bind_some, isResult,
          Option.map_some], ?_, ?_, ?_⟩
        · simpa [Shrinks, after] using lower
        · simpa [Shrinks, after] using same
        · simpa [RemovalSafe, after] using balancedIff

theorem RemovalOutcome.height_bounds {tree result : TreeNode K V} {key : K}
    (outcome : RemovalOutcome tree key result) :
    tree.height - 1 ≤ result.height ∧ result.height ≤ tree.height := by
  by_cases shrinks : tree.Shrinks key
  · have := outcome.height_of_shrinks shrinks
    omega
  · have := outcome.height_of_not_shrinks shrinks
    omega

omit [LinearOrder K] in
theorem balanceRemovedLeft_cases
    (ok : (node address left right height nodeKey value).HeightsOk)
    (removedOk : removed.HeightsOk)
    (bounds : left.height - 1 ≤ removed.height ∧ removed.height ≤ left.height)
    (newKey : K) (newValue : V) :
    right.height - removed.height = 2 ∧
        (∃ result,
          balanceRemovedLeft address removed right height newKey newValue =
              some (result, true) ∧
            result.height = if right.EvenChildren then height else height - 1) ∨
      right.height - removed.height ≠ 2 ∧
        balanceRemovedLeft address removed right height newKey newValue =
          some (node address removed right (max right.height removed.height + 1) newKey newValue,
            false) := by
  obtain ⟨leftOk, rightOk, isHeight⟩ := ok
  by_cases tooLarge : removed.height - right.height = -2
  · obtain ⟨result, isResult, evenHeight, unevenHeight, -⟩ :=
      balanceRemovedLeft_rotates removedOk rightOk tooLarge address height newKey newValue
    refine Or.inl ⟨by omega, result, isResult, ?_⟩
    split_ifs with even
    · have := evenHeight even
      omega
    · have := unevenHeight even
      omega
  · refine Or.inr ⟨by omega, ?_⟩
    rw [max_comm]
    exact balanceRemovedLeft_of_ne tooLarge address height newKey newValue

omit [LinearOrder K] in
theorem balanceRemovedRight_cases
    (ok : (node address left right height nodeKey value).HeightsOk)
    (removedOk : removed.HeightsOk)
    (bounds : right.height - 1 ≤ removed.height ∧ removed.height ≤ right.height) :
    left.height - removed.height = 2 ∧
        (∃ result,
          balanceRemovedRight address left removed height nodeKey value =
              some (result, true) ∧
            result.height = if left.EvenChildren then height else height - 1) ∨
      left.height - removed.height ≠ 2 ∧
        balanceRemovedRight address left removed height nodeKey value =
          some (node address left removed (max left.height removed.height + 1) nodeKey value,
            false) := by
  obtain ⟨leftOk, rightOk, isHeight⟩ := ok
  by_cases tooLarge : left.height - removed.height = 2
  · obtain ⟨result, isResult, evenHeight, unevenHeight, -⟩ :=
      balanceRemovedRight_rotates leftOk removedOk tooLarge address height nodeKey value
    refine Or.inl ⟨tooLarge, result, isResult, ?_⟩
    split_ifs with even
    · have := evenHeight even
      omega
    · have := unevenHeight even
      omega
  · exact Or.inr ⟨tooLarge, balanceRemovedRight_of_ne tooLarge address height nodeKey value⟩

/-- A deletion lowers a tree by one level at most, also where the tree is not balanced. -/
theorem removeRecursive_height_bounds {tree : TreeNode K V} (ordered : tree.Ordered)
    (ok : tree.HeightsOk) (key : K) {removed : Removed K V}
    (isRemoved : tree.removeRecursive key = some removed) :
    tree.height - 1 ≤ removed.tree.height ∧ removed.tree.height ≤ tree.height := by
  induction tree generalizing key removed with
  | null =>
      obtain rfl := Option.some.inj isRemoved
      exact ⟨by simp, le_rfl⟩
  | node address left right height nodeKey value leftIh rightIh =>
      obtain ⟨leftOrdered, rightOrdered, -, -⟩ := ordered_node.mp ordered
      obtain ⟨leftOk, rightOk, isHeight⟩ := id ok
      have ofLeft : ∀ (leftKey newKey : K) (newValue : V) (leftRemoved : Removed K V),
          left.removeRecursive leftKey = some leftRemoved →
          ((balanceRemovedLeft address leftRemoved.tree right height newKey newValue).map
            fun result => (⟨result.1, leftRemoved.freed,
              leftRemoved.rebalanced || result.2⟩ : Removed K V)) = some removed →
          height - 1 ≤ removed.tree.height ∧ removed.tree.height ≤ height := by
        intro leftKey newKey newValue leftRemoved isLeft isResult
        obtain ⟨_, isSame, deletes⟩ := removeRecursive_spec leftOrdered leftOk leftKey
        obtain rfl := Option.some.inj (isLeft.symm.trans isSame)
        have bounds := leftIh leftOrdered leftOk leftKey isLeft
        rcases balanceRemovedLeft_cases ok deletes.heightsOk bounds newKey newValue with
          ⟨-, result, isBalanced, resultHeight⟩ | ⟨near, isBalanced⟩
        · rw [isBalanced, Option.map_some, Option.some.injEq] at isResult
          rw [← isResult, resultHeight]
          split <;> omega
        · rw [isBalanced, Option.map_some, Option.some.injEq] at isResult
          rw [← isResult, height_node]
          omega
      rcases lt_trichotomy key nodeKey with before | rfl | after
      · obtain ⟨leftRemoved, isLeft, -⟩ := removeRecursive_spec leftOrdered leftOk key
        rw [removeRecursive_of_lt before, isLeft, Option.bind_some] at isRemoved
        exact ofLeft key nodeKey value leftRemoved isLeft isRemoved
      · by_cases child : left = null ∨ right = null
        · obtain ⟨temp, isChild, isTemp⟩ :=
            removeRecursive_of_child address height key value child
          obtain rfl := Option.some.inj (isChild.symm.trans isRemoved)
          have leftBound := neg_one_le_height leftOk
          have rightBound := neg_one_le_height rightOk
          rcases isTemp with ⟨rfl, rfl⟩ | ⟨rfl, rfl⟩
          · simp only [height_null, height_node] at isHeight ⊢
            omega
          · simp only [height_null, height_node] at isHeight ⊢
            omega
        · obtain ⟨leftNonempty, rightNonempty⟩ := not_or.mp child
          obtain ⟨last, -, isLast, -⟩ := findMax_spec leftNonempty
          obtain ⟨leftRemoved, isLeft, -⟩ := removeRecursive_spec leftOrdered leftOk last.key
          rw [removeRecursive_of_children address height key value leftNonempty rightNonempty,
            isLast, Option.bind_some, isLeft, Option.bind_some] at isRemoved
          exact ofLeft last.key last.key last.value leftRemoved isLeft isRemoved
      · obtain ⟨rightRemoved, isRight, deletes⟩ := removeRecursive_spec rightOrdered rightOk key
        rw [removeRecursive_of_gt after, isRight, Option.bind_some] at isRemoved
        have bounds := rightIh rightOrdered rightOk key isRight
        rcases balanceRemovedRight_cases ok deletes.heightsOk bounds with
          ⟨-, result, isBalanced, resultHeight⟩ | ⟨near, isBalanced⟩
        · rw [isBalanced, Option.map_some, Option.some.injEq] at isRemoved
          rw [← isRemoved, resultHeight, height_node]
          split <;> omega
        · rw [isBalanced, Option.map_some, Option.some.injEq] at isRemoved
          rw [← isRemoved, height_node, height_node]
          omega

/-! ## Balanced search trees -/

/-- A search tree with right heights, balanced, and with nodes at different addresses. -/
structure IsAvl (tree : TreeNode K V) : Prop where
  ordered : tree.Ordered
  heightsOk : tree.HeightsOk
  balanced : tree.Balanced
  distinct : tree.addresses.Nodup

theorem IsAvl.null : (null : TreeNode K V).IsAvl where
  ordered := List.Pairwise.nil
  heightsOk := trivial
  balanced := trivial
  distinct := List.nodup_nil

theorem IsAvl.leftChild (isAvl : (node address left right height nodeKey value).IsAvl) :
    left.IsAvl where
  ordered := (ordered_node.mp isAvl.ordered).1
  heightsOk := isAvl.heightsOk.1
  balanced := isAvl.balanced.1
  distinct := by
    have distinct := isAvl.distinct
    rw [addresses_node] at distinct
    exact distinct.sublist (List.sublist_append_left _ _)

theorem IsAvl.rightChild (isAvl : (node address left right height nodeKey value).IsAvl) :
    right.IsAvl where
  ordered := (ordered_node.mp isAvl.ordered).2.1
  heightsOk := isAvl.heightsOk.2.1
  balanced := isAvl.balanced.2.1
  distinct := by
    have distinct := isAvl.distinct
    rw [addresses_node] at distinct
    exact distinct.sublist
      ((List.sublist_cons_self _ _).trans (List.sublist_append_right _ _))

theorem addRecursive_isAvl {tree : TreeNode K V} (isAvl : tree.IsAvl) (key : K) {fresh : Nat}
    (unused : fresh ∉ tree.addresses) (initial : V) :
    ∃ added, tree.addRecursive key fresh initial = some added ∧ added.tree.IsAvl ∧
      added.tree.entries = insertBy TreeEntry.key ⟨fresh, key, initial⟩ tree.entries ∧
      ∃ value, ⟨added.r, key, value⟩ ∈ added.tree.entries := by
  obtain ⟨added, isAdded, addedEntries, addedOk, points⟩ :=
    addRecursive_spec isAvl.ordered isAvl.heightsOk key fresh initial
  obtain ⟨_, isSame, adds⟩ :=
    addRecursive_balanced isAvl.ordered isAvl.heightsOk isAvl.balanced key fresh initial
  obtain rfl := Option.some.inj (isAdded.symm.trans isSame)
  refine ⟨added, isAdded, ⟨?_, addedOk, adds.balanced, ?_⟩, addedEntries, points⟩
  · rw [Ordered, addedEntries]
    exact sortedBy_insertBy isAvl.ordered
  · rw [addresses, addedEntries]
    by_cases present : ∃ other ∈ tree.entries, key = other.key
    · obtain ⟨other, member, same⟩ := present
      rw [insertBy_of_mem isAvl.ordered member same]
      exact isAvl.distinct
    · have absent : ∀ other ∈ tree.entries,
          TreeEntry.key (⟨fresh, key, initial⟩ : TreeEntry K V) ≠ other.key :=
        fun other member same => present ⟨other, member, same⟩
      have perm := insertBy_perm absent
      rw [(perm.map TreeEntry.address).nodup_iff, List.map_cons, List.nodup_cons]
      exact ⟨unused, isAvl.distinct⟩

/-- A deletion leaves such a tree exactly when it is safe. -/
theorem removeRecursive_isAvl_iff {tree : TreeNode K V} (isAvl : tree.IsAvl) (key : K) :
    ∃ removed, tree.removeRecursive key = some removed ∧ Deletes tree key removed ∧
      (removed.tree.Balanced ↔ tree.RemovalSafe key) ∧
      (removed.tree.Balanced → removed.tree.IsAvl) := by
  obtain ⟨removed, isRemoved, deletes⟩ :=
    removeRecursive_spec isAvl.ordered isAvl.heightsOk key
  obtain ⟨_, isSame, outcome⟩ :=
    removeRecursive_outcome isAvl.ordered isAvl.heightsOk isAvl.balanced key
  obtain rfl := Option.some.inj (isRemoved.symm.trans isSame)
  refine ⟨removed, isRemoved, deletes, outcome.balanced_iff, fun balanced =>
    ⟨?_, deletes.heightsOk, balanced, ?_⟩⟩
  · rw [ordered_iff_toList, deletes.toList_eq]
    exact sortedBy_eraseBy (ordered_iff_toList.mp isAvl.ordered) key
  · exact deletes.distinct isAvl.distinct

end Remove

end TreeNode

end Pmgd
