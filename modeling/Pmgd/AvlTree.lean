import Mathlib.Tactic.Common
import Pmgd.Lib.SortedInsert

/-!
# The AVL tree of an index

`add_recursive` and `remove_recursive` walk down the tree and rebalance it on the way back,
with four rotations.  This file has both functions and shows that on any search tree with
correct heights they act on the in-order list as insertion and deletion, whatever the balance
of the tree: no rotation and no copy of a predecessor follows a `NULL` pointer.
-/

namespace Pmgd

open SortedInsert

/-- A pointer to a tree node: `NULL`, or the address of the node with its fields. -/
inductive TreeNode (K V : Type*)
  | null
  | node (address : Nat) (left right : TreeNode K V) (height : Int) (key : K) (value : V)
  deriving DecidableEq, Repr

/-- What a node holds for its key, and where. -/
structure TreeEntry (K V : Type*) where
  address : Nat
  key : K
  value : V
  deriving DecidableEq, Repr

namespace TreeNode

variable {K V : Type*}

def height : TreeNode K V → Int
  | null => -1
  | node _ _ _ height _ _ => height

/-- `left`. -/
def left : TreeNode K V → TreeNode K V
  | null => null
  | node _ left _ _ _ _ => left

/-- `right`. -/
def right : TreeNode K V → TreeNode K V
  | null => null
  | node _ _ right _ _ _ => right

/-- The entries in order. -/
def entries : TreeNode K V → List (TreeEntry K V)
  | null => []
  | node address left right _ key value =>
      left.entries ++ ⟨address, key, value⟩ :: right.entries

/-- The in-order sequence of keys and values. -/
def toList (tree : TreeNode K V) : List (K × V) :=
  tree.entries.map fun entry => (entry.key, entry.value)

def addresses (tree : TreeNode K V) : List Nat :=
  tree.entries.map TreeEntry.address

/-- The stored heights are right. -/
def HeightsOk : TreeNode K V → Prop
  | null => True
  | node _ left right stored _ _ =>
      left.HeightsOk ∧ right.HeightsOk ∧ stored = max left.height right.height + 1

/-- The keys ascend in order, without repetition. -/
def Ordered [LinearOrder K] (tree : TreeNode K V) : Prop :=
  SortedBy TreeEntry.key tree.entries

/-! ## Rotations -/

/-- `height = max(height(left), height(right)) + 1`. -/
def updateHeight : TreeNode K V → TreeNode K V
  | null => null
  | node address left right _ key value =>
      node address left right (max left.height right.height + 1) key value

/-- `left_rotate`; `none` is a `NULL` dereference, here and below. -/
def leftRotate : TreeNode K V → Option (TreeNode K V)
  | node address left (node rootAddress inner outer _ rootKey rootValue) _ key value =>
      some (node rootAddress
        (node address left inner (max left.height inner.height + 1) key value) outer
        (max (max left.height inner.height + 1) outer.height + 1) rootKey rootValue)
  | _ => none

/-- `right_rotate`. -/
def rightRotate : TreeNode K V → Option (TreeNode K V)
  | node address (node rootAddress outer inner _ rootKey rootValue) right _ key value =>
      some (node rootAddress outer
        (node address inner right (max inner.height right.height + 1) key value)
        (max (max inner.height right.height + 1) outer.height + 1) rootKey rootValue)
  | _ => none

/-- `leftright_rotate`: rotate the right child to the right, then the node to the left. -/
def leftrightRotate : TreeNode K V → Option (TreeNode K V)
  | null => none
  | node address left right height key value =>
      right.rightRotate.bind fun right =>
        (node address left right height key value).leftRotate

/-- `rightleft_rotate`. -/
def rightleftRotate : TreeNode K V → Option (TreeNode K V)
  | null => none
  | node address left right height key value =>
      left.leftRotate.bind fun left =>
        (node address left right height key value).rightRotate

/-! ## Insertion -/

section Add

variable [LinearOrder K]

/-- The result of `add_recursive`: the new subtree, the node whose value `r` points to, and
whether anything was rotated. -/
structure Added (K V : Type*) where
  tree : TreeNode K V
  r : Nat
  rebalanced : Bool

/-- Rebalance a node after the insertion of a key on its left, and set its height. -/
def balanceAddedLeft (key : K) (address : Nat) (left right : TreeNode K V) (height : Int)
    (nodeKey : K) (value : V) : Option (TreeNode K V × Bool) :=
  let curr := node address left right height nodeKey value
  if left.height - right.height = 2 then
    match left with
    | null => none
    | node _ _ _ _ leftKey _ =>
        (if key > leftKey then curr.rightleftRotate else curr.rightRotate).map
          fun curr => (curr.updateHeight, true)
  else
    some (curr.updateHeight, false)

/-- Rebalance a node after the insertion of a key on its right, and set its height. -/
def balanceAddedRight (key : K) (address : Nat) (left right : TreeNode K V) (height : Int)
    (nodeKey : K) (value : V) : Option (TreeNode K V × Bool) :=
  let curr := node address left right height nodeKey value
  if left.height - right.height = -2 then
    match right with
    | null => none
    | node _ _ _ _ rightKey _ =>
        (if key < rightKey then curr.leftrightRotate else curr.leftRotate).map
          fun curr => (curr.updateHeight, true)
  else
    some (curr.updateHeight, false)

/-- `add_recursive`, with the address of the new allocation and the value it is constructed
with. -/
def addRecursive (key : K) (fresh : Nat) (initial : V) :
    TreeNode K V → Option (Added K V)
  | null => some ⟨node fresh null null 0 key initial, fresh, false⟩
  | node address left right height nodeKey value =>
      if key = nodeKey then
        some ⟨node address left right height nodeKey value, address, false⟩
      else if key < nodeKey then
        (left.addRecursive key fresh initial).bind fun added =>
          (balanceAddedLeft key address added.tree right height nodeKey value).map
            fun (curr, rotated) => ⟨curr, added.r, added.rebalanced || rotated⟩
      else
        (right.addRecursive key fresh initial).bind fun added =>
          (balanceAddedRight key address left added.tree height nodeKey value).map
            fun (curr, rotated) => ⟨curr, added.r, added.rebalanced || rotated⟩

end Add

/-! ## Deletion -/

section Remove

variable [LinearOrder K]

/-- `find_max`. -/
def findMax : TreeNode K V → Option (TreeEntry K V)
  | null => none
  | node address _ null _ key value => some ⟨address, key, value⟩
  | node _ _ right _ _ _ => right.findMax

/-- The result of `remove_recursive`: the new subtree, the node that was freed, and whether
anything was rotated. -/
structure Removed (K V : Type*) where
  tree : TreeNode K V
  freed : Option Nat
  rebalanced : Bool

/-- Left tree too large?  Rebalance a node after a deletion on its right. -/
def balanceRemovedRight (address : Nat) (left right : TreeNode K V) (height : Int) (key : K)
    (value : V) : Option (TreeNode K V × Bool) :=
  let curr := node address left right height key value
  if left.height - right.height = 2 then
    match left with
    | null => none
    | node _ outer inner _ _ _ =>
        (if outer.height > inner.height then curr.rightRotate else curr.rightleftRotate).map
          fun curr => (curr.updateHeight, true)
  else
    some (curr.updateHeight, false)

/-- Right tree too large?  Rebalance a node after a deletion on its left. -/
def balanceRemovedLeft (address : Nat) (left right : TreeNode K V) (height : Int) (key : K)
    (value : V) : Option (TreeNode K V × Bool) :=
  let curr := node address left right height key value
  if left.height - right.height = -2 then
    match right with
    | null => none
    | node _ inner outer _ _ _ =>
        (if inner.height > outer.height then curr.leftrightRotate else curr.leftRotate).map
          fun curr => (curr.updateHeight, true)
  else
    some (curr.updateHeight, false)

/-- `remove_recursive`. -/
def removeRecursive : TreeNode K V → K → Option (Removed K V)
  | null, _ => some ⟨null, none, false⟩
  | node address left right height nodeKey value, key =>
      if key > nodeKey then
        (right.removeRecursive key).bind fun removed =>
          (balanceRemovedRight address left removed.tree height nodeKey value).map
            fun (curr, rotated) => ⟨curr, removed.freed, removed.rebalanced || rotated⟩
      else if key = nodeKey then
        match left, right with
        | null, _ => some ⟨right, some address, false⟩
        | _, null => some ⟨left, some address, false⟩
        | _, _ =>
            left.findMax.bind fun toReplace =>
              (left.removeRecursive toReplace.key).bind fun removed =>
                (balanceRemovedLeft address removed.tree right height toReplace.key
                  toReplace.value).map
                  fun (curr, rotated) =>
                    ⟨curr, removed.freed, removed.rebalanced || rotated⟩
      else
        (left.removeRecursive key).bind fun removed =>
          (balanceRemovedLeft address removed.tree right height nodeKey value).map
            fun (curr, rotated) => ⟨curr, removed.freed, removed.rebalanced || rotated⟩

end Remove

/-! ## Small facts -/

@[simp]
theorem height_null : (null : TreeNode K V).height = -1 :=
  rfl

@[simp]
theorem height_node (address : Nat) (left right : TreeNode K V) (height : Int) (key : K)
    (value : V) : (node address left right height key value).height = height :=
  rfl

@[simp]
theorem left_node (address : Nat) (left right : TreeNode K V) (height : Int) (key : K)
    (value : V) : (node address left right height key value).left = left :=
  rfl

@[simp]
theorem right_node (address : Nat) (left right : TreeNode K V) (height : Int) (key : K)
    (value : V) : (node address left right height key value).right = right :=
  rfl

@[simp]
theorem entries_null : (null : TreeNode K V).entries = [] :=
  rfl

@[simp]
theorem entries_node (address : Nat) (left right : TreeNode K V) (height : Int) (key : K)
    (value : V) :
    (node address left right height key value).entries =
      left.entries ++ ⟨address, key, value⟩ :: right.entries :=
  rfl

@[simp]
theorem heightsOk_null : (null : TreeNode K V).HeightsOk :=
  trivial

@[simp]
theorem heightsOk_node (address : Nat) (left right : TreeNode K V) (height : Int) (key : K)
    (value : V) :
    (node address left right height key value).HeightsOk ↔
      left.HeightsOk ∧ right.HeightsOk ∧ height = max left.height right.height + 1 :=
  Iff.rfl

theorem neg_one_le_height {tree : TreeNode K V} (ok : tree.HeightsOk) : -1 ≤ tree.height := by
  induction tree with
  | null => exact le_rfl
  | node address left right height key value leftIh rightIh =>
      obtain ⟨leftOk, rightOk, isHeight⟩ := ok
      have := leftIh leftOk
      rw [height_node, isHeight]
      omega

theorem eq_node_of_height (tree : TreeNode K V) (tall : -1 < tree.height) :
    ∃ address left right height key value,
      tree = node address left right height key value := by
  cases tree with
  | null => simp at tall
  | node address left right height key value =>
      exact ⟨address, left, right, height, key, value, rfl⟩

@[simp]
theorem updateHeight_entries (tree : TreeNode K V) :
    tree.updateHeight.entries = tree.entries := by
  cases tree <;> rfl

/-- A node whose height is right already stays as it is. -/
theorem updateHeight_of_heightsOk {tree : TreeNode K V} (ok : tree.HeightsOk) :
    tree.updateHeight = tree := by
  cases tree with
  | null => rfl
  | node address left right height key value => rw [updateHeight, ← ok.2.2]

@[simp]
theorem toList_node (address : Nat) (left right : TreeNode K V) (height : Int) (key : K)
    (value : V) :
    (node address left right height key value).toList =
      left.toList ++ (key, value) :: right.toList := by
  simp [toList]

@[simp]
theorem addresses_null : (null : TreeNode K V).addresses = [] :=
  rfl

@[simp]
theorem addresses_node (address : Nat) (left right : TreeNode K V) (height : Int) (key : K)
    (value : V) :
    (node address left right height key value).addresses =
      left.addresses ++ address :: right.addresses := by
  simp [addresses]

/-! ## What the rotations keep -/

/-- The result of rebalancing has given entries in order, and correct heights. -/
def Rebalances (entries : List (TreeEntry K V)) (result : TreeNode K V) : Prop :=
  result.entries = entries ∧ result.HeightsOk

theorem Rebalances.toList_eq {left right result : TreeNode K V} {address : Nat} {key : K}
    {value : V}
    (rebalances : Rebalances (left.entries ++ ⟨address, key, value⟩ :: right.entries) result) :
    result.toList = left.toList ++ (key, value) :: right.toList := by
  rw [toList, rebalances.1]
  simp [toList]

theorem Rebalances.addresses_eq {left right result : TreeNode K V} {address : Nat} {key : K}
    {value : V}
    (rebalances : Rebalances (left.entries ++ ⟨address, key, value⟩ :: right.entries) result) :
    result.addresses = left.addresses ++ address :: right.addresses := by
  rw [addresses, rebalances.1]
  simp [addresses]

theorem leftRotate_spec {left right : TreeNode K V} (leftOk : left.HeightsOk)
    (rightOk : right.HeightsOk) (tall : -1 < right.height) (address : Nat) (height : Int)
    (key : K) (value : V) :
    ∃ result, (node address left right height key value).leftRotate = some result ∧
      Rebalances (left.entries ++ ⟨address, key, value⟩ :: right.entries) result := by
  obtain ⟨rootAddress, inner, outer, _, rootKey, rootValue, rfl⟩ := eq_node_of_height _ tall
  obtain ⟨innerOk, outerOk, -⟩ := rightOk
  exact ⟨_, rfl, by simp, ⟨leftOk, innerOk, rfl⟩, outerOk, rfl⟩

theorem rightRotate_spec {left right : TreeNode K V} (leftOk : left.HeightsOk)
    (rightOk : right.HeightsOk) (tall : -1 < left.height) (address : Nat) (height : Int)
    (key : K) (value : V) :
    ∃ result, (node address left right height key value).rightRotate = some result ∧
      Rebalances (left.entries ++ ⟨address, key, value⟩ :: right.entries) result := by
  obtain ⟨rootAddress, outer, inner, _, rootKey, rootValue, rfl⟩ := eq_node_of_height _ tall
  obtain ⟨outerOk, innerOk, -⟩ := leftOk
  refine ⟨_, rfl, by simp, outerOk, ⟨innerOk, rightOk, rfl⟩, ?_⟩
  rw [height_node, max_comm]

theorem leftrightRotate_spec {left right : TreeNode K V} (leftOk : left.HeightsOk)
    (rightOk : right.HeightsOk) {rightAddress : Nat} {inner outer : TreeNode K V}
    {rightHeight : Int} {rightKey : K} {rightValue : V}
    (isRight : right = node rightAddress inner outer rightHeight rightKey rightValue)
    (tall : -1 < inner.height) (address : Nat) (height : Int) (key : K) (value : V) :
    ∃ result, (node address left right height key value).leftrightRotate = some result ∧
      Rebalances (left.entries ++ ⟨address, key, value⟩ :: right.entries) result := by
  subst isRight
  obtain ⟨innerOk, outerOk, -⟩ := rightOk
  obtain ⟨rotated, isRotated, sameEntries, rotatedOk⟩ :=
    rightRotate_spec innerOk outerOk tall rightAddress rightHeight rightKey rightValue
  have rotatedTall : -1 < rotated.height := by
    cases rotated with
    | null => simp at sameEntries
    | node _ low high _ _ _ =>
        have := neg_one_le_height rotatedOk.1
        have := rotatedOk.2.2
        simp only [height_node]
        omega
  obtain ⟨result, isResult, resultEntries, resultOk⟩ :=
    leftRotate_spec leftOk rotatedOk rotatedTall address height key value
  refine ⟨result, ?_, ?_, resultOk⟩
  · rw [leftrightRotate, isRotated, Option.bind_some, isResult]
  · rw [resultEntries, sameEntries, entries_node]

theorem rightleftRotate_spec {left right : TreeNode K V} (leftOk : left.HeightsOk)
    (rightOk : right.HeightsOk) {leftAddress : Nat} {outer inner : TreeNode K V}
    {leftHeight : Int} {leftKey : K} {leftValue : V}
    (isLeft : left = node leftAddress outer inner leftHeight leftKey leftValue)
    (tall : -1 < inner.height) (address : Nat) (height : Int) (key : K) (value : V) :
    ∃ result, (node address left right height key value).rightleftRotate = some result ∧
      Rebalances (left.entries ++ ⟨address, key, value⟩ :: right.entries) result := by
  subst isLeft
  obtain ⟨outerOk, innerOk, -⟩ := leftOk
  obtain ⟨rotated, isRotated, sameEntries, rotatedOk⟩ :=
    leftRotate_spec outerOk innerOk tall leftAddress leftHeight leftKey leftValue
  have rotatedTall : -1 < rotated.height := by
    cases rotated with
    | null => simp at sameEntries
    | node _ low high _ _ _ =>
        have := neg_one_le_height rotatedOk.1
        have := rotatedOk.2.2
        simp only [height_node]
        omega
  obtain ⟨result, isResult, resultEntries, resultOk⟩ :=
    rightRotate_spec rotatedOk rightOk rotatedTall address height key value
  refine ⟨result, ?_, ?_, resultOk⟩
  · rw [rightleftRotate, isRotated, Option.bind_some, isResult]
  · rw [resultEntries, sameEntries, entries_node]

/-- The last step after a rotation. -/
theorem exists_map_updateHeight {rotation : Option (TreeNode K V)}
    {entries : List (TreeEntry K V)}
    (rotates : ∃ result, rotation = some result ∧ Rebalances entries result) :
    ∃ result rotated, rotation.map (fun curr => (curr.updateHeight, true)) =
        some (result, rotated) ∧ Rebalances entries result := by
  obtain ⟨result, rfl, sameEntries, ok⟩ := rotates
  exact ⟨result, true, by rw [Option.map_some, updateHeight_of_heightsOk ok], sameEntries, ok⟩

theorem updateHeight_spec {left right : TreeNode K V} (leftOk : left.HeightsOk)
    (rightOk : right.HeightsOk) (address : Nat) (height : Int) (key : K) (value : V) :
    Rebalances (left.entries ++ ⟨address, key, value⟩ :: right.entries)
      (node address left right height key value).updateHeight :=
  ⟨rfl, leftOk, rightOk, rfl⟩

/-- The left child is too high, and the rotation finds all children it needs. -/
theorem balanceRemovedRight_spec {left right : TreeNode K V} (leftOk : left.HeightsOk)
    (rightOk : right.HeightsOk) (address : Nat) (height : Int) (key : K) (value : V) :
    ∃ result rotated,
      balanceRemovedRight address left right height key value = some (result, rotated) ∧
        Rebalances (left.entries ++ ⟨address, key, value⟩ :: right.entries) result := by
  unfold balanceRemovedRight
  split_ifs with tooLarge
  · have rightBound := neg_one_le_height rightOk
    have tall : -1 < left.height := by omega
    obtain ⟨leftAddress, outer, inner, leftHeight, leftKey, leftValue, isLeft⟩ :=
      eq_node_of_height _ tall
    simp only [isLeft]
    refine exists_map_updateHeight ?_
    rw [← isLeft]
    split_ifs with outerHigher
    · exact rightRotate_spec leftOk rightOk tall address height key value
    · have innerTall : -1 < inner.height := by
        subst isLeft
        have := leftOk.2.2
        simp only [height_node] at tooLarge
        omega
      exact rightleftRotate_spec leftOk rightOk isLeft innerTall address height key value
  · exact ⟨_, false, rfl, updateHeight_spec leftOk rightOk address height key value⟩

theorem balanceRemovedLeft_spec {left right : TreeNode K V} (leftOk : left.HeightsOk)
    (rightOk : right.HeightsOk) (address : Nat) (height : Int) (key : K) (value : V) :
    ∃ result rotated,
      balanceRemovedLeft address left right height key value = some (result, rotated) ∧
        Rebalances (left.entries ++ ⟨address, key, value⟩ :: right.entries) result := by
  unfold balanceRemovedLeft
  split_ifs with tooLarge
  · have leftBound := neg_one_le_height leftOk
    have tall : -1 < right.height := by omega
    obtain ⟨rightAddress, inner, outer, rightHeight, rightKey, rightValue, isRight⟩ :=
      eq_node_of_height _ tall
    simp only [isRight]
    refine exists_map_updateHeight ?_
    rw [← isRight]
    split_ifs with innerHigher
    · have innerTall : -1 < inner.height := by
        subst isRight
        have := neg_one_le_height rightOk.2.1
        omega
      exact leftrightRotate_spec leftOk rightOk isRight innerTall address height key value
    · exact leftRotate_spec leftOk rightOk tall address height key value
  · exact ⟨_, false, rfl, updateHeight_spec leftOk rightOk address height key value⟩

/-- `find_max` finds the last entry. -/
theorem findMax_spec {tree : TreeNode K V} (nonempty : tree ≠ null) :
    ∃ last front, tree.findMax = some last ∧ tree.entries = front ++ [last] := by
  induction tree with
  | null => exact absurd rfl nonempty
  | node address left right height key value _ rightIh =>
      cases right with
      | null => exact ⟨⟨address, key, value⟩, left.entries, rfl, rfl⟩
      | node _ _ _ _ _ _ =>
          obtain ⟨last, front, isLast, rightEntries⟩ := rightIh (by simp)
          refine ⟨last, left.entries ++ ⟨address, key, value⟩ :: front, isLast, ?_⟩
          rw [entries_node, rightEntries, List.append_assoc, List.cons_append]

section Correct

variable [LinearOrder K]

theorem ordered_node {address : Nat} {left right : TreeNode K V} {height : Int} {key : K}
    {value : V} :
    (node address left right height key value).Ordered ↔
      left.Ordered ∧ right.Ordered ∧ (∀ entry ∈ left.entries, entry.key < key) ∧
        ∀ entry ∈ right.entries, key < entry.key :=
  sortedBy_append_cons

/-! ## Insertion keeps the list -/

/-- The new key lies on the left, and in the right subtree of the left child when the child's
key is smaller: that subtree is not empty, so it can be rotated. -/
theorem balanceAddedLeft_spec {left right : TreeNode K V} (leftOk : left.HeightsOk)
    (rightOk : right.HeightsOk) (leftOrdered : left.Ordered) {key : K}
    (present : ∃ entry ∈ left.entries, entry.key = key) (address : Nat) (height : Int)
    (nodeKey : K) (value : V) :
    ∃ result rotated,
      balanceAddedLeft key address left right height nodeKey value = some (result, rotated) ∧
        Rebalances (left.entries ++ ⟨address, nodeKey, value⟩ :: right.entries) result := by
  unfold balanceAddedLeft
  split_ifs with tooLarge
  · have rightBound := neg_one_le_height rightOk
    have tall : -1 < left.height := by omega
    obtain ⟨leftAddress, outer, inner, leftHeight, leftKey, leftValue, isLeft⟩ :=
      eq_node_of_height _ tall
    simp only [isLeft]
    refine exists_map_updateHeight ?_
    rw [← isLeft]
    split_ifs with inInner
    · have innerTall : -1 < inner.height := by
        subst isLeft
        obtain ⟨entry, member, rfl⟩ := present
        obtain ⟨-, -, outerBelow, -⟩ := ordered_node.mp leftOrdered
        cases inner with
        | null =>
            rcases List.mem_append.mp member with inOuter | isRoot
            · exact absurd (outerBelow entry inOuter) inInner.not_gt
            · obtain rfl := List.mem_singleton.mp isRoot
              exact absurd inInner (lt_irrefl _)
        | node _ low high _ _ _ =>
            have := neg_one_le_height leftOk.2.1.1
            have := leftOk.2.1.2.2
            simp only [height_node]
            omega
      exact rightleftRotate_spec leftOk rightOk isLeft innerTall address height nodeKey value
    · exact rightRotate_spec leftOk rightOk tall address height nodeKey value
  · exact ⟨_, false, rfl, updateHeight_spec leftOk rightOk address height nodeKey value⟩

theorem balanceAddedRight_spec {left right : TreeNode K V} (leftOk : left.HeightsOk)
    (rightOk : right.HeightsOk) (rightOrdered : right.Ordered) {key : K}
    (present : ∃ entry ∈ right.entries, entry.key = key) (address : Nat) (height : Int)
    (nodeKey : K) (value : V) :
    ∃ result rotated,
      balanceAddedRight key address left right height nodeKey value = some (result, rotated) ∧
        Rebalances (left.entries ++ ⟨address, nodeKey, value⟩ :: right.entries) result := by
  unfold balanceAddedRight
  split_ifs with tooLarge
  · have leftBound := neg_one_le_height leftOk
    have tall : -1 < right.height := by omega
    obtain ⟨rightAddress, inner, outer, rightHeight, rightKey, rightValue, isRight⟩ :=
      eq_node_of_height _ tall
    simp only [isRight]
    refine exists_map_updateHeight ?_
    rw [← isRight]
    split_ifs with inInner
    · have innerTall : -1 < inner.height := by
        subst isRight
        obtain ⟨entry, member, rfl⟩ := present
        obtain ⟨-, -, -, outerAbove⟩ := ordered_node.mp rightOrdered
        cases inner with
        | null =>
            rcases List.mem_cons.mp member with rfl | inOuter
            · exact absurd inInner (lt_irrefl _)
            · exact absurd (outerAbove entry inOuter) inInner.not_gt
        | node _ low high _ _ _ =>
            have := neg_one_le_height rightOk.1.1
            have := rightOk.1.2.2
            simp only [height_node]
            omega
      exact leftrightRotate_spec leftOk rightOk isRight innerTall address height nodeKey value
    · exact leftRotate_spec leftOk rightOk tall address height nodeKey value
  · exact ⟨_, false, rfl, updateHeight_spec leftOk rightOk address height nodeKey value⟩

theorem mem_insertBy_self (entry : TreeEntry K V) (list : List (TreeEntry K V)) :
    ∃ other ∈ insertBy TreeEntry.key entry list, other.key = entry.key := by
  induction list with
  | nil => exact ⟨entry, List.mem_singleton.mpr rfl, rfl⟩
  | cons head rest ih =>
      rw [insertBy]
      split_ifs with same before
      · exact ⟨head, List.mem_cons_self, same.symm⟩
      · exact ⟨entry, List.mem_cons_self, rfl⟩
      · obtain ⟨other, member, isKey⟩ := ih
        exact ⟨other, List.mem_cons_of_mem head member, isKey⟩

theorem addRecursive_of_lt {nodeKey key : K} (before : key < nodeKey) (fresh : Nat)
    (initial : V) (address : Nat) (left right : TreeNode K V) (height : Int) (value : V) :
    (node address left right height nodeKey value).addRecursive key fresh initial =
      (left.addRecursive key fresh initial).bind fun added =>
        (balanceAddedLeft key address added.tree right height nodeKey value).map
          fun (curr, rotated) => ⟨curr, added.r, added.rebalanced || rotated⟩ :=
  (if_neg before.ne).trans (if_pos before)

theorem addRecursive_of_gt {nodeKey key : K} (after : nodeKey < key) (fresh : Nat)
    (initial : V) (address : Nat) (left right : TreeNode K V) (height : Int) (value : V) :
    (node address left right height nodeKey value).addRecursive key fresh initial =
      (right.addRecursive key fresh initial).bind fun added =>
        (balanceAddedRight key address left added.tree height nodeKey value).map
          fun (curr, rotated) => ⟨curr, added.r, added.rebalanced || rotated⟩ :=
  (if_neg after.ne').trans (if_neg after.not_gt)

/-- `add_recursive` inserts an entry in order, keeps the heights right, and `r` points to the
value of the key. -/
theorem addRecursive_spec {tree : TreeNode K V} (ordered : tree.Ordered)
    (ok : tree.HeightsOk) (key : K) (fresh : Nat) (initial : V) :
    ∃ added, tree.addRecursive key fresh initial = some added ∧
      added.tree.entries = insertBy TreeEntry.key ⟨fresh, key, initial⟩ tree.entries ∧
      added.tree.HeightsOk ∧ ∃ value, ⟨added.r, key, value⟩ ∈ added.tree.entries := by
  induction tree with
  | null =>
      exact ⟨_, rfl, rfl, by simp, initial, by simp⟩
  | node address left right height nodeKey value leftIh rightIh =>
      obtain ⟨leftOrdered, rightOrdered, below, above⟩ := ordered_node.mp ordered
      obtain ⟨leftOk, rightOk, -⟩ := id ok
      rcases lt_trichotomy key nodeKey with before | rfl | after
      · obtain ⟨added, isAdded, addedEntries, addedOk, found, foundMem⟩ :=
          leftIh leftOrdered leftOk
        have addedOrdered : added.tree.Ordered := by
          rw [Ordered, addedEntries]
          exact sortedBy_insertBy leftOrdered
        have present : ∃ entry ∈ added.tree.entries, entry.key = key := by
          rw [addedEntries]
          exact mem_insertBy_self ⟨fresh, key, initial⟩ left.entries
        obtain ⟨result, rotated, isResult, resultEntries, resultOk⟩ :=
          balanceAddedLeft_spec addedOk rightOk addedOrdered present address height nodeKey value
        refine ⟨⟨result, added.r, added.rebalanced || rotated⟩, ?_, ?_, resultOk, found, ?_⟩
        · rw [addRecursive_of_lt before, isAdded, Option.bind_some, isResult, Option.map_some]
        · rw [resultEntries, addedEntries, entries_node, insertBy_append_of_lt before]
        · rw [resultEntries]
          exact List.mem_append_left _ foundMem
      · refine ⟨⟨_, address, false⟩, if_pos rfl, ?_, ok, value, by simp⟩
        have sameKey : (⟨fresh, key, initial⟩ : TreeEntry K V).key =
            (⟨address, key, value⟩ : TreeEntry K V).key := rfl
        rw [entries_node, insertBy_append_of_eq sameKey below]
      · obtain ⟨added, isAdded, addedEntries, addedOk, found, foundMem⟩ :=
          rightIh rightOrdered rightOk
        have addedOrdered : added.tree.Ordered := by
          rw [Ordered, addedEntries]
          exact sortedBy_insertBy rightOrdered
        have present : ∃ entry ∈ added.tree.entries, entry.key = key := by
          rw [addedEntries]
          exact mem_insertBy_self ⟨fresh, key, initial⟩ right.entries
        obtain ⟨result, rotated, isResult, resultEntries, resultOk⟩ :=
          balanceAddedRight_spec leftOk addedOk addedOrdered present address height nodeKey value
        refine ⟨⟨result, added.r, added.rebalanced || rotated⟩, ?_, ?_, resultOk, found, ?_⟩
        · rw [addRecursive_of_gt after, isAdded, Option.bind_some, isResult, Option.map_some]
        · rw [resultEntries, addedEntries, entries_node, insertBy_append_of_gt after below]
        · rw [resultEntries]
          exact List.mem_append_right _ (List.mem_cons_of_mem _ foundMem)

/-! ## Deletion keeps the list -/

theorem ordered_iff_toList {tree : TreeNode K V} :
    tree.Ordered ↔ SortedBy Prod.fst tree.toList := by
  rw [Ordered, toList, SortedBy, SortedBy, List.pairwise_map]

/-- What a deletion does to the list, the heights and the addresses. -/
structure Deletes (tree : TreeNode K V) (key : K) (removed : Removed K V) : Prop where
  toList_eq : removed.tree.toList = eraseBy Prod.fst key tree.toList
  heightsOk : removed.tree.HeightsOk
  absent : removed.freed = none → ∀ entry ∈ tree.entries, entry.key ≠ key
  addresses_eq : ∀ address, removed.freed = some address →
    ∃ before after, tree.addresses = before ++ address :: after ∧
      removed.tree.addresses = before ++ after
  same : removed.freed = none → removed.tree.addresses = tree.addresses

theorem Deletes.distinct {tree : TreeNode K V} {key : K} {removed : Removed K V}
    (deletes : Deletes tree key removed) (distinct : tree.addresses.Nodup) :
    removed.tree.addresses.Nodup := by
  cases isFreed : removed.freed with
  | none =>
      rw [deletes.same isFreed]
      exact distinct
  | some freed =>
      obtain ⟨before, after, treeAddresses, removedAddresses⟩ := deletes.addresses_eq freed isFreed
      rw [treeAddresses] at distinct
      rw [removedAddresses]
      exact distinct.sublist ((List.sublist_cons_self freed after).append_left before)

theorem removeRecursive_of_gt {nodeKey key : K} (after : nodeKey < key) (address : Nat)
    (left right : TreeNode K V) (height : Int) (value : V) :
    (node address left right height nodeKey value).removeRecursive key =
      (right.removeRecursive key).bind fun removed =>
        (balanceRemovedRight address left removed.tree height nodeKey value).map
          fun (curr, rotated) => ⟨curr, removed.freed, removed.rebalanced || rotated⟩ :=
  if_pos after

theorem removeRecursive_of_lt {nodeKey key : K} (before : key < nodeKey) (address : Nat)
    (left right : TreeNode K V) (height : Int) (value : V) :
    (node address left right height nodeKey value).removeRecursive key =
      (left.removeRecursive key).bind fun removed =>
        (balanceRemovedLeft address removed.tree right height nodeKey value).map
          fun (curr, rotated) => ⟨curr, removed.freed, removed.rebalanced || rotated⟩ :=
  (if_neg before.not_gt).trans (if_neg before.ne)

/-- A node with one child or none is replaced by it. -/
theorem removeRecursive_of_child {left right : TreeNode K V} (address : Nat) (height : Int)
    (key : K) (value : V) (child : left = null ∨ right = null) :
    ∃ temp, (node address left right height key value).removeRecursive key =
        some ⟨temp, some address, false⟩ ∧
      (left = null ∧ temp = right ∨ right = null ∧ temp = left) := by
  cases left with
  | null => exact ⟨right, (if_neg (lt_irrefl key)).trans (if_pos rfl), Or.inl ⟨rfl, rfl⟩⟩
  | node _ _ _ _ _ _ =>
      rcases child with isNull | rfl
      · simp at isNull
      · exact ⟨_, (if_neg (lt_irrefl key)).trans (if_pos rfl), Or.inr ⟨rfl, rfl⟩⟩

/-- A node with two children takes the entry of its predecessor. -/
theorem removeRecursive_of_children {left right : TreeNode K V} (address : Nat) (height : Int)
    (key : K) (value : V) (leftNonempty : left ≠ null) (rightNonempty : right ≠ null) :
    (node address left right height key value).removeRecursive key =
      left.findMax.bind fun toReplace =>
        (left.removeRecursive toReplace.key).bind fun removed =>
          (balanceRemovedLeft address removed.tree right height toReplace.key
            toReplace.value).map
            fun (curr, rotated) => ⟨curr, removed.freed, removed.rebalanced || rotated⟩ := by
  cases left with
  | null => exact absurd rfl leftNonempty
  | node _ _ _ _ _ _ =>
      cases right with
      | null => exact absurd rfl rightNonempty
      | node _ _ _ _ _ _ => exact (if_neg (lt_irrefl key)).trans (if_pos rfl)

/-- `remove_recursive` deletes the key from the list and keeps the heights right.  The node
that it frees is the only address that goes. -/
theorem removeRecursive_spec {tree : TreeNode K V} (ordered : tree.Ordered)
    (ok : tree.HeightsOk) (key : K) :
    ∃ removed, tree.removeRecursive key = some removed ∧ Deletes tree key removed := by
  induction tree generalizing key with
  | null =>
      exact ⟨_, rfl, rfl, trivial, by simp, by simp, fun _ => rfl⟩
  | node address left right height nodeKey value leftIh rightIh =>
      have sorted := ordered_iff_toList.mp ordered
      obtain ⟨leftOrdered, rightOrdered, below, above⟩ := ordered_node.mp ordered
      obtain ⟨leftOk, rightOk, -⟩ := ok
      rw [toList_node] at sorted
      rcases lt_trichotomy key nodeKey with before | rfl | after
      · obtain ⟨removed, isRemoved, deletes⟩ := leftIh leftOrdered leftOk key
        obtain ⟨result, rotated, isResult, rebalances⟩ :=
          balanceRemovedLeft_spec deletes.heightsOk rightOk address height nodeKey value
        refine ⟨⟨result, removed.freed, removed.rebalanced || rotated⟩, ?_, ?_, rebalances.2,
          fun isNone entry member => ?_, fun freed isFreed => ?_, fun isNone => ?_⟩
        · rw [removeRecursive_of_lt before, isRemoved, Option.bind_some, isResult,
            Option.map_some]
        · rw [rebalances.toList_eq, deletes.toList_eq, toList_node,
            eraseBy_append_of_lt sorted before]
        · rcases List.mem_append.mp member with inLeft | inRest
          · exact deletes.absent isNone entry inLeft
          · rcases List.mem_cons.mp inRest with rfl | inRight
            · exact before.ne'
            · exact (before.trans (above entry inRight)).ne'
        · obtain ⟨front, rest, leftAddresses, removedAddresses⟩ :=
            deletes.addresses_eq freed isFreed
          refine ⟨front, rest ++ address :: right.addresses, ?_, ?_⟩
          · rw [addresses_node, leftAddresses, List.append_assoc, List.cons_append]
          · rw [rebalances.addresses_eq, removedAddresses, List.append_assoc]
        · rw [rebalances.addresses_eq, deletes.same isNone, addresses_node]
      · by_cases child : left = null ∨ right = null
        · obtain ⟨temp, isRemoved, isTemp⟩ :=
            removeRecursive_of_child address height key value child
          refine ⟨_, isRemoved, ?_⟩
          have erased : eraseBy Prod.fst key (left.toList ++ (key, value) :: right.toList) =
              left.toList ++ right.toList := eraseBy_append_self sorted
          rcases isTemp with ⟨rfl, rfl⟩ | ⟨rfl, rfl⟩
          · exact ⟨by rw [toList_node, erased]; rfl, rightOk, by simp, fun freed isFreed =>
              ⟨[], temp.addresses, by simpa using isFreed, rfl⟩, by simp⟩
          · exact ⟨by rw [toList_node, erased]; simp [toList], leftOk, by simp,
              fun freed isFreed => ⟨temp.addresses, [], by simpa using isFreed, by simp⟩,
              by simp⟩
        · obtain ⟨leftNonempty, rightNonempty⟩ := not_or.mp child
          obtain ⟨last, front, isLast, leftEntries⟩ := findMax_spec leftNonempty
          obtain ⟨removed, isRemoved, deletes⟩ := leftIh leftOrdered leftOk last.key
          obtain ⟨result, rotated, isResult, rebalances⟩ :=
            balanceRemovedLeft_spec deletes.heightsOk rightOk address height last.key last.value
          have leftList : left.toList =
              front.map (fun entry => (entry.key, entry.value)) ++ [(last.key, last.value)] := by
            rw [toList, leftEntries, List.map_append, List.map_singleton]
          have removedList : removed.tree.toList =
              front.map fun entry => (entry.key, entry.value) := by
            have leftSorted := ordered_iff_toList.mp leftOrdered
            have erased := eraseBy_append_self (leftList ▸ leftSorted)
            rw [deletes.toList_eq, leftList]
            simpa using erased
          have erased : eraseBy Prod.fst key (left.toList ++ (key, value) :: right.toList) =
              left.toList ++ right.toList := eraseBy_append_self sorted
          have isFreed : removed.freed ≠ none := fun isNone =>
            deletes.absent isNone last (by rw [leftEntries]; simp) rfl
          refine ⟨⟨result, removed.freed, removed.rebalanced || rotated⟩, ?_, ?_, rebalances.2,
            fun isNone => absurd isNone isFreed, fun freed isFreed => ?_,
            fun isNone => absurd isNone isFreed⟩
          · rw [removeRecursive_of_children address height key value leftNonempty rightNonempty,
              isLast, Option.bind_some, isRemoved, Option.bind_some, isResult, Option.map_some]
          · rw [rebalances.toList_eq, removedList, toList_node, erased, leftList,
              List.append_assoc, List.singleton_append]
          · obtain ⟨before, rest, leftAddresses, removedAddresses⟩ :=
              deletes.addresses_eq freed isFreed
            refine ⟨before, rest ++ address :: right.addresses, ?_, ?_⟩
            · rw [addresses_node, leftAddresses, List.append_assoc, List.cons_append]
            · rw [rebalances.addresses_eq, removedAddresses, List.append_assoc]
      · obtain ⟨removed, isRemoved, deletes⟩ := rightIh rightOrdered rightOk key
        obtain ⟨result, rotated, isResult, rebalances⟩ :=
          balanceRemovedRight_spec leftOk deletes.heightsOk address height nodeKey value
        refine ⟨⟨result, removed.freed, removed.rebalanced || rotated⟩, ?_, ?_, rebalances.2,
          fun isNone entry member => ?_, fun freed isFreed => ?_, fun isNone => ?_⟩
        · rw [removeRecursive_of_gt after, isRemoved, Option.bind_some, isResult,
            Option.map_some]
        · rw [rebalances.toList_eq, deletes.toList_eq, toList_node,
            eraseBy_append_of_gt sorted after]
        · rcases List.mem_append.mp member with inLeft | inRest
          · exact ((below entry inLeft).trans after).ne
          · rcases List.mem_cons.mp inRest with rfl | inRight
            · exact after.ne
            · exact deletes.absent isNone entry inRight
        · obtain ⟨front, rest, rightAddresses, removedAddresses⟩ :=
            deletes.addresses_eq freed isFreed
          refine ⟨left.addresses ++ address :: front, rest, ?_, ?_⟩
          · rw [addresses_node, rightAddresses, List.append_assoc, List.cons_append]
          · rw [rebalances.addresses_eq, removedAddresses, List.append_assoc, List.cons_append]
        · rw [rebalances.addresses_eq, deletes.same isNone, addresses_node]

/-! ## The finite map -/

/-- On every search tree with correct heights, `add_recursive` and `remove_recursive` do not
follow a `NULL` pointer; they insert the key into the in-order sequence if it is absent, or
delete it if it is present, and keep the order and the heights.  `r` points to the value of
the added key. -/
theorem addRecursive_and_removeRecursive_implement_map (tree : TreeNode K V)
    (ordered : tree.Ordered) (ok : tree.HeightsOk) (key : K) :
    (∀ (fresh : Nat) (initial : V),
      ∃ added, tree.addRecursive key fresh initial = some added ∧
        added.tree.toList = insertBy Prod.fst (key, initial) tree.toList ∧
        added.tree.Ordered ∧ added.tree.HeightsOk ∧
        ∃ value, ⟨added.r, key, value⟩ ∈ added.tree.entries) ∧
    ∃ removed, tree.removeRecursive key = some removed ∧
      removed.tree.toList = eraseBy Prod.fst key tree.toList ∧
      removed.tree.Ordered ∧ removed.tree.HeightsOk := by
  constructor
  · intro fresh initial
    obtain ⟨added, isAdded, addedEntries, addedOk, points⟩ :=
      addRecursive_spec ordered ok key fresh initial
    refine ⟨added, isAdded, ?_, ?_, addedOk, points⟩
    · rw [toList, addedEntries, toList]
      have sameKey : ∀ entry : TreeEntry K V, Prod.fst (entry.key, entry.value) = entry.key :=
        fun _ => rfl
      exact map_insertBy sameKey ⟨fresh, key, initial⟩ tree.entries
    · rw [Ordered, addedEntries]
      exact sortedBy_insertBy ordered
  · obtain ⟨removed, isRemoved, deletes⟩ := removeRecursive_spec ordered ok key
    refine ⟨removed, isRemoved, deletes.toList_eq, ?_, deletes.heightsOk⟩
    rw [ordered_iff_toList, deletes.toList_eq]
    exact sortedBy_eraseBy (ordered_iff_toList.mp ordered) key

end Correct

/-- A tree that is a chain to the left, hence not balanced. -/
def leftChain : TreeNode Nat Nat :=
  node 12 (node 11 (node 10 null null 0 1 100) null 1 2 200) null 2 3 300

theorem addRecursive_and_removeRecursive_implement_map_leftChain :
    (∃ added, leftChain.addRecursive 0 13 0 = some added ∧
      added.tree.toList = [(0, 0), (1, 100), (2, 200), (3, 300)]) ∧
    ∃ removed, leftChain.removeRecursive 2 = some removed ∧
      removed.tree.toList = [(1, 100), (3, 300)] := by
  have ordered : leftChain.Ordered := by
    simp [Ordered, SortedBy, leftChain]
  have ok : leftChain.HeightsOk := by
    simp [leftChain]
  constructor
  · obtain ⟨added, isAdded, list, -⟩ :=
      (addRecursive_and_removeRecursive_implement_map leftChain ordered ok 0).1 13 0
    exact ⟨added, isAdded, list⟩
  · obtain ⟨removed, isRemoved, list, -⟩ :=
      (addRecursive_and_removeRecursive_implement_map leftChain ordered ok 2).2
    exact ⟨removed, isRemoved, list⟩

end TreeNode

end Pmgd
