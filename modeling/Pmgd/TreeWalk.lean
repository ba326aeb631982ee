import Pmgd.AvlTreeBounds

/-!
# Walking through a tree in either direction

Forward and reverse iterators are mirror images: what one does with the left child the other does
with the right one.
-/

namespace Pmgd

open SortedInsert TreeNode

/-- The direction of an iterator. -/
inductive Way
  | forward
  | reverse
  deriving DecidableEq, Repr

variable {K V : Type*}

namespace Way

/-- The child whose keys come first. -/
def first : Way → TreeNode K V → TreeNode K V
  | forward, tree => tree.left
  | reverse, tree => tree.right

/-- The child whose keys come after the one of the node. -/
def second : Way → TreeNode K V → TreeNode K V
  | forward, tree => tree.right
  | reverse, tree => tree.left

/-- The entries in the order of the walk. -/
def along : Way → TreeNode K V → List (TreeEntry K V)
  | forward, tree => tree.entries
  | reverse, tree => tree.entries.reverse

/-- A key comes before another one. -/
def Before [LT K] : Way → K → K → Prop
  | forward, key, other => key < other
  | reverse, key, other => other < key

instance [LT K] [DecidableLT K] (way : Way) (key other : K) : Decidable (way.Before key other) :=
  match way with
  | forward => inferInstanceAs (Decidable (key < other))
  | reverse => inferInstanceAs (Decidable (other < key))

@[simp]
theorem along_null (way : Way) : way.along (null : TreeNode K V) = [] := by
  cases way <;> rfl

theorem along_node (way : Way) (address : Nat) (left right : TreeNode K V) (height : Int) (key : K)
    (value : V) :
    way.along (node address left right height key value) =
      way.along (way.first (node address left right height key value)) ++
        ⟨address, key, value⟩ ::
          way.along (way.second (node address left right height key value)) := by
  cases way with
  | forward => rfl
  | reverse => simp [along, first, second]

theorem mem_along (way : Way) {tree : TreeNode K V} {entry : TreeEntry K V} :
    entry ∈ way.along tree ↔ entry ∈ tree.entries := by
  cases way with
  | forward => exact Iff.rfl
  | reverse => exact List.mem_reverse

/-- A step of an induction over a tree, seen in the direction of a walk. -/
theorem induct (way : Way) {motive : TreeNode K V → Prop} (atNull : motive null)
    (atNode : ∀ address left right height key value,
      motive (way.first (node address left right height key value)) →
        motive (way.second (node address left right height key value)) →
          motive (node address left right height key value))
    (tree : TreeNode K V) : motive tree := by
  induction tree with
  | null => exact atNull
  | node address left right height key value leftIh rightIh =>
      cases way with
      | forward => exact atNode address left right height key value leftIh rightIh
      | reverse => exact atNode address left right height key value rightIh leftIh

section Order

variable [LinearOrder K] {way : Way} {key other third : K}

theorem Before.irrefl (way : Way) (key : K) : ¬ way.Before key key := by
  cases way <;> exact lt_irrefl key

theorem Before.trans (first : way.Before key other) (second : way.Before other third) :
    way.Before key third := by
  cases way with
  | forward => exact lt_trans first second
  | reverse => exact lt_trans second first

theorem Before.asymm (first : way.Before key other) : ¬ way.Before other key :=
  fun second => Before.irrefl way key (first.trans second)

theorem Before.ne (first : way.Before key other) : key ≠ other := by
  rintro rfl
  exact Before.irrefl way key first

theorem Before.trichotomy (way : Way) (key other : K) :
    way.Before key other ∨ key = other ∨ way.Before other key := by
  cases way with
  | forward => exact lt_trichotomy key other
  | reverse =>
      rcases lt_trichotomy key other with before | same | after
      · exact Or.inr (Or.inr before)
      · exact Or.inr (Or.inl same)
      · exact Or.inl after

/-- The keys of an ordered tree in the order of the walk. -/
theorem ordered_node (way : Way) {address : Nat} {left right : TreeNode K V} {height : Int}
    {value : V} (ordered : (node address left right height key value).Ordered) :
    (way.first (node address left right height key value)).Ordered ∧
      (way.second (node address left right height key value)).Ordered ∧
      (∀ entry ∈ way.along (way.first (node address left right height key value)),
        way.Before entry.key key) ∧
      ∀ entry ∈ way.along (way.second (node address left right height key value)),
        way.Before key entry.key := by
  obtain ⟨leftOrdered, rightOrdered, below, above⟩ := TreeNode.ordered_node.mp ordered
  cases way with
  | forward => exact ⟨leftOrdered, rightOrdered, below, above⟩
  | reverse =>
      exact ⟨rightOrdered, leftOrdered, fun entry member => above entry (List.mem_reverse.mp member),
        fun entry member => below entry (List.mem_reverse.mp member)⟩

end Order

end Way

/-- `lessthan`, or `greaterthan` in a reverse iterator. -/
def Compare.before [LinearOrder K] (compare : Compare K) (way : Way) (key : K) : Bool :=
  decide (way.Before compare.val key)

namespace TreeNode

/-! ## Subtrees -/

/-- The nodes that the pointers of a tree lead to, with the trees below them. -/
def IsSubtree (subtree : TreeNode K V) : TreeNode K V → Prop
  | null => subtree = null
  | node address left right height key value =>
      subtree = node address left right height key value ∨ subtree.IsSubtree left ∨
        subtree.IsSubtree right

theorem IsSubtree.refl (tree : TreeNode K V) : tree.IsSubtree tree := by
  cases tree with
  | null => rfl
  | node address left right height key value => exact Or.inl rfl

theorem IsSubtree.trans {tree middle top : TreeNode K V} (lower : tree.IsSubtree middle)
    (upper : middle.IsSubtree top) : tree.IsSubtree top := by
  induction top with
  | null =>
      obtain rfl : middle = null := upper
      exact lower
  | node address left right height key value leftIh rightIh =>
      rcases upper with rfl | inLeft | inRight
      · exact lower
      · exact Or.inr (Or.inl (leftIh inLeft))
      · exact Or.inr (Or.inr (rightIh inRight))

theorem isSubtree_first (way : Way) (tree : TreeNode K V) : (way.first tree).IsSubtree tree := by
  cases tree with
  | null => cases way <;> rfl
  | node address left right height key value =>
      cases way with
      | forward => exact Or.inr (Or.inl (IsSubtree.refl left))
      | reverse => exact Or.inr (Or.inr (IsSubtree.refl right))

theorem isSubtree_second (way : Way) (tree : TreeNode K V) :
    (way.second tree).IsSubtree tree := by
  cases tree with
  | null => cases way <;> rfl
  | node address left right height key value =>
      cases way with
      | forward => exact Or.inr (Or.inr (IsSubtree.refl right))
      | reverse => exact Or.inr (Or.inl (IsSubtree.refl left))

theorem IsSubtree.entries_sublist {subtree tree : TreeNode K V} (isSubtree : subtree.IsSubtree tree) :
    subtree.entries.Sublist tree.entries := by
  induction tree with
  | null =>
      obtain rfl : subtree = null := isSubtree
      exact List.Sublist.refl _
  | node address left right height key value leftIh rightIh =>
      rcases isSubtree with rfl | inLeft | inRight
      · exact List.Sublist.refl _
      · exact (leftIh inLeft).trans (List.sublist_append_left _ _)
      · apply (rightIh inRight).trans
        exact (List.sublist_cons_self _ _).trans (List.sublist_append_right _ _)

theorem IsSubtree.rootEntry_mem {O : Type*} {subtree tree : TreeNode K (List O)}
    (isSubtree : subtree.IsSubtree tree) {entry : TreeEntry K (List O)}
    (member : entry ∈ rootEntry subtree) : entry ∈ tree.entries := by
  apply isSubtree.entries_sublist.subset
  cases subtree with
  | null => exact absurd member List.not_mem_nil
  | node address left right height key value =>
      obtain rfl := List.mem_singleton.mp member
      exact List.mem_append_right _ List.mem_cons_self

/-! ## Stacks of subtrees -/

section Stacks

variable {O : Type*} [LinearOrder K]

/-- The family of functions that push what comes first in a tree, with a test for what is not
beyond the far bound. -/
def spine (way : Way) (inside : K → Bool) : TreeNode K (List O) → Stack K O → Stack K O
  | null, path => path
  | node address left right height key value, path =>
      let root := node address left right height key value
      let path := if inside key then root :: path else path
      match way with
      | .forward => left.spine way inside path
      | .reverse => right.spine way inside path

/-- The family of functions that search for the first key. -/
def search (way : Way) (near : Compare K) (inside : K → Bool) :
    TreeNode K (List O) → Stack K O → Stack K O
  | null, path => path
  | node address left right height key value, path =>
      let root := node address left right height key value
      let further := if inside key then root :: path else path
      if near.before way key then
        match way with
        | .forward => left.search way near inside further
        | .reverse => right.search way near inside further
      else if near.equals key then
        root :: path
      else
        match way with
        | .forward => right.search way near inside path
        | .reverse => left.search way near inside path

variable {way : Way} {inside : K → Bool} {near : Compare K} {tree : TreeNode K (List O)}

omit [LinearOrder K] in
theorem spine_node (address : Nat) (left right : TreeNode K (List O)) (height : Int) (key : K)
    (value : List O) (path : Stack K O) :
    (node address left right height key value).spine way inside path =
      (way.first (node address left right height key value)).spine way inside
        (if inside key then node address left right height key value :: path else path) := by
  cases way <;> rfl

theorem search_node (address : Nat) (left right : TreeNode K (List O)) (height : Int) (key : K)
    (value : List O) (path : Stack K O) :
    (node address left right height key value).search way near inside path =
      if way.Before near.val key then
        (way.first (node address left right height key value)).search way near inside
          (if inside key then node address left right height key value :: path else path)
      else if near.equals key then
        node address left right height key value :: path
      else
        (way.second (node address left right height key value)).search way near inside path := by
  cases way <;> simp [search, Compare.before, Way.first, Way.second]

omit [LinearOrder K] in
/-- What is on the stack stays below. -/
theorem spine_append (path : Stack K O) :
    tree.spine way inside path = tree.spine way inside [] ++ path := by
  induction tree using way.induct generalizing path with
  | atNull => rfl
  | atNode address left right height key value firstIh _ =>
      rw [spine_node, spine_node]
      by_cases isInside : inside key
      · rw [if_pos isInside, if_pos isInside, firstIh, firstIh [_]]
        simp
      · rw [if_neg isInside, if_neg isInside, firstIh]

theorem search_append (path : Stack K O) :
    tree.search way near inside path = tree.search way near inside [] ++ path := by
  induction tree using way.induct generalizing path with
  | atNull => rfl
  | atNode address left right height key value firstIh secondIh =>
      rw [search_node, search_node]
      by_cases isBefore : way.Before near.val key
      · rw [if_pos isBefore, if_pos isBefore]
        by_cases isInside : inside key
        · rw [if_pos isInside, if_pos isInside, firstIh, firstIh [_]]
          simp
        · rw [if_neg isInside, if_neg isInside, firstIh]
      · rw [if_neg isBefore, if_neg isBefore]
        by_cases same : near.equals key
        · rw [if_pos same, if_pos same]
          rfl
        · rw [if_neg same, if_neg same, secondIh]

omit [LinearOrder K] in
/-- What is pushed are nodes of the tree. -/
theorem isSubtree_of_mem_spine {node : TreeNode K (List O)} {path : Stack K O}
    (member : node ∈ tree.spine way inside path) :
    node ∈ path ∨ node.IsSubtree tree ∧ node ≠ null := by
  induction tree using way.induct generalizing path with
  | atNull => exact Or.inl member
  | atNode address left right height key value firstIh _ =>
      rw [spine_node] at member
      rcases firstIh member with inPath | ⟨isSubtree, nonempty⟩
      · split_ifs at inPath with isInside
        · rcases List.mem_cons.mp inPath with rfl | inPath
          · exact Or.inr ⟨IsSubtree.refl _, by simp⟩
          · exact Or.inl inPath
        · exact Or.inl inPath
      · exact Or.inr ⟨isSubtree.trans (isSubtree_first way _), nonempty⟩

theorem isSubtree_of_mem_search {node : TreeNode K (List O)} {path : Stack K O}
    (member : node ∈ tree.search way near inside path) :
    node ∈ path ∨ node.IsSubtree tree ∧ node ≠ null := by
  induction tree using way.induct generalizing path with
  | atNull => exact Or.inl member
  | atNode address left right height key value firstIh secondIh =>
      rw [search_node] at member
      split_ifs at member with isBefore isInside same
      · rcases firstIh member with inPath | ⟨isSubtree, nonempty⟩
        · rcases List.mem_cons.mp inPath with rfl | inPath
          · exact Or.inr ⟨IsSubtree.refl _, by simp⟩
          · exact Or.inl inPath
        · exact Or.inr ⟨isSubtree.trans (isSubtree_first way _), nonempty⟩
      · rcases firstIh member with inPath | ⟨isSubtree, nonempty⟩
        · exact Or.inl inPath
        · exact Or.inr ⟨isSubtree.trans (isSubtree_first way _), nonempty⟩
      · rcases List.mem_cons.mp member with rfl | inPath
        · exact Or.inr ⟨IsSubtree.refl _, by simp⟩
        · exact Or.inl inPath
      · rcases secondIh member with inPath | ⟨isSubtree, nonempty⟩
        · exact Or.inl inPath
        · exact Or.inr ⟨isSubtree.trans (isSubtree_second way _), nonempty⟩

/-! ## The members of the families -/

theorem addRightTree_eq (cmax : Compare K) (path : Stack K O) :
    tree.addRightTree cmax path = tree.spine .forward cmax.greaterthanequal path := by
  induction tree generalizing path with
  | null => rfl
  | node address left right height key value leftIh _ => exact leftIh _

theorem addLeftTree_eq (cmin : Compare K) (path : Stack K O) :
    tree.addLeftTree cmin path = tree.spine .reverse cmin.lessthanequal path := by
  induction tree generalizing path with
  | null => rfl
  | node address left right height key value _ rightIh => exact rightIh _

omit [LinearOrder K] in
theorem addFullRightTree_eq (path : Stack K O) :
    tree.addFullRightTree path = tree.spine .forward (fun _ => true) path := by
  induction tree generalizing path with
  | null => rfl
  | node address left right height key value leftIh _ => exact leftIh _

omit [LinearOrder K] in
theorem addFullLeftTree_eq (path : Stack K O) :
    tree.addFullLeftTree path = tree.spine .reverse (fun _ => true) path := by
  induction tree generalizing path with
  | null => rfl
  | node address left right height key value _ rightIh => exact rightIh _

theorem findStart_eq (cmin cmax : Compare K) (path : Stack K O) :
    tree.findStart cmin cmax path = tree.search .forward cmin cmax.greaterthanequal path := by
  induction tree generalizing path with
  | null => rfl
  | node address left right height key value leftIh rightIh =>
      rw [findStart, leftIh, rightIh]
      rfl

theorem findStartReverse_eq (cmin cmax : Compare K) (path : Stack K O) :
    tree.findStartReverse cmin cmax path =
      tree.search .reverse cmax cmin.lessthanequal path := by
  induction tree generalizing path with
  | null => rfl
  | node address left right height key value leftIh rightIh =>
      rw [findStartReverse, leftIh, rightIh]
      rfl

theorem findStartMax_eq (cmin : Compare K) (path : Stack K O) :
    tree.findStartMax cmin path = tree.search .forward cmin (fun _ => true) path := by
  induction tree generalizing path with
  | null => rfl
  | node address left right height key value leftIh rightIh =>
      rw [findStartMax, leftIh, rightIh]
      rfl

theorem findStartMinReverse_eq (cmax : Compare K) (path : Stack K O) :
    tree.findStartMinReverse cmax path = tree.search .reverse cmax (fun _ => true) path := by
  induction tree generalizing path with
  | null => rfl
  | node address left right height key value leftIh rightIh =>
      rw [findStartMinReverse, leftIh, rightIh]
      rfl

end Stacks

end TreeNode

end Pmgd
