import Pmgd.AvlInsertions
import Pmgd.IndexPositions

/-!
# Changes of an index under an iterator

The stack of an iterator depends on the nodes above its key only.  It stays right when their
values change.
-/

namespace Pmgd

open SortedInsert

variable {K O : Type*}

namespace TreeNode

/-! ## Values -/

/-- The same nodes with other values. -/
def mapValues {V W : Type*} (change : Nat → V → W) : TreeNode K V → TreeNode K W
  | null => null
  | node address left right height key value =>
      node address (left.mapValues change) (right.mapValues change) height key
        (change address value)

section MapValues

variable {V W : Type*} (change : Nat → V → W)

theorem entries_mapValues (tree : TreeNode K V) :
    (tree.mapValues change).entries =
      tree.entries.map fun entry =>
        ⟨entry.address, entry.key, change entry.address entry.value⟩ := by
  induction tree with
  | null => rfl
  | node address left right height key value leftIh rightIh =>
      simp [mapValues, leftIh, rightIh]

theorem addresses_mapValues (tree : TreeNode K V) :
    (tree.mapValues change).addresses = tree.addresses := by
  rw [addresses, entries_mapValues, List.map_map]
  rfl

theorem height_mapValues (tree : TreeNode K V) :
    (tree.mapValues change).height = tree.height := by
  cases tree <;> rfl

theorem heightsOk_mapValues {tree : TreeNode K V} (ok : tree.HeightsOk) :
    (tree.mapValues change).HeightsOk := by
  induction tree with
  | null => exact ok
  | node address left right height key value leftIh rightIh =>
      obtain ⟨leftOk, rightOk, isHeight⟩ := ok
      refine ⟨leftIh leftOk, rightIh rightOk, ?_⟩
      rw [height_mapValues, height_mapValues, isHeight]

theorem balanced_mapValues {tree : TreeNode K V} (balanced : tree.Balanced) :
    (tree.mapValues change).Balanced := by
  induction tree with
  | null => exact balanced
  | node address left right height key value leftIh rightIh =>
      obtain ⟨leftBalanced, rightBalanced, low, high⟩ := balanced
      refine ⟨leftIh leftBalanced, rightIh rightBalanced, ?_⟩
      rw [height_mapValues, height_mapValues]
      exact ⟨low, high⟩

variable [LinearOrder K]

theorem ordered_mapValues {tree : TreeNode K V} (ordered : tree.Ordered) :
    (tree.mapValues change).Ordered := by
  rw [Ordered, entries_mapValues, SortedBy, List.pairwise_map]
  exact ordered

theorem isAvl_mapValues {tree : TreeNode K V} (isAvl : tree.IsAvl) :
    (tree.mapValues change).IsAvl where
  ordered := ordered_mapValues change isAvl.ordered
  heightsOk := heightsOk_mapValues change isAvl.heightsOk
  balanced := balanced_mapValues change isAvl.balanced
  distinct := by
    rw [addresses_mapValues]
    exact isAvl.distinct

end MapValues

/-! ## Stacks -/

section Stacks

variable {V : Type*} [LinearOrder K] {way : Way} {inside : K → Bool}

/-- The pointers that a search for a key pushes. -/
theorem pointers_search_node (address : Nat) (left right : TreeNode K (List O)) (height : Int)
    (key : K) (value : List O) (cur : K) :
    pointers ((node address left right height key value).search way ⟨cur, true⟩ inside []) =
      if way.Before cur key then
        pointers ((way.first (node address left right height key value)).search way ⟨cur, true⟩
          inside []) ++ if inside key then [address] else []
      else if way.Before key cur then
        pointers ((way.second (node address left right height key value)).search way ⟨cur, true⟩
          inside [])
      else
        [address] := by
  rcases Way.Before.trichotomy way cur key with before | rfl | after
  · rw [search_of_before before, if_pos before, search_append, pointers_append]
    split_ifs <;> rfl
  · rw [search_self, if_neg (Way.Before.irrefl way cur), if_neg (Way.Before.irrefl way cur)]
    rfl
  · rw [search_of_after after, if_neg after.asymm, if_pos after]

/-- Only the child on the way to the key matters. -/
theorem pointers_search_congr {P : Type*} {cur key : K} {left right : TreeNode K (List O)}
    {newLeft newRight : TreeNode K (List P)}
    (sameLeft : cur < key → pointers (newLeft.search way ⟨cur, true⟩ inside []) =
      pointers (left.search way ⟨cur, true⟩ inside []))
    (sameRight : key < cur → pointers (newRight.search way ⟨cur, true⟩ inside []) =
      pointers (right.search way ⟨cur, true⟩ inside []))
    (address : Nat) (height newHeight : Int) (value : List O) (newValue : List P) :
    pointers ((node address newLeft newRight newHeight key newValue).search way ⟨cur, true⟩
        inside []) =
      pointers ((node address left right height key value).search way ⟨cur, true⟩ inside []) := by
  rw [pointers_search_node, pointers_search_node]
  cases way with
  | forward =>
      by_cases before : Way.forward.Before cur key
      · have same := sameLeft before
        rw [if_pos before, if_pos before]
        exact congrArg (· ++ _) same
      · rw [if_neg before, if_neg before]
        by_cases after : Way.forward.Before key cur
        · have same := sameRight after
          rw [if_pos after, if_pos after]
          exact same
        · rw [if_neg after, if_neg after]
  | reverse =>
      by_cases before : Way.reverse.Before cur key
      · have same := sameRight before
        rw [if_pos before, if_pos before]
        exact congrArg (· ++ _) same
      · rw [if_neg before, if_neg before]
        by_cases after : Way.reverse.Before key cur
        · have same := sameLeft after
          rw [if_pos after, if_pos after]
          exact same
        · rw [if_neg after, if_neg after]

theorem pointers_search_mapValues {P : Type*} (change : Nat → List O → List P)
    (tree : TreeNode K (List O)) (cur : K) :
    pointers ((tree.mapValues change).search way ⟨cur, true⟩ inside []) =
      pointers (tree.search way ⟨cur, true⟩ inside []) := by
  induction tree with
  | null => rfl
  | node address left right height key value leftIh rightIh =>
      exact pointers_search_congr (fun _ => leftIh) (fun _ => rightIh) _ _ _ _ _

end Stacks

end TreeNode

/-! ## Iterators -/

section Iterators

variable [LinearOrder K] {bounds : IndexRange K} {before after : TreeNode K (List (ListNode O))}
  {old entry : TreeEntry K (List (ListNode O))}

/-- An iterator stays right when the search for its key leaves the same stack. -/
theorem cursorAt_congr (sameAddress : entry.address = old.address)
    (samePath : pointers (after.search bounds.way ⟨entry.key, true⟩ bounds.inside []) =
      pointers (before.search bounds.way ⟨old.key, true⟩ bounds.inside []))
    (element : ListNode O) (vacantFlag : Bool) :
    bounds.cursorAt before old element vacantFlag =
      bounds.cursorAt after entry element vacantFlag := by
  rw [IndexRange.cursorAt, IndexRange.cursorAt, sameAddress, samePath]

end Iterators

end Pmgd
