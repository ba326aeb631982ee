import Pmgd.AvlBalance
import Pmgd.IndexIteration

/-!
# Not-equal iteration

At the node of the excluded key, `add_nodes_neq` pushes the child that comes after it in its
place, and goes on with the child that comes before it.  What comes first in the pushed child is
never pushed.
-/

namespace Pmgd

open SortedInsert TreeNode

variable {K O : Type*} [LinearOrder K]

/-- The iterators with `Ne` leave nothing out: nothing comes first in the child that comes after
the excluded node. -/
def NeqComplete (way : Way) (other : K) (tree : TreeNode K (List O)) : Prop :=
  ∀ address left right height value,
    (node address left right height other value).IsSubtree tree →
      way.first (way.second (node address left right height other value)) = null

namespace TreeNode

/-- What `add_nodes_neq` leaves out. -/
def neqMissed (way : Way) (other : K) : TreeNode K (List O) → List (TreeEntry K (List O))
  | null => []
  | node address left right height key value =>
      if other = key then
        way.along (way.first (way.second (node address left right height key value)))
      else
        left.neqMissed way other ++ right.neqMissed way other

variable {way : Way} {other : K} {tree : TreeNode K (List O)}

omit [LinearOrder K] in
theorem along_eq (way : Way) (tree : TreeNode K (List O)) :
    way.along tree =
      way.along (way.first tree) ++ (rootEntry tree ++ way.along (way.second tree)) := by
  cases tree with
  | null => cases way <;> rfl
  | node address left right height key value => exact Way.along_node way ..

/-- The entries of a node apart from an excluded key. -/
theorem filter_along_node {address : Nat} {left right : TreeNode K (List O)} {height : Int}
    {key : K} {value : List O} (ordered : (node address left right height key value).Ordered) :
    let root := node address left right height key value
    ((way.along root).filter fun entry => decide (entry.key ≠ other)) =
      if other = key then
        way.along (way.first root) ++ way.along (way.second root)
      else
        ((way.along (way.first root)).filter fun entry => decide (entry.key ≠ other)) ++
          ⟨address, key, value⟩ ::
            (way.along (way.second root)).filter fun entry => decide (entry.key ≠ other) := by
  intro root
  obtain ⟨-, -, before, after⟩ := way.ordered_node ordered
  rw [Way.along_node, List.filter_append, List.filter_cons]
  split_ifs with kept isOther isOther
  · exact absurd isOther (Ne.symm (of_decide_eq_true kept))
  · rfl
  · rw [List.filter_eq_self.mpr, List.filter_eq_self.mpr]
    · intro entry member
      exact decide_eq_true (isOther ▸ (after entry member).ne.symm)
    · intro entry member
      exact decide_eq_true (isOther ▸ (before entry member).ne)
  · exact absurd (decide_eq_true (Ne.symm isOther)) kept

theorem absent_first_second (way : Way) {address : Nat} {left right : TreeNode K (List O)} {height : Int}
    {key : K} {value : List O} (ordered : (node address left right height key value).Ordered) :
    let root := node address left right height key value
    (∀ entry ∈ way.along (way.first root), entry.key ≠ key) ∧
      ∀ entry ∈ way.along (way.second root), entry.key ≠ key := by
  obtain ⟨-, -, before, after⟩ := way.ordered_node ordered
  exact ⟨fun entry member => (before entry member).ne,
    fun entry member => (after entry member).ne.symm⟩

/-- What is read comes in the right order. -/
theorem neqReads_sublist (ordered : tree.Ordered) :
    (tree.neqReads way other).Sublist
      ((way.along tree).filter fun entry => decide (entry.key ≠ other)) := by
  induction tree using way.induct with
  | atNull => exact List.nil_sublist _
  | atNode address left right height key value firstIh secondIh =>
      obtain ⟨firstOrdered, secondOrdered, -⟩ := way.ordered_node ordered
      rw [filter_along_node ordered, neqReads_node]
      split_ifs with isOther
      · obtain ⟨firstAbsent, -⟩ := absent_first_second way ordered
        rw [neqReads_of_absent (isOther ▸ firstAbsent),
          along_eq way (way.second (node address left right height key value))]
        exact (List.Sublist.refl _).append (List.sublist_append_right _ _)
      · exact (firstIh firstOrdered).append ((secondIh secondOrdered).cons_cons _)

/-- Every other entry is read or left out. -/
theorem neqReads_perm (way : Way) (other : K) (ordered : tree.Ordered) :
    ((way.along tree).filter fun entry => decide (entry.key ≠ other)).Perm
      (tree.neqReads way other ++ tree.neqMissed way other) := by
  induction tree using way.induct with
  | atNull => cases way <;> exact List.Perm.refl _
  | atNode address left right height key value firstIh secondIh =>
      obtain ⟨firstOrdered, secondOrdered, -⟩ := way.ordered_node ordered
      rw [filter_along_node ordered, neqReads_node]
      split_ifs with isOther
      · obtain ⟨firstAbsent, -⟩ := absent_first_second way ordered
        rw [neqReads_of_absent (isOther ▸ firstAbsent), neqMissed, if_pos isOther,
          List.append_assoc, along_eq way (way.second _)]
        exact (List.Perm.refl _).append List.perm_append_comm
      · let root := node address left right height key value
        have missed : ((way.first root).neqMissed way other ++
            (way.second root).neqMissed way other).Perm (root.neqMissed way other) := by
          simp only [root, neqMissed, if_neg isOther]
          cases way with
          | forward => exact List.Perm.refl _
          | reverse => exact List.perm_append_comm
        have both := (firstIh firstOrdered).append
          ((secondIh secondOrdered).cons ⟨address, key, value⟩)
        apply both.trans
        rw [List.append_assoc, List.append_assoc]
        apply List.Perm.append_left
        apply (List.perm_append_comm_assoc _ (_ :: _) _).trans
        exact missed.append_left _

theorem neqMissed_eq_nil_iff (ordered : tree.Ordered) :
    tree.neqMissed way other = [] ↔ NeqComplete way other tree := by
  have noneFirst (tree : TreeNode K (List O)) : way.along tree = [] ↔ tree = null := by
    cases tree with
    | null => simp
    | node address left right height key value => simp [Way.along_node]
  have absentIff {tree : TreeNode K (List O)} (absent : ∀ entry ∈ tree.entries, entry.key ≠ other) :
      NeqComplete way other tree := by
    intro address left right height value isSubtree
    exact absurd rfl (absent ⟨address, other, value⟩
      (isSubtree.rootEntry_mem (List.mem_singleton.mpr rfl)))
  induction tree with
  | null => exact ⟨fun _ => absentIff (by simp), fun _ => rfl⟩
  | node address left right height key value leftIh rightIh =>
      obtain ⟨leftOrdered, rightOrdered, below, above⟩ := TreeNode.ordered_node.mp ordered
      rw [neqMissed]
      split_ifs with isOther
      · subst isOther
        rw [noneFirst]
        constructor
        · intro noFirst otherAddress otherLeft otherRight otherHeight otherValue isSubtree
          rcases isSubtree with same | inLeft | inRight
          · rw [same]
            exact noFirst
          · exact absurd rfl (below _ (inLeft.rootEntry_mem (List.mem_singleton.mpr rfl))).ne
          · exact absurd rfl (above _ (inRight.rootEntry_mem (List.mem_singleton.mpr rfl))).ne
        · exact fun complete => complete _ _ _ _ _ (IsSubtree.refl _)
      · have leftIff := leftIh leftOrdered
        have rightIff := rightIh rightOrdered
        rw [List.append_eq_nil_iff]
        constructor
        · rintro ⟨leftComplete, rightComplete⟩ _ _ _ _ _ (same | inLeft | inRight)
          · cases same
            exact absurd rfl isOther
          · exact leftIff.mp leftComplete _ _ _ _ _ inLeft
          · exact rightIff.mp rightComplete _ _ _ _ _ inRight
        · intro complete
          constructor
          · exact leftIff.mpr fun _ _ _ _ _ inLeft => complete _ _ _ _ _ (Or.inr (Or.inl inLeft))
          · exact rightIff.mpr fun _ _ _ _ _ inRight =>
              complete _ _ _ _ _ (Or.inr (Or.inr inRight))

/-- Everything is read exactly when nothing is missed. -/
theorem neqReads_eq_iff (ordered : tree.Ordered) :
    tree.neqReads way other =
        ((way.along tree).filter fun entry => decide (entry.key ≠ other)) ↔
      NeqComplete way other tree := by
  rw [← neqMissed_eq_nil_iff ordered]
  have perm := neqReads_perm way other ordered
  constructor
  · intro same
    have lengths := perm.length_eq
    rw [List.length_append, same] at lengths
    exact List.length_eq_zero_iff.mp (by omega)
  · intro noneMissed
    rw [noneMissed, List.append_nil] at perm
    exact (neqReads_sublist ordered).eq_of_length perm.length_eq.symm

theorem mem_of_mem_neqReads (ordered : tree.Ordered) {entry : TreeEntry K (List O)}
    (member : entry ∈ tree.neqReads way other) : entry ∈ tree.entries :=
  (way.mem_along).mp (List.mem_of_mem_filter ((neqReads_sublist ordered).subset member))

end TreeNode

namespace PlacedIndex

/-- The list nodes of the keys that pass, in the order of a walk. -/
def along (index : PlacedIndex K O) (way : Way) (passes : K → Bool) : List (ListNode O) :=
  ((way.along index.tree).filter fun entry => passes entry.key).flatMap TreeEntry.value

end PlacedIndex

/-- The iterator with `Ne`. -/
theorem getIterator_ne (tree : TreeNode K (List (ListNode O))) (other : K) (way : Way) :
    IndexCursor.getIterator tree (.ne other) (decide (way = .reverse)) =
      IndexCursor.finishInit (.neq way other) (tree.addNodesNeqAlong way other []) := by
  cases way <;> rfl

theorem getIterator_ne_yields (index : PlacedIndex K O) (other : K) (way : Way) :
    (IndexCursor.getIterator index.tree (.ne other) (decide (way = .reverse))).Yields index.tree
      ((index.tree.neqReads way other).flatMap TreeEntry.value) := by
  have isStack : IsStack index.tree (index.tree.addNodesNeqAlong way other []) :=
    isStack_addNodesNeqAlong (IsSubtree.refl index.tree) (isStack_nil index.tree)
  have yields := IndexCursor.finishInit_yields (.neq way other) index.isPlaced isStack
  rw [addNodesNeqAlong_pending way other index.isPlaced.index.1, CursorKind.pending_nil,
    List.append_nil] at yields
  rw [getIterator_ne]
  exact yields

/-- A not-equal iterator reads all other keys exactly when nothing comes first in the child that
comes after the excluded node. -/
theorem neqIterator_complete_iff (index : PlacedIndex K O) (other : K) (way : Way) :
    (IndexCursor.getIterator index.tree (.ne other) (decide (way = .reverse))).Yields index.tree
        (index.along way fun key => decide (key ≠ other)) ↔
      NeqComplete way other index.tree := by
  have isIndex := index.isPlaced.index
  have yields := getIterator_ne_yields index other way
  rw [← neqReads_eq_iff isIndex.1]
  constructor
  · intro complete
    apply flatMap_value_injective index.isPlaced (fun _ => mem_of_mem_neqReads isIndex.1)
      (fun _ member => (way.mem_along).mp (List.mem_of_mem_filter member))
    exact yields.unique complete
  · intro same
    rw [PlacedIndex.along, ← same]
    exact yields

/-- A balanced index with one object for each key from 1 to 4, the key 2 at the root. -/
def fourKeys : PlacedIndex Nat Nat where
  tree := node 12 (node 11 null null 0 1 [⟨21, 71⟩])
    (node 14 (node 13 null null 0 3 [⟨23, 73⟩]) null 1 4 [⟨24, 74⟩]) 2 2 [⟨22, 72⟩]
  isPlaced := {
    index := by simp [IsIndex, Ordered, SortedBy]
    nodes := by decide
    elements := by decide }

theorem fourKeys_isAvl : fourKeys.tree.IsAvl where
  ordered := fourKeys.isPlaced.index.1
  heightsOk := by simp [fourKeys, HeightsOk, TreeNode.height]
  balanced := by simp [fourKeys, TreeNode.Balanced, TreeNode.height]
  distinct := fourKeys.isPlaced.nodes

/-- The iterator with `Ne 2` does not read the object of the key 3. -/
theorem notEqual_two_misses_three :
    fourKeys.tree.IsAvl ∧
      fourKeys.along .forward (fun key => decide (key ≠ 2)) = [⟨21, 71⟩, ⟨23, 73⟩, ⟨24, 74⟩] ∧
      (IndexCursor.getIterator fourKeys.tree (.ne 2) false).Yields fourKeys.tree
        [⟨21, 71⟩, ⟨24, 74⟩] ∧
      ¬ (IndexCursor.getIterator fourKeys.tree (.ne 2) false).Yields fourKeys.tree
        (fourKeys.along .forward fun key => decide (key ≠ 2)) := by
  have isAll : fourKeys.along .forward (fun key => decide (key ≠ 2)) =
      [⟨21, 71⟩, ⟨23, 73⟩, ⟨24, 74⟩] := by decide
  have yields : (IndexCursor.getIterator fourKeys.tree (.ne 2) false).Yields fourKeys.tree
      [⟨21, 71⟩, ⟨24, 74⟩] := ⟨4, by decide⟩
  refine ⟨fourKeys_isAvl, isAll, yields, fun complete => ?_⟩
  rw [isAll] at complete
  exact absurd (yields.unique complete) (by decide)

end Pmgd
