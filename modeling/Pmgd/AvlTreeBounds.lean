import Pmgd.AvlTreeIndex

/-!
# One-sided and unbounded ranges of an index

An iterator with one bound looks for its first key either at the end of the tree, and checks
the bound whenever it puts a node on the stack, or at the bound, and checks nothing after it.
Without a bound it reads all keys.
-/

namespace Pmgd

open SortedInsert TreeNode

variable {K O : Type*}

/-- The operators of `PropertyPredicate` with one bound. -/
inductive BoundOp
  | gt
  | ge
  | lt
  | le
  deriving DecidableEq, Repr

section Compare

variable [LinearOrder K]

/-- `PropertyFilter::operator()` for these operators. -/
def boundFilter (op : BoundOp) (v1 val : K) : Bool :=
  match op with
  | .gt => decide (v1 < val)
  | .ge => !decide (val < v1)
  | .lt => decide (val < v1)
  | .le => !decide (v1 < val)

namespace TreeNode

/-- The same code as `add_right_tree`. -/
def findStartMin (tree : TreeNode K (List O)) (cmax : Compare K) (path : Stack K O) :
    Stack K O :=
  tree.addRightTree cmax path

def findStartMax (cmin : Compare K) : TreeNode K (List O) → Stack K O → Stack K O
  | null, path => path
  | node address left right height key value, path =>
      let root := node address left right height key value
      if cmin.lessthan key then
        left.findStartMax cmin (root :: path)
      else if cmin.equals key then
        root :: path
      else
        right.findStartMax cmin path

/-- The same code as `add_left_tree`. -/
def findStartMaxReverse (tree : TreeNode K (List O)) (cmin : Compare K) (path : Stack K O) :
    Stack K O :=
  tree.addLeftTree cmin path

def findStartMinReverse (cmax : Compare K) : TreeNode K (List O) → Stack K O → Stack K O
  | null, path => path
  | node address left right height key value, path =>
      let root := node address left right height key value
      if cmax.greaterthan key then
        right.findStartMinReverse cmax (root :: path)
      else if cmax.equals key then
        root :: path
      else
        left.findStartMinReverse cmax path

end TreeNode

end Compare

namespace TreeNode

/-- The same code as `add_full_right_tree`. -/
def findStartAll (tree : TreeNode K (List O)) (path : Stack K O) : Stack K O :=
  tree.addFullRightTree path

/-- The same code as `add_full_left_tree`. -/
def findStartAllReverse (tree : TreeNode K (List O)) (path : Stack K O) : Stack K O :=
  tree.addFullLeftTree path

end TreeNode

variable [LinearOrder K]

namespace AvlTreeIndex

/-- `get_iterator` for one bound. -/
def getBoundIterator (index : AvlTreeIndex K O) (key : K) (op : BoundOp) (reverse : Bool) :
    IndexIterator K O :=
  let nomax (compare : Compare K) :=
    IndexIterator.finishInit .nomax (index.tree.findStartMax compare [])
  let nomin (compare : Compare K) :=
    IndexIterator.finishInit .nomin (index.tree.findStartMinReverse compare [])
  let range (compare : Compare K) :=
    IndexIterator.finishInit (.forward compare) (index.tree.findStartMin compare [])
  let rangeReverse (compare : Compare K) :=
    IndexIterator.finishInit (.reverse compare) (index.tree.findStartMaxReverse compare [])
  match op with
  | .lt => if !reverse then range ⟨key, false⟩ else nomin ⟨key, false⟩
  | .le => if !reverse then range ⟨key, true⟩ else nomin ⟨key, true⟩
  | .gt => if !reverse then nomax ⟨key, false⟩ else rangeReverse ⟨key, false⟩
  | .ge => if !reverse then nomax ⟨key, true⟩ else rangeReverse ⟨key, true⟩

/-- `get_iterator` for `DontCare`. -/
def getAllIterator (index : AvlTreeIndex K O) (reverse : Bool) : IndexIterator K O :=
  if !reverse then
    IndexIterator.finishInit .nomax (index.tree.findStartAll [])
  else
    IndexIterator.finishInit .nomin (index.tree.findStartAllReverse [])

end AvlTreeIndex

/-! ## The first keys -/

theorem Compare.lessthanequal_of_lt {cmin : Compare K} {key : K} (after : cmin.val < key) :
    cmin.lessthanequal key = true := by
  simp [Compare.lessthanequal, after]

theorem Compare.greaterthanequal_of_gt {cmax : Compare K} {key : K} (before : key < cmax.val) :
    cmax.greaterthanequal key = true := by
  simp [Compare.greaterthanequal, before]

theorem findStartMax_pending (cmin : Compare K) {tree : TreeNode K (List O)} {path : Stack K O}
    (isIndex : IsIndex tree) (isPath : IsPath path) :
    IsPath (tree.findStartMax cmin path) ∧
      IndexRange.nomax.pending (tree.findStartMax cmin path) =
        tree.entries.filter (fun entry => cmin.lessthanequal entry.key) ++
          IndexRange.nomax.pending path := by
  induction tree generalizing path with
  | null => exact ⟨isPath, rfl⟩
  | node address left right height key value leftIh rightIh =>
      obtain ⟨leftIndex, rightIndex, -, below, above⟩ := isIndex_node.mp isIndex
      have allRight (notAfter : cmin.val ≤ key) : right.entries.filter
          (fun entry => cmin.lessthanequal entry.key) = right.entries :=
        List.filter_eq_self.mpr fun entry member =>
          Compare.lessthanequal_of_lt (notAfter.trans_lt (above entry member))
      rw [findStartMax]
      by_cases after : cmin.val < key
      · obtain ⟨stillPath, isPending⟩ := leftIh leftIndex (isPath.cons isIndex (by simp))
        rw [if_pos (by simpa [Compare.lessthan] using after), entries_node, List.filter_append,
          List.filter_cons, if_pos (Compare.lessthanequal_of_lt after), allRight after.le]
        refine ⟨stillPath, ?_⟩
        rw [isPending, pending_cons]
        simp [IndexRange.visits, IndexRange.later, rootEntry]
      · -- no key on the left is as large as the bound
        have noneLeft : left.entries.filter (fun entry => cmin.lessthanequal entry.key) = [] := by
          refine List.filter_eq_nil_iff.mpr fun entry member => ?_
          have smaller := (below entry member).trans_le (not_lt.mp after)
          simp [Compare.lessthanequal, Compare.equals, smaller.not_gt, smaller.ne']
        rw [if_neg (by simpa [Compare.lessthan] using after), entries_node, List.filter_append,
          noneLeft, List.nil_append, List.filter_cons]
        by_cases isMin : cmin.equals key = true
        · have same : cmin.val = key := by
            simp only [Compare.equals, Bool.and_eq_true, decide_eq_true_eq] at isMin
            exact isMin.1
          rw [if_pos isMin, if_pos (by simp [Compare.lessthanequal, isMin]), allRight same.le]
          refine ⟨isPath.cons isIndex (by simp), ?_⟩
          rw [pending_cons]
          simp [IndexRange.visits, IndexRange.later, rootEntry]
        · rw [if_neg isMin, if_neg (by simpa [Compare.lessthanequal, after] using isMin)]
          exact rightIh rightIndex isPath

theorem findStartMinReverse_pending (cmax : Compare K) {tree : TreeNode K (List O)}
    {path : Stack K O} (isIndex : IsIndex tree) (isPath : IsPath path) :
    IsPath (tree.findStartMinReverse cmax path) ∧
      IndexRange.nomin.pending (tree.findStartMinReverse cmax path) =
        tree.entries.reverse.filter (fun entry => cmax.greaterthanequal entry.key) ++
          IndexRange.nomin.pending path := by
  induction tree generalizing path with
  | null => exact ⟨isPath, rfl⟩
  | node address left right height key value leftIh rightIh =>
      obtain ⟨leftIndex, rightIndex, -, below, above⟩ := isIndex_node.mp isIndex
      have reversed : (node address left right height key value).entries.reverse =
          right.entries.reverse ++ ⟨address, key, value⟩ :: left.entries.reverse := by
        simp
      have allLeft (notBefore : key ≤ cmax.val) : left.entries.reverse.filter
          (fun entry => cmax.greaterthanequal entry.key) = left.entries.reverse :=
        List.filter_eq_self.mpr fun entry member => Compare.greaterthanequal_of_gt
          ((below entry (List.mem_reverse.mp member)).trans_le notBefore)
      rw [findStartMinReverse, reversed]
      by_cases before : key < cmax.val
      · obtain ⟨stillPath, isPending⟩ := rightIh rightIndex (isPath.cons isIndex (by simp))
        rw [if_pos (by simpa [Compare.greaterthan] using before), List.filter_append,
          List.filter_cons, if_pos (Compare.greaterthanequal_of_gt before), allLeft before.le]
        refine ⟨stillPath, ?_⟩
        rw [isPending, pending_cons]
        simp [IndexRange.visits, IndexRange.later, rootEntry]
      · have noneRight : right.entries.reverse.filter
            (fun entry => cmax.greaterthanequal entry.key) = [] := by
          refine List.filter_eq_nil_iff.mpr fun entry member => ?_
          have larger :=
            (not_lt.mp before).trans_lt (above entry (List.mem_reverse.mp member))
          simp [Compare.greaterthanequal, Compare.equals, larger.not_gt, larger.ne]
        rw [if_neg (by simpa [Compare.greaterthan] using before), List.filter_append, noneRight,
          List.nil_append, List.filter_cons]
        by_cases isMax : cmax.equals key = true
        · have same : cmax.val = key := by
            simp only [Compare.equals, Bool.and_eq_true, decide_eq_true_eq] at isMax
            exact isMax.1
          rw [if_pos isMax, if_pos (by simp [Compare.greaterthanequal, isMax]),
            allLeft same.ge]
          refine ⟨isPath.cons isIndex (by simp), ?_⟩
          rw [pending_cons]
          simp [IndexRange.visits, IndexRange.later, rootEntry]
        · rw [if_neg isMax, if_neg (by simpa [Compare.greaterthanequal, before] using isMax)]
          exact leftIh leftIndex isPath

/-! ## The iterations -/

namespace AvlTreeIndex

theorem isIndex (index : AvlTreeIndex K O) : IsIndex index.tree :=
  ⟨index.ordered, index.nonempty⟩

theorem yields_of_pending {range : IndexRange K} {path : Stack K O}
    {entries : List (TreeEntry K (List O))}
    (spec : IsPath path ∧ range.pending path = entries ++ range.pending []) :
    (IndexIterator.finishInit range path).Yields (entries.flatMap TreeEntry.value) := by
  have yields := IndexIterator.finishInit_yields range spec.1
  rw [spec.2, pending_nil, List.append_nil] at yields
  exact yields

/-- The objects whose key passes the filter, in the order of their keys. -/
def within (index : AvlTreeIndex K O) (passes : K → Bool) : List O :=
  (index.tree.entries.filter fun entry => passes entry.key).flatMap TreeEntry.value

/-- The same in descending order of the keys. -/
def withinReverse (index : AvlTreeIndex K O) (passes : K → Bool) : List O :=
  (index.tree.entries.reverse.filter fun entry => passes entry.key).flatMap TreeEntry.value

theorem nomax_yields (index : AvlTreeIndex K O) (cmin : Compare K) :
    (IndexIterator.finishInit .nomax (index.tree.findStartMax cmin [])).Yields
      (index.within cmin.lessthanequal) :=
  yields_of_pending (findStartMax_pending cmin index.isIndex isPath_nil)

theorem nomin_yields (index : AvlTreeIndex K O) (cmax : Compare K) :
    (IndexIterator.finishInit .nomin (index.tree.findStartMinReverse cmax [])).Yields
      (index.withinReverse cmax.greaterthanequal) :=
  yields_of_pending (findStartMinReverse_pending cmax index.isIndex isPath_nil)

theorem forward_yields (index : AvlTreeIndex K O) (cmax : Compare K) :
    (IndexIterator.finishInit (.forward cmax) (index.tree.findStartMin cmax [])).Yields
      (index.within cmax.greaterthanequal) :=
  yields_of_pending (addRightTree_pending index.isIndex isPath_nil)

theorem reverse_yields (index : AvlTreeIndex K O) (cmin : Compare K) :
    (IndexIterator.finishInit (.reverse cmin) (index.tree.findStartMaxReverse cmin [])).Yields
      (index.withinReverse cmin.lessthanequal) :=
  yields_of_pending (addLeftTree_pending index.isIndex isPath_nil)

/-- The filter of an operator is the comparison that its iterators make. -/
theorem boundFilter_eq (op : BoundOp) (v1 : K) :
    boundFilter op v1 = match op with
      | .gt => (⟨v1, false⟩ : Compare K).lessthanequal
      | .ge => (⟨v1, true⟩ : Compare K).lessthanequal
      | .lt => (⟨v1, false⟩ : Compare K).greaterthanequal
      | .le => (⟨v1, true⟩ : Compare K).greaterthanequal := by
  funext val
  cases op with
  | gt => exact (Compare.lessthanequal_eq v1 false val).symm
  | ge => exact (Compare.lessthanequal_eq v1 true val).symm
  | lt => exact (Compare.greaterthanequal_eq v1 false val).symm
  | le => exact (Compare.greaterthanequal_eq v1 true val).symm

theorem getBoundIterator_yields (index : AvlTreeIndex K O) (key : K) (op : BoundOp) :
    (index.getBoundIterator key op false).Yields (index.within (boundFilter op key)) ∧
      (index.getBoundIterator key op true).Yields (index.withinReverse (boundFilter op key)) := by
  rw [boundFilter_eq]
  cases op with
  | gt => exact ⟨index.nomax_yields ⟨key, false⟩, index.reverse_yields ⟨key, false⟩⟩
  | ge => exact ⟨index.nomax_yields ⟨key, true⟩, index.reverse_yields ⟨key, true⟩⟩
  | lt => exact ⟨index.forward_yields ⟨key, false⟩, index.nomin_yields ⟨key, false⟩⟩
  | le => exact ⟨index.forward_yields ⟨key, true⟩, index.nomin_yields ⟨key, true⟩⟩

theorem getAllIterator_yields (index : AvlTreeIndex K O) :
    (index.getAllIterator false).Yields (index.within fun _ => true) ∧
      (index.getAllIterator true).Yields (index.withinReverse fun _ => true) := by
  have full := addFullRightTree_pending index.isIndex isPath_nil
  have fullReverse := addFullLeftTree_pending index.isIndex isPath_nil
  rw [← List.filter_true index.tree.entries] at full
  rw [← List.filter_true index.tree.entries.reverse] at fullReverse
  exact ⟨yields_of_pending full, yields_of_pending fullReverse⟩

/-- The iterators with one bound and without a bound end and yield all objects whose key
satisfies the predicate, in the order of the keys, and no other. -/
theorem openIterators_complete (index : AvlTreeIndex K O) :
    SortedBy TreeEntry.key index.tree.entries ∧
      (∀ key op,
        (index.getBoundIterator key op false).Yields (index.within (boundFilter op key)) ∧
          (index.getBoundIterator key op true).Yields
            (index.withinReverse (boundFilter op key))) ∧
      (index.getAllIterator false).Yields (index.within fun _ => true) ∧
        (index.getAllIterator true).Yields (index.withinReverse fun _ => true) :=
  ⟨index.ordered, index.getBoundIterator_yields, index.getAllIterator_yields⟩

end AvlTreeIndex

end Pmgd
