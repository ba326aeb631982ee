import Pmgd.AvlTree

/-!
# Two-sided ranges of an index

An index maps keys to lists of objects.  A range iterator walks down the tree to the first key
of the range and keeps the nodes that come later on a stack, of which it takes one after the
other, adding the nodes that come next of its subtree.  It checks the far bound whenever it
puts a node on the stack, except for a node that has the near bound itself as its key.
-/

namespace Pmgd

open SortedInsert TreeNode

variable {K O : Type*}

/-- An index: its tree is ordered, and a key that no object has is not in the tree. -/
structure AvlTreeIndex (K O : Type*) [LinearOrder K] where
  tree : TreeNode K (List O)
  ordered : tree.Ordered
  nonempty : ∀ entry ∈ tree.entries, entry.value ≠ []

/-- The two-sided operators of `PropertyPredicate`. -/
inductive RangeOp
  | geLe
  | geLt
  | gtLe
  | gtLt
  deriving DecidableEq, Repr

section Compare

variable [LinearOrder K]

/-- `PropertyFilter::operator()` on the value of a property that an object has; all
comparisons of properties are made from `<`. -/
def propertyFilter (op : RangeOp) (v1 v2 val : K) : Bool :=
  match op with
  | .geLe => !decide (val < v1) && !decide (v2 < val)
  | .geLt => !decide (val < v1) && decide (val < v2)
  | .gtLe => decide (v1 < val) && !decide (v2 < val)
  | .gtLt => decide (v1 < val) && decide (val < v2)

/-- `AvlTreeIndex::Compare`. -/
structure Compare (K : Type*) where
  val : K
  equal : Bool

namespace Compare

def equals (compare : Compare K) (key : K) : Bool :=
  decide (compare.val = key) && compare.equal

def lessthan (compare : Compare K) (key : K) : Bool :=
  decide (compare.val < key)

def lessthanequal (compare : Compare K) (key : K) : Bool :=
  decide (compare.val < key) || compare.equals key

def greaterthan (compare : Compare K) (key : K) : Bool :=
  decide (compare.val > key)

def greaterthanequal (compare : Compare K) (key : K) : Bool :=
  decide (compare.val > key) || compare.equals key

end Compare

/-! ## The stack -/

/-- The nodes on a path, the top first. -/
abbrev Stack (K O : Type*) :=
  List (TreeNode K (List O))

namespace TreeNode

def findStart (cmin cmax : Compare K) : TreeNode K (List O) → Stack K O → Stack K O
  | null, path => path
  | node address left right height key value, path =>
      let root := node address left right height key value
      if cmin.lessthan key then
        left.findStart cmin cmax (if cmax.greaterthanequal key then root :: path else path)
      else if cmin.equals key then
        root :: path
      else
        right.findStart cmin cmax path

def addRightTree (cmax : Compare K) : TreeNode K (List O) → Stack K O → Stack K O
  | null, path => path
  | node address left right height key value, path =>
      let root := node address left right height key value
      left.addRightTree cmax (if cmax.greaterthanequal key then root :: path else path)

def findStartReverse (cmin cmax : Compare K) : TreeNode K (List O) → Stack K O → Stack K O
  | null, path => path
  | node address left right height key value, path =>
      let root := node address left right height key value
      if cmax.greaterthan key then
        right.findStartReverse cmin cmax
          (if cmin.lessthanequal key then root :: path else path)
      else if cmax.equals key then
        root :: path
      else
        left.findStartReverse cmin cmax path

def addLeftTree (cmin : Compare K) : TreeNode K (List O) → Stack K O → Stack K O
  | null, path => path
  | node address left right height key value, path =>
      let root := node address left right height key value
      right.addLeftTree cmin (if cmin.lessthanequal key then root :: path else path)

def addFullRightTree : TreeNode K (List O) → Stack K O → Stack K O
  | null, path => path
  | node address left right height key value, path =>
      left.addFullRightTree (node address left right height key value :: path)

def addFullLeftTree : TreeNode K (List O) → Stack K O → Stack K O
  | null, path => path
  | node address left right height key value, path =>
      right.addFullLeftTree (node address left right height key value :: path)

end TreeNode

end Compare

/-! ## Iterators -/

/-- The subclasses of `Index_IteratorImplBase` for ranges, with the far bound if they have
one. -/
inductive IndexRange (K : Type*)
  | forward (cmax : Compare K)
  | reverse (cmin : Compare K)
  | nomax
  | nomin

/-- `Index_IteratorImplBase`: the current node, the stack, and the rest of the object list of
the current node from the current object on. -/
structure IndexIterator (K O : Type*) where
  range : IndexRange K
  curr : TreeNode K (List O)
  path : Stack K O
  listIt : List O
  vacantFlag : Bool

namespace TreeNode

/-- The object list of a node. -/
def objects : TreeNode K (List O) → List O
  | null => []
  | node _ _ _ _ _ value => value

end TreeNode

section Iterator

variable [LinearOrder K]

/-- `_next`. -/
def IndexRange.next (range : IndexRange K) (curr : TreeNode K (List O)) (path : Stack K O) :
    Stack K O :=
  match range with
  | .forward cmax => curr.right.addRightTree cmax path
  | .reverse cmin => curr.left.addLeftTree cmin path
  | .nomax => curr.right.addFullRightTree path
  | .nomin => curr.left.addFullLeftTree path

namespace IndexIterator

/-- `finish_init`. -/
def finishInit (range : IndexRange K) : Stack K O → IndexIterator K O
  | [] => ⟨range, null, [], [], false⟩
  | curr :: path => ⟨range, curr, path, curr.objects, false⟩

/-- `operator bool`. -/
def toBool (iterator : IndexIterator K O) : Bool :=
  iterator.vacantFlag || !iterator.listIt.isEmpty

/-- `ref`, `none` where it throws `VacantIterator`. -/
def ref (iterator : IndexIterator K O) : Option O :=
  if iterator.vacantFlag then none else iterator.listIt.head?

/-- `next`. -/
def next (iterator : IndexIterator K O) : IndexIterator K O :=
  if iterator.vacantFlag then
    { iterator with vacantFlag := false }
  else if iterator.listIt.tail.isEmpty then
    match iterator.range.next iterator.curr iterator.path with
    | [] => { iterator with path := [], listIt := [] }
    | curr :: path => { iterator with curr, path, listIt := curr.objects }
  else
    { iterator with listIt := iterator.listIt.tail }

/-- The loop of a caller that reads all objects. -/
def collect : Nat → IndexIterator K O → Option (List O)
  | 0, _ => none
  | fuel + 1, iterator =>
      if iterator.toBool then
        iterator.ref.bind fun object => (collect fuel iterator.next).map (object :: ·)
      else
        some []

/-- The iterator ends, and these are the objects that it reads. -/
def Yields (iterator : IndexIterator K O) (objects : List O) : Prop :=
  ∃ fuel, iterator.collect fuel = some objects

end IndexIterator

/-- `get_iterator` for two bounds. -/
def AvlTreeIndex.getIterator (index : AvlTreeIndex K O) (min max : K) (op : RangeOp)
    (reverse : Bool) : IndexIterator K O :=
  let (inclMin, inclMax) := match op with
    | .gtLt => (false, false)
    | .geLt => (true, false)
    | .gtLe => (false, true)
    | .geLe => (true, true)
  let cmin : Compare K := ⟨min, inclMin⟩
  let cmax : Compare K := ⟨max, inclMax⟩
  if reverse then
    IndexIterator.finishInit (.reverse cmin) (index.tree.findStartReverse cmin cmax [])
  else
    IndexIterator.finishInit (.forward cmax) (index.tree.findStart cmin cmax [])

end Iterator

/-! ## Filtered entries and their objects -/

/-- More entries give more objects, and the same objects only if they are the same. -/
theorem flatMap_filter_le (entries : List (TreeEntry K (List O)))
    {fewer more : TreeEntry K (List O) → Bool}
    (implies : ∀ entry, fewer entry = true → more entry = true) :
    ((entries.filter fewer).flatMap TreeEntry.value).length ≤
      ((entries.filter more).flatMap TreeEntry.value).length := by
  induction entries with
  | nil => exact le_rfl
  | cons entry entries ih =>
      rw [List.filter_cons, List.filter_cons]
      by_cases isFewer : fewer entry = true
      · rw [if_pos isFewer, if_pos (implies entry isFewer), List.flatMap_cons, List.flatMap_cons,
          List.length_append, List.length_append]
        omega
      · rw [if_neg isFewer]
        split_ifs
        · rw [List.flatMap_cons, List.length_append]
          omega
        · exact ih

theorem flatMap_filter_eq_iff {entries : List (TreeEntry K (List O))}
    (nonempty : ∀ entry ∈ entries, entry.value ≠ [])
    {fewer more : TreeEntry K (List O) → Bool}
    (implies : ∀ entry, fewer entry = true → more entry = true) :
    (entries.filter more).flatMap TreeEntry.value =
        (entries.filter fewer).flatMap TreeEntry.value ↔
      ∀ entry ∈ entries, more entry = true → fewer entry = true := by
  constructor
  · induction entries with
    | nil => exact fun _ => by simp
    | cons entry entries ih =>
        intro same
        have restNonempty : ∀ other ∈ entries, other.value ≠ [] := fun other member =>
          nonempty other (List.mem_cons_of_mem entry member)
        rw [List.filter_cons, List.filter_cons] at same
        rw [List.forall_mem_cons]
        by_cases isFewer : fewer entry = true
        · rw [if_pos isFewer, if_pos (implies entry isFewer), List.flatMap_cons,
            List.flatMap_cons, List.append_cancel_left_eq] at same
          exact ⟨fun _ => isFewer, ih restNonempty same⟩
        · rw [if_neg isFewer] at same
          split_ifs at same with isMore
          · have longer := congrArg List.length same
            have hasObjects : 0 < entry.value.length :=
              List.length_pos_iff.mpr (nonempty entry List.mem_cons_self)
            have atMost := flatMap_filter_le entries implies
            rw [List.flatMap_cons, List.length_append] at longer
            omega
          · exact ⟨fun absurdMore => absurd absurdMore isMore, ih restNonempty same⟩
  · intro agree
    rw [List.filter_congr fun entry member =>
      Bool.eq_iff_iff.mpr ⟨agree entry member, implies entry⟩]

/-! ## What a stack stands for -/

section Pending

variable [LinearOrder K]

/-- The tree is one of an index: ordered, and with objects for each key. -/
def IsIndex (tree : TreeNode K (List O)) : Prop :=
  tree.Ordered ∧ ∀ entry ∈ tree.entries, entry.value ≠ []

/-- The entries of a tree that are read after the far bound was checked. -/
def IndexRange.visits (range : IndexRange K) (tree : TreeNode K (List O)) :
    List (TreeEntry K (List O)) :=
  match range with
  | .forward cmax => tree.entries.filter fun entry => cmax.greaterthanequal entry.key
  | .reverse cmin => tree.entries.reverse.filter fun entry => cmin.lessthanequal entry.key
  | .nomax => tree.entries
  | .nomin => tree.entries.reverse

/-- The child with the keys that come after the one of the node. -/
def IndexRange.later (range : IndexRange K) (node : TreeNode K (List O)) :
    TreeNode K (List O) :=
  match range with
  | .forward _ | .nomax => node.right
  | .reverse _ | .nomin => node.left

/-- The entry of a node. -/
def rootEntry : TreeNode K (List O) → List (TreeEntry K (List O))
  | null => []
  | node address _ _ _ key value => [⟨address, key, value⟩]

/-- What is read from the nodes on a stack. -/
def IndexRange.pending (range : IndexRange K) (path : Stack K O) :
    List (TreeEntry K (List O)) :=
  path.flatMap fun node => rootEntry node ++ range.visits (range.later node)

/-- The nodes on a stack come from an index. -/
def IsPath (path : Stack K O) : Prop :=
  ∀ node ∈ path, IsIndex node ∧ node ≠ null

theorem IsPath.cons {node : TreeNode K (List O)} {path : Stack K O} (isIndex : IsIndex node)
    (nonempty : node ≠ null) (isPath : IsPath path) : IsPath (node :: path) := by
  intro other member
  rcases List.mem_cons.mp member with rfl | inPath
  · exact ⟨isIndex, nonempty⟩
  · exact isPath other inPath

variable {address : Nat} {left right : TreeNode K (List O)} {height : Int} {key : K}
  {value : List O}

theorem isIndex_node :
    IsIndex (node address left right height key value) ↔
      IsIndex left ∧ IsIndex right ∧ value ≠ [] ∧
        (∀ entry ∈ left.entries, entry.key < key) ∧
        ∀ entry ∈ right.entries, key < entry.key := by
  simp only [IsIndex, ordered_node, entries_node, List.mem_append, List.mem_cons]
  constructor
  · rintro ⟨⟨leftOrdered, rightOrdered, below, above⟩, nonempty⟩
    exact ⟨⟨leftOrdered, fun entry member => nonempty entry (Or.inl member)⟩,
      ⟨rightOrdered, fun entry member => nonempty entry (Or.inr (Or.inr member))⟩,
      nonempty ⟨address, key, value⟩ (Or.inr (Or.inl rfl)), below, above⟩
  · rintro ⟨⟨leftOrdered, leftNonempty⟩, ⟨rightOrdered, rightNonempty⟩, nonempty, below, above⟩
    refine ⟨⟨leftOrdered, rightOrdered, below, above⟩, fun entry member => ?_⟩
    rcases member with inLeft | rfl | inRight
    · exact leftNonempty entry inLeft
    · exact nonempty
    · exact rightNonempty entry inRight

theorem pending_nil (range : IndexRange K) : range.pending ([] : Stack K O) = [] :=
  rfl

theorem pending_cons (range : IndexRange K) (node : TreeNode K (List O)) (path : Stack K O) :
    range.pending (node :: path) =
      rootEntry node ++ range.visits (range.later node) ++ range.pending path :=
  List.flatMap_cons

theorem Compare.greaterthanequal_of_le {cmax : Compare K} {low high : K} (le : low ≤ high)
    (within : cmax.greaterthanequal high = true) : cmax.greaterthanequal low = true := by
  simp only [Compare.greaterthanequal, Compare.equals, Bool.or_eq_true, Bool.and_eq_true,
    decide_eq_true_eq] at within ⊢
  rcases within with after | ⟨same, equal⟩
  · exact Or.inl (le.trans_lt after)
  · rcases (same ▸ le : low ≤ cmax.val).lt_or_eq with before | isMax
    · exact Or.inl before
    · exact Or.inr ⟨isMax.symm, equal⟩

theorem Compare.lessthanequal_of_le {cmin : Compare K} {low high : K} (le : low ≤ high)
    (within : cmin.lessthanequal low = true) : cmin.lessthanequal high = true := by
  simp only [Compare.lessthanequal, Compare.equals, Bool.or_eq_true, Bool.and_eq_true,
    decide_eq_true_eq] at within ⊢
  rcases within with before | ⟨same, equal⟩
  · exact Or.inl (before.trans_le le)
  · rcases (same ▸ le : cmin.val ≤ high).lt_or_eq with before | isMin
    · exact Or.inl before
    · exact Or.inr ⟨isMin, equal⟩

/-! ## The functions that fill the stack -/

theorem addRightTree_pending {cmax : Compare K} {tree : TreeNode K (List O)} {path : Stack K O}
    (isIndex : IsIndex tree) (isPath : IsPath path) :
    IsPath (tree.addRightTree cmax path) ∧
      (IndexRange.forward cmax).pending (tree.addRightTree cmax path) =
        (IndexRange.forward cmax).visits tree ++ (IndexRange.forward cmax).pending path := by
  induction tree generalizing path with
  | null => exact ⟨isPath, rfl⟩
  | node address left right height key value leftIh rightIh =>
      obtain ⟨leftIndex, rightIndex, -, below, above⟩ := isIndex_node.mp isIndex
      rw [addRightTree]
      split_ifs with within
      · obtain ⟨stillPath, isPending⟩ := leftIh leftIndex (isPath.cons isIndex (by simp))
        refine ⟨stillPath, ?_⟩
        rw [isPending, pending_cons]
        simp [IndexRange.visits, IndexRange.later, rootEntry, within]
      · obtain ⟨stillPath, isPending⟩ := leftIh leftIndex isPath
        refine ⟨stillPath, ?_⟩
        have beyond : right.entries.filter
            (fun entry => cmax.greaterthanequal entry.key) = [] := by
          refine List.filter_eq_nil_iff.mpr fun entry member isWithin => within ?_
          exact Compare.greaterthanequal_of_le (above entry member).le isWithin
        rw [isPending]
        simp [IndexRange.visits, within, beyond]

theorem addLeftTree_pending {cmin : Compare K} {tree : TreeNode K (List O)} {path : Stack K O}
    (isIndex : IsIndex tree) (isPath : IsPath path) :
    IsPath (tree.addLeftTree cmin path) ∧
      (IndexRange.reverse cmin).pending (tree.addLeftTree cmin path) =
        (IndexRange.reverse cmin).visits tree ++ (IndexRange.reverse cmin).pending path := by
  induction tree generalizing path with
  | null => exact ⟨isPath, rfl⟩
  | node address left right height key value leftIh rightIh =>
      obtain ⟨leftIndex, rightIndex, -, below, above⟩ := isIndex_node.mp isIndex
      rw [addLeftTree]
      split_ifs with within
      · obtain ⟨stillPath, isPending⟩ := rightIh rightIndex (isPath.cons isIndex (by simp))
        refine ⟨stillPath, ?_⟩
        rw [isPending, pending_cons]
        simp [IndexRange.visits, IndexRange.later, rootEntry, within]
      · obtain ⟨stillPath, isPending⟩ := rightIh rightIndex isPath
        refine ⟨stillPath, ?_⟩
        have beyond : left.entries.filter
            (fun entry => cmin.lessthanequal entry.key) = [] := by
          refine List.filter_eq_nil_iff.mpr fun entry member isWithin => within ?_
          exact Compare.lessthanequal_of_le (below entry member).le isWithin
        rw [isPending]
        simp [IndexRange.visits, within, beyond]

theorem addFullRightTree_pending {tree : TreeNode K (List O)} {path : Stack K O}
    (isIndex : IsIndex tree) (isPath : IsPath path) :
    IsPath (tree.addFullRightTree path) ∧
      IndexRange.nomax.pending (tree.addFullRightTree path) =
        tree.entries ++ IndexRange.nomax.pending path := by
  induction tree generalizing path with
  | null => exact ⟨isPath, rfl⟩
  | node address left right height key value leftIh rightIh =>
      obtain ⟨leftIndex, -⟩ := isIndex_node.mp isIndex
      obtain ⟨stillPath, isPending⟩ := leftIh leftIndex (isPath.cons isIndex (by simp))
      rw [addFullRightTree]
      refine ⟨stillPath, ?_⟩
      rw [isPending, pending_cons]
      simp [IndexRange.visits, IndexRange.later, rootEntry]

theorem addFullLeftTree_pending {tree : TreeNode K (List O)} {path : Stack K O}
    (isIndex : IsIndex tree) (isPath : IsPath path) :
    IsPath (tree.addFullLeftTree path) ∧
      IndexRange.nomin.pending (tree.addFullLeftTree path) =
        tree.entries.reverse ++ IndexRange.nomin.pending path := by
  induction tree generalizing path with
  | null => exact ⟨isPath, rfl⟩
  | node address left right height key value leftIh rightIh =>
      obtain ⟨-, rightIndex, -⟩ := isIndex_node.mp isIndex
      obtain ⟨stillPath, isPending⟩ := rightIh rightIndex (isPath.cons isIndex (by simp))
      rw [addFullLeftTree]
      refine ⟨stillPath, ?_⟩
      rw [isPending, pending_cons]
      simp [IndexRange.visits, IndexRange.later, rootEntry]

/-- The keys that a forward iterator reads: the minimum is not compared with the maximum. -/
def forwardReads (cmin cmax : Compare K) (key : K) : Bool :=
  cmin.lessthan key && cmax.greaterthanequal key || cmin.equals key

/-- The keys that a reverse iterator reads: the maximum is not compared with the minimum. -/
def reverseReads (cmin cmax : Compare K) (key : K) : Bool :=
  cmax.greaterthan key && cmin.lessthanequal key || cmax.equals key

theorem forwardReads_of_lt {cmin : Compare K} (cmax : Compare K) {key : K}
    (after : cmin.val < key) : forwardReads cmin cmax key = cmax.greaterthanequal key := by
  simp [forwardReads, Compare.lessthan, Compare.equals, after, after.ne]

theorem forwardReads_of_gt {cmin : Compare K} (cmax : Compare K) {key : K}
    (before : key < cmin.val) : forwardReads cmin cmax key = false := by
  simp [forwardReads, Compare.lessthan, Compare.equals, before.not_gt, before.ne']

theorem reverseReads_of_gt (cmin : Compare K) {cmax : Compare K} {key : K}
    (before : key < cmax.val) : reverseReads cmin cmax key = cmin.lessthanequal key := by
  simp [reverseReads, Compare.greaterthan, Compare.equals, before, before.ne']

theorem reverseReads_of_lt (cmin : Compare K) {cmax : Compare K} {key : K}
    (after : cmax.val < key) : reverseReads cmin cmax key = false := by
  simp [reverseReads, Compare.greaterthan, Compare.equals, after.not_gt, after.ne]

theorem findStart_pending (cmin cmax : Compare K) {tree : TreeNode K (List O)}
    {path : Stack K O} (isIndex : IsIndex tree) (isPath : IsPath path) :
    IsPath (tree.findStart cmin cmax path) ∧
      (IndexRange.forward cmax).pending (tree.findStart cmin cmax path) =
        tree.entries.filter (fun entry => forwardReads cmin cmax entry.key) ++
          (IndexRange.forward cmax).pending path := by
  induction tree generalizing path with
  | null => exact ⟨isPath, rfl⟩
  | node address left right height key value leftIh rightIh =>
      obtain ⟨leftIndex, rightIndex, -, below, above⟩ := isIndex_node.mp isIndex
      rw [findStart]
      by_cases after : cmin.val < key
      · have inRight : right.entries.filter (fun entry => forwardReads cmin cmax entry.key) =
            right.entries.filter fun entry => cmax.greaterthanequal entry.key :=
          List.filter_congr fun entry member =>
            forwardReads_of_lt cmax (after.trans (above entry member))
        rw [if_pos (by simpa [Compare.lessthan] using after), entries_node, List.filter_append,
          List.filter_cons, forwardReads_of_lt cmax after, inRight]
        split_ifs with within
        · obtain ⟨stillPath, isPending⟩ := leftIh leftIndex (isPath.cons isIndex (by simp))
          refine ⟨stillPath, ?_⟩
          rw [isPending, pending_cons]
          simp [IndexRange.visits, IndexRange.later, rootEntry]
        · obtain ⟨stillPath, isPending⟩ := leftIh leftIndex isPath
          have beyond : right.entries.filter
              (fun entry => cmax.greaterthanequal entry.key) = [] := by
            refine List.filter_eq_nil_iff.mpr fun entry member isWithin => within ?_
            exact Compare.greaterthanequal_of_le (above entry member).le isWithin
          exact ⟨stillPath, by rw [isPending, beyond, List.append_nil]⟩
      · -- no key on the left is as large as the minimum
        have inLeft :
            left.entries.filter (fun entry => forwardReads cmin cmax entry.key) = [] := by
          refine List.filter_eq_nil_iff.mpr fun entry member => ?_
          rw [forwardReads_of_gt cmax ((below entry member).trans_le (not_lt.mp after))]
          exact Bool.false_ne_true
        rw [if_neg (by simpa [Compare.lessthan] using after), entries_node, List.filter_append,
          inLeft, List.nil_append, List.filter_cons]
        by_cases isMin : cmin.equals key = true
        · have same : cmin.val = key := by
            simp only [Compare.equals, Bool.and_eq_true, decide_eq_true_eq] at isMin
            exact isMin.1
          have inRight : right.entries.filter
              (fun entry => forwardReads cmin cmax entry.key) =
              right.entries.filter fun entry => cmax.greaterthanequal entry.key :=
            List.filter_congr fun entry member =>
              forwardReads_of_lt cmax (same ▸ above entry member)
          rw [if_pos isMin, if_pos (by simp [forwardReads, isMin]), inRight]
          refine ⟨isPath.cons isIndex (by simp), ?_⟩
          rw [pending_cons]
          simp [IndexRange.visits, IndexRange.later, rootEntry]
        · rw [if_neg isMin, if_neg (by simpa [forwardReads, Compare.lessthan, after] using isMin)]
          exact rightIh rightIndex isPath

theorem findStartReverse_pending (cmin cmax : Compare K) {tree : TreeNode K (List O)}
    {path : Stack K O} (isIndex : IsIndex tree) (isPath : IsPath path) :
    IsPath (tree.findStartReverse cmin cmax path) ∧
      (IndexRange.reverse cmin).pending (tree.findStartReverse cmin cmax path) =
        tree.entries.reverse.filter (fun entry => reverseReads cmin cmax entry.key) ++
          (IndexRange.reverse cmin).pending path := by
  induction tree generalizing path with
  | null => exact ⟨isPath, rfl⟩
  | node address left right height key value leftIh rightIh =>
      obtain ⟨leftIndex, rightIndex, -, below, above⟩ := isIndex_node.mp isIndex
      have reversed : (node address left right height key value).entries.reverse =
          right.entries.reverse ++ ⟨address, key, value⟩ :: left.entries.reverse := by
        simp
      rw [findStartReverse, reversed]
      by_cases before : key < cmax.val
      · have inLeft : left.entries.reverse.filter
            (fun entry => reverseReads cmin cmax entry.key) =
            left.entries.reverse.filter fun entry => cmin.lessthanequal entry.key :=
          List.filter_congr fun entry member => reverseReads_of_gt cmin
            ((below entry (List.mem_reverse.mp member)).trans before)
        rw [if_pos (by simpa [Compare.greaterthan] using before), List.filter_append,
          List.filter_cons, reverseReads_of_gt cmin before, inLeft]
        split_ifs with within
        · obtain ⟨stillPath, isPending⟩ := rightIh rightIndex (isPath.cons isIndex (by simp))
          refine ⟨stillPath, ?_⟩
          rw [isPending, pending_cons]
          simp [IndexRange.visits, IndexRange.later, rootEntry]
        · obtain ⟨stillPath, isPending⟩ := rightIh rightIndex isPath
          have beyond : left.entries.reverse.filter
              (fun entry => cmin.lessthanequal entry.key) = [] := by
            refine List.filter_eq_nil_iff.mpr fun entry member isWithin => within ?_
            exact Compare.lessthanequal_of_le (below entry (List.mem_reverse.mp member)).le
              isWithin
          exact ⟨stillPath, by rw [isPending, beyond, List.append_nil]⟩
      · have inRight : right.entries.reverse.filter
            (fun entry => reverseReads cmin cmax entry.key) = [] := by
          refine List.filter_eq_nil_iff.mpr fun entry member => ?_
          rw [reverseReads_of_lt cmin
            ((not_lt.mp before).trans_lt (above entry (List.mem_reverse.mp member)))]
          exact Bool.false_ne_true
        rw [if_neg (by simpa [Compare.greaterthan] using before), List.filter_append, inRight,
          List.nil_append, List.filter_cons]
        by_cases isMax : cmax.equals key = true
        · have same : cmax.val = key := by
            simp only [Compare.equals, Bool.and_eq_true, decide_eq_true_eq] at isMax
            exact isMax.1
          have inLeft : left.entries.reverse.filter
              (fun entry => reverseReads cmin cmax entry.key) =
              left.entries.reverse.filter fun entry => cmin.lessthanequal entry.key :=
            List.filter_congr fun entry member => reverseReads_of_gt cmin
              (same ▸ below entry (List.mem_reverse.mp member))
          rw [if_pos isMax, if_pos (by simp [reverseReads, isMax]), inLeft]
          refine ⟨isPath.cons isIndex (by simp), ?_⟩
          rw [pending_cons]
          simp [IndexRange.visits, IndexRange.later, rootEntry]
        · rw [if_neg isMax,
            if_neg (by simpa [reverseReads, Compare.greaterthan, before] using isMax)]
          exact leftIh leftIndex isPath

/-! ## The iteration -/

theorem next_pending (range : IndexRange K) {curr : TreeNode K (List O)} {path : Stack K O}
    (isIndex : IsIndex curr) (isPath : IsPath path) :
    IsPath (range.next curr path) ∧
      range.pending (range.next curr path) =
        range.visits (range.later curr) ++ range.pending path := by
  cases curr with
  | null =>
      have isNull : IsIndex (null : TreeNode K (List O)) := ⟨List.Pairwise.nil, by simp⟩
      cases range with
      | forward cmax => exact addRightTree_pending isNull isPath
      | reverse cmin => exact addLeftTree_pending isNull isPath
      | nomax => exact addFullRightTree_pending isNull isPath
      | nomin => exact addFullLeftTree_pending isNull isPath
  | node address left right height key value =>
      obtain ⟨leftIndex, rightIndex, -⟩ := isIndex_node.mp isIndex
      cases range with
      | forward cmax => exact addRightTree_pending rightIndex isPath
      | reverse cmin => exact addLeftTree_pending leftIndex isPath
      | nomax => exact addFullRightTree_pending rightIndex isPath
      | nomin => exact addFullLeftTree_pending leftIndex isPath

namespace IndexIterator

/-- What is read from here on. -/
def remaining (iterator : IndexIterator K O) : List O :=
  iterator.listIt ++
    (iterator.range.visits (iterator.range.later iterator.curr) ++
      iterator.range.pending iterator.path).flatMap TreeEntry.value

/-- The iterator has a current object, in a node of an index. -/
structure IsActive (iterator : IndexIterator K O) : Prop where
  notVacant : iterator.vacantFlag = false
  listIt : iterator.listIt ≠ []
  curr : IsIndex iterator.curr
  path : IsPath iterator.path

/-- A node that was on the stack becomes the current one. -/
theorem isActive_of_path (range : IndexRange K) {curr : TreeNode K (List O)} {path : Stack K O}
    (isPath : IsPath (curr :: path)) :
    IsActive ⟨range, curr, path, curr.objects, false⟩ ∧
      remaining ⟨range, curr, path, curr.objects, false⟩ =
        (range.pending (curr :: path)).flatMap TreeEntry.value := by
  obtain ⟨isIndex, nonempty⟩ := isPath curr List.mem_cons_self
  have restPath : IsPath path := fun node member => isPath node (List.mem_cons_of_mem _ member)
  cases curr with
  | null => exact absurd rfl nonempty
  | node address left right height key value =>
      obtain ⟨-, -, hasObjects, -⟩ := isIndex_node.mp isIndex
      refine ⟨⟨rfl, hasObjects, isIndex, restPath⟩, ?_⟩
      rw [pending_cons]
      simp [remaining, TreeNode.objects, rootEntry]

theorem collect_of_active {iterator : IndexIterator K O} {object : O} {rest : List O}
    (active : iterator.IsActive) (isList : iterator.listIt = object :: rest) (fuel : Nat) :
    iterator.collect (fuel + 1) = (iterator.next.collect fuel).map (object :: ·) := by
  rw [collect, if_pos (by simp [toBool, isList]), ref, active.notVacant,
    if_neg Bool.false_ne_true, isList, List.head?_cons, Option.bind_some]

/-- One step: the iterator ends, or it is active again, one object further. -/
theorem next_cases {iterator : IndexIterator K O} {object : O} {rest : List O}
    (active : iterator.IsActive) (isList : iterator.listIt = object :: rest) :
    iterator.next.toBool = false ∧ iterator.remaining = [object] ∨
      iterator.next.IsActive ∧ iterator.remaining = object :: iterator.next.remaining := by
  obtain ⟨range, curr, path, listIt, vacantFlag⟩ := iterator
  obtain ⟨rfl, -, isIndex, isPath⟩ := active
  dsimp only at isList isIndex isPath
  subst isList
  cases rest with
  | cons second rest =>
      refine Or.inr ⟨?_, ?_⟩
      · simp only [next, Bool.false_eq_true, if_false, List.tail_cons, List.isEmpty_cons]
        exact ⟨rfl, by simp, isIndex, isPath⟩
      · simp [next, remaining]
  | nil =>
      obtain ⟨nextPath, isPending⟩ := next_pending range isIndex isPath
      simp only [next, remaining, Bool.false_eq_true, if_false, List.tail_cons,
        List.isEmpty_nil, if_true, ← isPending]
      cases isNext : range.next curr path with
      | nil => exact Or.inl ⟨rfl, rfl⟩
      | cons node path =>
          obtain ⟨nextActive, nextRemaining⟩ := isActive_of_path range (isNext ▸ nextPath)
          refine Or.inr ⟨nextActive, ?_⟩
          rw [← nextRemaining]
          rfl

theorem yields_remaining {iterator : IndexIterator K O} (active : iterator.IsActive) :
    iterator.Yields iterator.remaining := by
  -- by induction on the number of objects that remain
  induction count : iterator.remaining.length generalizing iterator with
  | zero =>
      rw [List.length_eq_zero_iff, remaining, List.append_eq_nil_iff] at count
      exact absurd count.1 active.listIt
  | succ count ih =>
      obtain ⟨object, rest, isList⟩ := List.exists_cons_of_ne_nil active.listIt
      rcases next_cases active isList with ⟨ended, isLast⟩ | ⟨nextActive, isRemaining⟩
      · refine ⟨2, ?_⟩
        rw [collect_of_active active isList, collect, if_neg (by simp [ended]), Option.map_some,
          isLast]
      · rw [isRemaining, List.length_cons, Nat.succ_inj] at count
        obtain ⟨fuel, collected⟩ := ih nextActive count
        refine ⟨fuel + 1, ?_⟩
        rw [collect_of_active active isList, collected, Option.map_some, isRemaining]

theorem finishInit_yields (range : IndexRange K) {path : Stack K O} (isPath : IsPath path) :
    (finishInit range path).Yields ((range.pending path).flatMap TreeEntry.value) := by
  cases path with
  | nil => exact ⟨1, rfl⟩
  | cons curr path =>
      obtain ⟨active, isRemaining⟩ := isActive_of_path range isPath
      rw [← isRemaining]
      exact yields_remaining active

theorem collect_succ {iterator : IndexIterator K O} {objects : List O} {fuel : Nat}
    (collected : iterator.collect fuel = some objects) :
    iterator.collect (fuel + 1) = some objects := by
  induction fuel generalizing iterator objects with
  | zero => exact (Option.some_ne_none objects collected.symm).elim
  | succ fuel ih =>
      rw [collect] at collected ⊢
      split_ifs at collected ⊢ with active
      · simp only [Option.bind_eq_some_iff, Option.map_eq_some_iff] at collected ⊢
        obtain ⟨object, isObject, rest, restCollected, isCons⟩ := collected
        exact ⟨object, isObject, rest, ih restCollected, isCons⟩
      · exact collected

/-- An iterator yields one list of objects. -/
theorem Yields.unique {iterator : IndexIterator K O} {first second : List O}
    (yieldsFirst : iterator.Yields first) (yieldsSecond : iterator.Yields second) :
    first = second := by
  obtain ⟨fuel, collected⟩ := yieldsFirst
  obtain ⟨otherFuel, otherCollected⟩ := yieldsSecond
  have more : ∀ extra, iterator.collect (fuel + extra) = some first := by
    intro extra
    induction extra with
    | zero => exact collected
    | succ extra ih => exact collect_succ ih
  have otherMore : ∀ extra, iterator.collect (otherFuel + extra) = some second := by
    intro extra
    induction extra with
    | zero => exact otherCollected
    | succ extra ih => exact collect_succ ih
  have same := (more otherFuel).symm.trans (Nat.add_comm fuel otherFuel ▸ otherMore fuel)
  exact Option.some.inj same

end IndexIterator

/-! ## Agreement with the filter -/

namespace RangeOp

def inclMin : RangeOp → Bool
  | geLe | geLt => true
  | gtLe | gtLt => false

def inclMax : RangeOp → Bool
  | geLe | gtLe => true
  | geLt | gtLt => false

end RangeOp

theorem Compare.lessthanequal_eq (val : K) (equal : Bool) (key : K) :
    (⟨val, equal⟩ : Compare K).lessthanequal key =
      if equal then !decide (key < val) else decide (val < key) := by
  rw [Bool.eq_iff_iff]
  cases equal with
  | false => simp [Compare.lessthanequal, Compare.equals]
  | true => simp [Compare.lessthanequal, Compare.equals, ← le_iff_lt_or_eq]

theorem Compare.greaterthanequal_eq (val : K) (equal : Bool) (key : K) :
    (⟨val, equal⟩ : Compare K).greaterthanequal key =
      if equal then !decide (val < key) else decide (key < val) := by
  rw [Bool.eq_iff_iff]
  cases equal with
  | false => simp [Compare.greaterthanequal, Compare.equals]
  | true =>
      have same : val = key ↔ key = val := eq_comm
      simp [Compare.greaterthanequal, Compare.equals, same, ← le_iff_lt_or_eq]

theorem propertyFilter_eq (op : RangeOp) (min max key : K) :
    propertyFilter op min max key =
      ((⟨min, op.inclMin⟩ : Compare K).lessthanequal key &&
        (⟨max, op.inclMax⟩ : Compare K).greaterthanequal key) := by
  rw [Compare.lessthanequal_eq, Compare.greaterthanequal_eq]
  cases op <;> rfl

theorem forwardReads_eq (op : RangeOp) (min max key : K) :
    forwardReads ⟨min, op.inclMin⟩ ⟨max, op.inclMax⟩ key =
      (propertyFilter op min max key || op.inclMin && decide (min = key)) := by
  rw [propertyFilter_eq]
  by_cases same : min = key
  · cases op.inclMin <;> simp [forwardReads, Compare.lessthan, Compare.lessthanequal,
      Compare.equals, same]
  · simp [forwardReads, Compare.lessthan, Compare.lessthanequal, Compare.equals, same]

theorem reverseReads_eq (op : RangeOp) (min max key : K) :
    reverseReads ⟨min, op.inclMin⟩ ⟨max, op.inclMax⟩ key =
      (propertyFilter op min max key || op.inclMax && decide (max = key)) := by
  rw [propertyFilter_eq]
  by_cases same : max = key
  · cases op.inclMax <;> simp [reverseReads, Compare.greaterthan, Compare.greaterthanequal,
      Compare.equals, same]
  · simp [reverseReads, Compare.greaterthan, Compare.greaterthanequal, Compare.equals, same,
      Bool.and_comm]

end Pending

namespace AvlTreeIndex

variable [LinearOrder K]

/-- The stored objects whose key passes the filter, in ascending order of their keys. -/
def filtered (index : AvlTreeIndex K O) (min max : K) (op : RangeOp) : List O :=
  (index.tree.entries.filter fun entry => propertyFilter op min max entry.key).flatMap
    TreeEntry.value

/-- The same in descending order of the keys. -/
def filteredReverse (index : AvlTreeIndex K O) (min max : K) (op : RangeOp) : List O :=
  (index.tree.entries.reverse.filter fun entry => propertyFilter op min max entry.key).flatMap
    TreeEntry.value

theorem isPath_nil : IsPath ([] : Stack K O) := by
  intro node member
  exact absurd member List.not_mem_nil

theorem getIterator_yields (index : AvlTreeIndex K O) (min max : K) (op : RangeOp) :
    (index.getIterator min max op false).Yields
        ((index.tree.entries.filter fun entry =>
          forwardReads ⟨min, op.inclMin⟩ ⟨max, op.inclMax⟩ entry.key).flatMap
            TreeEntry.value) ∧
      (index.getIterator min max op true).Yields
        ((index.tree.entries.reverse.filter fun entry =>
          reverseReads ⟨min, op.inclMin⟩ ⟨max, op.inclMax⟩ entry.key).flatMap
            TreeEntry.value) := by
  have isIndex : IsIndex index.tree := ⟨index.ordered, index.nonempty⟩
  have isForward : index.getIterator min max op false =
      IndexIterator.finishInit (.forward ⟨max, op.inclMax⟩)
        (index.tree.findStart ⟨min, op.inclMin⟩ ⟨max, op.inclMax⟩ []) := by
    cases op <;> rfl
  have isReverse : index.getIterator min max op true =
      IndexIterator.finishInit (.reverse ⟨min, op.inclMin⟩)
        (index.tree.findStartReverse ⟨min, op.inclMin⟩ ⟨max, op.inclMax⟩ []) := by
    cases op <;> rfl
  constructor
  · have spec := findStart_pending ⟨min, op.inclMin⟩ ⟨max, op.inclMax⟩ isIndex isPath_nil
    have yields := IndexIterator.finishInit_yields (.forward ⟨max, op.inclMax⟩) spec.1
    rw [spec.2, pending_nil, List.append_nil] at yields
    rw [isForward]
    exact yields
  · have spec := findStartReverse_pending ⟨min, op.inclMin⟩ ⟨max, op.inclMax⟩ isIndex isPath_nil
    have yields := IndexIterator.finishInit_yields (.reverse ⟨min, op.inclMin⟩) spec.1
    rw [spec.2, pending_nil, List.append_nil] at yields
    rw [isReverse]
    exact yields

/-- Both iterators agree with the filter exactly when the filter passes the inclusive bounds
that are stored keys. -/
theorem rangeIterators_agree_iff (index : AvlTreeIndex K O) (min max : K) (op : RangeOp) :
    ((index.getIterator min max op false).Yields (index.filtered min max op) ∧
        (index.getIterator min max op true).Yields (index.filteredReverse min max op)) ↔
      ∀ entry ∈ index.tree.entries,
        op.inclMin = true ∧ min = entry.key ∨ op.inclMax = true ∧ max = entry.key →
          propertyFilter op min max entry.key = true := by
  obtain ⟨forward, reverse⟩ := index.getIterator_yields min max op
  have forwardIff : (index.getIterator min max op false).Yields (index.filtered min max op) ↔
      ∀ entry ∈ index.tree.entries,
        op.inclMin = true ∧ min = entry.key → propertyFilter op min max entry.key = true := by
    have same : (index.getIterator min max op false).Yields (index.filtered min max op) ↔
        _ = index.filtered min max op :=
      ⟨fun yields => forward.unique yields, fun same => same ▸ forward⟩
    rw [same, filtered, flatMap_filter_eq_iff index.nonempty]
    · refine forall₂_congr fun entry _ => ?_
      rw [forwardReads_eq]
      simp only [Bool.or_eq_true, Bool.and_eq_true, decide_eq_true_eq]
      exact ⟨fun agree bound => agree (Or.inr bound), fun passes => Or.rec id passes⟩
    · intro entry passes
      rw [forwardReads_eq, passes, Bool.true_or]
  have reverseIff : (index.getIterator min max op true).Yields
        (index.filteredReverse min max op) ↔
      ∀ entry ∈ index.tree.entries,
        op.inclMax = true ∧ max = entry.key → propertyFilter op min max entry.key = true := by
    have same : (index.getIterator min max op true).Yields (index.filteredReverse min max op) ↔
        _ = index.filteredReverse min max op :=
      ⟨fun yields => reverse.unique yields, fun same => same ▸ reverse⟩
    have nonempty : ∀ entry ∈ index.tree.entries.reverse, entry.value ≠ [] :=
      fun entry member => index.nonempty entry (List.mem_reverse.mp member)
    rw [same, filteredReverse, flatMap_filter_eq_iff nonempty]
    · simp only [List.mem_reverse]
      refine forall₂_congr fun entry _ => ?_
      rw [reverseReads_eq]
      simp only [Bool.or_eq_true, Bool.and_eq_true, decide_eq_true_eq]
      exact ⟨fun agree bound => agree (Or.inr bound), fun passes => Or.rec id passes⟩
    · intro entry passes
      rw [reverseReads_eq, passes, Bool.true_or]
  rw [forwardIff, reverseIff, ← forall₂_and]
  exact forall₂_congr fun entry _ => or_imp.symm

/-- An index with one object under the key 5. -/
def singleton : AvlTreeIndex Nat Nat where
  tree := node 1 null null 0 5 [70]
  ordered := by simp [Ordered, SortedBy]
  nonempty := by simp

/-- The forward iterator of `5 ≤ key < 5` reads the object under 5. -/
theorem empty_range_yields_minimum :
    (singleton.getIterator 5 5 .geLt false).collect 3 = some [70] ∧
      singleton.filtered 5 5 .geLt = [] ∧
      ¬ (singleton.getIterator 5 5 .geLt false).Yields (singleton.filtered 5 5 .geLt) := by
  have collected : (singleton.getIterator 5 5 .geLt false).collect 3 = some [70] := by
    decide
  have isEmpty : singleton.filtered 5 5 .geLt = [] := by
    decide
  refine ⟨collected, isEmpty, fun yields => ?_⟩
  rw [isEmpty] at yields
  have same := yields.unique ⟨3, collected⟩
  exact absurd same (by decide)

end AvlTreeIndex

end Pmgd
