import Pmgd.IndexIteration

/-!
# All ranges as one kind of iterator

A range iterator goes in one direction and stops behind its far bound.  It starts at its near bound
or, without one, at the end of the tree.
-/

namespace Pmgd

open SortedInsert TreeNode

variable {K O : Type*} [LinearOrder K]

namespace IndexRange

def way : IndexRange K → Way
  | forward _ | nomax => .forward
  | reverse _ | nomin => .reverse

/-- Not beyond the far bound. -/
def inside : IndexRange K → K → Bool
  | forward cmax => cmax.greaterthanequal
  | reverse cmin => cmin.lessthanequal
  | nomax | nomin => fun _ => true

theorem inside_of_before (bounds : IndexRange K) {key other : K}
    (before : bounds.way.Before key other) (isInside : bounds.inside other = true) :
    bounds.inside key = true := by
  cases bounds with
  | forward cmax => exact Compare.greaterthanequal_of_le (le_of_lt before) isInside
  | reverse cmin => exact Compare.lessthanequal_of_le (le_of_lt before) isInside
  | nomax => rfl
  | nomin => rfl

omit [LinearOrder K] in
theorem later_eq (bounds : IndexRange K) (node : TreeNode K (List O)) :
    (CursorKind.range bounds).later node = bounds.way.second node := by
  cases bounds <;> rfl

theorem visits_eq (bounds : IndexRange K) (tree : TreeNode K (List O)) :
    (CursorKind.range bounds).visits tree =
      (bounds.way.along tree).filter fun entry => bounds.inside entry.key := by
  cases bounds with
  | forward cmax => rfl
  | reverse cmin => rfl
  | nomax => exact (List.filter_true _).symm
  | nomin => exact (List.filter_true _).symm

theorem next_eq (bounds : IndexRange K) (curr : TreeNode K (List O)) (path : Stack K O) :
    (CursorKind.range bounds).next curr path =
      (bounds.way.second curr).spine bounds.way bounds.inside path := by
  cases bounds with
  | forward cmax => exact addRightTree_eq cmax path
  | reverse cmin => exact addLeftTree_eq cmin path
  | nomax => exact addFullRightTree_eq path
  | nomin => exact addFullLeftTree_eq path

/-! ## Starts -/

/-- The first stack. -/
def start (bounds : IndexRange K) (near : Option (Compare K)) (tree : TreeNode K (List O)) :
    Stack K O :=
  match near with
  | none => tree.spine bounds.way bounds.inside []
  | some near => tree.search bounds.way near bounds.inside []

/-- What is read from there: the far bound is not checked for the near bound itself. -/
def reads (bounds : IndexRange K) (near : Option (Compare K)) (key : K) : Bool :=
  match near with
  | none => bounds.inside key
  | some near => near.before bounds.way key && bounds.inside key || near.equals key

theorem isStack_start (bounds : IndexRange K) (near : Option (Compare K))
    (tree : TreeNode K (List O)) : IsStack tree (bounds.start near tree) := by
  cases near with
  | none => exact isStack_spine _ _ _
  | some near => exact isStack_search _ _ _ _

theorem reads_of_before (bounds : IndexRange K) {near : Compare K} {key : K}
    (before : bounds.way.Before near.val key) :
    bounds.reads (some near) key = bounds.inside key := by
  simp [reads, Compare.before, Compare.equals, before, before.ne]

theorem reads_of_after (bounds : IndexRange K) {near : Compare K} {key : K}
    (after : bounds.way.Before key near.val) : bounds.reads (some near) key = false := by
  simp [reads, Compare.before, Compare.equals, after.asymm, after.ne.symm]

theorem spine_pending (bounds : IndexRange K) (tree : TreeNode K (List O)) (ordered : tree.Ordered)
    (path : Stack K O) :
    (CursorKind.range bounds).pending (tree.spine bounds.way bounds.inside path) =
      (CursorKind.range bounds).visits tree ++ (CursorKind.range bounds).pending path := by
  induction tree using bounds.way.induct generalizing path with
  | atNull => rw [visits_eq, Way.along_null]; rfl
  | atNode address left right height key value firstIh secondIh =>
      obtain ⟨firstOrdered, -, -, after⟩ := bounds.way.ordered_node ordered
      rw [spine_node, firstIh firstOrdered, visits_eq, visits_eq, Way.along_node,
        List.filter_append, List.append_assoc, List.append_cancel_left_eq, List.filter_cons]
      by_cases isInside : bounds.inside key = true
      · rw [if_pos isInside, if_pos isInside, CursorKind.pending_cons, later_eq, visits_eq]
        rfl
      · have noneSecond : (bounds.way.along (bounds.way.second
            (node address left right height key value))).filter
              (fun entry => bounds.inside entry.key) = [] := by
          rw [List.filter_eq_nil_iff]
          intro other inSecond otherInside
          exact isInside (bounds.inside_of_before (after other inSecond) otherInside)
        rw [if_neg isInside, if_neg isInside, noneSecond, List.nil_append]

theorem search_pending (bounds : IndexRange K) (near : Compare K) (tree : TreeNode K (List O))
    (ordered : tree.Ordered) (path : Stack K O) :
    (CursorKind.range bounds).pending (tree.search bounds.way near bounds.inside path) =
      (bounds.way.along tree).filter (fun entry => bounds.reads (some near) entry.key) ++
        (CursorKind.range bounds).pending path := by
  induction tree using bounds.way.induct generalizing path with
  | atNull => rw [Way.along_null]; rfl
  | atNode address left right height key value firstIh secondIh =>
      obtain ⟨firstOrdered, secondOrdered, before, after⟩ := bounds.way.ordered_node ordered
      rw [search_node, Way.along_node, List.filter_append, List.filter_cons]
      by_cases isBefore : bounds.way.Before near.val key
      · have restFilter : (bounds.way.along (bounds.way.second
            (node address left right height key value))).filter
              (fun entry => bounds.reads (some near) entry.key) =
            (CursorKind.range bounds).visits (bounds.way.second
              (node address left right height key value)) := by
          rw [visits_eq]
          apply List.filter_congr
          intro other inSecond
          exact bounds.reads_of_before (isBefore.trans (after other inSecond))
        rw [if_pos isBefore, firstIh firstOrdered, restFilter, bounds.reads_of_before isBefore,
          List.append_assoc, List.append_cancel_left_eq]
        by_cases isInside : bounds.inside key = true
        · rw [if_pos isInside, if_pos isInside, CursorKind.pending_cons, later_eq]
          rfl
        · have noneSecond : (CursorKind.range bounds).visits (bounds.way.second
              (node address left right height key value)) = [] := by
            rw [visits_eq, List.filter_eq_nil_iff]
            intro other inSecond otherInside
            exact isInside (bounds.inside_of_before (after other inSecond) otherInside)
          rw [if_neg isInside, if_neg isInside, noneSecond, List.nil_append]
      · have noneFirst : (bounds.way.along (bounds.way.first
            (node address left right height key value))).filter
              (fun entry => bounds.reads (some near) entry.key) = [] := by
          rw [List.filter_eq_nil_iff]
          intro other inFirst
          have isAfter : bounds.way.Before other.key near.val := by
            rcases Way.Before.trichotomy bounds.way near.val key with isBefore' | same | later
            · exact absurd isBefore' isBefore
            · exact same ▸ before other inFirst
            · exact (before other inFirst).trans later
          rw [bounds.reads_of_after isAfter]
          exact Bool.false_ne_true
        rw [if_neg isBefore, noneFirst, List.nil_append]
        by_cases isNear : near.equals key = true
        · have restFilter : (bounds.way.along (bounds.way.second
              (node address left right height key value))).filter
                (fun entry => bounds.reads (some near) entry.key) =
              (CursorKind.range bounds).visits (bounds.way.second
                (node address left right height key value)) := by
            have same : near.val = key := by
              simp only [Compare.equals, Bool.and_eq_true, decide_eq_true_eq] at isNear
              exact isNear.1
            rw [visits_eq]
            apply List.filter_congr
            intro other inSecond
            exact bounds.reads_of_before (same ▸ after other inSecond)
          rw [if_pos isNear, if_pos (by simp [reads, isNear]), CursorKind.pending_cons, later_eq,
            restFilter]
          rfl
        · rw [if_neg isNear, secondIh secondOrdered,
            if_neg (by simpa [reads, Compare.before, isBefore] using isNear)]

/-- The entries that an iterator reads from its first stack. -/
theorem start_pending (bounds : IndexRange K) (near : Option (Compare K))
    (tree : TreeNode K (List O)) (ordered : tree.Ordered) :
    (CursorKind.range bounds).pending (bounds.start near tree) =
      (bounds.way.along tree).filter fun entry => bounds.reads near entry.key := by
  cases near with
  | none =>
      have isPending := bounds.spine_pending tree ordered []
      rw [CursorKind.pending_nil, List.append_nil, visits_eq] at isPending
      exact isPending
  | some near =>
      have isPending := bounds.search_pending near tree ordered []
      rw [CursorKind.pending_nil, List.append_nil] at isPending
      exact isPending

end IndexRange

/-! ## Predicates -/

namespace PropertyPredicate

/-- The bounds of the iterator of a predicate, apart from `Eq` and `Ne`, and the near bound. -/
def bounds (predicate : PropertyPredicate K) (reverse : Bool) :
    Option (IndexRange K × Option (Compare K)) :=
  let oneOf (forward backward : IndexRange K × Option (Compare K)) :=
    if reverse then backward else forward
  match predicate with
  | dontCare => oneOf (.nomax, none) (.nomin, none)
  | eq _ | ne _ => none
  | bound .lt v1 => oneOf (.forward ⟨v1, false⟩, none) (.nomin, some ⟨v1, false⟩)
  | bound .le v1 => oneOf (.forward ⟨v1, true⟩, none) (.nomin, some ⟨v1, true⟩)
  | bound .gt v1 => oneOf (.nomax, some ⟨v1, false⟩) (.reverse ⟨v1, false⟩, none)
  | bound .ge v1 => oneOf (.nomax, some ⟨v1, true⟩) (.reverse ⟨v1, true⟩, none)
  | range op v1 v2 =>
      oneOf (.forward ⟨v2, op.inclMax⟩, some ⟨v1, op.inclMin⟩)
        (.reverse ⟨v1, op.inclMin⟩, some ⟨v2, op.inclMax⟩)

/-- The comparisons of `PropertyFilter::operator()`; all are made from `<`. -/
def compares (predicate : PropertyPredicate K) (val : K) : Bool :=
  match predicate with
  | dontCare => true
  | eq v1 => !decide (val < v1) && !decide (v1 < val)
  | ne v1 => !(!decide (val < v1) && !decide (v1 < val))
  | bound op v1 => boundFilter op v1 val
  | range op v1 v2 => propertyFilter op v1 v2 val

/-- The inclusive bound that an iterator with two bounds starts at. -/
def start (predicate : PropertyPredicate K) (reverse : Bool) : Option K :=
  match predicate, reverse with
  | range op v1 _, false => if op.inclMin then some v1 else none
  | range op _ v2, true => if op.inclMax then some v2 else none
  | _, _ => none

theorem compares_eq (v1 val : K) : (eq v1).compares val = decide (val = v1) := by
  rw [compares]
  rcases lt_trichotomy val v1 with before | rfl | after
  · simp [before, before.ne]
  · simp
  · simp [after, after.ne']

theorem compares_ne (v1 val : K) : (ne v1).compares val = decide (val ≠ v1) := by
  have isEq := compares_eq v1 val
  rw [decide_not, ← isEq]
  rfl

/-- A range iterator reads what passes, and the bound that it starts at. -/
theorem reads_eq {predicate : PropertyPredicate K} {reverse : Bool} {limits : IndexRange K}
    {near : Option (Compare K)} (isRange : predicate.bounds reverse = some (limits, near)) (key : K) :
    limits.reads near key =
      (predicate.compares key || decide (predicate.start reverse = some key)) := by
  cases predicate with
  | dontCare =>
      cases reverse <;> obtain ⟨rfl, rfl⟩ := by simpa [bounds] using isRange
      all_goals rfl
  | eq v1 => cases isRange
  | ne v1 => cases isRange
  | bound op v1 =>
      have noStart : (bound op v1).start reverse = none := by cases reverse <;> rfl
      rw [noStart, compares, decide_eq_false (by simp), Bool.or_false]
      rw [AvlTreeIndex.boundFilter_eq]
      cases op <;> cases reverse <;> obtain ⟨rfl, rfl⟩ := by simpa [bounds] using isRange
      all_goals simp only [IndexRange.reads, IndexRange.inside, Bool.and_true]
      all_goals rfl
  | range op v1 v2 =>
      cases reverse with
      | false =>
          obtain ⟨rfl, rfl⟩ := by simpa [bounds] using isRange
          refine (forwardReads_eq op v1 v2 key).trans ?_
          rw [compares, start]
          cases op.inclMin <;> simp
      | true =>
          obtain ⟨rfl, rfl⟩ := by simpa [bounds] using isRange
          refine (reverseReads_eq op v1 v2 key).trans ?_
          rw [compares, start]
          cases op.inclMax <;> simp

end PropertyPredicate

theorem getIterator_eq (tree : TreeNode K (List (ListNode O))) {predicate : PropertyPredicate K}
    {reverse : Bool} {bounds : IndexRange K} {near : Option (Compare K)}
    (isRange : predicate.bounds reverse = some (bounds, near)) :
    IndexCursor.getIterator tree predicate reverse =
      IndexCursor.finishInit (.range bounds) (bounds.start near tree) := by
  have full : tree.addFullRightTree [] = tree.spine .forward (fun _ => true) [] :=
    addFullRightTree_eq []
  have fullReverse : tree.addFullLeftTree [] = tree.spine .reverse (fun _ => true) [] :=
    addFullLeftTree_eq []
  cases predicate with
  | dontCare =>
      cases reverse with
      | false =>
          obtain ⟨rfl, rfl⟩ := by simpa [PropertyPredicate.bounds] using isRange
          exact congrArg (IndexCursor.finishInit _) full
      | true =>
          obtain ⟨rfl, rfl⟩ := by simpa [PropertyPredicate.bounds] using isRange
          exact congrArg (IndexCursor.finishInit _) fullReverse
  | eq v1 => cases isRange
  | ne v1 => cases isRange
  | bound op v1 =>
      cases op <;> cases reverse <;>
        obtain ⟨rfl, rfl⟩ := by simpa [PropertyPredicate.bounds] using isRange
      all_goals
        simp only [IndexCursor.getIterator, findStartMin, findStartMaxReverse, addRightTree_eq,
          addLeftTree_eq, findStartMax_eq, findStartMinReverse_eq]
        rfl
  | range op v1 v2 =>
      cases reverse <;>
        obtain ⟨rfl, rfl⟩ := by simpa [PropertyPredicate.bounds] using isRange
      all_goals
        simp only [IndexCursor.getIterator, findStart_eq, findStartReverse_eq]
        rfl

omit [LinearOrder K] in
theorem null_isSubtree {V : Type*} (tree : TreeNode K V) : null.IsSubtree tree := by
  induction tree with
  | null => rfl
  | node address left right height key value leftIh _ => exact Or.inr (Or.inl leftIh)

/-- What `find` finds. -/
theorem find_cases {V : Type*} {tree : TreeNode K V} (ordered : tree.Ordered) (key : K) :
    (∃ entry ∈ tree.entries, entry.key = key ∧ tree.find key = some entry.value) ∨
      (∀ entry ∈ tree.entries, entry.key ≠ key) ∧ tree.find key = none := by
  induction tree with
  | null => exact Or.inr ⟨by simp, rfl⟩
  | node address left right height nodeKey value leftIh rightIh =>
      obtain ⟨leftOrdered, rightOrdered, below, above⟩ := ordered_node.mp ordered
      simp only [entries_node, List.mem_append, List.mem_cons, find]
      rcases lt_trichotomy key nodeKey with before | rfl | after
      · rw [if_neg before.ne, if_pos before]
        rcases leftIh leftOrdered with ⟨entry, member, isKey, isFound⟩ | ⟨absent, isFound⟩
        · exact Or.inl ⟨entry, Or.inl member, isKey, isFound⟩
        · refine Or.inr ⟨?_, isFound⟩
          rintro entry (inLeft | rfl | inRight)
          · exact absent entry inLeft
          · exact before.ne'
          · exact (before.trans (above entry inRight)).ne'
      · rw [if_pos rfl]
        exact Or.inl ⟨⟨address, key, value⟩, Or.inr (Or.inl rfl), rfl, rfl⟩
      · rw [if_neg after.ne', if_neg after.asymm]
        rcases rightIh rightOrdered with ⟨entry, member, isKey, isFound⟩ | ⟨absent, isFound⟩
        · exact Or.inl ⟨entry, Or.inr (Or.inr member), isKey, isFound⟩
        · refine Or.inr ⟨?_, isFound⟩
          rintro entry (inLeft | rfl | inRight)
          · exact ((below entry inLeft).trans after).ne
          · exact after.ne
          · exact absent entry inRight

/-- The iterator of `Eq` reads the list of the key. -/
theorem getIterator_yields_eq (index : PlacedIndex K O) (v1 : K) (reverse : Bool) :
    (IndexCursor.getIterator index.tree (.eq v1) reverse).Yields index.tree
      ((index.tree.entries.filter fun entry => decide (entry.key = v1)).flatMap
        TreeEntry.value) := by
  have isIndex := index.isPlaced.index
  rcases find_cases isIndex.1 v1 with ⟨entry, member, rfl, isFound⟩ | ⟨absent, isFound⟩
  · have isOne : index.tree.entries.filter (fun other => decide (other.key = entry.key)) =
        [entry] := by
      have sorted := isIndex.1
      obtain ⟨left, right, isEntries⟩ := List.append_of_mem member
      rw [Ordered, isEntries] at sorted
      obtain ⟨-, -, below, above⟩ := sortedBy_append_cons.mp sorted
      have noneLeft : left.filter (fun other => decide (other.key = entry.key)) = [] := by
        rw [List.filter_eq_nil_iff]
        exact fun other inLeft => by simpa using (below other inLeft).ne
      have noneRight : right.filter (fun other => decide (other.key = entry.key)) = [] := by
        rw [List.filter_eq_nil_iff]
        exact fun other inRight => by simpa using (above other inRight).ne'
      rw [isEntries, List.filter_append, List.filter_cons, noneLeft, noneRight,
        if_pos (decide_eq_true rfl), List.nil_append]
    have start : (IndexCursor.getIterator index.tree (.eq entry.key) reverse).IsAt index.tree null []
        entry.value := by
      refine ⟨rfl, null_isSubtree _, Or.inl rfl, rfl, isStack_nil _, ?_,
        ⟨entry, member, List.suffix_refl _⟩, rfl⟩
      simp [IndexCursor.getIterator, isFound]
    have yields := IndexCursor.yields_remaining index.isPlaced start (isIndex.2 entry member)
    rw [isOne, List.flatMap_singleton]
    simpa [IndexCursor.remaining, IndexCursor.getIterator, CursorKind.visits,
      CursorKind.pending] using yields
  · have none : index.tree.entries.filter (fun entry => decide (entry.key = v1)) = [] := by
      rw [List.filter_eq_nil_iff]
      intro entry member
      simpa using absent entry member
    rw [none]
    refine ⟨1, ?_⟩
    simp [IndexCursor.getIterator, isFound, IndexCursor.collect, IndexCursor.toBool]

theorem getIterator_yields_reads (index : PlacedIndex K O) {predicate : PropertyPredicate K}
    {reverse : Bool} {bounds : IndexRange K} {near : Option (Compare K)}
    (isRange : predicate.bounds reverse = some (bounds, near)) :
    (IndexCursor.getIterator index.tree predicate reverse).Yields index.tree
      (((bounds.way.along index.tree).filter fun entry => bounds.reads near entry.key).flatMap
        TreeEntry.value) := by
  rw [getIterator_eq index.tree isRange,
    ← bounds.start_pending near index.tree index.isPlaced.index.1]
  exact IndexCursor.finishInit_yields _ index.isPlaced (bounds.isStack_start near index.tree)

end Pmgd
