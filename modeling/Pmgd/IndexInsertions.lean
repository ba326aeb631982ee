import Pmgd.AvlInvariant
import Pmgd.IndexRotations

/-!
# Range iteration with insertions

A transaction reads an index through an iterator and adds objects to the index at the same time.
The callback that should tell the iterator of a rotation gets a pointer that it does not recognise,
so the stack of the iterator has to be right for the tree after the rotation too.
-/

namespace Pmgd

open SortedInsert TreeNode LabelledRun

variable {K O : Type*} [LinearOrder K]

/-! ## Insertions into an index -/

namespace TreeNode

/-- What an insertion does to the entries. -/
structure Inserts (tree : TreeNode K (List (ListNode O))) (key : K) (pointer : Nat)
    (after : TreeNode K (List (ListNode O))) : Prop where
  ordered : after.Ordered
  distinct : after.addresses.Nodup
  kept : ∀ entry ∈ tree.entries, entry ∈ after.entries
  new : ∀ entry ∈ after.entries, entry ∈ tree.entries ∨ entry.address = pointer ∧ entry.value = []
  points : ∃ value, ⟨pointer, key, value⟩ ∈ after.entries
  elements : (after.entries.flatMap TreeEntry.value).Perm (tree.entries.flatMap TreeEntry.value)

theorem addRecursive_inserts {tree : TreeNode K (List (ListNode O))} (ordered : tree.Ordered)
    (ok : tree.HeightsOk) (distinct : tree.addresses.Nodup) {key : K} {fresh : Nat}
    (unused : fresh ∉ tree.addresses) {added : Added K (List (ListNode O))}
    (isAdded : tree.addRecursive key fresh [] = some added) :
    Inserts tree key added.r added.tree := by
  obtain ⟨_, isSame, isEntries, -, value, points⟩ := addRecursive_spec ordered ok key fresh []
  obtain rfl := Option.some.inj (isAdded.symm.trans isSame)
  have addedOrdered : added.tree.Ordered := by
    rw [Ordered, isEntries]
    exact sortedBy_insertBy ordered
  by_cases present : ∃ entry ∈ tree.entries, key = entry.key
  · obtain ⟨entry, member, isKey⟩ := present
    rw [insertBy_of_mem ordered member isKey] at isEntries
    refine ⟨addedOrdered, ?_, ?_, ?_, ⟨value, points⟩, ?_⟩
    · rw [addresses, isEntries]
      exact distinct
    · rw [isEntries]
      exact fun entry member => member
    · rw [isEntries]
      exact fun entry member => Or.inl member
    · rw [isEntries]
  · have absent : ∀ other ∈ tree.entries,
        TreeEntry.key (⟨fresh, key, []⟩ : TreeEntry K (List (ListNode O))) ≠ other.key :=
      fun other member same => present ⟨other, member, same⟩
    have perm := insertBy_perm absent
    rw [← isEntries] at perm
    refine ⟨addedOrdered, ?_, ?_, ?_, ⟨value, points⟩, ?_⟩
    · rw [addresses, (perm.map TreeEntry.address).nodup_iff, List.map_cons, List.nodup_cons]
      exact ⟨unused, distinct⟩
    · exact fun entry member => perm.mem_iff.mpr (List.mem_cons_of_mem _ member)
    · intro entry member
      rcases List.mem_cons.mp (perm.mem_iff.mp member) with rfl | inTree
      · have same := addedOrdered.eq_of_key_eq member points rfl
        exact Or.inr ⟨congrArg TreeEntry.address same, rfl⟩
      · exact Or.inl inTree
    · exact perm.flatMap_right _

/-- `List::add` at the value that a pointer leads to. -/
def listAdd (pointer : Nat) (element : ListNode O) (tree : TreeNode K (List (ListNode O))) :
    TreeNode K (List (ListNode O)) :=
  tree.mapValues fun address list => if address = pointer then element :: list else list

/-- The allocation of a list node. -/
def allocElement (tree : TreeNode K (List (ListNode O))) (offered : Nat) : Nat :=
  let used := (tree.entries.flatMap TreeEntry.value).map ListNode.address
  if offered ∈ used then used.sum + 1 else offered

omit [LinearOrder K] in
theorem allocElement_notMem (tree : TreeNode K (List (ListNode O))) (offered : Nat) :
    tree.allocElement offered ∉ (tree.entries.flatMap TreeEntry.value).map ListNode.address := by
  unfold allocElement
  dsimp only
  split_ifs with used
  · intro member
    have := List.single_le_sum (fun _ _ => Nat.zero_le _) _ member
    omega
  · exact used

omit [LinearOrder K] in
theorem listAdd_elements {pointer : Nat} (element : ListNode O)
    {tree : TreeNode K (List (ListNode O))} (distinct : tree.addresses.Nodup)
    (member : pointer ∈ tree.addresses) :
    ((tree.listAdd pointer element).entries.flatMap TreeEntry.value).Perm
      (element :: tree.entries.flatMap TreeEntry.value) := by
  rw [listAdd, entries_mapValues]
  rw [addresses] at distinct member
  generalize tree.entries = entries at distinct member ⊢
  induction entries with
  | nil => exact absurd member List.not_mem_nil
  | cons entry entries ih =>
      rw [List.map_cons, List.nodup_cons] at distinct
      rw [List.map_cons, List.mem_cons] at member
      rw [List.map_cons, List.flatMap_cons, List.flatMap_cons]
      by_cases here : entry.address = pointer
      · have others : (entries.map fun entry => (⟨entry.address, entry.key,
            if entry.address = pointer then element :: entry.value else entry.value⟩ :
              TreeEntry K (List (ListNode O)))) = entries := by
          apply (List.map_congr_left _).trans (List.map_id _)
          intro other inEntries
          have elsewhere : other.address ≠ pointer := by
            rintro same
            exact distinct.1 (here.trans same.symm ▸ List.mem_map_of_mem inEntries)
          rw [if_neg elsewhere]
          rfl
        rw [others, if_pos here]
        exact List.Perm.refl _
      · rw [if_neg here]
        have inRest := member.resolve_left (Ne.symm here)
        exact ((ih distinct.2 inRest).append_left _).trans List.perm_middle

section ListAdd

variable {tree after : TreeNode K (List (ListNode O))} {key : K} {pointer : Nat}

theorem Inserts.isPlaced (inserts : Inserts tree key pointer after) (isPlaced : IsPlaced tree)
    {element : ListNode O}
    (fresh : element.address ∉ (tree.entries.flatMap TreeEntry.value).map ListNode.address) :
    IsPlaced (after.listAdd pointer element) where
  index := by
    refine ⟨ordered_mapValues _ inserts.ordered, ?_⟩
    rw [listAdd, entries_mapValues]
    intro entry member
    obtain ⟨other, inAfter, rfl⟩ := List.mem_map.mp member
    dsimp only
    split_ifs with here
    · exact List.cons_ne_nil _ _
    · rcases inserts.new other inAfter with inTree | ⟨isPointer, -⟩
      · exact isPlaced.index.2 other inTree
      · exact absurd isPointer here
  nodes := by
    rw [listAdd, addresses_mapValues]
    exact inserts.distinct
  elements := by
    obtain ⟨value, points⟩ := inserts.points
    have added := listAdd_elements element inserts.distinct (List.mem_map_of_mem points)
    have perm := (added.trans (inserts.elements.cons element)).map ListNode.address
    rw [perm.nodup_iff, List.map_cons, List.nodup_cons]
    exact ⟨fresh, isPlaced.elements⟩

theorem Inserts.mem_pairs (inserts : Inserts tree key pointer after) (element : ListNode O)
    {pair : K × ListNode O} :
    pair ∈ (after.listAdd pointer element).pairs ↔ pair = (key, element) ∨ pair ∈ tree.pairs := by
  obtain ⟨value, points⟩ := inserts.points
  rw [IndexRange.mem_pairs_iff, IndexRange.mem_pairs_iff, listAdd, entries_mapValues]
  simp only [List.mem_map]
  constructor
  · rintro ⟨_, ⟨entry, member, rfl⟩, isKey, inList⟩
    have ofOld (inList : pair.2 ∈ entry.value) :
        ∃ entry ∈ tree.entries, entry.key = pair.1 ∧ pair.2 ∈ entry.value := by
      rcases inserts.new entry member with inTree | ⟨-, isEmpty⟩
      · exact ⟨entry, inTree, isKey, inList⟩
      · rw [isEmpty] at inList
        exact absurd inList List.not_mem_nil
    dsimp only at inList
    split_ifs at inList with here
    · rcases List.mem_cons.mp inList with isElement | inList
      · have same : entry = ⟨pointer, key, value⟩ :=
          List.inj_on_of_nodup_map inserts.distinct member points here
        rw [same] at isKey
        exact Or.inl (Prod.ext isKey.symm isElement)
      · exact Or.inr (ofOld inList)
    · exact Or.inr (ofOld inList)
  · rintro (rfl | ⟨entry, member, isKey, inList⟩)
    · exact ⟨_, ⟨_, points, rfl⟩, rfl, by simp⟩
    · refine ⟨_, ⟨entry, inserts.kept entry member, rfl⟩, isKey, ?_⟩
      dsimp only
      split_ifs
      · exact List.mem_cons_of_mem _ inList
      · exact inList

end ListAdd

end TreeNode

/-! ## Iterations -/

/-- An iteration of an index that changes: the index, the iterator, what it has read with the keys,
and the address of the index. -/
structure IndexIteration (K O : Type*) where
  tree : TreeNode K (List (ListNode O))
  cursor : IndexCursor K
  trace : List (K × ListNode O)
  address : Nat

namespace IndexIteration

def start (address : Nat) (index : PlacedIndex K O) (predicate : PropertyPredicate K)
    (reverse : Bool) : IndexIteration K O :=
  ⟨index.tree, IndexCursor.getIterator index.tree predicate reverse, [], address⟩

/-- A caller reads an object and calls `next`, unless the iterator has ended.  There is nothing to
read from a vacant iterator. -/
def next (state : IndexIteration K O) : Option (IndexIteration K O) :=
  if state.cursor.vacantFlag then
    (state.cursor.next state.tree).map fun cursor => { state with cursor }
  else if state.cursor.toBool then
    (state.cursor.current state.tree).bind fun pair =>
      (state.cursor.next state.tree).map fun cursor =>
        { state with cursor, trace := state.trace ++ [pair] }
  else
    some state

/-- `Index::add`, with the addresses that the allocator offers for a tree node and for a list
node. -/
def add (state : IndexIteration K O) (key : K) (object : O) (offeredNode offeredElement : Nat)
    (writeLocked : Bool) : Option (IndexIteration K O) :=
  (state.tree.add key (state.tree.alloc offeredNode) [] writeLocked).bind fun added =>
    let notified :=
      if added.rebalanced then
        state.cursor.rebalanceNotify added.tree state.address
          (IndexCursor.avlTreePart state.address)
      else
        some state.cursor
    notified.map fun cursor =>
      { state with
        tree := added.tree.listAdd added.r ⟨state.tree.allocElement offeredElement, object⟩
        cursor }

/-- None of the links leads from a node of the iterator to a later one inside its far bound, or the
iterator has ended. -/
def Spared (state : IndexIteration K O) (links : List (TurnedLink K)) : Prop :=
  ∀ bounds, state.cursor.kind = .range bounds → state.cursor.listIt.isSome = true →
    Spares bounds.way bounds.inside links state.cursor.nodes

/-- What has been read, and what an iterator reads from here on while nothing changes. -/
structure Reads (state : IndexIteration K O) (way : Way) (expected ahead : List (K × ListNode O)) :
    Prop where
  yields : state.cursor.Yields state.tree (ahead.map Prod.snd)
  inTree : ∀ pair ∈ state.trace ++ ahead, pair ∈ state.tree.pairs
  monotone : (state.trace ++ ahead).Pairwise fun first second => ¬ way.Before second.1 first.1
  once : ((state.trace ++ ahead).map Prod.snd).Nodup
  -- an object that is in the index once
  objectsOnce : (state.tree.pairs.map fun pair => pair.2.value).Nodup →
    ((state.trace ++ ahead).map fun pair => pair.2.value).Nodup
  complete : ∀ pair ∈ expected, pair ∈ state.trace ++ ahead

/-- What each step keeps. -/
structure Invariant (state : IndexIteration K O) (bounds : IndexRange K)
    (expected ahead : List (K × ListNode O)) : Prop where
  isPlaced : IsPlaced state.tree
  notVacant : state.cursor.vacantFlag = false
  isAhead : bounds.IsAhead state.tree state.cursor ahead
  inTree : ∀ pair ∈ state.trace, pair ∈ state.tree.pairs
  monotone : (state.trace ++ ahead).Pairwise fun first second =>
    ¬ bounds.way.Before second.1 first.1
  nodup : (state.trace ++ ahead).Nodup
  complete : ∀ pair ∈ expected, pair ∈ state.trace ++ ahead

end IndexIteration

/-! ## One step -/

theorem Way.Before.not_trans {way : Way} {first second third : K}
    (notBefore : ¬ way.Before second first) (notBeforeSecond : ¬ way.Before third second) :
    ¬ way.Before third first := by
  cases way with
  | forward => exact not_lt.mpr ((not_lt.mp notBefore).trans (not_lt.mp notBeforeSecond))
  | reverse => exact not_lt.mpr ((not_lt.mp notBeforeSecond).trans (not_lt.mp notBefore))

/-- What an iterator has before it after an insertion. -/
structure StillAhead (way : Way) (ahead after : List (K × ListNode O)) (new : K × ListNode O) :
    Prop where
  kept : ∀ pair ∈ ahead, pair ∈ after
  only : ∀ pair ∈ after, pair ∈ ahead ∨ pair = new
  behind : ∀ pair ∈ after, ∃ other ∈ ahead, ¬ way.Before pair.1 other.1

section Step

variable {bounds : IndexRange K} {tree : TreeNode K (List (ListNode O))} {cursor : IndexCursor K}
  {ahead expected : List (K × ListNode O)} {key : K} {added : Added K (List (ListNode O))}

/-- The iterator after an insertion. -/
theorem IndexRange.IsAhead.add (isAhead : bounds.IsAhead tree cursor ahead)
    (inserts : Inserts tree key added.r added.tree) (element : ListNode O)
    (samePath : ∀ entry ∈ tree.entries, cursor.listIt.isSome = true →
      cursor.nodes = pointers (tree.search bounds.way ⟨entry.key, true⟩ bounds.inside []) →
        pointers (added.tree.search bounds.way ⟨entry.key, true⟩ bounds.inside []) =
          pointers (tree.search bounds.way ⟨entry.key, true⟩ bounds.inside []))
    (ordered : tree.Ordered) :
    ∃ after, bounds.IsAhead (added.tree.listAdd added.r element) cursor after ∧
      StillAhead bounds.way ahead after (key, element) := by
  cases isAhead with
  | ended curr path vacantFlag =>
      exact ⟨[], IndexRange.IsAhead.ended curr path vacantFlag, by simp, by simp, by simp⟩
  | atEntry member isSuffix vacantFlag =>
      rename_i entry first rest
      have inAdded := inserts.kept entry member
      let after := added.tree.listAdd added.r element
      let changed : TreeEntry K (List (ListNode O)) := ⟨entry.address, entry.key,
        if entry.address = added.r then element :: entry.value else entry.value⟩
      have inAfter : changed ∈ after.entries := by
        change changed ∈ (added.tree.listAdd added.r element).entries
        rw [TreeNode.listAdd, entries_mapValues]
        exact List.mem_map.mpr ⟨entry, inAdded, rfl⟩
      have isSuffix' : first :: rest <:+ changed.value := by
        simp only [changed]
        split_ifs
        · exact isSuffix.trans (List.suffix_cons _ _)
        · exact isSuffix
      have afterPath : pointers (after.search bounds.way ⟨entry.key, true⟩ bounds.inside []) =
          pointers (added.tree.search bounds.way ⟨entry.key, true⟩ bounds.inside []) :=
        pointers_search_mapValues _ _ _
      have isCursor : bounds.cursorAt tree entry first vacantFlag =
          bounds.cursorAt after changed first vacantFlag :=
        cursorAt_congr rfl (afterPath.trans (samePath entry member rfl
          (IndexRange.nodes_cursorAt ordered member first vacantFlag))) first vacantFlag
      have isAfter : bounds.IsAhead after (bounds.cursorAt after changed first vacantFlag) _ :=
        IndexRange.IsAhead.atEntry inAfter isSuffix' vacantFlag
      rw [← isCursor] at isAfter
      refine ⟨_, isAfter, ?_⟩
      have isFirst : (entry.key, first) ∈ bounds.ahead tree entry (first :: rest) :=
        IndexRange.mem_ahead_iff.mpr (Or.inl ⟨rfl, List.mem_cons_self⟩)
      constructor
      · intro pair inAhead
        rw [IndexRange.mem_ahead_iff] at inAhead ⊢
        rcases inAhead with inList | ⟨inTree, isLater⟩
        · exact Or.inl inList
        · exact Or.inr ⟨(inserts.mem_pairs element).mpr (Or.inr inTree), isLater⟩
      · intro pair inAhead
        rw [IndexRange.mem_ahead_iff] at inAhead ⊢
        rcases inAhead with inList | ⟨inTree, isLater⟩
        · exact Or.inl (Or.inl inList)
        · rcases (inserts.mem_pairs element).mp inTree with isNew | inTree
          · exact Or.inr isNew
          · exact Or.inl (Or.inr ⟨inTree, isLater⟩)
      · intro pair inAhead
        refine ⟨_, isFirst, ?_⟩
        rcases IndexRange.mem_ahead_iff.mp inAhead with ⟨isKey, -⟩ | ⟨-, before, -⟩
        · rw [isKey]
          exact Way.Before.irrefl _ _
        · exact before.asymm

namespace IndexIteration

variable {state : IndexIteration K O}

theorem Invariant.next (invariant : state.Invariant bounds expected ahead) :
    ∃ after rest, state.next = some after ∧ after.Invariant bounds expected rest ∧
      after.tree = state.tree := by
  obtain ⟨isPlaced, notVacant, isAhead, inTree, monotone, nodup, complete⟩ := invariant
  obtain ⟨isCurrent, activeIff⟩ := isAhead.current isPlaced notVacant
  by_cases active : state.cursor.toBool = true
  · obtain ⟨pair, rest, rfl⟩ := List.exists_cons_of_ne_nil (activeIff.mp active)
    obtain ⟨cursor, isNext, stillVacant, restAhead⟩ := isAhead.next isPlaced notVacant active
    have moved : state.trace ++ pair :: rest = (state.trace ++ [pair]) ++ rest :=
      List.append_cons _ _ _
    rw [moved] at monotone nodup complete
    refine ⟨{ state with cursor, trace := state.trace ++ [pair] }, rest, ?_,
      ⟨isPlaced, stillVacant, restAhead, ?_, monotone, nodup, complete⟩, rfl⟩
    · rw [IndexIteration.next, if_neg (by simp [notVacant]), if_pos active, isCurrent,
        List.head?_cons, Option.bind_some, isNext, Option.map_some]
    · intro other member
      rcases List.mem_append.mp member with inTrace | isLast
      · exact inTree other inTrace
      · rw [List.mem_singleton.mp isLast]
        exact isAhead.inTree pair List.mem_cons_self
  · refine ⟨state, ahead, ?_, ⟨isPlaced, notVacant, isAhead, inTree, monotone, nodup, complete⟩,
      rfl⟩
    rw [IndexIteration.next, if_neg (by simp [notVacant]), if_neg active]

theorem Invariant.add (invariant : state.Invariant bounds expected ahead) {key : K}
    {writeLocked : Bool} (safe : state.tree.InsertionSafe key writeLocked) (object : O)
    (offeredNode offeredElement : Nat)
    (spared : state.Spared (state.tree.addLinks key (state.tree.alloc offeredNode) [])) :
    ∃ after more, state.add key object offeredNode offeredElement writeLocked = some after ∧
      after.Invariant bounds expected more := by
  obtain ⟨isPlaced, notVacant, isAhead, inTree, monotone, nodup, complete⟩ := invariant
  have ordered := isPlaced.index.1
  have unused := state.tree.alloc_notMem offeredNode
  let element : ListNode O := ⟨state.tree.allocElement offeredElement, object⟩
  have fresh : element.address ∉
      (state.tree.entries.flatMap TreeEntry.value).map ListNode.address :=
    state.tree.allocElement_notMem offeredElement
  have isNew : ∀ pair ∈ state.tree.pairs, pair ≠ (key, element) := by
    rintro pair inTree rfl
    obtain ⟨entry, member, -, inList⟩ := IndexRange.mem_pairs_iff.mp inTree
    exact fresh (List.mem_map_of_mem (List.mem_flatMap.mpr ⟨entry, member, inList⟩))
  obtain ⟨added, isAdded, ended⟩ :=
    add_of_safe ordered isPlaced.nodes safe (state.tree.alloc offeredNode) []
  have inserts : Inserts state.tree key added.r added.tree := by
    rcases ended with isAdded | ⟨same, -, value, points⟩
    · exact addRecursive_inserts ordered safe.heightsOk isPlaced.nodes unused isAdded
    · rw [same]
      exact ⟨ordered, isPlaced.nodes, fun _ member => member, fun _ member => Or.inl member,
        ⟨value, points⟩, List.Perm.refl _⟩
  have samePath : ∀ entry ∈ state.tree.entries, state.cursor.listIt.isSome = true →
      state.cursor.nodes =
          pointers (state.tree.search bounds.way ⟨entry.key, true⟩ bounds.inside []) →
        pointers (added.tree.search bounds.way ⟨entry.key, true⟩ bounds.inside []) =
          pointers (state.tree.search bounds.way ⟨entry.key, true⟩ bounds.inside []) := by
    intro entry member notEnded isNodes
    rcases ended with isAdded | ⟨same, -⟩
    · have spares := spared bounds isAhead.kind_eq notEnded
      rw [isNodes] at spares
      exact pointers_search_addRecursive (fun _ _ => bounds.inside_of_before) ordered
        safe.heightsOk isAdded ⟨entry, member, rfl⟩ spares
    · rw [same]
  have placed := inserts.isPlaced isPlaced fresh
  obtain ⟨more, moreAhead, still⟩ := isAhead.add inserts element samePath ordered
  obtain ⟨traceMonotone, -, cross⟩ := List.pairwise_append.mp monotone
  obtain ⟨traceNodup, -, apart⟩ := List.nodup_append.mp nodup
  refine ⟨{ state with tree := added.tree.listAdd added.r element }, more, ?_,
    ⟨placed, notVacant, moreAhead, ?_, ?_, ?_, ?_⟩⟩
  · rw [IndexIteration.add, isAdded, Option.bind_some]
    dsimp only
    rw [IndexCursor.rebalanceNotify_avlTreePart, ite_self, Option.map_some]
  · exact fun pair inTrace => (inserts.mem_pairs element).mpr (Or.inr (inTree pair inTrace))
  · rw [List.pairwise_append]
    refine ⟨traceMonotone, moreAhead.sorted placed, fun pair inTrace other inMore => ?_⟩
    obtain ⟨middle, inAhead, notBefore⟩ := still.behind other inMore
    exact Way.Before.not_trans (cross pair inTrace middle inAhead) notBefore
  · rw [List.nodup_append]
    refine ⟨traceNodup, moreAhead.nodup placed, fun pair inTrace other inMore => ?_⟩
    rcases still.only other inMore with inAhead | rfl
    · exact apart pair inTrace other inAhead
    · exact isNew pair (inTree pair inTrace)
  · intro pair isExpected
    rcases List.mem_append.mp (complete pair isExpected) with inTrace | inAhead
    · exact List.mem_append_left _ inTrace
    · exact List.mem_append_right _ (still.kept pair inAhead)

end IndexIteration

end Step

/-! ## Runs -/

/-- What the transaction does between two calls of the iterator. -/
inductive IndexInsertion (K O : Type*)
  | next
  | add (key : K) (object : O) (offeredNode offeredElement : Nat) (writeLocked : Bool)

namespace IndexIteration

def insertingStep (state : IndexIteration K O) : IndexInsertion K O → Option (IndexIteration K O)
  | .next => state.next
  | .add key object offeredNode offeredElement writeLocked =>
      state.add key object offeredNode offeredElement writeLocked

/-- The condition on the index and the iterator before an insertion. -/
def SafeInsertion (state : IndexIteration K O) : IndexInsertion K O → Prop
  | .next => True
  | .add key _ offeredNode _ writeLocked =>
      state.tree.InsertionSafe key writeLocked ∧
        state.Spared (state.tree.addLinks key (state.tree.alloc offeredNode) [])

variable {bounds : IndexRange K} {expected ahead : List (K × ListNode O)}
  {state : IndexIteration K O}

theorem Invariant.reads (invariant : state.Invariant bounds expected ahead) :
    state.Reads bounds.way expected ahead := by
  have inTree : ∀ pair ∈ state.trace ++ ahead, pair ∈ state.tree.pairs := by
    intro pair member
    rcases List.mem_append.mp member with inTrace | inAhead
    · exact invariant.inTree pair inTrace
    · exact invariant.isAhead.inTree pair inAhead
  have elements := IndexRange.pairs_snd_nodup invariant.isPlaced.elements
  have once {Part : Type _} (part : K × ListNode O → Part)
      (distinct : (state.tree.pairs.map part).Nodup) : ((state.trace ++ ahead).map part).Nodup := by
    apply List.Nodup.map_on _ invariant.nodup
    intro first isFirst second isSecond same
    exact List.inj_on_of_nodup_map distinct (inTree first isFirst) (inTree second isSecond) same
  exact ⟨invariant.isAhead.yields invariant.isPlaced invariant.notVacant, inTree,
    invariant.monotone, once _ elements, once _, invariant.complete⟩

theorem start_invariant (address : Nat) (index : PlacedIndex K O) {predicate : PropertyPredicate K}
    {reverse : Bool} {near : Option (Compare K)}
    (isRange : predicate.bounds reverse = some (bounds, near)) :
    ∃ ahead, (start address index predicate reverse).Invariant bounds
      (index.tree.pairs.filter fun pair => predicate.compares pair.1) ahead := by
  obtain ⟨notVacant, isAhead⟩ := IndexRange.isAhead_getIterator index.isPlaced isRange
  refine ⟨_, index.isPlaced, notVacant, isAhead, by simp [start],
    isAhead.sorted index.isPlaced, isAhead.nodup index.isPlaced, fun pair isExpected => ?_⟩
  obtain ⟨inTree, passes⟩ := List.mem_filter.mp isExpected
  obtain ⟨entry, member, isKey, inList⟩ := IndexRange.mem_pairs_iff.mp inTree
  apply List.mem_flatMap.mpr
  refine ⟨entry, List.mem_filter.mpr ⟨(bounds.way.mem_along).mpr member, ?_⟩, ?_⟩
  · rw [PropertyPredicate.reads_eq isRange, isKey, passes, Bool.true_or]
  · exact List.mem_map.mpr ⟨pair.2, inList, by rw [isKey]⟩

theorem Invariant.insertingStep (invariant : state.Invariant bounds expected ahead)
    {action : IndexInsertion K O} (safe : state.SafeInsertion action) :
    ∃ after, state.insertingStep action = some after ∧
      ∃ more, after.Invariant bounds expected more := by
  cases action with
  | next =>
      obtain ⟨after, rest, isNext, kept, -⟩ := invariant.next
      exact ⟨after, isNext, rest, kept⟩
  | add key object offeredNode offeredElement writeLocked =>
      obtain ⟨after, more, isAdded, kept⟩ :=
        invariant.add safe.1 object offeredNode offeredElement safe.2
      exact ⟨after, isAdded, more, kept⟩

end IndexIteration

/-- A range iterator reads on as it should in every run whose insertions are safe. -/
theorem rangeIteration_survives_insertions (address : Nat) (index : PlacedIndex K O)
    (predicate : PropertyPredicate K) (reverse : Bool) {bounds : IndexRange K}
    {near : Option (Compare K)} (isRange : predicate.bounds reverse = some (bounds, near))
    (actions : List (IndexInsertion K O))
    (safe : MeetsAlong IndexIteration.insertingStep IndexIteration.SafeInsertion
      (IndexIteration.start address index predicate reverse) actions) :
    ∃ final ahead,
      run IndexIteration.insertingStep (IndexIteration.start address index predicate reverse) actions =
          some final ∧
        final.Reads bounds.way (index.tree.pairs.filter fun pair => predicate.compares pair.1)
          ahead := by
  obtain ⟨final, isRun, ahead, invariant⟩ := exists_run_invariant
    (fun state : IndexIteration K O => ∃ ahead, state.Invariant bounds
      (index.tree.pairs.filter fun pair => predicate.compares pair.1) ahead)
    (fun _ _ ⟨_, invariant⟩ isSafe => invariant.insertingStep isSafe)
    (IndexIteration.start_invariant address index isRange) safe
  exact ⟨final, ahead, isRun, invariant.reads⟩

theorem IndexIteration.add_isAvl {state after : IndexIteration K O} (isAvl : state.tree.IsAvl)
    {key : K} {object : O} {offeredNode offeredElement : Nat} {writeLocked : Bool}
    (isAdded : state.add key object offeredNode offeredElement writeLocked = some after) :
    after.tree.IsAvl := by
  obtain ⟨added, isAddedTree, addedAvl, -⟩ :=
    add_spec isAvl key (state.tree.alloc_notMem offeredNode) [] writeLocked
  rw [IndexIteration.add, isAddedTree, Option.bind_some] at isAdded
  obtain ⟨cursor, -, rfl⟩ := Option.map_eq_some_iff.mp isAdded
  exact isAvl_mapValues _ addedAvl

omit [LinearOrder K] in
theorem TreeNode.balanced_of_isSubtree {V : Type*} {subtree tree : TreeNode K V}
    (isSubtree : subtree.IsSubtree tree) (balanced : tree.Balanced) : subtree.Balanced := by
  induction tree with
  | null =>
      obtain rfl : subtree = null := isSubtree
      exact balanced
  | node address left right height key value leftIh rightIh =>
      rcases isSubtree with rfl | inLeft | inRight
      · exact balanced
      · exact leftIh inLeft balanced.1
      · exact rightIh inRight balanced.2.1

/-- In a balanced index every insertion in place starts in a balanced subtree. -/
theorem insertionSafe_of_isAvl {V : Type*} {tree : TreeNode K V} (isAvl : tree.IsAvl) (key : K)
    (writeLocked : Bool) : tree.InsertionSafe key writeLocked where
  heightsOk := isAvl.heightsOk
  balanced := fun _ _ _ _ _ _ isSubtree =>
    balanced_of_isSubtree (isSubtree_of_subtreeAt isSubtree) isAvl.balanced

/-- A balanced index with one object for each key from 1 to 3. -/
def threeKeys : PlacedIndex Nat Nat where
  tree := node 12 (node 11 null null 0 1 [⟨21, 71⟩]) (node 13 null null 0 3 [⟨23, 73⟩]) 1 2
    [⟨22, 72⟩]
  isPlaced := {
    index := by simp [IsIndex, Ordered, SortedBy]
    nodes := by decide
    elements := by decide }

theorem threeKeys_isAvl : threeKeys.tree.IsAvl where
  ordered := threeKeys.isPlaced.index.1
  heightsOk := by simp [threeKeys, HeightsOk, TreeNode.height]
  balanced := by simp [threeKeys, TreeNode.Balanced, TreeNode.height]
  distinct := threeKeys.isPlaced.nodes

/-- A reader at the key 2 of that index. -/
def readerAtTwo : IndexIteration Nat Nat :=
  IndexIteration.start 640 threeKeys (.bound .ge 2) false

/-- The second insertion rotates the nodes of 3 and 4, which the iterator has not reached. -/
theorem safeInsertions_readerAtTwo :
    MeetsAlong IndexIteration.insertingStep IndexIteration.SafeInsertion readerAtTwo
      [.add 4 74 14 24 false, .add 5 75 15 25 false, .next] := by
  have isAvl : readerAtTwo.tree.IsAvl := threeKeys_isAvl
  refine ⟨⟨insertionSafe_of_isAvl isAvl 4 false, ?_⟩, fun first isFirst => ?_⟩
  · rintro bounds ⟨⟩ -
    decide
  have firstAvl := IndexIteration.add_isAvl isAvl isFirst
  refine ⟨⟨insertionSafe_of_isAvl firstAvl 5 false, ?_⟩, fun second _ => ⟨trivial, fun _ _ => trivial⟩⟩
  have isTree : readerAtTwo.insertingStep (.add 4 74 14 24 false) = some { readerAtTwo with
      tree := node 12 (node 11 null null 0 1 [⟨21, 71⟩])
        (node 13 null (node 14 null null 0 4 [⟨24, 74⟩]) 1 3 [⟨23, 73⟩]) 2 2 [⟨22, 72⟩] } := by
    rfl
  obtain rfl := Option.some.inj (isFirst.symm.trans isTree)
  rintro bounds ⟨⟩ -
  decide

theorem rangeIteration_survives_insertions_threeKeys :
    ∃ final ahead,
      run IndexIteration.insertingStep (IndexIteration.start 640 threeKeys (.bound .ge 2) false)
          [.add 4 74 14 24 false, .add 5 75 15 25 false, .next] = some final ∧
        final.Reads .forward
          (threeKeys.tree.pairs.filter fun pair => (PropertyPredicate.bound .ge 2).compares pair.1)
          ahead :=
  rangeIteration_survives_insertions 640 threeKeys (.bound .ge 2) false rfl _
    safeInsertions_readerAtTwo

/-- A balanced index with one object for each of the keys 1 and 2. -/
def twoKeys : PlacedIndex Nat Nat where
  tree := node 11 null (node 12 null null 0 2 [⟨22, 72⟩]) 1 1 [⟨21, 71⟩]
  isPlaced := {
    index := by simp [IsIndex, Ordered, SortedBy]
    nodes := by decide
    elements := by decide }

/-- The insertion of 3 rotates the node of 1 below the node of 2.  An iterator at 1 is not told and
ends there. -/
theorem insertion_loses_objects :
    ¬ ∃ final ahead,
      run IndexIteration.insertingStep (IndexIteration.start 640 twoKeys .dontCare false)
          [.add 3 73 13 23 false] = some final ∧
        final.Reads .forward (twoKeys.tree.pairs.filter fun pair =>
          PropertyPredicate.dontCare.compares pair.1) ahead := by
  have computed : ((run IndexIteration.insertingStep
      (IndexIteration.start 640 twoKeys .dontCare false) [.add 3 73 13 23 false]).bind fun final =>
        (final.cursor.collect final.tree 4).map fun elements =>
          (final.trace.map Prod.snd ++ elements).contains ⟨22, 72⟩) = some false := by
    decide
  rintro ⟨final, ahead, isRun, reads⟩
  rw [isRun, Option.bind_some] at computed
  obtain ⟨elements, collected, lacks⟩ := Option.map_eq_some_iff.mp computed
  have isAhead := reads.yields.unique ⟨4, collected⟩
  have isRead := reads.complete (2, ⟨22, 72⟩) (by decide)
  have isElement := List.mem_map_of_mem isRead (f := Prod.snd)
  rw [List.map_append, isAhead] at isElement
  rw [List.contains_eq_mem, decide_eq_false_iff_not] at lacks
  exact lacks isElement

end Pmgd
