import Pmgd.IndexPositions
import Pmgd.NotEqualIteration

/-!
# Not-equal iteration after a rotation

The callback for rotations does not recognise the pointer that it gets, so an iterator goes on
with the stack that it has.  In the new tree the stack stands for what the iterator has to read as
long as the child that comes after each of its nodes leads to the next one.
-/

namespace Pmgd

open SortedInsert TreeNode

variable {K O : Type*} [LinearOrder K]

/-- A node of an iterator leads to the next node of its stack: under the child that comes after it
are, apart from the excluded key, the entries strictly between the two, and `add_nodes_neq` leaves
none of them out. -/
def NeqLeads (way : Way) (other : K) (tree : TreeNode K (List O)) (curr : TreeEntry K (List O))
    (next : Option (TreeEntry K (List O))) : Prop :=
  ∀ subtree, tree.subtreeAt curr.address = some subtree →
    (∀ entry ∈ tree.entries, entry.key ≠ other →
      (entry ∈ (way.second subtree).entries ↔
        way.Before curr.key entry.key ∧ ∀ top ∈ next, way.Before entry.key top.key)) ∧
    NeqComplete way other (way.second subtree)

/-- Each node leads to the next one, and the last one to the end. -/
def NeqKept (way : Way) (other : K) (tree : TreeNode K (List O)) (curr : TreeEntry K (List O)) :
    List (TreeEntry K (List O)) → Prop
  | [] => NeqLeads way other tree curr none
  | top :: stack =>
      (way.Before curr.key top.key ∧ top.key ≠ other) ∧
        NeqLeads way other tree curr (some top) ∧ NeqKept way other tree top stack

namespace TreeNode

variable {way : Way} {other : K} {tree : TreeNode K (List O)}

omit [LinearOrder K] in
/-- The node of an entry. -/
theorem exists_subtreeAt (distinct : tree.addresses.Nodup) {entry : TreeEntry K (List O)}
    (member : entry ∈ tree.entries) :
    ∃ subtree, tree.subtreeAt entry.address = some subtree ∧ subtree.IsSubtree tree ∧
      rootEntry subtree = [entry] := by
  obtain ⟨left, right, height, isSubtree, -⟩ := subtreeAt_of_mem_entries distinct member
  exact ⟨_, isSubtree, isSubtree_of_subtreeAt isSubtree, rfl⟩

/-- What is after an entry comes in the order of the walk. -/
theorem following_sorted (ordered : tree.Ordered) (inside : K → Bool) (cur : K) :
    (way.following inside cur tree).Pairwise fun first second =>
      way.Before first.key second.key :=
  (IndexRange.along_sorted way ordered).filter _

theorem mem_following {inside : K → Bool} {cur : K} {entry : TreeEntry K (List O)} :
    entry ∈ way.following inside cur tree ↔
      entry ∈ tree.entries ∧ way.Before cur entry.key ∧ inside entry.key = true := by
  rw [Way.following, List.mem_filter, way.mem_along, Bool.and_eq_true, decide_eq_true_eq]

theorem nodup_of_sorted {part : List (TreeEntry K (List O))}
    (sorted : part.Pairwise fun entry later => way.Before entry.key later.key) : part.Nodup := by
  rw [List.Nodup]
  exact sorted.imp fun before => ne_of_apply_ne TreeEntry.key before.ne

/-- Two parts of a walk with the same entries are the same. -/
theorem eq_of_mem_iff {first second : List (TreeEntry K (List O))}
    (sortedFirst : first.Pairwise fun entry later => way.Before entry.key later.key)
    (sortedSecond : second.Pairwise fun entry later => way.Before entry.key later.key)
    (same : ∀ entry, entry ∈ first ↔ entry ∈ second) : first = second := by
  apply List.Perm.eq_of_pairwise (fun _ _ _ _ before after => absurd after before.asymm)
    sortedFirst sortedSecond
  exact (List.perm_ext_iff_of_nodup (nodup_of_sorted sortedFirst)
    (nodup_of_sorted sortedSecond)).mpr same

/-- What is left out comes before something that is read: the root of the pushed child. -/
theorem exists_read_after (ordered : tree.Ordered) {entry : TreeEntry K (List O)}
    (missed : entry ∈ tree.neqMissed way other) :
    ∃ later ∈ tree.neqReads way other, way.Before entry.key later.key := by
  induction tree using way.induct with
  | atNull => exact absurd missed List.not_mem_nil
  | atNode address left right height key value firstIh secondIh =>
      obtain ⟨firstOrdered, secondOrdered, -⟩ := way.ordered_node ordered
      rw [neqReads_node]
      by_cases isOther : other = key
      · rw [neqMissed, if_pos isOther] at missed
        rw [if_pos isOther]
        cases isSecond : way.second (node address left right height key value) with
        | null =>
            rw [isSecond] at missed
            cases way <;> exact absurd missed List.not_mem_nil
        | node secondAddress secondLeft secondRight secondHeight secondKey secondValue =>
            rw [isSecond] at missed secondOrdered
            refine ⟨⟨secondAddress, secondKey, secondValue⟩, ?_,
              (way.ordered_node secondOrdered).2.2.1 entry missed⟩
            exact List.mem_append_right _ List.mem_cons_self
      · have inChild : entry ∈
            (way.first (node address left right height key value)).neqMissed way other ∨
              entry ∈ (way.second (node address left right height key value)).neqMissed way
                other := by
          rw [neqMissed, if_neg isOther, List.mem_append] at missed
          cases way with
          | forward => exact missed
          | reverse => exact missed.symm
        rw [if_neg isOther]
        rcases inChild with inFirst | inSecond
        · obtain ⟨later, isRead, before⟩ := firstIh firstOrdered inFirst
          exact ⟨later, List.mem_append_left _ isRead, before⟩
        · obtain ⟨later, isRead, before⟩ := secondIh secondOrdered inSecond
          exact ⟨later, List.mem_append_right _ (List.mem_cons_of_mem _ isRead), before⟩

/-- What is read under the child that comes after a node is a given part of the walk exactly when
that part is under it and nothing is left out. -/
theorem neqReads_eq_following_iff (ordered : tree.Ordered) {subtree : TreeNode K (List O)}
    (isSubtree : subtree.IsSubtree tree) {curr : TreeEntry K (List O)}
    (isRoot : rootEntry subtree = [curr]) {next : K → Bool}
    (downward : ∀ key later, way.Before key later → next later = true → next key = true) :
    (way.second subtree).neqReads way other =
        way.following (fun key => decide (key ≠ other) && next key) curr.key tree ↔
      (∀ entry ∈ tree.entries, entry.key ≠ other →
        (entry ∈ (way.second subtree).entries ↔
          way.Before curr.key entry.key ∧ next entry.key = true)) ∧
        NeqComplete way other (way.second subtree) := by
  have isChild := (isSubtree_second way subtree).trans isSubtree
  have childOrdered : (way.second subtree).Ordered := ordered.sublist isChild.entries_sublist
  have inTree : ∀ entry ∈ (way.second subtree).entries, entry ∈ tree.entries :=
    fun entry member => isChild.entries_sublist.subset member
  let kept := (way.along (way.second subtree)).filter fun entry => decide (entry.key ≠ other)
  have mem_kept {entry : TreeEntry K (List O)} :
      entry ∈ kept ↔ entry ∈ (way.second subtree).entries ∧ entry.key ≠ other := by
    simp only [kept, List.mem_filter, way.mem_along, decide_eq_true_eq]
  have mem_part {entry : TreeEntry K (List O)} :
      entry ∈ way.following (fun key => decide (key ≠ other) && next key) curr.key tree ↔
        entry ∈ tree.entries ∧ way.Before curr.key entry.key ∧ entry.key ≠ other ∧
          next entry.key = true := by
    simp only [mem_following, Bool.and_eq_true, decide_eq_true_eq]
  have after : ∀ entry ∈ (way.second subtree).entries, way.Before curr.key entry.key := by
    cases subtree with
    | null => cases isRoot
    | node address left right height key value =>
        obtain rfl := List.singleton_inj.mp isRoot
        exact fun entry member => (way.ordered_node (ordered.sublist
          isSubtree.entries_sublist)).2.2.2 entry ((way.mem_along).mpr member)
  constructor
  · intro same
    have perm := neqReads_perm way other childOrdered
    have nodup : kept.Nodup :=
      nodup_of_sorted ((IndexRange.along_sorted way childOrdered).filter _)
    -- what is left out would be in the same part as what is read after it
    have noneMissed : (way.second subtree).neqMissed way other = [] := by
      rw [List.eq_nil_iff_forall_not_mem]
      intro entry missed
      obtain ⟨later, isRead, before⟩ := exists_read_after childOrdered missed
      obtain ⟨inChild, notOther⟩ :=
        mem_kept.mp (perm.mem_iff.mpr (List.mem_append_right _ missed))
      rw [same, mem_part] at isRead
      have inPart := mem_part.mpr ⟨inTree entry inChild, after entry inChild, notOther,
        downward _ _ before isRead.2.2.2⟩
      rw [← same] at inPart
      exact (List.nodup_append.mp (perm.nodup_iff.mp nodup)).2.2 entry inPart entry missed rfl
    have isComplete := (neqMissed_eq_nil_iff childOrdered).mp noneMissed
    refine ⟨fun entry member notOther => ?_, isComplete⟩
    have isKept := (neqReads_eq_iff childOrdered).mpr isComplete
    have same : kept = _ := isKept.symm.trans same
    have iff : entry ∈ kept ↔ _ := mem_kept
    rw [same, mem_part] at iff
    grind
  · rintro ⟨between, isComplete⟩
    rw [(neqReads_eq_iff childOrdered).mpr isComplete]
    apply eq_of_mem_iff ((IndexRange.along_sorted way childOrdered).filter _)
      (following_sorted ordered _ _)
    intro entry
    rw [mem_part, show entry ∈ List.filter _ _ ↔ _ from mem_kept]
    constructor
    · rintro ⟨inChild, notOther⟩
      obtain ⟨after, isNext⟩ := (between entry (inTree entry inChild) notOther).mp inChild
      exact ⟨inTree entry inChild, after, notOther, isNext⟩
    · rintro ⟨member, after, notOther, isNext⟩
      exact ⟨(between entry member notOther).mpr ⟨after, isNext⟩, notOther⟩

/-- What is after a key, split at one of its entries. -/
theorem following_split (ordered : tree.Ordered) {cur : K} {top : TreeEntry K (List O)}
    (member : top ∈ tree.entries) (after : way.Before cur top.key) (notOther : top.key ≠ other) :
    way.following (fun key => decide (key ≠ other)) cur tree =
      way.following (fun key => decide (key ≠ other) && decide (way.Before key top.key)) cur tree ++
        top :: way.following (fun key => decide (key ≠ other)) top.key tree := by
  refine eq_of_mem_iff (following_sorted ordered _ _) ?_ ?_
  · rw [List.pairwise_append, List.pairwise_cons]
    refine ⟨following_sorted ordered _ _, ⟨fun later isLater => (mem_following.mp isLater).2.1,
      following_sorted ordered _ _⟩, fun entry isBetween later isLater => ?_⟩
    have beforeTop : way.Before entry.key top.key := by
      have passes := (mem_following.mp isBetween).2.2
      rw [Bool.and_eq_true] at passes
      exact of_decide_eq_true passes.2
    rcases List.mem_cons.mp isLater with rfl | isLater
    · exact beforeTop
    · exact beforeTop.trans (mem_following.mp isLater).2.1
  · intro entry
    simp only [List.mem_append, List.mem_cons, mem_following, Bool.and_eq_true, decide_eq_true_eq]
    constructor
    · rintro ⟨inTree, isAfter, isKept⟩
      rcases Way.Before.trichotomy way entry.key top.key with before | same | later
      · exact Or.inl ⟨inTree, isAfter, isKept, before⟩
      · exact Or.inr (Or.inl (ordered.eq_of_key_eq inTree member same))
      · exact Or.inr (Or.inr ⟨inTree, later, isKept⟩)
    · rintro (⟨inTree, isAfter, isKept, -⟩ | rfl | ⟨inTree, isAfter, isKept⟩)
      · exact ⟨inTree, isAfter, isKept⟩
      · exact ⟨member, after, notOther⟩
      · exact ⟨inTree, after.trans isAfter, isKept⟩

/-- A node of the tree at an entry. -/
def IsNodeAt (tree : TreeNode K (List O)) (subtree : TreeNode K (List O))
    (entry : TreeEntry K (List O)) : Prop :=
  subtree.IsSubtree tree ∧ rootEntry subtree = [entry]

theorem neqLeads_iff (ordered : tree.Ordered) (distinct : tree.addresses.Nodup)
    {subtree : TreeNode K (List O)} {curr : TreeEntry K (List O)}
    (isNode : tree.IsNodeAt subtree curr) (next : Option (TreeEntry K (List O))) :
    NeqLeads way other tree curr next ↔
      (way.second subtree).neqReads way other =
        way.following (fun key => decide (key ≠ other) &&
          decide (∀ top ∈ next, way.Before key top.key)) curr.key tree := by
  obtain ⟨isSubtree, isRoot⟩ := isNode
  have found := isSubtree.subtreeAt_eq distinct (rootAddress_of_rootEntry isRoot)
  rw [neqReads_eq_following_iff ordered isSubtree isRoot]
  · simp only [decide_eq_true_eq]
    constructor
    · exact fun leads => leads subtree found
    · rintro leads other isOther
      obtain rfl := Option.some.inj (found.symm.trans isOther)
      exact leads
  · intro key later before isNext
    rw [decide_eq_true_eq] at isNext ⊢
    exact fun top isTop => before.trans (isNext top isTop)

/-- What an iterator reads after its current entry is right exactly when its nodes lead to each
other. -/
theorem pending_eq_iff (ordered : tree.Ordered) (distinct : tree.addresses.Nodup)
    {subtree : TreeNode K (List O)} {curr : TreeEntry K (List O)}
    (isNode : tree.IsNodeAt subtree curr) {path : Stack K O} {stack : List (TreeEntry K (List O))}
    (isPath : List.Forall₂ tree.IsNodeAt path stack) :
    (way.second subtree).neqReads way other ++ (CursorKind.neq way other).pending path =
        way.following (fun key => decide (key ≠ other)) curr.key tree ↔
      NeqKept way other tree curr stack := by
  induction isPath generalizing subtree curr with
  | nil =>
      rw [CursorKind.pending_nil, List.append_nil, NeqKept, neqLeads_iff ordered distinct isNode]
      simp
  | @cons topNode top path stack isTop isPath ih =>
      have member : top ∈ tree.entries := isTop.1.rootEntry_mem (by rw [isTop.2]; simp)
      have isPending : (CursorKind.neq way other).pending (topNode :: path) =
          top :: ((way.second topNode).neqReads way other ++
            (CursorKind.neq way other).pending path) := by
        rw [CursorKind.pending_cons, isTop.2, List.append_assoc]
        rfl
      rw [isPending, NeqKept, neqLeads_iff ordered distinct isNode, ← ih isTop]
      by_cases isLater : way.Before curr.key top.key ∧ top.key ≠ other
      · rw [following_split ordered member isLater.1 isLater.2, eq_comm,
          List.append_cons_inj_of_notMem]
        · simp [isLater, eq_comm]
        · intro isBetween
          have passes := (mem_following.mp isBetween).2.2
          rw [Bool.and_eq_true] at passes
          exact Way.Before.irrefl way _ (of_decide_eq_true passes.2)
        · exact fun isAfter => Way.Before.irrefl way _ (mem_following.mp isAfter).2.1
      · refine iff_of_false (fun same => isLater ?_) fun kept => isLater kept.1
        have isRead : top ∈ way.following (fun key => decide (key ≠ other)) curr.key tree := by
          rw [← same]
          exact List.mem_append_right _ List.mem_cons_self
        obtain ⟨-, after, notOther⟩ := mem_following.mp isRead
        exact ⟨after, of_decide_eq_true notOther⟩

/-- What is read from a stack is in the tree. -/
theorem mem_of_mem_pending (ordered : tree.Ordered) {path : Stack K O} (isStack : IsStack tree path)
    {entry : TreeEntry K (List O)} (isRead : entry ∈ (CursorKind.neq way other).pending path) :
    entry ∈ tree.entries := by
  obtain ⟨node, member, isRead⟩ := List.mem_flatMap.mp isRead
  have isSubtree := (isStack node member).1
  rcases List.mem_append.mp isRead with isHere | isLater
  · exact isSubtree.rootEntry_mem isHere
  · have isChild := (isSubtree_second way node).trans isSubtree
    exact isChild.entries_sublist.subset
      (mem_of_mem_neqReads (ordered.sublist isChild.entries_sublist) isLater)

omit [LinearOrder K] in
theorem exists_path (distinct : tree.addresses.Nodup) {stack : List (TreeEntry K (List O))}
    (inTree : ∀ entry ∈ stack, entry ∈ tree.entries) :
    ∃ path : Stack K O, List.Forall₂ tree.IsNodeAt path stack ∧
      pointers path = stack.map TreeEntry.address ∧ IsStack tree path := by
  induction stack with
  | nil => exact ⟨[], List.Forall₂.nil, rfl, isStack_nil tree⟩
  | cons top stack ih =>
      obtain ⟨path, isPath, isPointers, isStack⟩ :=
        ih fun entry member => inTree entry (List.mem_cons_of_mem _ member)
      obtain ⟨subtree, -, isSubtree, isRoot⟩ :=
        exists_subtreeAt distinct (inTree top List.mem_cons_self)
      refine ⟨subtree :: path, List.Forall₂.cons ⟨isSubtree, isRoot⟩ isPath, ?_, ?_⟩
      · rw [IndexRange.pointers_of_top isRoot, isPointers, List.map_cons]
      · rintro node (_ | ⟨_, member⟩)
        · refine ⟨isSubtree, ?_⟩
          rintro rfl
          cases isRoot
        · exact isStack node member

end TreeNode

/-- After a rotation and the callback, a not-equal iterator goes on with the other keys after its
current one exactly when its nodes lead to each other in the new tree.  A vacant iterator is already
at the object that comes next. -/
theorem neqRebalance_restores_iff (before after : PlacedIndex K O)
    (sameEntries : after.tree.entries = before.tree.entries) (address : Nat) (way : Way) (other : K)
    (entry : TreeEntry K (List (ListNode O))) (member : entry ∈ before.tree.entries)
    {element : ListNode O} {rest : List (ListNode O)} (isSuffix : element :: rest <:+ entry.value)
    (stack : List (TreeEntry K (List (ListNode O))))
    (inTree : ∀ node ∈ stack, node ∈ before.tree.entries) (vacantFlag : Bool) :
    (∃ notified, (⟨.neq way other, some entry.address, stack.map TreeEntry.address,
          some element.address, vacantFlag⟩ : IndexCursor K).rebalanceNotify after.tree address
            (IndexCursor.avlTreePart address) = some notified ∧
        notified.vacantFlag = vacantFlag ∧
        ({ notified with vacantFlag := false } : IndexCursor K).Yields after.tree
          (element :: rest ++ (way.following (fun key => decide (key ≠ other)) entry.key
            before.tree).flatMap TreeEntry.value)) ↔
      NeqKept way other after.tree entry stack := by
  have ordered := after.isPlaced.index.1
  have distinct := after.isPlaced.nodes
  rw [← sameEntries] at member inTree
  have sameFollowing : way.following (fun key => decide (key ≠ other)) entry.key before.tree =
      way.following (fun key => decide (key ≠ other)) entry.key after.tree := by
    cases way <;> simp only [Way.following, Way.along, sameEntries]
  obtain ⟨subtree, -, isSubtree, isRoot⟩ := exists_subtreeAt distinct member
  obtain ⟨path, isPath, isPointers, isStack⟩ := exists_path distinct inTree
  have nonempty : subtree ≠ null := by
    rintro rfl
    cases isRoot
  have isAt : (⟨.neq way other, some entry.address, stack.map TreeEntry.address,
      some element.address, false⟩ : IndexCursor K).IsAt after.tree subtree path
        (element :: rest) :=
    ⟨(rootAddress_of_rootEntry isRoot).symm, isSubtree, Or.inr nonempty, isPointers.symm, isStack,
      rfl, ⟨entry, member, isSuffix⟩, rfl⟩
  have yields := IndexCursor.yields_remaining after.isPlaced isAt (List.cons_ne_nil _ _)
  have readsInTree : ∀ read ∈ (way.second subtree).neqReads way other ++
      (CursorKind.neq way other).pending path, read ∈ after.tree.entries := by
    have isChild := (isSubtree_second way subtree).trans isSubtree
    intro read isRead
    rcases List.mem_append.mp isRead with isRead | isRead
    · exact isChild.entries_sublist.subset
        (mem_of_mem_neqReads (ordered.sublist isChild.entries_sublist) isRead)
    · exact mem_of_mem_pending ordered isStack isRead
  rw [sameFollowing, IndexCursor.rebalanceNotify_avlTreePart,
    ← pending_eq_iff ordered distinct ⟨isSubtree, isRoot⟩ isPath]
  constructor
  · rintro ⟨notified, isSome, -, complete⟩
    rw [← Option.some.inj isSome] at complete
    apply flatMap_value_injective after.isPlaced readsInTree
      (fun _ isAfter => (mem_following.mp isAfter).1)
    exact List.append_cancel_left (yields.unique complete)
  · intro same
    refine ⟨_, rfl, rfl, ?_⟩
    rw [← same]
    exact yields

/-- Three keys to the right of each other. -/
def leaning : PlacedIndex Nat Nat where
  tree := node 11 null (node 12 null (node 13 null null 0 3 [⟨23, 73⟩]) 1 2 [⟨22, 72⟩]) 2 1
    [⟨21, 71⟩]
  isPlaced := {
    index := by simp [IsIndex, Ordered, SortedBy]
    nodes := by decide
    elements := by decide }

theorem isPlaced_rotated :
    IsPlaced (node 12 (node 11 null null 0 1 [⟨21, 71⟩]) (node 13 null null 0 3 [⟨23, 73⟩]) 1 2
      [⟨22, 72⟩] : TreeNode Nat (List (ListNode Nat))) where
  index := by simp [IsIndex, Ordered, SortedBy]
  nodes := by decide
  elements := by decide

/-- The same keys after a rotation. -/
def rotated : PlacedIndex Nat Nat :=
  ⟨_, isPlaced_rotated⟩

/-- An iterator at the key 2 is on the side of the link that loses nothing. -/
theorem neqRebalance_restores_second :
    leaning.tree.leftRotate = some rotated.tree ∧
      ∃ notified, (⟨.neq .forward 9, some 12, [], some 22, false⟩ :
            IndexCursor Nat).rebalanceNotify rotated.tree 640 (IndexCursor.avlTreePart 640) =
              some notified ∧
          notified.vacantFlag = false ∧
          ({ notified with vacantFlag := false } : IndexCursor Nat).Yields rotated.tree
            ([⟨22, 72⟩] ++ (Way.forward.following (fun key => decide (key ≠ 9)) 2
              leaning.tree).flatMap TreeEntry.value) := by
  refine ⟨by decide, ?_⟩
  apply (neqRebalance_restores_iff leaning rotated (by decide) 640 .forward 9
    ⟨12, 2, [⟨22, 72⟩]⟩ (by decide) (List.suffix_refl _) [] (by simp) false).mpr
  rintro subtree isRoot
  obtain rfl := Option.some.inj isRoot
  refine ⟨by decide, ?_⟩
  simp +contextual [NeqComplete, Way.second, IsSubtree, Way.first, TreeNode.left, TreeNode.right]

/-- The insertion of 3 next to 1 and 2 rotates.  An iterator with `Ne 9` at the key 1 ends there. -/
theorem rotation_loses_two :
    (node 11 null (node 12 null null 0 2 [⟨22, 72⟩]) 1 1 [⟨21, 71⟩]).addRecursive 3 13 [⟨23, 73⟩] =
        some ⟨rotated.tree, 13, true⟩ ∧
      leaning.tree.leftRotate = some rotated.tree ∧
      ∃ notified, (⟨.neq .forward 9, some 11, [], some 21, false⟩ :
            IndexCursor Nat).rebalanceNotify rotated.tree 640 (IndexCursor.avlTreePart 640) =
              some notified ∧
          notified.Yields rotated.tree [⟨21, 71⟩] ∧
          ¬ notified.Yields rotated.tree ([⟨21, 71⟩] ++
            (Way.forward.following (fun key => decide (key ≠ 9)) 1 leaning.tree).flatMap
              TreeEntry.value) := by
  have yields : (⟨.neq .forward 9, some 11, [], some 21, false⟩ : IndexCursor Nat).Yields
      rotated.tree [⟨21, 71⟩] := ⟨2, by decide⟩
  have isExpected : [⟨21, 71⟩] ++
      (Way.forward.following (fun key => decide (key ≠ 9)) 1 leaning.tree).flatMap
        TreeEntry.value = [(⟨21, 71⟩ : ListNode Nat), ⟨22, 72⟩, ⟨23, 73⟩] := by decide
  refine ⟨rfl, by decide, ⟨.neq .forward 9, some 11, [], some 21, false⟩, rfl, yields,
    fun expected => ?_⟩
  rw [isExpected] at expected
  exact absurd (yields.unique expected) (by decide)

end Pmgd
