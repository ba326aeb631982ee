import Mathlib.Data.List.TakeWhile
import Pmgd.AvlLocks
import Pmgd.TreeWalk

/-!
# Index iterators as pointers

An index iterator points to the current node of the tree, to the nodes on its stack and to a
node of the object list of the current node.  The index can change while the iterator exists, so
each pointer is followed in the tree of the moment; a pointer to freed memory leads nowhere.
-/

namespace Pmgd

open SortedInsert TreeNode

variable {K O : Type*}

/-- `List::ListType`, without the link. -/
structure ListNode (O : Type*) where
  address : Nat
  value : O
  deriving DecidableEq, Repr

/-- `PropertyPredicate`. -/
inductive PropertyPredicate (K : Type*)
  | dontCare
  | eq (v1 : K)
  | ne (v1 : K)
  | bound (op : BoundOp) (v1 : K)
  | range (op : RangeOp) (v1 v2 : K)

section Compare

variable [LinearOrder K]

/-! ## Not-equal iterators -/

/-- `find_start_max` and its mirror image. -/
def Way.findStart (way : Way) (tree : TreeNode K (List O)) (cur : Compare K) (path : Stack K O) :
    Stack K O :=
  match way with
  | .forward => tree.findStartMax cur path
  | .reverse => tree.findStartMinReverse cur path

/-- `find_start_all` and its mirror image. -/
def Way.findAll (way : Way) (tree : TreeNode K (List O)) (path : Stack K O) : Stack K O :=
  match way with
  | .forward => tree.findStartAll path
  | .reverse => tree.findStartAllReverse path

namespace TreeNode

/-- `if (root != NULL) path.push(root)`. -/
def pushTo : TreeNode K (List O) → Stack K O → Stack K O
  | null, path => path
  | node address left right height key value, path =>
      node address left right height key value :: path

/-- `add_nodes_neq` and its mirror image. -/
def addNodesNeqAlong (way : Way) (neq : K) : TreeNode K (List O) → Stack K O → Stack K O
  | null, path => path
  | node address left right height key value, path =>
      let root := node address left right height key value
      let path := if neq = key then (way.second root).pushTo path else root :: path
      match way with
      | .forward => left.addNodesNeqAlong way neq path
      | .reverse => right.addNodesNeqAlong way neq path

def addNodesNeq (tree : TreeNode K (List O)) (neq : K) (path : Stack K O) : Stack K O :=
  tree.addNodesNeqAlong .forward neq path

def addNodesNeqReverse (tree : TreeNode K (List O)) (neq : K) (path : Stack K O) : Stack K O :=
  tree.addNodesNeqAlong .reverse neq path

/-- `find_node_neq` and its mirror image. -/
def findNodeNeqAlong (way : Way) (cur : Compare K) (neq : K) :
    TreeNode K (List O) → Stack K O → Stack K O
  | null, path => path
  | node address left right height key value, path =>
      let root := node address left right height key value
      if neq = key then
        if cur.before way key then
          way.findStart (way.first root) cur path
        else if cur.equals key then
          way.findAll (way.second root) path
        else
          way.findStart (way.second root) cur path
      else if way.Before cur.val key then
        match way with
        | .forward => left.findNodeNeqAlong way cur neq (root :: path)
        | .reverse => right.findNodeNeqAlong way cur neq (root :: path)
      else if way.Before key cur.val then
        match way with
        | .forward => right.findNodeNeqAlong way cur neq (root :: path)
        | .reverse => left.findNodeNeqAlong way cur neq (root :: path)
      else
        root :: path

def findNodeNeq (tree : TreeNode K (List O)) (cur : Compare K) (neq : K) (path : Stack K O) :
    Stack K O :=
  tree.findNodeNeqAlong .forward cur neq path

def findNodeNeqReverse (tree : TreeNode K (List O)) (cur : Compare K) (neq : K)
    (path : Stack K O) : Stack K O :=
  tree.findNodeNeqAlong .reverse cur neq path

/-- `find`. -/
def find {V : Type*} : TreeNode K V → K → Option V
  | null, _ => none
  | node _ left right _ nodeKey value, key =>
      if key = nodeKey then
        some value
      else if key < nodeKey then
        left.find key
      else
        right.find key

end TreeNode

end Compare

/-! ## Iterators -/

/-- The subclasses of `Index_IteratorImplBase`. -/
inductive CursorKind (K : Type*)
  | eq
  | range (bounds : IndexRange K)
  | neq (way : Way) (other : K)

/-- `Index_IteratorImplBase`, with pointers to tree nodes and to a list node. -/
structure IndexCursor (K : Type*) where
  kind : CursorKind K
  curr : Option Nat
  path : List Nat
  listIt : Option Nat
  vacantFlag : Bool

namespace CursorKind

variable [LinearOrder K]

/-- `_next`. -/
def next (kind : CursorKind K) (curr : TreeNode K (List O)) (path : Stack K O) : Stack K O :=
  match kind with
  | .eq => path
  | .range bounds => bounds.next curr path
  | .neq .forward other => curr.right.addNodesNeq other path
  | .neq .reverse other => curr.left.addNodesNeqReverse other path

/-- `find_node`. -/
def findNode (kind : CursorKind K) (tree : TreeNode K (List O)) (cur : Compare K)
    (path : Stack K O) : Stack K O :=
  match kind with
  | .eq => path
  | .range (.forward cmax) => tree.findStart cur cmax path
  | .range (.reverse cmin) => tree.findStartReverse cmin cur path
  | .range .nomax => tree.findStartMax cur path
  | .range .nomin => tree.findStartMinReverse cur path
  | .neq .forward other => tree.findNodeNeq cur other path
  | .neq .reverse other => tree.findNodeNeqReverse cur other path

end CursorKind

/-- The pointers to the nodes on a stack. -/
def pointers (path : Stack K O) : List Nat :=
  path.filterMap rootAddress

namespace TreeNode

/-- What the list links from a list node on. -/
def listFrom (tree : TreeNode K (List (ListNode O))) (pointer : Nat) :
    Option (List (ListNode O)) :=
  tree.entries.findSome? fun entry =>
    let list := entry.value.dropWhile fun element => decide (element.address ≠ pointer)
    if list.isEmpty then none else some list

/-- `_list_it.set(&node->value)`. -/
def firstElement (node : TreeNode K (List (ListNode O))) : Option Nat :=
  node.objects.head?.map ListNode.address

end TreeNode

namespace IndexCursor

/-- `operator bool`. -/
def toBool (cursor : IndexCursor K) : Bool :=
  cursor.vacantFlag || cursor.listIt.isSome

/-- The list node that `ref` reads. -/
def ref (tree : TreeNode K (List (ListNode O))) (cursor : IndexCursor K) : Option (ListNode O) :=
  if cursor.vacantFlag then
    none
  else
    cursor.listIt.bind fun pos => (tree.listFrom pos).bind List.head?

/-- `finish_init`. -/
def finishInit (kind : CursorKind K) : Stack K (ListNode O) → IndexCursor K
  | [] => ⟨kind, none, [], none, false⟩
  | curr :: path => ⟨kind, curr.rootAddress, pointers path, curr.firstElement, false⟩

/-- `_curr = _path.top(); _path.pop(); _list_it.set(&_curr->value)`, where the stack is not
empty. -/
def takeTop (tree : TreeNode K (List (ListNode O))) (cursor : IndexCursor K) :
    List Nat → Option (IndexCursor K)
  | [] => some { cursor with path := [], listIt := none }
  | curr :: path =>
      (tree.subtreeAt curr).map fun node =>
        { cursor with curr := some curr, path, listIt := node.firstElement }

section Next

variable [LinearOrder K]

/-- The stack after `_next`: new nodes above the old ones. -/
def nextPath (tree : TreeNode K (List (ListNode O))) (cursor : IndexCursor K) :
    Option (List Nat) :=
  match cursor.kind with
  | .eq => some cursor.path
  | kind =>
      (cursor.curr.bind tree.subtreeAt).map fun curr =>
        pointers (kind.next curr []) ++ cursor.path

/-- `next`, `none` where it follows `NULL` or a pointer to freed memory. -/
def next (tree : TreeNode K (List (ListNode O))) (cursor : IndexCursor K) :
    Option (IndexCursor K) :=
  if cursor.vacantFlag then
    some { cursor with vacantFlag := false }
  else
    (cursor.listIt.bind tree.listFrom).bind fun list =>
      if list.tail.isEmpty then
        (cursor.nextPath tree).bind fun path => cursor.takeTop tree path
      else
        some { cursor with listIt := list.tail.head?.map ListNode.address }

/-- `remove_notify`. -/
def removeNotify (tree : TreeNode K (List (ListNode O))) (cursor : IndexCursor K)
    (listNode : Nat) : Option (IndexCursor K) :=
  if cursor.listIt = some listNode then
    (next tree { cursor with vacantFlag := false }).map fun cursor =>
      { cursor with vacantFlag := true }
  else
    some cursor

/-- `static_cast<void *>` of the `AvlTree` in an `AvlTreeIndex` at this address: the property type
of the base class `Index` is in front of it. -/
def avlTreePart (index : Nat) : Nat :=
  index + 8

/-- `rebalance_notify`, where `_tree` points to `index` and the callback casts the pointer `notified`
to an `AvlTreeIndex`; `none` also where the assertion fails. -/
def rebalanceNotify (tree : TreeNode K (List (ListNode O))) (index notified : Nat)
    (cursor : IndexCursor K) : Option (IndexCursor K) :=
  match decide (notified = index), cursor.curr, cursor.listIt with
  | true, some curr, some _ =>
      (tree.subtreeAt curr).bind fun curr =>
        match curr with
        | null => none
        | node _ _ _ _ key _ =>
            match pointers (cursor.kind.findNode tree ⟨key, true⟩ []) with
            | [] => none
            | curr :: path => some { cursor with curr := some curr, path }
  | _, _, _ => some cursor

/-- `AvlTree` passes its own `this`, which is never the pointer to the index. -/
theorem rebalanceNotify_avlTreePart (tree : TreeNode K (List (ListNode O))) (index : Nat)
    (cursor : IndexCursor K) :
    cursor.rebalanceNotify tree index (avlTreePart index) = some cursor := by
  have elsewhere : avlTreePart index ≠ index := by
    unfold avlTreePart
    omega
  rw [rebalanceNotify, decide_eq_false elsewhere]

/-- `get_iterator`. -/
def getIterator (tree : TreeNode K (List (ListNode O))) (predicate : PropertyPredicate K)
    (reverse : Bool) : IndexCursor K :=
  let nomax (path : Stack K (ListNode O)) := finishInit (.range .nomax) path
  let nomin (path : Stack K (ListNode O)) := finishInit (.range .nomin) path
  let range (cmax : Compare K) (path : Stack K (ListNode O)) :=
    finishInit (.range (.forward cmax)) path
  let rangeReverse (cmin : Compare K) (path : Stack K (ListNode O)) :=
    finishInit (.range (.reverse cmin)) path
  match predicate with
  | .dontCare =>
      if !reverse then nomax (tree.findStartAll []) else nomin (tree.findStartAllReverse [])
  | .eq v1 =>
      ⟨.eq, none, [], (tree.find v1).bind fun list => list.head?.map ListNode.address, false⟩
  | .ne v1 =>
      if !reverse then
        finishInit (.neq .forward v1) (tree.addNodesNeq v1 [])
      else
        finishInit (.neq .reverse v1) (tree.addNodesNeqReverse v1 [])
  | .bound op v1 =>
      let strict : Compare K := ⟨v1, false⟩
      let inclusive : Compare K := ⟨v1, true⟩
      match op with
      | .lt => if !reverse then range strict (tree.findStartMin strict [])
          else nomin (tree.findStartMinReverse strict [])
      | .le => if !reverse then range inclusive (tree.findStartMin inclusive [])
          else nomin (tree.findStartMinReverse inclusive [])
      | .gt => if !reverse then nomax (tree.findStartMax strict [])
          else rangeReverse strict (tree.findStartMaxReverse strict [])
      | .ge => if !reverse then nomax (tree.findStartMax inclusive [])
          else rangeReverse inclusive (tree.findStartMaxReverse inclusive [])
  | .range op v1 v2 =>
      let cmin : Compare K := ⟨v1, op.inclMin⟩
      let cmax : Compare K := ⟨v2, op.inclMax⟩
      if !reverse then range cmax (tree.findStart cmin cmax [])
      else rangeReverse cmin (tree.findStartReverse cmin cmax [])

/-- The loop of a caller that reads everything while nothing changes. -/
def collect (tree : TreeNode K (List (ListNode O))) :
    Nat → IndexCursor K → Option (List (ListNode O))
  | 0, _ => none
  | fuel + 1, cursor =>
      if cursor.toBool then
        (cursor.ref tree).bind fun element =>
          (cursor.next tree).bind fun cursor => (collect tree fuel cursor).map (element :: ·)
      else
        some []

/-- The iterator ends, and these are the list nodes that it reads. -/
def Yields (tree : TreeNode K (List (ListNode O))) (cursor : IndexCursor K)
    (elements : List (ListNode O)) : Prop :=
  ∃ fuel, cursor.collect tree fuel = some elements

end Next

end IndexCursor

/-! ## Indexes in memory -/

section Memory

variable [LinearOrder K]

/-- No two tree nodes and no two list nodes of an index are at the same address. -/
structure IsPlaced (tree : TreeNode K (List (ListNode O))) : Prop where
  index : IsIndex tree
  nodes : tree.addresses.Nodup
  elements : ((tree.entries.flatMap TreeEntry.value).map ListNode.address).Nodup

/-- An index in memory. -/
structure PlacedIndex (K O : Type*) [LinearOrder K] where
  tree : TreeNode K (List (ListNode O))
  isPlaced : IsPlaced tree

namespace TreeNode

omit [LinearOrder K] in
theorem IsSubtree.addresses_sublist {V : Type*} {subtree tree : TreeNode K V}
    (isSubtree : subtree.IsSubtree tree) : subtree.addresses.Sublist tree.addresses :=
  isSubtree.entries_sublist.map _

omit [LinearOrder K] in
/-- A pointer to a node of the tree can be followed. -/
theorem IsSubtree.subtreeAt_eq {V : Type*} {subtree tree : TreeNode K V} {pointer : Nat}
    (isSubtree : subtree.IsSubtree tree) (distinct : tree.addresses.Nodup)
    (isRoot : subtree.rootAddress = some pointer) : tree.subtreeAt pointer = some subtree := by
  induction tree with
  | null =>
      obtain rfl : subtree = null := isSubtree
      cases isRoot
  | node address left right height key value leftIh rightIh =>
      rw [addresses_node] at distinct
      rcases isSubtree with rfl | inLeft | inRight
      · exact subtreeAt_of_rootAddress isRoot
      · have member := inLeft.addresses_sublist.subset (mem_addresses_of_rootAddress isRoot)
        have notHere : address ≠ pointer := fun same =>
          (List.nodup_append.mp distinct).2.2 pointer member address List.mem_cons_self same.symm
        rw [subtreeAt, if_neg notHere, leftIh inLeft distinct.of_append_left, Option.some_or]
      · have member := inRight.addresses_sublist.subset (mem_addresses_of_rootAddress isRoot)
        obtain ⟨-, rightDistinct, apart⟩ := List.nodup_append.mp distinct
        obtain ⟨notRight, rightDistinct⟩ := List.nodup_cons.mp rightDistinct
        have notHere : address ≠ pointer := fun same => notRight (same ▸ member)
        have notLeft : pointer ∉ left.addresses := fun inLeft =>
          apart pointer inLeft pointer (List.mem_cons_of_mem _ member) rfl
        rw [subtreeAt, if_neg notHere, subtreeAt_eq_none notLeft, rightIh inRight rightDistinct,
          Option.none_or]

omit [LinearOrder K] in
theorem isSubtree_of_subtreeAt {V : Type*} {subtree tree : TreeNode K V} {pointer : Nat}
    (found : tree.subtreeAt pointer = some subtree) : subtree.IsSubtree tree := by
  induction tree with
  | null => cases found
  | node address left right height key value leftIh rightIh =>
      rw [subtreeAt] at found
      split_ifs at found with here
      · exact Or.inl (Option.some.inj found).symm
      · rcases Option.or_eq_some_iff.mp found with inLeft | ⟨-, inRight⟩
        · exact Or.inr (Or.inl (leftIh inLeft))
        · exact Or.inr (Or.inr (rightIh inRight))

theorem IsSubtree.isIndex {subtree tree : TreeNode K (List O)}
    (isSubtree : subtree.IsSubtree tree) (isIndex : IsIndex tree) : IsIndex subtree :=
  ⟨isIndex.1.sublist isSubtree.entries_sublist,
    fun entry member => isIndex.2 entry (isSubtree.entries_sublist.subset member)⟩

omit [LinearOrder K] in
/-- A pointer to a list node of the index can be followed. -/
theorem listFrom_eq {tree : TreeNode K (List (ListNode O))}
    (distinct : ((tree.entries.flatMap TreeEntry.value).map ListNode.address).Nodup)
    {entry : TreeEntry K (List (ListNode O))} (member : entry ∈ tree.entries)
    {element : ListNode O} {rest : List (ListNode O)}
    (isSuffix : element :: rest <:+ entry.value) :
    tree.listFrom element.address = some (element :: rest) := by
  rw [listFrom]
  generalize tree.entries = entries at member distinct
  induction entries with
  | nil => exact absurd member List.not_mem_nil
  | cons first entries ih =>
      rw [List.flatMap_cons, List.map_append] at distinct
      obtain ⟨firstDistinct, restDistinct, apart⟩ := List.nodup_append.mp distinct
      rw [List.findSome?_cons]
      rcases List.mem_cons.mp member with rfl | member
      · obtain ⟨before, isValue⟩ := isSuffix
        have notBefore : ∀ other ∈ before, other.address ≠ element.address := by
          rw [← isValue, List.map_append, List.map_cons] at firstDistinct
          intro other inBefore
          exact (List.nodup_append.mp firstDistinct).2.2 _ (List.mem_map_of_mem inBefore) _
            List.mem_cons_self
        have dropped : entry.value.dropWhile
            (fun other => decide (other.address ≠ element.address)) = element :: rest := by
          rw [← isValue, List.dropWhile_append_of_pos (by simpa using notBefore)]
          simp
        rw [dropped]
        rfl
      · have inOthers : element.address ∈
            (entries.flatMap TreeEntry.value).map ListNode.address :=
          List.mem_map_of_mem
            (List.mem_flatMap.mpr ⟨entry, member, isSuffix.subset List.mem_cons_self⟩)
        have dropped : first.value.dropWhile
            (fun other => decide (other.address ≠ element.address)) = [] := by
          rw [List.dropWhile_eq_nil_iff]
          intro other inFirst
          simpa using apart _ (List.mem_map_of_mem inFirst) _ inOthers
        rw [dropped]
        exact ih member restDistinct

end TreeNode

end Memory

end Pmgd
