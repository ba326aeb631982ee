import Pmgd.AvlBalance

/-!
# The lock plans of `AvlTree::add` and `AvlTree::remove`

Before it changes the tree, a transaction walks down the search path, predicts the height of
every subtree on it after the change, and takes the write lock of one node above all nodes
that are going to change.  The change then starts at that node: its parent keeps the pointer
to it.  On balanced trees the predictions are right, and the change is the one that starts at
the root.
-/

namespace Pmgd

open SortedInsert

namespace TreeNode

variable {K V : Type*}

/-! ## Changes below a node -/

/-- The pointer to the tree, `none` for `NULL`. -/
def rootAddress : TreeNode K V → Option Nat
  | null => none
  | node address _ _ _ _ _ => some address

/-- What a pointer to this address points to. -/
def subtreeAt (pointer : Nat) : TreeNode K V → Option (TreeNode K V)
  | null => none
  | node address left right height key value =>
      if address = pointer then
        some (node address left right height key value)
      else
        (left.subtreeAt pointer).or (right.subtreeAt pointer)

/-- Nodes at and below an address have changed. -/
def replaceAt (pointer : Nat) : TreeNode K V → TreeNode K V → TreeNode K V
  | null, _ => null
  | node address left right height key value, changed =>
      if address = pointer then
        changed
      else
        node address (left.replaceAt pointer changed) (right.replaceAt pointer changed) height
          key value

/-- An operation on a subtree in place.  Its new root is dropped: the parent still points to
the old one, which must not be freed. -/
def inPlace {Out : Type*} (pointer : Nat)
    (operation : TreeNode K V → Option (TreeNode K V × Out)) (tree : TreeNode K V) :
    Option (TreeNode K V × Out) :=
  (tree.subtreeAt pointer).bind fun subtree =>
    (operation subtree).bind fun (changed, out) =>
      (changed.subtreeAt pointer).map fun kept => (tree.replaceAt pointer kept, out)

/-- An operation that returns the node it started at, with the height it had. -/
def keepsRoot {Out : Type*} (operation : TreeNode K V → Option (TreeNode K V × Out))
    (subtree : TreeNode K V) : Option (TreeNode K V × Out) :=
  (operation subtree).filter fun (changed, _) =>
    decide (changed.rootAddress = subtree.rootAddress ∧ changed.height = subtree.height)

section Locks

variable [LinearOrder K]

/-- What the scan expects of a node on the search path. -/
structure LockInfo where
  curr : Option Nat
  myht : Int
  htChange : Bool
  ptrChange : Bool
  ptrChangeForParent : Bool
  deriving DecidableEq, Repr

def LockInfo.changed (info : LockInfo) : Bool :=
  info.htChange || info.ptrChange

/-! ## The plan of an insertion -/

/-- `mylocks` from this level on, the result of `get_locks_add_recursive`, and `r`. -/
structure AddScan where
  here : LockInfo
  deeper : List LockInfo
  retval : Int
  r : Nat

def AddScan.locks (scan : AddScan) : List LockInfo :=
  scan.here :: scan.deeper

/-- The rest of `get_locks_add_recursive` after the recursive call. -/
def AddScan.above (below : AddScan) (address : Nat) (height lefth righth : Int)
    (level : Nat) : AddScan :=
  if below.retval = -1 then
    -- no new node needed, key matched
    { below with here := ⟨some address, height, false, false, false⟩, deeper := below.locks }
  else
    let imbalance : Bool := (lefth - righth) % 4 = 2
    let myht := if imbalance then height else max lefth righth + 1
    let info : LockInfo :=
      ⟨some address, myht, height ≠ myht, imbalance || below.here.ptrChangeForParent, imbalance⟩
    ⟨info, below.locks, myht, if info.changed then level - 1 else below.r⟩

/-- `get_locks_add_recursive`. -/
def getLocksAddRecursive : TreeNode K V → K → Nat → Nat → AddScan
  | null, _, r, _ => ⟨⟨none, 0, true, true, true⟩, [], 0, r⟩
  | node address left right height nodeKey _, key, r, level =>
      if key = nodeKey then
        ⟨⟨some address, height, false, false, false⟩, [], -1, level⟩
      else if key < nodeKey then
        let below := left.getLocksAddRecursive key r (level + 1)
        below.above address height below.retval right.height level
      else
        let below := right.getLocksAddRecursive key r (level + 1)
        below.above address height left.height below.retval level

/-- `get_locks_add`: the result and `to_lock`.  `writeLocked` says that the transaction has
the write lock of the index or of the root already. -/
def getLocksAdd (tree : TreeNode K V) (key : K) (writeLocked : Bool) : Int × Option Nat :=
  match tree, writeLocked with
  | null, _ | _, true => (1, none)
  | tree, false =>
      let scan := tree.getLocksAddRecursive key 0 0
      if scan.r = 0 then
        (1, tree.rootAddress)
      else
        (scan.retval, scan.locks[scan.r]?.bind LockInfo.curr)

/-- `add_recursive` as an operation in place. -/
def addOperation (key : K) (fresh : Nat) (initial : V) (subtree : TreeNode K V) :
    Option (TreeNode K V × Nat × Bool) :=
  (subtree.addRecursive key fresh initial).map fun added =>
    (added.tree, added.r, added.rebalanced)

/-- `add`, with the address of a new allocation and the value it is constructed with. -/
def add (tree : TreeNode K V) (key : K) (fresh : Nat) (initial : V) (writeLocked : Bool) :
    Option (Added K V) :=
  let (retval, toLock) := tree.getLocksAdd key writeLocked
  if retval < 0 then
    toLock.map fun toLock => ⟨tree, toLock, false⟩
  else if retval = 1 then
    tree.addRecursive key fresh initial
  else
    toLock.bind fun toLock =>
      (tree.inPlace toLock (addOperation key fresh initial)).map
        fun (tree, r, rebalanced) => ⟨tree, r, rebalanced⟩

/-! ## The plan of a deletion -/

/-- `mylocks` from this level on, `to_delete`, and `r`. -/
structure RemoveScan (K V : Type*) where
  here : LockInfo
  deeper : List LockInfo
  toDelete : Option (TreeEntry K V)
  r : Nat

def RemoveScan.locks (scan : RemoveScan K V) : List LockInfo :=
  scan.here :: scan.deeper

/-- What `get_locks_remove_recursive` expects of a node after the recursive call for one child.
A sibling that is too large is not `NULL`. -/
def LockInfo.aboveRemoval (below : LockInfo) (address : Nat) (height : Int) (ptrChange : Bool)
    (sibling : TreeNode K V) : LockInfo :=
  let tooLarge : Bool := sibling.height - below.myht = 2
  let myht :=
    if tooLarge then
      if sibling.EvenChildren then height else height - 1
    else
      max sibling.height below.myht + 1
  ⟨some address, myht, height ≠ myht, ptrChange || below.ptrChangeForParent, tooLarge⟩

/-- The rest of `get_locks_remove_recursive` after the recursive call. -/
def RemoveScan.above (below : RemoveScan K V) (address : Nat) (height : Int) (ptrChange : Bool)
    (sibling : TreeNode K V) (r : Nat) : RemoveScan K V :=
  ⟨below.here.aboveRemoval address height ptrChange sibling, below.locks, below.toDelete, r⟩

/-- `get_locks_remove_recursive`, `none` for -1. -/
def getLocksRemoveRecursive : TreeNode K V → K → Option (TreeEntry K V) → Nat →
    Option (RemoveScan K V)
  | null, _, _, _ => none
  | node address left right height nodeKey _, key, toDelete, level =>
      if key > nodeKey then
        (right.getLocksRemoveRecursive key toDelete (level + 1)).map fun below =>
          below.above address height false left below.r
      else if key = nodeKey then
        match left, right with
        | null, temp | temp, null =>
            some ⟨⟨some address, temp.height, true, true, true⟩, [], toDelete, level⟩
        | _, _ =>
            left.findMax.bind fun toReplace =>
              -- the predecessor is there, so this call finds it
              (left.getLocksRemoveRecursive toReplace.key (some toReplace) (level + 1)).map
                fun below => below.above address height true right level
      else
        (left.getLocksRemoveRecursive key toDelete (level + 1)).map fun below =>
          below.above address height false right below.r

/-- `to_lock`, `to_delete` and `to_change` of `remove`. -/
structure RemovePlan (K V : Type*) where
  toLock : Option Nat
  toDelete : Option (TreeEntry K V)
  toChange : Option Nat

/-- `get_locks_remove`, `none` for -1. -/
def getLocksRemove (tree : TreeNode K V) (key : K) (writeLocked : Bool) :
    Option (RemovePlan K V) :=
  match tree, writeLocked with
  | null, _ => none
  | tree, true => some ⟨tree.rootAddress, none, none⟩
  | tree, false =>
      (tree.getLocksRemoveRecursive key none 0).map fun scan =>
        let toChange := scan.toDelete.bind fun _ => scan.locks[scan.r]?.bind LockInfo.curr
        let toLock := (scan.locks.findIdx? LockInfo.changed).bind fun i =>
          if i ≤ 2 then tree.rootAddress else scan.locks[i - 2]?.bind LockInfo.curr
        ⟨toLock, scan.toDelete, toChange⟩

/-- What `remove` returns, and the tree. -/
structure RemoveResult (K V : Type*) where
  retval : Int
  tree : TreeNode K V
  rebalanced : Bool

/-- The value and key of `to_delete` are copied to `to_lock`, and the node is deleted below
it. -/
def replaceByPredecessor (toDelete : TreeEntry K V) :
    TreeNode K V → Option (TreeNode K V × Bool)
  | null => none
  | node address left right height _ _ =>
      (left.removeRecursive toDelete.key).map fun removed =>
        (node address removed.tree right height toDelete.key toDelete.value,
          removed.rebalanced)

/-- `remove_recursive` as an operation in place. -/
def removeOperation (key : K) (subtree : TreeNode K V) : Option (TreeNode K V × Bool) :=
  (subtree.removeRecursive key).map fun removed => (removed.tree, removed.rebalanced)

/-- `remove`. -/
def remove (tree : TreeNode K V) (key : K) (writeLocked : Bool) :
    Option (RemoveResult K V) :=
  match tree.getLocksRemove key writeLocked with
  | none => some ⟨-1, tree, false⟩
  | some plan =>
      if plan.toLock = tree.rootAddress then
        (tree.removeRecursive key).map fun removed => ⟨0, removed.tree, removed.rebalanced⟩
      else
        plan.toLock.bind fun toLock =>
          let operation := match plan.toDelete with
            | some toDelete =>
                if plan.toChange = some toLock then
                  replaceByPredecessor toDelete
                else
                  removeOperation key
            | none => removeOperation key
          (tree.inPlace toLock operation).map fun (tree, rebalanced) => ⟨0, tree, rebalanced⟩

end Locks

/-! ## Operations in place -/

theorem subtreeAt_eq_none {pointer : Nat} {tree : TreeNode K V}
    (absent : pointer ∉ tree.addresses) : tree.subtreeAt pointer = none := by
  induction tree with
  | null => rfl
  | node address left right height key value leftIh rightIh =>
      simp only [addresses_node, List.mem_append, List.mem_cons, not_or] at absent
      obtain ⟨notLeft, notHere, notRight⟩ := absent
      rw [subtreeAt, if_neg (Ne.symm notHere), leftIh notLeft, rightIh notRight, Option.or_none]

theorem replaceAt_of_notMem {pointer : Nat} {tree : TreeNode K V}
    (absent : pointer ∉ tree.addresses) (changed : TreeNode K V) :
    tree.replaceAt pointer changed = tree := by
  induction tree with
  | null => rfl
  | node address left right height key value leftIh rightIh =>
      simp only [addresses_node, List.mem_append, List.mem_cons, not_or] at absent
      obtain ⟨notLeft, notHere, notRight⟩ := absent
      rw [replaceAt, if_neg (Ne.symm notHere), leftIh notLeft, rightIh notRight]

theorem subtreeAt_of_rootAddress {pointer : Nat} {tree : TreeNode K V}
    (isRoot : tree.rootAddress = some pointer) : tree.subtreeAt pointer = some tree := by
  cases tree with
  | null => simp [rootAddress] at isRoot
  | node address left right height key value =>
      rw [subtreeAt, if_pos (Option.some.inj isRoot)]

theorem mem_addresses_of_rootAddress {pointer : Nat} {tree : TreeNode K V}
    (isRoot : tree.rootAddress = some pointer) : pointer ∈ tree.addresses := by
  cases tree with
  | null => simp [rootAddress] at isRoot
  | node address left right height key value =>
      rw [addresses_node, ← Option.some.inj isRoot]
      exact List.mem_append_right _ List.mem_cons_self

section InPlace

variable {Out : Type*} {operation : TreeNode K V → Option (TreeNode K V × Out)}
  {pointer address : Nat} {left right : TreeNode K V} {height : Int} {key : K} {value : V}

theorem keepsRoot_eq_some {subtree changed : TreeNode K V} {out : Out} :
    keepsRoot operation subtree = some (changed, out) ↔
      operation subtree = some (changed, out) ∧ changed.rootAddress = subtree.rootAddress ∧
        changed.height = subtree.height := by
  rw [keepsRoot, Option.filter_eq_some_iff]
  simp only [decide_eq_true_eq]

theorem rootAddress_of_subtreeAt {tree subtree : TreeNode K V}
    (isSubtree : tree.subtreeAt pointer = some subtree) : subtree.rootAddress = some pointer := by
  induction tree with
  | null => cases isSubtree
  | node address left right height key value leftIh rightIh =>
      rw [subtreeAt] at isSubtree
      split_ifs at isSubtree with here
      · rw [← Option.some.inj isSubtree, rootAddress, here]
      · rcases Option.or_eq_some_iff.mp isSubtree with inLeft | ⟨-, inRight⟩
        · exact leftIh inLeft
        · exact rightIh inRight

/-- What an operation in place does that keeps its root. -/
theorem inPlace_keepsRoot {tree changed : TreeNode K V} {out : Out}
    (isChanged : tree.inPlace pointer (keepsRoot operation) = some (changed, out)) :
    ∃ subtree after, tree.subtreeAt pointer = some subtree ∧
      operation subtree = some (after, out) ∧ after.rootAddress = some pointer ∧
      after.height = subtree.height ∧ changed = tree.replaceAt pointer after := by
  simp only [inPlace, Option.bind_eq_some_iff, Option.map_eq_some_iff, Prod.mk.injEq]
    at isChanged
  obtain ⟨subtree, isSubtree, ⟨after, _⟩, isAfter, kept, isKept, rfl, rfl⟩ := isChanged
  obtain ⟨operated, sameRoot, sameHeight⟩ := keepsRoot_eq_some.mp isAfter
  have isRoot := sameRoot.trans (rootAddress_of_subtreeAt isSubtree)
  rw [subtreeAt_of_rootAddress isRoot] at isKept
  exact ⟨subtree, after, isSubtree, operated, isRoot, sameHeight, by rw [Option.some.inj isKept]⟩

theorem inPlace_of_keepsRoot {tree changed : TreeNode K V} {out : Out}
    (isChanged : tree.inPlace pointer (keepsRoot operation) = some (changed, out)) :
    tree.inPlace pointer operation = some (changed, out) := by
  obtain ⟨subtree, after, isSubtree, operated, isRoot, -, isResult⟩ :=
    inPlace_keepsRoot isChanged
  rw [inPlace, isSubtree, Option.bind_some, operated, Option.bind_some, isResult]
  simp only [subtreeAt_of_rootAddress isRoot, Option.map_some]

/-- An operation at the root that keeps the root. -/
theorem inPlace_root {changed : TreeNode K V} {out : Out}
    (isChanged : operation (node address left right height key value) = some (changed, out))
    (keeps : changed.rootAddress = some address) (sameHeight : changed.height = height) :
    (node address left right height key value).inPlace address (keepsRoot operation) =
      some (changed, out) := by
  have kept : keepsRoot operation (node address left right height key value) =
      some (changed, out) := keepsRoot_eq_some.mpr ⟨isChanged, keeps, sameHeight⟩
  rw [inPlace, subtreeAt, if_pos rfl, Option.bind_some, kept, Option.bind_some]
  simp only [subtreeAt_of_rootAddress keeps, Option.map_some, replaceAt, if_pos]

theorem inPlace_left {changed : TreeNode K V} {out : Out}
    (distinct : (node address left right height key value).addresses.Nodup)
    (member : pointer ∈ left.addresses)
    (isChanged : left.inPlace pointer operation = some (changed, out)) :
    (node address left right height key value).inPlace pointer operation =
      some (node address changed right height key value, out) := by
  obtain ⟨notHere, notRight⟩ : address ≠ pointer ∧ pointer ∉ right.addresses := by
    rw [addresses_node, List.nodup_middle, List.nodup_cons, List.nodup_append] at distinct
    obtain ⟨notElsewhere, -, -, disjoint⟩ := distinct
    refine ⟨fun same => ?_, fun onRight => disjoint pointer member pointer onRight rfl⟩
    exact notElsewhere (List.mem_append_left _ (same ▸ member))
  simp only [inPlace, Option.bind_eq_some_iff, Option.map_eq_some_iff, Prod.mk.injEq]
    at isChanged
  obtain ⟨subtree, isSubtree, ⟨after, _⟩, isAfter, kept, isKept, rfl, rfl⟩ := isChanged
  rw [inPlace, subtreeAt, if_neg notHere, isSubtree, Option.some_or, Option.bind_some, isAfter,
    Option.bind_some]
  simp only [isKept, Option.map_some, replaceAt, if_neg notHere,
    replaceAt_of_notMem notRight]

theorem inPlace_right {changed : TreeNode K V} {out : Out}
    (distinct : (node address left right height key value).addresses.Nodup)
    (member : pointer ∈ right.addresses)
    (isChanged : right.inPlace pointer operation = some (changed, out)) :
    (node address left right height key value).inPlace pointer operation =
      some (node address left changed height key value, out) := by
  obtain ⟨notHere, notLeft⟩ : address ≠ pointer ∧ pointer ∉ left.addresses := by
    rw [addresses_node, List.nodup_middle, List.nodup_cons, List.nodup_append] at distinct
    obtain ⟨notElsewhere, -, -, disjoint⟩ := distinct
    refine ⟨fun same => ?_, fun onLeft => disjoint pointer onLeft pointer member rfl⟩
    exact notElsewhere (List.mem_append_right _ (same ▸ member))
  simp only [inPlace, Option.bind_eq_some_iff, Option.map_eq_some_iff, Prod.mk.injEq]
    at isChanged
  obtain ⟨subtree, isSubtree, ⟨after, _⟩, isAfter, kept, isKept, rfl, rfl⟩ := isChanged
  rw [inPlace, subtreeAt, if_neg notHere, subtreeAt_eq_none notLeft, Option.none_or, isSubtree,
    Option.bind_some, isAfter, Option.bind_some]
  simp only [isKept, Option.map_some, replaceAt, if_neg notHere,
    replaceAt_of_notMem notLeft]

end InPlace

/-! ## The plan of an insertion is right -/

/-- What the scan predicts about the insertion of an absent key, where the scan has reached
`level`. -/
structure AddScan.Predicts (scan : AddScan) (tree : TreeNode K V) (level : Nat)
    (operation : TreeNode K V → Option (TreeNode K V × Nat × Bool)) (added : Added K V) :
    Prop where
  retval_eq : scan.retval = added.tree.height
  nonempty : scan.here.ptrChangeForParent = false → tree ≠ null
  r_of_changed : tree ≠ null → scan.here.changed = true → scan.r = level - 1
  inPlace_of_unchanged : scan.here.changed = false → level ≤ scan.r ∧
    ∃ pointer, scan.locks[scan.r - level]?.bind LockInfo.curr = some pointer ∧
      pointer ∈ tree.addresses ∧
      tree.inPlace pointer operation = some (added.tree, added.r, added.rebalanced)

/-- The scan of a node after the scan of the child on the search path. -/
theorem AddScan.Predicts.above {tree child : TreeNode K V} {address level : Nat} {height : Int}
    {below : AddScan} {operation : TreeNode K V → Option (TreeNode K V × Nat × Bool)} {addedChild added : Added K V}
    {lefth righth : Int} (plan : below.Predicts child (level + 1) operation addedChild)
    (grown : 0 ≤ addedChild.tree.height) (isRoot : tree.rootAddress = some address)
    (rotates : (lefth - righth) % 4 = 2 → added.tree.height = height)
    (keeps : (lefth - righth) % 4 ≠ 2 → added.tree.height = max lefth righth + 1 ∧
      (height = max lefth righth + 1 →
        tree.inPlace address operation = some (added.tree, added.r, added.rebalanced)))
    (lifts : (lefth - righth) % 4 ≠ 2 → height = max lefth righth + 1 →
      ∀ pointer ∈ child.addresses,
        child.inPlace pointer operation =
          some (addedChild.tree, addedChild.r, addedChild.rebalanced) →
        pointer ∈ tree.addresses ∧
          tree.inPlace pointer operation = some (added.tree, added.r, added.rebalanced)) :
    (below.above address height lefth righth level).Predicts tree level operation added := by
  have absent : below.retval ≠ -1 := by
    rw [plan.retval_eq]
    omega
  have nonempty : tree ≠ null := by
    rintro rfl
    simp [rootAddress] at isRoot
  by_cases imbalance : (lefth - righth) % 4 = 2
  · simp only [AddScan.above, if_neg absent, imbalance, decide_true, if_true, Bool.true_or]
    exact ⟨(rotates imbalance).symm, fun _ => nonempty, fun _ _ => by simp [LockInfo.changed],
      by simp [LockInfo.changed]⟩
  · obtain ⟨isHeight, atRoot⟩ := keeps imbalance
    simp only [AddScan.above, if_neg absent, imbalance, decide_false, Bool.false_eq_true,
      if_false, Bool.false_or]
    refine ⟨isHeight.symm, fun _ => nonempty, fun _ changed => if_pos changed, ?_⟩
    intro unchanged
    simp only [LockInfo.changed, Bool.or_eq_false_iff, decide_eq_false_iff_not, not_not]
      at unchanged
    obtain ⟨sameHeight, samePointer⟩ := unchanged
    rw [if_neg (by simp [LockInfo.changed, ← sameHeight, samePointer])]
    by_cases changed : below.here.changed = true
    · -- the child changes, and this node is the first above it that does not
      have isLevel := plan.r_of_changed (plan.nonempty samePointer) changed
      rw [isLevel, Nat.add_sub_cancel]
      refine ⟨le_rfl, address, ?_, mem_addresses_of_rootAddress isRoot,
        atRoot sameHeight⟩
      rw [Nat.sub_self]
      rfl
    · obtain ⟨deeper, pointer, isPointer, member, inChild⟩ :=
        plan.inPlace_of_unchanged (by simpa using changed)
      obtain ⟨inTree, inPlace⟩ := lifts imbalance sameHeight pointer member inChild
      refine ⟨Nat.le_of_succ_le deeper, pointer, ?_, inTree, inPlace⟩
      have isDeeper : below.r - level = below.r - (level + 1) + 1 := by omega
      rw [isDeeper, AddScan.locks, List.getElem?_cons_succ]
      exact isPointer

section AboveRemoval

variable {below : LockInfo} {address : Nat} {height : Int} {sibling : TreeNode K V}
  {ptrChange : Bool}

theorem LockInfo.aboveRemoval_of_tooLarge (tooLarge : sibling.height - below.myht = 2) :
    (below.aboveRemoval address height ptrChange sibling).myht =
        (if sibling.EvenChildren then height else height - 1) ∧
      (below.aboveRemoval address height ptrChange sibling).ptrChangeForParent = true := by
  simp [LockInfo.aboveRemoval, tooLarge]

theorem LockInfo.aboveRemoval_of_near (near : sibling.height - below.myht ≠ 2) :
    (below.aboveRemoval address height ptrChange sibling).myht =
        max sibling.height below.myht + 1 ∧
      (below.aboveRemoval address height ptrChange sibling).ptrChangeForParent = false := by
  simp [LockInfo.aboveRemoval, near]

theorem LockInfo.aboveRemoval_height
    (same : (below.aboveRemoval address height ptrChange sibling).htChange = false) :
    height = (below.aboveRemoval address height ptrChange sibling).myht := by
  simpa [LockInfo.aboveRemoval] using same

theorem LockInfo.aboveRemoval_unchanged
    (unchanged : (below.aboveRemoval address height false sibling).changed = false) :
    height = (below.aboveRemoval address height false sibling).myht ∧
      below.ptrChangeForParent = false := by
  simpa [LockInfo.changed, LockInfo.aboveRemoval] using unchanged

end AboveRemoval

section Plans

variable [LinearOrder K] {address : Nat} {left right : TreeNode K V} {height : Int}
  {nodeKey key : K} {value : V}

theorem addRecursive_height_nonneg {tree : TreeNode K V} (isAvl : tree.IsAvl) {fresh : Nat}
    {initial : V} {added : Added K V}
    (isAdded : tree.addRecursive key fresh initial = some added) : 0 ≤ added.tree.height := by
  obtain ⟨_, isSame, -, addedOk, _, member⟩ :=
    addRecursive_spec isAvl.ordered isAvl.heightsOk key fresh initial
  obtain rfl := Option.some.inj (isAdded.symm.trans isSame)
  cases isTree : added.tree with
  | null => simp [isTree] at member
  | node _ low high _ _ _ =>
      rw [isTree] at addedOk
      have := neg_one_le_height addedOk.1
      have := addedOk.2.2
      rw [height_node]
      omega

theorem getLocksAddRecursive_predicts {tree : TreeNode K V} (isAvl : tree.IsAvl)
    (absent : ∀ entry ∈ tree.entries, entry.key ≠ key) (fresh : Nat) (initial : V)
    (r level : Nat) {added : Added K V}
    (isAdded : tree.addRecursive key fresh initial = some added) :
    (tree.getLocksAddRecursive key r level).Predicts tree level
      (keepsRoot (addOperation key fresh initial)) added := by
  induction tree generalizing level added with
  | null =>
      obtain rfl := Option.some.inj isAdded
      exact ⟨rfl, nofun, fun nonempty => absurd rfl nonempty, nofun⟩
  | node address left right height nodeKey value leftIh rightIh =>
      obtain ⟨leftOrdered, rightOrdered, -, -⟩ := ordered_node.mp isAvl.ordered
      obtain ⟨leftOk, rightOk, isHeight⟩ := isAvl.heightsOk
      obtain ⟨leftBalanced, rightBalanced, lowBound, highBound⟩ := isAvl.balanced
      have operates : addOperation key fresh initial
          (node address left right height nodeKey value) =
          some (added.tree, added.r, added.rebalanced) := by
        rw [addOperation, isAdded, Option.map_some]
      have distinctKey : key ≠ nodeKey := fun same =>
        absent ⟨address, nodeKey, value⟩ (by simp) same.symm
      rw [getLocksAddRecursive, if_neg distinctKey]
      rcases lt_or_gt_of_ne distinctKey with before | after
      · rw [if_pos before]
        obtain ⟨addedLeft, isAddedLeft, adds⟩ :=
          addRecursive_balanced leftOrdered leftOk leftBalanced key fresh initial
        obtain ⟨_, isSame, -, addedOk, -⟩ :=
          addRecursive_spec leftOrdered leftOk key fresh initial
        obtain rfl := Option.some.inj (isAddedLeft.symm.trans isSame)
        have plan := leftIh isAvl.leftChild
          (fun entry member => absent entry (List.mem_append_left _ member)) (level + 1)
          isAddedLeft
        have grows := adds.height
        rw [addRecursive_of_lt before, isAddedLeft, Option.bind_some] at isAdded
        refine plan.above (addRecursive_height_nonneg isAvl.leftChild isAddedLeft) rfl ?_ ?_ ?_
        · intro imbalance
          rw [plan.retval_eq] at imbalance
          rcases balanceAddedLeft_cases isAvl.heightsOk isAvl.balanced addedOk adds with
            ⟨tooLarge, result, isResult, -, resultHeight⟩ | ⟨near, -⟩
          · rw [isResult, Option.map_some, Option.some.injEq] at isAdded
            rw [← isAdded, resultHeight]
          · omega
        · intro balance
          rw [plan.retval_eq] at balance ⊢
          rcases balanceAddedLeft_cases isAvl.heightsOk isAvl.balanced addedOk adds with
            ⟨tooLarge, -⟩ | ⟨near, isResult⟩
          · omega
          · rw [isResult, Option.map_some, Option.some.injEq] at isAdded
            refine ⟨by rw [← isAdded, height_node], fun sameHeight => inPlace_root operates ?_ ?_⟩
            · rw [← isAdded, rootAddress]
            · rw [← isAdded, height_node, sameHeight]
        · intro balance sameHeight pointer member inChild
          rw [plan.retval_eq] at balance sameHeight
          rcases balanceAddedLeft_cases isAvl.heightsOk isAvl.balanced addedOk adds with
            ⟨tooLarge, -⟩ | ⟨near, isResult⟩
          · omega
          · rw [isResult, Option.map_some, Option.some.injEq] at isAdded
            refine ⟨by simp [member], ?_⟩
            rw [inPlace_left isAvl.distinct member inChild, ← isAdded, ← sameHeight]
            simp only [Bool.or_false]
      · rw [if_neg after.not_gt]
        obtain ⟨addedRight, isAddedRight, adds⟩ :=
          addRecursive_balanced rightOrdered rightOk rightBalanced key fresh initial
        obtain ⟨_, isSame, -, addedOk, -⟩ :=
          addRecursive_spec rightOrdered rightOk key fresh initial
        obtain rfl := Option.some.inj (isAddedRight.symm.trans isSame)
        have plan := rightIh isAvl.rightChild
          (fun entry member =>
            absent entry (List.mem_append_right _ (List.mem_cons_of_mem _ member)))
          (level + 1) isAddedRight
        have grows := adds.height
        rw [addRecursive_of_gt after, isAddedRight, Option.bind_some] at isAdded
        refine plan.above (addRecursive_height_nonneg isAvl.rightChild isAddedRight) rfl ?_ ?_ ?_
        · intro imbalance
          rw [plan.retval_eq] at imbalance
          rcases balanceAddedRight_cases isAvl.heightsOk isAvl.balanced addedOk adds with
            ⟨tooLarge, result, isResult, -, resultHeight⟩ | ⟨near, -⟩
          · rw [isResult, Option.map_some, Option.some.injEq] at isAdded
            rw [← isAdded, resultHeight]
          · omega
        · intro balance
          rw [plan.retval_eq] at balance ⊢
          rcases balanceAddedRight_cases isAvl.heightsOk isAvl.balanced addedOk adds with
            ⟨tooLarge, -⟩ | ⟨near, isResult⟩
          · omega
          · rw [isResult, Option.map_some, Option.some.injEq] at isAdded
            refine ⟨by rw [← isAdded, height_node], fun sameHeight => inPlace_root operates ?_ ?_⟩
            · rw [← isAdded, rootAddress]
            · rw [← isAdded, height_node, sameHeight]
        · intro balance sameHeight pointer member inChild
          rw [plan.retval_eq] at balance sameHeight
          rcases balanceAddedRight_cases isAvl.heightsOk isAvl.balanced addedOk adds with
            ⟨tooLarge, -⟩ | ⟨near, isResult⟩
          · omega
          · rw [isResult, Option.map_some, Option.some.injEq] at isAdded
            refine ⟨by simp [member], ?_⟩
            rw [inPlace_right isAvl.distinct member inChild, ← isAdded, ← sameHeight]
            simp only [Bool.or_false]

/-- The scan has found the node of the key below `level`. -/
structure AddScan.Finds (scan : AddScan) (level pointer : Nat) : Prop where
  retval_eq : scan.retval = -1
  level_le : level ≤ scan.r
  curr_eq : scan.locks[scan.r - level]?.bind LockInfo.curr = some pointer

theorem AddScan.Finds.above {below : AddScan} {level pointer : Nat}
    (finds : below.Finds (level + 1) pointer) (address : Nat) (height lefth righth : Int) :
    (below.above address height lefth righth level).Finds level pointer := by
  obtain ⟨found, deeper, isPointer⟩ := finds
  rw [AddScan.above, if_pos found]
  refine ⟨found, Nat.le_of_succ_le deeper, ?_⟩
  have isDeeper : below.r - level = below.r - (level + 1) + 1 := by omega
  simp only [isDeeper, AddScan.locks, List.getElem?_cons_succ]
  exact isPointer

theorem getLocksAddRecursive_of_present {tree : TreeNode K V} (ordered : tree.Ordered)
    {pointer : Nat} (present : ⟨pointer, key, value⟩ ∈ tree.entries) (r level : Nat) :
    (tree.getLocksAddRecursive key r level).Finds level pointer := by
  induction tree generalizing level with
  | null => simp at present
  | node address left right height nodeKey nodeValue leftIh rightIh =>
      obtain ⟨leftOrdered, rightOrdered, below, above⟩ := ordered_node.mp ordered
      rw [getLocksAddRecursive]
      rcases List.mem_append.mp present with inLeft | inRest
      · have before : key < nodeKey := below _ inLeft
        rw [if_neg before.ne, if_pos before]
        exact (leftIh leftOrdered inLeft (level + 1)).above address height _ _
      · rcases List.mem_cons.mp inRest with isHere | inRight
        · simp only [TreeEntry.mk.injEq] at isHere
          obtain ⟨rfl, rfl, -⟩ := isHere
          rw [if_pos rfl]
          exact ⟨rfl, le_rfl, by simp [AddScan.locks]⟩
        · have after : nodeKey < key := above _ inRight
          rw [if_neg after.ne', if_neg after.not_gt]
          exact (rightIh rightOrdered inRight (level + 1)).above address height _ _

theorem add_of_whole {tree : TreeNode K V} {writeLocked : Bool}
    (isWhole : (tree.getLocksAdd key writeLocked).1 = 1) (fresh : Nat) (initial : V) :
    tree.add key fresh initial writeLocked = tree.addRecursive key fresh initial := by
  simp [add, isWhole]

theorem getLocksAdd_of_ne_one {tree : TreeNode K V} {writeLocked : Bool}
    (notWhole : (tree.getLocksAdd key writeLocked).1 ≠ 1) :
    tree ≠ null ∧ (tree.getLocksAddRecursive key 0 0).r ≠ 0 ∧
      tree.getLocksAdd key writeLocked = ((tree.getLocksAddRecursive key 0 0).retval,
        (tree.getLocksAddRecursive key 0 0).locks[
          (tree.getLocksAddRecursive key 0 0).r]?.bind LockInfo.curr) := by
  cases writeLocked with
  | true => cases tree <;> exact absurd rfl notWhole
  | false =>
      cases tree with
      | null => exact absurd rfl notWhole
      | node address left right height nodeKey value =>
          refine ⟨nofun, ?_⟩
          rw [getLocksAdd] at notWhole ⊢
          split_ifs at notWhole ⊢ with isTop
          · exact absurd rfl notWhole
          · exact ⟨isTop, rfl⟩
          all_goals nofun

/-- On a balanced search tree, `add` inserts the key and leaves such a tree, whatever the
transaction has locked before. -/
theorem add_spec {tree : TreeNode K V} (isAvl : tree.IsAvl) (key : K) {fresh : Nat}
    (unused : fresh ∉ tree.addresses) (initial : V) (writeLocked : Bool) :
    ∃ added, tree.add key fresh initial writeLocked = some added ∧ added.tree.IsAvl ∧
      added.tree.entries = insertBy TreeEntry.key ⟨fresh, key, initial⟩ tree.entries ∧
      ∃ value, ⟨added.r, key, value⟩ ∈ added.tree.entries := by
  obtain ⟨added, isAdded, spec⟩ := addRecursive_isAvl isAvl key unused initial
  by_cases isWhole : (tree.getLocksAdd key writeLocked).1 = 1
  · exact ⟨added, (add_of_whole isWhole fresh initial).trans isAdded, spec⟩
  · obtain ⟨nonempty, notTop, isPlan⟩ := getLocksAdd_of_ne_one isWhole
    by_cases present : ∃ entry ∈ tree.entries, entry.key = key
    · obtain ⟨⟨pointer, key, value⟩, member, rfl⟩ := present
      obtain ⟨found, -, isPointer⟩ :=
        getLocksAddRecursive_of_present isAvl.ordered member 0 0
      have sameEntries : insertBy TreeEntry.key ⟨fresh, key, initial⟩ tree.entries =
          tree.entries := insertBy_of_mem isAvl.ordered member rfl
      refine ⟨⟨tree, pointer, false⟩, ?_, isAvl, sameEntries.symm, value, member⟩
      rw [add, isPlan]
      simp only [found]
      rw [if_pos (by decide), ← Nat.sub_zero (AddScan.r _), isPointer, Option.map_some]
    · have absent : ∀ entry ∈ tree.entries, entry.key ≠ key := fun entry member same =>
        present ⟨entry, member, same⟩
      have plan := getLocksAddRecursive_predicts isAvl absent fresh initial 0 0 isAdded
      have unchanged : (tree.getLocksAddRecursive key 0 0).here.changed = false := by
        by_contra changed
        exact notTop (plan.r_of_changed nonempty (by simpa using changed))
      obtain ⟨-, pointer, isPointer, -, inPlace⟩ := plan.inPlace_of_unchanged unchanged
      have notNegative := addRecursive_height_nonneg isAvl isAdded
      refine ⟨added, ?_, spec⟩
      rw [isPlan] at isWhole
      rw [add, isPlan]
      dsimp only
      rw [if_neg (by rw [plan.retval_eq]; omega), if_neg isWhole,
        ← Nat.sub_zero (AddScan.r _), isPointer, Option.bind_some, inPlace_of_keepsRoot inPlace,
        Option.map_some]

/-! ## The plan of a deletion is right -/

/-- What the scan predicts about the deletion of a key, where the scan has reached `level`. -/
structure RemoveScan.Predicts (scan : RemoveScan K V) (tree : TreeNode K V) (level : Nat)
    (key : K) (removed : Removed K V) : Prop where
  myht_eq : scan.here.myht = removed.tree.height
  height_eq : scan.here.htChange = false → removed.tree.height = tree.height
  change : level ≤ scan.r ∧ ∃ pointer ∈ tree.addresses,
    scan.locks[scan.r - level]?.bind LockInfo.curr = some pointer
  near_of_changed : scan.here.ptrChangeForParent = true →
    ∃ i ≤ 1, scan.locks.findIdx? LockInfo.changed = some i
  inPlace_of_kept : scan.here.ptrChangeForParent = false →
    ∃ i, scan.locks.findIdx? LockInfo.changed = some i ∧ ∀ j < i,
      ∃ pointer ∈ tree.addresses, scan.locks[j]?.bind LockInfo.curr = some pointer ∧
        scan.locks[scan.r - level]?.bind LockInfo.curr ≠ some pointer ∧
        tree.inPlace pointer (keepsRoot (removeOperation key)) =
          some (removed.tree, removed.rebalanced)

/-- What the scan says also about a tree that is not balanced. -/
structure RemoveScan.Foretells (scan : RemoveScan K V) (tree : TreeNode K V) (level : Nat)
    (key : K) (removed : Removed K V) : Prop where
  myht_eq : scan.here.myht = removed.tree.height
  height_eq : scan.here.htChange = false → removed.tree.height = tree.height
  change : level ≤ scan.r ∧ ∃ pointer ∈ tree.addresses,
    scan.locks[scan.r - level]?.bind LockInfo.curr = some pointer
  near_of_changed : tree.Balanced → scan.here.ptrChangeForParent = true →
    ∃ i ≤ 1, scan.locks.findIdx? LockInfo.changed = some i
  inPlace_of_kept : scan.here.ptrChangeForParent = false →
    ∃ i, scan.locks.findIdx? LockInfo.changed = some i ∧ ∀ j < i,
      ∃ pointer ∈ tree.addresses, scan.locks[j]?.bind LockInfo.curr = some pointer ∧
        scan.locks[scan.r - level]?.bind LockInfo.curr ≠ some pointer ∧
        tree.inPlace pointer (keepsRoot (removeOperation key)) =
          some (removed.tree, removed.rebalanced)
  erases_of_rotated : scan.here.ptrChangeForParent = true →
    ∃ i, scan.locks.findIdx? LockInfo.changed = some i ∧ ∀ j < i, 0 < j →
      ∃ pointer ∈ tree.addresses, scan.locks[j]?.bind LockInfo.curr = some pointer ∧
        scan.locks[scan.r - level]?.bind LockInfo.curr ≠ some pointer ∧
        ∃ changed rebalanced,
          tree.inPlace pointer (keepsRoot (removeOperation key)) = some (changed, rebalanced) ∧
            changed.toList = eraseBy Prod.fst key tree.toList

theorem RemoveScan.Foretells.predicts {scan : RemoveScan K V} {tree : TreeNode K V} {level : Nat}
    {removed : Removed K V} (foretells : scan.Foretells tree level key removed)
    (balanced : tree.Balanced) : scan.Predicts tree level key removed where
  myht_eq := foretells.myht_eq
  height_eq := foretells.height_eq
  change := foretells.change
  near_of_changed := foretells.near_of_changed balanced
  inPlace_of_kept := foretells.inPlace_of_kept

/-- The scan of a node after the scan of the child on the search path. -/
theorem RemoveScan.Foretells.above {tree child sibling : TreeNode K V} {level : Nat}
    {below : RemoveScan K V} {removedChild removed : Removed K V}
    (plan : below.Foretells child (level + 1) key removedChild)
    (isRoot : tree.rootAddress = some address) (isHeight : tree.height = height)
    (notBelow : address ∉ child.addresses)
    (inTree : ∀ pointer ∈ child.addresses, pointer ∈ tree.addresses)
    (near : tree.Balanced → sibling.height - child.height ≠ 2)
    (rotates : sibling.height - removedChild.tree.height = 2 →
      removed.tree.height = if sibling.EvenChildren then height else height - 1)
    (keeps : sibling.height - removedChild.tree.height ≠ 2 →
      removed.tree.height = max sibling.height removedChild.tree.height + 1 ∧
        (height = max sibling.height removedChild.tree.height + 1 →
          tree.inPlace address (keepsRoot (removeOperation key)) =
            some (removed.tree, removed.rebalanced)))
    (lifts : ∀ pointer ∈ child.addresses,
      child.inPlace pointer (keepsRoot (removeOperation key)) =
        some (removedChild.tree, removedChild.rebalanced) →
      ∃ changed, tree.inPlace pointer (keepsRoot (removeOperation key)) =
          some (changed, removedChild.rebalanced) ∧
        changed.toList = eraseBy Prod.fst key tree.toList ∧
        (sibling.height - removedChild.tree.height ≠ 2 →
          height = max sibling.height removedChild.tree.height + 1 →
          changed = removed.tree ∧ removedChild.rebalanced = removed.rebalanced)) :
    (below.above address height false sibling below.r).Foretells tree level key removed := by
  rw [← plan.myht_eq] at rotates keeps lifts
  obtain ⟨deeper, changePointer, changeMember, isChange⟩ := plan.change
  have isDeeper : below.r - level = below.r - (level + 1) + 1 := by omega
  have change : (below.above address height false sibling below.r).locks[
      (below.above address height false sibling below.r).r - level]?.bind LockInfo.curr =
        some changePointer := by
    rw [RemoveScan.above, isDeeper, RemoveScan.locks, List.getElem?_cons_succ]
    exact isChange
  have myht : (below.here.aboveRemoval address height false sibling).myht =
      removed.tree.height := by
    by_cases tooLarge : sibling.height - below.here.myht = 2
    · exact (LockInfo.aboveRemoval_of_tooLarge tooLarge).1.trans (rotates tooLarge).symm
    · exact (LockInfo.aboveRemoval_of_near tooLarge).1.trans (keeps tooLarge).1.symm
  have tooLarge_of_rotated :
      (below.above address height false sibling below.r).here.ptrChangeForParent = true →
        sibling.height - below.here.myht = 2 := by
    intro rotated
    by_contra near
    rw [RemoveScan.above, (LockInfo.aboveRemoval_of_near near).2] at rotated
    exact absurd rotated (by decide)
  -- below a node that does not change, the child is not rotated
  have below_of_unchanged :
      (below.here.aboveRemoval address height false sibling).changed ≠ true →
        removed.tree.height = height ∧ ∃ i,
          below.locks.findIdx? LockInfo.changed = some i ∧ ∀ j < i,
            ∃ pointer ∈ child.addresses, below.locks[j]?.bind LockInfo.curr = some pointer ∧
              pointer ≠ changePointer ∧
              child.inPlace pointer (keepsRoot (removeOperation key)) =
                some (removedChild.tree, removedChild.rebalanced) := by
    intro unchanged
    obtain ⟨sameHeight, samePointer⟩ :=
      LockInfo.aboveRemoval_unchanged (by simpa using unchanged)
    refine ⟨by rw [sameHeight, myht], ?_⟩
    obtain ⟨i, isFirst, inPlace⟩ := plan.inPlace_of_kept samePointer
    refine ⟨i, isFirst, fun j isLess => ?_⟩
    obtain ⟨pointer, member, isPointer, notChange, inChild⟩ := inPlace j isLess
    rw [isChange] at notChange
    exact ⟨pointer, member, isPointer, fun same => notChange (congrArg some same.symm), inChild⟩
  refine ⟨myht, fun same => ?_, ⟨Nat.le_of_succ_le deeper, changePointer,
    inTree changePointer changeMember, change⟩, fun balanced rotated => ?_, fun kept => ?_,
    fun rotated => ?_⟩
  · rw [isHeight, ← myht]
    exact (LockInfo.aboveRemoval_height same).symm
  · -- the child has shrunk below a sibling that was higher already
    have tooLarge := tooLarge_of_rotated rotated
    have childChanged : below.here.changed = true := by
      by_contra unchanged
      simp only [LockInfo.changed, Bool.or_eq_true, not_or, Bool.not_eq_true] at unchanged
      rw [plan.myht_eq, plan.height_eq unchanged.1] at tooLarge
      exact near balanced tooLarge
    rw [RemoveScan.above, RemoveScan.locks, List.findIdx?_cons]
    split
    · exact ⟨0, zero_le_one, rfl⟩
    · exact ⟨1, le_rfl, by simp [RemoveScan.locks, List.findIdx?_cons, childChanged]⟩
  · have near : sibling.height - below.here.myht ≠ 2 := by
      intro tooLarge
      rw [RemoveScan.above, (LockInfo.aboveRemoval_of_tooLarge tooLarge).2] at kept
      exact absurd kept (by decide)
    obtain ⟨resultHeight, atRoot⟩ := keeps near
    rw [change, RemoveScan.above, RemoveScan.locks, List.findIdx?_cons]
    split
    · exact ⟨0, rfl, fun j isLess => absurd isLess (Nat.not_lt_zero j)⟩
    · rename_i unchanged
      obtain ⟨sameHeight, i, isFirst, inPlace⟩ := below_of_unchanged unchanged
      rw [resultHeight] at sameHeight
      refine ⟨i + 1, by rw [isFirst, Option.map_some], fun j isLess => ?_⟩
      cases j with
      | zero =>
          refine ⟨address, mem_addresses_of_rootAddress isRoot, rfl, ?_, atRoot sameHeight.symm⟩
          rintro isSame
          exact notBelow (Option.some.inj isSame ▸ changeMember)
      | succ j =>
          obtain ⟨pointer, member, isPointer, notChange, inChild⟩ :=
            inPlace j (Nat.lt_of_succ_lt_succ isLess)
          obtain ⟨changed, isChanged, -, same⟩ := lifts pointer member inChild
          obtain ⟨rfl, sameRebalanced⟩ := same near sameHeight.symm
          rw [sameRebalanced] at isChanged
          exact ⟨pointer, inTree pointer member, isPointer,
            fun isSame => notChange (Option.some.inj isSame).symm, isChanged⟩
  · rw [change, RemoveScan.above, RemoveScan.locks, List.findIdx?_cons]
    split
    · exact ⟨0, rfl, fun j isLess => absurd isLess (Nat.not_lt_zero j)⟩
    · rename_i unchanged
      obtain ⟨-, i, isFirst, inPlace⟩ := below_of_unchanged unchanged
      refine ⟨i + 1, by rw [isFirst, Option.map_some], fun j isLess isBelow => ?_⟩
      obtain ⟨j, rfl⟩ := Nat.exists_eq_succ_of_ne_zero isBelow.ne'
      obtain ⟨pointer, member, isPointer, notChange, inChild⟩ :=
        inPlace j (Nat.lt_of_succ_lt_succ isLess)
      obtain ⟨changed, isChanged, erased, -⟩ := lifts pointer member inChild
      exact ⟨pointer, inTree pointer member, isPointer,
        fun isSame => notChange (Option.some.inj isSame).symm, changed,
        removedChild.rebalanced, isChanged, erased⟩

theorem getLocksRemoveRecursive_of_lt (before : key < nodeKey)
    (toDelete : Option (TreeEntry K V)) (level : Nat) :
    (node address left right height nodeKey value).getLocksRemoveRecursive key toDelete level =
      (left.getLocksRemoveRecursive key toDelete (level + 1)).map fun below =>
        below.above address height false right below.r :=
  (if_neg before.not_gt).trans (if_neg before.ne)

theorem getLocksRemoveRecursive_of_gt (after : nodeKey < key)
    (toDelete : Option (TreeEntry K V)) (level : Nat) :
    (node address left right height nodeKey value).getLocksRemoveRecursive key toDelete level =
      (right.getLocksRemoveRecursive key toDelete (level + 1)).map fun below =>
        below.above address height false left below.r :=
  if_pos after

theorem getLocksRemoveRecursive_of_child {temp : TreeNode K V}
    (isTemp : left = null ∧ temp = right ∨ right = null ∧ temp = left) (address : Nat)
    (height : Int) (key : K) (value : V) (toDelete : Option (TreeEntry K V)) (level : Nat) :
    (node address left right height key value).getLocksRemoveRecursive key toDelete level =
      some ⟨⟨some address, temp.height, true, true, true⟩, [], toDelete, level⟩ := by
  rcases isTemp with ⟨rfl, rfl⟩ | ⟨rfl, rfl⟩
  · exact (if_neg (lt_irrefl key)).trans (if_pos rfl)
  · cases temp with
    | null => exact (if_neg (lt_irrefl key)).trans (if_pos rfl)
    | node _ _ _ _ _ _ => exact (if_neg (lt_irrefl key)).trans (if_pos rfl)

theorem getLocksRemoveRecursive_of_children (toDelete : Option (TreeEntry K V)) (level : Nat)
    (leftNonempty : left ≠ null) (rightNonempty : right ≠ null) :
    (node address left right height key value).getLocksRemoveRecursive key toDelete level =
      left.findMax.bind fun toReplace =>
        (left.getLocksRemoveRecursive toReplace.key (some toReplace) (level + 1)).map
          fun below => below.above address height true right level := by
  cases left with
  | null => exact absurd rfl leftNonempty
  | node _ _ _ _ _ _ =>
      cases right with
      | null => exact absurd rfl rightNonempty
      | node _ _ _ _ _ _ => exact (if_neg (lt_irrefl key)).trans (if_pos rfl)

theorem getLocksRemoveRecursive_foretells {tree : TreeNode K V} (ordered : tree.Ordered)
    (ok : tree.HeightsOk) (distinct : tree.addresses.Nodup)
    (present : ∃ entry ∈ tree.entries, entry.key = key) (toDelete : Option (TreeEntry K V))
    (level : Nat) {removed : Removed K V}
    (isRemoved : tree.removeRecursive key = some removed) :
    ∃ scan, tree.getLocksRemoveRecursive key toDelete level = some scan ∧
      scan.Foretells tree level key removed := by
  induction tree generalizing key toDelete level removed with
  | null => simp at present
  | node address left right height nodeKey value leftIh rightIh =>
      have sorted := ordered_iff_toList.mp ordered
      obtain ⟨leftOrdered, rightOrdered, below, above⟩ := ordered_node.mp ordered
      obtain ⟨leftOk, rightOk, isHeight⟩ := id ok
      have operates : removeOperation key (node address left right height nodeKey value) =
          some (removed.tree, removed.rebalanced) := by
        rw [removeOperation, isRemoved, Option.map_some]
      obtain ⟨leftDistinct, rightDistinct, notLeft, notRight⟩ : left.addresses.Nodup ∧
          right.addresses.Nodup ∧ address ∉ left.addresses ∧ address ∉ right.addresses := by
        have nodup := distinct
        rw [addresses_node, List.nodup_middle, List.nodup_cons, List.mem_append, not_or,
          List.nodup_append] at nodup
        exact ⟨nodup.2.1, nodup.2.2.1, nodup.1⟩
      rcases lt_trichotomy key nodeKey with before | rfl | after
      · have inLeft : ∃ entry ∈ left.entries, entry.key = key := by
          obtain ⟨entry, member, rfl⟩ := present
          rcases List.mem_append.mp member with inLeft | inRest
          · exact ⟨entry, inLeft, rfl⟩
          · rcases List.mem_cons.mp inRest with rfl | inRight
            · exact absurd before (lt_irrefl _)
            · exact absurd before (above entry inRight).not_gt
        obtain ⟨removedLeft, isRemovedLeft, deletes⟩ :=
          removeRecursive_spec leftOrdered leftOk key
        have bounds := removeRecursive_height_bounds leftOrdered leftOk key isRemovedLeft
        obtain ⟨scan, isScan, plan⟩ := leftIh leftOrdered leftOk leftDistinct inLeft toDelete
          (level + 1) isRemovedLeft
        rw [removeRecursive_of_lt before, isRemovedLeft, Option.bind_some] at isRemoved
        rw [getLocksRemoveRecursive_of_lt before, isScan, Option.map_some]
        have erased : (node address removedLeft.tree right height nodeKey value).toList =
            eraseBy Prod.fst key (node address left right height nodeKey value).toList := by
          rw [toList_node, toList_node, deletes.toList_eq]
          rw [toList_node] at sorted
          exact (eraseBy_append_of_lt sorted before).symm
        have near : (node address left right height nodeKey value).Balanced →
            right.height - left.height ≠ 2 := by
          rintro ⟨-, -, lowBound, highBound⟩
          omega
        refine ⟨_, rfl, ?_⟩
        rcases balanceRemovedLeft_cases ok deletes.heightsOk bounds nodeKey value with
          ⟨tooLarge, result, isResult, resultHeight⟩ | ⟨notLarge, isResult⟩
        · rw [isResult, Option.map_some, Option.some.injEq] at isRemoved
          apply plan.above rfl (height_node ..) notLeft (by simp +contextual) near
          · intro _
            rw [← isRemoved, resultHeight]
          · exact fun notLarge => absurd tooLarge notLarge
          · exact fun pointer member inChild => ⟨_, inPlace_left distinct member inChild, erased,
              fun notLarge => absurd tooLarge notLarge⟩
        · rw [isResult, Option.map_some, Option.some.injEq] at isRemoved
          apply plan.above rfl (height_node ..) notLeft (by simp +contextual) near
          · exact fun tooLarge => absurd tooLarge notLarge
          · intro _
            refine ⟨by rw [← isRemoved, height_node], fun sameHeight => ?_⟩
            exact inPlace_root operates (by rw [← isRemoved, rootAddress])
              (by rw [← isRemoved, height_node, sameHeight])
          · refine fun pointer member inChild => ⟨_, inPlace_left distinct member inChild, erased,
              fun _ sameHeight => ?_⟩
            rw [← isRemoved, ← sameHeight]
            exact ⟨rfl, (Bool.or_false _).symm⟩
      · by_cases child : left = null ∨ right = null
        · obtain ⟨temp, isRemovedTemp, isTemp⟩ :=
            removeRecursive_of_child address height key value child
          rw [getLocksRemoveRecursive_of_child isTemp]
          obtain rfl := Option.some.inj (isRemovedTemp.symm.trans isRemoved)
          refine ⟨_, rfl, rfl, nofun, ⟨le_rfl, address, by simp, ?_⟩, fun _ _ => ?_, nofun,
            fun _ => ⟨0, rfl, fun j isLess => absurd isLess (Nat.not_lt_zero j)⟩⟩
          · simp [RemoveScan.locks]
          · exact ⟨0, zero_le_one, rfl⟩
        · obtain ⟨leftNonempty, rightNonempty⟩ := not_or.mp child
          obtain ⟨last, front, isLast, leftEntries⟩ := findMax_spec leftNonempty
          have lastMember : ∃ entry ∈ left.entries, entry.key = last.key :=
            ⟨last, by simp [leftEntries], rfl⟩
          obtain ⟨removedLeft, isRemovedLeft, deletes⟩ :=
            removeRecursive_spec leftOrdered leftOk last.key
          have bounds := removeRecursive_height_bounds leftOrdered leftOk last.key isRemovedLeft
          obtain ⟨scan, isScan, plan⟩ := leftIh leftOrdered leftOk leftDistinct lastMember
            (some last) (level + 1) isRemovedLeft
          rw [removeRecursive_of_children address height key value leftNonempty rightNonempty,
            isLast, Option.bind_some, isRemovedLeft, Option.bind_some] at isRemoved
          rw [getLocksRemoveRecursive_of_children toDelete level leftNonempty rightNonempty,
            isLast, Option.bind_some, isScan, Option.map_some]
          refine ⟨_, rfl, ?_⟩
          -- the node itself is going to change: nothing below it can be locked instead
          have changed :
              (scan.above address height true right level).here.changed = true := by
            simp [RemoveScan.above, LockInfo.changed, LockInfo.aboveRemoval]
          have isFirst : (scan.above address height true right level).locks.findIdx?
              LockInfo.changed = some 0 := by
            rw [RemoveScan.locks, List.findIdx?_cons, if_pos changed]
          have myht : (scan.above address height true right level).here.myht =
              removed.tree.height := by
            rw [RemoveScan.above]
            rcases balanceRemovedLeft_cases ok deletes.heightsOk bounds last.key last.value with
              ⟨tooLarge, result, isResult, resultHeight⟩ | ⟨notLarge, isResult⟩
            · rw [isResult, Option.map_some, Option.some.injEq] at isRemoved
              rw [← plan.myht_eq] at tooLarge
              rw [(LockInfo.aboveRemoval_of_tooLarge tooLarge).1, ← isRemoved, resultHeight]
            · rw [isResult, Option.map_some, Option.some.injEq] at isRemoved
              rw [← plan.myht_eq] at notLarge
              rw [(LockInfo.aboveRemoval_of_near notLarge).1, ← isRemoved, height_node,
                plan.myht_eq]
          refine ⟨myht, fun same => ?_, ⟨le_rfl, address, by simp, ?_⟩,
            fun _ _ => ⟨0, zero_le_one, isFirst⟩,
            fun _ => ⟨0, isFirst, fun j isLess => absurd isLess (Nat.not_lt_zero j)⟩,
            fun _ => ⟨0, isFirst, fun j isLess => absurd isLess (Nat.not_lt_zero j)⟩⟩
          · rw [← myht, height_node]
            exact (LockInfo.aboveRemoval_height same).symm
          · simp [RemoveScan.above, RemoveScan.locks, LockInfo.aboveRemoval]
      · have inRight : ∃ entry ∈ right.entries, entry.key = key := by
          obtain ⟨entry, member, rfl⟩ := present
          rcases List.mem_append.mp member with inLeft | inRest
          · exact absurd after (below entry inLeft).not_gt
          · rcases List.mem_cons.mp inRest with rfl | inRight
            · exact absurd after (lt_irrefl _)
            · exact ⟨entry, inRight, rfl⟩
        obtain ⟨removedRight, isRemovedRight, deletes⟩ :=
          removeRecursive_spec rightOrdered rightOk key
        have bounds := removeRecursive_height_bounds rightOrdered rightOk key isRemovedRight
        obtain ⟨scan, isScan, plan⟩ := rightIh rightOrdered rightOk rightDistinct inRight toDelete
          (level + 1) isRemovedRight
        rw [removeRecursive_of_gt after, isRemovedRight, Option.bind_some] at isRemoved
        rw [getLocksRemoveRecursive_of_gt after, isScan, Option.map_some]
        have erased : (node address left removedRight.tree height nodeKey value).toList =
            eraseBy Prod.fst key (node address left right height nodeKey value).toList := by
          rw [toList_node, toList_node, deletes.toList_eq]
          rw [toList_node] at sorted
          exact (eraseBy_append_of_gt sorted after).symm
        have near : (node address left right height nodeKey value).Balanced →
            left.height - right.height ≠ 2 := by
          rintro ⟨-, -, lowBound, highBound⟩
          omega
        refine ⟨_, rfl, ?_⟩
        rcases balanceRemovedRight_cases ok deletes.heightsOk bounds with
          ⟨tooLarge, result, isResult, resultHeight⟩ | ⟨notLarge, isResult⟩
        · rw [isResult, Option.map_some, Option.some.injEq] at isRemoved
          apply plan.above rfl (height_node ..) notRight (by simp +contextual) near
          · intro _
            rw [← isRemoved, resultHeight]
          · exact fun notLarge => absurd tooLarge notLarge
          · exact fun pointer member inChild => ⟨_, inPlace_right distinct member inChild, erased,
              fun notLarge => absurd tooLarge notLarge⟩
        · rw [isResult, Option.map_some, Option.some.injEq] at isRemoved
          apply plan.above rfl (height_node ..) notRight (by simp +contextual) near
          · exact fun tooLarge => absurd tooLarge notLarge
          · intro _
            refine ⟨by rw [← isRemoved, height_node], fun sameHeight => ?_⟩
            exact inPlace_root operates (by rw [← isRemoved, rootAddress])
              (by rw [← isRemoved, height_node, sameHeight])
          · refine fun pointer member inChild => ⟨_, inPlace_right distinct member inChild, erased,
              fun _ sameHeight => ?_⟩
            rw [← isRemoved, ← sameHeight]
            exact ⟨rfl, (Bool.or_false _).symm⟩

theorem getLocksRemoveRecursive_predicts {tree : TreeNode K V} (isAvl : tree.IsAvl)
    (present : ∃ entry ∈ tree.entries, entry.key = key) (toDelete : Option (TreeEntry K V))
    (level : Nat) {removed : Removed K V}
    (isRemoved : tree.removeRecursive key = some removed) :
    ∃ scan, tree.getLocksRemoveRecursive key toDelete level = some scan ∧
      scan.Predicts tree level key removed := by
  obtain ⟨scan, isScan, foretells⟩ := getLocksRemoveRecursive_foretells isAvl.ordered
    isAvl.heightsOk isAvl.distinct present toDelete level isRemoved
  exact ⟨scan, isScan, foretells.predicts isAvl.balanced⟩

theorem getLocksRemoveRecursive_of_absent {tree : TreeNode K V} (ordered : tree.Ordered)
    (absent : ∀ entry ∈ tree.entries, entry.key ≠ key) (toDelete : Option (TreeEntry K V))
    (level : Nat) : tree.getLocksRemoveRecursive key toDelete level = none := by
  induction tree generalizing level with
  | null => rfl
  | node address left right height nodeKey value leftIh rightIh =>
      obtain ⟨leftOrdered, rightOrdered, -, -⟩ := ordered_node.mp ordered
      have distinctKey : key ≠ nodeKey := fun same =>
        absent ⟨address, nodeKey, value⟩ (by simp) same.symm
      rcases lt_or_gt_of_ne distinctKey with before | after
      · rw [getLocksRemoveRecursive_of_lt before, leftIh leftOrdered
          (fun entry member => absent entry (by simp [member])), Option.map_none]
      · rw [getLocksRemoveRecursive_of_gt after, rightIh rightOrdered
          (fun entry member => absent entry (by simp [member])), Option.map_none]

/-- The deletion of an absent key from a balanced tree changes nothing. -/
theorem removeRecursive_of_absent {tree : TreeNode K V} (isAvl : tree.IsAvl)
    (absent : ∀ entry ∈ tree.entries, entry.key ≠ key) :
    tree.removeRecursive key = some ⟨tree, none, false⟩ := by
  induction tree with
  | null => rfl
  | node address left right height nodeKey value leftIh rightIh =>
      have distinctKey : key ≠ nodeKey := fun same =>
        absent ⟨address, nodeKey, value⟩ (by simp) same.symm
      obtain ⟨-, -, isHeight⟩ := isAvl.heightsOk
      obtain ⟨-, -, lowBound, highBound⟩ := isAvl.balanced
      have notRight : left.height - right.height ≠ -2 := by omega
      have notLeft : left.height - right.height ≠ 2 := by omega
      rcases lt_or_gt_of_ne distinctKey with before | after
      · rw [removeRecursive_of_lt before, leftIh isAvl.leftChild
          (fun entry member => absent entry (by simp [member])), Option.bind_some,
          balanceRemovedLeft_of_ne notRight, Option.map_some, ← isHeight]
        rfl
      · rw [removeRecursive_of_gt after, rightIh isAvl.rightChild
          (fun entry member => absent entry (by simp [member])), Option.bind_some,
          balanceRemovedRight_of_ne notLeft, Option.map_some, ← isHeight]
        rfl

theorem remove_of_whole {tree : TreeNode K V} {writeLocked : Bool} {plan : RemovePlan K V}
    (isPlan : tree.getLocksRemove key writeLocked = some plan)
    (atRoot : plan.toLock = tree.rootAddress) :
    tree.remove key writeLocked =
      (tree.removeRecursive key).map fun removed => ⟨0, removed.tree, removed.rebalanced⟩ := by
  simp only [remove, isPlan, if_pos atRoot]

theorem getLocksRemove_of_nonempty {tree : TreeNode K V} (nonempty : tree ≠ null) (key : K) :
    tree.getLocksRemove key false =
      (tree.getLocksRemoveRecursive key none 0).map fun scan =>
        ⟨(scan.locks.findIdx? LockInfo.changed).bind fun i =>
            if i ≤ 2 then tree.rootAddress else scan.locks[i - 2]?.bind LockInfo.curr,
          scan.toDelete,
          scan.toDelete.bind fun _ => scan.locks[scan.r]?.bind LockInfo.curr⟩ := by
  cases tree with
  | null => exact absurd rfl nonempty
  | node _ _ _ _ _ _ => rfl

theorem remove_of_inPlace {tree : TreeNode K V} {plan : RemovePlan K V}
    (isPlan : tree.getLocksRemove key false = some plan)
    (below : plan.toLock ≠ tree.rootAddress) {pointer : Nat} (toLock : plan.toLock = some pointer)
    (notChange : plan.toChange ≠ some pointer) {changed : TreeNode K V} {rebalanced : Bool}
    (inPlace : tree.inPlace pointer (removeOperation key) = some (changed, rebalanced)) :
    tree.remove key false = some ⟨0, changed, rebalanced⟩ := by
  simp only [remove, isPlan]
  rw [if_neg below, toLock, Option.bind_some]
  cases plan.toDelete with
  | none => simp only [inPlace, Option.map_some]
  | some toDelete => simp only [if_neg notChange, inPlace, Option.map_some]

/-- The node that a plan selects below the root. -/
theorem RemoveScan.Predicts.inPlace_of_below {tree : TreeNode K V} {removed : Removed K V}
    {scan : RemoveScan K V} (predicts : scan.Predicts tree 0 key removed) {toLock : Option Nat}
    (isLock : ((scan.locks.findIdx? LockInfo.changed).bind fun i =>
      if i ≤ 2 then tree.rootAddress else scan.locks[i - 2]?.bind LockInfo.curr) = toLock)
    (below : toLock ≠ tree.rootAddress) :
    ∃ pointer, toLock = some pointer ∧ scan.locks[scan.r]?.bind LockInfo.curr ≠ some pointer ∧
      tree.inPlace pointer (keepsRoot (removeOperation key)) =
        some (removed.tree, removed.rebalanced) := by
  have far : ∀ i, scan.locks.findIdx? LockInfo.changed = some i → 2 < i := by
    intro i isFirst
    by_contra near
    rw [isFirst, Option.bind_some, if_pos (not_lt.mp near)] at isLock
    exact below isLock.symm
  have kept : scan.here.ptrChangeForParent = false := by
    by_contra rotated
    obtain ⟨i, near, isFirst⟩ := predicts.near_of_changed (by simpa using rotated)
    have := far i isFirst
    omega
  obtain ⟨i, isFirst, above⟩ := predicts.inPlace_of_kept kept
  have isFar := far i isFirst
  obtain ⟨pointer, -, isPointer, notChange, inPlace⟩ := above (i - 2) (by omega)
  refine ⟨pointer, ?_, notChange, inPlace⟩
  rw [← isLock, isFirst, Option.bind_some, if_neg (not_le.mpr isFar), isPointer]

theorem remove_of_scan {tree : TreeNode K V} (nonempty : tree ≠ null) {removed : Removed K V}
    (isRemoved : tree.removeRecursive key = some removed) {scan : RemoveScan K V}
    (isScan : tree.getLocksRemoveRecursive key none 0 = some scan)
    (predicts : scan.Predicts tree 0 key removed) :
    tree.remove key false = some ⟨0, removed.tree, removed.rebalanced⟩ := by
  have isPlan := getLocksRemove_of_nonempty nonempty key
  rw [isScan, Option.map_some] at isPlan
  generalize isFields : RemovePlan.mk _ _ _ = plan at isPlan
  have toLock := congrArg RemovePlan.toLock isFields
  have toChange := congrArg RemovePlan.toChange isFields
  dsimp only at toLock toChange
  by_cases atRoot : plan.toLock = tree.rootAddress
  · rw [remove_of_whole isPlan atRoot, isRemoved, Option.map_some]
  · obtain ⟨pointer, isLock, notChange, inPlace⟩ := predicts.inPlace_of_below toLock atRoot
    have isNotChange : plan.toChange ≠ some pointer := by
      rw [← toChange]
      cases scan.toDelete with
      | none => exact (Option.some_ne_none pointer).symm
      | some toDelete => exact notChange
    exact remove_of_inPlace isPlan atRoot isLock isNotChange (inPlace_of_keepsRoot inPlace)

/-- On a balanced search tree, `remove` does what `remove_recursive` does at the root. -/
theorem remove_eq {tree : TreeNode K V} (isAvl : tree.IsAvl) (key : K) (writeLocked : Bool)
    {removed : Removed K V} (isRemoved : tree.removeRecursive key = some removed) :
    ∃ retval, tree.remove key writeLocked =
      some ⟨retval, removed.tree, removed.rebalanced⟩ := by
  cases tree with
  | null =>
      obtain rfl := Option.some.inj isRemoved
      exact ⟨-1, by cases writeLocked <;> rfl⟩
  | node address left right height nodeKey value =>
      have nonempty : node address left right height nodeKey value ≠ null := by simp
      cases writeLocked with
      | true =>
          refine ⟨0, ?_⟩
          rw [remove_of_whole rfl rfl, isRemoved, Option.map_some]
      | false =>
          by_cases present : ∃ entry ∈ (node address left right height nodeKey value).entries,
              entry.key = key
          · obtain ⟨scan, isScan, predicts⟩ :=
              getLocksRemoveRecursive_predicts isAvl present none 0 isRemoved
            exact ⟨0, remove_of_scan nonempty isRemoved isScan predicts⟩
          · have absent : ∀ entry ∈ (node address left right height nodeKey value).entries,
                entry.key ≠ key := fun entry member same => present ⟨entry, member, same⟩
            have unchanged := removeRecursive_of_absent isAvl absent
            obtain rfl := Option.some.inj (unchanged.symm.trans isRemoved)
            refine ⟨-1, ?_⟩
            rw [remove, getLocksRemove_of_nonempty nonempty,
              getLocksRemoveRecursive_of_absent isAvl.ordered absent, Option.map_none]

end Plans

end TreeNode

end Pmgd
