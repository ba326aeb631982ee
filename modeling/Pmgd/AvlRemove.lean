import Pmgd.AvlLocks
import Pmgd.TransactionLocks

/-!
# What `AvlTree::remove` returns

`get_locks_remove` searches for the key only if `acquire_lock` reports no write lock that the
transaction has already, on the stripe of the tree object or on that of the root.
-/

namespace Pmgd

open SortedInsert

namespace TransactionLocks

/-- What `acquire_lock` returns when it gets the lock, and the map after it. -/
def acquire (mylocks : LockStatusMap) (stripe : Nat) (write : Bool) :
    LockState × LockStatusMap :=
  match mylocks.lookup stripe with
  | some status =>
      if write = true ∧ status ≠ .writeLock then
        (.readLock, setStatus mylocks stripe .writeLock)
      else
        (status, mylocks)
  | none => (.lockNotFound, (stripe, if write then .writeLock else .readLock) :: mylocks)

theorem acquire_eq_writeLock_iff {mylocks : LockStatusMap} {stripe : Nat} :
    (acquire mylocks stripe false).1 = .writeLock ↔
      mylocks.lookup stripe = some .writeLock := by
  unfold acquire
  cases mylocks.lookup stripe with
  | none => simp
  | some status => simp

theorem lookup_acquire_eq_writeLock_iff {mylocks : LockStatusMap} {stripe other : Nat} :
    (acquire mylocks stripe false).2.lookup other = some .writeLock ↔
      mylocks.lookup other = some .writeLock := by
  unfold acquire
  cases isStatus : mylocks.lookup stripe with
  | some status => simp
  | none =>
      by_cases same : other = stripe
      · rw [same, isStatus]
        simp
      · rw [lookup_cons_of_ne same]

end TransactionLocks

open TransactionLocks

namespace TreeNode

variable {K V : Type*}

/-- The transaction has write locked the stripe of the tree object, or that of the root. -/
def WriteLockedAtTop (tree : TreeNode K V) (lock : StripedLock) (object : Nat)
    (mylocks : LockStatusMap) : Prop :=
  mylocks.lookup (lock.getStripeId object) = some .writeLock ∨
    ∃ root, tree.rootAddress = some root ∧
      mylocks.lookup (lock.getStripeId root) = some .writeLock

/-- One of the two calls of `acquire_lock` whose result `get_locks_remove` looks at has returned
`WriteLock`. -/
def writeLocked (tree : TreeNode K V) (lock : StripedLock) (object : Nat)
    (mylocks : LockStatusMap) : Bool :=
  let (state, mylocks) := acquire mylocks (lock.getStripeId object) false
  state = .writeLock ||
    match tree.rootAddress with
    | none => false
    | some root => (acquire mylocks (lock.getStripeId root) false).1 = .writeLock

theorem writeLocked_iff {tree : TreeNode K V} {lock : StripedLock} {object : Nat}
    {mylocks : LockStatusMap} :
    tree.writeLocked lock object mylocks = true ↔ tree.WriteLockedAtTop lock object mylocks := by
  unfold writeLocked WriteLockedAtTop
  cases tree.rootAddress with
  | none => simp [acquire_eq_writeLock_iff]
  | some root => simp [acquire_eq_writeLock_iff, lookup_acquire_eq_writeLock_iff]

variable [LinearOrder K]

/-- `remove` of the tree object at the address `object`, in a transaction with these locks. -/
def removeHolding (tree : TreeNode K V) (lock : StripedLock) (object : Nat)
    (mylocks : LockStatusMap) (key : K) : Option (RemoveResult K V) :=
  tree.remove key (tree.writeLocked lock object mylocks)

/-- -1 and the same tree exactly when the key is absent, and otherwise 0 and a tree without the
key. -/
structure Reports (tree : TreeNode K V) (key : K) (result : RemoveResult K V) : Prop where
  absent : result.retval = -1 ∧ result.tree = tree ↔ ∀ entry ∈ tree.entries, entry.key ≠ key
  present : (∃ entry ∈ tree.entries, entry.key = key) →
    result.retval = 0 ∧ result.tree.toList = eraseBy Prod.fst key tree.toList

variable {key : K}

theorem reports_of_erased {tree : TreeNode K V} {result : RemoveResult K V}
    (present : ∃ entry ∈ tree.entries, entry.key = key) (isZero : result.retval = 0)
    (erased : result.tree.toList = eraseBy Prod.fst key tree.toList) :
    tree.Reports key result where
  absent := by
    apply iff_of_false
    · rw [isZero]
      exact fun both => absurd both.1 (by decide)
    · obtain ⟨entry, member, same⟩ := present
      exact fun absent => absent entry member same
  present _ := ⟨isZero, erased⟩

theorem reports_of_absent {tree : TreeNode K V} (absent : ∀ entry ∈ tree.entries, entry.key ≠ key)
    (rebalanced : Bool) : tree.Reports key ⟨-1, tree, rebalanced⟩ where
  absent := iff_of_true ⟨rfl, rfl⟩ absent
  present := by
    rintro ⟨entry, member, same⟩
    exact absurd same (absent entry member)

/-- The node that a plan selects below the root can lose the key in place, whatever the
balance. -/
theorem RemoveScan.Foretells.erases_of_below {tree : TreeNode K V} {removed : Removed K V}
    {scan : RemoveScan K V} (foretells : scan.Foretells tree 0 key removed)
    (erased : removed.tree.toList = eraseBy Prod.fst key tree.toList) {toLock : Option Nat}
    (isLock : ((scan.locks.findIdx? LockInfo.changed).bind fun i =>
      if i ≤ 2 then tree.rootAddress else scan.locks[i - 2]?.bind LockInfo.curr) = toLock)
    (below : toLock ≠ tree.rootAddress) :
    ∃ pointer, toLock = some pointer ∧ scan.locks[scan.r]?.bind LockInfo.curr ≠ some pointer ∧
      ∃ changed rebalanced,
        tree.inPlace pointer (keepsRoot (removeOperation key)) = some (changed, rebalanced) ∧
          changed.toList = eraseBy Prod.fst key tree.toList := by
  have far : ∀ i, scan.locks.findIdx? LockInfo.changed = some i → 2 < i := by
    intro i isFirst
    by_contra near
    rw [isFirst, Option.bind_some, if_pos (not_lt.mp near)] at isLock
    exact below isLock.symm
  have selects : ∀ i pointer, scan.locks.findIdx? LockInfo.changed = some i →
      scan.locks[i - 2]?.bind LockInfo.curr = some pointer → toLock = some pointer := by
    intro i pointer isFirst isPointer
    rw [← isLock, isFirst, Option.bind_some, if_neg (not_le.mpr (far i isFirst)), isPointer]
  cases isRotated : scan.here.ptrChangeForParent with
  | false =>
      obtain ⟨i, isFirst, inPlace⟩ := foretells.inPlace_of_kept isRotated
      have isFar := far i isFirst
      obtain ⟨pointer, -, isPointer, notChange, isChanged⟩ := inPlace (i - 2) (by omega)
      exact ⟨pointer, selects i pointer isFirst isPointer, notChange, removed.tree,
        removed.rebalanced, isChanged, erased⟩
  | true =>
      obtain ⟨i, isFirst, inPlace⟩ := foretells.erases_of_rotated isRotated
      have isFar := far i isFirst
      obtain ⟨pointer, -, isPointer, notChange, changed⟩ := inPlace (i - 2) (by omega) (by omega)
      exact ⟨pointer, selects i pointer isFirst isPointer, notChange, changed⟩

theorem remove_of_present {tree : TreeNode K V} (ordered : tree.Ordered) (ok : tree.HeightsOk)
    (distinct : tree.addresses.Nodup) (present : ∃ entry ∈ tree.entries, entry.key = key) :
    ∃ result, tree.remove key false = some result ∧ result.retval = 0 ∧
      result.tree.toList = eraseBy Prod.fst key tree.toList := by
  have nonempty : tree ≠ null := by
    rintro rfl
    simp at present
  obtain ⟨removed, isRemoved, deletes⟩ := removeRecursive_spec ordered ok key
  obtain ⟨scan, isScan, foretells⟩ :=
    getLocksRemoveRecursive_foretells ordered ok distinct present none 0 isRemoved
  have isPlan := getLocksRemove_of_nonempty nonempty key
  rw [isScan, Option.map_some] at isPlan
  generalize isFields : RemovePlan.mk _ _ _ = plan at isPlan
  have toLock := congrArg RemovePlan.toLock isFields
  have toChange := congrArg RemovePlan.toChange isFields
  dsimp only at toLock toChange
  by_cases atRoot : plan.toLock = tree.rootAddress
  · refine ⟨⟨0, removed.tree, removed.rebalanced⟩, ?_, rfl, deletes.toList_eq⟩
    rw [remove_of_whole isPlan atRoot, isRemoved, Option.map_some]
  · obtain ⟨pointer, isLock, notChange, changed, rebalanced, isChanged, erased⟩ :=
      foretells.erases_of_below deletes.toList_eq toLock atRoot
    have isNotChange : plan.toChange ≠ some pointer := by
      rw [← toChange]
      cases scan.toDelete with
      | none => exact (Option.some_ne_none pointer).symm
      | some toDelete => exact notChange
    exact ⟨_, remove_of_inPlace isPlan atRoot isLock isNotChange
      (inPlace_of_keepsRoot isChanged), rfl, erased⟩

/-- Whatever locks the transaction has, `remove` reports an absent key unless it has write locked
the top of a tree that is not empty; of a present key it always disposes. -/
theorem remove_reports_iff {tree : TreeNode K V} (ordered : tree.Ordered) (ok : tree.HeightsOk)
    (distinct : tree.addresses.Nodup) (lock : StripedLock) (object : Nat)
    (mylocks : LockStatusMap) (key : K) :
    ∃ result, tree.removeHolding lock object mylocks key = some result ∧
      (tree.Reports key result ↔
        (∃ entry ∈ tree.entries, entry.key = key) ∨ tree = null ∨
          ¬ tree.WriteLockedAtTop lock object mylocks) := by
  rw [← writeLocked_iff, removeHolding]
  by_cases present : ∃ entry ∈ tree.entries, entry.key = key
  · have result : ∃ result, tree.remove key (tree.writeLocked lock object mylocks) = some result ∧
        result.retval = 0 ∧ result.tree.toList = eraseBy Prod.fst key tree.toList := by
      cases tree.writeLocked lock object mylocks with
      | false => exact remove_of_present ordered ok distinct present
      | true =>
          obtain ⟨removed, isRemoved, deletes⟩ := removeRecursive_spec ordered ok key
          refine ⟨⟨0, removed.tree, removed.rebalanced⟩, ?_, rfl, deletes.toList_eq⟩
          cases tree with
          | null => simp at present
          | node address left right height nodeKey value =>
              rw [remove_of_whole rfl rfl, isRemoved, Option.map_some]
    obtain ⟨result, isResult, isZero, erased⟩ := result
    exact ⟨result, isResult,
      iff_of_true (reports_of_erased present isZero erased) (Or.inl present)⟩
  · have absent : ∀ entry ∈ tree.entries, entry.key ≠ key :=
      fun entry member same => present ⟨entry, member, same⟩
    cases tree with
    | null =>
        refine ⟨⟨-1, null, false⟩, ?_, iff_of_true (reports_of_absent absent false)
          (Or.inr (Or.inl rfl))⟩
        cases writeLocked (null : TreeNode K V) lock object mylocks <;> rfl
    | node address left right height nodeKey value =>
        have nonempty : node address left right height nodeKey value ≠ null := by simp
        cases isLocked : (node address left right height nodeKey value).writeLocked lock object
            mylocks with
        | false =>
            refine ⟨⟨-1, _, false⟩, ?_, iff_of_true (reports_of_absent absent false)
              (Or.inr (Or.inr Bool.false_ne_true))⟩
            rw [remove, getLocksRemove_of_nonempty nonempty,
              getLocksRemoveRecursive_of_absent ordered absent, Option.map_none]
        | true =>
            obtain ⟨removed, isRemoved, -⟩ := removeRecursive_spec ordered ok key
            refine ⟨⟨0, removed.tree, removed.rebalanced⟩, ?_, iff_of_false ?_ ?_⟩
            · rw [remove_of_whole rfl rfl, isRemoved, Option.map_some]
            · intro reports
              have isMinusOne : (0 : Int) = -1 := (reports.absent.mpr absent).1
              exact absurd isMinusOne (by decide)
            · rintro (isPresent | isNull | unlocked)
              · exact present isPresent
              · exact nonempty isNull
              · exact unlocked rfl

/-- Stripes of 64 bytes. -/
def cacheLines : StripedLock :=
  ⟨6, 15⟩

/-- One node with the key 5. -/
def oneKey : TreeNode Nat Nat :=
  node 640 null null 0 5 50

theorem remove_reports_iff_oneKey :
    ∃ result, oneKey.removeHolding cacheLines 64 [(10, .readLock), (3, .writeLock)] 7 =
        some result ∧ oneKey.Reports 7 result := by
  have ordered : oneKey.Ordered := by simp [oneKey, Ordered, SortedBy]
  obtain ⟨result, isResult, reports⟩ := remove_reports_iff ordered (by simp [oneKey]) (by decide)
    cacheLines 64 [(10, .readLock), (3, .writeLock)] 7
  refine ⟨result, isResult, reports.mpr (Or.inr (Or.inr ?_))⟩
  rw [← writeLocked_iff]
  decide

/-- With the root write locked, the removal of the absent key 7 returns 0. -/
theorem remove_misses_absent :
    ∃ result, oneKey.removeHolding cacheLines 64 [(10, .writeLock)] 7 = some result ∧
      result.retval = 0 ∧ result.tree = oneKey ∧ (∀ entry ∈ oneKey.entries, entry.key ≠ 7) ∧
      ¬ oneKey.Reports 7 result := by
  have absent : ∀ entry ∈ oneKey.entries, entry.key ≠ 7 := by decide
  refine ⟨⟨0, oneKey, false⟩, rfl, rfl, rfl, absent, fun reports => ?_⟩
  exact absurd (reports.absent.mpr absent).1 (by decide)

end TreeNode

end Pmgd
