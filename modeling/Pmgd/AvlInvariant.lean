import Mathlib.Algebra.Order.BigOperators.Group.List
import Mathlib.Algebra.Order.Ring.Nat
import Pmgd.AvlLocks
import Pmgd.Lib.LabelledRun

/-!
# Balance as an invariant of runs

A run adds keys to an empty tree and removes keys from it.  It keeps the tree balanced as long
as every deletion is safe, and the first deletion that is not safe leaves a tree that is not
balanced.
-/

namespace Pmgd

open LabelledRun

namespace TreeNode

variable {K V : Type*}

instance decidableBalanced : ∀ tree : TreeNode K V, Decidable tree.Balanced
  | null => inferInstanceAs (Decidable True)
  | node _ left right _ _ _ =>
      haveI := left.decidableBalanced
      haveI := right.decidableBalanced
      inferInstanceAs (Decidable (_ ∧ _ ∧ _ ∧ _))

/-- `Allocator::alloc`: the offered address if no node is there, hence possibly any address
that is not in use. -/
def alloc (tree : TreeNode K V) (offered : Nat) : Nat :=
  if offered ∈ tree.addresses then tree.addresses.sum + 1 else offered

theorem alloc_notMem (tree : TreeNode K V) (offered : Nat) :
    tree.alloc offered ∉ tree.addresses := by
  unfold alloc
  split_ifs with used
  · intro member
    have := List.single_le_sum (fun _ _ => Nat.zero_le _) _ member
    omega
  · exact used

/-- A call of `AvlTree::add` or `AvlTree::remove`; `writeLocked` says that the transaction has
the write lock of the index or of the root already. -/
inductive Operation (K : Type*)
  | add (key : K) (offered : Nat) (writeLocked : Bool)
  | remove (key : K) (writeLocked : Bool)
  deriving DecidableEq, Repr

variable [LinearOrder K]

/-- What a call does to the tree. -/
def step (initial : V) (tree : TreeNode K V) : Operation K → Option (TreeNode K V)
  | .add key offered writeLocked =>
      (tree.add key (tree.alloc offered) initial writeLocked).map Added.tree
  | .remove key writeLocked => (tree.remove key writeLocked).map RemoveResult.tree

/-- A deletion is safe in the tree before it. -/
def SafeOperation (tree : TreeNode K V) : Operation K → Prop
  | .add _ _ _ => True
  | .remove key _ => tree.RemovalSafe key

theorem step_add {tree : TreeNode K V} (isAvl : tree.IsAvl) (initial : V) (key : K)
    (offered : Nat) (writeLocked : Bool) :
    ∃ next, step initial tree (.add key offered writeLocked) = some next ∧ next.IsAvl := by
  obtain ⟨added, isAdded, addedAvl, -⟩ :=
    add_spec isAvl key (tree.alloc_notMem offered) initial writeLocked
  exact ⟨added.tree, by rw [step, isAdded, Option.map_some], addedAvl⟩

theorem step_remove {tree : TreeNode K V} (isAvl : tree.IsAvl) (initial : V) (key : K)
    (writeLocked : Bool) :
    ∃ next, step initial tree (.remove key writeLocked) = some next ∧
      (next.Balanced ↔ tree.RemovalSafe key) ∧ (next.Balanced → next.IsAvl) := by
  obtain ⟨removed, isRemoved, -, balancedIff, keeps⟩ := removeRecursive_isAvl_iff isAvl key
  obtain ⟨retval, isResult⟩ := remove_eq isAvl key writeLocked isRemoved
  exact ⟨removed.tree, by rw [step, isResult, Option.map_some], balancedIff, keeps⟩

/-- The tree is balanced after every prefix of a run exactly when all deletions are safe. -/
theorem balanced_iff_removalsSafe (initial : V) (operations : List (Operation K)) :
    (∀ before, before <+: operations →
        ∃ tree, run (step initial) null before = some tree ∧
          tree.HeightsOk ∧ tree.Balanced) ↔
      MeetsAlong (step initial) SafeOperation null operations := by
  refine forall_prefix_iff_meetsAlong (fun _ => IsAvl)
    (fun _ tree => HeightsOk tree ∧ Balanced tree)
    (fun _ tree isAvl => ⟨isAvl.heightsOk, isAvl.balanced⟩) ?_ ?_ [] IsAvl.null operations
  · intro _ tree operation isAvl safe
    cases operation with
    | add key offered writeLocked => exact step_add isAvl initial key offered writeLocked
    | remove key writeLocked =>
        obtain ⟨next, isNext, balancedIff, keeps⟩ := step_remove isAvl initial key writeLocked
        exact ⟨next, isNext, keeps (balancedIff.mpr safe)⟩
  · intro _ tree operation next isAvl stepped shown
    cases operation with
    | add => exact trivial
    | remove key writeLocked =>
        obtain ⟨other, isOther, balancedIff, -⟩ := step_remove isAvl initial key writeLocked
        obtain rfl := Option.some.inj (isOther.symm.trans stepped)
        exact balancedIff.mp shown.2

/-- The deletion of 13 shrinks the right subtree of 10; its left child 5 has children 3 and 7
of equal height, and 7 leans to the right. -/
def unbalancingRun : List (Operation Nat) :=
  [.add 10 1 false, .add 5 2 false, .add 12 3 false, .add 3 4 false, .add 7 5 false,
    .add 13 6 false, .add 2 7 false, .add 8 8 false, .remove 13 false]

theorem removal_unbalances_tree :
    ∃ tree, run (step 0) null unbalancingRun = some tree ∧ ¬ tree.Balanced := by
  have computed : (run (step 0) null unbalancingRun).map (fun tree => decide tree.Balanced) =
      some false := by
    decide
  obtain ⟨tree, ran, unbalanced⟩ := Option.map_eq_some_iff.mp computed
  exact ⟨tree, ran, of_decide_eq_false unbalanced⟩

end TreeNode

end Pmgd
