import Mathlib.Data.List.Basic
import Mathlib.Data.List.Nodup
import Mathlib.Logic.Function.Basic
import Mathlib.Tactic.Common

/-!
# Singly linked lists

The links of a list are a map from places to pointers.  The place `none` has the pointer to the
first node, the place `some node` the pointer of the node to the next one, and the pointer `none`
is the end.  A node is put behind the last one, or taken out, by an update of one place.
-/

namespace Pmgd.LinkedList

variable {Node : Type*} {link other : Option Node → Option Node} {place : Option Node}
  {nodes first second : List Node} {node : Node}

/-- The nodes that the pointers from a place on lead to. -/
def Linked (link : Option Node → Option Node) : Option Node → List Node → Prop
  | place, [] => link place = none
  | place, node :: nodes => link place = some node ∧ Linked link (some node) nodes

/-- The pointers from a place on lead to some nodes, and maybe on. -/
def Leads (link : Option Node → Option Node) : Option Node → List Node → Prop
  | _, [] => True
  | place, node :: nodes => link place = some node ∧ Leads link (some node) nodes

/-- The place of the pointer behind some nodes. -/
def placeBehind : Option Node → List Node → Option Node
  | place, [] => place
  | _, node :: nodes => placeBehind (some node) nodes

theorem Linked.head (linked : Linked link place nodes) : link place = nodes.head? := by
  cases nodes with
  | nil => exact linked
  | cons node nodes => exact linked.1

/-- The pointers determine the list. -/
theorem Linked.unique (linked : Linked link place first) (again : Linked link place second) :
    first = second := by
  induction first generalizing place second with
  | nil =>
      cases second with
      | nil => rfl
      | cons node second => exact absurd (linked.symm.trans again.1) (by simp)
  | cons node first ih =>
      cases second with
      | nil => exact absurd (linked.1.symm.trans again) (by simp)
      | cons node' second =>
          obtain rfl := Option.some.inj (linked.1.symm.trans again.1)
          rw [ih linked.2 again.2]

theorem linked_append : Linked link place (first ++ second) ↔
    Leads link place first ∧ Linked link (placeBehind place first) second := by
  induction first generalizing place with
  | nil => simp [Leads, placeBehind]
  | cons node first ih => exact (and_congr_right fun _ => ih).trans and_assoc.symm

theorem Linked.congr (linked : Linked link place nodes) (atPlace : other place = link place)
    (same : ∀ node ∈ nodes, other (some node) = link (some node)) :
    Linked other place nodes := by
  induction nodes generalizing place with
  | nil => exact atPlace.trans linked
  | cons node nodes ih =>
      refine ⟨atPlace.trans linked.1, ih linked.2 (same node List.mem_cons_self) ?_⟩
      exact fun node' member => same node' (List.mem_cons_of_mem node member)

theorem placeBehind_concat : placeBehind place (nodes ++ [node]) = some node := by
  induction nodes generalizing place with
  | nil => rfl
  | cons node' nodes ih => exact ih

theorem placeBehind_none (nodes : List Node) : placeBehind none nodes = nodes.getLast? := by
  rcases List.eq_nil_or_concat' nodes with rfl | ⟨nodes, node, rfl⟩
  · rfl
  · rw [placeBehind_concat, List.getLast?_concat]

/-- The pointer of a node. -/
theorem Linked.next (linked : Linked link place (first ++ node :: second)) :
    link (some node) = second.head? :=
  (linked_append.mp linked).2.2.head

/-- A pointer of which none of the nodes is the place, or the one behind them, may change. -/
theorem Leads.update [DecidableEq Node] {changed pointer : Option Node}
    (leads : Leads link place nodes) (nodup : nodes.Nodup)
    (notFirst : ∀ node ∈ nodes, place ≠ some node)
    (apart : changed = placeBehind place nodes ∨
      changed ≠ place ∧ ∀ node ∈ nodes, changed ≠ some node) :
    Leads (Function.update link changed pointer) place nodes := by
  induction nodes generalizing place with
  | nil => trivial
  | cons node nodes ih =>
      rw [List.nodup_cons] at nodup
      have different : place ≠ changed := by
        rcases apart with isBehind | ⟨notPlace, -⟩
        · rcases List.eq_nil_or_concat' nodes with rfl | ⟨nodes, last, rfl⟩
          · exact isBehind ▸ notFirst node List.mem_cons_self
          · rw [placeBehind, placeBehind_concat] at isBehind
            exact isBehind ▸ notFirst last (by simp)
        · exact notPlace.symm
      refine ⟨(Function.update_of_ne different pointer link).trans leads.1,
        ih leads.2 nodup.2 ?_ ?_⟩
      · rintro node' member same
        exact nodup.1 (Option.some.inj same ▸ member)
      · refine apart.imp id fun away => ⟨away.2 node List.mem_cons_self, ?_⟩
        exact fun node' member => away.2 node' (List.mem_cons_of_mem node member)

section Whole

variable [DecidableEq Node]

/-- A pointer to the rest of a list is replaced. -/
theorem Linked.redirect {pointer : Option Node} {rest : List Node}
    (linked : Linked link none (first ++ second)) (nodup : first.Nodup)
    (continued : Linked (Function.update link first.getLast? pointer) first.getLast? rest) :
    Linked (Function.update link first.getLast? pointer) none (first ++ rest) := by
  rw [linked_append, placeBehind_none]
  refine ⟨(linked_append.mp linked).1.update nodup (by simp) (.inl ?_), continued⟩
  rw [placeBehind_none]

/-- A node that is not in the list is put at its end. -/
theorem Linked.append (linked : Linked link none nodes) (nodup : nodes.Nodup)
    (isNew : node ∉ nodes) (isLast : link (some node) = none) :
    Linked (Function.update link nodes.getLast? (some node)) none (nodes ++ [node]) := by
  have apart : some node ≠ nodes.getLast? := by
    intro same
    exact isNew (List.mem_of_getLast? same.symm)
  refine @Linked.redirect _ link nodes [] _ _ _ (by rwa [List.append_nil]) nodup ?_
  refine ⟨Function.update_self _ _ _, ?_⟩
  exact (Function.update_of_ne apart _ _).trans isLast

/-- A node is taken out of the list. -/
theorem Linked.remove (linked : Linked link none (first ++ node :: second))
    (nodup : (first ++ node :: second).Nodup) :
    Linked (Function.update link first.getLast? (link (some node))) none (first ++ second) := by
  have rest := (linked_append.mp linked).2.2
  obtain ⟨nodupFirst, nodupSecond, disjoint⟩ := List.nodup_append'.mp nodup
  refine linked.redirect nodupFirst ?_
  rw [List.nodup_cons] at nodupSecond
  have atEnd : Function.update link first.getLast? (link (some node)) first.getLast? =
      second.head? := by
    rw [Function.update_self, rest.head]
  cases second with
  | nil => exact atEnd
  | cons next second =>
      refine ⟨atEnd, rest.2.congr ?_ fun node' member => ?_⟩
      all_goals
        refine Function.update_of_ne ?_ _ _
        intro same
        refine disjoint (List.mem_of_getLast? same.symm) ?_
        simp_all

end Whole

/-- The nodes from a pointer on, as many as the bound allows. -/
def nodesFrom (link : Option Node → Option Node) : Nat → Option Node → List Node
  | 0, _ | _, none => []
  | bound + 1, some node => node :: nodesFrom link bound (link (some node))

theorem Linked.nodesFrom_eq {bound : Nat} (linked : Linked link place nodes)
    (enough : nodes.length ≤ bound) : nodesFrom link bound (link place) = nodes := by
  induction nodes generalizing place bound with
  | nil =>
      rw [linked.head, List.head?_nil]
      cases bound <;> rfl
  | cons node nodes ih =>
      cases bound with
      | zero => simp at enough
      | succ bound =>
          rw [linked.1, nodesFrom, ih linked.2 (by simpa using enough)]

/-- Walk along the list until a node is found or the list ends; the place of the last pointer,
and whether the node is there. -/
def findPlace [DecidableEq Node] (link : Option Node → Option Node) (target : Node) :
    Nat → Option Node → Option Node → Option (Option Node × Bool)
  | 0, _, _ => none
  | _ + 1, none, place => some (place, false)
  | bound + 1, some node, place =>
      if node = target then some (place, true)
      else findPlace link target bound (link (some node)) (some node)

/-- The place of the pointer to a node. -/
theorem findPlace_eq [DecidableEq Node] {bound : Nat} {found : Option Node × Bool}
    (linked : Linked link place nodes)
    (walked : findPlace link node bound (link place) place = some found) :
    found = (placeBehind place (nodes.takeWhile (· ≠ node)), decide (node ∈ nodes)) := by
  induction bound generalizing place nodes with
  | zero => simp [findPlace] at walked
  | succ bound ih =>
      cases nodes with
      | nil =>
          rw [linked.head, List.head?_nil, findPlace] at walked
          simpa [placeBehind] using walked.symm
      | cons node' nodes =>
          rw [linked.1, findPlace] at walked
          split_ifs at walked with same
          · subst same
            simpa [placeBehind] using walked.symm
          · rw [ih linked.2 walked]
            simp [same, placeBehind, Ne.symm same]

end Pmgd.LinkedList
