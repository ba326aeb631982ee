import Pmgd.NhopNeighbors

/-!
# Joint neighbours

`get_joint_neighbors` goes through the neighbours of the node of the first constraint.  For each
other constraint it looks for an edge of the neighbour with the node of this constraint at one
of its ends.  A neighbour that is itself the node of such a constraint is at an end of all its
edges, so it passes although it may have no edge to itself.
-/

namespace Pmgd

open BFSNeighborhood (Adjacent mem_edgeRefs exists_getNeighbor)

variable {graph : Graph} {n node : Nat}

/-- `NeighborIteratorImpl` without property predicates; the edge iterator is the list of the
edges it has not yet gone through. -/
structure NeighborIterator where
  node : Nat
  dir : Option Direction
  unique : Bool
  ei : List EdgeRef
  seen : List Nat
  neighbor : Nat

namespace NeighborIterator

/-- `_next` at these edges. -/
def settle (state : NeighborIterator) : List EdgeRef → NeighborIterator
  | [] => { state with ei := [] }
  | e :: rest =>
      let neighbor := getNeighbor state.node e state.dir
      if state.unique = false then { state with ei := e :: rest, neighbor }
      else if neighbor ∈ state.seen then settle { state with neighbor } rest
      else { state with ei := e :: rest, neighbor, seen := neighbor :: state.seen }

/-- `get_neighbors`. -/
def init (graph : Graph) (n : Nat) (constraint : EdgeConstraint) (unique : Bool) :
    NeighborIterator :=
  settle ⟨n, constraint.dir, unique, [], [], n⟩ (graph.edgeRefs n constraint)

def next (state : NeighborIterator) : NeighborIterator :=
  settle state state.ei.tail

/-- The neighbours that the iterator shows behind a position. -/
def shown (state : NeighborIterator) (ei : List EdgeRef) : List Nat :=
  if state.unique = false then neighborsAt state.node state.dir ei
  else unseen state.seen (neighborsAt state.node state.dir ei)

end NeighborIterator

structure JointNeighborConstraint where
  edgeConstraint : EdgeConstraint
  node : Nat
  deriving DecidableEq, Repr

/-- `JointNeighborIteratorImpl`. -/
structure JointNeighbors where
  ni : NeighborIterator
  constraints : List JointNeighborConstraint

namespace JointNeighbors

/-- Some edge of the candidate gets through the filter of the constraint. -/
def passes (graph : Graph) (node : Nat) (p : JointNeighborConstraint) : Bool :=
  (graph.edgeRefs node p.edgeConstraint).any fun e => e.source = p.node ∨ e.destination = p.node

/-- What one turn of the loop of `_next` comes to. -/
inductive Turn
  | found (state : JointNeighbors)
  | again (state : JointNeighbors)
  | exhausted

/-- One turn of the loop of `_next`. -/
def turn (graph : Graph) (state : JointNeighbors) : Turn :=
  if state.ni.ei = [] then .exhausted
  else if state.constraints.all (passes graph state.ni.neighbor) then .found state
  else .again { state with ni := state.ni.next }

def fixDirection : Option Direction → Option Direction
  | none => none
  | some .incoming => some .outgoing
  | some .outgoing => some .incoming

/-- The constructor, before it calls `_next`; it throws without constraints. -/
def init (graph : Graph) (unique : Bool) :
    List JointNeighborConstraint → Except Unit JointNeighbors
  | [] => .error ()
  | first :: constraints =>
      .ok ⟨NeighborIterator.init graph first.node
        ⟨fixDirection first.edgeConstraint.dir, first.edgeConstraint.tag⟩ unique, constraints⟩

/-- Go through the nodes: `_next` until it comes to a node or to the end, and `next` after each
node.  The number of turns is bounded; `none` if it is not enough. -/
def visit (graph : Graph) : Nat → JointNeighbors → Option (List Nat)
  | 0, _ => none
  | turns + 1, state =>
      match turn graph state with
      | .exhausted => some []
      | .again state => visit graph turns state
      | .found state =>
          (visit graph turns { state with ni := state.ni.next }).map (state.ni.neighbor :: ·)

/-- All nodes of `get_joint_neighbors`. -/
def joint (graph : Graph) (unique : Bool) (constraints : List JointNeighborConstraint)
    (turns : Nat) : Except Unit (Option (List Nat)) :=
  (init graph unique constraints).map (visit graph turns)

/-! ## The turns -/

/-- Enough turns give these nodes. -/
def Visits (graph : Graph) (state : JointNeighbors) (found : List Nat) : Prop :=
  ∃ turns, ∀ more, turns ≤ more → visit graph more state = some found

/-- A neighbour is in the result if it passes the other constraints. -/
theorem visits_cons {state : JointNeighbors} {found : List Nat} (more : state.ni.ei ≠ [])
    (visits : Visits graph { state with ni := state.ni.next } found) :
    Visits graph state ((if state.constraints.all (passes graph state.ni.neighbor) then
      [state.ni.neighbor] else []) ++ found) := by
  obtain ⟨turns, visits⟩ := visits
  refine ⟨turns + 1, fun more' enough => ?_⟩
  cases more' with
  | zero => omega
  | succ more' =>
      have rest := visits more' (Nat.le_of_succ_le_succ enough)
      rw [visit, turn, if_neg more]
      split_ifs with isJoint
      · dsimp only
        rw [rest]
        rfl
      · exact rest

/-- The neighbours of the first node that pass the other constraints. -/
theorem visits_filter (constraints : List JointNeighborConstraint) (ni : NeighborIterator)
    (ei : List EdgeRef) :
    Visits graph ⟨ni.settle ei, constraints⟩
      ((ni.shown ei).filter fun neighbor => constraints.all (passes graph neighbor)) := by
  induction ei generalizing ni with
  | nil =>
      have noneShown : ni.shown [] = [] := by
        rw [NeighborIterator.shown]
        split_ifs <;> rfl
      rw [noneShown]
      refine ⟨1, fun more enough => ?_⟩
      cases more with
      | zero => omega
      | succ more => rfl
  | cons e rest ih =>
      have shows {state : NeighborIterator} (isEi : state.ei = e :: rest)
          (isShown : ni.shown (e :: rest) = state.neighbor :: state.shown rest) :
          Visits graph ⟨state, constraints⟩ ((ni.shown (e :: rest)).filter fun neighbor =>
            constraints.all (passes graph neighbor)) := by
        have behind := ih state
        have isNext : state.next = state.settle rest := by
          rw [NeighborIterator.next, isEi, List.tail_cons]
        have visits := @visits_cons graph ⟨state, constraints⟩ _
          (isEi ▸ List.cons_ne_nil e rest) (isNext ▸ behind)
        rw [isShown, List.filter_cons]
        split_ifs at visits ⊢ with isJoint
        · exact visits
        · exact visits
      rw [NeighborIterator.settle]
      split_ifs with isUnique isSeen
      · apply shows rfl
        rw [NeighborIterator.shown, NeighborIterator.shown, if_pos isUnique, if_pos isUnique]
        rfl
      · have isShown : ni.shown (e :: rest) =
            NeighborIterator.shown { ni with neighbor := getNeighbor ni.node e ni.dir } rest := by
          rw [NeighborIterator.shown, NeighborIterator.shown, if_neg isUnique, if_neg isUnique]
          exact unseen_cons_of_mem isSeen _
        rw [isShown]
        exact ih _
      · apply shows rfl
        rw [NeighborIterator.shown, NeighborIterator.shown, if_neg isUnique, if_neg isUnique]
        exact unseen_cons_of_notMem isSeen _

/-! ## The nodes in the result -/

/-- Each constraint is met by an edge of the node. -/
def IsJoint (graph : Graph) (constraints : List JointNeighborConstraint) (node : Nat) : Prop :=
  ∀ p ∈ constraints, Adjacent graph p.edgeConstraint node p.node

/-- The node of a constraint has no edge to itself that would meet the constraint, but some edge
that the constraint asks for, and it meets the other constraints in the same way or by edges to
their nodes; the first one by an edge to its node. -/
def Intrudes (graph : Graph) (first : JointNeighborConstraint)
    (constraints : List JointNeighborConstraint) (node : Nat) : Prop :=
  (∃ p ∈ constraints, p.node = node ∧ ¬ Adjacent graph p.edgeConstraint node node) ∧
    Adjacent graph first.edgeConstraint node first.node ∧
    ∀ p ∈ constraints, Adjacent graph p.edgeConstraint node p.node ∨
      p.node = node ∧ ∃ neighbor, Adjacent graph p.edgeConstraint node neighbor

variable {first p : JointNeighborConstraint} {constraints : List JointNeighborConstraint}

/-- The edges of a node in the other direction. -/
theorem adjacent_fixDirection {constraint : EdgeConstraint} :
    Adjacent graph ⟨fixDirection constraint.dir, constraint.tag⟩ n node ↔
      Adjacent graph constraint node n := by
  obtain ⟨dir, tag⟩ := constraint
  unfold Adjacent
  rcases dir with _ | _ | _ <;> simp only [fixDirection, ne_eq, reduceCtorEq, not_false_eq_true,
    not_true_eq_false, true_and, false_and, or_false, false_or] <;> grind

/-- A node is at one end of its edges, the neighbour at the other. -/
theorem end_iff {constraint : EdgeConstraint} {e : EdgeRef} {other : Nat}
    (isRef : e ∈ graph.edgeRefs n constraint) :
    e.source = other ∨ e.destination = other ↔
      getNeighbor n e constraint.dir = other ∨ n = other := by
  rcases mem_edgeRefs.mp isRef with ⟨asked, position, -, rfl⟩ | ⟨asked, position, -, rfl⟩
  · rcases constraint with ⟨_ | _ | _, tag⟩
    · by_cases same : position.node = n <;> simp [getNeighbor, same]
    · exact absurd rfl asked
    · exact Iff.rfl
  · rcases constraint with ⟨_ | _ | _, tag⟩
    · simp [getNeighbor, or_comm]
    · exact or_comm
    · exact absurd rfl asked

/-- What the filter lets through. -/
theorem passes_iff (wellFormed : Graph.WellFormed graph) :
    passes graph node p = true ↔ Adjacent graph p.edgeConstraint node p.node ∨
      p.node = node ∧ ∃ neighbor, Adjacent graph p.edgeConstraint node neighbor := by
  rw [passes, List.any_eq_true]
  constructor
  · rintro ⟨e, isRef, isEnd⟩
    rcases (end_iff isRef).mp (of_decide_eq_true isEnd) with isNeighbor | rfl
    · exact .inl ((exists_getNeighbor wellFormed).mp ⟨e, isRef, isNeighbor⟩)
    · exact .inr ⟨rfl, _, (exists_getNeighbor wellFormed).mp ⟨e, isRef, rfl⟩⟩
  · rintro (adjacent | ⟨rfl, neighbor, adjacent⟩)
    · obtain ⟨e, isRef, isNeighbor⟩ := (exists_getNeighbor wellFormed).mpr adjacent
      exact ⟨e, isRef, decide_eq_true ((end_iff isRef).mpr (.inl isNeighbor))⟩
    · obtain ⟨e, isRef, -⟩ := (exists_getNeighbor wellFormed).mpr adjacent
      exact ⟨e, isRef, decide_eq_true ((end_iff isRef).mpr (.inr rfl))⟩

/-- The neighbours of the first node, with or without duplicates. -/
theorem mem_shown (wellFormed : Graph.WellFormed graph) (unique : Bool) (neighbor : Nat)
    (constraint : EdgeConstraint) :
    node ∈ NeighborIterator.shown ⟨n, constraint.dir, unique, [], [], neighbor⟩
        (graph.edgeRefs n constraint) ↔ Adjacent graph constraint n node := by
  rw [← exists_getNeighbor wellFormed, ← List.mem_map, NeighborIterator.shown]
  split_ifs
  · exact Iff.rfl
  · rw [mem_unseen]
    exact and_iff_left List.not_mem_nil

/-- What the iterator gives. -/
theorem exists_joint (wellFormed : Graph.WellFormed graph) (unique : Bool)
    (first : JointNeighborConstraint) (constraints : List JointNeighborConstraint) :
    ∃ turns found,
      (∀ more, turns ≤ more →
        joint graph unique (first :: constraints) more = .ok (some found)) ∧
      ∀ node, node ∈ found ↔ Adjacent graph first.edgeConstraint node first.node ∧
        ∀ p ∈ constraints, Adjacent graph p.edgeConstraint node p.node ∨
          p.node = node ∧ ∃ neighbor, Adjacent graph p.edgeConstraint node neighbor := by
  let reversed : EdgeConstraint :=
    ⟨fixDirection first.edgeConstraint.dir, first.edgeConstraint.tag⟩
  obtain ⟨turns, visits⟩ := @visits_filter graph constraints
    ⟨first.node, reversed.dir, unique, [], [], first.node⟩ (graph.edgeRefs first.node reversed)
  refine ⟨turns, _, fun more enough => congrArg Except.ok (visits more enough), fun node => ?_⟩
  rw [List.mem_filter, mem_shown wellFormed, adjacent_fixDirection, List.all_eq_true]
  exact and_congr_right fun _ => forall₂_congr fun p _ => passes_iff wellFormed

/-- The result is the intersection. -/
def Intersects (graph : Graph) (constraints : List JointNeighborConstraint) : Prop :=
  ∃ turns found,
    (∀ more, turns ≤ more → joint graph true constraints more = .ok (some found)) ∧
    ∀ node, node ∈ found ↔ IsJoint graph constraints node

/-- A node that intrudes is in the result, although it is not a joint neighbour. -/
theorem not_intersects (wellFormed : Graph.WellFormed graph)
    (intrudes : Intrudes graph first constraints node) :
    ¬ Intersects graph (first :: constraints) := by
  rintro ⟨turns, nodes, givesNodes, isNode⟩
  obtain ⟨⟨p, isConstraint, rfl, noLoop⟩, passes⟩ := intrudes
  obtain ⟨enough, found, gives, isFound⟩ := exists_joint wellFormed true first constraints
  have same := (gives _ (le_max_left enough turns)).symm.trans
    (givesNodes _ (le_max_right enough turns))
  obtain rfl := Option.some.inj (Except.ok.inj same)
  have isJoint := (isNode p.node).mp ((isFound p.node).mpr passes)
  exact noLoop (isJoint p (List.mem_cons_of_mem first isConstraint))

/-- The result is the intersection exactly if no node of a constraint intrudes. -/
theorem intersects_iff (reachable : Graph.Reachable graph) (first : JointNeighborConstraint)
    (constraints : List JointNeighborConstraint) :
    Intersects graph (first :: constraints) ↔
      ∀ node, ¬ Intrudes graph first constraints node := by
  constructor
  · exact fun intersects node intrudes => not_intersects reachable.wellFormed intrudes intersects
  · intro noneIntrudes
    obtain ⟨turns, found, gives, isFound⟩ :=
      exists_joint reachable.wellFormed true first constraints
    refine ⟨turns, found, gives, fun node => ?_⟩
    rw [isFound, IsJoint, List.forall_mem_cons]
    apply and_congr_right
    intro isFirst
    constructor
    · intro passes p isConstraint
      by_contra noEdge
      rcases passes p isConstraint with adjacent | ⟨rfl, -⟩
      · exact noEdge adjacent
      · exact noneIntrudes p.node ⟨⟨p, isConstraint, rfl, noEdge⟩, isFirst, passes⟩
    · exact fun isJoint p member => .inl (isJoint p member)

/-- An edge between two nodes. -/
def oneEdge : List Graph.Action :=
  [.addNode 1, .addNode 2, .addEdge 10 1 2 7 ⟨100, 101, 102, 103⟩]

def neighborOf (node : Nat) : JointNeighborConstraint :=
  ⟨⟨none, 0⟩, node⟩

/-- The end of the edge is given as its own neighbour, and which end depends on the order. -/
theorem joint_depends_on_order :
    ∃ graph, LabelledRun.run Graph.step .empty oneEdge = some graph ∧
      ¬ Intersects graph [neighborOf 1, neighborOf 2] ∧
      joint graph true [neighborOf 1, neighborOf 2] 3 = .ok (some [2]) ∧
      joint graph true [neighborOf 2, neighborOf 1] 3 = .ok (some [1]) := by
  let graph := (LabelledRun.run Graph.step .empty oneEdge).getD .empty
  have reachable : Graph.Reachable graph := ⟨oneEdge, rfl⟩
  have wellFormed := reachable.wellFormed
  have joined : Adjacent graph ⟨none, 0⟩ 2 1 := (exists_getNeighbor wellFormed).mp (by decide)
  have noLoop : ¬ Adjacent graph ⟨none, 0⟩ 2 2 :=
    mt (exists_getNeighbor wellFormed).mpr (by decide)
  have intrudes : Intrudes graph (neighborOf 1) [neighborOf 2] 2 := by
    refine ⟨⟨neighborOf 2, List.mem_singleton_self _, rfl, noLoop⟩, joined, ?_⟩
    intro p isLast
    obtain rfl := List.mem_singleton.mp isLast
    exact .inr ⟨rfl, 1, joined⟩
  exact ⟨graph, rfl, not_intersects wellFormed intrudes, by decide, by decide⟩

theorem intersects_iff_oneEdge :
    ∃ graph, LabelledRun.run Graph.step .empty oneEdge = some graph ∧
      (Intersects graph [neighborOf 1, neighborOf 2] ↔
        ∀ node, ¬ Intrudes graph (neighborOf 1) [neighborOf 2] node) := by
  let graph := (LabelledRun.run Graph.step .empty oneEdge).getD .empty
  exact ⟨graph, rfl, intersects_iff ⟨oneEdge, rfl⟩ (neighborOf 1) [neighborOf 2]⟩

end JointNeighbors

end Pmgd
