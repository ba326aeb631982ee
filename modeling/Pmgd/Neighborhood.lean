import Pmgd.EdgeCursor
import Pmgd.Lib.Distance

/-!
# The neighbourhood of a node

`get_neighborhood` goes through the nodes around a node breadth first, up to a number of hops.
There is a queue of nodes for each depth, an iterator over the edges of the node whose
neighbours are looked at, and the set of the nodes seen so far.

A node that has not been seen is one hop further away than the node whose neighbour it is,
because all nodes up to the current depth have been seen.
-/

namespace Pmgd

open EdgeIndex

/-- What an edge iterator shows of an edge. -/
structure EdgeRef where
  source : Nat
  destination : Nat
  deriving DecidableEq, Repr

/-- Edges in a direction and with a tag; `none` is `Any` and tag 0 is any tag. -/
structure EdgeConstraint where
  dir : Option Direction
  tag : Tag
  deriving DecidableEq, Repr

namespace Graph

/-- The edges that an iterator of `Node::get_edges` goes through. -/
def edgeRefs (graph : Graph) (n : Nat) (constraint : EdgeConstraint) : List EdgeRef :=
  (if constraint.dir = some .outgoing then []
    else ((graph.index n .incoming).selected constraint.tag).map fun position =>
      ⟨position.node, n⟩) ++
  (if constraint.dir = some .incoming then []
    else ((graph.index n .outgoing).selected constraint.tag).map fun position =>
      ⟨n, position.node⟩)

end Graph

/-- `get_neighbor`. -/
def getNeighbor (n : Nat) (e : EdgeRef) : Option Direction → Nat
  | none => if e.source = n then e.destination else e.source
  | some .outgoing => e.destination
  | some .incoming => e.source

/-- `BFSNeighborhoodIteratorImpl`; the edge iterator is the list of the edges it has not yet
gone through. -/
structure BFSNeighborhood where
  node : Nat
  ei : List EdgeRef
  currDepth : Nat
  dir : Option Direction
  tag : Tag
  seen : List Nat
  explore : Nat → List Nat
  neighbor : Nat

namespace BFSNeighborhood

/-- What one turn of the loops of `_next` comes to. -/
inductive Turn
  | found (state : BFSNeighborhood)
  | again (state : BFSNeighborhood)
  | exhausted

/-- Go on with the edges of the first node in the queue of the current depth. -/
def nextNode (graph : Graph) (state : BFSNeighborhood) : Turn :=
  match state.explore state.currDepth with
  | [] => .exhausted
  | front :: rest =>
      .again { state with
        node := front
        ei := graph.edgeRefs front ⟨state.dir, state.tag⟩
        explore := Function.update state.explore state.currDepth rest }

/-- One turn of the loops of `_next`. -/
def turn (graph : Graph) (v : List EdgeConstraint) (state : BFSNeighborhood) : Turn :=
  match state.ei with
  | e :: rest =>
      let neighbor := getNeighbor state.node e state.dir
      if neighbor ∈ state.seen then .again { state with neighbor, ei := rest }
      else
        .found { state with
          neighbor
          seen := neighbor :: state.seen
          explore :=
            if state.currDepth < v.length - 1 then
              Function.update state.explore (state.currDepth + 1)
                (state.explore (state.currDepth + 1) ++ [neighbor])
            else state.explore }
  | [] =>
      if state.explore state.currDepth = [] then
        let depth := state.currDepth + 1
        if v.length ≤ depth ∨ state.explore depth = [] then .exhausted
        else
          let constraint := v.getD depth ⟨none, 0⟩
          nextNode graph { state with
            currDepth := depth, dir := constraint.dir, tag := constraint.tag }
      else nextNode graph state

/-- The constructor, before it calls `_next`. -/
def init (graph : Graph) (n : Nat) (v : List EdgeConstraint) : BFSNeighborhood :=
  let constraint := v.getD 0 ⟨none, 0⟩
  { node := n
    ei := graph.edgeRefs n constraint
    currDepth := 0
    dir := constraint.dir
    tag := constraint.tag
    seen := [n]
    explore := fun _ => []
    neighbor := n }

/-- `distance`. -/
def distance (state : BFSNeighborhood) : Nat :=
  state.currDepth + 1

/-- Go through the nodes with their distances: `_next` until it comes to a node or to the end,
and `next` after each node.  The number of turns is bounded; `none` if it is not enough. -/
def visit (graph : Graph) (v : List EdgeConstraint) :
    Nat → BFSNeighborhood → Option (List (Nat × Nat))
  | 0, _ => none
  | turns + 1, state =>
      match turn graph v state with
      | .exhausted => some []
      | .again state => visit graph v turns state
      | .found state =>
          (visit graph v turns { state with ei := state.ei.tail }).map
            ((state.neighbor, state.distance) :: ·)

/-! ## Turns -/

section

variable {graph : Graph} {v : List EdgeConstraint} {state : BFSNeighborhood} {e : EdgeRef}
  {rest : List EdgeRef} {front : Nat} {queue : List Nat}

/-- The state at a neighbour that has been seen, behind its edge. -/
def skipped (state : BFSNeighborhood) (e : EdgeRef) (rest : List EdgeRef) : BFSNeighborhood :=
  { state with neighbor := getNeighbor state.node e state.dir, ei := rest }

/-- The state at a neighbour that is found, behind its edge. -/
def foundAt (v : List EdgeConstraint) (state : BFSNeighborhood) (e : EdgeRef)
    (rest : List EdgeRef) : BFSNeighborhood :=
  { state with
    neighbor := getNeighbor state.node e state.dir
    ei := rest
    seen := getNeighbor state.node e state.dir :: state.seen
    explore :=
      if state.currDepth < v.length - 1 then
        Function.update state.explore (state.currDepth + 1)
          (state.explore (state.currDepth + 1) ++ [getNeighbor state.node e state.dir])
      else state.explore }

/-- The state at the edges of the next node of the queue. -/
def exploring (graph : Graph) (state : BFSNeighborhood) (front : Nat) (queue : List Nat) :
    BFSNeighborhood :=
  { state with
    node := front
    ei := graph.edgeRefs front ⟨state.dir, state.tag⟩
    explore := Function.update state.explore state.currDepth queue }

/-- The state one hop further away. -/
def descended (v : List EdgeConstraint) (state : BFSNeighborhood) : BFSNeighborhood :=
  { state with
    currDepth := state.currDepth + 1
    dir := (v.getD (state.currDepth + 1) ⟨none, 0⟩).dir
    tag := (v.getD (state.currDepth + 1) ⟨none, 0⟩).tag }

/-- Enough turns give these nodes. -/
def Visits (graph : Graph) (v : List EdgeConstraint) (state : BFSNeighborhood)
    (found : List (Nat × Nat)) : Prop :=
  ∃ turns, ∀ more, turns ≤ more → visit graph v more state = some found

theorem visits_of_again {next : BFSNeighborhood} {found : List (Nat × Nat)}
    (again : turn graph v state = .again next) (visits : Visits graph v next found) :
    Visits graph v state found := by
  obtain ⟨turns, visits⟩ := visits
  refine ⟨turns + 1, fun more enough => ?_⟩
  cases more with
  | zero => omega
  | succ more =>
      rw [visit, again]
      exact visits more (Nat.le_of_succ_le_succ enough)

theorem visits_skipped {found : List (Nat × Nat)} (isEi : state.ei = e :: rest)
    (isSeen : getNeighbor state.node e state.dir ∈ state.seen)
    (visits : Visits graph v (skipped state e rest) found) : Visits graph v state found := by
  apply visits_of_again _ visits
  rw [turn, isEi]
  exact if_pos isSeen

theorem visits_foundAt {found : List (Nat × Nat)} (isEi : state.ei = e :: rest)
    (fresh : getNeighbor state.node e state.dir ∉ state.seen)
    (visits : Visits graph v (foundAt v state e rest) found) :
    Visits graph v state
      ((getNeighbor state.node e state.dir, state.currDepth + 1) :: found) := by
  obtain ⟨turns, visits⟩ := visits
  refine ⟨turns + 1, fun more enough => ?_⟩
  cases more with
  | zero => omega
  | succ more =>
      have rest := visits more (Nat.le_of_succ_le_succ enough)
      rw [foundAt] at rest
      rw [visit, turn, isEi]
      dsimp only
      rw [if_neg fresh]
      dsimp only
      rw [List.tail_cons, rest]
      rfl

theorem visits_exploring {found : List (Nat × Nat)} (isEi : state.ei = [])
    (isQueue : state.explore state.currDepth = front :: queue)
    (visits : Visits graph v (exploring graph state front queue) found) :
    Visits graph v state found := by
  apply visits_of_again _ visits
  rw [turn, isEi]
  dsimp only
  rw [if_neg (by rw [isQueue]; exact List.cons_ne_nil _ _), nextNode, isQueue]
  rfl

theorem visits_descended {found : List (Nat × Nat)} (isEi : state.ei = [])
    (isQueue : state.explore state.currDepth = []) (more : state.currDepth + 1 < v.length)
    (isNext : state.explore (state.currDepth + 1) = front :: queue)
    (visits : Visits graph v (exploring graph (descended v state) front queue) found) :
    Visits graph v state found := by
  have notLast : ¬ (v.length ≤ state.currDepth + 1 ∨ state.explore (state.currDepth + 1) = []) :=
    not_or.mpr ⟨Nat.not_le.mpr more, by rw [isNext]; exact List.cons_ne_nil _ _⟩
  apply visits_of_again _ visits
  rw [turn, isEi]
  dsimp only
  rw [if_pos isQueue, if_neg notLast, nextNode]
  dsimp only
  rw [isNext]
  rfl

theorem visits_exhausted (isEi : state.ei = []) (isQueue : state.explore state.currDepth = [])
    (isLast : v.length ≤ state.currDepth + 1 ∨ state.explore (state.currDepth + 1) = []) :
    Visits graph v state [] := by
  refine ⟨1, fun more enough => ?_⟩
  cases more with
  | zero => omega
  | succ more =>
      rw [visit, turn, isEi]
      dsimp only
      rw [if_pos isQueue, if_pos isLast]

theorem explore_foundAt (v : List EdgeConstraint) (state : BFSNeighborhood) (e : EdgeRef)
    (rest : List EdgeRef) {depth : Nat} (different : depth ≠ state.currDepth + 1) :
    (foundAt v state e rest).explore depth = state.explore depth := by
  rw [foundAt]
  dsimp only
  split_ifs
  · exact Function.update_of_ne different _ _
  · rfl

/-- Each turn leaves fewer edges, or fewer nodes in the queue, or fewer depths. -/
theorem turn_induction (graph : Graph) (v : List EdgeConstraint)
    {motive : BFSNeighborhood → Prop}
    (skip : ∀ state e rest, state.ei = e :: rest →
      getNeighbor state.node e state.dir ∈ state.seen → motive (skipped state e rest) →
      motive state)
    (find : ∀ state e rest, state.ei = e :: rest →
      getNeighbor state.node e state.dir ∉ state.seen → motive (foundAt v state e rest) →
      motive state)
    (explore : ∀ state front queue, state.ei = [] →
      state.explore state.currDepth = front :: queue →
      motive (exploring graph state front queue) → motive state)
    (descend : ∀ state front queue, state.ei = [] → state.explore state.currDepth = [] →
      state.currDepth + 1 < v.length → state.explore (state.currDepth + 1) = front :: queue →
      motive (exploring graph (descended v state) front queue) → motive state)
    (exhausted : ∀ state, state.ei = [] → state.explore state.currDepth = [] →
      v.length ≤ state.currDepth + 1 ∨ state.explore (state.currDepth + 1) = [] → motive state)
    (state : BFSNeighborhood) : motive state := by
  cases isEi : state.ei with
  | cons e rest =>
      by_cases isSeen : getNeighbor state.node e state.dir ∈ state.seen
      · exact skip state e rest isEi isSeen
          (turn_induction graph v skip find explore descend exhausted _)
      · exact find state e rest isEi isSeen
          (turn_induction graph v skip find explore descend exhausted _)
  | nil =>
      cases isQueue : state.explore state.currDepth with
      | cons front queue =>
          exact explore state front queue isEi isQueue
            (turn_induction graph v skip find explore descend exhausted _)
      | nil =>
          by_cases more : state.currDepth + 1 < v.length
          · cases isNext : state.explore (state.currDepth + 1) with
            | nil => exact exhausted state isEi isQueue (.inr isNext)
            | cons front queue =>
                exact descend state front queue isEi isQueue more isNext
                  (turn_induction graph v skip find explore descend exhausted _)
          · exact exhausted state isEi isQueue (.inl (Nat.not_lt.mp more))
termination_by (v.length - state.currDepth, (state.explore state.currDepth).length,
  state.ei.length)
decreasing_by
  · exact Prod.Lex.left _ _ (Nat.sub_succ_lt_self _ _ (by omega))
  · have isRest : (exploring graph state front queue).explore
        (exploring graph state front queue).currDepth = queue := Function.update_self _ _ _
    refine Prod.Lex.right _ (Prod.Lex.left _ _ ?_)
    rw [isRest, isQueue]
    exact Nat.lt_succ_self _
  · refine Prod.Lex.right _ (Prod.Lex.right _ ?_)
    rw [isEi]
    exact Nat.lt_succ_self _
  · have sameDepth : (foundAt v state e rest).currDepth = state.currDepth := rfl
    rw [sameDepth, explore_foundAt v state e rest (Nat.ne_of_lt (Nat.lt_succ_self _))]
    refine Prod.Lex.right _ (Prod.Lex.right _ ?_)
    rw [isEi]
    exact Nat.lt_succ_self _

end

/-! ## Neighbours -/

/-- An edge leads from one node to the other in the direction and has the tag. -/
def Adjacent (graph : Graph) (constraint : EdgeConstraint) (n neighbor : Nat) : Prop :=
  ∃ edge ends, graph.edges edge = some ends ∧
    (constraint.tag = 0 ∨ ends.tag = constraint.tag) ∧
    (constraint.dir ≠ some .incoming ∧ ends.src = n ∧ ends.dest = neighbor ∨
      constraint.dir ≠ some .outgoing ∧ ends.dest = n ∧ ends.src = neighbor)

variable {graph : Graph} {constraint : EdgeConstraint} {n neighbor : Nat}

theorem exists_selected_node {index : EdgeIndex} {tag : Tag} :
    (∃ position ∈ index.selected tag, position.node = neighbor) ↔
      ∃ entry ∈ index.entries, entry.node = neighbor ∧ (tag = 0 ∨ entry.tag = tag) := by
  constructor
  · rintro ⟨position, isPosition, rfl⟩
    obtain ⟨entry, isEntry, -, sameNode, isTag⟩ := selected_edge_mem isPosition
    exact ⟨entry, isEntry, sameNode, isTag⟩
  · rintro ⟨entry, isEntry, rfl, isTag⟩
    obtain ⟨position, isPosition, -, sameNode⟩ := mem_selected_of_entry isEntry isTag
    exact ⟨position, isPosition, sameNode⟩

theorem mem_edgeRefs {e : EdgeRef} : e ∈ graph.edgeRefs n constraint ↔
    (constraint.dir ≠ some .outgoing ∧
      ∃ position ∈ (graph.index n .incoming).selected constraint.tag, ⟨position.node, n⟩ = e) ∨
    constraint.dir ≠ some .incoming ∧
      ∃ position ∈ (graph.index n .outgoing).selected constraint.tag, ⟨n, position.node⟩ = e := by
  rw [Graph.edgeRefs, List.mem_append]
  split_ifs with isOut isIn isIn
  · cases isOut.symm.trans isIn
  · simp [isOut]
  · simp [isIn]
  · simp [isOut, isIn]

/-- The neighbours at the edges that the iterator goes through are the adjacent nodes. -/
theorem exists_getNeighbor (wellFormed : Graph.WellFormed graph) :
    (∃ e ∈ graph.edgeRefs n constraint, getNeighbor n e constraint.dir = neighbor) ↔
      Adjacent graph constraint n neighbor := by
  have listed := wellFormed.shape.listed n
  have incoming (node : Nat) (asked : constraint.dir ≠ some .outgoing) :
      getNeighbor n ⟨node, n⟩ constraint.dir = node := by
    rcases constraint with ⟨_ | _ | _, tag⟩
    · by_cases same : node = n <;> simp [getNeighbor, same]
    · exact absurd rfl asked
    · rfl
  have outgoing (node : Nat) (asked : constraint.dir ≠ some .incoming) :
      getNeighbor n ⟨n, node⟩ constraint.dir = node := by
    rcases constraint with ⟨_ | _ | _, tag⟩
    · simp [getNeighbor]
    · rfl
    · exact absurd rfl asked
  constructor
  · rintro ⟨e, isRef, isNeighbor⟩
    rcases mem_edgeRefs.mp isRef with ⟨asked, position, isPosition, rfl⟩ |
      ⟨asked, position, isPosition, rfl⟩
    · rw [incoming _ asked] at isNeighbor
      obtain ⟨entry, isEntry, sameNode, isTag⟩ :=
        exists_selected_node.mp ⟨position, isPosition, isNeighbor⟩
      exact ⟨entry.edge, _, (listed .incoming entry).mp isEntry, isTag,
        .inr ⟨asked, rfl, sameNode⟩⟩
    · rw [outgoing _ asked] at isNeighbor
      obtain ⟨entry, isEntry, sameNode, isTag⟩ :=
        exists_selected_node.mp ⟨position, isPosition, isNeighbor⟩
      exact ⟨entry.edge, _, (listed .outgoing entry).mp isEntry, isTag,
        .inl ⟨asked, rfl, sameNode⟩⟩
  · rintro ⟨edge, ends, isEdge, isTag, ⟨asked, rfl, rfl⟩ | ⟨asked, rfl, rfl⟩⟩
    · have isEntry : (⟨ends.tag, edge, ends.dest⟩ : Entry) ∈
          (graph.index ends.src .outgoing).entries := (listed .outgoing _).mpr isEdge
      obtain ⟨position, isPosition, sameNode⟩ := exists_selected_node.mpr ⟨_, isEntry, rfl, isTag⟩
      exact ⟨⟨ends.src, position.node⟩, mem_edgeRefs.mpr (.inr ⟨asked, position, isPosition, rfl⟩),
        (outgoing _ asked).trans sameNode⟩
    · have isEntry : (⟨ends.tag, edge, ends.src⟩ : Entry) ∈
          (graph.index ends.dest .incoming).entries := (listed .incoming _).mpr isEdge
      obtain ⟨position, isPosition, sameNode⟩ := exists_selected_node.mpr ⟨_, isEntry, rfl, isTag⟩
      exact ⟨⟨position.node, ends.dest⟩, mem_edgeRefs.mpr (.inl ⟨asked, position, isPosition, rfl⟩),
        (incoming _ asked).trans sameNode⟩

/-! ## The frontier -/

/-- All nodes up to the current depth have been seen; those at this depth have been explored
but for the ones in its queue and what is left of the current one; what has been found one hop
further is in the next queue. -/
structure Frontier (graph : Graph) (constraint : EdgeConstraint) (n hops : Nat)
    (found : List (Nat × Nat)) (state : BFSNeighborhood) : Prop where
  dir : state.dir = constraint.dir
  tag : state.tag = constraint.tag
  depth : state.currDepth < hops
  seen : ∀ node, node ∈ state.seen ↔ node = n ∨ node ∈ found.map Prod.fst
  nodup : (n :: found.map Prod.fst).Nodup
  distances : ∀ node distance, (node, distance) ∈ found →
    IsDistance (Adjacent graph constraint) n distance node ∧ distance ≤ state.currDepth + 1
  sorted : (found.map Prod.snd).Pairwise (· ≤ ·)
  below : ∀ node distance, distance ≤ state.currDepth →
    IsDistance (Adjacent graph constraint) n distance node → node ∈ state.seen
  edges : ∀ e ∈ state.ei, IsDistance (Adjacent graph constraint) n state.currDepth state.node ∧
    Adjacent graph constraint state.node (getNeighbor state.node e state.dir)
  queue : ∀ node ∈ state.explore state.currDepth,
    IsDistance (Adjacent graph constraint) n state.currDepth node
  explored : ∀ node, IsDistance (Adjacent graph constraint) n state.currDepth node →
    node ∈ state.explore state.currDepth ∨ ∀ neighbor, Adjacent graph constraint node neighbor →
      neighbor ∈ state.seen ∨
        node = state.node ∧ ∃ e ∈ state.ei, getNeighbor node e state.dir = neighbor
  nextQueue : state.currDepth + 1 < hops → ∀ node,
    node ∈ state.explore (state.currDepth + 1) ↔ (node, state.currDepth + 1) ∈ found
  later : ∀ depth, state.currDepth + 1 < depth → state.explore depth = []

/-- The nodes found are those up to a number of hops, in the order of their distances. -/
structure Complete (graph : Graph) (constraint : EdgeConstraint) (n hops : Nat)
    (found : List (Nat × Nat)) : Prop where
  nodup : (found.map Prod.fst).Nodup
  sorted : (found.map Prod.snd).Pairwise (· ≤ ·)
  iff : ∀ node distance, (node, distance) ∈ found ↔
    1 ≤ distance ∧ distance ≤ hops ∧ IsDistance (Adjacent graph constraint) n distance node

namespace Frontier

variable {hops : Nat} {found : List (Nat × Nat)} {state : BFSNeighborhood} {e : EdgeRef}
  {rest : List EdgeRef}

/-- A neighbour that has been seen. -/
theorem skip (frontier : Frontier graph constraint n hops found state) (isEi : state.ei = e :: rest)
    (isSeen : getNeighbor state.node e state.dir ∈ state.seen) (neighbor : Nat) :
    Frontier graph constraint n hops found { state with neighbor, ei := rest } :=
  { frontier with
    edges := fun other member => frontier.edges other (isEi ▸ List.mem_cons_of_mem e member)
    explored := by
      intro node isDistance
      refine (frontier.explored node isDistance).imp_right fun explored neighbor adjacent => ?_
      rcases explored neighbor adjacent with old | ⟨isNode, other, isEdge, isNeighbor⟩
      · exact .inl old
      · rcases List.mem_cons.mp (isEi ▸ isEdge) with rfl | isRest
        · rw [isNode] at isNeighbor
          exact .inl (isNeighbor ▸ isSeen)
        · exact .inr ⟨isNode, other, isRest, isNeighbor⟩ }

/-- A neighbour that has not been seen is one hop further away. -/
theorem distance_of_unseen (frontier : Frontier graph constraint n hops found state)
    (isEi : state.ei = e :: rest)
    (unseen : getNeighbor state.node e state.dir ∉ state.seen) :
    IsDistance (Adjacent graph constraint) n (state.currDepth + 1)
      (getNeighbor state.node e state.dir) := by
  obtain ⟨isDistance, adjacent⟩ := frontier.edges e (isEi ▸ List.mem_cons_self)
  obtain ⟨least, within, isLeast⟩ := isDistance.exists_of_step adjacent
  rcases Nat.le_or_eq_of_le_succ within with below | rfl
  · exact absurd (frontier.below _ least below isLeast) unseen
  · exact isLeast

/-- A neighbour that has not been seen is found, and `next` goes on behind its edge. -/
theorem find (frontier : Frontier graph constraint n hops found state) (isEi : state.ei = e :: rest)
    (unseen : getNeighbor state.node e state.dir ∉ state.seen) :
    Frontier graph constraint n hops
      (found ++ [(getNeighbor state.node e state.dir, state.currDepth + 1)])
      { state with
        neighbor := getNeighbor state.node e state.dir
        ei := rest
        seen := getNeighbor state.node e state.dir :: state.seen
        explore :=
          if state.currDepth < hops - 1 then
            Function.update state.explore (state.currDepth + 1)
              (state.explore (state.currDepth + 1) ++ [getNeighbor state.node e state.dir])
          else state.explore } := by
  have isDistance := frontier.distance_of_unseen isEi unseen
  have old := frontier.distances
  generalize isNew : getNeighbor state.node e state.dir = new at *
  have others {depth : Nat} (different : depth ≠ state.currDepth + 1) :
      (if state.currDepth < hops - 1 then
        Function.update state.explore (state.currDepth + 1)
          (state.explore (state.currDepth + 1) ++ [new])
      else state.explore) depth = state.explore depth := by
    split_ifs
    · exact Function.update_of_ne different _ _
    · rfl
  constructor
  · exact frontier.dir
  · exact frontier.tag
  · exact frontier.depth
  · intro node
    rw [List.mem_cons, frontier.seen, List.map_append, List.mem_append]
    simp only [List.map_cons, List.map_nil, List.mem_singleton]
    grind
  · have fresh := mt (frontier.seen new).mpr unseen
    rw [List.map_append, ← List.cons_append]
    refine List.nodup_append.mpr ⟨frontier.nodup, List.nodup_singleton _, ?_⟩
    rintro node isOld _ isLast rfl
    obtain rfl := List.mem_singleton.mp isLast
    exact fresh (List.mem_cons.mp isOld)
  · intro node distance member
    rcases List.mem_append.mp member with before | isLast
    · exact old node distance before
    · obtain ⟨rfl, rfl⟩ := Prod.mk.inj (List.mem_singleton.mp isLast)
      exact ⟨isDistance, le_rfl⟩
  · rw [List.map_append]
    refine List.pairwise_append.mpr ⟨frontier.sorted, List.pairwise_singleton _ _, ?_⟩
    intro distance isOld last isLast
    obtain ⟨⟨node, _⟩, member, rfl⟩ := List.mem_map.mp isOld
    obtain rfl := List.mem_singleton.mp isLast
    exact (old node _ member).2
  · exact fun node distance below isNode =>
      List.mem_cons_of_mem _ (frontier.below node distance below isNode)
  · exact fun other member => frontier.edges other (isEi ▸ List.mem_cons_of_mem e member)
  · dsimp only
    rw [others (Nat.ne_of_lt (Nat.lt_succ_self _))]
    exact frontier.queue
  · dsimp only
    rw [others (Nat.ne_of_lt (Nat.lt_succ_self _))]
    intro node isNode
    refine (frontier.explored node isNode).imp_right fun explored neighbor adjacent => ?_
    rcases explored neighbor adjacent with isSeen | ⟨rfl, other, isEdge, isNeighbor⟩
    · exact .inl (List.mem_cons_of_mem _ isSeen)
    · rcases List.mem_cons.mp (isEi ▸ isEdge) with rfl | isRest
      · exact .inl (List.mem_cons.mpr (.inl (isNeighbor.symm.trans isNew)))
      · exact .inr ⟨rfl, other, isRest, isNeighbor⟩
  · intro more node
    have more : state.currDepth + 1 < hops := more
    have isLess : state.currDepth < hops - 1 := by omega
    simp only [isLess, if_true, Function.update_self, List.mem_append, List.mem_singleton,
      frontier.nextQueue more node, Prod.mk.injEq, and_true]
  · intro depth deeper
    dsimp only
    rw [others (Nat.ne_of_gt deeper)]
    exact frontier.later depth deeper

/-- The next node of the queue. -/
theorem explore {front : Nat} {queue : List Nat} (wellFormed : Graph.WellFormed graph)
    (frontier : Frontier graph constraint n hops found state) (isEi : state.ei = [])
    (isQueue : state.explore state.currDepth = front :: queue) :
    Frontier graph constraint n hops found
      { state with
        node := front
        ei := graph.edgeRefs front ⟨state.dir, state.tag⟩
        explore := Function.update state.explore state.currDepth queue } := by
  have isFront := frontier.queue front (isQueue ▸ List.mem_cons_self)
  have sameConstraint : (⟨state.dir, state.tag⟩ : EdgeConstraint) = constraint := by
    rw [frontier.dir, frontier.tag]
  have later {depth : Nat} (deeper : state.currDepth < depth) :
      Function.update state.explore state.currDepth queue depth = state.explore depth :=
    Function.update_of_ne (Nat.ne_of_gt deeper) _ _
  constructor
  · exact frontier.dir
  · exact frontier.tag
  · exact frontier.depth
  · exact frontier.seen
  · exact frontier.nodup
  · exact frontier.distances
  · exact frontier.sorted
  · exact frontier.below
  · intro e isEdge
    rw [sameConstraint] at isEdge
    refine ⟨isFront, (exists_getNeighbor wellFormed).mp ⟨e, isEdge, ?_⟩⟩
    rw [← frontier.dir]
  · dsimp only
    rw [Function.update_self]
    exact fun node member => frontier.queue node (isQueue ▸ List.mem_cons_of_mem front member)
  · dsimp only
    rw [Function.update_self, sameConstraint]
    intro node isNode
    rcases frontier.explored node isNode with isQueued | explored
    · rcases List.mem_cons.mp (isQueue ▸ isQueued) with rfl | isLater
      · refine .inr fun neighbor adjacent => .inr ⟨rfl, ?_⟩
        rw [frontier.dir]
        exact (exists_getNeighbor wellFormed).mpr adjacent
      · exact .inl isLater
    · refine .inr fun neighbor adjacent => .inl ?_
      rcases explored neighbor adjacent with isSeen | ⟨-, e, isEdge, -⟩
      · exact isSeen
      · rw [isEi] at isEdge
        cases isEdge
  · dsimp only
    rw [later (Nat.lt_succ_self _)]
    exact frontier.nextQueue
  · intro depth deeper
    dsimp only
    rw [later (Nat.lt_of_succ_lt deeper)]
    exact frontier.later depth deeper

/-- All nodes at the next depth have been seen when the current depth is done with. -/
theorem seen_next (frontier : Frontier graph constraint n hops found state)
    (isEi : state.ei = []) (isQueue : state.explore state.currDepth = []) {node distance : Nat}
    (within : distance ≤ state.currDepth + 1)
    (isNode : IsDistance (Adjacent graph constraint) n distance node) : node ∈ state.seen := by
  rcases Nat.le_or_eq_of_le_succ within with below | rfl
  · exact frontier.below node distance below isNode
  · obtain ⟨previous, isPrevious, adjacent⟩ := isNode.exists_previous
    rcases frontier.explored previous isPrevious with isQueued | explored
    · rw [isQueue] at isQueued
      cases isQueued
    · rcases explored node adjacent with isSeen | ⟨-, e, isEdge, -⟩
      · exact isSeen
      · rw [isEi] at isEdge
        cases isEdge

/-- A node that has been seen at a positive distance has been found. -/
theorem found_of_seen (frontier : Frontier graph constraint n hops found state)
    {node distance : Nat} (isSeen : node ∈ state.seen) (positive : 1 ≤ distance)
    (isNode : IsDistance (Adjacent graph constraint) n distance node) :
    (node, distance) ∈ found := by
  rcases (frontier.seen node).mp isSeen with rfl | isFound
  · have isZero := isNode.unique (IsDistance.zero_iff.mpr rfl)
    omega
  · obtain ⟨⟨_, other⟩, member, rfl⟩ := List.mem_map.mp isFound
    obtain rfl := isNode.unique (frontier.distances _ _ member).1
    exact member

/-- The next depth. -/
theorem descend (frontier : Frontier graph constraint n hops found state) (isEi : state.ei = [])
    (isQueue : state.explore state.currDepth = []) (more : state.currDepth + 1 < hops) :
    Frontier graph constraint n hops found
      { state with
        currDepth := state.currDepth + 1, dir := constraint.dir, tag := constraint.tag } := by
  have isNext := frontier.nextQueue more
  constructor
  · rfl
  · rfl
  · exact more
  · exact frontier.seen
  · exact frontier.nodup
  · exact fun node distance member =>
      ⟨(frontier.distances node distance member).1,
        Nat.le_succ_of_le (frontier.distances node distance member).2⟩
  · exact frontier.sorted
  · exact fun node distance within => frontier.seen_next isEi isQueue within
  · intro e isEdge
    dsimp only at isEdge
    rw [isEi] at isEdge
    cases isEdge
  · exact fun node member => (frontier.distances _ _ ((isNext node).mp member)).1
  · intro node isNode
    refine .inl ((isNext node).mpr ?_)
    exact frontier.found_of_seen (frontier.seen_next isEi isQueue le_rfl isNode)
      (Nat.succ_le_succ (Nat.zero_le _)) isNode
  · intro _ node
    dsimp only
    rw [frontier.later _ (Nat.lt_succ_self _)]
    refine iff_of_false List.not_mem_nil fun member => ?_
    have within := (frontier.distances _ _ member).2
    omega
  · exact fun depth deeper => frontier.later depth (Nat.lt_of_succ_lt deeper)

/-- Nothing is left to be found. -/
theorem complete (frontier : Frontier graph constraint n hops found state) (isEi : state.ei = [])
    (isQueue : state.explore state.currDepth = [])
    (isLast : hops ≤ state.currDepth + 1 ∨ state.explore (state.currDepth + 1) = []) :
    Complete graph constraint n hops found where
  nodup := (List.nodup_cons.mp frontier.nodup).2
  sorted := frontier.sorted
  iff := by
    have depth := frontier.depth
    intro node distance
    constructor
    · intro member
      obtain ⟨isNode, within⟩ := frontier.distances node distance member
      refine ⟨?_, by omega, isNode⟩
      by_contra notPositive
      obtain rfl : distance = 0 := by omega
      obtain rfl := IsDistance.zero_iff.mp isNode
      exact (List.nodup_cons.mp frontier.nodup).1 (List.mem_map_of_mem member)
    · rintro ⟨positive, within, isNode⟩
      refine frontier.found_of_seen (frontier.seen_next isEi isQueue ?_ isNode) positive isNode
      rcases isLast with isDeepest | noNext
      · omega
      · by_contra deeper
        obtain ⟨between, isBetween⟩ :=
          @IsDistance.exists_at _ _ _ _ (state.currDepth + 1) _ isNode (by omega)
        have isFound := frontier.found_of_seen
          (frontier.seen_next isEi isQueue le_rfl isBetween) (by omega) isBetween
        have isQueued := (frontier.nextQueue (by omega) between).mpr isFound
        rw [noNext] at isQueued
        cases isQueued

/-! ## The whole traversal -/

/-- Enough turns go through what is left of the neighbourhood. -/
def Finishes (graph : Graph) (constraint : EdgeConstraint) (n hops : Nat)
    (found : List (Nat × Nat)) (state : BFSNeighborhood) : Prop :=
  ∃ turns rest, (∀ more, turns ≤ more →
      visit graph (List.replicate hops constraint) more state = some rest) ∧
    Complete graph constraint n hops (found ++ rest)

theorem finishes_of_visits {rest : List (Nat × Nat)}
    (visits : Visits graph (List.replicate hops constraint) state rest)
    (complete : Complete graph constraint n hops (found ++ rest)) :
    Finishes graph constraint n hops found state := by
  obtain ⟨turns, visits⟩ := visits
  exact ⟨turns, rest, visits, complete⟩

theorem finishes (wellFormed : Graph.WellFormed graph) (found : List (Nat × Nat))
    (state : BFSNeighborhood) (frontier : Frontier graph constraint n hops found state) :
    Finishes graph constraint n hops found state := by
  induction state using turn_induction graph (List.replicate hops constraint)
    generalizing found with
  | skip state e rest isEi isSeen ih =>
      obtain ⟨turns, others, visits, complete⟩ := ih found (frontier.skip isEi isSeen _)
      exact finishes_of_visits (visits_skipped isEi isSeen ⟨turns, visits⟩) complete
  | find state e rest isEi fresh ih =>
      have next := frontier.find isEi fresh
      rw [foundAt, List.length_replicate] at ih
      obtain ⟨turns, others, visits, complete⟩ := ih _ next
      rw [List.append_assoc] at complete
      refine finishes_of_visits (visits_foundAt isEi fresh ⟨turns, ?_⟩) complete
      rwa [foundAt, List.length_replicate]
  | explore state front queue isEi isQueue ih =>
      obtain ⟨turns, others, visits, complete⟩ :=
        ih found (frontier.explore wellFormed isEi isQueue)
      exact finishes_of_visits (visits_exploring isEi isQueue ⟨turns, visits⟩) complete
  | descend state front queue isEi isQueue more isNext ih =>
      have within : state.currDepth + 1 < hops := List.length_replicate (n := hops) ▸ more
      have isConstraint : (List.replicate hops constraint).getD (state.currDepth + 1) ⟨none, 0⟩ =
          constraint := by
        rw [List.getD_eq_getElem?_getD, List.getElem?_replicate_of_lt within]
        rfl
      have next := (frontier.descend isEi isQueue within).explore wellFormed isEi isNext
      rw [descended, isConstraint] at ih
      obtain ⟨turns, others, visits, complete⟩ := ih found next
      refine finishes_of_visits (visits_descended isEi isQueue more isNext ⟨turns, ?_⟩) complete
      rwa [descended, isConstraint]
  | exhausted state isEi isQueue isLast =>
      rw [List.length_replicate] at isLast
      refine finishes_of_visits (visits_exhausted isEi isQueue ?_)
        ((List.append_nil found).symm ▸ frontier.complete isEi isQueue isLast)
      rwa [List.length_replicate]

end Frontier

theorem init_frontier {hops : Nat} (wellFormed : Graph.WellFormed graph) (positive : 0 < hops) :
    Frontier graph constraint n hops [] (init graph n (List.replicate hops constraint)) := by
  have isConstraint : (List.replicate hops constraint).getD 0 ⟨none, 0⟩ = constraint := by
    rw [List.getD_eq_getElem?_getD, List.getElem?_replicate_of_lt positive]
    rfl
  have isStart : IsDistance (Adjacent graph constraint) n 0 n := IsDistance.zero_iff.mpr rfl
  rw [init, isConstraint]
  constructor
  · rfl
  · rfl
  · exact positive
  · exact fun node => by simp
  · exact List.nodup_singleton n
  · exact fun _ _ member => absurd member List.not_mem_nil
  · exact List.Pairwise.nil
  · intro node distance below isNode
    obtain rfl := Nat.le_zero.mp below
    exact List.mem_singleton.mpr (IsDistance.zero_iff.mp isNode)
  · exact fun e isEdge => ⟨isStart, (exists_getNeighbor wellFormed).mp ⟨e, isEdge, rfl⟩⟩
  · exact fun _ member => absurd member List.not_mem_nil
  · intro node isNode
    obtain rfl := IsDistance.zero_iff.mp isNode
    exact .inr fun neighbor adjacent => .inr ⟨rfl, (exists_getNeighbor wellFormed).mpr adjacent⟩
  · exact fun _ _ => iff_of_false List.not_mem_nil List.not_mem_nil
  · exact fun _ _ => rfl

/-- Going through a neighbourhood comes to an end and gives each node within the hops once, in
the order of the distances and with its distance. -/
theorem visit_bfs (reachable : Graph.Reachable graph) (n : Nat) (constraint : EdgeConstraint)
    {hops : Nat} (positive : 0 < hops) :
    ∃ turns found, (∀ more, turns ≤ more → visit graph (List.replicate hops constraint) more
        (init graph n (List.replicate hops constraint)) = some found) ∧
      Complete graph constraint n hops found :=
  Frontier.finishes reachable.wellFormed [] _ (init_frontier reachable.wellFormed positive)

/-- A cycle of three nodes. -/
def cycle : List Graph.Action :=
  [.addNode 1, .addNode 2, .addNode 3, .addEdge 10 1 2 7 ⟨100, 101, 102, 103⟩,
    .addEdge 11 2 3 7 ⟨104, 105, 106, 107⟩, .addEdge 12 3 1 7 ⟨108, 109, 110, 111⟩]

example : ((LabelledRun.run Graph.step .empty cycle).bind fun graph =>
    visit graph (List.replicate 4 ⟨some .outgoing, 7⟩) 20
      (init graph 1 (List.replicate 4 ⟨some .outgoing, 7⟩))) = some [(2, 1), (3, 2)] := by
  decide

theorem visit_bfs_cycle : ∃ graph, LabelledRun.run Graph.step .empty cycle = some graph ∧
    ∃ turns found, (∀ more, turns ≤ more → visit graph (List.replicate 4 ⟨some .outgoing, 7⟩) more
        (init graph 1 (List.replicate 4 ⟨some .outgoing, 7⟩)) = some found) ∧
      Complete graph ⟨some .outgoing, 7⟩ 1 4 found := by
  let graph := (LabelledRun.run Graph.step .empty cycle).getD .empty
  have isRun : LabelledRun.run Graph.step .empty cycle = some graph := rfl
  exact ⟨graph, isRun, visit_bfs ⟨_, isRun⟩ 1 ⟨some .outgoing, 7⟩ (by decide)⟩

end BFSNeighborhood

end Pmgd
