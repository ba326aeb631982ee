import Pmgd.Neighborhood
import Pmgd.Lib.FirstOccurrences

/-!
# The nodes at a number of hops

`get_nhop_neighbors` explores all levels but the last one when the iterator is constructed, and
goes through the neighbours of the nodes of the last level but one as it is asked for them.

A level has the first occurrences of the neighbours of the level before that have not been seen.
Both `get_nhop_neighbors` and `get_neighborhood` go through the levels in this order.
-/

namespace Pmgd

variable {graph : Graph} {n : Nat} {v : List EdgeConstraint}

/-- `NhopNeighborIteratorImpl`; the edge iterator is the list of the edges it has not yet gone
through. -/
structure NhopNeighbors where
  node : Nat
  ei : List EdgeRef
  dir : Option Direction
  tag : Tag
  seen : List Nat
  explore : List Nat
  neighbor : Nat

namespace NhopNeighbors

/-- What has been seen, and the nodes of the level that is being built. -/
structure Level where
  seen : List Nat
  exploreNext : List Nat

/-- `find_first` at the edge of a node. -/
def Level.insert (level : Level) (neighbor : Nat) : Level :=
  if neighbor ∈ level.seen then level
  else ⟨neighbor :: level.seen, level.exploreNext ++ [neighbor]⟩

/-- `find_first` at the edges of a node. -/
def exploreNode (graph : Graph) (constraint : EdgeConstraint) (level : Level) (n : Nat) : Level :=
  (graph.edgeRefs n constraint).foldl
    (fun level e => level.insert (getNeighbor n e constraint.dir)) level

/-- `find_first` at a depth; the result has the nodes to explore next. -/
def exploreLevel (graph : Graph) (level : Level) (constraint : EdgeConstraint) : Level :=
  level.exploreNext.foldl (exploreNode graph constraint) ⟨level.seen, []⟩

/-- `find_first`, before it calls `_next`, with the constructor around it. -/
def init (graph : Graph) (n : Nat) (v : List EdgeConstraint) : NhopNeighbors :=
  let constraint := v.getLastD ⟨none, 0⟩
  let level := v.dropLast.foldl (exploreLevel graph) ⟨[n], [n]⟩
  { node := n
    ei := []
    dir := constraint.dir
    tag := constraint.tag
    seen := level.seen
    explore := level.exploreNext
    neighbor := n }

/-- What one turn of the loops of `_next` comes to. -/
inductive Turn
  | found (state : NhopNeighbors)
  | again (state : NhopNeighbors)
  | exhausted

/-- One turn of the loops of `_next`. -/
def turn (graph : Graph) (state : NhopNeighbors) : Turn :=
  match state.ei with
  | e :: rest =>
      let neighbor := getNeighbor state.node e state.dir
      if neighbor ∈ state.seen then .again { state with neighbor, ei := rest }
      else .found { state with neighbor, seen := neighbor :: state.seen }
  | [] =>
      match state.explore with
      | [] => .exhausted
      | front :: rest =>
          .again { state with
            node := front
            ei := graph.edgeRefs front ⟨state.dir, state.tag⟩
            explore := rest }

/-- Go through the nodes: `_next` until it comes to a node or to the end, and `next` after each
node.  The number of turns is bounded; `none` if it is not enough. -/
def visit (graph : Graph) : Nat → NhopNeighbors → Option (List Nat)
  | 0, _ => none
  | turns + 1, state =>
      match turn graph state with
      | .exhausted => some []
      | .again state => visit graph turns state
      | .found state =>
          (visit graph turns { state with ei := state.ei.tail }).map (state.neighbor :: ·)

end NhopNeighbors

/-! ## Levels -/

/-- The neighbours at these edges of a node. -/
def neighborsAt (n : Nat) (dir : Option Direction) (edges : List EdgeRef) : List Nat :=
  edges.map fun e => getNeighbor n e dir

/-- The neighbours of the nodes of a queue. -/
def neighborsOf (graph : Graph) (constraint : EdgeConstraint) (queue : List Nat) : List Nat :=
  queue.flatMap fun n => neighborsAt n constraint.dir (graph.edgeRefs n constraint)

theorem neighborsOf_cons (constraint : EdgeConstraint) (front : Nat) (queue : List Nat) :
    neighborsOf graph constraint (front :: queue) =
      neighborsAt front constraint.dir (graph.edgeRefs front constraint) ++
        neighborsOf graph constraint queue :=
  List.flatMap_cons

/-- The levels behind a queue, one for each constraint. -/
def levels (graph : Graph) (seen queue : List Nat) : List EdgeConstraint → List (List Nat)
  | [] => []
  | constraint :: v =>
      let neighbors := neighborsOf graph constraint queue
      unseen seen neighbors :: levels graph (seenAfter seen neighbors) (unseen seen neighbors) v

/-- The nodes of the levels with their distances; the first level has this one. -/
def withDistances : Nat → List (List Nat) → List (Nat × Nat)
  | _, [] => []
  | distance, level :: levels =>
      level.map (fun node => (node, distance)) ++ withDistances (distance + 1) levels

theorem length_levels (graph : Graph) (seen queue : List Nat) (v : List EdgeConstraint) :
    (levels graph seen queue v).length = v.length := by
  induction v generalizing seen queue with
  | nil => rfl
  | cons constraint v ih => exact congrArg (· + 1) (ih _ _)

/-- There is nothing behind an empty queue. -/
theorem withDistances_levels_nil (graph : Graph) (seen : List Nat) (v : List EdgeConstraint)
    (distance : Nat) : withDistances distance (levels graph seen [] v) = [] := by
  induction v generalizing seen distance with
  | nil => rfl
  | cons constraint v ih => exact ih seen (distance + 1)

/-- Of the nodes of the levels the last level has the largest distance. -/
theorem filter_withDistances (distance : Nat) (parts : List (List Nat)) (nonempty : parts ≠ []) :
    ((withDistances distance parts).filter (·.2 = distance + parts.length - 1)).map Prod.fst =
      parts.getLastD [] := by
  induction parts generalizing distance with
  | nil => exact absurd rfl nonempty
  | cons level rest ih =>
      rw [withDistances, List.filter_append, List.map_append, List.length_cons]
      cases rest with
      | nil =>
          simp only [withDistances, List.length_nil, List.filter_nil, List.map_nil,
            List.append_nil, List.getLastD_cons, List.getLastD_nil]
          rw [List.filter_eq_self.mpr fun entry member => ?_, List.map_map]
          · exact List.map_id level
          · obtain ⟨node, -, rfl⟩ := List.mem_map.mp member
            exact decide_eq_true (by omega)
      | cons next rest =>
          have noneAtFirst : (level.map fun node => (node, distance)).filter
              (·.2 = distance + ((next :: rest).length + 1) - 1) = [] := by
            apply List.filter_eq_nil_iff.mpr
            intro entry member
            obtain ⟨node, -, rfl⟩ := List.mem_map.mp member
            rw [decide_eq_true_iff, List.length_cons]
            dsimp only
            omega
          have later := ih (distance + 1) (List.cons_ne_nil _ _)
          have same : distance + ((next :: rest).length + 1) - 1 =
              distance + 1 + (next :: rest).length - 1 := by omega
          rw [noneAtFirst, List.map_nil, List.nil_append, same, later, List.getLastD_cons,
            List.getLastD_cons, List.getLastD_cons]

/-! ## The levels that `get_neighborhood` goes through -/

namespace BFSNeighborhood

variable {state : BFSNeighborhood}

/-- The neighbours at the current depth that have not been looked at. -/
def ahead (graph : Graph) (state : BFSNeighborhood) : List Nat :=
  neighborsAt state.node state.dir state.ei ++
    neighborsOf graph ⟨state.dir, state.tag⟩ (state.explore state.currDepth)

/-- The nodes that are left, with their distances. -/
def remaining (graph : Graph) (v : List EdgeConstraint) (state : BFSNeighborhood) :
    List (Nat × Nat) :=
  (unseen state.seen (ahead graph state)).map (fun node => (node, state.currDepth + 1)) ++
    withDistances (state.currDepth + 2)
      (levels graph (seenAfter state.seen (ahead graph state))
        (state.explore (state.currDepth + 1) ++ unseen state.seen (ahead graph state))
        (v.drop (state.currDepth + 1)))

theorem ahead_cons {e : EdgeRef} {rest : List EdgeRef} (isEi : state.ei = e :: rest) :
    ahead graph state = getNeighbor state.node e state.dir ::
      (neighborsAt state.node state.dir rest ++
        neighborsOf graph ⟨state.dir, state.tag⟩ (state.explore state.currDepth)) := by
  rw [ahead, isEi]
  rfl

theorem ahead_nil (isEi : state.ei = []) (isQueue : state.explore state.currDepth = []) :
    ahead graph state = [] := by
  rw [ahead, isEi, isQueue]
  rfl

theorem remaining_skipped {e : EdgeRef} {rest : List EdgeRef} (isEi : state.ei = e :: rest)
    (isSeen : getNeighbor state.node e state.dir ∈ state.seen) :
    remaining graph v (skipped state e rest) = remaining graph v state := by
  rw [remaining, remaining, ahead_cons isEi, unseen_cons_of_mem isSeen,
    seenAfter_cons_of_mem isSeen]
  rfl

theorem ahead_foundAt (v : List EdgeConstraint) (state : BFSNeighborhood) (e : EdgeRef)
    (rest : List EdgeRef) : ahead graph (foundAt v state e rest) =
      neighborsAt state.node state.dir rest ++
        neighborsOf graph ⟨state.dir, state.tag⟩ (state.explore state.currDepth) := by
  have sameQueue : (foundAt v state e rest).explore (foundAt v state e rest).currDepth =
      state.explore state.currDepth :=
    explore_foundAt v state e rest (Nat.ne_of_lt (Nat.lt_succ_self _))
  rw [ahead, sameQueue]
  rfl

theorem remaining_foundAt {e : EdgeRef} {rest : List EdgeRef} (isEi : state.ei = e :: rest)
    (fresh : getNeighbor state.node e state.dir ∉ state.seen) :
    remaining graph v state = (getNeighbor state.node e state.dir, state.currDepth + 1) ::
      remaining graph v (foundAt v state e rest) := by
  rw [remaining, remaining, ahead_foundAt, ahead_cons isEi, unseen_cons_of_notMem fresh,
    seenAfter_cons_of_notMem fresh, List.map_cons, List.cons_append]
  generalize isLevel : unseen (getNeighbor state.node e state.dir :: state.seen) _ = level
  have sameLevel : unseen (foundAt v state e rest).seen (neighborsAt state.node state.dir rest ++
      neighborsOf graph ⟨state.dir, state.tag⟩ (state.explore state.currDepth)) = level := isLevel
  have sameDepth : (foundAt v state e rest).currDepth = state.currDepth := rfl
  rw [sameLevel, sameDepth]
  by_cases more : state.currDepth < v.length - 1
  · have isNext : (foundAt v state e rest).explore (state.currDepth + 1) =
        state.explore (state.currDepth + 1) ++ [getNeighbor state.node e state.dir] := by
      rw [foundAt]
      dsimp only
      rw [if_pos more, Function.update_self]
    rw [isNext, List.append_assoc]
    rfl
  · -- the queue behind the last level is not used
    have noMore : v.drop (state.currDepth + 1) = [] := List.drop_eq_nil_of_le (by omega)
    rw [noMore]
    rfl

theorem remaining_exploring {front : Nat} {queue : List Nat} (isEi : state.ei = [])
    (isQueue : state.explore state.currDepth = front :: queue) :
    remaining graph v (exploring graph state front queue) = remaining graph v state := by
  have isRest : (exploring graph state front queue).explore state.currDepth = queue :=
    Function.update_self _ _ _
  have isNext : (exploring graph state front queue).explore (state.currDepth + 1) =
      state.explore (state.currDepth + 1) :=
    Function.update_of_ne (Nat.ne_of_gt (Nat.lt_succ_self _)) _ _
  have sameAhead : ahead graph (exploring graph state front queue) = ahead graph state := by
    rw [ahead, ahead, isEi, isQueue, neighborsOf_cons]
    exact congrArg (neighborsAt front state.dir _ ++ neighborsOf graph _ ·) isRest
  have sameDepth : (exploring graph state front queue).currDepth = state.currDepth := rfl
  rw [remaining, remaining, sameAhead, sameDepth, isNext]
  rfl

theorem remaining_descended (isEi : state.ei = [])
    (isQueue : state.explore state.currDepth = []) (more : state.currDepth + 1 < v.length)
    (noLater : state.explore (state.currDepth + 2) = []) :
    remaining graph v (descended v state) = remaining graph v state := by
  have isConstraint : v.drop (state.currDepth + 1) =
      v.getD (state.currDepth + 1) ⟨none, 0⟩ :: v.drop (state.currDepth + 2) := by
    rw [List.drop_eq_getElem_cons more, List.getD_eq_getElem?_getD, List.getElem?_eq_getElem more]
    rfl
  have isAhead : ahead graph (descended v state) = neighborsOf graph
      (v.getD (state.currDepth + 1) ⟨none, 0⟩) (state.explore (state.currDepth + 1)) := by
    rw [ahead, descended]
    dsimp only
    rw [isEi]
    rfl
  have isNext : (descended v state).explore ((descended v state).currDepth + 1) = [] := noLater
  rw [remaining, remaining, isNext, isAhead, ahead_nil isEi isQueue, isConstraint, unseen_nil,
    seenAfter_nil, List.append_nil, List.nil_append, List.map_nil, List.nil_append]
  rfl

theorem remaining_exhausted (isEi : state.ei = []) (isQueue : state.explore state.currDepth = [])
    (isLast : v.length ≤ state.currDepth + 1 ∨ state.explore (state.currDepth + 1) = []) :
    remaining graph v state = [] := by
  rw [remaining, ahead_nil isEi isQueue, unseen_nil, List.append_nil, List.map_nil,
    List.nil_append]
  rcases isLast with isDeepest | noNext
  · rw [List.drop_eq_nil_of_le isDeepest]
    rfl
  · rw [noNext]
    exact withDistances_levels_nil graph _ _ _

/-- `get_neighborhood` goes through the levels. -/
theorem visits_remaining (graph : Graph) (v : List EdgeConstraint) (state : BFSNeighborhood)
    (noLater : ∀ depth, state.currDepth + 1 < depth → state.explore depth = []) :
    Visits graph v state (remaining graph v state) := by
  induction state using turn_induction graph v with
  | skip state e rest isEi isSeen ih =>
      apply visits_skipped isEi isSeen
      rw [← remaining_skipped isEi isSeen]
      exact ih noLater
  | find state e rest isEi fresh ih =>
      rw [remaining_foundAt isEi fresh]
      apply visits_foundAt isEi fresh
      apply ih
      intro depth deeper
      rw [explore_foundAt v state e rest (Nat.ne_of_gt deeper)]
      exact noLater depth deeper
  | explore state front queue isEi isQueue ih =>
      apply visits_exploring isEi isQueue
      rw [← remaining_exploring isEi isQueue]
      apply ih
      intro depth deeper
      have other : depth ≠ state.currDepth := Nat.ne_of_gt (Nat.lt_of_succ_lt deeper)
      exact (Function.update_of_ne other _ _).trans (noLater depth deeper)
  | descend state front queue isEi isQueue more isNext ih =>
      have isEiNext : (descended v state).ei = [] := isEi
      apply visits_descended isEi isQueue more isNext
      rw [← remaining_descended isEi isQueue more (noLater _ (Nat.lt_succ_self _)),
        ← remaining_exploring isEiNext isNext]
      apply ih
      intro depth deeper
      have other : depth ≠ state.currDepth + 1 := Nat.ne_of_gt (Nat.lt_of_succ_lt deeper)
      exact (Function.update_of_ne other _ _).trans (noLater depth (Nat.lt_of_succ_lt deeper))
  | exhausted state isEi isQueue isLast =>
      rw [remaining_exhausted isEi isQueue isLast]
      exact visits_exhausted isEi isQueue isLast

theorem visits_levels (graph : Graph) (n : Nat) (constraint : EdgeConstraint)
    (v : List EdgeConstraint) :
    Visits graph (constraint :: v) (init graph n (constraint :: v))
      (withDistances 1 (levels graph [n] [n] (constraint :: v))) := by
  have visits := visits_remaining graph (constraint :: v) (init graph n (constraint :: v))
    fun _ _ => rfl
  have isAhead : ahead graph (init graph n (constraint :: v)) =
      neighborsOf graph constraint [n] := by
    rw [neighborsOf_cons]
    rfl
  rw [remaining, isAhead] at visits
  exact visits

end BFSNeighborhood

/-! ## The levels that `get_nhop_neighbors` goes through -/

namespace NhopNeighbors

variable {state : NhopNeighbors}

theorem foldl_insert (neighbors : List Nat) (level : Level) :
    neighbors.foldl Level.insert level = ⟨seenAfter level.seen neighbors,
      level.exploreNext ++ unseen level.seen neighbors⟩ := by
  induction neighbors generalizing level with
  | nil => rw [unseen_nil, List.append_nil]; rfl
  | cons neighbor neighbors ih =>
      rw [List.foldl_cons, ih, Level.insert]
      by_cases isSeen : neighbor ∈ level.seen
      · rw [if_pos isSeen, unseen_cons_of_mem isSeen, seenAfter_cons_of_mem isSeen]
      · rw [if_neg isSeen, unseen_cons_of_notMem isSeen, seenAfter_cons_of_notMem isSeen,
          List.append_assoc]
        rfl

theorem foldl_exploreNode (graph : Graph) (constraint : EdgeConstraint) (queue : List Nat)
    (level : Level) : queue.foldl (exploreNode graph constraint) level =
      (neighborsOf graph constraint queue).foldl Level.insert level := by
  induction queue generalizing level with
  | nil => rfl
  | cons front queue ih =>
      rw [List.foldl_cons, ih, neighborsOf_cons, List.foldl_append, neighborsAt, List.foldl_map]
      rfl

/-- `find_first` builds the levels. -/
theorem exploreLevel_eq (graph : Graph) (constraint : EdgeConstraint) (level : Level) :
    exploreLevel graph level constraint =
      ⟨seenAfter level.seen (neighborsOf graph constraint level.exploreNext),
        unseen level.seen (neighborsOf graph constraint level.exploreNext)⟩ := by
  rw [exploreLevel, foldl_exploreNode, foldl_insert]
  rfl

theorem lastLevel_eq (graph : Graph) (nonempty : v ≠ []) (level : Level) :
    unseen (v.dropLast.foldl (exploreLevel graph) level).seen
        (neighborsOf graph (v.getLastD ⟨none, 0⟩)
          (v.dropLast.foldl (exploreLevel graph) level).exploreNext) =
      (levels graph level.seen level.exploreNext v).getLastD [] := by
  induction v generalizing level with
  | nil => exact absurd rfl nonempty
  | cons constraint v ih =>
      cases v with
      | nil => rfl
      | cons next v =>
          have last := ih (List.cons_ne_nil _ _) (exploreLevel graph level constraint)
          rw [List.dropLast_cons_cons, List.foldl_cons, List.getLastD_cons, levels,
            List.getLastD_cons]
          rw [List.getLastD_cons] at last ⊢
          rw [last, exploreLevel_eq, levels, List.getLastD_cons, List.getLastD_cons]

/-- Enough turns give these nodes. -/
def Visits (graph : Graph) (state : NhopNeighbors) (found : List Nat) : Prop :=
  ∃ turns, ∀ more, turns ≤ more → visit graph more state = some found

theorem visits_of_again {next : NhopNeighbors} {found : List Nat}
    (again : turn graph state = .again next) (visits : Visits graph next found) :
    Visits graph state found := by
  obtain ⟨turns, visits⟩ := visits
  refine ⟨turns + 1, fun more enough => ?_⟩
  cases more with
  | zero => omega
  | succ more =>
      rw [visit, again]
      exact visits more (Nat.le_of_succ_le_succ enough)

theorem visits_of_found {next : NhopNeighbors} {found : List Nat}
    (isFound : turn graph state = .found next)
    (visits : Visits graph { next with ei := next.ei.tail } found) :
    Visits graph state (next.neighbor :: found) := by
  obtain ⟨turns, visits⟩ := visits
  refine ⟨turns + 1, fun more enough => ?_⟩
  cases more with
  | zero => omega
  | succ more =>
      rw [visit, isFound]
      dsimp only
      rw [visits more (Nat.le_of_succ_le_succ enough)]
      rfl

/-- The edges of a node, in front of what is left without them. -/
theorem visits_edges {behind : List Nat}
    (visits : ∀ seen neighbor, Visits graph { state with ei := [], seen, neighbor }
      (unseen seen behind)) (ei : List EdgeRef) (seen : List Nat) (neighbor : Nat) :
    Visits graph { state with ei, seen, neighbor }
      (unseen seen (neighborsAt state.node state.dir ei ++ behind)) := by
  induction ei generalizing seen neighbor with
  | nil => exact visits seen neighbor
  | cons e rest ih =>
      rw [neighborsAt, List.map_cons, List.cons_append]
      by_cases isSeen : getNeighbor state.node e state.dir ∈ seen
      · rw [unseen_cons_of_mem isSeen]
        apply visits_of_again _ (ih seen (getNeighbor state.node e state.dir))
        exact if_pos isSeen
      · rw [unseen_cons_of_notMem isSeen]
        have isFound : turn graph { state with ei := e :: rest, seen, neighbor } =
            .found { state with
              ei := e :: rest
              seen := getNeighbor state.node e state.dir :: seen
              neighbor := getNeighbor state.node e state.dir } := if_neg isSeen
        exact visits_of_found isFound (ih _ _)

/-- `_next` and `next` go through what is left of the last level. -/
theorem visits_unseen (graph : Graph) (state : NhopNeighbors) :
    Visits graph state (unseen state.seen (neighborsAt state.node state.dir state.ei ++
      neighborsOf graph ⟨state.dir, state.tag⟩ state.explore)) := by
  obtain ⟨node, ei, dir, tag, seen, explore, neighbor⟩ := state
  dsimp only
  induction explore generalizing node ei seen neighbor with
  | nil =>
      apply @visits_edges graph ⟨node, [], dir, tag, seen, [], neighbor⟩
      intro seen neighbor
      refine ⟨1, fun more enough => ?_⟩
      cases more with
      | zero => omega
      | succ more => rfl
  | cons front queue ih =>
      apply @visits_edges graph ⟨node, [], dir, tag, seen, front :: queue, neighbor⟩
      intro seen neighbor
      rw [neighborsOf_cons]
      exact visits_of_again rfl (ih front (graph.edgeRefs front ⟨dir, tag⟩) seen neighbor)

/-- `get_nhop_neighbors` gives the nodes of the last level. -/
theorem visits_lastLevel (graph : Graph) (n : Nat) (nonempty : v ≠ []) :
    Visits graph (init graph n v) ((levels graph [n] [n] v).getLastD []) := by
  have visits := visits_unseen graph (init graph n v)
  rw [← lastLevel_eq graph nonempty ⟨[n], [n]⟩]
  exact visits

/-- The nodes of `get_nhop_neighbors` are those that `get_neighborhood` gives at the distance of
the number of constraints, in the same order. -/
theorem nhop_eq_lastLevel (graph : Graph) (n : Nat) {v : List EdgeConstraint}
    (nonempty : v ≠ []) :
    ∃ turns found nhop,
      (∀ more, turns ≤ more →
        BFSNeighborhood.visit graph v more (BFSNeighborhood.init graph n v) = some found ∧
        visit graph more (init graph n v) = some nhop) ∧
      nhop = (found.filter (·.2 = v.length)).map Prod.fst := by
  obtain ⟨constraint, rest, rfl⟩ := List.exists_cons_of_ne_nil nonempty
  obtain ⟨turns, visits⟩ := BFSNeighborhood.visits_levels graph n constraint rest
  obtain ⟨nhopTurns, nhopVisits⟩ := visits_lastLevel graph n nonempty
  refine ⟨max turns nhopTurns, _, _, fun more enough => ⟨visits more ?_, nhopVisits more ?_⟩, ?_⟩
  · exact (le_max_left _ _).trans enough
  · exact (le_max_right _ _).trans enough
  · have some_level : levels graph [n] [n] (constraint :: rest) ≠ [] := List.cons_ne_nil _ _
    have last := filter_withDistances 1 _ some_level
    rw [length_levels, Nat.add_sub_cancel_left] at last
    exact last.symm

/-- The nodes two hops from a node of a cycle of three nodes. -/
theorem nhop_eq_lastLevel_cycle :
    ∃ graph, LabelledRun.run Graph.step .empty BFSNeighborhood.cycle = some graph ∧
      ∃ turns found nhop,
        (∀ more, turns ≤ more →
          BFSNeighborhood.visit graph [⟨some .outgoing, 7⟩, ⟨none, 0⟩] more
            (BFSNeighborhood.init graph 1 [⟨some .outgoing, 7⟩, ⟨none, 0⟩]) = some found ∧
          visit graph more (init graph 1 [⟨some .outgoing, 7⟩, ⟨none, 0⟩]) = some nhop) ∧
        nhop = (found.filter (·.2 = 2)).map Prod.fst := by
  let graph := (LabelledRun.run Graph.step .empty BFSNeighborhood.cycle).getD .empty
  exact ⟨graph, rfl, nhop_eq_lastLevel graph 1 (List.cons_ne_nil _ _)⟩

example : ((LabelledRun.run Graph.step .empty BFSNeighborhood.cycle).bind fun graph =>
    visit graph 10 (init graph 1 [⟨some .outgoing, 7⟩, ⟨none, 0⟩])) = some [3] := by
  decide

end NhopNeighbors

end Pmgd
