import Pmgd.IterationComplete

/-!
# Visiting the edges of a node

A loop over the edges of a node, `for (EdgeIterator it = n.get_edges(..); it; it.next())`, reads at
each edge what the iterator reports of it.  No edge changes meanwhile, so that the iterator goes
along its path to the end; the tag that it reports is the one of the bucket that it is in.
-/

namespace Pmgd

open EdgeIndex

variable {graph : Graph} {n : Nat}

/-- What an iterator says about the edge it is at. -/
structure EdgeReport where
  dir : Direction
  edge : Nat
  source : Nat
  destination : Nat
  tag : Tag
  deriving DecidableEq, Repr

/-- The edge with the direction in which the iterator goes through it. -/
def EdgeReport.shown (report : EdgeReport) : Direction × Nat :=
  (report.dir, report.edge)

namespace EdgeIterator

/-- `ref`, and the accessors `get_edge`, `get_source`, `get_destination` and `get_tag`. -/
def report (graph : Graph) (iterator : EdgeIterator) : Except Fault EdgeReport :=
  if iterator.vacant then .error .vacantIterator
  else
    match iterator.pos with
    | none => .error .nullPointer
    | some address =>
        (positionAt (graph.index iterator.n1 iterator.dir) address).map fun position =>
          { dir := iterator.dir
            edge := position.edge
            source := if iterator.dir = .incoming then position.node else iterator.n1
            destination := if iterator.dir = .outgoing then position.node else iterator.n1
            tag := iterator.tag }

/-- The loop for so many rounds at most; `none` if it goes on. -/
def visit (graph : Graph) : Nat → EdgeIterator → Except Fault (Option (List EdgeReport))
  | 0, iterator => .ok (if iterator.isValid then none else some [])
  | rounds + 1, iterator =>
      if iterator.isValid then
        (iterator.report graph).bind fun report =>
          (iterator.next graph).bind fun moved =>
            (visit graph rounds moved).map fun reports => reports.map (report :: ·)
      else .ok (some [])

end EdgeIterator

/-- The forms of `get_edges`; a direction `none` is `Any`. -/
inductive EdgeQuery
  | all
  | direction (which : Option Direction)
  | tag (asked : Tag)
  | directionTag (which : Option Direction) (asked : Tag)
  deriving DecidableEq, Repr

namespace EdgeQuery

def getEdges (graph : Graph) (n : Nat) : EdgeQuery → Except Fault (Option EdgeIterator)
  | .all => graph.getEdges n
  | .direction which => graph.getEdgesDir n which
  | .tag asked => graph.getEdgesTag n asked
  | .directionTag which asked => graph.getEdgesDirTag n which asked

def which : EdgeQuery → Option Direction
  | .all => none
  | .direction which => which
  | .tag _ => none
  | .directionTag which _ => which

/-- The tag, 0 for every tag. -/
def asked : EdgeQuery → Tag
  | .all => 0
  | .direction _ => 0
  | .tag asked => asked
  | .directionTag _ asked => asked

/-- A loop over the edges; an iterator without an implementation has come to its end. -/
def visit (graph : Graph) (n : Nat) (rounds : Nat) (query : EdgeQuery) :
    Except Fault (Option (List EdgeReport)) :=
  (query.getEdges graph n).bind fun
    | none => .ok (some [])
    | some iterator => iterator.visit graph rounds

theorem getEdges_eq (query : EdgeQuery) :
    query.getEdges graph n = graph.getEdgesDirTag n query.which query.asked := by
  cases query with
  | all =>
      rw [getEdges, which, asked, Graph.getEdgesDirTag, Graph.getEdgesTag, if_pos rfl]
  | direction dir =>
      cases dir with
      | none =>
          rw [getEdges, which, asked, Graph.getEdgesDir, Graph.getEdgesDirTag, Graph.getEdgesTag,
            if_pos rfl]
      | some dir => rfl
  | tag asked => rfl
  | directionTag which asked => rfl

end EdgeQuery

/-! ## What an iterator has been told -/

variable {which : Option Direction} {asked : Tag}

theorem follower_mem {α : Type} {addressOf : α → Nat} {address : Nat} {elements : List α}
    {element : α} (follows : follower addressOf address elements = .ok (some element)) :
    element ∈ elements := by
  induction elements with
  | nil => cases follows
  | cons first rest ih =>
      rw [follower] at follows
      split_ifs at follows
      · exact List.mem_cons_of_mem first (List.mem_of_head? (Except.ok.inj follows))
      · exact List.mem_cons_of_mem first (ih follows)

namespace EdgeIterator

variable {iterator moved : EdgeIterator}

/-- There are outgoing edges if the iterator is to go on to them, and its tag is that of its
bucket. -/
structure Told (graph : Graph) (iterator : EdgeIterator) : Prop where
  outgoing : iterator.outIdx = true → graph.index iterator.n1 .outgoing ≠ []
  tag : ∀ address, iterator.keyPos = some address →
    ∃ key ∈ graph.index iterator.n1 iterator.dir, key.address = address ∧ key.key = iterator.tag

theorem Told.enter (told : Told graph iterator) {key : KeyPosition}
    (isKey : key ∈ graph.index iterator.n1 iterator.dir) : Told graph (iterator.enter key) := by
  refine ⟨told.outgoing, fun address isAddress => ⟨key, isKey, ?_, rfl⟩⟩
  exact Option.some.inj isAddress

theorem told_of_noTag (outgoing : iterator.outIdx = true → graph.index iterator.n1 .outgoing ≠ [])
    (noTag : iterator.keyPos = none) : Told graph iterator :=
  ⟨outgoing, fun address isAddress => by rw [noTag] at isAddress; cases isAddress⟩

theorem Told.switchDirection {noTag : Bool} (told : Told graph iterator)
    (isNone : iterator.keyPos = none)
    (switches : iterator.switchDirection graph noTag = .ok moved) : Told graph moved := by
  rw [EdgeIterator.switchDirection] at switches
  split_ifs at switches with isOut all
  · dsimp only at switches
    cases isIndex : graph.index iterator.n1 .outgoing with
    | nil =>
        rw [isIndex] at switches
        cases switches
    | cons key keys =>
        rw [isIndex] at switches
        obtain rfl := Except.ok.inj switches
        apply Told.enter
        · exact told_of_noTag (fun isTrue => by cases isTrue) isNone
        · exact isIndex ▸ List.mem_cons_self
  · obtain rfl := Except.ok.inj switches
    exact told_of_noTag (fun isTrue => by cases isTrue) isNone
  · obtain rfl := Except.ok.inj switches
    exact told

theorem Told.nextKey (told : Told graph iterator)
    (moves : iterator.nextKey graph = .ok moved) : Told graph moved := by
  rw [EdgeIterator.nextKey] at moves
  cases isKeyPos : iterator.keyPos with
  | none =>
      rw [isKeyPos] at moves
      exact told.switchDirection isKeyPos moves
  | some address =>
      rw [isKeyPos] at moves
      dsimp only at moves
      cases follows : follower KeyPosition.address address
          (graph.index iterator.n1 iterator.dir) with
      | error fault =>
          rw [follows] at moves
          cases moves
      | ok next =>
          rw [follows] at moves
          cases next with
          | some key =>
              obtain rfl := Except.ok.inj moves
              exact told.enter (follower_mem follows)
          | none =>
              let outside : EdgeIterator := { iterator with keyPos := none }
              have outsideTold : Told graph outside := told_of_noTag told.outgoing rfl
              exact outsideTold.switchDirection rfl moves

theorem Told.next (told : Told graph iterator) (moves : iterator.next graph = .ok moved) :
    Told graph moved := by
  rw [EdgeIterator.next] at moves
  split_ifs at moves
  · obtain rfl := Except.ok.inj moves
    exact ⟨told.outgoing, told.tag⟩
  · cases isPos : iterator.pos with
    | none =>
        rw [isPos] at moves
        exact told.nextKey moves
    | some address =>
        rw [isPos] at moves
        dsimp only at moves
        cases follows : nextPosition (graph.index iterator.n1 iterator.dir) address with
        | error fault =>
            rw [follows] at moves
            cases moves
        | ok next =>
            rw [follows] at moves
            cases next with
            | some position =>
                obtain rfl := Except.ok.inj moves
                exact ⟨told.outgoing, told.tag⟩
            | none =>
                let behind : EdgeIterator := { iterator with pos := none }
                have behindTold : Told graph behind := ⟨told.outgoing, told.tag⟩
                exact behindTold.nextKey moves

theorem told_start {dir : Direction} {outIdx : Bool}
    (outgoing : outIdx = true → graph.index n .outgoing ≠ [])
    (starts : start graph n dir outIdx = .ok iterator) : Told graph iterator := by
  rw [start] at starts
  cases isIndex : graph.index n dir with
  | nil =>
      rw [isIndex] at starts
      cases starts
  | cons key keys =>
      rw [isIndex] at starts
      obtain rfl := Except.ok.inj starts
      apply Told.enter
      · exact told_of_noTag outgoing rfl
      · exact isIndex ▸ List.mem_cons_self

theorem ne_nil_of_length {index : EdgeIndex} (positive : decide (index.length > 0) = true) :
    index ≠ [] :=
  List.ne_nil_of_length_pos (of_decide_eq_true positive)

theorem told_startBothTag (starts : startBothTag graph n asked = .ok iterator) :
    Told graph iterator := by
  rw [startBothTag] at starts
  have told : Told graph ⟨n, .incoming, decide ((graph.index n .outgoing).length > 0), none, asked,
      firstOf (graph.index n .incoming) asked, false⟩ := told_of_noTag ne_nil_of_length rfl
  dsimp only at starts
  split_ifs at starts
  · exact told.nextKey starts
  · obtain rfl := Except.ok.inj starts
    exact told

theorem map_some_eq {made : Except Fault EdgeIterator}
    (starts : made.map some = .ok (some iterator)) : made = .ok iterator := by
  cases made with
  | error fault => cases starts
  | ok first => exact congrArg Except.ok (Option.some.inj (Except.ok.inj starts))

theorem told_getEdges (starts : graph.getEdges n = .ok (some iterator)) : Told graph iterator := by
  rw [Graph.getEdges] at starts
  split_ifs at starts
  · cases starts
  · exact told_start (fun isTrue => by cases isTrue) (map_some_eq starts)
  · exact told_start ne_nil_of_length (map_some_eq starts)

theorem told_getEdgesDirTag (starts : graph.getEdgesDirTag n which asked = .ok (some iterator)) :
    Told graph iterator := by
  cases which with
  | some dir =>
      rw [Graph.getEdgesDirTag] at starts
      split_ifs at starts
      · rw [Graph.getEdgesDir] at starts
        split_ifs at starts
        · cases starts
        · exact told_start (fun isTrue => by cases isTrue) (map_some_eq starts)
      · obtain rfl := Option.some.inj (Except.ok.inj starts)
        exact told_of_noTag (fun isTrue => by cases isTrue) rfl
  | none =>
      rw [Graph.getEdgesDirTag, Graph.getEdgesTag] at starts
      split_ifs at starts
      · exact told_getEdges starts
      · cases starts
      · obtain rfl := Option.some.inj (Except.ok.inj starts)
        exact told_of_noTag (fun isTrue => by cases isTrue) rfl
      · exact told_startBothTag (map_some_eq starts)

end EdgeIterator

/-! ## What is visited -/

/-- A report is about an edge of the graph, and right. -/
def EdgeReport.IsRight (report : EdgeReport) (graph : Graph) : Prop :=
  ∃ ends, graph.edges report.edge = some ends ∧ report.source = ends.src ∧
    report.destination = ends.dest ∧ report.tag = ends.tag

namespace Ahead

open EdgeIterator Iteration

variable {iterator : EdgeIterator} {shown : List (Direction × Nat)}

theorem report_spec {first : Direction × Nat} (wellFormed : Graph.WellFormed graph)
    (ahead : Ahead graph n asked iterator (first :: shown)) (told : Told graph iterator)
    (notVacant : iterator.vacant = false) :
    ∃ report, iterator.report graph = .ok report ∧ report.shown = first ∧
      report.IsRight graph := by
  obtain ⟨rfl, -, ⟨-, isNil⟩ | ⟨before, position, after, cursor, isShown⟩⟩ := ahead
  · cases isNil
  obtain ⟨isFirst, -⟩ := List.cons.inj isShown
  have whole := wellFormed.shape.index iterator.n1 iterator.dir
  have inPath : position ∈ (graph.index iterator.n1 iterator.dir).selected asked := by
    rw [cursor.path]
    exact List.mem_append_right _ List.mem_cons_self
  have isElement := positionAt_eq whole.addresses inPath
  -- the bucket of the edge has the tag that the iterator remembers
  obtain ⟨key, isKey, isPosition, sameTag⟩ : ∃ key ∈ graph.index iterator.n1 iterator.dir,
      position ∈ key.list ∧ key.key = iterator.tag := by
    have bucket := cursor.bucket
    split_ifs at bucket with all
    · obtain ⟨key, isKey, isPosition, isKeyPos⟩ := bucket
      obtain ⟨other, isOther, sameAddress, sameTag⟩ := told.tag key.address isKeyPos
      have keys : ((graph.index iterator.n1 iterator.dir).map KeyPosition.address).Nodup := by
        have inAddresses := (addresses_perm_keys (graph.index iterator.n1 iterator.dir)).nodup_iff
        exact (inAddresses.mp whole.addresses).of_append_left
      have same : other = key := List.inj_on_of_nodup_map keys isOther isKey sameAddress
      exact ⟨key, isKey, isPosition, same ▸ sameTag⟩
    · obtain ⟨key, isKey, isAsked, isPosition⟩ := mem_selected.mp inPath
      exact ⟨key, isKey, isPosition, (isAsked.resolve_left all).trans bucket.2.symm⟩
  have isEntry : entryOf key.key position ∈ (graph.index iterator.n1 iterator.dir).entries :=
    mem_entries.mpr ⟨key, isKey, position, isPosition, rfl⟩
  have isEdge : graph.edges position.edge =
      some (Graph.edgeOf iterator.n1 iterator.dir (entryOf key.key position)) :=
    (wellFormed.shape.listed _ _ _).mp isEntry
  refine ⟨{ dir := iterator.dir
            edge := position.edge
            source := if iterator.dir = .incoming then position.node else iterator.n1
            destination := if iterator.dir = .outgoing then position.node else iterator.n1
            tag := iterator.tag }, ?_, ?_, _, isEdge, ?_, ?_, ?_⟩
  · rw [report, notVacant, cursor.pos]
    dsimp only
    rw [isElement]
    rfl
  · exact isFirst.symm
  · cases iterator.dir <;> rfl
  · cases iterator.dir <;> rfl
  · rw [← sameTag]
    cases iterator.dir <;> rfl

theorem visit_spec {rounds : Nat} (wellFormed : Graph.WellFormed graph)
    (ahead : Ahead graph n asked iterator shown) (told : Told graph iterator)
    (notVacant : iterator.vacant = false) (enough : shown.length ≤ rounds) :
    ∃ reports, iterator.visit graph rounds = .ok (some reports) ∧
      reports.map EdgeReport.shown = shown ∧
      ∀ report ∈ reports, report.IsRight graph := by
  have isValid : iterator.isValid = !shown.isEmpty := by
    rw [EdgeIterator.isValid, notVacant, Bool.false_or, ahead.isSome_pos]
  induction shown generalizing iterator rounds with
  | nil =>
      refine ⟨[], ?_, rfl, by simp⟩
      cases rounds with
      | zero => simp [visit, isValid]
      | succ rounds => simp [visit, isValid]
  | cons first shown ih =>
      cases rounds with
      | zero => simp at enough
      | succ rounds =>
          obtain ⟨report, reports, isShown, isRight⟩ := ahead.report_spec wellFormed told notVacant
          have notStuck : ¬ Stuck graph iterator := fun stuck =>
            told.outgoing stuck.1.2.1 stuck.2
          rcases ahead.next_cases (wellFormed.shape.index n) notVacant with
            ⟨-, moved, moves, stillNotVacant, -, later⟩ | ⟨stuck, -⟩
          · have movedValid : moved.isValid = !shown.isEmpty := by
              rw [EdgeIterator.isValid, stillNotVacant, Bool.false_or, later.isSome_pos]
            obtain ⟨rest, visits, areShown, areRight⟩ := ih later (told.next moves)
              stillNotVacant (Nat.le_of_succ_le_succ enough) movedValid
            refine ⟨report :: rest, ?_, ?_, ?_⟩
            · rw [visit, isValid]
              simp only [List.isEmpty_cons, Bool.not_false, if_true, reports, moves, visits,
                Except.bind, Except.map, Option.map_some]
            · rw [List.map_cons, isShown, areShown]
            · exact List.forall_mem_cons.mpr ⟨isRight, areRight⟩
          · exact absurd stuck notStuck

end Ahead

namespace EdgeQuery

open Iteration

/-- A loop over the edges of a node that match a query ends, and it meets each of them exactly
once for every direction asked for, with the right ends and the right tag. -/
theorem visit_complete (reachable : graph.Reachable) (n : Nat) (query : EdgeQuery) :
    ∃ reports, query.visit graph n (graph.rounds n) = .ok (some reports) ∧
      (reports.map EdgeReport.shown).Nodup ∧
      (∀ shown, shown ∈ reports.map EdgeReport.shown ↔
        Matches graph n query.which query.asked shown) ∧
      ∀ report ∈ reports, ∃ ends, graph.edges report.edge = some ends ∧
        report.source = ends.src ∧ report.destination = ends.dest ∧ report.tag = ends.tag := by
  have wellFormed := reachable.wellFormed
  rw [visit, getEdges_eq]
  rcases getEdges_ahead wellFormed n query.which query.asked with
    ⟨starts, isEmpty⟩ | ⟨iterator, starts, notVacant, ahead⟩
  · refine ⟨[], ?_, List.nodup_nil, fun shown => ?_, by simp⟩
    · rw [starts]
      rfl
    · rw [← mem_path wellFormed, isEmpty]
      rfl
  · obtain ⟨reports, visits, areShown, areRight⟩ := ahead.visit_spec wellFormed
      (EdgeIterator.told_getEdgesDirTag starts) notVacant (length_path_le graph n _ _)
    refine ⟨reports, ?_, ?_, fun shown => ?_, areRight⟩
    · rw [starts]
      exact visits
    · rw [areShown]
      exact path_nodup wellFormed
    · rw [areShown, mem_path wellFormed]

/-- A loop, and an edge in each direction. -/
def loopAndMore : List Graph.Action :=
  [.addNode 1, .addNode 2, .addEdge 10 1 1 7 ⟨100, 101, 102, 103⟩,
    .addEdge 11 2 1 8 ⟨104, 105, 106, 107⟩, .addEdge 12 1 2 7 ⟨108, 109, 110, 111⟩]

theorem visit_complete_loopAndMore : ∃ graph, LabelledRun.run Graph.step .empty loopAndMore =
      some graph ∧
    ∃ reports, visit graph 1 (graph.rounds 1) .all = .ok (some reports) ∧
      (reports.map EdgeReport.shown).Nodup := by
  let graph := (LabelledRun.run Graph.step .empty loopAndMore).getD .empty
  have isRun : LabelledRun.run Graph.step .empty loopAndMore = some graph := rfl
  obtain ⟨reports, visits, distinct, -⟩ := visit_complete ⟨_, isRun⟩ 1 .all
  exact ⟨graph, isRun, reports, visits, distinct⟩

example : ((LabelledRun.run Graph.step .empty loopAndMore).map fun graph =>
    ((visit graph 1 (graph.rounds 1) (.tag 7)).toOption.bind id).map
      (List.map EdgeReport.shown)) =
    some (some [(.incoming, 10), (.outgoing, 12), (.outgoing, 10)]) := by
  decide

end EdgeQuery

end Pmgd
