import Pmgd.EdgeCursor

/-!
# Iterating over edges that are removed

A caller goes through the edges of a node by `next` and removes edges in between, the one it
is at or any other.  What the iterator has not yet shown is at every point what is left of the
path through the indexes that it set out on, so that each edge that stays is shown once.

The exception is the pointer to the first bucket of the outgoing edges.  An iterator without a
tag that was told at the start that there are outgoing edges follows it when it has gone
through the incoming ones, and it is NULL if the outgoing edges have been removed meanwhile.
-/

namespace Pmgd

open EdgeIndex LabelledRun

/-! ## The forms of `get_edges` -/

namespace EdgeIterator

/-- The constructor for one index and a tag. -/
def startTag (graph : Graph) (n : Nat) (dir : Direction) (tag : Tag) : EdgeIterator :=
  ⟨n, dir, false, none, tag, firstOf (graph.index n dir) tag, false⟩

/-- The constructor for both indexes and a tag. -/
def startBothTag (graph : Graph) (n : Nat) (tag : Tag) : Except Fault EdgeIterator :=
  let iterator : EdgeIterator :=
    ⟨n, .incoming, decide ((graph.index n .outgoing).length > 0), none, tag,
      firstOf (graph.index n .incoming) tag, false⟩
  if iterator.pos = none then iterator.nextKey graph else .ok iterator

/-- `operator bool`. -/
def isValid (iterator : EdgeIterator) : Bool :=
  iterator.vacant || iterator.pos.isSome

/-- The edge that the iterator is at, with the direction in which it goes through it. -/
def current (graph : Graph) (iterator : EdgeIterator) : Except Fault (List (Direction × Nat)) :=
  match iterator.pos with
  | none => .ok []
  | some address =>
      (positionAt (graph.index iterator.n1 iterator.dir) address).map fun position =>
        [(iterator.dir, position.edge)]

end EdgeIterator

namespace Graph

/-- `Node::get_edges(Direction)`; `none` is `Any`. -/
def getEdgesDir (graph : Graph) (n : Nat) : Option Direction → Except Fault (Option EdgeIterator)
  | none => graph.getEdges n
  | some dir =>
      if (graph.index n dir).length ≤ 0 then .ok none
      else (EdgeIterator.start graph n dir false).map some

/-- `Node::get_edges(StringID)`. -/
def getEdgesTag (graph : Graph) (n : Nat) (tag : Tag) : Except Fault (Option EdgeIterator) :=
  if tag = 0 then graph.getEdges n
  else if (graph.index n .incoming).length ≤ 0 ∧ (graph.index n .outgoing).length ≤ 0 then
    .ok none
  else if (graph.index n .incoming).length ≤ 0 then
    .ok (some (EdgeIterator.startTag graph n .outgoing tag))
  else (EdgeIterator.startBothTag graph n tag).map some

/-- `Node::get_edges(Direction, StringID)`. -/
def getEdgesDirTag (graph : Graph) (n : Nat) (which : Option Direction) (tag : Tag) :
    Except Fault (Option EdgeIterator) :=
  match which with
  | none => graph.getEdgesTag n tag
  | some dir =>
      if tag = 0 then graph.getEdgesDir n (some dir)
      else .ok (some (EdgeIterator.startTag graph n dir tag))

end Graph

/-! ## A caller with an iterator -/

/-- The graph, an iterator until it has come to its end, and the edges it has shown. -/
structure Iteration where
  graph : Graph
  iterator : Option EdgeIterator
  yielded : List (Direction × Nat)

namespace Iteration

/-- The iterator is dropped when it has come to its end, otherwise it shows an edge. -/
def arrive (graph : Graph) (yielded : List (Direction × Nat)) :
    Option EdgeIterator → Except Fault Iteration
  | none => .ok ⟨graph, none, yielded⟩
  | some iterator =>
      if iterator.isValid then
        (iterator.current graph).map fun shown => ⟨graph, some iterator, yielded ++ shown⟩
      else .ok ⟨graph, none, yielded⟩

/-- `get_edges` with a direction and a tag, either of which can be left open. -/
def start (graph : Graph) (n : Nat) (which : Option Direction) (tag : Tag) :
    Except Fault Iteration :=
  (graph.getEdgesDirTag n which tag).bind (arrive graph [])

inductive Action
  | next
  | removeEdge (edge : Nat)
  deriving DecidableEq

def act (state : Iteration) : Action → Except Fault Iteration
  | .next =>
      match state.iterator with
      | none => .ok state
      | some iterator =>
          (iterator.next state.graph).bind fun moved =>
            arrive state.graph state.yielded (some moved)
  | .removeEdge edge =>
      (state.graph.removeEdge state.iterator edge).map fun (graph, iterator) =>
        { state with graph, iterator }

/-- One call; `none` if it goes wrong. -/
def step (state : Iteration) (action : Action) : Option Iteration :=
  (state.act action).toOption

/-- Only live edges are removed. -/
def RemovesLive (state : Iteration) : Action → Prop
  | .next => True
  | .removeEdge edge => state.graph.edges edge ≠ none

/-- What an iteration is to show: an edge of the node with a direction and a tag asked for. -/
def Matches (graph : Graph) (n : Nat) (which : Option Direction) (tag : Tag)
    (shown : Direction × Nat) : Prop :=
  ∃ ends, graph.edges shown.2 = some ends ∧ ends.endAt shown.1 = n ∧
    (which = none ∨ which = some shown.1) ∧ (tag = 0 ∨ ends.tag = tag)

/-- Every edge to be shown that has not been removed is shown at most once, and once when the
iterator has come to its end, as it has after so many calls of `next`. -/
structure Complete (n : Nat) (which : Option Direction) (tag : Tag) (most : Nat)
    (past : List Action) (state : Iteration) : Prop where
  once : ∀ shown, Matches state.graph n which tag shown → state.yielded.count shown ≤ 1
  all : state.iterator = none → ∀ shown, Matches state.graph n which tag shown →
    state.yielded.count shown = 1
  ends : most ≤ past.count .next → state.iterator = none

/-- The iterator has no tag, is at the last incoming edge and is to go on to the outgoing
edges. -/
def AtLastIncoming (graph : Graph) (iterator : EdgeIterator) : Prop :=
  iterator.keyPos ≠ none ∧ iterator.outIdx = true ∧
    iterator.pos = ((graph.index iterator.n1 .incoming).flatMap KeyPosition.list).getLast?.map
      EdgePosition.address

/-- When the step makes the iterator leave the incoming edges, there is an outgoing edge,
other than the one that the step removes. -/
def OutgoingLeft (state : Iteration) (action : Action) : Prop :=
  match state.iterator, action with
  | none, _ => True
  | some iterator, .next =>
      iterator.vacant = false → AtLastIncoming state.graph iterator →
        (state.graph.index iterator.n1 .outgoing).entries ≠ []
  | some iterator, .removeEdge edge =>
      AtLastIncoming state.graph iterator → iterator.current state.graph = .ok [(.incoming, edge)] →
        ∃ entry ∈ (state.graph.index iterator.n1 .outgoing).entries, entry.edge ≠ edge

instance (graph : Graph) (iterator : EdgeIterator) : Decidable (AtLastIncoming graph iterator) :=
  inferInstanceAs (Decidable (_ ∧ _))

instance (state : Iteration) : (action : Action) → Decidable (RemovesLive state action)
  | .next => isTrue trivial
  | .removeEdge edge => inferInstanceAs (Decidable (state.graph.edges edge ≠ none))

instance (state : Iteration) (action : Action) : Decidable (OutgoingLeft state action) :=
  match state, action with
  | ⟨_, none, _⟩, _ => isTrue trivial
  | ⟨graph, some iterator, _⟩, .next =>
      inferInstanceAs (Decidable (iterator.vacant = false → AtLastIncoming graph iterator →
        (graph.index iterator.n1 .outgoing).entries ≠ []))
  | ⟨graph, some iterator, _⟩, .removeEdge edge =>
      inferInstanceAs (Decidable (AtLastIncoming graph iterator →
        iterator.current graph = .ok [(.incoming, edge)] →
          ∃ entry ∈ (graph.index iterator.n1 .outgoing).entries, entry.edge ≠ edge))

end Iteration

/-! ## What is ahead of an iterator -/

def marked (dir : Direction) (positions : List EdgePosition) : List (Direction × Nat) :=
  positions.map fun position => (dir, position.edge)

/-- What an iterator goes through after the index it is in. -/
def pathBehind (graph : Graph) (n : Nat) (asked : Tag) (outIdx : Bool) : List (Direction × Nat) :=
  if outIdx then marked .outgoing ((graph.index n .outgoing).selected asked) else []

/-- The edge that an iterator is at and those it goes to from there. -/
structure Ahead (graph : Graph) (n : Nat) (asked : Tag) (iterator : EdgeIterator)
    (shown : List (Direction × Nat)) : Prop where
  node : iterator.n1 = n
  direction : iterator.outIdx = true → iterator.dir = .incoming
  path : (iterator.pos = none ∧ shown = []) ∨
    ∃ before position after, Cursor (graph.index n iterator.dir) asked iterator before position
      after ∧ shown = (iterator.dir, position.edge) :: marked iterator.dir after ++
        pathBehind graph n asked iterator.outIdx

namespace Ahead

open Pmgd.Graph Iteration

variable {graph : Graph} {n m : Nat} {asked : Tag} {iterator : EdgeIterator}
  {shown : List (Direction × Nat)} {dir : Direction}

theorem setVacant (ahead : Ahead graph n asked iterator shown) (vacant : Bool) :
    Ahead graph n asked { iterator with vacant } shown := by
  refine ⟨ahead.node, ahead.direction, ahead.path.imp_right ?_⟩
  rintro ⟨before, position, after, cursor, isShown⟩
  exact ⟨before, position, after, ⟨cursor.path, cursor.pos, cursor.bucket⟩, isShown⟩

/-- An iterator that comes from the last incoming edge and finds no outgoing one. -/
def Stuck (graph : Graph) (iterator : EdgeIterator) : Prop :=
  AtLastIncoming graph iterator ∧ graph.index iterator.n1 .outgoing = []

theorem atLastIncoming_iff {before after : List EdgePosition} {position : EdgePosition}
    (wellFormed : EdgeIndex.WellFormed (graph.index iterator.n1 iterator.dir))
    (direction : iterator.outIdx = true → iterator.dir = .incoming)
    (cursor : Cursor (graph.index iterator.n1 iterator.dir) asked iterator before position after) :
    AtLastIncoming graph iterator ↔ asked = 0 ∧ iterator.outIdx = true ∧ after = [] := by
  have bucket := cursor.bucket
  have path := cursor.path
  have distinct := @selected_addresses_nodup _ asked wellFormed.addresses
  unfold AtLastIncoming
  by_cases all : asked = 0
  · subst all
    rw [if_pos rfl] at bucket
    obtain ⟨key, -, -, isKeyPos⟩ := bucket
    simp only [isKeyPos, ne_eq, reduceCtorEq, not_false_eq_true, true_and]
    refine and_congr_right fun isOut => ?_
    rw [direction isOut] at path distinct
    rw [cursor.pos, ← selected_zero, path]
    rw [path] at distinct
    rcases List.eq_nil_or_concat' after with rfl | ⟨others, last, rfl⟩
    · simp
    · have isLast : (before ++ position :: (others ++ [last])).getLast? = some last := by
        rw [← List.cons_append, ← List.append_assoc, List.getLast?_concat]
      simp only [isLast, Option.map_some, Option.some.injEq, List.append_eq_nil_iff,
        List.cons_ne_nil, and_false, iff_false]
      intro sameAddress
      rw [List.map_append, List.map_cons, List.nodup_middle, List.nodup_cons] at distinct
      exact distinct.1 (sameAddress ▸ List.mem_append_right _ (List.mem_map_of_mem
        (List.mem_append_right _ List.mem_cons_self)))
  · rw [if_neg all] at bucket
    exact iff_of_false (fun atLast => atLast.1 bucket.1) fun both => all both.1

/-- What is ahead of an iterator at the first edge of an index. -/
theorem enter {key : KeyPosition} {keys : EdgeIndex}
    (wellFormed : EdgeIndex.WellFormed (graph.index n dir))
    (isIndex : graph.index n dir = key :: keys) (node : iterator.n1 = n)
    (sameDir : iterator.dir = dir) (direction : iterator.outIdx = true → dir = .incoming) :
    Ahead graph n 0 (iterator.enter key) (marked dir ((graph.index n dir).selected 0) ++
      pathBehind graph n 0 iterator.outIdx) := by
  subst sameDir
  obtain ⟨position, after, cursor⟩ := Cursor.enter (isIndex ▸ wellFormed) iterator
  rw [← isIndex] at cursor
  refine ⟨node, direction, .inr ⟨[], position, after, cursor, ?_⟩⟩
  rw [cursor.path]
  rfl

theorem firstOf (wellFormed : EdgeIndex.WellFormed (graph.index n dir)) (some : asked ≠ 0)
    (isPos : iterator.pos = EdgeIterator.firstOf (graph.index n dir) asked)
    (isKeyPos : iterator.keyPos = none) (isTag : iterator.tag = asked) (node : iterator.n1 = n)
    (sameDir : iterator.dir = dir) (direction : iterator.outIdx = true → dir = .incoming)
    (isLast : iterator.pos = none → iterator.outIdx = false) :
    Ahead graph n asked iterator (marked dir ((graph.index n dir).selected asked) ++
      pathBehind graph n asked iterator.outIdx) := by
  subst sameDir
  rcases EdgeIterator.firstOf_cases wellFormed some isPos isKeyPos isTag with
    ⟨isNone, noPath⟩ | ⟨position, after, cursor⟩
  · refine ⟨node, direction, .inl ⟨isNone, ?_⟩⟩
    rw [noPath, isLast isNone]
    rfl
  · refine ⟨node, direction, .inr ⟨[], position, after, cursor, ?_⟩⟩
    rw [cursor.path]
    rfl

theorem next_cases {first : Direction × Nat}
    (wellFormed : ∀ dir, EdgeIndex.WellFormed (graph.index n dir))
    (ahead : Ahead graph n asked iterator (first :: shown)) (notVacant : iterator.vacant = false) :
    (¬ Stuck graph iterator ∧ ∃ moved, iterator.next graph = .ok moved ∧ moved.vacant = false ∧
      (moved.outIdx = true → iterator.outIdx = true) ∧ Ahead graph n asked moved shown) ∨
    (Stuck graph iterator ∧ iterator.next graph = .error .nullPointer) := by
  obtain ⟨rfl, direction, path⟩ := ahead
  rcases path with ⟨-, isNil⟩ | ⟨before, position, after, cursor, isShown⟩
  · cases isNil
  obtain ⟨-, isRest⟩ := List.cons.inj isShown
  have last := atLastIncoming_iff (wellFormed iterator.dir) direction cursor
  cases after with
  | cons next after =>
      obtain ⟨moved, isMoved, node, sameDir, sameOut, stillNotVacant, cursor⟩ :=
        cursor.next_eq (wellFormed iterator.dir) rfl notVacant
      refine .inl ⟨fun stuck => ?_, moved, isMoved, stillNotVacant, fun isOut => sameOut ▸ isOut,
        node, ?_, .inr ?_⟩
      · cases (last.mp stuck.1).2.2
      · rw [sameOut, sameDir]
        exact direction
      · rw [sameDir, sameOut]
        exact ⟨_, next, after, cursor, isRest⟩
  | nil =>
      have isBehind : shown = pathBehind graph iterator.n1 asked iterator.outIdx := isRest
      rw [cursor.next_last (wellFormed iterator.dir) rfl notVacant,
        EdgeIterator.switchDirection]
      cases isOut : iterator.outIdx with
      | false =>
          rw [isOut] at isBehind last
          refine .inl ⟨fun stuck => ?_, _, rfl, notVacant, id, rfl, fun isTrue => ?_,
            .inl ⟨rfl, isBehind⟩⟩
          · cases (last.mp stuck.1).2.1
          · cases isTrue
      | true =>
          rw [isOut] at isBehind
          dsimp only
          rw [if_pos rfl]
          by_cases all : asked = 0
          · subst all
            simp only [decide_true, if_true]
            cases isIndex : graph.index iterator.n1 .outgoing with
            | nil => exact .inr ⟨⟨last.mpr ⟨rfl, isOut, rfl⟩, isIndex⟩, rfl⟩
            | cons key keys =>
                refine .inl ⟨fun stuck => ?_, _, rfl, notVacant, fun _ => trivial, ?_⟩
                · rw [stuck.2] at isIndex
                  cases isIndex
                · have entered := @enter graph iterator.n1 { iterator with
                    keyPos := none, pos := none, dir := .outgoing, outIdx := false } .outgoing
                    key keys (wellFormed .outgoing) isIndex rfl rfl (fun isTrue => by cases isTrue)
                  rw [isBehind]
                  simpa [pathBehind] using entered
          · simp only [all, decide_false, Bool.false_eq_true, if_false]
            have bucket := cursor.bucket
            rw [if_neg all] at bucket
            refine .inl ⟨fun stuck => all (last.mp stuck.1).1, _, rfl, notVacant, fun _ => trivial, ?_⟩
            have entered := @firstOf graph iterator.n1 asked { iterator with
              keyPos := none, dir := .outgoing, outIdx := false
              pos := EdgeIterator.firstOf (graph.index iterator.n1 .outgoing) asked } .outgoing
              (wellFormed .outgoing) all rfl rfl bucket.2 rfl rfl (fun isTrue => by cases isTrue)
              (fun _ => rfl)
            rw [isBehind, bucket.2]
            simpa [pathBehind, EdgeIterator.firstOf, bucket.2] using entered

/-! ### When an edge is taken out of an index -/

variable {tag : Tag} {edge node : Nat} {place : Place tag edge node}
  {listed : Nat → Direction → Entry → Prop}

/-- The path through an index when an element is taken out of the same or another one. -/
theorem selected_unlinked (live : graph.nodes m ≠ none) (isIndex : graph.index m dir = place.whole)
    (wellFormed : EdgeIndex.WellFormed (graph.index m dir))
    (elsewhere : n ≠ m → ∀ entry ∈ (graph.index n dir).entries, entry.edge ≠ edge)
    (other : Direction) :
    ((graph.unlinked m dir place).index n other).selected asked =
      ((graph.index n other).selected asked).filter
        fun position => decide ((other, position.edge) ≠ (dir, edge)) := by
  rw [index_unlinked live]
  by_cases sameDir : other = dir
  · subst sameDir
    have sameTest : (fun position : EdgePosition =>
        decide ((other, position.edge) ≠ (other, edge))) =
          fun position => decide (position.edge ≠ edge) := by
      funext position
      simp
    rw [sameTest]
    by_cases sameNode : n = m
    · subst sameNode
      rw [if_pos ⟨rfl, rfl⟩, isIndex, Place.selected_removed place (isIndex ▸ wellFormed)]
    · rw [if_neg fun both => sameNode both.1, List.filter_eq_self.mpr]
      intro position member
      obtain ⟨entry, isEntry, sameEdge, -⟩ := selected_edge_mem member
      simpa [sameEdge] using elsewhere sameNode entry isEntry
  · rw [if_neg fun both => sameDir both.2, List.filter_eq_self.mpr]
    simp [sameDir]

theorem marked_filter (other : Direction) (positions : List EdgePosition) :
    marked other (positions.filter fun position =>
      decide ((other, position.edge) ≠ (dir, edge))) =
        (marked other positions).filter fun shown => decide (shown ≠ (dir, edge)) := by
  rw [marked, marked, List.filter_map]
  rfl

theorem cursor_unlinked {before after : List EdgePosition} {position : EdgePosition}
    {other : Direction} (live : graph.nodes m ≠ none)
    (isIndex : graph.index m dir = place.whole)
    (wellFormed : EdgeIndex.WellFormed (graph.index m dir))
    (elsewhere : n ≠ m → ∀ entry ∈ (graph.index n dir).entries, entry.edge ≠ edge)
    (notAt : (other, position.edge) ≠ (dir, edge))
    (cursor : Cursor (graph.index n other) asked iterator before position after) :
    Cursor ((graph.unlinked m dir place).index n other) asked iterator
      (before.filter fun position => decide ((other, position.edge) ≠ (dir, edge))) position
      (after.filter fun position => decide ((other, position.edge) ≠ (dir, edge))) where
  path := by
    rw [selected_unlinked live isIndex wellFormed elsewhere, cursor.path, List.filter_append,
      List.filter_cons_of_pos (by exact decide_eq_true notAt)]
  pos := cursor.pos
  bucket := by
    rw [index_unlinked live]
    by_cases here : n = m ∧ other = dir
    · obtain ⟨rfl, rfl⟩ := here
      rw [isIndex] at cursor wellFormed
      have stays := (cursor.removed wellFormed fun same => notAt (by rw [same])).bucket
      simpa using stays
    · rw [if_neg here]
      exact cursor.bucket

/-- An iterator that is not at the element that is taken out. -/
theorem unlinked (shape : Shape graph listed) (live : graph.nodes m ≠ none)
    (isIndex : graph.index m dir = place.whole)
    (elsewhere : n ≠ m → ∀ entry ∈ (graph.index n dir).entries, entry.edge ≠ edge)
    (ahead : Ahead graph n asked iterator shown)
    (notAt : shown.head? ≠ some (dir, edge)) :
    Ahead (graph.unlinked m dir place) n asked iterator
      (shown.filter fun shown => decide (shown ≠ (dir, edge))) := by
  obtain ⟨rfl, direction, path⟩ := ahead
  refine ⟨rfl, direction, ?_⟩
  rcases path with ⟨isNone, rfl⟩ | ⟨before, position, after, cursor, rfl⟩
  · exact .inl ⟨isNone, rfl⟩
  · have notAt : (iterator.dir, position.edge) ≠ (dir, edge) :=
      fun same => notAt (congrArg some same)
    have wellFormed := shape.index m dir
    refine .inr ⟨_, position, _, cursor_unlinked live isIndex wellFormed elsewhere notAt cursor, ?_⟩
    have behind : pathBehind (graph.unlinked m dir place) iterator.n1 asked iterator.outIdx =
        (pathBehind graph iterator.n1 asked iterator.outIdx).filter
          fun shown => decide (shown ≠ (dir, edge)) := by
      unfold pathBehind
      split_ifs
      · rw [selected_unlinked live isIndex wellFormed elsewhere, marked_filter]
      · rfl
    rw [behind, marked_filter, List.cons_append, List.cons_append,
      List.filter_cons_of_pos (by exact decide_eq_true notAt), List.filter_append]

/-- The iterator is at the element that is taken out exactly when it shows its edge. -/
theorem pos_eq_iff {before after : List EdgePosition} {position : EdgePosition} {other : Direction}
    (shape : Shape graph listed) (isIndex : graph.index m dir = place.whole)
    (elsewhere : n ≠ m → ∀ entry ∈ (graph.index n dir).entries, entry.edge ≠ edge)
    (cursor : Cursor (graph.index n other) asked iterator before position after) :
    iterator.pos = some place.position.address ↔ (other, position.edge) = (dir, edge) := by
  have member : position ∈ (graph.index n other).selected 0 := by
    have inPath : position ∈ (graph.index n other).selected asked := by
      rw [cursor.path]
      exact List.mem_append_right _ List.mem_cons_self
    obtain ⟨key, isKey, -, isPosition⟩ := mem_selected.mp inPath
    exact mem_selected.mpr ⟨key, isKey, .inl rfl, isPosition⟩
  have isPlace : place.position ∈ (graph.index m dir).selected 0 := by
    rw [isIndex, Place.selected_whole (.inl rfl)]
    exact List.mem_append_right _ List.mem_cons_self
  have address {index : EdgeIndex} {position : EdgePosition}
      (isSelected : position ∈ index.selected 0) : position.address ∈ index.addresses := by
    obtain ⟨key, isKey, -, isPosition⟩ := mem_selected.mp isSelected
    exact List.mem_flatMap.mpr
      ⟨key, isKey, List.mem_cons_of_mem _ (List.mem_map_of_mem isPosition)⟩
  rw [cursor.pos, Option.some.injEq]
  constructor
  · intro sameAddress
    have here : (n, other) = (m, dir) := by
      by_contra apart
      exact shape.apart n other m dir apart _ (address member) (sameAddress ▸ address isPlace)
    obtain ⟨rfl, rfl⟩ := Prod.mk.inj here
    have same : position = place.position := List.inj_on_of_nodup_map
      (selected_addresses_nodup (shape.index n other).addresses) member isPlace sameAddress
    rw [same, place.edge_eq]
  · intro same
    obtain ⟨rfl, sameEdge⟩ := Prod.mk.inj same
    have sameNode : n = m := by
      by_contra apart
      obtain ⟨entry, isEntry, isEdge, -⟩ := selected_edge_mem member
      exact elsewhere apart entry isEntry (isEdge.trans sameEdge)
    subst sameNode
    have same : position = place.position := List.inj_on_of_nodup_map
      (selected_edges_nodup (shape.index n other).edges) member isPlace
      (sameEdge.trans place.edge_eq.symm)
    rw [same]

theorem head_eq_iff (shape : Shape graph listed) (isIndex : graph.index m dir = place.whole)
    (elsewhere : n ≠ m → ∀ entry ∈ (graph.index n dir).entries, entry.edge ≠ edge)
    (ahead : Ahead graph n asked iterator shown) :
    iterator.pos = some place.position.address ↔ shown.head? = some (dir, edge) := by
  obtain ⟨-, -, ⟨isNone, rfl⟩ | ⟨before, position, after, cursor, rfl⟩⟩ := ahead
  · rw [isNone]
    exact iff_of_false (by simp) (by simp)
  · rw [pos_eq_iff shape isIndex elsewhere cursor]
    exact Option.some.injEq _ _ ▸ Iff.rfl

theorem head_dir (ahead : Ahead graph n asked iterator shown)
    (isHead : shown.head? = some (dir, edge)) : iterator.dir = dir := by
  obtain ⟨-, -, ⟨-, rfl⟩ | ⟨before, position, after, -, rfl⟩⟩ := ahead
  · cases isHead
  · exact congrArg Prod.fst (Option.some.inj isHead)

theorem marked_nodup {index : EdgeIndex} (wellFormed : EdgeIndex.WellFormed index)
    (dir : Direction) : (marked dir (index.selected asked)).Nodup := by
  have isMap : marked dir (index.selected asked) =
      ((index.selected asked).map EdgePosition.edge).map (Prod.mk dir) :=
    (List.map_map).symm
  rw [isMap]
  exact (selected_edges_nodup wellFormed.edges).map (Prod.mk_right_injective dir)

theorem nodup (wellFormed : ∀ dir, EdgeIndex.WellFormed (graph.index n dir))
    (ahead : Ahead graph n asked iterator shown) : shown.Nodup := by
  obtain ⟨rfl, direction, ⟨-, rfl⟩ | ⟨before, position, after, cursor, rfl⟩⟩ := ahead
  · exact List.nodup_nil
  · have all := @marked_nodup asked _ (wellFormed iterator.dir) iterator.dir
    rw [cursor.path, marked, List.map_append] at all
    refine List.nodup_append.mpr ⟨(List.nodup_append.mp all).2.1, ?_, ?_⟩
    · unfold pathBehind
      split_ifs
      · exact marked_nodup (wellFormed .outgoing) .outgoing
      · exact List.nodup_nil
    · intro first isFirst second isSecond same
      subst same
      unfold pathBehind at isSecond
      split_ifs at isSecond with isOut
      · obtain ⟨other, -, rfl⟩ := List.mem_map.mp isSecond
        rw [direction isOut] at isFirst
        rcases List.mem_cons.mp isFirst with same | isLater
        · cases same
        · obtain ⟨another, -, same⟩ := List.mem_map.mp isLater
          cases same
      · cases isSecond

theorem isSome_pos (ahead : Ahead graph n asked iterator shown) :
    iterator.pos.isSome = !shown.isEmpty := by
  obtain ⟨-, -, ⟨isNone, rfl⟩ | ⟨before, position, after, cursor, rfl⟩⟩ := ahead
  · rw [isNone]
    rfl
  · rw [cursor.pos]
    rfl

theorem current_eq (wellFormed : ∀ dir, EdgeIndex.WellFormed (graph.index n dir))
    (ahead : Ahead graph n asked iterator shown) :
    iterator.current graph = .ok shown.head?.toList := by
  obtain ⟨rfl, -, ⟨isNone, rfl⟩ | ⟨before, position, after, cursor, rfl⟩⟩ := ahead
  · rw [EdgeIterator.current, isNone]
    rfl
  · have inPath : position ∈ (graph.index iterator.n1 iterator.dir).selected asked := by
      rw [cursor.path]
      exact List.mem_append_right _ List.mem_cons_self
    have isElement := positionAt_eq (wellFormed iterator.dir).addresses inPath
    rw [EdgeIterator.current, cursor.pos]
    dsimp only
    rw [isElement]
    rfl

theorem unlinked_eq_nil_iff (shape : Shape graph listed) (live : graph.nodes m ≠ none)
    (isIndex : graph.index m dir = place.whole)
    (elsewhere : n ≠ m → ∀ entry ∈ (graph.index n dir).entries, entry.edge ≠ edge) :
    (graph.unlinked m dir place).index n dir = [] ↔
      ∀ entry ∈ (graph.index n dir).entries, entry.edge = edge := by
  have unlinkedShape := unlinked_shape shape live isIndex
  constructor
  · intro isNil entry isEntry
    by_contra different
    have still := (unlinkedShape.listed n dir entry).mpr
      ⟨(shape.listed n dir entry).mp isEntry, fun same => different same.2.2⟩
    rw [isNil] at still
    cases still
  · intro allSame
    refine eq_nil_of_entries (unlinkedShape.index n dir) ?_
    refine List.eq_nil_iff_forall_not_mem.mpr fun entry isEntry => ?_
    obtain ⟨isListed, notGone⟩ := (unlinkedShape.listed n dir entry).mp isEntry
    have isOld := (shape.listed n dir entry).mpr isListed
    have sameEdge := allSame entry isOld
    refine notGone ⟨?_, rfl, sameEdge⟩
    by_contra apart
    exact elsewhere apart entry isOld sameEdge

/-- The iterator is stuck when its edge is removed unless there are other outgoing edges. -/
theorem stuck_unlinked_iff {src address : Nat} {outPlace : Place tag edge node}
    (shape : Shape graph listed) (live : graph.nodes src ≠ none)
    (isOut : graph.index src .outgoing = outPlace.whole)
    (elsewhere : n ≠ src → ∀ entry ∈ (graph.index n .outgoing).entries, entry.edge ≠ edge)
    (ahead : Ahead graph n asked iterator shown)
    (isHead : iterator.pos = some address ↔ shown.head? = some (.incoming, edge)) :
    (iterator.pos = some address ∧ Stuck (graph.unlinked src .outgoing outPlace) iterator) ↔
      ¬ OutgoingLeft ⟨graph, some iterator, []⟩ (.removeEdge edge) := by
  have isCurrent : iterator.current graph = .ok [(.incoming, edge)] ↔
      shown.head? = some (.incoming, edge) := by
    rw [current_eq (shape.index n) ahead]
    cases shown <;> simp
  have sameLast : AtLastIncoming (graph.unlinked src .outgoing outPlace) iterator ↔
      AtLastIncoming graph iterator := by
    rw [AtLastIncoming, index_unlinked live, if_neg (by simp)]
    rfl
  have left : OutgoingLeft ⟨graph, some iterator, []⟩ (.removeEdge edge) ↔
      (AtLastIncoming graph iterator → shown.head? = some (.incoming, edge) →
        ∃ entry ∈ (graph.index n .outgoing).entries, entry.edge ≠ edge) := by
    rw [← isCurrent, ← ahead.node]
    rfl
  rw [Stuck, sameLast, left, isHead, ahead.node, unlinked_eq_nil_iff shape live isOut elsewhere]
  push Not
  exact and_left_comm

end Ahead

/-- What an iterator has not yet shown. -/
def Awaits (graph : Graph) (n : Nat) (asked : Tag) (iterator : EdgeIterator)
    (unseen : List (Direction × Nat)) : Prop :=
  ∃ shown, Ahead graph n asked iterator shown ∧
    if iterator.vacant then unseen = shown else ∃ first, shown = first :: unseen

namespace Awaits

open Pmgd.Graph Iteration Ahead

variable {graph : Graph} {n m : Nat} {asked : Tag} {iterator : EdgeIterator}
  {unseen : List (Direction × Nat)} {dir : Direction} {tag : Tag} {edge node : Nat}
  {place : Place tag edge node} {listed : Nat → Direction → Entry → Prop}

theorem notify_cases (shape : Shape graph listed) (live : graph.nodes m ≠ none)
    (isIndex : graph.index m dir = place.whole)
    (elsewhere : n ≠ m → ∀ entry ∈ (graph.index n dir).entries, entry.edge ≠ edge)
    (awaits : Awaits graph n asked iterator unseen) :
    (¬ (iterator.pos = some place.position.address ∧ Stuck graph iterator) ∧
      ∃ moved, graph.notify (some iterator) place.position.address = .ok (some moved) ∧
        (iterator.pos ≠ some place.position.address → moved = iterator) ∧
        (moved.outIdx = true → iterator.outIdx = true) ∧
        Awaits (graph.unlinked m dir place) n asked moved
          (unseen.filter fun shown => decide (shown ≠ (dir, edge)))) ∨
    ((iterator.pos = some place.position.address ∧ Stuck graph iterator) ∧
      graph.notify (some iterator) place.position.address = .error .nullPointer) := by
  obtain ⟨shown, ahead, isUnseen⟩ := awaits
  have isHead := ahead.head_eq_iff shape isIndex elsewhere
  rw [notify, EdgeIterator.removeNotify]
  by_cases here : iterator.pos = some place.position.address
  · rw [if_pos here]
    obtain ⟨rest, rfl⟩ : ∃ rest, shown = (dir, edge) :: rest := List.head?_eq_some_iff.mp
      (isHead.mp here)
    have distinct := List.nodup_cons.mp (ahead.nodup (shape.index n))
    have isFiltered : unseen.filter (fun shown => decide (shown ≠ (dir, edge))) =
        rest.filter fun shown => decide (shown ≠ (dir, edge)) := by
      split_ifs at isUnseen
      · rw [isUnseen, List.filter_cons_of_neg (by simp)]
      · obtain ⟨first, same⟩ := isUnseen
        rw [(List.cons.inj same).2]
    rcases (ahead.setVacant false).next_cases (shape.index n) rfl with
      ⟨notStuck, moved, isMoved, -, stillOut, movedAhead⟩ | ⟨stuck, fails⟩
    · rw [isMoved]
      refine .inl ⟨fun both => notStuck both.2, _, rfl, fun apart => absurd here apart, stillOut, _,
        (movedAhead.unlinked shape live isIndex elsewhere ?_).setVacant true, isFiltered⟩
      exact fun isFirst => distinct.1 (List.mem_of_head? isFirst)
    · rw [fails]
      exact .inr ⟨⟨here, stuck⟩, rfl⟩
  · rw [if_neg here]
    have notHead := mt isHead.mpr here
    refine .inl ⟨fun both => here both.1, iterator, rfl, fun _ => rfl, id, _,
      ahead.unlinked shape live isIndex elsewhere notHead, ?_⟩
    split_ifs at isUnseen ⊢
    · rw [isUnseen]
    · obtain ⟨first, rfl⟩ := isUnseen
      refine ⟨first, List.filter_cons_of_pos ?_⟩
      exact decide_eq_true fun same => notHead (congrArg some same)

/-- An iterator is never at the element of a bucket. -/
theorem pos_ne_key (shape : Shape graph listed) (live : graph.nodes m ≠ none)
    (isIndex : graph.index m dir = place.whole)
    (elsewhere : n ≠ m → ∀ entry ∈ (graph.index n dir).entries, entry.edge ≠ edge)
    (awaits : Awaits (graph.unlinked m dir place) n asked iterator unseen) :
    iterator.pos ≠ some place.key.address := by
  obtain ⟨shown, ⟨rfl, -, ⟨isNone, -⟩ | ⟨before, position, after, cursor, -⟩⟩, -⟩ := awaits
  · rw [isNone]
    exact fun isSome => by cases isSome
  · rw [cursor.pos]
    intro sameAddress
    have inPath : position ∈ ((graph.unlinked m dir place).index iterator.n1
        iterator.dir).selected asked := by
      rw [cursor.path]
      exact List.mem_append_right _ List.mem_cons_self
    rw [selected_unlinked live isIndex (shape.index m dir) elsewhere, List.mem_filter] at inPath
    obtain ⟨key, isKey, -, isPosition⟩ := mem_selected.mp inPath.1
    have isPos : position.address ∈ (graph.index iterator.n1 iterator.dir).positions :=
      List.mem_flatMap.mpr ⟨key, isKey, List.mem_map_of_mem isPosition⟩
    have isKeyPos : place.key.address ∈ (graph.index m dir).addresses := isIndex ▸ place.key_mem
    have here : (iterator.n1, iterator.dir) = (m, dir) := by
      by_contra apart
      exact shape.apart _ _ m dir apart _ (positions_subset _ isPos)
        (Option.some.inj sameAddress ▸ isKeyPos)
    obtain ⟨isNode, isDir⟩ := Prod.mk.inj here
    rw [isNode, isDir, isIndex, Option.some.inj sameAddress] at isPos
    refine key_ne_position (isIndex ▸ (shape.index m dir).addresses) ?_ isPos
    exact List.mem_append_right _ List.mem_cons_self

theorem of_index {graph' : Graph} (same : ∀ dir, graph'.index n dir = graph.index n dir)
    (awaits : Awaits graph n asked iterator unseen) : Awaits graph' n asked iterator unseen := by
  obtain ⟨shown, ⟨rfl, direction, path⟩, isUnseen⟩ := awaits
  refine ⟨shown, ⟨rfl, direction, ?_⟩, isUnseen⟩
  rw [same]
  have behind : pathBehind graph' iterator.n1 asked iterator.outIdx =
      pathBehind graph iterator.n1 asked iterator.outIdx := by
    rw [pathBehind, pathBehind, same]
  rwa [behind]

variable {ends : Edge} {outPlace : Place ends.tag edge ends.dest}
  {inPlace : Place ends.tag edge ends.src}

/-- Removing an edge takes it out of what the iterator has not yet shown. -/
theorem removeEdge_cases (wellFormed : Graph.WellFormed graph)
    (isEdge : graph.edges edge = some ends)
    (isOut : graph.index ends.src .outgoing = outPlace.whole)
    (isIn : graph.index ends.dest .incoming = inPlace.whole)
    (awaits : Awaits graph n asked iterator unseen) :
    (OutgoingLeft ⟨graph, some iterator, []⟩ (.removeEdge edge) ∧
      ∃ moved, graph.removeEdge (some iterator) edge =
          .ok (graph.removed outPlace inPlace, some moved) ∧
        Awaits (graph.removed outPlace inPlace) n asked moved
          (unseen.filter fun shown => decide (shown.2 ≠ edge))) ∨
    (¬ OutgoingLeft ⟨graph, some iterator, []⟩ (.removeEdge edge) ∧
      graph.removeEdge (some iterator) edge = .error .nullPointer) := by
  obtain ⟨srcLive, destLive⟩ := wellFormed.live edge ends isEdge
  have shape := wellFormed.shape
  have outElsewhere : n ≠ ends.src → ∀ entry ∈ (graph.index n .outgoing).entries,
      entry.edge ≠ edge := by
    rintro apart entry isEntry rfl
    have isListed := (shape.listed n .outgoing entry).mp isEntry
    exact apart (congrArg Edge.src (Option.some.inj (isEdge.symm.trans isListed))).symm
  have inElsewhere : n ≠ ends.dest → ∀ entry ∈ (graph.index n .incoming).entries,
      entry.edge ≠ edge := by
    rintro apart entry isEntry rfl
    have isListed := (shape.listed n .incoming entry).mp isEntry
    exact apart (congrArg Edge.dest (Option.some.inj (isEdge.symm.trans isListed))).symm
  have halfShape := unlinked_shape shape srcLive isOut
  have stillLive : (graph.unlinked ends.src .outgoing outPlace).nodes ends.dest ≠ none :=
    fun isNone => destLive ((nodes_setIndex _).mp isNone)
  have sameIn (m : Nat) : (graph.unlinked ends.src .outgoing outPlace).index m .incoming =
      graph.index m .incoming := by
    rw [index_unlinked srcLive, if_neg (by simp)]
  have stillIn := (sameIn ends.dest).trans isIn
  have halfElsewhere : n ≠ ends.dest → ∀ entry ∈
      ((graph.unlinked ends.src .outgoing outPlace).index n .incoming).entries,
        entry.edge ≠ edge := by
    rw [sameIn]
    exact inElsewhere
  have ⟨shown, ahead, _⟩ := awaits
  have outHead := ahead.head_eq_iff shape isOut outElsewhere
  have noOut (here : iterator.pos = some outPlace.position.address) : iterator.outIdx ≠ true :=
    fun isOut => by cases (ahead.head_dir (outHead.mp here)).symm.trans (ahead.direction isOut)
  rcases awaits.notify_cases shape srcLive isOut outElsewhere with
    ⟨-, moved, isMoved, same, stillOut, halfAwaits⟩ | ⟨⟨here, stuck⟩, -⟩
  · have noKey := halfAwaits.pos_ne_key shape srcLive isOut outElsewhere
    have outUnmoved : ∀ other, graph.notify (some iterator) outPlace.position.address =
        .ok other → ∀ iterator ∈ other, iterator.pos ≠ some outPlace.key.address := by
      intro other isOther _ isIterator
      rw [isMoved] at isOther
      obtain rfl := Except.ok.inj isOther
      obtain rfl := Option.some.inj isIterator
      exact noKey
    have stuckIff : (moved.pos = some inPlace.position.address ∧
        Stuck (graph.unlinked ends.src .outgoing outPlace) moved) ↔
          ¬ OutgoingLeft ⟨graph, some iterator, []⟩ (.removeEdge edge) := by
      by_cases here : iterator.pos = some outPlace.position.address
      · refine iff_of_false (fun stuck => noOut here (stillOut stuck.2.1.2.1)) (not_not.mpr ?_)
        exact fun atLast => absurd atLast.2.1 (noOut here)
      · obtain rfl := same here
        exact ahead.stuck_unlinked_iff shape srcLive isOut outElsewhere
          (ahead.head_eq_iff shape isIn inElsewhere)
    rcases halfAwaits.notify_cases halfShape stillLive stillIn halfElsewhere with
      ⟨free, again, isAgain, -, -, lastAwaits⟩ | ⟨stuck, fails⟩
    · have inUnmoved : ∀ other, graph.notify (some iterator) outPlace.position.address =
          .ok other → ∀ last, (graph.unlinked ends.src .outgoing outPlace).notify other
            inPlace.position.address = .ok last →
              ∀ iterator ∈ last, iterator.pos ≠ some inPlace.key.address := by
        intro other isOther last isLast _ isIterator
        rw [isMoved] at isOther
        obtain rfl := Except.ok.inj isOther
        rw [isAgain] at isLast
        obtain rfl := Except.ok.inj isLast
        obtain rfl := Option.some.inj isIterator
        exact lastAwaits.pos_ne_key halfShape stillLive stillIn halfElsewhere
      refine .inl ⟨not_not.mp (mt stuckIff.mpr free), again, ?_, ?_⟩
      · rw [removeEdge_eq isEdge srcLive destLive isOut isIn outUnmoved inUnmoved, isMoved]
        simp only [Except.bind, isAgain]
        rfl
      · have both : (unseen.filter fun shown => decide (shown ≠ (.outgoing, edge))).filter
            (fun shown => decide (shown ≠ (.incoming, edge))) =
              unseen.filter fun shown => decide (shown.2 ≠ edge) := by
          rw [List.filter_filter]
          refine List.filter_congr fun shown _ => ?_
          obtain ⟨dir, other⟩ := shown
          cases dir <;> simp
        rw [both] at lastAwaits
        refine of_index ?_ lastAwaits
        exact fun dir => rfl
    · have inUnmoved : ∀ other, graph.notify (some iterator) outPlace.position.address =
          .ok other → ∀ last, (graph.unlinked ends.src .outgoing outPlace).notify other
            inPlace.position.address = .ok last →
              ∀ iterator ∈ last, iterator.pos ≠ some inPlace.key.address := by
        intro other isOther last isLast
        rw [isMoved] at isOther
        obtain rfl := Except.ok.inj isOther
        cases fails.symm.trans isLast
      refine .inr ⟨stuckIff.mp stuck, ?_⟩
      rw [removeEdge_eq isEdge srcLive destLive isOut isIn outUnmoved inUnmoved, isMoved]
      simp only [Except.bind, fails]
      rfl
  · exact absurd stuck.1.2.1 (noOut here)

end Awaits

end Pmgd
