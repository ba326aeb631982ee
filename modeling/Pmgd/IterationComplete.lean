import Pmgd.EdgeIteration

/-!
# Iterations show every edge that stays

The edges that an iteration has shown and that are still there, followed by those that it has
not yet shown, are the path through the indexes of the node as they are now.  A step either
keeps this or follows the NULL pointer to the outgoing edges.
-/

namespace Pmgd.Iteration

open EdgeIndex Pmgd.Graph Ahead LabelledRun

variable {graph : Graph} {n : Nat} {which : Option Direction} {asked : Tag} {edge : Nat}

/-! ## The path -/

def pathIn (graph : Graph) (n : Nat) (which : Option Direction) (asked : Tag)
    (dir : Direction) : List (Direction × Nat) :=
  if which = none ∨ which = some dir then marked dir ((graph.index n dir).selected asked) else []

/-- What an iterator would show now. -/
def path (graph : Graph) (n : Nat) (which : Option Direction) (asked : Tag) :
    List (Direction × Nat) :=
  pathIn graph n which asked .incoming ++ pathIn graph n which asked .outgoing

theorem mem_pathIn {dir : Direction} {shown : Direction × Nat}
    (wellFormed : Graph.WellFormed graph) :
    shown ∈ pathIn graph n which asked dir ↔ shown.1 = dir ∧ Matches graph n which asked shown := by
  obtain ⟨other, edge⟩ := shown
  rw [pathIn]
  constructor
  · intro member
    split_ifs at member with isAsked
    · obtain ⟨position, isPosition, same⟩ := List.mem_map.mp member
      obtain ⟨rfl, rfl⟩ := Prod.mk.inj same
      obtain ⟨entry, isEntry, sameEdge, -, isTag⟩ := selected_edge_mem isPosition
      have isListed := (wellFormed.shape.listed n dir entry).mp isEntry
      rw [Graph.Lists, sameEdge] at isListed
      refine ⟨rfl, _, isListed, ?_, isAsked, ?_⟩
      · cases dir <;> rfl
      · cases dir <;> exact isTag
    · cases member
  · rintro ⟨rfl, ends, isEdge, isNode, isAsked, isTag⟩
    rw [if_pos isAsked]
    have isEntry : ∃ entry ∈ (graph.index n other).entries, entry.edge = edge ∧
        entry.tag = ends.tag := by
      cases other with
      | outgoing =>
          exact ⟨⟨ends.tag, edge, ends.dest⟩, (wellFormed.shape.listed n .outgoing _).mpr
            (isEdge.trans (congrArg some (by rw [edgeOf, ← isNode]; rfl))), rfl, rfl⟩
      | incoming =>
          exact ⟨⟨ends.tag, edge, ends.src⟩, (wellFormed.shape.listed n .incoming _).mpr
            (isEdge.trans (congrArg some (by rw [edgeOf, ← isNode]; rfl))), rfl, rfl⟩
    obtain ⟨entry, isEntry, sameEdge, sameTag⟩ := isEntry
    obtain ⟨position, isPosition, samePosition, -⟩ :=
      mem_selected_of_entry isEntry (sameTag.symm ▸ isTag)
    exact List.mem_map.mpr ⟨position, isPosition, by rw [samePosition, sameEdge]⟩

theorem path_nodup (wellFormed : Graph.WellFormed graph) :
    (path graph n which asked).Nodup := by
  have each (dir : Direction) : (pathIn graph n which asked dir).Nodup := by
    rw [pathIn]
    split_ifs
    · exact marked_nodup (wellFormed.shape.index n dir) dir
    · exact List.nodup_nil
  refine List.nodup_append.mpr ⟨each .incoming, each .outgoing, ?_⟩
  intro first isFirst second isSecond same
  have isIncoming := ((mem_pathIn wellFormed).mp isFirst).1
  have isOutgoing := ((mem_pathIn wellFormed).mp isSecond).1
  rw [same, isOutgoing] at isIncoming
  cases isIncoming

theorem mem_path {shown : Direction × Nat} (wellFormed : Graph.WellFormed graph) :
    shown ∈ path graph n which asked ↔ Matches graph n which asked shown := by
  rw [path, List.mem_append, mem_pathIn wellFormed, mem_pathIn wellFormed]
  obtain ⟨dir, edge⟩ := shown
  cases dir <;> simp

theorem length_path_le (graph : Graph) (n : Nat) (which : Option Direction) (asked : Tag) :
    (path graph n which asked).length ≤ graph.rounds n := by
  have each (dir : Direction) :
      (pathIn graph n which asked dir).length ≤ (graph.index n dir).entries.length := by
    rw [pathIn]
    split_ifs
    · rw [marked, List.length_map]
      exact length_selected_le _ asked
    · exact Nat.zero_le _
  rw [path, rounds, List.length_append]
  exact Nat.add_le_add (each .incoming) (each .outgoing)

theorem selected_removed_edge {ends : Edge} {outPlace : Place ends.tag edge ends.dest}
    {inPlace : Place ends.tag edge ends.src} (wellFormed : Graph.WellFormed graph)
    (isEdge : graph.edges edge = some ends)
    (isOut : graph.index ends.src .outgoing = outPlace.whole)
    (isIn : graph.index ends.dest .incoming = inPlace.whole) (dir : Direction) :
    ((graph.removed outPlace inPlace).index n dir).selected asked =
      ((graph.index n dir).selected asked).filter
        fun position => decide (position.edge ≠ edge) := by
  obtain ⟨srcLive, destLive⟩ := wellFormed.live edge ends isEdge
  have outWhole := isOut ▸ wellFormed.shape.index ends.src .outgoing
  have inWhole := isIn ▸ wellFormed.shape.index ends.dest .incoming
  rw [index_removed srcLive destLive]
  split_ifs with isDest isSrc
  · obtain ⟨rfl, rfl⟩ := isDest
    rw [isIn, Place.selected_removed inPlace inWhole]
  · obtain ⟨rfl, rfl⟩ := isSrc
    rw [isOut, Place.selected_removed outPlace outWhole]
  · refine (List.filter_eq_self.mpr fun position member => decide_eq_true ?_).symm
    rintro rfl
    obtain ⟨entry, isEntry, sameEdge, -⟩ := selected_edge_mem member
    have isListed := (wellFormed.shape.listed n dir entry).mp isEntry
    rw [Graph.Lists, sameEdge, isEdge] at isListed
    obtain rfl := Option.some.inj isListed
    cases dir with
    | outgoing => exact isSrc ⟨rfl, rfl⟩
    | incoming => exact isDest ⟨rfl, rfl⟩

theorem path_removed {ends : Edge} {outPlace : Place ends.tag edge ends.dest}
    {inPlace : Place ends.tag edge ends.src} (wellFormed : Graph.WellFormed graph)
    (isEdge : graph.edges edge = some ends)
    (isOut : graph.index ends.src .outgoing = outPlace.whole)
    (isIn : graph.index ends.dest .incoming = inPlace.whole) :
    path (graph.removed outPlace inPlace) n which asked =
      (path graph n which asked).filter fun shown => decide (shown.2 ≠ edge) := by
  have each (dir : Direction) : pathIn (graph.removed outPlace inPlace) n which asked dir =
      (pathIn graph n which asked dir).filter fun shown => decide (shown.2 ≠ edge) := by
    rw [pathIn, pathIn]
    split_ifs
    · have taken := @selected_removed_edge _ n asked _ _ _ _ wellFormed isEdge isOut isIn dir
      rw [marked, marked, taken, List.filter_map]
      rfl
    · rfl
  rw [path, path, List.filter_append, each, each]

/-! ## The invariant -/

/-- What has been shown and what has not, together. -/
def Shows (graph : Graph) (n : Nat) (which : Option Direction) (asked : Tag)
    (yielded unseen : List (Direction × Nat)) : Prop :=
  (yielded.filter fun shown => decide (graph.edges shown.2 ≠ none)) ++ unseen =
    path graph n which asked

/-- What the iterator of an iteration has not yet shown, with the calls of `next` left. -/
def Remains (graph : Graph) (n : Nat) (asked : Tag) (most nexts : Nat) :
    Option EdgeIterator → List (Direction × Nat) → Prop
  | none, unseen => unseen = []
  | some iterator, unseen =>
      Awaits graph n asked iterator unseen ∧ nexts + unseen.length < most

structure Good (n : Nat) (which : Option Direction) (asked : Tag) (most : Nat)
    (past : List Action) (state : Iteration) : Prop where
  wellFormed : Graph.WellFormed state.graph
  shows : ∃ unseen, Shows state.graph n which asked state.yielded unseen ∧
    Remains state.graph n asked most (past.count .next) state.iterator unseen

variable {most : Nat} {past : List Action} {state : Iteration}

theorem Good.complete (good : Good n which asked most past state) :
    Complete n which asked most past state := by
  obtain ⟨wellFormed, unseen, shows, remains⟩ := good
  have count {shown : Direction × Nat} (isMatch : Matches state.graph n which asked shown) :
      state.yielded.count shown + unseen.count shown = 1 := by
    have live : decide (state.graph.edges shown.2 ≠ none) = true := by
      obtain ⟨ends, isEdge, -⟩ := isMatch
      simp [isEdge]
    have once := List.count_eq_one_of_mem (path_nodup wellFormed)
      ((mem_path wellFormed).mpr isMatch)
    have kept : (state.yielded.filter fun shown =>
        decide (state.graph.edges shown.2 ≠ none)).count shown = state.yielded.count shown :=
      List.count_filter live
    rwa [← shows, List.count_append, kept] at once
  constructor
  · intro shown isMatch
    have total := count isMatch
    omega
  · intro isNone shown isMatch
    rw [isNone] at remains
    have total := count isMatch
    rwa [show unseen = [] from remains, List.count_nil, Nat.add_zero] at total
  · intro enough
    cases isIterator : state.iterator with
    | none => rfl
    | some iterator =>
        rw [isIterator] at remains
        have left := remains.2
        omega

/-- Where an iterator comes to it shows an edge or has come to its end. -/
theorem arrive_good {moved : EdgeIterator} {yielded unseen : List (Direction × Nat)}
    (wellFormed : Graph.WellFormed graph) (shows : Shows graph n which asked yielded unseen)
    (ahead : Ahead graph n asked moved unseen) (notVacant : moved.vacant = false)
    (fits : past.count .next + unseen.length ≤ most) :
    ∃ state, arrive graph yielded (some moved) = .ok state ∧ state.graph = graph ∧
      Good n which asked most past state := by
  have isValid : moved.isValid = !unseen.isEmpty := by
    rw [EdgeIterator.isValid, notVacant, Bool.false_or, ahead.isSome_pos]
  rw [arrive, ahead.current_eq (wellFormed.shape.index n), isValid]
  cases unseen with
  | nil => exact ⟨_, rfl, rfl, wellFormed, [], shows, rfl⟩
  | cons first rest =>
      have live : decide (graph.edges first.2 ≠ none) = true := by
        have isPath : first ∈ path graph n which asked := by
          rw [← shows]
          exact List.mem_append_right _ List.mem_cons_self
        obtain ⟨ends, isEdge, -⟩ := (mem_path wellFormed).mp isPath
        simp [isEdge]
      refine ⟨_, rfl, rfl, wellFormed, rest, ?_, ⟨_, ahead, ?_⟩, ?_⟩
      · have isFiltered : [first].filter (fun shown => decide (graph.edges shown.2 ≠ none)) =
            [first] := List.filter_cons_of_pos live
        unfold Shows
        rw [List.head?_cons, Option.toList_some, List.filter_append, isFiltered,
          List.append_assoc]
        exact shows
      · rw [notVacant]
        exact ⟨first, rfl⟩
      · rw [List.length_cons] at fits
        omega

/-! ## One step -/

theorem next_cases (good : Good n which asked most past state) :
    (OutgoingLeft state .next ∧
      ∃ next, state.act .next = .ok next ∧ Good n which asked most (past ++ [.next]) next) ∨
    (¬ OutgoingLeft state .next ∧ state.act .next = .error .nullPointer) := by
  obtain ⟨wellFormed, unseen, shows, remains⟩ := good
  obtain ⟨graph, iterator, yielded⟩ := state
  have counted : (past ++ [Action.next]).count .next = past.count .next + 1 := by simp
  cases iterator with
  | none => exact .inl ⟨trivial, _, rfl, wellFormed, unseen, shows, remains⟩
  | some iterator =>
      obtain ⟨⟨shown, ahead, isUnseen⟩, left⟩ := remains
      have arrives {moved : EdgeIterator} (movedAhead : Ahead graph n asked moved unseen)
          (notVacant : moved.vacant = false) (isMoved : iterator.next graph = .ok moved) :
          ∃ next, act ⟨graph, some iterator, yielded⟩ .next = .ok next ∧
            Good n which asked most (past ++ [.next]) next := by
        obtain ⟨next, arrived, -, good⟩ := @arrive_good graph n which asked most (past ++ [.next])
          moved yielded unseen wellFormed shows movedAhead notVacant (by rw [counted]; omega)
        refine ⟨next, ?_, good⟩
        rw [act]
        simp only [isMoved, Except.bind]
        exact arrived
      cases isVacant : iterator.vacant with
      | true =>
          rw [isVacant, if_pos rfl] at isUnseen
          refine .inl ⟨fun notVacant => ?_, arrives (isUnseen ▸ ahead.setVacant false) rfl ?_⟩
          · rw [isVacant] at notVacant
            cases notVacant
          · rw [EdgeIterator.next, isVacant, if_pos rfl]
      | false =>
          rw [isVacant, if_neg Bool.false_ne_true] at isUnseen
          obtain ⟨first, rfl⟩ := isUnseen
          have stuckIff : ¬ OutgoingLeft ⟨graph, some iterator, yielded⟩ .next ↔
              Stuck graph iterator := by
            have isNil : (graph.index iterator.n1 .outgoing).entries = [] ↔
                graph.index iterator.n1 .outgoing = [] :=
              ⟨eq_nil_of_entries (wellFormed.shape.index _ _), fun same => by rw [same]; rfl⟩
            have left : OutgoingLeft ⟨graph, some iterator, yielded⟩ .next ↔
                (AtLastIncoming graph iterator →
                  (graph.index iterator.n1 .outgoing).entries ≠ []) :=
              ⟨fun holds => holds isVacant, fun holds _ => holds⟩
            rw [left, Stuck, ← isNil]
            push Not
            exact Iff.rfl
          rcases ahead.next_cases (wellFormed.shape.index n) isVacant with
            ⟨free, moved, isMoved, notVacant, -, movedAhead⟩ | ⟨stuck, fails⟩
          · exact .inl ⟨not_not.mp (mt stuckIff.mp free), arrives movedAhead notVacant isMoved⟩
          · refine .inr ⟨stuckIff.mpr stuck, ?_⟩
            rw [act]
            simp only [fails]
            rfl

theorem removeEdge_cases {ends : Edge} (good : Good n which asked most past state)
    (isEdge : state.graph.edges edge = some ends) :
    (OutgoingLeft state (.removeEdge edge) ∧
      ∃ next, state.act (.removeEdge edge) = .ok next ∧
        Good n which asked most (past ++ [.removeEdge edge]) next) ∨
    (¬ OutgoingLeft state (.removeEdge edge) ∧
      state.act (.removeEdge edge) = .error .nullPointer) := by
  obtain ⟨wellFormed, unseen, shows, remains⟩ := good
  obtain ⟨graph, iterator, yielded⟩ := state
  have counted : (past ++ [Action.removeEdge edge]).count .next = past.count .next := by simp
  obtain ⟨⟨outPlace, isOut⟩, inPlace, isIn⟩ := exists_places wellFormed isEdge
  have showsRemoved : Shows (graph.removed outPlace inPlace) n which asked yielded
      (unseen.filter fun shown => decide (shown.2 ≠ edge)) := by
    rw [Shows, path_removed wellFormed isEdge isOut isIn, ← shows, List.filter_append,
      List.filter_filter]
    congr 1
    refine List.filter_congr fun shown _ => ?_
    by_cases same : shown.2 = edge
    · simp [edges_removed, same]
    · simp [edges_removed, same]
  have keptWellFormed := removed_wellFormed wellFormed isEdge isOut isIn
  cases iterator with
  | none =>
      obtain ⟨srcLive, destLive⟩ := wellFormed.live edge ends isEdge
      have removes := @removeEdge_eq graph edge ends outPlace inPlace isEdge srcLive destLive
        isOut isIn none (fun _ isMoved => by cases isMoved; simp)
        (fun _ isMoved _ isAgain => by cases isMoved; cases isAgain; simp)
      refine .inl ⟨trivial, ⟨graph.removed outPlace inPlace, none, yielded⟩, ?_, keptWellFormed,
        _, showsRemoved, ?_⟩
      · rw [act]
        dsimp only
        rw [removes]
        rfl
      · rw [show unseen = [] from remains]
        rfl
  | some iterator =>
      obtain ⟨awaits, left⟩ := remains
      rcases awaits.removeEdge_cases wellFormed isEdge isOut isIn with
        ⟨isLeft, moved, removes, stillAwaits⟩ | ⟨notLeft, fails⟩
      · refine .inl ⟨isLeft, ⟨graph.removed outPlace inPlace, some moved, yielded⟩, ?_,
          keptWellFormed, _, showsRemoved, stillAwaits, ?_⟩
        · rw [act]
          dsimp only
          rw [removes]
          rfl
        · rw [counted]
          exact lt_of_le_of_lt (Nat.add_le_add_left (List.length_filter_le _ _) _) left
      · refine .inr ⟨notLeft, ?_⟩
        rw [act]
        dsimp only
        rw [fails]
        rfl

/-! ## The start -/

theorem path_some (graph : Graph) (n : Nat) (dir : Direction) (asked : Tag) :
    path graph n (some dir) asked = marked dir ((graph.index n dir).selected asked) := by
  rw [path, pathIn, pathIn]
  cases dir with
  | outgoing => rw [if_neg (by simp), if_pos (.inr rfl), List.nil_append]
  | incoming => rw [if_pos (.inr rfl), if_neg (by simp), List.append_nil]

theorem path_none (graph : Graph) (n : Nat) (asked : Tag) :
    path graph n none asked = marked .incoming ((graph.index n .incoming).selected asked) ++
      marked .outgoing ((graph.index n .outgoing).selected asked) := by
  rw [path, pathIn, pathIn, if_pos (.inl rfl), if_pos (.inl rfl)]

theorem marked_of_empty {dir : Direction} (isEmpty : (graph.index n dir).length ≤ 0) :
    marked dir ((graph.index n dir).selected asked) = [] := by
  rw [List.eq_nil_of_length_eq_zero (Nat.le_zero.mp isEmpty)]
  rfl

/-- The iterator need not be told of outgoing edges when there are none. -/
theorem pathBehind_length (graph : Graph) (n : Nat) (asked : Tag) :
    pathBehind graph n asked (decide ((graph.index n .outgoing).length > 0)) =
      marked .outgoing ((graph.index n .outgoing).selected asked) := by
  rw [pathBehind]
  split_ifs with isPositive
  · rfl
  · rw [decide_eq_true_eq, not_lt] at isPositive
    exact (marked_of_empty isPositive).symm

theorem start_ahead {dir : Direction} {outIdx : Bool} (wellFormed : Graph.WellFormed graph)
    (nonempty : ¬ (graph.index n dir).length ≤ 0) (direction : outIdx = true → dir = .incoming) :
    ∃ iterator, EdgeIterator.start graph n dir outIdx = .ok iterator ∧ iterator.vacant = false ∧
      Ahead graph n 0 iterator (marked dir ((graph.index n dir).selected 0) ++
        pathBehind graph n 0 outIdx) := by
  have whole := wellFormed.shape.index n dir
  cases isIndex : graph.index n dir with
  | nil =>
      rw [isIndex] at nonempty
      exact absurd (Nat.le_refl 0) nonempty
  | cons key keys =>
      let outside : EdgeIterator := ⟨n, dir, outIdx, none, 0, none, false⟩
      have entered := @enter graph n outside dir key keys whole isIndex rfl rfl direction
      refine ⟨outside.enter key, ?_, rfl, isIndex ▸ entered⟩
      rw [EdgeIterator.start, isIndex]
      rfl

theorem startTag_ahead (wellFormed : Graph.WellFormed graph) (n : Nat) (dir : Direction)
    (some : asked ≠ 0) :
    Ahead graph n asked (EdgeIterator.startTag graph n dir asked)
      (marked dir ((graph.index n dir).selected asked)) := by
  have ahead := @firstOf graph n asked (EdgeIterator.startTag graph n dir asked) dir
    (wellFormed.shape.index n dir) some rfl rfl rfl rfl rfl (fun isTrue => by cases isTrue)
    (fun _ => rfl)
  exact List.append_nil (marked dir ((graph.index n dir).selected asked)) ▸ ahead

theorem startBothTag_ahead (wellFormed : Graph.WellFormed graph) (n : Nat) (some : asked ≠ 0) :
    ∃ iterator, EdgeIterator.startBothTag graph n asked = .ok iterator ∧
      iterator.vacant = false ∧ Ahead graph n asked iterator
        (marked .incoming ((graph.index n .incoming).selected asked) ++
          marked .outgoing ((graph.index n .outgoing).selected asked)) := by
  rw [EdgeIterator.startBothTag]
  dsimp only
  split_ifs with isNone
  · have noIn : (graph.index n .incoming).selected asked = [] := by
      let outside : EdgeIterator := ⟨n, .incoming, false, none, asked,
        EdgeIterator.firstOf (graph.index n .incoming) asked, false⟩
      rcases @EdgeIterator.firstOf_cases _ asked outside (wellFormed.shape.index n .incoming) some
        rfl rfl rfl with ⟨-, noPath⟩ | ⟨position, after, cursor⟩
      · exact noPath
      · cases isNone.symm.trans cursor.pos
    rw [EdgeIterator.nextKey, EdgeIterator.switchDirection, noIn]
    simp only [Bool.false_eq_true, if_false]
    split_ifs with isOut
    · exact ⟨_, rfl, rfl, startTag_ahead wellFormed n .outgoing some⟩
    · have noOut : (graph.index n .outgoing).length ≤ 0 := by
        rwa [decide_eq_true_eq, not_lt] at isOut
      refine ⟨_, rfl, rfl, rfl, fun _ => rfl, .inl ⟨isNone, ?_⟩⟩
      rw [marked_of_empty noOut]
      rfl
  · refine ⟨_, rfl, rfl, ?_⟩
    rw [← pathBehind_length]
    exact firstOf (wellFormed.shape.index n .incoming) some rfl rfl rfl rfl rfl (fun _ => rfl)
      (fun isNone' => absurd isNone' isNone)

/-- The forms of `get_edges` start at the first edge of the path, if there is one. -/
theorem getEdges_ahead (wellFormed : Graph.WellFormed graph) (n : Nat)
    (which : Option Direction) (asked : Tag) :
    (graph.getEdgesDirTag n which asked = .ok none ∧ path graph n which asked = []) ∨
    ∃ iterator, graph.getEdgesDirTag n which asked = .ok (some iterator) ∧
      iterator.vacant = false ∧ Ahead graph n asked iterator (path graph n which asked) := by
  cases which with
  | some dir =>
      rw [path_some, getEdgesDirTag]
      split_ifs with all
      · subst all
        rw [getEdgesDir]
        split_ifs with isEmpty
        · exact .inl ⟨rfl, marked_of_empty isEmpty⟩
        · obtain ⟨iterator, starts, notVacant, ahead⟩ :=
            @start_ahead graph n dir false wellFormed isEmpty (fun isTrue => by cases isTrue)
          refine .inr ⟨iterator, by rw [starts]; rfl, notVacant, ?_⟩
          exact List.append_nil (marked dir ((graph.index n dir).selected 0)) ▸ ahead
      · exact .inr ⟨_, rfl, rfl, startTag_ahead wellFormed n dir all⟩
  | none =>
      rw [path_none, getEdgesDirTag, getEdgesTag]
      by_cases all : asked = 0
      · subst all
        rw [if_pos rfl, getEdges]
        split_ifs with bothEmpty noIn
        · refine .inl ⟨rfl, ?_⟩
          rw [marked_of_empty bothEmpty.1, marked_of_empty bothEmpty.2, List.append_nil]
        · obtain ⟨iterator, starts, notVacant, ahead⟩ :=
            @start_ahead graph n .outgoing false wellFormed (fun noOut => bothEmpty ⟨noIn, noOut⟩)
              (fun isTrue => by cases isTrue)
          refine .inr ⟨iterator, by rw [starts]; rfl, notVacant, ?_⟩
          rw [marked_of_empty noIn, List.nil_append]
          exact List.append_nil (marked .outgoing ((graph.index n .outgoing).selected 0)) ▸ ahead
        · obtain ⟨iterator, starts, notVacant, ahead⟩ :=
            @start_ahead graph n .incoming _ wellFormed noIn (fun _ => rfl)
          rw [pathBehind_length] at ahead
          exact .inr ⟨iterator, by rw [starts]; rfl, notVacant, ahead⟩
      · rw [if_neg all]
        split_ifs with bothEmpty noIn
        · refine .inl ⟨rfl, ?_⟩
          rw [marked_of_empty bothEmpty.1, marked_of_empty bothEmpty.2, List.append_nil]
        · refine .inr ⟨_, rfl, rfl, ?_⟩
          rw [marked_of_empty noIn, List.nil_append]
          exact startTag_ahead wellFormed n .outgoing all
        · obtain ⟨iterator, starts, notVacant, ahead⟩ := startBothTag_ahead wellFormed n all
          exact .inr ⟨iterator, by rw [starts]; rfl, notVacant, ahead⟩

theorem start_good (wellFormed : Graph.WellFormed graph) (n : Nat) (which : Option Direction)
    (asked : Tag) :
    ∃ state, start graph n which asked = .ok state ∧ state.graph = graph ∧
      Good n which asked (graph.rounds n) [] state := by
  rcases getEdges_ahead wellFormed n which asked with
    ⟨starts, isEmpty⟩ | ⟨iterator, starts, notVacant, ahead⟩
  · refine ⟨⟨graph, none, []⟩, by rw [start, starts]; rfl, rfl, wellFormed, [], ?_, rfl⟩
    rw [Shows, isEmpty]
    rfl
  · have fits := length_path_le graph n which asked
    obtain ⟨state, arrives, same, good⟩ := @arrive_good graph n which asked (graph.rounds n) []
      iterator [] _ wellFormed rfl ahead notVacant (le_of_eq_of_le (Nat.zero_add _) fits)
    exact ⟨state, by rw [start, starts]; exact arrives, same, good⟩

/-- An iteration goes well under every sequence of steps, and shows every edge that stays
exactly once, if and only if the steps leave it an outgoing edge whenever it comes to these
from the incoming ones. -/
theorem complete_iff (reachable : Reachable graph) (n : Nat) (which : Option Direction)
    (asked : Tag) :
    ∃ state, start graph n which asked = .ok state ∧
      ∀ actions, MeetsAlong step RemovesLive state actions →
        ((∀ before, before <+: actions → ∃ last, run step state before = some last ∧
            Complete n which asked (graph.rounds n) before last) ↔
          MeetsAlong step OutgoingLeft state actions) := by
  obtain ⟨state, starts, -, initially⟩ := start_good reachable.wellFormed n which asked
  refine ⟨state, starts, fun actions live => ?_⟩
  have cases {past : List Action} {state : Iteration} {action : Action}
      (good : Good n which asked (graph.rounds n) past state)
      (isLive : RemovesLive state action) :
      (OutgoingLeft state action ∧ ∃ next, state.act action = .ok next ∧
        Good n which asked (graph.rounds n) (past ++ [action]) next) ∨
      (¬ OutgoingLeft state action ∧ state.act action = .error .nullPointer) := by
    cases action with
    | next => exact next_cases good
    | removeEdge edge =>
        obtain ⟨ends, isEdge⟩ := Option.ne_none_iff_exists'.mp isLive
        exact removeEdge_cases good isEdge
  refine forall_prefix_iff_meetsAlong_of RemovesLive (Good n which asked (graph.rounds n))
    (Complete n which asked (graph.rounds n)) (fun _ _ => Good.complete) ?_ ?_ [] initially
    actions live
  · intro past state action good isLive isLeft
    rcases cases good isLive with ⟨-, next, acts, nextGood⟩ | ⟨notLeft, -⟩
    · exact ⟨next, by rw [step, acts]; rfl, nextGood⟩
    · exact absurd isLeft notLeft
  · intro past state action next good isLive stepped _
    rcases cases good isLive with ⟨isLeft, -⟩ | ⟨-, fails⟩
    · exact isLeft
    · rw [step, fails] at stepped
      cases stepped

/-- A node with one incoming and one outgoing edge. -/
def eachWay : List Graph.Action :=
  [.addNode 1, .addNode 2, .addEdge 10 2 1 7 ⟨100, 101, 102, 103⟩,
    .addEdge 11 1 2 7 ⟨104, 105, 106, 107⟩]

theorem complete_iff_eachWay : ∃ graph state, LabelledRun.run Graph.step .empty eachWay =
      some graph ∧ start graph 1 none 0 = .ok state ∧
    ∀ before, before <+: [.removeEdge 10, .next, .next] → ∃ last,
      run step state before = some last ∧ Complete 1 none 0 (graph.rounds 1) before last := by
  let graph := (LabelledRun.run Graph.step .empty eachWay).getD .empty
  have isRun : LabelledRun.run Graph.step .empty eachWay = some graph := rfl
  obtain ⟨state, starts, complete⟩ := complete_iff ⟨_, isRun⟩ 1 none 0
  have evaluated : (match start graph 1 none 0 with
      | .ok state => decide (MeetsAlong step RemovesLive state [.removeEdge 10, .next, .next] ∧
          MeetsAlong step OutgoingLeft state [.removeEdge 10, .next, .next])
      | .error _ => false) = true := by decide
  rw [starts] at evaluated
  obtain ⟨live, left⟩ := of_decide_eq_true evaluated
  exact ⟨graph, state, isRun, starts, (complete _ live).mpr left⟩

/-- When the only outgoing edge has been removed, `next` follows a NULL pointer. -/
theorem outgoing_removed_nullPointer : ∃ graph state,
    LabelledRun.run Graph.step .empty eachWay = some graph ∧ start graph 1 none 0 = .ok state ∧
    MeetsAlong step RemovesLive state [.removeEdge 11, .next] ∧
    ((state.act (.removeEdge 11)).bind fun next => next.act .next) = .error .nullPointer ∧
    ¬ ∀ before, before <+: [.removeEdge 11, .next] → ∃ last,
      run step state before = some last ∧ Complete 1 none 0 (graph.rounds 1) before last := by
  let graph := (LabelledRun.run Graph.step .empty eachWay).getD .empty
  have isRun : LabelledRun.run Graph.step .empty eachWay = some graph := rfl
  obtain ⟨state, starts, isGraph, -⟩ := start_good (Reachable.wellFormed ⟨_, isRun⟩) 1 none 0
  have outcome : ((start graph 1 none 0).bind fun state => (state.act (.removeEdge 11)).bind
      fun next => next.act .next) = .error .nullPointer := rfl
  have isLive : graph.edges 11 ≠ none := by decide
  rw [starts] at outcome
  have removesLive : RemovesLive state (.removeEdge 11) := by
    rw [RemovesLive, isGraph]
    exact isLive
  refine ⟨graph, state, isRun, starts, ⟨removesLive, fun _ _ => ⟨trivial, fun _ _ => trivial⟩⟩,
    outcome, fun everyPrefix => ?_⟩
  obtain ⟨last, reaches, -⟩ := everyPrefix _ (List.prefix_refl _)
  have fails : (state.act (.removeEdge 11)).bind (fun next => next.act .next) =
      .error .nullPointer := outcome
  simp only [run_cons, run_nil, step] at reaches
  cases acts : state.act (.removeEdge 11) with
  | error fault =>
      rw [acts] at reaches
      cases reaches
  | ok next =>
      rw [acts] at reaches fails
      have nextFails : next.act .next = .error .nullPointer := fails
      simp only [Except.toOption, Option.bind_some, nextFails, Option.bind_none] at reaches
      cases reaches

end Pmgd.Iteration
