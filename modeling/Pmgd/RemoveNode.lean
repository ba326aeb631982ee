import Pmgd.RemoveEdge

/-!
# Removing a node

The loop over the edges of a node always stands at the first edge that is left, because it
removes every edge that it meets.

When all outgoing edges of a node are loops, these are gone once the incoming edges have been
removed, but the iterator was told at the start that there are outgoing edges, and follows the
NULL pointer to the first of them.  In all other cases the node and its edges are removed.
-/

namespace Pmgd

open EdgeIndex LabelledRun

/-! ## Positions -/

namespace EdgeIndex

/-- The addresses of the elements that stand for edges. -/
def positions (index : EdgeIndex) : List Nat :=
  index.flatMap fun key => key.list.map EdgePosition.address

variable {index keys : EdgeIndex} {key : KeyPosition} {tag : Tag} {edge node : Nat}

@[simp]
theorem positions_cons :
    positions (key :: keys) = key.list.map EdgePosition.address ++ positions keys :=
  List.flatMap_cons

theorem positions_subset (index : EdgeIndex) : index.positions ⊆ index.addresses := by
  intro address member
  obtain ⟨key, isKey, inKey⟩ := List.mem_flatMap.mp member
  exact List.mem_flatMap.mpr ⟨key, isKey, List.mem_cons_of_mem _ inKey⟩

theorem key_not_position (distinct : (addresses (key :: keys)).Nodup) :
    key.address ∉ positions (key :: keys) := by
  rw [addresses_cons, KeyPosition.addresses, List.cons_append, List.nodup_cons,
    List.mem_append] at distinct
  rw [positions_cons, List.mem_append]
  exact fun member => distinct.1 (member.imp_right fun behind => positions_subset keys behind)

/-- The first place of an index. -/
def headPlace {position : EdgePosition} {rest : List EdgePosition}
    (isList : key.list = position :: rest) (keys : EdgeIndex) :
    Place key.key position.edge position.node where
  before := []
  key := key
  after := keys
  first := []
  position := position
  rest := rest
  list_eq := isList
  key_eq := rfl
  edge_eq := rfl
  node_eq := rfl
  not_before _ member := absurd member List.not_mem_nil
  not_first _ member := absurd member List.not_mem_nil

theorem headPlace_removed {position : EdgePosition} {rest : List EdgePosition}
    (isList : key.list = position :: rest) :
    (headPlace isList keys).removed =
      if rest = [] then keys else { key with list := rest } :: keys :=
  rfl

theorem Place.removed_positions (place : Place tag edge node) :
    place.removed.positions ⊆ place.whole.positions := by
  intro address member
  rw [Place.removed] at member
  simp only [positions, Place.whole, List.flatMap_append, List.flatMap_cons, List.mem_append,
    place.list_eq, List.map_append, List.map_cons, List.mem_cons] at member ⊢
  split_ifs at member with empty
  · simp only [List.flatMap_append, List.mem_append] at member
    exact member.imp_right .inr
  · simp only [Place.others, List.flatMap_append, List.flatMap_cons, List.map_append,
      List.mem_append] at member
    grind

end EdgeIndex

/-! ## The iterator stands at the first edge -/

namespace EdgeIterator

/-- An iterator at the first edge of a bucket. -/
def standing (n : Nat) (dir : Direction) (outIdx : Bool) (key : KeyPosition) : EdgeIterator :=
  EdgeIterator.enter ⟨n, dir, outIdx, none, 0, none, false⟩ key

/-- Where an iterator goes that has no more buckets in front of it than the given ones; `out`
is the index of the outgoing edges. -/
def firstLeft (n : Nat) (dir : Direction) (outIdx : Bool) (tag : Tag) (out : EdgeIndex) :
    EdgeIndex → Except Fault EdgeIterator
  | key :: _ => .ok (standing n dir outIdx key)
  | [] =>
      if outIdx then
        match out with
        | key :: _ => .ok (standing n .outgoing false key)
        | [] => .error .nullPointer
      else .ok ⟨n, dir, false, none, tag, none, false⟩

variable {graph : Graph} {n : Nat} {dir : Direction} {outIdx : Bool} {tag : Tag}
  {key : KeyPosition} {keys index out : EdgeIndex} {position : EdgePosition}
  {rest : List EdgePosition} {iterator : EdgeIterator}

theorem firstLeft_vacant (moved : firstLeft n dir outIdx tag out index = .ok iterator) :
    iterator.vacant = false := by
  cases index with
  | cons key keys =>
      obtain rfl := Except.ok.inj moved
      rfl
  | nil =>
      cases outIdx with
      | false =>
          obtain rfl := Except.ok.inj moved
          rfl
      | true =>
          cases out with
          | nil => cases moved
          | cons key keys =>
              obtain rfl := Except.ok.inj moved
              rfl

theorem standing_pos {address : Nat} (isPos : (standing n dir outIdx key).pos = some address) :
    address ∈ positions (key :: keys) := by
  obtain ⟨first, isFirst, rfl⟩ := Option.map_eq_some_iff.mp isPos
  rw [positions_cons, List.mem_append]
  exact .inl (List.mem_map_of_mem (List.mem_of_mem_head? isFirst))

theorem firstLeft_pos {address : Nat}
    (moved : firstLeft n dir outIdx tag out index = .ok iterator)
    (isPos : iterator.pos = some address) :
    address ∈ index.positions ∨ outIdx = true ∧ address ∈ out.positions := by
  cases index with
  | cons key keys =>
      obtain rfl := Except.ok.inj moved
      exact .inl (standing_pos isPos)
  | nil =>
      cases outIdx with
      | false =>
          obtain rfl := Except.ok.inj moved
          cases isPos
      | true =>
          cases out with
          | nil => cases moved
          | cons key keys =>
              obtain rfl := Except.ok.inj moved
              exact .inr ⟨rfl, standing_pos isPos⟩

theorem firstLeft_outgoing (out other : EdgeIndex) :
    firstLeft n dir false tag out index = firstLeft n dir false tag other index := by
  cases index with
  | nil => rfl
  | cons key keys => rfl

/-- From the first edge an iterator goes to where it would be without that edge. -/
theorem next_standing (isIndex : graph.index n dir = key :: keys)
    (isList : key.list = position :: rest) :
    (standing n dir outIdx key).next graph =
      firstLeft n dir outIdx key.key (graph.index n .outgoing)
        (headPlace isList keys).removed := by
  have isPos : (standing n dir outIdx key).pos = some position.address := by
    rw [standing, enter, isList]
    rfl
  have found : (graph.index n dir).find? (fun key =>
      decide (position.address ∈ key.list.map EdgePosition.address)) = some key := by
    rw [isIndex, List.find?_cons_of_pos (by simp [isList])]
  have behind : nextPosition (graph.index n dir) position.address = .ok rest.head? := by
    simp only [nextPosition, found, isList, follower, if_pos]
  have keyBehind : follower KeyPosition.address key.address (graph.index n dir) =
      .ok keys.head? := by
    rw [isIndex, follower, if_pos rfl]
  have notVacant : (standing n dir outIdx key).vacant = false := rfl
  have isNode : (standing n dir outIdx key).n1 = n := rfl
  have isDir : (standing n dir outIdx key).dir = dir := rfl
  rw [next, notVacant, isPos, headPlace_removed]
  simp only [Bool.false_eq_true, if_false, isNode, isDir, behind, Except.bind]
  cases rest with
  | cons next others => rfl
  | nil =>
      rw [if_pos rfl]
      have isKeyPos : (standing n dir outIdx key).keyPos = some key.address := rfl
      simp only [List.head?_nil, nextKey, isKeyPos, keyBehind, Except.bind]
      cases keys with
      | cons other others => rfl
      | nil =>
          simp only [List.head?_nil, switchDirection, firstLeft]
          cases outIdx with
          | false => rfl
          | true =>
              simp only [standing, enter, if_true]
              cases graph.index n .outgoing with
              | nil => rfl
              | cons other others => rfl

theorem removeNotify_standing (isIndex : graph.index n dir = key :: keys)
    (isList : key.list = position :: rest) :
    (standing n dir outIdx key).removeNotify graph position.address =
      (firstLeft n dir outIdx key.key (graph.index n .outgoing)
        (headPlace isList keys).removed).map fun moved : EdgeIterator =>
          { moved with vacant := true } := by
  have isPos : (standing n dir outIdx key).pos = some position.address := by
    rw [standing, enter, isList]
    rfl
  rw [removeNotify, if_pos isPos, ← next_standing isIndex isList]
  rfl

end EdgeIterator

/-- The node at an end of an edge, the one that lists it in the direction. -/
def Edge.endAt (ends : Edge) : Direction → Nat
  | .outgoing => ends.src
  | .incoming => ends.dest

namespace Graph

open EdgeIterator

/-! ## One round of the loop -/

/-- Some edges of a kind are removed, and nothing else. -/
structure Pruned (gone : Edge → Prop) (graph graph' : Graph) : Prop where
  wellFormed : WellFormed graph'
  nodes : ∀ m, graph'.nodes m = none ↔ graph.nodes m = none
  edges : ∀ edge, graph'.edges edge = graph.edges edge ∨
    graph'.edges edge = none ∧ ∃ ends, graph.edges edge = some ends ∧ gone ends
  fewer : ∀ m dir, (graph'.index m dir).entries.length ≤ (graph.index m dir).entries.length

variable {graph graph' : Graph} {gone also : Edge → Prop} {n : Nat} {dir : Direction}
  {outIdx : Bool} {key : KeyPosition} {keys : EdgeIndex} {position : EdgePosition}
  {rest : List EdgePosition}

theorem Pruned.refl (wellFormed : WellFormed graph) : Pruned gone graph graph where
  wellFormed := wellFormed
  nodes _ := Iff.rfl
  edges _ := .inl rfl
  fewer _ _ := le_rfl

theorem Pruned.trans {last : Graph} (first : Pruned gone graph graph')
    (second : Pruned gone graph' last) : Pruned gone graph last where
  wellFormed := second.wellFormed
  nodes m := (second.nodes m).trans (first.nodes m)
  edges edge := by
    rcases second.edges edge with same | ⟨isNone, ends, isEdge, isGone⟩
    · rcases first.edges edge with before | ⟨isNone, before⟩
      · exact .inl (same.trans before)
      · exact .inr ⟨same.trans isNone, before⟩
    · rcases first.edges edge with before | ⟨gone, -⟩
      · exact .inr ⟨isNone, ends, before.symm.trans isEdge, isGone⟩
      · rw [gone] at isEdge
        cases isEdge
  fewer m dir := (second.fewer m dir).trans (first.fewer m dir)

theorem Pruned.mono (pruned : Pruned gone graph graph')
    (weaker : ∀ ends, gone ends → also ends) : Pruned also graph graph' :=
  { pruned with
    edges := fun edge => (pruned.edges edge).imp_right fun ⟨isNone, ends, isEdge, isGone⟩ =>
      ⟨isNone, ends, isEdge, weaker ends isGone⟩ }

/-- An edge that is left was there before. -/
theorem Pruned.edges_some (pruned : Pruned gone graph graph') {edge : Nat} {ends : Edge}
    (isEdge : graph'.edges edge = some ends) : graph.edges edge = some ends := by
  rcases pruned.edges edge with same | ⟨isNone, -⟩
  · exact same.symm.trans isEdge
  · rw [isNone] at isEdge
    cases isEdge

theorem removed_pruned {edge : Nat} {ends : Edge} {outPlace : Place ends.tag edge ends.dest}
    {inPlace : Place ends.tag edge ends.src} (wellFormed : WellFormed graph)
    (isEdge : graph.edges edge = some ends)
    (isOut : graph.index ends.src .outgoing = outPlace.whole)
    (isIn : graph.index ends.dest .incoming = inPlace.whole) (isGone : gone ends) :
    Pruned gone graph (graph.removed outPlace inPlace) where
  wellFormed := removed_wellFormed wellFormed isEdge isOut isIn
  nodes _ := nodes_removed
  edges old := by
    rw [edges_removed]
    by_cases same : old = edge
    · subst same
      rw [Function.update_self]
      exact .inr ⟨rfl, ends, isEdge, isGone⟩
    · exact .inl (Function.update_of_ne same _ _)
  fewer m dir := by
    obtain ⟨srcLive, destLive⟩ := wellFormed.live edge ends isEdge
    rw [index_removed srcLive destLive]
    split_ifs with atDest atSrc
    · rw [atDest.1, atDest.2, isIn, inPlace.length_entries_removed]
      exact Nat.le_succ _
    · rw [atSrc.1, atSrc.2, isOut, outPlace.length_entries_removed]
      exact Nat.le_succ _
    · exact le_rfl

theorem notify_other {iterator : EdgeIterator} {address : Nat}
    (elsewhere : iterator.pos ≠ some address) :
    graph.notify (some iterator) address = .ok (some iterator) := by
  rw [notify, removeNotify, if_neg elsewhere]
  rfl

theorem notify_standing (isIndex : graph.index n dir = key :: keys)
    (isList : key.list = position :: rest) :
    graph.notify (some (standing n dir outIdx key)) position.address =
      (firstLeft n dir outIdx key.key (graph.index n .outgoing)
        (headPlace isList keys).removed).map fun moved : EdgeIterator =>
          some { moved with vacant := true } := by
  rw [notify, removeNotify_standing isIndex isList]
  cases firstLeft n dir outIdx key.key (graph.index n .outgoing)
      (headPlace isList keys).removed with
  | error fault => rfl
  | ok moved => rfl

variable {tag : Tag} {edge node : Nat} {listed : Nat → Direction → Entry → Prop}

theorem notify_head {place : Place tag edge node} (isIndex : graph.index n dir = place.whole)
    (before : place.before = []) (first : place.first = []) :
    graph.notify (some (standing n dir outIdx place.key)) place.position.address =
      (firstLeft n dir outIdx place.key.key (graph.index n .outgoing) place.removed).map
        fun moved : EdgeIterator => some { moved with vacant := true } := by
  obtain ⟨_, key, after, _, position, rest, isList, rfl, rfl, rfl, _, _⟩ := place
  obtain rfl : _ = [] := before
  obtain rfl : _ = [] := first
  exact notify_standing isIndex isList

theorem standing_mem {place : Place tag edge node} (isIndex : graph.index n dir = place.whole)
    {address : Nat} (isPos : (standing n dir outIdx place.key).pos = some address) :
    address ∈ (graph.index n dir).addresses := by
  rw [isIndex, Place.whole, addresses_append]
  exact List.mem_append_right _ (positions_subset _ (standing_pos isPos))

/-- An iterator that was told to move on is at an edge of the node, not at a bucket. -/
theorem notify_head_pos (shape : Shape graph listed) {place : Place tag edge node}
    (isIndex : graph.index n dir = place.whole) (before : place.before = [])
    (first : place.first = []) (onlyOut : dir = .outgoing → outIdx = false)
    {moved : Option EdgeIterator}
    (notified : graph.notify (some (standing n dir outIdx place.key)) place.position.address =
      .ok moved) {iterator : EdgeIterator} (isMoved : iterator ∈ moved) {address : Nat}
    (isPos : iterator.pos = some address) :
    address ≠ place.key.address ∧ ∃ other, address ∈ (graph.index n other).addresses ∧
      (dir = .outgoing → other = .outgoing) := by
  rw [notify_head isIndex before first] at notified
  cases left : firstLeft n dir outIdx place.key.key (graph.index n .outgoing)
      place.removed with
  | error fault =>
      rw [left] at notified
      cases notified
  | ok there =>
      rw [left] at notified
      obtain rfl := Except.ok.inj notified
      obtain rfl := Option.some.inj isMoved
      have distinct := (shape.index n dir).addresses
      rcases firstLeft_pos left isPos with inIndex | ⟨switched, inOut⟩
      · have isHead : place.whole = place.key :: place.after := by
          rw [Place.whole, before, List.nil_append]
        have isPosition := place.removed_positions inIndex
        refine ⟨?_, dir, ?_, id⟩
        · rintro rfl
          rw [isIndex, isHead] at distinct
          exact key_not_position distinct (isHead ▸ isPosition)
        · rw [isIndex]
          exact positions_subset _ isPosition
      · have inOutgoing := positions_subset _ inOut
        refine ⟨?_, .outgoing, inOutgoing, fun _ => rfl⟩
        rintro rfl
        refine shape.apart n .outgoing n dir ?_ _ inOutgoing (isIndex ▸ place.key_mem)
        intro same
        rw [onlyOut (Prod.mk.inj same).2.symm] at switched
        cases switched

variable {ends : Edge} {outPlace : Place ends.tag edge ends.dest}
  {inPlace : Place ends.tag edge ends.src}

/-- The loop removes the first incoming edge, and the iterator moves on. -/
theorem removeEdge_incoming (wellFormed : WellFormed graph)
    (isEdge : graph.edges edge = some ends)
    (isOut : graph.index ends.src .outgoing = outPlace.whole)
    (isIn : graph.index ends.dest .incoming = inPlace.whole) (before : inPlace.before = [])
    (first : inPlace.first = []) :
    graph.removeEdge (some (standing ends.dest .incoming outIdx inPlace.key)) edge =
      (firstLeft ends.dest .incoming outIdx inPlace.key.key
        ((graph.removed outPlace inPlace).index ends.dest .outgoing) inPlace.removed).map
          fun moved : EdgeIterator =>
            (graph.removed outPlace inPlace, some { moved with vacant := true }) := by
  obtain ⟨srcLive, destLive⟩ := wellFormed.live edge ends isEdge
  have shape := unlinked_shape wellFormed.shape srcLive isOut
  have stillIn : (graph.unlinked ends.src .outgoing outPlace).index ends.dest .incoming =
      inPlace.whole := by
    rw [index_unlinked srcLive, if_neg (by simp), isIn]
  have sameOut : (graph.removed outPlace inPlace).index ends.dest .outgoing =
      (graph.unlinked ends.src .outgoing outPlace).index ends.dest .outgoing := by
    rw [index_removed srcLive destLive, index_unlinked srcLive, if_neg (by simp)]
  have quiet : graph.notify (some (standing ends.dest .incoming outIdx inPlace.key))
      outPlace.position.address =
        .ok (some (standing ends.dest .incoming outIdx inPlace.key)) := by
    refine notify_other fun isPos => ?_
    refine wellFormed.shape.apart ends.dest .incoming ends.src .outgoing (by simp) _
      (standing_mem isIn isPos) ?_
    exact isOut ▸ outPlace.position_mem
  have outUnmoved : ∀ moved, graph.notify
      (some (standing ends.dest .incoming outIdx inPlace.key)) outPlace.position.address =
        .ok moved → ∀ iterator ∈ moved, iterator.pos ≠ some outPlace.key.address := by
    intro moved isMoved iterator isIterator isPos
    rw [quiet] at isMoved
    obtain rfl := Except.ok.inj isMoved
    obtain rfl := Option.some.inj isIterator
    refine wellFormed.shape.apart ends.dest .incoming ends.src .outgoing (by simp) _
      (standing_mem isIn isPos) ?_
    exact isOut ▸ outPlace.key_mem
  rw [removeEdge_eq isEdge srcLive destLive isOut isIn outUnmoved ?_, quiet, sameOut]
  · simp only [Except.bind]
    rw [notify_head stillIn before first]
    cases firstLeft ends.dest .incoming outIdx inPlace.key.key
        ((graph.unlinked ends.src .outgoing outPlace).index ends.dest .outgoing)
        inPlace.removed with
    | error fault => rfl
    | ok moved => rfl
  · intro moved isMoved again isAgain iterator isIterator isPos
    rw [quiet] at isMoved
    obtain rfl := Except.ok.inj isMoved
    exact (notify_head_pos shape stillIn before first (by simp) isAgain isIterator isPos).1 rfl

/-- The loop removes the first outgoing edge, and the iterator moves on. -/
theorem removeEdge_outgoing (wellFormed : WellFormed graph)
    (isEdge : graph.edges edge = some ends)
    (isOut : graph.index ends.src .outgoing = outPlace.whole)
    (isIn : graph.index ends.dest .incoming = inPlace.whole) (before : outPlace.before = [])
    (first : outPlace.first = []) :
    graph.removeEdge (some (standing ends.src .outgoing false outPlace.key)) edge =
      (firstLeft ends.src .outgoing false outPlace.key.key
        ((graph.removed outPlace inPlace).index ends.src .outgoing) outPlace.removed).map
          fun moved : EdgeIterator =>
            (graph.removed outPlace inPlace, some { moved with vacant := true }) := by
  obtain ⟨srcLive, destLive⟩ := wellFormed.live edge ends isEdge
  have head := @notify_head graph ends.src .outgoing false _ _ _ outPlace isOut before first
  have away : ∀ moved, graph.notify (some (standing ends.src .outgoing false outPlace.key))
      outPlace.position.address = .ok moved → ∀ iterator ∈ moved, ∀ address,
        iterator.pos = some address → address ≠ outPlace.key.address ∧
          address ∉ (graph.index ends.dest .incoming).addresses := by
    intro moved isMoved iterator isIterator address isPos
    obtain ⟨notKey, other, inOther, isOutgoing⟩ := notify_head_pos wellFormed.shape isOut before
      first (fun _ => rfl) isMoved isIterator isPos
    rw [isOutgoing rfl] at inOther
    exact ⟨notKey, wellFormed.shape.apart _ _ _ _ (by simp) _ inOther⟩
  have quiet : ∀ moved, graph.notify (some (standing ends.src .outgoing false outPlace.key))
      outPlace.position.address = .ok moved →
        (graph.unlinked ends.src .outgoing outPlace).notify moved inPlace.position.address =
          .ok moved := by
    intro moved isMoved
    cases moved with
    | none => rfl
    | some iterator =>
        refine notify_other fun isPos => ?_
        exact (away _ isMoved iterator rfl _ isPos).2 (isIn ▸ inPlace.position_mem)
  rw [removeEdge_eq isEdge srcLive destLive isOut isIn ?_ ?_]
  · rw [firstLeft_outgoing _ (graph.index ends.src .outgoing)]
    cases left : firstLeft ends.src .outgoing false outPlace.key.key
        (graph.index ends.src .outgoing) outPlace.removed with
    | error fault =>
        rw [left] at head
        rw [head]
        rfl
    | ok moved =>
        rw [left] at head
        have isMoved : graph.notify (some (standing ends.src .outgoing false outPlace.key))
            outPlace.position.address = .ok (some { moved with vacant := true }) := head
        simp only [isMoved, Except.bind, quiet _ isMoved]
        rfl
  · intro moved isMoved iterator isIterator isPos
    exact (away moved isMoved iterator isIterator _ isPos).1 rfl
  · intro moved isMoved again isAgain iterator isIterator isPos
    rw [quiet moved isMoved] at isAgain
    obtain rfl := Except.ok.inj isAgain
    exact (away _ isMoved iterator isIterator _ isPos).2 (isIn ▸ inPlace.key_mem)

theorem processEdges_standing {out left : EdgeIndex} {rounds : Nat}
    (isIndex : graph.index n dir = key :: keys) (isList : key.list = position :: rest)
    (removes : graph.removeEdge (some (standing n dir outIdx key)) position.edge =
      (firstLeft n dir outIdx tag out left).map fun moved : EdgeIterator =>
        (graph', some { moved with vacant := true })) :
    processEdges (rounds + 1) graph (standing n dir outIdx key) =
      (firstLeft n dir outIdx tag out left).bind (processEdges rounds graph') := by
  have isPos : (standing n dir outIdx key).pos = some position.address := by
    rw [standing, enter, isList]
    rfl
  have isPosition : positionAt (graph.index n dir) position.address = .ok position := by
    rw [positionAt, isIndex, List.flatMap_cons, isList, List.cons_append,
      List.find?_cons_of_pos (by simp)]
  have notVacant : (standing n dir outIdx key).vacant = false := rfl
  have isNode : (standing n dir outIdx key).n1 = n := rfl
  have isDir : (standing n dir outIdx key).dir = dir := rfl
  rw [processEdges, notVacant, isPos]
  simp only [Bool.false_eq_true, if_false, isNode, isDir, isPosition, Except.bind, removes]
  cases moves : firstLeft n dir outIdx tag out left with
  | error fault => rfl
  | ok moved =>
      have present : { moved with vacant := false } = moved := by
        rw [← firstLeft_vacant moves]
      simp only [Except.map, EdgeIterator.next, if_true, present]

/-- One round removes the edge that the iterator stands at, and the iterator moves on. -/
theorem processEdges_succ (wellFormed : WellFormed graph)
    (isIndex : graph.index n dir = key :: keys) (onlyOut : dir = .outgoing → outIdx = false)
    (rounds : Nat) :
    ∃ graph' left, Pruned (fun ends => ends.endAt dir = n) graph graph' ∧
      graph'.index n dir = left ∧
      (graph.index n dir).entries.length = left.entries.length + 1 ∧
      processEdges (rounds + 1) graph (standing n dir outIdx key) =
        (firstLeft n dir outIdx key.key (graph'.index n .outgoing) left).bind
          (processEdges rounds graph') := by
  obtain ⟨position, rest, isList⟩ := List.exists_cons_of_ne_nil
    ((wellFormed.shape.index n dir).nonempty key (by simp [isIndex]))
  have isEntry : entryOf key.key position ∈ (graph.index n dir).entries :=
    mem_entries.mpr ⟨key, by simp [isIndex], position, by simp [isList], rfl⟩
  have isEdge := (wellFormed.shape.listed _ _ _).mp isEntry
  obtain ⟨srcLive, destLive⟩ := wellFormed.live _ _ isEdge
  obtain ⟨⟨outPlace, isOut⟩, inPlace, isIn⟩ := exists_places wellFormed isEdge
  have isHead : graph.index n dir = (headPlace isList keys).whole := isIndex
  have shorter := (headPlace isList keys).length_entries_removed
  rw [← isHead] at shorter
  cases dir with
  | incoming =>
      refine ⟨@removed position.edge graph ⟨position.node, n, key.key⟩ outPlace (headPlace isList keys),
        (headPlace isList keys).removed,
        removed_pruned wellFormed isEdge isOut isHead rfl, ?_, shorter, ?_⟩
      · exact (index_removed srcLive destLive).trans (if_pos ⟨rfl, rfl⟩)
      · exact processEdges_standing isIndex isList
          (removeEdge_incoming wellFormed isEdge isOut isHead rfl rfl)
  | outgoing =>
      have noOut := onlyOut rfl
      subst noOut
      refine ⟨@removed position.edge graph ⟨n, position.node, key.key⟩ (headPlace isList keys) inPlace,
        (headPlace isList keys).removed,
        removed_pruned wellFormed isEdge isHead isIn rfl, ?_, shorter, ?_⟩
      · exact (index_removed srcLive destLive).trans
          ((if_neg (by simp)).trans (if_pos ⟨rfl, rfl⟩))
      · exact processEdges_standing isIndex isList
          (removeEdge_outgoing wellFormed isEdge isHead isIn rfl rfl)

/-! ## The whole loop -/

/-- The loop removes all edges of the direction in which the iterator goes. -/
theorem processEdges_run {slack rounds : Nat} (wellFormed : WellFormed graph)
    (isIndex : graph.index n dir = key :: keys) (onlyOut : dir = .outgoing → outIdx = false)
    (enough : (graph.index n dir).entries.length + slack ≤ rounds) :
    ∃ graph' left tag, Pruned (fun ends => ends.endAt dir = n) graph graph' ∧
      graph'.index n dir = [] ∧ slack ≤ left ∧
      processEdges rounds graph (standing n dir outIdx key) =
        (firstLeft n dir outIdx tag (graph'.index n .outgoing) []).bind
          (processEdges left graph') := by
  induction rounds generalizing graph key keys with
  | zero =>
      obtain ⟨-, left, -, -, shorter, -⟩ := processEdges_succ wellFormed isIndex onlyOut 0
      omega
  | succ rounds ih =>
      obtain ⟨graph', left, pruned, isLeft, shorter, round⟩ :=
        processEdges_succ wellFormed isIndex onlyOut rounds
      cases left with
      | nil =>
          refine ⟨graph', rounds, key.key, pruned, isLeft, ?_, round⟩
          omega
      | cons other others =>
          rw [← isLeft] at shorter
          obtain ⟨last, left, tag, more, isEmpty, fits, runs⟩ :=
            ih pruned.wellFormed isLeft (by omega)
          exact ⟨last, left, tag, pruned.trans more, isEmpty, fits, round.trans runs⟩

theorem processEdges_done {iterator : EdgeIterator} (notVacant : iterator.vacant = false)
    (isPos : iterator.pos = none) (rounds : Nat) :
    processEdges rounds graph iterator = .ok graph := by
  cases rounds with
  | zero => simp [processEdges, notVacant, isPos]
  | succ rounds => simp [processEdges, notVacant, isPos]

/-- The loop over the outgoing edges goes through. -/
theorem processEdges_outgoing {rounds : Nat} (wellFormed : WellFormed graph)
    (isIndex : graph.index n .outgoing = key :: keys)
    (enough : (graph.index n .outgoing).entries.length ≤ rounds) :
    ∃ graph', Pruned (fun ends => ends.src = n) graph graph' ∧
      graph'.index n .outgoing = [] ∧
      processEdges rounds graph (standing n .outgoing false key) = .ok graph' := by
  obtain ⟨graph', left, tag, pruned, isEmpty, -, runs⟩ := @processEdges_run graph n .outgoing
    false key keys 0 rounds wellFormed isIndex (fun _ => rfl) enough
  exact ⟨graph', pruned, isEmpty, runs.trans (processEdges_done rfl rfl left)⟩

theorem index_eq_nil_iff (wellFormed : WellFormed graph) :
    graph.index n dir = [] ↔
      ∀ edge ends, graph.edges edge = some ends → ends.endAt dir ≠ n := by
  constructor
  · rintro isEmpty edge ends isEdge rfl
    obtain ⟨⟨outPlace, isOut⟩, inPlace, isIn⟩ := exists_places wellFormed isEdge
    cases dir with
    | outgoing => exact List.cons_ne_nil _ _ (List.append_eq_nil_iff.mp (isOut.symm.trans isEmpty)).2
    | incoming => exact List.cons_ne_nil _ _ (List.append_eq_nil_iff.mp (isIn.symm.trans isEmpty)).2
  · intro absent
    refine List.eq_nil_iff_forall_not_mem.mpr fun key isKey => ?_
    obtain ⟨position, rest, isList⟩ := List.exists_cons_of_ne_nil
      ((wellFormed.shape.index n dir).nonempty key isKey)
    have isEntry : entryOf key.key position ∈ (graph.index n dir).entries :=
      mem_entries.mpr ⟨key, isKey, position, by simp [isList], rfl⟩
    refine absent _ _ ((wellFormed.shape.listed _ _ _).mp isEntry) ?_
    cases dir with
    | outgoing => rfl
    | incoming => rfl

/-- The edges of the node are removed, and nothing else. -/
structure Cleared (n : Nat) (graph graph' : Graph) : Prop where
  pruned : Pruned (fun ends => ends.src = n ∨ ends.dest = n) graph graph'
  empty : ∀ dir, graph'.index n dir = []

/-- No edge goes out of the node, or one that is not a loop. -/
def OutgoingApart (graph : Graph) (n : Nat) : Prop :=
  (∀ edge ends, graph.edges edge = some ends → ends.src ≠ n) ∨
    ∃ edge ends, graph.edges edge = some ends ∧ ends.src = n ∧ ends.dest ≠ n

theorem Pruned.still_empty {left : Graph} (pruned : Pruned gone graph left)
    (wellFormed : WellFormed graph) (isEmpty : graph.index n dir = []) :
    left.index n dir = [] :=
  (index_eq_nil_iff pruned.wellFormed).mpr fun edge ends isEdge =>
    (index_eq_nil_iff wellFormed).mp isEmpty edge ends (pruned.edges_some isEdge)

/-- An iterator that starts at the outgoing edges. -/
theorem process_outgoing (wellFormed : WellFormed graph) (noIn : graph.index n .incoming = [])
    (isOut : graph.index n .outgoing = key :: keys) {rounds : Nat}
    (enough : (graph.index n .outgoing).entries.length ≤ rounds) :
    OutgoingApart graph n ∧ ∃ graph', Cleared n graph graph' ∧
      processEdges rounds graph (standing n .outgoing false key) = .ok graph' := by
  obtain ⟨graph', pruned, noOut, runs⟩ := processEdges_outgoing wellFormed isOut enough
  refine ⟨.inr ?_, graph', ⟨pruned.mono fun _ => .inl, fun dir => ?_⟩, runs⟩
  · by_contra absent
    push Not at absent
    have isEmpty : graph.index n .outgoing = [] := by
      refine (index_eq_nil_iff wellFormed).mpr fun edge ends isEdge isSrc => ?_
      exact (index_eq_nil_iff wellFormed).mp noIn edge ends isEdge
        (absent edge ends isEdge isSrc)
    rw [isOut] at isEmpty
    cases isEmpty
  · cases dir with
    | outgoing => exact noOut
    | incoming => exact pruned.still_empty wellFormed noIn

/-- An iterator that starts at the incoming edges. -/
theorem process_incoming (wellFormed : WellFormed graph)
    (isIn : graph.index n .incoming = key :: keys) {rounds : Nat}
    (isOutIdx : outIdx = decide ((graph.index n .outgoing).length > 0))
    (enough : (graph.index n .incoming).entries.length +
      (graph.index n .outgoing).entries.length ≤ rounds) :
    (OutgoingApart graph n ∧ ∃ graph', Cleared n graph graph' ∧
      processEdges rounds graph (standing n .incoming outIdx key) = .ok graph') ∨
    (¬ OutgoingApart graph n ∧
      processEdges rounds graph (standing n .incoming outIdx key) = .error .nullPointer) := by
  obtain ⟨graph', left, tag, pruned, noIn, fits, runs⟩ := @processEdges_run graph n .incoming
    outIdx key keys _ rounds wellFormed isIn (by simp) enough
  rw [runs]
  cases isOut : graph.index n .outgoing with
  | nil =>
      have noOut := pruned.still_empty wellFormed isOut
      have notTold : outIdx = false := by simp [isOutIdx, isOut]
      rw [notTold]
      refine .inl ⟨.inl ((index_eq_nil_iff wellFormed).mp isOut), graph',
        ⟨pruned.mono fun _ => .inr, ?_⟩, processEdges_done rfl rfl left⟩
      intro dir
      cases dir with
      | outgoing => exact noOut
      | incoming => exact noIn
  | cons first others =>
      have told : outIdx = true := by simp [isOutIdx, isOut]
      rw [told]
      cases stillOut : graph'.index n .outgoing with
      | nil =>
          refine .inr ⟨?_, rfl⟩
          rintro (absent | ⟨edge, ends, isEdge, isSrc, notDest⟩)
          · have isEmpty := (@index_eq_nil_iff graph n .outgoing wellFormed).mpr absent
            rw [isOut] at isEmpty
            cases isEmpty
          · rcases pruned.edges edge with same | ⟨-, ends', isEdge', isDest⟩
            · exact (index_eq_nil_iff pruned.wellFormed).mp stillOut edge ends
                (same.trans isEdge) isSrc
            · rw [isEdge] at isEdge'
              exact notDest (Option.some.inj isEdge' ▸ isDest)
      | cons other rest =>
          have fewer := pruned.fewer n .outgoing
          obtain ⟨apart, last, cleared, finishes⟩ := @process_outgoing graph' n other rest
            pruned.wellFormed noIn stillOut left (by omega)
          refine .inl ⟨.inr ?_, last, ⟨?_, cleared.empty⟩, finishes⟩
          · rcases apart with absent | ⟨edge, ends, isEdge, notLoop⟩
            · have isEmpty :=
                (@index_eq_nil_iff graph' n .outgoing pruned.wellFormed).mpr absent
              rw [stillOut] at isEmpty
              cases isEmpty
            · exact ⟨edge, ends, pruned.edges_some isEdge, notLoop⟩
          · exact (pruned.mono fun _ => .inr).trans cleared.pruned

/-- A node that is gone, in a graph without edges at it. -/
def dropNode (graph : Graph) (n : Nat) : Graph :=
  { graph with nodes := Function.update graph.nodes n none }

/-- `Graph::remove(Node &)` removes the node and its edges, or follows a NULL pointer. -/
theorem removeNode_cases (wellFormed : WellFormed graph) :
    (OutgoingApart graph n ∧ ∃ graph', Cleared n graph graph' ∧
      graph.removeNode n = .ok (graph'.dropNode n)) ∨
    (¬ OutgoingApart graph n ∧ graph.removeNode n = .error .nullPointer) := by
  cases isIn : graph.index n .incoming with
  | nil =>
      cases isOut : graph.index n .outgoing with
      | nil =>
          refine .inl ⟨.inl ((index_eq_nil_iff wellFormed).mp isOut), graph,
            ⟨Pruned.refl wellFormed, ?_⟩, ?_⟩
          · intro dir
            cases dir with
            | outgoing => exact isOut
            | incoming => exact isIn
          · simp [removeNode, getEdges, isIn, isOut, Except.bind, Except.map, dropNode]
      | cons key keys =>
          obtain ⟨apart, graph', cleared, runs⟩ := @process_outgoing graph n key keys wellFormed
            isIn isOut (graph.rounds n) (Nat.le_add_left _ _)
          refine .inl ⟨apart, graph', cleared, ?_⟩
          have starts : graph.getEdges n = .ok (some (standing n .outgoing false key)) := by
            simp [getEdges, isIn, isOut, EdgeIterator.start, standing, Except.map]
          rw [removeNode, starts]
          simp only [Except.bind, runs, Except.map, dropNode]
  | cons key keys =>
      have starts : graph.getEdges n = .ok (some (standing n .incoming
          (decide ((graph.index n .outgoing).length > 0)) key)) := by
        simp [getEdges, isIn, EdgeIterator.start, standing, Except.map]
      rcases @process_incoming graph n _ key keys wellFormed isIn (graph.rounds n) rfl le_rfl with
        ⟨apart, graph', cleared, runs⟩ | ⟨loops, runs⟩
      · refine .inl ⟨apart, graph', cleared, ?_⟩
        rw [removeNode, starts]
        simp only [Except.bind, runs, Except.map, dropNode]
      · refine .inr ⟨loops, ?_⟩
        rw [removeNode, starts]
        simp only [Except.bind, runs, Except.map]

/-! ## Well-formed graphs -/

theorem WellFormed.of_index (wellFormed : WellFormed graph)
    (index : ∀ m dir, graph'.index m dir = graph.index m dir) (edges : graph'.edges = graph.edges)
    (allocated : graph'.allocated = graph.allocated)
    (live : ∀ edge ends, graph.edges edge = some ends →
      graph'.nodes ends.src ≠ none ∧ graph'.nodes ends.dest ≠ none) : WellFormed graph' where
  shape :=
    { index := fun m dir => index m dir ▸ wellFormed.shape.index m dir
      apart := fun m dir m' dir' different address => by
        rw [index, index]
        exact wellFormed.shape.apart m dir m' dir' different address
      allocated := fun m dir address => by
        rw [index, allocated]
        exact wellFormed.shape.allocated m dir address
      listed := fun m dir entry => by
        rw [index, edges]
        exact wellFormed.shape.listed m dir entry }
  live := edges ▸ live

theorem index_dropNode (isEmpty : ∀ dir, graph.index n dir = []) (m : Nat) (dir : Direction) :
    (graph.dropNode n).index m dir = graph.index m dir := by
  by_cases same : m = n
  · subst same
    refine Eq.trans ?_ (isEmpty dir).symm
    simp only [Graph.index, dropNode, Function.update_self]
  · simp only [Graph.index, dropNode, Function.update_of_ne same]

theorem Cleared.apart (cleared : Cleared n graph graph') {ends : Edge}
    (isEdge : graph'.edges edge = some ends) : ends.src ≠ n ∧ ends.dest ≠ n :=
  ⟨(index_eq_nil_iff cleared.pruned.wellFormed).mp (cleared.empty .outgoing) edge ends isEdge,
    (index_eq_nil_iff cleared.pruned.wellFormed).mp (cleared.empty .incoming) edge ends isEdge⟩

theorem dropNode_wellFormed (cleared : Cleared n graph graph') :
    WellFormed (graph'.dropNode n) := by
  refine cleared.pruned.wellFormed.of_index (index_dropNode cleared.empty) rfl rfl ?_
  intro edge ends isEdge
  obtain ⟨notSrc, notDest⟩ := cleared.apart isEdge
  have live := cleared.pruned.wellFormed.live edge ends isEdge
  simpa [dropNode, Function.update_of_ne notSrc, Function.update_of_ne notDest] using live

theorem empty_wellFormed : WellFormed Graph.empty where
  shape :=
    { index := fun _ _ => wellFormed_nil
      apart := fun _ _ _ _ _ _ member => absurd member List.not_mem_nil
      allocated := fun _ _ _ member => absurd member List.not_mem_nil
      listed := fun _ _ _ =>
        ⟨fun member => absurd member List.not_mem_nil, fun isEdge => nomatch isEdge⟩ }
  live _ _ isEdge := nomatch isEdge

theorem addNode_wellFormed (wellFormed : WellFormed graph)
    (added : graph.addNode n = some graph') : WellFormed graph' := by
  rw [addNode] at added
  split_ifs at added with isNew
  obtain rfl := Option.some.inj added
  have index (m : Nat) (dir : Direction) :
      ({ graph with nodes := Function.update graph.nodes n (some ⟨[], []⟩) } : Graph).index m dir =
        graph.index m dir := by
    by_cases same : m = n
    · subst same
      simp only [Graph.index, Function.update_self, isNew]
      cases dir <;> rfl
    · simp only [Graph.index, Function.update_of_ne same]
  refine wellFormed.of_index index rfl rfl fun edge ends isEdge => ?_
  obtain ⟨src, dest⟩ := wellFormed.live edge ends isEdge
  have still {m : Nat} (live : graph.nodes m ≠ none) :
      Function.update graph.nodes n (some ⟨[], []⟩) m ≠ none := by
    by_cases same : m = n
    · simp [same]
    · rwa [Function.update_of_ne same]
  exact ⟨still src, still dest⟩

/-! ## Adding an edge -/

variable {keyAddress : Nat}

theorem index_addToIndex (live : graph.nodes n ≠ none) (m : Nat) (other : Direction) :
    (graph.addToIndex n dir tag position keyAddress).index m other =
      if m = n ∧ other = dir then (graph.index n dir).add tag position keyAddress
      else graph.index m other :=
  index_setIndex live _

/-- An address is one of a new element, or it was there before. -/
theorem addresses_addToIndex (live : graph.nodes n ≠ none) {m address : Nat} {other : Direction}
    (member : address ∈ ((graph.addToIndex n dir tag position keyAddress).index m other).addresses) :
    m = n ∧ other = dir ∧ (address = keyAddress ∨ address = position.address) ∨
      address ∈ (graph.index m other).addresses := by
  rw [index_addToIndex live] at member
  split_ifs at member with here
  · obtain ⟨rfl, rfl⟩ := here
    rcases mem_addresses_add member with isKey | isPosition | old
    · exact .inl ⟨rfl, rfl, .inl isKey⟩
    · exact .inl ⟨rfl, rfl, .inr isPosition⟩
    · exact .inr old
  · exact .inr member

theorem addToIndex_shape (shape : Shape graph listed) (live : graph.nodes n ≠ none)
    (newEdge : ∀ entry, listed n dir entry → entry.edge ≠ position.edge)
    (newKey : keyAddress ∉ graph.allocated) (newPosition : position.address ∉ graph.allocated)
    (different : keyAddress ≠ position.address) :
    Shape (graph.addToIndex n dir tag position keyAddress) fun m other entry =>
      listed m other entry ∨ m = n ∧ other = dir ∧ entry = entryOf tag position := by
  have unused {m : Nat} {other : Direction} {address : Nat}
      (member : address ∈ (graph.index m other).addresses) :
      ¬ (address = keyAddress ∨ address = position.address) := by
    have used := shape.allocated m other address member
    rintro (rfl | rfl)
    · exact newKey used
    · exact newPosition used
  constructor
  · intro m other
    rw [index_addToIndex live]
    split_ifs
    · refine add_wellFormed (shape.index n dir) ?_ ?_ ?_ different
      · intro member
        obtain ⟨entry, isEntry, same⟩ := List.mem_map.mp member
        exact newEdge entry ((shape.listed n dir entry).mp isEntry) same
      · exact fun member => unused member (.inl rfl)
      · exact fun member => unused member (.inr rfl)
    · exact shape.index m other
  · intro m other m' other' apart address member also
    rcases addresses_addToIndex live member with ⟨isN, isDir, isNew⟩ | old
    · rcases addresses_addToIndex live also with ⟨isN', isDir', -⟩ | old'
      · exact apart (by rw [isN, isDir, isN', isDir'])
      · exact unused old' isNew
    · rcases addresses_addToIndex live also with ⟨-, -, isNew⟩ | old'
      · exact unused old isNew
      · exact shape.apart m other m' other' apart address old old'
  · intro m other address member
    refine Finset.mem_union.mpr ?_
    rw [index_addToIndex live] at member
    split_ifs at member
    · exact .inr (List.mem_toFinset.mpr member)
    · exact .inl (shape.allocated m other address member)
  · intro m other entry
    rw [index_addToIndex live]
    split_ifs with here
    · obtain ⟨rfl, rfl⟩ := here
      obtain ⟨first, rest, isOld, isNew⟩ := exists_entries_add (graph.index m other) tag position
        keyAddress
      rw [← shape.listed, isOld, isNew]
      simp only [List.mem_append, List.mem_cons, true_and]
      grind
    · rw [shape.listed]
      refine (or_iff_left ?_).symm
      exact fun same => here ⟨same.1, same.2.1⟩

/-- A new edge is listed at its ends. -/
theorem lists_update {src dest : Nat} (isNew : graph.edges edge = none) (m : Nat)
    (other : Direction) (entry : Entry) :
    Lists (Function.update graph.edges edge (some ⟨src, dest, tag⟩)) m other entry ↔
      (Lists graph.edges m other entry ∨
        m = src ∧ other = .outgoing ∧ entry = ⟨tag, edge, dest⟩) ∨
        m = dest ∧ other = .incoming ∧ entry = ⟨tag, edge, src⟩ := by
  obtain ⟨entryTag, entryEdge, entryNode⟩ := entry
  unfold Lists
  by_cases same : entryEdge = edge
  · subst same
    rw [Function.update_self, isNew]
    cases other with
    | outgoing => simp [edgeOf]; grind
    | incoming => simp [edgeOf]; grind
  · simp [same]

theorem addEdge_wellFormed {src dest : Nat} {elements : NewElements}
    (wellFormed : WellFormed graph)
    (added : graph.addEdge edge src dest tag elements = some graph') : WellFormed graph' := by
  rw [addEdge] at added
  split_ifs at added with free
  obtain rfl := Option.some.inj added
  obtain ⟨isNew, srcLive, destLive, distinct, unused⟩ := free
  obtain ⟨outPosition, outKey, inPosition, inKey⟩ := elements
  simp only [NewElements.addresses, List.nodup_cons, List.mem_cons, List.not_mem_nil, or_false,
    not_or] at distinct
  obtain ⟨⟨outApart, outNotIn, outNotInKey⟩, ⟨outKeyNotIn, outKeyNotInKey⟩, inApart, -⟩ := distinct
  have free (address : Nat) (isElement : address = outPosition ∨ address = outKey ∨
      address = inPosition ∨ address = inKey) : address ∉ graph.allocated :=
    unused address (by simpa [NewElements.addresses] using isElement)
  have notListed {m : Nat} {other : Direction} {entry : Entry}
      (isListed : Lists graph.edges m other entry) : entry.edge ≠ edge := by
    rintro rfl
    rw [Lists, isNew] at isListed
    cases isListed
  let base : Graph :=
    { graph with edges := Function.update graph.edges edge (some ⟨src, dest, tag⟩) }
  let half := base.addToIndex src .outgoing tag ⟨outPosition, edge, dest⟩ outKey
  have old := wellFormed.shape
  have baseShape : Shape base (Lists graph.edges) :=
    ⟨old.index, old.apart, old.allocated, old.listed⟩
  have halfShape := @addToIndex_shape base src .outgoing ⟨outPosition, edge, dest⟩ tag _ outKey
    baseShape srcLive (fun _ => notListed) (free outKey (by simp))
    (free outPosition (by simp)) (Ne.symm outApart)
  have halfLive : half.nodes dest ≠ none := fun isNone => destLive ((nodes_setIndex _).mp isNone)
  have fresh {address : Nat} (isFree : address ∉ graph.allocated) (notKey : address ≠ outKey)
      (notPosition : address ≠ outPosition) : address ∉ half.allocated := by
    intro member
    rcases Finset.mem_union.mp member with before | inIndex
    · exact isFree before
    · rcases mem_addresses_add (List.mem_toFinset.mp inIndex) with isKey | isPosition | inOld
      · exact notKey isKey
      · exact notPosition isPosition
      · exact isFree (old.allocated _ _ _ inOld)
  have newIn (entry : Entry) (isListed : Lists graph.edges dest .incoming entry ∨
      dest = src ∧ Direction.incoming = .outgoing ∧ entry = ⟨tag, edge, dest⟩) :
      entry.edge ≠ edge := by
    rcases isListed with before | ⟨-, isOut, -⟩
    · exact notListed before
    · cases isOut
  have shape := @addToIndex_shape half dest .incoming ⟨inPosition, edge, src⟩ tag _ inKey
    halfShape halfLive newIn (fresh (free inKey (by simp)) (Ne.symm outKeyNotInKey)
      (Ne.symm outNotInKey))
    (fresh (free inPosition (by simp)) (Ne.symm outKeyNotIn) (Ne.symm outNotIn))
    (Ne.symm inApart)
  refine ⟨⟨shape.index, shape.apart, shape.allocated, fun m other entry => ?_⟩, ?_⟩
  · exact (shape.listed m other entry).trans (lists_update isNew m other entry).symm
  · intro old ends isEdge
    have still {m : Nat} (live : graph.nodes m ≠ none) :
        (half.addToIndex dest .incoming tag ⟨inPosition, edge, src⟩ inKey).nodes m ≠ none :=
      fun isNone => live ((nodes_setIndex _).mp ((nodes_setIndex _).mp isNone))
    have isUpdated : Function.update graph.edges edge (some ⟨src, dest, tag⟩) old = some ends :=
      isEdge
    by_cases same : old = edge
    · rw [same, Function.update_self] at isUpdated
      obtain rfl := Option.some.inj isUpdated
      exact ⟨still srcLive, still destLive⟩
    · rw [Function.update_of_ne same] at isUpdated
      exact (wellFormed.live old ends isUpdated).imp still still

/-! ## Every graph that calls lead to -/

/-- One call keeps the graph well formed. -/
theorem step_wellFormed {action : Action} (wellFormed : WellFormed graph)
    (steps : step graph action = some graph') : WellFormed graph' := by
  cases action with
  | addNode n => exact addNode_wellFormed wellFormed steps
  | addEdge edge src dest tag elements => exact addEdge_wellFormed wellFormed steps
  | removeEdge edge =>
      cases isEdge : graph.edges edge with
      | none =>
          rw [step, removeEdge, isEdge] at steps
          cases steps
      | some ends =>
          obtain ⟨srcLive, destLive⟩ := wellFormed.live edge ends isEdge
          obtain ⟨⟨outPlace, isOut⟩, inPlace, isIn⟩ := exists_places wellFormed isEdge
          have removes := @removeEdge_eq graph edge ends outPlace inPlace isEdge srcLive destLive
            isOut isIn none (fun _ isMoved => by cases isMoved; simp)
            (fun _ isMoved _ isAgain => by cases isMoved; cases isAgain; simp)
          rw [step, removes] at steps
          obtain rfl := Option.some.inj steps
          exact removed_wellFormed wellFormed isEdge isOut isIn
  | removeNode n =>
      rw [step] at steps
      split_ifs at steps
      rcases @removeNode_cases graph n wellFormed with ⟨-, last, cleared, removes⟩ | ⟨-, fails⟩
      · rw [removes] at steps
        obtain rfl := Option.some.inj steps
        exact dropNode_wellFormed cleared
      · rw [fails] at steps
        cases steps

theorem Reachable.wellFormed (reachable : Reachable graph) : WellFormed graph := by
  obtain ⟨actions, isRun⟩ := reachable
  exact run_invariant WellFormed (fun _ _ _ wellFormed _ => step_wellFormed wellFormed)
    empty_wellFormed (meetsAlong_true empty actions) isRun

/-- A node is gone with all its edges, no index mentions an edge that is gone, and every other
edge is listed exactly once at both its ends. -/
structure Removed (n : Nat) (graph graph' : Graph) : Prop where
  node : graph'.nodes n = none
  nodes : ∀ m, m ≠ n → (graph'.nodes m = none ↔ graph.nodes m = none)
  incident : ∀ edge ends, graph'.edges edge = some ends → ends.src ≠ n ∧ ends.dest ≠ n
  edges : ∀ edge ends, ends.src ≠ n → ends.dest ≠ n →
    (graph'.edges edge = some ends ↔ graph.edges edge = some ends)
  mentioned : ∀ m dir, ∀ entry ∈ (graph'.index m dir).entries, graph'.edges entry.edge ≠ none
  outgoing : ∀ edge ends, graph'.edges edge = some ends →
    ((graph'.index ends.src .outgoing).entries.filter fun entry => decide (entry.edge = edge)) =
      [⟨ends.tag, edge, ends.dest⟩]
  incoming : ∀ edge ends, graph'.edges edge = some ends →
    ((graph'.index ends.dest .incoming).entries.filter fun entry => decide (entry.edge = edge)) =
      [⟨ends.tag, edge, ends.src⟩]

theorem filter_eq_singleton {index : EdgeIndex} (wellFormed : EdgeIndex.WellFormed index)
    {entry : Entry} (isEntry : entry ∈ index.entries) :
    (index.entries.filter fun other => decide (other.edge = entry.edge)) = [entry] := by
  have edges := wellFormed.edges
  obtain ⟨first, rest, isEntries⟩ := List.append_of_mem isEntry
  rw [isEntries, List.map_append, List.map_cons, List.nodup_middle, List.nodup_cons,
    ← List.map_append] at edges
  have absent (other : Entry) (member : other ∈ first ++ rest) : other.edge ≠ entry.edge :=
    fun same => edges.1 (List.mem_map.mpr ⟨other, member, same⟩)
  have noFirst : (first.filter fun other => decide (other.edge = entry.edge)) = [] :=
    List.filter_eq_nil_iff.mpr fun other member => by
      simpa using absent other (List.mem_append_left rest member)
  have noRest : (rest.filter fun other => decide (other.edge = entry.edge)) = [] :=
    List.filter_eq_nil_iff.mpr fun other member => by
      simpa using absent other (List.mem_append_right first member)
  rw [isEntries, List.filter_append, noFirst, List.filter_cons_of_pos (by simp), noRest]
  rfl

theorem Cleared.removed (cleared : Cleared n graph graph') :
    Removed n graph (graph'.dropNode n) := by
  have shape := (dropNode_wellFormed cleared).shape
  constructor
  · exact Function.update_self _ _ _
  · intro m different
    have same : (graph'.dropNode n).nodes m = graph'.nodes m := Function.update_of_ne different _ _
    rw [same]
    exact cleared.pruned.nodes m
  · exact fun edge ends isEdge => cleared.apart isEdge
  · intro edge ends notSrc notDest
    refine ⟨cleared.pruned.edges_some, fun isEdge => ?_⟩
    rcases cleared.pruned.edges edge with same | ⟨-, ends', isEdge', atNode⟩
    · exact same.trans isEdge
    · obtain rfl := Option.some.inj (isEdge.symm.trans isEdge')
      exact absurd atNode (not_or.mpr ⟨notSrc, notDest⟩)
  · intro m dir entry isEntry
    have isEdge := (shape.listed m dir entry).mp isEntry
    exact Option.ne_none_iff_exists'.mpr ⟨_, isEdge⟩
  · intro edge ends isEdge
    exact filter_eq_singleton (shape.index ends.src .outgoing)
      ((shape.listed ends.src .outgoing ⟨ends.tag, edge, ends.dest⟩).mpr isEdge)
  · intro edge ends isEdge
    exact filter_eq_singleton (shape.index ends.dest .incoming)
      ((shape.listed ends.dest .incoming ⟨ends.tag, edge, ends.src⟩).mpr isEdge)

/-- `Graph::remove(Node &)` removes a node with its edges exactly when no edge goes out of the
node, or one that is not a loop. -/
theorem removeNode_removed_iff (reachable : Reachable graph) :
    (∃ graph', graph.removeNode n = .ok graph' ∧ Removed n graph graph') ↔
      OutgoingApart graph n := by
  rcases @removeNode_cases graph n reachable.wellFormed with
    ⟨apart, graph', cleared, removes⟩ | ⟨loops, fails⟩
  · exact iff_of_true ⟨_, removes, cleared.removed⟩ apart
  · refine iff_of_false ?_ loops
    rintro ⟨graph', removes, -⟩
    rw [fails] at removes
    cases removes

/-- Two nodes, an edge between them, and a loop. -/
def edgeAndLoop : List Action :=
  [.addNode 1, .addNode 2, .addEdge 10 1 2 7 ⟨100, 101, 102, 103⟩,
    .addEdge 11 1 1 7 ⟨104, 105, 106, 107⟩]

theorem removeNode_removed_edgeAndLoop :
    ∃ graph graph', LabelledRun.run step empty edgeAndLoop = some graph ∧
      graph.removeNode 1 = .ok graph' ∧ Removed 1 graph graph' := by
  have isEdge : (LabelledRun.run step empty edgeAndLoop).map (fun graph => graph.edges 10) =
      some (some ⟨1, 2, 7⟩) := by decide
  obtain ⟨graph, isRun, isEdge⟩ := Option.map_eq_some_iff.mp isEdge
  obtain ⟨graph', removes, removed⟩ := (removeNode_removed_iff (n := 1) ⟨_, isRun⟩).mpr
    (.inr ⟨10, _, isEdge, rfl, by decide⟩)
  exact ⟨graph, graph', isRun, removes, removed⟩

/-- A node with a loop cannot be removed. -/
theorem removeNode_loop_nullPointer :
    ∃ graph, LabelledRun.run step empty [.addNode 1, .addEdge 10 1 1 7 ⟨100, 101, 102, 103⟩] =
        some graph ∧ graph.nodes 1 ≠ none ∧ graph.removeNode 1 = .error .nullPointer ∧
      ¬ ∃ graph', graph.removeNode 1 = .ok graph' ∧ Removed 1 graph graph' := by
  have outcome : (LabelledRun.run step empty
      [.addNode 1, .addEdge 10 1 1 7 ⟨100, 101, 102, 103⟩]).map
        (fun graph => (graph.nodes 1, graph.removeNode 1)) =
      some (some ⟨[⟨101, 7, [⟨100, 10, 1⟩]⟩], [⟨103, 7, [⟨102, 10, 1⟩]⟩]⟩, .error .nullPointer) :=
    rfl
  obtain ⟨graph, isRun, both⟩ := Option.map_eq_some_iff.mp outcome
  obtain ⟨isNode, fails⟩ := Prod.mk.inj both
  refine ⟨graph, isRun, by simp [isNode], fails, ?_⟩
  rintro ⟨graph', removes, -⟩
  rw [fails] at removes
  cases removes

end Graph

end Pmgd
