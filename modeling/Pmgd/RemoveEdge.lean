import Pmgd.EdgeIterator

/-!
# Removing an edge

A graph is well formed when the indexes of its nodes list exactly its edges, each once at
either end, and no two list elements have the same address.  Removing an edge keeps this.
-/

namespace Pmgd.Graph

open EdgeIndex LabelledRun

/-- The edge that an index entry stands for. -/
def edgeOf (n : Nat) : Direction → Entry → Edge
  | .outgoing, entry => ⟨n, entry.node, entry.tag⟩
  | .incoming, entry => ⟨entry.node, n, entry.tag⟩

/-- The indexes are well formed, do not share addresses, and have exactly some entries. -/
structure Shape (graph : Graph) (listed : Nat → Direction → Entry → Prop) : Prop where
  index : ∀ n dir, EdgeIndex.WellFormed (graph.index n dir)
  apart : ∀ n dir m other, (n, dir) ≠ (m, other) →
    ∀ address ∈ (graph.index n dir).addresses, address ∉ (graph.index m other).addresses
  allocated : ∀ n dir, ∀ address ∈ (graph.index n dir).addresses, address ∈ graph.allocated
  listed : ∀ n dir entry, entry ∈ (graph.index n dir).entries ↔ listed n dir entry

/-- An edge is listed at both its ends. -/
def Lists (edges : Nat → Option Edge) (n : Nat) (dir : Direction) (entry : Entry) : Prop :=
  edges entry.edge = some (edgeOf n dir entry)

/-- The indexes list the live edges, whose ends are live. -/
structure WellFormed (graph : Graph) : Prop where
  shape : Shape graph (Lists graph.edges)
  live : ∀ edge ends, graph.edges edge = some ends →
    graph.nodes ends.src ≠ none ∧ graph.nodes ends.dest ≠ none

variable {graph : Graph} {n m : Nat} {dir other : Direction} {tag : Tag} {edge node : Nat}

/-! ## Setting an index -/

theorem index_setIndex (live : graph.nodes n ≠ none) (index : EdgeIndex) :
    (graph.setIndex n dir index).index m other =
      if m = n ∧ other = dir then index else graph.index m other := by
  obtain ⟨found, isNode⟩ := Option.ne_none_iff_exists'.mp live
  by_cases same : m = n
  · subst same
    simp only [Graph.index, setIndex, Function.update_self, isNode, Option.map_some, true_and]
    cases dir <;> cases other <;> rfl
  · rw [if_neg fun both => same both.1]
    simp only [Graph.index, setIndex, Function.update_of_ne same]

theorem nodes_setIndex (index : EdgeIndex) :
    (graph.setIndex n dir index).nodes m = none ↔ graph.nodes m = none := by
  by_cases same : m = n
  · subst same
    simp [setIndex]
  · simp [setIndex, Function.update_of_ne same]

theorem setIndex_setIndex (first second : EdgeIndex) :
    (graph.setIndex n dir first).setIndex n dir second = graph.setIndex n dir second := by
  simp only [setIndex, Function.update_self, Function.update_idem, Option.map_map]
  congr 2
  refine Option.map_congr fun node _ => ?_
  cases dir <;> rfl

/-! ## Removing an edge from one index -/

/-- The graph after the edge of a place has been removed from the index. -/
def unlinked (graph : Graph) (n : Nat) (dir : Direction) (place : Place tag edge node) : Graph :=
  { graph.setIndex n dir place.removed with
    allocated := graph.allocated \ place.freed.toFinset }

/-- Only the element of the edge is one that a registered iterator may be at. -/
theorem removeFromIndex_eq {place : Place tag edge node} (live : graph.nodes n ≠ none)
    (isIndex : graph.index n dir = place.whole) {iterator : Option EdgeIterator}
    (unmoved : ∀ moved, graph.notify iterator place.position.address = .ok moved →
      ∀ iterator ∈ moved, iterator.pos ≠ some place.key.address) :
    graph.removeFromIndex iterator n dir tag edge =
      (graph.notify iterator place.position.address).map fun iterator =>
        (graph.unlinked n dir place, iterator) := by
  have pair : graph.removePair iterator n dir tag edge =
      (graph.notify iterator place.position.address).map fun iterator =>
        ((graph.setIndex n dir (place.before ++ place.others :: place.after)).free
          place.position.address, iterator) := by
    simp only [removePair, isIndex, place.find_eq, place.find_position, place.removePair_eq]
  rw [removeFromIndex, pair]
  cases notified : graph.notify iterator place.position.address with
  | error fault => rfl
  | ok moved =>
      have newIndex : ((graph.setIndex n dir (place.before ++ place.others :: place.after)).free
          place.position.address).index n dir = place.before ++ place.others :: place.after :=
        (index_setIndex live _).trans (if_pos ⟨rfl, rfl⟩)
      simp only [Except.map, Except.bind, removeKey, newIndex, place.find_others]
      by_cases empty : place.others.list = []
      · have quiet : ((graph.setIndex n dir (place.before ++ place.others :: place.after)).free
            place.position.address).notify moved place.others.address = .ok moved := by
          cases moved with
          | none => rfl
          | some iterator =>
              have notAt := unmoved _ notified iterator rfl
              rw [notify, EdgeIterator.removeNotify, if_neg (by exact notAt)]
              rfl
        rw [if_pos empty, quiet]
        simp only [place.removeKey_eq, unlinked, Place.removed, if_pos empty,
          Place.freed]
        congr 2
        simp only [free, setIndex]
        congr 1
        · have twice := @setIndex_setIndex graph n dir
            (place.before ++ place.others :: place.after) (place.before ++ place.after)
          exact congrArg Graph.nodes twice
        · ext address
          simp [Place.others]
          grind
      · rw [if_neg empty]
        simp only [unlinked, Place.removed, if_neg empty, Place.freed]
        congr 2
        simp only [free, setIndex]
        congr 1
        ext address
        simp
        grind

theorem index_unlinked {place : Place tag edge node} (live : graph.nodes n ≠ none) :
    (graph.unlinked n dir place).index m other =
      if m = n ∧ other = dir then place.removed else graph.index m other :=
  index_setIndex live place.removed

theorem addresses_unlinked {place : Place tag edge node} (live : graph.nodes n ≠ none)
    (isIndex : graph.index n dir = place.whole) {address : Nat}
    (member : address ∈ ((graph.unlinked n dir place).index m other).addresses) :
    address ∈ (graph.index m other).addresses := by
  rw [index_unlinked live] at member
  split_ifs at member with here
  · rw [here.1, here.2, isIndex]
    exact place.removed_subset member
  · exact member

theorem unlinked_shape {listed : Nat → Direction → Entry → Prop}
    {place : Place tag edge node} (shape : Shape graph listed) (live : graph.nodes n ≠ none)
    (isIndex : graph.index n dir = place.whole) :
    Shape (graph.unlinked n dir place) fun m other entry =>
      listed m other entry ∧ ¬ (m = n ∧ other = dir ∧ entry.edge = edge) := by
  have whole := shape.index n dir
  rw [isIndex] at whole
  constructor
  · intro m other
    rw [index_unlinked live]
    split_ifs
    · exact place.removed_wellFormed whole
    · exact shape.index m other
  · intro m other m' other' different address member also
    exact shape.apart m other m' other' different address
      (addresses_unlinked live isIndex member) (addresses_unlinked live isIndex also)
  · intro m other address member
    have used := shape.allocated m other address (addresses_unlinked live isIndex member)
    refine Finset.mem_sdiff.mpr ⟨used, fun isFreed => ?_⟩
    rw [List.mem_toFinset] at isFreed
    have inPlace : address ∈ (graph.index n dir).addresses := by
      rw [isIndex]
      exact place.addresses_perm.mem_iff.mpr (List.mem_append_left _ isFreed)
    rw [index_unlinked live] at member
    split_ifs at member with here
    · have addresses := whole.addresses
      rw [place.addresses_perm.nodup_iff] at addresses
      exact (List.nodup_append.mp addresses).2.2 address isFreed address member rfl
    · refine shape.apart m other n dir ?_ address member inPlace
      exact fun same => here (Prod.mk.inj same)
  · intro m other entry
    rw [index_unlinked live]
    split_ifs with here
    · obtain ⟨rfl, rfl⟩ := here
      rw [place.mem_entries_removed whole, ← isIndex, shape.listed]
      simp
    · rw [shape.listed]
      refine (and_iff_left ?_).symm
      exact fun same => here ⟨same.1, same.2.1⟩

/-! ## Removing an edge -/

/-- The graph without an edge, given its places at both ends. -/
def removed (graph : Graph) {ends : Edge} (outPlace : Place ends.tag edge ends.dest)
    (inPlace : Place ends.tag edge ends.src) : Graph :=
  { (graph.unlinked ends.src .outgoing outPlace).unlinked ends.dest .incoming inPlace with
    edges := Function.update graph.edges edge none }

variable {ends : Edge} {outPlace : Place ends.tag edge ends.dest}
  {inPlace : Place ends.tag edge ends.src}

theorem nodes_removed :
    (graph.removed outPlace inPlace).nodes m = none ↔ graph.nodes m = none :=
  (@nodes_setIndex (graph.unlinked ends.src .outgoing outPlace) _ _ _ _).trans
    (nodes_setIndex _)

theorem edges_removed :
    (graph.removed outPlace inPlace).edges = Function.update graph.edges edge none :=
  rfl

theorem index_removed (srcLive : graph.nodes ends.src ≠ none)
    (destLive : graph.nodes ends.dest ≠ none) :
    (graph.removed outPlace inPlace).index m other =
      if m = ends.dest ∧ other = .incoming then inPlace.removed
      else if m = ends.src ∧ other = .outgoing then outPlace.removed
      else graph.index m other := by
  have stillLive : (graph.unlinked ends.src .outgoing outPlace).nodes ends.dest ≠ none :=
    fun isNone => destLive ((nodes_setIndex _).mp isNone)
  have both := @index_unlinked _ _ m .incoming other _ _ _ inPlace stillLive
  rw [index_unlinked srcLive] at both
  exact both

theorem removed_wellFormed (wellFormed : WellFormed graph)
    (isEdge : graph.edges edge = some ends)
    (isOut : graph.index ends.src .outgoing = outPlace.whole)
    (isIn : graph.index ends.dest .incoming = inPlace.whole) :
    WellFormed (graph.removed outPlace inPlace) := by
  obtain ⟨srcLive, destLive⟩ := wellFormed.live edge ends isEdge
  have stillLive : (graph.unlinked ends.src .outgoing outPlace).nodes ends.dest ≠ none :=
    fun isNone => destLive ((nodes_setIndex _).mp isNone)
  have stillIn : (graph.unlinked ends.src .outgoing outPlace).index ends.dest .incoming =
      inPlace.whole := by
    rw [index_unlinked srcLive, if_neg (by simp), isIn]
  have shape := unlinked_shape (unlinked_shape wellFormed.shape srcLive isOut) stillLive stillIn
  refine ⟨⟨shape.index, shape.apart, shape.allocated, fun m other entry => ?_⟩,
    fun old oldEnds isOld => ?_⟩
  · have without : Lists (Function.update graph.edges edge none) m other entry ↔
        (Lists graph.edges m other entry ∧
          ¬ (m = ends.src ∧ other = .outgoing ∧ entry.edge = edge)) ∧
          ¬ (m = ends.dest ∧ other = .incoming ∧ entry.edge = edge) := by
      unfold Lists
      by_cases same : entry.edge = edge
      · rw [same, Function.update_self, isEdge]
        refine iff_of_false (by simp) ?_
        rintro ⟨⟨isEnds, notOut⟩, notIn⟩
        obtain rfl := Option.some.inj isEnds
        cases other with
        | outgoing => exact notOut ⟨rfl, rfl, rfl⟩
        | incoming => exact notIn ⟨rfl, rfl, rfl⟩
      · simp [same]
    exact (shape.listed m other entry).trans without.symm
  · have different : old ≠ edge := by
      rintro rfl
      simp [edges_removed] at isOld
    have before : graph.edges old = some oldEnds := by
      rwa [edges_removed, Function.update_of_ne different] at isOld
    obtain ⟨src, dest⟩ := wellFormed.live old oldEnds before
    exact ⟨fun isNone => src (nodes_removed.mp isNone),
      fun isNone => dest (nodes_removed.mp isNone)⟩

/-- Both ends of a live edge list it. -/
theorem exists_places (wellFormed : WellFormed graph) (isEdge : graph.edges edge = some ends) :
    (∃ place : Place ends.tag edge ends.dest,
        graph.index ends.src .outgoing = place.whole) ∧
      ∃ place : Place ends.tag edge ends.src,
        graph.index ends.dest .incoming = place.whole :=
  ⟨exists_place (wellFormed.shape.index _ _) ((wellFormed.shape.listed _ _ _).mpr isEdge),
    exists_place (wellFormed.shape.index _ _) ((wellFormed.shape.listed _ _ _).mpr isEdge)⟩

/-- Removing an edge, when only its elements are ones that the iterator is at. -/
theorem removeEdge_eq (isEdge : graph.edges edge = some ends)
    (srcLive : graph.nodes ends.src ≠ none) (destLive : graph.nodes ends.dest ≠ none)
    (isOut : graph.index ends.src .outgoing = outPlace.whole)
    (isIn : graph.index ends.dest .incoming = inPlace.whole) {iterator : Option EdgeIterator}
    (outUnmoved : ∀ moved, graph.notify iterator outPlace.position.address = .ok moved →
      ∀ iterator ∈ moved, iterator.pos ≠ some outPlace.key.address)
    (inUnmoved : ∀ moved, graph.notify iterator outPlace.position.address = .ok moved →
      ∀ again, (graph.unlinked ends.src .outgoing outPlace).notify moved
        inPlace.position.address = .ok again →
      ∀ iterator ∈ again, iterator.pos ≠ some inPlace.key.address) :
    graph.removeEdge iterator edge =
      (graph.notify iterator outPlace.position.address).bind fun moved =>
        ((graph.unlinked ends.src .outgoing outPlace).notify moved
          inPlace.position.address).map fun again => (graph.removed outPlace inPlace, again) := by
  have stillLive : (graph.unlinked ends.src .outgoing outPlace).nodes ends.dest ≠ none :=
    fun isNone => destLive ((nodes_setIndex _).mp isNone)
  have stillIn : (graph.unlinked ends.src .outgoing outPlace).index ends.dest .incoming =
      inPlace.whole := by
    rw [index_unlinked srcLive, if_neg (by simp), isIn]
  rw [removeEdge, isEdge]
  simp only [removeFromIndex_eq srcLive isOut outUnmoved]
  cases notified : graph.notify iterator outPlace.position.address with
  | error fault => rfl
  | ok moved =>
      simp only [Except.map, Except.bind,
        removeFromIndex_eq stillLive stillIn (inUnmoved moved notified)]
      cases (graph.unlinked ends.src .outgoing outPlace).notify moved
          inPlace.position.address with
      | error fault => rfl
      | ok again => rfl

end Pmgd.Graph
