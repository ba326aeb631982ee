import Pmgd.TextRoundTrip

/-!
# What a text keeps of a graph

What a text has no room for is lost the first time.  A graph that was loaded from a text can be
dumped and loaded again, and stays as it is, in whatever order its properties are written.
-/

namespace Pmgd

namespace Loader

open Dump

/-- The graph that the text of a graph loads into an empty one. -/
def reloaded (graph : GraphRecord) : GraphRecord :=
  ⟨graph.nodes.map loadedNode, graph.edges.map (loadedEdge 0)⟩

/-- The same graph, whose properties an iterator may give in another order. -/
structure SameGraph (graph other : GraphRecord) : Prop where
  nodes : other.nodes.map nodeView = graph.nodes.map nodeView
  edges : other.edges.map edgeView = graph.edges.map edgeView
  distinctInNodes : ∀ node ∈ other.nodes, (node.properties.map Prod.fst).Nodup
  distinctInEdges : ∀ edge ∈ other.edges, (edge.properties.map Prod.fst).Nodup

/-- The ids of the first nodes are different, and have no sign. -/
structure Numbered (getId : Nat → Nat) (count : Nat) : Prop where
  small : ∀ place < count, getId place < 2 ^ 63
  distinct : ∀ place < count, ∀ other < count, getId place = getId other → place = other

structure SettledList (properties : List (List Char × Property)) : Prop
    extends LoadableList properties where
  kept : ∀ property ∈ properties, Kept property.2

/-- A graph that comes back as it is. -/
structure Settled (graph : GraphRecord) : Prop where
  notEmpty : graph.nodes ≠ []
  nodes : ∀ node ∈ graph.nodes, LoadableTag node.tag ∧ SettledList node.properties ∧
    checkNamed node.properties loaderId = none
  edges : ∀ edge ∈ graph.edges, LoadableTag edge.tag ∧ SettledList edge.properties ∧
    edge.source < graph.nodes.length ∧ edge.destination < graph.nodes.length

variable {value : Property} {name : List Char} {node : NodeRecord} {edge : EdgeRecord}
  {properties others : List (List Char × Property)} {graph next other : GraphRecord}
  {getId : Nat → Nat}

theorem SameGraph.trans (first : SameGraph graph next) (second : SameGraph next other) :
    SameGraph graph other where
  nodes := second.nodes.trans first.nodes
  edges := second.edges.trans first.edges
  distinctInNodes := second.distinctInNodes
  distinctInEdges := second.distinctInEdges

/-! ## Properties -/

theorem kept_loadedValue (value : Property) : Kept (loadedValue value) := by
  cases value with
  | string v =>
      intro byte member
      exact of_decide_eq_true (List.mem_filter.mp member).2
  | noValue => trivial
  | boolean v => trivial
  | integer v => trivial
  | float v => trivial
  | time v => trivial
  | blob v => trivial

theorem loadable_loadedValue (loadable : Loadable value) : Loadable (loadedValue value) := by
  cases value with
  | string v =>
      intro byte member
      exact loadable byte (List.mem_filter.mp member).1
  | float v => cases loadable
  | time v => exact loadable
  | noValue => trivial
  | boolean v => trivial
  | integer v => trivial
  | blob v => trivial

theorem map_fst_loaded (properties : List (List Char × Property)) :
    (properties.map loadedProperty).map Prod.fst = properties.map Prod.fst := by
  rw [List.map_map]
  rfl

/-- Properties that came from a text are settled, in any order. -/
theorem settledList_of_checkNamed (loadable : LoadableList properties)
    (same : checkNamed others = checkNamed (properties.map loadedProperty))
    (distinct : (others.map Prod.fst).Nodup) : SettledList others := by
  have isLoaded : ∀ other ∈ others, ∃ property ∈ properties, loadedProperty property = other := by
    intro other member
    have found := checkNamed_of_mem distinct member
    rw [same] at found
    exact List.mem_map.mp (mem_of_checkNamed found)
  refine ⟨⟨?_, ?_, distinct, ?_⟩, ?_⟩
  · intro other member
    obtain ⟨property, inProperties, rfl⟩ := isLoaded other member
    exact loadable.names property inProperties
  · intro other member
    obtain ⟨property, inProperties, rfl⟩ := isLoaded other member
    exact loadable_loadedValue (loadable.values property inProperties)
  · have named : others.map Prod.fst ⊆ properties.map Prod.fst := by
      intro name member
      obtain ⟨other, inOthers, rfl⟩ := List.mem_map.mp member
      obtain ⟨property, inProperties, rfl⟩ := isLoaded other inOthers
      exact List.mem_map.mpr ⟨property, inProperties, rfl⟩
    have shorter := (distinct.subperm named).length_le
    rw [List.length_map, List.length_map] at shorter
    exact fitsStack_of_le shorter loadable.fits
  · intro other member
    obtain ⟨property, _, rfl⟩ := isLoaded other member
    exact kept_loadedValue property.2

theorem checkNamed_visible (node : NodeRecord) : checkNamed (visible node) loaderId = none :=
  checkNamed_eq_none_iff.mpr fun _ member => of_decide_eq_true (List.mem_filter.mp member).2

theorem visible_eq (noId : checkNamed node.properties loaderId = none) :
    visible node = node.properties :=
  List.filter_eq_self.mpr fun property member =>
    decide_eq_true (checkNamed_eq_none_iff.mp noId property member)

/-! ## The first time -/

theorem settled_of_reloaded (dumpable : Dumpable getId graph)
    (same : SameGraph (reloaded graph) next) : Settled next := by
  have sameLength : next.nodes.length = graph.nodes.length := by
    have lengths := congrArg List.length same.nodes
    simpa only [reloaded, List.length_map] using lengths
  constructor
  · intro isNil
    rw [isNil] at sameLength
    exact dumpable.notEmpty (List.length_eq_zero_iff.mp sameLength.symm)
  · intro node member
    have inViews := List.mem_map_of_mem (f := nodeView) member
    rw [same.nodes, reloaded, List.map_map] at inViews
    obtain ⟨original, inGraph, isView⟩ := List.mem_map.mp inViews
    obtain ⟨sameTag, sameProperties⟩ := Prod.mk.inj isView
    obtain ⟨ofTag, ofList⟩ := dumpable.nodes original inGraph
    refine ⟨sameTag ▸ ofTag,
      settledList_of_checkNamed ofList sameProperties.symm (same.distinctInNodes node member), ?_⟩
    rw [← sameProperties]
    show checkNamed ((visible original).map loadedProperty) loaderId = none
    rw [checkNamed_loaded, checkNamed_visible]
    rfl
  · intro edge member
    have inViews := List.mem_map_of_mem (f := edgeView) member
    rw [same.edges, reloaded, List.map_map] at inViews
    obtain ⟨original, inGraph, isView⟩ := List.mem_map.mp inViews
    obtain ⟨ofTag, ofList, ofSource, ofDestination⟩ := dumpable.edges original inGraph
    simp only [Function.comp_apply, edgeView, loadedEdge, Nat.zero_add, Prod.mk.injEq] at isView
    obtain ⟨sameSource, sameDestination, sameTag, sameProperties⟩ := isView
    refine ⟨sameTag ▸ ofTag,
      settledList_of_checkNamed ofList sameProperties.symm (same.distinctInEdges edge member),
      ?_, ?_⟩
    · rw [← sameSource, sameLength]
      exact ofSource
    · rw [← sameDestination, sameLength]
      exact ofDestination

/-- Everything is kept if and only if no string has a backslash and no property is a blob. -/
theorem reloaded_same_iff (dumpable : Dumpable getId graph) :
    ((reloaded graph).nodes.map nodeView =
        graph.nodes.map (fun node => (node.tag, checkNamed (visible node))) ∧
      (reloaded graph).edges.map edgeView = graph.edges.map edgeView) ↔
      (∀ node ∈ graph.nodes, ∀ property ∈ visible node, Kept property.2) ∧
        ∀ edge ∈ graph.edges, ∀ property ∈ edge.properties, Kept property.2 := by
  rw [reloaded, List.map_map, List.map_map, List.map_inj_left, List.map_inj_left]
  refine and_congr (forall₂_congr fun node member => ?_) (forall₂_congr fun edge member => ?_)
  · rw [← checkNamed_loaded_eq_iff (dumpable.nodes node member).2.distinct]
    exact ⟨fun same => (Prod.mk.inj same).2, fun same => congrArg (Prod.mk node.tag) same⟩
  · rw [← checkNamed_loaded_eq_iff (dumpable.edges edge member).2.1.distinct, Function.comp_apply,
      edgeView, edgeView, loadedEdge]
    simp only [Nat.zero_add, Prod.mk.injEq, true_and]

/-! ## Again -/

theorem Settled.loaderProperty_eq_none (settled : Settled graph) (place : Nat) :
    loaderProperty graph place = none := by
  rw [loaderProperty]
  cases atPlace : graph.nodes[place]? with
  | none => rfl
  | some node => exact (settled.nodes node (List.mem_of_getElem? atPlace)).2.2

theorem Settled.dumpable (settled : Settled graph) (numbered : Numbered getId graph.nodes.length) :
    Dumpable getId graph where
  notEmpty := settled.notEmpty
  named := by
    refine ⟨.inl fun place inside => ⟨settled.loaderProperty_eq_none place,
      numbered.small place inside⟩, fun place inside other isOther same => ?_⟩
    rw [loaderKey, loaderKey, settled.loaderProperty_eq_none,
      settled.loaderProperty_eq_none] at same
    have equal : (getId place : Int) = getId other := LoaderId.integer.inj same
    exact numbered.distinct place inside other isOther (Int.ofNat.inj equal)
  nodes node member := by
    obtain ⟨ofTag, ofList, noId⟩ := settled.nodes node member
    rw [visible_eq noId]
    exact ⟨ofTag, ofList.toLoadableList⟩
  edges edge member := by
    obtain ⟨ofTag, ofList, ends⟩ := settled.edges edge member
    exact ⟨ofTag, ofList.toLoadableList, ends⟩

theorem SettledList.checkNamed_loaded (settled : SettledList properties) :
    checkNamed (properties.map loadedProperty) = checkNamed properties :=
  (checkNamed_loaded_eq_iff settled.distinct).mpr settled.kept

theorem Settled.sameGraph_of_reloaded (settled : Settled graph)
    (same : SameGraph (reloaded graph) next) : SameGraph graph next := by
  refine ⟨same.nodes.trans ?_, same.edges.trans ?_, same.distinctInNodes, same.distinctInEdges⟩
  · rw [reloaded, List.map_map]
    refine List.map_congr_left fun node member => ?_
    obtain ⟨_, ofList, noId⟩ := settled.nodes node member
    rw [Function.comp_apply, nodeView, nodeView, loadedNode, visible_eq noId]
    exact congrArg (Prod.mk node.tag) ofList.checkNamed_loaded
  · rw [reloaded, List.map_map]
    refine List.map_congr_left fun edge member => ?_
    obtain ⟨_, ofList, _⟩ := settled.edges edge member
    rw [Function.comp_apply, edgeView, edgeView, loadedEdge, ofList.checkNamed_loaded,
      Nat.zero_add, Nat.zero_add]

theorem Settled.same (settled : Settled graph) : SameGraph graph graph where
  nodes := rfl
  edges := rfl
  distinctInNodes node member := (settled.nodes node member).2.1.distinct
  distinctInEdges edge member := (settled.edges edge member).2.1.distinct

end Loader

end Pmgd
