import Pmgd.TextLoader

/-!
# Names in a text and in the string table

What `dump_pmgd` and the loader do with the ids of a string table is what they do with the strings
themselves, as long as every look-up of a string ends at this string.
-/

namespace Pmgd

open Scanner Dump Loader

variable {N M S : Type}

/-! ## Other names for the same graph -/

def NodeOf.renamed (name : N → M) (node : NodeOf N) : NodeOf M :=
  ⟨name node.tag, node.properties.map fun property => (name property.1, property.2)⟩

def EdgeOf.renamed (name : N → M) (edge : EdgeOf N) : EdgeOf M :=
  ⟨edge.source, edge.destination, name edge.tag,
    edge.properties.map fun property => (name property.1, property.2)⟩

def GraphOf.renamed (name : N → M) (graph : GraphOf N) : GraphOf M :=
  ⟨graph.nodes.map (NodeOf.renamed name), graph.edges.map (EdgeOf.renamed name)⟩

/-- All ids of a graph are known. -/
structure GraphOf.Over (known : N → Prop) (graph : GraphOf N) : Prop where
  nodes : ∀ node ∈ graph.nodes, known node.tag ∧ ∀ property ∈ node.properties, known property.1
  edges : ∀ edge ∈ graph.edges, known edge.tag ∧ ∀ property ∈ edge.properties, known property.1

variable {known : N → Prop} {graph : GraphOf N}

theorem GraphOf.renamed_congr {name other : N → M} (allKnown : graph.Over known)
    (same : ∀ id, known id → name id = other id) : graph.renamed name = graph.renamed other := by
  have ofProperties {properties : List (N × Property)}
      (all : ∀ property ∈ properties, known property.1) :
      (properties.map fun property => (name property.1, property.2)) =
        properties.map fun property => (other property.1, property.2) :=
    List.map_congr_left fun property member =>
      congrArg (fun id => (id, property.2)) (same _ (all property member))
  refine congrArg₂ GraphOf.mk (List.map_congr_left fun node member => ?_)
    (List.map_congr_left fun edge member => ?_)
  · obtain ⟨ofTag, ofList⟩ := allKnown.nodes node member
    rw [NodeOf.renamed, NodeOf.renamed, same _ ofTag, ofProperties ofList]
  · obtain ⟨ofTag, ofList⟩ := allKnown.edges edge member
    rw [EdgeOf.renamed, EdgeOf.renamed, same _ ofTag, ofProperties ofList]

theorem GraphOf.Over.mono {more : N → Prop} (allKnown : graph.Over known)
    (knownToo : ∀ id, known id → more id) : graph.Over more where
  nodes node member := by
    obtain ⟨ofTag, ofList⟩ := allKnown.nodes node member
    exact ⟨knownToo _ ofTag, fun property inList => knownToo _ (ofList property inList)⟩
  edges edge member := by
    obtain ⟨ofTag, ofList⟩ := allKnown.edges edge member
    exact ⟨knownToo _ ofTag, fun property inList => knownToo _ (ofList property inList)⟩

/-! ## Writing -/

section Writing

variable [DecidableEq N] {naming : Naming N S} {names : S} {strid : N}
  {floatText : BitVec 64 → List Char} {getId : Nat → Nat} {properties : List (N × Property)}

/-- The id is the one of `pmgd.loader.id`, or no id of a property if there is none. -/
structure IsLoaderId (naming : Naming N S) (names : S) (strid : N)
    (properties : List (N × Property)) : Prop where
  same : ∀ property ∈ properties, property.1 = strid ↔ naming.name names property.1 = loaderId
  absent : strid = naming.noName → ∀ property ∈ properties, property.1 ≠ strid

theorem IsLoaderId.checkLoaderId_eq (isId : IsLoaderId naming names strid properties) :
    checkLoaderId naming strid properties =
      checkLoaderId plain loaderId
        (properties.map fun property => (naming.name names property.1, property.2)) := by
  have named : checkNamed properties strid = checkNamed
      (properties.map fun property => (naming.name names property.1, property.2)) loaderId := by
    have same := isId.same
    clear isId
    induction properties with
    | nil => rfl
    | cons property properties induction =>
        rw [List.forall_mem_cons] at same
        rw [List.map_cons, checkNamed_cons, checkNamed_cons, induction same.2]
        exact if_congr (eq_comm.trans (same.1.trans eq_comm)) rfl rfl
  rw [checkLoaderId, checkLoaderId_plain, ← named]
  split_ifs with isNone
  · exact (checkNamed_eq_none_iff.mpr (isId.absent isNone)).symm
  · rfl

theorem IsLoaderId.filter_eq (isId : IsLoaderId naming names strid properties) :
    Dump.named naming names (properties.filter fun property => property.1 ≠ strid) =
      (properties.map fun property => (naming.name names property.1, property.2)).filter
        fun property => property.1 ≠ loaderId := by
  rw [Dump.named, List.filter_map]
  refine congrArg _ (List.filter_congr fun property member => ?_)
  exact decide_eq_decide.mpr (not_congr (isId.same property member))

/-- What is written depends on the names of the ids only. -/
theorem printGraph_renamed
    (isId : ∀ node ∈ graph.nodes, IsLoaderId naming names strid node.properties) :
    printGraph naming names strid floatText getId graph =
      printGraph plain () loaderId floatText getId (graph.renamed (naming.name names)) := by
  have ofNode : ∀ node ∈ graph.nodes.zipIdx,
      printNode naming names strid floatText getId node.2 node.1 =
        printNode plain () loaderId floatText getId node.2
          (node.1.renamed (naming.name names)) := by
    intro node member
    have ofProperties := isId node.1 (List.fst_mem_of_mem_zipIdx member)
    rw [printNode, printNode, ofProperties.checkLoaderId_eq, ofProperties.filter_eq, named_plain]
    rfl
  have ofPlace (place : Nat) : loaderIdOf naming strid graph place =
      loaderIdOf plain loaderId (graph.renamed (naming.name names)) place := by
    rw [loaderIdOf, loaderIdOf, GraphOf.renamed, List.getElem?_map]
    cases atPlace : graph.nodes[place]? with
    | none => rfl
    | some node => exact (isId node (List.mem_of_getElem? atPlace)).checkLoaderId_eq
  have ofEdge (edge : EdgeOf N) : printEdge naming names strid floatText getId graph edge =
      printEdge plain () loaderId floatText getId (graph.renamed (naming.name names))
        (edge.renamed (naming.name names)) := by
    rw [printEdge, printEdge, ofPlace, ofPlace, named_plain]
    rfl
  have edges : graph.edges.mapM (printEdge naming names strid floatText getId graph) =
      (graph.renamed (naming.name names)).edges.mapM
        (printEdge plain () loaderId floatText getId (graph.renamed (naming.name names))) := by
    have isMap : (graph.renamed (naming.name names)).edges =
        graph.edges.map (EdgeOf.renamed (naming.name names)) := rfl
    rw [funext ofEdge, isMap, List.mapM_map]
    rfl
  have nodes : (graph.nodes.zipIdx.flatMap fun node =>
      printNode naming names strid floatText getId node.2 node.1) =
        (graph.renamed (naming.name names)).nodes.zipIdx.flatMap fun node =>
          printNode plain () loaderId floatText getId node.2 node.1 := by
    rw [GraphOf.renamed, List.zipIdx_map, List.flatMap_map]
    exact List.flatMap_congr ofNode
  rw [printGraph, printGraph, edges, nodes]

end Writing

/-! ## Loading -/

namespace Loader

def State.renamed (name : N → M) (state : State N S) : State M Unit :=
  ⟨(), state.graph.renamed name, state.committed.renamed name, state.inTransaction, state.index,
    name state.tag, name state.propertyId, state.current, state.nodes⟩

/-- All ids of a state are known. -/
structure State.Over (known : N → Prop) (state : State N S) : Prop where
  graph : state.graph.Over known
  committed : state.committed.Over known
  tag : known state.tag
  propertyId : known state.propertyId

/-- The string that an action looks up. -/
def wordOf : Action → Option (List Char)
  | .tag (some text) => some (cStr text)
  | .propertyId name => some (cStr name)
  | _ => none

section Actions

variable {name : N → M} {state : State N S} {id : N} {value : Property} {current : Option Current}
  {failure : Option Nat} {action : Action}

theorem State.renamed_congr {other : N → M} (allKnown : state.Over known)
    (same : ∀ id, known id → name id = other id) : state.renamed name = state.renamed other := by
  rw [renamed, renamed, GraphOf.renamed_congr allKnown.graph same,
    GraphOf.renamed_congr allKnown.committed same, same _ allKnown.tag, same _ allKnown.propertyId]

theorem State.Over.mono {more : N → Prop} (allKnown : state.Over known)
    (knownToo : ∀ id, known id → more id) : state.Over more where
  graph := allKnown.graph.mono knownToo
  committed := allKnown.committed.mono knownToo
  tag := knownToo _ allKnown.tag
  propertyId := knownToo _ allKnown.propertyId

theorem map_call {α β : Type} (change : α → β) (result : α) :
    (call failure result).map change = call failure (change result) := by
  cases failure <;> rfl

theorem getNode_renamed (loaderId : LoaderId) :
    getNode failure loaderId (state.renamed name) =
      (getNode failure loaderId state).map fun (place, state) => (place, state.renamed name) := by
  have sameIndex : (state.renamed name).index = state.index := rfl
  rw [getNode, getNode, sameIndex]
  dsimp only
  cases (state.index.start loaderId).find loaderId with
  | some place => rfl
  | none =>
      dsimp only
      rw [map_call]
      simp only [State.renamed, GraphOf.renamed, List.length_map, List.map_append, List.map_cons,
        List.map_nil, NodeOf.renamed]

variable [DecidableEq N] [DecidableEq M]

theorem setNamed_renamed {properties : List (N × Property)}
    (injective : ∀ first second, known first → known second → name first = name second →
      first = second)
    (ofProperties : ∀ property ∈ properties, known property.1) (ofId : known id) :
    (setNamed id value properties).map (fun property => (name property.1, property.2)) =
      setNamed (name id) value
        (properties.map fun property => (name property.1, property.2)) := by
  rw [setNamed, setNamed, List.map_append, List.filter_map]
  refine congrArg₂ _ (congrArg _ (List.filter_congr fun property member => ?_)) rfl
  refine decide_eq_decide.mpr (not_congr ⟨congrArg name, fun same => ?_⟩)
  exact injective _ _ (ofProperties property member) ofId same

theorem map_modify {α β : Type} {list : List α} {place : Nat} {change : α → α} {other : β → β}
    {view : α → β} (same : ∀ a ∈ list, view (change a) = other (view a)) :
    (list.modify place change).map view = (list.map view).modify place other := by
  induction list generalizing place with
  | nil =>
      rw [List.modify_nil, List.map_nil, List.modify_nil]
  | cons a list induction =>
      rw [List.forall_mem_cons] at same
      cases place with
      | zero =>
          rw [List.modify_zero_cons, List.map_cons, List.map_cons, List.modify_zero_cons, same.1]
      | succ place =>
          rw [List.modify_succ_cons, List.map_cons, List.map_cons, List.modify_succ_cons,
            induction same.2]

theorem mem_modify {α : Type} {list : List α} {place : Nat} {change : α → α} {a : α}
    (member : a ∈ list.modify place change) : a ∈ list ∨ ∃ old ∈ list, change old = a := by
  induction list generalizing place with
  | nil =>
      rw [List.modify_nil] at member
      exact .inl member
  | cons first list induction =>
      cases place with
      | zero =>
          rw [List.modify_zero_cons] at member
          rcases List.mem_cons.mp member with rfl | behind
          · exact .inr ⟨first, List.mem_cons_self, rfl⟩
          · exact .inl (List.mem_cons_of_mem first behind)
      | succ place =>
          rw [List.modify_succ_cons] at member
          rcases List.mem_cons.mp member with rfl | behind
          · exact .inl List.mem_cons_self
          · rcases induction behind with old | ⟨old, isOld, rfl⟩
            · exact .inl (List.mem_cons_of_mem first old)
            · exact .inr ⟨old, List.mem_cons_of_mem first isOld, rfl⟩

theorem setCurrent_renamed
    (injective : ∀ first second, known first → known second → name first = name second →
      first = second)
    (allKnown : graph.Over known) (ofId : known id) :
    (setCurrent id value graph current).renamed name =
      setCurrent (name id) value (graph.renamed name) current := by
  cases current with
  | none => rfl
  | some current =>
      cases current with
      | node place =>
          refine congrArg (fun nodes => GraphOf.mk nodes _) (map_modify fun node member => ?_)
          exact congrArg (NodeOf.mk _)
            (setNamed_renamed injective (allKnown.nodes node member).2 ofId)
      | edge place =>
          refine congrArg (GraphOf.mk _) (map_modify fun edge member => ?_)
          exact congrArg (EdgeOf.mk _ _ _)
            (setNamed_renamed injective (allKnown.edges edge member).2 ofId)

/-- An action without a string does the same whatever the names are. -/
theorem act_renamed {naming : Naming N S} {other : Naming M Unit}
    (injective : ∀ first second, known first → known second → name first = name second →
      first = second)
    (noName : name naming.noName = other.noName) (allKnown : state.Over known)
    (noWord : wordOf action = none) :
    act other failure action (state.renamed name) =
      (act naming failure action state).map (State.renamed name) := by
  cases action with
  | begin =>
      rw [act, act, map_call]
      rfl
  | tag text =>
      cases text with
      | none =>
          rw [act, act, ← noName]
          rfl
      | some text => cases noWord
  | node loaderId =>
      rw [act, act, getNode_renamed]
      cases getNode failure loaderId state <;> rfl
  | propertyId text => cases noWord
  | setProperty token =>
      rw [act, act]
      cases loadValue token with
      | error error => rfl
      | ok value =>
          dsimp only
          rw [map_call]
          have sameGraph := @setCurrent_renamed _ _ _ _ name state.propertyId value state.current
            _ _ injective allKnown.graph allKnown.propertyId
          simp only [State.renamed, sameGraph]
  | addEdge tagged =>
      rw [act, act, map_call]
      simp only [State.renamed, GraphOf.renamed, List.length_map, List.map_append, List.map_cons,
        List.map_nil, EdgeOf.renamed, ← noName]
      cases tagged <;> rfl
  | commit =>
      rw [act, act, map_call]
      rfl

theorem over_setCurrent (allKnown : graph.Over known) (ofId : known id) :
    (setCurrent id value graph current).Over known := by
  have ofSet {properties : List (N × Property)}
      (all : ∀ property ∈ properties, known property.1) :
      ∀ property ∈ setNamed id value properties, known property.1 := by
    intro property member
    rcases List.mem_append.mp member with old | isNew
    · exact all property (List.mem_filter.mp old).1
    · rw [List.mem_singleton.mp isNew]
      exact ofId
  cases current with
  | none => exact allKnown
  | some current =>
      cases current with
      | node place =>
          refine ⟨fun node member => ?_, allKnown.edges⟩
          rcases mem_modify member with old | ⟨node, old, rfl⟩
          · exact allKnown.nodes node old
          · exact ⟨(allKnown.nodes node old).1, ofSet (allKnown.nodes node old).2⟩
      | edge place =>
          refine ⟨allKnown.nodes, fun edge member => ?_⟩
          rcases mem_modify member with old | ⟨edge, old, rfl⟩
          · exact allKnown.edges edge old
          · exact ⟨(allKnown.edges edge old).1, ofSet (allKnown.edges edge old).2⟩

theorem eq_of_call {α : Type} {result other : α} (isOk : call failure result = .ok other) :
    other = result := by
  cases failure with
  | none => exact (Except.ok.inj isOk).symm
  | some num => cases isOk

/-- An action without a string has no new ids, and leaves the names as they are. -/
theorem over_of_act {naming : Naming N S} {next : State N S} (ofNoName : known naming.noName)
    (allKnown : state.Over known) (noWord : wordOf action = none)
    (isNext : act naming failure action state = .ok next) :
    next.Over known ∧ next.names = state.names := by
  have noProperty : ∀ property ∈ ([] : List (N × Property)), known property.1 :=
    List.forall_mem_nil _
  cases action with
  | begin =>
      obtain rfl := eq_of_call isNext
      exact ⟨⟨allKnown.graph, allKnown.committed, allKnown.tag, allKnown.propertyId⟩, rfl⟩
  | tag text =>
      cases text with
      | none =>
          obtain rfl := Except.ok.inj isNext
          exact ⟨⟨allKnown.graph, allKnown.committed, ofNoName, allKnown.propertyId⟩, rfl⟩
      | some text => cases noWord
  | node loaderId =>
      rw [act, getNode] at isNext
      dsimp only at isNext
      cases found : (state.index.start loaderId).find loaderId with
      | some place =>
          rw [found] at isNext
          obtain rfl := Except.ok.inj isNext
          exact ⟨⟨allKnown.graph, allKnown.committed, allKnown.tag, allKnown.propertyId⟩, rfl⟩
      | none =>
          rw [found] at isNext
          dsimp only at isNext
          rw [map_call] at isNext
          obtain rfl := eq_of_call isNext
          refine ⟨⟨⟨?_, allKnown.graph.edges⟩, allKnown.committed, allKnown.tag,
            allKnown.propertyId⟩, rfl⟩
          exact List.forall_mem_append.mpr ⟨allKnown.graph.nodes,
            List.forall_mem_singleton.mpr ⟨allKnown.tag, noProperty⟩⟩
  | propertyId text => cases noWord
  | setProperty token =>
      rw [act] at isNext
      cases isValue : loadValue token with
      | error error =>
          rw [isValue] at isNext
          cases isNext
      | ok value =>
          rw [isValue] at isNext
          obtain rfl := eq_of_call isNext
          exact ⟨⟨over_setCurrent allKnown.graph allKnown.propertyId, allKnown.committed,
            allKnown.tag, allKnown.propertyId⟩, rfl⟩
  | addEdge tagged =>
      obtain rfl := eq_of_call isNext
      have ofTag : known (if tagged then state.tag else naming.noName) := by
        cases tagged with
        | true => exact allKnown.tag
        | false => exact ofNoName
      refine ⟨⟨⟨allKnown.graph.nodes, ?_⟩, allKnown.committed, allKnown.tag,
        allKnown.propertyId⟩, rfl⟩
      exact List.forall_mem_append.mpr ⟨allKnown.graph.edges,
        List.forall_mem_singleton.mpr ⟨ofTag, noProperty⟩⟩
  | commit =>
      obtain rfl := eq_of_call isNext
      exact ⟨⟨allKnown.graph, allKnown.graph, allKnown.tag, allKnown.propertyId⟩, rfl⟩

end Actions

end Loader

end Pmgd
