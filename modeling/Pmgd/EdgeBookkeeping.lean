import Mathlib.Data.Finset.Lattice.Fold
import Pmgd.RemoveNode

/-!
# Edges and stored counts

A list in the graph stores the number of its elements next to the pointer to the first of
them.  The list of buckets of an edge index has such a count and so has the list of each
bucket; the count of a bucket decides whether it is removed.

The counts of a graph that calls lead to are right, and so it is the image of a graph in which
the counts are left out.  Its indexes therefore list the live edges and nothing else.
-/

namespace Pmgd

open LabelledRun

/-- `List`: the values, the newest first, and `_num_elems`. -/
structure CountedList (Value : Type) where
  values : List Value
  numElems : BitVec 64

namespace CountedList

variable {Value : Type}

/-- Change the first value that passes a test. -/
def updateFirst (isValue : Value → Bool) (change : Value → Value) : List Value → List Value
  | [] => []
  | value :: values =>
      if isValue value then change value :: values
      else value :: updateFirst isValue change values

/-- `init`. -/
def init : CountedList Value :=
  ⟨[], 0⟩

/-- `List::add`. -/
def add (list : CountedList Value) (value : Value) : CountedList Value :=
  ⟨value :: list.values, list.numElems + 1⟩

/-- `List::remove`; the test says which values are equal to the given one. -/
def remove (list : CountedList Value) (isValue : Value → Bool) : CountedList Value :=
  if list.values.any isValue then ⟨list.values.eraseP isValue, list.numElems - 1⟩ else list

/-- `List::find`. -/
def find (list : CountedList Value) (isValue : Value → Bool) : Option Value :=
  list.values.find? isValue

/-- A change through the pointer that `find` gives. -/
def update (list : CountedList Value) (isValue : Value → Bool) (change : Value → Value) :
    CountedList Value :=
  { list with values := updateFirst isValue change list.values }

/-- The values with the right count. -/
def ofList (values : List Value) : CountedList Value :=
  ⟨values, BitVec.ofNat 64 values.length⟩

theorem toNat_numElems {values : List Value} (bounded : values.length < 2 ^ 64) :
    (ofList values).numElems.toNat = (ofList values).values.length := by
  rw [ofList, BitVec.toNat_ofNat, Nat.mod_eq_of_lt bounded]

theorem add_ofList (values : List Value) (value : Value) :
    (ofList values).add value = ofList (value :: values) := by
  rw [add, ofList, ofList, List.length_cons, BitVec.ofNat_add]
  rfl

theorem remove_ofList {first rest : List Value} {value : Value} {isValue : Value → Bool}
    (isFirst : isValue value) (others : ∀ other ∈ first, isValue other = false) :
    (ofList (first ++ value :: rest)).remove isValue = ofList (first ++ rest) := by
  have found : (first ++ value :: rest).any isValue :=
    List.any_eq_true.mpr ⟨value, List.mem_append_right _ List.mem_cons_self, isFirst⟩
  have erased : (first ++ value :: rest).eraseP isValue = first ++ rest := by
    rw [List.eraseP_append_right, List.eraseP_cons_of_pos isFirst]
    simpa using others
  have counts : BitVec.ofNat 64 (first ++ value :: rest).length - 1 =
      BitVec.ofNat 64 (first ++ rest).length := by
    rw [List.length_append, List.length_cons, ← Nat.add_assoc, ← List.length_append,
      BitVec.ofNat_add]
    exact BitVec.add_sub_cancel _ _
  simp only [remove, ofList, found, if_true, erased, counts]

theorem updateFirst_append {first rest : List Value} {value : Value} {isValue : Value → Bool}
    (isFirst : isValue value) (others : ∀ other ∈ first, isValue other = false)
    (change : Value → Value) :
    updateFirst isValue change (first ++ value :: rest) = first ++ change value :: rest := by
  induction first with
  | nil => rw [List.nil_append, updateFirst, if_pos isFirst, List.nil_append]
  | cons other first ih =>
      have notFirst : ¬ isValue other := by simp [others other List.mem_cons_self]
      rw [List.cons_append, updateFirst, if_neg notFirst,
        ih fun value member => others value (List.mem_cons_of_mem other member),
        List.cons_append]

theorem update_ofList {first rest : List Value} {value : Value} {isValue : Value → Bool}
    (isFirst : isValue value) (others : ∀ other ∈ first, isValue other = false)
    (change : Value → Value) :
    (ofList (first ++ value :: rest)).update isValue change =
      ofList (first ++ change value :: rest) := by
  rw [update, ofList, ofList, updateFirst_append isFirst others]
  simp

theorem find_ofList {first rest : List Value} {value : Value} {isValue : Value → Bool}
    (isFirst : isValue value) (others : ∀ other ∈ first, isValue other = false) :
    (ofList (first ++ value :: rest)).find isValue = some value := by
  have noFirst : first.find? isValue = none := by simpa using others
  rw [find, ofList, List.find?_append, noFirst, Option.none_or, List.find?_cons_of_pos isFirst]

end CountedList

/-! ## Edge indexes -/

/-- `EdgeNodePair`. -/
structure EdgeNodePair where
  edge : Nat
  node : Nat

/-- `EdgeIndexType`. -/
structure EdgeIndexType where
  key : Tag
  list : CountedList EdgeNodePair

/-- `EdgeIndex` with its `_key_list`. -/
abbrev CountedIndex := CountedList EdgeIndexType

namespace CountedIndex

/-- `operator==` of two buckets compares the tags. -/
def hasKey (tag : Tag) (bucket : EdgeIndexType) : Bool :=
  decide (bucket.key = tag)

/-- `operator==` of two pairs compares the edges. -/
def hasEdge (edge : Nat) (pair : EdgeNodePair) : Bool :=
  decide (pair.edge = edge)

/-- `EdgeIndex::add`. -/
def add (index : CountedIndex) (tag : Tag) (edge node : Nat) : CountedIndex :=
  let index :=
    match index.find (hasKey tag) with
    | some _ => index
    | none => CountedList.add index ⟨tag, .init⟩
  index.update (hasKey tag) fun bucket => { bucket with list := bucket.list.add ⟨edge, node⟩ }

/-- `EdgeIndex::remove`. -/
def remove (index : CountedIndex) (tag : Tag) (edge : Nat) : CountedIndex :=
  match index.find (hasKey tag) with
  | none => index
  | some bucket =>
      let list := bucket.list.remove (hasEdge edge)
      let index := index.update (hasKey tag) fun bucket => { bucket with list }
      if list.numElems = 0 then CountedList.remove index (hasKey tag) else index

/-- What the buckets list. -/
def entries (index : CountedIndex) : List EdgeIndex.Entry :=
  index.values.flatMap fun bucket =>
    bucket.list.values.map fun pair => ⟨bucket.key, pair.edge, pair.node⟩

end CountedIndex

/-! ## The graph -/

structure CountedNode where
  outEdges : CountedIndex
  inEdges : CountedIndex

/-- The live nodes and edges by their addresses. -/
structure CountedGraph where
  nodes : Nat → Option CountedNode
  edges : Nat → Option Edge

namespace CountedNode

def index (node : CountedNode) : Direction → CountedIndex
  | .outgoing => node.outEdges
  | .incoming => node.inEdges

def setIndex (node : CountedNode) (index : CountedIndex) : Direction → CountedNode
  | .outgoing => { node with outEdges := index }
  | .incoming => { node with inEdges := index }

/-- `Node::add_edge`, with the tag and the ends of the edge. -/
def addEdge (node : CountedNode) (edge : Nat) (ends : Edge) (tag : Tag) :
    Direction → CountedNode
  | .outgoing => node.setIndex (node.outEdges.add tag edge ends.dest) .outgoing
  | .incoming => node.setIndex (node.inEdges.add tag edge ends.src) .incoming

/-- `Node::remove_edge`. -/
def removeEdge (node : CountedNode) (edge : Nat) (ends : Edge) : Direction → CountedNode
  | .outgoing => node.setIndex (node.outEdges.remove ends.tag edge) .outgoing
  | .incoming => node.setIndex (node.inEdges.remove ends.tag edge) .incoming

end CountedNode

namespace CountedGraph

def empty : CountedGraph :=
  ⟨fun _ => none, fun _ => none⟩

/-- Change a node. -/
def change (graph : CountedGraph) (n : Nat) (change : CountedNode → CountedNode) :
    CountedGraph :=
  { graph with nodes := Function.update graph.nodes n ((graph.nodes n).map change) }

/-- `Graph::add_node`. -/
def addNode (graph : CountedGraph) (n : Nat) : Option CountedGraph :=
  if graph.nodes n = none then
    some { graph with nodes := Function.update graph.nodes n (some ⟨.init, .init⟩) }
  else none

/-- `Graph::add_edge`; the edge table gives an address that is not in use. -/
def addEdge (graph : CountedGraph) (edge src dest : Nat) (tag : Tag) : Option CountedGraph :=
  if graph.edges edge = none ∧ 0 < edge ∧ edge < 2 ^ 64 ∧
      graph.nodes src ≠ none ∧ graph.nodes dest ≠ none then
    let ends : Edge := ⟨src, dest, tag⟩
    some (({ graph with edges := Function.update graph.edges edge (some ends) }
      |>.change src fun node => node.addEdge edge ends tag .outgoing)
      |>.change dest fun node => node.addEdge edge ends tag .incoming)
  else none

/-- `Graph::remove(Edge &)`. -/
def removeEdge (graph : CountedGraph) (edge : Nat) : Option CountedGraph :=
  (graph.edges edge).map fun ends =>
    let graph := (graph.change ends.src fun node => node.removeEdge edge ends .outgoing)
      |>.change ends.dest fun node => node.removeEdge edge ends .incoming
    { graph with edges := Function.update graph.edges edge none }

inductive Action
  | addNode (n : Nat)
  | addEdge (edge src dest : Nat) (tag : Tag)
  | removeEdge (edge : Nat)

def step (graph : CountedGraph) : Action → Option CountedGraph
  | .addNode n => graph.addNode n
  | .addEdge edge src dest tag => graph.addEdge edge src dest tag
  | .removeEdge edge => graph.removeEdge edge

def index (graph : CountedGraph) (n : Nat) (dir : Direction) : CountedIndex :=
  match graph.nodes n with
  | none => .init
  | some node => node.index dir

/-- Every live edge is listed once at either end, nothing else is listed, the tags of the
buckets of an index differ, no bucket is empty and the counts are right. -/
structure Exact (graph : CountedGraph) : Prop where
  outgoing : ∀ edge ends, graph.edges edge = some ends →
    ((graph.index ends.src .outgoing).entries.filter fun entry => decide (entry.edge = edge)) =
      [⟨ends.tag, edge, ends.dest⟩]
  incoming : ∀ edge ends, graph.edges edge = some ends →
    ((graph.index ends.dest .incoming).entries.filter fun entry => decide (entry.edge = edge)) =
      [⟨ends.tag, edge, ends.src⟩]
  listed : ∀ n dir, ∀ entry ∈ (graph.index n dir).entries,
    graph.edges entry.edge = some (Graph.edgeOf n dir entry)
  nonempty : ∀ n dir, ∀ bucket ∈ (graph.index n dir).values, bucket.list.values ≠ []
  tags : ∀ n dir, ((graph.index n dir).values.map EdgeIndexType.key).Nodup
  keyCount : ∀ n dir,
    (graph.index n dir).numElems.toNat = (graph.index n dir).values.length
  count : ∀ n dir, ∀ bucket ∈ (graph.index n dir).values,
    bucket.list.numElems.toNat = bucket.list.values.length

end CountedGraph

/-! ## Leaving out addresses and putting in counts -/

namespace EdgeIndex

def pairOf (position : EdgePosition) : EdgeNodePair :=
  ⟨position.edge, position.node⟩

def bucketOf (key : KeyPosition) : EdgeIndexType :=
  ⟨key.key, .ofList (key.list.map pairOf)⟩

def counted (index : EdgeIndex) : CountedIndex :=
  .ofList (index.map bucketOf)

variable {index : EdgeIndex} {tag : Tag} {edge node : Nat}

theorem entries_counted (index : EdgeIndex) : index.counted.entries = index.entries := by
  simp only [CountedIndex.entries, counted, CountedList.ofList, bucketOf, List.flatMap_map,
    List.map_map]
  rfl

theorem hasKey_bucketOf {key : KeyPosition} :
    CountedIndex.hasKey tag (bucketOf key) = decide (key.key = tag) :=
  rfl

theorem not_hasKey {keys : List KeyPosition} (different : ∀ other ∈ keys, other.key ≠ tag) :
    ∀ bucket ∈ keys.map bucketOf, CountedIndex.hasKey tag bucket = false := by
  intro bucket member
  obtain ⟨key, isKey, rfl⟩ := List.mem_map.mp member
  exact decide_eq_false (different key isKey)

theorem add_counted (tags : (index.map KeyPosition.key).Nodup) (position : EdgePosition)
    (keyAddress : Nat) :
    index.counted.add tag position.edge position.node =
      (index.add tag position keyAddress).counted := by
  rcases index.add_cases tag position keyAddress with ⟨added, absent⟩ |
    ⟨before, key, after, rfl, rfl, added⟩
  · have notFound : index.counted.find (CountedIndex.hasKey tag) = none :=
      List.find?_eq_none.mpr fun bucket member => by simp [not_hasKey absent bucket member]
    have isFirst : CountedIndex.hasKey tag ⟨tag, .init⟩ := decide_eq_true rfl
    rw [CountedIndex.add, notFound, added]
    dsimp only
    rw [counted, CountedList.add_ofList]
    exact @CountedList.update_ofList _ [] _ _ _ isFirst (by simp) _
  · have notBefore : ∀ other ∈ before, other.key ≠ key.key := by
      intro other isBefore sameTag
      rw [List.map_append, List.map_cons] at tags
      exact (List.nodup_append.mp tags).2.2 _ (List.mem_map_of_mem isBefore) _
        List.mem_cons_self sameTag
    have isFirst : CountedIndex.hasKey key.key (bucketOf key) := decide_eq_true rfl
    have found : (counted (before ++ key :: after)).find (CountedIndex.hasKey key.key) =
        some (bucketOf key) := by
      rw [counted, List.map_append, List.map_cons]
      exact CountedList.find_ofList isFirst (not_hasKey notBefore)
    rw [CountedIndex.add, found, added]
    dsimp only
    rw [counted, List.map_append, List.map_cons,
      CountedList.update_ofList isFirst (not_hasKey notBefore), counted, List.map_append,
      List.map_cons, bucketOf, CountedList.add_ofList]
    rfl

theorem remove_counted (place : Place tag edge node)
    (bounded : place.whole.entries.length < 2 ^ 64) :
    place.whole.counted.remove tag edge = place.removed.counted := by
  have isFirst : CountedIndex.hasKey tag (bucketOf place.key) := decide_eq_true place.key_eq
  have isOthers : CountedIndex.hasKey tag (bucketOf place.others) := decide_eq_true place.key_eq
  have notBefore := not_hasKey place.not_before
  have whole : place.whole.map bucketOf =
      place.before.map bucketOf ++ bucketOf place.key :: place.after.map bucketOf := by
    rw [Place.whole, List.map_append, List.map_cons]
  have removed : (bucketOf place.key).list.remove (CountedIndex.hasEdge edge) =
      (bucketOf place.others).list := by
    have isPosition : CountedIndex.hasEdge edge (pairOf place.position) :=
      decide_eq_true place.edge_eq
    rw [bucketOf, place.list_eq, List.map_append, List.map_cons,
      CountedList.remove_ofList isPosition, bucketOf, Place.others, List.map_append]
    intro pair member
    obtain ⟨position, inFirst, rfl⟩ := List.mem_map.mp member
    exact decide_eq_false (place.not_first position inFirst)
  have count : (bucketOf place.others).list.numElems = 0 ↔ place.others.list = [] := by
    have fits : place.others.list.length < 2 ^ 64 := by
      refine lt_of_le_of_lt ?_ bounded
      simp [Place.whole, Place.others, place.list_eq, bucketEntries]
      omega
    have isLength : (bucketOf place.others).list.numElems.toNat = place.others.list.length := by
      rw [bucketOf, CountedList.ofList, BitVec.toNat_ofNat, List.length_map,
        Nat.mod_eq_of_lt fits]
    rw [← List.length_eq_zero_iff, ← isLength]
    exact BitVec.toNat_inj.symm
  rw [CountedIndex.remove, counted, whole, CountedList.find_ofList isFirst notBefore]
  dsimp only
  rw [removed, CountedList.update_ofList isFirst notBefore, Place.removed]
  have same : ({ bucketOf place.key with list := (bucketOf place.others).list } :
      EdgeIndexType) = bucketOf place.others := rfl
  rw [same]
  split_ifs with isZero empty empty
  · rw [CountedList.remove_ofList isOthers notBefore, counted, List.map_append]
  · exact absurd (count.mp isZero) empty
  · exact absurd (count.mpr empty) isZero
  · rw [counted, List.map_append, List.map_cons]

end EdgeIndex

namespace Graph

open EdgeIndex

def countedNode (node : Node) : CountedNode :=
  ⟨node.outEdges.counted, node.inEdges.counted⟩

def counted (graph : Graph) : CountedGraph :=
  ⟨fun n => (graph.nodes n).map countedNode, graph.edges⟩

variable {graph : Graph} {n : Nat} {dir : Direction} {tag : Tag} {edge : Nat}

theorem index_counted (graph : Graph) (n : Nat) (dir : Direction) :
    graph.counted.index n dir = (graph.index n dir).counted := by
  unfold CountedGraph.index counted Graph.index
  dsimp only
  cases graph.nodes n with
  | none => rfl
  | some node => cases dir <;> rfl

theorem nodes_counted : graph.counted.nodes n = none ↔ graph.nodes n = none :=
  Option.map_eq_none_iff

/-- A change of a node that replaces an index. -/
theorem change_counted {index : EdgeIndex} {change : CountedNode → CountedNode}
    (changes : ∀ node, graph.nodes n = some node →
      change (countedNode node) = countedNode (node.setIndex index dir)) :
    graph.counted.change n change = (graph.setIndex n dir index).counted := by
  unfold CountedGraph.change counted setIndex
  congr 1
  funext m
  by_cases same : m = n
  · subst same
    simp only [Function.update_self, Option.map_map]
    cases isNode : graph.nodes m with
    | none => rfl
    | some node => exact congrArg some (changes node isNode)
  · simp only [Function.update_of_ne same]

theorem length_entries_lt {index : EdgeIndex} (edges : (index.entries.map Entry.edge).Nodup)
    (bounded : ∀ entry ∈ index.entries, 0 < entry.edge ∧ entry.edge < 2 ^ 64) :
    index.entries.length < 2 ^ 64 := by
  have addresses : index.entries.map Entry.edge ⊆ (List.range' 1 (2 ^ 64 - 1)) := by
    intro edge member
    obtain ⟨entry, isEntry, rfl⟩ := List.mem_map.mp member
    obtain ⟨positive, fits⟩ := bounded entry isEntry
    exact List.mem_range'_1.mpr ⟨positive, by omega⟩
  have shorter := (List.subperm_of_subset edges addresses).length_le
  rw [List.length_map, List.length_range'] at shorter
  omega

theorem length_bucket_le_entries {index : EdgeIndex} {key : KeyPosition} (isKey : key ∈ index) :
    key.list.length ≤ index.entries.length := by
  obtain ⟨before, after, rfl⟩ := List.append_of_mem isKey
  simp only [entries_append, entries_cons, bucketEntries, List.length_append, List.length_map]
  omega

/-! ## The same calls on both graphs -/

/-- The node at the other end of an edge. -/
def opposite (ends : Edge) : Direction → Nat
  | .outgoing => ends.dest
  | .incoming => ends.src

theorem addToIndex_counted (tags : ((graph.index n dir).map KeyPosition.key).Nodup)
    (ends : Edge) (address keyAddress : Nat) :
    (graph.addToIndex n dir tag ⟨address, edge, opposite ends dir⟩ keyAddress).counted =
      graph.counted.change n fun node => node.addEdge edge ends tag dir := by
  refine (change_counted fun node isNode => ?_).symm
  have isIndex : graph.index n dir = node.index dir := by rw [Graph.index, isNode]
  rw [isIndex] at tags ⊢
  cases dir with
  | outgoing =>
      exact congrArg (fun index => CountedNode.mk index node.inEdges.counted)
        (add_counted tags ⟨address, edge, ends.dest⟩ keyAddress)
  | incoming =>
      exact congrArg (fun index => CountedNode.mk node.outEdges.counted index)
        (add_counted tags ⟨address, edge, ends.src⟩ keyAddress)

theorem unlinked_counted {ends : Edge} {place : Place ends.tag edge (opposite ends dir)}
    (isIndex : graph.index n dir = place.whole)
    (bounded : place.whole.entries.length < 2 ^ 64) :
    (graph.unlinked n dir place).counted =
      graph.counted.change n fun node => node.removeEdge edge ends dir := by
  refine (change_counted fun node isNode => ?_).symm
  rw [Graph.index, isNode] at isIndex
  have removes := remove_counted place bounded
  rw [← isIndex] at removes
  cases dir with
  | outgoing => exact congrArg (fun index => CountedNode.mk index node.inEdges.counted) removes
  | incoming => exact congrArg (fun index => CountedNode.mk node.outEdges.counted index) removes

/-- The edges are non-NULL pointers of 64 bits. -/
def Addressed (graph : Graph) : Prop :=
  ∀ edge, graph.edges edge ≠ none → 0 < edge ∧ edge < 2 ^ 64

theorem length_index_lt (wellFormed : WellFormed graph) (addressed : Addressed graph) (n : Nat)
    (dir : Direction) : (graph.index n dir).entries.length < 2 ^ 64 := by
  refine length_entries_lt (wellFormed.shape.index n dir).edges fun entry isEntry => ?_
  have isEdge := (wellFormed.shape.listed n dir entry).mp isEntry
  exact addressed entry.edge (Option.ne_none_iff_exists'.mpr ⟨_, isEdge⟩)

theorem addNode_counted {next : CountedGraph} (wellFormed : WellFormed graph)
    (addressed : Addressed graph) (stepped : graph.counted.addNode n = some next) :
    ∃ graph', WellFormed graph' ∧ Addressed graph' ∧ graph'.counted = next := by
  rw [CountedGraph.addNode] at stepped
  split_ifs at stepped with isFree
  obtain rfl := Option.some.inj stepped
  have added : graph.addNode n = some _ := if_pos (nodes_counted.mp isFree)
  refine ⟨_, addNode_wellFormed wellFormed added, addressed, ?_⟩
  unfold counted
  congr 1
  funext m
  by_cases same : m = n
  · subst same
    simp only [Function.update_self]
    rfl
  · simp only [Function.update_of_ne same]

theorem addEdge_counted {src dest : Nat} {next : CountedGraph} (wellFormed : WellFormed graph)
    (addressed : Addressed graph) (stepped : graph.counted.addEdge edge src dest tag = some next) :
    ∃ graph', WellFormed graph' ∧ Addressed graph' ∧ graph'.counted = next := by
  rw [CountedGraph.addEdge] at stepped
  split_ifs at stepped with guards
  obtain rfl := Option.some.inj stepped
  obtain ⟨isNew, positive, fits, srcLive, destLive⟩ := guards
  have srcLive : graph.nodes src ≠ none := mt nodes_counted.mpr srcLive
  have destLive : graph.nodes dest ≠ none := mt nodes_counted.mpr destLive
  let top := graph.allocated.sup id
  have unused {address : Nat} (above : top < address) : address ∉ graph.allocated :=
    fun member => absurd (Finset.le_sup (f := id) member) (Nat.not_le.mpr above)
  let elements : NewElements := ⟨top + 1, top + 2, top + 3, top + 4⟩
  have fresh : elements.addresses.Nodup ∧
      ∀ address ∈ elements.addresses, address ∉ graph.allocated := by
    refine ⟨by simp [elements, NewElements.addresses], fun address member => unused ?_⟩
    simp only [elements, NewElements.addresses, List.mem_cons, List.not_mem_nil, or_false]
      at member
    omega
  let ends : Edge := ⟨src, dest, tag⟩
  let base : Graph := { graph with edges := Function.update graph.edges edge (some ends) }
  let half := base.addToIndex src .outgoing tag ⟨top + 1, edge, opposite ends .outgoing⟩ (top + 2)
  have added : graph.addEdge edge src dest tag elements =
      some (half.addToIndex dest .incoming tag ⟨top + 3, edge, opposite ends .incoming⟩
        (top + 4)) :=
    if_pos ⟨isNew, srcLive, destLive, fresh⟩
  have baseLive : base.nodes src ≠ none := srcLive
  have halfIndex : half.index dest .incoming = graph.index dest .incoming :=
    (index_addToIndex baseLive dest .incoming).trans (if_neg (by simp))
  have halfTags : ((half.index dest .incoming).map KeyPosition.key).Nodup := by
    rw [halfIndex]
    exact (wellFormed.shape.index dest .incoming).tags
  refine ⟨_, addEdge_wellFormed wellFormed added, ?_, ?_⟩
  · intro other isEdge
    have isUpdated : Function.update graph.edges edge (some ends) other ≠ none := isEdge
    by_cases same : other = edge
    · exact same ▸ ⟨positive, fits⟩
    · rw [Function.update_of_ne same] at isUpdated
      exact addressed other isUpdated
  · rw [addToIndex_counted halfTags, @addToIndex_counted base src .outgoing tag edge
      (wellFormed.shape.index src .outgoing).tags]
    rfl

theorem removeEdge_counted {next : CountedGraph} (wellFormed : WellFormed graph)
    (addressed : Addressed graph) (stepped : graph.counted.removeEdge edge = some next) :
    ∃ graph', WellFormed graph' ∧ Addressed graph' ∧ graph'.counted = next := by
  obtain ⟨ends, isEdge, rfl⟩ := Option.map_eq_some_iff.mp stepped
  have isEdge : graph.edges edge = some ends := isEdge
  obtain ⟨⟨outPlace, isOut⟩, inPlace, isIn⟩ := exists_places wellFormed isEdge
  obtain ⟨srcLive, -⟩ := wellFormed.live edge ends isEdge
  have bounded := length_index_lt wellFormed addressed
  refine ⟨_, removed_wellFormed wellFormed isEdge isOut isIn, ?_, ?_⟩
  · intro other isOther
    refine addressed other fun isNone => isOther ?_
    by_cases same : other = edge
    · exact same ▸ Function.update_self _ _ _
    · exact (Function.update_of_ne same _ _).trans isNone
  · have outgoing : (graph.unlinked ends.src .outgoing outPlace).counted =
        graph.counted.change ends.src fun node => node.removeEdge edge ends .outgoing :=
      unlinked_counted isOut (isOut ▸ bounded ends.src .outgoing)
    have stillIn : (graph.unlinked ends.src .outgoing outPlace).index ends.dest .incoming =
        inPlace.whole := by
      rw [index_unlinked srcLive, if_neg (by simp), isIn]
    have incoming : ((graph.unlinked ends.src .outgoing outPlace).unlinked ends.dest .incoming
        inPlace).counted = (graph.unlinked ends.src .outgoing outPlace).counted.change ends.dest
          fun node => node.removeEdge edge ends .incoming :=
      unlinked_counted stillIn (isIn ▸ bounded ends.dest .incoming)
    rw [outgoing] at incoming
    exact congrArg (fun counted : CountedGraph =>
      { counted with edges := Function.update graph.edges edge none }) incoming

/-- One call keeps a graph the image of one without counts. -/
theorem step_counted {action : CountedGraph.Action} {next : CountedGraph}
    (wellFormed : WellFormed graph) (addressed : Addressed graph)
    (stepped : graph.counted.step action = some next) :
    ∃ graph', WellFormed graph' ∧ Addressed graph' ∧ graph'.counted = next := by
  cases action with
  | addNode n => exact addNode_counted wellFormed addressed stepped
  | addEdge edge src dest tag => exact addEdge_counted wellFormed addressed stepped
  | removeEdge edge => exact removeEdge_counted wellFormed addressed stepped

theorem run_counted {actions : List CountedGraph.Action} {last : CountedGraph}
    (reaches : run CountedGraph.step .empty actions = some last) :
    ∃ graph, WellFormed graph ∧ Addressed graph ∧ graph.counted = last := by
  refine run_invariant (fun counted => ∃ graph, WellFormed graph ∧ Addressed graph ∧
    graph.counted = counted) ?_ ⟨empty, empty_wellFormed, fun _ isEdge => absurd rfl isEdge, rfl⟩
    (meetsAlong_true _ actions) reaches
  rintro _ action next ⟨graph, wellFormed, addressed, rfl⟩ - stepped
  exact step_counted wellFormed addressed stepped

theorem counted_exact (wellFormed : WellFormed graph) (addressed : Addressed graph) :
    graph.counted.Exact := by
  have shape := wellFormed.shape
  have bucket {n : Nat} {dir : Direction} {bucket : EdgeIndexType}
      (member : bucket ∈ (graph.counted.index n dir).values) :
      ∃ key ∈ graph.index n dir, bucketOf key = bucket := by
    rw [index_counted] at member
    exact List.mem_map.mp member
  have listed (n : Nat) (dir : Direction) (entry : Entry) :
      entry ∈ (graph.counted.index n dir).entries ↔
        graph.edges entry.edge = some (edgeOf n dir entry) := by
    rw [index_counted, entries_counted]
    exact shape.listed n dir entry
  constructor
  · intro edge ends isEdge
    rw [index_counted, entries_counted]
    exact filter_eq_singleton (shape.index ends.src .outgoing)
      ((shape.listed ends.src .outgoing ⟨ends.tag, edge, ends.dest⟩).mpr isEdge)
  · intro edge ends isEdge
    rw [index_counted, entries_counted]
    exact filter_eq_singleton (shape.index ends.dest .incoming)
      ((shape.listed ends.dest .incoming ⟨ends.tag, edge, ends.src⟩).mpr isEdge)
  · exact fun n dir entry isEntry => (listed n dir entry).mp isEntry
  · intro n dir bucket' member isEmpty
    obtain ⟨key, isKey, rfl⟩ := bucket member
    exact (shape.index n dir).nonempty key isKey (List.map_eq_nil_iff.mp isEmpty)
  · intro n dir
    rw [index_counted]
    have sameTags : (graph.index n dir).counted.values.map EdgeIndexType.key =
        (graph.index n dir).map KeyPosition.key := List.map_map
    exact sameTags ▸ (shape.index n dir).tags
  · intro n dir
    rw [index_counted]
    refine CountedList.toNat_numElems ?_
    rw [List.length_map]
    refine lt_of_le_of_lt ?_ (length_index_lt wellFormed addressed n dir)
    exact length_le_entries (shape.index n dir)
  · intro n dir bucket' member
    obtain ⟨key, isKey, rfl⟩ := bucket member
    refine CountedList.toNat_numElems ?_
    rw [List.length_map]
    refine lt_of_le_of_lt ?_ (length_index_lt wellFormed addressed n dir)
    exact length_bucket_le_entries isKey

end Graph

/-- After every sequence of calls the indexes list exactly the live edges and the counts are
right. -/
theorem CountedGraph.run_exact {actions : List Action} {last : CountedGraph}
    (reaches : run step .empty actions = some last) : last.Exact := by
  obtain ⟨graph, wellFormed, addressed, rfl⟩ := Graph.run_counted reaches
  exact Graph.counted_exact wellFormed addressed

/-- Two parallel edges and a loop, of which one edge and the loop are removed. -/
theorem CountedGraph.run_exact_parallel : ∃ last,
    run step .empty [.addNode 1, .addNode 2, .addEdge 10 1 2 7, .addEdge 11 1 2 7,
      .addEdge 12 1 1 8, .removeEdge 12, .removeEdge 10] = some last ∧
      last.edges 11 = some ⟨1, 2, 7⟩ ∧ last.Exact := by
  have isRun : ((run step .empty [.addNode 1, .addNode 2, .addEdge 10 1 2 7, .addEdge 11 1 2 7,
      .addEdge 12 1 1 8, .removeEdge 12, .removeEdge 10]).map fun last => last.edges 11) =
      some (some ⟨1, 2, 7⟩) := by decide
  obtain ⟨last, reaches, isEdge⟩ := Option.map_eq_some_iff.mp isRun
  exact ⟨last, reaches, isEdge, run_exact reaches⟩

end Pmgd
