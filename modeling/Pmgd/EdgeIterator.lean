import Mathlib.Data.Finset.Lattice.Basic
import Pmgd.EdgeIndex
import Pmgd.Lib.LabelledRun

/-!
# Removing edges under an iterator

`Graph::remove` of a node runs an iterator over the edges of the node and removes each edge
it meets.  A list tells the iterator of an element before it removes it; when that is the
element the iterator is at, the iterator moves on.  It goes through the incoming edges, bucket
by bucket, then through the outgoing ones.
-/

namespace Pmgd

inductive Direction
  | outgoing
  | incoming
  deriving DecidableEq, Repr

structure Edge where
  src : Nat
  dest : Nat
  tag : Tag
  deriving DecidableEq, Repr

structure Node where
  outEdges : EdgeIndex
  inEdges : EdgeIndex
  deriving DecidableEq, Repr

/-- What goes wrong: a NULL pointer is followed, an iterator is read whose edge is gone, or an
element is followed that is no longer in its list. -/
inductive Fault
  | nullPointer
  | vacantIterator
  | unlinked
  deriving DecidableEq, Repr

namespace Node

def index (node : Node) : Direction → EdgeIndex
  | .outgoing => node.outEdges
  | .incoming => node.inEdges

def setIndex (node : Node) (index : EdgeIndex) : Direction → Node
  | .outgoing => { node with outEdges := index }
  | .incoming => { node with inEdges := index }

end Node

/-- The live nodes and edges by their addresses, and the addresses in use of list elements. -/
structure Graph where
  nodes : Nat → Option Node
  edges : Nat → Option Edge
  allocated : Finset Nat

/-- `Node_EdgeIteratorImpl`; pointers to list elements are addresses, `outIdx` says whether
`_out_idx` is set. -/
structure EdgeIterator where
  n1 : Nat
  dir : Direction
  outIdx : Bool
  keyPos : Option Nat
  tag : Tag
  pos : Option Nat
  vacant : Bool
  deriving DecidableEq, Repr

namespace Graph

def empty : Graph :=
  ⟨fun _ => none, fun _ => none, ∅⟩

/-- The index of a node; a node that is not there has an empty one. -/
def index (graph : Graph) (n : Nat) (dir : Direction) : EdgeIndex :=
  match graph.nodes n with
  | none => []
  | some node => node.index dir

def setIndex (graph : Graph) (n : Nat) (dir : Direction) (index : EdgeIndex) : Graph :=
  { graph with
    nodes := Function.update graph.nodes n
      ((graph.nodes n).map fun node => node.setIndex index dir) }

def free (graph : Graph) (address : Nat) : Graph :=
  { graph with allocated := graph.allocated.erase address }

end Graph

/-! ## The iterator -/

/-- The element behind the one with the address. -/
def follower {α : Type} (addressOf : α → Nat) (address : Nat) : List α → Except Fault (Option α)
  | [] => .error .unlinked
  | element :: rest =>
      if addressOf element = address then .ok rest.head? else follower addressOf address rest

/-- `_pos->next`, for an element of some bucket. -/
def nextPosition (index : EdgeIndex) (address : Nat) : Except Fault (Option EdgePosition) :=
  match index.find? fun key => decide (address ∈ key.list.map EdgePosition.address) with
  | none => .error .unlinked
  | some key => follower EdgePosition.address address key.list

/-- The value of a pointer to an element of some bucket. -/
def positionAt (index : EdgeIndex) (address : Nat) : Except Fault EdgePosition :=
  match (index.flatMap KeyPosition.list).find? fun position =>
    decide (position.address = address) with
  | none => .error .unlinked
  | some position => .ok position

namespace EdgeIterator

/-- Go to the first edge of a bucket. -/
def enter (iterator : EdgeIterator) (key : KeyPosition) : EdgeIterator :=
  { iterator with
    keyPos := some key.address
    tag := key.key
    pos := key.list.head?.map EdgePosition.address }

/-- `switch_direction`; without a tag it reads the first bucket of the outgoing edges. -/
def switchDirection (graph : Graph) (iterator : EdgeIterator) (noTag : Bool) :
    Except Fault EdgeIterator :=
  if iterator.outIdx then
    let index := graph.index iterator.n1 .outgoing
    let switched := { iterator with dir := .outgoing, outIdx := false }
    if noTag then
      match index.head? with
      | none => .error .nullPointer
      | some key => .ok (switched.enter key)
    else
      .ok { switched with
        pos := (index.find iterator.tag).bind fun key =>
          key.list.head?.map EdgePosition.address }
  else .ok iterator

/-- `_next`: move to the next bucket or direction. -/
def nextKey (graph : Graph) (iterator : EdgeIterator) : Except Fault EdgeIterator :=
  match iterator.keyPos with
  | none => iterator.switchDirection graph false
  | some address =>
      (follower KeyPosition.address address (graph.index iterator.n1 iterator.dir)).bind
        fun
          | some key => .ok (iterator.enter key)
          | none => switchDirection graph { iterator with keyPos := none } true

/-- `next`. -/
def next (graph : Graph) (iterator : EdgeIterator) : Except Fault EdgeIterator :=
  if iterator.vacant then .ok { iterator with vacant := false }
  else
    match iterator.pos with
    | none => iterator.nextKey graph
    | some address =>
        (nextPosition (graph.index iterator.n1 iterator.dir) address).bind fun
          | some position => .ok { iterator with pos := some position.address }
          | none => nextKey graph { iterator with pos := none }

/-- `remove_notify`. -/
def removeNotify (graph : Graph) (iterator : EdgeIterator) (address : Nat) :
    Except Fault EdgeIterator :=
  if iterator.pos = some address then
    (next graph { iterator with vacant := false }).map fun moved : EdgeIterator =>
      { moved with vacant := true }
  else .ok iterator

/-- The constructors that start at the first bucket of an index. -/
def start (graph : Graph) (n : Nat) (dir : Direction) (outIdx : Bool) :
    Except Fault EdgeIterator :=
  match (graph.index n dir).head? with
  | none => .error .nullPointer
  | some key => .ok (EdgeIterator.enter ⟨n, dir, outIdx, none, 0, none, false⟩ key)

end EdgeIterator

/-! ## Removing -/

namespace Graph

/-- `iterator_remove_notify`, when at most one iterator is registered. -/
def notify (graph : Graph) (iterator : Option EdgeIterator) (address : Nat) :
    Except Fault (Option EdgeIterator) :=
  match iterator with
  | none => .ok none
  | some iterator => (iterator.removeNotify graph address).map some

/-- `ptr->remove(addrs, allocator)` for the bucket of a tag. -/
def removePair (graph : Graph) (iterator : Option EdgeIterator) (n : Nat) (dir : Direction)
    (tag : Tag) (edge : Nat) : Except Fault (Graph × Option EdgeIterator) :=
  match (graph.index n dir).find tag with
  | none => .ok (graph, iterator)
  | some key =>
      match key.list.find? fun position => decide (position.edge = edge) with
      | none => .ok (graph, iterator)
      | some position =>
          (graph.notify iterator position.address).map fun iterator =>
            ((graph.setIndex n dir (EdgeIndex.removePair tag edge (graph.index n dir))).free
              position.address, iterator)

/-- Remove the bucket of a tag if it is empty. -/
def removeKey (graph : Graph) (iterator : Option EdgeIterator) (n : Nat) (dir : Direction)
    (tag : Tag) : Except Fault (Graph × Option EdgeIterator) :=
  match (graph.index n dir).find tag with
  | none => .ok (graph, iterator)
  | some key =>
      if key.list = [] then
        (graph.notify iterator key.address).map fun iterator =>
          ((graph.setIndex n dir ((graph.index n dir).removeKey tag)).free key.address, iterator)
      else .ok (graph, iterator)

/-- `EdgeIndex::remove` on an index of a node. -/
def removeFromIndex (graph : Graph) (iterator : Option EdgeIterator) (n : Nat)
    (dir : Direction) (tag : Tag) (edge : Nat) : Except Fault (Graph × Option EdgeIterator) :=
  (graph.removePair iterator n dir tag edge).bind fun (graph, iterator) =>
    graph.removeKey iterator n dir tag

/-- `Graph::remove(Edge &)`. -/
def removeEdge (graph : Graph) (iterator : Option EdgeIterator) (edge : Nat) :
    Except Fault (Graph × Option EdgeIterator) :=
  match graph.edges edge with
  | none => .error .unlinked
  | some ends =>
      (graph.removeFromIndex iterator ends.src .outgoing ends.tag edge).bind
        fun (graph, iterator) =>
          (graph.removeFromIndex iterator ends.dest .incoming ends.tag edge).map
            fun (graph, iterator) =>
              ({ graph with edges := Function.update graph.edges edge none }, iterator)

/-- The loop of `process` with the given number of rounds at most. -/
def processEdges : Nat → Graph → EdgeIterator → Except Fault Graph
  | 0, graph, iterator =>
      if iterator.vacant ∨ iterator.pos ≠ none then .error .unlinked else .ok graph
  | rounds + 1, graph, iterator =>
      if iterator.vacant then .error .vacantIterator
      else
        match iterator.pos with
        | none => .ok graph
        | some address =>
            (positionAt (graph.index iterator.n1 iterator.dir) address).bind fun position =>
              (graph.removeEdge (some iterator) position.edge).bind fun
                | (graph, some iterator) =>
                    (iterator.next graph).bind fun iterator =>
                      processEdges rounds graph iterator
                | (graph, none) => .ok graph

/-- `Node::get_edges()`; `none` is an iterator without an implementation. -/
def getEdges (graph : Graph) (n : Nat) : Except Fault (Option EdgeIterator) :=
  if (graph.index n .incoming).length ≤ 0 ∧ (graph.index n .outgoing).length ≤ 0 then .ok none
  else if (graph.index n .incoming).length ≤ 0 then
    (EdgeIterator.start graph n .outgoing false).map some
  else
    (EdgeIterator.start graph n .incoming (decide ((graph.index n .outgoing).length > 0))).map
      some

/-- As many rounds as there are edges in the two indexes. -/
def rounds (graph : Graph) (n : Nat) : Nat :=
  (graph.index n .incoming).entries.length + (graph.index n .outgoing).entries.length

/-- `Graph::remove(Node &)`. -/
def removeNode (graph : Graph) (n : Nat) : Except Fault Graph :=
  (graph.getEdges n).bind fun iterator =>
    (match iterator with
      | none => Except.ok graph
      | some iterator => processEdges (graph.rounds n) graph iterator).map
        fun graph : Graph => { graph with nodes := Function.update graph.nodes n none }

/-! ## Adding -/

def addNode (graph : Graph) (n : Nat) : Option Graph :=
  if graph.nodes n = none then
    some { graph with nodes := Function.update graph.nodes n (some ⟨[], []⟩) }
  else none

/-- `EdgeIndex::add` on an index of a node, with the addresses for the new elements. -/
def addToIndex (graph : Graph) (n : Nat) (dir : Direction) (tag : Tag)
    (position : EdgePosition) (keyAddress : Nat) : Graph :=
  let index := (graph.index n dir).add tag position keyAddress
  { graph.setIndex n dir index with
    allocated := graph.allocated ∪ index.addresses.toFinset }

/-- The addresses that the allocator has for the list elements of a new edge. -/
structure NewElements where
  outPosition : Nat
  outKey : Nat
  inPosition : Nat
  inKey : Nat
  deriving DecidableEq, Repr

def NewElements.addresses (elements : NewElements) : List Nat :=
  [elements.outPosition, elements.outKey, elements.inPosition, elements.inKey]

/-- `Graph::add_edge`. -/
def addEdge (graph : Graph) (edge src dest : Nat) (tag : Tag) (elements : NewElements) :
    Option Graph :=
  if graph.edges edge = none ∧ graph.nodes src ≠ none ∧ graph.nodes dest ≠ none ∧
      elements.addresses.Nodup ∧ ∀ address ∈ elements.addresses, address ∉ graph.allocated then
    some (({ graph with edges := Function.update graph.edges edge (some ⟨src, dest, tag⟩) }
      |>.addToIndex src .outgoing tag ⟨elements.outPosition, edge, dest⟩ elements.outKey)
      |>.addToIndex dest .incoming tag ⟨elements.inPosition, edge, src⟩ elements.inKey)
  else none

/-! ## Runs -/

inductive Action
  | addNode (n : Nat)
  | addEdge (edge src dest : Nat) (tag : Tag) (elements : NewElements)
  | removeEdge (edge : Nat)
  | removeNode (n : Nat)
  deriving DecidableEq, Repr

/-- One call; `none` if it is not possible or goes wrong. -/
def step (graph : Graph) : Action → Option Graph
  | .addNode n => graph.addNode n
  | .addEdge edge src dest tag elements => graph.addEdge edge src dest tag elements
  | .removeEdge edge => ((graph.removeEdge none edge).map Prod.fst).toOption
  | .removeNode n => if graph.nodes n = none then none else (graph.removeNode n).toOption

/-- The graphs that calls on an empty graph lead to. -/
def Reachable (graph : Graph) : Prop :=
  ∃ actions, LabelledRun.run step empty actions = some graph

end Graph

end Pmgd
