import Pmgd.PropertyCodec
import Pmgd.TextScanner
import Pmgd.TimeText

/-!
# Writing a graph as text

`dump_pmgd` writes a statement for each node and for each edge.  A node is called by its id in the
database, or by the property that an earlier load has given it.

Tags and properties have the ids of a string table, or, in a graph as a text shows it, the strings
themselves; the functions are written for both.
-/

namespace Pmgd

open Decimal Scanner

/-- The tag of a node, and its properties as a property iterator gives them. -/
structure NodeOf (N : Type) where
  tag : N
  properties : List (N × Property)
  deriving DecidableEq

/-- An edge between two nodes, which are known by their places. -/
structure EdgeOf (N : Type) where
  source : Nat
  destination : Nat
  tag : N
  properties : List (N × Property)
  deriving DecidableEq

/-- The nodes and edges of a graph as the iterators over its tables give them. -/
structure GraphOf (N : Type) where
  nodes : List (NodeOf N)
  edges : List (EdgeOf N)
  deriving DecidableEq

abbrev NodeRecord := NodeOf (List Char)

abbrev EdgeRecord := EdgeOf (List Char)

/-- A graph with strings for the ids of its tags and properties. -/
abbrev GraphRecord := GraphOf (List Char)

/-- Why there is no id for a string; the loop of the table can also have no end. -/
inductive StringIDError
  | invalidID
  | readOnly
  | endless
  deriving DecidableEq

/-- `StringID` for ids of some kind: the one without a string, the one of a string, which may
change the table, and the string of an id. -/
structure Naming (N S : Type) where
  noName : N
  stringId : List Char → S → Except StringIDError (N × S)
  name : S → N → List Char

/-- Strings as ids of their own. -/
def plain : Naming (List Char) Unit where
  noName := []
  stringId text names := .ok (text, names)
  name _ text := text

/-- `check_property`, by the id of the property. -/
def checkNamed {N : Type} [DecidableEq N] (properties : List (N × Property)) (name : N) :
    Option Property :=
  properties.lookup name

section CheckNamed

variable {N : Type} [DecidableEq N] {properties : List (N × Property)} {name first : N}
  {value result : Property}

theorem checkNamed_cons : checkNamed ((first, value) :: properties) name =
    if name = first then some value else checkNamed properties name := by
  rw [checkNamed, checkNamed, List.lookup_cons]
  split_ifs with same
  · rw [same, beq_self_eq_true]
  · rw [beq_false_of_ne same]

theorem mem_of_checkNamed (found : checkNamed properties name = some result) :
    (name, result) ∈ properties := by
  obtain ⟨before, behind, rfl, _⟩ := List.lookup_eq_some_iff.mp found
  exact List.mem_append_right before List.mem_cons_self

theorem checkNamed_eq_none_iff :
    checkNamed properties name = none ↔ ∀ property ∈ properties, property.1 ≠ name := by
  rw [checkNamed, List.lookup_eq_none_iff]
  exact forall₂_congr fun property _ => bne_iff_ne.trans ne_comm

end CheckNamed

/-- Bytes as characters. -/
def byteText (bytes : List UInt8) : List Char :=
  bytes.map fun byte => Char.ofNat byte.toNat

def textBytes (text : List Char) : List UInt8 :=
  text.map fun c => UInt8.ofNat c.toNat

theorem toNat_ofNat_byte (byte : UInt8) : (Char.ofNat byte.toNat).toNat = byte.toNat := by
  have valid : byte.toNat.isValidChar := .inl (Nat.lt_trans byte.toNat_lt (by decide))
  rw [Char.ofNat, dif_pos valid]
  rfl

theorem textBytes_byteText (bytes : List UInt8) : textBytes (byteText bytes) = bytes := by
  induction bytes with
  | nil => rfl
  | cons byte bytes induction =>
      have isByte : UInt8.ofNat (Char.ofNat byte.toNat).toNat = byte := by
        rw [toNat_ofNat_byte, UInt8.ofNat_toNat]
      exact congrArg₂ List.cons isByte induction

theorem byteText_injective {first second : List UInt8} (same : byteText first = byteText second) :
    first = second := by
  rw [← textBytes_byteText first, same, textBytes_byteText]

namespace Dump

def loaderId : List Char :=
  "pmgd.loader.id".toList

/-- `property_text`; `floatText` is `std::to_string` of a double. -/
def propertyText (floatText : BitVec 64 → List Char) : Property → List Char
  | .noValue => "no value".toList
  | .boolean v => if v then ['T'] else ['F']
  | .integer v => signedDecimal v.toInt
  | .string v => byteText v
  | .float v => floatText v
  | .time v => v.timeToString false
  | .blob _ => "<blob value>".toList

/-- `tag_text`. -/
def tagText (tag : List Char) : List Char :=
  if tag ≠ [] then ' ' :: '#' :: tag else []

/-- The loop of `print_property` over a string. -/
def escape : List Char → List Char
  | [] => []
  | c :: text => if isEscapable c then backslash :: c :: escape text else c :: escape text

/-- `print_property`. -/
def printProperty (floatText : BitVec 64 → List Char) (property : List Char × Property) :
    List Char :=
  let value : Option (List Char) := match property.2 with
    | .noValue => none
    | .boolean v => some (if v then "true".toList else "false".toList)
    | .integer v => some (signedDecimal v.toInt)
    | .string v => some (quote :: (escape (byteText v) ++ [quote]))
    | .float v => some (floatText v)
    | .time v => some (v.timeToString false)
    | .blob _ => none
  match value with
  | none => cStr property.1
  | some value => cStr property.1 ++ ' ' :: '=' :: ' ' :: cStr value

/-- `print_property_list`. -/
def printPropertyList (floatText : BitVec 64 → List Char) :
    List (List Char × Property) → List Char
  | [] => []
  | property :: properties =>
      ' ' :: '{' :: ' ' :: (printProperty floatText property ++
        (properties.flatMap fun property => ',' :: ' ' :: printProperty floatText property) ++
          [' ', '}'])

/-- The exceptions of `dump_pmgd`. -/
inductive DumpError
  | stringId (error : StringIDError)
  | propertyNotFound
  deriving DecidableEq

section Graph

variable {N S : Type} [DecidableEq N] (naming : Naming N S) (names : S) (strid : N)
  (floatText : BitVec 64 → List Char) (getId : Nat → Nat)

/-- The properties with their names. -/
def named (properties : List (N × Property)) : List (List Char × Property) :=
  properties.map fun property => (naming.name names property.1, property.2)

/-- `strid == 0 || !n.check_property(strid, result)`. -/
def checkLoaderId (properties : List (N × Property)) : Option Property :=
  if strid = naming.noName then none else checkNamed properties strid

/-- `print_node`. -/
def printNode (place : Nat) (node : NodeOf N) : List Char :=
  let name := match checkLoaderId naming strid node.properties with
    | none => decimal (getId place)
    | some result => cStr (propertyText floatText result)
  name ++ cStr (tagText (naming.name names node.tag)) ++
    printPropertyList floatText
      (named naming names (node.properties.filter fun property => property.1 ≠ strid)) ++
      [';', newline]

/-- The property of a node that `print_edge` looks up. -/
def loaderIdOf (graph : GraphOf N) (place : Nat) : Option Property :=
  graph.nodes[place]?.bind fun node => checkLoaderId naming strid node.properties

/-- `print_edge`; `get_property` throws if only the destination has no property. -/
def printEdge (graph : GraphOf N) (edge : EdgeOf N) : Except DumpError (List Char) :=
  let ends : Except DumpError (List Char × List Char) :=
    match loaderIdOf naming strid graph edge.source with
    | none => .ok (decimal (getId edge.source), decimal (getId edge.destination))
    | some result => match loaderIdOf naming strid graph edge.destination with
      | none => .error .propertyNotFound
      | some destid =>
          .ok (cStr (propertyText floatText result), cStr (propertyText floatText destid))
  ends.map fun (source, destination) =>
    source ++ ' ' :: destination ++ ' ' :: ':' :: cStr (tagText (naming.name names edge.tag)) ++
      printPropertyList floatText (named naming names edge.properties) ++ [';', newline]

/-- What the loops of `dump_pmgd` write. -/
def printGraph (graph : GraphOf N) : Except DumpError (List Char) :=
  (graph.edges.mapM (printEdge naming names strid floatText getId graph)).map fun edges =>
    (graph.nodes.zipIdx.flatMap fun node =>
      printNode naming names strid floatText getId node.2 node.1) ++ edges.flatten

/-- `dump_pmgd`: the text, and the table afterwards.  It goes on without the id if the transaction
is read-only. -/
def dumpPmgd (graph : GraphOf N) : Except DumpError (List Char × S) :=
  match naming.stringId loaderId names with
  | .error .readOnly =>
      (printGraph naming names naming.noName floatText getId graph).map fun text => (text, names)
  | .error error => .error (.stringId error)
  | .ok (strid, names) =>
      (printGraph naming names strid floatText getId graph).map fun text => (text, names)

end Graph

theorem named_plain {properties : List (List Char × Property)} :
    named plain () properties = properties :=
  List.map_id' properties

theorem checkLoaderId_plain {properties : List (List Char × Property)} :
    checkLoaderId plain loaderId properties = checkNamed properties loaderId :=
  if_neg (by decide)

end Dump

end Pmgd
