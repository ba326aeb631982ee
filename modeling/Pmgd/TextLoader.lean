import Pmgd.TextDump

/-!
# Reading a graph from text

The grammar of `loader.y` with its actions, and what the actions do.  The parser that is generated
from the grammar runs the actions in the order of the text; each statement is a transaction of its
own.
-/

namespace Pmgd

namespace Loader

open Scanner Dump

/-- What a statement calls a node by. -/
inductive LoaderId
  | integer (value : Int)
  | string (text : List Char)
  deriving DecidableEq

/-- The actions of the grammar. -/
inductive Action
  | begin
  | tag (text : Option (List Char))
  | node (id : LoaderId)
  | propertyId (name : List Char)
  | setProperty (value : Option Token)
  | addEdge (tagged : Bool)
  | commit

/-! ## The grammar -/

/-- What may stand behind `=`. -/
def isValue : Token → Bool
  | .integer _ => true
  | .quotedString _ => true
  | .string _ => true
  | .true => true
  | .false => true
  | _ => false

/-- `tag`. -/
inductive DerivesTag : List Token → List Action → Prop
  | empty : DerivesTag [] [.tag none]
  | name (text : List Char) : DerivesTag [.symbol '#', .string text] [.tag (some text)]

/-- `node`. -/
inductive DerivesNode : List Token → List Action → Prop
  | integer {tokens : List Token} {actions : List Action} (value : Int)
      (tag : DerivesTag tokens actions) :
      DerivesNode (.integer value :: tokens) (actions ++ [.node (.integer value)])
  | string {tokens : List Token} {actions : List Action} (text : List Char)
      (tag : DerivesTag tokens actions) :
      DerivesNode (.string text :: tokens) (actions ++ [.node (.string text)])

/-- `property`. -/
inductive DerivesProperty : List Token → List Action → Prop
  | valued (name : List Char) (value : Token) (isValue : isValue value = true) :
      DerivesProperty [.string name, .symbol '=', value]
        [.propertyId name, .setProperty (some value)]
  | unvalued (name : List Char) :
      DerivesProperty [.string name] [.propertyId name, .setProperty none]

/-- `propertylist`, with the number of its properties. -/
inductive DerivesPropertyList : Nat → List Token → List Action → Prop
  | one {tokens : List Token} {actions : List Action} (property : DerivesProperty tokens actions) :
      DerivesPropertyList 1 tokens actions
  | more {count : Nat} {tokens others comma : List Token} {actions behind : List Action}
      (property : DerivesProperty tokens actions) (optComma : comma = [] ∨ comma = [.symbol ','])
      (list : DerivesPropertyList count others behind) :
      DerivesPropertyList (count + 1) (tokens ++ (comma ++ others)) (actions ++ behind)

/-- `YYMAXDEPTH`, which a generated parser has if the grammar does not define it. -/
def yyMaxDepth : Nat :=
  10000

/-- A list is on the stack of the parser up to its end: behind at most 11 places for what is in
front, with two for each property and its comma, and one more for a value. -/
def FitsStack (count : Nat) : Prop :=
  2 * count + 12 < yyMaxDepth

instance (count : Nat) : Decidable (FitsStack count) :=
  inferInstanceAs (Decidable (_ < _))

theorem fitsStack_of_le {count other : Nat} (le : count ≤ other) (fits : FitsStack other) :
    FitsStack count := by
  rw [FitsStack] at fits ⊢
  omega

/-- `properties` and `edge_properties`, for which the stack has room. -/
inductive DerivesProperties : List Token → List Action → Prop
  | empty : DerivesProperties [] []
  | braces {count : Nat} {tokens : List Token} {actions : List Action}
      (list : DerivesPropertyList count tokens actions) (fits : FitsStack count) :
      DerivesProperties (.symbol '{' :: (tokens ++ [.symbol '}'])) actions

/-- `edge_def` behind the nodes. -/
inductive DerivesEdge : List Token → List Action → Prop
  | tagged {tag properties : List Token} {actions behind : List Action}
      (ofTag : DerivesTag tag actions) (ofProperties : DerivesProperties properties behind) :
      DerivesEdge (.symbol ':' :: (tag ++ properties)) (actions ++ .addEdge true :: behind)
  | untagged : DerivesEdge [] [.addEdge false]

/-- `node_or_edge`. -/
inductive DerivesNodeOrEdge : List Token → List Action → Prop
  | node {node properties : List Token} {actions behind : List Action}
      (ofNode : DerivesNode node actions) (ofProperties : DerivesProperties properties behind) :
      DerivesNodeOrEdge (node ++ (properties ++ [.symbol ';'])) (actions ++ behind)
  | edge {source first destination second edge : List Token}
      {actions afterSource actions' afterDestination behind : List Action}
      (ofSource : DerivesNode source actions) (ofFirst : DerivesProperties first afterSource)
      (ofDestination : DerivesNode destination actions')
      (ofSecond : DerivesProperties second afterDestination) (ofEdge : DerivesEdge edge behind) :
      DerivesNodeOrEdge (source ++ (first ++ (destination ++ (second ++ (edge ++ [.symbol ';'])))))
        (actions ++ (afterSource ++ (actions' ++ (afterDestination ++ behind))))

/-- `tx`. -/
inductive DerivesTx : List Token → List Action → Prop
  | mk {tokens : List Token} {actions : List Action} (body : DerivesNodeOrEdge tokens actions) :
      DerivesTx tokens (.begin :: (actions ++ [.commit]))

/-- `s`. -/
inductive Derives : List Token → List Action → Prop
  | one {tokens : List Token} {actions : List Action} (tx : DerivesTx tokens actions) :
      Derives tokens actions
  | more {tokens last : List Token} {actions ofLast : List Action} (s : Derives tokens actions)
      (tx : DerivesTx last ofLast) : Derives (tokens ++ last) (actions ++ ofLast)

/-! ## What the actions do -/

/-- The exceptions of a load; `database` is one that a call of the database throws, by its
number. -/
inductive LoaderError
  | parseError
  | formatError
  | lengthError
  | stringId (error : StringIDError)
  | database (num : Nat)
  deriving DecidableEq

/-- The parser that is generated from the grammar.  For what the grammar derives it runs the
actions of the derivation if its stack has room, and otherwise those up to some error. -/
structure Parser where
  yyparse : List Token → List Action × Option LoaderError
  accepts : ∀ {tokens : List Token} {actions : List Action},
    Derives tokens actions → yyparse tokens = (actions, none)

/-- `Index` without `use_index`: a map for the type of the first id that is looked up. -/
inductive Index
  | unset
  | integers (entries : List (Int × Nat))
  | strings (entries : List (List Char × Nat))

namespace Index

/-- `Index::find` makes the map. -/
def start : Index → LoaderId → Index
  | unset, .integer _ => integers []
  | unset, .string _ => strings []
  | index, _ => index

def find : Index → LoaderId → Option Nat
  | integers entries, .integer value => entries.lookup value
  | strings entries, .string text => entries.lookup text
  | _, _ => none

def add (place : Nat) : Index → LoaderId → Index
  | integers entries, .integer value => integers ((value, place) :: entries)
  | strings entries, .string text => strings ((text, place) :: entries)
  | index, _ => index

end Index

inductive Current
  | node (place : Nat)
  | edge (place : Nat)

/-- The names and the graph with the changes of the open transaction, the graph as it was last
committed, and what the parser holds: the index, the ids of the last `tag` and `property_id`, the
object for properties, and the nodes of the statement. -/
structure State (N S : Type) where
  names : S
  graph : GraphOf N
  committed : GraphOf N
  inTransaction : Bool
  index : Index
  tag : N
  propertyId : N
  current : Option Current
  nodes : List Nat

/-- The loop of `property` over a text in quotes; a backslash behind a backslash goes too. -/
def unescape (text : List Char) : List Char :=
  text.filter fun c => c ≠ backslash

/-- The value of a property.  All bits of a time are set. -/
def loadValue : Option Token → Except LoaderError Property
  | none => .ok .noValue
  | some (.integer value) => .ok (.integer (BitVec.ofInt 64 value))
  | some (.quotedString text) => .ok (.string (textBytes (unescape text)))
  | some (.string text) =>
      match stringToTm text with
      | none => .error .formatError
      | some parsed =>
          .ok (.time (Time.ofTm Tm.timegm 0 parsed.tm parsed.usec parsed.hrOffset parsed.minOffset))
  | some .true => .ok (.boolean true)
  | some .false => .ok (.boolean false)
  | some _ => .error .parseError

section Actions

variable {N S : Type} [DecidableEq N]

/-- `set_property`; where the list has room for the new value is not modelled. -/
def setNamed (name : N) (value : Property) (properties : List (N × Property)) :
    List (N × Property) :=
  (properties.filter fun property => property.1 ≠ name) ++ [(name, value)]

/-- `Current::set_property`. -/
def setCurrent (name : N) (value : Property) (graph : GraphOf N) : Option Current → GraphOf N
  | none => graph
  | some (.node place) =>
      { graph with nodes := graph.nodes.modify place fun node =>
          { node with properties := setNamed name value node.properties } }
  | some (.edge place) =>
      { graph with edges := graph.edges.modify place fun edge =>
          { edge with properties := setNamed name value edge.properties } }

/-- What a call of the database gives if it does not throw. -/
def call {α : Type} (failure : Option Nat) (result : α) : Except LoaderError α :=
  match failure with
  | none => .ok result
  | some num => .error (.database num)

/-- `get_node`. -/
def getNode (failure : Option Nat) (id : LoaderId) (state : State N S) :
    Except LoaderError (Nat × State N S) :=
  let index := state.index.start id
  match index.find id with
  | some place => .ok (place, { state with index })
  | none =>
      let place := state.graph.nodes.length
      call failure (place, { state with
        graph := { state.graph with nodes := state.graph.nodes ++ [⟨state.tag, []⟩] }
        index := index.add place id })

/-- `StringID` of a text. -/
def toId (naming : Naming N S) (text : List Char) (state : State N S) :
    Except LoaderError (N × S) :=
  (naming.stringId (cStr text) state.names).mapError .stringId

/-- An action, with the exception of the call of the database in it if that throws. -/
def act (naming : Naming N S) (failure : Option Nat) :
    Action → State N S → Except LoaderError (State N S)
  | .begin, state => call failure { state with inTransaction := true }
  | .tag none, state => .ok { state with tag := naming.noName }
  | .tag (some text), state =>
      (toId naming text state).map fun (tag, names) => { state with tag, names }
  | .node id, state =>
      (getNode failure id state).map fun (place, state) =>
        { state with current := some (.node place), nodes := state.nodes ++ [place] }
  | .propertyId name, state =>
      (toId naming name state).map fun (propertyId, names) => { state with propertyId, names }
  | .setProperty value, state =>
      match loadValue value with
      | .error error => .error error
      | .ok value => call failure
          { state with graph := setCurrent state.propertyId value state.graph state.current }
  | .addEdge tagged, state =>
      let tag := if tagged then state.tag else naming.noName
      let edge := ⟨state.nodes.getD 0 0, state.nodes.getD 1 0, tag, []⟩
      call failure { state with
        graph := { state.graph with edges := state.graph.edges ++ [edge] }
        current := some (.edge state.graph.edges.length) }
  | .commit, state =>
      call failure
        { state with committed := state.graph, inTransaction := false, nodes := [] }

/-- The actions up to an exception; the database throws these at the actions with these numbers. -/
def run (naming : Naming N S) (throws : Nat → Option Nat) :
    Nat → List Action → State N S → State N S × Option LoaderError
  | _, [], state => (state, none)
  | number, action :: actions, state =>
      match act naming (throws number) action state with
      | .error error => (state, some error)
      | .ok next => run naming throws (number + 1) actions next

/-- What a load starts with. -/
def started (naming : Naming N S) (names : S) (graph : GraphOf N) : State N S :=
  ⟨names, graph, graph, false, .unset, naming.noName, naming.noName, none, []⟩

/-- `load` into a graph, without callbacks and without `use_index`. -/
def load (naming : Naming N S) (parser : Parser) (throws : Nat → Option Nat) (names : S)
    (graph : GraphOf N) (text : List Char) : State N S × Option LoaderError :=
  let (actions, error) := parser.yyparse (yylex text)
  match run naming throws 0 actions (started naming names graph) with
  | (state, some error) => (state, some error)
  | (state, none) => (state, error)

/-- The actions, in a database that does not throw. -/
def runAll (naming : Naming N S) : List Action → State N S → State N S × Option LoaderError :=
  run naming (fun _ => none) 0

variable {naming : Naming N S} {state next : State N S} {actions behind : List Action}
  {action : Action}

theorem run_eq_runAll (number : Nat) :
    run naming (fun _ => none) number actions state = runAll naming actions state := by
  rw [runAll]
  induction actions generalizing number state with
  | nil => rfl
  | cons action actions induction =>
      rw [run, run]
      cases act naming none action state with
      | error error => rfl
      | ok next =>
          dsimp only
          rw [induction (number + 1), induction (0 + 1)]

theorem runAll_cons (isNext : act naming none action state = .ok next) :
    runAll naming (action :: actions) state = runAll naming actions next := by
  rw [runAll, run, isNext]
  exact run_eq_runAll _

theorem runAll_append (first : runAll naming actions state = (next, none)) :
    runAll naming (actions ++ behind) state = runAll naming behind next := by
  induction actions generalizing state with
  | nil =>
      obtain ⟨rfl, _⟩ := Prod.mk.inj first
      rfl
  | cons action actions induction =>
      cases isNext : act naming none action state with
      | error error =>
          rw [runAll, run, isNext] at first
          cases (Prod.mk.inj first).2
      | ok middle =>
          rw [runAll_cons isNext] at first
          rw [List.cons_append, runAll_cons isNext, induction first]

end Actions

/-! ## A parser for the grammar -/

/-- What a part of the parser does: the actions that have run, and the tokens behind the part
unless there is a syntax error. -/
abbrev Parse :=
  List Token → List Action × Option (List Token)

def syntaxError : Parse :=
  fun _ => ([], none)

def emit (action : Action) : Parse :=
  fun tokens => ([action], some tokens)

def andThen (first second : Parse) : Parse := fun tokens =>
  match first tokens with
  | (actions, none) => (actions, none)
  | (actions, some rest) => (actions ++ (second rest).1, (second rest).2)

def parseSemicolon : Parse
  | .symbol ';' :: rest => ([], some rest)
  | _ => ([], none)

def parseTag : Parse
  | .symbol '#' :: .string text :: rest => ([.tag (some text)], some rest)
  | .symbol '#' :: _ => ([], none)
  | rest => ([.tag none], some rest)

def parseNode : Parse
  | .integer value :: rest => andThen parseTag (emit (.node (.integer value))) rest
  | .string text :: rest => andThen parseTag (emit (.node (.string text))) rest
  | _ => ([], none)

def parseProperty : Parse
  | .string name :: .symbol '=' :: value :: rest =>
      if isValue value then ([.propertyId name, .setProperty (some value)], some rest)
      else ([.propertyId name], none)
  | [.string name, .symbol '='] => ([.propertyId name], none)
  | .string name :: rest => ([.propertyId name, .setProperty none], some rest)
  | _ => ([], none)

/-- `propertylist` and the brace behind it, for at most so many properties. -/
def parsePropertyList : Nat → Parse
  | 0 => syntaxError
  | fuel + 1 => andThen parseProperty fun
      | .symbol '}' :: rest => ([], some rest)
      | .symbol ',' :: rest => parsePropertyList fuel rest
      | rest => parsePropertyList fuel rest

def parseProperties : Parse
  | .symbol '{' :: rest => parsePropertyList rest.length rest
  | rest => ([], some rest)

def parseEdge : Parse
  | .symbol ':' :: rest =>
      andThen parseTag (andThen (emit (.addEdge true)) parseProperties) rest
  | rest => emit (.addEdge false) rest

def parseNodeOrEdge : Parse :=
  andThen parseNode <| andThen parseProperties fun
    | .symbol ';' :: rest => ([], some rest)
    | rest => andThen parseNode (andThen parseProperties (andThen parseEdge parseSemicolon)) rest

def parseTx : Parse :=
  andThen (emit .begin) (andThen parseNodeOrEdge (emit .commit))

/-- The transactions up to the end of the text, for at most so many. -/
def parseTxs : Nat → List Token → List Action × Option LoaderError
  | _, [] => ([], none)
  | 0, _ :: _ => ([], some .parseError)
  | fuel + 1, token :: tokens =>
      match parseTx (token :: tokens) with
      | (actions, none) => (actions, some .parseError)
      | (actions, some rest) =>
          (actions ++ (parseTxs fuel rest).1, (parseTxs fuel rest).2)

def parseAll (tokens : List Token) : List Action × Option LoaderError :=
  if tokens = [] then ([.begin], some .parseError) else parseTxs tokens.length tokens

/-! ## The parser follows the grammar -/

variable {tokens rest others : List Token} {actions behind : List Action} {c : Char}

def startsWith (c : Char) (tokens : List Token) : Prop :=
  tokens.head? = some (.symbol c)

theorem andThen_eq {first second : Parse} {middle : List Token} {result : Option (List Token)}
    (atFirst : first tokens = (actions, some middle))
    (atSecond : second middle = (behind, result)) :
    andThen first second tokens = (actions ++ behind, result) := by
  rw [andThen, atFirst]
  dsimp only
  rw [atSecond]

theorem parseTag_eq (tag : DerivesTag tokens actions) (follows : ¬ startsWith '#' rest) :
    parseTag (tokens ++ rest) = (actions, some rest) := by
  cases tag with
  | empty =>
      rw [List.nil_append, parseTag]
      · rintro text others rfl
        exact follows rfl
      · rintro others rfl
        exact follows rfl
  | name text => rfl

theorem parseNode_eq (node : DerivesNode tokens actions) (follows : ¬ startsWith '#' rest) :
    parseNode (tokens ++ rest) = (actions, some rest) := by
  cases node with
  | integer value tag => exact andThen_eq (parseTag_eq tag follows) rfl
  | string text tag => exact andThen_eq (parseTag_eq tag follows) rfl

theorem parseProperty_eq (property : DerivesProperty tokens actions)
    (follows : ¬ startsWith '=' rest) : parseProperty (tokens ++ rest) = (actions, some rest) := by
  cases property with
  | valued name value isValue =>
      rw [List.cons_append, List.cons_append, List.cons_append, List.nil_append, parseProperty,
        if_pos isValue]
  | unvalued name =>
      rw [List.singleton_append, parseProperty]
      · rintro value others rfl
        exact follows rfl
      · rintro rfl
        exact follows rfl

theorem DerivesProperty.exists_cons (property : DerivesProperty tokens actions) :
    ∃ name others, tokens = .string name :: others := by
  cases property with
  | valued name value _ => exact ⟨name, _, rfl⟩
  | unvalued name => exact ⟨name, _, rfl⟩

theorem DerivesPropertyList.exists_cons {count : Nat}
    (list : DerivesPropertyList count tokens actions) :
    ∃ name others, tokens = .string name :: others := by
  cases list with
  | one property => exact property.exists_cons
  | more property _ _ =>
      obtain ⟨name, others, rfl⟩ := property.exists_cons
      exact ⟨name, _, rfl⟩

theorem parsePropertyList_eq {fuel count : Nat} (list : DerivesPropertyList count tokens actions)
    (enough : tokens.length ≤ fuel) :
    parsePropertyList fuel (tokens ++ .symbol '}' :: rest) = (actions, some rest) := by
  induction list generalizing fuel with
  | one property =>
      obtain ⟨name, others, isCons⟩ := property.exists_cons
      rw [isCons, List.length_cons] at enough
      obtain ⟨fuel, rfl⟩ := Nat.exists_eq_add_of_le' (Nat.le_trans (Nat.succ_pos _) enough)
      rw [parsePropertyList, andThen_eq (parseProperty_eq property (by rintro ⟨⟩)) rfl,
        List.append_nil]
  | @more _ tokens others comma actions behind property optComma list induction =>
      obtain ⟨name, more, isCons⟩ := property.exists_cons
      obtain ⟨next, behindNext, isNext⟩ := list.exists_cons
      rw [List.length_append, List.length_append, isCons, List.length_cons] at enough
      obtain ⟨fuel, rfl⟩ := Nat.exists_eq_add_of_le' (show 1 ≤ fuel by omega)
      have fromNext := @induction fuel (by omega)
      have follows : ¬ startsWith '=' (comma ++ (others ++ .symbol '}' :: rest)) := by
        rcases optComma with rfl | rfl
        · rw [isNext]
          rintro ⟨⟩
        · rintro ⟨⟩
      rw [List.append_assoc, List.append_assoc, parsePropertyList,
        andThen_eq (parseProperty_eq property follows)]
      rcases optComma with rfl | rfl
      · rw [List.nil_append]
        rw [isNext] at fromNext ⊢
        exact fromNext
      · exact fromNext

theorem parseProperties_eq (properties : DerivesProperties tokens actions)
    (follows : ¬ startsWith '{' rest) :
    parseProperties (tokens ++ rest) = (actions, some rest) := by
  cases properties with
  | empty =>
      rw [List.nil_append, parseProperties]
      rintro others rfl
      exact follows rfl
  | @braces _ tokens _ list _ =>
      rw [List.cons_append, parseProperties, List.append_assoc]
      apply parsePropertyList_eq list
      rw [List.length_append]
      exact Nat.le_add_right _ _

theorem DerivesProperties.not_startsWith (properties : DerivesProperties tokens actions)
    (other : c ≠ '{') (follows : ¬ startsWith c rest) : ¬ startsWith c (tokens ++ rest) := by
  cases properties with
  | empty => exact follows
  | braces list _ =>
      intro isFirst
      exact other (Token.symbol.inj (Option.some.inj isFirst)).symm

theorem DerivesNode.not_startsWith (node : DerivesNode tokens actions) :
    ¬ startsWith c (tokens ++ rest) := by
  cases node with
  | integer value tag => rintro ⟨⟩
  | string text tag => rintro ⟨⟩

theorem parseEdge_eq (edge : DerivesEdge tokens actions) :
    parseEdge (tokens ++ .symbol ';' :: rest) = (actions, some (.symbol ';' :: rest)) := by
  cases edge with
  | @tagged tag properties _ _ ofTag ofProperties =>
      rw [List.cons_append, parseEdge, List.append_assoc]
      have follows := ofProperties.not_startsWith (c := '#') (by decide)
        (show ¬ startsWith '#' (.symbol ';' :: rest) by rintro ⟨⟩)
      have behindTag := parseProperties_eq ofProperties
        (show ¬ startsWith '{' (.symbol ';' :: rest) by rintro ⟨⟩)
      have emitted : emit (.addEdge true) (properties ++ .symbol ';' :: rest) =
          ([.addEdge true], some (properties ++ .symbol ';' :: rest)) := rfl
      exact andThen_eq (parseTag_eq ofTag follows) (andThen_eq emitted behindTag)
  | untagged => rfl

theorem DerivesEdge.not_startsWith (edge : DerivesEdge tokens actions) (other : c ≠ ':')
    (follows : ¬ startsWith c rest) : ¬ startsWith c (tokens ++ rest) := by
  cases edge with
  | tagged ofTag ofProperties =>
      intro isFirst
      exact other (Token.symbol.inj (Option.some.inj isFirst)).symm
  | untagged => exact follows

theorem parseNodeOrEdge_eq (body : DerivesNodeOrEdge tokens actions) :
    parseNodeOrEdge (tokens ++ rest) = (actions, some rest) := by
  cases body with
  | @node node properties actions behind ofNode ofProperties =>
      rw [List.append_assoc, List.append_assoc, List.singleton_append, parseNodeOrEdge]
      have follows : ¬ startsWith '#' (properties ++ .symbol ';' :: rest) :=
        ofProperties.not_startsWith (by decide) (by rintro ⟨⟩)
      refine andThen_eq (parseNode_eq ofNode follows) ?_
      rw [andThen_eq (parseProperties_eq ofProperties (by rintro ⟨⟩)) rfl, List.append_nil]
  | @edge source first destination second edge _ _ _ _ _ ofSource ofFirst ofDestination ofSecond
      ofEdge =>
      simp only [List.append_assoc, List.singleton_append]
      rw [parseNodeOrEdge]
      have behindEdge : ∀ c, c ≠ ':' → c ≠ ';' → ¬ startsWith c (edge ++ .symbol ';' :: rest) :=
        fun c notColon notEnd => ofEdge.not_startsWith notColon fun isFirst =>
          notEnd (Token.symbol.inj (Option.some.inj isFirst)).symm
      have fromDestination : andThen parseNode (andThen parseProperties
          (andThen parseEdge parseSemicolon))
            (destination ++ (second ++ (edge ++ .symbol ';' :: rest))) = (_, some rest) :=
        andThen_eq (parseNode_eq ofDestination (ofSecond.not_startsWith (by decide)
            (behindEdge '#' (by decide) (by decide))))
          (andThen_eq (parseProperties_eq ofSecond (behindEdge '{' (by decide) (by decide)))
            (andThen_eq (parseEdge_eq ofEdge) rfl))
      rw [List.append_nil] at fromDestination
      refine andThen_eq (parseNode_eq ofSource (ofFirst.not_startsWith (by decide)
        ofDestination.not_startsWith)) ?_
      refine andThen_eq (parseProperties_eq ofFirst ofDestination.not_startsWith) ?_
      cases ofDestination with
      | integer value tag => exact fromDestination
      | string text tag => exact fromDestination

theorem parseTx_eq (tx : DerivesTx tokens actions) :
    parseTx (tokens ++ rest) = (actions, some rest) := by
  cases tx with
  | mk body =>
      have emits (action : Action) (tokens : List Token) :
          emit action tokens = ([action], some tokens) := rfl
      exact andThen_eq (emits .begin _)
        (andThen_eq (parseNodeOrEdge_eq body) (emits .commit rest))

theorem DerivesTx.length_pos (tx : DerivesTx tokens actions) : 0 < tokens.length := by
  have ofNode {tokens : List Token} {actions : List Action} (node : DerivesNode tokens actions) :
      0 < tokens.length := by
    cases node with
    | integer value tag => exact Nat.succ_pos _
    | string text tag => exact Nat.succ_pos _
  cases tx with
  | mk body =>
      cases body with
      | node node _ =>
          rw [List.length_append]
          exact Nat.add_pos_left (ofNode node) _
      | edge source _ _ _ _ =>
          rw [List.length_append]
          exact Nat.add_pos_left (ofNode source) _

theorem parseTxs_append {fuel : Nat} (tx : DerivesTx tokens actions)
    (enough : tokens.length ≤ fuel) : ∃ left, fuel - tokens.length ≤ left ∧
      parseTxs fuel (tokens ++ rest) =
        (actions ++ (parseTxs left rest).1, (parseTxs left rest).2) := by
  have positive := tx.length_pos
  have parsed := @parseTx_eq tokens rest actions tx
  cases tokens with
  | nil => exact absurd positive (Nat.lt_irrefl 0)
  | cons token tokens =>
      obtain ⟨fuel, rfl⟩ := Nat.exists_eq_add_of_le' (Nat.le_trans positive enough)
      refine ⟨fuel, ?_, ?_⟩
      · rw [List.length_cons]
        omega
      · rw [List.cons_append] at parsed ⊢
        rw [parseTxs, parsed]

theorem parseTxs_eq {fuel : Nat} (derived : Derives tokens actions)
    (enough : tokens.length + rest.length ≤ fuel) : ∃ left, rest.length ≤ left ∧
      parseTxs fuel (tokens ++ rest) =
        (actions ++ (parseTxs left rest).1, (parseTxs left rest).2) := by
  induction derived generalizing rest fuel with
  | one tx =>
      obtain ⟨left, atLeast, parsed⟩ := @parseTxs_append _ rest _ fuel tx (by omega)
      exact ⟨left, by omega, parsed⟩
  | @more tokens last actions ofLast s tx induction =>
      rw [List.length_append] at enough
      obtain ⟨middle, atLeast, parsed⟩ := @induction (last ++ rest) fuel (by
        rw [List.length_append]
        omega)
      rw [List.length_append] at atLeast
      obtain ⟨left, remaining, parsedLast⟩ := @parseTxs_append _ rest _ middle tx (by omega)
      refine ⟨left, by omega, ?_⟩
      rw [List.append_assoc, parsed, parsedLast, List.append_assoc]

theorem Derives.length_pos (derived : Derives tokens actions) : 0 < tokens.length := by
  cases derived with
  | one tx => exact tx.length_pos
  | more s tx =>
      rw [List.length_append]
      exact Nat.add_pos_right _ tx.length_pos

/-- What the grammar derives is parsed. -/
theorem parseAll_of_derives (derived : Derives tokens actions) :
    parseAll tokens = (actions, none) := by
  obtain ⟨left, _, parsed⟩ := @parseTxs_eq tokens [] actions tokens.length derived
    (Nat.le_refl _)
  have notEmpty : tokens ≠ [] := List.length_pos_iff.mp derived.length_pos
  have atEnd : parseTxs left [] = ([], none) := by
    rw [parseTxs]
  rw [List.append_nil, atEnd, List.append_nil] at parsed
  rw [parseAll, if_neg notEmpty, parsed]

/-- There is a parser for the grammar, so that every text has one derivation at most. -/
def descent : Parser :=
  ⟨parseAll, parseAll_of_derives⟩

end Loader

end Pmgd
