import Pmgd.TextLoader

/-!
# From a graph to text and back

The text of a graph is scanned into its tokens, the grammar derives them, and its actions make the
nodes and edges again, with the values that the text has room for: strings lose their backslashes,
and blobs their bytes.
-/

namespace Pmgd

namespace Loader

open Scanner Dump Decimal LongestMatch Pattern

/-! ## What can be read back -/

/-- Values whose text the loader takes. -/
def Loadable : Property → Prop
  | .string v => ∀ byte ∈ v, byte.toNat ≠ 0 ∧ byte.toNat ≠ 10
  | .float _ => False
  | .time v => v.Normal ∧ 0 ≤ v.getTm.date.year ∧ v.getTm.date.year ≤ 9999
  | _ => True

structure LoadableList (properties : List (List Char × Property)) : Prop where
  names : ∀ property ∈ properties, IsName property.1
  values : ∀ property ∈ properties, Loadable property.2
  distinct : (properties.map Prod.fst).Nodup
  fits : FitsStack properties.length

def LoadableTag (tag : List Char) : Prop :=
  tag = [] ∨ IsName tag

/-- What a value is after its way through text. -/
def loadedValue : Property → Property
  | .string v => .string (v.filter fun byte => byte.toNat ≠ 92)
  | .blob _ => .noValue
  | v => v

/-- The value behind `=`. -/
def valueToken : Property → Option Token
  | .noValue => none
  | .boolean v => some (if v then .true else .false)
  | .integer v => some (.integer v.toInt)
  | .string v => some (.quotedString (escape (byteText v)))
  | .float _ => none
  | .time v => some (.string (v.timeToString false))
  | .blob _ => none

variable {text name rest tag : List Char} {bytes : List UInt8} {value : Property}
  {property : List Char × Property} {properties : List (List Char × Property)}

/-! ## Characters -/

theorem isNameChar_of_isTimeChar {c : Char} (ofTime : Time.IsTimeChar c) : isNameChar c = true := by
  rcases ofTime with digit | member
  · exact (Bool.or_eq_true _ _).mpr (.inl ((Bool.or_eq_true _ _).mpr (.inr digit)))
  · simp only [List.mem_cons, List.not_mem_nil, or_false] at member
    rcases member with rfl | rfl | rfl | rfl | rfl <;> rfl

/-- The letter in front of the hour makes a name of a time. -/
theorem isName_timeToString (time : Time) : IsName (time.timeToString false) := by
  have letter : 'T' ∈ time.timeToString false := by
    rw [Time.timeToString_eq, Time.strftime]
    simp only [List.mem_append, List.mem_cons, true_or, or_true]
  have chars := Time.isTimeChar_timeToString time
  constructor
  · intro isNil
    rw [isNil] at letter
    cases letter
  · intro c member
    exact isNameChar_of_isTimeChar (chars c member)
  · intro isTrue
    rw [isTrue] at letter
    exact absurd letter (by decide)
  · intro isFalse
    rw [isFalse] at letter
    exact absurd letter (by decide)
  · intro isColon
    rw [isColon] at letter
    exact absurd letter (by decide)
  · intro isNumber
    have ofNumber := onlyOf_number.forall_mem isNumber 'T' letter
    cases ofNumber

/-! ## Strings -/

theorem mem_escape {c : Char} (member : c ∈ escape text) : c ∈ text ∨ c = backslash := by
  induction text with
  | nil => cases member
  | cons first text induction =>
      rw [escape] at member
      split_ifs at member
      · rcases List.mem_cons.mp member with isBackslash | behind
        · exact .inr isBackslash
        · rcases List.mem_cons.mp behind with isFirst | inRest
          · exact .inl (List.mem_cons.mpr (.inl isFirst))
          · exact (induction inRest).imp (List.mem_cons_of_mem first) id
      · rcases List.mem_cons.mp member with isFirst | inRest
        · exact .inl (List.mem_cons.mpr (.inl isFirst))
        · exact (induction inRest).imp (List.mem_cons_of_mem first) id

theorem escape_mem_quotedText (noNewline : newline ∉ text) :
    escape text ∈ quotedText.language := by
  induction text with
  | nil => exact Language.nil_mem_kstar _
  | cons c text induction =>
      rw [List.mem_cons, not_or] at noNewline
      have behind := induction noNewline.2
      rw [escape]
      split_ifs with escapable
      · have part : [backslash, c] ∈ (both (literal [backslash]) (one isEscapable)).language :=
          mem_both.mpr ⟨[backslash], mem_literal.mpr rfl, [c], ⟨c, escapable, rfl⟩, rfl⟩
        exact append_mem_star (mem_either.mpr (.inr part)) behind
      · simp only [isEscapable, Bool.or_eq_true, decide_eq_true_eq, not_or] at escapable
        have plain : isPlain c = true := by
          simp only [isPlain, Bool.and_eq_true, decide_eq_true_eq]
          exact ⟨⟨escapable.1, fun isNewline => noNewline.1 isNewline.symm⟩, escapable.2⟩
        have part : [c] ∈ (one isPlain).language := ⟨c, plain, rfl⟩
        exact append_mem_star (mem_either.mpr (.inl part)) behind

/-- Every backslash goes, not only those that were written in front of others. -/
theorem unescape_escape (text : List Char) : unescape (escape text) = unescape text := by
  induction text with
  | nil => rfl
  | cons c text induction =>
      have noBackslash (rest : List Char) : unescape (backslash :: rest) = unescape rest :=
        List.filter_cons_of_neg (by simp)
      have atHead (rest rest' : List Char) (same : unescape rest = unescape rest') :
          unescape (c :: rest) = unescape (c :: rest') := by
        rw [unescape, unescape, List.filter_cons, List.filter_cons]
        rw [unescape, unescape] at same
        rw [same]
      rw [escape]
      split_ifs
      · rw [noBackslash]
        exact atHead _ _ induction
      · exact atHead _ _ induction

theorem textBytes_unescape (bytes : List UInt8) :
    textBytes (unescape (byteText bytes)) = bytes.filter fun byte => byte.toNat ≠ 92 := by
  induction bytes with
  | nil => rfl
  | cons byte bytes induction =>
      have isByte : UInt8.ofNat (Char.ofNat byte.toNat).toNat = byte := by
        rw [toNat_ofNat_byte, UInt8.ofNat_toNat]
      have isBackslash : Char.ofNat byte.toNat = backslash ↔ byte.toNat = 92 := by
        rw [← Char.toNat_inj, toNat_ofNat_byte]
        rfl
      have isText : byteText (byte :: bytes) = Char.ofNat byte.toNat :: byteText bytes := rfl
      rw [isText, unescape, List.filter_cons, List.filter_cons]
      by_cases isNinetyTwo : byte.toNat = 92
      · rw [if_neg (by simp [isBackslash.mpr isNinetyTwo]), if_neg (by simp [isNinetyTwo])]
        exact induction
      · have kept : Char.ofNat byte.toNat ≠ backslash :=
          fun same => isNinetyTwo (isBackslash.mp same)
        rw [if_pos (decide_eq_true kept), if_pos (decide_eq_true isNinetyTwo)]
        exact congrArg₂ List.cons isByte induction

theorem chars_of_loadable (loadable : Loadable (.string bytes)) :
    newline ∉ byteText bytes ∧ ∀ c ∈ byteText bytes, c.toNat ≠ 0 := by
  constructor
  · intro member
    obtain ⟨byte, inBytes, isNewline⟩ := List.mem_map.mp member
    apply (loadable byte inBytes).2
    rw [← toNat_ofNat_byte, isNewline]
    rfl
  · intro c member
    obtain ⟨byte, inBytes, rfl⟩ := List.mem_map.mp member
    rw [toNat_ofNat_byte]
    exact (loadable byte inBytes).1

/-! ## Tokens -/

/-- The tokens of a property. -/
def propertyTokens (property : List Char × Property) : List Token :=
  .string property.1 :: match valueToken property.2 with
    | none => []
    | some value => [.symbol '=', value]

def listTokens : List (List Char × Property) → List Token
  | [] => []
  | property :: properties =>
      .symbol '{' :: ((propertyTokens property ++
        properties.flatMap fun property => .symbol ',' :: propertyTokens property) ++ [.symbol '}'])

def tagTokens (tag : List Char) : List Token :=
  if tag ≠ [] then [.symbol '#', .string tag] else []

/-- What follows does not go on with a name or a number. -/
def Stops (rest : List Char) : Prop :=
  ∀ c ∈ rest.head?, isNameChar c = false

theorem stops_cons {c : Char} (notName : isNameChar c = false) : Stops (c :: rest) := by
  rintro other isHead
  rwa [← Option.some.inj isHead]

theorem yylex_equals : yylex (' ' :: '=' :: ' ' :: rest) = .symbol '=' :: yylex rest := by
  rw [yylex_blank (by decide), yylex_symbol rfl (by rintro ⟨⟩), yylex_blank (by decide)]

theorem yylex_printProperty {floatText : BitVec 64 → List Char} (isName : IsName property.1)
    (loadable : Loadable property.2) (stops : Stops rest) :
    yylex (printProperty floatText property ++ rest) = propertyTokens property ++ yylex rest := by
  obtain ⟨name, value⟩ := property
  replace isName : IsName name := isName
  have bare : yylex (cStr name ++ rest) = .string name :: yylex rest := by
    rw [cStr_of_isName isName]
    exact yylex_name isName stops
  have valued {written : List Char} {token : Token} (noNul : ∀ c ∈ written, c.toNat ≠ 0)
      (isValue : yylex (written ++ rest) = token :: yylex rest) :
      yylex ((cStr name ++ ' ' :: '=' :: ' ' :: cStr written) ++ rest) =
        [.string name, .symbol '=', token] ++ yylex rest := by
    rw [cStr_of_isName isName, cStr_eq noNul, List.append_assoc, List.cons_append,
      List.cons_append, List.cons_append, yylex_name isName (stops_cons rfl), yylex_equals, isValue]
    rfl
  cases value with
  | noValue => exact bare
  | boolean v =>
      have isWord : (if v then "true".toList else "false".toList).all isNameChar = true := by
        cases v <;> rfl
      refine valued (fun c member => ?_) (yylex_boolean v stops)
      exact toNat_ne_zero_of_isNameChar (List.all_eq_true.mp isWord c member)
  | integer v =>
      refine valued ?_ (yylex_integer (BitVec.le_toInt v) (BitVec.toInt_lt) stops)
      intro c member
      exact toNat_ne_zero_of_isNameChar
        (isNameChar_of_mem_number (signedDecimal_mem_number _) c member)
  | string v =>
      obtain ⟨noNewline, noNul⟩ := chars_of_loadable loadable
      have escaped : ∀ c ∈ escape (byteText v), c.toNat ≠ 0 := by
        intro c member
        rcases mem_escape member with ofText | rfl
        · exact noNul c ofText
        · decide
      refine valued ?_ ?_
      · rw [List.forall_mem_cons, List.forall_mem_append, List.forall_mem_singleton]
        exact ⟨by decide, escaped, by decide⟩
      · rw [List.cons_append, List.append_assoc, List.singleton_append]
        exact yylex_quoted (escape_mem_quotedText noNewline) escaped
  | float v => exact absurd loadable id
  | time v =>
      refine valued ?_ (yylex_name (isName_timeToString v) stops)
      intro c member
      exact (Time.isTimeChar_timeToString v c member).toNat_ne_zero
  | blob v => exact bare

theorem yylex_printPropertyList {floatText : BitVec 64 → List Char}
    (loadable : LoadableList properties) :
    yylex (printPropertyList floatText properties ++ rest) =
      listTokens properties ++ yylex rest := by
  obtain ⟨names, values, -, -⟩ := loadable
  cases properties with
  | nil => rfl
  | cons property properties =>
      rw [List.forall_mem_cons] at names values
      have behind : Stops ((properties.flatMap fun property => ',' :: ' ' ::
            printProperty floatText property) ++ ' ' :: '}' :: rest) ∧
          yylex ((properties.flatMap fun property => ',' :: ' ' ::
            printProperty floatText property) ++ ' ' :: '}' :: rest) =
          (properties.flatMap fun property => .symbol ',' :: propertyTokens property) ++
            .symbol '}' :: yylex rest := by
        obtain ⟨_, names⟩ := names
        obtain ⟨_, values⟩ := values
        induction properties with
        | nil =>
            refine ⟨stops_cons rfl, ?_⟩
            exact (yylex_blank (by decide)).trans (yylex_symbol rfl (by rintro ⟨⟩))
        | cons next properties induction =>
            rw [List.forall_mem_cons] at names values
            obtain ⟨stops, isRest⟩ := induction names.2 values.2
            refine ⟨stops_cons rfl, ?_⟩
            rw [List.flatMap_cons, List.flatMap_cons, List.append_assoc, List.cons_append,
              List.cons_append, yylex_symbol rfl (by rintro ⟨⟩), yylex_blank (by decide),
              yylex_printProperty names.1 values.1 stops, isRest, List.append_assoc,
              List.cons_append]
      rw [printPropertyList, listTokens, List.cons_append, List.cons_append, List.cons_append,
        yylex_blank (by decide), yylex_symbol rfl (by rintro ⟨⟩), yylex_blank (by decide)]
      simp only [List.append_assoc, List.cons_append, List.nil_append]
      rw [yylex_printProperty names.1 values.1 behind.1, behind.2]

theorem yylex_tagText (loadable : LoadableTag tag) (stops : Stops rest) :
    yylex (cStr (tagText tag) ++ rest) = tagTokens tag ++ yylex rest := by
  rcases loadable with rfl | isName
  · rfl
  · have noNul : ∀ c ∈ ' ' :: '#' :: tag, c.toNat ≠ 0 := by
      rw [List.forall_mem_cons, List.forall_mem_cons]
      refine ⟨by decide, by decide, ?_⟩
      exact fun c member => toNat_ne_zero_of_isNameChar (isName.chars c member)
    rw [tagText, if_pos isName.notEmpty, cStr_eq noNul, List.cons_append, List.cons_append,
      yylex_blank (by decide), yylex_symbol rfl (by rintro ⟨⟩), yylex_name isName stops, tagTokens,
      if_pos isName.notEmpty]
    rfl

theorem stops_printPropertyList {floatText : BitVec 64 → List Char} (stops : Stops rest) :
    Stops (printPropertyList floatText properties ++ rest) := by
  cases properties with
  | nil => exact stops
  | cons property properties => exact stops_cons rfl

theorem stops_tagText (stops : Stops rest) : Stops (cStr (tagText tag) ++ rest) := by
  rw [tagText]
  split_ifs
  · have isCons : cStr (' ' :: '#' :: tag) = ' ' :: cStr ('#' :: tag) := rfl
    rw [isCons]
    exact stops_cons rfl
  · exact stops

theorem yylex_end : yylex (';' :: newline :: rest) = .symbol ';' :: yylex rest := by
  rw [yylex_symbol rfl (by rintro ⟨⟩), yylex_blank (by decide)]

/-! ## Names of nodes -/

def idToken : LoaderId → Token
  | .integer value => .integer value
  | .string text => .string text

/-- The name that an earlier load has given a node. -/
def loaderProperty (graph : GraphRecord) (place : Nat) : Option Property :=
  graph.nodes[place]?.bind fun node => checkNamed node.properties loaderId

/-- What the text calls a node by. -/
def loaderKey (getId : Nat → Nat) (graph : GraphRecord) (place : Nat) : LoaderId :=
  match loaderProperty graph place with
  | some (.integer v) => .integer v.toInt
  | some (.string v) => .string (byteText v)
  | _ => .integer (getId place)

/-- The nodes have names of one kind, and different ones. -/
structure Named (getId : Nat → Nat) (graph : GraphRecord) : Prop where
  uniform :
    (∀ place < graph.nodes.length, loaderProperty graph place = none ∧ getId place < 2 ^ 63) ∨
    (∀ place < graph.nodes.length, ∃ v, loaderProperty graph place = some (.integer v)) ∨
      ∀ place < graph.nodes.length, ∃ v, loaderProperty graph place = some (.string v) ∧
        IsName (byteText v)
  distinct : ∀ place < graph.nodes.length, ∀ other < graph.nodes.length,
    loaderKey getId graph place = loaderKey getId graph other → place = other

/-- The properties that are written for a node. -/
def visible (node : NodeRecord) : List (List Char × Property) :=
  node.properties.filter fun property => property.1 ≠ loaderId

/-- A graph whose text can be loaded. -/
structure Dumpable (getId : Nat → Nat) (graph : GraphRecord) : Prop where
  notEmpty : graph.nodes ≠ []
  named : Named getId graph
  nodes : ∀ node ∈ graph.nodes, LoadableTag node.tag ∧
    LoadableList (visible node)
  edges : ∀ edge ∈ graph.edges, LoadableTag edge.tag ∧ LoadableList edge.properties ∧
    edge.source < graph.nodes.length ∧ edge.destination < graph.nodes.length

variable {getId : Nat → Nat} {graph : GraphRecord} {place : Nat} {id other : LoaderId}
  {floatText : BitVec 64 → List Char}

/-- What is written for the name of a node. -/
def keyText : LoaderId → List Char
  | .integer value => signedDecimal value
  | .string text => text

def LoadableId : LoaderId → Prop
  | .integer value => -2 ^ 63 ≤ value ∧ value < 2 ^ 63
  | .string text => IsName text

theorem yylex_keyText (loadable : LoadableId id) (stops : Stops rest) :
    yylex (keyText id ++ rest) = idToken id :: yylex rest := by
  cases id with
  | integer value => exact yylex_integer loadable.1 loadable.2 stops
  | string text => exact yylex_name loadable stops

theorem signedDecimal_ofNat (value : Nat) : signedDecimal value = decimal value := by
  rw [signedDecimal, if_neg (by omega), Int.natAbs_natCast]

theorem cStr_signedDecimal (value : Int) : cStr (signedDecimal value) = signedDecimal value :=
  cStr_eq fun c member => toNat_ne_zero_of_isNameChar
    (isNameChar_of_mem_number (signedDecimal_mem_number value) c member)

/-- What `print_node` and `print_edge` write for a node, and that it can be read. -/
theorem Named.printed (named : Named getId graph) (inside : place < graph.nodes.length) :
    LoadableId (loaderKey getId graph place) ∧
      (match loaderProperty graph place with
        | none => decimal (getId place)
        | some result => cStr (propertyText floatText result)) =
          keyText (loaderKey getId graph place) := by
  rw [loaderKey]
  rcases named.uniform with noId | integers | strings
  · obtain ⟨none_, small⟩ := noId place inside
    rw [none_]
    refine ⟨⟨by omega, by omega⟩, ?_⟩
    exact (signedDecimal_ofNat _).symm
  · obtain ⟨v, isInteger⟩ := integers place inside
    rw [isInteger]
    exact ⟨⟨BitVec.le_toInt v, BitVec.toInt_lt⟩, cStr_signedDecimal v.toInt⟩
  · obtain ⟨v, isString, isName⟩ := strings place inside
    rw [isString]
    exact ⟨isName, cStr_of_isName isName⟩

/-! ## Statements -/

def listActions (properties : List (List Char × Property)) : List Action :=
  properties.flatMap fun property =>
    [.propertyId property.1, .setProperty (valueToken property.2)]

/-- What `tag` makes a string id of. -/
def tagName (tag : List Char) : Option (List Char) :=
  if tag ≠ [] then some tag else none

def nodeTokens (id : LoaderId) (node : NodeRecord) : List Token :=
  (idToken id :: tagTokens node.tag) ++ (listTokens (visible node) ++ [.symbol ';'])

def nodeActions (id : LoaderId) (node : NodeRecord) : List Action :=
  .begin :: ((([.tag (tagName node.tag)] ++ [.node id]) ++ listActions (visible node)) ++ [.commit])

def edgeTokens (source destination : LoaderId) (edge : EdgeRecord) : List Token :=
  [idToken source] ++ ([] ++ ([idToken destination] ++ ([] ++
    ((.symbol ':' :: (tagTokens edge.tag ++ listTokens edge.properties)) ++ [.symbol ';']))))

def edgeActions (source destination : LoaderId) (edge : EdgeRecord) : List Action :=
  .begin :: ((([.tag none] ++ [.node source]) ++ ([] ++ (([.tag none] ++ [.node destination]) ++
    ([] ++ ([.tag (tagName edge.tag)] ++ .addEdge true :: listActions edge.properties))))) ++
      [.commit])

theorem derivesTag_tagTokens (tag : List Char) :
    DerivesTag (tagTokens tag) [.tag (tagName tag)] := by
  rw [tagTokens, tagName]
  split_ifs
  · exact .name tag
  · exact .empty

theorem derivesNode_idToken {tokens : List Token} {actions : List Action}
    (ofTag : DerivesTag tokens actions) :
    DerivesNode (idToken id :: tokens) (actions ++ [.node id]) := by
  cases id with
  | integer value => exact .integer value ofTag
  | string text => exact .string text ofTag

theorem derivesProperty_propertyTokens (property : List Char × Property) :
    DerivesProperty (propertyTokens property)
      [.propertyId property.1, .setProperty (valueToken property.2)] := by
  obtain ⟨name, value⟩ := property
  cases value with
  | noValue => exact .unvalued name
  | boolean v => cases v <;> exact .valued name _ rfl
  | integer v => exact .valued name _ rfl
  | string v => exact .valued name _ rfl
  | float v => exact .unvalued name
  | time v => exact .valued name _ rfl
  | blob v => exact .unvalued name

theorem derivesProperties_listTokens {properties : List (List Char × Property)}
    (fits : FitsStack properties.length) :
    DerivesProperties (listTokens properties) (listActions properties) := by
  cases properties with
  | nil => exact .empty
  | cons property properties =>
      refine .braces ?_ fits
      clear fits
      induction properties generalizing property with
      | nil =>
          rw [List.flatMap_nil, List.append_nil]
          exact .one (derivesProperty_propertyTokens property)
      | cons next properties induction =>
          exact @DerivesPropertyList.more _ _ _ [.symbol ','] _ _
            (derivesProperty_propertyTokens property) (.inr rfl) (induction next)

theorem derivesTx_node (id : LoaderId) {node : NodeRecord}
    (fits : FitsStack (visible node).length) :
    DerivesTx (nodeTokens id node) (nodeActions id node) :=
  .mk (.node (derivesNode_idToken (derivesTag_tagTokens _)) (derivesProperties_listTokens fits))

theorem derivesTx_edge (source destination : LoaderId) {edge : EdgeRecord}
    (fits : FitsStack edge.properties.length) :
    DerivesTx (edgeTokens source destination edge) (edgeActions source destination edge) :=
  .mk (.edge (derivesNode_idToken .empty) .empty (derivesNode_idToken .empty) .empty
    (.tagged (derivesTag_tagTokens _) (derivesProperties_listTokens fits)))

theorem derives_flatMap {statements : List (List Token × List Action)} (some_ : statements ≠ [])
    (all : ∀ statement ∈ statements, DerivesTx statement.1 statement.2) :
    Derives (statements.flatMap Prod.fst) (statements.flatMap Prod.snd) := by
  induction statements using List.reverseRecOn with
  | nil => exact absurd rfl some_
  | append_singleton statements last induction =>
      rw [List.forall_mem_append, List.forall_mem_singleton] at all
      rw [List.flatMap_append, List.flatMap_append, List.flatMap_singleton, List.flatMap_singleton]
      by_cases isNil : statements = []
      · rw [isNil]
        exact .one all.2
      · exact .more (induction isNil all.1) all.2

theorem yylex_node {node : NodeRecord} (loadable : LoadableId id)
    (ofTag : LoadableTag node.tag) (ofList : LoadableList (visible node)) :
    yylex (keyText id ++ cStr (tagText node.tag) ++
      printPropertyList floatText (visible node) ++ [';', newline] ++ rest) =
        nodeTokens id node ++ yylex rest := by
  have atEnd : Stops (';' :: newline :: rest) := stops_cons rfl
  simp only [List.append_assoc, List.cons_append, List.nil_append]
  rw [yylex_keyText loadable (stops_tagText (stops_printPropertyList atEnd)),
    yylex_tagText ofTag (stops_printPropertyList atEnd), yylex_printPropertyList ofList, yylex_end,
    nodeTokens]
  simp only [List.append_assoc, List.cons_append, List.nil_append]

theorem yylex_edge {source destination : LoaderId} {edge : EdgeRecord}
    (ofSource : LoadableId source) (ofDestination : LoadableId destination)
    (ofTag : LoadableTag edge.tag) (ofList : LoadableList edge.properties) :
    yylex (keyText source ++ ' ' :: keyText destination ++ ' ' :: ':' ::
      cStr (tagText edge.tag) ++ printPropertyList floatText edge.properties ++ [';', newline] ++
        rest) = edgeTokens source destination edge ++ yylex rest := by
  have atEnd : Stops (';' :: newline :: rest) := stops_cons rfl
  simp only [List.append_assoc, List.cons_append, List.nil_append]
  rw [yylex_keyText ofSource (stops_cons rfl), yylex_blank (by decide),
    yylex_keyText ofDestination (stops_cons rfl), yylex_blank (by decide),
    yylex_symbol rfl (fun _ => stops_tagText (stops_printPropertyList atEnd)),
    yylex_tagText ofTag (stops_printPropertyList atEnd), yylex_printPropertyList ofList, yylex_end,
    edgeTokens]
  simp only [List.append_assoc, List.cons_append, List.nil_append]

/-! ## Runs of the actions -/

def loadedProperty (property : List Char × Property) : List Char × Property :=
  (property.1, loadedValue property.2)

def loadedNode (node : NodeRecord) : NodeRecord :=
  ⟨node.tag, (visible node).map loadedProperty⟩

def loadedEdge (start : Nat) (edge : EdgeRecord) : EdgeRecord :=
  ⟨start + edge.source, start + edge.destination, edge.tag, edge.properties.map loadedProperty⟩

/-- The state of a load into a graph with strings. -/
abbrev TextState := State (List Char) Unit

variable {state next : TextState} {actions behind : List Action}

theorem loadValue_valueToken (loadable : Loadable value) :
    loadValue (valueToken value) = .ok (loadedValue value) := by
  cases value with
  | noValue => rfl
  | boolean v => cases v <;> rfl
  | integer v =>
      have isInteger : BitVec.ofInt 64 v.toInt = v := BitVec.ofInt_toInt
      rw [valueToken, loadValue, isInteger]
      rfl
  | string v =>
      rw [valueToken, loadValue, unescape_escape, textBytes_unescape]
      rfl
  | float v => exact absurd loadable id
  | time v =>
      obtain ⟨normal, notBefore, notAfter⟩ := loadable
      rw [valueToken, loadValue, Time.stringToTm_eq normal notBefore notAfter]
      dsimp only
      rw [Time.ofTm_getTm normal]
      rfl
  | blob v => rfl

theorem modify_length {α : Type} (before : List α) (last : α) (change : α → α) :
    (before ++ [last]).modify before.length change = before ++ [change last] := by
  induction before with
  | nil => rfl
  | cons first before induction =>
      rw [List.cons_append, List.length_cons, List.modify_succ_cons, induction, List.cons_append]

theorem setNamed_of_notMem (fresh : name ∉ properties.map Prod.fst) :
    setNamed name value properties = properties ++ [(name, value)] := by
  have all : (properties.filter fun property => property.1 ≠ name) = properties := by
    refine List.filter_eq_self.mpr fun property member => decide_eq_true ?_
    rintro rfl
    exact fresh (List.mem_map_of_mem member)
  rw [setNamed, all]

theorem act_tag (loadable : LoadableTag tag) :
    act plain none (.tag (tagName tag)) state = .ok { state with tag } := by
  rw [tagName]
  rcases loadable with rfl | isName
  · rfl
  · rw [if_pos isName.notEmpty]
    show Except.ok { state with tag := cStr tag } = _
    rw [cStr_of_isName isName]

/-- Setting the properties of the object that `current` is. -/
theorem run_listActions {graphWith : List (List Char × Property) → GraphRecord}
    {given : List (List Char × Property)} (loadable : LoadableList properties)
    (fresh : ∀ property ∈ properties, property.1 ∉ given.map Prod.fst)
    (isSet : ∀ name value given, setCurrent name value (graphWith given) state.current =
      graphWith (setNamed name value given))
    (isGraph : state.graph = graphWith given) :
    ∃ propertyId, runAll plain (listActions properties) state =
      ({ state with
        graph := graphWith (given ++ properties.map loadedProperty), propertyId }, none) := by
  obtain ⟨names, values, distinct, -⟩ := loadable
  induction properties generalizing given state with
  | nil =>
      refine ⟨state.propertyId, ?_⟩
      rw [List.map_nil, List.append_nil, ← isGraph]
      rfl
  | cons property properties induction =>
      rw [List.forall_mem_cons] at names values fresh
      rw [List.map_cons, List.nodup_cons] at distinct
      have isId : act plain none (.propertyId property.1) state =
          .ok { state with propertyId := property.1 } := by
        show Except.ok { state with propertyId := cStr property.1 } = _
        rw [cStr_of_isName names.1]
      let next : TextState := { state with
        graph := graphWith (given ++ [loadedProperty property]), propertyId := property.1 }
      have isNext : act plain none (.setProperty (valueToken property.2))
          { state with propertyId := property.1 } = .ok next := by
        rw [act, loadValue_valueToken values.1]
        dsimp only
        rw [isGraph, isSet, setNamed_of_notMem fresh.1]
        rfl
      have freshBehind : ∀ other ∈ properties,
          other.1 ∉ (given ++ [loadedProperty property]).map Prod.fst := by
        intro other member inGiven
        rw [List.map_append, List.mem_append] at inGiven
        rcases inGiven with old | isFirst
        · exact fresh.2 other member old
        · rw [List.map_singleton, List.mem_singleton] at isFirst
          have same : other.1 = property.1 := isFirst
          exact distinct.1 (same ▸ List.mem_map_of_mem member)
      obtain ⟨propertyId, fromNext⟩ := @induction next (given ++ [loadedProperty property])
        freshBehind isSet rfl names.2 values.2 distinct.2
      refine ⟨propertyId, ?_⟩
      rw [listActions, List.flatMap_cons, List.cons_append, runAll_cons isId, List.cons_append,
        runAll_cons isNext, List.nil_append, ← listActions, fromNext, List.append_assoc,
        List.map_cons, List.singleton_append]

/-! ## The index -/

namespace Index

/-- The map is for ids of this type. -/
def IsFor : Index → LoaderId → Prop
  | integers _, .integer _ => True
  | strings _, .string _ => True
  | _, _ => False

end Index

def SameKind : LoaderId → LoaderId → Prop
  | .integer _, .integer _ => True
  | .string _, .string _ => True
  | _, _ => False

variable {index : Index}

theorem isFor_start (isReady : index = .unset ∨ index.IsFor id) : (index.start id).IsFor id := by
  rcases isReady with rfl | isFor
  · cases id <;> trivial
  · cases index <;> cases id <;> trivial

theorem start_of_isFor (isFor : index.IsFor id) : index.start id = index := by
  cases index with
  | unset => cases isFor
  | integers entries => cases id <;> rfl
  | strings entries => cases id <;> rfl

theorem isFor_of_sameKind (isFor : index.IsFor id) (same : SameKind id other) :
    index.IsFor other := by
  cases index with
  | unset => cases isFor
  | integers entries => cases id <;> cases other <;> trivial
  | strings entries => cases id <;> cases other <;> trivial

theorem find_add (isFor : index.IsFor id) (same : SameKind id other) :
    (index.add place id).IsFor other ∧
      (index.add place id).find other = if other = id then some place else index.find other := by
  cases id with
  | integer value =>
      cases other with
      | string text => cases same
      | integer asked =>
          cases index with
          | unset => cases isFor
          | strings entries => cases isFor
          | integers entries =>
              refine ⟨trivial, ?_⟩
              show ((value, place) :: entries).lookup asked = _
              by_cases equal : asked = value
              · rw [equal, List.lookup_cons_self, if_pos rfl]
              · rw [List.lookup_cons, beq_false_of_ne equal,
                  if_neg fun same => equal (LoaderId.integer.inj same)]
                rfl
  | string text =>
      cases other with
      | integer value => cases same
      | string asked =>
          cases index with
          | unset => cases isFor
          | integers entries => cases isFor
          | strings entries =>
              refine ⟨trivial, ?_⟩
              show ((text, place) :: entries).lookup asked = _
              by_cases equal : asked = text
              · rw [equal, List.lookup_cons_self, if_pos rfl]
              · rw [List.lookup_cons, beq_false_of_ne equal,
                  if_neg fun same => equal (LoaderId.string.inj same)]
                rfl

theorem start_of_sameKind (same : SameKind id other) : index.start id = index.start other := by
  cases index <;> cases id <;> cases other <;> first | rfl | cases same

/-- Between two statements: the graph has these nodes and edges more, all of them committed, and
the index has the nodes under their names. -/
structure Between (start : GraphRecord) (key : Nat → LoaderId) (total : Nat)
    (nodes : List NodeRecord) (edges : List EdgeRecord) (state : TextState) : Prop where
  graph : state.graph = ⟨start.nodes ++ nodes, start.edges ++ edges⟩
  committed : state.committed = state.graph
  closed : state.inTransaction = false
  operands : state.nodes = []
  ready : ∀ place < total, (state.index.start (key place)).IsFor (key place)
  finds : ∀ place < total, (state.index.start (key place)).find (key place) =
    if place < nodes.length then some (start.nodes.length + place) else none

/-- The names of the nodes are of one kind, and different. -/
structure Distinct (key : Nat → LoaderId) (total : Nat) : Prop where
  sameKind : ∀ place < total, ∀ other < total, SameKind (key place) (key other)
  distinct : ∀ place < total, ∀ other < total, key place = key other → place = other

variable {start : GraphRecord} {key : Nat → LoaderId} {total : Nat} {nodes : List NodeRecord}
  {edges : List EdgeRecord}

theorem run_nodeActions {node : NodeRecord} (keys : Distinct key total)
    (between : Between start key total nodes edges state) (inside : nodes.length < total)
    (ofTag : LoadableTag node.tag) (loadable : LoadableList (visible node)) :
    ∃ next, runAll plain (nodeActions (key nodes.length) node) state = (next, none) ∧
      Between start key total (nodes ++ [loadedNode node]) edges next := by
  have isFor := between.ready nodes.length inside
  have notFound : (state.index.start (key nodes.length)).find (key nodes.length) = none := by
    rw [between.finds nodes.length inside, if_neg (Nat.lt_irrefl _)]
  let place := (start.nodes ++ nodes).length
  let index := (state.index.start (key nodes.length)).add place (key nodes.length)
  let graphWith (given : List (List Char × Property)) : GraphRecord :=
    ⟨start.nodes ++ nodes ++ [⟨node.tag, given⟩], start.edges ++ edges⟩
  let begun : TextState := ⟨(), graphWith [], state.committed, true, index, node.tag,
    state.propertyId, some (.node place), [place]⟩
  have isBegun : act plain none (.node (key nodes.length))
      { state with inTransaction := true, tag := node.tag } = .ok begun := by
    rw [act, getNode]
    dsimp only
    rw [notFound, between.graph, between.operands]
    rfl
  have isSet : ∀ name value given, setCurrent name value (graphWith given) begun.current =
      graphWith (setNamed name value given) := by
    intro name value given
    exact congrArg (fun nodes => GraphOf.mk nodes _) (modify_length _ _ _)
  obtain ⟨propertyId, properties⟩ := @run_listActions _ begun graphWith [] loadable
    (fun property _ => List.not_mem_nil) isSet rfl
  let loaded := graphWith ([] ++ (visible node).map loadedProperty)
  refine ⟨⟨(), loaded, loaded, false, index, node.tag, propertyId, some (.node place), []⟩, ?_, ?_⟩
  · have isOpen : act plain none .begin state = .ok { state with inTransaction := true } := rfl
    rw [nodeActions, runAll_cons isOpen]
    simp only [List.cons_append, List.nil_append]
    rw [runAll_cons (act_tag ofTag), runAll_cons isBegun, runAll_append properties]
    rfl
  · have newPlace : place = start.nodes.length + nodes.length := List.length_append
    constructor
    · show graphWith _ = _
      rw [List.nil_append]
      exact congrArg (fun nodes => GraphOf.mk nodes _) (List.append_assoc _ _ _)
    · rfl
    · rfl
    · rfl
    · intro other isOther
      obtain ⟨ofOther, _⟩ := @find_add place _ _ _ isFor
        (keys.sameKind nodes.length inside other isOther)
      show (index.start (key other)).IsFor (key other)
      rwa [start_of_isFor ofOther]
    · intro other isOther
      have same := keys.sameKind nodes.length inside other isOther
      obtain ⟨ofOther, found⟩ := @find_add place _ _ _ isFor same
      show (index.start (key other)).find (key other) = _
      rw [start_of_isFor ofOther, found, start_of_sameKind same, between.finds other isOther,
        List.length_append, List.length_singleton, newPlace]
      by_cases isNew : key other = key nodes.length
      · have isPlace := keys.distinct other isOther nodes.length inside isNew
        rw [if_pos isNew, isPlace, if_pos (Nat.lt_succ_self _)]
      · have notPlace : other ≠ nodes.length := by
          rintro rfl
          exact isNew rfl
        rw [if_neg isNew]
        by_cases old : other < nodes.length
        · rw [if_pos old, if_pos (by omega)]
        · rw [if_neg old, if_neg (by omega)]

theorem run_edgeActions {edge : EdgeRecord} (keys : Distinct key total)
    (between : Between start key total nodes edges state) (all : nodes.length = total)
    (ofSource : edge.source < total) (ofDestination : edge.destination < total)
    (ofTag : LoadableTag edge.tag) (loadable : LoadableList edge.properties) :
    ∃ next, runAll plain (edgeActions (key edge.source) (key edge.destination) edge) state =
        (next, none) ∧
      Between start key total nodes (edges ++ [loadedEdge start.nodes.length edge]) next := by
  have same := keys.sameKind edge.source ofSource edge.destination ofDestination
  have atSource := between.finds edge.source ofSource
  have atDestination := between.finds edge.destination ofDestination
  rw [all, if_pos ofSource] at atSource
  rw [all, if_pos ofDestination, ← start_of_sameKind same] at atDestination
  have isFor := between.ready edge.source ofSource
  let index := state.index.start (key edge.source)
  have unchanged : ∀ other < total, index.start (key other) = state.index.start (key other) := by
    intro other isOther
    have sameKind := keys.sameKind edge.source ofSource other isOther
    rw [start_of_isFor (isFor_of_sameKind isFor sameKind)]
    exact start_of_sameKind sameKind
  let source := start.nodes.length + edge.source
  let destination := start.nodes.length + edge.destination
  let place := (start.edges ++ edges).length
  let graphWith (given : List (List Char × Property)) : GraphRecord :=
    ⟨start.nodes ++ nodes, start.edges ++ edges ++ [⟨source, destination, edge.tag, given⟩]⟩
  let opened : TextState := { state with inTransaction := true, tag := [] }
  let first : TextState :=
    { opened with index, current := some (.node source), nodes := [source] }
  let both : TextState := { opened with
    index, current := some (.node destination), nodes := [source, destination], tag := edge.tag }
  let begun : TextState := ⟨(), graphWith [], state.committed, true, index, edge.tag,
    state.propertyId, some (.edge place), [source, destination]⟩
  have isFirst : act plain none (.node (key edge.source)) opened = .ok first := by
    rw [act, getNode]
    dsimp only
    rw [atSource]
    show Except.ok { first with nodes := state.nodes ++ [source] } = _
    rw [between.operands]
    rfl
  have isBoth : act plain none (.node (key edge.destination)) { first with tag := [] } =
      .ok { both with tag := [] } := by
    have noChange : index.start (key edge.destination) = index :=
      start_of_isFor (isFor_of_sameKind isFor same)
    rw [act, getNode]
    dsimp only
    rw [noChange, atDestination]
    rfl
  have isBegun : act plain none (.addEdge true) both = .ok begun := by
    show Except.ok { begun with
      graph := { state.graph with
        edges := state.graph.edges ++ [(⟨source, destination, edge.tag, []⟩ : EdgeRecord)] }
      current := some (.edge state.graph.edges.length) } = _
    rw [between.graph]
  have isSet : ∀ name value given, setCurrent name value (graphWith given) begun.current =
      graphWith (setNamed name value given) := by
    intro name value given
    exact congrArg (fun edges => GraphOf.mk _ edges) (modify_length _ _ _)
  obtain ⟨propertyId, properties⟩ := @run_listActions _ begun graphWith [] loadable
    (fun property _ => List.not_mem_nil) isSet rfl
  let loaded := graphWith ([] ++ edge.properties.map loadedProperty)
  refine ⟨⟨(), loaded, loaded, false, index, edge.tag, propertyId, some (.edge place), []⟩, ?_, ?_⟩
  · have isOpen : act plain none .begin state = .ok { state with inTransaction := true } := rfl
    have noTag (state : TextState) : act plain none (.tag none) state =
        .ok { state with tag := [] } := rfl
    rw [edgeActions, runAll_cons isOpen]
    simp only [List.nil_append, List.cons_append]
    rw [runAll_cons (noTag _), runAll_cons isFirst, runAll_cons (noTag _), runAll_cons isBoth,
      runAll_cons (act_tag ofTag), runAll_cons isBegun, runAll_append properties]
    rfl
  · constructor
    · show graphWith _ = _
      rw [List.nil_append]
      exact congrArg (fun edges => GraphOf.mk _ edges) (List.append_assoc _ _ _)
    · rfl
    · rfl
    · rfl
    · intro other isOther
      show (index.start (key other)).IsFor (key other)
      rw [unchanged other isOther]
      exact between.ready other isOther
    · intro other isOther
      show (index.start (key other)).find (key other) = _
      rw [unchanged other isOther]
      exact between.finds other isOther

theorem run_nodes {more : List NodeRecord} (keys : Distinct key total)
    (between : Between start key total nodes edges state)
    (inside : nodes.length + more.length ≤ total)
    (loadable : ∀ node ∈ more, LoadableTag node.tag ∧ LoadableList (visible node)) :
    ∃ next, runAll plain
        ((more.zipIdx nodes.length).flatMap fun node => nodeActions (key node.2) node.1) state =
          (next, none) ∧
      Between start key total (nodes ++ more.map loadedNode) edges next := by
  induction more generalizing nodes state with
  | nil =>
      refine ⟨state, rfl, ?_⟩
      rwa [List.map_nil, List.append_nil]
  | cons node more induction =>
      rw [List.length_cons] at inside
      rw [List.forall_mem_cons] at loadable
      obtain ⟨middle, first, ofMiddle⟩ := run_nodeActions keys between (by omega) loadable.1.1
        loadable.1.2
      have isLength : (nodes ++ [loadedNode node]).length = nodes.length + 1 :=
        List.length_append
      obtain ⟨next, behind, ofNext⟩ := induction ofMiddle (by omega) loadable.2
      refine ⟨next, ?_, ?_⟩
      · rw [List.zipIdx_cons, List.flatMap_cons, runAll_append first, ← isLength]
        exact behind
      · rwa [List.append_assoc] at ofNext

theorem run_edges {more : List EdgeRecord} (keys : Distinct key total)
    (between : Between start key total nodes edges state) (all : nodes.length = total)
    (loadable : ∀ edge ∈ more, LoadableTag edge.tag ∧ LoadableList edge.properties ∧
      edge.source < total ∧ edge.destination < total) :
    ∃ next, runAll plain
        (more.flatMap fun edge => edgeActions (key edge.source) (key edge.destination) edge) state =
          (next, none) ∧
      Between start key total nodes (edges ++ more.map (loadedEdge start.nodes.length)) next := by
  induction more generalizing edges state with
  | nil =>
      refine ⟨state, rfl, ?_⟩
      rwa [List.map_nil, List.append_nil]
  | cons edge more induction =>
      rw [List.forall_mem_cons] at loadable
      obtain ⟨⟨ofTag, ofList, ofSource, ofDestination⟩, ofMore⟩ := loadable
      obtain ⟨middle, first, ofMiddle⟩ :=
        run_edgeActions keys between all ofSource ofDestination ofTag ofList
      obtain ⟨next, behind, ofNext⟩ := induction ofMiddle ofMore
      refine ⟨next, ?_, ?_⟩
      · rw [List.flatMap_cons, runAll_append first]
        exact behind
      · rwa [List.append_assoc] at ofNext

/-! ## The round trip -/

theorem Named.keys (named : Named getId graph) :
    Distinct (loaderKey getId graph) graph.nodes.length where
  sameKind place inside other isOther := by
    rw [loaderKey, loaderKey]
    rcases named.uniform with noId | integers | strings
    · rw [(noId place inside).1, (noId other isOther).1]
      trivial
    · obtain ⟨v, isInteger⟩ := integers place inside
      obtain ⟨w, isOtherInteger⟩ := integers other isOther
      rw [isInteger, isOtherInteger]
      trivial
    · obtain ⟨v, isString, _⟩ := strings place inside
      obtain ⟨w, isOtherString, _⟩ := strings other isOther
      rw [isString, isOtherString]
      trivial
  distinct := named.distinct

/-- What `print_edge` writes if its nodes have names. -/
def edgeText (floatText : BitVec 64 → List Char) (getId : Nat → Nat) (graph : GraphRecord)
    (edge : EdgeRecord) : List Char :=
  keyText (loaderKey getId graph edge.source) ++ ' ' ::
    keyText (loaderKey getId graph edge.destination) ++ ' ' :: ':' :: cStr (tagText edge.tag) ++
      printPropertyList floatText edge.properties ++ [';', newline]

theorem loaderIdOf_plain : loaderIdOf plain loaderId graph place = loaderProperty graph place := by
  simp only [loaderIdOf, loaderProperty, checkLoaderId_plain]

theorem printEdge_eq {edge : EdgeRecord} (named : Named getId graph)
    (ofSource : edge.source < graph.nodes.length)
    (ofDestination : edge.destination < graph.nodes.length) :
    printEdge plain () loaderId floatText getId graph edge =
      .ok (edgeText floatText getId graph edge) := by
  obtain ⟨_, atSource⟩ := @Named.printed _ _ _ floatText named ofSource
  obtain ⟨_, atDestination⟩ := @Named.printed _ _ _ floatText named ofDestination
  rw [printEdge, edgeText, ← atSource, ← atDestination, named_plain, loaderIdOf_plain,
    loaderIdOf_plain]
  rcases named.uniform with noId | integers | strings
  · rw [(noId _ ofSource).1, (noId _ ofDestination).1]
    rfl
  · obtain ⟨v, isInteger⟩ := integers _ ofSource
    obtain ⟨w, isOther⟩ := integers _ ofDestination
    rw [isInteger, isOther]
    rfl
  · obtain ⟨v, isString, _⟩ := strings _ ofSource
    obtain ⟨w, isOther, _⟩ := strings _ ofDestination
    rw [isString, isOther]
    rfl

theorem mapM_eq_ok {α β ε : Type} {step : α → Except ε β} {result : α → β} {list : List α}
    (all : ∀ a ∈ list, step a = .ok (result a)) : list.mapM step = .ok (list.map result) := by
  induction list with
  | nil => rfl
  | cons a list induction =>
      rw [List.forall_mem_cons] at all
      rw [List.mapM_cons, all.1, induction all.2]
      rfl

theorem yylex_nodes {more : List NodeRecord} (dumpable : Dumpable getId graph) {first : Nat}
    (part : ∀ node ∈ more.zipIdx first, graph.nodes[node.2]? = some node.1) :
    yylex (((more.zipIdx first).flatMap fun node =>
        printNode plain () loaderId floatText getId node.2 node.1) ++ rest) =
      ((more.zipIdx first).flatMap fun node =>
        nodeTokens (loaderKey getId graph node.2) node.1) ++ yylex rest := by
  induction more generalizing first with
  | nil => rfl
  | cons node more induction =>
      rw [List.zipIdx_cons, List.forall_mem_cons] at part
      obtain ⟨isNode, ofMore⟩ := part
      obtain ⟨inside, _⟩ := List.getElem?_eq_some_iff.mp isNode
      obtain ⟨ofId, printed⟩ := @Named.printed _ _ _ floatText dumpable.named inside
      obtain ⟨ofTag, ofList⟩ := dumpable.nodes node (List.mem_of_getElem? isNode)
      have isId : loaderProperty graph first = checkNamed node.properties loaderId := by
        rw [loaderProperty, isNode]
        rfl
      have isText : printNode plain () loaderId floatText getId first node =
          keyText (loaderKey getId graph first) ++ cStr (tagText node.tag) ++
            printPropertyList floatText (visible node) ++ [';', newline] := by
        rw [← printed, isId, printNode, named_plain, checkLoaderId_plain]
        rfl
      rw [List.zipIdx_cons, List.flatMap_cons, List.flatMap_cons, List.append_assoc, isText,
        yylex_node ofId ofTag ofList, induction ofMore, List.append_assoc]

theorem yylex_edges {more : List EdgeRecord} (dumpable : Dumpable getId graph)
    (part : ∀ edge ∈ more, edge ∈ graph.edges) :
    yylex (more.map (edgeText floatText getId graph)).flatten =
      more.flatMap fun edge => edgeTokens (loaderKey getId graph edge.source)
        (loaderKey getId graph edge.destination) edge := by
  induction more with
  | nil => rfl
  | cons edge more induction =>
      rw [List.forall_mem_cons] at part
      obtain ⟨ofTag, ofList, ofSource, ofDestination⟩ := dumpable.edges edge part.1
      obtain ⟨sourceId, _⟩ := @Named.printed _ _ _ floatText dumpable.named ofSource
      obtain ⟨destinationId, _⟩ := @Named.printed _ _ _ floatText dumpable.named ofDestination
      rw [List.map_cons, List.flatten_cons, List.flatMap_cons, edgeText,
        yylex_edge sourceId destinationId ofTag ofList, induction part.2]

/-- A statement for each node and for each edge. -/
def statements (getId : Nat → Nat) (graph : GraphRecord) : List (List Token × List Action) :=
  (graph.nodes.zipIdx.map fun node => (nodeTokens (loaderKey getId graph node.2) node.1,
    nodeActions (loaderKey getId graph node.2) node.1)) ++
  graph.edges.map fun edge =>
    (edgeTokens (loaderKey getId graph edge.source) (loaderKey getId graph edge.destination) edge,
      edgeActions (loaderKey getId graph edge.source) (loaderKey getId graph edge.destination) edge)

theorem derives_statements (dumpable : Dumpable getId graph) :
    Derives ((statements getId graph).flatMap Prod.fst)
      ((statements getId graph).flatMap Prod.snd) := by
  apply derives_flatMap
  · intro isNil
    obtain ⟨noNodes, _⟩ := List.append_eq_nil_iff.mp isNil
    rw [List.map_eq_nil_iff, List.zipIdx_eq_nil_iff] at noNodes
    exact dumpable.notEmpty noNodes
  · intro statement member
    rcases List.mem_append.mp member with ofNode | ofEdge
    · obtain ⟨node, inNodes, rfl⟩ := List.mem_map.mp ofNode
      exact derivesTx_node _ (dumpable.nodes node.1 (List.fst_mem_of_mem_zipIdx inNodes)).2.fits
    · obtain ⟨edge, inEdges, rfl⟩ := List.mem_map.mp ofEdge
      exact derivesTx_edge _ _ (dumpable.edges edge inEdges).2.1.fits

theorem run_statements (dumpable : Dumpable getId graph) (start : GraphRecord) :
    ∃ state, runAll plain ((statements getId graph).flatMap Prod.snd) (started plain () start) =
        (state, none) ∧
      state.committed = ⟨start.nodes ++ graph.nodes.map loadedNode,
        start.edges ++ graph.edges.map (loadedEdge start.nodes.length)⟩ ∧
      state.inTransaction = false := by
  have keys := dumpable.named.keys
  have initial : Between start (loaderKey getId graph) graph.nodes.length [] []
      (started plain () start) := by
    constructor
    · rw [List.append_nil, List.append_nil]
      rfl
    · rfl
    · rfl
    · rfl
    · intro place _
      exact isFor_start (.inl rfl)
    · intro place _
      cases loaderKey getId graph place <;> rfl
  obtain ⟨middle, nodesRun, ofMiddle⟩ := run_nodes keys initial (by simp) dumpable.nodes
  obtain ⟨state, edgesRun, ofState⟩ := run_edges keys ofMiddle (by simp) dumpable.edges
  refine ⟨state, ?_, ?_, ofState.closed⟩
  · rw [statements, List.flatMap_append, List.flatMap_map, List.flatMap_map]
    exact (runAll_append nodesRun).trans edgesRun
  · rw [ofState.committed, ofState.graph]
    rfl

/-- What is written for a graph is read as its statements. -/
theorem exists_dumpPmgd (dumpable : Dumpable getId graph) :
    ∃ text, dumpPmgd plain () floatText getId graph = .ok (text, ()) ∧
      yylex text = (statements getId graph).flatMap Prod.fst := by
  have edgeTexts : graph.edges.mapM (printEdge plain () loaderId floatText getId graph) =
      .ok (graph.edges.map (edgeText floatText getId graph)) := by
    apply mapM_eq_ok
    intro edge member
    obtain ⟨_, _, ofSource, ofDestination⟩ := dumpable.edges edge member
    exact printEdge_eq dumpable.named ofSource ofDestination
  refine ⟨(graph.nodes.zipIdx.flatMap fun node =>
    printNode plain () loaderId floatText getId node.2 node.1) ++
      (graph.edges.map (edgeText floatText getId graph)).flatten, ?_, ?_⟩
  · show (printGraph plain () loaderId floatText getId graph).map _ = _
    rw [printGraph, edgeTexts]
    rfl
  · rw [yylex_nodes dumpable (fun node member => List.mem_zipIdx_iff_getElem?.mp member),
      yylex_edges dumpable (fun edge member => member), statements, List.flatMap_append,
      List.flatMap_map, List.flatMap_map]

/-- The strings that a load of the text looks up, in their order. -/
def words (graph : GraphRecord) : List (List Char) :=
  (graph.nodes.flatMap fun node => (tagName node.tag).toList ++ (visible node).map Prod.fst) ++
    graph.edges.flatMap fun edge => (tagName edge.tag).toList ++ edge.properties.map Prod.fst

/-- A node by its tag and what `check_property` gives for each name. -/
def nodeView (node : NodeRecord) : List Char × (List Char → Option Property) :=
  (node.tag, checkNamed node.properties)

def edgeView (edge : EdgeRecord) : Nat × Nat × List Char × (List Char → Option Property) :=
  (edge.source, edge.destination, edge.tag, checkNamed edge.properties)

/-! ## What comes back unchanged -/

/-- A value that its text keeps. -/
def Kept : Property → Prop
  | .string v => ∀ byte ∈ v, byte.toNat ≠ 92
  | .blob _ => False
  | _ => True

theorem loadedValue_eq_iff : loadedValue value = value ↔ Kept value := by
  cases value with
  | string v =>
      rw [loadedValue, Property.string.injEq, List.filter_eq_self]
      exact forall₂_congr fun byte _ => decide_eq_true_iff
  | blob v => exact iff_of_false (fun same => by cases same) id
  | noValue => exact iff_of_true rfl trivial
  | boolean v => exact iff_of_true rfl trivial
  | integer v => exact iff_of_true rfl trivial
  | float v => exact iff_of_true rfl trivial
  | time v => exact iff_of_true rfl trivial

theorem checkNamed_loaded (properties : List (List Char × Property)) (name : List Char) :
    checkNamed (properties.map loadedProperty) name =
      (checkNamed properties name).map loadedValue := by
  induction properties with
  | nil => rfl
  | cons property properties induction =>
      obtain ⟨first, value⟩ := property
      rw [List.map_cons, loadedProperty, checkNamed_cons, checkNamed_cons, induction]
      split_ifs <;> rfl

theorem checkNamed_of_mem (distinct : (properties.map Prod.fst).Nodup)
    (member : property ∈ properties) : checkNamed properties property.1 = some property.2 := by
  induction properties with
  | nil => cases member
  | cons first properties induction =>
      rw [List.map_cons, List.nodup_cons] at distinct
      rw [checkNamed_cons]
      rcases List.mem_cons.mp member with rfl | behind
      · rw [if_pos rfl]
      · have other : property.1 ≠ first.1 := by
          intro same
          exact distinct.1 (same ▸ List.mem_map_of_mem behind)
        rw [if_neg other]
        exact induction distinct.2 behind

/-- A list of properties is the same after its way through text if all of its values are. -/
theorem checkNamed_loaded_eq_iff (distinct : (properties.map Prod.fst).Nodup) :
    checkNamed (properties.map loadedProperty) = checkNamed properties ↔
      ∀ property ∈ properties, Kept property.2 := by
  constructor
  · intro same property member
    have found := checkNamed_of_mem distinct member
    have atName := congrFun same property.1
    rw [checkNamed_loaded, found] at atName
    exact loadedValue_eq_iff.mp (Option.some.inj atName)
  · intro kept
    have all : properties.map loadedProperty = properties.map id :=
      List.map_congr_left fun property member =>
        congrArg (Prod.mk property.1) (loadedValue_eq_iff.mpr (kept property member))
    rw [all, List.map_id]

/-! ## A graph with three properties -/

/-- Two persons who know each other. -/
def twoPersons : GraphRecord where
  nodes := [⟨"Person".toList, [("name".toList, .string [65, 34, 66]),
      ("born".toList, .time (Time.ofTm Tm.timegm 0 Time.marchTm 250000 5 30))]⟩,
    ⟨"Person".toList, []⟩]
  edges := [⟨0, 1, "knows".toList, [("years".toList, .integer 7)]⟩]

theorem isName_of_letter {c : Char} (member : c ∈ name) (letter : isNumberChar c = false)
    (chars : name.all isNameChar = true) (notTrue : name ≠ "true".toList)
    (notFalse : name ≠ "false".toList) (notColon : name ≠ [':']) : IsName name where
  notEmpty := List.ne_nil_of_mem member
  chars := List.all_eq_true.mp chars
  notTrue := notTrue
  notFalse := notFalse
  notColon := notColon
  notNumber := by
    intro isNumber
    have ofNumber := onlyOf_number.forall_mem isNumber c member
    rw [letter] at ofNumber
    cases ofNumber

theorem dumpable_twoPersons : Dumpable (· + 1) twoPersons where
  notEmpty := List.cons_ne_nil _ _
  named := by
    have places : ∀ place < 2, loaderProperty twoPersons place = none := by decide
    have small : ∀ place < 2, place + 1 < 2 ^ 63 := fun place inside =>
      Nat.lt_of_lt_of_le (Nat.succ_lt_succ inside) (by decide)
    refine ⟨.inl fun place inside => ⟨places place inside, small place inside⟩,
      fun place inside other isOther same => ?_⟩
    rw [loaderKey, loaderKey, places place inside, places other isOther] at same
    have equal : ((place + 1 : Nat) : Int) = (other + 1 : Nat) := LoaderId.integer.inj same
    omega
  nodes := by
    have person : IsName "Person".toList :=
      isName_of_letter (c := 'P') (by decide) rfl rfl (by decide) (by decide) (by decide)
    have empty : LoadableList [] :=
      ⟨List.forall_mem_nil _, List.forall_mem_nil _, List.nodup_nil, by decide⟩
    refine List.forall_mem_cons.mpr ⟨⟨.inr person, ?_⟩, List.forall_mem_singleton.mpr
      ⟨.inr person, empty⟩⟩
    constructor
    · refine List.forall_mem_cons.mpr ⟨?_, List.forall_mem_singleton.mpr ?_⟩
      · exact isName_of_letter (c := 'n') (by decide) rfl rfl (by decide) (by decide) (by decide)
      · exact isName_of_letter (c := 'o') (by decide) rfl rfl (by decide) (by decide) (by decide)
    · refine List.forall_mem_cons.mpr ⟨?_, List.forall_mem_singleton.mpr ?_⟩
      · exact List.forall_mem_cons.mpr ⟨by decide, List.forall_mem_cons.mpr
          ⟨by decide, List.forall_mem_singleton.mpr (by decide)⟩⟩
      · exact ⟨Time.normal_march, by decide, by decide⟩
    · decide
    · decide
  edges := by
    refine List.forall_mem_singleton.mpr ⟨.inr ?_, ?_, by decide, by decide⟩
    · exact isName_of_letter (c := 'k') (by decide) rfl rfl (by decide) (by decide) (by decide)
    · constructor
      · exact List.forall_mem_singleton.mpr
          (isName_of_letter (c := 'y') (by decide) rfl rfl (by decide) (by decide) (by decide))
      · exact List.forall_mem_singleton.mpr trivial
      · exact List.nodup_singleton _
      · decide

end Loader

end Pmgd
