import Pmgd.StringIds
import Pmgd.TextNames

/-!
# Dumping and loading a database

The tags and property names of a database are ids of its string table.  A look-up of the table
ends at the string itself if no longer string is on its way, and other names stay what they are;
then what a text says about the strings holds of the databases.
-/

namespace Pmgd

open Scanner Dump Loader ByteMemory LabelledRun

namespace StringTable

variable {table : StringTable} {pm next : Memory} {history : List (Outcome table)}
  {word : List Char} {id : Nat}

/-- `StringID::get` with `add`; a name that is not in the table needs a transaction that may
write. -/
def stringId (table : StringTable) (readOnly : Bool) (text : List Char) (pm : Memory) :
    Except StringIDError (Nat × Memory) :=
  if text = [] then .ok (0, pm)
  else match table.get pm (textBytes text) true with
    | .error .invalidID => .error .invalidID
    | .ok none => .error .endless
    | .ok (some (found, id, next)) =>
        if readOnly && !found then .error .readOnly else .ok (id, next)

/-- `StringID::name`. -/
def nameOf (table : StringTable) (pm : Memory) (id : Nat) : List Char :=
  byteText (table.getName pm id)

/-- The ids of a string table. -/
def naming (table : StringTable) (readOnly : Bool) : Naming Nat Memory where
  noName := 0
  stringId := table.stringId readOnly
  name := table.nameOf

/-- The table after a look-up. -/
def addWord (table : StringTable) (pm : Memory) (word : List Char) : Option Memory :=
  (table.stringId false word pm).toOption.map Prod.snd

/-- The word is a name of the table, and the loop for it ends, at a slot other than 0 and not at a
longer string. -/
def Resolves (table : StringTable) (pm : Memory) (word : List Char) : Prop :=
  ∃ name : Name table, byteText name.bytes = word ∧ table.HasEnd pm name.bytes ∧
    PrefixFree ⟨pm, []⟩ ⟨name, true⟩ ∧ ¬ table.ComesToZero pm name.bytes

/-- The ids that were given to names, and the one for no name. -/
def Known (history : List (Outcome table)) (id : Nat) : Prop :=
  id = 0 ∨ ∃ outcome ∈ history, outcome.add = true ∧ outcome.id = id

/-- Every name in the table has an id of its own other than 0, and the offsets have 32 bits. -/
structure Faithful (table : StringTable) (pm : Memory) (history : List (Outcome table)) :
    Prop where
  small : table.lenBits + table.numHashBits ≤ 32
  consistent : Consistent (⟨pm, history⟩ : State table)
  zeroFree : pm (table.offset 0) = 0

/-- What a look-up of a word does. -/
structure LookedUp (table : StringTable) (pm : Memory) (history : List (Outcome table))
    (word : List Char) (outcome : Outcome table) (next : Memory) : Prop where
  added : outcome.add = true
  result : ∀ readOnly, table.stringId readOnly word pm =
    if readOnly && !outcome.found then .error .readOnly else .ok (outcome.id, next)
  faithful : Faithful table next (outcome :: history)
  isName : table.nameOf next outcome.id = word
  kept : ∀ id, Known history id → table.nameOf next id = table.nameOf pm id
  absent : outcome.found = false → ∀ id, Known history id → table.nameOf pm id ≠ word

theorem Name.byteText_ne_nil (name : Name table) : byteText name.bytes ≠ [] :=
  fun isNil => name.nonempty (List.map_eq_nil_iff.mp isNil)

theorem getName_of_free {hash : Nat} (free : pm (table.offset hash) = 0) :
    table.getName pm hash = [] := by
  obtain ⟨size, isSize⟩ := Nat.exists_eq_add_one.mpr (show 0 < table.maxStringidLen from
    Nat.two_pow_pos _)
  rw [getName, isSize, readString, if_pos free]

theorem Faithful.nameOf_zero (faithful : Faithful table pm history) : table.nameOf pm 0 = [] := by
  rw [nameOf, getName_of_free faithful.zeroFree]
  rfl

theorem Faithful.nameOf_eq (faithful : Faithful table pm history) {outcome : Outcome table}
    (member : outcome ∈ history) (added : outcome.add = true) :
    table.nameOf pm outcome.id = byteText outcome.name.bytes :=
  congrArg byteText (faithful.consistent.isBijection.2 outcome member added)

theorem Faithful.nameOf_injective (faithful : Faithful table pm history) (first second : Nat)
    (ofFirst : Known history first) (ofSecond : Known history second)
    (same : table.nameOf pm first = table.nameOf pm second) : first = second := by
  rcases ofFirst with rfl | ⟨outcome, member, added, rfl⟩ <;>
    rcases ofSecond with rfl | ⟨other, isOther, otherAdded, rfl⟩
  · rfl
  · rw [faithful.nameOf_zero, faithful.nameOf_eq isOther otherAdded] at same
    exact absurd same.symm other.name.byteText_ne_nil
  · rw [faithful.nameOf_zero, faithful.nameOf_eq member added] at same
    exact absurd same outcome.name.byteText_ne_nil
  · rw [faithful.nameOf_eq member added, faithful.nameOf_eq isOther otherAdded] at same
    have sameName : outcome.name = other.name := Name.ext_bytes (byteText_injective same)
    obtain ⟨k, ends, isId, _⟩ := faithful.consistent.stored outcome member added
    have stored := faithful.consistent.stored other isOther otherAdded
    rw [← sameName] at stored
    exact isId.trans (stored.of_firstStop ends).1.symm

/-- The offset of a slot other than 0 is not that of slot 0. -/
theorem offset_ne_zero (small : table.lenBits + table.numHashBits ≤ 32)
    (inTable : id < 2 ^ table.numHashBits) (notZero : id ≠ 0) :
    table.offset id ≠ table.offset 0 := by
  have bound : id * 2 ^ table.lenBits < 2 ^ 32 := by
    calc id * 2 ^ table.lenBits < 2 ^ table.numHashBits * 2 ^ table.lenBits :=
          Nat.mul_lt_mul_of_pos_right inTable (Nat.two_pow_pos _)
      _ = 2 ^ (table.lenBits + table.numHashBits) := by rw [← Nat.pow_add, Nat.add_comm]
      _ ≤ 2 ^ 32 := Nat.pow_le_pow_right (by decide) small
  rw [offset, offset, maxStringidLen, Nat.zero_mul, Nat.zero_mod, Nat.mod_eq_of_lt bound]
  exact Nat.mul_ne_zero notZero (Nat.two_pow_pos _).ne'

theorem Faithful.lookUp (faithful : Faithful table pm history) (resolves : table.Resolves pm word) :
    ∃ outcome next, LookedUp table pm history word outcome next := by
  obtain ⟨name, rfl, hasEnd, prefixFree, notZero⟩ := resolves
  obtain ⟨⟨found, id⟩, searched⟩ :=
    Option.isSome_iff_exists.mp (search_ends name.noNul name.length_le hasEnd)
  have idNotZero : id ≠ 0 :=
    mt (search_eq_zero_iff name.noNul name.length_le searched).mp notZero
  obtain ⟨last, ends, isId, isFree⟩ := search_spec (k := 0) name.noNul name.length_le
    (fun i impossible => absurd impossible i.not_lt_zero) searched
  let next := if found then pm else store pm (table.offset id) name.bytes
  have isGet : table.get pm name.bytes true = .ok (some (found, id, next)) := by
    rw [get, if_neg (Nat.not_lt.mpr name.length_le), searched]
    cases found <;> rfl
  have stepped : step table ⟨pm, history⟩ ⟨name, true⟩ =
      some ⟨next, ⟨name, true, found, id⟩ :: history⟩ := by
    rw [step]
    dsimp only
    rw [isGet]
  have zeroFree : next (table.offset 0) = 0 := by
    cases found with
    | true => exact faithful.zeroFree
    | false =>
        have different := offset_ne_zero faithful.small (isId ▸ table.probe_lt name.bytes last)
          idNotZero
        have disjoint := table.offset_disjoint different
        have short := name.length_le
        have positive : 0 < table.maxStringidLen := Nat.two_pow_pos _
        exact (store_outside (by omega)).trans faithful.zeroFree
  have faithfulNext : Faithful table next (⟨name, true, found, id⟩ :: history) :=
    ⟨faithful.small, faithful.consistent.step prefixFree stepped, zeroFree⟩
  refine ⟨⟨name, true, found, id⟩, next, rfl, fun readOnly => ?_, faithfulNext,
    faithfulNext.nameOf_eq List.mem_cons_self rfl, ?_, ?_⟩
  · rw [stringId, if_neg name.byteText_ne_nil, textBytes_byteText, isGet]
  · rintro other (rfl | ⟨outcome, member, added, rfl⟩)
    · rw [faithfulNext.nameOf_zero, faithful.nameOf_zero]
    · rw [faithful.nameOf_eq member added,
        faithfulNext.nameOf_eq (List.mem_cons_of_mem _ member) added]
  · rintro notFound other (rfl | ⟨outcome, member, added, rfl⟩) same
    · rw [faithful.nameOf_zero] at same
      exact name.byteText_ne_nil same.symm
    · rw [faithful.nameOf_eq member added] at same
      rw [isId] at isFree
      exact faithful.consistent.name_ne_of_free ends (isFree.mp notFound) outcome member added
        (Name.ext_bytes (byteText_injective same))

/-- A name whose loop ends at its first slot. -/
def EndsAtOnce (table : StringTable) (pm : Memory) (word : List Char) : Prop :=
  byteText (textBytes word) = word ∧ textBytes word ≠ [] ∧ 0 ∉ textBytes word ∧
    (textBytes word).length ≤ table.maxStringidLen ∧ table.hashFnv1a (textBytes word) ≠ 0 ∧
    (pm (table.offset (table.hashFnv1a (textBytes word))) = 0 ∨
      table.getName pm (table.hashFnv1a (textBytes word)) = textBytes word)

instance (table : StringTable) (pm : Memory) (word : List Char) :
    Decidable (table.EndsAtOnce pm word) :=
  inferInstanceAs (Decidable (_ ∧ _ ∧ _ ∧ _ ∧ _ ∧ (_ ∨ _)))

theorem resolves_of_endsAtOnce (endsAtOnce : table.EndsAtOnce pm word) :
    table.Resolves pm word := by
  obtain ⟨isText, nonempty, noNul, short, notZero, ends⟩ := endsAtOnce
  have inTable := table.probe_lt (textBytes word) 0
  rw [probe] at inTable
  have endsAt : table.EndsAt pm (textBytes word) (table.hashFnv1a (textBytes word)) := by
    refine ends.imp_right fun isName => ?_
    rw [isName]
  refine ⟨⟨textBytes word, nonempty, noNul, short⟩, isText, ⟨_, inTable, endsAt⟩, ?_, ?_⟩
  · intro k occupied _
    exact ⟨0, Nat.zero_le k, ends.resolve_left (occupied 0 (Nat.zero_le k))⟩
  · rintro ⟨_, _, startsAtZero | passes⟩
    · exact notZero startsAtZero
    · exact passes _ inTable (Nat.le_refl _) endsAt

end StringTable

namespace Loader

/-! ## The loader with a string table -/

section Run

variable {table : StringTable} {history : List (StringTable.Outcome table)}
  {state : State Nat Memory} {actions : List Action} {throws : Nat → Option Nat}

open StringTable

/-- The state, with the strings for its ids. -/
def State.view (table : StringTable) (state : State Nat Memory) : State (List Char) Unit :=
  state.renamed (table.nameOf state.names)

/-- All ids of a state are ids of names, each of which has its own. -/
structure State.Tracks (table : StringTable) (history : List (Outcome table))
    (state : State Nat Memory) : Prop where
  faithful : Faithful table state.names history
  allKnown : state.Over (Known history)

theorem known_cons {outcome : Outcome table} (id : Nat) (known : Known history id) :
    Known (outcome :: history) id := by
  rcases known with isZero | ⟨other, member, rest⟩
  · exact .inl isZero
  · exact .inr ⟨other, List.mem_cons_of_mem _ member, rest⟩

/-- What the look-up of a string leaves of a state. -/
theorem State.Tracks.toId (tracks : state.Tracks table history) {text : List Char}
    (resolves : table.Resolves state.names (cStr text)) :
    ∃ history id next, toId (table.naming false) text state = .ok (id, next) ∧
      State.Tracks table history { state with names := next } ∧ Known history id ∧
      table.nameOf next id = cStr text ∧
      State.view table { state with names := next } = state.view table ∧
      table.addWord state.names (cStr text) = some next := by
  obtain ⟨outcome, next, lookedUp⟩ := tracks.faithful.lookUp resolves
  have result : table.stringId false (cStr text) state.names = .ok (outcome.id, next) :=
    lookedUp.result false
  have allKnown : State.Over (Known history) { state with names := next } :=
    ⟨tracks.allKnown.graph, tracks.allKnown.committed, tracks.allKnown.tag,
      tracks.allKnown.propertyId⟩
  refine ⟨outcome :: history, outcome.id, next, ?_, ⟨lookedUp.faithful, allKnown.mono known_cons⟩,
    .inr ⟨outcome, List.mem_cons_self, lookedUp.added, rfl⟩, lookedUp.isName,
    State.renamed_congr allKnown lookedUp.kept, ?_⟩
  · show (table.stringId false (cStr text) state.names).mapError _ = _
    rw [result]
    rfl
  · rw [addWord, result]
    rfl

/-- One action: what it does to the ids is what it does to the strings. -/
theorem act_view {failure : Option Nat} {action : Action} (tracks : state.Tracks table history)
    (resolves : ∀ word ∈ wordOf action, table.Resolves state.names word) :
    act plain failure action (state.view table) =
        (act (table.naming false) failure action state).map (State.view table) ∧
      ∀ next, act (table.naming false) failure action state = .ok next →
        (∃ history, next.Tracks table history) ∧
          match wordOf action with
          | none => next.names = state.names
          | some word => table.addWord state.names word = some next.names := by
  have ofNoWord (noWord : wordOf action = none) :
      act plain failure action (state.view table) =
          (act (table.naming false) failure action state).map (State.view table) ∧
        ∀ next, act (table.naming false) failure action state = .ok next →
          (∃ history, next.Tracks table history) ∧ next.names = state.names := by
    have same := @act_renamed _ _ _ _ _ state failure action _ _ (table.naming false) plain
      tracks.faithful.nameOf_injective tracks.faithful.nameOf_zero tracks.allKnown noWord
    have ofNext (next : State Nat Memory)
        (isNext : act (table.naming false) failure action state = .ok next) :=
      @over_of_act _ _ (Known history) state failure action _ (table.naming false) next (.inl rfl)
        tracks.allKnown noWord isNext
    constructor
    · rw [State.view, same]
      cases isNext : act (table.naming false) failure action state with
      | error error => rfl
      | ok next =>
          refine congrArg Except.ok ?_
          rw [State.view, (ofNext next isNext).2]
    · intro next isNext
      obtain ⟨allKnown, names⟩ := ofNext next isNext
      exact ⟨⟨history, names ▸ tracks.faithful, allKnown⟩, names⟩
  cases action with
  | tag text =>
      cases text with
      | none => exact ofNoWord rfl
      | some text =>
          obtain ⟨history, id, names, found, ofNext, ofId, isName, sameView, added⟩ :=
            tracks.toId (resolves _ rfl)
          have isText : toId plain text (state.view table) = .ok (cStr text, ()) := rfl
          rw [act, act, found, isText, ← isName, ← sameView]
          refine ⟨rfl, fun next isNext => ?_⟩
          obtain rfl := Except.ok.inj isNext
          exact ⟨⟨history, ofNext.faithful, ofNext.allKnown.graph, ofNext.allKnown.committed, ofId,
            ofNext.allKnown.propertyId⟩, added⟩
  | propertyId text =>
      obtain ⟨history, id, names, found, ofNext, ofId, isName, sameView, added⟩ :=
        tracks.toId (resolves _ rfl)
      have isText : toId plain text (state.view table) = .ok (cStr text, ()) := rfl
      rw [act, act, found, isText, ← isName, ← sameView]
      refine ⟨rfl, fun next isNext => ?_⟩
      obtain rfl := Except.ok.inj isNext
      exact ⟨⟨history, ofNext.faithful, ofNext.allKnown.graph, ofNext.allKnown.committed,
        ofNext.allKnown.tag, ofId⟩, added⟩
  | begin => exact ofNoWord rfl
  | node id => exact ofNoWord rfl
  | setProperty value => exact ofNoWord rfl
  | addEdge tagged => exact ofNoWord rfl
  | commit => exact ofNoWord rfl

/-- A run of the actions, whatever the database throws in it. -/
theorem run_view {number : Nat} (tracks : state.Tracks table history)
    (resolves : MeetsAlong table.addWord table.Resolves state.names (actions.filterMap wordOf)) :
    ∃ history last error, run (table.naming false) throws number actions state = (last, error) ∧
      last.Tracks table history ∧
      run plain throws number actions (state.view table) = (last.view table, error) ∧
      (error = none → LabelledRun.run table.addWord state.names (actions.filterMap wordOf) =
        some last.names) := by
  induction actions generalizing state history number with
  | nil => exact ⟨history, state, none, rfl, tracks, rfl, fun _ => rfl⟩
  | cons action actions induction =>
      have resolvesFirst : ∀ word ∈ wordOf action, table.Resolves state.names word := by
        intro word isWord
        rw [List.filterMap_cons_some isWord] at resolves
        exact resolves.1
      obtain ⟨same, ofNext⟩ := @act_view _ _ state (throws number) action tracks resolvesFirst
      rw [run, run, same]
      cases isNext : act (table.naming false) (throws number) action state with
      | error error =>
          exact ⟨history, state, some error, rfl, tracks, rfl,
            fun isNone => absurd isNone (Option.some_ne_none error)⟩
      | ok next =>
          obtain ⟨⟨history, tracksNext⟩, names⟩ := ofNext next isNext
          cases isWord : wordOf action with
          | none =>
              rw [isWord] at names
              rw [List.filterMap_cons_none isWord] at resolves ⊢
              rw [← names] at resolves ⊢
              exact induction tracksNext resolves
          | some word =>
              rw [isWord] at names
              rw [List.filterMap_cons_some isWord] at resolves ⊢
              rw [run_cons_of_step _ names]
              exact induction tracksNext (resolves.2 next.names names)

end Run

end Loader

/-! ## Databases -/

/-- The string table of a database, and its graph. -/
structure Database where
  table : StringTable
  pm : Memory
  graph : GraphOf Nat

namespace Database

open StringTable

/-- The graph, with the strings for its ids. -/
def view (db : Database) : GraphRecord :=
  db.graph.renamed (db.table.nameOf db.pm)

/-- Every id in the graph is that of a name, and every name has an id of its own. -/
structure Sound (db : Database) : Prop where
  exists_history : ∃ history, Faithful db.table db.pm history ∧ db.graph.Over (Known history)

def dump (db : Database) (readOnly : Bool) (floatText : BitVec 64 → List Char)
    (getId : Nat → Nat) : Except DumpError (List Char × Memory) :=
  dumpPmgd (db.table.naming readOnly) db.pm floatText getId db.graph

def load (db : Database) (parser : Parser) (throws : Nat → Option Nat) (text : List Char) :
    State Nat Memory × Option LoaderError :=
  Loader.load (db.table.naming false) parser throws db.pm db.graph text

/-- The database after a load, with what was committed; the string table keeps its names. -/
def after (db : Database) (state : State Nat Memory) : Database :=
  ⟨db.table, state.names, state.committed⟩

/-- A new database. -/
def created : Database :=
  ⟨defaultTable, fun _ => 0, ⟨[], []⟩⟩

theorem sound_created : created.Sound where
  exists_history := ⟨[], ⟨by decide, consistent_created _, rfl⟩,
    List.forall_mem_nil _, List.forall_mem_nil _⟩

variable {db source target : Database} {parser : Parser} {throws : Nat → Option Nat}
  {text : List Char} {readOnly : Bool} {floatText : BitVec 64 → List Char} {getId : Nat → Nat}

/-- Whatever a text is and whatever the database throws, a load does to the ids what it does to the
strings. -/
theorem load_view (sound : db.Sound)
    (resolves : MeetsAlong db.table.addWord db.table.Resolves db.pm
      ((parser.yyparse (yylex text)).1.filterMap wordOf)) :
    ∃ state error, db.load parser throws text = (state, error) ∧ (db.after state).Sound ∧
      Loader.load plain parser throws () db.view text = (state.view db.table, error) ∧
      (error = none → LabelledRun.run db.table.addWord db.pm
        ((parser.yyparse (yylex text)).1.filterMap wordOf) = some state.names) := by
  obtain ⟨history, faithful, allKnown⟩ := sound.exists_history
  have tracks : State.Tracks db.table history
      (started (db.table.naming false) db.pm db.graph) :=
    ⟨faithful, allKnown, allKnown, .inl rfl, .inl rfl⟩
  obtain ⟨history, last, error, isRun, tracksLast, isTextRun, looksUp⟩ :=
    @run_view _ _ _ _ throws 0 tracks resolves
  have isStart : State.view db.table (started (db.table.naming false) db.pm db.graph) =
      started plain () db.view := by
    have noName : db.table.nameOf db.pm 0 = [] := faithful.nameOf_zero
    show State.mk () db.view db.view false .unset (db.table.nameOf db.pm 0)
      (db.table.nameOf db.pm 0) none [] = _
    rw [noName]
    rfl
  rw [isStart] at isTextRun
  have soundLast : (db.after last).Sound :=
    ⟨history, tracksLast.faithful, tracksLast.allKnown.committed⟩
  cases error with
  | some error =>
      refine ⟨last, some error, ?_, soundLast, ?_,
        fun isNone => absurd isNone (Option.some_ne_none error)⟩
      · rw [load, Loader.load]
        dsimp only
        rw [isRun]
      · rw [Loader.load]
        dsimp only
        rw [isTextRun]
  | none =>
      refine ⟨last, (parser.yyparse (yylex text)).2, ?_, soundLast, ?_, fun _ => looksUp rfl⟩
      · rw [load, Loader.load]
        dsimp only
        rw [isRun]
      · rw [Loader.load]
        dsimp only
        rw [isTextRun]

/-- A node whose transaction does not commit. -/
theorem load_view_person :
    ∃ state error, created.load descent (fun number => if number = 3 then some 7 else none)
        "1 #Person;".toList = (state, error) ∧ (created.after state).Sound ∧
      Loader.load plain descent (fun number => if number = 3 then some 7 else none) ()
        created.view "1 #Person;".toList = (state.view created.table, error) ∧
      (error = none → LabelledRun.run created.table.addWord created.pm
        ((descent.yyparse (yylex "1 #Person;".toList)).1.filterMap wordOf) = some state.names) := by
  have endsAtOnce : MeetsAlong created.table.addWord created.table.EndsAtOnce created.pm
      ((descent.yyparse (yylex "1 #Person;".toList)).1.filterMap wordOf) := by
    decide
  exact load_view sound_created (endsAtOnce.mono fun _ _ => resolves_of_endsAtOnce)

/-- The id that a look-up gives is that of no other name. -/
theorem isLoaderId_of_lookedUp {table : StringTable} {pm next : Memory}
    {history : List (Outcome table)} {outcome : Outcome table} {properties : List (Nat × Property)}
    (lookedUp : LookedUp table pm history loaderId outcome next)
    (allKnown : ∀ property ∈ properties, Known history property.1) :
    IsLoaderId (table.naming readOnly) next outcome.id properties := by
  constructor
  · intro property member
    show _ ↔ table.nameOf next property.1 = loaderId
    rw [← lookedUp.isName]
    exact ⟨congrArg _, lookedUp.faithful.nameOf_injective _ _
      (known_cons _ (allKnown property member))
      (.inr ⟨outcome, List.mem_cons_self, lookedUp.added, rfl⟩)⟩
  · intro isZero
    have isName := lookedUp.isName
    rw [isZero] at isName
    exact absurd (lookedUp.faithful.nameOf_zero.symm.trans isName) (by decide)

/-- If the string is not in the table, no property has it. -/
theorem isLoaderId_zero {table : StringTable} {pm : Memory} {history : List (Outcome table)}
    {properties : List (Nat × Property)} (faithful : Faithful table pm history)
    (absent : ∀ id, Known history id → table.nameOf pm id ≠ loaderId)
    (allKnown : ∀ property ∈ properties, Known history property.1)
    (named : ∀ property ∈ properties, table.nameOf pm property.1 ≠ []) :
    IsLoaderId (table.naming readOnly) pm 0 properties := by
  have notZero : ∀ property ∈ properties, property.1 ≠ 0 := by
    intro property member isZero
    apply named property member
    rw [isZero, faithful.nameOf_zero]
  exact ⟨fun property member => iff_of_false (notZero property member)
    (absent _ (allKnown property member)), fun _ => notZero⟩

/-- What a dump writes for the ids is what it writes for the strings. -/
theorem dump_view (sound : db.Sound) (resolves : db.table.Resolves db.pm loaderId)
    (named : ∀ node ∈ db.view.nodes, ∀ property ∈ node.properties, property.1 ≠ []) :
    ∃ names, db.dump readOnly floatText getId =
      (dumpPmgd plain () floatText getId db.view).map fun result => (result.1, names) := by
  obtain ⟨history, faithful, allKnown⟩ := sound.exists_history
  obtain ⟨outcome, next, lookedUp⟩ := faithful.lookUp resolves
  have isPlain : dumpPmgd plain () floatText getId db.view =
      (printGraph plain () loaderId floatText getId db.view).map fun text => (text, ()) := rfl
  have result : (db.table.naming readOnly).stringId loaderId db.pm =
      if readOnly && !outcome.found then .error .readOnly else .ok (outcome.id, next) :=
    lookedUp.result readOnly
  rw [dump, dumpPmgd, result, isPlain]
  split_ifs with unknown
  · have notFound : outcome.found = false :=
      Bool.not_eq_true' _ |>.mp ((Bool.and_eq_true _ _).mp unknown).2
    have printed := @printGraph_renamed _ _ _ _ (db.table.naming readOnly) db.pm 0 floatText getId
      fun node member => isLoaderId_zero faithful (lookedUp.absent notFound)
        (allKnown.nodes node member).2 fun property inNode =>
          named _ (List.mem_map_of_mem member) _ (List.mem_map_of_mem inNode)
    have sameView : db.graph.renamed ((db.table.naming readOnly).name db.pm) = db.view := rfl
    refine ⟨db.pm, ?_⟩
    show (printGraph (db.table.naming readOnly) db.pm 0 floatText getId db.graph).map _ = _
    rw [printed, sameView]
    cases printGraph plain () loaderId floatText getId db.view <;> rfl
  · have printed := @printGraph_renamed _ _ _ _ (db.table.naming readOnly) next outcome.id floatText
      getId fun node member => isLoaderId_of_lookedUp lookedUp (allKnown.nodes node member).2
    have sameView : db.graph.renamed ((db.table.naming readOnly).name next) = db.view :=
      GraphOf.renamed_congr allKnown lookedUp.kept
    refine ⟨next, ?_⟩
    show (printGraph (db.table.naming readOnly) next outcome.id floatText getId db.graph).map _ = _
    rw [printed, sameView]
    cases printGraph plain () loaderId floatText getId db.view <;> rfl

end Database

end Pmgd
