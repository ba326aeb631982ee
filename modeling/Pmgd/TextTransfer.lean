import Mathlib.Data.List.Forall2
import Mathlib.Logic.Relation
import Pmgd.TextDatabase
import Pmgd.TextReload

/-!
# From one database to another

A text that was dumped from one database is loaded into another one, whose string table gives other
ids to the same strings.  The graph that comes back is the one that the text keeps, and it stays
the same through any number of databases.
-/

namespace Pmgd

open Scanner Dump Loader ByteMemory LabelledRun

namespace Database

variable {db source target next loaded last : Database} {parser : Parser}
  {throws : Nat → Option Nat} {readOnly : Bool} {floatText : BitVec 64 → List Char}
  {getId : Nat → Nat}

/-! ## The round trip -/

theorem wordOf_tag {tag : List Char} (loadable : LoadableTag tag) :
    wordOf (.tag (tagName tag)) = tagName tag := by
  rw [tagName]
  split_ifs with isNil
  · rw [wordOf, cStr_of_isName (loadable.resolve_left isNil)]
  · rfl

theorem words_listActions {properties : List (List Char × Property)}
    (loadable : LoadableList properties) :
    (listActions properties).filterMap wordOf = properties.map Prod.fst := by
  have names := loadable.names
  clear loadable
  induction properties with
  | nil => rfl
  | cons property properties induction =>
      rw [List.forall_mem_cons] at names
      have isWord : wordOf (.propertyId property.1) = some property.1 := by
        rw [wordOf, cStr_of_isName names.1]
      rw [listActions, List.flatMap_cons, List.cons_append, List.filterMap_cons_some isWord,
        List.cons_append, List.filterMap_cons_none rfl, List.nil_append, ← listActions,
        induction names.2, List.map_cons]

/-- The strings that are looked up for the statements of a graph. -/
theorem words_statements {graph : GraphRecord} (dumpable : Dumpable getId graph) :
    ((statements getId graph).flatMap Prod.snd).filterMap wordOf = words graph := by
  have ofNode (id : LoaderId) : ∀ node ∈ graph.nodes, (nodeActions id node).filterMap wordOf =
      (tagName node.tag).toList ++ (visible node).map Prod.fst := by
    intro node member
    obtain ⟨ofTag, ofList⟩ := dumpable.nodes node member
    rw [nodeActions]
    simp only [List.filterMap_cons, List.filterMap_append, words_listActions ofList]
    rw [wordOf_tag ofTag]
    cases tagName node.tag <;> simp [wordOf]
  have ofEdge (source destination : LoaderId) : ∀ edge ∈ graph.edges,
      (edgeActions source destination edge).filterMap wordOf =
        (tagName edge.tag).toList ++ edge.properties.map Prod.fst := by
    intro edge member
    obtain ⟨ofTag, ofList, _⟩ := dumpable.edges edge member
    rw [edgeActions]
    simp only [List.filterMap_cons, List.filterMap_append, words_listActions ofList]
    rw [wordOf_tag ofTag]
    cases tagName edge.tag <;> simp [wordOf]
  have ofNodes : (graph.nodes.zipIdx.flatMap fun node =>
      (nodeActions (loaderKey getId graph node.2) node.1).filterMap wordOf) =
        graph.nodes.flatMap fun node =>
          (tagName node.tag).toList ++ (visible node).map Prod.fst := by
    have places : graph.nodes = graph.nodes.zipIdx.map Prod.fst := List.zipIdx_map_fst 0 _ |>.symm
    conv_rhs => rw [places]
    rw [List.flatMap_map]
    exact List.flatMap_congr fun node member =>
      ofNode _ node.1 (List.fst_mem_of_mem_zipIdx member)
  rw [statements, List.flatMap_append, List.flatMap_map, List.flatMap_map, List.filterMap_append,
    List.filterMap_flatMap, List.filterMap_flatMap, ofNodes, words]
  exact congrArg _ (List.flatMap_congr fun edge member => ofEdge _ _ edge member)

/-- Every property of a graph that can be dumped has a name. -/
theorem ne_nil_of_dumpable {graph : GraphRecord} (dumpable : Dumpable getId graph) :
    ∀ node ∈ graph.nodes, ∀ property ∈ node.properties, property.1 ≠ [] := by
  intro node member property inNode
  by_cases isId : property.1 = loaderId
  · rw [isId]
    decide
  · have isVisible : property ∈ visible node := List.mem_filter.mpr ⟨inNode, decide_eq_true isId⟩
    exact ((dumpable.nodes node member).2.names property isVisible).notEmpty

/-- The text of one database can be loaded into another one: the graph with its strings can be
written, and each look-up of a string ends at this string. -/
structure Transferable (source target : Database) (getId : Nat → Nat) : Prop where
  ofSource : source.Sound
  dumpable : Dumpable getId source.view
  resolvesId : source.table.Resolves source.pm loaderId
  ofTarget : target.Sound
  resolves : MeetsAlong target.table.addWord target.table.Resolves target.pm (words source.view)

theorem load_dump_eq (transferable : Transferable source target getId) :
    ∃ text names, source.dump readOnly floatText getId = .ok (text, names) ∧
      ∃ state, target.load parser (fun _ => none) text = (state, none) ∧
        (target.after state).Sound ∧
        (target.after state).view = ⟨target.view.nodes ++ (reloaded source.view).nodes,
          target.view.edges ++ source.view.edges.map (loadedEdge target.view.nodes.length)⟩ ∧
        state.inTransaction = false ∧
        LabelledRun.run target.table.addWord target.pm (words source.view) = some state.names := by
  have dumpable := transferable.dumpable
  obtain ⟨text, isText, tokens⟩ := @exists_dumpPmgd _ _ floatText dumpable
  obtain ⟨names, isDump⟩ := @dump_view _ readOnly floatText getId transferable.ofSource
    transferable.resolvesId (ne_nil_of_dumpable dumpable)
  have accepted := parser.accepts (derives_statements dumpable)
  have isParsed : parser.yyparse (yylex text) =
      ((statements getId source.view).flatMap Prod.snd, none) := by
    rw [tokens, accepted]
  have resolves : MeetsAlong target.table.addWord target.table.Resolves target.pm
      ((parser.yyparse (yylex text)).1.filterMap wordOf) := by
    rw [isParsed, words_statements dumpable]
    exact transferable.resolves
  obtain ⟨state, error, isLoad, sound, isTextLoad, looksUp⟩ :=
    @load_view _ parser (fun _ => none) text transferable.ofTarget resolves
  obtain ⟨last, isRun, isGraph, closed⟩ := run_statements dumpable target.view
  have isLast : Loader.load plain parser (fun _ => none) () target.view text = (last, none) := by
    rw [Loader.load, isParsed]
    dsimp only
    rw [runAll] at isRun
    rw [isRun]
  obtain ⟨isView, rfl⟩ := Prod.mk.inj (isTextLoad.symm.trans isLast)
  refine ⟨text, names, ?_, state, isLoad, sound, ?_, ?_, ?_⟩
  · rw [isDump, isText]
    rfl
  · have isCommitted : (target.after state).view = (state.view target.table).committed := rfl
    rw [isCommitted, isView, isGraph]
    rfl
  · have isClosed : state.inTransaction = (state.view target.table).inTransaction := rfl
    rw [isClosed, isView, closed]
  · have ofWords := looksUp rfl
    rwa [isParsed, words_statements dumpable] at ofWords

/-! ### Two persons -/

theorem looksUp_twoPersons : MeetsAlong created.table.addWord created.table.Resolves created.pm
    (words twoPersons ++ [loaderId]) := by
  have endsAtOnce : MeetsAlong created.table.addWord created.table.EndsAtOnce created.pm
      (words twoPersons ++ [loaderId]) := by
    decide
  exact endsAtOnce.mono fun _ _ => StringTable.resolves_of_endsAtOnce

theorem reloaded_twoPersons : reloaded twoPersons = twoPersons := by
  rfl

/-- The strings of the two persons in a table of their own. -/
theorem resolvesId_twoPersons {pm : Memory}
    (looksUp : LabelledRun.run created.table.addWord created.pm (words twoPersons) = some pm) :
    created.table.Resolves pm loaderId :=
  ((meetsAlong_append.mp looksUp_twoPersons).2 pm looksUp).1

/-- A database with the two persons. -/
theorem exists_twoPersons :
    ∃ source : Database, source.view = twoPersons ∧ Transferable source created (· + 1) := by
  obtain ⟨history, faithful, allKnown⟩ := sound_created.exists_history
  have tracks : State.Tracks created.table history
      (started (created.table.naming false) created.pm created.graph) :=
    ⟨faithful, allKnown, allKnown, .inl rfl, .inl rfl⟩
  have ofWords := (meetsAlong_append.mp looksUp_twoPersons).1
  rw [← words_statements dumpable_twoPersons] at ofWords
  obtain ⟨history, last, error, _, tracksLast, isTextRun, looksUp⟩ :=
    @run_view _ _ _ _ (fun _ => none) 0 tracks ofWords
  obtain ⟨state, isRun, isGraph, _⟩ := run_statements dumpable_twoPersons ⟨[], []⟩
  obtain ⟨isView, rfl⟩ := Prod.mk.inj (isTextRun.symm.trans isRun)
  have isTwoPersons : (created.after last).view = twoPersons := by
    have isCommitted : (created.after last).view = (last.view created.table).committed := rfl
    rw [isCommitted, isView, isGraph]
    exact reloaded_twoPersons
  replace looksUp := looksUp rfl
  rw [words_statements dumpable_twoPersons] at looksUp
  refine ⟨created.after last, isTwoPersons,
    ⟨history, tracksLast.faithful, tracksLast.allKnown.committed⟩, ?_,
    resolvesId_twoPersons looksUp, sound_created, ?_⟩
  · rw [isTwoPersons]
    exact dumpable_twoPersons
  · rw [isTwoPersons]
    exact (meetsAlong_append.mp looksUp_twoPersons).1

/-! ### What comes back -/

/-- Dumping a database and loading the text adds the nodes and edges to the other database. -/
theorem load_dump (transferable : Transferable source target getId)
    (succeeds : ∀ number, throws number = none) :
    ∃ text names, source.dump readOnly floatText getId = .ok (text, names) ∧
      ∃ state, target.load parser throws text = (state, none) ∧ (target.after state).Sound ∧
        (target.after state).view.nodes.map nodeView =
          (target.view.nodes ++ source.view.nodes.map loadedNode).map nodeView ∧
        (target.after state).view.edges.map edgeView =
          (target.view.edges ++ source.view.edges.map
            (loadedEdge target.view.nodes.length)).map edgeView ∧
        state.inTransaction = false := by
  obtain rfl : throws = fun _ => none := funext succeeds
  obtain ⟨text, names, isDump, state, isLoad, sound, isView, closed, _⟩ :=
    @load_dump_eq _ _ parser readOnly floatText _ transferable
  exact ⟨text, names, isDump, state, isLoad, sound, by rw [isView]; rfl, by rw [isView], closed⟩

theorem load_dump_twoPersons :
    ∃ source : Database, source.view = twoPersons ∧
      ∃ text names, source.dump true (fun _ => []) (· + 1) = .ok (text, names) ∧
        ∃ state, created.load descent (fun _ => none) text = (state, none) ∧
          (created.after state).Sound ∧
          (created.after state).view.nodes.map nodeView =
            (created.view.nodes ++ source.view.nodes.map loadedNode).map nodeView ∧
          (created.after state).view.edges.map edgeView =
            (created.view.edges ++ source.view.edges.map
              (loadedEdge created.view.nodes.length)).map edgeView ∧
          state.inTransaction = false := by
  obtain ⟨source, isTwoPersons, transferable⟩ := exists_twoPersons
  exact ⟨source, isTwoPersons, load_dump transferable fun _ => rfl⟩

/-- The graph that is loaded is the one that was dumped, apart from the names of its nodes, if and
only if no string has a backslash and no property is a blob. -/
theorem load_dump_same_iff (transferable : Transferable source target getId)
    (succeeds : ∀ number, throws number = none) (empty : target.graph = ⟨[], []⟩) :
    (∃ text names, source.dump readOnly floatText getId = .ok (text, names) ∧
      ∃ state, target.load parser throws text = (state, none) ∧
        (target.after state).view.nodes.map nodeView =
          source.view.nodes.map (fun node => (node.tag, checkNamed (visible node))) ∧
        (target.after state).view.edges.map edgeView = source.view.edges.map edgeView) ↔
      (∀ node ∈ source.view.nodes, ∀ property ∈ visible node, Kept property.2) ∧
        ∀ edge ∈ source.view.edges, ∀ property ∈ edge.properties, Kept property.2 := by
  obtain rfl : throws = fun _ => none := funext succeeds
  obtain ⟨text, names, isDump, state, isLoad, _, isView, _⟩ :=
    @load_dump_eq _ _ parser readOnly floatText _ transferable
  have noGraph : target.view = ⟨[], []⟩ := by
    rw [view, empty]
    rfl
  replace isView : (target.after state).view = reloaded source.view := by
    rw [isView, noGraph]
    rfl
  rw [← reloaded_same_iff transferable.dumpable, ← isView]
  constructor
  · rintro ⟨other, names', isOther, found, isFound, same⟩
    obtain ⟨rfl, _⟩ := Prod.mk.inj (Except.ok.inj (isDump.symm.trans isOther))
    obtain ⟨rfl, _⟩ := Prod.mk.inj (isLoad.symm.trans isFound)
    exact same
  · exact fun same => ⟨text, names, isDump, state, isLoad, same⟩

theorem load_dump_same_twoPersons :
    ∃ source : Database, source.view = twoPersons ∧
      ∃ text names, source.dump false (fun _ => []) (· + 1) = .ok (text, names) ∧
        ∃ state, created.load descent (fun _ => none) text = (state, none) ∧
          (created.after state).view.nodes.map nodeView =
            source.view.nodes.map (fun node => (node.tag, checkNamed (visible node))) ∧
          (created.after state).view.edges.map edgeView = source.view.edges.map edgeView := by
  obtain ⟨source, isTwoPersons, transferable⟩ := exists_twoPersons
  refine ⟨source, isTwoPersons,
    (load_dump_same_iff transferable (fun _ => rfl) rfl).mpr ?_⟩
  rw [isTwoPersons]
  constructor
  · refine List.forall_mem_cons.mpr ⟨?_, List.forall_mem_singleton.mpr (List.forall_mem_nil _)⟩
    refine List.forall_mem_cons.mpr ⟨?_, List.forall_mem_singleton.mpr trivial⟩
    exact List.forall_mem_cons.mpr ⟨by decide, List.forall_mem_cons.mpr
      ⟨by decide, List.forall_mem_singleton.mpr (by decide)⟩⟩
  · exact List.forall_mem_singleton.mpr (List.forall_mem_singleton.mpr trivial)

/-! ## Rounds -/

/-- The same graph, whose properties the iterators give in another order. -/
structure Reordered {N : Type} (graph other : GraphOf N) : Prop where
  nodes : List.Forall₂ (fun node next => node.tag = next.tag ∧
    node.properties.Perm next.properties) graph.nodes other.nodes
  edges : List.Forall₂ (fun edge next => edge.source = next.source ∧
    edge.destination = next.destination ∧ edge.tag = next.tag ∧
      edge.properties.Perm next.properties) graph.edges other.edges

/-- A database is dumped and its text loaded into one without nodes; afterwards the iterators may
give the properties in another order. -/
structure Round (parser : Parser) (floatText : BitVec 64 → List Char) (getId : Nat → Nat)
    (db target next : Database) : Prop where
  ofTarget : target.Sound
  empty : target.graph = ⟨[], []⟩
  resolvesId : db.table.Resolves db.pm loaderId
  resolves : MeetsAlong target.table.addWord target.table.Resolves target.pm (words db.view)
  exists_load : ∃ readOnly text names state,
    db.dump readOnly floatText getId = .ok (text, names) ∧
      target.load parser (fun _ => none) text = (state, none) ∧ next.table = target.table ∧
      next.pm = state.names ∧ Reordered state.committed next.graph

/-- A round through some database. -/
def NextRound (parser : Parser) (floatText : BitVec 64 → List Char) (db next : Database) : Prop :=
  ∃ getId target, Numbered getId db.graph.nodes.length ∧
    Round parser floatText getId db target next

section Reordered

variable {N M : Type} {graph other : GraphOf N} {known : N → Prop} {name : N → M}

theorem exists_of_forall₂ {α β : Type} {related : α → β → Prop} {list : List α} {other : List β}
    (all : List.Forall₂ related list other) {b : β} (member : b ∈ other) :
    ∃ a ∈ list, related a b := by
  induction all with
  | nil => cases member
  | cons first _ induction =>
      rcases List.mem_cons.mp member with rfl | behind
      · exact ⟨_, List.mem_cons_self, first⟩
      · obtain ⟨a, inList, ofPair⟩ := induction behind
        exact ⟨a, List.mem_cons_of_mem _ inList, ofPair⟩

theorem map_eq_of_forall₂ {α β : Type} {related : α → α → Prop} {list other : List α}
    {view : α → β} (all : List.Forall₂ related list other)
    (same : ∀ a ∈ list, ∀ b, related a b → view b = view a) :
    other.map view = list.map view := by
  induction all with
  | nil => rfl
  | cons first _ induction =>
      rw [List.forall_mem_cons] at same
      rw [List.map_cons, List.map_cons, same.1 _ first, induction same.2]

theorem reordered_refl (graph : GraphOf N) : Reordered graph graph where
  nodes := List.forall₂_same.mpr fun _ _ => ⟨rfl, .refl _⟩
  edges := List.forall₂_same.mpr fun _ _ => ⟨rfl, rfl, rfl, .refl _⟩

theorem Reordered.allKnown (reordered : Reordered graph other) (allKnown : graph.Over known) :
    other.Over known where
  nodes next member := by
    obtain ⟨node, inGraph, sameTag, perm⟩ := exists_of_forall₂ reordered.nodes member
    obtain ⟨ofTag, ofList⟩ := allKnown.nodes node inGraph
    exact ⟨sameTag ▸ ofTag, fun property inNext => ofList property (perm.mem_iff.mpr inNext)⟩
  edges next member := by
    obtain ⟨edge, inGraph, _, _, sameTag, perm⟩ := exists_of_forall₂ reordered.edges member
    obtain ⟨ofTag, ofList⟩ := allKnown.edges edge inGraph
    exact ⟨sameTag ▸ ofTag, fun property inNext => ofList property (perm.mem_iff.mpr inNext)⟩

theorem Reordered.renamed (reordered : Reordered graph other) :
    Reordered (graph.renamed name) (other.renamed name) where
  nodes := by
    rw [GraphOf.renamed, GraphOf.renamed, List.forall₂_map_left_iff, List.forall₂_map_right_iff]
    refine reordered.nodes.imp fun node next related => ?_
    obtain ⟨sameTag, perm⟩ := related
    exact ⟨congrArg name sameTag, perm.map _⟩
  edges := by
    rw [GraphOf.renamed, GraphOf.renamed, List.forall₂_map_left_iff, List.forall₂_map_right_iff]
    refine reordered.edges.imp fun edge next related => ?_
    obtain ⟨sameSource, sameDestination, sameTag, perm⟩ := related
    exact ⟨sameSource, sameDestination, congrArg name sameTag, perm.map _⟩

end Reordered

theorem checkNamed_perm {properties others : List (List Char × Property)}
    (perm : properties.Perm others) (distinct : (properties.map Prod.fst).Nodup) :
    checkNamed others = checkNamed properties := by
  have distinctOthers : (others.map Prod.fst).Nodup := (perm.map Prod.fst).nodup_iff.mp distinct
  funext name
  cases found : checkNamed properties name with
  | some value =>
      exact checkNamed_of_mem distinctOthers (perm.mem_iff.mp (mem_of_checkNamed found))
  | none =>
      rw [checkNamed_eq_none_iff] at found ⊢
      exact fun property member => found property (perm.mem_iff.mpr member)

theorem Reordered.sameGraph {graph other : GraphRecord} (reordered : Reordered graph other)
    (inNodes : ∀ node ∈ graph.nodes, (node.properties.map Prod.fst).Nodup)
    (inEdges : ∀ edge ∈ graph.edges, (edge.properties.map Prod.fst).Nodup) :
    SameGraph graph other where
  nodes := by
    refine map_eq_of_forall₂ reordered.nodes fun node member next related => ?_
    obtain ⟨sameTag, perm⟩ := related
    rw [nodeView, nodeView, sameTag, checkNamed_perm perm (inNodes node member)]
  edges := by
    refine map_eq_of_forall₂ reordered.edges fun edge member next related => ?_
    obtain ⟨sameSource, sameDestination, sameTag, perm⟩ := related
    rw [edgeView, edgeView, sameSource, sameDestination, sameTag,
      checkNamed_perm perm (inEdges edge member)]
  distinctInNodes next member := by
    obtain ⟨node, inGraph, _, perm⟩ := exists_of_forall₂ reordered.nodes member
    exact (perm.map Prod.fst).nodup_iff.mp (inNodes node inGraph)
  distinctInEdges next member := by
    obtain ⟨edge, inGraph, _, _, _, perm⟩ := exists_of_forall₂ reordered.edges member
    exact (perm.map Prod.fst).nodup_iff.mp (inEdges edge inGraph)

/-- What a round gives. -/
theorem Round.spec (isRound : Round parser floatText getId db target next) (sound : db.Sound)
    (dumpable : Dumpable getId db.view) :
    next.Sound ∧ SameGraph (reloaded db.view) next.view := by
  obtain ⟨readOnly, text, names, state, isDump, isLoad, sameTable, samePm, reordered⟩ :=
    isRound.exists_load
  have transferable : Transferable db target getId :=
    ⟨sound, dumpable, isRound.resolvesId, isRound.ofTarget, isRound.resolves⟩
  obtain ⟨other, names', isOther, found, isFound, soundFound, isView, _⟩ :=
    @load_dump_eq _ _ parser readOnly floatText _ transferable
  obtain ⟨rfl, _⟩ := Prod.mk.inj (Except.ok.inj (isDump.symm.trans isOther))
  obtain ⟨rfl, _⟩ := Prod.mk.inj (isLoad.symm.trans isFound)
  have noGraph : target.view = ⟨[], []⟩ := by
    rw [view, isRound.empty]
    rfl
  replace isView : (target.after state).view = reloaded db.view := by
    rw [isView, noGraph]
    rfl
  obtain ⟨table, pm, graph⟩ := next
  obtain rfl := sameTable
  obtain rfl := samePm
  constructor
  · obtain ⟨history, faithful, allKnown⟩ := soundFound.exists_history
    exact ⟨history, faithful, reordered.allKnown allKnown⟩
  · rw [← isView]
    refine Reordered.sameGraph reordered.renamed ?_ ?_
    · show ∀ node ∈ (target.after state).view.nodes, _
      rw [isView]
      intro node member
      obtain ⟨original, inGraph, rfl⟩ := List.mem_map.mp member
      rw [loadedNode, map_fst_loaded]
      exact (dumpable.nodes original inGraph).2.distinct
    · show ∀ edge ∈ (target.after state).view.edges, _
      rw [isView]
      intro edge member
      obtain ⟨original, inGraph, rfl⟩ := List.mem_map.mp member
      rw [loadedEdge, map_fst_loaded]
      exact (dumpable.edges original inGraph).2.1.distinct

theorem exists_round (transferable : Transferable db target getId)
    (empty : target.graph = ⟨[], []⟩) : ∃ next, Round parser floatText getId db target next := by
  obtain ⟨text, names, isDump, state, isLoad, _⟩ :=
    @load_dump_eq _ _ parser false floatText _ transferable
  exact ⟨target.after state, transferable.ofTarget, empty, transferable.resolvesId,
    transferable.resolves, false, text, names, state, isDump, isLoad, rfl, rfl, reordered_refl _⟩

/-- A database whose graph a text keeps as it is. -/
structure SettledDatabase (db : Database) : Prop where
  sound : db.Sound
  settled : Settled db.view

theorem SettledDatabase.dumpable (ofDb : SettledDatabase db)
    (numbered : Numbered getId db.graph.nodes.length) : Dumpable getId db.view := by
  have sameLength : db.view.nodes.length = db.graph.nodes.length := List.length_map _
  exact ofDb.settled.dumpable (sameLength ▸ numbered)

theorem SettledDatabase.run (settled : SettledDatabase loaded)
    (rounds : Relation.ReflTransGen (NextRound parser floatText) loaded last) :
    SettledDatabase last ∧ SameGraph loaded.view last.view := by
  induction rounds with
  | refl => exact ⟨settled, settled.settled.same⟩
  | tail _ isRound induction =>
      obtain ⟨getId, target, numbered, isRound⟩ := isRound
      obtain ⟨ofMiddle, same⟩ := induction
      have dumpable := ofMiddle.dumpable numbered
      obtain ⟨sound, sameNext⟩ := isRound.spec ofMiddle.sound dumpable
      exact ⟨⟨sound, settled_of_reloaded dumpable sameNext⟩,
        same.trans (ofMiddle.settled.sameGraph_of_reloaded sameNext)⟩

/-- What was loaded once stays the same through any number of rounds, in whatever databases, and
can always be dumped and loaded again. -/
theorem sameGraph_of_rounds (sound : db.Sound) (dumpable : Dumpable getId db.view)
    (first : Round parser floatText getId db target loaded)
    (rounds : Relation.ReflTransGen (NextRound parser floatText) loaded last) :
    SameGraph loaded.view last.view ∧ ∀ getId target, Numbered getId last.graph.nodes.length →
      target.Sound → target.graph = ⟨[], []⟩ → last.table.Resolves last.pm loaderId →
      MeetsAlong target.table.addWord target.table.Resolves target.pm (words last.view) →
      ∃ next, Round parser floatText getId last target next := by
  obtain ⟨soundLoaded, sameLoaded⟩ := first.spec sound dumpable
  have settled : SettledDatabase loaded := ⟨soundLoaded, settled_of_reloaded dumpable sameLoaded⟩
  obtain ⟨ofLast, same⟩ := settled.run rounds
  refine ⟨same, fun getId target numbered ofTarget empty resolvesId resolves => ?_⟩
  exact exists_round ⟨ofLast.sound, ofLast.dumpable numbered, resolvesId, ofTarget, resolves⟩ empty

theorem sameGraph_of_rounds_twoPersons :
    ∃ source loaded again : Database, source.view = twoPersons ∧
      Round descent (fun _ => []) (· + 1) source created loaded ∧
      NextRound descent (fun _ => []) loaded again ∧ SameGraph loaded.view again.view := by
  obtain ⟨source, isTwoPersons, transferable⟩ := exists_twoPersons
  obtain ⟨text, names, isDump, state, isLoad, sound, isView, _, looksUp⟩ :=
    @load_dump_eq _ _ descent false (fun _ => []) _ transferable
  have first : Round descent (fun _ => []) (· + 1) source created (created.after state) :=
    ⟨sound_created, rfl, transferable.resolvesId, transferable.resolves, false, text, names, state,
      isDump, isLoad, rfl, rfl, reordered_refl _⟩
  have isLoaded : (created.after state).view = twoPersons := by
    rw [isView, isTwoPersons]
    exact reloaded_twoPersons
  rw [isTwoPersons] at looksUp
  have again : Transferable (created.after state) created (· + 1) := by
    refine ⟨sound, ?_, resolvesId_twoPersons looksUp, sound_created, ?_⟩
    · rw [isLoaded]
      exact dumpable_twoPersons
    · rw [isLoaded]
      exact (meetsAlong_append.mp looksUp_twoPersons).1
  obtain ⟨last, second⟩ := @exists_round _ _ descent (fun _ => []) _ again rfl
  have numbered : Numbered (· + 1) (created.after state).graph.nodes.length := by
    have sameLength : (created.after state).graph.nodes.length =
        (created.after state).view.nodes.length := (List.length_map _).symm
    rw [sameLength, isLoaded]
    exact ⟨fun place inside => Nat.lt_of_lt_of_le (Nat.succ_lt_succ inside) (by decide),
      fun place _ other _ same => Nat.succ.inj same⟩
  exact ⟨source, created.after state, last, isTwoPersons, first, ⟨_, _, numbered, second⟩,
    (sameGraph_of_rounds transferable.ofSource transferable.dumpable first
      (.single ⟨_, _, numbered, second⟩)).1⟩

end Database

end Pmgd
