import Pmgd.EdgeIndex
import Pmgd.FixedAllocator

/-!
# The node table and the index by tag

`get_nodes` without a tag scans the node table and skips the objects with the free bit;
`get_nodes` with a tag goes through the list of the tag in the index.  Removing a node takes it
out of the index at once, but sets its free bit only at the commit.

The nodes of the index are therefore always those that were added and not removed.  The scan
also gives the nodes that the running transaction has removed.
-/

namespace Pmgd

open ByteMemory LabelledRun

/-- The node table, the `_tag` fields of its objects, the lists of the index by tag, and these
lists as the journal of the running transaction restores them. -/
structure NodeTable where
  table : FixedAllocator.State
  tagOf : Nat → Tag
  tagIndex : Tag → List Nat
  savedIndex : Tag → List Nat

/-- A node table with the nodes that were added and not removed, those that there were when the
running transaction began, and those that it has removed. -/
structure NodeHistory where
  current : NodeTable
  nodes : List (Nat × Tag)
  savedNodes : List (Nat × Tag)
  removed : List (Nat × Tag)

namespace NodeTable

/-- The objects that a scan of the table from an address on comes to. -/
def scan (mem : Memory) (tailPtr size : Nat) : Nat → Nat → List Nat
  | 0, _ => []
  | objects + 1, cur =>
      if cur < tailPtr then
        if FixedAllocator.word mem cur &&& FixedAllocator.freeBit ≠ 0 then
          scan mem tailPtr size objects (cur + size)
        else cur :: scan mem tailPtr size objects (cur + size)
      else []

/-- `IndexManager::add`. -/
def addToIndex (index : Tag → List Nat) (tag : Tag) (p : Nat) : Tag → List Nat :=
  if tag = 0 then index else Function.update index tag (p :: index tag)

/-- `IndexManager::remove`. -/
def removeFromIndex (index : Tag → List Nat) (tag : Tag) (p : Nat) : Tag → List Nat :=
  if tag = 0 then index else Function.update index tag ((index tag).erase p)

/-- The object that `alloc` gives, if it does not throw. -/
def allocated (allocator : FixedAllocator) (table : FixedAllocator.State) (room : Nat) :
    Option Nat :=
  if room = 0 ∨ table.header.freePtr ≠ 0 ∧ room = 1 then none
  else (FixedAllocator.alloc allocator table.header table.mem).map Prod.fst

/-- `Graph::add_node`; the first word of a new node is the pointer to its outgoing edges. -/
def addNode (allocator : FixedAllocator) (state : NodeTable) (tx : FixedAllocator.Transaction)
    (tag : Tag) (room outEdges : Nat) : NodeTable :=
  let table := state.table.alloc allocator tx room
  match allocated allocator state.table room with
  | none => { state with table }
  | some p =>
      { state with
        table := { table with mem := store table.mem p (encode 8 outEdges) }
        tagOf := Function.update state.tagOf p tag
        tagIndex := addToIndex state.tagIndex tag p }

/-- `Graph::remove(Node &)` of a node without edges. -/
def removeNode (state : NodeTable) (tx : FixedAllocator.Transaction) (p : Nat) : NodeTable :=
  { state with
    table := { state.table with tx := some { tx with pending := p :: tx.pending } }
    tagIndex := removeFromIndex state.tagIndex (state.tagOf p) p }

end NodeTable

namespace NodeHistory

open NodeTable

inductive Action
  | begin
  | addNode (tag : Tag) (room outEdges : Nat)
  | removeNode (p : Nat)
  | commit
  | abort
  deriving DecidableEq, Repr

def step (allocator : FixedAllocator) (state : NodeHistory) (action : Action) :
    Option NodeHistory :=
  match action, state.current.table.tx with
  | .addNode tag room outEdges, some tx =>
      some { state with
        current := state.current.addNode allocator tx tag room outEdges
        nodes :=
          match allocated allocator state.current.table room with
          | none => state.nodes
          | some p => (p, tag) :: state.nodes }
  | .removeNode p, some tx =>
      some { state with
        current := state.current.removeNode tx p
        nodes := state.nodes.filter fun node => decide (node.1 ≠ p)
        removed := (p, state.current.tagOf p) :: state.removed }
  | .begin, none =>
      (FixedAllocator.step allocator state.current.table .begin).map fun table =>
        { current := { state.current with table, savedIndex := state.current.tagIndex }
          nodes := state.nodes
          savedNodes := state.nodes
          removed := [] }
  | .commit, some _ =>
      (FixedAllocator.step allocator state.current.table .commit).map fun table =>
        { state with current := { state.current with table }, removed := [] }
  | .abort, some _ =>
      (FixedAllocator.step allocator state.current.table .abort).map fun table =>
        { state with
          current := { state.current with table, tagIndex := state.current.savedIndex }
          nodes := state.savedNodes
          removed := [] }
  | _, _ => none

/-- A new graph without nodes. -/
def created (allocator : FixedAllocator) : NodeHistory :=
  ⟨⟨FixedAllocator.created allocator, fun _ => 0, fun _ => [], fun _ => []⟩, [], [], []⟩

/-- The callers remove nodes that are there, once; pointers to edge indexes are aligned. -/
def Proper (state : NodeHistory) : Action → Prop
  | .addNode _ _ outEdges => outEdges % 2 = 0
  | .removeNode p => p ∈ state.nodes.map Prod.fst
  | _ => True

instance (state : NodeHistory) (action : Action) : Decidable (Proper state action) := by
  unfold Proper
  split <;> infer_instance

end NodeHistory

namespace NodeTable

section Index

variable {index : Tag → List Nat} {tag other : Tag} {p : Nat}

theorem addToIndex_self (notZero : tag ≠ 0) :
    addToIndex index tag p tag = p :: index tag := by
  rw [addToIndex, if_neg notZero, Function.update_self]

theorem addToIndex_of_ne (different : other ≠ tag) :
    addToIndex index tag p other = index other := by
  rw [addToIndex]
  split_ifs
  · rfl
  · exact Function.update_of_ne different _ _

theorem removeFromIndex_self (notZero : tag ≠ 0) :
    removeFromIndex index tag p tag = (index tag).erase p := by
  rw [removeFromIndex, if_neg notZero, Function.update_self]

theorem removeFromIndex_of_ne (different : other ≠ tag) :
    removeFromIndex index tag p other = index other := by
  rw [removeFromIndex]
  split_ifs
  · rfl
  · exact Function.update_of_ne different _ _

end Index

section Scan

variable {mem : ByteMemory.Memory} {tailPtr size objects cur p : Nat}

end Scan

section Pool

variable {allocator : FixedAllocator} {table : FixedAllocator.State}

/-- An allocation that throws has no effect but on the log. -/
theorem alloc_of_allocated_none {tx : FixedAllocator.Transaction} (isTx : table.tx = some tx)
    {room : Nat} (failed : allocated allocator table room = none) :
    ∃ other, table.alloc allocator tx room = { table with tx := some other } ∧
      other.created = tx.created ∧ other.pending = tx.pending := by
  rw [allocated] at failed
  rw [FixedAllocator.State.alloc]
  split_ifs at failed with noRoom
  · split_ifs with nothing onlyHeader
    · exact ⟨tx, by rw [← isTx], rfl, rfl⟩
    · exact ⟨_, rfl, rfl, rfl⟩
    · exact absurd noRoom (not_or.mpr ⟨nothing, onlyHeader⟩)
  · rw [not_or] at noRoom
    rw [if_neg noRoom.1, if_neg noRoom.2, Option.map_eq_none_iff.mp failed]
    exact ⟨_, rfl, FixedAllocator.logAlloc_created _ _ _, FixedAllocator.logAlloc_pending _ _ _⟩

theorem alloc_of_allocated {tx : FixedAllocator.Transaction} {room p : Nat}
    (succeeded : allocated allocator table room = some p) :
    ∃ header mem other,
      table.alloc allocator tx room = ⟨header, mem, table.base, some other⟩ ∧
        other.created = p :: tx.created ∧ other.pending = tx.pending := by
  rw [allocated] at succeeded
  split_ifs at succeeded with noRoom
  rw [not_or] at noRoom
  obtain ⟨⟨q, header, mem⟩, taken, rfl⟩ := Option.map_eq_some_iff.mp succeeded
  rw [FixedAllocator.State.alloc, if_neg noRoom.1, if_neg noRoom.2, taken]
  exact ⟨header, mem, _, rfl, rfl, FixedAllocator.logAlloc_pending _ _ _⟩

end Pool

end NodeTable

namespace NodeHistory

open NodeTable

variable {allocator : FixedAllocator} {state next : NodeHistory}

/-- The lists of an index contain the nodes of their tags, once. -/
def IndexOf (index : Tag → List Nat) (nodes : List (Nat × Tag)) : Prop :=
  ∀ tag, tag ≠ 0 → (index tag).Nodup ∧ ∀ p, p ∈ index tag ↔ (p, tag) ∈ nodes

/-- The objects that the running transaction has freed. -/
def pending (state : NodeHistory) : List Nat :=
  match state.current.table.tx with
  | none => []
  | some tx => tx.pending

/-- What holds at every point: the nodes are the live objects that the running transaction has
not freed, the index has these, and what is kept for an abort is what there was at the begin. -/
structure Good (allocator : FixedAllocator) (state : NodeHistory) : Prop where
  sound : FixedAllocator.Sound allocator state.current.table
  nodes : ∀ p tag, (p, tag) ∈ state.nodes ↔
    p ∈ state.current.table.live ∧ p ∉ state.pending ∧ state.current.tagOf p = tag
  index : IndexOf state.current.tagIndex state.nodes
  removed : ∀ p tag, (p, tag) ∈ state.removed ↔
    p ∈ state.pending ∧ state.current.tagOf p = tag
  savedNodes : state.current.table.tx.isSome → ∀ p tag, (p, tag) ∈ state.savedNodes ↔
    p ∈ state.current.table.base ∧ state.current.tagOf p = tag
  savedIndex : state.current.table.tx.isSome →
    IndexOf state.current.savedIndex state.savedNodes

theorem pending_of_tx {tx : FixedAllocator.Transaction}
    (isTx : state.current.table.tx = some tx) : state.pending = tx.pending := by
  rw [pending, isTx]

theorem pending_of_none (noTx : state.current.table.tx = none) : state.pending = [] := by
  rw [pending, noTx]

theorem Good.pending_live (good : Good allocator state) {p : Nat} (member : p ∈ state.pending) :
    p ∈ state.current.table.live := by
  cases isTx : state.current.table.tx with
  | none => simp [pending_of_none isTx] at member
  | some tx =>
      rw [pending_of_tx isTx] at member
      exact (good.sound.pending tx isTx).2 p member

theorem IndexOf.add {index : Tag → List Nat} {nodes : List (Nat × Tag)}
    (indexed : IndexOf index nodes) {p : Nat} (isNew : ∀ tag, (p, tag) ∉ nodes) (tag : Tag) :
    IndexOf (addToIndex index tag p) ((p, tag) :: nodes) := by
  intro other notZero
  obtain ⟨nodup, members⟩ := indexed other notZero
  by_cases sameTag : other = tag
  · subst sameTag
    rw [addToIndex_self notZero]
    refine ⟨List.nodup_cons.mpr ⟨fun member => isNew other ((members p).mp member), nodup⟩,
      fun q => ?_⟩
    rw [List.mem_cons, List.mem_cons, members q, Prod.mk.injEq, and_iff_left rfl]
  · rw [addToIndex_of_ne sameTag]
    refine ⟨nodup, fun q => ?_⟩
    rw [List.mem_cons, members q, Prod.mk.injEq]
    simp [sameTag]

theorem IndexOf.remove {index : Tag → List Nat} {nodes : List (Nat × Tag)}
    (indexed : IndexOf index nodes) {p : Nat} {tag : Tag}
    (onlyTag : ∀ other, (p, other) ∈ nodes → other = tag) :
    IndexOf (removeFromIndex index tag p)
      (nodes.filter fun node => decide (node.1 ≠ p)) := by
  intro other notZero
  obtain ⟨nodup, members⟩ := indexed other notZero
  by_cases sameTag : other = tag
  · subst sameTag
    rw [removeFromIndex_self notZero]
    refine ⟨nodup.erase p, fun q => ?_⟩
    rw [nodup.mem_erase_iff, members q, List.mem_filter, decide_eq_true_iff, and_comm]
  · rw [removeFromIndex_of_ne sameTag]
    refine ⟨nodup, fun q => ?_⟩
    rw [members q, List.mem_filter, decide_eq_true_iff]
    refine ⟨fun member => ⟨member, ?_⟩, And.left⟩
    rintro rfl
    exact sameTag (onlyTag other member)

/-- The pointer to the edge indexes is written to the new object. -/
theorem disciplined_write {table : FixedAllocator.State} {tx : FixedAllocator.Transaction}
    (isTx : table.tx = some tx) {p : Nat} (isCreated : p ∈ tx.created) {outEdges : Nat}
    (even : outEdges % 2 = 0) :
    FixedAllocator.Disciplined allocator table (.write p (encode 8 outEdges)) := by
  have wide := FixedAllocator.size_ge allocator
  have isLive : p ∈ table.live := by
    rw [FixedAllocator.live_of_tx isTx]
    exact List.mem_append_left _ isCreated
  simp only [FixedAllocator.Disciplined, isTx]
  refine ⟨p, isLive, le_rfl, ?_, fun notCreated => absurd isCreated notCreated, fun _ => ?_⟩
  · rw [length_encode]
    omega
  · intro byte isFirst
    obtain rfl : UInt8.ofNat outEdges = byte := by simpa [encode] using isFirst
    rw [UInt8.toNat_ofNat']
    omega

/-- The table behind an allocation that does not throw. -/
theorem sound_addNode {table : FixedAllocator.State} (sound : FixedAllocator.Sound allocator table)
    {tx other : FixedAllocator.Transaction} (isTx : table.tx = some tx) {room p : Nat}
    {header : RegionHeader} {mem : Memory}
    (took : table.alloc allocator tx room = ⟨header, mem, table.base, some other⟩)
    (isCreated : p ∈ other.created) {outEdges : Nat} (even : outEdges % 2 = 0) :
    FixedAllocator.Sound allocator
      ⟨header, store mem p (encode 8 outEdges), table.base, some other⟩ := by
  have afterAlloc := sound.alloc isTx room
  rw [took] at afterAlloc
  exact afterAlloc.write rfl (disciplined_write rfl isCreated even)

/-- What a step can do. -/
theorem step_cases {action : Action} (stepped : step allocator state action = some next) :
    (action = .begin ∧ state.current.table.tx = none ∧
      ∃ table, FixedAllocator.step allocator state.current.table .begin = some table ∧
        next = ⟨{ state.current with table, savedIndex := state.current.tagIndex }, state.nodes,
          state.nodes, []⟩) ∨
    ∃ tx, state.current.table.tx = some tx ∧
      ((∃ tag room outEdges, action = .addNode tag room outEdges ∧
          next = { state with
            current := state.current.addNode allocator tx tag room outEdges
            nodes := (allocated allocator state.current.table room).elim state.nodes
              fun p => (p, tag) :: state.nodes }) ∨
        (∃ p, action = .removeNode p ∧
          next = { state with
            current := state.current.removeNode tx p
            nodes := state.nodes.filter fun node => decide (node.1 ≠ p)
            removed := (p, state.current.tagOf p) :: state.removed }) ∨
        (action = .commit ∧
          ∃ table, FixedAllocator.step allocator state.current.table .commit = some table ∧
            next = { state with current := { state.current with table }, removed := [] }) ∨
        (action = .abort ∧
          ∃ table, FixedAllocator.step allocator state.current.table .abort = some table ∧
            next = { state with
              current := { state.current with table, tagIndex := state.current.savedIndex }
              nodes := state.savedNodes
              removed := [] })) := by
  cases isTx : state.current.table.tx with
  | none =>
      cases action with
      | begin =>
          simp only [step, isTx] at stepped
          obtain ⟨table, started, rfl⟩ := Option.map_eq_some_iff.mp stepped
          exact .inl ⟨rfl, rfl, table, started, rfl⟩
      | _ => simp [step, isTx] at stepped
  | some tx =>
      right
      refine ⟨tx, rfl, ?_⟩
      cases action with
      | begin => simp [step, isTx] at stepped
      | addNode tag room outEdges =>
          simp only [step, isTx, Option.some.injEq] at stepped
          refine .inl ⟨tag, room, outEdges, rfl, ?_⟩
          rw [← stepped]
          cases allocated allocator state.current.table room <;> rfl
      | removeNode p =>
          simp only [step, isTx, Option.some.injEq] at stepped
          exact .inr (.inl ⟨p, rfl, stepped.symm⟩)
      | commit =>
          simp only [step, isTx] at stepped
          obtain ⟨table, committed, rfl⟩ := Option.map_eq_some_iff.mp stepped
          exact .inr (.inr (.inl ⟨rfl, table, committed, rfl⟩))
      | abort =>
          simp only [step, isTx] at stepped
          obtain ⟨table, aborted, rfl⟩ := Option.map_eq_some_iff.mp stepped
          exact .inr (.inr (.inr ⟨rfl, table, aborted, rfl⟩))

theorem Good.addNode (good : Good allocator state) {tx : FixedAllocator.Transaction}
    (isTx : state.current.table.tx = some tx) {tag : Tag} {room outEdges : Nat}
    (even : outEdges % 2 = 0) :
    Good allocator { state with
      current := state.current.addNode allocator tx tag room outEdges
      nodes := (allocated allocator state.current.table room).elim state.nodes
        fun p => (p, tag) :: state.nodes } := by
  rw [NodeTable.addNode]
  have running : state.current.table.tx.isSome := by rw [isTx]; rfl
  have savedNodes := good.savedNodes running
  have savedIndex := good.savedIndex running
  have pending := pending_of_tx isTx
  cases result : allocated allocator state.current.table room with
  | none =>
      obtain ⟨other, failed, sameCreated, samePending⟩ := alloc_of_allocated_none isTx result
      have sound := good.sound.alloc isTx room
      rw [failed] at sound ⊢
      have live : FixedAllocator.State.live { state.current.table with tx := some other } =
          state.current.table.live := by
        rw [FixedAllocator.live_of_tx isTx, FixedAllocator.live_of_tx rfl, sameCreated]
      have nodes := good.nodes
      have removed := good.removed
      rw [pending, ← samePending] at nodes removed
      rw [← live] at nodes
      exact ⟨sound, nodes, good.index, removed, fun _ => savedNodes, fun _ => savedIndex⟩
  | some p =>
      obtain ⟨header, mem, other, took, isNew, samePending⟩ :=
        @alloc_of_allocated _ _ tx _ _ result
      rw [took]
      have isCreated : p ∈ other.created := by
        rw [isNew]
        exact List.mem_cons_self
      have sound := sound_addNode good.sound isTx took isCreated even
      set table : FixedAllocator.State :=
        ⟨header, store mem p (encode 8 outEdges), state.current.table.base, some other⟩
      have live : table.live = p :: state.current.table.live := by
        rw [FixedAllocator.live_of_tx isTx, FixedAllocator.live_of_tx rfl, isNew,
          List.cons_append]
      have notLive : p ∉ state.current.table.live := by
        obtain ⟨-, -, -, nodup, -⟩ := sound.noAliasing
        rw [live] at nodup
        exact (List.nodup_cons.mp nodup).1
      have notPending : p ∉ state.pending := fun member => notLive (good.pending_live member)
      have kept {q : Nat} (isLive : q ∈ state.current.table.live) :
          Function.update state.current.tagOf p tag q = state.current.tagOf q := by
        refine Function.update_of_ne ?_ _ _
        rintro rfl
        exact notLive isLive
      change Good allocator
        ⟨⟨table, Function.update state.current.tagOf p tag,
            addToIndex state.current.tagIndex tag p, state.current.savedIndex⟩,
          (p, tag) :: state.nodes, state.savedNodes, state.removed⟩
      refine ⟨sound, fun q otherTag => ?_, good.index.add (fun otherTag member => ?_) tag,
        fun q otherTag => ?_, fun _ q otherTag => ?_, fun _ => savedIndex⟩
      · rw [pending_of_tx rfl, samePending, ← pending]
        dsimp only
        rw [List.mem_cons, Prod.mk.injEq, good.nodes q otherTag, live, List.mem_cons]
        by_cases same : q = p
        · subst same
          rw [Function.update_self]
          simp [notLive, notPending, eq_comm]
        · rw [Function.update_of_ne same]
          simp [same]
      · exact notLive ((good.nodes p otherTag).mp member).1
      · rw [pending_of_tx rfl, samePending, ← pending]
        dsimp only
        rw [good.removed q otherTag]
        refine and_congr_right fun member => ?_
        rw [kept (good.pending_live member)]
      · dsimp only
        rw [savedNodes q otherTag]
        refine and_congr_right fun inBase => ?_
        have isLive : q ∈ state.current.table.live := by
          rw [FixedAllocator.live_of_tx isTx]
          exact List.mem_append_right _ inBase
        rw [kept isLive]

theorem Good.removeNode (good : Good allocator state) {tx : FixedAllocator.Transaction}
    (isTx : state.current.table.tx = some tx) {p : Nat}
    (isNode : p ∈ state.nodes.map Prod.fst) :
    Good allocator { state with
      current := state.current.removeNode tx p
      nodes := state.nodes.filter fun node => decide (node.1 ≠ p)
      removed := (p, state.current.tagOf p) :: state.removed } := by
  obtain ⟨⟨q, tag⟩, member, rfl⟩ := List.mem_map.mp isNode
  obtain ⟨isLive, notPending, hasTag⟩ := (good.nodes q tag).mp member
  have running : state.current.table.tx.isSome := by rw [isTx]; rfl
  have pending := pending_of_tx isTx
  rw [pending] at notPending
  have disciplined : FixedAllocator.Disciplined allocator state.current.table (.free q) := by
    simp only [FixedAllocator.Disciplined, isTx]
    exact ⟨isLive, notPending⟩
  have freed : FixedAllocator.step allocator state.current.table (.free q) =
      some { state.current.table with tx := some { tx with pending := q :: tx.pending } } := by
    simp only [FixedAllocator.step, isTx]
  have live : FixedAllocator.State.live
      { state.current.table with tx := some { tx with pending := q :: tx.pending } } =
        state.current.table.live := by
    rw [FixedAllocator.live_of_tx isTx, FixedAllocator.live_of_tx rfl]
  refine ⟨good.sound.step disciplined freed, fun other otherTag => ?_, ?_, fun other otherTag => ?_,
    fun _ => good.savedNodes running, fun _ => good.savedIndex running⟩
  · rw [pending_of_tx rfl]
    dsimp only [NodeTable.removeNode]
    rw [live, List.mem_filter, decide_eq_true_iff, good.nodes other otherTag, pending,
      List.mem_cons, not_or]
    grind
  · refine good.index.remove fun other isOther => ?_
    exact ((good.nodes q other).mp isOther).2.2.symm
  · rw [pending_of_tx rfl]
    dsimp only [NodeTable.removeNode]
    rw [List.mem_cons, List.mem_cons, good.removed other otherTag, pending, Prod.mk.injEq, hasTag]
    constructor
    · rintro (⟨rfl, rfl⟩ | ⟨earlier, sameTag⟩)
      · exact ⟨.inl rfl, hasTag⟩
      · exact ⟨.inr earlier, sameTag⟩
    · rintro ⟨rfl | earlier, sameTag⟩
      · exact .inl ⟨rfl, sameTag.symm.trans hasTag⟩
      · exact .inr ⟨earlier, sameTag⟩

theorem Good.begin (good : Good allocator state) (noTx : state.current.table.tx = none)
    {table : FixedAllocator.State}
    (started : FixedAllocator.step allocator state.current.table .begin = some table) :
    Good allocator ⟨{ state.current with table, savedIndex := state.current.tagIndex },
      state.nodes, state.nodes, []⟩ := by
  have sound := good.sound.step (by simp [FixedAllocator.Disciplined]) started
  simp only [FixedAllocator.step, noTx, Option.some.injEq] at started
  subst started
  have live : FixedAllocator.State.live
      { state.current.table with tx := some ⟨[], [], [], []⟩ } = state.current.table.live := by
    rw [FixedAllocator.live_of_none noTx, FixedAllocator.live_of_tx rfl, List.nil_append]
  have nodes := good.nodes
  rw [pending_of_none noTx] at nodes
  refine ⟨sound, fun p tag => ?_, good.index, fun p tag => ?_, fun _ p tag => ?_,
    fun _ => good.index⟩
  · rw [pending_of_tx rfl]
    dsimp only
    rw [live]
    exact nodes p tag
  · rw [pending_of_tx rfl]
    simp
  · have same := nodes p tag
    rw [FixedAllocator.live_of_none noTx] at same
    simpa using same

theorem Good.commit (good : Good allocator state) {tx : FixedAllocator.Transaction}
    (isTx : state.current.table.tx = some tx) {table : FixedAllocator.State}
    (committed : FixedAllocator.step allocator state.current.table .commit = some table) :
    Good allocator { state with current := { state.current with table }, removed := [] } := by
  have sound := good.sound.step (by simp [FixedAllocator.Disciplined]) committed
  obtain ⟨-, -, -, nodup, -⟩ := good.sound.noAliasing
  simp only [FixedAllocator.step, isTx, Option.some.injEq] at committed
  have noTx : table.tx = none := by rw [← committed]
  have live : table.live = state.current.table.live.diff tx.pending := by
    rw [FixedAllocator.live_of_none noTx, ← committed, FixedAllocator.live_of_tx isTx]
  refine ⟨sound, fun p tag => ?_, good.index, fun p tag => ?_, fun running => ?_,
    fun running => ?_⟩
  · rw [pending_of_none noTx]
    dsimp only
    rw [good.nodes p tag, pending_of_tx isTx, live, nodup.mem_sdiff_iff]
    simp [and_assoc]
  · rw [pending_of_none noTx]
    simp
  · simp [noTx] at running
  · simp [noTx] at running

theorem Good.abort (good : Good allocator state) {tx : FixedAllocator.Transaction}
    (isTx : state.current.table.tx = some tx) {table : FixedAllocator.State}
    (aborted : FixedAllocator.step allocator state.current.table .abort = some table) :
    Good allocator { state with
      current := { state.current with table, tagIndex := state.current.savedIndex }
      nodes := state.savedNodes
      removed := [] } := by
  have running : state.current.table.tx.isSome := by rw [isTx]; rfl
  have sound := good.sound.step (by simp [FixedAllocator.Disciplined]) aborted
  simp only [FixedAllocator.step, isTx, Option.some.injEq] at aborted
  have noTx : table.tx = none := by rw [← aborted]
  have live : table.live = state.current.table.base := by
    rw [FixedAllocator.live_of_none noTx, ← aborted]
  refine ⟨sound, fun p tag => ?_, good.savedIndex running, fun p tag => ?_, fun started => ?_,
    fun started => ?_⟩
  · rw [pending_of_none noTx]
    dsimp only
    rw [good.savedNodes running p tag, live]
    simp
  · rw [pending_of_none noTx]
    simp
  · simp [noTx] at started
  · simp [noTx] at started

theorem Good.step (good : Good allocator state) {action : Action} (proper : Proper state action)
    (stepped : NodeHistory.step allocator state action = some next) : Good allocator next := by
  obtain ⟨rfl, noTx, table, started, rfl⟩ | ⟨tx, isTx, isNext⟩ := step_cases stepped
  · exact good.begin noTx started
  · obtain ⟨tag, room, outEdges, rfl, rfl⟩ | ⟨p, rfl, rfl⟩ | ⟨rfl, table, committed, rfl⟩ |
      ⟨rfl, table, aborted, rfl⟩ := isNext
    · exact good.addNode isTx proper
    · exact good.removeNode isTx proper
    · exact good.commit isTx committed
    · exact good.abort isTx aborted

end NodeHistory

end Pmgd
