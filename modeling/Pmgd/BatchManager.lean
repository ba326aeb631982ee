import Mathlib.Data.List.Nodup
import Mathlib.Tactic.Common
import Pmgd.Lib.LabelledRun

/-!
# The batch manager

The batch manager collects operations and hands them to its executor when it is flushed.  An
operation whose hash is in the batch already is dropped.  A second deletion of an id is dropped
rightly, unless a node or an edge has got this id in between; but the hash of a creation only
has its tag, and the ends of an edge, so that every repeated creation is lost.
-/

namespace Pmgd

open LabelledRun

namespace BatchManager

/-- `Schema::Operation` as the queue functions fill it in; a string is a list of characters. -/
inductive Operation
  | createNode (tag : List Char)
  | createEdge (src dst : UInt64) (tag : List Char)
  | deleteNode (nodeId : UInt64)
  | deleteEdge (edgeId : UInt64)
  deriving DecidableEq, Repr

/-- `Schema::OperationType`. -/
def Operation.type : Operation → Nat
  | createNode _ => 0
  | deleteNode _ => 1
  | createEdge _ _ _ => 2
  | deleteEdge _ => 3

/-- `cStr()`: the string ends at its first `NUL`. -/
def cStr (text : List Char) : List Char :=
  text.takeWhile fun c => c ≠ Char.ofNat 0

/-- `ostream::operator<<` for unsigned numbers. -/
def decimal (value : UInt64) : List Char :=
  Nat.toDigits 10 value.toNat

/-- `hash_operation`. -/
def hashOperation (operation : Operation) : List Char :=
  Nat.toDigits 10 operation.type ++ ['|'] ++
    match operation with
    | .createNode tag => "node|".toList ++ cStr tag
    | .createEdge src dst tag =>
        "edge|".toList ++ decimal src ++ ['|'] ++ decimal dst ++ ['|'] ++ cStr tag
    | .deleteNode nodeId => "del_node|".toList ++ decimal nodeId
    | .deleteEdge edgeId => "del_edge|".toList ++ decimal edgeId

/-- `Batch`. -/
structure Batch where
  operations : List Operation
  operationHashes : List (List Char)

/-- `add_operation` with deduplication. -/
def Batch.addOperation (batch : Batch) (operation : Operation) : Batch :=
  let opHash := hashOperation operation
  if opHash ∈ batch.operationHashes then
    batch
  else
    ⟨batch.operations ++ [operation], opHash :: batch.operationHashes⟩

/-- The active batch of one priority, and the operations that the executor has got. -/
structure Manager where
  batch : Batch
  executed : List Operation

namespace Manager

def initial : Manager :=
  ⟨⟨[], []⟩, []⟩

def queueCreateNode (manager : Manager) (tag : List Char) : Manager :=
  { manager with batch := manager.batch.addOperation (.createNode tag) }

def queueCreateEdge (manager : Manager) (src dst : UInt64) (tag : List Char) : Manager :=
  { manager with batch := manager.batch.addOperation (.createEdge src dst tag) }

def queueDeleteNode (manager : Manager) (nodeId : UInt64) : Manager :=
  { manager with batch := manager.batch.addOperation (.deleteNode nodeId) }

def queueDeleteEdge (manager : Manager) (edgeId : UInt64) : Manager :=
  { manager with batch := manager.batch.addOperation (.deleteEdge edgeId) }

/-- `flush_all_batches`, which `flush_if_needed` and the flush thread may call at any time. -/
def flushAllBatches (manager : Manager) : Manager :=
  ⟨⟨[], []⟩, manager.executed ++ manager.batch.operations⟩

end Manager

/-- A call of a queue function, or a flush. -/
inductive Call
  | queue (operation : Operation)
  | flush
  deriving DecidableEq, Repr

def step (manager : Manager) : Call → Option Manager
  | .queue (.createNode tag) => some (manager.queueCreateNode tag)
  | .queue (.createEdge src dst tag) => some (manager.queueCreateEdge src dst tag)
  | .queue (.deleteNode nodeId) => some (manager.queueDeleteNode nodeId)
  | .queue (.deleteEdge edgeId) => some (manager.queueDeleteEdge edgeId)
  | .flush => some manager.flushAllBatches

/-- The operations that were queued. -/
def queued (calls : List Call) : List Operation :=
  calls.filterMap fun call =>
    match call with
    | .queue operation => some operation
    | .flush => none

/-! ## The effect of operations -/

/-- A node or an edge of the schema. -/
structure Record (Content : Type*) where
  id : UInt64
  content : Content
  deleted : Bool
  deriving DecidableEq, Repr

/-- All nodes or edges, and the counter from which new ones get their ids. -/
structure Table (Content : Type*) where
  records : List (Record Content)
  nextId : UInt64
  deriving DecidableEq, Repr

inductive Change (Content : Type*)
  | create (content : Content)
  | delete (id : UInt64)
  deriving DecidableEq, Repr

section Tables

variable {Content : Type*}

def Record.delete (id : UInt64) (record : Record Content) : Record Content :=
  if record.id = id then { record with deleted := true } else record

namespace Table

/-- `CapnProtoDatabase::create_node` and `create_edge`; a deletion sets the `deleted` field of
the records with the id. -/
def change (table : Table Content) : Change Content → Table Content
  | .create content => ⟨table.records ++ [⟨table.nextId, content, false⟩], table.nextId + 1⟩
  | .delete id => { table with records := table.records.map (Record.delete id) }

def changeAll (table : Table Content) (changes : List (Change Content)) : Table Content :=
  changes.foldl change table

def count [DecidableEq Content] (table : Table Content) (content : Content) : Nat :=
  table.records.countP fun record => record.content = content

def deletions (table : Table Content) : List (Record Content) :=
  table.records.filter Record.deleted

end Table

end Tables

structure EdgeContent where
  src : UInt64
  dst : UInt64
  tag : List Char
  deriving DecidableEq, Repr

structure Database where
  nodes : Table (List Char)
  edges : Table EdgeContent
  deriving DecidableEq, Repr

namespace Database

def execute (database : Database) : Operation → Database
  | .createNode tag => { database with nodes := database.nodes.change (.create tag) }
  | .createEdge src dst tag =>
      { database with edges := database.edges.change (.create ⟨src, dst, tag⟩) }
  | .deleteNode nodeId => { database with nodes := database.nodes.change (.delete nodeId) }
  | .deleteEdge edgeId => { database with edges := database.edges.change (.delete edgeId) }

def executeAll (database : Database) (operations : List Operation) : Database :=
  operations.foldl execute database

end Database

/-- The same number of nodes for each tag and of parallel edges, and the same deletions. -/
structure SameEffect (first second : Database) : Prop where
  nodes : ∀ tag, first.nodes.count tag = second.nodes.count tag
  edges : ∀ src dst tag, first.edges.count ⟨src, dst, tag⟩ = second.edges.count ⟨src, dst, tag⟩
  deletedNodes : first.nodes.deletions = second.nodes.deletions
  deletedEdges : first.edges.deletions = second.edges.deletions

/-- Flushed now, the manager has had executed what was queued, whatever the database. -/
def Sequential (calls : List Call) (manager : Manager) : Prop :=
  ∀ database : Database,
    SameEffect (database.executeAll manager.flushAllBatches.executed)
      (database.executeAll (queued calls))

/-- What an operation does to the nodes. -/
def Operation.nodeChange : Operation → Option (Change (List Char))
  | createNode tag => some (.create tag)
  | deleteNode nodeId => some (.delete nodeId)
  | createEdge _ _ _ | deleteEdge _ => none

/-- What an operation does to the edges. -/
def Operation.edgeChange : Operation → Option (Change EdgeContent)
  | createEdge src dst tag => some (.create ⟨src, dst, tag⟩)
  | deleteEdge edgeId => some (.delete edgeId)
  | createNode _ | deleteNode _ => none

/-- Nothing is created after a deletion of the id. -/
def NoneSince {Content : Type*} (id : UInt64) (changes : List (Change Content)) : Prop :=
  ∀ before after, changes = before ++ .delete id :: after → ∀ content, .create content ∉ after

/-- The call does not lose an operation: a creation has a new hash, and when an id has been
deleted in the batch already, no node or edge has been created since. -/
def Keeps (manager : Manager) : Call → Prop
  | .queue (.deleteNode nodeId) =>
      NoneSince nodeId (manager.batch.operations.filterMap Operation.nodeChange)
  | .queue (.deleteEdge edgeId) =>
      NoneSince edgeId (manager.batch.operations.filterMap Operation.edgeChange)
  | .queue operation => hashOperation operation ∉ manager.batch.operationHashes
  | .flush => True

/-! ## Deletions -/

section Tables

variable {Content : Type*} {table : Table Content} {changes : List (Change Content)}
  {id : UInt64}

namespace Table

theorem changeAll_append (table : Table Content) (first second : List (Change Content)) :
    table.changeAll (first ++ second) = (table.changeAll first).changeAll second :=
  List.foldl_append

theorem changeAll_cons (table : Table Content) (change : Change Content)
    (changes : List (Change Content)) :
    table.changeAll (change :: changes) = (table.change change).changeAll changes :=
  rfl

/-- The records with the id are deleted. -/
def AllDeleted (table : Table Content) (id : UInt64) : Prop :=
  ∀ record ∈ table.records, record.id = id → record.deleted = true

theorem change_delete_of_allDeleted (all : table.AllDeleted id) :
    table.change (.delete id) = table := by
  have same : table.records.map (Record.delete id) = table.records := by
    rw [List.map_congr_left (g := fun record => record), List.map_id']
    intro record member
    unfold Record.delete
    split_ifs with isId
    · rw [← all record member isId]
    · rfl
  rw [change, same]

theorem allDeleted_change_delete (table : Table Content) (id : UInt64) :
    (table.change (.delete id)).AllDeleted id := by
  intro record member isId
  obtain ⟨old, -, rfl⟩ := List.mem_map.mp member
  unfold Record.delete at isId ⊢
  split_ifs at isId ⊢ with here
  · rfl
  · exact absurd isId here

theorem AllDeleted.changeAll (all : table.AllDeleted id)
    (noCreation : ∀ content, .create content ∉ changes) :
    (table.changeAll changes).AllDeleted id := by
  induction changes generalizing table with
  | nil => exact all
  | cons change changes ih =>
      refine ih ?_ fun content member => noCreation content (List.mem_cons_of_mem change member)
      cases change with
      | create content => exact absurd List.mem_cons_self (noCreation content)
      | delete other =>
          intro record member isId
          obtain ⟨old, isOld, rfl⟩ := List.mem_map.mp member
          unfold Record.delete at isId ⊢
          split_ifs at isId ⊢ with here
          · rfl
          · exact all old isOld isId

/-- A second deletion does nothing if nothing was created since the first. -/
theorem changeAll_delete_again {before after : List (Change Content)}
    (noCreation : ∀ content, .create content ∉ after) (table : Table Content) :
    (table.changeAll (before ++ .delete id :: after)).change (.delete id) =
      table.changeAll (before ++ .delete id :: after) := by
  rw [changeAll_append]
  exact change_delete_of_allDeleted
    ((allDeleted_change_delete (table.changeAll before) id).changeAll noCreation)

/-- The counter can be made to reach any id. -/
theorem exists_nextId (changes : List (Change Content)) (id : UInt64) :
    ∃ start, ∀ table : Table Content, table.nextId = start →
      (table.changeAll changes).nextId = id := by
  induction changes with
  | nil => exact ⟨id, fun table isStart => isStart⟩
  | cons change changes ih =>
      obtain ⟨start, reaches⟩ := ih
      cases change with
      | create content =>
          refine ⟨start - 1, fun table isStart => reaches _ ?_⟩
          simp [Table.change, isStart]
      | delete other => exact ⟨start, fun table isStart => reaches _ isStart⟩

theorem mem_changeAll {record : Record Content} (member : record ∈ table.records)
    (notDeleted : .delete record.id ∉ changes) : record ∈ (table.changeAll changes).records := by
  induction changes generalizing table with
  | nil => exact member
  | cons change changes ih =>
      refine ih ?_ fun later => notDeleted (List.mem_cons_of_mem change later)
      cases change with
      | create content => exact List.mem_append_left _ member
      | delete other =>
          have different : record.id ≠ other := by
            rintro rfl
            exact notDeleted List.mem_cons_self
          exact List.mem_map.mpr ⟨record, member, by rw [Record.delete, if_neg different]⟩

/-- The deletion of a record that is not deleted shows. -/
theorem deletions_change_delete {record : Record Content} (member : record ∈ table.records)
    (live : record.deleted = false) :
    (table.change (.delete record.id)).deletions.length ≠ table.deletions.length := by
  obtain ⟨before, after, isList⟩ := List.append_of_mem member
  have grows (records : List (Record Content)) : records.countP Record.deleted ≤
      records.countP (Record.deleted ∘ Record.delete record.id) := by
    refine List.countP_mono_left fun other _ isDeleted => ?_
    rw [Function.comp_apply, Record.delete]
    split_ifs
    · rfl
    · exact isDeleted
  have first := grows before
  have last := grows after
  have changed : (Record.deleted ∘ Record.delete record.id) record = true := by
    rw [Function.comp_apply, Record.delete, if_pos rfl]
  rw [deletions, deletions, change, ← List.countP_eq_length_filter,
    ← List.countP_eq_length_filter, List.countP_map, isList, List.countP_append,
    List.countP_append, List.countP_cons_of_pos changed,
    List.countP_cons_of_neg (by simp [live])]
  omega

end Table

end Tables

/-! ## Hashes -/

theorem decimal_injective {first second : UInt64} (same : decimal first = decimal second) :
    first = second := by
  have value := congrArg (fun digits => Nat.ofDigitChars 10 digits 0) same
  simp only [decimal, Nat.ofDigitChars_ten_toDigits] at value
  exact UInt64.toNat_inj.mp value

theorem hashOperation_deleteNode {operation : Operation} {nodeId : UInt64}
    (same : hashOperation operation = hashOperation (.deleteNode nodeId)) :
    operation = .deleteNode nodeId := by
  cases operation with
  | createNode tag => simp [hashOperation, Operation.type, Nat.toDigits_of_lt_base] at same
  | createEdge src dst tag => simp [hashOperation, Operation.type, Nat.toDigits_of_lt_base] at same
  | deleteNode other =>
      simp only [hashOperation, Operation.type, List.append_cancel_left_eq] at same
      rw [decimal_injective same]
  | deleteEdge edgeId => simp [hashOperation, Operation.type, Nat.toDigits_of_lt_base] at same

theorem hashOperation_deleteEdge {operation : Operation} {edgeId : UInt64}
    (same : hashOperation operation = hashOperation (.deleteEdge edgeId)) :
    operation = .deleteEdge edgeId := by
  cases operation with
  | createNode tag => simp [hashOperation, Operation.type, Nat.toDigits_of_lt_base] at same
  | createEdge src dst tag => simp [hashOperation, Operation.type, Nat.toDigits_of_lt_base] at same
  | deleteNode nodeId => simp [hashOperation, Operation.type, Nat.toDigits_of_lt_base] at same
  | deleteEdge other =>
      simp only [hashOperation, Operation.type, List.append_cancel_left_eq] at same
      rw [decimal_injective same]

/-! ## Runs -/

theorem executeAll_append (database : Database) (first second : List Operation) :
    database.executeAll (first ++ second) = (database.executeAll first).executeAll second :=
  List.foldl_append

theorem executeAll_concat (database : Database) (operations : List Operation)
    (operation : Operation) :
    database.executeAll (operations ++ [operation]) =
      (database.executeAll operations).execute operation := by
  rw [executeAll_append]
  rfl

theorem nodes_executeAll (database : Database) (operations : List Operation) :
    (database.executeAll operations).nodes =
      database.nodes.changeAll (operations.filterMap Operation.nodeChange) := by
  induction operations generalizing database with
  | nil => rfl
  | cons operation operations ih =>
      rw [Database.executeAll, List.foldl_cons, ← Database.executeAll, ih]
      cases operation <;> rfl

theorem edges_executeAll (database : Database) (operations : List Operation) :
    (database.executeAll operations).edges =
      database.edges.changeAll (operations.filterMap Operation.edgeChange) := by
  induction operations generalizing database with
  | nil => rfl
  | cons operation operations ih =>
      rw [Database.executeAll, List.foldl_cons, ← Database.executeAll, ih]
      cases operation <;> rfl

/-- Everything that is in the batch when it is flushed now. -/
def Manager.handed (manager : Manager) : List Operation :=
  manager.executed ++ manager.batch.operations

/-- What holds as long as no operation is lost. -/
structure Good (past : List Call) (manager : Manager) : Prop where
  same : ∀ database : Database,
    database.executeAll manager.handed = database.executeAll (queued past)
  hashes : manager.batch.operationHashes =
    (manager.batch.operations.map hashOperation).reverse
  distinct : (manager.batch.operations.map hashOperation).Nodup

variable {past : List Call} {manager next : Manager} {operation : Operation}

theorem step_queue (manager : Manager) (operation : Operation) :
    step manager (.queue operation) =
      some { manager with batch := manager.batch.addOperation operation } := by
  cases operation <;> rfl

theorem queued_concat (past : List Call) (operation : Operation) :
    queued (past ++ [.queue operation]) = queued past ++ [operation] := by
  simp [queued]

theorem Good.mem_hashes (good : Good past manager) (operation : Operation) :
    hashOperation operation ∈ manager.batch.operationHashes ↔
      ∃ other ∈ manager.batch.operations, hashOperation other = hashOperation operation := by
  rw [good.hashes, List.mem_reverse, List.mem_map]

/-- A new operation is added. -/
theorem Good.add (good : Good past manager)
    (fresh : hashOperation operation ∉ manager.batch.operationHashes) :
    Good (past ++ [.queue operation])
      { manager with batch := manager.batch.addOperation operation } := by
  rw [Batch.addOperation, if_neg fresh]
  refine ⟨fun database => ?_, ?_, ?_⟩
  · rw [queued_concat, executeAll_concat, ← good.same database, ← executeAll_concat]
    simp [Manager.handed]
  · simp [good.hashes]
  · rw [good.hashes, List.mem_reverse] at fresh
    rw [List.map_append, List.map_singleton]
    refine List.nodup_append.mpr ⟨good.distinct, by simp, fun hash member other isNew => ?_⟩
    rintro rfl
    rw [List.mem_singleton.mp isNew] at member
    exact fresh member

/-- A dropped operation is not lost if it would do nothing. -/
theorem Good.drop (good : Good past manager)
    (old : hashOperation operation ∈ manager.batch.operationHashes)
    (idle : ∀ database : Database,
      (database.executeAll manager.handed).execute operation =
        database.executeAll manager.handed) :
    Good (past ++ [.queue operation])
      { manager with batch := manager.batch.addOperation operation } := by
  rw [Batch.addOperation, if_pos old]
  refine ⟨fun database => ?_, good.hashes, good.distinct⟩
  rw [queued_concat, executeAll_concat, ← good.same database]
  exact (idle database).symm

theorem Good.sequential (good : Good past manager) : Sequential past manager := by
  intro database
  have same := good.same database
  rw [Manager.handed] at same
  rw [Manager.flushAllBatches, same]
  exact ⟨fun _ => rfl, fun _ _ _ => rfl, rfl, rfl⟩

/-! ## Repeated deletions -/

section Parts

variable {Content : Type*} {part : Operation → Option (Change Content)} {id : UInt64}
  {operations : List Operation}

/-- A deletion of the batch is idle if nothing was created since. -/
theorem delete_idle (isDelete : part operation = some (.delete id))
    (member : operation ∈ operations) (since : NoneSince id (operations.filterMap part))
    (executed : List Operation) (table : Table Content) :
    (table.changeAll ((executed ++ operations).filterMap part)).change (.delete id) =
      table.changeAll ((executed ++ operations).filterMap part) := by
  obtain ⟨before, after, rfl⟩ := List.append_of_mem member
  have isChanges : (before ++ operation :: after).filterMap part =
      before.filterMap part ++ .delete id :: after.filterMap part := by
    rw [List.filterMap_append, List.filterMap_cons_some isDelete]
  have noCreation := since _ _ isChanges
  rw [List.filterMap_append, isChanges, ← List.append_assoc]
  exact Table.changeAll_delete_again noCreation table

/-- Otherwise it is not, for some counter: the record that was created then has the id. -/
theorem delete_not_idle (distinct : (operations.filterMap part).Nodup)
    (created : ¬ NoneSince id (operations.filterMap part)) (executed : List Operation) :
    ∃ start, ∀ table : Table Content, table.nextId = start →
      ((table.changeAll ((executed ++ operations).filterMap part)).change
          (.delete id)).deletions ≠
        (table.changeAll ((executed ++ operations).filterMap part)).deletions := by
  simp only [NoneSince, not_forall, not_not] at created
  obtain ⟨before, after, isChanges, content, member⟩ := created
  obtain ⟨middle, last, rfl⟩ := List.append_of_mem member
  obtain ⟨start, reaches⟩ := Table.exists_nextId
    (executed.filterMap part ++ (before ++ .delete id :: middle)) id
  refine ⟨start, fun table isStart same => ?_⟩
  rw [List.filterMap_append, isChanges] at same
  have notLast : Change.delete id ∉ last := by
    rw [isChanges, List.nodup_append] at distinct
    have notLater := (List.nodup_cons.mp distinct.2.1).1
    exact fun later => notLater (List.mem_append_right _ (List.mem_cons_of_mem _ later))
  have regroup : executed.filterMap part ++ (before ++ .delete id ::
      (middle ++ .create content :: last)) =
        executed.filterMap part ++ (before ++ .delete id :: middle) ++
          (.create content :: last) := by
    simp
  have isNext := reaches table isStart
  have live : (⟨id, content, false⟩ : Record Content) ∈
      (table.changeAll (executed.filterMap part ++ (before ++ .delete id ::
        (middle ++ .create content :: last)))).records := by
    have isLast : (⟨id, content, false⟩ : Record Content) ∈
        ((table.changeAll (executed.filterMap part ++ (before ++ .delete id :: middle))).change
          (.create content)).records := by
      simp [Table.change, isNext]
    rw [regroup, Table.changeAll_append, Table.changeAll_cons]
    exact Table.mem_changeAll isLast notLast
  exact Table.deletions_change_delete live rfl (congrArg List.length same)

end Parts

/-- The operation with a change of the nodes. -/
def ofNodeChange : Change (List Char) → Operation
  | .create tag => .createNode tag
  | .delete nodeId => .deleteNode nodeId

def ofEdgeChange : Change EdgeContent → Operation
  | .create content => .createEdge content.src content.dst content.tag
  | .delete edgeId => .deleteEdge edgeId

theorem eq_ofNodeChange {change : Change (List Char)}
    (isChange : operation.nodeChange = some change) : operation = ofNodeChange change := by
  cases operation <;> cases isChange <;> rfl

theorem eq_ofEdgeChange {change : Change EdgeContent}
    (isChange : operation.edgeChange = some change) : operation = ofEdgeChange change := by
  cases operation <;> cases isChange <;> rfl

theorem Good.changes_nodup (good : Good past manager) {Content : Type*}
    {part : Operation → Option (Change Content)} {ofChange : Change Content → Operation}
    (inverse : ∀ operation change, part operation = some change → operation = ofChange change) :
    (manager.batch.operations.filterMap part).Nodup := by
  have distinct : manager.batch.operations.Nodup := List.Nodup.of_map _ good.distinct
  exact distinct.filterMap fun first second change isFirst isSecond =>
    (inverse first change isFirst).trans (inverse second change isSecond).symm

/-- A deletion that is not in the batch has nothing after it. -/
theorem Good.noneSince (good : Good past manager) {Content : Type*} {id : UInt64}
    {part : Operation → Option (Change Content)}
    (isOperation : ∀ other, part other = some (.delete id) → other = operation)
    (fresh : hashOperation operation ∉ manager.batch.operationHashes) :
    NoneSince id (manager.batch.operations.filterMap part) := by
  intro before after isChanges
  have inChanges : Change.delete id ∈ manager.batch.operations.filterMap part := by
    rw [isChanges]
    exact List.mem_append_right _ List.mem_cons_self
  obtain ⟨other, member, isDelete⟩ := List.mem_filterMap.mp inChanges
  rw [isOperation other isDelete] at member
  exact absurd ((good.mem_hashes operation).mpr ⟨operation, member, rfl⟩) fresh

theorem Good.deleteNode (good : Good past manager) {nodeId : UInt64}
    (keeps : Keeps manager (.queue (.deleteNode nodeId))) :
    Good (past ++ [.queue (.deleteNode nodeId)])
      { manager with batch := manager.batch.addOperation (.deleteNode nodeId) } := by
  by_cases old : hashOperation (.deleteNode nodeId) ∈ manager.batch.operationHashes
  · refine good.drop old fun database => ?_
    obtain ⟨other, member, sameHash⟩ := (good.mem_hashes _).mp old
    obtain rfl := hashOperation_deleteNode sameHash
    have idle := delete_idle rfl member keeps manager.executed database.nodes
    rw [← Manager.handed, ← nodes_executeAll] at idle
    rw [Database.execute, idle]
  · exact good.add old

theorem Good.deleteEdge (good : Good past manager) {edgeId : UInt64}
    (keeps : Keeps manager (.queue (.deleteEdge edgeId))) :
    Good (past ++ [.queue (.deleteEdge edgeId)])
      { manager with batch := manager.batch.addOperation (.deleteEdge edgeId) } := by
  by_cases old : hashOperation (.deleteEdge edgeId) ∈ manager.batch.operationHashes
  · refine good.drop old fun database => ?_
    obtain ⟨other, member, sameHash⟩ := (good.mem_hashes _).mp old
    obtain rfl := hashOperation_deleteEdge sameHash
    have idle := delete_idle rfl member keeps manager.executed database.edges
    rw [← Manager.handed, ← edges_executeAll] at idle
    rw [Database.execute, idle]
  · exact good.add old

theorem Good.flush (good : Good past manager) :
    Good (past ++ [.flush]) manager.flushAllBatches := by
  refine ⟨fun database => ?_, rfl, List.nodup_nil⟩
  have same := good.same database
  simpa [Manager.handed, Manager.flushAllBatches, queued] using same

theorem Good.call (good : Good past manager) {call : Call} (keeps : Keeps manager call) :
    ∃ next, step manager call = some next ∧ Good (past ++ [call]) next := by
  cases call with
  | flush => exact ⟨_, rfl, good.flush⟩
  | queue operation =>
      refine ⟨_, step_queue manager operation, ?_⟩
      cases operation with
      | createNode tag => exact good.add keeps
      | createEdge src dst tag => exact good.add keeps
      | deleteNode nodeId => exact good.deleteNode keeps
      | deleteEdge edgeId => exact good.deleteEdge keeps

/-- After a lost operation the executor has done what it had done before it. -/
theorem Good.lost (good : Good past manager)
    (old : hashOperation operation ∈ manager.batch.operationHashes)
    (sequential : Sequential (past ++ [.queue operation])
      { manager with batch := manager.batch.addOperation operation }) (database : Database) :
    SameEffect (database.executeAll manager.handed)
      ((database.executeAll manager.handed).execute operation) := by
  have effect := sequential database
  rw [Batch.addOperation, if_pos old, queued_concat, executeAll_concat,
    ← good.same database] at effect
  exact effect

theorem count_create {Content : Type*} [DecidableEq Content] (table : Table Content)
    (content : Content) : (table.change (.create content)).count content =
      table.count content + 1 := by
  simp [Table.change, Table.count]

theorem Good.keeps (good : Good past manager) {call : Call}
    (stepped : step manager call = some next) (sequential : Sequential (past ++ [call]) next) :
    Keeps manager call := by
  cases call with
  | flush => trivial
  | queue operation =>
      obtain rfl := Option.some.inj ((step_queue manager operation).symm.trans stepped)
      by_cases old : hashOperation operation ∈ manager.batch.operationHashes
      · have lost := good.lost old sequential
        cases operation with
        | createNode tag =>
            have counts := (lost ⟨⟨[], 0⟩, ⟨[], 0⟩⟩).nodes tag
            rw [Database.execute, count_create] at counts
            omega
        | createEdge src dst tag =>
            have counts := (lost ⟨⟨[], 0⟩, ⟨[], 0⟩⟩).edges src dst tag
            rw [Database.execute, count_create] at counts
            omega
        | deleteNode nodeId =>
            by_contra created
            have distinct := good.changes_nodup fun _ _ => eq_ofNodeChange
            obtain ⟨start, shows⟩ := delete_not_idle distinct created manager.executed
            have deletions := (lost ⟨⟨[], start⟩, ⟨[], 0⟩⟩).deletedNodes
            rw [Database.execute, nodes_executeAll] at deletions
            exact shows ⟨[], start⟩ rfl deletions.symm
        | deleteEdge edgeId =>
            by_contra created
            have distinct := good.changes_nodup fun _ _ => eq_ofEdgeChange
            obtain ⟨start, shows⟩ := delete_not_idle distinct created manager.executed
            have deletions := (lost ⟨⟨[], 0⟩, ⟨[], start⟩⟩).deletedEdges
            rw [Database.execute, edges_executeAll] at deletions
            exact shows ⟨[], start⟩ rfl deletions.symm
      · cases operation with
        | createNode tag => exact old
        | createEdge src dst tag => exact old
        | deleteNode nodeId => exact good.noneSince (fun _ => eq_ofNodeChange) old
        | deleteEdge edgeId => exact good.noneSince (fun _ => eq_ofEdgeChange) old

theorem good_initial : Good [] Manager.initial where
  same _ := rfl
  hashes := rfl
  distinct := List.nodup_nil

/-- Flushed after any prefix of its calls, the manager has had executed what was queued, up to
what the effect of the operations is, exactly when no call loses an operation. -/
theorem sequential_iff_keeps (calls : List Call) :
    (∀ before, before <+: calls →
        ∃ last, run step Manager.initial before = some last ∧ Sequential before last) ↔
      MeetsAlong step Keeps Manager.initial calls :=
  forall_prefix_iff_meetsAlong Good Sequential (fun _ _ good => good.sequential)
    (fun _ _ _ good keeps => good.call keeps)
    (fun _ _ _ _ good stepped sequential => good.keeps stepped sequential) [] good_initial calls

/-- Of two nodes with one tag only one is created. -/
theorem repeated_creation_lost :
    ∃ last, run step Manager.initial [.queue (.createNode ['A']), .queue (.createNode ['A'])] =
        some last ∧
      last.flushAllBatches.executed = [.createNode ['A']] ∧
      ¬ Sequential [.queue (.createNode ['A']), .queue (.createNode ['A'])] last := by
  refine ⟨_, rfl, by decide +kernel, fun sequential => ?_⟩
  have counts := (sequential ⟨⟨[], 0⟩, ⟨[], 0⟩⟩).nodes ['A']
  exact absurd counts (by decide +kernel)

end BatchManager

end Pmgd
