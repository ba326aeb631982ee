import Pmgd.Recovery

/-!
# Crash atomicity of a transaction

A read-write transaction sets the header of the slot it has won, makes its calls, then
commits or rolls back, and clears `ACTIVE` in the header.  Its stores reach persistent memory
in program order, between the stores of the transactions in other slots.  After a crash at
any point, and further crashes during recovery, the logged bytes have the values of before
the transaction if the header was still active, and its outcome if it was not.

This holds exactly for the ids that fit the 56-bit field of a journal entry: recovery compares
the field with the 63-bit id of the header, and finds no entry of a transaction with a larger
id.
-/

namespace Pmgd

open LabelledRun UndoLog TransactionHdr

/-! ## The stores of a transaction -/

/-- How a transaction ends. -/
inductive Ending
  | commit
  | abort
  deriving DecidableEq, Repr

namespace Execution

def write (execution : Execution) (stores : List Store) : Execution where
  tx := execution.tx
  pm := execution.pm.applyAll stores
  stores := execution.stores ++ stores

/-- A transaction that has just won a slot in `alloc_transaction`. -/
def begin (manager : TransactionManager) (pm : Pm) (id : BitVec 64) (slot : Nat) :
    Execution where
  tx := ⟨⟨id, slot, manager.jend⟩, true, 0⟩
  pm := pm.apply (.header slot (id ||| active))
  stores := [.header slot (id ||| active)]

/-- `finalize_commit`, which flushes what is stored already, or `rollback`. -/
def endingStores (execution : Execution) : Ending → List Store
  | .commit => []
  | .abort => rollback execution.pm execution.tx.txHandle execution.tx.jcur

/-- `free_transaction`. -/
def freeTransaction (execution : Execution) : Execution :=
  execution.write [.header execution.tx.txHandle.index
    (clearActive (execution.pm.txTable execution.tx.txHandle.index))]

/-- What the destructor does to persistent memory. -/
def finish (execution : Execution) (ending : Ending) : Execution :=
  (execution.write (execution.endingStores ending)).freeTransaction

end Execution

/-! ## Crashes -/

/-- A store of the transaction in question, or of the rest of the system. -/
inductive Event
  | own (store : Store)
  | foreign (store : Store)

def Event.store : Event → Store
  | .own store => store
  | .foreign store => store

def ownStores (trace : List Event) : List Store :=
  trace.filterMap fun event =>
    match event with
    | .own store => some store
    | .foreign _ => none

/-- The bytes that some calls log. -/
def LoggedBy (calls : List Call) (address : Nat) : Prop :=
  ∃ ptr len, .log ptr len ∈ calls ∧ ptr ≤ address ∧ address < ptr + len

/-- The store does not touch a slot, nor any of the given bytes. -/
def Store.Avoids (slot : Nat) (bytes : Nat → Prop) : Store → Prop
  | .entry other _ _ => other ≠ slot
  | .inPlace address _ => ¬ bytes address
  | .header other _ => other ≠ slot

/-- A transaction that wins an idle slot, whose extent holds entries of other ids, and a crash
after some of its stores and of the stores of others.  The others keep away from its slot and
from the bytes it logs, and those of them that are active at the crash have no images of
these bytes. -/
structure Crash (manager : TransactionManager) (id : BitVec 64) where
  start : Pm
  slot : Nat
  calls : List Call
  body : Execution
  ending : Ending
  trace : List Event
  slot_lt : slot < manager.maxTransactions
  idle : ¬ Active (start.txTable slot)
  leftOver : ∀ je < manager.jend, ¬ (start.journal slot je).Carries id
  logged : StoresLogged calls
  accepted : run Execution.call (Execution.begin manager start id slot) calls = some body
  inOrder : ownStores trace <+: (body.finish ending).stores
  isolated : ∀ store, .foreign store ∈ trace → store.Avoids slot (LoggedBy calls)
  exclusive : ∀ other < manager.maxTransactions, other ≠ slot →
    Active ((start.applyAll (trace.map Event.store)).txTable other) →
      ∀ address, LoggedBy calls address →
        ¬ Covers (manager.replayed (start.applyAll (trace.map Event.store)) other) address

namespace Crash

variable {manager : TransactionManager} {id : BitVec 64}

/-- Persistent memory at the crash. -/
def crashed (crash : Crash manager id) : Pm :=
  crash.start.applyAll (crash.trace.map Event.store)

/-- The transaction had made all its stores. -/
def Finished (crash : Crash manager id) : Prop :=
  ownStores crash.trace = (crash.body.finish crash.ending).stores

/-- The memory that the end of the transaction stands for. -/
def outcome (crash : Crash manager id) : Nat → UInt8 :=
  match crash.ending with
  | .commit => crash.body.pm.mem
  | .abort => crash.start.mem

end Crash

/-- Whenever a transaction with the id is cut off, and recovery completes after any number of
further crashes, the bytes it has logged are all old or all new. -/
def CrashAtomic (id : BitVec 64) : Prop :=
  ∀ (manager : TransactionManager) (crash : Crash manager id) (final : Pm),
    manager.RecoversTo crash.crashed final →
      (Active (crash.crashed.txTable crash.slot) →
        ∀ address, LoggedBy crash.calls address →
          final.mem address = crash.start.mem address) ∧
      (crash.Finished → ∀ address, LoggedBy crash.calls address →
        final.mem address = crash.outcome address) ∧
      manager.recovered final = final

/-! ## The other transactions do not matter -/

/-- Two states agree on a slot and on some bytes. -/
structure AgreeOn (slot : Nat) (bytes : Nat → Prop) (left right : Pm) : Prop where
  header : left.txTable slot = right.txTable slot
  journal : left.journal slot = right.journal slot
  mem : ∀ address, bytes address → left.mem address = right.mem address

namespace AgreeOn

variable {slot : Nat} {bytes : Nat → Prop} {left right : Pm}

theorem refl (slot : Nat) (bytes : Nat → Prop) (pm : Pm) : AgreeOn slot bytes pm pm :=
  ⟨rfl, rfl, fun _ _ => rfl⟩

theorem apply (agree : AgreeOn slot bytes left right) (store : Store) :
    AgreeOn slot bytes (left.apply store) (right.apply store) := by
  cases store with
  | entry other je field =>
      refine ⟨agree.header, ?_, agree.mem⟩
      by_cases same : slot = other
      · subst same
        simp only [Pm.apply, Pm.modifyEntry, Function.update_self, agree.journal]
      · rw [Pm.apply, Pm.apply, Pm.modifyEntry_journal_of_slot_ne same,
          Pm.modifyEntry_journal_of_slot_ne same, agree.journal]
  | inPlace address byte =>
      refine ⟨agree.header, agree.journal, fun other inBytes => ?_⟩
      simp only [Pm.apply, Function.update_apply, agree.mem other inBytes]
  | header other txId =>
      refine ⟨?_, agree.journal, agree.mem⟩
      simp only [Pm.apply, Function.update_apply, agree.header]

theorem apply_of_avoids (agree : AgreeOn slot bytes left right) {store : Store}
    (avoids : store.Avoids slot bytes) : AgreeOn slot bytes (left.apply store) right := by
  cases store with
  | entry other je field =>
      refine ⟨agree.header, ?_, agree.mem⟩
      rw [Pm.apply, Pm.modifyEntry_journal_of_slot_ne (Ne.symm avoids), agree.journal]
  | inPlace address byte =>
      refine ⟨agree.header, agree.journal, fun other inBytes => ?_⟩
      have different : other ≠ address := by
        rintro rfl
        exact avoids inBytes
      simp only [Pm.apply, Function.update_of_ne different, agree.mem other inBytes]
  | header other txId =>
      refine ⟨?_, agree.journal, agree.mem⟩
      simp only [Pm.apply, Function.update_of_ne (Ne.symm avoids), agree.header]

/-- On its slot and bytes, the system is where the transaction alone would be. -/
theorem applyAll_trace {trace : List Event} (agree : AgreeOn slot bytes left right)
    (isolated : ∀ store, .foreign store ∈ trace → store.Avoids slot bytes) :
    AgreeOn slot bytes (left.applyAll (trace.map Event.store))
      (right.applyAll (ownStores trace)) := by
  induction trace generalizing left right with
  | nil => exact agree
  | cons event trace ih =>
      have rest : ∀ store, Event.foreign store ∈ trace → store.Avoids slot bytes :=
        fun store member => isolated store (List.mem_cons_of_mem event member)
      cases event with
      | own store => exact ih (agree.apply store) rest
      | foreign store => exact ih (agree.apply_of_avoids (isolated store (by simp))) rest

end AgreeOn

/-! ## A transaction on its own -/

/-- A state in the course of a transaction with the handle: the header is as at the start,
and the entries written so far undo to the memory of the start. -/
def InProgress (start : Pm) (handle : TransactionHandle) (pm : Pm) : Prop :=
  pm.txTable = start.txTable ∧
    ∃ logged tx, tx.txHandle = handle ∧ tx.jcur ≤ handle.jend ∧ Undoable start logged tx pm

/-- The stores of one call, cut off anywhere. -/
theorem exists_stores_of_call {start : Pm} {logged : Nat → Prop} {execution next : Execution}
    {call : Call} {calls : List Call}
    (undoable : Undoable start logged execution.tx execution.pm)
    (sameTable : execution.pm.txTable = start.txTable)
    (room : execution.tx.jcur ≤ execution.tx.txHandle.jend)
    (covered : StoresLoggedAfter logged (call :: calls))
    (called : execution.call call = some next) :
    ∃ stores, next.stores = execution.stores ++ stores ∧
      next.pm = execution.pm.applyAll stores ∧
      next.pm.txTable = start.txTable ∧ next.tx.jcur ≤ next.tx.txHandle.jend ∧
      ∀ cut, InProgress start execution.tx.txHandle
        (execution.pm.applyAll (stores.take cut)) := by
  cases call with
  | log ptr len =>
      simp only [Execution.call] at called
      cases result : execution.tx.log execution.pm.mem ptr len with
      | error _ => simp [result] at called
      | ok pair =>
          obtain ⟨tx, stores⟩ := pair
          simp only [result, Option.some.injEq] at called
          subst called
          obtain ⟨extended, -⟩ := extends_of_log result
          obtain ⟨fits, rfl, rfl⟩ := log_eq_ok_iff.mp result
          refine ⟨_, rfl, rfl, extended.txTable.trans sameTable, fits.le, fun cut => ?_⟩
          obtain ⟨count, bounded, cutExtends⟩ := extends_take_logEntries execution.tx.txHandle
            execution.pm (len / jeMaxLen) execution.tx.jcur ptr len cut
          rw [jeEntries_eq] at fits
          refine ⟨cutExtends.txTable.trans sameTable, logged,
            { execution.tx with jcur := execution.tx.jcur + count }, rfl, ?_,
            undoable.extend cutExtends⟩
          simp only
          omega
  | store address byte =>
      obtain rfl := Option.some.inj called
      refine ⟨[.inPlace address byte], rfl, rfl, sameTable, room, fun cut => ?_⟩
      cases cut with
      | zero => exact ⟨sameTable, logged, execution.tx, rfl, room, undoable⟩
      | succ cut =>
          rw [List.take_of_length_le (by simp)]
          exact ⟨sameTable, logged, execution.tx, rfl, room, undoable.store covered.1 byte⟩

/-- The stores of a sequence of calls, cut off anywhere. -/
theorem exists_stores_of_run {start : Pm} {logged : Nat → Prop} {execution last : Execution}
    {calls : List Call} (undoable : Undoable start logged execution.tx execution.pm)
    (sameTable : execution.pm.txTable = start.txTable)
    (room : execution.tx.jcur ≤ execution.tx.txHandle.jend)
    (covered : StoresLoggedAfter logged calls)
    (ran : run Execution.call execution calls = some last) :
    ∃ stores, last.stores = execution.stores ++ stores ∧
      last.pm = execution.pm.applyAll stores ∧
      last.pm.txTable = start.txTable ∧ last.tx.jcur ≤ last.tx.txHandle.jend ∧
      ∀ cut, InProgress start execution.tx.txHandle
        (execution.pm.applyAll (stores.take cut)) := by
  induction calls generalizing logged execution with
  | nil =>
      obtain rfl := Option.some.inj ran
      refine ⟨[], by simp, rfl, sameTable, room, fun cut => ?_⟩
      rw [List.take_nil]
      exact ⟨sameTable, logged, execution.tx, rfl, room, undoable⟩
  | cons call calls ih =>
      rw [run_cons, Option.bind_eq_some_iff] at ran
      obtain ⟨next, called, rest⟩ := ran
      obtain ⟨first, firstStores, firstPm, firstTable, firstRoom, firstCut⟩ :=
        exists_stores_of_call undoable sameTable room covered called
      obtain ⟨logged', kept, later⟩ := undoable_call undoable covered called
      obtain ⟨others, otherStores, otherPm, lastTable, lastRoom, otherCut⟩ :=
        ih kept firstTable firstRoom later rest
      refine ⟨first ++ others, by rw [otherStores, firstStores, List.append_assoc],
        by rw [otherPm, firstPm, Pm.applyAll_append], lastTable, lastRoom, fun cut => ?_⟩
      rcases Nat.lt_or_ge cut first.length with short | whole
      · rw [List.take_append_of_le_length short.le]
        exact firstCut cut
      · rw [List.take_append, List.take_of_length_le whole, Pm.applyAll_append, ← firstPm,
          ← call_txHandle called]
        exact otherCut _

/-- A rollback that is cut short leaves the log as it was. -/
theorem Undoable.rollback_take {start pm : Pm} {logged : Nat → Prop} {tx : TransactionImpl}
    (undoable : Undoable start logged tx pm) (small : tx.txHandle.id.toNat < 2 ^ 56)
    (cut : Nat) :
    Undoable start logged tx (pm.applyAll ((rollback pm tx.txHandle tx.jcur).take cut)) ∧
      (pm.applyAll ((rollback pm tx.txHandle tx.jcur).take cut)).txTable = pm.txTable := by
  rw [rollback, validEntries_of_undoable undoable small]
  obtain ⟨mem, isMem, agrees⟩ := applyAll_of_subset_replay pm
    (List.take_subset cut (replay (pm.journal tx.txHandle.index) tx.jcur))
  rw [isMem]
  refine ⟨⟨undoable.own, undoable.covers, ?_, undoable.leftOver⟩, rfl⟩
  rw [← undoable.undoes]
  funext address
  exact undo_congr (agrees address)

namespace Crash

variable {manager : TransactionManager} {id : BitVec 64} (crash : Crash manager id)

def handle : TransactionHandle :=
  ⟨id, crash.slot, manager.jend⟩

/-- The state after the slot has been won. -/
def begun : Pm :=
  crash.start.apply (.header crash.slot (id ||| active))

theorem body_stores :
    ∃ stores logged, crash.body.stores =
        .header crash.slot (id ||| active) :: stores ∧
      crash.body.pm = crash.begun.applyAll stores ∧
      crash.body.tx.txHandle = crash.handle ∧
      crash.body.pm.txTable = crash.begun.txTable ∧
      crash.body.tx.jcur ≤ manager.jend ∧
      Undoable crash.begun logged crash.body.tx crash.body.pm ∧
      ∀ cut, InProgress crash.begun crash.handle (crash.begun.applyAll (stores.take cut)) := by
  have initially : Undoable crash.begun (fun _ => False)
      (Execution.begin manager crash.start id crash.slot).tx crash.begun :=
    Undoable.initially rfl
  obtain ⟨sameHandle, logged, undoable⟩ :=
    undoable_run _ initially crash.logged crash.accepted
  obtain ⟨stores, isStores, isPm, sameTable, room, cuts⟩ :=
    exists_stores_of_run initially rfl (Nat.zero_le _) crash.logged crash.accepted
  rw [sameHandle] at room
  exact ⟨stores, logged, isStores, isPm, sameHandle, sameTable, room, undoable, cuts⟩

/-- After the first of its stores and before the last one, a transaction is in progress. -/
theorem inProgress_of_prefix (small : id.toNat < 2 ^ 56) {made : List Store}
    (inOrder : made <+: (crash.body.finish crash.ending).stores) (nonempty : made ≠ [])
    (unfinished : made ≠ (crash.body.finish crash.ending).stores) :
    InProgress crash.begun crash.handle (crash.start.applyAll made) := by
  obtain ⟨stores, logged, isStores, isPm, sameHandle, sameTable, room, undoable, cuts⟩ :=
    crash.body_stores
  have smallHandle : crash.body.tx.txHandle.id.toNat < 2 ^ 56 := by rwa [sameHandle]
  have whole : (crash.body.finish crash.ending).stores =
      .header crash.slot (id ||| active) :: (stores ++ crash.body.endingStores crash.ending) ++
        [.header crash.slot (clearActive ((crash.body.pm.applyAll
          (crash.body.endingStores crash.ending)).txTable crash.slot))] := by
    simp [Execution.finish, Execution.freeTransaction, Execution.write, isStores, sameHandle,
      handle]
  have beforeLast : made <+:
      .header crash.slot (id ||| active) :: (stores ++ crash.body.endingStores crash.ending) := by
    rw [whole] at inOrder unfinished
    rcases List.prefix_concat_iff.mp inOrder with same | shorter
    · exact absurd same unfinished
    · exact shorter
  cases made with
  | nil => exact absurd rfl nonempty
  | cons first made =>
      obtain ⟨rfl, rest⟩ := List.cons_prefix_cons.mp beforeLast
      obtain ⟨cut, rfl⟩ : ∃ cut, made = (stores ++ crash.body.endingStores crash.ending).take
          cut := ⟨made.length, List.prefix_iff_eq_take.mp rest⟩
      rw [Pm.applyAll_cons]
      change InProgress crash.begun crash.handle (crash.begun.applyAll _)
      rcases Nat.lt_or_ge cut stores.length with short | inEnding
      · rw [List.take_append_of_le_length short.le]
        exact cuts cut
      · rw [List.take_append, List.take_of_length_le inEnding, Pm.applyAll_append, ← isPm]
        cases crash.ending with
        | commit =>
            simp only [Execution.endingStores, List.take_nil, Pm.applyAll_nil]
            exact ⟨sameTable, logged, crash.body.tx, sameHandle, room, undoable⟩
        | abort =>
            obtain ⟨kept, keptTable⟩ := undoable.rollback_take smallHandle
              (cut - stores.length)
            exact ⟨keptTable.trans sameTable, logged, crash.body.tx, sameHandle, room, kept⟩

/-- Recovery of a transaction in progress restores the memory of its start. -/
theorem mem_recoverSlot_of_inProgress (small : id.toNat < 2 ^ 56) {pm : Pm}
    (inProgress : InProgress crash.begun crash.handle pm) :
    (pm.applyAll (manager.recoverSlot pm crash.slot)).mem = crash.start.mem := by
  obtain ⟨sameTable, logged, tx, sameHandle, room, undoable⟩ := inProgress
  have header : pm.txTable crash.slot = id ||| active := by
    rw [sameTable, begun]
    exact Function.update_self _ _ _
  have idle : ¬ Active id := (not_active_iff_lt id).mpr (by omega)
  have own := undoable.own
  have undoes := undoable.undoes
  have leftOver := undoable.leftOver
  simp only [sameHandle, handle] at own undoes leftOver
  have found : validEntries (pm.journal crash.slot) id manager.jend = tx.jcur := by
    refine validEntries_eq room (fun je before => ?_) fun short carries => ?_
    · rw [JournalEntry.Carries, own je before, setWidth_entryTxId small]
    · rw [JournalEntry.Carries, leftOver tx.jcur le_rfl] at carries
      exact crash.leftOver tx.jcur short carries
  rw [TransactionManager.mem_applyAll_recoverSlot, header, if_pos (active_or id),
    TransactionManager.replayed, header, clearActive_or idle, found, undoes]
  rfl

/-- At the end of a transaction its slot is idle and the memory is its outcome. -/
theorem finish_spec (small : id.toNat < 2 ^ 56) :
    crash.start.applyAll (crash.body.finish crash.ending).stores =
        (crash.body.finish crash.ending).pm ∧
      ¬ Active ((crash.body.finish crash.ending).pm.txTable crash.slot) ∧
      (crash.body.finish crash.ending).pm.mem = crash.outcome := by
  obtain ⟨stores, logged, isStores, isPm, sameHandle, -, -, undoable, -⟩ := crash.body_stores
  have smallHandle : crash.body.tx.txHandle.id.toNat < 2 ^ 56 := by rwa [sameHandle]
  have sameSlot : crash.body.tx.txHandle.index = crash.slot := by rw [sameHandle, handle]
  refine ⟨?_, ?_, ?_⟩
  · simp only [Execution.finish, Execution.freeTransaction, Execution.write, isStores,
      Pm.applyAll_append, Pm.applyAll_cons, isPm, begun]
  · simp only [Execution.finish, Execution.freeTransaction, Execution.write, sameSlot,
      Pm.applyAll_cons, Pm.applyAll_nil, Pm.apply, Function.update_self]
    exact not_active_clearActive _
  · simp only [Execution.finish, Execution.freeTransaction, Execution.write, outcome,
      Pm.applyAll_cons, Pm.applyAll_nil, Pm.apply]
    cases crash.ending with
    | commit => rfl
    | abort =>
        rw [Execution.endingStores, rollback, validEntries_of_undoable undoable smallHandle,
          applyAll_replay]
        exact undoable.undoes

end Crash

/-- Transactions whose ids fit the field of an entry are atomic. -/
theorem crashAtomic_of_lt {id : BitVec 64} (small : id.toNat < 2 ^ 56) : CrashAtomic id := by
  intro manager crash final recovers
  have agree : AgreeOn crash.slot (LoggedBy crash.calls) crash.crashed
      (crash.start.applyAll (ownStores crash.trace)) :=
    (AgreeOn.refl _ _ crash.start).applyAll_trace crash.isolated
  have finalMem : ∀ address, LoggedBy crash.calls address → final.mem address =
      ((crash.start.applyAll (ownStores crash.trace)).applyAll (manager.recoverSlot
        (crash.start.applyAll (ownStores crash.trace)) crash.slot)).mem address := by
    intro address logged
    have others : ∀ other < manager.maxTransactions, other ≠ crash.slot →
        Active (crash.crashed.txTable other) →
        ¬ Covers (manager.replayed crash.crashed other) address :=
      fun other bounded different isActive =>
        crash.exclusive other bounded different isActive address logged
    rw [manager.eq_recovered_of_recoversTo recovers,
      manager.recovered_mem crash.slot_lt others]
    exact manager.mem_recoverSlot_congr agree.journal agree.header (agree.mem address logged)
  obtain ⟨finishPm, finishIdle, finishMem⟩ := crash.finish_spec small
  refine ⟨fun isActive address logged => ?_, fun finished address logged => ?_, ?_⟩
  · rw [agree.header] at isActive
    have nonempty : ownStores crash.trace ≠ [] := by
      intro none
      rw [none] at isActive
      exact crash.idle isActive
    have unfinished : ownStores crash.trace ≠ (crash.body.finish crash.ending).stores := by
      intro finished
      rw [finished, finishPm] at isActive
      exact finishIdle isActive
    rw [finalMem address logged, crash.mem_recoverSlot_of_inProgress small
      (crash.inProgress_of_prefix small crash.inOrder nonempty unfinished)]
  · rw [finalMem address logged, finished, finishPm,
      manager.recoverSlot_of_not_active finishIdle, Pm.applyAll_nil, finishMem]
  · rw [manager.eq_recovered_of_recoversTo recovers, manager.recovered_recovered]

/-! ## Ids that do not fit -/

namespace Crash

/-- Persistent memory of a new graph. -/
def newPm : Pm where
  txTable _ := 0
  journal _ _ := ⟨0, 0, 0, fun _ => 0⟩
  mem _ := 0

/-- The stores of a transaction that logs a byte and stores to it. -/
def loggedStore (id : BitVec 64) : List Store :=
  logEntries ⟨id, 0, 3⟩ newPm.mem 0 0 100 1 ++ [.inPlace 100 1]

/-- The system crashes after the store. -/
def afterStore (id : BitVec 64) (nonzero : id ≠ 0) : Crash ⟨1, 3⟩ id where
  start := newPm
  slot := 0
  calls := [.log 100 1, .store 100 1]
  body := ⟨⟨⟨id, 0, 3⟩, true, 1⟩,
    (newPm.apply (.header 0 (id ||| active))).applyAll (loggedStore id),
    .header 0 (id ||| active) :: loggedStore id⟩
  ending := .commit
  trace := (.header 0 (id ||| active) :: loggedStore id).map Event.own
  slot_lt := Nat.one_pos
  idle := by simp [newPm, Active]
  leftOver je _ carries := nonzero (by simpa [newPm, JournalEntry.Carries] using carries.symm)
  logged := by simp [StoresLogged, StoresLoggedAfter]
  accepted := rfl
  inOrder := ⟨[.header 0 (clearActive (id ||| active))], rfl⟩
  isolated store member := by simp at member
  exclusive other bounded different := absurd (Nat.lt_one_iff.mp bounded) different

theorem crashed_afterStore {id : BitVec 64} (nonzero : id ≠ 0) :
    (afterStore id nonzero).crashed.txTable 0 = id ||| active ∧
      (afterStore id nonzero).crashed.mem 100 = 1 ∧
      ((afterStore id nonzero).crashed.journal 0 0).txId = entryTxId id :=
  ⟨rfl, rfl, rfl⟩

end Crash

/-- A transaction whose id does not fit the field of an entry is not rolled back. -/
theorem not_crashAtomic_of_le {id : BitVec 64} (bounded : id.toNat < 2 ^ 63)
    (large : 2 ^ 56 ≤ id.toNat) : ¬ CrashAtomic id := by
  intro atomic
  have nonzero : id ≠ 0 := by
    rintro rfl
    simp at large
  obtain ⟨header, byte, firstId⟩ := Crash.crashed_afterStore nonzero
  have isActive : Active ((Crash.afterStore id nonzero).crashed.txTable 0) := by
    rw [header]
    exact active_or id
  have carriesNone : validEntries ((Crash.afterStore id nonzero).crashed.journal 0) id 3 = 0 := by
    refine validEntries_eq (Nat.zero_le 3) (fun je before => by omega) fun _ carries => ?_
    rw [JournalEntry.Carries, firstId] at carries
    have fieldBound := (entryTxId id).isLt
    have sameNat := congrArg BitVec.toNat carries
    rw [BitVec.toNat_setWidth_of_le (by decide)] at sameNat
    omega
  have notUndone : (TransactionManager.recovered ⟨1, 3⟩
      (Crash.afterStore id nonzero).crashed).mem 100 = 1 := by
    have alone : ∀ other < (⟨1, 3⟩ : TransactionManager).maxTransactions, other ≠ 0 →
        Active ((Crash.afterStore id nonzero).crashed.txTable other) →
        ¬ Covers (TransactionManager.replayed ⟨1, 3⟩ (Crash.afterStore id nonzero).crashed
          other) 100 :=
      fun other bounded different => absurd (Nat.lt_one_iff.mp bounded) different
    rw [TransactionManager.recovered_mem ⟨1, 3⟩ Nat.one_pos alone, TransactionManager.mem_applyAll_recoverSlot, if_pos isActive,
      TransactionManager.replayed, header,
      clearActive_or ((not_active_iff_lt id).mpr bounded), carriesNone]
    exact byte
  have undone := (atomic _ (Crash.afterStore id nonzero) _ (.completes _)).1 isActive 100
    ⟨100, 1, by simp [Crash.afterStore], le_rfl, by omega⟩
  have changed : (1 : UInt8) = 0 := notUndone.symm.trans undone
  exact absurd changed (by decide)

/-- A header id is atomic exactly when the field of a journal entry can hold it. -/
theorem crashAtomic_iff {id : BitVec 64} (bounded : id.toNat < 2 ^ 63) :
    CrashAtomic id ↔ id.toNat < 2 ^ 56 := by
  constructor
  · intro atomic
    by_contra large
    exact not_crashAtomic_of_le bounded (by omega) atomic
  · exact crashAtomic_of_lt

theorem crashAtomic_iff_seven : CrashAtomic 7 ↔ (7 : BitVec 64).toNat < 2 ^ 56 :=
  crashAtomic_iff (by decide)

/-- Transaction 2^56 stores 1 to a logged byte that was 0 and crashes: its slot is active,
and recovery leaves the 1. -/
theorem crashed_store_survives_recovery :
    Active ((Crash.afterStore 0x100000000000000 (by decide)).crashed.txTable 0) ∧
      (TransactionManager.recovered ⟨1, 3⟩
        (Crash.afterStore 0x100000000000000 (by decide)).crashed).mem 100 = 1 ∧
      ¬ CrashAtomic 0x100000000000000 :=
  ⟨by decide, by decide, not_crashAtomic_of_le (by decide) (by decide)⟩

end Pmgd
