import Pmgd.Recovery

/-!
# Concurrent transactions and crashes

Any number of threads allocate transactions, log, store, commit or roll back, release their
locks and free their slots; at any point the system can crash, lose everything but persistent
memory, and recover.  Each step of the source that other threads or a crash can see is one
action here: the increment of the transaction counter, the read and the compare-and-exchange
of a header, each call, each store of a rollback or of a recovery, the release of all locks,
and the clearing of the header.

A transaction is known by the number its allocation is given.  The state also carries the
history that the properties speak of: what became of each transaction, which one won each slot
last, which one wrote the id of each journal entry, and the last in-place store to each byte.
-/

namespace Pmgd

open LabelledRun UndoLog TransactionHdr

/-- A transaction manager, and the lock stripe of each byte of the graph. -/
structure System extends TransactionManager where
  stripeId : Nat → Nat

/-- How far a live transaction has come. -/
inductive Phase
  | scanning (index : Nat)
  | trying (index : Nat) (prevTxId : BitVec 64)
  | running
  | rollingBack (left : List Store)
  | committed
  | finalized
  | unlocked
  deriving DecidableEq, Repr

/-- The allocation has won a slot. -/
def Phase.HoldsSlot : Phase → Prop
  | .scanning _ => False
  | .trying _ _ => False
  | _ => True

/-- A transaction between its allocation and the end of its destructor, with the ranges it
has logged. -/
structure LiveTransaction where
  impl : TransactionImpl
  phase : Phase
  logged : List (Nat × Nat)
  deriving DecidableEq, Repr

/-- What became of a transaction.  One that starts to roll back is lost, and so is one that a
crash finds before its slot is freed. -/
inductive Outcome
  | notBegun
  | running
  | committed
  | finished
  | lost
  deriving DecidableEq, Repr

def Outcome.afterCrash : Outcome → Outcome
  | .running => .lost
  | .committed => .lost
  | other => other

def Outcome.afterFree : Outcome → Outcome
  | .committed => .finished
  | other => other

inductive Mode
  | ready
  | down
  | recovering (left : List Store) (maxTxId : BitVec 64)
  deriving DecidableEq, Repr

structure State where
  pm : Pm
  curTxId : BitVec 64
  mode : Mode
  txs : Nat → Option LiveTransaction
  /-- The owner of the write lock of each stripe. -/
  lockOwner : Nat → Option Nat
  outcome : Nat → Outcome
  idOf : Nat → BitVec 64
  slotTx : Nat → Option Nat
  writer : Nat → Nat → Option Nat
  lastStore : Nat → Option (Nat × UInt8)

inductive Action
  | begin (n : Nat)
  | readHeader (n : Nat)
  | cmpxchg (n : Nat)
  | lock (n stripe : Nat)
  | log (n ptr len : Nat)
  | store (n address : Nat) (byte : UInt8)
  | finalizeCommit (n : Nat)
  | rollback (n : Nat)
  | rollbackStore (n : Nat)
  | finalize (n : Nat)
  | unlockAll (n : Nat)
  | freeTransaction (n : Nat)
  | crash
  | crashInLog (n ptr len cut : Nat)
  | recover
  | recoverStore
  deriving DecidableEq, Repr

namespace State

/-- A new graph, after `reset_table`. -/
def created (mem : Nat → UInt8) : State where
  pm := ⟨fun _ => 0, fun _ _ => ⟨0, 0, 0, fun _ => 0⟩, mem⟩
  curTxId := 0
  mode := .ready
  txs _ := none
  lockOwner _ := none
  outcome _ := .notBegun
  idOf _ := 0
  slotTx _ := none
  writer _ _ := none
  lastStore _ := none

/-! ## Allocation -/

/-- `atomic_inc(_cur_tx_id) + 1`. -/
def begin (s : State) (system : System) (n : Nat) : State :=
  { s with
    curTxId := s.curTxId + 1
    txs := Function.update s.txs n
      (some ⟨⟨⟨s.curTxId + 1, 0, system.jend⟩, true, 0⟩, .scanning 0, []⟩)
    outcome := Function.update s.outcome n .running
    idOf := Function.update s.idOf n (s.curTxId + 1) }

def setPhase (s : State) (n : Nat) (tx : LiveTransaction) (phase : Phase) : State :=
  { s with txs := Function.update s.txs n (some { tx with phase }) }

/-- The allocation throws `OutOfTransactions`. -/
def outOfTransactions (s : State) (n : Nat) : State :=
  { s with
    txs := Function.update s.txs n none
    outcome := Function.update s.outcome n .lost }

/-- The read of a header in the loop of `alloc_transaction`, and the test of its bit. -/
def readHeader (s : State) (system : System) (n : Nat) (tx : LiveTransaction) (index : Nat) :
    State :=
  if index < system.maxTransactions then
    if Active (s.pm.txTable index) then
      s.setPhase n tx (.scanning (index + 1))
    else
      s.setPhase n tx (.trying index (s.pm.txTable index))
  else
    s.outOfTransactions n

/-- A successful compare-and-exchange. -/
def win (s : State) (n : Nat) (tx : LiveTransaction) (index : Nat) : State :=
  { s with
    pm := s.pm.apply (.header index (tx.impl.txHandle.id ||| active))
    txs := Function.update s.txs n
      (some ⟨{ tx.impl with txHandle := { tx.impl.txHandle with index }, jcur := 0 },
        .running, []⟩)
    slotTx := Function.update s.slotTx index (some n) }

def cmpxchg (s : State) (n : Nat) (tx : LiveTransaction) (index : Nat)
    (prevTxId : BitVec 64) : State :=
  if s.pm.txTable index = prevTxId then
    s.win n tx index
  else
    s.setPhase n tx (.scanning (index + 1))

/-- The slot and the id of a compare-and-exchange that will succeed. -/
def winning (s : State) (n : Nat) : Option (Nat × BitVec 64) :=
  (s.txs n).bind fun tx =>
    match tx.phase with
    | .trying index prevTxId =>
        if s.pm.txTable index = prevTxId then some (index, tx.impl.txHandle.id) else none
    | _ => none

theorem winning_eq {s : State} {n index : Nat} {tx : LiveTransaction}
    (isTx : s.txs n = some tx) (phase : tx.phase = .trying index (s.pm.txTable index)) :
    s.winning n = some (index, tx.impl.txHandle.id) := by
  simp [winning, isTx, phase]

/-! ## Calls of a running transaction -/

def lock (s : State) (n stripe : Nat) : State :=
  { s with lockOwner := Function.update s.lockOwner stripe (some n) }

/-- Who has written the id of an entry. -/
def noteWriter (n : Nat) (writer : Nat → Nat → Option Nat) : Store → Nat → Nat → Option Nat
  | .entry slot je (.txId _) =>
      Function.update writer slot (Function.update (writer slot) je (some n))
  | _ => writer

/-- The stores of a log call that has added entries up to a new `_jcur`. -/
def log (s : State) (n : Nat) (tx : LiveTransaction) (stores : List Store) (jcur : Nat)
    (logged : List (Nat × Nat)) : State :=
  { s with
    pm := s.pm.applyAll stores
    txs := Function.update s.txs n
      (some { tx with impl := { tx.impl with jcur }, logged })
    writer := stores.foldl (noteWriter n) s.writer }

def store (s : State) (n address : Nat) (byte : UInt8) : State :=
  { s with
    pm := s.pm.apply (.inPlace address byte)
    lastStore := Function.update s.lastStore address (some (n, byte)) }

/-- An in-place store touches a byte that its transaction has locked and logged. -/
def MayStore (s : State) (system : System) (n : Nat) (tx : LiveTransaction) (address : Nat) :
    Prop :=
  s.lockOwner (system.stripeId address) = some n ∧
    ∃ range ∈ tx.logged, range.1 ≤ address ∧ address < range.1 + range.2

instance (s : State) (system : System) (n : Nat) (tx : LiveTransaction) (address : Nat) :
    Decidable (s.MayStore system n tx address) :=
  inferInstanceAs (Decidable (_ ∧ _))

/-! ## The end of a transaction -/

/-- The end of `finalize_commit`; the callbacks before it log and store like the rest. -/
def finalizeCommit (s : State) (n : Nat) (tx : LiveTransaction) : State :=
  { s.setPhase n tx .committed with outcome := Function.update s.outcome n .committed }

/-- The destructor finds the transaction uncommitted. -/
def rollback (s : State) (n : Nat) (tx : LiveTransaction) : State :=
  { s.setPhase n tx
      (.rollingBack (Pmgd.rollback s.pm tx.impl.txHandle tx.impl.jcur)) with
    outcome := Function.update s.outcome n .lost }

def rollbackStore (s : State) (n : Nat) (tx : LiveTransaction) (store : Store)
    (left : List Store) : State :=
  { s.setPhase n tx (.rollingBack left) with pm := s.pm.apply store }

def unlockAll (s : State) (n : Nat) (tx : LiveTransaction) : State :=
  { s.setPhase n tx .unlocked with
    lockOwner := fun stripe =>
      if s.lockOwner stripe = some n then none else s.lockOwner stripe }

def freeTransaction (s : State) (n : Nat) (tx : LiveTransaction) : State :=
  { s with
    pm := s.pm.apply (.header tx.impl.txHandle.index
      (clearActive (s.pm.txTable tx.impl.txHandle.index)))
    txs := Function.update s.txs n none
    outcome := Function.update s.outcome n (s.outcome n).afterFree }

/-! ## Crash and recovery -/

def crash (s : State) : State :=
  { s with
    mode := .down
    txs := fun _ => none
    lockOwner := fun _ => none
    outcome := fun n => (s.outcome n).afterCrash }

/-- Start `TransactionManager::recover`. -/
def recover (s : State) (system : System) : State :=
  { s with mode := .recovering (system.recoverStores s.pm) (system.maxTxId s.pm) }

def recoverStore (s : State) (store : Store) (left : List Store) (maxTxId : BitVec 64) :
    State :=
  { s with
    pm := s.pm.apply store
    mode := .recovering left maxTxId }

/-- The end of `recover`. -/
def recovered (s : State) (maxTxId : BitVec 64) : State :=
  { s with
    curTxId := maxTxId
    mode := .ready }

end State

/-- One step of the system; `none` when the action is not possible. -/
def step (system : System) (s : State) : Action → Option State
  | .begin n =>
      if s.mode = .ready ∧ s.outcome n = .notBegun then some (s.begin system n) else none
  | .readHeader n =>
      (s.txs n).bind fun tx =>
        match tx.phase with
        | .scanning index => some (s.readHeader system n tx index)
        | _ => none
  | .cmpxchg n =>
      (s.txs n).bind fun tx =>
        match tx.phase with
        | .trying index prevTxId => some (s.cmpxchg n tx index prevTxId)
        | _ => none
  | .lock n stripe =>
      (s.txs n).bind fun tx =>
        if tx.phase = .running ∧
            (s.lockOwner stripe = none ∨ s.lockOwner stripe = some n) then
          some (s.lock n stripe)
        else none
  | .log n ptr len =>
      (s.txs n).bind fun tx =>
        match tx.phase, tx.impl.log s.pm.mem ptr len with
        | .running, .ok (impl, stores) =>
            some (s.log n tx stores impl.jcur ((ptr, len) :: tx.logged))
        | _, _ => none
  | .store n address byte =>
      (s.txs n).bind fun tx =>
        if tx.phase = .running ∧ s.MayStore system n tx address then
          some (s.store n address byte)
        else none
  | .finalizeCommit n =>
      (s.txs n).bind fun tx =>
        if tx.phase = .running then some (s.finalizeCommit n tx) else none
  | .rollback n =>
      (s.txs n).bind fun tx =>
        if tx.phase = .running then some (s.rollback n tx) else none
  | .rollbackStore n =>
      (s.txs n).bind fun tx =>
        match tx.phase with
        | .rollingBack (store :: left) => some (s.rollbackStore n tx store left)
        | _ => none
  | .finalize n =>
      (s.txs n).bind fun tx =>
        if tx.phase = .committed ∨ tx.phase = .rollingBack [] then
          some (s.setPhase n tx .finalized)
        else none
  | .unlockAll n =>
      (s.txs n).bind fun tx =>
        if tx.phase = .finalized then some (s.unlockAll n tx) else none
  | .freeTransaction n =>
      (s.txs n).bind fun tx =>
        if tx.phase = .unlocked then some (s.freeTransaction n tx) else none
  | .crash => some s.crash
  | .crashInLog n ptr len cut =>
      (s.txs n).bind fun tx =>
        match tx.phase, tx.impl.log s.pm.mem ptr len with
        | .running, .ok (_, stores) =>
            some (s.log n tx (stores.take cut) tx.impl.jcur tx.logged).crash
        | _, _ => none
  | .recover => if s.mode = .down then some (s.recover system) else none
  | .recoverStore =>
      match s.mode with
      | .recovering (store :: left) maxTxId => some (s.recoverStore store left maxTxId)
      | .recovering [] maxTxId => some (s.recovered maxTxId)
      | _ => none

/-- The ways in which a step can go. -/
inductive StepCase (system : System) (s : State) : Action → State → Prop
  | begin (n : Nat) (ready : s.mode = .ready) (fresh : s.outcome n = .notBegun) :
      StepCase system s (.begin n) (s.begin system n)
  | sawActive (n : Nat) (tx : LiveTransaction) (index : Nat) (isTx : s.txs n = some tx)
      (phase : tx.phase = .scanning index) :
      StepCase system s (.readHeader n) (s.setPhase n tx (.scanning (index + 1)))
  | sawIdle (n : Nat) (tx : LiveTransaction) (index : Nat) (isTx : s.txs n = some tx)
      (phase : tx.phase = .scanning index) (bounded : index < system.maxTransactions)
      (idle : ¬ Active (s.pm.txTable index)) :
      StepCase system s (.readHeader n) (s.setPhase n tx (.trying index (s.pm.txTable index)))
  | sawAll (n : Nat) (tx : LiveTransaction) (index : Nat) (isTx : s.txs n = some tx)
      (phase : tx.phase = .scanning index) :
      StepCase system s (.readHeader n) (s.outOfTransactions n)
  | win (n : Nat) (tx : LiveTransaction) (index : Nat) (isTx : s.txs n = some tx)
      (phase : tx.phase = .trying index (s.pm.txTable index)) :
      StepCase system s (.cmpxchg n) (s.win n tx index)
  | lose (n : Nat) (tx : LiveTransaction) (index : Nat) (prevTxId : BitVec 64)
      (isTx : s.txs n = some tx) (phase : tx.phase = .trying index prevTxId) :
      StepCase system s (.cmpxchg n) (s.setPhase n tx (.scanning (index + 1)))
  | lock (n stripe : Nat) (tx : LiveTransaction) (isTx : s.txs n = some tx) :
      StepCase system s (.lock n stripe) (s.lock n stripe)
  | log (n ptr len : Nat) (tx : LiveTransaction) (impl : TransactionImpl)
      (stores : List Store) (isTx : s.txs n = some tx) (phase : tx.phase = .running)
      (accepted : tx.impl.log s.pm.mem ptr len = .ok (impl, stores)) :
      StepCase system s (.log n ptr len)
        (s.log n tx stores impl.jcur ((ptr, len) :: tx.logged))
  | store (n address : Nat) (byte : UInt8) (tx : LiveTransaction) (isTx : s.txs n = some tx)
      (phase : tx.phase = .running) (may : s.MayStore system n tx address) :
      StepCase system s (.store n address byte) (s.store n address byte)
  | finalizeCommit (n : Nat) (tx : LiveTransaction) (isTx : s.txs n = some tx)
      (phase : tx.phase = .running) :
      StepCase system s (.finalizeCommit n) (s.finalizeCommit n tx)
  | rollback (n : Nat) (tx : LiveTransaction) (isTx : s.txs n = some tx)
      (phase : tx.phase = .running) :
      StepCase system s (.rollback n) (s.rollback n tx)
  | rollbackStore (n : Nat) (tx : LiveTransaction) (store : Store) (left : List Store)
      (isTx : s.txs n = some tx) (phase : tx.phase = .rollingBack (store :: left)) :
      StepCase system s (.rollbackStore n) (s.rollbackStore n tx store left)
  | finalize (n : Nat) (tx : LiveTransaction) (isTx : s.txs n = some tx)
      (phase : tx.phase = .committed ∨ tx.phase = .rollingBack []) :
      StepCase system s (.finalize n) (s.setPhase n tx .finalized)
  | unlockAll (n : Nat) (tx : LiveTransaction) (isTx : s.txs n = some tx)
      (phase : tx.phase = .finalized) :
      StepCase system s (.unlockAll n) (s.unlockAll n tx)
  | freeTransaction (n : Nat) (tx : LiveTransaction) (isTx : s.txs n = some tx)
      (phase : tx.phase = .unlocked) :
      StepCase system s (.freeTransaction n) (s.freeTransaction n tx)
  | crash : StepCase system s .crash s.crash
  | crashInLog (n ptr len cut : Nat) (tx : LiveTransaction) (impl : TransactionImpl)
      (stores : List Store) (isTx : s.txs n = some tx) (phase : tx.phase = .running)
      (accepted : tx.impl.log s.pm.mem ptr len = .ok (impl, stores)) :
      StepCase system s (.crashInLog n ptr len cut)
        (s.log n tx (stores.take cut) tx.impl.jcur tx.logged).crash
  | recover (down : s.mode = .down) : StepCase system s .recover (s.recover system)
  | recoverStore (store : Store) (left : List Store) (maxTxId : BitVec 64)
      (recovering : s.mode = .recovering (store :: left) maxTxId) :
      StepCase system s .recoverStore (s.recoverStore store left maxTxId)
  | recovered (maxTxId : BitVec 64) (recovering : s.mode = .recovering [] maxTxId) :
      StepCase system s .recoverStore (s.recovered maxTxId)

/-- Every step goes in one of these ways. -/
theorem stepCase_of_step {system : System} {s next : State} {action : Action}
    (stepped : step system s action = some next) : StepCase system s action next := by
  cases action with
  | begin n =>
      simp only [step, Option.ite_none_right_eq_some, Option.some.injEq] at stepped
      obtain ⟨⟨ready, fresh⟩, rfl⟩ := stepped
      exact .begin n ready fresh
  | readHeader n =>
      obtain ⟨tx, isTx, stepped⟩ := Option.bind_eq_some_iff.mp stepped
      cases phase : tx.phase with
      | scanning index =>
          simp only [phase, Option.some.injEq, State.readHeader] at stepped
          split_ifs at stepped with bounded isActive
          · exact stepped ▸ .sawActive n tx index isTx phase
          · exact stepped ▸ .sawIdle n tx index isTx phase bounded isActive
          · exact stepped ▸ .sawAll n tx index isTx phase
      | _ => simp [phase] at stepped
  | cmpxchg n =>
      obtain ⟨tx, isTx, stepped⟩ := Option.bind_eq_some_iff.mp stepped
      cases phase : tx.phase with
      | trying index prevTxId =>
          simp only [phase, Option.some.injEq, State.cmpxchg] at stepped
          split_ifs at stepped with same
          · exact stepped ▸ .win n tx index isTx (by rw [phase, same])
          · exact stepped ▸ .lose n tx index prevTxId isTx phase
      | _ => simp [phase] at stepped
  | lock n stripe =>
      obtain ⟨tx, isTx, stepped⟩ := Option.bind_eq_some_iff.mp stepped
      simp only [Option.ite_none_right_eq_some, Option.some.injEq] at stepped
      exact stepped.2 ▸ .lock n stripe tx isTx
  | log n ptr len =>
      obtain ⟨tx, isTx, stepped⟩ := Option.bind_eq_some_iff.mp stepped
      cases phase : tx.phase with
      | running =>
          cases accepted : tx.impl.log s.pm.mem ptr len with
          | error _ => simp [phase, accepted] at stepped
          | ok result =>
              simp only [phase, accepted, Option.some.injEq] at stepped
              exact stepped ▸ .log n ptr len tx result.1 result.2 isTx phase accepted
      | _ => simp [phase] at stepped
  | store n address byte =>
      obtain ⟨tx, isTx, stepped⟩ := Option.bind_eq_some_iff.mp stepped
      simp only [Option.ite_none_right_eq_some, Option.some.injEq] at stepped
      exact stepped.2 ▸ .store n address byte tx isTx stepped.1.1 stepped.1.2
  | finalizeCommit n =>
      obtain ⟨tx, isTx, stepped⟩ := Option.bind_eq_some_iff.mp stepped
      simp only [Option.ite_none_right_eq_some, Option.some.injEq] at stepped
      exact stepped.2 ▸ .finalizeCommit n tx isTx stepped.1
  | rollback n =>
      obtain ⟨tx, isTx, stepped⟩ := Option.bind_eq_some_iff.mp stepped
      simp only [Option.ite_none_right_eq_some, Option.some.injEq] at stepped
      exact stepped.2 ▸ .rollback n tx isTx stepped.1
  | rollbackStore n =>
      obtain ⟨tx, isTx, stepped⟩ := Option.bind_eq_some_iff.mp stepped
      cases phase : tx.phase with
      | rollingBack left =>
          cases left with
          | nil => simp [phase] at stepped
          | cons store left =>
              simp only [phase, Option.some.injEq] at stepped
              exact stepped ▸ .rollbackStore n tx store left isTx phase
      | _ => simp [phase] at stepped
  | finalize n =>
      obtain ⟨tx, isTx, stepped⟩ := Option.bind_eq_some_iff.mp stepped
      simp only [Option.ite_none_right_eq_some, Option.some.injEq] at stepped
      exact stepped.2 ▸ .finalize n tx isTx stepped.1
  | unlockAll n =>
      obtain ⟨tx, isTx, stepped⟩ := Option.bind_eq_some_iff.mp stepped
      simp only [Option.ite_none_right_eq_some, Option.some.injEq] at stepped
      exact stepped.2 ▸ .unlockAll n tx isTx stepped.1
  | freeTransaction n =>
      obtain ⟨tx, isTx, stepped⟩ := Option.bind_eq_some_iff.mp stepped
      simp only [Option.ite_none_right_eq_some, Option.some.injEq] at stepped
      exact stepped.2 ▸ .freeTransaction n tx isTx stepped.1
  | crash =>
      obtain rfl := Option.some.inj stepped
      exact .crash
  | crashInLog n ptr len cut =>
      obtain ⟨tx, isTx, stepped⟩ := Option.bind_eq_some_iff.mp stepped
      cases phase : tx.phase with
      | running =>
          cases accepted : tx.impl.log s.pm.mem ptr len with
          | error _ => simp [phase, accepted] at stepped
          | ok result =>
              simp only [phase, accepted, Option.some.injEq] at stepped
              exact stepped ▸ .crashInLog n ptr len cut tx result.1 result.2 isTx phase accepted
      | _ => simp [phase] at stepped
  | recover =>
      simp only [step, Option.ite_none_right_eq_some, Option.some.injEq] at stepped
      exact stepped.2 ▸ .recover stepped.1
  | recoverStore =>
      cases mode : s.mode with
      | recovering left maxTxId =>
          cases left with
          | nil =>
              simp only [step, mode, Option.some.injEq] at stepped
              exact stepped ▸ .recovered maxTxId mode
          | cons store left =>
              simp only [step, mode, Option.some.injEq] at stepped
              exact stepped ▸ .recoverStore store left maxTxId mode
      | _ => simp [step, mode] at stepped

end Pmgd
