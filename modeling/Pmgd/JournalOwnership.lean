import Pmgd.SlotOwnership

/-!
# Whose entries recovery replays

Journal extents are never cleared, so recovery tells the entries of an active transaction from
older ones by their ids alone.  It is right as long as the ids in each slot's header only grow:
then no older entry of the extent carries the id of the header.

Nothing makes them grow.  Ids are handed out by one atomic step and put into a header by
another, so a thread can win a slot over a larger id than its own.  If the system restarts
then, the highest id in the table is below ids that are in the journal, and the next
transaction is given one of these again.
-/

namespace Pmgd

open LabelledRun UndoLog TransactionHdr

variable {system : System} {s next : State}

/-- When the slot is recovered, all entries replayed are those of the transaction in its
header. -/
def ReplaysOwnEntries (system : System) (s : State) : Prop :=
  ∀ slot < system.maxTransactions, Active (s.pm.txTable slot) →
    ∃ n, s.slotTx slot = some n ∧ s.pm.txTable slot = s.idOf n ||| active ∧
      ∀ je < validEntries (s.pm.journal slot) (clearActive (s.pm.txTable slot)) system.jend,
        s.writer slot je = some n

/-- A slot is won over a smaller id, by an id without the high bit. -/
def WonInOrder (s : State) : Action → Prop
  | .cmpxchg n => ∀ won ∈ s.winning n, s.pm.txTable won.1 < won.2 ∧ ¬ Active won.2
  | _ => True

instance (s : State) : ∀ action, Decidable (WonInOrder s action)
  | .cmpxchg _ => inferInstanceAs (Decidable (∀ won ∈ _, _))
  | .begin _ | .readHeader _ | .lock _ _ | .log _ _ _ | .store _ _ _ | .finalizeCommit _
  | .rollback _ | .rollbackStore _ | .finalize _ | .unlockAll _ | .freeTransaction _ | .crash
  | .crashInLog _ _ _ _ | .recover | .recoverStore => inferInstanceAs (Decidable True)

/-- An entry has never been written, or by a transaction whose id the header has reached; if
it is the header's id, by the last transaction of the slot. -/
structure EntryOwned (s : State) (slot je : Nat) : Prop where
  unwritten : s.writer slot je = none → (s.pm.journal slot je).txId = 0
  written : ∀ w, s.writer slot je = some w → s.outcome w ≠ .notBegun ∧
    (s.pm.journal slot je).txId = entryTxId (s.idOf w) ∧
    (s.idOf w).toNat ≤ (clearActive (s.pm.txTable slot)).toNat ∧
    (s.idOf w = clearActive (s.pm.txTable slot) → s.slotTx slot = some w)

structure JournalOwned (s : State) : Prop where
  slots : ∀ slot, Active (s.pm.txTable slot) →
    ∃ n, s.slotTx slot = some n ∧ s.pm.txTable slot = s.idOf n ||| active ∧
      s.outcome n ≠ .notBegun ∧ ¬ Active (s.idOf n) ∧ s.idOf n ≠ 0
  entries : ∀ slot je, EntryOwned s slot je

/-- The entries that carry the id of an active header are those of its transaction. -/
theorem replaysOwnEntries_of_journalOwned (owned : JournalOwned s) :
    ReplaysOwnEntries system s := by
  intro slot _ isActive
  obtain ⟨n, slotTx, header, -, idle, nonzero⟩ := owned.slots slot isActive
  refine ⟨n, slotTx, header, fun je valid => ?_⟩
  have carries := carries_of_lt_validEntries valid
  have entry := owned.entries slot je
  rw [header, clearActive_or idle, JournalEntry.Carries] at carries
  cases isWriter : s.writer slot je with
  | none =>
      rw [entry.unwritten isWriter] at carries
      exact absurd carries.symm (by simpa using nonzero)
  | some w =>
      obtain ⟨-, txId, reached, last⟩ := entry.written w isWriter
      rw [header, clearActive_or idle] at reached last
      have sameId : s.idOf w = s.idOf n := by
        apply BitVec.eq_of_toNat_eq
        have sameNat := congrArg BitVec.toNat carries
        rw [txId, entryTxId, BitVec.toNat_setWidth, BitVec.toNat_setWidth] at sameNat
        omega
      rw [← slotTx, last sameId]

namespace JournalOwned

/-- A step that leaves headers, journals and their history alone. -/
theorem of_same (owned : JournalOwned s) (sameTable : next.pm.txTable = s.pm.txTable)
    (sameJournal : next.pm.journal = s.pm.journal) (sameSlotTx : next.slotTx = s.slotTx)
    (sameWriter : next.writer = s.writer)
    (history : ∀ n, s.outcome n ≠ .notBegun →
      next.outcome n ≠ .notBegun ∧ next.idOf n = s.idOf n) :
    JournalOwned next := by
  constructor
  · intro slot isActive
    rw [sameTable] at isActive ⊢
    obtain ⟨n, slotTx, header, begun, idle, nonzero⟩ := owned.slots slot isActive
    obtain ⟨stillBegun, sameId⟩ := history n begun
    exact ⟨n, by rwa [sameSlotTx], by rwa [sameId], stillBegun, by rwa [sameId],
      by rwa [sameId]⟩
  · intro slot je
    obtain ⟨unwritten, written⟩ := owned.entries slot je
    refine ⟨by rwa [sameWriter, sameJournal], fun w isWriter => ?_⟩
    rw [sameWriter] at isWriter
    obtain ⟨begun, txId, reached, last⟩ := written w isWriter
    obtain ⟨stillBegun, sameId⟩ := history w begun
    rw [sameJournal, sameTable, sameSlotTx, sameId]
    exact ⟨stillBegun, txId, reached, last⟩

/-- A step that leaves all of persistent memory and its history alone, but for the outcome of
a transaction. -/
theorem of_outcome (owned : JournalOwned s) (samePm : next.pm = s.pm)
    (sameSlotTx : next.slotTx = s.slotTx) (sameWriter : next.writer = s.writer)
    (sameId : next.idOf = s.idOf)
    (begun : ∀ n, s.outcome n ≠ .notBegun → next.outcome n ≠ .notBegun) :
    JournalOwned next :=
  owned.of_same (by rw [samePm]) (by rw [samePm]) sameSlotTx sameWriter fun n isBegun =>
    ⟨begun n isBegun, by rw [sameId]⟩

theorem clearHeader (owned : JournalOwned s) (slot : Nat)
    (cleared : next.pm = s.pm.apply (.header slot (clearActive (s.pm.txTable slot))))
    (sameSlotTx : next.slotTx = s.slotTx) (sameWriter : next.writer = s.writer)
    (sameId : next.idOf = s.idOf)
    (begun : ∀ n, s.outcome n ≠ .notBegun → next.outcome n ≠ .notBegun) :
    JournalOwned next := by
  have sameClear : ∀ other,
      clearActive (next.pm.txTable other) = clearActive (s.pm.txTable other) := by
    intro other
    simp only [cleared, Pm.apply, Function.update_apply]
    split_ifs with same
    · rw [clearActive_clearActive, same]
    · rfl
  constructor
  · intro other isActive
    have different : other ≠ slot := by
      rintro rfl
      simp only [cleared, Pm.apply, Function.update_self] at isActive
      exact not_active_clearActive _ isActive
    have sameHeader : next.pm.txTable other = s.pm.txTable other := by
      rw [cleared]
      exact Function.update_of_ne different _ _
    rw [sameHeader] at isActive ⊢
    obtain ⟨n, slotTx, header, isBegun, rest⟩ := owned.slots other isActive
    rw [sameSlotTx, sameId]
    exact ⟨n, slotTx, header, begun n isBegun, rest⟩
  · intro other je
    obtain ⟨unwritten, written⟩ := owned.entries other je
    have sameJournal : next.pm.journal = s.pm.journal := by
      rw [cleared]
      rfl
    refine ⟨by rwa [sameWriter, sameJournal], fun w isWriter => ?_⟩
    rw [sameWriter] at isWriter
    obtain ⟨isBegun, txId, reached, last⟩ := written w isWriter
    rw [sameJournal, sameClear, sameSlotTx, sameId]
    exact ⟨begun w isBegun, txId, reached, last⟩

/-- A slot is won over a smaller id. -/
theorem win (owned : JournalOwned s) {n : Nat} {tx : LiveTransaction} {index : Nat}
    (own : TransactionInvariant system s n tx) (idle : ¬ Active (s.pm.txTable index))
    (larger : s.pm.txTable index < tx.impl.txHandle.id)
    (small : ¬ Active tx.impl.txHandle.id) : JournalOwned (s.win n tx index) := by
  have nonzero : tx.impl.txHandle.id ≠ 0 := by
    intro isZero
    rw [isZero] at larger
    exact BitVec.not_lt_zero larger
  constructor
  · intro slot isActive
    simp only [State.win, Pm.apply, Function.update_apply] at isActive ⊢
    split_ifs at isActive ⊢ with same
    · exact ⟨n, rfl, by rw [own.id_eq], own.begun, by rwa [← own.id_eq],
        by rwa [← own.id_eq]⟩
    · exact owned.slots slot isActive
  · intro slot je
    obtain ⟨unwritten, written⟩ := owned.entries slot je
    refine ⟨unwritten, fun w isWriter => ?_⟩
    obtain ⟨isBegun, txId, reached, last⟩ := written w isWriter
    refine ⟨isBegun, txId, ?_⟩
    simp only [State.win, Pm.apply, Function.update_apply]
    split_ifs with same
    · subst same
      rw [clearActive_of_not_active idle] at reached
      have below : (s.idOf w).toNat < tx.impl.txHandle.id.toNat :=
        lt_of_le_of_lt reached (BitVec.lt_def.mp larger)
      rw [clearActive_or small]
      refine ⟨below.le, fun sameId => ?_⟩
      rw [sameId] at below
      exact absurd below (lt_irrefl _)
    · exact ⟨reached, last⟩

/-- The transaction that holds a slot writes the id of the header into an entry, or another
field. -/
theorem writeEntry (owned : JournalOwned s) {n slot : Nat} (je : Nat) {field : EntryStore}
    (begun : s.outcome n ≠ .notBegun) (slotTx : s.slotTx slot = some n)
    (header : s.idOf n = clearActive (s.pm.txTable slot))
    (ownId : ∀ txId, field = .txId txId → txId = entryTxId (s.idOf n)) :
    JournalOwned { s with
      pm := s.pm.apply (.entry slot je field)
      writer := State.noteWriter n s.writer (.entry slot je field) } := by
  refine ⟨owned.slots, fun slot' je' => ?_⟩
  obtain ⟨unwritten, written⟩ := owned.entries slot' je'
  by_cases isId : (slot' = slot ∧ je' = je) ∧ ∃ txId, field = .txId txId
  · obtain ⟨⟨rfl, rfl⟩, txId, rfl⟩ := isId
    obtain rfl := ownId txId rfl
    refine ⟨by simp [State.noteWriter], fun w isWriter => ?_⟩
    simp only [State.noteWriter, Function.update_self, Option.some.injEq] at isWriter
    subst isWriter
    refine ⟨begun, ?_, (congrArg BitVec.toNat header).le, fun _ => slotTx⟩
    simp only [Pm.apply, Pm.modifyEntry_journal_self, EntryStore.apply]
  · have sameId : ((s.pm.apply (.entry slot je field)).journal slot' je').txId =
        (s.pm.journal slot' je').txId := by
      by_cases sameSlot : slot' = slot
      · subst sameSlot
        by_cases sameJe : je' = je
        · subst sameJe
          rw [Pm.apply, Pm.modifyEntry_journal_self, EntryStore.txId_apply]
          exact fun txId isTxId => isId ⟨⟨rfl, rfl⟩, txId, isTxId⟩
        · rw [Pm.apply, Pm.modifyEntry_journal_of_je_ne sameJe]
      · rw [Pm.apply, Pm.modifyEntry_journal_of_slot_ne sameSlot]
    have sameWriter : State.noteWriter n s.writer (.entry slot je field) slot' je' =
        s.writer slot' je' := by
      cases field with
      | txId txId =>
          by_cases sameSlot : slot' = slot
          · subst sameSlot
            have otherJe : je' ≠ je := fun sameJe => isId ⟨⟨rfl, sameJe⟩, txId, rfl⟩
            simp [State.noteWriter, otherJe]
          · simp [State.noteWriter, sameSlot]
      | len | addr | data => rfl
    refine ⟨fun isNone => ?_, fun w isWriter => ?_⟩
    · simp only [sameId]
      exact unwritten (sameWriter ▸ isNone)
    · simp only [sameId]
      exact written w (sameWriter ▸ isWriter)

/-- The transaction that holds a slot writes any number of fields of entries. -/
theorem writeEntries (owned : JournalOwned s) {n slot : Nat} {stores : List Store}
    (begun : s.outcome n ≠ .notBegun) (slotTx : s.slotTx slot = some n)
    (header : s.idOf n = clearActive (s.pm.txTable slot))
    (ownEntries : ∀ store ∈ stores, ∃ je field, store = .entry slot je field ∧
      ∀ txId, field = .txId txId → txId = entryTxId (s.idOf n)) :
    JournalOwned { s with
      pm := s.pm.applyAll stores
      writer := stores.foldl (State.noteWriter n) s.writer } := by
  induction stores generalizing s with
  | nil => exact owned
  | cons store stores ih =>
      obtain ⟨je, field, rfl, ownId⟩ := ownEntries store (by simp)
      have first := owned.writeEntry je begun slotTx header ownId
      exact ih first begun slotTx header fun later member =>
        ownEntries later (by simp [member])

/-- A log call that may have been cut short. -/
theorem log (owned : JournalOwned s) {n : Nat} {tx : LiveTransaction}
    (own : TransactionInvariant system s n tx) (phase : tx.phase = .running)
    {stores : List Store} {full jcur ptr len : Nat}
    (logs : stores ⊆ logEntries tx.impl.txHandle s.pm.mem full jcur ptr len)
    (newJcur : Nat) (logged : List (Nat × Nat)) :
    JournalOwned (s.log n tx stores newJcur logged) := by
  have held := own.held (by simp [phase, Phase.HoldsSlot])
  have isActive : Active (s.pm.txTable tx.impl.txHandle.index) := by
    rw [held.header]
    exact active_or _
  obtain ⟨other, slotTx, header, -, idle, -⟩ := owned.slots _ isActive
  obtain rfl : n = other := Option.some.inj (held.slotTx.symm.trans slotTx)
  have written : JournalOwned { s with
      pm := s.pm.applyAll stores
      writer := stores.foldl (State.noteWriter n) s.writer } := by
    refine owned.writeEntries own.begun held.slotTx (by rw [header, clearActive_or idle])
      fun store member => ?_
    rw [← own.id_eq]
    exact exists_field_of_mem_logEntries (logs member)
  exact written.of_outcome rfl rfl rfl rfl fun _ begun => begun

theorem created (mem : Nat → UInt8) : JournalOwned (State.created mem) where
  slots slot isActive := by simp [State.created, Active] at isActive
  entries slot je := ⟨fun _ => rfl, fun w isWriter => by simp [State.created] at isWriter⟩

theorem crash (owned : JournalOwned s) : JournalOwned s.crash := by
  refine owned.of_outcome rfl rfl rfl rfl fun n begun => ?_
  cases isOutcome : s.outcome n with
  | notBegun => exact absurd isOutcome begun
  | running | committed | finished | lost =>
      simp [State.crash, isOutcome, Outcome.afterCrash]

end JournalOwned

private theorem begun_update {n : Nat} {outcome : Outcome} (begun : outcome ≠ .notBegun)
    (m : Nat) (before : s.outcome m ≠ .notBegun) :
    Function.update s.outcome n outcome m ≠ .notBegun := by
  by_cases same : m = n
  · subst same
    rwa [Function.update_self]
  · rwa [Function.update_of_ne same]

/-- A step that wins no slot over a larger id keeps the entries owned. -/
theorem journalOwned_step {action : Action} (invariant : SlotInvariant system s)
    (owned : JournalOwned s) (inOrder : WonInOrder s action)
    (stepped : step system s action = some next) : JournalOwned next := by
  cases stepCase_of_step stepped with
  | begin n isReady fresh =>
      refine owned.of_same rfl rfl rfl rfl fun m begun => ?_
      have different : m ≠ n := by
        rintro rfl
        exact begun fresh
      exact ⟨by simpa [State.begin, different] using begun,
        by simp [State.begin, different]⟩
  | sawActive n tx index isTx phase =>
      exact owned.of_outcome rfl rfl rfl rfl fun _ begun => begun
  | sawIdle n tx index isTx phase bounded idle =>
      exact owned.of_outcome rfl rfl rfl rfl fun _ begun => begun
  | sawAll n tx index isTx phase =>
      exact owned.of_outcome rfl rfl rfl rfl (begun_update (by simp))
  | win n tx index isTx phase =>
      have own := invariant.txs n tx isTx
      obtain ⟨larger, small⟩ := inOrder _ (State.winning_eq isTx phase)
      exact owned.win own (own.trying index _ phase).2 larger small
  | lose n tx index prevTxId isTx phase =>
      exact owned.of_outcome rfl rfl rfl rfl fun _ begun => begun
  | lock n stripe tx isTx => exact owned.of_outcome rfl rfl rfl rfl fun _ begun => begun
  | log n ptr len tx impl stores isTx phase accepted =>
      obtain ⟨-, -, rfl⟩ := log_eq_ok_iff.mp accepted
      exact owned.log (invariant.txs n tx isTx) phase (List.Subset.refl _) _ _
  | store n address byte tx isTx phase may =>
      exact owned.of_same rfl rfl rfl rfl fun _ begun => ⟨begun, rfl⟩
  | finalizeCommit n tx isTx phase =>
      exact owned.of_outcome rfl rfl rfl rfl (begun_update (by simp))
  | rollback n tx isTx phase =>
      exact owned.of_outcome rfl rfl rfl rfl (begun_update (by simp))
  | rollbackStore n tx store left isTx phase =>
      have copies := (invariant.txs n tx isTx).rollingBack _ phase List.mem_cons_self
      obtain ⟨address, byte, rfl, -⟩ := exists_image_of_mem_replay copies
      exact owned.of_same rfl rfl rfl rfl fun _ begun => ⟨begun, rfl⟩
  | finalize n tx isTx phase => exact owned.of_outcome rfl rfl rfl rfl fun _ begun => begun
  | unlockAll n tx isTx phase => exact owned.of_outcome rfl rfl rfl rfl fun _ begun => begun
  | freeTransaction n tx isTx phase =>
      refine owned.clearHeader tx.impl.txHandle.index rfl rfl rfl rfl (begun_update ?_)
      have begun := (invariant.txs n tx isTx).begun
      cases isOutcome : s.outcome n with
      | notBegun => exact absurd isOutcome begun
      | running | committed | finished | lost => simp [Outcome.afterFree]
  | crash => exact owned.crash
  | crashInLog n ptr len cut tx impl stores isTx phase accepted =>
      obtain ⟨-, -, rfl⟩ := log_eq_ok_iff.mp accepted
      exact (owned.log (invariant.txs n tx isTx) phase (List.take_subset cut _) _ _).crash
  | recover down => exact owned.of_outcome rfl rfl rfl rfl fun _ begun => begun
  | recoverStore store left maxTxId recovering =>
      have effect := invariant.recovering _ _ recovering store List.mem_cons_self
      rcases effect with ⟨address, byte, rfl⟩ | ⟨slot, rfl⟩
      · exact owned.of_same rfl rfl rfl rfl fun _ begun => ⟨begun, rfl⟩
      · exact owned.clearHeader slot rfl rfl rfl rfl fun _ begun => begun
  | recovered maxTxId recovering =>
      exact owned.of_outcome rfl rfl rfl rfl fun _ begun => begun

/-- In every run in which slots are won over smaller ids only, a recovery replays no entry of
another transaction, at whatever point it starts. -/
theorem replaysOwnEntries_of_wonInOrder {mem : Nat → UInt8} {actions : List Action}
    {last : State} (inOrder : MeetsAlong (step system) WonInOrder (State.created mem) actions)
    (ran : run (step system) (State.created mem) actions = some last) :
    ReplaysOwnEntries system last := by
  have invariant : SlotInvariant system last ∧ JournalOwned last := by
    refine run_invariant (fun s => SlotInvariant system s ∧ JournalOwned s)
      (fun s action next invariant met stepped => ?_)
      ⟨SlotInvariant.created mem, JournalOwned.created mem⟩ inOrder ran
    exact ⟨slotInvariant_step invariant.1 stepped,
      journalOwned_step invariant.1 invariant.2 met stepped⟩
  exact replaysOwnEntries_of_journalOwned invariant.2

/-- One slot, and an extent for three entries. -/
def oneSlot : System where
  maxTransactions := 1
  jend := 4
  stripeId _ := 0

/-- Transaction 1 wins the slot after transaction 0 has used it. -/
def orderedRun : List Action :=
  [.begin 0, .readHeader 0, .cmpxchg 0, .log 0 100 50, .finalizeCommit 0, .finalize 0,
    .unlockAll 0, .freeTransaction 0, .begin 1, .readHeader 1, .cmpxchg 1, .log 1 200 1]

theorem replaysOwnEntries_orderedRun :
    ∃ last, run (step oneSlot) (State.created fun _ => 0) orderedRun = some last ∧
      ReplaysOwnEntries oneSlot last := by
  have inOrder : MeetsAlong (step oneSlot) WonInOrder (State.created fun _ => 0) orderedRun := by
    decide +kernel
  have runs : (run (step oneSlot) (State.created fun _ => 0) orderedRun).isSome := by
    decide +kernel
  obtain ⟨last, ran⟩ := Option.isSome_iff_exists.mp runs
  exact ⟨last, ran, replaysOwnEntries_of_wonInOrder inOrder ran⟩

/-! ## A reissued id -/

/-- Transaction 0 is allocated the id 1 and transaction 1 the id 2.  The latter wins the slot
first, logs two entries and commits; then the former wins it, logs nothing and commits. -/
def overtakenRun : List Action :=
  [.begin 0, .begin 1, .readHeader 1, .cmpxchg 1, .log 1 100 50, .finalizeCommit 1,
    .finalize 1, .unlockAll 1, .freeTransaction 1, .readHeader 0, .cmpxchg 0,
    .finalizeCommit 0, .finalize 0, .unlockAll 0, .freeTransaction 0]

/-- After a restart transaction 2 gets the id 2 again and logs one entry. -/
def reissuingRun : List Action :=
  overtakenRun ++ [.crash, .recover, .recoverStore, .begin 2, .readHeader 2, .cmpxchg 2,
    .log 2 200 1]

/-- The last winner of slot 0, its header, the entries that are valid for it, and the writer
of its entry 1. -/
def slotSummary (s : State) : Option Nat × BitVec 64 × Nat × Option Nat :=
  (s.slotTx 0, s.pm.txTable 0,
    validEntries (s.pm.journal 0) (clearActive (s.pm.txTable 0)) oneSlot.jend, s.writer 0 1)

theorem reissued_id_replays_old_entry :
    ∃ last, run (step oneSlot) (State.created fun _ => 0) reissuingRun = some last ∧
      slotSummary last = (some 2, 2 ||| active, 2, some 1) ∧
      ¬ ReplaysOwnEntries oneSlot last := by
  have computed : (run (step oneSlot) (State.created fun _ => 0) reissuingRun).map slotSummary =
      some (some 2, 2 ||| active, 2, some 1) := by
    decide +kernel
  obtain ⟨last, ran, summary⟩ := Option.map_eq_some_iff.mp computed
  refine ⟨last, ran, summary, fun replaysOwn => ?_⟩
  simp only [slotSummary, Prod.mk.injEq] at summary
  obtain ⟨slotTx, header, valid, writer⟩ := summary
  obtain ⟨n, isLast, -, own⟩ := replaysOwn 0 (by decide) (by rw [header]; exact active_or 2)
  have second := own 1 (by rw [valid]; decide)
  rw [slotTx] at isLast
  rw [writer, ← isLast] at second
  exact absurd second (by decide)

end Pmgd
