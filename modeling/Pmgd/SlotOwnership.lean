import Pmgd.TransactionSystem

/-!
# Ownership of slots

In every run a transaction that has won a slot keeps it until it clears the header: the header
holds its id with `ACTIVE`, and no other live transaction has the slot.  A rollback only has
stores of its own log left, and a recovery only stores to the graph and to the headers of the
slots it has rolled back.
-/

namespace Pmgd

open LabelledRun UndoLog TransactionHdr

variable {system : System} {s next : State}

/-- A live transaction is the last one that won its slot, and its id is in the header. -/
structure Held (system : System) (s : State) (n : Nat) (tx : LiveTransaction) : Prop where
  index_lt : tx.impl.txHandle.index < system.maxTransactions
  header : s.pm.txTable tx.impl.txHandle.index = tx.impl.txHandle.id ||| active
  slotTx : s.slotTx tx.impl.txHandle.index = some n

structure TransactionInvariant (system : System) (s : State) (n : Nat)
    (tx : LiveTransaction) : Prop where
  id_eq : tx.impl.txHandle.id = s.idOf n
  jend_eq : tx.impl.txHandle.jend = system.jend
  begun : s.outcome n ≠ .notBegun
  unfinished : s.outcome n ≠ .finished
  held : tx.phase.HoldsSlot → Held system s n tx
  trying : ∀ index prevTxId, tx.phase = .trying index prevTxId →
    index < system.maxTransactions ∧ ¬ Active prevTxId
  rollingBack : ∀ left, tx.phase = .rollingBack left →
    left ⊆ rollback s.pm tx.impl.txHandle tx.impl.jcur

structure SlotInvariant (system : System) (s : State) : Prop where
  txs : ∀ n tx, s.txs n = some tx → TransactionInvariant system s n tx
  noneLive : s.mode ≠ .ready → ∀ n, s.txs n = none
  recovering : ∀ left maxTxId, s.mode = .recovering left maxTxId → ∀ store ∈ left,
    (∃ address byte, store = .inPlace address byte) ∨
      ∃ slot, store = .header slot (clearActive (s.pm.txTable slot))

private theorem removed_ne_some (txs : Nat → Option LiveTransaction) (n : Nat)
    (tx : LiveTransaction) : Function.update txs n none n ≠ some tx := by
  simp

namespace SlotInvariant

theorem ready (invariant : SlotInvariant system s) {n : Nat} {tx : LiveTransaction}
    (isTx : s.txs n = some tx) : s.mode = .ready := by
  by_contra notReady
  rw [invariant.noneLive notReady n] at isTx
  exact (Option.some_ne_none tx isTx.symm).elim

/-- Two live transactions have different slots. -/
theorem index_ne (invariant : SlotInvariant system s) {m n : Nat} {left right : LiveTransaction}
    (different : m ≠ n) (isLeft : s.txs m = some left) (isRight : s.txs n = some right)
    (leftHolds : left.phase.HoldsSlot) (rightHolds : right.phase.HoldsSlot) :
    left.impl.txHandle.index ≠ right.impl.txHandle.index := by
  intro same
  have leftSlot := ((invariant.txs m left isLeft).held leftHolds).slotTx
  have rightSlot := ((invariant.txs n right isRight).held rightHolds).slotTx
  rw [same, rightSlot, Option.some.injEq] at leftSlot
  exact different leftSlot.symm

theorem active_index (invariant : SlotInvariant system s) {n : Nat} {tx : LiveTransaction}
    (isTx : s.txs n = some tx) (holds : tx.phase.HoldsSlot) :
    Active (s.pm.txTable tx.impl.txHandle.index) := by
  rw [((invariant.txs n tx isTx).held holds).header]
  exact active_or _

/-- A step of one transaction keeps the invariant when it leaves alone the slots of the
others and does right by its own. -/
theorem of_local (invariant : SlotInvariant system s) (n : Nat) (touched : Nat → Prop)
    (isReady : next.mode = .ready) (sameTxs : ∀ m, m ≠ n → next.txs m = s.txs m)
    (sameHistory : ∀ m, m ≠ n → next.outcome m = s.outcome m ∧ next.idOf m = s.idOf m)
    (sameSlots : ∀ index, ¬ touched index → next.pm.txTable index = s.pm.txTable index ∧
      next.pm.journal index = s.pm.journal index ∧ next.slotTx index = s.slotTx index)
    (apart : ∀ m tx, m ≠ n → s.txs m = some tx → tx.phase.HoldsSlot →
      ¬ touched tx.impl.txHandle.index)
    (self : ∀ tx, next.txs n = some tx → TransactionInvariant system next n tx) :
    SlotInvariant system next := by
  refine ⟨fun m tx isTx => ?_, fun notReady => absurd isReady notReady, ?_⟩
  · by_cases same : m = n
    · subst same
      exact self tx isTx
    · rw [sameTxs m same] at isTx
      obtain ⟨id_eq, jend_eq, begun, unfinished, held, trying, rollingBack⟩ :=
        invariant.txs m tx isTx
      obtain ⟨sameOutcome, sameId⟩ := sameHistory m same
      rw [← sameOutcome] at begun unfinished
      refine ⟨id_eq.trans sameId.symm, jend_eq, begun, unfinished, fun holds => ?_, trying,
        fun left isRolling => ?_⟩
      · obtain ⟨sameHeader, -, sameSlotTx⟩ := sameSlots _ (apart m tx same isTx holds)
        obtain ⟨index_lt, header, slotTx⟩ := held holds
        exact ⟨index_lt, sameHeader.trans header, sameSlotTx.trans slotTx⟩
      · have holds : tx.phase.HoldsSlot := by simp [isRolling, Phase.HoldsSlot]
        obtain ⟨-, sameJournal, -⟩ := sameSlots _ (apart m tx same isTx holds)
        rw [rollback, sameJournal]
        exact rollingBack left isRolling
  · intro left maxTxId mode
    rw [isReady] at mode
    exact Mode.noConfusion mode

/-- A step that only changes the phase of a transaction. -/
theorem of_setPhase (invariant : SlotInvariant system s) {n : Nat} {tx : LiveTransaction}
    (isTx : s.txs n = some tx) {phase : Phase} (outcome : Nat → Outcome)
    (lockOwner : Nat → Option Nat) (sameOutcome : ∀ m, m ≠ n → outcome m = s.outcome m)
    (begun : outcome n ≠ .notBegun) (unfinished : outcome n ≠ .finished)
    (holds : phase.HoldsSlot → tx.phase.HoldsSlot)
    (trying : ∀ index prevTxId, phase = .trying index prevTxId →
      index < system.maxTransactions ∧ ¬ Active prevTxId)
    (rollingBack : ∀ left, phase = .rollingBack left →
      left ⊆ rollback s.pm tx.impl.txHandle tx.impl.jcur) :
    SlotInvariant system { s.setPhase n tx phase with outcome, lockOwner } := by
  refine invariant.of_local n (fun _ => False) (invariant.ready isTx)
    (fun m different => Function.update_of_ne different _ _)
    (fun m different => ⟨sameOutcome m different, rfl⟩) (fun index _ => ⟨rfl, rfl, rfl⟩)
    (fun m other _ _ _ => not_false) fun other isOther => ?_
  obtain rfl := Option.some.inj ((Function.update_self n _ s.txs).symm.trans isOther)
  have own := invariant.txs n tx isTx
  exact ⟨own.id_eq, own.jend_eq, begun, unfinished, fun holdsNow =>
    ⟨(own.held (holds holdsNow)).index_lt, (own.held (holds holdsNow)).header,
      (own.held (holds holdsNow)).slotTx⟩, trying, rollingBack⟩

/-- A step that changes the phase and nothing else. -/
theorem setPhase (invariant : SlotInvariant system s) {n : Nat} {tx : LiveTransaction}
    (isTx : s.txs n = some tx) (phase : Phase)
    (holds : phase.HoldsSlot → tx.phase.HoldsSlot)
    (trying : ∀ index prevTxId, phase = .trying index prevTxId →
      index < system.maxTransactions ∧ ¬ Active prevTxId)
    (rollingBack : ∀ left, phase = .rollingBack left →
      left ⊆ rollback s.pm tx.impl.txHandle tx.impl.jcur) :
    SlotInvariant system (s.setPhase n tx phase) :=
  invariant.of_setPhase isTx s.outcome s.lockOwner (fun _ _ => rfl)
    (invariant.txs n tx isTx).begun (invariant.txs n tx isTx).unfinished holds trying rollingBack

/-- The stores of a log call that may have been cut short. -/
theorem log (invariant : SlotInvariant system s) {n : Nat} {tx : LiveTransaction}
    (isTx : s.txs n = some tx) (phase : tx.phase = .running) {count : Nat}
    {stores : List Store}
    (extended : Extends tx.impl.txHandle tx.impl.jcur count s.pm (s.pm.applyAll stores))
    (jcur : Nat) (logged : List (Nat × Nat)) :
    SlotInvariant system (s.log n tx stores jcur logged) := by
  have holds : tx.phase.HoldsSlot := by simp [phase, Phase.HoldsSlot]
  refine invariant.of_local n (· = tx.impl.txHandle.index) (invariant.ready isTx)
    (fun m different => Function.update_of_ne different _ _) (fun _ _ => ⟨rfl, rfl⟩)
    (fun index untouched => ⟨congrFun extended.txTable index,
      extended.otherSlots index untouched, rfl⟩)
    (fun m other different isOther otherHolds =>
      invariant.index_ne different isOther isTx otherHolds holds) fun other isOther => ?_
  obtain rfl := Option.some.inj ((Function.update_self n _ s.txs).symm.trans isOther)
  have own := invariant.txs n tx isTx
  refine ⟨own.id_eq, own.jend_eq, own.begun, own.unfinished, fun _ =>
    ⟨(own.held holds).index_lt, ?_, (own.held holds).slotTx⟩, own.trying, ?_⟩
  · exact (congrFun extended.txTable _).trans (own.held holds).header
  · simp [phase]

theorem crash (s : State) : SlotInvariant system s.crash where
  txs _ tx isTx := (Option.some_ne_none tx isTx.symm).elim
  noneLive _ _ := rfl
  recovering _ _ mode := Mode.noConfusion mode

theorem created (mem : Nat → UInt8) : SlotInvariant system (State.created mem) where
  txs _ tx isTx := (Option.some_ne_none tx isTx.symm).elim
  noneLive _ _ := rfl
  recovering _ _ mode := Mode.noConfusion mode

end SlotInvariant

/-- The header of a live slot is not idle, so it cannot be won. -/
theorem SlotInvariant.win (invariant : SlotInvariant system s) {n : Nat}
    {tx : LiveTransaction} {index : Nat} (isTx : s.txs n = some tx)
    (phase : tx.phase = .trying index (s.pm.txTable index)) :
    SlotInvariant system (s.win n tx index) := by
  have own := invariant.txs n tx isTx
  obtain ⟨index_lt, idle⟩ := own.trying index _ phase
  refine invariant.of_local n (· = index) (invariant.ready isTx)
    (fun m different => Function.update_of_ne different _ _) (fun _ _ => ⟨rfl, rfl⟩)
    (fun other untouched => ⟨Function.update_of_ne untouched _ _, rfl,
      Function.update_of_ne untouched _ _⟩) ?_ fun other isOther => ?_
  · rintro m other - isOther holds rfl
    exact idle (invariant.active_index isOther holds)
  · obtain rfl := Option.some.inj ((Function.update_self n _ s.txs).symm.trans isOther)
    exact ⟨own.id_eq, own.jend_eq, own.begun, own.unfinished, fun _ =>
      ⟨index_lt, Function.update_self index _ _, Function.update_self index _ _⟩,
      by simp, by simp⟩

theorem SlotInvariant.freeTransaction (invariant : SlotInvariant system s) {n : Nat}
    {tx : LiveTransaction} (isTx : s.txs n = some tx) (phase : tx.phase = .unlocked) :
    SlotInvariant system (s.freeTransaction n tx) := by
  have holds : tx.phase.HoldsSlot := by simp [phase, Phase.HoldsSlot]
  refine invariant.of_local n (· = tx.impl.txHandle.index) (invariant.ready isTx)
    (fun m different => Function.update_of_ne different _ _)
    (fun m different => ⟨Function.update_of_ne different _ _, rfl⟩)
    (fun index untouched => ⟨Function.update_of_ne untouched _ _, rfl, rfl⟩)
    (fun m other different isOther otherHolds =>
      invariant.index_ne different isOther isTx otherHolds holds) fun other isOther => ?_
  exact (removed_ne_some s.txs n other isOther).elim

/-- A step that only changes graph memory and its history. -/
theorem SlotInvariant.of_sameSlots (invariant : SlotInvariant system s)
    (sameTxs : next.txs = s.txs) (sameMode : next.mode = s.mode)
    (sameHistory : next.outcome = s.outcome ∧ next.idOf = s.idOf)
    (sameSlots : next.pm.txTable = s.pm.txTable ∧ next.pm.journal = s.pm.journal ∧
      next.slotTx = s.slotTx) :
    SlotInvariant system next := by
  obtain ⟨sameOutcome, sameId⟩ := sameHistory
  obtain ⟨sameHeader, sameJournal, sameSlotTx⟩ := sameSlots
  refine ⟨fun n tx isTx => ?_, ?_, ?_⟩
  · rw [sameTxs] at isTx
    obtain ⟨id_eq, jend_eq, begun, unfinished, held, trying, rollingBack⟩ :=
      invariant.txs n tx isTx
    refine ⟨by rwa [sameId], jend_eq, by rwa [sameOutcome], by rwa [sameOutcome],
      fun holds => ?_, trying, ?_⟩
    · obtain ⟨index_lt, header, slotTx⟩ := held holds
      exact ⟨index_lt, by rwa [sameHeader], by rwa [sameSlotTx]⟩
    · rwa [rollback, sameJournal]
  · rw [sameMode, sameTxs]
    exact invariant.noneLive
  · rw [sameMode, sameHeader]
    exact invariant.recovering

theorem SlotInvariant.recoverStore (invariant : SlotInvariant system s) {store : Store}
    {left : List Store} {maxTxId : BitVec 64}
    (recovering : s.mode = .recovering (store :: left) maxTxId) :
    SlotInvariant system (s.recoverStore store left maxTxId) := by
  have noneLive := invariant.noneLive (by simp [recovering])
  refine ⟨fun n tx isTx => ?_, fun _ => noneLive, fun later maxTxId' mode other member => ?_⟩
  · exact (Option.some_ne_none tx (isTx.symm.trans (noneLive n))).elim
  · obtain ⟨rfl, -⟩ := Mode.recovering.inj mode
    have effects := invariant.recovering _ _ recovering
    rcases effects other (by simp [member]) with inPlace | ⟨slot, isHeader⟩
    · exact Or.inl inPlace
    · refine Or.inr ⟨slot, ?_⟩
      rcases effects store (by simp) with ⟨address, byte, rfl⟩ | ⟨cleared, rfl⟩
      · exact isHeader
      · simp only [State.recoverStore, Pm.apply, Function.update_apply]
        split_ifs with same
        · rw [← same, clearActive_clearActive]
          exact isHeader
        · exact isHeader

theorem SlotInvariant.recover (invariant : SlotInvariant system s)
    (down : s.mode = .down) : SlotInvariant system (s.recover system) := by
  have noneLive := invariant.noneLive (by simp [down])
  refine ⟨fun n tx isTx => ?_, fun _ => noneLive, fun left maxTxId mode store member => ?_⟩
  · exact (Option.some_ne_none tx (isTx.symm.trans (noneLive n))).elim
  · obtain ⟨rfl, -⟩ := Mode.recovering.inj mode
    obtain ⟨slot, -, -, inPlace | header⟩ :=
      system.mem_recoverSlots List.nodup_range member
    · obtain ⟨address, byte, isStore, -⟩ := inPlace
      exact Or.inl ⟨address, byte, isStore⟩
    · exact Or.inr ⟨slot, header⟩

/-- Every step keeps slots owned. -/
theorem slotInvariant_step {action : Action} (invariant : SlotInvariant system s)
    (stepped : step system s action = some next) : SlotInvariant system next := by
  cases stepCase_of_step stepped with
  | begin n isReady fresh =>
      refine invariant.of_local n (fun _ => False) isReady
        (fun m different => Function.update_of_ne different _ _)
        (fun m different => ⟨Function.update_of_ne different _ _,
          Function.update_of_ne different _ _⟩)
        (fun index _ => ⟨rfl, rfl, rfl⟩) (fun m tx _ _ _ => not_false) fun tx isTx => ?_
      obtain rfl := Option.some.inj ((Function.update_self n _ s.txs).symm.trans isTx)
      exact ⟨(Function.update_self n _ s.idOf).symm, rfl, by simp [State.begin],
        by simp [State.begin], fun holds => holds.elim, by simp, by simp⟩
  | sawActive n tx index isTx phase =>
      exact invariant.setPhase isTx _ False.elim (by simp) (by simp)
  | sawIdle n tx index isTx phase bounded idle =>
      refine invariant.setPhase isTx _ False.elim (fun other prevTxId isTrying => ?_) (by simp)
      obtain ⟨rfl, rfl⟩ := Phase.trying.inj isTrying
      exact ⟨bounded, idle⟩
  | sawAll n tx index isTx phase =>
      refine invariant.of_local n (fun _ => False) (invariant.ready isTx)
        (fun m different => Function.update_of_ne different _ _)
        (fun m different => ⟨Function.update_of_ne different _ _, rfl⟩)
        (fun index _ => ⟨rfl, rfl, rfl⟩) (fun m tx _ _ _ => not_false) fun tx isTx => ?_
      exact (removed_ne_some s.txs n tx isTx).elim
  | win n tx index isTx phase => exact invariant.win isTx phase
  | lose n tx index prevTxId isTx phase =>
      exact invariant.setPhase isTx _ False.elim (by simp) (by simp)
  | lock n stripe tx isTx =>
      exact invariant.of_sameSlots rfl rfl ⟨rfl, rfl⟩ ⟨rfl, rfl, rfl⟩
  | log n ptr len tx impl stores isTx phase accepted =>
      exact invariant.log isTx phase (extends_of_log accepted).1 _ _
  | store n address byte tx isTx phase may =>
      exact invariant.of_sameSlots rfl rfl ⟨rfl, rfl⟩ ⟨rfl, rfl, rfl⟩
  | finalizeCommit n tx isTx phase =>
      exact invariant.of_setPhase isTx _ s.lockOwner
        (fun m different => Function.update_of_ne different _ _) (by simp) (by simp)
        (fun _ => by simp [phase, Phase.HoldsSlot]) (by simp) (by simp)
  | rollback n tx isTx phase =>
      refine invariant.of_setPhase isTx _ s.lockOwner
        (fun m different => Function.update_of_ne different _ _) (by simp) (by simp)
        (fun _ => by simp [phase, Phase.HoldsSlot]) (by simp) fun left isRolling => ?_
      obtain rfl := Phase.rollingBack.inj isRolling
      exact List.Subset.refl _
  | rollbackStore n tx store left isTx phase =>
      have own := (invariant.txs n tx isTx).rollingBack _ phase
      obtain ⟨address, byte, rfl, -⟩ := exists_image_of_mem_replay (own List.mem_cons_self)
      have moved := invariant.setPhase isTx (.rollingBack left)
        (fun _ => by simp [phase, Phase.HoldsSlot]) (by simp) fun later isRolling => by
          obtain rfl := Phase.rollingBack.inj isRolling
          exact fun other member => own (by simp [member])
      exact moved.of_sameSlots rfl rfl ⟨rfl, rfl⟩ ⟨rfl, rfl, rfl⟩
  | finalize n tx isTx phase =>
      refine invariant.setPhase isTx _ (fun _ => ?_) (by simp) (by simp)
      rcases phase with phase | phase <;> simp [phase, Phase.HoldsSlot]
  | unlockAll n tx isTx phase =>
      exact invariant.of_setPhase isTx s.outcome _ (fun _ _ => rfl)
        (invariant.txs n tx isTx).begun (invariant.txs n tx isTx).unfinished
        (fun _ => by simp [phase, Phase.HoldsSlot]) (by simp) (by simp)
  | freeTransaction n tx isTx phase => exact invariant.freeTransaction isTx phase
  | crash => exact SlotInvariant.crash s
  | crashInLog n ptr len cut tx impl stores isTx phase accepted =>
      exact SlotInvariant.crash _
  | recover down => exact invariant.recover down
  | recoverStore store left maxTxId recovering => exact invariant.recoverStore recovering
  | recovered maxTxId recovering =>
      have noneLive := invariant.noneLive (by simp [recovering])
      refine ⟨fun n tx isTx => ?_, fun _ => noneLive, fun _ _ mode => Mode.noConfusion mode⟩
      exact (Option.some_ne_none tx (isTx.symm.trans (noneLive n))).elim

end Pmgd
