import Pmgd.SlotOwnership

/-!
# What recovery does to finished transactions

The destructor of a transaction releases its locks before it clears `ACTIVE` in its header.
In between, another transaction can lock a byte that the first one has logged, store to it,
commit and free its slot.  If the system crashes then, recovery rolls back the first slot and
puts the old byte over that of the finished transaction.

The file shows that this is the only way, up to leftover entries: recovery keeps the bytes of
finished transactions in every run in which no byte is stored to while another active slot has
a valid entry for it, and no slot is won by an id that an old entry of its extent carries.
-/

namespace Pmgd

open LabelledRun UndoLog TransactionHdr

variable {system : System} {s next : State}

/-- Recovery would leave every byte last stored to by a finished transaction with the value
of that transaction. -/
def KeepsFinished (system : System) (s : State) : Prop :=
  ∀ address n byte, s.lastStore address = some (n, byte) → s.outcome n = .finished →
    (system.recovered s.pm).mem address = byte

/-- No byte is stored to while another active slot has a valid entry for it, and no slot is won
by an id that is left over in its extent. -/
def NoStaleImage (system : System) (s : State) : Action → Prop
  | .cmpxchg n => ∀ won ∈ s.winning n, ∀ je < system.jend,
      ¬ (s.pm.journal won.1 je).Carries (clearActive won.2)
  | .store n address _ => ∀ tx ∈ s.txs n, ∀ slot < system.maxTransactions,
      slot ≠ tx.impl.txHandle.index → Active (s.pm.txTable slot) →
        ¬ Covers (system.replayed s.pm slot) address
  | _ => True

instance (images : List (Image Nat UInt8)) (address : Nat) :
    Decidable (Covers images address) :=
  inferInstanceAs (Decidable (∃ image ∈ images, _))

instance (system : System) (s : State) : ∀ action, Decidable (NoStaleImage system s action)
  | .cmpxchg _ => inferInstanceAs (Decidable (∀ won ∈ _, _))
  | .store _ _ _ => inferInstanceAs (Decidable (∀ tx ∈ _, _))
  | .begin _ | .readHeader _ | .lock _ _ | .log _ _ _ | .finalizeCommit _ | .rollback _
  | .rollbackStore _ | .finalize _ | .unlockAll _ | .freeTransaction _ | .crash
  | .crashInLog _ _ _ _ | .recover | .recoverStore => inferInstanceAs (Decidable True)

/-! ## The invariant -/

/-- What a phase says about the outcome. -/
def Phase.Fits (outcome : Outcome) : Phase → Prop
  | .scanning _ => outcome = .running
  | .trying _ _ => outcome = .running
  | .running => outcome = .running
  | .rollingBack _ => outcome = .lost
  | _ => True

structure LiveInvariant (system : System) (s : State) (n : Nat) (tx : LiveTransaction) :
    Prop where
  fits : tx.phase.Fits (s.outcome n)
  room : tx.phase.HoldsSlot → tx.impl.jcur ≤ system.jend
  beyond : tx.phase.HoldsSlot → ∀ je, tx.impl.jcur ≤ je → je < system.jend →
    ¬ (s.pm.journal tx.impl.txHandle.index je).Carries
      (clearActive (s.pm.txTable tx.impl.txHandle.index))

/-- The last winner of an active slot still holds it, or is lost. -/
def SlotOpen (s : State) (slot n : Nat) : Prop :=
  s.outcome n = .lost ∨
    ∃ tx, s.txs n = some tx ∧ tx.phase.HoldsSlot ∧ tx.impl.txHandle.index = slot

/-- A byte has the value of its last store, and so has every image of it that recovery could
restore, as long as the transaction that stored it is not lost.  Only the images of the slot
of that transaction are older. -/
structure FinishedInvariant (system : System) (s : State) : Prop where
  live : ∀ n tx, s.txs n = some tx → LiveInvariant system s n tx
  bytes : ∀ address n byte, s.lastStore address = some (n, byte) → s.outcome n ≠ .lost →
    s.pm.mem address = byte
  images : ∀ slot < system.maxTransactions, Active (s.pm.txTable slot) →
    ∀ image ∈ system.replayed s.pm slot, ∀ address old n byte, image address = some old →
      s.lastStore address = some (n, byte) → s.outcome n ≠ .lost →
        s.slotTx slot = some n ∨ old = byte
  slotOpen : ∀ slot, Active (s.pm.txTable slot) →
    ∃ n, s.slotTx slot = some n ∧ SlotOpen s slot n
  recovering : ∀ left maxTxId, s.mode = .recovering left maxTxId →
    ∀ address old n byte, .inPlace address old ∈ left →
      s.lastStore address = some (n, byte) → s.outcome n ≠ .lost → old = byte

/-- When no transaction is live, the images of all active slots agree with the last stores
that are not lost. -/
theorem FinishedInvariant.image_eq (invariant : FinishedInvariant system s) {slot n : Nat}
    (bounded : slot < system.maxTransactions) (isActive : Active (s.pm.txTable slot))
    {image : Image Nat UInt8} (member : image ∈ system.replayed s.pm slot) {address : Nat}
    {old byte : UInt8} (isImage : image address = some old)
    (isLast : s.lastStore address = some (n, byte)) (notLost : s.outcome n ≠ .lost)
    (notLive : s.txs n = none) : old = byte := by
  rcases invariant.images slot bounded isActive image member address old n byte isImage isLast
    notLost with isOwner | same
  · obtain ⟨owner, slotTx, isOpen⟩ := invariant.slotOpen slot isActive
    obtain rfl : n = owner := Option.some.inj (isOwner.symm.trans slotTx)
    rcases isOpen with lost | ⟨tx, isTx, -⟩
    · exact absurd lost notLost
    · rw [notLive] at isTx
      exact (Option.some_ne_none tx isTx.symm).elim
  · exact same

/-- Stores that agree on the value of a byte that has it leave it alone. -/
theorem mem_applyAll_of_forall {pm : Pm} {stores : List Store} {address : Nat} {byte : UInt8}
    (initially : pm.mem address = byte)
    (agree : ∀ old, .inPlace address old ∈ stores → old = byte) :
    (pm.applyAll stores).mem address = byte := by
  induction stores generalizing pm with
  | nil => exact initially
  | cons store stores ih =>
      refine ih ?_ fun old member => agree old (List.mem_cons_of_mem store member)
      cases store with
      | entry slot je field => exact initially
      | inPlace other old =>
          by_cases same : address = other
          · subst same
            simpa [Pm.apply] using agree old (by simp)
          · simpa [Pm.apply, Function.update_of_ne same] using initially
      | header slot txId => exact initially

theorem keepsFinished_of_finishedInvariant (slots : SlotInvariant system s)
    (invariant : FinishedInvariant system s) : KeepsFinished system s := by
  intro address n byte isLast finished
  have notLost : s.outcome n ≠ .lost := by simp [finished]
  have notLive : s.txs n = none := by
    cases isTx : s.txs n with
    | none => rfl
    | some tx => exact absurd finished (slots.txs n tx isTx).unfinished
  refine mem_applyAll_of_forall (invariant.bytes address n byte isLast notLost)
    fun old member => ?_
  obtain ⟨slot, inRange, isActive, inPlace | header⟩ :=
    system.mem_recoverSlots List.nodup_range member
  · obtain ⟨other, value, isStore, image, isMember, isImage⟩ := inPlace
    obtain ⟨rfl, rfl⟩ := Store.inPlace.inj isStore
    exact invariant.image_eq (List.mem_range.mp inRange) isActive isMember isImage isLast
      notLost notLive
  · exact Store.noConfusion header

/-! ## Frames -/

theorem replayed_congr {manager : TransactionManager} {left right : Pm} {slot : Nat}
    (sameHeader : left.txTable slot = right.txTable slot)
    (sameJournal : left.journal slot = right.journal slot) :
    manager.replayed left slot = manager.replayed right slot := by
  rw [TransactionManager.replayed, TransactionManager.replayed, sameHeader, sameJournal]

/-- A step of one transaction keeps what is known of the others. -/
theorem live_of_local (invariant : FinishedInvariant system s) (n : Nat)
    (touched : Nat → Prop) (sameTxs : ∀ m, m ≠ n → next.txs m = s.txs m)
    (sameOutcome : ∀ m, m ≠ n → next.outcome m = s.outcome m)
    (sameSlots : ∀ index, ¬ touched index → next.pm.txTable index = s.pm.txTable index ∧
      next.pm.journal index = s.pm.journal index)
    (apart : ∀ m tx, m ≠ n → s.txs m = some tx → tx.phase.HoldsSlot →
      ¬ touched tx.impl.txHandle.index)
    (self : ∀ tx, next.txs n = some tx → LiveInvariant system next n tx) :
    ∀ m tx, next.txs m = some tx → LiveInvariant system next m tx := by
  intro m tx isTx
  by_cases same : m = n
  · subst same
    exact self tx isTx
  · rw [sameTxs m same] at isTx
    obtain ⟨fits, room, beyond⟩ := invariant.live m tx isTx
    refine ⟨by rwa [sameOutcome m same], room, fun holds => ?_⟩
    obtain ⟨sameHeader, sameJournal⟩ := sameSlots _ (apart m tx same isTx holds)
    rw [sameHeader, sameJournal]
    exact beyond holds

/-- A step that leaves persistent memory alone, and may lose transactions. -/
theorem FinishedInvariant.of_samePm (invariant : FinishedInvariant system s)
    (samePm : next.pm = s.pm) (sameStores : next.lastStore = s.lastStore)
    (sameSlotTx : next.slotTx = s.slotTx)
    (staysLost : ∀ n, s.outcome n = .lost → next.outcome n = .lost)
    (live : ∀ n tx, next.txs n = some tx → LiveInvariant system next n tx)
    (staysOpen : ∀ n tx, s.txs n = some tx → tx.phase.HoldsSlot →
      SlotOpen next tx.impl.txHandle.index n)
    (recovering : ∀ left maxTxId, next.mode = .recovering left maxTxId →
      ∀ address old n byte, .inPlace address old ∈ left →
        s.lastStore address = some (n, byte) → next.outcome n ≠ .lost → old = byte) :
    FinishedInvariant system next := by
  have wasNotLost : ∀ n, next.outcome n ≠ .lost → s.outcome n ≠ .lost :=
    fun n notLost lost => notLost (staysLost n lost)
  refine ⟨live, ?_, ?_, ?_, by rwa [sameStores]⟩
  · rw [samePm, sameStores]
    exact fun address n byte isLast notLost =>
      invariant.bytes address n byte isLast (wasNotLost n notLost)
  · rw [samePm, sameStores, sameSlotTx]
    exact fun slot bounded isActive image member address old n byte isImage isLast notLost =>
      invariant.images slot bounded isActive image member address old n byte isImage isLast
        (wasNotLost n notLost)
  · rw [samePm, sameSlotTx]
    intro slot isActive
    obtain ⟨n, slotTx, lost | ⟨tx, isTx, holds, rfl⟩⟩ := invariant.slotOpen slot isActive
    · exact ⟨n, slotTx, Or.inl (staysLost n lost)⟩
    · exact ⟨n, slotTx, staysOpen n tx isTx holds⟩

theorem slotOpen_of_isTx {n : Nat} {tx : LiveTransaction} (isTx : s.txs n = some tx)
    (holds : tx.phase.HoldsSlot) : SlotOpen s tx.impl.txHandle.index n :=
  Or.inr ⟨tx, isTx, holds, rfl⟩

/-- A step that only changes the phase of a transaction. -/
theorem FinishedInvariant.of_setPhase (invariant : FinishedInvariant system s) {n : Nat}
    {tx : LiveTransaction} (isTx : s.txs n = some tx) (isReady : s.mode = .ready)
    (phase : Phase) (outcome : Nat → Outcome) (lockOwner : Nat → Option Nat)
    (sameOutcome : ∀ m, m ≠ n → outcome m = s.outcome m)
    (staysLost : s.outcome n = .lost → outcome n = .lost) (fits : phase.Fits (outcome n))
    (sameHolds : phase.HoldsSlot ↔ tx.phase.HoldsSlot) :
    FinishedInvariant system { s.setPhase n tx phase with outcome, lockOwner } := by
  have own := invariant.live n tx isTx
  refine invariant.of_samePm rfl rfl rfl (fun m lost => ?_) ?_ (fun m other isOther holds => ?_)
    fun _ _ mode => ?_
  · by_cases same : m = n
    · subst same
      exact staysLost lost
    · exact (sameOutcome m same).trans lost
  · refine live_of_local invariant n (fun _ => False)
      (fun m different => Function.update_of_ne different _ _) sameOutcome
      (fun _ _ => ⟨rfl, rfl⟩) (fun _ _ _ _ _ => not_false) fun other isOther => ?_
    obtain rfl := Option.some.inj ((Function.update_self n _ s.txs).symm.trans isOther)
    exact ⟨fits, fun holds => own.room (sameHolds.mp holds),
      fun holds => own.beyond (sameHolds.mp holds)⟩
  · by_cases same : m = n
    · subst same
      obtain rfl : tx = other := Option.some.inj (isTx.symm.trans isOther)
      exact Or.inr ⟨{ tx with phase }, Function.update_self m _ s.txs, sameHolds.mpr holds, rfl⟩
    · exact slotOpen_of_isTx ((Function.update_of_ne same _ _).trans isOther) holds
  · exact Mode.noConfusion (isReady.symm.trans mode)

/-! ## Stores to the graph -/

theorem FinishedInvariant.store (invariant : FinishedInvariant system s)
    (slots : SlotInvariant system s) {n address : Nat} {tx : LiveTransaction}
    (isTx : s.txs n = some tx) (phase : tx.phase = .running)
    (noImage : ∀ slot < system.maxTransactions, slot ≠ tx.impl.txHandle.index →
      Active (s.pm.txTable slot) → ¬ Covers (system.replayed s.pm slot) address)
    (byte : UInt8) : FinishedInvariant system (s.store n address byte) := by
  have held := (slots.txs n tx isTx).held (by simp [phase, Phase.HoldsSlot])
  refine ⟨fun m other isOther => ?_, fun other m value isLast notLost => ?_, ?_,
    invariant.slotOpen, fun _ _ mode => ?_⟩
  · obtain ⟨fits, room, beyond⟩ := invariant.live m other isOther
    exact ⟨fits, room, beyond⟩
  · by_cases same : other = address
    · subst same
      simp only [State.store, Function.update_self, Option.some.injEq, Prod.mk.injEq] at isLast
      simpa [State.store, Pm.apply] using isLast.2
    · simp only [State.store, Function.update_of_ne same] at isLast
      simpa [State.store, Pm.apply, Function.update_of_ne same] using
        invariant.bytes other m value isLast notLost
  · intro slot bounded isActive image member other old m value isImage isLast notLost
    by_cases same : other = address
    · subst same
      simp only [State.store, Function.update_self, Option.some.injEq, Prod.mk.injEq] at isLast
      obtain ⟨rfl, -⟩ := isLast
      by_cases ownSlot : slot = tx.impl.txHandle.index
      · subst ownSlot
        exact Or.inl held.slotTx
      · exact absurd ⟨image, member, by simp [isImage]⟩
          (noImage slot bounded ownSlot isActive)
    · simp only [State.store, Function.update_of_ne same] at isLast
      exact invariant.images slot bounded isActive image member other old m value isImage isLast
        notLost
  · exact Mode.noConfusion ((slots.ready isTx).symm.trans mode)

/-- A store of a rollback or a recovery, which has the value of the last store. -/
theorem FinishedInvariant.of_inPlace (invariant : FinishedInvariant system s)
    {address : Nat} {old : UInt8} (samePm : next.pm = s.pm.apply (.inPlace address old))
    (sameStores : next.lastStore = s.lastStore) (sameSlotTx : next.slotTx = s.slotTx)
    (sameOutcome : next.outcome = s.outcome)
    (live : ∀ n tx, next.txs n = some tx → LiveInvariant system next n tx)
    (staysOpen : ∀ n tx, s.txs n = some tx → tx.phase.HoldsSlot →
      SlotOpen next tx.impl.txHandle.index n)
    (sameByte : ∀ n byte, s.lastStore address = some (n, byte) → s.outcome n ≠ .lost →
      old = byte)
    (recovering : ∀ left maxTxId, next.mode = .recovering left maxTxId →
      ∀ address old n byte, .inPlace address old ∈ left →
        s.lastStore address = some (n, byte) → s.outcome n ≠ .lost → old = byte) :
    FinishedInvariant system next := by
  refine ⟨live, ?_, ?_, ?_, by rwa [sameStores, sameOutcome]⟩
  · rw [samePm, sameStores, sameOutcome]
    intro other n byte isLast notLost
    by_cases same : other = address
    · subst same
      simpa [Pm.apply] using sameByte n byte isLast notLost
    · simpa [Pm.apply, Function.update_of_ne same] using
        invariant.bytes other n byte isLast notLost
  · rw [samePm, sameStores, sameSlotTx, sameOutcome]
    exact invariant.images
  · rw [samePm, sameSlotTx]
    intro slot isActive
    obtain ⟨n, slotTx, lost | ⟨tx, isTx, holds, rfl⟩⟩ := invariant.slotOpen slot isActive
    · exact ⟨n, slotTx, Or.inl (by rwa [sameOutcome])⟩
    · exact ⟨n, slotTx, staysOpen n tx isTx holds⟩

/-! ## Log calls -/

/-- The scan with a larger bound finds at least as many entries. -/
theorem lt_validEntries_of_le {journal : Nat → JournalEntry} {id : BitVec 64}
    {small large je : Nat} (bounded : small ≤ large)
    (valid : je < validEntries journal id small) : je < validEntries journal id large := by
  by_contra stopped
  have inSmall := validEntries_le journal id small
  have short : validEntries journal id large < large := by omega
  have found : validEntries journal id large < validEntries journal id small := by omega
  exact not_carries_validEntries short (carries_of_lt_validEntries found)

/-- New entries hold current bytes, so the images still agree with the last stores. -/
theorem FinishedInvariant.log (invariant : FinishedInvariant system s)
    (slots : SlotInvariant system s) {n : Nat} {tx : LiveTransaction}
    (isTx : s.txs n = some tx) (phase : tx.phase = .running) {count : Nat}
    {stores : List Store}
    (extended : Extends tx.impl.txHandle tx.impl.jcur count s.pm (s.pm.applyAll stores))
    (room : tx.impl.jcur + count ≤ system.jend) (logged : List (Nat × Nat)) :
    FinishedInvariant system (s.log n tx stores (tx.impl.jcur + count) logged) := by
  have holds : tx.phase.HoldsSlot := by simp [phase, Phase.HoldsSlot]
  have own := invariant.live n tx isTx
  have beyond : ∀ je, tx.impl.jcur + count ≤ je → je < system.jend →
      ¬ ((s.pm.applyAll stores).journal tx.impl.txHandle.index je).Carries
        (clearActive (s.pm.txTable tx.impl.txHandle.index)) := by
    intro je behind inExtent carries
    rw [JournalEntry.Carries, extended.later je behind] at carries
    exact own.beyond holds je (by omega) inExtent carries
  refine ⟨?_, ?_, ?_, ?_, fun _ _ mode => ?_⟩
  · refine live_of_local invariant n (· = tx.impl.txHandle.index)
      (fun m different => Function.update_of_ne different _ _) (fun _ _ => rfl)
      (fun index untouched => ⟨congrFun extended.txTable index,
        extended.otherSlots index untouched⟩)
      (fun m other different isOther otherHolds =>
        slots.index_ne different isOther isTx otherHolds holds) fun other isOther => ?_
    obtain rfl := Option.some.inj ((Function.update_self n _ s.txs).symm.trans isOther)
    refine ⟨own.fits, fun _ => room, fun _ => ?_⟩
    simp only [State.log, extended.txTable]
    exact beyond
  · intro address m byte isLast notLost
    simp only [State.log, extended.mem]
    exact invariant.bytes address m byte isLast notLost
  · intro slot bounded isActive image member address old m byte isImage isLast notLost
    simp only [State.log, extended.txTable] at isActive
    by_cases ownSlot : slot = tx.impl.txHandle.index
    · subst ownSlot
      simp only [State.log, TransactionManager.replayed, extended.txTable] at member
      obtain ⟨je, valid, rfl⟩ := mem_images.mp member
      have inExtent := validEntries_le ((s.pm.applyAll stores).journal tx.impl.txHandle.index)
        (clearActive (s.pm.txTable tx.impl.txHandle.index)) system.jend
      rcases Nat.lt_or_ge je tx.impl.jcur with isOld | isNew
      · have wasValid : je < validEntries (s.pm.journal tx.impl.txHandle.index)
            (clearActive (s.pm.txTable tx.impl.txHandle.index)) system.jend := by
          by_contra stopped
          have short : validEntries (s.pm.journal tx.impl.txHandle.index)
              (clearActive (s.pm.txTable tx.impl.txHandle.index)) system.jend <
                system.jend := by
            omega
          have carries := carries_of_lt_validEntries (lt_of_le_of_lt (not_lt.mp stopped) valid)
          rw [extended.earlier _ (by omega)] at carries
          exact not_carries_validEntries short carries
        rw [extended.earlier je isOld] at isImage
        exact invariant.images _ bounded isActive _ (mem_images.mpr ⟨je, wasValid, rfl⟩) address
          old m byte isImage isLast notLost
      · rcases Nat.lt_or_ge je (tx.impl.jcur + count) with isWritten | isBeyond
        · right
          rw [extended.snapshot je isNew isWritten address old isImage]
          exact invariant.bytes address m byte isLast notLost
        · exact absurd (carries_of_lt_validEntries valid) (beyond je isBeyond (by omega))
    · have same : system.replayed (s.pm.applyAll stores) slot = system.replayed s.pm slot :=
        replayed_congr (congrFun extended.txTable slot) (extended.otherSlots slot ownSlot)
      simp only [State.log, same] at member
      exact invariant.images slot bounded isActive image member address old m byte isImage
        isLast notLost
  · intro slot isActive
    simp only [State.log, extended.txTable] at isActive
    obtain ⟨m, slotTx, lost | ⟨other, isOther, otherHolds, rfl⟩⟩ :=
      invariant.slotOpen slot isActive
    · exact ⟨m, slotTx, Or.inl lost⟩
    · refine ⟨m, slotTx, ?_⟩
      by_cases same : m = n
      · subst same
        obtain rfl : tx = other := Option.some.inj (isTx.symm.trans isOther)
        exact Or.inr ⟨_, Function.update_self m _ s.txs, holds, rfl⟩
      · exact slotOpen_of_isTx ((Function.update_of_ne same _ _).trans isOther) otherHolds
  · exact Mode.noConfusion ((slots.ready isTx).symm.trans mode)

/-! ## Headers -/

theorem FinishedInvariant.win (invariant : FinishedInvariant system s)
    (slots : SlotInvariant system s) {n : Nat} {tx : LiveTransaction} {index : Nat}
    (isTx : s.txs n = some tx) (phase : tx.phase = .trying index (s.pm.txTable index))
    (fresh : ∀ je < system.jend,
      ¬ (s.pm.journal index je).Carries (clearActive tx.impl.txHandle.id)) :
    FinishedInvariant system (s.win n tx index) := by
  have own := invariant.live n tx isTx
  have idle := ((slots.txs n tx isTx).trying index _ phase).2
  have noEntry : validEntries (s.pm.journal index) (clearActive tx.impl.txHandle.id)
      system.jend = 0 := by
    refine validEntries_eq (Nat.zero_le _) (fun je before => ?_) (fresh 0)
    exact absurd before (Nat.not_lt_zero je)
  refine ⟨?_, invariant.bytes, ?_, ?_, fun _ _ mode => ?_⟩
  · refine live_of_local invariant n (· = index)
      (fun m different => Function.update_of_ne different _ _) (fun _ _ => rfl)
      (fun other untouched => ⟨Function.update_of_ne untouched _ _, rfl⟩) ?_ fun other isOther =>
        ?_
    · rintro m other - isOther holds rfl
      exact idle (slots.active_index isOther holds)
    · obtain rfl := Option.some.inj ((Function.update_self n _ s.txs).symm.trans isOther)
      have fits := own.fits
      rw [phase] at fits
      refine ⟨fits, fun _ => Nat.zero_le _, fun _ je _ inExtent => ?_⟩
      simp only [State.win, Pm.apply, Function.update_self, clearActive_or_active]
      exact fresh je inExtent
  · intro slot bounded isActive image member address old m byte isImage isLast notLost
    by_cases same : slot = index
    · subst same
      simp only [State.win, TransactionManager.replayed, Pm.apply, Function.update_self,
        clearActive_or_active, noEntry] at member
      simp [Pmgd.images] at member
    · simp only [State.win, Pm.apply, Function.update_of_ne same] at isActive ⊢
      have sameImages : system.replayed (s.win n tx index).pm slot =
          system.replayed s.pm slot :=
        replayed_congr (Function.update_of_ne same _ _) rfl
      rw [sameImages] at member
      exact invariant.images slot bounded isActive image member address old m byte isImage
        isLast notLost
  · intro slot isActive
    by_cases same : slot = index
    · subst same
      exact ⟨n, Function.update_self slot _ _,
        Or.inr ⟨_, Function.update_self n _ s.txs, trivial, rfl⟩⟩
    · simp only [State.win, Pm.apply, Function.update_of_ne same] at isActive ⊢
      obtain ⟨m, slotTx, lost | ⟨other, isOther, holds, isSlot⟩⟩ :=
        invariant.slotOpen slot isActive
      · exact ⟨m, slotTx, Or.inl lost⟩
      · have different : m ≠ n := by
          rintro rfl
          obtain rfl : tx = other := Option.some.inj (isTx.symm.trans isOther)
          rw [phase] at holds
          exact holds
        exact ⟨m, slotTx, Or.inr ⟨other, (Function.update_of_ne different _ _).trans isOther,
          holds, isSlot⟩⟩
  · exact Mode.noConfusion ((slots.ready isTx).symm.trans mode)

/-- A header loses its `ACTIVE` bit. -/
theorem FinishedInvariant.of_header (invariant : FinishedInvariant system s) {slot : Nat}
    (samePm : next.pm = s.pm.apply (.header slot (clearActive (s.pm.txTable slot))))
    (sameStores : next.lastStore = s.lastStore) (sameSlotTx : next.slotTx = s.slotTx)
    (sameLost : ∀ n, next.outcome n = .lost ↔ s.outcome n = .lost)
    (live : ∀ n tx, next.txs n = some tx → LiveInvariant system next n tx)
    (staysOpen : ∀ n tx, s.txs n = some tx → tx.phase.HoldsSlot →
      tx.impl.txHandle.index ≠ slot → SlotOpen next tx.impl.txHandle.index n)
    (recovering : ∀ left maxTxId, next.mode = .recovering left maxTxId →
      ∀ address old n byte, .inPlace address old ∈ left →
        s.lastStore address = some (n, byte) → s.outcome n ≠ .lost → old = byte) :
    FinishedInvariant system next := by
  have otherHeader : ∀ other, Active (next.pm.txTable other) →
      other ≠ slot ∧ next.pm.txTable other = s.pm.txTable other := by
    intro other isActive
    have different : other ≠ slot := by
      rintro rfl
      simp only [samePm, Pm.apply, Function.update_self] at isActive
      exact not_active_clearActive _ isActive
    refine ⟨different, ?_⟩
    rw [samePm]
    exact Function.update_of_ne different _ _
  refine ⟨live, ?_, ?_, ?_, ?_⟩
  · rw [samePm, sameStores]
    exact fun address n byte isLast notLost =>
      invariant.bytes address n byte isLast (mt (sameLost n).mpr notLost)
  · intro other bounded isActive image member address old n byte isImage isLast notLost
    obtain ⟨-, sameHeader⟩ := otherHeader other isActive
    have sameImages : system.replayed next.pm other = system.replayed s.pm other :=
      replayed_congr sameHeader (by rw [samePm]; rfl)
    rw [sameHeader] at isActive
    rw [sameImages] at member
    rw [sameStores] at isLast
    rw [sameSlotTx]
    exact invariant.images other bounded isActive image member address old n byte isImage isLast
      (mt (sameLost n).mpr notLost)
  · intro other isActive
    obtain ⟨different, sameHeader⟩ := otherHeader other isActive
    rw [sameHeader] at isActive
    rw [sameSlotTx]
    obtain ⟨n, slotTx, lost | ⟨tx, isTx, holds, rfl⟩⟩ := invariant.slotOpen other isActive
    · exact ⟨n, slotTx, Or.inl ((sameLost n).mpr lost)⟩
    · exact ⟨n, slotTx, staysOpen n tx isTx holds different⟩
  · rw [sameStores]
    exact fun left maxTxId mode address old n byte member isLast notLost =>
      recovering left maxTxId mode address old n byte member isLast
        (mt (sameLost n).mpr notLost)

theorem FinishedInvariant.freeTransaction (invariant : FinishedInvariant system s)
    (slots : SlotInvariant system s) {n : Nat} {tx : LiveTransaction}
    (isTx : s.txs n = some tx) (phase : tx.phase = .unlocked) :
    FinishedInvariant system (s.freeTransaction n tx) := by
  have holds : tx.phase.HoldsSlot := by simp [phase, Phase.HoldsSlot]
  refine invariant.of_header rfl rfl rfl (fun m => ?_) ?_ ?_ fun _ _ mode => ?_
  · by_cases same : m = n
    · subst same
      cases isOutcome : s.outcome m <;>
        simp [State.freeTransaction, isOutcome, Outcome.afterFree]
    · simp [State.freeTransaction, same]
  · refine live_of_local invariant n (· = tx.impl.txHandle.index)
      (fun m different => Function.update_of_ne different _ _)
      (fun m different => Function.update_of_ne different _ _)
      (fun index untouched => ⟨Function.update_of_ne untouched _ _, rfl⟩)
      (fun m other different isOther otherHolds =>
        slots.index_ne different isOther isTx otherHolds holds) fun other isOther => ?_
    simp [State.freeTransaction] at isOther
  · intro m other isOther otherHolds otherSlot
    have different : m ≠ n := by
      rintro rfl
      obtain rfl : tx = other := Option.some.inj (isTx.symm.trans isOther)
      exact otherSlot rfl
    exact slotOpen_of_isTx ((Function.update_of_ne different _ _).trans isOther) otherHolds
  · exact Mode.noConfusion ((slots.ready isTx).symm.trans mode)

/-! ## Crash and recovery -/

theorem FinishedInvariant.crash (invariant : FinishedInvariant system s)
    (slots : SlotInvariant system s) : FinishedInvariant system s.crash := by
  refine invariant.of_samePm rfl rfl rfl (fun n lost => ?_) (fun n tx isTx => ?_)
    (fun n tx isTx _ => Or.inl ?_) fun _ _ mode => Mode.noConfusion mode
  · simp [State.crash, lost, Outcome.afterCrash]
  · exact (Option.some_ne_none tx isTx.symm).elim
  · have own := slots.txs n tx isTx
    cases isOutcome : s.outcome n with
    | notBegun => exact absurd isOutcome own.begun
    | finished => exact absurd isOutcome own.unfinished
    | running | committed | lost => simp [State.crash, isOutcome, Outcome.afterCrash]

theorem FinishedInvariant.recover (invariant : FinishedInvariant system s)
    (slots : SlotInvariant system s) (down : s.mode = .down) :
    FinishedInvariant system (s.recover system) := by
  have noneLive := slots.noneLive (by simp [down])
  refine invariant.of_samePm rfl rfl rfl (fun _ lost => lost) (fun n tx isTx => ?_)
    (fun n tx isTx _ => ?_) fun left maxTxId mode address old n byte member isLast notLost => ?_
  · exact (Option.some_ne_none tx (isTx.symm.trans (noneLive n))).elim
  · exact (Option.some_ne_none tx (isTx.symm.trans (noneLive n))).elim
  · obtain ⟨rfl, -⟩ := Mode.recovering.inj mode
    obtain ⟨slot, inRange, isActive, inPlace | header⟩ :=
      system.mem_recoverSlots List.nodup_range member
    · obtain ⟨other, value, isStore, image, isMember, isImage⟩ := inPlace
      obtain ⟨rfl, rfl⟩ := Store.inPlace.inj isStore
      exact invariant.image_eq (List.mem_range.mp inRange) isActive isMember isImage isLast
        notLost (noneLive n)
    · exact Store.noConfusion header

theorem FinishedInvariant.recoverStore (invariant : FinishedInvariant system s)
    (slots : SlotInvariant system s) {store : Store} {left : List Store}
    {maxTxId : BitVec 64} (recovering : s.mode = .recovering (store :: left) maxTxId) :
    FinishedInvariant system (s.recoverStore store left maxTxId) := by
  have noneLive := slots.noneLive (by simp [recovering])
  have live : ∀ n tx, (s.recoverStore store left maxTxId).txs n = some tx →
      LiveInvariant system (s.recoverStore store left maxTxId) n tx :=
    fun n tx isTx => (Option.some_ne_none tx (isTx.symm.trans (noneLive n))).elim
  have later : ∀ others maxTxId',
      (s.recoverStore store left maxTxId).mode = .recovering others maxTxId' →
      ∀ address old n byte, .inPlace address old ∈ others →
        s.lastStore address = some (n, byte) → s.outcome n ≠ .lost → old = byte := by
    intro others maxTxId' mode address old n byte member
    obtain ⟨rfl, -⟩ := Mode.recovering.inj mode
    exact invariant.recovering _ _ recovering address old n byte
      (List.mem_cons_of_mem store member)
  rcases slots.recovering _ _ recovering store List.mem_cons_self with
    ⟨address, old, rfl⟩ | ⟨slot, rfl⟩
  · refine invariant.of_inPlace rfl rfl rfl rfl live (fun n tx isTx _ => ?_)
      (fun n byte => invariant.recovering _ _ recovering address old n byte
        List.mem_cons_self) later
    exact (Option.some_ne_none tx (isTx.symm.trans (noneLive n))).elim
  · refine invariant.of_header rfl rfl rfl (fun _ => Iff.rfl) live (fun n tx isTx _ _ => ?_)
      later
    exact (Option.some_ne_none tx (isTx.symm.trans (noneLive n))).elim

/-- A rollback copies back bytes of the transaction's own entries. -/
theorem FinishedInvariant.rollbackStore (invariant : FinishedInvariant system s)
    (slots : SlotInvariant system s) {n : Nat} {tx : LiveTransaction} {store : Store}
    {left : List Store} (isTx : s.txs n = some tx)
    (phase : tx.phase = .rollingBack (store :: left)) :
    FinishedInvariant system (s.rollbackStore n tx store left) := by
  have holds : tx.phase.HoldsSlot := by simp [phase, Phase.HoldsSlot]
  have own := invariant.live n tx isTx
  have slotOwn := slots.txs n tx isTx
  have held := slotOwn.held holds
  have isLost : s.outcome n = .lost := by simpa [phase, Phase.Fits] using own.fits
  obtain ⟨address, old, rfl, je, valid, isImage⟩ :=
    exists_image_of_mem_replay (slotOwn.rollingBack _ phase List.mem_cons_self)
  have replays : (s.pm.journal tx.impl.txHandle.index je).image ∈
      system.replayed s.pm tx.impl.txHandle.index := by
    have carries := carries_of_lt_validEntries valid
    have idle : ¬ Active tx.impl.txHandle.id := by
      rw [not_active_iff_lt, ← carries, BitVec.toNat_setWidth_of_le (by decide)]
      omega
    refine mem_images.mpr ⟨je, ?_, rfl⟩
    rw [held.header, clearActive_or idle]
    exact lt_validEntries_of_le (own.room holds) valid
  refine invariant.of_inPlace rfl rfl rfl rfl ?_ (fun m other isOther otherHolds => ?_)
    (fun m byte isLast notLost => ?_) fun _ _ mode => ?_
  · refine live_of_local invariant n (fun _ => False)
      (fun m different => Function.update_of_ne different _ _) (fun _ _ => rfl)
      (fun _ _ => ⟨rfl, rfl⟩) (fun _ _ _ _ _ => not_false) fun other isOther => ?_
    obtain rfl := Option.some.inj ((Function.update_self n _ s.txs).symm.trans isOther)
    exact ⟨isLost, fun _ => own.room holds, fun _ => own.beyond holds⟩
  · by_cases same : m = n
    · exact Or.inl (same ▸ isLost)
    · exact slotOpen_of_isTx ((Function.update_of_ne same _ _).trans isOther) otherHolds
  · rcases invariant.images _ held.index_lt (slots.active_index isTx holds) _ replays address
      old m byte isImage isLast notLost with isOwner | same
    · obtain rfl : n = m := Option.some.inj (held.slotTx.symm.trans isOwner)
      exact absurd isLost notLost
    · exact same
  · exact Mode.noConfusion ((slots.ready isTx).symm.trans mode)

/-! ## Runs -/

/-- Every step that leaves no stale image keeps the invariant. -/
theorem finishedInvariant_step {action : Action} (slots : SlotInvariant system s)
    (invariant : FinishedInvariant system s) (noStale : NoStaleImage system s action)
    (stepped : step system s action = some next) : FinishedInvariant system next := by
  cases stepCase_of_step stepped with
  | begin n isReady fresh =>
      have notLive : s.txs n = none := by
        cases isTx : s.txs n with
        | none => rfl
        | some tx => exact absurd fresh (slots.txs n tx isTx).begun
      refine invariant.of_samePm rfl rfl rfl (fun m lost => ?_) ?_
        (fun m tx isTx holds => ?_) fun _ _ mode => Mode.noConfusion (isReady.symm.trans mode)
      · have different : m ≠ n := by
          rintro rfl
          rw [fresh] at lost
          exact Outcome.noConfusion lost
        exact (Function.update_of_ne different _ _).trans lost
      · refine live_of_local invariant n (fun _ => False)
          (fun m different => Function.update_of_ne different _ _)
          (fun m different => Function.update_of_ne different _ _) (fun _ _ => ⟨rfl, rfl⟩)
          (fun _ _ _ _ _ => not_false) fun tx isTx => ?_
        obtain rfl := Option.some.inj ((Function.update_self n _ s.txs).symm.trans isTx)
        exact ⟨by simp [State.begin, Phase.Fits], False.elim, False.elim⟩
      · have different : m ≠ n := by
          rintro rfl
          exact Option.some_ne_none tx (isTx.symm.trans notLive)
        exact slotOpen_of_isTx ((Function.update_of_ne different _ _).trans isTx) holds
  | sawActive n tx index isTx phase =>
      have fits := (invariant.live n tx isTx).fits
      rw [phase] at fits
      exact invariant.of_setPhase isTx (slots.ready isTx) _ s.outcome s.lockOwner
        (fun _ _ => rfl) id fits (by simp [phase, Phase.HoldsSlot])
  | sawIdle n tx index isTx phase bounded idle =>
      have fits := (invariant.live n tx isTx).fits
      rw [phase] at fits
      exact invariant.of_setPhase isTx (slots.ready isTx) _ s.outcome s.lockOwner
        (fun _ _ => rfl) id fits (by simp [phase, Phase.HoldsSlot])
  | sawAll n tx index isTx phase =>
      refine invariant.of_samePm rfl rfl rfl (fun m lost => ?_) ?_
        (fun m other isOther holds => ?_)
        fun _ _ mode => Mode.noConfusion ((slots.ready isTx).symm.trans mode)
      · by_cases same : m = n
        · simp [State.outOfTransactions, same]
        · exact (Function.update_of_ne same _ _).trans lost
      · refine live_of_local invariant n (fun _ => False)
          (fun m different => Function.update_of_ne different _ _)
          (fun m different => Function.update_of_ne different _ _) (fun _ _ => ⟨rfl, rfl⟩)
          (fun _ _ _ _ _ => not_false) fun other isOther => ?_
        simp [State.outOfTransactions] at isOther
      · by_cases same : m = n
        · exact Or.inl (by simp [State.outOfTransactions, same])
        · exact slotOpen_of_isTx ((Function.update_of_ne same _ _).trans isOther) holds
  | win n tx index isTx phase =>
      exact invariant.win slots isTx phase (noStale _ (State.winning_eq isTx phase))
  | lose n tx index prevTxId isTx phase =>
      have fits := (invariant.live n tx isTx).fits
      rw [phase] at fits
      exact invariant.of_setPhase isTx (slots.ready isTx) _ s.outcome s.lockOwner
        (fun _ _ => rfl) id fits (by simp [phase, Phase.HoldsSlot])
  | lock n stripe tx isTx =>
      exact invariant.of_samePm rfl rfl rfl (fun _ lost => lost)
        (fun m other isOther => ⟨(invariant.live m other isOther).fits,
          (invariant.live m other isOther).room, (invariant.live m other isOther).beyond⟩)
        (fun m other isOther holds => slotOpen_of_isTx isOther holds)
        fun _ _ mode => Mode.noConfusion ((slots.ready isTx).symm.trans mode)
  | log n ptr len tx impl stores isTx phase accepted =>
      obtain ⟨extended, -⟩ := extends_of_log accepted
      obtain ⟨fits, rfl, -⟩ := log_eq_ok_iff.mp accepted
      rw [(slots.txs n tx isTx).jend_eq] at fits
      exact invariant.log slots isTx phase extended fits.le _
  | store n address byte tx isTx phase may =>
      exact invariant.store slots isTx phase (noStale tx isTx) byte
  | finalizeCommit n tx isTx phase =>
      have isRunning : s.outcome n = .running := by
        simpa [phase, Phase.Fits] using (invariant.live n tx isTx).fits
      exact invariant.of_setPhase isTx (slots.ready isTx) _ _ s.lockOwner
        (fun m different => Function.update_of_ne different _ _) (by simp [isRunning]) trivial
        (by simp [phase, Phase.HoldsSlot])
  | rollback n tx isTx phase =>
      exact invariant.of_setPhase isTx (slots.ready isTx) _ _ s.lockOwner
        (fun m different => Function.update_of_ne different _ _) (by simp)
        (by simp [Phase.Fits]) (by simp [phase, Phase.HoldsSlot])
  | rollbackStore n tx store left isTx phase => exact invariant.rollbackStore slots isTx phase
  | finalize n tx isTx phase =>
      refine invariant.of_setPhase isTx (slots.ready isTx) _ s.outcome s.lockOwner
        (fun _ _ => rfl) id trivial ?_
      rcases phase with phase | phase <;> simp [phase, Phase.HoldsSlot]
  | unlockAll n tx isTx phase =>
      exact invariant.of_setPhase isTx (slots.ready isTx) _ s.outcome _ (fun _ _ => rfl) id
        trivial (by simp [phase, Phase.HoldsSlot])
  | freeTransaction n tx isTx phase => exact invariant.freeTransaction slots isTx phase
  | crash => exact invariant.crash slots
  | crashInLog n ptr len cut tx impl stores isTx phase accepted =>
      obtain ⟨fits, -, rfl⟩ := log_eq_ok_iff.mp accepted
      obtain ⟨count, bounded, extended⟩ := extends_take_logEntries tx.impl.txHandle s.pm
        (len / jeMaxLen) tx.impl.jcur ptr len cut
      rw [(slots.txs n tx isTx).jend_eq, jeEntries_eq] at fits
      have logged := invariant.log slots isTx phase extended (by omega) tx.logged
      exact logged.crash (slots.log isTx phase extended _ _)
  | recover down => exact invariant.recover slots down
  | recoverStore store left maxTxId recovering =>
      exact invariant.recoverStore slots recovering
  | recovered maxTxId recovering =>
      have noneLive := slots.noneLive (by simp [recovering])
      refine invariant.of_samePm rfl rfl rfl (fun _ lost => lost) (fun n tx isTx => ?_)
        (fun n tx isTx _ => ?_) fun _ _ mode => Mode.noConfusion mode
      · exact (Option.some_ne_none tx (isTx.symm.trans (noneLive n))).elim
      · exact (Option.some_ne_none tx (isTx.symm.trans (noneLive n))).elim

theorem FinishedInvariant.created (mem : Nat → UInt8) :
    FinishedInvariant system (State.created mem) where
  live _ tx isTx := (Option.some_ne_none tx isTx.symm).elim
  bytes _ _ _ isLast := (Option.some_ne_none _ isLast.symm).elim
  images _ _ isActive := by simp [State.created, Active] at isActive
  slotOpen _ isActive := by simp [State.created, Active] at isActive
  recovering _ _ mode := Mode.noConfusion mode

/-- In every run that leaves no stale image, recovery keeps the bytes of finished transactions
whenever the system crashes. -/
theorem keepsFinished_of_noStaleImage {mem : Nat → UInt8} {actions : List Action}
    {last : State}
    (noStale : MeetsAlong (step system) (NoStaleImage system) (State.created mem) actions)
    (ran : run (step system) (State.created mem) actions = some last) :
    KeepsFinished system last := by
  have invariant : SlotInvariant system last ∧ FinishedInvariant system last := by
    refine run_invariant (fun s => SlotInvariant system s ∧ FinishedInvariant system s)
      (fun s action next invariant met stepped => ?_)
      ⟨SlotInvariant.created mem, FinishedInvariant.created mem⟩ noStale ran
    exact ⟨slotInvariant_step invariant.1 stepped,
      finishedInvariant_step invariant.1 invariant.2 met stepped⟩
  exact keepsFinished_of_finishedInvariant invariant.1 invariant.2

/-- Two slots, extents for three entries, and one lock. -/
def twoSlots : System where
  maxTransactions := 2
  jend := 4
  stripeId _ := 0

/-- Transaction 0 logs a byte, stores to it, commits and releases its locks. -/
def committedRun : List Action :=
  [.begin 0, .readHeader 0, .cmpxchg 0, .lock 0 0, .log 0 100 1, .store 0 100 1,
    .finalizeCommit 0, .finalize 0, .unlockAll 0]

/-- Transaction 1 does the same in the other slot, and frees it. -/
def finishedRun : List Action :=
  [.begin 1, .readHeader 1, .readHeader 1, .cmpxchg 1, .lock 1 0, .log 1 100 1,
    .store 1 100 2, .finalizeCommit 1, .finalize 1, .unlockAll 1, .freeTransaction 1]

theorem keepsFinished_committedRun :
    ∃ last, run (step twoSlots) (State.created fun _ => 0)
        (committedRun ++ [.freeTransaction 0]) = some last ∧
      KeepsFinished twoSlots last := by
  have noStale : MeetsAlong (step twoSlots) (NoStaleImage twoSlots) (State.created fun _ => 0)
      (committedRun ++ [.freeTransaction 0]) := by
    decide
  have runs : (run (step twoSlots) (State.created fun _ => 0)
      (committedRun ++ [.freeTransaction 0])).isSome := by
    decide
  obtain ⟨last, ran⟩ := Option.isSome_iff_exists.mp runs
  exact ⟨last, ran, keepsFinished_of_noStaleImage noStale ran⟩

/-! ## Locks released too early -/

/-- The last store to byte 100, what became of its transaction, and the byte after recovery. -/
def byteSummary (s : State) : Option (Nat × UInt8) × Outcome × UInt8 :=
  (s.lastStore 100, s.outcome 1, (twoSlots.recovered s.pm).mem 100)

/-- The second transaction runs before the slot of the first one is freed. -/
theorem recovery_undoes_finished_transaction :
    ∃ last, run (step twoSlots) (State.created fun _ => 0) (committedRun ++ finishedRun) =
        some last ∧
      byteSummary last = (some (1, 2), .finished, 0) ∧ ¬ KeepsFinished twoSlots last := by
  have computed : (run (step twoSlots) (State.created fun _ => 0)
      (committedRun ++ finishedRun)).map byteSummary = some (some (1, 2), .finished, 0) := by
    decide
  obtain ⟨last, ran, summary⟩ := Option.map_eq_some_iff.mp computed
  refine ⟨last, ran, summary, fun keeps => ?_⟩
  simp only [byteSummary, Prod.mk.injEq] at summary
  obtain ⟨isLast, finished, undone⟩ := summary
  have kept := keeps 100 1 2 isLast finished
  rw [undone] at kept
  exact absurd kept (by decide)

end Pmgd
