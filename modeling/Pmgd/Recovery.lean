import Mathlib.Data.BitVec
import Pmgd.Journal

/-!
# Crash recovery

A slot of the transaction table holds the id of its last transaction, with the high bit
`ACTIVE` set while the transaction runs.  After a crash `TransactionManager::recover` rolls
back every active slot and then clears its bit.

Recovery can itself crash at any store: whatever part of it has been done, doing all of it
again gives what one complete recovery gives.  From this and the undo log of a transaction
follows crash atomicity, for the ids that the 56-bit field of a journal entry can hold.
-/

namespace Pmgd

open LabelledRun UndoLog

/-! ## Table headers -/

namespace TransactionHdr

/-- Transaction is in use when high bit of Transaction ID is set. -/
def active : BitVec 64 := BitVec.twoPow 64 63

def Active (txId : BitVec 64) : Prop :=
  txId &&& active ≠ 0

instance (txId : BitVec 64) : Decidable (Active txId) :=
  inferInstanceAs (Decidable (_ ≠ _))

/-- `tx_id & ~ACTIVE`. -/
def clearActive (txId : BitVec 64) : BitVec 64 :=
  txId &&& ~~~active

theorem active_iff_getLsbD (txId : BitVec 64) : Active txId ↔ txId.getLsbD 63 = true := by
  constructor
  · intro isActive
    by_contra low
    refine isActive (BitVec.eq_of_getLsbD_eq fun index bounded => ?_)
    simp only [active, BitVec.getLsbD_and, BitVec.getLsbD_twoPow]
    by_cases last : 63 = index
    · subst last
      simpa using low
    · simp [last]
  · intro high isZero
    have bit := congrArg (fun word : BitVec 64 => word.getLsbD 63) isZero
    simp only [active, BitVec.getLsbD_and, high, BitVec.getLsbD_twoPow] at bit
    simp at bit

theorem not_active_iff_lt (txId : BitVec 64) : ¬ Active txId ↔ txId.toNat < 2 ^ 63 := by
  have msb := BitVec.msb_eq_true_iff_two_mul_ge (x := txId)
  rw [active_iff_getLsbD, ← BitVec.msb_eq_getLsbD_last, msb]
  omega

theorem active_or (txId : BitVec 64) : Active (txId ||| active) := by
  simp [active_iff_getLsbD, active]

theorem not_active_clearActive (txId : BitVec 64) : ¬ Active (clearActive txId) := by
  simp [Active, clearActive, BitVec.and_assoc]

theorem clearActive_clearActive (txId : BitVec 64) :
    clearActive (clearActive txId) = clearActive txId := by
  rw [clearActive, clearActive, BitVec.and_assoc, BitVec.and_self]

theorem clearActive_of_not_active {txId : BitVec 64} (idle : ¬ Active txId) :
    clearActive txId = txId := by
  rw [active_iff_getLsbD] at idle
  refine BitVec.eq_of_getLsbD_eq fun index bounded => ?_
  simp only [clearActive, active, BitVec.getLsbD_and, BitVec.getLsbD_not,
    BitVec.getLsbD_twoPow]
  by_cases last : 63 = index
  · subst last
    simpa using idle
  · simp [last, bounded]

theorem clearActive_or_active (txId : BitVec 64) :
    clearActive (txId ||| active) = clearActive txId := by
  refine BitVec.eq_of_getLsbD_eq fun index bounded => ?_
  simp only [clearActive, BitVec.getLsbD_and, BitVec.getLsbD_or, BitVec.getLsbD_not]
  cases active.getLsbD index <;> simp

theorem clearActive_or {txId : BitVec 64} (idle : ¬ Active txId) :
    clearActive (txId ||| active) = txId := by
  rw [clearActive_or_active, clearActive_of_not_active idle]

end TransactionHdr

open TransactionHdr

/-! ## `TransactionManager::recover` -/

/-- The sizes that a `TransactionManager` derives from its configuration: the number of
slots, and the number of entries that start in an extent. -/
structure TransactionManager where
  maxTransactions : Nat
  jend : Nat
  deriving DecidableEq, Repr

namespace TransactionManager

/-- The body of the loop: roll back an active slot, then clear its bit. -/
def recoverSlot (manager : TransactionManager) (pm : Pm) (slot : Nat) : List Store :=
  if Active (pm.txTable slot) then
    let txId := clearActive (pm.txTable slot)
    rollback pm ⟨txId, slot, manager.jend⟩ manager.jend ++ [.header slot txId]
  else
    []

def recoverSlots (manager : TransactionManager) : Pm → List Nat → List Store
  | _, [] => []
  | pm, slot :: slots =>
      let stores := manager.recoverSlot pm slot
      stores ++ manager.recoverSlots (pm.applyAll stores) slots

/-- The stores of `recover`. -/
def recoverStores (manager : TransactionManager) (pm : Pm) : List Store :=
  manager.recoverSlots pm (List.range manager.maxTransactions)

/-- The memory after `recover`. -/
def recovered (manager : TransactionManager) (pm : Pm) : Pm :=
  pm.applyAll (manager.recoverStores pm)

/-- The highest id in the table, from which `recover` sets `_cur_tx_id`. -/
def maxTxId (manager : TransactionManager) (pm : Pm) : BitVec 64 :=
  (List.range manager.maxTransactions).foldl
    (fun maxTxId slot =>
      let txId := clearActive (pm.txTable slot)
      if txId > maxTxId then txId else maxTxId) 0

variable (manager : TransactionManager)

/-! ## What one slot's recovery does -/

theorem recoverSlot_of_active {pm : Pm} {slot : Nat} (isActive : Active (pm.txTable slot)) :
    manager.recoverSlot pm slot =
      rollback pm ⟨clearActive (pm.txTable slot), slot, manager.jend⟩ manager.jend ++
        [.header slot (clearActive (pm.txTable slot))] := by
  rw [recoverSlot, if_pos isActive]

theorem recoverSlot_of_not_active {pm : Pm} {slot : Nat}
    (idle : ¬ Active (pm.txTable slot)) : manager.recoverSlot pm slot = [] := by
  rw [recoverSlot, if_neg idle]

/-- The entries that the recovery of an active slot replays. -/
def replayed (pm : Pm) (slot : Nat) : List (Image Nat UInt8) :=
  images (pm.journal slot)
    (validEntries (pm.journal slot) (clearActive (pm.txTable slot)) manager.jend)

theorem applyAll_recoverSlot_of_active {pm : Pm} {slot : Nat}
    (isActive : Active (pm.txTable slot)) :
    pm.applyAll (manager.recoverSlot pm slot) =
      { pm with
        mem := undo (manager.replayed pm slot) pm.mem
        txTable := Function.update pm.txTable slot (clearActive (pm.txTable slot)) } := by
  rw [recoverSlot_of_active manager isActive, Pm.applyAll_append, rollback, applyAll_replay]
  rfl

theorem journal_applyAll_recoverSlot (pm : Pm) (slot : Nat) :
    (pm.applyAll (manager.recoverSlot pm slot)).journal = pm.journal := by
  by_cases isActive : Active (pm.txTable slot)
  · rw [applyAll_recoverSlot_of_active manager isActive]
  · rw [recoverSlot_of_not_active manager isActive, Pm.applyAll_nil]

theorem txTable_applyAll_recoverSlot_of_ne (pm : Pm) {slot other : Nat}
    (different : other ≠ slot) :
    (pm.applyAll (manager.recoverSlot pm slot)).txTable other = pm.txTable other := by
  by_cases isActive : Active (pm.txTable slot)
  · rw [applyAll_recoverSlot_of_active manager isActive]
    exact Function.update_of_ne different _ _
  · rw [recoverSlot_of_not_active manager isActive, Pm.applyAll_nil]

theorem not_active_applyAll_recoverSlot (pm : Pm) (slot : Nat) :
    ¬ Active ((pm.applyAll (manager.recoverSlot pm slot)).txTable slot) := by
  by_cases isActive : Active (pm.txTable slot)
  · rw [applyAll_recoverSlot_of_active manager isActive]
    simpa using not_active_clearActive (pm.txTable slot)
  · rwa [recoverSlot_of_not_active manager isActive, Pm.applyAll_nil]

/-- A rollback that was cut short makes no difference for the recovery of its slot. -/
theorem applyAll_recoverSlot_take {pm : Pm} {slot cut : Nat}
    (isActive : Active (pm.txTable slot))
    (short : cut < (manager.recoverSlot pm slot).length) :
    (pm.applyAll ((manager.recoverSlot pm slot).take cut)).applyAll
        (manager.recoverSlot (pm.applyAll ((manager.recoverSlot pm slot).take cut)) slot) =
      pm.applyAll (manager.recoverSlot pm slot) := by
  have inRollback : (manager.recoverSlot pm slot).take cut =
      (rollback pm ⟨clearActive (pm.txTable slot), slot, manager.jend⟩ manager.jend).take
        cut := by
    rw [recoverSlot_of_active manager isActive] at short ⊢
    rw [List.length_append, List.length_singleton] at short
    exact List.take_append_of_le_length (by omega)
  obtain ⟨mem, isMem, agrees⟩ := applyAll_of_subset_replay pm (List.take_subset cut
    (rollback pm ⟨clearActive (pm.txTable slot), slot, manager.jend⟩ manager.jend))
  rw [inRollback, isMem, applyAll_recoverSlot_of_active manager isActive,
    applyAll_recoverSlot_of_active manager (by exact isActive)]
  congr 1
  funext address
  exact undo_congr (agrees address)

/-! ## The loop over the slots -/

theorem recoverSlots_cons (pm : Pm) (slot : Nat) (slots : List Nat) :
    manager.recoverSlots pm (slot :: slots) =
      manager.recoverSlot pm slot ++
        manager.recoverSlots (pm.applyAll (manager.recoverSlot pm slot)) slots :=
  rfl

/-- Recovery copies back bytes of replayed entries of active slots, and clears their bits. -/
theorem mem_recoverSlots {pm : Pm} {slots : List Nat} (distinct : slots.Nodup) {store : Store}
    (member : store ∈ manager.recoverSlots pm slots) :
    ∃ slot ∈ slots, Active (pm.txTable slot) ∧
      ((∃ address byte, store = .inPlace address byte ∧
          ∃ image ∈ manager.replayed pm slot, image address = some byte) ∨
        store = .header slot (clearActive (pm.txTable slot))) := by
  induction slots generalizing pm with
  | nil => simp [recoverSlots] at member
  | cons slot slots ih =>
      obtain ⟨absent, distinctRest⟩ := List.nodup_cons.mp distinct
      rw [recoverSlots_cons] at member
      rcases List.mem_append.mp member with first | rest
      · by_cases isActive : Active (pm.txTable slot)
        · refine ⟨slot, by simp, isActive, ?_⟩
          rw [recoverSlot_of_active manager isActive] at first
          rcases List.mem_append.mp first with rolledBack | cleared
          · obtain ⟨address, byte, isStore, je, before, image⟩ :=
              exists_image_of_mem_replay rolledBack
            exact Or.inl ⟨address, byte, isStore, _, mem_images.mpr ⟨je, before, rfl⟩, image⟩
          · exact Or.inr (List.mem_singleton.mp cleared)
        · simp [recoverSlot_of_not_active manager isActive] at first
      · obtain ⟨other, inSlots, isActive, effect⟩ := ih distinctRest rest
        have different : other ≠ slot := by
          rintro rfl
          exact absent inSlots
        rw [txTable_applyAll_recoverSlot_of_ne manager pm different] at isActive effect
        rw [replayed, journal_applyAll_recoverSlot,
          txTable_applyAll_recoverSlot_of_ne manager pm different, ← replayed] at effect
        exact ⟨other, List.mem_cons_of_mem slot inSlots, isActive, effect⟩

private theorem txTable_applyAll_of_noHeader {pm : Pm} {stores : List Store} {slot : Nat}
    (noHeader : ∀ store ∈ stores, ∀ txId, store ≠ Store.header slot txId) :
    (pm.applyAll stores).txTable slot = pm.txTable slot := by
  induction stores generalizing pm with
  | nil => rfl
  | cons store stores ih =>
      rw [Pm.applyAll_cons, ih fun later member => noHeader later (by simp [member])]
      cases store with
      | entry other je field => rfl
      | inPlace address byte => rfl
      | header other txId =>
          have different : slot ≠ other := by
            rintro rfl
            exact noHeader _ (by simp) txId rfl
          exact Function.update_of_ne different txId pm.txTable

theorem txTable_take_recoverSlots {pm : Pm} {slots : List Nat} (distinct : slots.Nodup)
    {slot : Nat} (absent : slot ∉ slots) (cut : Nat) :
    (pm.applyAll ((manager.recoverSlots pm slots).take cut)).txTable slot =
      pm.txTable slot := by
  refine txTable_applyAll_of_noHeader fun store member txId isHeader => ?_
  obtain ⟨other, inSlots, -, inPlace | header⟩ :=
    manager.mem_recoverSlots distinct (List.mem_of_mem_take member)
  · obtain ⟨address, byte, isInPlace, -⟩ := inPlace
    exact Store.noConfusion (isInPlace.symm.trans isHeader)
  · obtain ⟨rfl, -⟩ := Store.header.inj (header.symm.trans isHeader)
    exact absent inSlots

/-- Recovery of distinct slots can be restarted after any number of its stores. -/
theorem applyAll_recoverSlots_take {slots : List Nat} (distinct : slots.Nodup) (pm : Pm)
    (cut : Nat) :
    (pm.applyAll ((manager.recoverSlots pm slots).take cut)).applyAll
        (manager.recoverSlots (pm.applyAll ((manager.recoverSlots pm slots).take cut)) slots) =
      pm.applyAll (manager.recoverSlots pm slots) := by
  induction slots generalizing pm cut with
  | nil => simp [recoverSlots]
  | cons slot slots ih =>
      obtain ⟨absent, distinctRest⟩ := List.nodup_cons.mp distinct
      rcases Nat.lt_or_ge cut (manager.recoverSlot pm slot).length with short | whole
      · have isActive : Active (pm.txTable slot) := by
          by_contra idle
          simp [recoverSlot_of_not_active manager idle] at short
        have again := manager.applyAll_recoverSlot_take isActive short
        rw [recoverSlots_cons, List.take_append_of_le_length short.le, recoverSlots_cons,
          Pm.applyAll_append, Pm.applyAll_append, again]
      · have idle : ¬ Active ((pm.applyAll ((manager.recoverSlots pm (slot :: slots)).take
            cut)).txTable slot) := by
          rw [recoverSlots_cons, List.take_append, List.take_of_length_le whole,
            Pm.applyAll_append,
            txTable_take_recoverSlots manager distinctRest absent]
          exact not_active_applyAll_recoverSlot manager pm slot
        rw [recoverSlots_cons manager (pm.applyAll _), recoverSlot_of_not_active manager idle,
          List.nil_append, Pm.applyAll_nil, recoverSlots_cons, List.take_append,
          List.take_of_length_le whole, Pm.applyAll_append, Pm.applyAll_append]
        exact ih distinctRest (pm.applyAll (manager.recoverSlot pm slot)) _

/-- A recovery that crashes and starts again ends like one that does not crash. -/
theorem recovered_take (pm : Pm) (cut : Nat) :
    manager.recovered (pm.applyAll ((manager.recoverStores pm).take cut)) =
      manager.recovered pm :=
  manager.applyAll_recoverSlots_take List.nodup_range pm cut

theorem recovered_recovered (pm : Pm) :
    manager.recovered (manager.recovered pm) = manager.recovered pm := by
  have whole := manager.recovered_take pm (manager.recoverStores pm).length
  rwa [List.take_length] at whole

/-- The states in which recovery can end, when it crashes any number of times on the way. -/
inductive RecoversTo (manager : TransactionManager) : Pm → Pm → Prop
  | completes (crashed : Pm) : RecoversTo manager crashed (manager.recovered crashed)
  | crashesAgain (crashed : Pm) (cut : Nat) (final : Pm)
      (later : RecoversTo manager
        (crashed.applyAll ((manager.recoverStores crashed).take cut)) final) :
      RecoversTo manager crashed final

theorem eq_recovered_of_recoversTo {crashed final : Pm}
    (recovers : manager.RecoversTo crashed final) : final = manager.recovered crashed := by
  induction recovers with
  | completes crashed => rfl
  | crashesAgain crashed cut final later ih => rw [ih, recovered_take]

/-! ## Bytes that at most one slot restores -/

/-- The memory of a slot's own recovery. -/
theorem mem_applyAll_recoverSlot (pm : Pm) (slot : Nat) :
    (pm.applyAll (manager.recoverSlot pm slot)).mem =
      if Active (pm.txTable slot) then undo (manager.replayed pm slot) pm.mem else pm.mem := by
  split_ifs with isActive
  · rw [applyAll_recoverSlot_of_active manager isActive]
  · rw [recoverSlot_of_not_active manager isActive, Pm.applyAll_nil]

/-- A slot's own recovery sets a byte from the journal, the header and the byte itself. -/
theorem mem_recoverSlot_congr {left right : Pm} {slot address : Nat}
    (sameJournal : left.journal slot = right.journal slot)
    (sameHeader : left.txTable slot = right.txTable slot)
    (sameByte : left.mem address = right.mem address) :
    (left.applyAll (manager.recoverSlot left slot)).mem address =
      (right.applyAll (manager.recoverSlot right slot)).mem address := by
  rw [mem_applyAll_recoverSlot, mem_applyAll_recoverSlot, replayed, replayed, sameJournal,
    sameHeader]
  split_ifs with isActive
  · exact undo_congr fun _ => sameByte
  · exact sameByte

/-- No slot of the list restores the address. -/
def LeftAlone (pm : Pm) (slots : List Nat) (address : Nat) : Prop :=
  ∀ slot ∈ slots, Active (pm.txTable slot) → ¬ Covers (manager.replayed pm slot) address

theorem leftAlone_of_recoverSlot {pm : Pm} {slot : Nat} {slots : List Nat} {address : Nat}
    (absent : slot ∉ slots) :
    manager.LeftAlone (pm.applyAll (manager.recoverSlot pm slot)) slots address ↔
      manager.LeftAlone pm slots address := by
  have sameSlot : ∀ other ∈ slots, other ≠ slot := by
    rintro other member rfl
    exact absent member
  simp only [LeftAlone, replayed, journal_applyAll_recoverSlot]
  refine forall₂_congr fun other member => ?_
  rw [txTable_applyAll_recoverSlot_of_ne manager pm (sameSlot other member)]

theorem mem_recoverSlots_of_leftAlone {pm : Pm} {slots : List Nat} {address : Nat}
    (distinct : slots.Nodup) (leftAlone : manager.LeftAlone pm slots address) :
    (pm.applyAll (manager.recoverSlots pm slots)).mem address = pm.mem address := by
  induction slots generalizing pm with
  | nil => rfl
  | cons slot slots ih =>
      obtain ⟨absent, distinctRest⟩ := List.nodup_cons.mp distinct
      have rest : manager.LeftAlone (pm.applyAll (manager.recoverSlot pm slot)) slots address :=
        (manager.leftAlone_of_recoverSlot absent).mpr fun other member =>
          leftAlone other (List.mem_cons_of_mem slot member)
      rw [recoverSlots_cons, Pm.applyAll_append, ih distinctRest rest,
        mem_applyAll_recoverSlot]
      split_ifs with isActive
      · exact undo_of_not_covers pm.mem (leftAlone slot (by simp) isActive)
      · rfl

/-- When the other slots leave a byte alone, recovery sets it as its one slot says. -/
theorem mem_recoverSlots_of_others {pm : Pm} {slots : List Nat} {slot address : Nat}
    (distinct : slots.Nodup) (member : slot ∈ slots)
    (others : manager.LeftAlone pm (slots.filter (· ≠ slot)) address) :
    (pm.applyAll (manager.recoverSlots pm slots)).mem address =
      (pm.applyAll (manager.recoverSlot pm slot)).mem address := by
  induction slots generalizing pm with
  | nil => simp at member
  | cons head slots ih =>
      obtain ⟨absent, distinctRest⟩ := List.nodup_cons.mp distinct
      rw [recoverSlots_cons, Pm.applyAll_append]
      by_cases isHead : head = slot
      · subst isHead
        have onlyOthers : (head :: slots).filter (· ≠ head) = slots := by
          rw [List.filter_cons_of_neg (by simp)]
          refine List.filter_eq_self.mpr fun other inRest => ?_
          have different : other ≠ head := by
            rintro rfl
            exact absent inRest
          simpa using different
        rw [onlyOthers] at others
        exact manager.mem_recoverSlots_of_leftAlone distinctRest
          ((manager.leftAlone_of_recoverSlot absent).mpr others)
      · rw [List.filter_cons_of_pos (by simpa using isHead)] at others
        have inRest : slot ∈ slots := by
          rcases List.mem_cons.mp member with same | inRest
          · exact absurd same.symm isHead
          · exact inRest
        have othersRest : manager.LeftAlone (pm.applyAll (manager.recoverSlot pm head))
            (slots.filter (· ≠ slot)) address := by
          have absentRest : head ∉ slots.filter (· ≠ slot) := fun inFilter =>
            absent (List.mem_of_mem_filter inFilter)
          exact (manager.leftAlone_of_recoverSlot absentRest).mpr fun other inFilter =>
            others other (List.mem_cons_of_mem head inFilter)
        have headKeeps : (pm.applyAll (manager.recoverSlot pm head)).mem address =
            pm.mem address := by
          rw [mem_applyAll_recoverSlot]
          split_ifs with isActive
          · exact undo_of_not_covers pm.mem (others head (by simp) isActive)
          · rfl
        rw [ih distinctRest inRest othersRest]
        exact manager.mem_recoverSlot_congr
          (congrFun (manager.journal_applyAll_recoverSlot pm head) slot)
          (manager.txTable_applyAll_recoverSlot_of_ne pm (Ne.symm isHead)) headKeeps

/-- The bytes that only one slot can restore, after `recover`. -/
theorem recovered_mem {pm : Pm} {slot address : Nat} (bounded : slot < manager.maxTransactions)
    (others : ∀ other < manager.maxTransactions, other ≠ slot → Active (pm.txTable other) →
      ¬ Covers (manager.replayed pm other) address) :
    (manager.recovered pm).mem address =
      (pm.applyAll (manager.recoverSlot pm slot)).mem address := by
  refine manager.mem_recoverSlots_of_others List.nodup_range (List.mem_range.mpr bounded) ?_
  intro other member
  obtain ⟨inRange, different⟩ := List.mem_filter.mp member
  exact others other (List.mem_range.mp inRange) (by simpa using different)

end TransactionManager

end Pmgd
