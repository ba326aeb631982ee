import Mathlib.Algebra.Group.Nat.Defs
import Mathlib.Tactic.Common
import Pmgd.Lib.LabelledRun
import Pmgd.Lib.UndoLog

/-!
# Journal of a transaction

The persistent memory holds the transaction table, one journal extent for each of its slots,
and the graph data.  A read-write transaction logs the old bytes of a range in its extent
before it stores to them, in entries of at most 48 bytes.  `rollback` finds the entries of a
transaction by their id and copies the old bytes back, the last entry first.

The functions that write return the single stores they make, in program order, so that a
crash can be placed between any two of them.  The main result of this file is that an abort
restores the memory of the start of the transaction.
-/

namespace Pmgd

open LabelledRun UndoLog

/-! ## Persistent memory -/

/-- `JE_MAX_LEN`. -/
def jeMaxLen : Nat := 48

/-- A 64-byte journal entry.  `data` gives the byte at an offset; `log_je` sets none behind
the first 48. -/
structure JournalEntry where
  txId : BitVec 56
  len : UInt8
  addr : Nat
  data : Nat → UInt8

/-- The persistent state: the `tx_id` word of each slot of the transaction table, the journal
extent of each slot as an array of entries, and the bytes of the graph. -/
structure Pm where
  txTable : Nat → BitVec 64
  journal : Nat → Nat → JournalEntry
  mem : Nat → UInt8

/-- One store to a field of a journal entry. -/
inductive EntryStore
  | len (value : UInt8)
  | addr (value : Nat)
  | data (offset : Nat) (byte : UInt8)
  | txId (value : BitVec 56)
  deriving DecidableEq, Repr

/-- One store to persistent memory: to an entry, to a byte of the graph, or to the header of
a slot. -/
inductive Store
  | entry (slot je : Nat) (field : EntryStore)
  | inPlace (address : Nat) (byte : UInt8)
  | header (slot : Nat) (txId : BitVec 64)
  deriving DecidableEq, Repr

def EntryStore.apply (entry : JournalEntry) : EntryStore → JournalEntry
  | .len value => { entry with len := value }
  | .addr value => { entry with addr := value }
  | .data offset byte => { entry with data := Function.update entry.data offset byte }
  | .txId value => { entry with txId := value }

theorem EntryStore.txId_apply {field : EntryStore} (notId : ∀ txId, field ≠ .txId txId)
    (entry : JournalEntry) : (field.apply entry).txId = entry.txId := by
  cases field with
  | txId txId => exact absurd rfl (notId txId)
  | len | addr | data => rfl

namespace Pm

/-- Change one journal entry. -/
def modifyEntry (pm : Pm) (slot je : Nat) (change : JournalEntry → JournalEntry) : Pm :=
  { pm with
    journal := Function.update pm.journal slot
      (Function.update (pm.journal slot) je (change (pm.journal slot je))) }

/-- The effect of one store. -/
def apply (pm : Pm) : Store → Pm
  | .entry slot je field => pm.modifyEntry slot je fun entry => field.apply entry
  | .inPlace address byte => { pm with mem := Function.update pm.mem address byte }
  | .header slot txId => { pm with txTable := Function.update pm.txTable slot txId }

/-- The effect of stores that follow each other. -/
def applyAll (pm : Pm) (stores : List Store) : Pm :=
  stores.foldl apply pm

@[simp]
theorem applyAll_nil (pm : Pm) : pm.applyAll [] = pm :=
  rfl

@[simp]
theorem applyAll_cons (pm : Pm) (store : Store) (stores : List Store) :
    pm.applyAll (store :: stores) = (pm.apply store).applyAll stores :=
  rfl

@[simp]
theorem applyAll_append (pm : Pm) (first second : List Store) :
    pm.applyAll (first ++ second) = (pm.applyAll first).applyAll second :=
  List.foldl_append

@[simp]
theorem modifyEntry_mem (pm : Pm) (slot je : Nat) (change : JournalEntry → JournalEntry) :
    (pm.modifyEntry slot je change).mem = pm.mem :=
  rfl

@[simp]
theorem modifyEntry_txTable (pm : Pm) (slot je : Nat)
    (change : JournalEntry → JournalEntry) :
    (pm.modifyEntry slot je change).txTable = pm.txTable :=
  rfl

theorem modifyEntry_journal_self (pm : Pm) (slot je : Nat)
    (change : JournalEntry → JournalEntry) :
    (pm.modifyEntry slot je change).journal slot je = change (pm.journal slot je) := by
  simp [modifyEntry]

theorem modifyEntry_journal_of_je_ne {pm : Pm} {slot je other : Nat}
    {change : JournalEntry → JournalEntry} (different : other ≠ je) :
    (pm.modifyEntry slot je change).journal slot other = pm.journal slot other := by
  simp [modifyEntry, different]

theorem modifyEntry_journal_of_slot_ne {pm : Pm} {slot je other : Nat}
    {change : JournalEntry → JournalEntry} (different : other ≠ slot) :
    (pm.modifyEntry slot je change).journal other = pm.journal other := by
  simp [modifyEntry, different]

@[simp]
theorem modifyEntry_modifyEntry (pm : Pm) (slot je : Nat)
    (first second : JournalEntry → JournalEntry) :
    (pm.modifyEntry slot je first).modifyEntry slot je second =
      pm.modifyEntry slot je fun entry => second (first entry) := by
  simp [modifyEntry]

end Pm

/-! ## Transactions -/

/-- The reasons for which the modelled functions throw. -/
inductive PmgdException
  | readOnly
  | outOfJournalSpace
  | outOfTransactions
  deriving DecidableEq, Repr

/-- `TransactionHandle`; `jbegin` is entry 0 of the extent with the handle's index, and
`jend` the number of the first entry that does not start in it. -/
structure TransactionHandle where
  id : BitVec 64
  index : Nat
  jend : Nat
  deriving DecidableEq, Repr

/-- The volatile state of a transaction that the journal code uses. -/
structure TransactionImpl where
  txHandle : TransactionHandle
  readWrite : Bool
  jcur : Nat
  deriving DecidableEq, Repr

/-- The journal stores a transaction id in a bit-field of 56 bits. -/
def entryTxId (id : BitVec 64) : BitVec 56 :=
  id.setWidth 56

/-- The comparison `je->tx_id == h.id`. -/
def JournalEntry.Carries (entry : JournalEntry) (id : BitVec 64) : Prop :=
  entry.txId.setWidth 64 = id

instance (entry : JournalEntry) (id : BitVec 64) : Decidable (entry.Carries id) :=
  inferInstanceAs (Decidable (_ = _))

/-- The stores of `log_je`: the id is written last. -/
def logJe (handle : TransactionHandle) (mem : Nat → UInt8) (jcur src len : Nat) :
    List Store :=
  [.entry handle.index jcur (.len (UInt8.ofNat len)), .entry handle.index jcur (.addr src)] ++
    (List.range len).map (fun offset =>
      .entry handle.index jcur (.data offset (mem (src + offset)))) ++
    [.entry handle.index jcur (.txId (entryTxId handle.id))]

/-- The loop of `log` with the given number of full entries, and the call for the rest. -/
def logEntries (handle : TransactionHandle) (mem : Nat → UInt8) :
    Nat → Nat → Nat → Nat → List Store
  | 0, jcur, ptr, len => logJe handle mem jcur ptr (len % jeMaxLen)
  | full + 1, jcur, ptr, len =>
      logJe handle mem jcur ptr jeMaxLen ++
        logEntries handle mem full (jcur + 1) (ptr + jeMaxLen) len

/-- The number of entries that `log` uses for a range. -/
def jeEntries (len : Nat) : Nat :=
  (len + jeMaxLen) / jeMaxLen

/-- `TransactionImpl::log`: the transaction after the call, and the stores it makes. -/
def TransactionImpl.log (tx : TransactionImpl) (mem : Nat → UInt8) (ptr len : Nat) :
    Except PmgdException (TransactionImpl × List Store) :=
  if tx.jcur + jeEntries len ≥ tx.txHandle.jend then
    if tx.readWrite then .error .outOfJournalSpace else .error .readOnly
  else
    .ok ({ tx with jcur := tx.jcur + jeEntries len },
      logEntries tx.txHandle mem (jeEntries len - 1) tx.jcur ptr len)

/-! ## Rolling back -/

/-- The loop that looks for the last valid entry, with the number of entries left. -/
def scanFrom (journal : Nat → JournalEntry) (id : BitVec 64) : Nat → Nat → Nat
  | 0, je => je
  | left + 1, je =>
      if (journal je).Carries id then scanFrom journal id left (je + 1) else je

/-- The number of valid entries in front of `jend`. -/
def validEntries (journal : Nat → JournalEntry) (id : BitVec 64) (jend : Nat) : Nat :=
  scanFrom journal id jend 0

/-- `memcpy(je->addr, &je->data[0], je->len)`. -/
def JournalEntry.copyBack (entry : JournalEntry) : List Store :=
  (List.range entry.len.toNat).map fun offset =>
    .inPlace (entry.addr + offset) (entry.data offset)

/-- Copy back the entries in front of an index in the reverse order. -/
def replay (journal : Nat → JournalEntry) : Nat → List Store
  | 0 => []
  | je + 1 => (journal je).copyBack ++ replay journal je

/-- `TransactionImpl::rollback`: the stores it makes. -/
def rollback (pm : Pm) (handle : TransactionHandle) (jend : Nat) : List Store :=
  replay (pm.journal handle.index)
    (validEntries (pm.journal handle.index) handle.id jend)

/-! ## The scan -/

section Scan

theorem scanFrom_spec (journal : Nat → JournalEntry) (id : BitVec 64) (left je : Nat) :
    je ≤ scanFrom journal id left je ∧ scanFrom journal id left je ≤ je + left ∧
      (∀ index, je ≤ index → index < scanFrom journal id left je →
        (journal index).Carries id) ∧
      (scanFrom journal id left je < je + left →
        ¬ (journal (scanFrom journal id left je)).Carries id) := by
  induction left generalizing je with
  | zero =>
      refine ⟨le_rfl, le_rfl, fun index low high => ?_, fun short => ?_⟩
      · simp only [scanFrom] at high
        omega
      · simp [scanFrom] at short
  | succ left ih =>
      by_cases carries : (journal je).Carries id
      · obtain ⟨low, high, valid, stop⟩ := ih (je + 1)
        simp only [scanFrom, if_pos carries]
        refine ⟨by omega, by omega, fun index indexLow indexHigh => ?_, fun short => ?_⟩
        · rcases Nat.eq_or_lt_of_le indexLow with rfl | later
          · exact carries
          · exact valid index later indexHigh
        · exact stop (by omega)
      · simp only [scanFrom, if_neg carries]
        refine ⟨le_rfl, by omega, fun index low high => ?_, fun _ => carries⟩
        omega

variable {journal : Nat → JournalEntry} {id : BitVec 64}

theorem validEntries_le (journal : Nat → JournalEntry) (id : BitVec 64) (jend : Nat) :
    validEntries journal id jend ≤ jend := by
  simpa [validEntries] using (scanFrom_spec journal id jend 0).2.1

theorem carries_of_lt_validEntries {jend je : Nat} (before : je < validEntries journal id jend) :
    (journal je).Carries id :=
  (scanFrom_spec journal id jend 0).2.2.1 je (Nat.zero_le je) before

theorem not_carries_validEntries {jend : Nat} (stops : validEntries journal id jend < jend) :
    ¬ (journal (validEntries journal id jend)).Carries id :=
  (scanFrom_spec journal id jend 0).2.2.2 (by simpa [validEntries] using stops)

/-- The scan finds the first entry that does not carry the id. -/
theorem validEntries_eq {jend count : Nat} (bounded : count ≤ jend)
    (valid : ∀ je < count, (journal je).Carries id)
    (stop : count < jend → ¬ (journal count).Carries id) :
    validEntries journal id jend = count := by
  rcases lt_trichotomy (validEntries journal id jend) count with less | same | more
  · exact absurd (valid _ less) (not_carries_validEntries (by omega))
  · exact same
  · have := validEntries_le journal id jend
    exact absurd (carries_of_lt_validEntries more) (stop (by omega))

end Scan

/-! ## Journal entries as undo images -/

/-- The bytes that an entry restores. -/
def JournalEntry.image (entry : JournalEntry) : Image Nat UInt8 := fun address =>
  if entry.addr ≤ address ∧ address < entry.addr + entry.len.toNat then
    some (entry.data (address - entry.addr))
  else
    none

/-- The images of the first entries of a journal. -/
def images (journal : Nat → JournalEntry) (count : Nat) : List (Image Nat UInt8) :=
  (List.range count).map fun je => (journal je).image

theorem images_succ (journal : Nat → JournalEntry) (count : Nat) :
    images journal (count + 1) = images journal count ++ [(journal count).image] := by
  simp [images, List.range_succ]

theorem mem_images {journal : Nat → JournalEntry} {count : Nat} {image : Image Nat UInt8} :
    image ∈ images journal count ↔ ∃ je < count, (journal je).image = image := by
  simp [images]

theorem covers_images {journal : Nat → JournalEntry} {count address : Nat} :
    Covers (images journal count) address ↔
      ∃ je < count, ((journal je).image address).isSome := by
  simp [Covers, images]

theorem images_congr {left right : Nat → JournalEntry} {count : Nat}
    (same : ∀ je < count, left je = right je) : images left count = images right count := by
  refine List.map_congr_left fun je member => ?_
  rw [same je (List.mem_range.mp member)]

private theorem applyAll_copyRange (pm : Pm) (addr len : Nat) (data : Nat → UInt8) :
    pm.applyAll ((List.range len).map fun offset => .inPlace (addr + offset) (data offset)) =
      { pm with
        mem := fun address =>
          if addr ≤ address ∧ address < addr + len then data (address - addr)
          else pm.mem address } := by
  induction len with
  | zero =>
      have outside : ∀ address, ¬ (addr ≤ address ∧ address < addr + 0) := by omega
      simp only [List.range_zero, List.map_nil, Pm.applyAll_nil, if_neg (outside _)]
  | succ len ih =>
      rw [List.range_succ, List.map_append, Pm.applyAll_append, ih]
      simp only [List.map_cons, List.map_nil, Pm.applyAll_cons, Pm.applyAll_nil, Pm.apply]
      congr 1
      funext address
      by_cases last : address = addr + len
      · subst last
        rw [Function.update_self, if_pos (by omega), Nat.add_sub_cancel_left]
      · rw [Function.update_of_ne last]
        have sameRange : (addr ≤ address ∧ address < addr + len) ↔
            (addr ≤ address ∧ address < addr + (len + 1)) := by
          omega
        simp only [sameRange]

theorem applyAll_copyBack (pm : Pm) (entry : JournalEntry) :
    pm.applyAll entry.copyBack = { pm with mem := restore entry.image pm.mem } := by
  rw [JournalEntry.copyBack, applyAll_copyRange]
  congr 1
  funext address
  simp only [restore, JournalEntry.image]
  split_ifs <;> rfl

/-- Replaying entries is undoing their images. -/
theorem applyAll_replay (journal : Nat → JournalEntry) (count : Nat) (pm : Pm) :
    pm.applyAll (replay journal count) =
      { pm with mem := undo (images journal count) pm.mem } := by
  induction count generalizing pm with
  | zero => rfl
  | succ count ih =>
      rw [replay, Pm.applyAll_append, applyAll_copyBack, ih, images_succ, undo_append,
        undo_cons, undo_nil]

/-- A store of a replay copies a byte of some image. -/
theorem exists_image_of_mem_replay {journal : Nat → JournalEntry} {count : Nat} {store : Store}
    (member : store ∈ replay journal count) :
    ∃ address byte, store = .inPlace address byte ∧
      ∃ je < count, (journal je).image address = some byte := by
  induction count with
  | zero => simp [replay] at member
  | succ count ih =>
      rcases List.mem_append.mp member with last | earlier
      · obtain ⟨offset, inEntry, rfl⟩ := List.mem_map.mp last
        refine ⟨_, _, rfl, count, by omega, ?_⟩
        have := List.mem_range.mp inEntry
        rw [JournalEntry.image, if_pos (by omega), Nat.add_sub_cancel_left]
      · obtain ⟨address, byte, isStore, je, before, image⟩ := ih earlier
        exact ⟨address, byte, isStore, je, by omega, image⟩

/-- Some of the stores of a replay only change bytes that the whole replay restores. -/
theorem applyAll_of_subset_replay {journal : Nat → JournalEntry} {count : Nat} (pm : Pm)
    {stores : List Store} (isReplay : stores ⊆ replay journal count) :
    ∃ mem, pm.applyAll stores = { pm with mem } ∧
      ∀ address, ¬ Covers (images journal count) address → mem address = pm.mem address := by
  induction stores using List.reverseRecOn with
  | nil => exact ⟨pm.mem, rfl, fun _ _ => rfl⟩
  | append_singleton stores store ih =>
      obtain ⟨mem, isMem, agrees⟩ := ih fun other member =>
        isReplay (List.mem_append_left _ member)
      have member : store ∈ replay journal count := isReplay (by simp)
      obtain ⟨address, byte, rfl, je, before, image⟩ := exists_image_of_mem_replay member
      refine ⟨Function.update mem address byte, ?_, fun other uncovered => ?_⟩
      · rw [Pm.applyAll_append, isMem]
        rfl
      · have different : other ≠ address := by
          rintro rfl
          exact uncovered (covers_images.mpr ⟨je, before, by simp [image]⟩)
        rw [Function.update_of_ne different, agrees other uncovered]

/-! ## What the stores of a log call do -/

/-- Between two states only entries of a handle's extent from `jcur` on have changed: the
first `count` of them were written by the handle's transaction and hold bytes of the current
memory, and the others kept their ids. -/
structure Extends (handle : TransactionHandle) (jcur count : Nat) (before after : Pm) :
    Prop where
  mem : after.mem = before.mem
  txTable : after.txTable = before.txTable
  otherSlots : ∀ slot, slot ≠ handle.index → after.journal slot = before.journal slot
  earlier : ∀ je < jcur, after.journal handle.index je = before.journal handle.index je
  written : ∀ je, jcur ≤ je → je < jcur + count →
    (after.journal handle.index je).txId = entryTxId handle.id
  snapshot : ∀ je, jcur ≤ je → je < jcur + count → ∀ address byte,
    (after.journal handle.index je).image address = some byte → byte = before.mem address
  later : ∀ je, jcur + count ≤ je →
    (after.journal handle.index je).txId = (before.journal handle.index je).txId

namespace Extends

variable {handle : TransactionHandle} {jcur count more : Nat} {before middle after : Pm}

theorem refl (handle : TransactionHandle) (jcur : Nat) (pm : Pm) :
    Extends handle jcur 0 pm pm where
  mem := rfl
  txTable := rfl
  otherSlots _ _ := rfl
  earlier _ _ := rfl
  written je low high := by omega
  snapshot je low high := by omega
  later _ _ := rfl

theorem trans (first : Extends handle jcur count before middle)
    (second : Extends handle (jcur + count) more middle after) :
    Extends handle jcur (count + more) before after where
  mem := second.mem.trans first.mem
  txTable := second.txTable.trans first.txTable
  otherSlots slot other :=
    (second.otherSlots slot other).trans (first.otherSlots slot other)
  earlier je inFront :=
    (second.earlier je (by omega)).trans (first.earlier je inFront)
  written je low high := by
    rcases Nat.lt_or_ge je (jcur + count) with old | new
    · rw [second.earlier je old]
      exact first.written je low old
    · exact second.written je new (by omega)
  snapshot je low high address byte image := by
    rcases Nat.lt_or_ge je (jcur + count) with old | new
    · rw [second.earlier je old] at image
      exact first.snapshot je low old address byte image
    · have := second.snapshot je new (by omega) address byte image
      rwa [first.mem] at this
  later je behind :=
    (second.later je (by omega)).trans (first.later je (by omega))

end Extends

section LogJe

variable (handle : TransactionHandle) (jcur src len : Nat)

/-- The entry that `log_je` leaves behind. -/
def loggedEntry (mem : Nat → UInt8) (old : JournalEntry) : JournalEntry where
  txId := entryTxId handle.id
  len := UInt8.ofNat len
  addr := src
  data offset := if offset < len then mem (src + offset) else old.data offset

private theorem applyAll_copyIn (pm : Pm) (mem : Nat → UInt8) :
    pm.applyAll ((List.range len).map fun offset =>
        .entry handle.index jcur (.data offset (mem (src + offset)))) =
      pm.modifyEntry handle.index jcur fun entry =>
        { entry with
          data := fun offset => if offset < len then mem (src + offset)
            else entry.data offset } := by
  induction len with
  | zero => simp [Pm.modifyEntry]
  | succ len ih =>
      rw [List.range_succ, List.map_append, Pm.applyAll_append, ih]
      simp only [List.map_cons, List.map_nil, Pm.applyAll_cons, Pm.applyAll_nil, Pm.apply,
        EntryStore.apply, Pm.modifyEntry_modifyEntry]
      congr 1
      funext entry
      congr 1
      funext offset
      by_cases last : offset = len
      · subst last
        rw [Function.update_self, if_pos (by omega)]
      · rw [Function.update_of_ne last]
        have sameRange : offset < len ↔ offset < len + 1 := by omega
        simp only [sameRange]

theorem applyAll_logJe (pm : Pm) :
    pm.applyAll (logJe handle pm.mem jcur src len) =
      pm.modifyEntry handle.index jcur (loggedEntry handle src len pm.mem) := by
  rw [logJe, Pm.applyAll_append, Pm.applyAll_append]
  simp only [Pm.applyAll_cons, Pm.applyAll_nil, Pm.apply, EntryStore.apply,
    applyAll_copyIn, Pm.modifyEntry_modifyEntry]
  rfl

variable {len}

theorem loggedEntry_image (small : len ≤ jeMaxLen) (mem : Nat → UInt8) (old : JournalEntry)
    (address : Nat) :
    (loggedEntry handle src len mem old).image address =
      if src ≤ address ∧ address < src + len then some (mem address) else none := by
  have sameLen : (UInt8.ofNat len).toNat = len := by
    simp only [jeMaxLen] at small
    rw [UInt8.toNat_ofNat']
    omega
  simp only [JournalEntry.image, loggedEntry, sameLen]
  by_cases inside : src ≤ address ∧ address < src + len
  · rw [if_pos inside, if_pos inside, if_pos (by omega), Nat.add_sub_cancel' inside.1]
  · rw [if_neg inside, if_neg inside]

/-- A whole `log_je` adds one entry. -/
theorem extends_logJe (small : len ≤ jeMaxLen) (pm : Pm) :
    Extends handle jcur 1 pm (pm.applyAll (logJe handle pm.mem jcur src len)) := by
  rw [applyAll_logJe]
  refine ⟨rfl, rfl, fun slot other => Pm.modifyEntry_journal_of_slot_ne other,
    fun je inFront => Pm.modifyEntry_journal_of_je_ne (by omega), ?_, ?_, ?_⟩
  · intro je low high
    obtain rfl : je = jcur := by omega
    rw [Pm.modifyEntry_journal_self, loggedEntry]
  · intro je low high address byte image
    obtain rfl : je = jcur := by omega
    rw [Pm.modifyEntry_journal_self, loggedEntry_image handle src small] at image
    split_ifs at image
    exact (Option.some.inj image).symm
  · intro je behind
    rw [Pm.modifyEntry_journal_of_je_ne (by omega)]

/-- A store to a field of an entry other than its id. -/
def Store.FillsEntry (slot je : Nat) (store : Store) : Prop :=
  ∃ field, store = .entry slot je field ∧ ∀ txId, field ≠ .txId txId

private theorem extends_apply_of_fillsEntry (pm : Pm) {store : Store}
    (fills : store.FillsEntry handle.index jcur) :
    Extends handle jcur 0 pm (pm.apply store) := by
  obtain ⟨field, rfl, notId⟩ := fills
  rw [Pm.apply]
  refine ⟨rfl, rfl, fun slot other => Pm.modifyEntry_journal_of_slot_ne other,
    fun je inFront => Pm.modifyEntry_journal_of_je_ne (by omega), by omega, by omega, ?_⟩
  intro je behind
  by_cases last : je = jcur
  · subst last
    rw [Pm.modifyEntry_journal_self, EntryStore.txId_apply notId]
  · rw [Pm.modifyEntry_journal_of_je_ne last]

private theorem extends_applyAll_of_fillsEntry {pm : Pm} {stores : List Store}
    (fills : ∀ store ∈ stores, store.FillsEntry handle.index jcur) :
    Extends handle jcur 0 pm (pm.applyAll stores) := by
  induction stores generalizing pm with
  | nil => exact Extends.refl handle jcur pm
  | cons store stores ih =>
      have first := extends_apply_of_fillsEntry handle jcur pm (fills store (by simp))
      exact first.trans (ih fun later member => fills later (by simp [member]))

/-- A `log_je` that is cut short adds no entry. -/
theorem extends_take_logJe {pm : Pm} {mem : Nat → UInt8} {cut : Nat}
    (short : cut < (logJe handle mem jcur src len).length) :
    Extends handle jcur 0 pm (pm.applyAll ((logJe handle mem jcur src len).take cut)) := by
  refine extends_applyAll_of_fillsEntry handle jcur fun store member => ?_
  rw [logJe, List.take_append_of_le_length (by
    rw [logJe, List.length_append, List.length_singleton] at short
    omega)] at member
  rcases List.mem_append.mp (List.mem_of_mem_take member) with first | copied
  · rcases List.mem_cons.mp first with rfl | first
    · exact ⟨_, rfl, by simp⟩
    · obtain rfl := List.mem_singleton.mp first
      exact ⟨_, rfl, by simp⟩
  · obtain ⟨offset, -, rfl⟩ := List.mem_map.mp copied
    exact ⟨_, rfl, by simp⟩

end LogJe

/-- A log call only writes to entries of its extent, and its own id as the id. -/
theorem exists_field_of_mem_logEntries {handle : TransactionHandle} {mem : Nat → UInt8}
    {full jcur ptr len : Nat} {store : Store}
    (member : store ∈ logEntries handle mem full jcur ptr len) :
    ∃ je field, store = .entry handle.index je field ∧
      ∀ txId, field = .txId txId → txId = entryTxId handle.id := by
  have ofLogJe : ∀ jcur ptr len, store ∈ logJe handle mem jcur ptr len →
      ∃ je field, store = .entry handle.index je field ∧
        ∀ txId, field = .txId txId → txId = entryTxId handle.id := by
    intro jcur ptr len member
    simp only [logJe, List.mem_append, List.mem_cons, List.not_mem_nil, or_false,
      List.mem_map] at member
    rcases member with ((rfl | rfl) | ⟨offset, -, rfl⟩) | rfl
    · exact ⟨jcur, _, rfl, by simp⟩
    · exact ⟨jcur, _, rfl, by simp⟩
    · exact ⟨jcur, _, rfl, by simp⟩
    · exact ⟨jcur, _, rfl, fun txId isId => (EntryStore.txId.inj isId).symm⟩
  induction full generalizing jcur ptr with
  | zero => exact ofLogJe jcur ptr _ member
  | succ full ih =>
      rcases List.mem_append.mp member with first | rest
      · exact ofLogJe jcur ptr _ first
      · exact ih rest

/-- A log call that is cut short after any number of stores adds some entries. -/
theorem extends_take_logEntries (handle : TransactionHandle) (pm : Pm)
    (full jcur ptr len cut : Nat) :
    ∃ count, count ≤ full + 1 ∧ Extends handle jcur count pm
      (pm.applyAll ((logEntries handle pm.mem full jcur ptr len).take cut)) := by
  induction full generalizing pm jcur ptr cut with
  | zero =>
      have small : len % jeMaxLen ≤ jeMaxLen := (Nat.mod_lt _ (by decide)).le
      rcases Nat.lt_or_ge cut (logJe handle pm.mem jcur ptr (len % jeMaxLen)).length with
        short | whole
      · exact ⟨0, by omega, extends_take_logJe handle jcur ptr short⟩
      · refine ⟨1, by omega, ?_⟩
        rw [logEntries, List.take_of_length_le whole]
        exact extends_logJe handle jcur ptr small pm
  | succ full ih =>
      rw [logEntries]
      rcases Nat.lt_or_ge cut (logJe handle pm.mem jcur ptr jeMaxLen).length with
        short | whole
      · refine ⟨0, by omega, ?_⟩
        rw [List.take_append_of_le_length short.le]
        exact extends_take_logJe handle jcur ptr short
      · have first := extends_logJe handle jcur ptr (le_refl jeMaxLen) pm
        obtain ⟨count, bounded, rest⟩ :=
          ih (pm.applyAll (logJe handle pm.mem jcur ptr jeMaxLen)) (jcur + 1)
            (ptr + jeMaxLen) (cut - (logJe handle pm.mem jcur ptr jeMaxLen).length)
        refine ⟨1 + count, by omega, ?_⟩
        rw [List.take_append, List.take_of_length_le whole, Pm.applyAll_append]
        rw [first.mem] at rest
        exact first.trans rest

/-- A whole log call adds all its entries, and they cover the range. -/
theorem extends_logEntries (handle : TransactionHandle) (pm : Pm) (full jcur ptr len : Nat) :
    Extends handle jcur (full + 1) pm
        (pm.applyAll (logEntries handle pm.mem full jcur ptr len)) ∧
      ∀ address, ptr ≤ address → address < ptr + full * jeMaxLen + len % jeMaxLen →
        ∃ je, jcur ≤ je ∧ je < jcur + (full + 1) ∧
          (((pm.applyAll (logEntries handle pm.mem full jcur ptr len)).journal
            handle.index je).image address).isSome := by
  induction full generalizing pm jcur ptr with
  | zero =>
      have small : len % jeMaxLen ≤ jeMaxLen := (Nat.mod_lt _ (by decide)).le
      refine ⟨extends_logJe handle jcur ptr small pm, fun address low high => ?_⟩
      refine ⟨jcur, le_rfl, by omega, ?_⟩
      rw [logEntries, applyAll_logJe, Pm.modifyEntry_journal_self,
        loggedEntry_image handle ptr small, if_pos (by omega), Option.isSome_some]
  | succ full ih =>
      have first := extends_logJe handle jcur ptr (le_refl jeMaxLen) pm
      obtain ⟨rest, covers⟩ :=
        ih (pm.applyAll (logJe handle pm.mem jcur ptr jeMaxLen)) (jcur + 1) (ptr + jeMaxLen)
      rw [logEntries, Pm.applyAll_append]
      rw [first.mem] at rest covers
      refine ⟨?_, fun address low high => ?_⟩
      · rw [Nat.add_comm (full + 1) 1]
        exact first.trans rest
      · rcases Nat.lt_or_ge address (ptr + jeMaxLen) with inFirst | inRest
        · refine ⟨jcur, le_rfl, by omega, ?_⟩
          rw [rest.earlier jcur (by omega), applyAll_logJe, Pm.modifyEntry_journal_self,
            loggedEntry_image handle ptr le_rfl, if_pos ⟨low, inFirst⟩, Option.isSome_some]
        · have bound : address < ptr + jeMaxLen + full * jeMaxLen + len % jeMaxLen := by
            rw [Nat.add_mul] at high
            omega
          obtain ⟨je, jeLow, jeHigh, image⟩ := covers address inRest bound
          exact ⟨je, by omega, by omega, image⟩

theorem jeEntries_eq (len : Nat) : jeEntries len = len / jeMaxLen + 1 := by
  rw [jeEntries, Nat.add_div_right len (by decide)]

theorem log_eq_ok_iff {tx next : TransactionImpl} {mem : Nat → UInt8} {ptr len : Nat}
    {stores : List Store} :
    tx.log mem ptr len = .ok (next, stores) ↔
      tx.jcur + jeEntries len < tx.txHandle.jend ∧
        next = { tx with jcur := tx.jcur + jeEntries len } ∧
        stores = logEntries tx.txHandle mem (len / jeMaxLen) tx.jcur ptr len := by
  rw [TransactionImpl.log, jeEntries_eq, Nat.add_sub_cancel]
  split_ifs with full readWrite
  · simp
    omega
  · simp
    omega
  · simp only [Except.ok.injEq, Prod.mk.injEq, @eq_comm _ next, @eq_comm _ stores]
    constructor
    · rintro ⟨sameTx, sameStores⟩
      exact ⟨by omega, sameTx, sameStores⟩
    · rintro ⟨-, sameTx, sameStores⟩
      exact ⟨sameTx, sameStores⟩

/-- An accepted log call adds its entries, which cover the range. -/
theorem extends_of_log {tx next : TransactionImpl} {pm : Pm} {ptr len : Nat}
    {stores : List Store} (accepted : tx.log pm.mem ptr len = .ok (next, stores)) :
    Extends tx.txHandle tx.jcur (jeEntries len) pm (pm.applyAll stores) ∧
      ∀ address, ptr ≤ address → address < ptr + len →
        ∃ je, tx.jcur ≤ je ∧ je < tx.jcur + jeEntries len ∧
          (((pm.applyAll stores).journal tx.txHandle.index je).image address).isSome := by
  obtain ⟨-, -, rfl⟩ := log_eq_ok_iff.mp accepted
  rw [jeEntries_eq]
  obtain ⟨extended, covers⟩ :=
    extends_logEntries tx.txHandle pm (len / jeMaxLen) tx.jcur ptr len
  refine ⟨extended, fun address low high => covers address low ?_⟩
  have := Nat.div_add_mod' len jeMaxLen
  omega

/-! ## The calls of a transaction -/

/-- What a running transaction does to persistent memory: it logs a range, or it stores one
byte of graph data (a larger store is several of these). -/
inductive Call
  | log (ptr len : Nat)
  | store (address : Nat) (byte : UInt8)
  deriving DecidableEq, Repr

/-- A running transaction, the persistent memory, and the stores made so far. -/
structure Execution where
  tx : TransactionImpl
  pm : Pm
  stores : List Store

/-- Make one call; `none` is an exception. -/
def Execution.call (execution : Execution) : Call → Option Execution
  | .log ptr len =>
      match execution.tx.log execution.pm.mem ptr len with
      | .error _ => none
      | .ok (tx, stores) =>
          some ⟨tx, execution.pm.applyAll stores, execution.stores ++ stores⟩
  | .store address byte =>
      some ⟨execution.tx, execution.pm.apply (.inPlace address byte),
        execution.stores ++ [.inPlace address byte]⟩

/-- The stores of the calls only touch bytes that are in `logged` or in the range of an
earlier log call. -/
def StoresLoggedAfter (logged : Nat → Prop) : List Call → Prop
  | [] => True
  | .log ptr len :: calls =>
      StoresLoggedAfter (fun address => logged address ∨ (ptr ≤ address ∧ address < ptr + len))
        calls
  | .store address _ :: calls => logged address ∧ StoresLoggedAfter logged calls

/-- Every byte is logged before it is stored to. -/
def StoresLogged (calls : List Call) : Prop :=
  StoresLoggedAfter (fun _ => False) calls

/-- What holds of a transaction between its calls: the entries in front of `_jcur` carry its
id, cover what was logged, and undo to the memory of its start; the entries behind it have
the ids they had. -/
structure Undoable (start : Pm) (logged : Nat → Prop) (tx : TransactionImpl) (pm : Pm) :
    Prop where
  own : ∀ je < tx.jcur, (pm.journal tx.txHandle.index je).txId = entryTxId tx.txHandle.id
  covers : ∀ address, logged address →
    Covers (images (pm.journal tx.txHandle.index) tx.jcur) address
  undoes : undo (images (pm.journal tx.txHandle.index) tx.jcur) pm.mem = start.mem
  leftOver : ∀ je, tx.jcur ≤ je →
    (pm.journal tx.txHandle.index je).txId = (start.journal tx.txHandle.index je).txId

namespace Undoable

variable {start pm after : Pm} {logged : Nat → Prop} {tx : TransactionImpl}

theorem initially (begins : tx.jcur = 0) : Undoable start (fun _ => False) tx start where
  own je before := by omega
  covers _ none := none.elim
  undoes := by rw [begins]; rfl
  leftOver _ _ := rfl

theorem images_extends {count : Nat}
    (extended : Extends tx.txHandle tx.jcur count pm after) :
    images (after.journal tx.txHandle.index) tx.jcur =
      images (pm.journal tx.txHandle.index) tx.jcur :=
  images_congr extended.earlier

/-- New entries do not change what the log undoes to. -/
theorem undo_images_extends {count : Nat}
    (extended : Extends tx.txHandle tx.jcur count pm after) {added : Nat}
    (bounded : added ≤ count) :
    undo (images (after.journal tx.txHandle.index) (tx.jcur + added)) after.mem =
      undo (images (pm.journal tx.txHandle.index) tx.jcur) pm.mem := by
  induction added with
  | zero => rw [Nat.add_zero, images_extends extended, extended.mem]
  | succ added ih =>
      rw [← Nat.add_assoc, images_succ, undo_concat_of_snapshot]
      · exact ih (by omega)
      · intro address byte image
        rw [extended.mem]
        exact extended.snapshot _ (by omega) (by omega) address byte image

/-- The entries of a log call that may have been cut short extend the log. -/
theorem extend {count : Nat} (undoable : Undoable start logged tx pm)
    (extended : Extends tx.txHandle tx.jcur count pm after) :
    Undoable start logged { tx with jcur := tx.jcur + count } after where
  own je inFront := by
    rcases Nat.lt_or_ge je tx.jcur with old | new
    · rw [extended.earlier je old]
      exact undoable.own je old
    · exact extended.written je new inFront
  covers address isLogged := by
    obtain ⟨je, before, image⟩ := covers_images.mp (undoable.covers address isLogged)
    refine covers_images.mpr ⟨je, Nat.lt_add_right count before, ?_⟩
    rwa [extended.earlier je before]
  undoes := (undo_images_extends extended le_rfl).trans undoable.undoes
  leftOver je behind := (extended.later je behind).trans
    (undoable.leftOver je (by simp only at behind; omega))

theorem log {next : TransactionImpl} {ptr len : Nat} {stores : List Store}
    (undoable : Undoable start logged tx pm)
    (accepted : tx.log pm.mem ptr len = .ok (next, stores)) :
    Undoable start (fun address => logged address ∨ (ptr ≤ address ∧ address < ptr + len))
      next (pm.applyAll stores) := by
  obtain ⟨extended, covers⟩ := extends_of_log accepted
  obtain ⟨-, rfl, -⟩ := log_eq_ok_iff.mp accepted
  have kept := undoable.extend extended
  refine ⟨kept.own, ?_, kept.undoes, kept.leftOver⟩
  rintro address (before | ⟨low, high⟩)
  · exact kept.covers address before
  · obtain ⟨je, -, inFront, image⟩ := covers address low high
    exact covers_images.mpr ⟨je, inFront, image⟩

theorem store {address : Nat} (undoable : Undoable start logged tx pm)
    (isLogged : logged address) (byte : UInt8) :
    Undoable start logged tx (pm.apply (.inPlace address byte)) where
  own := undoable.own
  covers := undoable.covers
  undoes := (undo_update_of_covers (undoable.covers address isLogged) pm.mem byte).trans
    undoable.undoes
  leftOver := undoable.leftOver

end Undoable

theorem call_txHandle {execution next : Execution} {call : Call}
    (called : execution.call call = some next) :
    next.tx.txHandle = execution.tx.txHandle := by
  cases call with
  | log ptr len =>
      simp only [Execution.call] at called
      cases result : execution.tx.log execution.pm.mem ptr len with
      | error _ => simp [result] at called
      | ok pair =>
          obtain ⟨tx, stores⟩ := pair
          obtain ⟨-, rfl, -⟩ := log_eq_ok_iff.mp result
          simp only [result, Option.some.injEq] at called
          rw [← called]
  | store address byte =>
      obtain rfl := Option.some.inj called
      rfl

/-- One call keeps the log undoable. -/
theorem undoable_call {start : Pm} {logged : Nat → Prop} {execution next : Execution}
    {call : Call} {calls : List Call}
    (undoable : Undoable start logged execution.tx execution.pm)
    (covered : StoresLoggedAfter logged (call :: calls))
    (called : execution.call call = some next) :
    ∃ logged', Undoable start logged' next.tx next.pm ∧ StoresLoggedAfter logged' calls := by
  cases call with
  | log ptr len =>
      simp only [Execution.call] at called
      cases result : execution.tx.log execution.pm.mem ptr len with
      | error _ => simp [result] at called
      | ok pair =>
          obtain ⟨tx, stores⟩ := pair
          simp only [result, Option.some.injEq] at called
          subst called
          exact ⟨_, undoable.log result, covered⟩
  | store address byte =>
      obtain rfl := Option.some.inj called
      exact ⟨logged, undoable.store covered.1 byte, covered.2⟩

/-- The log stays undoable over any sequence of calls. -/
theorem undoable_run {start : Pm} {logged : Nat → Prop} (execution : Execution)
    {last : Execution} {calls : List Call} (undoable : Undoable start logged execution.tx execution.pm)
    (covered : StoresLoggedAfter logged calls)
    (ran : run Execution.call execution calls = some last) :
    last.tx.txHandle = execution.tx.txHandle ∧
      ∃ logged', Undoable start logged' last.tx last.pm := by
  induction calls generalizing logged execution with
  | nil =>
      obtain rfl := Option.some.inj ran
      exact ⟨rfl, logged, undoable⟩
  | cons call calls ih =>
      rw [run_cons, Option.bind_eq_some_iff] at ran
      obtain ⟨next, called, rest⟩ := ran
      obtain ⟨logged', kept, later⟩ := undoable_call undoable covered called
      obtain ⟨sameHandle, result⟩ := ih next kept later rest
      exact ⟨sameHandle.trans (call_txHandle called), result⟩

/-- An id that fits the bit-field is the one its entries carry. -/
theorem setWidth_entryTxId {id : BitVec 64} (small : id.toNat < 2 ^ 56) :
    (entryTxId id).setWidth 64 = id := by
  apply BitVec.eq_of_toNat_eq
  simp only [entryTxId, BitVec.toNat_setWidth]
  omega

/-- The scan of an abort ends at `_jcur`, whatever lies behind it. -/
theorem validEntries_of_undoable {start pm : Pm} {logged : Nat → Prop} {tx : TransactionImpl}
    (undoable : Undoable start logged tx pm) (small : tx.txHandle.id.toNat < 2 ^ 56) :
    validEntries (pm.journal tx.txHandle.index) tx.txHandle.id tx.jcur = tx.jcur := by
  refine validEntries_eq le_rfl (fun je before => ?_) fun short => absurd short (lt_irrefl _)
  rw [JournalEntry.Carries, undoable.own je before, setWidth_entryTxId small]

/-- An abort restores every byte: when all stores of a transaction touch bytes that it has
logged before, `rollback` leaves the memory of the start of the transaction, whatever the
journal extent held then. -/
theorem rollback_restores_memory {tx : TransactionImpl} {pm : Pm} {calls : List Call}
    {last : Execution} (begins : tx.jcur = 0) (small : tx.txHandle.id.toNat < 2 ^ 56)
    (logged : StoresLogged calls)
    (accepted : run Execution.call ⟨tx, pm, []⟩ calls = some last) :
    (last.pm.applyAll (rollback last.pm last.tx.txHandle last.tx.jcur)).mem = pm.mem := by
  obtain ⟨sameHandle, logged', undoable⟩ :=
    undoable_run ⟨tx, pm, []⟩ (Undoable.initially begins) logged accepted
  rw [← sameHandle] at small
  rw [rollback, validEntries_of_undoable undoable small, applyAll_replay]
  exact undoable.undoes

/-- A transaction at its start, on an extent full of entries of transaction 3. -/
def startedTransaction : Execution where
  tx := ⟨⟨7, 0, 8⟩, true, 0⟩
  pm := ⟨fun _ => 0, fun _ _ => ⟨3, 1, 100, fun _ => 9⟩, fun _ => 1⟩
  stores := []

/-- Overlapping ranges, one of them longer than an entry, and two stores to one byte. -/
def overlappingCalls : List Call :=
  [.log 100 50, .store 120 5, .log 110 20, .store 120 6, .store 149 4]

theorem rollback_restores_memory_of_overlappingCalls :
    ∃ last, run Execution.call startedTransaction overlappingCalls = some last ∧
      last.pm.mem 120 = 6 ∧
      (last.pm.applyAll (rollback last.pm last.tx.txHandle last.tx.jcur)).mem =
        startedTransaction.pm.mem := by
  have logged : StoresLogged overlappingCalls := by
    simp [StoresLogged, StoresLoggedAfter, overlappingCalls]
  have small : startedTransaction.tx.txHandle.id.toNat < 2 ^ 56 := by decide
  exact ⟨_, rfl, rfl, rollback_restores_memory rfl small logged rfl⟩

end Pmgd
