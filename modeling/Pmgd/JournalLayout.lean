import Pmgd.Recovery

/-!
# The layout of the journal

`GraphConfig` aligns the sizes that the user chose for the transaction table and the journal, and
the constructor of `TransactionManager` divides the journal into one extent for each slot of the
table.  The quotients need not be multiples of the size of an entry.
-/

namespace Pmgd

namespace JournalLayout

/-! ## `GraphConfig` -/

/-- `SIZE_4KB`. -/
def size4KB : BitVec 64 := 4096

/-- `SIZE_2MB`. -/
def size2MB : BitVec 64 := 2097152

/-- `SIZE_1GB`. -/
def size1GB : BitVec 64 := 1073741824

/-- `DEFAULT_TRANSACTION_TABLE_SIZE`. -/
def defaultTransactionTableSize : BitVec 64 := size4KB

/-- `DEFAULT_JOURNAL_SIZE`. -/
def defaultJournalSize : BitVec 64 := 64 * size2MB

/-- `VALUE`, for the field of the user's configuration or 0. -/
def value (field default : BitVec 64) : BitVec 64 :=
  if field ≠ 0 then field else default

def getAlignment (size : BitVec 64) : BitVec 64 :=
  if size ≥ size1GB then size1GB
  else if size ≥ size2MB then size2MB
  else size4KB

def align (addr alignment : BitVec 64) : BitVec 64 :=
  (addr + alignment - 1) &&& ~~~(alignment - 1)

/-- `info.len` in `init_region_info`. -/
def regionLen (size : BitVec 64) : BitVec 64 :=
  align size (getAlignment size)

/-- `transaction_info.len`. -/
def transactionInfoLen (field : BitVec 64) : BitVec 64 :=
  regionLen (value field defaultTransactionTableSize)

/-- `journal_info.len`. -/
def journalInfoLen (field : BitVec 64) : BitVec 64 :=
  regionLen (value field defaultJournalSize)

/-! ## The constructor of `TransactionManager` -/

/-- `_max_transactions`, `_extent_size` and `_max_extents`; the counts are of type `int`. -/
structure Layout where
  maxTransactions : BitVec 32
  extentSize : BitVec 64
  maxExtents : BitVec 32
  deriving DecidableEq, Repr

/-- How the constructor can end. -/
inductive Construction
  | dividesByZero
  | invalidConfig
  | layout (layout : Layout)
  deriving DecidableEq, Repr

/-- The number of headers in a table, converted to `int`. -/
def maxTransactions (transactionTableSize : BitVec 64) : BitVec 32 :=
  (transactionTableSize / 64).setWidth 32

/-- `TransactionManager::TransactionManager`, up to the use of the table. -/
def construct (transactionTableSize journalSize : BitVec 64) : Construction :=
  -- the `int` is converted to `size_t` for the division
  let divisor := (maxTransactions transactionTableSize).signExtend 64
  if divisor = 0 then .dividesByZero
  else
    let extentSize := journalSize / divisor
    if extentSize = 0 then .dividesByZero
    else
      let maxExtents := (journalSize / extentSize).setWidth 32
      if maxExtents.slt (maxTransactions transactionTableSize) then .invalidConfig
      else .layout ⟨maxTransactions transactionTableSize, extentSize, maxExtents⟩

namespace Layout

/-- The indexes for which the loops over the table run. -/
def IsSlot (layout : Layout) (index : Nat) : Prop :=
  index < layout.maxTransactions.toInt

instance (layout : Layout) (index : Nat) : Decidable (layout.IsSlot index) :=
  inferInstanceAs (Decidable (_ < _))

/-- `tx_jbegin`, as an offset in the journal. -/
def txJbegin (layout : Layout) (index : Nat) : Nat :=
  index * layout.extentSize.toNat

/-- `tx_jend`. -/
def txJend (layout : Layout) (index : Nat) : Nat :=
  (index + 1) * layout.extentSize.toNat

/-- The number of entries that start in an extent: `_jcur` and `je` are compared with `jend` by
the address of the entry. -/
def startingEntries (layout : Layout) : Nat :=
  (layout.extentSize.toNat + 63) / 64

/-- The manager of which the journal code knows. -/
def manager (layout : Layout) : TransactionManager where
  maxTransactions := layout.maxTransactions.toInt.toNat
  jend := layout.startingEntries

/-- The 64 bytes of an entry lie in the extent of the slot. -/
def Contains (layout : Layout) (index je : Nat) : Prop :=
  layout.txJbegin index + 64 * je + 64 ≤ layout.txJend index

end Layout

/-- The entries whose `tx_id` the scan reads: the valid ones, and the one that stops it. -/
def Examines (journal : Nat → JournalEntry) (id : BitVec 64) (jend je : Nat) : Prop :=
  je < jend ∧ je ≤ validEntries journal id jend

/-- The extents divide the journal, and what the journal code writes and reads for a slot lies in
the extent of the slot. -/
structure Layout.Sound (layout : Layout) (journalSize : BitVec 64) : Prop where
  inside : ∀ index, layout.IsSlot index → layout.txJend index ≤ journalSize.toNat
  disjoint : ∀ index other, layout.IsSlot index → layout.IsSlot other → index ≠ other →
    layout.txJend index ≤ layout.txJbegin other ∨ layout.txJend other ≤ layout.txJbegin index
  logged : ∀ (tx after : TransactionImpl) (mem : Nat → UInt8) (ptr len : Nat)
    (stores : List Store), layout.IsSlot tx.txHandle.index →
    tx.txHandle.jend = layout.manager.jend → tx.log mem ptr len = .ok (after, stores) →
    ∀ slot je field, Store.entry slot je field ∈ stores →
      slot = tx.txHandle.index ∧ layout.Contains slot je
  examined : ∀ (journal : Nat → JournalEntry) (id : BitVec 64) (index je : Nat),
    layout.IsSlot index → Examines journal id layout.manager.jend je →
    layout.Contains index je

/-- What holds of an accepted configuration. -/
def Construction.Sound (construction : Construction) (journalSize : BitVec 64) : Prop :=
  match construction with
  | .dividesByZero => False
  | .invalidConfig => True
  | .layout made => made.Sound journalSize

/-! ## Extents -/

variable {layout : Layout} {index je : Nat}

theorem Layout.contains_iff :
    layout.Contains index je ↔ 64 * (je + 1) ≤ layout.extentSize.toNat := by
  unfold Layout.Contains Layout.txJend Layout.txJbegin
  rw [Nat.add_one_mul index]
  omega

theorem Layout.txJend_le_txJbegin {other : Nat} (before : index < other) :
    layout.txJend index ≤ layout.txJbegin other :=
  Nat.mul_le_mul_right _ before

/-- An entry behind which another one starts lies in its extent. -/
theorem Layout.contains_of_lt (notLast : je + 1 < layout.startingEntries) :
    layout.Contains index je := by
  unfold Layout.startingEntries at notLast
  rw [Layout.contains_iff]
  omega

/-- All entries that start in an extent lie in it if the extent has room for whole entries. -/
theorem Layout.contains_of_dvd (whole : 64 ∣ layout.extentSize.toNat)
    (starts : je < layout.startingEntries) : layout.Contains index je := by
  unfold Layout.startingEntries at starts
  rw [Layout.contains_iff]
  omega

/-! ## What is logged and what is examined -/

/-- The stores of a log call go to as many entries as it was counted to need. -/
theorem je_le_of_mem_logEntries {handle : TransactionHandle} {mem : Nat → UInt8}
    {full jcur ptr len slot : Nat} {field : EntryStore}
    (member : Store.entry slot je field ∈ logEntries handle mem full jcur ptr len) :
    slot = handle.index ∧ je ≤ jcur + full := by
  have ofLogJe : ∀ jcur ptr len, Store.entry slot je field ∈ logJe handle mem jcur ptr len →
      slot = handle.index ∧ je = jcur := by
    intro jcur ptr len member
    simp only [logJe, List.mem_append, List.mem_cons, List.not_mem_nil, or_false, List.mem_map,
      Store.entry.injEq] at member
    rcases member with ((⟨isSlot, isJe, -⟩ | ⟨isSlot, isJe, -⟩) | ⟨_, -, isSlot, isJe, -⟩) |
      ⟨isSlot, isJe, -⟩
    · exact ⟨isSlot, isJe⟩
    · exact ⟨isSlot, isJe⟩
    · exact ⟨isSlot.symm, isJe.symm⟩
    · exact ⟨isSlot, isJe⟩
  induction full generalizing jcur ptr with
  | zero =>
      obtain ⟨isSlot, rfl⟩ := ofLogJe jcur ptr _ member
      exact ⟨isSlot, le_rfl⟩
  | succ full ih =>
      rcases List.mem_append.mp member with first | rest
      · obtain ⟨isSlot, rfl⟩ := ofLogJe jcur ptr _ first
        exact ⟨isSlot, Nat.le_add_right _ _⟩
      · obtain ⟨isSlot, bounded⟩ := ih rest
        exact ⟨isSlot, by omega⟩

theorem Layout.contains_of_log {tx after : TransactionImpl} {mem : Nat → UInt8} {ptr len : Nat}
    {stores : List Store} (isJend : tx.txHandle.jend = layout.manager.jend)
    (isLog : tx.log mem ptr len = .ok (after, stores)) {slot : Nat} {field : EntryStore}
    (member : Store.entry slot je field ∈ stores) :
    slot = tx.txHandle.index ∧ layout.Contains slot je := by
  unfold TransactionImpl.log at isLog
  by_cases full : tx.jcur + jeEntries len ≥ tx.txHandle.jend
  · rw [if_pos full] at isLog
    cases readWrite : tx.readWrite <;> simp [readWrite] at isLog
  · rw [if_neg full] at isLog
    obtain ⟨-, rfl⟩ := Prod.mk.inj (Except.ok.inj isLog)
    obtain ⟨isSlot, bounded⟩ := je_le_of_mem_logEntries member
    have positive : 0 < jeEntries len := by
      unfold jeEntries jeMaxLen
      omega
    have isStarting : layout.manager.jend = layout.startingEntries := rfl
    exact ⟨isSlot, Layout.contains_of_lt (by omega)⟩

/-- An entry of a transaction with the id 0. -/
def zeroEntry : JournalEntry :=
  ⟨0, 0, 0, fun _ => 0⟩

/-- A journal full of entries with the id of its slot lets the scan reach the last entry. -/
theorem examines_last {jend : Nat} (starts : je < jend) :
    Examines (fun _ => zeroEntry) 0 jend je := by
  refine ⟨starts, ?_⟩
  have isFull : validEntries (fun _ => zeroEntry) 0 jend = jend :=
    validEntries_eq le_rfl (fun _ _ => rfl) fun less => absurd less (lt_irrefl _)
  rw [isFull]
  exact starts.le

/-! ## The exact condition -/

/-- The extents of an accepted layout fit into the journal. -/
theorem txJend_le {journalSize : BitVec 64}
    (isExtent : layout.extentSize = journalSize / layout.maxTransactions.signExtend 64)
    (isSlot : layout.IsSlot index) : layout.txJend index ≤ journalSize.toNat := by
  have isInt := BitVec.toInt_signExtend_of_le (x := layout.maxTransactions) (by omega : 32 ≤ 64)
  have asNat := BitVec.toInt_eq_toNat_cond (layout.maxTransactions.signExtend 64)
  have bound := (layout.maxTransactions.signExtend 64).isLt
  have isLess : (index : Int) < (layout.maxTransactions.signExtend 64).toInt := by
    rw [isInt]
    exact isSlot
  have isAtMost : index + 1 ≤ (layout.maxTransactions.signExtend 64).toNat := by
    split at asNat <;> omega
  calc layout.txJend index
      ≤ (layout.maxTransactions.signExtend 64).toNat * layout.extentSize.toNat :=
        Nat.mul_le_mul_right _ isAtMost
    _ ≤ journalSize.toNat := by
        rw [isExtent, BitVec.toNat_udiv]
        exact Nat.mul_div_le _ _

/-- `_extent_size` for these sizes of the two regions. -/
def extentSize (transactionTableSize journalSize : BitVec 64) : BitVec 64 :=
  journalSize / (maxTransactions transactionTableSize).signExtend 64

/-- The configuration is rejected, as `_max_extents` has overflown. -/
def Rejected (transactionTableSize journalSize : BitVec 64) : Prop :=
  ((journalSize / extentSize transactionTableSize journalSize).setWidth 32).slt
    (maxTransactions transactionTableSize) = true

instance (transactionTableSize journalSize : BitVec 64) :
    Decidable (Rejected transactionTableSize journalSize) :=
  inferInstanceAs (Decidable (_ = true))

/-- There is a slot, the journal has a byte for each of them, and an extent has room for whole
entries. -/
structure Divides (transactionTableSize journalSize : BitVec 64) : Prop where
  hasSlots : maxTransactions transactionTableSize ≠ 0
  nonempty : (maxTransactions transactionTableSize).signExtend 64 ≤ journalSize
  whole : 0 < (maxTransactions transactionTableSize).toInt →
    ¬ Rejected transactionTableSize journalSize →
    64 ∣ (extentSize transactionTableSize journalSize).toNat

theorem signExtend_eq_zero_iff {count : BitVec 32} : count.signExtend 64 = 0 ↔ count = 0 := by
  constructor
  · intro isZero
    have isInt := BitVec.toInt_signExtend_of_le (x := count) (by omega : 32 ≤ 64)
    rw [isZero] at isInt
    exact BitVec.eq_of_toInt_eq isInt.symm
  · rintro rfl
    rfl

theorem udiv_eq_zero_iff {size divisor : BitVec 64} (nonzero : divisor ≠ 0) :
    size / divisor = 0 ↔ size < divisor := by
  have positive : divisor.toNat ≠ 0 := fun isZero =>
    nonzero (BitVec.eq_of_toNat_eq isZero)
  rw [← BitVec.toNat_inj, BitVec.toNat_udiv, BitVec.lt_def]
  simp only [BitVec.ofNat_eq_ofNat, BitVec.toNat_ofNat, Nat.zero_mod, Nat.div_eq_zero_iff]
  omega

theorem Layout.sound_iff {layout : Layout} {journalSize : BitVec 64}
    (isExtent : layout.extentSize = journalSize / layout.maxTransactions.signExtend 64)
    (nonzero : layout.extentSize ≠ 0) :
    layout.Sound journalSize ↔
      (0 < layout.maxTransactions.toInt → 64 ∣ layout.extentSize.toNat) := by
  constructor
  · intro sound hasSlots
    have positive : layout.extentSize.toNat ≠ 0 := fun isZero =>
      nonzero (BitVec.eq_of_toNat_eq isZero)
    have starts : layout.startingEntries - 1 < layout.startingEntries := by
      unfold Layout.startingEntries
      omega
    have contained := sound.examined (fun _ => zeroEntry) 0 0 (layout.startingEntries - 1)
      hasSlots (examines_last starts)
    rw [Layout.contains_iff] at contained
    unfold Layout.startingEntries at contained
    omega
  · intro whole
    refine ⟨fun index isSlot => txJend_le isExtent isSlot, fun index other _ _ different => ?_,
      fun tx after mem ptr len stores _ isJend isLog slot je field member =>
        Layout.contains_of_log isJend isLog member, fun journal id index je isSlot examines => ?_⟩
    · rcases Nat.lt_or_gt_of_ne different with before | after
      · exact Or.inl (Layout.txJend_le_txJbegin before)
      · exact Or.inr (Layout.txJend_le_txJbegin after)
    · have hasSlots : 0 < layout.maxTransactions.toInt := by
        unfold Layout.IsSlot at isSlot
        omega
      exact Layout.contains_of_dvd (whole hasSlots) examines.1

theorem construct_sound_iff (transactionTableSize journalSize : BitVec 64) :
    (construct transactionTableSize journalSize).Sound journalSize ↔
      Divides transactionTableSize journalSize := by
  unfold construct
  by_cases noSlots : (maxTransactions transactionTableSize).signExtend 64 = 0
  · simp only [if_pos noSlots]
    refine iff_of_false id fun divides => ?_
    exact divides.hasSlots (signExtend_eq_zero_iff.mp noSlots)
  · simp only [if_neg noSlots]
    have hasSlots := mt signExtend_eq_zero_iff.mpr noSlots
    by_cases isEmpty : journalSize / (maxTransactions transactionTableSize).signExtend 64 = 0
    · simp only [if_pos isEmpty]
      refine iff_of_false id fun divides => ?_
      have isLess := (udiv_eq_zero_iff noSlots).mp isEmpty
      exact absurd divides.nonempty (BitVec.not_le.mpr isLess)
    · simp only [if_neg isEmpty]
      have nonempty := BitVec.not_lt.mp (mt (udiv_eq_zero_iff noSlots).mpr isEmpty)
      by_cases rejected : Rejected transactionTableSize journalSize
      · have isTrue := rejected
        unfold Rejected extentSize at isTrue
        simp only [if_pos isTrue]
        exact iff_of_true trivial ⟨hasSlots, nonempty, fun _ accepted => absurd rejected accepted⟩
      · have isFalse := rejected
        unfold Rejected extentSize at isFalse
        simp only [if_neg isFalse]
        refine (Layout.sound_iff rfl isEmpty).trans ?_
        exact ⟨fun whole => ⟨hasSlots, nonempty, fun positive _ => whole positive⟩,
          fun divides positive => divides.whole positive rejected⟩

/-- For all sizes that a user can choose. -/
theorem journal_sound_iff (transactionTableSize journalSize : BitVec 64) :
    (construct (transactionInfoLen transactionTableSize) (journalInfoLen journalSize)).Sound
        (journalInfoLen journalSize) ↔
      Divides (transactionInfoLen transactionTableSize) (journalInfoLen journalSize) :=
  construct_sound_iff _ _

/-- A table of three pages has 192 slots, whose extents of 699050 bytes in the default journal end
in the middle of an entry. -/
theorem threePages_not_sound :
    construct (transactionInfoLen 12288) (journalInfoLen 0) =
        .layout ⟨192, 699050, 192⟩ ∧
      ¬ (construct (transactionInfoLen 12288) (journalInfoLen 0)).Sound (journalInfoLen 0) := by
  have isLayout : construct (transactionInfoLen 12288) (journalInfoLen 0) =
      .layout ⟨192, 699050, 192⟩ := by decide
  refine ⟨isLayout, fun sound => ?_⟩
  rw [isLayout] at sound
  have contained := sound.examined (fun _ => zeroEntry) 0 0 10922 (by decide)
    (examines_last (by decide))
  exact absurd (Layout.contains_iff.mp contained) (by decide)

end JournalLayout

end Pmgd
