import Pmgd.Journal

/-!
# Ids in the journal

A header of the transaction table holds an id of 63 bits, an entry of the journal the low 56 bits
of it.  `rollback` compares an entry with the whole id, so an entry is found exactly if the id
fits the entry, and an entry that another transaction has left is taken for an own one exactly
if its writer's id is the same in the low bits.
-/

namespace Pmgd

open LabelledRun

/-- A transaction that begins in an extent where others have left their entries; an entry that
was never written has the id 0, which no transaction has. -/
structure StartedTransaction where
  tx : TransactionImpl
  pm : Pm
  writers : Nat → BitVec 64
  begins : tx.jcur = 0
  id_lt : tx.txHandle.id.toNat < 2 ^ 63
  writers_lt : ∀ je, (writers je).toNat < 2 ^ 63
  isWriter : ∀ je, (pm.journal tx.txHandle.index je).txId = entryTxId (writers je)
  others : ∀ je, writers je ≠ tx.txHandle.id

/-- The entries of the transaction carry its id, those that were left do not, and the scan stops
behind the last entry of the transaction, for an abort as for a recovery. -/
structure IdsExact (execution : Execution) : Prop where
  own : ∀ je < execution.tx.jcur,
    (execution.pm.journal execution.tx.txHandle.index je).Carries execution.tx.txHandle.id
  others : ∀ je < execution.tx.txHandle.jend, execution.tx.jcur ≤ je →
    ¬ (execution.pm.journal execution.tx.txHandle.index je).Carries execution.tx.txHandle.id
  stops : ∀ jend, execution.tx.jcur ≤ jend → jend ≤ execution.tx.txHandle.jend →
    validEntries (execution.pm.journal execution.tx.txHandle.index) execution.tx.txHandle.id
      jend = execution.tx.jcur

/-- The number of entries that the calls log. -/
def loggedEntries : List Call → Nat
  | [] => 0
  | .log _ len :: calls => jeEntries len + loggedEntries calls
  | .store _ _ :: calls => loggedEntries calls

/-- An entry is compared with the low bits of its writer's id. -/
theorem carries_iff {entry : JournalEntry} {writer id : BitVec 64}
    (isWriter : entry.txId = entryTxId writer) :
    entry.Carries id ↔ writer.toNat % 2 ^ 56 = id.toNat := by
  have value : (entry.txId.setWidth 64).toNat = writer.toNat % 2 ^ 56 := by
    rw [isWriter, entryTxId, BitVec.toNat_setWidth, BitVec.toNat_setWidth]
    omega
  rw [JournalEntry.Carries, ← value]
  exact BitVec.toNat_inj.symm

/-- An entry carries the id of its own transaction exactly if the id fits. -/
theorem carries_own_iff {entry : JournalEntry} {id : BitVec 64}
    (isWriter : entry.txId = entryTxId id) : entry.Carries id ↔ id.toNat < 2 ^ 56 := by
  rw [carries_iff isWriter]
  omega

/-! ## The entries of a run -/

/-- The first entries were written by the transaction, the others are those that were left. -/
structure Journaled (start : StartedTransaction) (execution : Execution) : Prop where
  sameHandle : execution.tx.txHandle = start.tx.txHandle
  room : execution.tx.jcur ≤ start.tx.txHandle.jend
  own : ∀ je < execution.tx.jcur, (execution.pm.journal start.tx.txHandle.index je).txId =
    entryTxId start.tx.txHandle.id
  leftOver : ∀ je, execution.tx.jcur ≤ je →
    (execution.pm.journal start.tx.txHandle.index je).txId = entryTxId (start.writers je)

namespace Journaled

variable {start : StartedTransaction} {execution next last : Execution} {calls : List Call}

theorem initially (start : StartedTransaction) : Journaled start ⟨start.tx, start.pm, []⟩ where
  sameHandle := rfl
  room := start.begins ▸ Nat.zero_le _
  own je before := by
    rw [start.begins] at before
    exact absurd before (Nat.not_lt_zero je)
  leftOver je _ := start.isWriter je

/-- A call writes the next entries, or none. -/
theorem call {call : Call} (journaled : Journaled start execution)
    (called : execution.call call = some next) :
    Journaled start next ∧ next.tx.jcur = execution.tx.jcur + loggedEntries [call] := by
  cases call with
  | store address byte =>
      obtain rfl := Option.some.inj called
      exact ⟨⟨journaled.sameHandle, journaled.room, journaled.own, journaled.leftOver⟩, rfl⟩
  | log ptr len =>
      rw [Execution.call] at called
      cases result : execution.tx.log execution.pm.mem ptr len with
      | error exception =>
          rw [result] at called
          cases called
      | ok pair =>
          obtain ⟨tx, stores⟩ := pair
          rw [result] at called
          obtain rfl := Option.some.inj called
          obtain ⟨extended, -⟩ := extends_of_log result
          obtain ⟨fits, rfl, -⟩ := log_eq_ok_iff.mp result
          rw [journaled.sameHandle] at extended fits
          refine ⟨⟨journaled.sameHandle, fits.le, ?_, ?_⟩, rfl⟩
          · intro je before
            rcases Nat.lt_or_ge je execution.tx.jcur with old | new
            · rw [extended.earlier je old]
              exact journaled.own je old
            · exact extended.written je new before
          · intro je behind
            rw [extended.later je behind]
            exact journaled.leftOver je (Nat.le_of_add_right_le behind)

theorem loggedEntries_cons (call : Call) (calls : List Call) :
    loggedEntries (call :: calls) = loggedEntries [call] + loggedEntries calls := by
  cases call with
  | log ptr len => rfl
  | store address byte => exact (Nat.zero_add _).symm

theorem run (journaled : Journaled start execution)
    (ran : LabelledRun.run Execution.call execution calls = some last) :
    Journaled start last ∧ last.tx.jcur = execution.tx.jcur + loggedEntries calls := by
  induction calls generalizing execution with
  | nil =>
      obtain rfl := Option.some.inj ran
      exact ⟨journaled, rfl⟩
  | cons call calls ih =>
      rw [run_cons, Option.bind_eq_some_iff] at ran
      obtain ⟨next, called, rest⟩ := ran
      obtain ⟨kept, advanced⟩ := journaled.call called
      obtain ⟨final, isCount⟩ := ih kept rest
      refine ⟨final, ?_⟩
      rw [isCount, advanced, loggedEntries_cons call calls, Nat.add_assoc]

end Journaled

/-- The ids of the entries are exact if they are told apart from the id of the transaction. -/
theorem idsExact_of_carries {execution : Execution}
    (own : ∀ je < execution.tx.jcur,
      (execution.pm.journal execution.tx.txHandle.index je).Carries execution.tx.txHandle.id)
    (others : ∀ je < execution.tx.txHandle.jend, execution.tx.jcur ≤ je →
      ¬ (execution.pm.journal execution.tx.txHandle.index je).Carries execution.tx.txHandle.id) :
    IdsExact execution where
  own := own
  others := others
  stops _ room within := validEntries_eq room own fun short =>
    others _ (short.trans_le within) le_rfl

/-- The scan stops exactly behind the last entry of the transaction if and only if its id fits the
entries, or it has logged nothing, and no entry that is left behind was written by a transaction
with an id that is the same in the low bits. -/
theorem idsExact_iff (start : StartedTransaction) {calls : List Call} {last : Execution}
    (ran : run Execution.call ⟨start.tx, start.pm, []⟩ calls = some last) :
    IdsExact last ↔
      (start.tx.txHandle.id.toNat < 2 ^ 56 ∨ loggedEntries calls = 0) ∧
        ∀ je < start.tx.txHandle.jend, loggedEntries calls ≤ je →
          (start.writers je).toNat % 2 ^ 56 ≠ start.tx.txHandle.id.toNat := by
  obtain ⟨⟨sameHandle, -, own, leftOver⟩, isCount⟩ := (Journaled.initially start).run ran
  have count : last.tx.jcur = loggedEntries calls := by
    rw [isCount, start.begins, Nat.zero_add]
  rw [count] at own leftOver
  constructor
  · intro isExact
    have ownExact := isExact.own
    have othersExact := isExact.others
    rw [sameHandle, count] at ownExact othersExact
    constructor
    · rcases Nat.eq_zero_or_pos (loggedEntries calls) with none | some
      · exact .inr none
      · exact .inl ((carries_own_iff (own 0 some)).mp (ownExact 0 some))
    · exact fun je inExtent behind =>
        mt (carries_iff (leftOver je behind)).mpr (othersExact je inExtent behind)
  · rintro ⟨fits, different⟩
    apply idsExact_of_carries
    · rw [sameHandle, count]
      intro je before
      rcases fits with small | none
      · exact (carries_own_iff (own je before)).mpr small
      · exact absurd before (none ▸ Nat.not_lt_zero je)
    · rw [sameHandle, count]
      exact fun je inExtent behind =>
        mt (carries_iff (leftOver je behind)).mp (different je inExtent behind)

/-- The first transaction in a new journal, with this id. -/
def firstTransaction (id : BitVec 64) (positive : 0 ≠ id) (bound : id.toNat < 2 ^ 63) :
    StartedTransaction where
  tx := ⟨⟨id, 0, 8⟩, true, 0⟩
  pm := ⟨fun _ => 0, fun _ _ => ⟨0, 0, 0, fun _ => 0⟩, fun _ => 1⟩
  writers _ := 0
  begins := rfl
  id_lt := bound
  writers_lt _ := by decide
  isWriter _ := rfl
  others _ := positive

/-- The first id that does not fit. -/
def largeTransaction : StartedTransaction :=
  firstTransaction 0x100000000000000 (by decide) (by decide)

/-- The scan does not find the only entry of the transaction. -/
theorem scan_misses_entry :
    ∃ last, run Execution.call ⟨largeTransaction.tx, largeTransaction.pm, []⟩ [.log 100 8] =
        some last ∧
      last.tx.jcur = 1 ∧
      validEntries (last.pm.journal 0) last.tx.txHandle.id last.tx.txHandle.jend = 0 ∧
      ¬ IdsExact last := by
  refine ⟨_, rfl, rfl, by decide, fun isExact => ?_⟩
  exact absurd (isExact.own 0 (by decide)) (by decide)

/-- A transaction whose id fits. -/
def smallTransaction : StartedTransaction :=
  firstTransaction 7 (by decide) (by decide)

theorem idsExact_iff_small :
    ∃ last, run Execution.call ⟨smallTransaction.tx, smallTransaction.pm, []⟩
        [.log 100 50, .store 120 5] = some last ∧
      (IdsExact last ↔
        (smallTransaction.tx.txHandle.id.toNat < 2 ^ 56 ∨
          loggedEntries [.log 100 50, .store 120 5] = 0) ∧
        ∀ je < smallTransaction.tx.txHandle.jend,
          loggedEntries [.log 100 50, .store 120 5] ≤ je →
            (smallTransaction.writers je).toNat % 2 ^ 56 ≠
              smallTransaction.tx.txHandle.id.toNat) :=
  ⟨_, rfl, idsExact_iff smallTransaction rfl⟩

end Pmgd
