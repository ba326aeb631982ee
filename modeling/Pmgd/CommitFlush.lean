import Pmgd.CrashAtomicity

/-!
# Flushing at the end of a transaction

In persistent-memory mode `finalize_commit` flushes the cache line of the address of every
journal entry, and `rollback` flushes that line after it has copied an entry back.  An entry
holds up to 48 bytes, and nothing flushes the line in which it ends when that is not the one
in which it starts.  The lines of a range are all flushed only if some entry starts in each
of them, and for a rollback, if one of these is copied back no earlier.
-/

namespace Pmgd

open LabelledRun

/-- The 64-byte cache line of an address. -/
def cacheLine (address : Nat) : Nat :=
  address / 64

/-- `finalize_commit` behind the callbacks: the addresses that it flushes. -/
def finalizeCommit (execution : Execution) : List Nat :=
  (List.range execution.tx.jcur).map fun je =>
    (execution.pm.journal execution.tx.txHandle.index je).addr

/-- What `rollback` does to the graph data: stores, and flushes of single lines. -/
inductive PmEvent
  | store (address : Nat)
  | flush (address : Nat)
  deriving DecidableEq, Repr

/-- The loop of `rollback` over the entries in front of an index, with its flushes. -/
def replayEvents (journal : Nat → JournalEntry) : Nat → List PmEvent
  | 0 => []
  | je + 1 =>
      (List.range (journal je).len.toNat).map
          (fun offset => PmEvent.store ((journal je).addr + offset)) ++
        PmEvent.flush (journal je).addr :: replayEvents journal je

/-- The events of `rollback` up to its barrier. -/
def rollbackEvents (pm : Pm) (handle : TransactionHandle) (jend : Nat) : List PmEvent :=
  replayEvents (pm.journal handle.index)
    (validEntries (pm.journal handle.index) handle.id jend)

/-- Every store is followed by a flush of its line. -/
def AllFlushed : List PmEvent → Prop
  | [] => True
  | .store address :: events =>
      (∃ flushed, PmEvent.flush flushed ∈ events ∧ cacheLine flushed = cacheLine address) ∧
        AllFlushed events
  | .flush _ :: events => AllFlushed events

/-- The commit flushes every line of a logged range, and so every line that was stored to. -/
structure CommitFlushes (calls : List Call) (last : Execution) : Prop where
  ranges : ∀ address, LoggedBy calls address →
    ∃ flushed ∈ finalizeCommit last, cacheLine flushed = cacheLine address
  stores : ∀ address byte, Call.store address byte ∈ calls →
    ∃ flushed ∈ finalizeCommit last, cacheLine flushed = cacheLine address

/-- The rollback flushes every line after it has rewritten it. -/
def RollbackFlushes (last : Execution) : Prop :=
  AllFlushed (rollbackEvents last.pm last.tx.txHandle last.tx.jcur)

/-! ## The pieces of the ranges -/

/-- The pieces of a range that has the given number of full ones. -/
def piecesFrom : Nat → Nat → Nat → List (Nat × Nat)
  | 0, ptr, len => [(ptr, len % jeMaxLen)]
  | full + 1, ptr, len => (ptr, jeMaxLen) :: piecesFrom full (ptr + jeMaxLen) len

/-- The addresses and lengths into which the log calls split their ranges. -/
def pieces : List Call → List (Nat × Nat)
  | [] => []
  | .log ptr len :: calls => piecesFrom (len / jeMaxLen) ptr len ++ pieces calls
  | .store _ _ :: calls => pieces calls

/-- In the line of the last byte of each range a piece starts. -/
def EndsMet (calls : List Call) : Prop :=
  ∀ ptr len, Call.log ptr len ∈ calls → 0 < len →
    ∃ piece ∈ pieces calls, cacheLine piece.1 = cacheLine (ptr + len - 1)

/-- In the line of the last byte of each piece this piece or an earlier one starts. -/
def EndsMetBefore (calls : List Call) : Prop :=
  ∀ (je ptr len : Nat), (pieces calls)[je]? = some (ptr, len) → 0 < len →
    ∃ other ≤ je, ∃ piece, (pieces calls)[other]? = some piece ∧
      cacheLine piece.1 = cacheLine (ptr + len - 1)

/-- The address and the length of an entry. -/
def JournalEntry.shape (entry : JournalEntry) : Nat × Nat :=
  (entry.addr, entry.len.toNat)

theorem loggedEntry_shape (handle : TransactionHandle) (src : Nat) {len : Nat}
    (small : len ≤ jeMaxLen) (mem : Nat → UInt8) (old : JournalEntry) :
    (loggedEntry handle src len mem old).shape = (src, len) := by
  rw [jeMaxLen] at small
  rw [JournalEntry.shape, loggedEntry, UInt8.toNat_ofNat', Nat.mod_eq_of_lt (by omega)]

/-- The shapes of the entries of a log call. -/
theorem shapes_logEntries (handle : TransactionHandle) (pm : Pm) (full jcur ptr len : Nat) :
    (List.range (full + 1)).map (fun je =>
        ((pm.applyAll (logEntries handle pm.mem full jcur ptr len)).journal handle.index
          (jcur + je)).shape) = piecesFrom full ptr len := by
  induction full generalizing pm jcur ptr with
  | zero =>
      have small : len % jeMaxLen ≤ jeMaxLen := (Nat.mod_lt _ (by decide)).le
      simp only [logEntries, applyAll_logJe, Nat.zero_add, List.range_one, List.map_cons,
        List.map_nil, Nat.add_zero, Pm.modifyEntry_journal_self, piecesFrom,
        loggedEntry_shape handle ptr small]
  | succ full ih =>
      have first := extends_logJe handle jcur ptr (le_refl jeMaxLen) pm
      have rest := ih (pm.applyAll (logJe handle pm.mem jcur ptr jeMaxLen)) (jcur + 1)
        (ptr + jeMaxLen)
      have kept := (extends_logEntries handle
        (pm.applyAll (logJe handle pm.mem jcur ptr jeMaxLen)) full (jcur + 1)
        (ptr + jeMaxLen) len).1.earlier jcur (Nat.lt_succ_self jcur)
      rw [first.mem] at rest kept
      rw [List.range_succ_eq_map, List.map_cons, List.map_map, piecesFrom, ← rest]
      rw [logEntries, Pm.applyAll_append]
      refine congrArg₂ _ ?_ (List.map_congr_left fun je _ => ?_)
      · simp only [Nat.add_zero]
        rw [kept, applyAll_logJe, Pm.modifyEntry_journal_self,
          loggedEntry_shape handle ptr le_rfl]
      · rw [Function.comp_apply, Nat.succ_eq_add_one, Nat.add_assoc jcur 1 je,
          Nat.add_comm 1 je]

/-- The entries of the transaction are the pieces logged so far. -/
def Records (execution : Execution) (logged : List (Nat × Nat)) : Prop :=
  (List.range execution.tx.jcur).map (fun je =>
    (execution.pm.journal execution.tx.txHandle.index je).shape) = logged

theorem Records.call {execution next : Execution} {logged : List (Nat × Nat)} {call : Call}
    (records : Records execution logged) (called : execution.call call = some next) :
    Records next (logged ++ pieces [call]) := by
  cases call with
  | store address byte =>
      obtain rfl := Option.some.inj called
      rw [pieces, pieces, List.append_nil]
      exact records
  | log ptr len =>
      simp only [Execution.call] at called
      cases result : execution.tx.log execution.pm.mem ptr len with
      | error _ => simp [result] at called
      | ok pair =>
          obtain ⟨tx, stores⟩ := pair
          have extended := (extends_of_log result).1
          obtain ⟨-, rfl, rfl⟩ := log_eq_ok_iff.mp result
          simp only [result, Option.some.injEq] at called
          subst called
          simp only [Records, pieces, List.append_nil]
          rw [jeEntries_eq, List.range_add, List.map_append, List.map_map]
          refine congrArg₂ _ ?_ ?_
          · rw [← records]
            refine List.map_congr_left fun je inFront => ?_
            rw [extended.earlier je (List.mem_range.mp inFront)]
          · exact shapes_logEntries execution.tx.txHandle execution.pm (len / jeMaxLen)
              execution.tx.jcur ptr len

theorem pieces_append (first second : List Call) :
    pieces (first ++ second) = pieces first ++ pieces second := by
  induction first with
  | nil => rfl
  | cons call first ih =>
      cases call with
      | log ptr len => rw [List.cons_append, pieces, pieces, ih, List.append_assoc]
      | store address byte => rw [List.cons_append, pieces, pieces, ih]

/-- At the end of a run the entries are the pieces of all log calls. -/
theorem Records.run {execution last : Execution} {logged : List (Nat × Nat)}
    {calls : List Call} (records : Records execution logged)
    (ran : run Execution.call execution calls = some last) :
    Records last (logged ++ pieces calls) := by
  induction calls generalizing execution logged with
  | nil =>
      obtain rfl := Option.some.inj ran
      rw [pieces, List.append_nil]
      exact records
  | cons call calls ih =>
      rw [run_cons, Option.bind_eq_some_iff] at ran
      obtain ⟨next, called, rest⟩ := ran
      have later := ih (records.call called) rest
      rwa [List.append_assoc, ← pieces_append] at later

/-! ## The flushes of a commit -/

theorem finalizeCommit_eq {last : Execution} {logged : List (Nat × Nat)}
    (records : Records last logged) : finalizeCommit last = logged.map Prod.fst := by
  rw [← records, List.map_map]
  rfl

theorem exists_mem_piecesFrom {full index : Nat} (inRange : index ≤ full) (ptr len : Nat) :
    ∃ piece ∈ piecesFrom full ptr len, piece.1 = ptr + jeMaxLen * index := by
  induction full generalizing ptr index with
  | zero =>
      obtain rfl := Nat.le_zero.mp inRange
      exact ⟨_, List.mem_singleton_self _, rfl⟩
  | succ full ih =>
      cases index with
      | zero => exact ⟨_, List.mem_cons_self, rfl⟩
      | succ index =>
          obtain ⟨piece, member, starts⟩ := ih (Nat.le_of_succ_le_succ inRange) (ptr + jeMaxLen)
          refine ⟨piece, List.mem_cons_of_mem _ member, ?_⟩
          rw [starts, Nat.mul_succ]
          omega

theorem mem_pieces {calls : List Call} {ptr len : Nat} {piece : Nat × Nat}
    (isLogged : Call.log ptr len ∈ calls) (member : piece ∈ piecesFrom (len / jeMaxLen) ptr len) :
    piece ∈ pieces calls := by
  obtain ⟨before, after, rfl⟩ := List.append_of_mem isLogged
  rw [pieces_append, pieces]
  exact List.mem_append_right _ (List.mem_append_left _ member)

/-- A piece starts in every line of a range except perhaps the last one: two pieces start only
48 bytes apart. -/
theorem exists_piece_of_not_last {ptr len address : Nat} (low : ptr ≤ address)
    (notLast : cacheLine address < cacheLine (ptr + len - 1)) :
    ∃ piece ∈ piecesFrom (len / jeMaxLen) ptr len, cacheLine piece.1 = cacheLine address := by
  simp only [cacheLine] at notLast ⊢
  by_cases inFirst : ptr / 64 = address / 64
  · obtain ⟨piece, member, starts⟩ := exists_mem_piecesFrom (Nat.zero_le (len / jeMaxLen)) ptr len
    exact ⟨piece, member, by rw [starts, Nat.mul_zero, Nat.add_zero, inFirst]⟩
  · have inRange : (64 * (address / 64) - ptr + 47) / 48 ≤ len / jeMaxLen := by
      rw [jeMaxLen]
      omega
    obtain ⟨piece, member, starts⟩ := exists_mem_piecesFrom inRange ptr len
    refine ⟨piece, member, ?_⟩
    rw [starts, jeMaxLen]
    omega

theorem loggedBy_of_storesLoggedAfter {logged : Nat → Prop} {calls : List Call}
    (covered : StoresLoggedAfter logged calls) {address : Nat} {byte : UInt8}
    (stored : Call.store address byte ∈ calls) :
    logged address ∨ LoggedBy calls address := by
  induction calls generalizing logged with
  | nil => cases stored
  | cons call calls ih =>
      have later {ptr len : Nat} (member : Call.log ptr len ∈ calls) :
          Call.log ptr len ∈ call :: calls := List.mem_cons_of_mem _ member
      cases call with
      | log first size =>
          rcases ih covered (by simpa using stored) with (old | here) | ⟨ptr, len, member, inside⟩
          · exact .inl old
          · exact .inr ⟨first, size, List.mem_cons_self, here⟩
          · exact .inr ⟨ptr, len, later member, inside⟩
      | store other value =>
          rcases List.mem_cons.mp stored with same | rest
          · obtain ⟨rfl, -⟩ := Call.store.inj same
            exact .inl covered.1
          · rcases ih covered.2 rest with old | ⟨ptr, len, member, inside⟩
            · exact .inl old
            · exact .inr ⟨ptr, len, later member, inside⟩

theorem commitFlushes_iff {last : Execution} {calls : List Call} (logged : StoresLogged calls)
    (records : Records last (pieces calls)) : CommitFlushes calls last ↔ EndsMet calls := by
  have flushes : finalizeCommit last = (pieces calls).map Prod.fst := finalizeCommit_eq records
  constructor
  · intro commits ptr len isLogged positive
    obtain ⟨flushed, isFlushed, sameLine⟩ :=
      commits.ranges (ptr + len - 1) ⟨ptr, len, isLogged, by omega, by omega⟩
    rw [flushes] at isFlushed
    obtain ⟨piece, member, rfl⟩ := List.mem_map.mp isFlushed
    exact ⟨piece, member, sameLine⟩
  · intro endsMet
    have ranges : ∀ address, LoggedBy calls address →
        ∃ flushed ∈ finalizeCommit last, cacheLine flushed = cacheLine address := by
      rintro address ⟨ptr, len, isLogged, low, high⟩
      rw [flushes]
      have upTo : cacheLine address ≤ cacheLine (ptr + len - 1) :=
        Nat.div_le_div_right (by omega)
      rcases upTo.lt_or_eq with notLast | isLast
      · obtain ⟨piece, member, sameLine⟩ := exists_piece_of_not_last low notLast
        exact ⟨_, List.mem_map_of_mem (mem_pieces isLogged member), sameLine⟩
      · obtain ⟨piece, member, sameLine⟩ := endsMet ptr len isLogged (by omega)
        exact ⟨_, List.mem_map_of_mem member, sameLine.trans isLast.symm⟩
    refine ⟨ranges, fun address byte stored => ranges address ?_⟩
    exact (loggedBy_of_storesLoggedAfter logged stored).resolve_left not_false

/-! ## The flushes of a rollback -/

theorem mem_replayEvents {journal : Nat → JournalEntry} {count flushed : Nat} :
    PmEvent.flush flushed ∈ replayEvents journal count ↔
      ∃ je < count, (journal je).addr = flushed := by
  induction count with
  | zero => simp [replayEvents]
  | succ count ih =>
      simp only [replayEvents, List.mem_append, List.mem_map, List.mem_cons, reduceCtorEq,
        and_false, exists_false, false_or, PmEvent.flush.injEq, ih]
      constructor
      · rintro (rfl | ⟨je, before, starts⟩)
        · exact ⟨count, by omega, rfl⟩
        · exact ⟨je, by omega, starts⟩
      · rintro ⟨je, before, starts⟩
        rcases Nat.lt_succ_iff_lt_or_eq.mp before with earlier | rfl
        · exact .inr ⟨je, earlier, starts⟩
        · exact .inl starts.symm

theorem allFlushed_append (addresses : List Nat) (events : List PmEvent) :
    AllFlushed (addresses.map PmEvent.store ++ events) ↔
      (∀ address ∈ addresses, ∃ flushed, PmEvent.flush flushed ∈ events ∧
        cacheLine flushed = cacheLine address) ∧ AllFlushed events := by
  induction addresses with
  | nil => simp
  | cons address addresses ih =>
      simp [AllFlushed, ih, and_assoc]

/-- The entry that is copied back last among those that start in a line has the last word. -/
theorem allFlushed_replayEvents (journal : Nat → JournalEntry) (count : Nat) :
    AllFlushed (replayEvents journal count) ↔
      ∀ je < count, ∀ offset < (journal je).len.toNat,
        ∃ other ≤ je, cacheLine (journal other).addr =
          cacheLine ((journal je).addr + offset) := by
  induction count with
  | zero => simp [replayEvents, AllFlushed]
  | succ count ih =>
      have stores : (List.range (journal count).len.toNat).map
          (fun offset => PmEvent.store ((journal count).addr + offset)) =
            ((List.range (journal count).len.toNat).map
              fun offset => (journal count).addr + offset).map PmEvent.store := by
        rw [List.map_map]
        rfl
      rw [replayEvents, stores, allFlushed_append, AllFlushed, ih]
      simp only [List.mem_map, List.mem_range, forall_exists_index, and_imp,
        forall_apply_eq_imp_iff₂, List.mem_cons, PmEvent.flush.injEq, mem_replayEvents]
      constructor
      · rintro ⟨latest, earlier⟩ je before offset inside
        rcases Nat.lt_succ_iff_lt_or_eq.mp before with old | rfl
        · exact earlier je old offset inside
        · obtain ⟨flushed, starts, sameLine⟩ := latest offset inside
          rcases starts with rfl | ⟨other, otherBefore, rfl⟩
          · exact ⟨je, le_rfl, sameLine⟩
          · exact ⟨other, by omega, sameLine⟩
      · intro all
        refine ⟨fun offset inside => ?_, fun je before => all je (by omega)⟩
        obtain ⟨other, before, sameLine⟩ := all count (by omega) offset inside
        rcases before.lt_or_eq with earlier | rfl
        · exact ⟨_, .inr ⟨other, earlier, rfl⟩, sameLine⟩
        · exact ⟨_, .inl rfl, sameLine⟩

theorem length_le_of_mem_piecesFrom {full ptr len : Nat} {piece : Nat × Nat}
    (member : piece ∈ piecesFrom full ptr len) : piece.2 ≤ jeMaxLen := by
  induction full generalizing ptr with
  | zero =>
      obtain rfl := List.mem_singleton.mp member
      exact (Nat.mod_lt _ (by decide)).le
  | succ full ih =>
      rcases List.mem_cons.mp member with rfl | rest
      · exact le_rfl
      · exact ih rest

theorem length_le_of_mem_pieces {calls : List Call} {piece : Nat × Nat}
    (member : piece ∈ pieces calls) : piece.2 ≤ jeMaxLen := by
  induction calls with
  | nil => cases member
  | cons call calls ih =>
      cases call with
      | log ptr len =>
          rcases List.mem_append.mp member with here | later
          · exact length_le_of_mem_piecesFrom here
          · exact ih later
      | store address byte => exact ih member

theorem Records.getElem? {last : Execution} {logged : List (Nat × Nat)}
    (records : Records last logged) {je : Nat} (inFront : je < last.tx.jcur) :
    logged[je]? = some (last.pm.journal last.tx.txHandle.index je).shape := by
  rw [← records, List.getElem?_map, List.getElem?_range inFront]
  rfl

theorem Records.length {last : Execution} {logged : List (Nat × Nat)}
    (records : Records last logged) : logged.length = last.tx.jcur := by
  rw [← records, List.length_map, List.length_range]

/-- A piece has less than a line, so that it ends in the line in which it starts or in the
next one. -/
theorem allFlushed_iff_endsMetBefore {last : Execution} {calls : List Call}
    (records : Records last (pieces calls)) :
    AllFlushed (replayEvents (last.pm.journal last.tx.txHandle.index) last.tx.jcur) ↔
      EndsMetBefore calls := by
  rw [allFlushed_replayEvents]
  constructor
  · intro flushed je ptr len isPiece positive
    have inFront : je < last.tx.jcur := by
      rw [← records.length]
      exact (List.getElem?_eq_some_iff.mp isPiece).1
    have shape := isPiece.symm.trans (records.getElem? inFront)
    obtain ⟨rfl, rfl⟩ := Prod.mk.inj (Option.some.inj shape)
    obtain ⟨other, before, sameLine⟩ := flushed je inFront _ (Nat.sub_one_lt_of_lt positive)
    refine ⟨other, before, _, records.getElem? (by omega), sameLine.trans ?_⟩
    rw [Nat.add_sub_assoc (by omega)]
  · intro endsMet je inFront offset inside
    have isPiece := records.getElem? inFront
    obtain ⟨other, before, piece, isOther, sameLine⟩ := endsMet je _ _ isPiece (by omega)
    rw [records.getElem? (by omega)] at isOther
    obtain rfl := Option.some.inj isOther
    have short : (last.pm.journal last.tx.txHandle.index je).len.toNat ≤ jeMaxLen :=
      length_le_of_mem_pieces (List.mem_of_getElem? isPiece)
    rw [jeMaxLen] at short
    simp only [cacheLine, JournalEntry.shape] at sameLine ⊢
    by_cases first : (last.pm.journal last.tx.txHandle.index je).addr / 64 =
        ((last.pm.journal last.tx.txHandle.index je).addr + offset) / 64
    · exact ⟨je, le_rfl, first⟩
    · exact ⟨other, before, by omega⟩

/-- The scan finds all entries of the transaction, or none when its id does not fit the
bit-field. -/
theorem validEntries_eq_ite {start pm : Pm} {logged : Nat → Prop} {tx : TransactionImpl}
    {jend : Nat} (undoable : Undoable start logged tx pm) (room : tx.jcur ≤ jend)
    (leftOver : ∀ je < jend, tx.jcur ≤ je →
      ¬ (start.journal tx.txHandle.index je).Carries tx.txHandle.id) :
    validEntries (pm.journal tx.txHandle.index) tx.txHandle.id jend =
      if tx.txHandle.id.toNat < 2 ^ 56 then tx.jcur else 0 := by
  split_ifs with small
  · refine validEntries_eq room (fun je before => ?_) fun short carries => ?_
    · rw [JournalEntry.Carries, undoable.own je before, setWidth_entryTxId small]
    · rw [JournalEntry.Carries, undoable.leftOver tx.jcur le_rfl] at carries
      exact leftOver tx.jcur short le_rfl carries
  · by_contra found
    have carries := carries_of_lt_validEntries (Nat.pos_of_ne_zero found)
    rw [JournalEntry.Carries] at carries
    have width := congrArg BitVec.toNat carries
    rw [BitVec.toNat_setWidth] at width
    have bound := (pm.journal tx.txHandle.index 0).txId.isLt
    omega

theorem validEntries_jcur {start pm : Pm} {logged : Nat → Prop} {tx : TransactionImpl}
    (undoable : Undoable start logged tx pm) :
    validEntries (pm.journal tx.txHandle.index) tx.txHandle.id tx.jcur =
      if tx.txHandle.id.toNat < 2 ^ 56 then tx.jcur else 0 :=
  validEntries_eq_ite undoable le_rfl fun _ before behind => absurd before behind.not_gt

/-- Commit and rollback flush what they must exactly when a journal entry starts in the line
of the last byte of each range and, for a rollback, when for each entry this is so of the
entry itself or of an earlier one (a transaction whose id does not fit the journal rolls
nothing back). -/
theorem flushes_iff {tx : TransactionImpl} {pm : Pm} {calls : List Call} {last : Execution}
    (begins : tx.jcur = 0) (logged : StoresLogged calls)
    (accepted : run Execution.call ⟨tx, pm, []⟩ calls = some last) :
    CommitFlushes calls last ∧ RollbackFlushes last ↔
      EndsMet calls ∧ (tx.txHandle.id.toNat < 2 ^ 56 → EndsMetBefore calls) := by
  have initially : Records ⟨tx, pm, []⟩ [] := by
    rw [Records, begins]
    rfl
  have records : Records last (pieces calls) := initially.run accepted
  obtain ⟨sameHandle, logged', undoable⟩ :=
    undoable_run ⟨tx, pm, []⟩ (Undoable.initially begins) logged accepted
  refine and_congr (commitFlushes_iff logged records) ?_
  rw [RollbackFlushes, rollbackEvents, validEntries_jcur undoable, sameHandle]
  split_ifs with small
  · rw [← sameHandle, allFlushed_iff_endsMetBefore records]
    exact ⟨fun met _ => met, fun met => met (sameHandle ▸ small)⟩
  · simp only [replayEvents, AllFlushed]
    exact ⟨fun _ met => absurd met small, fun _ => trivial⟩

theorem flushes_iff_alignedCalls :
    ∃ last, run Execution.call startedTransaction [.log 64 40, .store 70 5] = some last ∧
      (CommitFlushes [.log 64 40, .store 70 5] last ∧ RollbackFlushes last ↔
        EndsMet [.log 64 40, .store 70 5] ∧
          (startedTransaction.tx.txHandle.id.toNat < 2 ^ 56 →
            EndsMetBefore [.log 64 40, .store 70 5])) := by
  have logged : StoresLogged [.log 64 40, .store 70 5] := by
    simp [StoresLogged, StoresLoggedAfter]
  exact ⟨_, rfl, flushes_iff rfl logged rfl⟩

/-- Eight bytes across a border of cache lines: the second line is flushed neither by the
commit nor by the rollback. -/
theorem second_line_not_flushed :
    StoresLogged [.log 60 8, .store 64 5] ∧
      ∃ last, run Execution.call startedTransaction [.log 60 8, .store 64 5] = some last ∧
        ¬ CommitFlushes [.log 60 8, .store 64 5] last ∧ ¬ RollbackFlushes last := by
  have computed : (run Execution.call startedTransaction [.log 60 8, .store 64 5]).map
      (fun last => (finalizeCommit last,
        rollbackEvents last.pm last.tx.txHandle last.tx.jcur)) =
        some ([60], (List.range 8).map (fun offset => .store (60 + offset)) ++ [.flush 60]) := by
    decide +kernel
  obtain ⟨last, ran, summary⟩ := Option.map_eq_some_iff.mp computed
  obtain ⟨commit, rollback⟩ := Prod.mk.inj summary
  refine ⟨by simp [StoresLogged, StoresLoggedAfter], last, ran, fun commits => ?_,
    fun flushed => ?_⟩
  · obtain ⟨flushed, isFlushed, sameLine⟩ := commits.stores 64 5 (by simp)
    rw [commit, List.mem_singleton] at isFlushed
    subst isFlushed
    exact absurd sameLine (by decide)
  · rw [RollbackFlushes, rollback] at flushed
    simp [AllFlushed, cacheLine, List.range_succ] at flushed

end Pmgd
