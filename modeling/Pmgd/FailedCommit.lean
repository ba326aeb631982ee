import Mathlib.Data.List.Infix
import Pmgd.CommitFlush
import Pmgd.Lib.ByteMemory

/-!
# Commits that fail after objects were freed

The commit callbacks of a transaction free its objects in the allocators.  The header of an
allocator is logged before it is changed, but the links that are written to the first words
of the freed objects are not.  When the commit does not complete, because a later callback
throws or the process crashes, the links stay unless the transaction had logged these words
for another reason.
-/

namespace Pmgd

open ByteMemory LabelledRun TransactionHdr UndoLog

namespace FailedCommit

/-- An allocator: the address of its header, with the fields `tail_ptr`, `free_ptr` and
`num_allocated` of 8 bytes each, and the size of its objects, a `uint32_t`. -/
structure Pool where
  header : Nat
  size : Nat
  size_ge : 8 ≤ size
  size_lt : size < 2 ^ 32

/-- A store of several bytes. -/
def storeCalls (address : Nat) (bytes : List UInt8) : List Call :=
  bytes.zipIdx.map fun (byte, offset) => .store (address + offset) byte

/-- The words that the loop of `clean_free_list` writes: each object with its link. -/
def links : Nat → List Nat → List (Nat × Nat)
  | _, [] => []
  | freePtr, p :: list => (p, freePtr ||| 1) :: links p list

def linkCalls (written : List (Nat × Nat)) : List Call :=
  written.flatMap fun (p, link) => storeCalls p (encode 8 link)

/-- `_pm->num_allocated - num` with 64 bits. -/
def subtract (numAllocated num : Nat) : Nat :=
  (numAllocated + (2 ^ 64 - num % 2 ^ 64)) % 2 ^ 64

/-- `FixedAllocator::clean_free_list`. -/
def cleanFreeList (pool : Pool) (mem : Nat → UInt8) (list : List Nat) : List Call :=
  .log (pool.header + 8) 16 :: linkCalls (links (loadNat mem (pool.header + 8) 8) list) ++
    storeCalls (pool.header + 8)
      (encode 8 (list.getLastD (loadNat mem (pool.header + 8) 8))) ++
    storeCalls (pool.header + 16)
      (encode 8 (subtract (loadNat mem (pool.header + 16) 8) list.length))

/-- The objects of a contiguous piece of the pool. -/
def contiguous (pool : Pool) (p num : Nat) : List Nat :=
  (List.range num).map fun i => p + pool.size * i

/-- `(uint64_t)p + _pm->size * num`: the product has 32 bits. -/
def endOf (pool : Pool) (p : Nat) (num : BitVec 32) : Nat :=
  (p + pool.size * num.toNat % 2 ^ 32) % 2 ^ 64

/-- A function that frees objects at commit time. -/
inductive Freeing
  | cleanFreeList (list : List Nat)
  | free (p : Nat) (num : BitVec 32)
  deriving DecidableEq, Repr

def Freeing.objects (pool : Pool) : Freeing → List Nat
  | .cleanFreeList list => list
  | .free p num => contiguous pool p num.toNat

/-- The freed objects end at the tail, as far as `free` can tell. -/
def Freeing.AtTail (pool : Pool) (mem : Nat → UInt8) : Freeing → Prop
  | .cleanFreeList _ => False
  | .free p num => endOf pool p num = loadNat mem pool.header 8

instance (pool : Pool) (mem : Nat → UInt8) (freeing : Freeing) :
    Decidable (freeing.AtTail pool mem) := by
  unfold Freeing.AtTail
  split <;> infer_instance

/-- `FixedAllocator::free(p, num)` takes objects at the tail back by moving it, with logged
writes; else it does what `clean_free_list` does. -/
def Freeing.calls (pool : Pool) (mem : Nat → UInt8) (freeing : Freeing) : List Call :=
  match freeing with
  | .cleanFreeList list => FailedCommit.cleanFreeList pool mem list
  | .free p num =>
      if endOf pool p num = loadNat mem pool.header 8 then
        .log pool.header 8 :: storeCalls pool.header (encode 8 p) ++
          .log (pool.header + 16) 8 :: storeCalls (pool.header + 16)
            (encode 8 (subtract (loadNat mem (pool.header + 16) 8) num.toNat))
      else FailedCommit.cleanFreeList pool mem (contiguous pool p num.toNat)

/-- The objects whose first words are overwritten, with the links. -/
def Freeing.overwritten (pool : Pool) (mem : Nat → UInt8) (freeing : Freeing) :
    List (Nat × Nat) :=
  if freeing.AtTail pool mem then []
  else links (loadNat mem (pool.header + 8) 8) (freeing.objects pool)

end FailedCommit

open FailedCommit in
/-- A transaction that has made its calls and whose commit has run a function that frees
objects.  The transaction runs in a slot whose extent holds entries of other ids; the objects
overlap neither each other nor the header. -/
structure FailedCommit (manager : TransactionManager) (id : BitVec 64) where
  start : Pm
  slot : Nat
  calls : List Call
  before : Execution
  pool : Pool
  freeing : Freeing
  after : Execution
  idle : ¬ Active id
  inUse : start.txTable slot = id ||| active
  leftOver : ∀ je < manager.jend, ¬ (start.journal slot je).Carries id
  accepted : run Execution.call ⟨⟨⟨id, slot, manager.jend⟩, true, 0⟩, start, []⟩ calls =
    some before
  nodup : (freeing.objects pool).Nodup
  apart : ∀ p ∈ freeing.objects pool, ∀ q ∈ freeing.objects pool, p ≠ q →
    p + pool.size ≤ q ∨ q + pool.size ≤ p
  offHeader : ∀ p ∈ freeing.objects pool,
    p + pool.size ≤ pool.header ∨ pool.header + 24 ≤ p
  freed : run Execution.call before (freeing.calls pool before.pm.mem) = some after

namespace FailedCommit

variable {manager : TransactionManager} {id : BitVec 64}

/-- The byte belongs to a freed object. -/
def InObject (commit : FailedCommit manager id) (address : Nat) : Prop :=
  ∃ p ∈ commit.freeing.objects commit.pool, p ≤ address ∧ address < p + commit.pool.size

/-- Calls that the commit may make up to its failure: some of those of the freeing function,
or all of them and then others, which do not store to the freed objects. -/
def MayRun (commit : FailedCommit manager id) (calls : List Call) : Prop :=
  ∃ later, calls <+: commit.freeing.calls commit.pool commit.before.pm.mem ++ later ∧
    ∀ address byte, Call.store address byte ∈ later → ¬ commit.InObject address

/-- What a failure can end in: an exception leads to a rollback; after a crash between any two
stores the slot is recovered. -/
inductive FailsTo (commit : FailedCommit manager id) : Pm → Prop
  | exception {calls : List Call} {last : Execution} (mayRun : commit.MayRun calls)
      (ran : run Execution.call commit.before calls = some last) :
      FailsTo commit
        (last.pm.applyAll (rollback last.pm last.tx.txHandle last.tx.jcur))
  | crash {calls : List Call} {last : Execution} (mayRun : commit.MayRun calls)
      (ran : run Execution.call commit.before calls = some last) {made : List Store}
      (inOrder : commit.before.stores ++ made <+: last.stores) :
      FailsTo commit
        ((commit.before.pm.applyAll made).applyAll
          (manager.recoverSlot (commit.before.pm.applyAll made) commit.slot))

/-- Every failure leaves the freed objects as they were before the transaction. -/
def Restores (commit : FailedCommit manager id) : Prop :=
  ∀ final, commit.FailsTo final → ∀ address, commit.InObject address →
    final.mem address = commit.start.mem address

/-- The value of a byte when it was first logged, or else after the calls. -/
def keptValue (address : Nat) : UInt8 → List Call → UInt8
  | value, [] => value
  | value, .log ptr len :: calls =>
      if ptr ≤ address ∧ address < ptr + len then value else keptValue address value calls
  | value, .store other byte :: calls =>
      keptValue address (if other = address then byte else value) calls

def isStore : Call → Bool
  | .log _ _ => false
  | .store _ _ => true

/-- The calls that count for what a rollback restores: it does not find the entries of an id
that does not fit the journal. -/
def effective (id : BitVec 64) (calls : List Call) : List Call :=
  if id.toNat < 2 ^ 56 then calls else calls.filter isStore

/-- Each byte of the freed objects that the transaction overwrote was logged before, and each
byte of their first words that gets another value by the links had been logged. -/
def Covered (commit : FailedCommit manager id) : Prop :=
  (∀ address, commit.InObject address →
    keptValue address (commit.start.mem address) (effective id commit.calls) =
      commit.start.mem address) ∧
  ∀ p link, (p, link) ∈ commit.freeing.overwritten commit.pool commit.before.pm.mem →
    ∀ offset byte, (encode 8 link)[offset]? = some byte →
      ¬ LoggedBy (effective id commit.calls) (p + offset) →
        byte = commit.start.mem (p + offset)

/-! ## Kept values -/

theorem keptValue_append_of_logged {calls : List Call} {address : Nat}
    (logged : LoggedBy calls address) (value : UInt8) (more : List Call) :
    keptValue address value (calls ++ more) = keptValue address value calls := by
  induction calls generalizing value with
  | nil =>
      obtain ⟨_, _, member, _⟩ := logged
      cases member
  | cons call calls ih =>
      obtain ⟨ptr, len, member, inside⟩ := logged
      cases call with
      | log first size =>
          rw [List.cons_append, keptValue, keptValue]
          split_ifs with here
          · rfl
          · rcases List.mem_cons.mp member with same | later
            · obtain ⟨rfl, rfl⟩ := Call.log.inj same
              exact absurd inside here
            · exact ih ⟨ptr, len, later, inside⟩ value
      | store other byte =>
          rw [List.cons_append, keptValue, keptValue]
          exact ih ⟨ptr, len, by simpa using member, inside⟩ _

theorem keptValue_append_of_not_logged {calls : List Call} {address : Nat}
    (notLogged : ¬ LoggedBy calls address) (value : UInt8) (more : List Call) :
    keptValue address value (calls ++ more) =
      keptValue address (keptValue address value calls) more := by
  induction calls generalizing value with
  | nil => rfl
  | cons call calls ih =>
      have rest : ¬ LoggedBy calls address := fun ⟨ptr, len, member, inside⟩ =>
        notLogged ⟨ptr, len, List.mem_cons_of_mem call member, inside⟩
      cases call with
      | log ptr len =>
          have outside : ¬ (ptr ≤ address ∧ address < ptr + len) := fun inside =>
            notLogged ⟨ptr, len, List.mem_cons_self, inside⟩
          rw [List.cons_append, keptValue, keptValue, if_neg outside, if_neg outside]
          exact ih rest value
      | store other byte =>
          rw [List.cons_append, keptValue, keptValue]
          exact ih rest _

/-- Stores that set a byte to the value that it has do not matter. -/
theorem keptValue_of_stores {calls : List Call} {address : Nat} {value : UInt8}
    (same : ∀ byte, Call.store address byte ∈ calls → byte = value) :
    keptValue address value calls = value := by
  induction calls with
  | nil => rfl
  | cons call calls ih =>
      have rest := ih fun byte member => same byte (List.mem_cons_of_mem call member)
      cases call with
      | log ptr len =>
          rw [keptValue, rest, ite_self]
      | store other byte =>
          rw [keptValue]
          split_ifs with here
          · subst here
            rw [same byte List.mem_cons_self, rest]
          · exact rest

theorem not_loggedBy_filter_isStore (calls : List Call) (address : Nat) :
    ¬ LoggedBy (calls.filter isStore) address := by
  rintro ⟨ptr, len, member, -⟩
  have kept := (List.mem_filter.mp member).2
  simp [isStore] at kept

theorem effective_append (id : BitVec 64) (first second : List Call) :
    effective id (first ++ second) = effective id first ++ effective id second := by
  unfold effective
  split_ifs
  · rfl
  · exact List.filter_append first second

theorem mem_of_mem_effective {calls : List Call} {call : Call}
    (member : call ∈ effective id calls) : call ∈ calls := by
  unfold effective at member
  split_ifs at member
  · exact member
  · exact List.mem_of_mem_filter member

/-! ## The log of a transaction that may store without logging -/

/-- The memory that a rollback leaves after some calls. -/
def outcome (id : BitVec 64) (start : Pm) (past : List Call) : Nat → UInt8 :=
  fun address => keptValue address (start.mem address) (effective id past)

/-- What undoing the whole log leaves after some calls. -/
def kept (start : Pm) (past : List Call) : Pm :=
  { start with mem := fun address => keptValue address (start.mem address) past }

/-- What holds of a transaction after the calls that it has made. -/
structure Tracks (start : Pm) (past : List Call) (execution : Execution) : Prop where
  undoable : Undoable (kept start past) (LoggedBy past) execution.tx execution.pm
  exact : ∀ address,
    Covers (images (execution.pm.journal execution.tx.txHandle.index) execution.tx.jcur)
      address → LoggedBy past address
  plain : execution.pm.mem = fun address =>
    keptValue address (start.mem address) (past.filter isStore)
  txTable : execution.pm.txTable = start.txTable
  room : execution.tx.jcur ≤ execution.tx.txHandle.jend

theorem loggedBy_concat_log {past : List Call} {ptr len address : Nat} :
    LoggedBy (past ++ [.log ptr len]) address ↔
      LoggedBy past address ∨ (ptr ≤ address ∧ address < ptr + len) := by
  simp only [LoggedBy, List.mem_append, List.mem_singleton, Call.log.injEq]
  constructor
  · rintro ⟨first, size, member | ⟨rfl, rfl⟩, inside⟩
    · exact .inl ⟨first, size, member, inside⟩
    · exact .inr inside
  · rintro (⟨first, size, member, inside⟩ | inside)
    · exact ⟨first, size, .inl member, inside⟩
    · exact ⟨ptr, len, .inr ⟨rfl, rfl⟩, inside⟩

theorem loggedBy_concat_store {past : List Call} {other address : Nat} {byte : UInt8} :
    LoggedBy (past ++ [.store other byte]) address ↔ LoggedBy past address := by
  simp [LoggedBy]

theorem kept_concat_log (start : Pm) (past : List Call) (ptr len : Nat) :
    kept start (past ++ [.log ptr len]) = kept start past := by
  unfold kept
  congr 1
  funext address
  by_cases logged : LoggedBy past address
  · exact keptValue_append_of_logged logged _ _
  · rw [keptValue_append_of_not_logged logged, keptValue, keptValue, ite_self]

/-- A piece of a range lies inside it. -/
theorem inside_of_mem_piecesFrom {ptr len full address : Nat} {piece : Nat × Nat}
    (member : piece ∈ piecesFrom full ptr len) (low : piece.1 ≤ address)
    (high : address < piece.1 + piece.2) :
    ptr ≤ address ∧ address < ptr + full * jeMaxLen + len % jeMaxLen := by
  induction full generalizing ptr with
  | zero =>
      obtain rfl := List.mem_singleton.mp member
      simp only at low high
      omega
  | succ full ih =>
      rw [Nat.add_mul]
      rcases List.mem_cons.mp member with rfl | rest
      · simp only at low high
        omega
      · have inside := ih rest
        omega

theorem isSome_image_iff {entry : JournalEntry} {address : Nat} :
    (entry.image address).isSome ↔
      entry.shape.1 ≤ address ∧ address < entry.shape.1 + entry.shape.2 := by
  unfold JournalEntry.image JournalEntry.shape
  split_ifs with inside
  · exact iff_of_true rfl inside
  · exact iff_of_false (by simp) inside

/-- A new entry only covers bytes of the range. -/
theorem inside_of_log {tx next : TransactionImpl} {pm : Pm} {ptr len je address : Nat}
    {stores : List Store} (accepted : tx.log pm.mem ptr len = .ok (next, stores))
    (low : tx.jcur ≤ je) (high : je < next.jcur)
    (covered : (((pm.applyAll stores).journal tx.txHandle.index je).image address).isSome) :
    ptr ≤ address ∧ address < ptr + len := by
  obtain ⟨-, rfl, rfl⟩ := log_eq_ok_iff.mp accepted
  have shapes := shapes_logEntries tx.txHandle pm (len / jeMaxLen) tx.jcur ptr len
  have isPiece : ((pm.applyAll (logEntries tx.txHandle pm.mem (len / jeMaxLen) tx.jcur ptr
      len)).journal tx.txHandle.index je).shape ∈ piecesFrom (len / jeMaxLen) ptr len := by
    rw [← shapes]
    rw [jeEntries_eq] at high
    refine List.mem_map.mpr ⟨je - tx.jcur, List.mem_range.mpr (by simp only at high; omega), ?_⟩
    rw [Nat.add_sub_cancel' low]
  obtain ⟨starts, ends⟩ := isSome_image_iff.mp covered
  have inside := inside_of_mem_piecesFrom isPiece starts ends
  have whole := Nat.div_add_mod' len jeMaxLen
  omega

namespace Tracks

variable {start : Pm} {past : List Call} {execution next : Execution}

theorem initially {execution : Execution} (begins : execution.tx.jcur = 0) :
    Tracks execution.pm [] execution where
  undoable := by
    have initially := @Undoable.initially execution.pm execution.tx begins
    exact ⟨initially.own, fun _ ⟨_, _, member, _⟩ => absurd member List.not_mem_nil,
      initially.undoes, initially.leftOver⟩
  exact address covered := by
    rw [begins] at covered
    obtain ⟨je, before, -⟩ := covers_images.mp covered
    exact absurd before (Nat.not_lt_zero je)
  plain := rfl
  txTable := rfl
  room := begins ▸ Nat.zero_le _

theorem log {ptr len : Nat} (tracks : Tracks start past execution)
    (called : execution.call (.log ptr len) = some next) :
    Tracks start (past ++ [.log ptr len]) next := by
  simp only [Execution.call] at called
  cases result : execution.tx.log execution.pm.mem ptr len with
  | error _ => simp [result] at called
  | ok pair =>
      obtain ⟨tx, stores⟩ := pair
      simp only [result, Option.some.injEq] at called
      subst called
      have extended := (extends_of_log result).1
      have logged := tracks.undoable.log result
      obtain ⟨fits, isTx, -⟩ := log_eq_ok_iff.mp result
      have sameHandle : tx.txHandle = execution.tx.txHandle := by rw [isTx]
      refine ⟨?_, ?_, ?_, extended.txTable.trans tracks.txTable, ?_⟩
      · rw [kept_concat_log]
        refine ⟨logged.own, fun address isLogged => ?_, logged.undoes, logged.leftOver⟩
        exact logged.covers address (loggedBy_concat_log.mp isLogged)
      · intro address covered
        rw [loggedBy_concat_log]
        obtain ⟨je, before, image⟩ := covers_images.mp covered
        rw [sameHandle] at image
        rcases Nat.lt_or_ge je execution.tx.jcur with old | new
        · rw [extended.earlier je old] at image
          exact .inl (tracks.exact address (covers_images.mpr ⟨je, old, image⟩))
        · exact .inr (inside_of_log result new before image)
      · rw [extended.mem, tracks.plain, List.filter_append]
        simp [isStore]
      · simp only [isTx]
        exact fits.le

theorem store {address : Nat} {byte : UInt8} (tracks : Tracks start past execution)
    (called : execution.call (.store address byte) = some next) :
    Tracks start (past ++ [.store address byte]) next := by
  obtain rfl := Option.some.inj called
  refine ⟨⟨tracks.undoable.own, fun other isLogged => ?_, ?_, tracks.undoable.leftOver⟩,
    fun other covered => loggedBy_concat_store.mpr (tracks.exact other covered), ?_,
    tracks.txTable, tracks.room⟩
  · exact tracks.undoable.covers other (loggedBy_concat_store.mp isLogged)
  · have undoes := tracks.undoable.undoes
    funext other
    have undone := congrFun undoes other
    simp only [kept] at undone ⊢
    by_cases logged : LoggedBy past other
    · rw [keptValue_append_of_logged logged, ← undone]
      exact undo_congr fun uncovered => absurd (tracks.undoable.covers other logged) uncovered
    · have uncovered : ¬ Covers (images (execution.pm.journal execution.tx.txHandle.index)
          execution.tx.jcur) other := fun covered => logged (tracks.exact other covered)
      rw [undo_of_not_covers _ uncovered] at undone
      rw [keptValue_append_of_not_logged logged, ← undone]
      simp only [Pm.apply]
      rw [undo_of_not_covers _ uncovered, Function.update_apply, keptValue, keptValue]
      simp only [eq_comm]
  · have single : [Call.store address byte].filter isStore = [Call.store address byte] := rfl
    simp only [Pm.apply]
    funext other
    rw [Function.update_apply, tracks.plain, List.filter_append, single,
      keptValue_append_of_not_logged (not_loggedBy_filter_isStore past other), keptValue,
      keptValue]
    simp only [eq_comm]

/-- One call. -/
theorem call {call : Call} (tracks : Tracks start past execution)
    (called : execution.call call = some next) : Tracks start (past ++ [call]) next := by
  cases call with
  | log ptr len => exact tracks.log called
  | store address byte => exact tracks.store called

theorem run {calls : List Call} (tracks : Tracks start past execution)
    (ran : LabelledRun.run Execution.call execution calls = some next) :
    Tracks start (past ++ calls) next ∧ next.tx.txHandle = execution.tx.txHandle := by
  induction calls generalizing execution past with
  | nil =>
      obtain rfl := Option.some.inj ran
      rw [List.append_nil]
      exact ⟨tracks, rfl⟩
  | cons call calls ih =>
      rw [run_cons, Option.bind_eq_some_iff] at ran
      obtain ⟨middle, called, rest⟩ := ran
      obtain ⟨later, sameHandle⟩ := ih (tracks.call called) rest
      rw [List.append_assoc] at later
      exact ⟨later, sameHandle.trans (call_txHandle called)⟩

end Tracks

/-! ## Failures -/

/-- A state between two stores: calls have been made, and perhaps a part of a log call. -/
def Reached (start : Pm) (handle : TransactionHandle) (past : List Call) (pm : Pm) : Prop :=
  InProgress (kept start past) handle pm ∧
    pm.mem = fun address => keptValue address (start.mem address) (past.filter isStore)

theorem Tracks.reached {start : Pm} {past : List Call} {execution : Execution}
    (tracks : Tracks start past execution) :
    Reached start execution.tx.txHandle past execution.pm :=
  ⟨⟨tracks.txTable, _, execution.tx, rfl, tracks.room, tracks.undoable⟩, tracks.plain⟩

/-- The stores of one call, cut off anywhere. -/
theorem Tracks.cut_call {start : Pm} {past : List Call} {execution next : Execution}
    {call : Call} (tracks : Tracks start past execution)
    (called : execution.call call = some next) :
    ∃ stores, next.stores = execution.stores ++ stores ∧
      next.pm = execution.pm.applyAll stores ∧
      ∀ cut, ∃ made, made <+: [call] ∧
        Reached start execution.tx.txHandle (past ++ made)
          (execution.pm.applyAll (stores.take cut)) := by
  have before : Reached start execution.tx.txHandle (past ++ []) execution.pm := by
    rw [List.append_nil]
    exact tracks.reached
  cases call with
  | log ptr len =>
      simp only [Execution.call] at called
      cases result : execution.tx.log execution.pm.mem ptr len with
      | error _ => simp [result] at called
      | ok pair =>
          obtain ⟨tx, stores⟩ := pair
          simp only [result, Option.some.injEq] at called
          subst called
          obtain ⟨fits, rfl, rfl⟩ := log_eq_ok_iff.mp result
          refine ⟨_, rfl, rfl, fun cut => ⟨[], List.nil_prefix, ?_⟩⟩
          obtain ⟨count, bounded, extended⟩ := extends_take_logEntries execution.tx.txHandle
            execution.pm (len / jeMaxLen) execution.tx.jcur ptr len cut
          rw [jeEntries_eq] at fits
          rw [List.append_nil]
          refine ⟨⟨extended.txTable.trans tracks.txTable, LoggedBy past,
            { execution.tx with jcur := execution.tx.jcur + count }, rfl, ?_,
            tracks.undoable.extend extended⟩, extended.mem.trans tracks.plain⟩
          simp only
          omega
  | store address byte =>
      have after := (tracks.store called).reached
      obtain rfl := Option.some.inj called
      refine ⟨[.inPlace address byte], rfl, rfl, fun cut => ?_⟩
      cases cut with
      | zero => exact ⟨[], List.nil_prefix, before⟩
      | succ cut =>
          rw [List.take_of_length_le (by simp)]
          exact ⟨_, List.prefix_rfl, after⟩

/-- The stores of a sequence of calls, cut off anywhere. -/
theorem Tracks.cut_run {start : Pm} {past : List Call} {execution last : Execution}
    {calls : List Call} (tracks : Tracks start past execution)
    (ran : LabelledRun.run Execution.call execution calls = some last) :
    ∃ stores, last.stores = execution.stores ++ stores ∧
      ∀ cut, ∃ made, made <+: calls ∧
        Reached start execution.tx.txHandle (past ++ made)
          (execution.pm.applyAll (stores.take cut)) := by
  induction calls generalizing execution past with
  | nil =>
      obtain rfl := Option.some.inj ran
      refine ⟨[], by simp, fun cut => ⟨[], List.prefix_rfl, ?_⟩⟩
      rw [List.append_nil, List.take_nil]
      exact tracks.reached
  | cons call calls ih =>
      rw [run_cons, Option.bind_eq_some_iff] at ran
      obtain ⟨next, called, rest⟩ := ran
      obtain ⟨first, firstStores, firstPm, firstCut⟩ := tracks.cut_call called
      obtain ⟨others, otherStores, otherCut⟩ := ih (tracks.call called) rest
      refine ⟨first ++ others, by rw [otherStores, firstStores, List.append_assoc],
        fun cut => ?_⟩
      rcases Nat.lt_or_ge cut first.length with short | whole
      · rw [List.take_append_of_le_length short.le]
        obtain ⟨made, isPrefix, reached⟩ := firstCut cut
        exact ⟨made, isPrefix.trans (List.prefix_append [call] calls), reached⟩
      · obtain ⟨made, isPrefix, reached⟩ := otherCut (cut - first.length)
        rw [List.append_assoc, call_txHandle called, firstPm, ← Pm.applyAll_append] at reached
        rw [List.take_append, List.take_of_length_le whole]
        exact ⟨call :: made, List.cons_prefix_cons.mpr ⟨rfl, isPrefix⟩, reached⟩

theorem images_zero (journal : Nat → JournalEntry) : images journal 0 = [] :=
  rfl

/-- Undoing the entries that the scan finds gives the outcome of the calls. -/
theorem undo_found {start pm : Pm} {past : List Call} {logged : Nat → Prop}
    {tx : TransactionImpl} (undoable : Undoable (kept start past) logged tx pm)
    (plain : pm.mem = fun address =>
      keptValue address (start.mem address) (past.filter isStore)) :
    undo (images (pm.journal tx.txHandle.index)
      (if tx.txHandle.id.toNat < 2 ^ 56 then tx.jcur else 0)) pm.mem =
        outcome tx.txHandle.id start past := by
  unfold outcome effective
  split_ifs with small
  · exact undoable.undoes
  · rw [images_zero, undo_nil, plain]

theorem mem_rollback {start : Pm} {past : List Call} {last : Execution}
    (tracks : Tracks start past last) :
    (last.pm.applyAll (rollback last.pm last.tx.txHandle last.tx.jcur)).mem =
      outcome last.tx.txHandle.id start past := by
  rw [rollback, validEntries_jcur tracks.undoable, applyAll_replay]
  exact undo_found tracks.undoable tracks.plain

theorem mem_recoverSlot {start pm : Pm} {past : List Call} {slot : Nat}
    (idle : ¬ Active id) (header : start.txTable slot = id ||| active)
    (leftOver : ∀ je < manager.jend, ¬ (start.journal slot je).Carries id)
    (reached : Reached start ⟨id, slot, manager.jend⟩ past pm) :
    (pm.applyAll (manager.recoverSlot pm slot)).mem = outcome id start past := by
  obtain ⟨⟨sameTable, logged, tx, sameHandle, room, undoable⟩, plain⟩ := reached
  have isHeader : pm.txTable slot = id ||| active := by rw [sameTable, kept, header]
  have found := undo_found undoable plain
  have valid := validEntries_eq_ite undoable room fun je before _ => by
    simp only [sameHandle] at before ⊢
    exact leftOver je before
  rw [sameHandle] at valid found
  rw [TransactionManager.mem_applyAll_recoverSlot, isHeader, if_pos (active_or id),
    TransactionManager.replayed, isHeader, clearActive_or idle]
  rw [← found, ← valid]

variable {commit : FailedCommit manager id}

theorem tracks_before (commit : FailedCommit manager id) :
    Tracks commit.start commit.calls commit.before ∧
      commit.before.tx.txHandle = ⟨id, commit.slot, manager.jend⟩ :=
  (Tracks.initially rfl).run commit.accepted

theorem MayRun.prefix_of {calls made : List Call} (mayRun : commit.MayRun calls)
    (isPrefix : made <+: calls) : commit.MayRun made := by
  obtain ⟨later, whole, off⟩ := mayRun
  exact ⟨later, isPrefix.trans whole, off⟩

/-- After a failure the memory is the outcome of the calls up to it. -/
theorem FailsTo.mem_eq {final : Pm} (fails : commit.FailsTo final) :
    ∃ calls, commit.MayRun calls ∧
      final.mem = outcome id commit.start (commit.calls ++ calls) := by
  obtain ⟨tracks, handle⟩ := commit.tracks_before
  cases fails with
  | @exception calls last mayRun ran =>
      obtain ⟨later, sameHandle⟩ := tracks.run ran
      refine ⟨calls, mayRun, ?_⟩
      rw [mem_rollback later, sameHandle, handle]
  | @crash calls last mayRun ran made inOrder =>
      obtain ⟨stores, isStores, cuts⟩ := tracks.cut_run ran
      rw [isStores, List.prefix_append_right_inj] at inOrder
      obtain ⟨past, isPrefix, reached⟩ := cuts made.length
      rw [← List.prefix_iff_eq_take.mp inOrder, handle] at reached
      exact ⟨past, mayRun.prefix_of isPrefix,
        mem_recoverSlot commit.idle commit.inUse commit.leftOver reached⟩

/-! ## What the freeing functions store -/

theorem store_mem_storeCalls {address place : Nat} {bytes : List UInt8} {byte : UInt8} :
    Call.store place byte ∈ storeCalls address bytes ↔
      ∃ offset, bytes[offset]? = some byte ∧ place = address + offset := by
  simp only [storeCalls, List.mem_map, Prod.exists, List.mem_zipIdx_iff_getElem?,
    Call.store.injEq]
  constructor
  · rintro ⟨byte, offset, isByte, rfl, rfl⟩
    exact ⟨offset, isByte, rfl⟩
  · rintro ⟨offset, isByte, rfl⟩
    exact ⟨byte, offset, isByte, rfl, rfl⟩

theorem log_not_mem_storeCalls {address ptr len : Nat} {bytes : List UInt8} :
    Call.log ptr len ∉ storeCalls address bytes := by
  simp [storeCalls]

theorem offset_lt_of_encode {value offset : Nat} {byte : UInt8}
    (isByte : (encode 8 value)[offset]? = some byte) : offset < 8 := by
  have inside := (List.getElem?_eq_some_iff.mp isByte).1
  rwa [length_encode] at inside

/-- The store writes a byte of the header, or a byte of a link. -/
theorem cases_of_store_mem_cleanFreeList {pool : Pool} {mem : Nat → UInt8} {list : List Nat}
    {address : Nat} {byte : UInt8}
    (member : Call.store address byte ∈ FailedCommit.cleanFreeList pool mem list) :
    (pool.header ≤ address ∧ address < pool.header + 24) ∨
      ∃ p link offset, (p, link) ∈ links (loadNat mem (pool.header + 8) 8) list ∧
        (encode 8 link)[offset]? = some byte ∧ address = p + offset := by
  simp only [FailedCommit.cleanFreeList, linkCalls, List.cons_append, List.mem_cons,
    List.mem_append, List.mem_flatMap, Prod.exists, store_mem_storeCalls, reduceCtorEq,
    false_or] at member
  rcases member with (⟨p, link, isLink, offset, isByte, rfl⟩ | ⟨offset, isByte, rfl⟩) |
    ⟨offset, isByte, rfl⟩
  · exact .inr ⟨p, link, offset, isLink, isByte, rfl⟩
  · have := offset_lt_of_encode isByte
    exact .inl (by omega)
  · have := offset_lt_of_encode isByte
    exact .inl (by omega)

theorem cases_of_store_mem {pool : Pool} {mem : Nat → UInt8} {freeing : Freeing}
    {address : Nat} {byte : UInt8} (member : Call.store address byte ∈ freeing.calls pool mem) :
    (pool.header ≤ address ∧ address < pool.header + 24) ∨
      ∃ p link offset, (p, link) ∈ freeing.overwritten pool mem ∧
        (encode 8 link)[offset]? = some byte ∧ address = p + offset := by
  cases freeing with
  | cleanFreeList list => exact cases_of_store_mem_cleanFreeList member
  | free p num =>
      simp only [Freeing.calls] at member
      by_cases atTail : endOf pool p num = loadNat mem pool.header 8
      · simp only [if_pos atTail, List.cons_append, List.mem_cons, List.mem_append,
          store_mem_storeCalls, reduceCtorEq, false_or] at member
        rcases member with ⟨offset, isByte, rfl⟩ | ⟨offset, isByte, rfl⟩ <;>
        · have := offset_lt_of_encode isByte
          exact .inl (by omega)
      · have notAtTail : ¬ (Freeing.free p num).AtTail pool mem := atTail
        rw [if_neg atTail] at member
        rw [Freeing.overwritten, if_neg notAtTail]
        exact cases_of_store_mem_cleanFreeList member

theorem store_mem_calls {pool : Pool} {mem : Nat → UInt8} {freeing : Freeing}
    {p link offset : Nat} {byte : UInt8} (written : (p, link) ∈ freeing.overwritten pool mem)
    (isByte : (encode 8 link)[offset]? = some byte) :
    Call.store (p + offset) byte ∈ freeing.calls pool mem := by
  have linked {list : List Nat}
      (isLink : (p, link) ∈ links (loadNat mem (pool.header + 8) 8) list) :
      Call.store (p + offset) byte ∈ FailedCommit.cleanFreeList pool mem list := by
    simp only [FailedCommit.cleanFreeList, linkCalls, List.cons_append, List.mem_cons,
      List.mem_append, List.mem_flatMap]
    exact .inr (.inl (.inl ⟨_, isLink, store_mem_storeCalls.mpr ⟨offset, isByte, rfl⟩⟩))
  cases freeing with
  | cleanFreeList list => exact linked written
  | free start num =>
      rw [Freeing.overwritten] at written
      split_ifs at written with atTail
      · cases written
      · have notAtTail : ¬ endOf pool start num = loadNat mem pool.header 8 := atTail
        rw [Freeing.calls, if_neg notAtTail]
        exact linked written

theorem log_inside_header {pool : Pool} {mem : Nat → UInt8} {freeing : Freeing}
    {ptr len : Nat} (member : Call.log ptr len ∈ freeing.calls pool mem) :
    pool.header ≤ ptr ∧ ptr + len ≤ pool.header + 24 := by
  have ofList {list : List Nat}
      (inList : Call.log ptr len ∈ FailedCommit.cleanFreeList pool mem list) :
      pool.header ≤ ptr ∧ ptr + len ≤ pool.header + 24 := by
    simp only [FailedCommit.cleanFreeList, linkCalls, List.cons_append, List.mem_cons,
      List.mem_append, List.mem_flatMap, log_not_mem_storeCalls, Call.log.injEq, and_false,
      exists_const, or_false] at inList
    omega
  cases freeing with
  | cleanFreeList list => exact ofList member
  | free p num =>
      rw [Freeing.calls] at member
      split_ifs at member with atTail
      · simp only [List.cons_append, List.mem_cons, List.mem_append, log_not_mem_storeCalls,
          Call.log.injEq, or_false, false_or] at member
        omega
      · exact ofList member

theorem map_fst_links (freePtr : Nat) (list : List Nat) :
    (links freePtr list).map Prod.fst = list := by
  induction list generalizing freePtr with
  | nil => rfl
  | cons p list ih => rw [links, List.map_cons, ih]

/-- The overwritten words are those of freed objects, each with one link. -/
theorem mem_objects_of_overwritten {pool : Pool} {mem : Nat → UInt8} {freeing : Freeing}
    {p link : Nat} (written : (p, link) ∈ freeing.overwritten pool mem) :
    p ∈ freeing.objects pool := by
  rw [Freeing.overwritten] at written
  split_ifs at written
  · cases written
  · rw [← map_fst_links (loadNat mem (pool.header + 8) 8) (freeing.objects pool)]
    exact List.mem_map_of_mem written

theorem link_unique {pool : Pool} {mem : Nat → UInt8} {freeing : Freeing}
    (nodup : (freeing.objects pool).Nodup) {p link other : Nat}
    (written : (p, link) ∈ freeing.overwritten pool mem)
    (also : (p, other) ∈ freeing.overwritten pool mem) : link = other := by
  rw [Freeing.overwritten] at written also
  split_ifs at written also
  · cases written
  · have distinct : ((links (loadNat mem (pool.header + 8) 8)
        (freeing.objects pool)).map Prod.fst).Nodup := by rwa [map_fst_links]
    exact congrArg Prod.snd (List.inj_on_of_nodup_map distinct written also rfl)

/-! ## When a failed commit restores the objects -/

theorem loggedBy_of_effective {calls : List Call} {address : Nat}
    (logged : LoggedBy (effective id calls) address) : LoggedBy calls address := by
  obtain ⟨ptr, len, member, inside⟩ := logged
  exact ⟨ptr, len, mem_of_mem_effective member, inside⟩

theorem store_mem_effective {calls : List Call} {address : Nat} {byte : UInt8}
    (member : Call.store address byte ∈ calls) :
    Call.store address byte ∈ effective id calls := by
  unfold effective
  split_ifs
  · exact member
  · exact List.mem_filter.mpr ⟨member, rfl⟩

/-- A byte that all stores set to one value, of which there are some, has it at the end. -/
theorem keptValue_of_stored {calls : List Call} {address : Nat} {byte : UInt8}
    (notLogged : ¬ LoggedBy calls address)
    (same : ∀ other, Call.store address other ∈ calls → other = byte)
    (stored : Call.store address byte ∈ calls) (value : UInt8) :
    keptValue address value calls = byte := by
  obtain ⟨before, after, rfl⟩ := List.append_of_mem stored
  have notBefore : ¬ LoggedBy before address := fun ⟨ptr, len, member, inside⟩ =>
    notLogged ⟨ptr, len, List.mem_append_left _ member, inside⟩
  rw [keptValue_append_of_not_logged notBefore, keptValue, if_pos rfl]
  exact keptValue_of_stores fun other member => same other
    (List.mem_append_right before (List.mem_cons_of_mem _ member))

theorem InObject.off_header {address : Nat} (inObject : commit.InObject address) :
    ¬ (commit.pool.header ≤ address ∧ address < commit.pool.header + 24) := by
  obtain ⟨p, isObject, low, high⟩ := inObject
  have := commit.offHeader p isObject
  omega

theorem inObject_of_overwritten {p link offset : Nat} {byte : UInt8}
    (written : (p, link) ∈ commit.freeing.overwritten commit.pool commit.before.pm.mem)
    (isByte : (encode 8 link)[offset]? = some byte) : commit.InObject (p + offset) := by
  have inWord := offset_lt_of_encode isByte
  have large := commit.pool.size_ge
  exact ⟨p, mem_objects_of_overwritten written, by omega, by omega⟩

/-- Words of different objects do not overlap, so that a byte belongs to one link. -/
theorem link_byte_unique {p other link otherLink offset otherOffset : Nat}
    {byte otherByte : UInt8}
    (written : (p, link) ∈ commit.freeing.overwritten commit.pool commit.before.pm.mem)
    (isByte : (encode 8 link)[offset]? = some byte)
    (also : (other, otherLink) ∈ commit.freeing.overwritten commit.pool commit.before.pm.mem)
    (isOther : (encode 8 otherLink)[otherOffset]? = some otherByte)
    (same : p + offset = other + otherOffset) : otherByte = byte := by
  have inWord := offset_lt_of_encode isByte
  have otherInWord := offset_lt_of_encode isOther
  have large := commit.pool.size_ge
  have samePlace : p = other := by
    by_contra different
    have := commit.apart p (mem_objects_of_overwritten written) other
      (mem_objects_of_overwritten also) different
    omega
  subst samePlace
  obtain rfl : offset = otherOffset := by omega
  obtain rfl := link_unique commit.nodup written also
  exact Option.some.inj (isOther.symm.trans isByte)

theorem covered_of_restores (restores : commit.Restores) : commit.Covered := by
  obtain ⟨tracks, handle⟩ := commit.tracks_before
  have value {calls : List Call} {last : Execution} (mayRun : commit.MayRun calls)
      (ran : LabelledRun.run Execution.call commit.before calls = some last) {address : Nat}
      (inObject : commit.InObject address) :
      outcome id commit.start (commit.calls ++ calls) address = commit.start.mem address := by
    obtain ⟨later, sameHandle⟩ := tracks.run ran
    have restored := restores _ (.exception mayRun ran) address inObject
    rwa [mem_rollback later, sameHandle, handle] at restored
  constructor
  · intro address inObject
    have atOnce := value ⟨[], List.nil_prefix, by simp⟩ (run_nil commit.before) inObject
    rwa [List.append_nil] at atOnce
  · intro p link written offset byte isByte notLogged
    have inObject := inObject_of_overwritten written isByte
    have restored := value ⟨[], by rw [List.append_nil], by simp⟩ commit.freed inObject
    rw [outcome, effective_append, keptValue_append_of_not_logged notLogged] at restored
    rw [← restored]
    refine (keptValue_of_stored (fun logged => ?_) (fun other stored => ?_)
      (store_mem_effective (store_mem_calls written isByte)) _).symm
    · obtain ⟨ptr, len, member, low, high⟩ := loggedBy_of_effective logged
      have := log_inside_header member
      exact inObject.off_header (by omega)
    · rcases cases_of_store_mem (mem_of_mem_effective stored) with inHeader |
        ⟨q, otherLink, otherOffset, also, isOther, same⟩
      · exact absurd inHeader inObject.off_header
      · exact link_byte_unique written isByte also isOther same

theorem restores_of_covered (covered : commit.Covered) : commit.Restores := by
  intro final fails address inObject
  obtain ⟨calls, ⟨later, isPrefix, off⟩, isFinal⟩ := fails.mem_eq
  have before := covered.1 address inObject
  rw [isFinal, outcome, effective_append]
  by_cases logged : LoggedBy (effective id commit.calls) address
  · rw [keptValue_append_of_logged logged, before]
  · rw [keptValue_append_of_not_logged logged, before]
    refine keptValue_of_stores fun byte stored => ?_
    rcases List.mem_append.mp (isPrefix.subset (mem_of_mem_effective stored)) with
      inFreeing | inLater
    · rcases cases_of_store_mem inFreeing with inHeader | ⟨p, link, offset, written, isByte, rfl⟩
      · exact absurd inHeader inObject.off_header
      · exact covered.2 p link written offset byte isByte logged
    · exact absurd inObject (off address byte inLater)

/-- A failed commit restores the freed objects exactly when the transaction had logged what it
overwrote in them, and the bytes that the links change. -/
theorem restores_iff (commit : FailedCommit manager id) : commit.Restores ↔ commit.Covered :=
  ⟨covered_of_restores, restores_of_covered⟩

/-- A pool with its header at 0 and its objects from 1024 to 4096, one of them in use. -/
def poolMemory : Nat → UInt8 := fun address =>
  if address = 1 then 16 else if address = 16 then 1 else if 1024 ≤ address then 8 else 0

/-- The memory of a transaction in slot 0. -/
def poolPm : Pm :=
  ⟨fun _ => 7 ||| active, fun _ _ => ⟨3, 0, 0, fun _ => 0⟩, poolMemory⟩

/-- A transaction frees the object at 1024 and logs nothing: its first word is not restored. -/
theorem freed_object_not_restored :
    ∃ commit : FailedCommit ⟨1, 8⟩ 7, commit.calls = [] ∧
      commit.freeing = .cleanFreeList [1024] ∧ ¬ commit.Restores := by
  obtain ⟨after, freed⟩ : ∃ after, run Execution.call ⟨⟨⟨7, 0, 8⟩, true, 0⟩, poolPm, []⟩
      ((Freeing.cleanFreeList [1024]).calls ⟨0, 64, by decide, by decide⟩ poolMemory) = some after :=
    ⟨_, rfl⟩
  have notCovered {commit : FailedCommit ⟨1, 8⟩ 7} (start : commit.start = poolPm)
      (noCalls : commit.calls = []) (pool : commit.pool = ⟨0, 64, by decide, by decide⟩)
      (freeing : commit.freeing = .cleanFreeList [1024])
      (before : commit.before.pm.mem = poolMemory) : ¬ commit.Covered := by
    intro covered
    have changed := covered.2 1024 1
    rw [freeing, pool, before] at changed
    have same := changed (by decide) 0 1 (by decide)
    rw [noCalls, start] at same
    exact absurd (same (by simp [effective, LoggedBy])) (by decide)
  refine ⟨⟨poolPm, 0, [], _, ⟨0, 64, by decide, by decide⟩, .cleanFreeList [1024], after, by decide, rfl,
    by decide, rfl, by decide, ?_, ?_, freed⟩, rfl, rfl, fun restores =>
      notCovered rfl rfl rfl rfl rfl (covered_of_restores restores)⟩
  · simp [Freeing.objects]
  · simp [Freeing.objects]

end FailedCommit

end Pmgd
