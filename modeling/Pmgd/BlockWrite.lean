import Pmgd.FailedCommit

/-!
# Block writes and the keys of string indexes

`write(dst, src, len)` logs the source of the copy, not its destination.  A rollback then
restores a byte of the destination only if something else has logged it, or if the copy does
not change it.  The assignment of index strings uses this function for the part of a string
that is not inlined in the node, when both strings have the same length: this happens when a
removed key is replaced by its predecessor in the tree.
-/

namespace Pmgd

open ByteMemory LabelledRun FailedCommit

namespace IndexString

def prefixLen : Nat := 8

/-- `_remainder`, behind the prefix. -/
def remainder (mem : Memory) (key : Nat) : Nat :=
  loadNat mem (key + 8) 8

/-- `_len`. -/
def len (mem : Memory) (key : Nat) : Nat :=
  loadNat mem (key + 16) 4

/-- The full string of a key. -/
def read (mem : Memory) (key : Nat) : Nat × List UInt8 × List UInt8 :=
  (len mem key, load mem key prefixLen,
    if remainder mem key = 0 then []
    else load mem (remainder mem key) (len mem key - prefixLen))

/-- The bytes that hold the string of a key. -/
def Holds (mem : Memory) (key address : Nat) : Prop :=
  (key ≤ address ∧ address < key + 20) ∨
    remainder mem key ≠ 0 ∧ remainder mem key ≤ address ∧
      address < remainder mem key + (len mem key - prefixLen)

/-- Both strings have a remainder of the same length, or would have. -/
def CopiesInPlace (mem : Memory) (this istr : Nat) : Prop :=
  remainder mem this ≠ 0 ∧ len mem this = len mem istr

instance (mem : Memory) (this istr : Nat) : Decidable (CopiesInPlace mem this istr) :=
  inferInstanceAs (Decidable (_ ∧ _))

end IndexString

namespace BlockWrite

open IndexString

/-- `TransactionImpl::write(dst, src, len)`. -/
def writeCalls (mem : Memory) (dst src len : Nat) : List Call :=
  .log src len :: storeCalls dst (load mem src len)

/-- `IndexString::operator=`; `fresh` is what the allocator returns for a new remainder.  The
old remainder is freed at the commit only. -/
def assignCalls (mem : Memory) (this istr fresh : Nat) : List Call :=
  storeCalls this (load mem istr prefixLen) ++
    if CopiesInPlace mem this istr then
      writeCalls mem (remainder mem this) (remainder mem istr) (len mem this - prefixLen)
    else
      storeCalls (this + 16) (load mem (istr + 16) 4) ++
        if prefixLen < len mem istr then
          storeCalls (this + 8) (encode 8 fresh) ++
            storeCalls fresh (load mem (remainder mem istr) (len mem istr - prefixLen))
        else
          storeCalls (this + 8) (encode 8 0)

/-- The layout of a tree node with a string as its key and a list of objects as its value. -/
def nodeSize : Nat := 64

def keyOffset : Nat := 24

def valueOffset : Nat := 48

/-- `remove_recursive` logs the node, and copies the key and the value of the predecessor. -/
def replaceKeyCalls (mem : Memory) (curr toReplace fresh : Nat) : List Call :=
  .log curr nodeSize :: assignCalls mem (curr + keyOffset) (toReplace + keyOffset) fresh ++
    storeCalls (curr + valueOffset) (load mem (toReplace + valueOffset) 16)

/-- What a transaction does to the bytes of the graph: `assign` is what a caller stores to
memory that it has logged, and `writeNolog` goes to memory that it has just allocated. -/
inductive Operation
  | log (ptr len : Nat)
  | assign (ptr : Nat) (bytes : List UInt8)
  | writeNolog (dst src len : Nat)
  | write (dst src len : Nat)
  | replaceKey (curr toReplace fresh : Nat)
  deriving DecidableEq, Repr

def Operation.calls (mem : Memory) : Operation → List Call
  | .log ptr len => [.log ptr len]
  | .assign ptr bytes => storeCalls ptr bytes
  | .writeNolog dst src len => storeCalls dst (load mem src len)
  | .write dst src len => writeCalls mem dst src len
  | .replaceKey curr toReplace fresh => replaceKeyCalls mem curr toReplace fresh

/-- The new memory that an operation writes to without logging it. -/
def Operation.fresh (mem : Memory) : Operation → List (Nat × Nat)
  | .writeNolog dst _ len => [(dst, len)]
  | .replaceKey curr toReplace fresh =>
      if CopiesInPlace mem (curr + keyOffset) (toReplace + keyOffset) then []
      else [(fresh, len mem (toReplace + keyOffset) - prefixLen)]
  | _ => []

/-- A running transaction, the calls that it has made, and the memory that is new in it. -/
structure State where
  execution : Execution
  past : List Call
  fresh : List (Nat × Nat)

namespace State

def mem (state : State) : Memory :=
  state.execution.pm.mem

def id (state : State) : BitVec 64 :=
  state.execution.tx.txHandle.id

def IsFresh (state : State) (address : Nat) : Prop :=
  ∃ range ∈ state.fresh, range.1 ≤ address ∧ address < range.1 + range.2

/-- The transaction has logged the byte in an entry that a rollback finds. -/
def IsLogged (state : State) (address : Nat) : Prop :=
  LoggedBy (effective state.id state.past) address

/-- `none` is an exception. -/
def step (state : State) (operation : Operation) : Option State :=
  (run Execution.call state.execution (operation.calls state.mem)).map fun execution =>
    ⟨execution, state.past ++ operation.calls state.mem,
      state.fresh ++ operation.fresh state.mem⟩

/-- The memory after an abort. -/
def aborted (state : State) : Memory :=
  (state.execution.pm.applyAll
    (rollback state.execution.pm state.execution.tx.txHandle state.execution.tx.jcur)).mem

end State

/-- A transaction at its start. -/
structure Begun where
  execution : Execution
  begins : execution.tx.jcur = 0

namespace Begun

def state (begun : Begun) : State :=
  ⟨begun.execution, [], []⟩

def mem (begun : Begun) : Memory :=
  begun.execution.pm.mem

end Begun

/-- Two ranges do not overlap. -/
def Disjoint (first firstLen second secondLen : Nat) : Prop :=
  first + firstLen ≤ second ∨ second + secondLen ≤ first

/-- The operation does not throw, what a caller stores by itself goes to memory that it has
logged, and no copy overlaps its source.  A key's remainder lies outside of the node. -/
def Admissible (state : State) (operation : Operation) : Prop :=
  (∃ next, state.step operation = some next) ∧
    match operation with
    | .log _ _ | .writeNolog _ _ _ => True
    | .assign ptr bytes =>
        ∀ offset < bytes.length, state.IsLogged (ptr + offset) ∨ state.IsFresh (ptr + offset)
    | .write dst src len => Disjoint dst len src len
    | .replaceKey curr toReplace _ =>
        let this := curr + keyOffset
        let istr := toReplace + keyOffset
        let remaining := len state.mem this - prefixLen
        state.id.toNat < 2 ^ 56 ∧
          (CopiesInPlace state.mem this istr →
            Disjoint (remainder state.mem this) remaining curr nodeSize ∧
              Disjoint (remainder state.mem this) remaining
                (remainder state.mem istr) remaining)

variable (begun : Begun)

/-- A byte may be stored at the address: it has been logged, or does not change. -/
def Spared (state : State) (address : Nat) (byte : UInt8) : Prop :=
  state.IsFresh address ∨ state.IsLogged address ∨ byte = begun.mem address

/-- All bytes that a block write copies may be stored where it stores them. -/
def CopySpared (state : State) (dst src len : Nat) : Prop :=
  ∀ offset < len, Spared begun state (dst + offset) (state.mem (src + offset))

def OperationSpared (state : State) : Operation → Prop
  | .log _ _ | .assign _ _ | .writeNolog _ _ _ => True
  | .write dst src len => CopySpared begun state dst src len
  | .replaceKey curr toReplace _ =>
      let this := curr + keyOffset
      let istr := toReplace + keyOffset
      CopiesInPlace state.mem this istr →
        CopySpared begun state (remainder state.mem this) (remainder state.mem istr)
          (len state.mem this - prefixLen)

/-- An abort restores every byte that is not in new memory, and every string that the keys had
at the start. -/
structure Restored (state : State) : Prop where
  bytes : ∀ address, ¬ state.IsFresh address → state.aborted address = begun.mem address
  strings : ∀ key, (∀ address, Holds begun.mem key address → ¬ state.IsFresh address) →
    read state.aborted key = read begun.mem key

/-! ## What the operations store -/

theorem store_mem_storeCalls_load {mem : Memory} {dst src count address : Nat} {byte : UInt8} :
    Call.store address byte ∈ storeCalls dst (load mem src count) ↔
      ∃ offset < count, address = dst + offset ∧ byte = mem (src + offset) := by
  rw [store_mem_storeCalls]
  constructor
  · rintro ⟨offset, isByte, rfl⟩
    obtain ⟨inside, isByte⟩ := List.getElem?_eq_some_iff.mp isByte
    rw [length_load] at inside
    exact ⟨offset, inside, rfl, by simpa [load] using isByte.symm⟩
  · rintro ⟨offset, inside, rfl, rfl⟩
    exact ⟨offset, by simp [load, inside], rfl⟩

theorem inside_of_store_mem {ptr address : Nat} {bytes : List UInt8} {byte : UInt8}
    (member : Call.store address byte ∈ storeCalls ptr bytes) :
    ptr ≤ address ∧ address < ptr + bytes.length := by
  obtain ⟨offset, isByte, rfl⟩ := store_mem_storeCalls.mp member
  obtain ⟨inside, -⟩ := List.getElem?_eq_some_iff.mp isByte
  omega

/-- A replaced key is stored in the node and in new memory, or its remainder is copied. -/
theorem cases_of_store_mem_replaceKeyCalls {mem : Memory} {curr toReplace fresh address : Nat}
    {byte : UInt8}
    (member : Call.store address byte ∈ replaceKeyCalls mem curr toReplace fresh) :
    (curr ≤ address ∧ address < curr + nodeSize) ∨
      CopiesInPlace mem (curr + keyOffset) (toReplace + keyOffset) ∧
        Call.store address byte ∈ storeCalls (remainder mem (curr + keyOffset))
          (load mem (remainder mem (toReplace + keyOffset))
            (len mem (curr + keyOffset) - prefixLen)) ∨
      ¬ CopiesInPlace mem (curr + keyOffset) (toReplace + keyOffset) ∧
        fresh ≤ address ∧ address < fresh + (len mem (toReplace + keyOffset) - prefixLen) := by
  rw [replaceKeyCalls, List.cons_append, List.mem_cons, List.mem_append] at member
  rcases member with isLog | inKey | inValue
  · cases isLog
  · rw [assignCalls, List.mem_append] at inKey
    rcases inKey with inPrefix | inRest
    · have inside := inside_of_store_mem inPrefix
      rw [length_load] at inside
      simp only [keyOffset, prefixLen] at inside
      exact Or.inl (by simp only [nodeSize]; omega)
    · split_ifs at inRest with inPlace long
      · rw [writeCalls, List.mem_cons] at inRest
        rcases inRest with isLog | copied
        · cases isLog
        · exact Or.inr (Or.inl ⟨inPlace, copied⟩)
      · simp only [List.mem_append] at inRest
        rcases inRest with inLen | inPointer | inFresh
        · have inside := inside_of_store_mem inLen
          rw [length_load] at inside
          simp only [keyOffset] at inside
          exact Or.inl (by simp only [nodeSize]; omega)
        · have inside := inside_of_store_mem inPointer
          rw [length_encode] at inside
          simp only [keyOffset] at inside
          exact Or.inl (by simp only [nodeSize]; omega)
        · have inside := inside_of_store_mem inFresh
          rw [length_load] at inside
          exact Or.inr (Or.inr ⟨inPlace, inside⟩)
      · rw [List.mem_append] at inRest
        rcases inRest with inLen | inPointer
        · have inside := inside_of_store_mem inLen
          rw [length_load] at inside
          simp only [keyOffset] at inside
          exact Or.inl (by simp only [nodeSize]; omega)
        · have inside := inside_of_store_mem inPointer
          rw [length_encode] at inside
          simp only [keyOffset] at inside
          exact Or.inl (by simp only [nodeSize]; omega)
  · have inside := inside_of_store_mem inValue
    rw [length_load] at inside
    simp only [valueOffset] at inside
    exact Or.inl (by simp only [nodeSize]; omega)

/-- A key that is copied in place logs its node and the source of the copy only. -/
theorem log_mem_replaceKeyCalls {mem : Memory} {curr toReplace fresh ptr count : Nat}
    (inPlace : CopiesInPlace mem (curr + keyOffset) (toReplace + keyOffset))
    (member : Call.log ptr count ∈ replaceKeyCalls mem curr toReplace fresh) :
    (ptr = curr ∧ count = nodeSize) ∨
      (ptr = remainder mem (toReplace + keyOffset) ∧
        count = len mem (curr + keyOffset) - prefixLen) := by
  simpa [replaceKeyCalls, assignCalls, writeCalls, inPlace, log_not_mem_storeCalls] using member

theorem copy_mem_replaceKeyCalls {mem : Memory} {curr toReplace : Nat} (fresh : Nat)
    (inPlace : CopiesInPlace mem (curr + keyOffset) (toReplace + keyOffset)) {offset : Nat}
    (inside : offset < len mem (curr + keyOffset) - prefixLen) :
    Call.store (remainder mem (curr + keyOffset) + offset)
        (mem (remainder mem (toReplace + keyOffset) + offset)) ∈
      replaceKeyCalls mem curr toReplace fresh := by
  have copied : Call.store (remainder mem (curr + keyOffset) + offset)
      (mem (remainder mem (toReplace + keyOffset) + offset)) ∈
        storeCalls (remainder mem (curr + keyOffset))
          (load mem (remainder mem (toReplace + keyOffset))
            (len mem (curr + keyOffset) - prefixLen)) :=
    store_mem_storeCalls_load.mpr ⟨offset, inside, rfl, rfl⟩
  simp only [replaceKeyCalls, assignCalls, if_pos inPlace, writeCalls, List.mem_append,
    List.mem_cons, List.cons_append]
  exact Or.inr (Or.inl (Or.inr (Or.inr copied)))

/-! ## The strings of a memory -/

theorem load_eq_of_forall {memory other : Memory} {address count : Nat}
    (same : ∀ place, address ≤ place → place < address + count → memory place = other place) :
    load memory address count = load other address count :=
  load_congr fun offset inside => same (address + offset) (by omega) (by omega)

/-- A string depends on the bytes that hold it only. -/
theorem read_congr {memory other : Memory} {key : Nat}
    (same : ∀ address, Holds other key address → memory address = other address) :
    read memory key = read other key := by
  have inNode {offset count : Nat} (small : offset + count ≤ 20) :
      load memory (key + offset) count = load other (key + offset) count :=
    load_eq_of_forall fun place low high => same place (Or.inl (by omega))
  have sameLen : len memory key = len other key := by
    rw [len, len, loadNat, loadNat, inNode (by omega)]
  have sameRemainder : remainder memory key = remainder other key := by
    rw [remainder, remainder, loadNat, loadNat, inNode (by omega)]
  have samePrefix : load memory key prefixLen = load other key prefixLen := by
    have := @inNode 0 prefixLen (by decide)
    simpa using this
  rw [IndexString.read, IndexString.read, sameLen, sameRemainder, samePrefix]
  split_ifs with short
  · rfl
  · have sameRest : load memory (remainder other key) (len other key - prefixLen) =
        load other (remainder other key) (len other key - prefixLen) :=
      load_eq_of_forall fun place low high => same place (Or.inr ⟨short, low, high⟩)
    rw [sameRest]

/-! ## Runs -/

/-- What holds between operations that may be made. -/
structure Good (state : State) : Prop where
  tracks : Tracks begun.execution.pm state.past state.execution
  kept : ∀ address, ¬ state.IsFresh address →
    keptValue address (begun.mem address) (effective state.id state.past) = begun.mem address

variable {begun} {state next : State} {operation : Operation}

theorem step_eq_some (stepped : state.step operation = some next) :
    run Execution.call state.execution (operation.calls state.mem) = some next.execution ∧
      next.past = state.past ++ operation.calls state.mem ∧
      next.fresh = state.fresh ++ operation.fresh state.mem := by
  obtain ⟨execution, ran, rfl⟩ := Option.map_eq_some_iff.mp stepped
  exact ⟨ran, rfl, rfl⟩

theorem Good.step_tracks (good : Good begun state) (stepped : state.step operation = some next) :
    Tracks begun.execution.pm next.past next.execution ∧ next.id = state.id := by
  obtain ⟨ran, isPast, -⟩ := step_eq_some stepped
  obtain ⟨tracks, sameHandle⟩ := good.tracks.run ran
  rw [isPast, State.id, sameHandle]
  exact ⟨tracks, rfl⟩

theorem aborted_eq (tracks : Tracks begun.execution.pm state.past state.execution)
    (address : Nat) :
    state.aborted address =
      keptValue address (begun.mem address) (effective state.id state.past) := by
  rw [State.aborted, mem_rollback tracks]
  rfl

theorem Good.restored (good : Good begun state) : Restored begun state := by
  have bytes : ∀ address, ¬ state.IsFresh address → state.aborted address = begun.mem address :=
    fun address notFresh => (aborted_eq good.tracks address).trans (good.kept address notFresh)
  exact ⟨bytes, fun key outside =>
    read_congr fun address holds => bytes address (outside address holds)⟩

/-- Calls whose stores are spared keep what a rollback restores. -/
theorem keptValue_append_of_spared {past calls : List Call} {address : Nat} {value : UInt8}
    (kept : keptValue address value past = value)
    (spared : ∀ byte, Call.store address byte ∈ calls → LoggedBy past address ∨ byte = value) :
    keptValue address value (past ++ calls) = value := by
  by_cases logged : LoggedBy past address
  · rw [keptValue_append_of_logged logged, kept]
  · rw [keptValue_append_of_not_logged logged, kept]
    exact keptValue_of_stores fun byte stored => (spared byte stored).resolve_left logged

theorem Good.step (good : Good begun state) (admissible : Admissible state operation)
    (spared : OperationSpared begun state operation) (stepped : state.step operation = some next) :
    Good begun next := by
  obtain ⟨tracks, sameId⟩ := good.step_tracks stepped
  obtain ⟨-, isPast, isFresh⟩ := step_eq_some stepped
  refine ⟨tracks, fun address notFresh => ?_⟩
  obtain ⟨before, notNew⟩ : ¬ state.IsFresh address ∧
      ¬ ∃ range ∈ operation.fresh state.mem, range.1 ≤ address ∧ address < range.1 + range.2 := by
    simp only [State.IsFresh, isFresh, List.mem_append, or_and_right, exists_or, not_or]
      at notFresh
    exact notFresh
  have kept := good.kept address before
  rw [isPast, sameId, effective_append]
  have copySpared {dst src count : Nat} (all : CopySpared begun state dst src count)
      {byte : UInt8} (copied : Call.store address byte ∈ storeCalls dst (load state.mem src count)) :
      state.IsLogged address ∨ byte = begun.mem address := by
    obtain ⟨offset, inside, rfl, rfl⟩ := store_mem_storeCalls_load.mp copied
    exact (all offset inside).resolve_left before
  cases operation with
  | log ptr count =>
      refine keptValue_append_of_spared kept fun byte stored => ?_
      have member := mem_of_mem_effective stored
      simp [Operation.calls] at member
  | assign ptr bytes =>
      refine keptValue_append_of_spared kept fun byte stored => Or.inl ?_
      obtain ⟨low, high⟩ := inside_of_store_mem (mem_of_mem_effective stored)
      have logged := admissible.2 (address - ptr) (by omega)
      rw [Nat.add_sub_cancel' low] at logged
      exact logged.resolve_right before
  | writeNolog dst src count =>
      refine keptValue_append_of_spared kept fun byte stored => ?_
      have inside := inside_of_store_mem (mem_of_mem_effective stored)
      rw [length_load] at inside
      exact absurd ⟨(dst, count), by simp [Operation.fresh], inside⟩ notNew
  | write dst src count =>
      refine keptValue_append_of_spared kept fun byte stored => copySpared spared ?_
      rcases List.mem_cons.mp (mem_of_mem_effective stored) with isLog | copied
      · cases isLog
      · exact copied
  | replaceKey curr toReplace fresh =>
      obtain ⟨fits, apart⟩ := admissible.2
      -- the node is logged before anything is stored in it
      have split : effective state.id (replaceKeyCalls state.mem curr toReplace fresh) =
          .log curr nodeSize :: (replaceKeyCalls state.mem curr toReplace fresh).tail := by
        rw [effective, if_pos fits]
        rfl
      rw [Operation.calls, split, ← List.singleton_append, ← List.append_assoc]
      refine keptValue_append_of_spared ?_ fun byte stored => ?_
      · exact keptValue_append_of_spared kept (by simp)
      · rcases cases_of_store_mem_replaceKeyCalls (List.mem_of_mem_tail stored) with inNode |
          ⟨inPlace, copied⟩ | ⟨notInPlace, inFresh⟩
        · exact Or.inl ⟨curr, nodeSize, by simp, inNode⟩
        · rcases copySpared (spared inPlace) copied with ⟨ptr, count, member, inside⟩ | same
          · exact Or.inl ⟨ptr, count, List.mem_append_left _ member, inside⟩
          · exact Or.inr same
        · refine absurd ⟨(fresh, _), ?_, inFresh⟩ notNew
          simp [Operation.fresh, notInPlace]

/-- A byte that a copy changes and that nothing has logged is not restored. -/
theorem spared_of_restored (good : Good begun state) (stepped : state.step operation = some next)
    (restored : Restored begun next) {address : Nat} {byte : UInt8}
    (oldOnly : ¬ ∃ range ∈ operation.fresh state.mem,
      range.1 ≤ address ∧ address < range.1 + range.2)
    (notLogged : ¬ LoggedBy (operation.calls state.mem) address)
    (same : ∀ other, Call.store address other ∈ operation.calls state.mem → other = byte)
    (stored : Call.store address byte ∈ operation.calls state.mem) :
    Spared begun state address byte := by
  by_contra notSpared
  simp only [Spared, not_or] at notSpared
  obtain ⟨before, notBefore, changed⟩ := notSpared
  obtain ⟨tracks, sameId⟩ := good.step_tracks stepped
  obtain ⟨-, isPast, isFresh⟩ := step_eq_some stepped
  have notFresh : ¬ next.IsFresh address := by
    simp only [State.IsFresh, isFresh, List.mem_append, or_and_right, exists_or, not_or]
    exact ⟨before, oldOnly⟩
  have value := restored.bytes address notFresh
  rw [aborted_eq tracks, isPast, sameId, effective_append,
    keptValue_append_of_not_logged notBefore, good.kept address before] at value
  refine changed (Eq.trans (Eq.symm ?_) value)
  exact keptValue_of_stored (fun logged => notLogged (loggedBy_of_effective logged))
    (fun other member => same other (mem_of_mem_effective member)) (store_mem_effective stored) _

theorem Good.spared (good : Good begun state) (admissible : Admissible state operation)
    (stepped : state.step operation = some next) (restored : Restored begun next) :
    OperationSpared begun state operation := by
  cases operation with
  | log | assign | writeNolog => trivial
  | write dst src count =>
      intro offset inside
      have apart : Disjoint dst count src count := admissible.2
      refine spared_of_restored good stepped restored (by simp [Operation.fresh]) ?_ ?_ ?_
      · rintro ⟨ptr, size, member, within⟩
        simp only [Operation.calls, writeCalls, List.mem_cons, Call.log.injEq,
          log_not_mem_storeCalls, or_false] at member
        obtain ⟨rfl, rfl⟩ := member
        rcases apart with before | after <;> omega
      · intro other member
        rcases List.mem_cons.mp member with isLog | copied
        · cases isLog
        · obtain ⟨offset, -, samePlace, rfl⟩ := store_mem_storeCalls_load.mp copied
          rw [Nat.add_left_cancel samePlace]
      · exact List.mem_cons_of_mem _ (store_mem_storeCalls_load.mpr ⟨offset, inside, rfl, rfl⟩)
  | replaceKey curr toReplace fresh =>
      intro inPlace offset inside
      obtain ⟨-, apart⟩ := admissible.2
      obtain ⟨fromNode, fromSource⟩ := apart inPlace
      have outside : ¬ (curr ≤ remainder state.mem (curr + keyOffset) + offset ∧
          remainder state.mem (curr + keyOffset) + offset < curr + nodeSize) := by
        rcases fromNode with before | after <;> omega
      refine spared_of_restored good stepped restored (by simp [Operation.fresh, inPlace]) ?_ ?_
        (copy_mem_replaceKeyCalls fresh inPlace inside)
      · rintro ⟨ptr, size, member, within⟩
        rcases log_mem_replaceKeyCalls inPlace member with ⟨isPtr, isSize⟩ | ⟨isPtr, isSize⟩
        · rw [isPtr, isSize] at within
          exact outside within
        · rw [isPtr, isSize] at within
          rcases fromSource with before | after <;> omega
      · intro other member
        rcases cases_of_store_mem_replaceKeyCalls member with inNode | ⟨-, copied⟩ |
          ⟨notInPlace, -⟩
        · exact absurd inNode outside
        · obtain ⟨offset, -, samePlace, rfl⟩ := store_mem_storeCalls_load.mp copied
          rw [Nat.add_left_cancel samePlace]
        · exact absurd inPlace notInPlace

theorem good_begun (begun : Begun) : Good begun begun.state where
  tracks := Tracks.initially begun.begins
  kept address _ := by
    have none : effective begun.state.id begun.state.past = [] := by
      unfold effective
      split_ifs <;> rfl
    rw [none, keptValue]

/-- An abort after any prefix of a transaction restores the memory, and all strings of keys,
exactly when every block write copies to bytes that have been logged before it, or copies what
they were at the start. -/
theorem aborts_restore_iff (begun : Begun) (operations : List Operation)
    (admissible : MeetsAlong State.step Admissible begun.state operations) :
    (∀ before, before <+: operations →
        ∃ last, run State.step begun.state before = some last ∧ Restored begun last) ↔
      MeetsAlong State.step (OperationSpared begun) begun.state operations := by
  refine forall_prefix_iff_meetsAlong_of Admissible (fun _ => Good begun)
    (fun _ => Restored begun) (fun _ _ good => good.restored) ?_ ?_ [] (good_begun begun)
    operations admissible
  · intro _ state operation good admissible spared
    obtain ⟨next, stepped⟩ := admissible.1
    exact ⟨next, stepped, good.step admissible spared stepped⟩
  · intro _ state operation next good admissible stepped restored
    exact good.spared admissible stepped restored

/-- A string of eight bytes 97 and a remainder. -/
def storeKey (mem : Memory) (key remainder : Nat) (rest : List UInt8) : Memory :=
  store (store mem key (List.replicate 8 97 ++ encode 8 remainder ++ encode 4 (8 + rest.length)))
    remainder rest

/-- The node at 64 has the key at 88, and its predecessor at 128 the one at 152. -/
def twoKeys (rest predecessorRest : List UInt8) : Begun where
  execution := ⟨⟨⟨7, 0, 16⟩, true, 0⟩, ⟨fun _ => 0, fun _ _ => ⟨3, 1, 100, fun _ => 9⟩,
    storeKey (storeKey (fun _ => 0) 88 256 rest) 152 264 predecessorRest⟩, []⟩
  begins := rfl

/-- Keys of different lengths: the old remainder stays as it is. -/
theorem aborts_restore_iff_twoKeys :
    ∃ last, run State.step (twoKeys [98, 98] [98]).state [.replaceKey 64 128 512] = some last ∧
      Restored (twoKeys [98, 98] [98]) last := by
  have notInPlace : ¬ CopiesInPlace (twoKeys [98, 98] [98]).state.mem 88 152 := by
    decide +kernel
  have admissible : MeetsAlong State.step Admissible (twoKeys [98, 98] [98]).state
      [.replaceKey 64 128 512] :=
    ⟨⟨⟨_, rfl⟩, by decide, fun inPlace => absurd inPlace notInPlace⟩, fun _ _ => trivial⟩
  exact (aborts_restore_iff _ _ admissible).mpr
    ⟨fun inPlace => absurd inPlace notInPlace, fun _ _ => trivial⟩ _ List.prefix_rfl

/-- Keys of one length: an abort leaves the string of the predecessor in the node. -/
theorem abort_loses_string :
    ∃ last, run State.step (twoKeys [98, 98] [97, 97]).state [.replaceKey 64 128 512] =
        some last ∧
      read (twoKeys [98, 98] [97, 97]).mem 88 = (10, List.replicate 8 97, [98, 98]) ∧
      read last.aborted 88 = (10, List.replicate 8 97, [97, 97]) :=
  ⟨_, rfl, by decide +kernel, by decide +kernel⟩

end BlockWrite

end Pmgd
