import Mathlib.Algebra.BigOperators.Fin
import Mathlib.Algebra.Order.BigOperators.Group.Finset
import Mathlib.Data.BitVec
import Mathlib.Data.Nat.Bitwise
import Mathlib.Tactic.Common
import Pmgd.Lib.LabelledRun

/-!
# Reader-writer lock

One 16-bit word holds the writer bit and the number of readers.  Threads change it by
fetch-and-add, bit test-and-set and masking, and look at it by plain loads; each of these
accesses is one step here, and the steps of different threads interleave freely.  A reader
that meets the writer bit takes its increment back; a writer sets the bit first and then waits
for the readers to leave; every wait gives up after a number of attempts.

What the calls that returned have given to a thread is kept beside the word, and the main
result is that the word accounts for it in every reachable state.
-/

namespace Pmgd

open LabelledRun

namespace RwLock

/-- `LOCK_READER_MASK`. -/
def lockReaderMask : BitVec 16 :=
  0x7fff

/-- `WRITE_LOCK`, the bit with the number `WRITER_LOCK_BIT`. -/
def writeLock : BitVec 16 :=
  1 <<< 15

/-- `READER_INCR`. -/
def readerIncr : BitVec 16 :=
  1

/-- `MAX_ATTEMPTS`. -/
def maxAttempts : Nat :=
  10

/-- What a thread has of the lock. -/
inductive Mode
  | none
  | read
  | write
  deriving DecidableEq, Repr

/-- The public functions. -/
inductive Call
  | readLock
  | readUnlock
  | writeLock
  | upgradeWriteLock
  | writeUnlock
  deriving DecidableEq, Repr

/-- The access to the word that a thread makes next, with its local `attempts`. -/
inductive Pc
  | idle
  /-- `xadd(_rw_lock, READER_INCR)` -/
  | readTry (attempts : Nat)
  /-- `xadd(_rw_lock, -READER_INCR)` after a writer was seen -/
  | readBack (attempts : Nat)
  /-- the loop that waits for the writer -/
  | readWait (attempts : Nat)
  | readDrop
  /-- `bts` -/
  | writeTry (attempts : Nat)
  /-- the loop that waits for the readers, with the bit set -/
  | writeReaders (attempts : Nat)
  /-- `atomic_and` in front of the exception -/
  | writeGiveUp
  | writeWait (attempts : Nat)
  | upgradeTry (attempts : Nat)
  | upgradeReaders (attempts : Nat)
  | upgradeGiveUp
  /-- `xadd` that ends the upgrade -/
  | upgradeRelease
  | upgradeWait (attempts : Nat)
  | writeDrop
  deriving DecidableEq, Repr

/-- A thread: what it has, what it had when its last call began, and whether that call threw
`LockTimeout`. -/
structure Local where
  held : Mode
  pc : Pc
  before : Mode
  timedOut : Bool
  deriving DecidableEq, Repr

namespace Local

def moveTo (thread : Local) (pc : Pc) : Local :=
  { thread with pc := pc }

/-- The call returns. -/
def returns (thread : Local) (held : Mode) : Local :=
  { thread with held := held, pc := .idle }

/-- The call throws `LockTimeout`. -/
def throws (thread : Local) : Local :=
  { thread with pc := .idle, timedOut := true }

/-- A call begins. -/
def start (thread : Local) (pc : Pc) : Local :=
  { thread with pc := pc, before := thread.held, timedOut := false }

@[simp]
theorem moveTo_held (thread : Local) (pc : Pc) : (thread.moveTo pc).held = thread.held :=
  rfl

@[simp]
theorem moveTo_pc (thread : Local) (pc : Pc) : (thread.moveTo pc).pc = pc :=
  rfl

@[simp]
theorem returns_held (thread : Local) (held : Mode) : (thread.returns held).held = held :=
  rfl

@[simp]
theorem returns_pc (thread : Local) (held : Mode) : (thread.returns held).pc = .idle :=
  rfl

@[simp]
theorem throws_held (thread : Local) : thread.throws.held = thread.held :=
  rfl

@[simp]
theorem throws_pc (thread : Local) : thread.throws.pc = .idle :=
  rfl

end Local

/-- The first access of a call. -/
def Call.entry : Call → Pc
  | .readLock => .readTry 0
  | .readUnlock => .readDrop
  | .writeLock => .writeTry 0
  | .upgradeWriteLock => .upgradeTry 0
  | .writeUnlock => .writeDrop

/-- The next access of a thread: the word and the thread after it. -/
def tick (word : BitVec 16) (thread : Local) : Option (BitVec 16 × Local) :=
  match thread.pc with
  | .idle => none
  | .readTry attempts =>
      if word &&& writeLock = 0 then some (word + readerIncr, thread.returns .read)
      else some (word + readerIncr, thread.moveTo (.readBack attempts))
  | .readBack attempts => some (word - readerIncr, thread.moveTo (.readWait attempts))
  | .readWait attempts =>
      if word &&& writeLock ≠ 0 then
        if attempts + 1 > maxAttempts then some (word, thread.throws)
        else some (word, thread.moveTo (.readWait (attempts + 1)))
      else some (word, thread.moveTo (.readTry attempts))
  | .readDrop => some (word - readerIncr, thread.returns .none)
  | .writeTry attempts =>
      if word &&& writeLock = 0 then
        some (word ||| writeLock, thread.moveTo (.writeReaders 0))
      else some (word, thread.moveTo (.writeWait attempts))
  | .writeReaders attempts =>
      if word &&& lockReaderMask ≠ 0 then
        if attempts + 1 > maxAttempts then some (word, thread.moveTo .writeGiveUp)
        else some (word, thread.moveTo (.writeReaders (attempts + 1)))
      else some (word, thread.returns .write)
  | .writeGiveUp => some (word &&& lockReaderMask, thread.throws)
  | .writeWait attempts =>
      if word &&& writeLock ≠ 0 then
        if attempts + 1 > maxAttempts then some (word, thread.throws)
        else some (word, thread.moveTo (.writeWait (attempts + 1)))
      else some (word, thread.moveTo (.writeTry attempts))
  | .upgradeTry attempts =>
      if word &&& writeLock = 0 then
        some (word ||| writeLock, thread.moveTo (.upgradeReaders 0))
      else some (word, thread.moveTo (.upgradeWait attempts))
  | .upgradeReaders attempts =>
      if (word &&& lockReaderMask) > 1 then
        if attempts + 1 > maxAttempts then some (word, thread.moveTo .upgradeGiveUp)
        else some (word, thread.moveTo (.upgradeReaders (attempts + 1)))
      else some (word, thread.moveTo .upgradeRelease)
  | .upgradeGiveUp => some (word &&& lockReaderMask, thread.throws)
  | .upgradeRelease => some (word - readerIncr, thread.returns .write)
  | .upgradeWait attempts =>
      if word &&& writeLock ≠ 0 then
        -- the post-increment gives the upgrade one attempt more
        if attempts > maxAttempts then some (word, thread.throws)
        else some (word, thread.moveTo (.upgradeWait (attempts + 1)))
      else some (word, thread.moveTo (.upgradeTry attempts))
  | .writeDrop => some (word &&& lockReaderMask, thread.returns .none)

/-- The assertion of the function at this access. -/
def Asserts (word : BitVec 16) : Pc → Prop
  | .readTry _ => word &&& lockReaderMask ≠ lockReaderMask
  | .readDrop => word &&& lockReaderMask ≠ 0
  | .writeDrop => word &&& writeLock ≠ 0
  | _ => True

instance (word : BitVec 16) (pc : Pc) : Decidable (Asserts word pc) := by
  unfold Asserts
  split <;> infer_instance

/-- The lock word and the threads. -/
structure State (Thread : Type*) where
  word : BitVec 16
  threads : Thread → Local

/-- A thread calls a function, or makes its next access to the word. -/
inductive Label (Thread : Type*)
  | call (thread : Thread) (function : Call)
  | tick (thread : Thread)
  deriving DecidableEq, Repr

variable {Thread : Type*}

/-- A new lock. -/
def initial : State Thread :=
  ⟨0, fun _ => ⟨.none, .idle, .none, false⟩⟩

section Step

variable [DecidableEq Thread]

def step (state : State Thread) : Label Thread → Option (State Thread)
  | .call thread function =>
      if (state.threads thread).pc = .idle then
        some { state with
          threads := Function.update state.threads thread
            ((state.threads thread).start function.entry) }
      else none
  | .tick thread =>
      (tick state.word (state.threads thread)).map fun (word, next) =>
        ⟨word, Function.update state.threads thread next⟩

end Step

/-- A thread unlocks and upgrades only what it has, and does not ask again for a read lock that
it has: the lock is not recursive. -/
def Disciplined (state : State Thread) : Label Thread → Prop
  | .call thread .readLock => (state.threads thread).held ≠ .read
  | .call _ .writeLock => True
  | .call thread .readUnlock | .call thread .upgradeWriteLock =>
      (state.threads thread).held = .read
  | .call thread .writeUnlock => (state.threads thread).held = .write
  | .tick _ => True

instance (state : State Thread) (label : Label Thread) : Decidable (Disciplined state label) := by
  unfold Disciplined
  split <;> infer_instance

/-- The thread is between its increment and the decrement that takes it back. -/
def Pc.IsTransient : Pc → Bool
  | .readBack _ => true
  | _ => false

/-- What is promised of a reachable state. -/
structure Safe [Fintype Thread] (state : State Thread) : Prop where
  exclusive : ∀ writer other, (state.threads writer).held = .write →
    (state.threads other).held ≠ .none → other = writer
  readerCount : (state.word &&& lockReaderMask).toNat =
    (Finset.univ.filter fun thread => (state.threads thread).held = .read).card +
      (Finset.univ.filter fun thread => (state.threads thread).pc.IsTransient).card
  timeoutRestores : ∀ thread, (state.threads thread).pc = .idle →
    (state.threads thread).timedOut → (state.threads thread).held =
      (state.threads thread).before
  quiescent : (∀ thread, (state.threads thread).held = .none ∧
    (state.threads thread).pc = .idle) → state.word = 0
  asserts : ∀ thread, Asserts state.word (state.threads thread).pc

/-! ## Accesses to the word -/

theorem toNat_and_lockReaderMask (word : BitVec 16) :
    (word &&& lockReaderMask).toNat = word.toNat % 2 ^ 15 := by
  rw [BitVec.toNat_and, show lockReaderMask.toNat = 2 ^ 15 - 1 from rfl,
    Nat.and_two_pow_sub_one_eq_mod]

theorem and_writeLock_eq_zero_iff (word : BitVec 16) :
    word &&& writeLock = 0 ↔ word.toNat < 2 ^ 15 := by
  have bound := word.isLt
  have masked : (word &&& writeLock).toNat = (word.toNat / 2 ^ 15 % 2) * 2 ^ 15 := by
    rw [BitVec.toNat_and, show writeLock.toNat = 2 ^ 15 from rfl, Nat.and_two_pow,
      Nat.testBit_eq_decide_div_mod_eq]
    rcases Nat.mod_two_eq_zero_or_one (word.toNat / 2 ^ 15) with clear | set
    · rw [clear]
      rfl
    · rw [set]
      rfl
  rw [← BitVec.toNat_inj, masked]
  simp only [BitVec.ofNat_eq_ofNat, BitVec.toNat_ofNat, Nat.zero_mod]
  omega

theorem toNat_or_writeLock {word : BitVec 16} (clear : word.toNat < 2 ^ 15) :
    (word ||| writeLock).toNat = word.toNat + 2 ^ 15 := by
  have disjoint := Nat.two_pow_add_eq_or_of_lt clear 1
  rw [Nat.mul_one] at disjoint
  rw [BitVec.toNat_or, show writeLock.toNat = 2 ^ 15 from rfl, Nat.or_comm, ← disjoint,
    Nat.add_comm]

theorem toNat_add_readerIncr {word : BitVec 16} (room : word.toNat + 1 < 2 ^ 16) :
    (word + readerIncr).toNat = word.toNat + 1 := by
  rw [BitVec.toNat_add, show readerIncr.toNat = 1 from rfl, Nat.mod_eq_of_lt room]

theorem toNat_sub_readerIncr {word : BitVec 16} (positive : 0 < word.toNat) :
    (word - readerIncr).toNat = word.toNat - 1 := by
  rw [BitVec.toNat_sub, show readerIncr.toNat = 1 from rfl]
  omega

/-! ## What an access does to the thread -/

/-- What a call is about to give to the thread. -/
def Pc.target : Pc → Mode
  | .idle | .readDrop | .writeDrop => .none
  | .readTry _ | .readBack _ | .readWait _ => .read
  | _ => .write

/-- A call goes on, gives up, or gives to the thread what it is for. -/
theorem tick_cases {word newWord : BitVec 16} {thread next : Local}
    (ticked : tick word thread = some (newWord, next)) :
    (next.pc ≠ .idle ∧ next.pc.target = thread.pc.target ∧ next = thread.moveTo next.pc ∧
        thread.pc ≠ .readDrop ∧ thread.pc ≠ .writeDrop) ∨
      (next = thread.throws ∧ thread.pc ≠ .readDrop ∧ thread.pc ≠ .writeDrop) ∨
      next = thread.returns thread.pc.target := by
  cases pc : thread.pc with
  | idle => simp [tick, pc] at ticked
  | readDrop | writeDrop | upgradeRelease =>
      simp only [tick, pc, Option.some.injEq, Prod.mk.injEq] at ticked
      exact .inr (.inr ticked.2.symm)
  | readBack attempts =>
      simp only [tick, pc, Option.some.injEq, Prod.mk.injEq] at ticked
      left
      rw [← ticked.2]
      simp [Pc.target]
  | writeGiveUp | upgradeGiveUp =>
      simp only [tick, pc, Option.some.injEq, Prod.mk.injEq] at ticked
      right
      left
      simp [ticked.2]
  | _ =>
      simp only [tick, pc] at ticked
      split_ifs at ticked
      all_goals
        obtain ⟨rfl, rfl⟩ := Prod.mk.inj (Option.some.inj ticked)
        simp [Pc.target]

/-! ## What a thread has put into the word -/

/-- The increments of a thread. -/
def Local.readers (thread : Local) : Nat :=
  (if thread.held = .read then 1 else 0) + (if thread.pc.IsTransient then 1 else 0)

/-- The thread has set the bit and not yet returned. -/
def Pc.OwnsBit : Pc → Bool
  | .writeReaders _ | .writeGiveUp | .upgradeReaders _ | .upgradeGiveUp
  | .upgradeRelease => true
  | _ => false

/-- The writer bits of a thread. -/
def Local.writers (thread : Local) : Nat :=
  (if thread.held = .write then 1 else 0) + (if thread.pc.OwnsBit then 1 else 0)

theorem Local.readers_congr {first second : Local} (held : first.held = second.held)
    (transient : first.pc.IsTransient = second.pc.IsTransient) :
    first.readers = second.readers := by
  rw [readers, readers, held, transient]

theorem Local.writers_congr {first second : Local} (held : first.held = second.held)
    (ownsBit : first.pc.OwnsBit = second.pc.OwnsBit) : first.writers = second.writers := by
  rw [writers, writers, held, ownsBit]

/-- What a thread has at the accesses of its calls. -/
def Pc.Requires : Pc → Mode → Prop
  | .readTry _, held | .readBack _, held | .readWait _, held => held ≠ .read
  | .readDrop, held | .upgradeTry _, held | .upgradeReaders _, held | .upgradeGiveUp, held
  | .upgradeRelease, held | .upgradeWait _, held => held = .read
  | .writeDrop, held => held = .write
  | _, _ => True

/-- All other readers have left: the thread writes, or is about to. -/
def Local.IsAlone (thread : Local) : Prop :=
  thread.held = .write ∨ thread.pc = .upgradeRelease

structure Local.Ok (thread : Local) : Prop where
  requires : thread.pc.Requires thread.held
  unchanged : thread.pc ≠ .idle → thread.before = thread.held ∧ thread.timedOut = false
  restored : thread.timedOut → thread.held = thread.before

section Sums

variable [Fintype Thread]

def readers (threads : Thread → Local) : Nat :=
  ∑ thread, (threads thread).readers

def writers (threads : Thread → Local) : Nat :=
  ∑ thread, (threads thread).writers

/-- The word accounts for the threads. -/
structure Invariant (state : State Thread) : Prop where
  word : state.word.toNat = 2 ^ 15 * writers state.threads + readers state.threads
  writers_le : writers state.threads ≤ 1
  readers_lt : readers state.threads < 2 ^ 15
  alone : ∀ thread other, (state.threads thread).IsAlone →
    (state.threads other).held = .read → other = thread
  ok : ∀ thread, (state.threads thread).Ok

theorem sum_update [DecidableEq Thread] (count : Local → Nat) (threads : Thread → Local)
    (thread : Thread) (next : Local) :
    (∑ other, count (Function.update threads thread next other)) + count (threads thread) =
      (∑ other, count (threads other)) + count next := by
  have rest : ∑ other ∈ Finset.univ.erase thread, count (Function.update threads thread next other)
      = ∑ other ∈ Finset.univ.erase thread, count (threads other) := by
    refine Finset.sum_congr rfl fun other member => ?_
    rw [Function.update_of_ne (Finset.ne_of_mem_erase member)]
  rw [← Finset.add_sum_erase _ _ (Finset.mem_univ thread), rest, Function.update_self,
    ← Finset.add_sum_erase _ (fun other => count (threads other)) (Finset.mem_univ thread)]
  omega

theorem le_sum (count : Local → Nat) (threads : Thread → Local) (thread : Thread) :
    count (threads thread) ≤ ∑ other, count (threads other) :=
  Finset.single_le_sum (f := fun other => count (threads other))
    (fun _ _ => Nat.zero_le _) (Finset.mem_univ thread)

/-- Two threads together. -/
theorem add_le_sum [DecidableEq Thread] (count : Local → Nat) (threads : Thread → Local)
    {thread other : Thread} (different : other ≠ thread) :
    count (threads thread) + count (threads other) ≤ ∑ third, count (threads third) := by
  rw [← Finset.add_sum_erase _ (fun third => count (threads third)) (Finset.mem_univ thread)]
  refine Nat.add_le_add_left ?_ _
  exact Finset.single_le_sum (f := fun third => count (threads third))
    (fun _ _ => Nat.zero_le _) (Finset.mem_erase.mpr ⟨different, Finset.mem_univ other⟩)

theorem Local.writers_pos_of_isAlone {thread : Local} (isAlone : thread.IsAlone) :
    1 ≤ thread.writers := by
  rcases isAlone with writes | releases
  · simp [writers, writes]
  · simp [writers, releases, Pc.OwnsBit]

/-- Without the writer bit nobody is alone. -/
theorem Invariant.not_isAlone {state : State Thread} (inv : Invariant state) (clear : state.word.toNat < 2 ^ 15)
    (other : Thread) : ¬ (state.threads other).IsAlone := by
  intro isAlone
  have one := Local.writers_pos_of_isAlone isAlone
  have all := le_sum Local.writers state.threads other
  have word := inv.word
  simp only [writers] at word
  omega

/-- A thread that owns the bit is the only one that has put it there. -/
theorem Invariant.held_ne_write {state : State Thread} (inv : Invariant state)
    {thread : Thread} (owns : (state.threads thread).pc.OwnsBit = true) :
    (state.threads thread).held ≠ .write := by
  intro writes
  have mine := le_sum Local.writers state.threads thread
  have oneWriter := inv.writers_le
  have two : (state.threads thread).writers = 2 := by
    simp [Local.writers, writes, owns]
  simp only [writers] at oneWriter
  omega

/-- The readers of the word after masking are the readers of the threads. -/
theorem Invariant.toNat_mask {state : State Thread} (inv : Invariant state) :
    (state.word &&& lockReaderMask).toNat = readers state.threads := by
  rw [toNat_and_lockReaderMask, inv.word, Nat.mul_add_mod, Nat.mod_eq_of_lt inv.readers_lt]

end Sums

/-! ## One access keeps the account -/

section Steps

variable [Fintype Thread] [DecidableEq Thread] {state : State Thread} {thread : Thread}

/-- What has to be checked when one thread and the word change. -/
theorem Invariant.update (inv : Invariant state) {word : BitVec 16} {next : Local}
    (account : word.toNat + 2 ^ 15 * (state.threads thread).writers +
        (state.threads thread).readers =
      state.word.toNat + 2 ^ 15 * next.writers + next.readers)
    (oneWriter : writers state.threads + next.writers ≤ 1 + (state.threads thread).writers)
    (room : readers state.threads + next.readers < 2 ^ 15 + (state.threads thread).readers)
    (becomesAlone : next.IsAlone → ∀ other, other ≠ thread →
      (state.threads other).held ≠ .read)
    (becomesReader : next.held = .read → ∀ other, other ≠ thread →
      ¬ (state.threads other).IsAlone)
    (ok : next.Ok) :
    Invariant ⟨word, Function.update state.threads thread next⟩ where
  word := by
    have sumWriters := sum_update Local.writers state.threads thread next
    have sumReaders := sum_update Local.readers state.threads thread next
    have before := inv.word
    simp only [writers, readers] at *
    omega
  writers_le := by
    have sumWriters := sum_update Local.writers state.threads thread next
    simp only [writers] at *
    omega
  readers_lt := by
    have sumReaders := sum_update Local.readers state.threads thread next
    simp only [readers] at *
    omega
  alone := by
    intro first second isAlone reads
    dsimp only at isAlone reads
    by_cases firstIs : first = thread
    · subst firstIs
      by_contra different
      rw [Function.update_self] at isAlone
      rw [Function.update_of_ne different] at reads
      exact becomesAlone isAlone second different reads
    · rw [Function.update_of_ne firstIs] at isAlone
      by_cases secondIs : second = thread
      · subst secondIs
        rw [Function.update_self] at reads
        exact absurd isAlone (becomesReader reads first firstIs)
      · rw [Function.update_of_ne secondIs] at reads
        exact inv.alone first second isAlone reads
  ok := by
    intro other
    dsimp only
    by_cases same : other = thread
    · rw [same, Function.update_self]
      exact ok
    · rw [Function.update_of_ne same]
      exact inv.ok other

/-- A step that changes neither the word nor what it stands for. -/
theorem Invariant.quiet (inv : Invariant state) {next : Local}
    (held : next.held = (state.threads thread).held)
    (transient : next.pc.IsTransient = (state.threads thread).pc.IsTransient)
    (ownsBit : next.pc.OwnsBit = (state.threads thread).pc.OwnsBit)
    (notRelease : next.pc ≠ .upgradeRelease) (ok : next.Ok) :
    Invariant ⟨state.word, Function.update state.threads thread next⟩ := by
  have sameReaders := Local.readers_congr held transient
  have sameWriters := Local.writers_congr held ownsBit
  have oneWriter := inv.writers_le
  have room := inv.readers_lt
  refine inv.update (by rw [sameReaders, sameWriters]) (by omega) (by omega) ?_ ?_ ok
  · intro isAlone other different reads
    have wasAlone : (state.threads thread).IsAlone :=
      .inl (held ▸ isAlone.resolve_right notRelease)
    exact different (inv.alone thread other wasAlone reads)
  · intro reads other different isAlone
    exact different (inv.alone other thread isAlone (held ▸ reads)).symm

/-- A thread in the middle of a call goes on. -/
theorem Local.Ok.moveTo {thread : Local} (ok : thread.Ok) (inCall : thread.pc ≠ .idle) {pc : Pc}
    (requires : pc.Requires thread.held) : (thread.moveTo pc).Ok where
  requires := requires
  unchanged := fun _ => ok.unchanged inCall
  restored := fun timedOut => by
    have := (ok.unchanged inCall).2
    simp [Local.moveTo, this] at timedOut

theorem Local.Ok.returns {thread : Local} (ok : thread.Ok) (inCall : thread.pc ≠ .idle)
    (held : Mode) : (thread.returns held).Ok where
  requires := trivial
  unchanged := fun isCall => absurd rfl isCall
  restored := fun timedOut => by
    have := (ok.unchanged inCall).2
    simp [Local.returns, this] at timedOut

theorem Local.Ok.throws {thread : Local} (ok : thread.Ok) (inCall : thread.pc ≠ .idle) :
    thread.throws.Ok where
  requires := trivial
  unchanged := fun isCall => absurd rfl isCall
  restored := fun _ => (ok.unchanged inCall).1.symm

variable (inv : Invariant state)
include inv

theorem Invariant.readTry {attempts : Nat}
    (pc : (state.threads thread).pc = .readTry attempts)
    (room : readers state.threads + 1 < 2 ^ 15) {word : BitVec 16} {next : Local}
    (ticked : tick state.word (state.threads thread) = some (word, next)) :
    Invariant ⟨word, Function.update state.threads thread next⟩ := by
  have ok := inv.ok thread
  have notReading : (state.threads thread).held ≠ .read := by
    simpa [pc, Pc.Requires] using ok.requires
  have inCall : (state.threads thread).pc ≠ .idle := by simp [pc]
  have oneWriter := inv.writers_le
  have wordIs := inv.word
  have incremented : (state.word + readerIncr).toNat = state.word.toNat + 1 :=
    toNat_add_readerIncr (by omega)
  have noReaders : (state.threads thread).readers = 0 := by
    simp [Local.readers, notReading, pc, Pc.IsTransient]
  simp only [tick, pc] at ticked
  split_ifs at ticked with clear
  · obtain ⟨rfl, rfl⟩ := Prod.mk.inj (Option.some.inj ticked)
    rw [and_writeLock_eq_zero_iff] at clear
    have mine := le_sum Local.writers state.threads thread
    have noWriter : (state.threads thread).writers = 0 := by
      simp only [writers] at wordIs
      omega
    have newReaders : ((state.threads thread).returns .read).readers = 1 := by
      simp [Local.readers, Pc.IsTransient]
    have newWriters : ((state.threads thread).returns .read).writers = 0 := by
      simp [Local.writers, Pc.OwnsBit]
    refine inv.update (by omega) (by omega) (by omega) ?_ ?_ (ok.returns inCall .read)
    · simp [Local.IsAlone]
    · exact fun _ other _ => inv.not_isAlone clear other
  · obtain ⟨rfl, rfl⟩ := Prod.mk.inj (Option.some.inj ticked)
    have newReaders : ((state.threads thread).moveTo (.readBack attempts)).readers = 1 := by
      simp [Local.readers, notReading, Pc.IsTransient]
    have newWriters : ((state.threads thread).moveTo (.readBack attempts)).writers =
        (state.threads thread).writers :=
      Local.writers_congr rfl (by simp [pc, Pc.OwnsBit])
    refine inv.update (by omega) (by omega) (by omega) ?_ ?_ (ok.moveTo inCall notReading)
    · intro isAlone other different reads
      have wasAlone : (state.threads thread).IsAlone := by
        simpa [Local.IsAlone, pc] using isAlone
      exact different (inv.alone thread other wasAlone reads)
    · exact fun reads => absurd reads notReading

theorem Invariant.readBack {attempts : Nat}
    (pc : (state.threads thread).pc = .readBack attempts) :
    Invariant ⟨state.word - readerIncr, Function.update state.threads thread
      ((state.threads thread).moveTo (.readWait attempts))⟩ := by
  have ok := inv.ok thread
  have notReading : (state.threads thread).held ≠ .read := by
    simpa [pc, Pc.Requires] using ok.requires
  have inCall : (state.threads thread).pc ≠ .idle := by simp [pc]
  have oneWriter := inv.writers_le
  have room := inv.readers_lt
  have wordIs := inv.word
  have oneReader : (state.threads thread).readers = 1 := by
    simp [Local.readers, notReading, pc, Pc.IsTransient]
  have mine := le_sum Local.readers state.threads thread
  have positive : 0 < state.word.toNat := by
    simp only [readers] at wordIs
    omega
  have decremented := toNat_sub_readerIncr positive
  have newReaders : ((state.threads thread).moveTo (.readWait attempts)).readers = 0 := by
    simp [Local.readers, notReading, Pc.IsTransient]
  have newWriters : ((state.threads thread).moveTo (.readWait attempts)).writers =
      (state.threads thread).writers :=
    Local.writers_congr rfl (by simp [pc, Pc.OwnsBit])
  refine inv.update (by omega) (by omega) (by omega) ?_ ?_ (ok.moveTo inCall notReading)
  · intro isAlone other different reads
    have wasAlone : (state.threads thread).IsAlone := by
      simpa [Local.IsAlone, pc] using isAlone
    exact different (inv.alone thread other wasAlone reads)
  · exact fun reads => absurd reads notReading

theorem Invariant.readDrop (pc : (state.threads thread).pc = .readDrop) :
    Invariant ⟨state.word - readerIncr, Function.update state.threads thread
      ((state.threads thread).returns .none)⟩ := by
  have ok := inv.ok thread
  have reading : (state.threads thread).held = .read := by
    simpa [pc, Pc.Requires] using ok.requires
  have inCall : (state.threads thread).pc ≠ .idle := by simp [pc]
  have oneWriter := inv.writers_le
  have room := inv.readers_lt
  have wordIs := inv.word
  have oneReader : (state.threads thread).readers = 1 := by
    simp [Local.readers, reading, pc, Pc.IsTransient]
  have noWriter : (state.threads thread).writers = 0 := by
    simp [Local.writers, reading, pc, Pc.OwnsBit]
  have mine := le_sum Local.readers state.threads thread
  have positive : 0 < state.word.toNat := by
    simp only [readers] at wordIs
    omega
  have decremented := toNat_sub_readerIncr positive
  have newReaders : ((state.threads thread).returns .none).readers = 0 := by
    simp [Local.readers, Pc.IsTransient]
  have newWriters : ((state.threads thread).returns .none).writers = 0 := by
    simp [Local.writers, Pc.OwnsBit]
  refine inv.update (by omega) (by omega) (by omega) ?_ ?_ (ok.returns inCall .none)
  · simp [Local.IsAlone]
  · simp

/-- Setting the free writer bit. -/
theorem Invariant.setBit (clear : state.word &&& writeLock = 0) {pc : Pc}
    (inCall : (state.threads thread).pc ≠ .idle)
    (oldTransient : (state.threads thread).pc.IsTransient = false)
    (ownsBit : pc.OwnsBit = true) (transient : pc.IsTransient = false)
    (notRelease : pc ≠ .upgradeRelease)
    (requires : pc.Requires (state.threads thread).held) :
    Invariant ⟨state.word ||| writeLock, Function.update state.threads thread
      ((state.threads thread).moveTo pc)⟩ := by
  rw [and_writeLock_eq_zero_iff] at clear
  have ok := inv.ok thread
  have wordIs := inv.word
  have room := inv.readers_lt
  have set := toNat_or_writeLock clear
  have mine := le_sum Local.writers state.threads thread
  have noWriter : (state.threads thread).writers = 0 := by
    simp only [writers] at wordIs
    omega
  have notWriting : (state.threads thread).held ≠ .write := by
    intro writes
    exact inv.not_isAlone clear thread (.inl writes)
  have newReaders : ((state.threads thread).moveTo pc).readers =
      (state.threads thread).readers :=
    Local.readers_congr rfl (by rw [Local.moveTo_pc, transient, oldTransient])
  have newWriters : ((state.threads thread).moveTo pc).writers = 1 := by
    simp [Local.writers, notWriting, ownsBit]
  refine inv.update (by omega) (by omega) (by omega) ?_ ?_ (ok.moveTo inCall requires)
  · intro isAlone
    exact absurd isAlone (by simp [Local.IsAlone, notWriting, notRelease])
  · exact fun _ other _ => inv.not_isAlone clear other

/-- Masking the bit out. -/
theorem Invariant.clearBit {next : Local}
    (oldWriters : (state.threads thread).writers = 1) (newWriters : next.writers = 0)
    (sameReaders : next.readers = (state.threads thread).readers)
    (becomesReader : next.held = .read → (state.threads thread).held = .read) (ok : next.Ok) :
    Invariant ⟨state.word &&& lockReaderMask, Function.update state.threads thread next⟩ := by
  have wordIs := inv.word
  have oneWriter := inv.writers_le
  have room := inv.readers_lt
  have mine := le_sum Local.writers state.threads thread
  have masked := toNat_and_lockReaderMask state.word
  have all : writers state.threads = 1 := by
    simp only [writers] at oneWriter ⊢
    omega
  have kept : (state.word &&& lockReaderMask).toNat = readers state.threads := by
    rw [masked, wordIs, Nat.mul_add_mod, Nat.mod_eq_of_lt room]
  refine inv.update (by omega) (by omega) (by omega) ?_ ?_ ok
  · intro isAlone
    have one := Local.writers_pos_of_isAlone isAlone
    omega
  · intro reads other different isAlone
    exact different (inv.alone other thread isAlone (becomesReader reads)).symm

/-- Giving up with the bit set. -/
theorem Invariant.giveUp (owns : (state.threads thread).pc.OwnsBit = true)
    (transient : (state.threads thread).pc.IsTransient = false) :
    Invariant ⟨state.word &&& lockReaderMask, Function.update state.threads thread
      (state.threads thread).throws⟩ := by
  have notWriting := inv.held_ne_write owns
  have inCall : (state.threads thread).pc ≠ .idle := by
    intro isIdle
    simp [isIdle, Pc.OwnsBit] at owns
  refine inv.clearBit ?_ ?_ ?_ (fun reads => reads) ((inv.ok thread).throws inCall)
  · simp [Local.writers, notWriting, owns]
  · simp [Local.writers, notWriting, Pc.OwnsBit]
  · exact Local.readers_congr rfl (by rw [Local.throws_pc, transient]; rfl)

theorem Invariant.writeDrop (pc : (state.threads thread).pc = .writeDrop) :
    Invariant ⟨state.word &&& lockReaderMask, Function.update state.threads thread
      ((state.threads thread).returns .none)⟩ := by
  have ok := inv.ok thread
  have writing : (state.threads thread).held = .write := by
    simpa [pc, Pc.Requires] using ok.requires
  refine inv.clearBit ?_ ?_ ?_ (by simp) (ok.returns (by simp [pc]) .none)
  · simp [Local.writers, writing, pc, Pc.OwnsBit]
  · simp [Local.writers, Pc.OwnsBit]
  · simp [Local.readers, writing, pc, Pc.IsTransient]

/-- The end of the wait for the readers. -/
theorem Invariant.writeReady {attempts : Nat}
    (pc : (state.threads thread).pc = .writeReaders attempts)
    (left : state.word &&& lockReaderMask = 0) :
    Invariant ⟨state.word, Function.update state.threads thread
      ((state.threads thread).returns .write)⟩ := by
  have ok := inv.ok thread
  have inCall : (state.threads thread).pc ≠ .idle := by simp [pc]
  have oneWriter := inv.writers_le
  have room := inv.readers_lt
  have notWriting : (state.threads thread).held ≠ .write :=
    inv.held_ne_write (by rw [pc]; rfl)
  have noReaders : readers state.threads = 0 := by
    rw [← inv.toNat_mask, left]
    rfl
  have nobodyReads (other : Thread) : (state.threads other).readers = 0 := by
    have one := le_sum Local.readers state.threads other
    simp only [readers] at noReaders
    omega
  have notReading (other : Thread) : (state.threads other).held ≠ .read := by
    intro reads
    have none := nobodyReads other
    simp [Local.readers, reads] at none
  have mine := nobodyReads thread
  have oldWriters : (state.threads thread).writers = 1 := by
    simp [Local.writers, notWriting, pc, Pc.OwnsBit]
  have newReaders : ((state.threads thread).returns .write).readers = 0 := by
    simp [Local.readers, Pc.IsTransient]
  have newWriters : ((state.threads thread).returns .write).writers = 1 := by
    simp [Local.writers, Pc.OwnsBit]
  refine inv.update (by omega) (by omega) (by omega) ?_ ?_ (ok.returns inCall .write)
  · exact fun _ other _ => notReading other
  · simp

/-- The end of the wait of an upgrade: only its own read lock is left. -/
theorem Invariant.upgradeReady {attempts : Nat}
    (pc : (state.threads thread).pc = .upgradeReaders attempts)
    (left : ¬ (state.word &&& lockReaderMask) > 1) :
    Invariant ⟨state.word, Function.update state.threads thread
      ((state.threads thread).moveTo .upgradeRelease)⟩ := by
  have ok := inv.ok thread
  have inCall : (state.threads thread).pc ≠ .idle := by simp [pc]
  have oneWriter := inv.writers_le
  have room := inv.readers_lt
  have reading : (state.threads thread).held = .read := by
    simpa [pc, Pc.Requires] using ok.requires
  have oneReader : readers state.threads ≤ 1 := by
    rw [← inv.toNat_mask]
    rw [gt_iff_lt, BitVec.lt_def, not_lt] at left
    exact left
  have mine : (state.threads thread).readers = 1 := by
    simp [Local.readers, reading, pc, Pc.IsTransient]
  have sameReaders : ((state.threads thread).moveTo .upgradeRelease).readers =
      (state.threads thread).readers :=
    Local.readers_congr rfl (by rw [pc]; rfl)
  have sameWriters : ((state.threads thread).moveTo .upgradeRelease).writers =
      (state.threads thread).writers :=
    Local.writers_congr rfl (by rw [pc]; rfl)
  refine inv.update (by omega) (by omega) (by omega) ?_ ?_ (ok.moveTo inCall reading)
  · intro _ other different reads
    have both := add_le_sum Local.readers state.threads different
    have one : 1 ≤ (state.threads other).readers := by
      simp [Local.readers, reads]
    simp only [readers] at oneReader
    omega
  · intro _ other different isAlone
    exact different (inv.alone other thread isAlone reading).symm

theorem Invariant.upgradeRelease (pc : (state.threads thread).pc = .upgradeRelease) :
    Invariant ⟨state.word - readerIncr, Function.update state.threads thread
      ((state.threads thread).returns .write)⟩ := by
  have ok := inv.ok thread
  have inCall : (state.threads thread).pc ≠ .idle := by simp [pc]
  have oneWriter := inv.writers_le
  have room := inv.readers_lt
  have wordIs := inv.word
  have reading : (state.threads thread).held = .read := by
    simpa [pc, Pc.Requires] using ok.requires
  have oldReaders : (state.threads thread).readers = 1 := by
    simp [Local.readers, reading, pc, Pc.IsTransient]
  have oldWriters : (state.threads thread).writers = 1 := by
    simp [Local.writers, reading, pc, Pc.OwnsBit]
  have mine := le_sum Local.readers state.threads thread
  have positive : 0 < state.word.toNat := by
    simp only [readers] at wordIs
    omega
  have decremented := toNat_sub_readerIncr positive
  have newReaders : ((state.threads thread).returns .write).readers = 0 := by
    simp [Local.readers, Pc.IsTransient]
  have newWriters : ((state.threads thread).returns .write).writers = 1 := by
    simp [Local.writers, Pc.OwnsBit]
  refine inv.update (by omega) (by omega) (by omega) ?_ ?_ (ok.returns inCall .write)
  · intro _ other different reads
    exact different (inv.alone thread other (.inr pc) reads)
  · simp

/-- A wait goes on, or ends without a change of the word. -/
theorem Invariant.wait (inCall : (state.threads thread).pc ≠ .idle) {pc : Pc}
    (transient : pc.IsTransient = (state.threads thread).pc.IsTransient)
    (ownsBit : pc.OwnsBit = (state.threads thread).pc.OwnsBit)
    (notRelease : pc ≠ .upgradeRelease)
    (requires : pc.Requires (state.threads thread).held) :
    Invariant ⟨state.word, Function.update state.threads thread
      ((state.threads thread).moveTo pc)⟩ :=
  inv.quiet rfl transient ownsBit notRelease ((inv.ok thread).moveTo inCall requires)

/-- Giving up without the bit. -/
theorem Invariant.throw (inCall : (state.threads thread).pc ≠ .idle)
    (transient : (state.threads thread).pc.IsTransient = false)
    (ownsBit : (state.threads thread).pc.OwnsBit = false) :
    Invariant ⟨state.word, Function.update state.threads thread
      (state.threads thread).throws⟩ :=
  inv.quiet rfl (by rw [transient]; rfl) (by rw [ownsBit]; rfl) (by simp)
    ((inv.ok thread).throws inCall)

/-- Every access keeps the account, as long as the count of the readers has room. -/
theorem Invariant.tick
    (room : ∀ attempts, (state.threads thread).pc = .readTry attempts →
      readers state.threads + 1 < 2 ^ 15)
    {word : BitVec 16} {next : Local}
    (ticked : RwLock.tick state.word (state.threads thread) = some (word, next)) :
    Invariant ⟨word, Function.update state.threads thread next⟩ := by
  have requires := (inv.ok thread).requires
  cases pc : (state.threads thread).pc with
  | idle => simp [RwLock.tick, pc] at ticked
  | readTry attempts => exact inv.readTry pc (room attempts pc) ticked
  | readBack attempts =>
      simp only [RwLock.tick, pc, Option.some.injEq, Prod.mk.injEq] at ticked
      obtain ⟨rfl, rfl⟩ := ticked
      exact inv.readBack pc
  | readDrop =>
      simp only [RwLock.tick, pc, Option.some.injEq, Prod.mk.injEq] at ticked
      obtain ⟨rfl, rfl⟩ := ticked
      exact inv.readDrop pc
  | writeDrop =>
      simp only [RwLock.tick, pc, Option.some.injEq, Prod.mk.injEq] at ticked
      obtain ⟨rfl, rfl⟩ := ticked
      exact inv.writeDrop pc
  | writeGiveUp | upgradeGiveUp =>
      simp only [RwLock.tick, pc, Option.some.injEq, Prod.mk.injEq] at ticked
      obtain ⟨rfl, rfl⟩ := ticked
      exact inv.giveUp (by rw [pc]; rfl) (by rw [pc]; rfl)
  | upgradeRelease =>
      simp only [RwLock.tick, pc, Option.some.injEq, Prod.mk.injEq] at ticked
      obtain ⟨rfl, rfl⟩ := ticked
      exact inv.upgradeRelease pc
  | readWait attempts | writeWait attempts | upgradeWait attempts =>
      rw [pc] at requires
      simp only [RwLock.tick, pc] at ticked
      split_ifs at ticked
      all_goals
        obtain ⟨rfl, rfl⟩ := Prod.mk.inj (Option.some.inj ticked)
      · exact inv.throw (by simp [pc]) (by rw [pc]; rfl) (by rw [pc]; rfl)
      · exact inv.wait (by simp [pc]) (by rw [pc]; rfl) (by rw [pc]; rfl) (by simp) requires
      · exact inv.wait (by simp [pc]) (by rw [pc]; rfl) (by rw [pc]; rfl) (by simp) requires
  | writeTry attempts | upgradeTry attempts =>
      rw [pc] at requires
      simp only [RwLock.tick, pc] at ticked
      split_ifs at ticked with clear
      all_goals
        obtain ⟨rfl, rfl⟩ := Prod.mk.inj (Option.some.inj ticked)
      · exact inv.setBit clear (by simp [pc]) (by rw [pc]; rfl) rfl rfl (by simp) requires
      · exact inv.wait (by simp [pc]) (by rw [pc]; rfl) (by rw [pc]; rfl) (by simp) requires
  | writeReaders attempts =>
      simp only [RwLock.tick, pc] at ticked
      split_ifs at ticked with stay late
      all_goals
        obtain ⟨rfl, rfl⟩ := Prod.mk.inj (Option.some.inj ticked)
      · exact inv.wait (by simp [pc]) (by rw [pc]; rfl) (by rw [pc]; rfl) (by simp) trivial
      · exact inv.wait (by simp [pc]) (by rw [pc]; rfl) (by rw [pc]; rfl) (by simp) trivial
      · exact inv.writeReady pc (not_not.mp stay)
  | upgradeReaders attempts =>
      rw [pc] at requires
      simp only [RwLock.tick, pc] at ticked
      split_ifs at ticked with stay late
      all_goals
        obtain ⟨rfl, rfl⟩ := Prod.mk.inj (Option.some.inj ticked)
      · exact inv.wait (by simp [pc]) (by rw [pc]; rfl) (by rw [pc]; rfl) (by simp) requires
      · exact inv.wait (by simp [pc]) (by rw [pc]; rfl) (by rw [pc]; rfl) (by simp) requires
      · exact inv.upgradeReady pc stay

/-- A call that the discipline permits. -/
theorem Invariant.call {function : Call}
    (disciplined : Disciplined state (.call thread function))
    (isIdle : (state.threads thread).pc = .idle) :
    Invariant ⟨state.word, Function.update state.threads thread
      ((state.threads thread).start function.entry)⟩ := by
  refine inv.quiet rfl ?_ ?_ ?_ ⟨?_, fun _ => ⟨rfl, rfl⟩, fun timedOut => by cases timedOut⟩
  · rw [isIdle]
    cases function <;> rfl
  · rw [isIdle]
    cases function <;> rfl
  · cases function <;> simp [Local.start, Call.entry]
  · cases function <;> exact disciplined

end Steps

/-! ## Every reachable state is safe -/

section Safety

variable [Fintype Thread]

theorem invariant_initial : Invariant (initial : State Thread) where
  word := by simp [initial, writers, readers, Local.writers, Local.readers, Pc.OwnsBit,
    Pc.IsTransient]
  writers_le := by simp [initial, writers, Local.writers, Pc.OwnsBit]
  readers_lt := by simp [initial, readers, Local.readers, Pc.IsTransient]
  alone := by simp [initial]
  ok := fun _ => ⟨trivial, fun inCall => absurd rfl inCall, fun timedOut => by cases timedOut⟩

/-- A thread stands for at most one reader. -/
theorem Local.Ok.readers_le {thread : Local} (ok : thread.Ok) : thread.readers ≤ 1 := by
  have requires := ok.requires
  by_cases reading : thread.held = .read
  · have settled : thread.pc.IsTransient = false := by
      cases pc : thread.pc with
      | readBack attempts =>
          rw [pc] at requires
          exact absurd reading requires
      | _ => rfl
    simp [Local.readers, reading, settled]
  · rw [Local.readers, if_neg reading, Nat.zero_add]
    split_ifs <;> omega

/-- A thread that is about to count itself is not counted yet. -/
theorem Invariant.readers_lt_card {state : State Thread} (inv : Invariant state)
    {thread : Thread} {attempts : Nat} (pc : (state.threads thread).pc = .readTry attempts) :
    readers state.threads < Fintype.card Thread := by
  have requires := (inv.ok thread).requires
  rw [pc] at requires
  have uncounted : (state.threads thread).readers = 0 := by
    simp [Local.readers, pc, Pc.IsTransient, show (state.threads thread).held ≠ .read from requires]
  calc readers state.threads < ∑ _other : Thread, 1 := by
        refine Finset.sum_lt_sum (fun other _ => (inv.ok other).readers_le)
          ⟨thread, Finset.mem_univ thread, ?_⟩
        omega
    _ = Fintype.card Thread := by simp

variable {state : State Thread} (inv : Invariant state)
include inv

theorem Invariant.exclusive {writer other : Thread}
    (writes : (state.threads writer).held = .write)
    (holds : (state.threads other).held ≠ .none) : other = writer := by
  cases held : (state.threads other).held with
  | none => exact absurd held holds
  | read => exact inv.alone writer other (.inl writes) held
  | write =>
      classical
      by_contra different
      have both := add_le_sum Local.writers state.threads different
      have first := Local.writers_pos_of_isAlone (.inl writes)
      have second := Local.writers_pos_of_isAlone (.inl held)
      have oneWriter := inv.writers_le
      simp only [writers] at oneWriter
      omega

theorem Invariant.readerCount : (state.word &&& lockReaderMask).toNat =
    (Finset.univ.filter fun thread => (state.threads thread).held = .read).card +
      (Finset.univ.filter fun thread => (state.threads thread).pc.IsTransient).card := by
  rw [inv.toNat_mask, Finset.card_filter, Finset.card_filter, ← Finset.sum_add_distrib]
  rfl

theorem Invariant.quiescent (quiet : ∀ thread, (state.threads thread).held = .none ∧
    (state.threads thread).pc = .idle) : state.word = 0 := by
  have noWriters : writers state.threads = 0 :=
    Finset.sum_eq_zero fun thread _ => by
      simp [Local.writers, (quiet thread).1, (quiet thread).2, Pc.OwnsBit]
  have noReaders : readers state.threads = 0 :=
    Finset.sum_eq_zero fun thread _ => by
      simp [Local.readers, (quiet thread).1, (quiet thread).2, Pc.IsTransient]
  refine BitVec.eq_of_toNat_eq ?_
  rw [inv.word, noWriters, noReaders]
  rfl

theorem Invariant.asserts (room : readers state.threads < 2 ^ 15 - 1 ∨
      ∀ thread attempts, (state.threads thread).pc ≠ .readTry attempts) (thread : Thread) :
    Asserts state.word (state.threads thread).pc := by
  have requires := (inv.ok thread).requires
  cases pc : (state.threads thread).pc with
  | readTry attempts =>
      intro full
      have count := inv.toNat_mask
      rw [full, show lockReaderMask.toNat = 2 ^ 15 - 1 from rfl] at count
      rcases room with few | none
      · omega
      · exact none thread attempts pc
  | readDrop =>
      rw [pc] at requires
      intro empty
      have count := inv.toNat_mask
      have one := le_sum Local.readers state.threads thread
      rw [empty] at count
      have mine : 1 ≤ (state.threads thread).readers := by
        simp [Local.readers, show (state.threads thread).held = .read from requires]
      simp only [readers, BitVec.ofNat_eq_ofNat, BitVec.toNat_ofNat, Nat.zero_mod] at count
      omega
  | writeDrop =>
      rw [pc] at requires
      intro clear
      rw [and_writeLock_eq_zero_iff] at clear
      exact inv.not_isAlone clear thread (.inl requires)
  | _ => exact trivial

end Safety

section Runs

variable [Fintype Thread] [DecidableEq Thread]

/-- A step keeps the account when a reader that counts itself finds room. -/
theorem Invariant.step {state next : State Thread} {label : Label Thread}
    (inv : Invariant state)
    (room : ∀ thread attempts, (state.threads thread).pc = .readTry attempts →
      readers state.threads + 1 < 2 ^ 15)
    (disciplined : Disciplined state label) (stepped : RwLock.step state label = some next) :
    Invariant next := by
  cases label with
  | call thread function =>
      rw [RwLock.step] at stepped
      split_ifs at stepped with isIdle
      obtain rfl := Option.some.inj stepped
      exact inv.call disciplined isIdle
  | tick thread =>
      rw [RwLock.step, Option.map_eq_some_iff] at stepped
      obtain ⟨⟨word, local'⟩, ticked, rfl⟩ := stepped
      exact inv.tick (fun attempts => room thread attempts) ticked

/-- The assertion of `read_lock` makes the room. -/
theorem Invariant.tick_of_asserts {state next : State Thread} {thread : Thread}
    (inv : Invariant state) (asserts : Asserts state.word (state.threads thread).pc)
    (stepped : RwLock.step state (.tick thread) = some next) : Invariant next := by
  rw [RwLock.step, Option.map_eq_some_iff] at stepped
  obtain ⟨⟨word, local'⟩, ticked, rfl⟩ := stepped
  refine inv.tick (fun attempts pc => ?_) ticked
  rw [pc] at asserts
  have notFull : readers state.threads ≠ 2 ^ 15 - 1 := by
    intro full
    refine asserts (BitVec.eq_of_toNat_eq ?_)
    rw [inv.toNat_mask, full]
    rfl
  have room := inv.readers_lt
  omega

/-- Every state that disciplined threads reach is safe. -/
theorem safe_of_run (few : Fintype.card Thread < 32767) {labels : List (Label Thread)}
    {state : State Thread} (disciplined : MeetsAlong step Disciplined initial labels)
    (ran : run step initial labels = some state) : Safe state := by
  have inv : Invariant state := by
    refine run_invariant Invariant ?_ invariant_initial disciplined ran
    intro state label next inv disciplined stepped
    refine inv.step (fun thread attempts pc => ?_) disciplined stepped
    have small := inv.readers_lt_card pc
    omega
  refine ⟨fun writer other => inv.exclusive, inv.readerCount,
    fun thread _ timedOut => (inv.ok thread).restored timedOut, inv.quiescent, ?_⟩
  refine inv.asserts ?_
  by_cases counting : ∃ thread attempts, (state.threads thread).pc = .readTry attempts
  · obtain ⟨thread, attempts, pc⟩ := counting
    have small := inv.readers_lt_card pc
    left
    omega
  · right
    intro thread attempts pc
    exact counting ⟨thread, attempts, pc⟩

end Runs

/-- Thread 1 sets the bit and gives up on the reader; then the reader upgrades its lock while
thread 2 counts itself and takes it back. -/
def upgradeRun : List (Label (Fin 3)) :=
  [.call 0 .readLock, .tick 0, .call 1 .writeLock] ++ List.replicate 13 (.tick 1) ++
    [.call 0 .upgradeWriteLock, .tick 0, .call 2 .readLock, .tick 2, .tick 0, .tick 2, .tick 0,
      .tick 0]

theorem safe_of_run_upgradeRun :
    ∃ state, run step initial upgradeRun = some state ∧
      (state.threads 0).held = .write ∧ (state.threads 1).timedOut = true ∧ Safe state := by
  have computed : (run step initial upgradeRun).map
      (fun state => ((state.threads 0).held, (state.threads 1).timedOut)) =
        some (.write, true) := by
    decide +kernel
  obtain ⟨state, ran, summary⟩ := Option.map_eq_some_iff.mp computed
  obtain ⟨writes, timedOut⟩ := Prod.mk.inj summary
  exact ⟨state, ran, writes, timedOut, safe_of_run (by simp) (by decide +kernel) ran⟩

end RwLock

end Pmgd
