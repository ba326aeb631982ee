import Mathlib.Data.List.Nodup
import Mathlib.Tactic.Common
import Pmgd.RwLock

/-!
# Locks of transactions

Every transaction keeps a map from the stripes of a striped lock to what it thinks it has of
them.  `acquire_lock` inserts the entry first and takes the lock afterwards, so that the entry
of a call that times out stays behind with `LockNotFound`; the next call for that stripe takes
the entry for a lock.  The accesses of different transactions to the lock words interleave.
-/

namespace Pmgd

open LabelledRun

namespace TransactionLocks

/-- `LockState`, the values of the map. -/
inductive LockState
  | lockNotFound
  | readLock
  | writeLock
  deriving DecidableEq, Repr

/-- `StripedLock`: the shift and the mask of the stripe numbers. -/
structure StripedLock where
  shift : Nat
  maskbits : Nat
  deriving DecidableEq, Repr

def StripedLock.getStripeId (lock : StripedLock) (addr : Nat) : Nat :=
  addr >>> lock.shift &&& lock.maskbits

/-- `LockStatusMap`; the entries have different stripes. -/
abbrev LockStatusMap := List (Nat × LockState)

/-- `it->second = status` for the entry of a stripe. -/
def setStatus (map : LockStatusMap) (stripe : Nat) (status : LockState) : LockStatusMap :=
  map.map fun entry => if entry.1 = stripe then (stripe, status) else entry

/-- What a transaction is doing. -/
inductive Pending
  | none
  /-- inside `read_lock`, `write_lock` or `upgrade_lock` of the stripe -/
  | acquiring (stripe : Nat) (write : Bool)
  /-- in the loop of `unlock_all`, inside the unlock of the first of the entries left -/
  | unlocking (entries : LockStatusMap)
  deriving DecidableEq, Repr

/-- How the last call of a transaction ended. -/
inductive Result
  | none
  | acquired (stripe : Nat) (write : Bool)
  | timedOut
  | unlockedAll
  deriving DecidableEq, Repr

/-- `TransactionImpl::Locks` of one transaction. -/
structure Locks where
  mylocks : LockStatusMap
  pending : Pending
  result : Result
  deriving DecidableEq, Repr

variable {Tx : Type*}

/-- The lock of each stripe, and the locks of each transaction. -/
structure State (Tx : Type*) where
  mainlock : Nat → RwLock.State Tx
  locks : Tx → Locks

/-- Calls of a transaction, and one more access of its call to the lock word.  The order in
which `unlock_all` visits the entries is not specified. -/
inductive Label (Tx : Type*)
  | acquireLock (tx : Tx) (addr : Nat) (write : Bool)
  | tick (tx : Tx)
  | unlockAll (tx : Tx) (order : LockStatusMap)
  deriving DecidableEq, Repr

def initial : State Tx :=
  ⟨fun _ => RwLock.initial, fun _ => ⟨[], .none, .none⟩⟩

section Step

variable [DecidableEq Tx]

/-- One access to the lock of a stripe. -/
def State.lockStep (state : State Tx) (stripe : Nat) (label : RwLock.Label Tx) :
    Option (State Tx) :=
  (RwLock.step (state.mainlock stripe) label).map fun lock =>
    { state with mainlock := Function.update state.mainlock stripe lock }

def State.setLocks (state : State Tx) (tx : Tx) (locks : Locks) : State Tx :=
  { state with locks := Function.update state.locks tx locks }

/-- The loop of `unlock_all` up to the next lock function. -/
def State.unlockNext (state : State Tx) (tx : Tx) : LockStatusMap → Option (State Tx)
  | [] => some (state.setLocks tx ⟨[], .none, .unlockedAll⟩)
  | (stripe, status) :: entries =>
      match status with
      | .writeLock =>
          (state.lockStep stripe (.call tx .writeUnlock)).map fun next =>
            next.setLocks tx
              ⟨(state.locks tx).mylocks, .unlocking ((stripe, status) :: entries), .none⟩
      | .readLock =>
          (state.lockStep stripe (.call tx .readUnlock)).map fun next =>
            next.setLocks tx
              ⟨(state.locks tx).mylocks, .unlocking ((stripe, status) :: entries), .none⟩
      | .lockNotFound => state.unlockNext tx entries

/-- `Locks::acquire_lock` up to the call of a lock function. -/
def State.acquireLock (state : State Tx) (tx : Tx) (stripe : Nat) (write : Bool) :
    Option (State Tx) :=
  match (state.locks tx).mylocks.lookup stripe with
  | some status =>
      if write = true ∧ status ≠ .writeLock then
        (state.lockStep stripe (.call tx .upgradeWriteLock)).map fun next =>
          next.setLocks tx ⟨(state.locks tx).mylocks, .acquiring stripe write, .none⟩
      else
        some (state.setLocks tx ⟨(state.locks tx).mylocks, .none, .acquired stripe write⟩)
  | none =>
      (state.lockStep stripe (.call tx (if write then .writeLock else .readLock))).map
        fun next =>
          next.setLocks tx
            ⟨(stripe, .lockNotFound) :: (state.locks tx).mylocks, .acquiring stripe write,
              .none⟩

/-- The rest of `acquire_lock` when the lock function has returned or thrown. -/
def State.acquireEnd (state : State Tx) (tx : Tx) (stripe : Nat) (write : Bool) : State Tx :=
  if ((state.mainlock stripe).threads tx).timedOut then
    state.setLocks tx ⟨(state.locks tx).mylocks, .none, .timedOut⟩
  else
    state.setLocks tx
      ⟨setStatus (state.locks tx).mylocks stripe (if write then .writeLock else .readLock),
        .none, .acquired stripe write⟩

/-- The next access to a lock word; a failing assertion ends the program. -/
def State.access (state : State Tx) (tx : Tx) (stripe : Nat) : Option (State Tx) :=
  if RwLock.Asserts (state.mainlock stripe).word ((state.mainlock stripe).threads tx).pc then
    state.lockStep stripe (.tick tx)
  else none

def step (lock : StripedLock) (state : State Tx) : Label Tx → Option (State Tx)
  | .acquireLock tx addr write =>
      if (state.locks tx).pending = .none then
        state.acquireLock tx (lock.getStripeId addr) write
      else none
  | .tick tx =>
      match (state.locks tx).pending with
      | .none => none
      | .acquiring stripe write =>
          (state.access tx stripe).map fun next =>
            if ((next.mainlock stripe).threads tx).pc = .idle then
              next.acquireEnd tx stripe write
            else next
      | .unlocking [] => none
      | .unlocking ((stripe, _) :: entries) =>
          (state.access tx stripe).bind fun next =>
            if ((next.mainlock stripe).threads tx).pc = .idle then next.unlockNext tx entries
            else some next
  | .unlockAll tx order =>
      if (state.locks tx).pending = .none ∧ order.Perm (state.locks tx).mylocks then
        state.unlockNext tx order
      else none

end Step

/-- What a transaction really has of a stripe. -/
def State.held (state : State Tx) (tx : Tx) (stripe : Nat) : RwLock.Mode :=
  ((state.mainlock stripe).threads tx).held

/-- The map and the locks agree. -/
structure Agrees [Fintype Tx] (state : State Tx) : Prop where
  acquired : ∀ tx stripe write, (state.locks tx).result = .acquired stripe write →
    state.held tx stripe = .write ∨ state.held tx stripe = .read ∧ write = false
  recorded : ∀ tx, (∀ entries, (state.locks tx).pending ≠ .unlocking entries) → ∀ stripe,
    (state.held tx stripe = .read ↔
      (state.locks tx).mylocks.lookup stripe = some .readLock) ∧
    (state.held tx stripe = .write ↔
      (state.locks tx).mylocks.lookup stripe = some .writeLock)
  exclusive : ∀ stripe writer other, state.held writer stripe = .write →
    state.held other stripe ≠ .none → other = writer
  unlocksOwn : ∀ tx stripe,
    (((state.mainlock stripe).threads tx).pc = .readDrop → state.held tx stripe = .read) ∧
    (((state.mainlock stripe).threads tx).pc = .writeDrop → state.held tx stripe = .write)
  unlockedAll : ∀ tx, (state.locks tx).result = .unlockedAll → ∀ stripe,
    state.held tx stripe = .none
  readerCount : ∀ stripe, ((state.mainlock stripe).word &&& RwLock.lockReaderMask).toNat =
    (Finset.univ.filter fun tx => state.held tx stripe = .read).card +
      (Finset.univ.filter fun tx =>
        ((state.mainlock stripe).threads tx).pc.IsTransient).card

/-- No call for a stripe on which the first call of the transaction has timed out. -/
def NotAbandoned (lock : StripedLock) (state : State Tx) : Label Tx → Prop
  | .acquireLock tx addr _ =>
      (state.locks tx).mylocks.lookup (lock.getStripeId addr) ≠ some .lockNotFound
  | _ => True

instance (lock : StripedLock) (state : State Tx) (label : Label Tx) :
    Decidable (NotAbandoned lock state label) := by
  unfold NotAbandoned
  split <;> infer_instance

/-! ## Maps -/

section Maps

variable {map order : LockStatusMap} {stripe : Nat} {status : LockState}

/-- What an entry of the map says. -/
def modeOf : Option LockState → RwLock.Mode
  | some .readLock => .read
  | some .writeLock => .write
  | _ => .none

theorem modeOf_eq_read_iff (entry : Option LockState) :
    modeOf entry = .read ↔ entry = some .readLock := by
  rcases entry with _ | _ | _ | _ <;> simp [modeOf]

theorem modeOf_eq_write_iff (entry : Option LockState) :
    modeOf entry = .write ↔ entry = some .writeLock := by
  rcases entry with _ | _ | _ | _ <;> simp [modeOf]

theorem lookup_cons_of_ne {other : Nat} (different : other ≠ stripe) :
    ((stripe, status) :: map).lookup other = map.lookup other := by
  rw [List.lookup_cons, beq_false_of_ne different]

theorem lookup_eq_some_iff_mem (nodup : (map.map Prod.fst).Nodup) :
    map.lookup stripe = some status ↔ (stripe, status) ∈ map := by
  induction map with
  | nil => simp
  | cons entry map ih =>
      obtain ⟨first, firstStatus⟩ := entry
      rw [List.map_cons, List.nodup_cons] at nodup
      by_cases same : stripe = first
      · subst same
        have absent : (stripe, status) ∉ map := fun member =>
          nodup.1 (List.mem_map.mpr ⟨_, member, rfl⟩)
        simp [absent, eq_comm]
      · rw [lookup_cons_of_ne same, ih nodup.2]
        simp [same]

theorem lookup_perm (perm : order.Perm map) (nodup : (map.map Prod.fst).Nodup) :
    order.lookup stripe = map.lookup stripe := by
  have orderNodup : (order.map Prod.fst).Nodup := (perm.map Prod.fst).nodup_iff.mpr nodup
  ext status
  rw [lookup_eq_some_iff_mem orderNodup, lookup_eq_some_iff_mem nodup, perm.mem_iff]

theorem keys_setStatus : (setStatus map stripe status).map Prod.fst = map.map Prod.fst := by
  rw [setStatus, List.map_map]
  refine List.map_congr_left fun entry _ => ?_
  rw [Function.comp_apply]
  split_ifs with same
  · exact same.symm
  · rfl

theorem lookup_setStatus_self (present : (map.lookup stripe).isSome) :
    (setStatus map stripe status).lookup stripe = some status := by
  induction map with
  | nil => simp at present
  | cons entry map ih =>
      obtain ⟨first, firstStatus⟩ := entry
      by_cases same : first = stripe
      · simp [setStatus, same]
      · rw [lookup_cons_of_ne (Ne.symm same)] at present
        have rest := ih present
        rw [setStatus, List.map_cons, if_neg same, lookup_cons_of_ne (Ne.symm same)]
        exact rest

theorem lookup_setStatus_of_ne {other : Nat} (different : other ≠ stripe) :
    (setStatus map stripe status).lookup other = map.lookup other := by
  induction map with
  | nil => rfl
  | cons entry map ih =>
      obtain ⟨first, firstStatus⟩ := entry
      rw [setStatus, List.map_cons]
      split_ifs with same
      · dsimp only at same
        rw [lookup_cons_of_ne different, same, lookup_cons_of_ne different]
        exact ih
      · rw [List.lookup_cons, List.lookup_cons]
        split
        · rfl
        · exact ih

end Maps

/-! ## The invariant -/

/-- The entries that stand for the locks of the transaction. -/
def Locks.entries (locks : Locks) : LockStatusMap :=
  match locks.pending with
  | .unlocking entries => entries
  | _ => locks.mylocks

/-- The stripe with which the transaction is occupied. -/
def Pending.At (pending : Pending) (stripe : Nat) : Prop :=
  match pending with
  | .acquiring busy _ => stripe = busy
  | .unlocking ((busy, _) :: _) => stripe = busy
  | _ => False

/-- What the accesses of the pending function are for. -/
def Pending.Runs (pending : Pending) (view : Nat → RwLock.Local) (mylocks : LockStatusMap) :
    Prop :=
  match pending with
  | .none => True
  | .acquiring stripe write =>
      (view stripe).pc ≠ .idle ∧
        (view stripe).pc.target = (if write then .write else .read) ∧
        (mylocks.lookup stripe).isSome
  | .unlocking [] => False
  | .unlocking ((stripe, status) :: _) =>
      status = .writeLock ∧ (view stripe).pc = .writeDrop ∨
        status = .readLock ∧ (view stripe).pc = .readDrop

/-- How the last call ended. -/
def Result.Right (result : Result) (locks : Locks) : Prop :=
  match result with
  | .acquired stripe write =>
      locks.pending = .none ∧ (locks.mylocks.lookup stripe = some .writeLock ∨
        locks.mylocks.lookup stripe = some .readLock ∧ write = false)
  | .unlockedAll => locks.pending = .none ∧ locks.mylocks = []
  | _ => True

/-- The map of a transaction describes its part of the locks. -/
structure Linked (locks : Locks) (view : Nat → RwLock.Local) : Prop where
  nodup : (locks.mylocks.map Prod.fst).Nodup
  entriesNodup : (locks.entries.map Prod.fst).Nodup
  held : ∀ stripe, (view stripe).held = modeOf (locks.entries.lookup stripe)
  idle : ∀ stripe, ¬ locks.pending.At stripe → (view stripe).pc = .idle
  runs : locks.pending.Runs view locks.mylocks
  right : locks.result.Right locks

/-- The part of a transaction in the locks. -/
def State.view (state : State Tx) (tx : Tx) (stripe : Nat) : RwLock.Local :=
  (state.mainlock stripe).threads tx

structure Sound [Fintype Tx] (state : State Tx) : Prop where
  accounts : ∀ stripe, RwLock.Invariant (state.mainlock stripe)
  linked : ∀ tx, Linked (state.locks tx) (state.view tx)

theorem setLocks_setLocks [DecidableEq Tx] {tx : Tx} (state : State Tx) (first second : Locks) :
    (state.setLocks tx first).setLocks tx second = state.setLocks tx second := by
  simp [State.setLocks]

section Sound

variable [Fintype Tx] {state : State Tx}

theorem sound_initial : Sound (initial : State Tx) where
  accounts := fun _ => RwLock.invariant_initial
  linked := fun _ => ⟨List.nodup_nil, List.nodup_nil, fun _ => rfl, fun _ _ => rfl, trivial,
    trivial⟩

theorem Sound.agrees (sound : Sound state) : Agrees state where
  acquired := by
    intro tx stripe write isResult
    have linked := sound.linked tx
    have right := linked.right
    have held := linked.held stripe
    rw [isResult] at right
    obtain ⟨noPending, entry⟩ := right
    rw [Locks.entries, noPending] at held
    rcases entry with writes | ⟨reads, isRead⟩
    · rw [writes] at held
      exact .inl held
    · rw [reads] at held
      exact .inr ⟨held, isRead⟩
  recorded := by
    intro tx notUnlocking stripe
    have held := (sound.linked tx).held stripe
    have entries : (state.locks tx).entries = (state.locks tx).mylocks := by
      unfold Locks.entries
      split
      · rename_i entries isPending
        exact absurd isPending (notUnlocking entries)
      · rfl
    rw [entries] at held
    rw [State.held, ← State.view, held, modeOf_eq_read_iff, modeOf_eq_write_iff]
    exact ⟨Iff.rfl, Iff.rfl⟩
  exclusive := fun stripe _ _ => (sound.accounts stripe).exclusive
  unlocksOwn := by
    intro tx stripe
    have requires := ((sound.accounts stripe).ok tx).requires
    constructor
    · intro pc
      rw [pc] at requires
      exact requires
    · intro pc
      rw [pc] at requires
      exact requires
  unlockedAll := by
    intro tx isResult stripe
    have linked := sound.linked tx
    have right := linked.right
    have held := linked.held stripe
    rw [isResult] at right
    rw [Locks.entries, right.1, right.2] at held
    exact held
  readerCount := fun stripe => (sound.accounts stripe).readerCount

section Replace

variable [DecidableEq Tx] {tx : Tx}

/-- A transaction changes one lock and its own entry. -/
theorem Sound.replace (sound : Sound state) {stripe : Nat} {lock : RwLock.State Tx}
    (account : RwLock.Invariant lock)
    (others : ∀ other, other ≠ tx → lock.threads other = (state.mainlock stripe).threads other)
    {locks : Locks}
    (linked : Linked locks (Function.update (state.view tx) stripe (lock.threads tx))) :
    Sound ⟨Function.update state.mainlock stripe lock,
      Function.update state.locks tx locks⟩ where
  accounts := by
    intro third
    dsimp only
    by_cases same : third = stripe
    · rw [same, Function.update_self]
      exact account
    · rw [Function.update_of_ne same]
      exact sound.accounts third
  linked := by
    intro other
    have views : State.view ⟨Function.update state.mainlock stripe lock,
        Function.update state.locks tx locks⟩ other =
          Function.update (state.view other) stripe (lock.threads other) := by
      funext third
      by_cases same : third = stripe
      · simp [State.view, same]
      · simp [State.view, same]
    rw [views]
    dsimp only
    by_cases same : other = tx
    · rw [same, Function.update_self]
      exact linked
    · rw [Function.update_of_ne same, others other same]
      have unchanged : Function.update (state.view other) stripe
          ((state.mainlock stripe).threads other) = state.view other :=
        Function.update_eq_self stripe (state.view other)
      rw [unchanged]
      exact sound.linked other

theorem Sound.setLocks (sound : Sound state) {locks : Locks}
    (linked : Linked locks (state.view tx)) : Sound (state.setLocks tx locks) where
  accounts := sound.accounts
  linked := by
    intro other
    rw [State.setLocks]
    dsimp only
    by_cases same : other = tx
    · rw [same, Function.update_self]
      exact linked
    · rw [Function.update_of_ne same]
      exact sound.linked other

/-- The call of a lock function that the transaction is entitled to. -/
theorem Sound.start (sound : Sound state) {stripe : Nat} {function : RwLock.Call}
    (disciplined : RwLock.Disciplined (state.mainlock stripe) (.call tx function))
    {next : State Tx} (stepped : state.lockStep stripe (.call tx function) = some next)
    {locks : Locks}
    (linked : Linked locks (Function.update (state.view tx) stripe
      ((state.view tx stripe).start function.entry))) :
    Sound (next.setLocks tx locks) := by
  rw [State.lockStep, Option.map_eq_some_iff] at stepped
  obtain ⟨lock, stepped, rfl⟩ := stepped
  rw [RwLock.step] at stepped
  split_ifs at stepped with isIdle
  obtain rfl := Option.some.inj stepped
  refine sound.replace ((sound.accounts stripe).call disciplined isIdle) ?_ ?_
  · intro other different
    exact Function.update_of_ne different _ _
  · dsimp only
    rw [Function.update_self]
    exact linked

/-- One access of the pending lock function. -/
theorem Sound.access (sound : Sound state) {stripe : Nat} {next : State Tx}
    (accessed : state.access tx stripe = some next) :
    ∃ word thread, RwLock.tick (state.mainlock stripe).word (state.view tx stripe) =
        some (word, thread) ∧
      next.view tx = Function.update (state.view tx) stripe thread ∧
      next.locks = state.locks ∧
      ∀ locks, Linked locks (Function.update (state.view tx) stripe thread) →
        Sound (next.setLocks tx locks) := by
  rw [State.access] at accessed
  split_ifs at accessed with asserts
  rw [State.lockStep, Option.map_eq_some_iff] at accessed
  obtain ⟨lock, stepped, rfl⟩ := accessed
  have account := sound.accounts stripe
  have next : RwLock.Invariant lock := by
    refine account.tick_of_asserts ?_ stepped
    exact asserts
  rw [RwLock.step, Option.map_eq_some_iff] at stepped
  obtain ⟨⟨word, thread⟩, ticked, rfl⟩ := stepped
  refine ⟨word, thread, ticked, ?_, rfl, fun locks linked => ?_⟩
  · funext third
    by_cases same : third = stripe
    · simp [State.view, same]
    · simp [State.view, same]
  · refine sound.replace next (fun other different => Function.update_of_ne different _ _) ?_
    dsimp only
    rw [Function.update_self]
    exact linked

/-! ### The functions -/

theorem Linked.idle_of_pending {locks : Locks} {view : Nat → RwLock.Local}
    (linked : Linked locks view) (pending : locks.pending = .none) (stripe : Nat) :
    (view stripe).pc = .idle :=
  linked.idle stripe (by simp [pending, Pending.At])

theorem Linked.held_of_pending {locks : Locks} {view : Nat → RwLock.Local}
    (linked : Linked locks view) (pending : locks.pending = .none) (stripe : Nat) :
    (view stripe).held = modeOf (locks.mylocks.lookup stripe) := by
  rw [linked.held, Locks.entries, pending]

/-- `acquire_lock` has called a lock function. -/
theorem Linked.acquiring {locks : Locks} {view : Nat → RwLock.Local}
    (linked : Linked locks view) (pending : locks.pending = .none) {stripe : Nat}
    {write : Bool} {function : RwLock.Call} {mylocks : LockStatusMap}
    (nodup : (mylocks.map Prod.fst).Nodup)
    (sameModes : ∀ other, modeOf (mylocks.lookup other) = modeOf (locks.mylocks.lookup other))
    (present : (mylocks.lookup stripe).isSome) (inCall : function.entry ≠ .idle)
    (target : function.entry.target = if write then .write else .read) :
    Linked ⟨mylocks, .acquiring stripe write, .none⟩
      (Function.update view stripe ((view stripe).start function.entry)) where
  nodup := nodup
  entriesNodup := nodup
  held := by
    intro other
    rw [Locks.entries]
    dsimp only
    rw [sameModes, ← linked.held_of_pending pending]
    by_cases same : other = stripe
    · rw [same, Function.update_self]
      rfl
    · rw [Function.update_of_ne same]
  idle := by
    intro other notBusy
    rw [Function.update_of_ne notBusy]
    exact linked.idle_of_pending pending other
  runs := by
    simp only [Pending.Runs, Function.update_self]
    exact ⟨inCall, target, present⟩
  right := trivial

/-- A call of `acquire_lock` on an entry that is not abandoned. -/
theorem Sound.acquireLock (sound : Sound state) {stripe : Nat} {write : Bool}
    (pending : (state.locks tx).pending = .none)
    (notAbandoned : (state.locks tx).mylocks.lookup stripe ≠ some .lockNotFound)
    {next : State Tx} (stepped : state.acquireLock tx stripe write = some next) :
    Sound next := by
  have linked := sound.linked tx
  have held := linked.held_of_pending pending stripe
  rw [State.acquireLock] at stepped
  cases entry : (state.locks tx).mylocks.lookup stripe with
  | none =>
      simp only [entry, Option.map_eq_some_iff] at stepped
      obtain ⟨middle, stepped, rfl⟩ := stepped
      rw [entry] at held
      have absent : stripe ∉ (state.locks tx).mylocks.map Prod.fst := by
        intro member
        obtain ⟨⟨key, status⟩, inMap, rfl⟩ := List.mem_map.mp member
        rw [(lookup_eq_some_iff_mem linked.nodup).mpr inMap] at entry
        cases entry
      refine sound.start ?_ stepped (linked.acquiring pending ?_ ?_ ?_ ?_ ?_)
      · cases write with
        | true => trivial
        | false =>
            intro reads
            have none : ((state.mainlock stripe).threads tx).held = .none := held
            rw [none] at reads
            cases reads
      · exact List.nodup_cons.mpr ⟨absent, linked.nodup⟩
      · intro other
        by_cases same : other = stripe
        · rw [same, List.lookup_cons_self, entry]
          rfl
        · rw [lookup_cons_of_ne same]
      · rw [List.lookup_cons_self]
        rfl
      · cases write <;> simp [RwLock.Call.entry]
      · cases write <;> rfl
  | some status =>
      rw [entry] at held notAbandoned
      simp only [entry] at stepped
      split_ifs at stepped with upgrade
      · obtain ⟨middle, called, rfl⟩ := Option.map_eq_some_iff.mp stepped
        have reads : RwLock.Disciplined (state.mainlock stripe)
            (.call tx .upgradeWriteLock) := by
          cases status with
          | lockNotFound => exact absurd rfl notAbandoned
          | readLock => exact held
          | writeLock => exact absurd rfl upgrade.2
        refine sound.start reads called
          (linked.acquiring pending linked.nodup (fun _ => rfl) ?_ ?_ ?_)
        · rw [entry]
          rfl
        · simp [RwLock.Call.entry]
        · rw [upgrade.1]
          rfl
      · obtain rfl := Option.some.inj stepped
        refine sound.setLocks ⟨linked.nodup, linked.nodup,
          linked.held_of_pending pending, fun other _ => linked.idle_of_pending pending other,
          trivial, rfl, ?_⟩
        dsimp only
        rw [entry]
        cases status with
        | lockNotFound => exact absurd rfl notAbandoned
        | readLock => exact .inr ⟨rfl, by simpa using upgrade⟩
        | writeLock => exact .inl rfl

/-- One access of the lock function that `acquire_lock` has called. -/
theorem Sound.acquireTick (sound : Sound state) {stripe : Nat} {write : Bool}
    (pending : (state.locks tx).pending = .acquiring stripe write) {middle : State Tx}
    (accessed : state.access tx stripe = some middle) :
    Sound (if ((middle.mainlock stripe).threads tx).pc = .idle then
      middle.acquireEnd tx stripe write else middle) := by
  have linked := sound.linked tx
  have runs := linked.runs
  have held (other : Nat) : (state.view tx other).held =
      modeOf ((state.locks tx).mylocks.lookup other) := by
    rw [linked.held, Locks.entries, pending]
  have idle (other : Nat) (different : other ≠ stripe) : (state.view tx other).pc = .idle :=
    linked.idle other (by simpa [pending, Pending.At] using different)
  rw [pending] at runs
  obtain ⟨inCall, target, present⟩ := runs
  have inTime := (((sound.accounts stripe).ok tx).unchanged inCall).2
  obtain ⟨word, thread, ticked, view, sameLocks, result⟩ := sound.access accessed
  have threadIs : (middle.mainlock stripe).threads tx = thread := by
    have here := congrFun view stripe
    rwa [Function.update_self] at here
  have heldOther (other : Nat) (different : other ≠ stripe) :
      (Function.update (state.view tx) stripe thread other).held =
        modeOf ((state.locks tx).mylocks.lookup other) := by
    rw [Function.update_of_ne different, held]
  have idleOther (other : Nat) (different : other ≠ stripe) :
      (Function.update (state.view tx) stripe thread other).pc = .idle := by
    rw [Function.update_of_ne different, idle other different]
  rw [threadIs, State.acquireEnd, threadIs, sameLocks]
  obtain ⟨goesOn, sameTarget, moved, -⟩ | ⟨rfl, -⟩ | rfl := RwLock.tick_cases ticked
  · rw [if_neg goesOn]
    have unchanged : middle.setLocks tx (state.locks tx) = middle := by
      rw [State.setLocks, ← sameLocks, Function.update_eq_self]
    rw [← unchanged]
    refine result _ ⟨linked.nodup, linked.entriesNodup, fun other => ?_, fun other notBusy => ?_,
      ?_, linked.right⟩
    · rw [Locks.entries, pending]
      by_cases same : other = stripe
      · rw [same, Function.update_self, moved]
        exact held stripe
      · exact heldOther other same
    · exact idleOther other (by simpa [pending, Pending.At] using notBusy)
    · rw [pending]
      simp only [Pending.Runs, Function.update_self]
      exact ⟨goesOn, sameTarget.trans target, present⟩
  · have thrown : (state.view tx stripe).throws.timedOut = true := rfl
    rw [if_pos (RwLock.Local.throws_pc _), if_pos thrown]
    refine result _ ⟨linked.nodup, linked.nodup, fun other => ?_, fun other _ => ?_, trivial,
      trivial⟩
    · by_cases same : other = stripe
      · rw [same, Function.update_self]
        exact held stripe
      · exact heldOther other same
    · by_cases same : other = stripe
      · rw [same, Function.update_self]
        rfl
      · exact idleOther other same
  · have returned : ((state.view tx stripe).returns
        (state.view tx stripe).pc.target).timedOut ≠ true := by
      simp only [RwLock.Local.returns]
      rw [State.view, inTime]
      exact Bool.false_ne_true
    rw [if_pos (RwLock.Local.returns_pc _ _), if_neg returned]
    have nodup : ((setStatus (state.locks tx).mylocks stripe
        (if write then .writeLock else .readLock)).map Prod.fst).Nodup := by
      rw [keys_setStatus]
      exact linked.nodup
    refine result _ ⟨nodup, nodup, fun other => ?_, fun other _ => ?_, trivial, rfl, ?_⟩
    · rw [Locks.entries]
      dsimp only
      by_cases same : other = stripe
      · rw [same, Function.update_self, lookup_setStatus_self present, RwLock.Local.returns_held,
          target]
        cases write <;> rfl
      · rw [lookup_setStatus_of_ne same]
        exact heldOther other same
    · by_cases same : other = stripe
      · rw [same, Function.update_self]
        rfl
      · exact idleOther other same
    · dsimp only
      rw [lookup_setStatus_self present]
      cases write with
      | true => exact .inl rfl
      | false => exact .inr ⟨rfl, rfl⟩

/-- The first of the entries left is unlocked. -/
theorem Sound.unlockFirst {entries mylocks : LockStatusMap} {stripe : Nat} {status : LockState}
    {function : RwLock.Call} (nodup : (mylocks.map Prod.fst).Nodup)
    (sound : Sound (state.setLocks tx ⟨(stripe, status) :: entries, .none, .none⟩))
    (disciplined : RwLock.Disciplined (state.mainlock stripe) (.call tx function))
    (kind : status = .writeLock ∧ function = .writeUnlock ∨
      status = .readLock ∧ function = .readUnlock)
    {next : State Tx} (stepped : state.lockStep stripe (.call tx function) = some next) :
    Sound (next.setLocks tx ⟨mylocks, .unlocking ((stripe, status) :: entries), .none⟩) := by
  have linked := sound.linked tx
  rw [State.setLocks] at linked
  dsimp only at linked
  rw [Function.update_self] at linked
  have sameStep : (state.setLocks tx ⟨(stripe, status) :: entries, .none, .none⟩).lockStep
      stripe (.call tx function) =
        some (next.setLocks tx ⟨(stripe, status) :: entries, .none, .none⟩) := by
    rw [State.lockStep, Option.map_eq_some_iff] at stepped ⊢
    obtain ⟨lock, stepped, rfl⟩ := stepped
    exact ⟨lock, stepped, rfl⟩
  rw [← setLocks_setLocks next ⟨(stripe, status) :: entries, .none, .none⟩]
  refine sound.start disciplined sameStep ⟨nodup, linked.entriesNodup, fun other => ?_,
    fun other notBusy => ?_, ?_, trivial⟩
  · have held := linked.held other
    by_cases same : other = stripe
    · rw [same, Function.update_self]
      rw [same] at held
      exact held
    · rw [Function.update_of_ne same]
      exact held
  · rw [Function.update_of_ne notBusy]
    exact linked.idle_of_pending rfl other
  · simp only [Pending.Runs, Function.update_self]
    obtain ⟨isStatus, rfl⟩ | ⟨isStatus, rfl⟩ := kind
    · exact .inl ⟨isStatus, rfl⟩
    · exact .inr ⟨isStatus, rfl⟩

/-- The loop of `unlock_all` on the entries left. -/
theorem Sound.unlockNext {entries : LockStatusMap}
    (nodup : ((state.locks tx).mylocks.map Prod.fst).Nodup)
    (sound : Sound (state.setLocks tx ⟨entries, .none, .none⟩)) {next : State Tx}
    (stepped : state.unlockNext tx entries = some next) : Sound next := by
  induction entries with
  | nil =>
      rw [State.unlockNext] at stepped
      obtain rfl := Option.some.inj stepped
      have linked := sound.linked tx
      rw [State.setLocks] at linked
      dsimp only at linked
      rw [Function.update_self] at linked
      rw [← setLocks_setLocks state ⟨[], .none, .none⟩]
      exact sound.setLocks ⟨List.nodup_nil, List.nodup_nil, linked.held, linked.idle, trivial,
        rfl, rfl⟩
  | cons entry entries ih =>
      obtain ⟨stripe, status⟩ := entry
      have linked := sound.linked tx
      rw [State.setLocks] at linked
      dsimp only at linked
      rw [Function.update_self] at linked
      have held := linked.held_of_pending rfl stripe
      dsimp only at held
      rw [List.lookup_cons_self] at held
      cases status with
      | lockNotFound =>
          refine ih ?_ stepped
          have unique := List.nodup_cons.mp linked.nodup
          rw [← setLocks_setLocks state ⟨(stripe, .lockNotFound) :: entries, .none, .none⟩]
          refine sound.setLocks ⟨unique.2, unique.2, fun other => ?_, linked.idle, trivial,
            trivial⟩
          have here := linked.held_of_pending rfl other
          dsimp only at here
          rw [Locks.entries]
          dsimp only
          by_cases same : other = stripe
          · have absent : entries.lookup stripe = none := by
              refine List.lookup_eq_none_iff.mpr fun entry member => ?_
              simp only [bne_iff_ne, ne_eq]
              exact fun isKey => unique.1 (List.mem_map.mpr ⟨entry, member, isKey.symm⟩)
            rw [same, absent]
            exact held
          · rw [lookup_cons_of_ne same] at here
            exact here
      | writeLock =>
          rw [State.unlockNext, Option.map_eq_some_iff] at stepped
          obtain ⟨middle, stepped, rfl⟩ := stepped
          have disciplined : RwLock.Disciplined (state.mainlock stripe)
              (.call tx .writeUnlock) := held
          exact Sound.unlockFirst nodup sound disciplined (.inl ⟨rfl, rfl⟩) stepped
      | readLock =>
          rw [State.unlockNext, Option.map_eq_some_iff] at stepped
          obtain ⟨middle, stepped, rfl⟩ := stepped
          have disciplined : RwLock.Disciplined (state.mainlock stripe)
              (.call tx .readUnlock) := held
          exact Sound.unlockFirst nodup sound disciplined (.inr ⟨rfl, rfl⟩) stepped

/-- One access of an unlock in the loop of `unlock_all`. -/
theorem Sound.unlockTick (sound : Sound state) {stripe : Nat} {status : LockState}
    {entries : LockStatusMap}
    (pending : (state.locks tx).pending = .unlocking ((stripe, status) :: entries))
    {middle next : State Tx} (accessed : state.access tx stripe = some middle)
    (stepped : (if ((middle.mainlock stripe).threads tx).pc = .idle then
      middle.unlockNext tx entries else some middle) = some next) : Sound next := by
  have linked := sound.linked tx
  have runs := linked.runs
  have nodup := linked.entriesNodup
  have held (other : Nat) : (state.view tx other).held =
      modeOf (((stripe, status) :: entries).lookup other) := by
    rw [linked.held, Locks.entries, pending]
  have idle (other : Nat) (different : other ≠ stripe) : (state.view tx other).pc = .idle :=
    linked.idle other (by simpa [pending, Pending.At] using different)
  rw [Locks.entries, pending] at nodup
  dsimp only at nodup
  rw [List.map_cons, List.nodup_cons] at nodup
  rw [pending] at runs
  have drops : (state.view tx stripe).pc = .readDrop ∨ (state.view tx stripe).pc = .writeDrop :=
    runs.elim (fun writes => .inr writes.2) (fun reads => .inl reads.2)
  obtain ⟨word, thread, ticked, view, sameLocks, result⟩ := sound.access accessed
  have threadIs : (middle.mainlock stripe).threads tx = thread := by
    have here := congrFun view stripe
    rwa [Function.update_self] at here
  have returned : thread = (state.view tx stripe).returns .none := by
    obtain ⟨-, -, -, notRead, notWrite⟩ | ⟨-, notRead, notWrite⟩ | returns :=
      RwLock.tick_cases ticked
    · exact absurd drops (not_or.mpr ⟨notRead, notWrite⟩)
    · exact absurd drops (not_or.mpr ⟨notRead, notWrite⟩)
    · rcases drops with drop | drop
      · rw [returns, drop]
        rfl
      · rw [returns, drop]
        rfl
  subst returned
  rw [threadIs, if_pos (RwLock.Local.returns_pc _ _)] at stepped
  refine Sound.unlockNext (by rw [sameLocks]; exact linked.nodup) ?_ stepped
  refine result _ ⟨nodup.2, nodup.2, fun other => ?_, fun other _ => ?_, trivial, trivial⟩
  · rw [Locks.entries]
    dsimp only
    by_cases same : other = stripe
    · have absent : entries.lookup stripe = none := by
        refine List.lookup_eq_none_iff.mpr fun entry member => ?_
        simp only [bne_iff_ne, ne_eq]
        exact fun isKey => nodup.1 (List.mem_map.mpr ⟨entry, member, isKey.symm⟩)
      rw [same, Function.update_self, absent]
      rfl
    · rw [Function.update_of_ne same, held, lookup_cons_of_ne same]
  · by_cases same : other = stripe
    · rw [same, Function.update_self]
      rfl
    · rw [Function.update_of_ne same, idle other same]

theorem Sound.step (sound : Sound state) {lock : StripedLock} {label : Label Tx}
    {next : State Tx} (notAbandoned : NotAbandoned lock state label)
    (stepped : TransactionLocks.step lock state label = some next) : Sound next := by
  cases label with
  | acquireLock tx addr write =>
      rw [TransactionLocks.step] at stepped
      split_ifs at stepped with pending
      exact sound.acquireLock pending notAbandoned stepped
  | tick tx =>
      simp only [TransactionLocks.step] at stepped
      split at stepped
      · cases stepped
      · rename_i stripe write pending
        obtain ⟨middle, accessed, rfl⟩ := Option.map_eq_some_iff.mp stepped
        exact sound.acquireTick pending accessed
      · cases stepped
      · rename_i stripe status entries pending
        obtain ⟨middle, accessed, stepped⟩ := Option.bind_eq_some_iff.mp stepped
        exact sound.unlockTick pending accessed stepped
  | unlockAll tx order =>
      rw [TransactionLocks.step] at stepped
      split_ifs at stepped with ready
      obtain ⟨pending, perm⟩ := ready
      have linked := sound.linked tx
      have nodup : (order.map Prod.fst).Nodup :=
        (perm.map Prod.fst).nodup_iff.mpr linked.nodup
      refine Sound.unlockNext linked.nodup (sound.setLocks ?_) stepped
      refine ⟨nodup, nodup, fun stripe => ?_, fun stripe _ => ?_, trivial, trivial⟩
      · rw [linked.held_of_pending pending]
        exact congrArg modeOf (lookup_perm perm linked.nodup).symm
      · exact linked.idle_of_pending pending stripe

/-- In every run in which no transaction asks again for a stripe on which its first call timed
out, the map and the locks agree. -/
theorem agrees_of_run {lock : StripedLock} {labels : List (Label Tx)}
    (notAbandoned : MeetsAlong (TransactionLocks.step lock) (NotAbandoned lock) initial labels)
    (ran : run (TransactionLocks.step lock) initial labels = some state) : Agrees state :=
  (run_invariant Sound (fun _ _ _ sound => sound.step) sound_initial notAbandoned ran).agrees

end Replace

end Sound

def sixteenStripes : StripedLock :=
  ⟨6, 15⟩

/-- Transaction 0 writes to stripe 1; transaction 1 cannot read it and gives up. -/
def timeoutRun : List (Label (Fin 2)) :=
  [.acquireLock 0 64 true, .tick 0, .tick 0, .acquireLock 1 64 false] ++
    List.replicate 13 (.tick 1)

theorem agrees_of_run_timeoutRun :
    ∃ state, run (step sixteenStripes) initial
        (timeoutRun ++ [.unlockAll 0 [(1, .writeLock)], .tick 0]) = some state ∧
      (state.locks 1).result = .timedOut ∧ (state.locks 0).result = .unlockedAll ∧
      Agrees state := by
  have computed : (run (step sixteenStripes) initial
      (timeoutRun ++ [.unlockAll 0 [(1, .writeLock)], .tick 0])).map
        (fun state => ((state.locks 1).result, (state.locks 0).result)) =
          some (.timedOut, .unlockedAll) := by
    decide
  obtain ⟨state, ran, summary⟩ := Option.map_eq_some_iff.mp computed
  obtain ⟨timedOut, unlocked⟩ := Prod.mk.inj summary
  exact ⟨state, ran, timedOut, unlocked, agrees_of_run (by decide) ran⟩

/-- The next call of transaction 1 for the stripe returns normally, without a lock. -/
theorem abandoned_entry_taken_for_lock :
    ∃ state, run (step sixteenStripes) initial
        (timeoutRun ++ [.acquireLock 1 64 false]) = some state ∧
      (state.locks 1).result = .acquired 1 false ∧ state.held 1 1 = .none ∧
      state.held 0 1 = .write ∧ ¬ Agrees state := by
  have computed : (run (step sixteenStripes) initial
      (timeoutRun ++ [.acquireLock 1 64 false])).map
        (fun state => ((state.locks 1).result, state.held 1 1, state.held 0 1)) =
          some (.acquired 1 false, .none, .write) := by
    decide
  obtain ⟨state, ran, summary⟩ := Option.map_eq_some_iff.mp computed
  simp only [Prod.mk.injEq] at summary
  obtain ⟨returned, nothing, writes⟩ := summary
  refine ⟨state, ran, returned, nothing, writes, fun agrees => ?_⟩
  have acquired := agrees.acquired 1 1 false returned
  rw [nothing] at acquired
  simp at acquired

end TransactionLocks

end Pmgd
