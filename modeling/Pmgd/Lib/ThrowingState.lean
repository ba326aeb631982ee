import Mathlib.Tactic.Common

/-!
# Computations on a state that may throw

`EStateM` computations keep the state that they have reached when they throw.  `Ends` says what
holds at either end of a computation; the rules follow the computation from front to back.
`Keeps` says that a view of the state is at the end what it was at the start.  `EndsAs` tells the
exceptions apart, and `Spares` says that one of them is never thrown.
-/

namespace Pmgd.ThrowingState

variable {ε σ α β : Type}

/-- What holds of the value and the state, or of the state that an exception leaves. -/
def Ends (result : EStateM.Result ε σ α) (good : α → σ → Prop) (bad : σ → Prop) : Prop :=
  match result with
  | .ok value state => good value state
  | .error _ state => bad state

variable {state : σ} {good middle : α → σ → Prop} {last : β → σ → Prop} {bad worse : σ → Prop}

theorem Ends.mono {result : EStateM.Result ε σ α} (ends : Ends result middle bad)
    (better : ∀ value state, middle value state → good value state)
    (still : ∀ state, bad state → worse state) : Ends result good worse := by
  cases result with
  | ok value state => exact better value state ends
  | error failure state => exact still state ends

/-- The rule of sequences. -/
theorem Ends.bind {body : EStateM ε σ α} {next : α → EStateM ε σ β}
    (first : Ends (body state) middle bad)
    (rest : ∀ value state, middle value state → Ends (next value state) last bad) :
    Ends ((body >>= next) state) last bad := by
  have unfolded : (body >>= next) state =
      match body state with
      | .ok value state => next value state
      | .error failure state => .error failure state := rfl
  rw [unfolded]
  cases reached : body state with
  | ok value state =>
      rw [reached] at first
      exact rest value state first
  | error failure state =>
      rw [reached] at first
      exact first

theorem Ends.and {other : α → σ → Prop} {also : σ → Prop} {result : EStateM.Result ε σ α}
    (first : Ends result good bad) (second : Ends result other also) :
    Ends result (fun value state => good value state ∧ other value state)
      fun state => bad state ∧ also state := by
  cases result with
  | ok value state => exact ⟨first, second⟩
  | error failure state => exact ⟨first, second⟩

/-! ## Rules -/

section Rules

@[simp]
theorem get_bind (next : σ → EStateM ε σ α) : (get >>= next) state = next state state :=
  rfl

@[simp]
theorem modify_bind {next : PUnit → EStateM ε σ α} (change : σ → σ) :
    ((modify change : EStateM ε σ PUnit) >>= next) state = next () (change state) :=
  rfl

@[simp]
theorem ends_pure {result : α} :
    Ends ((pure result : EStateM ε σ α) state) good bad ↔ good result state :=
  Iff.rfl

@[simp]
theorem ends_throw {failure : ε} :
    Ends ((throw failure : EStateM ε σ α) state) good bad ↔ bad state :=
  Iff.rfl

theorem bind_ok {body : EStateM ε σ α} {next : α → EStateM ε σ β} {value : α} {after : σ}
    (returns : body state = .ok value after) : (body >>= next) state = next value after := by
  have unfolded : (body >>= next) state =
      match body state with
      | .ok value state => next value state
      | .error failure state => .error failure state := rfl
  rw [unfolded, returns]

theorem ends_ite {condition : Prop} [Decidable condition] {first second : EStateM ε σ α}
    (isTrue : condition → Ends (first state) good bad)
    (isFalse : ¬ condition → Ends (second state) good bad) :
    Ends ((if condition then first else second) state) good bad := by
  by_cases holds : condition
  · rw [if_pos holds]
    exact isTrue holds
  · rw [if_neg holds]
    exact isFalse holds

end Rules

/-! ## Views that a computation keeps -/

section Keeps

variable {γ : Type} {view : σ → γ}

/-- When the computation returns, a view of the state is as before. -/
def Keeps (view : σ → γ) (body : EStateM ε σ α) : Prop :=
  ∀ state, Ends (body state) (fun _ after => view after = view state) fun _ => True

theorem Keeps.of_ends {body : EStateM ε σ α} {good : σ → α → σ → Prop} {bad : σ → σ → Prop}
    (ends : ∀ state, Ends (body state) (good state) (bad state))
    (same : ∀ state value after, good state value after → view after = view state) :
    Keeps view body :=
  fun state => (ends state).mono (same state) fun _ _ => trivial

theorem keeps_pure {value : α} : Keeps view (pure value : EStateM ε σ α) :=
  fun _ => rfl

theorem keeps_throw {failure : ε} : Keeps view (throw failure : EStateM ε σ α) :=
  fun _ => trivial

theorem Keeps.bind {body : EStateM ε σ α} {next : α → EStateM ε σ β} (first : Keeps view body)
    (rest : ∀ value, Keeps view (next value)) : Keeps view (body >>= next) := by
  intro state
  refine Ends.bind (first state) fun value middle same => ?_
  refine (rest value middle).mono (fun _ _ still => ?_) fun _ => id
  exact still.trans same

theorem keeps_get : Keeps view (get : EStateM ε σ σ) :=
  fun _ => rfl

theorem keeps_modify {change : σ → σ} (same : ∀ state, view (change state) = view state) :
    Keeps view (modify change : EStateM ε σ PUnit) :=
  same

theorem keeps_ite {condition : Prop} [Decidable condition] {first second : EStateM ε σ α}
    (isTrue : Keeps view first) (isFalse : Keeps view second) :
    Keeps view (if condition then first else second) := by
  split_ifs
  · exact isTrue
  · exact isFalse

end Keeps

/-! ## Exceptions told apart -/

section EndsAs

/-- What holds of the value and the state, or of the exception and the state that it leaves. -/
def EndsAs (result : EStateM.Result ε σ α) (good : α → σ → Prop) (bad : ε → σ → Prop) : Prop :=
  match result with
  | .ok value state => good value state
  | .error failure state => bad failure state

variable {thrown worse : ε → σ → Prop}

/-- All exceptions alike. -/
theorem Ends.endsAs {result : EStateM.Result ε σ α} (ends : Ends result good bad) :
    EndsAs result good fun _ => bad := by
  cases result with
  | ok value state => exact ends
  | error failure state => exact ends

theorem EndsAs.mono {result : EStateM.Result ε σ α} (ends : EndsAs result middle thrown)
    (better : ∀ value state, middle value state → good value state)
    (still : ∀ failure state, thrown failure state → worse failure state) :
    EndsAs result good worse := by
  cases result with
  | ok value state => exact better value state ends
  | error failure state => exact still failure state ends

theorem EndsAs.bind {body : EStateM ε σ α} {next : α → EStateM ε σ β}
    (first : EndsAs (body state) middle thrown)
    (rest : ∀ value state, middle value state → EndsAs (next value state) last thrown) :
    EndsAs ((body >>= next) state) last thrown := by
  have unfolded : (body >>= next) state =
      match body state with
      | .ok value state => next value state
      | .error failure state => .error failure state := rfl
  rw [unfolded]
  cases reached : body state with
  | ok value state =>
      rw [reached] at first
      exact rest value state first
  | error failure state =>
      rw [reached] at first
      exact first

/-- A first part whose outcome is known. -/
theorem EndsAs.bind_ok {body : EStateM ε σ α} {next : α → EStateM ε σ β} {value : α} {after : σ}
    (returns : body state = .ok value after) (rest : EndsAs (next value after) last thrown) :
    EndsAs ((body >>= next) state) last thrown := by
  rwa [ThrowingState.bind_ok returns]

theorem EndsAs.ite {condition : Prop} [Decidable condition] {first second : EStateM ε σ α}
    (isTrue : condition → EndsAs (first state) good thrown)
    (isFalse : ¬ condition → EndsAs (second state) good thrown) :
    EndsAs ((if condition then first else second) state) good thrown := by
  by_cases holds : condition
  · rw [if_pos holds]
    exact isTrue holds
  · rw [if_neg holds]
    exact isFalse holds

end EndsAs

/-! ## Failures that a computation never throws -/

section Spares

variable {γ : Type} {view : σ → γ} {failure : ε}

/-- The computation never throws `failure`, and keeps a view of the state, however it ends. -/
def Spares (failure : ε) (view : σ → γ) (body : EStateM ε σ α) : Prop :=
  ∀ state, EndsAs (body state) (fun _ after => view after = view state)
    fun thrown after => thrown ≠ failure ∧ view after = view state

theorem spares_pure {value : α} : Spares failure view (pure value : EStateM ε σ α) :=
  fun _ => rfl

theorem spares_throw {other : ε} (differs : other ≠ failure) :
    Spares failure view (throw other : EStateM ε σ α) :=
  fun _ => ⟨differs, rfl⟩

theorem Spares.bind {body : EStateM ε σ α} {next : α → EStateM ε σ β}
    (first : Spares failure view body) (rest : ∀ value, Spares failure view (next value)) :
    Spares failure view (body >>= next) := by
  intro state
  apply EndsAs.bind (first state)
  intro value middle same
  apply (rest value middle).mono
  · intro _ after still
    exact still.trans same
  · rintro thrown after ⟨differs, still⟩
    exact ⟨differs, still.trans same⟩

theorem spares_get : Spares failure view (get : EStateM ε σ σ) :=
  fun _ => rfl

theorem spares_ite {condition : Prop} [Decidable condition] {first second : EStateM ε σ α}
    (isTrue : Spares failure view first) (isFalse : Spares failure view second) :
    Spares failure view (if condition then first else second) := by
  split_ifs
  · exact isTrue
  · exact isFalse

end Spares

end Pmgd.ThrowingState
