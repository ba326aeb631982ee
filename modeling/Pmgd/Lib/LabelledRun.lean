import Mathlib.Data.List.Infix

/-!
# Runs of a labelled step function

A system is given by a partial step function `State → Action → Option State`; `none` says
that the action is not possible in the state, or that it goes wrong there.  A run executes a
list of actions.  This file has the two induction rules that the developments over such
systems use: an invariant that every admissible step keeps holds at the end of every run
whose steps are admissible, and a property that a step keeps exactly when the step is
admissible holds after every prefix of a run exactly when all steps of the run are.
-/

namespace Pmgd.LabelledRun

variable {State Action : Type*}

/-- Execute the actions from left to right. -/
def run (step : State → Action → Option State) : State → List Action → Option State
  | state, [] => some state
  | state, action :: actions => (step state action).bind fun next => run step next actions

/-- Every step of the run, as far as the run goes, meets a condition on the state before it. -/
def MeetsAlong (step : State → Action → Option State) (condition : State → Action → Prop) :
    State → List Action → Prop
  | _, [] => True
  | state, action :: actions =>
      condition state action ∧
        ∀ next, step state action = some next → MeetsAlong step condition next actions

variable {step : State → Action → Option State} {condition : State → Action → Prop}

instance decidableMeetsAlong [∀ state action, Decidable (condition state action)] :
    ∀ state actions, Decidable (MeetsAlong step condition state actions)
  | _, [] => inferInstanceAs (Decidable True)
  | state, action :: actions =>
      match stepped : step state action with
      | none => decidable_of_iff (condition state action) (by simp [MeetsAlong, stepped])
      | some next =>
          haveI := decidableMeetsAlong next actions
          decidable_of_iff
            (condition state action ∧ MeetsAlong step condition next actions)
            (by simp [MeetsAlong, stepped])

@[simp]
theorem run_nil (state : State) : run step state [] = some state :=
  rfl

theorem run_cons (state : State) (action : Action) (actions : List Action) :
    run step state (action :: actions) =
      (step state action).bind fun next => run step next actions :=
  rfl

theorem run_cons_of_step {state next : State} {action : Action} (actions : List Action)
    (stepped : step state action = some next) :
    run step state (action :: actions) = run step next actions := by
  rw [run_cons, stepped, Option.bind_some]

@[simp]
theorem run_append (state : State) (first second : List Action) :
    run step state (first ++ second) =
      (run step state first).bind fun middle => run step middle second := by
  induction first generalizing state with
  | nil => rfl
  | cons action actions ih =>
      rw [List.cons_append, run_cons, run_cons]
      cases step state action with
      | none => rfl
      | some next => simpa using ih next

theorem meetsAlong_cons_of_step {state next : State} {action : Action} {actions : List Action}
    (stepped : step state action = some next) :
    MeetsAlong step condition state (action :: actions) ↔
      condition state action ∧ MeetsAlong step condition next actions := by
  simp [MeetsAlong, stepped]

/-- The condition holds along two runs, one after the other. -/
theorem meetsAlong_append {state : State} {first second : List Action} :
    MeetsAlong step condition state (first ++ second) ↔
      MeetsAlong step condition state first ∧
        ∀ middle, run step state first = some middle →
          MeetsAlong step condition middle second := by
  induction first generalizing state with
  | nil => simp [MeetsAlong]
  | cons action actions ih =>
      rw [List.cons_append, MeetsAlong, MeetsAlong, run_cons, and_assoc]
      apply and_congr_right
      intro _
      cases stepped : step state action with
      | none => simp
      | some next => simp [ih]

/-- The rule of invariants: what every step that meets the condition keeps, every run whose
steps meet the condition keeps. -/
theorem run_invariant (Invariant : State → Prop)
    (preserved : ∀ state action next, Invariant state → condition state action →
      step state action = some next → Invariant next)
    {state last : State} {actions : List Action} (initially : Invariant state)
    (meets : MeetsAlong step condition state actions)
    (reaches : run step state actions = some last) :
    Invariant last := by
  induction actions generalizing state with
  | nil =>
      rw [run_nil, Option.some.injEq] at reaches
      exact reaches ▸ initially
  | cons action actions ih =>
      obtain ⟨met, later⟩ := meets
      rw [run_cons, Option.bind_eq_some_iff] at reaches
      obtain ⟨next, stepped, rest⟩ := reaches
      exact ih (preserved state action next initially met stepped) (later next stepped) rest

/-- The rule of invariants for systems that do not get stuck in an admissible step. -/
theorem exists_run_invariant (Invariant : State → Prop)
    (preserved : ∀ state action, Invariant state → condition state action →
      ∃ next, step state action = some next ∧ Invariant next)
    {state : State} {actions : List Action} (initially : Invariant state)
    (meets : MeetsAlong step condition state actions) :
    ∃ last, run step state actions = some last ∧ Invariant last := by
  induction actions generalizing state with
  | nil => exact ⟨state, rfl, initially⟩
  | cons action actions ih =>
      obtain ⟨met, later⟩ := meets
      obtain ⟨next, stepped, kept⟩ := preserved state action initially met
      rw [run_cons_of_step actions stepped]
      exact ih kept (later next stepped)

/-- `Shown past state` is what is claimed of a state and of the actions that led to it, and
`Good` an invariant that implies it.  When an admissible step keeps the invariant and a step
whose outcome is as claimed is admissible, then all prefixes of a run end as claimed exactly
when all its steps are admissible.  `assumed` is what is known of all steps beforehand. -/
theorem forall_prefix_iff_meetsAlong_of (assumed : State → Action → Prop)
    (Good Shown : List Action → State → Prop)
    (implies : ∀ past state, Good past state → Shown past state)
    (kept : ∀ past state action, Good past state → assumed state action →
      condition state action →
      ∃ next, step state action = some next ∧ Good (past ++ [action]) next)
    (needed : ∀ past state action next, Good past state → assumed state action →
      step state action = some next → Shown (past ++ [action]) next → condition state action)
    (past : List Action) {state : State} (initially : Good past state)
    (actions : List Action) (assumption : MeetsAlong step assumed state actions) :
    (∀ before, before <+: actions →
        ∃ last, run step state before = some last ∧ Shown (past ++ before) last) ↔
      MeetsAlong step condition state actions := by
  induction actions generalizing past state with
  | nil =>
      refine ⟨fun _ => trivial, fun _ before isPrefix => ?_⟩
      obtain rfl := List.prefix_nil.mp isPrefix
      exact ⟨state, rfl, by simpa using implies past state initially⟩
  | cons action actions ih =>
      obtain ⟨known, knownLater⟩ := assumption
      constructor
      · intro everyPrefix
        obtain ⟨next, stepped, shown⟩ :=
          everyPrefix [action] (List.prefix_append [action] actions)
        simp only [run_cons, run_nil, Option.bind_fun_some] at stepped
        have met := needed past state action next initially known stepped shown
        refine ⟨met, ?_⟩
        intro other otherStep
        obtain ⟨good, goodStep, isGood⟩ := kept past state action initially known met
        obtain rfl : good = other := Option.some.inj (goodStep.symm.trans otherStep)
        refine (ih _ isGood (knownLater good goodStep)).mp fun before isPrefix => ?_
        have extended := everyPrefix (action :: before)
          (List.cons_prefix_cons.mpr ⟨rfl, isPrefix⟩)
        rw [run_cons_of_step before goodStep] at extended
        simpa [List.append_assoc] using extended
      · rintro ⟨met, later⟩ before isPrefix
        obtain ⟨next, stepped, isGood⟩ := kept past state action initially known met
        cases before with
        | nil => exact ⟨state, rfl, by simpa using implies past state initially⟩
        | cons head tail =>
            obtain ⟨rfl, tailPrefix⟩ := List.cons_prefix_cons.mp isPrefix
            rw [run_cons_of_step tail stepped]
            simpa [List.append_assoc] using
              (ih _ isGood (knownLater next stepped)).mpr (later next stepped) tail tailPrefix

theorem MeetsAlong.mono {weaker : State → Action → Prop} {state : State} {actions : List Action}
    (implies : ∀ state action, condition state action → weaker state action)
    (meets : MeetsAlong step condition state actions) : MeetsAlong step weaker state actions := by
  induction actions generalizing state with
  | nil => trivial
  | cons action actions ih =>
      exact ⟨implies state action meets.1, fun next stepped => ih (meets.2 next stepped)⟩

theorem MeetsAlong.and {assumed : State → Action → Prop} {state : State} {actions : List Action}
    (first : MeetsAlong step assumed state actions)
    (second : MeetsAlong step condition state actions) :
    MeetsAlong step (fun state action => assumed state action ∧ condition state action) state
      actions := by
  induction actions generalizing state with
  | nil => trivial
  | cons action actions ih =>
      refine ⟨⟨first.1, second.1⟩, fun next stepped => ?_⟩
      exact ih (first.2 next stepped) (second.2 next stepped)

theorem meetsAlong_true (state : State) (actions : List Action) :
    MeetsAlong step (fun _ _ => True) state actions := by
  induction actions generalizing state with
  | nil => trivial
  | cons action actions ih => exact ⟨trivial, fun next _ => ih next⟩

/-- The same without an assumption. -/
theorem forall_prefix_iff_meetsAlong (Good Shown : List Action → State → Prop)
    (implies : ∀ past state, Good past state → Shown past state)
    (kept : ∀ past state action, Good past state → condition state action →
      ∃ next, step state action = some next ∧ Good (past ++ [action]) next)
    (needed : ∀ past state action next, Good past state → step state action = some next →
      Shown (past ++ [action]) next → condition state action)
    (past : List Action) {state : State} (initially : Good past state)
    (actions : List Action) :
    (∀ before, before <+: actions →
        ∃ last, run step state before = some last ∧ Shown (past ++ before) last) ↔
      MeetsAlong step condition state actions :=
  forall_prefix_iff_meetsAlong_of (fun _ _ => True) Good Shown implies
    (fun past state action good _ => kept past state action good)
    (fun past state action next good _ => needed past state action next good) past initially
    actions (meetsAlong_true state actions)

/-- When a step keeps what is shown exactly if it is admissible, and only admissible actions are
impossible, then what is shown holds wherever a run comes exactly if all of its steps are
admissible. -/
theorem forall_last_iff_meetsAlong (Shown : State → Prop)
    (kept : ∀ state action next, Shown state → step state action = some next →
      (Shown next ↔ condition state action))
    (impossible : ∀ state action, Shown state → step state action = none → condition state action)
    {state : State} (initially : Shown state) (actions : List Action) :
    (∀ before, before <+: actions → ∀ last, run step state before = some last → Shown last) ↔
      MeetsAlong step condition state actions := by
  induction actions generalizing state with
  | nil =>
      refine iff_of_true (fun before isPrefix last reaches => ?_) trivial
      obtain rfl := List.prefix_nil.mp isPrefix
      obtain rfl := Option.some.inj reaches
      exact initially
  | cons action actions ih =>
      rw [MeetsAlong]
      constructor
      · intro everyLast
        have shown (next : State) (stepped : step state action = some next) : Shown next :=
          everyLast [action] (List.prefix_append [action] actions) next
            ((run_cons_of_step [] stepped).trans (run_nil next))
        constructor
        · cases stepped : step state action with
          | none => exact impossible state action initially stepped
          | some next => exact (kept state action next initially stepped).mp (shown next stepped)
        · intro next stepped
          refine (ih (shown next stepped)).mp fun before isPrefix last reaches => ?_
          apply everyLast (action :: before) (List.cons_prefix_cons.mpr ⟨rfl, isPrefix⟩)
          rwa [run_cons_of_step before stepped]
      · rintro ⟨met, later⟩ before isPrefix last reaches
        cases before with
        | nil =>
            obtain rfl := Option.some.inj reaches
            exact initially
        | cons head tail =>
            obtain ⟨rfl, tailPrefix⟩ := List.cons_prefix_cons.mp isPrefix
            obtain ⟨next, stepped, rest⟩ := Option.bind_eq_some_iff.mp reaches
            have shown := (kept state head next initially stepped).mpr met
            exact (ih shown).mpr (later next stepped) tail tailPrefix last rest

end Pmgd.LabelledRun
