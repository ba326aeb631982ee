import Mathlib.Tactic.Common

/-!
# Filtered iterators

A filter is an iterator around another one and a function that judges its elements.  It goes
ahead to the first element that passes when it is constructed, and behind each element that it
has shown; at an element that stops it the inner iterator is given up, at once or with the next
call.
-/

namespace Pmgd

/-- What a filter function says of an element. -/
inductive Disposition
  | dontPass
  | pass
  | stop
  | passStop
  | prune
  | passPrune
  deriving DecidableEq, Repr

namespace Disposition

/-- Nothing behind the element is looked at. -/
def ends : Disposition → Bool
  | .stop | .passStop => true
  | _ => false

/-- The dispositions that a filter function may return. -/
def Supported (disposition : Disposition) : Prop :=
  disposition ≠ .prune ∧ disposition ≠ .passPrune

instance (disposition : Disposition) : Decidable disposition.Supported :=
  inferInstanceAs (Decidable (_ ∧ _))

/-- The conjunction: an element passes if it passes both, and the end is where either ends. -/
def both : Disposition → Disposition → Disposition
  | .pass, disposition => disposition
  | .passStop, .pass => .passStop
  | .passStop, .passStop => .passStop
  | .passStop, _ => .stop
  | disposition, _ => disposition

end Disposition

/-- An `IteratorImplIntf`; there is no result where it throws or goes through a null pointer. -/
structure IteratorImpl (State Ref : Type*) where
  operatorBool : State → Bool
  ref : State → Option Ref
  next : State → Option (Bool × State)

/-- The iterator shows the elements, if `next` is called as long as it is valid. -/
def IteratorImpl.Yields {State Ref : Type*} (impl : IteratorImpl State Ref) :
    State → List Ref → Prop
  | state, [] => impl.operatorBool state = false
  | state, elem :: elems =>
      impl.operatorBool state = true ∧ impl.ref state = some elem ∧
        ∃ more next, impl.next state = some (more, next) ∧ impl.Yields next elems

/-- An `IteratorFilter`: `_base_impl`, which may be null, what the function keeps between its
calls, and `_done`. -/
structure FilterState (State Func : Type*) where
  baseImpl : Option State
  func : Func
  done : Bool

namespace IteratorFilter

variable {State Func Other Ref : Type*}

/-- `done`. -/
def giveUp (state : FilterState State Func) : FilterState State Func :=
  { state with baseImpl := none }

/-- `_next`.  The number of turns is bounded; there is no result if it is not enough. -/
def nextLoop (base : IteratorImpl State Ref) (f : Func → Ref → Disposition × Func) :
    Nat → FilterState State Func → Option (Bool × FilterState State Func)
  | 0, _ => none
  | turns + 1, state =>
      state.baseImpl.bind fun impl =>
        if base.operatorBool impl then
          (base.ref impl).bind fun elem =>
            let (disposition, func) := f state.func elem
            let state := { state with func }
            match disposition with
            | .dontPass =>
                (base.next impl).bind fun (_, impl) =>
                  nextLoop base f turns { state with baseImpl := some impl }
            | .pass => some (true, state)
            | .stop => some (false, giveUp state)
            | .passStop => some (true, { state with done := true })
            | .prune | .passPrune => none
        else some (false, state)

/-- The constructor. -/
def construct (base : IteratorImpl State Ref) (f : Func → Ref → Disposition × Func) (turns : Nat)
    (impl : State) (func : Func) : Option (FilterState State Func) :=
  (nextLoop base f turns ⟨some impl, func, false⟩).map Prod.snd

/-- `next`. -/
def next (base : IteratorImpl State Ref) (f : Func → Ref → Disposition × Func) (turns : Nat)
    (state : FilterState State Func) : Option (Bool × FilterState State Func) :=
  if state.done then some (false, giveUp state)
  else
    state.baseImpl.bind fun impl =>
      (base.next impl).bind fun (_, impl) =>
        nextLoop base f turns { state with baseImpl := some impl }

/-- The filter as an iterator; `ref` throws for a null pointer. -/
def impl (base : IteratorImpl State Ref) (f : Func → Ref → Disposition × Func) (turns : Nat) :
    IteratorImpl (FilterState State Func) Ref where
  operatorBool state := state.baseImpl.any base.operatorBool
  ref state := state.baseImpl.bind base.ref
  next := next base f turns

/-! ## What passes -/

/-- What the function says of the elements, one after the other. -/
def judge (f : Func → Ref → Disposition × Func) : Func → List Ref → List (Ref × Disposition)
  | _, [] => []
  | func, elem :: elems => (elem, (f func elem).1) :: judge f (f func elem).2 elems

/-- The elements that pass in front of the end, and the one at the end if it passes too. -/
def passed (judged : List (Ref × Disposition)) : List Ref :=
  ((judged.takeWhile fun entry => !entry.2.ends).filter fun entry => entry.2 = .pass).map
      Prod.fst ++
    (((judged.dropWhile fun entry => !entry.2.ends).take 1).filter fun entry =>
      entry.2 = .passStop).map Prod.fst

section Passed

variable {elem : Ref} {judged : List (Ref × Disposition)}

@[simp]
theorem passed_nil : passed ([] : List (Ref × Disposition)) = [] :=
  rfl

@[simp]
theorem passed_dontPass : passed ((elem, .dontPass) :: judged) = passed judged :=
  rfl

@[simp]
theorem passed_pass : passed ((elem, .pass) :: judged) = elem :: passed judged :=
  rfl

@[simp]
theorem passed_stop : passed ((elem, .stop) :: judged) = [] :=
  rfl

@[simp]
theorem passed_passStop : passed ((elem, .passStop) :: judged) = [elem] :=
  rfl

end Passed

/-! ## The law -/

section Law

variable {base : IteratorImpl State Ref} {f : Func → Ref → Disposition × Func} {turns : Nat}

/-- `_next` goes to the first element that passes, from where the filter shows all of them. -/
theorem nextLoop_yields (supported : ∀ func elem, (f func elem).1.Supported) {elems : List Ref}
    {state : State} {func : Func} {left : Nat} (yields : base.Yields state elems)
    (enough : elems.length < turns) (enoughLeft : elems.length < left) :
    ∃ more last, nextLoop base f left ⟨some state, func, false⟩ = some (more, last) ∧
      (impl base f turns).Yields last (passed (judge f func elems)) := by
  induction elems generalizing state func left with
  | nil =>
      obtain ⟨left, rfl⟩ := Nat.exists_eq_add_one_of_ne_zero (Nat.ne_of_gt enoughLeft)
      have invalid : base.operatorBool state = false := yields
      refine ⟨false, ⟨some state, func, false⟩, ?_, invalid⟩
      simp [nextLoop, invalid]
  | cons elem elems ih =>
      obtain ⟨left, rfl⟩ :=
        Nat.exists_eq_add_one_of_ne_zero (Nat.ne_of_gt (Nat.zero_lt_of_lt enoughLeft))
      obtain ⟨valid, isElem, _, advanced, isNext, rest⟩ := yields
      rw [List.length_cons] at enough enoughLeft
      have isSupported := supported func elem
      rw [judge, nextLoop, Option.bind_some, if_pos valid, isElem, Option.bind_some]
      rcases isJudged : f func elem with ⟨disposition, later⟩
      rw [isJudged] at isSupported
      cases disposition with
      | dontPass =>
          obtain ⟨more, last, isLast, shows⟩ :=
            ih rest (Nat.lt_of_succ_lt enough) (Nat.lt_of_succ_lt_succ enoughLeft)
          refine ⟨more, last, ?_, shows⟩
          dsimp only
          rw [isNext]
          exact isLast
      | pass =>
          obtain ⟨more, last, isLast, shows⟩ :=
            ih rest (Nat.lt_of_succ_lt enough) (Nat.lt_of_succ_lt enough)
          have goesOn : next base f turns ⟨some state, later, false⟩ = some (more, last) := by
            rw [next, if_neg Bool.false_ne_true, Option.bind_some, isNext]
            exact isLast
          exact ⟨true, _, rfl, valid, isElem, more, last, goesOn, shows⟩
      | stop => exact ⟨false, _, rfl, rfl⟩
      | passStop => exact ⟨true, _, rfl, valid, isElem, false, _, rfl, rfl⟩
      | prune => exact absurd rfl isSupported.1
      | passPrune => exact absurd rfl isSupported.2

/-- A new filter shows the elements that pass. -/
theorem construct_yields (supported : ∀ func elem, (f func elem).1.Supported) {elems : List Ref}
    {state : State} (func : Func) (yields : base.Yields state elems)
    (enough : elems.length < turns) :
    ∃ filter, construct base f turns state func = some filter ∧
      (impl base f turns).Yields filter (passed (judge f func elems)) := by
  obtain ⟨more, filter, isFilter, shows⟩ := nextLoop_yields supported yields enough enough
  refine ⟨filter, ?_, shows⟩
  rw [construct, isFilter]
  rfl

/-- `next` tells whether there is an element. -/
theorem nextLoop_result {more : Bool} {left : Nat} {state last : FilterState State Func}
    (returns : nextLoop base f left state = some (more, last)) :
    more = (impl base f turns).operatorBool last := by
  induction left generalizing state with
  | zero => cases returns
  | succ left ih =>
      obtain ⟨inner, isInner, body⟩ := Option.bind_eq_some_iff.mp returns
      split_ifs at body with valid
      · obtain ⟨elem, isElem, judged⟩ := Option.bind_eq_some_iff.mp body
        rcases isJudged : f state.func elem with ⟨disposition, func⟩
        rw [isJudged] at judged
        cases disposition with
        | dontPass =>
            obtain ⟨advanced, -, goesOn⟩ := Option.bind_eq_some_iff.mp judged
            exact ih goesOn
        | pass =>
            obtain ⟨rfl, rfl⟩ := Prod.mk.inj (Option.some.inj judged)
            show true = state.baseImpl.any base.operatorBool
            rw [isInner, Option.any_some, valid]
        | stop =>
            obtain ⟨rfl, rfl⟩ := Prod.mk.inj (Option.some.inj judged)
            rfl
        | passStop =>
            obtain ⟨rfl, rfl⟩ := Prod.mk.inj (Option.some.inj judged)
            show true = state.baseImpl.any base.operatorBool
            rw [isInner, Option.any_some, valid]
        | prune => cases judged
        | passPrune => cases judged
      · obtain ⟨rfl, rfl⟩ := Prod.mk.inj (Option.some.inj body)
        show false = state.baseImpl.any base.operatorBool
        rw [isInner, Option.any_some, Bool.eq_false_iff.mpr valid]

end Law

/-! ## Filters of filters -/

/-- Both functions; the second one is asked about what passes the first one. -/
def conjunction (f : Func → Ref → Disposition × Func) (g : Other → Ref → Disposition × Other) :
    Func × Other → Ref → Disposition × (Func × Other) :=
  fun (func, other) elem =>
    let (first, func) := f func elem
    if first = .pass ∨ first = .passStop then
      let (second, other) := g other elem
      (first.both second, (func, other))
    else (first, (func, other))

/-- What passes one filter and then another one passes their conjunction. -/
theorem passed_passed {f : Func → Ref → Disposition × Func} {g : Other → Ref → Disposition × Other}
    (supported : ∀ func elem, (f func elem).1.Supported)
    (otherSupported : ∀ other elem, (g other elem).1.Supported) (func : Func) (other : Other)
    (elems : List Ref) :
    passed (judge g other (passed (judge f func elems))) =
      passed (judge (conjunction f g) (func, other) elems) := by
  induction elems generalizing func other with
  | nil => rfl
  | cons elem elems ih =>
      have isSupported := supported func elem
      rw [judge, judge, conjunction]
      rcases isJudged : f func elem with ⟨first, later⟩
      rw [isJudged] at isSupported
      cases first with
      | dontPass => exact ih later other
      | stop => rfl
      | pass =>
          have isOtherSupported := otherSupported other elem
          rw [passed_pass, judge]
          rcases isOther : g other elem with ⟨second, otherLater⟩
          rw [isOther] at isOtherSupported
          cases second with
          | dontPass => exact ih later otherLater
          | pass => exact congrArg (elem :: ·) (ih later otherLater)
          | stop => rfl
          | passStop => rfl
          | prune => exact absurd rfl isOtherSupported.1
          | passPrune => exact absurd rfl isOtherSupported.2
      | passStop =>
          have isOtherSupported := otherSupported other elem
          rw [passed_passStop, judge, judge]
          rcases isOther : g other elem with ⟨second, otherLater⟩
          rw [isOther] at isOtherSupported
          cases second with
          | dontPass => rfl
          | pass => rfl
          | stop => rfl
          | passStop => rfl
          | prune => exact absurd rfl isOtherSupported.1
          | passPrune => exact absurd rfl isOtherSupported.2
      | prune => exact absurd rfl isSupported.1
      | passPrune => exact absurd rfl isSupported.2

/-- A filter shows what passes its function, and a filter of it what passes the conjunction; behind
that they are not valid. -/
theorem filters_yield {base : IteratorImpl State Ref} {f : Func → Ref → Disposition × Func}
    {g : Other → Ref → Disposition × Other} (supported : ∀ func elem, (f func elem).1.Supported)
    (otherSupported : ∀ other elem, (g other elem).1.Supported) {elems : List Ref} {state : State}
    (yields : base.Yields state elems) (func : Func) (other : Other) :
    ∃ turns, ∀ more, turns ≤ more →
      ∃ filter, construct base f more state func = some filter ∧
        (impl base f more).Yields filter (passed (judge f func elems)) ∧
        ∃ outer, construct (impl base f more) g more filter other = some outer ∧
          (impl (impl base f more) g more).Yields outer
            (passed (judge (conjunction f g) (func, other) elems)) := by
  refine ⟨elems.length + (passed (judge f func elems)).length + 1, fun more enough => ?_⟩
  have enoughForBase : elems.length < more := by omega
  have enoughForFilter : (passed (judge f func elems)).length < more := by omega
  obtain ⟨filter, isFilter, shows⟩ := construct_yields supported func yields enoughForBase
  obtain ⟨outer, isOuter, outerShows⟩ :=
    construct_yields otherSupported other shows enoughForFilter
  rw [passed_passed supported otherSupported] at outerShows
  exact ⟨filter, isFilter, shows, outer, isOuter, outerShows⟩

/-- An iterator over a list. -/
def ofList : IteratorImpl (List Nat) Nat where
  operatorBool elems := !elems.isEmpty
  ref elems := elems.head?
  next elems := some (!elems.tail.isEmpty, elems.tail)

/-- Even numbers pass, up to the first one from 10 on. -/
def evenTo10 (_ : Unit) (elem : Nat) : Disposition × Unit :=
  (if 10 ≤ elem then .passStop else if elem % 2 = 0 then .pass else .dontPass, ())

/-- No number from 8 on is looked at. -/
def below8 (_ : Unit) (elem : Nat) : Disposition × Unit :=
  (if 8 ≤ elem then .stop else .pass, ())

example : passed (judge evenTo10 () [1, 2, 4, 11, 6]) = [2, 4, 11] := by decide

theorem filters_yield_ofList : ∃ turns, ∀ more, turns ≤ more →
    ∃ filter, construct ofList evenTo10 more [1, 2, 4, 11, 6] () = some filter ∧
      (impl ofList evenTo10 more).Yields filter [2, 4, 11] ∧
      ∃ outer, construct (impl ofList evenTo10 more) below8 more filter () = some outer ∧
        (impl (impl ofList evenTo10 more) below8 more).Yields outer [2, 4] := by
  have supported (func : Unit) (elem : Nat) : (evenTo10 func elem).1.Supported := by
    unfold evenTo10
    split_ifs <;> decide
  have otherSupported (other : Unit) (elem : Nat) : (below8 other elem).1.Supported := by
    unfold below8
    split_ifs <;> decide
  have yields : ofList.Yields [1, 2, 4, 11, 6] [1, 2, 4, 11, 6] := by
    simp [IteratorImpl.Yields, ofList]
  exact filters_yield supported otherSupported yields () ()

end IteratorFilter

end Pmgd
