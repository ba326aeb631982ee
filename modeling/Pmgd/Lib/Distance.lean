import Mathlib.Data.Nat.Find
import Mathlib.Tactic.Common

/-!
# Distances in a relation

A walk of a given length follows a relation step by step.  The distance of an element is the
length of a shortest walk to it.  An element at a positive distance has a predecessor at the
distance before, and a step leads to a distance of at most one more.
-/

namespace Pmgd

variable {Element : Type*} {step : Element → Element → Prop} {start : Element}

/-- There is a walk of the given length from the start. -/
def Walk (step : Element → Element → Prop) (start : Element) : Nat → Element → Prop
  | 0, last => last = start
  | length + 1, last => ∃ previous, Walk step start length previous ∧ step previous last

/-- A shortest walk from the start has the given length. -/
def IsDistance (step : Element → Element → Prop) (start : Element) (distance : Nat)
    (last : Element) : Prop :=
  Walk step start distance last ∧ ∀ length < distance, ¬ Walk step start length last

namespace IsDistance

variable {distance other : Nat} {element next : Element}

theorem zero_iff : IsDistance step start 0 element ↔ element = start :=
  and_iff_left fun _ negative => absurd negative (Nat.not_lt_zero _)

theorem unique (first : IsDistance step start distance element)
    (second : IsDistance step start other element) : distance = other := by
  rcases Nat.lt_trichotomy distance other with less | same | greater
  · exact absurd first.1 (second.2 distance less)
  · exact same
  · exact absurd second.1 (first.2 other greater)

theorem exists_of_walk (walk : Walk step start distance element) :
    ∃ least ≤ distance, IsDistance step start least element := by
  classical
  have exists_walk : ∃ length, Walk step start length element := ⟨distance, walk⟩
  exact ⟨Nat.find exists_walk, Nat.find_le walk, Nat.find_spec exists_walk,
    fun _ less => Nat.find_min exists_walk less⟩

/-- A step leads to a distance of at most one more. -/
theorem exists_of_step (isDistance : IsDistance step start distance element)
    (stepped : step element next) :
    ∃ least ≤ distance + 1, IsDistance step start least next :=
  exists_of_walk ⟨element, isDistance.1, stepped⟩

/-- The element before the last one of a shortest walk. -/
theorem exists_previous (isDistance : IsDistance step start (distance + 1) element) :
    ∃ previous, IsDistance step start distance previous ∧ step previous element := by
  obtain ⟨previous, walk, stepped⟩ := isDistance.1
  refine ⟨previous, ⟨walk, fun length less shorter => ?_⟩, stepped⟩
  exact isDistance.2 (length + 1) (Nat.succ_lt_succ less) ⟨previous, shorter, stepped⟩

/-- A shortest walk passes through all smaller distances. -/
theorem exists_at (isDistance : IsDistance step start distance element)
    (less : other ≤ distance) : ∃ between, IsDistance step start other between := by
  induction distance generalizing element with
  | zero =>
      obtain rfl := Nat.le_zero.mp less
      exact ⟨element, isDistance⟩
  | succ distance ih =>
      rcases Nat.le_or_eq_of_le_succ less with smaller | rfl
      · obtain ⟨previous, isPrevious, -⟩ := isDistance.exists_previous
        exact ih isPrevious smaller
      · exact ⟨element, isDistance⟩

end IsDistance

end Pmgd
