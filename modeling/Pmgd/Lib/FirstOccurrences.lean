import Mathlib.Tactic.Common

/-!
# First occurrences

Going through a list with a set of what has been seen keeps the first occurrence of each element
that is not in the set.  A list may be gone through in parts, each with what the parts before it
have left in the set.
-/

namespace Pmgd

variable {α : Type*} [DecidableEq α]

/-- The elements that have not been seen, each at its first occurrence. -/
def unseen (seen : List α) : List α → List α
  | [] => []
  | elem :: rest => if elem ∈ seen then unseen seen rest else elem :: unseen (elem :: seen) rest

/-- What has been seen behind a list. -/
def seenAfter (seen elems : List α) : List α :=
  (unseen seen elems).reverse ++ seen

variable {seen : List α} {elem : α}

@[simp]
theorem unseen_nil (seen : List α) : unseen seen [] = [] :=
  rfl

@[simp]
theorem seenAfter_nil (seen : List α) : seenAfter seen [] = seen :=
  rfl

theorem unseen_cons_of_mem (isSeen : elem ∈ seen) (rest : List α) :
    unseen seen (elem :: rest) = unseen seen rest :=
  if_pos isSeen

theorem unseen_cons_of_notMem (fresh : elem ∉ seen) (rest : List α) :
    unseen seen (elem :: rest) = elem :: unseen (elem :: seen) rest :=
  if_neg fresh

theorem seenAfter_cons_of_mem (isSeen : elem ∈ seen) (rest : List α) :
    seenAfter seen (elem :: rest) = seenAfter seen rest := by
  rw [seenAfter, unseen_cons_of_mem isSeen, seenAfter]

theorem seenAfter_cons_of_notMem (fresh : elem ∉ seen) (rest : List α) :
    seenAfter seen (elem :: rest) = seenAfter (elem :: seen) rest := by
  rw [seenAfter, unseen_cons_of_notMem fresh, List.reverse_cons, List.append_assoc, seenAfter]
  rfl

/-- A list in two parts. -/
theorem unseen_append (seen front back : List α) :
    unseen seen (front ++ back) = unseen seen front ++ unseen (seenAfter seen front) back := by
  induction front generalizing seen with
  | nil => rfl
  | cons elem front ih =>
      rw [List.cons_append]
      by_cases isSeen : elem ∈ seen
      · rw [unseen_cons_of_mem isSeen, unseen_cons_of_mem isSeen, seenAfter_cons_of_mem isSeen, ih]
      · rw [unseen_cons_of_notMem isSeen, unseen_cons_of_notMem isSeen,
          seenAfter_cons_of_notMem isSeen, ih, List.cons_append]

theorem mem_unseen {other : α} {elems : List α} :
    other ∈ unseen seen elems ↔ other ∈ elems ∧ other ∉ seen := by
  induction elems generalizing seen with
  | nil => simp
  | cons elem rest ih =>
      by_cases isSeen : elem ∈ seen
      · rw [unseen_cons_of_mem isSeen, ih, List.mem_cons]
        constructor
        · exact fun ⟨member, fresh⟩ => ⟨.inr member, fresh⟩
        · rintro ⟨rfl | member, fresh⟩
          · exact absurd isSeen fresh
          · exact ⟨member, fresh⟩
      · rw [unseen_cons_of_notMem isSeen, List.mem_cons, ih, List.mem_cons, List.mem_cons]
        constructor
        · rintro (rfl | ⟨member, fresh⟩)
          · exact ⟨.inl rfl, isSeen⟩
          · exact ⟨.inr member, fun old => fresh (.inr old)⟩
        · rintro ⟨isFirst | member, fresh⟩
          · exact .inl isFirst
          · by_cases same : other = elem
            · exact .inl same
            · exact .inr ⟨member, not_or.mpr ⟨same, fresh⟩⟩

end Pmgd
