import Mathlib.Algebra.Group.Nat.Defs
import Mathlib.Data.List.Sort
import Pmgd.Lib.LabelledRun

/-!
# The set of pending page ranges

In msync mode `os::flush` only records the page it is asked for, in a `RangeSet`, and
`os::commit` calls `msync` on every recorded range.  `RangeSet::add` merges a new range with
the ranges it overlaps or touches: with at most one range behind it, and with any number of
ranges in front of it.

The merge behind takes the end of the new range instead of the larger of the two ends, so a
range that lies inside an earlier one (and does not start where it starts) truncates it, or
drops it when both end at the same place.  This file states exactly when the union is right.
-/

namespace Pmgd

open LabelledRun

/-- The half-open interval of addresses from `start` up to `stop` (`end` in the source). -/
structure Range where
  start : Nat
  stop : Nat
  deriving DecidableEq, Repr

namespace Range

/-- Order based on start first and then put smaller end before. -/
protected def lt (left right : Range) : Prop :=
  left.start < right.start ∨ (left.start = right.start ∧ left.stop < right.stop)

instance : LT Range := ⟨Range.lt⟩

instance (left right : Range) : Decidable (left < right) :=
  inferInstanceAs (Decidable (_ ∨ _))

theorem lt_iff {left right : Range} :
    left < right ↔
      left.start < right.start ∨ (left.start = right.start ∧ left.stop < right.stop) :=
  Iff.rfl

end Range

/-- The elements of the `std::set`, in its order. -/
abbrev RangeSet := List Range

namespace RangeSet

/-- The elements in front of the place of a range in the order. -/
def behind (set : RangeSet) (range : Range) : RangeSet :=
  set.filter (· < range)

/-- The elements after the place of a range in the order. -/
def ahead (set : RangeSet) (range : Range) : RangeSet :=
  set.filter (range < ·)

/-- The forward loop of `add`: `it` is the range being grown, the list holds the elements
from `fwd_it` on.  The result is what replaces both. -/
def addForward (it : Range) : RangeSet → RangeSet
  | [] => [it]
  | forward :: rest =>
      if it.start = forward.start then
        -- The new range lies inside the next one: erase it again.
        forward :: rest
      else if forward.start ≤ it.stop then
        addForward ⟨it.start, max it.stop forward.stop⟩ rest
      else
        it :: forward :: rest

/-- `RangeSet::add`.  `none` is undefined behaviour: the loop reads through an iterator to
an erased element. -/
def add (set : RangeSet) (start stop : Nat) : Option RangeSet :=
  if start = stop then
    some set
  else if ⟨start, stop⟩ ∈ set then
    some set
  else
    let front := behind set ⟨start, stop⟩
    let rest := ahead set ⟨start, stop⟩
    match front.getLast? with
    | none => some (addForward ⟨start, stop⟩ rest)
    | some back =>
        if start = back.start then
          some (front.dropLast ++ addForward ⟨start, stop⟩ rest)
        else if start ≤ back.stop then
          if stop = back.stop then
            -- Inserting `{back.start, stop}` finds `back` itself, which is then erased, so
            -- `it` is dangling when the loop starts.
            match rest with
            | [] => some front.dropLast
            | _ :: _ => none
          else
            some (front.dropLast ++ addForward ⟨back.start, stop⟩ rest)
        else
          some (front ++ addForward ⟨start, stop⟩ rest)

/-! ## What a range set stands for -/

/-- An address lies in one of the ranges. -/
def Covered (set : RangeSet) (address : Nat) : Prop :=
  ∃ range ∈ set, range.start ≤ address ∧ address < range.stop

/-- The ranges are non-empty, in order, pairwise disjoint and do not touch. -/
structure WellFormed (set : RangeSet) : Prop where
  separated : set.Pairwise fun left right => left.stop < right.start
  nonempty : ∀ range ∈ set, range.start < range.stop

/-- The new range is empty, or no range that starts before it reaches its end. -/
def NotInsideEarlier (set : RangeSet) (start stop : Nat) : Prop :=
  start = stop ∨ ∀ range ∈ set, range.start < start → range.stop < stop

instance (set : RangeSet) (start stop : Nat) :
    Decidable (NotInsideEarlier set start stop) :=
  inferInstanceAs (Decidable (_ ∨ _))

@[simp]
theorem covered_nil (address : Nat) : ¬ Covered [] address := by
  simp [Covered]

@[simp]
theorem covered_cons (range : Range) (set : RangeSet) (address : Nat) :
    Covered (range :: set) address ↔
      (range.start ≤ address ∧ address < range.stop) ∨ Covered set address := by
  simp [Covered]

@[simp]
theorem covered_append (first second : RangeSet) (address : Nat) :
    Covered (first ++ second) address ↔ Covered first address ∨ Covered second address := by
  simp [Covered, or_and_right, exists_or]

@[simp]
theorem wellFormed_nil : WellFormed [] :=
  ⟨List.Pairwise.nil, by simp⟩

theorem wellFormed_cons {range : Range} {set : RangeSet} :
    WellFormed (range :: set) ↔
      range.start < range.stop ∧ (∀ later ∈ set, range.stop < later.start) ∧
        WellFormed set := by
  constructor
  · rintro ⟨separated, nonempty⟩
    obtain ⟨apart, separatedTail⟩ := List.pairwise_cons.mp separated
    exact ⟨nonempty range (by simp), apart,
      separatedTail, fun later member => nonempty later (by simp [member])⟩
  · rintro ⟨nonemptyHead, apart, separated, nonempty⟩
    refine ⟨List.pairwise_cons.mpr ⟨apart, separated⟩, ?_⟩
    simpa [nonemptyHead] using nonempty

theorem wellFormed_append {first second : RangeSet} :
    WellFormed (first ++ second) ↔
      WellFormed first ∧ WellFormed second ∧
        ∀ left ∈ first, ∀ right ∈ second, left.stop < right.start := by
  constructor
  · rintro ⟨separated, nonempty⟩
    obtain ⟨firstSeparated, secondSeparated, apart⟩ := List.pairwise_append.mp separated
    exact ⟨⟨firstSeparated, fun range member => nonempty range (by simp [member])⟩,
      ⟨secondSeparated, fun range member => nonempty range (by simp [member])⟩, apart⟩
  · rintro ⟨⟨firstSeparated, firstNonempty⟩, ⟨secondSeparated, secondNonempty⟩, apart⟩
    refine ⟨List.pairwise_append.mpr ⟨firstSeparated, secondSeparated, apart⟩, ?_⟩
    intro range member
    rcases List.mem_append.mp member with inFirst | inSecond
    · exact firstNonempty range inFirst
    · exact secondNonempty range inSecond

/-! ## The forward loop -/

/-- The forward loop joins the growing range with what it overlaps: the result covers both,
stays separated, and starts no earlier than the growing range. -/
theorem addForward_spec (it : Range) {rest : RangeSet} (nonempty : it.start < it.stop)
    (wellFormed : WellFormed rest)
    (notBefore : ∀ later ∈ rest, it.start ≤ later.start ∧
      (it.start = later.start → it.stop ≤ later.stop)) :
    WellFormed (addForward it rest) ∧
      (∀ range ∈ addForward it rest, it.start ≤ range.start) ∧
      ∀ address, Covered (addForward it rest) address ↔
        (it.start ≤ address ∧ address < it.stop) ∨ Covered rest address := by
  induction rest generalizing it with
  | nil =>
      refine ⟨wellFormed_cons.mpr ⟨nonempty, by simp, wellFormed_nil⟩, ?_, ?_⟩ <;>
        simp [addForward]
  | cons forward rest ih =>
      obtain ⟨forwardNonempty, apart, restWellFormed⟩ := wellFormed_cons.mp wellFormed
      have forwardNotBefore := notBefore forward (by simp)
      by_cases sameStart : it.start = forward.start
      · have shorter := forwardNotBefore.2 sameStart
        simp only [addForward, if_pos sameStart]
        refine ⟨wellFormed, fun range member => (notBefore range member).1, ?_⟩
        intro address
        rw [covered_cons]
        by_cases inRest : Covered rest address
        · simp [inRest]
        · simp only [inRest, or_false]
          omega
      · by_cases overlaps : forward.start ≤ it.stop
        · simp only [addForward, if_neg sameStart, if_pos overlaps]
          have grownNonempty : it.start < max it.stop forward.stop := by omega
          have grownNotBefore : ∀ later ∈ rest, it.start ≤ later.start ∧
              (it.start = later.start → max it.stop forward.stop ≤ later.stop) := by
            intro later member
            have := apart later member
            omega
          obtain ⟨kept, starts, covers⟩ :=
            ih ⟨it.start, max it.stop forward.stop⟩ grownNonempty restWellFormed
              grownNotBefore
          refine ⟨kept, starts, fun address => ?_⟩
          rw [covers, covered_cons]
          have := forwardNotBefore.1
          by_cases inRest : Covered rest address
          · simp [inRest]
          · simp only [inRest, or_false]
            omega
        · simp only [addForward, if_neg sameStart, if_neg overlaps]
          refine ⟨wellFormed_cons.mpr ⟨nonempty, ?_, wellFormed⟩, ?_, ?_⟩
          · intro later member
            rcases List.mem_cons.mp member with rfl | member
            · omega
            · have := apart later member
              omega
          · intro range member
            rcases List.mem_cons.mp member with rfl | member
            · exact le_rfl
            · exact (notBefore range member).1
          · intro address
            rw [covered_cons]

/-! ## The two sides of the place of a new range -/

theorem mem_behind {set : RangeSet} {range other : Range} :
    other ∈ behind set range ↔ other ∈ set ∧ other < range := by
  simp [behind]

theorem mem_ahead {set : RangeSet} {range other : Range} :
    other ∈ ahead set range ↔ other ∈ set ∧ range < other := by
  simp [ahead]

/-- A separated set is its elements behind a place followed by those ahead of it, if no
element is at the place itself. -/
theorem behind_append_ahead {set : RangeSet} {range : Range} (wellFormed : WellFormed set)
    (fresh : range ∉ set) :
    behind set range ++ ahead set range = set := by
  induction set with
  | nil => rfl
  | cons head tail ih =>
      obtain ⟨headNonempty, apart, tailWellFormed⟩ := wellFormed_cons.mp wellFormed
      have tailFresh : range ∉ tail := fun member => fresh (by simp [member])
      by_cases headBehind : head < range
      · have notAhead : ¬ range < head := by
          simp only [Range.lt_iff] at headBehind ⊢
          omega
        simp only [behind, ahead, List.filter_cons, headBehind, notAhead, decide_true,
          decide_false, if_true, Bool.false_eq_true, if_false, List.cons_append]
        exact congrArg (head :: ·) (ih tailWellFormed tailFresh)
      · have headAhead : range < head := by
          have distinct : range ≠ head := fun same => fresh (by simp [same])
          rcases range with ⟨start, stop⟩
          rcases head with ⟨headStart, headStop⟩
          simp only [Range.lt_iff, ne_eq, Range.mk.injEq] at headBehind distinct ⊢
          omega
        have tailAhead : ∀ other ∈ tail, range < other := by
          intro other member
          have := apart other member
          simp only [Range.lt_iff] at headAhead ⊢
          omega
        have noneBehind : behind tail range = [] := by
          refine List.filter_eq_nil_iff.mpr fun other member => ?_
          have := tailAhead other member
          simp only [Range.lt_iff, decide_eq_true_eq] at this ⊢
          omega
        have allAhead : ahead tail range = tail :=
          List.filter_eq_self.mpr fun other member => by simpa using tailAhead other member
        simp only [behind, ahead, List.filter_cons, headBehind, headAhead, decide_true,
          decide_false, if_true, Bool.false_eq_true, if_false]
        rw [← behind, ← ahead, noneBehind, allAhead, List.nil_append]

theorem notBefore_of_ahead (set : RangeSet) (start stop : Nat) :
    ∀ later ∈ ahead set ⟨start, stop⟩, start ≤ later.start ∧
      (start = later.start → stop ≤ later.stop) := by
  intro later member
  have order := (mem_ahead.mp member).2
  simp only [Range.lt_iff] at order
  omega

/-! ## The cases of `add` -/

/-- The ways a call with a new non-empty range can go: the set is split at the place of the
range, and `back` is the range right behind that place. -/
inductive AddCase (set : RangeSet) (start stop : Nat) : Option RangeSet → Prop
  | first (rest : RangeSet) (split : set = rest)
      (notBefore : ∀ later ∈ rest, start ≤ later.start ∧
        (start = later.start → stop ≤ later.stop)) :
      AddCase set start stop (some (addForward ⟨start, stop⟩ rest))
  | sameStart (earlier : RangeSet) (back : Range) (rest : RangeSet)
      (split : set = earlier ++ back :: rest) (same : start = back.start)
      (shorter : back.stop < stop) :
      AddCase set start stop (some (earlier ++ addForward ⟨start, stop⟩ rest))
  | apart (earlier : RangeSet) (back : Range) (rest : RangeSet)
      (split : set = earlier ++ back :: rest) (gap : back.stop < start)
      (notBefore : ∀ later ∈ rest, start ≤ later.start ∧
        (start = later.start → stop ≤ later.stop)) :
      AddCase set start stop
        (some ((earlier ++ [back]) ++ addForward ⟨start, stop⟩ rest))
  | merge (earlier : RangeSet) (back : Range) (rest : RangeSet)
      (split : set = earlier ++ back :: rest) (startsBefore : back.start < start)
      (touches : start ≤ back.stop) (endsDiffer : stop ≠ back.stop) :
      AddCase set start stop (some (earlier ++ addForward ⟨back.start, stop⟩ rest))
  | drop (earlier : RangeSet) (back : Range) (split : set = earlier ++ [back])
      (startsBefore : back.start < start) (touches : start ≤ back.stop)
      (sameEnd : stop = back.stop) :
      AddCase set start stop (some earlier)
  | dangle (earlier : RangeSet) (back next : Range) (rest : RangeSet)
      (split : set = earlier ++ back :: next :: rest) (startsBefore : back.start < start)
      (touches : start ≤ back.stop) (sameEnd : stop = back.stop) :
      AddCase set start stop none

theorem add_cases {set : RangeSet} {start stop : Nat} (wellFormed : WellFormed set)
    (nonempty : start ≠ stop) (fresh : (⟨start, stop⟩ : Range) ∉ set) :
    AddCase set start stop (add set start stop) := by
  have split := behind_append_ahead wellFormed fresh
  have notBefore := notBefore_of_ahead set start stop
  simp only [add, if_neg nonempty, if_neg fresh]
  cases last : (behind set ⟨start, stop⟩).getLast? with
  | none =>
      rw [List.getLast?_eq_none_iff.mp last, List.nil_append] at split
      exact .first _ split.symm notBefore
  | some back =>
      have whole := List.dropLast_append_getLast? back last
      have order := (mem_behind.mp (List.mem_of_getLast? last)).2
      simp only [Range.lt_iff] at order
      have split : set = (behind set ⟨start, stop⟩).dropLast ++
          back :: ahead set ⟨start, stop⟩ := by
        conv_lhs => rw [← split, ← whole]
        simp
      simp only
      split_ifs with sameStart touches sameEnd
      · exact .sameStart _ back _ split sameStart (by omega)
      · cases rest : ahead set ⟨start, stop⟩ with
        | nil => exact .drop _ back (by rwa [rest] at split) (by omega) touches sameEnd
        | cons next rest' =>
            exact .dangle _ back next rest' (by rwa [rest] at split) (by omega) touches sameEnd
      · exact .merge _ back _ split (by omega) touches sameEnd
      · conv => rw [← whole]
        exact .apart _ back _ split (by omega) notBefore

/-! ## When one call computes the union -/

/-- The two parts of a separated set around one of its elements. -/
theorem wellFormed_split {earlier : RangeSet} {back : Range} {rest : RangeSet}
    (wellFormed : WellFormed (earlier ++ back :: rest)) :
    (∀ left ∈ earlier, left.stop < back.start) ∧ back.start < back.stop ∧
      (∀ later ∈ rest, back.stop < later.start) ∧ WellFormed earlier ∧ WellFormed rest := by
  obtain ⟨earlierWellFormed, tailWellFormed, apart⟩ := wellFormed_append.mp wellFormed
  obtain ⟨nonempty, restApart, restWellFormed⟩ := wellFormed_cons.mp tailWellFormed
  exact ⟨fun left member => apart left member back (by simp), nonempty, restApart,
    earlierWellFormed, restWellFormed⟩

/-- A range that swallows the range `back` behind it, or stays apart from everything behind
it, is joined with what lies ahead. -/
theorem grow_spec {earlier rest : RangeSet} (it : Range) (nonempty : it.start < it.stop)
    (earlierWellFormed : WellFormed earlier) (restWellFormed : WellFormed rest)
    (apart : ∀ left ∈ earlier, left.stop < it.start)
    (notBefore : ∀ later ∈ rest, it.start ≤ later.start ∧
      (it.start = later.start → it.stop ≤ later.stop)) :
    WellFormed (earlier ++ addForward it rest) ∧
      ∀ address, Covered (earlier ++ addForward it rest) address ↔
        Covered earlier address ∨ (it.start ≤ address ∧ address < it.stop) ∨
          Covered rest address := by
  obtain ⟨kept, starts, covers⟩ := addForward_spec it nonempty restWellFormed notBefore
  refine ⟨wellFormed_append.mpr ⟨earlierWellFormed, kept, ?_⟩, fun address => ?_⟩
  · intro left inEarlier right inRest
    exact lt_of_lt_of_le (apart left inEarlier) (starts right inRest)
  · rw [covered_append, covers]

/-- A call whose range does not end inside an earlier range adds exactly that range. -/
theorem add_of_notInsideEarlier {set : RangeSet} {start stop : Nat}
    (wellFormed : WellFormed set) (ordered : start ≤ stop)
    (outside : NotInsideEarlier set start stop) :
    ∃ next, add set start stop = some next ∧ WellFormed next ∧
      ∀ address, Covered next address ↔
        Covered set address ∨ (start ≤ address ∧ address < stop) := by
  by_cases empty : start = stop
  · refine ⟨set, by simp [add, empty], wellFormed, fun address => ?_⟩
    have : ¬ (start ≤ address ∧ address < stop) := by omega
    simp [this]
  by_cases present : (⟨start, stop⟩ : Range) ∈ set
  · refine ⟨set, by simp [add, present], wellFormed, fun address => ?_⟩
    refine ⟨Or.inl, fun covered => covered.elim id fun inside => ⟨_, present, inside⟩⟩
  have nonempty : start < stop := by omega
  have outside := outside.resolve_left empty
  have cases := add_cases wellFormed empty present
  generalize add set start stop = result at cases
  cases cases with
  | first rest split notBefore =>
      obtain ⟨kept, covers⟩ := grow_spec ⟨start, stop⟩ nonempty wellFormed_nil
        (split ▸ wellFormed) (by simp) notBefore
      refine ⟨_, rfl, kept, fun address => ?_⟩
      rw [List.nil_append] at covers
      simp [covers, split, or_comm]
  | sameStart earlier back rest split same shorter =>
      obtain ⟨apart, backNonempty, restApart, earlierWellFormed, restWellFormed⟩ :=
        wellFormed_split (split ▸ wellFormed)
      obtain ⟨kept, covers⟩ := grow_spec ⟨start, stop⟩ nonempty earlierWellFormed
        restWellFormed (by simpa [same] using apart) (by
          intro later member
          have := restApart later member
          simp only
          omega)
      refine ⟨_, rfl, kept, fun address => ?_⟩
      rw [covers, split, covered_append, covered_cons]
      by_cases inEarlier : Covered earlier address
      · simp [inEarlier]
      by_cases inRest : Covered rest address
      · simp [inRest]
      simp only [inEarlier, inRest, false_or, or_false]
      omega
  | apart earlier back rest split gap notBefore =>
      obtain ⟨apart, backNonempty, restApart, earlierWellFormed, restWellFormed⟩ :=
        wellFormed_split (split ▸ wellFormed)
      have frontWellFormed : WellFormed (earlier ++ [back]) := by
        refine wellFormed_append.mpr ⟨earlierWellFormed, ?_, by simpa using apart⟩
        exact wellFormed_cons.mpr ⟨backNonempty, by simp, wellFormed_nil⟩
      obtain ⟨kept, covers⟩ := grow_spec ⟨start, stop⟩ nonempty frontWellFormed
        restWellFormed (by
          intro left member
          rcases List.mem_append.mp member with inEarlier | isBack
          · have := apart left inEarlier
            simp only
            omega
          · obtain rfl := List.mem_singleton.mp isBack
            exact gap) notBefore
      refine ⟨_, rfl, kept, fun address => ?_⟩
      rw [covers, split]
      simp only [covered_append, covered_cons, covered_nil, or_false, or_assoc]
      grind
  | merge earlier back rest split startsBefore touches endsDiffer =>
      obtain ⟨apart, -, restApart, earlierWellFormed, restWellFormed⟩ :=
        wellFormed_split (split ▸ wellFormed)
      have endsBefore := outside back (by simp [split]) startsBefore
      obtain ⟨kept, covers⟩ := grow_spec ⟨back.start, stop⟩ (by simp only; omega)
        earlierWellFormed restWellFormed apart (by
          intro later member
          have := restApart later member
          simp only
          omega)
      refine ⟨_, rfl, kept, fun address => ?_⟩
      rw [covers, split, covered_append, covered_cons]
      by_cases inEarlier : Covered earlier address
      · simp [inEarlier]
      by_cases inRest : Covered rest address
      · simp [inRest]
      simp only [inEarlier, inRest, false_or, or_false]
      omega
  | drop earlier back split startsBefore touches sameEnd =>
      have := outside back (by simp [split]) startsBefore
      omega
  | dangle earlier back next rest split startsBefore touches sameEnd =>
      have := outside back (by simp [split]) startsBefore
      omega

/-- In a separated set an address is reached by one range only. -/
theorem eq_of_covers {set : RangeSet} (wellFormed : WellFormed set) {left right : Range}
    (leftMem : left ∈ set) (rightMem : right ∈ set) (address : Nat)
    (inLeft : left.start ≤ address ∧ address ≤ left.stop)
    (inRight : right.start ≤ address ∧ address ≤ right.stop) :
    left = right := by
  induction set with
  | nil => simp at leftMem
  | cons head tail ih =>
      obtain ⟨-, apart, tailWellFormed⟩ := wellFormed_cons.mp wellFormed
      rcases List.mem_cons.mp leftMem with leftHead | leftTail
      · rcases List.mem_cons.mp rightMem with rightHead | rightTail
        · rw [leftHead, rightHead]
        · have := apart right rightTail
          rw [← leftHead] at this
          omega
      · rcases List.mem_cons.mp rightMem with rightHead | rightTail
        · have := apart left leftTail
          rw [← rightHead] at this
          omega
        · exact ih tailWellFormed leftTail rightTail

/-- A call whose range ends inside an earlier range loses an address: the end of the new
range when the earlier one reaches further, its start when both end together. -/
theorem add_loses_of_inside {set next : RangeSet} {start stop : Nat}
    (wellFormed : WellFormed set) (ordered : start ≤ stop)
    (inside : ¬ NotInsideEarlier set start stop) (added : add set start stop = some next) :
    ∃ address, Covered set address ∧ ¬ Covered next address := by
  simp only [NotInsideEarlier, not_or, not_forall, not_lt] at inside
  obtain ⟨nonempty, owner, ownerMem, ownerStarts, ownerEnds⟩ := inside
  have owns : ∀ range ∈ set, range.start ≤ start → start ≤ range.stop → range = owner :=
    fun range member low high =>
      eq_of_covers wellFormed member ownerMem start ⟨low, high⟩ ⟨by omega, by omega⟩
  have absent : (⟨start, stop⟩ : Range) ∉ set := by
    intro present
    have same := owns _ present le_rfl ordered
    rw [← same] at ownerStarts
    exact lt_irrefl _ ownerStarts
  have cases := add_cases wellFormed nonempty absent
  rw [added] at cases
  cases cases with
  | first rest split notBefore =>
      have := notBefore owner (split ▸ ownerMem)
      omega
  | sameStart earlier back rest split same shorter =>
      have nonemptyBack := wellFormed.nonempty back (by simp [split])
      obtain rfl := owns back (by simp [split]) same.ge (by omega)
      omega
  | apart earlier back rest split gap notBefore =>
      obtain ⟨apart, nonemptyBack, -, -, -⟩ := wellFormed_split (split ▸ wellFormed)
      rw [split] at ownerMem
      rcases List.mem_append.mp ownerMem with inEarlier | inTail
      · have := apart owner inEarlier
        omega
      · rcases List.mem_cons.mp inTail with rfl | inRest
        · omega
        · have := notBefore owner inRest
          omega
  | merge earlier back rest split startsBefore touches endsDiffer =>
      obtain ⟨apart, -, restApart, earlierWellFormed, restWellFormed⟩ :=
        wellFormed_split (split ▸ wellFormed)
      obtain rfl := owns back (by simp [split]) startsBefore.le touches
      obtain ⟨-, covers⟩ := grow_spec ⟨back.start, stop⟩ (by simp only; omega)
        earlierWellFormed restWellFormed apart (by
          intro later member
          have := restApart later member
          simp only
          omega)
      refine ⟨stop, ⟨back, ownerMem, by omega⟩, fun covered => ?_⟩
      rcases (covers stop).mp covered with ⟨range, member, low, high⟩ | grown | ⟨range, member, low, high⟩
      · have := apart range member
        omega
      · exact lt_irrefl _ grown.2
      · have := restApart range member
        omega
  | drop earlier back split startsBefore touches sameEnd =>
      obtain ⟨apart, -⟩ := wellFormed_split (split ▸ wellFormed)
      refine ⟨start, ⟨owner, ownerMem, by omega⟩, ?_⟩
      rintro ⟨range, member, low, high⟩
      have := apart range member
      omega

/-! ## Sequences of calls -/

/-- The arguments of a call; the callers pass `start <= end`. -/
structure AddCall where
  start : Nat
  stop : Nat
  ordered : start ≤ stop

/-- One call as a step of the set. -/
def addStep (set : RangeSet) (call : AddCall) : Option RangeSet :=
  add set call.start call.stop

/-- The union of the ranges of some calls. -/
def Union (calls : List AddCall) (address : Nat) : Prop :=
  ∃ call ∈ calls, call.start ≤ address ∧ address < call.stop

/-- The set is separated and stands for exactly the union of the ranges added so far. -/
def ExactUnion (calls : List AddCall) (set : RangeSet) : Prop :=
  WellFormed set ∧ ∀ address, Covered set address ↔ Union calls address

theorem union_concat (calls : List AddCall) (call : AddCall) (address : Nat) :
    Union (calls ++ [call]) address ↔
      Union calls address ∨ (call.start ≤ address ∧ address < call.stop) := by
  simp [Union, or_and_right, exists_or]

theorem exactUnion_addStep {calls : List AddCall} {set : RangeSet} (call : AddCall)
    (exact : ExactUnion calls set) (outside : NotInsideEarlier set call.start call.stop) :
    ∃ next, addStep set call = some next ∧ ExactUnion (calls ++ [call]) next := by
  obtain ⟨next, added, kept, covers⟩ :=
    add_of_notInsideEarlier exact.1 call.ordered outside
  refine ⟨next, added, kept, fun address => ?_⟩
  rw [covers, exact.2, union_concat]

theorem notInsideEarlier_of_exactUnion {calls : List AddCall} {set next : RangeSet}
    {call : AddCall} (exact : ExactUnion calls set) (added : addStep set call = some next)
    (after : ExactUnion (calls ++ [call]) next) :
    NotInsideEarlier set call.start call.stop := by
  by_contra inside
  obtain ⟨address, covered, lost⟩ := add_loses_of_inside exact.1 call.ordered inside added
  refine lost ((after.2 address).mpr ?_)
  exact (union_concat calls call address).mpr (Or.inl ((exact.2 address).mp covered))

end RangeSet

/-! ## Flushing pages -/

namespace Os

open RangeSet

/-- `PAGE_SIZE` of the msync code. -/
def pageSize : Nat := 4096

/-- `addr & PAGE_MASK`. -/
def alignedAddr (address : Nat) : Nat :=
  address / pageSize * pageSize

/-- A pointer into one of the mapped regions, none of which has the last page of the 64-bit
address space. -/
structure MappedAddr where
  address : Nat
  notLastPage : alignedAddr address + pageSize < 2 ^ 64

/-- `os::flush`: record the page of an address. -/
def flush (pending : RangeSet) (address : Nat) : Option RangeSet :=
  add pending (alignedAddr address) ((alignedAddr address + pageSize) % 2 ^ 64)

/-- `os::commit`: the ranges it calls `msync` on, and the cleared set. -/
def commit (pending : RangeSet) : List Range × RangeSet :=
  (pending, [])

/-- One flush as a step of the pending set. -/
def flushStep (pending : RangeSet) (pointer : MappedAddr) : Option RangeSet :=
  flush pending pointer.address

/-- The pages passed to `flush` lie in the ranges that `commit` would sync. -/
def PagesSynced (pointers : List MappedAddr) (pending : RangeSet) : Prop :=
  ∀ pointer ∈ pointers, ∃ range ∈ (commit pending).1,
    range.start ≤ alignedAddr pointer.address ∧
      alignedAddr pointer.address + pageSize ≤ range.stop

/-- The `add` call of a flush. -/
def pageCall (pointer : MappedAddr) : AddCall where
  start := alignedAddr pointer.address
  stop := alignedAddr pointer.address + pageSize
  ordered := Nat.le_add_right _ _

theorem flushStep_eq_addStep (pending : RangeSet) (pointer : MappedAddr) :
    flushStep pending pointer = addStep pending (pageCall pointer) := by
  simp only [flushStep, flush, addStep, pageCall, Nat.mod_eq_of_lt pointer.notLastPage]

/-- An interval that a separated set covers lies in one of its ranges. -/
theorem exists_range_of_covered {set : RangeSet} (wellFormed : WellFormed set)
    {start stop : Nat} (nonempty : start < stop)
    (covered : ∀ address, start ≤ address → address < stop → Covered set address) :
    ∃ range ∈ set, range.start ≤ start ∧ stop ≤ range.stop := by
  obtain ⟨range, member, starts, reaches⟩ := covered start le_rfl nonempty
  refine ⟨range, member, starts, ?_⟩
  by_contra short
  obtain ⟨other, otherMem, otherStarts, otherReaches⟩ :=
    covered range.stop (by omega) (by omega)
  have same := eq_of_covers wellFormed member otherMem range.stop ⟨by omega, le_rfl⟩
    ⟨otherStarts, by omega⟩
  rw [← same] at otherReaches
  exact lt_irrefl _ otherReaches

theorem pagesSynced_of_exactUnion {pointers : List MappedAddr} {pending : RangeSet}
    (exact : ExactUnion (pointers.map pageCall) pending) : PagesSynced pointers pending := by
  intro pointer member
  refine exists_range_of_covered exact.1 (by simp [pageSize]) fun address low high => ?_
  exact (exact.2 address).mpr ⟨pageCall pointer, List.mem_map_of_mem member, low, high⟩

theorem notInsideEarlier_of_pagesSynced {pointers : List MappedAddr} {pending next : RangeSet}
    {pointer : MappedAddr} (exact : ExactUnion (pointers.map pageCall) pending)
    (flushed : flushStep pending pointer = some next)
    (synced : PagesSynced (pointers ++ [pointer]) next) :
    NotInsideEarlier pending (pageCall pointer).start (pageCall pointer).stop := by
  by_contra inside
  rw [flushStep_eq_addStep] at flushed
  obtain ⟨address, covered, lost⟩ :=
    add_loses_of_inside exact.1 (pageCall pointer).ordered inside flushed
  obtain ⟨call, callMem, low, high⟩ := (exact.2 address).mp covered
  obtain ⟨earlier, earlierMem, rfl⟩ := List.mem_map.mp callMem
  obtain ⟨range, rangeMem, starts, reaches⟩ :=
    synced earlier (List.mem_append_left _ earlierMem)
  simp only [pageCall] at low high
  exact lost ⟨range, rangeMem, by omega, by omega⟩

end Os

namespace RangeSet

/-- The union is exact after every call of a sequence exactly when no call's range ends
inside a range that starts before it; in the same way, every page flushed since the last
commit lies in the ranges that the commit would sync, after every flush, exactly when no
flushed page lies inside a recorded range that starts before it. -/
theorem exactUnion_and_pagesSynced_iff (calls : List AddCall) (pointers : List Os.MappedAddr) :
    ((∀ before, before <+: calls →
        ∃ set, run addStep [] before = some set ∧ ExactUnion before set) ↔
      MeetsAlong addStep (fun set call => NotInsideEarlier set call.start call.stop) [] calls) ∧
    ((∀ before, before <+: pointers →
        ∃ pending, run Os.flushStep [] before = some pending ∧
          Os.PagesSynced before pending) ↔
      MeetsAlong Os.flushStep
        (fun pending pointer => NotInsideEarlier pending (Os.alignedAddr pointer.address)
          (Os.alignedAddr pointer.address + Os.pageSize))
        [] pointers) := by
  constructor
  · refine forall_prefix_iff_meetsAlong ExactUnion ExactUnion (fun _ _ exact => exact)
      ?_ ?_ [] ?_ calls
    · exact fun past set call exact outside => exactUnion_addStep call exact outside
    · exact fun past set call next exact added after =>
        notInsideEarlier_of_exactUnion exact added after
    · exact ⟨wellFormed_nil, by simp [Union]⟩
  · refine forall_prefix_iff_meetsAlong (fun past => ExactUnion (past.map Os.pageCall))
      Os.PagesSynced (fun _ _ exact => Os.pagesSynced_of_exactUnion exact) ?_ ?_ [] ?_ pointers
    · intro past pending pointer exact outside
      obtain ⟨next, added, after⟩ :=
        exactUnion_addStep (Os.pageCall pointer) exact outside
      exact ⟨next, by rw [Os.flushStep_eq_addStep, added], by simpa using after⟩
    · exact fun past pending pointer next exact flushed synced =>
        Os.notInsideEarlier_of_pagesSynced exact flushed synced
    · exact ⟨wellFormed_nil, by simp [Union]⟩

/-- Two neighbouring pages are flushed, and the second of them again: nothing is pending. -/
theorem reflushed_page_is_dropped :
    run Os.flushStep [] [⟨0x10000000000, by decide⟩, ⟨0x10000001000, by decide⟩,
        ⟨0x10000001000, by decide⟩] = some [] ∧
      ¬ Os.PagesSynced [⟨0x10000000000, by decide⟩, ⟨0x10000001000, by decide⟩,
        ⟨0x10000001000, by decide⟩] [] ∧
      ¬ ∃ set, run addStep []
          [⟨0x10000000000, 0x10000001000, by decide⟩,
            ⟨0x10000001000, 0x10000002000, by decide⟩,
            ⟨0x10000001000, 0x10000002000, by decide⟩] = some set ∧
        ExactUnion
          [⟨0x10000000000, 0x10000001000, by decide⟩,
            ⟨0x10000001000, 0x10000002000, by decide⟩,
            ⟨0x10000001000, 0x10000002000, by decide⟩] set := by
  refine ⟨by decide, ?_, ?_⟩
  · intro synced
    obtain ⟨range, member, -⟩ := synced ⟨0x10000000000, by decide⟩ (by simp)
    simp [Os.commit] at member
  · rintro ⟨set, reached, exact⟩
    obtain rfl : [] = set := Option.some.inj reached
    refine covered_nil 0x10000000000 ((exact.2 _).mpr ⟨_, List.mem_cons_self, ?_⟩)
    decide

end RangeSet

end Pmgd
