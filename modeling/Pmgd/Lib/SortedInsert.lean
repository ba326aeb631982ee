import Mathlib.Data.List.Sort
import Mathlib.Order.Lattice

/-!
# Lists sorted by a key

A finite map is represented by the list of its entries in strictly ascending order of their
keys.  Adding an entry leaves the list alone when the key is there already; removing a key is
filtering it out.  The lemmas say how both act on a list that is split at an entry, which is
how the in-order list of a search tree is split at its root.
-/

namespace Pmgd.SortedInsert

variable {K Entry : Type*} [LinearOrder K] {key : Entry → K}

/-- The keys ascend strictly. -/
def SortedBy (key : Entry → K) (entries : List Entry) : Prop :=
  entries.Pairwise fun left right => key left < key right

/-- Insert an entry unless its key is there. -/
def insertBy (key : Entry → K) (entry : Entry) : List Entry → List Entry
  | [] => [entry]
  | head :: rest =>
      if key entry = key head then head :: rest
      else if key entry < key head then entry :: head :: rest
      else head :: insertBy key entry rest

/-- Remove the entries of a key. -/
def eraseBy (key : Entry → K) (target : K) (entries : List Entry) : List Entry :=
  entries.filter fun entry => key entry ≠ target

theorem insertBy_nil {entry : Entry} : insertBy key entry [] = [entry] :=
  rfl

theorem insertBy_cons {entry head : Entry} {rest : List Entry} :
    insertBy key entry (head :: rest) =
      if key entry = key head then head :: rest
      else if key entry < key head then entry :: head :: rest
      else head :: insertBy key entry rest :=
  rfl

@[simp]
theorem sortedBy_nil : SortedBy key [] :=
  List.Pairwise.nil

theorem sortedBy_append_cons {left right : List Entry} {middle : Entry} :
    SortedBy key (left ++ middle :: right) ↔
      SortedBy key left ∧ SortedBy key right ∧ (∀ entry ∈ left, key entry < key middle) ∧
        ∀ entry ∈ right, key middle < key entry := by
  simp only [SortedBy, List.pairwise_append, List.pairwise_cons, List.mem_cons]
  constructor
  · rintro ⟨leftSorted, ⟨above, rightSorted⟩, apart⟩
    exact ⟨leftSorted, rightSorted, fun entry member => apart entry member middle (Or.inl rfl),
      above⟩
  · rintro ⟨leftSorted, rightSorted, below, above⟩
    refine ⟨leftSorted, ⟨above, rightSorted⟩, fun first inLeft second inRight => ?_⟩
    rcases inRight with rfl | inRight
    · exact below first inLeft
    · exact (below first inLeft).trans (above second inRight)

theorem mem_insertBy {entry other : Entry} {entries : List Entry}
    (member : other ∈ insertBy key entry entries) : other = entry ∨ other ∈ entries := by
  induction entries with
  | nil => exact Or.inl (List.mem_singleton.mp member)
  | cons head rest ih =>
      rw [insertBy_cons] at member
      split_ifs at member with same before
      · exact Or.inr member
      · exact List.mem_cons.mp member
      · rcases List.mem_cons.mp member with rfl | inRest
        · exact Or.inr List.mem_cons_self
        · exact (ih inRest).imp_right (List.mem_cons_of_mem head)

theorem insertBy_append_of_lt {entry middle : Entry} (before : key entry < key middle)
    (left right : List Entry) :
    insertBy key entry (left ++ middle :: right) =
      insertBy key entry left ++ middle :: right := by
  induction left with
  | nil => simp [insertBy_nil, insertBy_cons, before.ne, before]
  | cons head left ih =>
      simp only [List.cons_append, insertBy_cons]
      split_ifs
      · rfl
      · rfl
      · rw [ih, List.cons_append]

theorem insertBy_append_of_gt {entry middle : Entry} (after : key middle < key entry)
    {left : List Entry} (below : ∀ other ∈ left, key other < key middle)
    (right : List Entry) :
    insertBy key entry (left ++ middle :: right) =
      left ++ middle :: insertBy key entry right := by
  induction left with
  | nil => simp [insertBy_cons, after.ne', after.not_gt]
  | cons head left ih =>
      have headBefore : key head < key entry := (below head List.mem_cons_self).trans after
      have rest := ih fun other member => below other (List.mem_cons_of_mem head member)
      simp only [List.cons_append, insertBy_cons, headBefore.ne', headBefore.not_gt, if_false, rest]

theorem insertBy_append_of_eq {entry middle : Entry} (same : key entry = key middle)
    {left : List Entry} (below : ∀ other ∈ left, key other < key middle)
    (right : List Entry) :
    insertBy key entry (left ++ middle :: right) = left ++ middle :: right := by
  induction left with
  | nil => simp [insertBy_cons, same]
  | cons head left ih =>
      have headBefore : key head < key entry := same ▸ below head List.mem_cons_self
      have rest := ih fun other member => below other (List.mem_cons_of_mem head member)
      simp only [List.cons_append, insertBy_cons, headBefore.ne', headBefore.not_gt, if_false, rest]

theorem sortedBy_insertBy {entry : Entry} {entries : List Entry}
    (sorted : SortedBy key entries) : SortedBy key (insertBy key entry entries) := by
  induction entries with
  | nil => exact List.pairwise_singleton _ entry
  | cons head rest ih =>
      obtain ⟨above, restSorted⟩ := List.pairwise_cons.mp sorted
      rw [insertBy_cons]
      split_ifs with same before
      · exact sorted
      · refine List.pairwise_cons.mpr ⟨fun other member => ?_, sorted⟩
        rcases List.mem_cons.mp member with rfl | inRest
        · exact before
        · exact before.trans (above other inRest)
      · refine List.pairwise_cons.mpr ⟨fun other member => ?_, ih restSorted⟩
        rcases mem_insertBy member with rfl | inRest
        · exact lt_of_le_of_ne (not_lt.mp before) (Ne.symm same)
        · exact above other inRest

/-- A key has one entry. -/
theorem SortedBy.eq_of_key_eq {first second : Entry} {entries : List Entry}
    (sorted : SortedBy key entries) (isFirst : first ∈ entries) (isSecond : second ∈ entries)
    (same : key first = key second) : first = second := by
  induction entries with
  | nil => exact absurd isFirst List.not_mem_nil
  | cons head rest ih =>
      obtain ⟨above, restSorted⟩ := List.pairwise_cons.mp sorted
      rcases List.mem_cons.mp isFirst with rfl | firstInRest
      · rcases List.mem_cons.mp isSecond with rfl | secondInRest
        · rfl
        · exact absurd same (above second secondInRest).ne
      · rcases List.mem_cons.mp isSecond with rfl | secondInRest
        · exact absurd same (above first firstInRest).ne'
        · exact ih restSorted firstInRest secondInRest

theorem SortedBy.nodup {entries : List Entry} (sorted : SortedBy key entries) : entries.Nodup :=
  sorted.imp fun before same => absurd (congrArg key same) before.ne

theorem insertBy_of_mem {entry other : Entry} {entries : List Entry}
    (sorted : SortedBy key entries) (member : other ∈ entries) (same : key entry = key other) :
    insertBy key entry entries = entries := by
  obtain ⟨left, right, rfl⟩ := List.append_of_mem member
  exact insertBy_append_of_eq same (sortedBy_append_cons.mp sorted).2.2.1 right

theorem insertBy_perm {entry : Entry} {entries : List Entry}
    (absent : ∀ other ∈ entries, key entry ≠ key other) :
    (insertBy key entry entries).Perm (entry :: entries) := by
  induction entries with
  | nil => exact List.Perm.refl _
  | cons head rest ih =>
      rw [insertBy_cons, if_neg (absent head List.mem_cons_self)]
      split_ifs
      · exact List.Perm.refl _
      · have restPerm := ih fun other member => absent other (List.mem_cons_of_mem head member)
        exact (restPerm.cons head).trans (List.Perm.swap entry head rest)

theorem sortedBy_eraseBy {entries : List Entry} (sorted : SortedBy key entries) (target : K) :
    SortedBy key (eraseBy key target entries) :=
  List.Pairwise.filter _ sorted

theorem eraseBy_of_forall_ne {entries : List Entry} {target : K}
    (absent : ∀ entry ∈ entries, key entry ≠ target) : eraseBy key target entries = entries :=
  List.filter_eq_self.mpr fun entry member => by simpa using absent entry member

theorem eraseBy_append_cons (target : K) (left right : List Entry) (middle : Entry) :
    eraseBy key target (left ++ middle :: right) =
      eraseBy key target left ++
        (if key middle = target then eraseBy key target right
          else middle :: eraseBy key target right) := by
  simp only [eraseBy, List.filter_append, List.filter_cons]
  split_ifs <;> simp_all

theorem eraseBy_append_of_lt {middle : Entry} {left right : List Entry}
    (sorted : SortedBy key (left ++ middle :: right)) {target : K}
    (before : target < key middle) :
    eraseBy key target (left ++ middle :: right) =
      eraseBy key target left ++ middle :: right := by
  obtain ⟨-, -, -, above⟩ := sortedBy_append_cons.mp sorted
  rw [eraseBy_append_cons, if_neg before.ne',
    eraseBy_of_forall_ne fun entry member => (before.trans (above entry member)).ne']

theorem eraseBy_append_of_gt {middle : Entry} {left right : List Entry}
    (sorted : SortedBy key (left ++ middle :: right)) {target : K}
    (after : key middle < target) :
    eraseBy key target (left ++ middle :: right) =
      left ++ middle :: eraseBy key target right := by
  obtain ⟨-, -, below, -⟩ := sortedBy_append_cons.mp sorted
  rw [eraseBy_append_cons, if_neg after.ne,
    eraseBy_of_forall_ne fun entry member => ((below entry member).trans after).ne]

theorem eraseBy_append_self {middle : Entry} {left right : List Entry}
    (sorted : SortedBy key (left ++ middle :: right)) :
    eraseBy key (key middle) (left ++ middle :: right) = left ++ right := by
  obtain ⟨-, -, below, above⟩ := sortedBy_append_cons.mp sorted
  rw [eraseBy_append_cons, if_pos rfl,
    eraseBy_of_forall_ne fun entry member => (below entry member).ne,
    eraseBy_of_forall_ne fun entry member => (above entry member).ne']

theorem map_insertBy {Other : Type*} {otherKey : Other → K} {convert : Entry → Other}
    (sameKey : ∀ entry, otherKey (convert entry) = key entry) (entry : Entry)
    (entries : List Entry) :
    (insertBy key entry entries).map convert =
      insertBy otherKey (convert entry) (entries.map convert) := by
  induction entries with
  | nil => rfl
  | cons head rest ih =>
      simp only [insertBy, List.map_cons, sameKey]
      split_ifs
      · rfl
      · rfl
      · rw [List.map_cons, ih]

end Pmgd.SortedInsert
