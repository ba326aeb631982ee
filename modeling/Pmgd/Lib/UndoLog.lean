import Mathlib.Data.List.Basic
import Mathlib.Logic.Function.Basic

/-!
# Undo logs

An undo image remembers the old values of some addresses.  An undo log is a list of images,
the oldest first; undoing it copies the images back from the newest to the oldest, so that
the oldest image of an address decides.  The values at the addresses of the log do not matter
for the outcome, which is why a partial undo followed by a complete one is a complete one.
-/

namespace Pmgd.UndoLog

variable {Address Value : Type*}

/-- The remembered values of some addresses. -/
abbrev Image (Address Value : Type*) := Address → Option Value

/-- Copy one image back. -/
def restore (image : Image Address Value) (memory : Address → Value) : Address → Value :=
  fun address => (image address).getD (memory address)

/-- Copy all images back, the newest (last) first. -/
def undo (images : List (Image Address Value)) (memory : Address → Value) :
    Address → Value :=
  images.foldr restore memory

/-- Some image has the address. -/
def Covers (images : List (Image Address Value)) (address : Address) : Prop :=
  ∃ image ∈ images, (image address).isSome

instance (images : List (Image Address Value)) (address : Address) :
    Decidable (Covers images address) :=
  inferInstanceAs (Decidable (∃ image ∈ images, _))

/-- The image of the current values of a set of addresses. -/
def snapshot (addresses : Address → Prop) [DecidablePred addresses]
    (memory : Address → Value) : Image Address Value :=
  fun address => if addresses address then some (memory address) else none

@[simp]
theorem undo_nil (memory : Address → Value) : undo [] memory = memory :=
  rfl

@[simp]
theorem undo_cons (image : Image Address Value) (images : List (Image Address Value))
    (memory : Address → Value) :
    undo (image :: images) memory = restore image (undo images memory) :=
  rfl

theorem undo_append (first second : List (Image Address Value)) (memory : Address → Value) :
    undo (first ++ second) memory = undo first (undo second memory) := by
  simp [undo, List.foldr_append]

/-- The oldest image of an address decides its value. -/
theorem undo_apply (images : List (Image Address Value)) (memory : Address → Value)
    (address : Address) :
    undo images memory address =
      (images.findSome? fun image => image address).getD (memory address) := by
  induction images with
  | nil => rfl
  | cons image images ih =>
      rw [undo_cons, restore, List.findSome?_cons]
      cases image address with
      | none => simpa using ih
      | some value => rfl

theorem undo_of_not_covers {images : List (Image Address Value)} {address : Address}
    (memory : Address → Value) (uncovered : ¬ Covers images address) :
    undo images memory address = memory address := by
  have noImage : images.findSome? (fun image => image address) = none := by
    refine List.findSome?_eq_none_iff.mpr fun image member => ?_
    by_contra remembered
    exact uncovered ⟨image, member, Option.isSome_iff_ne_none.mpr remembered⟩
  rw [undo_apply, noImage, Option.getD_none]

/-- Only the values outside the log survive an undo. -/
theorem undo_congr {images : List (Image Address Value)} {left right : Address → Value}
    {address : Address} (agree : ¬ Covers images address → left address = right address) :
    undo images left address = undo images right address := by
  by_cases covered : Covers images address
  · obtain ⟨image, member, remembered⟩ := covered
    rw [undo_apply, undo_apply]
    cases found : images.findSome? (fun image => image address) with
    | none =>
        rw [List.findSome?_eq_none_iff.mp found image member] at remembered
        simp at remembered
    | some value => rfl
  · rw [undo_of_not_covers left covered, undo_of_not_covers right covered, agree covered]

/-- An image taken from memory changes nothing when it is added to the log. -/
theorem undo_concat_of_snapshot {images : List (Image Address Value)}
    {image : Image Address Value} {memory : Address → Value}
    (snapshot : ∀ address value, image address = some value → value = memory address) :
    undo (images ++ [image]) memory = undo images memory := by
  rw [undo_append, undo_cons, undo_nil]
  congr 1
  funext address
  rw [restore]
  cases remembered : image address with
  | none => rfl
  | some value => exact snapshot address value remembered

/-- The same for the image of a set of addresses. -/
theorem undo_concat_snapshot (images : List (Image Address Value)) (addresses : Address → Prop)
    [DecidablePred addresses] (memory : Address → Value) :
    undo (images ++ [snapshot addresses memory]) memory = undo images memory := by
  refine undo_concat_of_snapshot fun address value isImage => ?_
  rw [snapshot] at isImage
  split_ifs at isImage
  exact (Option.some.inj isImage).symm

theorem covers_concat_snapshot (images : List (Image Address Value))
    (addresses : Address → Prop) [DecidablePred addresses] (memory : Address → Value)
    (address : Address) :
    Covers (images ++ [snapshot addresses memory]) address ↔
      Covers images address ∨ addresses address := by
  simp only [Covers, List.mem_append, List.mem_singleton]
  constructor
  · rintro ⟨image, member | rfl, remembered⟩
    · exact .inl ⟨image, member, remembered⟩
    · rw [snapshot] at remembered
      split_ifs at remembered with inside
      · exact .inr inside
      · cases remembered
  · rintro (⟨image, member, remembered⟩ | inside)
    · exact ⟨image, .inl member, remembered⟩
    · exact ⟨_, .inr rfl, by rw [snapshot, if_pos inside, Option.isSome_some]⟩

/-- A store to an address of the log is undone with it. -/
theorem undo_update_of_covers [DecidableEq Address] {images : List (Image Address Value)}
    {address : Address} (covered : Covers images address) (memory : Address → Value)
    (value : Value) :
    undo images (Function.update memory address value) = undo images memory := by
  funext other
  refine undo_congr fun uncovered => ?_
  have different : other ≠ address := by
    rintro rfl
    exact uncovered covered
  exact Function.update_of_ne different value memory

end Pmgd.UndoLog
