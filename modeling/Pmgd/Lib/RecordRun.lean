import Pmgd.Lib.ByteMemory

/-!
# Records one behind the other

A record takes some consecutive bytes, and only these bytes decide whether memory has it at a
place.  A run of records without gaps can be cut anywhere, and a store that spares the bytes of a
run spares the run.
-/

namespace Pmgd.RecordRun

open ByteMemory

/-- How the records of a kind lie in memory. -/
structure Layout (Record : Type*) where
  size : Record → Nat
  HeldAt : Memory → Nat → Record → Prop
  size_pos : ∀ record, 0 < size record
  congr : ∀ {memory other : Memory} {place : Nat} {record : Record},
    (∀ offset, offset < size record → other (place + offset) = memory (place + offset)) →
      HeldAt memory place record → HeldAt other place record

namespace Layout

variable {Record : Type*} (layout : Layout Record)

/-- The bytes of a run of records. -/
def total : List Record → Nat
  | [] => 0
  | record :: records => layout.size record + total records

/-- The records lie one behind the other from a place on. -/
def Laid (memory : Memory) : Nat → List Record → Prop
  | _, [] => True
  | place, record :: records =>
      layout.HeldAt memory place record ∧ Laid memory (place + layout.size record) records

/-- The records with their places. -/
def places : Nat → List Record → List (Nat × Record)
  | _, [] => []
  | place, record :: records => (place, record) :: places (place + layout.size record) records

variable {layout} {memory other : Memory} {place address : Nat} {record : Record}
  {records first second : List Record} {bytes : List UInt8}

@[simp]
theorem total_nil : layout.total [] = 0 :=
  rfl

@[simp]
theorem total_cons : layout.total (record :: records) = layout.size record + layout.total records :=
  rfl

@[simp]
theorem total_append : layout.total (first ++ second) = layout.total first + layout.total second := by
  induction first with
  | nil => exact (Nat.zero_add _).symm
  | cons record records ih => rw [List.cons_append, total_cons, total_cons, ih, Nat.add_assoc]

theorem length_le_total (records : List Record) : records.length ≤ layout.total records := by
  induction records with
  | nil => exact Nat.zero_le _
  | cons record records ih =>
      have positive := layout.size_pos record
      rw [total_cons, List.length_cons]
      omega

/-- The record of a run that a byte falls into. -/
theorem exists_cut {count : Nat} (positive : 0 < count) (enough : count ≤ layout.total records) :
    ∃ front record back, records = front ++ record :: back ∧ layout.total front < count ∧
      count ≤ layout.total front + layout.size record := by
  induction records generalizing count with
  | nil => exact absurd (Nat.lt_of_lt_of_le positive enough) (Nat.lt_irrefl 0)
  | cons head records ih =>
      rw [total_cons] at enough
      rcases Nat.lt_or_ge (layout.size head) count with later | here
      · obtain ⟨front, record, back, rfl, before, within⟩ :=
          @ih (count - layout.size head) (by omega) (by omega)
        refine ⟨head :: front, record, back, rfl, ?_, ?_⟩
        · rw [total_cons]
          omega
        · rw [total_cons]
          omega
      · exact ⟨[], head, records, rfl, positive, by rwa [total_nil, Nat.zero_add]⟩

theorem laid_append : layout.Laid memory place (first ++ second) ↔
    layout.Laid memory place first ∧ layout.Laid memory (place + layout.total first) second := by
  induction first generalizing place with
  | nil => simp [Laid]
  | cons record first ih =>
      rw [List.cons_append, Laid, Laid, ih, and_assoc, total_cons, Nat.add_assoc]

/-- Only the bytes of a run matter. -/
theorem Laid.congr (laid : layout.Laid memory place records)
    (same : ∀ offset, offset < layout.total records →
      other (place + offset) = memory (place + offset)) : layout.Laid other place records := by
  induction records generalizing place with
  | nil => trivial
  | cons record records ih =>
      obtain ⟨held, laid⟩ := laid
      rw [total_cons] at same
      constructor
      · exact layout.congr (fun offset inside => same offset (by omega)) held
      · apply ih laid
        intro offset inside
        rw [Nat.add_assoc]
        exact same (layout.size record + offset) (by omega)

theorem Laid.store (laid : layout.Laid memory place records)
    (disjoint : place + layout.total records ≤ address ∨ address + bytes.length ≤ place) :
    layout.Laid (store memory address bytes) place records := by
  apply laid.congr
  intro offset inside
  exact store_outside (by omega)

@[simp]
theorem places_append : layout.places place (first ++ second) =
    layout.places place first ++ layout.places (place + layout.total first) second := by
  induction first generalizing place with
  | nil => rfl
  | cons record first ih =>
      rw [List.cons_append, places, places, ih, total_cons, Nat.add_assoc, List.cons_append]

end Layout

end Pmgd.RecordRun
