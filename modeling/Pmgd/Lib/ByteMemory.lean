import Mathlib.Algebra.Group.Nat.Defs
import Mathlib.Data.List.GetD
import Mathlib.Tactic.Common

/-!
# Memory as a function from addresses to bytes

Storing and loading runs of consecutive bytes, with the rules for what a store changes and
what it leaves alone.
-/

namespace Pmgd.ByteMemory

abbrev Memory := Nat → UInt8

/-- Copy bytes to consecutive addresses. -/
def store (memory : Memory) (address : Nat) (bytes : List UInt8) : Memory :=
  fun other =>
    if address ≤ other then bytes.getD (other - address) (memory other) else memory other

/-- The bytes at consecutive addresses. -/
def load (memory : Memory) (address count : Nat) : List UInt8 :=
  (List.range count).map fun offset => memory (address + offset)

variable {memory other : Memory} {address start count : Nat} {bytes : List UInt8}

theorem store_inside {offset : Nat} (inside : offset < bytes.length) :
    store memory address bytes (address + offset) = bytes[offset] := by
  simp [store, inside]

theorem store_outside {place : Nat}
    (outside : place < address ∨ address + bytes.length ≤ place) :
    store memory address bytes place = memory place := by
  unfold store
  split_ifs with behind
  · exact List.getD_eq_default _ _ (by omega)
  · rfl

@[simp]
theorem length_load : (load memory address count).length = count := by
  simp [load]

theorem load_congr
    (same : ∀ offset, offset < count → memory (address + offset) = other (start + offset)) :
    load memory address count = load other start count := by
  refine List.map_congr_left fun offset inRange => ?_
  exact same offset (List.mem_range.mp inRange)

theorem load_store_self :
    load (store memory address bytes) address bytes.length = bytes := by
  refine List.ext_getElem (by simp) fun offset _ inside => ?_
  simp [load, store_inside inside]

theorem load_store_of_disjoint
    (disjoint : start + count ≤ address ∨ address + bytes.length ≤ start) :
    load (store memory address bytes) start count = load memory start count := by
  refine load_congr fun offset inRange => store_outside ?_
  omega

@[simp]
theorem store_nil : store memory address [] = memory := by
  funext place
  exact store_outside (by simp only [List.length_nil]; omega)

theorem store_append (first second : List UInt8) :
    store memory address (first ++ second) =
      store (store memory address first) (address + first.length) second := by
  funext place
  by_cases before : place < address + first.length
  · rw [store_outside (.inl before)]
    by_cases inside : address ≤ place
    · obtain ⟨offset, rfl⟩ := Nat.exists_eq_add_of_le inside
      have inFirst : offset < first.length := by omega
      rw [store_inside (by rw [List.length_append]; omega), store_inside inFirst,
        List.getElem_append_left inFirst]
    · rw [store_outside (.inl (by omega)), store_outside (.inl (by omega))]
  · obtain ⟨offset, rfl⟩ := Nat.exists_eq_add_of_le (Nat.le_of_not_lt before)
    by_cases inside : offset < second.length
    · have inBoth : first.length + offset < (first ++ second).length := by
        rw [List.length_append]
        omega
      rw [store_inside inside, Nat.add_assoc, store_inside inBoth,
        List.getElem_append_right (by omega)]
      simp
    · rw [store_outside (.inr (by rw [List.length_append]; omega)),
        store_outside (.inr (by omega)), store_outside (.inr (by omega))]

/-- Storing what is there changes nothing. -/
theorem store_load_self : store memory address (load memory address count) = memory := by
  funext place
  by_cases inside : address ≤ place ∧ place < address + count
  · obtain ⟨offset, rfl⟩ := Nat.exists_eq_add_of_le inside.1
    have inCount : offset < (load memory address count).length := by
      rw [length_load]
      omega
    rw [store_inside inCount]
    simp [load]
  · exact store_outside (by rw [length_load]; omega)

/-- Stores to different places commute. -/
theorem store_comm {later : List UInt8}
    (disjoint : address + bytes.length ≤ start ∨ start + later.length ≤ address) :
    store (store memory address bytes) start later =
      store (store memory start later) address bytes := by
  funext place
  by_cases inBytes : address ≤ place ∧ place < address + bytes.length
  · obtain ⟨offset, rfl⟩ := Nat.exists_eq_add_of_le inBytes.1
    have inside : offset < bytes.length := by omega
    rw [store_outside (by omega), store_inside inside, store_inside inside]
  · rw [@store_outside _ _ bytes place (by omega)]
    by_cases inLater : start ≤ place ∧ place < start + later.length
    · obtain ⟨offset, rfl⟩ := Nat.exists_eq_add_of_le inLater.1
      have inside : offset < later.length := by omega
      rw [store_inside inside, store_inside inside]
    · rw [store_outside (by omega), store_outside (by omega), store_outside (by omega)]

/-! ## Little-endian numbers -/

/-- The lowest bytes of a number, the least significant one first. -/
def encode : Nat → Nat → List UInt8
  | 0, _ => []
  | width + 1, value => UInt8.ofNat value :: encode width (value / 256)

/-- The number with the given bytes. -/
def decode : List UInt8 → Nat
  | [] => 0
  | byte :: bytes => byte.toNat + 256 * decode bytes

@[simp]
theorem length_encode (width value : Nat) : (encode width value).length = width := by
  induction width generalizing value with
  | zero => rfl
  | succ width ih => rw [encode, List.length_cons, ih]

theorem decode_lt (bytes : List UInt8) : decode bytes < 256 ^ bytes.length := by
  induction bytes with
  | nil => exact Nat.one_pos
  | cons byte bytes ih =>
      have small := byte.toNat_lt
      rw [decode, List.length_cons, Nat.pow_succ]
      omega

theorem decode_encode (width value : Nat) :
    decode (encode width value) = value % 256 ^ width := by
  induction width generalizing value with
  | zero => rw [encode, decode, Nat.pow_zero, Nat.mod_one]
  | succ width ih =>
      have split : value % (256 * 256 ^ width) = value % 256 + 256 * (value / 256 % 256 ^ width) :=
        Nat.mod_mul
      rw [encode, decode, ih, UInt8.toNat_ofNat', Nat.pow_succ' (n := width), split]

theorem decode_append (first second : List UInt8) :
    decode (first ++ second) = decode first + 256 ^ first.length * decode second := by
  induction first with
  | nil => simp [decode]
  | cons byte first ih =>
      rw [List.cons_append, decode, decode, ih, List.length_cons, Nat.pow_succ', Nat.mul_add,
        Nat.mul_assoc, Nat.add_assoc]

theorem decode_injective {first second : List UInt8} (length : first.length = second.length)
    (same : decode first = decode second) : first = second := by
  induction first generalizing second with
  | nil => exact (List.eq_nil_of_length_eq_zero length.symm).symm
  | cons byte first ih =>
      cases second with
      | nil => cases length
      | cons other second =>
          have small := byte.toNat_lt
          have otherSmall := other.toNat_lt
          rw [decode, decode] at same
          have sameByte : byte = other := UInt8.toNat_inj.mp (by omega)
          rw [sameByte, ih (Nat.succ.inj length) (by omega)]

/-- The number in memory at an address. -/
def loadNat (memory : Memory) (address width : Nat) : Nat :=
  decode (load memory address width)

theorem loadNat_lt (memory : Memory) (address width : Nat) :
    loadNat memory address width < 256 ^ width := by
  have bound := decode_lt (load memory address width)
  rwa [length_load] at bound

/-- A number decides its bytes. -/
theorem byte_of_loadNat {width offset : Nat} (inside : offset < width)
    (same : loadNat memory address width = loadNat other start width) :
    memory (address + offset) = other (start + offset) := by
  have loaded := decode_injective (by rw [length_load, length_load]) same
  have bytes := congrArg (fun bytes => bytes[offset]?) loaded
  simpa [load, inside] using bytes

theorem load_add (memory : Memory) (address first second : Nat) :
    load memory address (first + second) =
      load memory address first ++ load memory (address + first) second := by
  rw [load, List.range_add, List.map_append, List.map_map]
  simp only [load, Function.comp_def, Nat.add_assoc]

/-- The lower and the upper bytes of a number. -/
theorem loadNat_add (memory : Memory) (address first second : Nat) :
    loadNat memory address (first + second) =
      loadNat memory address first + 256 ^ first * loadNat memory (address + first) second := by
  rw [loadNat, load_add, decode_append, length_load, loadNat, loadNat]

theorem loadNat_store_encode (memory : Memory) (address width value : Nat) :
    loadNat (store memory address (encode width value)) address width =
      value % 256 ^ width := by
  have loaded := @load_store_self memory address (encode width value)
  rw [length_encode] at loaded
  rw [loadNat, loaded, decode_encode]

theorem loadNat_store_self {width value : Nat} (small : value < 256 ^ width) :
    loadNat (store memory address (encode width value)) address width = value := by
  rw [loadNat_store_encode, Nat.mod_eq_of_lt small]

theorem loadNat_store_of_disjoint {width : Nat}
    (disjoint : start + width ≤ address ∨ address + bytes.length ≤ start) :
    loadNat (store memory address bytes) start width = loadNat memory start width := by
  rw [loadNat, load_store_of_disjoint disjoint, loadNat]

/-- The first byte decides whether a number is even. -/
theorem loadNat_mod_two (memory : Memory) (address width : Nat) :
    loadNat memory address (width + 1) % 2 = (memory address).toNat % 2 := by
  rw [loadNat, load, List.range_succ_eq_map, List.map_cons, decode, Nat.add_zero]
  omega

end Pmgd.ByteMemory
