import Mathlib.Data.List.Infix
import Mathlib.Data.Nat.Bitwise
import Mathlib.Tactic.Common
import Pmgd.Lib.ByteMemory
import Pmgd.Lib.LabelledRun

/-!
# String table

Tags and property names are stored once, in an open-addressing hash table of slots of
`MAX_STRINGID_LEN` bytes, and a `StringID` is the number of a slot.  The slots hold no length:
a string ends at its first NUL byte or at the end of its slot.  The probe loop of `get`
compares only as many bytes as the name has that is looked up, so that a name also matches a
longer string of which it is a prefix.
-/

namespace Pmgd

open ByteMemory LabelledRun

/-- The counters of a table.  `max_stringid_length` is a 32-bit power of two, and a string id
has 16 bits. -/
structure StringTable where
  lenBits : Nat
  numHashBits : Nat
  lenBits_lt : lenBits < 32
  numHashBits_le : numHashBits ≤ 16
  deriving DecidableEq

namespace StringTable

def maxStringidLen (table : StringTable) : Nat :=
  2 ^ table.lenBits

def hashMask (table : StringTable) : Nat :=
  2 ^ table.numHashBits - 1

/-- `FNV_prime`. -/
def fnvPrime : UInt32 :=
  ((1 : UInt32) <<< 24) + ((1 : UInt32) <<< 8) + 0x93

/-- `OFFSET_BASIS`. -/
def offsetBasis : UInt32 :=
  2166136261

/-- The loop over the bytes of the name. -/
def hashBytes (hash : UInt32) : List UInt8 → UInt32
  | [] => hash
  | byte :: bytes => hashBytes ((hash ^^^ byte.toUInt32) * fnvPrime) bytes

/-- `hash_fnv_1a`: the 32-bit hash folded to the bits that the table uses. -/
def hashFnv1a (table : StringTable) (name : List UInt8) : Nat :=
  (((hashBytes offsetBasis name >>> 16) ^^^ hashBytes offsetBasis name).toNat &&&
    table.hashMask) % 2 ^ 16

/-- The offset of a slot, which is computed with 32 bits. -/
def offset (table : StringTable) (hash : Nat) : Nat :=
  hash * table.maxStringidLen % 2 ^ 32

/-- The slot that is tried after another one. -/
def nextHash (table : StringTable) (hash : Nat) : Nat :=
  ((hash + 1) &&& table.hashMask) % 2 ^ 16

/-- The comparison of the probe loop: whole words of four bytes first, then the rest. -/
def isMatch (pm : Memory) (name : List UInt8) (dest : Nat) : Bool :=
  (List.range (name.length / 4)).all (fun i =>
      (name.drop (4 * i)).take 4 == load pm (dest + 4 * i) 4) &&
    name.drop (4 * (name.length / 4)) ==
      load pm (dest + 4 * (name.length / 4)) (name.length % 4)

/-- The probe loop: whether a match was found, and the slot where the loop ends.  Without an
end after as many slots as the table has it goes round for ever. -/
def search (table : StringTable) (pm : Memory) (name : List UInt8) :
    Nat → Nat → Option (Bool × Nat)
  | 0, _ => none
  | left + 1, hash =>
      if pm (table.offset hash) = 0 then some (false, hash)
      else if isMatch pm name (table.offset hash) then some (true, hash)
      else search table pm name left (table.nextHash hash)

/-- The exception of `get`. -/
inductive NameError
  | invalidID
  deriving DecidableEq, Repr

/-- `StringTable::get(name, id, add)`: the value returned, `id`, and the memory afterwards. -/
def get (table : StringTable) (pm : Memory) (name : List UInt8) (add : Bool) :
    Except NameError (Option (Bool × Nat × Memory)) :=
  if name.length > table.maxStringidLen then .error .invalidID
  else
    .ok ((search table pm name (2 ^ table.numHashBits) (table.hashFnv1a name)).map
      fun (found, hash) =>
        if found then (true, hash, pm)
        else if add then (false, hash, store pm (table.offset hash) name)
        else (false, 0, pm))

/-- The bytes up to the first NUL, at most as many as are given. -/
def readString (pm : Memory) : Nat → Nat → List UInt8
  | _, 0 => []
  | address, left + 1 =>
      if pm address = 0 then [] else pm address :: readString pm (address + 1) left

/-- `StringTable::get(id)`. -/
def getName (table : StringTable) (pm : Memory) (id : Nat) : List UInt8 :=
  readString pm (table.offset id) table.maxStringidLen

/-! ## Runs of calls -/

/-- The names that the table is for. -/
structure Name (table : StringTable) where
  bytes : List UInt8
  nonempty : bytes ≠ []
  noNul : 0 ∉ bytes
  length_le : bytes.length ≤ table.maxStringidLen
  deriving DecidableEq

/-- A call of `get`. -/
structure Call (table : StringTable) where
  name : Name table
  add : Bool
  deriving DecidableEq

/-- A call and its results. -/
structure Outcome (table : StringTable) where
  name : Name table
  add : Bool
  found : Bool
  id : Nat
  deriving DecidableEq

/-- The table and the calls so far, the latest first. -/
structure State (table : StringTable) where
  pm : Memory
  history : List (Outcome table)

def step (table : StringTable) (state : State table) (call : Call table) :
    Option (State table) :=
  match table.get state.pm call.name.bytes call.add with
  | .ok (some (found, id, pm)) =>
      some ⟨pm, ⟨call.name, call.add, found, id⟩ :: state.history⟩
  | _ => none

/-- A new table. -/
def created (table : StringTable) : State table :=
  ⟨fun _ => 0, []⟩

/-- A call that adds returns the id of the same name and of no other; a call that only looks
finds exactly the names that were added, with their ids. -/
def Outcome.Right {table : StringTable} (outcome : Outcome table)
    (earlier : List (Outcome table)) : Prop :=
  if outcome.add then
    ∀ other ∈ earlier, other.add = true → (other.id = outcome.id ↔ other.name = outcome.name)
  else
    (outcome.found = true ↔
      ∃ other ∈ earlier, other.add = true ∧ other.name = outcome.name) ∧
    (outcome.found = true → ∀ other ∈ earlier, other.add = true →
      other.name = outcome.name → other.id = outcome.id)

/-- All calls were answered right. -/
def AllRight {table : StringTable} : List (Outcome table) → Prop
  | [] => True
  | outcome :: earlier => outcome.Right earlier ∧ AllRight earlier

/-- The table is a bijection on the names that were added. -/
def IsBijection {table : StringTable} (state : State table) : Prop :=
  AllRight state.history ∧
    ∀ outcome ∈ state.history, outcome.add = true →
      table.getName state.pm outcome.id = outcome.name.bytes

/-- The slots that are tried for a name, in order. -/
def probe (table : StringTable) (name : List UInt8) : Nat → Nat
  | 0 => table.hashFnv1a name
  | k + 1 => table.nextHash (probe table name k)

/-- A free slot remains. -/
def FreeSlot {table : StringTable} (state : State table) (_ : Call table) : Prop :=
  ∃ hash < 2 ^ table.numHashBits, state.pm (table.offset hash) = 0

/-- No string on the probe chain of the name continues the name, unless the name itself comes
before it. -/
def PrefixFree {table : StringTable} (state : State table) (call : Call table) : Prop :=
  ∀ k, (∀ i ≤ k, state.pm (table.offset (table.probe call.name.bytes i)) ≠ 0) →
    call.name.bytes <+: table.getName state.pm (table.probe call.name.bytes k) →
    ∃ i ≤ k, table.getName state.pm (table.probe call.name.bytes i) = call.name.bytes

/-! ## Slots and strings -/

section Slots

variable {table : StringTable} {pm : Memory} {name : List UInt8}

theorem nextHash_eq (table : StringTable) (hash : Nat) :
    table.nextHash hash = (hash + 1) % 2 ^ table.numHashBits := by
  have small : 2 ^ table.numHashBits ≤ 2 ^ 16 :=
    Nat.pow_le_pow_right (by omega) table.numHashBits_le
  have inMask := Nat.mod_lt (hash + 1) (Nat.two_pow_pos table.numHashBits)
  rw [nextHash, hashMask, Nat.and_two_pow_sub_one_eq_mod, Nat.mod_eq_of_lt (by omega)]

theorem probe_eq (table : StringTable) (name : List UInt8) (k : Nat) :
    table.probe name k = (table.hashFnv1a name + k) % 2 ^ table.numHashBits := by
  have small : 2 ^ table.numHashBits ≤ 2 ^ 16 :=
    Nat.pow_le_pow_right (by omega) table.numHashBits_le
  induction k with
  | zero =>
      rw [probe, Nat.add_zero, hashFnv1a, hashMask, Nat.and_two_pow_sub_one_eq_mod]
      rw [Nat.mod_mod_of_dvd _ (pow_dvd_pow 2 table.numHashBits_le), Nat.mod_mod]
      refine Nat.mod_eq_of_lt (lt_of_lt_of_le (Nat.mod_lt _ ?_) small)
      exact Nat.two_pow_pos _
  | succ k ih => rw [probe, nextHash_eq, ih, Nat.mod_add_mod, Nat.add_assoc]

theorem probe_lt (table : StringTable) (name : List UInt8) (k : Nat) :
    table.probe name k < 2 ^ table.numHashBits := by
  rw [probe_eq]
  exact Nat.mod_lt _ (Nat.two_pow_pos _)

/-- The chain of a name visits every slot. -/
theorem exists_probe_eq (table : StringTable) (name : List UInt8) {hash : Nat}
    (inTable : hash < 2 ^ table.numHashBits) :
    ∃ k < 2 ^ table.numHashBits, table.probe name k = hash := by
  have first := table.probe_lt name 0
  rw [probe] at first
  by_cases behind : table.hashFnv1a name ≤ hash
  · refine ⟨hash - table.hashFnv1a name, by omega, ?_⟩
    rw [probe_eq, Nat.add_sub_cancel' behind, Nat.mod_eq_of_lt inTable]
  · refine ⟨2 ^ table.numHashBits - table.hashFnv1a name + hash, by omega, ?_⟩
    rw [probe_eq, ← Nat.add_assoc, Nat.add_sub_cancel' first.le, Nat.add_mod_left,
      Nat.mod_eq_of_lt inTable]

/-- Different slots do not overlap. -/
theorem offset_disjoint (table : StringTable) {first second : Nat}
    (different : table.offset first ≠ table.offset second) :
    table.offset first + table.maxStringidLen ≤ table.offset second ∨
      table.offset second + table.maxStringidLen ≤ table.offset first := by
  have multiple (hash : Nat) : table.maxStringidLen ∣ table.offset hash := by
    refine (Nat.dvd_mod_iff ?_).mpr (Dvd.intro_left hash rfl)
    exact pow_dvd_pow 2 table.lenBits_lt.le
  obtain ⟨i, isFirst⟩ := multiple first
  obtain ⟨j, isSecond⟩ := multiple second
  rw [isFirst, isSecond] at different ⊢
  rcases lt_trichotomy i j with less | rfl | greater
  · left
    calc table.maxStringidLen * i + table.maxStringidLen
        = table.maxStringidLen * (i + 1) := (Nat.mul_succ _ _).symm
      _ ≤ table.maxStringidLen * j := Nat.mul_le_mul_left _ less
  · exact absurd rfl different
  · right
    calc table.maxStringidLen * j + table.maxStringidLen
        = table.maxStringidLen * (j + 1) := (Nat.mul_succ _ _).symm
      _ ≤ table.maxStringidLen * i := Nat.mul_le_mul_left _ greater

theorem readString_congr {other : Memory} {left : Nat} : ∀ address : Nat,
    (∀ i < left, pm (address + i) = other (address + i)) →
    readString pm address left = readString other address left := by
  induction left with
  | zero => exact fun _ _ => rfl
  | succ left ih =>
      intro address same
      have head := same 0 (by omega)
      have tail := ih (address + 1) fun i inside => by
        simpa [Nat.add_assoc, Nat.add_comm 1] using same (i + 1) (by omega)
      rw [Nat.add_zero] at head
      rw [readString, readString, head, tail]

/-- A name without NUL starts a string exactly when its bytes are there. -/
theorem prefix_readString_iff (left : Nat) : ∀ address : Nat, 0 ∉ name →
    name.length ≤ left →
    (name <+: readString pm address left ↔ load pm address name.length = name) := by
  induction name generalizing left with
  | nil => simp [load]
  | cons byte bytes ih =>
      intro address noNul short
      rw [List.mem_cons, not_or] at noNul
      obtain ⟨rest, rfl⟩ := Nat.exists_eq_add_one.mpr
        (lt_of_lt_of_le (Nat.zero_lt_succ bytes.length) short)
      have split : load pm address (byte :: bytes).length =
          pm address :: load pm (address + 1) bytes.length := by
        simp [load, List.range_succ_eq_map, Nat.add_assoc, Nat.add_comm 1]
      rw [split, readString, List.cons.injEq]
      have later := ih rest (address + 1) noNul.2 (by simpa using short)
      split_ifs with isNul
      · simp [isNul, noNul.1]
      · rw [List.cons_prefix_cons, later, eq_comm]

/-- The string read is the one that was written in front of a NUL or of the end. -/
theorem readString_eq (left : Nat) : ∀ address : Nat, 0 ∉ name → name.length ≤ left →
    load pm address name.length = name →
    (name.length < left → pm (address + name.length) = 0) →
    readString pm address left = name := by
  induction name generalizing left with
  | nil =>
      intro address _ _ _ ends
      cases left with
      | zero => rfl
      | succ left => simp [readString, show pm address = 0 from ends (Nat.succ_pos left)]
  | cons byte bytes ih =>
      intro address noNul short written ends
      rw [List.mem_cons, not_or] at noNul
      obtain ⟨rest, rfl⟩ := Nat.exists_eq_add_one.mpr
        (lt_of_lt_of_le (Nat.zero_lt_succ bytes.length) short)
      have split : load pm address (byte :: bytes).length =
          pm address :: load pm (address + 1) bytes.length := by
        simp [load, List.range_succ_eq_map, Nat.add_assoc, Nat.add_comm 1]
      rw [split, List.cons.injEq] at written
      rw [List.length_cons] at short ends
      have later := ih rest (address + 1) noNul.2 (by omega) written.2
        fun inside => by simpa [Nat.add_assoc, Nat.add_comm 1] using ends (by omega)
      rw [readString, if_neg (by rw [written.1]; exact fun isNul => noNul.1 isNul.symm), later,
        written.1]

/-- The words and the rest agree exactly when all bytes do. -/
theorem isMatch_iff {dest : Nat} :
    isMatch pm name dest = true ↔ load pm dest name.length = name := by
  have bound := Nat.div_add_mod name.length 4
  simp only [isMatch, Bool.and_eq_true, List.all_eq_true, List.mem_range, beq_iff_eq]
  constructor
  · rintro ⟨words, rest⟩
    refine List.ext_getElem length_load fun i _ inside => ?_
    simp only [load, List.getElem_map, List.getElem_range]
    by_cases inWord : i / 4 < name.length / 4
    · have word := congrArg (fun bytes => bytes[i % 4]?) (words (i / 4) inWord)
      have small := Nat.mod_lt i (show 0 < 4 by omega)
      have place : 4 * (i / 4) + i % 4 = i := Nat.div_add_mod i 4
      simp only [load, List.getElem?_take_of_lt small, List.getElem?_drop, place,
        List.getElem?_map, List.getElem?_range small, Option.map_some, Nat.add_assoc,
        List.getElem?_eq_getElem inside, Option.some.injEq] at word
      exact word.symm
    · have inRest : i - 4 * (name.length / 4) < name.length % 4 := by omega
      have place : 4 * (name.length / 4) + (i - 4 * (name.length / 4)) = i := by omega
      have byte := congrArg (fun bytes => bytes[i - 4 * (name.length / 4)]?) rest
      simp only [load, List.getElem?_drop, place, List.getElem?_map,
        List.getElem?_range inRest, Option.map_some, Nat.add_assoc,
        List.getElem?_eq_getElem inside, Option.some.injEq] at byte
      exact byte.symm
  · intro same
    have byteAt (i : Nat) (inside : i < name.length) : pm (dest + i) = name[i] := by
      have := congrArg (fun bytes => bytes[i]?) same
      simpa [load, inside] using this
    constructor
    · intro word inWord
      refine List.ext_getElem (by simp; omega) fun i _ small => ?_
      simp only [length_load] at small
      simp only [List.getElem_take, List.getElem_drop, load, List.getElem_map,
        List.getElem_range, Nat.add_assoc]
      exact (byteAt _ (by omega)).symm
    · refine List.ext_getElem (by simp; omega) fun i _ small => ?_
      simp only [length_load] at small
      simp only [List.getElem_drop, load, List.getElem_map, List.getElem_range, Nat.add_assoc]
      exact (byteAt _ (by omega)).symm

end Slots

/-! ## The probe loop -/

section Probing

variable {table : StringTable} {pm : Memory} {name : List UInt8}

/-- The loop ends at the `k`-th slot of the chain if it gets there. -/
def Stops (table : StringTable) (pm : Memory) (name : List UInt8) (k : Nat) : Prop :=
  pm (table.offset (table.probe name k)) = 0 ∨
    name <+: table.getName pm (table.probe name k)

/-- The first place of the chain where the loop ends. -/
def FirstStop (table : StringTable) (pm : Memory) (name : List UInt8) (k : Nat) : Prop :=
  table.Stops pm name k ∧ ∀ i < k, ¬ table.Stops pm name i

theorem FirstStop.unique {first second : Nat} (isFirst : table.FirstStop pm name first)
    (isSecond : table.FirstStop pm name second) : first = second := by
  rcases lt_trichotomy first second with less | same | greater
  · exact absurd isFirst.1 (isSecond.2 first less)
  · exact same
  · exact absurd isSecond.1 (isFirst.2 second greater)

theorem isMatch_slot_iff (noNul : 0 ∉ name) (short : name.length ≤ table.maxStringidLen)
    (hash : Nat) :
    isMatch pm name (table.offset hash) = true ↔ name <+: table.getName pm hash := by
  rw [isMatch_iff, getName, prefix_readString_iff _ _ noNul short]

/-- The loop ends at the first stop of the chain. -/
theorem search_spec (noNul : 0 ∉ name) (short : name.length ≤ table.maxStringidLen)
    {left k : Nat} {found : Bool} {hash : Nat} (before : ∀ i < k, ¬ table.Stops pm name i)
    (searched : search table pm name left (table.probe name k) = some (found, hash)) :
    ∃ last, table.FirstStop pm name last ∧ hash = table.probe name last ∧
      (found = false ↔ pm (table.offset hash) = 0) := by
  induction left generalizing k with
  | zero => simp [search] at searched
  | succ left ih =>
      rw [search] at searched
      split_ifs at searched with free same
      · obtain ⟨rfl, rfl⟩ := Prod.mk.inj (Option.some.inj searched)
        exact ⟨k, ⟨.inl free, before⟩, rfl, by simp [free]⟩
      · obtain ⟨rfl, rfl⟩ := Prod.mk.inj (Option.some.inj searched)
        exact ⟨k, ⟨.inr ((isMatch_slot_iff noNul short _).mp same), before⟩, rfl,
          by simp [free]⟩
      · refine ih (k := k + 1) (fun i less => ?_) searched
        rcases Nat.lt_succ_iff_lt_or_eq.mp less with earlier | rfl
        · exact before i earlier
        · rintro (isFree | isPrefix)
          · exact free isFree
          · exact same ((isMatch_slot_iff noNul short _).mpr isPrefix)

/-- The loop ends when a free slot is within reach. -/
theorem search_isSome {left k last : Nat} (reach : k ≤ last) (near : last < k + left)
    (free : pm (table.offset (table.probe name last)) = 0) :
    (search table pm name left (table.probe name k)).isSome := by
  induction left generalizing k with
  | zero => omega
  | succ left ih =>
      rw [search]
      split_ifs with isFree
      · rfl
      · rfl
      · have later : k ≠ last := by
          rintro rfl
          exact isFree free
        exact ih (k := k + 1) (by omega) (by omega)

end Probing

/-! ## The table as a bijection -/

section Bijection

variable {table : StringTable} {state : State table}

/-- A name has the id of the slot where the probe loop for it ends, and the string there is
the name. -/
def Stored (table : StringTable) (pm : Memory) (name : Name table) (id : Nat) : Prop :=
  ∃ k, table.FirstStop pm name.bytes k ∧ id = table.probe name.bytes k ∧
    pm (table.offset id) ≠ 0 ∧ table.getName pm id = name.bytes

/-- What holds in the runs in which the table works. -/
structure Consistent (state : State table) : Prop where
  blank : ∀ hash, state.pm (table.offset hash) = 0 →
    ∀ i < table.maxStringidLen, state.pm (table.offset hash + i) = 0
  stored : ∀ outcome ∈ state.history, outcome.add = true →
    Stored table state.pm outcome.name outcome.id
  origin : ∀ hash, state.pm (table.offset hash) ≠ 0 →
    ∃ outcome ∈ state.history, outcome.add = true ∧
      table.offset outcome.id = table.offset hash
  allRight : AllRight state.history

theorem Consistent.isBijection (consistent : Consistent state) : IsBijection state := by
  refine ⟨consistent.allRight, fun outcome member added => ?_⟩
  obtain ⟨_, _, _, _, isName⟩ := consistent.stored outcome member added
  exact isName

theorem consistent_created (table : StringTable) : Consistent (created table) where
  blank := fun _ _ _ _ => rfl
  stored := by simp [created]
  origin := fun _ occupied => absurd rfl occupied
  allRight := trivial

theorem getName_congr {pm : Memory} {first second : Nat}
    (same : table.offset first = table.offset second) :
    table.getName pm first = table.getName pm second := by
  rw [getName, getName, same]

/-- The outcome of the loop for a name that is stored. -/
theorem Stored.of_firstStop {pm : Memory} {name : Name table} {id k : Nat}
    (stored : Stored table pm name id) (ends : table.FirstStop pm name.bytes k) :
    id = table.probe name.bytes k ∧ pm (table.offset (table.probe name.bytes k)) ≠ 0 ∧
      table.getName pm (table.probe name.bytes k) = name.bytes := by
  obtain ⟨other, otherEnds, rfl, occupied, isName⟩ := stored
  obtain rfl := otherEnds.unique ends
  exact ⟨rfl, occupied, isName⟩

/-- The string of an occupied slot was added. -/
theorem Consistent.exists_stored (consistent : Consistent state) {hash : Nat}
    (occupied : state.pm (table.offset hash) ≠ 0) :
    ∃ outcome ∈ state.history, outcome.add = true ∧
      table.offset outcome.id = table.offset hash ∧
      outcome.name.bytes = table.getName state.pm hash := by
  obtain ⟨outcome, member, added, sameSlot⟩ := consistent.origin hash occupied
  obtain ⟨_, _, _, _, isName⟩ := consistent.stored outcome member added
  exact ⟨outcome, member, added, sameSlot, by rw [← isName, getName_congr sameSlot]⟩

theorem Name.ext_bytes {first second : Name table} (same : first.bytes = second.bytes) :
    first = second := by
  cases first
  cases second
  congr

/-- When the loop stops at a match, it is the name itself. -/
theorem PrefixFree.getName_eq {call : Call table} (prefixFree : PrefixFree state call) {k : Nat}
    (ends : table.FirstStop state.pm call.name.bytes k)
    (occupied : state.pm (table.offset (table.probe call.name.bytes k)) ≠ 0) :
    table.getName state.pm (table.probe call.name.bytes k) = call.name.bytes := by
  obtain ⟨i, before, isName⟩ := prefixFree k
    (fun i before => by
      rcases before.lt_or_eq with less | rfl
      · exact fun free => ends.2 i less (.inl free)
      · exact occupied)
    (ends.1.resolve_left occupied)
  rcases before.lt_or_eq with less | rfl
  · exact absurd (.inr (by simp [isName])) (ends.2 i less)
  · exact isName

/-- Writing a name into a free slot leaves the occupied slots alone. -/
theorem store_frame {pm : Memory} {hash other : Nat} (name : Name table)
    (free : pm (table.offset hash) = 0) (occupied : pm (table.offset other) ≠ 0) :
    store pm (table.offset hash) name.bytes (table.offset other) = pm (table.offset other) ∧
      table.getName (store pm (table.offset hash) name.bytes) other =
        table.getName pm other := by
  have short := name.length_le
  have different : table.offset hash ≠ table.offset other := by
    intro same
    exact occupied (same ▸ free)
  have disjoint := table.offset_disjoint different
  have positive : 0 < table.maxStringidLen := Nat.two_pow_pos _
  constructor
  · exact store_outside (by omega)
  · exact readString_congr _ fun i inside => store_outside (by omega)

theorem getName_store {pm : Memory} {hash : Nat} (name : Name table)
    (blank : ∀ i < table.maxStringidLen, pm (table.offset hash + i) = 0) :
    table.getName (store pm (table.offset hash) name.bytes) hash = name.bytes := by
  refine readString_eq _ _ name.noNul name.length_le load_store_self fun short => ?_
  rw [store_outside (by omega)]
  exact blank _ short

theorem store_slot_ne_zero {pm : Memory} {hash : Nat} (name : Name table) :
    store pm (table.offset hash) name.bytes (table.offset hash) ≠ 0 := by
  have positive := List.length_pos_iff.mpr name.nonempty
  have first := @store_inside pm (table.offset hash) name.bytes 0 positive
  rw [Nat.add_zero] at first
  rw [first]
  exact fun isNul => name.noNul (isNul ▸ List.getElem_mem positive)

theorem not_stops_store {pm : Memory} {hash k : Nat} {name : Name table} (written : Name table)
    (free : pm (table.offset hash) = 0) (passes : ¬ table.Stops pm name.bytes k) :
    ¬ table.Stops (store pm (table.offset hash) written.bytes) name.bytes k := by
  rw [Stops, not_or] at passes
  obtain ⟨sameByte, sameName⟩ := store_frame written free passes.1
  rw [Stops, sameByte, sameName, not_or]
  exact passes

theorem FirstStop.store_frame {pm : Memory} {hash k : Nat} {name : Name table}
    (written : Name table) (free : pm (table.offset hash) = 0)
    (ends : table.FirstStop pm name.bytes k)
    (occupied : pm (table.offset (table.probe name.bytes k)) ≠ 0) :
    table.FirstStop (store pm (table.offset hash) written.bytes) name.bytes k := by
  constructor
  · right
    rw [(StringTable.store_frame written free occupied).2]
    exact ends.1.resolve_left occupied
  · exact fun i less => not_stops_store written free (ends.2 i less)

theorem Stored.store_frame {pm : Memory} {hash id : Nat} {name : Name table}
    (written : Name table) (free : pm (table.offset hash) = 0)
    (stored : Stored table pm name id) :
    Stored table (store pm (table.offset hash) written.bytes) name id := by
  obtain ⟨k, ends, rfl, occupied, isName⟩ := stored
  obtain ⟨sameByte, sameName⟩ := StringTable.store_frame written free occupied
  exact ⟨k, ends.store_frame written free occupied, rfl, sameByte ▸ occupied,
    sameName.trans isName⟩

/-- A name that is written at the end of its chain is stored there. -/
theorem stored_store {pm : Memory} {name : Name table} {k : Nat}
    (blank : ∀ i < table.maxStringidLen,
      pm (table.offset (table.probe name.bytes k) + i) = 0)
    (ends : table.FirstStop pm name.bytes k)
    (free : pm (table.offset (table.probe name.bytes k)) = 0) :
    Stored table (store pm (table.offset (table.probe name.bytes k)) name.bytes) name
      (table.probe name.bytes k) := by
  have isName := getName_store name blank
  refine ⟨k, ⟨.inr (by simp [isName]), fun i less => ?_⟩, rfl, store_slot_ne_zero name, isName⟩
  exact not_stops_store name free (ends.2 i less)

/-- What a call does, by the place where the loop for its name ends. -/
theorem step_cases {next : State table} {call : Call table}
    (stepped : step table state call = some next) :
    ∃ last, table.FirstStop state.pm call.name.bytes last ∧
      ((state.pm (table.offset (table.probe call.name.bytes last)) ≠ 0 ∧
        next = ⟨state.pm, ⟨call.name, call.add, true, table.probe call.name.bytes last⟩ ::
          state.history⟩) ∨
      (state.pm (table.offset (table.probe call.name.bytes last)) = 0 ∧ call.add = true ∧
        next = ⟨store state.pm (table.offset (table.probe call.name.bytes last))
            call.name.bytes,
          ⟨call.name, true, false, table.probe call.name.bytes last⟩ :: state.history⟩) ∨
      (state.pm (table.offset (table.probe call.name.bytes last)) = 0 ∧ call.add = false ∧
        next = ⟨state.pm, ⟨call.name, false, false, 0⟩ :: state.history⟩)) := by
  rw [step, get, if_neg (Nat.not_lt.mpr call.name.length_le)] at stepped
  cases searched : search table state.pm call.name.bytes (2 ^ table.numHashBits)
      (table.hashFnv1a call.name.bytes) with
  | none => simp [searched] at stepped
  | some result =>
      obtain ⟨found, hash⟩ := result
      obtain ⟨last, ends, rfl, isFree⟩ := search_spec (k := 0) call.name.noNul
        call.name.length_le (fun i impossible => absurd impossible i.not_lt_zero) searched
      refine ⟨last, ends, ?_⟩
      rw [searched] at stepped
      cases found with
      | true =>
          left
          exact ⟨fun free => by simpa using isFree.mpr free, by simpa using stepped.symm⟩
      | false =>
          right
          cases added : call.add with
          | true =>
              left
              exact ⟨isFree.mp rfl, rfl, by simpa [added] using stepped.symm⟩
          | false =>
              right
              exact ⟨isFree.mp rfl, rfl, by simpa [added] using stepped.symm⟩

/-- While a free slot remains, a call returns. -/
theorem step_isSome {call : Call table} (free : FreeSlot state call) :
    ∃ next, step table state call = some next := by
  obtain ⟨hash, inTable, isFree⟩ := free
  obtain ⟨k, near, rfl⟩ := table.exists_probe_eq call.name.bytes inTable
  have ends : (search table state.pm call.name.bytes (2 ^ table.numHashBits)
      (table.probe call.name.bytes 0)).isSome :=
    search_isSome (Nat.zero_le k) (by omega) isFree
  obtain ⟨⟨found, hash⟩, searched⟩ := Option.isSome_iff_exists.mp ends
  rw [probe] at searched
  rw [step, get, if_neg (Nat.not_lt.mpr call.name.length_le), searched]
  cases found <;> cases call.add <;> simp

/-- A match that is the name itself answers the call right. -/
theorem Consistent.right_of_found (consistent : Consistent state) {call : Call table} {k : Nat}
    (ends : table.FirstStop state.pm call.name.bytes k)
    (occupied : state.pm (table.offset (table.probe call.name.bytes k)) ≠ 0)
    (isName : table.getName state.pm (table.probe call.name.bytes k) = call.name.bytes) :
    Outcome.Right ⟨call.name, call.add, true, table.probe call.name.bytes k⟩
      state.history := by
  have sameId : ∀ other ∈ state.history, other.add = true → other.name = call.name →
      other.id = table.probe call.name.bytes k := by
    intro other member added sameName
    have stored := consistent.stored other member added
    rw [sameName] at stored
    exact (stored.of_firstStop ends).1
  unfold Outcome.Right
  split_ifs with adds
  · intro other member added
    refine ⟨fun same => ?_, sameId other member added⟩
    obtain ⟨_, _, _, _, otherName⟩ := consistent.stored other member added
    exact Name.ext_bytes (by rw [← otherName, same, isName])
  · obtain ⟨other, member, added, -, otherName⟩ := consistent.exists_stored occupied
    exact ⟨iff_of_true rfl
      ⟨other, member, added, Name.ext_bytes (otherName.trans isName)⟩, fun _ => sameId⟩

/-- A name whose chain ends at a free slot is not stored. -/
theorem Consistent.name_ne_of_free (consistent : Consistent state) {name : Name table} {k : Nat}
    (ends : table.FirstStop state.pm name.bytes k)
    (free : state.pm (table.offset (table.probe name.bytes k)) = 0) :
    ∀ other ∈ state.history, other.add = true → other.name ≠ name := by
  rintro other member added rfl
  exact ((consistent.stored other member added).of_firstStop ends).2.1 free

/-- A name that was written at a free slot. -/
theorem Consistent.insert (consistent : Consistent state) {name : Name table} {k : Nat}
    (ends : table.FirstStop state.pm name.bytes k)
    (free : state.pm (table.offset (table.probe name.bytes k)) = 0) :
    Consistent ⟨store state.pm (table.offset (table.probe name.bytes k)) name.bytes,
      ⟨name, true, false, table.probe name.bytes k⟩ :: state.history⟩ where
  blank := by
    intro hash isFree i inside
    dsimp only at isFree ⊢
    have short := name.length_le
    have different : table.offset (table.probe name.bytes k) ≠ table.offset hash := by
      intro same
      rw [← same] at isFree
      exact store_slot_ne_zero name isFree
    have disjoint := table.offset_disjoint different
    rw [store_outside (by omega)]
    rw [store_outside (by omega)] at isFree
    exact consistent.blank hash isFree i inside
  stored := by
    intro outcome member added
    rcases List.mem_cons.mp member with rfl | earlier
    · exact stored_store (consistent.blank _ free) ends free
    · exact (consistent.stored outcome earlier added).store_frame name free
  origin := by
    intro hash occupied
    dsimp only at occupied
    by_cases same : table.offset (table.probe name.bytes k) = table.offset hash
    · exact ⟨_, List.mem_cons_self, rfl, same⟩
    · have short := name.length_le
      have disjoint := table.offset_disjoint same
      have positive : 0 < table.maxStringidLen := Nat.two_pow_pos _
      rw [store_outside (by omega)] at occupied
      obtain ⟨outcome, member, added, sameSlot⟩ := consistent.origin hash occupied
      exact ⟨outcome, List.mem_cons_of_mem _ member, added, sameSlot⟩
  allRight := by
    refine ⟨?_, consistent.allRight⟩
    rw [Outcome.Right, if_pos rfl]
    intro other member added
    have otherName := consistent.name_ne_of_free ends free other member added
    refine iff_of_false (fun same => ?_) otherName
    obtain ⟨_, _, _, occupied, _⟩ := consistent.stored other member added
    rw [same] at occupied
    exact occupied free

/-- A call that does not write only adds its outcome. -/
theorem Consistent.record (consistent : Consistent state) {outcome : Outcome table}
    (stored : outcome.add = true → Stored table state.pm outcome.name outcome.id)
    (right : outcome.Right state.history) :
    Consistent ⟨state.pm, outcome :: state.history⟩ where
  blank := consistent.blank
  stored := by
    intro other member added
    rcases List.mem_cons.mp member with rfl | earlier
    · exact stored added
    · exact consistent.stored other earlier added
  origin := by
    intro hash occupied
    obtain ⟨other, member, rest⟩ := consistent.origin hash occupied
    exact ⟨other, List.mem_cons_of_mem _ member, rest⟩
  allRight := ⟨right, consistent.allRight⟩

theorem Consistent.step (consistent : Consistent state) {call : Call table} {next : State table}
    (prefixFree : PrefixFree state call) (stepped : step table state call = some next) :
    Consistent next := by
  obtain ⟨last, ends, ⟨occupied, rfl⟩ | ⟨free, -, rfl⟩ | ⟨free, lookup, rfl⟩⟩ :=
    step_cases stepped
  · have isName := prefixFree.getName_eq ends occupied
    exact consistent.record (fun _ => ⟨last, ends, rfl, occupied, isName⟩)
      (consistent.right_of_found ends occupied isName)
  · exact consistent.insert ends free
  · refine consistent.record (fun added => absurd added Bool.false_ne_true) ?_
    rw [Outcome.Right, if_neg Bool.false_ne_true]
    refine ⟨iff_of_false Bool.false_ne_true ?_, fun found => absurd found Bool.false_ne_true⟩
    rintro ⟨other, member, added, sameName⟩
    exact consistent.name_ne_of_free ends free other member added sameName

/-- A call that is answered right met no longer string in place of its name. -/
theorem Consistent.prefixFree (consistent : Consistent state) {call : Call table}
    {next : State table} (stepped : StringTable.step table state call = some next)
    (isBijection : IsBijection next) : PrefixFree state call := by
  intro k occupied isPrefix
  obtain ⟨last, ends, outcome⟩ := step_cases stepped
  have before : last ≤ k := by
    by_contra behind
    exact ends.2 k (by omega) (.inr isPrefix)
  have occupiedLast := occupied last before
  refine ⟨last, before, ?_⟩
  obtain ⟨-, rfl⟩ | ⟨free, -⟩ | ⟨free, -⟩ := outcome
  · obtain ⟨⟨right, -⟩, readsBack⟩ := isBijection
    cases added : call.add with
    | true => exact readsBack _ List.mem_cons_self added
    | false =>
        rw [Outcome.Right, if_neg (by simp [added])] at right
        obtain ⟨other, member, otherAdded, sameName⟩ := right.1.mp rfl
        have stored := consistent.stored other member otherAdded
        rw [sameName] at stored
        exact (stored.of_firstStop ends).2.2
  · exact absurd free occupiedLast
  · exact absurd free occupiedLast

end Bijection

/-- As long as a free slot remains, the table is a bijection on the stored names after every
prefix of a run exactly when no call looks for a name of which a continuation is stored on its
probe chain. -/
theorem isBijection_iff_prefixFree (table : StringTable) (calls : List (Call table))
    (freeSlots : MeetsAlong (step table) FreeSlot (created table) calls) :
    (∀ before, before <+: calls →
        ∃ state, run (step table) (created table) before = some state ∧ IsBijection state) ↔
      MeetsAlong (step table) PrefixFree (created table) calls := by
  refine forall_prefix_iff_meetsAlong_of FreeSlot (fun _ => Consistent) (fun _ => IsBijection)
    (fun _ _ consistent => consistent.isBijection) ?_ ?_ [] (consistent_created table) calls
    freeSlots
  · intro _ state call consistent free prefixFree
    obtain ⟨next, stepped⟩ := step_isSome free
    exact ⟨next, stepped, consistent.step prefixFree stepped⟩
  · intro _ state call next consistent _ stepped isBijection
    exact consistent.prefixFree stepped isBijection

/-- The table of the default configuration. -/
def defaultTable : StringTable :=
  ⟨4, 12, by decide, by decide⟩

/-- Two names with the same hash; the second, `age`, is a prefix of the first. -/
def agesi : Name defaultTable :=
  ⟨[97, 103, 101, 115, 105], by decide, by decide, by decide⟩

def age : Name defaultTable :=
  ⟨[97, 103, 101], by decide, by decide, by decide⟩

theorem freeSlots_prefix_run :
    MeetsAlong (step defaultTable) FreeSlot (created defaultTable)
      [⟨agesi, true⟩, ⟨age, true⟩] := by
  have firstFree : MeetsAlong (step defaultTable)
      (fun state _ => state.pm (defaultTable.offset 0) = 0) (created defaultTable)
      [⟨agesi, true⟩, ⟨age, true⟩] := by
    decide
  refine ⟨⟨0, by decide, firstFree.1⟩, fun next stepped => ?_⟩
  exact ⟨⟨0, by decide, (firstFree.2 next stepped).1⟩, fun _ _ => trivial⟩

theorem isBijection_iff_prefixFree_prefix_run :
    (∀ before, before <+: [⟨agesi, true⟩, ⟨age, true⟩] →
        ∃ state, run (step defaultTable) (created defaultTable) before = some state ∧
          IsBijection state) ↔
      MeetsAlong (step defaultTable) PrefixFree (created defaultTable)
        [⟨agesi, true⟩, ⟨age, true⟩] :=
  isBijection_iff_prefixFree defaultTable _ freeSlots_prefix_run

/-- After `agesi` was added, `age` receives its id. -/
theorem prefix_shares_id :
    MeetsAlong (step defaultTable) FreeSlot (created defaultTable)
        [⟨agesi, true⟩, ⟨age, true⟩] ∧
      ∃ state, run (step defaultTable) (created defaultTable) [⟨agesi, true⟩, ⟨age, true⟩] =
          some state ∧
        state.history = [⟨age, true, true, 1501⟩, ⟨agesi, true, false, 1501⟩] ∧
        ¬ IsBijection state := by
  have computed : (run (step defaultTable) (created defaultTable)
      [⟨agesi, true⟩, ⟨age, true⟩]).map State.history =
        some [⟨age, true, true, 1501⟩, ⟨agesi, true, false, 1501⟩] := by
    decide
  obtain ⟨state, ran, isHistory⟩ := Option.map_eq_some_iff.mp computed
  refine ⟨freeSlots_prefix_run, state, ran, isHistory, fun isBijection => ?_⟩
  have right := isBijection.1
  rw [isHistory] at right
  have sameName := (right.1 ⟨agesi, true, false, 1501⟩ List.mem_cons_self rfl).mp rfl
  exact absurd sameName (by decide)

end StringTable

end Pmgd
