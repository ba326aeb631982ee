import Mathlib.Data.BitVec
import Mathlib.Order.Bounds.Basic
import Mathlib.Tactic.Ring
import Pmgd.Lib.ByteMemory

/-!
# Encoding of property values

An entry of a property list has a byte with its size and its type, the id of the property in
two bytes, and the value.  Integers take the fewest bytes, strings of up to 13 bytes are
stored in the entry, and longer ones and blobs in a block of their own to which the entry
refers.  Reading an entry back gives the value that was written.
-/

namespace Pmgd

open ByteMemory

/-- A packed UTC time with the byte of its time zone. -/
structure Time where
  timeVal : BitVec 64
  timeZone : UInt8
  deriving DecidableEq

/-- A property value; `float` has the bits of a double. -/
inductive Property
  | noValue
  | boolean (v : Bool)
  | integer (v : BitVec 64)
  | string (v : List UInt8)
  | float (v : BitVec 64)
  | time (v : Time)
  | blob (v : List UInt8)
  deriving DecidableEq

/-- The types of entries, `p_unused` to `p_blob`. -/
inductive EntryType
  | unused
  | done
  | link
  | noValue
  | booleanFalse
  | booleanTrue
  | integer
  | float
  | time
  | string
  | stringPtr
  | blob
  deriving DecidableEq, Repr

namespace EntryType

def code : EntryType → Nat
  | unused => 0
  | done => 1
  | link => 2
  | noValue => 3
  | booleanFalse => 4
  | booleanTrue => 5
  | integer => 6
  | float => 7
  | time => 8
  | string => 9
  | stringPtr => 10
  | blob => 11

def ofCode : Nat → Option EntryType
  | 0 => some unused
  | 1 => some done
  | 2 => some link
  | 3 => some noValue
  | 4 => some booleanFalse
  | 5 => some booleanTrue
  | 6 => some integer
  | 7 => some float
  | 8 => some time
  | 9 => some string
  | 10 => some stringPtr
  | 11 => some blob
  | _ => none

@[simp]
theorem ofCode_code (type : EntryType) : ofCode type.code = some type := by
  cases type <;> rfl

theorem code_lt (type : EntryType) : type.code < 16 := by
  cases type <;> decide

/-- The types from `p_novalue` on. -/
def IsProperty (type : EntryType) : Prop :=
  noValue.code ≤ type.code

instance (type : EntryType) : Decidable type.IsProperty :=
  inferInstanceAs (Decidable (_ ≤ _))

end EntryType

/-- A place in a chunk, which is not at the very beginning of memory. -/
structure PropertyRef where
  chunk : Nat
  offset : Nat
  chunk_ge : 8 ≤ chunk
  deriving DecidableEq

/-- The least number of bytes for an integer; the negation wraps. -/
def getIntLen (v : BitVec 64) : Nat :=
  let v := if v.toInt < 0 then -v - 1 else v
  if v = 0 then 1 else (v.toNat.log2 + 1) / 8 + 1

/-- The size of a `BlobRef`: a pointer and a length of 32 bits. -/
def blobRefSize : Nat := 12

/-- `PropertyList::get_space`. -/
def getSpace : Property → Nat
  | .noValue => 0
  | .boolean _ => 0
  | .integer v => getIntLen v
  | .string v => if v.length ≤ 13 then v.length else blobRefSize
  | .float _ => 8
  | .time _ => 9
  | .blob _ => blobRefSize

/-- `Allocator::alloc` as a function of memory and a size: a block and the memory with the
changed allocator, or an exception. -/
abbrev Alloc := Memory → Nat → Option (Nat × Memory)

namespace PropertyRef

def address (ref : PropertyRef) : Nat :=
  ref.chunk + ref.offset

def val (ref : PropertyRef) : Nat :=
  ref.address + 3

/-- The place a number of bytes further on. -/
def advance (ref : PropertyRef) (size : Nat) : PropertyRef :=
  { ref with offset := ref.offset + size }

def chunkEnd (ref : PropertyRef) (mem : Memory) : Nat :=
  (mem ref.chunk).toNat

def chunkSize (ref : PropertyRef) (mem : Memory) : Nat :=
  ref.chunkEnd mem + 1

def typeSize (ref : PropertyRef) (mem : Memory) : UInt8 :=
  mem ref.address

/-- The type, `none` for a code that is not in use. -/
def ptype (ref : PropertyRef) (mem : Memory) : Option EntryType :=
  EntryType.ofCode ((ref.typeSize mem).toNat &&& 0xf)

/-- The size of the entry less one. -/
def size (ref : PropertyRef) (mem : Memory) : Nat :=
  (ref.typeSize mem).toNat >>> 4

def skip (ref : PropertyRef) (mem : Memory) : PropertyRef :=
  ref.advance (ref.size mem + 1)

def NotDone (ref : PropertyRef) (mem : Memory) : Prop :=
  ref.offset ≤ ref.chunkEnd mem ∧ ref.ptype mem ≠ some .done

instance (ref : PropertyRef) (mem : Memory) : Decidable (ref.NotDone mem) :=
  inferInstanceAs (Decidable (_ ∧ _))

/-- The byte `uint8_t((size - 1) << 4 | type)`. -/
def typeSizeByte (size : Nat) (type : EntryType) : UInt8 :=
  UInt8.ofNat ((size - 1) <<< 4 ||| type.code)

def setTypeSize (ref : PropertyRef) (mem : Memory) (byte : UInt8) : Memory :=
  store mem ref.address [byte]

/-! ## Space -/

/-- The loop of `free_space`: the offset of the first entry in use, or the end of the chunk.
Each round passes at least one byte. -/
def freeEnd (mem : Memory) : Nat → PropertyRef → Nat
  | 0, ref => ref.chunkSize mem
  | rounds + 1, ref =>
      if ref.NotDone mem then
        if ref.ptype mem ≠ some .unused then ref.offset
        else freeEnd mem rounds (ref.skip mem)
      else ref.chunkSize mem

def freeSpace (ref : PropertyRef) (mem : Memory) : Nat :=
  freeEnd mem (ref.chunkSize mem) ref - ref.offset

/-- The loop of `set_size`: the size of the unused entries that reach up to the new size. -/
def unusedSize (mem : Memory) (newSize : Nat) : Nat → PropertyRef → Nat → Nat
  | 0, _, size => size
  | rounds + 1, ref, size =>
      if size + (ref.size mem + 1) < newSize then
        unusedSize mem newSize rounds (ref.skip mem) (size + (ref.size mem + 1))
      else size + (ref.size mem + 1)

/-- `set_size`; `none` is a failed assertion. -/
def setSize (ref : PropertyRef) (mem : Memory) (oldSize newSize : Nat) : Option Memory :=
  if (ref.advance newSize).offset ≤ ref.chunkSize mem then
    if oldSize = ref.chunkSize mem - ref.offset then
      some ((ref.advance newSize).setTypeSize mem (UInt8.ofNat EntryType.done.code))
    else
      let unused := unusedSize mem newSize newSize ref 0
      if newSize < unused then
        some ((ref.advance newSize).setTypeSize mem (typeSizeByte (unused - newSize) .unused))
      else some mem
  else none

/-! ## Writing -/

/-- `set_blob`: the bytes go to a block from the allocator, and the entry refers to it.
`none` is an exception. -/
def setBlob (ref : PropertyRef) (alloc : Alloc) (mem : Memory)
    (value : List UInt8) : Option Memory :=
  if value.length < 2 ^ 32 then
    (alloc mem value.length).map fun (p, mem) =>
      store (store (store mem p value) ref.val (encode 8 p)) (ref.val + 8)
        (encode 4 value.length)
  else none

/-- The part of `set_value` that writes the value: the memory and the type of the entry. -/
def writeValue (ref : PropertyRef) (alloc : Alloc) (mem : Memory) (size : Nat) :
    Property → Option (Memory × EntryType)
  | .noValue => some (mem, .noValue)
  | .boolean v => some (mem, if v then .booleanTrue else .booleanFalse)
  | .integer v =>
      if size = getIntLen v + 3 then
        some (store mem ref.val (encode (size - 3) v.toNat), .integer)
      else none
  | .string v =>
      if v.length ≤ 13 then some (store mem ref.val v, .string)
      else (ref.setBlob alloc mem v).map fun mem => (mem, .stringPtr)
  | .float v => some (store mem ref.val (encode 8 v.toNat), .float)
  | .time v => some (store mem ref.val (encode 8 v.timeVal.toNat ++ [v.timeZone]), .time)
  | .blob v => (ref.setBlob alloc mem v).map fun mem => (mem, .blob)

/-- `PropertyRef::set_value`. -/
def setValue (ref : PropertyRef) (alloc : Alloc) (mem : Memory) (p : Property)
    (size : Nat) : Option Memory :=
  if ref.offset ≤ ref.chunkEnd mem then
    (ref.writeValue alloc mem size p).map fun (mem, type) =>
      ref.setTypeSize mem (typeSizeByte size type)
  else none

/-- The assertions of `get_id`. -/
def HasId (ref : PropertyRef) (mem : Memory) : Prop :=
  (∃ type ∈ ref.ptype mem, type.IsProperty) ∧ 2 ≤ ref.size mem

instance (ref : PropertyRef) (mem : Memory) : Decidable (ref.HasId mem) :=
  inferInstanceAs (Decidable (_ ∧ _))

def setId (ref : PropertyRef) (mem : Memory) (id : BitVec 16) : Option Memory :=
  if ref.HasId mem then some (store mem (ref.address + 1) (encode 2 id.toNat)) else none

/-! ## Reading -/

/-- `int_value` reads eight bytes that end with the value, and shifts the others out. -/
def intValue (ref : PropertyRef) (mem : Memory) : BitVec 64 :=
  let sz := ref.size mem - 2
  let shift := 8 - sz
  let v := BitVec.ofNat 64 (loadNat mem (ref.val - shift) 8)
  if sz < 8 then v.sshiftRight (8 * shift) else v

def blobRef (ref : PropertyRef) (mem : Memory) : List UInt8 :=
  load mem (loadNat mem ref.val 8) (loadNat mem (ref.val + 8) 4)

def timeValue (ref : PropertyRef) (mem : Memory) : Time :=
  ⟨BitVec.ofNat 64 (loadNat mem ref.val 8), mem (ref.val + 8)⟩

/-- `PropertyRef::get_value`; it asserts that the entry has a value. -/
def getValue (ref : PropertyRef) (mem : Memory) : Option Property :=
  match ref.ptype mem with
  | some .noValue => some .noValue
  | some .booleanFalse => some (.boolean false)
  | some .booleanTrue => some (.boolean true)
  | some .integer => some (.integer (ref.intValue mem))
  | some .string => some (.string (load mem ref.val (ref.size mem - 2)))
  | some .stringPtr => some (.string (ref.blobRef mem))
  | some .float => some (.float (BitVec.ofNat 64 (loadNat mem ref.val 8)))
  | some .time => some (.time (ref.timeValue mem))
  | some .blob => some (.blob (ref.blobRef mem))
  | _ => none

end PropertyRef

/-- `PropertySpace`: the size that is needed, and the place and size of the space found. -/
structure PropertySpace where
  req : Nat
  size : Nat
  pos : PropertyRef

/-- `PropertySpace::set_property`. -/
def PropertySpace.setProperty (space : PropertySpace) (alloc : Alloc)
    (mem : Memory) (id : BitVec 16) (p : Property) : Option Memory :=
  if 3 ≤ space.req ∧ space.req ≤ space.size ∧ space.size ≤ space.pos.freeSpace mem then
    (if space.req < space.size then space.pos.setSize mem space.size space.req
      else some mem).bind fun mem =>
        (space.pos.setValue alloc mem p space.req).bind fun mem => space.pos.setId mem id
  else none

/-! ## Type bytes -/

namespace PropertyRef

theorem toNat_typeSizeByte {size : Nat} (small : size ≤ 16) (type : EntryType) :
    (typeSizeByte size type).toNat = 16 * (size - 1) + type.code := by
  have low := type.code_lt
  have joined := Nat.shiftLeft_add_eq_or_of_lt (show type.code < 2 ^ 4 from low) (size - 1)
  rw [typeSizeByte, ← joined, Nat.shiftLeft_eq, UInt8.toNat_ofNat', Nat.mod_eq_of_lt (by omega)]
  omega

variable {ref : PropertyRef} {mem : Memory} {size : Nat} {type : EntryType}

theorem ptype_eq (small : size ≤ 16) (isByte : ref.typeSize mem = typeSizeByte size type) :
    ref.ptype mem = some type := by
  have low := type.code_lt
  have masked := Nat.and_two_pow_sub_one_eq_mod (16 * (size - 1) + type.code) 4
  rw [ptype, isByte, toNat_typeSizeByte small, masked, Nat.mul_add_mod,
    Nat.mod_eq_of_lt low, EntryType.ofCode_code]

theorem size_eq (small : size ≤ 16) (isByte : ref.typeSize mem = typeSizeByte size type) :
    ref.size mem = size - 1 := by
  have low := type.code_lt
  rw [PropertyRef.size, isByte, toNat_typeSizeByte small, Nat.shiftRight_eq_div_pow]
  omega

/-! ## Lengths of integers -/

end PropertyRef

/-- The range of the integers that fit a number of bytes. -/
def FitsBytes (v : BitVec 64) (bytes : Nat) : Prop :=
  -2 ^ (8 * bytes - 1) ≤ v.toInt ∧ v.toInt < 2 ^ (8 * bytes - 1)

/-- The number whose highest bit `get_int_len` looks at. -/
theorem toNat_complement (v : BitVec 64) (negative : v.toInt < 0) :
    ((-v - 1).toNat : Int) = -v.toInt - 1 := by
  have bound := v.isLt
  rw [BitVec.toInt_eq_toNat_cond] at negative ⊢
  split_ifs at negative ⊢
  · omega
  · have one : (1 : BitVec 64).toNat = 1 := rfl
    rw [BitVec.toNat_sub, BitVec.toNat_neg, one]
    omega

theorem getIntLen_le_iff {v : BitVec 64} {bytes : Nat} (positive : 0 < bytes) :
    getIntLen v ≤ bytes ↔ FitsBytes v bytes := by
  have highBit {value : Nat} : (if value = 0 then 1 else (value.log2 + 1) / 8 + 1) ≤ bytes ↔
      value < 2 ^ (8 * bytes - 1) := by
    split_ifs with isZero
    · rw [isZero]
      exact iff_of_true positive (Nat.two_pow_pos _)
    · rw [← Nat.log2_lt isZero]
      omega
  have isZero (w : BitVec 64) : w = 0 ↔ w.toNat = 0 := BitVec.toNat_inj.symm
  unfold getIntLen FitsBytes
  by_cases negative : v.toInt < 0
  · have complement := toNat_complement v negative
    simp only [if_pos negative, isZero]
    rw [highBit, ← Int.ofNat_lt, complement]
    push_cast
    omega
  · have value : (v.toNat : Int) = v.toInt := by
      rw [BitVec.toInt_eq_toNat_cond] at negative ⊢
      split_ifs at negative ⊢ with high
      · rfl
      · have := v.isLt
        omega
    simp only [if_neg negative, isZero]
    rw [highBit, ← Int.ofNat_lt, value]
    push_cast
    omega

theorem getIntLen_pos (v : BitVec 64) : 0 < getIntLen v := by
  unfold getIntLen
  dsimp only
  split_ifs <;> omega

theorem getIntLen_le (v : BitVec 64) : getIntLen v ≤ 8 := by
  refine (getIntLen_le_iff (by decide)).mpr ⟨?_, ?_⟩
  · exact BitVec.le_toInt v
  · exact BitVec.toInt_lt

theorem dvd_toInt_sub {bytes : Nat} (short : bytes ≤ 8) (v : BitVec 64) :
    ((2 ^ (8 * bytes) : Nat) : Int) ∣ v.toInt - v.toNat := by
  have divides : 2 ^ (8 * bytes) ∣ 2 ^ 64 := Nat.pow_dvd_pow 2 (by omega)
  rw [BitVec.toInt_eq_toNat_cond]
  split_ifs
  · simp
  · rw [Int.sub_sub, Int.add_comm, ← Int.sub_sub, Int.sub_self, Int.zero_sub, Int.dvd_neg]
    exact Int.natCast_dvd_natCast.mpr divides

/-- The bytes of an integer that the code writes are the fewest that give it back. -/
theorem signExtend_eq_iff {v : BitVec 64} {bytes : Nat} (positive : 0 < bytes) :
    (v.setWidth (8 * bytes)).signExtend 64 = v ↔ getIntLen v ≤ bytes := by
  rcases Nat.lt_or_ge 8 bytes with long | short
  · refine iff_of_true ?_ ((getIntLen_le v).trans long.le)
    rw [BitVec.signExtend_eq_setWidth_of_le _ (by omega), BitVec.setWidth_setWidth_of_le _ (by omega),
      BitVec.setWidth_eq]
  · have half : 2 ^ (8 * bytes) = 2 * 2 ^ (8 * bytes - 1) := by
      rw [← Nat.pow_succ']
      congr 1
      omega
    rw [getIntLen_le_iff positive, ← BitVec.toInt_inj, BitVec.toInt_signExtend_of_le (by omega),
      BitVec.toInt_setWidth, Int.bmod_eq_iff (Nat.two_pow_pos _), FitsBytes]
    have lower : -(((2 ^ (8 * bytes) : Nat) : Int) / 2) = -2 ^ (8 * bytes - 1) := by
      rw [half]
      push_cast
      omega
    have upper : (((2 ^ (8 * bytes) : Nat) : Int) + 1) / 2 = 2 ^ (8 * bytes - 1) := by
      rw [half]
      push_cast
      omega
    rw [lower, upper]
    constructor
    · rintro ⟨low, high, -⟩
      exact ⟨low, high⟩
    · rintro ⟨low, high⟩
      exact ⟨low, high, dvd_toInt_sub short v⟩

/-- Eight bytes that end with the bytes of an integer, shifted to the right, give it back. -/
theorem sshiftRight_eq {v : BitVec 64} {bytes shift low : Nat} (whole : shift + bytes = 8)
    (positive : 0 < bytes) (fits : FitsBytes v bytes) (small : low < 256 ^ shift) :
    (BitVec.ofNat 64 (low + 256 ^ shift * (v.toNat % 256 ^ bytes))).sshiftRight (8 * shift) =
      v := by
  obtain ⟨lower, upper⟩ := fits
  have bytePow (count : Nat) : 256 ^ count = 2 ^ (8 * count) := (Nat.pow_mul 2 8 count).symm
  rw [bytePow, bytePow]
  rw [bytePow] at small
  have smallInt : (low : Int) < 2 ^ (8 * shift) := by exact_mod_cast small
  have scalePos : (0 : Int) < 2 ^ (8 * shift) := Int.pow_pos (by decide)
  have half : (2 : Int) ^ (8 * shift) * 2 ^ (8 * bytes - 1) = 2 ^ 63 := by
    rw [← Int.pow_add]
    congr 1
    omega
  have shifted : (BitVec.ofNat 64 (low + 2 ^ (8 * shift) *
      (v.toNat % 2 ^ (8 * bytes)))).toInt = low + 2 ^ (8 * shift) * v.toInt := by
    have scaledLower := Int.mul_le_mul_of_nonneg_left lower scalePos.le
    have scaledUpper := Int.mul_le_mul_of_nonneg_left (Int.le_sub_one_of_lt upper) scalePos.le
    rw [Int.mul_neg, half] at scaledLower
    rw [Int.mul_sub, half, Int.mul_one] at scaledUpper
    obtain ⟨quotient, isMultiple⟩ := dvd_toInt_sub (show bytes ≤ 8 by omega) v
    have rest : (v.toNat : Int) = ((2 ^ (8 * bytes) : Nat) : Int) * (v.toNat / 2 ^ (8 * bytes) : Nat)
        + (v.toNat % 2 ^ (8 * bytes) : Nat) := by
      exact_mod_cast (Nat.div_add_mod v.toNat (2 ^ (8 * bytes))).symm
    have product : ((2 ^ 64 : Nat) : Int) = 2 ^ (8 * shift) * ((2 ^ (8 * bytes) : Nat) : Int) := by
      have exponents : 8 * shift + 8 * bytes = 64 := by omega
      rw [← exponents, Nat.pow_add]
      push_cast
      rfl
    rw [BitVec.toInt_ofNat', Int.bmod_eq_iff (Nat.two_pow_pos _)]
    refine ⟨by omega, by omega, quotient + (v.toNat / 2 ^ (8 * bytes) : Nat), ?_⟩
    rw [product, Int.natCast_add, Int.natCast_mul, Int.natCast_pow 2 (8 * shift)]
    have signed : v.toInt = v.toNat + ((2 ^ (8 * bytes) : Nat) : Int) * quotient := by omega
    rw [signed]
    generalize ((2 ^ (8 * bytes) : Nat) : Int) = modulus at rest
    rw [rest]
    push_cast
    ring
  apply BitVec.eq_of_toInt_eq
  rw [BitVec.toInt_sshiftRight, shifted, Int.shiftRight_eq_div_pow]
  push_cast
  rw [Int.add_mul_ediv_left _ _ scalePos.ne', Int.ediv_eq_zero_of_lt (Int.natCast_nonneg low)
    smallInt, Int.zero_add]

/-! ## Space for an entry -/

namespace PropertyRef

variable {ref : PropertyRef} {mem : Memory}

theorem freeEnd_le (mem : Memory) (rounds : Nat) (ref : PropertyRef) :
    freeEnd mem rounds ref ≤ ref.chunkSize mem := by
  induction rounds generalizing ref with
  | zero => exact le_rfl
  | succ rounds ih =>
      rw [freeEnd]
      split_ifs with notDone
      · exact Nat.le_succ_of_le notDone.1
      · exact ih (ref.skip mem)
      · exact le_rfl

/-- Only the byte behind the new size may change. -/
theorem setSize_spec (oldSize : Nat) {newSize : Nat}
    (room : ref.offset + newSize ≤ ref.chunkSize mem) :
    ∃ next, ref.setSize mem oldSize newSize = some next ∧
      ∀ place, place ≠ ref.address + newSize → next place = mem place := by
  have behind (byte : UInt8) (place : Nat) (other : place ≠ ref.address + newSize) :
      (ref.advance newSize).setTypeSize mem byte place = mem place := by
    refine store_outside ?_
    have sameAddress : (ref.advance newSize).address = ref.address + newSize :=
      (Nat.add_assoc ref.chunk ref.offset newSize).symm
    rw [sameAddress, List.length_singleton]
    omega
  rw [setSize, if_pos (by exact room)]
  split_ifs
  · exact ⟨_, rfl, behind _⟩
  · dsimp only
    split_ifs
    · exact ⟨_, rfl, behind _⟩
    · exact ⟨mem, rfl, fun _ _ => rfl⟩

end PropertyRef

/-! ## Round trips -/

/-- The bytes that are stored in a block of their own. -/
def Property.external : Property → Option (List UInt8)
  | .string v => if v.length ≤ 13 then none else some v
  | .blob v => some v
  | _ => none

/-- The space has at least the size that the value needs. -/
structure PropertySpace.Fits (space : PropertySpace) (mem : Memory) (value : Property) :
    Prop where
  req : space.req = getSpace value + 3
  enough : space.req ≤ space.size
  free : space.size ≤ space.pos.freeSpace mem

/-- The allocator has a block for the bytes, apart from the space. -/
def PropertySpace.Served (space : PropertySpace) (alloc : Alloc) (bytes : List UInt8) : Prop :=
  ∀ mem, ∃ p next, alloc mem bytes.length = some (p, next) ∧ p < 2 ^ 64 ∧
    (p + bytes.length ≤ space.pos.address ∨ space.pos.address + space.req ≤ p)

namespace PropertyRef

variable {ref : PropertyRef} {mem next : Memory}

/-- Memory has changed at most in the first three bytes of the entry, which say that it has
the given size and type. -/
structure Completed (ref : PropertyRef) (mem next : Memory) (size : Nat) (type : EntryType) :
    Prop where
  ptype : ref.ptype next = some type
  size : ref.size next = size - 1
  same : ∀ place, place < ref.address ∨ ref.val ≤ place → next place = mem place

theorem Completed.load_val {size : Nat} {type : EntryType}
    (completed : ref.Completed mem next size type) (skipped count : Nat) :
    load next (ref.val + skipped) count = load mem (ref.val + skipped) count :=
  load_congr fun _ _ => completed.same _ (by omega)

theorem intValue_eq {v : BitVec 64} {size : Nat}
    (isSize : size = getIntLen v + 3)
    (completed : ref.Completed (store mem ref.val (encode (size - 3) v.toNat)) next size
      .integer) : ref.intValue next = v := by
  have positive := getIntLen_pos v
  have short := getIntLen_le v
  have above : 8 ≤ ref.val := Nat.le_add_right_of_le (Nat.le_add_right_of_le ref.chunk_ge)
  have stored : loadNat next ref.val (getIntLen v) = v.toNat % 256 ^ getIntLen v := by
    have loaded := completed.load_val 0 (getIntLen v)
    rw [Nat.add_zero] at loaded
    rw [loadNat, loaded, ← loadNat]
    subst isSize
    exact loadNat_store_encode mem ref.val _ _
  have sz : ref.size next - 2 = getIntLen v := by
    rw [completed.size]
    omega
  simp only [intValue, sz]
  have whole : 8 - getIntLen v + getIntLen v = 8 := by omega
  have parts : loadNat next (ref.val - (8 - getIntLen v)) 8 =
      loadNat next (ref.val - (8 - getIntLen v)) (8 - getIntLen v) +
        256 ^ (8 - getIntLen v) * (v.toNat % 256 ^ getIntLen v) := by
    rw [← stored]
    have sum := loadNat_add next (ref.val - (8 - getIntLen v)) (8 - getIntLen v) (getIntLen v)
    rw [whole, Nat.sub_add_cancel (by omega)] at sum
    exact sum
  rw [parts]
  have shifted := sshiftRight_eq whole positive ((getIntLen_le_iff positive).mp le_rfl)
    (loadNat_lt next (ref.val - (8 - getIntLen v)) (8 - getIntLen v))
  split_ifs with part
  · exact shifted
  · have allBytes : 8 - getIntLen v = 0 := by omega
    rw [allBytes, Nat.mul_zero, BitVec.sshiftRight_zero] at shifted
    rw [allBytes]
    exact shifted

theorem Completed.loadNat_val {size width value : Nat} {type : EntryType}
    (completed : ref.Completed (store mem ref.val (encode width value)) next size type) :
    loadNat next ref.val width = value % 256 ^ width := by
  have loaded := completed.load_val 0 width
  rw [Nat.add_zero] at loaded
  rw [loadNat, loaded, ← loadNat, loadNat_store_encode]

theorem timeValue_eq {v : Time} {size : Nat}
    (completed : ref.Completed
      (store mem ref.val (encode 8 v.timeVal.toNat ++ [v.timeZone])) next size .time) :
    ref.timeValue next = v := by
  have loaded := completed.load_val 0 (8 + 1)
  have stored := @load_store_self mem ref.val (encode 8 v.timeVal.toNat ++ [v.timeZone])
  rw [List.length_append, length_encode, List.length_singleton] at stored
  rw [Nat.add_zero, stored, load_add] at loaded
  obtain ⟨value, zone⟩ := List.append_inj loaded (by simp)
  have bound := v.timeVal.isLt
  have isZone : next (ref.val + 8) = v.timeZone := List.singleton_inj.mp zone
  rw [timeValue, loadNat, value, isZone, decode_encode, Nat.mod_eq_of_lt (by omega),
    BitVec.ofNat_toNat, BitVec.setWidth_eq]

/-- The memory after the stores of `set_blob`. -/
def withBlob (ref : PropertyRef) (mem : Memory) (p : Nat) (bytes : List UInt8) : Memory :=
  store (store (store mem p bytes) ref.val (encode 8 p)) (ref.val + 8) (encode 4 bytes.length)

theorem blobRef_eq {bytes : List UInt8} {p size : Nat} {type : EntryType}
    (short : bytes.length < 2 ^ 32) (pointer : p < 2 ^ 64)
    (apart : p + bytes.length ≤ ref.address ∨ ref.val + blobRefSize ≤ p)
    (completed : ref.Completed (ref.withBlob mem p bytes) next size type) :
    ref.blobRef next = bytes := by
  rw [blobRefSize] at apart
  have isVal : ref.val = ref.address + 3 := rfl
  have length : loadNat next (ref.val + 8) 4 = bytes.length := by
    rw [loadNat, completed.load_val 8 4, ← loadNat, withBlob]
    exact loadNat_store_self (by omega)
  have value : loadNat next ref.val 8 = p := by
    have loaded := completed.load_val 0 8
    rw [Nat.add_zero] at loaded
    rw [loadNat, loaded, withBlob, load_store_of_disjoint (by simp), ← loadNat]
    exact loadNat_store_self (by omega)
  rw [blobRef, length, value]
  have outside (place : Nat) (low : p ≤ place) (high : place < p + bytes.length) :
      next place = store mem p bytes place := by
    rw [completed.same place (by omega), withBlob, store_outside (by simp; omega),
      store_outside (by simp; omega)]
  have loaded : load next p bytes.length = load (store mem p bytes) p bytes.length :=
    load_congr fun offset inside => outside _ (by omega) (by omega)
  rw [loaded, load_store_self]

theorem setBlob_eq {alloc : Alloc} {bytes : List UInt8} {p : Nat}
    (short : bytes.length < 2 ^ 32) (allocated : alloc mem bytes.length = some (p, next)) :
    ref.setBlob alloc mem bytes = some (ref.withBlob next p bytes) := by
  rw [setBlob, if_pos short, allocated]
  rfl

end PropertyRef

theorem getSpace_le (value : Property) : getSpace value ≤ 13 := by
  cases value with
  | integer v => exact (getIntLen_le v).trans (by decide)
  | string v =>
      rw [getSpace]
      split_ifs with inside
      · exact inside
      · decide
  | noValue | boolean v | float v | time v | blob v => simp [getSpace, blobRefSize]

namespace PropertyRef

variable {ref : PropertyRef} {mem : Memory}

/-- The value is written so that the completed entry reads as the value. -/
theorem writeValue_spec {alloc : Alloc} {value : Property} {space : PropertySpace}
    (req : space.req = getSpace value + 3)
    (short : ∀ bytes ∈ value.external, bytes.length < 2 ^ 32)
    (served : ∀ bytes ∈ value.external, space.Served alloc bytes) (mem : Memory) :
    ∃ written type, space.pos.writeValue alloc mem space.req value = some (written, type) ∧
      type.IsProperty ∧ ∀ next, space.pos.Completed written next space.req type →
        space.pos.getValue next = some value := by
  have external (bytes : List UInt8) (type : EntryType) (isExternal : bytes ∈ value.external)
      (size : getSpace value = blobRefSize) :
      ∃ written, space.pos.setBlob alloc mem bytes = some written ∧
        ∀ next, space.pos.Completed written next space.req type →
          space.pos.blobRef next = bytes := by
    obtain ⟨p, allocated, isAllocated, pointer, apart⟩ := served bytes isExternal mem
    refine ⟨_, setBlob_eq (short bytes isExternal) isAllocated, fun next completed => ?_⟩
    refine blobRef_eq (short bytes isExternal) pointer ?_ completed
    rw [req, size] at apart
    rw [val]
    omega
  cases value with
  | noValue =>
      refine ⟨mem, .noValue, rfl, by decide, fun next completed => ?_⟩
      rw [getValue, completed.ptype]
  | boolean v =>
      refine ⟨mem, _, rfl, by cases v <;> decide, fun next completed => ?_⟩
      rw [getValue, completed.ptype]
      cases v <;> rfl
  | integer v =>
      have isSize : space.req = getIntLen v + 3 := req
      refine ⟨_, .integer, by rw [writeValue, if_pos isSize], by decide,
        fun next completed => ?_⟩
      simp only [getValue, completed.ptype, intValue_eq isSize completed]
  | string v =>
      by_cases inside : v.length ≤ 13
      · refine ⟨_, .string, by rw [writeValue, if_pos inside], by decide,
          fun next completed => ?_⟩
        have size : space.pos.size next - 2 = v.length := by
          rw [completed.size, req, getSpace, if_pos inside]
          omega
        have loaded := completed.load_val 0 v.length
        rw [Nat.add_zero, load_store_self] at loaded
        simp only [getValue, completed.ptype, size, loaded]
      · obtain ⟨written, isWritten, reads⟩ := external v .stringPtr
          (by simp [Property.external, inside]) (by rw [getSpace, if_neg inside])
        refine ⟨written, .stringPtr, by rw [writeValue, if_neg inside, isWritten]; rfl, by decide,
          fun next completed => ?_⟩
        simp only [getValue, completed.ptype, reads next completed]
  | float v =>
      refine ⟨_, .float, rfl, by decide, fun next completed => ?_⟩
      have bound := v.isLt
      simp only [getValue, completed.ptype, completed.loadNat_val]
      rw [Nat.mod_eq_of_lt (by omega), BitVec.ofNat_toNat, BitVec.setWidth_eq]
  | time v =>
      refine ⟨_, .time, rfl, by decide, fun next completed => ?_⟩
      simp only [getValue, completed.ptype, timeValue_eq completed]
  | blob v =>
      obtain ⟨written, isWritten, reads⟩ := external v .blob rfl rfl
      refine ⟨written, .blob, by rw [writeValue, isWritten]; rfl, by decide,
        fun next completed => ?_⟩
      simp only [getValue, completed.ptype, reads next completed]

/-- Setting the type and the id completes an entry. -/
theorem setId_setTypeSize (ref : PropertyRef) {size : Nat} {type : EntryType}
    (low : 3 ≤ size) (high : size ≤ 16) (isProperty : type.IsProperty) (mem : Memory)
    (id : BitVec 16) :
    ∃ next, ref.setId (ref.setTypeSize mem (typeSizeByte size type)) id = some next ∧
      ref.Completed mem next size type := by
  have isByte : ref.typeSize (ref.setTypeSize mem (typeSizeByte size type)) =
      typeSizeByte size type := @store_inside mem ref.address [typeSizeByte size type] 0 (by simp)
  have hasId : ref.HasId (ref.setTypeSize mem (typeSizeByte size type)) := by
    refine ⟨⟨type, ptype_eq high isByte, isProperty⟩, ?_⟩
    rw [size_eq high isByte]
    omega
  rw [setId, if_pos hasId]
  have kept : ref.typeSize (store (ref.setTypeSize mem (typeSizeByte size type))
      (ref.address + 1) (encode 2 id.toNat)) = typeSizeByte size type :=
    (store_outside (by omega)).trans isByte
  refine ⟨_, rfl, ptype_eq high kept, size_eq high kept, fun place outside => ?_⟩
  have isVal : ref.val = ref.address + 3 := rfl
  rw [store_outside (by simp; omega), setTypeSize, store_outside (by simp; omega)]

end PropertyRef

/-- A value that is written into enough space reads back as the same value, and an integer
takes the fewest bytes that give it back. -/
theorem getValue_setProperty {space : PropertySpace} {alloc : Alloc} {mem : Memory}
    {value : Property} (fits : space.Fits mem value)
    (short : ∀ bytes ∈ value.external, bytes.length < 2 ^ 32)
    (served : ∀ bytes ∈ value.external, space.Served alloc bytes) (id : BitVec 16) :
    (∃ next, space.setProperty alloc mem id value = some next ∧
      space.pos.getValue next = some value ∧
      space.pos.size next = getSpace value + 2) ∧
    ∀ v, value = .integer v →
      IsLeast {bytes | 0 < bytes ∧ (v.setWidth (8 * bytes)).signExtend 64 = v}
        (getSpace value) := by
  obtain ⟨req, enough, free⟩ := fits
  have small := getSpace_le value
  constructor
  · have inChunk := PropertyRef.freeEnd_le mem (space.pos.chunkSize mem) space.pos
    rw [PropertyRef.freeSpace] at free
    obtain ⟨sized, isSized, same⟩ : ∃ sized,
        (if space.req < space.size then space.pos.setSize mem space.size space.req
          else some mem) = some sized ∧ sized space.pos.chunk = mem space.pos.chunk := by
      split_ifs
      · obtain ⟨sized, isSized, same⟩ := PropertyRef.setSize_spec space.size
          (show space.pos.offset + space.req ≤ space.pos.chunkSize mem by omega)
        refine ⟨sized, isSized, same _ ?_⟩
        rw [PropertyRef.address]
        omega
      · exact ⟨mem, rfl, rfl⟩
    obtain ⟨written, type, isWritten, isProperty, reads⟩ :=
      PropertyRef.writeValue_spec req short served sized
    obtain ⟨next, isNext, completed⟩ := space.pos.setId_setTypeSize
      (show 3 ≤ space.req by omega) (by omega) isProperty written id
    have inside : space.pos.offset ≤ space.pos.chunkEnd sized := by
      have isSize : space.pos.chunkSize mem = (mem space.pos.chunk).toNat + 1 := rfl
      rw [PropertyRef.chunkEnd, same]
      omega
    refine ⟨next, ?_, reads next completed, by rw [completed.size]; omega⟩
    rw [PropertySpace.setProperty, if_pos ⟨by omega, enough, free⟩, isSized, Option.bind_some,
      PropertyRef.setValue, if_pos inside, isWritten]
    exact isNext
  · rintro v rfl
    exact ⟨⟨getIntLen_pos v, (signExtend_eq_iff (getIntLen_pos v)).mpr le_rfl⟩,
      fun bytes ⟨positive, extends'⟩ => (signExtend_eq_iff positive).mp extends'⟩

/-- An empty chunk of 64 bytes at address 64, with the space of all its bytes for a string
that does not fit into its entry. -/
def emptyChunk : Memory := fun address =>
  if address = 64 then 63 else if address = 65 then 1 else 0

def wholeChunk : PropertySpace := ⟨15, 63, ⟨64, 1, by decide⟩⟩

theorem getValue_setProperty_longString :
    (∃ next, wholeChunk.setProperty (fun mem _ => some (4096, mem)) emptyChunk 5
        (.string (List.replicate 14 7)) = some next ∧
      wholeChunk.pos.getValue next = some (.string (List.replicate 14 7)) ∧
      wholeChunk.pos.size next = 14) ∧
    ∀ v, Property.string (List.replicate 14 7) = .integer v →
      IsLeast {bytes | 0 < bytes ∧ (v.setWidth (8 * bytes)).signExtend 64 = v} 12 := by
  refine getValue_setProperty ⟨by decide, by decide, by decide⟩ ?_ ?_ 5
  · intro bytes isExternal
    obtain rfl := Option.some.inj isExternal
    decide
  · intro bytes isExternal mem
    obtain rfl := Option.some.inj isExternal
    exact ⟨4096, mem, rfl, by decide, by decide⟩

end Pmgd
