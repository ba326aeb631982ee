import Pmgd.Lib.RecordRun
import Pmgd.PropertyList

/-!
# The chain of chunks of a property list

What the bytes of a property list say: each chunk is a run of slots, which are unused or have a
property, and ends with a link to the next chunk, or, in the last chunk, with the byte `p_end` or
where the chunk does.  A place with the slots that follow it tells what the code reads there.
-/

namespace Pmgd

open ByteMemory RecordRun

/-! ## Entries and slots -/

namespace Property

/-- The type of the entry of a value. -/
def entryType : Property → EntryType
  | .noValue => .noValue
  | .boolean v => if v then .booleanTrue else .booleanFalse
  | .integer _ => .integer
  | .string v => if v.length ≤ 13 then .string else .stringPtr
  | .float _ => .float
  | .time _ => .time
  | .blob _ => .blob

/-- The bytes of a value in its entry, with the block for what does not fit. -/
def payload (block : Nat) : Property → List UInt8
  | .noValue | .boolean _ => []
  | .integer v => encode (getIntLen v) v.toNat
  | .string v => if v.length ≤ 13 then v else encode 8 block ++ encode 4 v.length
  | .float v => encode 8 v.toNat
  | .time v => encode 8 v.timeVal.toNat ++ [v.timeZone]
  | .blob v => encode 8 block ++ encode 4 v.length

/-- Memory with the block of a value. -/
def storeBlock (value : Property) (block : Nat) (mem : Memory) : Memory :=
  match value.external with
  | none => mem
  | some bytes => store mem block bytes

theorem isProperty_entryType (value : Property) : value.entryType.IsProperty := by
  cases value with
  | boolean v => cases v <;> decide
  | string v =>
      rw [entryType]
      split_ifs <;> decide
  | noValue | integer v | float v | time v | blob v => simp [entryType, EntryType.IsProperty, EntryType.code]

@[simp]
theorem length_payload (value : Property) (block : Nat) :
    (value.payload block).length = getSpace value := by
  cases value with
  | string v =>
      rw [payload, getSpace]
      split_ifs
      · rfl
      · rw [List.length_append, length_encode, length_encode]
        rfl
  | time v => rw [payload, List.length_append, length_encode, List.length_singleton, getSpace]
  | blob v =>
      rw [payload, List.length_append, length_encode, length_encode]
      rfl
  | noValue | boolean v => rfl
  | integer v | float v => rw [payload, length_encode, getSpace]

end Property

/-- A property in a list, with the block for the bytes that its entry has no room for. -/
structure PropertyEntry where
  id : BitVec 16
  value : Property
  block : Nat
  short : ∀ bytes ∈ value.external, bytes.length < 2 ^ 32
  block_lt : block < 2 ^ 64

namespace PropertyEntry

variable (entry : PropertyEntry)

def size : Nat :=
  getSpace entry.value + 3

/-- The type and the size of an entry. -/
def typeByte : UInt8 :=
  typeSizeByte entry.size entry.value.entryType
where
  typeSizeByte := PropertyRef.typeSizeByte

def bytes : List UInt8 :=
  entry.typeByte :: (encode 2 entry.id.toNat ++ entry.value.payload entry.block)

def region : Option Region :=
  entry.value.external.map fun bytes => ⟨entry.block, bytes.length⟩

/-- The block has what the entry has no room for. -/
def BlockHeld (mem : Memory) : Prop :=
  ∀ bytes ∈ entry.value.external, load mem entry.block bytes.length = bytes

theorem three_le_size : 3 ≤ entry.size :=
  Nat.le_add_left _ _

theorem size_le : entry.size ≤ 16 :=
  Nat.add_le_add_right (getSpace_le entry.value) 3

@[simp]
theorem length_bytes : entry.bytes.length = entry.size := by
  rw [bytes, List.length_cons, List.length_append, length_encode, Property.length_payload, size]
  omega

end PropertyEntry

/-- What a chunk has between its first byte and its end; an unused slot has up to 16 bytes. -/
inductive Slot
  | unused (last : Fin 16)
  | used (entry : PropertyEntry)

namespace Slot

def size : Slot → Nat
  | unused last => last + 1
  | used entry => entry.size

def HeldAt (mem : Memory) (place : Nat) : Slot → Prop
  | unused last => mem place = PropertyRef.typeSizeByte (last + 1) .unused
  | used entry => load mem place entry.size = entry.bytes

def IsUnused : Slot → Prop
  | unused _ => True
  | used _ => False

instance : DecidablePred IsUnused
  | unused _ => isTrue trivial
  | used _ => isFalse id

def toEntry : Slot → Option PropertyEntry
  | unused _ => none
  | used entry => some entry

theorem size_pos (slot : Slot) : 0 < slot.size := by
  cases slot with
  | unused last => exact Nat.succ_pos last
  | used entry => exact Nat.lt_of_lt_of_le (by decide) entry.three_le_size

theorem size_le (slot : Slot) : slot.size ≤ 16 := by
  cases slot with
  | unused last => exact last.isLt
  | used entry => exact entry.size_le

end Slot

/-- Slots as records. -/
def slotLayout : Layout Slot where
  size := Slot.size
  HeldAt := Slot.HeldAt
  size_pos := Slot.size_pos
  congr := by
    intro memory other place slot same held
    cases slot with
    | unused last => exact (same 0 (Nat.succ_pos _)).trans held
    | used entry => exact (load_congr same).trans held

@[simp]
theorem slotLayout_size (slot : Slot) : slotLayout.size slot = slot.size :=
  rfl

/-- The entries of a run of slots. -/
def entriesOf (slots : List Slot) : List PropertyEntry :=
  slots.filterMap Slot.toEntry

@[simp]
theorem entriesOf_append (first second : List Slot) :
    entriesOf (first ++ second) = entriesOf first ++ entriesOf second :=
  List.filterMap_append

@[simp]
theorem entriesOf_used (entry : PropertyEntry) (slots : List Slot) :
    entriesOf (.used entry :: slots) = entry :: entriesOf slots :=
  rfl

theorem entriesOf_eq_nil {slots : List Slot} (unused : ∀ slot ∈ slots, slot.IsUnused) :
    entriesOf slots = [] := by
  induction slots with
  | nil => rfl
  | cons slot slots ih =>
      cases slot with
      | unused last => exact ih fun slot member => unused slot (List.mem_cons_of_mem _ member)
      | used entry => exact (unused _ List.mem_cons_self).elim

/-! ## Places in a chunk -/

/-- How a chunk of a given size ends behind its last slot: with the end of the list or with a link
to the next chunk. -/
def EndsAt (mem : Memory) (chunk size stop : Nat) : Option Nat → Prop
  | none => stop ≤ size ∧ (stop < size → mem (chunk + stop) = UInt8.ofNat EntryType.done.code)
  | some next =>
      stop + 9 = size ∧ mem (chunk + stop) = UInt8.ofNat EntryType.link.code ∧
        loadNat mem (chunk + stop + 1) 8 = next ∧ 8 ≤ next

/-- From a place on, a chunk has these slots, and then its end. -/
structure RestAt (mem : Memory) (ref : PropertyRef) (size : Nat) (slots : List Slot)
    (next : Option Nat) : Prop where
  inside : 1 ≤ ref.offset
  header : ref.chunkSize mem = size
  laid : slotLayout.Laid mem ref.address slots
  ends : EndsAt mem ref.chunk size (ref.offset + slotLayout.total slots) next

namespace PropertyRef

variable {mem : Memory} {ref : PropertyRef} {size : Nat} {slot : Slot} {slots : List Slot}
  {next : Option Nat} {entry : PropertyEntry} {last : Fin 16}

@[simp]
theorem address_advance (count : Nat) : (ref.advance count).address = ref.address + count :=
  (Nat.add_assoc ref.chunk ref.offset count).symm

@[simp]
theorem offset_advance (count : Nat) : (ref.advance count).offset = ref.offset + count :=
  rfl

@[simp]
theorem chunk_advance (count : Nat) : (ref.advance count).chunk = ref.chunk :=
  rfl

theorem advance_advance (first second : Nat) :
    (ref.advance first).advance second = ref.advance (first + second) := by
  simp [advance, Nat.add_assoc]

/-- A byte that starts an entry. -/
theorem ptype_done (isDone : mem ref.address = UInt8.ofNat EntryType.done.code) :
    ref.ptype mem = some .done :=
  @ptype_eq _ _ 1 _ (by decide) isDone

theorem ptype_link (isLink : mem ref.address = UInt8.ofNat EntryType.link.code) :
    ref.ptype mem = some .link :=
  @ptype_eq _ _ 1 _ (by decide) isLink

end PropertyRef

namespace EndsAt

variable {mem : Memory} {chunk size stop : Nat} {next : Option Nat}

theorem stop_le (ends : EndsAt mem chunk size stop next) : stop ≤ size := by
  cases next with
  | none => exact ends.1
  | some next => exact Nat.le_of_add_right_le ends.1.le

/-- The end depends on the bytes from there on. -/
theorem congr {other : Memory} (ends : EndsAt mem chunk size stop next)
    (same : ∀ offset, stop ≤ offset → offset < size → other (chunk + offset) = mem (chunk + offset)) :
    EndsAt other chunk size stop next := by
  cases next with
  | none => exact ⟨ends.1, fun before => (same stop le_rfl before).trans (ends.2 before)⟩
  | some next =>
      obtain ⟨fits, isLink, points, isAddress⟩ := ends
      have sameLink : loadNat other (chunk + stop + 1) 8 = loadNat mem (chunk + stop + 1) 8 := by
        apply congrArg decode
        apply load_congr
        intro offset inside
        rw [Nat.add_assoc, Nat.add_assoc]
        exact same (stop + (1 + offset)) (by omega) (by omega)
      exact ⟨fits, (same stop le_rfl (by omega)).trans isLink, sameLink.trans points, isAddress⟩

end EndsAt

namespace RestAt

variable {mem : Memory} {ref : PropertyRef} {size : Nat} {slot : Slot} {slots back : List Slot}
  {next : Option Nat} {entry : PropertyEntry} {last : Fin 16}

theorem stop_le (rest : RestAt mem ref size slots next) :
    ref.offset + slotLayout.total slots ≤ size :=
  rest.ends.stop_le

/-- A place further on. -/
theorem advance (rest : RestAt mem ref size (slots ++ back) next) :
    RestAt mem (ref.advance (slotLayout.total slots)) size back next where
  inside := Nat.le_add_right_of_le rest.inside
  header := rest.header
  laid := by
    rw [PropertyRef.address_advance]
    exact (Layout.laid_append.mp rest.laid).2
  ends := by
    have ends := rest.ends
    rwa [Layout.total_append, ← Nat.add_assoc] at ends

theorem tail (rest : RestAt mem ref size (slot :: slots) next) :
    RestAt mem (ref.advance slot.size) size slots next :=
  @advance _ _ _ [slot] _ _ rest

theorem held (rest : RestAt mem ref size (slot :: slots) next) : slot.HeldAt mem ref.address :=
  rest.laid.1

theorem offset_lt (rest : RestAt mem ref size (slot :: slots) next) : ref.offset < size := by
  have stop := rest.stop_le
  have positive := slot.size_pos
  rw [Layout.total_cons, slotLayout_size] at stop
  omega

end RestAt

/-! ## Reading a slot -/

namespace PropertyRef

variable {mem : Memory} {ref : PropertyRef} {entry : PropertyEntry} {last : Fin 16}

theorem ptype_unused (held : (Slot.unused last).HeldAt mem ref.address) :
    ref.ptype mem = some .unused :=
  ptype_eq last.isLt held

theorem size_unused (held : (Slot.unused last).HeldAt mem ref.address) : ref.size mem = last :=
  size_eq last.isLt held

theorem bytes_used (held : (Slot.used entry).HeldAt mem ref.address) (offset : Nat)
    (inside : offset < entry.size) :
    mem (ref.address + offset) = entry.bytes.get ⟨offset, by rwa [entry.length_bytes]⟩ := by
  have isByte := congrArg (fun bytes => bytes[offset]?) held
  simpa [load, inside] using isByte

theorem typeSize_used (held : (Slot.used entry).HeldAt mem ref.address) :
    ref.typeSize mem = typeSizeByte entry.size entry.value.entryType :=
  bytes_used held 0 (Nat.lt_of_lt_of_le (by decide) entry.three_le_size)

theorem ptype_used (held : (Slot.used entry).HeldAt mem ref.address) :
    ref.ptype mem = some entry.value.entryType :=
  ptype_eq entry.size_le (typeSize_used held)

theorem ptype_ne_unused (held : (Slot.used entry).HeldAt mem ref.address) :
    ref.ptype mem ≠ some .unused := by
  have isProperty := entry.value.isProperty_entryType
  rw [ptype_used held]
  intro isUnused
  rw [Option.some.inj isUnused] at isProperty
  exact absurd isProperty (by decide)

theorem size_used (held : (Slot.used entry).HeldAt mem ref.address) :
    ref.size mem = entry.size - 1 :=
  size_eq entry.size_le (typeSize_used held)

theorem size_add_one {slot : Slot} (held : slot.HeldAt mem ref.address) :
    ref.size mem + 1 = slot.size := by
  cases slot with
  | unused last => rw [size_unused held, Slot.size]
  | used entry =>
      have enough := entry.three_le_size
      rw [size_used held, Slot.size, Nat.sub_add_cancel (by omega)]

theorem skip_eq {slot : Slot} (held : slot.HeldAt mem ref.address) :
    ref.skip mem = ref.advance slot.size := by
  rw [skip, size_add_one held]

theorem load_used (held : (Slot.used entry).HeldAt mem ref.address) :
    load mem (ref.address + 1) 2 = encode 2 entry.id.toNat ∧
      load mem ref.val (getSpace entry.value) = entry.value.payload entry.block := by
  have whole : load mem ref.address (1 + 2 + getSpace entry.value) = entry.bytes := by
    rw [Nat.add_comm]
    exact held
  rw [load_add, load_add, PropertyEntry.bytes] at whole
  rw [← List.cons_append] at whole
  obtain ⟨front, isPayload⟩ := List.append_inj whole (by simp)
  exact ⟨(List.cons.inj front).2, isPayload⟩

theorem hasId_used (held : (Slot.used entry).HeldAt mem ref.address) : ref.HasId mem := by
  have enough := entry.three_le_size
  refine ⟨⟨_, ptype_used held, entry.value.isProperty_entryType⟩, ?_⟩
  rw [size_used held]
  omega

theorem getId_used (held : (Slot.used entry).HeldAt mem ref.address) :
    ref.getId mem = some entry.id := by
  have bound := entry.id.isLt
  rw [getId, if_pos (hasId_used held), loadNat, (load_used held).1, decode_encode,
    Nat.mod_eq_of_lt (by omega), BitVec.ofNat_toNat, BitVec.setWidth_eq]

/-- The block of an entry. -/
theorem blob_used (held : (Slot.used entry).HeldAt mem ref.address) :
    entry.region =
      if ref.ptype mem = some .stringPtr ∨ ref.ptype mem = some .blob then
        some ⟨loadNat mem ref.val 8, loadNat mem (ref.val + 8) 4⟩
      else none := by
  have isPayload := (load_used held).2
  have small := entry.block_lt
  have external {bytes : List UInt8} (isExternal : bytes ∈ entry.value.external)
      (isBlob : entry.value.payload entry.block =
        encode 8 entry.block ++ encode 4 bytes.length) (isSpace : getSpace entry.value = 12) :
      entry.region = some ⟨loadNat mem ref.val 8, loadNat mem (ref.val + 8) 4⟩ := by
    have short := entry.short bytes isExternal
    rw [isBlob, isSpace, load_add mem ref.val 8 4] at isPayload
    obtain ⟨isStart, isLength⟩ := List.append_inj isPayload (by simp)
    rw [loadNat, loadNat, isStart, isLength, decode_encode, decode_encode,
      Nat.mod_eq_of_lt (by omega), Nat.mod_eq_of_lt (by omega), PropertyEntry.region,
      Option.mem_def.mp isExternal]
    rfl
  rw [ptype_used held]
  obtain ⟨id, value, block, short, blockLt⟩ := entry
  cases value with
  | string v =>
      by_cases inside : v.length ≤ 13
      · simp [Property.entryType, PropertyEntry.region, Property.external, inside]
      · have isType : (Property.string v).entryType = .stringPtr := if_neg inside
        rw [isType, if_pos (.inl rfl)]
        exact external (if_neg inside) (if_neg inside) (if_neg inside)
  | blob v =>
      have isType : (Property.blob v).entryType = .blob := rfl
      rw [isType, if_pos (.inr rfl)]
      exact external rfl rfl rfl
  | boolean v => cases v <;> rfl
  | noValue | integer v | float v | time v => rfl

/-- What `writeValue` stores. -/
theorem writeValue_eq {value : Property} (short : ∀ bytes ∈ value.external, bytes.length < 2 ^ 32)
    (ref : PropertyRef) (mem : Memory) (block : Nat) :
    ref.writeValue (fun mem _ => some (block, mem)) mem (getSpace value + 3) value =
      some (store (value.storeBlock block mem) ref.val (value.payload block), value.entryType) := by
  have withBlob_eq (bytes : List UInt8) : ref.withBlob mem block bytes =
      store (store mem block bytes) ref.val (encode 8 block ++ encode 4 bytes.length) := by
    rw [withBlob, store_append, length_encode]
  cases value with
  | noValue => rw [Property.payload, store_nil]; rfl
  | boolean v => rw [Property.payload, store_nil]; rfl
  | integer v => exact if_pos rfl
  | string v =>
      by_cases inside : v.length ≤ 13
      · have noBlock : (Property.string v).external = none := if_pos inside
        simp only [writeValue, Property.payload, Property.storeBlock, Property.entryType,
          if_pos inside, noBlock]
      · have hasBlock : (Property.string v).external = some v := if_neg inside
        simp only [writeValue, Property.payload, Property.storeBlock, Property.entryType,
          if_neg inside, hasBlock]
        rw [setBlob_eq (short v hasBlock) rfl, withBlob_eq, Option.map_some]
  | float v => rfl
  | time v => rfl
  | blob v =>
      rw [writeValue, setBlob_eq (short v rfl) rfl, withBlob_eq, Option.map_some]
      rfl

theorem getValue_used (held : (Slot.used entry).HeldAt mem ref.address)
    (blockHeld : entry.BlockHeld mem)
    (apart : ∀ region ∈ entry.region, region.start + region.length ≤ ref.address ∨
      ref.address + entry.size ≤ region.start) : ref.getValue mem = some entry.value := by
  have served : ∀ bytes ∈ entry.value.external, PropertySpace.Served ⟨entry.size, entry.size, ref⟩
      (fun mem _ => some (entry.block, mem)) bytes := by
    intro bytes isExternal other
    have hasRegion : (⟨entry.block, bytes.length⟩ : Region) ∈ entry.region := by
      rw [PropertyEntry.region, Option.mem_def.mp isExternal]
      rfl
    exact ⟨entry.block, other, rfl, entry.block_lt, apart _ hasRegion⟩
  obtain ⟨written, type, isWritten, -, reads⟩ := writeValue_spec rfl entry.short served mem
  have sameBlock : entry.value.storeBlock entry.block mem = mem := by
    rw [Property.storeBlock]
    cases isExternal : entry.value.external with
    | none => rfl
    | some bytes =>
        dsimp only
        rw [← congrArg (store mem entry.block) (blockHeld bytes isExternal), store_load_self]
  have samePayload : store mem ref.val (entry.value.payload entry.block) = mem := by
    rw [← (load_used held).2, store_load_self]
  rw [PropertyEntry.size, writeValue_eq entry.short, sameBlock, samePayload] at isWritten
  obtain ⟨rfl, rfl⟩ := Prod.mk.inj (Option.some.inj isWritten)
  exact reads mem ⟨ptype_used held, size_used held, fun _ _ => rfl⟩

end PropertyRef

namespace RestAt

variable {mem : Memory} {ref : PropertyRef} {size : Nat} {slot : Slot} {slots : List Slot}
  {next : Option Nat} {entry : PropertyEntry} {last : Fin 16}

theorem chunkEnd (rest : RestAt mem ref size slots next) : ref.chunkEnd mem + 1 = size :=
  rest.header

theorem skip_eq (rest : RestAt mem ref size (slot :: slots) next) :
    ref.skip mem = ref.advance slot.size :=
  PropertyRef.skip_eq rest.held

theorem skip (rest : RestAt mem ref size (slot :: slots) next) :
    RestAt mem (ref.skip mem) size slots next :=
  rest.skip_eq ▸ rest.tail

theorem notDone_cons (rest : RestAt mem ref size (slot :: slots) next) : ref.NotDone mem := by
  have inside := rest.offset_lt
  have isSize := rest.chunkEnd
  constructor
  · omega
  · cases slot with
    | unused last =>
        rw [PropertyRef.ptype_unused rest.held]
        nofun
    | used entry =>
        rw [PropertyRef.ptype_used rest.held]
        intro isDone
        have isProperty := entry.value.isProperty_entryType
        rw [Option.some.inj isDone] at isProperty
        exact absurd isProperty (by decide)

/-- The link at the end of a chunk. -/
theorem link_eq {target : Nat} (rest : RestAt mem ref size [] (some target)) :
    ref.NotDone mem ∧ ref.ptype mem = some .link ∧
      ∃ isAddress, ref.followLink mem = some ⟨target, 1, isAddress⟩ := by
  obtain ⟨fits, isLink, points, isAddress⟩ := rest.ends
  have isSize := rest.chunkEnd
  rw [Layout.total_nil, Nat.add_zero] at fits isLink points
  have isType := PropertyRef.ptype_link isLink
  refine ⟨⟨by omega, by rw [isType]; nofun⟩, isType, isAddress, ?_⟩
  rw [PropertyRef.followLink, PropertyRef.link, if_pos ⟨isType, by omega⟩, Option.bind_some,
    PropertyRef.first]
  have isTarget : loadNat mem (ref.address + 1) 8 = target := points
  simp only [isTarget, dif_pos isAddress]

/-- The end of the list. -/
theorem done (rest : RestAt mem ref size [] none) : ¬ ref.NotDone mem := by
  intro notDone
  have isSize := rest.chunkEnd
  obtain ⟨fits, isDone⟩ := rest.ends
  rw [Layout.total_nil, Nat.add_zero] at fits isDone
  have inside := notDone.1
  exact notDone.2 (PropertyRef.ptype_done (isDone (by omega)))

end RestAt

end Pmgd
