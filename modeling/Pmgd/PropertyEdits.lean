import Pmgd.PropertyWalk

/-!
# Edits of a chunk

What the code writes from a place on: the type byte of a removed property, the bytes of a new one
with what is left of the space, the link to a new chunk, and the copies of the entries that were in
its way.  Each edit turns the slots from there on into other slots.
-/

namespace Pmgd

open ByteMemory RecordRun

/-! ## Free space -/

/-- Space for a property: whole unused slots with something behind them, or all the rest of the
last chunk. -/
inductive SpaceAt (count size offset : Nat) : List Slot → Option Nat → Prop
  | rest {slots : List Slot} (unused : ∀ slot ∈ slots, slot.IsUnused)
      (isRest : offset + count = size) : SpaceAt count size offset slots none
  | run {front back : List Slot} {next : Option Nat} (unused : ∀ slot ∈ front, slot.IsUnused)
      (isTotal : slotLayout.total front = count) (inside : offset + count < size) :
      SpaceAt count size offset (front ++ back) next

section FreeSpace

variable {mem : Memory} {ref : PropertyRef} {size rounds count : Nat} {slots front back : List Slot}
  {next : Option Nat}

/-- `free_space` stops at the first property or link, and otherwise takes the rest of the chunk. -/
theorem freeEnd_append (rest : RestAt mem ref size (front ++ back) next)
    (unused : ∀ slot ∈ front, slot.IsUnused) :
    PropertyRef.freeEnd mem (rounds + front.length) ref =
      PropertyRef.freeEnd mem rounds (ref.advance (slotLayout.total front)) := by
  induction front generalizing ref with
  | nil => rfl
  | cons slot front ih =>
      have isUnused := unused slot List.mem_cons_self
      rw [List.length_cons, ← Nat.add_assoc, PropertyRef.freeEnd, if_pos rest.notDone_cons]
      cases slot with
      | unused last =>
          rw [if_neg (not_not.mpr (PropertyRef.ptype_unused rest.held)), rest.skip_eq,
            ih rest.tail fun slot member => unused slot (List.mem_cons_of_mem _ member),
            PropertyRef.advance_advance, Layout.total_cons, slotLayout_size]
      | used entry => exact isUnused.elim

/-- Behind the unused slots. -/
theorem freeEnd_stop (rest : RestAt mem ref size slots next)
    (stops : ∀ slot ∈ slots.head?, ¬ slot.IsUnused) :
    PropertyRef.freeEnd mem (rounds + 1) ref =
      if slots = [] ∧ next = none then size else ref.offset := by
  rw [PropertyRef.freeEnd]
  cases slots with
  | nil =>
      cases next with
      | none =>
          rw [if_neg rest.done, if_pos ⟨rfl, rfl⟩]
          exact rest.header
      | some target =>
          obtain ⟨notDone, isLink, -⟩ := rest.link_eq
          rw [if_pos notDone, isLink, if_pos (by decide),
            if_neg fun both => Option.some_ne_none _ both.2]
  | cons slot slots =>
      have isUsed := stops slot rfl
      cases slot with
      | unused last => exact (isUsed trivial).elim
      | used entry =>
          rw [if_pos rest.notDone_cons, if_pos (PropertyRef.ptype_ne_unused rest.held),
            if_neg fun both => List.cons_ne_nil _ _ both.1]

/-- The unused slots in front, and what stops them. -/
theorem exists_unused_front (slots : List Slot) :
    ∃ front back, slots = front ++ back ∧ (∀ slot ∈ front, slot.IsUnused) ∧
      ∀ slot ∈ back.head?, ¬ slot.IsUnused := by
  induction slots with
  | nil => exact ⟨[], [], rfl, by nofun, by nofun⟩
  | cons slot slots ih =>
      by_cases isUnused : slot.IsUnused
      · obtain ⟨front, back, rfl, unused, stops⟩ := ih
        refine ⟨slot :: front, back, rfl, ?_, stops⟩
        rintro other (_ | ⟨_, member⟩)
        · exact isUnused
        · exact unused other member
      · refine ⟨[], slot :: slots, rfl, by nofun, ?_⟩
        rintro other ⟨⟩
        exact isUnused

theorem freeSpace_eq (rest : RestAt mem ref size (front ++ back) next)
    (unused : ∀ slot ∈ front, slot.IsUnused) (stops : ∀ slot ∈ back.head?, ¬ slot.IsUnused) :
    ref.freeSpace mem =
      if back = [] ∧ next = none then size - ref.offset else slotLayout.total front := by
  have few := @Layout.length_le_total _ slotLayout front
  have stop := rest.stop_le
  have inside := rest.inside
  rw [Layout.total_append] at stop
  obtain ⟨rounds, isRounds⟩ : ∃ rounds, size = rounds + 1 + front.length :=
    ⟨size - 1 - front.length, by omega⟩
  have isSize := rest.header
  rw [PropertyRef.freeSpace, isSize, isRounds, freeEnd_append rest unused,
    freeEnd_stop rest.advance stops, ← isRounds, PropertyRef.offset_advance]
  split_ifs <;> omega

/-- What `free_space` measures is space. -/
theorem spaceAt_freeSpace (rest : RestAt mem ref size slots next) :
    SpaceAt (ref.freeSpace mem) size ref.offset slots next := by
  obtain ⟨front, back, rfl, unused, stops⟩ := exists_unused_front slots
  have stop := rest.stop_le
  have behind := rest.advance.ends
  rw [Layout.total_append] at stop
  rw [freeSpace_eq rest unused stops]
  split_ifs with isLast
  · obtain ⟨rfl, rfl⟩ := isLast
    rw [List.append_nil]
    exact .rest unused (by omega)
  · refine .run unused rfl ?_
    cases back with
    | nil =>
        cases next with
        | none => exact (isLast ⟨rfl, rfl⟩).elim
        | some target =>
            have fits := behind.1
            rw [PropertyRef.offset_advance, Layout.total_nil] at fits
            omega
    | cons slot back =>
        have positive := slot.size_pos
        rw [Layout.total_cons, slotLayout_size] at stop
        omega

theorem SpaceAt.fits {offset : Nat} (space : SpaceAt count size offset slots next) :
    offset + count ≤ size := by
  cases space with
  | rest unused isRest => exact isRest.le
  | run unused isTotal inside => exact inside.le

/-- Space is free space. -/
theorem SpaceAt.le_freeSpace (space : SpaceAt count size ref.offset slots next)
    (rest : RestAt mem ref size slots next) : count ≤ ref.freeSpace mem := by
  obtain ⟨front, back, isSlots, unused, stops⟩ := exists_unused_front slots
  subst isSlots
  have stop := rest.stop_le
  rw [Layout.total_append] at stop
  rw [freeSpace_eq rest unused stops]
  generalize isSlots : front ++ back = slots at space
  cases space with
  | rest allUnused isRest =>
      have isEmpty : back = [] := by
        cases back with
        | nil => rfl
        | cons slot back =>
            exact absurd (allUnused slot (by simp [← isSlots])) (stops slot rfl)
      rw [if_pos ⟨isEmpty, rfl⟩]
      omega
  | @run first second next unusedFirst isTotal inside =>
      split_ifs
      · omega
      · rcases List.append_eq_append_iff.mp isSlots with ⟨more, rfl, rfl⟩ | ⟨more, rfl, rfl⟩
        · cases more with
          | nil => simp [← isTotal]
          | cons slot more =>
              exact absurd (unusedFirst slot (by simp)) (stops slot rfl)
        · rw [Layout.total_append]
          omega

end FreeSpace

/-! ## Removing a property -/

/-- What remains of a slot whose property is removed, with the slots behind it. -/
def freedSlots (entry : PropertyEntry) (back : List Slot) (next : Option Nat) : List Slot :=
  if back = [] ∧ next = none then []
  else .unused ⟨entry.size - 1, Nat.lt_of_le_of_lt (Nat.sub_le_sub_right entry.size_le 1)
    (by decide)⟩ :: back

@[simp]
theorem entriesOf_freedSlots (entry : PropertyEntry) (back : List Slot) (next : Option Nat) :
    entriesOf (freedSlots entry back next) = entriesOf back := by
  rw [freedSlots]
  split_ifs with isLast
  · rw [isLast.1]
  · rfl

section Removal

variable {mem : Memory} {ref : PropertyRef} {size : Nat} {back : List Slot} {next : Option Nat}
  {entry : PropertyEntry}

theorem notDone_iff {slots : List Slot} (rest : RestAt mem ref size slots next) :
    ref.NotDone mem ↔ ¬ (slots = [] ∧ next = none) := by
  cases slots with
  | nil =>
      cases next with
      | none => exact iff_of_false rest.done (not_not.mpr ⟨rfl, rfl⟩)
      | some target => exact iff_of_true rest.link_eq.1 (by nofun)
  | cons slot slots => exact iff_of_true rest.notDone_cons (by nofun)

/-- The byte that `free` writes. -/
def freedByte (entry : PropertyEntry) (back : List Slot) (next : Option Nat) : UInt8 :=
  if back = [] ∧ next = none then UInt8.ofNat EntryType.done.code
  else PropertyRef.typeSizeByte entry.size .unused

theorem RestAt.free (rest : RestAt mem ref size (.used entry :: back) next) :
    RestAt (store mem ref.address [freedByte entry back next]) ref size
      (freedSlots entry back next) next := by
  have enough := entry.three_le_size
  have stop := rest.stop_le
  have inside := rest.inside
  have isAddress : ref.address = ref.chunk + ref.offset := rfl
  rw [Layout.total_cons, slotLayout_size, Slot.size] at stop
  have isByte : store mem ref.address [freedByte entry back next] ref.address =
      freedByte entry back next := @store_inside mem ref.address [_] 0 (by simp)
  have header : ref.chunkSize (store mem ref.address [freedByte entry back next]) = size := by
    rw [← rest.header, PropertyRef.chunkSize, PropertyRef.chunkEnd, store_outside (by omega)]
    rfl
  rw [freedSlots]
  split_ifs with isLast
  · obtain ⟨rfl, rfl⟩ := isLast
    refine ⟨inside, header, trivial, by rw [Layout.total_nil]; omega, fun _ => ?_⟩
    rw [Layout.total_nil, Nat.add_zero, ← isAddress, isByte]
    rfl
  · have isFreed : freedByte entry back next = PropertyRef.typeSizeByte entry.size .unused :=
      if_neg isLast
    rw [isFreed] at isByte header ⊢
    have sameSize : entry.size - 1 + 1 = entry.size := by omega
    have ends : EndsAt mem ref.chunk size (ref.offset + entry.size + slotLayout.total back) next :=
      rest.tail.ends
    refine ⟨inside, header, ⟨?_, ?_⟩, ?_⟩
    · exact isByte.trans (congrArg (PropertyRef.typeSizeByte · .unused) sameSize.symm)
    · rw [slotLayout_size, Slot.size, sameSize]
      apply Layout.Laid.store (rest.laid.2)
      rw [slotLayout_size, Slot.size, List.length_singleton]
      omega
    · rw [Layout.total_cons, slotLayout_size, Slot.size, sameSize, ← Nat.add_assoc]
      apply ends.congr
      intro offset behind within
      apply store_outside
      rw [List.length_singleton]
      omega

end Removal

/-! ## Writing a property -/

section Unused

variable {mem : Memory} {ref : PropertyRef} {size place : Nat} {byte : UInt8}
  {front back : List Slot} {slot : Slot}

/-- A store inside of an unused slot spares a run. -/
theorem laid_store_inside (laid : slotLayout.Laid mem place (front ++ slot :: back))
    (isUnused : slot.IsUnused) {count : Nat} (before : slotLayout.total front < count)
    (within : count < slotLayout.total front + slot.size) :
    slotLayout.Laid (store mem (place + count) [byte]) place (front ++ slot :: back) := by
  obtain ⟨frontLaid, held, backLaid⟩ := Layout.laid_append.mp laid
  apply Layout.laid_append.mpr
  refine ⟨frontLaid.store (by omega), ?_, backLaid.store ?_⟩
  · cases slot with
    | unused last => exact (store_outside (by omega)).trans held
    | used entry => exact isUnused.elim
  · rw [slotLayout_size, List.length_singleton]
    omega

/-- The loop of `set_size` ends behind the slot that the new size falls into. -/
theorem unusedSize_eq (laid : slotLayout.Laid mem ref.address (front ++ slot :: back))
    {newSize rounds passed : Nat} (before : passed + slotLayout.total front < newSize)
    (within : newSize ≤ passed + slotLayout.total front + slot.size)
    (enough : front.length < rounds) :
    PropertyRef.unusedSize mem newSize rounds ref passed =
      passed + slotLayout.total front + slot.size := by
  obtain ⟨rounds, rfl⟩ := Nat.exists_eq_add_of_le' (Nat.lt_of_le_of_lt (Nat.zero_le _) enough)
  induction front generalizing ref passed rounds with
  | nil =>
      simp only [Layout.total_nil, Nat.add_zero] at within ⊢
      rw [PropertyRef.unusedSize, PropertyRef.size_add_one laid.1, if_neg (by omega)]
  | cons head front ih =>
      rw [Layout.total_cons, slotLayout_size] at before within ⊢
      rw [List.length_cons] at enough
      obtain ⟨rounds, rfl⟩ : ∃ left, rounds = left + 1 := ⟨rounds - 1, by omega⟩
      have laidTail : slotLayout.Laid mem (ref.advance head.size).address
          (front ++ slot :: back) := by
        rw [PropertyRef.address_advance]
        exact laid.2
      rw [PropertyRef.unusedSize, PropertyRef.size_add_one laid.1, if_pos (by omega), PropertyRef.skip_eq laid.1,
        ih laidTail (by omega) (by omega) rounds (by omega)]
      omega

end Unused

/-- After `set_size` the space in front of the new size may be overwritten, and may also stay as
it is. -/
structure Sized (mem sized : Memory) (ref : PropertyRef) (size count : Nat) (slots : List Slot)
    (next : Option Nat) : Prop where
  same : ∀ place, place ≠ ref.address + count → sized place = mem place
  behind : ∃ leftover, entriesOf leftover = entriesOf slots ∧
    RestAt sized (ref.advance count) size leftover next
  whole : ∃ others, entriesOf others = entriesOf slots ∧ RestAt sized ref size others next

section Sizes

variable {mem : Memory} {ref : PropertyRef} {size count newSize : Nat} {slots : List Slot}
  {next : Option Nat}

theorem RestAt.header_store (rest : RestAt mem ref size slots next) {place : Nat}
    {bytes : List UInt8} (behind : ref.address ≤ place) :
    ref.chunkSize (store mem place bytes) = size := by
  have inside := rest.inside
  rw [PropertyRef.address] at behind
  rw [← rest.header, PropertyRef.chunkSize, PropertyRef.chunkEnd, store_outside (by omega)]
  rfl

/-- The rest of the last chunk. -/
theorem sized_rest (rest : RestAt mem ref size slots none)
    (unused : ∀ slot ∈ slots, slot.IsUnused) (positive : 0 < count)
    (inside : ref.offset + count < size) :
    Sized mem (store mem (ref.address + count) [UInt8.ofNat EntryType.done.code]) ref size count
      slots none := by
  have low := rest.inside
  have noEntries := entriesOf_eq_nil unused
  have isAddress : ref.address = ref.chunk + ref.offset := rfl
  have header := @RestAt.header_store _ _ _ _ _ rest (ref.address + count)
    [UInt8.ofNat EntryType.done.code] (Nat.le_add_right _ _)
  have isDone : store mem (ref.address + count) [UInt8.ofNat EntryType.done.code]
      (ref.address + count) = UInt8.ofNat EntryType.done.code :=
    @store_inside mem (ref.address + count) [_] 0 (by simp)
  have same (place : Nat) (other : place ≠ ref.address + count) :
      store mem (ref.address + count) [UInt8.ofNat EntryType.done.code] place = mem place :=
    store_outside (by rw [List.length_singleton]; omega)
  refine ⟨same, ⟨[], noEntries.symm, ?_⟩, ?_⟩
  · refine ⟨by rw [PropertyRef.offset_advance]; omega, header, trivial, ?_, fun _ => ?_⟩
    · rw [Layout.total_nil, PropertyRef.offset_advance]
      omega
    · rw [Layout.total_nil, PropertyRef.offset_advance, PropertyRef.chunk_advance, Nat.add_zero,
        ← Nat.add_assoc]
      exact isDone
  · rcases Nat.lt_or_ge (slotLayout.total slots) count with short | enough
    · refine ⟨slots, rfl, low, header, rest.laid.store (by omega), rest.ends.1, fun before => ?_⟩
      rw [same _ (by omega)]
      exact rest.ends.2 before
    · obtain ⟨front, slot, back, rfl, before, within⟩ := Layout.exists_cut positive enough
      have isUnused := unused slot (by simp)
      have stop := rest.stop_le
      rw [Layout.total_append, Layout.total_cons, slotLayout_size] at stop
      rw [slotLayout_size] at within
      rcases Nat.lt_or_ge count (slotLayout.total front + slot.size) with strictly | atEnd
      · refine ⟨_, rfl, low, header, laid_store_inside rest.laid isUnused before strictly,
          rest.ends.1, fun notEnd => ?_⟩
        rw [same _ ?_]
        · exact rest.ends.2 notEnd
        · rw [Layout.total_append, Layout.total_cons, slotLayout_size]
          have positiveBack := Nat.zero_le (slotLayout.total back)
          omega
      · have isTotal : slotLayout.total (front ++ [slot]) = count := by
          rw [Layout.total_append, Layout.total_cons, Layout.total_nil, slotLayout_size]
          omega
        have laid := rest.laid
        rw [List.append_cons] at laid
        refine ⟨front ++ [slot], ?_, low, header, ?_, ?_, fun _ => ?_⟩
        · rw [noEntries]
          exact entriesOf_eq_nil fun other member => unused other (by
            rw [List.append_cons]
            exact List.mem_append_left _ member)
        · apply (Layout.laid_append.mp laid).1.store
          omega
        · rw [isTotal]
          omega
        · rw [isTotal, ← Nat.add_assoc]
          exact isDone

/-- A place with the same memory around. -/
theorem RestAt.behind {front back : List Slot} (rest : RestAt mem ref size (front ++ back) next)
    (isTotal : slotLayout.total front = count) : RestAt mem (ref.advance count) size back next :=
  isTotal ▸ rest.advance

theorem entriesOf_drop {front back : List Slot} (unused : ∀ slot ∈ front, slot.IsUnused) :
    entriesOf (front ++ back) = entriesOf back := by
  rw [entriesOf_append, entriesOf_eq_nil unused, List.nil_append]

/-- Unused slots with something behind them: the slot that the new size falls into is split. -/
theorem sized_run {run back : List Slot} (rest : RestAt mem ref size (run ++ back) next)
    (unused : ∀ slot ∈ run, slot.IsUnused) (positive : 0 < newSize)
    (enough : newSize < slotLayout.total run) :
    ∃ sized, (let unused := PropertyRef.unusedSize mem newSize newSize ref 0
        if newSize < unused then
          some ((ref.advance newSize).setTypeSize mem
            (PropertyRef.typeSizeByte (unused - newSize) .unused))
        else some mem) = some sized ∧
      Sized mem sized ref size newSize (run ++ back) next := by
  obtain ⟨front, slot, others, rfl, before, within⟩ := Layout.exists_cut positive enough.le
  rw [slotLayout_size] at within
  have few := @Layout.length_le_total _ slotLayout front
  have isUnused := unused slot (by simp)
  have stop := rest.stop_le
  rw [List.append_assoc, List.cons_append] at rest
  have isSize := @unusedSize_eq _ _ _ _ _ rest.laid newSize newSize 0
    (by omega) (by omega) (by omega)
  rw [Nat.zero_add] at isSize
  have noEntries : entriesOf (front ++ slot :: others ++ back) = entriesOf (others ++ back) := by
    rw [List.append_cons, List.append_assoc]
    apply entriesOf_drop
    intro other member
    apply unused
    rw [List.append_cons]
    exact List.mem_append_left _ member
  have isTotal : slotLayout.total (front ++ [slot]) = slotLayout.total front + slot.size := by
    rw [Layout.total_append, Layout.total_cons, Layout.total_nil, slotLayout_size, Nat.add_zero]
  have behind : RestAt mem (ref.advance (slotLayout.total front + slot.size)) size
      (others ++ back) next := by
    rw [List.append_cons] at rest
    exact rest.behind isTotal
  simp only [isSize]
  split_ifs with strictly
  · have small := slot.size_le
    have low := rest.inside
    have stop := behind.stop_le
    rw [PropertyRef.offset_advance] at stop
    have isByte : store mem (ref.address + newSize) [PropertyRef.typeSizeByte
        (slotLayout.total front + slot.size - newSize) .unused] (ref.address + newSize) =
        PropertyRef.typeSizeByte (slotLayout.total front + slot.size - newSize) .unused :=
      @store_inside mem (ref.address + newSize) [_] 0 (by simp)
    have same (place : Nat) (other : place ≠ ref.address + newSize) :
        store mem (ref.address + newSize) [PropertyRef.typeSizeByte
          (slotLayout.total front + slot.size - newSize) .unused] place = mem place :=
      store_outside (by rw [List.length_singleton]; omega)
    have header := @RestAt.header_store _ _ _ _ _ rest (ref.address + newSize)
      [PropertyRef.typeSizeByte (slotLayout.total front + slot.size - newSize) .unused]
      (Nat.le_add_right _ _)
    have isAddress : ref.address = ref.chunk + ref.offset := rfl
    refine ⟨_, rfl, ?_⟩
    rw [PropertyRef.setTypeSize, PropertyRef.address_advance]
    have sameSize : slotLayout.total front + slot.size - newSize - 1 + 1 =
        slotLayout.total front + slot.size - newSize := by omega
    refine ⟨same, ⟨.unused ⟨slotLayout.total front + slot.size - newSize - 1, by omega⟩ ::
      (others ++ back), noEntries.symm, ?_⟩, ⟨_, by rw [← List.cons_append, ← List.append_assoc],
        low, header, laid_store_inside rest.laid isUnused before strictly, ?_⟩⟩
    · refine ⟨Nat.le_add_right_of_le low, header, ⟨?_, ?_⟩, ?_⟩
      · rw [PropertyRef.address_advance]
        exact isByte.trans (congrArg (PropertyRef.typeSizeByte · .unused) sameSize.symm)
      · have laid := behind.laid
        rw [PropertyRef.address_advance] at laid
        rw [PropertyRef.address_advance, slotLayout_size, Slot.size, sameSize, Nat.add_assoc,
          Nat.add_sub_cancel' strictly.le]
        apply laid.store
        rw [List.length_singleton]
        omega
      · have ends := behind.ends
        rw [PropertyRef.offset_advance] at ends ⊢
        rw [Layout.total_cons, slotLayout_size, Slot.size, sameSize, Nat.add_assoc ref.offset,
          ← Nat.add_assoc newSize, Nat.add_sub_cancel' strictly.le, ← Nat.add_assoc]
        apply ends.congr
        intro offset after inside
        apply same
        rw [PropertyRef.chunk_advance]
        omega
    · apply rest.ends.congr
      intro offset after inside
      apply same
      rw [Layout.total_append, Layout.total_cons, slotLayout_size] at after
      omega
  · have exactly : slotLayout.total front + slot.size = newSize := by omega
    rw [exactly] at behind
    exact ⟨mem, rfl, fun _ _ => rfl, ⟨others ++ back, noEntries.symm, behind⟩,
      ⟨_, by rw [← List.cons_append, ← List.append_assoc], rest⟩⟩

/-- `set_size` in space that was found. -/
theorem exists_sized (rest : RestAt mem ref size slots next)
    (space : SpaceAt count size ref.offset slots next) (positive : 0 < newSize)
    (enough : newSize ≤ count) :
    ∃ sized, (if newSize < count then ref.setSize mem count newSize else some mem) = some sized ∧
      Sized mem sized ref size newSize slots next := by
  split_ifs with smaller
  · rw [PropertyRef.setSize, rest.header, PropertyRef.offset_advance]
    cases space with
    | rest unused isRest =>
        rw [if_pos (by omega), if_pos (by omega), PropertyRef.setTypeSize,
          PropertyRef.address_advance]
        exact ⟨_, rfl, sized_rest rest unused positive (by omega)⟩
    | run unused isTotal inside =>
        rw [if_pos (by omega), if_neg (by omega)]
        exact sized_run rest unused positive (isTotal ▸ smaller)
  · obtain rfl : newSize = count := by omega
    refine ⟨mem, rfl, fun _ _ => rfl, ?_, ⟨slots, rfl, rest⟩⟩
    cases space with
    | rest unused isRest =>
        refine ⟨[], (entriesOf_eq_nil unused).symm, ?_, rest.header, trivial, ?_, fun before => ?_⟩
        · exact Nat.le_add_right_of_le rest.inside
        · rw [PropertyRef.offset_advance, Layout.total_nil]
          omega
        · rw [PropertyRef.offset_advance, Layout.total_nil] at before
          omega
    | @run front back next unused isTotal inside =>
        exact ⟨back, (entriesOf_drop unused).symm, rest.behind isTotal⟩

end Sizes

section Values

variable {mem : Memory} {ref : PropertyRef} {size : Nat} {slots : List Slot} {next : Option Nat}
  {entry : PropertyEntry}

/-- Memory with an entry and its block. -/
def writeEntry (mem : Memory) (ref : PropertyRef) (entry : PropertyEntry) : Memory :=
  store (entry.value.storeBlock entry.block mem) ref.address entry.bytes

/-- The value, the type byte and the id, in the order in which they are written. -/
theorem store_entry (mem : Memory) (ref : PropertyRef) (entry : PropertyEntry) :
    store (ref.setTypeSize (store mem ref.val (entry.value.payload entry.block)) entry.typeByte)
        (ref.address + 1) (encode 2 entry.id.toNat) =
      store mem ref.address entry.bytes := by
  have isVal : ref.val = ref.address + 3 := rfl
  have isBytes : entry.bytes =
      [entry.typeByte] ++ (encode 2 entry.id.toNat ++ entry.value.payload entry.block) := rfl
  have typeFirst := @store_comm mem (ref.address + 3) ref.address
    (entry.value.payload entry.block) [entry.typeByte] (.inr (by simp))
  have idFirst := @store_comm (store mem ref.address [entry.typeByte]) (ref.address + 3)
    (ref.address + 1) (entry.value.payload entry.block) (encode 2 entry.id.toNat) (.inr (by simp))
  rw [isBytes, store_append, store_append, List.length_singleton, length_encode, isVal,
    PropertyRef.setTypeSize, typeFirst, idFirst]

/-- `set_value` and `set_id` write an entry. -/
theorem setValue_setId (inside : ref.offset ≤ ref.chunkEnd mem) :
    ∃ valued, ref.setValue (fun mem _ => some (entry.block, mem)) mem entry.value entry.size =
        some valued ∧
      ref.setId valued entry.id = some (writeEntry mem ref entry) := by
  have enough := entry.three_le_size
  rw [PropertyRef.setValue, if_pos inside, PropertyEntry.size,
    PropertyRef.writeValue_eq entry.short]
  refine ⟨_, rfl, ?_⟩
  have isByte : ref.typeSize (ref.setTypeSize (store (entry.value.storeBlock entry.block mem)
      ref.val (entry.value.payload entry.block)) entry.typeByte) = entry.typeByte :=
    @store_inside _ ref.address [_] 0 (by simp)
  have hasId : ref.HasId (ref.setTypeSize (store (entry.value.storeBlock entry.block mem)
      ref.val (entry.value.payload entry.block)) entry.typeByte) := by
    refine ⟨⟨_, PropertyRef.ptype_eq entry.size_le isByte, entry.value.isProperty_entryType⟩, ?_⟩
    rw [PropertyRef.size_eq entry.size_le isByte]
    omega
  rw [PropertyRef.setId]
  exact (if_pos hasId).trans (congrArg some (store_entry _ ref entry))

/-- The bytes of an entry and its block. -/
theorem writeEntry_same {place : Nat}
    (outside : place < ref.address ∨ ref.address + entry.size ≤ place)
    (noBlock : ∀ region ∈ entry.region,
      place < region.start ∨ region.start + region.length ≤ place) :
    writeEntry mem ref entry place = mem place := by
  rw [writeEntry, store_outside (by rwa [entry.length_bytes]), Property.storeBlock]
  cases isExternal : entry.value.external with
  | none => rfl
  | some bytes =>
      apply store_outside
      exact noBlock ⟨entry.block, bytes.length⟩ (by rw [PropertyEntry.region, isExternal]; rfl)

theorem blockHeld_writeEntry (apart : ∀ region ∈ entry.region,
      region.start + region.length ≤ ref.address ∨ ref.address + entry.size ≤ region.start) :
    entry.BlockHeld (writeEntry mem ref entry) := by
  intro bytes isExternal
  have hasRegion : (⟨entry.block, bytes.length⟩ : Region) ∈ entry.region := by
    rw [PropertyEntry.region, Option.mem_def.mp isExternal]
    rfl
  have notHere := apart _ hasRegion
  rw [writeEntry, load_store_of_disjoint (by rw [entry.length_bytes]; exact notHere),
    Property.storeBlock, Option.mem_def.mp isExternal]
  exact load_store_self

/-- An entry in front of the slots that are left of the space. -/
theorem RestAt.writeEntry (low : 1 ≤ ref.offset)
    (behind : RestAt mem (ref.advance entry.size) size slots next)
    (apart : ∀ region ∈ entry.region,
      region.start + region.length ≤ ref.chunk ∨ ref.chunk + size ≤ region.start) :
    RestAt (writeEntry mem ref entry) ref size (.used entry :: slots) next := by
  have stop := behind.stop_le
  have isAddress : ref.address = ref.chunk + ref.offset := rfl
  rw [PropertyRef.offset_advance] at stop
  have same (place : Nat) (low : ref.chunk ≤ place) (high : place < ref.chunk + size)
      (outside : place < ref.address ∨ ref.address + entry.size ≤ place) :
      Pmgd.writeEntry mem ref entry place = mem place := by
    apply writeEntry_same outside
    intro region isRegion
    have notHere := apart region isRegion
    omega
  have kept : RestAt (Pmgd.writeEntry mem ref entry) (ref.advance entry.size) size slots next := by
    apply behind.congr
    · exact same _ le_rfl (by rw [PropertyRef.chunk_advance]; omega)
        (by rw [PropertyRef.chunk_advance]; omega)
    · intro offset after inside
      rw [PropertyRef.offset_advance] at after
      rw [PropertyRef.chunk_advance]
      exact same _ (by omega) (by omega) (by omega)
  refine ⟨low, kept.header, ⟨?_, ?_⟩, ?_⟩
  · have loaded := @load_store_self (entry.value.storeBlock entry.block mem) ref.address entry.bytes
    rwa [entry.length_bytes] at loaded
  · have laid := kept.laid
    rwa [PropertyRef.address_advance] at laid
  · have ends := kept.ends
    rwa [PropertyRef.offset_advance, PropertyRef.chunk_advance, Nat.add_assoc] at ends

end Values

/-! ## Linking a new chunk -/

section Links

variable {mem : Memory} {ref q : PropertyRef} {size target unusedSize rounds : Nat}
  {slots front back : List Slot} {slot : Slot} {next : Option Nat}

/-- What `set_link` writes. -/
def withLink (mem : Memory) (ref : PropertyRef) (unusedSize target : Nat) : Memory :=
  let mem := if 0 < unusedSize then
      ref.setTypeSize mem (PropertyRef.typeSizeByte unusedSize .unused)
    else mem
  store ((ref.advance unusedSize).setTypeSize mem (UInt8.ofNat EntryType.link.code))
    ((ref.advance unusedSize).address + 1) (encode 8 target)

theorem withLink_same {place : Nat}
    (outside : place < ref.address ∨ ref.address + unusedSize + 9 ≤ place) :
    withLink mem ref unusedSize target place = mem place := by
  rw [withLink, PropertyRef.address_advance, store_outside (by rw [length_encode]; omega),
    PropertyRef.setTypeSize, PropertyRef.address_advance,
    store_outside (by rw [List.length_singleton]; omega)]
  split_ifs with hasGap
  · exact store_outside (by rw [List.length_singleton]; omega)
  · rfl

/-- The bytes in front of a link. -/
def gapSlots (unusedSize : Nat) (small : unusedSize < 16) : List Slot :=
  if 0 < unusedSize then [.unused ⟨unusedSize - 1, Nat.lt_of_le_of_lt (Nat.sub_le _ _) small⟩]
  else []

@[simp]
theorem entriesOf_gapSlots (small : unusedSize < 16) : entriesOf (gapSlots unusedSize small) = [] := by
  rw [gapSlots]
  split_ifs <;> rfl

theorem total_gapSlots (small : unusedSize < 16) :
    slotLayout.total (gapSlots unusedSize small) = unusedSize := by
  rw [gapSlots]
  split_ifs with hasGap
  · exact Nat.sub_add_cancel hasGap
  · exact (Nat.eq_zero_of_not_pos hasGap).symm

theorem RestAt.withLink (rest : RestAt mem ref size slots next)
    (isSize : ref.offset + unusedSize + 9 = size) (small : unusedSize < 16)
    (isAddress : 8 ≤ target) (pointer : target < 2 ^ 64) :
    RestAt (withLink mem ref unusedSize target) ref size (gapSlots unusedSize small)
      (some target) := by
  have low := rest.inside
  have place : ref.address = ref.chunk + ref.offset := rfl
  refine ⟨low, ?_, ?_, ?_⟩
  · rw [← rest.header, PropertyRef.chunkSize, PropertyRef.chunkEnd, withLink_same (by omega)]
    rfl
  · rw [gapSlots]
    split_ifs with hasGap
    · refine ⟨?_, trivial⟩
      have sameSize : unusedSize - 1 + 1 = unusedSize := by omega
      apply Eq.trans _ (congrArg (PropertyRef.typeSizeByte · .unused) sameSize.symm)
      rw [Pmgd.withLink, PropertyRef.address_advance, store_outside (by omega),
        PropertyRef.setTypeSize, PropertyRef.address_advance, store_outside (by omega),
        if_pos hasGap]
      exact @store_inside mem ref.address [_] 0 (by simp)
    · trivial
  · rw [total_gapSlots]
    refine ⟨isSize, ?_, ?_, isAddress⟩
    · rw [← Nat.add_assoc, ← place, Pmgd.withLink, PropertyRef.address_advance,
        store_outside (by omega), PropertyRef.setTypeSize, PropertyRef.address_advance]
      exact @store_inside _ (ref.address + unusedSize) [_] 0 (by simp)
    · rw [← Nat.add_assoc, ← place, Pmgd.withLink, PropertyRef.address_advance]
      exact loadNat_store_self (by omega)

/-- The first loop of `make_space` stops at the entry that reaches into the last nine bytes. -/
theorem linkSpace_eq (rest : RestAt mem ref size (front ++ slot :: back) none)
    (before : ref.offset + slotLayout.total front + 9 ≤ size)
    (reaches : size < ref.offset + slotLayout.total front + slot.size + 9)
    (enough : front.length < rounds) :
    PropertyRef.linkSpace mem rounds ref = some (ref.advance (slotLayout.total front)) := by
  induction front generalizing ref rounds with
  | nil =>
      obtain ⟨rounds, rfl⟩ : ∃ left, rounds = left + 1 := ⟨rounds - 1, by omega⟩
      have isSize := PropertyRef.size_add_one rest.held
      have isEnd := rest.chunkEnd
      rw [Layout.total_nil] at before reaches
      rw [PropertyRef.linkSpace, if_neg (by omega)]
      rfl
  | cons head front ih =>
      rw [List.length_cons] at enough
      obtain ⟨rounds, rfl⟩ : ∃ left, rounds = left + 1 := ⟨rounds - 1, by omega⟩
      have isSize := PropertyRef.size_add_one rest.held
      have isEnd := rest.chunkEnd
      rw [Layout.total_cons, slotLayout_size] at before reaches
      rw [PropertyRef.linkSpace, if_pos (by omega), rest.skip_eq, ih rest.tail
        (by rw [PropertyRef.offset_advance]; omega) (by rw [PropertyRef.offset_advance]; omega)
        (by omega), PropertyRef.advance_advance, Layout.total_cons, slotLayout_size]

/-- The slots with properties. -/
def usedSlots (slots : List Slot) : List Slot :=
  slots.filter fun slot => ¬ slot.IsUnused

@[simp]
theorem usedSlots_used (entry : PropertyEntry) (slots : List Slot) :
    usedSlots (.used entry :: slots) = .used entry :: usedSlots slots :=
  rfl

@[simp]
theorem entriesOf_usedSlots (slots : List Slot) : entriesOf (usedSlots slots) = entriesOf slots := by
  induction slots with
  | nil => rfl
  | cons slot slots ih =>
      cases slot with
      | unused last => exact ih
      | used entry => exact congrArg (entry :: ·) ih

theorem total_usedSlots_le (slots : List Slot) :
    slotLayout.total (usedSlots slots) ≤ slotLayout.total slots := by
  induction slots with
  | nil => exact le_rfl
  | cons slot slots ih =>
      rw [Layout.total_cons]
      cases slot with
      | unused last => exact Nat.le_add_left_of_le ih
      | used entry => exact Nat.add_le_add_left ih _

/-- The second loop of `make_space` copies the properties, one behind the other. -/
theorem exists_copied (rest : RestAt mem ref size slots none)
    (apart : q.address + slotLayout.total (usedSlots slots) ≤ ref.chunk ∨
      ref.chunk + size ≤ q.address) (enough : slots.length < rounds) :
    ∃ copied, PropertyRef.copyProperties rounds mem ref q =
        some (copied, q.advance (slotLayout.total (usedSlots slots))) ∧
      (∀ place, place < q.address ∨ q.address + slotLayout.total (usedSlots slots) ≤ place →
        copied place = mem place) ∧
      slotLayout.Laid copied q.address (usedSlots slots) := by
  induction slots generalizing mem ref q rounds with
  | nil =>
      obtain ⟨rounds, rfl⟩ : ∃ left, rounds = left + 1 := ⟨rounds - 1, by omega⟩
      rw [PropertyRef.copyProperties, if_neg rest.done]
      exact ⟨mem, rfl, fun _ _ => rfl, trivial⟩
  | cons slot slots ih =>
      rw [List.length_cons] at enough
      obtain ⟨rounds, rfl⟩ : ∃ left, rounds = left + 1 := ⟨rounds - 1, by omega⟩
      rw [PropertyRef.copyProperties, if_pos rest.notDone_cons]
      cases slot with
      | unused last =>
          rw [if_neg (not_not.mpr (PropertyRef.ptype_unused rest.held)), rest.skip_eq]
          exact ih rest.tail apart (by omega)
      | used entry =>
          have stop := rest.stop_le
          have low := rest.inside
          have isAddress : ref.address = ref.chunk + ref.offset := rfl
          have isSize : ref.size mem + 1 = entry.size := PropertyRef.size_add_one rest.held
          rw [usedSlots_used, Layout.total_cons, slotLayout_size, Slot.size] at apart
          rw [Layout.total_cons, slotLayout_size, Slot.size] at stop
          have isBytes : load mem ref.address entry.size = entry.bytes := rest.held
          rw [if_pos (PropertyRef.ptype_ne_unused rest.held), isSize, isBytes]
          dsimp only
          have sameSource (offset : Nat) (inside : offset < size) :
              store mem q.address entry.bytes (ref.chunk + offset) = mem (ref.chunk + offset) :=
            store_outside (by rw [entry.length_bytes]; omega)
          have moved : (Slot.used entry).HeldAt (store mem q.address entry.bytes) q.address := by
            have loaded := @load_store_self mem q.address entry.bytes
            rwa [entry.length_bytes] at loaded
          have kept := rest.congr (sameSource 0 (by omega)) fun offset _ => sameSource offset
          obtain ⟨copied, isCopied, same, laid⟩ := @ih _ _ (q.advance entry.size) rounds kept.tail
            (by rw [PropertyRef.address_advance, PropertyRef.chunk_advance]; omega) (by omega)
          rw [PropertyRef.address_advance] at same laid
          refine ⟨copied, ?_, ?_, ?_, ?_⟩
          · rw [PropertyRef.skip_eq moved, kept.skip_eq]
            apply isCopied.trans
            rw [PropertyRef.advance_advance, usedSlots_used, Layout.total_cons]
            rfl
          · intro place outside
            rw [usedSlots_used, Layout.total_cons, slotLayout_size, Slot.size] at outside
            rw [same place (by omega), store_outside (by rw [entry.length_bytes]; omega)]
          · exact slotLayout.congr (fun offset inside =>
              same _ (.inl (Nat.add_lt_add_left inside _))) moved
          · exact laid

end Links

end Pmgd
