import Pmgd.PropertyChunks

/-!
# Walks over a property list

Every loop over a property list goes from slot to slot and from chunk to chunk up to the end.  A
walk lists the slots with their places, and each loop is described by what it does with that list.
-/

namespace Pmgd

open ByteMemory RecordRun

/-! ## The chain -/

/-- A chunk with its slots. -/
structure PropertyChunk where
  address : Nat
  size : Nat
  slots : List Slot
  address_ge : 8 ≤ address
  size_ge : 10 ≤ size
  size_le : size ≤ 256

namespace PropertyChunk

variable (chunk : PropertyChunk)

def region : Region :=
  ⟨chunk.address, chunk.size⟩

def refAt (offset : Nat) : PropertyRef :=
  ⟨chunk.address, offset, chunk.address_ge⟩

/-- The same chunk with other slots. -/
def withSlots (slots : List Slot) : PropertyChunk :=
  { chunk with slots }

def entries : List PropertyEntry :=
  entriesOf chunk.slots

/-- The places of some slots from an offset on. -/
def placesFrom (offset : Nat) (slots : List Slot) : List (PropertyRef × Slot) :=
  (slotLayout.places offset slots).map fun (offset, slot) => (chunk.refAt offset, slot)

def Held (mem : Memory) (next : Option Nat) : Prop :=
  RestAt mem (chunk.refAt 1) chunk.size chunk.slots next

@[simp]
theorem region_withSlots (slots : List Slot) : (chunk.withSlots slots).region = chunk.region :=
  rfl

@[simp]
theorem refAt_withSlots (slots : List Slot) (offset : Nat) :
    (chunk.withSlots slots).refAt offset = chunk.refAt offset :=
  rfl

theorem placesFrom_cons (offset : Nat) (slot : Slot) (slots : List Slot) :
    chunk.placesFrom offset (slot :: slots) =
      (chunk.refAt offset, slot) :: chunk.placesFrom (offset + slot.size) slots :=
  rfl

theorem placesFrom_append (offset : Nat) (first second : List Slot) :
    chunk.placesFrom offset (first ++ second) =
      chunk.placesFrom offset first ++
        chunk.placesFrom (offset + slotLayout.total first) second := by
  rw [placesFrom, Layout.places_append, List.map_append]
  rfl

theorem advance_refAt (offset count : Nat) :
    (chunk.refAt offset).advance count = chunk.refAt (offset + count) :=
  rfl

end PropertyChunk

/-- The pointer to a chain. -/
def headAddress : List PropertyChunk → Option Nat
  | [] => none
  | chunk :: _ => some chunk.address

/-- Each chunk of a chain links to the next one, and the last one ends the list. -/
def ChainHeld (mem : Memory) : List PropertyChunk → Prop
  | [] => True
  | chunk :: chain => chunk.Held mem (headAddress chain) ∧ ChainHeld mem chain

def chainEntries (chain : List PropertyChunk) : List PropertyEntry :=
  chain.flatMap PropertyChunk.entries

def chainPlaces (chain : List PropertyChunk) : List (PropertyRef × Slot) :=
  chain.flatMap fun chunk => chunk.placesFrom 1 chunk.slots

@[simp]
theorem chainEntries_append (first second : List PropertyChunk) :
    chainEntries (first ++ second) = chainEntries first ++ chainEntries second :=
  List.flatMap_append

@[simp]
theorem chainEntries_cons (chunk : PropertyChunk) (chain : List PropertyChunk) :
    chainEntries (chunk :: chain) = entriesOf chunk.slots ++ chainEntries chain :=
  rfl

@[simp]
theorem chainPlaces_append (first second : List PropertyChunk) :
    chainPlaces (first ++ second) = chainPlaces first ++ chainPlaces second :=
  List.flatMap_append

@[simp]
theorem chainPlaces_cons (chunk : PropertyChunk) (chain : List PropertyChunk) :
    chainPlaces (chunk :: chain) = chunk.placesFrom 1 chunk.slots ++ chainPlaces chain :=
  rfl

theorem entries_of_places (chunk : PropertyChunk) (offset : Nat) (slots : List Slot) :
    (chunk.placesFrom offset slots).filterMap (fun place => place.2.toEntry) = entriesOf slots := by
  induction slots generalizing offset with
  | nil => rfl
  | cons slot slots ih =>
      rw [PropertyChunk.placesFrom_cons]
      cases slot with
      | unused last => exact ih _
      | used entry => exact congrArg (entry :: ·) (ih _)

theorem entries_of_chainPlaces (chain : List PropertyChunk) :
    (chainPlaces chain).filterMap (fun place => place.2.toEntry) = chainEntries chain := by
  induction chain with
  | nil => rfl
  | cons chunk chain ih =>
      rw [chainPlaces_cons, List.filterMap_append, entries_of_places, ih, chainEntries_cons]

/-- The end of a chain may be exchanged from a chunk on. -/
theorem ChainHeld.replace {mem other : Memory} {before after afterwards : List PropertyChunk}
    {chunk changed : PropertyChunk} (held : ChainHeld mem (before ++ chunk :: after))
    (sameAddress : changed.address = chunk.address)
    (sameBefore : ∀ next, ∀ earlier ∈ before, earlier.Held mem next → earlier.Held other next)
    (isHeld : ChainHeld mem (chunk :: after) → ChainHeld other (changed :: afterwards)) :
    ChainHeld other (before ++ changed :: afterwards) := by
  induction before with
  | nil => exact isHeld held
  | cons earlier before ih =>
      obtain ⟨earlierHeld, held⟩ := held
      have sameHead : headAddress (before ++ changed :: afterwards) =
          headAddress (before ++ chunk :: after) := by
        cases before with
        | nil => exact congrArg some sameAddress
        | cons head before => rfl
      rw [List.cons_append, ChainHeld, sameHead]
      constructor
      · exact sameBefore _ earlier List.mem_cons_self earlierHeld
      · exact ih held fun next earlier member =>
          sameBefore next earlier (List.mem_cons_of_mem _ member)

theorem ChainHeld.chunk {mem : Memory} {before after : List PropertyChunk} {chunk : PropertyChunk}
    (held : ChainHeld mem (before ++ chunk :: after)) : chunk.Held mem (headAddress after) := by
  induction before with
  | nil => exact held.1
  | cons earlier before ih => exact ih held.2

theorem ChainHeld.back {mem : Memory} {before after : List PropertyChunk}
    (held : ChainHeld mem (before ++ after)) : ChainHeld mem after := by
  induction before with
  | nil => exact held
  | cons earlier before ih => exact ih held.2

/-- The slots from a place in a chunk on. -/
theorem PropertyChunk.Held.restAt {mem : Memory} {chunk : PropertyChunk} {next : Option Nat}
    {front back : List Slot} (held : (chunk.withSlots (front ++ back)).Held mem next) :
    RestAt mem (chunk.refAt (1 + slotLayout.total front)) chunk.size back next :=
  RestAt.advance held

/-! ## Frames -/

theorem RestAt.congr {mem other : Memory} {ref : PropertyRef} {size : Nat} {slots : List Slot}
    {next : Option Nat} (rest : RestAt mem ref size slots next)
    (sameHeader : other ref.chunk = mem ref.chunk)
    (same : ∀ offset, ref.offset ≤ offset → offset < size →
      other (ref.chunk + offset) = mem (ref.chunk + offset)) :
    RestAt other ref size slots next where
  inside := rest.inside
  header := by
    rw [← rest.header, PropertyRef.chunkSize, PropertyRef.chunkSize, PropertyRef.chunkEnd,
      PropertyRef.chunkEnd, sameHeader]
  laid := by
    have stop := rest.stop_le
    apply rest.laid.congr
    intro offset inside
    rw [PropertyRef.address, Nat.add_assoc]
    exact same (ref.offset + offset) (by omega) (by omega)
  ends := rest.ends.congr fun offset after inside =>
    same offset (Nat.le_of_add_right_le after) inside

theorem PropertyChunk.Held.congr {mem other : Memory} {chunk : PropertyChunk} {next : Option Nat}
    (held : chunk.Held mem next)
    (same : ∀ offset, offset < chunk.size →
      other (chunk.address + offset) = mem (chunk.address + offset)) : chunk.Held other next :=
  RestAt.congr held (same 0 (Nat.lt_of_lt_of_le (by decide) chunk.size_ge))
    fun offset _ inside => same offset inside

theorem ChainHeld.congr {mem other : Memory} {chain : List PropertyChunk}
    (held : ChainHeld mem chain)
    (same : ∀ chunk ∈ chain, ∀ offset, offset < chunk.size →
      other (chunk.address + offset) = mem (chunk.address + offset)) : ChainHeld other chain := by
  induction chain with
  | nil => trivial
  | cons chunk chain ih =>
      constructor
      · exact held.1.congr (same chunk List.mem_cons_self)
      · exact ih held.2 fun later member => same later (List.mem_cons_of_mem _ member)

/-! ## Walks -/

/-- From a place on, the list has these slots at these places and then its end, which a loop
reaches in a number of rounds. -/
inductive EntryWalk (mem : Memory) :
    PropertyRef → List (PropertyRef × Slot) → PropertyRef → Nat → Prop
  | stop {ref : PropertyRef} {size : Nat} (rest : RestAt mem ref size [] none) :
      EntryWalk mem ref [] ref 1
  | slot {ref last : PropertyRef} {size steps : Nat} {slot : Slot} {slots : List Slot}
      {next : Option Nat} {places : List (PropertyRef × Slot)}
      (rest : RestAt mem ref size (slot :: slots) next)
      (walk : EntryWalk mem (ref.advance slot.size) places last steps) :
      EntryWalk mem ref ((ref, slot) :: places) last (steps + 1)
  | link {ref last : PropertyRef} {size steps target : Nat} {places : List (PropertyRef × Slot)}
      (rest : RestAt mem ref size [] (some target)) (isAddress : 8 ≤ target)
      (walk : EntryWalk mem ⟨target, 1, isAddress⟩ places last steps) :
      EntryWalk mem ref places last (steps + 1)

/-- The end of a chain. -/
def chainEnd (chunk : PropertyChunk) : List PropertyChunk → PropertyRef
  | [] => chunk.refAt (1 + slotLayout.total chunk.slots)
  | next :: chain => chainEnd next chain

/-- The bytes of a chain. -/
def chainBytes (chain : List PropertyChunk) : Nat :=
  (chain.map PropertyChunk.size).sum

/-- A chunk is walked through from any place in it. -/
theorem walk_chunk {mem : Memory} {chunk : PropertyChunk} {slots : List Slot} {next : Option Nat}
    {offset steps : Nat} {places : List (PropertyRef × Slot)} {last : PropertyRef}
    (rest : RestAt mem (chunk.refAt offset) chunk.size slots next)
    (walk : EntryWalk mem (chunk.refAt (offset + slotLayout.total slots)) places last steps) :
    EntryWalk mem (chunk.refAt offset) (chunk.placesFrom offset slots ++ places) last
      (slots.length + steps) := by
  induction slots generalizing offset with
  | nil =>
      rw [List.length_nil, Nat.zero_add]
      exact walk
  | cons slot slots ih =>
      rw [Layout.total_cons, slotLayout_size, ← Nat.add_assoc] at walk
      rw [List.length_cons, Nat.add_right_comm]
      exact EntryWalk.slot rest (ih rest.tail walk)

/-- A chain is walked through from any place in its first chunk. -/
theorem walk_chain {mem : Memory} {chunk : PropertyChunk} {chain : List PropertyChunk}
    {slots : List Slot} {offset : Nat}
    (rest : RestAt mem (chunk.refAt offset) chunk.size slots (headAddress chain))
    (held : ChainHeld mem chain) :
    ∃ steps, steps ≤ chunk.size + chainBytes chain ∧
      EntryWalk mem (chunk.refAt offset) (chunk.placesFrom offset slots ++ chainPlaces chain)
        (match chain with
          | [] => chunk.refAt (offset + slotLayout.total slots)
          | next :: chain => chainEnd next chain) steps := by
  induction chain generalizing chunk slots offset with
  | nil =>
      have few := @Layout.length_le_total _ slotLayout slots
      have stop := rest.stop_le
      have inside := rest.inside
      have atEnd : RestAt mem (chunk.refAt (offset + slotLayout.total slots)) chunk.size [] none :=
        RestAt.advance (by rwa [List.append_nil])
      refine ⟨slots.length + 1, ?_, walk_chunk rest (EntryWalk.stop atEnd)⟩
      have isOffset : (chunk.refAt offset).offset = offset := rfl
      omega
  | cons next chain ih =>
      have few := @Layout.length_le_total _ slotLayout slots
      obtain ⟨fits, -⟩ := rest.ends
      have inside := rest.inside
      obtain ⟨steps, bound, walk⟩ := ih held.1 held.2
      have atLink : RestAt mem (chunk.refAt (offset + slotLayout.total slots)) chunk.size []
          (some next.address) :=
        RestAt.advance (by rwa [List.append_nil])
      have linked := EntryWalk.link atLink next.address_ge walk
      refine ⟨slots.length + (steps + 1), ?_, ?_⟩
      · rw [chainBytes, List.map_cons, List.sum_cons, ← chainBytes]
        have isOffset : (chunk.refAt offset).offset = offset := rfl
        omega
      · have whole := walk_chunk rest linked
        cases chain with
        | nil => exact whole
        | cons second chain => exact whole

/-- The walk over a whole list. -/
theorem walk_list {mem : Memory} {chunk : PropertyChunk} {chain : List PropertyChunk}
    (held : ChainHeld mem (chunk :: chain)) :
    ∃ steps, steps ≤ chainBytes (chunk :: chain) ∧
      EntryWalk mem (chunk.refAt 1) (chainPlaces (chunk :: chain)) (chainEnd chunk chain) steps := by
  obtain ⟨steps, bound, walk⟩ := walk_chain held.1 held.2
  refine ⟨steps, by rwa [chainBytes, List.map_cons, List.sum_cons], ?_⟩
  cases chain with
  | nil => exact walk
  | cons next chain => exact walk

/-- A place in a chain, with the slots from there on. -/
structure PlaceIn (chain : List PropertyChunk) (ref : PropertyRef) (before after : List PropertyChunk)
    (chunk : PropertyChunk) (front back : List Slot) : Prop where
  isChain : chain = before ++ chunk :: after
  isSlots : chunk.slots = front ++ back
  isRef : ref = chunk.refAt (1 + slotLayout.total front)

theorem placesFrom_split {chunk : PropertyChunk} {offset : Nat} {slots : List Slot}
    {place : PropertyRef × Slot} (member : place ∈ chunk.placesFrom offset slots) :
    ∃ front back, slots = front ++ place.2 :: back ∧
      place.1 = chunk.refAt (offset + slotLayout.total front) := by
  induction slots generalizing offset with
  | nil => cases member
  | cons slot slots ih =>
      rw [PropertyChunk.placesFrom_cons] at member
      cases member with
      | head => exact ⟨[], slots, rfl, rfl⟩
      | tail _ later =>
          obtain ⟨front, back, isSlots, isRef⟩ := ih later
          refine ⟨slot :: front, back, by rw [isSlots, List.cons_append], ?_⟩
          rw [isRef, Layout.total_cons, slotLayout_size, Nat.add_assoc]

theorem chainPlaces_split {chain : List PropertyChunk} {place : PropertyRef × Slot}
    (member : place ∈ chainPlaces chain) :
    ∃ before after chunk front back,
      PlaceIn chain place.1 before after chunk front (place.2 :: back) := by
  induction chain with
  | nil => cases member
  | cons chunk chain ih =>
      rw [chainPlaces_cons, List.mem_append] at member
      cases member with
      | inl here =>
          obtain ⟨front, back, isSlots, isRef⟩ := placesFrom_split here
          exact ⟨[], chain, chunk, front, back, rfl, isSlots, isRef⟩
      | inr later =>
          obtain ⟨before, after, other, front, back, isChain, isSlots, isRef⟩ := ih later
          exact ⟨chunk :: before, after, other, front, back, by rw [isChain, List.cons_append],
            isSlots, isRef⟩

namespace PlaceIn

variable {mem : Memory} {chain before after : List PropertyChunk} {ref : PropertyRef}
  {chunk : PropertyChunk} {front back : List Slot}

theorem restAt (place : PlaceIn chain ref before after chunk front back)
    (held : ChainHeld mem chain) : RestAt mem ref chunk.size back (headAddress after) := by
  obtain ⟨rfl, isSlots, rfl⟩ := place
  have chunkHeld := held.chunk
  rw [PropertyChunk.Held, isSlots] at chunkHeld
  exact chunkHeld.advance

/-- The walk from a place on. -/
theorem walk (place : PlaceIn chain ref before after chunk front back)
    (held : ChainHeld mem chain) :
    ∃ steps, steps ≤ chainBytes chain ∧
      EntryWalk mem ref (chunk.placesFrom (1 + slotLayout.total front) back ++ chainPlaces after)
        (chainEnd chunk after) steps := by
  have rest := place.restAt held
  obtain ⟨rfl, isSlots, rfl⟩ := place
  obtain ⟨steps, bound, walk⟩ := walk_chain rest held.back.2
  refine ⟨steps, ?_, ?_⟩
  · rw [chainBytes, List.map_append, List.sum_append, List.map_cons, List.sum_cons, ← chainBytes]
    exact bound.trans (Nat.le_add_left _ _)
  · cases after with
    | nil =>
        rw [chainEnd, isSlots, Layout.total_append, ← Nat.add_assoc]
        exact walk
    | cons next after => exact walk

/-- A place further on. -/
theorem later {other : PropertyRef × Slot}
    (place : PlaceIn chain ref before after chunk front back)
    (member : other ∈ chunk.placesFrom (1 + slotLayout.total front) back ++ chainPlaces after) :
    ∃ before after chunk front back,
      PlaceIn chain other.1 before after chunk front (other.2 :: back) := by
  obtain ⟨rfl, isSlots, rfl⟩ := place
  apply chainPlaces_split
  rw [chainPlaces_append, chainPlaces_cons, isSlots, PropertyChunk.placesFrom_append]
  simp only [List.mem_append] at member ⊢
  exact .inr (member.imp_left .inr)

end PlaceIn

/-! ## The loops -/

/-- A loop takes its last case at a property. -/
theorem match_used {α : Sort*} {mem : Memory} {ref : PropertyRef} {entry : PropertyEntry}
    (held : (Slot.used entry).HeldAt mem ref.address) (atLink atUnused atProperty : α) :
    (match ref.ptype mem with
      | some .link => atLink
      | some .unused => atUnused
      | _ => atProperty) = atProperty := by
  have isProperty := entry.value.isProperty_entryType
  rw [PropertyRef.ptype_used held]
  split
  next isLink =>
    rw [Option.some.inj isLink] at isProperty
    exact absurd isProperty (by decide)
  next isUnused =>
    rw [Option.some.inj isUnused] at isProperty
    exact absurd isProperty (by decide)
  next => rfl

/-- What `find_property` finds among some places. -/
def lookFor (mem : Memory) (id : BitVec 16) (last : PropertyRef) :
    List (PropertyRef × Slot) → SpaceSearch → PropertySearch
  | [], search => ⟨false, last, search⟩
  | (ref, .unused _) :: places, search => lookFor mem id last places (search.visit mem ref)
  | (ref, .used entry) :: places, search =>
      if entry.id = id then ⟨true, ref, search⟩ else lookFor mem id last places search

section Loops

variable {mem : Memory} {ref last : PropertyRef} {places : List (PropertyRef × Slot)}
  {steps rounds : Nat}

theorem skipToNext_eq (walk : EntryWalk mem ref places last steps) (enough : steps ≤ rounds) :
    PropertyRef.skipToNext mem rounds ref =
      some (match places.find? fun place => ¬ place.2.IsUnused with
        | some place => (true, place.1)
        | none => (false, last)) := by
  induction walk generalizing rounds with
  | stop rest =>
      obtain ⟨rounds, rfl⟩ := Nat.exists_eq_add_of_le' enough
      rw [PropertyRef.skipToNext, if_neg rest.done]
      rfl
  | @slot ref last size steps slot slots next places rest walk ih =>
      obtain ⟨rounds, rfl⟩ := Nat.exists_eq_add_of_le' (Nat.le_of_add_left_le enough)
      rw [PropertyRef.skipToNext, if_pos rest.notDone_cons]
      cases slot with
      | unused last =>
          simp only [PropertyRef.ptype_unused rest.held]
          rw [rest.skip_eq]
          exact ih (Nat.le_of_succ_le_succ enough)
      | used entry => exact match_used rest.held _ _ _
  | link rest isAddress walk ih =>
      obtain ⟨rounds, rfl⟩ := Nat.exists_eq_add_of_le' (Nat.le_of_add_left_le enough)
      obtain ⟨notDone, isType, _, isNext⟩ := rest.link_eq
      rw [PropertyRef.skipToNext, if_pos notDone]
      simp only [isType]
      rw [isNext, Option.bind_some]
      exact ih (Nat.le_of_succ_le_succ enough)

theorem findSpace_eq (walk : EntryWalk mem ref places last steps) (req : Nat)
    (enough : steps ≤ rounds) :
    PropertyList.findSpace mem req rounds ref =
      some (match places.find? fun place =>
          place.2.IsUnused ∧ req ≤ place.1.freeSpace mem with
        | some place => (true, place.1)
        | none => (decide (req ≤ last.freeSpace mem), last)) := by
  induction walk generalizing rounds with
  | stop rest =>
      obtain ⟨rounds, rfl⟩ := Nat.exists_eq_add_of_le' enough
      rw [PropertyList.findSpace, if_neg rest.done]
      rfl
  | @slot ref last size steps slot slots next places rest walk ih =>
      obtain ⟨rounds, rfl⟩ := Nat.exists_eq_add_of_le' (Nat.le_of_add_left_le enough)
      have later := @ih rounds (Nat.le_of_succ_le_succ enough)
      rw [PropertyList.findSpace, if_pos rest.notDone_cons, List.find?_cons]
      cases slot with
      | unused last =>
          simp only [PropertyRef.ptype_unused rest.held]
          rw [rest.skip_eq, later]
          by_cases fits : req ≤ ref.freeSpace mem
          · simp [Slot.IsUnused, fits]
          · simp [Slot.IsUnused, fits]
      | used entry =>
          apply (match_used rest.held _ _ _).trans
          rw [rest.skip_eq, later]
          simp [Slot.IsUnused]
  | link rest isAddress walk ih =>
      obtain ⟨rounds, rfl⟩ := Nat.exists_eq_add_of_le' (Nat.le_of_add_left_le enough)
      obtain ⟨notDone, isType, _, isNext⟩ := rest.link_eq
      rw [PropertyList.findSpace, if_pos notDone]
      simp only [isType]
      rw [isNext, Option.bind_some]
      exact ih (Nat.le_of_succ_le_succ enough)

theorem findProperty_eq (walk : EntryWalk mem ref places last steps) (id : BitVec 16)
    (search : SpaceSearch) (enough : steps ≤ rounds) :
    PropertyList.findProperty mem id rounds ref search =
      some (lookFor mem id last places search) := by
  induction walk generalizing rounds search with
  | stop rest =>
      obtain ⟨rounds, rfl⟩ := Nat.exists_eq_add_of_le' enough
      rw [PropertyList.findProperty, if_neg rest.done]
      rfl
  | @slot ref last size steps slot slots next places rest walk ih =>
      obtain ⟨rounds, rfl⟩ := Nat.exists_eq_add_of_le' (Nat.le_of_add_left_le enough)
      have later := fun search => @ih rounds search (Nat.le_of_succ_le_succ enough)
      rw [PropertyList.findProperty, if_pos rest.notDone_cons]
      cases slot with
      | unused last =>
          simp only [PropertyRef.ptype_unused rest.held]
          rw [rest.skip_eq, later, lookFor]
      | used entry =>
          apply (match_used rest.held _ _ _).trans
          rw [PropertyRef.getId_used rest.held, Option.bind_some, rest.skip_eq, later, lookFor]
          split_ifs <;> rfl
  | link rest isAddress walk ih =>
      obtain ⟨rounds, rfl⟩ := Nat.exists_eq_add_of_le' (Nat.le_of_add_left_le enough)
      obtain ⟨notDone, isType, _, isNext⟩ := rest.link_eq
      rw [PropertyList.findProperty, if_pos notDone]
      simp only [isType]
      rw [isNext, Option.bind_some]
      exact ih search (Nat.le_of_succ_le_succ enough)

end Loops

end Pmgd
