import Pmgd.PropertyListHeld

/-!
# Steps of the changes of a property list

What each step of `set_property` and `remove_property` does to a list that memory holds: the
search, the removal of an entry, the new chunk and the new entry.  Each step keeps the invariant,
and the undo log covers what it writes outside of new blocks.
-/

namespace Pmgd

open ByteMemory RecordRun UndoLog ThrowingState

/-! ## Undo images -/

/-- Undoing what has been logged since then gives memory back, except for some regions. -/
def Restores (fresh : List Region) (world next : ListWorld) : Prop :=
  ∃ images, next.log = world.log ++ images ∧
    SameOutside fresh world.mem (undo images next.mem)

namespace Restores

variable {fresh : List Region} {world middle next : ListWorld}

theorem refl (fresh : List Region) (world : ListWorld) : Restores fresh world world :=
  ⟨[], (List.append_nil _).symm, fun _ _ => rfl⟩

theorem trans (first : Restores fresh world middle) (second : Restores fresh middle next) :
    Restores fresh world next := by
  obtain ⟨images, isLog, same⟩ := first
  obtain ⟨others, isNext, sameNext⟩ := second
  refine ⟨images ++ others, by rw [isNext, isLog, List.append_assoc], ?_⟩
  intro place outside
  rw [undo_append, undo_congr fun _ => sameNext place outside]
  exact same place outside

theorem mono {others : List Region} (restores : Restores fresh world next)
    (subset : fresh ⊆ others) : Restores others world next := by
  obtain ⟨images, isLog, same⟩ := restores
  exact ⟨images, isLog, fun place outside =>
    same place fun region member => outside region (subset member)⟩

theorem of_same (sameLog : next.log = world.log) (same : SameOutside fresh world.mem next.mem) :
    Restores fresh world next :=
  ⟨[], by rw [sameLog, List.append_nil], same⟩

/-- The old bytes of a place are logged before it changes. -/
theorem of_logged {place length : Nat}
    (isLog : next.log = world.log ++
      [snapshot (fun address => place ≤ address ∧ address < place + length) world.mem])
    (same : SameOutside (⟨place, length⟩ :: fresh) world.mem next.mem) :
    Restores fresh world next := by
  refine ⟨_, isLog, fun address outside => ?_⟩
  rw [undo_cons, undo_nil, restore, snapshot]
  split_ifs with inside
  · rfl
  · apply same
    rintro region (_ | ⟨_, member⟩)
    · exact inside
    · exact outside region member

end Restores

/-! ## Steps of the monad -/

namespace ListEdit

variable {α : Type} {world : ListWorld}

theorem ofOption_eq {result : Option α} {value : α} (isValue : result = some value) :
    ofOption result world = .ok value world := by
  rw [isValue]
  rfl

theorem notify_eq {chunk offset : Nat} {iterators : List PropertyListIterator}
    (notified : world.iterators.mapM (fun iterator =>
      iterator.notify world.mem world.rounds chunk offset) = some iterators) :
    notify chunk offset world = .ok () { world with iterators } := by
  rw [notify, get_bind]
  exact bind_ok (ofOption_eq notified)

end ListEdit

open ListEdit

/-! ## Iterators -/

section Iterators

variable {mem : Memory} {rounds : Nat}

theorem exists_notified {iterators : List PropertyListIterator} {chunk offset : Nat}
    (each : ∀ iterator : PropertyListIterator,
      ∃ next, iterator.notify mem rounds chunk offset = some next) :
    ∃ notified, (iterators.mapM fun iterator => iterator.notify mem rounds chunk offset) =
      some notified := by
  induction iterators with
  | nil => exact ⟨[], rfl⟩
  | cons iterator iterators ih =>
      obtain ⟨next, isNext⟩ := each iterator
      obtain ⟨others, areOthers⟩ := ih
      exact ⟨next :: others, by rw [List.mapM_cons, isNext, areOthers]; rfl⟩

/-- An iterator is only moved from the place of the property that is removed. -/
theorem exists_notify {ref : PropertyRef} {found : Bool} {following : PropertyRef}
    (isNext : PropertyRef.next ref mem rounds = some (found, following))
    (iterator : PropertyListIterator) :
    ∃ next, iterator.notify mem rounds ref.chunk ref.offset = some next := by
  rw [PropertyListIterator.notify]
  cases isCur : iterator.cur with
  | none => exact ⟨_, rfl⟩
  | some cur =>
      dsimp only
      split_ifs with sameChunk atStart sameOffset
      · exact ⟨_, rfl⟩
      · obtain rfl : cur = ref := by
          cases cur
          cases ref
          simp_all
        rw [PropertyRef.next] at isNext
        rw [PropertyListIterator.moved, isNext]
        exact ⟨_, rfl⟩
      · exact ⟨_, rfl⟩
      · exact ⟨_, rfl⟩

end Iterators

/-! ## Removing an entry -/

section Removal

variable {list size : Nat} {world : ListWorld} {chain before after : List PropertyChunk}
  {ref : PropertyRef} {chunk : PropertyChunk} {front back : List Slot} {entry : PropertyEntry}

/-- The place behind a slot. -/
theorem PlaceIn.next {slot : Slot} (place : PlaceIn chain ref before after chunk front (slot :: back)) :
    PlaceIn chain (ref.advance slot.size) before after chunk (front ++ [slot]) back := by
  obtain ⟨isChain, isSlots, rfl⟩ := place
  refine ⟨isChain, by rw [isSlots, List.append_cons], ?_⟩
  rw [PropertyChunk.advance_refAt, Layout.total_append, Layout.total_cons, Layout.total_nil,
    Nat.add_zero, Nat.add_assoc]
  rfl

theorem ListHeld.exists_next {slot : Slot} (held : ListHeld list size world chain)
    (place : PlaceIn chain ref before after chunk front (slot :: back)) :
    ∃ found following, ref.next world.mem world.rounds = some (found, following) := by
  obtain ⟨steps, few, walk⟩ := place.next.walk held.held
  rw [PropertyRef.next, (place.restAt held.held).skip_eq,
    skipToNext_eq walk (few.trans held.chainBytes_le)]
  split <;> exact ⟨_, _, rfl⟩

/-- The world after the removal of an entry. -/
def freedWorld (world : ListWorld) (ref : PropertyRef) (entry : PropertyEntry) (back : List Slot)
    (next : Option Nat) (iterators : List PropertyListIterator) : ListWorld :=
  { world with
    iterators
    freed := entry.region.toList ++ world.freed
    log := world.log ++ [snapshot (fun address => ref.address ≤ address ∧
      address < ref.address + 1) world.mem]
    mem := store world.mem ref.address [freedByte entry back next] }

theorem ListHeld.free_eq (held : ListHeld list size world chain)
    (place : PlaceIn chain ref before after chunk front (.used entry :: back)) :
    ∃ iterators,
      (world.iterators.mapM fun iterator =>
        iterator.notify world.mem world.rounds ref.chunk ref.offset) = some iterators ∧
      ref.free world =
        .ok () (freedWorld world ref entry back (headAddress after) iterators) := by
  have rest := place.restAt held.held
  obtain ⟨found, following, isNext⟩ := held.exists_next place
  obtain ⟨iterators, notified⟩ := @exists_notified _ _ world.iterators _ _
    (exists_notify isNext)
  refine ⟨iterators, notified, ?_⟩
  have stop := rest.stop_le
  have header := rest.header
  have isSize : ref.size world.mem + 1 = entry.size := PropertyRef.size_add_one rest.held
  rw [Layout.total_cons, slotLayout_size, Slot.size] at stop
  have isRegion := PropertyRef.blob_used rest.held
  have isByte : freedByte entry back (headAddress after) =
      if (ref.skip world.mem).NotDone world.mem then
        PropertyRef.typeSizeByte (ref.size world.mem + 1) .unused
      else UInt8.ofNat EntryType.done.code := by
    have atNext := notDone_iff rest.tail
    rw [freedByte, isSize, rest.skip_eq]
    simp only [atNext, ite_not]
  rw [PropertyRef.free, bind_ok (notify_eq notified), get_bind, freedWorld, isByte, isRegion]
  have fits : ref.offset + (ref.size world.mem + 1) ≤ ref.chunkSize world.mem := by omega
  simp only [if_pos fits]
  split_ifs <;> rfl

theorem nodup_of_sublist {entries others : List PropertyEntry}
    (nodup : (entries.map PropertyEntry.id).Nodup) (sublist : others.Sublist entries) :
    (others.map PropertyEntry.id).Nodup :=
  nodup.sublist (sublist.map _)

/-- The entries around a place. -/
theorem PlaceIn.entries (place : PlaceIn chain ref before after chunk front back) :
    chainEntries chain = chainEntries before ++ entriesOf front ++
      (entriesOf back ++ chainEntries after) := by
  obtain ⟨rfl, isSlots, rfl⟩ := place
  rw [chainEntries_append, chainEntries_cons, isSlots, entriesOf_append]
  simp only [List.append_assoc]

theorem entries_edit (before afterwards : List PropertyChunk) (chunk : PropertyChunk)
    (front others : List Slot) :
    chainEntries (before ++ chunk.withSlots (front ++ others) :: afterwards) =
      chainEntries before ++ entriesOf front ++
        (entriesOf others ++ chainEntries afterwards) := by
  rw [chainEntries_append, chainEntries_cons]
  have isSlots : (chunk.withSlots (front ++ others)).slots = front ++ others := rfl
  rw [isSlots, entriesOf_append]
  simp only [List.append_assoc]

/-- The chain after the removal of an entry. -/
def freedChain (before after : List PropertyChunk) (chunk : PropertyChunk) (front back : List Slot)
    (entry : PropertyEntry) : List PropertyChunk :=
  before ++ chunk.withSlots (front ++ freedSlots entry back (headAddress after)) :: after

theorem ListHeld.freed (held : ListHeld list size world chain)
    (place : PlaceIn chain ref before after chunk front (.used entry :: back))
    (iterators : List PropertyListIterator) :
    ListHeld list size (freedWorld world ref entry back (headAddress after) iterators)
        (freedChain before after chunk front back entry) ∧
      Restores [] world (freedWorld world ref entry back (headAddress after) iterators) := by
  have rest := place.restAt held.held
  have inside := rest.offset_lt
  have isRef := place.isRef
  have chunkRef : ref.chunk = chunk.address := by rw [isRef]; rfl
  have isAddress : ref.address = ref.chunk + ref.offset := rfl
  have areEntries := place.entries
  have same : SameOutside [⟨ref.address, 1⟩] world.mem
      (store world.mem ref.address [freedByte entry back (headAddress after)]) := by
    intro place outside
    have notHere := outside _ List.mem_cons_self
    rw [Region.Has] at notHere
    dsimp only at notHere
    apply store_outside
    rw [List.length_singleton]
    omega
  have sublist : (chainEntries (freedChain before after chunk front back entry)).Sublist
      (chainEntries chain) := by
    rw [freedChain, entries_edit, areEntries, entriesOf_freedSlots, entriesOf_used]
    exact (List.Sublist.refl _).append (List.sublist_cons_self _ _)
  constructor
  · apply @ListHeld.edit _ _ _ (freedWorld world ref entry back (headAddress after) iterators) _ _ _
      _ _ _ _ _ _ [] held place _ held.apart rfl rest.free id (fun _ => .inl)
      (fun entry member => .inl (sublist.subset member)) (nodup_of_sublist held.ids sublist)
    · have balanced := chainRegions_edit place (freedSlots entry back (headAddress after))
      rw [entriesOf_freedSlots, entriesOf_used, entryRegions_cons] at balanced
      apply List.perm_iff_count.mpr
      intro region
      have counted := List.perm_iff_count.mp balanced region
      simp only [freedWorld, List.count_append, List.nil_append] at counted ⊢
      omega
    · apply same.mono
      rintro region (_ | ⟨_, ⟨⟩⟩) place ⟨low, high⟩
      dsimp only at low high
      refine ⟨_, List.mem_cons_self, ?_, ?_⟩
      · rw [PropertyChunk.regionFrom]
        dsimp only
        omega
      · rw [PropertyChunk.regionFrom]
        dsimp only
        omega
  · exact Restores.of_logged rfl same

end Removal

/-! ## Writing an entry -/

/-- The block for a value; values that fit into their entries have none. -/
def offeredBlock (value : Property) (offer : Option Nat) : Option Nat :=
  match value.external with
  | none => some 0
  | some bytes => if bytes.length < 2 ^ 32 then offer else none

/-- The bytes that are logged. -/
def PropertySpace.logSize (space : PropertySpace) : Nat :=
  if space.req < space.size then space.req + 1 else space.req

/-- The world after `set_size`. -/
def sizedWorld (world : ListWorld) (sized : Memory) (space : PropertySpace) (newChunk : Bool) :
    ListWorld :=
  { world with
    mem := sized
    log := if newChunk then world.log else world.log ++
      [snapshot (fun address => space.pos.address ≤ address ∧
        address < space.pos.address + space.logSize) world.mem] }

section Writing

variable {world : ListWorld} {space : PropertySpace} {newChunk : Bool} {entry : PropertyEntry}
  {value : Property} {offer : Option Nat} {sized : Memory}

theorem write_sized (req : 3 ≤ space.req) (enough : space.req ≤ space.size)
    (free : space.size ≤ space.pos.freeSpace world.mem)
    (isSized : (if space.req < space.size then
      space.pos.setSize world.mem space.size space.req else some world.mem) = some sized)
    (id : BitVec 16) :
    space.write newChunk id value offer world = (do
      let block ← match value.external with
        | none => pure 0
        | some bytes =>
            if bytes.length < 2 ^ 32 then alloc offer bytes.length else throw .notImplemented
      let mem := (← get).mem
      let valued ← ofOption (space.pos.setValue (fun mem _ => some (block, mem)) mem value space.req)
      let written ← ofOption (space.pos.setId valued id)
      modifyMem fun _ => written : ListEdit Unit) (sizedWorld world sized space newChunk) := by
  rw [PropertySpace.write, get_bind, if_pos ⟨req, enough, free⟩, sizedWorld]
  split_ifs at isSized with smaller
  · have isLogged : space.logSize = space.req + 1 := if_pos smaller
    rw [isLogged]
    simp only [if_pos smaller, isSized]
    cases newChunk <;> cases value.external <;> rfl
  · have isLogged : space.logSize = space.req := if_neg smaller
    rw [isLogged]
    obtain rfl := Option.some.inj isSized
    simp only [if_neg smaller]
    cases newChunk <;> rfl

/-- The world with the entry. -/
def writtenWorld (world : ListWorld) (sized : Memory) (space : PropertySpace) (newChunk : Bool)
    (entry : PropertyEntry) : ListWorld :=
  { sizedWorld world sized space newChunk with
    mem := writeEntry sized space.pos entry
    allocated := entry.region.toList ++ world.allocated }

theorem write_eq (isReq : space.req = entry.size) (enough : space.req ≤ space.size)
    (free : space.size ≤ space.pos.freeSpace world.mem)
    (isSized : (if space.req < space.size then
      space.pos.setSize world.mem space.size space.req else some world.mem) = some sized)
    (inside : space.pos.offset ≤ space.pos.chunkEnd sized)
    (isBlock : offeredBlock entry.value offer = some entry.block) :
    space.write newChunk entry.id entry.value offer world =
      .ok () (writtenWorld world sized space newChunk entry) := by
  have req := entry.three_le_size
  obtain ⟨valued, isValued, isWritten⟩ := @setValue_setId sized space.pos entry inside
  rw [write_sized (by omega) enough free isSized]
  rw [offeredBlock] at isBlock
  have isRegion : entry.region = entry.value.external.map fun bytes =>
      ⟨entry.block, bytes.length⟩ := rfl
  rw [writtenWorld, isRegion]
  cases isExternal : entry.value.external with
  | none =>
      rw [isExternal] at isBlock
      have noBlock : 0 = entry.block := Option.some.inj isBlock
      dsimp only
      rw [noBlock, isReq]
      apply (bind_ok rfl).trans
      rw [get_bind]
      apply (bind_ok (ofOption_eq isValued)).trans
      exact bind_ok (ofOption_eq isWritten)
  | some bytes =>
      rw [isExternal] at isBlock
      have short := entry.short bytes isExternal
      dsimp only at isBlock
      rw [if_pos short] at isBlock
      dsimp only
      rw [if_pos short, isBlock, isReq]
      apply (bind_ok rfl).trans
      rw [get_bind]
      apply (bind_ok (ofOption_eq isValued)).trans
      exact bind_ok (ofOption_eq isWritten)

/-- The exceptions that `set_property` throws when it has removed the old value. -/
def ListFailure.IsLate (failure : ListFailure) : Prop :=
  failure = .badAlloc ∨ failure = .notImplemented

theorem write_fails (req : 3 ≤ space.req) (enough : space.req ≤ space.size)
    (free : space.size ≤ space.pos.freeSpace world.mem)
    (isSized : (if space.req < space.size then
      space.pos.setSize world.mem space.size space.req else some world.mem) = some sized)
    (id : BitVec 16) (noBlock : offeredBlock value offer = none) :
    ∃ failure : ListFailure, failure.IsLate ∧ space.write newChunk id value offer world =
      .error failure (sizedWorld world sized space newChunk) := by
  rw [write_sized req enough free isSized]
  rw [offeredBlock] at noBlock
  cases isExternal : value.external with
  | none => rw [isExternal] at noBlock; exact nomatch noBlock
  | some bytes =>
      rw [isExternal] at noBlock
      dsimp only at noBlock ⊢
      split_ifs at noBlock ⊢ with short
      · rw [noBlock]
        exact ⟨.badAlloc, .inl rfl, rfl⟩
      · exact ⟨.notImplemented, .inr rfl, rfl⟩

end Writing

/-- A block for which there is room apart from the list and everything that was allocated. -/
def Offered (list size : Nat) (world : ListWorld) (length : Nat) (offer : Option Nat) : Prop :=
  ∀ start ∈ offer, 8 ≤ start ∧ start < 2 ^ 64 ∧
    ∀ region ∈ (⟨list, size⟩ : Region) :: world.allocated, Region.Apart ⟨start, length⟩ region

section WrittenLists

variable {list size count : Nat} {world : ListWorld} {chain before after : List PropertyChunk}
  {ref : PropertyRef} {chunk : PropertyChunk} {front back : List Slot} {entry : PropertyEntry}
  {space : PropertySpace} {newChunk : Bool} {sized : Memory}

theorem PlaceIn.regionFrom_has (place : PlaceIn chain ref before after chunk front back)
    {start length : Nat} (low : ref.address ≤ start)
    (high : start + length ≤ ref.chunk + chunk.size) {position : Nat}
    (has : Region.Has ⟨start, length⟩ position) : (chunk.regionFrom ref.offset).Has position := by
  have sameChunk : ref.chunk = chunk.address := by rw [place.isRef]; rfl
  have isAddress : ref.address = ref.chunk + ref.offset := rfl
  obtain ⟨fromStart, toEnd⟩ := has
  dsimp only at fromStart toEnd
  constructor
  · rw [PropertyChunk.regionFrom]
    dsimp only
    omega
  · rw [PropertyChunk.regionFrom]
    dsimp only
    omega

theorem logged_restores {fresh : List Region} {next : ListWorld}
    (isLog : next.log = (sizedWorld world sized space newChunk).log)
    (same : SameOutside (⟨space.pos.address, space.logSize⟩ :: fresh) world.mem next.mem)
    (inChunk : ∀ position, Region.Has ⟨space.pos.address, space.logSize⟩ position →
      chunk.region.Has position) :
    Restores (fresh ++ if newChunk then [chunk.region] else []) world next := by
  cases newChunk with
  | false =>
      have restores := Restores.of_logged isLog same
      exact restores.mono (List.subset_append_left _ _)
  | true =>
      have sameLog : next.log = world.log := isLog
      apply Restores.of_same sameLog
      apply same.mono
      rintro region (_ | ⟨_, later⟩) position has
      · exact ⟨chunk.region, List.mem_append_right _ List.mem_cons_self, inChunk position has⟩
      · exact ⟨region, List.mem_append_left _ later, has⟩

theorem ListHeld.resized (held : ListHeld list size world chain)
    (place : PlaceIn chain space.pos before after chunk front back)
    (enough : space.req ≤ space.size)
    (room : SpaceAt space.size chunk.size space.pos.offset back (headAddress after))
    (isSized : Sized world.mem sized space.pos chunk.size space.req back (headAddress after))
    (unchanged : ¬ space.req < space.size → sized = world.mem) :
    (∃ others, entriesOf others = entriesOf back ∧
      ListHeld list size (sizedWorld world sized space newChunk)
        (before ++ chunk.withSlots (front ++ others) :: after)) ∧
    Restores (if newChunk then [chunk.region] else []) world
      (sizedWorld world sized space newChunk) := by
  have rest := place.restAt held.held
  have isAddress : space.pos.address = space.pos.chunk + space.pos.offset := rfl
  have fits := room.fits
  have logged : space.req ≤ space.logSize ∧ space.logSize ≤ space.size := by
    rw [PropertySpace.logSize]
    split_ifs <;> omega
  have same : SameOutside [⟨space.pos.address, space.logSize⟩] world.mem sized := by
    intro position outside
    by_cases smaller : space.req < space.size
    · have isLogged : space.logSize = space.req + 1 := if_pos smaller
      apply isSized.same
      rintro rfl
      apply outside _ List.mem_cons_self
      constructor
      · exact Nat.le_add_right _ _
      · dsimp only
        omega
    · rw [unchanged smaller]
  have inChunk {position : Nat} (has : Region.Has ⟨space.pos.address, space.logSize⟩ position) :
      (chunk.regionFrom space.pos.offset).Has position :=
    place.regionFrom_has le_rfl (by omega) has
  obtain ⟨others, sameEntries, othersRest⟩ := isSized.whole
  constructor
  · refine ⟨others, sameEntries, ?_⟩
    have areEntries : chainEntries (before ++ chunk.withSlots (front ++ others) :: after) =
        chainEntries chain := by
      rw [entries_edit, sameEntries, place.entries]
    apply @ListHeld.edit _ _ _ (sizedWorld world sized space newChunk) _ _ _ _ _ _ _ _ _ [] held
      place _ held.apart rfl othersRest id (fun _ => .inl) (fun _ => areEntries ▸ .inl)
      (areEntries ▸ held.ids)
    · have balanced := chainRegions_edit place others
      rw [sameEntries] at balanced
      exact ((List.perm_append_left_iff _).mp balanced).append_left world.freed
    · apply same.mono
      rintro region (_ | ⟨_, ⟨⟩⟩) position has
      exact ⟨_, List.mem_cons_self, inChunk has⟩
  · have restores := @logged_restores world chunk space newChunk sized []
      (sizedWorld world sized space newChunk) rfl same
      fun position has => not_not.mp fun outside =>
        PropertyChunk.not_has_regionFrom outside (inChunk has)
    exact restores

theorem ListHeld.written (held : ListHeld list size world chain)
    (place : PlaceIn chain space.pos before after chunk front back) (isReq : space.req = entry.size)
    (enough : space.req ≤ space.size)
    (room : SpaceAt space.size chunk.size space.pos.offset back (headAddress after))
    (isSized : Sized world.mem sized space.pos chunk.size space.req back (headAddress after))
    (unchanged : ¬ space.req < space.size → sized = world.mem)
    (isNew : entry.id ∉ (chainEntries chain).map PropertyEntry.id)
    (offered : ∀ region ∈ entry.region, Offered list size world region.length (some region.start)) :
    (∃ leftover, entriesOf leftover = entriesOf back ∧
      ListHeld list size (writtenWorld world sized space newChunk entry)
        (before ++ chunk.withSlots (front ++ .used entry :: leftover) :: after)) ∧
    Restores (entry.region.toList ++ if newChunk then [chunk.region] else []) world
      (writtenWorld world sized space newChunk entry) := by
  have rest := place.restAt held.held
  have low := rest.inside
  have isAddress : space.pos.address = space.pos.chunk + space.pos.offset := rfl
  have sameChunk : space.pos.chunk = chunk.address := by rw [place.isRef]; rfl
  have fits := room.fits
  have logged : space.req ≤ space.logSize ∧ space.logSize ≤ space.size := by
    rw [PropertySpace.logSize]
    split_ifs <;> omega
  have isChunk : chunk ∈ chain := place.isChain ▸ List.mem_append_right _ List.mem_cons_self
  have apart (region : Region) (isRegion : region ∈ entry.region) : region.Apart chunk.region :=
    (offered region isRegion region.start rfl).2.2 _ (held.mem_regions
      (List.mem_append_left _ (List.mem_map_of_mem isChunk)))
  have fromChunk (region : Region) (isRegion : region ∈ entry.region) :
      region.start + region.length ≤ space.pos.chunk ∨
        space.pos.chunk + chunk.size ≤ region.start := by
    rw [sameChunk]
    exact apart region isRegion
  have same : SameOutside (⟨space.pos.address, space.logSize⟩ :: entry.region.toList) world.mem
      (writeEntry sized space.pos entry) := by
    intro position outside
    have notHere := outside _ List.mem_cons_self
    rw [Region.Has] at notHere
    dsimp only at notHere
    have sameSized : sized position = world.mem position := by
      by_cases smaller : space.req < space.size
      · have isLogged : space.logSize = space.req + 1 := if_pos smaller
        apply isSized.same
        omega
      · rw [unchanged smaller]
    rw [writeEntry_same (by omega), sameSized]
    intro region isRegion
    have notBlock := outside region (List.mem_cons_of_mem _ (Option.mem_toList.mpr isRegion))
    rw [Region.Has] at notBlock
    omega
  have inChunk {position : Nat} (has : Region.Has ⟨space.pos.address, space.logSize⟩ position) :
      (chunk.regionFrom space.pos.offset).Has position :=
    place.regionFrom_has le_rfl (by omega) has
  obtain ⟨leftover, sameEntries, leftoverRest⟩ := isSized.behind
  rw [isReq] at leftoverRest
  have newRest := leftoverRest.writeEntry low fromChunk
  constructor
  · refine ⟨leftover, sameEntries, ?_⟩
    have areEntries : (chainEntries (before ++
        chunk.withSlots (front ++ .used entry :: leftover) :: after)).Perm
          (entry :: chainEntries chain) := by
      rw [entries_edit, entriesOf_used, sameEntries, place.entries]
      exact List.perm_middle
    apply @ListHeld.edit _ _ _ (writtenWorld world sized space newChunk entry) _ _ _ _ _ _ _ _ _
      entry.region.toList held place _ _ rfl newRest id (fun _ => .inl)
    · intro other member
      rcases List.mem_cons.mp (areEntries.mem_iff.mp member) with rfl | old
      · right
        apply blockHeld_writeEntry
        intro region isRegion
        have notHere := fromChunk region isRegion
        have stop := newRest.stop_le
        rw [Layout.total_cons, slotLayout_size, Slot.size] at stop
        omega
      · exact .inl old
    · rw [(areEntries.map PropertyEntry.id).nodup_iff]
      exact List.nodup_cons.mpr ⟨isNew, held.ids⟩
    · have balanced := chainRegions_edit place (.used entry :: leftover)
      rw [entriesOf_used, entryRegions_cons, sameEntries] at balanced
      apply List.perm_iff_count.mpr
      intro region
      have counted := List.perm_iff_count.mp balanced region
      simp only [writtenWorld, sizedWorld, List.count_append] at counted ⊢
      omega
    · apply same.mono
      rintro region (_ | ⟨_, later⟩) position has
      · exact ⟨_, List.mem_cons_self, inChunk has⟩
      · exact ⟨region, List.mem_cons_of_mem _ later, has⟩
    · apply List.pairwise_append.mpr
      refine ⟨?_, held.apart, ?_⟩
      · cases entry.region with
        | none => exact List.Pairwise.nil
        | some region => exact List.pairwise_singleton _ _
      · intro region isRegion
        exact (offered region (Option.mem_toList.mp isRegion) region.start rfl).2.2
  · apply @logged_restores world chunk space newChunk sized _
      (writtenWorld world sized space newChunk entry) rfl same
    exact fun position has => not_not.mp fun outside =>
      PropertyChunk.not_has_regionFrom outside (inChunk has)

/-- `PropertySpace::set_property` in space that was found: an exception leaves the list as it is. -/
theorem ListHeld.write_ends {id : BitVec 16} {value : Property} {offer : Option Nat}
    (held : ListHeld list size world chain)
    (place : PlaceIn chain space.pos before after chunk front back)
    (isReq : space.req = getSpace value + 3) (enough : space.req ≤ space.size)
    (room : SpaceAt space.size chunk.size space.pos.offset back (headAddress after))
    (isNew : id ∉ (chainEntries chain).map PropertyEntry.id)
    (offered : ∀ bytes ∈ value.external, Offered list size world bytes.length offer) :
    EndsAs (space.write newChunk id value offer world)
      (fun _ next => ∃ entry leftover, entry.id = id ∧ entry.value = value ∧
        offeredBlock value offer = some entry.block ∧ entriesOf leftover = entriesOf back ∧
        ListHeld list size next
          (before ++ chunk.withSlots (front ++ .used entry :: leftover) :: after) ∧
        next.updates = world.updates ∧ next.allocated = entry.region.toList ++ world.allocated ∧
        Restores (entry.region.toList ++ if newChunk then [chunk.region] else []) world next)
      (fun failure next => failure.IsLate ∧ offeredBlock value offer = none ∧
        ∃ others, entriesOf others = entriesOf back ∧
        ListHeld list size next (before ++ chunk.withSlots (front ++ others) :: after) ∧
        next.updates = world.updates ∧ next.allocated = world.allocated ∧
        Restores (if newChunk then [chunk.region] else []) world next) := by
  have rest := place.restAt held.held
  have positive : 3 ≤ space.req := by omega
  obtain ⟨sized, isSized, sizes⟩ := exists_sized rest room (by omega) enough
  have free := room.le_freeSpace rest
  have unchanged : ¬ space.req < space.size → sized = world.mem := by
    intro exactly
    rw [if_neg exactly] at isSized
    exact (Option.some.inj isSized).symm
  cases isBlock : offeredBlock value offer with
  | none =>
      obtain ⟨failure, notAssertion, fails⟩ :=
        @write_fails world space newChunk value offer sized positive enough free isSized id isBlock
      rw [fails]
      obtain ⟨⟨others, sameEntries, listHeld⟩, restores⟩ :=
        @ListHeld.resized _ _ _ _ _ _ _ _ _ _ newChunk _ held place enough room sizes unchanged
      exact ⟨notAssertion, rfl, others, sameEntries, listHeld, rfl, rfl, restores⟩
  | some block =>
      have short : ∀ bytes ∈ value.external, bytes.length < 2 ^ 32 := by
        intro bytes isExternal
        rw [offeredBlock, Option.mem_def.mp isExternal] at isBlock
        by_contra long
        dsimp only at isBlock
        rw [if_neg long] at isBlock
        exact nomatch isBlock
      have isOffer (bytes : List UInt8) (isExternal : bytes ∈ value.external) :
          offer = some block := by
        rw [offeredBlock, Option.mem_def.mp isExternal] at isBlock
        dsimp only at isBlock
        rwa [if_pos (short bytes isExternal)] at isBlock
      have small : block < 2 ^ 64 := by
        cases isExternal : value.external with
        | none =>
            rw [offeredBlock, isExternal] at isBlock
            rw [← Option.some.inj isBlock]
            decide
        | some bytes => exact (offered bytes isExternal block (isOffer bytes isExternal)).2.1
      have isWritten := @write_eq world space newChunk ⟨id, value, block, short, small⟩ offer sized
        isReq enough free isSized (by
          have fits := room.fits
          have header := rest.header
          have same := sizes.same space.pos.chunk (by rw [PropertyRef.address]; omega)
          rw [PropertyRef.chunkSize, PropertyRef.chunkEnd] at header
          rw [PropertyRef.chunkEnd, same]
          omega) isBlock
      rw [isWritten]
      obtain ⟨⟨leftover, sameEntries, listHeld⟩, restores⟩ :=
        @ListHeld.written _ _ _ _ _ _ _ _ _ ⟨id, value, block, short, small⟩ _ newChunk _ held place
          isReq enough room sizes unchanged isNew (by
            intro region isRegion
            rw [PropertyEntry.region] at isRegion
            obtain ⟨bytes, isExternal, rfl⟩ := Option.map_eq_some_iff.mp isRegion
            have isOffered := offered bytes isExternal
            rwa [isOffer bytes isExternal] at isOffered)
      exact ⟨⟨id, value, block, short, small⟩, leftover, rfl, rfl, rfl, sameEntries, listHeld, rfl,
        rfl, restores⟩

end WrittenLists

end Pmgd
