import Pmgd.PropertyListSearch

/-!
# Property lists as maps

`set_property` and `remove_property` change the value of one id, keep the other entries in their
order, and tell the index the old and the new value.  An exception of the index manager leaves the
list as it was; when `set_property` throws later, it has removed the old value.
-/

namespace Pmgd

open ByteMemory RecordRun ThrowingState ListEdit

/-- The addresses that the allocator offers are apart from the list and from each other. -/
structure ListOffer.Fits (offer : ListOffer) (list size : Nat) (world : ListWorld)
    (value : Property) : Prop where
  chunk : Offered list size world PropertyList.chunkSize offer.chunk
  block : ∀ bytes ∈ value.external, Offered list size world bytes.length offer.block
  apart : ∀ bytes ∈ value.external, ∀ chunk ∈ offer.chunk, ∀ block ∈ offer.block,
    Region.Apart ⟨block, bytes.length⟩ ⟨chunk, PropertyList.chunkSize⟩

/-- The entries of other ids. -/
def othersOf (chain : List PropertyChunk) (id : BitVec 16) : List PropertyEntry :=
  (chainEntries chain).filter fun entry => entry.id ≠ id

/-- A list after a change, with the call of the index manager. -/
structure Changed (list size : Nat) (world next : ListWorld) (chain : List PropertyChunk)
    (calls : List IndexUpdate) (fresh : List Region) : Prop where
  held : ListHeld list size next chain
  updates : next.updates = world.updates ++ calls
  allocated : next.allocated = fresh ++ world.allocated
  restores : Restores fresh world next

section Changes

variable {list size : Nat} {world : ListWorld} {chain before after : List PropertyChunk}
  {ref : PropertyRef} {chunk : PropertyChunk} {front back : List Slot} {entry : PropertyEntry}
  {space : PropertySpace} {id : BitVec 16} {value : Property} {offer : ListOffer}

theorem Changed.refl (held : ListHeld list size world chain) :
    Changed list size world world chain [] [] :=
  ⟨held, (List.append_nil _).symm, rfl, Restores.refl _ _⟩

/-- A further change may write to the blocks that the first one has allocated. -/
theorem Changed.next {middle next : ListWorld} {others : List PropertyChunk}
    {calls more : List IndexUpdate} {fresh newer : List Region}
    (first : Changed list size world middle others calls fresh)
    (held : ListHeld list size next chain) (updates : next.updates = middle.updates ++ more)
    (allocated : next.allocated = newer ++ middle.allocated)
    (restores : Restores (newer ++ fresh) middle next) :
    Changed list size world next chain (calls ++ more) (newer ++ fresh) where
  held := held
  updates := by rw [updates, first.updates, List.append_assoc]
  allocated := by rw [allocated, first.allocated, List.append_assoc]
  restores := (first.restores.mono (List.subset_append_right _ _)).trans restores

theorem Changed.trans {middle next : ListWorld} {others : List PropertyChunk}
    {calls : List IndexUpdate} {fresh : List Region}
    (first : Changed list size world middle others calls [])
    (second : Changed list size middle next chain [] fresh) :
    Changed list size world next chain calls fresh := by
  have both := first.next second.held second.updates second.allocated
    (second.restores.mono (List.subset_append_left _ _))
  rwa [List.append_nil, List.append_nil] at both

/-- The part of `set_property` behind the removal of the old value. -/
theorem ListHeld.place_ends {pos : PropertyRef} (held : ListHeld list size world chain)
    (isReq : space.req = getSpace value + 3)
    (noted : space.size ≠ 0 → space.req ≤ space.size ∧ ∃ chunk, Room chain space chunk)
    (from' : space.size = 0 →
      ∃ before after chunk front back, PlaceIn chain pos before after chunk front back)
    (isNew : id ∉ (chainEntries chain).map PropertyEntry.id)
    (fits : offer.Fits list size world value) :
    EndsAs ((do
        let (space, newChunk) ← PropertyList.findPlace space pos offer.chunk
        space.write newChunk id value offer.block : ListEdit Unit) world)
      (fun _ next => ∃ grown fresh front entry back, entry.id = id ∧ entry.value = value ∧
        chainEntries chain = front ++ back ∧ chainEntries grown = front ++ entry :: back ∧
        Changed list size world next grown [] fresh)
      (fun failure next => failure.IsLate ∧ ∃ grown fresh,
        chainEntries grown = chainEntries chain ∧ Changed list size world next grown [] fresh) := by
  have small := getSpace_le value
  apply EndsAs.bind ((held.findPlace_ends (by omega) (by omega) noted from' fits.chunk).mono
    (fun _ _ result => result) _)
  · rintro ⟨found, newChunk⟩ middle ⟨grown, chunk, fresh, result⟩
    obtain ⟨before, after, front, back, place, room⟩ := result.room
    have first : Changed list size world middle grown [] fresh :=
      ⟨result.held, by rw [result.updates, List.append_nil], result.allocated, result.restores⟩
    have offered : ∀ bytes ∈ value.external,
        Offered list size middle bytes.length offer.block := by
      intro bytes isExternal start isBlock
      obtain ⟨isAddress, pointer, apart⟩ := fits.block bytes isExternal start isBlock
      refine ⟨isAddress, pointer, ?_⟩
      rw [result.allocated]
      intro region member
      rcases List.mem_cons.mp member with rfl | member
      · exact apart _ List.mem_cons_self
      · rcases List.mem_append.mp member with new | old
        · obtain ⟨chunkStart, isChunk, rfl⟩ := result.offered region new
          exact fits.apart bytes isExternal chunkStart isChunk start isBlock
        · exact apart region (List.mem_cons_of_mem _ old)
    have freshChunk : (if newChunk then [chunk.region] else []) ⊆ fresh := by
      split_ifs with isTrue
      · exact List.cons_subset.mpr ⟨result.new isTrue, List.nil_subset _⟩
      · exact List.nil_subset _
    have isNew' : id ∉ (chainEntries grown).map PropertyEntry.id := result.entries ▸ isNew
    have written := @ListHeld.write_ends _ _ _ _ _ _ _ _ _ found newChunk _ _ _ result.held place
      (result.req.trans isReq) (result.req.trans_le result.enough) room isNew' offered
    have areEntries := place.entries
    apply written.mono
    · rintro ⟨⟩ next ⟨entry, leftover, isId, isValue, -, sameEntries, nextHeld, sameUpdates,
        isAllocated, restores⟩
      refine ⟨_, _, chainEntries before ++ entriesOf front, entry,
        entriesOf back ++ chainEntries after, isId, isValue, ?_, ?_,
        first.next nextHeld (by rw [sameUpdates, List.append_nil]) isAllocated
          (restores.mono (List.append_subset.mpr
            ⟨List.subset_append_left _ _, List.subset_append_of_subset_right _ freshChunk⟩))⟩
      · rw [← result.entries, areEntries]
      · rw [entries_edit, entriesOf_used, sameEntries, List.cons_append]
    · rintro failure next ⟨isLate, -, others, sameEntries, nextHeld, sameUpdates, isAllocated,
        restores⟩
      have second : next.updates = middle.updates ++ [] := by rw [sameUpdates, List.append_nil]
      refine ⟨isLate, _, _, ?_, @Changed.next _ _ _ _ _ _ _ _ _ _ [] first nextHeld second
        isAllocated (restores.mono freshChunk)⟩
      rw [← result.entries, areEntries, entries_edit, sameEntries]
  · rintro failure next ⟨rfl, rfl⟩
    exact ⟨.inl rfl, chain, [], rfl, held, (List.append_nil _).symm, rfl, Restores.refl _ _⟩

/-- The entries in front of and behind the only one with an id. -/
theorem othersOf_eq (held : ListHeld list size world chain)
    (place : PlaceIn chain ref before after chunk front (.used entry :: back)) :
    othersOf chain entry.id = chainEntries before ++ entriesOf front ++
        (entriesOf back ++ chainEntries after) ∧
      lookup (chainEntries chain) entry.id = some entry.value := by
  have ids := held.ids
  have perm : (chainEntries chain).Perm (entry :: (chainEntries before ++ entriesOf front ++
      (entriesOf back ++ chainEntries after))) := by
    rw [place.entries, entriesOf_used]
    exact List.perm_middle
  have missing := (List.nodup_cons.mp ((perm.map PropertyEntry.id).nodup_iff.mp ids)).1
  constructor
  · have kept (entries : List PropertyEntry) (subset : ∀ other ∈ entries,
        other ∈ chainEntries before ++ entriesOf front ++ (entriesOf back ++ chainEntries after)) :
        entries.filter (fun other => other.id ≠ entry.id) = entries := by
      apply List.filter_eq_self.mpr
      intro other member
      apply decide_eq_true
      intro same
      exact missing (List.mem_map.mpr ⟨other, subset other member, same⟩)
    have isDropped : (entry :: (entriesOf back ++ chainEntries after)).filter
        (fun other => other.id ≠ entry.id) =
          (entriesOf back ++ chainEntries after).filter fun other => other.id ≠ entry.id := by
      rw [List.filter_cons]
      simp
    rw [othersOf, place.entries, entriesOf_used, List.cons_append, List.filter_append, isDropped,
      kept _ fun _ => List.mem_append_left _, kept _ fun _ => List.mem_append_right _]
  · rw [lookup_perm ids perm, lookup_cons, Function.update_self]

theorem othersOf_of_missing (missing : ∀ entry ∈ chainEntries chain, entry.id ≠ id) :
    othersOf chain id = chainEntries chain ∧ lookup (chainEntries chain) id = none := by
  constructor
  · exact List.filter_eq_self.mpr fun entry member => decide_eq_true (missing entry member)
  · apply lookup_eq_none
    intro member
    obtain ⟨entry, isEntry, isId⟩ := List.mem_map.mp member
    exact missing entry isEntry isId

theorem not_mem_othersOf (chain : List PropertyChunk) (id : BitVec 16) :
    id ∉ (othersOf chain id).map PropertyEntry.id := by
  intro member
  obtain ⟨entry, isEntry, isId⟩ := List.mem_map.mp member
  exact of_decide_eq_true (List.mem_filter.mp isEntry).2 isId

/-- The removal of the entry that a search has found. -/
theorem ListHeld.drop (held : ListHeld list size world chain)
    (place : PlaceIn chain ref before after chunk front (.used entry :: back)) (call : IndexUpdate) :
    ∃ next, ref.free { world with updates := world.updates ++ [call] } = .ok () next ∧
      chainEntries (freedChain before after chunk front back entry) = othersOf chain entry.id ∧
      Changed list size world next (freedChain before after chunk front back entry) [call] [] ∧
      (world.iterators.mapM fun iterator => iterator.notify world.mem world.rounds ref.chunk
        ref.offset) = some next.iterators := by
  have called : ListHeld list size { world with updates := world.updates ++ [call] } chain :=
    held.of_same rfl rfl rfl
  obtain ⟨iterators, notified, isFreed⟩ := called.free_eq place
  obtain ⟨nextHeld, restores⟩ := called.freed place iterators
  refine ⟨_, isFreed, ?_, ⟨nextHeld, rfl, rfl, ?_⟩, notified⟩
  · rw [freedChain, entries_edit, entriesOf_freedSlots, (othersOf_eq held place).1]
  · exact (Restores.of_same rfl fun _ _ => rfl).trans restores

/-- `set_property`: the new entry is among the others, or the old one is gone. -/
theorem ListHeld.setProperty_ends (held : ListHeld list size world chain)
    (fits : offer.Fits list size world value) :
    EndsAs (PropertyList.setProperty list id value offer world)
      (fun _ next => ∃ grown fresh front entry back, entry.id = id ∧ entry.value = value ∧
        othersOf chain id = front ++ back ∧ chainEntries grown = front ++ entry :: back ∧
        Changed list size world next grown
          [⟨id, lookup (chainEntries chain) id, some value⟩] fresh)
      (fun failure next => failure = .indexManager ∧ next = world ∨
        failure.IsLate ∧ ∃ grown fresh,
          chainEntries grown = othersOf chain id ∧ Changed list size world next grown
            [⟨id, lookup (chainEntries chain) id, some value⟩] fresh) := by
  obtain ⟨last, start, ⟨lastBefore, lastChunk, atEnd⟩, isFound⟩ :=
    held.find_eq id (getSpace value + 3) true
  rw [PropertyList.setProperty, bind_ok isFound]
  have noted := @lookFor_space world.mem id last _ (chainPlaces chain)
    ⟨⟨getSpace value + 3, 0, start⟩, true⟩ (List.Subset.refl _) (.inl rfl)
  have found := @lookFor_true world.mem id last (chainPlaces chain)
    ⟨⟨getSpace value + 3, 0, start⟩, true⟩
  have missing := @lookFor_false world.mem id last (chainPlaces chain)
    ⟨⟨getSpace value + 3, 0, start⟩, true⟩
  generalize lookFor world.mem id last (chainPlaces chain)
    ⟨⟨getSpace value + 3, 0, start⟩, true⟩ = search at noted found missing ⊢
  obtain ⟨isReq, noted⟩ := noted
  cases isFound : search.found with
  | true =>
      obtain ⟨entry, rfl, member⟩ := found isFound
      obtain ⟨before, after, chunk, front, back, place⟩ := chainPlaces_split member
      obtain ⟨areOthers, isOld⟩ := othersOf_eq held place
      obtain ⟨next, isFreed, sameEntries, changed, -⟩ := held.drop place
        ⟨entry.id, some entry.value, some value⟩
      rw [if_pos rfl, get_bind]
      apply EndsAs.bind_ok (ofOption_eq (held.getValue_eq place))
      cases fails : offer.updateFails with
      | true => exact .inl ⟨rfl, rfl⟩
      | false =>
      apply EndsAs.bind_ok rfl
      apply EndsAs.bind_ok isFreed
      have isNew : entry.id ∉ (chainEntries (freedChain before after chunk front back entry)).map
          PropertyEntry.id := sameEntries ▸ not_mem_othersOf chain entry.id
      have nextFits : offer.Fits list size next value := by
        have sameAllocated : next.allocated = world.allocated := changed.allocated
        exact ⟨by rw [Offered, sameAllocated]; exact fits.chunk,
          by simp only [Offered, sameAllocated]; exact fits.block, fits.apart⟩
      have placed := @ListHeld.place_ends _ _ _ _ _ entry.id _ _ search.ref changed.held isReq
        (by
          intro something
          rcases noted with nothing | spotted
          · exact absurd nothing something
          · obtain ⟨last, member⟩ := spotted.member
            obtain ⟨before', after', chunk', front', back', place'⟩ := chainPlaces_split member
            refine ⟨spotted.enough, Room.freed place' ?_ place⟩
            exact spotted.isFree ▸ spaceAt_freeSpace (place'.restAt held.held))
        (fun _ => ⟨before, after, chunk.withSlots (front ++ freedSlots entry back (headAddress after)),
          front, _, rfl, rfl, place.isRef⟩) isNew nextFits
      apply placed.mono
      · rintro ⟨⟩ last ⟨grown, fresh, front', new, back', isId, isValue, areOthers', areEntries,
          placedChange⟩
        refine ⟨grown, fresh, front', new, back', isId, isValue, ?_, areEntries, ?_⟩
        · rw [← areOthers', sameEntries]
        · rw [isOld]
          exact changed.trans placedChange
      · rintro failure last ⟨isLate, grown, fresh, areEntries, placedChange⟩
        refine .inr ⟨isLate, grown, fresh, areEntries.trans sameEntries, ?_⟩
        rw [isOld]
        exact changed.trans placedChange
  | false =>
      obtain ⟨isLast, others⟩ := missing isFound
      rw [entries_of_chainPlaces] at others
      obtain ⟨areOthers, isOld⟩ := othersOf_of_missing others
      have called : Changed list size world
          { world with updates := world.updates ++ [⟨id, none, some value⟩] } chain
          [⟨id, none, some value⟩] [] :=
        ⟨held.of_same rfl rfl rfl, rfl, rfl, Restores.of_same rfl fun _ _ => rfl⟩
      rw [if_neg Bool.false_ne_true]
      cases fails : offer.updateFails with
      | true => exact .inl ⟨rfl, rfl⟩
      | false =>
      apply EndsAs.bind_ok rfl
      have isNew := not_mem_othersOf chain id
      rw [areOthers] at isNew
      have placed := @ListHeld.place_ends _ _ _ _ _ id _ _ search.ref called.held isReq
        (by
          intro something
          rcases noted with nothing | spotted
          · exact absurd nothing something
          · obtain ⟨last, member⟩ := spotted.member
            obtain ⟨before', after', chunk', front', back', place'⟩ := chainPlaces_split member
            exact ⟨spotted.enough, chunk', place'.room held spotted.isFree⟩)
        (fun _ => ⟨lastBefore, [], lastChunk, _, _, isLast ▸ atEnd⟩) isNew
        ⟨fits.chunk, fits.block, fits.apart⟩
      apply placed.mono
      · rintro ⟨⟩ last ⟨grown, fresh, front', new, back', isId, isValue, areOthers', areEntries,
          placedChange⟩
        refine ⟨grown, fresh, front', new, back', isId, isValue, ?_, areEntries, ?_⟩
        · rw [← areOthers', areOthers]
        · rw [isOld]
          exact called.trans placedChange
      · rintro failure last ⟨isLate, grown, fresh, areEntries, placedChange⟩
        refine .inr ⟨isLate, grown, fresh, areEntries.trans areOthers.symm, ?_⟩
        rw [isOld]
        exact called.trans placedChange

/-- `remove_property` finds the property and notifies the iterators, or changes nothing. -/
theorem ListHeld.removeProperty_cases (held : ListHeld list size world chain) (id : BitVec 16) :
    (∃ ref before after chunk front entry back next, entry.id = id ∧
      PlaceIn chain ref before after chunk front (.used entry :: back) ∧
      PropertyList.removeProperty list id world = .ok () next ∧
      chainEntries (freedChain before after chunk front back entry) = othersOf chain id ∧
      Changed list size world next (freedChain before after chunk front back entry)
        [⟨id, some entry.value, none⟩] [] ∧
      (world.iterators.mapM fun iterator => iterator.notify world.mem world.rounds ref.chunk
        ref.offset) = some next.iterators) ∨
    (∀ entry ∈ chainEntries chain, entry.id ≠ id) ∧
      PropertyList.removeProperty list id world = .ok () world := by
  obtain ⟨last, start, -, isFound⟩ := held.find_eq id 0 false
  rw [PropertyList.removeProperty, bind_ok isFound]
  have found := @lookFor_true world.mem id last (chainPlaces chain) ⟨⟨0, 0, start⟩, false⟩
  have missing := @lookFor_false world.mem id last (chainPlaces chain) ⟨⟨0, 0, start⟩, false⟩
  generalize lookFor world.mem id last (chainPlaces chain) ⟨⟨0, 0, start⟩, false⟩ = search
    at found missing ⊢
  cases isFound : search.found with
  | true =>
      obtain ⟨entry, rfl, member⟩ := found isFound
      obtain ⟨before, after, chunk, front, back, place⟩ := chainPlaces_split member
      obtain ⟨next, isFreed, sameEntries, changed, notified⟩ := held.drop place
        ⟨entry.id, some entry.value, none⟩
      refine .inl ⟨search.ref, before, after, chunk, front, entry, back, next, rfl, place, ?_,
        sameEntries, changed, notified⟩
      rw [if_pos rfl, get_bind, bind_ok (ofOption_eq (held.getValue_eq place))]
      exact (bind_ok rfl).trans isFreed
  | false =>
      obtain ⟨-, others⟩ := missing isFound
      rw [entries_of_chainPlaces] at others
      exact .inr ⟨others, rfl⟩

/-- `remove_property`: the index is told the old value, if there was one. -/
theorem ListHeld.removeProperty_eq (held : ListHeld list size world chain) (id : BitVec 16) :
    ∃ next rest, PropertyList.removeProperty list id world = .ok () next ∧
      chainEntries rest = othersOf chain id ∧ Changed list size world next rest
        ((lookup (chainEntries chain) id).map fun old => ⟨id, some old, none⟩).toList [] := by
  rcases held.removeProperty_cases id with
    ⟨ref, before, after, chunk, front, entry, back, next, rfl, place, isRemoved, sameEntries,
      changed, -⟩ | ⟨others, isSame⟩
  · refine ⟨next, _, isRemoved, sameEntries, ?_⟩
    rw [(othersOf_eq held place).2]
    exact changed
  · obtain ⟨areOthers, isOld⟩ := othersOf_of_missing others
    refine ⟨world, chain, isSame, areOthers.symm, ?_⟩
    rw [isOld]
    exact .refl held

end Changes

/-! ## Removing all properties -/

/-- The calls of the index manager for removed entries; blobs have no index. -/
def dropCalls (entries : List PropertyEntry) : List IndexUpdate :=
  entries.filterMap fun entry =>
    match entry.value with
    | .blob _ => none
    | value => some ⟨entry.id, some value, none⟩

def Property.isBlob : Property → Bool
  | .blob _ => true
  | _ => false

theorem dropCalls_eq (entries : List PropertyEntry) :
    dropCalls entries = (entries.filter fun entry => !entry.value.isBlob).map fun entry =>
      ⟨entry.id, some entry.value, none⟩ := by
  induction entries with
  | nil => rfl
  | cons entry entries ih =>
      rw [dropCalls, List.filterMap_cons, ← dropCalls, ih]
      obtain ⟨id, value, block, short, blockLt⟩ := entry
      cases value <;> rfl

/-- Entries and chunks that are dropped, without a change of memory. -/
structure Drops (world next : ListWorld) (entries : List PropertyEntry) (chunks : List Region) :
    Prop where
  mem : next.mem = world.mem
  log : next.log = world.log
  allocated : next.allocated = world.allocated
  updates : next.updates = world.updates ++ dropCalls entries
  freed : next.freed.Perm (chunks ++ entryRegions entries ++ world.freed)

section Dropping

variable {list size rounds : Nat} {world middle next : ListWorld}
  {chain before after : List PropertyChunk} {ref : PropertyRef} {chunk : PropertyChunk}
  {front back slots : List Slot} {entry : PropertyEntry} {first : Bool}

theorem Drops.refl (world : ListWorld) : Drops world world [] [] :=
  ⟨rfl, rfl, rfl, (List.append_nil _).symm, List.Perm.refl _⟩

theorem Drops.trans {entries others : List PropertyEntry} {chunks more : List Region}
    (first : Drops world middle entries chunks) (second : Drops middle next others more) :
    Drops world next (entries ++ others) (chunks ++ more) where
  mem := second.mem.trans first.mem
  log := second.log.trans first.log
  allocated := second.allocated.trans first.allocated
  updates := by
    rw [second.updates, first.updates, List.append_assoc, dropCalls, dropCalls, dropCalls,
      List.filterMap_append]
  freed := by
    apply second.freed.trans
    apply List.perm_iff_count.mpr
    intro region
    have counted := List.perm_iff_count.mp first.freed region
    simp only [entryRegions_append, List.count_append] at counted ⊢
    omega

/-- The world after `remove_all_properties` has passed an entry. -/
def droppedWorld (world : ListWorld) (entry : PropertyEntry) : ListWorld :=
  { world with
    updates := world.updates ++ dropCalls [entry]
    freed := entry.region.toList ++ world.freed }

theorem drops_entry (world : ListWorld) (entry : PropertyEntry) :
    Drops world (droppedWorld world entry) [entry] [] := by
  refine ⟨rfl, rfl, rfl, rfl, ?_⟩
  rw [List.nil_append, entryRegions_cons]
  simp [droppedWorld, entryRegions]

/-- One round at a property. -/
theorem removeAll_used (held : ListHeld list size world chain)
    (place : PlaceIn chain ref before after chunk front (.used entry :: back))
    (sameMem : middle.mem = world.mem) :
    PropertyList.removeAll (rounds + 1) ref first middle =
      PropertyList.removeAll rounds (ref.advance entry.size) first (droppedWorld middle entry) := by
  have rest := place.restAt held.held
  have isValue := held.getValue_eq place
  have isId := PropertyRef.getId_used rest.held
  have isRegion := PropertyRef.blob_used rest.held
  have isType := PropertyRef.ptype_used rest.held
  rw [PropertyList.removeAll, get_bind, sameMem, if_pos rest.notDone_cons, isType, rest.skip_eq]
  rw [isType] at isRegion
  have drop : PropertyList.dropProperty ref world.mem middle =
      .ok () { middle with updates := middle.updates ++ [⟨entry.id, some entry.value, none⟩] } := by
    rw [PropertyList.dropProperty, bind_ok (ofOption_eq isId), bind_ok (ofOption_eq isValue)]
    rfl
  rw [droppedWorld, isRegion]
  obtain ⟨id, value, block, short, blockLt⟩ := entry
  cases value with
  | string v =>
      by_cases inside : v.length ≤ 13
      · have isShort : (Property.string v).entryType = .string := if_pos inside
        simp only [isShort]
        exact bind_ok drop
      · have isLong : (Property.string v).entryType = .stringPtr := if_neg inside
        simp only [isLong]
        exact bind_ok drop
  | blob v =>
      have noCall : dropCalls [⟨id, .blob v, block, short, blockLt⟩] = [] := rfl
      rw [noCall, List.append_nil]
      rfl
  | boolean v =>
      cases v with
      | false => exact bind_ok drop
      | true => exact bind_ok drop
  | noValue | integer v | float v | time v => exact bind_ok drop

/-- The rounds in a chunk. -/
theorem removeAll_slots (held : ListHeld list size world chain)
    (place : PlaceIn chain ref before after chunk front slots) (sameMem : middle.mem = world.mem) :
    ∃ next, PropertyList.removeAll (slots.length + rounds) ref first middle =
        PropertyList.removeAll rounds (ref.advance (slotLayout.total slots)) first next ∧
      Drops middle next (entriesOf slots) [] := by
  induction slots generalizing ref front middle with
  | nil => exact ⟨middle, by rw [List.length_nil, Nat.zero_add]; rfl, Drops.refl middle⟩
  | cons slot slots ih =>
      have rest := place.restAt held.held
      have isLater : (ref.advance slot.size).advance (slotLayout.total slots) =
          ref.advance (slotLayout.total (slot :: slots)) := PropertyRef.advance_advance _ _
      rw [List.length_cons, Nat.add_right_comm]
      cases slot with
      | unused last =>
          obtain ⟨next, isNext, drops⟩ := ih place.next sameMem
          refine ⟨next, ?_, drops⟩
          rw [PropertyList.removeAll, get_bind, sameMem, if_pos rest.notDone_cons,
            PropertyRef.ptype_unused rest.held, rest.skip_eq, ← isLater]
          exact isNext
      | used entry =>
          have dropped := drops_entry middle entry
          obtain ⟨next, isNext, drops⟩ := ih place.next (dropped.mem.trans sameMem)
          refine ⟨next, ?_, dropped.trans drops⟩
          rw [removeAll_used held place sameMem, ← isLater]
          exact isNext

theorem notify_start (world : ListWorld) (chunk : Nat) :
    ∃ iterators, notify chunk 0 world = .ok () { world with iterators } := by
  obtain ⟨iterators, notified⟩ := @exists_notified world.mem world.rounds world.iterators chunk 0
    (by
      intro iterator
      rw [PropertyListIterator.notify]
      cases iterator.cur with
      | none => exact ⟨_, rfl⟩
      | some cur =>
          dsimp only
          rw [if_pos rfl]
          split_ifs
          · exact ⟨_, rfl⟩
          · exact ⟨_, rfl⟩)
  exact ⟨iterators, notify_eq notified⟩

/-- The rounds up to the end of a chunk. -/
theorem removeAll_chunk (held : ListHeld list size world chain)
    (isChain : chain = before ++ chunk :: after) (sameMem : middle.mem = world.mem)
    (enough : chainBytes (chunk :: after) ≤ rounds) :
    ∃ left passed, chainBytes after ≤ left ∧
      PropertyList.removeAll rounds (chunk.refAt 1) first middle =
        PropertyList.removeAll (left + 1) (chunk.refAt (1 + slotLayout.total chunk.slots)) first
          passed ∧
      Drops middle passed (entriesOf chunk.slots) [] ∧
      RestAt passed.mem (chunk.refAt (1 + slotLayout.total chunk.slots)) chunk.size []
        (headAddress after) := by
  have place : PlaceIn chain (chunk.refAt 1) before after chunk [] chunk.slots :=
    ⟨isChain, rfl, rfl⟩
  have rest := place.restAt held.held
  have few := @Layout.length_le_total _ slotLayout chunk.slots
  have stop := rest.stop_le
  have isOffset : (chunk.refAt 1).offset = 1 := rfl
  have areBytes : chainBytes (chunk :: after) = chunk.size + chainBytes after := rfl
  obtain ⟨left, rfl⟩ : ∃ left, rounds = chunk.slots.length + (left + 1) :=
    ⟨rounds - chunk.slots.length - 1, by omega⟩
  obtain ⟨passed, isPassed, drops⟩ := @removeAll_slots _ _ (left + 1) _ _ _ _ _ _ _ _ _ first
    held place sameMem
  refine ⟨left, passed, by omega, isPassed, drops, ?_⟩
  rw [drops.mem, sameMem]
  exact RestAt.advance (by rwa [List.append_nil])

/-- The region of a chunk that was added to a list. -/
def addedRegion (first : Bool) (chunk : PropertyChunk) : List Region :=
  if first then [] else [chunk.region]

/-- The rounds from a chunk on: all chunks but the last one are freed, unless it is the first. -/
theorem removeAll_chain (held : ListHeld list size world chain)
    (isChain : chain = before ++ chunk :: after)
    (isSize : first = false → chunk.size = PropertyList.chunkSize)
    (areSizes : ∀ later ∈ after, later.size = PropertyList.chunkSize)
    (sameMem : middle.mem = world.mem) (enough : chainBytes (chunk :: after) ≤ rounds) :
    ∃ last next chunks, PropertyList.removeAll rounds (chunk.refAt 1) first middle =
        .ok (last.address, first && after.isEmpty) next ∧
      ((first && after.isEmpty) = false → last.size = PropertyList.chunkSize) ∧
      Drops middle next (chainEntries (chunk :: after)) chunks ∧
      (addedRegion first chunk ++ after.map PropertyChunk.region).Perm
        (chunks ++ addedRegion (first && after.isEmpty) last) := by
  induction after generalizing before chunk first middle rounds with
  | nil =>
      obtain ⟨left, passed, -, isPassed, drops, atEnd⟩ :=
        @removeAll_chunk _ _ _ _ _ _ _ _ _ first held isChain sameMem enough
      have noEntries : chainEntries [chunk] = entriesOf chunk.slots := List.append_nil _
      refine ⟨chunk, passed, [], ?_, ?_, noEntries ▸ drops, ?_⟩
      · rw [isPassed, PropertyList.removeAll, get_bind, if_neg atEnd.done, List.isEmpty_nil,
          Bool.and_true]
        rfl
      · rw [List.isEmpty_nil, Bool.and_true]
        exact isSize
      · rw [List.isEmpty_nil, Bool.and_true]
        exact List.perm_append_comm
  | cons following after ih =>
      obtain ⟨left, passed, few, isPassed, drops, atEnd⟩ :=
        @removeAll_chunk _ _ _ _ _ _ _ _ _ first held isChain sameMem enough
      obtain ⟨notDone, isLink, _, isNext⟩ := atEnd.link_eq
      obtain ⟨iterators, notified⟩ := notify_start passed chunk.address
      have linkDrops : Drops passed { passed with
          iterators, freed := addedRegion first chunk ++ passed.freed } [] (addedRegion first chunk) := by
        refine ⟨rfl, rfl, rfl, (List.append_nil _).symm, ?_⟩
        rw [entryRegions, List.filterMap_nil, List.append_nil]
      have both := drops.trans linkDrops
      obtain ⟨last, next, chunks, isRemoved, isLast, others, regions⟩ :=
        @ih left _ (before ++ [chunk]) following false (isChain.trans (List.append_cons _ _ _))
          (fun _ => areSizes following List.mem_cons_self)
          (fun later member => areSizes later (List.mem_cons_of_mem _ member))
          (both.mem.trans sameMem) few
      have all := both.trans others
      rw [List.append_nil, List.nil_append] at all
      refine ⟨last, next, addedRegion first chunk ++ chunks, ?_, ?_, all, ?_⟩
      · rw [isPassed, PropertyList.removeAll, get_bind, if_pos notDone, isLink]
        dsimp only
        apply (bind_ok (ofOption_eq isNext)).trans
        apply (bind_ok notified).trans
        rw [List.isEmpty_cons, Bool.and_false]
        cases first with
        | true => exact (bind_ok rfl).trans isRemoved
        | false =>
            have isRegion : chunk.region = ⟨chunk.address, PropertyList.chunkSize⟩ :=
              congrArg (Region.mk chunk.address) (isSize rfl)
            rw [addedRegion, isRegion] at isRemoved
            exact (bind_ok rfl).trans isRemoved
      · rw [List.isEmpty_cons, Bool.and_false]
        exact isLast
      · rw [List.isEmpty_cons, Bool.and_false, List.append_assoc]
        exact regions.append_left _

/-- `remove_all_properties` frees all blocks and all added chunks, and leaves an empty first
chunk. -/
theorem ListHeld.removeAllProperties_eq (held : ListHeld list size world chain) :
    ∃ next emptied, PropertyList.removeAllProperties list world = .ok () next ∧
      chainEntries emptied = [] ∧
      Changed list size world next emptied (dropCalls (chainEntries chain)) [] ∧
      next.freed.Perm (chain.tail.map PropertyChunk.region ++
        entryRegions (chainEntries chain) ++ world.freed) := by
  obtain ⟨first, rest, rfl, rfl, rfl⟩ := held.exists_head
  obtain ⟨last, passed, chunks, isRemoved, isLast, drops, regions⟩ :=
    @removeAll_chain _ _ world.rounds _ world _ [] rest first true held rfl nofun held.added rfl
      held.chainBytes_le
  obtain ⟨iterators, notified⟩ := notify_start passed last.address
  have isStart : PropertyRef.first first.address = some (first.refAt 1) := dif_pos first.address_ge
  have sameMem := drops.mem
  have sameFreed : (addedRegion (true && rest.isEmpty) last ++ passed.freed).Perm
      (rest.map PropertyChunk.region ++ entryRegions (chainEntries (first :: rest)) ++
        world.freed) := by
    apply List.perm_iff_count.mpr
    intro region
    have counted := List.perm_iff_count.mp drops.freed region
    have added := List.perm_iff_count.mp regions region
    have noFirst : addedRegion true first = [] := rfl
    rw [noFirst, List.nil_append] at added
    simp only [List.count_append] at counted added ⊢
    omega
  have low := first.size_ge
  have isDone : store passed.mem (first.address + 1) [UInt8.ofNat EntryType.done.code]
      (first.address + 1) = UInt8.ofNat EntryType.done.code :=
    @store_inside passed.mem (first.address + 1) [_] 0 (by simp)
  refine ⟨{ passed with
      iterators
      freed := addedRegion (true && rest.isEmpty) last ++ passed.freed
      log := passed.log ++ [UndoLog.snapshot (fun address => first.address + 1 ≤ address ∧
        address < first.address + 1 + 1) passed.mem]
      mem := store passed.mem (first.address + 1) [UInt8.ofNat EntryType.done.code] },
    [first.withSlots []], ?_, rfl, ⟨⟨⟨?_, trivial⟩, rfl, nofun, nofun, List.nodup_nil, ?_, ?_⟩,
      drops.updates, drops.allocated, ?_⟩, sameFreed⟩
  · rw [PropertyList.removeAllProperties, get_bind, isStart]
    apply (bind_ok rfl).trans
    apply (bind_ok isRemoved).trans
    apply (bind_ok notified).trans
    cases isOnly : true && rest.isEmpty with
    | true => rfl
    | false =>
        have isRegion : last.region = ⟨last.address, PropertyList.chunkSize⟩ :=
          congrArg (Region.mk last.address) (isLast isOnly)
        rw [addedRegion, isRegion]
        rfl
  · have header := held.held.1.header
    have short : 1 ≤ first.size := by omega
    refine ⟨le_rfl, ?_, trivial, short, fun _ => isDone⟩
    have sameHeader : store passed.mem (first.address + 1) [UInt8.ofNat EntryType.done.code]
        first.address = world.mem first.address := by
      rw [store_outside (by omega), sameMem]
    exact (congrArg (fun byte => byte.toNat + 1) sameHeader).trans header
  · rw [drops.allocated]
    exact held.apart
  · rw [drops.allocated]
    apply held.balance.trans
    apply List.perm_iff_count.mpr
    intro region
    have counted := List.perm_iff_count.mp sameFreed region
    have isEmptied : chainRegions [first.withSlots []] = [first.region] := rfl
    rw [isEmptied]
    simp only [chainRegions, List.map_cons, List.count_append, List.count_cons, List.count_nil]
      at counted ⊢
    omega
  · have sameDropped : Restores [] world passed := Restores.of_same drops.log fun _ _ => by rw [sameMem]
    apply sameDropped.trans
    apply Restores.of_logged rfl
    intro position outside
    have notHere := outside _ List.mem_cons_self
    rw [Region.Has] at notHere
    apply store_outside
    rw [List.length_singleton]
    dsimp only at notHere
    omega

end Dropping

end Pmgd
