import Pmgd.PropertyListGrowth

/-!
# Searches of a property list

The search for a property finds the only entry with its id, and on its way it notes space that is
large enough.  `check_property` reads the value of the entry.  When no space was noted before the
place where an old value was, the search for space goes on from there, and at the end of the list
a new chunk gives it.
-/

namespace Pmgd

open ByteMemory RecordRun ThrowingState ListEdit

/-! ## Entries by id -/

/-- The value of an id. -/
def lookup (entries : List PropertyEntry) (id : BitVec 16) : Option Property :=
  (entries.find? fun entry => entry.id = id).map PropertyEntry.value

section Lookup

variable {entries others : List PropertyEntry} {entry : PropertyEntry} {id : BitVec 16}

@[simp]
theorem lookup_cons (entry : PropertyEntry) (entries : List PropertyEntry) :
    lookup (entry :: entries) = Function.update (lookup entries) entry.id (some entry.value) := by
  funext id
  rw [lookup, List.find?_cons, Function.update_apply]
  by_cases same : entry.id = id
  · rw [if_pos same.symm, decide_eq_true same]
    rfl
  · rw [if_neg fun other => same other.symm, decide_eq_false same]
    rfl

theorem isSome_lookup : (lookup entries id).isSome ↔ id ∈ entries.map PropertyEntry.id := by
  rw [lookup, Option.isSome_map, List.find?_isSome, List.mem_map]
  simp only [decide_eq_true_eq]

theorem lookup_eq_none (missing : id ∉ entries.map PropertyEntry.id) : lookup entries id = none :=
  Option.not_isSome_iff_eq_none.mp fun isSome => missing (isSome_lookup.mp isSome)

theorem lookup_of_mem (nodup : (entries.map PropertyEntry.id).Nodup) (member : entry ∈ entries) :
    lookup entries entry.id = some entry.value := by
  induction entries with
  | nil => cases member
  | cons first entries ih =>
      obtain ⟨absent, nodup⟩ := List.nodup_cons.mp nodup
      rw [lookup_cons, Function.update_apply]
      cases member with
      | head => exact if_pos rfl
      | tail _ member =>
          have differs : entry.id ≠ first.id :=
            fun same => absent (same ▸ List.mem_map_of_mem member)
          rw [if_neg differs]
          exact ih nodup member

/-- The values of the ids that are kept. -/
theorem lookup_filter (keep : BitVec 16 → Bool) (entries : List PropertyEntry) (id : BitVec 16) :
    lookup (entries.filter fun entry => keep entry.id) id =
      if keep id then lookup entries id else none := by
  rw [lookup, lookup, List.find?_filter]
  split_ifs with kept
  · congr 2
    funext entry
    by_cases same : entry.id = id
    · simp [same, kept]
    · simp [same]
  · rw [Option.map_eq_none_iff, List.find?_eq_none]
    rintro entry - found
    have both : keep entry.id = true ∧ entry.id = id := by simpa using found
    exact kept (both.2 ▸ both.1)

theorem lookup_perm (nodup : (entries.map PropertyEntry.id).Nodup) (perm : entries.Perm others) :
    lookup entries = lookup others := by
  induction perm with
  | nil => rfl
  | cons entry perm ih =>
      rw [lookup_cons, lookup_cons, ih (List.nodup_cons.mp nodup).2]
  | swap first second entries =>
      have differ : second.id ≠ first.id := by
        intro same
        exact (List.nodup_cons.mp nodup).1 (same ▸ List.mem_cons_self)
      simp only [lookup_cons]
      exact (Function.update_comm differ _ _ _).symm
  | trans perm _ first second =>
      exact (first nodup).trans (second ((perm.map _).nodup_iff.mp nodup))

end Lookup

/-! ## What a search finds -/

/-- Space that a search has noted at an unused slot. -/
structure Spotted (mem : Memory) (places : List (PropertyRef × Slot)) (space : PropertySpace) :
    Prop where
  isFree : space.size = space.pos.freeSpace mem
  enough : space.req ≤ space.size
  member : ∃ last, (space.pos, Slot.unused last) ∈ places

section Searches

variable {mem : Memory} {id : BitVec 16} {last : PropertyRef}
  {places all : List (PropertyRef × Slot)} {search : SpaceSearch}

theorem lookFor_true (found : (lookFor mem id last places search).found = true) :
    ∃ entry, entry.id = id ∧ ((lookFor mem id last places search).ref, Slot.used entry) ∈ places := by
  induction places generalizing search with
  | nil => exact nomatch found
  | cons place places ih =>
      obtain ⟨ref, slot⟩ := place
      cases slot with
      | unused count =>
          obtain ⟨entry, isId, member⟩ := ih found
          exact ⟨entry, isId, List.mem_cons_of_mem _ member⟩
      | used entry =>
          rw [lookFor] at found ⊢
          split_ifs at found ⊢ with isId
          · exact ⟨entry, isId, List.mem_cons_self⟩
          · obtain ⟨other, isOther, member⟩ := ih found
            exact ⟨other, isOther, List.mem_cons_of_mem _ member⟩

theorem lookFor_false (missing : (lookFor mem id last places search).found = false) :
    (lookFor mem id last places search).ref = last ∧
      ∀ entry ∈ places.filterMap fun place => place.2.toEntry, entry.id ≠ id := by
  induction places generalizing search with
  | nil => exact ⟨rfl, by nofun⟩
  | cons place places ih =>
      obtain ⟨ref, slot⟩ := place
      cases slot with
      | unused count => exact ih missing
      | used entry =>
          rw [lookFor] at missing ⊢
          split_ifs at missing ⊢ with isId
          obtain ⟨isLast, others⟩ := ih missing
          refine ⟨isLast, ?_⟩
          rintro other (_ | ⟨_, member⟩)
          · exact isId
          · exact others other member

theorem lookFor_space (subset : places ⊆ all)
    (noted : search.space.size = 0 ∨ Spotted mem all search.space) :
    (lookFor mem id last places search).search.space.req = search.space.req ∧
      ((lookFor mem id last places search).search.space.size = 0 ∨
        Spotted mem all (lookFor mem id last places search).search.space) := by
  induction places generalizing search with
  | nil => exact ⟨rfl, noted⟩
  | cons place places ih =>
      obtain ⟨here, later⟩ := List.cons_subset.mp subset
      obtain ⟨ref, slot⟩ := place
      cases slot with
      | unused count =>
          have visited : (search.visit mem ref).space.req = search.space.req ∧
              ((search.visit mem ref).space.size = 0 ∨
                Spotted mem all (search.visit mem ref).space) := by
            rw [SpaceSearch.visit]
            dsimp only
            split_ifs with looks better
            · exact ⟨rfl, .inr ⟨rfl, looks.2, count, here⟩⟩
            · exact ⟨rfl, noted⟩
            · exact ⟨rfl, noted⟩
          obtain ⟨sameReq, result⟩ := ih later visited.2
          exact ⟨sameReq.trans visited.1, result⟩
      | used entry =>
          rw [lookFor]
          split_ifs with isId
          · exact ⟨rfl, noted⟩
          · exact ih later noted

end Searches

/-! ## Reading -/

section Reading

variable {list size : Nat} {world : ListWorld} {chain before after : List PropertyChunk}
  {ref : PropertyRef} {chunk : PropertyChunk} {front back : List Slot} {entry : PropertyEntry}

theorem ListHeld.getValue_eq (held : ListHeld list size world chain)
    (place : PlaceIn chain ref before after chunk front (.used entry :: back)) :
    ref.getValue world.mem = some entry.value := by
  have rest := place.restAt held.held
  have stop := rest.stop_le
  rw [Layout.total_cons, slotLayout_size, Slot.size] at stop
  have isEntry : entry ∈ chainEntries chain := by
    rw [place.entries]
    exact List.mem_append_right _ List.mem_cons_self
  apply PropertyRef.getValue_used rest.held (held.blocks entry isEntry)
  intro region isRegion
  have isChunk : chunk ∈ chain := place.isChain ▸ List.mem_append_right _ List.mem_cons_self
  have apart := (List.pairwise_append.mp held.regionsApart).2.2 _ (List.mem_map_of_mem isChunk) _
    (List.mem_filterMap.mpr ⟨entry, isEntry, isRegion⟩)
  have sameChunk : ref.chunk = chunk.address := by rw [place.isRef]; rfl
  have isAddress : ref.address = ref.chunk + ref.offset := rfl
  have isStart : chunk.region.start = chunk.address := rfl
  have isLength : chunk.region.length = chunk.size := rfl
  rw [Region.Apart] at apart
  omega

/-- The first chunk of a list. -/
theorem ListHeld.exists_head (held : ListHeld list size world chain) :
    ∃ first rest, chain = first :: rest ∧ first.address = list ∧ first.size = size := by
  cases chain with
  | nil => exact nomatch held.head
  | cons first rest =>
      have isHead := Option.some.inj held.head
      exact ⟨first, rest, rfl, congrArg Region.start isHead, congrArg Region.length isHead⟩

/-- The end of a list is a place behind all slots of its last chunk. -/
theorem exists_end (before : List PropertyChunk) (chunk : PropertyChunk)
    (after : List PropertyChunk) :
    ∃ before' chunk', PlaceIn (before ++ chunk :: after) (chainEnd chunk after) before' [] chunk'
      chunk'.slots [] := by
  induction after generalizing before chunk with
  | nil => exact ⟨before, chunk, rfl, (List.append_nil _).symm, rfl⟩
  | cons next after ih =>
      rw [List.append_cons]
      exact ih (before ++ [chunk]) next

/-- The search of a list. -/
theorem ListHeld.find_eq (held : ListHeld list size world chain) (id : BitVec 16) (req : Nat)
    (looking : Bool) :
    ∃ last start, (∃ before chunk, PlaceIn chain last before [] chunk chunk.slots []) ∧
      PropertyList.find list id req looking world =
        .ok (lookFor world.mem id last (chainPlaces chain) ⟨⟨req, 0, start⟩, looking⟩) world := by
  obtain ⟨first, rest, rfl, rfl, rfl⟩ := held.exists_head
  obtain ⟨steps, few, walk⟩ := walk_list held.held
  refine ⟨chainEnd first rest, first.refAt 1, exists_end [] first rest, ?_⟩
  have isStart : PropertyRef.first first.address = some (first.refAt 1) :=
    dif_pos first.address_ge
  rw [PropertyList.find, get_bind, isStart]
  exact ofOption_eq (findProperty_eq walk id _ (few.trans held.chainBytes_le))

/-- `check_property` gives the value of the id. -/
theorem ListHeld.checkProperty_eq (held : ListHeld list size world chain) (id : BitVec 16) :
    PropertyList.checkProperty list id world = .ok (lookup (chainEntries chain) id) world := by
  obtain ⟨last, start, -, isFound⟩ := held.find_eq id 0 false
  rw [PropertyList.checkProperty, bind_ok isFound]
  cases found : (lookFor world.mem id last (chainPlaces chain) ⟨⟨0, 0, start⟩, false⟩).found with
  | false =>
      obtain ⟨-, others⟩ := lookFor_false found
      rw [entries_of_chainPlaces] at others
      rw [lookup_eq_none]
      · rfl
      · intro member
        obtain ⟨entry, isEntry, isId⟩ := List.mem_map.mp member
        exact others entry isEntry isId
  | true =>
      obtain ⟨entry, isId, member⟩ := lookFor_true found
      obtain ⟨before, after, chunk, front, back, place⟩ := chainPlaces_split member
      have isValue := held.getValue_eq place
      have perm : (chainEntries chain).Perm (entry :: (chainEntries before ++ entriesOf front ++
          (entriesOf back ++ chainEntries after))) := by
        rw [place.entries, entriesOf_used]
        exact List.perm_middle
      rw [lookup_perm held.ids perm, lookup_cons, isId, Function.update_self]
      rw [if_pos rfl, get_bind, bind_ok (ofOption_eq isValue)]
      rfl

end Reading

/-! ## Finding space -/

/-- Space in a chunk of a list. -/
def Room (chain : List PropertyChunk) (space : PropertySpace) (chunk : PropertyChunk) : Prop :=
  ∃ before after front back, PlaceIn chain space.pos before after chunk front back ∧
    SpaceAt space.size chunk.size space.pos.offset back (headAddress after)

section Rooms

variable {list size : Nat} {world : ListWorld} {chain before after : List PropertyChunk}
  {ref : PropertyRef} {chunk : PropertyChunk} {front back : List Slot} {entry : PropertyEntry}
  {space : PropertySpace}

/-- Free space at a place in a list. -/
theorem PlaceIn.room (place : PlaceIn chain space.pos before after chunk front back)
    (held : ListHeld list size world chain)
    (isFree : space.size = space.pos.freeSpace world.mem) : Room chain space chunk :=
  ⟨before, after, front, back, place, isFree ▸ spaceAt_freeSpace (place.restAt held.held)⟩

/-- Two elements of a list are the same one, or one of them is in front of the other. -/
theorem split_cases {α : Type*} {before after before' after' : List α} {first second : α}
    (same : before ++ first :: after = before' ++ second :: after') :
    (∃ more, before' = before ++ first :: more ∧ after = more ++ second :: after') ∨
      (before = before' ∧ first = second ∧ after = after') ∨
      ∃ more, before = before' ++ second :: more ∧ after' = more ++ first :: after := by
  rcases List.append_eq_append_iff.mp same with ⟨more, isBefore, isRest⟩ | ⟨more, isBefore, isRest⟩
  · cases more with
    | nil =>
        obtain ⟨rfl, rfl⟩ := List.cons.inj isRest
        exact .inr (.inl ⟨by rw [isBefore, List.append_nil], rfl, rfl⟩)
    | cons head more =>
        obtain ⟨rfl, rfl⟩ := List.cons.inj isRest
        exact .inl ⟨more, isBefore, rfl⟩
  · cases more with
    | nil =>
        obtain ⟨rfl, rfl⟩ := List.cons.inj isRest
        exact .inr (.inl ⟨by rw [isBefore, List.append_nil], rfl, rfl⟩)
    | cons head more =>
        obtain ⟨rfl, rfl⟩ := List.cons.inj isRest
        exact .inr (.inr ⟨more, isBefore, rfl⟩)

/-- The removal of a property that is behind it spares space. -/
theorem SpaceAt.free_behind {count size offset : Nat} {next : Option Nat}
    (space : SpaceAt count size offset (front ++ .used entry :: back) next) :
    SpaceAt count size offset (front ++ freedSlots entry back next) next := by
  generalize isSlots : front ++ .used entry :: back = slots at space
  cases space with
  | rest unused isRest =>
      subst isSlots
      exact (unused (.used entry) (by simp)).elim
  | @run run others next unused isTotal inside =>
      rcases List.append_eq_append_iff.mp isSlots with ⟨more, isRun, areOthers⟩ | ⟨more, isFront, -⟩
      · cases more with
        | nil =>
            rw [List.append_nil] at isRun
            subst isRun
            exact .run unused isTotal inside
        | cons slot more =>
            obtain ⟨rfl, -⟩ := List.cons.inj areOthers
            subst isRun
            exact (unused (.used entry) (by simp)).elim
      · subst isFront
        rw [List.append_assoc]
        exact .run unused isTotal inside

/-- The removal of a property spares the places of the other slots: what is behind such a place
stays, or the property was behind it in the same chunk. -/
theorem PlaceIn.freed {other : PropertyRef} {before' after' : List PropertyChunk}
    {otherChunk : PropertyChunk} {front' back' : List Slot} {slot : Slot}
    (place' : PlaceIn chain other before' after' otherChunk front' (slot :: back'))
    (place : PlaceIn chain ref before after chunk front (.used entry :: back))
    (differs : slot ≠ .used entry) :
    ∃ before'' after'' changed front'' rest,
      PlaceIn (freedChain before after chunk front back entry) other before'' after'' changed front''
        (slot :: rest) ∧
      changed.size = otherChunk.size ∧ headAddress after'' = headAddress after' ∧
      (rest = back' ∨ ∃ more, back' = more ++ .used entry :: back ∧ after' = after ∧
        rest = more ++ freedSlots entry back (headAddress after)) := by
  obtain ⟨isChain, isSlots, isRef⟩ := place
  obtain ⟨isChain', isSlots', isPos⟩ := place'
  rcases split_cases (isChain ▸ isChain') with
    ⟨more, rfl, rfl⟩ | ⟨rfl, rfl, rfl⟩ | ⟨more, rfl, rfl⟩
  · refine ⟨before ++ chunk.withSlots (front ++ freedSlots entry back
      (headAddress (more ++ otherChunk :: after'))) :: more, after', otherChunk, front', back',
      ⟨?_, isSlots', isPos⟩, rfl, rfl, .inl rfl⟩
    rw [freedChain, List.append_assoc, List.cons_append]
  · rcases split_cases (isSlots ▸ isSlots') with
      ⟨more, rfl, rfl⟩ | ⟨-, isSlot, -⟩ | ⟨more, rfl, isBack⟩
    · have isUnused : freedSlots entry (more ++ slot :: back') (headAddress after) =
          .unused ⟨entry.size - 1, Nat.lt_of_le_of_lt (Nat.sub_le_sub_right entry.size_le 1)
            (by decide)⟩ :: (more ++ slot :: back') := if_neg (by simp)
      have enough := entry.three_le_size
      refine ⟨before, after, chunk.withSlots (front ++ freedSlots entry (more ++ slot :: back')
        (headAddress after)), front ++ .unused ⟨entry.size - 1,
          Nat.lt_of_le_of_lt (Nat.sub_le_sub_right entry.size_le 1) (by decide)⟩ :: more, back',
        ⟨rfl, ?_, ?_⟩, rfl, rfl, .inl rfl⟩
      · rw [isUnused, List.append_assoc, List.cons_append]
        rfl
      · rw [isPos, PropertyChunk.refAt_withSlots, Layout.total_append, Layout.total_append,
          Layout.total_cons, Layout.total_cons, slotLayout_size, slotLayout_size, Slot.size,
          Slot.size]
        dsimp only
        rw [Nat.sub_add_cancel (show 1 ≤ entry.size by omega)]
    · exact (differs isSlot.symm).elim
    · refine ⟨before, after, chunk.withSlots (front' ++ slot :: more ++
        freedSlots entry back (headAddress after)), front',
        more ++ freedSlots entry back (headAddress after), ⟨rfl, ?_, isPos⟩, rfl, rfl,
        .inr ⟨more, isBack, rfl, rfl⟩⟩
      rw [← List.cons_append, ← List.append_assoc]
      rfl
  · have sameHead : headAddress (more ++ chunk.withSlots
        (front ++ freedSlots entry back (headAddress after)) :: after) =
          headAddress (more ++ chunk :: after) := by
      cases more with
      | nil => rfl
      | cons head more => rfl
    refine ⟨before', more ++ chunk.withSlots (front ++ freedSlots entry back (headAddress after)) ::
      after, otherChunk, front', back', ⟨?_, isSlots', isPos⟩, rfl, sameHead, .inl rfl⟩
    rw [freedChain, List.append_assoc, List.cons_append]

/-- The removal of a property spares space at an unused slot. -/
theorem Room.freed {before' after' : List PropertyChunk} {roomChunk : PropertyChunk}
    {front' back' : List Slot} {last : Fin 16}
    (place' : PlaceIn chain space.pos before' after' roomChunk front' (.unused last :: back'))
    (room : SpaceAt space.size roomChunk.size space.pos.offset (.unused last :: back')
      (headAddress after'))
    (place : PlaceIn chain ref before after chunk front (.used entry :: back)) :
    ∃ roomChunk, Room (freedChain before after chunk front back entry) space roomChunk := by
  obtain ⟨before'', after'', changed, front'', rest, newPlace, sameSize, sameHead, behind⟩ :=
    place'.freed place nofun
  refine ⟨changed, before'', after'', front'', _, newPlace, ?_⟩
  rw [sameSize, sameHead]
  rcases behind with rfl | ⟨more, rfl, rfl, rfl⟩
  · exact room
  · rw [← List.cons_append] at room ⊢
    exact room.free_behind

/-- The space for a property was found, if need be in a new chunk. -/
structure FoundPlace (list size : Nat) (world next : ListWorld) (chain grown : List PropertyChunk)
    (chunk : PropertyChunk) (fresh : List Region) (offer : Option Nat) (space : PropertySpace)
    (found : PropertySpace × Bool) : Prop where
  req : found.1.req = space.req
  enough : space.req ≤ found.1.size
  room : Room grown found.1 chunk
  entries : chainEntries grown = chainEntries chain
  held : ListHeld list size next grown
  updates : next.updates = world.updates
  allocated : next.allocated = fresh ++ world.allocated
  restores : Restores fresh world next
  new : found.2 = true → chunk.region ∈ fresh
  offered : ∀ region ∈ fresh, ∃ start ∈ offer, region = ⟨start, PropertyList.chunkSize⟩

/-- The search for space from a place on. -/
theorem ListHeld.exists_findSpace (held : ListHeld list size world chain)
    (place : PlaceIn chain ref before after chunk front back) (req : Nat) :
    ∃ result, PropertyList.findSpace world.mem req world.rounds ref = some result ∧
      (result.1 = true → req ≤ result.2.freeSpace world.mem ∧
        ∃ before after chunk front back, PlaceIn chain result.2 before after chunk front back) ∧
      (result.1 = false → result.2.freeSpace world.mem < req ∧
        ∃ before chunk, PlaceIn chain result.2 before [] chunk chunk.slots []) := by
  obtain ⟨steps, few, walk⟩ := place.walk held.held
  refine ⟨_, findSpace_eq walk req (few.trans held.chainBytes_le), ?_⟩
  have atEnd := exists_end before chunk after
  rw [← place.isChain] at atEnd
  split
  next place' isPlace =>
    have member := List.mem_of_find?_eq_some isPlace
    have fits := List.find?_some isPlace
    refine ⟨fun _ => ⟨(of_decide_eq_true fits).2, ?_⟩, by nofun⟩
    obtain ⟨before', after', chunk', front', back', later⟩ := place.later member
    exact ⟨before', after', chunk', front', _, later⟩
  next missing =>
    refine ⟨fun fits => ⟨of_decide_eq_true fits, ?_⟩, fun tight => ⟨?_, atEnd⟩⟩
    · obtain ⟨before', chunk', place'⟩ := atEnd
      exact ⟨before', [], chunk', _, _, place'⟩
    · exact Nat.lt_of_not_le (of_decide_eq_false tight)

/-- The rest of `set_property`'s search, from the place of the old value or the end on. -/
theorem ListHeld.findPlace_ends {pos : PropertyRef} {offer : Option Nat}
    (held : ListHeld list size world chain) (req : 3 ≤ space.req) (small : space.req ≤ 16)
    (noted : space.size ≠ 0 → space.req ≤ space.size ∧ ∃ chunk, Room chain space chunk)
    (from' : space.size = 0 →
      ∃ before after chunk front back, PlaceIn chain pos before after chunk front back)
    (offered : Offered list size world PropertyList.chunkSize offer) :
    EndsAs (PropertyList.findPlace space pos offer world)
      (fun found next => ∃ grown chunk fresh,
        FoundPlace list size world next chain grown chunk fresh offer space found)
      (fun failure next => failure = .badAlloc ∧ next = world) := by
  rw [PropertyList.findPlace]
  split_ifs with nothing
  · obtain ⟨before, after, chunk, front, back, place⟩ := from' nothing
    obtain ⟨⟨isSpace, ref⟩, isFound, fits, tight⟩ := held.exists_findSpace place space.req
    rw [get_bind, bind_ok (ofOption_eq isFound)]
    cases isSpace with
    | true =>
        obtain ⟨enough, before', after', chunk', front', back', place'⟩ := fits rfl
        have room := @PlaceIn.room _ _ _ _ _ _ _ _ _
          { space with pos := ref, size := ref.freeSpace world.mem } place' held rfl
        exact ⟨chain, chunk', [], rfl, enough, room, rfl, held, rfl, rfl, Restores.refl _ _,
          by nofun, by nofun⟩
    | false =>
        obtain ⟨little, before', chunk', place'⟩ := tight rfl
        have atEnd : RestAt world.mem ref chunk'.size [] none := place'.restAt held.held
        have isFree : ref.freeSpace world.mem = chunk'.size - ref.offset :=
          @freeSpace_eq _ _ _ [] [] none atEnd (by nofun) (by nofun)
        have near : chunk'.size - ref.offset < space.req := isFree ▸ little
        have inside := atEnd.stop_le
        have added := held.addChunk_ends place' (by dsimp only; omega) offered
        simp only [Bool.false_eq_true, if_false]
        apply EndsAs.bind (added.mono (fun _ _ => id) fun failure next gone => ⟨gone.1, gone.2.2⟩)
        rintro last next ⟨start, grown, isOffer, result⟩
        obtain ⟨before'', new, moved, newPlace, isNew, few⟩ := result.place
        have newEnd := newPlace.restAt result.held.held
        have newFree : last.freeSpace next.mem = new.size - last.offset :=
          @freeSpace_eq _ _ _ [] [] none newEnd (by nofun) (by nofun)
        have isSize : new.size = 64 := congrArg Region.length isNew
        have isOffset : last.offset = 1 + slotLayout.total moved := by rw [newPlace.isRef]; rfl
        have room := @PlaceIn.room _ _ _ _ _ _ _ _ _
          { space with pos := last, size := last.freeSpace next.mem } newPlace result.held rfl
        refine ⟨grown, new, [⟨start, PropertyList.chunkSize⟩], rfl, ?_, room, result.entries,
          result.held, result.updates, result.allocated, result.restores, ?_, ?_⟩
        · dsimp only
          omega
        · exact fun _ => isNew ▸ List.mem_cons_self
        · rintro region (_ | ⟨_, ⟨⟩⟩)
          exact ⟨start, isOffer, rfl⟩
  · obtain ⟨enough, chunk, room⟩ := noted nothing
    exact ⟨chain, chunk, [], rfl, enough, room, rfl, held, rfl, rfl, Restores.refl _ _, by nofun,
      by nofun⟩

end Rooms

end Pmgd
