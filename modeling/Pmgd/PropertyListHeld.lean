import Pmgd.PropertyEdits

/-!
# The invariant of a property list

Memory holds the chunks of a list and the blocks of its properties, all of them apart from each
other, and each block of the allocator is either freed or in use by the list, once.
-/

namespace Pmgd

open ByteMemory RecordRun UndoLog ThrowingState

/-! ## Regions -/

namespace Region

/-- Two blocks that do not overlap. -/
def Apart (first second : Region) : Prop :=
  first.start + first.length ≤ second.start ∨ second.start + second.length ≤ first.start

def Has (region : Region) (place : Nat) : Prop :=
  region.start ≤ place ∧ place < region.start + region.length

instance (region : Region) : DecidablePred region.Has :=
  fun _ => inferInstanceAs (Decidable (_ ∧ _))

theorem Apart.symm {first second : Region} (apart : first.Apart second) : second.Apart first :=
  Or.symm apart

theorem Apart.not_has {first second : Region} (apart : first.Apart second) {place : Nat}
    (has : first.Has place) : ¬ second.Has place := by
  rcases apart with before | after
  · exact fun other => absurd (Nat.lt_of_lt_of_le has.2 (before.trans other.1)) (Nat.lt_irrefl _)
  · exact fun other => absurd (Nat.lt_of_lt_of_le other.2 (after.trans has.1)) (Nat.lt_irrefl _)

end Region

/-- Memory has changed in some regions only. -/
def SameOutside (regions : List Region) (mem other : Memory) : Prop :=
  ∀ place, (∀ region ∈ regions, ¬ region.Has place) → other place = mem place

theorem SameOutside.trans {regions : List Region} {mem middle other : Memory}
    (first : SameOutside regions mem middle) (second : SameOutside regions middle other) :
    SameOutside regions mem other :=
  fun place outside => (second place outside).trans (first place outside)

theorem SameOutside.mono {regions others : List Region} {mem other : Memory}
    (same : SameOutside regions mem other)
    (covers : ∀ region ∈ regions, ∀ place, region.Has place →
      ∃ larger ∈ others, larger.Has place) : SameOutside others mem other := by
  intro place outside
  apply same
  intro region member has
  obtain ⟨larger, isOther, hasLarger⟩ := covers region member place has
  exact outside larger isOther hasLarger

/-! ## The ledger -/

/-- The regions of some entries. -/
def entryRegions (entries : List PropertyEntry) : List Region :=
  entries.filterMap PropertyEntry.region

/-- The regions of a list: its chunks and the blocks of its entries. -/
def chainRegions (chain : List PropertyChunk) : List Region :=
  chain.map PropertyChunk.region ++ entryRegions (chainEntries chain)

@[simp]
theorem entryRegions_append (first second : List PropertyEntry) :
    entryRegions (first ++ second) = entryRegions first ++ entryRegions second :=
  List.filterMap_append

theorem entryRegions_cons (entry : PropertyEntry) (entries : List PropertyEntry) :
    entryRegions (entry :: entries) = entry.region.toList ++ entryRegions entries := by
  rw [entryRegions, List.filterMap_cons]
  cases entry.region <;> rfl

/-- Memory has a list with its blocks. -/
structure ListHeld (list size : Nat) (world : ListWorld) (chain : List PropertyChunk) : Prop where
  held : ChainHeld world.mem chain
  head : (chain.map PropertyChunk.region).head? = some ⟨list, size⟩
  added : ∀ chunk ∈ chain.tail, chunk.size = PropertyList.chunkSize
  blocks : ∀ entry ∈ chainEntries chain, entry.BlockHeld world.mem
  ids : ((chainEntries chain).map PropertyEntry.id).Nodup
  apart : (⟨list, size⟩ :: world.allocated).Pairwise Region.Apart
  balance : (⟨list, size⟩ :: world.allocated).Perm (world.freed ++ chainRegions chain)

namespace ListHeld

variable {list size : Nat} {world after : ListWorld} {chain : List PropertyChunk}

/-- The log, the updates and the iterators do not matter. -/
theorem of_same (held : ListHeld list size world chain) (sameMem : after.mem = world.mem)
    (sameAllocated : after.allocated = world.allocated) (sameFreed : after.freed = world.freed) :
    ListHeld list size after chain where
  held := sameMem ▸ held.held
  head := held.head
  added := held.added
  blocks := sameMem ▸ held.blocks
  ids := held.ids
  apart := sameAllocated ▸ held.apart
  balance := sameAllocated ▸ sameFreed ▸ held.balance

theorem regionsApart (held : ListHeld list size world chain) :
    (chainRegions chain).Pairwise Region.Apart := by
  have all := held.balance.pairwise_iff (fun apart => Region.Apart.symm apart) |>.mp held.apart
  exact (List.pairwise_append.mp all).2.1

theorem mem_regions (held : ListHeld list size world chain) {region : Region}
    (member : region ∈ chainRegions chain) : region ∈ (⟨list, size⟩ : Region) :: world.allocated :=
  held.balance.mem_iff.mpr (List.mem_append_right _ member)

/-- A loop has a round for each byte of the list. -/
theorem chainBytes_le (held : ListHeld list size world chain) : chainBytes chain ≤ world.rounds := by
  have sums := (held.balance.map Region.length).sum_nat
  have small : size ≤ 256 := by
    cases chain with
    | nil => exact nomatch held.head
    | cons chunk chain =>
        have isSize : chunk.size = size := congrArg Region.length (Option.some.inj held.head)
        exact isSize ▸ chunk.size_le
  have isBytes : chainBytes chain = ((chain.map PropertyChunk.region).map Region.length).sum := by
    rw [chainBytes, List.map_map]
    rfl
  rw [List.map_append, List.sum_append, chainRegions, List.map_append, List.sum_append,
    ← isBytes, List.map_cons, List.sum_cons] at sums
  have isSize : (⟨list, size⟩ : Region).length = size := rfl
  rw [ListWorld.rounds]
  omega

/-- The blocks of the properties are not where the chunks are, nor in other regions. -/
theorem blockHeld (held : ListHeld list size world chain) {other : Memory} {chunk : PropertyChunk}
    {fresh : List Region} (member : chunk ∈ chain)
    (same : SameOutside (chunk.region :: fresh) world.mem other)
    (isFresh : ∀ region ∈ fresh, ∀ old ∈ chainRegions chain, region.Apart old)
    {entry : PropertyEntry} (isEntry : entry ∈ chainEntries chain) : entry.BlockHeld other := by
  intro bytes isExternal
  have isRegion : entry.region = some ⟨entry.block, bytes.length⟩ := by
    rw [PropertyEntry.region, Option.mem_def.mp isExternal]
    rfl
  have isOld : (⟨entry.block, bytes.length⟩ : Region) ∈ entryRegions (chainEntries chain) :=
    List.mem_filterMap.mpr ⟨entry, isEntry, isRegion⟩
  have fromChunk : chunk.region.Apart ⟨entry.block, bytes.length⟩ :=
    (List.pairwise_append.mp held.regionsApart).2.2 _ (List.mem_map_of_mem member) _ isOld
  apply Eq.trans _ (held.blocks entry isEntry bytes isExternal)
  apply load_congr
  intro offset inside
  apply same
  have has : Region.Has ⟨entry.block, bytes.length⟩ (entry.block + offset) :=
    ⟨Nat.le_add_right _ _, Nat.add_lt_add_left inside _⟩
  rintro region (_ | ⟨_, later⟩)
  · exact fromChunk.symm.not_has has
  · exact (isFresh region later _ (List.mem_append_right _ isOld)).symm.not_has has

end ListHeld

/-! ## Edits -/

section Edits

variable {list size : Nat} {world next : ListWorld}
  {chain before after afterwards : List PropertyChunk} {ref : PropertyRef} {chunk : PropertyChunk}
  {front back others : List Slot} {fresh : List Region}

/-- The bytes of a chunk from a place on. -/
def PropertyChunk.regionFrom (chunk : PropertyChunk) (offset : Nat) : Region :=
  ⟨chunk.address + offset, chunk.size - offset⟩

theorem PropertyChunk.not_has_regionFrom {chunk : PropertyChunk} {offset place : Nat}
    (outside : ¬ chunk.region.Has place) : ¬ (chunk.regionFrom offset).Has place := by
  rintro ⟨low, high⟩
  apply outside
  rw [regionFrom] at low high
  dsimp only at low high
  constructor
  · exact (Nat.le_add_right _ _).trans low
  · rw [region]
    dsimp only
    omega

/-- What is not in a region that is apart from a chunk. -/
theorem PropertyChunk.congr_of_sameOutside {mem other : Memory} {regions : List Region}
    {chunk : PropertyChunk} (same : SameOutside regions mem other)
    (apart : ∀ region ∈ regions, ∀ place, chunk.region.Has place → ¬ region.Has place) (offset : Nat)
    (inside : offset < chunk.size) :
    other (chunk.address + offset) = mem (chunk.address + offset) := by
  apply same
  intro region member
  exact apart region member _ ⟨Nat.le_add_right _ _, Nat.add_lt_add_left inside _⟩

/-- The chain after an edit from a place in a chunk on, with other chunks behind it. -/
theorem ListHeld.chainHeld_edit (held : ListHeld list size world chain)
    (place : PlaceIn chain ref before after chunk front back) {other : Memory}
    (same : SameOutside (chunk.regionFrom ref.offset :: fresh) world.mem other)
    (isFresh : ∀ region ∈ fresh, ∀ old ∈ chainRegions chain, region.Apart old)
    (rest : RestAt other ref chunk.size others (headAddress afterwards))
    (isBehind : ChainHeld other after → ChainHeld other afterwards) :
    ChainHeld other (before ++ chunk.withSlots (front ++ others) :: afterwards) := by
  obtain ⟨rfl, isSlots, rfl⟩ := place
  have chunksApart := (List.pairwise_append.mp held.regionsApart).1
  rw [List.map_append, List.map_cons] at chunksApart
  have fromFresh {earlier : PropertyChunk} (member : earlier ∈ before ++ chunk :: after) :
      ∀ region ∈ fresh, ∀ place, earlier.region.Has place → ¬ region.Has place := by
    intro region isRegion place has
    exact (isFresh region isRegion _ (List.mem_append_left _
      (List.mem_map_of_mem member))).symm.not_has has
  have fromChunk {earlier : PropertyChunk} (apart : chunk.region.Apart earlier.region)
      (place : Nat) (has : earlier.region.Has place) :
      ¬ (chunk.regionFrom (1 + slotLayout.total front)).Has place :=
    PropertyChunk.not_has_regionFrom (apart.symm.not_has has)
  apply @ChainHeld.replace _ _ _ _ _ _ (chunk.withSlots (front ++ others)) held.held rfl
  · intro target earlier member earlierHeld
    apply earlierHeld.congr
    apply PropertyChunk.congr_of_sameOutside same
    rintro region (_ | ⟨_, isFresh⟩) place has
    · refine fromChunk ?_ place has
      exact ((List.pairwise_append.mp chunksApart).2.2 _ (List.mem_map_of_mem member) _
        List.mem_cons_self).symm
    · exact fromFresh (List.mem_append_left _ member) region isFresh place has
  · rintro ⟨chunkHeld, afterHeld⟩
    rw [PropertyChunk.Held, isSlots] at chunkHeld
    have stop := rest.stop_le
    have isOffset : (chunk.refAt (1 + slotLayout.total front)).offset =
      1 + slotLayout.total front := rfl
    have sameFront (offset : Nat) (inside : offset < 1 + slotLayout.total front) :
        other (chunk.address + offset) = world.mem (chunk.address + offset) := by
      apply same
      rintro region (_ | ⟨_, isFresh⟩)
      · rintro ⟨low, -⟩
        rw [PropertyChunk.regionFrom] at low
        dsimp only at low
        omega
      · exact fromFresh (List.mem_append_right _ List.mem_cons_self) region isFresh _
          ⟨Nat.le_add_right _ _, Nat.add_lt_add_left (show offset < chunk.size by omega) _⟩
    have laid : slotLayout.Laid other (chunk.address + 1 + slotLayout.total front) others := by
      rw [Nat.add_assoc]
      exact rest.laid
    constructor
    · refine ⟨le_rfl, rest.header, Layout.laid_append.mpr ⟨?_, laid⟩, ?_⟩
      · apply (Layout.laid_append.mp chunkHeld.laid).1.congr
        intro offset inside
        have isPlace : (chunk.refAt 1).address + offset = chunk.address + (1 + offset) :=
          Nat.add_assoc _ _ _
        exact isPlace ▸ sameFront (1 + offset) (Nat.add_lt_add_left inside 1)
      · have ends := rest.ends
        rw [isOffset, Nat.add_assoc] at ends
        exact (Layout.total_append ▸ ends :)
    · apply isBehind
      apply afterHeld.congr
      intro later member
      apply PropertyChunk.congr_of_sameOutside same
      rintro region (_ | ⟨_, isFresh⟩) place has
      · refine fromChunk ?_ place has
        exact (List.pairwise_cons.mp (List.pairwise_append.mp chunksApart).2.1).1 _
          (List.mem_map_of_mem member)
      · exact fromFresh (List.mem_append_right _ (List.mem_cons_of_mem _ member)) region isFresh
          place has

/-- The regions before and after an edit. -/
theorem chainRegions_edit (place : PlaceIn chain ref before after chunk front back)
    (others : List Slot) :
    (entryRegions (entriesOf others) ++ chainRegions chain).Perm
      (entryRegions (entriesOf back) ++
        chainRegions (before ++ chunk.withSlots (front ++ others) :: after)) := by
  obtain ⟨rfl, isSlots, rfl⟩ := place
  have isEntries : entriesOf chunk.slots = entriesOf front ++ entriesOf back := by
    rw [isSlots, entriesOf_append]
  have areEntries : entriesOf (chunk.withSlots (front ++ others)).slots =
      entriesOf front ++ entriesOf others := entriesOf_append front others
  apply List.perm_iff_count.mpr
  intro region
  simp only [chainRegions, chainEntries_append, chainEntries_cons, isEntries, areEntries,
    entryRegions_append, List.map_append, List.map_cons, PropertyChunk.region_withSlots,
    List.count_append, List.count_cons]
  omega

/-- A list after an edit. -/
theorem ListHeld.edit (held : ListHeld list size world chain)
    (place : PlaceIn chain ref before after chunk front back)
    (same : SameOutside (chunk.regionFrom ref.offset :: fresh) world.mem next.mem)
    (isFresh : (fresh ++ ⟨list, size⟩ :: world.allocated).Pairwise Region.Apart)
    (isAllocated : next.allocated = fresh ++ world.allocated)
    (rest : RestAt next.mem ref chunk.size others (headAddress afterwards))
    (isBehind : ChainHeld next.mem after → ChainHeld next.mem afterwards)
    (isAdded : ∀ chunk ∈ afterwards, chunk ∈ after ∨ chunk.size = PropertyList.chunkSize)
    (blocks : ∀ entry ∈ chainEntries (before ++ chunk.withSlots (front ++ others) :: afterwards),
      entry ∈ chainEntries chain ∨ entry.BlockHeld next.mem)
    (ids : ((chainEntries (before ++ chunk.withSlots (front ++ others) :: afterwards)).map
      PropertyEntry.id).Nodup)
    (balance : (fresh ++ world.freed ++ chainRegions chain).Perm (next.freed ++
      chainRegions (before ++ chunk.withSlots (front ++ others) :: afterwards))) :
    ListHeld list size next (before ++ chunk.withSlots (front ++ others) :: afterwards) := by
  have apart := (List.pairwise_append.mp isFresh).2.2
  have freshApart : ∀ region ∈ fresh, ∀ old ∈ chainRegions chain, region.Apart old :=
    fun region member old isOld => apart region member old (held.mem_regions isOld)
  have moved : (⟨list, size⟩ :: next.allocated).Perm (fresh ++ ⟨list, size⟩ :: world.allocated) :=
    isAllocated ▸ List.perm_middle.symm
  have isChunk : chunk ∈ chain := place.isChain ▸ List.mem_append_right _ List.mem_cons_self
  refine ⟨held.chainHeld_edit place same freshApart rest isBehind, ?_, ?_, ?_, ids, ?_, ?_⟩
  · have head := held.head
    rw [place.isChain] at head
    cases before with
    | nil => exact head
    | cons first before => exact head
  · have added := held.added
    rw [place.isChain] at added
    intro other member
    cases before with
    | nil =>
        rcases isAdded other member with old | new
        · exact added other old
        · exact new
    | cons first before =>
        rcases List.mem_append.mp member with earlier | later
        · exact added other (List.mem_append_left _ earlier)
        · rcases List.mem_cons.mp later with rfl | later
          · exact added chunk (List.mem_append_right _ List.mem_cons_self)
          · rcases isAdded other later with old | new
            · exact added other (List.mem_append_right _ (List.mem_cons_of_mem _ old))
            · exact new
  · intro entry member
    rcases blocks entry member with old | new
    · apply held.blockHeld isChunk _ freshApart old
      intro place outside
      apply same
      rintro region (_ | ⟨_, later⟩)
      · exact PropertyChunk.not_has_regionFrom (outside _ List.mem_cons_self)
      · exact outside region (List.mem_cons_of_mem _ later)
    · exact new
  · exact (moved.pairwise_iff fun apart => Region.Apart.symm apart).mpr isFresh
  · apply moved.trans
    apply (held.balance.append_left fresh).trans
    rwa [← List.append_assoc]

end Edits

end Pmgd
