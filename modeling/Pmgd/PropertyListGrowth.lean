import Pmgd.PropertyListSteps

/-!
# New chunks of a property list

`add_chunk` links a new chunk to the last one.  The link takes the last nine bytes of that chunk,
and the entries that reach into them move to the new chunk, in their order.
-/

namespace Pmgd

open ByteMemory RecordRun ThrowingState ListEdit

/-! ## Room for the link -/

section Room

variable {world : ListWorld} {ref first q : PropertyRef} {size count : Nat} {slots : List Slot}

/-- `init`: an empty chunk. -/
theorem restAt_init (mem : Memory) (start : PropertyRef) (isStart : start.offset = 1)
    (low : 2 ≤ size) (high : size ≤ 256) :
    RestAt (PropertyList.init mem start.chunk size) start size [] none := by
  have isAddress : start.address = start.chunk + 1 := congrArg (start.chunk + ·) isStart
  have isHeader : PropertyList.init mem start.chunk size start.chunk = UInt8.ofNat (size - 1) :=
    @store_inside mem start.chunk [_, _] 0 (by simp)
  have isDone : PropertyList.init mem start.chunk size (start.chunk + 1) =
      UInt8.ofNat EntryType.done.code := @store_inside mem start.chunk [_, _] 1 (by simp)
  refine ⟨isStart.ge, ?_, trivial, ?_, fun _ => ?_⟩
  · rw [PropertyRef.chunkSize, PropertyRef.chunkEnd, isHeader, UInt8.toNat_ofNat',
      Nat.mod_eq_of_lt (by omega)]
    omega
  · rw [Layout.total_nil, isStart]
    omega
  · rw [Layout.total_nil, isStart]
    exact isDone

/-- An end of the list behind slots that were written one behind the other. -/
theorem restAt_done {mem : Memory} (rest : RestAt mem q size [] none)
    {other : Memory} (laid : slotLayout.Laid other q.address slots)
    (same : ∀ place, place < q.address ∨ q.address + slotLayout.total slots ≤ place →
      other place = mem place) (room : q.offset + slotLayout.total slots < size) :
    RestAt (store other (q.address + slotLayout.total slots)
      [UInt8.ofNat EntryType.done.code]) q size slots none := by
  have low := rest.inside
  have isAddress : q.address = q.chunk + q.offset := rfl
  refine ⟨low, ?_, laid.store (by omega), by omega, fun _ => ?_⟩
  · rw [← rest.header, PropertyRef.chunkSize, PropertyRef.chunkEnd, store_outside (by omega),
      same _ (by omega)]
    rfl
  · rw [← Nat.add_assoc, ← isAddress]
    exact @store_inside other (q.address + slotLayout.total slots) [_] 0 (by simp)

/-- `make_space` in the last chunk moves the entries that are in the way of a link. -/
theorem exists_makeSpace (isFirst : first.offset = 1) (sameChunk : ref.chunk = first.chunk)
    (rest : RestAt world.mem first size slots none) (low : 10 ≤ size)
    (full : size < slotLayout.total slots + 10)
    (new : RestAt world.mem q PropertyList.chunkSize [] none) (isStart : q.offset = 1)
    (apart : q.chunk + PropertyList.chunkSize ≤ first.chunk ∨ first.chunk + size ≤ q.chunk) :
    ∃ front back moved, slots = front ++ back ∧
      ref.makeSpace q world = .ok (first.advance (slotLayout.total front),
        q.advance (slotLayout.total (usedSlots back))) { world with mem := moved } ∧
      (∀ place, place < q.address ∨ q.chunk + PropertyList.chunkSize ≤ place →
        moved place = world.mem place) ∧
      RestAt moved q PropertyList.chunkSize (usedSlots back) none ∧
      slotLayout.total front + 10 ≤ size ∧ size < slotLayout.total front + 26 ∧
      slotLayout.total (usedSlots back) ≤ 24 := by
  obtain ⟨front, slot, back, rfl, before, within⟩ :=
    @Layout.exists_cut _ slotLayout slots (size - 9) (by omega) (by omega)
  have small := slot.size_le
  have stop := rest.stop_le
  rw [slotLayout_size] at within
  rw [Layout.total_append, Layout.total_cons, slotLayout_size] at stop
  have few := @Layout.length_le_total _ slotLayout front
  have fewBack := @Layout.length_le_total _ slotLayout (slot :: back)
  have totalBack := total_usedSlots_le (slot :: back)
  rw [Layout.total_cons, slotLayout_size] at totalBack fewBack
  have isSpace := @linkSpace_eq _ _ _ size _ _ _ rest (by omega) (by omega)
    (show front.length < size by omega)
  have isAddress : q.address = q.chunk + 1 := congrArg (q.chunk + ·) isStart
  have isChunkSize : PropertyList.chunkSize = 64 := rfl
  have copyRest : RestAt world.mem (first.advance (slotLayout.total front)) size (slot :: back) none :=
    rest.advance
  obtain ⟨copied, isCopied, same, laid⟩ := @exists_copied _ _ q size (size + 1) _ copyRest
    (by rw [PropertyRef.chunk_advance]; omega) (by rw [List.length_cons] at fewBack ⊢; omega)
  have moved := restAt_done new laid same (by omega)
  refine ⟨front, slot :: back, _, rfl, ?_, ?_, moved, by omega, by omega, by omega⟩
  · have header : ref.chunkSize world.mem = size := by
      rw [PropertyRef.chunkSize, PropertyRef.chunkEnd, sameChunk]
      exact rest.header
    have fromStart : ({ ref with offset := 1 } : PropertyRef) = first := by
      cases ref
      cases first
      simp_all
    rw [PropertyRef.makeSpace, get_bind, header, fromStart, bind_ok (ofOption_eq isSpace),
      bind_ok (ofOption_eq isCopied), ← PropertyRef.address_advance]
    rfl
  · intro place outside
    rw [store_outside (by rw [List.length_singleton]; omega), same place (by omega)]

end Room

/-! ## The link -/

section NewChunks

variable {list size : Nat} {world : ListWorld} {chain before : List PropertyChunk}
  {ref : PropertyRef} {chunk : PropertyChunk} {offer : Option Nat}

/-- The chunk that `add_chunk` allocates. -/
def newChunk (start : Nat) (isAddress : 8 ≤ start) (slots : List Slot) : PropertyChunk where
  address := start
  size := PropertyList.chunkSize
  slots
  address_ge := isAddress
  size_ge := by decide
  size_le := by decide

/-- The world with the new chunk in front of the link, and with the link. -/
def grownWorld (world : ListWorld) (mem : Memory) (start : Nat) : ListWorld :=
  { world with mem, allocated := ⟨start, PropertyList.chunkSize⟩ :: world.allocated }

def linkedWorld (world : ListWorld) (mem : Memory) (place : PropertyRef) (unusedSize start : Nat) :
    ListWorld :=
  { grownWorld world (withLink mem place unusedSize start) start with
    log := world.log ++ [UndoLog.snapshot (fun address => place.address ≤ address ∧
      address < place.address + (unusedSize + 9)) mem] }

/-- A list with a new chunk, which ends at a place. -/
structure GrownList (list size : Nat) (world next : ListWorld) (chain grown : List PropertyChunk)
    (last : PropertyRef) (start : Nat) : Prop where
  place : ∃ before chunk moved, PlaceIn grown last before [] chunk moved [] ∧
    chunk.region = ⟨start, PropertyList.chunkSize⟩ ∧ slotLayout.total moved ≤ 24
  entries : chainEntries grown = chainEntries chain
  held : ListHeld list size next grown
  updates : next.updates = world.updates
  allocated : next.allocated = ⟨start, PropertyList.chunkSize⟩ :: world.allocated
  restores : Restores [⟨start, PropertyList.chunkSize⟩] world next

section Linking

variable {front back moved : List Slot} {mem : Memory} {start unusedSize : Nat}
  {isAddress : 8 ≤ start}

theorem ListHeld.congr_fresh (held : ListHeld list size world chain)
    (place : PlaceIn chain ref before [] chunk front back)
    (offered : Offered list size world PropertyList.chunkSize (some start))
    (same : SameOutside [⟨start, PropertyList.chunkSize⟩] world.mem mem) {position : Nat}
    (inChunk : chunk.region.Has position) : mem position = world.mem position := by
  have isChunk : chunk ∈ chain := place.isChain ▸ List.mem_append_right _ List.mem_cons_self
  have apart := (offered start rfl).2.2 _ (held.mem_regions
    (List.mem_append_left _ (List.mem_map_of_mem isChunk)))
  apply same
  rintro region (_ | ⟨_, ⟨⟩⟩)
  exact apart.symm.not_has inChunk

theorem ListHeld.restAt_fresh (held : ListHeld list size world chain)
    (place : PlaceIn chain ref before [] chunk front back)
    (offered : Offered list size world PropertyList.chunkSize (some start))
    (same : SameOutside [⟨start, PropertyList.chunkSize⟩] world.mem mem) :
    RestAt mem ref chunk.size back none := by
  have sameChunk : ref.chunk = chunk.address := by rw [place.isRef]; rfl
  have sameBytes (offset : Nat) (inside : offset < chunk.size) :
      mem (ref.chunk + offset) = world.mem (ref.chunk + offset) :=
    held.congr_fresh place offered same ⟨by rw [sameChunk]; exact Nat.le_add_right _ _,
      by rw [sameChunk]; exact Nat.add_lt_add_left inside _⟩
  have positive := chunk.size_ge
  exact (place.restAt held.held).congr (sameBytes 0 (by omega)) fun offset _ => sameBytes offset

/-- The list with the link. -/
theorem ListHeld.linked (held : ListHeld list size world chain)
    (place : PlaceIn chain ref before [] chunk front back)
    (isSize : ref.offset + unusedSize + 9 = chunk.size) (small : unusedSize < 16)
    (offered : Offered list size world PropertyList.chunkSize (some start))
    (same : SameOutside [⟨start, PropertyList.chunkSize⟩] world.mem mem)
    (new : (newChunk start isAddress moved).Held mem none)
    (sameEntries : entriesOf moved = entriesOf back) (few : slotLayout.total moved ≤ 24) :
    GrownList list size world (linkedWorld world mem ref unusedSize start) chain
      (before ++ chunk.withSlots (front ++ gapSlots unusedSize small) ::
        [newChunk start isAddress moved])
      ((newChunk start isAddress moved).refAt (1 + slotLayout.total moved)) start := by
  obtain ⟨-, pointer, apart⟩ := offered start rfl
  have rest := held.restAt_fresh place offered same
  have linkRest := rest.withLink isSize small isAddress pointer
  have sameChunk : ref.chunk = chunk.address := by rw [place.isRef]; rfl
  have place' : ref.address = ref.chunk + ref.offset := rfl
  have isChunk : chunk ∈ chain := place.isChain ▸ List.mem_append_right _ List.mem_cons_self
  have chunkApart := apart _ (held.mem_regions (List.mem_append_left _ (List.mem_map_of_mem isChunk)))
  have linkSame : SameOutside [⟨ref.address, unusedSize + 9⟩] mem
      (withLink mem ref unusedSize start) := by
    intro position outside
    have notHere := outside _ List.mem_cons_self
    rw [Region.Has] at notHere
    dsimp only at notHere
    exact withLink_same (by omega)
  have inChunk {position : Nat} (has : Region.Has ⟨ref.address, unusedSize + 9⟩ position) :
      (chunk.regionFrom ref.offset).Has position :=
    place.regionFrom_has le_rfl (by omega) has
  have areEntries : chainEntries (before ++ chunk.withSlots (front ++ gapSlots unusedSize small) ::
      [newChunk start isAddress moved]) = chainEntries chain := by
    have newEntries : chainEntries [newChunk start isAddress moved] = entriesOf moved :=
      List.append_nil _
    have noEntries : chainEntries [] = [] := rfl
    rw [entries_edit, entriesOf_gapSlots, newEntries, sameEntries, place.entries, noEntries,
      List.nil_append, List.append_nil]
  have newHeld : (newChunk start isAddress moved).Held (withLink mem ref unusedSize start) none := by
    apply new.congr
    apply PropertyChunk.congr_of_sameOutside linkSame
    rintro region (_ | ⟨_, ⟨⟩⟩) position has other
    apply chunkApart.not_has has
    by_contra outside
    exact PropertyChunk.not_has_regionFrom outside (inChunk other)
  refine ⟨⟨_, _, moved, ⟨List.append_cons _ _ _, (List.append_nil _).symm, rfl⟩, rfl, few⟩,
    areEntries, ?_, rfl, rfl, ?_⟩
  · apply @ListHeld.edit _ _ _ (linkedWorld world mem ref unusedSize start) _ _ _
      [newChunk start isAddress moved] _ _ _ _ _ [⟨start, PropertyList.chunkSize⟩] held place
      _ (List.pairwise_cons.mpr ⟨apart, held.apart⟩) rfl linkRest (fun _ => ⟨newHeld, trivial⟩)
      (fun _ member => .inr (List.mem_singleton.mp member ▸ rfl)) (fun _ => areEntries ▸ .inl)
      (areEntries ▸ held.ids)
    · rw [chainRegions, chainRegions, areEntries, place.isChain]
      apply List.perm_iff_count.mpr
      intro region
      have isRegion : (newChunk start isAddress moved).region = ⟨start, PropertyList.chunkSize⟩ := rfl
      simp only [linkedWorld, grownWorld, List.count_append, List.map_append, List.map_cons,
        List.map_nil, List.count_cons, List.count_nil, PropertyChunk.region_withSlots, isRegion]
      omega
    · intro position outside
      have notLink : ∀ region ∈ [(⟨ref.address, unusedSize + 9⟩ : Region)],
          ¬ region.Has position := by
        rintro region (_ | ⟨_, ⟨⟩⟩) has
        exact outside _ List.mem_cons_self (inChunk has)
      exact (linkSame position notLink).trans
        (same position fun region member => outside region (List.mem_cons_of_mem _ member))
  · have grown : Restores [⟨start, PropertyList.chunkSize⟩] world (grownWorld world mem start) :=
      Restores.of_same rfl same
    apply grown.trans
    apply Restores.of_logged rfl
    apply linkSame.mono
    intro region member position has
    exact ⟨region, List.mem_append_left _ member, has⟩

end Linking

theorem setLink_eq {place : PropertyRef} {mem : Memory} {start unusedSize : Nat}
    (header : place.chunkSize mem = size) (isSize : place.offset + unusedSize + 9 = size)
    (small : unusedSize < 16) :
    place.setLink start (grownWorld world mem start) =
      .ok () (linkedWorld world mem place unusedSize start) := by
  have isMem : (grownWorld world mem start).mem = mem := rfl
  have remaining : place.chunkSize mem - place.offset = unusedSize + 9 := by omega
  rw [PropertyRef.setLink, get_bind, isMem, linkedWorld]
  dsimp only
  rw [remaining, if_pos ⟨by omega, by omega⟩, Nat.add_sub_cancel, withLink]
  split_ifs <;> rfl

theorem addChunk_eq {start : Nat} (atEnd : ¬ ref.NotDone world.mem) (isAddress : 8 ≤ start) :
    PropertyList.addChunk ref (some start) world = (do
      let mem := (← get).mem
      let (place, last) ←
        if ref.freeSpace mem < 9 then ref.makeSpace ⟨start, 1, isAddress⟩
        else pure (ref, ⟨start, 1, isAddress⟩)
      place.setLink start
      return last : ListEdit PropertyRef)
        (grownWorld world (PropertyList.init world.mem start PropertyList.chunkSize) start) := by
  have isStart : PropertyRef.first start = some ⟨start, 1, isAddress⟩ := dif_pos isAddress
  rw [PropertyList.addChunk, get_bind, if_neg atEnd]
  apply (bind_ok rfl).trans
  rw [isStart]
  rfl

/-- `add_chunk` at the end of a list whose last chunk is nearly full. -/
theorem ListHeld.addChunk_ends (held : ListHeld list size world chain)
    (place : PlaceIn chain ref before [] chunk chunk.slots [])
    (full : chunk.size < ref.offset + 16) (offered : Offered list size world PropertyList.chunkSize offer) :
    EndsAs (PropertyList.addChunk ref offer world)
      (fun last next => ∃ start grown, offer = some start ∧
        GrownList list size world next chain grown last start)
      (fun failure next => failure = .badAlloc ∧ offer = none ∧ next = world) := by
  have atEnd : RestAt world.mem ref chunk.size [] none := place.restAt held.held
  cases offer with
  | none =>
      rw [PropertyList.addChunk, get_bind, if_neg atEnd.done]
      exact ⟨rfl, rfl, rfl⟩
  | some start =>
      obtain ⟨isAddress, pointer, apart⟩ := offered start rfl
      have sameChunk : ref.chunk = chunk.address := by rw [place.isRef]; rfl
      have isOffset : ref.offset = 1 + slotLayout.total chunk.slots := by rw [place.isRef]; rfl
      have isChunk : chunk ∈ chain := place.isChain ▸ List.mem_append_right _ List.mem_cons_self
      have chunkApart := apart _ (held.mem_regions
        (List.mem_append_left _ (List.mem_map_of_mem isChunk)))
      have low := chunk.size_ge
      have isSize : PropertyList.chunkSize = 64 := rfl
      have initSame : SameOutside [⟨start, PropertyList.chunkSize⟩] world.mem
          (PropertyList.init world.mem start PropertyList.chunkSize) := by
        intro position outside
        have notHere := outside _ List.mem_cons_self
        rw [Region.Has] at notHere
        dsimp only at notHere
        exact store_outside (by simp only [List.length_cons, List.length_nil]; omega)
      have new := @restAt_init PropertyList.chunkSize world.mem ⟨start, 1, isAddress⟩ rfl
        (by decide) (by decide)
      have initEnd := held.restAt_fresh place offered initSame
      have header := initEnd.header
      have isFree : ref.freeSpace (PropertyList.init world.mem start PropertyList.chunkSize) =
          chunk.size - ref.offset :=
        @freeSpace_eq _ _ _ [] [] none initEnd (by simp) (by simp)
      rw [addChunk_eq atEnd.done isAddress, get_bind]
      split_ifs with tight
      · have isFirst : RestAt (PropertyList.init world.mem start PropertyList.chunkSize)
            (chunk.refAt 1) chunk.size chunk.slots none := by
          have whole : PlaceIn chain (chunk.refAt 1) before [] chunk [] chunk.slots :=
            ⟨place.isChain, rfl, rfl⟩
          exact held.restAt_fresh whole offered initSame
        have isTight : chunk.size - ref.offset < 9 := isFree ▸ tight
        obtain ⟨front, back, moved, isSlots, isMoved, same, newRest, fits, near, few⟩ :=
          @exists_makeSpace (grownWorld world
            (PropertyList.init world.mem start PropertyList.chunkSize) start) ref (chunk.refAt 1)
            ⟨start, 1, isAddress⟩ chunk.size chunk.slots rfl sameChunk isFirst low (by omega) new rfl
            chunkApart
        have movedSame : SameOutside [⟨start, PropertyList.chunkSize⟩] world.mem moved := by
          apply initSame.trans
          intro position outside
          have notHere := outside _ List.mem_cons_self
          rw [Region.Has] at notHere
          dsimp only at notHere
          apply same
          have isPlace : (⟨start, 1, isAddress⟩ : PropertyRef).address = start + 1 := rfl
          dsimp only
          omega
        have linkPlace : PlaceIn chain (chunk.refAt (1 + slotLayout.total front)) before [] chunk front
            back := ⟨place.isChain, isSlots, rfl⟩
        have linkEnd := held.restAt_fresh linkPlace offered movedSame
        have grown := @ListHeld.linked _ _ _ _ _ _ _ _ _ (usedSlots back) moved start
          (chunk.size - (1 + slotLayout.total front) - 9) isAddress held linkPlace
          (by dsimp only [PropertyChunk.refAt]; omega) (by omega) offered movedSame newRest
          (entriesOf_usedSlots back) few
        have isEnd : (chunk.refAt (1 + slotLayout.total front)).offset +
            (chunk.size - (1 + slotLayout.total front) - 9) + 9 = chunk.size := by
          dsimp only [PropertyChunk.refAt]
          omega
        have isLinked := @setLink_eq _ world _ moved start _ linkEnd.header isEnd (by omega)
        apply EndsAs.bind_ok isMoved
        exact EndsAs.bind_ok isLinked ⟨start, _, rfl, grown⟩
      · have isRoomy : ¬ chunk.size - ref.offset < 9 := isFree ▸ tight
        have isEnd : ref.offset + (chunk.size - ref.offset - 9) + 9 = chunk.size := by
          omega
        have grown := @ListHeld.linked _ _ _ _ _ _ _ _ _ [] _ start (chunk.size - ref.offset - 9)
          isAddress held place isEnd (by omega) offered initSame new rfl (by decide)
        have isLinked := @setLink_eq _ world _ _ start _ header isEnd (by omega)
        apply EndsAs.bind_ok rfl
        exact EndsAs.bind_ok isLinked ⟨start, _, rfl, grown⟩

end NewChunks

end Pmgd
