import Mathlib.Algebra.Order.BigOperators.Group.List
import Mathlib.Algebra.Order.Ring.Nat
import Pmgd.ChunkList

/-!
# Lists of chunks are finite maps

The bits of a chunk below a mark are right, and all slots in use are below it; the bits from the
mark on may be anything.  A scan ends at the mark or before, and a slot that it offers for a new key
is the mark itself at most.
-/

namespace Pmgd.ChunkList

open LabelledRun LinkedList

variable {K V : Type*} {list : ChunkList K V} {chunks : List Nat} {high : Nat → Nat}
  {place other : Place} {maxPerChunk : Nat}

/-- The slots with elements, if the bits below the marks are right. -/
def Live (list : ChunkList K V) (chunks : List Nat) (high : Nat → Nat) (place : Place) : Prop :=
  place.chunk ∈ chunks ∧ place.slot ∈ (list.chunks place.chunk).liveSlots (high place.chunk)

/-- The invariant of a list with these chunks and these marks. -/
structure Holds (maxPerChunk : Nat) (list : ChunkList K V) (chunks : List Nat)
    (high : Nat → Nat) : Prop where
  linked : Linked list.link none chunks
  nodup : chunks.Nodup
  high_le : ∀ chunk ∈ chunks, high chunk ≤ maxPerChunk
  count : ∀ chunk ∈ chunks,
    ((list.chunks chunk).liveSlots (high chunk)).card = (list.chunks chunk).numElems
  nonempty : ∀ chunk ∈ chunks, 0 < (list.chunks chunk).numElems
  keys : ∀ place other, Live list chunks high place → Live list chunks high other →
    list.keyAt place = list.keyAt other → place = other
  total : list.numElems = (chunks.map fun chunk => (list.chunks chunk).numElems).sum

/-- Every chunk has an element, so that the bound of the walks is large enough. -/
theorem Holds.length_le (holds : Holds maxPerChunk list chunks high) :
    chunks.length ≤ list.numElems := by
  have perChunk : ∀ count ∈ chunks.map fun chunk => (list.chunks chunk).numElems, 1 ≤ count := by
    intro count member
    obtain ⟨chunk, isChunk, rfl⟩ := List.mem_map.mp member
    exact holds.nonempty chunk isChunk
  have bounded := List.length_le_sum_of_one_le _ perChunk
  rwa [List.length_map, ← holds.total] at bounded

theorem Holds.linkedChunks_eq (holds : Holds maxPerChunk list chunks high) :
    list.linkedChunks = chunks :=
  holds.linked.nodesFrom_eq holds.length_le

/-! ## Searching -/

section Search

variable {key : K}

/-- A slot that is not in use, not behind the mark. -/
def IsRoom (maxPerChunk : Nat) (list : ChunkList K V) (high : Nat → Nat) (place : Place) : Prop :=
  place.slot ≤ high place.chunk ∧ place.slot < maxPerChunk ∧
    place.slot ∉ (list.chunks place.chunk).liveSlots (high place.chunk)

/-- All slots of some chunks. -/
def slotsOf (maxPerChunk : Nat) (chunks : List Nat) : List Place :=
  chunks.flatMap fun chunk => (List.range maxPerChunk).map (Place.mk chunk)

/-- The first slot that is not in use. -/
def firstRoom (maxPerChunk : Nat) (list : ChunkList K V) (high : Nat → Nat)
    (chunks : List Nat) : Option Place :=
  (slotsOf maxPerChunk chunks).find? fun place =>
    place.slot ∉ (list.chunks place.chunk).liveSlots (high place.chunk)

theorem firstRoom_cons {chunk : Nat} :
    firstRoom maxPerChunk list high (chunk :: chunks) =
      (((List.range maxPerChunk).find? fun slot =>
        slot ∉ (list.chunks chunk).liveSlots (high chunk)).map (Place.mk chunk)).or
          (firstRoom maxPerChunk list high chunks) := by
  rw [firstRoom, slotsOf, List.flatMap_cons, List.find?_append, List.find?_map]
  rfl

theorem isRoom_of_firstRoom (isFirst : firstRoom maxPerChunk list high chunks = some place) :
    place.chunk ∈ chunks ∧ IsRoom maxPerChunk list high place := by
  induction chunks with
  | nil => cases isFirst
  | cons chunk chunks ih =>
      rw [firstRoom_cons, Option.or_eq_some_iff, Option.map_eq_some_iff] at isFirst
      rcases isFirst with ⟨slot, isHere, rfl⟩ | ⟨-, later⟩
      · obtain ⟨isFree, inRange, inFront⟩ := List.find?_range_eq_some.mp isHere
        rw [decide_eq_true_eq] at isFree
        refine ⟨List.mem_cons_self, ?_, List.mem_range.mp inRange, isFree⟩
        by_contra behind
        have isLive := inFront (high chunk) (by simpa using behind)
        simp [mem_liveSlots] at isLive
      · obtain ⟨member, isRoom⟩ := ih later
        exact ⟨List.mem_cons_of_mem chunk member, isRoom⟩

theorem room_of_finishes {chunk last elems : Nat} {hole : Option Nat}
    (finishes : Finishes (list.chunks chunk) key (high chunk) 0 none last elems hole)
    (count : ((list.chunks chunk).liveSlots (high chunk)).card = (list.chunks chunk).numElems)
    (bounded : high chunk ≤ maxPerChunk) :
    hole.or (if elems < maxPerChunk then some last else none) =
      (List.range maxPerChunk).find? fun slot =>
        slot ∉ (list.chunks chunk).liveSlots (high chunk) := by
  obtain ⟨-, lastBound⟩ := finishes.bounds
  cases isHole : hole with
  | some slot =>
      rw [Option.some_or]
      symm
      rcases finishes.room_isClear slot isHole with isNone | ⟨-, -, below, isClear, allSet⟩
      · cases isNone
      · rw [List.find?_range_eq_some, decide_eq_true_eq, mem_liveSlots, isClear, List.mem_range]
        refine ⟨by simp, by omega, fun other inFront => ?_⟩
        have isLive : other ∈ (list.chunks chunk).liveSlots (high chunk) :=
          mem_liveSlots.mpr ⟨by omega, allSet other (Nat.zero_le other) inFront⟩
        simpa using isLive
  | none =>
      -- without a hole the scan has only passed slots in use
      obtain ⟨-, allSet⟩ := finishes.full isHole
      have isAll : (list.chunks chunk).liveSlots last = Finset.range last := by
        apply Finset.filter_true_of_mem
        intro index inRange
        exact allSet index (Nat.zero_le _) (Finset.mem_range.mp inRange)
      have seenAll := finishes.seenAll
      rw [isAll, Finset.card_range, ← finishes.elems_eq] at seenAll
      have passed : ∀ other, other < last →
          other ∈ (list.chunks chunk).liveSlots (high chunk) := fun other below =>
        mem_liveSlots.mpr ⟨by omega, allSet other (Nat.zero_le other) below⟩
      rw [Option.none_or, ← seenAll]
      symm
      split_ifs with hasRoom
      · rw [List.find?_range_eq_some, decide_eq_true_eq, List.mem_range]
        refine ⟨fun member => ?_, hasRoom, fun other inFront => by simpa using passed other inFront⟩
        have elemsEq := finishes.elems_eq
        exact absurd (lt_of_card_le lastBound (by rw [isAll, Finset.card_range]; omega) member)
          (lt_irrefl _)
      · rw [List.find?_range_eq_none]
        intro other inRange
        simpa using passed other (by omega)

variable [DecidableEq K]

theorem searchFrom_spec (holds : Holds maxPerChunk list chunks high) (key : K)
    {rest : List Nat} {prev : Option Nat} (empty : Option Place) {bound : Nat}
    (linked : Linked list.link prev rest) (subset : ∀ chunk ∈ rest, chunk ∈ chunks)
    (enough : rest.length ≤ bound) :
    (∃ before chunk after slot, rest = before ++ chunk :: after ∧
      slot ∈ (list.chunks chunk).liveSlots (high chunk) ∧ list.keyAt ⟨chunk, slot⟩ = key ∧
      searchFrom maxPerChunk list key bound (list.link prev) prev empty =
        some (.found (placeBehind prev before) ⟨chunk, slot⟩)) ∨
    searchFrom maxPerChunk list key bound (list.link prev) prev empty =
        some (.missing (placeBehind prev rest)
          (empty.or (firstRoom maxPerChunk list high rest))) ∧
      ∀ chunk ∈ rest, ∀ slot ∈ (list.chunks chunk).liveSlots (high chunk),
        list.keyAt ⟨chunk, slot⟩ ≠ key := by
  induction rest generalizing prev empty bound with
  | nil =>
      right
      refine ⟨?_, by simp⟩
      rw [linked.head, List.head?_nil, searchFrom]
      simp [firstRoom, slotsOf, placeBehind]
  | cons curr rest ih =>
      obtain ⟨isNext, linkedRest⟩ := linked
      cases bound with
      | zero => simp at enough
      | succ bound =>
          have isChunk := subset curr List.mem_cons_self
          have count := holds.count curr isChunk
          have bounded := holds.high_le curr isChunk
          rw [isNext, searchFrom]
          rcases scan_chunk count bounded key with
            ⟨slot, isLive, isKey, isScan⟩ | ⟨last, elems, hole, isScan, finishes⟩
          · left
            refine ⟨[], curr, rest, slot, rfl, isLive, isKey, ?_⟩
            rw [isScan, Option.bind_some]
            rfl
          · rw [isScan, Option.bind_some]
            dsimp only
            rw [room_of_finishes finishes count bounded]
            have subsetRest : ∀ chunk ∈ rest, chunk ∈ chunks := fun chunk member =>
              subset chunk (List.mem_cons_of_mem curr member)
            have rested := ih (empty.or (((List.range maxPerChunk).find? fun slot =>
              slot ∉ (list.chunks curr).liveSlots (high curr)).map (Place.mk curr))) linkedRest
              subsetRest (Nat.le_of_succ_le_succ enough)
            rcases rested with ⟨before, chunk, after, slot, isRest, isLive, isKey, isFound⟩ |
              ⟨isMissing, missing⟩
            · left
              refine ⟨curr :: before, chunk, after, slot, ?_, isLive, isKey, isFound⟩
              rw [isRest, List.cons_append]
            · right
              rw [firstRoom_cons, ← Option.or_assoc]
              refine ⟨isMissing, fun chunk member slot isLive => ?_⟩
              rcases List.mem_cons.mp member with rfl | later
              · exact finishes.missing slot isLive (Nat.zero_le _)
              · exact missing chunk later slot isLive

/-- What `search` finds. -/
theorem Holds.search_spec (holds : Holds maxPerChunk list chunks high) (key : K) :
    (∃ before chunk after slot, chunks = before ++ chunk :: after ∧
      Live list chunks high ⟨chunk, slot⟩ ∧ list.keyAt ⟨chunk, slot⟩ = key ∧
      list.search maxPerChunk key = some (.found before.getLast? ⟨chunk, slot⟩)) ∨
    list.search maxPerChunk key = some (.missing chunks.getLast?
        (firstRoom maxPerChunk list high chunks)) ∧
      ∀ place, Live list chunks high place → list.keyAt place ≠ key := by
  have spec := searchFrom_spec holds key none holds.linked (fun _ member => member)
    holds.length_le
  simp only [placeBehind_none] at spec
  rcases spec with ⟨before, chunk, after, slot, isChunks, isLive, isKey, isFound⟩ |
    ⟨isMissing, missing⟩
  · left
    refine ⟨before, chunk, after, slot, isChunks, ⟨?_, isLive⟩, isKey, isFound⟩
    rw [isChunks]
    exact List.mem_append_right before List.mem_cons_self
  · right
    exact ⟨isMissing, fun place isLive => missing place.chunk isLive.1 place.slot isLive.2⟩

theorem Holds.find_spec (holds : Holds maxPerChunk list chunks high) (key : K) :
    (∃ place, Live list chunks high place ∧ list.keyAt place = key ∧
      list.find maxPerChunk key = some (some place)) ∨
    (∀ place, Live list chunks high place → list.keyAt place ≠ key) ∧
      list.find maxPerChunk key = some none := by
  unfold find
  rcases holds.search_spec key with ⟨before, chunk, after, slot, -, isLive, isKey, isFound⟩ |
    ⟨isMissing, missing⟩
  · exact Or.inl ⟨⟨chunk, slot⟩, isLive, isKey, by rw [isFound, Option.map_some]⟩
  · exact Or.inr ⟨missing, by rw [isMissing, Option.map_some]⟩

/-- The place of a key, for lists of which `find` always ends. -/
def placeOf (maxPerChunk : Nat) (list : ChunkList K V) (key : K) : Option Place :=
  (list.find maxPerChunk key).getD none

theorem Holds.find_eq (holds : Holds maxPerChunk list chunks high) (key : K) :
    list.find maxPerChunk key = some (list.placeOf maxPerChunk key) := by
  unfold placeOf
  rcases holds.find_spec key with ⟨place, -, -, isFound⟩ | ⟨-, isMissing⟩
  · rw [isFound, Option.getD_some]
  · rw [isMissing, Option.getD_some]

theorem Holds.placeOf_eq_some_iff (holds : Holds maxPerChunk list chunks high) :
    list.placeOf maxPerChunk key = some place ↔
      Live list chunks high place ∧ list.keyAt place = key := by
  unfold placeOf
  rcases holds.find_spec key with ⟨found, isLive, isKey, isFound⟩ | ⟨missing, isMissing⟩
  · rw [isFound, Option.getD_some, Option.some.injEq]
    constructor
    · rintro rfl
      exact ⟨isLive, isKey⟩
    · rintro ⟨placeLive, placeKey⟩
      exact holds.keys found place isLive placeLive (isKey.trans placeKey.symm)
  · rw [isMissing, Option.getD_some]
    exact iff_of_false (by simp) fun both => missing place both.1 both.2

theorem Holds.placeOf_eq_none_iff (holds : Holds maxPerChunk list chunks high) :
    list.placeOf maxPerChunk key = none ↔
      ∀ place, Live list chunks high place → list.keyAt place ≠ key := by
  rw [Option.eq_none_iff_forall_ne_some]
  constructor
  · intro none place isLive isKey
    exact none place (holds.placeOf_eq_some_iff.mpr ⟨isLive, isKey⟩)
  · intro missing place isPlace
    obtain ⟨isLive, isKey⟩ := holds.placeOf_eq_some_iff.mp isPlace
    exact missing place isLive isKey

end Search

/-! ## All elements -/

theorem keyValuesFrom_spec (holds : Holds maxPerChunk list chunks high) {rest : List Nat}
    {prev : Option Nat} {bound : Nat} (linked : Linked list.link prev rest)
    (subset : ∀ chunk ∈ rest, chunk ∈ chunks) (nodup : rest.Nodup)
    (enough : rest.length ≤ bound) :
    ∃ places, keyValuesFrom maxPerChunk list bound (list.link prev) = some places ∧
      places.Nodup ∧
      places.length = (rest.map fun chunk => (list.chunks chunk).numElems).sum ∧
      ∀ place, place ∈ places ↔ Live list rest high place := by
  induction rest generalizing prev bound with
  | nil =>
      refine ⟨[], ?_, List.nodup_nil, rfl, fun place => ?_⟩
      · rw [linked.head, List.head?_nil, keyValuesFrom]
      · exact iff_of_false List.not_mem_nil fun live => List.not_mem_nil live.1
  | cons curr rest ih =>
      obtain ⟨isNext, linkedRest⟩ := linked
      obtain ⟨notLater, nodupRest⟩ := List.nodup_cons.mp nodup
      cases bound with
      | zero => simp at enough
      | succ bound =>
          have isChunk := subset curr List.mem_cons_self
          obtain ⟨slots, isSlots, slotsNodup, slotsLength, slotsMembers⟩ :=
            slots_chunk (holds.count curr isChunk) (holds.high_le curr isChunk)
          obtain ⟨places, isPlaces, placesNodup, placesLength, placesMembers⟩ := ih linkedRest
            (fun chunk member => subset chunk (List.mem_cons_of_mem curr member)) nodupRest
            (Nat.le_of_succ_le_succ enough)
          have isRest : keyValuesFrom maxPerChunk list bound (list.chunks curr).next =
              some places := isPlaces
          refine ⟨slots.map (fun slot => ⟨curr, slot⟩) ++ places, ?_, ?_, ?_, fun place => ?_⟩
          · rw [isNext, keyValuesFrom, isSlots, Option.bind_some, isRest, Option.map_some]
          · apply (slotsNodup.map fun _ _ same => (Place.mk.inj same).2).append placesNodup
            intro place here later
            obtain ⟨slot, -, rfl⟩ := List.mem_map.mp here
            exact notLater ((placesMembers _).mp later).1
          · rw [List.length_append, List.length_map, slotsLength, placesLength, List.map_cons,
              List.sum_cons]
          · rw [List.mem_append, placesMembers, List.mem_map]
            constructor
            · rintro (⟨slot, isSlot, rfl⟩ | later)
              · exact ⟨List.mem_cons_self, (slotsMembers slot).mp isSlot⟩
              · exact ⟨List.mem_cons_of_mem curr later.1, later.2⟩
            · rintro ⟨member, isLive⟩
              rcases List.mem_cons.mp member with same | later
              · rw [same] at isLive
                exact Or.inl ⟨place.slot, (slotsMembers _).mpr isLive, by rw [← same]⟩
              · exact Or.inr ⟨later, isLive⟩

theorem Holds.getKeyValues_spec (holds : Holds maxPerChunk list chunks high) :
    ∃ places, list.getKeyValues maxPerChunk = some places ∧ places.Nodup ∧
      places.length = list.numElems ∧ ∀ place, place ∈ places ↔ Live list chunks high place := by
  obtain ⟨places, isPlaces, nodup, length, members⟩ := keyValuesFrom_spec holds holds.linked
    (fun _ member => member) holds.nodup holds.length_le
  exact ⟨places, isPlaces, nodup, length.trans holds.total.symm, members⟩

/-! ## Stores -/

section Stores

variable {prev next : Option Nat} {occupants : BitVec 16} {numElems chunk slot : Nat}

theorem link_writeLink : (list.writeLink prev next).link = Function.update list.link prev next := by
  funext pointer
  cases prev with
  | none =>
      cases pointer with
      | none => rfl
      | some chunk => rfl
  | some chunk =>
      cases pointer with
      | none => rfl
      | some other =>
          by_cases same : other = chunk
          · subst same
            simp [link, writeLink]
          · simp [link, writeLink, same]

theorem link_writeNumElems : (list.writeNumElems numElems).link = list.link := by
  funext pointer
  cases pointer <;> rfl

theorem link_writeCounts : (list.writeCounts chunk occupants numElems).link = list.link := by
  funext pointer
  cases pointer with
  | none => rfl
  | some other =>
      by_cases same : other = chunk
      · subst same
        simp [link, writeCounts]
      · simp [link, writeCounts, same]

theorem link_fill {content : K × V} : (list.fill place content).link = list.link := by
  funext pointer
  cases pointer with
  | none => rfl
  | some other =>
      by_cases same : other = place.chunk
      · subst same
        simp [link, fill, setChunk]
      · simp [link, fill, setChunk, same]

/-- A link changes nothing else of a chunk. -/
theorem chunks_writeLink :
    ((list.writeLink prev next).chunks chunk).occupants = (list.chunks chunk).occupants ∧
      ((list.writeLink prev next).chunks chunk).numElems = (list.chunks chunk).numElems ∧
      ((list.writeLink prev next).chunks chunk).data = (list.chunks chunk).data := by
  cases prev with
  | none => exact ⟨rfl, rfl, rfl⟩
  | some changed =>
      by_cases same : chunk = changed
      · subst same
        simp [writeLink]
      · simp [writeLink, same]

theorem isSet_or_bitPos {changed : ChunkListType K V} {memory : ChunkListType K V}
    (isChanged : changed.occupants = memory.occupants ||| bitPos slot) (inWord : slot < 16)
    (other : Nat) : changed.isSet other = (memory.isSet other || decide (other = slot)) := by
  rw [isSet_eq_getLsbD, isSet_eq_getLsbD, isChanged, BitVec.getLsbD_or, bitPos]
  congr 1
  simp only [BitVec.getLsbD_shiftLeft, BitVec.getLsbD_one]
  by_cases same : other = slot
  · simp [same, inWord]
  · simp only [same, decide_false]
    grind

theorem isSet_clear_bitPos {changed : ChunkListType K V} {memory : ChunkListType K V}
    (isChanged : changed.occupants = memory.occupants &&& ~~~bitPos slot) (other : Nat) :
    changed.isSet other = (memory.isSet other && !decide (other = slot)) := by
  rw [isSet_eq_getLsbD, isSet_eq_getLsbD, isChanged, BitVec.getLsbD_and, bitPos]
  cases isBit : memory.occupants.getLsbD other with
  | false => rw [Bool.false_and, Bool.false_and]
  | true =>
      have inWord : other < 16 := BitVec.lt_of_getLsbD isBit
      simp only [Bool.true_and, BitVec.getLsbD_not, BitVec.getLsbD_shiftLeft, BitVec.getLsbD_one]
      by_cases same : other = slot
      · simp [same]
      · simp only [same, decide_false]
        grind

end Stores

theorem sum_map_of_change {chunk : Nat} (nodup : chunks.Nodup) (member : chunk ∈ chunks)
    {before after : Nat → Nat}
    (others : ∀ other ∈ chunks, other ≠ chunk → after other = before other) :
    (chunks.map after).sum + before chunk = (chunks.map before).sum + after chunk := by
  obtain ⟨first, second, rfl⟩ := List.append_of_mem member
  obtain ⟨notElsewhere, -⟩ := List.nodup_cons.mp (List.nodup_middle.mp nodup)
  have same : ∀ part : List Nat, (∀ other ∈ part, other ∈ first ++ second) →
      part.map after = part.map before := by
    intro part subset
    apply List.map_congr_left
    intro other isPart
    have isOther := subset other isPart
    apply others other
    · rcases List.mem_append.mp isOther with inFirst | inSecond
      · exact List.mem_append_left _ inFirst
      · exact List.mem_append_right _ (List.mem_cons_of_mem _ inSecond)
    · rintro rfl
      exact notElsewhere isOther
  rw [List.map_append, List.map_append, List.map_cons, List.map_cons,
    same first fun other inFirst => List.mem_append_left _ inFirst,
    same second fun other inSecond => List.mem_append_right _ inSecond]
  simp only [List.sum_append, List.sum_cons]
  omega

/-! ## Adding -/

/-- A slot has a new element, and the elements of the list are still at their places. -/
structure Adds (list after : ChunkList K V) (chunks : List Nat) (high : Nat → Nat) (place : Place)
    (content : K × V) : Prop where
  keyAt_new : after.keyAt place = content.1
  valueAt_new : after.valueAt place = content.2
  keyAt_old : ∀ other, Live list chunks high other → after.keyAt other = list.keyAt other
  valueAt_old : ∀ other, Live list chunks high other → after.valueAt other = list.valueAt other

theorem Adds.keys {after : ChunkList K V} {content : K × V} {laterChunks : List Nat}
    {laterHigh : Nat → Nat} (adds : Adds list after chunks high place content)
    (holds : Holds maxPerChunk list chunks high)
    (missing : ∀ other, Live list chunks high other → list.keyAt other ≠ content.1)
    (live : ∀ other, Live after laterChunks laterHigh other ↔
      other = place ∨ Live list chunks high other)
    {first second : Place} (firstLive : Live after laterChunks laterHigh first)
    (secondLive : Live after laterChunks laterHigh second)
    (same : after.keyAt first = after.keyAt second) : first = second := by
  rcases (live first).mp firstLive with rfl | firstOld
  · rcases (live second).mp secondLive with rfl | secondOld
    · rfl
    · rw [adds.keyAt_new, adds.keyAt_old second secondOld] at same
      exact absurd same.symm (missing second secondOld)
  · rcases (live second).mp secondLive with rfl | secondOld
    · rw [adds.keyAt_new, adds.keyAt_old first firstOld] at same
      exact absurd same (missing first firstOld)
    · rw [adds.keyAt_old first firstOld, adds.keyAt_old second secondOld] at same
      exact holds.keys first second firstOld secondOld same

/-- The list of `add` when there is a free slot. -/
def fillRoom (list : ChunkList K V) (place : Place) (content : K × V) : ChunkList K V :=
  ((list.writeCounts place.chunk
    ((list.chunks place.chunk).occupants ||| bitPos place.slot)
    ((list.chunks place.chunk).numElems + 1)).writeNumElems (list.numElems + 1)).fill place content

theorem chunks_fillRoom {content : K × V} (chunk : Nat) :
    (list.fillRoom place content).chunks chunk =
      if chunk = place.chunk then
        { list.chunks place.chunk with
          occupants := (list.chunks place.chunk).occupants ||| bitPos place.slot
          numElems := (list.chunks place.chunk).numElems + 1
          data := Function.update (list.chunks place.chunk).data place.slot content }
      else list.chunks chunk := by
  by_cases same : chunk = place.chunk
  · simp [fillRoom, fill, setChunk, writeNumElems, writeCounts, same]
  · simp [fillRoom, fill, setChunk, writeNumElems, writeCounts, same]

theorem adds_fillRoom {content : K × V} (notLive : ¬ Live list chunks high place) :
    Adds list (list.fillRoom place content) chunks high place content := by
  have others : ∀ other, Live list chunks high other →
      ((list.fillRoom place content).chunks other.chunk).data other.slot =
        (list.chunks other.chunk).data other.slot := by
    intro other isLive
    rw [chunks_fillRoom]
    by_cases same : other.chunk = place.chunk
    · have differentSlot : other.slot ≠ place.slot := by
        intro sameSlot
        apply notLive
        have isPlace : other = place := by
          cases other
          cases place
          simp_all
        exact isPlace ▸ isLive
      rw [if_pos same, same]
      exact Function.update_of_ne differentSlot _ _
    · rw [if_neg same]
  have here : ((list.fillRoom place content).chunks place.chunk).data place.slot = content := by
    rw [chunks_fillRoom, if_pos rfl]
    exact Function.update_self _ _ _
  exact ⟨congrArg Prod.fst here, congrArg Prod.snd here,
    fun other isLive => congrArg Prod.fst (others other isLive),
    fun other isLive => congrArg Prod.snd (others other isLive)⟩

theorem Holds.fillRoom (holds : Holds maxPerChunk list chunks high) (inWord : maxPerChunk ≤ 16)
    (isChunk : place.chunk ∈ chunks) (isRoom : IsRoom maxPerChunk list high place) {key : K}
    {value : V} (missing : ∀ other, Live list chunks high other → list.keyAt other ≠ key) :
    ∃ laterHigh, Holds maxPerChunk (list.fillRoom place (key, value)) chunks laterHigh ∧
      (∀ other, Live (list.fillRoom place (key, value)) chunks laterHigh other ↔
        other = place ∨ Live list chunks high other) ∧
      Adds list (list.fillRoom place (key, value)) chunks high place (key, value) := by
  obtain ⟨inFront, isSlot, isFree⟩ := isRoom
  let laterHigh := Function.update high place.chunk (max (high place.chunk) (place.slot + 1))
  have liveSlots_here : ((list.fillRoom place (key, value)).chunks place.chunk).liveSlots
      (laterHigh place.chunk) =
        insert place.slot ((list.chunks place.chunk).liveSlots (high place.chunk)) := by
    ext slot
    rw [Finset.mem_insert, mem_liveSlots, mem_liveSlots,
      isSet_or_bitPos (by rw [chunks_fillRoom, if_pos rfl]) (isSlot.trans_le inWord)]
    simp only [laterHigh, Function.update_self, Bool.or_eq_true, decide_eq_true_eq]
    constructor
    · rintro ⟨below, isSet | same⟩
      · by_cases same : slot = place.slot
        · exact Or.inl same
        · exact Or.inr ⟨by omega, isSet⟩
      · exact Or.inl same
    · rintro (same | ⟨below, isSet⟩)
      · exact ⟨by omega, Or.inr same⟩
      · exact ⟨by omega, Or.inl isSet⟩
  have liveSlots_other : ∀ chunk, chunk ≠ place.chunk →
      ((list.fillRoom place (key, value)).chunks chunk).liveSlots (laterHigh chunk) =
        (list.chunks chunk).liveSlots (high chunk) := by
    intro chunk different
    rw [chunks_fillRoom, if_neg different]
    simp only [laterHigh, Function.update_of_ne different]
  have live : ∀ other, Live (list.fillRoom place (key, value)) chunks laterHigh other ↔
      other = place ∨ Live list chunks high other := by
    intro other
    unfold Live
    by_cases same : other.chunk = place.chunk
    · rw [same, liveSlots_here, Finset.mem_insert]
      have isPlace : other = place ↔ other.slot = place.slot := by
        cases other
        cases place
        simp_all
      rw [isPlace]
      grind
    · rw [liveSlots_other _ same]
      have notPlace : other ≠ place := fun isPlace => same (by rw [isPlace])
      simp [notPlace]
  have adds : Adds list (list.fillRoom place (key, value)) chunks high place (key, value) :=
    adds_fillRoom fun isLive => isFree isLive.2
  refine ⟨laterHigh, ⟨?_, holds.nodup, fun chunk member => ?_, fun chunk member => ?_,
    fun chunk member => ?_, fun first second firstLive secondLive same => ?_, ?_⟩, live, adds⟩
  · have sameLink : (list.fillRoom place (key, value)).link = list.link := by
      rw [ChunkList.fillRoom, link_fill, link_writeNumElems, link_writeCounts]
    rw [sameLink]
    exact holds.linked
  · have bounded := holds.high_le chunk member
    by_cases same : chunk = place.chunk
    · subst same
      simp only [laterHigh, Function.update_self]
      omega
    · simpa only [laterHigh, Function.update_of_ne same] using bounded
  · have count := holds.count chunk member
    by_cases same : chunk = place.chunk
    · subst same
      rw [liveSlots_here, Finset.card_insert_of_notMem isFree, count, chunks_fillRoom, if_pos rfl]
    · rw [liveSlots_other chunk same, count, chunks_fillRoom, if_neg same]
  · rw [chunks_fillRoom]
    split_ifs
    · exact Nat.succ_pos _
    · exact holds.nonempty chunk member
  · exact adds.keys holds missing live firstLive secondLive same
  · have changed := @sum_map_of_change chunks place.chunk holds.nodup isChunk
      (fun chunk => (list.chunks chunk).numElems)
      (fun chunk => ((list.fillRoom place (key, value)).chunks chunk).numElems)
      (fun chunk _ different => by rw [chunks_fillRoom, if_neg different])
    have isTotal : (list.fillRoom place (key, value)).numElems = list.numElems + 1 := rfl
    have here : ((list.fillRoom place (key, value)).chunks place.chunk).numElems =
        (list.chunks place.chunk).numElems + 1 := by
      rw [chunks_fillRoom, if_pos rfl]
    have total := holds.total
    omega

theorem link_setChunk {chunk : Nat} {changed : ChunkListType K V} :
    (list.setChunk chunk changed).link = Function.update list.link (some chunk) changed.next := by
  funext pointer
  cases pointer with
  | none => rfl
  | some other =>
      by_cases same : other = chunk
      · subst same
        simp [link, setChunk]
      · simp [link, setChunk, same]

/-- The list of `add` when all chunks are full. -/
def appendChunk (list : ChunkList K V) (prev : Option Nat) (fresh : Nat)
    (memory : ChunkListType K V) (content : K × V) : ChunkList K V :=
  (((list.setChunk fresh
    { memory with next := none, occupants := memory.occupants ||| 1, numElems := 1 }).writeLink
      prev (some fresh)).writeNumElems (list.numElems + 1)).fill ⟨fresh, 0⟩ content

section AppendChunk

variable {prev : Option Nat} {fresh : Nat} {memory : ChunkListType K V} {content : K × V}

theorem chunks_appendChunk_self :
    ((list.appendChunk prev fresh memory content).chunks fresh).occupants =
        memory.occupants ||| bitPos 0 ∧
      ((list.appendChunk prev fresh memory content).chunks fresh).numElems = 1 ∧
      ((list.appendChunk prev fresh memory content).chunks fresh).data =
        Function.update memory.data 0 content := by
  obtain ⟨sameOccupants, sameElems, sameData⟩ := @chunks_writeLink K V (list.setChunk fresh
    { memory with next := none, occupants := memory.occupants ||| 1, numElems := 1 }) prev
      (some fresh) fresh
  simp only [appendChunk, fill, setChunk, writeNumElems, Function.update_self] at *
  rw [sameOccupants, sameElems, sameData]
  exact ⟨rfl, rfl, rfl⟩

theorem chunks_appendChunk_of_ne {chunk : Nat} (different : chunk ≠ fresh) :
    ((list.appendChunk prev fresh memory content).chunks chunk).occupants =
        (list.chunks chunk).occupants ∧
      ((list.appendChunk prev fresh memory content).chunks chunk).numElems =
        (list.chunks chunk).numElems ∧
      ((list.appendChunk prev fresh memory content).chunks chunk).data =
        (list.chunks chunk).data := by
  obtain ⟨sameOccupants, sameElems, sameData⟩ := @chunks_writeLink K V (list.setChunk fresh
    { memory with next := none, occupants := memory.occupants ||| 1, numElems := 1 }) prev
      (some fresh) chunk
  simp only [appendChunk, fill, setChunk, writeNumElems, Function.update_of_ne different] at *
  exact ⟨sameOccupants, sameElems, sameData⟩

theorem liveSlots_congr {first second : ChunkListType K V}
    (same : first.occupants = second.occupants) (high : Nat) :
    first.liveSlots high = second.liveSlots high := by
  unfold ChunkListType.liveSlots ChunkListType.isSet
  rw [same]

theorem Holds.appendChunk (holds : Holds maxPerChunk list chunks high)
    (hasSlot : 1 ≤ maxPerChunk) (isFresh : fresh ∉ chunks) {key : K} {value : V}
    (missing : ∀ other, Live list chunks high other → list.keyAt other ≠ key) :
    ∃ laterHigh, Holds maxPerChunk
        (list.appendChunk chunks.getLast? fresh memory (key, value)) (chunks ++ [fresh])
        laterHigh ∧
      (∀ other, Live (list.appendChunk chunks.getLast? fresh memory (key, value))
          (chunks ++ [fresh]) laterHigh other ↔
        other = ⟨fresh, 0⟩ ∨ Live list chunks high other) ∧
      Adds list (list.appendChunk chunks.getLast? fresh memory (key, value)) chunks high
        ⟨fresh, 0⟩ (key, value) := by
  let after := list.appendChunk chunks.getLast? fresh memory (key, value)
  obtain ⟨freshOccupants, freshElems, freshData⟩ := @chunks_appendChunk_self K V list
    chunks.getLast? fresh memory (key, value)
  have notFresh : ∀ chunk ∈ chunks, chunk ≠ fresh := by
    rintro chunk member rfl
    exact isFresh member
  have liveSlots_here : (after.chunks fresh).liveSlots 1 = {0} := by
    ext slot
    rw [mem_liveSlots, isSet_or_bitPos freshOccupants (by decide), Finset.mem_singleton,
      Bool.or_eq_true, decide_eq_true_eq]
    exact ⟨fun both => by omega, fun isZero => ⟨by omega, Or.inr isZero⟩⟩
  have liveSlots_other : ∀ chunk ∈ chunks,
      (after.chunks chunk).liveSlots (Function.update high fresh 1 chunk) =
        (list.chunks chunk).liveSlots (high chunk) := by
    intro chunk member
    rw [Function.update_of_ne (notFresh chunk member)]
    exact liveSlots_congr (chunks_appendChunk_of_ne (notFresh chunk member)).1 _
  have live : ∀ other, Live after (chunks ++ [fresh]) (Function.update high fresh 1) other ↔
      other = ⟨fresh, 0⟩ ∨ Live list chunks high other := by
    intro other
    unfold Live
    rw [List.mem_append, List.mem_singleton]
    by_cases member : other.chunk ∈ chunks
    · have different : other ≠ ⟨fresh, 0⟩ := by
        rintro rfl
        exact isFresh member
      rw [liveSlots_other _ member]
      simp [different, member]
    · by_cases same : other.chunk = fresh
      · rw [same, Function.update_self, liveSlots_here, Finset.mem_singleton]
        have isPlace : other = ⟨fresh, 0⟩ ↔ other.slot = 0 := by
          cases other
          simp_all
        rw [isPlace]
        simp [isFresh]
      · have different : other ≠ ⟨fresh, 0⟩ := by
          rintro rfl
          exact same rfl
        simp [different, member, same]
  have others : ∀ other, Live list chunks high other →
      (after.chunks other.chunk).data other.slot = (list.chunks other.chunk).data other.slot := by
    intro other isLive
    rw [(chunks_appendChunk_of_ne (notFresh _ isLive.1)).2.2]
  have here : (after.chunks fresh).data 0 = (key, value) := by
    rw [freshData, Function.update_self]
  have adds : Adds list after chunks high ⟨fresh, 0⟩ (key, value) :=
    ⟨congrArg Prod.fst here, congrArg Prod.snd here,
      fun other isLive => congrArg Prod.fst (others other isLive),
      fun other isLive => congrArg Prod.snd (others other isLive)⟩
  refine ⟨Function.update high fresh 1, ⟨?_, ?_, fun chunk member => ?_, fun chunk member => ?_,
    fun chunk member => ?_, fun first second firstLive secondLive same => ?_, ?_⟩, live, adds⟩
  · have isLink : after.link = Function.update (list.setChunk fresh
        { memory with next := none, occupants := memory.occupants ||| 1, numElems := 1 }).link
          chunks.getLast? (some fresh) := by
      simp only [after, ChunkList.appendChunk, link_fill, link_writeNumElems, link_writeLink]
    rw [isLink]
    apply Linked.append _ holds.nodup isFresh
    · rw [link_setChunk, Function.update_self]
    · rw [link_setChunk]
      refine holds.linked.congr (Function.update_of_ne (by simp) _ _) fun chunk member => ?_
      have different : some chunk ≠ some fresh := by
        simpa using notFresh chunk member
      exact Function.update_of_ne different _ _
  · rw [List.nodup_append]
    refine ⟨holds.nodup, List.nodup_singleton fresh, fun chunk member other isFresh => ?_⟩
    rw [List.mem_singleton.mp isFresh]
    exact notFresh chunk member
  · rcases List.mem_append.mp member with old | isNew
    · rw [Function.update_of_ne (notFresh chunk old)]
      exact holds.high_le chunk old
    · rw [List.mem_singleton.mp isNew, Function.update_self]
      exact hasSlot
  · rcases List.mem_append.mp member with old | isNew
    · rw [liveSlots_other chunk old, holds.count chunk old,
        (chunks_appendChunk_of_ne (notFresh chunk old)).2.1]
    · rw [List.mem_singleton.mp isNew, Function.update_self, liveSlots_here, freshElems,
        Finset.card_singleton]
  · rcases List.mem_append.mp member with old | isNew
    · rw [(chunks_appendChunk_of_ne (notFresh chunk old)).2.1]
      exact holds.nonempty chunk old
    · rw [List.mem_singleton.mp isNew, freshElems]
      exact Nat.one_pos
  · exact adds.keys holds missing live firstLive secondLive same
  · have sameSum : (chunks.map fun chunk => (after.chunks chunk).numElems) =
        chunks.map fun chunk => (list.chunks chunk).numElems := by
      apply List.map_congr_left
      intro chunk member
      exact (chunks_appendChunk_of_ne (notFresh chunk member)).2.1
    have isTotal : after.numElems = list.numElems + 1 := rfl
    rw [isTotal, List.map_append, sameSum, List.sum_append, ← holds.total, List.map_singleton,
      List.sum_singleton, freshElems]

end AppendChunk

/-! ## Removing -/

/-- The list of `remove` when the key is in a slot. -/
def clearSlot (list : ChunkList K V) (prev : Option Nat) (place : Place) : ChunkList K V :=
  let chunk := list.chunks place.chunk
  let after := (list.writeCounts place.chunk (chunk.occupants &&& ~~~bitPos place.slot)
    (chunk.numElems - 1)).writeNumElems (list.numElems - 1)
  if chunk.numElems - 1 = 0 then after.writeLink prev chunk.next else after

theorem chunks_clearSlot {prev : Option Nat} (chunk : Nat) :
    ((list.clearSlot prev place).chunks chunk).data = (list.chunks chunk).data ∧
      (chunk ≠ place.chunk →
        ((list.clearSlot prev place).chunks chunk).occupants = (list.chunks chunk).occupants ∧
          ((list.clearSlot prev place).chunks chunk).numElems = (list.chunks chunk).numElems) ∧
      (chunk = place.chunk →
        ((list.clearSlot prev place).chunks chunk).occupants =
            (list.chunks chunk).occupants &&& ~~~bitPos place.slot ∧
          ((list.clearSlot prev place).chunks chunk).numElems =
            (list.chunks chunk).numElems - 1) := by
  let after := (list.writeCounts place.chunk
    ((list.chunks place.chunk).occupants &&& ~~~bitPos place.slot)
    ((list.chunks place.chunk).numElems - 1)).writeNumElems (list.numElems - 1)
  have ofAfter : ((list.clearSlot prev place).chunks chunk).occupants =
        (after.chunks chunk).occupants ∧
      ((list.clearSlot prev place).chunks chunk).numElems = (after.chunks chunk).numElems ∧
      ((list.clearSlot prev place).chunks chunk).data = (after.chunks chunk).data := by
    unfold clearSlot
    dsimp only
    split_ifs
    · exact chunks_writeLink
    · exact ⟨rfl, rfl, rfl⟩
  rw [ofAfter.1, ofAfter.2.1, ofAfter.2.2]
  by_cases same : chunk = place.chunk
  · subst same
    simp [after, writeNumElems, writeCounts]
  · simp [after, writeNumElems, writeCounts, same]

theorem Holds.clearSlot (holds : Holds maxPerChunk list chunks high) {before after : List Nat}
    (isChunks : chunks = before ++ place.chunk :: after) (isLive : Live list chunks high place) :
    ∃ laterChunks, Holds maxPerChunk (list.clearSlot before.getLast? place) laterChunks high ∧
      ∀ other, Live (list.clearSlot before.getLast? place) laterChunks high other ↔
        Live list chunks high other ∧ other ≠ place := by
  let removed := list.clearSlot before.getLast? place
  have isChunk := isLive.1
  have positive := holds.nonempty place.chunk isChunk
  have count := holds.count place.chunk isChunk
  have hereElems : (removed.chunks place.chunk).numElems =
      (list.chunks place.chunk).numElems - 1 := ((chunks_clearSlot place.chunk).2.2 rfl).2
  have otherElems : ∀ chunk, chunk ≠ place.chunk →
      (removed.chunks chunk).numElems = (list.chunks chunk).numElems := fun chunk different =>
    ((chunks_clearSlot chunk).2.1 different).2
  have liveSlots_here : (removed.chunks place.chunk).liveSlots (high place.chunk) =
      ((list.chunks place.chunk).liveSlots (high place.chunk)).erase place.slot := by
    ext slot
    rw [Finset.mem_erase, mem_liveSlots, mem_liveSlots,
      isSet_clear_bitPos ((chunks_clearSlot place.chunk).2.2 rfl).1, Bool.and_eq_true,
      Bool.not_eq_true', decide_eq_false_iff_not]
    grind
  have liveSlots_other : ∀ chunk, chunk ≠ place.chunk →
      (removed.chunks chunk).liveSlots (high chunk) =
        (list.chunks chunk).liveSlots (high chunk) := fun chunk different =>
    liveSlots_congr ((chunks_clearSlot chunk).2.1 different).1 _
  have live : ∀ other, Live removed chunks high other ↔
      Live list chunks high other ∧ other ≠ place := by
    intro other
    unfold Live
    by_cases same : other.chunk = place.chunk
    · have isPlace : other = place ↔ other.slot = place.slot := by
        cases other
        cases place
        simp_all
      rw [same, liveSlots_here, Finset.mem_erase, Ne, Ne, isPlace]
      grind
    · rw [liveSlots_other _ same]
      have notPlace : other ≠ place := fun isPlace => same (by rw [isPlace])
      simp [notPlace]
  have keyAt_eq : ∀ other, removed.keyAt other = list.keyAt other := by
    intro other
    unfold keyAt
    rw [(chunks_clearSlot other.chunk).1]
  have isTotal : removed.numElems = list.numElems - 1 := by
    simp only [removed, ChunkList.clearSlot]
    split_ifs
    · cases before.getLast? <;> rfl
    · rfl
  have countHere : ((removed.chunks place.chunk).liveSlots (high place.chunk)).card =
      (removed.chunks place.chunk).numElems := by
    rw [liveSlots_here, Finset.card_erase_of_mem isLive.2, count, hereElems]
  have countAll : ∀ chunk ∈ chunks, ((removed.chunks chunk).liveSlots (high chunk)).card =
      (removed.chunks chunk).numElems := by
    intro chunk member
    by_cases same : chunk = place.chunk
    · rw [same]
      exact countHere
    · rw [liveSlots_other chunk same, otherElems chunk same]
      exact holds.count chunk member
  have sums := @sum_map_of_change chunks place.chunk holds.nodup isChunk
    (fun chunk => (list.chunks chunk).numElems) (fun chunk => (removed.chunks chunk).numElems)
    (fun chunk _ different => otherElems chunk different)
  have total := holds.total
  by_cases last : (list.chunks place.chunk).numElems - 1 = 0
  · -- the chunk of the last element is taken out
    have notElsewhere : place.chunk ∉ before ++ after ∧ (before ++ after).Nodup := by
      have nodup := holds.nodup
      rw [isChunks, List.nodup_middle, List.nodup_cons] at nodup
      exact nodup
    have isMember : ∀ chunk, chunk ∈ chunks ↔ chunk = place.chunk ∨ chunk ∈ before ++ after := by
      intro chunk
      rw [isChunks, List.mem_append, List.mem_cons, List.mem_append]
      grind
    have liveRest : ∀ other, Live removed (before ++ after) high other ↔
        Live removed chunks high other := by
      intro other
      unfold Live
      rw [isMember]
      by_cases same : other.chunk = place.chunk
      · have isEmpty : (removed.chunks place.chunk).liveSlots (high place.chunk) = ∅ := by
          rw [← Finset.card_eq_zero, countHere, hereElems, last]
        rw [same, isEmpty]
        simp
      · simp [same]
    refine ⟨before ++ after, ⟨?_, notElsewhere.2, fun chunk member => ?_, fun chunk member => ?_,
      fun chunk member => ?_, fun first second firstLive secondLive same => ?_, ?_⟩,
      fun other => (liveRest other).trans (live other)⟩
    · have isLink : removed.link =
          Function.update list.link before.getLast? (list.link (some place.chunk)) := by
        simp only [removed, ChunkList.clearSlot, if_pos last, link_writeLink, link_writeNumElems,
          link_writeCounts]
        rfl
      rw [isLink]
      have linked := holds.linked
      have nodup := holds.nodup
      rw [isChunks] at linked nodup
      exact linked.remove nodup
    · exact holds.high_le chunk ((isMember chunk).mpr (Or.inr member))
    · exact countAll chunk ((isMember chunk).mpr (Or.inr member))
    · have different : chunk ≠ place.chunk := fun same => notElsewhere.1 (same ▸ member)
      have isPositive := holds.nonempty chunk ((isMember chunk).mpr (Or.inr member))
      rwa [← otherElems chunk different] at isPositive
    · rw [keyAt_eq, keyAt_eq] at same
      exact holds.keys first second ((live first).mp ((liveRest first).mp firstLive)).1
        ((live second).mp ((liveRest second).mp secondLive)).1 same
    · have split : (chunks.map fun chunk => (removed.chunks chunk).numElems).sum =
          ((before ++ after).map fun chunk => (removed.chunks chunk).numElems).sum +
            (removed.chunks place.chunk).numElems := by
        rw [isChunks]
        simp only [List.map_append, List.map_cons, List.sum_append, List.sum_cons]
        omega
      change removed.numElems =
        ((before ++ after).map fun chunk => (removed.chunks chunk).numElems).sum
      omega
  · refine ⟨chunks, ⟨?_, holds.nodup, holds.high_le, countAll, fun chunk member => ?_,
      fun first second firstLive secondLive same => ?_, ?_⟩, live⟩
    · have isLink : removed.link = list.link := by
        simp only [removed, ChunkList.clearSlot, if_neg last, link_writeNumElems,
          link_writeCounts]
      rw [isLink]
      exact holds.linked
    · by_cases same : chunk = place.chunk
      · rw [same]
        exact Nat.pos_of_ne_zero (hereElems ▸ last)
      · have isPositive := holds.nonempty chunk member
        rwa [← otherElems chunk same] at isPositive
    · rw [keyAt_eq, keyAt_eq] at same
      exact holds.keys first second ((live first).mp firstLive).1 ((live second).mp secondLive).1
        same
    · change removed.numElems = (chunks.map fun chunk => (removed.chunks chunk).numElems).sum
      omega

end Pmgd.ChunkList
