import Mathlib.Data.Finset.Card
import Mathlib.Data.Finset.Range
import Mathlib.Data.BitVec
import Mathlib.Tactic.Common
import Pmgd.Lib.LabelledRun
import Pmgd.Lib.LinkedList

/-!
# Lists of chunks

A `ChunkList` keeps keys with values in the slots of linked chunks.  A chunk has a bitmap of its
occupied slots and their number, and every scan of a chunk ends when it has seen as many set bits.
The bitmap of a new chunk is not cleared, so that bits behind the occupied slots may be set.
-/

namespace Pmgd.ChunkList

open LabelledRun LinkedList

/-- `ChunkListType`; `NULL` is `none`. -/
structure ChunkListType (K V : Type*) where
  next : Option Nat
  occupants : BitVec 16
  numElems : Nat
  data : Nat → K × V

/-- A slot of a chunk. -/
structure Place where
  chunk : Nat
  slot : Nat
  deriving DecidableEq, Repr

/-- An entry of the journal: a word and what it was. -/
inductive LogEntry (V : Type*)
  | head (old : Option Nat)
  | numElems (old : Nat)
  | next (chunk : Nat) (old : Option Nat)
  | counts (chunk : Nat) (occupants : BitVec 16) (numElems : Nat)
  | value (place : Place) (old : V)

end ChunkList

open ChunkList

/-- `ChunkList`, the memory of the chunks, and what the transaction has logged. -/
structure ChunkList (K V : Type*) where
  head : Option Nat
  numElems : Nat
  chunks : Nat → ChunkListType K V
  log : List (LogEntry V)

namespace ChunkList

open LabelledRun LinkedList

variable {K V : Type*}

/-! ## Stores -/

def setChunk (list : ChunkList K V) (chunk : Nat) (changed : ChunkListType K V) :
    ChunkList K V :=
  { list with chunks := Function.update list.chunks chunk changed }

/-- `tx->write(&_head, ..)`, or `tx->write(&(prev->next), ..)`. -/
def writeLink (list : ChunkList K V) (prev next : Option Nat) : ChunkList K V :=
  match prev with
  | none => { list with head := next, log := list.log ++ [.head list.head] }
  | some chunk =>
      { list with
        chunks := Function.update list.chunks chunk { list.chunks chunk with next := next }
        log := list.log ++ [.next chunk (list.chunks chunk).next] }

/-- `tx->write(&_num_elems, ..)`. -/
def writeNumElems (list : ChunkList K V) (numElems : Nat) : ChunkList K V :=
  { list with numElems := numElems, log := list.log ++ [.numElems list.numElems] }

/-- The bitmap and the number of elements of a chunk, which are logged together. -/
def writeCounts (list : ChunkList K V) (chunk : Nat) (occupants : BitVec 16) (numElems : Nat) :
    ChunkList K V :=
  { list with
    chunks := Function.update list.chunks chunk
      { list.chunks chunk with occupants := occupants, numElems := numElems }
    log := list.log ++
      [.counts chunk (list.chunks chunk).occupants (list.chunks chunk).numElems] }

/-- A slot is filled without a log call. -/
def fill (list : ChunkList K V) (place : Place) (content : K × V) : ChunkList K V :=
  list.setChunk place.chunk
    { list.chunks place.chunk with
      data := Function.update (list.chunks place.chunk).data place.slot content }

def keyAt (list : ChunkList K V) (place : Place) : K :=
  ((list.chunks place.chunk).data place.slot).1

def valueAt (list : ChunkList K V) (place : Place) : V :=
  ((list.chunks place.chunk).data place.slot).2

/-- A client writes a value and logs it. -/
def writeValue (list : ChunkList K V) (place : Place) (value : V) : ChunkList K V :=
  { list.fill place (list.keyAt place, value) with
    log := list.log ++ [.value place (list.valueAt place)] }

/-! ## Scans of a chunk -/

/-- `bit_pos` at a slot, a `uint16_t`. -/
def bitPos (slot : Nat) : BitVec 16 :=
  1#16 <<< slot

/-- `occupants & bit_pos`. -/
def ChunkListType.isSet (chunk : ChunkListType K V) (slot : Nat) : Bool :=
  chunk.occupants &&& bitPos slot ≠ 0

/-- A scan meets the key, or it has seen all elements. -/
inductive ScanEnd
  | found (slot : Nat)
  | finished (slot elems : Nat) (hole : Option Nat)
  deriving DecidableEq, Repr

section Operations

variable [DecidableEq K]

/-- The loop within a chunk for so many slots at most, with the first free slot that it passes;
`none` if it goes on. -/
def scan (chunk : ChunkListType K V) (key : K) :
    Nat → Nat → Nat → Option Nat → Option ScanEnd
  | bound, elems, slot, hole =>
      if elems < chunk.numElems then
        match bound with
        | 0 => none
        | bound + 1 =>
            if chunk.isSet slot then
              if key = (chunk.data slot).1 then some (.found slot)
              else scan chunk key bound (elems + 1) (slot + 1) hole
            else scan chunk key bound elems (slot + 1) (hole.or (some slot))
      else some (.finished slot elems hole)

/-- The element with the key and the pointer to its chunk, or the pointer at the end and the first
free slot. -/
inductive Search
  | found (prev : Option Nat) (place : Place)
  | missing (prev : Option Nat) (empty : Option Place)
  deriving DecidableEq, Repr

/-- The loop over the chunks in `add`, `remove` and `find`; `add` remembers a free slot. -/
def searchFrom (maxPerChunk : Nat) (list : ChunkList K V) (key : K) :
    Nat → Option Nat → Option Nat → Option Place → Option Search
  | _, none, prev, empty => some (.missing prev empty)
  | 0, some _, _, _ => none
  | bound + 1, some curr, prev, empty =>
      (scan (list.chunks curr) key maxPerChunk 0 0 none).bind fun ended =>
        match ended with
        | .found slot => some (.found prev ⟨curr, slot⟩)
        | .finished slot elems hole =>
            let room := hole.or (if elems < maxPerChunk then some slot else none)
            searchFrom maxPerChunk list key bound (list.chunks curr).next (some curr)
              (empty.or (room.map fun slot => ⟨curr, slot⟩))

/-- No chunk of the list is empty, so that a walk ends after as many chunks as elements. -/
def search (maxPerChunk : Nat) (list : ChunkList K V) (key : K) : Option Search :=
  searchFrom maxPerChunk list key list.numElems list.head none none

/-- `find`; the result is a pointer, and `none` in front of it stands for a loop that goes on. -/
def find (maxPerChunk : Nat) (list : ChunkList K V) (key : K) : Option (Option Place) :=
  (list.search maxPerChunk key).map fun result =>
    match result with
    | .found _ place => some place
    | .missing _ _ => none

/-- `remove`.  The chunk is freed when the transaction commits. -/
def remove (maxPerChunk : Nat) (list : ChunkList K V) (key : K) : Option (ChunkList K V) :=
  (list.search maxPerChunk key).map fun result =>
    match result with
    | .missing _ _ => list
    | .found prev ⟨curr, slot⟩ =>
        let chunk := list.chunks curr
        let list := list.writeCounts curr (chunk.occupants &&& ~~~bitPos slot) (chunk.numElems - 1)
        let list := list.writeNumElems (list.numElems - 1)
        if chunk.numElems - 1 = 0 then list.writeLink prev chunk.next else list

section Add

variable [Inhabited V]

/-- `add`, where a new chunk would come from `fresh` with what is in this memory. -/
def add (maxPerChunk : Nat) (list : ChunkList K V) (key : K) (fresh : Nat)
    (memory : ChunkListType K V) : Option (Place × ChunkList K V) :=
  (list.search maxPerChunk key).map fun result =>
    match result with
    | .found _ place => (place, list)
    | .missing _ (some place) =>
        let chunk := list.chunks place.chunk
        let list := list.writeCounts place.chunk (chunk.occupants ||| bitPos place.slot)
          (chunk.numElems + 1)
        (place, (list.writeNumElems (list.numElems + 1)).fill place (key, default))
    | .missing prev none =>
        -- the bitmap keeps the other bits that were in the memory
        let list := list.setChunk fresh
          { memory with
            next := none
            occupants := memory.occupants ||| 1
            numElems := 1 }
        let list := (list.writeLink prev (some fresh)).writeNumElems (list.numElems + 1)
        (⟨fresh, 0⟩, list.fill ⟨fresh, 0⟩ (key, default))

end Add

end Operations

/-- The loop within a chunk in `get_key_values`. -/
def slotsFrom (chunk : ChunkListType K V) : Nat → Nat → Nat → Option (List Nat)
  | bound, elems, slot =>
      if elems < chunk.numElems then
        match bound with
        | 0 => none
        | bound + 1 =>
            if chunk.isSet slot then
              (slotsFrom chunk bound (elems + 1) (slot + 1)).map (slot :: ·)
            else slotsFrom chunk bound elems (slot + 1)
      else some []

def keyValuesFrom (maxPerChunk : Nat) (list : ChunkList K V) :
    Nat → Option Nat → Option (List Place)
  | _, none => some []
  | 0, some _ => none
  | bound + 1, some curr =>
      (slotsFrom (list.chunks curr) maxPerChunk 0 0).bind fun slots =>
        (keyValuesFrom maxPerChunk list bound (list.chunks curr).next).map
          (slots.map (fun slot => ⟨curr, slot⟩) ++ ·)

/-- `get_key_values`. -/
def getKeyValues (maxPerChunk : Nat) (list : ChunkList K V) : Option (List Place) :=
  keyValuesFrom maxPerChunk list list.numElems list.head

/-- `_head` and the `next` pointers. -/
def link (list : ChunkList K V) : Option Nat → Option Nat
  | none => list.head
  | some chunk => (list.chunks chunk).next

/-- The chunks of the list. -/
def linkedChunks (list : ChunkList K V) : List Nat :=
  nodesFrom list.link list.numElems list.head

/-- `ChunkList::ChunkList`, with any memory. -/
def empty (chunks : Nat → ChunkListType K V) : ChunkList K V :=
  ⟨none, 0, chunks, []⟩

/-! ## Slots in use -/

variable {chunk : ChunkListType K V} {slot high elems bound : Nat}

theorem isSet_eq_getLsbD (chunk : ChunkListType K V) (slot : Nat) :
    chunk.isSet slot = chunk.occupants.getLsbD slot := by
  unfold ChunkListType.isSet bitPos
  cases isBit : chunk.occupants.getLsbD slot with
  | false =>
      rw [decide_eq_false_iff_not, not_not]
      ext index inWord
      simp only [BitVec.getElem_and, BitVec.getElem_shiftLeft]
      by_cases same : index = slot
      · subst same
        simp_all [BitVec.getLsbD_eq_getElem]
      · simp
        omega
  | true =>
      rw [decide_eq_true_eq]
      intro isZero
      have inWord : slot < 16 := BitVec.lt_of_getLsbD isBit
      have bit := congrArg (fun word : BitVec 16 => word.getLsbD slot) isZero
      rw [BitVec.getLsbD_eq_getElem inWord] at isBit
      simp [isBit, inWord] at bit

/-- The slots in use, if the bits below `high` are right. -/
def ChunkListType.liveSlots (chunk : ChunkListType K V) (high : Nat) : Finset Nat :=
  (Finset.range high).filter fun slot => chunk.isSet slot = true

theorem mem_liveSlots : slot ∈ chunk.liveSlots high ↔ slot < high ∧ chunk.isSet slot = true := by
  rw [ChunkListType.liveSlots, Finset.mem_filter, Finset.mem_range]

theorem liveSlots_succ_of_set (isSet : chunk.isSet slot = true) :
    (chunk.liveSlots (slot + 1)).card = (chunk.liveSlots slot).card + 1 := by
  have isInsert : chunk.liveSlots (slot + 1) = insert slot (chunk.liveSlots slot) := by
    rw [ChunkListType.liveSlots, Finset.range_add_one, Finset.filter_insert, if_pos isSet]
    rfl
  rw [isInsert, Finset.card_insert_of_notMem (by simp [mem_liveSlots])]

theorem liveSlots_succ_of_clear (isClear : chunk.isSet slot = false) :
    chunk.liveSlots (slot + 1) = chunk.liveSlots slot := by
  rw [ChunkListType.liveSlots, Finset.range_add_one, Finset.filter_insert,
    if_neg (by simp [isClear])]
  rfl

theorem liveSlots_mono (chunk : ChunkListType K V) {lower : Nat} (isLower : lower ≤ high) :
    chunk.liveSlots lower ⊆ chunk.liveSlots high := by
  intro slot member
  rw [mem_liveSlots] at member ⊢
  exact ⟨by omega, member.2⟩

/-- All slots in use are below the slot where as many have been seen as there are. -/
theorem lt_of_card_le {lower : Nat} (isLower : lower ≤ high)
    (seen : (chunk.liveSlots high).card ≤ (chunk.liveSlots lower).card)
    (member : slot ∈ chunk.liveSlots high) : slot < lower := by
  have same := Finset.eq_of_subset_of_card_le (liveSlots_mono chunk isLower) seen
  rw [← same] at member
  exact (mem_liveSlots.mp member).1

/-! ## The scans -/

section Scans

variable [DecidableEq K] {key : K} {hole : Option Nat}

/-- What a scan from a slot on finds, when it has seen the elements in front of the slot. -/
structure Finishes (chunk : ChunkListType K V) (key : K) (high slot : Nat) (hole : Option Nat)
    (last elems : Nat) (room : Option Nat) : Prop where
  bounds : slot ≤ last ∧ last ≤ high
  seenAll : (chunk.liveSlots last).card = chunk.numElems
  elems_eq : elems = chunk.numElems
  missing : ∀ other ∈ chunk.liveSlots high, slot ≤ other → (chunk.data other).1 ≠ key
  room_isClear : ∀ free, room = some free → hole = some free ∨
    hole = none ∧ slot ≤ free ∧ free < last ∧ chunk.isSet free = false ∧
      ∀ other, slot ≤ other → other < free → chunk.isSet other = true
  full : room = none → hole = none ∧ ∀ other, slot ≤ other → other < last → chunk.isSet other = true

theorem scan_spec (isHigh : (chunk.liveSlots high).card = chunk.numElems)
    (inFront : slot ≤ high) (enough : high ≤ slot + bound) :
    (∃ found ∈ chunk.liveSlots high, (chunk.data found).1 = key ∧
      scan chunk key bound (chunk.liveSlots slot).card slot hole = some (.found found)) ∨
    ∃ last elems room, scan chunk key bound (chunk.liveSlots slot).card slot hole =
      some (.finished last elems room) ∧ Finishes chunk key high slot hole last elems room := by
  induction bound generalizing slot hole with
  | zero =>
      have same : slot = high := by omega
      subst same
      right
      refine ⟨slot, _, hole, by rw [scan, if_neg (by omega)], ⟨le_rfl, le_rfl⟩, isHigh, isHigh,
        fun other member notBelow => ?_, fun free isFree => Or.inl isFree, fun isNone => ?_⟩
      · have := (mem_liveSlots.mp member).1
        omega
      · exact ⟨isNone, fun other notBelow below => by omega⟩
  | succ bound ih =>
      by_cases more : (chunk.liveSlots slot).card < chunk.numElems
      · have notLast : slot < high := by
          by_contra notBelow
          have same : slot = high := by omega
          rw [same] at more
          omega
        rw [scan, if_pos more]
        by_cases isSet : chunk.isSet slot = true
        · rw [if_pos isSet]
          by_cases isKey : key = (chunk.data slot).1
          · rw [if_pos isKey]
            exact Or.inl ⟨slot, mem_liveSlots.mpr ⟨notLast, isSet⟩, isKey.symm, rfl⟩
          · rw [if_neg isKey, ← liveSlots_succ_of_set isSet]
            refine (ih notLast (by omega)).imp_right ?_
            rintro ⟨last, elems, room, isScan, finishes⟩
            refine ⟨last, elems, room, isScan, ⟨by have := finishes.bounds; omega,
              finishes.bounds.2⟩, finishes.seenAll, finishes.elems_eq,
              fun other member notBelow => ?_, fun free isFree => ?_, fun isNone => ?_⟩
            · rcases Nat.eq_or_lt_of_le notBelow with rfl | above
              · exact Ne.symm isKey
              · exact finishes.missing other member above
            · refine (finishes.room_isClear free isFree).imp_right ?_
              rintro ⟨noHole, above, below, isClear, allSet⟩
              refine ⟨noHole, by omega, below, isClear, fun other notBelow inFront => ?_⟩
              rcases Nat.eq_or_lt_of_le notBelow with rfl | behind
              · exact isSet
              · exact allSet other behind inFront
            · obtain ⟨noHole, allSet⟩ := finishes.full isNone
              refine ⟨noHole, fun other notBelow below => ?_⟩
              rcases Nat.eq_or_lt_of_le notBelow with rfl | above
              · exact isSet
              · exact allSet other above below
        · have isClear : chunk.isSet slot = false := by simpa using isSet
          rw [if_neg isSet, ← liveSlots_succ_of_clear isClear]
          refine (ih notLast (by omega)).imp_right ?_
          rintro ⟨last, elems, room, isScan, finishes⟩
          refine ⟨last, elems, room, isScan, ⟨by have := finishes.bounds; omega,
            finishes.bounds.2⟩, finishes.seenAll, finishes.elems_eq,
            fun other member notBelow => ?_, fun free isFree => ?_, fun isNone => ?_⟩
          · rcases Nat.eq_or_lt_of_le notBelow with rfl | above
            · exact absurd (mem_liveSlots.mp member).2 isSet
            · exact finishes.missing other member above
          · rcases finishes.room_isClear free isFree with isHole | behind
            · cases hole with
              | none =>
                  obtain rfl : slot = free := by simpa using isHole
                  have := finishes.bounds
                  exact Or.inr ⟨rfl, le_rfl, by omega, isClear, fun other _ _ => by omega⟩
              | some first => exact Or.inl (by simpa using isHole)
            · have noHole := behind.1
              simp at noHole
          · have noHole := (finishes.full isNone).1
            simp at noHole
      · right
        have seenAll : (chunk.liveSlots slot).card = chunk.numElems := by
          have := Finset.card_le_card (liveSlots_mono chunk inFront)
          omega
        refine ⟨slot, _, hole, by rw [scan, if_neg more], ⟨le_rfl, inFront⟩, seenAll, seenAll,
          fun other member notBelow => ?_, fun free isFree => Or.inl isFree, fun isNone => ?_⟩
        · have below := lt_of_card_le inFront (by omega) member
          omega
        · exact ⟨isNone, fun other notBelow below => by omega⟩

theorem scan_chunk (isHigh : (chunk.liveSlots high).card = chunk.numElems)
    (enough : high ≤ bound) (key : K) :
    (∃ found ∈ chunk.liveSlots high, (chunk.data found).1 = key ∧
      scan chunk key bound 0 0 none = some (.found found)) ∨
    ∃ last elems room, scan chunk key bound 0 0 none = some (.finished last elems room) ∧
      Finishes chunk key high 0 none last elems room :=
  scan_spec isHigh (Nat.zero_le high) (by rwa [Nat.zero_add])

end Scans

/-- The loop of `get_key_values` lists the slots in use. -/
theorem slotsFrom_spec (isHigh : (chunk.liveSlots high).card = chunk.numElems)
    (inFront : slot ≤ high) (enough : high ≤ slot + bound) :
    ∃ slots, slotsFrom chunk bound (chunk.liveSlots slot).card slot = some slots ∧ slots.Nodup ∧
      ∀ other, other ∈ slots ↔ other ∈ chunk.liveSlots high ∧ slot ≤ other := by
  have ofSeen : ∀ slot, slot ≤ high → (chunk.liveSlots slot).card = chunk.numElems →
      ∀ other, other ∈ ([] : List Nat) ↔ other ∈ chunk.liveSlots high ∧ slot ≤ other := by
    intro slot inFront seenAll other
    refine iff_of_false List.not_mem_nil ?_
    rintro ⟨member, notBelow⟩
    have below := lt_of_card_le inFront (by omega) member
    omega
  induction bound generalizing slot with
  | zero =>
      have same : slot = high := by omega
      subst same
      exact ⟨[], by rw [slotsFrom, if_neg (by omega)], List.nodup_nil, ofSeen slot le_rfl isHigh⟩
  | succ bound ih =>
      by_cases more : (chunk.liveSlots slot).card < chunk.numElems
      · have notLast : slot < high := by
          by_contra notBelow
          have same : slot = high := by omega
          rw [same] at more
          omega
        rw [slotsFrom, if_pos more]
        by_cases isSet : chunk.isSet slot = true
        · rw [if_pos isSet, ← liveSlots_succ_of_set isSet]
          obtain ⟨slots, isSlots, nodup, members⟩ := ih notLast (by omega)
          refine ⟨slot :: slots, by rw [isSlots, Option.map_some], List.nodup_cons.mpr ⟨?_, nodup⟩,
            fun other => ?_⟩
          · rw [members]
            exact fun both => absurd both.2 (by omega)
          · rw [List.mem_cons, members]
            constructor
            · rintro (rfl | ⟨member, above⟩)
              · exact ⟨mem_liveSlots.mpr ⟨notLast, isSet⟩, le_rfl⟩
              · exact ⟨member, by omega⟩
            · rintro ⟨member, notBelow⟩
              rcases Nat.eq_or_lt_of_le notBelow with rfl | above
              · exact Or.inl rfl
              · exact Or.inr ⟨member, above⟩
        · have isClear : chunk.isSet slot = false := by simpa using isSet
          rw [if_neg isSet, ← liveSlots_succ_of_clear isClear]
          obtain ⟨slots, isSlots, nodup, members⟩ := ih notLast (by omega)
          refine ⟨slots, isSlots, nodup, fun other => (members other).trans ?_⟩
          refine and_congr_right fun member => ⟨fun above => by omega, fun notBelow => ?_⟩
          rcases Nat.eq_or_lt_of_le notBelow with rfl | above
          · exact absurd (mem_liveSlots.mp member).2 isSet
          · exact above
      · have seenAll : (chunk.liveSlots slot).card = chunk.numElems := by
          have := Finset.card_le_card (liveSlots_mono chunk inFront)
          omega
        exact ⟨[], by rw [slotsFrom, if_neg more], List.nodup_nil, ofSeen slot inFront seenAll⟩

theorem slots_chunk (isHigh : (chunk.liveSlots high).card = chunk.numElems)
    (enough : high ≤ bound) :
    ∃ slots, slotsFrom chunk bound 0 0 = some slots ∧ slots.Nodup ∧
      slots.length = chunk.numElems ∧ ∀ slot, slot ∈ slots ↔ slot ∈ chunk.liveSlots high := by
  have fromStart : high ≤ 0 + bound := by rwa [Nat.zero_add]
  obtain ⟨slots, isSlots, nodup, members⟩ := slotsFrom_spec isHigh (Nat.zero_le high) fromStart
  have sameMembers : ∀ slot, slot ∈ slots ↔ slot ∈ chunk.liveSlots high := fun slot =>
    (members slot).trans (and_iff_left (Nat.zero_le slot))
  have asFinset : slots.toFinset = chunk.liveSlots high := by
    ext slot
    rw [List.mem_toFinset, sameMembers]
  refine ⟨slots, isSlots, nodup, ?_, sameMembers⟩
  rw [← List.toFinset_card_of_nodup nodup, asFinset, isHigh]

end ChunkList

end Pmgd
