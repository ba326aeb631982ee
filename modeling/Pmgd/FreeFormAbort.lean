import Pmgd.FreeFormChunk
import Pmgd.Lib.ThrowingState
import Pmgd.Lib.UndoLog

/-!
# Free-form chunks in a transaction

`FreeFormChunk::alloc` logs the words that it changes, all except `free_space`, and the first words
of a spot that becomes a block.  So whatever comes of a call, the images of the transaction undo
all that it has changed but `free_space`, and the spots of the chunk are what is left of those
before the call.
-/

namespace Pmgd.FreeFormAbort

open ByteMemory FreeFormChunk ThrowingState UndoLog
open AllocatorUnit (Failure chunkSize headerSize minAllocBytes wordValues spotBound)
open VariableAllocator (Spot)

/-! ## Allocating from a chunk -/

/-- What a variable allocator keeps in DRAM; 0 is NULL, and `freeChunks` stands for a hash
table. -/
structure Dram where
  freeChunks : List Nat
  chunkToScan : Nat
  lastChunkScanned : Nat

/-- The memory and the undo images of a transaction, how many more log calls find room in the
journal, the DRAM state of the allocator, and the chunks that it has. -/
structure Transaction where
  mem : Memory
  images : List (Image Nat UInt8)
  room : Nat
  dram : Dram
  inUse : List Nat

abbrev Alloc := EStateM Failure Transaction

/-- The state after a log call. -/
def Transaction.logged (tx : Transaction) (address count : Nat) : Transaction :=
  { tx with
    images := tx.images ++
      [snapshot (fun place => address ≤ place ∧ place < address + count) tx.mem]
    room := tx.room - 1 }

def log (address count : Nat) : Alloc Unit := do
  let tx ← get
  if tx.room = 0 then throw .outOfJournalSpace
  else set (tx.logged address count)

/-- A store without a log call. -/
def storeWord (address value : Nat) : Alloc Unit :=
  modify fun tx => { tx with mem := setWord tx.mem address value }

/-- `TransactionImpl::write` of a `uint32_t`. -/
def writeWord (address value : Nat) : Alloc Unit := do
  log address 4
  storeWord address value

/-- `find_max_cont_space`. -/
def findMaxContSpace (chunk : Nat) : Alloc Unit := do
  let mem := (← get).mem
  let space := maxSpot mem chunk spotBound (word mem (freeListAt chunk)) 0
  if word mem (maxContSpaceAt chunk) ≠ space then writeWord (maxContSpaceAt chunk) space
  else return

/-- What `FreeFormChunk::alloc` does with a spot. -/
def takeSpot (chunk size prev offset : Nat) : Alloc Nat := do
  let mem := (← get).mem
  let rest := word mem (sizeAt chunk offset) - size
  if rest ≥ minAllocBytes then do
    writeWord (sizeAt chunk offset) rest
    return offset + rest
  else do
    writeWord prev (word mem (nextAt chunk offset))
    log (chunk + offset) 8
    return offset

/-- The end of `FreeFormChunk::alloc`. -/
def count (chunk size sizeFree : Nat) : Alloc Unit := do
  let mem := (← get).mem
  storeWord (freeSpaceAt chunk) (word mem (freeSpaceAt chunk) + wordValues - size)
  if sizeFree = word mem (maxContSpaceAt chunk) then findMaxContSpace chunk else return

/-- `FreeFormChunk::alloc`. -/
def chunkAlloc (chunk size : Nat) : Alloc (Option Nat) := do
  let mem := (← get).mem
  if size > word mem (maxContSpaceAt chunk) then return none
  else
    match findSpot mem chunk size spotBound (freeListAt chunk) with
    | none => throw .crash
    | some (prev, offset) => do
        let newOffset ← takeSpot chunk size prev offset
        count chunk size (word mem (sizeAt chunk offset))
        return some (chunk + newOffset)

/-- There is a spot, and room in the journal for the log calls that come before `free_space`
changes: one if a block is cut off from the spot, two if it takes all of it. -/
def Spends (mem : Memory) (chunk size room : Nat) : Prop :=
  size ≤ word mem (maxContSpaceAt chunk) ∧
    ∃ found ∈ findSpot mem chunk size spotBound (freeListAt chunk),
      (if word mem (sizeAt chunk found.2) - size ≥ minAllocBytes then 1 else 2) ≤ room

instance (mem : Memory) (chunk size room : Nat) : Decidable (Spends mem chunk size room) :=
  inferInstanceAs (Decidable (_ ∧
    ∃ found ∈ findSpot mem chunk size spotBound (freeListAt chunk), _))

def IsFreeSpace (chunk place : Nat) : Prop :=
  freeSpaceAt chunk ≤ place ∧ place < freeSpaceAt chunk + 4


/-! ## Logged changes -/

variable {mem : Memory} {tx middle after : Transaction} {chunk size address length spent : Nat}
  {spots rest : List Spot}

/-- All that has changed is in the chunk behind `next_chunk`, and logged before it changed, except
for `free_space`. -/
structure Logged (chunk : Nat) (tx after : Transaction) : Prop where
  undone : ∀ place, ¬ IsFreeSpace chunk place →
    undo after.images after.mem place = undo tx.images tx.mem place
  covers : ∀ place, Covers tx.images place → Covers after.images place
  outside : ∀ place, place < freeSpaceAt chunk ∨ chunk + chunkSize ≤ place →
    after.mem place = tx.mem place
  uncovered : ∀ place, place < freeSpaceAt chunk + 4 ∨ chunk + chunkSize ≤ place →
    Covers after.images place → Covers tx.images place
  dram : after.dram = tx.dram
  inUse : after.inUse = tx.inUse

theorem covers_logged {place : Nat} :
    Covers (tx.logged address length).images place ↔
      Covers tx.images place ∨ address ≤ place ∧ place < address + length :=
  covers_concat_snapshot _ _ _ _

theorem undo_logged : undo (tx.logged address length).images tx.mem = undo tx.images tx.mem :=
  undo_concat_snapshot tx.images _ tx.mem

namespace Logged

theorem refl (chunk : Nat) (tx : Transaction) : Logged chunk tx tx :=
  ⟨fun _ _ => rfl, fun _ => id, fun _ _ => rfl, fun _ _ => id, rfl, rfl⟩

theorem trans (first : Logged chunk tx middle) (second : Logged chunk middle after) :
    Logged chunk tx after where
  undone place notSpace := (second.undone place notSpace).trans (first.undone place notSpace)
  covers place covered := second.covers place (first.covers place covered)
  outside place isOutside := (second.outside place isOutside).trans (first.outside place isOutside)
  uncovered place isOutside covered :=
    first.uncovered place isOutside (second.uncovered place isOutside covered)
  dram := second.dram.trans first.dram
  inUse := second.inUse.trans first.inUse

theorem log (low : freeSpaceAt chunk + 4 ≤ address)
    (high : address + length ≤ chunk + chunkSize) :
    Logged chunk tx (tx.logged address length) where
  undone place _ := congrFun undo_logged place
  covers place covered := covers_logged.mpr (Or.inl covered)
  outside _ _ := rfl
  uncovered place isOutside covered := by
    rcases covers_logged.mp covered with was | inside
    · exact was
    · omega
  dram := rfl
  inUse := rfl

/-- The memory may change where it is logged, and `free_space`. -/
theorem withMem
    (same : ∀ place, ¬ IsFreeSpace chunk place → ¬ Covers tx.images place →
      mem place = tx.mem place)
    (outside : ∀ place, place < freeSpaceAt chunk ∨ chunk + chunkSize ≤ place →
      mem place = tx.mem place) : Logged chunk tx { tx with mem := mem } where
  undone place notSpace := undo_congr (same place notSpace)
  covers _ := id
  outside := outside
  uncovered _ _ := id
  dram := rfl
  inUse := rfl

end Logged

/-- The state after a logged store. -/
def Transaction.written (tx : Transaction) (address value : Nat) : Transaction :=
  { tx.logged address 4 with mem := setWord tx.mem address value }

theorem logged_written {value : Nat} (low : freeSpaceAt chunk + 4 ≤ address)
    (high : address + 4 ≤ chunk + chunkSize) : Logged chunk tx (tx.written address value) := by
  have isLogged : Logged chunk tx (tx.logged address 4) := Logged.log low high
  apply isLogged.trans
  apply Logged.withMem
  · intro place _ uncovered
    rw [covers_logged, not_or] at uncovered
    exact setWord_outside (by omega)
  · intro place outside
    exact setWord_outside (by omega)

theorem ends_log (tx : Transaction) (address length : Nat) :
    Ends (log address length tx) (fun _ after => after = tx.logged address length ∧ 1 ≤ tx.room)
      fun after => after = tx ∧ tx.room = 0 := by
  rw [log, get_bind]
  apply ends_ite
  · exact fun full => ⟨rfl, full⟩
  · exact fun room => ⟨rfl, Nat.pos_of_ne_zero room⟩

theorem ends_writeWord (tx : Transaction) (address value : Nat) :
    Ends (writeWord address value tx)
      (fun _ after => after = tx.written address value ∧ 1 ≤ tx.room)
      fun after => after = tx ∧ tx.room = 0 := by
  apply Ends.bind (ends_log tx address 4)
  rintro _ _ ⟨rfl, room⟩
  exact ⟨rfl, room⟩

/-! ## What a call changes -/

/-- The log calls that `takeSpot` needs. -/
def logCalls (mem : Memory) (chunk size offset : Nat) : Nat :=
  if word mem (sizeAt chunk offset) - size ≥ minAllocBytes then 1 else 2

/-- A block comes from the end of a spot, or it takes all of the spot, whose first words are then
logged. -/
theorem ends_takeSpot {prev offset : Nat} (behind : headerSize ≤ offset)
    (inside : offset + 8 ≤ chunkSize) (low : freeListAt chunk ≤ prev)
    (high : prev + 4 ≤ chunk + chunkSize) :
    let taken := FreeFormChunk.takeSpot tx.mem chunk size prev offset
    Ends (takeSpot chunk size prev offset tx)
      (fun newOffset after => Logged chunk tx after ∧ (newOffset, after.mem) = taken ∧
        (¬ word tx.mem (sizeAt chunk offset) - size ≥ minAllocBytes →
          ∀ place, chunk + offset ≤ place → place < chunk + offset + 8 →
            Covers after.images place) ∧
        logCalls tx.mem chunk size offset ≤ tx.room)
      fun after => Logged chunk tx after ∧ (after.mem = tx.mem ∨ after.mem = taken.2) ∧
        tx.room < logCalls tx.mem chunk size offset := by
  simp only [headerSize] at behind
  rw [freeListAt] at low
  have isFreeSpace : freeSpaceAt chunk = chunk + 8 := rfl
  rw [takeSpot, get_bind, FreeFormChunk.takeSpot]
  apply ends_ite
  · intro splits
    rw [logCalls, if_pos splits, if_pos splits]
    apply Ends.bind ((ends_writeWord tx (sizeAt chunk offset) _).mono (fun _ _ => id) ?_)
    · rintro _ _ ⟨rfl, room⟩
      refine ⟨logged_written ?_ ?_, rfl, fun isWhole => absurd splits isWhole, room⟩
      · rw [isFreeSpace, sizeAt]
        omega
      · rw [sizeAt]
        omega
    · rintro _ ⟨rfl, full⟩
      exact ⟨Logged.refl chunk _, Or.inl rfl, by omega⟩
  · intro isWhole
    rw [logCalls, if_neg isWhole, if_neg isWhole]
    apply Ends.bind ((ends_writeWord tx prev _).mono (fun _ _ => id) ?_)
    · rintro _ _ ⟨rfl, room⟩
      let written := tx.written prev (word tx.mem (nextAt chunk offset))
      have isWritten : Logged chunk tx written := logged_written (by omega) high
      have writtenRoom : written.room = tx.room - 1 := rfl
      apply Ends.bind ((ends_log written (chunk + offset) 8).mono (fun _ _ => id) ?_)
      · rintro _ _ ⟨rfl, more⟩
        refine ⟨isWritten.trans (Logged.log (by omega) (by omega)), rfl, ?_, by omega⟩
        exact fun _ place low high => covers_logged.mpr (Or.inr ⟨low, high⟩)
      · rintro _ ⟨rfl, full⟩
        exact ⟨isWritten, Or.inr rfl, by omega⟩
    · rintro _ ⟨rfl, full⟩
      exact ⟨Logged.refl chunk _, Or.inl rfl, by omega⟩

theorem ends_findMaxContSpace (tx : Transaction) (chunk : Nat) :
    Ends (findMaxContSpace chunk tx)
      (fun _ after => Logged chunk tx after ∧
        after.mem = FreeFormChunk.findMaxContSpace tx.mem chunk)
      fun after => after = tx := by
  have room : 24 ≤ chunkSize := by decide
  rw [findMaxContSpace, get_bind, FreeFormChunk.findMaxContSpace]
  apply ends_ite
  · intro differs
    rw [if_pos differs]
    apply (ends_writeWord tx (maxContSpaceAt chunk) _).mono
    · rintro _ _ ⟨rfl, -⟩
      refine ⟨logged_written ?_ ?_, rfl⟩
      · rw [freeSpaceAt, maxContSpaceAt]
        omega
      · rw [maxContSpaceAt]
        omega
    · rintro _ ⟨rfl, -⟩
      rfl
  · intro same
    rw [if_neg same]
    exact ⟨Logged.refl chunk tx, rfl⟩

/-- `free_space` is less by the size of the block, and this is not logged. -/
theorem ends_count (small : size ≤ wordValues) (sizeFree : Nat) :
    Ends (count chunk size sizeFree tx)
      (fun _ after => Logged chunk tx after ∧ (∀ spots, Layout tx.mem chunk [] spots →
        Layout after.mem chunk [] spots) ∧
        (word after.mem (freeSpaceAt chunk) + size) % wordValues =
          word tx.mem (freeSpaceAt chunk))
      fun after => Logged chunk tx after ∧ (∀ spots, Layout tx.mem chunk [] spots →
        Layout after.mem chunk [] spots) ∧
        (word after.mem (freeSpaceAt chunk) + size) % wordValues =
          word tx.mem (freeSpaceAt chunk) := by
  have room : 24 ≤ chunkSize := by decide
  let counted : Transaction := { tx with
    mem := setWord tx.mem (freeSpaceAt chunk)
      (word tx.mem (freeSpaceAt chunk) + wordValues - size) }
  have isCounted : Logged chunk tx counted := by
    apply Logged.withMem
    · intro place notSpace _
      rw [IsFreeSpace] at notSpace
      exact setWord_outside (by omega)
    · intro place outside
      exact setWord_outside (by rw [freeSpaceAt] at *; omega)
  have keeps (spots : List Spot) (layout : Layout tx.mem chunk [] spots) :
      Layout counted.mem chunk [] spots := layout.setHeader (Or.inl rfl)
  have space : (word counted.mem (freeSpaceAt chunk) + size) % wordValues =
      word tx.mem (freeSpaceAt chunk) := by
    have isMod : word counted.mem (freeSpaceAt chunk) =
        (word tx.mem (freeSpaceAt chunk) + wordValues - size) % wordValues :=
      loadNat_store_encode _ _ _ _
    have isSum : word tx.mem (freeSpaceAt chunk) + wordValues - size + size =
        word tx.mem (freeSpaceAt chunk) + wordValues := by omega
    rw [isMod, Nat.mod_add_mod, isSum, Nat.add_mod_right]
    exact Nat.mod_eq_of_lt (word_lt _ _)
  change Ends ((if sizeFree = word tx.mem (maxContSpaceAt chunk) then findMaxContSpace chunk
    else return) counted) _ _
  clear_value counted
  apply ends_ite
  · intro isLargest
    apply (ends_findMaxContSpace counted chunk).mono
    · rintro _ after ⟨logged, isMem⟩
      refine ⟨isCounted.trans logged, fun spots layout => ?_, ?_⟩
      · rw [isMem, FreeFormChunk.findMaxContSpace]
        split_ifs
        · exact (keeps spots layout).setHeader (Or.inr rfl)
        · exact keeps spots layout
      · have same : word after.mem (freeSpaceAt chunk) = word counted.mem (freeSpaceAt chunk) := by
          rw [isMem, FreeFormChunk.findMaxContSpace]
          split_ifs
          · exact word_setWord_of_apart (by rw [freeSpaceAt, maxContSpaceAt]; omega)
          · rfl
        rw [same]
        exact space
    · rintro _ rfl
      exact ⟨isCounted, keeps, space⟩
  · intro notLargest
    exact ⟨isCounted, keeps, space⟩

/-! ## What is left of the spots -/

/-- The spots of a chunk are what is left of others, some bytes less. -/
structure Remains (spots rest : List Spot) (spent : Nat) : Prop where
  within : ∀ spot ∈ rest, ∃ old ∈ spots, old.offset = spot.offset ∧ spot.size ≤ old.size
  total : (rest.map Spot.size).sum + spent ≤ (spots.map Spot.size).sum

theorem Remains.refl (spots : List Spot) : Remains spots spots 0 :=
  ⟨fun spot member => ⟨spot, member, rfl, le_rfl⟩, le_rfl⟩

theorem Remains.trans {others : List Spot} {more : Nat} (first : Remains spots rest spent)
    (second : Remains rest others more) : Remains spots others (spent + more) where
  within spot member := by
    obtain ⟨middle, isMiddle, sameMiddle, smallerMiddle⟩ := second.within spot member
    obtain ⟨old, isOld, same, smaller⟩ := first.within middle isMiddle
    exact ⟨old, isOld, same.trans sameMiddle, smallerMiddle.trans smaller⟩
  total := by
    have := first.total
    have := second.total
    omega

/-- A block that comes out of a spot. -/
structure CutOff (spot : Spot) (rest : List Spot) (block : Spot) : Prop where
  low : spot.offset ≤ block.offset
  high : block.offset + block.size ≤ spot.offset + spot.size
  apart : ∀ other ∈ rest, Apart block other

/-- The layout after a block has been cut off from a spot, or has taken all of it. -/
theorem layout_takeSpot {prev offset : Nat} (layout : Layout mem chunk [] spots)
    (large : minAllocBytes ≤ size)
    (found : findSpot mem chunk size spotBound (freeListAt chunk) = some (prev, offset)) :
    let taken := FreeFormChunk.takeSpot mem chunk size prev offset
    ∃ spot ∈ spots, ∃ rest, offset = spot.offset ∧ Layout taken.2 chunk [] rest ∧
      Remains spots rest size ∧ CutOff spot rest ⟨taken.1, size⟩ ∧
      (¬ word mem (sizeAt chunk offset) - size ≥ minAllocBytes ∨ spot.offset + 8 ≤ taken.1) := by
  intro taken
  obtain ⟨before, spot, others, rfl, rfl, rfl, enough⟩ := findSpot_cases layout.links found
  have isSpot : spot ∈ before ++ spot :: others := List.mem_append_right _ List.mem_cons_self
  have isSize : word mem (sizeAt chunk spot.offset) = spot.size := layout.links.size_eq isSpot
  have forget {after : Memory} {block : Spot} {rest : List Spot}
      (isLayout : Layout after chunk [block] rest) :
      Layout after chunk [] rest ∧ ∀ other ∈ rest, Apart block other :=
    ⟨⟨isLayout.links, isLayout.spotFits.inside, isLayout.spotFits.apart⟩,
      (List.pairwise_cons.mp isLayout.apart).1⟩
  refine ⟨spot, isSpot, ?_⟩
  simp only [taken, FreeFormChunk.takeSpot, isSize]
  by_cases splits : spot.size - size ≥ minAllocBytes
  · obtain ⟨newLayout, isApart⟩ := forget (layout.split large splits)
    rw [if_pos splits]
    simp only [minAllocBytes] at splits
    refine ⟨_, trivial, newLayout, ⟨fun other member => ?_, ?_⟩, ⟨?_, ?_, isApart⟩, Or.inr ?_⟩
    · rcases List.mem_append.mp member with inBefore | inRest
      · exact ⟨other, List.mem_append_left _ inBefore, rfl, le_rfl⟩
      · rcases List.mem_cons.mp inRest with rfl | inOthers
        · exact ⟨spot, isSpot, rfl, Nat.sub_le _ _⟩
        · exact ⟨other, List.mem_append_right _ (List.mem_cons_of_mem _ inOthers), rfl, le_rfl⟩
    · simp only [List.map_append, List.map_cons, List.sum_append, List.sum_cons]
      omega
    · dsimp only
      omega
    · dsimp only
      omega
    · dsimp only
      omega
  · obtain ⟨newLayout, isApart⟩ := forget (layout.takeWhole large enough)
    rw [if_neg splits]
    refine ⟨_, trivial, newLayout, ⟨fun other member => ?_, ?_⟩, ⟨le_rfl, ?_, isApart⟩, Or.inl splits⟩
    · rcases List.mem_append.mp member with inBefore | inOthers
      · exact ⟨other, List.mem_append_left _ inBefore, rfl, le_rfl⟩
      · exact ⟨other, List.mem_append_right _ (List.mem_cons_of_mem _ inOthers), rfl, le_rfl⟩
    · simp only [List.map_append, List.map_cons, List.sum_append, List.sum_cons]
      omega
    · dsimp only
      omega

/-- A call has changed the chunk: the spots are what is left of those before it, and `free_space`
is some bytes less. -/
structure Changed (chunk : Nat) (spots : List Spot) (tx after : Transaction) (rest : List Spot)
    (spent : Nat) : Prop where
  logged : Logged chunk tx after
  layout : Layout after.mem chunk [] rest
  remains : Remains spots rest spent
  space : (word after.mem (freeSpaceAt chunk) + spent) % wordValues =
    word tx.mem (freeSpaceAt chunk)

/-- A block has been taken from the chunk; where it starts with a spot, the first words of the
spot are logged. -/
def Served (chunk size : Nat) (spots : List Spot) (tx after : Transaction) (offset : Nat) : Prop :=
  ∃ rest, Changed chunk spots tx after rest size ∧
    ∃ spot ∈ spots, CutOff spot rest ⟨offset, size⟩ ∧
      ((∀ place, chunk + spot.offset ≤ place → place < chunk + spot.offset + 8 →
          Covers after.images place) ∨ spot.offset + 8 ≤ offset)

/-- What `FreeFormChunk::alloc` leaves. -/
theorem ends_chunkAlloc (layout : Layout tx.mem chunk [] spots) (large : minAllocBytes ≤ size) :
    Ends (chunkAlloc chunk size tx)
      (fun address after =>
        (address = none ∧ after = tx ∧ ¬ size ≤ word tx.mem (maxContSpaceAt chunk)) ∨
        ∃ offset, address = some (chunk + offset) ∧ Spends tx.mem chunk size tx.room ∧
          Served chunk size spots tx after offset)
      fun after => size ≤ word tx.mem (maxContSpaceAt chunk) ∧ ∃ rest,
        (¬ Spends tx.mem chunk size tx.room ∧ Changed chunk spots tx after rest 0) ∨
        Spends tx.mem chunk size tx.room ∧ Changed chunk spots tx after rest size := by
  have unchanged : Changed chunk spots tx tx spots 0 :=
    ⟨Logged.refl chunk tx, layout, Remains.refl spots, Nat.mod_eq_of_lt (word_lt _ _)⟩
  rw [chunkAlloc, get_bind]
  apply ends_ite
  · intro tooLarge
    exact Or.inl ⟨rfl, rfl, Nat.not_le.mpr tooLarge⟩
  · intro fits
    have enough := Nat.not_lt.mp fits
    cases found : findSpot tx.mem chunk size spotBound (freeListAt chunk) with
    | none =>
        refine ⟨enough, spots, Or.inl ⟨?_, unchanged⟩⟩
        rintro ⟨-, place, isFound, -⟩
        rw [found] at isFound
        cases isFound
    | some place =>
        obtain ⟨prev, offset⟩ := place
        obtain ⟨spot, isSpot, rest, rfl, newLayout, remains, cutOff, ends⟩ :=
          layout_takeSpot layout large found
        have spotInside := layout.spotFits.inside spot isSpot
        simp only [Inside, headerSize, minAllocBytes] at spotInside
        have isChunk : chunkSize ≤ wordValues := by decide
        have high := cutOff.high
        dsimp only at high
        have spendsIff : Spends tx.mem chunk size tx.room ↔
            logCalls tx.mem chunk size spot.offset ≤ tx.room := by
          rw [Spends, found]
          simp [logCalls, enough]
        have prevInside : freeListAt chunk ≤ prev ∧ prev + 4 ≤ chunk + chunkSize := by
          rcases (findSpot_mem layout.links found).2 with rfl | ⟨other, isOther, rfl⟩
          · refine ⟨le_rfl, ?_⟩
            rw [freeListAt]
            omega
          · have otherInside := layout.spotFits.inside other isOther
            simp only [Inside, headerSize, minAllocBytes] at otherInside
            rw [freeListAt, nextAt]
            omega
        have takes := @ends_takeSpot tx chunk size prev spot.offset spotInside.1 (by omega)
          prevInside.1 prevInside.2
        apply Ends.bind (takes.mono (fun _ _ => id) ?_)
        · rintro newOffset middle ⟨logged, taken, whole, room⟩
          have spends := spendsIff.mpr room
          have isOffset := congrArg Prod.fst taken
          have isMiddle := congrArg Prod.snd taken
          dsimp only at isOffset isMiddle
          rw [← isMiddle] at newLayout
          rw [← isOffset] at cutOff ends
          have sameSpace : word middle.mem (freeSpaceAt chunk) =
              word tx.mem (freeSpaceAt chunk) := by
            rw [isMiddle, FreeFormChunk.takeSpot]
            split_ifs
            · exact word_setWord_of_apart (by rw [freeSpaceAt, sizeAt]; omega)
            · exact word_setWord_of_apart (by rw [freeListAt] at prevInside; rw [freeSpaceAt]; omega)
          have isChanged (after : Transaction) (counted : Logged chunk middle after)
              (keeps : ∀ spots, Layout middle.mem chunk [] spots → Layout after.mem chunk [] spots)
              (space : (word after.mem (freeSpaceAt chunk) + size) % wordValues =
                word middle.mem (freeSpaceAt chunk)) : Changed chunk spots tx after rest size :=
            ⟨logged.trans counted, keeps rest newLayout, remains, space.trans sameSpace⟩
          apply Ends.bind ((ends_count (by omega) _).mono (fun _ _ => id) ?_)
          · rintro _ after ⟨counted, keeps, space⟩
            refine Or.inr ⟨newOffset, rfl, spends, rest, isChanged after counted keeps space, spot,
              isSpot, cutOff, ?_⟩
            refine ends.imp_left fun isWhole place low high => ?_
            exact counted.covers place (whole isWhole place low high)
          · rintro after ⟨counted, keeps, space⟩
            exact ⟨enough, rest, Or.inr ⟨spends, isChanged after counted keeps space⟩⟩
        · rintro after ⟨logged, isMem, full⟩
          have notSpends : ¬ Spends tx.mem chunk size tx.room := fun spends =>
            absurd (spendsIff.mp spends) (Nat.not_le.mpr full)
          rcases isMem with same | taken
          · refine ⟨enough, spots, Or.inl ⟨notSpends, logged, ?_, Remains.refl spots, ?_⟩⟩
            · rw [same]
              exact layout
            · rw [same]
              exact unchanged.space
          · refine ⟨enough, rest, Or.inl ⟨notSpends, logged, ?_, ?_, ?_⟩⟩
            · rw [taken]
              exact newLayout
            · exact ⟨remains.within, le_trans (Nat.le_add_right _ size) remains.total⟩
            · rw [taken, FreeFormChunk.takeSpot]
              split_ifs
              · rw [word_setWord_of_apart (by rw [freeSpaceAt, sizeAt]; omega)]
                exact unchanged.space
              · rw [word_setWord_of_apart
                  (by rw [freeListAt] at prevInside; rw [freeSpaceAt]; omega)]
                exact unchanged.space

end Pmgd.FreeFormAbort
