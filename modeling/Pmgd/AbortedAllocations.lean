import Pmgd.FreeFormAbort
import Pmgd.LargeBlock

/-!
# Aborted allocations

A transaction takes blocks from a variable allocator and aborts.  A new chunk is linked behind the
last one in an inner transaction, which commits, and the chunks of a large block in the running
one.  An abort gives back the free spots of each chunk and its header but `free_space`, which is
not logged, and `next_chunk`, if a new chunk was linked there.
-/

namespace Pmgd.FreeFormAbort

open ByteMemory FreeFormChunk LabelledRun ThrowingState UndoLog
open AllocatorUnit (Failure chunkBound chunkSize headerSize isBorderline minAllocBytes spotBound
  threshold wordValues)
open LargeBlock (used)
open VariableAllocator (Block Spot numChunks)

/-! ## The allocator -/

/-- Where the region header is, and `_my_id`. -/
structure Allocator where
  hdr : Nat
  myId : Nat

def pointer (mem : Memory) (address : Nat) : Nat :=
  loadNat mem address 8

/-- `TransactionImpl::write` of a pointer. -/
def writePointer (address value : Nat) : Alloc Unit := do
  log address 8
  modify fun tx => { tx with mem := store tx.mem address (encode 8 value) }

def modifyDram (change : Dram → Dram) : Alloc Unit :=
  modify fun tx => { tx with dram := change tx.dram }

/-- Run an inner transaction with its own journal; it commits at its end, and an exception rolls
it back. -/
def inner {α : Type} (room : Nat) (body : Alloc α) : Alloc α := fun tx =>
  match body { tx with images := [], room := room } with
  | .ok value after => .ok value { after with images := tx.images, room := tx.room }
  | .error failure after =>
      .error failure { after with
        mem := undo after.images after.mem
        images := tx.images
        room := tx.room
        inUse := tx.inUse }

/-- A new chunk from the chunk allocator, which answers `granted`, with its header. -/
def newChunk (allocator : Allocator) (used : Nat) (granted : Except Failure Nat) : Alloc Nat :=
  match granted with
  | .error failure => throw failure
  | .ok chunk => do
      modify fun tx => { tx with
        mem := construct tx.mem chunk allocator.myId used
        inUse := chunk :: tx.inUse }
      return chunk

/-- Put a chunk behind the last one. -/
def appendChunk (allocator : Allocator) (chunk : Nat) : Alloc Unit := do
  let tx ← get
  if pointer tx.mem allocator.hdr = 0 then writePointer allocator.hdr chunk
  else if tx.dram.lastChunkScanned = 0 then throw .crash
  -- `next_chunk` is the first field of a chunk
  else writePointer tx.dram.lastChunkScanned chunk
  modifyDram fun dram => { dram with lastChunkScanned := chunk }

/-- `VariableAllocator::alloc_chunk`. -/
def allocChunk (allocator : Allocator) (innerRoom : Nat) (granted : Except Failure Nat) :
    Alloc Nat :=
  inner innerRoom do
    let chunk ← newChunk allocator 0 granted
    appendChunk allocator chunk
    return chunk

/-- A chunk that has been scanned. -/
def passChunk (chunk : Nat) : Alloc Unit :=
  modify fun tx => { tx with dram :=
    ⟨if word tx.mem (maxContSpaceAt chunk) ≥ minAllocBytes then tx.dram.freeChunks.insert chunk
      else tx.dram.freeChunks, pointer tx.mem chunk, chunk⟩ }

/-- The loop of `alloc_chunks`. -/
def scanAll : Nat → Alloc Unit
  | 0 => throw .crash
  | bound + 1 => do
      let chunk := (← get).dram.chunkToScan
      if chunk = 0 then return
      else do
        passChunk chunk
        scanAll bound

/-- `VariableAllocator::alloc_chunks`. -/
def allocChunks (allocator : Allocator) (num used : Nat) (granted : Except Failure Nat) :
    Alloc Nat := do
  if num > 1 ∧ used > 0 then do
    let chunk ← newChunk allocator used granted
    scanAll chunkBound
    appendChunk allocator chunk
    return chunk
  else throw .crash

/-- `VariableAllocator::alloc_large`. -/
def allocLarge (allocator : Allocator) (size : Nat) (granted : Except Failure Nat) :
    Alloc Nat := do
  let chunk ← allocChunks allocator (numChunks size) (used size) granted
  modifyDram fun dram => { dram with freeChunks := dram.freeChunks.insert chunk }
  return chunk + (chunkSize - used size)

/-- The loop of `VariableAllocator::alloc` over the chunks with space. -/
def allocAmong (size : Nat) : List Nat → Alloc (Option Nat)
  | [] => return none
  | chunk :: chunks => do
      match ← chunkAlloc chunk size with
      | none => allocAmong size chunks
      | some address => do
          let space := word (← get).mem (maxContSpaceAt chunk)
          modifyDram fun dram =>
            if space ≥ minAllocBytes then dram
            else { dram with freeChunks := dram.freeChunks.erase chunk }
          return some address

/-- The loop of `VariableAllocator::alloc` over the chunks that have not been scanned. -/
def allocScanning (size : Nat) : Nat → Alloc (Option Nat)
  | 0 => throw .crash
  | bound + 1 => do
      let chunk := (← get).dram.chunkToScan
      if chunk = 0 then return none
      else do
        let address ← chunkAlloc chunk size
        passChunk chunk
        match address with
        | none => allocScanning size bound
        | some address => return some address

/-- The last part of `VariableAllocator::alloc`. -/
def allocNew (allocator : Allocator) (size innerRoom : Nat) (granted : Except Failure Nat) :
    Alloc Nat := do
  let chunk ← allocChunk allocator innerRoom granted
  let address ← chunkAlloc chunk size
  let space := word (← get).mem (maxContSpaceAt chunk)
  modifyDram fun dram =>
    if space ≥ minAllocBytes then { dram with freeChunks := dram.freeChunks.insert chunk }
    else dram
  match address with
  | none => throw .crash
  | some address => return address

/-- `VariableAllocator::alloc`. -/
def alloc (allocator : Allocator) (size innerRoom : Nat) (granted : Except Failure Nat) :
    Alloc Nat := do
  if size > chunkSize then allocLarge allocator size granted
  else
    match ← allocAmong size (← get).dram.freeChunks with
    | some address => return address
    | none => do
        match ← allocScanning size chunkBound with
        | some address => return address
        | none => allocNew allocator size innerRoom granted

/-! ## Runs -/

/-- The transaction and the blocks that are not free; of a large one, the bytes in its first
chunk. -/
structure State where
  tx : Transaction
  live : List Block

/-- The transaction asks for memory, where `room` and `innerRoom` are the numbers of log calls
that find room in the journals and `granted` is what the chunk allocator answers; it writes to
memory or logs it; and the order of the hash table may change at any time. -/
inductive Label
  | alloc (size room innerRoom : Nat) (granted : Except Failure Nat)
  | write (address : Nat) (bytes : List UInt8)
  | log (address length room : Nat)
  | rehash (chunks : List Nat)

/-- The transaction may go on after an exception. -/
def step (allocator : Allocator) (state : State) : Label → Option State
  | .alloc size room innerRoom granted =>
      match alloc allocator size innerRoom granted { state.tx with room := room } with
      | .ok address tx =>
          some ⟨tx, ⟨address, if size > chunkSize then used size else size⟩ :: state.live⟩
      | .error .crash _ => none
      | .error _ tx => some { state with tx := tx }
  | .write address bytes =>
      some { state with tx := { state.tx with mem := store state.tx.mem address bytes } }
  | .log address length room =>
      match log address length { state.tx with room := room } with
      | .ok _ tx => some { state with tx := tx }
      | .error _ tx => some { state with tx := tx }
  | .rehash chunks =>
      let dram := state.tx.dram
      if dram.freeChunks.Perm chunks then
        some { state with tx := { state.tx with dram := { dram with freeChunks := chunks } } }
      else none

/-- What the transaction finds. -/
def begin (mem : Memory) (dram : Dram) (inUse : List Nat) (live : List Block) : State :=
  ⟨⟨mem, [], 0, dram, inUse⟩, live⟩

/-- The memory after the transaction has been rolled back. -/
def State.afterAbort (state : State) : Memory :=
  undo state.tx.images state.tx.mem

/-- Two chunks do not overlap. -/
def ChunksApart (first second : Nat) : Prop :=
  first + chunkSize ≤ second ∨ second + chunkSize ≤ first

/-- Memory inside a block, or outside of the chunks and the region header. -/
def MayTouch (allocator : Allocator) (state : State) (address length : Nat) : Prop :=
  (∃ block ∈ state.live, block.address ≤ address ∧
      address + length ≤ block.address + block.size) ∨
    (address + length ≤ allocator.hdr ∨ allocator.hdr + 8 ≤ address) ∧
      ∀ chunk ∈ state.tx.inUse, address + length ≤ chunk ∨ chunk + chunkSize ≤ address

instance (allocator : Allocator) (state : State) (address length : Nat) :
    Decidable (MayTouch allocator state address length) :=
  inferInstanceAs (Decidable ((∃ block ∈ state.live, _) ∨ _ ∧ ∀ chunk ∈ state.tx.inUse, _))

/-- Requests are of sizes that are left to this allocator, new chunks are apart from those that it
has, and clients touch only memory that is not the allocator's. -/
def Disciplined (allocator : Allocator) (state : State) : Label → Prop
  | .alloc size _ _ granted =>
      minAllocBytes ≤ size ∧ ¬ isBorderline size ∧
        ∀ chunk ∈ granted.toOption, chunk ≠ 0 ∧ chunk < 2 ^ 64 ∧
          (allocator.hdr + 8 ≤ chunk ∨ chunk + chunkSize ≤ allocator.hdr) ∧
          ∀ other ∈ state.tx.inUse, ChunksApart chunk other
  | .write address bytes => MayTouch allocator state address bytes.length
  | .log address length _ => MayTouch allocator state address length
  | .rehash _ => True

instance (allocator : Allocator) (state : State) (label : Label) :
    Decidable (Disciplined allocator state label) :=
  match label with
  | .alloc _ _ _ _ =>
      inferInstanceAs (Decidable (_ ∧ _ ∧ ∀ chunk ∈ _,
        _ ∧ _ ∧ _ ∧ ∀ other ∈ state.tx.inUse, _ ∨ _))
  | .write _ _ => inferInstanceAs (Decidable (MayTouch _ _ _ _))
  | .log _ _ _ => inferInstanceAs (Decidable (MayTouch _ _ _ _))
  | .rehash _ => inferInstanceAs (Decidable True)

/-! ## Which chunk a request changes -/

/-- The chunks from one on. -/
def chain (mem : Memory) : Nat → Nat → List Nat
  | 0, _ => []
  | bound + 1, chunk =>
      if chunk = 0 then [] else chunk :: chain mem bound (pointer mem chunk)

/-- The chunks that have not been scanned. -/
def Transaction.unscanned (tx : Transaction) : List Nat :=
  chain tx.mem chunkBound tx.dram.chunkToScan

/-- The first chunk of those that the allocator asks whose largest spot is large enough. -/
def Transaction.server (tx : Transaction) (size : Nat) : Option Nat :=
  (tx.dram.freeChunks ++ tx.unscanned).find? fun chunk =>
    size ≤ word tx.mem (maxContSpaceAt chunk)

/-- The last chunk once all have been scanned. -/
def Transaction.lastChunk (tx : Transaction) : Nat :=
  tx.unscanned.getLastD tx.dram.lastChunkScanned

/-- The request takes a block from the chunk. -/
def Takes (tx : Transaction) (chunk size room : Nat) : Prop :=
  size ≤ chunkSize ∧ tx.server size = some chunk ∧ Spends tx.mem chunk size room

/-- The request gets a new chunk, which is linked behind this one. -/
def Extends (allocator : Allocator) (tx : Transaction) (chunk size innerRoom : Nat)
    (granted : Except Failure Nat) : Prop :=
  size ≤ chunkSize ∧ tx.server size = none ∧ granted.toOption.isSome ∧ innerRoom ≠ 0 ∧
    pointer tx.mem allocator.hdr ≠ 0 ∧ tx.lastChunk = chunk

/-- The request takes no block from the chunk. -/
def TakesNone (chunk : Nat) (state : State) : Label → Prop
  | .alloc size room _ _ => ¬ Takes state.tx chunk size room
  | _ => True

/-- The request links no new chunk behind this one for good. -/
def ExtendsNot (allocator : Allocator) (chunk : Nat) (state : State) : Label → Prop
  | .alloc size _ innerRoom granted => ¬ Extends allocator state.tx chunk size innerRoom granted
  | _ => True

/-- The bytes of the header, and of the first words of the spots. -/
def IsHeaderOrSpot (chunk : Nat) (spots : List Spot) (place : Nat) : Prop :=
  chunk ≤ place ∧ place < chunk + headerSize ∨
    ∃ spot ∈ spots, chunk + spot.offset ≤ place ∧ place < chunk + spot.offset + 8

def IsNextChunk (chunk place : Nat) : Prop :=
  chunk ≤ place ∧ place < chunk + 8

/-! ## What a transaction finds -/

/-- A block overlaps neither the header nor a spot of a chunk. -/
def ClearOf (chunk : Nat) (spots : List Spot) (block : Block) : Prop :=
  (block.address + block.size ≤ chunk ∨ chunk + headerSize ≤ block.address) ∧
    ∀ spot ∈ spots, block.address + block.size ≤ chunk + spot.offset ∨
      chunk + spot.offset + spot.size ≤ block.address

/-- The chunks are apart and lead only to each other, their free lists are lists of spots, the
blocks are in the chunks and clear of headers and spots, and the DRAM state knows only the
chunks. -/
structure Consistent (allocator : Allocator) (tx : Transaction) (live : List Block) : Prop where
  nonzero : ∀ chunk ∈ tx.inUse, chunk ≠ 0
  apart : tx.inUse.Pairwise ChunksApart
  hdr : ∀ chunk ∈ tx.inUse, allocator.hdr + 8 ≤ chunk ∨ chunk + chunkSize ≤ allocator.hdr
  layouts : ∀ chunk ∈ tx.inUse, ∃ spots, Layout tx.mem chunk [] spots ∧
    ∀ block ∈ live, ClearOf chunk spots block
  inside : ∀ block ∈ live, ∃ chunk ∈ tx.inUse, chunk ≤ block.address ∧
    block.address + block.size ≤ chunk + chunkSize
  pointers : ∀ chunk ∈ tx.inUse, pointer tx.mem chunk = 0 ∨ pointer tx.mem chunk ∈ tx.inUse
  freeChunks : ∀ chunk ∈ tx.dram.freeChunks, chunk ∈ tx.inUse
  chunkToScan : tx.dram.chunkToScan = 0 ∨ tx.dram.chunkToScan ∈ tx.inUse
  lastChunkScanned : tx.dram.lastChunkScanned = 0 ∨ tx.dram.lastChunkScanned ∈ tx.inUse

variable {allocator : Allocator} {start mem : Memory} {tx after : Transaction}
  {live : List Block} {chunk other size spent : Nat} {spots oldSpots rest : List Spot}

theorem ChunksApart.symm (apart : ChunksApart chunk other) : ChunksApart other chunk :=
  Or.symm apart

theorem Consistent.chunksApart (consistent : Consistent allocator tx live)
    (isChunk : chunk ∈ tx.inUse) (isOther : other ∈ tx.inUse) (differs : chunk ≠ other) :
    ChunksApart chunk other := by
  have symmetric : Std.Symm ChunksApart := ⟨fun _ _ => ChunksApart.symm⟩
  exact consistent.apart.forall isChunk isOther differs

theorem room_header : 32 ≤ chunkSize := by
  decide

/-- Only the header and the first words of the spots matter. -/
theorem layout_congr {before : Memory} (layout : Layout before chunk [] spots)
    (same : ∀ place, chunk + 8 ≤ place → IsHeaderOrSpot chunk spots place →
      mem place = before place) :
    Layout mem chunk [] spots := by
  have isList : word mem (freeListAt chunk) = word before (freeListAt chunk) := by
    apply word_congr
    intro offset inWord
    rw [freeListAt]
    exact same _ (by omega) (Or.inl (by rw [headerSize]; omega))
  refine ⟨?_, layout.inside, layout.apart⟩
  rw [isList]
  apply layout.links.congr
  intro spot member
  have behind := layout.behindHeader member
  constructor
  · apply word_congr
    intro offset inWord
    rw [nextAt]
    exact same _ (by omega) (Or.inr ⟨spot, member, by omega⟩)
  · apply word_congr
    intro offset inWord
    rw [sizeAt]
    exact same _ (by omega) (Or.inr ⟨spot, member, by omega⟩)

theorem inside_of_isHeaderOrSpot (layout : Layout mem chunk [] spots) {place : Nat}
    (isOwn : IsHeaderOrSpot chunk spots place) : chunk ≤ place ∧ place < chunk + chunkSize := by
  have room := room_header
  rcases isOwn with ⟨low, high⟩ | ⟨spot, member, low, high⟩
  · rw [headerSize] at high
    omega
  · have inside := layout.spotFits.inside spot member
    simp only [Inside, minAllocBytes] at inside
    omega

theorem pointer_congr {before : Memory} {address : Nat}
    (same : ∀ place, IsNextChunk address place → mem place = before place) :
    pointer mem address = pointer before address := by
  rw [pointer, pointer, loadNat, loadNat]
  congr 1
  apply load_congr
  intro offset inWord
  exact same _ ⟨Nat.le_add_right _ _, by omega⟩

namespace Consistent

/-- The layout of a chunk is what the memory says. -/
theorem clear (consistent : Consistent allocator tx live) (isChunk : chunk ∈ tx.inUse)
    (layout : Layout tx.mem chunk [] spots) : ∀ block ∈ live, ClearOf chunk spots block := by
  obtain ⟨others, otherLayout, isClear⟩ := consistent.layouts chunk isChunk
  rw [layout.links.unique otherLayout.links]
  exact isClear

/-- Changes in one chunk behind its pointer to the next one. -/
theorem sameElsewhere (consistent : Consistent allocator tx live) (isChunk : chunk ∈ tx.inUse)
    (logged : Logged chunk tx after) (isOther : other ∈ tx.inUse) {place : Nat}
    (inOther : other ≤ place ∧ place < other + chunkSize)
    (elsewhere : other = chunk → place < chunk + 8) : after.mem place = tx.mem place := by
  apply logged.outside
  by_cases same : other = chunk
  · exact Or.inl (elsewhere same)
  · have apart := consistent.chunksApart isOther isChunk same
    rw [ChunksApart] at apart
    rw [freeSpaceAt]
    omega

theorem changed (consistent : Consistent allocator tx live) (isChunk : chunk ∈ tx.inUse)
    (layout : Layout tx.mem chunk [] spots) (change : Changed chunk spots tx after rest spent) :
    Consistent allocator after live := by
  have logged := change.logged
  have room := room_header
  have isInUse := logged.inUse
  constructor
  case layouts =>
    intro other isOther
    rw [isInUse] at isOther
    by_cases same : other = chunk
    · subst same
      refine ⟨rest, change.layout, fun block isLive => ?_⟩
      obtain ⟨fromHeader, fromSpots⟩ := consistent.clear isChunk layout block isLive
      refine ⟨fromHeader, fun spot member => ?_⟩
      obtain ⟨old, isOld, sameOffset, smaller⟩ := change.remains.within spot member
      have := fromSpots old isOld
      omega
    · obtain ⟨others, otherLayout, isClear⟩ := consistent.layouts other isOther
      refine ⟨others, layout_congr otherLayout fun place _ isOwn => ?_, isClear⟩
      exact consistent.sameElsewhere isChunk logged isOther
        (inside_of_isHeaderOrSpot otherLayout isOwn) fun isSame => absurd isSame same
  case pointers =>
    intro other isOther
    rw [isInUse] at isOther
    have same : pointer after.mem other = pointer tx.mem other := by
      apply pointer_congr
      intro place isNext
      rw [IsNextChunk] at isNext
      exact consistent.sameElsewhere isChunk logged isOther (by omega) (by omega)
    rw [same, isInUse]
    exact consistent.pointers other isOther
  all_goals
    simp only [logged.dram, isInUse]
    first
      | exact consistent.nonzero
      | exact consistent.apart
      | exact consistent.hdr
      | exact consistent.inside
      | exact consistent.freeChunks
      | exact consistent.chunkToScan
      | exact consistent.lastChunkScanned

/-- A block in a chunk, clear of its header and its spots. -/
theorem cons (consistent : Consistent allocator tx live) (isChunk : chunk ∈ tx.inUse)
    (layout : Layout tx.mem chunk [] spots) {block : Block}
    (low : chunk + headerSize ≤ block.address)
    (high : block.address + block.size ≤ chunk + chunkSize)
    (clear : ∀ spot ∈ spots, block.address + block.size ≤ chunk + spot.offset ∨
      chunk + spot.offset + spot.size ≤ block.address) :
    Consistent allocator tx (block :: live) := by
  have room := room_header
  simp only [headerSize] at low
  refine { consistent with
    layouts := fun other isOther => ?_
    inside := fun second member => ?_ }
  · obtain ⟨others, layoutOther, isClear⟩ := consistent.layouts other isOther
    refine ⟨others, layoutOther, fun second member => ?_⟩
    rcases List.mem_cons.mp member with rfl | isLive
    · by_cases same : other = chunk
      · subst same
        rw [layoutOther.links.unique layout.links]
        exact ⟨Or.inr low, clear⟩
      · have apart := consistent.chunksApart isOther isChunk same
        rw [ChunksApart] at apart
        refine ⟨by rw [headerSize]; omega, fun spot isSpot => ?_⟩
        have inside := layoutOther.spotFits.inside spot isSpot
        simp only [Inside] at inside
        omega
    · exact isClear second isLive
  · rcases List.mem_cons.mp member with rfl | isLive
    · exact ⟨chunk, isChunk, by omega, high⟩
    · exact consistent.inside second isLive

/-- The chunk gives a block. -/
theorem served (consistent : Consistent allocator tx live) (isChunk : chunk ∈ tx.inUse)
    (layout : Layout tx.mem chunk [] spots) {offset : Nat}
    (serves : Served chunk size spots tx after offset) :
    Consistent allocator after (⟨chunk + offset, size⟩ :: live) := by
  obtain ⟨rest, change, spot, isSpot, cutOff, -⟩ := serves
  have inside := layout.spotFits.inside spot isSpot
  simp only [Inside] at inside
  have low := cutOff.low
  have high := cutOff.high
  dsimp only at low high
  have isStill : chunk ∈ after.inUse := by rwa [change.logged.inUse]
  apply (consistent.changed isChunk layout change).cons isStill change.layout
  · dsimp only
    omega
  · dsimp only
    omega
  · intro other member
    have apart := cutOff.apart other member
    simp only [Apart] at apart
    dsimp only
    omega

/-- Clients touch neither headers nor first words of spots. -/
theorem untouched (consistent : Consistent allocator tx live) (isChunk : chunk ∈ tx.inUse)
    (layout : Layout tx.mem chunk [] spots) {address length : Nat}
    (may : MayTouch allocator ⟨tx, live⟩ address length) {place : Nat}
    (isOwn : IsHeaderOrSpot chunk spots place) : place < address ∨ address + length ≤ place := by
  rcases may with ⟨block, isLive, low, high⟩ | ⟨-, outside⟩
  · obtain ⟨fromHeader, fromSpots⟩ := consistent.clear isChunk layout block isLive
    rcases isOwn with inHeader | ⟨spot, isSpot, inSpot⟩
    · omega
    · have inside := layout.spotFits.inside spot isSpot
      have fromSpot := fromSpots spot isSpot
      simp only [Inside, minAllocBytes] at inside
      omega
  · have apart := outside chunk isChunk
    have inside := inside_of_isHeaderOrSpot layout isOwn
    omega

/-- Memory that is not the allocator's may change. -/
theorem touch (consistent : Consistent allocator tx live) {address length : Nat}
    (may : MayTouch allocator ⟨tx, live⟩ address length)
    (same : ∀ place, place < address ∨ address + length ≤ place → mem place = tx.mem place) :
    Consistent allocator { tx with mem := mem } live := by
  refine { consistent with
    layouts := fun chunk isChunk => ?_
    pointers := fun chunk isChunk => ?_ }
  · obtain ⟨spots, layout, isClear⟩ := consistent.layouts chunk isChunk
    refine ⟨spots, layout_congr layout fun place _ isOwn => ?_, isClear⟩
    exact same place (consistent.untouched isChunk layout may isOwn)
  · obtain ⟨spots, layout, -⟩ := consistent.layouts chunk isChunk
    have isSame : pointer mem chunk = pointer tx.mem chunk := by
      apply pointer_congr
      intro place isNext
      have inHeader := isNext.2
      exact same place (consistent.untouched isChunk layout may
        (Or.inl ⟨isNext.1, by rw [headerSize]; omega⟩))
    change pointer mem chunk = 0 ∨ pointer mem chunk ∈ tx.inUse
    rw [isSame]
    exact consistent.pointers chunk isChunk

end Consistent

/-! ## What an abort gives back -/

/-- The images undo all changes of a chunk that it had at the beginning, but those of `free_space`
and of the pointer to the next chunk; `linked` tells whether a new chunk stays there. -/
structure Undone (start : Memory) (oldChunks : List Nat) (chunk : Nat) (oldSpots : List Spot)
    (tx : Transaction) (live : List Block) (spent : Nat) (linked : Prop) : Prop where
  restored : ∀ place, IsHeaderOrSpot chunk oldSpots place → ¬ IsFreeSpace chunk place →
    ¬ IsNextChunk chunk place → undo tx.images tx.mem place = start place
  untouched : ∀ place, IsFreeSpace chunk place → ¬ Covers tx.images place
  space : (word tx.mem (freeSpaceAt chunk) + spent) % wordValues = word start (freeSpaceAt chunk)
  spots : ∃ spots, Layout tx.mem chunk [] spots ∧ Remains oldSpots spots spent
  covered : ∀ block ∈ live, ∀ old ∈ oldSpots, ∀ place, chunk + old.offset ≤ place →
    place < chunk + old.offset + 8 → block.address ≤ place →
    place < block.address + block.size → Covers tx.images place
  known : ∀ other ∈ oldChunks, other ∈ tx.inUse
  next : ¬ linked ∧ (∀ place, IsNextChunk chunk place →
      undo tx.images tx.mem place = start place) ∨
    linked ∧ pointer (undo tx.images tx.mem) chunk ≠ 0 ∧
      pointer (undo tx.images tx.mem) chunk ∉ oldChunks
  moved : ∀ place, IsNextChunk chunk place → Covers tx.images place →
    tx.dram.chunkToScan = 0 ∧ tx.dram.lastChunkScanned ≠ chunk

namespace Undone

variable {oldChunks : List Nat} {linked : Prop}

/-- A call that has changed the chunk. -/
theorem changed (undone : Undone start oldChunks chunk oldSpots tx live spent linked)
    (layout : Layout tx.mem chunk [] spots) {more : Nat}
    (change : Changed chunk spots tx after rest more) :
    Undone start oldChunks chunk oldSpots after live (spent + more) linked := by
  have logged := change.logged
  have atNext (place : Nat) (isNext : IsNextChunk chunk place) :
      undo after.images after.mem place = undo tx.images tx.mem place := by
    apply logged.undone
    rw [IsFreeSpace, freeSpaceAt]
    rw [IsNextChunk] at isNext
    omega
  refine ⟨fun place isOld notSpace notNext => ?_, fun place isSpace covered => ?_, ?_, ?_, ?_, ?_,
    ?_, ?_⟩
  · rw [logged.undone place notSpace]
    exact undone.restored place isOld notSpace notNext
  · exact undone.untouched place isSpace (logged.uncovered place (Or.inl isSpace.2) covered)
  · have before := undone.space
    rw [← change.space, Nat.mod_add_mod] at before
    rw [← before]
    congr 1
    omega
  · obtain ⟨others, otherLayout, remains⟩ := undone.spots
    rw [otherLayout.links.unique layout.links] at remains
    exact ⟨rest, change.layout, remains.trans change.remains⟩
  · intro block isLive old isOld place low high blockLow blockHigh
    exact logged.covers place (undone.covered block isLive old isOld place low high blockLow
      blockHigh)
  · rw [logged.inUse]
    exact undone.known
  · rw [pointer_congr atNext]
    exact undone.next.imp_left (And.imp_right fun isStart place isNext =>
      (atNext place isNext).trans (isStart place isNext))
  · intro place isNext covered
    rw [logged.dram]
    apply undone.moved place isNext
    apply logged.uncovered place _ covered
    left
    rw [freeSpaceAt]
    have := isNext.2
    omega

/-- What holds while nothing happens to the chunk. -/
theorem congr (undone : Undone start oldChunks chunk oldSpots tx live spent linked)
    (oldFits : ∀ old ∈ oldSpots, Inside old)
    (same : ∀ place, chunk ≤ place → place < chunk + chunkSize →
      undo after.images after.mem place = undo tx.images tx.mem place ∧
        after.mem place = tx.mem place ∧ (Covers after.images place ↔ Covers tx.images place))
    (dram : after.dram = tx.dram) (more : ∀ other ∈ tx.inUse, other ∈ after.inUse) :
    Undone start oldChunks chunk oldSpots after live spent linked := by
  have room := room_header
  have atNext (place : Nat) (isNext : IsNextChunk chunk place) :
      undo after.images after.mem place = undo tx.images tx.mem place :=
    (same place isNext.1 (by have := isNext.2; omega)).1
  refine ⟨fun place isOld notSpace notNext => ?_, fun place isSpace covered => ?_, ?_, ?_, ?_, ?_,
    ?_, ?_⟩
  · rw [← undone.restored place isOld notSpace notNext]
    rcases isOld with ⟨low, high⟩ | ⟨old, isOld, low, high⟩
    · rw [headerSize] at high
      exact (same place low (by omega)).1
    · have inside := oldFits old isOld
      simp only [Inside, minAllocBytes] at inside
      exact (same place (by omega) (by omega)).1
  · rw [IsFreeSpace, freeSpaceAt] at isSpace
    exact undone.untouched place isSpace ((same place (by omega) (by omega)).2.2.mp covered)
  · have sameWord : word after.mem (freeSpaceAt chunk) = word tx.mem (freeSpaceAt chunk) := by
      apply word_congr
      intro offset inWord
      rw [freeSpaceAt]
      exact (same _ (by omega) (by omega)).2.1
    rw [sameWord]
    exact undone.space
  · obtain ⟨others, layout, remains⟩ := undone.spots
    refine ⟨others, layout_congr layout fun place _ isOwn => ?_, remains⟩
    have inside := inside_of_isHeaderOrSpot layout isOwn
    exact (same place inside.1 inside.2).2.1
  · intro block isLive old isOld place low high blockLow blockHigh
    have inside := oldFits old isOld
    simp only [Inside, minAllocBytes] at inside
    exact (same place (by omega) (by omega)).2.2.mpr
      (undone.covered block isLive old isOld place low high blockLow blockHigh)
  · exact fun other isOther => more other (undone.known other isOther)
  · rw [pointer_congr atNext]
    exact undone.next.imp_left (And.imp_right fun isStart place isNext =>
      (atNext place isNext).trans (isStart place isNext))
  · intro place isNext covered
    rw [dram]
    have isIn := isNext.2
    exact undone.moved place isNext ((same place isNext.1 (by omega)).2.2.mp covered)

/-- A change in another chunk. -/
theorem changedOther (undone : Undone start oldChunks chunk oldSpots tx live spent linked)
    (oldFits : ∀ old ∈ oldSpots, Inside old) (apart : ChunksApart chunk other)
    (logged : Logged other tx after) :
    Undone start oldChunks chunk oldSpots after live spent linked := by
  rw [ChunksApart] at apart
  have room := room_header
  refine undone.congr oldFits (fun place low high => ⟨?_, ?_, ?_⟩) logged.dram ?_
  · apply logged.undone
    rw [IsFreeSpace, freeSpaceAt]
    omega
  · apply logged.outside
    rw [freeSpaceAt]
    omega
  · refine ⟨logged.uncovered place ?_, logged.covers place⟩
    rw [freeSpaceAt]
    omega
  · rw [logged.inUse]
    exact fun _ => id

/-- A block that overlaps no first words of the spots at the beginning, or only logged ones. -/
theorem cons (undone : Undone start oldChunks chunk oldSpots tx live spent linked) {block : Block}
    (covered : ∀ old ∈ oldSpots, ∀ place, chunk + old.offset ≤ place →
      place < chunk + old.offset + 8 → block.address ≤ place →
      place < block.address + block.size → Covers tx.images place) :
    Undone start oldChunks chunk oldSpots tx (block :: live) spent linked := by
  refine { undone with covered := fun second member => ?_ }
  rcases List.mem_cons.mp member with rfl | isLive
  · exact covered
  · exact undone.covered second isLive

/-- The DRAM state changes. -/
theorem withDram (undone : Undone start oldChunks chunk oldSpots tx live spent linked) {dram : Dram}
    (moved : tx.dram.chunkToScan = 0 → tx.dram.lastChunkScanned ≠ chunk →
      dram.chunkToScan = 0 ∧ dram.lastChunkScanned ≠ chunk) :
    Undone start oldChunks chunk oldSpots { tx with dram := dram } live spent linked := by
  refine { undone with moved := fun place isNext covered => ?_ }
  obtain ⟨isEnd, isOther⟩ := undone.moved place isNext covered
  exact moved isEnd isOther

/-- Memory that is not the allocator's may change. -/
theorem touch (undone : Undone start oldChunks chunk oldSpots tx live spent linked)
    (consistent : Consistent allocator tx live) (isChunk : chunk ∈ tx.inUse)
    (oldFits : ∀ old ∈ oldSpots, Inside old) {address length : Nat}
    (may : MayTouch allocator ⟨tx, live⟩ address length)
    (same : ∀ place, place < address ∨ address + length ≤ place → mem place = tx.mem place) :
    Undone start oldChunks chunk oldSpots { tx with mem := mem } live spent linked := by
  have room := room_header
  obtain ⟨spots, layout, remains⟩ := undone.spots
  have own (place : Nat) (isOwn : IsHeaderOrSpot chunk spots place) : mem place = tx.mem place :=
    same place (consistent.untouched isChunk layout may isOwn)
  have atNext (place : Nat) (isNext : IsNextChunk chunk place) :
      undo tx.images mem place = undo tx.images tx.mem place := by
    apply undo_congr
    intro _
    have inHeader := isNext.2
    exact own place (Or.inl ⟨isNext.1, by rw [headerSize]; omega⟩)
  refine { undone with
    restored := fun place isOld notSpace notNext => ?_
    space := ?_
    spots := ⟨spots, layout_congr layout fun place _ => own place, remains⟩
    next := ?_ }
  · rw [← undone.restored place isOld notSpace notNext]
    apply undo_congr
    intro uncovered
    rcases isOld with inHeader | ⟨old, isOld, low, high⟩
    · exact own place (Or.inl inHeader)
    · apply same
      have inside := oldFits old isOld
      simp only [Inside, minAllocBytes] at inside
      rcases may with ⟨block, isLive, blockLow, blockHigh⟩ | ⟨-, outside⟩
      · -- the first words of an old spot that are in a block are logged
        by_contra inRange
        exact uncovered (undone.covered block isLive old isOld place low high (by omega)
          (by omega))
      · have apart := outside chunk isChunk
        omega
  · have sameWord : word mem (freeSpaceAt chunk) = word tx.mem (freeSpaceAt chunk) := by
      apply word_congr
      intro offset inWord
      rw [freeSpaceAt]
      exact own _ (Or.inl ⟨by omega, by rw [headerSize]; omega⟩)
    rw [sameWord]
    exact undone.space
  · dsimp only
    rw [pointer_congr atNext]
    exact undone.next.imp_left (And.imp_right fun isStart place isNext =>
      (atNext place isNext).trans (isStart place isNext))

/-- The client logs memory that is not the allocator's. -/
theorem log (undone : Undone start oldChunks chunk oldSpots tx live spent linked)
    (consistent : Consistent allocator tx live) (isChunk : chunk ∈ tx.inUse) {address length : Nat}
    (may : MayTouch allocator ⟨tx, live⟩ address length) :
    Undone start oldChunks chunk oldSpots (tx.logged address length) live spent linked := by
  obtain ⟨spots, layout, -⟩ := undone.spots
  have header (place : Nat) (low : chunk ≤ place) (high : place < chunk + 12)
      (covered : Covers (tx.logged address length).images place) : Covers tx.images place := by
    rcases covers_logged.mp covered with was | inRange
    · exact was
    · have isOwn : IsHeaderOrSpot chunk spots place := Or.inl ⟨low, by rw [headerSize]; omega⟩
      have outside := consistent.untouched isChunk layout may isOwn
      omega
  refine { undone with
    restored := ?_
    untouched := fun place isSpace covered => ?_
    covered := fun block isLive old isOld place low high blockLow blockHigh => ?_
    next := ?_
    moved := fun place isNext covered => ?_ }
  · change ∀ place, _ → _ → _ → undo (tx.logged address length).images tx.mem place = _
    rw [undo_logged]
    exact undone.restored
  · have isIn := isSpace
    rw [IsFreeSpace, freeSpaceAt] at isIn
    exact undone.untouched place isSpace (header place (by omega) (by omega) covered)
  · exact covers_logged.mpr (Or.inl (undone.covered block isLive old isOld place low high blockLow
      blockHigh))
  · change _ ∧ (∀ place, _ → undo (tx.logged address length).images tx.mem place = _) ∨
      _ ∧ pointer (undo (tx.logged address length).images tx.mem) chunk ≠ 0 ∧
        pointer (undo (tx.logged address length).images tx.mem) chunk ∉ _
    rw [undo_logged]
    exact undone.next
  · have isIn := isNext.2
    exact undone.moved place isNext (header place isNext.1 (by omega) covered)

end Undone

/-! ## New chunks -/

/-- What the chunk allocator promises of a new chunk. -/
structure Fresh (allocator : Allocator) (tx : Transaction) (chunk : Nat) : Prop where
  nonzero : chunk ≠ 0
  small : chunk < 2 ^ 64
  hdr : allocator.hdr + 8 ≤ chunk ∨ chunk + chunkSize ≤ allocator.hdr
  apart : ∀ other ∈ tx.inUse, ChunksApart chunk other

theorem Fresh.not_mem (fresh : Fresh allocator tx chunk) : chunk ∉ tx.inUse := by
  intro isChunk
  have apart := fresh.apart chunk isChunk
  have room := room_header
  rw [ChunksApart] at apart
  omega

theorem layout_construct (mem : Memory) (chunk allocId : Nat) {used : Nat}
    (small : used ≤ threshold) :
    Layout (construct mem chunk allocId used) chunk []
      [⟨headerSize, chunkSize - headerSize - used⟩] := by
  have capacity : chunkSize = 2097152 := by decide
  have bound : threshold = 2097120 := by decide
  have isHeader : headerSize = 24 := rfl
  have values : wordValues = 4294967296 := by decide
  rw [bound] at small
  have words : word (construct mem chunk allocId used) (freeListAt chunk) = headerSize ∧
      word (construct mem chunk allocId used) (nextAt chunk headerSize) = 0 ∧
      word (construct mem chunk allocId used) (sizeAt chunk headerSize) =
        chunkSize - headerSize - used := by
    simp only [construct, nextAt, sizeAt, freeListAt, maxContSpaceAt, freeSpaceAt, isHeader,
      capacity]
    simp (disch := omega) only [word_setWord_self, word_setWord_of_apart, and_self]
  obtain ⟨isList, isNext, isSize⟩ := words
  refine ⟨?_, ?_, List.pairwise_singleton _ _⟩
  · rw [isList]
    exact ⟨rfl, by decide, isSize, isNext⟩
  · simp only [List.nil_append, List.mem_singleton, forall_eq, Inside, isHeader, capacity,
      minAllocBytes]
    omega

theorem pointer_construct (mem : Memory) (chunk allocId used : Nat) :
    pointer (construct mem chunk allocId used) chunk = 0 := by
  simp only [construct, setWord, pointer, nextAt, sizeAt, freeListAt, maxContSpaceAt, freeSpaceAt,
    myIdAt]
  simp (disch := simp only [length_encode, headerSize]; omega) only [loadNat_store_of_disjoint]
  exact loadNat_store_self (by decide)

/-- The state after the chunk allocator has given a chunk. -/
def Transaction.grown (allocator : Allocator) (tx : Transaction) (chunk used : Nat) :
    Transaction :=
  { tx with
    mem := construct tx.mem chunk allocator.myId used
    inUse := chunk :: tx.inUse }

theorem newChunk_bind {α : Type} (used : Nat) (next : Nat → Alloc α) :
    (newChunk allocator used (.ok chunk) >>= next) tx = next chunk (tx.grown allocator chunk used) :=
  rfl

theorem Fresh.same (fresh : Fresh allocator tx chunk) {used : Nat} (isOther : other ∈ tx.inUse)
    {place : Nat} (low : other ≤ place) (high : place < other + chunkSize) :
    (tx.grown allocator chunk used).mem place = tx.mem place := by
  have apart := fresh.apart other isOther
  have room := room_header
  rw [ChunksApart] at apart
  exact construct_outside (by rw [headerSize]; omega)

theorem Consistent.grown (consistent : Consistent allocator tx live)
    (fresh : Fresh allocator tx chunk) {used : Nat} (small : used ≤ threshold) :
    Consistent allocator (tx.grown allocator chunk used) live := by
  have room := room_header
  constructor
  · exact List.forall_mem_cons.mpr ⟨fresh.nonzero, consistent.nonzero⟩
  · exact List.pairwise_cons.mpr ⟨fresh.apart, consistent.apart⟩
  · exact List.forall_mem_cons.mpr ⟨fresh.hdr, consistent.hdr⟩
  · refine List.forall_mem_cons.mpr ⟨⟨_, layout_construct _ _ _ small, ?_⟩, ?_⟩
    · intro block isLive
      obtain ⟨other, isOther, low, high⟩ := consistent.inside block isLive
      have apart := fresh.apart other isOther
      rw [ChunksApart] at apart
      refine ⟨by rw [headerSize]; omega, fun spot isSpot => ?_⟩
      rw [List.mem_singleton.mp isSpot]
      dsimp only
      rw [headerSize]
      omega
    · intro other isOther
      obtain ⟨spots, layout, isClear⟩ := consistent.layouts other isOther
      refine ⟨spots, layout_congr layout fun place _ isOwn => ?_, isClear⟩
      have inside := inside_of_isHeaderOrSpot layout isOwn
      exact fresh.same isOther inside.1 inside.2
  · intro block isLive
    obtain ⟨other, isOther, inside⟩ := consistent.inside block isLive
    exact ⟨other, List.mem_cons_of_mem _ isOther, inside⟩
  · refine List.forall_mem_cons.mpr ⟨Or.inl (pointer_construct _ _ _ _), fun other isOther => ?_⟩
    have same : pointer (tx.grown allocator chunk used).mem other = pointer tx.mem other :=
      pointer_congr fun place isNext =>
        fresh.same isOther isNext.1 (by have := isNext.2; omega)
    rw [same]
    exact (consistent.pointers other isOther).imp_right (List.mem_cons_of_mem _)
  · exact fun other isFree => List.mem_cons_of_mem _ (consistent.freeChunks other isFree)
  · exact consistent.chunkToScan.imp_right (List.mem_cons_of_mem _)
  · exact consistent.lastChunkScanned.imp_right (List.mem_cons_of_mem _)

theorem Consistent.withDram (consistent : Consistent allocator tx live) {dram : Dram}
    (freeChunks : ∀ chunk ∈ dram.freeChunks, chunk ∈ tx.inUse)
    (chunkToScan : dram.chunkToScan = 0 ∨ dram.chunkToScan ∈ tx.inUse)
    (lastChunkScanned : dram.lastChunkScanned = 0 ∨ dram.lastChunkScanned ∈ tx.inUse) :
    Consistent allocator { tx with dram := dram } live :=
  { consistent with
    freeChunks := freeChunks
    chunkToScan := chunkToScan
    lastChunkScanned := lastChunkScanned }

/-- Where the pointer to a new chunk goes. -/
def Transaction.place (allocator : Allocator) (tx : Transaction) : Nat :=
  if pointer tx.mem allocator.hdr = 0 then allocator.hdr else tx.dram.lastChunkScanned

theorem place_congr {first second : Transaction} (mem : first.mem = second.mem)
    (dram : first.dram = second.dram) : first.place allocator = second.place allocator := by
  rw [Transaction.place, Transaction.place, mem, dram]

/-- The state after the pointer has been written without a log call. -/
def Transaction.linked (tx : Transaction) (place chunk : Nat) : Transaction :=
  { tx with
    mem := store tx.mem place (encode 8 chunk)
    dram := { tx.dram with lastChunkScanned := chunk } }

theorem linked_outside {place address : Nat} (outside : place < address ∨ address + 8 ≤ place) :
    (tx.linked address chunk).mem place = tx.mem place :=
  store_outside (by rwa [length_encode])

theorem Consistent.linked (consistent : Consistent allocator tx live) {place : Nat}
    (isPlace : place = allocator.hdr ∨ place ∈ tx.inUse) (isChunk : chunk ∈ tx.inUse)
    (small : chunk < 2 ^ 64) : Consistent allocator (tx.linked place chunk) live := by
  have room := room_header
  have outside (other : Nat) (isOther : other ∈ tx.inUse) (differs : other ≠ place) :
      place + 8 ≤ other ∨ other + chunkSize ≤ place := by
    rcases isPlace with rfl | isPlace
    · exact consistent.hdr other isOther
    · have apart := consistent.chunksApart isOther isPlace differs
      rw [ChunksApart] at apart
      omega
  refine { consistent with
    layouts := fun other isOther => ?_
    pointers := fun other isOther => ?_
    lastChunkScanned := Or.inr isChunk }
  · obtain ⟨spots, layout, isClear⟩ := consistent.layouts other isOther
    refine ⟨spots, layout_congr layout fun address low isOwn => ?_, isClear⟩
    have inside := inside_of_isHeaderOrSpot layout isOwn
    apply linked_outside
    by_cases same : other = place
    · omega
    · have apart := outside other isOther same
      omega
  · by_cases same : other = place
    · right
      subst same
      have isPointer : pointer (tx.linked other chunk).mem other = chunk :=
        loadNat_store_self (by norm_num; omega)
      rwa [isPointer]
    · have isPointer : pointer (tx.linked place chunk).mem other = pointer tx.mem other := by
        apply pointer_congr
        intro address isNext
        have apart := outside other isOther same
        have isIn := isNext
        rw [IsNextChunk] at isIn
        exact linked_outside (by omega)
      rw [isPointer]
      exact consistent.pointers other isOther

namespace Undone

variable {oldChunks : List Nat} {linked : Prop}

theorem grown (undone : Undone start oldChunks chunk oldSpots tx live spent linked)
    (oldFits : ∀ old ∈ oldSpots, Inside old) (isChunk : chunk ∈ tx.inUse)
    (fresh : Fresh allocator tx other) (used : Nat) :
    Undone start oldChunks chunk oldSpots (tx.grown allocator other used) live spent linked := by
  refine undone.congr oldFits (fun place low high => ?_) rfl fun _ => List.mem_cons_of_mem _
  have same := @Fresh.same _ _ _ _ fresh used isChunk place low high
  exact ⟨undo_congr fun _ => same, same, Iff.rfl⟩

/-- The pointer to a new chunk is written somewhere else. -/
theorem linkedElsewhere (undone : Undone start oldChunks chunk oldSpots tx live spent linked)
    (oldFits : ∀ old ∈ oldSpots, Inside old) {place : Nat}
    (apart : place + 8 ≤ chunk ∨ chunk + chunkSize ≤ place) (differs : other ≠ chunk) :
    Undone start oldChunks chunk oldSpots (tx.linked place other) live spent linked := by
  have written : Undone start oldChunks chunk oldSpots
      { tx with mem := (tx.linked place other).mem } live spent linked := by
    refine undone.congr oldFits (fun address low high => ?_) rfl fun _ => id
    have same : (tx.linked place other).mem address = tx.mem address :=
      linked_outside (by omega)
    exact ⟨undo_congr fun _ => same, same, Iff.rfl⟩
  exact written.withDram fun isEnd _ => ⟨isEnd, differs⟩

/-- The pointer to a new chunk is written behind this one without a log call. -/
theorem linkedHere (undone : Undone start oldChunks chunk oldSpots tx live spent linked)
    (isLast : tx.dram.lastChunkScanned = chunk) (nonzero : other ≠ 0) (small : other < 2 ^ 64)
    (isNew : other ∉ oldChunks) {linkedNow : Prop} (now : linkedNow) :
    Undone start oldChunks chunk oldSpots (tx.linked chunk other) live spent linkedNow := by
  have room := room_header
  have outside (place : Nat) (notNext : ¬ IsNextChunk chunk place) :
      (tx.linked chunk other).mem place = tx.mem place := by
    rw [IsNextChunk] at notNext
    exact linked_outside (by omega)
  have uncovered (place : Nat) (isNext : IsNextChunk chunk place) :
      ¬ Covers tx.images place := fun covered =>
    (undone.moved place isNext covered).2 isLast
  have isPointer : pointer (undo tx.images (tx.linked chunk other).mem) chunk = other := by
    have same : pointer (undo tx.images (tx.linked chunk other).mem) chunk =
        pointer (tx.linked chunk other).mem chunk :=
      pointer_congr fun place isNext => undo_of_not_covers _ (uncovered place isNext)
    rw [same]
    exact loadNat_store_self (by norm_num; omega)
  refine ⟨fun place isOld notSpace notNext => ?_, undone.untouched, ?_, ?_, undone.covered,
    undone.known, Or.inr ⟨now, ?_⟩, fun place isNext covered => ?_⟩
  · rw [← undone.restored place isOld notSpace notNext]
    exact undo_congr fun _ => outside place notNext
  · have sameWord : word (tx.linked chunk other).mem (freeSpaceAt chunk) =
        word tx.mem (freeSpaceAt chunk) :=
      word_congr fun offset inWord => outside _ (by rw [IsNextChunk, freeSpaceAt]; omega)
    rw [sameWord]
    exact undone.space
  · obtain ⟨spots, layout, remains⟩ := undone.spots
    refine ⟨spots, layout_congr layout fun place low _ => ?_, remains⟩
    exact outside place (by rw [IsNextChunk]; omega)
  · change pointer (undo tx.images (tx.linked chunk other).mem) chunk ≠ 0 ∧
      pointer (undo tx.images (tx.linked chunk other).mem) chunk ∉ oldChunks
    rw [isPointer]
    exact ⟨nonzero, isNew⟩
  · exact absurd covered (uncovered place isNext)

/-- The pointer to a new chunk is logged and written, when all chunks have been scanned. -/
theorem linkedLogged (undone : Undone start oldChunks chunk oldSpots tx live spent linked)
    (isEnd : tx.dram.chunkToScan = 0) {place : Nat}
    (apart : place = chunk ∨ place + 8 ≤ chunk ∨ chunk + chunkSize ≤ place)
    (differs : other ≠ chunk) :
    Undone start oldChunks chunk oldSpots ((tx.logged place 8).linked place other) live spent
      linked := by
  have room := room_header
  have same (address : Nat) : undo (tx.logged place 8).images ((tx.logged place 8).linked place
      other).mem address = undo tx.images tx.mem address := by
    rw [← @undo_logged tx place 8]
    apply undo_congr
    intro uncovered
    rw [covers_logged, not_or] at uncovered
    exact linked_outside (by omega)
  have outside (address : Nat) (low : chunk + 8 ≤ address) (high : address < chunk + chunkSize) :
      ((tx.logged place 8).linked place other).mem address = tx.mem address :=
    linked_outside (by omega)
  have isPointer : pointer (undo ((tx.logged place 8).linked place other).images
      ((tx.logged place 8).linked place other).mem) chunk =
        pointer (undo tx.images tx.mem) chunk :=
    pointer_congr fun address _ => same address
  refine ⟨fun address isOld notSpace notNext => ?_, fun address isSpace covered => ?_, ?_, ?_, ?_,
    undone.known, ?_, fun address isNext covered => ⟨isEnd, differs⟩⟩
  · exact (same address).trans (undone.restored address isOld notSpace notNext)
  · rw [IsFreeSpace, freeSpaceAt] at isSpace
    rcases covers_logged.mp covered with was | inRange
    · exact undone.untouched address (by rwa [IsFreeSpace, freeSpaceAt]) was
    · omega
  · have sameWord : word ((tx.logged place 8).linked place other).mem (freeSpaceAt chunk) =
        word tx.mem (freeSpaceAt chunk) := by
      apply word_congr
      intro offset inWord
      rw [freeSpaceAt]
      exact outside _ (by omega) (by omega)
    rw [sameWord]
    exact undone.space
  · obtain ⟨spots, layout, remains⟩ := undone.spots
    refine ⟨spots, layout_congr layout fun address low isOwn => ?_, remains⟩
    exact outside address low (inside_of_isHeaderOrSpot layout isOwn).2
  · exact fun block isLive old isOld address low high blockLow blockHigh =>
      covers_logged.mpr (Or.inl
        (undone.covered block isLive old isOld address low high blockLow blockHigh))
  · rw [isPointer]
    exact undone.next.imp_left (And.imp_right fun isStart address isNext =>
      (same address).trans (isStart address isNext))

end Undone

end Pmgd.FreeFormAbort
