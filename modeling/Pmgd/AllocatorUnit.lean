import Mathlib.Data.List.Perm.Basic
import Mathlib.Data.Nat.Bitwise
import Mathlib.Tactic.Common
import Pmgd.Lib.LabelledRun
import Pmgd.Lib.UndoLog

/-!
# Allocator units

An allocator unit serves a transaction from three sources: small chunks with objects of one
size, chunks with free spots of all sizes, and whole chunks for large requests.  Small chunks
come from pools of the size of a chunk, and all chunks from one fixed allocator.

A new small chunk or free-form chunk is taken in an independent inner transaction, which
commits before the allocation goes on; the header of a new pool comes out of a free-form chunk.
Frees wait for the commit of their transaction, so that a transaction only allocates until it
commits or aborts.
-/

namespace Pmgd.AllocatorUnit

open UndoLog

/-! ## Sizes -/

/-- `CHUNK_SIZE`. -/
def chunkSize : Nat :=
  2 ^ 21

theorem chunkSize_pos : 0 < chunkSize :=
  Nat.two_pow_pos 21

theorem two_chunkSize_pos : 0 < 2 * chunkSize :=
  Nat.mul_pos Nat.two_pos chunkSize_pos

/-- A pool of chunks has room for its free list. -/
theorem chunkBits_ge : 3 ≤ 21 := by
  decide

/-- A pool of small chunks has room for its free list. -/
theorem smallChunkBits_ge : 3 ≤ 12 := by
  decide

/-- `SMALL_CHUNK_SIZE`. -/
def smallChunkSize : Nat :=
  2 ^ 12

/-- The number of values of `uint32_t`. -/
def wordValues : Nat :=
  2 ^ 32

/-- `sizeof(FreeFormChunk)`, which is `HEADER_SIZE`. -/
def headerSize : Nat :=
  24

/-- `MIN_ALLOC_BYTES`. -/
def minAllocBytes : Nat :=
  8

/-- `sizeof(FlexFixedAllocator::RegionHeader)`. -/
def poolHeaderSize : Nat :=
  56

/-- `fixed_sizes`. -/
def fixedSizes : List Nat :=
  [16, 24, 32, 40, 48, 64]

/-- `_max_objs_per_pool`. -/
def maxObjsPerPool : Nat :=
  chunkSize / smallChunkSize

/-- `THRESHOLD`. -/
def threshold : Nat :=
  chunkSize - (headerSize + minAllocBytes)

/-- `is_borderline`. -/
def isBorderline (size : Nat) : Prop :=
  size % chunkSize = 0 ∨ size % chunkSize > threshold

instance (size : Nat) : Decidable (isBorderline size) :=
  inferInstanceAs (Decidable (_ ∨ _))

/-- `_bitmap_ints`. -/
def bitmapInts (objSize : Nat) : Nat :=
  (smallChunkSize + objSize * 32 - 1) / (objSize * 32)

/-- `ALLOC_OFFSET`; `sizeof(FixedChunk)` is 24. -/
def allocOffset (objSize : Nat) : Nat :=
  let bytes := 24 + bitmapInts objSize * 4 + objSize - 1
  bytes - (bytes &&& (objSize - 1))

/-- `_max_spots`. -/
def maxSpots (objSize : Nat) : Nat :=
  (smallChunkSize - allocOffset objSize) / objSize

/-! ## Persistent words -/

/-- What a fixed allocator manages: all chunks, or the small chunks of a pool, which is known
by the address of its chunk. -/
inductive Region
  | chunks
  | pool (base : Nat)
  deriving DecidableEq, Repr

/-- `object_size`. -/
def Region.size : Region → Nat
  | .chunks => chunkSize
  | .pool _ => smallChunkSize

/-- The words of the persistent data.  `link` is the first word of a free object of a region;
the header of a pool is named by the pool; `occupants` has the number of a word of the bitmap,
and a spot of a free-form chunk its offset. -/
inductive Cell
  | tailPtr (region : Region)
  | freePtr (region : Region)
  | numAllocated (region : Region)
  | maxAddr (region : Region)
  | link (region : Region) (object : Nat)
  | nextPoolHdr (pool : Nat)
  | startFreeForm
  | nextFreeForm (chunk : Nat)
  | freeSpace (chunk : Nat)
  | freeList (chunk : Nat)
  | maxContSpace (chunk : Nat)
  | spotNext (chunk offset : Nat)
  | spotSize (chunk offset : Nat)
  | startFixed (index : Nat)
  | nextFixed (chunk : Nat)
  | freeSpots (chunk : Nat)
  | nextIndex (chunk : Nat)
  | occupants (chunk word : Nat)
  deriving DecidableEq, Repr

/-- What the allocators keep in DRAM.  The lists stand for hash tables. -/
structure Dram where
  freeFormChunks : List Nat
  freeFormToScan : Nat
  lastFreeForm : Nat
  fixedChunks : Nat → List Nat
  fixedToScan : Nat → Nat
  lastFixed : Nat → Nat
  pools : List Nat
  lastHdrScanned : Nat

/-- The words and the undo images of the running transaction; whether this one, or one around
it, has the lock of the chunk allocator; how many more log calls find room in the journal.

`permanent` remembers how the inner transactions left the words that they logged or changed. -/
structure World where
  mem : Cell → Nat
  images : List (Image Cell Nat)
  dram : Dram
  locked : Bool
  outerLocked : Bool
  room : Nat
  permanent : Cell → Option Nat

/-- Why an allocation does not return: an exception, or an assertion or a NULL pointer. -/
inductive Failure
  | outOfJournalSpace
  | badAlloc
  | lockTimeout
  | crash
  deriving DecidableEq, Repr

/-- Allocations; an exception leaves the words as they are at that time. -/
abbrev Alloc := EStateM Failure World

def read (cell : Cell) : Alloc Nat :=
  return (← get).mem cell

/-- A store without a log call. -/
def store (cell : Cell) (value : Nat) : Alloc Unit :=
  modify fun world => { world with mem := Function.update world.mem cell value }

/-- `TransactionImpl::log` and `log_range`. -/
def log (cells : List Cell) : Alloc Unit := do
  let world ← get
  if world.room = 0 then throw .outOfJournalSpace
  set { world with
    images := world.images ++ [snapshot (· ∈ cells) world.mem]
    room := world.room - 1 }

/-- `TransactionImpl::write`. -/
def write (cell : Cell) (value : Nat) : Alloc Unit := do
  log [cell]
  store cell value

def modifyDram (change : Dram → Dram) : Alloc Unit :=
  modify fun world => { world with dram := change world.dram }

/-- The world as an inner transaction finds it. -/
def World.begin (world : World) : World :=
  { world with
    images := []
    locked := false
    outerLocked := world.outerLocked || world.locked }

/-- The world after an inner transaction that began in this one has committed. -/
def World.commit (world after : World) : World :=
  { after with
    images := world.images
    locked := world.locked
    outerLocked := world.outerLocked
    permanent := fun cell =>
      if after.mem cell ≠ world.mem cell ∨ Covers after.images cell then some (after.mem cell)
      else after.permanent cell }

/-- The world after an inner transaction that began in this one has been rolled back. -/
def World.rollBack (world after : World) : World :=
  { after with
    mem := undo after.images after.mem
    images := world.images
    locked := world.locked
    outerLocked := world.outerLocked }

/-- Run an independent transaction; it commits at its end, and an exception rolls it back. -/
def inner {α : Type} (body : Alloc α) : Alloc α := fun world =>
  match body world.begin with
  | .ok value after => .ok value (world.commit after)
  | .error failure after => .error failure (world.rollBack after)

/-! ## Fixed allocators -/

/-- `FixedAllocator::alloc`; the free bit of a link is bit 0. -/
def fixedAlloc (region : Region) : Alloc Nat := do
  log [.tailPtr region, .freePtr region, .numAllocated region]
  let free ← read (.freePtr region)
  let tail ← read (.tailPtr region)
  let count ← read (.numAllocated region)
  if free ≠ 0 then
    log [.link region free]
    let link ← read (.link region free)
    store (.link region free) (link - link % 2)
    store (.freePtr region) (link - link % 2)
    store (.numAllocated region) (count + 1)
    return free
  else if tail + region.size > (← read (.maxAddr region)) then throw .badAlloc
  else
    store (.tailPtr region) (tail + region.size)
    store (.numAllocated region) (count + 1)
    return tail

/-- `Allocator::alloc_chunk`, with `FixedAllocator::alloc` of several contiguous objects. -/
def allocChunk (num : Nat) : Alloc Nat := do
  if (← get).outerLocked then throw .lockTimeout
  else
    modify fun world => { world with locked := true }
    if num = 1 then fixedAlloc .chunks
    else
      let tail ← read (.tailPtr .chunks)
      let bytes := num * chunkSize % wordValues
      if tail + bytes > (← read (.maxAddr .chunks)) then throw .badAlloc
      else
        write (.tailPtr .chunks) (tail + bytes)
        write (.numAllocated .chunks) ((← read (.numAllocated .chunks)) + num)
        return tail

/-! ## Free-form chunks -/

/-- The constructor `FreeFormChunk`. -/
def newFreeForm (chunk used : Nat) : Alloc Unit := do
  let space := chunkSize - headerSize - used
  store (.nextFreeForm chunk) 0
  store (.freeSpace chunk) space
  store (.freeList chunk) headerSize
  store (.spotNext chunk headerSize) 0
  store (.spotSize chunk headerSize) space
  store (.maxContSpace chunk) space

/-- More free spots than a chunk can have. -/
def spotBound : Nat :=
  chunkSize / minAllocBytes

/-- The walk along the free list in `FreeFormChunk::alloc`: the word that has the offset of the
spot, and the offset. -/
def findSpot (mem : Cell → Nat) (chunk size : Nat) : Nat → Cell → Option (Cell × Nat)
  | 0, _ => none
  | bound + 1, prev =>
      if mem prev = 0 then none
      else if mem (.spotSize chunk (mem prev)) ≥ size then some (prev, mem prev)
      else findSpot mem chunk size bound (.spotNext chunk (mem prev))

/-- The walk of `find_max_cont_space`. -/
def maxSpot (mem : Cell → Nat) (chunk : Nat) : Nat → Nat → Nat → Nat
  | 0, _, space => space
  | bound + 1, offset, space =>
      if offset = 0 then space
      else
        maxSpot mem chunk bound (mem (.spotNext chunk offset))
          (max space (mem (.spotSize chunk offset)))

/-- `find_max_cont_space`. -/
def findMaxContSpace (chunk : Nat) : Alloc Unit := do
  let world ← get
  let space := maxSpot world.mem chunk spotBound (world.mem (.freeList chunk)) 0
  if world.mem (.maxContSpace chunk) ≠ space then write (.maxContSpace chunk) space

/-- Take a block from the end of a free spot, or all of the spot. -/
def takeSpot (chunk size : Nat) (prev : Cell) (offset : Nat) : Alloc Nat := do
  let world ← get
  let rest := world.mem (.spotSize chunk offset) - size
  if rest ≥ minAllocBytes then
    write (.spotSize chunk offset) rest
    return chunk + offset + rest
  else
    write prev (world.mem (.spotNext chunk offset))
    log [.spotNext chunk offset, .spotSize chunk offset]
    return chunk + offset

/-- `FreeFormChunk::alloc`; 0 is NULL. -/
def freeFormAlloc (chunk size : Nat) : Alloc Nat := do
  let world ← get
  if size > world.mem (.maxContSpace chunk) then return 0
  else
    match findSpot world.mem chunk size spotBound (.freeList chunk) with
    | none => throw .crash
    | some (prev, offset) =>
        let address ← takeSpot chunk size prev offset
        store (.freeSpace chunk) ((world.mem (.freeSpace chunk) + wordValues - size) % wordValues)
        if world.mem (.spotSize chunk offset) = world.mem (.maxContSpace chunk) then
          findMaxContSpace chunk
          return address
        else return address

/-- `has_space`. -/
def hasSpace (chunk : Nat) : Alloc Bool :=
  return decide ((← read (.maxContSpace chunk)) ≥ minAllocBytes)

/-- Put a chunk behind the last one of the list. -/
def linkFreeForm (chunk : Nat) : Alloc Unit := do
  let last := (← get).dram.lastFreeForm
  if (← read .startFreeForm) = 0 then write .startFreeForm chunk
  else if last = 0 then throw .crash
  else write (.nextFreeForm last) chunk

def appendFreeForm (chunk : Nat) : Alloc Unit := do
  linkFreeForm chunk
  modifyDram fun dram => { dram with lastFreeForm := chunk }

/-- `VariableAllocator::alloc_chunk`. -/
def allocFreeFormChunk : Alloc Nat :=
  inner do
    let chunk ← allocChunk 1
    newFreeForm chunk 0
    appendFreeForm chunk
    return chunk

/-- More chunks than there are addresses. -/
def chunkBound : Nat :=
  2 ^ 64

/-- Step over a chunk that has not been scanned. -/
def passFreeForm (chunk : Nat) : Alloc Unit := do
  let space ← hasSpace chunk
  let next ← read (.nextFreeForm chunk)
  modifyDram fun dram => { dram with
    freeFormChunks := if space then dram.freeFormChunks.insert chunk else dram.freeFormChunks
    lastFreeForm := chunk
    freeFormToScan := next }

/-- The loop of `alloc_chunks` over the chunks that have not been scanned. -/
def scanAllFreeForm : Nat → Alloc Unit
  | 0 => throw .crash
  | bound + 1 => do
      let chunk := (← get).dram.freeFormToScan
      if chunk = 0 then return
      else
        passFreeForm chunk
        scanAllFreeForm bound

/-- `VariableAllocator::alloc_chunks`. -/
def allocFreeFormChunks (num used : Nat) : Alloc Nat := do
  if num > 1 ∧ used > 0 then
    let chunk ← allocChunk num
    newFreeForm chunk used
    scanAllFreeForm chunkBound
    appendFreeForm chunk
    return chunk
  else throw .crash

/-- `VariableAllocator::alloc_large`. -/
def allocLarge (size : Nat) : Alloc Nat := do
  let num := (size + chunkSize - 1) / chunkSize % wordValues
  let used := (size - (num - 1) * chunkSize) % wordValues
  let chunk ← allocFreeFormChunks num used
  modifyDram fun dram => { dram with freeFormChunks := dram.freeFormChunks.insert chunk }
  return chunk + (chunkSize - used)

/-- The loop of `VariableAllocator::alloc` over the chunks with space. -/
def allocAmong (size : Nat) : List Nat → Alloc Nat
  | [] => return 0
  | chunk :: chunks => do
      let address ← freeFormAlloc chunk size
      if address ≠ 0 then
        let space ← hasSpace chunk
        modifyDram fun dram => { dram with
          freeFormChunks :=
            if space then dram.freeFormChunks else dram.freeFormChunks.erase chunk }
        return address
      else allocAmong size chunks

/-- The loop of `VariableAllocator::alloc` over the chunks that have not been scanned. -/
def allocScanning (size : Nat) : Nat → Alloc Nat
  | 0 => throw .crash
  | bound + 1 => do
      let chunk := (← get).dram.freeFormToScan
      if chunk = 0 then return 0
      else
        let address ← freeFormAlloc chunk size
        passFreeForm chunk
        if address ≠ 0 then return address else allocScanning size bound

/-- `VariableAllocator::alloc`. -/
def variableAlloc (size : Nat) : Alloc Nat := do
  if size > chunkSize then allocLarge size
  else
    let address ← allocAmong size (← get).dram.freeFormChunks
    if address ≠ 0 then return address
    else
      let address ← allocScanning size chunkBound
      if address ≠ 0 then return address
      else
        let chunk ← allocFreeFormChunk
        let address ← freeFormAlloc chunk size
        let space ← hasSpace chunk
        modifyDram fun dram => { dram with
          freeFormChunks :=
            if space then dram.freeFormChunks.insert chunk else dram.freeFormChunks }
        if address = 0 then throw .crash else return address

/-! ## Pools of small chunks -/

/-- `FlexFixedAllocator::add_new_pool`. -/
def addNewPool : Alloc Nat := do
  let _ ← variableAlloc poolHeaderSize
  let pool ← allocChunk 1
  store (.tailPtr (.pool pool)) pool
  store (.freePtr (.pool pool)) 0
  store (.numAllocated (.pool pool)) 0
  store (.maxAddr (.pool pool)) (pool + chunkSize)
  store (.nextPoolHdr pool) 0
  write (.nextPoolHdr (← get).dram.lastHdrScanned) pool
  modifyDram fun dram => { dram with
    pools := dram.pools.insert pool
    lastHdrScanned := pool }
  return pool

/-- The loop of `FlexFixedAllocator::alloc` over the pools that have not been scanned, up to one
that is not full; 0 if there is none. -/
def scanPools : Nat → Alloc Nat
  | 0 => throw .crash
  | bound + 1 => do
      let pool ← read (.nextPoolHdr (← get).dram.lastHdrScanned)
      if pool = 0 then return 0
      else
        modifyDram fun dram => { dram with lastHdrScanned := pool }
        if (← read (.numAllocated (.pool pool))) < maxObjsPerPool then return pool
        else scanPools bound

/-- `FlexFixedAllocator::alloc`. -/
def flexAlloc : Alloc Nat := do
  match (← get).dram.pools with
  | pool :: _ =>
      let address ← fixedAlloc (.pool pool)
      let count ← read (.numAllocated (.pool pool))
      modifyDram fun dram => { dram with
        pools := if count = maxObjsPerPool then dram.pools.erase pool else dram.pools }
      return address
  | [] =>
      let pool ← scanPools chunkBound
      if pool ≠ 0 then
        let address ← fixedAlloc (.pool pool)
        let count ← read (.numAllocated (.pool pool))
        modifyDram fun dram => { dram with
          pools := if count < maxObjsPerPool then dram.pools.insert pool else dram.pools }
        return address
      else
        let pool ← addNewPool
        fixedAlloc (.pool pool)

/-! ## Small chunks -/

/-- The bits of a chunk's bitmap beyond its last spot, in the constructor `FixedChunk`. -/
def unavailable (spots : Nat) : Nat :=
  wordValues - 2 ^ (spots % 32)

/-- The loop of the constructor over the bitmap. -/
def clearOccupants (chunk : Nat) : Nat → Alloc Unit
  | 0 => return
  | words + 1 => do
      clearOccupants chunk words
      store (.occupants chunk words) 0

/-- The constructor `FixedChunk`. -/
def newFixed (chunk objSize : Nat) : Alloc Unit := do
  let spots := maxSpots objSize
  store (.nextFixed chunk) 0
  store (.freeSpots chunk) spots
  store (.nextIndex chunk) 0
  clearOccupants chunk (bitmapInts objSize)
  store (.occupants chunk (spots / 32))
    ((← read (.occupants chunk (spots / 32))) ||| unavailable spots)

def isOccupied (mem : Cell → Nat) (chunk index : Nat) : Bool :=
  (mem (.occupants chunk (index / 32))).testBit (index % 32)

/-- The search in `FixedChunk::alloc`, from the next index on, then from the start. -/
def findIndex (mem : Cell → Nat) (chunk objSize : Nat) : Option Nat :=
  let next := mem (.nextIndex chunk)
  ((List.range' next (maxSpots objSize + 1 - next)).find? (!isOccupied mem chunk ·)).or
    ((List.range (bitmapInts objSize * 32)).find? (!isOccupied mem chunk ·))

/-- `FixedChunk::alloc`. -/
def fixedChunkAlloc (chunk objSize : Nat) : Alloc Nat := do
  let world ← get
  if world.mem (.freeSpots chunk) = 0 then throw .crash
  else
    match findIndex world.mem chunk objSize with
    | none => throw .crash
    | some index =>
        log [.freeSpots chunk, .nextIndex chunk]
        log [.occupants chunk (index / 32)]
        store (.freeSpots chunk) (world.mem (.freeSpots chunk) - 1)
        store (.occupants chunk (index / 32))
          (world.mem (.occupants chunk (index / 32)) ||| 2 ^ (index % 32))
        store (.nextIndex chunk) (index + 1)
        return chunk + allocOffset objSize + objSize * index

/-- The loop of `FixSizeAllocator::alloc` over the chunks that have not been scanned, up to one
with a free spot; 0 if there is none. -/
def scanFixed (index : Nat) : Nat → Alloc Nat
  | 0 => throw .crash
  | bound + 1 => do
      let chunk := (← get).dram.fixedToScan index
      if chunk = 0 then return 0
      else
        let next ← read (.nextFixed chunk)
        modifyDram fun dram => { dram with
          lastFixed := Function.update dram.lastFixed index chunk
          fixedToScan := Function.update dram.fixedToScan index next }
        if (← read (.freeSpots chunk)) > 0 then return chunk else scanFixed index bound

/-- Put a small chunk behind the last one of the list. -/
def appendFixed (index chunk : Nat) : Alloc Unit := do
  let last := (← get).dram.lastFixed index
  if (← read (.startFixed index)) = 0 then write (.startFixed index) chunk
  else if last = 0 then throw .crash
  else write (.nextFixed last) chunk

/-- The inner transaction of `FixSizeAllocator::alloc`. -/
def allocFixedChunk (index objSize : Nat) : Alloc Nat :=
  inner do
    let chunk ← flexAlloc
    newFixed chunk objSize
    appendFixed index chunk
    return chunk

/-- Keep or drop a small chunk from the ones with free spots. -/
def setFixedChunks (index : Nat) (change : List Nat → List Nat) : Alloc Unit :=
  modifyDram fun dram => { dram with
    fixedChunks := Function.update dram.fixedChunks index (change (dram.fixedChunks index)) }

/-- `FixSizeAllocator::alloc`, for one of the sizes. -/
def fixSizeAlloc (index objSize : Nat) : Alloc Nat := do
  match (← get).dram.fixedChunks index with
  | chunk :: _ =>
      let address ← fixedChunkAlloc chunk objSize
      let spots ← read (.freeSpots chunk)
      setFixedChunks index fun chunks => if spots = 0 then chunks.erase chunk else chunks
      return address
  | [] =>
      let chunk ← scanFixed index chunkBound
      if chunk ≠ 0 then
        let address ← fixedChunkAlloc chunk objSize
        let spots ← read (.freeSpots chunk)
        setFixedChunks index fun chunks => if spots > 0 then chunks.insert chunk else chunks
        return address
      else
        let chunk ← allocFixedChunk index objSize
        modifyDram fun dram => { dram with
          lastFixed := Function.update dram.lastFixed index chunk }
        let address ← fixedChunkAlloc chunk objSize
        setFixedChunks index fun chunks => chunks.insert chunk
        return address

/-! ## Requests -/

/-- `ChunkAllocator::alloc`. -/
def wholeChunksAlloc (size : Nat) : Alloc Nat :=
  allocChunk ((size + chunkSize - 1) / chunkSize % wordValues)

/-- `AllocatorUnit::alloc`. -/
def alloc (request : Nat) : Alloc Nat :=
  let size := max request minAllocBytes
  match fixedSizes.idxOf? size with
  | some index => fixSizeAlloc index size
  | none => if isBorderline size then wholeChunksAlloc size else variableAlloc size

/-! ## The outer transaction -/

/-- The outer transaction is running, or an exception has ended it. -/
structure State where
  world : World
  thrown : Bool

/-- The outer transaction asks for memory, where `room` is the number of log calls that find room
in the journals, or a hash table rehashes. -/
inductive Label
  | alloc (size room : Nat)
  | rehashFreeForm (chunks : List Nat)
  | rehashPools (pools : List Nat)
  | rehashFixed (index : Nat) (chunks : List Nat)

def State.setDram (state : State) (dram : Dram) : State :=
  { state with world := { state.world with dram := dram } }

def step (state : State) : Label → Option State
  | .alloc size room =>
      if state.thrown then none
      else
        match alloc size { state.world with room := room } with
        | .ok _ world => some ⟨world, false⟩
        | .error .crash _ => none
        | .error _ world => some ⟨world, true⟩
  | .rehashFreeForm chunks =>
      let dram := state.world.dram
      if dram.freeFormChunks.Perm chunks then
        some (state.setDram { dram with freeFormChunks := chunks })
      else none
  | .rehashPools pools =>
      let dram := state.world.dram
      if dram.pools.Perm pools then some (state.setDram { dram with pools := pools }) else none
  | .rehashFixed index chunks =>
      let dram := state.world.dram
      if (dram.fixedChunks index).Perm chunks then
        some (state.setDram
          { dram with fixedChunks := Function.update dram.fixedChunks index chunks })
      else none

/-- The words after the outer transaction has been rolled back. -/
def State.afterAbort (state : State) : Cell → Nat :=
  undo state.world.images state.world.mem

end Pmgd.AllocatorUnit
