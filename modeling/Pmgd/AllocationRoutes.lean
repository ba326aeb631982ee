import Pmgd.LargeBlock
import Pmgd.SmallChunkPools

/-!
# Routes of allocations and frees

An instance of the allocator serves a request from the small chunks of a fixed size, from a
free-form chunk, or with whole chunks, as the size tells.  A free finds the instance in the header
of the chunk at the masked address, and waits for the commit in a list by instances; the route is
then computed again.

What is inside of a chunk does not matter for the routes: of the headers there are the number of
the instance and the free space, and a choice tells in which chunk and where a block is found.  But
a free makes a free spot of a block in a free-form chunk, and if there are less than 8 bytes of the
block at the end of the chunk, the two words of the spot reach into the chunk behind it.
-/

namespace Pmgd.AllocationRoutes

open ByteMemory LabelledRun
open AllocatorUnit (chunkSize smallChunkSize wordValues headerSize minAllocBytes poolHeaderSize
  fixedSizes maxObjsPerPool isBorderline allocOffset maxSpots)
open VariableAllocator (numChunks firstPart)
open LargeBlock (used chunkBase)
open FreeFormChunk (setWord)

/-- The allocator of the chunks; the chunk in front of them is the first pool of instance 0. -/
structure Config where
  chunks : FixedAllocator
  chunks_size : chunks.size = chunkSize
  room : chunkSize < chunks.start
  inRegion : chunks.start ≤ chunks.maxAddr

/-- `_pm_base`. -/
def Config.pmBase (config : Config) : Nat :=
  config.chunks.start - chunkSize

/-- The sub-allocators of an instance that have chunks in a list: `_fixsize_allocator[index]` and
`_freeform_allocator`. -/
inductive SubAllocator
  | fixSize (index : Nat)
  | freeForm
  deriving DecidableEq

/-- One of `fixed_sizes`. -/
def objSize (index : Nat) : Nat :=
  fixedSizes.getD index 0

/-- The spots or the bytes of an empty chunk. -/
def SubAllocator.capacity : SubAllocator → Nat
  | .fixSize index => maxSpots (objSize index)
  | .freeForm => chunkSize - headerSize

/-- A `FixedChunk` or a `FreeFormChunk` in the list of a sub-allocator. -/
structure ListedChunk where
  base : Nat
  allocId : Nat
  sub : SubAllocator
  deriving DecidableEq

/-- `my_id` of a chunk, and its `free_spots` or `free_space`. -/
structure ChunkHeader where
  myId : Nat
  free : Nat

/-- A pool of a `FlexFixedAllocator`; the header of the first one is not a block. -/
structure Pool where
  base : Nat
  allocId : Nat
  hdr : Option Nat
  deriving DecidableEq

/-- The allocator of the chunks, the headers of chunks and small chunks by their addresses, the
number of the instances, and what the lists of all of them have. -/
structure State where
  chunksHdr : RegionHeader
  mem : Memory
  headers : Nat → ChunkHeader
  units : Nat
  listed : List ListedChunk
  pools : List Pool

/-- Where a block is found: in a small chunk with a free spot or in a new one, which is in a pool
or in a new one, and in a free-form chunk, at an offset, or in a new one. -/
structure Choice where
  spot : Option (Nat × Nat)
  page : Option Nat
  offset : Option (Nat × Nat)

/-- `free_spot_t`. -/
structure FreeSpot where
  next : Nat
  size : Nat

/-- `addr & PAGE_MASK` in the allocators of fixed sizes. -/
def pageBase (address : Nat) : Nat :=
  address - address % smallChunkSize

def State.free (state : State) (base : Nat) : Nat :=
  (state.headers base).free

def State.setFree (state : State) (base free : Nat) : State :=
  { state with headers := Function.update state.headers base ⟨(state.headers base).myId, free⟩ }

def State.take (state : State) (base amount : Nat) : State :=
  state.setFree base (state.free base - amount)

/-- The constructors `FixedChunk` and `FreeFormChunk`, where a block has `used` bytes; the chunk is
put in its list. -/
def State.addChunk (state : State) (chunk : ListedChunk) (used : Nat) : State :=
  { state with
    headers := Function.update state.headers chunk.base
      ⟨chunk.allocId, chunk.sub.capacity - used⟩
    listed := state.listed ++ [chunk] }

def State.unlink (state : State) (chunk : ListedChunk) : State :=
  { state with listed := state.listed.erase chunk }

def State.addPool (state : State) (pool : Pool) : State :=
  { state with pools := state.pools ++ [pool] }

def State.removePool (state : State) (pool : Pool) : State :=
  { state with pools := state.pools.erase pool }

def State.setChunks (state : State) (chunksHdr : RegionHeader) (mem : Memory) : State :=
  { state with chunksHdr := chunksHdr, mem := mem }

/-- The words that `FreeFormChunk::free` writes to the address of a block. -/
def State.writeSpot (state : State) (address : Nat) (spot : FreeSpot) : State :=
  state.setChunks state.chunksHdr
    (setWord (setWord state.mem address spot.next) (address + 4) spot.size)

/-! ## Chunks -/

/-- `Allocator::alloc_chunk`. -/
def allocChunk (config : Config) (state : State) (num : Nat) : Option (Nat × State) :=
  (config.chunks.allocContiguous state.chunksHdr state.mem num).map fun (base, chunksHdr, mem) =>
    (base, state.setChunks chunksHdr mem)

/-- The assertions of `FixedAllocator::free(p, num)`. -/
def FreesChunks (config : Config) (header : RegionHeader) (base num : Nat) : Prop :=
  config.chunks.start ≤ base ∧
    base + config.chunks.size * num % wordValues ≤ header.tailPtr ∧
    base % config.chunks.size = 0

instance (config : Config) (header : RegionHeader) (base num : Nat) :
    Decidable (FreesChunks config header base num) :=
  inferInstanceAs (Decidable (_ ∧ _))

/-- `Allocator::free_chunk`. -/
def freeChunk (config : Config) (state : State) (base num : Nat) : Option State :=
  if FreesChunks config state.chunksHdr base num then
    let freed := config.chunks.freeContiguous state.chunksHdr state.mem base num
    some (state.setChunks freed.1 freed.2)
  else none

/-! ## Free-form chunks -/

/-- `alloc_chunk` and `alloc_chunks` of a `VariableAllocator`. -/
def newFormChunk (config : Config) (state : State) (allocId num used : Nat) :
    Option (Nat × State) :=
  (allocChunk config state num).map fun (base, state) =>
    (base, state.addChunk ⟨base, allocId, .freeForm⟩ used)

/-- Where the first block of a new free-form chunk is. -/
def newOffset (size : Nat) : Nat :=
  if chunkSize - headerSize - size ≥ minAllocBytes then chunkSize - size else headerSize

/-- `VariableAllocator::alloc`.  Whether a chunk has a spot of the size depends on how its space
is divided. -/
def formAlloc (config : Config) (state : State) (allocId size : Nat)
    (choice : Option (Nat × Nat)) : Option (Nat × State) :=
  if size > chunkSize then
    if numChunks size > 1 ∧ used size > 0 then
      (newFormChunk config state allocId (numChunks size) (used size)).map fun (base, state) =>
        (base + (chunkSize - used size), state)
    else none
  else
    match choice with
    | some (chunk, offset) =>
        if ⟨chunk, allocId, .freeForm⟩ ∈ state.listed ∧ size ≤ state.free chunk ∧
            headerSize ≤ offset ∧ offset + size ≤ chunkSize then
          some (chunk + offset, state.take chunk size)
        else none
    | none =>
        (newFormChunk config state allocId 1 0).map fun (base, state) =>
          (base + newOffset size, state.take base size)

/-- The part of `VariableAllocator::free` in the first chunk; an empty chunk is returned.  Which
spot is made of the block depends on how the space of the chunk is divided. -/
def formFreeFirst (config : Config) (spots : Nat → FreeSpot) (state : State)
    (allocId address size : Nat) : Option State :=
  let chunk := chunkBase address
  let free := (state.free chunk + size) % wordValues
  let state := (state.writeSpot address (spots address)).setFree chunk free
  if free = chunkSize - headerSize then
    freeChunk config (state.unlink ⟨chunk, allocId, .freeForm⟩) chunk 1
  else some state

/-- `VariableAllocator::free`. -/
def formFree (config : Config) (spots : Nat → FreeSpot) (state : State)
    (allocId address size : Nat) : Option State :=
  if size > chunkSize then
    (freeChunk config state (chunkBase address + chunkSize) (numChunks size - 1)).bind
      fun state => formFreeFirst config spots state allocId address (firstPart size)
  else formFreeFirst config spots state allocId address (firstPart size)

/-! ## Small chunks -/

/-- The small chunks of a pool. -/
def State.numAllocated (state : State) (base : Nat) : Nat :=
  state.listed.countP fun chunk => chunk.sub ≠ .freeForm ∧ chunkBase chunk.base = base

/-- `FlexFixedAllocator::alloc`, up to the entry of the small chunk in its list. -/
def flexAlloc (config : Config) (state : State) (allocId : Nat) (choice : Choice) :
    Option (Nat × State) :=
  match choice.page with
  | some page =>
      if (∃ pool ∈ state.pools, pool.allocId = allocId ∧ pool.base = chunkBase page) ∧
          smallChunkSize ∣ page ∧ ∀ chunk ∈ state.listed, chunk.base ≠ page then
        some (page, state)
      else none
  | none =>
      if ∀ pool ∈ state.pools, pool.allocId = allocId →
          state.numAllocated pool.base = maxObjsPerPool then
        (formAlloc config state allocId poolHeaderSize choice.offset).bind fun (hdr, state) =>
          (allocChunk config state 1).map fun (base, state) =>
            (base, state.addPool ⟨base, allocId, some hdr⟩)
      else none

/-- `FlexFixedAllocator::free`, for a small chunk that is not in its list any more. -/
def flexFree (config : Config) (spots : Nat → FreeSpot) (state : State) (allocId page : Nat) :
    Option State :=
  match state.pools.find? fun pool =>
      decide (pool.allocId = allocId ∧ pool.base = chunkBase page) with
  | none => none
  | some pool =>
      match pool.hdr with
      | none => some state
      | some hdr =>
          if state.numAllocated pool.base = 0 then
            (freeChunk config (state.removePool pool) pool.base 1).bind fun state =>
              formFree config spots state allocId hdr poolHeaderSize
          else some state

/-- `FixSizeAllocator::alloc`.  There is a new small chunk only if no other has a free spot. -/
def fixedAlloc (config : Config) (state : State) (allocId index : Nat) (choice : Choice) :
    Option (Nat × State) :=
  match choice.spot with
  | some (page, spot) =>
      if ⟨page, allocId, .fixSize index⟩ ∈ state.listed ∧ 0 < state.free page ∧
          spot < maxSpots (objSize index) then
        some (page + allocOffset (objSize index) + objSize index * spot, state.take page 1)
      else none
  | none =>
      if ∀ chunk ∈ state.listed, chunk.allocId = allocId → chunk.sub = .fixSize index →
          state.free chunk.base = 0 then
        (flexAlloc config state allocId choice).map fun (page, state) =>
          (page + allocOffset (objSize index),
            (state.addChunk ⟨page, allocId, .fixSize index⟩ 0).take page 1)
      else none

/-- The assertions of `FixedChunk::free`. -/
def IsSpot (index address : Nat) : Prop :=
  pageBase address + allocOffset (objSize index) ≤ address ∧
    address < pageBase address + smallChunkSize ∧
    (address - (pageBase address + allocOffset (objSize index))) % objSize index = 0

instance (index address : Nat) : Decidable (IsSpot index address) :=
  inferInstanceAs (Decidable (_ ∧ _))

/-- `FixSizeAllocator::free`.  An empty small chunk is returned. -/
def fixedFree (config : Config) (spots : Nat → FreeSpot) (state : State)
    (allocId index address : Nat) : Option State :=
  let page := pageBase address
  if state.free page < maxSpots (objSize index) ∧ IsSpot index address then
    let free := state.free page + 1
    if free = maxSpots (objSize index) then
      flexFree config spots ((state.setFree page free).unlink ⟨page, allocId, .fixSize index⟩)
        allocId page
    else some (state.setFree page free)
  else none

/-! ## Whole chunks -/

/-- `ChunkAllocator::free`. -/
def wholeFree (config : Config) (state : State) (address size : Nat) : Option State :=
  if address % chunkSize = 0 then freeChunk config state address (numChunks size) else none

/-! ## Instances -/

/-- A request for less than `MIN_ALLOC_BYTES`. -/
def atLeastMin (size : Nat) : Nat :=
  if size < minAllocBytes then minAllocBytes else size

/-- `AllocatorUnit::alloc`. -/
def unitAlloc (config : Config) (state : State) (allocId request : Nat) (choice : Choice) :
    Option (Nat × State) :=
  let size := atLeastMin request
  match fixedSizes.idxOf? size with
  | some index => fixedAlloc config state allocId index choice
  | none =>
      if isBorderline size then allocChunk config state (numChunks size)
      else formAlloc config state allocId size choice.offset

/-- `AllocatorUnit::get_alloc_id`; there is no instance for whole chunks. -/
def getAllocId (state : State) (address size : Nat) : Option Nat :=
  match fixedSizes.idxOf? size with
  | some _ => some (state.headers (pageBase address)).myId
  | none =>
      if isBorderline size then none else some (state.headers (chunkBase address)).myId

/-- `free_info_t`. -/
structure FreeInfo where
  addr : Nat
  size : Nat

/-- The body of the loop of `AllocatorUnit::clean_free_list`. -/
def unitFree (config : Config) (spots : Nat → FreeSpot) (state : State) (allocId : Nat)
    (info : FreeInfo) : Option State :=
  match fixedSizes.idxOf? info.size with
  | some index => fixedFree config spots state allocId index info.addr
  | none =>
      if isBorderline info.size then wholeFree config state info.addr info.size
      else formFree config spots state allocId info.addr (atLeastMin info.size)

/-- `AllocatorUnit::clean_free_list`. -/
def unitCleanFreeList (config : Config) (spots : Nat → FreeSpot) (allocId : Nat) :
    State → List FreeInfo → Option State
  | state, [] => some state
  | state, info :: list =>
      (unitFree config spots state allocId info).bind fun state =>
        unitCleanFreeList config spots allocId state list

/-! ## Frees of a transaction -/

/-- `PerAllocatorFreeList`, in the order of the instances. -/
abbrev FreeList (Info : Type) :=
  List (Nat × List Info)

/-- `_free_list[id].push_back(s)`. -/
def pushBack {Info : Type} (id : Nat) (info : Info) : FreeList Info → FreeList Info
  | [] => [(id, [info])]
  | (other, infos) :: list =>
      if id < other then (id, [info]) :: (other, infos) :: list
      else if id = other then (other, infos ++ [info]) :: list
      else (other, infos) :: pushBack id info list

/-- `MultiAllocatorFreeCallback::add`. -/
def add {Info : Type} (allocId : Option Nat) (info : Info) (list : FreeList Info) :
    FreeList Info :=
  match allocId with
  | some id => pushBack id info list
  | none =>
      match list with
      | [] => pushBack 0 info list
      | (id, _) :: _ => pushBack id info list

/-- `Allocator::free`. -/
def delayedFree (config : Config) (state : State) (info : FreeInfo)
    (list : FreeList FreeInfo) : Option (FreeList FreeInfo) :=
  if info.addr = 0 ∨ info.size = 0 then some list
  else if config.pmBase ≤ info.addr ∧ info.addr < config.chunks.maxAddr then
    some (add (getAllocId state info.addr info.size) info list)
  else none

/-- The frees of a transaction that does nothing else. -/
def delayedFrees (config : Config) (state : State) :
    FreeList FreeInfo → List FreeInfo → Option (FreeList FreeInfo)
  | list, [] => some list
  | list, info :: infos =>
      (delayedFree config state info list).bind fun list => delayedFrees config state list infos

/-- The loop of `Allocator::clean_free_list`. -/
def cleanLoop (config : Config) (spots : Nat → FreeSpot) :
    State → FreeList FreeInfo → Option State
  | state, [] => some state
  | state, (allocId, infos) :: list =>
      (unitCleanFreeList config spots allocId state infos).bind fun state =>
        cleanLoop config spots state list

/-- `Allocator::clean_free_list`, with the assertion of `lock_allocators`. -/
def cleanFreeList (config : Config) (spots : Nat → FreeSpot) (state : State)
    (list : FreeList FreeInfo) : Option State :=
  if ∀ entry ∈ list, entry.1 < state.units then cleanLoop config spots state list else none

/-- A transaction with these frees, which commits. -/
def commitFrees (config : Config) (spots : Nat → FreeSpot) (state : State)
    (infos : List FreeInfo) : Option State :=
  (delayedFrees config state [] infos).bind (cleanFreeList config spots state)

/-! ## Runs -/

/-- A block that was handed out and not freed, with the instance that has served it. -/
structure Block where
  address : Nat
  size : Nat
  allocId : Nat
  deriving DecidableEq

def Block.info (block : Block) : FreeInfo :=
  ⟨block.address, block.size⟩

structure Session where
  state : State
  blocks : List Block

/-- Transactions that commit: a request to an instance; frees, with the free spots at the addresses
of blocks; `init_allocators` adds an instance. -/
inductive Label
  | alloc (allocId size : Nat) (choice : Choice)
  | free (freed : List Block) (spots : Nat → FreeSpot)
  | addUnit (choice : Choice)

/-- `sizeof(AllocatorUnit::RegionHeader)`. -/
def unitHeaderSize : Nat :=
  128

/-- `Allocator::alloc`, where the transaction has the instance. -/
def alloc (config : Config) (state : State) (allocId size : Nat) (choice : Choice) :
    Option (Nat × State) :=
  if allocId < state.units then unitAlloc config state allocId size choice else none

/-- The body of the loop of `init_allocators`. -/
def initAllocator (config : Config) (state : State) (choice : Choice) : Option (Nat × State) :=
  (alloc config state 0 unitHeaderSize choice).bind fun (hdr, state) =>
    (allocChunk config state 1).map fun (base, state) =>
      (hdr, { state.addPool ⟨base, state.units, none⟩ with units := state.units + 1 })

def step (config : Config) (session : Session) : Label → Option Session
  | .alloc allocId size choice =>
      (alloc config session.state allocId size choice).map fun (address, state) =>
        ⟨state, ⟨address, size, allocId⟩ :: session.blocks⟩
  | .free freed spots =>
      (commitFrees config spots session.state (freed.map Block.info)).map fun state =>
        ⟨state, session.blocks.diff freed⟩
  | .addUnit choice =>
      (initAllocator config session.state choice).map fun (hdr, state) =>
        ⟨state, ⟨hdr, unitHeaderSize, 0⟩ :: session.blocks⟩

/-- There is no room for a free spot in the first chunk of a block. -/
def RunsOver (size : Nat) : Prop :=
  size > chunkSize ∧ firstPart size < minAllocBytes

/-- The chunks of a block are less than 4 GB.  What is freed was handed out, and its free spots are
inside of the chunks. -/
def Disciplined (session : Session) : Label → Prop
  | .alloc _ size _ => size + chunkSize ≤ wordValues
  | .free freed _ => freed.Subperm session.blocks ∧ ∀ block ∈ freed, ¬ RunsOver block.size
  | .addUnit _ => True

/-- A new region, with one instance. -/
structure Created (config : Config) (session : Session) : Prop where
  chunksHdr : session.state.chunksHdr = ⟨config.chunks.start, 0, 0⟩
  units : session.state.units = 1
  listed : session.state.listed = []
  pools : session.state.pools = [⟨config.pmBase, 0, none⟩]
  blocks : session.blocks = []

/-! ## Accounting -/

/-- The spots or bytes of a chunk that are in use, if it belongs to this sub-allocator. -/
def State.usedOf (state : State) (allocId : Nat) (sub : SubAllocator) (chunk : ListedChunk) : Nat :=
  if chunk.allocId = allocId ∧ chunk.sub = sub then sub.capacity - state.free chunk.base else 0

/-- What a sub-allocator of an instance has in use. -/
def State.inUse (state : State) (allocId : Nat) (sub : SubAllocator) : Nat :=
  (state.listed.map (state.usedOf allocId sub)).sum

end Pmgd.AllocationRoutes
