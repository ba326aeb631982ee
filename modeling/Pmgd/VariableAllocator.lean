import Pmgd.AllocatorUnit
import Pmgd.Lib.LinkedList

/-!
# Blocks of any size and the list of their chunks

A variable allocator takes blocks out of free-form chunks, which it keeps in a persistent list.
It remembers in DRAM which of them have space, which one is to be scanned next and which one was
scanned last, the end of the list once all were scanned; there it puts new chunks.

Blocks are freed when their transaction commits.  A chunk without blocks is then taken out of the
list, and the DRAM state changes before it is known that the commit succeeds.  An exception rolls
the words back and runs the callbacks for the chunks that the DRAM state has forgotten or gained.
-/

namespace Pmgd.VariableAllocator

open AllocatorUnit (chunkSize headerSize minAllocBytes wordValues isBorderline chunkBound Failure)
open LinkedList

/-- `free_spot_t` with its offset in the chunk. -/
structure Spot where
  offset : Nat
  size : Nat
  deriving DecidableEq, Repr

/-- The persistent words: `start_chunk` and the fields of the chunks.  `free_space` is a number of
which the source has the value modulo `2 ^ 32`, and the links from spot to spot are the list that
they make.  `inUse` is what the chunk allocator has handed out as free-form chunks. -/
structure Memory where
  link : Option Nat → Option Nat
  freeSpace : Nat → Int
  freeList : Nat → List Spot
  maxContSpace : Nat → Nat
  inUse : List Nat

/-- A journal entry. -/
inductive Saved
  | link (place pointer : Option Nat)
  | freeSpace (chunk : Nat) (space : Int)
  | freeList (chunk : Nat) (spots : List Spot)
  | maxContSpace (chunk space : Nat)
  | inUse (chunks : List Nat)
  deriving DecidableEq

namespace Memory

def setLink (mem : Memory) (place pointer : Option Nat) : Memory :=
  { mem with link := Function.update mem.link place pointer }

def setFreeSpace (mem : Memory) (chunk : Nat) (space : Int) : Memory :=
  { mem with freeSpace := Function.update mem.freeSpace chunk space }

def setFreeList (mem : Memory) (chunk : Nat) (spots : List Spot) : Memory :=
  { mem with freeList := Function.update mem.freeList chunk spots }

def setMaxContSpace (mem : Memory) (chunk space : Nat) : Memory :=
  { mem with maxContSpace := Function.update mem.maxContSpace chunk space }

def setInUse (mem : Memory) (chunks : List Nat) : Memory :=
  { mem with inUse := chunks }

def restore (mem : Memory) : Saved → Memory
  | .link place pointer => mem.setLink place pointer
  | .freeSpace chunk space => mem.setFreeSpace chunk space
  | .freeList chunk spots => mem.setFreeList chunk spots
  | .maxContSpace chunk space => mem.setMaxContSpace chunk space
  | .inUse chunks => mem.setInUse chunks

/-- `has_space`. -/
def HasSpace (mem : Memory) (chunk : Nat) : Prop :=
  mem.maxContSpace chunk ≥ minAllocBytes

instance (mem : Memory) (chunk : Nat) : Decidable (mem.HasSpace chunk) :=
  inferInstanceAs (Decidable (_ ≥ _))

/-- The chunks that lead from `start_chunk` on. -/
def chunkList (mem : Memory) : List Nat :=
  nodesFrom mem.link mem.inUse.length (mem.link none)

end Memory

/-- `TransactionImpl::rollback`. -/
def rollback (journal : List Saved) (mem : Memory) : Memory :=
  journal.foldr (fun saved mem => mem.restore saved) mem

/-- What the allocator keeps in DRAM; `freeChunks` stands for a hash table. -/
structure Dram where
  freeChunks : List Nat
  chunkToScan : Option Nat
  lastChunkScanned : Option Nat

/-- The words, the journal of the running transaction and its abort callbacks (`true` for those
that remove a chunk), whether it has the lock of the chunk allocator, and the DRAM state.

`room` is the number of log calls for which the journal has room, and `granted` what the chunk
allocator answers.  `unlinked` remembers the chunks that the frees of the commit took out of the
list. -/
structure World where
  mem : Memory
  journal : List Saved
  toFix : List (Nat × Bool)
  locked : Bool
  dram : Dram
  room : Nat
  granted : Except Failure Nat
  unlinked : List Nat

abbrev Alloc := EStateM Failure World

/-- A log call. -/
def log (saved : Memory → List Saved) : Alloc Unit := do
  let world ← get
  if world.room = 0 then throw .outOfJournalSpace
  else set { world with journal := world.journal ++ saved world.mem, room := world.room - 1 }

def modifyMem (change : Memory → Memory) : Alloc Unit :=
  modify fun world => { world with mem := change world.mem }

def modifyDram (change : Dram → Dram) : Alloc Unit :=
  modify fun world => { world with dram := change world.dram }

/-- `TransactionImpl::write` of a pointer to a chunk. -/
def writeLink (place pointer : Option Nat) : Alloc Unit := do
  log fun mem => [.link place (mem.link place)]
  modifyMem fun mem => mem.setLink place pointer

/-- `AllocatorAbortCallback::restore_dram_state`. -/
def restoreDramState (chunk : Nat) (remove : Bool) : Alloc Unit :=
  modify fun world => { world with
    toFix :=
      if chunk ∈ world.toFix.map Prod.fst then world.toFix
      else world.toFix ++ [(chunk, remove)] }

/-- `_free_chunks.insert`. -/
def insertChunk (chunk : Nat) : Alloc Unit :=
  modifyDram fun dram => { dram with freeChunks := dram.freeChunks.insert chunk }

/-- `_free_chunks.erase`. -/
def eraseChunk (chunk : Nat) : Alloc Unit :=
  modifyDram fun dram => { dram with freeChunks := dram.freeChunks.erase chunk }

/-! ## Free-form chunks -/

/-- The constructor `FreeFormChunk`. -/
def construct (chunk used : Nat) : Alloc Unit :=
  modifyMem fun mem =>
    let space := chunkSize - headerSize - used
    { mem with
      link := Function.update mem.link (some chunk) none
      freeSpace := Function.update mem.freeSpace chunk space
      freeList := Function.update mem.freeList chunk [⟨headerSize, space⟩]
      maxContSpace := Function.update mem.maxContSpace chunk space }

/-- What `FreeFormChunk::alloc` finds: where the block is, the size of the spot, whether all of it
is taken, and the spots that remain. -/
structure Taken where
  offset : Nat
  spotSize : Nat
  whole : Bool
  rest : List Spot

/-- The loop of `FreeFormChunk::alloc`. -/
def takeSpot (size : Nat) : List Spot → Option Taken
  | [] => none
  | spot :: spots =>
      if spot.size ≥ size then
        if spot.size - size ≥ minAllocBytes then
          some ⟨spot.offset + (spot.size - size), spot.size, false,
            ⟨spot.offset, spot.size - size⟩ :: spots⟩
        else some ⟨spot.offset, spot.size, true, spots⟩
      else (takeSpot size spots).map fun taken => { taken with rest := spot :: taken.rest }

/-- `find_max_cont_space`. -/
def findMaxContSpace (chunk : Nat) : Alloc Unit := do
  let mem := (← get).mem
  let space := (mem.freeList chunk).foldl (fun space spot => max space spot.size) 0
  if mem.maxContSpace chunk ≠ space then do
    log fun mem => [.maxContSpace chunk (mem.maxContSpace chunk)]
    modifyMem fun mem => mem.setMaxContSpace chunk space
  else return

/-- `FreeFormChunk::alloc`.  When a whole spot is taken its first words are logged, too; they are
not part of the free list any more. -/
def chunkAlloc (chunk size : Nat) : Alloc (Option Nat) := do
  let mem := (← get).mem
  if size > mem.maxContSpace chunk then return none
  else
    match takeSpot size (mem.freeList chunk) with
    | none => throw .crash
    | some taken => do
        log fun mem => [.freeList chunk (mem.freeList chunk)]
        modifyMem fun mem => mem.setFreeList chunk taken.rest
        if taken.whole then log fun _ => [] else pure ()
        modifyMem fun mem => mem.setFreeSpace chunk (mem.freeSpace chunk - size)
        if taken.spotSize = mem.maxContSpace chunk then findMaxContSpace chunk else pure ()
        return some (chunk + taken.offset)

/-- The free list with a block in front of it or joined to its first spot. -/
def addSpot (offset size : Nat) : List Spot → List Spot
  | [] => [⟨offset, size⟩]
  | spot :: spots =>
      if offset + size = spot.offset then ⟨offset, spot.size + size⟩ :: spots
      else ⟨offset, size⟩ :: spot :: spots

/-- `max_cont_space` after a free. -/
def newMaxContSpace (offset size space : Nat) : List Spot → Nat
  | [] => size
  | spot :: _ => max space (if offset + size = spot.offset then spot.size + size else size)

/-- `FreeFormChunk::free`. -/
def chunkFree (chunk offset size : Nat) : Alloc Unit := do
  log fun mem => [.freeSpace chunk (mem.freeSpace chunk), .freeList chunk (mem.freeList chunk),
    .maxContSpace chunk (mem.maxContSpace chunk)]
  -- the words of the block that become a spot
  log fun _ => []
  modifyMem fun mem =>
    ((mem.setMaxContSpace chunk
        (newMaxContSpace offset size (mem.maxContSpace chunk) (mem.freeList chunk))).setFreeList
      chunk (addSpot offset size (mem.freeList chunk))).setFreeSpace chunk
        (mem.freeSpace chunk + size)

/-! ## Allocation -/

/-- The place of the pointer to a new chunk. -/
def appendPlace : Alloc (Option Nat) := do
  let world ← get
  if world.mem.link none = none then return none
  else if world.dram.lastChunkScanned = none then throw .crash
  else return world.dram.lastChunkScanned

/-- `VariableAllocator::alloc_chunk`.  What the inner transaction does is permanent; it waits in
vain for the chunk allocator when the transaction around it has locked that. -/
def allocChunk : Alloc Nat := do
  let world ← get
  if world.locked then throw .lockTimeout
  else
    match world.granted with
    | .error failure => throw failure
    | .ok chunk => do
        modifyMem fun mem => mem.setInUse (chunk :: mem.inUse)
        construct chunk 0
        let place ← appendPlace
        modifyMem fun mem => mem.setLink place (some chunk)
        modifyDram fun dram => { dram with lastChunkScanned := some chunk }
        return chunk

/-- A chunk that has been scanned. -/
def passChunk (chunk : Nat) : Alloc Unit :=
  modify fun world => { world with dram :=
    ⟨if world.mem.HasSpace chunk then world.dram.freeChunks.insert chunk
      else world.dram.freeChunks, world.mem.link (some chunk), some chunk⟩ }

/-- The loop of `alloc_chunks`. -/
def scanAll : Nat → Alloc Unit
  | 0 => throw .crash
  | bound + 1 => do
      match (← get).dram.chunkToScan with
      | none => return
      | some chunk => do
          passChunk chunk
          scanAll bound

/-- Ask the chunk allocator for chunks in the running transaction. -/
def grantChunk : Alloc Nat := do
  match (← get).granted with
  | .error .lockTimeout => throw .lockTimeout
  | .error failure => do
      modify fun world => { world with locked := true }
      throw failure
  | .ok chunk => do
      modify fun world => { world with locked := true }
      log fun mem => [.inUse mem.inUse]
      modifyMem fun mem => mem.setInUse (chunk :: mem.inUse)
      return chunk

/-- `VariableAllocator::alloc_chunks`. -/
def allocChunks (num used : Nat) : Alloc Nat := do
  if num > 1 ∧ used > 0 then do
    let chunk ← grantChunk
    construct chunk used
    scanAll chunkBound
    let place ← appendPlace
    writeLink place (some chunk)
    modifyDram fun dram => { dram with lastChunkScanned := some chunk }
    return chunk
  else throw .crash

/-- `num_chunks`. -/
def numChunks (size : Nat) : Nat :=
  (size + chunkSize - 1) / chunkSize % wordValues

/-- The bytes of a block that are in its first chunk. -/
def firstPart (size : Nat) : Nat :=
  if size > chunkSize then size - (numChunks size - 1) * chunkSize else size

/-- `VariableAllocator::alloc_large`. -/
def allocLarge (size : Nat) : Alloc Nat := do
  let used := (size - (numChunks size - 1) * chunkSize) % wordValues
  let chunk ← allocChunks (numChunks size) used
  insertChunk chunk
  restoreDramState chunk true
  return chunk + (chunkSize - used)

/-- The loop of `VariableAllocator::alloc` over the chunks with space. -/
def allocAmong (size : Nat) : List Nat → Alloc (Option Nat)
  | [] => return none
  | chunk :: chunks => do
      match ← chunkAlloc chunk size with
      | none => allocAmong size chunks
      | some address => do
          if (← get).mem.HasSpace chunk then return some address
          else do
            restoreDramState chunk false
            eraseChunk chunk
            return some address

/-- The loop of `VariableAllocator::alloc` over the chunks that have not been scanned. -/
def allocScanning (size : Nat) : Nat → Alloc (Option Nat)
  | 0 => throw .crash
  | bound + 1 => do
      let world ← get
      match world.dram.chunkToScan with
      | none => return none
      | some chunk => do
          if world.mem.HasSpace chunk then restoreDramState chunk false else pure ()
          let address ← chunkAlloc chunk size
          passChunk chunk
          match address with
          | none => allocScanning size bound
          | some address => return some address

/-- The last part of `VariableAllocator::alloc`. -/
def allocNew (size : Nat) : Alloc Nat := do
  let chunk ← allocChunk
  restoreDramState chunk false
  let address ← chunkAlloc chunk size
  if (← get).mem.HasSpace chunk then insertChunk chunk else pure ()
  match address with
  | none => throw .crash
  | some address => return address

/-- `VariableAllocator::alloc`. -/
def alloc (size : Nat) : Alloc Nat := do
  if size > chunkSize then allocLarge size
  else
    match ← allocAmong size (← get).dram.freeChunks with
    | some address => return address
    | none => do
        match ← allocScanning size chunkBound with
        | some address => return address
        | none => allocNew size

/-! ## Frees -/

/-- Take a chunk out of the list. -/
def unlinkChunk (chunk : Nat) : Alloc Unit := do
  let world ← get
  match findPlace world.mem.link chunk chunkBound (world.mem.link none) none with
  | none => throw .crash
  | some (place, found) => do
      if found then writeLink place (world.mem.link (some chunk)) else pure ()
      let dram := world.dram
      modify fun after => { after with
        dram :=
          ⟨dram.freeChunks,
            if dram.chunkToScan = some chunk then world.mem.link (some chunk)
            else dram.chunkToScan,
            if dram.lastChunkScanned = some chunk then place else dram.lastChunkScanned⟩
        unlinked := chunk :: world.unlinked }

/-- `Allocator::free_chunk`. -/
def freeChunk (chunk : Nat) : Alloc Unit := do
  log fun mem => [.inUse mem.inUse]
  modifyMem fun mem => mem.setInUse (mem.inUse.erase chunk)

/-- `VariableAllocator::free`. -/
def free (address size : Nat) : Alloc Unit := do
  let chunk := address - address % chunkSize
  -- `free_chunk` of the chunks behind the first one, which have no header
  if size > chunkSize then log fun _ => [] else pure ()
  let before := (← get).mem.freeList chunk
  chunkFree chunk (address - chunk) (firstPart size)
  if (← get).mem.freeSpace chunk % wordValues = chunkSize - headerSize then do
    restoreDramState chunk false
    eraseChunk chunk
    unlinkChunk chunk
    log fun mem => [.link (some chunk) (mem.link (some chunk))]
    freeChunk chunk
  else if before = [] then do
    restoreDramState chunk true
    insertChunk chunk
  else return

/-! ## Aborts -/

/-- `restore_dram_chunk`. -/
def restoreDramChunk (chunk : Nat) : Alloc Unit := do
  let world ← get
  match world.mem.link none, world.dram.lastChunkScanned with
  | some start, none => do
      match findPlace world.mem.link chunk chunkBound (world.mem.link (some start))
          (some start) with
      | none => throw .crash
      | some (place, _) => modifyDram fun dram => { dram with lastChunkScanned := place }
  | _, _ => pure ()
  if world.mem.HasSpace chunk then insertChunk chunk else pure ()

/-- `remove_dram_chunk`. -/
def removeDramChunk (chunk : Nat) : Alloc Unit := do
  let world ← get
  if world.dram.lastChunkScanned = some chunk then do
    match findPlace world.mem.link chunk chunkBound (world.mem.link none)
        (world.mem.link none) with
    | none => throw .crash
    | some (place, _) => modifyDram fun dram => { dram with lastChunkScanned := place }
  else pure ()
  eraseChunk chunk

/-- `AllocatorAbortCallback`. -/
def abortCallback : List (Nat × Bool) → Alloc Unit
  | [] => return
  | (chunk, remove) :: toFix => do
      if remove then removeDramChunk chunk else restoreDramChunk chunk
      abortCallback toFix

/-! ## Runs of transactions -/

structure Block where
  address : Nat
  size : Nat
  deriving DecidableEq, Repr

/-- The chunk with the (first) bytes of a block. -/
def Block.chunk (block : Block) : Nat :=
  block.address - block.address % chunkSize

/-- No transaction; one that allocates; a commit that frees; one that an exception has ended. -/
inductive Phase
  | idle
  | running
  | committing
  | failed
  deriving DecidableEq, Repr

/-- An allocator, the blocks that wait to be freed by the commit, the blocks that there were when
the transaction began, and those that there are now. -/
structure State where
  world : World
  phase : Phase
  freed : List Block
  blocks : List Block
  live : List Block

/-- What a transaction does.  `cleanNext` frees the next block in a commit, and `commit` is what
follows when all were freed; `rehash` is a change of the order of a hash table. -/
inductive Label
  | begin
  | alloc (size room : Nat) (granted : Except Failure Nat)
  | free (block : Block)
  | rehash (chunks : List Nat)
  | cleanNext (room : Nat)
  | commit
  | abort (order : List (Nat × Bool))

/-- The end of a transaction. -/
def World.finish (world : World) : World :=
  { world with journal := [], toFix := [], locked := false, unlinked := [] }

/-- The commit goes on after a free, or an exception ends it. -/
def afterFree (freed : List Block) (blocks live : List Block) :
    EStateM.Result Failure World Unit → Option State
  | .ok _ world => some ⟨world, .committing, freed, blocks, live⟩
  | .error .crash _ => none
  | .error _ world => some ⟨world, .failed, freed, blocks, live⟩

def step (state : State) : Label → Option State
  | .begin =>
      if state.phase = .idle then some { state with phase := .running } else none
  | .alloc size room granted =>
      if state.phase = .running then
        match alloc size { state.world with room, granted } with
        | .ok address world => some { state with world, live := ⟨address, size⟩ :: state.live }
        | .error .crash _ => none
        | .error _ world => some { state with world }
      else none
  | .free block =>
      if state.phase = .running then some { state with freed := state.freed ++ [block] } else none
  | .rehash chunks =>
      let dram := state.world.dram
      if dram.freeChunks.Perm chunks then
        some { state with world := { state.world with dram := { dram with freeChunks := chunks } } }
      else none
  | .cleanNext room =>
      match state.phase, state.freed with
      | .idle, _ | .failed, _ | _, [] => none
      | _, block :: freed =>
          afterFree freed state.blocks (state.live.erase block)
            (free block.address block.size { state.world with room })
  | .commit =>
      if (state.phase = .running ∨ state.phase = .committing) ∧ state.freed = [] then
        some { state with world := state.world.finish, phase := .idle, blocks := state.live }
      else none
  | .abort order =>
      if (state.phase = .running ∨ state.phase = .failed) ∧ state.world.toFix.Perm order then
        let mem := rollback state.world.journal state.world.mem
        match abortCallback order { state.world with mem } with
        | .ok _ world => some ⟨world.finish, .idle, [], state.blocks, state.blocks⟩
        | .error _ _ => none
      else none

/-- A new allocator over a region. -/
def opened (mem : Memory) (blocks : List Block) : State :=
  ⟨⟨mem, [], [], false, ⟨[], mem.link none, none⟩, 0, .error .badAlloc, []⟩, .idle, [], blocks,
    blocks⟩

/-- A region without chunks. -/
def emptyRegion : Memory :=
  ⟨fun _ => none, fun _ => 0, fun _ => [], fun _ => 0, []⟩

/-- The chunk list has the chunk of every block that was committed and that the running commit
does not free. -/
def NoneLost (state : State) : Prop :=
  ∃ chunks, Linked state.world.mem.link none chunks ∧
    ∀ block ∈ state.blocks, block ∈ state.live → block.chunk ∈ chunks

/-- What is promised: sizes that are left to this allocator, frees of live blocks, once, and
chunks that are not in use. -/
def Proper (state : State) : Label → Prop
  | .alloc size _ granted =>
      minAllocBytes ≤ size ∧ ¬ isBorderline size ∧
        ∀ chunk ∈ granted.toOption, chunkSize ∣ chunk ∧ chunk ∉ state.world.mem.inUse
  | .free block => block ∈ state.live ∧ block ∉ state.freed
  | _ => True

instance (state : State) (label : Label) : Decidable (Proper state label) :=
  match label with
  | .alloc _ _ _ => inferInstanceAs (Decidable (_ ∧ _ ∧ ∀ chunk ∈ _, _ ∧ _))
  | .free _ => inferInstanceAs (Decidable (_ ∧ _))
  | .begin | .rehash _ | .cleanNext _ | .commit | .abort _ => inferInstanceAs (Decidable True)

end Pmgd.VariableAllocator
