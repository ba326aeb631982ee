import Pmgd.AllocatorUnit
import Pmgd.ChunkPool
import Pmgd.Lib.ThrowingState

/-!
# Pools of small chunks

Small chunks come from fixed allocators over whole chunks.  The headers of these pools are blocks
of free-form chunks, and form a list from the first one on, which belongs to the unit.  In DRAM
there are some of the pools that have space, each with the header in front of its own, and the
header up to which the list has been scanned, where a new one is put.

A pool other than the first one goes back to the allocator of the chunks with its last small
chunk.
-/

namespace Pmgd.FlexFixedAllocator

open ByteMemory LabelledRun ThrowingState
open AllocatorUnit (Failure chunkSize smallChunkSize maxObjsPerPool chunkBound)
open FixedAllocator (Extent)

/-- A chunk with small chunks. -/
structure IsPool (fa : FixedAllocator) : Prop where
  sizeBits : fa.sizeBits = 12
  aligned : chunkSize ∣ fa.start
  maxAddr : fa.maxAddr = fa.start + chunkSize

/-- The allocator of the chunks, `_pm`, and the first pool, which is in front of the chunks or one
of them. -/
structure Config where
  chunks : FixedAllocator
  pm : Nat
  first : FixedAllocator
  chunks_size : chunks.size = chunkSize
  pm_ne_zero : pm ≠ 0
  first_isPool : IsPool first
  apart : first.maxAddr ≤ chunks.start ∨ chunks.start ≤ first.start

/-- `FlexFixedAllocator::RegionHeader`; `pool_base` and what never changes in `fa_hdr` are in
`fa`. -/
structure PoolHeader where
  fa : FixedAllocator
  nextPoolHdr : Nat
  faHdr : RegionHeader

/-- `FixedAllocatorInfo`, without the number that is only read where it has just been set. -/
structure FixedAllocatorInfo where
  fa : FixedAllocator
  hdr : Nat
  prev : Nat

/-- The header of the allocator of the chunks, the bytes of the chunks and the headers of the
pools; the hash table by the starts of the pools, and `_last_hdr_scanned`.

`live` are the small chunks that were handed out and not freed, and `inUse` the headers of the
pools that were taken from the allocator of the chunks and not given back, in this order. -/
structure State where
  chunksHdr : RegionHeader
  mem : Memory
  headers : Nat → PoolHeader
  faPools : List (Nat × FixedAllocatorInfo)
  lastHdrScanned : Nat
  live : List Nat
  inUse : List Nat

/-- Calls in a transaction that commits. -/
abbrev Flex := EStateM Failure State

def State.numAllocated (state : State) (hdr : Nat) : Int :=
  (state.headers hdr).faHdr.numAllocated

/-- `addr & PAGE_MASK`. -/
def poolBase (addr : Nat) : Nat :=
  addr - addr % chunkSize

/-! ## The hash table -/

/-- `_fa_pools.insert` does not replace an entry. -/
def insertPool (base : Nat) (info : FixedAllocatorInfo)
    (pools : List (Nat × FixedAllocatorInfo)) : List (Nat × FixedAllocatorInfo) :=
  if base ∈ pools.map Prod.fst then pools else (base, info) :: pools

/-- `_fa_pools.erase`. -/
def erasePool (base : Nat) (pools : List (Nat × FixedAllocatorInfo)) :
    List (Nat × FixedAllocatorInfo) :=
  pools.filter fun entry => entry.1 ≠ base

/-- Correct the `prev` pointer of an entry. -/
def setPrev (base prev : Nat) (pools : List (Nat × FixedAllocatorInfo)) :
    List (Nat × FixedAllocatorInfo) :=
  pools.map fun entry => if entry.1 = base then (base, { entry.2 with prev := prev }) else entry

/-! ## Allocation -/

/-- `FixedAllocator::alloc` of a pool. -/
def take (fa : FixedAllocator) (hdr : Nat) : Flex Nat := do
  let state ← get
  match fa.alloc (state.headers hdr).faHdr state.mem with
  | none => throw .badAlloc
  | some (p, faHdr, mem) =>
      set { state with
        headers := Function.update state.headers hdr { state.headers hdr with faHdr := faHdr }
        mem := mem
        live := p :: state.live }
      return p

/-- The loop over the headers that have not been scanned, up to a pool that is not full: the
header in front of it, or 0. -/
def scanPools : Nat → Flex Nat
  | 0 => throw .crash
  | bound + 1 => do
      let state ← get
      let prev := state.lastHdrScanned
      let hdr := (state.headers prev).nextPoolHdr
      if hdr = 0 then return 0
      else
        set { state with lastHdrScanned := hdr }
        if state.numAllocated hdr < maxObjsPerPool then return prev else scanPools bound

/-- The constructor `FixedAllocator` of a new pool, with its assertion. -/
def newPool (base : Nat) : Option FixedAllocator :=
  if valid : 0 < base ∧ 2 ^ 12 ∣ base ∧ base + chunkSize < 2 ^ 64 then
    some ⟨base, 12, base + chunkSize, AllocatorUnit.smallChunkBits_ge, valid.1, valid.2.1,
      valid.2.2⟩
  else none

/-- `add_new_pool`, where `alloc_free_form` has returned `hdr`. -/
def addNewPool (config : Config) (hdr : Nat) : Flex FixedAllocatorInfo := do
  let state ← get
  match config.chunks.alloc state.chunksHdr state.mem with
  | none => throw .badAlloc
  | some (base, chunksHdr, mem) =>
      match newPool base with
      | none => throw .crash
      | some fa =>
          let last := state.lastHdrScanned
          let headers := Function.update state.headers hdr ⟨fa, 0, ⟨base, 0, 0⟩⟩
          let info : FixedAllocatorInfo := ⟨fa, hdr, last⟩
          set { state with
            chunksHdr := chunksHdr
            mem := mem
            headers := Function.update headers last { headers last with nextPoolHdr := hdr }
            faPools := insertPool base info state.faPools
            lastHdrScanned := hdr
            inUse := state.inUse ++ [hdr] }
          return info

/-- `FlexFixedAllocator::alloc`; `newHdr` is the block that `alloc_free_form` would return. -/
def alloc (config : Config) (newHdr : Nat) : Flex Nat := do
  match (← get).faPools with
  | (_, info) :: pools =>
      let p ← take info.fa info.hdr
      if (← get).numAllocated info.hdr = maxObjsPerPool then
        modify fun state => { state with faPools := pools }
        return p
      else return p
  | [] =>
      let prev ← scanPools chunkBound
      if prev ≠ 0 then
        let hdr := (← get).lastHdrScanned
        let fa := ((← get).headers hdr).fa
        let p ← take fa hdr
        if (← get).numAllocated hdr < maxObjsPerPool then
          modify fun state =>
            { state with faPools := insertPool fa.start ⟨fa, hdr, prev⟩ state.faPools }
          return p
        else return p
      else
        let info ← addNewPool config newHdr
        take info.fa info.hdr

/-! ## Frees -/

/-- The walk along the list: the header of a pool, and the one in front of it. -/
def findHdr (headers : Nat → PoolHeader) (base : Nat) : Nat → Nat → Nat → Option (Nat × Nat)
  | 0, _, _ => none
  | bound + 1, prev, hdr =>
      if hdr = 0 then none
      else if (headers hdr).fa.start = base then some (prev, hdr)
      else findHdr headers base bound hdr (headers hdr).nextPoolHdr

/-- The assertions of `FixedAllocator::free(p, 1)`. -/
def Frees (fa : FixedAllocator) (header : RegionHeader) (p : Nat) : Prop :=
  fa.start ≤ p ∧ p + fa.size ≤ header.tailPtr ∧ p % fa.size = 0

instance (fa : FixedAllocator) (header : RegionHeader) (p : Nat) : Decidable (Frees fa header p) :=
  inferInstanceAs (Decidable (_ ∧ _))

/-- The branch of `free` for the last small chunk of a pool, which goes back. -/
def freePool (config : Config) (addr hdr prev : Nat) : Flex Unit := do
  let state ← get
  let next := (state.headers hdr).nextPoolHdr
  let base := poolBase addr
  if prev = 0 ∨ ¬ Frees config.chunks state.chunksHdr base then throw .crash
  else
    let headers := Function.update state.headers prev
      { state.headers prev with nextPoolHdr := next }
    let freed := config.chunks.freeContiguous state.chunksHdr state.mem base 1
    let pools :=
      if next ≠ 0 then setPrev (headers next).fa.start prev state.faPools else state.faPools
    set { state with
      chunksHdr := freed.1
      mem := freed.2
      headers := headers
      faPools := erasePool base pools
      lastHdrScanned := if state.lastHdrScanned = hdr then prev else state.lastHdrScanned
      live := state.live.erase addr
      inUse := state.inUse.erase hdr }

/-- The other branch of `free`. -/
def freeSmallChunk (fa : FixedAllocator) (addr hdr prev : Nat) : Flex Unit := do
  let state ← get
  let header := (state.headers hdr).faHdr
  let freed := fa.freeContiguous header state.mem addr 1
  if ¬ Frees fa header addr ∨ freed.1.numAllocated ≠ header.numAllocated - 1 then throw .crash
  else
    set { state with
      headers := Function.update state.headers hdr { state.headers hdr with faHdr := freed.1 }
      mem := freed.2
      faPools := insertPool (poolBase addr) ⟨fa, hdr, prev⟩ state.faPools
      live := state.live.erase addr }

/-- `FlexFixedAllocator::free` behind the lookup. -/
def freeIn (config : Config) (fa : FixedAllocator) (addr hdr prev : Nat) : Flex Unit := do
  if (← get).numAllocated hdr - 1 = 0 ∧ hdr ≠ config.pm then freePool config addr hdr prev
  else freeSmallChunk fa addr hdr prev

/-- `FlexFixedAllocator::free`. -/
def free (config : Config) (addr : Nat) : Flex Unit := do
  let state ← get
  match state.faPools.lookup (poolBase addr) with
  | some info => freeIn config info.fa addr info.hdr info.prev
  | none =>
      match findHdr state.headers (poolBase addr) chunkBound 0 config.pm with
      | none => throw .crash
      | some (prev, hdr) => freeIn config (state.headers hdr).fa addr hdr prev

/-! ## Runs -/

/-- The constructor for a unit that exists. -/
def State.reopen (config : Config) (state : State) : State :=
  { state with
    faPools :=
      if state.numAllocated config.pm < maxObjsPerPool then
        [(config.first.start, ⟨config.first, config.pm, 0⟩)]
      else []
    lastHdrScanned := config.pm }

/-- The calls; what others do to the chunks, between the calls and within them; the hash table is
rehashed; the unit is opened again. -/
inductive Label
  | alloc (newHdr : Nat)
  | free (addr : Nat)
  | others (chunksHdr : RegionHeader) (mem : Memory)
  | rehash (pools : List (Nat × FixedAllocatorInfo))
  | reopen

def step (config : Config) (state : State) : Label → Option State
  | .alloc newHdr =>
      match alloc config newHdr state with
      | .ok _ after => some after
      | .error .badAlloc after => some after
      | .error _ _ => none
  | .free addr =>
      match free config addr state with
      | .ok _ after => some after
      | .error _ _ => none
  | .others chunksHdr mem => some { state with chunksHdr := chunksHdr, mem := mem }
  | .rehash pools => some { state with faPools := pools }
  | .reopen => some (state.reopen config)

/-- The start of a pool. -/
def State.base (state : State) (hdr : Nat) : Nat :=
  (state.headers hdr).fa.start

/-- The pools in use that are chunks of the allocator of the chunks. -/
def State.chunksInUse (config : Config) (state : State) : List Extent :=
  ((state.inUse.map state.base).filter fun base => config.chunks.start ≤ base).map (⟨·, 1⟩)

/-- The allocator of the chunks has handed out the pools. -/
def ChunksHold (config : Config) (state : State) (chunksHdr : RegionHeader) (mem : Memory) : Prop :=
  ∃ extents, config.chunks.Holds chunksHdr mem (state.chunksInUse config ++ extents)

/-- `alloc_free_form` returns a block that is not the header of a pool in use; the clients free
live small chunks.  What others do keeps the allocator of the chunks consistent and its chunks
handed out, and changes no pool but in the small chunks that are live. -/
def Disciplined (config : Config) (state : State) : Label → Prop
  | .alloc newHdr => newHdr ≠ 0 ∧ newHdr ∉ state.inUse
  | .free addr => addr ∈ state.live
  | .others chunksHdr mem =>
      ChunksHold config state chunksHdr mem ∧
        ∀ hdr ∈ state.inUse, ∀ address, state.base hdr ≤ address →
          address < state.base hdr + chunkSize →
          (∀ p ∈ state.live, address < p ∨ p + smallChunkSize ≤ address) →
          mem address = state.mem address
  | .rehash pools => state.faPools.Perm pools
  | .reopen => True

/-- A new unit. -/
structure Created (config : Config) (state : State) : Prop where
  chunks : ChunksHold config state state.chunksHdr state.mem
  header : state.headers config.pm = ⟨config.first, 0, ⟨config.first.start, 0, 0⟩⟩
  faPools : state.faPools = [(config.first.start, ⟨config.first, config.pm, 0⟩)]
  lastHdrScanned : state.lastHdrScanned = config.pm
  live : state.live = []
  inUse : state.inUse = [config.pm]

/-- The list from `_pm` on. -/
def State.links (config : Config) (state : State) : Option Nat → Option Nat
  | none => some config.pm
  | some hdr =>
      if (state.headers hdr).nextPoolHdr = 0 then none else some (state.headers hdr).nextPoolHdr

/-- The header in front of another one in the list; there is none in front of `_pm`. -/
def IsPrev (config : Config) (state : State) (prev hdr : Nat) : Prop :=
  prev = 0 ∧ hdr = config.pm ∨
    prev ≠ 0 ∧ prev ∈ state.inUse ∧ (state.headers prev).nextPoolHdr = hdr

/-- What is promised: live small chunks are apart and in pools in use, these are apart and all
that is in the list, once each, and the allocator of the chunks has handed them out; an entry of
the hash table has the header in front of its own. -/
structure Intact (config : Config) (state : State) : Prop where
  apart : state.live.Pairwise fun p q => p + smallChunkSize ≤ q ∨ q + smallChunkSize ≤ p
  inPools : ∀ p ∈ state.live, ∃ hdr ∈ state.inUse,
    state.base hdr ≤ p ∧ p + smallChunkSize ≤ state.base hdr + chunkSize
  listed : LinkedList.Linked (state.links config) none state.inUse ∧ state.inUse.Nodup
  poolsApart : (state.inUse.map state.base).Pairwise fun p q =>
    p + chunkSize ≤ q ∨ q + chunkSize ≤ p
  handedOut : ChunksHold config state state.chunksHdr state.mem
  prevs : ∀ entry ∈ state.faPools, entry.2.hdr ∈ state.inUse ∧
    entry.1 = state.base entry.2.hdr ∧ IsPrev config state entry.2.prev entry.2.hdr

/-- The pools that a free gives back have no live small chunk. -/
def GivesBackEmpty (state after : State) : Prop :=
  ∀ hdr ∈ state.inUse, hdr ∉ after.inUse →
    ∀ p ∈ after.live, ¬ (state.base hdr ≤ p ∧ p < state.base hdr + chunkSize)

end Pmgd.FlexFixedAllocator
