import Mathlib.Algebra.BigOperators.Group.List.Basic
import Pmgd.AllocationRoutes

/-!
# What the routes keep

What the clients hold, and the headers of the pools, are parts of listed chunks and whole chunks.
A chunk has at most so much free as they leave, in a list and in its header it belongs to the same
instance, and what a sub-allocator has in use is what is held of its chunks, and what has leaked.
-/

namespace Pmgd.AllocationRoutes

open ByteMemory
open AllocatorUnit (chunkSize smallChunkSize wordValues headerSize minAllocBytes poolHeaderSize
  fixedSizes)
open FixedAllocator (Extent)
open LargeBlock (chunkBase)

/-- A part of a chunk, or chunks. -/
inductive Holding
  | part (chunk : ListedChunk) (amount : Nat)
  | chunks (extent : Extent)
  deriving DecidableEq

def Holding.amountAt (base : Nat) : Holding → Nat
  | .part chunk amount => if chunk.base = base then amount else 0
  | .chunks _ => 0

def Holding.amountOf (allocId : Nat) (sub : SubAllocator) : Holding → Nat
  | .part chunk amount => if chunk.allocId = allocId ∧ chunk.sub = sub then amount else 0
  | .chunks _ => 0

def Holding.extent? : Holding → Option Extent
  | .part _ _ => none
  | .chunks extent => some extent

/-- What is held of a chunk. -/
def amountAt (base : Nat) (holdings : List Holding) : Nat :=
  (holdings.map (Holding.amountAt base)).sum

/-- What is held of the chunks of a sub-allocator. -/
def amountOf (allocId : Nat) (sub : SubAllocator) (holdings : List Holding) : Nat :=
  (holdings.map (Holding.amountOf allocId sub)).sum

/-- The free-form chunk of a block. -/
def formChunk (address allocId : Nat) : ListedChunk :=
  ⟨chunkBase address, allocId, .freeForm⟩

/-- The header of a pool. -/
def Pool.holding? (pool : Pool) : Option Holding :=
  pool.hdr.map fun hdr => .part (formChunk hdr pool.allocId) poolHeaderSize

/-- The headers of the pools, and what the clients hold. -/
def State.held (state : State) (holdings : List Holding) : List Holding :=
  state.pools.filterMap Pool.holding? ++ holdings

def ListedChunk.formBase? (chunk : ListedChunk) : Option Nat :=
  if chunk.sub = .freeForm then some chunk.base else none

/-- The chunks that are pools or free-form chunks; one pool may be in front of the others. -/
def State.chunkBases (config : Config) (state : State) : List Nat :=
  (state.pools.map Pool.base ++ state.listed.filterMap ListedChunk.formBase?).filter fun base =>
    config.chunks.start ≤ base

/-- What the allocator of the chunks has handed out. -/
def State.extents (config : Config) (state : State) (holdings : List Holding) : List Extent :=
  (state.chunkBases config).map (⟨·, 1⟩) ++ holdings.filterMap Holding.extent?

/-- The bytes at an address are in one chunk. -/
def InChunk (address amount : Nat) : Prop :=
  address + amount ≤ chunkBase address + chunkSize

structure PoolPlaced (config : Config) (units : Nat) (pool : Pool) : Prop where
  owner : pool.allocId < units
  aligned : chunkSize ∣ pool.base
  place : config.chunks.start ≤ pool.base ∨ pool.base = config.pmBase ∧ pool.hdr = none
  hdr : ∀ hdr ∈ pool.hdr, InChunk hdr poolHeaderSize

/-- A small chunk is in a pool of its instance. -/
def ChunkPlaced (config : Config) (pools : List Pool) (chunk : ListedChunk) : Prop :=
  match chunk.sub with
  | .fixSize index =>
      index < fixedSizes.length ∧ smallChunkSize ∣ chunk.base ∧
        ∃ pool ∈ pools, pool.allocId = chunk.allocId ∧ pool.base = chunkBase chunk.base
  | .freeForm => config.chunks.start ≤ chunk.base

structure ChunkSound (config : Config) (state : State) (held : List Holding)
    (chunk : ListedChunk) : Prop where
  owner : chunk.allocId < state.units
  placed : ChunkPlaced config state.pools chunk
  myId : (state.headers chunk.base).myId = chunk.allocId
  space : state.free chunk.base + amountAt chunk.base held ≤ chunk.sub.capacity

/-- The lists and headers agree with what is held. -/
structure Kept (config : Config) (leak : Nat → SubAllocator → Nat) (state : State)
    (held : List Holding) : Prop where
  pools : ∀ pool ∈ state.pools, PoolPlaced config state.units pool
  bases : (state.listed.map ListedChunk.base).Nodup
  listed : ∀ chunk ∈ state.listed, ChunkSound config state held chunk
  parts : ∀ chunk amount, .part chunk amount ∈ held → chunk ∈ state.listed ∧ 0 < amount
  inUse : ∀ allocId sub, state.inUse allocId sub = leak allocId sub + amountOf allocId sub held

/-- The invariant. -/
structure Sound (config : Config) (leak : Nat → SubAllocator → Nat) (state : State)
    (holdings : List Holding) : Prop where
  chunks : config.chunks.Holds state.chunksHdr state.mem (state.extents config holdings)
  small : ∀ extent, .chunks extent ∈ holdings → extent.num * chunkSize < wordValues
  kept : Kept config leak state (state.held holdings)

variable {config : Config} {leak : Nat → SubAllocator → Nat} {state after : State}
  {held holdings others : List Holding} {holding : Holding} {chunk : ListedChunk} {pool : Pool}
  {base amount num allocId : Nat} {sub : SubAllocator} {extent : Extent}

/-! ## Amounts -/

theorem amountAt_cons : amountAt base (holding :: holdings) =
    holding.amountAt base + amountAt base holdings := by
  rw [amountAt, List.map_cons, List.sum_cons, amountAt]

theorem amountOf_cons : amountOf allocId sub (holding :: holdings) =
    holding.amountOf allocId sub + amountOf allocId sub holdings := by
  rw [amountOf, List.map_cons, List.sum_cons, amountOf]

theorem amountAt_perm (perm : holdings.Perm others) :
    amountAt base holdings = amountAt base others :=
  (perm.map _).sum_eq

theorem amountOf_perm (perm : holdings.Perm others) :
    amountOf allocId sub holdings = amountOf allocId sub others :=
  (perm.map _).sum_eq

theorem amountAt_chunks : amountAt base (.chunks extent :: held) = amountAt base held :=
  amountAt_cons.trans (Nat.zero_add _)

theorem amountOf_chunks :
    amountOf allocId sub (.chunks extent :: held) = amountOf allocId sub held :=
  amountOf_cons.trans (Nat.zero_add _)

theorem amountAt_part : amountAt base (.part chunk amount :: held) =
    (if chunk.base = base then amount else 0) + amountAt base held :=
  amountAt_cons

theorem amountOf_part : amountOf allocId sub (.part chunk amount :: held) =
    (if chunk.allocId = allocId ∧ chunk.sub = sub then amount else 0) +
      amountOf allocId sub held :=
  amountOf_cons

theorem le_amountAt (member : holding ∈ held) : holding.amountAt base ≤ amountAt base held :=
  (Nat.le_add_right _ _).trans (List.sum_map_erase (Holding.amountAt base) member).le

/-- The sum over the listed chunks, when one of them changes. -/
theorem sum_map_of_change {chunks : List ListedChunk} (nodup : chunks.Nodup)
    (member : chunk ∈ chunks) {before later : ListedChunk → Nat}
    (same : ∀ other ∈ chunks, other ≠ chunk → later other = before other) :
    (chunks.map later).sum + before chunk = (chunks.map before).sum + later chunk := by
  have rest : (chunks.erase chunk).map later = (chunks.erase chunk).map before := by
    apply List.map_congr_left
    intro other inErase
    obtain ⟨differs, isOther⟩ := nodup.mem_erase_iff.mp inErase
    exact same other isOther differs
  rw [← List.sum_map_erase later member, ← List.sum_map_erase before member, rest]
  omega

theorem held_cons : (state.held (holding :: holdings)).Perm (holding :: state.held holdings) :=
  List.perm_middle

/-! ## Lists and headers -/

namespace Kept

variable (kept : Kept config leak state held)
include kept

theorem perm {others : List Holding} (perm : held.Perm others) :
    Kept config leak state others where
  pools := kept.pools
  bases := kept.bases
  listed chunk member := by
    have isSound := kept.listed chunk member
    exact ⟨isSound.owner, isSound.placed, isSound.myId, amountAt_perm perm ▸ isSound.space⟩
  parts chunk amount member := kept.parts chunk amount (perm.mem_iff.mpr member)
  inUse allocId sub := amountOf_perm perm ▸ kept.inUse allocId sub

theorem setChunks {chunksHdr : RegionHeader} {mem : Memory} :
    Kept config leak (state.setChunks chunksHdr mem) held where
  pools := kept.pools
  bases := kept.bases
  listed chunk member := by
    obtain ⟨owner, placed, myId, space⟩ := kept.listed chunk member
    exact ⟨owner, placed, myId, space⟩
  parts := kept.parts
  inUse := kept.inUse

/-- Whole chunks have no headers. -/
theorem consChunks : Kept config leak state (.chunks extent :: held) where
  pools := kept.pools
  bases := kept.bases
  listed chunk member := by
    obtain ⟨owner, placed, myId, space⟩ := kept.listed chunk member
    exact ⟨owner, placed, myId, amountAt_chunks.symm ▸ space⟩
  parts chunk amount member := by
    rcases List.mem_cons.mp member with isNew | isOld
    · cases isNew
    · exact kept.parts chunk amount isOld
  inUse allocId sub := amountOf_chunks.symm ▸ kept.inUse allocId sub

theorem eq_of_base {other : ListedChunk} (member : chunk ∈ state.listed)
    (isOther : other ∈ state.listed) (same : other.base = chunk.base) : other = chunk :=
  List.inj_on_of_nodup_map kept.bases isOther member same

end Kept

theorem Kept.tailChunks (kept : Kept config leak state (.chunks extent :: held)) :
    Kept config leak state held where
  pools := kept.pools
  bases := kept.bases
  listed chunk member := by
    obtain ⟨owner, placed, myId, space⟩ := kept.listed chunk member
    exact ⟨owner, placed, myId, amountAt_chunks ▸ space⟩
  parts chunk amount member := kept.parts chunk amount (List.mem_cons_of_mem _ member)
  inUse allocId sub := amountOf_chunks ▸ kept.inUse allocId sub

theorem free_setFree_self {free : Nat} : (state.setFree base free).free base = free := by
  simp only [State.free, State.setFree, Function.update_self]

theorem free_setFree_of_ne {other free : Nat} (differs : other ≠ base) :
    (state.setFree base free).free other = state.free other := by
  simp only [State.free, State.setFree, Function.update_of_ne differs]

theorem myId_setFree {other free : Nat} :
    ((state.setFree base free).headers other).myId = (state.headers other).myId := by
  by_cases same : other = base
  · simp only [same, State.setFree, Function.update_self]
  · simp only [State.setFree, Function.update_of_ne same]

/-- More or less of a chunk is held, and its header agrees. -/
theorem Kept.setFree {later : List Holding} {free : Nat} (kept : Kept config leak state held)
    (member : chunk ∈ state.listed)
    (parts : ∀ chunk amount, .part chunk amount ∈ later → chunk ∈ state.listed ∧ 0 < amount)
    (elsewhere : ∀ base, base ≠ chunk.base → amountAt base later = amountAt base held)
    (space : free + amountAt chunk.base later ≤ chunk.sub.capacity)
    (balance : amountOf chunk.allocId chunk.sub later + free =
      amountOf chunk.allocId chunk.sub held + state.free chunk.base)
    (otherSubs : ∀ allocId sub, ¬ (chunk.allocId = allocId ∧ chunk.sub = sub) →
      amountOf allocId sub later = amountOf allocId sub held) :
    Kept config leak (state.setFree chunk.base free) later where
  pools := kept.pools
  bases := kept.bases
  listed other isOther := by
    obtain ⟨owner, placed, myId, otherSpace⟩ := kept.listed other isOther
    refine ⟨owner, placed, myId_setFree.trans myId, ?_⟩
    by_cases same : other.base = chunk.base
    · obtain rfl := kept.eq_of_base member isOther same
      rw [free_setFree_self]
      exact space
    · rw [free_setFree_of_ne same, elsewhere other.base same]
      exact otherSpace
  parts := parts
  inUse allocId sub := by
    have before := kept.inUse allocId sub
    have change : ((state.listed.map ((state.setFree chunk.base free).usedOf allocId sub)).sum +
        state.usedOf allocId sub chunk = (state.listed.map (state.usedOf allocId sub)).sum +
          (state.setFree chunk.base free).usedOf allocId sub chunk) := by
      apply sum_map_of_change (List.Nodup.of_map _ kept.bases) member
      intro other isOther differs
      have differentBase : other.base ≠ chunk.base := fun same =>
        differs (kept.eq_of_base member isOther same)
      rw [State.usedOf, free_setFree_of_ne differentBase, State.usedOf]
    rw [State.inUse] at before ⊢
    rw [State.usedOf, State.usedOf, free_setFree_self] at change
    have isSound := (kept.listed chunk member).space
    by_cases own : chunk.allocId = allocId ∧ chunk.sub = sub
    · obtain ⟨rfl, rfl⟩ := own
      rw [if_pos ⟨rfl, rfl⟩, if_pos ⟨rfl, rfl⟩] at change
      show (state.listed.map _).sum = _
      omega
    · rw [if_neg own, if_neg own] at change
      rw [otherSubs allocId sub own]
      exact (Nat.add_right_cancel change).trans before

/-- A part of a chunk is handed out. -/
theorem Kept.take (kept : Kept config leak state held) (member : chunk ∈ state.listed)
    (positive : 0 < amount) (room : amount ≤ state.free chunk.base) :
    Kept config leak (state.take chunk.base amount) (.part chunk amount :: held) := by
  apply kept.setFree member
  · intro other part isPart
    rcases List.mem_cons.mp isPart with isNew | isOld
    · cases isNew
      exact ⟨member, positive⟩
    · exact kept.parts other part isOld
  · intro base differs
    rw [amountAt_part, if_neg differs.symm, Nat.zero_add]
  · have space := (kept.listed chunk member).space
    rw [amountAt_part, if_pos rfl]
    omega
  · rw [amountOf_part, if_pos ⟨rfl, rfl⟩]
    omega
  · intro allocId sub differs
    rw [amountOf_part, if_neg differs, Nat.zero_add]

/-- A part of a chunk is returned. -/
theorem Kept.put (kept : Kept config leak state (.part chunk amount :: held)) :
    Kept config leak (state.setFree chunk.base (state.free chunk.base + amount)) held := by
  obtain ⟨member, -⟩ := kept.parts chunk amount List.mem_cons_self
  apply kept.setFree member
  · exact fun other part isPart => kept.parts other part (List.mem_cons_of_mem _ isPart)
  · intro base differs
    rw [amountAt_part, if_neg differs.symm, Nat.zero_add]
  · have space := (kept.listed chunk member).space
    rw [amountAt_part, if_pos rfl] at space
    omega
  · rw [amountOf_part, if_pos ⟨rfl, rfl⟩]
    omega
  · intro allocId sub differs
    rw [amountOf_part, if_neg differs, Nat.zero_add]

theorem amountAt_eq_zero (nowhere : ∀ chunk amount, .part chunk amount ∈ held → chunk.base ≠ base) :
    amountAt base held = 0 := by
  induction held with
  | nil => rfl
  | cons holding held ih =>
      have rest := ih fun chunk amount member => nowhere chunk amount (List.mem_cons_of_mem _ member)
      rw [amountAt_cons, rest]
      cases holding with
      | part chunk amount => exact if_neg (nowhere chunk amount List.mem_cons_self)
      | chunks extent => rfl

theorem ChunkPlaced.mono {pools others : List Pool} (placed : ChunkPlaced config pools chunk)
    (subset : ∀ index, chunk.sub = .fixSize index → ∀ pool ∈ pools,
      pool.base = chunkBase chunk.base → pool ∈ others) : ChunkPlaced config others chunk := by
  unfold ChunkPlaced at placed ⊢
  cases isSub : chunk.sub with
  | fixSize index =>
      rw [isSub] at placed
      obtain ⟨isIndex, aligned, pool, member, owner, isBase⟩ := placed
      exact ⟨isIndex, aligned, pool, subset index isSub pool member isBase, owner, isBase⟩
  | freeForm =>
      rw [isSub] at placed
      exact placed

/-- A new chunk is empty. -/
theorem Kept.addChunk (kept : Kept config leak state held)
    (fresh : ∀ other ∈ state.listed, other.base ≠ chunk.base)
    (owner : chunk.allocId < state.units) (placed : ChunkPlaced config state.pools chunk) :
    Kept config leak (state.addChunk chunk 0) held := by
  have old {other : ListedChunk} (isOther : other ∈ state.listed) :
      (state.addChunk chunk 0).headers other.base = state.headers other.base :=
    Function.update_of_ne (fresh other isOther) _ _
  have new : (state.addChunk chunk 0).headers chunk.base = ⟨chunk.allocId, chunk.sub.capacity⟩ :=
    Function.update_self _ _ _
  refine ⟨kept.pools, ?_, fun other member => ?_, fun other part isPart => ?_, fun id sub => ?_⟩
  · show ((state.listed ++ [chunk]).map ListedChunk.base).Nodup
    rw [List.map_append, List.map_singleton]
    apply kept.bases.append (List.nodup_singleton _)
    intro base isOld isNew
    obtain ⟨other, isOther, rfl⟩ := List.mem_map.mp isOld
    exact fresh other isOther (List.mem_singleton.mp isNew)
  · rcases List.mem_append.mp member with isOld | isNew
    · obtain ⟨otherOwner, otherPlaced, myId, space⟩ := kept.listed other isOld
      refine ⟨otherOwner, otherPlaced, ?_, ?_⟩
      · rw [old isOld]
        exact myId
      · rw [State.free, old isOld]
        exact space
    · obtain rfl := List.mem_singleton.mp isNew
      refine ⟨owner, placed, ?_, ?_⟩
      · rw [new]
      · rw [State.free, new, amountAt_eq_zero]
        · exact le_rfl
        · exact fun part amount isPart => fresh part (kept.parts part amount isPart).1
  · obtain ⟨isOther, positive⟩ := kept.parts other part isPart
    exact ⟨List.mem_append_left _ isOther, positive⟩
  · rw [← kept.inUse id sub]
    show ((state.listed ++ [chunk]).map _).sum = _
    have empty : (state.addChunk chunk 0).usedOf id sub chunk = 0 := by
      rw [State.usedOf, State.free, new]
      by_cases own : chunk.allocId = id ∧ chunk.sub = sub
      · rw [if_pos own, own.2, Nat.sub_self]
      · rw [if_neg own]
    rw [List.map_append, List.sum_append, List.map_singleton, List.sum_singleton, empty,
      State.inUse, Nat.add_zero]
    congr 1
    apply List.map_congr_left
    intro other isOther
    rw [State.usedOf, State.free, old isOther, State.usedOf, State.free]

/-- An empty chunk is taken out of its list. -/
theorem Kept.unlink (kept : Kept config leak state held) (member : chunk ∈ state.listed)
    (empty : state.free chunk.base = chunk.sub.capacity) :
    Kept config leak (state.unlink chunk) held := by
  have nothing : amountAt chunk.base held = 0 := by
    have space := (kept.listed chunk member).space
    omega
  refine ⟨kept.pools, kept.bases.sublist (List.erase_sublist.map _), fun other isOther => ?_,
    fun other part isPart => ?_, fun id sub => ?_⟩
  · obtain ⟨owner, placed, myId, space⟩ := kept.listed other (List.mem_of_mem_erase isOther)
    exact ⟨owner, placed, myId, space⟩
  · obtain ⟨isOther, positive⟩ := kept.parts other part isPart
    refine ⟨(List.mem_erase_of_ne ?_).mpr isOther, positive⟩
    rintro rfl
    have less := @le_amountAt _ _ other.base isPart
    rw [Holding.amountAt, if_pos rfl] at less
    omega
  · have noUse : state.usedOf id sub chunk = 0 := by
      rw [State.usedOf]
      by_cases own : chunk.allocId = id ∧ chunk.sub = sub
      · rw [if_pos own, empty, own.2, Nat.sub_self]
      · rw [if_neg own]
    rw [← kept.inUse id sub, State.inUse, State.inUse, ← List.sum_map_erase _ member, noUse,
      Nat.zero_add]
    rfl

theorem Kept.addPool (kept : Kept config leak state held)
    (placed : PoolPlaced config state.units pool) :
    Kept config leak (state.addPool pool) held where
  pools other member := by
    rcases List.mem_append.mp member with isOld | isNew
    · exact kept.pools other isOld
    · rw [List.mem_singleton.mp isNew]
      exact placed
  bases := kept.bases
  listed chunk member := by
    obtain ⟨owner, isPlaced, myId, space⟩ := kept.listed chunk member
    exact ⟨owner, isPlaced.mono fun _ _ _ isPool _ => List.mem_append_left _ isPool, myId, space⟩
  parts := kept.parts
  inUse := kept.inUse

theorem Kept.removePool (kept : Kept config leak state held)
    (noneInside : ∀ chunk ∈ state.listed, ∀ index, chunk.sub = .fixSize index →
      chunkBase chunk.base ≠ pool.base) : Kept config leak (state.removePool pool) held where
  pools other member := kept.pools other (List.mem_of_mem_erase member)
  bases := kept.bases
  listed chunk member := by
    obtain ⟨owner, placed, myId, space⟩ := kept.listed chunk member
    refine ⟨owner, placed.mono fun index isSub other isOther isBase => ?_, myId, space⟩
    refine (List.mem_erase_of_ne ?_).mpr isOther
    rintro rfl
    exact noneInside chunk member index isSub isBase.symm
  parts := kept.parts
  inUse := kept.inUse

/-- There may be more instances. -/
theorem Kept.moreUnits {units : Nat} (kept : Kept config leak state held)
    (more : state.units ≤ units) : Kept config leak { state with units := units } held where
  pools pool member :=
    { kept.pools pool member with owner := (kept.pools pool member).owner.trans_le more }
  bases := kept.bases
  listed chunk member := by
    obtain ⟨owner, placed, myId, space⟩ := kept.listed chunk member
    exact ⟨owner.trans_le more, placed, myId, space⟩
  parts := kept.parts
  inUse := kept.inUse

/-! ## Chunks that are handed out -/

variable {later : State}

theorem extents_chunks : (state.extents config (.chunks extent :: holdings)).Perm
    (extent :: state.extents config holdings) :=
  List.perm_middle

theorem chunkBases_pool (pools : state.pools.Perm (pool :: later.pools))
    (listed : state.listed = later.listed) (high : config.chunks.start ≤ pool.base) :
    (state.chunkBases config).Perm (pool.base :: later.chunkBases config) := by
  rw [State.chunkBases, State.chunkBases, listed]
  apply (((pools.map Pool.base).append_right _).filter _).trans
  rw [List.map_cons, List.cons_append, List.filter_cons_of_pos (by simpa using high)]

theorem chunkBases_form (pools : state.pools = later.pools)
    (listed : state.listed.Perm (⟨base, allocId, .freeForm⟩ :: later.listed))
    (high : config.chunks.start ≤ base) :
    (state.chunkBases config).Perm (base :: later.chunkBases config) := by
  rw [State.chunkBases, State.chunkBases, pools]
  apply (((listed.filterMap ListedChunk.formBase?).append_left _).filter _).trans
  have isForm : ListedChunk.formBase? ⟨base, allocId, .freeForm⟩ = some base := if_pos rfl
  rw [List.filterMap_cons_some isForm]
  apply (List.perm_middle.filter _).trans
  rw [List.filter_cons_of_pos (by simpa using high)]

theorem chunkBases_small {index : Nat} (pools : state.pools = later.pools)
    (listed : state.listed.Perm (⟨base, allocId, .fixSize index⟩ :: later.listed)) :
    (state.chunkBases config).Perm (later.chunkBases config) := by
  rw [State.chunkBases, State.chunkBases, pools]
  exact ((listed.filterMap ListedChunk.formBase?).append_left _).filter _

/-- A chunk changes from one in a list to one that is held, or back. -/
theorem extents_of_chunkBases
    (bases : (state.chunkBases config).Perm (base :: later.chunkBases config)) :
    (state.extents config holdings).Perm
      (later.extents config (.chunks ⟨base, 1⟩ :: holdings)) :=
  ((bases.map _).append_right _).trans extents_chunks.symm

theorem chunkBase_le (address : Nat) : chunkBase address ≤ address :=
  Nat.sub_le _ _

theorem lt_chunkBase (address : Nat) : address < chunkBase address + chunkSize := by
  have less : address % chunkSize < chunkSize := Nat.mod_lt _ (by decide)
  rw [chunkBase]
  omega

theorem filterMap_holding (pools : List Pool) : (pool :: pools).filterMap Pool.holding? =
    pool.holding?.toList ++ pools.filterMap Pool.holding? := by
  cases isHolding : pool.holding? with
  | none =>
      rw [List.filterMap_cons_none isHolding]
      rfl
  | some holding =>
      rw [List.filterMap_cons_some isHolding]
      rfl

/-- The header of a pool is not a chunk. -/
theorem extents_holding : state.extents config (pool.holding?.toList ++ holdings) =
    state.extents config holdings := by
  cases isHdr : pool.hdr with
  | none =>
      rw [Pool.holding?, isHdr]
      rfl
  | some hdr =>
      rw [Pool.holding?, isHdr]
      rfl

namespace Sound

theorem perm (sound : Sound config leak state holdings) (perm : holdings.Perm others) :
    Sound config leak state others where
  chunks := sound.chunks.perm ((perm.filterMap _).append_left _)
  small extent member := sound.small extent (perm.mem_iff.mpr member)
  kept := sound.kept.perm (perm.append_left _)

theorem form_mem (sound : Sound config leak state holdings) (member : chunk ∈ state.listed)
    (isForm : chunk.sub = .freeForm) : chunk.base ∈ state.chunkBases config := by
  have placed := (sound.kept.listed chunk member).placed
  rw [ChunkPlaced, isForm] at placed
  apply List.mem_filter.mpr ⟨List.mem_append_right _ ?_, by simpa using placed⟩
  exact List.mem_filterMap.mpr ⟨chunk, member, if_pos isForm⟩

theorem pool_mem (member : pool ∈ state.pools) (high : config.chunks.start ≤ pool.base) :
    pool.base ∈ state.chunkBases config :=
  List.mem_filter.mpr ⟨List.mem_append_left _ (List.mem_map_of_mem member), by simpa using high⟩

theorem mem_extents (member : base ∈ state.chunkBases config) :
    ⟨base, 1⟩ ∈ state.extents config holdings :=
  List.mem_append_left _ (List.mem_map_of_mem member)

/-- A listed chunk is in front of the chunks, or in one that has been handed out. -/
theorem chunk_cases (sound : Sound config leak state holdings) (member : chunk ∈ state.listed) :
    chunk.base < config.chunks.start ∨
      ∃ base ∈ state.chunkBases config, base ≤ chunk.base ∧ chunk.base < base + chunkSize := by
  cases isSub : chunk.sub with
  | freeForm =>
      right
      exact ⟨chunk.base, sound.form_mem member isSub, le_rfl,
        Nat.lt_add_of_pos_right (by decide)⟩
  | fixSize index =>
      have placed := (sound.kept.listed chunk member).placed
      rw [ChunkPlaced, isSub] at placed
      obtain ⟨-, -, pool, isPool, -, isBase⟩ := placed
      have low := chunkBase_le chunk.base
      have high := lt_chunkBase chunk.base
      rw [← isBase] at low high
      rcases (sound.kept.pools pool isPool).place with inside | ⟨isFirst, -⟩
      · right
        exact ⟨pool.base, pool_mem isPool inside, low, high⟩
      · left
        have room := config.room
        rw [isFirst, Config.pmBase] at high
        omega

theorem form_aligned (sound : Sound config leak state holdings)
    (member : ⟨base, allocId, .freeForm⟩ ∈ state.listed) : chunkSize ∣ base :=
  config.chunks_size ▸ (sound.chunks.aligned (mem_extents (sound.form_mem member rfl))).2.2

theorem base_aligned (sound : Sound config leak state (.chunks ⟨base, num⟩ :: holdings)) :
    chunkSize ∣ base :=
  config.chunks_size ▸ ((sound.chunks.perm extents_chunks).aligned List.mem_cons_self).2.2

/-- A chunk that is held is none of a list. -/
theorem fresh (sound : Sound config leak state (.chunks ⟨base, num⟩ :: holdings))
    (member : chunk ∈ state.listed) : chunk.base ≠ base := by
  have holds := sound.chunks.perm extents_chunks
  have positive : 0 < num := holds.1 _ List.mem_cons_self
  have low : config.chunks.start ≤ base := (holds.aligned List.mem_cons_self).1
  have wide : chunkSize ≤ num * config.chunks.size := by
    rw [config.chunks_size]
    exact Nat.le_mul_of_pos_left _ positive
  rintro rfl
  rcases sound.chunk_cases member with inFront | ⟨other, isOther, isLow, isHigh⟩
  · exact absurd low (Nat.not_le.mpr inFront)
  · have apart := holds.apart (mem_extents isOther)
    rw [Nat.one_mul, config.chunks_size] at apart
    rw [config.chunks_size] at wide
    dsimp only at apart
    omega

/-! ### Steps -/

/-- `alloc_chunk` changes nothing but the allocator of the chunks. -/
theorem allocChunk_spec (sound : Sound config leak state holdings) (positive : 0 < num)
    (small : num * chunkSize < wordValues)
    (allocated : allocChunk config state num = some (base, after)) :
    Sound config leak after (.chunks ⟨base, num⟩ :: holdings) ∧
      ∃ chunksHdr mem, after = state.setChunks chunksHdr mem := by
  obtain ⟨⟨p, chunksHdr, mem⟩, isAlloc, isAfter⟩ := Option.map_eq_some_iff.mp allocated
  obtain ⟨rfl, rfl⟩ := Prod.mk.inj isAfter
  have smallSize : num * config.chunks.size < wordValues := by rwa [config.chunks_size]
  have handed := (FixedAllocator.handsOutOrRefuses sound.chunks smallSize positive p chunksHdr mem
    isAlloc).1
  refine ⟨⟨handed.holds.perm extents_chunks.symm, fun extent member => ?_, ?_⟩, chunksHdr, mem,
    rfl⟩
  · rcases List.mem_cons.mp member with isNew | isOld
    · cases isNew
      exact small
    · exact sound.small extent isOld
  · exact sound.kept.consChunks.setChunks.perm held_cons.symm

/-- `free_chunk` of chunks that are held. -/
theorem freeChunk_spec (sound : Sound config leak state (.chunks ⟨base, num⟩ :: holdings)) :
    ∃ chunksHdr mem, freeChunk config state base num = some (state.setChunks chunksHdr mem) ∧
      Sound config leak (state.setChunks chunksHdr mem) holdings := by
  have holds := sound.chunks.perm extents_chunks
  have small := sound.small _ List.mem_cons_self
  rw [← config.chunks_size] at small
  obtain ⟨low, -, aligned⟩ := holds.aligned List.mem_cons_self
  have frees : FreesChunks config state.chunksHdr base num := by
    refine ⟨low, ?_, Nat.mod_eq_zero_of_dvd aligned⟩
    rw [Nat.mul_comm, Nat.mod_eq_of_lt small]
    exact (holds.inside List.mem_cons_self).1
  obtain ⟨kept, -⟩ := FixedAllocator.returnsExactly small state.chunksHdr state.mem _ holds
    List.mem_cons_self
  rw [List.erase_cons_head] at kept
  refine ⟨_, _, if_pos frees, kept, fun extent member => ?_, ?_⟩
  · exact sound.small extent (List.mem_cons_of_mem _ member)
  · exact (sound.kept.perm held_cons).tailChunks.setChunks

/-- The first chunk and the others. -/
theorem split (sound : Sound config leak state (.chunks ⟨base, num + 1⟩ :: holdings))
    (several : 0 < num) :
    Sound config leak state
      (.chunks ⟨base, 1⟩ :: .chunks ⟨base + chunkSize, num⟩ :: holdings) := by
  have holds := (sound.chunks.perm extents_chunks).split several
  rw [config.chunks_size] at holds
  have small := sound.small _ List.mem_cons_self
  refine ⟨holds.perm ?_, fun extent member => ?_, ?_⟩
  · exact (extents_chunks.trans (extents_chunks.cons _)).symm
  · rcases List.mem_cons.mp member with isFirst | inOthers
    · cases isFirst
      show 1 * chunkSize < wordValues
      decide
    · rcases List.mem_cons.mp inOthers with isRest | isOld
      · cases isRest
        dsimp only at small
        rw [Nat.succ_mul] at small
        exact (Nat.le_add_right _ _).trans_lt small
      · exact sound.small extent (List.mem_cons_of_mem _ isOld)
  · apply Kept.perm _ (held_cons.trans (held_cons.cons _)).symm
    exact (sound.kept.perm held_cons).tailChunks.consChunks.consChunks

theorem take (sound : Sound config leak state holdings) (member : chunk ∈ state.listed)
    (positive : 0 < amount) (room : amount ≤ state.free chunk.base) :
    Sound config leak (state.take chunk.base amount) (.part chunk amount :: holdings) := by
  refine ⟨sound.chunks, fun extent isExtent => ?_, ?_⟩
  · rcases List.mem_cons.mp isExtent with isNew | isOld
    · cases isNew
    · exact sound.small extent isOld
  · exact (sound.kept.take member positive room).perm held_cons.symm

theorem put (sound : Sound config leak state (.part chunk amount :: holdings)) :
    Sound config leak (state.setFree chunk.base (state.free chunk.base + amount)) holdings := by
  refine ⟨sound.chunks, fun extent isExtent => ?_, ?_⟩
  · exact sound.small extent (List.mem_cons_of_mem _ isExtent)
  · exact (sound.kept.perm held_cons).put

/-- A free spot inside of a free-form chunk. -/
theorem writeSpot {address : Nat} {spot : FreeSpot} (sound : Sound config leak state holdings)
    (member : ⟨chunkBase address, allocId, .freeForm⟩ ∈ state.listed)
    (inside : InChunk address minAllocBytes) :
    Sound config leak (state.writeSpot address spot) holdings := by
  refine ⟨sound.chunks.congr fun place _ _ outside => ?_, sound.small, sound.kept.setChunks⟩
  have apart := outside _ (mem_extents (sound.form_mem member rfl))
  dsimp only at apart
  rw [Nat.one_mul, config.chunks_size] at apart
  have low := chunkBase_le address
  simp only [InChunk, minAllocBytes] at inside
  show FreeFormChunk.setWord (FreeFormChunk.setWord _ _ _) _ _ place = _
  rw [FreeFormChunk.setWord_outside (by omega), FreeFormChunk.setWord_outside (by omega)]

/-- A chunk that is held becomes a free-form chunk. -/
theorem addForm (sound : Sound config leak state (.chunks ⟨base, 1⟩ :: holdings))
    (owner : allocId < state.units) :
    Sound config leak (state.addChunk ⟨base, allocId, .freeForm⟩ 0) holdings := by
  have high : config.chunks.start ≤ base :=
    ((sound.chunks.perm extents_chunks).aligned List.mem_cons_self).1
  refine ⟨sound.chunks.perm ?_, fun extent member => ?_, ?_⟩
  · apply (extents_of_chunkBases ?_).symm
    exact chunkBases_form rfl (List.perm_append_singleton _ _) high
  · exact sound.small extent (List.mem_cons_of_mem _ member)
  · have placed : ChunkPlaced config state.pools ⟨base, allocId, .freeForm⟩ := high
    apply (sound.kept.perm held_cons).tailChunks.addChunk _ owner placed
    exact fun other member => sound.fresh member

/-- An empty free-form chunk becomes one that is held. -/
theorem unlinkForm (sound : Sound config leak state holdings)
    (member : ⟨base, allocId, .freeForm⟩ ∈ state.listed)
    (empty : state.free base = chunkSize - headerSize) :
    Sound config leak (state.unlink ⟨base, allocId, .freeForm⟩)
      (.chunks ⟨base, 1⟩ :: holdings) := by
  refine ⟨sound.chunks.perm ?_, fun extent isExtent => ?_, ?_⟩
  · apply extents_of_chunkBases
    exact chunkBases_form rfl (List.perm_cons_erase member) (sound.kept.listed _ member).placed
  · rcases List.mem_cons.mp isExtent with isNew | isOld
    · cases isNew
      show 1 * chunkSize < wordValues
      decide
    · exact sound.small extent isOld
  · exact (sound.kept.unlink member empty).consChunks.perm held_cons.symm

/-- A new small chunk. -/
theorem addSmall {index : Nat} (sound : Sound config leak state holdings)
    (fresh : ∀ other ∈ state.listed, other.base ≠ base) (owner : allocId < state.units)
    (placed : ChunkPlaced config state.pools ⟨base, allocId, .fixSize index⟩) :
    Sound config leak (state.addChunk ⟨base, allocId, .fixSize index⟩ 0) holdings := by
  have bases : ((state.addChunk ⟨base, allocId, .fixSize index⟩ 0).chunkBases config).Perm
      (state.chunkBases config) :=
    chunkBases_small rfl (List.perm_append_singleton _ _)
  exact ⟨sound.chunks.perm ((bases.symm.map _).append_right _), sound.small,
    sound.kept.addChunk fresh owner placed⟩

/-- An empty small chunk. -/
theorem unlinkSmall {index : Nat} (sound : Sound config leak state holdings)
    (member : ⟨base, allocId, .fixSize index⟩ ∈ state.listed)
    (empty : state.free base = (SubAllocator.fixSize index).capacity) :
    Sound config leak (state.unlink ⟨base, allocId, .fixSize index⟩) holdings := by
  have bases : (state.chunkBases config).Perm
      ((state.unlink ⟨base, allocId, .fixSize index⟩).chunkBases config) :=
    chunkBases_small rfl (List.perm_cons_erase member)
  exact ⟨sound.chunks.perm ((bases.map _).append_right _), sound.small,
    sound.kept.unlink member empty⟩

/-- A chunk that is held becomes a pool, and so does the block with its header. -/
theorem addPool
    (sound : Sound config leak state
      (.chunks ⟨pool.base, 1⟩ :: (pool.holding?.toList ++ holdings)))
    (owner : pool.allocId < state.units)
    (inChunk : ∀ hdr ∈ pool.hdr, InChunk hdr poolHeaderSize) :
    Sound config leak (state.addPool pool) holdings := by
  obtain ⟨high, -, aligned⟩ := (sound.chunks.perm extents_chunks).aligned List.mem_cons_self
  rw [config.chunks_size] at aligned
  have bases : ((state.addPool pool).chunkBases config).Perm
      (pool.base :: state.chunkBases config) :=
    chunkBases_pool (List.perm_append_singleton _ _) rfl high
  have holds := sound.chunks.perm extents_chunks
  rw [extents_holding] at holds
  refine ⟨holds.perm ?_, fun extent member => ?_, ?_⟩
  · exact ((extents_of_chunkBases bases).trans extents_chunks).symm
  · exact sound.small extent (List.mem_cons_of_mem _ (List.mem_append_right _ member))
  · have kept := (sound.kept.perm held_cons).tailChunks.addPool
      ⟨owner, aligned, Or.inl high, inChunk⟩
    apply kept.perm
    rw [State.held, State.held, ← List.append_assoc]
    apply List.Perm.append_right
    apply (List.perm_append_comm.trans ?_).trans
      ((List.perm_append_singleton pool state.pools).filterMap _).symm
    rw [filterMap_holding]

/-- A pool without small chunks. -/
theorem removePool (sound : Sound config leak state holdings) (member : pool ∈ state.pools)
    (high : config.chunks.start ≤ pool.base)
    (noneInside : ∀ chunk ∈ state.listed, ∀ index, chunk.sub = .fixSize index →
      chunkBase chunk.base ≠ pool.base) :
    Sound config leak (state.removePool pool)
      (.chunks ⟨pool.base, 1⟩ :: (pool.holding?.toList ++ holdings)) := by
  have bases : (state.chunkBases config).Perm
      (pool.base :: (state.removePool pool).chunkBases config) :=
    chunkBases_pool (List.perm_cons_erase member) rfl high
  have holds := sound.chunks.perm ((extents_of_chunkBases bases).trans extents_chunks)
  rw [← @extents_holding _ _ _ pool] at holds
  refine ⟨holds.perm extents_chunks.symm, fun extent isExtent => ?_, ?_⟩
  · rcases List.mem_cons.mp isExtent with isNew | isOld
    · cases isNew
      show 1 * chunkSize < wordValues
      decide
    · rcases List.mem_append.mp isOld with isHdr | isRest
      · obtain ⟨hdr, -, isPart⟩ := Option.map_eq_some_iff.mp (Option.mem_toList.mp isHdr)
        cases isPart
      · exact sound.small extent isRest
  · apply (sound.kept.removePool noneInside).consChunks.perm
    apply (List.Perm.cons _ ?_).trans held_cons.symm
    rw [State.held, State.held, ← List.append_assoc]
    apply List.Perm.append_right
    apply ((List.perm_cons_erase member).filterMap _).trans
    rw [filterMap_holding]
    exact List.perm_append_comm

end Sound

end Pmgd.AllocationRoutes
