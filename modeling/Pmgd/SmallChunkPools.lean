import Pmgd.FlexFixedAllocator

/-!
# Pools of small chunks stay intact

Allocation and frees of small chunks keep what the pools, their list and the hash table promise,
whatever else happens to the chunks.
-/

namespace Pmgd

open ByteMemory LabelledRun ThrowingState LinkedList
open AllocatorUnit (Failure chunkSize smallChunkSize maxObjsPerPool chunkBound wordValues)

/-! ## Single objects -/

namespace FixedAllocator

variable {allocator : FixedAllocator} {header after : RegionHeader} {mem later : Memory}
  {extents : List Extent} {live : List Nat} {p : Nat}

theorem Holds.alloc (holds : allocator.Holds header mem extents)
    (small : allocator.size < wordValues)
    (allocated : allocator.alloc header mem = some (p, after, later)) :
    allocator.HandsOut extents ⟨p, 1⟩ after later ∧
      ∀ address, address < p ∨ p + allocator.size ≤ address → later address = mem address := by
  have wide := size_ge allocator
  constructor
  · apply (handsOutOrRefuses holds (by simpa using small) Nat.one_pos p after later ?_).1
    rw [allocContiguous, if_pos rfl]
    exact allocated
  · intro address outside
    obtain ⟨-, -, -, rfl⟩ | ⟨-, -, -, -, rfl⟩ := alloc_cases allocated
    · exact setWord_outside (by omega)
    · rfl

/-- `free` of one object. -/
theorem Holds.free (holds : allocator.Holds header mem extents)
    (small : allocator.size < wordValues) (member : ⟨p, 1⟩ ∈ extents) :
    let freed := allocator.freeContiguous header mem p 1
    allocator.Holds freed.1 freed.2 (extents.erase ⟨p, 1⟩) ∧
      freed.1.numAllocated = header.numAllocated - 1 ∧
      ∀ address, address < p ∨ p + allocator.size ≤ address → freed.2 address = mem address := by
  obtain ⟨kept, frame⟩ := returnsExactly (by simpa using small) header mem extents holds member
  rw [Nat.one_mul] at frame
  refine ⟨kept, ?_, frame⟩
  unfold freeContiguous
  split_ifs
  · rfl
  · rfl

/-- The pool has handed out these objects. -/
def Manages (allocator : FixedAllocator) (header : RegionHeader) (mem : Memory)
    (live : List Nat) : Prop :=
  allocator.Holds header mem (live.map (⟨·, 1⟩))

theorem flatMap_objects_single (allocator : FixedAllocator) (live : List Nat) :
    (live.map (⟨·, 1⟩ : Nat → Extent)).flatMap allocator.objects = live := by
  induction live with
  | nil => rfl
  | cons p live ih =>
      rw [List.map_cons, List.flatMap_cons, ih, objects_one]
      rfl

namespace Manages

variable (manages : Manages allocator header mem live)
include manages

theorem count : header.numAllocated = live.length := by
  obtain ⟨-, free, partition⟩ := manages
  rw [partition.count, flatMap_objects_single]

theorem nodup : live.Nodup := by
  obtain ⟨-, free, partition⟩ := manages
  rw [flatMap_objects_single] at partition
  exact (List.nodup_append'.mp partition.nodup).2.1

theorem object (member : p ∈ live) :
    allocator.start ≤ p ∧ allocator.size ∣ p ∧ p + allocator.size ≤ header.tailPtr ∧
      header.tailPtr ≤ allocator.maxAddr := by
  have isExtent : (⟨p, 1⟩ : Extent) ∈ live.map (⟨·, 1⟩ : Nat → Extent) :=
    List.mem_map_of_mem member
  have isObject := Holds.aligned manages isExtent
  have inside := Holds.inside manages isExtent
  rw [Nat.one_mul] at inside
  exact ⟨isObject.1, isObject.2.2, inside⟩

/-- There are no more objects than fit in the pool. -/
theorem length_le {num : Nat} (fits : allocator.maxAddr = allocator.start + num * allocator.size) :
    live.length ≤ num := by
  have subset : live ⊆ allocator.objects ⟨allocator.start, num⟩ := by
    intro p member
    obtain ⟨low, isMultiple, high, bounded⟩ := manages.object member
    have wide := size_ge allocator
    exact (mem_objects_iff allocator.aligned).mpr ⟨low, by omega, isMultiple⟩
  have shorter := (List.subperm_of_subset manages.nodup subset).length_le
  rwa [length_objects] at shorter

/-- A pool that is not full has an object. -/
theorem exists_alloc {num : Nat}
    (fits : allocator.maxAddr = allocator.start + num * allocator.size)
    (less : live.length < num) : ∃ taken, allocator.alloc header mem = some taken := by
  by_contra none
  obtain ⟨-, free, partition⟩ := manages
  rw [flatMap_objects_single] at partition
  have refused : header.freePtr = 0 ∧ allocator.maxAddr < header.tailPtr + allocator.size := by
    unfold FixedAllocator.alloc at none
    split_ifs at none with onList full
    · exact absurd ⟨_, rfl⟩ none
    · exact ⟨not_not.mp onList, full⟩
    · exact absurd ⟨_, rfl⟩ none
  have noFree : free = [] := by
    have chain := partition.chain
    rw [refused.1] at chain
    cases free with
    | nil => rfl
    | cons q rest => exact absurd chain.1.symm chain.2.1
  have wide := size_ge allocator
  have all : allocator.objects ⟨allocator.start, num⟩ ⊆ live := by
    intro p member
    obtain ⟨low, high, isMultiple⟩ := (mem_objects_iff allocator.aligned).mp member
    have isObject : p ∈ free ++ live := by
      refine (partition.objects p).mpr ⟨low, ?_, isMultiple⟩
      by_contra above
      rcases Nat.lt_or_eq_of_le (Nat.le_of_not_lt above) with less | same
      · have apart := disjoint_of_ne isMultiple partition.tail.1 (by omega)
        have apartEnd := disjoint_of_ne isMultiple
          (fits ▸ Nat.dvd_add allocator.aligned (Nat.dvd_mul_left _ _) :
            allocator.size ∣ allocator.maxAddr) (by omega)
        omega
      · have apartEnd := disjoint_of_ne isMultiple
          (fits ▸ Nat.dvd_add allocator.aligned (Nat.dvd_mul_left _ _) :
            allocator.size ∣ allocator.maxAddr) (by omega)
        omega
    rwa [noFree] at isObject
  have longer := (List.subperm_of_subset (nodup_objects _ _) all).length_le
  rw [length_objects] at longer
  exact absurd less (Nat.not_lt.mpr longer)

theorem alloc (small : allocator.size < wordValues)
    (allocated : allocator.alloc header mem = some (p, after, later)) :
    Manages allocator after later (p :: live) ∧
      ∀ address, address < p ∨ p + allocator.size ≤ address → later address = mem address := by
  obtain ⟨handsOut, frame⟩ := Holds.alloc manages small allocated
  exact ⟨handsOut.holds, frame⟩

theorem free (small : allocator.size < wordValues) (member : p ∈ live) :
    let freed := allocator.freeContiguous header mem p 1
    Manages allocator freed.1 freed.2 (live.erase p) ∧
      freed.1.numAllocated = header.numAllocated - 1 ∧
      ∀ address, address < p ∨ p + allocator.size ≤ address → freed.2 address = mem address := by
  have injective : Function.Injective (⟨·, 1⟩ : Nat → Extent) := by
    intro first second same
    exact congrArg Extent.p same
  have freed := Holds.free manages small (List.mem_map_of_mem member)
  rw [← List.map_erase injective] at freed
  exact freed

theorem congr {other : Memory} (same : ∀ address, allocator.start ≤ address →
    address < allocator.maxAddr → (∀ p ∈ live, address < p ∨ p + allocator.size ≤ address) →
      other address = mem address) : Manages allocator header other live := by
  apply Holds.congr manages
  intro address low high outside
  obtain ⟨-, free, partition⟩ := manages
  have bounded := partition.bounded
  apply same address low (by omega)
  intro p member
  simpa using outside ⟨p, 1⟩ (List.mem_map_of_mem member)

theorem perm {others : List Nat} (isPerm : live.Perm others) :
    Manages allocator header mem others :=
  Holds.perm manages (isPerm.map _)

end Manages

end FixedAllocator

namespace FlexFixedAllocator

variable {config : Config} {state after : State} {fa : FixedAllocator} {base hdr prev p q : Nat}

/-! ## Pools -/

namespace IsPool

variable (isPool : IsPool fa)
include isPool

theorem size : fa.size = smallChunkSize := by
  rw [FixedAllocator.size, isPool.sizeBits, smallChunkSize]

theorem fits : fa.maxAddr = fa.start + maxObjsPerPool * fa.size := by
  rw [isPool.size, isPool.maxAddr]
  rfl

theorem small : fa.size < wordValues := by
  rw [isPool.size]
  decide

/-- A small chunk lies in the chunk. -/
theorem mem_chunk {header : RegionHeader} {mem : Memory} {live : List Nat}
    (manages : fa.Manages header mem live) (member : p ∈ live) :
    fa.start ≤ p ∧ p + smallChunkSize ≤ fa.start + chunkSize := by
  obtain ⟨low, -, high, bounded⟩ := manages.object member
  rw [isPool.size] at high
  rw [isPool.maxAddr] at bounded
  exact ⟨low, high.trans bounded⟩

end IsPool

theorem poolBase_eq (aligned : chunkSize ∣ base) (low : base ≤ p) (high : p < base + chunkSize) :
    poolBase p = base := by
  obtain ⟨index, rfl⟩ := aligned
  obtain ⟨offset, rfl⟩ := Nat.exists_eq_add_of_le low
  rw [poolBase, Nat.mul_add_mod, Nat.mod_eq_of_lt (by omega), Nat.add_sub_cancel]

/-- Different chunks are apart. -/
theorem chunks_apart (first : chunkSize ∣ p) (second : chunkSize ∣ q) (different : p ≠ q) :
    p + chunkSize ≤ q ∨ q + chunkSize ≤ p := by
  obtain ⟨i, rfl⟩ := first
  obtain ⟨j, rfl⟩ := second
  rcases lt_trichotomy i j with less | rfl | greater
  · left
    rw [← Nat.mul_succ]
    exact Nat.mul_le_mul_left _ less
  · exact absurd rfl different
  · right
    rw [← Nat.mul_succ]
    exact Nat.mul_le_mul_left _ greater

/-! ## What the pools promise -/

/-- The live small chunks of a chunk. -/
def State.liveIn (state : State) (base : Nat) : List Nat :=
  state.live.filter fun p => poolBase p = base

/-- The pools in use, as their headers and the allocator of the chunks have them. -/
structure Store (config : Config) (state : State) : Prop where
  linked : Linked (state.links config) none state.inUse
  nodup : state.inUse.Nodup
  nonzero : ∀ hdr ∈ state.inUse, hdr ≠ 0
  first : (state.headers config.pm).fa = config.first
  isPool : ∀ hdr ∈ state.inUse, IsPool (state.headers hdr).fa
  bases : (state.inUse.map state.base).Nodup
  inside : ∀ hdr ∈ state.inUse, hdr ≠ config.pm → config.chunks.start ≤ state.base hdr
  chunks : ChunksHold config state state.chunksHdr state.mem
  manages : ∀ hdr ∈ state.inUse, (state.headers hdr).fa.Manages (state.headers hdr).faHdr state.mem
    (state.liveIn (state.base hdr))
  home : ∀ p ∈ state.live, ∃ hdr ∈ state.inUse, poolBase p = state.base hdr
  liveNodup : state.live.Nodup

/-- An entry for a pool in use. -/
structure Placed (config : Config) (state : State) (entry : Nat × FixedAllocatorInfo) : Prop where
  inUse : entry.2.hdr ∈ state.inUse
  base : entry.1 = state.base entry.2.hdr
  fa : entry.2.fa = (state.headers entry.2.hdr).fa
  prev : IsPrev config state entry.2.prev entry.2.hdr

/-- An entry of the hash table, for a pool that has space. -/
structure Entry (config : Config) (state : State) (entry : Nat × FixedAllocatorInfo) : Prop
    extends Placed config state entry where
  space : state.numAllocated entry.2.hdr < maxObjsPerPool

structure Sound (config : Config) (state : State) : Prop where
  store : Store config state
  keys : (state.faPools.map Prod.fst).Nodup
  entries : ∀ entry ∈ state.faPools, Entry config state entry
  cursor : state.lastHdrScanned ∈ state.inUse

theorem mem_chunksInUse (member : hdr ∈ state.inUse)
    (inside : config.chunks.start ≤ state.base hdr) :
    ⟨state.base hdr, 1⟩ ∈ state.chunksInUse config := by
  apply List.mem_map_of_mem
  exact List.mem_filter.mpr ⟨List.mem_map_of_mem member, decide_eq_true inside⟩

namespace Store

variable (store : Store config state)
include store

theorem pm_mem : config.pm ∈ state.inUse := by
  have isHead : state.inUse.head? = some config.pm := store.linked.head.symm
  exact List.mem_of_mem_head? isHead

theorem aligned (member : hdr ∈ state.inUse) : chunkSize ∣ state.base hdr :=
  (store.isPool hdr member).aligned

/-- The first pool may be in front of the chunks. -/
theorem outside (member : hdr ∈ state.inUse) :
    state.base hdr + chunkSize ≤ config.chunks.start ∨
      config.chunks.start ≤ state.base hdr := by
  by_cases isFirst : hdr = config.pm
  · have isBase : state.base hdr = config.first.start := by
      rw [isFirst, State.base, store.first]
    rw [isBase, ← config.first_isPool.maxAddr]
    exact config.apart
  · exact .inr (store.inside hdr member isFirst)

theorem base_inj {other : Nat} (member : hdr ∈ state.inUse) (isOther : other ∈ state.inUse)
    (same : state.base hdr = state.base other) : hdr = other :=
  List.inj_on_of_nodup_map store.bases member isOther same

theorem apart {other : Nat} (member : hdr ∈ state.inUse) (isOther : other ∈ state.inUse)
    (different : hdr ≠ other) :
    state.base hdr + chunkSize ≤ state.base other ∨
      state.base other + chunkSize ≤ state.base hdr :=
  chunks_apart (store.aligned member) (store.aligned isOther)
    fun same => different (store.base_inj member isOther same)

theorem mem_liveIn (member : hdr ∈ state.inUse) (isLive : p ∈ state.liveIn (state.base hdr)) :
    state.base hdr ≤ p ∧ p + smallChunkSize ≤ state.base hdr + chunkSize :=
  (store.isPool hdr member).mem_chunk (store.manages hdr member) isLive

theorem inPool (isLive : p ∈ state.live) : ∃ hdr ∈ state.inUse, poolBase p = state.base hdr ∧
    state.base hdr ≤ p ∧ p + smallChunkSize ≤ state.base hdr + chunkSize := by
  obtain ⟨hdr, member, isBase⟩ := store.home p isLive
  refine ⟨hdr, member, isBase, store.mem_liveIn member ?_⟩
  exact List.mem_filter.mpr ⟨isLive, decide_eq_true isBase⟩

theorem count (member : hdr ∈ state.inUse) :
    state.numAllocated hdr = (state.liveIn (state.base hdr)).length :=
  (store.manages hdr member).count

theorem count_le (member : hdr ∈ state.inUse) : state.numAllocated hdr ≤ maxObjsPerPool := by
  rw [store.count member]
  exact_mod_cast (store.manages hdr member).length_le (store.isPool hdr member).fits

/-- The allocator of the chunks does not mind what is written to pools in use. -/
theorem chunksHold_congr {mem : Memory} (same : ∀ address, (∀ hdr ∈ state.inUse,
    address < state.base hdr ∨ state.base hdr + chunkSize ≤ address) →
      mem address = state.mem address) : ChunksHold config state state.chunksHdr mem := by
  obtain ⟨extents, holds⟩ := store.chunks
  refine ⟨extents, holds.congr fun address low _ outside => same address fun hdr member => ?_⟩
  rcases store.outside member with isOutside | isInside
  · exact .inr (isOutside.trans low)
  · have away := outside ⟨state.base hdr, 1⟩
      (List.mem_append_left _ (mem_chunksInUse member isInside))
    rwa [Nat.one_mul, config.chunks_size] at away

/-- The hash table and the cursor are not in the store. -/
theorem setDram (pools : List (Nat × FixedAllocatorInfo)) (cursor : Nat) :
    Store config { state with faPools := pools, lastHdrScanned := cursor } :=
  ⟨store.linked, store.nodup, store.nonzero, store.first, store.isPool, store.bases,
    store.inside, store.chunks, store.manages, store.home, store.liveNodup⟩

end Store

/-! ## One small chunk of a pool -/

/-- The state after a call of the fixed allocator of a pool. -/
def State.setPool (state : State) (hdr : Nat) (faHdr : RegionHeader) (mem : Memory)
    (live : List Nat) : State :=
  { state with
    headers := Function.update state.headers hdr { state.headers hdr with faHdr := faHdr }
    mem := mem
    live := live }

section SetPool

variable {faHdr : RegionHeader} {mem : Memory} {live : List Nat}

theorem setPool_headers (other : Nat) :
    ((state.setPool hdr faHdr mem live).headers other).fa = (state.headers other).fa ∧
      ((state.setPool hdr faHdr mem live).headers other).nextPoolHdr =
        (state.headers other).nextPoolHdr := by
  by_cases same : other = hdr
  · subst same
    simp [State.setPool]
  · simp [State.setPool, Function.update_of_ne same]

theorem setPool_base : (state.setPool hdr faHdr mem live).base = state.base := by
  funext other
  exact congrArg FixedAllocator.start (setPool_headers other).1

theorem setPool_links :
    (state.setPool hdr faHdr mem live).links config = state.links config := by
  funext place
  cases place with
  | none => rfl
  | some other => rw [State.links, State.links, (setPool_headers other).2]

theorem setPool_chunksInUse :
    (state.setPool hdr faHdr mem live).chunksInUse config = state.chunksInUse config := by
  rw [State.chunksInUse, setPool_base]
  rfl

theorem setPool_isPrev {other : Nat} :
    IsPrev config (state.setPool hdr faHdr mem live) prev other ↔
      IsPrev config state prev other := by
  rw [IsPrev, IsPrev, (setPool_headers prev).2]
  rfl

theorem setPool_numAllocated_of_ne {other : Nat} (different : other ≠ hdr) :
    (state.setPool hdr faHdr mem live).numAllocated other = state.numAllocated other := by
  simp [State.setPool, State.numAllocated, Function.update_of_ne different]

theorem setPool_numAllocated_self :
    (state.setPool hdr faHdr mem live).numAllocated hdr = faHdr.numAllocated := by
  simp [State.setPool, State.numAllocated]

/-- One pool changes within its chunk, with its own small chunks. -/
theorem Store.setPool (store : Store config state) (member : hdr ∈ state.inUse)
    (manages : (state.headers hdr).fa.Manages faHdr mem
      (live.filter fun p => poolBase p = state.base hdr))
    (frame : ∀ address, address < state.base hdr ∨ state.base hdr + chunkSize ≤ address →
      mem address = state.mem address)
    (others : ∀ base, base ≠ state.base hdr →
      (live.filter fun p => poolBase p = base) = state.liveIn base)
    (nodup : live.Nodup) : Store config (state.setPool hdr faHdr mem live) where
  linked := by
    rw [setPool_links]
    exact store.linked
  nodup := store.nodup
  nonzero := store.nonzero
  first := (setPool_headers config.pm).1.trans store.first
  isPool other isOther := by
    rw [(setPool_headers other).1]
    exact store.isPool other isOther
  bases := by
    rw [setPool_base]
    exact store.bases
  inside other isOther notFirst := by
    rw [setPool_base]
    exact store.inside other isOther notFirst
  chunks := by
    have kept := store.chunksHold_congr fun address outside => frame address (outside hdr member)
    unfold ChunksHold at kept ⊢
    rw [setPool_chunksInUse]
    exact kept
  manages other isOther := by
    rw [setPool_base, (setPool_headers other).1]
    by_cases same : other = hdr
    · subst same
      simpa [State.setPool, State.liveIn] using manages
    · have different : state.base other ≠ state.base hdr :=
        fun equal => same (store.base_inj isOther member equal)
      have isPool := store.isPool other isOther
      have isLive : (state.setPool hdr faHdr mem live).liveIn (state.base other) =
          state.liveIn (state.base other) := others (state.base other) different
      have sameHdr : ((state.setPool hdr faHdr mem live).headers other).faHdr =
          (state.headers other).faHdr := by
        simp [State.setPool, Function.update_of_ne same]
      rw [isLive, sameHdr]
      apply (store.manages other isOther).congr
      intro address low high _
      apply frame
      rw [isPool.maxAddr] at high
      have apart := store.apart isOther member same
      unfold State.base at apart ⊢
      omega
  home p isLive := by
    rw [setPool_base]
    by_cases isHere : poolBase p = state.base hdr
    · exact ⟨hdr, member, isHere⟩
    · have old : p ∈ state.liveIn (poolBase p) := by
        rw [← others (poolBase p) isHere]
        exact List.mem_filter.mpr ⟨isLive, decide_eq_true rfl⟩
      exact store.home p (List.mem_filter.mp old).1
  liveNodup := nodup

end SetPool

/-- The state after an object of a pool has been handed out. -/
theorem Store.handOut {faHdr : RegionHeader} {mem : Memory} (store : Store config state)
    (member : hdr ∈ state.inUse)
    (allocated : (state.headers hdr).fa.alloc (state.headers hdr).faHdr state.mem =
      some (p, faHdr, mem)) :
    Store config (state.setPool hdr faHdr mem (p :: state.live)) ∧
      faHdr.numAllocated = state.numAllocated hdr + 1 := by
  have isPool := store.isPool hdr member
  obtain ⟨manages, frame⟩ := (store.manages hdr member).alloc isPool.small allocated
  have inside := isPool.mem_chunk manages List.mem_cons_self
  have isBase : poolBase p = state.base hdr := by
    apply poolBase_eq (store.aligned member) inside.1
    have wide : 0 < smallChunkSize := by decide
    unfold State.base
    omega
  have isNew : p ∉ state.live := by
    intro isLive
    apply (List.nodup_cons.mp manages.nodup).1
    exact List.mem_filter.mpr ⟨isLive, decide_eq_true isBase⟩
  constructor
  · apply store.setPool member
    · rw [List.filter_cons, if_pos (decide_eq_true isBase)]
      exact manages
    · intro address outside
      apply frame
      rw [isPool.size]
      unfold State.base at outside
      omega
    · intro base different
      apply List.filter_cons_of_neg
      simpa [isBase] using Ne.symm different
    · exact List.nodup_cons.mpr ⟨isNew, store.liveNodup⟩
  · rw [manages.count, List.length_cons, store.count member]
    push_cast
    rfl

/-- The state after a live small chunk has been put back in its pool. -/
theorem Store.putBack (store : Store config state) (member : hdr ∈ state.inUse)
    (isLive : p ∈ state.liveIn (state.base hdr)) :
    let freed := (state.headers hdr).fa.freeContiguous (state.headers hdr).faHdr state.mem p 1
    Store config (state.setPool hdr freed.1 freed.2 (state.live.erase p)) ∧
      freed.1.numAllocated = state.numAllocated hdr - 1 := by
  have isPool := store.isPool hdr member
  obtain ⟨manages, isCount, frame⟩ := (store.manages hdr member).free isPool.small isLive
  have inside := store.mem_liveIn member isLive
  have isBase : poolBase p = state.base hdr := of_decide_eq_true (List.mem_filter.mp isLive).2
  refine ⟨store.setPool member ?_ ?_ ?_ ?_, isCount⟩
  · rw [State.liveIn, List.erase_filter] at manages
    exact manages
  · intro address outside
    apply frame
    rw [isPool.size]
    omega
  · intro base different
    rw [← List.erase_filter, List.erase_of_not_mem]
    · rfl
    · intro isHere
      exact different ((of_decide_eq_true (List.mem_filter.mp isHere).2).symm.trans isBase)
  · exact store.liveNodup.erase p

/-- A pool that is not full hands out a small chunk. -/
theorem Store.exists_take (store : Store config state) (member : hdr ∈ state.inUse)
    (space : state.numAllocated hdr < maxObjsPerPool) :
    ∃ p faHdr mem,
      take (state.headers hdr).fa hdr state =
        .ok p (state.setPool hdr faHdr mem (p :: state.live)) ∧
      Store config (state.setPool hdr faHdr mem (p :: state.live)) ∧
      faHdr.numAllocated = state.numAllocated hdr + 1 := by
  rw [store.count member] at space
  obtain ⟨⟨p, faHdr, mem⟩, allocated⟩ := (store.manages hdr member).exists_alloc
    (store.isPool hdr member).fits (by exact_mod_cast space)
  refine ⟨p, faHdr, mem, ?_, store.handOut member allocated⟩
  unfold take
  rw [get_bind, allocated]
  rfl

/-! ## The hash table -/

theorem Placed.setPool {faHdr : RegionHeader} {mem : Memory} {live : List Nat}
    {entry : Nat × FixedAllocatorInfo} (placed : Placed config state entry) :
    Placed config (state.setPool hdr faHdr mem live) entry where
  inUse := placed.inUse
  base := by
    rw [setPool_base]
    exact placed.base
  fa := placed.fa.trans (setPool_headers _).1.symm
  prev := setPool_isPrev.mpr placed.prev

theorem space_setPool {faHdr : RegionHeader} {mem : Memory} {live : List Nat} {other : Nat}
    (old : other ≠ hdr → state.numAllocated other < maxObjsPerPool)
    (space : other = hdr → faHdr.numAllocated < maxObjsPerPool) :
    (state.setPool hdr faHdr mem live).numAllocated other < maxObjsPerPool := by
  by_cases same : other = hdr
  · rw [same, setPool_numAllocated_self]
    exact space same
  · rw [setPool_numAllocated_of_ne same]
    exact old same

theorem mem_insertPool {pools : List (Nat × FixedAllocatorInfo)} {info : FixedAllocatorInfo}
    {entry : Nat × FixedAllocatorInfo} (member : entry ∈ insertPool base info pools) :
    entry = (base, info) ∨ entry ∈ pools := by
  unfold insertPool at member
  split_ifs at member with present
  · exact .inr member
  · exact List.mem_cons.mp member

theorem insertPool_keys {pools : List (Nat × FixedAllocatorInfo)} {info : FixedAllocatorInfo}
    (keys : (pools.map Prod.fst).Nodup) : ((insertPool base info pools).map Prod.fst).Nodup := by
  unfold insertPool
  split_ifs with present
  · exact keys
  · exact List.nodup_cons.mpr ⟨present, keys⟩

theorem Entry.of_setDram {pools : List (Nat × FixedAllocatorInfo)} {cursor : Nat}
    {entry : Nat × FixedAllocatorInfo} (isEntry : Entry config state entry) :
    Entry config { state with faPools := pools, lastHdrScanned := cursor } entry :=
  ⟨⟨isEntry.inUse, isEntry.base, isEntry.fa, isEntry.prev⟩, isEntry.space⟩

/-- An entry belongs to the pool of its key. -/
theorem Sound.entry_of_key (sound : Sound config state) (member : hdr ∈ state.inUse)
    {entry : Nat × FixedAllocatorInfo} (isEntry : entry ∈ state.faPools)
    (isKey : entry.1 = state.base hdr) : entry.2.hdr = hdr :=
  sound.store.base_inj (sound.entries entry isEntry).inUse member
    ((sound.entries entry isEntry).base.symm.trans isKey)

/-- The state after a pool has changed, with the entries for pools that have space. -/
theorem Sound.setPool {faHdr : RegionHeader} {mem : Memory} {live : List Nat}
    {pools : List (Nat × FixedAllocatorInfo)} (sound : Sound config state)
    (store : Store config (state.setPool hdr faHdr mem live))
    (keys : (pools.map Prod.fst).Nodup)
    (entries : ∀ entry ∈ pools, Placed config state entry ∧
      (state.setPool hdr faHdr mem live).numAllocated entry.2.hdr < maxObjsPerPool) :
    Sound config { state.setPool hdr faHdr mem live with faPools := pools } where
  store := store.setDram pools _
  keys := keys
  entries entry member := by
    obtain ⟨placed, space⟩ := entries entry member
    exact Entry.of_setDram ⟨placed.setPool, space⟩
  cursor := sound.cursor

theorem Sound.took {faHdr : RegionHeader} {mem : Memory} {live : List Nat}
    {pools : List (Nat × FixedAllocatorInfo)} (sound : Sound config state)
    (store : Store config (state.setPool hdr faHdr mem live))
    (keys : (pools.map Prod.fst).Nodup)
    (entries : ∀ entry ∈ pools, Entry config state entry ∧
      (entry.2.hdr = hdr → faHdr.numAllocated < maxObjsPerPool)) :
    Sound config { state.setPool hdr faHdr mem live with faPools := pools } := by
  apply sound.setPool store keys
  intro entry member
  obtain ⟨isEntry, space⟩ := entries entry member
  exact ⟨isEntry.toPlaced, space_setPool (fun _ => isEntry.space) space⟩

/-! ## The scan -/

theorem links_some {next : Nat} (isNext : (state.headers hdr).nextPoolHdr = next) :
    state.links config (some hdr) = if next = 0 then none else some next := by
  rw [State.links, isNext]

/-- The pools behind the cursor are scanned up to one with space. -/
theorem scanPools_ends {before rest : List Nat} {cursor bound : Nat}
    (store : Store config state) (isList : state.inUse = before ++ cursor :: rest)
    (enough : rest.length < bound) :
    ∃ prev last, scanPools bound { state with lastHdrScanned := cursor } =
        .ok prev { state with lastHdrScanned := last } ∧ last ∈ state.inUse ∧
      (prev = 0 ∧ (state.headers last).nextPoolHdr = 0 ∨
        prev ≠ 0 ∧ IsPrev config state prev last ∧ state.numAllocated last < maxObjsPerPool) := by
  induction bound generalizing before rest cursor with
  | zero => exact absurd enough (Nat.not_lt_zero _)
  | succ bound ih =>
      have isCursor : cursor ∈ state.inUse := by
        rw [isList]
        exact List.mem_append_right _ List.mem_cons_self
      have next : state.links config (some cursor) = rest.head? := by
        have linked := store.linked
        rw [isList] at linked
        exact linked.next
      rw [links_some rfl] at next
      unfold scanPools
      rw [get_bind]
      dsimp only
      by_cases isEnd : (state.headers cursor).nextPoolHdr = 0
      · rw [if_pos isEnd]
        exact ⟨0, cursor, rfl, isCursor, .inl ⟨rfl, isEnd⟩⟩
      · rw [if_neg isEnd] at next ⊢
        cases rest with
        | nil => cases next
        | cons hdr rest =>
            obtain isHdr := Option.some.inj next
            rw [isHdr]
            have member : hdr ∈ state.inUse := by
              rw [isList]
              simp
            have isPrev : IsPrev config state cursor hdr :=
              .inr ⟨store.nonzero cursor isCursor, isCursor, isHdr⟩
            by_cases space : state.numAllocated hdr < maxObjsPerPool
            · refine ⟨cursor, hdr, ?_, member, .inr ⟨store.nonzero cursor isCursor, isPrev, space⟩⟩
              rw [if_pos (show State.numAllocated { state with lastHdrScanned := cursor } hdr <
                maxObjsPerPool from space)]
              rfl
            · obtain ⟨prev, last, scanned, rest⟩ := @ih (before ++ [cursor]) rest hdr
                (by simp [isList]) (by simpa using enough)
              refine ⟨prev, last, ?_, rest⟩
              rw [if_neg (show ¬ State.numAllocated { state with lastHdrScanned := cursor } hdr <
                maxObjsPerPool from space), ← scanned]
              rfl

/-- There are fewer pools than addresses. -/
theorem Store.length_lt (store : Store config state) : state.inUse.length < chunkBound + 1 := by
  have subset : state.inUse.map state.base ⊆ List.range chunkBound := by
    intro base member
    obtain ⟨hdr, isHdr, rfl⟩ := List.mem_map.mp member
    have isPool := store.isPool hdr isHdr
    have small := (state.headers hdr).fa.maxAddr_lt
    rw [isPool.maxAddr] at small
    rw [List.mem_range]
    unfold State.base chunkBound
    omega
  have shorter := (List.subperm_of_subset store.bases subset).length_le
  rw [List.length_map, List.length_range] at shorter
  omega

/-! ## New pools -/

/-- The state after a pool has been put behind the last one. -/
def State.addPool (state : State) (fa : FixedAllocator) (hdr : Nat) (chunksHdr : RegionHeader)
    (mem : Memory) : State :=
  let last := state.lastHdrScanned
  let headers := Function.update state.headers hdr ⟨fa, 0, ⟨fa.start, 0, 0⟩⟩
  { state with
    chunksHdr := chunksHdr
    mem := mem
    headers := Function.update headers last { headers last with nextPoolHdr := hdr }
    faPools := insertPool fa.start ⟨fa, hdr, last⟩ state.faPools
    lastHdrScanned := hdr
    inUse := state.inUse ++ [hdr] }

section AddPool

variable {chunksHdr : RegionHeader} {mem : Memory}

theorem addPool_old {other : Nat} (different : other ≠ hdr) :
    ((state.addPool fa hdr chunksHdr mem).headers other).fa = (state.headers other).fa ∧
      ((state.addPool fa hdr chunksHdr mem).headers other).faHdr =
        (state.headers other).faHdr := by
  unfold State.addPool
  by_cases isLast : other = state.lastHdrScanned
  · subst isLast
    simp [Function.update_of_ne different]
  · simp [Function.update_of_ne different, Function.update_of_ne isLast]

theorem addPool_new (different : hdr ≠ state.lastHdrScanned) :
    (state.addPool fa hdr chunksHdr mem).headers hdr = ⟨fa, 0, ⟨fa.start, 0, 0⟩⟩ := by
  unfold State.addPool
  simp [Function.update_of_ne different]

theorem addPool_next {other : Nat} (different : other ≠ hdr)
    (notLast : other ≠ state.lastHdrScanned) :
    ((state.addPool fa hdr chunksHdr mem).headers other).nextPoolHdr =
      (state.headers other).nextPoolHdr := by
  unfold State.addPool
  simp [Function.update_of_ne different, Function.update_of_ne notLast]

theorem addPool_next_last :
    ((state.addPool fa hdr chunksHdr mem).headers state.lastHdrScanned).nextPoolHdr = hdr := by
  unfold State.addPool
  simp

theorem addPool_base_old {other : Nat} (different : other ≠ hdr) :
    (state.addPool fa hdr chunksHdr mem).base other = state.base other :=
  congrArg FixedAllocator.start (addPool_old different).1

theorem addPool_base_new (different : hdr ≠ state.lastHdrScanned) :
    (state.addPool fa hdr chunksHdr mem).base hdr = fa.start := by
  rw [State.base, addPool_new different]

/-- The last header of the list. -/
theorem Store.getLast_of_next (store : Store config state) (member : hdr ∈ state.inUse)
    (isEnd : (state.headers hdr).nextPoolHdr = 0) : state.inUse.getLast? = some hdr := by
  obtain ⟨before, rest, isList⟩ := List.append_of_mem member
  have linked := store.linked
  rw [isList] at linked ⊢
  have next := linked.next
  rw [links_some isEnd, if_pos rfl] at next
  cases rest with
  | nil => simp
  | cons other rest => cases next

theorem addPool_links (store : Store config state) (isNew : hdr ∉ state.inUse)
    (nonzero : hdr ≠ 0) (cursor : state.lastHdrScanned ∈ state.inUse)
    (isEnd : (state.headers state.lastHdrScanned).nextPoolHdr = 0) :
    Linked ((state.addPool fa hdr chunksHdr mem).links config) none (state.inUse ++ [hdr]) := by
  have different : hdr ≠ state.lastHdrScanned := fun same => isNew (same ▸ cursor)
  let links := Function.update (state.links config) (some hdr) none
  have linked : Linked links none state.inUse := by
    apply store.linked.congr
    · exact Function.update_of_ne (Option.some_ne_none hdr).symm _ _
    · intro other member
      apply Function.update_of_ne
      exact fun same => isNew (Option.some.inj same ▸ member)
  have appended := linked.append store.nodup isNew (Function.update_self _ _ _)
  rw [store.getLast_of_next cursor isEnd] at appended
  have isLinks : (state.addPool fa hdr chunksHdr mem).links config =
      Function.update links (some state.lastHdrScanned) (some hdr) := by
    funext place
    cases place with
    | none => simp [State.links, links]
    | some other =>
        by_cases isLast : other = state.lastHdrScanned
        · subst isLast
          rw [links_some addPool_next_last, if_neg nonzero, Function.update_self]
        · rw [Function.update_of_ne fun same => isLast (Option.some.inj same)]
          by_cases isHdr : other = hdr
          · subst isHdr
            rw [links_some (by rw [addPool_new different]), if_pos rfl]
            simp [links]
          · have notHdr : some other ≠ some hdr := fun same => isHdr (Option.some.inj same)
            rw [links_some (addPool_next isHdr isLast)]
            simp only [links, Function.update_of_ne notHdr]
            rfl
  rwa [isLinks]

/-- A pool from which nothing has been taken. -/
theorem manages_new (fa : FixedAllocator) (mem : Memory) :
    fa.Manages ⟨fa.start, 0, 0⟩ mem [] := by
  refine ⟨by simp, [], rfl, by simp, fun p => ?_, rfl, ⟨fa.aligned, le_rfl⟩, le_max_left _ _⟩
  have nothing : ¬ fa.IsObject fa.start p := fun isObject => by
    have low := isObject.1
    have high := isObject.2.1
    omega
  simpa using nothing

/-- A chunk that is handed out is apart from the pools in use. -/
theorem Store.newChunk (store : Store config state)
    (allocated : config.chunks.alloc state.chunksHdr state.mem = some (base, chunksHdr, mem)) :
    (∃ extents, config.chunks.Holds chunksHdr mem
        (⟨base, 1⟩ :: (state.chunksInUse config ++ extents))) ∧
      config.chunks.start ≤ base ∧ chunkSize ∣ base ∧ base + chunkSize ≤ config.chunks.maxAddr ∧
      (∀ hdr ∈ state.inUse, state.base hdr + chunkSize ≤ base ∨
        base + chunkSize ≤ state.base hdr) ∧
      ∀ address, address < base ∨ base + chunkSize ≤ address → mem address = state.mem address := by
  obtain ⟨extents, holds⟩ := store.chunks
  obtain ⟨handsOut, frame⟩ := holds.alloc (config.chunks_size ▸ by decide) allocated
  have isObject := handsOut.holds.aligned List.mem_cons_self
  have inside := handsOut.inside
  rw [Nat.one_mul, config.chunks_size] at inside
  rw [config.chunks_size] at frame
  refine ⟨⟨extents, handsOut.holds⟩, isObject.1, config.chunks_size ▸ isObject.2.2, inside, ?_,
    frame⟩
  intro hdr member
  rcases store.outside member with isOutside | isInside
  · exact .inl (isOutside.trans isObject.1)
  · have apart := handsOut.apart ⟨state.base hdr, 1⟩
      (List.mem_append_left _ (mem_chunksInUse member isInside))
    rw [Nat.one_mul, config.chunks_size] at apart
    exact apart.symm

theorem newPool_eq (positive : 0 < base) (aligned : chunkSize ∣ base)
    (small : base + chunkSize < 2 ^ 64) :
    ∃ fa, newPool base = some fa ∧ fa.start = base ∧ IsPool fa := by
  have isMultiple : 2 ^ 12 ∣ base := (by decide : 2 ^ 12 ∣ chunkSize).trans aligned
  refine ⟨_, dif_pos ⟨positive, isMultiple, small⟩, rfl, rfl, aligned, rfl⟩

theorem Store.addPool (store : Store config state) (isNew : hdr ∉ state.inUse)
    (nonzero : hdr ≠ 0) (cursor : state.lastHdrScanned ∈ state.inUse)
    (isEnd : (state.headers state.lastHdrScanned).nextPoolHdr = 0) (isPool : IsPool fa)
    (allocated : config.chunks.alloc state.chunksHdr state.mem = some (fa.start, chunksHdr, mem)) :
    Store config (state.addPool fa hdr chunksHdr mem) := by
  have different : hdr ≠ state.lastHdrScanned := fun same => isNew (same ▸ cursor)
  have old {other : Nat} (member : other ∈ state.inUse) : other ≠ hdr :=
    fun same => isNew (same ▸ member)
  have baseOld {other : Nat} (member : other ∈ state.inUse) :
      (state.addPool fa hdr chunksHdr mem).base other = state.base other :=
    addPool_base_old (old member)
  have baseNew : (state.addPool fa hdr chunksHdr mem).base hdr = fa.start :=
    addPool_base_new different
  have mapOld : state.inUse.map (state.addPool fa hdr chunksHdr mem).base =
      state.inUse.map state.base := List.map_congr_left fun _ member => baseOld member
  have cases {P : Nat → Prop} (isOld : ∀ other ∈ state.inUse, P other) (isHdr : P hdr) (other : Nat)
      (member : other ∈ state.inUse ++ [hdr]) : P other := by
    rcases List.mem_append.mp member with inOld | inNew
    · exact isOld other inOld
    · exact List.mem_singleton.mp inNew ▸ isHdr
  obtain ⟨⟨extents, holds⟩, inChunks, aligned, -, apart, frame⟩ := store.newChunk allocated
  have newBase (other : Nat) (member : other ∈ state.inUse) : state.base other ≠ fa.start := by
    intro same
    have wide : 0 < chunkSize := AllocatorUnit.chunkSize_pos
    rcases apart other member with before | behind
    · omega
    · omega
  have noneLive : (state.addPool fa hdr chunksHdr mem).liveIn fa.start = [] := by
    apply List.filter_eq_nil_iff.mpr
    intro p isLive isHere
    obtain ⟨other, member, isBase⟩ := store.home p isLive
    exact newBase other member (isBase.symm.trans (of_decide_eq_true isHere))
  constructor
  · exact addPool_links store isNew nonzero cursor isEnd
  · exact List.nodup_append'.mpr ⟨store.nodup, List.nodup_singleton hdr,
      List.disjoint_singleton.mpr isNew⟩
  · exact cases store.nonzero nonzero
  · exact (addPool_old (old store.pm_mem)).1.trans store.first
  · refine cases (fun other member => ?_) ?_
    · rw [(addPool_old (old member)).1]
      exact store.isPool other member
    · rw [addPool_new different]
      exact isPool
  · have isList : (state.addPool fa hdr chunksHdr mem).inUse.map
        (state.addPool fa hdr chunksHdr mem).base = state.inUse.map state.base ++ [fa.start] := by
      show (state.inUse ++ [hdr]).map _ = _
      rw [List.map_append, mapOld, List.map_singleton, baseNew]
    rw [isList]
    refine List.nodup_append'.mpr ⟨store.bases, List.nodup_singleton _, ?_⟩
    rw [List.disjoint_singleton, List.mem_map]
    rintro ⟨other, member, same⟩
    exact newBase other member same
  · refine cases (fun other member notFirst => ?_) fun _ => ?_
    · rw [baseOld member]
      exact store.inside other member notFirst
    · rw [baseNew]
      exact inChunks
  · refine ⟨extents, ?_⟩
    have isList : (state.addPool fa hdr chunksHdr mem).chunksInUse config =
        state.chunksInUse config ++ [⟨fa.start, 1⟩] := by
      show (((state.inUse ++ [hdr]).map _).filter _).map _ = _
      rw [List.map_append, mapOld, List.map_singleton, baseNew, List.filter_append,
        List.map_append]
      simp [inChunks, State.chunksInUse]
    rw [isList]
    apply holds.perm
    simpa using List.perm_middle.symm
  · refine cases (fun other member => ?_) ?_
    · obtain ⟨sameFa, sameHdr⟩ := @addPool_old state fa hdr chunksHdr mem other (old member)
      rw [sameFa, sameHdr, baseOld member]
      apply (store.manages other member).congr
      intro address low high _
      apply frame
      rw [(store.isPool other member).maxAddr] at high
      have away := apart other member
      unfold State.base at away
      omega
    · rw [baseNew, noneLive, addPool_new different]
      exact manages_new fa mem
  · intro p isLive
    obtain ⟨other, member, isBase⟩ := store.home p isLive
    exact ⟨other, List.mem_append_left _ member, isBase.trans (baseOld member).symm⟩
  · exact store.liveNodup

end AddPool

/-! ## Calls -/

/-- The entries of the other pools keep their space. -/
theorem Sound.others_of_cons {info : FixedAllocatorInfo} {pools : List (Nat × FixedAllocatorInfo)}
    (sound : Sound config state) (isList : state.faPools = (base, info) :: pools)
    {entry : Nat × FixedAllocatorInfo} (member : entry ∈ pools) :
    Entry config state entry ∧ entry.2.hdr ≠ info.hdr := by
  have first := sound.entries (base, info) (isList ▸ List.mem_cons_self)
  have isEntry := sound.entries entry (isList ▸ List.mem_cons_of_mem _ member)
  refine ⟨isEntry, fun same => ?_⟩
  have keys := sound.keys
  rw [isList, List.map_cons, List.nodup_cons] at keys
  apply keys.1
  have isBase : entry.1 = base := isEntry.base.trans (same ▸ first.base.symm)
  show base ∈ pools.map Prod.fst
  rw [← isBase]
  exact List.mem_map_of_mem member

/-- `add_new_pool`. -/
theorem Sound.addNewPool (sound : Sound config state) (isNew : hdr ∉ state.inUse)
    (nonzero : hdr ≠ 0) (isEnd : (state.headers state.lastHdrScanned).nextPoolHdr = 0) :
    EndsAs (addNewPool config hdr state)
      (fun info after => Sound config after ∧ info.hdr = hdr ∧
        info.fa = (after.headers hdr).fa ∧ hdr ∈ after.inUse ∧ after.numAllocated hdr = 0)
      (fun failure after => failure = .badAlloc ∧ Sound config after ∧
        config.chunks.alloc after.chunksHdr after.mem = none) := by
  have different : hdr ≠ state.lastHdrScanned := fun same => isNew (same ▸ sound.cursor)
  unfold FlexFixedAllocator.addNewPool
  rw [get_bind]
  cases allocated : config.chunks.alloc state.chunksHdr state.mem with
  | none => exact ⟨rfl, sound, allocated⟩
  | some taken =>
      obtain ⟨base, chunksHdr, mem⟩ := taken
      obtain ⟨-, low, aligned, high, -⟩ := sound.store.newChunk allocated
      have positive := config.chunks.start_pos
      have small := config.chunks.maxAddr_lt
      obtain ⟨fa, isFa, rfl, isPool⟩ := newPool_eq (by omega) aligned (by omega)
      dsimp only
      rw [isFa]
      have store := sound.store.addPool isNew nonzero sound.cursor isEnd isPool allocated
      have isHeader := @addPool_new state fa hdr chunksHdr mem different
      have isMember : hdr ∈ (state.addPool fa hdr chunksHdr mem).inUse :=
        List.mem_append_right _ (List.mem_singleton_self hdr)
      have noneAllocated : (state.addPool fa hdr chunksHdr mem).numAllocated hdr = 0 := by
        rw [State.numAllocated, isHeader]
      have added : Sound config (state.addPool fa hdr chunksHdr mem) := by
        refine ⟨store, insertPool_keys sound.keys, fun entry member => ?_, isMember⟩
        rcases mem_insertPool member with rfl | old
        · refine ⟨⟨isMember, (addPool_base_new different).symm, by rw [isHeader], ?_⟩, ?_⟩
          · exact .inr ⟨sound.store.nonzero _ sound.cursor, List.mem_append_left _ sound.cursor,
              addPool_next_last⟩
          · rw [noneAllocated]
            decide
        · have isEntry := sound.entries entry old
          have notNew : entry.2.hdr ≠ hdr := fun same => isNew (same ▸ isEntry.inUse)
          obtain ⟨sameFa, sameHdr⟩ := @addPool_old state fa hdr chunksHdr mem _ notNew
          refine ⟨⟨List.mem_append_left _ isEntry.inUse, ?_, isEntry.fa.trans sameFa.symm, ?_⟩, ?_⟩
          · rw [addPool_base_old notNew]
            exact isEntry.base
          · rcases isEntry.prev with isFirst | ⟨prevNonzero, isPrev, isNext⟩
            · exact .inl isFirst
            · refine .inr ⟨prevNonzero, List.mem_append_left _ isPrev, ?_⟩
              have prevOld : entry.2.prev ≠ hdr := fun same => isNew (same ▸ isPrev)
              rw [addPool_next prevOld, isNext]
              intro isLast
              rw [isLast] at isNext
              exact sound.store.nonzero _ isEntry.inUse (isNext.symm.trans isEnd)
          · rw [State.numAllocated, sameHdr]
            exact isEntry.space
      exact ⟨added, rfl, (congrArg PoolHeader.fa isHeader).symm, isMember, noneAllocated⟩

/-- `FlexFixedAllocator::alloc`. -/
theorem Sound.alloc {newHdr : Nat} (sound : Sound config state) (nonzero : newHdr ≠ 0)
    (isNew : newHdr ∉ state.inUse) :
    EndsAs (alloc config newHdr state) (fun _ after => Sound config after)
      (fun failure after => failure = .badAlloc ∧ Sound config after ∧
        config.chunks.alloc after.chunksHdr after.mem = none) := by
  unfold FlexFixedAllocator.alloc
  rw [get_bind]
  cases isList : state.faPools with
  | cons entry pools =>
      obtain ⟨base, info⟩ := entry
      have isEntry := sound.entries (base, info) (isList ▸ List.mem_cons_self)
      obtain ⟨p, faHdr, mem, taken, store, count⟩ := sound.store.exists_take isEntry.inUse
        isEntry.space
      have keys := sound.keys
      rw [isList, List.map_cons, List.nodup_cons] at keys
      dsimp only
      rw [show info.fa = (state.headers info.hdr).fa from isEntry.fa, bind_ok taken, get_bind,
        setPool_numAllocated_self]
      apply EndsAs.ite
      · intro _
        apply sound.took store keys.2
        intro other member
        obtain ⟨isOther, different⟩ := sound.others_of_cons isList member
        exact ⟨isOther, fun same => absurd same different⟩
      · intro notFull
        have space : faHdr.numAllocated < maxObjsPerPool := by
          have below := store.count_le isEntry.inUse
          rw [setPool_numAllocated_self] at below
          omega
        have kept := sound.took store sound.keys fun other member =>
          ⟨sound.entries other member, fun _ => space⟩
        exact kept
  | nil =>
      obtain ⟨before, rest, isInUse⟩ := List.append_of_mem sound.cursor
      have enough : rest.length < chunkBound := by
        have bounded := sound.store.length_lt
        rw [isInUse, List.length_append, List.length_cons] at bounded
        omega
      obtain ⟨prev, last, scanned, isLast, found⟩ := scanPools_ends sound.store isInUse enough
      have moved : Sound config { state with lastHdrScanned := last } :=
        ⟨sound.store.setDram state.faPools last, sound.keys,
          fun entry member => (sound.entries entry member).of_setDram, isLast⟩
      dsimp only
      rw [bind_ok scanned]
      rcases found with ⟨rfl, isEnd⟩ | ⟨prevNonzero, isPrev, space⟩
      · rw [if_neg (not_not.mpr rfl)]
        apply EndsAs.bind (moved.addNewPool isNew nonzero isEnd)
        rintro info added ⟨addedSound, isHdr, isFa, member, noneAllocated⟩
        obtain ⟨p, faHdr, mem, taken, store, count⟩ := addedSound.store.exists_take member (by
          rw [noneAllocated]
          decide)
        rw [isHdr, isFa, taken]
        have kept := addedSound.took store addedSound.keys fun other isOther =>
          ⟨addedSound.entries other isOther, fun _ => by
            rw [count, noneAllocated]
            decide⟩
        exact kept
      · rw [if_pos prevNonzero, get_bind, get_bind]
        obtain ⟨p, faHdr, mem, taken, store, count⟩ := moved.store.exists_take isLast space
        dsimp only at taken ⊢
        rw [bind_ok taken, get_bind, setPool_numAllocated_self]
        apply EndsAs.ite
        · intro isFree
          have keys : ((insertPool ((state.headers last).fa).start
              ⟨(state.headers last).fa, last, prev⟩ state.faPools).map Prod.fst).Nodup :=
            insertPool_keys sound.keys
          refine moved.took store keys fun entry member => ?_
          rcases mem_insertPool member with rfl | old
          · exact ⟨⟨⟨isLast, rfl, rfl, isPrev⟩, space⟩, fun _ => isFree⟩
          · rw [isList] at old
            cases old
        · intro _
          have kept := moved.took store moved.keys fun entry member => by
            have member' : entry ∈ state.faPools := member
            rw [isList] at member'
            cases member'
          exact kept

/-! ## Frees -/

/-- The pointer of a header in the list. -/
theorem Store.next_eq {before rest : List Nat} {next : Nat} (store : Store config state)
    (isList : state.inUse = before ++ hdr :: next :: rest) :
    (state.headers hdr).nextPoolHdr = next := by
  have linked := store.linked
  rw [isList] at linked
  have pointer := linked.next
  rw [links_some rfl] at pointer
  split_ifs at pointer with isEnd
  · cases pointer
  · exact Option.some.inj pointer

/-- The walk finds the header of a pool in use, and the one in front of it. -/
theorem findHdr_eq {before rest : List Nat} {cursor bound : Nat} (store : Store config state)
    (isList : state.inUse = before ++ cursor :: rest) (isPrev : IsPrev config state prev cursor)
    (member : hdr ∈ cursor :: rest) (enough : rest.length < bound) :
    ∃ last, findHdr state.headers (state.base hdr) bound prev cursor = some (last, hdr) ∧
      IsPrev config state last hdr := by
  induction rest generalizing before prev cursor bound with
  | nil =>
      obtain ⟨bound, rfl⟩ := Nat.exists_eq_succ_of_ne_zero (Nat.ne_of_gt enough)
      obtain rfl := List.mem_singleton.mp member
      have isCursor : hdr ∈ state.inUse := by simp [isList]
      have isBase : (state.headers hdr).fa.start = state.base hdr := rfl
      rw [findHdr, if_neg (store.nonzero hdr isCursor), if_pos isBase]
      exact ⟨prev, rfl, isPrev⟩
  | cons next rest ih =>
      obtain ⟨bound, rfl⟩ := Nat.exists_eq_succ_of_ne_zero (Nat.ne_of_gt (Nat.zero_lt_of_lt enough))
      have isCursor : cursor ∈ state.inUse := by simp [isList]
      rw [findHdr, if_neg (store.nonzero cursor isCursor)]
      by_cases same : (state.headers cursor).fa.start = state.base hdr
      · have isMember : hdr ∈ state.inUse := by
          rw [isList]
          exact List.mem_append_right _ member
        obtain rfl := store.base_inj isCursor isMember same
        rw [if_pos same]
        exact ⟨prev, rfl, isPrev⟩
      · have inRest : hdr ∈ next :: rest := by
          rcases List.mem_cons.mp member with rfl | inRest
          · exact absurd rfl same
          · exact inRest
        have isNext := store.next_eq isList
        rw [if_neg same, isNext]
        have isList' : state.inUse = (before ++ [cursor]) ++ next :: rest := by simp [isList]
        apply ih isList' (.inr ⟨store.nonzero cursor isCursor, isCursor, isNext⟩) inRest
        exact Nat.lt_of_succ_lt_succ enough

theorem Store.exists_findHdr (store : Store config state) (member : hdr ∈ state.inUse) :
    ∃ prev, findHdr state.headers (state.base hdr) chunkBound 0 config.pm = some (prev, hdr) ∧
      IsPrev config state prev hdr := by
  have isHead : state.inUse.head? = some config.pm := store.linked.head.symm
  obtain ⟨rest, isList⟩ := List.head?_eq_some_iff.mp isHead
  have bounded := store.length_lt
  rw [isList] at member
  rw [isList, List.length_cons] at bounded
  exact @findHdr_eq config state hdr 0 [] rest config.pm chunkBound store isList (.inl ⟨rfl, rfl⟩)
    member (Nat.lt_of_succ_lt_succ bounded)

/-- A free of a small chunk of a pool that stays. -/
theorem Sound.freeSmallChunk (sound : Sound config state) (member : hdr ∈ state.inUse)
    (isLive : p ∈ state.liveIn (state.base hdr)) (isPrev : IsPrev config state prev hdr) :
    ∃ after, freeSmallChunk (state.headers hdr).fa p hdr prev state = .ok () after ∧
      Sound config after ∧ after.inUse = state.inUse ∧ after.live = state.live.erase p := by
  obtain ⟨store, count⟩ := sound.store.putBack member isLive
  obtain ⟨low, isMultiple, high, -⟩ := (sound.store.manages hdr member).object isLive
  have isBase : poolBase p = state.base hdr := of_decide_eq_true (List.mem_filter.mp isLive).2
  have frees : Frees (state.headers hdr).fa (state.headers hdr).faHdr p :=
    ⟨low, high, Nat.mod_eq_zero_of_dvd isMultiple⟩
  have space : ((state.headers hdr).fa.freeContiguous (state.headers hdr).faHdr state.mem p
      1).1.numAllocated < maxObjsPerPool := by
    have below := sound.store.count_le member
    omega
  unfold FlexFixedAllocator.freeSmallChunk
  rw [get_bind]
  have asserts : ¬ (¬ Frees (state.headers hdr).fa (state.headers hdr).faHdr p ∨
      ((state.headers hdr).fa.freeContiguous (state.headers hdr).faHdr state.mem p
        1).1.numAllocated ≠ (state.headers hdr).faHdr.numAllocated - 1) :=
    not_or.mpr ⟨not_not.mpr frees, not_not.mpr count⟩
  dsimp only
  rw [if_neg asserts]
  refine ⟨_, rfl, ?_, rfl, rfl⟩
  apply sound.setPool store (insertPool_keys sound.keys)
  intro entry isEntry
  rcases mem_insertPool isEntry with rfl | old
  · exact ⟨⟨member, isBase, rfl, isPrev⟩, space_setPool (fun notHere => absurd rfl notHere)
      fun _ => space⟩
  · have placed := sound.entries entry old
    exact ⟨placed.toPlaced, space_setPool (fun _ => placed.space) fun _ => space⟩

/-! ## Pools that go back -/

/-- The store without a pool, whose last small chunk is freed. -/
def State.removePool (state : State) (addr hdr prev : Nat) (chunksHdr : RegionHeader)
    (mem : Memory) : State :=
  { state with
    chunksHdr := chunksHdr
    mem := mem
    headers := Function.update state.headers prev
      { state.headers prev with nextPoolHdr := (state.headers hdr).nextPoolHdr }
    live := state.live.erase addr
    inUse := state.inUse.erase hdr }

section RemovePool

variable {chunksHdr : RegionHeader} {mem : Memory} {addr : Nat}

theorem removePool_headers (other : Nat) :
    ((state.removePool addr hdr prev chunksHdr mem).headers other).fa =
        (state.headers other).fa ∧
      ((state.removePool addr hdr prev chunksHdr mem).headers other).faHdr =
        (state.headers other).faHdr := by
  unfold State.removePool
  by_cases same : other = prev
  · subst same
    simp
  · simp [Function.update_of_ne same]

theorem removePool_next {other : Nat} (different : other ≠ prev) :
    ((state.removePool addr hdr prev chunksHdr mem).headers other).nextPoolHdr =
      (state.headers other).nextPoolHdr := by
  unfold State.removePool
  simp [Function.update_of_ne different]

theorem removePool_next_prev :
    ((state.removePool addr hdr prev chunksHdr mem).headers prev).nextPoolHdr =
      (state.headers hdr).nextPoolHdr := by
  unfold State.removePool
  simp

theorem removePool_base : (state.removePool addr hdr prev chunksHdr mem).base = state.base := by
  funext other
  exact congrArg FixedAllocator.start (removePool_headers other).1

theorem removePool_numAllocated (other : Nat) :
    (state.removePool addr hdr prev chunksHdr mem).numAllocated other =
      state.numAllocated other :=
  congrArg RegionHeader.numAllocated (removePool_headers other).2

theorem removePool_links :
    (state.removePool addr hdr prev chunksHdr mem).links config =
      Function.update (state.links config) (some prev) (state.links config (some hdr)) := by
  funext place
  cases place with
  | none => simp [State.links]
  | some other =>
      by_cases same : other = prev
      · subst same
        rw [links_some removePool_next_prev, Function.update_self]
        rfl
      · have different : some other ≠ some prev := fun equal => same (Option.some.inj equal)
        rw [links_some (removePool_next same), Function.update_of_ne different]
        rfl

/-- A header with one in front of it. -/
theorem Store.exists_split (store : Store config state) (notFirst : hdr ≠ config.pm)
    (isPrev : IsPrev config state prev hdr) (nonzero : hdr ≠ 0) :
    ∃ before rest, state.inUse = (before ++ [prev]) ++ hdr :: rest := by
  rcases isPrev with ⟨-, isFirst⟩ | ⟨-, member, isNext⟩
  · exact absurd isFirst notFirst
  · obtain ⟨before, rest, isList⟩ := List.append_of_mem member
    have linked := store.linked
    rw [isList] at linked
    have pointer := linked.next
    rw [links_some isNext, if_neg nonzero] at pointer
    cases rest with
    | nil => cases pointer
    | cons next rest =>
        obtain rfl := Option.some.inj pointer
        exact ⟨before, rest, by simp [isList]⟩

theorem Store.removePool (store : Store config state) (member : hdr ∈ state.inUse)
    (notFirst : hdr ≠ config.pm) (isPrev : IsPrev config state prev hdr)
    (isLast : state.liveIn (state.base hdr) = [addr]) :
    let freed := config.chunks.freeContiguous state.chunksHdr state.mem (state.base hdr) 1
    Frees config.chunks state.chunksHdr (state.base hdr) ∧
      Store config (state.removePool addr hdr prev freed.1 freed.2) := by
  intro freed
  obtain ⟨before, rest, isList⟩ := store.exists_split notFirst isPrev (store.nonzero hdr member)
  have isErased : state.inUse.erase hdr = (before ++ [prev]) ++ rest := by
    have nodup := store.nodup
    rw [isList] at nodup ⊢
    have notBefore : hdr ∉ before ++ [prev] := fun isBefore =>
      (List.nodup_append'.mp nodup).2.2 isBefore List.mem_cons_self
    rw [List.erase_append_right _ notBefore, List.erase_cons_head]
  have perm : state.inUse.Perm (hdr :: state.inUse.erase hdr) := List.perm_cons_erase member
  have inside := store.inside hdr member notFirst
  obtain ⟨extents, holds⟩ := store.chunks
  let others := ((state.inUse.erase hdr).map state.base).filter fun base =>
    config.chunks.start ≤ base
  have isChunks : (state.chunksInUse config ++ extents).Perm
      (⟨state.base hdr, 1⟩ :: (others.map (⟨·, 1⟩) ++ extents)) := by
    have mapped := ((perm.map state.base).filter fun base => config.chunks.start ≤ base).map
      (⟨·, 1⟩ : Nat → FixedAllocator.Extent)
    rw [List.map_cons, List.filter_cons, if_pos (decide_eq_true inside), List.map_cons] at mapped
    exact mapped.append_right extents
  have isLive : addr ∈ state.liveIn (state.base hdr) := isLast ▸ List.mem_singleton_self addr
  have atBase : poolBase addr = state.base hdr := of_decide_eq_true (List.mem_filter.mp isLive).2
  have kept := holds.perm isChunks
  have isExtent := kept.aligned List.mem_cons_self
  have bounded := (kept.inside List.mem_cons_self).1
  obtain ⟨after, -, frame⟩ := kept.free (config.chunks_size ▸ by decide) List.mem_cons_self
  rw [List.erase_cons_head] at after
  rw [config.chunks_size] at frame
  rw [Nat.one_mul] at bounded
  have old {other : Nat} (isOther : other ∈ state.inUse.erase hdr) :
      other ∈ state.inUse ∧ other ≠ hdr :=
    ⟨List.mem_of_mem_erase isOther, (List.Nodup.mem_erase_iff store.nodup).mp isOther |>.1⟩
  have sublist : (state.inUse.erase hdr).Sublist state.inUse := List.erase_sublist
  refine ⟨⟨isExtent.1, bounded, Nat.mod_eq_zero_of_dvd isExtent.2.2⟩, ?_⟩
  constructor
  · have linked := store.linked
    have nodup := store.nodup
    rw [isList] at linked nodup
    have removed := linked.remove nodup
    rw [List.getLast?_concat] at removed
    show Linked _ none (state.inUse.erase hdr)
    rw [isErased, removePool_links]
    exact removed
  · exact store.nodup.sublist sublist
  · exact fun other isOther => store.nonzero other (old isOther).1
  · exact (removePool_headers config.pm).1.trans store.first
  · intro other isOther
    rw [(removePool_headers other).1]
    exact store.isPool other (old isOther).1
  · rw [removePool_base]
    exact store.bases.sublist (sublist.map state.base)
  · intro other isOther
    rw [removePool_base]
    exact store.inside other (old isOther).1
  · refine ⟨extents, ?_⟩
    rw [State.chunksInUse, removePool_base]
    exact after
  · intro other isOther
    obtain ⟨isOld, different⟩ := old isOther
    obtain ⟨sameFa, sameHdr⟩ := @removePool_headers state hdr prev freed.1 freed.2 addr other
    have apart := store.apart isOld member different
    have sameLive : (state.removePool addr hdr prev freed.1 freed.2).liveIn (state.base other) =
        state.liveIn (state.base other) := by
      show (state.live.erase addr).filter _ = _
      rw [← List.erase_filter, List.erase_of_not_mem]
      · rfl
      · intro isHere
        have same := (of_decide_eq_true (List.mem_filter.mp isHere).2).symm.trans atBase
        exact different (store.base_inj isOld member same)
    rw [removePool_base, sameFa, sameHdr, sameLive]
    apply (store.manages other isOld).congr
    intro address low high _
    apply frame
    rw [(store.isPool other isOld).maxAddr] at high
    unfold State.base at apart ⊢
    omega
  · intro p isLive
    obtain ⟨notFreed, wasLive⟩ := (List.Nodup.mem_erase_iff store.liveNodup).mp isLive
    obtain ⟨other, isOther, isBase⟩ := store.home p wasLive
    refine ⟨other, (List.Nodup.mem_erase_iff store.nodup).mpr ⟨?_, isOther⟩, ?_⟩
    · rintro rfl
      have isHere : p ∈ state.liveIn (state.base other) :=
        List.mem_filter.mpr ⟨wasLive, decide_eq_true isBase⟩
      rw [isLast] at isHere
      exact notFreed (List.mem_singleton.mp isHere)
    · rw [removePool_base]
      exact isBase
  · exact store.liveNodup.erase addr

end RemovePool

/-- An entry after a `prev` pointer has been corrected. -/
theorem mem_setPrev {pools : List (Nat × FixedAllocatorInfo)} {entry : Nat × FixedAllocatorInfo}
    (member : entry ∈ setPrev base prev pools) :
    ∃ old ∈ pools, old.1 = base ∧ entry = (base, { old.2 with prev := prev }) ∨
      old.1 ≠ base ∧ entry = old := by
  obtain ⟨old, isOld, rfl⟩ := List.mem_map.mp member
  by_cases same : old.1 = base
  · exact ⟨old, isOld, .inl ⟨same, if_pos same⟩⟩
  · exact ⟨old, isOld, .inr ⟨same, if_neg same⟩⟩

theorem setPrev_keys (pools : List (Nat × FixedAllocatorInfo)) :
    (setPrev base prev pools).map Prod.fst = pools.map Prod.fst := by
  induction pools with
  | nil => rfl
  | cons entry pools ih =>
      rw [setPrev, List.map_cons, List.map_cons, List.map_cons]
      have sameKey : (if entry.1 = base then (base, { entry.2 with prev := prev }) else
          entry).1 = entry.1 := by
        split_ifs with same
        · exact same.symm
        · rfl
      rw [sameKey]
      exact congrArg (entry.1 :: ·) ih

section Back

variable {chunksHdr : RegionHeader} {mem : Memory} {addr : Nat}

/-- An entry for another pool, with the right `prev` pointer, stays right. -/
theorem Placed.removePool {entry : Nat × FixedAllocatorInfo} (placed : Placed config state entry)
    (store : Store config state) (different : entry.2.hdr ≠ hdr)
    (notFirst : hdr ≠ config.pm) (isPrev : IsPrev config state prev hdr)
    (notNext : (state.headers hdr).nextPoolHdr ≠ entry.2.hdr) :
    Placed config (state.removePool addr hdr prev chunksHdr mem) entry where
  inUse := (List.Nodup.mem_erase_iff store.nodup).mpr ⟨different, placed.inUse⟩
  base := by
    rw [removePool_base]
    exact placed.base
  fa := placed.fa.trans (removePool_headers _).1.symm
  prev := by
    rcases placed.prev with isFirst | ⟨nonzero, isMember, isNext⟩
    · exact .inl isFirst
    · have notHdr : entry.2.prev ≠ hdr := fun same => notNext (same ▸ isNext)
      have notPrev : entry.2.prev ≠ prev := by
        rintro same
        rcases isPrev with ⟨-, isFirst⟩ | ⟨-, -, isHdr⟩
        · exact notFirst isFirst
        · exact different (isNext.symm.trans (same ▸ isHdr))
      refine .inr ⟨nonzero, (List.Nodup.mem_erase_iff store.nodup).mpr ⟨notHdr, isMember⟩, ?_⟩
      rw [removePool_next notPrev, isNext]

/-- The header in front of a pool that goes back. -/
theorem Store.prev_mem (store : Store config state) (member : hdr ∈ state.inUse)
    (notFirst : hdr ≠ config.pm) (isPrev : IsPrev config state prev hdr) :
    prev ≠ 0 ∧ prev ∈ state.inUse.erase hdr := by
  obtain ⟨before, rest, isList⟩ := store.exists_split notFirst isPrev (store.nonzero hdr member)
  rcases isPrev with ⟨-, isFirst⟩ | ⟨nonzero, isMember, -⟩
  · exact absurd isFirst notFirst
  · refine ⟨nonzero, (List.Nodup.mem_erase_iff store.nodup).mpr ⟨?_, isMember⟩⟩
    rintro rfl
    have nodup := store.nodup
    rw [isList] at nodup
    exact (List.nodup_append'.mp nodup).2.2 (List.mem_append_right _ (List.mem_singleton_self _))
      List.mem_cons_self

/-- The header behind one in the list. -/
theorem Store.next_mem (store : Store config state) (member : hdr ∈ state.inUse)
    (notEnd : (state.headers hdr).nextPoolHdr ≠ 0) :
    (state.headers hdr).nextPoolHdr ∈ state.inUse ∧ (state.headers hdr).nextPoolHdr ≠ hdr := by
  obtain ⟨before, rest, isList⟩ := List.append_of_mem member
  have linked := store.linked
  have nodup := store.nodup
  rw [isList] at linked nodup ⊢
  have pointer := linked.next
  rw [links_some rfl, if_neg notEnd] at pointer
  have inRest := List.mem_of_mem_head? pointer.symm
  refine ⟨List.mem_append_right _ (List.mem_cons_of_mem _ inRest), fun same => ?_⟩
  have tail := (List.nodup_append'.mp nodup).2.1
  exact (List.nodup_cons.mp tail).1 (same ▸ inRest)

/-- A free of the last small chunk of a pool other than the first one. -/
theorem Sound.freePool (sound : Sound config state) (member : hdr ∈ state.inUse)
    (notFirst : hdr ≠ config.pm) (isPrev : IsPrev config state prev hdr)
    (isLast : state.liveIn (state.base hdr) = [addr]) :
    ∃ after, freePool config addr hdr prev state = .ok () after ∧ Sound config after ∧
      after.inUse = state.inUse.erase hdr ∧ after.live = state.live.erase addr := by
  have store := sound.store
  obtain ⟨frees, removed⟩ := store.removePool member notFirst isPrev isLast
  obtain ⟨prevNonzero, prevMember⟩ := store.prev_mem member notFirst isPrev
  have isLive : addr ∈ state.liveIn (state.base hdr) := isLast ▸ List.mem_singleton_self addr
  have atBase : poolBase addr = state.base hdr := of_decide_eq_true (List.mem_filter.mp isLive).2
  unfold FlexFixedAllocator.freePool
  rw [get_bind]
  dsimp only
  rw [atBase, if_neg (not_or.mpr ⟨prevNonzero, not_not.mpr frees⟩)]
  refine ⟨_, rfl, ?_, rfl, rfl⟩
  constructor
  · exact removed.setDram _ _
  · refine List.Nodup.sublist (List.Sublist.map Prod.fst List.filter_sublist) ?_
    split_ifs
    · rw [setPrev_keys]
      exact sound.keys
    · exact sound.keys
  · intro entry isEntry
    obtain ⟨inPools, isKept⟩ := List.mem_filter.mp isEntry
    have notBase : entry.1 ≠ state.base hdr := by simpa using isKept
    have other {old : Nat × FixedAllocatorInfo} (isOld : old ∈ state.faPools)
        (sameKey : old.1 = entry.1) : old.2.hdr ≠ hdr := by
      rintro rfl
      exact notBase (sameKey ▸ (sound.entries old isOld).base)
    let freed := config.chunks.freeContiguous state.chunksHdr state.mem (state.base hdr) 1
    have kept {old : Nat × FixedAllocatorInfo} (isOld : old ∈ state.faPools)
        (sameKey : old.1 = entry.1) (notNext : (state.headers hdr).nextPoolHdr ≠ old.2.hdr) :
        Entry config (state.removePool addr hdr prev freed.1 freed.2) old := by
      have isEntry := sound.entries old isOld
      refine ⟨isEntry.toPlaced.removePool store (other isOld sameKey) notFirst isPrev notNext, ?_⟩
      rw [removePool_numAllocated]
      exact isEntry.space
    have isResult : Entry config (state.removePool addr hdr prev freed.1 freed.2) entry := by
      by_cases isEnd : (state.headers hdr).nextPoolHdr = 0
      · rw [if_neg (not_not.mpr isEnd)] at inPools
        apply kept inPools rfl
        rw [isEnd]
        exact (store.nonzero _ (sound.entries entry inPools).inUse).symm
      · rw [if_pos isEnd] at inPools
        have nextBase : (Function.update state.headers prev { state.headers prev with
            nextPoolHdr := (state.headers hdr).nextPoolHdr } (state.headers hdr).nextPoolHdr).fa =
            (state.headers (state.headers hdr).nextPoolHdr).fa :=
          (@removePool_headers state hdr prev freed.1 freed.2 addr _).1
        rw [nextBase] at inPools
        obtain ⟨old, isOld, ⟨isNext, rfl⟩ | ⟨notNext, rfl⟩⟩ := mem_setPrev inPools
        · obtain ⟨nextMember, notHdr⟩ := store.next_mem member isEnd
          have isHdr := sound.entry_of_key nextMember isOld isNext
          have isEntry := sound.entries old isOld
          refine ⟨⟨?_, ?_, isEntry.fa.trans (removePool_headers _).1.symm, ?_⟩, ?_⟩
          · rw [isHdr]
            exact (List.Nodup.mem_erase_iff store.nodup).mpr ⟨notHdr, nextMember⟩
          · rw [removePool_base, isHdr]
            rfl
          · exact .inr ⟨prevNonzero, prevMember, removePool_next_prev.trans isHdr.symm⟩
          · rw [removePool_numAllocated]
            exact isEntry.space
        · apply kept isOld rfl
          intro same
          apply notNext
          rw [same]
          exact (sound.entries entry isOld).base
    exact isResult.of_setDram
  · show (if state.lastHdrScanned = hdr then prev else state.lastHdrScanned) ∈
      state.inUse.erase hdr
    split_ifs with same
    · exact prevMember
    · exact (List.Nodup.mem_erase_iff store.nodup).mpr ⟨same, sound.cursor⟩

end Back

/-- `FlexFixedAllocator::free`.  A pool that goes back has no other live small chunk. -/
theorem Sound.free {addr : Nat} (sound : Sound config state) (isLive : addr ∈ state.live) :
    ∃ after, free config addr state = .ok () after ∧ Sound config after ∧
      after.live = state.live.erase addr ∧
      ∀ hdr ∈ state.inUse, hdr ∉ after.inUse → state.liveIn (state.base hdr) = [addr] := by
  obtain ⟨hdr, member, isBase⟩ := sound.store.home addr isLive
  have isHere : addr ∈ state.liveIn (state.base hdr) :=
    List.mem_filter.mpr ⟨isLive, decide_eq_true isBase⟩
  have freed {prev : Nat} (isPrev : IsPrev config state prev hdr) :
      ∃ after, freeIn config (state.headers hdr).fa addr hdr prev state = .ok () after ∧
        Sound config after ∧ after.live = state.live.erase addr ∧
        ∀ hdr ∈ state.inUse, hdr ∉ after.inUse → state.liveIn (state.base hdr) = [addr] := by
    unfold freeIn
    rw [get_bind]
    by_cases goesBack : state.numAllocated hdr - 1 = 0 ∧ hdr ≠ config.pm
    · have isLast : state.liveIn (state.base hdr) = [addr] := by
        have count := sound.store.count member
        have one : (state.liveIn (state.base hdr)).length = 1 := by omega
        obtain ⟨other, isList⟩ := List.length_eq_one_iff.mp one
        rw [isList] at isHere ⊢
        rw [List.mem_singleton.mp isHere]
      obtain ⟨after, returns, isSound, inUse, live⟩ :=
        sound.freePool member goesBack.2 isPrev isLast
      rw [if_pos goesBack]
      refine ⟨after, returns, isSound, live, fun other wasIn isOut => ?_⟩
      rw [inUse, List.Nodup.mem_erase_iff sound.store.nodup] at isOut
      have isHdr : other = hdr := by
        by_contra different
        exact isOut ⟨different, wasIn⟩
      rw [isHdr, isLast]
    · obtain ⟨after, returns, isSound, inUse, live⟩ :=
        sound.freeSmallChunk member isHere isPrev
      rw [if_neg goesBack]
      exact ⟨after, returns, isSound, live,
        fun other wasIn isOut => absurd (inUse ▸ wasIn) isOut⟩
  unfold FlexFixedAllocator.free
  rw [get_bind, isBase]
  cases found : state.faPools.lookup (state.base hdr) with
  | some info =>
      have isEntry : (state.base hdr, info) ∈ state.faPools := by
        obtain ⟨before, rest, isList, -⟩ := List.lookup_eq_some_iff.mp found
        rw [isList]
        exact List.mem_append_right _ List.mem_cons_self
      have entry := sound.entries _ isEntry
      have isHdr : info.hdr = hdr := sound.entry_of_key member isEntry rfl
      have isFa : info.fa = (state.headers hdr).fa := isHdr ▸ entry.fa
      dsimp only
      rw [isFa, isHdr]
      exact freed (isHdr ▸ entry.prev)
  | none =>
      obtain ⟨prev, walked, isPrev⟩ := sound.store.exists_findHdr member
      dsimp only
      rw [walked]
      exact freed isPrev

/-! ## What else happens -/

/-- Others change the chunks. -/
theorem Sound.others {chunksHdr : RegionHeader} {mem : Memory} (sound : Sound config state)
    (disciplined : Disciplined config state (.others chunksHdr mem)) :
    Sound config { state with chunksHdr := chunksHdr, mem := mem } := by
  obtain ⟨chunks, same⟩ := disciplined
  have store := sound.store
  refine ⟨⟨store.linked, store.nodup, store.nonzero, store.first, store.isPool, store.bases,
    store.inside, chunks, fun hdr member => ?_, store.home, store.liveNodup⟩, sound.keys, ?_,
    sound.cursor⟩
  · have isPool := store.isPool hdr member
    apply (store.manages hdr member).congr
    intro address low high outside
    rw [isPool.maxAddr] at high
    apply same hdr member address low high
    intro p isLive
    by_cases isHere : p ∈ state.liveIn (state.base hdr)
    · have away := outside p isHere
      rwa [isPool.size] at away
    · -- the small chunk lies in another pool
      obtain ⟨other, isOther, isBase, first, last⟩ := store.inPool isLive
      have different : other ≠ hdr := by
        rintro rfl
        exact isHere (List.mem_filter.mpr ⟨isLive, decide_eq_true isBase⟩)
      have apart := store.apart isOther member different
      unfold State.base at apart first last
      omega
  · intro entry member
    have isEntry := sound.entries entry member
    exact ⟨⟨isEntry.inUse, isEntry.base, isEntry.fa, isEntry.prev⟩, isEntry.space⟩

theorem Sound.rehash {pools : List (Nat × FixedAllocatorInfo)} (sound : Sound config state)
    (perm : state.faPools.Perm pools) : Sound config { state with faPools := pools } :=
  ⟨sound.store.setDram pools _, (perm.map Prod.fst).nodup_iff.mp sound.keys, fun entry member =>
    (sound.entries entry (perm.mem_iff.mpr member)).of_setDram, sound.cursor⟩

theorem Sound.reopen (sound : Sound config state) : Sound config (state.reopen config) := by
  have store := sound.store
  refine ⟨store.setDram _ _, ?_, ?_, store.pm_mem⟩
  · unfold State.reopen
    dsimp only
    split_ifs
    · exact List.nodup_singleton _
    · exact List.nodup_nil
  · intro entry member
    unfold State.reopen at member
    dsimp only at member
    split_ifs at member with space
    · obtain rfl := List.mem_singleton.mp member
      refine ⟨⟨store.pm_mem, ?_, store.first.symm, .inl ⟨rfl, rfl⟩⟩, space⟩
      exact congrArg FixedAllocator.start store.first.symm
    · cases member

theorem Created.sound (created : Created config state) : Sound config state := by
  have isFirst {hdr : Nat} (member : hdr ∈ state.inUse) : hdr = config.pm := by
    rw [created.inUse] at member
    exact List.mem_singleton.mp member
  have isPm : config.pm ∈ state.inUse := created.inUse ▸ List.mem_singleton_self _
  have noneLive (base : Nat) : state.liveIn base = [] := by
    rw [State.liveIn, created.live]
    rfl
  constructor
  · constructor
    · rw [created.inUse]
      refine ⟨rfl, ?_⟩
      rw [LinkedList.Linked, links_some (congrArg PoolHeader.nextPoolHdr created.header), if_pos rfl]
    · rw [created.inUse]
      exact List.nodup_singleton _
    · exact fun hdr member => isFirst member ▸ config.pm_ne_zero
    · exact congrArg PoolHeader.fa created.header
    · intro hdr member
      rw [isFirst member, created.header]
      exact config.first_isPool
    · rw [created.inUse]
      exact List.nodup_singleton _
    · exact fun hdr member notFirst => absurd (isFirst member) notFirst
    · exact created.chunks
    · intro hdr member
      rw [isFirst member, noneLive, created.header]
      exact manages_new config.first state.mem
    · rw [created.live]
      exact nofun
    · rw [created.live]
      exact List.nodup_nil
  · rw [created.faPools]
    exact List.nodup_singleton _
  · rw [created.faPools]
    intro entry member
    obtain rfl := List.mem_singleton.mp member
    refine ⟨⟨isPm, ?_, ?_, .inl ⟨rfl, rfl⟩⟩, ?_⟩
    · rw [State.base, created.header]
    · rw [created.header]
    · rw [State.numAllocated, created.header]
      exact (by decide : (0 : Int) < maxObjsPerPool)
  · rw [created.lastHdrScanned]
    exact isPm

/-! ## Runs -/

theorem sound_step {label : Label} (sound : Sound config state)
    (disciplined : Disciplined config state label) :
    ∃ after, step config state label = some after ∧ Sound config after := by
  cases label with
  | alloc newHdr =>
      have ends := sound.alloc disciplined.1 disciplined.2
      rw [step]
      cases called : alloc config newHdr state with
      | ok p after =>
          rw [called] at ends
          exact ⟨after, rfl, ends⟩
      | error failure after =>
          rw [called] at ends
          obtain ⟨rfl, isSound, -⟩ := ends
          exact ⟨after, rfl, isSound⟩
  | free addr =>
      obtain ⟨after, returns, isSound, -, -⟩ := sound.free disciplined
      rw [step, returns]
      exact ⟨after, rfl, isSound⟩
  | others chunksHdr mem => exact ⟨_, rfl, sound.others disciplined⟩
  | rehash pools => exact ⟨_, rfl, sound.rehash disciplined⟩
  | reopen => exact ⟨_, rfl, sound.reopen⟩

theorem Sound.intact (sound : Sound config state) : Intact config state := by
  have store := sound.store
  refine ⟨?_, ?_, ⟨store.linked, store.nodup⟩, ?_, store.chunks, ?_⟩
  · apply store.liveNodup.pairwise_of_forall_ne
    intro p isLive q isOther different
    obtain ⟨hdr, member, isBase, low, high⟩ := store.inPool isLive
    obtain ⟨other, isMember, isOtherBase, otherLow, otherHigh⟩ := store.inPool isOther
    by_cases same : hdr = other
    · subst same
      have isPool := store.isPool hdr member
      have first := (store.manages hdr member).object
        (List.mem_filter.mpr ⟨isLive, decide_eq_true isBase⟩)
      have second := (store.manages hdr member).object
        (List.mem_filter.mpr ⟨isOther, decide_eq_true isOtherBase⟩)
      have apart := FixedAllocator.disjoint_of_ne first.2.1 second.2.1 different
      rwa [isPool.size] at apart
    · have apart := store.apart member isMember same
      omega
  · intro p isLive
    obtain ⟨hdr, member, -, inside⟩ := store.inPool isLive
    exact ⟨hdr, member, inside⟩
  · apply store.bases.pairwise_of_forall_ne
    intro p isBase q isOther different
    obtain ⟨hdr, member, rfl⟩ := List.mem_map.mp isBase
    obtain ⟨other, isMember, rfl⟩ := List.mem_map.mp isOther
    exact store.apart member isMember fun same => different (congrArg state.base same)
  · intro entry member
    have isEntry := sound.entries entry member
    exact ⟨isEntry.inUse, isEntry.base, isEntry.prev⟩

/-- A pool is only given back when none of its small chunks is live. -/
theorem Sound.emptyPools {addr : Nat} (sound : Sound config state) (isLive : addr ∈ state.live)
    (stepped : step config state (.free addr) = some after) : GivesBackEmpty state after := by
  obtain ⟨reached, returns, -, live, last⟩ := sound.free isLive
  rw [step, returns] at stepped
  obtain rfl := Option.some.inj stepped
  intro hdr member isOut p stillLive inside
  have isLast := last hdr member isOut
  rw [live, List.Nodup.mem_erase_iff sound.store.liveNodup] at stillLive
  have isBase := poolBase_eq (sound.store.aligned member) inside.1 inside.2
  have isHere : p ∈ state.liveIn (state.base hdr) :=
    List.mem_filter.mpr ⟨stillLive.2, decide_eq_true isBase⟩
  rw [isLast] at isHere
  exact stillLive.1 (List.mem_singleton.mp isHere)

/-- In every run of a new unit no assertion fails, what is promised holds at its end, and a free
there gives back only pools without a live small chunk. -/
theorem intact_of_run {labels : List Label} (created : Created config state)
    (disciplined : MeetsAlong (step config) (Disciplined config) state labels) :
    ∃ last, run (step config) state labels = some last ∧ Intact config last ∧
      ∀ addr ∈ last.live, ∃ next, step config last (.free addr) = some next ∧
        GivesBackEmpty last next := by
  obtain ⟨last, reaches, sound⟩ := exists_run_invariant (Sound config)
    (fun _ _ isSound isDisciplined => sound_step isSound isDisciplined) created.sound disciplined
  refine ⟨last, reaches, sound.intact, fun addr isLive => ?_⟩
  obtain ⟨next, stepped, -⟩ := @sound_step config last (.free addr) sound isLive
  exact ⟨next, stepped, sound.emptyPools isLive stepped⟩

/-- A unit whose first pool is in front of the chunks. -/
def firstUnit : Config where
  chunks := ⟨2 * chunkSize, 21, 100 * chunkSize, AllocatorUnit.chunkBits_ge,
    AllocatorUnit.two_chunkSize_pos, ⟨2, rfl⟩, by decide⟩
  pm := 64
  first := ⟨chunkSize, 12, 2 * chunkSize, AllocatorUnit.smallChunkBits_ge,
    AllocatorUnit.chunkSize_pos, ⟨512, rfl⟩, by decide⟩
  chunks_size := rfl
  pm_ne_zero := by decide
  first_isPool := ⟨rfl, dvd_rfl, rfl⟩
  apart := .inl le_rfl

def firstState : State where
  chunksHdr := ⟨2 * chunkSize, 0, 0⟩
  mem := fun _ => 0
  headers := fun _ => ⟨firstUnit.first, 0, ⟨chunkSize, 0, 0⟩⟩
  faPools := [(chunkSize, ⟨firstUnit.first, 64, 0⟩)]
  lastHdrScanned := 64
  live := []
  inUse := [64]

theorem firstState_created : Created firstUnit firstState := by
  refine ⟨⟨[], ?_⟩, rfl, rfl, rfl, rfl, rfl⟩
  exact manages_new firstUnit.chunks _

/-- The discipline, where others do nothing. -/
def isCall (state : State) : Label → Bool
  | .alloc newHdr => decide (newHdr ≠ 0 ∧ newHdr ∉ state.inUse)
  | .free addr => decide (addr ∈ state.live)
  | .reopen => true
  | _ => false

theorem disciplined_of_isCall {label : Label} (called : isCall state label = true) :
    Disciplined config state label := by
  cases label with
  | alloc newHdr =>
      have holds : newHdr ≠ 0 ∧ newHdr ∉ state.inUse := of_decide_eq_true called
      exact holds
  | free addr =>
      have holds : addr ∈ state.live := of_decide_eq_true called
      exact holds
  | reopen => trivial
  | others chunksHdr mem | rehash pools => cases called

/-- The first unit when it has handed out so many small chunks of its first pool. -/
def filled (count : Nat) : State where
  chunksHdr := firstState.chunksHdr
  mem := firstState.mem
  headers := Function.update firstState.headers 64
    ⟨firstUnit.first, 0, ⟨chunkSize + count * smallChunkSize, 0, count⟩⟩
  faPools := if count = maxObjsPerPool then [] else firstState.faPools
  lastHdrScanned := 64
  live := (List.range count).reverse.map fun index => chunkSize + index * smallChunkSize
  inUse := [64]

theorem filled_zero : filled 0 = firstState := by
  have sameHeaders : Function.update firstState.headers 64
      ⟨firstUnit.first, 0, ⟨chunkSize + 0 * smallChunkSize, 0, (0 : Nat)⟩⟩ = firstState.headers :=
    Function.update_eq_self 64 firstState.headers
  rw [filled, sameHeaders]
  rfl

theorem take_filled {count : Nat} (less : count < 512) :
    firstUnit.first.alloc ⟨chunkSize + count * smallChunkSize, 0, count⟩ firstState.mem =
      some (chunkSize + count * smallChunkSize,
        ⟨chunkSize + (count + 1) * smallChunkSize, 0, (count + 1 : Nat)⟩, firstState.mem) := by
  have isSize : firstUnit.first.size = smallChunkSize := rfl
  have isEnd : firstUnit.first.maxAddr = chunkSize + 512 * smallChunkSize := rfl
  have fits : chunkSize + (count + 1) * smallChunkSize ≤ chunkSize + 512 * smallChunkSize :=
    Nat.add_le_add_left (Nat.mul_le_mul_right _ less) _
  have isNext : chunkSize + count * smallChunkSize + smallChunkSize =
      chunkSize + (count + 1) * smallChunkSize := by
    rw [Nat.succ_mul, Nat.add_assoc]
  rw [FixedAllocator.alloc, if_neg (not_not.mpr rfl)]
  dsimp only
  rw [isSize, isEnd, isNext, if_neg (Nat.not_lt.mpr fits)]
  rfl

theorem take_eq {count : Nat} (less : count < 512) :
    take firstUnit.first 64 (filled count) = .ok (chunkSize + count * smallChunkSize)
      { filled (count + 1) with faPools := (filled count).faPools } := by
  have isHeader : ((filled count).headers 64).faHdr =
    ⟨chunkSize + count * smallChunkSize, 0, count⟩ := rfl
  have sameMem : (filled count).mem = firstState.mem := rfl
  have sameHeaders : Function.update (filled count).headers 64 { (filled count).headers 64 with
      faHdr := ⟨chunkSize + (count + 1) * smallChunkSize, 0, (count + 1 : Nat)⟩ } =
        (filled (count + 1)).headers := Function.update_idem _ _ _
  have isLive : (chunkSize + count * smallChunkSize) :: (filled count).live =
      (filled (count + 1)).live := by
    rw [filled, filled, List.range_succ, List.reverse_concat, List.map_cons]
  rw [take, get_bind, isHeader, sameMem, take_filled less]
  dsimp only
  rw [← isLive, ← sameHeaders]
  rfl

theorem step_filled {count newHdr : Nat} (less : count < 512) :
    step firstUnit (filled count) (.alloc newHdr) = some (filled (count + 1)) := by
  have notFull : (filled count).faPools = firstState.faPools := if_neg less.ne
  have taken := take_eq less
  rw [notFull] at taken
  have called : alloc firstUnit newHdr (filled count) =
      .ok (chunkSize + count * smallChunkSize) (filled (count + 1)) := by
    rw [alloc, get_bind, notFull, firstState]
    dsimp only
    rw [bind_ok taken, get_bind]
    have counted : State.numAllocated { filled (count + 1) with faPools := firstState.faPools } 64 =
      (count + 1 : Nat) := rfl
    rw [counted]
    by_cases full : count + 1 = 512
    · have emptied : (filled (count + 1)).faPools = [] := if_pos full
      have isFull : ((count + 1 : Nat) : Int) = maxObjsPerPool := congrArg Int.ofNat full
      rw [if_pos isFull]
      exact congrArg (fun pools => EStateM.Result.ok (chunkSize + count * smallChunkSize)
        { filled (count + 1) with faPools := pools }) emptied.symm
    · have still : (filled (count + 1)).faPools = firstState.faPools := if_neg full
      have notYet : ((count + 1 : Nat) : Int) ≠ maxObjsPerPool := fun same => full (Int.ofNat.inj same)
      rw [if_neg notYet, ← still]
      rfl
  rw [step, called]

/-- All small chunks of the first pool are taken. -/
theorem run_filled {count : Nat} (fits : count ≤ 512) :
    run (step firstUnit) firstState (List.replicate count (.alloc 128)) = some (filled count) ∧
      MeetsAlong (step firstUnit) (Disciplined firstUnit) firstState
        (List.replicate count (.alloc 128)) := by
  induction count with
  | zero => exact ⟨congrArg some filled_zero.symm, trivial⟩
  | succ count ih =>
      obtain ⟨reaches, meets⟩ := ih (Nat.le_of_succ_le fits)
      have stepped := @step_filled count 128 fits
      rw [List.replicate_succ', run_append, reaches, meetsAlong_append]
      refine ⟨?_, meets, fun middle isMiddle => ?_⟩
      · rw [Option.bind_some, run_cons_of_step [] stepped, run_nil]
      · obtain rfl := Option.some.inj (reaches.symm.trans isMiddle)
        have isNew : 128 ∉ [64] := by decide
        exact ⟨⟨by decide, isNew⟩, fun _ _ => trivial⟩

/-- A second pool is made and given back, and after the unit was opened another one is made. -/
def secondPool : List Label :=
  [.alloc 128, .free (2 * chunkSize), .reopen, .alloc 192]

theorem intact_of_run_secondPool :
    ∃ last, run (step firstUnit) firstState (List.replicate 512 (.alloc 128) ++ secondPool) =
        some last ∧ Intact firstUnit last ∧ last.inUse = [64, 192] ∧
      [[Label.alloc 128], [.alloc 128, .free (2 * chunkSize)]].map (fun labels =>
        (run (step firstUnit) firstState (List.replicate 512 (.alloc 128) ++ labels)).map
          State.inUse) = [some [64, 128], some [64]] := by
  obtain ⟨reaches, meets⟩ := run_filled le_rfl
  have isRun (labels : List Label) :
      run (step firstUnit) firstState (List.replicate 512 (.alloc 128) ++ labels) =
        run (step firstUnit) (filled 512) labels := by
    rw [run_append, reaches, Option.bind_some]
  have called : MeetsAlong (step firstUnit) (fun state label => isCall state label = true)
      (filled 512) secondPool := by
    decide
  have isOther : (run (step firstUnit) (filled 512) secondPool).map State.inUse =
      some [64, 192] := by
    decide
  obtain ⟨last, isLast, intact, -⟩ := intact_of_run firstState_created
    (meetsAlong_append.mpr ⟨meets, fun middle isMiddle => by
      obtain rfl := Option.some.inj (reaches.symm.trans isMiddle)
      exact called.mono fun _ _ => disciplined_of_isCall⟩)
  rw [← isRun, isLast, Option.map_some, Option.some.injEq] at isOther
  refine ⟨last, isLast, intact, isOther, ?_⟩
  simp only [List.map_cons, List.map_nil, isRun]
  decide

end FlexFixedAllocator

end Pmgd
