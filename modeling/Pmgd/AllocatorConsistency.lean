import Pmgd.FreeFormAllocation

/-!
# Consistent allocators

An allocator unit is consistent when no object that is in use is free: the free lists and the
rest behind the tails have other chunks than the ones in use, and what the lists of the unit
refer to is in use.  Every allocation keeps this, with more objects in use.
-/

namespace Pmgd.AllocatorUnit

open UndoLog ThrowingState

variable {region : Region} {mem mem' : Cell → Nat} {used more : Nat → Prop} {p q : Nat}

/-! ## Regions -/

/-- Where the objects of a region are. -/
def Home : Region → Nat → Prop
  | .chunks, p => chunkSize ∣ p
  | .pool base, p => base ≤ p ∧ p < base + chunkSize

/-- Where the tail of a region is; `limit` is its `max_addr`. -/
def TailOk : Region → Nat → Nat → Prop
  | .chunks, tail, _ => chunkSize ∣ tail ∧ 0 < tail
  | .pool base, tail, limit => base ≤ tail ∧ limit = base + chunkSize

/-- The free list. -/
def LinkedFree (region : Region) (mem : Cell → Nat) : Nat → List Nat → Prop
  | free, [] => free = 0
  | free, p :: rest =>
      free = p ∧ p ≠ 0 ∧
        LinkedFree region mem (mem (.link region p) - mem (.link region p) % 2) rest

/-- The objects on the free list and behind the tail are not in use. -/
structure RegionOk (region : Region) (mem : Cell → Nat) (used : Nat → Prop) : Prop where
  free : ∃ list, LinkedFree region mem (mem (.freePtr region)) list ∧ list.Nodup ∧
    ∀ p ∈ list, ¬ used p ∧ Home region p ∧ p < mem (.tailPtr region)
  below : ∀ p, used p → Home region p → p < mem (.tailPtr region)
  tail : TailOk region (mem (.tailPtr region)) (mem (.maxAddr region))

theorem Region.size_pos (region : Region) : 0 < region.size := by
  cases region with
  | chunks => exact Nat.two_pow_pos 21
  | pool base => exact Nat.two_pow_pos 12

theorem LinkedFree.congr {free : Nat} {list : List Nat} (linked : LinkedFree region mem free list)
    (same : ∀ p ∈ list, mem' (.link region p) = mem (.link region p)) :
    LinkedFree region mem' free list := by
  induction list generalizing free with
  | nil => exact linked
  | cons p rest ih =>
      obtain ⟨isFree, nonzero, linkedRest⟩ := linked
      refine ⟨isFree, nonzero, ?_⟩
      rw [same p List.mem_cons_self]
      exact ih linkedRest fun other member => same other (List.mem_cons_of_mem p member)

namespace RegionOk

theorem congr (ok : RegionOk region mem used)
    (same : ∀ cell, RegionCell region cell → mem' cell = mem cell)
    (sameMax : mem' (.maxAddr region) = mem (.maxAddr region)) : RegionOk region mem' used := by
  have tail := same (.tailPtr region) rfl
  have free := same (.freePtr region) rfl
  obtain ⟨list, linked, distinct, areFree⟩ := ok.free
  refine ⟨⟨list, ?_, distinct, ?_⟩, ?_, ?_⟩
  · rw [free]
    exact linked.congr fun other _ => same (.link region other) rfl
  · rw [tail]
    exact areFree
  · rw [tail]
    exact ok.below
  · rw [tail, sameMax]
    exact ok.tail

theorem mono (ok : RegionOk region mem used) (isUsed : ∀ p, more p → Home region p → used p) :
    RegionOk region mem more := by
  obtain ⟨list, linked, distinct, areFree⟩ := ok.free
  refine ⟨⟨list, linked, distinct, fun p member => ?_⟩, fun p isMore home => ?_, ok.tail⟩
  · obtain ⟨notUsed, home, below⟩ := areFree p member
    exact ⟨fun isMore => notUsed (isUsed p isMore home), home, below⟩
  · exact ok.below p (isUsed p isMore home) home

theorem tail_home (ok : RegionOk region mem used)
    (fits : mem (.tailPtr region) + region.size ≤ mem (.maxAddr region)) :
    Home region (mem (.tailPtr region)) := by
  have isTail := ok.tail
  cases region with
  | chunks => exact isTail.1
  | pool base =>
      refine ⟨isTail.1, ?_⟩
      rw [isTail.2] at fits
      have positive := Region.size_pos (.pool base)
      omega

theorem tail_grows (ok : RegionOk region mem used) :
    TailOk region (mem (.tailPtr region) + region.size) (mem (.maxAddr region)) := by
  have isTail := ok.tail
  cases region with
  | chunks => exact ⟨Nat.dvd_add isTail.1 (Nat.dvd_refl chunkSize), Nat.add_pos_left isTail.2 _⟩
  | pool base => exact ⟨isTail.1.trans (Nat.le_add_right _ _), isTail.2⟩

/-- A new object was not in use. -/
theorem takes (ok : RegionOk region mem used) (taken : Takes region mem p mem')
    (sameMax : mem' (.maxAddr region) = mem (.maxAddr region)) :
    ¬ used p ∧ Home region p ∧ RegionOk region mem' (fun other => used other ∨ other = p) := by
  obtain ⟨list, linked, distinct, areFree⟩ := ok.free
  cases taken with
  | listed isFree nonzero next tail links =>
      cases list with
      | nil => exact absurd (isFree.symm.trans linked) nonzero
      | cons first rest =>
          obtain ⟨isFirst, -, linkedRest⟩ := linked
          obtain rfl : first = p := isFirst.symm.trans isFree
          obtain ⟨notIn, distinctRest⟩ := List.nodup_cons.mp distinct
          obtain ⟨notUsed, home, below⟩ := areFree first List.mem_cons_self
          refine ⟨notUsed, home, ⟨rest, ?_, distinctRest, fun other member => ?_⟩,
            fun other isUsed otherHome => ?_, ?_⟩
          · rw [next]
            exact linkedRest.congr fun other member =>
              links other fun same => notIn (same ▸ member)
          · obtain ⟨otherUnused, otherHome, otherBelow⟩ :=
              areFree other (List.mem_cons_of_mem first member)
            rw [tail]
            exact ⟨not_or.mpr ⟨otherUnused, fun same => notIn (same ▸ member)⟩, otherHome,
              otherBelow⟩
          · rw [tail]
            rcases isUsed with old | rfl
            · exact ok.below other old otherHome
            · exact below
          · rw [tail, sameMax]
            exact ok.tail
  | grown isEmpty isTail fits next tail links =>
      subst isTail
      have home := ok.tail_home fits
      have positive := region.size_pos
      refine ⟨fun isUsed => (ok.below _ isUsed home).false, home, ⟨list, ?_, distinct,
        fun other member => ?_⟩, fun other isUsed otherHome => ?_, ?_⟩
      · rw [next, ← isEmpty]
        exact linked.congr fun other _ => links other
      · obtain ⟨otherUnused, otherHome, otherBelow⟩ := areFree other member
        rw [tail]
        exact ⟨not_or.mpr ⟨otherUnused, fun same => otherBelow.ne same⟩, otherHome, by omega⟩
      · rw [tail]
        rcases isUsed with old | rfl
        · exact (ok.below other old otherHome).trans (Nat.lt_add_of_pos_right positive)
        · exact Nat.lt_add_of_pos_right positive
      · rw [tail, sameMax]
        exact ok.tail_grows

end RegionOk

theorem RegionOk.takesRun {num : Nat} (ok : RegionOk .chunks mem used)
    (taken : TakesRun num mem p mem')
    (sameMax : mem' (.maxAddr .chunks) = mem (.maxAddr .chunks)) :
    ¬ used p ∧ RegionOk .chunks mem' used := by
  obtain ⟨list, linked, distinct, areFree⟩ := ok.free
  have isTail := taken.isTail
  subst isTail
  have aligned : chunkSize ∣ num * chunkSize % wordValues := by
    refine (Nat.dvd_mod_iff ?_).mpr (Nat.dvd_mul_left chunkSize num)
    exact ⟨2 ^ 11, by decide⟩
  refine ⟨fun isUsed => (ok.below _ isUsed ok.tail.1).false, ⟨list, ?_, distinct,
    fun other member => ?_⟩, fun other isUsed home => ?_, ?_⟩
  · rw [taken.next]
    exact linked.congr fun other _ => taken.links other
  · obtain ⟨otherUnused, otherHome, otherBelow⟩ := areFree other member
    rw [taken.tail]
    exact ⟨otherUnused, otherHome, otherBelow.trans_le (Nat.le_add_right _ _)⟩
  · rw [taken.tail]
    exact (ok.below other isUsed home).trans_le (Nat.le_add_right _ _)
  · rw [taken.tail, sameMax]
    exact ⟨Nat.dvd_add ok.tail.1 aligned, Nat.add_pos_left ok.tail.2 _⟩

/-! ## Units -/

/-- What is in use: free-form chunks, chunks that stay in use when the running transaction
aborts, pools, and small chunks. -/
structure InUse where
  forms : Nat → Prop
  chunks : Nat → Prop
  pools : Nat → Prop
  blocks : Nat → Prop

/-- The lists of a unit refer to pools. -/
structure PoolsOk (pools : Nat → Prop) (mem : Cell → Nat) (dram : Dram) : Prop where
  listed : ∀ pool ∈ dram.pools, pools pool
  last : pools dram.lastHdrScanned
  next : ∀ pool, pools pool →
    mem (.nextPoolHdr pool) = 0 ∨ pools (mem (.nextPoolHdr pool))

/-- The lists of a unit refer to small chunks. -/
structure FixedOk (blocks : Nat → Prop) (mem : Cell → Nat) (dram : Dram) : Prop where
  listed : ∀ index, ∀ chunk ∈ dram.fixedChunks index, blocks chunk
  toScan : ∀ index, dram.fixedToScan index = 0 ∨ blocks (dram.fixedToScan index)
  last : ∀ index, dram.lastFixed index = 0 ∨ blocks (dram.lastFixed index)
  next : ∀ chunk, blocks chunk →
    mem (.nextFixed chunk) = 0 ∨ blocks (mem (.nextFixed chunk))

structure Consistent (use : InUse) (mem : Cell → Nat) (dram : Dram) : Prop where
  forms : FormsOk use.forms mem dram
  pools : PoolsOk use.pools mem dram
  fixed : FixedOk use.blocks mem dram
  aligned : ∀ chunk, use.chunks chunk → chunkSize ∣ chunk
  chunks : RegionOk .chunks mem use.chunks
  poolChunk : ∀ pool, use.pools pool → use.chunks pool
  pool : ∀ pool, use.pools pool → RegionOk (.pool pool) mem use.blocks
  blocks : ∀ block, use.blocks block → ∃ pool, use.pools pool ∧ Home (.pool pool) block

/-- The cells whose values consistency depends on. -/
def StructureCell : Cell → Prop
  | .tailPtr _ | .freePtr _ | .numAllocated _ | .maxAddr _ | .link _ _ | .nextPoolHdr _
  | .nextFreeForm _ | .nextFixed _ => True
  | _ => False

theorem RegionCell.isStructure {cell : Cell} (isRegion : RegionCell region cell) :
    StructureCell cell := by
  cases cell
  all_goals first
    | exact isRegion.elim
    | trivial

variable {use : InUse} {dram : Dram}

theorem Consistent.congr (consistent : Consistent use mem dram)
    (same : ∀ cell, StructureCell cell → mem' cell = mem cell) : Consistent use mem' dram where
  forms :=
    { nonzero := consistent.forms.nonzero
      listed := consistent.forms.listed
      toScan := consistent.forms.toScan
      last := consistent.forms.last
      next := fun chunk => by
        rw [same (.nextFreeForm chunk) trivial]
        exact consistent.forms.next chunk }
  pools :=
    { listed := consistent.pools.listed
      last := consistent.pools.last
      next := fun pool => by
        rw [same (.nextPoolHdr pool) trivial]
        exact consistent.pools.next pool }
  fixed :=
    { listed := consistent.fixed.listed
      toScan := consistent.fixed.toScan
      last := consistent.fixed.last
      next := fun chunk => by
        rw [same (.nextFixed chunk) trivial]
        exact consistent.fixed.next chunk }
  aligned := consistent.aligned
  chunks := consistent.chunks.congr (fun cell isRegion => same cell isRegion.isStructure)
    (same _ trivial)
  poolChunk := consistent.poolChunk
  pool pool isPool := (consistent.pool pool isPool).congr
    (fun cell isRegion => same cell isRegion.isStructure) (same _ trivial)
  blocks := consistent.blocks

/-- Different pools have different objects. -/
theorem pool_disjoint (aligned : chunkSize ∣ p) (alsoAligned : chunkSize ∣ q) {block : Nat}
    (inside : Home (.pool p) block) (alsoInside : Home (.pool q) block) : p = q := by
  obtain ⟨i, rfl⟩ := aligned
  obtain ⟨j, rfl⟩ := alsoAligned
  obtain ⟨lower, upper⟩ := inside
  obtain ⟨lower', upper'⟩ := alsoInside
  have quotient (k : Nat) (below : chunkSize * k ≤ block)
      (above : block < chunkSize * k + chunkSize) : block / chunkSize = k := by
    refine Nat.div_eq_of_lt_le ?_ ?_
    · rwa [Nat.mul_comm]
    · rwa [Nat.add_mul, Nat.one_mul, Nat.mul_comm k]
  rw [← quotient i lower upper, ← quotient j lower' upper']

/-! ## Growing use -/

/-- More is in use; new free-form chunks are among the chunks that stay in use. -/
structure InUse.Grows (use more : InUse) : Prop where
  forms : ∀ p, more.forms p → use.forms p ∨ more.chunks p
  chunks : ∀ p, use.chunks p → more.chunks p
  pools : ∀ p, use.pools p → more.pools p
  blocks : ∀ p, use.blocks p → more.blocks p

theorem InUse.Grows.refl : use.Grows use :=
  ⟨fun _ => .inl, fun _ => id, fun _ => id, fun _ => id⟩

theorem InUse.Grows.trans {more most : InUse} (first : use.Grows more) (second : more.Grows most) :
    use.Grows most where
  forms p isForm := by
    rcases second.forms p isForm with old | isChunk
    · exact (first.forms p old).imp_right (second.chunks p)
    · exact .inr isChunk
  chunks p isChunk := second.chunks p (first.chunks p isChunk)
  pools p isPool := second.pools p (first.pools p isPool)
  blocks p isBlock := second.blocks p (first.blocks p isBlock)

/-- The structure of pools and small chunks. -/
def SmallCell : Cell → Prop
  | .tailPtr (.pool _) | .freePtr (.pool _) | .maxAddr (.pool _) | .link (.pool _) _
  | .numAllocated (.pool _) | .nextPoolHdr _ | .nextFixed _ => True
  | _ => False

variable {dram' : Dram} {forms chunks : Nat → Prop}

/-- The header of a pool. -/
def PoolCell (pool : Nat) : Cell → Prop
  | .tailPtr (.pool other) | .freePtr (.pool other) | .maxAddr (.pool other)
  | .numAllocated (.pool other) | .nextPoolHdr other => other = pool
  | _ => False

namespace RegionCell

variable {cell : Cell}

theorem ne_nextPoolHdr (isRegion : RegionCell region cell) (pool : Nat) :
    cell ≠ .nextPoolHdr pool := by
  rintro rfl
  exact isRegion

theorem ne_nextFixed (isRegion : RegionCell region cell) (chunk : Nat) :
    cell ≠ .nextFixed chunk := by
  rintro rfl
  exact isRegion

theorem not_pool {pool : Nat} (isRegion : RegionCell region cell) (different : region ≠ .pool pool) :
    ¬ PoolCell pool cell := by
  intro isPool
  cases cell
  case tailPtr other | freePtr other | numAllocated other =>
    cases other with
    | chunks => exact isPool
    | pool base => exact different (isRegion.symm.trans (congrArg Region.pool isPool))
  all_goals first
    | exact isRegion
    | exact isPool

theorem isSmall {pool : Nat} (isRegion : RegionCell (.pool pool) cell) : SmallCell cell := by
  cases cell
  all_goals first
    | exact isRegion.elim
    | obtain rfl := isRegion; trivial

end RegionCell

/-- Something happens to chunks, and nothing to pools. -/
theorem Consistent.withChunks (consistent : Consistent use mem dram)
    (isForms : FormsOk forms mem' dram') (isChunks : RegionOk .chunks mem' chunks)
    (aligned : ∀ chunk, chunks chunk → chunkSize ∣ chunk)
    (grows : ∀ chunk, use.chunks chunk → chunks chunk) (small : dram'.small = dram.small)
    (same : ∀ cell, SmallCell cell → mem' cell = mem cell) :
    Consistent { use with forms := forms, chunks := chunks } mem' dram' := by
  have pools : dram'.pools = dram.pools := congrArg (·.pools) small
  have last : dram'.lastHdrScanned = dram.lastHdrScanned := congrArg (·.lastHdrScanned) small
  have fixedChunks : dram'.fixedChunks = dram.fixedChunks := congrArg (·.fixedChunks) small
  have toScan : dram'.fixedToScan = dram.fixedToScan := congrArg (·.fixedToScan) small
  have lastFixed : dram'.lastFixed = dram.lastFixed := congrArg (·.lastFixed) small
  constructor
  · exact isForms
  · refine ⟨?_, ?_, fun pool isPool => ?_⟩
    · rw [pools]
      exact consistent.pools.listed
    · rw [last]
      exact consistent.pools.last
    · rw [same (.nextPoolHdr pool) trivial]
      exact consistent.pools.next pool isPool
  · refine ⟨?_, ?_, ?_, fun chunk isBlock => ?_⟩
    · rw [fixedChunks]
      exact consistent.fixed.listed
    · rw [toScan]
      exact consistent.fixed.toScan
    · rw [lastFixed]
      exact consistent.fixed.last
    · rw [same (.nextFixed chunk) trivial]
      exact consistent.fixed.next chunk isBlock
  · exact aligned
  · exact isChunks
  · exact fun pool isPool => grows pool (consistent.poolChunk pool isPool)
  · refine fun pool isPool => (consistent.pool pool isPool).congr (fun cell isRegion => ?_) ?_
    · exact same cell isRegion.isSmall
    · exact same (.maxAddr (.pool pool)) trivial
  · exact consistent.blocks

/-- A chunk is taken that stays in use. -/
theorem Consistent.takeChunk (consistent : Consistent use mem dram)
    (taken : Takes .chunks mem p mem') (sameMax : mem' (.maxAddr .chunks) = mem (.maxAddr .chunks)) :
    ¬ use.chunks p ∧ chunkSize ∣ p ∧ RegionOk .chunks mem' (fun chunk => use.chunks chunk ∨ chunk = p) ∧
      ∀ chunk, use.chunks chunk ∨ chunk = p → chunkSize ∣ chunk := by
  obtain ⟨notUsed, home, ok⟩ := consistent.chunks.takes taken sameMax
  refine ⟨notUsed, home, ok, ?_⟩
  rintro chunk (old | rfl)
  · exact consistent.aligned chunk old
  · exact home

/-- The header of a new pool. -/
structure NewPool (pool : Nat) (mem : Cell → Nat) : Prop where
  tail : mem (.tailPtr (.pool pool)) = pool
  free : mem (.freePtr (.pool pool)) = 0
  max : mem (.maxAddr (.pool pool)) = pool + chunkSize

theorem NewPool.regionOk {pool : Nat} {blocks : Nat → Prop} (isNew : NewPool pool mem)
    (noBlock : ∀ block, blocks block → ¬ Home (.pool pool) block) :
    RegionOk (.pool pool) mem blocks where
  free := ⟨[], isNew.free, List.nodup_nil, fun _ => (List.not_mem_nil · |>.elim)⟩
  below block isBlock home := absurd home (noBlock block isBlock)
  tail := by
    rw [isNew.tail, isNew.max]
    exact ⟨le_rfl, rfl⟩

/-- A chunk becomes a pool. -/
theorem Consistent.addPool {pool : Nat} (consistent : Consistent use mem dram)
    (isChunk : use.chunks pool) (notPool : ¬ use.pools pool) (isNew : NewPool pool mem')
    (links : ∀ other, mem' (.nextPoolHdr other) = pool ∨
      mem' (.nextPoolHdr other) = if other = pool then 0 else mem (.nextPoolHdr other))
    (same : ∀ cell, StructureCell cell → ¬ PoolCell pool cell →
      (∀ other, cell ≠ .nextPoolHdr other) → mem' cell = mem cell)
    {lists : List Nat} (listed : ∀ other ∈ lists, other ∈ dram.pools ∨ other = pool) :
    Consistent { use with pools := fun other => use.pools other ∨ other = pool } mem'
      { dram with pools := lists, lastHdrScanned := pool } where
  forms :=
    { nonzero := consistent.forms.nonzero
      listed := consistent.forms.listed
      toScan := consistent.forms.toScan
      last := consistent.forms.last
      next := fun chunk => by
        rw [same (.nextFreeForm chunk) trivial id nofun]
        exact consistent.forms.next chunk }
  pools :=
    { listed := fun other member => (listed other member).imp_left (consistent.pools.listed other)
      last := .inr rfl
      next := fun other isPool => by
        rcases links other with isLast | unchanged
        · exact .inr (.inr isLast)
        · rw [unchanged]
          split_ifs with same
          · exact .inl rfl
          · exact (consistent.pools.next other (isPool.resolve_right same)).imp_right .inl }
  fixed :=
    { listed := consistent.fixed.listed
      toScan := consistent.fixed.toScan
      last := consistent.fixed.last
      next := fun chunk => by
        rw [same (.nextFixed chunk) trivial id nofun]
        exact consistent.fixed.next chunk }
  aligned := consistent.aligned
  chunks := by
    refine consistent.chunks.congr (fun cell isRegion => ?_) (same _ trivial id nofun)
    exact same cell isRegion.isStructure (isRegion.not_pool nofun) isRegion.ne_nextPoolHdr
  poolChunk other isPool := by
    rcases isPool with old | rfl
    · exact consistent.poolChunk other old
    · exact isChunk
  pool other isPool := by
    by_cases isOther : other = pool
    · subst isOther
      refine isNew.regionOk fun block isBlock home => notPool ?_
      obtain ⟨owner, isOwner, inOwner⟩ := consistent.blocks block isBlock
      have same := pool_disjoint (consistent.aligned owner (consistent.poolChunk owner isOwner))
        (consistent.aligned other isChunk) inOwner home
      exact same ▸ isOwner
    · refine (consistent.pool other (isPool.resolve_right isOther)).congr
        (fun cell isRegion => ?_) (same _ trivial isOther nofun)
      refine same cell isRegion.isStructure (isRegion.not_pool fun isPool => isOther ?_)
        isRegion.ne_nextPoolHdr
      exact Region.pool.inj isPool
  blocks block isBlock := by
    obtain ⟨owner, isOwner, inOwner⟩ := consistent.blocks block isBlock
    exact ⟨owner, .inl isOwner, inOwner⟩

/-- A small chunk is put in a list. -/
theorem Consistent.addBlock {pool block : Nat} (consistent : Consistent use mem dram)
    (isPool : use.pools pool) (home : Home (.pool pool) block)
    (ok : RegionOk (.pool pool) mem' (fun other => use.blocks other ∨ other = block))
    (links : ∀ other, mem' (.nextFixed other) = block ∨
      mem' (.nextFixed other) = if other = block then 0 else mem (.nextFixed other))
    (same : ∀ cell, StructureCell cell → (∀ other, cell ≠ .nextFixed other) →
      mem' cell = mem cell) :
    Consistent { use with blocks := fun other => use.blocks other ∨ other = block } mem' dram where
  forms :=
    { nonzero := consistent.forms.nonzero
      listed := consistent.forms.listed
      toScan := consistent.forms.toScan
      last := consistent.forms.last
      next := fun chunk => by
        rw [same (.nextFreeForm chunk) trivial nofun]
        exact consistent.forms.next chunk }
  pools :=
    { listed := consistent.pools.listed
      last := consistent.pools.last
      next := fun other => by
        rw [same (.nextPoolHdr other) trivial nofun]
        exact consistent.pools.next other }
  fixed :=
    { listed := fun index other member => .inl (consistent.fixed.listed index other member)
      toScan := fun index => (consistent.fixed.toScan index).imp_right .inl
      last := fun index => (consistent.fixed.last index).imp_right .inl
      next := fun other isBlock => by
        rcases links other with isLast | unchanged
        · exact .inr (.inr isLast)
        · rw [unchanged]
          split_ifs with same
          · exact .inl rfl
          · exact (consistent.fixed.next other (isBlock.resolve_right same)).imp_right .inl }
  aligned := consistent.aligned
  chunks := by
    refine consistent.chunks.congr (fun cell isRegion => ?_) (same _ trivial nofun)
    exact same cell isRegion.isStructure isRegion.ne_nextFixed
  poolChunk := consistent.poolChunk
  pool other isOther := by
    by_cases isSame : other = pool
    · exact isSame ▸ ok
    · have unchanged : RegionOk (.pool other) mem' use.blocks := by
        refine (consistent.pool other isOther).congr (fun cell isRegion => ?_)
          (same _ trivial nofun)
        exact same cell isRegion.isStructure isRegion.ne_nextFixed
      refine unchanged.mono fun q isBlock inOther => isBlock.resolve_right ?_
      rintro rfl
      exact isSame (pool_disjoint (consistent.aligned other (consistent.poolChunk other isOther))
        (consistent.aligned pool (consistent.poolChunk pool isPool)) inOther home)
  blocks other isBlock := by
    rcases isBlock with old | rfl
    · exact consistent.blocks other old
    · exact ⟨pool, isPool, home⟩

/-- A small chunk is taken from a pool, and is not in a list yet. -/
theorem Consistent.takeBlock {pool : Nat} (consistent : Consistent use mem dram)
    (isPool : use.pools pool) (taken : Takes (.pool pool) mem p mem')
    (same : ∀ cell, ¬ RegionCell (.pool pool) cell → mem' cell = mem cell) :
    ¬ use.blocks p ∧ Home (.pool pool) p ∧
      RegionOk (.pool pool) mem' (fun other => use.blocks other ∨ other = p) ∧
      Consistent use mem' dram := by
  obtain ⟨notUsed, home, ok⟩ :=
    (consistent.pool pool isPool).takes taken (same (.maxAddr (.pool pool)) id)
  refine ⟨notUsed, home, ok, ?_⟩
  have others (region : Region) (different : region ≠ .pool pool) (used : Nat → Prop)
      (old : RegionOk region mem used) : RegionOk region mem' used := by
    refine old.congr (fun cell isRegion => same cell fun isOther => different ?_)
      (same (.maxAddr region) id)
    cases cell
    case tailPtr | freePtr | numAllocated | link => exact isRegion.symm.trans isOther
    all_goals exact isRegion.elim
  constructor
  · refine ⟨consistent.forms.nonzero, consistent.forms.listed, consistent.forms.toScan,
      consistent.forms.last, fun chunk => ?_⟩
    rw [same (.nextFreeForm chunk) id]
    exact consistent.forms.next chunk
  · refine ⟨consistent.pools.listed, consistent.pools.last, fun other => ?_⟩
    rw [same (.nextPoolHdr other) id]
    exact consistent.pools.next other
  · refine ⟨consistent.fixed.listed, consistent.fixed.toScan, consistent.fixed.last, fun chunk => ?_⟩
    rw [same (.nextFixed chunk) id]
    exact consistent.fixed.next chunk
  · exact consistent.aligned
  · exact others .chunks nofun _ consistent.chunks
  · exact consistent.poolChunk
  · intro other isOther
    by_cases isSame : other = pool
    · subst isSame
      exact ok.mono fun q isBlock _ => .inl isBlock
    · exact others (.pool other) (fun isPool => isSame (Region.pool.inj isPool)) _
        (consistent.pool other isOther)
  · exact consistent.blocks

/-- The lists of pools change. -/
theorem Consistent.withPools (consistent : Consistent use mem dram) {pools : List Nat} {last : Nat}
    (listed : ∀ pool ∈ pools, use.pools pool) (isLast : use.pools last) :
    Consistent use mem { dram with pools := pools, lastHdrScanned := last } :=
  { consistent with
    forms := ⟨consistent.forms.nonzero, consistent.forms.listed, consistent.forms.toScan,
      consistent.forms.last, consistent.forms.next⟩
    pools := ⟨listed, isLast, consistent.pools.next⟩
    fixed := ⟨consistent.fixed.listed, consistent.fixed.toScan, consistent.fixed.last,
      consistent.fixed.next⟩ }

/-- The lists of small chunks change. -/
theorem Consistent.withFixed (consistent : Consistent use mem dram)
    {fixedChunks : Nat → List Nat} {toScan lastFixed : Nat → Nat}
    (listed : ∀ index, ∀ chunk ∈ fixedChunks index, use.blocks chunk)
    (scanned : ∀ index, toScan index = 0 ∨ use.blocks (toScan index))
    (isLast : ∀ index, lastFixed index = 0 ∨ use.blocks (lastFixed index)) :
    Consistent use mem
      { dram with fixedChunks := fixedChunks, fixedToScan := toScan, lastFixed := lastFixed } :=
  { consistent with
    forms := ⟨consistent.forms.nonzero, consistent.forms.listed, consistent.forms.toScan,
      consistent.forms.last, consistent.forms.next⟩
    pools := ⟨consistent.pools.listed, consistent.pools.last, consistent.pools.next⟩
    fixed := ⟨listed, scanned, isLast, consistent.fixed.next⟩ }

end Pmgd.AllocatorUnit
