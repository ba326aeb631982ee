import Mathlib.Data.List.Range
import Pmgd.FixedAllocator
import Pmgd.VariableAllocator

/-!
# Allocation of contiguous objects

The allocator of the chunks also hands out several contiguous objects, always from the tail.
They are returned together at a commit: the tail goes back to them, or each of them is put on the
free list.  Numbers of objects and their size are words of 32 bits, and so is their product.
-/

namespace Pmgd

open ByteMemory
open AllocatorUnit (chunkSize wordValues)
open VariableAllocator (numChunks)

namespace FixedAllocator

/-- `alloc(num)`; the pool is far below the end of the address space. -/
def allocContiguous (allocator : FixedAllocator) (header : RegionHeader) (mem : Memory)
    (num : Nat) : Option (Nat × RegionHeader × Memory) :=
  if num = 1 then allocator.alloc header mem
  else
    let bytes := num * allocator.size % wordValues
    if header.tailPtr + bytes > allocator.maxAddr then none
    else
      some (header.tailPtr,
        { header with
          tailPtr := header.tailPtr + bytes
          numAllocated := header.numAllocated + num },
        mem)

/-- The loop of `free(p, num)`: the head of the free list and the words. -/
def freeLoop (allocator : FixedAllocator) : Nat → Nat → Nat → Memory → Nat × Memory
  | 0, _, freePtr, mem => (freePtr, mem)
  | num + 1, p, freePtr, mem =>
      freeLoop allocator num (p + allocator.size) p (setWord mem p (freePtr ||| freeBit))

/-- `free(p, num)`. -/
def freeContiguous (allocator : FixedAllocator) (header : RegionHeader) (mem : Memory)
    (p num : Nat) : RegionHeader × Memory :=
  if p + allocator.size * num % wordValues = header.tailPtr then
    ({ header with tailPtr := p, numAllocated := header.numAllocated - num }, mem)
  else
    let freed := allocator.freeLoop num p header.freePtr mem
    ({ header with freePtr := freed.1, numAllocated := header.numAllocated - num }, freed.2)

/-- Contiguous objects. -/
structure Extent where
  p : Nat
  num : Nat
  deriving DecidableEq, Repr

/-- The addresses of contiguous objects. -/
def objects (allocator : FixedAllocator) (extent : Extent) : List Nat :=
  (List.range extent.num).map fun i => extent.p + i * allocator.size

/-- The pool, in front of its tail, with its live and its free objects. -/
structure Partition (allocator : FixedAllocator) (header : RegionHeader) (mem : Memory)
    (live free : List Nat) : Prop where
  chain : Chain mem header.freePtr free
  nodup : (free ++ live).Nodup
  objects : ∀ p, p ∈ free ++ live ↔ allocator.IsObject header.tailPtr p
  count : header.numAllocated = live.length
  tail : allocator.size ∣ header.tailPtr ∧ allocator.start ≤ header.tailPtr
  bounded : header.tailPtr ≤ max allocator.start allocator.maxAddr

/-- A pool whose live objects are these extents. -/
def Holds (allocator : FixedAllocator) (header : RegionHeader) (mem : Memory)
    (extents : List Extent) : Prop :=
  (∀ extent ∈ extents, 0 < extent.num) ∧
    ∃ free, Partition allocator header mem (extents.flatMap allocator.objects) free

/-! ## Objects and extents -/

variable {allocator : FixedAllocator} {header : RegionHeader} {mem : Memory}
  {live free : List Nat} {p num : Nat}

theorem mem_objects {extent : Extent} {q : Nat} :
    q ∈ allocator.objects extent ↔ ∃ i < extent.num, extent.p + i * allocator.size = q := by
  simp [FixedAllocator.objects]

theorem objects_one (allocator : FixedAllocator) (p : Nat) : allocator.objects ⟨p, 1⟩ = [p] := by
  simp [FixedAllocator.objects]

theorem objects_succ (allocator : FixedAllocator) (p num : Nat) :
    allocator.objects ⟨p, num + 1⟩ = p :: allocator.objects ⟨p + allocator.size, num⟩ := by
  simp only [FixedAllocator.objects, List.range_succ_eq_map, List.map_cons, List.map_map,
    Nat.zero_mul, Nat.add_zero, List.cons.injEq, true_and]
  apply List.map_congr_left
  intro i _
  simp only [Function.comp_apply, Nat.succ_mul]
  omega

theorem length_objects (allocator : FixedAllocator) (extent : Extent) :
    (allocator.objects extent).length = extent.num := by
  simp [FixedAllocator.objects]

/-- The objects of an extent are the ones between its bounds. -/
theorem mem_objects_iff (aligned : allocator.size ∣ p) {q : Nat} :
    q ∈ allocator.objects ⟨p, num⟩ ↔
      p ≤ q ∧ q < p + num * allocator.size ∧ allocator.size ∣ q := by
  have positive := size_ge allocator
  rw [mem_objects]
  constructor
  · rintro ⟨i, below, rfl⟩
    have less := Nat.mul_lt_mul_of_pos_right below (show 0 < allocator.size by omega)
    exact ⟨Nat.le_add_right _ _, by dsimp only at *; omega,
      Nat.dvd_add aligned (Nat.dvd_mul_left _ _)⟩
  · rintro ⟨low, high, isMultiple⟩
    obtain ⟨i, isSum⟩ := (Nat.dvd_sub isMultiple aligned)
    refine ⟨i, ?_, ?_⟩
    · by_contra above
      have more := Nat.mul_le_mul_right allocator.size (Nat.not_lt.mp above)
      rw [Nat.mul_comm i] at more
      dsimp only at more
      omega
    · rw [Nat.mul_comm]
      dsimp only
      omega

theorem nodup_objects (allocator : FixedAllocator) (extent : Extent) :
    (allocator.objects extent).Nodup := by
  have positive := size_ge allocator
  apply List.Nodup.map ?_ List.nodup_range
  intro i j same
  exact Nat.eq_of_mul_eq_mul_right (show 0 < allocator.size by omega) (Nat.add_left_cancel same)

/-! ## One operation on the pool -/

namespace Partition

variable (partition : Partition allocator header mem live free)
include partition

theorem isObject_free (member : p ∈ free) : allocator.IsObject header.tailPtr p :=
  (partition.objects p).mp (List.mem_append_left _ member)

theorem isObject_live (member : p ∈ live) : allocator.IsObject header.tailPtr p :=
  (partition.objects p).mp (List.mem_append_right _ member)

theorem notMem_free (member : p ∈ live) : p ∉ free :=
  fun isFree => (List.nodup_append'.mp partition.nodup).2.2 isFree member

/-- The head of the free list is even and fits into a word. -/
theorem freePtr_small : header.freePtr % 2 = 0 ∧ header.freePtr + 1 < 2 ^ 64 := by
  have chain := partition.chain
  cases free with
  | nil =>
      rw [Chain] at chain
      rw [chain]
      decide
  | cons q rest =>
      obtain ⟨rfl, -, -⟩ := chain
      have isFree := partition.isObject_free List.mem_cons_self
      have bounded := partition.bounded
      have small := allocator.maxAddr_lt
      have inPool := isFree.1
      have inFront := isFree.2.1
      exact ⟨even_of_size_dvd isFree.2.2, by omega⟩

/-- Taking the head of the free list. -/
theorem takeFree {rest : List Nat} (isHead : free = p :: rest) :
    Partition allocator
      { header with
        freePtr := clearFreeBit (word mem p), numAllocated := header.numAllocated + 1 }
      (setWord mem p (clearFreeBit (word mem p))) (p :: live) rest := by
  subst isHead
  obtain ⟨-, -, links⟩ := partition.chain
  have isObject := partition.isObject_free List.mem_cons_self
  have perm : (p :: rest ++ live).Perm (rest ++ p :: live) := List.perm_middle.symm
  have notInRest : p ∉ rest := (List.nodup_cons.mp partition.nodup).1 ∘ List.mem_append_left _
  refine ⟨?_, perm.nodup_iff.mp partition.nodup, fun q => ?_, ?_, partition.tail,
    partition.bounded⟩
  · apply links.congr
    intro q member
    have isFree := partition.isObject_free (List.mem_cons_of_mem p member)
    exact word_setWord_of_ne isObject.2.2 isFree.2.2 fun same => notInRest (same ▸ member)
  · rw [← perm.mem_iff]
    exact partition.objects q
  · rw [List.length_cons, partition.count]
    push_cast
    rfl

/-- Taking objects from the tail. -/
theorem takeTail (room : header.tailPtr + num * allocator.size ≤ allocator.maxAddr) :
    Partition allocator
      { header with
        tailPtr := header.tailPtr + num * allocator.size
        numAllocated := header.numAllocated + num }
      mem (allocator.objects ⟨header.tailPtr, num⟩ ++ live) free := by
  obtain ⟨aligned, inPool⟩ := partition.tail
  have isNew {q : Nat} : q ∈ allocator.objects ⟨header.tailPtr, num⟩ ↔
      header.tailPtr ≤ q ∧ q < header.tailPtr + num * allocator.size ∧ allocator.size ∣ q :=
    mem_objects_iff aligned
  have perm : (allocator.objects ⟨header.tailPtr, num⟩ ++ (free ++ live)).Perm
      (free ++ (allocator.objects ⟨header.tailPtr, num⟩ ++ live)) :=
    List.perm_append_comm_assoc _ _ _
  refine ⟨partition.chain, ?_, fun q => ?_, ?_, ⟨?_, ?_⟩, ?_⟩
  · apply perm.nodup_iff.mp
    apply List.Nodup.append (nodup_objects _ _) partition.nodup
    intro q new old
    exact absurd ((partition.objects q).mp old).2.1 (Nat.not_lt.mpr (isNew.mp new).1)
  · rw [← perm.mem_iff, List.mem_append, isNew, partition.objects q]
    simp only [IsObject]
    constructor
    · rintro (⟨low, high, isMultiple⟩ | ⟨low, high, isMultiple⟩)
      · exact ⟨by omega, high, isMultiple⟩
      · exact ⟨low, by omega, isMultiple⟩
    · rintro ⟨low, high, isMultiple⟩
      by_cases isOld : q < header.tailPtr
      · exact Or.inr ⟨low, isOld, isMultiple⟩
      · exact Or.inl ⟨by omega, high, isMultiple⟩
  · rw [List.length_append, length_objects, partition.count]
    push_cast
    rw [add_comm]
  · exact Nat.dvd_add aligned (Nat.dvd_mul_left _ _)
  · dsimp only
    omega
  · dsimp only
    omega

/-- Putting a live object in front of the free list. -/
theorem putFree {rest : List Nat} (isHead : live = p :: rest) :
    Partition allocator
      { header with freePtr := p, numAllocated := header.numAllocated - 1 }
      (setWord mem p (header.freePtr ||| freeBit)) rest (p :: free) := by
  subst isHead
  have isObject := partition.isObject_live List.mem_cons_self
  have notFree := partition.notMem_free List.mem_cons_self
  have perm : (free ++ p :: rest).Perm (p :: free ++ rest) := List.perm_middle
  have headOk := partition.freePtr_small
  rw [or_freeBit_of_even headOk.1]
  refine ⟨⟨rfl, isObject.ne_zero, ?_⟩, perm.nodup_iff.mp partition.nodup, fun q => ?_, ?_,
    partition.tail, partition.bounded⟩
  · rw [word_setWord_self headOk.2, clearFreeBit_succ headOk.1]
    apply partition.chain.congr
    intro q member
    exact word_setWord_of_ne isObject.2.2 (partition.isObject_free member).2.2
      fun same => notFree (same ▸ member)
  · rw [← perm.mem_iff]
    exact partition.objects q
  · rw [partition.count, List.length_cons]
    push_cast
    omega

theorem perm_live {other : List Nat} (perm : live.Perm other) :
    Partition allocator header mem other free where
  chain := partition.chain
  nodup := (perm.append_left free).nodup_iff.mp partition.nodup
  objects q := by
    rw [← (perm.append_left free).mem_iff]
    exact partition.objects q
  count := by rw [partition.count, perm.length_eq]
  tail := partition.tail
  bounded := partition.bounded

end Partition

/-- The loop of `free(p, num)` puts each of the objects on the free list. -/
theorem Partition.freeLoop {rest : List Nat}
    (partition : Partition allocator header mem (allocator.objects ⟨p, num⟩ ++ rest) free) :
    let freed := allocator.freeLoop num p header.freePtr mem
    Partition allocator
      { header with freePtr := freed.1, numAllocated := header.numAllocated - num } freed.2 rest
      ((allocator.objects ⟨p, num⟩).reverse ++ free) := by
  induction num generalizing p header mem free with
  | zero =>
      have nothing : allocator.objects ⟨p, 0⟩ = [] := rfl
      rw [nothing, List.nil_append] at partition
      simpa [FixedAllocator.freeLoop, nothing] using partition
  | succ num ih =>
      rw [objects_succ, List.cons_append] at partition
      have later := ih (partition.putFree rfl)
      rw [objects_succ, List.reverse_cons, List.append_assoc]
      have isCount : header.numAllocated - 1 - (num : Int) =
          header.numAllocated - ((num + 1 : Nat) : Int) := by
        push_cast
        omega
      rw [isCount] at later
      exact later

/-- Nothing but first words of the objects changes. -/
theorem freeLoop_outside {freePtr address : Nat}
    (outside : address < p ∨ p + num * allocator.size ≤ address) :
    (allocator.freeLoop num p freePtr mem).2 address = mem address := by
  have wide := size_ge allocator
  induction num generalizing p freePtr mem with
  | zero => rfl
  | succ num ih =>
      rw [Nat.succ_mul] at outside
      rw [FixedAllocator.freeLoop, ih (by omega), setWord_outside (by omega)]

/-- Moving the tail back to the last objects. -/
theorem Partition.putTail {rest : List Nat} (positive : 0 < num)
    (partition : Partition allocator header mem (allocator.objects ⟨p, num⟩ ++ rest) free)
    (isLast : p + num * allocator.size = header.tailPtr) :
    Partition allocator
      { header with tailPtr := p, numAllocated := header.numAllocated - num } mem rest free := by
  have wide := size_ge allocator
  have first : p ∈ allocator.objects ⟨p, num⟩ := mem_objects.mpr ⟨0, positive, by simp⟩
  have isObject := partition.isObject_live (List.mem_append_left _ first)
  have nodup := ((List.perm_append_comm_assoc free (allocator.objects ⟨p, num⟩) rest).nodup_iff).mp
    partition.nodup
  obtain ⟨-, restNodup, apart⟩ := List.nodup_append'.mp nodup
  refine ⟨partition.chain, restNodup, fun q => ?_, ?_, ⟨isObject.2.2, isObject.1⟩, ?_⟩
  · have old := partition.objects q
    rw [(List.perm_append_comm_assoc free (allocator.objects ⟨p, num⟩) rest).mem_iff,
      List.mem_append, mem_objects_iff isObject.2.2, ← isLast] at old
    constructor
    · intro member
      obtain ⟨low, high, isMultiple⟩ := old.mp (Or.inr member)
      refine ⟨low, ?_, isMultiple⟩
      by_contra above
      exact apart ((mem_objects_iff isObject.2.2).mpr ⟨by dsimp only at above; omega, high, isMultiple⟩)
        member
    · rintro ⟨low, high, isMultiple⟩
      dsimp only at high
      exact (old.mpr ⟨low, by omega, isMultiple⟩).resolve_left fun inExtent => by omega
  · rw [partition.count, List.length_append, length_objects]
    push_cast
    omega
  · have bounded := partition.bounded
    dsimp only
    omega

/-! ## Whole calls -/

/-- `free` of an extent, whenever it is live, frees its objects and nothing else. -/
def ReturnsExactly (allocator : FixedAllocator) (extent : Extent) : Prop :=
  ∀ header mem extents, allocator.Holds header mem extents → extent ∈ extents →
    let freed := allocator.freeContiguous header mem extent.p extent.num
    allocator.Holds freed.1 freed.2 (extents.erase extent) ∧
      ∀ address, address < extent.p ∨ extent.p + extent.num * allocator.size ≤ address →
        freed.2 address = mem address

/-- What an allocation hands out: a region in the pool that is apart from all others and can be
returned. -/
structure HandsOut (allocator : FixedAllocator) (extents : List Extent) (extent : Extent)
    (header : RegionHeader) (mem : Memory) : Prop where
  inside : extent.p + extent.num * allocator.size ≤ allocator.maxAddr
  apart : ∀ other ∈ extents, extent.p + extent.num * allocator.size ≤ other.p ∨
    other.p + other.num * allocator.size ≤ extent.p
  holds : allocator.Holds header mem (extent :: extents)
  returns : allocator.ReturnsExactly extent

theorem Holds.aligned {extents : List Extent} (holds : allocator.Holds header mem extents)
    {extent : Extent} (member : extent ∈ extents) : allocator.IsObject header.tailPtr extent.p := by
  obtain ⟨positive, free, partition⟩ := holds
  apply partition.isObject_live
  rw [List.mem_flatMap]
  exact ⟨extent, member, mem_objects.mpr ⟨0, positive extent member, by simp⟩⟩

/-- Live extents lie in the pool. -/
theorem Holds.inside {extents : List Extent} (holds : allocator.Holds header mem extents)
    {extent : Extent} (member : extent ∈ extents) :
    extent.p + extent.num * allocator.size ≤ header.tailPtr ∧
      header.tailPtr ≤ allocator.maxAddr := by
  have isObject := holds.aligned member
  obtain ⟨positive, free, partition⟩ := holds
  have wide := size_ge allocator
  obtain ⟨num, isNum⟩ := Nat.exists_eq_succ_of_ne_zero (positive extent member).ne'
  have last : extent.p + num * allocator.size ∈ allocator.objects extent :=
    mem_objects.mpr ⟨num, by omega, rfl⟩
  have inFront := partition.isObject_live
    (List.mem_flatMap.mpr ⟨extent, member, last⟩)
  have apart := disjoint_of_ne inFront.2.2 partition.tail.1 (by have := inFront.2.1; omega)
  have bounded := partition.bounded
  have low := isObject.1
  have high := isObject.2.1
  rw [isNum, Nat.succ_mul]
  have := inFront.2.1
  omega

/-- Different live extents do not overlap. -/
theorem Holds.apart {extents : List Extent} {extent other : Extent}
    (holds : allocator.Holds header mem (extent :: extents)) (member : other ∈ extents) :
    extent.p + extent.num * allocator.size ≤ other.p ∨
      other.p + other.num * allocator.size ≤ extent.p := by
  have isFirst := holds.aligned List.mem_cons_self
  have isOther := holds.aligned (List.mem_cons_of_mem extent member)
  obtain ⟨positive, free, partition⟩ := holds
  have nodup := (List.nodup_append'.mp partition.nodup).2.1
  rw [List.flatMap_cons] at nodup
  have disjoint := (List.nodup_append'.mp nodup).2.2
  have inOthers {q : Nat} (inOther : q ∈ allocator.objects other) :
      q ∈ extents.flatMap allocator.objects := List.mem_flatMap.mpr ⟨other, member, inOther⟩
  by_contra overlap
  rcases Nat.le_total extent.p other.p with before | after
  · apply disjoint (a := other.p)
    · exact (mem_objects_iff isFirst.2.2).mpr ⟨before, by omega, isOther.2.2⟩
    · exact inOthers (mem_objects.mpr
        ⟨0, positive other (List.mem_cons_of_mem extent member), by simp⟩)
  · apply disjoint (a := extent.p)
    · exact mem_objects.mpr ⟨0, positive extent List.mem_cons_self, by simp⟩
    · exact inOthers ((mem_objects_iff isOther.2.2).mpr ⟨after, by omega, isFirst.2.2⟩)

/-- What is written to live extents, behind the tail or outside of the pool does not matter. -/
theorem Holds.congr {extents : List Extent} {other : Memory}
    (holds : allocator.Holds header mem extents)
    (same : ∀ address, allocator.start ≤ address → address < header.tailPtr →
      (∀ extent ∈ extents, address < extent.p ∨
        extent.p + extent.num * allocator.size ≤ address) → other address = mem address) :
    allocator.Holds header other extents := by
  have aligned (extent : Extent) (member : extent ∈ extents) : allocator.size ∣ extent.p :=
    (holds.aligned member).2.2
  obtain ⟨positive, free, partition⟩ := holds
  refine ⟨positive, free, { partition with chain := partition.chain.congr fun p member => ?_ }⟩
  have isObject := partition.isObject_free member
  have wide := size_ge allocator
  have inFront : p + allocator.size ≤ header.tailPtr := by
    have before := isObject.2.1
    have apart := disjoint_of_ne isObject.2.2 partition.tail.1 before.ne
    omega
  apply word_congr
  intro i inWord
  apply same
  · exact isObject.1.trans (Nat.le_add_right p i)
  · omega
  · intro extent isExtent
    by_contra inside
    rw [not_or, Nat.not_lt, Nat.not_le] at inside
    have notLive : p ∉ allocator.objects extent := fun inExtent =>
      partition.notMem_free (List.mem_flatMap.mpr ⟨extent, isExtent, inExtent⟩) member
    rw [mem_objects_iff (aligned extent isExtent)] at notLive
    obtain ⟨start, isStart⟩ := aligned extent isExtent
    obtain ⟨place, rfl⟩ := isObject.2.2
    have low : extent.p ≤ allocator.size * place := by
      rw [isStart] at inside ⊢
      have less : allocator.size * start < allocator.size * (place + 1) := by
        rw [Nat.mul_succ]
        omega
      exact Nat.mul_le_mul_left _ (Nat.le_of_lt_succ (Nat.lt_of_mul_lt_mul_left less))
    exact notLive ⟨low, by omega, dvd_mul_right _ _⟩

theorem Holds.perm {extents others : List Extent} (holds : allocator.Holds header mem extents)
    (perm : extents.Perm others) : allocator.Holds header mem others := by
  obtain ⟨positive, free, partition⟩ := holds
  exact ⟨fun extent member => positive extent (perm.mem_iff.mpr member), free,
    partition.perm_live (perm.flatMap_right allocator.objects)⟩

/-- The first object of an extent, and the others. -/
theorem Holds.split {extents : List Extent}
    (holds : allocator.Holds header mem (⟨p, num + 1⟩ :: extents)) (several : 0 < num) :
    allocator.Holds header mem (⟨p, 1⟩ :: ⟨p + allocator.size, num⟩ :: extents) := by
  obtain ⟨positive, free, partition⟩ := holds
  refine ⟨?_, free, ?_⟩
  · rw [List.forall_mem_cons, List.forall_mem_cons]
    exact ⟨Nat.one_pos, several, (List.forall_mem_cons.mp positive).2⟩
  · rw [List.flatMap_cons, objects_succ] at partition
    rw [List.flatMap_cons, List.flatMap_cons, objects_one]
    exact partition

theorem returnsExactly (small : num * allocator.size < wordValues) :
    allocator.ReturnsExactly ⟨p, num⟩ := by
  rintro header mem extents ⟨positive, free, partition⟩ member
  have perm := List.perm_cons_erase member
  have ofErase : ∀ extent ∈ extents.erase ⟨p, num⟩, 0 < extent.num :=
    fun extent inErase => positive extent (List.mem_of_mem_erase inErase)
  have split := partition.perm_live (perm.flatMap_right allocator.objects)
  rw [List.flatMap_cons] at split
  rw [Nat.mul_comm] at small
  simp only [freeContiguous, Nat.mod_eq_of_lt small]
  rw [Nat.mul_comm]
  split_ifs with isLast
  · exact ⟨⟨ofErase, free, split.putTail (positive _ member) isLast⟩, fun _ _ => rfl⟩
  · exact ⟨⟨ofErase, _, split.freeLoop⟩, fun _ outside => freeLoop_outside outside⟩

/-- A region from the tail. -/
theorem handsOut_tail {extents : List Extent} (holds : allocator.Holds header mem extents)
    (positive : 0 < num) (small : num * allocator.size < wordValues)
    (room : header.tailPtr + num * allocator.size ≤ allocator.maxAddr) :
    allocator.HandsOut extents ⟨header.tailPtr, num⟩
      { header with
        tailPtr := header.tailPtr + num * allocator.size
        numAllocated := header.numAllocated + num } mem := by
  obtain ⟨allPositive, free, partition⟩ := holds
  have after : allocator.Holds { header with
      tailPtr := header.tailPtr + num * allocator.size
      numAllocated := header.numAllocated + num } mem (⟨header.tailPtr, num⟩ :: extents) :=
    ⟨List.forall_mem_cons.mpr ⟨positive, allPositive⟩, free, partition.takeTail room⟩
  exact ⟨room, fun other member => after.apart member, after, returnsExactly small⟩

/-- A region from the free list. -/
theorem handsOut_free {extents : List Extent} (holds : allocator.Holds header mem extents)
    (small : allocator.size < wordValues) (onList : header.freePtr ≠ 0) :
    allocator.HandsOut extents ⟨header.freePtr, 1⟩
      { header with
        freePtr := clearFreeBit (word mem header.freePtr)
        numAllocated := header.numAllocated + 1 }
      (setWord mem header.freePtr (clearFreeBit (word mem header.freePtr))) := by
  obtain ⟨allPositive, free, partition⟩ := holds
  have isHead : ∃ rest, free = header.freePtr :: rest := by
    have chain := partition.chain
    cases free with
    | nil => exact absurd chain onList
    | cons p rest =>
        obtain ⟨isHead, -⟩ := chain
        exact ⟨rest, by rw [isHead]⟩
  obtain ⟨rest, isHead⟩ := isHead
  have taken := partition.takeFree isHead
  rw [← List.singleton_append, ← objects_one allocator] at taken
  have after : allocator.Holds _ _ (⟨header.freePtr, 1⟩ :: extents) :=
    ⟨List.forall_mem_cons.mpr ⟨Nat.one_pos, allPositive⟩, rest, taken⟩
  have inside := after.inside List.mem_cons_self
  refine ⟨inside.1.trans inside.2, fun other member => after.apart member, after, ?_⟩
  exact returnsExactly (by simpa using small)

/-- The allocation of a number of objects is refused, or hands out a region by which the tail
advances. -/
def AdvancesOrRefuses (allocator : FixedAllocator) (header : RegionHeader) (mem : Memory)
    (extents : List Extent) (num : Nat) : Prop :=
  ∀ p after later, allocator.allocContiguous header mem num = some (p, after, later) →
    allocator.HandsOut extents ⟨p, num⟩ after later ∧
      after.tailPtr = header.tailPtr + num * allocator.size

/-- The same, or it hands out the object at the head of the free list. -/
def HandsOutOrRefuses (allocator : FixedAllocator) (header : RegionHeader) (mem : Memory)
    (extents : List Extent) (num : Nat) : Prop :=
  ∀ p after later, allocator.allocContiguous header mem num = some (p, after, later) →
    allocator.HandsOut extents ⟨p, num⟩ after later ∧
      (after.tailPtr = header.tailPtr + num * allocator.size ∨
        num = 1 ∧ p = header.freePtr ∧ header.freePtr ≠ 0 ∧ after.tailPtr = header.tailPtr)

section Calls

variable {extents : List Extent} (holds : allocator.Holds header mem extents)
include holds

theorem handsOutOrRefuses (small : num * allocator.size < wordValues) (positive : 0 < num) :
    allocator.HandsOutOrRefuses header mem extents num := by
  intro p after later allocated
  rw [allocContiguous] at allocated
  by_cases isOne : num = 1
  · subst isOne
    rw [if_pos rfl] at allocated
    rw [Nat.one_mul] at small ⊢
    obtain ⟨onList, rfl, rfl, rfl⟩ | ⟨-, room, rfl, rfl, rfl⟩ := alloc_cases allocated
    · exact ⟨handsOut_free holds small onList, Or.inr ⟨rfl, rfl, onList, rfl⟩⟩
    · have handed := handsOut_tail holds Nat.one_pos (by simpa using small) (by simpa using room)
      simp only [Nat.one_mul, Nat.cast_one] at handed
      exact ⟨handed, Or.inl rfl⟩
  · rw [if_neg isOne, Nat.mod_eq_of_lt small] at allocated
    by_cases full : allocator.maxAddr < header.tailPtr + num * allocator.size
    · rw [if_pos full] at allocated
      cases allocated
    · rw [if_neg full] at allocated
      obtain ⟨rfl, rfl, rfl⟩ := by simpa using allocated
      exact ⟨handsOut_tail holds positive small (Nat.not_lt.mp full), Or.inl rfl⟩

omit holds in
/-- With a product of more than 32 bits the tail advances too little. -/
theorem tail_of_large (large : wordValues ≤ num * allocator.size) (several : num ≠ 1)
    (room : header.tailPtr + num * allocator.size % wordValues ≤ allocator.maxAddr) :
    ∃ after, allocator.allocContiguous header mem num = some (header.tailPtr, after, mem) ∧
      after.tailPtr < header.tailPtr + num * allocator.size := by
  refine ⟨_, by rw [allocContiguous, if_neg several]; exact if_neg (Nat.not_lt.mpr room), ?_⟩
  have less : num * allocator.size % wordValues < wordValues := Nat.mod_lt _ (by decide)
  dsimp only
  omega

/-- A call for the chunks of a request hands out a region of the pool exactly if the size of the
chunks fits into 32 bits or there is no room even for what is left of it; apart from a single
chunk, which can come from the free list, the tail then advances by that size. -/
theorem allocContiguous_region_iff (isChunks : allocator.size = chunkSize) {size : Nat}
    (positive : 0 < numChunks size) :
    (allocator.HandsOutOrRefuses header mem extents (numChunks size) ↔
        numChunks size * chunkSize < wordValues ∨
          allocator.maxAddr <
            header.tailPtr + numChunks size * chunkSize % wordValues) ∧
      (allocator.AdvancesOrRefuses header mem extents (numChunks size) ↔
        (numChunks size = 1 → header.freePtr = 0) ∧
          (numChunks size * chunkSize < wordValues ∨
            allocator.maxAddr <
              header.tailPtr + numChunks size * chunkSize % wordValues)) := by
  generalize numChunks size = num at positive
  rw [← isChunks]
  have oneSmall : 1 * allocator.size < wordValues := by
    rw [isChunks]
    decide
  have isSmall (full : allocator.maxAddr < header.tailPtr + num * allocator.size % wordValues)
      (several : num ≠ 1) : allocator.allocContiguous header mem num = none := by
    rw [allocContiguous, if_neg several]
    exact if_pos full
  have handsOut (fits : num * allocator.size < wordValues ∨
      allocator.maxAddr < header.tailPtr + num * allocator.size % wordValues) :
      allocator.HandsOutOrRefuses header mem extents num := by
    by_cases isOne : num = 1
    · exact handsOutOrRefuses holds (isOne ▸ oneSmall) positive
    · rcases fits with small | full
      · exact handsOutOrRefuses holds small positive
      · intro p after later allocated
        rw [isSmall full isOne] at allocated
        cases allocated
  have fits (advances : ∀ p after later,
      allocator.allocContiguous header mem num = some (p, after, later) → num ≠ 1 →
        after.tailPtr = header.tailPtr + num * allocator.size) :
      num * allocator.size < wordValues ∨
        allocator.maxAddr < header.tailPtr + num * allocator.size % wordValues := by
    by_contra large
    rw [not_or, Nat.not_lt, Nat.not_lt] at large
    have several : num ≠ 1 := by
      rintro rfl
      exact absurd oneSmall (Nat.not_lt.mpr large.1)
    obtain ⟨after, (isAfter : allocator.allocContiguous header mem num = _), less⟩ :=
      tail_of_large large.1 several large.2
    exact absurd (advances _ _ _ isAfter several) less.ne
  constructor
  · refine ⟨fun hands => fits fun p after later allocated several => ?_, handsOut⟩
    exact (hands p after later allocated).2.resolve_right fun onList => several onList.1
  · constructor
    · refine fun advances => ⟨fun isOne => ?_, fits fun p after later allocated _ =>
        (advances p after later allocated).2⟩
      by_contra onList
      subst isOne
      have wide := size_ge allocator
      have isAlloc : allocator.allocContiguous header mem 1 = allocator.alloc header mem := rfl
      rw [FixedAllocator.alloc, if_pos onList] at isAlloc
      have isAdvanced := (advances _ _ _ isAlloc).2
      dsimp only at isAdvanced
      omega
    · rintro ⟨notReused, fits⟩ p after later allocated
      obtain ⟨handed, isAdvanced | ⟨isOne, -, onList, -⟩⟩ := handsOut fits p after later allocated
      · exact ⟨handed, isAdvanced⟩
      · exact absurd (notReused isOne) onList

end Calls

/-- A pool of chunks below 16 GiB. -/
def chunkPool : FixedAllocator :=
  ⟨chunkSize, 21, 2 ^ 34, AllocatorUnit.chunkBits_ge, AllocatorUnit.chunkSize_pos, by decide,
    by decide⟩

theorem holds_chunkPool (mem : Memory) : chunkPool.Holds ⟨chunkSize, 0, 0⟩ mem [] := by
  refine ⟨by simp, [], rfl, List.nodup_nil, fun p => ?_, rfl, ⟨by decide, by decide⟩, by decide⟩
  simp only [List.flatMap_nil, List.append_nil, List.not_mem_nil, false_iff, IsObject, chunkPool]
  omega

/-- Two chunks for a request of 3000000 bytes. -/
theorem allocContiguous_region_two :
    chunkPool.AdvancesOrRefuses ⟨chunkSize, 0, 0⟩ (fun _ => 0) []
      (numChunks 3000000) :=
  ((allocContiguous_region_iff (holds_chunkPool _) rfl (by decide)).2).mpr
    ⟨fun _ => rfl, Or.inl (by decide)⟩

/-- The tail stays where it is for the 2048 chunks of a request of `2 ^ 32 - 1` bytes, and the
next request gets the same chunk. -/
theorem largest_blob_is_not_reserved :
    numChunks (2 ^ 32 - 1) = 2048 ∧
      chunkPool.Holds ⟨chunkSize, 0, 0⟩ (fun _ => 0) [] ∧
      chunkPool.allocContiguous ⟨chunkSize, 0, 0⟩ (fun _ => 0) 2048 =
        some (chunkSize, ⟨chunkSize, 0, 2048⟩, fun _ => 0) ∧
      chunkPool.allocContiguous ⟨chunkSize, 0, 2048⟩ (fun _ => 0) 1 =
        some (chunkSize, ⟨2 * chunkSize, 0, 2049⟩, fun _ => 0) ∧
      ¬ chunkPool.HandsOutOrRefuses ⟨chunkSize, 0, 0⟩ (fun _ => 0) []
        (numChunks (2 ^ 32 - 1)) := by
  have isNum : numChunks (2 ^ 32 - 1) = 2048 := by decide
  have isAlloc : chunkPool.allocContiguous ⟨chunkSize, 0, 0⟩ (fun _ => 0) 2048 =
      some (chunkSize, ⟨chunkSize, 0, 2048⟩, fun _ => 0) := rfl
  refine ⟨isNum, holds_chunkPool _, isAlloc, rfl, fun hands => ?_⟩
  rw [isNum] at hands
  rcases (hands _ _ _ isAlloc).2 with advanced | ⟨isOne, -⟩
  · exact absurd advanced (by decide)
  · exact absurd isOne (by decide)

end FixedAllocator

end Pmgd
