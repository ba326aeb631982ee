import Mathlib.Data.List.Perm.Lattice
import Mathlib.Data.List.Perm.Subperm
import Mathlib.Tactic.Common
import Mathlib.Tactic.Ring
import Pmgd.Lib.ByteMemory
import Pmgd.Lib.LabelledRun
import Pmgd.Lib.UndoLog

/-!
# Allocation of single objects

A fixed allocator hands out objects of one size from a pool: the head of a free list whose
links are kept in the first words of the free objects, or else the object at the tail.  Frees
wait for the commit.  A transaction logs the header before it changes it and the link of an
object that it takes from the free list; memory beyond the tail is not logged.

A client may write to its objects, but keeps bit 0 of their first words clear, which tells
them from free objects, and logs what it overwrites unless the object is new.
-/

namespace Pmgd

open ByteMemory LabelledRun UndoLog

/-- The part of the header that changes, `RegionHeader::tail_ptr`, `free_ptr` and
`num_allocated`; the header and the objects do not overlap. -/
structure RegionHeader where
  tailPtr : Nat
  freePtr : Nat
  numAllocated : Int
  deriving DecidableEq, Repr

/-- The constants of an allocator.  The size of an object is a power of two of at least 8, and
the pool starts at a multiple of it. -/
structure FixedAllocator where
  start : Nat
  sizeBits : Nat
  maxAddr : Nat
  sizeBits_ge : 3 ≤ sizeBits
  start_pos : 0 < start
  aligned : 2 ^ sizeBits ∣ start
  maxAddr_lt : maxAddr < 2 ^ 64

namespace FixedAllocator

/-- `FREE_BIT`. -/
def freeBit : Nat :=
  1

/-- `word & ~FREE_BIT`. -/
def clearFreeBit (word : Nat) : Nat :=
  word - word % 2

/-- `object_size`. -/
def size (allocator : FixedAllocator) : Nat :=
  2 ^ allocator.sizeBits

/-- The first word of an object. -/
def word (mem : Memory) (p : Nat) : Nat :=
  loadNat mem p 8

def setWord (mem : Memory) (p value : Nat) : Memory :=
  store mem p (encode 8 value)

/-- `is_free`. -/
def IsFree (mem : Memory) (p : Nat) : Prop :=
  word mem p &&& freeBit ≠ 0

/-- `alloc` behind its log calls; `none` is `BadAlloc`. -/
def alloc (allocator : FixedAllocator) (header : RegionHeader) (mem : Memory) :
    Option (Nat × RegionHeader × Memory) :=
  if header.freePtr ≠ 0 then
    let mem' := setWord mem header.freePtr (clearFreeBit (word mem header.freePtr))
    some (header.freePtr,
      { header with
        freePtr := word mem' header.freePtr
        numAllocated := header.numAllocated + 1 },
      mem')
  else if header.tailPtr + allocator.size > allocator.maxAddr then none
  else
    some (header.tailPtr,
      { header with
        tailPtr := header.tailPtr + allocator.size
        numAllocated := header.numAllocated + 1 },
      mem)

/-- The loop of `clean_free_list`. -/
def cleanLoop : Nat → Int → Memory → List Nat → Nat × Int × Memory
  | freePtr, numAllocated, mem, [] => (freePtr, numAllocated, mem)
  | freePtr, numAllocated, mem, p :: list =>
      cleanLoop p (numAllocated - 1) (setWord mem p (freePtr ||| freeBit)) list

/-- `clean_free_list` behind its log call. -/
def cleanFreeList (header : RegionHeader) (mem : Memory) (list : List Nat) :
    RegionHeader × Memory :=
  match cleanLoop header.freePtr header.numAllocated mem list with
  | (freePtr, numAllocated, mem') =>
      ({ header with freePtr := freePtr, numAllocated := numAllocated }, mem')

/-! ## Runs of transactions -/

/-- A running transaction: its undo images of the header and of the objects, the list of its
callback, and the objects that it has allocated. -/
structure Transaction where
  headers : List (Image Unit RegionHeader)
  bytes : List (Image Nat UInt8)
  pending : List Nat
  created : List Nat

/-- The pool, the objects that were live when the running transaction began, and that
transaction. -/
structure State where
  header : RegionHeader
  mem : Memory
  base : List Nat
  tx : Option Transaction

/-- What a thread does with the allocator.  `room` is the number of log calls for which the
journal has room; a log call without room throws. -/
inductive Label
  | begin
  | alloc (room : Nat)
  | free (p : Nat)
  | log (address len : Nat)
  | write (address : Nat) (bytes : List UInt8)
  | commit
  | abort
  deriving DecidableEq, Repr

/-- The objects that were handed out and not freed by a commit. -/
def State.live (state : State) : List Nat :=
  (match state.tx with
    | none => []
    | some tx => tx.created) ++ state.base

/-- Log the header. -/
def Transaction.logHeader (tx : Transaction) (header : RegionHeader) : Transaction :=
  { tx with headers := tx.headers ++ [snapshot (fun _ => True) fun _ => header] }

/-- Log a range of the objects. -/
def Transaction.log (tx : Transaction) (mem : Memory) (address len : Nat) : Transaction :=
  { tx with
    bytes := tx.bytes ++
      [snapshot (fun place => address ≤ place ∧ place < address + len) mem] }

/-- The log calls of `alloc`. -/
def Transaction.logAlloc (tx : Transaction) (header : RegionHeader) (mem : Memory) :
    Transaction :=
  if header.freePtr ≠ 0 then (tx.logHeader header).log mem header.freePtr 8
  else tx.logHeader header

/-- `alloc` in a transaction. -/
def State.alloc (allocator : FixedAllocator) (state : State) (tx : Transaction) (room : Nat) :
    State :=
  if room = 0 then state
  else if state.header.freePtr ≠ 0 ∧ room = 1 then
    { state with tx := some (tx.logHeader state.header) }
  else
    match FixedAllocator.alloc allocator state.header state.mem with
    | none => { state with tx := some (tx.logAlloc state.header state.mem) }
    | some (p, header, mem) =>
        ⟨header, mem, state.base,
          some { tx.logAlloc state.header state.mem with created := p :: tx.created }⟩

def step (allocator : FixedAllocator) (state : State) (label : Label) : Option State :=
  match label, state.tx with
  | .begin, none => some { state with tx := some ⟨[], [], [], []⟩ }
  | .alloc room, some tx => some (state.alloc allocator tx room)
  | .free p, some tx => some { state with tx := some { tx with pending := p :: tx.pending } }
  | .log address len, some tx => some { state with tx := some (tx.log state.mem address len) }
  | .write address bytes, some _ => some { state with mem := store state.mem address bytes }
  | .commit, some tx =>
      match cleanFreeList state.header state.mem tx.pending with
      | (header, mem) => some ⟨header, mem, (tx.created ++ state.base).diff tx.pending, none⟩
  | .abort, some tx =>
      some ⟨undo tx.headers (fun _ => state.header) (), undo tx.bytes state.mem, state.base,
        none⟩
  | _, _ => none

/-- A new allocator; the region is a new file. -/
def created (allocator : FixedAllocator) : State :=
  ⟨⟨allocator.start, 0, 0⟩, fun _ => 0, [], none⟩

/-- What the clients promise: they free live objects, once, and write inside live objects.  They
log what they overwrite unless the object is new, and keep bit 0 of its first word clear. -/
def Disciplined (allocator : FixedAllocator) (state : State) (label : Label) : Prop :=
  match label, state.tx with
  | .free p, some tx => p ∈ state.live ∧ p ∉ tx.pending
  | .write address bytes, some tx =>
      ∃ p ∈ state.live, p ≤ address ∧ address + bytes.length ≤ p + allocator.size ∧
        (p ∉ tx.created → ∀ i < bytes.length, Covers tx.bytes (address + i)) ∧
        (address = p → ∀ byte ∈ bytes.head?, byte.toNat % 2 = 0)
  | _, _ => True

instance (allocator : FixedAllocator) (state : State) (label : Label) :
    Decidable (Disciplined allocator state label) := by
  unfold Disciplined
  haveI (bytes : List UInt8) : Decidable (∀ byte ∈ bytes.head?, byte.toNat % 2 = 0) :=
    Option.decidableForallMem _
  split <;> infer_instance

/-- The objects in front of the tail. -/
def IsObject (allocator : FixedAllocator) (tailPtr p : Nat) : Prop :=
  allocator.start ≤ p ∧ p < tailPtr ∧ allocator.size ∣ p

/-- The links of a list of free objects, the first of which a pointer points to. -/
def Chain (mem : Memory) : Nat → List Nat → Prop
  | ptr, [] => ptr = 0
  | ptr, p :: list => ptr = p ∧ p ≠ 0 ∧ Chain mem (clearFreeBit (word mem p)) list

/-- What is promised at every point between operations. -/
def NoAliasing (allocator : FixedAllocator) (state : State) : Prop :=
  ∃ free, Chain state.mem state.header.freePtr free ∧ free.Nodup ∧ state.live.Nodup ∧
    free.Disjoint state.live ∧
    (∀ p, p ∈ free ∨ p ∈ state.live ↔ allocator.IsObject state.header.tailPtr p) ∧
    (∀ p, allocator.IsObject state.header.tailPtr p → (IsFree state.mem p ↔ p ∈ free)) ∧
    state.header.numAllocated = state.live.length

/-! ## Words of objects -/

section Words

variable {allocator : FixedAllocator} {mem other : Memory} {p q value : Nat}

theorem size_ge (allocator : FixedAllocator) : 8 ≤ allocator.size :=
  Nat.pow_le_pow_right (show 0 < 2 by decide) allocator.sizeBits_ge

theorem even_of_size_dvd (isMultiple : allocator.size ∣ p) : p % 2 = 0 := by
  have even : 2 ∣ allocator.size :=
    dvd_pow_self 2 (by have := allocator.sizeBits_ge; omega)
  exact Nat.mod_eq_zero_of_dvd (even.trans isMultiple)

/-- Different objects do not overlap. -/
theorem disjoint_of_ne (first : allocator.size ∣ p) (second : allocator.size ∣ q)
    (different : p ≠ q) : p + allocator.size ≤ q ∨ q + allocator.size ≤ p := by
  obtain ⟨i, rfl⟩ := first
  obtain ⟨j, rfl⟩ := second
  rcases lt_trichotomy i j with less | rfl | greater
  · left
    rw [← Nat.mul_succ]
    exact Nat.mul_le_mul_left _ less
  · exact absurd rfl different
  · right
    rw [← Nat.mul_succ]
    exact Nat.mul_le_mul_left _ greater

theorem isFree_iff : IsFree mem p ↔ (mem p).toNat % 2 = 1 := by
  have even := loadNat_mod_two mem p 7
  rw [IsFree, freeBit, Nat.and_one_is_mod, word, even]
  omega

theorem word_congr (same : ∀ i < 8, mem (p + i) = other (p + i)) : word mem p = word other p := by
  rw [word, word, loadNat, loadNat, load_congr same]

theorem word_setWord_self (small : value < 2 ^ 64) : word (setWord mem p value) p = value :=
  loadNat_store_self small

theorem setWord_outside {place : Nat} (outside : place < p ∨ p + 8 ≤ place) :
    setWord mem p value place = mem place :=
  store_outside (by rwa [length_encode])

theorem word_setWord_of_ne (first : allocator.size ∣ p) (second : allocator.size ∣ q)
    (different : q ≠ p) : word (setWord mem p value) q = word mem q := by
  have apart := disjoint_of_ne first second different.symm
  have wide := size_ge allocator
  exact word_congr fun i inWord => setWord_outside (by omega)

theorem isFree_setWord_self (small : value < 2 ^ 64) :
    IsFree (setWord mem p value) p ↔ value % 2 = 1 := by
  rw [IsFree, word_setWord_self small, freeBit, Nat.and_one_is_mod]
  omega

theorem isFree_setWord_of_ne (first : allocator.size ∣ p) (second : allocator.size ∣ q)
    (different : q ≠ p) : IsFree (setWord mem p value) q ↔ IsFree mem q := by
  rw [IsFree, IsFree, word_setWord_of_ne first second different]

theorem or_freeBit_of_even (even : value % 2 = 0) : value ||| freeBit = value + 1 := by
  have half : 2 ^ 1 * (value / 2) = value := by omega
  have disjoint := Nat.two_pow_add_eq_or_of_lt (show 1 < 2 ^ 1 by decide) (value / 2)
  rw [half] at disjoint
  exact disjoint.symm

theorem clearFreeBit_succ (even : value % 2 = 0) : clearFreeBit (value + 1) = value := by
  rw [clearFreeBit]
  omega

theorem clearFreeBit_mod_two (value : Nat) : clearFreeBit value % 2 = 0 := by
  rw [clearFreeBit]
  omega

theorem Chain.congr {list : List Nat} {ptr : Nat} (chain : Chain mem ptr list)
    (same : ∀ p ∈ list, word other p = word mem p) : Chain other ptr list := by
  induction list generalizing ptr with
  | nil => exact chain
  | cons p list ih =>
      obtain ⟨rfl, notNull, rest⟩ := chain
      refine ⟨rfl, notNull, ?_⟩
      rw [same ptr List.mem_cons_self]
      exact ih rest fun q member => same q (List.mem_cons_of_mem _ member)

end Words

/-! ## One operation on the pool -/

theorem IsObject.ne_zero {allocator : FixedAllocator} {tailPtr p : Nat}
    (isObject : allocator.IsObject tailPtr p) : p ≠ 0 := by
  have positive := allocator.start_pos
  have inPool := isObject.1
  omega

/-- The pool with its live and its free objects. -/
structure Consistent (allocator : FixedAllocator) (header : RegionHeader) (mem : Memory)
    (live free : List Nat) : Prop where
  chain : Chain mem header.freePtr free
  nodup : (free ++ live).Nodup
  objects : ∀ p, p ∈ free ++ live ↔ allocator.IsObject header.tailPtr p
  freeBits : ∀ p ∈ free, IsFree mem p
  clearBits : ∀ p, allocator.size ∣ p → p ∉ free → ¬ IsFree mem p
  count : header.numAllocated = live.length
  tail : allocator.size ∣ header.tailPtr ∧ allocator.start ≤ header.tailPtr
  bounded : header.tailPtr ≤ max allocator.start allocator.maxAddr

section Consistent

variable {allocator : FixedAllocator} {header : RegionHeader} {mem other : Memory}
  {live free : List Nat} (consistent : Consistent allocator header mem live free)
include consistent

theorem Consistent.noAliasing : free.Nodup ∧ live.Nodup ∧ free.Disjoint live ∧
    (∀ p, p ∈ free ∨ p ∈ live ↔ allocator.IsObject header.tailPtr p) ∧
    (∀ p, allocator.IsObject header.tailPtr p → (IsFree mem p ↔ p ∈ free)) ∧
    header.numAllocated = live.length := by
  obtain ⟨freeNodup, liveNodup, disjoint⟩ := List.nodup_append'.mp consistent.nodup
  refine ⟨freeNodup, liveNodup, disjoint, fun p => ?_, fun p isObject => ?_, consistent.count⟩
  · rw [← List.mem_append]
    exact consistent.objects p
  · refine ⟨fun isFree => ?_, consistent.freeBits p⟩
    by_contra notFree
    exact consistent.clearBits p isObject.2.2 notFree isFree

theorem Consistent.isObject_free {p : Nat} (member : p ∈ free) :
    allocator.IsObject header.tailPtr p :=
  (consistent.objects p).mp (List.mem_append_left _ member)

theorem Consistent.isObject_live {p : Nat} (member : p ∈ live) :
    allocator.IsObject header.tailPtr p :=
  (consistent.objects p).mp (List.mem_append_right _ member)

theorem Consistent.notMem_free {p : Nat} (member : p ∈ live) : p ∉ free :=
  fun isFree => (List.nodup_append'.mp consistent.nodup).2.2 isFree member

/-- Addresses of objects fit into words. -/
theorem Consistent.lt_of_isObject {p : Nat} (isObject : allocator.IsObject header.tailPtr p) :
    p < 2 ^ 64 - 1 := by
  have bounded := consistent.bounded
  have small := allocator.maxAddr_lt
  have inPool := isObject.1
  have inFront := isObject.2.1
  omega

/-- Only the links of the free objects and the bits of the others matter. -/
theorem Consistent.congr (words : ∀ p ∈ free, word other p = word mem p)
    (bits : ∀ p, allocator.size ∣ p → p ∉ free → ¬ IsFree mem p → ¬ IsFree other p) :
    Consistent allocator header other live free where
  chain := consistent.chain.congr words
  nodup := consistent.nodup
  objects := consistent.objects
  freeBits := by
    intro p member
    rw [IsFree, words p member]
    exact consistent.freeBits p member
  clearBits := fun p isMultiple notFree =>
    bits p isMultiple notFree (consistent.clearBits p isMultiple notFree)
  count := consistent.count
  tail := consistent.tail
  bounded := consistent.bounded

/-- Taking the head of the free list. -/
theorem Consistent.takeFree {p : Nat} {rest : List Nat} (isHead : free = p :: rest) :
    Consistent allocator
      { header with
        freePtr := clearFreeBit (word mem p), numAllocated := header.numAllocated + 1 }
      (setWord mem p (clearFreeBit (word mem p))) (p :: live) rest := by
  subst isHead
  obtain ⟨-, notNull, links⟩ := consistent.chain
  have isObject := consistent.isObject_free List.mem_cons_self
  have perm : (p :: rest ++ live).Perm (rest ++ p :: live) := List.perm_middle.symm
  have nodup := perm.nodup_iff.mp consistent.nodup
  have notInRest : p ∉ rest := (List.nodup_cons.mp consistent.nodup).1 ∘ List.mem_append_left _
  have small : clearFreeBit (word mem p) < 2 ^ 64 := by
    have bound := decode_lt (load mem p 8)
    rw [length_load] at bound
    exact lt_of_le_of_lt (Nat.sub_le _ _) bound
  refine ⟨?_, nodup, fun q => ?_, fun q member => ?_, fun q isMultiple notFree => ?_, ?_,
    consistent.tail, consistent.bounded⟩
  · refine links.congr fun q member => ?_
    have isFree := consistent.isObject_free (List.mem_cons_of_mem p member)
    exact word_setWord_of_ne isObject.2.2 isFree.2.2 fun same => notInRest (same ▸ member)
  · rw [← perm.mem_iff]
    exact consistent.objects q
  · have isFree := consistent.isObject_free (List.mem_cons_of_mem p member)
    rw [isFree_setWord_of_ne isObject.2.2 isFree.2.2 fun same => notInRest (same ▸ member)]
    exact consistent.freeBits q (List.mem_cons_of_mem p member)
  · by_cases same : q = p
    · rw [same, isFree_setWord_self small, clearFreeBit_mod_two]
      exact zero_ne_one
    · rw [isFree_setWord_of_ne isObject.2.2 isMultiple same]
      exact consistent.clearBits q isMultiple (by simp [same, notFree])
  · rw [List.length_cons, consistent.count]
    push_cast
    rfl

/-- Taking the object at the tail. -/
theorem Consistent.takeTail (empty : header.freePtr = 0)
    (room : header.tailPtr + allocator.size ≤ allocator.maxAddr) :
    Consistent allocator
      { header with
        tailPtr := header.tailPtr + allocator.size, numAllocated := header.numAllocated + 1 }
      mem (header.tailPtr :: live) free := by
  have wide := size_ge allocator
  have none : free = [] := by
    cases free with
    | nil => rfl
    | cons p rest =>
        obtain ⟨isHead, notNull, -⟩ := consistent.chain
        exact absurd (isHead.symm.trans empty) notNull
  subst none
  have isNew : header.tailPtr ∉ live := by
    intro member
    exact absurd (consistent.isObject_live member).2.1 (lt_irrefl _)
  refine ⟨consistent.chain, List.nodup_cons.mpr ⟨isNew, consistent.nodup⟩, fun q => ?_,
    by simp, consistent.clearBits, ?_, ⟨Nat.dvd_add consistent.tail.1 dvd_rfl, ?_⟩, ?_⟩
  · have old := consistent.objects q
    simp only [List.nil_append] at old
    rw [List.nil_append, List.mem_cons, old]
    constructor
    · rintro (rfl | ⟨inPool, inFront, isMultiple⟩)
      · exact ⟨consistent.tail.2, by dsimp only; omega, consistent.tail.1⟩
      · exact ⟨inPool, by dsimp only; omega, isMultiple⟩
    · rintro ⟨inPool, inFront, isMultiple⟩
      by_cases same : q = header.tailPtr
      · exact .inl same
      · have apart := disjoint_of_ne consistent.tail.1 isMultiple (Ne.symm same)
        dsimp only at inFront
        exact .inr ⟨inPool, by omega, isMultiple⟩
  · rw [List.length_cons, consistent.count]
    push_cast
    rfl
  · have inPool := consistent.tail.2
    dsimp only
    omega
  · dsimp only
    omega

/-- Putting one live object in front of the free list. -/
theorem Consistent.putFree {p : Nat} (isLive : p ∈ live) :
    Consistent allocator
      { header with freePtr := p, numAllocated := header.numAllocated - 1 }
      (setWord mem p (header.freePtr ||| freeBit)) (live.erase p) (p :: free) := by
  have isObject := consistent.isObject_live isLive
  have notFree := consistent.notMem_free isLive
  have perm : (free ++ live).Perm (p :: free ++ live.erase p) :=
    ((List.perm_cons_erase isLive).append_left free).trans List.perm_middle
  have headOk : header.freePtr % 2 = 0 ∧ header.freePtr + 1 < 2 ^ 64 := by
    have chain := consistent.chain
    cases free with
    | nil =>
        rw [Chain] at chain
        rw [chain]
        decide
    | cons q rest =>
        obtain ⟨rfl, -, -⟩ := chain
        have isFree := consistent.isObject_free List.mem_cons_self
        have bound := consistent.lt_of_isObject isFree
        exact ⟨even_of_size_dvd isFree.2.2, by omega⟩
  rw [or_freeBit_of_even headOk.1]
  refine ⟨⟨rfl, isObject.ne_zero, ?_⟩, perm.nodup_iff.mp consistent.nodup, fun q => ?_,
    fun q member => ?_, fun q isMultiple outside => ?_, ?_, consistent.tail,
    consistent.bounded⟩
  · rw [word_setWord_self headOk.2, clearFreeBit_succ headOk.1]
    refine consistent.chain.congr fun q member => ?_
    exact word_setWord_of_ne isObject.2.2 (consistent.isObject_free member).2.2
      fun same => notFree (same ▸ member)
  · rw [← perm.mem_iff]
    exact consistent.objects q
  · rcases List.mem_cons.mp member with rfl | old
    · rw [isFree_setWord_self headOk.2]
      omega
    · rw [isFree_setWord_of_ne isObject.2.2 (consistent.isObject_free old).2.2
        fun same => notFree (same ▸ old)]
      exact consistent.freeBits q old
  · rw [List.mem_cons, not_or] at outside
    rw [isFree_setWord_of_ne isObject.2.2 isMultiple outside.1]
    exact consistent.clearBits q isMultiple outside.2
  · have positive := List.length_pos_of_mem isLive
    rw [List.length_erase_of_mem isLive]
    dsimp only
    rw [consistent.count]
    omega

end Consistent

/-! ## Runs -/

section Runs

variable {allocator : FixedAllocator} {state next : State}

/-- The free list after a commit has the freed objects in front. -/
theorem Consistent.cleanLoop {list : List Nat} {header : RegionHeader} {mem : Memory}
    {live free : List Nat} (consistent : Consistent allocator header mem live free)
    (nodup : list.Nodup) (isLive : ∀ p ∈ list, p ∈ live) {freePtr : Nat} {numAllocated : Int}
    {last : Memory} (cleaned : FixedAllocator.cleanLoop header.freePtr header.numAllocated mem
      list = (freePtr, numAllocated, last)) :
    Consistent allocator
      { header with freePtr := freePtr, numAllocated := numAllocated } last
      (live.diff list) (list.reverse ++ free) := by
  induction list generalizing header mem live free with
  | nil =>
      obtain ⟨rfl, rfl, rfl⟩ := by simpa [FixedAllocator.cleanLoop] using cleaned
      exact consistent
  | cons p list ih =>
      rw [List.nodup_cons] at nodup
      have first := consistent.putFree (isLive p List.mem_cons_self)
      have later : ∀ q ∈ list, q ∈ live.erase p := by
        intro q member
        have different : q ≠ p := fun same => nodup.1 (same ▸ member)
        exact (List.mem_erase_of_ne different).mpr (isLive q (List.mem_cons_of_mem p member))
      have rest := ih first nodup.2 later cleaned
      rw [List.diff_cons, List.reverse_cons, List.append_assoc]
      exact rest

/-- Undoing the running transaction leaves the pool of its start; the words of the objects
that it took from the free list are in its log. -/
structure Undoes (allocator : FixedAllocator) (state : State) (tx : Transaction)
    (free : List Nat) : Prop where
  consistent : Consistent allocator (undo tx.headers (fun _ => state.header) ())
    (undo tx.bytes state.mem) state.base free
  tail : (undo tx.headers (fun _ => state.header) ()).tailPtr ≤ state.header.tailPtr
  words : ∀ p ∈ tx.created, p ∈ free → ∀ i < 8, Covers tx.bytes (p + i)

structure Sound (allocator : FixedAllocator) (state : State) : Prop where
  consistent : ∃ free, Consistent allocator state.header state.mem state.live free
  undoes : ∀ tx, state.tx = some tx → ∃ free, Undoes allocator state tx free
  pending : ∀ tx, state.tx = some tx → tx.pending.Nodup ∧ ∀ p ∈ tx.pending, p ∈ state.live

theorem Sound.noAliasing (sound : Sound allocator state) : NoAliasing allocator state := by
  obtain ⟨free, consistent⟩ := sound.consistent
  exact ⟨free, consistent.chain, consistent.noAliasing⟩

theorem sound_created (allocator : FixedAllocator) : Sound allocator (created allocator) where
  consistent := by
    refine ⟨[], rfl, List.nodup_nil, fun p => ?_, by simp, fun p _ _ isFree => ?_, rfl,
      ⟨allocator.aligned, le_rfl⟩, le_max_left _ _⟩
    · simp only [State.live, created, List.append_nil, List.not_mem_nil, false_iff, IsObject]
      omega
    · rw [isFree_iff] at isFree
      simp [created] at isFree
  undoes := by simp [created]
  pending := by simp [created]

theorem live_of_tx {tx : Transaction} (isTx : state.tx = some tx) :
    state.live = tx.created ++ state.base := by
  rw [State.live, isTx]

theorem live_of_none (noTx : state.tx = none) : state.live = state.base := by
  rw [State.live, noTx, List.nil_append]

theorem Undoes.logHeader {tx : Transaction} {free : List Nat}
    (undoes : Undoes allocator state tx free) :
    Undoes allocator state (tx.logHeader state.header) free := by
  have same : undo (tx.headers ++ [snapshot (fun _ => True) fun _ => state.header])
      (fun _ => state.header) = undo tx.headers fun _ => state.header :=
    undo_concat_snapshot _ _ _
  refine ⟨?_, ?_, undoes.words⟩
  · rw [Transaction.logHeader, same]
    exact undoes.consistent
  · rw [Transaction.logHeader, same]
    exact undoes.tail

theorem Undoes.log {tx : Transaction} {free : List Nat}
    (undoes : Undoes allocator state tx free) (address len : Nat) :
    Undoes allocator state (tx.log state.mem address len) free := by
  refine ⟨?_, undoes.tail, fun p isCreated isFree i inWord => ?_⟩
  · rw [Transaction.log]
    dsimp only
    rw [undo_concat_snapshot]
    exact undoes.consistent
  · rw [Transaction.log, covers_concat_snapshot]
    exact .inl (undoes.words p isCreated isFree i inWord)

/-- The header is in the log when it has been logged at all. -/
theorem undo_logHeader (tx : Transaction) (header other : RegionHeader) :
    undo (tx.logHeader header).headers (fun _ => other) =
      undo (tx.logHeader header).headers (fun _ => header) := by
  funext place
  refine undo_congr fun uncovered => absurd ?_ uncovered
  rw [Transaction.logHeader, covers_concat_snapshot]
  exact .inr trivial

theorem clearFreeBit_word_lt (mem : Memory) (p : Nat) : clearFreeBit (word mem p) < 2 ^ 64 := by
  have bound := decode_lt (load mem p 8)
  rw [length_load] at bound
  exact lt_of_le_of_lt (Nat.sub_le _ _) bound

/-- What `alloc` does, by the place where it finds the object. -/
theorem alloc_cases {header newHeader : RegionHeader} {mem newMem : Memory} {p : Nat}
    (allocated : FixedAllocator.alloc allocator header mem = some (p, newHeader, newMem)) :
    (header.freePtr ≠ 0 ∧ p = header.freePtr ∧
        newHeader = { header with
          freePtr := clearFreeBit (word mem p), numAllocated := header.numAllocated + 1 } ∧
        newMem = setWord mem p (clearFreeBit (word mem p))) ∨
      (header.freePtr = 0 ∧ header.tailPtr + allocator.size ≤ allocator.maxAddr ∧
        p = header.tailPtr ∧
        newHeader = { header with
          tailPtr := header.tailPtr + allocator.size
          numAllocated := header.numAllocated + 1 } ∧
        newMem = mem) := by
  rw [FixedAllocator.alloc] at allocated
  split_ifs at allocated with onList full
  · obtain ⟨rfl, rfl, rfl⟩ := by simpa using allocated
    refine .inl ⟨onList, rfl, ?_, rfl⟩
    rw [word_setWord_self (clearFreeBit_word_lt mem header.freePtr)]
  · obtain ⟨rfl, rfl, rfl⟩ := by simpa using allocated
    exact .inr ⟨not_not.mp onList, Nat.le_of_not_lt full, rfl, rfl, rfl⟩

/-- An object from the free list, with its word in the log. -/
theorem Undoes.takeFree {tx : Transaction} {free : List Nat}
    (undoes : Undoes allocator state tx free) (header : RegionHeader)
    (sameTail : header.tailPtr = state.header.tailPtr) (p : Nat) (value : Nat) :
    Undoes allocator ⟨header, setWord state.mem p value, state.base,
        some { (tx.logHeader state.header).log state.mem p 8 with created := p :: tx.created }⟩
      { (tx.logHeader state.header).log state.mem p 8 with created := p :: tx.created } free := by
  have logged := (undoes.logHeader).log p 8
  have covered (place : Nat) : Covers ((tx.logHeader state.header).log state.mem p 8).bytes place ↔
      Covers tx.bytes place ∨ p ≤ place ∧ place < p + 8 := by
    rw [Transaction.log, covers_concat_snapshot]
    rfl
  have headers : undo ((tx.logHeader state.header).log state.mem p 8).headers (fun _ => header) =
      undo ((tx.logHeader state.header).log state.mem p 8).headers fun _ => state.header :=
    undo_logHeader tx state.header header
  refine ⟨?_, ?_, ?_⟩
  · have bytes : undo ((tx.logHeader state.header).log state.mem p 8).bytes
        (setWord state.mem p value) =
          undo ((tx.logHeader state.header).log state.mem p 8).bytes state.mem := by
      funext place
      refine undo_congr fun uncovered => setWord_outside ?_
      rw [covered] at uncovered
      omega
    have consistent := logged.consistent
    rw [← bytes] at consistent
    rw [← headers] at consistent
    exact consistent
  · have tail := logged.tail
    rw [← headers] at tail
    dsimp only
    rw [sameTail]
    exact tail
  · intro q isCreated isFree i inWord
    rcases List.mem_cons.mp isCreated with rfl | old
    · exact (covered _).mpr (.inr ⟨by omega, by omega⟩)
    · exact logged.words q old isFree i inWord

/-- The object at the tail, which did not exist when the transaction began. -/
theorem Undoes.takeTail {tx : Transaction} {free : List Nat}
    (undoes : Undoes allocator state tx free) (header : RegionHeader)
    (grows : state.header.tailPtr ≤ header.tailPtr) :
    Undoes allocator ⟨header, state.mem, state.base,
        some { tx.logHeader state.header with created := state.header.tailPtr :: tx.created }⟩
      { tx.logHeader state.header with created := state.header.tailPtr :: tx.created } free := by
  have logged := undoes.logHeader
  have headers := undo_logHeader tx state.header header
  refine ⟨?_, ?_, ?_⟩
  · have consistent := logged.consistent
    rw [← headers] at consistent
    exact consistent
  · have tail := logged.tail
    rw [← headers] at tail
    exact tail.trans grows
  · intro q isCreated isFree i inWord
    rcases List.mem_cons.mp isCreated with rfl | old
    · have inFront := (undoes.consistent.isObject_free isFree).2.1
      exact absurd undoes.tail (Nat.not_le.mpr inFront)
    · exact logged.words q old isFree i inWord

theorem Sound.setTx (sound : Sound allocator state) {tx other : Transaction}
    (isTx : state.tx = some tx) (created : other.created = tx.created)
    (undoes : ∃ free, Undoes allocator state other free)
    (pending : other.pending.Nodup ∧ ∀ p ∈ other.pending, p ∈ state.live) :
    Sound allocator { state with tx := some other } := by
  have sameLive : State.live { state with tx := some other } = state.live := by
    rw [live_of_tx isTx, live_of_tx rfl, created]
  refine ⟨?_, fun third isThird => ?_, fun third isThird => ?_⟩
  · rw [sameLive]
    exact sound.consistent
  · obtain rfl := Option.some.inj isThird
    obtain ⟨free, undoes⟩ := undoes
    exact ⟨free, undoes.consistent, undoes.tail, undoes.words⟩
  · obtain rfl := Option.some.inj isThird
    rw [sameLive]
    exact pending

/-- The state behind an allocation. -/
theorem Sound.took (sound : Sound allocator state) {tx other : Transaction}
    (isTx : state.tx = some tx) (pending : other.pending = tx.pending) {p : Nat}
    (created : other.created = p :: tx.created) {header : RegionHeader} {mem : Memory}
    (consistent : ∃ free, Consistent allocator header mem (p :: state.live) free)
    (undoes : ∃ free, Undoes allocator ⟨header, mem, state.base, some other⟩ other free) :
    Sound allocator ⟨header, mem, state.base, some other⟩ := by
  have live : State.live ⟨header, mem, state.base, some other⟩ = p :: state.live := by
    rw [live_of_tx isTx, live_of_tx rfl, created, List.cons_append]
  refine ⟨?_, fun third isThird => ?_, fun third isThird => ?_⟩
  · rw [live]
    exact consistent
  · obtain rfl := Option.some.inj isThird
    exact undoes
  · obtain rfl := Option.some.inj isThird
    rw [live, pending]
    obtain ⟨nodup, isLive⟩ := sound.pending tx isTx
    exact ⟨nodup, fun q member => List.mem_cons_of_mem p (isLive q member)⟩

theorem Consistent.exists_head {header : RegionHeader} {mem : Memory} {live free : List Nat}
    (consistent : Consistent allocator header mem live free) (onList : header.freePtr ≠ 0) :
    ∃ rest, free = header.freePtr :: rest := by
  cases free with
  | nil => exact absurd consistent.chain onList
  | cons p rest =>
      obtain ⟨isHead, -⟩ := consistent.chain
      exact ⟨rest, by rw [isHead]⟩

theorem Undoes.logAlloc {tx : Transaction} {free : List Nat}
    (undoes : Undoes allocator state tx free) :
    Undoes allocator state (tx.logAlloc state.header state.mem) free := by
  rw [Transaction.logAlloc]
  split_ifs
  · exact undoes.logHeader.log _ _
  · exact undoes.logHeader

theorem logAlloc_pending (tx : Transaction) (header : RegionHeader) (mem : Memory) :
    (tx.logAlloc header mem).pending = tx.pending := by
  rw [Transaction.logAlloc]
  split_ifs <;> rfl

theorem logAlloc_created (tx : Transaction) (header : RegionHeader) (mem : Memory) :
    (tx.logAlloc header mem).created = tx.created := by
  rw [Transaction.logAlloc]
  split_ifs <;> rfl

theorem Sound.alloc (sound : Sound allocator state) {tx : Transaction}
    (isTx : state.tx = some tx) (room : Nat) :
    Sound allocator (state.alloc allocator tx room) := by
  obtain ⟨free, consistent⟩ := sound.consistent
  obtain ⟨old, undoes⟩ := sound.undoes tx isTx
  have pending := sound.pending tx isTx
  rw [State.alloc]
  split_ifs with noRoom onlyHeader
  · exact sound
  · exact sound.setTx isTx rfl ⟨old, undoes.logHeader⟩ pending
  · cases allocated : FixedAllocator.alloc allocator state.header state.mem with
    | none =>
        dsimp only
        refine sound.setTx isTx (logAlloc_created _ _ _) ⟨old, undoes.logAlloc⟩ ?_
        rw [logAlloc_pending]
        exact pending
    | some result =>
        obtain ⟨p, header, mem⟩ := result
        dsimp only
        obtain ⟨onList, rfl, rfl, rfl⟩ | ⟨empty, room, rfl, rfl, rfl⟩ := alloc_cases allocated
        · obtain ⟨rest, isHead⟩ := consistent.exists_head onList
          rw [Transaction.logAlloc, if_pos onList]
          have taken := undoes.takeFree
            { state.header with
              freePtr := clearFreeBit (word state.mem state.header.freePtr)
              numAllocated := state.header.numAllocated + 1 }
            rfl state.header.freePtr (clearFreeBit (word state.mem state.header.freePtr))
          refine sound.took isTx ?_ ?_ ⟨rest, consistent.takeFree isHead⟩ ⟨old, taken⟩
          · rfl
          · rfl
        · rw [Transaction.logAlloc, if_neg (not_not.mpr empty)]
          have taken := undoes.takeTail
            { state.header with
              tailPtr := state.header.tailPtr + allocator.size
              numAllocated := state.header.numAllocated + 1 }
            (Nat.le_add_right _ _)
          refine sound.took isTx ?_ ?_ ⟨free, consistent.takeTail empty room⟩ ⟨old, taken⟩
          · rfl
          · rfl

/-- A write of a client to one of its objects. -/
theorem Sound.write (sound : Sound allocator state) {tx : Transaction}
    (isTx : state.tx = some tx) {address : Nat} {bytes : List UInt8}
    (disciplined : Disciplined allocator state (.write address bytes)) :
    Sound allocator { state with mem := store state.mem address bytes } := by
  simp only [Disciplined, isTx] at disciplined
  obtain ⟨p, isLive, low, high, logged, keepsBit⟩ := disciplined
  obtain ⟨free, consistent⟩ := sound.consistent
  obtain ⟨old, undoes⟩ := sound.undoes tx isTx
  have wide := size_ge allocator
  have isObject := consistent.isObject_live isLive
  have elsewhere {mem : Memory} {q place : Nat} (isMultiple : allocator.size ∣ q)
      (different : q ≠ p) (inside : q ≤ place ∧ place < q + allocator.size) :
      store mem address bytes place = mem place := by
    have apart := disjoint_of_ne isMultiple isObject.2.2 different
    exact store_outside (by omega)
  have atStart {mem : Memory} (notFree : (mem p).toNat % 2 ≠ 1) :
      (store mem address bytes p).toNat % 2 ≠ 1 := by
    by_cases hit : address = p
    · subst hit
      cases bytes with
      | nil => rwa [store_outside (by simp)]
      | cons byte bytes =>
          have first := @store_inside mem address (byte :: bytes) 0 (by simp)
          rw [Nat.add_zero] at first
          rw [first, List.getElem_cons_zero]
          have even := keepsBit rfl byte rfl
          omega
    · rwa [store_outside (by omega)]
  refine ⟨⟨free, consistent.congr (fun q member => ?_) (fun q isMultiple notFree clear => ?_)⟩,
    fun third isThird => ?_, sound.pending⟩
  · have different : q ≠ p := fun same => consistent.notMem_free isLive (same ▸ member)
    exact word_congr fun i inWord =>
      elsewhere (consistent.isObject_free member).2.2 different (by omega)
  · rw [isFree_iff] at clear ⊢
    dsimp only
    by_cases same : q = p
    · subst same
      exact atStart clear
    · rw [elsewhere isMultiple same ⟨le_rfl, by omega⟩]
      exact clear
  · obtain rfl := Option.some.inj (isTx.symm.trans isThird)
    have kept (place : Nat) (same : ¬ Covers tx.bytes place →
        store state.mem address bytes place = state.mem place) :
        undo tx.bytes (store state.mem address bytes) place = undo tx.bytes state.mem place :=
      undo_congr same
    refine ⟨old, undoes.consistent.congr (fun q member => ?_)
      (fun q isMultiple notOld clear => ?_), undoes.tail, undoes.words⟩
    · refine word_congr fun i inWord => kept _ fun uncovered => ?_
      have isMultiple := (undoes.consistent.isObject_free member).2.2
      by_cases same : q = p
      · subst same
        -- the object was free when the transaction began, so it is new
        rw [live_of_tx isTx] at isLive
        rcases List.mem_append.mp isLive with isCreated | inBase
        · exact absurd (undoes.words q isCreated member i inWord) uncovered
        · exact absurd member (undoes.consistent.notMem_free inBase)
      · exact elsewhere isMultiple same (by omega)
    · rw [isFree_iff] at clear ⊢
      by_cases same : q = p
      · subst same
        by_cases covered : Covers tx.bytes q
        · rwa [kept q fun uncovered => absurd covered uncovered]
        · rw [undo_of_not_covers _ covered] at clear ⊢
          exact atStart clear
      · rwa [kept q fun _ => elsewhere isMultiple same ⟨le_rfl, by omega⟩]

theorem Sound.step (sound : Sound allocator state) {label : Label}
    (disciplined : Disciplined allocator state label)
    (stepped : FixedAllocator.step allocator state label = some next) :
    Sound allocator next := by
  cases isTx : state.tx with
  | none =>
      cases label with
      | begin =>
          simp only [FixedAllocator.step, isTx, Option.some.injEq] at stepped
          subst stepped
          obtain ⟨free, consistent⟩ := sound.consistent
          have live : State.live { state with tx := some ⟨[], [], [], []⟩ } = state.live := by
            rw [live_of_none isTx, live_of_tx rfl, List.nil_append]
          refine ⟨⟨free, by rwa [live]⟩, fun tx isNew => ?_, fun tx isNew => ?_⟩
          · obtain rfl := Option.some.inj isNew
            rw [live_of_none isTx] at consistent
            exact ⟨free, consistent, le_rfl, by simp⟩
          · obtain rfl := Option.some.inj isNew
            simp
      | _ => simp [FixedAllocator.step, isTx] at stepped
  | some tx =>
      have undoes := sound.undoes tx isTx
      have pending := sound.pending tx isTx
      cases label with
      | begin => simp [FixedAllocator.step, isTx] at stepped
      | alloc room =>
          simp only [FixedAllocator.step, isTx, Option.some.injEq] at stepped
          subst stepped
          exact sound.alloc isTx room
      | free p =>
          simp only [Disciplined, isTx] at disciplined
          simp only [FixedAllocator.step, isTx, Option.some.injEq] at stepped
          subst stepped
          obtain ⟨old, undoes⟩ := undoes
          refine sound.setTx isTx rfl ⟨old, undoes.consistent, undoes.tail, undoes.words⟩
            ⟨List.nodup_cons.mpr ⟨disciplined.2, pending.1⟩, fun q member => ?_⟩
          rcases List.mem_cons.mp member with rfl | earlier
          · exact disciplined.1
          · exact pending.2 q earlier
      | log address len =>
          simp only [FixedAllocator.step, isTx, Option.some.injEq] at stepped
          subst stepped
          obtain ⟨old, undoes⟩ := undoes
          exact sound.setTx isTx rfl ⟨old, undoes.log address len⟩ pending
      | write address bytes =>
          simp only [FixedAllocator.step, isTx, Option.some.injEq] at stepped
          rw [← isTx] at stepped
          subst stepped
          exact sound.write isTx disciplined
      | commit =>
          simp only [FixedAllocator.step, isTx, Option.some.injEq] at stepped
          subst stepped
          obtain ⟨free, consistent⟩ := sound.consistent
          rw [live_of_tx isTx] at consistent pending
          have cleaned := consistent.cleanLoop pending.1 pending.2 rfl
          exact ⟨⟨_, cleaned⟩, by simp, by simp⟩
      | abort =>
          simp only [FixedAllocator.step, isTx, Option.some.injEq] at stepped
          subst stepped
          obtain ⟨old, undoes⟩ := undoes
          exact ⟨⟨old, undoes.consistent⟩, by simp, by simp⟩

/-- At every point of a run no object is live twice or live and free, the free list is a list
of exactly the other objects in front of the tail, bit 0 tells them apart, and the live
objects are counted. -/
theorem noAliasing_of_run {labels : List Label}
    (disciplined : MeetsAlong (FixedAllocator.step allocator) (Disciplined allocator)
      (created allocator) labels)
    (ran : run (FixedAllocator.step allocator) (created allocator) labels = some state) :
    NoAliasing allocator state :=
  (run_invariant (Sound allocator) (fun _ _ _ sound => sound.step) (sound_created allocator)
    disciplined ran).noAliasing

end Runs

/-- Four objects of 16 bytes. -/
def fourObjects : FixedAllocator :=
  ⟨64, 4, 128, by decide, by decide, by decide, by decide⟩

/-- Two objects; the first is freed, taken again from the free list and written to, and that is
undone; the second is freed together with its last write. -/
def allocatorRun : List Label :=
  [.begin, .alloc 2, .alloc 2, .write 64 [8, 1], .write 88 [7], .commit,
    .begin, .free 64, .commit,
    .begin, .alloc 2, .write 64 [2], .alloc 1, .abort,
    .begin, .log 88 1, .write 88 [9], .free 80, .commit]

theorem noAliasing_of_run_allocatorRun :
    ∃ state, run (step fourObjects) (created fourObjects) allocatorRun = some state ∧
      state.header = ⟨96, 80, 0⟩ ∧ NoAliasing fourObjects state := by
  have computed : (run (step fourObjects) (created fourObjects) allocatorRun).map
      State.header = some ⟨96, 80, 0⟩ := by
    decide +kernel
  obtain ⟨state, ran, header⟩ := Option.map_eq_some_iff.mp computed
  exact ⟨state, ran, header, noAliasing_of_run (by decide +kernel) ran⟩

end FixedAllocator

end Pmgd
