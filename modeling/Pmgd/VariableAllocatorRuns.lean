import Pmgd.ChunkListFrees
import Pmgd.Lib.LabelledRun

/-!
# Runs of a variable allocator

After a rollback the cursor of the last scanned chunk is found again by the callbacks, but only
from where it is: a free that took the end of the scanned part out of the list has moved it to an
earlier chunk, and the callback for a chunk that was full moves it to the chunk before.  The next
new chunk then replaces the rest of the list.  Nothing is lost when the end of the scanned part is
left alone by a commit that fails.
-/

namespace Pmgd.VariableAllocator

open AllocatorUnit (chunkSize headerSize minAllocBytes wordValues isBorderline chunkBound Failure)
open LinkedList ThrowingState LabelledRun

variable {world after : World} {blocks live : List Block} {old new unlinked : List Nat}
  {chunk other : Nat} {chunks first second : List Nat}

/-! ## Abort callbacks -/

/-- The last chunk in front of a chunk that is not the first one, or the last of all. -/
def chunkBefore (chunks : List Nat) (chunk : Nat) : Option Nat :=
  match chunks with
  | [] => none
  | start :: rest => placeBehind (some start) (rest.takeWhile fun other => decide (other ≠ chunk))

theorem chunkBefore_of_notMem (notLater : chunk ∉ chunks.tail) :
    chunkBefore chunks chunk = chunks.getLast? := by
  cases chunks with
  | nil => rfl
  | cons start rest =>
      have keeps : rest.takeWhile (fun other => decide (other ≠ chunk)) = rest := by
        have all := @List.takeWhile_append_of_pos _ (fun other => decide (other ≠ chunk)) rest []
        rw [List.append_nil, List.takeWhile_nil, List.append_nil] at all
        refine all fun other member => decide_eq_true ?_
        rintro rfl
        exact notLater member
      rw [chunkBefore, keeps, ← placeBehind_none]
      rfl

theorem chunkBefore_append (notEmpty : first ≠ []) (notFirst : chunk ∉ first) :
    chunkBefore (first ++ chunk :: second) chunk = first.getLast? := by
  cases first with
  | nil => exact absurd rfl notEmpty
  | cons start first =>
      have keeps : (first ++ chunk :: second).takeWhile (fun other => decide (other ≠ chunk)) =
          first := by
        rw [List.takeWhile_append_of_pos, List.takeWhile_cons_of_neg (by simp), List.append_nil]
        intro other member
        refine decide_eq_true ?_
        rintro rfl
        exact notFirst (List.mem_cons_of_mem start member)
      rw [List.cons_append, chunkBefore, keeps, ← placeBehind_none]
      rfl

/-- Where `restore_dram_chunk` puts the cursor. -/
def restoredCursor : List Nat → Option Nat → Nat → Option Nat
  | [], last, _ | _, some last, _ => last
  | start :: rest, none, chunk => chunkBefore (start :: rest) chunk

@[simp]
theorem restoredCursor_some (chunks : List Nat) (last chunk : Nat) :
    restoredCursor chunks (some last) chunk = some last := by
  cases chunks <;> rfl

/-- Where `remove_dram_chunk` puts the cursor. -/
def removedCursor (chunks : List Nat) (last : Option Nat) (chunk : Nat) : Option Nat :=
  if last = some chunk then
    if chunks.head? = some chunk then some chunk else chunkBefore chunks chunk
  else last

theorem restoreDramChunk_ends (linked : Linked world.mem.link none chunks) :
    Ends (restoreDramChunk chunk world)
      (fun _ after => after = { world with dram :=
        ⟨if world.mem.HasSpace chunk then world.dram.freeChunks.insert chunk
          else world.dram.freeChunks, world.dram.chunkToScan,
          restoredCursor chunks world.dram.lastChunkScanned chunk⟩ })
      (fun _ => True) := by
  have inserts (last : Option Nat) :
      Ends ((if world.mem.HasSpace chunk then insertChunk chunk else pure () : Alloc Unit)
        { world with dram := { world.dram with lastChunkScanned := last } })
        (fun _ after => after = { world with dram :=
          ⟨if world.mem.HasSpace chunk then world.dram.freeChunks.insert chunk
            else world.dram.freeChunks, world.dram.chunkToScan, last⟩ })
        (fun _ => True) := by
    refine ends_ite (fun space => ?_) fun full => ?_
    · rw [if_pos space]
      rfl
    · rw [if_neg full]
      rfl
  have isKept := inserts world.dram.lastChunkScanned
  unfold restoreDramChunk
  rw [get_bind]
  rcases world with ⟨mem, journal, toFix, locked, ⟨freeChunks, chunkToScan, last⟩, room, granted,
    unlinked⟩
  dsimp only at linked isKept inserts ⊢
  cases last with
  | some last =>
      cases chunks with
      | nil =>
          rw [linked.head]
          exact isKept
      | cons start rest =>
          rw [linked.1]
          exact isKept
  | none =>
      cases chunks with
      | nil =>
          rw [linked.head]
          exact isKept
      | cons start rest =>
          rw [linked.1]
          dsimp only
          cases walked : findPlace mem.link chunk chunkBound (mem.link (some start))
              (some start) with
          | none => trivial
          | some found =>
              obtain rfl := findPlace_eq linked.2 walked
              exact inserts _

/-- The loop of `remove_dram_chunk` starts at the first chunk. -/
theorem findPlace_first {link : Option Nat → Option Nat} {bound : Nat}
    {found : Option Nat × Bool} (linked : Linked link none chunks)
    (walked : findPlace link chunk bound (link none) (link none) = some found) :
    found.1 = if chunks.head? = some chunk then some chunk else chunkBefore chunks chunk := by
  cases bound with
  | zero => simp [findPlace] at walked
  | succ bound =>
      cases chunks with
      | nil =>
          rw [linked.head, List.head?_nil, findPlace] at walked
          obtain rfl := Option.some.inj walked
          rfl
      | cons start rest =>
          rw [linked.1, findPlace] at walked
          rw [List.head?_cons]
          by_cases same : start = chunk
          · rw [if_pos same] at walked
            obtain rfl := Option.some.inj walked
            rw [if_pos (congrArg some same), same]
          · rw [if_neg same] at walked
            rw [if_neg (by simpa using same), findPlace_eq linked.2 walked]
            rfl

theorem removeDramChunk_ends (linked : Linked world.mem.link none chunks) :
    Ends (removeDramChunk chunk world)
      (fun _ after => after = { world with dram :=
        ⟨world.dram.freeChunks.erase chunk, world.dram.chunkToScan,
          removedCursor chunks world.dram.lastChunkScanned chunk⟩ })
      (fun _ => True) := by
  unfold removeDramChunk
  rw [get_bind, removedCursor]
  refine ends_ite (fun isLast => ?_) fun notLast => ?_
  · rw [if_pos isLast]
    cases walked : findPlace world.mem.link chunk chunkBound (world.mem.link none)
        (world.mem.link none) with
    | none => trivial
    | some found =>
        rw [← findPlace_first linked walked]
        rfl
  · rw [if_neg notLast]
    rfl

/-- What one callback makes of the DRAM state. -/
def fixed (mem : Memory) (chunks : List Nat) (dram : Dram) : Nat × Bool → Dram
  | (chunk, true) =>
      ⟨dram.freeChunks.erase chunk, dram.chunkToScan,
        removedCursor chunks dram.lastChunkScanned chunk⟩
  | (chunk, false) =>
      ⟨if mem.HasSpace chunk then dram.freeChunks.insert chunk else dram.freeChunks,
        dram.chunkToScan, restoredCursor chunks dram.lastChunkScanned chunk⟩

theorem abortCallback_ends (linked : Linked world.mem.link none chunks)
    (order : List (Nat × Bool)) :
    Ends (abortCallback order world)
      (fun _ after => after =
        { world with dram := order.foldl (fixed world.mem chunks) world.dram })
      (fun _ => True) := by
  induction order generalizing world with
  | nil => rfl
  | cons entry order ih =>
      obtain ⟨chunk, remove⟩ := entry
      cases remove with
      | true =>
          refine (removeDramChunk_ends linked).bind fun _ after isAfter => ?_
          subst isAfter
          exact ih linked
      | false =>
          refine (restoreDramChunk_ends linked).bind fun _ after isAfter => ?_
          subst isAfter
          exact ih linked

/-- The callbacks do not look at the next chunk to be scanned. -/
theorem chunkToScan_fixed (mem : Memory) (chunks : List Nat) (order : List (Nat × Bool))
    (dram : Dram) : (order.foldl (fixed mem chunks) dram).chunkToScan = dram.chunkToScan := by
  induction order generalizing dram with
  | nil => rfl
  | cons entry order ih =>
      obtain ⟨chunk, remove⟩ := entry
      rw [List.foldl_cons, ih]
      cases remove <;> rfl

/-- After all callbacks only chunks of the list are among those with space. -/
theorem freeChunks_fixed {mem : Memory} {order : List (Nat × Bool)} {dram : Dram}
    (restores : ∀ chunk, (chunk, false) ∈ order → chunk ∈ chunks)
    (nodup : dram.freeChunks.Nodup)
    (inside : ∀ chunk ∈ dram.freeChunks, chunk ∈ chunks ∨ (chunk, true) ∈ order) :
    (order.foldl (fixed mem chunks) dram).freeChunks.Nodup ∧
      ∀ chunk ∈ (order.foldl (fixed mem chunks) dram).freeChunks, chunk ∈ chunks := by
  induction order generalizing dram with
  | nil => exact ⟨nodup, fun chunk isFree => (inside chunk isFree).resolve_right (by simp)⟩
  | cons entry order ih =>
      obtain ⟨fixedChunk, remove⟩ := entry
      have later chunk (member : (chunk, false) ∈ order) :=
        restores chunk (List.mem_cons_of_mem _ member)
      rw [List.foldl_cons]
      cases remove with
      | true =>
          refine ih later (nodup.erase fixedChunk) fun chunk isFree => ?_
          obtain ⟨different, isFree⟩ := nodup.mem_erase_iff.mp isFree
          refine (inside chunk isFree).imp id fun member => ?_
          simpa [different] using member
      | false =>
          have earlier chunk (isFree : chunk ∈ dram.freeChunks) :
              chunk ∈ chunks ∨ (chunk, true) ∈ order :=
            (inside chunk isFree).imp id fun member => by simpa using member
          by_cases space : mem.HasSpace fixedChunk
          · refine ih later (by simpa [fixed, space] using nodup.insert) fun chunk isFree => ?_
            simp only [fixed, if_pos space, List.mem_insert_iff] at isFree
            rcases isFree with rfl | isFree
            · exact .inl (restores chunk List.mem_cons_self)
            · exact earlier chunk isFree
          · refine ih later (by simpa [fixed, space] using nodup) fun chunk isFree => ?_
            simp only [fixed, if_neg space] at isFree
            exact earlier chunk isFree

/-- The last scanned chunk, seen from the list that a rollback gives: it ends the scanned part, or
is in the rest, or a callback will move it. -/
def Recovers (scanned rest new : List Nat) (order : List (Nat × Bool)) (last : Option Nat) :
    Prop :=
  scanned = [] ∨ ∃ chunk, last = some chunk ∧
    (scanned.getLast? = some chunk ∨ chunk ∈ rest ∨ chunk ∈ new ∧ (chunk, true) ∈ order)

theorem chunkBefore_recovers {scanned rest : List Nat} (nodup : (scanned ++ rest).Nodup)
    (notEmpty : scanned ≠ []) (outside : chunk ∉ scanned) :
    ∃ other, chunkBefore (scanned ++ rest) chunk = some other ∧
      (scanned.getLast? = some other ∨ other ∈ rest) := by
  obtain ⟨scanned, last, rfl⟩ := (List.eq_nil_or_concat' scanned).resolve_left notEmpty
  by_cases inRest : chunk ∈ rest
  · obtain ⟨front, back, rfl⟩ := List.append_of_mem inRest
    have notFront : chunk ∉ scanned ++ [last] ++ front := by
      rw [← List.append_assoc] at nodup
      exact fun member => (List.nodup_append'.mp nodup).2.2 member List.mem_cons_self
    rw [← List.append_assoc, chunkBefore_append (by simp) notFront]
    rcases List.eq_nil_or_concat' front with rfl | ⟨front, other, rfl⟩
    · exact ⟨last, by simp, .inl (by simp)⟩
    · exact ⟨other, by rw [← List.append_assoc, List.getLast?_concat], .inr (by simp)⟩
  · rw [chunkBefore_of_notMem]
    · rcases List.eq_nil_or_concat' rest with rfl | ⟨rest, other, rfl⟩
      · exact ⟨last, by simp, .inl (by simp)⟩
      · exact ⟨other, by rw [← List.append_assoc, List.getLast?_concat], .inr (by simp)⟩
    · intro inTail
      have member := List.mem_append.mp (List.mem_of_mem_tail inTail)
      exact member.elim outside inRest

section Recovers

variable {scanned rest : List Nat} {order : List (Nat × Bool)} {dram : Dram} {mem : Memory}

theorem removedCursor_recovers (nodup : (scanned ++ rest).Nodup) (outside : chunk ∉ scanned) :
    Recovers scanned rest new order (removedCursor (scanned ++ rest) (some chunk) chunk) := by
  by_cases isEmpty : scanned = []
  · exact .inl isEmpty
  obtain ⟨other, isBefore, place⟩ := chunkBefore_recovers nodup isEmpty outside
  have notFirst : (scanned ++ rest).head? ≠ some chunk := by
    intro isFirst
    cases scanned with
    | nil => exact isEmpty rfl
    | cons start scanned => exact outside (by simp_all)
  refine .inr ⟨other, ?_, place.imp id .inl⟩
  rw [removedCursor, if_pos rfl, if_neg notFirst, isBefore]

theorem Recovers.fixed (nodup : (scanned ++ rest).Nodup)
    (apart : ∀ chunk ∈ new, chunk ∉ scanned ++ rest)
    (kept : ∀ chunk, scanned.getLast? = some chunk → (chunk, true) ∈ order → scanned = [chunk])
    (recovers : Recovers scanned rest new order dram.lastChunkScanned) :
    Recovers scanned rest new []
      (order.foldl (fixed mem (scanned ++ rest)) dram).lastChunkScanned := by
  induction order generalizing dram with
  | nil => exact recovers
  | cons entry order ih =>
      obtain ⟨fixedChunk, remove⟩ := entry
      rw [List.foldl_cons]
      refine ih (fun chunk isLast member => kept chunk isLast (List.mem_cons_of_mem _ member)) ?_
      rcases recovers with isEmpty | ⟨chunk, isLast, places⟩
      · exact .inl isEmpty
      cases remove with
      | false =>
          refine .inr ⟨chunk, ?_, places.imp id (Or.imp id (And.imp id fun member => ?_))⟩
          · simp [VariableAllocator.fixed, isLast]
          · simpa using member
      | true =>
          by_cases isFixed : chunk = fixedChunk
          · subst isFixed
            change Recovers scanned rest new order
              (removedCursor (scanned ++ rest) dram.lastChunkScanned chunk)
            rw [isLast]
            rcases places with atEnd | inRest | ⟨isNew, -⟩
            · obtain rfl := kept chunk atEnd List.mem_cons_self
              exact .inr ⟨chunk, by simp [removedCursor], .inl rfl⟩
            · exact removedCursor_recovers nodup
                fun inScanned => (List.nodup_append'.mp nodup).2.2 inScanned inRest
            · exact removedCursor_recovers nodup
                fun inScanned => apart chunk isNew (List.mem_append_left rest inScanned)
          · refine .inr ⟨chunk, ?_, places.imp id (Or.imp id (And.imp id fun member => ?_))⟩
            · simp [VariableAllocator.fixed, isLast, removedCursor, isFixed]
            · simpa [isFixed] using member

/-- When the last scanned chunk is not known the first callback puts it at the end. -/
theorem Recovers.fixed_end {last : Nat} (isLast : dram.lastChunkScanned = some last)
    (isEnd : (scanned ++ rest).getLast? = some last) (notFixed : (last, true) ∉ order) :
    Recovers scanned rest new []
      (order.foldl (VariableAllocator.fixed mem (scanned ++ rest)) dram).lastChunkScanned := by
  induction order generalizing dram with
  | nil =>
      refine .inr ⟨last, isLast, ?_⟩
      rcases List.eq_nil_or_concat' rest with rfl | ⟨rest, other, rfl⟩
      · rw [List.append_nil] at isEnd
        exact .inl isEnd
      · rw [← List.append_assoc, List.getLast?_concat] at isEnd
        obtain rfl := Option.some.inj isEnd
        exact .inr (.inl (by simp))
  | cons entry order ih =>
      obtain ⟨fixedChunk, remove⟩ := entry
      rw [List.foldl_cons]
      refine ih ?_ fun member => notFixed (List.mem_cons_of_mem _ member)
      cases remove with
      | false => simp [VariableAllocator.fixed, isLast]
      | true =>
          have different : last ≠ fixedChunk := by
            rintro rfl
            exact notFixed List.mem_cons_self
          simp [VariableAllocator.fixed, isLast, removedCursor, different]

end Recovers

/-! ## The end of the scanned part -/

/-- The chunks in front of the one to be scanned next. -/
def scannedPart (chunks : List Nat) (toScan : Option Nat) : List Nat :=
  chunks.takeWhile fun chunk => decide (some chunk ≠ toScan)

/-- The commit has left the end of the scanned part alone: no free has taken it out of the list,
and, unless it is the first chunk, none has given space to it when it was full.  When no chunk is
known to be the last one, it is enough that the first callback restores the first chunk. -/
def CursorsKept (world : World) (order : List (Nat × Bool)) : Prop :=
  let chunks := (rollback world.journal world.mem).chunkList
  let scanned := scannedPart chunks world.dram.chunkToScan
  (∀ chunk ∈ scanned.getLast?,
      chunk ∉ world.unlinked ∧ ((chunk, true) ∈ world.toFix → scanned = [chunk])) ∨
    world.dram.lastChunkScanned = none ∧
      order.head? = chunks.head?.map (fun chunk => (chunk, false)) ∧
      ∀ chunk ∈ chunks.getLast?, (chunk, true) ∉ world.toFix

instance (world : World) (order : List (Nat × Bool)) : Decidable (CursorsKept world order) :=
  inferInstanceAs (Decidable (_ ∨ _))

section Scanned

variable {toScan : Option Nat}

theorem scannedPart_append (chunks : List Nat) (toScan : Option Nat)
    (isIn : ∀ chunk, toScan = some chunk → chunk ∈ chunks) :
    ∃ rest, chunks = scannedPart chunks toScan ++ rest ∧ toScan = rest.head? := by
  refine ⟨chunks.dropWhile fun chunk => decide (some chunk ≠ toScan),
    List.takeWhile_append_dropWhile.symm, ?_⟩
  induction chunks with
  | nil =>
      cases toScan with
      | none => rfl
      | some chunk => exact absurd (isIn chunk rfl) List.not_mem_nil
  | cons other chunks ih =>
      by_cases same : some other = toScan
      · rw [List.dropWhile_cons_of_neg (by simpa using same), List.head?_cons, same]
      · rw [List.dropWhile_cons_of_pos (by simpa using same)]
        refine ih fun chunk isNext => (List.mem_cons.mp (isIn chunk isNext)).resolve_left ?_
        rintro rfl
        exact same isNext.symm

theorem Tracked.toScan_mem {dram : Dram} {toFix : List (Nat × Bool)}
    (tracked : Tracked dram toFix old new unlinked) (isNext : dram.chunkToScan = some chunk) :
    new = [] ∧ chunk ∈ old ∧ chunk ∉ unlinked := by
  have isNew : new = [] := by
    by_contra notEmpty
    exact absurd (isNext.symm.trans (tracked.scanned notEmpty)) (by simp)
  have cursors := tracked.cursors
  rw [isNext] at cursors
  have member := mem_staying.mp cursors.toScan_mem
  rw [isNew, List.append_nil] at member
  exact ⟨isNew, member⟩

theorem Tracked.recovers {dram : Dram} {toFix order : List (Nat × Bool)} {scanned rest : List Nat}
    (tracked : Tracked dram toFix old new unlinked) (perm : toFix.Perm order)
    (split : old = scanned ++ rest) (isNext : dram.chunkToScan = rest.head?)
    (kept : ∀ chunk ∈ scanned.getLast?, chunk ∉ unlinked) :
    Recovers scanned rest new order dram.lastChunkScanned := by
  rcases List.eq_nil_or_concat' scanned with isEmpty | ⟨front, last, rfl⟩
  · exact .inl isEmpty
  have stays : last ∉ unlinked := kept last List.getLast?_concat
  have ends : (front ++ [last]).filter (fun chunk => decide (chunk ∉ unlinked)) =
      front.filter (fun chunk => decide (chunk ∉ unlinked)) ++ [last] := by
    rw [List.filter_append, List.filter_cons_of_pos (by exact decide_eq_true stays),
      List.filter_nil]
  obtain ⟨passed, toPass, parts, isHead, places⟩ := tracked.cursors
  right
  cases rest with
  | nil =>
      obtain rfl := List.head?_eq_none_iff.mp (isHead.symm.trans isNext)
      rw [List.append_nil] at parts split
      rw [staying, split, List.filter_append, ends] at parts
      have isLast : dram.lastChunkScanned = passed.getLast? := by
        refine (places.resolve_left ?_).resolve_right (by simp)
        rw [← parts]
        simp
      rw [isLast, ← parts]
      rcases List.eq_nil_or_concat' (new.filter fun chunk => decide (chunk ∉ unlinked)) with
        none | ⟨others, chunk, some⟩
      · exact ⟨last, by rw [none, List.append_nil, List.getLast?_concat], .inl (by simp)⟩
      · have isNew : chunk ∈ new := by
          have member : chunk ∈ new.filter fun chunk => decide (chunk ∉ unlinked) := by
            rw [some]
            exact List.mem_append_right _ List.mem_cons_self
          exact (List.mem_filter.mp member).1
        refine ⟨chunk, ?_, .inr (.inr ⟨isNew, perm.mem_iff.mp (tracked.largeFix chunk isNew)⟩)⟩
        rw [some, ← List.append_assoc, List.getLast?_concat]
  | cons next rest =>
      rw [List.head?_cons] at isNext
      obtain ⟨rfl, inOld, notUnlinked⟩ := tracked.toScan_mem isNext
      obtain ⟨toPass, rfl⟩ := List.head?_eq_some_iff.mp (isHead.symm.trans isNext)
      have nodup := tracked.nodup
      rw [List.append_nil, split] at nodup
      have apart := List.nodup_append'.mp nodup
      rw [staying, List.append_nil, split, List.filter_append,
        List.filter_cons_of_pos (by exact decide_eq_true notUnlinked)] at parts
      have notPassed : next ∉ (front ++ [last]).filter fun chunk => decide (chunk ∉ unlinked) :=
        fun member => apart.2.2 (List.mem_filter.mp member).1 List.mem_cons_self
      have notLater : next ∉ rest.filter fun chunk => decide (chunk ∉ unlinked) :=
        fun member => (List.nodup_cons.mp apart.2.1).1 (List.mem_filter.mp member).1
      obtain ⟨rfl, -, rfl⟩ := (List.append_cons_inj_of_notMem notPassed notLater).mp parts
      rw [ends] at places
      rcases places with isEmpty | isLast | ⟨chunk, member, isLast⟩
      · simp at isEmpty
      · exact ⟨last, by rw [isLast, List.getLast?_concat], .inl (by simp)⟩
      · refine ⟨chunk, isLast, .inr (.inl ?_)⟩
        exact (List.mem_cons.mp member).elim (fun same => same ▸ List.mem_cons_self)
          fun inRest => List.mem_cons_of_mem next (List.mem_filter.mp inRest).1

end Scanned

/-! ## Steps -/

theorem Calm.nil (old : List Nat) : Calm [] false [] old [] :=
  ⟨by simp, by simp, fun _ => rfl, by simp, by simp, by simp⟩

theorem staying_old (old : List Nat) : staying old [] [] = old := by
  rw [staying_nil, List.append_nil]

/-- A chunk that a callback restores was in the list before. -/
theorem Tracked.restores {dram : Dram} {toFix : List (Nat × Bool)}
    (tracked : Tracked dram toFix old new unlinked) (member : (chunk, false) ∈ toFix) :
    chunk ∈ old := by
  refine (List.mem_append.mp
    (tracked.keysIn chunk (List.mem_map_of_mem member))).resolve_right fun isNew => ?_
  have same := List.inj_on_of_nodup_map tracked.keys member (tracked.largeFix chunk isNew) rfl
  exact absurd (congrArg Prod.snd same) (by simp)

/-- The callbacks of an abort that keeps the cursors. -/
theorem Sound.cursors (sound : Sound world blocks live old new) {order : List (Nat × Bool)}
    (perm : world.toFix.Perm order) (kept : CursorsKept world order) (mem : Memory) :
    Cursors old world.dram.chunkToScan
      (order.foldl (fixed mem old) world.dram).lastChunkScanned := by
  obtain ⟨-, restored, tracked⟩ := sound
  obtain ⟨rest, split, isNext⟩ := scannedPart_append old world.dram.chunkToScan
    fun chunk isNext => (tracked.toScan_mem isNext).2.1
  have recovers : Recovers (scannedPart old world.dram.chunkToScan) rest new []
      (order.foldl (fixed mem old) world.dram).lastChunkScanned := by
    unfold CursorsKept at kept
    rw [restored.chunkList_eq] at kept
    dsimp only at kept
    have nodup := tracked.nodup
    have apart chunk (isNew : chunk ∈ new) : chunk ∉ old :=
      fun isOld => (List.nodup_append'.mp nodup).2.2 isOld isNew
    have nodupOld := restored.nodup
    have whole := split
    generalize scannedPart old world.dram.chunkToScan = scanned at split kept whole ⊢
    rcases kept with endKept | ⟨unknown, isFirst, notFixed⟩
    · rw [whole] at nodupOld apart ⊢
      refine Recovers.fixed nodupOld apart (fun chunk isLast member => ?_) ?_
      · exact (endKept chunk isLast).2 (perm.mem_iff.mpr member)
      · exact tracked.recovers perm split isNext fun chunk isLast => (endKept chunk isLast).1
    · cases old with
      | nil => exact .inl (List.append_eq_nil_iff.mp whole.symm).1
      | cons start others =>
          rw [List.head?_cons, Option.map_some] at isFirst
          obtain ⟨order, rfl⟩ := List.head?_eq_some_iff.mp isFirst
          obtain ⟨front, last, isEnd⟩ :=
            (List.eq_nil_or_concat' (start :: others)).resolve_left (by simp)
          rw [isEnd, List.getLast?_concat] at notFixed
          have isLast : (fixed mem (start :: others) world.dram (start, false)).lastChunkScanned =
              some last := by
            have before : chunkBefore (start :: others) start = (start :: others).getLast? :=
              chunkBefore_of_notMem (List.nodup_cons.mp nodupOld).1
            rw [isEnd, List.getLast?_concat, ← isEnd] at before
            simpa [fixed, unknown, restoredCursor] using before
          rw [List.foldl_cons]
          rw [whole] at isLast isEnd ⊢
          refine Recovers.fixed_end isLast (by rw [isEnd, List.getLast?_concat]) fun member => ?_
          exact notFixed last rfl (perm.mem_iff.mpr (List.mem_cons_of_mem _ member))
  exact ⟨_, rest, split, isNext, recovers.imp id fun found => by
    obtain ⟨chunk, isLast, atEnd | inRest | ⟨-, absent⟩⟩ := found
    · exact .inl (isLast.trans atEnd.symm)
    · exact .inr ⟨chunk, inRest, isLast⟩
    · exact absurd absent List.not_mem_nil⟩

/-- An abort that keeps the cursors leaves the allocator as a new one over the list. -/
theorem Sound.abort_ends (sound : Sound world blocks live old new)
    {order : List (Nat × Bool)} (perm : world.toFix.Perm order)
    (kept : CursorsKept world order) :
    Ends (abortCallback order { world with mem := rollback world.journal world.mem })
      (fun _ after => Sound after.finish blocks blocks old [])
      (fun _ => True) := by
  have cursors := sound.cursors perm kept (rollback world.journal world.mem)
  obtain ⟨-, restored, tracked⟩ := sound
  refine (@abortCallback_ends { world with mem := rollback world.journal world.mem } _
    restored.linked order).mono (fun _ after isAfter => ?_) fun _ _ => trivial
  subst isAfter
  have freed : _ := @freeChunks_fixed old (rollback world.journal world.mem) order world.dram
    (fun chunk member => tracked.restores (perm.mem_iff.mpr member)) tracked.freeNodup
    fun chunk isFree =>
      (List.mem_append.mp (mem_staying.mp (tracked.freeIn chunk isFree)).1).imp id
        fun isNew => perm.mem_iff.mp (tracked.largeFix chunk isNew)
  have region : Region (rollback world.journal world.mem) (staying old [] []) blocks := by
    rwa [staying_old]
  rw [← chunkToScan_fixed (rollback world.journal world.mem) old order] at cursors
  have finished : Tracked (order.foldl (fixed (rollback world.journal world.mem) old) world.dram)
      [] old [] [] := by
    refine ⟨?_, by rwa [staying_old], by simp, by simp, by simp, by simp, freed.1, ?_⟩
    · rw [List.append_nil]
      exact restored.nodup
    · rw [staying_old]
      exact freed.2
  exact ⟨region, restored, finished⟩

/-- Without a commit nothing has moved the end of the scanned part. -/
theorem Ready.cursorsKept (ready : Ready world blocks live old new)
    (order : List (Nat × Bool)) : CursorsKept world order := by
  refine .inl ?_
  rw [ready.sound.restored.chunkList_eq]
  intro chunk isLast
  have isOld : chunk ∈ old := List.takeWhile_subset _ (List.mem_of_getLast? isLast)
  refine ⟨by rw [ready.unlinked]; exact List.not_mem_nil, fun member => absurd isOld ?_⟩
  have nodup := ready.sound.tracked.nodup
  exact fun isOld => (List.nodup_append'.mp nodup).2.2 isOld (ready.calm.removals chunk member)

theorem Sound.commit (sound : Sound world blocks live old new) :
    Sound world.finish live live (staying old new world.unlinked) [] := by
  obtain ⟨current, -, tracked⟩ := sound
  have region : Region world.mem (staying (staying old new world.unlinked) [] []) live := by
    rwa [staying_old]
  refine ⟨region, current, ?_, ?_, by simp, by simp, by simp [World.finish],
    by simp [World.finish], tracked.freeNodup, ?_⟩
  · rw [List.append_nil]
    exact current.nodup
  · change Cursors (staying (staying old new world.unlinked) [] []) world.dram.chunkToScan
      world.dram.lastChunkScanned
    rw [staying_old]
    exact tracked.cursors
  · change ∀ chunk ∈ world.dram.freeChunks, chunk ∈ staying (staying old new world.unlinked) [] []
    rw [staying_old]
    exact tracked.freeIn

/-- The invariant of runs. -/
structure Good (state : State) (old new : List Nat) : Prop where
  sound : Sound state.world state.blocks state.live old new
  ready : state.phase = .idle ∨ state.phase = .running →
    Ready state.world state.blocks state.live old new
  freed : state.freed.Nodup
  freedLive : ∀ block ∈ state.freed, block ∈ state.live

/-- What keeps the chunks: no size is beyond what `num_chunks` of 32 bits can multiply, no large
block has fewer bytes in its first chunk than the header of a spot, which the model does not
put into words, no count has wrapped around when a block is freed, and an abort of a commit finds
the end of the scanned part where it was. -/
def Condition (state : State) : Label → Prop
  | .alloc size _ _ => size + chunkSize ≤ wordValues ∧ minAllocBytes ≤ size % chunkSize
  | .cleanNext _ => ∀ block ∈ state.freed.head?, CountRight state.world.mem block
  | .abort order => state.phase = .failed → CursorsKept state.world order
  | _ => True

instance (state : State) (label : Label) : Decidable (Condition state label) :=
  match label with
  | .alloc _ _ _ => inferInstanceAs (Decidable (_ ∧ _))
  | .cleanNext _ => inferInstanceAs (Decidable (∀ block ∈ _, CountRight _ block))
  | .abort _ => inferInstanceAs (Decidable (_ → _))
  | .begin | .free _ | .rehash _ | .commit => inferInstanceAs (Decidable True)

section Step

variable {state next : State}

theorem Good.alloc_kept {size room : Nat} {granted : Except Failure Nat}
    (good : Good state old new) (proper : Proper state (.alloc size room granted))
    (condition : Condition state (.alloc size room granted))
    (stepped : step state (.alloc size room granted) = some next) :
    ∃ old new, Good next old new := by
  dsimp only [step] at stepped
  split_ifs at stepped with isRunning
  obtain ⟨atLeast, notBorderline, fresh⟩ := proper
  have positive : 0 < size := lt_of_lt_of_le (by decide) atLeast
  have ends := alloc_ends (((good.ready (.inr isRunning)).setRoom room).setGranted granted) fresh
    positive notBorderline condition.1
  split at stepped
  case h_1 address world result =>
    rw [result] at ends
    obtain ⟨old, new, ready⟩ := ends
    obtain rfl := Option.some.inj stepped
    exact ⟨old, new, ready.sound, fun _ => ready, good.freed,
      fun block isFreed => List.mem_cons_of_mem _ (good.freedLive block isFreed)⟩
  case h_2 => cases stepped
  case h_3 failure world _ result =>
    rw [result] at ends
    obtain ⟨old, new, ready⟩ := ends
    obtain rfl := Option.some.inj stepped
    exact ⟨old, new, ready.sound, fun _ => ready, good.freed, good.freedLive⟩

theorem Good.cleanNext_kept {room : Nat} (good : Good state old new)
    (condition : Condition state (.cleanNext room))
    (stepped : step state (.cleanNext room) = some next) : Good next old new := by
  obtain ⟨world, phase, freed, blocks, live⟩ := state
  cases freed with
  | nil => cases phase <;> cases stepped
  | cons block freed =>
      have isLive : block ∈ live := good.freedLive block List.mem_cons_self
      have sound : Sound { world with room } blocks live old new :=
        ⟨good.sound.current, good.sound.restored, good.sound.tracked⟩
      have ends := free_ends sound isLive (condition block rfl)
      obtain ⟨notFreed, nodup⟩ := List.nodup_cons.mp good.freed
      have stillLive other (isFreed : other ∈ freed) : other ∈ live.erase block := by
        refine (List.mem_erase_of_ne ?_).mpr (good.freedLive other (List.mem_cons_of_mem _ isFreed))
        rintro rfl
        exact notFreed isFreed
      have kept (stepped : afterFree freed blocks (live.erase block)
          (free block.address block.size { world with room }) = some next) : Good next old new := by
        cases result : free block.address block.size { world with room } with
        | ok _ after =>
            rw [result] at ends stepped
            obtain rfl := Option.some.inj stepped
            exact ⟨ends, by simp, nodup, stillLive⟩
        | error failure after =>
            rw [result] at ends stepped
            cases failure with
            | crash => cases stepped
            | _ =>
                obtain rfl := Option.some.inj stepped
                exact ⟨ends, by simp, nodup, stillLive⟩
      cases phase with
      | idle => cases stepped
      | failed => cases stepped
      | running => exact kept stepped
      | committing => exact kept stepped

theorem Good.abort_kept {order : List (Nat × Bool)} (good : Good state old new)
    (condition : Condition state (.abort order))
    (stepped : step state (.abort order) = some next) : Good next old [] := by
  dsimp only [step] at stepped
  split_ifs at stepped with possible
  obtain ⟨phase, perm⟩ := possible
  have kept : CursorsKept state.world order := by
    rcases phase with isRunning | isFailed
    · exact (good.ready (.inr isRunning)).cursorsKept order
    · exact condition isFailed
  have ends := good.sound.abort_ends perm kept
  split at stepped
  case h_1 world result =>
    rw [result] at ends
    obtain rfl := Option.some.inj stepped
    exact ⟨ends, fun _ => ⟨ends, rfl, Calm.nil old⟩, List.nodup_nil, by simp⟩
  case h_2 => cases stepped

theorem Good.kept {label : Label} (good : Good state old new)
    (allowed : Proper state label ∧ Condition state label) (stepped : step state label = some next) :
    ∃ old new, Good next old new := by
  obtain ⟨proper, condition⟩ := allowed
  cases label with
  | begin =>
      dsimp only [step] at stepped
      split_ifs at stepped with isIdle
      obtain rfl := Option.some.inj stepped
      exact ⟨old, new, good.sound, fun _ => good.ready (.inl isIdle), good.freed, good.freedLive⟩
  | alloc size room granted => exact good.alloc_kept proper condition stepped
  | free block =>
      dsimp only [step] at stepped
      split_ifs at stepped with isRunning
      obtain rfl := Option.some.inj stepped
      refine ⟨old, new, good.sound, good.ready, ?_, fun other isFreed => ?_⟩
      · exact List.nodup_append.mpr ⟨good.freed, List.nodup_singleton block, by
          rintro other isFreed _ isBlock rfl
          exact proper.2 (List.mem_singleton.mp isBlock ▸ isFreed)⟩
      · rcases List.mem_append.mp isFreed with earlier | isBlock
        · exact good.freedLive other earlier
        · exact List.mem_singleton.mp isBlock ▸ proper.1
  | rehash chunks =>
      dsimp only [step] at stepped
      split_ifs at stepped with perm
      obtain rfl := Option.some.inj stepped
      have rehashed {world : World} {live : List Block} {old new : List Nat}
          (perm : world.dram.freeChunks.Perm chunks)
          (sound : Sound world state.blocks live old new) :
          Sound { world with dram := { world.dram with freeChunks := chunks } } state.blocks live
            old new := by
        obtain ⟨current, restored, tracked⟩ := sound
        exact ⟨current, restored, tracked.nodup, tracked.cursors, tracked.scanned,
          tracked.largeFix, tracked.keys, tracked.keysIn, perm.nodup tracked.freeNodup,
          fun chunk isFree => tracked.freeIn chunk (perm.mem_iff.mpr isFree)⟩
      refine ⟨old, new, rehashed perm good.sound, fun phase => ?_, good.freed, good.freedLive⟩
      have ready := good.ready phase
      exact ⟨rehashed perm ready.sound, ready.unlinked, ready.calm⟩
  | cleanNext room => exact ⟨old, new, good.cleanNext_kept condition stepped⟩
  | commit =>
      dsimp only [step] at stepped
      split_ifs at stepped with possible
      obtain rfl := Option.some.inj stepped
      have sound := good.sound.commit
      exact ⟨_, [], sound, fun _ => ⟨sound, rfl, Calm.nil _⟩, good.freed, good.freedLive⟩
  | abort order => exact ⟨old, [], good.abort_kept condition stepped⟩

end Step

/-! ## Runs -/

theorem Region.opened {mem : Memory} (region : Region mem chunks blocks) :
    Good (opened mem blocks) chunks [] := by
  have current : Region mem (staying chunks [] []) blocks := by
    rwa [staying_old]
  have tracked : Tracked ⟨[], mem.link none, none⟩ [] chunks [] [] := by
    refine ⟨by rw [List.append_nil]; exact region.nodup, ?_, by simp, by simp, by simp, by simp,
      by simp, by simp⟩
    rw [staying_old]
    exact ⟨[], chunks, rfl, region.linked.head, .inl rfl⟩
  have sound : Sound (VariableAllocator.opened mem blocks).world blocks blocks chunks [] :=
    ⟨current, region, tracked⟩
  exact ⟨sound, fun _ => ⟨sound, rfl, Calm.nil chunks⟩, by simp [VariableAllocator.opened],
    by simp [VariableAllocator.opened]⟩

theorem Good.noneLost {state : State} (good : Good state old new) : NoneLost state :=
  ⟨_, good.sound.current.linked, fun block _ isLive => (good.sound.current.blocks block isLive).1⟩

/-- A run whose steps meet the condition loses no chunk. -/
theorem run_noneLost {mem : Memory} (region : ∃ chunks, Region mem chunks blocks)
    {labels : List Label} {state : State}
    (proper : MeetsAlong step Proper (opened mem blocks) labels)
    (condition : MeetsAlong step Condition (opened mem blocks) labels)
    (reaches : run step (opened mem blocks) labels = some state) : NoneLost state := by
  obtain ⟨chunks, region⟩ := region
  have reached : ∃ old new, Good state old new := by
    refine run_invariant (fun state => ∃ old new, Good state old new) ?_ ⟨chunks, [], region.opened⟩
      (proper.and condition) reaches
    rintro state label next ⟨old, new, good⟩ allowed stepped
    exact good.kept allowed stepped
  obtain ⟨old, new, good⟩ := reached
  exact good.noneLost

theorem emptyRegion_region : Region emptyRegion [] [] :=
  ⟨rfl, List.nodup_nil, by simp, by simp, by simp, by simp, by simp⟩

/-- Two blocks in two chunks; the commit that frees one of them fails when its chunk is already out
of the list, and the next block needs a new chunk. -/
def failedFree (block : Block) : List Label :=
  [.begin, .alloc 1500000 10 (.ok chunkSize), .alloc 1500000 10 (.ok (2 * chunkSize)), .commit,
    .begin, .free block, .cleanNext 3, .abort [(block.chunk, false)],
    .begin, .alloc 2000000 10 (.ok (3 * chunkSize))]

/-- The commit that frees the block in the first of the two chunks. -/
theorem run_noneLost_failedFree : ∃ state,
    run step (opened emptyRegion []) (failedFree ⟨2694304, 1500000⟩) = some state ∧
      NoneLost state := by
  have reaches : (run step (opened emptyRegion []) (failedFree ⟨2694304, 1500000⟩)).isSome := by
    decide +kernel
  obtain ⟨state, reaches⟩ := Option.isSome_iff_exists.mp reaches
  exact ⟨state, reaches, run_noneLost ⟨[], emptyRegion_region⟩ (by decide +kernel)
    (by decide +kernel) reaches⟩

/-- The commit that frees the block in the second one, which ends the scanned part. -/
theorem failedFree_loses_chunk :
    Region emptyRegion [] [] ∧
      MeetsAlong step Proper (opened emptyRegion []) (failedFree ⟨4791456, 1500000⟩) ∧
      ∃ state, run step (opened emptyRegion []) (failedFree ⟨4791456, 1500000⟩) = some state ∧
        ¬ NoneLost state := by
  refine ⟨emptyRegion_region, by decide +kernel, ?_⟩
  have reaches : (run step (opened emptyRegion []) (failedFree ⟨4791456, 1500000⟩)).map
      (fun state => (state.world.mem.link none, state.world.mem.link (some chunkSize),
        state.world.mem.link (some (3 * chunkSize)),
        decide (⟨4791456, 1500000⟩ ∈ state.blocks ∧ ⟨4791456, 1500000⟩ ∈ state.live))) =
      some (some chunkSize, some (3 * chunkSize), none, true) := by
    decide +kernel
  obtain ⟨state, reaches, isState⟩ := Option.map_eq_some_iff.mp reaches
  simp only [Prod.mk.injEq, decide_eq_true_eq] at isState
  obtain ⟨isStart, isNext, isLast, isBlock, isLive⟩ := isState
  refine ⟨state, reaches, ?_⟩
  rintro ⟨chunks, linked, contained⟩
  have listed : Linked state.world.mem.link none [chunkSize, 3 * chunkSize] :=
    ⟨isStart, isNext, isLast⟩
  obtain rfl := linked.unique listed
  exact absurd (contained _ isBlock isLive) (by decide)

end Pmgd.VariableAllocator
