import Pmgd.AbortedAllocations

/-!
# What aborts give back

Each function of the variable allocator keeps the chunks consistent, and the images of the
transaction undo what it does to a chunk but for `free_space` and `next_chunk`.  A request takes a
block from at most one chunk, the first one that it asks whose largest spot is large enough; when
there is none, a new chunk is linked behind the last one and stays there.
-/

namespace Pmgd.FreeFormAbort

open ByteMemory FreeFormChunk LabelledRun ThrowingState UndoLog
open AllocatorUnit (Failure chunkBound chunkSize headerSize isBorderline minAllocBytes spotBound
  threshold wordValues)
open LargeBlock (used)
open VariableAllocator (Block Spot numChunks)

variable {allocator : Allocator} {start mem : Memory} {tx after : Transaction}
  {live : List Block} {chunk other size spent : Nat} {spots oldSpots rest : List Spot}

/-! ## Calls of the allocator -/

/-- A chunk that was there at the beginning, in a consistent state. -/
structure Good (allocator : Allocator) (start : Memory) (oldChunks : List Nat) (chunk : Nat)
    (oldSpots : List Spot) (tx : Transaction) (live : List Block) (spent : Nat) (linked : Prop) :
    Prop where
  consistent : Consistent allocator tx live
  undone : Undone start oldChunks chunk oldSpots tx live spent linked
  isChunk : chunk ∈ tx.inUse
  oldFits : Fits oldSpots

section Calls

-- a computation is not to be evaluated up to its bytes
seal pointer

variable {oldChunks : List Nat} {linked : Prop}

namespace Good

theorem withDram (good : Good allocator start oldChunks chunk oldSpots tx live spent linked)
    {dram : Dram} (freeChunks : ∀ other ∈ dram.freeChunks, other ∈ tx.inUse)
    (chunkToScan : dram.chunkToScan = 0 ∨ dram.chunkToScan ∈ tx.inUse)
    (lastChunkScanned : dram.lastChunkScanned = 0 ∨ dram.lastChunkScanned ∈ tx.inUse)
    (moved : tx.dram.chunkToScan = 0 → tx.dram.lastChunkScanned ≠ chunk →
      dram.chunkToScan = 0 ∧ dram.lastChunkScanned ≠ chunk) :
    Good allocator start oldChunks chunk oldSpots { tx with dram := dram } live spent linked :=
  ⟨good.consistent.withDram freeChunks chunkToScan lastChunkScanned, good.undone.withDram moved,
    good.isChunk, good.oldFits⟩

/-- Other chunks are listed as those with space. -/
theorem withFreeChunks (good : Good allocator start oldChunks chunk oldSpots tx live spent linked)
    {chunks : List Nat} (members : ∀ other ∈ chunks, other ∈ tx.inUse) :
    Good allocator start oldChunks chunk oldSpots
      { tx with dram := { tx.dram with freeChunks := chunks } } live spent linked :=
  good.withDram members good.consistent.chunkToScan good.consistent.lastChunkScanned
    fun isEnd isOther => ⟨isEnd, isOther⟩

/-- The next chunk is scanned. -/
theorem pass (good : Good allocator start oldChunks chunk oldSpots tx live spent linked)
    (nonzero : tx.dram.chunkToScan ≠ 0) {chunks : List Nat}
    (members : ∀ other ∈ chunks, other ∈ tx.inUse) :
    Good allocator start oldChunks chunk oldSpots
      { tx with
        dram := ⟨chunks, pointer tx.mem tx.dram.chunkToScan, tx.dram.chunkToScan⟩ }
      live spent linked := by
  have isMember := good.consistent.chunkToScan.resolve_left nonzero
  refine good.withDram members ?_ (Or.inr isMember) fun isEnd => absurd isEnd nonzero
  exact good.consistent.pointers _ isMember

theorem members_insert (good : Good allocator start oldChunks chunk oldSpots tx live spent linked)
    (isOther : other ∈ tx.inUse) :
    ∀ member ∈ tx.dram.freeChunks.insert other, member ∈ tx.inUse := by
  intro member isMember
  rcases List.mem_insert_iff.mp isMember with rfl | was
  · exact isOther
  · exact good.consistent.freeChunks member was

/-- A call that has changed some chunk. -/
theorem changed (good : Good allocator start oldChunks chunk oldSpots tx live spent linked)
    (isOther : other ∈ tx.inUse) (layout : Layout tx.mem other [] spots) {more : Nat}
    (change : Changed other spots tx after rest more) :
    Good allocator start oldChunks chunk oldSpots after live
      (spent + if other = chunk then more else 0) linked := by
  refine ⟨good.consistent.changed isOther layout change, ?_, ?_, good.oldFits⟩
  · split_ifs with same
    · subst same
      exact good.undone.changed layout change
    · exact good.undone.changedOther good.oldFits.inside
        (good.consistent.chunksApart good.isChunk isOther (Ne.symm same)) change.logged
  · rw [change.logged.inUse]
    exact good.isChunk

/-- Some chunk gives a block. -/
theorem served (good : Good allocator start oldChunks chunk oldSpots tx live spent linked)
    (isOther : other ∈ tx.inUse) (layout : Layout tx.mem other [] spots) {offset : Nat}
    (serves : Served other size spots tx after offset) :
    Good allocator start oldChunks chunk oldSpots after (⟨other + offset, size⟩ :: live)
      (spent + if other = chunk then size else 0) linked := by
  have consistent := good.consistent.served isOther layout serves
  obtain ⟨rest, change, spot, isSpot, cutOff, ends⟩ := serves
  obtain ⟨-, undone, isChunk, oldFits⟩ := good.changed isOther layout change
  refine ⟨consistent, undone.cons ?_, isChunk, oldFits⟩
  intro old isOld place low high blockLow blockHigh
  have oldInside := oldFits.inside old isOld
  have spotInside := layout.spotFits.inside spot isSpot
  simp only [Inside, minAllocBytes] at oldInside spotInside
  have blockFrom := cutOff.low
  have blockTo := cutOff.high
  dsimp only at blockFrom blockTo blockLow blockHigh
  by_cases same : other = chunk
  · -- a spot of this chunk is what is left of one at the beginning
    subst same
    obtain ⟨others, otherLayout, remains⟩ := good.undone.spots
    rw [otherLayout.links.unique layout.links] at remains
    obtain ⟨first, isFirst, sameOffset, smaller⟩ := remains.within spot isSpot
    by_cases isSame : old = first
    · subst isSame
      rcases ends with covered | behind
      · exact covered place (by omega) (by omega)
      · omega
    · have symmetric : Std.Symm Apart := ⟨fun _ _ => Apart.symm⟩
      have apart := oldFits.apart.forall isOld isFirst isSame
      rw [Apart] at apart
      omega
  · have apart := good.consistent.chunksApart good.isChunk isOther (Ne.symm same)
    rw [ChunksApart] at apart
    omega

end Good

/-- The outcome of a request that the chunk `found` serves, for a chunk that was there at the
beginning. -/
def Outcome (chunk size : Nat) (tx : Transaction) (found : Option Nat) (more : Nat) : Prop :=
  more = 0 ↔ ¬ (found = some chunk ∧ Spends tx.mem chunk size tx.room)

/-- A call of `FreeFormChunk::alloc`. -/
theorem good_chunkAlloc (good : Good allocator start oldChunks chunk oldSpots tx live spent linked)
    (isOther : other ∈ tx.inUse) (large : minAllocBytes ≤ size) :
    Ends (chunkAlloc other size tx)
      (fun address after =>
        (address = none ∧ after = tx ∧ ¬ size ≤ word tx.mem (maxContSpaceAt other)) ∨
        ∃ place more, address = some place ∧ size ≤ word tx.mem (maxContSpaceAt other) ∧
          Good allocator start oldChunks chunk oldSpots after (⟨place, size⟩ :: live)
            (spent + more) linked ∧ Outcome chunk size tx (some other) more ∧
          after.dram = tx.dram ∧ after.inUse = tx.inUse)
      fun after => size ≤ word tx.mem (maxContSpaceAt other) ∧ ∃ more,
        Good allocator start oldChunks chunk oldSpots after live (spent + more) linked ∧
          Outcome chunk size tx (some other) more := by
  have positive : size ≠ 0 := by
    rw [minAllocBytes] at large
    omega
  have spending (spends : Spends tx.mem other size tx.room) :
      Outcome chunk size tx (some other) (if other = chunk then size else 0) := by
    rw [Outcome]
    split_ifs with same
    · subst same
      simp [positive, spends]
    · simp [same]
  obtain ⟨spots, layout, -⟩ := good.consistent.layouts other isOther
  apply (ends_chunkAlloc layout large).mono
  · rintro address after (refused | ⟨offset, isAddress, spends, serves⟩)
    · exact Or.inl refused
    · have isLogged : Logged other tx after := by
        obtain ⟨rest, change, -⟩ := serves
        exact change.logged
      exact Or.inr ⟨other + offset, _, isAddress, spends.1, good.served isOther layout serves,
        spending spends, isLogged.dram, isLogged.inUse⟩
  · rintro after ⟨enough, rest, ⟨notSpends, change⟩ | ⟨spends, change⟩⟩
    · refine ⟨enough, 0, ?_, ?_⟩
      · have changed := good.changed isOther layout change
        rwa [ite_self] at changed
      · rw [Outcome]
        refine iff_of_true rfl ?_
        rintro ⟨same, spends⟩
        obtain rfl := Option.some.inj same
        exact notSpends spends
    · exact ⟨enough, _, good.changed isOther layout change, spending spends⟩

/-- The first loop of `alloc`. -/
theorem good_allocAmong (good : Good allocator start oldChunks chunk oldSpots tx live spent linked)
    {chunks : List Nat} (members : ∀ other ∈ chunks, other ∈ tx.inUse)
    (large : minAllocBytes ≤ size) :
    let found := chunks.find? fun other => size ≤ word tx.mem (maxContSpaceAt other)
    Ends (allocAmong size chunks tx)
      (fun address after => (address = none ∧ after = tx ∧ found = none) ∨
        ∃ place more, address = some place ∧ found ≠ none ∧
          Good allocator start oldChunks chunk oldSpots after (⟨place, size⟩ :: live)
            (spent + more) linked ∧ Outcome chunk size tx found more)
      fun after => found ≠ none ∧ ∃ more,
        Good allocator start oldChunks chunk oldSpots after live (spent + more) linked ∧
          Outcome chunk size tx found more := by
  induction chunks with
  | nil => exact Or.inl ⟨rfl, rfl, rfl⟩
  | cons other chunks ih =>
      intro found
      have isOther := members other List.mem_cons_self
      have isFound (enough : size ≤ word tx.mem (maxContSpaceAt other)) :
          found = some other := List.find?_cons_of_pos (decide_eq_true enough)
      rw [allocAmong]
      apply Ends.bind ((good_chunkAlloc good isOther large).mono (fun _ _ => id) ?_)
      · rintro address middle (⟨rfl, rfl, refused⟩ | ⟨place, more, rfl, enough, isGood, outcome,
          sameDram, sameInUse⟩)
        · have isRest : found = chunks.find? fun other =>
              size ≤ word middle.mem (maxContSpaceAt other) :=
            List.find?_cons_of_neg (by simpa using refused)
          rw [isRest]
          exact ih fun second member => members second (List.mem_cons_of_mem other member)
        · rw [isFound enough]
          refine Or.inr ⟨place, more, rfl, Option.some_ne_none _, ?_, outcome⟩
          change Good allocator start oldChunks chunk oldSpots { middle with dram := _ } _ _ _
          split_ifs
          · exact isGood
          · exact isGood.withFreeChunks fun second member =>
              isGood.consistent.freeChunks second (List.mem_of_mem_erase member)
      · rintro after ⟨enough, more, isGood, outcome⟩
        rw [isFound enough]
        exact ⟨Option.some_ne_none _, more, isGood, outcome⟩

/-- The second loop of `alloc`. -/
theorem good_allocScanning
    (good : Good allocator start oldChunks chunk oldSpots tx live spent linked)
    (large : minAllocBytes ≤ size) (bound : Nat) :
    let unscanned := chain tx.mem bound tx.dram.chunkToScan
    let found := unscanned.find? fun other => size ≤ word tx.mem (maxContSpaceAt other)
    EndsAs (allocScanning size bound tx)
      (fun address after =>
        (address = none ∧ found = none ∧ ∃ dram, after = { tx with dram := dram } ∧
          Good allocator start oldChunks chunk oldSpots after live spent linked ∧
          dram.lastChunkScanned = unscanned.getLastD tx.dram.lastChunkScanned) ∨
        ∃ place more, address = some place ∧ found ≠ none ∧
          Good allocator start oldChunks chunk oldSpots after (⟨place, size⟩ :: live)
            (spent + more) linked ∧ Outcome chunk size tx found more)
      fun failure after => failure = .crash ∨ found ≠ none ∧ ∃ more,
        Good allocator start oldChunks chunk oldSpots after live (spent + more) linked ∧
          Outcome chunk size tx found more := by
  induction bound generalizing tx with
  | zero => exact Or.inl rfl
  | succ bound ih =>
      intro unscanned found
      rw [allocScanning, get_bind]
      apply EndsAs.ite
      · intro isEnd
        have isEmpty : unscanned = [] := if_pos isEnd
        refine Or.inl ⟨rfl, ?_, tx.dram, rfl, good, ?_⟩
        · simp only [found, isEmpty, List.find?_nil]
        · simp only [isEmpty, List.getLastD_nil]
      · intro nonzero
        have isOther := good.consistent.chunkToScan.resolve_left nonzero
        have isCons : unscanned =
            tx.dram.chunkToScan :: chain tx.mem bound (pointer tx.mem tx.dram.chunkToScan) :=
          if_neg nonzero
        have isFound (enough : size ≤ word tx.mem (maxContSpaceAt tx.dram.chunkToScan)) :
            found = some tx.dram.chunkToScan := by
          simp only [found, isCons]
          exact List.find?_cons_of_pos (decide_eq_true enough)
        apply EndsAs.bind (((good_chunkAlloc good isOther large).endsAs).mono (fun _ _ => id) ?_)
        · rintro address middle (⟨rfl, rfl, refused⟩ | ⟨place, more, rfl, enough, isGood, outcome,
            sameDram, sameInUse⟩)
          · have isRest : found = (chain middle.mem bound
                (pointer middle.mem middle.dram.chunkToScan)).find? fun other =>
                  size ≤ word middle.mem (maxContSpaceAt other) := by
              simp only [found, isCons]
              exact List.find?_cons_of_neg (by simpa using refused)
            let chunks := if word middle.mem (maxContSpaceAt middle.dram.chunkToScan) ≥
                minAllocBytes then middle.dram.freeChunks.insert middle.dram.chunkToScan
              else middle.dram.freeChunks
            have members : ∀ other ∈ chunks, other ∈ middle.inUse := by
              simp only [chunks]
              split_ifs
              · exact good.members_insert isOther
              · exact good.consistent.freeChunks
            have rest := ih (good.pass nonzero members)
            dsimp only at rest
            rw [isRest, isCons, List.getLastD_cons]
            exact rest
          · have stillNonzero : middle.dram.chunkToScan ≠ 0 := by rwa [sameDram]
            let chunks := if word middle.mem (maxContSpaceAt tx.dram.chunkToScan) ≥
                minAllocBytes then middle.dram.freeChunks.insert tx.dram.chunkToScan
              else middle.dram.freeChunks
            have members : ∀ other ∈ chunks, other ∈ middle.inUse := by
              simp only [chunks]
              split_ifs
              · exact isGood.members_insert (by rwa [sameInUse])
              · exact isGood.consistent.freeChunks
            have passed := isGood.pass stillNonzero members
            rw [sameDram] at passed
            rw [isFound enough]
            exact Or.inr ⟨place, more, rfl, Option.some_ne_none _, passed, outcome⟩
        · rintro failure after ⟨enough, more, isGood, outcome⟩
          rw [isFound enough]
          exact Or.inr ⟨Option.some_ne_none _, more, isGood, outcome⟩

/-- The loop of `alloc_chunks`. -/
theorem good_scanAll (good : Good allocator start oldChunks chunk oldSpots tx live spent linked)
    (bound : Nat) :
    EndsAs (scanAll bound tx)
      (fun _ after => Good allocator start oldChunks chunk oldSpots after live spent linked ∧
        after.dram.chunkToScan = 0 ∧ after.inUse = tx.inUse)
      fun failure _ => failure = .crash := by
  induction bound generalizing tx with
  | zero => exact rfl
  | succ bound ih =>
      rw [scanAll, get_bind]
      apply EndsAs.ite
      · exact fun isEnd => ⟨good, isEnd, rfl⟩
      · intro nonzero
        have isOther := good.consistent.chunkToScan.resolve_left nonzero
        let chunks := if word tx.mem (maxContSpaceAt tx.dram.chunkToScan) ≥ minAllocBytes
          then tx.dram.freeChunks.insert tx.dram.chunkToScan else tx.dram.freeChunks
        have members : ∀ other ∈ chunks, other ∈ tx.inUse := by
          simp only [chunks]
          split_ifs
          · exact good.members_insert isOther
          · exact good.consistent.freeChunks
        exact ih (good.pass nonzero members)

namespace Good

theorem withLinked (good : Good allocator start oldChunks chunk oldSpots tx live spent linked)
    {linkedNow : Prop} (same : linkedNow ↔ linked) :
    Good allocator start oldChunks chunk oldSpots tx live spent linkedNow := by
  rwa [propext same]

theorem tail {block : Block}
    (good : Good allocator start oldChunks chunk oldSpots tx (block :: live) spent linked) :
    Good allocator start oldChunks chunk oldSpots tx live spent linked where
  consistent := { good.consistent with
    layouts := fun other isOther => by
      obtain ⟨spots, layout, isClear⟩ := good.consistent.layouts other isOther
      exact ⟨spots, layout, (List.forall_mem_cons.mp isClear).2⟩
    inside := (List.forall_mem_cons.mp good.consistent.inside).2 }
  undone := { good.undone with covered := (List.forall_mem_cons.mp good.undone.covered).2 }
  isChunk := good.isChunk
  oldFits := good.oldFits

theorem touch (good : Good allocator start oldChunks chunk oldSpots tx live spent linked)
    {address length : Nat} (may : MayTouch allocator ⟨tx, live⟩ address length)
    (same : ∀ place, place < address ∨ address + length ≤ place → mem place = tx.mem place) :
    Good allocator start oldChunks chunk oldSpots { tx with mem := mem } live spent linked :=
  ⟨good.consistent.touch may same,
    good.undone.touch good.consistent good.isChunk good.oldFits.inside may same, good.isChunk,
    good.oldFits⟩

theorem grown (good : Good allocator start oldChunks chunk oldSpots tx live spent linked)
    (fresh : Fresh allocator tx other) {used : Nat} (small : used ≤ threshold) :
    Good allocator start oldChunks chunk oldSpots (tx.grown allocator other used) live spent
      linked :=
  ⟨good.consistent.grown fresh small, good.undone.grown good.oldFits.inside good.isChunk fresh used,
    List.mem_cons_of_mem _ good.isChunk, good.oldFits⟩

/-- The block at the end of a new chunk. -/
theorem grownBlock (good : Good allocator start oldChunks chunk oldSpots tx live spent linked)
    (fresh : Fresh allocator tx other) {used : Nat} (small : used ≤ threshold) :
    Good allocator start oldChunks chunk oldSpots (tx.grown allocator other used)
      (⟨other + (chunkSize - used), used⟩ :: live) spent linked := by
  have bound : threshold + headerSize + minAllocBytes = chunkSize := by decide
  have isHeader : headerSize = 24 := rfl
  have isMin : minAllocBytes = 8 := rfl
  have larger := good.grown fresh small
  have layout : Layout (tx.grown allocator other used).mem other []
      [⟨headerSize, chunkSize - headerSize - used⟩] := layout_construct _ _ _ small
  refine ⟨larger.consistent.cons List.mem_cons_self layout ?_ ?_ ?_, larger.undone.cons ?_,
    larger.isChunk, larger.oldFits⟩
  · dsimp only
    omega
  · dsimp only
    omega
  · intro spot member
    rw [List.mem_singleton.mp member]
    dsimp only
    omega
  · intro old isOld place low high blockLow blockHigh
    have apart := fresh.apart chunk good.isChunk
    have inside := good.oldFits.inside old isOld
    simp only [Inside, isMin] at inside
    rw [ChunksApart] at apart
    dsimp only at blockLow blockHigh
    omega

/-- The pointer to a new chunk goes to the header of the region, or to a chunk. -/
theorem place_cases (good : Good allocator start oldChunks chunk oldSpots tx live spent linked)
    (defined : pointer tx.mem allocator.hdr = 0 ∨ tx.dram.lastChunkScanned ≠ 0) :
    tx.place allocator = allocator.hdr ∨ tx.place allocator ∈ tx.inUse := by
  rw [Transaction.place]
  split_ifs with isNull
  · exact Or.inl rfl
  · exact Or.inr (good.consistent.lastChunkScanned.resolve_left (defined.resolve_left isNull))

/-- The pointer is in the chunk itself or apart from it. -/
theorem place_apart (good : Good allocator start oldChunks chunk oldSpots tx live spent linked)
    {place : Nat} (isPlace : place = allocator.hdr ∨ place ∈ tx.inUse) (differs : place ≠ chunk) :
    place + 8 ≤ chunk ∨ chunk + chunkSize ≤ place := by
  rcases isPlace with rfl | isPlace
  · exact good.consistent.hdr chunk good.isChunk
  · have apart := good.consistent.chunksApart good.isChunk isPlace (Ne.symm differs)
    have room := room_header
    rw [ChunksApart] at apart
    omega

end Good

/-- The pointer to a new chunk has been logged and written. -/
structure Appended (allocator : Allocator) (tx : Transaction) (other : Nat) (after : Transaction) :
    Prop where
  room : tx.room ≠ 0
  defined : pointer tx.mem allocator.hdr = 0 ∨ tx.dram.lastChunkScanned ≠ 0
  after_eq : after = (tx.logged (tx.place allocator) 8).linked (tx.place allocator) other

/-- The end of `alloc_chunk` and `alloc_chunks`. -/
theorem ends_appendChunk (allocator : Allocator) (tx : Transaction) (other : Nat) :
    EndsAs (appendChunk allocator other tx) (fun _ after => Appended allocator tx other after)
      fun failure after => failure = .crash ∨ tx.room = 0 ∧ after = tx := by
  have writes (address : Nat) : EndsAs (writePointer address other tx)
      (fun _ after => tx.room ≠ 0 ∧
        after = { tx.logged address 8 with mem := store tx.mem address (encode 8 other) })
      fun _ after => tx.room = 0 ∧ after = tx := by
    apply EndsAs.bind ((ends_log tx address 8).endsAs.mono (fun _ _ => id) ?_)
    · rintro _ _ ⟨rfl, room⟩
      exact ⟨Nat.ne_of_gt room, rfl⟩
    · rintro _ _ ⟨rfl, full⟩
      exact ⟨full, rfl⟩
  rw [appendChunk, get_bind]
  by_cases isNull : pointer tx.mem allocator.hdr = 0
  · have isPlace : tx.place allocator = allocator.hdr := by rw [Transaction.place, if_pos isNull]
    rw [if_pos isNull]
    apply EndsAs.bind ((writes allocator.hdr).mono (fun _ _ => id) fun _ _ => Or.inr)
    rintro _ _ ⟨room, rfl⟩
    exact ⟨room, Or.inl isNull, by rw [isPlace]; rfl⟩
  · rw [if_neg isNull]
    by_cases noLast : tx.dram.lastChunkScanned = 0
    · rw [if_pos noLast]
      exact Or.inl rfl
    · have isPlace : tx.place allocator = tx.dram.lastChunkScanned := by
        rw [Transaction.place, if_neg isNull]
      rw [if_neg noLast]
      apply EndsAs.bind ((writes tx.dram.lastChunkScanned).mono (fun _ _ => id) fun _ _ => Or.inr)
      rintro _ _ ⟨room, rfl⟩
      exact ⟨room, Or.inr noLast, by rw [isPlace]; rfl⟩

/-- An inner transaction keeps the images of the outer one. -/
theorem endsAs_inner {α : Type} {room : Nat} {body : Alloc α} {good : α → Transaction → Prop}
    {thrown : Failure → Transaction → Prop}
    (ends : EndsAs (body { tx with images := [], room := room }) good thrown) :
    EndsAs (inner room body tx)
      (fun value after => ∃ inside, good value inside ∧
        after = { inside with images := tx.images, room := tx.room })
      fun failure after => ∃ inside, thrown failure inside ∧
        after = { inside with
          mem := undo inside.images inside.mem
          images := tx.images
          room := tx.room
          inUse := tx.inUse } := by
  rw [inner]
  cases called : body { tx with images := [], room := room } with
  | ok value inside =>
      rw [called] at ends
      exact ⟨inside, ends, rfl⟩
  | error failure inside =>
      rw [called] at ends
      exact ⟨inside, ends, rfl⟩

/-- What an inner transaction leaves of the pointer to a new chunk. -/
theorem Good.linkedNext (good : Good allocator start oldChunks chunk oldSpots tx live spent linked)
    (isOther : other ∈ tx.inUse) (nonzero : other ≠ 0) (small : other < 2 ^ 64)
    (isNew : other ∉ oldChunks) (differs : other ≠ chunk)
    (defined : pointer tx.mem allocator.hdr = 0 ∨ tx.dram.lastChunkScanned ≠ 0) :
    Good allocator start oldChunks chunk oldSpots (tx.linked (tx.place allocator) other) live spent
      (linked ∨ pointer tx.mem allocator.hdr ≠ 0 ∧ tx.dram.lastChunkScanned = chunk) := by
  have isPlace := good.place_cases defined
  have consistent := good.consistent.linked isPlace isOther small
  refine ⟨consistent, ?_, good.isChunk, good.oldFits⟩
  have isHereIff : tx.place allocator = chunk ↔
      pointer tx.mem allocator.hdr ≠ 0 ∧ tx.dram.lastChunkScanned = chunk := by
    rw [Transaction.place]
    split_ifs with isNull
    · -- the header of the region is in no chunk
      refine iff_of_false (fun same => ?_) fun isLast => isLast.1 isNull
      have apart := good.consistent.hdr chunk good.isChunk
      have room := room_header
      omega
    · exact (and_iff_right isNull).symm
  by_cases isHere : tx.place allocator = chunk
  · have isLast := isHereIff.mp isHere
    rw [isHere]
    exact good.undone.linkedHere isLast.2 nonzero small isNew (Or.inr isLast)
  · have elsewhere := good.undone.linkedElsewhere good.oldFits.inside
      (good.place_apart isPlace isHere) differs
    rwa [propext (or_iff_left fun isLast => isHere (isHereIff.mpr isLast))]

/-- How `alloc_chunk` ends. -/
theorem ends_allocChunk (allocator : Allocator) (tx : Transaction) (innerRoom : Nat)
    (granted : Except Failure Nat) :
    EndsAs (allocChunk allocator innerRoom granted tx)
      (fun other after => granted = .ok other ∧ ∃ inside,
        Appended allocator
          ({ tx with images := [], room := innerRoom }.grown allocator other 0) other inside ∧
        after = { inside with images := tx.images, room := tx.room })
      fun failure after => failure = .crash ∨ (granted.toOption = none ∧ after = tx) ∨
        ∃ other, granted = .ok other ∧ innerRoom = 0 ∧
          after = { tx with mem := construct tx.mem other allocator.myId 0 } := by
  cases granted with
  | error failure => exact Or.inr (Or.inl ⟨rfl, rfl⟩)
  | ok other =>
      have body (inside : Transaction) : EndsAs ((do
            let chunk ← newChunk allocator 0 (.ok other)
            appendChunk allocator chunk
            return chunk) inside)
          (fun value after => value = other ∧
            Appended allocator (inside.grown allocator other 0) other after)
          fun failure after => failure = .crash ∨
            (inside.grown allocator other 0).room = 0 ∧
              after = inside.grown allocator other 0 := by
        rw [newChunk_bind]
        exact EndsAs.bind (ends_appendChunk allocator _ other) fun _ _ appended => ⟨rfl, appended⟩
      refine (endsAs_inner (body _)).mono ?_ ?_
      · rintro _ after ⟨inside, ⟨rfl, appended⟩, rfl⟩
        exact ⟨rfl, inside, appended, rfl⟩
      · rintro failure after ⟨_, crashed | ⟨full, rfl⟩, rfl⟩
        · exact Or.inl crashed
        · exact Or.inr (Or.inr ⟨other, rfl, full, rfl⟩)

/-- The pointer to a new chunk becomes permanent, unless there is none. -/
theorem good_allocChunk (good : Good allocator start oldChunks chunk oldSpots tx live spent linked)
    {innerRoom : Nat} {granted : Except Failure Nat}
    (fresh : ∀ other ∈ granted.toOption, Fresh allocator tx other) :
    let link := granted.toOption.isSome ∧ innerRoom ≠ 0 ∧ pointer tx.mem allocator.hdr ≠ 0 ∧
      tx.dram.lastChunkScanned = chunk
    EndsAs (allocChunk allocator innerRoom granted tx)
      (fun other after =>
        Good allocator start oldChunks chunk oldSpots after live spent (linked ∨ link) ∧
          other ∈ after.inUse ∧ other ≠ chunk)
      fun failure after => failure = .crash ∨
        Good allocator start oldChunks chunk oldSpots after live spent (linked ∨ link) := by
  intro link
  have room := room_header
  apply (ends_allocChunk allocator tx innerRoom granted).mono
  · rintro other after ⟨rfl, inside, ⟨hasRoom, defined, rfl⟩, rfl⟩
    have isFresh := fresh other rfl
    have isGrown := good.grown isFresh (Nat.zero_le _)
    have differs : other ≠ chunk := fun same => isFresh.not_mem (same ▸ good.isChunk)
    have isNew : other ∉ oldChunks := fun isOld =>
      isFresh.not_mem (good.undone.known other isOld)
    have samePointer : pointer (tx.grown allocator other 0).mem allocator.hdr =
        pointer tx.mem allocator.hdr := by
      apply pointer_congr
      intro place isNext
      have apart := isFresh.hdr
      rw [IsNextChunk] at isNext
      exact construct_outside (by rw [headerSize]; omega)
    have isLinked := isGrown.linkedNext List.mem_cons_self isFresh.nonzero isFresh.small isNew differs
      defined
    rw [samePointer] at isLinked
    have isLink : link ↔ pointer tx.mem allocator.hdr ≠ 0 ∧ tx.dram.lastChunkScanned = chunk :=
      ⟨fun link => link.2.2, fun isLast => ⟨rfl, hasRoom, isLast⟩⟩
    let inside : Transaction := { tx with images := [], room := innerRoom }
    have samePlace : (inside.grown allocator other 0).place allocator =
        (tx.grown allocator other 0).place allocator := place_congr rfl rfl
    rw [samePlace]
    exact ⟨isLinked.withLinked (or_congr_right isLink), List.mem_cons_self, differs⟩
  · rintro failure after (crashed | ⟨noChunk, rfl⟩ | ⟨other, rfl, full, rfl⟩)
    · exact Or.inl crashed
    · right
      apply good.withLinked (or_iff_left _)
      rintro ⟨isSome, -⟩
      rw [noChunk] at isSome
      cases isSome
    · right
      have isFresh := fresh other rfl
      have may : MayTouch allocator ⟨tx, live⟩ other chunkSize := by
        refine Or.inr ⟨Or.symm isFresh.hdr, fun second isSecond => ?_⟩
        exact (isFresh.apart second isSecond)
      apply Good.withLinked _ (or_iff_left fun isLink => isLink.2.1 full)
      apply good.touch may
      intro place outside
      exact construct_outside (by rw [headerSize]; omega)

/-- The last part of `alloc`. -/
theorem good_allocNew (good : Good allocator start oldChunks chunk oldSpots tx live spent linked)
    (large : minAllocBytes ≤ size) {innerRoom : Nat} {granted : Except Failure Nat}
    (fresh : ∀ other ∈ granted.toOption, Fresh allocator tx other) :
    let link := granted.toOption.isSome ∧ innerRoom ≠ 0 ∧ pointer tx.mem allocator.hdr ≠ 0 ∧
      tx.dram.lastChunkScanned = chunk
    EndsAs (allocNew allocator size innerRoom granted tx)
      (fun place after => Good allocator start oldChunks chunk oldSpots after
        (⟨place, size⟩ :: live) spent (linked ∨ link))
      fun failure after => failure = .crash ∨
        Good allocator start oldChunks chunk oldSpots after live spent (linked ∨ link) := by
  intro link
  rw [allocNew]
  apply EndsAs.bind (good_allocChunk good fresh)
  rintro other middle ⟨isGood, isOther, differs⟩
  have noneTaken {more : Nat} (outcome : Outcome chunk size middle (some other) more) :
      more = 0 := outcome.mpr fun taken => differs (Option.some.inj taken.1)
  apply EndsAs.bind (((good_chunkAlloc isGood isOther large).endsAs).mono (fun _ _ => id) ?_)
  · rintro address after (⟨rfl, -, -⟩ | ⟨place, more, rfl, -, still, outcome, -, sameInUse⟩)
    · exact Or.inl rfl
    · obtain rfl := noneTaken outcome
      change Good allocator start oldChunks chunk oldSpots { after with dram := _ } _ _ _
      split_ifs
      · exact still.withFreeChunks (still.members_insert (by rwa [sameInUse]))
      · exact still
  · rintro failure after ⟨-, more, still, outcome⟩
    obtain rfl := noneTaken outcome
    exact Or.inr still

/-- The number of chunks may be cut to 32 bits, but the part in the first chunk is the same. -/
theorem used_eq (notBorderline : ¬ isBorderline size) (several : numChunks size > 1) :
    used size = size % chunkSize := by
  have isSpanned := LargeBlock.spanned_eq notBorderline
  have isSize := Nat.div_add_mod size chunkSize
  have small : size % chunkSize < wordValues :=
    (Nat.mod_lt size AllocatorUnit.chunkSize_pos).trans (by decide)
  have isNum : numChunks size = (size / chunkSize + 1) % wordValues := by
    rw [numChunks, ← isSpanned, LargeBlock.spanned]
  obtain ⟨rounds, wraps⟩ : ∃ rounds, wordValues * rounds + numChunks size = size / chunkSize + 1 :=
    ⟨_, isNum ▸ Nat.div_add_mod _ _⟩
  have isQuotient : size / chunkSize = wordValues * rounds + (numChunks size - 1) := by omega
  have split : size % chunkSize + (numChunks size - 1) * chunkSize +
      wordValues * (rounds * chunkSize) = size := by
    rw [isQuotient] at isSize
    refine Eq.trans ?_ isSize
    ring
  have isRest : size - (numChunks size - 1) * chunkSize =
      size % chunkSize + wordValues * (rounds * chunkSize) := by omega
  rw [used, isRest, Nat.add_mul_mod_self_left, Nat.mod_eq_of_lt small]

theorem used_le (notBorderline : ¬ isBorderline size) (several : numChunks size > 1) :
    used size ≤ threshold := by
  rw [used_eq notBorderline several]
  rw [isBorderline, not_or] at notBorderline
  exact Nat.not_lt.mp notBorderline.2

/-- The chunks of a large block are linked in the running transaction. -/
theorem Good.appended (good : Good allocator start oldChunks chunk oldSpots tx live spent linked)
    (isEnd : tx.dram.chunkToScan = 0) (isOther : other ∈ tx.inUse) (small : other < 2 ^ 64)
    (differs : other ≠ chunk) (appended : Appended allocator tx other after) :
    Good allocator start oldChunks chunk oldSpots after live spent linked := by
  have isPlace := good.place_cases appended.defined
  have logged : Consistent allocator (tx.logged (tx.place allocator) 8) live :=
    { good.consistent with }
  rw [appended.after_eq]
  refine ⟨logged.linked isPlace isOther small, ?_, good.isChunk, good.oldFits⟩
  apply good.undone.linkedLogged isEnd _ differs
  by_cases isHere : tx.place allocator = chunk
  · exact Or.inl isHere
  · exact Or.inr (good.place_apart isPlace isHere)

theorem good_allocLarge (good : Good allocator start oldChunks chunk oldSpots tx live spent linked)
    (notBorderline : ¬ isBorderline size) {granted : Except Failure Nat}
    (fresh : ∀ other ∈ granted.toOption, Fresh allocator tx other) :
    EndsAs (allocLarge allocator size granted tx)
      (fun place after => Good allocator start oldChunks chunk oldSpots after
        (⟨place, used size⟩ :: live) spent linked)
      fun failure after => failure = .crash ∨
        Good allocator start oldChunks chunk oldSpots after live spent linked := by
  have chunks : EndsAs (allocChunks allocator (numChunks size) (used size) granted tx)
      (fun other after => Good allocator start oldChunks chunk oldSpots after
        (⟨other + (chunkSize - used size), used size⟩ :: live) spent linked ∧ other ∈ after.inUse)
      fun failure after => failure = .crash ∨
        Good allocator start oldChunks chunk oldSpots after live spent linked := by
    rw [allocChunks]
    apply EndsAs.ite
    · intro several
      cases granted with
      | error failure => exact Or.inr good
      | ok other =>
          have isFresh := fresh other rfl
          have differs : other ≠ chunk := fun same => isFresh.not_mem (same ▸ good.isChunk)
          have isGrown := good.grownBlock isFresh (used_le notBorderline several.1)
          rw [newChunk_bind]
          refine EndsAs.bind ((good_scanAll isGrown chunkBound).mono (fun _ _ => id)
            fun _ _ => Or.inl) ?_
          rintro _ scanned ⟨isGood, isEnd, sameInUse⟩
          have isOther : other ∈ scanned.inUse := by
            rw [sameInUse]
            exact List.mem_cons_self
          refine EndsAs.bind ((ends_appendChunk allocator scanned other).mono (fun _ _ => id) ?_) ?_
          · rintro failure _ (crashed | ⟨-, rfl⟩)
            · exact Or.inl crashed
            · exact Or.inr isGood.tail
          · intro _ after appended
            refine ⟨isGood.appended isEnd isOther isFresh.small differs appended, ?_⟩
            rw [appended.after_eq]
            exact isOther
    · exact fun _ => Or.inl rfl
  rw [allocLarge]
  refine EndsAs.bind chunks ?_
  rintro other after ⟨isGood, isOther⟩
  exact isGood.withFreeChunks (isGood.members_insert isOther)

/-- `VariableAllocator::alloc`. -/
theorem good_alloc (good : Good allocator start oldChunks chunk oldSpots tx live spent linked)
    (large : minAllocBytes ≤ size) (notBorderline : ¬ isBorderline size) (innerRoom : Nat)
    {granted : Except Failure Nat}
    (fresh : ∀ other ∈ granted.toOption, Fresh allocator tx other) :
    let link := Extends allocator tx chunk size innerRoom granted
    let outcome := fun more => more = 0 ↔ ¬ Takes tx chunk size tx.room
    EndsAs (alloc allocator size innerRoom granted tx)
      (fun place after => ∃ more, outcome more ∧
        Good allocator start oldChunks chunk oldSpots after
          (⟨place, if size > chunkSize then used size else size⟩ :: live) (spent + more)
          (linked ∨ link))
      fun failure after => failure = .crash ∨ ∃ more, outcome more ∧
        Good allocator start oldChunks chunk oldSpots after live (spent + more)
          (linked ∨ link) := by
  intro link outcome
  rw [alloc]
  apply EndsAs.ite
  · intro routed
    have notLink : ¬ link := fun isLink => absurd routed (Nat.not_lt.mpr isLink.1)
    have none : outcome 0 := iff_of_true rfl fun takes => absurd routed (Nat.not_lt.mpr takes.1)
    rw [if_pos routed]
    refine (good_allocLarge good notBorderline fresh).mono ?_ ?_
    · intro place after isGood
      exact ⟨0, none, isGood.withLinked (or_iff_left notLink)⟩
    · rintro failure after (crashed | isGood)
      · exact Or.inl crashed
      · exact Or.inr ⟨0, none, isGood.withLinked (or_iff_left notLink)⟩
  · intro notRouted
    have small := Nat.not_lt.mp notRouted
    rw [if_neg notRouted, get_bind]
    have isServer : tx.server size = _ := List.find?_append
    have among {found : Option Nat} (isFound : tx.dram.freeChunks.find? (fun other =>
        size ≤ word tx.mem (maxContSpaceAt other)) = found) (some : found ≠ none) :
        tx.server size = found := by
      rw [isServer, isFound]
      exact Option.or_of_isSome (Option.isSome_iff_ne_none.mpr some)
    have served {found : Option Nat} (isFound : tx.server size = found) (some : found ≠ none)
        {more : Nat} (isOutcome : Outcome chunk size tx found more) : outcome more ∧ ¬ link := by
      subst isFound
      refine ⟨isOutcome.trans (not_congr ?_), fun isLink => some isLink.2.1⟩
      exact (and_iff_right small).symm
    refine EndsAs.bind (((good_allocAmong good good.consistent.freeChunks large).endsAs).mono
      (fun _ _ => id) ?_) ?_
    · rintro failure after ⟨some, more, isGood, isOutcome⟩
      obtain ⟨isMore, notLink⟩ := served (among rfl some) some isOutcome
      exact Or.inr ⟨more, isMore, isGood.withLinked (or_iff_left notLink)⟩
    · rintro address middle (⟨rfl, rfl, noneAmong⟩ |
        ⟨place, more, rfl, some, isGood, isOutcome⟩)
      · have unscanned : middle.server size = middle.unscanned.find? fun other =>
            size ≤ word middle.mem (maxContSpaceAt other) := by
          rw [isServer, noneAmong, Option.none_or]
        refine EndsAs.bind ((good_allocScanning good large chunkBound).mono (fun _ _ => id) ?_) ?_
        · rintro failure after (crashed | ⟨some, more, isGood, isOutcome⟩)
          · exact Or.inl crashed
          · obtain ⟨isMore, notLink⟩ := served unscanned some isOutcome
            exact Or.inr ⟨more, isMore, isGood.withLinked (or_iff_left notLink)⟩
        · rintro address after (⟨rfl, noneUnscanned, dram, rfl, isGood, isLast⟩ |
            ⟨place, more, rfl, some, isGood, isOutcome⟩)
          · have noServer : middle.server size = none := unscanned.trans noneUnscanned
            have isMore : outcome 0 := by
              refine iff_of_true rfl fun takes => ?_
              cases noServer.symm.trans takes.2.1
            have isLink : link ↔ granted.toOption.isSome ∧ innerRoom ≠ 0 ∧
                pointer middle.mem allocator.hdr ≠ 0 ∧ dram.lastChunkScanned = chunk := by
              rw [isLast]
              exact ⟨fun link => link.2.2, fun rest => ⟨small, noServer, rest⟩⟩
            have isFresh : ∀ other ∈ granted.toOption,
                Fresh allocator { middle with dram := dram } other := fun other isGranted =>
              { fresh other isGranted with }
            refine (good_allocNew isGood large isFresh).mono ?_ ?_
            · intro place after isNew
              exact ⟨0, isMore, isNew.withLinked (or_congr_right isLink)⟩
            · rintro failure after (crashed | isNew)
              · exact Or.inl crashed
              · exact Or.inr ⟨0, isMore, isNew.withLinked (or_congr_right isLink)⟩
          · obtain ⟨isMore, notLink⟩ := served unscanned some isOutcome
            exact ⟨more, isMore, isGood.withLinked (or_iff_left notLink)⟩
      · obtain ⟨isMore, notLink⟩ := served (among rfl some) some isOutcome
        exact ⟨more, isMore, isGood.withLinked (or_iff_left notLink)⟩

end Calls

/-! ## Every run -/

section Runs

variable {oldChunks : List Nat} {linked : Prop} {dram : Dram} {inUse : List Nat}

theorem Good.withRoom (good : Good allocator start oldChunks chunk oldSpots tx live spent linked)
    (room : Nat) :
    Good allocator start oldChunks chunk oldSpots { tx with room := room } live spent linked :=
  ⟨{ good.consistent with }, { good.undone with }, good.isChunk, good.oldFits⟩

/-- What a step does to a chunk that was there at the beginning. -/
theorem step_good {state next : State} {label : Label}
    (good : Good allocator start oldChunks chunk oldSpots state.tx state.live spent linked)
    (disciplined : Disciplined allocator state label)
    (stepped : step allocator state label = some next) :
    ∃ more link, Good allocator start oldChunks chunk oldSpots next.tx next.live (spent + more)
        (linked ∨ link) ∧
      (more = 0 ↔ TakesNone chunk state label) ∧ (¬ link ↔ ExtendsNot allocator chunk state label) := by
  cases label with
  | alloc size room innerRoom granted =>
      obtain ⟨large, notBorderline, promised⟩ := disciplined
      have fresh : ∀ other ∈ granted.toOption,
          Fresh allocator { state.tx with room := room } other := fun other isGranted =>
        ⟨(promised other isGranted).1, (promised other isGranted).2.1,
          (promised other isGranted).2.2.1, (promised other isGranted).2.2.2⟩
      have ends := good_alloc (good.withRoom room) large notBorderline innerRoom fresh
      rw [step] at stepped
      cases called : alloc allocator size innerRoom granted { state.tx with room := room } with
      | ok place tx =>
          rw [called] at ends stepped
          obtain rfl := Option.some.inj stepped
          obtain ⟨more, isMore, isGood⟩ := ends
          exact ⟨more, _, isGood, isMore, Iff.rfl⟩
      | error failure tx =>
          rw [called] at ends stepped
          rcases ends with rfl | ⟨more, isMore, isGood⟩
          · cases stepped
          · have isNext : next = { state with tx := tx } := by
              cases failure <;> simp_all
            subst isNext
            exact ⟨more, _, isGood, isMore, Iff.rfl⟩
  | write address bytes =>
      obtain rfl := Option.some.inj stepped
      refine ⟨0, False, ?_, iff_of_true rfl trivial, iff_of_true id trivial⟩
      exact (good.touch disciplined fun _ => store_outside).withLinked (or_iff_left id)
  | log address length room =>
      have logged := (good.withRoom room).undone.log { good.consistent with } good.isChunk disciplined
      have isLogged : Good allocator start oldChunks chunk oldSpots
          ({ state.tx with room := room }.logged address length) state.live spent linked :=
        ⟨{ good.consistent with }, logged, good.isChunk, good.oldFits⟩
      refine ⟨0, False, ?_, iff_of_true rfl trivial, iff_of_true id trivial⟩
      apply Good.withLinked _ (or_iff_left id)
      have ends := ends_log { state.tx with room := room } address length
      rw [step] at stepped
      cases called : log address length { state.tx with room := room } with
      | ok value tx =>
          rw [called] at ends stepped
          obtain rfl := Option.some.inj stepped
          obtain rfl := ends.1
          exact isLogged
      | error failure tx =>
          rw [called] at ends stepped
          obtain rfl := Option.some.inj stepped
          obtain rfl := ends.1
          exact good.withRoom room
  | rehash chunks =>
      simp only [step] at stepped
      split_ifs at stepped with perm
      obtain rfl := Option.some.inj stepped
      refine ⟨0, False, ?_, iff_of_true rfl trivial, iff_of_true id trivial⟩
      apply Good.withLinked _ (or_iff_left id)
      exact good.withFreeChunks fun other member =>
        good.consistent.freeChunks other (perm.mem_iff.mpr member)

theorem run_good {state last : State} {labels : List Label}
    (good : Good allocator start oldChunks chunk oldSpots state.tx state.live spent linked)
    (disciplined : MeetsAlong (step allocator) (Disciplined allocator) state labels)
    (reaches : run (step allocator) state labels = some last) :
    ∃ more link, Good allocator start oldChunks chunk oldSpots last.tx last.live (spent + more)
        (linked ∨ link) ∧
      (more = 0 ↔ MeetsAlong (step allocator) (TakesNone chunk) state labels) ∧
      (¬ link ↔ MeetsAlong (step allocator) (ExtendsNot allocator chunk) state labels) := by
  induction labels generalizing state spent linked with
  | nil =>
      obtain rfl := Option.some.inj reaches
      exact ⟨0, False, good.withLinked (or_iff_left id), iff_of_true rfl trivial,
        iff_of_true id trivial⟩
  | cons label labels ih =>
      obtain ⟨met, later⟩ := disciplined
      rw [run_cons, Option.bind_eq_some_iff] at reaches
      obtain ⟨next, stepped, rest⟩ := reaches
      obtain ⟨first, firstLink, nextGood, isFirst, isFirstLink⟩ := step_good good met stepped
      obtain ⟨second, secondLink, lastGood, isSecond, isSecondLink⟩ :=
        ih nextGood (later next stepped) rest
      rw [Nat.add_assoc] at lastGood
      rw [meetsAlong_cons_of_step stepped, meetsAlong_cons_of_step stepped, ← isFirst, ← isSecond,
        ← isFirstLink, ← isSecondLink]
      exact ⟨first + second, firstLink ∨ secondLink, lastGood.withLinked or_assoc.symm,
        Nat.add_eq_zero_iff, not_or⟩

/-- What the transaction finds. -/
theorem good_begin (consistent : Consistent allocator (begin start dram inUse live).tx live)
    (isChunk : chunk ∈ inUse) (layout : Layout start chunk [] oldSpots) :
    Good allocator start inUse chunk oldSpots (begin start dram inUse live).tx live 0 False where
  consistent := consistent
  undone := by
    have uncovered (place : Nat) : ¬ Covers ([] : List (Image Nat UInt8)) place := by
      rintro ⟨image, member, -⟩
      cases member
    refine ⟨fun _ _ _ _ => rfl, fun place _ => uncovered place, ?_,
      ⟨oldSpots, layout, Remains.refl oldSpots⟩, ?_, fun _ => id, Or.inl ⟨id, fun _ _ => rfl⟩, ?_⟩
    · exact Nat.mod_eq_of_lt (word_lt start _)
    · intro block isLive old isOld place low high blockLow blockHigh
      -- blocks do not overlap the spots
      have clear := (consistent.clear isChunk layout block isLive).2 old isOld
      have inside := layout.spotFits.inside old isOld
      simp only [Inside, minAllocBytes] at inside
      omega
    · exact fun place _ covered => absurd covered (uncovered place)
  isChunk := isChunk
  oldFits := layout.spotFits

/-- An abort gives back the spots of a chunk and its header but `free_space` and `next_chunk`.
These it gives back if and only if the transaction has taken no block from the chunk and has
linked no new chunk behind it for good. -/
theorem afterAbort_restores_iff
    (consistent : Consistent allocator (begin start dram inUse live).tx live)
    (isChunk : chunk ∈ inUse) (layout : Layout start chunk [] oldSpots) {labels : List Label}
    {state : State}
    (disciplined : MeetsAlong (step allocator) (Disciplined allocator)
      (begin start dram inUse live) labels)
    (reaches : run (step allocator) (begin start dram inUse live) labels = some state) :
    (∀ place, IsHeaderOrSpot chunk oldSpots place → ¬ IsFreeSpace chunk place →
      ¬ IsNextChunk chunk place → state.afterAbort place = start place) ∧
    ((∀ place, IsHeaderOrSpot chunk oldSpots place → state.afterAbort place = start place) ↔
      MeetsAlong (step allocator) (TakesNone chunk) (begin start dram inUse live) labels ∧
      MeetsAlong (step allocator) (ExtendsNot allocator chunk) (begin start dram inUse live)
        labels) := by
  obtain ⟨more, link, good, isMore, isLink⟩ :=
    run_good (good_begin consistent isChunk layout) disciplined reaches
  have undone := good.undone
  rw [Nat.zero_add] at undone
  refine ⟨undone.restored, ?_⟩
  rw [← isMore, ← isLink]
  have sameSpace : word state.afterAbort (freeSpaceAt chunk) =
      word state.tx.mem (freeSpaceAt chunk) :=
    word_congr fun offset inWord => undo_of_not_covers _
      (undone.untouched _ ⟨Nat.le_add_right _ _, by omega⟩)
  have space := undone.space
  rw [← sameSpace] at space
  have bounded : more ≤ chunkSize := by
    obtain ⟨spots, -, remains⟩ := undone.spots
    have sum := sum_size_le layout.spotFits.apart layout.spotFits.inside
    have total := remains.total
    omega
  have isChunkSize : chunkSize = 2097152 := by decide
  have values : wordValues = 4294967296 := by decide
  have small := word_lt state.afterAbort (freeSpaceAt chunk)
  rw [values] at space small
  constructor
  · intro all
    have header (place : Nat) (low : chunk ≤ place) (high : place < chunk + 24) :
        state.afterAbort place = start place := all place (Or.inl ⟨low, by rwa [headerSize]⟩)
    have sameWord : word state.afterAbort (freeSpaceAt chunk) = word start (freeSpaceAt chunk) := by
      apply word_congr
      intro offset inWord
      rw [freeSpaceAt]
      exact header _ (by omega) (by omega)
    have samePointer : pointer state.afterAbort chunk = pointer start chunk :=
      pointer_congr fun place isNext => header place isNext.1 (by have := isNext.2; omega)
    refine ⟨by omega, fun isLinked => ?_⟩
    rcases undone.next with ⟨notLinked, -⟩ | ⟨-, nonzero, isNew⟩
    · exact notLinked (Or.inr isLinked)
    · change pointer state.afterAbort chunk ≠ 0 at nonzero
      change pointer state.afterAbort chunk ∉ inUse at isNew
      rw [samePointer] at nonzero isNew
      exact isNew ((consistent.pointers chunk isChunk).resolve_left nonzero)
  · rintro ⟨rfl, notLinked⟩ place isOld
    by_cases isSpace : IsFreeSpace chunk place
    · have sameWord : word state.afterAbort (freeSpaceAt chunk) =
          word start (freeSpaceAt chunk) := by omega
      obtain ⟨offset, rfl⟩ := Nat.exists_eq_add_of_le isSpace.1
      have inWord : offset < 4 := by
        have := isSpace.2
        omega
      exact byte_of_loadNat inWord sameWord
    · by_cases isNext : IsNextChunk chunk place
      · rcases undone.next with ⟨-, isStart⟩ | ⟨isLinked, -⟩
        · exact isStart place isNext
        · exact absurd (isLinked.resolve_left id) notLinked
      · exact undone.restored place isOld isSpace isNext

end Runs

/-! ## A region with one chunk -/

/-- The allocator of a region has one chunk, with some bytes at its end that are used. -/
def oneChunk (allocator : Allocator) (chunk used : Nat) : State :=
  begin (store (construct (fun _ => 0) chunk allocator.myId used) allocator.hdr (encode 8 chunk))
    ⟨[], chunk, 0⟩ [chunk] []

theorem consistent_oneChunk {used : Nat} (nonzero : chunk ≠ 0) (address : chunk < 2 ^ 64)
    (hdr : allocator.hdr + 8 ≤ chunk ∨ chunk + chunkSize ≤ allocator.hdr)
    (small : used ≤ threshold) : Consistent allocator (oneChunk allocator chunk used).tx [] := by
  let empty : Transaction := ⟨fun _ => 0, [], 0, ⟨[], 0, 0⟩, []⟩
  have none : Consistent allocator empty [] := by
    constructor
    all_goals simp [empty]
  have fresh : Fresh allocator empty chunk := ⟨nonzero, address, hdr, by simp [empty]⟩
  have grown := none.grown fresh small
  have linked := grown.linked (Or.inl rfl) List.mem_cons_self address
  apply linked.withDram
  · exact fun other member => absurd member List.not_mem_nil
  · exact Or.inr List.mem_cons_self
  · exact Or.inl rfl

def firstAllocator : Allocator :=
  ⟨4096, 0⟩

/-- The last spot of the old chunk, a new chunk and a large block. -/
def threeBlocks : List Label :=
  [.alloc 8 3 0 (.error .badAlloc), .write (chunkSize + headerSize) [4, 5],
    .alloc 100 2 1 (.ok (2 * chunkSize)), .alloc (chunkSize + 200) 1 0 (.ok (3 * chunkSize))]

theorem afterAbort_restores_iff_threeBlocks :
    ∃ state, run (step firstAllocator) (oneChunk firstAllocator chunkSize threshold) threeBlocks =
        some state ∧
      ∀ place, IsHeaderOrSpot chunkSize [⟨headerSize, chunkSize - headerSize - threshold⟩] place →
        ¬ IsFreeSpace chunkSize place → ¬ IsNextChunk chunkSize place →
        state.afterAbort place =
          (oneChunk firstAllocator chunkSize threshold).tx.mem place := by
  obtain ⟨state, reaches⟩ := Option.isSome_iff_exists.mp (by decide +kernel :
    (run (step firstAllocator) (oneChunk firstAllocator chunkSize threshold)
      threeBlocks).isSome = true)
  have hdr : firstAllocator.hdr + 8 ≤ chunkSize ∨ chunkSize + chunkSize ≤ firstAllocator.hdr := by
    decide
  have consistent := consistent_oneChunk (by decide) (by decide) hdr (le_refl threshold)
  have layout : Layout (oneChunk firstAllocator chunkSize threshold).tx.mem chunkSize []
      [⟨headerSize, chunkSize - headerSize - threshold⟩] := by
    apply layout_congr (layout_construct (fun _ => 0) chunkSize 0 (le_refl threshold))
    intro place low _
    have isHdr : firstAllocator.hdr = 4096 := rfl
    have capacity : chunkSize = 2097152 := by decide
    exact store_outside (by rw [length_encode]; omega)
  have disciplined : MeetsAlong (step firstAllocator) (Disciplined firstAllocator)
      (oneChunk firstAllocator chunkSize threshold) threeBlocks := by decide +kernel
  refine ⟨state, reaches, ?_⟩
  exact (afterAbort_restores_iff consistent List.mem_cons_self layout disciplined reaches).1

/-- After the aborts a block of 8 bytes is missing in `free_space`, and a chunk that belongs to no
transaction is behind the only one. -/
theorem abort_loses_header :
    let begins := oneChunk firstAllocator chunkSize threshold
    word begins.tx.mem (freeSpaceAt chunkSize) = 8 ∧ pointer begins.tx.mem chunkSize = 0 ∧
      (run (step firstAllocator) begins [.alloc 8 3 0 (.error .badAlloc)]).map
        (fun state => word state.afterAbort (freeSpaceAt chunkSize)) = some 0 ∧
      (run (step firstAllocator) begins [.alloc 100 2 1 (.ok (2 * chunkSize))]).map
        (fun state => pointer state.afterAbort chunkSize) = some (2 * chunkSize) := by
  exact ⟨rfl, rfl, rfl, rfl⟩

end Pmgd.FreeFormAbort
