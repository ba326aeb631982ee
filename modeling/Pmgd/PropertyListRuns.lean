import Pmgd.IndexContents
import Pmgd.PropertyListMap

/-!
# Runs of calls on a property list

In any sequence of calls, whatever the allocator offers and whether or not the caller goes on after
an exception, a list that memory holds stays one, and so it does when transactions commit and abort.
It is a map from ids to values, each block of the allocator is freed or in use once, the undo log
gives the old bytes back, and the index manager is told every change.
-/

namespace Pmgd

open ByteMemory RecordRun UndoLog ThrowingState ListEdit

/-- A call on a list, with what the allocator offers. -/
inductive ListAction
  | set (id : BitVec 16) (value : Property) (offer : ListOffer)
  | remove (id : BitVec 16)
  | removeAll

namespace ListAction

def perform (list : Nat) : ListAction → ListEdit Unit
  | set id value offer => PropertyList.setProperty list id value offer
  | remove id => PropertyList.removeProperty list id
  | removeAll => PropertyList.removeAllProperties list

/-- The world after a call whose exception, if any, is caught. -/
def outcome (list : Nat) (action : ListAction) (world : ListWorld) :
    Option ListFailure × ListWorld :=
  match action.perform list world with
  | .ok _ next => (none, next)
  | .error failure next => (some failure, next)

def Fits (list size : Nat) (world : ListWorld) : ListAction → Prop
  | set _ value offer => offer.Fits list size world value
  | remove _ | removeAll => True

/-- What a call does to the values of the ids; an exception of `set_property` leaves none, unless
it is one of the index manager. -/
def effect : ListAction → Option ListFailure → (BitVec 16 → Option Property) →
    BitVec 16 → Option Property
  | set id value _, none, values => Function.update values id (some value)
  | set _ _ _, some .indexManager, values => values
  | set id _ _, some _, values => Function.update values id none
  | remove id, _, values => Function.update values id none
  | removeAll, _, _ => fun _ => none

end ListAction

/-- The values after calls on an empty list. -/
def valuesAfter (calls : List (ListAction × Option ListFailure)) : BitVec 16 → Option Property :=
  calls.foldl (fun values call => call.1.effect call.2 values) fun _ => none

/-- A run of calls with their exceptions; the allocator offers what is free. -/
inductive ListRun (list size : Nat) :
    ListWorld → List (ListAction × Option ListFailure) → ListWorld → Prop
  | nil (world : ListWorld) : ListRun list size world [] world
  | cons {world middle next : ListWorld} {action : ListAction} {failure : Option ListFailure}
      {calls : List (ListAction × Option ListFailure)} (fits : action.Fits list size world)
      (called : action.outcome list world = (failure, middle))
      (rest : ListRun list size middle calls next) :
      ListRun list size world ((action, failure) :: calls) next

/-! ## Transactions -/

/-- Memory is the same in some regions. -/
def SameInside (regions : List Region) (mem other : Memory) : Prop :=
  ∀ region ∈ regions, ∀ place, region.Has place → other place = mem place

/-- The world after a commit: the allocator has what was freed, and may have written to it. -/
def ListWorld.committed (world : ListWorld) (mem : Memory) : ListWorld where
  mem := mem
  log := []
  allocated := world.allocated.diff world.freed
  freed := []
  updates := []
  iterators := []

/-- Transactions on a list one after another, with the calls of those that commit.  In between, the
rest of memory may change. -/
inductive ListHistory (list size : Nat) (start : ListWorld) :
    List (ListAction × Option ListFailure) → ListWorld → Prop
  | start : ListHistory list size start [] start
  | commit {world next : ListWorld} {mem : Memory}
      {earlier calls : List (ListAction × Option ListFailure)}
      (history : ListHistory list size start earlier world)
      (run : ListRun list size world calls next)
      (same : SameInside (⟨list, size⟩ :: next.allocated.diff next.freed) next.mem mem) :
      ListHistory list size start (earlier ++ calls) (next.committed mem)
  | abort {world next : ListWorld} {mem : Memory}
      {earlier calls : List (ListAction × Option ListFailure)}
      (history : ListHistory list size start earlier world)
      (run : ListRun list size world calls next)
      (same : SameInside (⟨list, size⟩ :: world.allocated) (undo next.log next.mem) mem) :
      ListHistory list size start earlier { world with mem, iterators := [] }

/-- A world with a list that was just initialised. -/
def initialWorld (mem : Memory) (list size : Nat) (iterators : List PropertyListIterator) :
    ListWorld where
  mem := PropertyList.init mem list size
  log := []
  allocated := []
  freed := []
  updates := []
  iterators := iterators

section Runs

variable {list size : Nat} {world next : ListWorld} {chain : List PropertyChunk} {id : BitVec 16}
  {calls earlier : List (ListAction × Option ListFailure)} {entry : PropertyEntry}
  {front back : List PropertyEntry} {value : Property}

theorem lookup_othersOf (chain : List PropertyChunk) (id : BitVec 16) :
    lookup (othersOf chain id) = Function.update (lookup (chainEntries chain)) id none := by
  funext other
  rw [othersOf, lookup_filter fun other => other ≠ id, Function.update_apply]
  by_cases same : other = id
  · simp [same]
  · simp [same]

/-- The values with a new entry. -/
theorem lookup_insert (held : ListHeld list size world chain) (isId : entry.id = id)
    (isValue : entry.value = value) {old : List PropertyChunk}
    (areOthers : othersOf old id = front ++ back)
    (areEntries : chainEntries chain = front ++ entry :: back) :
    lookup (chainEntries chain) =
      Function.update (lookup (chainEntries old)) id (some value) := by
  have perm : (chainEntries chain).Perm (entry :: (front ++ back)) :=
    areEntries ▸ List.perm_middle
  rw [lookup_perm held.ids perm, lookup_cons, ← areOthers, lookup_othersOf, isId, isValue,
    Function.update_idem]

/-- One call. -/
theorem ListHeld.outcome (held : ListHeld list size world chain) (action : ListAction)
    (fits : action.Fits list size world) :
    (action.outcome list world).1 ≠ some .assertion ∧ ∃ after calls fresh,
      Changed list size world (action.outcome list world).2 after calls fresh ∧
      lookup (chainEntries after) =
        action.effect (action.outcome list world).1 (lookup (chainEntries chain)) := by
  cases action with
  | set id value offer =>
      have ends := @ListHeld.setProperty_ends _ _ _ _ id value offer held fits
      rw [ListAction.outcome, ListAction.perform]
      cases reached : PropertyList.setProperty list id value offer world with
      | ok result next =>
          rw [reached] at ends
          obtain ⟨grown, fresh, front, entry, back, isId, isValue, areOthers, areEntries, changed⟩ :=
            ends
          exact ⟨by nofun, grown, _, fresh, changed,
            lookup_insert changed.held isId isValue areOthers areEntries⟩
      | error failure next =>
          rw [reached] at ends
          rcases ends with ⟨rfl, rfl⟩ | ⟨rfl | rfl, grown, fresh, areEntries, changed⟩
          · exact ⟨by nofun, chain, [], [], .refl held, rfl⟩
          · exact ⟨by nofun, grown, _, fresh, changed, areEntries ▸ lookup_othersOf chain id⟩
          · exact ⟨by nofun, grown, _, fresh, changed, areEntries ▸ lookup_othersOf chain id⟩
  | remove id =>
      obtain ⟨next, rest, isRemoved, areEntries, changed⟩ := held.removeProperty_eq id
      rw [ListAction.outcome, ListAction.perform, isRemoved]
      exact ⟨by nofun, rest, _, [], changed, areEntries ▸ lookup_othersOf chain id⟩
  | removeAll =>
      obtain ⟨next, emptied, isRemoved, areEntries, changed, -⟩ := held.removeAllProperties_eq
      rw [ListAction.outcome, ListAction.perform, isRemoved]
      exact ⟨by nofun, emptied, _, [], changed, areEntries ▸ rfl⟩

/-- Any run. -/
theorem ListHeld.run (held : ListHeld list size world chain)
    (run : ListRun list size world calls next) :
    (∀ call ∈ calls, call.2 ≠ some .assertion) ∧ ∃ after updates fresh,
      Changed list size world next after updates fresh ∧
      lookup (chainEntries after) =
        calls.foldl (fun values call => call.1.effect call.2 values)
          (lookup (chainEntries chain)) := by
  induction run generalizing chain with
  | nil world =>
      exact ⟨List.forall_mem_nil _, chain, [], [], .refl held, rfl⟩
  | @cons world middle next action failure calls fits called rest ih =>
      obtain ⟨notAssertion, between, updates, fresh, changed, areValues⟩ := held.outcome action fits
      rw [called] at notAssertion changed areValues
      obtain ⟨noAssertions, after, more, newer, later, afterwards⟩ := ih changed.held
      refine ⟨?_, after, updates ++ more, newer ++ fresh, changed.next later.held later.updates
        later.allocated (later.restores.mono (List.subset_append_left _ _)), ?_⟩
      · rintro call (_ | ⟨_, member⟩)
        · exact notAssertion
        · exact noAssertions call member
      · rw [List.foldl_cons, ← areValues]
        exact afterwards

theorem ListHeld.allocated_perm (held : ListHeld list size world chain) :
    world.allocated.Perm (world.freed ++
      (chain.tail.map PropertyChunk.region ++ entryRegions (chainEntries chain))) := by
  have balance := held.balance
  obtain ⟨first, rest, rfl, rfl, rfl⟩ := held.exists_head
  have moved : (world.freed ++ chainRegions (first :: rest)).Perm
      (first.region :: (world.freed ++ (rest.map PropertyChunk.region ++
        entryRegions (chainEntries (first :: rest))))) := List.perm_middle
  exact (List.perm_cons _).mp (balance.trans moved)

/-- Other memory that is the same where the list is. -/
theorem ListHeld.of_sameInside (held : ListHeld list size world chain) {after : ListWorld}
    (same : SameInside (chainRegions chain) world.mem after.mem)
    (sameAllocated : after.allocated = world.allocated) (sameFreed : after.freed = world.freed) :
    ListHeld list size after chain := by
  refine ⟨?_, held.head, held.added, ?_, held.ids, sameAllocated ▸ held.apart,
    sameAllocated ▸ sameFreed ▸ held.balance⟩
  · apply held.held.congr
    intro chunk member offset inside
    exact same _ (List.mem_append_left _ (List.mem_map_of_mem member)) _
      ⟨Nat.le_add_right _ _, Nat.add_lt_add_left inside _⟩
  · intro entry isEntry bytes isExternal
    apply Eq.trans _ (held.blocks entry isEntry bytes isExternal)
    apply load_congr
    intro offset inside
    have isRegion : entry.region = some ⟨entry.block, bytes.length⟩ := by
      rw [PropertyEntry.region, Option.mem_def.mp isExternal]
      rfl
    exact same _ (List.mem_append_right _ (List.mem_filterMap.mpr ⟨entry, isEntry, isRegion⟩)) _
      ⟨Nat.le_add_right _ _, Nat.add_lt_add_left inside _⟩

/-- Undoing what a run has logged gives the list back as it was. -/
theorem ListHeld.undo_run (held : ListHeld list size world chain) (noLog : world.log = [])
    (run : ListRun list size world calls next) :
    ListHeld list size { world with mem := undo next.log next.mem } chain ∧
      ∃ fresh, next.allocated = fresh ++ world.allocated ∧
        SameOutside fresh world.mem (undo next.log next.mem) := by
  obtain ⟨-, after, updates, fresh, changed, -⟩ := held.run run
  obtain ⟨images, isLog, same⟩ := changed.restores
  rw [noLog, List.nil_append] at isLog
  rw [← isLog] at same
  have apart := changed.held.apart
  rw [changed.allocated] at apart
  have moved : (⟨list, size⟩ :: (fresh ++ world.allocated)).Perm
      (fresh ++ ⟨list, size⟩ :: world.allocated) := List.perm_middle.symm
  have isFresh := (List.pairwise_append.mp
    ((moved.pairwise_iff fun apart => Region.Apart.symm apart).mp apart)).2.2
  refine ⟨held.of_sameInside ?_ rfl rfl, fresh, changed.allocated, same⟩
  intro old isOld place has
  exact same place fun region member =>
    (isFresh region member old (held.mem_regions isOld)).symm.not_has has

/-- A commit leaves the blocks that the list uses. -/
theorem ListHeld.committed_perm (held : ListHeld list size world chain) :
    ((⟨list, size⟩ : Region) :: world.allocated.diff world.freed).Perm (chainRegions chain) := by
  have balance := held.allocated_perm
  obtain ⟨first, rest, rfl, rfl, rfl⟩ := held.exists_head
  apply List.Perm.cons
  apply List.perm_iff_count.mpr
  intro region
  have counted := List.perm_iff_count.mp balance region
  rw [List.count_append] at counted
  rw [List.count_diff, counted]
  exact Nat.add_sub_cancel_left _ _

theorem ListHeld.committed (held : ListHeld list size world chain) {mem : Memory}
    (same : SameInside (⟨list, size⟩ :: world.allocated.diff world.freed) world.mem mem) :
    ListHeld list size (world.committed mem) chain := by
  have inUse := held.committed_perm
  have heldThen : ListHeld list size { world.committed mem with mem := world.mem } chain :=
    ⟨held.held, held.head, held.added, held.blocks, held.ids,
      held.apart.sublist ((List.diff_sublist _ _).cons_cons _), inUse⟩
  exact heldThen.of_sameInside (fun region member => same region (inUse.mem_iff.mpr member)) rfl rfl

/-- A list in any history. -/
theorem ListHeld.history {start : ListWorld} (held : ListHeld list size start chain)
    (noLog : start.log = []) (history : ListHistory list size start calls world) :
    (∀ call ∈ calls, call.2 ≠ some .assertion) ∧ world.log = [] ∧ ∃ after,
      ListHeld list size world after ∧ lookup (chainEntries after) =
        calls.foldl (fun values call => call.1.effect call.2 values)
          (lookup (chainEntries chain)) := by
  induction history with
  | start => exact ⟨List.forall_mem_nil _, noLog, chain, held, rfl⟩
  | @commit world next mem earlier calls history run same ih =>
      obtain ⟨noAssertions, -, between, heldBetween, areBetween⟩ := ih
      obtain ⟨noOthers, after, updates, fresh, changed, areValues⟩ := heldBetween.run run
      refine ⟨?_, rfl, after, changed.held.committed same, ?_⟩
      · intro call member
        exact (List.mem_append.mp member).elim (noAssertions call) (noOthers call)
      · rw [areValues, areBetween, List.foldl_append]
  | @abort world next mem earlier calls history run same ih =>
      obtain ⟨noAssertions, noneLogged, between, heldBetween, areBetween⟩ := ih
      obtain ⟨heldAgain, -⟩ := heldBetween.undo_run noneLogged run
      refine ⟨noAssertions, noneLogged, between, ?_, areBetween⟩
      exact heldAgain.of_sameInside
        (fun region member => same region (heldBetween.mem_regions member)) rfl rfl

/-- A list that was just initialised. -/
theorem held_initialWorld (mem : Memory) (iterators : List PropertyListIterator)
    (isAddress : 8 ≤ list) (low : 10 ≤ size) (high : size ≤ 256) :
    ∃ chain, chainEntries chain = [] ∧
      ListHeld list size (initialWorld mem list size iterators) chain := by
  refine ⟨[⟨list, size, [], isAddress, low, high⟩], rfl, ⟨?_, trivial⟩, rfl, nofun, nofun,
    List.nodup_nil, List.pairwise_singleton _ _, List.Perm.refl _⟩
  exact restAt_init mem ⟨list, 1, isAddress⟩ rfl (by omega) high

/-- A list in any run of a transaction after any history from its initialisation on. -/
theorem exists_held_of_run {mem : Memory} {iterators : List PropertyListIterator}
    (isAddress : 8 ≤ list) (low : 10 ≤ size) (high : size ≤ 256)
    (history : ListHistory list size (initialWorld mem list size iterators) earlier world)
    (run : ListRun list size world calls next) :
    (∀ call ∈ earlier ++ calls, call.2 ≠ some .assertion) ∧ ∃ chain, ListHeld list size next chain ∧
      lookup (chainEntries chain) = valuesAfter (earlier ++ calls) := by
  obtain ⟨chain, noEntries, held⟩ := @held_initialWorld list size mem iterators isAddress low high
  obtain ⟨noAssertions, -, between, heldBetween, areBetween⟩ := held.history rfl history
  obtain ⟨noOthers, after, updates, fresh, changed, areValues⟩ := heldBetween.run run
  rw [noEntries] at areBetween
  refine ⟨fun call member => ?_, after, changed.held, ?_⟩
  · exact (List.mem_append.mp member).elim (noAssertions call) (noOthers call)
  · rw [areValues, areBetween, valuesAfter, List.foldl_append]
    rfl

/-- A call that needs a new chunk and a block for a string. -/
def longCall : ListAction :=
  .set 5 (.string (List.replicate 14 7)) ⟨some 128, some 256, false⟩

theorem longRun :
    ListRun 64 10 (initialWorld (fun _ => 0) 64 10 []) [(longCall, none)]
      (longCall.outcome 64 (initialWorld (fun _ => 0) 64 10 [])).2 := by
  have fits : longCall.Fits 64 10 (initialWorld (fun _ => 0) 64 10 []) := by
    have isExternal : (Property.string (List.replicate 14 7)).external =
        some (List.replicate 14 7) := rfl
    refine ⟨?_, ?_, ?_⟩
    · rintro _ ⟨⟩
      refine ⟨by decide, by decide, ?_⟩
      rintro region (_ | ⟨_, ⟨⟩⟩)
      exact .inr (by decide)
    · rintro bytes isBytes _ ⟨⟩
      obtain rfl : _ = bytes := Option.some.inj (isExternal.symm.trans isBytes)
      refine ⟨by decide, by decide, ?_⟩
      rintro region (_ | ⟨_, ⟨⟩⟩)
      exact .inr (by decide)
    · rintro bytes isBytes _ ⟨⟩ _ ⟨⟩
      exact .inr (show 128 + PropertyList.chunkSize ≤ 256 by decide)
  have returns : (longCall.outcome 64 (initialWorld (fun _ => 0) 64 10 [])).1 = none := by
    decide
  exact .cons fits (Prod.ext returns rfl) (.nil _)

/-- The world when one transaction has set a property and the next one has removed it. -/
def emptiedWorld : ListWorld :=
  let stored := (longCall.outcome 64 (initialWorld (fun _ => 0) 64 10 [])).2
  let removed := ((ListAction.remove 5).outcome 64 (stored.committed stored.mem)).2
  removed.committed removed.mem

theorem emptiedHistory :
    ListHistory 64 10 (initialWorld (fun _ => 0) 64 10 [])
      [(longCall, none), (.remove 5, none)] emptiedWorld := by
  have stored := ListHistory.commit .start longRun fun _ _ _ _ => rfl
  exact .commit stored (.cons trivial (Prod.ext (by decide) rfl) (.nil _)) fun _ _ _ _ => rfl

/-- A call that is offered the block of the string that was removed. -/
def reusingCall : ListAction :=
  .set 5 (.string (List.replicate 14 8)) ⟨none, some 256, false⟩

theorem reusingRun :
    ListRun 64 10 emptiedWorld [(reusingCall, none)] (reusingCall.outcome 64 emptiedWorld).2 := by
  have inUse : emptiedWorld.allocated = [⟨128, 64⟩] := by decide
  have fits : reusingCall.Fits 64 10 emptiedWorld := by
    have isExternal : (Property.string (List.replicate 14 8)).external =
        some (List.replicate 14 8) := rfl
    refine ⟨nofun, ?_, fun _ _ => nofun⟩
    rintro bytes isBytes _ ⟨⟩
    obtain rfl : _ = bytes := Option.some.inj (isExternal.symm.trans isBytes)
    refine ⟨by decide, by decide, ?_⟩
    rw [inUse]
    rintro region (_ | ⟨_, _ | ⟨_, ⟨⟩⟩⟩)
    · exact .inr (by decide)
    · exact .inr (by decide)
  have returns : (reusingCall.outcome 64 emptiedWorld).1 = none := by decide
  exact .cons fits (Prod.ext returns rfl) (.nil _)

/-- From its initialisation on, a list is a map, and no assertion of the code fails. -/
theorem checkProperty_of_run (mem : Memory) (iterators : List PropertyListIterator)
    (isAddress : 8 ≤ list) (low : 10 ≤ size) (high : size ≤ 256)
    (history : ListHistory list size (initialWorld mem list size iterators) earlier world)
    (run : ListRun list size world calls next) :
    (∀ call ∈ earlier ++ calls, call.2 ≠ some .assertion) ∧
      ∀ id, PropertyList.checkProperty list id next =
        .ok (valuesAfter (earlier ++ calls) id) next := by
  obtain ⟨noAssertions, chain, held, areValues⟩ :=
    exists_held_of_run isAddress low high history run
  refine ⟨noAssertions, fun id => ?_⟩
  rw [held.checkProperty_eq, areValues]

theorem checkProperty_of_run_reusingRun :
    let next := (reusingCall.outcome 64 emptiedWorld).2
    PropertyList.checkProperty 64 5 next = .ok (some (.string (List.replicate 14 8))) next :=
  (checkProperty_of_run _ _ (by decide) (by decide) (by decide) emptiedHistory reusingRun).2 5

/-- At any time the blocks that were in use when the transaction began and those that it has
allocated are those that it has freed and those that the list uses, each once, and the chunks and
blocks of the list do not overlap. -/
theorem blocks_of_run (mem : Memory) (iterators : List PropertyListIterator)
    (isAddress : 8 ≤ list) (low : 10 ≤ size) (high : size ≤ 256)
    (history : ListHistory list size (initialWorld mem list size iterators) earlier world)
    (run : ListRun list size world calls next) :
    ∃ chain, ChainHeld next.mem chain ∧ headAddress chain = some list ∧
      (∀ entry ∈ chainEntries chain, entry.BlockHeld next.mem) ∧
      (chainRegions chain).Pairwise Region.Apart ∧
      next.allocated.Perm (next.freed ++
        (chain.tail.map PropertyChunk.region ++ entryRegions (chainEntries chain))) := by
  obtain ⟨-, chain, held, -⟩ := exists_held_of_run isAddress low high history run
  refine ⟨chain, held.held, ?_, held.blocks, held.regionsApart, held.allocated_perm⟩
  obtain ⟨first, rest, rfl, rfl, rfl⟩ := held.exists_head
  rfl

theorem blocks_of_run_reusingRun :
    let next := (reusingCall.outcome 64 emptiedWorld).2
    ∃ chain, ChainHeld next.mem chain ∧ headAddress chain = some 64 ∧
      (chainRegions chain).Pairwise Region.Apart ∧
      next.allocated.Perm (next.freed ++
        (chain.tail.map PropertyChunk.region ++ entryRegions (chainEntries chain))) := by
  obtain ⟨chain, held, isHead, -, apart, balance⟩ :=
    blocks_of_run _ _ (by decide) (by decide) (by decide) emptiedHistory reusingRun
  exact ⟨chain, held, isHead, apart, balance⟩

/-- A transaction whose undo log is played back leaves every property of the list as it was, and
every byte except those of blocks that it has allocated. -/
theorem undo_of_run (mem : Memory) (iterators : List PropertyListIterator)
    {before : List (ListAction × Option ListFailure)} {began : ListWorld} (isAddress : 8 ≤ list)
    (low : 10 ≤ size) (high : size ≤ 256)
    (history : ListHistory list size (initialWorld mem list size iterators) before began)
    (prior : ListRun list size began earlier world)
    (run : ListRun list size { world with log := [] } calls next) :
    (∀ id, PropertyList.checkProperty list id { world with mem := undo next.log next.mem } =
      .ok (valuesAfter (before ++ earlier) id) { world with mem := undo next.log next.mem }) ∧
    ∃ fresh, next.allocated = fresh ++ world.allocated ∧
      ∀ place, (∀ region ∈ fresh, ¬ region.Has place) →
        undo next.log next.mem place = world.mem place := by
  obtain ⟨-, chain, held, areValues⟩ := exists_held_of_run isAddress low high history prior
  have heldNow : ListHeld list size { world with log := [] } chain := held.of_same rfl rfl rfl
  obtain ⟨heldAgain, fresh, isAllocated, same⟩ := heldNow.undo_run rfl run
  have heldThen : ListHeld list size { world with mem := undo next.log next.mem } chain :=
    heldAgain.of_same rfl rfl rfl
  refine ⟨fun id => ?_, fresh, isAllocated, same⟩
  rw [heldThen.checkProperty_eq, areValues]

theorem undo_of_run_longRun :
    let world := initialWorld (fun _ => 0) 64 10 []
    let next := (longCall.outcome 64 world).2
    let undone := { world with mem := undo next.log next.mem }
    PropertyList.checkProperty 64 5 next = .ok (some (.string (List.replicate 14 7))) next ∧
      PropertyList.checkProperty 64 5 undone = .ok none undone := by
  obtain ⟨-, chain, held, areValues⟩ :=
    exists_held_of_run (by decide) (by decide) (by decide) .start longRun
  refine ⟨?_, (undo_of_run _ _ (by decide) (by decide) (by decide) .start (.nil _) longRun).1 5⟩
  rw [held.checkProperty_eq, areValues]
  rfl

/-- `remove_all_properties` leaves no property, has freed all that was allocated, and tells the
index manager of each property but the blobs. -/
theorem removeAllProperties_of_run (mem : Memory) (iterators : List PropertyListIterator)
    {began : ListWorld} (isAddress : 8 ≤ list) (low : 10 ≤ size) (high : size ≤ 256)
    (history : ListHistory list size (initialWorld mem list size iterators) earlier began)
    (run : ListRun list size began calls world) :
    ∃ next, ∃ ids : List (BitVec 16), PropertyList.removeAllProperties list world = .ok () next ∧
      (∀ id, PropertyList.checkProperty list id next = .ok none next) ∧
      next.allocated.Perm next.freed ∧ ids.Nodup ∧
      (∀ id, id ∈ ids ↔ ∃ value ∈ valuesAfter (earlier ++ calls) id, value.isBlob = false) ∧
      next.updates = world.updates ++
        ids.map fun id => ⟨id, valuesAfter (earlier ++ calls) id, none⟩ := by
  obtain ⟨-, chain, held, areValues⟩ := exists_held_of_run isAddress low high history run
  obtain ⟨next, emptied, isRemoved, areEntries, changed, areFreed⟩ := held.removeAllProperties_eq
  refine ⟨next, ((chainEntries chain).filter fun entry => !entry.value.isBlob).map
    PropertyEntry.id, isRemoved, fun id => ?_, ?_, held.ids.sublist (List.filter_sublist.map _),
    fun id => ?_, ?_⟩
  · rw [changed.held.checkProperty_eq, areEntries]
    rfl
  · rw [changed.allocated]
    exact (held.allocated_perm.trans List.perm_append_comm).trans areFreed.symm
  · rw [← areValues, List.mem_map]
    constructor
    · rintro ⟨entry, member, rfl⟩
      obtain ⟨isEntry, notBlob⟩ := List.mem_filter.mp member
      exact ⟨entry.value, lookup_of_mem held.ids isEntry, by simpa using notBlob⟩
    · rintro ⟨value, isValue, notBlob⟩
      have isKnown := isSome_lookup.mp (Option.isSome_of_mem isValue)
      obtain ⟨entry, isEntry, rfl⟩ := List.mem_map.mp isKnown
      rw [lookup_of_mem held.ids isEntry] at isValue
      obtain rfl : entry.value = value := Option.some.inj isValue
      exact ⟨entry, List.mem_filter.mpr ⟨isEntry, by simp [notBlob]⟩, rfl⟩
  · rw [changed.updates, dropCalls_eq, List.map_map, ← areValues]
    congr 1
    apply List.map_congr_left
    intro entry member
    rw [Function.comp_apply, lookup_of_mem held.ids (List.mem_filter.mp member).1]

theorem removeAllProperties_of_run_longRun :
    let world := (longCall.outcome 64 (initialWorld (fun _ => 0) 64 10 [])).2
    ∃ next, PropertyList.removeAllProperties 64 world = .ok () next ∧
      PropertyList.checkProperty 64 5 next = .ok none next ∧ next.allocated.Perm next.freed := by
  obtain ⟨next, ids, isRemoved, noValue, allFreed, -⟩ :=
    removeAllProperties_of_run _ _ (by decide) (by decide) (by decide) .start longRun
  exact ⟨next, isRemoved, noValue 5, allFreed⟩

end Runs

/-! ## The properties that the index manager is told of -/

/-- The entries of a list as the properties of a node. -/
def nodeOf (tag : Tag) (chain : List PropertyChunk) : IndexedNode fun _ : BitVec 16 => Property :=
  ⟨tag, (chainEntries chain).map fun entry => ⟨entry.id, entry.value⟩⟩

/-- A call on the properties of a node, with the calls of the index manager. -/
inductive NodeStep : IndexedNode (fun _ : BitVec 16 => Property) → ListAction →
    IndexedNode (fun _ : BitVec 16 => Property) → List IndexUpdate → Prop
  | set (node : IndexedNode fun _ : BitVec 16 => Property) (id : BitVec 16) (value : Property)
      (offer : ListOffer) (place : Nat) :
      NodeStep node (.set id value offer) (node.set id value place)
        [⟨id, node.get id, some value⟩]
  | remove (node : IndexedNode fun _ : BitVec 16 => Property) (id : BitVec 16) :
      NodeStep node (.remove id) (node.erase id)
        ((node.get id).map fun old => ⟨id, some old, none⟩).toList
  | removeAll (node : IndexedNode fun _ : BitVec 16 => Property) :
      NodeStep node .removeAll { node with properties := [] }
        (node.properties.filterMap fun property =>
          match property.2 with
          | .blob _ => none
          | value => some ⟨property.1, some value, none⟩)

inductive NodeRun : IndexedNode (fun _ : BitVec 16 => Property) → List ListAction →
    IndexedNode (fun _ : BitVec 16 => Property) → List IndexUpdate → Prop
  | nil (node : IndexedNode fun _ : BitVec 16 => Property) : NodeRun node [] node []
  | cons {node middle last : IndexedNode fun _ : BitVec 16 => Property} {action : ListAction}
      {actions : List ListAction} {updates more : List IndexUpdate}
      (step : NodeStep node action middle updates) (rest : NodeRun middle actions last more) :
      NodeRun node (action :: actions) last (updates ++ more)

section Nodes

variable {list size : Nat} {world next : ListWorld} {chain : List PropertyChunk} {id : BitVec 16}
  {tag : Tag} {calls : List (ListAction × Option ListFailure)}

theorem get_nodeOf (tag : Tag) (chain : List PropertyChunk) (id : BitVec 16) :
    (nodeOf tag chain).get id = lookup (chainEntries chain) id := by
  rw [IndexedNode.get, nodeOf]
  dsimp only
  induction chainEntries chain with
  | nil => rfl
  | cons entry entries ih =>
      rw [List.map_cons, lookup_cons, Function.update_apply]
      by_cases same : id = entry.id
      · subst same
        rw [if_pos rfl]
        exact List.dlookup_cons_eq _ _ _
      · rw [if_neg same, ← ih]
        exact List.dlookup_cons_ne _ _ same

theorem erase_nodeOf (ids : ((chainEntries chain).map PropertyEntry.id).Nodup) (tag : Tag)
    (id : BitVec 16) :
    (nodeOf tag chain).erase id =
      ⟨tag, (othersOf chain id).map fun entry => ⟨entry.id, entry.value⟩⟩ := by
  rw [IndexedNode.erase, nodeOf, othersOf]
  dsimp only
  congr 1
  generalize chainEntries chain = entries at ids ⊢
  induction entries with
  | nil => rfl
  | cons entry entries ih =>
      obtain ⟨absent, ids⟩ := List.nodup_cons.mp ids
      rw [List.map_cons]
      by_cases same : entry.id = id
      · subst same
        have others : entries.filter (fun other => other.id ≠ entry.id) = entries := by
          apply List.filter_eq_self.mpr
          intro other member
          apply decide_eq_true
          intro same
          exact absent (List.mem_map.mpr ⟨other, member, same⟩)
        rw [List.filter_cons_of_neg (by simp), others]
        exact List.kerase_cons_eq rfl
      · rw [List.filter_cons_of_pos (by simp [same]), List.map_cons, ← ih ids]
        exact List.kerase_cons_ne fun other => same other.symm

/-- A call that returns. -/
theorem ListHeld.nodeStep (held : ListHeld list size world chain) (tag : Tag) (action : ListAction)
    (fits : action.Fits list size world) (returns : (action.outcome list world).1 = none) :
    ∃ after updates fresh, Changed list size world (action.outcome list world).2 after updates fresh ∧
      NodeStep (nodeOf tag chain) action (nodeOf tag after) updates := by
  cases action with
  | set id value offer =>
      have ends := @ListHeld.setProperty_ends _ _ _ _ id value offer held fits
      rw [ListAction.outcome, ListAction.perform] at returns ⊢
      cases reached : PropertyList.setProperty list id value offer world with
      | error failure next =>
          rw [reached] at returns
          exact nomatch returns
      | ok result next =>
          rw [reached] at ends
          obtain ⟨grown, fresh, front, entry, back, rfl, rfl, areOthers, areEntries, changed⟩ := ends
          refine ⟨grown, _, fresh, changed, ?_⟩
          have isSet : nodeOf tag grown =
              (nodeOf tag chain).set entry.id entry.value front.length := by
            have isErased := erase_nodeOf held.ids tag entry.id
            have properties := congrArg IndexedNode.properties isErased
            rw [IndexedNode.erase] at properties
            dsimp only at properties
            rw [IndexedNode.set, properties, areOthers, nodeOf, areEntries, List.map_append, List.map_append,
              List.map_cons]
            simp [nodeOf]
          rw [isSet, ← get_nodeOf tag]
          exact .set _ _ _ _ _
  | remove id =>
      obtain ⟨next, rest, isRemoved, areEntries, changed⟩ := held.removeProperty_eq id
      rw [ListAction.outcome, ListAction.perform, isRemoved]
      refine ⟨rest, _, [], changed, ?_⟩
      have isErased : nodeOf tag rest = (nodeOf tag chain).erase id := by
        rw [erase_nodeOf held.ids, nodeOf, areEntries]
      rw [isErased, ← get_nodeOf tag]
      exact .remove _ _
  | removeAll =>
      obtain ⟨next, emptied, isRemoved, areEntries, changed, -⟩ := held.removeAllProperties_eq
      rw [ListAction.outcome, ListAction.perform, isRemoved]
      refine ⟨emptied, _, [], changed, ?_⟩
      have isEmptied : nodeOf tag emptied = { nodeOf tag chain with properties := [] } := by
        rw [nodeOf, areEntries]
        rfl
      have areCalls : dropCalls (chainEntries chain) =
          (nodeOf tag chain).properties.filterMap fun property =>
            match property.2 with
            | .blob _ => none
            | value => some ⟨property.1, some value, none⟩ := by
        rw [dropCalls, nodeOf, List.filterMap_map]
        rfl
      rw [isEmptied, areCalls]
      exact .removeAll _

/-- A run without exceptions is one on the properties of a node, and the index manager is told of
each change, with the value that the property had. -/
theorem ListHeld.nodeRun (held : ListHeld list size world chain) (tag : Tag)
    (run : ListRun list size world calls next) (returns : ∀ call ∈ calls, call.2 = none) :
    ∃ after updates, ListHeld list size next after ∧ next.updates = world.updates ++ updates ∧
      NodeRun (nodeOf tag chain) (calls.map Prod.fst) (nodeOf tag after) updates := by
  induction run generalizing chain with
  | nil world => exact ⟨chain, [], held, (List.append_nil _).symm, .nil _⟩
  | @cons world middle next action failure calls fits called rest ih =>
      have isReturned : (action.outcome list world).1 = none := by
        rw [called]
        exact returns _ List.mem_cons_self
      obtain ⟨between, updates, fresh, changed, step⟩ := held.nodeStep tag action fits isReturned
      rw [called] at changed
      obtain ⟨after, more, heldAfter, areUpdates, others⟩ :=
        ih changed.held fun call member => returns call (List.mem_cons_of_mem _ member)
      refine ⟨after, updates ++ more, heldAfter, ?_, .cons step others⟩
      rw [areUpdates, changed.updates, List.append_assoc]

/-- From its initialisation on, a list in which no call throws follows the properties of a node, and
the index manager is told of each change. -/
theorem nodeRun_of_run (mem : Memory) (iterators : List PropertyListIterator) (isAddress : 8 ≤ list)
    (low : 10 ≤ size) (high : size ≤ 256)
    (run : ListRun list size (initialWorld mem list size iterators) calls next)
    (returns : ∀ call ∈ calls, call.2 = none) (tag : Tag) :
    ∃ node, NodeRun ⟨tag, []⟩ (calls.map Prod.fst) node next.updates ∧
      ∀ id, PropertyList.checkProperty list id next = .ok (node.get id) next := by
  obtain ⟨chain, noEntries, held⟩ := @held_initialWorld list size mem iterators isAddress low high
  obtain ⟨after, updates, heldAfter, areUpdates, nodes⟩ := held.nodeRun tag run returns
  have isEmpty : nodeOf tag chain = ⟨tag, []⟩ := by rw [nodeOf, noEntries, List.map_nil]
  rw [isEmpty] at nodes
  obtain rfl : next.updates = updates := areUpdates
  refine ⟨nodeOf tag after, nodes, fun id => ?_⟩
  rw [heldAfter.checkProperty_eq, get_nodeOf]

theorem nodeRun_of_run_longRun :
    let next := (longCall.outcome 64 (initialWorld (fun _ => 0) 64 10 [])).2
    ∃ node, NodeRun ⟨3, []⟩ [longCall] node next.updates ∧
      PropertyList.checkProperty 64 5 next = .ok (node.get 5) next := by
  obtain ⟨node, nodes, values⟩ :=
    nodeRun_of_run _ _ (by decide) (by decide) (by decide) longRun (by simp) 3
  exact ⟨node, nodes, values 5⟩

end Nodes

end Pmgd
