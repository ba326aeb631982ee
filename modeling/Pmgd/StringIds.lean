import Mathlib.Data.Nat.Find
import Pmgd.StringTable

/-!
# Ids of strings and the probe loop

The id of a name is the slot where the probe loop ends.  Nothing keeps names away from slot 0,
although the callers use this id for no string at all, and the loop has no end in a full table
without a string that starts with the name.
-/

namespace Pmgd.StringTable

open ByteMemory LabelledRun

variable {table : StringTable} {pm : Memory} {name : List UInt8}

/-- The loop ends at this slot if it gets there. -/
def EndsAt (table : StringTable) (pm : Memory) (name : List UInt8) (hash : Nat) : Prop :=
  pm (table.offset hash) = 0 ∨ name <+: table.getName pm hash

instance (table : StringTable) (pm : Memory) (name : List UInt8) (hash : Nat) :
    Decidable (table.EndsAt pm name hash) :=
  inferInstanceAs (Decidable (_ ∨ _))

/-- The probe loop steps from slot to slot until it ends. -/
theorem search_succ (noNul : 0 ∉ name) (short : name.length ≤ table.maxStringidLen)
    {left hash : Nat} (passes : ¬ table.EndsAt pm name hash) :
    search table pm name (left + 1) hash = search table pm name left (table.nextHash hash) := by
  obtain ⟨occupied, differs⟩ := not_or.mp passes
  rw [search, if_neg occupied, if_neg (mt (isMatch_slot_iff noNul short hash).mp differs)]

theorem search_endsAt (noNul : 0 ∉ name) (short : name.length ≤ table.maxStringidLen)
    {left hash : Nat} (ends : table.EndsAt pm name hash) :
    ∃ found, search table pm name (left + 1) hash = some (found, hash) := by
  rw [search]
  split_ifs with isFree same
  · exact ⟨false, rfl⟩
  · exact ⟨true, rfl⟩
  · exact absurd ((isMatch_slot_iff noNul short hash).mpr (ends.resolve_left isFree)) same

/-- The loop comes to the first slot of the chain where it ends. -/
theorem search_eq_some (noNul : 0 ∉ name) (short : name.length ≤ table.maxStringidLen)
    {left k last : Nat} (reach : k ≤ last) (near : last < k + left)
    (passes : ∀ i, k ≤ i → i < last → ¬ table.EndsAt pm name (table.probe name i))
    (ends : table.EndsAt pm name (table.probe name last)) :
    ∃ found, search table pm name left (table.probe name k) =
      some (found, table.probe name last) := by
  induction left generalizing k with
  | zero => omega
  | succ left ih =>
      rcases reach.eq_or_lt with rfl | before
      · exact search_endsAt noNul short ends
      · rw [search_succ noNul short (passes k le_rfl before)]
        exact ih before (by omega) fun i behind => passes i (Nat.le_of_succ_le behind)

/-! ## The end of the loop -/

/-- There is a slot that is free or has a string that starts with the name. -/
def HasEnd (table : StringTable) (pm : Memory) (name : List UInt8) : Prop :=
  ∃ hash < 2 ^ table.numHashBits, table.EndsAt pm name hash

instance (table : StringTable) (pm : Memory) (name : List UInt8) :
    Decidable (table.HasEnd pm name) :=
  inferInstanceAs (Decidable (∃ hash, hash < _ ∧ _))

/-- Without such a slot the loop does not end. -/
theorem search_eq_none (noNul : 0 ∉ name) (short : name.length ≤ table.maxStringidLen)
    (endless : ¬ table.HasEnd pm name) (left k : Nat) :
    search table pm name left (table.probe name k) = none := by
  induction left generalizing k with
  | zero => rfl
  | succ left ih =>
      have passes : ¬ table.EndsAt pm name (table.probe name k) := fun ends =>
        endless ⟨_, table.probe_lt name k, ends⟩
      rw [search_succ noNul short passes]
      exact ih (k + 1)

/-- With such a slot it ends after at most as many steps as there are slots. -/
theorem search_ends (noNul : 0 ∉ name) (short : name.length ≤ table.maxStringidLen)
    (hasEnd : table.HasEnd pm name) :
    (search table pm name (2 ^ table.numHashBits) (table.hashFnv1a name)).isSome := by
  classical
  obtain ⟨hash, inTable, ends⟩ := hasEnd
  obtain ⟨k, near, rfl⟩ := table.exists_probe_eq name inTable
  have exists_end : ∃ i, table.EndsAt pm name (table.probe name i) := ⟨k, ends⟩
  have first : Nat.find exists_end ≤ k := Nat.find_le ends
  have inReach : Nat.find exists_end < 0 + 2 ^ table.numHashBits := by omega
  obtain ⟨found, isFound⟩ := search_eq_some noNul short (Nat.zero_le _) inReach
    (fun i _ less => Nat.find_min exists_end less) (Nat.find_spec exists_end)
  rw [probe] at isFound
  rw [isFound]
  rfl

/-- A C string. -/
structure CString where
  bytes : List UInt8
  noNul : 0 ∉ bytes

/-- A call of `get` with a string of any length. -/
structure Request where
  name : CString
  add : Bool

/-- What a call makes of the table; one that throws leaves it as it is. -/
def request (table : StringTable) (pm : Memory) (call : Request) : Option Memory :=
  match table.get pm call.name.bytes call.add with
  | .error _ => some pm
  | .ok outcome => outcome.map fun (_, _, pm) => pm

/-- A name that is too long is rejected in front of the loop. -/
def Ends (table : StringTable) (pm : Memory) (name : List UInt8) : Prop :=
  name.length ≤ table.maxStringidLen → table.HasEnd pm name

/-- A call ends exactly if its name is rejected or there is such a slot. -/
theorem request_isSome_iff {pm : Memory} {call : Request} :
    (∃ next, request table pm call = some next) ↔ table.Ends pm call.name.bytes := by
  unfold request get Ends
  by_cases long : call.name.bytes.length > table.maxStringidLen
  · rw [if_pos long]
    exact iff_of_true ⟨pm, rfl⟩ fun short => absurd short (Nat.not_le.mpr long)
  · have short := Nat.not_lt.mp long
    rw [if_neg long]
    constructor
    · intro ends _
      by_contra endless
      have none := search_eq_none call.name.noNul short endless (2 ^ table.numHashBits) 0
      rw [probe] at none
      obtain ⟨next, stepped⟩ := ends
      rw [none] at stepped
      cases stepped
    · intro hasEnd
      obtain ⟨⟨found, hash⟩, searched⟩ :=
        Option.isSome_iff_exists.mp (search_ends call.name.noNul short (hasEnd short))
      rw [searched]
      cases found <;> cases call.add <;> simp

/-- All calls of a run end, each after at most as many steps as there are slots, exactly if for
each of them there is a slot that is free or has a string that starts with the name. -/
theorem calls_end_iff (table : StringTable) (calls : List Request) :
    (∀ before, before <+: calls →
        ∃ pm, run (request table) (fun _ => 0) before = some pm) ↔
      MeetsAlong (request table) (fun pm call => table.Ends pm call.name.bytes) (fun _ => 0)
        calls := by
  have rule : (∀ before, before <+: calls →
      ∃ pm, run (request table) (fun _ => 0) before = some pm ∧ True) ↔
      MeetsAlong (request table) (fun pm call => table.Ends pm call.name.bytes) (fun _ => 0)
        calls := by
    apply forall_prefix_iff_meetsAlong (fun _ _ => True) (fun _ _ => True)
    · exact fun _ _ _ => trivial
    · intro _ pm call _ ends
      obtain ⟨next, stepped⟩ := request_isSome_iff.mpr ends
      exact ⟨next, stepped, trivial⟩
    · exact fun _ pm call next _ stepped _ => request_isSome_iff.mp ⟨next, stepped⟩
    · exact []
    · trivial
  simpa using rule

/-- A table of 4096 bytes for strings of up to 4096 bytes. -/
def oneSlot : StringTable :=
  ⟨12, 0, by decide, by decide⟩

def stored : CString :=
  ⟨[97], by decide⟩

def absent : CString :=
  ⟨[98], by decide⟩

/-- With its only slot in use, the table looks for another name for ever. -/
theorem full_table_loops : ∃ pm,
    run (request oneSlot) (fun _ => 0) [⟨stored, true⟩] = some pm ∧
      ∀ left, search oneSlot pm absent.bytes left (oneSlot.hashFnv1a absent.bytes) = none := by
  have full : (run (request oneSlot) (fun _ => 0) [⟨stored, true⟩]).map
      (fun pm => decide (oneSlot.HasEnd pm absent.bytes)) = some false := by
    decide
  obtain ⟨pm, reaches, endless⟩ := Option.map_eq_some_iff.mp full
  exact ⟨pm, reaches, fun left =>
    search_eq_none absent.noNul (by decide) (of_decide_eq_false endless) left 0⟩

/-! ## The id 0 -/

/-- A name that is not empty. -/
structure NonemptyName extends CString where
  nonempty : bytes ≠ []

/-- The table, and the ids that calls of `get` with `add` have returned. -/
structure Adds where
  pm : Memory
  ids : List Nat

/-- A new table. -/
def blank : Adds :=
  ⟨fun _ => 0, []⟩

/-- A call of `get` with `add`; one that throws leaves the table as it is. -/
def addName (table : StringTable) (adds : Adds) (name : NonemptyName) : Option Adds :=
  match table.get adds.pm name.bytes true with
  | .error _ => some adds
  | .ok outcome => outcome.map fun (_, id, pm) => ⟨pm, adds.ids ++ [id]⟩

/-- The loop for the name comes to slot 0 and ends there: it starts there or gets past all slots
behind its start. -/
def ComesToZero (table : StringTable) (pm : Memory) (name : List UInt8) : Prop :=
  name.length ≤ table.maxStringidLen ∧ table.EndsAt pm name 0 ∧
    (table.hashFnv1a name = 0 ∨ ∀ hash < 2 ^ table.numHashBits, table.hashFnv1a name ≤ hash →
      ¬ table.EndsAt pm name hash)

instance (table : StringTable) (pm : Memory) (name : List UInt8) :
    Decidable (table.ComesToZero pm name) :=
  inferInstanceAs (Decidable (_ ∧ _ ∧ (_ ∨ _)))

/-- Where the loop ends, and in front of which slots. -/
theorem search_eq_zero_iff (noNul : 0 ∉ name) (short : name.length ≤ table.maxStringidLen)
    {found : Bool} {hash : Nat}
    (searched : search table pm name (2 ^ table.numHashBits) (table.hashFnv1a name) =
      some (found, hash)) :
    hash = 0 ↔ table.ComesToZero pm name := by
  obtain ⟨last, ⟨ends, before⟩, isHash, -⟩ := search_spec (k := 0) noNul short
    (fun i impossible => absurd impossible i.not_lt_zero) searched
  have bound := table.probe_lt name 0
  rw [probe] at bound
  have chain (i : Nat) (inTable : table.hashFnv1a name + i < 2 ^ table.numHashBits) :
      table.probe name i = table.hashFnv1a name + i := by
    rw [probe_eq, Nat.mod_eq_of_lt inTable]
  have around : table.probe name (2 ^ table.numHashBits - table.hashFnv1a name) = 0 := by
    rw [probe_eq, Nat.add_sub_cancel' bound.le, Nat.mod_self]
  constructor
  · intro isZero
    refine ⟨short, ?_, or_iff_not_imp_left.mpr fun notZero other inTable behind => ?_⟩
    · rw [← isZero, isHash]
      exact ends
    · have reached : 2 ^ table.numHashBits ≤ table.hashFnv1a name + last := by
        by_contra inFront
        rw [chain last (Nat.not_le.mp inFront)] at isHash
        omega
      have isOther := chain (other - table.hashFnv1a name) (by omega)
      rw [Nat.add_sub_cancel' behind] at isOther
      rw [← isOther]
      exact before _ (by omega)
  · rintro ⟨-, endsAtZero, startsAtZero | passes⟩
    · have notLater : ¬ 0 < last := fun later =>
        before 0 later (by rw [Stops, probe, startsAtZero]; exact endsAtZero)
      rw [isHash, Nat.eq_zero_of_not_pos notLater, probe, startsAtZero]
    · have notLater : ¬ 2 ^ table.numHashBits - table.hashFnv1a name < last := fun later =>
        before _ later (by rw [Stops, around]; exact endsAtZero)
      have notBefore : ¬ last < 2 ^ table.numHashBits - table.hashFnv1a name := by
        intro inFront
        have isLast := chain last (by omega)
        apply passes (table.hashFnv1a name + last) (by omega) (Nat.le_add_right _ _)
        rw [← isLast]
        exact ends
      have isLast : last = 2 ^ table.numHashBits - table.hashFnv1a name := by omega
      rw [isHash, isLast, around]

/-- A call throws, or it returns the slot where the loop ends, or the loop does not end. -/
theorem addName_cases (table : StringTable) (adds : Adds) (name : NonemptyName) :
    table.maxStringidLen < name.bytes.length ∧ addName table adds name = some adds ∨
      name.bytes.length ≤ table.maxStringidLen ∧
        ((∃ found hash pm, search table adds.pm name.bytes (2 ^ table.numHashBits)
            (table.hashFnv1a name.bytes) = some (found, hash) ∧
            addName table adds name = some ⟨pm, adds.ids ++ [hash]⟩) ∨
          ¬ table.HasEnd adds.pm name.bytes ∧ addName table adds name = none) := by
  rw [addName, get]
  by_cases long : name.bytes.length > table.maxStringidLen
  · left
    rw [if_pos long]
    exact ⟨long, rfl⟩
  · right
    have short := Nat.not_lt.mp long
    refine ⟨short, ?_⟩
    rw [if_neg long]
    cases searched : search table adds.pm name.bytes (2 ^ table.numHashBits)
        (table.hashFnv1a name.bytes) with
    | none =>
        right
        refine ⟨fun hasEnd => ?_, rfl⟩
        have ends := search_ends name.noNul short hasEnd
        rw [searched] at ends
        cases ends
    | some result =>
        left
        obtain ⟨found, hash⟩ := result
        cases found with
        | false => exact ⟨false, hash, _, rfl, rfl⟩
        | true => exact ⟨true, hash, _, rfl, rfl⟩

/-- What a call does to the ids. -/
theorem addName_ids {adds next : Adds} {name : NonemptyName} (noZero : 0 ∉ adds.ids)
    (added : addName table adds name = some next) :
    0 ∉ next.ids ↔ ¬ table.ComesToZero adds.pm name.bytes := by
  obtain ⟨long, unchanged⟩ | ⟨short, ⟨found, hash, pm, searched, isNext⟩ | ⟨-, loops⟩⟩ :=
    addName_cases table adds name
  · obtain rfl := Option.some.inj (unchanged.symm.trans added)
    exact iff_of_true noZero fun comesToZero => absurd comesToZero.1 (Nat.not_le.mpr long)
  · obtain rfl := Option.some.inj (isNext.symm.trans added)
    rw [← search_eq_zero_iff name.noNul short searched, List.mem_append, List.mem_singleton]
    exact not_congr ((or_iff_right noZero).trans eq_comm)
  · cases loops.symm.trans added

theorem addName_none {adds : Adds} {name : NonemptyName} (loops : addName table adds name = none) :
    ¬ table.ComesToZero adds.pm name.bytes := by
  obtain ⟨-, unchanged⟩ | ⟨-, ⟨_, _, _, -, isNext⟩ | ⟨endless, -⟩⟩ := addName_cases table adds name
  · cases unchanged.symm.trans loops
  · cases isNext.symm.trans loops
  · exact fun comesToZero => endless ⟨0, Nat.two_pow_pos _, comesToZero.2.1⟩

/-- No call of a run returns the id 0 exactly if the loop of none of them comes to slot 0. -/
theorem noZeroId_iff (table : StringTable) (names : List NonemptyName) :
    (∀ before, before <+: names → ∀ last,
        run (addName table) blank before = some last → 0 ∉ last.ids) ↔
      MeetsAlong (addName table) (fun adds name => ¬ table.ComesToZero adds.pm name.bytes) blank
        names := by
  refine forall_last_iff_meetsAlong (fun adds : Adds => 0 ∉ adds.ids) ?_ ?_ ?_ names
  · exact fun adds name next noZero added => addName_ids noZero added
  · exact fun adds name _ loops => addName_none loops
  · exact List.not_mem_nil

/-- A name that the default configuration stores in slot 0. -/
def gf : NonemptyName :=
  ⟨⟨[103, 102], by decide⟩, by decide⟩

/-- The only name gets the id that stands for no name. -/
theorem gf_receives_zero : ∃ last, run (addName defaultTable) blank [gf] = some last ∧
    0 ∈ last.ids := by
  have ids : (run (addName defaultTable) blank [gf]).map Adds.ids = some [0] := by
    decide
  obtain ⟨last, reaches, isIds⟩ := Option.map_eq_some_iff.mp ids
  exact ⟨last, reaches, isIds ▸ List.mem_singleton_self 0⟩

end Pmgd.StringTable
