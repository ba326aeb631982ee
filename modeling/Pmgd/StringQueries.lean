import Pmgd.IndexRanges
import Pmgd.StringKeys
import Pmgd.NotEqualIteration

/-!
# Queries with and without an index

With an index a query reads what the iterator of the predicate yields, and without one it asks the
filter about all objects.  The keys of strings are transformed for the collation order of a locale,
while the filter compares the strings themselves.  The iterators copy the bounds of a query, and a
copy of a long key is in PM: for it the transaction of the query has to write.
-/

namespace Pmgd

open SortedInsert TreeNode
open StringKeys (Bytes IndexString prefixLen)

variable {K O : Type*}

/-! ## Predicates and filters -/

namespace PropertyPredicate

/-- A predicate with its values changed. -/
def map {V : Type*} (change : V → K) : PropertyPredicate V → PropertyPredicate K
  | dontCare => dontCare
  | eq v1 => eq (change v1)
  | ne v1 => ne (change v1)
  | bound op v1 => bound op (change v1)
  | range op v1 v2 => range op (change v1) (change v2)

variable [LinearOrder K]

/-- `PropertyFilter::operator()` for an object that has the property, or not. -/
def passes (predicate : PropertyPredicate K) (property : Option K) : Bool :=
  match property with
  | none => false
  | some val => predicate.compares val

omit [LinearOrder K] in
theorem start_map {V : Type*} (change : V → K) (predicate : PropertyPredicate V)
    (reverse : Bool) :
    (predicate.map change).start reverse = (predicate.start reverse).map change := by
  cases predicate with
  | range op v1 v2 =>
      cases reverse with
      | false => simp only [map, start]; split_ifs <;> rfl
      | true => simp only [map, start]; split_ifs <;> rfl
  | dontCare => cases reverse <;> rfl
  | eq v1 => cases reverse <;> rfl
  | ne v1 => cases reverse <;> rfl
  | bound op v1 => cases reverse <;> rfl

/-- All comparisons are made from `<`. -/
theorem compares_map {V : Type*} [LinearOrder V] {change : V → K}
    (same : ∀ val other, change val < change other ↔ val < other) (predicate : PropertyPredicate V)
    (val : V) : (predicate.map change).compares (change val) = predicate.compares val := by
  cases predicate with
  | dontCare => rfl
  | eq v1 => simp only [map, compares, same]
  | ne v1 => simp only [map, compares, same]
  | bound op v1 => cases op <;> simp only [map, compares, boundFilter, same]
  | range op v1 v2 => cases op <;> simp only [map, compares, propertyFilter, same]

end PropertyPredicate

/-! ## Strings of a locale -/

/-- `std::collate::transform` of a locale, and transformed strings that `IndexString::compare`
orders by their bytes. -/
structure Collation where
  transform : Bytes → Bytes
  keys : Set IndexString
  agrees : ∀ key ∈ keys, ∀ istr ∈ keys, IndexString.Agrees key istr

namespace Collation

/-- The strings of less than 2 GiB are such. -/
def short (transform : Bytes → Bytes) : Collation where
  transform := transform
  keys := {key | key.transformed.length < 2 ^ 31}
  agrees _ isShort _ otherShort := {
    less := IndexString.compare_neg_iff isShort otherShort
    equal := IndexString.compare_eq_zero_iff isShort otherShort
    greater := IndexString.compare_pos_iff isShort otherShort }

/-- A string with such a key. -/
structure Str (collation : Collation) where
  bytes : Bytes
  isKey : ⟨collation.transform bytes⟩ ∈ collation.keys

structure Key (collation : Collation) where
  istr : IndexString
  isKey : istr ∈ collation.keys

variable {collation : Collation}

/-- `std::string` compares the bytes. -/
instance : LinearOrder collation.Str :=
  LinearOrder.lift' Str.bytes fun first second same => by
    cases first
    cases second
    cases same
    rfl

theorem compare_lt_iff {key other : collation.Key} :
    key.istr.compare other.istr < 0 ↔ key.istr < other.istr :=
  (collation.agrees _ key.isKey _ other.isKey).less

theorem compare_le_iff {key other : collation.Key} :
    key.istr.compare other.istr ≤ 0 ↔ key.istr ≤ other.istr := by
  rw [← not_lt, ← not_lt]
  exact (collation.agrees _ key.isKey _ other.isKey).greater.not

theorem compare_eq_iff {key other : collation.Key} :
    key.istr.compare other.istr = 0 ↔ key = other := by
  rw [(collation.agrees _ key.isKey _ other.isKey).equal]
  cases key
  cases other
  rw [Key.mk.injEq]

/-- The comparison of an index. -/
instance : LinearOrder collation.Key where
  le key other := key.istr.compare other.istr ≤ 0
  lt key other := key.istr.compare other.istr < 0
  le_refl key := compare_le_iff.mpr le_rfl
  le_trans first second third before after :=
    compare_le_iff.mpr ((compare_le_iff.mp before).trans (compare_le_iff.mp after))
  lt_iff_le_not_ge key other := by
    rw [compare_lt_iff, compare_le_iff, compare_le_iff, lt_iff_le_not_ge]
  le_antisymm key other before after := by
    apply compare_eq_iff.mp
    rw [(collation.agrees _ key.isKey _ other.isKey).equal]
    exact le_antisymm (compare_le_iff.mp before) (compare_le_iff.mp after)
  le_total key other := by
    rw [compare_le_iff, compare_le_iff]
    exact le_total key.istr other.istr
  toDecidableLE key other := inferInstanceAs (Decidable (key.istr.compare other.istr ≤ 0))
  toDecidableLT key other := inferInstanceAs (Decidable (key.istr.compare other.istr < 0))
  toDecidableEq key other := decidable_of_iff _ compare_eq_iff

end Collation

/-- `TransientIndexString`. -/
def transientIndexString (collation : Collation) (str : collation.Str) : collation.Key :=
  ⟨⟨collation.transform str.bytes⟩, str.isKey⟩

/-! ## Copies of keys -/

/-- Why the allocator does not hand out a block. -/
inductive AllocException
  | readOnly
  | badAlloc
  | outOfJournalSpace
  | lockTimeout
  deriving DecidableEq, Repr

/-- The transaction of a query. -/
structure QueryTransaction where
  isReadWrite : Bool
  /-- What the allocator throws at the last one of these requests. -/
  refuses : List Nat → Option AllocException

namespace QueryTransaction

/-- `Allocator::alloc`, after other requests.  Whichever way it goes, it logs what it changes, and
the log of a transaction that only reads throws. -/
def alloc (tx : QueryTransaction) (requests : List Nat) (size : Nat) :
    Except AllocException (List Nat) :=
  let requests := requests ++ [size]
  match tx.refuses requests with
  | some exception => .error exception
  | none => if tx.isReadWrite then .ok requests else .error .readOnly

/-- The constructor `IndexString` of a copy: `_remainder` is in PM. -/
def copyKey (tx : QueryTransaction) (requests : List Nat) (key : IndexString) :
    Except AllocException (List Nat) :=
  if key.len > prefixLen then tx.alloc requests (key.len - prefixLen) else .ok requests

/-- `get_remainder_size` of the long keys. -/
def remainderSizes (keys : List IndexString) : List Nat :=
  (keys.filter fun key => key.len > prefixLen).map fun key => key.len - prefixLen

/-- The allocator hands out these blocks one after another. -/
def Grants (tx : QueryTransaction) (before requests : List Nat) : Prop :=
  requests ≠ [] → tx.isReadWrite = true ∧
    ∀ first, first <+: requests → first ≠ [] → tx.refuses (before ++ first) = none

theorem grants_cons {tx : QueryTransaction} {before requests : List Nat} {size : Nat} :
    tx.Grants before (size :: requests) ↔
      tx.isReadWrite = true ∧ tx.refuses (before ++ [size]) = none ∧
        tx.Grants (before ++ [size]) requests := by
  constructor
  · intro granted
    obtain ⟨isReadWrite, all⟩ := granted (List.cons_ne_nil size requests)
    refine ⟨isReadWrite, all [size] (List.prefix_append [size] requests) (List.cons_ne_nil _ _),
      fun _ => ⟨isReadWrite, fun first isPrefix _ => ?_⟩⟩
    have both := all (size :: first) ((List.prefix_cons_inj size).mpr isPrefix)
      (List.cons_ne_nil _ _)
    rwa [List.append_cons] at both
  · rintro ⟨isReadWrite, isNone, granted⟩ -
    refine ⟨isReadWrite, fun first isPrefix nonempty => ?_⟩
    obtain ⟨other, rest, rfl⟩ := List.exists_cons_of_ne_nil nonempty
    obtain ⟨rfl, isRest⟩ := List.cons_prefix_cons.mp isPrefix
    by_cases isLast : rest = []
    · rw [isLast]
      exact isNone
    · rw [List.append_cons]
      exact (granted (List.ne_nil_of_length_pos
        ((List.length_pos_iff.mpr isLast).trans_le isRest.length_le))).2 rest isRest isLast

/-- One copy after another. -/
theorem copyKeys_iff (tx : QueryTransaction) (keys : List IndexString) (before : List Nat) :
    (∃ requests, keys.foldlM tx.copyKey before = .ok requests) ↔
      tx.Grants before (remainderSizes keys) := by
  induction keys generalizing before with
  | nil => exact iff_of_true ⟨before, rfl⟩ fun nonempty => absurd rfl nonempty
  | cons key keys ih =>
      rw [List.foldlM_cons, copyKey]
      by_cases isLong : key.len > prefixLen
      · rw [if_pos isLong, alloc, remainderSizes, List.filter_cons_of_pos (by simpa using isLong),
          List.map_cons, grants_cons]
        cases tx.refuses (before ++ [key.len - prefixLen]) with
        | some exception =>
            apply iff_of_false
            · rintro ⟨requests, failed⟩
              cases failed
            · rintro ⟨-, isNone, -⟩
              cases isNone
        | none =>
            cases tx.isReadWrite with
            | false =>
                apply iff_of_false
                · rintro ⟨requests, failed⟩
                  cases failed
                · rintro ⟨isReadWrite, -⟩
                  cases isReadWrite
            | true =>
                rw [and_iff_right rfl, and_iff_right rfl]
                exact ih _
      · rw [if_neg isLong, remainderSizes, List.filter_cons_of_neg (by simpa using isLong)]
        exact ih before

end QueryTransaction

/-- What the constructors of the iterators copy: `_neq` once, and a bound into the argument and the
member of a `Compare`, the one of the last elements first. -/
def PropertyPredicate.copied {collation : Collation} (pp : PropertyPredicate collation.Key)
    (reverse : Bool) : List IndexString :=
  match pp, reverse with
  | dontCare, _ => []
  | eq _, _ => []
  | ne v1, _ => [v1.istr]
  | bound _ v1, _ => [v1.istr, v1.istr]
  | range _ v1 v2, false => [v2.istr, v2.istr, v1.istr, v1.istr]
  | range _ v1 v2, true => [v1.istr, v1.istr, v2.istr, v2.istr]

/-! ## Indices of strings -/

/-- The objects of a tag and the index of a string property of them. -/
structure StringIndex (collation : Collation) (O : Type*) where
  objects : List O
  property : O → Option collation.Str
  index : PlacedIndex collation.Key O
  tracked : ∀ object key,
    (∃ entry ∈ index.tree.entries, entry.key = key ∧ object ∈ entry.value.map ListNode.value) ↔
      object ∈ objects ∧ (property object).map (transientIndexString collation) = some key

namespace StringIndex

variable {collation : Collation}

/-- The iterator of a predicate. -/
def cursor (data : StringIndex collation O) (pp : PropertyPredicate collation.Str)
    (reverse : Bool) : IndexCursor collation.Key :=
  IndexCursor.getIterator data.index.tree (pp.map (transientIndexString collation)) reverse

/-- `Graph::get_nodes` with the index. -/
def getIterator (data : StringIndex collation O) (tx : QueryTransaction)
    (pp : PropertyPredicate collation.Str) (reverse : Bool) :
    Except AllocException (IndexCursor collation.Key) := do
  discard (((pp.map (transientIndexString collation)).copied reverse).foldlM tx.copyKey [])
  return data.cursor pp reverse

/-- An iterator yields the objects that the filter passes. -/
def YieldsPassed (data : StringIndex collation O) (pp : PropertyPredicate collation.Str)
    (cursor : IndexCursor collation.Key) : Prop :=
  ∃ elements, cursor.Yields data.index.tree elements ∧
    ∀ object, object ∈ elements.map ListNode.value ↔
      object ∈ data.objects ∧ pp.passes (data.property object) = true

/-- The query with the index has the answer of the filter. -/
def Agrees (data : StringIndex collation O) (tx : QueryTransaction)
    (pp : PropertyPredicate collation.Str) (reverse : Bool) : Prop :=
  ∃ cursor, data.getIterator tx pp reverse = .ok cursor ∧ data.YieldsPassed pp cursor

/-- The byte order and the collation order give the same answer about each string, where the order
of the collation counts an inclusive bound that the iterator starts at as inside. -/
def SameAnswers (data : StringIndex collation O) (pp : PropertyPredicate collation.Str)
    (reverse : Bool) : Prop :=
  ∀ object ∈ data.objects, ∀ str ∈ data.property object,
    let key := transientIndexString collation str
    let collated := pp.map (transientIndexString collation)
    pp.compares str = (collated.compares key || decide (collated.start reverse = some key))

/-- The allocator hands out what the iterator copies. -/
def CopiesGranted (tx : QueryTransaction) (pp : PropertyPredicate collation.Str) (reverse : Bool) :
    Prop :=
  tx.Grants [] (QueryTransaction.remainderSizes
    ((pp.map (transientIndexString collation)).copied reverse))

theorem agrees_iff_copiesGranted_and (data : StringIndex collation O) (tx : QueryTransaction)
    (pp : PropertyPredicate collation.Str) (reverse : Bool) :
    data.Agrees tx pp reverse ↔
      CopiesGranted tx pp reverse ∧ data.YieldsPassed pp (data.cursor pp reverse) := by
  rw [CopiesGranted, ← tx.copyKeys_iff, Agrees, getIterator]
  cases ((pp.map (transientIndexString collation)).copied reverse).foldlM tx.copyKey [] with
  | error exception =>
      apply iff_of_false
      · rintro ⟨cursor, failed, -⟩
        cases failed
      · rintro ⟨⟨requests, failed⟩, -⟩
        cases failed
  | ok requests =>
      constructor
      · rintro ⟨cursor, isCursor, same⟩
        cases isCursor
        exact ⟨⟨requests, rfl⟩, same⟩
      · rintro ⟨-, same⟩
        exact ⟨_, rfl, same⟩

def wayOf (reverse : Bool) : Way :=
  if reverse then .reverse else .forward

/-- The objects of the entries that pass a test. -/
theorem mem_filter_iff (data : StringIndex collation O) (way : Way) (test : collation.Key → Bool)
    (object : O) :
    object ∈ (((way.along data.index.tree).filter fun entry => test entry.key).flatMap
        TreeEntry.value).map ListNode.value ↔
      object ∈ data.objects ∧ ∃ str ∈ data.property object,
        test (transientIndexString collation str) = true := by
  simp only [List.mem_map, List.mem_flatMap, List.mem_filter, way.mem_along]
  constructor
  · rintro ⟨element, ⟨entry, ⟨member, passed⟩, isElement⟩, rfl⟩
    obtain ⟨isObject, isKey⟩ := (data.tracked element.value entry.key).mp
      ⟨entry, member, rfl, List.mem_map_of_mem isElement⟩
    obtain ⟨str, isStr, isTransformed⟩ := Option.map_eq_some_iff.mp isKey
    exact ⟨isObject, str, isStr, isTransformed ▸ passed⟩
  · rintro ⟨isObject, str, isStr, passed⟩
    have isKey : (data.property object).map (transientIndexString collation) =
        some (transientIndexString collation str) := by
      rw [Option.mem_def.mp isStr, Option.map_some]
    obtain ⟨entry, member, sameKey, inList⟩ := (data.tracked object _).mpr ⟨isObject, isKey⟩
    obtain ⟨element, isElement, rfl⟩ := List.mem_map.mp inList
    exact ⟨element, ⟨entry, ⟨member, sameKey ▸ passed⟩, isElement⟩, rfl⟩

/-- An iterator that reads the entries that pass a test. -/
theorem agrees_iff_of_yields (data : StringIndex collation O) {pp : PropertyPredicate collation.Str}
    {reverse : Bool} (way : Way) (test : collation.Key → Bool)
    (yields : (data.cursor pp reverse).Yields data.index.tree
      (((way.along data.index.tree).filter fun entry => test entry.key).flatMap
        TreeEntry.value)) :
    data.YieldsPassed pp (data.cursor pp reverse) ↔ ∀ object ∈ data.objects, ∀ str ∈ data.property object,
      pp.compares str = test (transientIndexString collation str) := by
  have passesIff (object : O) : pp.passes (data.property object) = true ↔
      ∃ str ∈ data.property object, pp.compares str = true := by
    cases data.property object with
    | none => simp [PropertyPredicate.passes]
    | some str => simp [PropertyPredicate.passes]
  constructor
  · rintro ⟨elements, isElements, agrees⟩ object isObject str isStr
    obtain rfl := yields.unique isElements
    have isOne (answer : collation.Str → Bool) :
        (∃ str ∈ data.property object, answer str = true) ↔ answer str = true := by
      constructor
      · rintro ⟨other, isOther, answered⟩
        exact Option.mem_unique isStr isOther ▸ answered
      · exact fun answered => ⟨str, isStr, answered⟩
    have same := agrees object
    rw [data.mem_filter_iff, passesIff, and_congr_right_iff] at same
    have answers := same isObject
    rw [isOne fun str => test (transientIndexString collation str), isOne pp.compares] at answers
    exact Bool.eq_iff_iff.mpr answers.symm
  · intro same
    refine ⟨_, yields, fun object => ?_⟩
    rw [data.mem_filter_iff, passesIff]
    apply and_congr_right
    intro isObject
    constructor
    · rintro ⟨str, isStr, passed⟩
      exact ⟨str, isStr, (same object isObject str isStr).trans passed⟩
    · rintro ⟨str, isStr, passed⟩
      exact ⟨str, isStr, (same object isObject str isStr).symm.trans passed⟩

/-- An iterator with `Ne` that misses something does not agree. -/
theorem complete_of_agrees (data : StringIndex collation O) {v1 : collation.Str} {reverse : Bool}
    (agrees : data.YieldsPassed (.ne v1) (data.cursor (.ne v1) reverse)) :
    NeqComplete (wayOf reverse) (transientIndexString collation v1) data.index.tree := by
  have ordered := data.index.isPlaced.index.1
  obtain ⟨elements, yields, agrees⟩ := agrees
  have isWay : decide (wayOf reverse = .reverse) = reverse := by cases reverse <;> rfl
  have isYields := getIterator_ne_yields data.index (transientIndexString collation v1)
    (wayOf reverse)
  rw [isWay] at isYields
  obtain rfl := isYields.unique yields
  rw [← neqMissed_eq_nil_iff ordered, List.eq_nil_iff_forall_not_mem]
  intro entry missed
  have perm := neqReads_perm (wayOf reverse) (transientIndexString collation v1) ordered
  have inFilter := perm.mem_iff.mpr (List.mem_append_right _ missed)
  obtain ⟨inAlong, isOther⟩ := List.mem_filter.mp inFilter
  have member := ((wayOf reverse).mem_along).mp inAlong
  obtain ⟨element, isElement⟩ :=
    List.exists_mem_of_ne_nil _ (data.index.isPlaced.index.2 entry member)
  obtain ⟨isObject, isKey⟩ := (data.tracked element.value entry.key).mp
    ⟨entry, member, rfl, List.mem_map_of_mem isElement⟩
  obtain ⟨str, isStr, isTransformed⟩ := Option.map_eq_some_iff.mp isKey
  have different : str ≠ v1 := by
    rintro rfl
    simp [← isTransformed] at isOther
  have passed : (PropertyPredicate.ne v1).passes (data.property element.value) = true := by
    rw [isStr]
    refine (PropertyPredicate.compares_ne v1 str).trans ?_
    simpa using different
  -- the object is read, but from another entry
  obtain ⟨other, isRead, isValue⟩ := List.mem_map.mp ((agrees element.value).mpr ⟨isObject, passed⟩)
  obtain ⟨source, inReads, inSource⟩ := List.mem_flatMap.mp isRead
  have sourceMember := mem_of_mem_neqReads ordered inReads
  have sourceKey := ((data.tracked element.value source.key).mp
    ⟨source, sourceMember, rfl, isValue ▸ List.mem_map_of_mem inSource⟩).2
  have same : source = entry := SortedBy.eq_of_key_eq ordered sourceMember member
    (Option.some.inj (sourceKey.symm.trans isKey))
  have alongNodup : ((wayOf reverse).along data.index.tree).Nodup := by
    cases reverse with
    | false => exact SortedBy.nodup ordered
    | true => exact List.nodup_reverse.mpr (SortedBy.nodup ordered)
  have nodup := (perm.nodup_iff).mp (alongNodup.filter _)
  exact (List.nodup_append'.mp nodup).2.2 (same ▸ inReads) missed

theorem yieldsPassed_iff_sameAnswers_and (data : StringIndex collation O) (pp : PropertyPredicate collation.Str)
    (reverse : Bool) :
    data.YieldsPassed pp (data.cursor pp reverse) ↔
      data.SameAnswers pp reverse ∧
        ∀ v1, pp = .ne v1 →
          NeqComplete (wayOf reverse) (transientIndexString collation v1) data.index.tree := by
  have sameAnswers : data.SameAnswers pp reverse ↔
      ∀ object ∈ data.objects, ∀ str ∈ data.property object,
        pp.compares str =
          ((pp.map (transientIndexString collation)).compares (transientIndexString collation str) ||
            decide ((pp.map (transientIndexString collation)).start reverse =
              some (transientIndexString collation str))) := Iff.rfl
  rw [sameAnswers]
  cases ofRange : (pp.map (transientIndexString collation)).bounds reverse with
  | some limits =>
      obtain ⟨limits, near⟩ := limits
      have notNe (v1 : collation.Str) (isNe : pp = .ne v1) : NeqComplete (wayOf reverse)
          (transientIndexString collation v1) data.index.tree := by
        subst isNe
        cases ofRange
      rw [and_iff_left notNe, data.agrees_iff_of_yields limits.way
        (limits.reads near) (getIterator_yields_reads data.index ofRange)]
      simp only [PropertyPredicate.reads_eq ofRange]
  | none =>
      cases pp with
      | eq v1 =>
          have noStart : (PropertyPredicate.eq (transientIndexString collation v1)).start reverse =
              none := by cases reverse <;> rfl
          have agrees : data.YieldsPassed (.eq v1) (data.cursor (.eq v1) reverse) ↔ _ :=
            data.agrees_iff_of_yields .forward
              (fun key => decide (key = transientIndexString collation v1))
              (getIterator_yields_eq data.index (transientIndexString collation v1) reverse)
          rw [agrees, and_iff_left (by simp)]
          simp only [PropertyPredicate.map, PropertyPredicate.compares_eq, noStart,
            reduceCtorEq, decide_false, Bool.or_false]
      | ne v1 =>
          have noStart : (PropertyPredicate.ne (transientIndexString collation v1)).start reverse =
              none := by cases reverse <;> rfl
          have isWay : decide (wayOf reverse = .reverse) = reverse := by cases reverse <;> rfl
          have isYields := getIterator_ne_yields data.index (transientIndexString collation v1)
            (wayOf reverse)
          rw [isWay] at isYields
          have ordered := data.index.isPlaced.index.1
          have ofComplete (complete : NeqComplete (wayOf reverse)
              (transientIndexString collation v1) data.index.tree) :
              data.YieldsPassed (.ne v1) (data.cursor (.ne v1) reverse) ↔ ∀ object ∈ data.objects,
                ∀ str ∈ data.property object, (PropertyPredicate.ne v1).compares str =
                  decide (transientIndexString collation str ≠ transientIndexString collation v1) := by
            rw [(neqReads_eq_iff ordered).mpr complete] at isYields
            exact data.agrees_iff_of_yields (wayOf reverse)
              (fun key => decide (key ≠ transientIndexString collation v1)) isYields
          simp only [PropertyPredicate.map, noStart, reduceCtorEq, decide_false, Bool.or_false]
          simp only [PropertyPredicate.compares_ne] at ofComplete ⊢
          constructor
          · intro agrees
            have complete := data.complete_of_agrees agrees
            refine ⟨(ofComplete complete).mp agrees, fun other same => ?_⟩
            cases same
            exact complete
          · rintro ⟨same, complete⟩
            exact (ofComplete (complete v1 rfl)).mpr same
      | dontCare => cases reverse <;> cases ofRange
      | bound op v1 => cases op <;> cases reverse <;> cases ofRange
      | range op v1 v2 => cases reverse <;> cases ofRange

theorem agrees_iff_conditions (data : StringIndex collation O) (tx : QueryTransaction)
    (pp : PropertyPredicate collation.Str) (reverse : Bool) :
    data.Agrees tx pp reverse ↔
      CopiesGranted tx pp reverse ∧ data.SameAnswers pp reverse ∧
        ∀ v1, pp = .ne v1 →
          NeqComplete (wayOf reverse) (transientIndexString collation v1) data.index.tree := by
  rw [agrees_iff_copiesGranted_and, yieldsPassed_iff_sameAnswers_and]

/-- One object. -/
def single (collation : Collation) (str : collation.Str) : StringIndex collation Nat where
  objects := [0]
  property object := if object = 0 then some str else none
  index := {
    tree := node 1 null null 0 (transientIndexString collation str) [⟨2, 0⟩]
    isPlaced := ⟨by simp [IsIndex, Ordered, SortedBy], by simp, by simp⟩ }
  tracked object key := by
    by_cases isZero : object = 0
    · simp [isZero]
    · simp [isZero, Ne.symm isZero]

/-- The iterator with the index and the filter agree exactly when the allocator hands out what the
iterator copies, the byte order and the collation order give the same answer about each string and,
for `Ne`, the iterator leaves nothing out.  They agree for all sets of strings and all predicates,
apart from `Ne` and empty ranges, exactly if the collation order is the byte order. -/
theorem agrees_iff_sameAnswers (collation : Collation) :
    (∀ (data : StringIndex collation O) (tx : QueryTransaction)
        (pp : PropertyPredicate collation.Str) (reverse : Bool),
      data.Agrees tx pp reverse ↔
        CopiesGranted tx pp reverse ∧ data.SameAnswers pp reverse ∧
          ∀ v1, pp = .ne v1 →
            NeqComplete (wayOf reverse) (transientIndexString collation v1) data.index.tree) ∧
      ((∀ (data : StringIndex collation Nat) (tx : QueryTransaction)
          (pp : PropertyPredicate collation.Str) (reverse : Bool),
          CopiesGranted tx pp reverse → (∀ v1, pp ≠ .ne v1) →
          (∀ bound ∈ pp.start reverse, pp.compares bound = true) → data.Agrees tx pp reverse) ↔
        ∀ str other : collation.Str,
          transientIndexString collation str < transientIndexString collation other ↔
            str < other) := by
  refine ⟨agrees_iff_conditions, ?_, ?_⟩
  · intro agree str other
    -- a transaction that writes, and an allocator that hands out every block
    have agrees := agree (single collation str) ⟨true, fun _ => none⟩ (.bound .lt other) false
      (fun _ => ⟨rfl, fun _ _ _ => rfl⟩) (by simp) (by simp [PropertyPredicate.start])
    have answer := ((agrees_iff_conditions _ _ _ _).mp agrees).2.1 0
      List.mem_cons_self str rfl
    simp only [PropertyPredicate.compares, PropertyPredicate.map, PropertyPredicate.start,
      boundFilter, reduceCtorEq, decide_false, Bool.or_false] at answer
    exact (decide_eq_decide.mp answer).symm
  · intro same data tx pp reverse granted notNe nonempty
    rw [agrees_iff_conditions]
    refine ⟨granted, fun object _ str _ => ?_, fun v1 isNe => absurd isNe (notNe v1)⟩
    intro key collated
    rw [PropertyPredicate.compares_map same, PropertyPredicate.start_map]
    by_cases atStart : (pp.start reverse).map (transientIndexString collation) = some key
    · obtain ⟨bound, isBound, isKey⟩ := Option.map_eq_some_iff.mp atStart
      have isStr : bound = str := by
        rcases lt_trichotomy bound str with before | same' | after
        · exact absurd isKey ((same _ _).mpr before).ne
        · exact same'
        · exact absurd isKey ((same _ _).mpr after).ne'
      rw [← isStr, nonempty bound isBound, Bool.true_or]
    · rw [decide_eq_false atStart, Bool.or_false]

/-- A locale whose collation order does not distinguish letters from capital letters. -/
def lowerCase : Collation :=
  .short (List.map fun byte => if 65 ≤ byte ∧ byte ≤ 90 then byte + 32 else byte)

def letter (byte : Fin 256) : lowerCase.Str :=
  ⟨[byte], (by decide : 1 < 2 ^ 31)⟩

/-- For keys before `"B"` the index yields the object with the string `"a"`; the filter does not
pass it. -/
theorem lowerCase_disagrees :
    ((single lowerCase (letter 97)).cursor (.bound .lt (letter 66)) false).Yields
        (single lowerCase (letter 97)).index.tree [⟨2, 0⟩] ∧
      PropertyPredicate.passes (.bound .lt (letter 66))
        ((single lowerCase (letter 97)).property 0) = false ∧
      ∀ tx, ¬ (single lowerCase (letter 97)).Agrees tx (.bound .lt (letter 66)) false := by
  have yields : ((single lowerCase (letter 97)).cursor (.bound .lt (letter 66)) false).Yields
      (single lowerCase (letter 97)).index.tree [⟨2, 0⟩] := ⟨2, by decide⟩
  have fails : PropertyPredicate.passes (.bound .lt (letter 66))
      ((single lowerCase (letter 97)).property 0) = false := by decide
  refine ⟨yields, fails, fun tx agrees => ?_⟩
  obtain ⟨-, elements, isElements, same⟩ := (agrees_iff_copiesGranted_and _ tx _ _).mp agrees
  obtain rfl := yields.unique isElements
  have passed := ((same 0).mp List.mem_cons_self).2
  rw [fails] at passed
  cases passed

/-- A transaction that only reads has no answer to a query with a bound of more than 8 bytes. -/
example (bound : lowerCase.Str) (isBound : bound.bytes = List.replicate 9 98) :
    (single lowerCase (letter 97)).getIterator ⟨false, fun _ => none⟩ (.bound .lt bound) false =
      .error .readOnly := by
  cases bound
  cases isBound
  rfl

end StringIndex

end Pmgd
