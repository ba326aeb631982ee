import Mathlib.Data.BitVec
import Mathlib.Data.List.Nodup
import Mathlib.Data.Finset.Basic
import Mathlib.Tactic.Common

/-!
# Edge indexes

A node has an index of its outgoing and one of its incoming edges.  An index is a list of
buckets, one for each tag, and a bucket is a list of pairs of an edge and the node at its
other end.  Both lists have the newest element first, and a bucket whose last edge is removed
is removed itself.

The elements of the lists carry their addresses, by which an iterator refers to them; `next`
of an element is the one behind it in its list.
-/

namespace Pmgd

/-- An id of a tag. -/
abbrev Tag := BitVec 16

/-- An element of a list of `KeyValuePair<Edge *, Node *>`. -/
structure EdgePosition where
  address : Nat
  edge : Nat
  node : Nat
  deriving DecidableEq, Repr

/-- An element of a list of `EdgeIndexType`: a tag and the list of its edges. -/
structure KeyPosition where
  address : Nat
  key : Tag
  list : List EdgePosition
  deriving DecidableEq, Repr

namespace KeyPosition

/-- `List::remove` of an edge of the bucket. -/
def remove (key : KeyPosition) (edge : Nat) : KeyPosition :=
  { key with list := key.list.eraseP fun position => decide (position.edge = edge) }

def addresses (key : KeyPosition) : List Nat :=
  key.address :: key.list.map EdgePosition.address

end KeyPosition

abbrev EdgeIndex := List KeyPosition

namespace EdgeIndex

/-- Add an element to the bucket that `_key_list.find` gives. -/
def addToBucket (tag : Tag) (position : EdgePosition) : EdgeIndex → Option EdgeIndex
  | [] => none
  | key :: keys =>
      if key.key = tag then some ({ key with list := position :: key.list } :: keys)
      else (addToBucket tag position keys).map (key :: ·)

/-- `EdgeIndex::add`; a new bucket gets the given address. -/
def add (index : EdgeIndex) (tag : Tag) (position : EdgePosition) (keyAddress : Nat) :
    EdgeIndex :=
  (addToBucket tag position index).getD (⟨keyAddress, tag, [position]⟩ :: index)

/-- `_key_list.find`. -/
def find (index : EdgeIndex) (tag : Tag) : Option KeyPosition :=
  index.find? fun key => decide (key.key = tag)

/-- Remove an edge from the bucket that `_key_list.find` gives. -/
def removePair (tag : Tag) (edge : Nat) : EdgeIndex → EdgeIndex
  | [] => []
  | key :: keys =>
      if key.key = tag then key.remove edge :: keys else key :: removePair tag edge keys

/-- `_key_list.remove`. -/
def removeKey (index : EdgeIndex) (tag : Tag) : EdgeIndex :=
  index.eraseP fun key => decide (key.key = tag)

/-! ## What an index lists -/

/-- A listed edge with its tag and the node at its other end. -/
structure Entry where
  tag : Tag
  edge : Nat
  node : Nat
  deriving DecidableEq, Repr

def entryOf (tag : Tag) (position : EdgePosition) : Entry :=
  ⟨tag, position.edge, position.node⟩

def bucketEntries (key : KeyPosition) : List Entry :=
  key.list.map (entryOf key.key)

def entries (index : EdgeIndex) : List Entry :=
  index.flatMap bucketEntries

def addresses (index : EdgeIndex) : List Nat :=
  index.flatMap KeyPosition.addresses

/-- The tags differ, no bucket is empty, no edge is listed twice, and no two elements have the
same address. -/
structure WellFormed (index : EdgeIndex) : Prop where
  tags : (index.map KeyPosition.key).Nodup
  nonempty : ∀ key ∈ index, key.list ≠ []
  edges : (index.entries.map Entry.edge).Nodup
  addresses : index.addresses.Nodup

@[simp]
theorem entries_nil : entries [] = [] :=
  rfl

@[simp]
theorem entries_cons (key : KeyPosition) (keys : EdgeIndex) :
    entries (key :: keys) = bucketEntries key ++ entries keys :=
  List.flatMap_cons

@[simp]
theorem entries_append (first second : EdgeIndex) :
    entries (first ++ second) = entries first ++ entries second :=
  List.flatMap_append

@[simp]
theorem addresses_cons (key : KeyPosition) (keys : EdgeIndex) :
    addresses (key :: keys) = key.addresses ++ addresses keys :=
  List.flatMap_cons

@[simp]
theorem addresses_append (first second : EdgeIndex) :
    addresses (first ++ second) = addresses first ++ addresses second :=
  List.flatMap_append

theorem wellFormed_nil : WellFormed [] where
  tags := List.nodup_nil
  nonempty _ member := absurd member List.not_mem_nil
  edges := List.nodup_nil
  addresses := List.nodup_nil

/-! ## Finding buckets -/

variable {index : EdgeIndex} {tag : Tag} {edge node : Nat}

theorem mem_entries {entry : Entry} :
    entry ∈ index.entries ↔ ∃ key ∈ index, ∃ position ∈ key.list,
      entryOf key.key position = entry := by
  simp only [entries, bucketEntries, List.mem_flatMap, List.mem_map]

theorem length_le_entries (wellFormed : WellFormed index) :
    index.length ≤ index.entries.length := by
  have nonempty := wellFormed.nonempty
  clear wellFormed
  induction index with
  | nil => exact le_rfl
  | cons key keys ih =>
      have one := List.length_pos_iff.mpr (nonempty key List.mem_cons_self)
      have others := ih fun other member => nonempty other (List.mem_cons_of_mem key member)
      simp only [entries_cons, bucketEntries, List.length_append, List.length_cons,
        List.length_map]
      omega

theorem eq_nil_of_entries (wellFormed : WellFormed index) (isEmpty : index.entries = []) :
    index = [] :=
  List.eq_nil_of_length_eq_zero
    (Nat.le_zero.mp ((length_le_entries wellFormed).trans_eq (congrArg List.length isEmpty)))

/-- An index with a place in it: a bucket, the first one with its tag, and an element, the
first one with its edge. -/
structure Place (tag : Tag) (edge node : Nat) where
  before : EdgeIndex
  key : KeyPosition
  after : EdgeIndex
  first : List EdgePosition
  position : EdgePosition
  rest : List EdgePosition
  list_eq : key.list = first ++ position :: rest
  key_eq : key.key = tag
  edge_eq : position.edge = edge
  node_eq : position.node = node
  not_before : ∀ other ∈ before, other.key ≠ tag
  not_first : ∀ other ∈ first, other.edge ≠ edge

def Place.whole (place : Place tag edge node) : EdgeIndex :=
  place.before ++ place.key :: place.after

theorem exists_place_of_mem {key : KeyPosition} {position : EdgePosition}
    (wellFormed : WellFormed index) (isKey : key ∈ index) (isPosition : position ∈ key.list) :
    ∃ place : Place key.key position.edge position.node,
      index = place.whole ∧ place.key = key ∧ place.position = position := by
  obtain ⟨before, after, rfl⟩ := List.append_of_mem isKey
  obtain ⟨first, rest, isList⟩ := List.append_of_mem isPosition
  refine ⟨⟨before, key, after, first, position, rest, isList, rfl, rfl, rfl, ?_, ?_⟩, rfl, rfl,
    rfl⟩
  · intro other isBefore sameTag
    have tags := wellFormed.tags
    rw [List.map_append, List.map_cons] at tags
    exact (List.nodup_append.mp tags).2.2 _ (List.mem_map_of_mem isBefore) _
      List.mem_cons_self sameTag
  · intro other isFirst sameEdge
    have edges := wellFormed.edges
    simp only [entries_append, entries_cons, bucketEntries, isList, List.map_append,
      List.map_cons, List.map_map, List.nodup_append] at edges
    exact edges.2.1.1.2.2 _ (List.mem_map_of_mem isFirst) _ List.mem_cons_self sameEdge

theorem exists_place (wellFormed : WellFormed index)
    (listed : ⟨tag, edge, node⟩ ∈ index.entries) :
    ∃ place : Place tag edge node, index = place.whole := by
  obtain ⟨key, isKey, position, isPosition, same⟩ := mem_entries.mp listed
  obtain ⟨rfl, rfl, rfl⟩ := Entry.mk.inj same
  obtain ⟨place, isIndex, -⟩ := exists_place_of_mem wellFormed isKey isPosition
  exact ⟨place, isIndex⟩

namespace Place

variable (place : Place tag edge node)

theorem find_eq : place.whole.find tag = some place.key := by
  have before : place.before.find? (fun key => decide (key.key = tag)) = none := by
    simpa using place.not_before
  rw [whole, find, List.find?_append, before, Option.none_or,
    List.find?_cons_of_pos (by simpa using place.key_eq)]

theorem find_position :
    place.key.list.find? (fun position => decide (position.edge = edge)) =
      some place.position := by
  have first : place.first.find? (fun position => decide (position.edge = edge)) = none := by
    simpa using place.not_first
  rw [place.list_eq, List.find?_append, first, Option.none_or,
    List.find?_cons_of_pos (by simpa using place.edge_eq)]

/-- The bucket without the edge. -/
def others : KeyPosition :=
  { place.key with list := place.first ++ place.rest }

theorem remove_eq : place.key.remove edge = place.others := by
  rw [KeyPosition.remove, others, place.list_eq, List.eraseP_append_right,
    List.eraseP_cons_of_pos (by simpa using place.edge_eq)]
  simpa using place.not_first

theorem removePair_eq :
    removePair tag edge place.whole = place.before ++ place.others :: place.after := by
  have walk (before : EdgeIndex) (different : ∀ other ∈ before, other.key ≠ tag) :
      removePair tag edge (before ++ place.key :: place.after) =
        before ++ place.others :: place.after := by
    induction before with
    | nil => rw [List.nil_append, removePair, if_pos place.key_eq, remove_eq, List.nil_append]
    | cons key keys ih =>
        rw [List.cons_append, removePair, if_neg (different key List.mem_cons_self),
          ih fun other member => different other (List.mem_cons_of_mem key member),
          List.cons_append]
  exact walk place.before place.not_before

theorem find_others :
    find (place.before ++ place.others :: place.after) tag = some place.others := by
  have before : place.before.find? (fun key => decide (key.key = tag)) = none := by
    simpa using place.not_before
  have sameTag : place.others.key = tag := place.key_eq
  rw [find, List.find?_append, before, Option.none_or,
    List.find?_cons_of_pos (by simpa using sameTag)]

theorem removeKey_eq :
    removeKey (place.before ++ place.others :: place.after) tag =
      place.before ++ place.after := by
  have sameTag : place.others.key = tag := place.key_eq
  rw [removeKey, List.eraseP_append_right, List.eraseP_cons_of_pos (by simpa using sameTag)]
  simpa using place.not_before

/-- The index without the edge, and without its bucket if it was the only one there. -/
def removed : EdgeIndex :=
  if place.others.list = [] then place.before ++ place.after
  else place.before ++ place.others :: place.after

/-- The entries before and behind the edge. -/
theorem exists_entries_eq : ∃ first rest,
    place.whole.entries = first ++ ⟨tag, edge, node⟩ :: rest ∧
      place.removed.entries = first ++ rest := by
  have bucket : bucketEntries place.key = place.first.map (entryOf tag) ++
      ⟨tag, edge, node⟩ :: place.rest.map (entryOf tag) := by
    have isEntry : entryOf tag place.position = ⟨tag, edge, node⟩ := by
      rw [entryOf, place.edge_eq, place.node_eq]
    rw [bucketEntries, place.list_eq, List.map_append, List.map_cons, place.key_eq, isEntry]
  have without : bucketEntries place.others =
      place.first.map (entryOf tag) ++ place.rest.map (entryOf tag) := by
    rw [bucketEntries, others, List.map_append, place.key_eq]
  refine ⟨entries place.before ++ place.first.map (entryOf tag),
    place.rest.map (entryOf tag) ++ entries place.after, ?_, ?_⟩
  · rw [whole, entries_append, entries_cons, bucket]
    simp only [List.append_assoc, List.cons_append]
  · rw [removed]
    split_ifs with empty
    · have none : place.first = [] ∧ place.rest = [] := List.append_eq_nil_iff.mp empty
      simp [none.1, none.2]
    · rw [entries_append, entries_cons, without]
      simp only [List.append_assoc]

theorem mem_entries_removed (wellFormed : WellFormed place.whole) {entry : Entry} :
    entry ∈ place.removed.entries ↔ entry ∈ place.whole.entries ∧ entry.edge ≠ edge := by
  obtain ⟨first, rest, isWhole, isRemoved⟩ := place.exists_entries_eq
  have edges := wellFormed.edges
  rw [isWhole, List.map_append, List.map_cons, List.nodup_middle, List.nodup_cons] at edges
  have absent (member : entry ∈ first ++ rest) : entry.edge ≠ edge := by
    intro same
    rw [← List.map_append] at edges
    exact edges.1 (List.mem_map.mpr ⟨entry, member, same⟩)
  rw [isWhole, isRemoved]
  constructor
  · intro member
    refine ⟨?_, absent member⟩
    rcases List.mem_append.mp member with inFirst | inRest
    · exact List.mem_append_left _ inFirst
    · exact List.mem_append_right _ (List.mem_cons_of_mem _ inRest)
  · rintro ⟨member, different⟩
    rcases List.mem_append.mp member with inFirst | inRest
    · exact List.mem_append_left _ inFirst
    · rcases List.mem_cons.mp inRest with rfl | inRest
      · exact absurd rfl different
      · exact List.mem_append_right _ inRest

theorem length_entries_removed :
    place.whole.entries.length = place.removed.entries.length + 1 := by
  obtain ⟨first, rest, isWhole, isRemoved⟩ := place.exists_entries_eq
  rw [isWhole, isRemoved]
  simp only [List.length_append, List.length_cons]
  omega

/-- The addresses of the elements that are removed. -/
def freed : List Nat :=
  if place.others.list = [] then [place.position.address, place.key.address]
  else [place.position.address]

theorem addresses_perm : place.whole.addresses.Perm (place.freed ++ place.removed.addresses) := by
  have bucket : place.key.addresses.Perm (place.position.address :: place.others.addresses) := by
    rw [KeyPosition.addresses, KeyPosition.addresses, others, place.list_eq, List.map_append,
      List.map_append, List.map_cons]
    exact (List.perm_middle.cons place.key.address).trans (List.Perm.swap _ _ _)
  have whole : place.whole.addresses.Perm (place.position.address ::
      (addresses place.before ++ (place.others.addresses ++ addresses place.after))) := by
    rw [Place.whole, addresses_append, addresses_cons]
    exact ((bucket.append_right _).append_left _).trans List.perm_middle
  refine whole.trans ?_
  rw [freed, removed]
  split_ifs with empty
  · have noOthers : place.others.addresses = [place.key.address] := by
      rw [KeyPosition.addresses, empty]
      rfl
    rw [noOthers, addresses_append]
    exact List.perm_middle.cons _
  · rw [addresses_append, addresses_cons]
    exact List.Perm.refl _

theorem position_mem : place.position.address ∈ place.whole.addresses :=
  place.addresses_perm.mem_iff.mpr (List.mem_append_left _ (by
    rw [freed]
    split_ifs <;> exact List.mem_cons_self))

theorem key_mem : place.key.address ∈ place.whole.addresses := by
  rw [whole, addresses_append, addresses_cons, KeyPosition.addresses]
  exact List.mem_append_right _ List.mem_cons_self

theorem removed_subset : place.removed.addresses ⊆ place.whole.addresses := fun _ member =>
  place.addresses_perm.mem_iff.mpr (List.mem_append_right _ member)

theorem removed_wellFormed (wellFormed : WellFormed place.whole) :
    WellFormed place.removed where
  tags := by
    have tags := wellFormed.tags
    refine tags.sublist ?_
    rw [removed, whole]
    split_ifs
    · simp only [List.map_append, List.map_cons]
      exact (List.sublist_cons_self _ _).append_left _
    · simp [others]
  nonempty := by
    intro key member
    rw [removed] at member
    have old (isOld : key ∈ place.before ∨ key ∈ place.after) : key.list ≠ [] := by
      refine wellFormed.nonempty key ?_
      rw [whole, List.mem_append, List.mem_cons]
      exact isOld.imp_right .inr
    split_ifs at member with empty
    · exact old (List.mem_append.mp member)
    · rcases List.mem_append.mp member with isBefore | isRest
      · exact old (.inl isBefore)
      · rcases List.mem_cons.mp isRest with rfl | isAfter
        · exact empty
        · exact old (.inr isAfter)
  edges := by
    obtain ⟨first, rest, isIndex, isRemoved⟩ := place.exists_entries_eq
    have edges := wellFormed.edges
    rw [isIndex] at edges
    rw [isRemoved]
    exact edges.sublist (((List.sublist_cons_self _ _).append_left _).map _)
  addresses := by
    have addresses := wellFormed.addresses
    rw [place.addresses_perm.nodup_iff] at addresses
    exact (List.nodup_append.mp addresses).2.1

end Place

/-! ## Adding an edge -/

/-- An edge is put in front of its bucket, or in a new bucket in front of the others. -/
theorem add_cases (index : EdgeIndex) (tag : Tag) (position : EdgePosition)
    (keyAddress : Nat) :
    (index.add tag position keyAddress = ⟨keyAddress, tag, [position]⟩ :: index ∧
      ∀ key ∈ index, key.key ≠ tag) ∨
    ∃ before key after, index = before ++ key :: after ∧ key.key = tag ∧
      index.add tag position keyAddress =
        before ++ { key with list := position :: key.list } :: after := by
  have walk : (addToBucket tag position index = none ∧ ∀ key ∈ index, key.key ≠ tag) ∨
      ∃ before key after, index = before ++ key :: after ∧ key.key = tag ∧
        addToBucket tag position index =
          some (before ++ { key with list := position :: key.list } :: after) := by
    induction index with
    | nil => exact .inl ⟨rfl, by simp⟩
    | cons key keys ih =>
        by_cases here : key.key = tag
        · exact .inr ⟨[], key, keys, rfl, here, by rw [addToBucket, if_pos here]; rfl⟩
        · rw [addToBucket, if_neg here]
          rcases ih with ⟨absent, different⟩ | ⟨before, other, after, rfl, same, added⟩
          · refine .inl ⟨by rw [absent]; rfl, ?_⟩
            simpa [here] using different
          · exact .inr ⟨key :: before, other, after, rfl, same, by rw [added]; rfl⟩
  rw [add]
  rcases walk with ⟨absent, different⟩ | ⟨before, key, after, isIndex, same, added⟩
  · exact .inl ⟨by rw [absent]; rfl, different⟩
  · exact .inr ⟨before, key, after, isIndex, same, by rw [added]; rfl⟩

theorem exists_entries_add (index : EdgeIndex) (tag : Tag) (position : EdgePosition)
    (keyAddress : Nat) : ∃ first rest, index.entries = first ++ rest ∧
      (index.add tag position keyAddress).entries = first ++ entryOf tag position :: rest := by
  rcases index.add_cases tag position keyAddress with ⟨added, -⟩ |
    ⟨before, key, after, rfl, rfl, added⟩
  · exact ⟨[], index.entries, rfl, by rw [added]; rfl⟩
  · refine ⟨entries before, bucketEntries key ++ entries after, by simp, ?_⟩
    rw [added]
    simp [bucketEntries]

theorem mem_addresses_add {position : EdgePosition} {keyAddress address : Nat}
    (member : address ∈ (index.add tag position keyAddress).addresses) :
    address = keyAddress ∨ address = position.address ∨ address ∈ index.addresses := by
  rcases index.add_cases tag position keyAddress with ⟨added, -⟩ |
    ⟨before, key, after, rfl, -, added⟩
  · rw [added, addresses_cons] at member
    simp only [KeyPosition.addresses, List.map_cons, List.map_nil, List.cons_append,
      List.nil_append, List.mem_cons] at member
    exact member
  · rw [added] at member
    simp only [addresses_append, addresses_cons, KeyPosition.addresses, List.map_cons,
      List.mem_append, List.mem_cons, List.mem_map] at member ⊢
    rcases member with inFront | (isKey | isNew | inBucket) | behind
    · exact .inr (.inr (.inl inFront))
    · exact .inr (.inr (.inr (.inl (.inl isKey))))
    · exact .inr (.inl isNew)
    · exact .inr (.inr (.inr (.inl (.inr inBucket))))
    · exact .inr (.inr (.inr (.inr behind)))

theorem add_wellFormed {position : EdgePosition} {keyAddress : Nat}
    (wellFormed : WellFormed index) (newEdge : position.edge ∉ index.entries.map Entry.edge)
    (newKey : keyAddress ∉ index.addresses) (newPosition : position.address ∉ index.addresses)
    (different : keyAddress ≠ position.address) :
    WellFormed (index.add tag position keyAddress) := by
  have edges : ((index.add tag position keyAddress).entries.map Entry.edge).Nodup := by
    obtain ⟨first, rest, isIndex, isAdded⟩ :=
      index.exists_entries_add tag position keyAddress
    have old := wellFormed.edges
    rw [isIndex] at old newEdge
    rw [isAdded]
    simp only [List.map_append, List.map_cons] at old newEdge ⊢
    exact List.nodup_middle.mpr (List.nodup_cons.mpr ⟨newEdge, old⟩)
  rcases index.add_cases tag position keyAddress with ⟨added, absent⟩ |
    ⟨before, key, after, rfl, rfl, added⟩
  · rw [added] at edges ⊢
    refine ⟨?_, ?_, edges, ?_⟩
    · rw [List.map_cons, List.nodup_cons]
      refine ⟨?_, wellFormed.tags⟩
      rintro member
      obtain ⟨key, isKey, same⟩ := List.mem_map.mp member
      exact absent key isKey same
    · intro key member
      rcases List.mem_cons.mp member with rfl | old
      · exact List.cons_ne_nil _ _
      · exact wellFormed.nonempty key old
    · rw [addresses_cons]
      simp only [KeyPosition.addresses, List.map_cons, List.map_nil, List.cons_append,
        List.nil_append, List.nodup_cons, List.mem_cons, not_or]
      exact ⟨⟨different, newKey⟩, newPosition, wellFormed.addresses⟩
  · rw [added] at edges ⊢
    refine ⟨?_, ?_, edges, ?_⟩
    · simpa using wellFormed.tags
    · intro other member
      rcases List.mem_append.mp member with isBefore | isRest
      · exact wellFormed.nonempty other (List.mem_append_left _ isBefore)
      · rcases List.mem_cons.mp isRest with rfl | isAfter
        · exact List.cons_ne_nil _ _
        · exact wellFormed.nonempty other
            (List.mem_append_right _ (List.mem_cons_of_mem key isAfter))
    · have old := wellFormed.addresses
      simp only [addresses_append, addresses_cons, KeyPosition.addresses, List.map_cons]
        at old newPosition ⊢
      have moved : (addresses before ++ (key.address :: position.address ::
          key.list.map EdgePosition.address ++ addresses after)).Perm
          (position.address :: (addresses before ++ (key.address ::
            key.list.map EdgePosition.address ++ addresses after))) := by
        refine (List.Perm.append_left _ ?_).trans List.perm_middle
        exact List.Perm.swap _ _ _
      exact moved.nodup_iff.mpr (List.nodup_cons.mpr ⟨newPosition, old⟩)

end EdgeIndex

end Pmgd
