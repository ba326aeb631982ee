import Mathlib.Data.List.Sigma
import Pmgd.EdgeIndex
import Pmgd.IndexRemovals

/-!
# The contents of the indexes

`IndexManager::update` keeps the index of a property for the tag of an object and the index of the
property for all tags in step with the property.  For an object without a tag both are the same
index, which gets the object twice.
-/

namespace Pmgd

open SortedInsert LabelledRun

/-! ## One index -/

namespace TreeNode

variable {K O : Type*} [LinearOrder K]

/-- The value that a pointer leads to has changed. -/
def changeAt {V : Type*} (pointer : Nat) (change : V → V) (tree : TreeNode K V) : TreeNode K V :=
  tree.mapValues fun address value => if address = pointer then change value else value

omit [LinearOrder K] in
theorem entries_changeAt {V : Type*} {tree : TreeNode K V} (distinct : tree.addresses.Nodup)
    {front back : List (TreeEntry K V)} {entry : TreeEntry K V}
    (split : tree.entries = front ++ entry :: back) (change : V → V) :
    (tree.changeAt entry.address change).entries =
      front ++ ⟨entry.address, entry.key, change entry.value⟩ :: back := by
  have unchanged (entries : List (TreeEntry K V)) (elsewhere : ∀ other ∈ entries,
      other.address ≠ entry.address) :
      entries.map (fun other => (⟨other.address, other.key,
        if other.address = entry.address then change other.value else other.value⟩ :
          TreeEntry K V)) = entries := by
    apply (List.map_congr_left fun other member => ?_).trans (List.map_id entries)
    rw [if_neg (elsewhere other member)]
    rfl
  rw [addresses, split, List.map_append, List.map_cons, List.nodup_middle, List.nodup_cons,
    List.mem_append, not_or] at distinct
  obtain ⟨⟨notFront, notBack⟩, -⟩ := distinct
  rw [changeAt, entries_mapValues, split, List.map_append, List.map_cons, if_pos rfl]
  rw [unchanged front fun other member same => notFront (same ▸ List.mem_map_of_mem member),
    unchanged back fun other member same => notBack (same ▸ List.mem_map_of_mem member)]

omit [LinearOrder K] in
theorem pairs_of_split {tree : TreeNode K (List O)} {front back : List (TreeEntry K (List O))}
    {entry : TreeEntry K (List O)} (split : tree.entries = front ++ entry :: back) :
    tree.pairs =
      front.flatMap TreeEntry.pairs ++ (entry.pairs ++ back.flatMap TreeEntry.pairs) := by
  rw [pairs, split, List.flatMap_append, List.flatMap_cons]

omit [LinearOrder K] in
theorem pairs_eq_toList (tree : TreeNode K (List O)) :
    tree.pairs = tree.toList.flatMap fun (key, objects) => objects.map (Prod.mk key) := by
  rw [pairs, toList, List.flatMap_map]
  rfl

theorem findEntry_of_mem {V : Type*} {tree : TreeNode K V} (ordered : tree.Ordered)
    {entry : TreeEntry K V} (member : entry ∈ tree.entries) :
    tree.findEntry entry.key = some entry := by
  induction tree with
  | null => exact absurd member List.not_mem_nil
  | node address left right height key value leftIh rightIh =>
      obtain ⟨leftOrdered, rightOrdered, below, above⟩ := ordered_node.mp ordered
      rw [findEntry]
      rcases List.mem_append.mp member with inLeft | inRest
      · have before := below entry inLeft
        rw [if_neg before.ne, if_pos before, leftIh leftOrdered inLeft]
      · rcases List.mem_cons.mp inRest with rfl | inRight
        · rw [if_pos rfl]
        · have after := above entry inRight
          rw [if_neg after.ne', if_neg after.not_gt, rightIh rightOrdered inRight]

theorem removalSafe_mapValues {V W : Type*} (change : Nat → V → W) {tree : TreeNode K V} {key : K} :
    (tree.mapValues change).RemovalSafe key ↔ tree.RemovalSafe key := by
  have even (child : TreeNode K V) :
      (child.mapValues change).EvenChildren ↔ child.EvenChildren := by
    cases child with
    | null => exact Iff.rfl
    | node address left right height key value =>
        simp only [EvenChildren, mapValues, right_node, left_node, height_mapValues]
  have isRight (child : TreeNode K V) :
      (child.mapValues change).right = child.right.mapValues change := by
    cases child <;> rfl
  have isLeft (child : TreeNode K V) :
      (child.mapValues change).left = child.left.mapValues change := by
    cases child <;> rfl
  induction tree generalizing key with
  | null => exact Iff.rfl
  | node address left right height nodeKey value leftIh rightIh =>
      rw [mapValues, RemovalSafe, RemovalSafe]
      simp only [leftIh, rightIh, shrinks_mapValues, even, isRight, isLeft, height_mapValues,
        mapValues_eq_null, findMax_mapValues, Option.mem_map, forall_exists_index, and_imp,
        forall_apply_eq_imp_iff₂]

omit [LinearOrder K] in
instance decidableEqNull {V : Type*} : ∀ tree : TreeNode K V, Decidable (tree = null)
  | null => isTrue rfl
  | node _ _ _ _ _ _ => isFalse nofun

instance decidableShrinks {V : Type*} :
    ∀ (tree : TreeNode K V) (key : K), Decidable (tree.Shrinks key)
  | null, _ => inferInstanceAs (Decidable False)
  | node _ left right _ nodeKey _, key =>
      haveI := left.decidableShrinks
      haveI := right.decidableShrinks
      inferInstanceAs (Decidable (if key > nodeKey then _ else if key = nodeKey then _ else _))

instance decidableRemovalSafe {V : Type*} :
    ∀ (tree : TreeNode K V) (key : K), Decidable (tree.RemovalSafe key)
  | null, _ => inferInstanceAs (Decidable True)
  | node _ left right _ nodeKey _, key =>
      haveI := left.decidableRemovalSafe
      haveI := right.decidableRemovalSafe
      inferInstanceAs (Decidable (if key > nodeKey then _ else if key = nodeKey then _ else _))

/-- `Index::add`, with the address that the allocator offers for a tree node. -/
def addObject (tree : TreeNode K (List O)) (key : K) (object : O) (offered : Nat)
    (writeLocked : Bool) : Option (TreeNode K (List O)) :=
  (tree.add key (tree.alloc offered) [] writeLocked).map fun added =>
    added.tree.changeAt added.r fun list => object :: list

/-- `Index::remove`. -/
def removeObject [DecidableEq O] (tree : TreeNode K (List O)) (key : K) (object : O)
    (writeLocked : Bool) : Option (TreeNode K (List O)) :=
  match tree.findEntry key with
  | none => some tree
  | some dest =>
      let tree := tree.changeAt dest.address fun list => list.erase object
      if (dest.value.erase object).isEmpty then
        (tree.remove key writeLocked).map RemoveResult.tree
      else
        some tree

theorem addObject_spec {tree : TreeNode K (List O)} (isAvl : tree.IsAvl) (key : K) (object : O)
    (offered : Nat) (writeLocked : Bool) :
    ∃ next, tree.addObject key object offered writeLocked = some next ∧ next.IsAvl ∧
      next.pairs.Perm ((key, object) :: tree.pairs) := by
  obtain ⟨added, isAdded, addedAvl, isEntries, value, points⟩ :=
    add_spec isAvl key (tree.alloc_notMem offered) ([] : List O) writeLocked
  refine ⟨added.tree.changeAt added.r fun list => object :: list,
    by rw [addObject, isAdded, Option.map_some], isAvl_mapValues _ addedAvl, ?_⟩
  have samePairs : added.tree.pairs.Perm tree.pairs := by
    rw [pairs, isEntries]
    by_cases present : ∃ entry ∈ tree.entries, key = entry.key
    · obtain ⟨entry, member, isKey⟩ := present
      rw [insertBy_of_mem isAvl.ordered member isKey]
      exact List.Perm.refl _
    · have absent : ∀ other ∈ tree.entries,
          TreeEntry.key (⟨tree.alloc offered, key, []⟩ : TreeEntry K (List O)) ≠ other.key :=
        fun other member same => present ⟨other, member, same⟩
      exact (insertBy_perm absent).flatMap_right _
  obtain ⟨front, back, split⟩ := List.append_of_mem points
  have after := pairs_of_split
    (entries_changeAt addedAvl.distinct split fun list => object :: list)
  rw [after]
  exact List.perm_middle.trans ((pairs_of_split split ▸ samePairs).cons _)

/-- The removal of an object from an index is safe: when it was the last object of its key, the
deletion of the key leaves a balanced tree. -/
def DropSafe [DecidableEq O] (tree : TreeNode K (List O)) (key : K) (object : O) : Prop :=
  ∀ dest ∈ tree.findEntry key, dest.value.erase object = [] → tree.RemovalSafe key

instance decidableDropSafe [DecidableEq O] (tree : TreeNode K (List O)) (key : K) (object : O) :
    Decidable (tree.DropSafe key object) :=
  inferInstanceAs (Decidable (∀ dest ∈ tree.findEntry key, _ → _))

theorem removeObject_spec [DecidableEq O] {tree : TreeNode K (List O)} (isAvl : tree.IsAvl)
    {key : K} {object : O} (member : (key, object) ∈ tree.pairs)
    (safe : tree.DropSafe key object) (writeLocked : Bool) :
    ∃ next, tree.removeObject key object writeLocked = some next ∧ next.IsAvl ∧
      tree.pairs.Perm ((key, object) :: next.pairs) := by
  obtain ⟨entry, inTree, inEntry⟩ := List.mem_flatMap.mp member
  obtain ⟨element, inList, isPair⟩ := List.mem_map.mp inEntry
  obtain ⟨rfl, rfl⟩ := Prod.mk.inj isPair
  have isFound := findEntry_of_mem isAvl.ordered inTree
  obtain ⟨front, back, split⟩ := List.append_of_mem inTree
  have isChanged := entries_changeAt isAvl.distinct split fun list => list.erase element
  have changedAvl : (tree.changeAt entry.address fun list => list.erase element).IsAvl :=
    isAvl_mapValues _ isAvl
  have changedPairs : tree.pairs.Perm ((entry.key, element) ::
      (tree.changeAt entry.address fun list => list.erase element).pairs) := by
    rw [pairs_of_split split, pairs_of_split isChanged]
    have taken := (List.perm_cons_erase inList).map fun element => (entry.key, element)
    exact ((taken.append_right _).append_left _).trans List.perm_middle
  rw [removeObject, isFound]
  dsimp only
  split_ifs with isEmpty
  · rw [List.isEmpty_iff] at isEmpty
    obtain ⟨removed, isRemoved, deletes, balancedIff, keeps⟩ :=
      removeRecursive_isAvl_iff changedAvl entry.key
    obtain ⟨retval, isResult⟩ := remove_eq changedAvl entry.key writeLocked isRemoved
    have isBalanced := balancedIff.mpr ((removalSafe_mapValues _).mpr (safe entry isFound isEmpty))
    refine ⟨removed.tree, by rw [isResult, Option.map_some], keeps isBalanced, ?_⟩
    have sorted := ordered_iff_toList.mp changedAvl.ordered
    have erased := deletes.toList_eq
    have isList := congrArg
      (List.map fun entry : TreeEntry K (List O) => (entry.key, entry.value)) isChanged
    rw [← toList, List.map_append, List.map_cons] at isList
    rw [isList] at sorted erased
    rw [eraseBy_append_self sorted, ← List.map_append] at erased
    apply changedPairs.trans
    rw [pairs_of_split isChanged, pairs_eq_toList removed.tree, erased, isEmpty,
      List.flatMap_map, List.flatMap_append]
    exact List.Perm.refl _
  · exact ⟨_, rfl, changedAvl, changedPairs⟩

end TreeNode

/-! ## The index manager -/

/-- The index of a property: the objects of each value. -/
abbrev PropertyIndex {Id : Type*} (Value : Id → Type*) (id : Id) :=
  TreeNode (Value id) (List Nat)

/-- `_tag_prop_map` for nodes: the indexes of each tag.  The entry of a tag for the id 0, with all
nodes of the tag, is not in it. -/
structure IndexManager {Id : Type*} (Value : Id → Type*) where
  tagPropMap : Tag → Option ((id : Id) → Option (PropertyIndex Value id))

/-- What the allocator offers to an index, and whether the transaction has write locked its top
when it removes an object and when it adds one. -/
structure IndexOffer where
  removeLocked : Bool
  addLocked : Bool
  offered : Nat

/-- The same for the index of the tag and for that of all tags. -/
structure UpdateOffer where
  tagIndex : IndexOffer
  allIndex : IndexOffer

namespace IndexManager

variable {Id : Type*} [DecidableEq Id] {Value : Id → Type*}

/-- `get_index`.  The values of a property have the type of its indexes. -/
def getIndex (manager : IndexManager Value) (tag : Tag) (id : Id) :
    Option (PropertyIndex Value id) :=
  (manager.tagPropMap tag).bind fun tagEntry => tagEntry id

/-- `add_tag_index`. -/
def addTagIndex (manager : IndexManager Value) (tag : Tag) : IndexManager Value where
  tagPropMap := Function.update manager.tagPropMap tag
    (some ((manager.tagPropMap tag).getD fun _ => none))

/-- An index at its place in the map. -/
def setIndex (manager : IndexManager Value) (tag : Tag) (id : Id)
    (index : PropertyIndex Value id) : IndexManager Value where
  tagPropMap := Function.update manager.tagPropMap tag
    ((manager.tagPropMap tag).map fun tagEntry => Function.update tagEntry id (some index))

/-- `create_index`. -/
def createIndex (manager : IndexManager Value) (tag : Tag) (id : Id) : IndexManager Value :=
  let manager := manager.addTagIndex tag
  if (manager.getIndex tag id).isNone then manager.setIndex tag id .null else manager

/-- A call for the index of a tag and a property, if there is one. -/
def atIndex (manager : IndexManager Value) (tag : Tag) (id : Id)
    (operation : PropertyIndex Value id → Option (PropertyIndex Value id)) :
    Option (IndexManager Value) :=
  match manager.getIndex tag id with
  | none => some manager
  | some index => (operation index).map fun index => manager.setIndex tag id index

variable [∀ id, LinearOrder (Value id)]

/-- The first part of `update`. -/
def removeOld (manager : IndexManager Value) (tag : Tag) (obj : Nat) (id : Id)
    (offer : UpdateOffer) : Option (Value id) → Option (IndexManager Value)
  | none => some manager
  | some old =>
      (manager.atIndex tag id fun index =>
        index.removeObject old obj offer.tagIndex.removeLocked).bind fun manager =>
          manager.atIndex 0 id fun index =>
            index.removeObject old obj offer.allIndex.removeLocked

/-- The second part of `update`. -/
def addNew (manager : IndexManager Value) (tag : Tag) (obj : Nat) (id : Id) (offer : UpdateOffer) :
    Option (Value id) → Option (IndexManager Value)
  | none => some manager
  | some new =>
      (manager.atIndex tag id fun index =>
        index.addObject new obj offer.tagIndex.offered offer.tagIndex.addLocked).bind fun manager =>
          manager.atIndex 0 id fun index =>
            index.addObject new obj offer.allIndex.offered offer.allIndex.addLocked

/-- `IndexManager::update`. -/
def update (manager : IndexManager Value) (tag : Tag) (obj : Nat) (id : Id)
    (oldValue newValue : Option (Value id)) (offer : UpdateOffer) : Option (IndexManager Value) :=
  (manager.removeOld tag obj id offer oldValue).bind fun manager =>
    manager.addNew tag obj id offer newValue

/-- The calls of `update` by `remove_all_properties`. -/
def removeAll (tag : Tag) (obj : Nat) (offers : Id → UpdateOffer) :
    List (Sigma Value) → IndexManager Value → Option (IndexManager Value)
  | [], manager => some manager
  | property :: rest, manager =>
      (manager.update tag obj property.1 (some property.2) none (offers property.1)).bind
        (removeAll tag obj offers rest)

end IndexManager

/-- A node with its properties, in the order of its property list. -/
structure IndexedNode {Id : Type*} (Value : Id → Type*) where
  tag : Tag
  properties : List (Sigma Value)

/-- The nodes of a graph with their indexes. -/
structure IndexedGraph {Id : Type*} (Value : Id → Type*) where
  manager : IndexManager Value
  nodes : Nat → Option (IndexedNode Value)

/-- A call with the address of its node; `place` says where the property list has room. -/
inductive IndexedAction {Id : Type*} (Value : Id → Type*)
  | addNode (tag : Tag) (node : Nat)
  | setProperty (node : Nat) (id : Id) (value : Value id) (place : Nat) (offer : UpdateOffer)
  | removeProperty (node : Nat) (id : Id) (offer : UpdateOffer)
  | removeNode (node : Nat) (offers : Id → UpdateOffer)

namespace IndexedNode

variable {Id : Type*} [DecidableEq Id] {Value : Id → Type*}

def get (node : IndexedNode Value) (id : Id) : Option (Value id) :=
  node.properties.dlookup id

def erase (node : IndexedNode Value) (id : Id) : IndexedNode Value :=
  { node with properties := node.properties.kerase id }

def set (node : IndexedNode Value) (id : Id) (value : Value id) (place : Nat) :
    IndexedNode Value :=
  let others := node.properties.kerase id
  { node with properties := others.take place ++ ⟨id, value⟩ :: others.drop place }

end IndexedNode

namespace IndexedGraph

variable {Id : Type*} [DecidableEq Id] {Value : Id → Type*}

def setNode (graph : IndexedGraph Value) (manager : IndexManager Value) (address : Nat)
    (node : Option (IndexedNode Value)) : IndexedGraph Value where
  manager := manager
  nodes := Function.update graph.nodes address node

/-- A graph without nodes and with these indexes. -/
def start (created : List (Tag × Id)) : IndexedGraph Value where
  manager := created.foldl (fun manager pair => manager.createIndex pair.1 pair.2) ⟨fun _ => none⟩
  nodes := fun _ => none

variable [∀ id, LinearOrder (Value id)]

def step (graph : IndexedGraph Value) : IndexedAction Value → Option (IndexedGraph Value)
  | .addNode tag address =>
      some (graph.setNode (if tag = 0 then graph.manager else graph.manager.addTagIndex tag)
        address (some ⟨tag, []⟩))
  | .setProperty address id value place offer =>
      (graph.nodes address).bind fun node =>
        (graph.manager.update node.tag address id (node.get id) (some value) offer).map
          fun manager => graph.setNode manager address (some (node.set id value place))
  | .removeProperty address id offer =>
      (graph.nodes address).bind fun node =>
        match node.get id with
        | none => some graph
        | some old =>
            (graph.manager.update node.tag address id (some old) none offer).map
              fun manager => graph.setNode manager address (some (node.erase id))
  | .removeNode address offers =>
      (graph.nodes address).bind fun node =>
        (graph.manager.removeAll node.tag address offers node.properties).map
          fun manager => graph.setNode manager address none

/-- The allocator gives an address without a node, and the callers refer to nodes that are
there. -/
def Proper (graph : IndexedGraph Value) : IndexedAction Value → Prop
  | .addNode _ address => graph.nodes address = none
  | .setProperty address _ _ _ _ | .removeProperty address _ _ | .removeNode address _ =>
      graph.nodes address ≠ none

instance decidableProper (graph : IndexedGraph Value) (action : IndexedAction Value) :
    Decidable (graph.Proper action) := by
  unfold Proper
  split <;> infer_instance

/-- How often the index of a tag and a property is meant to have an object under a value. -/
def occurrences (graph : IndexedGraph Value) (tag : Tag) (id : Id) (value : Value id)
    (address : Nat) : Nat :=
  match graph.nodes address with
  | none => 0
  | some node => if (tag = 0 ∨ node.tag = tag) ∧ node.get id = some value then 1 else 0

/-- The indexes that were created have the objects with the property once each, under their
value, and nothing else. -/
def Tracks (created : List (Tag × Id)) (graph : IndexedGraph Value) : Prop :=
  ∀ pair ∈ created, ∃ index, graph.manager.getIndex pair.1 pair.2 = some index ∧
    ∀ value address, index.pairs.count (value, address) =
      graph.occurrences pair.1 pair.2 value address

/-- Where an object leaves the indexes of a tag and a property, no deletion of a key unbalances
the tree. -/
def LeavesSafely (manager : IndexManager Value) (tag : Tag) (id : Id) (value : Value id)
    (address : Nat) : Prop :=
  ∀ place ∈ [tag, 0], ∀ index ∈ manager.getIndex place id, index.DropSafe value address

instance decidableLeavesSafely (manager : IndexManager Value) (tag : Tag) (id : Id)
    (value : Value id) (address : Nat) : Decidable (LeavesSafely manager tag id value address) :=
  decidable_of_iff ((∀ index ∈ manager.getIndex tag id, index.DropSafe value address) ∧
    ∀ index ∈ manager.getIndex 0 id, index.DropSafe value address) (by simp [LeavesSafely])

/-- The condition on a call: a node that gets a property with an index for all tags has a tag, and
no deletion of a key unbalances a tree. -/
def Safe (graph : IndexedGraph Value) : IndexedAction Value → Prop
  | .addNode _ _ => True
  | .setProperty address id _ _ _ =>
      ∀ node ∈ graph.nodes address,
        (node.tag ≠ 0 ∨ graph.manager.getIndex 0 id = none) ∧
          ∀ old ∈ node.get id, LeavesSafely graph.manager node.tag id old address
  | .removeProperty address id _ =>
      ∀ node ∈ graph.nodes address, ∀ old ∈ node.get id,
        LeavesSafely graph.manager node.tag id old address
  | .removeNode address _ =>
      ∀ node ∈ graph.nodes address, ∀ property ∈ node.properties,
        LeavesSafely graph.manager node.tag property.1 property.2 address

instance decidableSafe (graph : IndexedGraph Value) (action : IndexedAction Value) :
    Decidable (graph.Safe action) := by
  unfold Safe
  split <;> infer_instance

end IndexedGraph

/-! ## What an update does -/

namespace IndexManager

variable {Id : Type*} [DecidableEq Id] {Value : Id → Type*}
  {manager middle next : IndexManager Value} {tag : Tag} {id : Id}

omit [DecidableEq Id] in
theorem getIndex_addTagIndex (manager : IndexManager Value) (tag other : Tag) (id : Id) :
    (manager.addTagIndex tag).getIndex other id = manager.getIndex other id := by
  rw [getIndex, getIndex, addTagIndex]
  dsimp only
  by_cases same : other = tag
  · subst same
    rw [Function.update_self, Option.bind_some]
    cases manager.tagPropMap other <;> rfl
  · rw [Function.update_of_ne same]

theorem getIndex_setIndex_self {tagEntry : (id : Id) → Option (PropertyIndex Value id)}
    (isEntry : manager.tagPropMap tag = some tagEntry) (changed : PropertyIndex Value id) :
    (manager.setIndex tag id changed).getIndex tag id = some changed := by
  rw [getIndex, setIndex]
  dsimp only
  rw [Function.update_self, isEntry, Option.map_some, Option.bind_some, Function.update_self]

theorem getIndex_setIndex_of_ne {other : Tag} {property : Id}
    (different : other ≠ tag ∨ property ≠ id) (changed : PropertyIndex Value id) :
    (manager.setIndex tag id changed).getIndex other property =
      manager.getIndex other property := by
  rw [getIndex, getIndex, setIndex]
  dsimp only
  by_cases sameTag : other = tag
  · subst sameTag
    rw [Function.update_self, Option.bind_map]
    apply congrArg
    funext tagEntry
    exact Function.update_of_ne (different.resolve_left (not_not.mpr rfl)) _ _
  · rw [Function.update_of_ne sameTag]

theorem getIndex_createIndex_self (manager : IndexManager Value) (tag : Tag) (id : Id) :
    (manager.createIndex tag id).getIndex tag id = some ((manager.getIndex tag id).getD .null) := by
  have isEntry : (manager.addTagIndex tag).tagPropMap tag =
      some ((manager.tagPropMap tag).getD fun _ => none) :=
    Function.update_self _ _ _
  rw [createIndex, getIndex_addTagIndex]
  cases isIndex : manager.getIndex tag id with
  | none => exact getIndex_setIndex_self isEntry _
  | some index => exact (getIndex_addTagIndex manager tag tag id).trans isIndex

theorem getIndex_createIndex_of_ne (manager : IndexManager Value) {tag other : Tag}
    {id property : Id} (different : other ≠ tag ∨ property ≠ id) :
    (manager.createIndex tag id).getIndex other property = manager.getIndex other property := by
  rw [createIndex]
  split_ifs
  · rw [getIndex_setIndex_of_ne different, getIndex_addTagIndex]
  · exact getIndex_addTagIndex manager tag other property

/-- The indexes that are created are empty. -/
theorem foldl_createIndex (created : List (Tag × Id)) (manager : IndexManager Value)
    (empty : ∀ tag id index, manager.getIndex tag id = some index → index = .null) :
    let last := created.foldl (fun manager pair => manager.createIndex pair.1 pair.2) manager
    (∀ tag id index, last.getIndex tag id = some index → index = .null) ∧
      ∀ tag id, (tag, id) ∈ created ∨ manager.getIndex tag id ≠ none →
        last.getIndex tag id ≠ none := by
  induction created generalizing manager with
  | nil => exact ⟨empty, fun tag id has => has.resolve_left List.not_mem_nil⟩
  | cons pair created ih =>
      obtain ⟨tag, id⟩ := pair
      have cases_createIndex (other : Tag) (property : Id) :
          other = tag ∧ property = id ∨
            (manager.createIndex tag id).getIndex other property =
              manager.getIndex other property := by
        by_cases same : other = tag ∧ property = id
        · exact Or.inl same
        · exact Or.inr (getIndex_createIndex_of_ne manager (not_and_or.mp same))
      obtain ⟨emptyLast, indexed⟩ := ih (manager.createIndex tag id) fun other property index
          isIndex => by
        rcases cases_createIndex other property with ⟨rfl, rfl⟩ | same
        · rw [getIndex_createIndex_self, Option.some_inj] at isIndex
          rw [← isIndex]
          cases isOld : manager.getIndex other property with
          | none => rfl
          | some old => exact empty other property old isOld
        · exact empty other property index (same.symm.trans isIndex)
      refine ⟨emptyLast, fun other property has => indexed other property ?_⟩
      rcases cases_createIndex other property with ⟨rfl, rfl⟩ | same
      · rw [getIndex_createIndex_self]
        exact Or.inr (Option.some_ne_none _)
      · rw [same]
        rcases has with isCreated | had
        · rcases List.mem_cons.mp isCreated with isHead | inRest
          · obtain ⟨rfl, rfl⟩ := Prod.mk.inj isHead
            rw [← same, getIndex_createIndex_self]
            exact Or.inr (Option.some_ne_none _)
          · exact Or.inl inRest
        · exact Or.inr had

/-- Only indexes of one property have changed, each as its relation says. -/
structure Changes (manager next : IndexManager Value) (id : Id)
    (relation : Tag → PropertyIndex Value id → PropertyIndex Value id → Prop) : Prop where
  others : ∀ tag property, property ≠ id →
    next.getIndex tag property = manager.getIndex tag property
  absent : ∀ tag, manager.getIndex tag id = none → next.getIndex tag id = none
  present : ∀ tag index, manager.getIndex tag id = some index →
    ∃ after, next.getIndex tag id = some after ∧ relation tag index after

namespace Changes

variable {first second : Tag → PropertyIndex Value id → PropertyIndex Value id → Prop}

omit [DecidableEq Id] in
theorem trans (changes : Changes manager middle id first) (later : Changes middle next id second) :
    Changes manager next id fun tag index after =>
      ∃ between, first tag index between ∧ second tag between after where
  others tag property different :=
    (later.others tag property different).trans (changes.others tag property different)
  absent tag isNone := later.absent tag (changes.absent tag isNone)
  present tag index isIndex := by
    obtain ⟨between, isBetween, related⟩ := changes.present tag index isIndex
    obtain ⟨after, isAfter, relatedLater⟩ := later.present tag between isBetween
    exact ⟨after, isAfter, between, related, relatedLater⟩

omit [DecidableEq Id] in
theorem mono (changes : Changes manager next id first)
    (implies : ∀ tag index after, manager.getIndex tag id = some index → first tag index after →
      second tag index after) : Changes manager next id second where
  others := changes.others
  absent := changes.absent
  present tag index isIndex := by
    obtain ⟨after, isAfter, related⟩ := changes.present tag index isIndex
    exact ⟨after, isAfter, implies tag index after isIndex related⟩

end Changes

/-- The calls for one index change this index only. -/
theorem atIndex_changes {operation : PropertyIndex Value id → Option (PropertyIndex Value id)}
    {relation : PropertyIndex Value id → PropertyIndex Value id → Prop}
    (operates : ∀ index, manager.getIndex tag id = some index →
      ∃ after, operation index = some after ∧ relation index after) :
    ∃ next, manager.atIndex tag id operation = some next ∧
      Changes manager next id fun other index after =>
        if other = tag then relation index after else after = index := by
  rw [atIndex]
  cases isIndex : manager.getIndex tag id with
  | none =>
      refine ⟨manager, rfl, fun _ _ _ => rfl, fun _ isNone => isNone, ?_⟩
      intro other index isOther
      refine ⟨index, isOther, ?_⟩
      rw [if_neg]
      rintro rfl
      exact Option.some_ne_none index (isOther.symm.trans isIndex)
  | some index =>
      obtain ⟨after, isAfter, related⟩ := operates index isIndex
      refine ⟨manager.setIndex tag id after, ?_, ?_, ?_, ?_⟩
      · dsimp only
        rw [isAfter, Option.map_some]
      · intro other property different
        exact getIndex_setIndex_of_ne (Or.inr different) after
      · intro other isNone
        rw [getIndex_setIndex_of_ne (Or.inl ?_), isNone]
        rintro rfl
        exact Option.some_ne_none index (isIndex.symm.trans isNone)
      · intro other old isOld
        by_cases same : other = tag
        · subst same
          obtain rfl := Option.some.inj (isIndex.symm.trans isOld)
          obtain ⟨tagEntry, isEntry, -⟩ := Option.bind_eq_some_iff.mp isIndex
          exact ⟨after, getIndex_setIndex_self isEntry after, by rwa [if_pos rfl]⟩
        · refine ⟨old, ?_, by rw [if_neg same]⟩
          rw [getIndex_setIndex_of_ne (Or.inl same), isOld]

/-- The calls for the index of a tag and for that of all tags, which differ. -/
theorem atBoth_changes (apart : tag ≠ 0 ∨ manager.getIndex 0 id = none)
    {tagOperation allOperation : PropertyIndex Value id → Option (PropertyIndex Value id)}
    {relation : PropertyIndex Value id → PropertyIndex Value id → Prop}
    (tagOperates : ∀ index, manager.getIndex tag id = some index →
      ∃ after, tagOperation index = some after ∧ relation index after)
    (allOperates : ∀ index, manager.getIndex 0 id = some index →
      ∃ after, allOperation index = some after ∧ relation index after) :
    ∃ next, ((manager.atIndex tag id tagOperation).bind fun manager =>
        manager.atIndex 0 id allOperation) = some next ∧
      Changes manager next id fun other index after =>
        if other = tag ∨ other = 0 then relation index after else after = index := by
  obtain ⟨middle, isMiddle, changes⟩ := atIndex_changes tagOperates
  by_cases noTag : tag = 0
  · subst noTag
    have isNone := apart.resolve_left (not_not.mpr rfl)
    refine ⟨manager, ?_, fun _ _ _ => rfl, fun _ isNone => isNone, fun other index isOther => ?_⟩
    · rw [atIndex, isNone]
      dsimp only
      rw [Option.bind_some, atIndex, isNone]
    · refine ⟨index, isOther, ?_⟩
      rw [if_neg]
      rintro (rfl | rfl) <;> exact Option.some_ne_none index (isOther.symm.trans isNone)
  · have sameAll : middle.getIndex 0 id = manager.getIndex 0 id := by
      cases isAll : manager.getIndex 0 id with
      | none => exact changes.absent 0 isAll
      | some index =>
          obtain ⟨after, isAfter, related⟩ := changes.present 0 index isAll
          rw [if_neg (Ne.symm noTag)] at related
          rw [isAfter, related]
    have allLater : ∀ index, middle.getIndex 0 id = some index →
        ∃ after, allOperation index = some after ∧ relation index after :=
      fun index isIndex => allOperates index (sameAll ▸ isIndex)
    obtain ⟨next, isNext, later⟩ := atIndex_changes allLater
    refine ⟨next, by rw [isMiddle, Option.bind_some, isNext], (changes.trans later).mono ?_⟩
    rintro other index after - ⟨between, first, second⟩
    by_cases isTag : other = tag
    · rw [if_pos isTag] at first
      rw [if_neg (fun isAll => noTag (isTag.symm.trans isAll))] at second
      rw [if_pos (Or.inl isTag), second]
      exact first
    · rw [if_neg isTag] at first
      subst first
      by_cases isAll : other = 0
      · rw [if_pos isAll] at second
        rwa [if_pos (Or.inr isAll)]
      · rw [if_neg isAll] at second
        rwa [if_neg (not_or.mpr ⟨isTag, isAll⟩)]

/-- An index has an object under a new value instead of an old one. -/
structure Exchanges {K : Type*} [LinearOrder K] (obj : Nat) (oldValue newValue : Option K)
    (index after : TreeNode K (List Nat)) : Prop where
  isAvl : after.IsAvl
  count : ∀ value address,
    after.pairs.count (value, address) +
        (if address = obj ∧ oldValue = some value then 1 else 0) =
      index.pairs.count (value, address) +
        if address = obj ∧ newValue = some value then 1 else 0

section Update

variable {K : Type*} [LinearOrder K] {obj : Nat} {index after : TreeNode K (List Nat)}

theorem count_pair_cons (key value : K) (address : Nat) (pairs : List (K × Nat)) :
    ((key, obj) :: pairs).count (value, address) =
      pairs.count (value, address) + if address = obj ∧ some key = some value then 1 else 0 := by
  rw [List.count_cons]
  congr 1
  by_cases same : address = obj ∧ some key = some value
  · obtain ⟨rfl, isKey⟩ := same
    simp [Option.some.inj isKey]
  · rw [if_neg same, if_neg]
    intro isPair
    obtain ⟨rfl, rfl⟩ := Prod.mk.inj (beq_iff_eq.mp isPair)
    exact same ⟨rfl, rfl⟩

theorem exchanges_removeObject (isAvl : index.IsAvl) {old : K} (member : (old, obj) ∈ index.pairs)
    (safe : index.DropSafe old obj) (writeLocked : Bool) :
    ∃ after, index.removeObject old obj writeLocked = some after ∧
      Exchanges obj (some old) none index after := by
  obtain ⟨after, isAfter, afterAvl, perm⟩ :=
    TreeNode.removeObject_spec isAvl member safe writeLocked
  refine ⟨after, isAfter, afterAvl, fun value address => ?_⟩
  rw [perm.count_eq, count_pair_cons]
  simp

theorem exchanges_addObject (isAvl : index.IsAvl) (new : K) (offered : Nat) (writeLocked : Bool) :
    ∃ after, index.addObject new obj offered writeLocked = some after ∧
      Exchanges obj none (some new) index after := by
  obtain ⟨after, isAfter, afterAvl, perm⟩ :=
    TreeNode.addObject_spec isAvl new obj offered writeLocked
  refine ⟨after, isAfter, afterAvl, fun value address => ?_⟩
  rw [perm.count_eq, count_pair_cons]
  simp

theorem Exchanges.refl (isAvl : index.IsAvl) : Exchanges obj none none index index :=
  ⟨isAvl, fun _ _ => rfl⟩

theorem Exchanges.trans {between : TreeNode K (List Nat)} {oldValue newValue : Option K}
    (first : Exchanges obj oldValue none index between)
    (second : Exchanges obj none newValue between after) :
    Exchanges obj oldValue newValue index after := by
  refine ⟨second.isAvl, fun value address => ?_⟩
  have removed := first.count value address
  have added := second.count value address
  simp only [reduceCtorEq, and_false, if_false] at removed added
  omega

end Update

variable [∀ id, LinearOrder (Value id)] {obj : Nat}

/-- What `update` does to the indexes: those of the tag and of all tags exchange the values. -/
def updated (tag : Tag) (obj : Nat) (oldValue newValue : Option (Value id)) (place : Tag)
    (index after : PropertyIndex Value id) : Prop :=
  if place = tag ∨ place = 0 then Exchanges obj oldValue newValue index after else after = index

omit [DecidableEq Id] [∀ id, LinearOrder (Value id)] in
theorem Changes.before {relation : Tag → PropertyIndex Value id → PropertyIndex Value id → Prop}
    (changes : Changes manager next id relation) {property : Id}
    {after : PropertyIndex Value property} (isAfter : next.getIndex tag property = some after) :
    manager.getIndex tag property ≠ none := by
  intro isNone
  apply Option.some_ne_none after
  by_cases same : property = id
  · subst same
    exact isAfter.symm.trans (changes.absent tag isNone)
  · exact isAfter.symm.trans ((changes.others tag property same).trans isNone)

omit [DecidableEq Id] [∀ id, LinearOrder (Value id)] in
theorem Changes.after {relation : Tag → PropertyIndex Value id → PropertyIndex Value id → Prop}
    (changes : Changes manager next id relation) {property : Id}
    (isBefore : manager.getIndex tag property ≠ none) : next.getIndex tag property ≠ none := by
  by_cases same : property = id
  · subst same
    obtain ⟨index, isIndex⟩ := Option.ne_none_iff_exists'.mp isBefore
    obtain ⟨after, isAfter, -⟩ := changes.present tag index isIndex
    rw [isAfter]
    exact Option.some_ne_none after
  · rwa [changes.others tag property same]

omit [DecidableEq Id] in
theorem Changes.updated_none (isAvl : ∀ tag index, manager.getIndex tag id = some index →
    index.IsAvl) : Changes manager manager id (updated tag obj none none) where
  others _ _ _ := rfl
  absent _ isNone := isNone
  present place index isIndex := by
    refine ⟨index, isIndex, ?_⟩
    rw [updated]
    split_ifs
    · exact Exchanges.refl (isAvl place index isIndex)
    · rfl

omit [DecidableEq Id] in
theorem Changes.isAvl {oldValue newValue : Option (Value id)}
    (changes : Changes manager next id (updated tag obj oldValue newValue))
    (isAvl : ∀ tag index, manager.getIndex tag id = some index → index.IsAvl) (place : Tag)
    (after : PropertyIndex Value id) (isAfter : next.getIndex place id = some after) :
    after.IsAvl := by
  obtain ⟨index, isIndex⟩ := Option.ne_none_iff_exists'.mp (changes.before isAfter)
  obtain ⟨_, isSame, related⟩ := changes.present place index isIndex
  obtain rfl := Option.some.inj (isAfter.symm.trans isSame)
  rw [updated] at related
  split_ifs at related
  · exact related.isAvl
  · exact related ▸ isAvl place index isIndex

theorem update_changes (offer : UpdateOffer) {oldValue : Option (Value id)}
    (newValue : Option (Value id)) (apart : tag ≠ 0 ∨ manager.getIndex 0 id = none)
    (isAvl : ∀ tag index, manager.getIndex tag id = some index → index.IsAvl)
    (leaves : ∀ old ∈ oldValue, ∀ place, place = tag ∨ place = 0 →
      ∀ index, manager.getIndex place id = some index →
        (old, obj) ∈ index.pairs ∧ index.DropSafe old obj) :
    ∃ next, manager.update tag obj id oldValue newValue offer = some next ∧
      Changes manager next id (updated tag obj oldValue newValue) := by
  have removes : ∃ middle, manager.removeOld tag obj id offer oldValue = some middle ∧
      Changes manager middle id (updated tag obj oldValue none) := by
    cases oldValue with
    | none => exact ⟨manager, rfl, Changes.updated_none isAvl⟩
    | some old =>
        apply atBoth_changes apart
        · intro index isIndex
          obtain ⟨member, safe⟩ := leaves old rfl tag (Or.inl rfl) index isIndex
          exact exchanges_removeObject (isAvl tag index isIndex) member safe _
        · intro index isIndex
          obtain ⟨member, safe⟩ := leaves old rfl 0 (Or.inr rfl) index isIndex
          exact exchanges_removeObject (isAvl 0 index isIndex) member safe _
  obtain ⟨middle, isMiddle, removed⟩ := removes
  have middleAvl := removed.isAvl isAvl
  have adds : ∃ next, middle.addNew tag obj id offer newValue = some next ∧
      Changes middle next id (updated tag obj none newValue) := by
    cases newValue with
    | none => exact ⟨middle, rfl, Changes.updated_none middleAvl⟩
    | some new =>
        apply atBoth_changes (apart.imp_right (removed.absent 0))
        · exact fun index isIndex => exchanges_addObject (middleAvl tag index isIndex) new _ _
        · exact fun index isIndex => exchanges_addObject (middleAvl 0 index isIndex) new _ _
  obtain ⟨next, isNext, added⟩ := adds
  refine ⟨next, by rw [update, isMiddle, Option.bind_some, isNext], (removed.trans added).mono ?_⟩
  rintro place index after - ⟨between, first, second⟩
  rw [updated] at first second ⊢
  split_ifs at first second ⊢
  · exact first.trans second
  · rw [second, first]

end IndexManager

namespace IndexedNode

variable {Id : Type*} [DecidableEq Id] {Value : Id → Type*} {node : IndexedNode Value}

theorem get_erase (distinct : node.properties.NodupKeys) (id : Id) :
    (node.erase id).get id = none :=
  List.dlookup_kerase id distinct

theorem get_erase_of_ne {id other : Id} (different : other ≠ id) :
    (node.erase id).get other = node.get other :=
  List.dlookup_kerase_ne different

theorem nodupKeys_erase (distinct : node.properties.NodupKeys) (id : Id) :
    (node.erase id).properties.NodupKeys :=
  distinct.kerase id

theorem set_perm (node : IndexedNode Value) (id : Id) (value : Value id) (place : Nat) :
    (node.set id value place).properties.Perm (⟨id, value⟩ :: node.properties.kerase id) := by
  have parts := List.take_append_drop place (node.properties.kerase id)
  apply List.perm_middle.trans
  rw [parts]

theorem nodupKeys_set (distinct : node.properties.NodupKeys) (id : Id) (value : Value id)
    (place : Nat) : (node.set id value place).properties.NodupKeys := by
  apply (List.perm_nodupKeys (node.set_perm id value place)).mpr
  exact List.nodupKeys_cons.mpr ⟨List.notMem_keys_kerase id distinct, distinct.kerase id⟩

theorem get_set (distinct : node.properties.NodupKeys) (id : Id) (value : Value id) (place : Nat) :
    (node.set id value place).get id = some value := by
  have perm := node.set_perm id value place
  rw [get, List.perm_dlookup id (nodupKeys_set distinct id value place) perm,
    List.dlookup_cons_eq]

theorem get_set_of_ne (distinct : node.properties.NodupKeys) {id other : Id}
    (different : other ≠ id) (value : Value id) (place : Nat) :
    (node.set id value place).get other = node.get other := by
  have perm := node.set_perm id value place
  rw [get, List.perm_dlookup other (nodupKeys_set distinct id value place) perm,
    List.dlookup_cons_ne _ _ different, List.dlookup_kerase_ne different, get]

end IndexedNode

/-! ## Runs -/

namespace IndexedGraph

open IndexManager

variable {Id : Type*} [DecidableEq Id] {Value : Id → Type*} [∀ id, LinearOrder (Value id)]
  {created : List (Tag × Id)} {graph : IndexedGraph Value}

omit [DecidableEq Id] [∀ id, LinearOrder (Value id)] in
theorem nodes_setNode_self (manager : IndexManager Value) (address : Nat)
    (node : Option (IndexedNode Value)) :
    (graph.setNode manager address node).nodes address = node := by
  simp [setNode]

omit [DecidableEq Id] [∀ id, LinearOrder (Value id)] in
theorem nodes_setNode_of_ne (manager : IndexManager Value) {address other : Nat}
    (different : other ≠ address) (node : Option (IndexedNode Value)) :
    (graph.setNode manager address node).nodes other = graph.nodes other := by
  simp [setNode, different]

theorem occurrences_of_node {address : Nat} {node : IndexedNode Value}
    (isNode : graph.nodes address = some node) (tag : Tag) (id : Id) (value : Value id) :
    graph.occurrences tag id value address =
      if (tag = 0 ∨ node.tag = tag) ∧ node.get id = some value then 1 else 0 := by
  rw [occurrences, isNode]

/-- The invariant of the runs: besides the contents, that the trees are balanced, and that a node
without a tag has no property with an index for all tags. -/
structure Good (created : List (Tag × Id)) (graph : IndexedGraph Value) : Prop where
  indexed : ∀ pair ∈ created, graph.manager.getIndex pair.1 pair.2 ≠ none
  isAvl : ∀ tag id index, graph.manager.getIndex tag id = some index → index.IsAvl
  tracks : ∀ tag id index, graph.manager.getIndex tag id = some index → ∀ value address,
    index.pairs.count (value, address) = graph.occurrences tag id value address
  distinct : ∀ address node, graph.nodes address = some node → node.properties.NodupKeys
  untagged : ∀ address node, graph.nodes address = some node → node.tag = 0 → ∀ id,
    graph.manager.getIndex 0 id ≠ none → node.get id = none

namespace Good

theorem contents (good : Good created graph) : Tracks created graph := by
  intro pair isCreated
  obtain ⟨index, isIndex⟩ := Option.ne_none_iff_exists'.mp (good.indexed pair isCreated)
  exact ⟨index, isIndex, good.tracks pair.1 pair.2 index isIndex⟩

/-- The object that leaves an index is in it. -/
theorem mem_pairs (good : Good created graph) {address : Nat} {node : IndexedNode Value}
    (isNode : graph.nodes address = some node) {id : Id} {value : Value id}
    (isValue : node.get id = some value) {tag : Tag} (matching : tag = node.tag ∨ tag = 0)
    {index : PropertyIndex Value id} (isIndex : graph.manager.getIndex tag id = some index) :
    (value, address) ∈ index.pairs := by
  have once := good.tracks tag id index isIndex value address
  rw [occurrences, isNode] at once
  dsimp only at once
  rw [if_pos ⟨matching.symm.imp_right Eq.symm, isValue⟩] at once
  exact List.count_pos_iff.mp (by rw [once]; decide)

/-- The index of the property after an update. -/
theorem count_updated (good : Good created graph) {address : Nat}
    {node changed : IndexedNode Value} (isNode : graph.nodes address = some node) {id : Id}
    (sameTag : changed.tag = node.tag) {manager : IndexManager Value}
    (changes : Changes graph.manager manager id
      (updated node.tag address (node.get id) (changed.get id)))
    {tag : Tag} {after : PropertyIndex Value id} (isAfter : manager.getIndex tag id = some after)
    (value : Value id) (other : Nat) :
    after.pairs.count (value, other) =
      (graph.setNode manager address (some changed)).occurrences tag id value other := by
  obtain ⟨index, isIndex⟩ := Option.ne_none_iff_exists'.mp (changes.before isAfter)
  obtain ⟨_, isSame, related⟩ := changes.present tag index isIndex
  obtain rfl := Option.some.inj (isAfter.symm.trans isSame)
  have before := good.tracks tag id index isIndex value other
  by_cases here : other = address
  · subst here
    rw [occurrences_of_node isNode] at before
    rw [occurrences_of_node (nodes_setNode_self manager other _), sameTag]
    rw [updated] at related
    by_cases matching : tag = node.tag ∨ tag = 0
    · rw [if_pos matching] at related
      have counted := related.count value other
      have inIndex : tag = 0 ∨ node.tag = tag := matching.symm.imp_right Eq.symm
      simp only [inIndex, true_and] at before counted ⊢
      omega
    · rw [if_neg matching] at related
      have notInIndex : ¬ (tag = 0 ∨ node.tag = tag) :=
        fun inIndex => matching (inIndex.symm.imp_left Eq.symm)
      rw [if_neg fun both => notInIndex both.1] at before ⊢
      rw [related, before]
  · rw [occurrences, nodes_setNode_of_ne manager here, ← occurrences, ← before]
    rw [updated] at related
    split_ifs at related
    · have counted := related.count value other
      simp only [here, false_and, if_false, Nat.add_zero] at counted
      exact counted
    · rw [related]

/-- A node with another value of one property, after the update of the indexes. -/
theorem update (good : Good created graph) {address : Nat} {node : IndexedNode Value}
    (isNode : graph.nodes address = some node) (changed : IndexedNode Value) (id : Id)
    (sameTag : changed.tag = node.tag)
    (sameOthers : ∀ other, other ≠ id → changed.get other = node.get other)
    (distinct : changed.properties.NodupKeys)
    (apart : node.tag ≠ 0 ∨ graph.manager.getIndex 0 id = none)
    (safe : ∀ old ∈ node.get id, LeavesSafely graph.manager node.tag id old address)
    (offer : UpdateOffer) :
    ∃ manager, graph.manager.update node.tag address id (node.get id) (changed.get id) offer =
        some manager ∧
      Good created (graph.setNode manager address (some changed)) ∧
      Changes graph.manager manager id
        (updated node.tag address (node.get id) (changed.get id)) := by
  obtain ⟨manager, isManager, changes⟩ := update_changes offer (changed.get id) apart
    (fun tag index isIndex => good.isAvl tag id index isIndex)
    (fun old isOld place matching index isIndex =>
      ⟨good.mem_pairs isNode isOld matching isIndex,
        safe old isOld place (by simpa using matching) index isIndex⟩)
  refine ⟨manager, isManager, ⟨?_, ?_, ?_, ?_, ?_⟩, changes⟩
  · exact fun pair isCreated => changes.after (good.indexed pair isCreated)
  · intro tag property after isAfter
    by_cases same : property = id
    · subst same
      exact changes.isAvl (fun tag index => good.isAvl tag property index) tag after isAfter
    · exact good.isAvl tag property after ((changes.others tag property same).symm.trans isAfter)
  · intro tag property after isAfter value other
    by_cases same : property = id
    · subst same
      exact good.count_updated isNode sameTag changes isAfter value other
    · rw [good.tracks tag property after ((changes.others tag property same).symm.trans isAfter)]
      by_cases here : other = address
      · subst here
        rw [occurrences_of_node isNode, occurrences_of_node (nodes_setNode_self manager other _),
          sameTag, sameOthers property same]
      · rw [occurrences, occurrences, nodes_setNode_of_ne manager here]
  · intro other record isRecord
    by_cases here : other = address
    · subst here
      rw [nodes_setNode_self] at isRecord
      exact Option.some.inj isRecord ▸ distinct
    · rw [nodes_setNode_of_ne manager here] at isRecord
      exact good.distinct other record isRecord
  · intro other record isRecord noTag property hasIndex
    have hadIndex : graph.manager.getIndex 0 property ≠ none := by
      obtain ⟨index, isIndex⟩ := Option.ne_none_iff_exists'.mp hasIndex
      exact changes.before isIndex
    by_cases here : other = address
    · subst here
      rw [nodes_setNode_self] at isRecord
      obtain rfl := Option.some.inj isRecord
      rw [sameTag] at noTag
      by_cases same : property = id
      · subst same
        exact absurd (apart.resolve_left (not_not.mpr noTag)) hadIndex
      · rw [sameOthers property same]
        exact good.untagged other node isNode noTag property hadIndex
    · rw [nodes_setNode_of_ne manager here] at isRecord
      exact good.untagged other record isRecord noTag property hadIndex

/-- A node that appears without properties, or one without properties that goes. -/
theorem withoutProperties (good : Good created graph) {address : Nat}
    (isBare : ∀ node, graph.nodes address = some node → node.properties = [])
    {manager : IndexManager Value}
    (sameIndexes : ∀ tag id, manager.getIndex tag id = graph.manager.getIndex tag id)
    {changed : Option (IndexedNode Value)}
    (staysBare : ∀ node, changed = some node → node.properties = []) :
    Good created (graph.setNode manager address changed) := by
  have bare : ∀ node, (graph.setNode manager address changed).nodes address = some node →
      node.properties = [] := by
    intro node isNode
    exact staysBare node ((nodes_setNode_self manager address changed).symm.trans isNode)
  have none_of_bare (graph : IndexedGraph Value) (tag : Tag) (id : Id) (value : Value id)
      (isBare : ∀ node, graph.nodes address = some node → node.properties = []) :
      graph.occurrences tag id value address = 0 := by
    cases isNode : graph.nodes address with
    | none => rw [occurrences, isNode]
    | some node =>
        rw [occurrences_of_node isNode, IndexedNode.get, isBare node isNode, List.dlookup_nil]
        simp
  refine ⟨?_, ?_, ?_, ?_, ?_⟩
  · intro pair isCreated
    exact (sameIndexes _ _).trans_ne (good.indexed pair isCreated)
  · intro tag id index isIndex
    exact good.isAvl tag id index ((sameIndexes tag id).symm.trans isIndex)
  · intro tag id index isIndex value other
    rw [good.tracks tag id index ((sameIndexes tag id).symm.trans isIndex)]
    by_cases here : other = address
    · subst here
      rw [none_of_bare graph tag id value isBare, none_of_bare _ tag id value bare]
    · rw [occurrences, occurrences, nodes_setNode_of_ne manager here]
  · intro other node isNode
    by_cases here : other = address
    · subst here
      rw [bare node isNode]
      exact List.nodupKeys_nil
    · rw [nodes_setNode_of_ne manager here] at isNode
      exact good.distinct other node isNode
  · intro other node isNode noTag id hasIndex
    by_cases here : other = address
    · subst here
      rw [IndexedNode.get, bare node isNode, List.dlookup_nil]
    · rw [nodes_setNode_of_ne manager here] at isNode
      exact good.untagged other node isNode noTag id ((sameIndexes 0 id).symm.trans_ne hasIndex)

/-- An update that only removes, for a node that has the property. -/
theorem apart_of_get (good : Good created graph) {address : Nat} {node : IndexedNode Value}
    (isNode : graph.nodes address = some node) {id : Id} {value : Value id}
    (isValue : node.get id = some value) :
    node.tag ≠ 0 ∨ graph.manager.getIndex 0 id = none := by
  by_contra neither
  obtain ⟨noTag, hasIndex⟩ := not_or.mp neither
  have isNone := good.untagged address node isNode (not_not.mp noTag) id hasIndex
  exact Option.some_ne_none value (isValue.symm.trans isNone)

/-- `remove_all_properties`, by induction on the properties that are left. -/
theorem removeAll (good : Good created graph) {address : Nat} {tag : Tag}
    {properties : List (Sigma Value)} (isNode : graph.nodes address = some ⟨tag, properties⟩)
    (safe : ∀ property ∈ properties,
      LeavesSafely graph.manager tag property.1 property.2 address)
    (offers : Id → UpdateOffer) :
    ∃ manager, graph.manager.removeAll tag address offers properties = some manager ∧
      Good created (graph.setNode manager address none) := by
  induction properties generalizing graph with
  | nil =>
      refine ⟨graph.manager, rfl, good.withoutProperties ?_ (fun _ _ => rfl) nofun⟩
      intro node isSame
      rw [isNode, Option.some_inj] at isSame
      rw [← isSame]
  | cons property rest ih =>
      obtain ⟨id, old⟩ := property
      have distinct := good.distinct address _ isNode
      obtain ⟨absent, restDistinct⟩ := List.nodupKeys_cons.mp distinct
      have isOld : IndexedNode.get ⟨tag, ⟨id, old⟩ :: rest⟩ id = some old :=
        List.dlookup_cons_eq rest id old
      have isGone : IndexedNode.get ⟨tag, rest⟩ id = none := List.dlookup_eq_none.mpr absent
      obtain ⟨manager, isManager, goodNext, changes⟩ := good.update isNode
        ⟨tag, rest⟩ id rfl
        (fun other different => (List.dlookup_cons_ne rest ⟨id, old⟩ different).symm) restDistinct
        (good.apart_of_get isNode isOld)
        (fun value isValue => by
          obtain rfl := Option.some.inj (isOld.symm.trans isValue)
          exact safe _ List.mem_cons_self)
        (offers id)
      rw [isOld, isGone] at isManager
      have restSafe : ∀ property ∈ rest, LeavesSafely
          (graph.setNode manager address (some ⟨tag, rest⟩)).manager tag property.1 property.2
            address := by
        intro property inRest place matching index isIndex
        have different : property.1 ≠ id := by
          have isKey : property.1 ∈ rest.keys := List.mem_map_of_mem inRest
          exact fun same => absent (same ▸ isKey)
        apply safe property (List.mem_cons_of_mem _ inRest) place matching
        exact (changes.others place property.1 different).symm.trans isIndex
      obtain ⟨last, isLast, goodLast⟩ := ih goodNext
        (nodes_setNode_self manager address (some ⟨tag, rest⟩)) restSafe
      refine ⟨last, ?_, ?_⟩
      · rw [IndexManager.removeAll, isManager, Option.bind_some]
        exact isLast
      · have sameGraph : (graph.setNode manager address (some ⟨tag, rest⟩)).setNode last address
            none = graph.setNode last address none := by
          simp [setNode]
        rwa [sameGraph] at goodLast

/-- What one call preserves. -/
theorem step (good : Good created graph) (action : IndexedAction Value)
    (proper : graph.Proper action) (safe : graph.Safe action) :
    ∃ next, graph.step action = some next ∧ Good created next := by
  cases action with
  | addNode tag address =>
      have isFree : graph.nodes address = none := proper
      refine ⟨_, rfl, good.withoutProperties ?_ ?_ ?_⟩
      · intro node isNode
        exact absurd (isNode.symm.trans isFree) (Option.some_ne_none node)
      · intro other id
        split_ifs
        · rfl
        · exact getIndex_addTagIndex graph.manager tag other id
      · rintro node ⟨⟩
        rfl
  | setProperty address id value place offer =>
      obtain ⟨node, isNode⟩ := Option.ne_none_iff_exists'.mp proper
      obtain ⟨apart, leaves⟩ := safe node isNode
      have distinct := good.distinct address node isNode
      obtain ⟨manager, isManager, goodNext, -⟩ := good.update isNode
        (node.set id value place) id rfl
        (fun other different => IndexedNode.get_set_of_ne distinct different value place)
        (IndexedNode.nodupKeys_set distinct id value place) apart leaves offer
      rw [IndexedNode.get_set distinct] at isManager
      refine ⟨_, ?_, goodNext⟩
      rw [IndexedGraph.step, isNode, Option.bind_some, isManager, Option.map_some]
  | removeProperty address id offer =>
      obtain ⟨node, isNode⟩ := Option.ne_none_iff_exists'.mp proper
      cases isOld : node.get id with
      | none =>
          refine ⟨graph, ?_, good⟩
          rw [IndexedGraph.step, isNode, Option.bind_some, isOld]
      | some old =>
          have distinct := good.distinct address node isNode
          obtain ⟨manager, isManager, goodNext, -⟩ := good.update isNode
            (node.erase id) id rfl
            (fun other different => IndexedNode.get_erase_of_ne different)
            (IndexedNode.nodupKeys_erase distinct id) (good.apart_of_get isNode isOld)
            (safe node isNode) offer
          rw [IndexedNode.get_erase distinct, isOld] at isManager
          refine ⟨_, ?_, goodNext⟩
          rw [IndexedGraph.step, isNode, Option.bind_some, isOld]
          dsimp only
          rw [isManager, Option.map_some]
  | removeNode address offers =>
      obtain ⟨node, isNode⟩ := Option.ne_none_iff_exists'.mp proper
      obtain ⟨manager, isManager, goodNext⟩ := good.removeAll isNode (safe node isNode) offers
      refine ⟨_, ?_, goodNext⟩
      rw [IndexedGraph.step, isNode, Option.bind_some, isManager, Option.map_some]

end Good

theorem start_good (created : List (Tag × Id)) :
    Good created (start created : IndexedGraph Value) := by
  obtain ⟨empty, indexed⟩ := foldl_createIndex created (⟨fun _ => none⟩ : IndexManager Value) nofun
  refine ⟨fun pair isCreated => indexed pair.1 pair.2 (Or.inl isCreated), ?_, ?_, nofun, nofun⟩
  · intro tag id index isIndex
    rw [empty tag id index isIndex]
    exact TreeNode.IsAvl.null
  · intro tag id index isIndex value address
    rw [empty tag id index isIndex]
    rfl

/-- As long as the calls meet the condition, each index has exactly the objects with the property,
once each and under their value. -/
theorem tracks_of_safe (created : List (Tag × Id)) (actions : List (IndexedAction Value))
    (proper : MeetsAlong step Proper (start created) actions)
    (safe : MeetsAlong step Safe (start created) actions) :
    ∃ graph : IndexedGraph Value, run step (start created) actions = some graph ∧
      Tracks created graph := by
  obtain ⟨graph, reaches, good⟩ := exists_run_invariant (Good created)
    (fun graph action good met => good.step action met.1 met.2) (start_good created)
    (proper.and safe)
  exact ⟨graph, reaches, good.contents⟩

/-- One property, a number, with an index for the tag 3 and one for all tags. -/
def twoIndexes : List (Tag × Unit) :=
  [(3, ()), (0, ())]

def noLocks : UpdateOffer :=
  ⟨⟨false, false, 16⟩, ⟨false, false, 16⟩⟩

def taggedRun : List (IndexedAction fun _ : Unit => Nat) :=
  [.addNode 3 64, .addNode 4 128, .addNode 0 192, .setProperty 64 () 5 0 noLocks,
    .setProperty 128 () 5 0 noLocks, .setProperty 64 () 7 0 noLocks, .removeProperty 128 () noLocks,
    .setProperty 128 () 7 0 noLocks, .removeNode 64 fun _ => noLocks]

theorem tracks_of_safe_taggedRun :
    ∃ graph : IndexedGraph fun _ : Unit => Nat,
      run step (start twoIndexes) taggedRun = some graph ∧ Tracks twoIndexes graph :=
  tracks_of_safe twoIndexes taggedRun (by decide) (by decide)

/-- A node without a tag is in the index for all tags twice. -/
theorem untagged_node_indexed_twice :
    ∃ graph : IndexedGraph fun _ : Unit => Nat,
      run step (start twoIndexes) [.addNode 0 64, .setProperty 64 () 5 0 noLocks] = some graph ∧
        ¬ Tracks twoIndexes graph := by
  refine ⟨_, rfl, fun tracks => ?_⟩
  obtain ⟨index, isIndex, counts⟩ := tracks (0, ()) (by decide)
  obtain rfl := Option.some.inj isIndex
  exact absurd (counts 5 64) (by decide)

end IndexedGraph

end Pmgd
