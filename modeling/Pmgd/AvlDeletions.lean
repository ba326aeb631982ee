import Pmgd.IndexRotations

/-!
# Deletions under an iterator

A deletion frees the node of the key, or the node of its predecessor when the key's node has two
children and takes the predecessor's entry.  The other nodes stay where they are.
-/

namespace Pmgd

open SortedInsert

namespace TreeNode

variable {K V O : Type*}

/-! ## The node that is freed -/

section Definitions

variable [LinearOrder K]

/-- The entry of the node that `remove_recursive` frees. -/
def freedEntry : TreeNode K V → K → Option (TreeEntry K V)
  | null, _ => none
  | node address left right _ nodeKey value, key =>
      if key > nodeKey then
        right.freedEntry key
      else if key = nodeKey then
        match left, right with
        | null, _ | _, null => some ⟨address, nodeKey, value⟩
        | _, _ => left.findMax
      else
        left.freedEntry key

variable {address : Nat} {left right : TreeNode K V} {height : Int} {nodeKey key : K} {value : V}

theorem freedEntry_of_lt (before : key < nodeKey) :
    (node address left right height nodeKey value).freedEntry key = left.freedEntry key :=
  (if_neg before.not_gt).trans (if_neg before.ne)

theorem freedEntry_of_gt (after : nodeKey < key) :
    (node address left right height nodeKey value).freedEntry key = right.freedEntry key :=
  if_pos after

theorem freedEntry_of_child (child : left = null ∨ right = null) :
    (node address left right height key value).freedEntry key = some ⟨address, key, value⟩ := by
  cases left with
  | null => exact (if_neg (lt_irrefl key)).trans (if_pos rfl)
  | node _ _ _ _ _ _ =>
      rcases child with isNull | rfl
      · cases isNull
      · exact (if_neg (lt_irrefl key)).trans (if_pos rfl)

theorem freedEntry_of_children (leftNonempty : left ≠ null) (rightNonempty : right ≠ null) :
    (node address left right height key value).freedEntry key = left.findMax := by
  cases left with
  | null => exact absurd rfl leftNonempty
  | node _ _ _ _ _ _ =>
      cases right with
      | null => exact absurd rfl rightNonempty
      | node _ _ _ _ _ _ => exact (if_neg (lt_irrefl key)).trans (if_pos rfl)

omit [LinearOrder K] in
theorem findMax_of_right (nonempty : right ≠ null) :
    (node address left right height nodeKey value).findMax = right.findMax := by
  cases right with
  | null => exact absurd rfl nonempty
  | node _ _ _ _ _ _ => rfl

/-- The last node has no child on its right. -/
theorem freedEntry_findMax {tree : TreeNode K V} (ordered : tree.Ordered) {last : TreeEntry K V}
    (isLast : tree.findMax = some last) : tree.freedEntry last.key = some last := by
  induction tree with
  | null => cases isLast
  | node address left right height nodeKey value _ rightIh =>
      obtain ⟨-, rightOrdered, -, above⟩ := ordered_node.mp ordered
      by_cases isNull : right = null
      · subst isNull
        obtain rfl := Option.some.inj isLast
        exact freedEntry_of_child (Or.inr rfl)
      · rw [findMax_of_right isNull] at isLast
        obtain ⟨_, front, isSame, isEntries⟩ := findMax_spec isNull
        obtain rfl := Option.some.inj (isSame.symm.trans isLast)
        rw [freedEntry_of_gt (above _ (by rw [isEntries]; simp))]
        exact rightIh rightOrdered isLast

/-! ## What a deletion keeps -/

omit [LinearOrder K] in
theorem balanceRemovedLeft_rebalances {result : TreeNode K V} {rotated : Bool}
    (isResult : balanceRemovedLeft address left right height nodeKey value = some (result, rotated))
    (leftOk : left.HeightsOk) (rightOk : right.HeightsOk) :
    Rebalances (left.entries ++ ⟨address, nodeKey, value⟩ :: right.entries) result := by
  obtain ⟨_, _, isSame, rebalances⟩ :=
    balanceRemovedLeft_spec leftOk rightOk address height nodeKey value
  obtain ⟨rfl, rfl⟩ := Prod.mk.inj (Option.some.inj (isSame.symm.trans isResult))
  exact rebalances

omit [LinearOrder K] in
theorem balanceRemovedRight_rebalances {result : TreeNode K V} {rotated : Bool}
    (isResult : balanceRemovedRight address left right height nodeKey value =
      some (result, rotated))
    (leftOk : left.HeightsOk) (rightOk : right.HeightsOk) :
    Rebalances (left.entries ++ ⟨address, nodeKey, value⟩ :: right.entries) result := by
  obtain ⟨_, _, isSame, rebalances⟩ :=
    balanceRemovedRight_spec leftOk rightOk address height nodeKey value
  obtain ⟨rfl, rfl⟩ := Prod.mk.inj (Option.some.inj (isSame.symm.trans isResult))
  exact rebalances

/-- The cases of `remove_recursive` at a node, with the subtree below it after the deletion. -/
inductive RemovalCase (address : Nat) (left right : TreeNode K V) (height : Int) (nodeKey : K)
    (value : V) (key : K) (removed : Removed K V) : Prop
  | ofLt (before : key < nodeKey) (below : Removed K V)
      (isBelow : left.removeRecursive key = some below)
      (isEntries : removed.tree.entries =
        below.tree.entries ++ ⟨address, nodeKey, value⟩ :: right.entries) (rotated : Bool)
      (isResult : balanceRemovedLeft address below.tree right height nodeKey value =
        some (removed.tree, rotated))
  | ofChild (same : key = nodeKey)
      (isChild : left = null ∧ removed.tree = right ∨ right = null ∧ removed.tree = left)
  | ofChildren (same : key = nodeKey) (leftNonempty : left ≠ null) (rightNonempty : right ≠ null)
      (last : TreeEntry K V) (isLast : left.findMax = some last) (below : Removed K V)
      (isBelow : left.removeRecursive last.key = some below)
      (isEntries : removed.tree.entries =
        below.tree.entries ++ ⟨address, last.key, last.value⟩ :: right.entries) (rotated : Bool)
      (isResult : balanceRemovedLeft address below.tree right height last.key last.value =
        some (removed.tree, rotated))
  | ofGt (after : nodeKey < key) (below : Removed K V)
      (isBelow : right.removeRecursive key = some below)
      (isEntries : removed.tree.entries =
        left.entries ++ ⟨address, nodeKey, value⟩ :: below.tree.entries) (rotated : Bool)
      (isResult : balanceRemovedRight address left below.tree height nodeKey value =
        some (removed.tree, rotated))

theorem removeRecursive_cases {removed : Removed K V}
    (ordered : (node address left right height nodeKey value).Ordered)
    (ok : (node address left right height nodeKey value).HeightsOk)
    (isRemoved : (node address left right height nodeKey value).removeRecursive key =
      some removed) :
    RemovalCase address left right height nodeKey value key removed := by
  obtain ⟨leftOrdered, rightOrdered, -, -⟩ := ordered_node.mp ordered
  obtain ⟨leftOk, rightOk, -⟩ := ok
  rcases lt_trichotomy key nodeKey with before | rfl | after
  · obtain ⟨below, isBelow, deletes⟩ := removeRecursive_spec leftOrdered leftOk key
    rw [removeRecursive_of_lt before, isBelow, Option.bind_some] at isRemoved
    obtain ⟨⟨result, rotated⟩, isResult, rfl⟩ := Option.map_eq_some_iff.mp isRemoved
    have rebalances := balanceRemovedLeft_rebalances isResult deletes.heightsOk rightOk
    exact RemovalCase.ofLt before below isBelow rebalances.1 rotated isResult
  · by_cases child : left = null ∨ right = null
    · obtain ⟨temp, isTemp, isChild⟩ := removeRecursive_of_child address height key value child
      obtain rfl := Option.some.inj (isTemp.symm.trans isRemoved)
      exact RemovalCase.ofChild rfl isChild
    · obtain ⟨leftNonempty, rightNonempty⟩ := not_or.mp child
      obtain ⟨last, -, isLast, -⟩ := findMax_spec leftNonempty
      obtain ⟨below, isBelow, deletes⟩ := removeRecursive_spec leftOrdered leftOk last.key
      rw [removeRecursive_of_children address height key value leftNonempty rightNonempty, isLast,
        Option.bind_some, isBelow, Option.bind_some] at isRemoved
      obtain ⟨⟨result, rotated⟩, isResult, rfl⟩ := Option.map_eq_some_iff.mp isRemoved
      have rebalances := balanceRemovedLeft_rebalances isResult deletes.heightsOk rightOk
      exact RemovalCase.ofChildren rfl leftNonempty rightNonempty last isLast below isBelow
        rebalances.1 rotated isResult
  · obtain ⟨below, isBelow, deletes⟩ := removeRecursive_spec rightOrdered rightOk key
    rw [removeRecursive_of_gt after, isBelow, Option.bind_some] at isRemoved
    obtain ⟨⟨result, rotated⟩, isResult, rfl⟩ := Option.map_eq_some_iff.mp isRemoved
    have rebalances := balanceRemovedRight_rebalances isResult leftOk deletes.heightsOk
    exact RemovalCase.ofGt after below isBelow rebalances.1 rotated isResult

theorem removeRecursive_ordered {tree : TreeNode K V} (ordered : tree.Ordered)
    (ok : tree.HeightsOk) {removed : Removed K V}
    (isRemoved : tree.removeRecursive key = some removed) : removed.tree.Ordered := by
  obtain ⟨_, isSame, deletes⟩ := removeRecursive_spec ordered ok key
  obtain rfl := Option.some.inj (isSame.symm.trans isRemoved)
  rw [ordered_iff_toList, deletes.toList_eq]
  exact sortedBy_eraseBy (ordered_iff_toList.mp ordered) key

/-- The other nodes keep their entries. -/
theorem removeRecursive_kept {tree : TreeNode K V} (ordered : tree.Ordered) (ok : tree.HeightsOk)
    {removed : Removed K V} (isRemoved : tree.removeRecursive key = some removed)
    {entry : TreeEntry K V} (member : entry ∈ tree.entries) (notKey : entry.key ≠ key)
    (notFreed : tree.freedEntry key ≠ some entry) : entry ∈ removed.tree.entries := by
  induction tree generalizing key removed with
  | null => exact absurd member List.not_mem_nil
  | node address left right height nodeKey value leftIh rightIh =>
      obtain ⟨leftOrdered, rightOrdered, -, -⟩ := ordered_node.mp ordered
      have leftOk := ok.1
      have rightOk := ok.2.1
      rw [entries_node, List.mem_append, List.mem_cons] at member
      cases removeRecursive_cases ordered ok isRemoved with
      | ofLt before below isBelow isEntries =>
          rw [freedEntry_of_lt before] at notFreed
          rw [isEntries, List.mem_append, List.mem_cons]
          exact member.imp_left
            fun inLeft => leftIh leftOrdered leftOk isBelow inLeft notKey notFreed
      | ofChild same isChild =>
          subst same
          have notHere : entry ≠ ⟨address, key, value⟩ := by
            rintro rfl
            exact notKey rfl
          rcases isChild with ⟨rfl, isTree⟩ | ⟨rfl, isTree⟩
          · rw [isTree]
            exact (member.resolve_left List.not_mem_nil).resolve_left notHere
          · rw [isTree]
            exact member.resolve_right fun rest => rest.elim notHere List.not_mem_nil
      | ofChildren same leftNonempty rightNonempty last isLast below isBelow isEntries =>
          subst same
          rw [freedEntry_of_children leftNonempty rightNonempty, isLast] at notFreed
          rw [isEntries, List.mem_append, List.mem_cons]
          rcases member with inLeft | rfl | inRight
          · left
            have lastFreed := freedEntry_findMax leftOrdered isLast
            apply leftIh leftOrdered leftOk isBelow inLeft
            · intro same
              obtain ⟨_, front, isSame, leftEntries⟩ := findMax_spec leftNonempty
              obtain rfl := Option.some.inj (isSame.symm.trans isLast)
              have isEntry := leftOrdered.eq_of_key_eq inLeft (by rw [leftEntries]; simp) same
              exact notFreed (congrArg some isEntry.symm)
            · rw [lastFreed]
              exact notFreed
          · exact absurd rfl notKey
          · exact Or.inr (Or.inr inRight)
      | ofGt after below isBelow isEntries =>
          rw [freedEntry_of_gt after] at notFreed
          rw [isEntries, List.mem_append, List.mem_cons]
          exact member.imp_right fun rest => rest.imp_right
            fun inRight => rightIh rightOrdered rightOk isBelow inRight notKey notFreed

/-! ## Other values -/

section MapValues

variable {W : Type*} (change : Nat → V → W)

omit [LinearOrder K] in
theorem mapValues_eq_null {tree : TreeNode K V} : tree.mapValues change = null ↔ tree = null := by
  cases tree with
  | null => exact iff_of_true rfl rfl
  | node address left right height key value => exact iff_of_false nofun nofun

omit [LinearOrder K] in
theorem findMax_mapValues (tree : TreeNode K V) :
    (tree.mapValues change).findMax =
      tree.findMax.map fun entry =>
        ⟨entry.address, entry.key, change entry.address entry.value⟩ := by
  induction tree with
  | null => rfl
  | node address left right height key value _ rightIh =>
      cases right with
      | null => rfl
      | node _ _ _ _ _ _ => exact rightIh

omit [LinearOrder K] in
theorem followsChild_mapValues {child sibling : TreeNode K V} :
    (child.mapValues change).FollowsChild (sibling.mapValues change) ↔
      child.FollowsChild sibling := by
  have even : (sibling.mapValues change).EvenChildren ↔ sibling.EvenChildren := by
    cases sibling with
    | null => exact Iff.rfl
    | node address left right height key value =>
        simp only [EvenChildren, mapValues, right_node, left_node, height_mapValues]
  rw [FollowsChild, FollowsChild, even, height_mapValues, height_mapValues]

theorem shrinks_mapValues {tree : TreeNode K V} {key : K} :
    (tree.mapValues change).Shrinks key ↔ tree.Shrinks key := by
  induction tree generalizing key with
  | null => exact Iff.rfl
  | node address left right height nodeKey value leftIh rightIh =>
      rw [mapValues, Shrinks, Shrinks]
      simp only [leftIh, rightIh, followsChild_mapValues, mapValues_eq_null, findMax_mapValues,
        Option.mem_map, forall_exists_index, and_imp, forall_apply_eq_imp_iff₂]

end MapValues

end Definitions

section Stacks

variable [LinearOrder K] {way : Way} {inside : K → Bool} {address : Nat}
  {left right : TreeNode K (List O)} {height : Int} {key cur : K} {value : List O}

/-- The links of a deletion, by the side on which it goes on. -/
theorem removeLinks_of_lt (before : cur < key) :
    (node address left right height key value).removeLinks cur =
      left.removeLinks cur ++ (left.removeRecursive cur).elim [] fun removed =>
        balanceRemovedLeftLinks address removed.tree right height key value := by
  rw [removeLinks.eq_def]
  simp only [gt_iff_lt, if_neg before.not_gt, if_neg before.ne]

theorem removeLinks_of_gt (after : key < cur) :
    (node address left right height key value).removeLinks cur =
      right.removeLinks cur ++ (right.removeRecursive cur).elim [] fun removed =>
        balanceRemovedRightLinks address left removed.tree height key value := by
  rw [removeLinks.eq_def]
  simp only [gt_iff_lt, if_pos after]

theorem removeLinks_of_children (leftNonempty : left ≠ null) (rightNonempty : right ≠ null)
    {last : TreeEntry K (List O)} (isLast : left.findMax = some last) :
    (node address left right height key value).removeLinks key =
      left.removeLinks last.key ++ (left.removeRecursive last.key).elim [] fun removed =>
        balanceRemovedLeftLinks address removed.tree right height last.key last.value := by
  cases left with
  | null => exact absurd rfl leftNonempty
  | node _ _ _ _ _ _ =>
      cases right with
      | null => exact absurd rfl rightNonempty
      | node _ _ _ _ _ _ => simp [removeLinks.eq_def (node address _ _ height key value), isLast]

/-- An iterator at this key stays right in the deletion of another key: the freed node is neither
its current one nor on its stack, the far bound does not tell the predecessor from the key that it
replaces, and no rotation turns a link between a node of the iterator and a later one. -/
structure StackKept (way : Way) (inside : K → Bool) (tree : TreeNode K (List O)) (key cur : K) :
    Prop where
  notStacked : ∀ freed ∈ tree.freedEntry key,
    freed.address ∉ pointers (tree.search way ⟨cur, true⟩ inside [])
  alike : ∀ freed ∈ tree.freedEntry key, way.Before cur key → inside key = inside freed.key
  spares : Spares way inside (tree.removeLinks key)
    (pointers (tree.search way ⟨cur, true⟩ inside []))

/-- The search for a stored key ends at its node. -/
theorem mem_pointers_search {tree : TreeNode K (List O)} (ordered : tree.Ordered)
    {entry : TreeEntry K (List O)} (member : entry ∈ tree.entries) :
    entry.address ∈ pointers (tree.search way ⟨entry.key, true⟩ inside []) := by
  induction tree with
  | null => exact absurd member List.not_mem_nil
  | node address left right height key value leftIh rightIh =>
      obtain ⟨leftOrdered, rightOrdered, below, above⟩ := ordered_node.mp ordered
      rw [entries_node, List.mem_append, List.mem_cons] at member
      rcases member with inLeft | rfl | inRight
      · exact pointers_search_left (below entry inLeft) (leftIh leftOrdered inLeft)
      · rw [search_self]
        exact List.mem_cons_self
      · exact pointers_search_right (above entry inRight) (rightIh rightOrdered inRight)

theorem pointers_search_removeRecursive
    (downward : ∀ key other, way.Before key other → inside other = true → inside key = true)
    {tree : TreeNode K (List O)} (ordered : tree.Ordered) (ok : tree.HeightsOk)
    {removed : Removed K (List O)} (isRemoved : tree.removeRecursive key = some removed)
    (present : ∃ entry ∈ tree.entries, entry.key = cur) (notKey : cur ≠ key)
    (kept : StackKept way inside tree key cur) :
    pointers (removed.tree.search way ⟨cur, true⟩ inside []) =
      pointers (tree.search way ⟨cur, true⟩ inside []) := by
  induction tree generalizing key removed with
  | null =>
      obtain ⟨entry, member, -⟩ := present
      exact absurd member List.not_mem_nil
  | node address left right height nodeKey value leftIh rightIh =>
      obtain ⟨leftOrdered, rightOrdered, below, above⟩ := ordered_node.mp ordered
      have leftOk := ok.1
      have rightOk := ok.2.1
      have removedOrdered := removeRecursive_ordered ordered ok isRemoved
      obtain ⟨entry, member, rfl⟩ := present
      rw [entries_node, List.mem_append, List.mem_cons] at member
      have inLeft (before : entry.key < nodeKey) : entry ∈ left.entries := by
        rcases member with inLeft | rfl | inRight
        · exact inLeft
        · exact absurd before (lt_irrefl _)
        · exact absurd before (above entry inRight).asymm
      have inRight (after : nodeKey < entry.key) : entry ∈ right.entries := by
        rcases member with inLeft | rfl | inRight
        · exact absurd after (below entry inLeft).asymm
        · exact absurd after (lt_irrefl _)
        · exact inRight
      cases removeRecursive_cases ordered ok isRemoved with
      | ofLt before removedLeft isBelow isEntries rotated isResult =>
          obtain ⟨notStacked, alike, spares⟩ := kept
          rw [freedEntry_of_lt before] at notStacked alike
          rw [removeLinks_of_lt before, isBelow, Option.elim_some, spares_append] at spares
          have onPath : pointers ((node address removedLeft.tree right height nodeKey value).search
              way ⟨entry.key, true⟩ inside []) = pointers ((node address left right height nodeKey
                value).search way ⟨entry.key, true⟩ inside []) := by
            apply pointers_search_congr
            · intro onLeft
              exact leftIh leftOrdered leftOk isBelow ⟨entry, inLeft onLeft, rfl⟩ notKey
                ⟨fun freed isFreed stacked =>
                  notStacked freed isFreed (pointers_search_left onLeft stacked), alike,
                  spares.1.mono (pointers_search_left onLeft)⟩
            · exact fun _ => rfl
          have spared := spares.2
          rw [Ordered, isEntries] at removedOrdered
          rw [← onPath] at spared ⊢
          exact (samePath_balanceRemovedLeft downward removedOrdered isResult spared).samePointers
      | ofChild same isChild =>
          subst same
          obtain ⟨notStacked, -, -⟩ := kept
          have child : left = null ∨ right = null := isChild.imp And.left And.left
          have notStacked := notStacked _ (freedEntry_of_child child)
          rw [pointers_search_node] at notStacked ⊢
          rcases isChild with ⟨rfl, isTree⟩ | ⟨rfl, isTree⟩
          · have after : key < entry.key :=
              lt_of_le_of_ne (not_lt.mp fun before => List.not_mem_nil (inLeft before)) notKey.symm
            rw [isTree]
            cases way with
            | forward =>
                have isSecond : Way.forward.Before key entry.key := after
                rw [if_neg isSecond.asymm, if_pos isSecond]
                rfl
            | reverse =>
                have isFirst : Way.reverse.Before entry.key key := after
                rw [if_pos isFirst] at notStacked ⊢
                have notInside : ¬ inside key = true := by
                  intro isInside
                  rw [if_pos isInside] at notStacked
                  exact notStacked (List.mem_append_right _ List.mem_cons_self)
                rw [if_neg notInside, List.append_nil]
                rfl
          · have before : entry.key < key :=
              lt_of_le_of_ne (not_lt.mp fun after => List.not_mem_nil (inRight after)) notKey
            rw [isTree]
            cases way with
            | forward =>
                have isFirst : Way.forward.Before entry.key key := before
                rw [if_pos isFirst] at notStacked ⊢
                have notInside : ¬ inside key = true := by
                  intro isInside
                  rw [if_pos isInside] at notStacked
                  exact notStacked (List.mem_append_right _ List.mem_cons_self)
                rw [if_neg notInside, List.append_nil]
                rfl
            | reverse =>
                have isSecond : Way.reverse.Before key entry.key := before
                rw [if_neg isSecond.asymm, if_pos isSecond]
                rfl
      | ofChildren same leftNonempty rightNonempty last isLast removedLeft isBelow isEntries rotated
          isResult =>
          subst same
          obtain ⟨notStacked, alike, spares⟩ := kept
          rw [freedEntry_of_children leftNonempty rightNonempty] at notStacked alike
          rw [removeLinks_of_children leftNonempty rightNonempty isLast, isBelow, Option.elim_some,
            spares_append] at spares
          have lastNotStacked := notStacked last isLast
          have sameInside := alike last isLast
          obtain ⟨found, front, isFound, leftEntries⟩ := findMax_spec leftNonempty
          obtain rfl : found = last := Option.some.inj (isFound.symm.trans isLast)
          have foundInLeft : found ∈ left.entries := by rw [leftEntries]; simp
          have lastBelow := below found foundInLeft
          have onPath : pointers ((node address removedLeft.tree right height found.key
              found.value).search way ⟨entry.key, true⟩ inside []) = pointers ((node address left
                right height key value).search way ⟨entry.key, true⟩ inside []) := by
            rw [pointers_search_node, pointers_search_node]
            rcases lt_or_gt_of_ne notKey with before | after
            · have beforeLast : entry.key < found.key := by
                have sorted := leftOrdered
                rw [Ordered, leftEntries, SortedBy, List.pairwise_append] at sorted
                have inLeft := inLeft before
                rw [leftEntries, List.mem_append, List.mem_singleton] at inLeft
                rcases inLeft with inFront | rfl
                · exact sorted.2.2 entry inFront found List.mem_cons_self
                · exact absurd (pointers_search_left before
                    (mem_pointers_search leftOrdered foundInLeft)) lastNotStacked
              have isFreed := freedEntry_findMax leftOrdered isLast
              have sameLeft : pointers (removedLeft.tree.search way ⟨entry.key, true⟩ inside []) =
                  pointers (left.search way ⟨entry.key, true⟩ inside []) := by
                apply leftIh leftOrdered leftOk isBelow ⟨entry, inLeft before, rfl⟩ beforeLast.ne
                refine ⟨?_, ?_, spares.1.mono (pointers_search_left before)⟩
                · rw [isFreed, ← isLast]
                  exact fun freed isFreed stacked =>
                    notStacked freed isFreed (pointers_search_left before stacked)
                · rw [isFreed]
                  rintro _ ⟨⟩ -
                  rfl
              cases way with
              | forward =>
                  have isFirst : Way.forward.Before entry.key key := before
                  rw [if_pos (show Way.forward.Before entry.key found.key from beforeLast),
                    if_pos isFirst, sameInside isFirst]
                  exact congrArg (· ++ _) sameLeft
              | reverse =>
                  have isSecond : Way.reverse.Before key entry.key := before
                  have lastSecond : Way.reverse.Before found.key entry.key := beforeLast
                  rw [if_neg isSecond.asymm, if_pos isSecond, if_neg lastSecond.asymm,
                    if_pos lastSecond]
                  exact sameLeft
            · cases way with
              | forward =>
                  have isSecond : Way.forward.Before key entry.key := after
                  have lastSecond : Way.forward.Before found.key entry.key := lastBelow.trans after
                  rw [if_neg isSecond.asymm, if_pos isSecond, if_neg lastSecond.asymm,
                    if_pos lastSecond]
                  rfl
              | reverse =>
                  have isFirst : Way.reverse.Before entry.key key := after
                  have lastFirst : Way.reverse.Before entry.key found.key := lastBelow.trans after
                  rw [if_pos lastFirst, if_pos isFirst, sameInside isFirst]
                  rfl
          have spared := spares.2
          rw [Ordered, isEntries] at removedOrdered
          rw [← onPath] at spared ⊢
          exact (samePath_balanceRemovedLeft downward removedOrdered isResult spared).samePointers
      | ofGt after removedRight isBelow isEntries rotated isResult =>
          obtain ⟨notStacked, alike, spares⟩ := kept
          rw [freedEntry_of_gt after] at notStacked alike
          rw [removeLinks_of_gt after, isBelow, Option.elim_some, spares_append] at spares
          have onPath : pointers ((node address left removedRight.tree height nodeKey value).search
              way ⟨entry.key, true⟩ inside []) = pointers ((node address left right height nodeKey
                value).search way ⟨entry.key, true⟩ inside []) := by
            apply pointers_search_congr
            · exact fun _ => rfl
            · intro onRight
              exact rightIh rightOrdered rightOk isBelow ⟨entry, inRight onRight, rfl⟩ notKey
                ⟨fun freed isFreed stacked =>
                  notStacked freed isFreed (pointers_search_right onRight stacked), alike,
                  spares.1.mono (pointers_search_right onRight)⟩
          have spared := spares.2
          rw [Ordered, isEntries] at removedOrdered
          rw [← onPath] at spared ⊢
          exact (samePath_balanceRemovedRight downward removedOrdered isResult spared).samePointers

end Stacks

end TreeNode

end Pmgd
