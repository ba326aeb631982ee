import Pmgd.IndexChanges

/-!
# Rotations under an iterator

A rotation turns the link between a node and its child round.  The stack of an iterator stays
right unless one of its nodes gains or loses the node at the other end of the link, with what
comes after it.
-/

namespace Pmgd

open SortedInsert

variable {K V O : Type*}

/-! ## Links -/

/-- A link that a rotation turns round, between the node of a lower and the node of an upper key. -/
structure TurnedLink (K : Type*) where
  lowerNode : Nat
  lower : K
  upperNode : Nat
  upper : K
  deriving DecidableEq, Repr

/-- The node at the end of a link that a walk reaches first. -/
def Way.nearEnd (way : Way) (link : TurnedLink K) : Nat :=
  match way with
  | .forward => link.lowerNode
  | .reverse => link.upperNode

/-- The key at the other end. -/
def Way.farEnd (way : Way) (link : TurnedLink K) : K :=
  match way with
  | .forward => link.upper
  | .reverse => link.lower

/-- None of the links leads from one of these nodes to a later one inside the bound. -/
def Spares (way : Way) (inside : K → Bool) (links : List (TurnedLink K)) (nodes : List Nat) :
    Prop :=
  ∀ link ∈ links, way.nearEnd link ∈ nodes → inside (way.farEnd link) = false

instance (way : Way) (inside : K → Bool) (links : List (TurnedLink K)) (nodes : List Nat) :
    Decidable (Spares way inside links nodes) :=
  inferInstanceAs (Decidable (∀ link ∈ links, way.nearEnd link ∈ nodes →
    inside (way.farEnd link) = false))

theorem spares_append {way : Way} {inside : K → Bool} {first second : List (TurnedLink K)}
    {nodes : List Nat} :
    Spares way inside (first ++ second) nodes ↔
      Spares way inside first nodes ∧ Spares way inside second nodes :=
  List.forall_mem_append

theorem Spares.mono {way : Way} {inside : K → Bool} {links : List (TurnedLink K)}
    {nodes others : List Nat} (spares : Spares way inside links nodes) (subset : others ⊆ nodes) :
    Spares way inside links others :=
  fun link isLink isNear => spares link isLink (subset isNear)

namespace TreeNode

def linkBetween : TreeNode K V → TreeNode K V → List (TurnedLink K)
  | node lowerNode _ _ _ lower _, node upperNode _ _ _ upper _ =>
      [⟨lowerNode, lower, upperNode, upper⟩]
  | _, _ => []

/-- What `left_rotate` turns. -/
def leftRotateLinks (root : TreeNode K V) : List (TurnedLink K) :=
  root.linkBetween root.right

def rightRotateLinks (root : TreeNode K V) : List (TurnedLink K) :=
  root.left.linkBetween root

def leftrightRotateLinks (root : TreeNode K V) : List (TurnedLink K) :=
  root.right.rightRotateLinks ++ root.linkBetween root.right.left

def rightleftRotateLinks (root : TreeNode K V) : List (TurnedLink K) :=
  root.left.leftRotateLinks ++ root.left.right.linkBetween root

section LinearOrder

variable [LinearOrder K]

/-- What rebalancing after an insertion on the left turns. -/
def balanceAddedLeftLinks (key : K) (address : Nat) (left right : TreeNode K V) (height : Int)
    (nodeKey : K) (value : V) : List (TurnedLink K) :=
  let curr := node address left right height nodeKey value
  if left.height - right.height = 2 then
    match left with
    | null => []
    | node _ _ _ _ leftKey _ =>
        if key > leftKey then curr.rightleftRotateLinks else curr.rightRotateLinks
  else
    []

def balanceAddedRightLinks (key : K) (address : Nat) (left right : TreeNode K V) (height : Int)
    (nodeKey : K) (value : V) : List (TurnedLink K) :=
  let curr := node address left right height nodeKey value
  if left.height - right.height = -2 then
    match right with
    | null => []
    | node _ _ _ _ rightKey _ =>
        if key < rightKey then curr.leftrightRotateLinks else curr.leftRotateLinks
  else
    []

/-- The links that `add_recursive` turns. -/
def addLinks (key : K) (fresh : Nat) (initial : V) : TreeNode K V → List (TurnedLink K)
  | null => []
  | node address left right height nodeKey value =>
      if key = nodeKey then
        []
      else if key < nodeKey then
        left.addLinks key fresh initial ++
          (left.addRecursive key fresh initial).elim [] fun added =>
            balanceAddedLeftLinks key address added.tree right height nodeKey value
      else
        right.addLinks key fresh initial ++
          (right.addRecursive key fresh initial).elim [] fun added =>
            balanceAddedRightLinks key address left added.tree height nodeKey value

end LinearOrder

/-- What rebalancing after a deletion on the right turns. -/
def balanceRemovedRightLinks (address : Nat) (left right : TreeNode K V) (height : Int) (key : K)
    (value : V) : List (TurnedLink K) :=
  let curr := node address left right height key value
  if left.height - right.height = 2 then
    match left with
    | null => []
    | node _ outer inner _ _ _ =>
        if outer.height > inner.height then curr.rightRotateLinks else curr.rightleftRotateLinks
  else
    []

def balanceRemovedLeftLinks (address : Nat) (left right : TreeNode K V) (height : Int) (key : K)
    (value : V) : List (TurnedLink K) :=
  let curr := node address left right height key value
  if left.height - right.height = -2 then
    match right with
    | null => []
    | node _ inner outer _ _ _ =>
        if inner.height > outer.height then curr.leftrightRotateLinks else curr.leftRotateLinks
  else
    []

/-- The links that `remove_recursive` turns. -/
def removeLinks [LinearOrder K] : TreeNode K V → K → List (TurnedLink K)
  | null, _ => []
  | node address left right height nodeKey value, key =>
      if key > nodeKey then
        right.removeLinks key ++
          (right.removeRecursive key).elim [] fun removed =>
            balanceRemovedRightLinks address left removed.tree height nodeKey value
      else if key = nodeKey then
        match left, right with
        | null, _ | _, null => []
        | _, _ =>
            left.findMax.elim [] fun toReplace =>
              left.removeLinks toReplace.key ++
                (left.removeRecursive toReplace.key).elim [] fun removed =>
                  balanceRemovedLeftLinks address removed.tree right height toReplace.key
                    toReplace.value
      else
        left.removeLinks key ++
          (left.removeRecursive key).elim [] fun removed =>
            balanceRemovedLeftLinks address removed.tree right height nodeKey value

/-! ## Stacks -/

section Stacks

variable [LinearOrder K] {way : Way} {inside : K → Bool} {address : Nat}
  {left right : TreeNode K (List O)} {height : Int} {key cur : K} {value : List O}

theorem pointers_search_left (before : cur < key) :
    pointers (left.search way ⟨cur, true⟩ inside []) ⊆
      pointers ((node address left right height key value).search way ⟨cur, true⟩ inside []) := by
  rw [pointers_search_node]
  cases way with
  | forward =>
      rw [if_pos (show Way.forward.Before cur key from before)]
      exact List.subset_append_left _ _
  | reverse =>
      have isSecond : Way.reverse.Before key cur := before
      rw [if_neg isSecond.asymm, if_pos isSecond]
      exact List.Subset.refl _

theorem pointers_search_right (after : key < cur) :
    pointers (right.search way ⟨cur, true⟩ inside []) ⊆
      pointers ((node address left right height key value).search way ⟨cur, true⟩ inside []) := by
  rw [pointers_search_node]
  cases way with
  | forward =>
      have isSecond : Way.forward.Before key cur := after
      rw [if_neg isSecond.asymm, if_pos isSecond]
      exact List.Subset.refl _
  | reverse =>
      rw [if_pos (show Way.reverse.Before cur key from after)]
      exact List.subset_append_left _ _

end Stacks

section Rotations

variable [LinearOrder K] {way : Way} {inside : K → Bool} {cur : K}

section Turned

variable {lowerNode upperNode : Nat} {outer inner right : TreeNode K (List O)} {lower upper : K}
  {lowerHeight upperHeight newLower newUpper : Int} {lowerValue upperValue : List O}

/-- The nodes above a key are the same, or the link leads from one of them to a later node. -/
theorem search_turned
    (downward : ∀ key other, way.Before key other → inside other = true → inside key = true)
    (before : lower < upper) :
    let atUpper := node upperNode (node lowerNode outer inner lowerHeight lower lowerValue) right
      upperHeight upper upperValue
    let atLower := node lowerNode outer (node upperNode inner right newUpper upper upperValue)
      newLower lower lowerValue
    let link : TurnedLink K := ⟨lowerNode, lower, upperNode, upper⟩
    pointers (atLower.search way ⟨cur, true⟩ inside []) =
        pointers (atUpper.search way ⟨cur, true⟩ inside []) ∨
      way.nearEnd link ∈ pointers (atUpper.search way ⟨cur, true⟩ inside []) ∧
        way.nearEnd link ∈ pointers (atLower.search way ⟨cur, true⟩ inside []) ∧
        inside (way.farEnd link) = true := by
  intro atUpper atLower link
  cases way with
  | forward =>
      simp only [atUpper, atLower, link, pointers_search_node, Way.first, Way.second, Way.Before,
        Way.nearEnd, Way.farEnd, left_node, right_node]
      have isInside := downward lower upper before
      rcases lt_trichotomy cur lower with below | rfl | above
      · grind
      · grind
      · grind
  | reverse =>
      simp only [atUpper, atLower, link, pointers_search_node, Way.first, Way.second, Way.Before,
        Way.nearEnd, Way.farEnd, left_node, right_node]
      have isInside := downward upper lower before
      rcases lt_trichotomy cur upper with below | rfl | above
      · grind
      · grind
      · grind

end Turned

/-- The same entries, and the same nodes above a key. -/
structure SamePath (way : Way) (inside : K → Bool) (cur : K) (tree result : TreeNode K (List O)) :
    Prop where
  sameEntries : result.entries = tree.entries
  samePointers : pointers (result.search way ⟨cur, true⟩ inside []) =
    pointers (tree.search way ⟨cur, true⟩ inside [])

theorem SamePath.trans {tree middle result : TreeNode K (List O)}
    (first : SamePath way inside cur tree middle) (second : SamePath way inside cur middle result) :
    SamePath way inside cur tree result :=
  ⟨second.sameEntries.trans first.sameEntries, second.samePointers.trans first.samePointers⟩

theorem SamePath.ordered {tree result : TreeNode K (List O)}
    (samePath : SamePath way inside cur tree result) (ordered : tree.Ordered) : result.Ordered := by
  rw [Ordered, samePath.sameEntries]
  exact ordered

theorem samePath_updateHeight (tree : TreeNode K (List O)) :
    SamePath way inside cur tree tree.updateHeight := by
  cases tree with
  | null => exact ⟨rfl, rfl⟩
  | node address left right height key value =>
      exact ⟨rfl, pointers_search_congr (fun _ => rfl) (fun _ => rfl) _ _ _ _ _⟩

omit [LinearOrder K] in
/-- The first half of a double rotation, seen from the node above. -/
theorem rightRotate_right {V : Type*} {right turned : TreeNode K V}
    (isTurned : right.rightRotate = some turned) (address : Nat) (left : TreeNode K V) (height : Int)
    (key : K) (value : V) :
    (node address left turned height key value).entries =
        (node address left right height key value).entries ∧
      (node address left turned height key value).leftRotateLinks =
        (node address left right height key value).linkBetween right.left := by
  cases right with
  | null => cases isTurned
  | node _ inner _ _ _ _ =>
      cases inner with
      | null => cases isTurned
      | node _ _ _ _ _ _ =>
          obtain rfl := Option.some.inj isTurned
          exact ⟨by simp, rfl⟩

omit [LinearOrder K] in
theorem leftRotate_left {V : Type*} {left turned : TreeNode K V}
    (isTurned : left.leftRotate = some turned) (address : Nat) (right : TreeNode K V) (height : Int)
    (key : K) (value : V) :
    (node address turned right height key value).entries =
        (node address left right height key value).entries ∧
      (node address turned right height key value).rightRotateLinks =
        left.right.linkBetween (node address left right height key value) := by
  cases left with
  | null => cases isTurned
  | node _ _ inner _ _ _ =>
      cases inner with
      | null => cases isTurned
      | node _ _ _ _ _ _ =>
          obtain rfl := Option.some.inj isTurned
          exact ⟨by simp, rfl⟩

section Rotate

variable {tree result : TreeNode K (List O)}
  (downward : ∀ key other, way.Before key other → inside other = true → inside key = true)
  (ordered : tree.Ordered)

include downward ordered

theorem samePath_rightRotate (isResult : tree.rightRotate = some result)
    (spares : Spares way inside tree.rightRotateLinks
      (pointers (tree.search way ⟨cur, true⟩ inside []))) :
    SamePath way inside cur tree result := by
  cases tree with
  | null => cases isResult
  | node upperNode left right upperHeight upper upperValue =>
      cases left with
      | null => cases isResult
      | node lowerNode outer inner lowerHeight lower lowerValue =>
          obtain rfl := Option.some.inj isResult
          have before : lower < upper :=
            (ordered_node.mp ordered).2.2.1 ⟨lowerNode, lower, lowerValue⟩ (by simp)
          refine ⟨by simp, ?_⟩
          rcases search_turned downward before with same | ⟨isNear, -, isInside⟩
          · exact same
          · rw [spares _ List.mem_cons_self isNear] at isInside
            cases isInside

theorem samePath_leftRotate (isResult : tree.leftRotate = some result)
    (spares : Spares way inside tree.leftRotateLinks
      (pointers (tree.search way ⟨cur, true⟩ inside []))) :
    SamePath way inside cur tree result := by
  cases tree with
  | null => cases isResult
  | node lowerNode left right lowerHeight lower lowerValue =>
      cases right with
      | null => cases isResult
      | node upperNode inner outer upperHeight upper upperValue =>
          obtain rfl := Option.some.inj isResult
          have before : lower < upper :=
            (ordered_node.mp ordered).2.2.2 ⟨upperNode, upper, upperValue⟩ (by simp)
          refine ⟨by simp, ?_⟩
          rcases search_turned downward before with same | ⟨-, isNear, isInside⟩
          · exact same.symm
          · rw [spares _ List.mem_cons_self isNear] at isInside
            cases isInside

theorem samePath_leftrightRotate (isResult : tree.leftrightRotate = some result)
    (spares : Spares way inside tree.leftrightRotateLinks
      (pointers (tree.search way ⟨cur, true⟩ inside []))) :
    SamePath way inside cur tree result := by
  cases tree with
  | null => cases isResult
  | node address left right height key value =>
      have rightOrdered := (ordered_node.mp ordered).2.1
      obtain ⟨turned, isTurned, isResult⟩ := Option.bind_eq_some_iff.mp isResult
      obtain ⟨sparesChild, sparesRoot⟩ := spares_append.mp spares
      have onPath (after : key < cur) : SamePath way inside cur right turned :=
        samePath_rightRotate downward rightOrdered isTurned
          (sparesChild.mono (pointers_search_right after))
      obtain ⟨sameEntries, sameLinks⟩ := rightRotate_right isTurned address left height key value
      have first : SamePath way inside cur (node address left right height key value)
          (node address left turned height key value) :=
        ⟨sameEntries, pointers_search_congr (fun _ => rfl)
          (fun after => (onPath after).samePointers) _ _ _ _ _⟩
      refine first.trans (samePath_leftRotate downward (first.ordered ordered) isResult ?_)
      rw [first.samePointers, sameLinks]
      exact sparesRoot

theorem samePath_rightleftRotate (isResult : tree.rightleftRotate = some result)
    (spares : Spares way inside tree.rightleftRotateLinks
      (pointers (tree.search way ⟨cur, true⟩ inside []))) :
    SamePath way inside cur tree result := by
  cases tree with
  | null => cases isResult
  | node address left right height key value =>
      have leftOrdered := (ordered_node.mp ordered).1
      obtain ⟨turned, isTurned, isResult⟩ := Option.bind_eq_some_iff.mp isResult
      obtain ⟨sparesChild, sparesRoot⟩ := spares_append.mp spares
      have onPath (before : cur < key) : SamePath way inside cur left turned :=
        samePath_leftRotate downward leftOrdered isTurned
          (sparesChild.mono (pointers_search_left before))
      obtain ⟨sameEntries, sameLinks⟩ := leftRotate_left isTurned address right height key value
      have first : SamePath way inside cur (node address left right height key value)
          (node address turned right height key value) :=
        ⟨sameEntries, pointers_search_congr (fun before => (onPath before).samePointers)
          (fun _ => rfl) _ _ _ _ _⟩
      refine first.trans (samePath_rightRotate downward (first.ordered ordered) isResult ?_)
      rw [first.samePointers, sameLinks]
      exact sparesRoot

end Rotate

/-! ## Rebalancing -/

section Balance

variable {address : Nat} {left right : TreeNode K (List O)} {height : Int} {key : K}
  {value : List O} {result : TreeNode K (List O)} {rotated : Bool}
  (downward : ∀ key other, way.Before key other → inside other = true → inside key = true)
  (ordered : (node address left right height key value).Ordered)

include downward ordered

theorem samePath_balanceAddedLeft {newKey : K}
    (isResult : balanceAddedLeft newKey address left right height key value =
      some (result, rotated))
    (spares : Spares way inside (balanceAddedLeftLinks newKey address left right height key value)
      (pointers ((node address left right height key value).search way ⟨cur, true⟩ inside []))) :
    SamePath way inside cur (node address left right height key value) result := by
  unfold balanceAddedLeft at isResult
  unfold balanceAddedLeftLinks at spares
  split_ifs at isResult spares with tooLarge
  · cases left with
    | null => cases isResult
    | node _ _ _ _ leftKey _ =>
        obtain ⟨turned, isTurned, same⟩ := Option.map_eq_some_iff.mp isResult
        obtain ⟨rfl, -⟩ := Prod.mk.inj same
        dsimp only at spares
        split_ifs at isTurned spares
        · exact (samePath_rightleftRotate downward ordered isTurned spares).trans
            (samePath_updateHeight turned)
        · exact (samePath_rightRotate downward ordered isTurned spares).trans
            (samePath_updateHeight turned)
  · obtain ⟨rfl, -⟩ := Prod.mk.inj (Option.some.inj isResult)
    exact samePath_updateHeight _

theorem samePath_balanceAddedRight {newKey : K}
    (isResult : balanceAddedRight newKey address left right height key value =
      some (result, rotated))
    (spares : Spares way inside (balanceAddedRightLinks newKey address left right height key value)
      (pointers ((node address left right height key value).search way ⟨cur, true⟩ inside []))) :
    SamePath way inside cur (node address left right height key value) result := by
  unfold balanceAddedRight at isResult
  unfold balanceAddedRightLinks at spares
  split_ifs at isResult spares with tooLarge
  · cases right with
    | null => cases isResult
    | node _ _ _ _ rightKey _ =>
        obtain ⟨turned, isTurned, same⟩ := Option.map_eq_some_iff.mp isResult
        obtain ⟨rfl, -⟩ := Prod.mk.inj same
        dsimp only at spares
        split_ifs at isTurned spares
        · exact (samePath_leftrightRotate downward ordered isTurned spares).trans
            (samePath_updateHeight turned)
        · exact (samePath_leftRotate downward ordered isTurned spares).trans
            (samePath_updateHeight turned)
  · obtain ⟨rfl, -⟩ := Prod.mk.inj (Option.some.inj isResult)
    exact samePath_updateHeight _

theorem samePath_balanceRemovedRight
    (isResult : balanceRemovedRight address left right height key value = some (result, rotated))
    (spares : Spares way inside (balanceRemovedRightLinks address left right height key value)
      (pointers ((node address left right height key value).search way ⟨cur, true⟩ inside []))) :
    SamePath way inside cur (node address left right height key value) result := by
  unfold balanceRemovedRight at isResult
  unfold balanceRemovedRightLinks at spares
  split_ifs at isResult spares with tooLarge
  · cases left with
    | null => cases isResult
    | node _ outer inner _ _ _ =>
        obtain ⟨turned, isTurned, same⟩ := Option.map_eq_some_iff.mp isResult
        obtain ⟨rfl, -⟩ := Prod.mk.inj same
        dsimp only at spares
        split_ifs at isTurned spares
        · exact (samePath_rightRotate downward ordered isTurned spares).trans
            (samePath_updateHeight turned)
        · exact (samePath_rightleftRotate downward ordered isTurned spares).trans
            (samePath_updateHeight turned)
  · obtain ⟨rfl, -⟩ := Prod.mk.inj (Option.some.inj isResult)
    exact samePath_updateHeight _

theorem samePath_balanceRemovedLeft
    (isResult : balanceRemovedLeft address left right height key value = some (result, rotated))
    (spares : Spares way inside (balanceRemovedLeftLinks address left right height key value)
      (pointers ((node address left right height key value).search way ⟨cur, true⟩ inside []))) :
    SamePath way inside cur (node address left right height key value) result := by
  unfold balanceRemovedLeft at isResult
  unfold balanceRemovedLeftLinks at spares
  split_ifs at isResult spares with tooLarge
  · cases right with
    | null => cases isResult
    | node _ inner outer _ _ _ =>
        obtain ⟨turned, isTurned, same⟩ := Option.map_eq_some_iff.mp isResult
        obtain ⟨rfl, -⟩ := Prod.mk.inj same
        dsimp only at spares
        split_ifs at isTurned spares
        · exact (samePath_leftrightRotate downward ordered isTurned spares).trans
            (samePath_updateHeight turned)
        · exact (samePath_leftRotate downward ordered isTurned spares).trans
            (samePath_updateHeight turned)
  · obtain ⟨rfl, -⟩ := Prod.mk.inj (Option.some.inj isResult)
    exact samePath_updateHeight _

end Balance

/-- An insertion that spares the nodes above a key that is there leaves them where they are. -/
theorem pointers_search_addRecursive
    (downward : ∀ key other, way.Before key other → inside other = true → inside key = true)
    {tree : TreeNode K (List O)} (ordered : tree.Ordered) (ok : tree.HeightsOk) {newKey : K}
    {fresh : Nat} {initial : List O} {added : Added K (List O)}
    (isAdded : tree.addRecursive newKey fresh initial = some added)
    (present : ∃ entry ∈ tree.entries, entry.key = cur)
    (spares : Spares way inside (tree.addLinks newKey fresh initial)
      (pointers (tree.search way ⟨cur, true⟩ inside []))) :
    pointers (added.tree.search way ⟨cur, true⟩ inside []) =
      pointers (tree.search way ⟨cur, true⟩ inside []) := by
  induction tree generalizing added with
  | null =>
      obtain ⟨entry, member, -⟩ := present
      exact absurd member List.not_mem_nil
  | node address left right height nodeKey value leftIh rightIh =>
      obtain ⟨leftOrdered, rightOrdered, below, above⟩ := ordered_node.mp ordered
      obtain ⟨leftOk, rightOk, -⟩ := ok
      obtain ⟨entry, member, rfl⟩ := present
      rw [entries_node, List.mem_append, List.mem_cons] at member
      rcases lt_trichotomy newKey nodeKey with before | rfl | after
      · obtain ⟨addedLeft, isAddedLeft, isEntries, -⟩ :=
          addRecursive_spec leftOrdered leftOk newKey fresh initial
        rw [addRecursive_of_lt before, isAddedLeft, Option.bind_some] at isAdded
        obtain ⟨⟨result, rotated⟩, isResult, rfl⟩ := Option.map_eq_some_iff.mp isAdded
        rw [addLinks, if_neg before.ne, if_pos before, isAddedLeft, Option.elim_some,
          spares_append] at spares
        have onPath : pointers ((node address addedLeft.tree right height nodeKey value).search way
            ⟨entry.key, true⟩ inside []) = pointers ((node address left right height nodeKey
              value).search way ⟨entry.key, true⟩ inside []) := by
          apply pointers_search_congr
          · intro onLeft
            apply leftIh leftOrdered leftOk isAddedLeft
            · rcases member with inLeft | rfl | inRight
              · exact ⟨entry, inLeft, rfl⟩
              · exact absurd onLeft (lt_irrefl _)
              · exact absurd onLeft (above entry inRight).asymm
            · exact spares.1.mono (pointers_search_left onLeft)
          · exact fun _ => rfl
        have addedOrdered : (node address addedLeft.tree right height nodeKey value).Ordered := by
          rw [Ordered, entries_node, isEntries, ← insertBy_append_of_lt before]
          exact sortedBy_insertBy ordered
        have spared := spares.2
        rw [← onPath] at spared ⊢
        exact (samePath_balanceAddedLeft downward addedOrdered isResult spared).samePointers
      · rw [addRecursive, if_pos rfl, Option.some_inj] at isAdded
        rw [← isAdded]
      · obtain ⟨addedRight, isAddedRight, isEntries, -⟩ :=
          addRecursive_spec rightOrdered rightOk newKey fresh initial
        rw [addRecursive_of_gt after, isAddedRight, Option.bind_some] at isAdded
        obtain ⟨⟨result, rotated⟩, isResult, rfl⟩ := Option.map_eq_some_iff.mp isAdded
        rw [addLinks, if_neg after.ne', if_neg after.asymm, isAddedRight, Option.elim_some,
          spares_append] at spares
        have onPath : pointers ((node address left addedRight.tree height nodeKey value).search way
            ⟨entry.key, true⟩ inside []) = pointers ((node address left right height nodeKey
              value).search way ⟨entry.key, true⟩ inside []) := by
          apply pointers_search_congr
          · exact fun _ => rfl
          · intro onRight
            apply rightIh rightOrdered rightOk isAddedRight
            · rcases member with inLeft | rfl | inRight
              · exact absurd onRight (below entry inLeft).asymm
              · exact absurd onRight (lt_irrefl _)
              · exact ⟨entry, inRight, rfl⟩
            · exact spares.1.mono (pointers_search_right onRight)
        have addedOrdered : (node address left addedRight.tree height nodeKey value).Ordered := by
          rw [Ordered, entries_node, isEntries, ← insertBy_append_of_gt after below]
          exact sortedBy_insertBy ordered
        have spared := spares.2
        rw [← onPath] at spared ⊢
        exact (samePath_balanceAddedRight downward addedOrdered isResult spared).samePointers

end Rotations

end TreeNode

end Pmgd
