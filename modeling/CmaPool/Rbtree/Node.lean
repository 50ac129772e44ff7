import CmaPool.Lib.RedBlack

/-! The red-black trees of rbtree.c, rbtree.h and rbtree_augmented.h.

The two halves of each loop are mirror images of each other: a `Side` says
which half is taken. A result `none` is a null pointer that is followed, or a
loop that goes on for longer than `fuel`. -/

namespace CmaPool.Rbtree

open RedBlack

/-- `__rb_parent_color` holds the parent and the colour in one word. -/
structure RbNode (α : Type) where
  parent : Option α
  color : Color
  right : Option α
  left : Option α

/-- A root, with the memory of the nodes and of what they are augmented by. -/
structure RbRoot (α β : Type) where
  node : α → RbNode α
  rbNode : Option α
  augmented : α → β

structure RbAugmentCallbacks (α β : Type) where
  propagate : Nat → (α → RbNode α) → (α → β) → Option α → Option α → Option (α → β)
  copy : (α → β) → α → α → α → β
  rotate : (α → RbNode α) → (α → β) → α → α → α → β

/-- `rb_left` or `rb_right`. -/
def RbNode.child {α : Type} (n : RbNode α) : Side → Option α
  | .left => n.left
  | .right => n.right

def RbNode.setChild {α : Type} (n : RbNode α) (child : Option α) : Side → RbNode α
  | .left => { n with left := child }
  | .right => { n with right := child }

namespace RbRoot

variable {α β : Type} [DecidableEq α]

def setNode (t : RbRoot α β) (x : α) (n : RbNode α) : RbRoot α β :=
  { t with node := Function.update t.node x n }

def rbSetParent (t : RbRoot α β) (rb : α) (p : Option α) : RbRoot α β :=
  t.setNode rb { t.node rb with parent := p }

def rbSetParentColor (t : RbRoot α β) (rb : α) (p : Option α) (color : Color) : RbRoot α β :=
  t.setNode rb { t.node rb with parent := p, color }

def rbSetBlack (t : RbRoot α β) (rb : α) : RbRoot α β :=
  t.setNode rb { t.node rb with color := .black }

/-- `WRITE_ONCE` of a child. -/
def writeChild (t : RbRoot α β) (x : α) (side : Side) (child : Option α) : RbRoot α β :=
  t.setNode x ((t.node x).setChild child side)

/-- `if (rb) rb_set_parent(rb, p)`. -/
def setParentIf (t : RbRoot α β) (p : Option α) : Option α → RbRoot α β
  | none => t
  | some rb => t.rbSetParent rb p

/-- `if (rb) rb_set_parent_color(rb, p, color)`. -/
def setParentColorIf (t : RbRoot α β) (p : Option α) (color : Color) : Option α → RbRoot α β
  | none => t
  | some rb => t.rbSetParentColor rb p color

/-- `rb && rb_is_red(rb)`. -/
def redAt (t : RbRoot α β) : Option α → Prop
  | none => False
  | some rb => (t.node rb).color = .red

instance (t : RbRoot α β) (rb : Option α) : Decidable (t.redAt rb) :=
  match rb with
  | none => .isFalse id
  | some rb => inferInstanceAs (Decidable ((t.node rb).color = .red))

/-- `__rb_change_child`. -/
def rbChangeChild (t : RbRoot α β) (old : α) (new : Option α) : Option α → RbRoot α β
  | some parent =>
      if (t.node parent).left = some old then
        t.writeChild parent .left new
      else
        t.writeChild parent .right new
  | none => { t with rbNode := new }

/-- `__rb_rotate_set_parents`. -/
def rbRotateSetParents (t : RbRoot α β) (old new : α) (color : Color) : RbRoot α β :=
  let parent := (t.node old).parent
  let t := t.rbSetParentColor new (t.node old).parent (t.node old).color
  let t := t.rbSetParentColor old (some new) color
  t.rbChangeChild old (some new) parent

def augmentRotate (t : RbRoot α β) (augment : RbAugmentCallbacks α β) (old new : α) :
    RbRoot α β :=
  { t with augmented := augment.rotate t.node t.augmented old new }

def augmentCopy (t : RbRoot α β) (augment : RbAugmentCallbacks α β) (old new : α) : RbRoot α β :=
  { t with augmented := augment.copy t.augmented old new }

def augmentPropagate (t : RbRoot α β) (augment : RbAugmentCallbacks α β) (fuel : Nat)
    (rb stop : Option α) : Option (RbRoot α β) := do
  let augmented ← augment.propagate fuel t.node t.augmented rb stop
  return { t with augmented }

/-- What `rb_link` points at: the root, or a child of the parent. -/
def rbLinkNode (t : RbRoot α β) (node : α) : Option (α × Side) → RbRoot α β
  | none => { t.setNode node ⟨none, .red, none, none⟩ with rbNode := some node }
  | some link => (t.setNode node ⟨some link.1, .red, none, none⟩).writeChild link.1 link.2 (some node)

/-- Case 2 of `__rb_insert`. -/
def insertInner (t : RbRoot α β) (augment : RbAugmentCallbacks α β) (side : Side)
    (node parent : α) : RbRoot α β :=
  let tmp := (t.node node).child side
  let t := t.writeChild parent side.other tmp
  let t := t.writeChild node side (some parent)
  let t := t.setParentColorIf (some parent) .black tmp
  let t := t.rbSetParentColor parent (some node) .red
  t.augmentRotate augment parent node

/-- Case 3 of `__rb_insert`. -/
def insertOuter (t : RbRoot α β) (augment : RbAugmentCallbacks α β) (side : Side)
    (parent gparent : α) : RbRoot α β :=
  let tmp := (t.node parent).child side.other
  let t := t.writeChild gparent side tmp
  let t := t.writeChild parent side.other (some gparent)
  let t := t.setParentColorIf (some gparent) .black tmp
  let t := t.rbRotateSetParents gparent parent .red
  t.augmentRotate augment gparent parent

/-- Case 1 of `__rb_insert`, up to where the loop goes on at the `gparent`. -/
def insertFlip (t : RbRoot α β) (parent gparent tmp : α) : RbRoot α β :=
  let t := t.rbSetParentColor tmp (some gparent) .black
  let t := t.rbSetParentColor parent (some gparent) .black
  t.rbSetParentColor gparent (t.node gparent).parent .red

/-- `__rb_insert`. -/
def rbInsert (augment : RbAugmentCallbacks α β) :
    Nat → RbRoot α β → α → Option α → Option (RbRoot α β)
  | 0, _, _, _ => none
  | _ + 1, t, node, none => some (t.rbSetParentColor node none .black)
  | fuel + 1, t, node, some parent =>
      if (t.node parent).color = .black then
        some t
      else do
        let gparent ← (t.node parent).parent
        let side := if some parent ≠ (t.node gparent).right then Side.left else .right
        let tmp := (t.node gparent).child side.other
        if t.redAt tmp then
          let t := t.insertFlip parent gparent (← tmp)
          rbInsert augment fuel t gparent (t.node gparent).parent
        else if some node = (t.node parent).child side.other then
          return (t.insertInner augment side node parent).insertOuter augment side node gparent
        else
          return t.insertOuter augment side parent gparent

/-- `rb_insert_color`, and `__rb_insert_augmented`. -/
def rbInsertColor (t : RbRoot α β) (augment : RbAugmentCallbacks α β) (fuel : Nat) (node : α) :
    Option (RbRoot α β) :=
  rbInsert augment fuel t node (t.node node).parent

/-- Case 1 of `____rb_erase_color`. -/
def eraseRedSibling (t : RbRoot α β) (augment : RbAugmentCallbacks α β) (side : Side)
    (parent sibling tmp1 : α) : RbRoot α β :=
  let t := t.writeChild parent side.other (some tmp1)
  let t := t.writeChild sibling side (some parent)
  let t := t.rbSetParentColor tmp1 (some parent) .black
  let t := t.rbRotateSetParents parent sibling .red
  t.augmentRotate augment parent sibling

/-- Case 3 of `____rb_erase_color`. -/
def eraseInner (t : RbRoot α β) (augment : RbAugmentCallbacks α β) (side : Side)
    (parent sibling tmp2 : α) : RbRoot α β :=
  let tmp1 := (t.node tmp2).child side.other
  let t := t.writeChild sibling side tmp1
  let t := t.writeChild tmp2 side.other (some sibling)
  let t := t.writeChild parent side.other (some tmp2)
  let t := t.setParentColorIf (some sibling) .black tmp1
  t.augmentRotate augment sibling tmp2

/-- Case 4 of `____rb_erase_color`. -/
def eraseOuter (t : RbRoot α β) (augment : RbAugmentCallbacks α β) (side : Side)
    (parent sibling tmp1 : α) : RbRoot α β :=
  let tmp2 := (t.node sibling).child side
  let t := t.writeChild parent side.other tmp2
  let t := t.writeChild sibling side (some parent)
  let t := t.rbSetParentColor tmp1 (some sibling) .black
  let t := t.setParentIf (some parent) tmp2
  let t := t.rbRotateSetParents parent sibling .black
  t.augmentRotate augment parent sibling

/-- Cases 2, 3 and 4 of `____rb_erase_color`; `some` is where the loop goes on. -/
def eraseBlackSibling (t : RbRoot α β) (augment : RbAugmentCallbacks α β) (side : Side)
    (parent sibling : α) : Option (Option α × RbRoot α β) :=
  let tmp1 := (t.node sibling).child side.other
  let tmp2 := (t.node sibling).child side
  if t.redAt tmp1 then do
    return (none, t.eraseOuter augment side parent sibling (← tmp1))
  else if t.redAt tmp2 then do
    let tmp2 ← tmp2
    return (none, (t.eraseInner augment side parent sibling tmp2).eraseOuter augment side
      parent tmp2 sibling)
  else
    let t := t.rbSetParentColor sibling (some parent) .red
    if (t.node parent).color = .red then
      return (none, t.rbSetBlack parent)
    else
      return ((t.node parent).parent, t)

/-- `____rb_erase_color`. -/
def rbEraseColor (augment : RbAugmentCallbacks α β) :
    Nat → RbRoot α β → Option α → α → Option (RbRoot α β)
  | 0, _, _, _ => none
  | fuel + 1, t, node, parent => do
      let side := if node ≠ (t.node parent).right then Side.left else .right
      let sibling ← (t.node parent).child side.other
      let next ←
        if (t.node sibling).color = .red then do
          let tmp1 ← (t.node sibling).child side
          (t.eraseRedSibling augment side parent sibling tmp1).eraseBlackSibling augment side
            parent tmp1
        else
          t.eraseBlackSibling augment side parent sibling
      match next.1 with
      | none => return next.2
      | some up => rbEraseColor augment fuel next.2 (some parent) up

/-- The loop of case 3 of `__rb_erase_augmented`: the parent of the successor, and
the successor. -/
def eraseSuccessor (t : RbRoot α β) : Nat → α → α → Option (α × α)
  | 0, _, _ => none
  | fuel + 1, successor, tmp =>
      match (t.node tmp).left with
      | none => some (successor, tmp)
      | some next => eraseSuccessor t fuel tmp next

/-- Case 1 of `__rb_erase_augmented`: `child` is the only child, if there is one. -/
def eraseSimple (t : RbRoot α β) (node : α) (child : Option α) : Option α × RbRoot α β :=
  let pc := t.node node
  let t := t.rbChangeChild node child pc.parent
  match child with
  | some child => (none, t.rbSetParentColor child pc.parent pc.color)
  | none => (if pc.color = .black then pc.parent else none, t)

/-- The end of cases 2 and 3 of `__rb_erase_augmented`. -/
def eraseReplace (t : RbRoot α β) (node successor parent tmp : α) (child2 : Option α) :
    Option α × RbRoot α β :=
  let t := t.writeChild successor .left (some tmp)
  let t := t.rbSetParent tmp (some successor)
  let pc := t.node node
  let t := t.rbChangeChild node (some successor) pc.parent
  match child2 with
  | some child2 =>
      let t := t.rbSetParentColor successor pc.parent pc.color
      (none, t.rbSetParentColor child2 (some parent) .black)
  | none =>
      let pc2 := t.node successor
      let t := t.rbSetParentColor successor pc.parent pc.color
      (if pc2.color = .black then some parent else none, t)

/-- `__rb_erase_augmented`: where the colours are to be mended, and the tree. -/
def rbEraseAugmented (t : RbRoot α β) (augment : RbAugmentCallbacks α β) (fuel : Nat) (node : α) :
    Option (Option α × RbRoot α β) :=
  match (t.node node).left, (t.node node).right with
  | none, child => do
      let parent := (t.node node).parent
      let erased := t.eraseSimple node child
      return (erased.1, ← erased.2.augmentPropagate augment fuel parent none)
  | some tmp, none => do
      let parent := (t.node node).parent
      let erased := t.eraseSimple node (some tmp)
      return (erased.1, ← erased.2.augmentPropagate augment fuel parent none)
  | some tmp, some child =>
      match (t.node child).left with
      | none => do
          let child2 := (t.node child).right
          let t := t.augmentCopy augment node child
          let erased := t.eraseReplace node child child tmp child2
          return (erased.1, ← erased.2.augmentPropagate augment fuel (some child) none)
      | some below => do
          let found ← t.eraseSuccessor fuel child below
          let parent := found.1
          let successor := found.2
          let child2 := (t.node successor).right
          let t := t.writeChild parent .left child2
          let t := t.writeChild successor .right (some child)
          let t := t.rbSetParent child (some successor)
          let t := t.augmentCopy augment node successor
          let t ← t.augmentPropagate augment fuel (some parent) (some successor)
          let erased := t.eraseReplace node successor parent tmp child2
          return (erased.1, ← erased.2.augmentPropagate augment fuel (some successor) none)

/-- `rb_erase`, and `rb_erase_augmented`. -/
def rbErase (t : RbRoot α β) (augment : RbAugmentCallbacks α β) (fuel : Nat) (node : α) :
    Option (RbRoot α β) := do
  let erased ← t.rbEraseAugmented augment fuel node
  match erased.1 with
  | none => return erased.2
  | some rebalance => rbEraseColor augment fuel erased.2 none rebalance

/-- As far down as there are children on `side`. -/
def descend (t : RbRoot α β) (side : Side) : Nat → α → Option α
  | 0, _ => none
  | fuel + 1, n =>
      match (t.node n).child side with
      | none => some n
      | some n => descend t side fuel n

def rbFirst (t : RbRoot α β) (fuel : Nat) : Option (Option α) :=
  match t.rbNode with
  | none => some none
  | some n => some <$> t.descend .left fuel n

/-- Up while the node is the child of its parent on `side`. -/
def ascend (t : RbRoot α β) (side : Side) : Nat → α → Option (Option α)
  | 0, _ => none
  | fuel + 1, node =>
      match (t.node node).parent with
      | none => some none
      | some parent =>
          if some node = (t.node parent).child side then ascend t side fuel parent
          else some (some parent)

/-- `RB_EMPTY_NODE`: the word of the parent and the colour is the node itself. -/
def emptyNode (t : RbRoot α β) (node : α) : Prop :=
  (t.node node).parent = some node ∧ (t.node node).color = .red

instance (t : RbRoot α β) (node : α) : Decidable (t.emptyNode node) :=
  inferInstanceAs (Decidable (_ ∧ _))

/-- `rb_next` for the right, `rb_prev` for the left. -/
def neighbour (t : RbRoot α β) (side : Side) (fuel : Nat) (node : α) : Option (Option α) :=
  if t.emptyNode node then
    some none
  else
    match (t.node node).child side with
    | some n => some <$> t.descend side.other fuel n
    | none => t.ascend side fuel node

def rbNext (t : RbRoot α β) : Nat → α → Option (Option α) := t.neighbour .right

def rbPrev (t : RbRoot α β) : Nat → α → Option (Option α) := t.neighbour .left

/-- The walk down to the link of a new node, and whether it never went right; `visit`
is what it does to the values on its way. -/
def findLink (visit : (α → β) → α → α → β) (goLeft : α → Bool) :
    Nat → RbRoot α β → Option (α × Side) → Bool → Option α →
      Option (RbRoot α β × Option (α × Side) × Bool)
  | 0, _, _, _, _ => none
  | _ + 1, t, link, leftmost, none => some (t, link, leftmost)
  | fuel + 1, t, _, leftmost, some rb =>
      let t := { t with augmented := visit t.augmented rb }
      if goLeft rb then
        findLink visit goLeft fuel t (some (rb, .left)) leftmost (t.node rb).left
      else
        findLink visit goLeft fuel t (some (rb, .right)) false (t.node rb).right

end RbRoot

structure RbRootCached (α β : Type) where
  rbRoot : RbRoot α β
  rbLeftmost : Option α

/-- `RB_ROOT_CACHED`, in any memory. -/
def rbRootCached {α : Type} (node : α → RbNode α) : RbRootCached α Unit where
  rbRoot := { node, rbNode := none, augmented := fun _ => () }
  rbLeftmost := none

namespace RbRootCached

variable {α β : Type} [DecidableEq α]

/-- `rb_insert_color_cached`, and `rb_insert_augmented_cached`. -/
def rbInsertColorCached (t : RbRootCached α β) (augment : RbAugmentCallbacks α β) (fuel : Nat)
    (node : α) (leftmost : Bool) : Option (RbRootCached α β) := do
  let rbRoot ← t.rbRoot.rbInsertColor augment fuel node
  return { rbRoot, rbLeftmost := if leftmost then some node else t.rbLeftmost }

/-- `rb_erase_cached`, and `rb_erase_augmented_cached`. -/
def rbEraseCached (t : RbRootCached α β) (augment : RbAugmentCallbacks α β) (fuel : Nat)
    (node : α) : Option (RbRootCached α β) := do
  let rbLeftmost ←
    if t.rbLeftmost = some node then t.rbRoot.rbNext fuel node else some t.rbLeftmost
  let rbRoot ← t.rbRoot.rbErase augment fuel node
  return { rbRoot, rbLeftmost }

end RbRootCached

end CmaPool.Rbtree
