import CmaPool.Drm.Mm
import CmaPool.Rbtree.IntervalInsert

/-! The allocator with the trees that drm_mm.c keeps.

These are the functions of `Mm` again. What is no tree stays in a `DrmMm`, whose list
of hole sizes is empty here; where `Mm` reads or edits that list, the functions below
search, link and rebalance the trees `holes_size`, `holes_addr` and `interval_tree`. -/

namespace CmaPool.Drm

open Rbtree RbRoot

structure TreeMm where
  mm : DrmMm
  holesSize : RbRootCached NodeRef Unit
  holesAddr : RbRoot NodeRef Unit
  intervalTree : RbRootCached NodeRef Nat

/-- A loop over a tree that follows a null pointer, or goes on for too long. -/
def walked {α : Type} : Option α → Except Bug α
  | some x => pure x
  | none => throw .diverges

/-- `LAST`. -/
def DrmMm.last (mm : DrmMm) (n : NodeRef) : Nat := sub64 (mm.holeNodeStart n) 1

/-- `RB_INSERT`. -/
def rbInsertBefore (t : RbRoot NodeRef Unit) (goLeft : NodeRef → Bool) (fuel : Nat)
    (node : NodeRef) : Option (RbRoot NodeRef Unit) := do
  let found ← findLink (fun f _ => f) goLeft fuel t none true t.rbNode
  (found.1.rbLinkNode node found.2.1).rbInsertColor dummyCallbacks fuel node

namespace TreeMm

/-- A cleared node; `rb_link_node` writes the links of a node before they are read. -/
def clearNode (t : TreeMm) (n : NodeRef) : TreeMm := { t with mm := t.mm.clearNode n }

def setNode (t : TreeMm) (n : NodeRef) (node : DrmMmNode) : TreeMm :=
  { t with mm := t.mm.setNode n node }

def intervalTreeAddNode (t : TreeMm) (fuel : Nat) (hole node : NodeRef) : Except Bug TreeMm := do
  let intervalTree ← walked (Rbtree.intervalTreeAddNode t.intervalTree
    (fun n => (t.mm.node n).start) t.mm.last fuel
    (if (t.mm.node hole).allocated then some hole else none) node)
  return { t with intervalTree }

/-- `drm_mm_interval_tree_remove`. -/
def intervalTreeRemove (t : TreeMm) (fuel : Nat) (node : NodeRef) : Except Bug TreeMm := do
  let intervalTree ← walked
    (t.intervalTree.rbEraseCached (declareCallbacks (computeMax t.mm.last)) fuel node)
  return { t with intervalTree }

def insertHoleSize (t : TreeMm) (fuel : Nat) (n : NodeRef) : Except Bug TreeMm := do
  let holesSize ← walked (insertCached t.holesSize
    (fun rb => (t.mm.node n).holeSize > (t.mm.node rb).holeSize) fuel n)
  return { t with holesSize }

def insertHoleAddr (t : TreeMm) (fuel : Nat) (n : NodeRef) : Except Bug TreeMm := do
  let holesAddr ← walked (rbInsertBefore t.holesAddr
    (fun rb => t.mm.holeNodeStart n < t.mm.holeNodeStart rb) fuel n)
  return { t with holesAddr }

def addHole (t : TreeMm) (fuel : Nat) (n : NodeRef) : Except Bug TreeMm := do
  let holeSize := sub64 (← t.mm.holeNodeEnd n) (t.mm.holeNodeStart n)
  let t := t.setNode n { t.mm.node n with holeSize }
  bugOn (¬ t.mm.holeFollows n) .addHole
  let t ← t.insertHoleSize fuel n
  let t ← t.insertHoleAddr fuel n
  return { t with mm := { t.mm with holeStack := n :: t.mm.holeStack } }

def rmHole (t : TreeMm) (fuel : Nat) (n : NodeRef) : Except Bug TreeMm := do
  bugOn (¬ t.mm.holeFollows n) .rmHole
  let holeStack ← eraseEntry t.mm.holeStack n
  let holesSize ← walked (t.holesSize.rbEraseCached dummyCallbacks fuel n)
  let holesAddr ← walked (t.holesAddr.rbErase dummyCallbacks fuel n)
  let t := { t with mm := { t.mm with holeStack }, holesSize, holesAddr }.setNode n
    { t.mm.node n with holeSize := 0 }
  bugOn (t.mm.holeFollows n) .rmHole
  return t

/-- `if (condition) add_hole(n)`. -/
def addHoleIf (t : TreeMm) (fuel : Nat) (n : NodeRef) (condition : Prop) [Decidable condition] :
    Except Bug TreeMm :=
  if condition then t.addHole fuel n else pure t

/-- `if (drm_mm_hole_follows(n)) rm_hole(n)`. -/
def rmHoleIf (t : TreeMm) (fuel : Nat) (n : NodeRef) : Except Bug TreeMm :=
  if t.mm.holeFollows n then t.rmHole fuel n else pure t

/-- The size at `rb_first_cached`. -/
def largestHole (t : TreeMm) : Nat :=
  match t.holesSize.rbLeftmost with
  | none => 0
  | some n => (t.mm.node n).holeSize

/-- The loop of `best_hole`. -/
def bestBelow (t : TreeMm) (size : Nat) : Nat → Option NodeRef → NodeRef →
    Option (Option NodeRef)
  | 0, _, _ => none
  | fuel + 1, best, node =>
      if size ≤ (t.mm.node node).holeSize then
        match (t.holesSize.rbRoot.node node).right with
        | some rb => bestBelow t size fuel (some node) rb
        | none => some (some node)
      else
        match (t.holesSize.rbRoot.node node).left with
        | some rb => bestBelow t size fuel best rb
        | none => some best

def bestHole (t : TreeMm) (fuel size : Nat) : Except Bug (Option NodeRef) := do
  let rb ← pointer t.holesSize.rbRoot.rbNode
  walked (t.bestBelow size fuel none rb)

def firstHole (t : TreeMm) (fuel size : Nat) : InsertMode → Except Bug (Option NodeRef)
  | .best => t.bestHole fuel size
  | .evict => pure t.mm.holeStack.head?

def nextHole (t : TreeMm) (fuel : Nat) (n : NodeRef) : InsertMode → Except Bug (Option NodeRef)
  | .best => walked (t.holesSize.rbRoot.rbPrev fuel n)
  | .evict => pure (t.mm.holeStack.dropWhile (· ≠ n)).tail.head?

/-- The end of `drm_mm_insert_node_in_range`, once a hole and a start are found. -/
def insertInHole (t : TreeMm) (fuel : Nat) (node hole : NodeRef)
    (size holeStart holeEnd adjStart : Nat) : Except Bug TreeMm := do
  let t := t.setNode node
    { t.mm.node node with mm := true, size, start := adjStart, holeSize := 0 }
  let nodeList ← pointer (Ring.listAdd t.mm.nodeList node hole)
  let t ← { t with mm := { t.mm with nodeList } }.intervalTreeAddNode fuel hole node
  let t := t.setNode node { t.mm.node node with allocated := true }
  let t ← t.rmHole fuel hole
  let t ← t.addHoleIf fuel hole (adjStart > holeStart)
  t.addHoleIf fuel node (add64 adjStart size < holeEnd)

def insertLoop (t : TreeMm) (fuel : Nat) (node : NodeRef)
    (size alignment rangeStart rangeEnd : Nat) (mode : InsertMode) :
    Nat → Option NodeRef → Except Bug (Int × TreeMm)
  | _, none => pure (-enospc, t)
  | 0, some _ => throw .diverges
  | rounds + 1, some hole =>
      let holeStart := t.mm.holeNodeStart hole
      let holeEnd := add64 holeStart (t.mm.node hole).holeSize
      match adjustHole holeStart holeEnd size alignment rangeStart rangeEnd with
      | some adjStart => do
          return (0, ← t.insertInHole fuel node hole size holeStart holeEnd adjStart)
      | none => do
          let next ← t.nextHole fuel hole mode
          insertLoop t fuel node size alignment rangeStart rangeEnd mode rounds next

def insertNodeInRange (t : TreeMm) (fuel : Nat) (node : NodeRef)
    (size alignment rangeStart rangeEnd : Nat) (mode : InsertMode) :
    Except Bug (Int × TreeMm) := do
  bugOn (rangeStart > rangeEnd) .insertNodeInRange
  if size = 0 ∨ sub64 rangeEnd rangeStart < size then
    return (-enospc, t)
  if t.largestHole < size then
    return (-enospc, t)
  let hole ← t.firstHole fuel size mode
  t.insertLoop fuel node size (normalAlignment alignment) rangeStart rangeEnd mode fuel hole

def insertNodeGeneric (t : TreeMm) (fuel : Nat) (node : NodeRef) (size alignment : Nat)
    (mode : InsertMode) : Except Bug (Int × TreeMm) :=
  t.insertNodeInRange fuel node size alignment 0 u64Max mode

def removeNode (t : TreeMm) (fuel : Nat) (n : NodeRef) : Except Bug TreeMm := do
  bugOn ((t.mm.node n).allocated = false) .removeNode
  bugOn ((t.mm.node n).scannedBlock = true) .removeNode
  let prev ← t.mm.listPrevEntry n
  let t ← t.rmHoleIf fuel n
  let t ← t.intervalTreeRemove fuel n
  let nodeList ← pointer (Ring.listDel t.mm.nodeList n)
  let t := { t with mm := { t.mm with nodeList } }.setNode n { t.mm.node n with allocated := false }
  let t ← t.rmHoleIf fuel prev
  t.addHole fuel prev

/-- `drm_mm_init` up to its `add_hole`, in memory whose links are `node`. -/
def initHead (node : NodeRef → RbNode NodeRef) (start size : Nat) : TreeMm where
  mm := DrmMm.initHead start size
  holesSize := rbRootCached node
  holesAddr := (rbRootCached node).rbRoot
  intervalTree := ⟨{ node, rbNode := none, augmented := fun _ => 0 }, none⟩

def init (node : NodeRef → RbNode NodeRef) (fuel start size : Nat) : Except Bug TreeMm := do
  bugOn (add64 start size ≤ start) .mmInit
  (initHead node start size).addHole fuel .head

end TreeMm

end CmaPool.Drm
