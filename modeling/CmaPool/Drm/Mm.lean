import CmaPool.Lib.Ring

/-! The range allocator of drm_mm.c and drm_mm.h.

The node list is kept as the links in the nodes, because the scan takes nodes
out without touching their own links. The hole stack and the tree of hole sizes
are read as lists, the tree in its order from large holes to small ones. An
assertion that fails ends the program; so does a link that leads nowhere. -/

namespace CmaPool.Drm

inductive Site
  | addHole
  | rmHole
  | insertNodeInRange
  | removeNode
  | scanInit
  | scanAddBlock
  | scanRemoveBlock
  | mmInit
  | pageOutBuffers
  deriving DecidableEq

inductive Bug
  | assertion (site : Site)
  | wildPointer
  | diverges
  deriving DecidableEq

def bugOn (condition : Prop) [Decidable condition] (site : Site) : Except Bug Unit :=
  if condition then throw (.assertion site) else pure ()

def u64Max : Nat := 2 ^ 64 - 1

def add64 (a b : Nat) : Nat := (a + b) % 2 ^ 64

def sub64 (a b : Nat) : Nat := (a + 2 ^ 64 - b) % 2 ^ 64

inductive NodeRef
  | head
  | buf (p : Nat)
  deriving DecidableEq

/-- The fields that are read; `mm` says whether the node points at the
allocator. -/
structure DrmMmNode where
  start : Nat
  size : Nat
  holeSize : Nat
  mm : Bool
  allocated : Bool
  scannedBlock : Bool
  deriving DecidableEq

def DrmMmNode.cleared : DrmMmNode :=
  { start := 0, size := 0, holeSize := 0, mm := false, allocated := false, scannedBlock := false }

structure DrmMm where
  node : NodeRef → DrmMmNode
  nodeList : Ring.Links NodeRef
  holeStack : List NodeRef
  holesSize : List NodeRef
  scanActive : Nat

inductive InsertMode
  | best
  | evict
  deriving DecidableEq

def enospc : Int := 28

def pointer {α : Type} : Option α → Except Bug α
  | some x => pure x
  | none => throw .wildPointer

/-- Deleting an entry from a list or a tree that holds it. -/
def eraseEntry {α : Type} [DecidableEq α] (l : List α) (x : α) : Except Bug (List α) :=
  if x ∈ l then pure (l.erase x) else throw .wildPointer

namespace DrmMm

def setNode (mm : DrmMm) (n : NodeRef) (node : DrmMmNode) : DrmMm :=
  { mm with node := Function.update mm.node n node }

/-- A node in memory that `calloc` has cleared. -/
def clearNode (mm : DrmMm) (n : NodeRef) : DrmMm :=
  { mm with
    node := Function.update mm.node n .cleared
    nodeList := Function.update mm.nodeList n ⟨none, none⟩ }

def listNextEntry (mm : DrmMm) (n : NodeRef) : Except Bug NodeRef := pointer (mm.nodeList n).next

def listPrevEntry (mm : DrmMm) (n : NodeRef) : Except Bug NodeRef := pointer (mm.nodeList n).prev

def holeFollows (mm : DrmMm) (n : NodeRef) : Prop := (mm.node n).holeSize ≠ 0

instance (mm : DrmMm) (n : NodeRef) : Decidable (mm.holeFollows n) :=
  inferInstanceAs (Decidable ((mm.node n).holeSize ≠ 0))

/-- `__drm_mm_hole_node_start`. -/
def holeNodeStart (mm : DrmMm) (n : NodeRef) : Nat := add64 (mm.node n).start (mm.node n).size

/-- `__drm_mm_hole_node_end`. -/
def holeNodeEnd (mm : DrmMm) (n : NodeRef) : Except Bug Nat := do
  return (mm.node (← mm.listNextEntry n)).start

/-- Behind the holes that are at least as large. -/
def insertHoleSize (mm : DrmMm) (n : NodeRef) : DrmMm :=
  { mm with
    holesSize :=
      mm.holesSize.takeWhile (fun m => (mm.node n).holeSize ≤ (mm.node m).holeSize) ++
        n :: mm.holesSize.dropWhile (fun m => (mm.node n).holeSize ≤ (mm.node m).holeSize) }

def addHole (mm : DrmMm) (n : NodeRef) : Except Bug DrmMm := do
  let holeSize := sub64 (← mm.holeNodeEnd n) (mm.holeNodeStart n)
  let mm := mm.setNode n { mm.node n with holeSize }
  bugOn (¬ mm.holeFollows n) .addHole
  let mm := mm.insertHoleSize n
  return { mm with holeStack := n :: mm.holeStack }

def rmHole (mm : DrmMm) (n : NodeRef) : Except Bug DrmMm := do
  bugOn (¬ mm.holeFollows n) .rmHole
  let holeStack ← eraseEntry mm.holeStack n
  let holesSize ← eraseEntry mm.holesSize n
  let mm := { mm with holeStack, holesSize }.setNode n { mm.node n with holeSize := 0 }
  bugOn (mm.holeFollows n) .rmHole
  return mm

/-- `if (condition) add_hole(n)`. -/
def addHoleIf (mm : DrmMm) (n : NodeRef) (condition : Prop) [Decidable condition] :
    Except Bug DrmMm :=
  if condition then mm.addHole n else pure mm

/-- `if (drm_mm_hole_follows(n)) rm_hole(n)`. -/
def rmHoleIf (mm : DrmMm) (n : NodeRef) : Except Bug DrmMm :=
  if mm.holeFollows n then mm.rmHole n else pure mm

/-- The size at `rb_first_cached`. -/
def largestHole (mm : DrmMm) : Nat :=
  match mm.holesSize with
  | [] => 0
  | n :: _ => (mm.node n).holeSize

/-- The last hole of the tree's order that is large enough. -/
def bestHole (mm : DrmMm) (size : Nat) : Option NodeRef :=
  (mm.holesSize.takeWhile fun n => size ≤ (mm.node n).holeSize).getLast?

def firstHole (mm : DrmMm) (size : Nat) : InsertMode → Option NodeRef
  | .best => mm.bestHole size
  | .evict => mm.holeStack.head?

def nextHole (mm : DrmMm) (n : NodeRef) : InsertMode → Option NodeRef
  | .best => (mm.holesSize.takeWhile (· ≠ n)).getLast?
  | .evict => (mm.holeStack.dropWhile (· ≠ n)).tail.head?

end DrmMm

def isPowerOf2 (n : Nat) : Prop := n ≠ 0 ∧ n &&& (n - 1) = 0

instance (n : Nat) : Decidable (isPowerOf2 n) :=
  inferInstanceAs (Decidable (n ≠ 0 ∧ n &&& (n - 1) = 0))

/-- Where an allocation goes in a hole: the two searches for a hole and the scan
share these lines. -/
def adjustHole (holeStart holeEnd size alignment rangeStart rangeEnd : Nat) : Option Nat :=
  let remainderMask := if isPowerOf2 alignment then alignment - 1 else 0
  let adjStart := max holeStart rangeStart
  let adjEnd := min holeEnd rangeEnd
  if adjEnd ≤ adjStart ∨ sub64 adjEnd adjStart < size then
    none
  else if alignment = 0 then
    some adjStart
  else
    let rem := if remainderMask ≠ 0 then adjStart &&& remainderMask else adjStart % alignment
    if rem = 0 then
      some adjStart
    else
      let aligned := add64 (sub64 adjStart rem) alignment
      if aligned < max holeStart rangeStart ∨
          sub64 (min holeEnd rangeEnd) aligned < size then
        none
      else if adjEnd ≤ aligned ∨ sub64 adjEnd aligned < size then
        none
      else
        some aligned

def normalAlignment (alignment : Nat) : Nat := if alignment ≤ 1 then 0 else alignment

namespace DrmMm

/-- `drm_mm_clean`. -/
def clean (mm : DrmMm) : Bool := (mm.nodeList .head).next = some .head

/-- The end of `drm_mm_insert_node_in_range`, once a hole and a start are found. -/
def insertInHole (mm : DrmMm) (node hole : NodeRef) (size holeStart holeEnd adjStart : Nat) :
    Except Bug DrmMm := do
  let mm := mm.setNode node
    { mm.node node with mm := true, size, start := adjStart, holeSize := 0 }
  let nodeList ← pointer (Ring.listAdd mm.nodeList node hole)
  let mm := { mm with nodeList }.setNode node { mm.node node with allocated := true }
  let mm ← mm.rmHole hole
  let mm ← mm.addHoleIf hole (adjStart > holeStart)
  mm.addHoleIf node (add64 adjStart size < holeEnd)

def insertLoop (mm : DrmMm) (node : NodeRef) (size alignment rangeStart rangeEnd : Nat)
    (mode : InsertMode) : Nat → Option NodeRef → Except Bug (Int × DrmMm)
  | _, none => pure (-enospc, mm)
  | 0, some _ => throw .diverges
  | fuel + 1, some hole =>
      let holeStart := mm.holeNodeStart hole
      let holeEnd := add64 holeStart (mm.node hole).holeSize
      match adjustHole holeStart holeEnd size alignment rangeStart rangeEnd with
      | some adjStart => do
          return (0, ← mm.insertInHole node hole size holeStart holeEnd adjStart)
      | none =>
          insertLoop mm node size alignment rangeStart rangeEnd mode fuel (mm.nextHole hole mode)

def insertNodeInRange (mm : DrmMm) (node : NodeRef) (size alignment rangeStart rangeEnd : Nat)
    (mode : InsertMode) : Except Bug (Int × DrmMm) := do
  bugOn (rangeStart > rangeEnd) .insertNodeInRange
  if size = 0 ∨ sub64 rangeEnd rangeStart < size then
    return (-enospc, mm)
  if mm.largestHole < size then
    return (-enospc, mm)
  -- the loop visits a hole at most once
  mm.insertLoop node size (normalAlignment alignment) rangeStart rangeEnd mode
    (mm.holesSize.length + mm.holeStack.length) (mm.firstHole size mode)

def insertNodeGeneric (mm : DrmMm) (node : NodeRef) (size alignment : Nat) (mode : InsertMode) :
    Except Bug (Int × DrmMm) :=
  mm.insertNodeInRange node size alignment 0 u64Max mode

def removeNode (mm : DrmMm) (n : NodeRef) : Except Bug DrmMm := do
  bugOn ((mm.node n).allocated = false) .removeNode
  bugOn ((mm.node n).scannedBlock = true) .removeNode
  let prev ← mm.listPrevEntry n
  let mm ← mm.rmHoleIf n
  let nodeList ← pointer (Ring.listDel mm.nodeList n)
  let mm := { mm with nodeList }.setNode n { mm.node n with allocated := false }
  let mm ← mm.rmHoleIf prev
  mm.addHole prev

end DrmMm

structure DrmMmScan where
  size : Nat
  alignment : Nat
  rangeStart : Nat
  rangeEnd : Nat
  hitStart : Nat
  hitEnd : Nat
  deriving DecidableEq

namespace DrmMm

def scanInitWithRange (mm : DrmMm) (size alignment rangeStart rangeEnd : Nat) :
    Except Bug DrmMmScan := do
  bugOn (rangeStart ≥ rangeEnd) .scanInit
  bugOn (size = 0 ∨ size > sub64 rangeEnd rangeStart) .scanInit
  bugOn (mm.scanActive ≠ 0) .scanInit
  bugOn (rangeEnd ≤ rangeStart) .scanInit
  return {
    size
    alignment := normalAlignment alignment
    rangeStart
    rangeEnd
    hitStart := u64Max
    hitEnd := 0 }

def scanAddBlock (mm : DrmMm) (scan : DrmMmScan) (n : NodeRef) :
    Except Bug (Bool × DrmMmScan × DrmMm) := do
  bugOn ((mm.node n).mm = false) .scanAddBlock
  bugOn ((mm.node n).allocated = false) .scanAddBlock
  bugOn ((mm.node n).scannedBlock = true) .scanAddBlock
  let mm := { mm with scanActive := mm.scanActive + 1 }.setNode n
    { mm.node n with scannedBlock := true }
  let hole ← mm.listPrevEntry n
  bugOn ((← mm.listNextEntry hole) ≠ n) .scanAddBlock
  let nodeList ← pointer (Ring.listDelEntry mm.nodeList n)
  let mm := { mm with nodeList }
  let holeStart := mm.holeNodeStart hole
  let holeEnd ← mm.holeNodeEnd hole
  match adjustHole holeStart holeEnd scan.size scan.alignment scan.rangeStart scan.rangeEnd with
  | none => return (false, scan, mm)
  | some adjStart =>
      let scan := { scan with hitStart := adjStart, hitEnd := add64 adjStart scan.size }
      bugOn (scan.hitStart ≥ scan.hitEnd) .scanAddBlock
      bugOn (scan.hitStart < holeStart) .scanAddBlock
      bugOn (scan.hitEnd > holeEnd) .scanAddBlock
      return (true, scan, mm)

def scanRemoveBlock (mm : DrmMm) (scan : DrmMmScan) (n : NodeRef) : Except Bug (Bool × DrmMm) := do
  bugOn ((mm.node n).mm = false) .scanRemoveBlock
  bugOn ((mm.node n).scannedBlock = false) .scanRemoveBlock
  let mm := mm.setNode n { mm.node n with scannedBlock := false }
  bugOn (mm.scanActive = 0) .scanRemoveBlock
  let mm := { mm with scanActive := mm.scanActive - 1 }
  let prev ← mm.listPrevEntry n
  bugOn ((← mm.listNextEntry prev) ≠ (← mm.listNextEntry n)) .scanRemoveBlock
  let nodeList ← pointer (Ring.listAdd mm.nodeList n prev)
  let mm := { mm with nodeList }
  return (mm.holeNodeStart n > scan.hitStart ∧ (mm.node n).start < scan.hitEnd, mm)

/-- `drm_mm_init` of an allocator that was cleared to 0, up to its `add_hole`. -/
def initHead (start size : Nat) : DrmMm where
  node := Function.update (fun _ => .cleared) .head
    { DrmMmNode.cleared with start := add64 start size, size := sub64 0 size, mm := true }
  nodeList := Ring.initListHead (fun _ => Ring.poisoned) .head
  holeStack := []
  holesSize := []
  scanActive := 0

def init (start size : Nat) : Except Bug DrmMm := do
  bugOn (add64 start size ≤ start) .mmInit
  (initHead start size).addHole .head

end DrmMm

/-- `VC4_CMA_POOL_SIZE` of main.c, the range the allocator manages. -/
def poolSize : Nat := 128 * 1024 * 1024

/-- `PAGE_SIZE` of main.c, the alignment of every allocation. -/
def pageSize : Nat := 1 <<< 12

end CmaPool.Drm
