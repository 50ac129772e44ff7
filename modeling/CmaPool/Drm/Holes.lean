import CmaPool.Drm.Mm

/-! The index of holes: the hole stack and the tree of hole sizes hold the nodes
that a hole follows, and each edit of one hole keeps them so. -/

namespace CmaPool.Drm

structure HoleIndex (mm : DrmMm) : Prop where
  nodup : mm.holeStack.Nodup
  mem : ∀ n, n ∈ mm.holeStack ↔ mm.holeFollows n
  perm : mm.holesSize.Perm mm.holeStack
  sorted : mm.holesSize.Pairwise fun n m => (mm.node m).holeSize ≤ (mm.node n).holeSize

/-- `mm'` is `mm` with a hole of `size` behind `n`, in the links and nodes. -/
structure HoleEdit (mm mm' : DrmMm) (n : NodeRef) (size : Nat) : Prop where
  nodeList : mm'.nodeList = mm.nodeList
  scanActive : mm'.scanActive = mm.scanActive
  node : mm'.node = Function.update mm.node n { mm.node n with holeSize := size }
  index : HoleIndex mm'

section Word

variable {a b : Nat}

theorem add64_of_lt (h : a + b < 2 ^ 64) : add64 a b = a + b := Nat.mod_eq_of_lt h

theorem sub64_of_le (hle : b ≤ a) (ha : a < 2 ^ 64) : sub64 a b = a - b := by
  unfold sub64
  omega

end Word

theorem perm_insert {α : Type} (p : α → Bool) (x : α) (l : List α) :
    (l.takeWhile p ++ x :: l.dropWhile p).Perm (x :: l) := by
  have hmiddle : (l.takeWhile p ++ x :: l.dropWhile p).Perm
      (x :: (l.takeWhile p ++ l.dropWhile p)) := List.perm_middle
  rwa [List.takeWhile_append_dropWhile] at hmiddle

/-- Inserting behind the elements that stay in front of the new one keeps a list in order. -/
theorem pairwise_insert {α : Type} {r : α → α → Prop} [DecidableRel r]
    (total : ∀ x y, r x y ∨ r y x) (trans : ∀ {x y z}, r x y → r y z → r x z) (x : α) {l : List α}
    (h : l.Pairwise r) :
    (l.takeWhile (fun y => r y x) ++ x :: l.dropWhile fun y => r y x).Pairwise r := by
  induction l with
  | nil => exact List.pairwise_singleton _ _
  | cons y l ih =>
      obtain ⟨hy, hl⟩ := List.pairwise_cons.mp h
      by_cases hfront : r y x
      · rw [List.takeWhile_cons_of_pos (by simpa using hfront),
          List.dropWhile_cons_of_pos (by simpa using hfront), List.cons_append, List.pairwise_cons]
        refine ⟨?_, ih hl⟩
        intro z hz
        rcases List.mem_cons.mp ((perm_insert _ x l).mem_iff.mp hz) with rfl | hz
        · exact hfront
        · exact hy z hz
      · have hback : r x y := (total x y).resolve_right hfront
        rw [List.takeWhile_cons_of_neg (by simpa using hfront),
          List.dropWhile_cons_of_neg (by simpa using hfront), List.nil_append, List.pairwise_cons]
        refine ⟨?_, h⟩
        intro z hz
        rcases List.mem_cons.mp hz with rfl | hz
        · exact hback
        · exact trans hback (hy z hz)

namespace DrmMm

def pushHole (mm : DrmMm) (n : NodeRef) (holeSize : Nat) : DrmMm :=
  let mm := (mm.setNode n { mm.node n with holeSize }).insertHoleSize n
  { mm with holeStack := n :: mm.holeStack }

def dropHole (mm : DrmMm) (n : NodeRef) : DrmMm :=
  { mm with
    holeStack := mm.holeStack.erase n
    holesSize := mm.holesSize.erase n }.setNode n { mm.node n with holeSize := 0 }

end DrmMm

section Except

variable {α β : Type}

@[simp] theorem ok_bind (a : α) (f : α → Except Bug β) : (Except.ok a >>= f) = f a := rfl

@[simp] theorem error_bind (e : Bug) (f : α → Except Bug β) :
    (Except.error e >>= f) = .error e := rfl

theorem bind_ok {ε : Type} {x : Except ε α} {f : α → Except ε β} {b : β} (h : (x >>= f) = .ok b) :
    ∃ a, x = .ok a ∧ f a = .ok b := by
  cases x with
  | error e => cases h
  | ok a => exact ⟨a, rfl, h⟩

@[simp] theorem pure_eq_ok (a : α) : (pure a : Except Bug α) = .ok a := rfl

@[simp] theorem pointer_some (a : α) : pointer (some a) = .ok a := rfl

end Except

section Index

variable {mm mm' : DrmMm} {n m : NodeRef}

@[simp] theorem setNode_node (n : NodeRef) (node : DrmMmNode) :
    (mm.setNode n node).node = Function.update mm.node n node := rfl

@[simp] theorem setNode_nodeList (n : NodeRef) (node : DrmMmNode) :
    (mm.setNode n node).nodeList = mm.nodeList := rfl

@[simp] theorem setNode_scanActive (n : NodeRef) (node : DrmMmNode) :
    (mm.setNode n node).scanActive = mm.scanActive := rfl

theorem bugOn_of_not {condition : Prop} [Decidable condition] (h : ¬ condition) (site : Site) :
    bugOn condition site = .ok ⟨⟩ := by
  rw [bugOn, if_neg h]
  rfl

theorem bugOn_of {condition : Prop} [Decidable condition] (h : condition) (site : Site) :
    bugOn condition site = .error (.assertion site) := by
  rw [bugOn, if_pos h]
  rfl

theorem HoleIndex.of_eq (h : HoleIndex mm) (hstack : mm'.holeStack = mm.holeStack)
    (hsizes : mm'.holesSize = mm.holesSize)
    (hnode : ∀ n, (mm'.node n).holeSize = (mm.node n).holeSize) : HoleIndex mm' where
  nodup := by
    rw [hstack]
    exact h.nodup
  mem := by
    intro n
    rw [hstack, h.mem n, DrmMm.holeFollows, DrmMm.holeFollows, hnode]
  perm := by
    rw [hstack, hsizes]
    exact h.perm
  sorted := by
    rw [hsizes]
    simpa only [hnode] using h.sorted

theorem HoleIndex.mem_holesSize (h : HoleIndex mm) : n ∈ mm.holesSize ↔ mm.holeFollows n := by
  rw [h.perm.mem_iff, h.mem]

theorem HoleIndex.holesSize_nodup (h : HoleIndex mm) : mm.holesSize.Nodup :=
  h.perm.nodup_iff.mpr h.nodup

theorem holesSize_pushHole (mm : DrmMm) (n : NodeRef) (holeSize : Nat) :
    (mm.pushHole n holeSize).holesSize.Perm (n :: mm.holesSize) := perm_insert _ n _

theorem HoleIndex.pushHole (h : HoleIndex mm) (hnone : ¬ mm.holeFollows n) {holeSize : Nat}
    (hsize : holeSize ≠ 0) : HoleIndex (mm.pushHole n holeSize) := by
  have hstack : n ∉ mm.holeStack := fun hmem => hnone ((h.mem n).mp hmem)
  have hold : ∀ x, x ≠ n → ((mm.pushHole n holeSize).node x).holeSize = (mm.node x).holeSize := by
    intro x hx
    simp [DrmMm.pushHole, DrmMm.insertHoleSize, hx]
  have hnew : ((mm.pushHole n holeSize).node n).holeSize = holeSize := by
    simp [DrmMm.pushHole, DrmMm.insertHoleSize]
  constructor
  · exact List.nodup_cons.mpr ⟨hstack, h.nodup⟩
  · intro x
    change x ∈ n :: mm.holeStack ↔ ((mm.pushHole n holeSize).node x).holeSize ≠ 0
    by_cases hx : x = n
    · subst hx
      simp [hnew, hsize]
    · rw [hold x hx, List.mem_cons, h.mem x]
      simp [hx, DrmMm.holeFollows]
  · exact (holesSize_pushHole mm n holeSize).trans (h.perm.cons n)
  · have hkept : mm.holesSize.Pairwise fun x y => ((mm.pushHole n holeSize).node y).holeSize ≤
        ((mm.pushHole n holeSize).node x).holeSize := by
      apply h.sorted.imp_of_mem
      intro x y hx hy hle
      have hxn : x ≠ n := fun heq => hnone (heq ▸ h.mem_holesSize.mp hx)
      have hyn : y ≠ n := fun heq => hnone (heq ▸ h.mem_holesSize.mp hy)
      rw [hold x hxn, hold y hyn]
      exact hle
    refine pairwise_insert ?_ ?_ n hkept
    · exact fun x y => le_total _ _
    · exact fun hle hle' => le_trans hle' hle

theorem HoleIndex.dropHole (h : HoleIndex mm) : HoleIndex (mm.dropHole n) := by
  have hold : ∀ x, x ≠ n → ((mm.dropHole n).node x).holeSize = (mm.node x).holeSize := by
    intro x hx
    simp [DrmMm.dropHole, hx]
  have hnew : ((mm.dropHole n).node n).holeSize = 0 := by
    simp [DrmMm.dropHole]
  constructor
  · exact h.nodup.erase n
  · intro x
    change x ∈ mm.holeStack.erase n ↔ ((mm.dropHole n).node x).holeSize ≠ 0
    rw [h.nodup.mem_erase_iff]
    by_cases hx : x = n
    · subst hx
      simp [hnew]
    · rw [hold x hx, h.mem x]
      simp [hx, DrmMm.holeFollows]
  · exact h.perm.erase n
  · have hsub : (mm.holesSize.erase n).Pairwise
        fun x y => (mm.node y).holeSize ≤ (mm.node x).holeSize :=
      h.sorted.sublist List.erase_sublist
    apply hsub.imp_of_mem
    intro x y hx hy hle
    rw [hold x (h.holesSize_nodup.mem_erase_iff.mp hx).1,
      hold y (h.holesSize_nodup.mem_erase_iff.mp hy).1]
    exact hle

theorem holeNodeEnd_eq (hnext : (mm.nodeList n).next = some m) :
    mm.holeNodeEnd n = .ok (mm.node m).start := by
  rw [DrmMm.holeNodeEnd, DrmMm.listNextEntry, hnext]
  rfl

theorem addHole_eq (hnext : (mm.nodeList n).next = some m)
    (hgap : sub64 (mm.node m).start (mm.holeNodeStart n) ≠ 0) :
    mm.addHole n =
      .ok (mm.pushHole n (sub64 (mm.node m).start (mm.holeNodeStart n))) := by
  have hfollows : ¬ ¬ (mm.setNode n { mm.node n with
      holeSize := sub64 (mm.node m).start (mm.holeNodeStart n) }).holeFollows n := by
    simp [DrmMm.holeFollows, hgap]
  rw [DrmMm.addHole, holeNodeEnd_eq hnext]
  simp only [bind, Except.bind, bugOn_of_not hfollows]
  rfl

theorem rmHole_eq (h : HoleIndex mm) (hfollows : mm.holeFollows n) :
    mm.rmHole n = .ok (mm.dropHole n) := by
  have hstack : n ∈ mm.holeStack := (h.mem n).mpr hfollows
  have htree : n ∈ mm.holesSize := h.mem_holesSize.mpr hfollows
  have hempty : ¬ (mm.dropHole n).holeFollows n := by
    simp [DrmMm.holeFollows, DrmMm.dropHole]
  rw [DrmMm.rmHole, bugOn_of_not (not_not_intro hfollows), eraseEntry, if_pos hstack,
    eraseEntry, if_pos htree]
  change (do bugOn ((mm.dropHole n).holeFollows n) .rmHole; pure (mm.dropHole n)) = _
  rw [bugOn_of_not hempty]
  rfl

theorem HoleEdit.node_eq {size : Nat} (h : HoleEdit mm mm' n size) (k : NodeRef) :
    mm'.node k =
      { mm.node k with holeSize := if k = n then size else (mm.node k).holeSize } := by
  rw [h.node]
  by_cases hk : k = n
  · subst hk
    simp
  · simp [hk]

theorem HoleEdit.holeNodeStart {size : Nat} (h : HoleEdit mm mm' n size) (k : NodeRef) :
    mm'.holeNodeStart k = mm.holeNodeStart k := by
  rw [DrmMm.holeNodeStart, h.node_eq]
  rfl

/-- Clearing the hole behind a node, if there is one. -/
theorem clearHole_edit (h : HoleIndex mm) (n : NodeRef) :
    ∃ mm', mm.rmHoleIf n = .ok mm' ∧ HoleEdit mm mm' n 0 := by
  rw [DrmMm.rmHoleIf]
  by_cases hfollows : mm.holeFollows n
  · refine ⟨mm.dropHole n, ?_, ?_⟩
    · rw [if_pos hfollows, rmHole_eq h hfollows]
    · exact ⟨rfl, rfl, rfl, h.dropHole⟩
  · refine ⟨mm, by rw [if_neg hfollows]; rfl, rfl, rfl, ?_, h⟩
    have hzero : (mm.node n).holeSize = 0 := not_not.mp hfollows
    have hself : { mm.node n with holeSize := 0 } = mm.node n := by rw [← hzero]
    rw [hself, Function.update_eq_self]

theorem addHole_edit (h : HoleIndex mm) (hnone : (mm.node n).holeSize = 0)
    (hnext : (mm.nodeList n).next = some m) (hgap : mm.holeNodeStart n < (mm.node m).start)
    (hword : (mm.node m).start < 2 ^ 64) :
    ∃ mm', mm.addHole n = .ok mm' ∧
      HoleEdit mm mm' n ((mm.node m).start - mm.holeNodeStart n) := by
  have hsub := sub64_of_le hgap.le hword
  have hpos : sub64 (mm.node m).start (mm.holeNodeStart n) ≠ 0 := by omega
  refine ⟨_, addHole_eq hnext hpos, ?_⟩
  rw [hsub] at hpos ⊢
  exact ⟨rfl, rfl, rfl, h.pushHole (not_not.mpr hnone) hpos⟩

/-- Recording the hole behind a node, if the gap to its successor is not empty. -/
theorem fillHole_edit (condition : Prop) [Decidable condition] (h : HoleIndex mm)
    (hnone : (mm.node n).holeSize = 0) (hnext : (mm.nodeList n).next = some m)
    (hle : mm.holeNodeStart n ≤ (mm.node m).start) (hword : (mm.node m).start < 2 ^ 64)
    (hcondition : condition ↔ mm.holeNodeStart n < (mm.node m).start) :
    ∃ mm', mm.addHoleIf n condition = .ok mm' ∧
      HoleEdit mm mm' n ((mm.node m).start - mm.holeNodeStart n) := by
  rw [DrmMm.addHoleIf]
  by_cases hgap : mm.holeNodeStart n < (mm.node m).start
  · rw [if_pos (hcondition.mpr hgap)]
    exact addHole_edit h hnone hnext hgap hword
  · refine ⟨mm, by rw [if_neg (fun hc => hgap (hcondition.mp hc))]; rfl, rfl, rfl, ?_, h⟩
    have hzero : (mm.node m).start - mm.holeNodeStart n = 0 := by omega
    have hself : { mm.node n with holeSize := 0 } = mm.node n := by rw [← hnone]
    rw [hzero, hself, Function.update_eq_self]

end Index

end CmaPool.Drm
