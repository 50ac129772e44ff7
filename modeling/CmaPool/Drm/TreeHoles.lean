import CmaPool.Drm.Trees
import CmaPool.Drm.Search

/-! The holes in their trees: what one edit of a hole does to the trees is what it does
to the list of hole sizes. -/

namespace CmaPool.Drm

open RedBlack Rbtree RbRoot

/-- The trees of `t` hold the holes of `mm` and the nodes of `l`, each in its order. -/
structure InTrees (t : TreeMm) (mm : DrmMm) (l : List NodeRef) : Prop where
  rest : t.mm = { mm with holesSize := [] }
  index : HoleIndex mm
  sizes : IsCached combineUnit t.holesSize mm.holesSize
  addrs : ∃ holes, IsTree combineUnit t.holesAddr holes ∧ holes.Perm mm.holesSize ∧
    holes.Pairwise fun n m => mm.holeNodeStart n ≤ mm.holeNodeStart m
  interval : IsCached (combineMax mm.last) t.intervalTree l

/-- The trees of `t` beside what `mm` holds otherwise. -/
def TreeMm.beside (t : TreeMm) (mm : DrmMm) : TreeMm := { t with mm := { mm with holesSize := [] } }

section Beside

variable (t : TreeMm) (mm : DrmMm)

@[simp] theorem beside_node : (t.beside mm).mm.node = mm.node := rfl

@[simp] theorem beside_holeNodeStart : (t.beside mm).mm.holeNodeStart = mm.holeNodeStart := rfl

@[simp] theorem beside_last : (t.beside mm).mm.last = mm.last := rfl

@[simp] theorem beside_holesSize : (t.beside mm).holesSize = t.holesSize := rfl

@[simp] theorem beside_holesAddr : (t.beside mm).holesAddr = t.holesAddr := rfl

@[simp] theorem beside_intervalTree : (t.beside mm).intervalTree = t.intervalTree := rfl

end Beside

@[simp] theorem walked_some {α : Type} (x : α) : walked (some x) = .ok x := rfl

section Read

variable {t : TreeMm} {mm mm' : DrmMm} {l : List NodeRef} {n : NodeRef} {size : Nat}

theorem InTrees.node (h : InTrees t mm l) : t.mm.node = mm.node := by rw [h.rest]

theorem InTrees.nodeList (h : InTrees t mm l) : t.mm.nodeList = mm.nodeList := by rw [h.rest]

theorem InTrees.holeStack (h : InTrees t mm l) : t.mm.holeStack = mm.holeStack := by rw [h.rest]

theorem InTrees.holeNodeStart (h : InTrees t mm l) : t.mm.holeNodeStart = mm.holeNodeStart := by
  rw [h.rest]
  rfl

theorem InTrees.last (h : InTrees t mm l) : t.mm.last = mm.last := by
  rw [h.rest]
  rfl

theorem HoleEdit.last (h : HoleEdit mm mm' n size) : mm'.last = mm.last := by
  funext k
  rw [DrmMm.last, DrmMm.last, h.holeNodeStart]

end Read

section Edit

variable {t : TreeMm} {mm mm' : DrmMm} {l : List NodeRef} {n m : NodeRef} {fuel : Nat}

theorem erase_middle {α : Type} [DecidableEq α] {xs ys : List α} {x : α}
    (h : (xs ++ x :: ys).Nodup) : (xs ++ x :: ys).erase x = xs ++ ys := by
  have hx : x ∉ xs := fun hmem => List.disjoint_of_nodup_append h hmem List.mem_cons_self
  rw [List.erase_append_right _ hx, List.erase_cons_head]

/-- What the trees hold after an edit of one hole. -/
theorem InTrees.edited (h : InTrees t mm l) {size : Nat} (hedit : HoleEdit mm mm' n size)
    {holesSize : RbRootCached NodeRef Unit} {holesAddr : RbRoot NodeRef Unit} {holes : List NodeRef}
    (hsizes : IsCached combineUnit holesSize mm'.holesSize)
    (haddrs : IsTree combineUnit holesAddr holes) (hperm : holes.Perm mm'.holesSize)
    (hsorted : holes.Pairwise fun n m => mm.holeNodeStart n ≤ mm.holeNodeStart m) :
    InTrees ({ t with holesSize, holesAddr }.beside mm') mm' l where
  rest := rfl
  index := hedit.index
  sizes := hsizes
  addrs := by
    refine ⟨holes, haddrs, hperm, ?_⟩
    simpa only [hedit.holeNodeStart] using hsorted
  interval := by
    rw [hedit.last]
    exact h.interval

theorem InTrees.rmHole (h : InTrees t mm l) (hfollows : mm.holeFollows n)
    (hfuel : depthBound mm.holesSize.length < fuel) :
    ∃ t', t.rmHole fuel n = .ok t' ∧ InTrees t' (mm.dropHole n) l := by
  have hmem : n ∈ mm.holesSize := h.index.mem_holesSize.mpr hfollows
  have hstack : n ∈ mm.holeStack := (h.index.mem n).mpr hfollows
  have hedit : HoleEdit mm (mm.dropHole n) n 0 := ⟨rfl, rfl, rfl, h.index.dropHole⟩
  -- out of the tree of sizes
  obtain ⟨xs, ys, hsplit⟩ := List.append_of_mem hmem
  have hsizes := h.sizes
  rw [hsplit] at hsizes hfuel
  obtain ⟨holesSize, hrun, hcached⟩ := hsizes.rbEraseCached maintains_dummy totals_unit hfuel
  have hrest : (mm.dropHole n).holesSize = xs ++ ys := by
    change mm.holesSize.erase n = xs ++ ys
    rw [hsplit, erase_middle hsizes.tree.nodup]
  -- out of the tree of addresses
  obtain ⟨holes, htree, hperm, hsorted⟩ := h.addrs
  obtain ⟨as, bs, rfl⟩ := List.append_of_mem (hperm.mem_iff.mpr hmem)
  rw [← hsplit, ← hperm.length_eq] at hfuel
  obtain ⟨holesAddr, haddr, htree'⟩ := htree.rbErase maintains_dummy totals_unit hfuel
  have hperm' : (as ++ bs).Perm (mm.dropHole n).holesSize := by
    have herased := hperm.erase n
    rwa [erase_middle htree.nodup] at herased
  have hsorted' : (as ++ bs).Pairwise fun n m => mm.holeNodeStart n ≤ mm.holeNodeStart m :=
    hsorted.sublist (List.Sublist.append_left (List.sublist_cons_self n bs) as)
  rw [← hrest] at hcached
  refine ⟨_, ?_, h.edited hedit hcached htree' hperm' hsorted'⟩
  have hfull : ¬ ¬ t.mm.holeFollows n := by
    rw [h.rest]
    exact not_not_intro hfollows
  have hempty : ¬ (mm.dropHole n).holeFollows n := by
    simp [DrmMm.holeFollows, DrmMm.dropHole]
  rw [TreeMm.rmHole, bugOn_of_not hfull, ok_bind, h.holeStack, eraseEntry, if_pos hstack,
    pure_eq_ok, ok_bind, hrun, walked_some, ok_bind, haddr, walked_some, ok_bind, h.rest]
  change (do bugOn ((mm.dropHole n).holeFollows n) .rmHole; pure _) = _
  rw [bugOn_of_not hempty]
  rfl

theorem InTrees.addHole (h : InTrees t mm l) (hnone : ¬ mm.holeFollows n)
    (hnext : (mm.nodeList n).next = some m) {size : Nat}
    (hsize : sub64 (mm.node m).start (mm.holeNodeStart n) = size) (hgap : size ≠ 0)
    (hfuel : depthBound mm.holesSize.length < fuel) :
    ∃ t', t.addHole fuel n = .ok t' ∧ InTrees t' (mm.pushHole n size) l := by
  have hout : n ∉ mm.holesSize := fun hmem => hnone (h.index.mem_holesSize.mp hmem)
  have hedit : HoleEdit mm (mm.pushHole n size) n size :=
    ⟨rfl, rfl, rfl, h.index.pushHole hnone hgap⟩
  let mm₁ := mm.setNode n { mm.node n with holeSize := size }
  have hold : ∀ x ∈ mm.holesSize, (mm₁.node x).holeSize = (mm.node x).holeSize := by
    intro x hx
    have hne : x ≠ n := fun heq => hout (heq ▸ hx)
    simp [mm₁, hne]
  -- into the tree of sizes
  have hgo : mm.holesSize.Pairwise fun y z =>
      decide ((mm₁.node n).holeSize > (mm₁.node y).holeSize) = true →
        decide ((mm₁.node n).holeSize > (mm₁.node z).holeSize) = true := by
    apply h.index.sorted.imp_of_mem
    intro y z hy hz hle hlt
    rw [decide_eq_true_eq, hold y hy] at hlt
    rw [decide_eq_true_eq, hold z hz]
    omega
  obtain ⟨holesSize, hrun, hcached⟩ := h.sizes.insertCached hgo hout hfuel
  have hpassed : (fun y => !decide ((mm₁.node n).holeSize > (mm₁.node y).holeSize)) =
      fun y => decide ((mm₁.node n).holeSize ≤ (mm₁.node y).holeSize) := by
    funext y
    rw [← decide_not]
    exact decide_eq_decide.mpr not_lt
  rw [hpassed] at hcached
  -- into the tree of addresses
  obtain ⟨holes, htree, hperm, hsorted⟩ := h.addrs
  have hfuel' : depthBound holes.length < fuel := by rwa [hperm.length_eq]
  have hout' : n ∉ holes := fun hmem => hout (hperm.mem_iff.mp hmem)
  obtain ⟨link, holesAddr, hfind, hinsert, htree'⟩ := htree.inserted
    (goesLeft_of_sorted mm.holeNodeStart hsorted n) hout' hfuel'
  rw [passed_eq] at htree'
  have hsorted' := pairwise_insert (fun y z => le_total (mm.holeNodeStart y) (mm.holeNodeStart z))
    le_trans n hsorted
  have hperm' := (perm_insert (fun y => mm.holeNodeStart y ≤ mm.holeNodeStart n) n holes).trans
    ((hperm.cons n).trans (holesSize_pushHole mm n size).symm)
  refine ⟨_, ?_, h.edited hedit hcached htree' hperm' hsorted'⟩
  have hend : t.mm.holeNodeEnd n = .ok (mm.node m).start := by
    rw [h.rest]
    exact holeNodeEnd_eq hnext
  have hset : t.setNode n { t.mm.node n with holeSize := size } =
      t.beside mm₁ := by
    rw [TreeMm.setNode, h.rest]
    rfl
  have hfull : ¬ ¬ (t.beside mm₁).mm.holeFollows n := by
    simp [DrmMm.holeFollows, mm₁, hgap]
  have hinsertSize : (t.beside mm₁).insertHoleSize fuel n =
      .ok ({ t with holesSize }.beside mm₁) := by
    rw [TreeMm.insertHoleSize]
    change (do
      let holesSize ← walked (insertCached t.holesSize
        (fun rb => (mm₁.node n).holeSize > (mm₁.node rb).holeSize) fuel n)
      _) = _
    rw [hrun]
    rfl
  have hinsertAddr : ({ t with holesSize }.beside mm₁).insertHoleAddr fuel n =
      .ok ({ t with holesSize, holesAddr }.beside mm₁) := by
    have hkey : mm₁.holeNodeStart = mm.holeNodeStart := funext hedit.holeNodeStart
    rw [TreeMm.insertHoleAddr]
    simp only [beside_holeNodeStart, beside_holesAddr, hkey, rbInsertBefore, hfind,
      Option.bind_eq_bind, Option.bind_some, hinsert, walked_some]
    rfl
  rw [TreeMm.addHole, hend, ok_bind, h.holeNodeStart, hsize]
  simp only [hset, bugOn_of_not hfull, ok_bind, hinsertSize, hinsertAddr]
  rfl

end Edit

section Run

variable {t : TreeMm} {mm mm' : DrmMm} {l : List NodeRef} {n : NodeRef} {fuel : Nat}

theorem rmHole_cases (h : HoleIndex mm) (hrun : mm.rmHole n = .ok mm') :
    mm.holeFollows n ∧ mm' = mm.dropHole n := by
  by_cases hfollows : mm.holeFollows n
  · rw [rmHole_eq h hfollows] at hrun
    exact ⟨hfollows, (Except.ok.inj hrun).symm⟩
  · rw [DrmMm.rmHole, bugOn_of hfollows] at hrun
    cases hrun

theorem addHole_cases (hrun : mm.addHole n = .ok mm') :
    ∃ m size, (mm.nodeList n).next = some m ∧
      sub64 (mm.node m).start (mm.holeNodeStart n) = size ∧ size ≠ 0 ∧
      mm' = mm.pushHole n size := by
  obtain ⟨holeEnd, hend, hrest⟩ := bind_ok hrun
  cases hnext : (mm.nodeList n).next with
  | none =>
      rw [DrmMm.holeNodeEnd, DrmMm.listNextEntry, hnext] at hend
      cases hend
  | some m =>
      rw [holeNodeEnd_eq hnext] at hend
      obtain rfl := Except.ok.inj hend
      by_cases hgap : sub64 (mm.node m).start (mm.holeNodeStart n) = 0
      · have hempty : ¬ (mm.setNode n { mm.node n with
            holeSize := sub64 (mm.node m).start (mm.holeNodeStart n) }).holeFollows n := by
          simp [DrmMm.holeFollows, hgap]
        obtain ⟨_, hbug, _⟩ := bind_ok hrest
        rw [bugOn_of hempty] at hbug
        cases hbug
      · rw [addHole_eq hnext hgap] at hrun
        exact ⟨m, _, rfl, rfl, hgap, (Except.ok.inj hrun).symm⟩

theorem length_dropHole (h : HoleIndex mm) (hfollows : mm.holeFollows n) :
    (mm.dropHole n).holesSize.length + 1 = mm.holesSize.length := by
  have hmem := h.mem_holesSize.mpr hfollows
  have hpos := List.length_pos_of_mem hmem
  change (mm.holesSize.erase n).length + 1 = _
  rw [List.length_erase_of_mem hmem]
  omega

/-- `add_hole`, where the allocator on lists returns. -/
theorem InTrees.addHole_run (h : InTrees t mm l) (hnone : (mm.node n).holeSize = 0)
    (hfuel : depthBound mm.holesSize.length < fuel) (hrun : mm.addHole n = .ok mm') :
    ∃ t', t.addHole fuel n = .ok t' ∧ InTrees t' mm' l ∧
      mm'.holesSize.length = mm.holesSize.length + 1 ∧ ∀ k, k ≠ n → mm'.node k = mm.node k := by
  obtain ⟨m, size, hnext, hsize, hgap, rfl⟩ := addHole_cases hrun
  obtain ⟨t', htree, hin⟩ := h.addHole (not_not_intro hnone) hnext hsize hgap hfuel
  exact ⟨t', htree, hin, (holesSize_pushHole mm n size).length_eq,
    fun k hk => Function.update_of_ne hk _ _⟩

/-- `rm_hole`, where the allocator on lists returns. -/
theorem InTrees.rmHole_run (h : InTrees t mm l) (hfuel : depthBound mm.holesSize.length < fuel)
    (hrun : mm.rmHole n = .ok mm') :
    ∃ t', t.rmHole fuel n = .ok t' ∧ InTrees t' mm' l ∧
      mm'.holesSize.length + 1 = mm.holesSize.length ∧ HoleEdit mm mm' n 0 := by
  obtain ⟨hfollows, rfl⟩ := rmHole_cases h.index hrun
  obtain ⟨t', htree, hin⟩ := h.rmHole hfollows hfuel
  exact ⟨t', htree, hin, length_dropHole h.index hfollows, rfl, rfl, rfl, h.index.dropHole⟩

theorem InTrees.addHoleIf (h : InTrees t mm l) (hnone : (mm.node n).holeSize = 0)
    (hfuel : depthBound mm.holesSize.length < fuel) {condition : Prop} [Decidable condition]
    (hrun : mm.addHoleIf n condition = .ok mm') :
    ∃ t', t.addHoleIf fuel n condition = .ok t' ∧ InTrees t' mm' l ∧
      mm'.holesSize.length ≤ mm.holesSize.length + 1 ∧ ∀ k, k ≠ n → mm'.node k = mm.node k := by
  rw [DrmMm.addHoleIf] at hrun
  rw [TreeMm.addHoleIf]
  split at hrun
  · next hcondition =>
      obtain ⟨t', htree, hin, hlen, hkept⟩ := h.addHole_run hnone hfuel hrun
      rw [if_pos hcondition]
      exact ⟨t', htree, hin, hlen.le, hkept⟩
  · next hcondition =>
      obtain rfl := Except.ok.inj hrun
      rw [if_neg hcondition]
      exact ⟨t, rfl, h, Nat.le_succ _, fun _ _ => rfl⟩

theorem InTrees.rmHoleIf (h : InTrees t mm l) (hfuel : depthBound mm.holesSize.length < fuel)
    (hrun : mm.rmHoleIf n = .ok mm') :
    ∃ t', t.rmHoleIf fuel n = .ok t' ∧ InTrees t' mm' l ∧
      mm'.holesSize.length ≤ mm.holesSize.length ∧ HoleEdit mm mm' n 0 := by
  obtain ⟨edited, hedited, hedit⟩ := clearHole_edit h.index n
  rw [hrun] at hedited
  obtain rfl := Except.ok.inj hedited
  have hsame : t.mm.holeFollows n ↔ mm.holeFollows n := by
    rw [h.rest]
    exact Iff.rfl
  rw [TreeMm.rmHoleIf]
  rw [DrmMm.rmHoleIf] at hrun
  split at hrun
  · next hfollows =>
      obtain ⟨t', htree, hin, hlen, _⟩ := h.rmHole_run hfuel hrun
      rw [if_pos (hsame.mpr hfollows)]
      exact ⟨t', htree, hin, by omega, hedit⟩
  · next hfollows =>
      obtain rfl := Except.ok.inj hrun
      rw [if_neg (mt hsame.mp hfollows)]
      exact ⟨t, rfl, h, le_rfl, hedit⟩

end Run

end CmaPool.Drm
