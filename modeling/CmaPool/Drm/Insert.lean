import CmaPool.Drm.Validity

/-! Inserting a node into a valid allocator. -/

namespace CmaPool.Drm

/-- `mm'` differs from `mm` in where `p` lies. -/
structure PlacedAt (mm mm' : DrmMm) (p : NodeRef) (start size : Nat) : Prop where
  start : (mm'.node p).start = start
  size : (mm'.node p).size = size
  other : ∀ n, n ≠ p → mm'.block n = mm.block n

section InsertInHole

variable {mm : DrmMm} {xs ys : List NodeRef} {p : NodeRef} {start size : Nat}

theorem Valid.holeSize_before (h : Valid mm (xs ++ ys)) :
    (mm.node (Ring.before .head xs)).holeSize =
      Gaps.firstStart (mm.blocks ys) poolSize - Gaps.lastEnd 0 (mm.blocks xs) := by
  have hmem : Ring.before .head xs ∈ NodeRef.head :: (xs ++ ys) :=
    Ring.before_mem_ring .head xs ys
  rw [h.hole _ hmem _ h.ring.next_eq, lastEnd_blocks h.toPlaced, firstStart_blocks h.toPlaced]

/-- The state after the node was linked in, before the holes are redone. -/
def DrmMm.linkNode (mm : DrmMm) (p : NodeRef) (start size : Nat)
    (nodeList : Ring.Links NodeRef) : DrmMm :=
  { mm with nodeList }.setNode p
    { mm.node p with mm := true, size, start, holeSize := 0, allocated := true }

theorem insertInHole_eq (h : Valid mm (xs ++ ys)) (p : NodeRef) (size start : Nat)
    (holeStart holeEnd : Nat) :
    mm.insertInHole p (Ring.before .head xs) size holeStart holeEnd start = (do
      let mm ← (mm.linkNode p start size (Ring.insertBetween mm.nodeList p
        (Ring.before .head xs) (Ring.after .head ys))).rmHole (Ring.before .head xs)
      let mm ← mm.addHoleIf (Ring.before .head xs) (start > holeStart)
      mm.addHoleIf p (add64 start size < holeEnd)) := by
  have hlink := h.ring.listAdd_eq p
  simp only [DrmMm.insertInHole, setNode_nodeList, hlink, pointer_some, ok_bind]
  congr 2
  simp [DrmMm.linkNode, DrmMm.setNode]

theorem linkNode_node (h : p ∉ NodeRef.head :: (xs ++ ys)) (nodeList : Ring.Links NodeRef)
    {n : NodeRef} (hn : n ∈ NodeRef.head :: (xs ++ ys)) :
    (mm.linkNode p start size nodeList).node n = mm.node n := by
  have hne : n ≠ p := fun heq => h (heq ▸ hn)
  exact Function.update_of_ne hne _ _

theorem Valid.linkNode_index (h : Valid mm (xs ++ ys)) (hp : p ∉ NodeRef.head :: (xs ++ ys))
    (nodeList : Ring.Links NodeRef) : HoleIndex (mm.linkNode p start size nodeList) := by
  refine HoleIndex.of_eq h.index rfl rfl ?_
  intro n
  by_cases hn : n = p
  · subst hn
    simp [DrmMm.linkNode, h.noHole n hp]
  · simp [DrmMm.linkNode, hn]

/-- The hole is taken out of the index, then what is left of it on the two sides
of the node goes back in. -/
theorem insertInHole_edits (h : Valid mm (xs ++ ys)) (hp : p ∉ NodeRef.head :: (xs ++ ys))
    (hsize : size ≠ 0) (hlow : Gaps.lastEnd 0 (mm.blocks xs) ≤ start)
    (hhigh : start + size ≤ Gaps.firstStart (mm.blocks ys) poolSize)
    {linked : DrmMm} (hlinked : linked = mm.linkNode p start size (Ring.insertBetween mm.nodeList p
      (Ring.before .head xs) (Ring.after .head ys))) :
    ∃ mm₁ mm₂ mm₃,
      HoleEdit linked mm₁ (Ring.before .head xs) 0 ∧
      HoleEdit mm₁ mm₂ (Ring.before .head xs) (start - Gaps.lastEnd 0 (mm.blocks xs)) ∧
      HoleEdit mm₂ mm₃ p (Gaps.firstStart (mm.blocks ys) poolSize - (start + size)) ∧
      mm.insertInHole p (Ring.before .head xs) size (Gaps.lastEnd 0 (mm.blocks xs))
        (Gaps.firstStart (mm.blocks ys) poolSize) start = .ok mm₃ := by
  have hpool : poolSize = 134217728 := rfl
  have hgap := h.toPlaced.gap
  have hring : Ring.IsRing linked.nodeList .head (xs ++ p :: ys) := by
    rw [hlinked]
    exact h.ring.inserted hp
  have hbefore : Ring.before .head xs ∈ NodeRef.head :: (xs ++ ys) :=
    Ring.before_mem_ring .head xs ys
  have hafter : Ring.after .head ys ∈ NodeRef.head :: (xs ++ ys) :=
    Ring.after_mem_ring .head xs ys
  have hindex : HoleIndex linked := by
    rw [hlinked]
    exact h.linkNode_index hp _
  have hholeNode : linked.node (Ring.before .head xs) = mm.node (Ring.before .head xs) := by
    rw [hlinked]
    exact linkNode_node hp _ hbefore
  have hstart : linked.holeNodeStart (Ring.before .head xs) =
      Gaps.lastEnd 0 (mm.blocks xs) := by
    rw [DrmMm.holeNodeStart, hholeNode]
    exact lastEnd_blocks h.toPlaced
  have hnode : (linked.node p).start = start ∧ (linked.node p).size = size ∧
      (linked.node p).holeSize = 0 := by
    rw [hlinked]
    simp [DrmMm.linkNode]
  have hfollows : linked.holeFollows (Ring.before .head xs) := by
    rw [DrmMm.holeFollows, hholeNode, h.holeSize_before]
    omega
  have hdrop : HoleEdit linked (linked.dropHole (Ring.before .head xs))
      (Ring.before .head xs) 0 := ⟨rfl, rfl, rfl, hindex.dropHole⟩
  have hne : p ≠ Ring.before .head xs := fun heq => hp (heq ▸ hbefore)
  have hstart₁ := (hdrop.holeNodeStart (Ring.before .head xs)).trans hstart
  have hp₁ : ((linked.dropHole (Ring.before .head xs)).node p).start = start := by
    rw [hdrop.node_eq]
    exact hnode.1
  have hnext₁ : ((linked.dropHole (Ring.before .head xs)).nodeList
      (Ring.before .head xs)).next = some p := hring.next_eq
  -- what is left below the node
  rcases fillHole_edit (start > Gaps.lastEnd 0 (mm.blocks xs)) hdrop.index
      (by rw [hdrop.node_eq]; simp) hnext₁ (by rw [hstart₁, hp₁]; exact hlow)
      (by rw [hp₁]; omega) (by rw [hstart₁, hp₁]) with ⟨mm₂, hrun₂, hedit₂⟩
  rw [hstart₁, hp₁] at hedit₂
  have hp₂ : mm₂.holeNodeStart p = start + size := by
    rw [hedit₂.holeNodeStart, hdrop.holeNodeStart, DrmMm.holeNodeStart, hnode.1, hnode.2.1]
    exact add64_of_lt (by omega)
  have hafter₂ : (mm₂.node (Ring.after .head ys)).start =
      Gaps.firstStart (mm.blocks ys) poolSize := by
    rw [hedit₂.node_eq, hdrop.node_eq, hlinked]
    simp only
    rw [linkNode_node hp _ hafter]
    exact firstStart_blocks h.toPlaced
  have hnext₂ : (mm₂.nodeList p).next = some (Ring.after .head ys) := by
    rw [hedit₂.nodeList, hdrop.nodeList]
    exact hring.next_member
  -- what is left above it
  rcases fillHole_edit (add64 start size < Gaps.firstStart (mm.blocks ys) poolSize)
      hedit₂.index (by rw [hedit₂.node_eq, hdrop.node_eq]; simp [hne, hnode.2.2]) hnext₂
      (by rw [hp₂, hafter₂]; exact hhigh) (by rw [hafter₂]; omega)
      (by rw [hp₂, hafter₂, add64_of_lt (by omega)]) with ⟨mm₃, hrun₃, hedit₃⟩
  rw [hp₂, hafter₂] at hedit₃
  refine ⟨_, mm₂, mm₃, hdrop, hedit₂, hedit₃, ?_⟩
  rw [insertInHole_eq h, ← hlinked, rmHole_eq hindex hfollows, ok_bind, hrun₂, ok_bind, hrun₃]

theorem insertInHole_valid (h : Valid mm (xs ++ ys)) (hp : p ∉ NodeRef.head :: (xs ++ ys))
    (hsize : size ≠ 0) (hclosed : pageSize ∣ start)
    (hlow : Gaps.lastEnd 0 (mm.blocks xs) ≤ start)
    (hhigh : start + size ≤ Gaps.firstStart (mm.blocks ys) poolSize) :
    ∃ mm', mm.insertInHole p (Ring.before .head xs) size (Gaps.lastEnd 0 (mm.blocks xs))
        (Gaps.firstStart (mm.blocks ys) poolSize) start = .ok mm' ∧
      Valid mm' (xs ++ p :: ys) ∧ PlacedAt mm mm' p start size := by
  rcases insertInHole_edits h hp hsize hlow hhigh rfl with
    ⟨mm₁, mm₂, mm₃, hedit₁, hedit₂, hedit₃, hrun⟩
  have hbefore : Ring.before .head xs ∈ NodeRef.head :: (xs ++ ys) :=
    Ring.before_mem_ring .head xs ys
  have hne : p ≠ Ring.before .head xs := fun heq => hp (heq ▸ hbefore)
  have hlinks : mm₃.nodeList =
      Ring.insertBetween mm.nodeList p (Ring.before .head xs) (Ring.after .head ys) := by
    rw [hedit₃.nodeList, hedit₂.nodeList, hedit₁.nodeList]
    rfl
  have hself : mm₃.node p = { mm.node p with
      mm := true, size, start, allocated := true
      holeSize := Gaps.firstStart (mm.blocks ys) poolSize - (start + size) } := by
    rw [hedit₃.node_eq, hedit₂.node_eq, hedit₁.node_eq]
    simp [DrmMm.linkNode]
  have hother : ∀ n, n ≠ p → mm₃.node n = { mm.node n with
      holeSize := if n = Ring.before .head xs then start - Gaps.lastEnd 0 (mm.blocks xs)
        else (mm.node n).holeSize } := by
    intro n hn
    rw [hedit₃.node_eq, hedit₂.node_eq, hedit₁.node_eq]
    by_cases hhole : n = Ring.before .head xs
    · subst hhole
      simp [DrmMm.linkNode, hn]
    · simp [DrmMm.linkNode, hn, hhole]
  have hold : ∀ n ∈ NodeRef.head :: (xs ++ ys), n ≠ p := fun n hn heq => hp (heq ▸ hn)
  have hblock : ∀ n, n ≠ p → mm₃.block n = mm.block n := by
    intro n hn
    rw [DrmMm.block, hother n hn]
    rfl
  have hstarts : ∀ n, n ≠ p → mm₃.holeNodeStart n = mm.holeNodeStart n := by
    intro n hn
    rw [DrmMm.holeNodeStart, hother n hn]
    rfl
  have hmem : ∀ n, n ∈ xs ++ p :: ys ↔ n = p ∨ n ∈ xs ++ ys := by
    intro n
    rw [List.perm_middle.mem_iff, List.mem_cons]
  have hring : Ring.IsRing mm₃.nodeList .head (xs ++ p :: ys) := by
    rw [hlinks]
    exact h.ring.inserted hp
  have hplaced : Placed mm₃ (xs ++ p :: ys) := by
    have hblocks : mm₃.blocks (xs ++ p :: ys) =
        mm.blocks xs ++ (start, start + size) :: mm.blocks ys := by
      have hsame : ∀ l, (∀ n ∈ l, n ∈ xs ++ ys) → mm₃.blocks l = mm.blocks l := by
        intro l hl
        apply List.map_congr_left
        intro n hn
        exact hblock n (hold n (List.mem_cons_of_mem _ (hl n hn)))
      rw [blocks_append, hsame xs fun n hn => List.mem_append_left ys hn]
      change _ ++ mm₃.block p :: mm₃.blocks ys = _
      rw [hsame ys fun n hn => List.mem_append_right xs hn, DrmMm.block, hself]
    have hpacked := h.packed
    rw [blocks_append] at hpacked
    constructor
    · rw [hother _ (hold _ List.mem_cons_self)]
      exact h.headStart
    · rw [hother _ (hold _ List.mem_cons_self)]
      exact h.headSize
    · rw [hblocks]
      exact hpacked.insert hlow (by omega) hhigh
  refine ⟨mm₃, hrun, ?_, by rw [hself], by rw [hself], hblock⟩
  constructor
  · exact hplaced
  · exact hring
  · intro n
    rw [hmem]
    by_cases hn : n = p
    · subst hn
      simp [hself]
    · rw [hother n hn]
      simpa [hn] using h.allocated n
  · intro n hn
    rcases (hmem n).mp hn with rfl | hn
    · rw [hself]
    · rw [hother n (hold n (List.mem_cons_of_mem _ hn))]
      exact h.attached n hn
  · intro n hn
    rcases (hmem n).mp hn with rfl | hn
    · rw [hself]
      exact Nat.pos_of_ne_zero hsize
    · rw [hother n (hold n (List.mem_cons_of_mem _ hn))]
      exact h.sized n hn
  · intro n hn
    rcases (hmem n).mp hn with rfl | hn
    · rw [hself]
      exact hclosed
    · rw [hother n (hold n (List.mem_cons_of_mem _ hn))]
      exact h.aligned n hn
  · intro n
    by_cases hn : n = p
    · subst hn
      rw [hself]
      exact h.unscanned n
    · rw [hother n hn]
      exact h.unscanned n
  · rw [hedit₃.scanActive, hedit₂.scanActive, hedit₁.scanActive]
    exact h.idle
  · intro n hn m hnext
    rw [hlinks, Ring.insertBetween_next _ _ hne] at hnext
    split at hnext
    · next hhole =>
        obtain rfl := Option.some.inj hnext
        have hnp : n ≠ p := by
          rw [hhole]
          exact hne.symm
        rw [hstarts n hnp, hother n hnp, hself, hhole, lastEnd_blocks h.toPlaced]
        simp
    · next hhole =>
        split at hnext
        · next hnp =>
            obtain rfl := Option.some.inj hnext
            rw [hnp, hplaced.holeNodeStart_of_mem ((hmem p).mpr (Or.inl rfl)), hself,
              hother _ (hold _ (Ring.after_mem_ring .head xs ys))]
            simp [firstStart_blocks h.toPlaced]
        · next hnp =>
            have hin : n ∈ NodeRef.head :: (xs ++ ys) := by
              rcases List.mem_cons.mp hn with rfl | hn
              · exact List.mem_cons_self
              · exact List.mem_cons_of_mem _ (((hmem n).mp hn).resolve_left hnp)
            have hmp : m ≠ p := hold m (h.ring.next_mem hin hnext)
            rw [hstarts n hnp, hother n hnp, hother m hmp]
            simpa [hhole] using h.hole n hin m hnext
  · intro n hn
    have hnp : n ≠ p := by
      rintro rfl
      exact hn (List.mem_cons_of_mem _ ((hmem n).mpr (Or.inl rfl)))
    have hout : n ∉ NodeRef.head :: (xs ++ ys) := by
      intro hin
      apply hn
      rcases List.mem_cons.mp hin with rfl | hin
      · exact List.mem_cons_self
      · exact List.mem_cons_of_mem _ ((hmem n).mpr (Or.inr hin))
    have hhole : n ≠ Ring.before .head xs := fun heq => hout (heq ▸ hbefore)
    rw [hother n hnp]
    simpa [hhole] using h.noHole n hout
  · exact hedit₃.index

end InsertInHole

end CmaPool.Drm
