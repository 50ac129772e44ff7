import CmaPool.Drm.Validity

/-! Removing a node from a valid allocator. -/

namespace CmaPool.Drm

section Remove

variable {mm : DrmMm} {xs ys : List NodeRef} {n : NodeRef}

/-- The state after the node was linked out, before its gap is recorded. -/
def DrmMm.unlinkNode (mm : DrmMm) (n : NodeRef) (nodeList : Ring.Links NodeRef) : DrmMm :=
  { mm with nodeList }.setNode n { mm.node n with allocated := false }

/-- The holes on the two sides of the node leave the index, and the gap it
leaves behind enters it. -/
theorem removeNode_edits (h : Valid mm (xs ++ n :: ys)) :
    ∃ mm₁ mm₂ mm₃,
      HoleEdit mm mm₁ n 0 ∧
      HoleEdit (mm₁.unlinkNode n (Function.update (Ring.bridge mm.nodeList
        (Ring.before .head xs) (Ring.after .head ys)) n Ring.poisoned)) mm₂
        (Ring.before .head xs) 0 ∧
      HoleEdit mm₂ mm₃ (Ring.before .head xs)
        (Gaps.firstStart (mm.blocks ys) poolSize - Gaps.lastEnd 0 (mm.blocks xs)) ∧
      mm.removeNode n = .ok mm₃ := by
  have hpool : poolSize = 134217728 := rfl
  have hn : n ∈ xs ++ n :: ys := by simp
  have hallocated : ¬ (mm.node n).allocated = false := by simp [(h.allocated n).mpr hn]
  have hscanned : ¬ (mm.node n).scannedBlock = true := by simp [h.unscanned n]
  have hprev : mm.listPrevEntry n = .ok (Ring.before .head xs) := by
    rw [DrmMm.listPrevEntry, h.ring.prev_member]
    rfl
  have hring := h.ring.deleted
  rcases clearHole_edit h.index n with ⟨mm₁, hrun₁, hedit₁⟩
  have hindex : HoleIndex (mm₁.unlinkNode n (Function.update (Ring.bridge mm.nodeList
      (Ring.before .head xs) (Ring.after .head ys)) n Ring.poisoned)) := by
    refine HoleIndex.of_eq hedit₁.index rfl rfl ?_
    intro m
    by_cases hm : m = n
    · subst hm
      simp [DrmMm.unlinkNode]
    · simp [DrmMm.unlinkNode, hm]
  rcases clearHole_edit hindex (Ring.before .head xs) with ⟨mm₂, hrun₂, hedit₂⟩
  have hside := h.ring.nodup_remove.1
  have hbn : Ring.before .head xs ≠ n :=
    fun heq => hside (heq ▸ Ring.before_mem_ring .head xs ys)
  have han : Ring.after .head ys ≠ n :=
    fun heq => hside (heq ▸ Ring.after_mem_ring .head xs ys)
  have hstart₂ : mm₂.holeNodeStart (Ring.before .head xs) = Gaps.lastEnd 0 (mm.blocks xs) := by
    have hbefore : (mm₁.unlinkNode n (Function.update (Ring.bridge mm.nodeList
        (Ring.before .head xs) (Ring.after .head ys)) n Ring.poisoned)).node
        (Ring.before .head xs) = mm₁.node (Ring.before .head xs) :=
      Function.update_of_ne hbn _ _
    rw [hedit₂.holeNodeStart, DrmMm.holeNodeStart, hbefore, ← DrmMm.holeNodeStart,
      hedit₁.holeNodeStart]
    exact lastEnd_blocks h.toPlaced
  have hafter₂ : (mm₂.node (Ring.after .head ys)).start =
      Gaps.firstStart (mm.blocks ys) poolSize := by
    have hafter : (mm₁.unlinkNode n (Function.update (Ring.bridge mm.nodeList
        (Ring.before .head xs) (Ring.after .head ys)) n Ring.poisoned)).node
        (Ring.after .head ys) = mm₁.node (Ring.after .head ys) :=
      Function.update_of_ne han _ _
    have hplaced : Placed mm ((xs ++ [n]) ++ ys) := by simpa using h.toPlaced
    rw [hedit₂.node_eq, hafter, hedit₁.node_eq]
    exact firstStart_blocks hplaced
  have hgap : Gaps.lastEnd 0 (mm.blocks xs) < Gaps.firstStart (mm.blocks ys) poolSize ∧
      Gaps.firstStart (mm.blocks ys) poolSize ≤ poolSize := by
    have hplaced : Placed mm ((xs ++ [n]) ++ ys) := by simpa using h.toPlaced
    have hlow := h.toPlaced.gap.1
    have hhigh := hplaced.gap
    have hpos := h.sized n hn
    have hend : Gaps.lastEnd 0 (mm.blocks (xs ++ [n])) =
        (mm.node n).start + (mm.node n).size := by
      rw [← lastEnd_blocks hplaced, Ring.before_concat]
      exact h.toPlaced.holeNodeStart_of_mem hn
    have hfirst : Gaps.firstStart (mm.blocks (n :: ys)) poolSize = (mm.node n).start := rfl
    omega
  have hnext₂ : (mm₂.nodeList (Ring.before .head xs)).next = some (Ring.after .head ys) := by
    rw [hedit₂.nodeList]
    exact hring.2.next_eq
  have hnone₂ : (mm₂.node (Ring.before .head xs)).holeSize = 0 := by
    rw [hedit₂.node_eq]
    simp
  rcases addHole_edit hedit₂.index hnone₂ hnext₂ (by rw [hstart₂, hafter₂]; exact hgap.1)
      (by rw [hafter₂]; omega) with ⟨mm₃, hrun₃, hedit₃⟩
  rw [hstart₂, hafter₂] at hedit₃
  refine ⟨mm₁, mm₂, mm₃, hedit₁, hedit₂, hedit₃, ?_⟩
  rw [DrmMm.removeNode, bugOn_of_not hallocated, ok_bind, bugOn_of_not hscanned, ok_bind, hprev,
    ok_bind, hrun₁, ok_bind, hedit₁.nodeList, hring.1, pointer_some, ok_bind]
  change (do
    let mm ← (mm₁.unlinkNode n _).rmHoleIf (Ring.before .head xs)
    mm.addHole (Ring.before .head xs)) = _
  rw [hrun₂, ok_bind, hrun₃]

theorem removeNode_valid (h : Valid mm (xs ++ n :: ys)) :
    ∃ mm', mm.removeNode n = .ok mm' ∧ Valid mm' (xs ++ ys) ∧
      ∀ m, mm'.block m = mm.block m := by
  rcases removeNode_edits h with ⟨mm₁, mm₂, mm₃, hedit₁, hedit₂, hedit₃, hrun⟩
  have hside := h.ring.nodup_remove.1
  have hbn : Ring.before .head xs ≠ n :=
    fun heq => hside (heq ▸ Ring.before_mem_ring .head xs ys)
  have hlinks : mm₃.nodeList = Function.update (Ring.bridge mm.nodeList
      (Ring.before .head xs) (Ring.after .head ys)) n Ring.poisoned := by
    rw [hedit₃.nodeList, hedit₂.nodeList]
    rfl
  have hself : mm₃.node n = { mm.node n with allocated := false, holeSize := 0 } := by
    rw [hedit₃.node_eq, hedit₂.node_eq]
    simp [DrmMm.unlinkNode, hedit₁.node_eq, hbn.symm]
  have hother : ∀ m, m ≠ n → mm₃.node m = { mm.node m with
      holeSize := if m = Ring.before .head xs then
          Gaps.firstStart (mm.blocks ys) poolSize - Gaps.lastEnd 0 (mm.blocks xs)
        else (mm.node m).holeSize } := by
    intro m hm
    rw [hedit₃.node_eq, hedit₂.node_eq]
    simp only [DrmMm.unlinkNode, setNode_node, Function.update_of_ne hm, hedit₁.node_eq]
    by_cases hhole : m = Ring.before .head xs
    · simp [hhole]
    · simp [hhole, hm]
  have hblock : ∀ m, mm₃.block m = mm.block m := by
    intro m
    by_cases hm : m = n
    · subst hm
      rw [DrmMm.block, hself]
      rfl
    · rw [DrmMm.block, hother m hm]
      rfl
  have hstarts : ∀ m, mm₃.holeNodeStart m = mm.holeNodeStart m := by
    intro m
    have hsame := hblock m
    have hstart : (mm₃.node m).start = (mm.node m).start := congrArg Prod.fst hsame
    have hend : (mm₃.node m).start + (mm₃.node m).size =
        (mm.node m).start + (mm.node m).size := congrArg Prod.snd hsame
    rw [DrmMm.holeNodeStart, DrmMm.holeNodeStart, add64, add64, hend]
  have hold : ∀ m ∈ NodeRef.head :: (xs ++ ys), m ≠ n := fun m hm heq => hside (heq ▸ hm)
  have hmem : ∀ m, m ∈ xs ++ ys ↔ m ≠ n ∧ m ∈ xs ++ n :: ys := by
    intro m
    rw [List.perm_middle.mem_iff, List.mem_cons]
    constructor
    · intro hm
      exact ⟨hold m (List.mem_cons_of_mem _ hm), Or.inr hm⟩
    · rintro ⟨hne, hm⟩
      exact hm.resolve_left hne
  have hblocks : mm₃.blocks (xs ++ ys) = mm.blocks (xs ++ ys) :=
    List.map_congr_left fun m _ => hblock m
  refine ⟨mm₃, hrun, ?_, hblock⟩
  constructor
  · constructor
    · rw [hother _ (hold _ List.mem_cons_self)]
      exact h.headStart
    · rw [hother _ (hold _ List.mem_cons_self)]
      exact h.headSize
    · rw [hblocks]
      apply h.packed.sublist
      exact (List.Sublist.append_left (List.sublist_cons_self n ys) xs).map _
  · rw [hlinks]
    exact h.ring.deleted.2
  · intro m
    by_cases hm : m = n
    · subst hm
      simp [hself, hmem]
    · rw [hother m hm, hmem]
      simpa [hm] using h.allocated m
  · intro m hm
    rcases (hmem m).mp hm with ⟨hne, hm⟩
    rw [hother m hne]
    exact h.attached m hm
  · intro m hm
    rcases (hmem m).mp hm with ⟨hne, hm⟩
    rw [hother m hne]
    exact h.sized m hm
  · intro m hm
    rcases (hmem m).mp hm with ⟨hne, hm⟩
    rw [hother m hne]
    exact h.aligned m hm
  · intro m
    by_cases hm : m = n
    · subst hm
      rw [hself]
      exact h.unscanned m
    · rw [hother m hm]
      exact h.unscanned m
  · rw [hedit₃.scanActive, hedit₂.scanActive]
    exact hedit₁.scanActive.trans h.idle
  · intro m hm k hnext
    have hmn := hold m hm
    rw [hlinks, Function.update_of_ne hmn, Ring.bridge_next] at hnext
    split at hnext
    · next hhole =>
        obtain rfl := Option.some.inj hnext
        have hplaced : Placed mm ((xs ++ [n]) ++ ys) := by simpa using h.toPlaced
        rw [hstarts, hother m hmn, hother _ (hold _ (Ring.after_mem_ring .head xs ys)), hhole,
          lastEnd_blocks h.toPlaced]
        simp [firstStart_blocks hplaced]
    · next hhole =>
        have hin : m ∈ NodeRef.head :: (xs ++ n :: ys) := by
          rcases List.mem_cons.mp hm with rfl | hm
          · exact List.mem_cons_self
          · exact List.mem_cons_of_mem _ ((hmem m).mp hm).2
        have hkn : k ≠ n := by
          rintro rfl
          have hback := h.ring.prev_of_next hin hnext
          rw [h.ring.prev_member] at hback
          exact hhole (Option.some.inj hback).symm
        rw [hstarts, hother m hmn, hother k hkn]
        simpa [hhole] using h.hole m hin k hnext
  · intro m hout
    by_cases hm : m = n
    · subst hm
      rw [hself]
    · have hnot : m ∉ NodeRef.head :: (xs ++ n :: ys) := by
        intro hin
        apply hout
        rcases List.mem_cons.mp hin with rfl | hin
        · exact List.mem_cons_self
        · exact List.mem_cons_of_mem _ ((hmem m).mpr ⟨hm, hin⟩)
      have hhole : m ≠ Ring.before .head xs :=
        fun heq => hout (heq ▸ Ring.before_mem_ring .head xs ys)
      rw [hother m hm]
      simpa [hhole] using h.noHole m hnot
  · exact hedit₃.index

theorem addHole_top {mm mm' : DrmMm} (hrun : mm.addHole n = .ok mm') :
    mm'.holeStack.head? = some n := by
  rcases bind_ok hrun with ⟨_, _, hrun⟩
  rcases bind_ok hrun with ⟨_, _, hrun⟩
  cases hrun
  rfl

/-- The gap that a node leaves is the first hole of the stack. -/
theorem removeNode_top (h : Valid mm (xs ++ n :: ys)) {mm' : DrmMm}
    (hrun : mm.removeNode n = .ok mm') :
    mm'.holeStack.head? = some (Ring.before .head xs) := by
  rcases bind_ok hrun with ⟨_, _, hrun⟩
  rcases bind_ok hrun with ⟨_, _, hrun⟩
  rcases bind_ok hrun with ⟨prev, hprev, hrun⟩
  rw [DrmMm.listPrevEntry, h.ring.prev_member] at hprev
  cases hprev
  rcases bind_ok hrun with ⟨_, _, hrun⟩
  rcases bind_ok hrun with ⟨_, _, hrun⟩
  rcases bind_ok hrun with ⟨_, _, hrun⟩
  exact addHole_top hrun

end Remove

end CmaPool.Drm
