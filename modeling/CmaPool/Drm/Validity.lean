import CmaPool.Drm.Holes
import CmaPool.Lib.Gaps

/-! The allocator between two operations.

The nodes of the ring lie in address order inside the pool, and the hole behind
a node is the gap up to its successor. -/

namespace CmaPool.Drm

/-- Rounding up to a page boundary. -/
def pageUp : ClosureOperator Nat where
  toFun x := (x + 4095) / 4096 * 4096
  monotone' := by
    intro x y hle
    simp only
    omega
  le_closure' := by
    intro x
    omega
  idempotent' := by
    intro x
    omega
  IsClosed x := pageSize ∣ x
  isClosed_iff := by
    intro x
    change 4096 ∣ x ↔ (x + 4095) / 4096 * 4096 = x
    omega

theorem pageUp_apply (x : Nat) : pageUp x = (x + 4095) / 4096 * 4096 := rfl

/-- The allocation goes to the first page boundary of the hole, if it fits
there. -/
theorem adjustHole_eq {holeStart holeEnd size rangeEnd : Nat} (hsize : size ≠ 0)
    (hhole : holeStart ≤ holeEnd) (hend : holeEnd ≤ poolSize)
    (hrange : poolSize ≤ rangeEnd) :
    adjustHole holeStart holeEnd size pageSize 0 rangeEnd =
      if pageUp holeStart + size ≤ holeEnd then some (pageUp holeStart) else none := by
  have hpower : isPowerOf2 pageSize := by decide
  have hmask : holeStart &&& (pageSize - 1) = holeStart % 4096 :=
    Nat.and_two_pow_sub_one_eq_mod holeStart 12
  have hpool : poolSize = 134217728 := rfl
  have hup := pageUp_apply holeStart
  have hmin : min holeEnd rangeEnd = holeEnd := by omega
  generalize pageUp holeStart = up at hup ⊢
  simp only [adjustHole, if_pos hpower, hmask, Nat.max_zero, hmin]
  rw [if_neg (by decide : ¬ pageSize = 0), if_pos (by decide : pageSize - 1 ≠ 0)]
  have hwide : sub64 holeEnd holeStart = holeEnd - holeStart := sub64_of_le hhole (by omega)
  rw [hwide]
  by_cases hroom : holeEnd ≤ holeStart ∨ holeEnd - holeStart < size
  · rw [if_pos hroom, if_neg]
    omega
  · rw [if_neg hroom]
    by_cases hrem : holeStart % 4096 = 0
    · rw [if_pos hrem, if_pos (by omega)]
      congr 1
      omega
    · have haligned : add64 (sub64 holeStart (holeStart % 4096)) pageSize = up := by
        have hdown : sub64 holeStart (holeStart % 4096) = holeStart - holeStart % 4096 :=
          sub64_of_le (by omega) (by omega)
        have hpage : pageSize = 4096 := rfl
        rw [hdown, hpage, add64_of_lt (by omega)]
        omega
      rw [if_neg hrem, haligned]
      by_cases hfit : up + size ≤ holeEnd
      · have hrest : sub64 holeEnd up = holeEnd - up :=
          sub64_of_le (by omega) (by omega)
        rw [hrest, if_neg (by omega), if_neg (by omega), if_pos hfit]
      · rw [if_neg hfit]
        by_cases hlast : holeEnd ≤ up
        · split
          · rfl
          · rw [if_pos (Or.inl hlast)]
        · have hrest : sub64 holeEnd up = holeEnd - up :=
            sub64_of_le (by omega) (by omega)
          rw [hrest, if_pos (Or.inr (by omega))]

def DrmMm.block (mm : DrmMm) (n : NodeRef) : Nat × Nat :=
  ((mm.node n).start, (mm.node n).start + (mm.node n).size)

def DrmMm.blocks (mm : DrmMm) (l : List NodeRef) : List (Nat × Nat) := l.map mm.block

/-- The nodes of `l` lie one after the other inside the pool, and the head node
covers the rest of the address space. -/
structure Placed (mm : DrmMm) (l : List NodeRef) : Prop where
  headStart : (mm.node .head).start = poolSize
  headSize : (mm.node .head).size = 2 ^ 64 - poolSize
  packed : Gaps.Packed 0 (mm.blocks l) poolSize

structure Valid (mm : DrmMm) (l : List NodeRef) : Prop extends Placed mm l where
  ring : Ring.IsRing mm.nodeList .head l
  allocated : ∀ n, (mm.node n).allocated = true ↔ n ∈ l
  attached : ∀ n ∈ l, (mm.node n).mm = true
  sized : ∀ n ∈ l, 0 < (mm.node n).size
  aligned : ∀ n ∈ l, pageSize ∣ (mm.node n).start
  unscanned : ∀ n, (mm.node n).scannedBlock = false
  idle : mm.scanActive = 0
  hole : ∀ n ∈ NodeRef.head :: l, ∀ m, (mm.nodeList n).next = some m →
    (mm.node n).holeSize = (mm.node m).start - mm.holeNodeStart n
  noHole : ∀ n, n ∉ NodeRef.head :: l → (mm.node n).holeSize = 0
  index : HoleIndex mm

section Placed

variable {mm : DrmMm} {l xs ys : List NodeRef} {n : NodeRef}

theorem Placed.holeNodeStart_head (h : Placed mm l) : mm.holeNodeStart .head = 0 := by
  rw [DrmMm.holeNodeStart, h.headStart, h.headSize]
  rfl

theorem Placed.end_le (h : Placed mm l) (hn : n ∈ l) :
    (mm.node n).start + (mm.node n).size ≤ poolSize :=
  (h.packed.mem (List.mem_map.mpr ⟨n, hn, rfl⟩)).2.2

theorem Placed.holeNodeStart_of_mem (h : Placed mm l) (hn : n ∈ l) :
    mm.holeNodeStart n = (mm.node n).start + (mm.node n).size := by
  have hend := h.end_le hn
  have hpool : poolSize = 134217728 := rfl
  exact add64_of_lt (by omega)

theorem blocks_append : mm.blocks (xs ++ ys) = mm.blocks xs ++ mm.blocks ys := List.map_append

theorem lastEnd_before (hends : ∀ x ∈ xs, mm.holeNodeStart x = (mm.block x).2) (n : NodeRef) :
    mm.holeNodeStart (Ring.before n xs) =
      Gaps.lastEnd (mm.holeNodeStart n) (mm.blocks xs) := by
  induction xs generalizing n with
  | nil => rfl
  | cons x xs ih =>
      have htail := ih (fun y hy => hends y (List.mem_cons_of_mem _ hy)) x
      rw [Ring.before_cons, htail, hends x List.mem_cons_self]
      rfl

theorem lastEnd_blocks (h : Placed mm (xs ++ ys)) :
    mm.holeNodeStart (Ring.before .head xs) = Gaps.lastEnd 0 (mm.blocks xs) := by
  have hends : ∀ x ∈ xs, mm.holeNodeStart x = (mm.block x).2 :=
    fun x hx => h.holeNodeStart_of_mem (List.mem_append_left ys hx)
  rw [lastEnd_before hends, h.holeNodeStart_head]

theorem firstStart_blocks (h : Placed mm (xs ++ ys)) :
    (mm.node (Ring.after .head ys)).start = Gaps.firstStart (mm.blocks ys) poolSize := by
  cases ys with
  | nil => simpa [DrmMm.blocks] using h.headStart
  | cons y ys => rfl

/-- The two ends of the gap at a cut of the ring. -/
theorem Placed.gap (h : Placed mm (xs ++ ys)) :
    Gaps.lastEnd 0 (mm.blocks xs) ≤ Gaps.firstStart (mm.blocks ys) poolSize ∧
      Gaps.firstStart (mm.blocks ys) poolSize ≤ poolSize := by
  have hpacked := h.packed
  rw [blocks_append, Gaps.packed_append] at hpacked
  refine ⟨hpacked.2.firstStart_le, ?_⟩
  cases ys with
  | nil => simp [DrmMm.blocks]
  | cons y ys =>
      have hblock := hpacked.2.mem (x := mm.block y) (by simp [DrmMm.blocks])
      calc
        (mm.block y).1 ≤ (mm.block y).2 := hblock.2.1
        _ ≤ poolSize := hblock.2.2

end Placed

section Clear

variable {mm : DrmMm} {l : List NodeRef} {p : NodeRef}

theorem clearNode_of_ne {n : NodeRef} (hn : n ≠ p) : (mm.clearNode p).node n = mm.node n :=
  Function.update_of_ne hn _ _

theorem clearNode_self : (mm.clearNode p).node p = .cleared := Function.update_self _ _ _

theorem clearNode_block {n : NodeRef} (hn : n ≠ p) : (mm.clearNode p).block n = mm.block n := by
  rw [DrmMm.block, clearNode_of_ne hn]
  rfl

/-- A new node outside the ring. -/
theorem Valid.clearNode (h : Valid mm l) (hp : p ∉ NodeRef.head :: l) :
    Valid (mm.clearNode p) l := by
  have hmem : ∀ n ∈ NodeRef.head :: l, n ≠ p := fun n hn heq => hp (heq ▸ hn)
  have hl : ∀ n ∈ l, n ≠ p := fun n hn => hmem n (List.mem_cons_of_mem _ hn)
  have hhead := hmem _ List.mem_cons_self
  have hblocks : (mm.clearNode p).blocks l = mm.blocks l :=
    List.map_congr_left fun n hn => clearNode_block (hl n hn)
  constructor
  · constructor
    · rw [clearNode_of_ne hhead]
      exact h.headStart
    · rw [clearNode_of_ne hhead]
      exact h.headSize
    · rw [hblocks]
      exact h.packed
  · exact h.ring.update_other hp
  · intro n
    by_cases hn : n = p
    · subst hn
      have hout : n ∉ l := fun hin => hp (List.mem_cons_of_mem _ hin)
      rw [clearNode_self]
      simp [DrmMmNode.cleared, hout]
    · rw [clearNode_of_ne hn]
      exact h.allocated n
  · intro n hn
    rw [clearNode_of_ne (hl n hn)]
    exact h.attached n hn
  · intro n hn
    rw [clearNode_of_ne (hl n hn)]
    exact h.sized n hn
  · intro n hn
    rw [clearNode_of_ne (hl n hn)]
    exact h.aligned n hn
  · intro n
    by_cases hn : n = p
    · rw [hn, clearNode_self]
      rfl
    · rw [clearNode_of_ne hn]
      exact h.unscanned n
  · exact h.idle
  · intro n hn m hnext
    have hcell : (mm.clearNode p).nodeList n = mm.nodeList n :=
      Function.update_of_ne (hmem n hn) _ _
    rw [hcell] at hnext
    rw [DrmMm.holeNodeStart, clearNode_of_ne (hmem n hn),
      clearNode_of_ne (hmem m (h.ring.next_mem hn hnext))]
    exact h.hole n hn m hnext
  · intro n hn
    by_cases hnp : n = p
    · rw [hnp, clearNode_self]
      rfl
    · rw [clearNode_of_ne hnp]
      exact h.noHole n hn
  · refine h.index.of_eq rfl rfl fun n => ?_
    by_cases hn : n = p
    · rw [hn, clearNode_self, h.noHole p hp]
      rfl
    · rw [clearNode_of_ne hn]

end Clear

section Init

theorem initHead_other {n : NodeRef} (hn : n ≠ .head) :
    (DrmMm.initHead 0 poolSize).node n = DrmMmNode.cleared :=
  Function.update_of_ne hn _ fun _ => DrmMmNode.cleared

theorem initHead_holeSize (n : NodeRef) : ((DrmMm.initHead 0 poolSize).node n).holeSize = 0 := by
  by_cases hn : n = .head
  · subst hn
    rfl
  · rw [initHead_other hn]
    rfl

theorem initHead_index : HoleIndex (DrmMm.initHead 0 poolSize) where
  nodup := List.nodup_nil
  mem := by
    intro n
    rw [DrmMm.holeFollows, initHead_holeSize]
    simp [DrmMm.initHead]
  perm := List.Perm.refl _
  sorted := List.Pairwise.nil

/-- `drm_mm_init` on the range of the pool. -/
theorem init_valid : ∃ mm, DrmMm.init 0 poolSize = .ok mm ∧ Valid mm [] := by
  have hbug : ¬ (add64 0 poolSize ≤ 0) := by decide
  have hring : Ring.IsRing (DrmMm.initHead 0 poolSize).nodeList .head ([] ++ []) :=
    Ring.isRing_initListHead
  have hstart : (DrmMm.initHead 0 poolSize).holeNodeStart .head = 0 := by decide
  have hend : ((DrmMm.initHead 0 poolSize).node .head).start = poolSize := by decide
  have hnext : ((DrmMm.initHead 0 poolSize).nodeList .head).next = some .head := hring.next_eq
  rcases addHole_edit initHead_index (initHead_holeSize .head) hnext
      (by rw [hstart, hend]; decide) (by rw [hend]; decide) with ⟨mm, hrun, hedit⟩
  rw [DrmMm.init, bugOn_of_not hbug, ok_bind]
  refine ⟨mm, hrun, ?_⟩
  have hhead : mm.node .head = { (DrmMm.initHead 0 poolSize).node .head with
      holeSize := poolSize } := by
    rw [hedit.node_eq, hstart, hend]
    simp
  have hother : ∀ n, n ≠ .head → mm.node n = DrmMmNode.cleared := by
    intro n hn
    rw [hedit.node_eq, initHead_other hn]
    simp [hn, DrmMmNode.cleared]
  constructor
  · constructor
    · rw [hhead]
      exact hend
    · rw [hhead]
      decide
    · exact Nat.zero_le _
  · rw [hedit.nodeList]
    exact hring
  · intro n
    by_cases hn : n = .head
    · rw [hn, hhead]
      decide
    · rw [hother n hn]
      simp [DrmMmNode.cleared]
  · simp
  · simp
  · simp
  · intro n
    by_cases hn : n = .head
    · rw [hn, hhead]
      decide
    · rw [hother n hn]
      rfl
  · exact hedit.scanActive
  · intro n hn m hm
    obtain rfl : n = .head := by simpa using hn
    rw [hedit.nodeList, hnext] at hm
    obtain rfl := Option.some.inj hm
    rw [hedit.holeNodeStart, hstart, hhead, hend]
    rfl
  · intro n hn
    have hne : n ≠ .head := by simpa using hn
    rw [hother n hne]
    rfl
  · exact hedit.index

end Init

end CmaPool.Drm
