import CmaPool.Drm.Search

/-! The eviction scan.

Each block added to the roster leaves the ring with its own links intact, so
that removing the blocks in the reverse order restores the allocator cell by
cell. Along the way only the gap around the block just added can newly fit. -/

namespace CmaPool.Drm

def DrmMm.scanOut (mm : DrmMm) (n : NodeRef) (nodeList : Ring.Links NodeRef) : DrmMm :=
  { mm with nodeList, scanActive := mm.scanActive + 1 }.setNode n
    { mm.node n with scannedBlock := true }

/-- The states of a scan: from `mm₀` with ring `l₀`, the blocks of `added`, the
latest first, are on the roster and `l` is what is left of the ring. -/
inductive Roster (mm₀ : DrmMm) (l₀ : List NodeRef) :
    List NodeRef → DrmMm → List NodeRef → Prop
  | nil : Roster mm₀ l₀ [] mm₀ l₀
  | cons {added : List NodeRef} {mm : DrmMm} {xs ys : List NodeRef} {n : NodeRef}
      (h : Roster mm₀ l₀ added mm (xs ++ n :: ys)) :
      Roster mm₀ l₀ (n :: added)
        (mm.scanOut n (Ring.bridge mm.nodeList (Ring.before .head xs) (Ring.after .head ys)))
        (xs ++ ys)

/-- What the roster leaves of the allocator it started from. -/
structure Scanning (mm₀ : DrmMm) (l₀ added : List NodeRef) (mm : DrmMm) (l : List NodeRef) :
    Prop where
  ring : Ring.IsRing mm.nodeList .head l
  node : ∀ n, mm.node n = { mm₀.node n with scannedBlock := decide (n ∈ added) }
  members : l = l₀.filter (· ∉ added)
  taken : ∀ n ∈ added, n ∈ l₀
  active : mm.scanActive = added.length

section Roster

variable {mm₀ mm : DrmMm} {l₀ l added xs ys : List NodeRef} {n : NodeRef}

theorem filter_not_mem_cons (hl : xs ++ n :: ys = l₀.filter (· ∉ added))
    (hnodup : (xs ++ n :: ys).Nodup) : xs ++ ys = l₀.filter (· ∉ n :: added) := by
  have hn : n ∉ xs ++ ys := (List.nodup_cons.mp (List.nodup_middle.mp hnodup)).1
  have hkeep : ∀ m ∈ xs ++ ys, decide (m ≠ n) = true := by
    intro m hm
    have hne : m ≠ n := fun heq => hn (heq ▸ hm)
    simpa using hne
  have hboth : l₀.filter (· ∉ n :: added) = (l₀.filter (· ∉ added)).filter (· ≠ n) := by
    rw [List.filter_filter]
    apply List.filter_congr
    intro m _
    simp
  rw [hboth, ← hl, List.filter_append, List.filter_cons_of_neg (by simp), ← List.filter_append,
    List.filter_eq_self.mpr hkeep]

theorem Scanning.scanOut (h : Scanning mm₀ l₀ added mm (xs ++ n :: ys)) :
    Scanning mm₀ l₀ (n :: added)
      (mm.scanOut n (Ring.bridge mm.nodeList (Ring.before .head xs) (Ring.after .head ys)))
      (xs ++ ys) := by
  have hn : n ∈ l₀.filter (· ∉ added) := by
    rw [← h.members]
    simp
  constructor
  · exact h.ring.unlinked
  · intro m
    by_cases hm : m = n
    · subst hm
      simp [DrmMm.scanOut, h.node]
    · simp [DrmMm.scanOut, h.node, hm]
  · exact filter_not_mem_cons h.members (List.nodup_cons.mp h.ring.2).2
  · intro m hm
    rcases List.mem_cons.mp hm with rfl | hm
    · exact (List.mem_filter.mp hn).1
    · exact h.taken m hm
  · simp [DrmMm.scanOut, h.active]

theorem Roster.scanning (h : Roster mm₀ l₀ added mm l) (h₀ : Valid mm₀ l₀) :
    Scanning mm₀ l₀ added mm l := by
  induction h with
  | nil =>
      constructor
      · exact h₀.ring
      · intro n
        have hn := h₀.unscanned n
        cases hnode : mm₀.node n
        simp_all
      · simp
      · simp
      · exact h₀.idle
  | cons _ ih => exact ih.scanOut

theorem Scanning.block (h : Scanning mm₀ l₀ added mm l) (n : NodeRef) :
    mm.block n = mm₀.block n := by
  rw [DrmMm.block, h.node]
  rfl

theorem Scanning.blocks (h : Scanning mm₀ l₀ added mm l) (xs : List NodeRef) :
    mm.blocks xs = mm₀.blocks xs :=
  List.map_congr_left fun n _ => h.block n

theorem Scanning.placed (h : Scanning mm₀ l₀ added mm l) (h₀ : Valid mm₀ l₀) : Placed mm l where
  headStart := by
    rw [h.node]
    exact h₀.headStart
  headSize := by
    rw [h.node]
    exact h₀.headSize
  packed := by
    rw [h.blocks, h.members]
    exact h₀.packed.sublist (List.filter_sublist.map _)

theorem Scanning.mem (h : Scanning mm₀ l₀ added mm l) (hn : n ∈ l) : n ∈ l₀ ∧ n ∉ added := by
  rw [h.members, List.mem_filter] at hn
  simpa using hn

end Roster

/-- A scan for `size` bytes as `page_out_buffers_for_insertion` sets it up. -/
structure ScanFor (scan : DrmMmScan) (size : Nat) : Prop where
  size : scan.size = size
  alignment : scan.alignment = normalAlignment pageSize
  rangeStart : scan.rangeStart = 0
  rangeEnd : scan.rangeEnd = poolSize

section Scan

variable {mm₀ mm : DrmMm} {l₀ l added xs ys : List NodeRef} {n : NodeRef} {scan : DrmMmScan}
  {size : Nat}

theorem scanInit_eq (h : Valid mm l) (size : Nat) :
    mm.scanInitWithRange size pageSize 0 poolSize =
      if size = 0 ∨ size > poolSize then .error (.assertion .scanInit)
      else .ok {
        size
        alignment := normalAlignment pageSize
        rangeStart := 0
        rangeEnd := poolSize
        hitStart := u64Max
        hitEnd := 0 } := by
  have hrange : ¬ (0 ≥ poolSize) := by decide
  have hidle : ¬ mm.scanActive ≠ 0 := not_not.mpr h.idle
  have hwidth : sub64 poolSize 0 = poolSize := by decide
  rw [DrmMm.scanInitWithRange, bugOn_of_not hrange, ok_bind, hwidth]
  by_cases hsize : size = 0 ∨ size > poolSize
  · rw [bugOn_of hsize, if_pos hsize]
    rfl
  · rw [bugOn_of_not hsize, if_neg hsize, ok_bind, bugOn_of_not hidle, ok_bind]
    rfl

theorem scanInit_ok (h : Valid mm l) (hsize : size ≠ 0) (hpool : size ≤ poolSize) :
    ∃ scan, mm.scanInitWithRange size pageSize 0 poolSize = .ok scan ∧ ScanFor scan size ∧
      scan.hitEnd = 0 := by
  have hinit := scanInit_eq h size
  rw [if_neg (by omega)] at hinit
  exact ⟨_, hinit, ⟨rfl, rfl, rfl, rfl⟩, rfl⟩

theorem scanAddBlock_eq (h₀ : Valid mm₀ l₀) (h : Scanning mm₀ l₀ added mm (xs ++ n :: ys))
    (hscan : ScanFor scan size) (hsize : size ≠ 0) :
    mm.scanAddBlock scan n =
      .ok (if Gaps.Fits pageUp (Gaps.endAt size)
            (Gaps.lastEnd 0 (mm₀.blocks xs), Gaps.firstStart (mm₀.blocks ys) poolSize)
          then (true, { scan with
              hitStart := pageUp (Gaps.lastEnd 0 (mm₀.blocks xs))
              hitEnd := pageUp (Gaps.lastEnd 0 (mm₀.blocks xs)) + size },
            mm.scanOut n (Ring.bridge mm.nodeList (Ring.before .head xs) (Ring.after .head ys)))
          else (false, scan,
            mm.scanOut n
              (Ring.bridge mm.nodeList (Ring.before .head xs) (Ring.after .head ys)))) := by
  have hmem := h.mem (show n ∈ xs ++ n :: ys by simp)
  have hattached : ¬ (mm.node n).mm = false := by
    rw [h.node]
    simp [h₀.attached n hmem.1]
  have hallocated : ¬ (mm.node n).allocated = false := by
    rw [h.node]
    simp [(h₀.allocated n).mpr hmem.1]
  have hfresh : ¬ (mm.node n).scannedBlock = true := by
    rw [h.node]
    simp [hmem.2]
  have hplaced := h.scanOut.placed h₀
  have hgap := hplaced.gap
  have hstart := lastEnd_blocks hplaced
  have hafter := firstStart_blocks hplaced
  rw [h.scanOut.blocks, h.scanOut.blocks] at hgap
  rw [h.scanOut.blocks] at hstart hafter
  have hend : (mm.scanOut n (Ring.bridge mm.nodeList (Ring.before .head xs)
      (Ring.after .head ys))).holeNodeEnd (Ring.before .head xs) =
      .ok (Gaps.firstStart (mm₀.blocks ys) poolSize) := by
    rw [holeNodeEnd_eq h.scanOut.ring.next_eq, hafter]
  have hadjust := adjustHole_eq hsize hgap.1 hgap.2 (le_refl poolSize)
  generalize hmark : ({ mm with scanActive := mm.scanActive + 1 } : DrmMm).setNode n
    { mm.node n with scannedBlock := true } = mm₁
  have hlinks : mm₁.nodeList = mm.nodeList := by
    rw [← hmark]
    rfl
  have hprev : mm₁.listPrevEntry n = .ok (Ring.before .head xs) := by
    rw [DrmMm.listPrevEntry, hlinks, h.ring.prev_member]
    rfl
  have hnext : mm₁.listNextEntry (Ring.before .head xs) = .ok n := by
    rw [DrmMm.listNextEntry, hlinks, h.ring.next_eq]
    rfl
  have hout : ({ mm₁ with
      nodeList := Ring.bridge mm.nodeList (Ring.before .head xs) (Ring.after .head ys) } :
      DrmMm) = mm.scanOut n (Ring.bridge mm.nodeList (Ring.before .head xs)
        (Ring.after .head ys)) := by
    rw [← hmark]
    rfl
  have hsame : ¬ n ≠ n := not_not.mpr rfl
  rw [DrmMm.scanAddBlock, bugOn_of_not hattached, ok_bind, bugOn_of_not hallocated, ok_bind,
    bugOn_of_not hfresh, ok_bind]
  simp only [hmark, hprev, hnext, ok_bind, bugOn_of_not hsame, hlinks, h.ring.listDelEntry_eq,
    pointer_some, hout, hstart, hend, hscan.size, hscan.alignment, hscan.rangeStart,
    hscan.rangeEnd]
  have hadjust' : adjustHole (Gaps.lastEnd 0 (mm₀.blocks xs))
      (Gaps.firstStart (mm₀.blocks ys) poolSize) size (normalAlignment pageSize) 0 poolSize =
      _ := hadjust
  rw [hadjust']
  by_cases hfit : pageUp (Gaps.lastEnd 0 (mm₀.blocks xs)) + size ≤
      Gaps.firstStart (mm₀.blocks ys) poolSize
  · have hfits : Gaps.Fits pageUp (Gaps.endAt size)
        (Gaps.lastEnd 0 (mm₀.blocks xs), Gaps.firstStart (mm₀.blocks ys) poolSize) := hfit
    have hlow := pageUp.le_closure (Gaps.lastEnd 0 (mm₀.blocks xs))
    have hpool : poolSize = 134217728 := rfl
    rw [if_pos hfit, if_pos hfits]
    simp only [add64_of_lt (show pageUp (Gaps.lastEnd 0 (mm₀.blocks xs)) + size < 2 ^ 64 by omega)]
    rw [bugOn_of_not (by omega), ok_bind, bugOn_of_not (by omega), ok_bind,
      bugOn_of_not (by omega), ok_bind]
    rfl
  · have hfits : ¬ Gaps.Fits pageUp (Gaps.endAt size)
        (Gaps.lastEnd 0 (mm₀.blocks xs), Gaps.firstStart (mm₀.blocks ys) poolSize) := hfit
    rw [if_neg hfit, if_neg hfits]
    rfl

/-- Linking the latest block back in restores the allocator of before it was
added. -/
theorem scanRemoveBlock_eq (h₀ : Valid mm₀ l₀) (h : Scanning mm₀ l₀ added mm (xs ++ n :: ys)) :
    (mm.scanOut n (Ring.bridge mm.nodeList (Ring.before .head xs)
        (Ring.after .head ys))).scanRemoveBlock scan n =
      .ok (decide ((mm₀.block n).2 > scan.hitStart ∧ (mm₀.block n).1 < scan.hitEnd), mm) := by
  have hn : n ∈ xs ++ n :: ys := by simp
  have hmem := h.mem hn
  have hside := h.ring.nodup_remove.1
  have hnb : n ≠ Ring.before .head xs :=
    fun heq => hside (heq ▸ Ring.before_mem_ring .head xs ys)
  have hna : n ≠ Ring.after .head ys :=
    fun heq => hside (heq ▸ Ring.after_mem_ring .head xs ys)
  have hfresh : (mm.node n).scannedBlock = false := by
    rw [h.node]
    simp [hmem.2]
  have hstart : mm.holeNodeStart n = (mm.block n).2 :=
    (h.placed h₀).holeNodeStart_of_mem hn
  generalize hlinks : Ring.bridge mm.nodeList (Ring.before .head xs) (Ring.after .head ys) = links
  have hattached : ¬ ((mm.scanOut n links).node n).mm = false := by
    simp [DrmMm.scanOut, h.node, h₀.attached n hmem.1]
  have hscanned : ¬ ((mm.scanOut n links).node n).scannedBlock = false := by
    simp [DrmMm.scanOut]
  have hactive : ¬ (mm.scanOut n links).scanActive = 0 := by
    simp [DrmMm.scanOut]
  have hprev : (links n).prev = some (Ring.before .head xs) := by
    rw [← hlinks, Ring.bridge_prev, if_neg hna]
    exact h.ring.prev_member
  have hnext : (links n).next = some (Ring.after .head ys) := by
    rw [← hlinks, Ring.bridge_next, if_neg hnb]
    exact h.ring.next_member
  have hcross : (links (Ring.before .head xs)).next = some (Ring.after .head ys) := by
    rw [← hlinks, Ring.bridge_next, if_pos rfl]
  have hadd : Ring.listAdd links n (Ring.before .head xs) = some mm.nodeList := by
    rw [Ring.listAdd, hcross, ← hlinks]
    exact congrArg some h.ring.relink
  have hback : Function.update (mm.scanOut n links).node n
      { (mm.scanOut n links).node n with scannedBlock := false } = mm.node := by
    have hself : { mm.node n with scannedBlock := false } = mm.node n := by rw [← hfresh]
    simp [DrmMm.scanOut, hself]
  rw [DrmMm.scanRemoveBlock, bugOn_of_not hattached, ok_bind, bugOn_of_not hscanned, ok_bind]
  simp only [DrmMm.setNode, hback, bugOn_of_not hactive, ok_bind, DrmMm.listPrevEntry,
    DrmMm.listNextEntry]
  have hlist : (mm.scanOut n links).nodeList = links := rfl
  simp only [hlist, hprev, hcross, hnext, hadd, pointer_some, ok_bind]
  rw [bugOn_of_not (not_not.mpr rfl), ok_bind]
  rw [← h.block n, ← hstart]
  rfl

theorem Roster.remove (h : Roster mm₀ l₀ (n :: added) mm l) (h₀ : Valid mm₀ l₀)
    (scan : DrmMmScan) :
    ∃ mm' l', Roster mm₀ l₀ added mm' l' ∧
      mm.scanRemoveBlock scan n =
        .ok (decide ((mm₀.block n).2 > scan.hitStart ∧ (mm₀.block n).1 < scan.hitEnd), mm') := by
  cases h with
  | cons h => exact ⟨_, _, h, scanRemoveBlock_eq h₀ (h.scanning h₀)⟩

/-- A block taken out makes room if and only if the gap it leaves fits. -/
theorem hasRoom_remove (h : HasRoom mm (xs ++ ys) size)
    (hfull : ¬ HasRoom mm (xs ++ n :: ys) size) :
    Gaps.Fits pageUp (Gaps.endAt size)
      (Gaps.lastEnd 0 (mm.blocks xs), Gaps.firstStart (mm.blocks ys) poolSize) := by
  rcases h with ⟨gap, hgap, hfit⟩
  rw [blocks_append] at hgap
  rcases Gaps.gaps_remove (x := mm.block n) hgap with rfl | hold
  · exact hfit
  · apply absurd _ hfull
    refine ⟨gap, ?_, hfit⟩
    rw [blocks_append]
    exact hold

/-- Adding a block to the roster reports a hit if and only if the ring that is
left then has room. -/
theorem Roster.add (h : Roster mm₀ l₀ added mm l) (h₀ : Valid mm₀ l₀) (hn : n ∈ l)
    (hscan : ScanFor scan size) (hsize : size ≠ 0) (hfull : ¬ HasRoom mm₀ l size) :
    ∃ mm' l', Roster mm₀ l₀ (n :: added) mm' l' ∧
      ((¬ HasRoom mm₀ l' size ∧ mm.scanAddBlock scan n = .ok (false, scan, mm')) ∨
        ∃ hit, HasRoom mm₀ l' size ∧
          Gaps.Placement pageUp (Gaps.endAt size) 0 (mm₀.blocks l') poolSize hit ∧
          mm.scanAddBlock scan n =
            .ok (true, { scan with hitStart := hit, hitEnd := hit + size }, mm')) := by
  rcases List.append_of_mem hn with ⟨xs, ys, rfl⟩
  have hscanning := h.scanning h₀
  have hrun := scanAddBlock_eq h₀ hscanning hscan hsize
  refine ⟨_, xs ++ ys, h.cons, ?_⟩
  by_cases hfit : Gaps.Fits pageUp (Gaps.endAt size)
      (Gaps.lastEnd 0 (mm₀.blocks xs), Gaps.firstStart (mm₀.blocks ys) poolSize)
  · right
    have hgap : (Gaps.lastEnd 0 (mm₀.blocks xs), Gaps.firstStart (mm₀.blocks ys) poolSize) ∈
        Gaps.gaps 0 (mm₀.blocks (xs ++ ys)) poolSize :=
      Gaps.mem_gaps_iff.mpr ⟨_, _, blocks_append, rfl⟩
    have hpacked : Gaps.Packed 0 (mm₀.blocks (xs ++ ys)) poolSize := by
      have hplaced := (hscanning.scanOut.placed h₀).packed
      rwa [hscanning.scanOut.blocks] at hplaced
    refine ⟨_, ⟨_, hgap, hfit⟩, Gaps.placement_of_gap hpacked hgap hfit, ?_⟩
    rw [hrun, if_pos hfit]
  · left
    refine ⟨fun hroom => hfit (hasRoom_remove hroom hfull), ?_⟩
    rw [hrun, if_neg hfit]

/-- `hit` is where the scan places the block in a gap of the ring that is left. -/
def Hit (mm : DrmMm) (l : List NodeRef) (size hit : Nat) : Prop :=
  ∃ xs ys, l = xs ++ ys ∧ hit = pageUp (Gaps.lastEnd 0 (mm.blocks xs)) ∧
    hit + size ≤ Gaps.firstStart (mm.blocks ys) poolSize

theorem Hit.freeAt {hit : Nat} (hhit : Hit mm l size hit)
    (hpacked : Gaps.Packed 0 (mm.blocks l) poolSize) : FreeAt mm l size hit := by
  rcases hhit with ⟨xs, ys, rfl, rfl, hend⟩
  have hfit : Gaps.Fits pageUp (Gaps.endAt size)
      (Gaps.lastEnd 0 (mm.blocks xs), Gaps.firstStart (mm.blocks ys) poolSize) := hend
  have hgap : (Gaps.lastEnd 0 (mm.blocks xs), Gaps.firstStart (mm.blocks ys) poolSize) ∈
      Gaps.gaps 0 (mm.blocks (xs ++ ys)) poolSize :=
    Gaps.mem_gaps_iff.mpr ⟨_, _, blocks_append, rfl⟩
  have hfree := placement_iff.mp (Gaps.placement_of_gap hpacked hgap hfit)
  exact hfree

/-- Adding a block to the roster never fails an assertion. -/
theorem Roster.addBlock (h : Roster mm₀ l₀ added mm l) (h₀ : Valid mm₀ l₀) (hn : n ∈ l)
    (hscan : ScanFor scan size) (hsize : size ≠ 0) :
    ∃ mm' l', Roster mm₀ l₀ (n :: added) mm' l' ∧
      (mm.scanAddBlock scan n = .ok (false, scan, mm') ∨
        ∃ hit, Hit mm₀ l' size hit ∧ mm.scanAddBlock scan n =
          .ok (true, { scan with hitStart := hit, hitEnd := hit + size }, mm')) := by
  rcases List.append_of_mem hn with ⟨xs, ys, rfl⟩
  have hrun := scanAddBlock_eq h₀ (h.scanning h₀) hscan hsize
  refine ⟨_, xs ++ ys, h.cons, ?_⟩
  split at hrun
  · next hfit => exact Or.inr ⟨_, ⟨xs, ys, rfl, rfl, hfit⟩, hrun⟩
  · exact Or.inl hrun

end Scan

end CmaPool.Drm
