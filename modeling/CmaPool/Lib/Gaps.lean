import Mathlib

/-! Free gaps between the blocks of a packed address range.

A range `[a, b)` holds a list of half-open blocks in address order. A closure
operator gives the least admissible start at or above an address, a monotone
map the end of a block placed at a start, and a block has room in the range
exactly when it fits at the bottom of one of the gaps between neighbours. -/

namespace Gaps

variable {α : Type*}

def gaps : α → List (α × α) → α → List (α × α)
  | a, [], b => [(a, b)]
  | a, x :: xs, b => (a, x.1) :: gaps x.2 xs b

def lastEnd : α → List (α × α) → α
  | a, [] => a
  | _, x :: xs => lastEnd x.2 xs

def firstStart : List (α × α) → α → α
  | [], b => b
  | x :: _, _ => x.1

@[simp] theorem lastEnd_nil (a : α) : lastEnd a [] = a := rfl

@[simp] theorem lastEnd_cons (a : α) (x : α × α) (xs : List (α × α)) :
    lastEnd a (x :: xs) = lastEnd x.2 xs := rfl

@[simp] theorem firstStart_nil (b : α) : firstStart [] b = b := rfl

@[simp] theorem firstStart_cons (x : α × α) (xs : List (α × α)) (b : α) :
    firstStart (x :: xs) b = x.1 := rfl

theorem lastEnd_mem (a : α) (bs : List (α × α)) :
    lastEnd a bs = a ∨ ∃ x ∈ bs, lastEnd a bs = x.2 := by
  induction bs generalizing a with
  | nil => exact Or.inl rfl
  | cons x bs ih =>
      right
      rcases ih x.2 with heq | ⟨y, hy, heq⟩
      · exact ⟨x, List.mem_cons_self, heq⟩
      · exact ⟨y, List.mem_cons_of_mem _ hy, heq⟩

theorem lastEnd_append (a : α) (xs ys : List (α × α)) :
    lastEnd a (xs ++ ys) = lastEnd (lastEnd a xs) ys := by
  induction xs generalizing a with
  | nil => rfl
  | cons x xs ih => exact ih x.2

theorem mem_gaps_iff {a b : α} {bs : List (α × α)} {g : α × α} :
    g ∈ gaps a bs b ↔
      ∃ xs ys, bs = xs ++ ys ∧ g = (lastEnd a xs, firstStart ys b) := by
  induction bs generalizing a with
  | nil => simp [gaps]
  | cons x bs ih =>
      simp only [gaps, List.mem_cons, ih]
      constructor
      · rintro (rfl | ⟨xs, ys, rfl, rfl⟩)
        · exact ⟨[], x :: bs, rfl, rfl⟩
        · exact ⟨x :: xs, ys, rfl, rfl⟩
      · rintro ⟨xs, ys, hsplit, rfl⟩
        cases xs with
        | nil =>
            left
            rw [List.nil_append] at hsplit
            rw [← hsplit]
            rfl
        | cons z xs =>
            right
            injection hsplit with hhead htail
            subst hhead
            exact ⟨xs, ys, htail, rfl⟩

/-- Removing a block merges the two gaps at its sides and leaves the others. -/
theorem gaps_remove {a b : α} {xs ys : List (α × α)} {x g : α × α}
    (hg : g ∈ gaps a (xs ++ ys) b) :
    g = (lastEnd a xs, firstStart ys b) ∨ g ∈ gaps a (xs ++ x :: ys) b := by
  induction xs generalizing a with
  | nil =>
      cases ys with
      | nil => exact Or.inl (by simpa [gaps] using hg)
      | cons y ys =>
          simp only [List.nil_append, gaps, List.mem_cons] at hg ⊢
          rcases hg with rfl | hg
          · exact Or.inl rfl
          · exact Or.inr (Or.inr (Or.inr hg))
  | cons z zs ih =>
      simp only [List.cons_append, gaps, List.mem_cons, lastEnd_cons] at hg ⊢
      rcases hg with rfl | hg
      · exact Or.inr (Or.inl rfl)
      · rcases ih hg with hg | hg
        · exact Or.inl hg
        · exact Or.inr (Or.inr hg)

variable [LinearOrder α]

def Packed : α → List (α × α) → α → Prop
  | a, [], b => a ≤ b
  | a, x :: xs, b => a ≤ x.1 ∧ x.1 ≤ x.2 ∧ Packed x.2 xs b

theorem Packed.le {a b : α} {bs : List (α × α)} (h : Packed a bs b) : a ≤ b := by
  induction bs generalizing a with
  | nil => exact h
  | cons x xs ih =>
      calc
        a ≤ x.1 := h.1
        _ ≤ x.2 := h.2.1
        _ ≤ b := ih h.2.2

theorem packed_append {a b : α} {xs ys : List (α × α)} :
    Packed a (xs ++ ys) b ↔
      Packed a xs (lastEnd a xs) ∧ Packed (lastEnd a xs) ys b := by
  induction xs generalizing a with
  | nil => simp [Packed]
  | cons x xs ih => simp only [List.cons_append, Packed, lastEnd_cons, ih, and_assoc]

theorem Packed.mono {a a' b b' : α} {bs : List (α × α)} (h : Packed a bs b)
    (ha : a' ≤ a) (hb : b ≤ b') : Packed a' bs b' := by
  induction bs generalizing a a' with
  | nil => exact ha.trans (le_trans h hb)
  | cons x xs ih => exact ⟨ha.trans h.1, h.2.1, ih h.2.2 le_rfl⟩

theorem Packed.firstStart_le {a b : α} {bs : List (α × α)} (h : Packed a bs b) :
    a ≤ firstStart bs b := by
  cases bs with
  | nil => exact h
  | cons x xs => exact h.1

theorem Packed.sublist {a b : α} {xs ys : List (α × α)} (h : Packed a ys b)
    (hsub : xs.Sublist ys) : Packed a xs b := by
  induction hsub generalizing a with
  | slnil => exact h
  | cons y _ ih => exact (ih h.2.2).mono (h.1.trans h.2.1) le_rfl
  | cons_cons y _ ih => exact ⟨h.1, h.2.1, ih h.2.2⟩

theorem Packed.insert {a b s e : α} {xs ys : List (α × α)} (h : Packed a (xs ++ ys) b)
    (hs : lastEnd a xs ≤ s) (hse : s ≤ e) (he : e ≤ firstStart ys b) :
    Packed a (xs ++ (s, e) :: ys) b := by
  rcases packed_append.mp h with ⟨hxs, hys⟩
  refine packed_append.mpr ⟨hxs, hs, hse, ?_⟩
  cases ys with
  | nil => exact he
  | cons y ys => exact ⟨he, hys.2⟩

theorem Packed.mem {a b : α} {bs : List (α × α)} (h : Packed a bs b) {x : α × α}
    (hx : x ∈ bs) : a ≤ x.1 ∧ x.1 ≤ x.2 ∧ x.2 ≤ b := by
  induction bs generalizing a with
  | nil => cases hx
  | cons y ys ih =>
      rcases List.mem_cons.mp hx with rfl | hx
      · exact ⟨h.1, h.2.1, h.2.2.le⟩
      · have htail := ih h.2.2 hx
        have hlow : a ≤ x.1 :=
          calc
            a ≤ y.1 := h.1
            _ ≤ y.2 := h.2.1
            _ ≤ x.1 := htail.1
        exact ⟨hlow, htail.2⟩

theorem Packed.pairwise {a b : α} {bs : List (α × α)} (h : Packed a bs b) :
    bs.Pairwise (fun x y => x.2 ≤ y.1) := by
  induction bs generalizing a with
  | nil => exact List.Pairwise.nil
  | cons x xs ih => exact List.Pairwise.cons (fun _ hy => (h.2.2.mem hy).1) (ih h.2.2)

theorem disjoint_of_le {s e s' e' : α} (h : e ≤ s') : Disjoint (Set.Ico s e) (Set.Ico s' e') := by
  rw [Set.Ico_disjoint_Ico]
  calc
    min e e' ≤ e := min_le_left _ _
    _ ≤ s' := h
    _ ≤ max s s' := le_max_right _ _

section Placement

variable (up : ClosureOperator α) (fin : α →o α)

/-- `s` is an admissible start for a block that stays inside `[a, b)` and off
every block of `bs`. -/
def Placement (a : α) (bs : List (α × α)) (b s : α) : Prop :=
  up.IsClosed s ∧ a ≤ s ∧ fin s ≤ b ∧ ∀ x ∈ bs, fin s ≤ x.1 ∨ x.2 ≤ s

def Fits (g : α × α) : Prop := fin (up g.1) ≤ g.2

variable {up fin}

theorem placement_of_gap {a b : α} {bs : List (α × α)} (h : Packed a bs b) {g : α × α}
    (hg : g ∈ gaps a bs b) (hfit : Fits up fin g) : Placement up fin a bs b (up g.1) := by
  rcases mem_gaps_iff.mp hg with ⟨xs, ys, rfl, rfl⟩
  rcases packed_append.mp h with ⟨hxs, hys⟩
  have hstart : lastEnd a xs ≤ up (lastEnd a xs) := up.le_closure _
  refine ⟨up.isClosed_closure _, hxs.le.trans hstart, ?_, ?_⟩
  · refine le_trans hfit ?_
    cases ys with
    | nil => exact le_rfl
    | cons y ys => exact hys.2.1.trans hys.2.2.le
  · intro x hx
    rcases List.mem_append.mp hx with hx | hx
    · exact Or.inr ((hxs.mem hx).2.2.trans hstart)
    · left
      refine le_trans hfit ?_
      cases ys with
      | nil => cases hx
      | cons y ys =>
          rcases List.mem_cons.mp hx with rfl | hx
          · exact le_rfl
          · calc
              y.1 ≤ y.2 := hys.2.1
              _ ≤ _ := (hys.2.2.mem hx).1

theorem gap_of_placement {a b s : α} {bs : List (α × α)}
    (hs : Placement up fin a bs b s) : ∃ g ∈ gaps a bs b, Fits up fin g := by
  rcases hs with ⟨hclosed, hlow, hhigh, havoid⟩
  have hfit : ∀ lo hi, lo ≤ s → fin s ≤ hi → Fits up fin (lo, hi) := by
    intro lo hi hlo hhi
    calc
      fin (up lo) ≤ fin s := fin.monotone (hclosed.closure_le_iff.mpr hlo)
      _ ≤ hi := hhi
  induction bs generalizing a with
  | nil => exact ⟨(a, b), List.mem_singleton.mpr rfl, hfit a b hlow hhigh⟩
  | cons x xs ih =>
      rcases havoid x List.mem_cons_self with hx | hx
      · exact ⟨(a, x.1), List.mem_cons_self, hfit a x.1 hlow hx⟩
      · rcases ih hx (fun y hy => havoid y (List.mem_cons_of_mem _ hy)) with ⟨g, hg, hgfit⟩
        exact ⟨g, List.mem_cons_of_mem _ hg, hgfit⟩

theorem exists_placement_iff {a b : α} {bs : List (α × α)} (h : Packed a bs b) :
    (∃ s, Placement up fin a bs b s) ↔ ∃ g ∈ gaps a bs b, Fits up fin g := by
  constructor
  · intro ⟨s, hs⟩
    exact gap_of_placement hs
  · intro ⟨g, hg, hfit⟩
    exact ⟨_, placement_of_gap h hg hfit⟩

/-- A placement that meets the block at a cut lies in the gap that the block
leaves. -/
theorem Placement.gap_at {a b s : α} {xs ys : List (α × α)} {x : α × α}
    (hs : Placement up fin a (xs ++ ys) b s) (h : Packed a (xs ++ x :: ys) b)
    (hmeet : x.1 < fin s ∧ s < x.2) : lastEnd a xs ≤ s ∧ fin s ≤ firstStart ys b := by
  rcases packed_append.mp h with ⟨hxs, _, _, hys⟩
  rcases List.pairwise_append.mp h.pairwise with ⟨_, _, hcross⟩
  rcases hs with ⟨_, hlow, hhigh, havoid⟩
  constructor
  · rcases lastEnd_mem a xs with heq | ⟨y, hy, heq⟩
    · rw [heq]
      exact hlow
    · rw [heq]
      apply (havoid y (List.mem_append_left _ hy)).resolve_left
      apply not_le.mpr
      calc
        y.1 ≤ y.2 := (hxs.mem hy).2.1
        _ ≤ x.1 := hcross y hy x List.mem_cons_self
        _ < fin s := hmeet.1
  · cases ys with
    | nil => exact hhigh
    | cons y ys =>
        apply (havoid y (List.mem_append_right _ List.mem_cons_self)).resolve_right
        apply not_le.mpr
        calc
          s < x.2 := hmeet.2
          _ ≤ y.1 := (hys.mem List.mem_cons_self).1
          _ ≤ y.2 := (hys.mem List.mem_cons_self).2.1

/-- The start that rounding gives behind some of the blocks that stay is the one
it gives at the bottom of the gap. -/
theorem Placement.start_eq {a b s : α} {xs ys zs : List (α × α)} {x : α × α}
    (hs : Placement up fin a (xs ++ ys) b s) (h : Packed a (xs ++ x :: ys) b)
    (hmeet : x.1 < fin s ∧ s < x.2) (hzs : ∀ z ∈ zs, z ∈ xs ++ ys)
    (hstart : s = up (lastEnd a zs)) : up (lastEnd a xs) = s := by
  rcases packed_append.mp h with ⟨hxs, _, _, hys⟩
  apply le_antisymm
  · exact up.closure_min (hs.gap_at h hmeet).1 hs.1
  · rw [hstart]
    apply up.monotone
    rcases lastEnd_mem a zs with heq | ⟨z, hz, heq⟩
    · rw [heq]
      exact hxs.le
    · rw [heq]
      rcases List.mem_append.mp (hzs z hz) with hmem | hmem
      · exact (hxs.mem hmem).2.2
      · have hbehind : s < z.2 := by
          calc
            s < x.2 := hmeet.2
            _ ≤ z.1 := (hys.mem hmem).1
            _ ≤ z.2 := (hys.mem hmem).2.1
        have hbefore : z.2 ≤ s := by
          rw [hstart, heq]
          exact up.le_closure _
        exact absurd hbefore (not_le.mpr hbehind)

end Placement

/-- The end of a block of a fixed size. -/
def endAt [Add α] [AddRightMono α] (size : α) : α →o α where
  toFun s := s + size
  monotone' := fun _ _ h => add_le_add_left h size

@[simp] theorem endAt_apply [Add α] [AddRightMono α] (size s : α) : endAt size s = s + size := rfl

end Gaps
