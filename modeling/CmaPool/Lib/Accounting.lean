import Mathlib

/-! The total of the entries of a list that are out, kept in step as entries
come, go and change sides. -/

namespace Accounting

variable {α M : Type*} [AddCommMonoid M]

def total (l : List α) (out : α → Bool) (size : α → M) : M := ((l.filter out).map size).sum

variable {l l' : List α} {out out' : α → Bool} {size size' : α → M}

theorem total_congr (hout : ∀ x ∈ l, out x = out' x) (hsize : ∀ x ∈ l, size x = size' x) :
    total l out size = total l out' size' := by
  rw [total, total, List.filter_congr hout]
  congr 1
  apply List.map_congr_left
  intro x hx
  exact hsize x (List.mem_filter.mp hx).1

/-- The entries of `moved` are out on top of the others. -/
theorem total_moved {moved : List α} (hl : l.Nodup) (hl' : l'.Nodup) (hmoved : moved.Nodup)
    (hdisjoint : ∀ x ∈ moved, x ∈ l → out x = false)
    (hmem : ∀ x, x ∈ l' ∧ out' x = true ↔ x ∈ moved ∨ x ∈ l ∧ out x = true) :
    total l' out' size = (moved.map size).sum + total l out size := by
  have happend : (moved ++ l.filter out).Nodup := by
    apply List.nodup_append.mpr
    refine ⟨hmoved, hl.filter _, ?_⟩
    intro x hx y hy heq
    subst heq
    rcases List.mem_filter.mp hy with ⟨hmem, hout⟩
    simp [hdisjoint x hx hmem] at hout
  have hperm : (l'.filter out').Perm (moved ++ l.filter out) := by
    rw [List.perm_ext_iff_of_nodup (hl'.filter _) happend]
    intro x
    rw [List.mem_filter, List.mem_append, List.mem_filter]
    exact hmem x
  rw [total, total, (hperm.map size).sum_eq, List.map_append, List.sum_append]

end Accounting
