import Mathlib

/-! Going over a list by a function from one element to the next. -/

namespace Cursor

variable {α : Type*}

/-- In a list without repetitions an element stands in one place only. -/
theorem nodup_split {xs ys xs' ys' : List α} {x : α} (hnodup : (xs ++ x :: ys).Nodup)
    (h : xs' ++ x :: ys' = xs ++ x :: ys) : xs' = xs ∧ ys' = ys := by
  have hxs : x ∉ xs := fun hx => List.disjoint_of_nodup_append hnodup hx List.mem_cons_self
  have hys : x ∉ ys := (List.nodup_cons.mp (List.nodup_append.mp hnodup).2.1).1
  rcases (List.append_cons_inj_of_notMem hxs hys).mp h.symm with ⟨hfront, _, hback⟩
  exact ⟨hfront.symm, hback.symm⟩

/-- What a loop visits that starts at `x` and goes on until there is no next one. -/
def visits (next : α → Option (Option α)) : Nat → Option α → Option (List α)
  | _, none => some []
  | 0, some _ => none
  | fuel + 1, some x => do
      let rest ← visits next fuel (← next x)
      return x :: rest

theorem visits_eq {next : α → Option (Option α)} {l : List α}
    (hnext : ∀ xs x ys, l = xs ++ x :: ys → next x = some ys.head?) {fuel : Nat}
    (hfuel : l.length ≤ fuel) : visits next fuel l.head? = some l := by
  have hsuffix : ∀ (ys : List α) (xs : List α) (fuel : Nat), l = xs ++ ys → ys.length ≤ fuel →
      visits next fuel ys.head? = some ys := by
    intro ys
    induction ys with
    | nil =>
        intro xs fuel _ _
        cases fuel <;> rfl
    | cons y ys ih =>
        intro xs fuel hsplit hlength
        cases fuel with
        | zero => cases hlength
        | succ fuel =>
            have hrest := ih (xs ++ [y]) fuel (by simpa using hsplit) (Nat.le_of_succ_le_succ hlength)
            rw [List.head?_cons, visits, hnext xs y ys hsplit]
            simp [hrest]
  exact hsuffix l [] fuel rfl hfuel

end Cursor
