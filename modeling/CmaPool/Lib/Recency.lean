import Mathlib

/-! A list kept most recently touched first.

The log has the key touched at each position, or none. The entries of the list
are named by keys; an entry is as recent as the last touch of its key. -/

namespace Recency

variable {α κ : Type*}

/-- `i` is the position of the last touch of `k`. -/
def Last (log : List (Option κ)) (k : κ) (i : Nat) : Prop :=
  log[i]? = some (some k) ∧ ∀ j, i < j → log[j]? ≠ some (some k)

structure ByRecency (log : List (Option κ)) (named : α → κ → Prop) (l : List α) : Prop where
  touched : ∀ x ∈ l, ∃ k i, named x k ∧ Last log k i
  ordered : l.Pairwise fun x y =>
    ∀ k m i j, named x k → named y m → Last log k i → Last log m j → j < i

section Last

variable {log : List (Option κ)} {k m : κ} {e : Option κ} {i j : Nat}

theorem Last.lt_length (h : Last log k i) : i < log.length := by
  by_contra hout
  have hnone : log[i]? = none := List.getElem?_eq_none (Nat.le_of_not_lt hout)
  rw [h.1] at hnone
  cases hnone

theorem last_concat_iff (hk : e ≠ some k) : Last (log ++ [e]) k i ↔ Last log k i := by
  have hsame : ∀ j : Nat, (log ++ [e])[j]? = some (some k) ↔ log[j]? = some (some k) := by
    intro j
    rcases Nat.lt_trichotomy j log.length with hlt | heq | hgt
    · rw [List.getElem?_append_left hlt]
    · subst heq
      simp [hk]
    · rw [List.getElem?_eq_none (by simp; omega), List.getElem?_eq_none (by omega)]
  simp only [Last, ne_eq, hsame]

theorem last_concat_self : Last (log ++ [some k]) k i ↔ i = log.length := by
  have hlast : Last (log ++ [some k]) k log.length := by
    refine ⟨by simp, fun j hj => ?_⟩
    rw [List.getElem?_eq_none (by simp; omega)]
    exact nofun
  constructor
  · intro h
    have hlt := h.lt_length
    rw [List.length_append, List.length_singleton] at hlt
    by_contra hne
    exact h.2 log.length (by omega) hlast.1
  · intro heq
    rw [heq]
    exact hlast

end Last

section Step

variable {log : List (Option κ)} {named named' : α → κ → Prop} {l l' : List α}

theorem byRecency_nil (log : List (Option κ)) (named : α → κ → Prop) :
    ByRecency log named [] := ⟨nofun, List.Pairwise.nil⟩

/-- Entries may leave, and keys that are not theirs may be touched. -/
theorem ByRecency.keep (h : ByRecency log named l) (hsub : l'.Sublist l)
    (hnamed : ∀ x ∈ l', ∀ k, named' x k ↔ named x k) {e : Option κ}
    (hother : ∀ x ∈ l', ∀ k, named x k → e ≠ some k) : ByRecency (log ++ [e]) named' l' where
  touched := by
    intro x hx
    rcases h.touched x (hsub.subset hx) with ⟨k, i, hk, hlast⟩
    exact ⟨k, i, (hnamed x hx k).mpr hk, (last_concat_iff (hother x hx k hk)).mpr hlast⟩
  ordered := by
    apply (h.ordered.sublist hsub).imp_of_mem
    intro x y hx hy horder k m i j hk hm hi hj
    have hk' := (hnamed x hx k).mp hk
    have hm' := (hnamed y hy m).mp hm
    apply horder k m i j hk' hm'
    · exact (last_concat_iff (hother x hx k hk')).mp hi
    · exact (last_concat_iff (hother y hy m hm')).mp hj

/-- The entry that is touched comes to the front. -/
theorem ByRecency.touch {k : κ} {x : α} (h : ByRecency (log ++ [some k]) named l)
    (hx : ∀ m, named x m ↔ m = k) (hother : ∀ y ∈ l, ¬ named y k) :
    ByRecency (log ++ [some k]) named (x :: l) where
  touched := by
    intro y hy
    rcases List.mem_cons.mp hy with rfl | hy
    · exact ⟨k, log.length, (hx k).mpr rfl, last_concat_self.mpr rfl⟩
    · exact h.touched y hy
  ordered := by
    apply List.pairwise_cons.mpr
    refine ⟨fun y hy k' m i j hk hm hi hj => ?_, h.ordered⟩
    rw [(hx k').mp hk, last_concat_self] at hi
    have hne : some k ≠ some m := by
      intro heq
      rw [← Option.some.inj heq] at hm
      exact hother y hy hm
    rw [hi]
    exact ((last_concat_iff hne).mp hj).lt_length

end Step

end Recency
