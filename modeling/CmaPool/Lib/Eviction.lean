import Mathlib

/-! Taking candidates one by one until the ones taken are enough. -/

namespace Eviction

variable {α β : Type*}

def takeUntil (enough : List α → Prop) [DecidablePred enough] (taken : List α) :
    List α → Option (List α)
  | [] => if enough taken then some taken else none
  | c :: cs => if enough taken then some taken else takeUntil enough (taken ++ [c]) cs

variable {enough : List α → Prop} [DecidablePred enough]

theorem takeUntil_of_enough {taken : List α} (h : enough taken) (cs : List α) :
    takeUntil enough taken cs = some taken := by
  cases cs <;> simp [takeUntil, h]

theorem takeUntil_cons {taken : List α} (h : ¬ enough taken) (c : α) (cs : List α) :
    takeUntil enough taken (c :: cs) = takeUntil enough (taken ++ [c]) cs := by
  simp [takeUntil, h]

theorem takeUntil_nil {taken : List α} (h : ¬ enough taken) :
    takeUntil enough taken [] = none := by
  simp [takeUntil, h]

theorem takeUntil_some {taken cs result : List α}
    (h : takeUntil enough taken cs = some result) :
    ∃ front, front <+: cs ∧ result = taken ++ front ∧ enough result := by
  induction cs generalizing taken with
  | nil =>
      by_cases hnow : enough taken
      · rw [takeUntil_of_enough hnow] at h
        cases h
        exact ⟨[], List.nil_prefix, by simp, hnow⟩
      · rw [takeUntil_nil hnow] at h
        cases h
  | cons c cs ih =>
      by_cases hnow : enough taken
      · rw [takeUntil_of_enough hnow] at h
        cases h
        exact ⟨[], List.nil_prefix, by simp, hnow⟩
      · rw [takeUntil_cons hnow] at h
        rcases ih h with ⟨front, hfront, rfl, henough⟩
        exact ⟨c :: front, List.cons_prefix_cons.mpr ⟨rfl, hfront⟩, by simp, henough⟩

theorem takeUntil_none {taken cs : List α} (h : takeUntil enough taken cs = none) :
    ¬ enough (taken ++ cs) := by
  induction cs generalizing taken with
  | nil =>
      intro hnow
      rw [takeUntil_of_enough (by simpa using hnow)] at h
      cases h
  | cons c cs ih =>
      by_cases hnow : enough taken
      · rw [takeUntil_of_enough hnow] at h
        cases h
      · rw [takeUntil_cons hnow] at h
        simpa using ih h

/-- The candidates taken are the fewest that are enough. -/
theorem takeUntil_least {taken cs result : List α}
    (h : takeUntil enough taken cs = some result) :
    ∃ k, result = taken ++ cs.take k ∧ IsLeast {k | enough (taken ++ cs.take k)} k := by
  induction cs generalizing taken with
  | nil =>
      by_cases hnow : enough taken
      · rw [takeUntil_of_enough hnow] at h
        cases h
        exact ⟨0, by simp, by simpa using hnow, fun _ _ => Nat.zero_le _⟩
      · rw [takeUntil_nil hnow] at h
        cases h
  | cons c cs ih =>
      by_cases hnow : enough taken
      · rw [takeUntil_of_enough hnow] at h
        cases h
        exact ⟨0, by simp, by simpa using hnow, fun _ _ => Nat.zero_le _⟩
      · rw [takeUntil_cons hnow] at h
        rcases ih h with ⟨k, rfl, henough, hleast⟩
        refine ⟨k + 1, by simp, by simpa using henough, fun j hj => ?_⟩
        cases j with
        | zero => exact absurd (by simpa using hj) hnow
        | succ j =>
            apply Nat.succ_le_succ
            apply hleast
            simpa using hj

/-- What was taken beforehand can be split off. -/
theorem takeUntil_append (enough : List α → Prop) [DecidablePred enough]
    (base taken cs : List α) :
    takeUntil enough (base ++ taken) cs =
      (takeUntil (fun front => enough (base ++ front)) taken cs).map (base ++ ·) := by
  induction cs generalizing taken with
  | nil => by_cases hnow : enough (base ++ taken) <;> simp [takeUntil, hnow]
  | cons c cs ih =>
      by_cases hnow : enough (base ++ taken)
      · simp [takeUntil, hnow]
      · have htail := ih (taken ++ [c])
        rw [takeUntil_cons hnow, List.append_assoc, htail]
        simp [takeUntil, hnow]

/-- Two searches whose tests agree along a renaming of the candidates take the
same candidates. -/
theorem takeUntil_map (f : α → β) {enough' : List β → Prop} [DecidablePred enough']
    {taken cs : List α}
    (h : ∀ front, front <+: cs →
      (enough' ((taken ++ front).map f) ↔ enough (taken ++ front))) :
    takeUntil enough' (taken.map f) (cs.map f) =
      (takeUntil enough taken cs).map (List.map f) := by
  induction cs generalizing taken with
  | nil =>
      have hnow := h [] List.nil_prefix
      rw [List.append_nil] at hnow
      by_cases henough : enough taken
      · rw [takeUntil_of_enough henough, takeUntil_of_enough (hnow.mpr henough)]
        rfl
      · rw [takeUntil_nil henough, List.map_nil,
          takeUntil_nil (fun henough' => henough (hnow.mp henough'))]
        rfl
  | cons c cs ih =>
      have hnow := h [] List.nil_prefix
      rw [List.append_nil] at hnow
      by_cases henough : enough taken
      · rw [takeUntil_of_enough henough, takeUntil_of_enough (hnow.mpr henough)]
        rfl
      · have htail : takeUntil enough' ((taken ++ [c]).map f) (cs.map f) =
            (takeUntil enough (taken ++ [c]) cs).map (List.map f) := by
          apply ih
          intro front hfront
          have hcons := h (c :: front) (List.cons_prefix_cons.mpr ⟨rfl, hfront⟩)
          simpa using hcons
        rw [takeUntil_cons henough, ← htail, List.map_cons,
          takeUntil_cons (fun henough' => henough (hnow.mp henough')), List.map_append]
        rfl

end Eviction
