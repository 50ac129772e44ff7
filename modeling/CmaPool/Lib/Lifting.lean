import Mathlib

/-! Two computations that may fail, run side by side.

They are in step when both stop with the same error, or both return and their
results are related. -/

namespace Lifting

universe u

variable {ε : Type*} {α β γ δ : Type u}

inductive Lifted (R : α → β → Prop) : Except ε α → Except ε β → Prop
  | error (e : ε) : Lifted R (.error e) (.error e)
  | ok {a : α} {b : β} (h : R a b) : Lifted R (.ok a) (.ok b)

variable {R : α → β → Prop} {S : γ → δ → Prop}

theorem Lifted.pure {a : α} {b : β} (h : R a b) :
    Lifted R (Pure.pure a : Except ε α) (Pure.pure b : Except ε β) := .ok h

theorem Lifted.mono {R' : α → β → Prop} {x : Except ε α} {y : Except ε β} (h : Lifted R x y)
    (himp : ∀ a b, R a b → R' a b) : Lifted R' x y := by
  cases h with
  | error e => exact .error e
  | ok h => exact .ok (himp _ _ h)

theorem Lifted.bind {x : Except ε α} {y : Except ε β} {f : α → Except ε γ} {g : β → Except ε δ}
    (h : Lifted R x y) (hnext : ∀ a b, R a b → Lifted S (f a) (g b)) :
    Lifted S (x >>= f) (y >>= g) := by
  cases h with
  | error e => exact .error e
  | ok h => exact hnext _ _ h

/-- The first computation is the same on both sides. -/
theorem Lifted.bind_same (x : Except ε α) {f : α → Except ε γ} {g : α → Except ε δ}
    (hnext : ∀ a, Lifted S (f a) (g a)) : Lifted S (x >>= f) (x >>= g) := by
  cases x with
  | error e => exact .error e
  | ok a => exact hnext a

theorem Lifted.ite {p : Prop} [Decidable p] {x x' : Except ε α} {y y' : Except ε β}
    (h : p → Lifted R x y) (h' : ¬ p → Lifted R x' y') :
    Lifted R (if p then x else x') (if p then y else y') := by
  by_cases hp : p
  · rw [if_pos hp, if_pos hp]
    exact h hp
  · rw [if_neg hp, if_neg hp]
    exact h' hp

theorem Lifted.foldlM {ι : Type*} {f : α → ι → Except ε α} {g : β → ι → Except ε β}
    (hstep : ∀ a b, R a b → ∀ i, Lifted R (f a i) (g b i)) (l : List ι) {a : α} {b : β}
    (h : R a b) : Lifted R (l.foldlM f a) (l.foldlM g b) := by
  induction l generalizing a b with
  | nil => exact .ok h
  | cons i l ih =>
      rw [List.foldlM_cons, List.foldlM_cons]
      exact (hstep a b h i).bind fun a b h => ih h

theorem bind_of_ok {x : Except ε α} {a : α} (h : x = .ok a) (f : α → Except ε γ) :
    x >>= f = f a := by
  rw [h]
  rfl

theorem Lifted.of_ok {a : α} {y : Except ε β} (h : Lifted R (.ok a) y) :
    ∃ b, y = .ok b ∧ R a b := by
  cases h with
  | ok h => exact ⟨_, rfl, h⟩

theorem Lifted.to_ok {b : β} {x : Except ε α} (h : Lifted R x (.ok b)) :
    ∃ a, x = .ok a ∧ R a b := by
  cases h with
  | ok h => exact ⟨_, rfl, h⟩

end Lifting
