import Mathlib

/-! Texts spelled letter by letter, where a test of the code units tells the same
of all units of a letter. -/

namespace Coding

variable {α β : Type*} {spell : α → List β} {unit : β → Bool} {letter : α → Bool}

/-- `unit` is on every unit what `letter` is on the letter. -/
structure Tells (spell : α → List β) (unit : β → Bool) (letter : α → Bool) : Prop where
  spelled : ∀ a, spell a ≠ []
  unit : ∀ a, ∀ b ∈ spell a, unit b = letter a

theorem Tells.dropWhile (h : Tells spell unit letter) (text : List α) :
    (text.flatMap spell).dropWhile unit = (text.dropWhile letter).flatMap spell := by
  induction text with
  | nil => rfl
  | cons a text ih =>
      rw [List.flatMap_cons, List.dropWhile_cons]
      cases hletter : letter a with
      | true =>
          have hall : ∀ b ∈ spell a, unit b = true := fun b hb => (h.unit a b hb).trans hletter
          rw [List.dropWhile_append_of_pos hall, ih]
          rfl
      | false =>
          obtain ⟨b, units, hspell⟩ := List.exists_cons_of_ne_nil (h.spelled a)
          have hb : unit b = false := (h.unit a b (by simp [hspell])).trans hletter
          rw [if_neg (by simp), List.flatMap_cons, hspell, List.cons_append,
            List.dropWhile_cons_of_neg (by simp [hb])]

theorem Tells.takeWhile (h : Tells spell unit letter) (text : List α) :
    (text.flatMap spell).takeWhile unit = (text.takeWhile letter).flatMap spell := by
  have hsplit := congrArg (List.flatMap spell)
    (List.takeWhile_append_dropWhile (p := letter) (l := text))
  rw [List.flatMap_append, ← h.dropWhile] at hsplit
  have hsame := hsplit.trans
    (List.takeWhile_append_dropWhile (p := unit) (l := text.flatMap spell)).symm
  exact (List.append_cancel_right hsame).symm

theorem Tells.any (h : Tells spell unit letter) (text : List α) :
    (text.flatMap spell).any unit = text.any letter := by
  rw [List.any_flatMap]
  congr 1
  funext a
  obtain ⟨b, units, hspell⟩ := List.exists_cons_of_ne_nil (h.spelled a)
  cases hletter : letter a with
  | true =>
      have hb : unit b = true := (h.unit a b (by simp [hspell])).trans hletter
      simp [hspell, hb]
  | false =>
      rw [List.any_eq_false]
      intro b hb
      rw [h.unit a b hb, hletter]
      exact Bool.false_ne_true

theorem Tells.head (h : Tells spell unit letter) {text : List α} {value : Bool}
    (hfirst : ∀ a ∈ text.head?, letter a = value) :
    ∀ b ∈ (text.flatMap spell).head?, unit b = value := by
  cases text with
  | nil => exact fun b hb => nomatch hb
  | cons a text =>
      obtain ⟨b, units, hspell⟩ := List.exists_cons_of_ne_nil (h.spelled a)
      intro b' hb'
      rw [List.flatMap_cons, hspell, List.cons_append, List.head?_cons, Option.mem_some] at hb'
      rw [← hb', h.unit a b (by simp [hspell]), hfirst a rfl]

end Coding
