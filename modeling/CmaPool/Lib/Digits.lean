import Mathlib

/-! Numbers read from their digits, the first digit first. -/

namespace Digits

/-- `value` with the digits written behind it. -/
def follow (base value : Nat) (digits : List Nat) : Nat :=
  digits.foldl (fun value digit => value * base + digit) value

variable {base : Nat}

theorem follow_nil (value : Nat) : follow base value [] = value := rfl

theorem follow_cons (value digit : Nat) (digits : List Nat) :
    follow base value (digit :: digits) = follow base (value * base + digit) digits := rfl

theorem follow_append (value : Nat) (front back : List Nat) :
    follow base value (front ++ back) = follow base (follow base value front) back :=
  List.foldl_append

variable (hbase : 1 < base)

include hbase

theorem le_follow (value : Nat) (digits : List Nat) : value ≤ follow base value digits := by
  induction digits generalizing value with
  | nil => exact Nat.le_refl _
  | cons digit digits ih =>
      calc
        value ≤ value * base := Nat.le_mul_of_pos_right value (by omega)
        _ ≤ value * base + digit := Nat.le_add_right _ _
        _ ≤ follow base value (digit :: digits) := ih _

theorem follow_zero_iff (digits : List Nat) :
    follow base 0 digits = 0 ↔ ∀ digit ∈ digits, digit = 0 := by
  induction digits with
  | nil => simp [follow_nil]
  | cons digit digits ih =>
      rw [follow_cons, Nat.zero_mul, Nat.zero_add, List.forall_mem_cons]
      constructor
      · intro hzero
        have hle := le_follow hbase digit digits
        have hdigit : digit = 0 := by omega
        subst hdigit
        exact ⟨rfl, ih.mp hzero⟩
      · rintro ⟨rfl, hrest⟩
        exact ih.mpr hrest

/-- Digits behind a number change it, unless all of it is zero. -/
theorem follow_eq_iff (value : Nat) (digits : List Nat) :
    follow base value digits = value ↔
      digits = [] ∨ value = 0 ∧ ∀ digit ∈ digits, digit = 0 := by
  cases digits with
  | nil => simp [follow_nil]
  | cons digit digits =>
      constructor
      · intro heq
        right
        have hle := le_follow hbase (value * base + digit) digits
        rw [← follow_cons, heq] at hle
        have hgrow : value * 2 ≤ value * base := Nat.mul_le_mul_left value hbase
        have hvalue : value = 0 := by omega
        subst hvalue
        exact ⟨rfl, (follow_zero_iff hbase _).mp heq⟩
      · rintro (hnil | ⟨rfl, hzero⟩)
        · cases hnil
        · exact (follow_zero_iff hbase _).mpr hzero

end Digits
