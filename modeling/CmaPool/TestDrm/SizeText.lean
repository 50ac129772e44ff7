import CmaPool.Lib.Coding
import CmaPool.Python.Numerals
import CmaPool.TestDrm.Dump

/-! How a size is read off the characters of a line.

`sscanf` and `isspace` look at bytes. The bytes of a character that is not ASCII
are neither digits nor signs nor white space, so the characters tell as much. -/

namespace CmaPool.TestDrm

open Coding
open Python (IsSign decimalValue)

def isBlank (c : Char) : Bool := c.toNat = 0x20 ∨ 0x09 ≤ c.toNat ∧ c.toNat ≤ 0x0d

section Classes

theorem utf8EncodeChar_ne_nil (c : Char) : String.utf8EncodeChar c ≠ [] := by
  rw [← List.length_pos_iff, String.length_utf8EncodeChar]
  exact c.utf8Size_pos

/-- A test that all bytes from `0x80` on fail or all pass. -/
theorem tells {unit : UInt8 → Bool} {letter : Char → Bool}
    (hascii : ∀ c : Char, c.toNat < 0x80 → unit (byte c) = letter c)
    (hhigh : ∀ c : Char, 0x80 ≤ c.toNat → ∀ b : UInt8, 0x80 ≤ b.toNat → unit b = letter c) :
    Tells String.utf8EncodeChar unit letter where
  spelled := utf8EncodeChar_ne_nil
  unit := by
    intro c b hb
    by_cases hc : c.toNat < 0x80
    · rw [utf8EncodeChar_ascii hc, List.mem_singleton] at hb
      rw [hb, hascii c hc]
    · exact hhigh c (Nat.not_lt.mp hc) b (utf8EncodeChar_high (Nat.not_lt.mp hc) hb)

theorem isspace_byte {c : Char} (h : c.toNat < 0x80) : isspace (byte c) = isBlank c := by
  rw [Bool.eq_iff_iff, isspace_iff, byte_toNat h]
  simp [isBlank]

theorem isspace_high {b : UInt8} (h : 0x80 ≤ b.toNat) : isspace b = false := by
  rw [← Bool.not_eq_true, isspace_iff]
  omega

theorem isBlank_high {c : Char} (h : 0x80 ≤ c.toNat) : isBlank c = false := by
  rw [isBlank, decide_eq_false_iff_not]
  omega

theorem tells_isspace : Tells String.utf8EncodeChar isspace isBlank :=
  tells (fun _ h => isspace_byte h) fun _ hc _ hb => (isspace_high hb).trans (isBlank_high hc).symm

theorem tells_nonspace : Tells String.utf8EncodeChar (fun b => !isspace b) fun c => !isBlank c where
  spelled := utf8EncodeChar_ne_nil
  unit := fun c b hb => congrArg not (tells_isspace.unit c b hb)

theorem tells_nonzero :
    Tells String.utf8EncodeChar (fun b => decide (b ≠ 0)) fun c => decide (c ≠ '\x00') := by
  apply tells
  · intro c h
    have hzero : byte c = 0 ↔ c = '\x00' := by
      rw [← UInt8.toNat_inj, byte_toNat h, ← Char.toNat_inj]
      rfl
    simp [hzero]
  · intro c hc b hb
    have hbyte : b ≠ 0 := by
      rintro rfl
      exact absurd hb (by decide)
    have hchar : c ≠ '\x00' := by
      rintro rfl
      exact absurd hc (by decide)
    simp [hbyte, hchar]

theorem cString_encode (cs : List Char) :
    cString (encode cs) = encode (cs.takeWhile (· ≠ '\x00')) := tells_nonzero.takeWhile cs

theorem skipSpaces_encode (cs : List Char) :
    skipSpaces (encode cs) = encode (cs.dropWhile isBlank) := tells_isspace.dropWhile cs

theorem any_nonspace_encode (cs : List Char) :
    (encode cs).any (fun b => !isspace b) = cs.any fun c => !isBlank c := tells_nonspace.any cs

end Classes

section Size

variable {sign number rest : List Char}

theorem digitValue_byte {c : Char} (h : c.isDigit = true) :
    digitValue 10 (byte c) = some (c.toNat - 48) := by
  have hrange := Python.digit_toNat h
  have hvalue := byte_toNat (c := c) (by omega)
  rw [digitValue_decimal (by omega), hvalue, if_pos (by omega)]

theorem isDigit_iff (c : Char) : c.isDigit = true ↔ 48 ≤ c.toNat ∧ c.toNat ≤ 57 := by
  simp only [Char.isDigit, Bool.and_eq_true, decide_eq_true_eq, ge_iff_le, UInt32.le_iff_toNat_le]
  exact Iff.rfl

theorem digitValue_none {b : UInt8} (h : ¬ (0x30 ≤ b.toNat ∧ b.toNat ≤ 0x39)) :
    digitValue 10 b = none := by
  by_cases hlower : 0x61 ≤ b.toNat ∧ b.toNat ≤ 0x66
  · rw [digitValue_lower hlower, if_neg (by omega)]
  · by_cases hupper : 0x41 ≤ b.toNat ∧ b.toNat ≤ 0x46
    · rw [digitValue_upper hupper, if_neg (by omega)]
    · exact digitValue_other h hlower hupper

theorem tells_digit :
    Tells String.utf8EncodeChar (fun b => (digitValue 10 b).isSome) Char.isDigit := by
  apply tells
  · intro c h
    cases hdigit : c.isDigit with
    | true => rw [digitValue_byte hdigit]; rfl
    | false =>
        have hrange : ¬ (48 ≤ c.toNat ∧ c.toNat ≤ 57) := by
          rw [← isDigit_iff, hdigit]
          exact Bool.false_ne_true
        rw [digitValue_none (by rw [byte_toNat h]; exact hrange)]
        rfl
  · intro c hc b hb
    have hdigit : c.isDigit = false := by
      rw [← Bool.not_eq_true, isDigit_iff]
      omega
    rw [digitValue_none (by omega), hdigit]
    rfl

theorem encode_digits (h : ∀ c ∈ number, c.isDigit = true) : encode number = number.map byte := by
  rw [← text_ofList, text_ascii, String.toList_ofList]
  intro c hc
  rw [String.toList_ofList] at hc
  have hrange := Python.digit_toNat (h c hc)
  omega

theorem numeral_digits (h : ∀ c ∈ number, c.isDigit = true) :
    numeral 10 (number.map byte) = decimalValue number := by
  rw [numeral, decimalValue, List.foldl_map]
  apply List.foldl_ext
  intro value c hc
  rw [digitValue_byte (h c hc)]
  rfl

theorem unsignedLong_small {negative : Bool} {value : Nat} (h : value < 2 ^ 64)
    (hminus : negative = true → value = 0) : unsignedLong negative value = value := by
  rw [unsignedLong, if_neg (Nat.not_le.mpr h)]
  split
  · next hnegative => rw [hminus hnegative, Nat.sub_zero, Nat.mod_self]
  · rfl

theorem sign_encode (hsign : IsSign sign) {cs : List Char}
    (hplain : sign = [] → ∀ c ∈ cs.head?, c ≠ '+' ∧ c ≠ '-') :
    TestDrm.sign (encode (sign ++ cs)) = (decide (sign = ['-']), sign.length) := by
  rcases hsign with rfl | rfl | rfl
  · cases cs with
    | nil => rfl
    | cons c cs =>
        obtain ⟨hplus, hminus⟩ := hplain rfl c rfl
        obtain ⟨b, bytes, hbytes⟩ := List.exists_cons_of_ne_nil (utf8EncodeChar_ne_nil c)
        have hb : b ≠ 0x2d ∧ b ≠ 0x2b := by
          by_cases hc : c.toNat < 0x80
          · rw [utf8EncodeChar_ascii hc] at hbytes
            cases hbytes
            have hvalue := byte_toNat hc
            constructor
            · intro heq
              rw [heq] at hvalue
              exact hminus (Char.toNat_inj.mp hvalue.symm)
            · intro heq
              rw [heq] at hvalue
              exact hplus (Char.toNat_inj.mp hvalue.symm)
          · have hhigh := utf8EncodeChar_high (Nat.not_lt.mp hc) (b := b) (by simp [hbytes])
            constructor <;> rintro rfl <;> exact absurd hhigh (by decide)
        rw [encode, List.nil_append, List.flatMap_cons, hbytes, List.cons_append]
        exact sign_eq_none _ hb.1 hb.2
  · rfl
  · rfl

theorem encode_sign (hsign : IsSign sign) : (encode sign).length = sign.length := by
  rcases hsign with rfl | rfl | rfl <;> rfl

/-- The conversion of `buf_create` on a text that is cut into its sign, its digits
and what follows them. -/
theorem scanSize_encode (hsign : IsSign sign) (hdigits : ∀ c ∈ number, c.isDigit = true)
    (hend : ∀ c ∈ rest.head?, c.isDigit = false)
    (hplain : sign = [] → ∀ c ∈ (number ++ rest).head?, c ≠ '+' ∧ c ≠ '-')
    (hblank : ∀ c ∈ (sign ++ (number ++ rest)).head?, isBlank c = false) :
    scanSize (encode (sign ++ (number ++ rest))) =
      if number = [] then none
      else some (unsignedLong (decide (sign = ['-'])) (decimalValue number),
        sign.length + number.length) := by
  have hspaces : (encode (sign ++ (number ++ rest))).takeWhile isspace = [] :=
    takeWhile_of_head (tells_isspace.head hblank)
  have hnumber : (encode (sign ++ (number ++ rest))).drop sign.length =
      number.map byte ++ encode rest := by
    rw [encode_append, ← encode_sign hsign, List.drop_left, encode_append, encode_digits hdigits]
  have hread : digits 10 0 0 (number.map byte ++ encode rest) =
      (decimalValue number, number.length) := by
    have hstop : ∀ b ∈ (encode rest).head?, digitValue 10 b = none := by
      intro b hb
      have hnone := tells_digit.head hend b hb
      simpa using hnone
    have hall : ∀ b ∈ number.map byte, (digitValue 10 b).isSome := by
      intro b hb
      obtain ⟨c, hc, rfl⟩ := List.mem_map.mp hb
      rw [digitValue_byte (hdigits c hc)]
      rfl
    rw [digits_append 0 0 hall hstop, ← numeral_digits hdigits, List.length_map, Nat.zero_add]
    rfl
  have hmark : (if (10 : Nat) = 16 then hexMark (number.map byte ++ encode rest) else 0) = 0 := rfl
  simp only [scanSize, scanUnsigned, hspaces, List.length_nil, List.drop_zero,
    sign_encode hsign hplain, hnumber, hmark, hread]
  rw [Nat.zero_add, Nat.add_zero]
  simp only [List.length_eq_zero_iff]

theorem encode_behind (hsign : IsSign sign) (hdigits : ∀ c ∈ number, c.isDigit = true) :
    (encode (sign ++ (number ++ rest))).drop (sign.length + number.length) = encode rest := by
  have hlength : sign.length + number.length = (encode (sign ++ number)).length := by
    rw [encode_append, List.length_append, encode_sign hsign, encode_digits hdigits,
      List.length_map]
  rw [hlength, ← List.append_assoc, encode_append (sign ++ number), List.drop_left]

end Size

end CmaPool.TestDrm
