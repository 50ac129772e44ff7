import CmaPool.TestDrm.Commands

/-! How the fields of a line are read back.

A text is read as its UTF-8 bytes, of which only those of an ASCII character are
below `0x80`. A field that the line has in front of its separator is found by
`strstr`, `strchr` and `sscanf` whatever comes after it. -/

namespace CmaPool.TestDrm

section Text

/-- The loop of `ByteArray.toList` collects the bytes from `i` on. -/
theorem toList_loop_eq (bytes : ByteArray) (i : Nat) (front : Bytes) :
    ByteArray.toList.loop bytes i front = front.reverse ++ bytes.data.toList.drop i := by
  generalize hleft : bytes.size - i = left
  induction left generalizing i front with
  | zero =>
      have hend : ¬ i < bytes.size := by omega
      have hdrop : bytes.data.toList.drop i = [] := List.drop_eq_nil_of_le (Nat.not_lt.mp hend)
      rw [ByteArray.toList.loop, if_neg hend, hdrop, List.append_nil]
  | succ left ih =>
      have hlt : i < bytes.size := by omega
      rw [ByteArray.toList.loop, if_pos hlt, ih (i + 1) _ (by omega), List.reverse_cons,
        List.append_assoc, List.drop_eq_getElem_cons (l := bytes.data.toList) hlt]
      simp [ByteArray.get!, hlt]

theorem text_eq (s : String) : text s = s.toList.flatMap String.utf8EncodeChar := by
  rw [text, String.toUTF8_eq_toByteArray, ← String.utf8Encode_toList, List.utf8Encode,
    ByteArray.toList, toList_loop_eq]
  simp

theorem text_append (s t : String) : text (s ++ t) = text s ++ text t := by
  rw [text_eq, text_eq, text_eq, String.toList_append, List.flatMap_append]

def byte (c : Char) : UInt8 := UInt8.ofNat c.toNat

theorem utf8EncodeChar_ascii {c : Char} (h : c.toNat < 0x80) :
    String.utf8EncodeChar c = [byte c] := by
  have hsmall : c.val.toNat ≤ 0x7f := Nat.le_of_lt_succ h
  rw [String.utf8EncodeChar]
  exact if_pos hsmall

theorem utf8EncodeChar_high {c : Char} (h : 0x80 ≤ c.toNat) {b : UInt8}
    (hb : b ∈ String.utf8EncodeChar c) : 0x80 ≤ b.toNat := by
  have hhigh : ¬ c.val.toNat ≤ 0x7f := Nat.not_le.mpr h
  rw [String.utf8EncodeChar] at hb
  simp only [if_neg hhigh] at hb
  split at hb
  · simp only [List.mem_cons, List.not_mem_nil, or_false] at hb
    rcases hb with rfl | rfl <;> simp <;> omega
  · split at hb
    · simp only [List.mem_cons, List.not_mem_nil, or_false] at hb
      rcases hb with rfl | rfl | rfl <;> simp <;> omega
    · simp only [List.mem_cons, List.not_mem_nil, or_false] at hb
      rcases hb with rfl | rfl | rfl | rfl <;> simp <;> omega

theorem byte_toNat {c : Char} (h : c.toNat < 0x80) : (byte c).toNat = c.toNat := by
  simp [byte]
  omega

/-- A byte below `0x80` is a character of the text. -/
theorem mem_text_ascii {s : String} {b : UInt8} (hb : b ∈ text s) (h : b.toNat < 0x80) :
    ∃ c ∈ s.toList, c.toNat = b.toNat := by
  rw [text_eq, List.mem_flatMap] at hb
  rcases hb with ⟨c, hc, hb⟩
  refine ⟨c, hc, ?_⟩
  by_cases hascii : c.toNat < 0x80
  · rw [utf8EncodeChar_ascii hascii, List.mem_singleton] at hb
    rw [hb, byte_toNat hascii]
  · exact absurd (utf8EncodeChar_high (Nat.not_lt.mp hascii) hb) (Nat.not_le.mpr h)

theorem text_ascii {s : String} (h : ∀ c ∈ s.toList, c.toNat < 0x80) :
    text s = s.toList.map byte := by
  rw [text_eq]
  generalize s.toList = cs at h
  induction cs with
  | nil => rfl
  | cons c cs ih =>
      rw [List.flatMap_cons, utf8EncodeChar_ascii (h c List.mem_cons_self), List.map_cons,
        ih fun d hd => h d (List.mem_cons_of_mem _ hd)]
      rfl

/-- The test for a literal, which evaluates. -/
theorem text_literal {s : String} (h : (s.toList.all fun c => c.toNat < 0x80) = true) :
    text s = s.toList.map byte :=
  text_ascii fun c hc => by simpa using List.all_eq_true.mp h c hc

/-- A text without newlines, ended by one. -/
theorem text_isLine {s : String} (h : '\n' ∉ s.toList) :
    Lines.IsLine 0x0a (text (s ++ "\n")) := by
  refine ⟨text s, ?_, ?_⟩
  · rw [text_append]
    have hnewline : text "\n" = [0x0a] := by
      rw [text_literal (by decide)]
      rfl
    rw [hnewline]
  · intro hmem
    obtain ⟨c, hc, hvalue⟩ := mem_text_ascii hmem (by decide)
    have hnewline : c = '\n' := Char.toNat_inj.mp hvalue
    exact h (hnewline ▸ hc)

end Text

section Fgets

variable {size : Nat} {first more s t line rest : Bytes}

theorem fgets_line (hfirst : Lines.IsLine 0x0a first) (hshort : first.length < size)
    (more : Bytes) : fgets size (first ++ more) = some (first, more) := by
  rw [fgets, Lines.cutLine_line hfirst]
  exact if_pos hshort

/-- As many bytes without a newline as fit are returned at once. -/
theorem fgets_full (hfree : 0x0a ∉ first) (hfull : first.length + 1 = size) (more : Bytes) :
    fgets size (first ++ more) = some (first, more) := by
  have htake : (first ++ more).take (size - 1) = first := List.take_left' (by omega)
  have hdrop : (first ++ more).drop (size - 1) = more := List.drop_left' (by omega)
  rw [fgets, htake, hdrop]
  cases hcut : Lines.cutLine 0x0a (first ++ more) with
  | none => exact if_pos (by rw [List.length_append]; omega)
  | some cut =>
      obtain ⟨line, rest⟩ := cut
      obtain ⟨hsplit, body, rfl, _⟩ := Lines.cutLine_some hcut
      have hlong : first.length < (body ++ [0x0a]).length := by
        by_contra hshort
        apply hfree
        have hprefix := List.prefix_of_prefix_length_le (Exists.intro rest hsplit.symm)
          (List.prefix_append first more) (Nat.not_lt.mp hshort)
        exact hprefix.subset (by simp)
      exact if_neg (by omega)

/-- What `fgets` returns of the part of a stream that has arrived. -/
theorem fgets_first (hfirst : Lines.IsLine 0x0a first) (hshort : first.length < size)
    (hstream : s ++ t = first ++ more) (h : fgets size s = some (line, rest)) :
    line = first ∧ rest ++ t = more := by
  rw [fgets] at h
  cases hcut : Lines.cutLine 0x0a s with
  | some cut =>
      obtain ⟨l, r⟩ := cut
      obtain ⟨rfl, hrest⟩ := Lines.cutLine_first hfirst hstream hcut
      rw [hcut] at h
      cases (if_pos hshort).symm.trans h
      exact ⟨rfl, hrest⟩
  | none =>
      have hnone := Lines.cutLine_none hcut
      have hstop : 0x0a ∈ first := by
        obtain ⟨body, rfl, _⟩ := hfirst
        simp
      simp only [hcut] at h
      split at h
      · next hsize =>
          exfalso
          rcases List.append_eq_append_iff.mp hstream with ⟨a, rfl, _⟩ | ⟨a, rfl, _⟩
          · have ha : a = [] := by
              rw [List.length_append] at hshort
              exact List.length_eq_zero_iff.mp (by omega)
            rw [ha, List.append_nil] at hstop
            exact hnone hstop
          · exact hnone (List.mem_append_left _ hstop)
      · cases h

theorem fgets_length (hsize : 1 < size) (h : fgets size s = some (line, rest)) :
    rest.length < s.length := by
  rw [fgets] at h
  cases hcut : Lines.cutLine 0x0a s with
  | some cut =>
      obtain ⟨l, r⟩ := cut
      obtain ⟨rfl, body, rfl, _⟩ := Lines.cutLine_some hcut
      simp only [hcut] at h
      split at h
      · cases h
        simp
        omega
      · next hlong =>
          cases h
          simp at hlong ⊢
          omega
  | none =>
      simp only [hcut] at h
      split at h
      · cases h
        simp
        omega
      · cases h

end Fgets

section Search

theorem cString_append {front : Bytes} (h : 0 ∉ front) (rest : Bytes) :
    cString (front ++ rest) = front ++ cString rest := by
  rw [cString, List.takeWhile_append_of_pos]
  · rfl
  · intro b hb
    simp only [decide_eq_true_eq]
    intro heq
    exact h (heq ▸ hb)

/-- A byte string that starts with a space, or is empty. -/
theorem cString_head {rest : Bytes} (h : ∀ c ∈ rest.head?, isspace c = true) :
    ∀ c ∈ (cString rest).head?, isspace c = true := by
  cases rest with
  | nil => exact h
  | cons b rest =>
      intro c hc
      rw [cString, List.takeWhile_cons] at hc
      split at hc
      · exact h c hc
      · simp at hc

theorem strchr_append {front : Bytes} {c : UInt8} (h : c ∉ front) (rest : Bytes) :
    strchr (front ++ c :: rest) c = some front.length := by
  have hnone : front.findIdx? (· = c) = none := by
    rw [List.findIdx?_eq_none_iff]
    intro b hb
    simp only [decide_eq_false_iff_not]
    intro heq
    exact h (heq ▸ hb)
  rw [strchr, List.findIdx?_append, hnone, List.findIdx?_cons]
  simp

/-- Text without the first byte of the needle cannot overlap it. -/
theorem strstr_append {front : Bytes} {c : UInt8} (h : c ∉ front) (needle rest : Bytes) :
    strstr (c :: needle) (front ++ (c :: needle) ++ rest) = some front.length := by
  induction front with
  | nil =>
      have hstarts : (c :: needle).isPrefixOf (c :: needle ++ rest) = true := by
        rw [List.isPrefixOf_iff_prefix]
        exact List.prefix_append _ _
      rw [List.nil_append, List.cons_append, strstr, ← List.cons_append, if_pos hstarts]
      rfl
  | cons b front ih =>
      have hb : c ≠ b := fun heq => h (heq ▸ List.mem_cons_self)
      have hstarts : ¬ (c :: needle).isPrefixOf (b :: (front ++ (c :: needle) ++ rest)) = true := by
        simp [List.isPrefixOf, hb]
      rw [List.cons_append, List.cons_append, strstr, if_neg hstarts,
        ih fun hmem => h (List.mem_cons_of_mem _ hmem)]
      rfl

theorem takeWhile_of_head {α : Type} {p : α → Bool} {l : List α}
    (h : ∀ a ∈ l.head?, p a = false) : l.takeWhile p = [] := by
  cases l with
  | nil => rfl
  | cons a l => exact List.takeWhile_cons_of_neg (by simp [h a rfl])

theorem dropWhile_of_head {α : Type} {p : α → Bool} {l : List α}
    (h : ∀ a ∈ l.head?, p a = false) : l.dropWhile p = l := by
  have hsplit := List.takeWhile_append_dropWhile (p := p) (l := l)
  rwa [takeWhile_of_head h, List.nil_append] at hsplit

theorem skipSpaces_of_head {s : Bytes} (h : ∀ c ∈ s.head?, isspace c = false) :
    skipSpaces s = s := dropWhile_of_head h

end Search

section Numbers

variable {base : Nat} {number : Bytes}

/-- The value of a digit string. -/
def numeral (base : Nat) (number : Bytes) : Nat :=
  number.foldl (fun value c => value * base + (digitValue base c).getD 0) 0

theorem digits_append (value count : Nat) (h : ∀ c ∈ number, (digitValue base c).isSome)
    {rest : Bytes} (hend : ∀ c ∈ rest.head?, digitValue base c = none) :
    digits base value count (number ++ rest) =
      (number.foldl (fun value c => value * base + (digitValue base c).getD 0) value,
        count + number.length) := by
  induction number generalizing value count with
  | nil =>
      cases rest with
      | nil => rfl
      | cons c rest => simp [digits, hend c rfl]
  | cons c number ih =>
      rcases Option.isSome_iff_exists.mp (h c List.mem_cons_self) with ⟨digit, hdigit⟩
      rw [List.cons_append, digits, hdigit]
      simp only []
      rw [ih _ _ fun d hd => h d (List.mem_cons_of_mem _ hd), List.foldl_cons, hdigit,
        List.length_cons, Nat.add_assoc, Nat.add_comm 1]
      rfl

theorem isspace_iff (c : UInt8) :
    isspace c = true ↔ c.toNat = 0x20 ∨ 0x09 ≤ c.toNat ∧ c.toNat ≤ 0x0d := by
  simp [isspace, UInt8.le_iff_toNat_le, ← UInt8.toNat_inj]

theorem digitValue_decimal {c : UInt8} (h : 0x30 ≤ c.toNat ∧ c.toNat ≤ 0x39) :
    digitValue base c = if c.toNat - 0x30 < base then some (c.toNat - 0x30) else none := by
  have hrange : 0x30 ≤ c ∧ c ≤ 0x39 := by simpa [UInt8.le_iff_toNat_le] using h
  simp only [digitValue, if_pos hrange]

theorem digitValue_lower {c : UInt8} (h : 0x61 ≤ c.toNat ∧ c.toNat ≤ 0x66) :
    digitValue base c = if c.toNat - 0x61 + 10 < base then some (c.toNat - 0x61 + 10) else none := by
  have hdecimal : ¬ (0x30 ≤ c ∧ c ≤ 0x39) := by
    simp only [UInt8.le_iff_toNat_le, UInt8.reduceToNat]
    omega
  have hrange : 0x61 ≤ c ∧ c ≤ 0x66 := by simpa [UInt8.le_iff_toNat_le] using h
  simp only [digitValue, if_neg hdecimal, if_pos hrange]

theorem digitValue_upper {c : UInt8} (h : 0x41 ≤ c.toNat ∧ c.toNat ≤ 0x46) :
    digitValue base c = if c.toNat - 0x41 + 10 < base then some (c.toNat - 0x41 + 10) else none := by
  have hother : ¬ (0x30 ≤ c ∧ c ≤ 0x39) ∧ ¬ (0x61 ≤ c ∧ c ≤ 0x66) := by
    simp only [UInt8.le_iff_toNat_le, UInt8.reduceToNat]
    omega
  have hrange : 0x41 ≤ c ∧ c ≤ 0x46 := by simpa [UInt8.le_iff_toNat_le] using h
  simp only [digitValue, if_neg hother.1, if_neg hother.2, if_pos hrange]

theorem digitValue_other {c : UInt8} (hdecimal : ¬ (0x30 ≤ c.toNat ∧ c.toNat ≤ 0x39))
    (hlower : ¬ (0x61 ≤ c.toNat ∧ c.toNat ≤ 0x66)) (hupper : ¬ (0x41 ≤ c.toNat ∧ c.toNat ≤ 0x46)) :
    digitValue base c = none := by
  have hother : ¬ (0x30 ≤ c ∧ c ≤ 0x39) ∧ ¬ (0x61 ≤ c ∧ c ≤ 0x66) ∧ ¬ (0x41 ≤ c ∧ c ≤ 0x46) := by
    simp only [UInt8.le_iff_toNat_le, UInt8.reduceToNat]
    exact ⟨hdecimal, hlower, hupper⟩
  simp only [digitValue, if_neg hother.1, if_neg hother.2.1, if_neg hother.2.2, Nat.lt_irrefl,
    if_false]

/-- The codes of the hexadecimal digits. -/
theorem digit_code {c : UInt8} (h : (digitValue base c).isSome) :
    0x30 ≤ c.toNat ∧ c.toNat ≤ 0x39 ∨ 0x61 ≤ c.toNat ∧ c.toNat ≤ 0x66 ∨
      0x41 ≤ c.toNat ∧ c.toNat ≤ 0x46 := by
  by_contra hother
  rw [digitValue_other (by omega) (by omega) (by omega)] at h
  cases h

theorem space_no_digit {c : UInt8} (h : isspace c = true) : digitValue base c = none := by
  rw [isspace_iff] at h
  exact digitValue_other (by omega) (by omega) (by omega)

theorem ne_of_code {c d : UInt8} (h : c.toNat ≠ d.toNat) : c ≠ d :=
  fun heq => h (congrArg UInt8.toNat heq)

theorem digit_no_space {c : UInt8} (h : (digitValue 16 c).isSome) : isspace c = false := by
  have hcode := digit_code h
  rw [← Bool.not_eq_true, isspace_iff]
  omega

theorem digit_ne_zero {c : UInt8} (h : (digitValue 16 c).isSome) : c ≠ 0 := by
  have hcode := digit_code h
  apply ne_of_code
  simp only [UInt8.reduceToNat]
  omega

theorem digit_no_sign {c : UInt8} (h : (digitValue 16 c).isSome) : c ≠ 0x2d ∧ c ≠ 0x2b := by
  have hcode := digit_code h
  constructor <;> apply ne_of_code <;> simp only [UInt8.reduceToNat] <;> omega

/-- Neither a digit nor a space is the `x` of a hexadecimal number. -/
theorem no_mark {c : UInt8} (h : (digitValue 16 c).isSome ∨ isspace c = true) :
    c ≠ 0x78 ∧ c ≠ 0x58 := by
  have hcode := h.imp digit_code (isspace_iff c).mp
  constructor <;> apply ne_of_code <;> simp only [UInt8.reduceToNat] <;> omega

theorem hex_of_decimal {c : UInt8} (h : (digitValue 10 c).isSome) : (digitValue 16 c).isSome := by
  rcases digit_code h with hdecimal | hlower | hupper
  · rw [digitValue_decimal hdecimal, if_pos (by omega)]
    rfl
  · rw [digitValue_lower hlower, if_pos (by omega)]
    rfl
  · rw [digitValue_upper hupper, if_pos (by omega)]
    rfl

theorem hexMark_eq_zero {s : Bytes} (h : ∀ c ∈ s[1]?, c ≠ 0x78 ∧ c ≠ 0x58) : hexMark s = 0 := by
  rw [hexMark.eq_def]
  split
  · exact absurd rfl (h 0x78 rfl).1
  · exact absurd rfl (h 0x58 rfl).2
  · rfl

theorem sign_eq_none {c : UInt8} (s : Bytes) (hminus : c ≠ 0x2d) (hplus : c ≠ 0x2b) :
    sign (c :: s) = (false, 0) := by
  rw [sign.eq_def]
  split
  · next heq => exact absurd (List.cons.inj heq).1 hminus
  · next heq => exact absurd (List.cons.inj heq).1 hplus
  · rfl

/-- A number in front of a space or the end is read whole. -/
theorem scanUnsigned_append (hbase : base = 10 ∨ base = 16) (hne : number ≠ [])
    (hdigits : ∀ c ∈ number, (digitValue base c).isSome) {rest : Bytes}
    (hend : ∀ c ∈ rest.head?, isspace c = true) (hsmall : numeral base number < 2 ^ 64) :
    scanUnsigned base (number ++ rest) = some (numeral base number, number.length) := by
  have hhex : ∀ c ∈ number, (digitValue 16 c).isSome := by
    intro c hc
    rcases hbase with rfl | rfl
    · exact hex_of_decimal (hdigits c hc)
    · exact hdigits c hc
  have hstop : ∀ c ∈ rest.head?, digitValue base c = none := by
    intro c hc
    exact space_no_digit (hend c hc)
  have hread : digits base 0 0 (number ++ rest) = _ := digits_append 0 0 hdigits hstop
  rcases List.exists_cons_of_ne_nil hne with ⟨c, tail, rfl⟩
  have hspace := digit_no_space (hhex c List.mem_cons_self)
  rcases digit_no_sign (hhex c List.mem_cons_self) with ⟨hminus, hplus⟩
  have hspaces : (c :: tail ++ rest).takeWhile isspace = [] := by
    rw [List.cons_append, List.takeWhile_cons_of_neg]
    simp [hspace]
  have hmark : hexMark (c :: tail ++ rest) = 0 := by
    apply hexMark_eq_zero
    intro d hd
    cases tail with
    | nil =>
        have hd' : d ∈ rest.head? := by simpa [List.head?_eq_getElem?] using hd
        exact no_mark (Or.inr (hend d hd'))
    | cons e tail =>
        have hd' : e = d := by simpa using hd
        subst hd'
        exact no_mark (Or.inl (hhex e (by simp)))
  simp only [scanUnsigned, hspaces, List.length_nil, List.drop_zero]
  rw [List.cons_append, sign_eq_none _ hminus hplus]
  simp only [List.drop_zero]
  rw [← List.cons_append, hmark]
  simp only [ite_self, List.drop_zero, hread, List.length_cons]
  rw [if_neg (by omega), unsignedLong, if_neg (by exact Nat.not_le.mpr hsmall)]
  simp [numeral]

theorem numeral_concat (c : UInt8) :
    numeral base (number ++ [c]) = numeral base number * base + (digitValue base c).getD 0 := by
  rw [numeral, List.foldl_append]
  rfl

theorem numeral_zeros (count : Nat) (number : Bytes) :
    numeral base (List.replicate count 0x30 ++ number) = numeral base number := by
  have hzero : (digitValue base 0x30).getD 0 = 0 := by
    have hvalue : digitValue base 0x30 = if 0 < base then some 0 else none := by
      simp [digitValue]
    rw [hvalue]
    split <;> rfl
  rw [numeral, List.foldl_append]
  congr 1
  induction count with
  | zero => rfl
  | succ count ih =>
      rw [List.replicate_succ, List.foldl_cons, hzero]
      simpa using ih

theorem digitValue_digitChar {digit : Nat} (h : digit < base) (hbase : base ≤ 16) :
    digitValue base (byte digit.digitChar) = some digit := by
  have hcode : ∀ d < 16, (byte d.digitChar).toNat = if d < 10 then 0x30 + d else 0x61 + d - 10 := by
    decide
  have hvalue := hcode digit (by omega)
  by_cases hdecimal : digit < 10
  · rw [if_pos hdecimal] at hvalue
    have hdigit : (byte digit.digitChar).toNat - 0x30 = digit := by omega
    rw [digitValue_decimal (by omega), hdigit, if_pos h]
  · rw [if_neg hdecimal] at hvalue
    have hdigit : (byte digit.digitChar).toNat - 0x61 + 10 = digit := by omega
    rw [digitValue_lower (by omega), hdigit, if_pos h]

/-- The digits that a number is written with read back as the number. -/
theorem toDigits_numeral (hbase : 1 < base) (hbase' : base ≤ 16) (n : Nat) :
    (∀ c ∈ (Nat.toDigits base n).map byte, (digitValue base c).isSome) ∧
      numeral base ((Nat.toDigits base n).map byte) = n := by
  induction n using Nat.strongRecOn with
  | ind n ih =>
      rw [Nat.toDigits_eq_if hbase]
      split
      · next hlt =>
          have hdigit := digitValue_digitChar hlt hbase'
          constructor
          · simp [hdigit]
          · simp [numeral, hdigit]
      · next hge =>
          have hless : n / base < n := Nat.div_lt_self (by omega) hbase
          have hdigit := digitValue_digitChar (Nat.mod_lt n (by omega)) hbase'
          rcases ih _ hless with ⟨hdigits, hvalue⟩
          rw [List.map_append, List.map_singleton]
          constructor
          · intro c hc
            rcases List.mem_append.mp hc with hc | hc
            · exact hdigits c hc
            · rw [List.mem_singleton.mp hc, hdigit]
              rfl
          · rw [numeral_concat, hvalue, hdigit]
            exact Nat.div_add_mod' n base

theorem toDigits_ascii (hbase : 1 < base) (hbase' : base ≤ 16) (n : Nat) :
    ∀ c ∈ Nat.toDigits base n, c.toNat < 0x80 := by
  have hchar : ∀ d < 16, d.digitChar.toNat < 0x80 := by decide
  induction n using Nat.strongRecOn with
  | ind n ih =>
      rw [Nat.toDigits_eq_if hbase]
      split
      · next hlt =>
          intro c hc
          rw [List.mem_singleton.mp hc]
          exact hchar n (by omega)
      · next hge =>
          intro c hc
          rcases List.mem_append.mp hc with hc | hc
          · exact ih _ (Nat.div_lt_self (by omega) hbase) c hc
          · have hdigit := Nat.mod_lt n (y := base) (by omega)
            rw [List.mem_singleton.mp hc]
            exact hchar _ (by omega)

end Numbers

/-- The text after the marker of a line. -/
def lineText (line : Bytes) : Option Bytes :=
  (strstr Data.commandMarker (cString line)).map fun markerPos =>
    (cString line).drop (markerPos + Data.commandMarker.length)

/-- The name that `process_command` reads. -/
def commandAddress (command : Bytes) : Option Nat := do
  let commandEnd ← strchr command 0x20
  let (name, _) ← scanHex32 (command.drop (commandEnd + 1))
  return name

def lineAddress (line : Bytes) : Option Nat := (lineText line).bind commandAddress

theorem lineCommand_eq (line : Bytes) : lineCommand line = (lineText line).bind commandOf := by
  rw [lineCommand, lineText]
  cases strstr Data.commandMarker (cString line) <;> rfl

theorem lineAddress_of_command {line : Bytes} {c : Command} (h : lineCommand line = some c) :
    lineAddress line = some c.name := by
  rw [lineCommand_eq] at h
  rw [lineAddress]
  rcases Option.bind_eq_some_iff.mp h with ⟨command, htext, hcommand⟩
  rw [htext, Option.bind_some, commandAddress]
  simp only [commandOf, Option.bind_eq_bind, Option.bind_eq_some_iff, Option.pure_def,
    Option.some.injEq] at hcommand ⊢
  rcases hcommand with ⟨commandEnd, hend, address, haddress, verb, _, rfl⟩
  exact ⟨commandEnd, hend, address, haddress, rfl⟩

section Line

variable {front word number rest : Bytes}

theorem lineText_append (hmarker : 0x5d ∉ front) (hnul : 0 ∉ front) (rest : Bytes) :
    lineText (front ++ Data.commandMarker ++ rest) = some (cString rest) := by
  have hhead : Data.commandMarker = 0x5d :: [0x20, 0x40, 0x40, 0x40, 0x20] := by
    rw [Data.commandMarker, text_literal (by decide)]
    rfl
  have hmarkerNul : 0 ∉ Data.commandMarker := by simp [hhead]
  have hfront : 0 ∉ front ++ Data.commandMarker := by
    rw [List.mem_append]
    exact fun hmem => hmem.elim hnul hmarkerNul
  have hfound : strstr Data.commandMarker (front ++ Data.commandMarker ++ cString rest) =
      some front.length := by
    rw [hhead]
    exact strstr_append hmarker _ _
  rw [lineText, cString_append hfront, hfound, Option.map_some, ← List.length_append,
    List.drop_left]

variable (hword : 0x20 ∉ word) (hne : number ≠ [])
  (hdigits : ∀ c ∈ number, (digitValue 16 c).isSome) (hend : ∀ c ∈ rest.head?, isspace c = true)
  (hsmall : numeral 16 number < 2 ^ 64)

include hword hne hdigits hend hsmall

theorem commandAddress_append :
    commandAddress (word ++ 0x20 :: (number ++ rest)) = some (numeral 16 number % 2 ^ 32) := by
  have hscan := scanUnsigned_append (Or.inr rfl) hne hdigits hend hsmall
  simp only [commandAddress, strchr_append hword, Option.bind_eq_bind, Option.bind_some]
  rw [List.drop_append, List.drop_of_length_le (by omega)]
  simp [scanHex32, hscan]

theorem commandOf_append :
    commandOf (word ++ 0x20 :: (number ++ rest)) =
      (verbs.lookup word).map fun verb => ⟨verb, numeral 16 number % 2 ^ 32, skipSpaces rest⟩ := by
  have hscan := scanUnsigned_append (Or.inr rfl) hne hdigits hend hsmall
  simp only [commandOf, strchr_append hword, Option.bind_eq_bind, Option.bind_some]
  rw [List.drop_append, List.drop_of_length_le (by omega), List.take_left]
  cases hverb : verbs.lookup word with
  | none => simp [scanHex32, hscan]
  | some verb => simp [scanHex32, hscan]

end Line

end CmaPool.TestDrm
