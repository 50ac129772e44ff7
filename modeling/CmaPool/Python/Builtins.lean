import Mathlib

/-! Python's `int(str)` in base 10, the string formats and the list methods that the
program calls. -/

namespace CmaPool.Python

/-- Code points of the zeros of Unicode's decimal digit runs. -/
def digitZeros : List Nat :=
  [0x30, 0x660, 0x6f0, 0x7c0, 0x966, 0x9e6, 0xa66, 0xae6, 0xb66, 0xbe6, 0xc66, 0xce6,
    0xd66, 0xde6, 0xe50, 0xed0, 0xf20, 0x1040, 0x1090, 0x17e0, 0x1810, 0x1946, 0x19d0,
    0x1a80, 0x1a90, 0x1b50, 0x1bb0, 0x1c40, 0x1c50, 0xa620, 0xa8d0, 0xa900, 0xa9d0,
    0xa9f0, 0xaa50, 0xabf0, 0xff10, 0x104a0, 0x10d30, 0x11066, 0x110f0, 0x11136,
    0x111d0, 0x112f0, 0x11450, 0x114d0, 0x11650, 0x116c0, 0x11730, 0x118e0, 0x11950,
    0x11c50, 0x11d50, 0x11da0, 0x16a60, 0x16ac0, 0x16b50, 0x1d7ce, 0x1d7d8, 0x1d7e2,
    0x1d7ec, 0x1d7f6, 0x1e140, 0x1e2f0, 0x1e950, 0x1fbf0]

def decimalDigit (c : Char) : Option Nat :=
  (digitZeros.find? (fun first => first ≤ c.toNat ∧ c.toNat < first + 10)).map (c.toNat - ·)

def intSpaces : List Nat :=
  [0x9, 0xa, 0xb, 0xc, 0xd, 0x20, 0x85, 0xa0, 0x1680, 0x2000, 0x2001, 0x2002, 0x2003,
    0x2004, 0x2005, 0x2006, 0x2007, 0x2008, 0x2009, 0x200a, 0x2028, 0x2029, 0x202f,
    0x205f, 0x3000]

def isIntSpace (c : Char) : Bool := c.toNat ∈ intSpaces

/-- Digits with at most one underscore between two of them; `after` says that
the previous character was a digit. -/
def intDigits : Nat → Bool → List Char → Option Nat
  | value, after, [] => if after then some value else none
  | value, after, c :: cs =>
      match decimalDigit c with
      | some digit => intDigits (value * 10 + digit) true cs
      | none => if c = '_' ∧ after then intDigits value false cs else none

def strip (cs : List Char) : List Char :=
  ((cs.dropWhile isIntSpace).reverse.dropWhile isIntSpace).reverse

/-- `sys.int_info.default_max_str_digits`. -/
def maxStrDigits : Nat := 4300

/-- The digits among the characters, of any of the decimal runs. -/
def digitsIn (cs : List Char) : List Nat := cs.filterMap decimalDigit

/-- The number behind the sign. Its digits count for the limit, zeros in front
too, and its underscores do not. -/
def intNumber (cs : List Char) : Option Nat :=
  if maxStrDigits < (digitsIn cs).length then none else intDigits 0 false cs

/-- `int(text)`; `none` is the `ValueError`. -/
def int (text : String) : Option Int :=
  match strip text.toList with
  | '+' :: cs => (intNumber cs).map Int.ofNat
  | '-' :: cs => (intNumber cs).map (fun value => -Int.ofNat value)
  | cs => (intNumber cs).map Int.ofNat

/-- `separator.join(words)`. -/
def join (separator : String) : List String → String
  | [] => ""
  | [word] => word
  | word :: words => word ++ separator ++ join separator words

/-- A string padded with zeros on the left. -/
def zeroFill (width : Nat) (s : String) : String :=
  String.ofList (List.replicate (width - s.length) '0') ++ s

/-- `{:x}` of a natural number. -/
def hexDigits (n : Nat) : String := String.ofList (Nat.toDigits 16 n)

/-- `{:08x}`; the sign counts for the width. -/
def hexFormat : Int → String
  | .ofNat n => zeroFill 8 (hexDigits n)
  | .negSucc n => "-" ++ zeroFill 7 (hexDigits (n + 1))

/-- `list.insert(pos, x)` for a position that is not negative. -/
def listInsert {α : Type} (l : List α) (pos : Nat) (x : α) : List α :=
  l.take pos ++ x :: l.drop pos

/-- A string of one or more ASCII digits. -/
def IsDecimal (text : String) : Prop :=
  text.toList ≠ [] ∧ ∀ c ∈ text.toList, c.isDigit = true

instance (text : String) : Decidable (IsDecimal text) :=
  have := List.decidableBAll (fun c => c.isDigit = true) text.toList
  instDecidableAnd

theorem digit_toNat {c : Char} (h : c.isDigit = true) : 48 ≤ c.toNat ∧ c.toNat ≤ 57 := by
  simp only [Char.isDigit, Bool.and_eq_true, decide_eq_true_eq, ge_iff_le,
    UInt32.le_iff_toNat_le] at h
  exact h

theorem decimalDigit_of_isDigit {c : Char} (h : c.isDigit = true) :
    decimalDigit c = some (c.toNat - 48) := by
  rcases digit_toNat h with ⟨hlow, hhigh⟩
  have hfind :
      digitZeros.find? (fun first => first ≤ c.toNat ∧ c.toNat < first + 10) = some 48 := by
    rw [digitZeros, List.find?_cons_of_pos]
    simp only [decide_eq_true_eq]
    omega
  rw [decimalDigit, hfind]
  rfl

theorem isIntSpace_of_isDigit {c : Char} (h : c.isDigit = true) : isIntSpace c = false := by
  rcases digit_toNat h with ⟨hlow, hhigh⟩
  simp only [isIntSpace, intSpaces, List.mem_cons, List.not_mem_nil, or_false,
    decide_eq_false_iff_not]
  omega

/-- The value of a string of ASCII digits. -/
def decimalValue (cs : List Char) : Nat :=
  cs.foldl (fun value c => value * 10 + (c.toNat - 48)) 0

theorem intDigits_of_digits (cs : List Char) (h : ∀ c ∈ cs, c.isDigit = true) (value : Nat) :
    intDigits value true cs =
      some (cs.foldl (fun value c => value * 10 + (c.toNat - 48)) value) := by
  induction cs generalizing value with
  | nil => rfl
  | cons c cs ih =>
      rw [intDigits, decimalDigit_of_isDigit (h c List.mem_cons_self)]
      exact ih (fun d hd => h d (List.mem_cons_of_mem _ hd)) _

theorem dropWhile_space_of_digits (cs : List Char) (h : ∀ c ∈ cs, c.isDigit = true) :
    cs.dropWhile isIntSpace = cs := by
  cases cs with
  | nil => rfl
  | cons c cs =>
      rw [List.dropWhile_cons_of_neg]
      simp [isIntSpace_of_isDigit (h c List.mem_cons_self)]

theorem strip_of_digits (cs : List Char) (h : ∀ c ∈ cs, c.isDigit = true) : strip cs = cs := by
  rw [strip, dropWhile_space_of_digits cs h, dropWhile_space_of_digits, List.reverse_reverse]
  intro c hc
  exact h c (List.mem_reverse.mp hc)

theorem digitsIn_of_digits {cs : List Char} (h : ∀ c ∈ cs, c.isDigit = true) :
    digitsIn cs = cs.map fun c => c.toNat - 48 := by
  rw [digitsIn, ← List.filterMap_eq_map]
  apply List.filterMap_congr
  intro c hc
  exact decimalDigit_of_isDigit (h c hc)

theorem intNumber_of_digits {cs : List Char} (hne : cs ≠ []) (h : ∀ c ∈ cs, c.isDigit = true) :
    intNumber cs = if maxStrDigits < cs.length then none else some (decimalValue cs) := by
  rw [intNumber, digitsIn_of_digits h, List.length_map]
  congr 1
  obtain ⟨c, cs, rfl⟩ := List.exists_cons_of_ne_nil hne
  rw [intDigits, decimalDigit_of_isDigit (h c List.mem_cons_self)]
  exact intDigits_of_digits cs (fun d hd => h d (List.mem_cons_of_mem _ hd)) _

/-- A decimal size is accepted by `int` up to its limit. -/
theorem int_of_isDecimal {text : String} (h : IsDecimal text) :
    int text =
      if maxStrDigits < text.length then none else some (decimalValue text.toList : Int) := by
  rcases h with ⟨hne, hdigits⟩
  have hnumber := intNumber_of_digits hne hdigits
  rw [int, strip_of_digits _ hdigits, ← String.length_toList]
  generalize text.toList = cs at hne hdigits hnumber
  split
  · next heq =>
      rw [List.forall_mem_cons] at hdigits
      exact absurd hdigits.1 (by decide)
  · next heq =>
      rw [List.forall_mem_cons] at hdigits
      exact absurd hdigits.1 (by decide)
  · rw [hnumber]
    split <;> rfl

theorem int_decimal {text : String} {size : Int} (h : IsDecimal text) (hint : int text = some size) :
    size = decimalValue text.toList := by
  rw [int_of_isDecimal h] at hint
  split at hint
  · cases hint
  · exact (Option.some.inj hint).symm

example : int " 1_000\n" = some 1000 := by decide

example : hexFormat 0xe9f4 = "0000e9f4" := by decide +kernel

end CmaPool.Python
