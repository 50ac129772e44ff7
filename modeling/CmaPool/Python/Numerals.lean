import CmaPool.Lib.Digits
import CmaPool.Python.LogLine
import CmaPool.Python.ProcPool

/-! What `int` makes of the first word of the arguments, and the words put
together again. -/

namespace CmaPool.Python

open Digits

section Int

variable {cs : List Char} {value result : Nat} {after : Bool}

/-- Underscores do not count. -/
theorem intDigits_follow (h : intDigits value after cs = some result) :
    result = follow 10 value (digitsIn cs) := by
  induction cs generalizing value after with
  | nil =>
      rw [intDigits] at h
      split at h
      · exact (Option.some.inj h).symm
      · cases h
  | cons c cs ih =>
      rw [intDigits] at h
      rw [digitsIn, List.filterMap_cons]
      cases hdigit : decimalDigit c with
      | some digit =>
          rw [hdigit] at h
          exact ih h
      | none =>
          simp only [hdigit] at h
          split at h
          · exact ih h
          · cases h

theorem decimalDigit_of_space {c : Char} (h : isIntSpace c = true) : decimalDigit c = none := by
  have hapart : ∀ code ∈ intSpaces, ∀ first ∈ digitZeros, ¬ (first ≤ code ∧ code < first + 10) := by
    decide
  have hcode : c.toNat ∈ intSpaces := by simpa [isIntSpace] using h
  rw [decimalDigit, Option.map_eq_none_iff, List.find?_eq_none]
  intro first hfirst
  simpa using hapart _ hcode first hfirst

theorem digitsIn_of_spaces (h : ∀ c ∈ cs, isIntSpace c = true) : digitsIn cs = [] := by
  rw [digitsIn, List.filterMap_eq_nil_iff]
  exact fun c hc => decimalDigit_of_space (h c hc)

theorem digitsIn_append (cs cs' : List Char) :
    digitsIn (cs ++ cs') = digitsIn cs ++ digitsIn cs' := List.filterMap_append

theorem decimalValue_follow (h : ∀ c ∈ cs, c.isDigit = true) :
    decimalValue cs = follow 10 0 (digitsIn cs) := by
  rw [digitsIn_of_digits h, follow, List.foldl_map]
  rfl

theorem digitsIn_zero :
    (∀ digit ∈ digitsIn cs, digit = 0) ↔ ∀ c ∈ cs, ∀ digit ∈ decimalDigit c, digit = 0 := by
  simp only [digitsIn, List.mem_filterMap]
  constructor
  · exact fun hzero c hc digit hdigit => hzero digit ⟨c, hc, hdigit⟩
  · rintro hzero digit ⟨c, hc, hdigit⟩
    exact hzero c hc digit hdigit

/-- The spaces behind a number hold no digits. -/
theorem digitsIn_rdropWhile (cs : List Char) :
    digitsIn (cs.rdropWhile isIntSpace) = digitsIn cs := by
  have hspaces : digitsIn (cs.rtakeWhile isIntSpace) = [] := by
    apply digitsIn_of_spaces
    intro c hc
    exact List.mem_rtakeWhile_imp hc
  conv_rhs => rw [← List.rdropWhile_append_rtakeWhile (p := isIntSpace) (l := cs)]
  rw [digitsIn_append, hspaces, List.append_nil]

end Int

section Sign

/-- Nothing, or one sign. -/
def IsSign (sign : List Char) : Prop := sign = [] ∨ sign = ['+'] ∨ sign = ['-']

variable {front sign number : List Char} {size : Int}

theorem strip_signed (hfront : ∀ c ∈ front, isIntSpace c = true) (hsign : IsSign sign)
    {c : Char} {cs : List Char} (hnumber : number = c :: cs) (hdigit : c.isDigit = true) :
    strip (front ++ (sign ++ number)) = sign ++ number.rdropWhile isIntSpace := by
  have hc := isIntSpace_of_isDigit hdigit
  have hhead : (front ++ (sign ++ number)).dropWhile isIntSpace = sign ++ number := by
    rw [List.dropWhile_append_of_pos hfront]
    rcases hsign with rfl | rfl | rfl
    · rw [hnumber]
      exact List.dropWhile_cons_of_neg (by simp [hc])
    · exact List.dropWhile_cons_of_neg (by decide)
    · exact List.dropWhile_cons_of_neg (by decide)
  have hsome : ¬ ∀ d ∈ number, isIntSpace d = true := by
    intro hall
    rw [hall c (by simp [hnumber])] at hc
    cases hc
  rw [strip, hhead, ← List.rdropWhile, List.rdropWhile, List.reverse_append, List.dropWhile_append,
    if_neg, List.reverse_append, List.reverse_reverse, List.rdropWhile]
  simpa using hsome

theorem int_signed (hfront : ∀ c ∈ front, isIntSpace c = true) (hsign : IsSign sign)
    {c : Char} {cs : List Char} (hnumber : number = c :: cs) (hdigit : c.isDigit = true) :
    int (String.ofList (front ++ (sign ++ number))) =
      (intNumber (number.rdropWhile isIntSpace)).map fun value =>
        if sign = ['-'] then -Int.ofNat value else Int.ofNat value := by
  rw [int, String.toList_ofList, strip_signed hfront hsign hnumber hdigit]
  rcases hsign with rfl | rfl | rfl
  · have hprefix := List.rdropWhile_prefix isIntSpace (l := number)
    rw [List.nil_append]
    split
    · next heq =>
        rw [heq, hnumber, List.cons_prefix_cons] at hprefix
        rw [← hprefix.1] at hdigit
        exact absurd hdigit (by decide)
    · next heq =>
        rw [heq, hnumber, List.cons_prefix_cons] at hprefix
        rw [← hprefix.1] at hdigit
        exact absurd hdigit (by decide)
    · rfl
  · rfl
  · rfl

/-- A size that is not negative is the number that its digits spell. -/
theorem int_follow (hfront : ∀ c ∈ front, isIntSpace c = true) (hsign : IsSign sign)
    {c : Char} {cs : List Char} (hnumber : number = c :: cs) (hdigit : c.isDigit = true)
    (hint : int (String.ofList (front ++ (sign ++ number))) = some size) (hpos : 0 ≤ size) :
    size = Int.ofNat (follow 10 0 (digitsIn number)) ∧
      (sign = ['-'] → follow 10 0 (digitsIn number) = 0) := by
  rw [int_signed hfront hsign hnumber hdigit] at hint
  obtain ⟨value, hvalue, hsize⟩ := Option.map_eq_some_iff.mp hint
  rw [intNumber] at hvalue
  split at hvalue
  · cases hvalue
  have hfollow := intDigits_follow hvalue
  rw [digitsIn_rdropWhile] at hfollow
  rw [← hfollow]
  split at hsize
  · have hzero : value = 0 := by
      rw [← hsize] at hpos
      simpa using hpos
    subst hzero
    exact ⟨hsize.symm, fun _ => rfl⟩
  · next hplus => exact ⟨hsize.symm, fun hminus => absurd hminus hplus⟩

theorem int_of_spaces {cs : List Char} (h : ∀ c ∈ cs, isIntSpace c = true) :
    int (String.ofList cs) = none := by
  have hdrop : cs.dropWhile isIntSpace = [] := List.dropWhile_eq_nil_iff.mpr h
  rw [int, String.toList_ofList, strip, hdrop]
  rfl

end Sign

section Words

theorem join_ofList (words : List (List Char)) :
    (join " " (words.map String.ofList)).toList = [' '].intercalate words := by
  induction words with
  | nil => rfl
  | cons word words ih =>
      cases words with
      | nil => simp [join]
      | cons word' words =>
          have hjoin : join " " ((word :: word' :: words).map String.ofList) =
              String.ofList word ++ " " ++ join " " ((word' :: words).map String.ofList) := rfl
          rw [hjoin, String.toList_append, ih, List.intercalate_cons_cons]
          simp

/-- Splitting and joining keeps the arguments as they stand on the line. -/
theorem join_splitArgs (args : List Char) : join " " (splitArgs args) = String.ofList args := by
  rw [← String.toList_inj, String.toList_ofList, splitArgs, join_ofList,
    List.intercalate_splitOn]

theorem argsFormat_splitArgs (args : List Char) :
    argsFormat (some (splitArgs args)) = " " ++ String.ofList args := by
  rw [← join_splitArgs]
  cases hsplit : splitArgs args with
  | nil =>
      rw [splitArgs, List.map_eq_nil_iff] at hsplit
      exact absurd hsplit (List.splitOn_ne_nil ' ' args)
  | cons word words => rfl

/-- The first word of the arguments, and whether there are others. -/
theorem splitArgs_first (args : List Char) {word : String} {words : List String}
    (h : splitArgs args = word :: words) :
    word = String.ofList (args.takeWhile (· ≠ ' ')) ∧
      (words ≠ [] ↔ args.dropWhile (· ≠ ' ') ≠ []) := by
  have hfree : ' ' ∉ args.takeWhile (· ≠ ' ') := by
    intro hmem
    simpa using List.mem_takeWhile_imp hmem
  have hsplit := List.takeWhile_append_dropWhile (p := (· ≠ ' ')) (l := args)
  rw [splitArgs, ← hsplit] at h
  cases htail : args.dropWhile (· ≠ ' ') with
  | nil =>
      rw [htail, List.append_nil, List.splitOn_eq_singleton hfree] at h
      cases h
      simp
  | cons c tail =>
      have hblank : c = ' ' := by
        have hstop := List.head?_dropWhile_not (· ≠ ' ') args
        rw [htail] at hstop
        simpa using hstop
      rw [htail, hblank, List.splitOn_append_cons_self_of_not_mem hfree] at h
      cases h
      simp

end Words

end CmaPool.Python
