import CmaPool.Python.ProcPool
import CmaPool.TestDrm.SizeText

/-! A line that the Python program forwards, as test-drm-mm reads it. -/

namespace CmaPool.Compare

open TestDrm

/-- The bytes that `ProcPool.process_command` writes. -/
def forwarded (c : Python.Command) : Bytes := text c.format

/-- The eight or more digits of a buffer id. -/
def idNumber (id : Nat) : Bytes :=
  List.replicate (8 - (Nat.toDigits 16 id).length) 0x30 ++ (Nat.toDigits 16 id).map byte

/-- The line after the buffer id. -/
def argsTail (c : Python.Command) : Bytes := text (Python.argsFormat c.args) ++ text "\n"

theorem text_blank : text " " = [0x20] := by
  rw [text_literal (by decide)]
  rfl

theorem text_empty : text "" = [] := by simp [text_eq]

theorem text_newline : text "\n" = [0x0a] := by
  rw [text_literal (by decide)]
  rfl

section Id

variable (id : Nat)

theorem text_hexFormat : text (Python.hexFormat (Int.ofNat id)) = idNumber id := by
  have hlist : (Python.hexFormat (Int.ofNat id)).toList =
      List.replicate (8 - (Nat.toDigits 16 id).length) '0' ++ Nat.toDigits 16 id := by
    simp [Python.hexFormat, Python.zeroFill, Python.hexDigits]
  rw [text_ascii, hlist, List.map_append, List.map_replicate]
  · rfl
  · intro c hc
    rw [hlist, List.mem_append] at hc
    rcases hc with hc | hc
    · rw [List.eq_of_mem_replicate hc]
      decide
    · exact toDigits_ascii (by decide) (by decide) id c hc

theorem idNumber_digits : ∀ c ∈ idNumber id, (digitValue 16 c).isSome := by
  intro c hc
  rcases List.mem_append.mp hc with hc | hc
  · rw [List.eq_of_mem_replicate hc]
    decide
  · exact (toDigits_numeral (by decide) (by decide) id).1 c hc

theorem idNumber_numeral : numeral 16 (idNumber id) = id := by
  rw [idNumber, numeral_zeros]
  exact (toDigits_numeral (by decide) (by decide) id).2

theorem idNumber_ne_nil : idNumber id ≠ [] := by
  simp [idNumber, Nat.toDigits_ne_nil]

end Id

theorem timestamp_chars (timestamp : Int) :
    ∀ c ∈ (toString timestamp).toList, c = '-' ∨ c.isDigit = true := by
  have hnat : ∀ n : Nat, ∀ c ∈ (toString n).toList, c.isDigit = true := by
    intro n c hc
    rw [Nat.toString_eq_ofList_toDigits, String.toList_ofList] at hc
    exact Nat.isDigit_of_mem_toDigits (by decide) (by decide) hc
  intro c hc
  cases timestamp with
  | ofNat n => exact Or.inr (hnat n c hc)
  | negSucc n =>
      have hsplit : (toString (Int.negSucc n)).toList = '-' :: (toString (n + 1)).toList := by
        change ("-" ++ toString (n + 1)).toList = _
        rw [String.toList_append]
        rfl
      rw [hsplit, List.mem_cons] at hc
      exact hc.imp_right (hnat (n + 1) c)

section Line

variable (c : Python.Command)

theorem argsTail_head : ∀ b ∈ (argsTail c).head?, isspace b = true := by
  have hempty : ∀ b ∈ (text "" ++ text "\n").head?, isspace b = true := by
    intro b hb
    have heq : (0x0a : UInt8) = b := by simpa [text_newline, text_empty] using hb
    rw [← heq]
    rfl
  have hblank : ∀ s : String, ∀ b ∈ (text (" " ++ s) ++ text "\n").head?, isspace b = true := by
    intro s b hb
    have heq : (0x20 : UInt8) = b := by simpa [text_append, text_blank] using hb
    rw [← heq]
    rfl
  rw [argsTail]
  generalize c.args = args
  cases args with
  | none => exact hempty
  | some args =>
      cases args with
      | nil => exact hempty
      | cons word words => exact hblank _

/-- The bytes in front of the marker. -/
def lineFront : Bytes := text "[" ++ text (toString c.timestamp)

theorem lineFront_free : 0x5d ∉ lineFront c ∧ 0 ∉ lineFront c := by
  have hfree : ∀ b : UInt8, b = 0x5d ∨ b = 0 → b ∉ lineFront c := by
    intro b hb hmem
    rcases List.mem_append.mp hmem with hmem | hmem
    · have hne : b = 0x5b := by simpa [text_ascii, byte] using hmem
      rcases hb with rfl | rfl <;> simp at hne
    · have hlow : b.toNat < 0x80 := by
        rcases hb with rfl | rfl <;> decide
      rcases mem_text_ascii hmem hlow with ⟨d, hd, hvalue⟩
      rcases timestamp_chars c.timestamp d hd with rfl | hdigit
      · rcases hb with rfl | rfl <;> simp at hvalue
      · have hrange := Python.digit_toNat hdigit
        rcases hb with rfl | rfl <;> simp at hvalue <;> omega
  exact ⟨hfree _ (Or.inl rfl), hfree _ (Or.inr rfl)⟩

variable {c} {id : Nat}

theorem forwarded_eq (hid : c.bufId = Int.ofNat id) :
    forwarded c = lineFront c ++ Data.commandMarker ++
      (text c.cmd ++ 0x20 :: (idNumber id ++ argsTail c)) := by
  rw [forwarded, Python.Command.format, hid]
  simp only [text_append, text_hexFormat, text_blank, lineFront, argsTail, Data.commandMarker,
    List.append_assoc, List.nil_append, List.cons_append]

/-- The word of a command is free of spaces and of NUL. -/
def PlainWord (word : String) : Prop := ∀ ch ∈ word.toList, ch.toNat ≠ 0x20 ∧ ch.toNat ≠ 0

instance (word : String) : Decidable (PlainWord word) :=
  List.decidableBAll (fun ch : Char => ch.toNat ≠ 0x20 ∧ ch.toNat ≠ 0) word.toList

theorem plainWord_free {word : String} (h : PlainWord word) :
    0x20 ∉ text word ∧ 0 ∉ text word := by
  constructor
  · intro hmem
    rcases mem_text_ascii hmem (by decide) with ⟨ch, hch, hvalue⟩
    exact (h ch hch).1 hvalue
  · intro hmem
    rcases mem_text_ascii hmem (by decide) with ⟨ch, hch, hvalue⟩
    exact (h ch hch).2 hvalue

variable (hid : c.bufId = Int.ofNat id) (hword : PlainWord c.cmd)

include hid hword

theorem lineText_forwarded :
    lineText (forwarded c) =
      some (text c.cmd ++ 0x20 :: (idNumber id ++ cString (argsTail c))) := by
  have hnul : 0 ∉ text c.cmd ++ 0x20 :: idNumber id := by
    rw [List.mem_append, List.mem_cons]
    rintro (hmem | heq | hmem)
    · exact (plainWord_free hword).2 hmem
    · exact absurd heq (by decide)
    · exact digit_ne_zero (idNumber_digits id 0 hmem) rfl
  have hsplit : text c.cmd ++ 0x20 :: (idNumber id ++ argsTail c) =
      (text c.cmd ++ 0x20 :: idNumber id) ++ argsTail c := by
    simp
  rcases lineFront_free c with ⟨hmarker, hfront⟩
  rw [forwarded_eq hid, lineText_append hmarker hfront, hsplit, cString_append hnul]
  simp

theorem lineAddress_forwarded (hsmall : id < 2 ^ 64) :
    lineAddress (forwarded c) = some (id % 2 ^ 32) := by
  rw [lineAddress, lineText_forwarded hid hword, Option.bind_some,
    commandAddress_append (plainWord_free hword).1 (idNumber_ne_nil id) (idNumber_digits id)
      (cString_head (argsTail_head c)) (by rwa [idNumber_numeral]), idNumber_numeral]

theorem lineCommand_forwarded (hsmall : id < 2 ^ 64) :
    lineCommand (forwarded c) =
      (verbs.lookup (text c.cmd)).map fun verb =>
        ⟨verb, id % 2 ^ 32, skipSpaces (cString (argsTail c))⟩ := by
  rw [lineCommand_eq, lineText_forwarded hid hword, Option.bind_some,
    commandOf_append (plainWord_free hword).1 (idNumber_ne_nil id) (idNumber_digits id)
      (cString_head (argsTail_head c)) (by rwa [idNumber_numeral]), idNumber_numeral]

end Line

/-- A word of the arguments: not empty and without white space. -/
def ArgWord (word : String) : Prop :=
  word.toList ≠ [] ∧
    ∀ ch ∈ word.toList, ch.toNat ≠ 0x20 ∧ ¬ (0x09 ≤ ch.toNat ∧ ch.toNat ≤ 0x0d)

instance (word : String) : Decidable (ArgWord word) :=
  have := List.decidableBAll
    (fun ch : Char => ch.toNat ≠ 0x20 ∧ ¬ (0x09 ≤ ch.toNat ∧ ch.toNat ≤ 0x0d)) word.toList
  instDecidableAnd

section Args

variable {c : Python.Command} {size word : String} {words : List String}

theorem text_head (hword : ArgWord word) (hnul : word.toList.head? ≠ some '\x00') :
    ∃ b bytes, text word = b :: bytes ∧ isspace b = false ∧ b ≠ 0 := by
  rcases List.exists_cons_of_ne_nil hword.1 with ⟨ch, chars, hlist⟩
  have hch : ch ∈ word.toList := by simp [hlist]
  rcases hword.2 ch hch with ⟨hblank, hcontrol⟩
  rw [text_eq, hlist, List.flatMap_cons]
  by_cases hascii : ch.toNat < 0x80
  · have hvalue := byte_toNat hascii
    rw [utf8EncodeChar_ascii hascii]
    refine ⟨byte ch, _, rfl, ?_, ?_⟩
    · rw [← Bool.not_eq_true, isspace_iff, hvalue]
      omega
    · intro heq
      have hzero : ch.toNat = 0 := by
        rw [← hvalue, heq]
        rfl
      have hchar : ch = '\x00' := by
        rw [← Char.ofNat_toNat ch, hzero]
      exact hnul (by rw [hlist, hchar]; rfl)
  · have hsize : String.utf8EncodeChar ch ≠ [] := by
      rw [← List.length_pos_iff, String.length_utf8EncodeChar]
      exact ch.utf8Size_pos
    rcases List.exists_cons_of_ne_nil hsize with ⟨b, bytes, hbytes⟩
    have hhigh := utf8EncodeChar_high (Nat.not_lt.mp hascii) (b := b) (by simp [hbytes])
    rw [hbytes]
    refine ⟨b, _, rfl, ?_, ?_⟩
    · rw [← Bool.not_eq_true, isspace_iff]
      omega
    · intro heq
      rw [heq] at hhigh
      exact absurd hhigh (by decide)

theorem join_cons (separator word : String) (words : List String) :
    ∃ rest, Python.join separator (word :: words) = word ++ rest := by
  cases words with
  | nil => exact ⟨"", by simp [Python.join]⟩
  | cons next words =>
      exact ⟨separator ++ Python.join separator (next :: words), by
        simp [Python.join, String.append_assoc]⟩

theorem argsTail_none (h : c.args = none) : skipSpaces (cString (argsTail c)) = [] := by
  rw [argsTail, h]
  simp [Python.argsFormat, text_newline, text_empty, cString, skipSpaces, isspace]

/-- The line behind the size of a create. -/
def wordsTail (words : List String) : Bytes :=
  match words with
  | [] => text "\n"
  | words => text (" " ++ Python.join " " words) ++ text "\n"

theorem argsTail_words (h : c.args = some (size :: words)) :
    argsTail c = 0x20 :: (text size ++ wordsTail words) := by
  rw [argsTail, h]
  cases words with
  | nil => simp only [Python.argsFormat, Python.join, wordsTail, text_append, text_blank]; rfl
  | cons word words =>
      simp only [Python.argsFormat, Python.join, wordsTail, text_append, text_blank,
        List.append_assoc, List.cons_append, List.nil_append]

theorem wordsTail_head (words : List String) :
    ∀ b ∈ (cString (wordsTail words)).head?, isspace b = true := by
  apply cString_head
  intro b hb
  cases words with
  | nil =>
      have heq : (0x0a : UInt8) = b := by simpa [wordsTail, text_newline] using hb
      rw [← heq]
      rfl
  | cons word words =>
      have heq : (0x20 : UInt8) = b := by simpa [wordsTail, text_append, text_blank] using hb
      rw [← heq]
      rfl

theorem wordsTail_marked (hwords : ∀ word ∈ words, ArgWord word)
    (hnul : ∀ word ∈ words.head?, word.toList.head? ≠ some '\x00') :
    (cString (wordsTail words)).any (fun b => !isspace b) = decide (words.length > 0) := by
  cases words with
  | nil => simp [wordsTail, text_newline, cString, isspace]
  | cons word words =>
      rcases join_cons " " word words with ⟨rest, hjoin⟩
      rcases text_head (hwords word List.mem_cons_self) (hnul word rfl) with
        ⟨b, bytes, htext, hspace, hzero⟩
      have htail : cString (wordsTail (word :: words)) =
          0x20 :: b :: cString (bytes ++ text rest ++ text "\n") := by
        simp [wordsTail, hjoin, text_append, text_blank, htext, cString, hzero]
      rw [htail]
      simp [hspace]

/-- The size as both programs read it. -/
theorem text_decimal (hsize : Python.IsDecimal size) :
    text size ≠ [] ∧ (∀ b ∈ text size, (digitValue 10 b).isSome) ∧
      numeral 10 (text size) = Python.decimalValue size.toList := by
  obtain ⟨hne, hdigits⟩ := hsize
  have hbytes : text size = size.toList.map byte := (text_eq size).trans (encode_digits hdigits)
  rw [hbytes]
  refine ⟨by simpa using hne, ?_, numeral_digits hdigits⟩
  intro b hb
  obtain ⟨ch, hch, rfl⟩ := List.mem_map.mp hb
  rw [digitValue_byte (hdigits ch hch)]
  rfl

/-- The text that a create is given, whatever the words are. -/
theorem argsTail_text (h : c.args = some (size :: words)) (hsize : Python.IsDecimal size) :
    skipSpaces (cString (argsTail c)) = text size ++ cString (wordsTail words) := by
  rcases text_decimal hsize with ⟨hne, hdigits, _⟩
  have hplain : ∀ b ∈ text size, isspace b = false ∧ b ≠ 0 := by
    intro b hb
    have hhex := hex_of_decimal (hdigits b hb)
    exact ⟨digit_no_space hhex, digit_ne_zero hhex⟩
  have hnul : 0 ∉ 0x20 :: text size := by
    rw [List.mem_cons]
    rintro (heq | hmem)
    · exact absurd heq (by decide)
    · exact (hplain 0 hmem).2 rfl
  rw [argsTail_words h, ← List.cons_append, cString_append hnul, List.cons_append, skipSpaces,
    List.dropWhile_cons_of_pos (by decide), ← skipSpaces]
  apply skipSpaces_of_head
  intro b hb
  rcases List.exists_cons_of_ne_nil hne with ⟨first, rest, htext⟩
  have heq : first = b := by simpa [htext] using hb
  rw [← heq]
  exact (hplain first (by simp [htext])).1

theorem argsTail_size (h : c.args = some (size :: words)) (hsize : Python.IsDecimal size)
    (hsmall : Python.decimalValue size.toList < 2 ^ 64) :
    scanSize (skipSpaces (cString (argsTail c))) =
      some (Python.decimalValue size.toList, (text size).length) := by
  rcases text_decimal hsize with ⟨hne, hdigits, hvalue⟩
  rw [argsTail_text h hsize, scanSize,
    scanUnsigned_append (Or.inl rfl) hne hdigits (wordsTail_head words) (by rwa [hvalue]), hvalue]

/-- What a create reads of its line. -/
theorem argsTail_create (h : c.args = some (size :: words)) (hsize : Python.IsDecimal size)
    (hwords : ∀ word ∈ words, ArgWord word)
    (hnul : ∀ word ∈ words.head?, word.toList.head? ≠ some '\x00')
    (hsmall : Python.decimalValue size.toList < 2 ^ 64) :
    ∃ argsOffset, scanSize (skipSpaces (cString (argsTail c))) =
        some (Python.decimalValue size.toList, argsOffset) ∧
      ((skipSpaces (cString (argsTail c))).drop argsOffset).any (fun b => !isspace b) =
        decide (words.length > 0) := by
  refine ⟨_, argsTail_size h hsize hsmall, ?_⟩
  rw [argsTail_text h hsize, List.drop_left]
  exact wordsTail_marked hwords hnul

end Args

section Sending

theorem newline_not_mem_hexFormat (bufId : Int) : '\n' ∉ (Python.hexFormat bufId).toList := by
  have hdigits : ∀ n, '\n' ∉ Nat.toDigits 16 n := by
    intro n hmem
    have hdigit := (toDigits_numeral (by decide) (by decide) n).1 _ (List.mem_map_of_mem hmem)
    exact absurd hdigit (by decide)
  have hfill : ∀ width n, '\n' ∉ (Python.zeroFill width (Python.hexDigits n)).toList := by
    intro width n
    simp [Python.zeroFill, Python.hexDigits, hdigits]
  cases bufId with
  | ofNat n => exact hfill 8 n
  | negSucc n =>
      rw [Python.hexFormat, String.toList_append, List.mem_append]
      rintro (hmem | hmem)
      · exact absurd hmem (by decide)
      · exact hfill 7 (n + 1) hmem

theorem newline_not_mem_join {words : List String} (h : ∀ word ∈ words, '\n' ∉ word.toList) :
    '\n' ∉ (Python.join " " words).toList := by
  induction words with
  | nil => decide
  | cons word words ih =>
      have hword := h word List.mem_cons_self
      have hrest := ih fun word' hmem => h word' (List.mem_cons_of_mem _ hmem)
      cases words with
      | nil => exact hword
      | cons word' words =>
          have hjoin : Python.join " " (word :: word' :: words) =
              word ++ " " ++ Python.join " " (word' :: words) := rfl
          rw [hjoin]
          simp [hword, hrest]

/-- The words of a command hold no newline, and its line fits into the buffer of
`process_file`. -/
structure Sendable (c : Python.Command) : Prop where
  cmd : '\n' ∉ c.cmd.toList
  args : ∀ word ∈ c.args.getD [], '\n' ∉ word.toList
  short : (forwarded c).length < Data.lineSize

instance (c : Python.Command) : Decidable (Sendable c) :=
  decidable_of_iff ('\n' ∉ c.cmd.toList ∧ (∀ word ∈ c.args.getD [], '\n' ∉ word.toList) ∧
    (forwarded c).length < Data.lineSize)
    ⟨fun ⟨hcmd, hargs, hshort⟩ => ⟨hcmd, hargs, hshort⟩,
      fun h => ⟨h.cmd, h.args, h.short⟩⟩

theorem Sendable.isLine {c : Python.Command} (h : Sendable c) :
    Lines.IsLine 0x0a (forwarded c) := by
  have htime : '\n' ∉ (toString c.timestamp).toList := by
    intro hmem
    rcases timestamp_chars c.timestamp _ hmem with heq | hdigit
    · exact absurd heq (by decide)
    · exact absurd hdigit (by decide)
  have hargs : '\n' ∉ (Python.argsFormat c.args).toList := by
    have hwords := h.args
    generalize c.args = args at hwords
    match args, hwords with
    | none, _ => decide
    | some [], _ => decide
    | some (word :: words), hwords =>
        change '\n' ∉ (" " ++ Python.join " " (word :: words)).toList
        rw [String.toList_append, List.mem_append]
        rintro (hmem | hmem)
        · exact absurd hmem (by decide)
        · exact newline_not_mem_join hwords hmem
  rw [forwarded, Python.Command.format]
  apply text_isLine
  simp only [String.toList_append, List.mem_append, not_or]
  exact ⟨⟨⟨⟨⟨⟨by decide, htime⟩, by decide⟩, h.cmd⟩, by decide⟩,
    newline_not_mem_hexFormat c.bufId⟩, hargs⟩

theorem forwarded_marked (c : Python.Command) : ∃ command, lineText (forwarded c) = some command := by
  have hsplit : forwarded c = lineFront c ++ Data.commandMarker ++
      text (c.cmd ++ " " ++ Python.hexFormat c.bufId ++ Python.argsFormat c.args ++ "\n") := by
    rw [forwarded, Python.Command.format, lineFront, Data.commandMarker]
    simp only [text_append, List.append_assoc]
  obtain ⟨hmarker, hnul⟩ := lineFront_free c
  rw [hsplit, lineText_append hmarker hnul]
  exact ⟨_, rfl⟩

end Sending

end CmaPool.Compare
