import CmaPool.Compare.Identity
import CmaPool.TestDrm.SizeText

/-! The arguments of a create, as `Pool._buf_create` and `buf_create` read them.

The Python pool splits them at single blanks, takes `int` of the first piece and
counts the pieces. test-drm-mm scans a number and looks for a character behind it
that is not white space. -/

namespace CmaPool.Compare

open TestDrm Drm Digits
open Python (IsSign decimalDigit digitsIn hexValue)

/-- `_buf_create` registers the buffer under the id of the command. -/
inductive PoolRegisters (s : Python.Pool) (c : Python.Command) : Python.Buffer → Prop
  | create {word : String} {words : List String} {size : Int} (hcmd : c.cmd = "create")
      (hid : s.buffers.lookup c.bufId = none) (hargs : c.args = some (word :: words))
      (hsize : Python.int word = some size) :
      PoolRegisters s c (Python.Buffer.new size (words.length > 0))

/-- `buf_create` registers the buffer for the line. -/
inductive DrmRegisters (data : Data) (line : Bytes) : Buffer → Prop
  | create {t : Command} {size argsOffset : Nat} (hline : lineCommand line = some t)
      (hverb : t.verb = .create) (hname : data.findBuffer t.name = none)
      (hsize : scanSize t.args = some (size, argsOffset)) :
      DrmRegisters data line (createdBuffer t size argsOffset)

theorem PoolRegisters.processCommand {s : Python.Pool} {c : Python.Command} {buf : Python.Buffer}
    (h : PoolRegisters s c buf) :
    Python.processCommand c s = (do Python.pageInBuffer (← Python.registerBuffer c.bufId buf)) s := by
  cases h with
  | create hcmd hid hargs hsize =>
      rw [Python.processCommand_handler rfl hcmd]
      simp [Python.bufCreate, hid, hargs, Python.firstArg, hsize]

theorem DrmRegisters.processLine {data : Data} {line : Bytes} {buf : Buffer}
    (h : DrmRegisters data line buf) :
    data.processLine line = (do
      let (_, data) ← (data.register buf).pageInBuffer data.nextPtr
      return data) := by
  cases h with
  | create hline hverb hname hsize =>
      rcases processLine_cases data line with ⟨t', hline', hrun⟩ | ⟨hnone, _⟩
      · rw [hline] at hline'
        cases hline'
        rw [hrun, Data.execute, hverb]
        change data.bufCreate _ _ = _
        rw [Data.bufCreate, hname, hsize]
        rfl
      · rw [hline] at hnone
        cases hnone

/-- Wherever the id is free, both programs register a buffer of one size and one
`unmoveable` flag, test-drm-mm from the line as `fgets` returns it. -/
def CreatesAlike (c : Python.Command) : Prop :=
  ∃ (size : Nat) (unmoveable : Bool),
    (∀ s : Python.Pool, s.buffers.lookup c.bufId = none →
      PoolRegisters s c (Python.Buffer.new size unmoveable)) ∧
    ∀ (data : Data) (more : Bytes), data.findBuffer (nameOf c.bufId) = none →
      ∃ line, fgets Data.lineSize (forwarded c ++ more) = some (line, more) ∧
        DrmRegisters data line (Data.newBuffer (nameOf c.bufId) size unmoveable)

/-- The command of a line whose first argument is a size. -/
structure SizedCreate (line : String) (c : Python.Command) (args : List Char) : Prop where
  matched : ∃ md first, Python.matchLine line = some md ∧ md.args = some args ∧
    c = md.command first
  create : c.cmd = "create"
  sized : ∃ word words size, c.args = some (word :: words) ∧ Python.int word = some size ∧
    0 ≤ size ∧ size < 2 ^ 64
  short : (forwarded c).length < Data.lineSize

section Text

def splitSign : List Char → List Char × List Char
  | '+' :: cs => (['+'], cs)
  | '-' :: cs => (['-'], cs)
  | cs => ([], cs)

theorem splitSign_spec (cs : List Char) :
    IsSign (splitSign cs).1 ∧ (splitSign cs).1 ++ (splitSign cs).2 = cs ∧
      ((splitSign cs).1 = [] → ∀ c ∈ (splitSign cs).2.head?, c ≠ '+' ∧ c ≠ '-') := by
  rw [splitSign.eq_def]
  split
  · exact ⟨Or.inr (Or.inl rfl), rfl, nofun⟩
  · exact ⟨Or.inr (Or.inr rfl), rfl, nofun⟩
  · next hplus hminus =>
      refine ⟨Or.inl rfl, rfl, ?_⟩
      intro _ c hc
      obtain ⟨cs', rfl⟩ := List.head?_eq_some_iff.mp hc
      exact ⟨fun heq => hplus cs' (by rw [heq]), fun heq => hminus cs' (by rw [heq])⟩

variable (args : List Char)

/-- The first word of the arguments. -/
def sizeWord : List Char := args.takeWhile (· ≠ ' ')

def sizeSign : List Char := (splitSign ((sizeWord args).dropWhile isBlank)).1

/-- The first word behind its sign. -/
def numberText : List Char := (splitSign ((sizeWord args).dropWhile isBlank)).2

def sizeDigits : List Char := (numberText args).takeWhile Char.isDigit

/-- What the first word has behind its ASCII digits. -/
def wordRest : List Char := (numberText args).dropWhile Char.isDigit

/-- Everything behind the ASCII digits. -/
def behindDigits : List Char := wordRest args ++ args.dropWhile (· ≠ ' ')

/-- What the arguments must look like for both programs to make the same of them. -/
structure ReadsAlike : Prop where
  digits : sizeDigits args ≠ []
  /-- No other digit follows, or all of them are zeros. -/
  alone : (∀ c ∈ wordRest args, decimalDigit c = none) ∨
    ∀ c ∈ numberText args, ∀ digit ∈ decimalDigit c, digit = 0
  /-- Where there is a blank there is a mark, in front of a NUL. -/
  marked : ' ' ∈ args ↔ ∃ c ∈ (behindDigits args).takeWhile (· ≠ '\x00'), isBlank c = false

instance : Decidable (ReadsAlike args) :=
  haveI : Decidable (∀ c ∈ wordRest args, decimalDigit c = none) :=
    List.decidableBAll (fun c => decimalDigit c = none) _
  haveI : Decidable (∀ c ∈ numberText args, ∀ digit ∈ decimalDigit c, digit = 0) :=
    List.decidableBAll (fun c => ∀ digit ∈ decimalDigit c, digit = 0) _
  haveI : Decidable (∃ c ∈ (behindDigits args).takeWhile (· ≠ '\x00'), isBlank c = false) :=
    List.decidableBEx (fun c => isBlank c = false) _
  decidable_of_iff (sizeDigits args ≠ [] ∧
    ((∀ c ∈ wordRest args, decimalDigit c = none) ∨
      ∀ c ∈ numberText args, ∀ digit ∈ decimalDigit c, digit = 0) ∧
    (' ' ∈ args ↔ ∃ c ∈ (behindDigits args).takeWhile (· ≠ '\x00'), isBlank c = false))
    ⟨fun ⟨hdigits, halone, hmarked⟩ => ⟨hdigits, halone, hmarked⟩,
      fun h => ⟨h.digits, h.alone, h.marked⟩⟩

theorem sizeWord_split :
    sizeWord args = (sizeWord args).takeWhile isBlank ++ (sizeSign args ++ numberText args) := by
  rw [sizeSign, numberText, (splitSign_spec _).2.1, List.takeWhile_append_dropWhile]

theorem numberText_split : numberText args = sizeDigits args ++ wordRest args :=
  List.takeWhile_append_dropWhile.symm

theorem args_split :
    args = (sizeWord args).takeWhile isBlank ++
      (sizeSign args ++ (sizeDigits args ++ behindDigits args)) := by
  rw [behindDigits, ← List.append_assoc (sizeDigits args), ← numberText_split,
    ← List.append_assoc (sizeSign args), ← List.append_assoc, ← sizeWord_split, sizeWord,
    List.takeWhile_append_dropWhile]

theorem isIntSpace_of_blank {c : Char} (h : isBlank c = true) : Python.isIntSpace c = true := by
  have hcode : c.toNat = 0x20 ∨ 0x09 ≤ c.toNat ∧ c.toNat ≤ 0x0d := by simpa [isBlank] using h
  simp only [Python.isIntSpace, Python.intSpaces, List.mem_cons, List.not_mem_nil, or_false,
    decide_eq_true_eq]
  omega

/-- `int` finds something behind the white space of the first word. -/
theorem dropBlank_ne_nil {size : Int}
    (hint : Python.int (String.ofList (sizeWord args)) = some size) :
    (sizeWord args).dropWhile isBlank ≠ [] := by
  intro hnil
  have hspaces : ∀ c ∈ sizeWord args, Python.isIntSpace c = true := by
    intro c hc
    exact isIntSpace_of_blank (List.dropWhile_eq_nil_iff.mp hnil c hc)
  rw [Python.int_of_spaces hspaces] at hint
  cases hint

end Text

section Scan

variable {args : List Char} (hne : (sizeWord args).dropWhile isBlank ≠ [])

/-- The line behind the digits, up to a NUL. -/
def lineRest (args : List Char) : List Char :=
  (behindDigits args ++ ['\n']).takeWhile (· ≠ '\x00')

/-- The size that `buf_create` reads, where there are digits. -/
def scannedSize (args : List Char) : Nat :=
  unsignedLong (decide (sizeSign args = ['-'])) (Python.decimalValue (sizeDigits args))

theorem sizeSign_isSign : IsSign (sizeSign args) := (splitSign_spec _).1

theorem nul_not_mem_sign : '\x00' ∉ sizeSign args := by
  have hcases : IsSign (sizeSign args) := sizeSign_isSign
  obtain hsign | hsign | hsign := hcases <;> rw [hsign] <;> decide

theorem isDigit_of_mem {c : Char} (hc : c ∈ sizeDigits args) : c.isDigit = true :=
  List.mem_takeWhile_imp hc

theorem behind_head {c : Char} (hc : c ∈ (behindDigits args ++ ['\n']).head?) :
    c.isDigit = false := by
  simp only [behindDigits, wordRest, List.head?_append, Option.mem_def, Option.or_eq_some_iff] at hc
  obtain (hc | ⟨_, hc⟩) | ⟨_, hc⟩ := hc
  · have hstop := List.head?_dropWhile_not Char.isDigit (numberText args)
    rw [hc] at hstop
    exact hstop
  · have hstop := List.head?_dropWhile_not (· ≠ ' ') args
    rw [hc] at hstop
    have hblank : c = ' ' := by simpa using hstop
    rw [hblank]
    decide
  · cases hc
    decide

include hne

theorem number_head (hsign : sizeSign args = []) :
    ∃ c cs, numberText args = c :: cs ∧ isBlank c = false ∧ c ≠ '+' ∧ c ≠ '-' := by
  obtain ⟨_, hsplit, hplain⟩ := splitSign_spec ((sizeWord args).dropWhile isBlank)
  rw [sizeSign] at hsign
  rw [hsign, List.nil_append, ← numberText] at hsplit
  obtain ⟨c, cs, hnumber⟩ := List.exists_cons_of_ne_nil hne
  rw [← hsplit] at hnumber
  refine ⟨c, cs, hnumber, ?_, ?_⟩
  · have hstop := List.head?_dropWhile_not isBlank (sizeWord args)
    rw [← hsplit, hnumber] at hstop
    simpa using hstop
  · apply hplain hsign
    rw [← numberText, hnumber]
    rfl

/-- Without a sign the text starts as the number does, if it does not start with a NUL. -/
theorem digits_head (hsign : sizeSign args = []) {c : Char}
    (hc : c ∈ (sizeDigits args ++ lineRest args).head?) :
    isBlank c = false ∧ c ≠ '+' ∧ c ≠ '-' := by
  obtain ⟨d, ds, hnumber, hplain⟩ := number_head hne hsign
  have hfirst : (sizeDigits args ++ (behindDigits args ++ ['\n'])).head? = some d := by
    rw [behindDigits, List.append_assoc, ← List.append_assoc, ← numberText_split, hnumber]
    rfl
  have hsame : c = d := by
    cases hdigits : sizeDigits args with
    | nil =>
        rw [hdigits, List.nil_append] at hc hfirst
        rw [lineRest, List.head?_takeWhile, hfirst, Option.mem_filter_iff] at hc
        exact (Option.some.inj hc.1).symm
    | cons e es =>
        rw [hdigits] at hc hfirst
        exact Option.some.inj (hc.symm.trans hfirst)
  rw [hsame]
  exact hplain

theorem scanned_head :
    ∀ c ∈ (sizeSign args ++ (sizeDigits args ++ lineRest args)).head?, isBlank c = false := by
  intro c hc
  have hcases : IsSign (sizeSign args) := sizeSign_isSign
  obtain hsign | hsign | hsign := hcases
  · rw [hsign, List.nil_append] at hc
    exact (digits_head hne hsign hc).1
  · rw [hsign] at hc
    cases hc
    decide
  · rw [hsign] at hc
    cases hc
    decide

theorem line_dropBlank :
    ((args ++ ['\n']).takeWhile (· ≠ '\x00')).dropWhile isBlank =
      sizeSign args ++ (sizeDigits args ++ lineRest args) := by
  have hblanks : ∀ c ∈ (sizeWord args).takeWhile isBlank, isBlank c = true :=
    fun c hc => List.mem_takeWhile_imp hc
  have hfront : ∀ c ∈ (sizeWord args).takeWhile isBlank ++ sizeSign args ++ sizeDigits args,
      c ≠ '\x00' := by
    rintro c hc rfl
    simp only [List.mem_append] at hc
    obtain (hc | hc) | hc := hc
    · exact absurd (hblanks _ hc) (by decide)
    · exact nul_not_mem_sign hc
    · exact absurd (isDigit_of_mem hc) (by decide)
  have hline : args ++ ['\n'] = (sizeWord args).takeWhile isBlank ++ sizeSign args ++
      sizeDigits args ++ (behindDigits args ++ ['\n']) := by
    conv_lhs => rw [args_split args]
    simp only [List.append_assoc]
  calc
    _ = ((sizeWord args).takeWhile isBlank ++
        (sizeSign args ++ (sizeDigits args ++ lineRest args))).dropWhile isBlank := by
      rw [hline, List.takeWhile_append_of_pos (by simpa using hfront), ← lineRest,
        List.append_assoc, List.append_assoc]
    _ = (sizeSign args ++ (sizeDigits args ++ lineRest args)).dropWhile isBlank :=
      List.dropWhile_append_of_pos hblanks
    _ = sizeSign args ++ (sizeDigits args ++ lineRest args) := dropWhile_of_head (scanned_head hne)

theorem scanSize_line :
    scanSize (encode (sizeSign args ++ (sizeDigits args ++ lineRest args))) =
      if sizeDigits args = [] then none
      else some (scannedSize args, (sizeSign args).length + (sizeDigits args).length) := by
  apply scanSize_encode sizeSign_isSign fun c hc => isDigit_of_mem hc
  · intro c hc
    rw [lineRest, List.head?_takeWhile, Option.mem_filter_iff] at hc
    exact behind_head hc.1
  · exact fun hsign c hc => (digits_head hne hsign hc).2
  · exact scanned_head hne

omit hne in
/-- The newline of the line is no mark. -/
theorem lineRest_marked :
    (lineRest args).any (fun c => !isBlank c) = true ↔
      ∃ c ∈ (behindDigits args).takeWhile (· ≠ '\x00'), isBlank c = false := by
  have hnewline : isBlank '\n' = true := by decide
  have hmarks : (∃ c ∈ lineRest args, isBlank c = false) ↔
      ∃ c ∈ (behindDigits args).takeWhile (· ≠ '\x00'), isBlank c = false := by
    rw [lineRest, List.takeWhile_append]
    split
    · next hwhole =>
        have hall := List.Sublist.eq_of_length (List.takeWhile_sublist _) hwhole
        rw [hall]
        simp [hnewline]
    · exact Iff.rfl
  rw [← hmarks]
  simp

end Scan

section Size

variable {args : List Char} {size : Int}

/-- The digits that `int` reads come to the number of the ASCII digits in front. -/
theorem size_iff (hint : Python.int (String.ofList (sizeWord args)) = some size)
    (hpos : 0 ≤ size) (hsmall : size < 2 ^ 64) (hdigits : sizeDigits args ≠ []) :
    (scannedSize args : Int) = size ↔
      (∀ c ∈ wordRest args, decimalDigit c = none) ∨
        ∀ c ∈ numberText args, ∀ digit ∈ decimalDigit c, digit = 0 := by
  obtain ⟨c, cs, hcons⟩ := List.exists_cons_of_ne_nil hdigits
  have hnumber : numberText args = c :: (cs ++ wordRest args) := by
    rw [numberText_split, hcons, List.cons_append]
  have hfront : ∀ d ∈ (sizeWord args).takeWhile isBlank, Python.isIntSpace d = true :=
    fun d hd => isIntSpace_of_blank (List.mem_takeWhile_imp hd)
  have hc : c ∈ sizeDigits args := by simp [hcons]
  rw [sizeWord_split args] at hint
  obtain ⟨hsize, hminus⟩ :=
    Python.int_follow hfront sizeSign_isSign hnumber (isDigit_of_mem hc) hint hpos
  rw [Int.ofNat_eq_natCast] at hsize
  have hvalue : Python.decimalValue (sizeDigits args) = follow 10 0 (digitsIn (sizeDigits args)) :=
    Python.decimalValue_follow fun d hd => isDigit_of_mem hd
  have hfollow : follow 10 0 (digitsIn (numberText args)) =
      follow 10 (Python.decimalValue (sizeDigits args)) (digitsIn (wordRest args)) := by
    rw [numberText_split, Python.digitsIn_append, follow_append, ← hvalue]
  have hle : Python.decimalValue (sizeDigits args) ≤
      follow 10 (Python.decimalValue (sizeDigits args)) (digitsIn (wordRest args)) :=
    le_follow (by decide) _ _
  rw [← hfollow] at hle
  have hlong : scannedSize args = Python.decimalValue (sizeDigits args) := by
    apply unsignedLong_small (by omega)
    intro hsign
    have hzero := hminus (of_decide_eq_true hsign)
    omega
  calc
    _ ↔ follow 10 (Python.decimalValue (sizeDigits args)) (digitsIn (wordRest args)) =
        Python.decimalValue (sizeDigits args) := by
      rw [hlong, hsize, hfollow, Int.natCast_inj, eq_comm]
    _ ↔ digitsIn (wordRest args) = [] ∨ (∀ digit ∈ digitsIn (sizeDigits args), digit = 0) ∧
        ∀ digit ∈ digitsIn (wordRest args), digit = 0 := by
      rw [follow_eq_iff (by decide), hvalue, follow_zero_iff (by decide)]
    _ ↔ (∀ c ∈ wordRest args, decimalDigit c = none) ∨
        ∀ c ∈ numberText args, ∀ digit ∈ decimalDigit c, digit = 0 := by
      rw [← List.forall_mem_append, ← Python.digitsIn_append, ← numberText_split,
        Python.digitsIn_zero, digitsIn, List.filterMap_eq_nil_iff]

end Size

section Registers

variable {line : String} {c : Python.Command} {args : List Char}

/-- What the pool takes from the arguments. -/
theorem SizedCreate.read (h : SizedCreate line c args) :
    ∃ words size, c.args = some (String.ofList (sizeWord args) :: words) ∧
      Python.int (String.ofList (sizeWord args)) = some size ∧ 0 ≤ size ∧ size < 2 ^ 64 ∧
      (words.length > 0 ↔ ' ' ∈ args) := by
  obtain ⟨md, first, _, hargs, rfl⟩ := h.matched
  obtain ⟨word, words, size, hwords, hint, hpos, hsmall⟩ := h.sized
  have hsplit : Python.splitArgs args = word :: words := by
    simpa [Python.LineMatch.command, hargs] using hwords
  obtain ⟨hword, hmore⟩ := Python.splitArgs_first args hsplit
  rw [← sizeWord] at hword
  subst hword
  refine ⟨words, size, hwords, hint, hpos, hsmall, ?_⟩
  rw [gt_iff_lt, List.length_pos_iff, hmore, ne_eq, List.dropWhile_eq_nil_iff]
  simp

theorem SizedCreate.sendable (h : SizedCreate line c args) : Sendable c := by
  obtain ⟨md, first, hmd, _, rfl⟩ := h.matched
  exact matched_sendable hmd h.short

theorem SizedCreate.bufId (h : SizedCreate line c args) : 0 ≤ c.bufId ∧ c.bufId < 2 ^ 64 := by
  obtain ⟨md, first, hmd, _, rfl⟩ := h.matched
  have haddress : md.address ∈ Python.addresses [line] :=
    mem_addresses.mpr ⟨line, List.mem_singleton.mpr rfl, md, hmd, rfl⟩
  have hlt := address_value_lt haddress
  have hid : (md.command first).bufId = hexValue md.address := rfl
  omega

/-- The arguments that the handler of test-drm-mm is given. -/
theorem SizedCreate.argsTail (h : SizedCreate line c args) :
    skipSpaces (cString (argsTail c)) =
      encode (sizeSign args ++ (sizeDigits args ++ lineRest args)) := by
  obtain ⟨words, size, _, hint, _⟩ := h.read
  obtain ⟨md, first, _, hargs, rfl⟩ := h.matched
  have hcargs : (md.command first).args = some (Python.splitArgs args) := by
    simp [Python.LineMatch.command, hargs]
  have htail : Compare.argsTail (md.command first) = encode (' ' :: (args ++ ['\n'])) := by
    rw [Compare.argsTail, hcargs, Python.argsFormat_splitArgs, ← text_append, text_eq, encode]
    simp
  rw [htail, cString_encode, skipSpaces_encode, List.takeWhile_cons_of_pos (by decide),
    List.dropWhile_cons_of_pos (by decide), line_dropBlank (dropBlank_ne_nil args hint)]

theorem SizedCreate.drmRegisters (h : SizedCreate line c args) {data : Data} {buf : Buffer}
    (hnone : data.findBuffer (nameOf c.bufId) = none) :
    DrmRegisters data (forwarded c) buf ↔ sizeDigits args ≠ [] ∧
      buf = Data.newBuffer (nameOf c.bufId) (scannedSize args)
        ((lineRest args).any fun c => !isBlank c) := by
  obtain ⟨words, size, _, hint, _⟩ := h.read
  have hline := lineCommand_word .create h.create h.bufId.1 h.bufId.2
  have hscan := scanSize_line (dropBlank_ne_nil args hint)
  have hflag : ((encode (sizeSign args ++ (sizeDigits args ++ lineRest args))).drop
      ((sizeSign args).length + (sizeDigits args).length)).any (fun b => !isspace b) =
        (lineRest args).any fun c => !isBlank c := by
    rw [encode_behind sizeSign_isSign fun c hc => isDigit_of_mem hc, any_nonspace_encode]
  rw [h.argsTail] at hline
  constructor
  · intro hregisters
    cases hregisters with
    | create hline' _ _ hsize =>
        rw [hline] at hline'
        cases hline'
        rw [hscan] at hsize
        split at hsize
        · cases hsize
        · next hne =>
            cases hsize
            rw [createdBuffer, hflag]
            exact ⟨hne, rfl⟩
  · rintro ⟨hne, rfl⟩
    have hcreate := DrmRegisters.create hline rfl hnone (hscan.trans (if_neg hne))
    rwa [createdBuffer, hflag] at hcreate

theorem SizedCreate.poolRegisters (h : SizedCreate line c args) :
    ∃ (size : Int) (unmoveable : Bool),
      (sizeDigits args ≠ [] → ((scannedSize args : Int) = size ↔
        (∀ c ∈ wordRest args, decimalDigit c = none) ∨
          ∀ c ∈ numberText args, ∀ digit ∈ decimalDigit c, digit = 0)) ∧
      (unmoveable = true ↔ ' ' ∈ args) ∧
      ∀ (s : Python.Pool) (buf : Python.Buffer), s.buffers.lookup c.bufId = none →
        (PoolRegisters s c buf ↔ buf = Python.Buffer.new size unmoveable) := by
  obtain ⟨words, size, hwords, hint, hpos, hsmall, hmore⟩ := h.read
  refine ⟨size, words.length > 0, size_iff hint hpos hsmall, by rw [decide_eq_true_eq, hmore], ?_⟩
  intro s buf hfree
  constructor
  · intro hregisters
    cases hregisters with
    | create _ _ hargs hsize =>
        rw [hwords] at hargs
        cases hargs
        rw [hint] at hsize
        cases hsize
        rfl
  · rintro rfl
    exact .create h.create hfree hwords hint

theorem CreatesAlike.readsAlike (h : SizedCreate line c args) (halike : CreatesAlike c) :
    ReadsAlike args := by
  obtain ⟨size, unmoveable, hpy, hdrm⟩ := halike
  obtain ⟨pySize, pyFlag, halone, hblank, hpool⟩ := h.poolRegisters
  obtain ⟨data, _, _, hempty⟩ := initData_sound
  have hnone : data.findBuffer (nameOf c.bufId) = none := by
    rw [Data.findBuffer, hempty]
    rfl
  obtain ⟨line', hline', hregisters⟩ := hdrm data [] hnone
  rw [fgets_line h.sendable.isLine h.short] at hline'
  cases hline'
  have hnew := (hpool _ _ rfl).mp (hpy (Python.Pool.new false) rfl)
  obtain ⟨hdigits, hbuf⟩ := (h.drmRegisters hnone).mp hregisters
  have hpySize : (size : Int) = pySize := congrArg Python.Buffer.size hnew
  have hpyFlag : unmoveable = pyFlag := congrArg Python.Buffer.unmoveable hnew
  have hsize : size = scannedSize args := congrArg Buffer.size hbuf
  have hflag : unmoveable = (lineRest args).any _ := congrArg Buffer.unmoveable hbuf
  refine ⟨hdigits, (halone hdigits).mp (hsize ▸ hpySize), ?_⟩
  rw [← hblank, ← hpyFlag, hflag, lineRest_marked]

theorem ReadsAlike.createsAlike (h : SizedCreate line c args) (halike : ReadsAlike args) :
    CreatesAlike c := by
  obtain ⟨hdigits, halone, hmarked⟩ := halike
  obtain ⟨pySize, pyFlag, hsize, hblank, hpool⟩ := h.poolRegisters
  have hflag : pyFlag = (lineRest args).any fun c => !isBlank c := by
    rw [Bool.eq_iff_iff, lineRest_marked, hblank, hmarked]
  refine ⟨scannedSize args, pyFlag, ?_, ?_⟩
  · intro s hfree
    rw [(hsize hdigits).mpr halone]
    exact (hpool s _ hfree).mpr rfl
  · intro data more hnone
    refine ⟨_, fgets_line h.sendable.isLine h.short more, ?_⟩
    rw [hflag]
    exact (h.drmRegisters hnone).mpr ⟨hdigits, rfl⟩

/-- Both programs register one buffer for a create exactly when its arguments read
alike. -/
theorem createsAlike_iff (h : SizedCreate line c args) : CreatesAlike c ↔ ReadsAlike args :=
  ⟨CreatesAlike.readsAlike h, ReadsAlike.createsAlike h⟩

end Registers

section Lines

/-- The match of a create in the log. -/
def createMatch (args : String) : Python.LineMatch where
  seconds := ['1']
  micros := "000000".toList
  cmd := "create".toList
  address := "00e9f400".toList
  args := some args.toList

theorem createMatch_sized (args word : String) (words : List String) (size : Int)
    (hmatch : Python.matchLine ("[1.000000] @@@ create 00e9f400 " ++ args ++ "\n") =
      some (createMatch args))
    (hwords : Python.splitArgs args.toList = word :: words) (hsize : Python.int word = some size)
    (hrange : 0 ≤ size ∧ size < 2 ^ 64)
    (hshort : (forwarded ((createMatch args).command 0)).length < Data.lineSize) :
    SizedCreate ("[1.000000] @@@ create 00e9f400 " ++ args ++ "\n")
      ((createMatch args).command 0) args.toList where
  matched := ⟨_, _, hmatch, rfl, rfl⟩
  create := String.ofList_toList
  sized := ⟨word, words, size, by rw [← hwords]; rfl, hsize, hrange⟩
  short := hshort

theorem createsAlike_bo :
    SizedCreate "[1.000000] @@@ create 00e9f400 4096 bo\n" ((createMatch "4096 bo").command 0)
        "4096 bo".toList ∧
      CreatesAlike ((createMatch "4096 bo").command 0) := by
  have h := createMatch_sized "4096 bo" "4096" ["bo"] 4096 (by decide +kernel) (by decide +kernel)
    (by decide +kernel) (by decide) (by decide +kernel)
  exact ⟨h, (createsAlike_iff h).mpr (by decide +kernel)⟩

/-- A blank behind the size makes the buffer unmoveable in the Python pools alone. -/
theorem createsAlike_not_blank :
    SizedCreate "[1.000000] @@@ create 00e9f400 4096 \n" ((createMatch "4096 ").command 0)
        "4096 ".toList ∧
      ¬ CreatesAlike ((createMatch "4096 ").command 0) := by
  have h := createMatch_sized "4096 " "4096" [""] 4096 (by decide +kernel) (by decide +kernel)
    (by decide +kernel) (by decide) (by decide +kernel)
  exact ⟨h, fun halike => absurd (halike.readsAlike h) (by decide +kernel)⟩

end Lines

end CmaPool.Compare
