import CmaPool.Lib.Pattern
import CmaPool.Python.Pool

/-! The commands that `main` reads from the lines of a log. -/

namespace CmaPool.Python

open Pattern

def just (c : Char) : Piece := ⟨(· = c), 1, some 1⟩

def star (chars : Char → Bool) : Piece := ⟨chars, 0, none⟩

def plus (chars : Char → Bool) : Piece := ⟨chars, 1, none⟩

def isWordChar (c : Char) : Bool := c.isLower || c = '_'

def isHexChar (c : Char) : Bool := c.isDigit || ('a' ≤ c && c ≤ 'f')

/-- `LINE_RE` up to the address. -/
def lineHead : List Piece :=
  [just '[', star (· = ' '), plus Char.isDigit, just '.', ⟨Char.isDigit, 6, some 6⟩,
    star (· = ' '), just ']', plus (· = ' '), just '@', just '@', just '@', plus (· = ' '),
    plus isWordChar, just ' ', ⟨isHexChar, 8, some 16⟩]

/-- The optional group at the end of `LINE_RE`. -/
def lineArgs : List Piece := [plus (· = ' '), star (· ≠ '\n')]

/-- The groups of a match of `LINE_RE`. -/
structure LineMatch where
  seconds : List Char
  micros : List Char
  cmd : List Char
  address : List Char
  args : Option (List Char)
  deriving DecidableEq

def matchArgs (rest : List Char) : Option (List Char) :=
  match matchPieces lineArgs rest with
  | some ([_, args], _) => some args
  | _ => none

/-- `LINE_RE.match(line)`. -/
def matchLine (line : String) : Option LineMatch :=
  match matchPieces lineHead line.toList with
  | some ([_, _, seconds, _, micros, _, _, _, _, _, _, _, cmd, _, address], rest) =>
      some { seconds, micros, cmd, address, args := matchArgs rest }
  | _ => none

def hexDigit (c : Char) : Nat := if c.isDigit then c.toNat - 0x30 else c.toNat - 0x61 + 10

/-- `int(text, 16)` of a string of lower case digits. -/
def hexValue (cs : List Char) : Nat := cs.foldl (fun value c => value * 16 + hexDigit c) 0

/-- `args.split(' ')`. -/
def splitArgs (args : List Char) : List String := (args.splitOn ' ').map String.ofList

def LineMatch.timestamp (md : LineMatch) : Int :=
  decimalValue md.seconds * 1000000 + decimalValue md.micros

/-- The command of a line, with the timestamp counted from `firstTimestamp`. -/
def LineMatch.command (md : LineMatch) (firstTimestamp : Int) : Command where
  timestamp := md.timestamp - firstTimestamp
  cmd := String.ofList md.cmd
  bufId := hexValue md.address
  args := md.args.map splitArgs

/-- The commands that the loop of `main` hands to the pools; lines that do not
match are skipped, and the first that does sets the start of the clock. -/
def readCommands (firstTimestamp : Option Int) : List String → List Command
  | [] => []
  | line :: lines =>
      match matchLine line with
      | none => readCommands firstTimestamp lines
      | some md =>
          let first := firstTimestamp.getD (md.timestamp - 1000000)
          md.command first :: readCommands (some first) lines

def logCommands (lines : List String) : List Command := readCommands none lines

/-- The addresses of the log, as they stand in it. -/
def addresses (lines : List String) : List (List Char) :=
  lines.filterMap fun line => (matchLine line).map LineMatch.address

example : (logCommands ["[ 12.000001 ] @@@ create 00e9f400 4096 bo\n", "noise\n",
    "[13.5] @@@ use 00e9f400\n", "[13.500000] @@@ use 00e9f400\n"]).map Command.args =
    [some ["4096", "bo"], none] := by
  decide +kernel

section Parsed

theorem matchLine_some {line : String} {md : LineMatch} (h : matchLine line = some md) :
    (∀ c ∈ md.cmd, isWordChar c = true) ∧ (∀ c ∈ md.address, isHexChar c = true) ∧
      8 ≤ md.address.length ∧ md.address.length ≤ 16 := by
  rw [matchLine] at h
  split at h
  · next hfound =>
      cases h
      have hholds := matchPieces_some hfound
      simp only [lineHead, List.forall₂_cons] at hholds
      rcases hholds with ⟨_, _, _, _, _, _, _, _, _, _, _, _, hcmd, _, haddress, _⟩
      exact ⟨hcmd.chars, haddress.chars, haddress.atLeast, haddress.atMost 16 rfl⟩
  · cases h

/-- The arguments end at the end of the line. -/
theorem matchLine_args {line : String} {md : LineMatch} {args : List Char}
    (h : matchLine line = some md) (hargs : md.args = some args) : '\n' ∉ args := by
  rw [matchLine] at h
  split at h
  · cases h
    simp only [matchArgs] at hargs
    split at hargs
    · next hfound =>
        cases hargs
        have hholds := matchPieces_some hfound
        simp only [lineArgs, List.forall₂_cons] at hholds
        obtain ⟨_, hrest, _⟩ := hholds
        intro hmem
        exact absurd (hrest.chars _ hmem) (by decide)
    · cases hargs
  · cases h

/-- A character of a word stands among the arguments. -/
theorem mem_of_mem_splitArgs {args : List Char} {word : String} {c : Char}
    (hword : word ∈ splitArgs args) (hc : c ∈ word.toList) : c ∈ args := by
  obtain ⟨chars, hchars, rfl⟩ := List.mem_map.mp hword
  rw [String.toList_ofList] at hc
  obtain ⟨i, hi⟩ := List.mem_iff_getElem?.mp hchars
  have hchars' : ((args.splitOn ' ').intersperse [' '])[2 * i]? = some chars :=
    List.getElem?_intersperse_two_mul.trans hi
  have hargs : [' '].intercalate (args.splitOn ' ') = args := List.intercalate_splitOn ' '
  rw [← hargs, List.intercalate]
  exact List.mem_flatten_of_mem (List.mem_of_getElem? hchars') hc

theorem mem_readCommands {firstTimestamp : Option Int} {lines : List String} {c : Command}
    (h : c ∈ readCommands firstTimestamp lines) :
    ∃ line ∈ lines, ∃ md first, matchLine line = some md ∧ c = md.command first := by
  induction lines generalizing firstTimestamp with
  | nil => cases h
  | cons line lines ih =>
      have hlater : ∀ first, c ∈ readCommands first lines →
          ∃ line' ∈ line :: lines, ∃ md first, matchLine line' = some md ∧ c = md.command first := by
        intro first hc
        rcases ih hc with ⟨line', hline', hmd⟩
        exact ⟨line', List.mem_cons_of_mem _ hline', hmd⟩
      rw [readCommands] at h
      split at h
      · exact hlater _ h
      · next md hmd =>
          rcases List.mem_cons.mp h with rfl | h
          · exact ⟨line, List.mem_cons_self, md, _, hmd, rfl⟩
          · exact hlater _ h

theorem readCommands_bufId (firstTimestamp : Option Int) (lines : List String) :
    (readCommands firstTimestamp lines).map Command.bufId =
      (addresses lines).map fun address => (hexValue address : Int) := by
  induction lines generalizing firstTimestamp with
  | nil => rfl
  | cons line lines ih =>
      rw [readCommands, addresses, List.filterMap_cons]
      cases matchLine line with
      | none => exact ih firstTimestamp
      | some md =>
          simp only [List.map_cons, Option.map_some]
          rw [ih]
          rfl

/-- The first command is a second into the video. -/
theorem logCommands_first {lines : List String} {c : Command} {rest : List Command}
    (h : logCommands lines = c :: rest) : c.timestamp = 1000000 := by
  rw [logCommands] at h
  induction lines with
  | nil => cases h
  | cons line lines ih =>
      rw [readCommands] at h
      split at h
      · exact ih h
      · injection h with hcommand _
        rw [← hcommand, LineMatch.command, Option.getD_none, Int.sub_sub_self]

end Parsed

section Format

/-- The groups of a line of the log. -/
structure LineMatch.WellFormed (md : LineMatch) : Prop where
  seconds : md.seconds ≠ [] ∧ ∀ c ∈ md.seconds, c.isDigit = true
  micros : md.micros.length = 6 ∧ ∀ c ∈ md.micros, c.isDigit = true
  cmd : md.cmd ≠ [] ∧ ∀ c ∈ md.cmd, isWordChar c = true
  address : 8 ≤ md.address.length ∧ md.address.length ≤ 16 ∧
    ∀ c ∈ md.address, isHexChar c = true
  args : ∀ args ∈ md.args, (∀ c ∈ args.head?, c ≠ ' ') ∧ '\n' ∉ args

def LineMatch.tail (md : LineMatch) : List Char :=
  match md.args with
  | none => ['\n']
  | some args => [' '] ++ (args ++ ['\n'])

/-- The line with these groups, indented as the kernel prints it. -/
def LineMatch.line (md : LineMatch) (indent : Nat) : List Char :=
  ['['] ++ (List.replicate indent ' ' ++ (md.seconds ++ (['.'] ++ (md.micros ++ ([] ++ ([']'] ++
    ([' '] ++ (['@'] ++ (['@'] ++ (['@'] ++ ([' '] ++ (md.cmd ++ ([' '] ++ (md.address ++
      md.tail))))))))))))))

theorem just_holds (c : Char) : (just c).Holds [c] where
  chars := by
    intro d hd
    rw [List.mem_singleton.mp hd]
    exact decide_eq_true rfl
  atLeast := Nat.le_refl 1
  atMost := by
    rintro bound ⟨⟩
    exact Nat.le_refl 1

theorem star_holds {chars : Char → Bool} {text : List Char} (h : ∀ c ∈ text, chars c = true) :
    (star chars).Holds text := ⟨h, Nat.zero_le _, nofun⟩

theorem plus_holds {chars : Char → Bool} {text : List Char} (hne : text ≠ [])
    (h : ∀ c ∈ text, chars c = true) : (plus chars).Holds text :=
  ⟨h, List.length_pos_iff.mpr hne, nofun⟩

theorem head_append {text : List Char} (hne : text ≠ []) (s : List Char) {chars : Char → Bool}
    (h : ∀ c ∈ text, chars c = false) : ∀ c ∈ (text ++ s).head?, chars c = false := by
  obtain ⟨d, ds, rfl⟩ := List.exists_cons_of_ne_nil hne
  intro c hc
  cases hc
  exact h d List.mem_cons_self

variable {md : LineMatch}

theorem matchArgs_tail (h : md.WellFormed) : matchArgs md.tail = md.args := by
  rw [LineMatch.tail]
  cases hargs : md.args with
  | none => rfl
  | some args =>
      obtain ⟨hblank, hnewline⟩ := h.args args hargs
      have hfound : matchPieces lineArgs ([' '] ++ (args ++ ['\n'])) =
          some ([[' '], args], ['\n']) := by
        refine matchPieces_cons (plus_holds (by simp) (by simp)) (Or.inl ?_)
          (matchPieces_cons (star_holds ?_) (Or.inl ?_) rfl)
        · intro c hc
          rw [List.head?_append, Option.mem_def, Option.or_eq_some_iff] at hc
          rcases hc with hc | ⟨_, hc⟩
          · exact decide_eq_false (hblank c hc)
          · cases hc
            rfl
        · intro c hc
          exact decide_eq_true fun heq => hnewline (heq ▸ hc)
        · intro c hc
          cases hc
          rfl
      rw [matchArgs, hfound]

/-- A line of the log is matched to its groups. -/
theorem matchLine_line (h : md.WellFormed) (indent : Nat) {line : String}
    (hline : line.toList = md.line indent) : matchLine line = some md := by
  have hfound : matchPieces lineHead (md.line indent) = some
      ([['['], List.replicate indent ' ', md.seconds, ['.'], md.micros, [], [']'], [' '], ['@'],
        ['@'], ['@'], [' '], md.cmd, [' '], md.address], md.tail) := by
    have hblank : ∀ {chars : Char → Bool} {text : List Char}, (∀ c ∈ text, chars c = true) →
        chars ' ' = false → ∀ c ∈ text, decide (c = ' ') = false := by
      intro chars text htext hspace c hc
      apply decide_eq_false
      rintro rfl
      rw [htext _ hc] at hspace
      cases hspace
    have hone : ∀ {c d : Char} (s : List Char), c ≠ d →
        ∀ e ∈ ([c] ++ s).head?, decide (e = d) = false := by
      rintro c d s hne e ⟨⟩
      exact decide_eq_false hne
    have htail : ∀ c ∈ md.tail.head?, isHexChar c = false := by
      intro c hc
      rw [LineMatch.tail] at hc
      split at hc <;> cases hc <;> decide
    refine matchPieces_cons (just_holds _) (Or.inr rfl) ?_
    refine matchPieces_cons (star_holds (by simp))
      (Or.inl (head_append h.seconds.1 _ (hblank h.seconds.2 (by decide)))) ?_
    refine matchPieces_cons (plus_holds h.seconds.1 h.seconds.2) (Or.inl ?_) ?_
    · rintro c ⟨⟩
      decide
    refine matchPieces_cons (just_holds _) (Or.inr rfl) ?_
    refine matchPieces_cons ⟨h.micros.2, h.micros.1.ge, ?_⟩
      (Or.inr (congrArg some h.micros.1.symm)) ?_
    · rintro bound ⟨⟩
      exact h.micros.1.le
    refine matchPieces_cons (star_holds (by simp)) (Or.inl (hone _ (by decide))) ?_
    refine matchPieces_cons (just_holds _) (Or.inr rfl) ?_
    refine matchPieces_cons (plus_holds (by simp) (by simp)) (Or.inl (hone _ (by decide))) ?_
    refine matchPieces_cons (just_holds _) (Or.inr rfl) ?_
    refine matchPieces_cons (just_holds _) (Or.inr rfl) ?_
    refine matchPieces_cons (just_holds _) (Or.inr rfl) ?_
    refine matchPieces_cons (plus_holds (by simp) (by simp))
      (Or.inl (head_append h.cmd.1 _ (hblank h.cmd.2 (by decide)))) ?_
    refine matchPieces_cons (plus_holds h.cmd.1 h.cmd.2) (Or.inl ?_) ?_
    · rintro c ⟨⟩
      decide
    refine matchPieces_cons (just_holds _) (Or.inr rfl) ?_
    refine matchPieces_cons ⟨h.address.2.2, h.address.1, ?_⟩ (Or.inl htail) rfl
    rintro bound ⟨⟩
    exact h.address.2.1
  rw [matchLine, hline, hfound]
  dsimp only
  rw [matchArgs_tail h]

end Format

section Hex

variable {cs ds : List Char}

theorem hexValue_eq (cs : List Char) :
    hexValue cs = Nat.ofDigits 16 (cs.reverse.map hexDigit) := by
  induction cs using List.reverseRecOn with
  | nil => rfl
  | append_singleton cs c ih =>
      rw [List.reverse_append, List.reverse_singleton, List.singleton_append, List.map_cons,
        Nat.ofDigits_cons, ← ih, hexValue, List.foldl_append]
      change hexValue cs * 16 + hexDigit c = hexDigit c + 16 * hexValue cs
      omega

/-- The code of a lower case hexadecimal digit. -/
theorem hexChar_toNat {c : Char} (h : isHexChar c = true) :
    48 ≤ c.toNat ∧ c.toNat ≤ 57 ∧ c.isDigit = true ∨
      97 ≤ c.toNat ∧ c.toNat ≤ 102 ∧ c.isDigit = false := by
  cases hdigit : c.isDigit with
  | true =>
      have hrange := digit_toNat hdigit
      exact Or.inl ⟨hrange.1, hrange.2, rfl⟩
  | false =>
      rw [isHexChar, hdigit, Bool.false_or, Bool.and_eq_true, decide_eq_true_eq,
        decide_eq_true_eq, Char.le_def, Char.le_def, UInt32.le_iff_toNat_le,
        UInt32.le_iff_toNat_le] at h
      exact Or.inr ⟨h.1, h.2, rfl⟩

theorem hexDigit_lt {c : Char} (h : isHexChar c = true) : hexDigit c < 16 := by
  rw [hexDigit]
  rcases hexChar_toNat h with ⟨hlow, hhigh, hdigit⟩ | ⟨hlow, hhigh, hdigit⟩
  · rw [if_pos hdigit]
    omega
  · rw [if_neg (by simp [hdigit])]
    omega

theorem hexDigit_inj {c d : Char} (hc : isHexChar c = true) (hd : isHexChar d = true)
    (heq : hexDigit c = hexDigit d) : c = d := by
  have hsame : c.toNat = d.toNat := by
    rw [hexDigit, hexDigit] at heq
    rcases hexChar_toNat hc with ⟨hlow, hhigh, hdigit⟩ | ⟨hlow, hhigh, hdigit⟩ <;>
      rcases hexChar_toNat hd with ⟨hlow', hhigh', hdigit'⟩ | ⟨hlow', hhigh', hdigit'⟩ <;>
      simp [hdigit, hdigit'] at heq <;> omega
  rw [← Char.ofNat_toNat c, hsame, Char.ofNat_toNat]

theorem map_hexDigit_inj (hcs : ∀ c ∈ cs, isHexChar c = true) (hds : ∀ c ∈ ds, isHexChar c = true)
    (heq : cs.map hexDigit = ds.map hexDigit) : cs = ds := by
  induction cs generalizing ds with
  | nil => exact (List.map_eq_nil_iff.mp heq.symm).symm
  | cons c cs ih =>
      cases ds with
      | nil => cases heq
      | cons d ds =>
          injection heq with hhead htail
          rw [hexDigit_inj (hcs c List.mem_cons_self) (hds d List.mem_cons_self) hhead,
            ih (fun c hc => hcs c (List.mem_cons_of_mem _ hc))
              (fun d hd => hds d (List.mem_cons_of_mem _ hd)) htail]

theorem hexDigits_lt (h : ∀ c ∈ cs, isHexChar c = true) :
    ∀ digit ∈ cs.reverse.map hexDigit, digit < 16 := by
  intro digit hdigit
  rcases List.mem_map.mp hdigit with ⟨c, hc, rfl⟩
  exact hexDigit_lt (h c (List.mem_reverse.mp hc))

theorem hexValue_lt (h : ∀ c ∈ cs, isHexChar c = true) : hexValue cs < 16 ^ cs.length := by
  have hlt := Nat.ofDigits_lt_base_pow_length (b := 16) (by decide) (hexDigits_lt h)
  rwa [← hexValue_eq, List.length_map, List.length_reverse] at hlt

theorem hexValue_inj (hlength : cs.length = ds.length) (hcs : ∀ c ∈ cs, isHexChar c = true)
    (hds : ∀ c ∈ ds, isHexChar c = true) (heq : hexValue cs = hexValue ds) : cs = ds := by
  rw [hexValue_eq, hexValue_eq] at heq
  have hdigits : cs.reverse.map hexDigit = ds.reverse.map hexDigit :=
    Nat.ofDigits_inj_of_len_eq (by decide) (by simpa using hlength) (hexDigits_lt hcs)
      (hexDigits_lt hds) heq
  rw [List.map_reverse, List.map_reverse] at hdigits
  exact map_hexDigit_inj hcs hds (List.reverse_injective hdigits)

/-- The last eight digits of an address, and those above them. -/
def lowDigits (address : List Char) : List Char := address.drop (address.length - 8)

def highDigits (address : List Char) : List Char := address.take (address.length - 8)

theorem hexValue_split {address : List Char} (hlong : 8 ≤ address.length) :
    hexValue address = hexValue (highDigits address) * 2 ^ 32 + hexValue (lowDigits address) := by
  have hlow : (lowDigits address).length = 8 := by
    rw [lowDigits, List.length_drop]
    omega
  have hsplit : address = highDigits address ++ lowDigits address :=
    (List.take_append_drop _ _).symm
  have happend : Nat.ofDigits 16 ((lowDigits address).reverse.map hexDigit ++
      (highDigits address).reverse.map hexDigit) = _ := Nat.ofDigits_append
  rw [List.length_map, List.length_reverse, hlow, ← hexValue_eq, ← hexValue_eq] at happend
  calc
    hexValue address = hexValue (highDigits address ++ lowDigits address) := by rw [← hsplit]
    _ = hexValue (lowDigits address) + 16 ^ 8 * hexValue (highDigits address) := by
      rw [hexValue_eq, List.reverse_append, List.map_append]
      exact happend
    _ = hexValue (highDigits address) * 2 ^ 32 + hexValue (lowDigits address) := by omega

end Hex

end CmaPool.Python
