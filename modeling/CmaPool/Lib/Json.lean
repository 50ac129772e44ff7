import Mathlib

/-! The reading of JSON texts.

A text is split into tokens, and the tokens are read with a stack of the arrays
and objects that are open. Strings with escapes and numbers with a fraction or an
exponent are not read. -/

namespace Json

inductive Value
  | null
  | bool (value : Bool)
  | int (value : Int)
  | str (value : String)
  | arr (items : List Value)
  | obj (members : List (String × Value))

inductive Token
  | objOpen
  | objClose
  | arrOpen
  | arrClose
  | comma
  | colon
  | str (value : String)
  | name (value : Value)

section Lexer

/-- The digits of a number, without a zero in front. -/
def naturalOf (word : List Char) : Option Nat :=
  if word ≠ [] ∧ word.all Char.isDigit ∧ (word.head? = some '0' → word = ['0']) then
    some (Nat.ofDigitChars 10 word 0)
  else none

/-- What stands between the punctuation and the strings. -/
def wordOf : List Char → Option Value
  | ['n', 'u', 'l', 'l'] => some .null
  | ['t', 'r', 'u', 'e'] => some (.bool true)
  | ['f', 'a', 'l', 's', 'e'] => some (.bool false)
  | '-' :: word => (naturalOf word).map fun n => .int (-n)
  | word => (naturalOf word).map fun n => .int n

/-- The tokens of a character that ends a word. -/
def punctuation (c : Char) : Option (List Token) :=
  if c = ' ' ∨ c = '\n' ∨ c = '\t' ∨ c = '\r' then some []
  else if c = '{' then some [.objOpen]
  else if c = '}' then some [.objClose]
  else if c = '[' then some [.arrOpen]
  else if c = ']' then some [.arrClose]
  else if c = ',' then some [.comma]
  else if c = ':' then some [.colon]
  else none

inductive Mode
  | between
  | word (chars : List Char)
  | string (chars : List Char)

/-- The tokens so far, the latest first. -/
structure Lexer where
  tokens : List Token
  mode : Mode

def Lexer.scan (s : Lexer) (c : Char) : Option Lexer :=
  match s.mode with
  | .between =>
      match punctuation c with
      | some tokens => some ⟨tokens ++ s.tokens, .between⟩
      | none => if c = '"' then some ⟨s.tokens, .string []⟩ else some ⟨s.tokens, .word [c]⟩
  | .word chars =>
      match punctuation c with
      | some tokens =>
          (wordOf chars).map fun value => ⟨tokens ++ .name value :: s.tokens, .between⟩
      | none => if c = '"' then none else some ⟨s.tokens, .word (chars ++ [c])⟩
  | .string chars =>
      if c = '"' then some ⟨.str (String.ofList chars) :: s.tokens, .between⟩
      else if c = '\\' ∨ c.toNat < 0x20 then none
      else some ⟨s.tokens, .string (chars ++ [c])⟩

/-- The blank after the text ends a word that the text ends in. -/
def tokens (text : List Char) : Option (List Token) := do
  let s ← (text ++ [' ']).foldlM Lexer.scan ⟨[], .between⟩
  match s.mode with
  | .between => some s.tokens.reverse
  | _ => none

/-- The characters are read as the tokens, from between two tokens to between
two tokens. -/
def Reads (chars : List Char) (tokens : List Token) : Prop :=
  ∀ front : List Token,
    chars.foldlM Lexer.scan ⟨front, .between⟩ = some ⟨tokens.reverse ++ front, .between⟩

variable {chars chars' : List Char} {tokens tokens' : List Token}

theorem Reads.append (h : Reads chars tokens) (h' : Reads chars' tokens') :
    Reads (chars ++ chars') (tokens ++ tokens') := by
  intro front
  calc
    _ = (chars.foldlM Lexer.scan ⟨front, .between⟩).bind (chars'.foldlM Lexer.scan) :=
      List.foldlM_append
    _ = chars'.foldlM Lexer.scan ⟨tokens.reverse ++ front, .between⟩ := by rw [h front]; rfl
    _ = _ := by rw [h', List.reverse_append, List.append_assoc]

def WordChar (c : Char) : Prop := punctuation c = none ∧ c ≠ '"'

theorem scan_word {word chars : List Char} (h : ∀ c ∈ chars, WordChar c) (front : List Token) :
    chars.foldlM Lexer.scan ⟨front, .word word⟩ = some ⟨front, .word (word ++ chars)⟩ := by
  induction chars generalizing word with
  | nil => rw [List.append_nil]; rfl
  | cons c chars ih =>
      have hc := h c List.mem_cons_self
      have hscan : Lexer.scan ⟨front, .word word⟩ c = some ⟨front, .word (word ++ [c])⟩ := by
        simp [Lexer.scan, hc.1, hc.2]
      calc
        _ = chars.foldlM Lexer.scan ⟨front, .word (word ++ [c])⟩ := by
          rw [List.foldlM_cons, hscan]
          rfl
        _ = _ := by
          rw [ih fun d hd => h d (List.mem_cons_of_mem _ hd), List.append_assoc]
          rfl

/-- The characters start with punctuation, which ends a word. -/
def EndsWord (chars : List Char) : Prop := (chars.head?.bind punctuation).isSome

theorem EndsWord.append (h : EndsWord chars) (rest : List Char) : EndsWord (chars ++ rest) := by
  cases chars with
  | nil => cases h
  | cons c chars => exact h

/-- A word is read up to the punctuation behind it. -/
theorem Reads.word {word : List Char} {value : Value} (hne : word ≠ [])
    (hword : ∀ c ∈ word, WordChar c) (hvalue : wordOf word = some value) (hend : EndsWord chars)
    (h : Reads chars tokens) : Reads (word ++ chars) (.name value :: tokens) := by
  intro front
  obtain ⟨ended, hsome⟩ := Option.isSome_iff_exists.mp hend
  obtain ⟨c, hhead, hended⟩ := Option.bind_eq_some_iff.mp hsome
  obtain ⟨after, rfl⟩ := List.head?_eq_some_iff.mp hhead
  obtain ⟨d, rest, rfl⟩ := List.exists_cons_of_ne_nil hne
  have hd := hword d List.mem_cons_self
  have hfirst : Lexer.scan ⟨front, .between⟩ d = some ⟨front, .word [d]⟩ := by
    simp [Lexer.scan, hd.1, hd.2]
  have hrest := @scan_word [d] rest (fun c hc => hword c (List.mem_cons_of_mem _ hc)) front
  have hlast : Lexer.scan ⟨front, .word (d :: rest)⟩ c =
      Lexer.scan ⟨.name value :: front, .between⟩ c := by
    simp [Lexer.scan, hended, hvalue]
  calc
    _ = (c :: after).foldlM Lexer.scan ⟨front, .word (d :: rest)⟩ := by
      rw [List.cons_append, List.foldlM_cons, hfirst]
      change List.foldlM Lexer.scan _ (rest ++ c :: after) = _
      rw [List.foldlM_append, hrest]
      rfl
    _ = (c :: after).foldlM Lexer.scan ⟨.name value :: front, .between⟩ := by
      rw [List.foldlM_cons, hlast, List.foldlM_cons]
    _ = _ := by
      rw [h]
      simp

theorem tokens_eq (h : Reads chars tokens) : Json.tokens chars = some tokens := by
  have hblank : Reads [' '] [] := by
    intro front
    simp [Lexer.scan, punctuation]
  have hread := h.append hblank []
  rw [Json.tokens, hread]
  simp

theorem toDigits_head {n : Nat} (h : n ≠ 0) : (Nat.toDigits 10 n).head? ≠ some '0' := by
  induction n using Nat.strongRecOn with
  | _ n ih =>
      by_cases hsmall : n < 10
      · have hdigit : ∀ d < 10, d ≠ 0 → d.digitChar ≠ '0' := by decide
        rw [Nat.toDigits_of_lt_base hsmall]
        intro hhead
        exact hdigit n hsmall h (Option.some.inj hhead)
      · have hlarge := Nat.not_lt.mp hsmall
        rw [Nat.toDigits_of_base_le (by decide) hlarge,
          List.head?_append_of_ne_nil _ Nat.toDigits_ne_nil]
        exact ih (n / 10) (by omega) (by omega)

theorem naturalOf_toDigits (n : Nat) : naturalOf (Nat.toDigits 10 n) = some n := by
  have hdigits : (Nat.toDigits 10 n).all Char.isDigit := by
    rw [List.all_eq_true]
    exact fun c hc => Nat.isDigit_of_mem_toDigits (by decide) (by decide) hc
  have hzero : (Nat.toDigits 10 n).head? = some '0' → Nat.toDigits 10 n = ['0'] := by
    intro hhead
    by_cases h : n = 0
    · rw [h, Nat.toDigits_zero]
    · exact absurd hhead (toDigits_head h)
  rw [naturalOf, if_pos ⟨Nat.toDigits_ne_nil, hdigits, hzero⟩, Nat.ofDigitChars_ten_toDigits]

theorem ne_of_isDigit {c d : Char} (h : c.isDigit = true) (hd : d.isDigit = false) : c ≠ d := by
  rintro rfl
  exact absurd (h.symm.trans hd) (by decide)

theorem isDigit_wordChar {c : Char} (h : c.isDigit = true) : WordChar c := by
  have hne : ∀ d : Char, d.isDigit = false → c ≠ d := fun d hd => ne_of_isDigit h hd
  constructor
  · simp [punctuation, hne ' ' rfl, hne '\n' rfl, hne '\t' rfl, hne '\r' rfl, hne '{' rfl,
      hne '}' rfl, hne '[' rfl, hne ']' rfl, hne ',' rfl, hne ':' rfl]
  · exact hne '"' rfl

theorem wordOf_toDigits (n : Nat) : wordOf (Nat.toDigits 10 n) = some (.int n) := by
  have hnatural := naturalOf_toDigits n
  have hhead : ∀ c ∈ (Nat.toDigits 10 n).head?, c.isDigit = true := fun c hc =>
    Nat.isDigit_of_mem_toDigits (by decide) (by decide) (List.mem_of_mem_head? hc)
  generalize Nat.toDigits 10 n = word at hnatural hhead
  rw [wordOf.eq_def]
  split
  · exact absurd (hhead 'n' rfl) (by decide)
  · exact absurd (hhead 't' rfl) (by decide)
  · exact absurd (hhead 'f' rfl) (by decide)
  · exact absurd (hhead '-' rfl) (by decide)
  · rw [hnatural]
    rfl

/-- A number in front of punctuation. -/
theorem Reads.natural (n : Nat) (hend : EndsWord chars) (h : Reads chars tokens) :
    Reads (Nat.toDigits 10 n ++ chars) (.name (.int n) :: tokens) := by
  have hchars : ∀ c ∈ Nat.toDigits 10 n, WordChar c := fun c hc =>
    isDigit_wordChar (Nat.isDigit_of_mem_toDigits (by decide) (by decide) hc)
  exact .word Nat.toDigits_ne_nil hchars (wordOf_toDigits n) hend h

end Lexer

section Parser

/-- An array or an object of which a value is being read. -/
inductive Frame
  | arr (items : List Value)
  | obj (members : List (String × Value)) (key : String)

/-- What is read next. -/
inductive Expected
  | value
  | firstItem
  | firstKey
  | key (members : List (String × Value))
  | colon (members : List (String × Value)) (key : String)
  | done (value : Value)

structure Parser where
  stack : List Frame
  expected : Expected

def startValue (stack : List Frame) : Token → Option Parser
  | .name value => some ⟨stack, .done value⟩
  | .str value => some ⟨stack, .done (.str value)⟩
  | .arrOpen => some ⟨.arr [] :: stack, .firstItem⟩
  | .objOpen => some ⟨stack, .firstKey⟩
  | _ => none

def endValue (value : Value) : List Frame → Token → Option Parser
  | .arr items :: stack, .comma => some ⟨.arr (items ++ [value]) :: stack, .value⟩
  | .arr items :: stack, .arrClose => some ⟨stack, .done (.arr (items ++ [value]))⟩
  | .obj members key :: stack, .comma => some ⟨stack, .key (members ++ [(key, value)])⟩
  | .obj members key :: stack, .objClose => some ⟨stack, .done (.obj (members ++ [(key, value)]))⟩
  | _, _ => none

def Parser.accept (s : Parser) (t : Token) : Option Parser :=
  match s.expected, t with
  | .value, t => startValue s.stack t
  | .firstItem, .arrClose => some ⟨s.stack.tail, .done (.arr [])⟩
  | .firstItem, t => startValue s.stack t
  | .firstKey, .objClose => some ⟨s.stack, .done (.obj [])⟩
  | .firstKey, .str key => some ⟨s.stack, .colon [] key⟩
  | .key members, .str key => some ⟨s.stack, .colon members key⟩
  | .colon members key, .colon => some ⟨.obj members key :: s.stack, .value⟩
  | .done value, t => endValue value s.stack t
  | _, _ => none

def parse (tokens : List Token) : Option Value := do
  match ← tokens.foldlM Parser.accept ⟨[], .value⟩ with
  | ⟨[], .done value⟩ => some value
  | _ => none

mutual

/-- The tokens of a value. -/
def Value.spell : Value → List Token
  | .null => [.name .null]
  | .bool value => [.name (.bool value)]
  | .int value => [.name (.int value)]
  | .str value => [.str value]
  | .arr [] => [.arrOpen, .arrClose]
  | .arr (item :: items) => .arrOpen :: item.spell ++ spellItems items
  | .obj [] => [.objOpen, .objClose]
  | .obj ((key, value) :: members) =>
      .objOpen :: .str key :: .colon :: value.spell ++ spellMembers members

/-- The rest of an array after an item. -/
def spellItems : List Value → List Token
  | [] => [.arrClose]
  | item :: items => .comma :: item.spell ++ spellItems items

/-- The rest of an object after a member. -/
def spellMembers : List (String × Value) → List Token
  | [] => [.objClose]
  | (key, value) :: members =>
      .comma :: .str key :: .colon :: value.spell ++ spellMembers members

end

theorem accept_first (value : Value) (stack : List Frame) :
    value.spell.foldlM Parser.accept ⟨stack, .firstItem⟩ =
      value.spell.foldlM Parser.accept ⟨stack, .value⟩ := by
  cases value with
  | arr items => cases items <;> rw [Value.spell] <;> rfl
  | obj members => cases members <;> rw [Value.spell] <;> rfl
  | _ => rw [Value.spell]; rfl

mutual

theorem accept_spell (stack : List Frame) : (value : Value) →
    value.spell.foldlM Parser.accept ⟨stack, .value⟩ = some ⟨stack, .done value⟩
  | .null => by rw [Value.spell]; rfl
  | .bool _ => by rw [Value.spell]; rfl
  | .int _ => by rw [Value.spell]; rfl
  | .str _ => by rw [Value.spell]; rfl
  | .arr [] => by rw [Value.spell]; rfl
  | .arr (item :: items) => by
      calc
        _ = (item.spell.foldlM Parser.accept ⟨.arr [] :: stack, .firstItem⟩).bind
            ((spellItems items).foldlM Parser.accept) := by
          rw [Value.spell]
          exact List.foldlM_append
        _ = (spellItems items).foldlM Parser.accept ⟨.arr [] :: stack, .done item⟩ := by
          rw [accept_first, accept_spell (.arr [] :: stack) item]
          rfl
        _ = _ := accept_items stack [] item items
  | .obj [] => by rw [Value.spell]; rfl
  | .obj ((key, value) :: members) => by
      calc
        _ = (value.spell.foldlM Parser.accept ⟨.obj [] key :: stack, .value⟩).bind
            ((spellMembers members).foldlM Parser.accept) := by
          rw [Value.spell]
          exact List.foldlM_append
        _ = (spellMembers members).foldlM Parser.accept ⟨.obj [] key :: stack, .done value⟩ := by
          rw [accept_spell (.obj [] key :: stack) value]
          rfl
        _ = _ := accept_members stack [] key value members

theorem accept_items (stack : List Frame) (front : List Value) (value : Value) :
    (items : List Value) →
    (spellItems items).foldlM Parser.accept ⟨.arr front :: stack, .done value⟩ =
      some ⟨stack, .done (.arr (front ++ value :: items))⟩
  | [] => by rw [spellItems]; rfl
  | item :: items => by
      calc
        _ = (item.spell.foldlM Parser.accept ⟨.arr (front ++ [value]) :: stack, .value⟩).bind
            ((spellItems items).foldlM Parser.accept) := by
          rw [spellItems]
          exact List.foldlM_append
        _ = (spellItems items).foldlM Parser.accept
            ⟨.arr (front ++ [value]) :: stack, .done item⟩ := by
          rw [accept_spell _ item]
          rfl
        _ = _ := by
          rw [accept_items stack (front ++ [value]) item items, List.append_assoc]
          rfl

theorem accept_members (stack : List Frame) (front : List (String × Value)) (key : String)
    (value : Value) : (members : List (String × Value)) →
    (spellMembers members).foldlM Parser.accept ⟨.obj front key :: stack, .done value⟩ =
      some ⟨stack, .done (.obj (front ++ (key, value) :: members))⟩
  | [] => by rw [spellMembers]; rfl
  | (key', value') :: members => by
      calc
        _ = (value'.spell.foldlM Parser.accept
              ⟨.obj (front ++ [(key, value)]) key' :: stack, .value⟩).bind
            ((spellMembers members).foldlM Parser.accept) := by
          rw [spellMembers]
          exact List.foldlM_append
        _ = (spellMembers members).foldlM Parser.accept
            ⟨.obj (front ++ [(key, value)]) key' :: stack, .done value'⟩ := by
          rw [accept_spell _ value']
          rfl
        _ = _ := by
          rw [accept_members stack (front ++ [(key, value)]) key' value' members,
            List.append_assoc]
          rfl

end

theorem parse_spell (value : Value) : parse value.spell = some value := by
  rw [parse, accept_spell]
  rfl

end Parser

/-- The value of a text. -/
def loads (text : String) : Option Value := do
  parse (← tokens text.toList)

theorem loads_eq {text : String} {value : Value} (h : Reads text.toList value.spell) :
    loads text = some value := by
  rw [loads, tokens_eq h]
  exact parse_spell value

section Access

/-- The last member with the key. -/
def Value.item? (key : String) : Value → Option Value
  | .obj members => members.reverse.lookup key
  | _ => none

end Access

end Json
