import CmaPool.Lib.Lines

/-! The C library functions that main.c reads its lines with, in the C locale
and on a platform with a 64-bit `long` and `size_t`. -/

namespace CmaPool.TestDrm

abbrev Bytes := List UInt8

def text (s : String) : Bytes := s.toUTF8.toList

/-- What a C string function sees of a buffer. -/
def cString (buffer : Bytes) : Bytes := buffer.takeWhile (· ≠ 0)

def isspace (c : UInt8) : Bool := c = 0x20 ∨ 0x09 ≤ c ∧ c ≤ 0x0d

def skipSpaces (s : Bytes) : Bytes := s.dropWhile isspace

/-- The position of the first `c`. -/
def strchr (s : Bytes) (c : UInt8) : Option Nat := s.findIdx? (· = c)

/-- The position of the first occurrence of `needle`. -/
def strstr (needle : Bytes) : Bytes → Option Nat
  | [] => if needle = [] then some 0 else none
  | c :: s => if needle.isPrefixOf (c :: s) then some 0 else (strstr needle s).map (· + 1)

/-- `strncmp(s, other, other.length)` is zero. -/
def startsWith (s other : Bytes) : Bool := other.isPrefixOf s

def digitValue (base : Nat) (c : UInt8) : Option Nat :=
  let value :=
    if 0x30 ≤ c ∧ c ≤ 0x39 then c.toNat - 0x30
    else if 0x61 ≤ c ∧ c ≤ 0x66 then c.toNat - 0x61 + 10
    else if 0x41 ≤ c ∧ c ≤ 0x46 then c.toNat - 0x41 + 10
    else base
  if value < base then some value else none

/-- The digits at the front of `s`, as a number and their count. -/
def digits (base : Nat) (value count : Nat) : Bytes → Nat × Nat
  | [] => (value, count)
  | c :: s =>
      match digitValue base c with
      | some digit => digits base (value * base + digit) (count + 1) s
      | none => (value, count)

/-- The optional sign: whether it is a minus and its length. -/
def sign : Bytes → Bool × Nat
  | 0x2d :: _ => (true, 1)
  | 0x2b :: _ => (false, 1)
  | _ => (false, 0)

/-- The length of a leading `0x` of a hexadecimal number. -/
def hexMark : Bytes → Nat
  | 0x30 :: 0x78 :: _ => 2
  | 0x30 :: 0x58 :: _ => 2
  | _ => 0

/-- The `unsigned long` of a digit string: out of range is `ULONG_MAX`, and a
minus negates modulo `2 ^ 64`. -/
def unsignedLong (negative : Bool) (value : Nat) : Nat :=
  if value ≥ 2 ^ 64 then 2 ^ 64 - 1
  else if negative then (2 ^ 64 - value) % 2 ^ 64
  else value

/-- A conversion of `sscanf` followed by `%n`: the number and the bytes read up
to its end. -/
def scanUnsigned (base : Nat) (s : Bytes) : Option (Nat × Nat) :=
  let spaces := (s.takeWhile isspace).length
  let s := s.drop spaces
  let (negative, signLength) := sign s
  let s := s.drop signLength
  let mark := if base = 16 then hexMark s else 0
  let (value, count) := digits base 0 0 (s.drop mark)
  if count = 0 then none
  else some (unsignedLong negative value, spaces + signLength + mark + count)

/-- `%zu%n`. -/
def scanSize (s : Bytes) : Option (Nat × Nat) := scanUnsigned 10 s

/-- `%" SCNx32 "%n`. As in ISO C, a `0x` without digits is no number; glibc reads it
as 0. -/
def scanHex32 (s : Bytes) : Option (Nat × Nat) :=
  (scanUnsigned 16 s).map fun (value, offset) => (value % 2 ^ 32, offset)

def padLeft (fill : UInt8) (width : Nat) (s : Bytes) : Bytes :=
  List.replicate (width - s.length) fill ++ s

/-- `%i`, `%zu`, `%" PRIu32 "` and `%" PRIu64 "`. -/
def decimal (n : Nat) : Bytes := text (toString n)

/-- `%08" PRIu32 "`. -/
def decimal08 (n : Nat) : Bytes := padLeft 0x30 8 (decimal n)

/-- `%08" PRIx32 "`. -/
def hex08 (n : Nat) : Bytes := padLeft 0x30 8 (text (String.ofList (Nat.toDigits 16 n)))

/-- `fgets` with room for `size - 1` bytes, on a stream that stays open: `none`
while it waits for more. -/
def fgets (size : Nat) (stream : Bytes) : Option (Bytes × Bytes) :=
  match Lines.cutLine 0x0a stream with
  | some (line, rest) =>
      if line.length < size then some (line, rest)
      else some (stream.take (size - 1), stream.drop (size - 1))
  | none =>
      if size ≤ stream.length + 1 then some (stream.take (size - 1), stream.drop (size - 1))
      else none

example : scanSize (text " 4096 unmoveable") = some (4096, 5) := by decide +kernel

example : scanHex32 (text "0xFFFFFFFF1\n") = some (0xfffffff1, 11) := by decide +kernel

end CmaPool.TestDrm
