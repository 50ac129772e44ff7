import Mathlib

/-! Patterns that are sequences of repeated character classes.

A pattern is matched from the start of a text. Each piece takes as many
characters as it can, and gives some back when the pieces behind it fail. -/

namespace Pattern

structure Piece where
  chars : Char → Bool
  atLeast : Nat
  atMost : Option Nat

structure Piece.Holds (piece : Piece) (text : List Char) : Prop where
  chars : ∀ c ∈ text, piece.chars c = true
  atLeast : piece.atLeast ≤ text.length
  atMost : ∀ bound ∈ piece.atMost, text.length ≤ bound

/-- The most characters that the piece can take from the front of `s`. -/
def Piece.longest (piece : Piece) (s : List Char) : Nat :=
  match piece.atMost with
  | none => (s.takeWhile piece.chars).length
  | some bound => min (s.takeWhile piece.chars).length bound

/-- The result for the largest count from `most` down to `least` that has one. -/
def backtrack {β : Type*} (f : Nat → Option β) (least : Nat) : Nat → Option β
  | 0 => if least = 0 then f 0 else none
  | count + 1 =>
      if count + 1 < least then none
      else
        match f (count + 1) with
        | some result => some result
        | none => backtrack f least count

/-- The texts of the pieces and what follows them. -/
def matchPieces : List Piece → List Char → Option (List (List Char) × List Char)
  | [], s => some ([], s)
  | piece :: pieces, s =>
      backtrack (fun count => (matchPieces pieces (s.drop count)).map fun found =>
        (s.take count :: found.1, found.2)) piece.atLeast (piece.longest s)

theorem backtrack_some {β : Type*} {f : Nat → Option β} {least most : Nat} {result : β}
    (h : backtrack f least most = some result) :
    ∃ count, least ≤ count ∧ count ≤ most ∧ f count = some result := by
  induction most with
  | zero =>
      rw [backtrack] at h
      split at h
      · next hleast => exact ⟨0, hleast.le, le_rfl, h⟩
      · cases h
  | succ most ih =>
      rw [backtrack] at h
      split at h
      · cases h
      · next hleast =>
          split at h
          · next hfound => exact ⟨most + 1, Nat.not_lt.mp hleast, le_rfl, by rw [hfound, h]⟩
          · rcases ih h with ⟨count, hcount, hle, hf⟩
            exact ⟨count, hcount, Nat.le_succ_of_le hle, hf⟩

theorem Piece.holds_take {piece : Piece} {s : List Char} {count : Nat}
    (hleast : piece.atLeast ≤ count) (hmost : count ≤ piece.longest s) :
    piece.Holds (s.take count) := by
  have hrun : count ≤ (s.takeWhile piece.chars).length := by
    rw [Piece.longest] at hmost
    split at hmost
    · exact hmost
    · exact le_trans hmost (Nat.min_le_left _ _)
  have hlength : (s.take count).length = count := by
    have hle := (List.takeWhile_sublist piece.chars (l := s)).length_le
    rw [List.length_take]
    omega
  constructor
  · intro c hc
    have hfront : s.take count <+: s.takeWhile piece.chars := by
      apply List.prefix_of_prefix_length_le (List.take_prefix _ _) (List.takeWhile_prefix _)
      rwa [hlength]
    exact List.mem_takeWhile_imp (hfront.subset hc)
  · rwa [hlength]
  · intro bound hbound
    rw [Piece.longest, hbound] at hmost
    rw [hlength]
    exact le_trans hmost (Nat.min_le_right _ _)

theorem matchPieces_some {pieces : List Piece} {s rest : List Char} {texts : List (List Char)}
    (h : matchPieces pieces s = some (texts, rest)) :
    List.Forall₂ Piece.Holds pieces texts := by
  induction pieces generalizing s texts with
  | nil =>
      cases h
      exact .nil
  | cons piece pieces ih =>
      rcases backtrack_some h with ⟨count, hleast, hmost, hcount⟩
      rcases Option.map_eq_some_iff.mp hcount with ⟨⟨tail, after⟩, htail, heq⟩
      cases heq
      exact .cons (Piece.holds_take hleast hmost) (ih htail)

theorem backtrack_most {β : Type*} {f : Nat → Option β} {least most : Nat} {result : β}
    (hle : least ≤ most) (h : f most = some result) : backtrack f least most = some result := by
  cases most with
  | zero => rw [backtrack, if_pos (Nat.le_zero.mp hle), h]
  | succ most => rw [backtrack, if_neg (Nat.not_lt.mpr hle), h]

/-- A piece takes a text that it holds of, where it cannot go on behind it. -/
theorem Piece.longest_append {piece : Piece} {text s : List Char} (h : piece.Holds text)
    (hstop : (∀ c ∈ s.head?, piece.chars c = false) ∨ piece.atMost = some text.length) :
    piece.longest (text ++ s) = text.length := by
  have hrun : text.length ≤ ((text ++ s).takeWhile piece.chars).length := by
    rw [List.takeWhile_append_of_pos h.chars, List.length_append]
    exact Nat.le_add_right _ _
  rcases hstop with hend | hmost
  · have hnone : s.takeWhile piece.chars = [] := by
      cases s with
      | nil => rfl
      | cons c s => exact List.takeWhile_cons_of_neg (by simp [hend c rfl])
    have hexact : (text ++ s).takeWhile piece.chars = text := by
      rw [List.takeWhile_append_of_pos h.chars, hnone, List.append_nil]
    rw [Piece.longest, hexact]
    split
    · rfl
    · next bound hbound => exact Nat.min_eq_left (h.atMost bound hbound)
  · rw [Piece.longest, hmost]
    exact Nat.min_eq_right hrun

/-- The first try of a piece is the match, when the pieces behind it match there. -/
theorem matchPieces_cons {piece : Piece} {pieces : List Piece} {text s rest : List Char}
    {texts : List (List Char)} (h : piece.Holds text)
    (hstop : (∀ c ∈ s.head?, piece.chars c = false) ∨ piece.atMost = some text.length)
    (hrest : matchPieces pieces s = some (texts, rest)) :
    matchPieces (piece :: pieces) (text ++ s) = some (text :: texts, rest) := by
  rw [matchPieces, Piece.longest_append h hstop]
  apply backtrack_most h.atLeast
  rw [List.drop_left, List.take_left, hrest]
  rfl

end Pattern
