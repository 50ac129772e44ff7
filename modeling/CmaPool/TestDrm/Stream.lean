import CmaPool.TestDrm.Reading
import CmaPool.TestDrm.Runs

/-! The loop of `process_file` over a stream.

`fgets` cuts a line that is too long for the buffer into pieces. What comes behind a
stream that ends with a newline is read as if it stood alone. -/

namespace CmaPool.TestDrm

/-- The lines of `process_file`, and what waits for more. -/
def readLines : Nat → Bytes → List Bytes × Bytes
  | 0, stream => ([], stream)
  | fuel + 1, stream =>
      match fgets Data.lineSize stream with
      | none => ([], stream)
      | some (line, rest) =>
          let (lines, rest) := readLines fuel rest
          (line :: lines, rest)

/-- Every line takes a byte at least. -/
def readStream (stream : Bytes) : List Bytes × Bytes := readLines stream.length stream

/-- Nothing of the stream is left when it has been read. -/
def Complete (stream : Bytes) : Prop := stream = [] ∨ stream.getLast? = some 0x0a

section Complete

variable {front back : Bytes}

theorem Complete.behind (h : Complete (front ++ back)) : Complete back := by
  rcases h with hnil | hlast
  · exact Or.inl (List.append_eq_nil_iff.mp hnil).2
  · by_cases hback : back = []
    · exact Or.inl hback
    · rw [List.getLast?_append_of_ne_nil _ hback] at hlast
      exact Or.inr hlast

theorem Complete.append (hfront : Complete front) (hback : Complete back) :
    Complete (front ++ back) := by
  by_cases hnil : back = []
  · rwa [hnil, List.append_nil]
  · right
    rw [List.getLast?_append_of_ne_nil _ hnil]
    exact hback.resolve_left hnil

theorem complete_line {line : Bytes} (h : Lines.IsLine 0x0a line) : Complete line := by
  obtain ⟨body, rfl, _⟩ := h
  exact Or.inr List.getLast?_concat

/-- The first piece of a complete stream does not depend on what comes behind. -/
theorem Complete.fgets (hcomplete : Complete front) (hne : front ≠ []) {size : Nat}
    (hsize : 1 < size) :
    ∃ line rest, Complete rest ∧ TestDrm.fgets size front = some (line, rest) ∧
      ∀ more, TestDrm.fgets size (front ++ more) = some (line, rest ++ more) := by
  have hnewline : 0x0a ∈ front := List.mem_of_getLast? (hcomplete.resolve_left hne)
  cases hcut : Lines.cutLine 0x0a front with
  | none => exact absurd hnewline (Lines.cutLine_none hcut)
  | some cut =>
      obtain ⟨line, rest⟩ := cut
      have happend := Lines.cutLine_append hcut
      by_cases hshort : line.length < size
      · have hsplit := (Lines.cutLine_some hcut).1
        rw [hsplit] at hcomplete
        refine ⟨line, rest, hcomplete.behind, ?_, ?_⟩
        · rw [TestDrm.fgets, hcut]
          exact if_pos hshort
        · intro more
          rw [TestDrm.fgets, happend more]
          exact if_pos hshort
      · have hlong : size - 1 ≤ front.length := by
          rw [(Lines.cutLine_some hcut).1, List.length_append]
          omega
        refine ⟨front.take (size - 1), front.drop (size - 1), ?_, ?_, ?_⟩
        · rw [← List.take_append_drop (size - 1) front] at hcomplete
          exact hcomplete.behind
        · rw [TestDrm.fgets, hcut]
          exact if_neg hshort
        · intro more
          rw [TestDrm.fgets, happend more, ← List.take_append_of_le_length hlong,
            ← List.drop_append_of_le_length hlong]
          exact if_neg hshort

end Complete

section Read

variable {stream front line rest : Bytes}

theorem readLines_nil (fuel : Nat) : readLines fuel [] = ([], []) := by
  cases fuel <;> rfl

theorem readLines_fuel {fuel fuel' : Nat} (hfuel : stream.length ≤ fuel)
    (hfuel' : stream.length ≤ fuel') : readLines fuel stream = readLines fuel' stream := by
  induction fuel generalizing stream fuel' with
  | zero =>
      have hnil : stream = [] := List.length_eq_zero_iff.mp (Nat.le_zero.mp hfuel)
      rw [hnil, readLines_nil, readLines_nil]
  | succ fuel ih =>
      cases fuel' with
      | zero =>
          have hnil : stream = [] := List.length_eq_zero_iff.mp (Nat.le_zero.mp hfuel')
          rw [hnil, readLines_nil, readLines_nil]
      | succ fuel' =>
          rw [readLines, readLines]
          cases hline : fgets Data.lineSize stream with
          | none => rfl
          | some found =>
              obtain ⟨line, rest⟩ := found
              have hless := fgets_length (by decide) hline
              dsimp only
              rw [ih (by omega) (by omega : rest.length ≤ fuel')]

theorem readStream_nil : readStream [] = ([], []) := rfl

theorem readStream_cons (h : fgets Data.lineSize stream = some (line, rest)) :
    readStream stream = (line :: (readStream rest).1, (readStream rest).2) := by
  have hless := fgets_length (by decide) h
  rw [readStream, readLines_fuel le_rfl (Nat.le_succ stream.length), readLines, h]
  dsimp only
  rw [readStream, readLines_fuel hless.le le_rfl]

/-- What stands behind a complete stream is read as if it stood alone. -/
theorem readStream_append (hfront : Complete front) (back : Bytes) :
    readStream (front ++ back) =
      ((readStream front).1 ++ (readStream back).1, (readStream back).2) := by
  induction hlength : front.length using Nat.strongRecOn generalizing front with
  | ind length ih =>
      by_cases hne : front = []
      · rw [hne, readStream_nil]
        rfl
      · have hsize : 1 < Data.lineSize := by decide
        obtain ⟨line, rest, hrest, hfirst, hmore⟩ := hfront.fgets hne hsize
        have hless := fgets_length (by decide) hfirst
        rw [readStream_cons (hmore back), readStream_cons hfirst,
          ih rest.length (hlength ▸ hless) hrest rfl]
        rfl

/-- Lines that fit are read as they were written. -/
theorem readStream_lines {lines : List Bytes}
    (h : ∀ line ∈ lines, Lines.IsLine 0x0a line ∧ line.length < Data.lineSize) :
    Complete lines.flatten ∧ (readStream lines.flatten).1 = lines := by
  induction lines with
  | nil => exact ⟨Or.inl rfl, rfl⟩
  | cons line lines ih =>
      obtain ⟨hline, hshort⟩ := h line List.mem_cons_self
      obtain ⟨hcomplete, hlines⟩ := ih fun line' hmem => h line' (List.mem_cons_of_mem _ hmem)
      rw [List.flatten_cons]
      refine ⟨(complete_line hline).append hcomplete, ?_⟩
      rw [readStream_cons (fgets_line hline hshort _), hlines]

end Read

end CmaPool.TestDrm
