import CmaPool.Lib.Json
import CmaPool.TestDrm.Printing
import CmaPool.TestDrm.Reading

/-! What `dump_data` prints: the lines of it, and the JSON value that they are. -/

namespace CmaPool.TestDrm

open Drm

section Text

/-- The bytes of characters. -/
def encode (chars : List Char) : Bytes := chars.flatMap String.utf8EncodeChar

theorem encode_append (chars chars' : List Char) :
    encode (chars ++ chars') = encode chars ++ encode chars' := List.flatMap_append

theorem text_ofList (chars : List Char) : text (String.ofList chars) = encode chars := by
  rw [text_eq, String.toList_ofList, encode]

end Text

section Buffer

variable (buf : Buffer) (start : Nat)

/-- The line of a buffer, without its end. -/
def bufferLine : String :=
  "      \x7b \"name\": " ++ toString buf.name ++ ", \"size\": " ++ toString buf.size ++
    ", \"unmoveable\": " ++ Data.boolStr buf.unmoveable ++ ", \"in_use\": " ++
    Data.boolStr buf.inUse ++ ", \"madv\": \"" ++ Data.madvStr buf.madv ++ "\", \"offset\": " ++
    toString start ++ " \x7d"

/-- The object on it. -/
def bufferValue : Json.Value :=
  .obj [("name", .int buf.name), ("size", .int buf.size), ("unmoveable", .bool buf.unmoveable),
    ("in_use", .bool buf.inUse), ("madv", .str (Data.madvStr buf.madv)), ("offset", .int start)]

theorem toString_toList (n : Nat) : (toString n).toList = Nat.toDigits 10 n := by
  rw [Nat.toString_eq_ofList_toDigits, String.toList_ofList]

theorem reads_bool (value : Bool) {chars : List Char} {tokens : List Json.Token}
    (hend : Json.EndsWord chars) (h : Json.Reads chars tokens) :
    Json.Reads ((Data.boolStr value).toList ++ chars) (.name (.bool value) :: tokens) := by
  have hword : (Data.boolStr value).toList ≠ [] ∧
      (∀ c ∈ (Data.boolStr value).toList, Json.WordChar c) ∧
      Json.wordOf (Data.boolStr value).toList = some (.bool value) := by
    cases value <;> simp [Data.boolStr, Json.WordChar, Json.punctuation, Json.wordOf]
  exact .word hword.1 hword.2.1 hword.2.2 hend h

theorem bufferLine_reads :
    Json.Reads (bufferLine buf start).toList (bufferValue buf start).spell := by
  have hname : Json.Reads "      \x7b \"name\": ".toList [.objOpen, .str "name", .colon] :=
    fun _ => rfl
  have hsize : Json.Reads ", \"size\": ".toList [.comma, .str "size", .colon] := fun _ => rfl
  have hunmoveable : Json.Reads ", \"unmoveable\": ".toList [.comma, .str "unmoveable", .colon] :=
    fun _ => rfl
  have hinUse : Json.Reads ", \"in_use\": ".toList [.comma, .str "in_use", .colon] := fun _ => rfl
  have hmadv : Json.Reads
      (", \"madv\": \"".toList ++ ((Data.madvStr buf.madv).toList ++ "\", \"offset\": ".toList))
      [.comma, .str "madv", .colon, .str (Data.madvStr buf.madv), .comma, .str "offset",
        .colon] := by
    intro front
    cases buf.madv <;> rfl
  have hclose : Json.Reads " \x7d".toList [.objClose] := fun _ => rfl
  have hsizeEnd : Json.EndsWord ", \"size\": ".toList := rfl
  have hunmoveableEnd : Json.EndsWord ", \"unmoveable\": ".toList := rfl
  have hinUseEnd : Json.EndsWord ", \"in_use\": ".toList := rfl
  have hmadvEnd : Json.EndsWord ", \"madv\": \"".toList := rfl
  have hcloseEnd : Json.EndsWord " \x7d".toList := rfl
  delta bufferLine
  simp only [bufferValue, Json.Value.spell, Json.spellMembers, String.toList_append,
    toString_toList, List.append_assoc]
  have hoffset := hmadv.append (.natural start hcloseEnd hclose)
  rw [List.append_assoc, List.append_assoc] at hoffset
  have hflags := hunmoveable.append (reads_bool buf.unmoveable (hinUseEnd.append _)
    (hinUse.append (reads_bool buf.inUse (hmadvEnd.append _) hoffset)))
  exact hname.append (.natural buf.name (hsizeEnd.append _)
    (hsize.append (.natural buf.size (hunmoveableEnd.append _) hflags)))

theorem bufferLine_front : ∃ rest, bufferLine buf start = "      \x7b \"name\": " ++ rest := by
  delta bufferLine
  simp only [String.append_assoc]
  exact ⟨_, rfl⟩

theorem newline_not_mem_digits (n : Nat) : '\n' ∉ Nat.toDigits 10 n := by
  intro hmem
  exact absurd (Nat.isDigit_of_mem_toDigits (by decide) (by decide) hmem) (by decide)

theorem bufferLine_free : '\n' ∉ (bufferLine buf start).toList := by
  have hbool : ∀ value, '\n' ∉ (Data.boolStr value).toList := by
    intro value
    cases value <;> decide
  have hmadv : '\n' ∉ (Data.madvStr buf.madv).toList := by
    cases buf.madv <;> decide
  delta bufferLine
  simp [hbool, hmadv, newline_not_mem_digits]

end Buffer

variable (data : Data)

def Data.lineOf (p : Ptr) : String := bufferLine (data.buf p) (data.startOf p)

theorem dumpBuffer_eq (p : Ptr) : data.dumpBuffer p = text ("\n" ++ data.lineOf p) := by
  have hfront : text "\n      \x7b \"name\": " =
      text "\n" ++ text "      \x7b \"name\": " := by
    rw [← text_append]
    rfl
  rw [Data.lineOf]
  delta Data.dumpBuffer bufferLine
  simp only [hfront, decimal, text_append, List.append_assoc]
  rfl

section Lines

/-- The lines of the buffers; all but the last end in a comma. -/
def bufferLines : List String → List String
  | [] => []
  | [line] => [line ++ "\n"]
  | line :: lines => (line ++ ",\n") :: bufferLines lines

theorem intercalate_bufferLines (lines : List String) :
    (text ",").intercalate (lines.map fun line => text ("\n" ++ line)) ++ text "\n" =
      text "\n" ++ ((bufferLines lines).map text).flatten := by
  induction lines with
  | nil => simp [bufferLines]
  | cons line lines ih =>
      cases lines with
      | nil => simp [bufferLines, text_append]
      | cons line' lines =>
          have hcomma : text ",\n" = text "," ++ text "\n" := by
            rw [← text_append]
            rfl
          have hlines : bufferLines (line :: line' :: lines) =
              (line ++ ",\n") :: bufferLines (line' :: lines) := rfl
          rw [List.map_cons] at ih
          rw [List.map_cons, List.map_cons, List.intercalate_cons_cons, List.append_assoc, ih,
            hlines, List.map_cons, List.flatten_cons]
          simp only [text_append, hcomma, List.append_assoc]

/-- The lines that `dump_data` prints. -/
def dumpLines : List String :=
  ["\x7b\n", "   \"overflow\": " ++ toString data.overflow ++ "," ++ "\n",
    "   \"buffers\": [\n"] ++ bufferLines (data.mruBuffers.map data.lineOf) ++ ["   ]\n", "\x7d\n"]

def dumpText : Bytes := (dumpLines data).flatMap text

theorem dumpData_eq : data.dumpData = { data with stdout := data.stdout ++ dumpText data } := by
  have hopen : text "\x7b\n   \"overflow\": " = text "\x7b\n" ++ text "   \"overflow\": " := by
    rw [← text_append]
    rfl
  have hbuffers : text ",\n   \"buffers\": [" ++ text "\n" =
      text "," ++ text "\n" ++ text "   \"buffers\": [\n" := by
    rw [← text_append, ← text_append, ← text_append]
    rfl
  have hclose : text "\n   ]\n\x7d\n" = text "\n" ++ (text "   ]\n" ++ text "\x7d\n") := by
    rw [← text_append, ← text_append]
    rfl
  have hmap : data.mruBuffers.map data.dumpBuffer =
      (data.mruBuffers.map data.lineOf).map fun line => text ("\n" ++ line) := by
    rw [List.map_map]
    exact List.map_congr_left fun p _ => dumpBuffer_eq data p
  have htext : dumpText data = text "\x7b\n   \"overflow\": " ++ (decimal data.overflow ++
      (text ",\n   \"buffers\": [" ++ ((text ",").intercalate
        (data.mruBuffers.map data.dumpBuffer) ++ text "\n   ]\n\x7d\n"))) := by
    calc
      _ = text "\x7b\n" ++ (text "   \"overflow\": " ++ (decimal data.overflow ++
          (text ",\n   \"buffers\": [" ++ text "\n" ++
            (((bufferLines (data.mruBuffers.map data.lineOf)).map text).flatten ++
              (text "   ]\n" ++ text "\x7d\n"))))) := by
        rw [hbuffers]
        simp [dumpText, dumpLines, text_append, decimal, List.flatMap_def]
      _ = _ := by
        rw [hmap, hclose, hopen]
        simp only [List.append_assoc]
        rw [← List.append_assoc (List.intercalate _ _), intercalate_bufferLines,
          List.append_assoc]
  delta Data.dumpData
  simp only [htext, List.append_assoc]

theorem mem_bufferLines {lines : List String} {line : String} (h : line ∈ bufferLines lines) :
    ∃ body ∈ lines, line = body ++ "\n" ∨ line = body ++ ",\n" := by
  induction lines with
  | nil => cases h
  | cons body lines ih =>
      cases lines with
      | nil =>
          rw [bufferLines, List.mem_singleton] at h
          exact ⟨body, List.mem_cons_self, Or.inl h⟩
      | cons body' lines =>
          have hlines : bufferLines (body :: body' :: lines) =
              (body ++ ",\n") :: bufferLines (body' :: lines) := rfl
          rw [hlines, List.mem_cons] at h
          rcases h with h | h
          · exact ⟨body, List.mem_cons_self, Or.inr h⟩
          · obtain ⟨body'', hbody, hline⟩ := ih h
            exact ⟨body'', List.mem_cons_of_mem _ hbody, hline⟩

theorem dumpLines_isLine {line : String} (h : line ∈ dumpLines data) :
    Lines.IsLine 0x0a (text line) := by
  simp only [dumpLines, List.mem_append, List.mem_cons, List.not_mem_nil, or_false] at h
  rcases h with ((rfl | rfl | rfl) | h) | rfl | rfl
  · exact text_isLine (s := "\x7b") (by decide)
  · apply text_isLine
    simp [newline_not_mem_digits]
  · exact text_isLine (s := "   \"buffers\": [") (by decide)
  · obtain ⟨body, hbody, hline⟩ := mem_bufferLines h
    obtain ⟨p, _, rfl⟩ := List.mem_map.mp hbody
    have hfree := bufferLine_free (data.buf p) (data.startOf p)
    rcases hline with rfl | rfl
    · exact text_isLine hfree
    · have hcomma : data.lineOf p ++ ",\n" = data.lineOf p ++ "," ++ "\n" := by
        rw [String.append_assoc]
        rfl
      rw [hcomma]
      apply text_isLine
      rw [String.toList_append, List.mem_append]
      rintro (hmem | hmem)
      · exact hfree hmem
      · exact absurd hmem (by decide)
  · exact text_isLine (s := "   ]") (by decide)
  · exact text_isLine (s := "\x7d") (by decide)

/-- Only the last line starts with a closing brace. -/
theorem dumpLines_last : ∃ front, dumpLines data = front ++ ["\x7d\n"] ∧
    ∀ line ∈ front, (text line).head? ≠ some 0x7d := by
  have hfirst : ∀ {line : String} {c : Char} {chars : List Char}, line.toList = c :: chars →
      c.toNat < 0x80 → byte c ≠ 0x7d → (text line).head? ≠ some 0x7d := by
    intro line c chars hline hascii hne
    rw [text_eq, hline, List.flatMap_cons, utf8EncodeChar_ascii hascii]
    exact fun heq => hne (Option.some.inj heq)
  refine ⟨["\x7b\n", "   \"overflow\": " ++ toString data.overflow ++ "," ++ "\n",
    "   \"buffers\": [\n"] ++ bufferLines (data.mruBuffers.map data.lineOf) ++ ["   ]\n"],
    by simp [dumpLines], ?_⟩
  intro line h
  simp only [List.mem_append, List.mem_cons, List.not_mem_nil, or_false] at h
  rcases h with ((rfl | rfl | rfl) | h) | rfl
  · exact hfirst rfl (by decide) (by decide)
  · rw [String.append_assoc, String.append_assoc]
    exact hfirst (String.toList_append ..) (by decide) (by decide)
  · exact hfirst rfl (by decide) (by decide)
  · obtain ⟨body, hbody, hline⟩ := mem_bufferLines h
    obtain ⟨p, _, rfl⟩ := List.mem_map.mp hbody
    obtain ⟨rest, hrest⟩ := bufferLine_front (data.buf p) (data.startOf p)
    rw [Data.lineOf, hrest] at hline
    rcases hline with rfl | rfl
    · rw [String.append_assoc]
      exact hfirst (String.toList_append ..) (by decide) (by decide)
    · rw [String.append_assoc]
      exact hfirst (String.toList_append ..) (by decide) (by decide)
  · exact hfirst rfl (by decide) (by decide)

end Lines

section Value

def Data.valueOf (p : Ptr) : Json.Value := bufferValue (data.buf p) (data.startOf p)

/-- The object that the lines are. -/
def dumpValue : Json.Value :=
  .obj [("overflow", .int data.overflow), ("buffers", .arr (data.mruBuffers.map data.valueOf))]

def dumpString : String := String.ofList ((dumpLines data).flatMap String.toList)

theorem text_dumpString : text (dumpString data) = dumpText data := by
  have htext : text = fun s => s.toList.flatMap String.utf8EncodeChar := funext text_eq
  rw [dumpString, text_eq, String.toList_ofList, dumpText, List.flatMap_assoc, htext]

/-- The lines of the buffers from one on, with the end of the array. -/
theorem bufferLines_reads (p : Ptr) (mru : List Ptr) :
    Json.Reads
      ((bufferLines (data.lineOf p :: mru.map data.lineOf)).flatMap String.toList ++
        "   ]\n".toList)
      ((data.valueOf p).spell ++ Json.spellItems (mru.map data.valueOf)) := by
  have hline : ∀ q, Json.Reads (data.lineOf q).toList (data.valueOf q).spell :=
    fun q => bufferLine_reads (data.buf q) (data.startOf q)
  induction mru generalizing p with
  | nil =>
      have hclose : Json.Reads ("\n".toList ++ "   ]\n".toList) [.arrClose] := fun _ => rfl
      have hread := (hline p).append hclose
      rw [List.map_nil, List.map_nil, Json.spellItems]
      simpa only [bufferLines, List.flatMap_cons, List.flatMap_nil, String.toList_append,
        List.append_nil, List.append_assoc] using hread
  | cons q mru ih =>
      have hcomma : Json.Reads ",\n".toList [.comma] := fun _ => rfl
      have hread := (hline p).append (hcomma.append (ih q))
      have hlines : bufferLines (data.lineOf p :: (q :: mru).map data.lineOf) =
          (data.lineOf p ++ ",\n") :: bufferLines (data.lineOf q :: mru.map data.lineOf) := rfl
      rw [hlines, List.map_cons, Json.spellItems]
      simpa only [List.flatMap_cons, String.toList_append, List.append_assoc, List.cons_append,
        List.nil_append] using hread

theorem dumpString_reads : Json.Reads (dumpString data).toList (dumpValue data).spell := by
  have hoverflow : Json.Reads ("\x7b\n".toList ++ "   \"overflow\": ".toList)
      [.objOpen, .str "overflow", .colon] := fun _ => rfl
  have hbuffers : Json.Reads (",".toList ++ ("\n".toList ++ "   \"buffers\": [\n".toList))
      [.comma, .str "buffers", .colon, .arrOpen] := fun _ => rfl
  have hcomma : Json.EndsWord (",".toList ++ ("\n".toList ++ "   \"buffers\": [\n".toList)) := rfl
  have hclose : Json.Reads "\x7d\n".toList [.objClose] := fun _ => rfl
  obtain ⟨items, hspell, harray⟩ : ∃ items,
      (Json.Value.arr (data.mruBuffers.map data.valueOf)).spell = .arrOpen :: items ∧
      Json.Reads ((bufferLines (data.mruBuffers.map data.lineOf)).flatMap String.toList ++
        "   ]\n".toList) items := by
    cases data.mruBuffers with
    | nil => exact ⟨[.arrClose], by rw [List.map_nil, Json.Value.spell], fun _ => rfl⟩
    | cons p mru => exact ⟨_, by rw [List.map_cons, Json.Value.spell]; rfl,
        bufferLines_reads data p mru⟩
  have hrest := hbuffers.append (harray.append hclose)
  have hnumber := Json.Reads.natural data.overflow (hcomma.append _) hrest
  have hread := hoverflow.append hnumber
  have hvalue : (dumpValue data).spell = ([.objOpen, .str "overflow", .colon] : List Json.Token) ++
      (Json.Token.name (.int data.overflow) ::
        (([.comma, .str "buffers", .colon, .arrOpen] : List Json.Token) ++
          (items ++ [Json.Token.objClose]))) := by
    simp [dumpValue, Json.Value.spell, Json.spellMembers, hspell]
  have hchars : (dumpString data).toList =
      ("\x7b\n".toList ++ "   \"overflow\": ".toList) ++ (Nat.toDigits 10 data.overflow ++
        ((",".toList ++ ("\n".toList ++ "   \"buffers\": [\n".toList)) ++
          (((bufferLines (data.mruBuffers.map data.lineOf)).flatMap String.toList ++
            "   ]\n".toList) ++ "\x7d\n".toList))) := by
    simp only [dumpString, String.toList_ofList, dumpLines, List.flatMap_append,
      List.flatMap_cons, List.flatMap_nil, String.toList_append, toString_toList,
      List.append_assoc, List.append_nil]
  rw [hvalue, hchars]
  exact hread

theorem dumpString_loads : Json.loads (dumpString data) = some (dumpValue data) :=
  Json.loads_eq (dumpString_reads data)

end Value

end CmaPool.TestDrm
