import CmaPool.Compare.Session

/-! What is on the way between the two programs of a session. -/

namespace CmaPool.Compare

open TestDrm Lifting

section State

variable (data : Data)

theorem makeBuffer_value (p : Ptr) :
    Python.makeBuffer (data.valueOf p) = .ok (shownBuffer data p) := rfl

theorem decode_text {s : String} {parts : List Bytes} (h : parts.flatten = text s) :
    Python.decode parts = .ok s := by
  have hbytes : (text s).toByteArray = s.toByteArray := by
    apply ByteArray.ext
    rw [List.data_toByteArray, text, String.toUTF8_eq_toByteArray, ByteArray.toList, toList_loop_eq]
    simp
  have hvalid : s.toByteArray.IsValidUTF8 := s.isValidUTF8
  rw [Python.decode, h, hbytes, String.fromUTF8?, dif_pos hvalid]
  rfl

theorem decode_dumpLines : Python.decode ((dumpLines data).map text) = .ok (dumpString data) := by
  apply decode_text
  rw [text_dumpString, dumpText, List.flatMap_def]

theorem makeBuffers_values (mru : List Ptr) :
    (mru.map data.valueOf).mapM Python.makeBuffer = .ok (mru.map (shownBuffer data)) := by
  induction mru with
  | nil => rfl
  | cons p mru ih =>
      rw [List.map_cons, List.mapM_cons, makeBuffer_value, ih]
      rfl

theorem readState_dump :
    Python.readState ((dumpLines data).map text) =
      .ok ((data.overflow : Int), data.mruBuffers.map (shownBuffer data)) := by
  have hloads : Python.loads (dumpString data) = .ok (dumpValue data) := by
    rw [Python.loads, dumpString_loads]
    rfl
  have hoverflow : Python.getItem (dumpValue data) "overflow" = .ok (.int data.overflow) := rfl
  have hbuffers : Python.getItem (dumpValue data) "buffers" =
      .ok (.arr (data.mruBuffers.map data.valueOf)) := rfl
  have hint : Python.asInt (.int data.overflow) = .ok (data.overflow : Int) := rfl
  have hlist : Python.asList (.arr (data.mruBuffers.map data.valueOf)) =
      .ok (data.mruBuffers.map data.valueOf) := rfl
  rw [Python.readState, bind_of_ok (decode_dumpLines data), bind_of_ok hloads, bind_of_ok hoverflow,
    bind_of_ok hint, bind_of_ok hbuffers, bind_of_ok hlist,
    bind_of_ok (makeBuffers_values data data.mruBuffers)]
  rfl

end State

/-- The lines that the pending call has read. -/
def Activity.partsRead : Activity → Option (List Bytes)
  | .flushing => some []
  | .reading parts => some parts
  | _ => none

/-- What is on the way to the process and back from it. The commands `behind` have
not been read yet. -/
inductive Traffic (data : Data) :
    (behind : List Python.Command) → Option (List Bytes) → (incoming outgoing : Bytes) → Prop
  | quiet (behind : List Python.Command) : Traffic data behind none (behind.flatMap forwarded) []
  | asked (behind : List Python.Command) :
      Traffic data behind (some []) (behind.flatMap forwarded ++ text "dump\n") []
  | answered (front : List String) {todo : List String} (hlines : dumpLines data = front ++ todo)
      (htodo : todo ≠ []) : Traffic data [] (some (front.map text)) [] (todo.flatMap text)

/-- The process has read the commands `read`, as `data` has without the requests. -/
structure Link (s : Session) (read behind : List Python.Command) (data : Data) : Prop where
  reached : run (read.map forwarded) = .ok data
  twins : Twins [] s.data.stdout data s.data
  traffic : Traffic data behind s.activity.partsRead (s.stdin ++ s.buffered)
    (s.stdout ++ s.data.stdout)

section Process

variable {data data' : Data} {out out' : Bytes}

theorem initData_stdout (h : initData = .ok data) : data.stdout = [] := by
  rw [initData] at h
  cases hinit : Drm.DrmMm.init 0 Drm.poolSize with
  | error bug =>
      rw [hinit] at h
      cases h
  | ok mm =>
      rw [hinit] at h
      cases h
      rfl

theorem twins_nextLine (h : Twins out out' data data') :
    Twins out out' data.nextLine data'.nextLine := { h with }

theorem twins_dumpLines (h : Twins out out' data data') : dumpLines data' = dumpLines data := by
  have hline : data'.lineOf = data.lineOf := by
    funext p
    rw [Data.lineOf, Data.lineOf, h.buf, Data.startOf, Data.startOf, h.mm]
  rw [dumpLines, dumpLines, h.overflow, h.mruBuffers, hline]

/-- A forwarded line on the process and on the run without the requests. -/
theorem twins_forwarded {read : List Python.Command} (hrun : run (read.map forwarded) = .ok data)
    (h : Twins [] out data data') (c : Python.Command) {after : Data}
    (hline : data'.processLine (forwarded c) = .ok after) :
    ∃ data₁, run ((read ++ [c]).map forwarded) = .ok data₁ ∧ Twins [] out data₁ after.nextLine := by
  obtain ⟨command, hmark⟩ := forwarded_marked c
  have hlifted := h.processLine hmark
  rw [hline] at hlifted
  obtain ⟨data₁, hdata₁, htwins⟩ := hlifted.to_ok
  refine ⟨data₁.nextLine, ?_, twins_nextLine htwins⟩
  rw [List.map_append, List.map_singleton, run_concat hrun, hdata₁]
  rfl

theorem fgets_nil : fgets Data.lineSize [] = none := rfl

end Process

section Traffic

variable {data : Data} {behind : List Python.Command} {incoming outgoing : Bytes}

theorem Traffic.of_none (h : Traffic data behind none incoming outgoing) :
    incoming = behind.flatMap forwarded ∧ outgoing = [] := by
  cases h
  exact ⟨rfl, rfl⟩

theorem Traffic.of_some {parts : List Bytes}
    (h : Traffic data behind (some parts) incoming outgoing) :
    (parts = [] ∧ incoming = behind.flatMap forwarded ++ text "dump\n" ∧ outgoing = []) ∨
      ∃ front todo, parts = front.map text ∧ dumpLines data = front ++ todo ∧ todo ≠ [] ∧
        behind = [] ∧ incoming = [] ∧ outgoing = todo.flatMap text := by
  cases h with
  | asked => exact Or.inl ⟨rfl, rfl, rfl⟩
  | answered front hlines htodo => exact Or.inr ⟨front, _, rfl, hlines, htodo, rfl, rfl, rfl⟩

/-- The line of the next command is in front of the rest. -/
theorem Traffic.uncons {c : Python.Command} {waiting : Option (List Bytes)}
    (h : Traffic data (c :: behind) waiting incoming outgoing) :
    ∃ more, incoming = forwarded c ++ more ∧
      ∀ data', Traffic data' behind waiting more outgoing := by
  cases h with
  | quiet => exact ⟨_, List.flatMap_cons, fun data' => .quiet behind⟩
  | asked =>
      refine ⟨_, ?_, fun data' => .asked behind⟩
      rw [List.flatMap_cons, List.append_assoc]

theorem Traffic.caughtUp {waiting : Option (List Bytes)}
    (h : Traffic data [] waiting incoming outgoing) :
    incoming = [] ∨ incoming = text "dump\n" ∧ waiting = some [] ∧ outgoing = [] := by
  cases h with
  | quiet => exact Or.inl rfl
  | asked => exact Or.inr ⟨rfl, rfl, rfl⟩
  | answered => exact Or.inl rfl

/-- The answer to a request is all of the lines. -/
theorem Traffic.dumped (h : outgoing = (dumpLines data).flatMap text) :
    Traffic data [] (some []) [] outgoing := by
  rw [h]
  exact .answered [] rfl (by simp [dumpLines])

end Traffic

section Link

variable {s : Session} {read behind : List Python.Command} {data₀ : Data}

theorem dump_isLine : Lines.IsLine 0x0a (text "dump\n") := text_isLine (s := "dump") (by decide)

theorem dump_short : (text "dump\n").length < Data.lineSize := by
  rw [text_literal (by decide)]
  decide

theorem Link.processLine (h : Link s read behind data₀) (hsend : ∀ c ∈ behind, Sendable c)
    {line stdin : Bytes} {data : Data} (hline : fgets Data.lineSize s.stdin = some (line, stdin))
    (hrun : s.data.processLine line = .ok data) :
    ∃ read' behind' data₁, read' ++ behind' = read ++ behind ∧
      Link { s with stdin, data := data.nextLine } read' behind' data₁ := by
  cases behind with
  | cons c behind =>
      have hc := hsend c List.mem_cons_self
      obtain ⟨more, hin, htraffic⟩ := h.traffic.uncons
      obtain ⟨rfl, hrest⟩ := fgets_first hc.isLine hc.short hin hline
      obtain ⟨data₁, hrun₁, htwins⟩ := twins_forwarded h.reached h.twins c hrun
      have hstdout : data.stdout = s.data.stdout := htwins.stdout'
      refine ⟨read ++ [c], behind, data₁, by simp, hrun₁, { htwins with stdout' := rfl }, ?_⟩
      change Traffic data₁ behind s.activity.partsRead (stdin ++ s.buffered) (s.stdout ++ data.stdout)
      rw [hrest, hstdout]
      exact htraffic data₁
  | nil =>
      rcases h.traffic.caughtUp with hin | ⟨hin, hwaiting, hout⟩
      · obtain ⟨hstdin, _⟩ := List.append_eq_nil_iff.mp hin
        rw [hstdin, fgets_nil] at hline
        cases hline
      · rw [← List.append_nil (text "dump\n")] at hin
        obtain ⟨rfl, hrest⟩ := fgets_first dump_isLine dump_short hin hline
        rw [processLine_dump] at hrun
        cases hrun
        obtain ⟨hstdout, hprinted⟩ := List.append_eq_nil_iff.mp hout
        refine ⟨read, [], data₀, rfl, h.reached, ?_, ?_⟩
        · exact { h.twins with stdout' := rfl }
        · change Traffic data₀ [] s.activity.partsRead (stdin ++ s.buffered)
            (s.stdout ++ s.data.dumpData.stdout)
          rw [hwaiting, hrest]
          apply Traffic.dumped
          rw [dumpData_eq, hstdout, hprinted, dumpText, twins_dumpLines h.twins]
          rfl

theorem Link.write (h : Link s read behind data₀) (count : Nat) :
    Link { s with
      buffered := s.buffered.drop count
      stdin := s.stdin ++ s.buffered.take count } read behind data₀ := by
  have htraffic := h.traffic
  rw [← List.take_append_drop count s.buffered, ← List.append_assoc] at htraffic
  exact { h with traffic := htraffic }

theorem Link.print (h : Link s read behind data₀) (count : Nat) :
    Link { s with
      data := { s.data with stdout := s.data.stdout.drop count }
      stdout := s.stdout ++ s.data.stdout.take count } read behind data₀ := by
  have htraffic := h.traffic
  rw [← List.take_append_drop count s.data.stdout, ← List.append_assoc] at htraffic
  exact { h with twins := { h.twins with stdout' := rfl }, traffic := htraffic }

theorem Link.processCommand (h : Link s read behind data₀) (hidle : s.activity = .idle)
    (c : Python.Command) (calls : List Call) (pool : Python.ProcPool) :
    Link { s with calls, pool, buffered := s.buffered ++ forwarded c } read (behind ++ [c])
      data₀ := by
  have htraffic := h.traffic
  rw [hidle] at htraffic
  obtain ⟨hin, hout⟩ := htraffic.of_none
  refine { h with traffic := ?_ }
  change Traffic data₀ (behind ++ [c]) s.activity.partsRead (s.stdin ++ (s.buffered ++ forwarded c))
    (s.stdout ++ s.data.stdout)
  have hsent : behind.flatMap forwarded ++ forwarded c = (behind ++ [c]).flatMap forwarded := by
    simp
  rw [hidle, hout, ← List.append_assoc, hin, hsent]
  exact .quiet (behind ++ [c])

theorem Link.request (h : Link s read behind data₀) (hidle : s.activity = .idle)
    (calls : List Call) :
    Link { s with calls, activity := .flushing, buffered := s.buffered ++ text "dump\n" } read behind
      data₀ := by
  have htraffic := h.traffic
  rw [hidle] at htraffic
  obtain ⟨hin, hout⟩ := htraffic.of_none
  refine { h with traffic := ?_ }
  change Traffic data₀ behind (some []) (s.stdin ++ (s.buffered ++ text "dump\n"))
    (s.stdout ++ s.data.stdout)
  rw [hout, ← List.append_assoc, hin]
  exact .asked behind

/-- The next line of an answer. -/
theorem Link.readLine (h : Link s read behind data₀) {parts : List Bytes}
    (hreading : s.activity = .reading parts) {line stdout : Bytes}
    (hline : Python.readLine s.stdout = some (line, stdout)) :
    ∃ front first todo, parts = front.map text ∧ dumpLines data₀ = front ++ first :: todo ∧
      line = text first ∧ behind = [] ∧ s.stdin ++ s.buffered = [] ∧
      stdout ++ s.data.stdout = todo.flatMap text := by
  have htraffic := h.traffic
  rw [hreading] at htraffic
  rcases htraffic.of_some with ⟨_, _, hout⟩ | ⟨front, todo, hparts, hlines, htodo, hbehind, hin, hout⟩
  · obtain ⟨hstdout, _⟩ := List.append_eq_nil_iff.mp hout
    rw [hstdout] at hline
    cases hline
  · obtain ⟨first, todo, rfl⟩ := List.exists_cons_of_ne_nil htodo
    have hfirst : Lines.IsLine 0x0a (text first) := dumpLines_isLine data₀ (by simp [hlines])
    rw [List.flatMap_cons] at hout
    obtain ⟨hline, hrest⟩ := Lines.cutLine_first hfirst hout hline
    exact ⟨front, first, todo, hparts, hlines, hline, hbehind, hin, hrest⟩

theorem closes_iff {front todo : List String} {line : String}
    (hlines : dumpLines data₀ = front ++ line :: todo) :
    Python.closes (text line) = true ↔ todo = [] := by
  obtain ⟨before, hsplit, hopen⟩ := dumpLines_last data₀
  have hdrop : (front ++ line :: todo).dropLast = before := by
    rw [← hlines, hsplit, List.dropLast_concat]
  have hlast : (front ++ line :: todo).getLast? = some "\x7d\n" := by
    rw [← hlines, hsplit, List.getLast?_concat]
  rw [Python.closes, decide_eq_true_iff]
  constructor
  · intro hcloses
    by_contra htodo
    apply hopen line _ hcloses
    rw [← hdrop, List.dropLast_append_of_ne_nil (List.cons_ne_nil line todo),
      List.dropLast_cons_of_ne_nil htodo]
    simp
  · rintro rfl
    rw [List.getLast?_concat] at hlast
    rw [Option.some.inj hlast, text_literal (by decide)]
    rfl

end Link

end CmaPool.Compare
