import CmaPool.Lib.Lifting
import CmaPool.TestDrm.Reading

/-! What the program prints is never read back.

Two runs that differ in the line number and in what was printed so far stay
apart in nothing else, and a command prints nothing on `stdout`. -/

namespace CmaPool.TestDrm

open Drm Lifting

/-- The same data but for the line number and `stderr`, with `out` and `out'`
printed on `stdout`. -/
structure Twins (out out' : Bytes) (data data' : Data) : Prop where
  stdout : data.stdout = out
  stdout' : data'.stdout = out'
  buf : data'.buf = data.buf
  nextPtr : data'.nextPtr = data.nextPtr
  allBuffers : data'.allBuffers = data.allBuffers
  mruBuffers : data'.mruBuffers = data.mruBuffers
  mm : data'.mm = data.mm
  overflow : data'.overflow = data.overflow

section Twins

variable {out out' : Bytes} {data data' : Data}

theorem Twins.refl (data : Data) : Twins data.stdout data.stdout data data :=
  ⟨rfl, rfl, rfl, rfl, rfl, rfl, rfl, rfl⟩

theorem Twins.eprint (h : Twins out out' data data') (message message' : Bytes) :
    Twins out out' (data.eprint message) (data'.eprint message') :=
  { h with }

theorem Twins.setBuf (h : Twins out out' data data') (p : Ptr) (value : Buffer) :
    Twins out out' (data.setBuf p value) (data'.setBuf p value) :=
  { h with buf := by rw [Data.setBuf, Data.setBuf, h.buf] }

theorem Twins.removeBufferFromPool (h : Twins out out' data data') (p : Ptr) :
    Lifted (Twins out out') (data.removeBufferFromPool p) (data'.removeBufferFromPool p) := by
  rw [Data.removeBufferFromPool, Data.removeBufferFromPool, h.mm, h.mruBuffers, h.buf, h.overflow]
  apply Lifted.bind_same
  intro mm
  apply Lifted.bind_same
  intro mruBuffers
  exact .pure { h with buf := rfl, mm := rfl, mruBuffers := rfl, overflow := rfl }

/-- The end of `free_buffer`. -/
def Data.unlist (data : Data) (p : Ptr) : Except Bug Data := do
  let allBuffers ← eraseEntry data.allBuffers p
  return { data with allBuffers, overflow := sub64 data.overflow (data.buf p).size }

theorem Twins.freeBuffer (h : Twins out out' data data') (p : Ptr) :
    Lifted (Twins out out') (data.freeBuffer p) (data'.freeBuffer p) := by
  have hlist : ∀ data data', Twins out out' data data' → Lifted (Twins out out')
      (data.unlist p) (data'.unlist p) := by
    intro data data' h
    rw [Data.unlist, Data.unlist, h.allBuffers, h.overflow, h.buf]
    apply Lifted.bind_same
    intro allBuffers
    exact .pure { h with buf := rfl, allBuffers := rfl, overflow := rfl }
  rw [Data.freeBuffer, Data.freeBuffer, h.buf]
  exact .ite (fun _ => (h.removeBufferFromPool p).bind hlist) fun _ => hlist _ _ h

/-- A value beside the data is the same on both sides. -/
def TwinsWith {α : Type} (out out' : Bytes) (a a' : α × Data) : Prop :=
  a.1 = a'.1 ∧ Twins out out' a.2 a'.2

theorem Twins.scanForEviction (h : Twins out out' data data') (scan : DrmMmScan)
    (evictionList lru : List Ptr) :
    Lifted (fun a a' => a.1 = a'.1 ∧ a.2.1 = a'.2.1 ∧ TwinsWith out out' a.2.2 a'.2.2)
      (data.scanForEviction scan evictionList lru)
      (data'.scanForEviction scan evictionList lru) := by
  induction lru generalizing data data' scan evictionList with
  | nil => exact .pure ⟨rfl, rfl, rfl, h⟩
  | cons p lru ih =>
      have hbuf : data'.buf p = data.buf p := congrFun h.buf p
      rw [Data.scanForEviction, Data.scanForEviction, hbuf, h.mm]
      apply Lifted.ite
      · intro _
        exact ih h scan evictionList
      · intro _
        apply Lifted.bind_same
        rintro ⟨found, scan, mm⟩
        have hmm : Twins out out' { data with mm } { data' with mm } := { h with mm := rfl }
        exact .ite (fun _ => .pure ⟨rfl, rfl, rfl, hmm⟩) fun _ => ih hmm scan (p :: evictionList)

theorem Twins.removeFromRoster (h : Twins out out' data data') (scan : DrmMmScan)
    (evictionList : List Ptr) :
    Lifted (Twins out out') (data.removeFromRoster scan evictionList)
      (data'.removeFromRoster scan evictionList) := by
  induction evictionList generalizing data data' with
  | nil => exact .pure h
  | cons p evictionList ih =>
      rw [Data.removeFromRoster, Data.removeFromRoster, h.mm]
      apply Lifted.bind_same
      rintro ⟨ret, mm⟩
      apply Lifted.bind_same
      intro _
      exact ih { h with mm := rfl }

theorem Twins.chooseEvicted (h : Twins out out' data data') (scan : DrmMmScan)
    (evictionList : List Ptr) :
    Lifted (TwinsWith out out') (data.chooseEvicted scan evictionList)
      (data'.chooseEvicted scan evictionList) := by
  induction evictionList generalizing data data' with
  | nil => exact .pure ⟨rfl, h⟩
  | cons p evictionList ih =>
      rw [Data.chooseEvicted, Data.chooseEvicted, h.mm]
      apply Lifted.bind_same
      rintro ⟨evict, mm⟩
      have hmm : Twins out out' { data with mm } { data' with mm } := { h with mm := rfl }
      apply (ih hmm).bind
      rintro ⟨evicted, data⟩ ⟨evicted', data'⟩ ⟨rfl, h⟩
      exact .pure ⟨rfl, h⟩

theorem Twins.pageOutBuffersForInsertion (h : Twins out out' data data') (size : Nat) :
    Lifted (TwinsWith out out') (data.pageOutBuffersForInsertion size)
      (data'.pageOutBuffersForInsertion size) := by
  rw [Data.pageOutBuffersForInsertion, Data.pageOutBuffersForInsertion, h.mm, h.mruBuffers]
  apply Lifted.bind_same
  intro scan
  apply (h.scanForEviction scan [] data.mruBuffers.reverse).bind
  rintro ⟨found, scan, evictionList, data⟩ ⟨_, _, _, data'⟩ ⟨rfl, rfl, rfl, h⟩
  apply Lifted.ite
  · intro _
    apply (h.chooseEvicted scan evictionList).bind
    rintro ⟨evicted, data⟩ ⟨_, data'⟩ ⟨rfl, h⟩
    apply (Lifted.foldlM (fun data data' h p => h.removeBufferFromPool p) evicted h).bind
    intro data data' h
    exact .pure ⟨rfl, h⟩
  · intro _
    apply (h.removeFromRoster scan evictionList).bind
    intro data data' h
    exact .pure ⟨rfl, h⟩

theorem Twins.userspaceCachePurge (h : Twins out out' data data') :
    Lifted (Twins out out') data.userspaceCachePurge data'.userspaceCachePurge := by
  rw [Data.userspaceCachePurge, Data.userspaceCachePurge, h.mruBuffers]
  refine Lifted.foldlM ?_ data.mruBuffers h
  intro data data' h p
  rw [h.buf]
  exact .ite (fun _ => h.removeBufferFromPool p) fun _ => .pure h

theorem Twins.insertBufferInCmaPool (h : Twins out out' data data') (p : Ptr) (mode : InsertMode) :
    Lifted (TwinsWith out out') (data.insertBufferInCmaPool p mode)
      (data'.insertBufferInCmaPool p mode) := by
  rw [Data.insertBufferInCmaPool, Data.insertBufferInCmaPool, h.mm, h.buf, h.mruBuffers,
    h.overflow]
  apply Lifted.bind_same
  rintro ⟨ret, mm⟩
  apply Lifted.ite
  · intro _
    exact .pure ⟨rfl, { h with buf := rfl, mm := rfl, mruBuffers := rfl, overflow := rfl }⟩
  · intro _
    exact .pure ⟨rfl, { h with buf := rfl, mm := rfl, mruBuffers := rfl, overflow := rfl }⟩

theorem Twins.evictAndInsert (h : Twins out out' data data') (p : Ptr) :
    Lifted (TwinsWith out out') (data.evictAndInsert p) (data'.evictAndInsert p) := by
  have hreport : ∀ (inserted : Bool) {data data' : Data}, Twins out out' data data' →
      Lifted (ε := Bug) (TwinsWith out out')
        (if inserted then pure (true, data)
          else pure (false, data.eprint (Data.noInsertionPoint (data.buf p).size)))
        (if inserted then pure (true, data')
          else pure (false, data'.eprint (Data.noInsertionPoint (data'.buf p).size))) := by
    intro inserted data data' h
    exact .ite (fun _ => .pure ⟨rfl, h⟩) fun _ => .pure ⟨rfl, h.eprint _ _⟩
  rw [Data.evictAndInsert, Data.evictAndInsert, h.buf]
  apply (h.pageOutBuffersForInsertion _).bind
  rintro ⟨found, data⟩ ⟨_, data'⟩ ⟨rfl, h⟩
  apply Lifted.ite
  · intro _
    apply (h.insertBufferInCmaPool p .evict).bind
    rintro ⟨inserted, data⟩ ⟨_, data'⟩ ⟨rfl, h⟩
    exact hreport inserted h
  · intro _
    exact hreport false h

theorem Twins.pageInBuffer (h : Twins out out' data data') (p : Ptr) :
    Lifted (TwinsWith out out') (data.pageInBuffer p) (data'.pageInBuffer p) := by
  rw [Data.pageInBuffer, Data.pageInBuffer]
  apply (h.insertBufferInCmaPool p .best).bind
  rintro ⟨inserted, data⟩ ⟨_, data'⟩ ⟨rfl, h⟩
  apply Lifted.ite
  · intro _
    exact .pure ⟨rfl, h⟩
  · intro _
    apply h.userspaceCachePurge.bind
    intro data data' h
    apply (h.insertBufferInCmaPool p .best).bind
    rintro ⟨inserted, data⟩ ⟨_, data'⟩ ⟨rfl, h⟩
    exact .ite (fun _ => .pure ⟨rfl, h⟩) fun _ => h.evictAndInsert p

theorem Twins.findBuffer (h : Twins out out' data data') (name : Nat) :
    data'.findBuffer name = data.findBuffer name := by
  rw [Data.findBuffer, Data.findBuffer, h.allBuffers, h.buf]

theorem Twins.withBuffer (h : Twins out out' data data') (name : Nat) (args : Bytes)
    {f f' : Ptr → Except Bug Data} (hrun : ∀ p, Lifted (Twins out out') (f p) (f' p)) :
    Lifted (Twins out out') (data.withBuffer name args f) (data'.withBuffer name args f') := by
  rw [Data.withBuffer, Data.withBuffer, h.findBuffer name]
  apply Lifted.ite
  · intro _
    exact .pure (h.eprint _ _)
  · intro _
    cases data.findBuffer name with
    | none => exact .pure (h.eprint _ _)
    | some p => exact hrun p

/-- The two handlers of the use count. -/
theorem Twins.setInUse (h : Twins out out' data data') (p : Ptr) (inUse : Bool)
    (message message' : Bytes) (reported : Bool) :
    Twins out out'
      ((if reported then data.eprint message else data).setBuf p
        { (if reported then data.eprint message else data).buf p with inUse })
      ((if reported then data'.eprint message' else data').setBuf p
        { (if reported then data'.eprint message' else data').buf p with inUse }) := by
  cases reported
  · simp only [Bool.false_eq_true, if_false, h.buf]
    exact h.setBuf p _
  · have h := h.eprint message message'
    simp only [if_true, h.buf]
    exact h.setBuf p _

theorem Twins.register (h : Twins out out' data data') (buf : Buffer) :
    Twins out out' (data.register buf) (data'.register buf) := by
  rw [Data.register, Data.register, h.nextPtr, h.allBuffers, h.mm, h.overflow]
  exact { h with
    nextPtr := rfl, allBuffers := rfl, mm := rfl, overflow := rfl
    buf := by rw [Data.setBuf, Data.setBuf, h.buf] }

theorem Twins.bufCreate (h : Twins out out' data data') (name : Nat) (args : Bytes) :
    Lifted (Twins out out') (data.bufCreate name args) (data'.bufCreate name args) := by
  rw [Data.bufCreate, Data.bufCreate, h.findBuffer name]
  cases data.findBuffer name with
  | some p => exact .pure (h.eprint _ _)
  | none =>
      cases scanSize args with
      | none => exact .pure (h.eprint _ _)
      | some found =>
          rw [h.nextPtr]
          apply ((h.register _).pageInBuffer data.nextPtr).bind
          rintro ⟨ret, data⟩ ⟨_, data'⟩ ⟨rfl, h⟩
          exact .pure h

theorem Twins.bufUse (h : Twins out out' data data') (name : Nat) (args : Bytes) :
    Lifted (Twins out out') (data.bufUse name args) (data'.bufUse name args) := by
  apply h.withBuffer name args
  intro p
  rw [h.buf, h.mruBuffers]
  apply Lifted.ite
  · intro _
    apply Lifted.bind_same
    intro mruBuffers
    exact .pure { h with buf := rfl, mruBuffers := rfl }
  · intro _
    apply (h.pageInBuffer p).bind
    rintro ⟨ret, data⟩ ⟨_, data'⟩ ⟨rfl, h⟩
    exact .pure h

theorem Twins.bufMadv (h : Twins out out' data data') (name : Nat) (args : Bytes) :
    Lifted (Twins out out') (data.bufMadv name args) (data'.bufMadv name args) := by
  rw [Data.bufMadv, Data.bufMadv, h.findBuffer name]
  cases data.findBuffer name with
  | none => exact .pure (h.eprint _ _)
  | some p =>
      simp only [Data.setMadv, Data.madvMap, h.buf]
      apply Lifted.pure
      split
      · exact h.setBuf p _
      · exact h

theorem Twins.execute (h : Twins out out' data data') (c : Command) :
    Lifted (Twins out out') (data.execute c) (data'.execute c) := by
  rw [Data.execute, Data.execute]
  cases c.verb with
  | destroy => exact h.withBuffer _ _ h.freeBuffer
  | addUsecnt =>
      apply h.withBuffer
      intro p
      rw [h.buf]
      exact .pure (h.setInUse p true _ _ _)
  | removeUsecnt =>
      apply h.withBuffer
      intro p
      rw [h.buf]
      exact .pure (h.setInUse p false _ _ _)
  | create => exact h.bufCreate _ _
  | use => exact h.bufUse _ _
  | madv => exact h.bufMadv _ _

theorem Twins.processCommand (h : Twins out out' data data') (command : Bytes) :
    Lifted (Twins out out') (data.processCommand command) (data'.processCommand command) := by
  rw [Data.processCommand, Data.processCommand]
  cases strchr command 0x20 with
  | none => exact .pure h
  | some commandEnd =>
      dsimp only
      cases scanHex32 (command.drop (commandEnd + 1)) with
      | none => exact .pure (h.eprint _ _)
      | some found =>
          dsimp only
          rw [commands_lookup]
          cases verbs.lookup (command.take commandEnd) with
          | none => exact .pure (h.eprint _ _)
          | some verb => exact h.execute ⟨verb, _, _⟩

theorem processLine_marked (data : Data) {line command : Bytes}
    (hmark : lineText line = some command) :
    data.processLine line = data.processCommand command := by
  obtain ⟨markerPos, hfound, hcommand⟩ := Option.map_eq_some_iff.mp hmark
  rw [Data.processLine, hfound, ← hcommand]

theorem Twins.processLine (h : Twins out out' data data') {line command : Bytes}
    (hmark : lineText line = some command) :
    Lifted (Twins out out') (data.processLine line) (data'.processLine line) := by
  rw [processLine_marked data hmark, processLine_marked data' hmark]
  exact h.processCommand command

end Twins

theorem processLine_dump (data : Data) : data.processLine (text "dump\n") = .ok data.dumpData := by
  have hline : text "dump\n" = [0x64, 0x75, 0x6d, 0x70, 0x0a] := by
    rw [text_literal (by decide)]
    rfl
  have hdump : text "dump" = [0x64, 0x75, 0x6d, 0x70] := by
    rw [text_literal (by decide)]
    rfl
  have hmarker : Data.commandMarker = [0x5d, 0x20, 0x40, 0x40, 0x40, 0x20] := by
    rw [Data.commandMarker, text_literal (by decide)]
    rfl
  rw [Data.processLine, hline, hdump, hmarker]
  rfl

end CmaPool.TestDrm
