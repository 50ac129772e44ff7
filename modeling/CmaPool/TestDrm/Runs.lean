import CmaPool.TestDrm.Steps

/-! Runs over the lines of a log.

Every state of a run is consistent, and a line ends the program exactly when it
creates a buffer of a size that the pool cannot hold. -/

namespace CmaPool.TestDrm

open Drm

/-- The same buffers in all fields but `paged_in`. -/
structure SameBuffers (data data' : Data) : Prop where
  allBuffers : data'.allBuffers = data.allBuffers
  buf : ∀ q, { data'.buf q with pagedIn := (data.buf q).pagedIn } = data.buf q

structure Sound (data : Data) : Prop where
  consistent : ∃ l, Consistent data l
  sized : ∀ p ∈ data.allBuffers, (data.buf p).size ≠ 0 ∧ (data.buf p).size ≤ poolSize

def BadCreate (data : Data) (c : Command) : Prop :=
  c.verb = .create ∧ data.findBuffer c.name = none ∧
    ∃ size argsOffset, scanSize c.args = some (size, argsOffset) ∧ (size = 0 ∨ size > poolSize)

section Same

variable {data data' data'' : Data} {p : Ptr}

theorem SameBuffers.name (h : SameBuffers data data') (q : Ptr) :
    (data'.buf q).name = (data.buf q).name := by
  rw [← h.buf q]

theorem SameBuffers.size (h : SameBuffers data data') (q : Ptr) :
    (data'.buf q).size = (data.buf q).size := by
  rw [← h.buf q]

theorem SameBuffers.trans (h : SameBuffers data data') (h' : SameBuffers data' data'') :
    SameBuffers data data'' where
  allBuffers := h'.allBuffers.trans h.allBuffers
  buf := by
    intro q
    rw [← h.buf q, ← h'.buf q]

theorem Data.PagesOut.same {evicted : List Ptr} (h : data.PagesOut evicted data') :
    SameBuffers data data' := by
  rcases h with ⟨_, _, _, rfl, _, _⟩
  exact ⟨rfl, fun _ => rfl⟩

theorem Data.PagesIn.same (h : data.PagesIn p data') : SameBuffers data data' := by
  rcases h with ⟨_, _, rfl, _, _⟩
  refine ⟨rfl, fun q => ?_⟩
  by_cases hq : q = p
  · subst hq
    simp [Data.pagedIn]
  · simp [Data.pagedIn, hq]

theorem Data.PagesOut.consistent {evicted : List Ptr} (h : data.PagesOut evicted data') :
    ∃ l, Consistent data' l := by
  rcases h with ⟨_, _, l, rfl, hcons, _⟩
  exact ⟨l, hcons⟩

theorem Data.PagesIn.consistent (h : data.PagesIn p data') : ∃ l, Consistent data' l := by
  rcases h with ⟨_, l, rfl, hcons, _⟩
  exact ⟨l, hcons⟩

theorem Paging.same {ret : Bool} (h : Paging data p (.ok (ret, data'))) :
    SameBuffers data data' := by
  cases h with
  | inserted _ hout hin => exact hout.same.trans hin.same
  | refused _ _ hout _ => exact ⟨hout.same.allBuffers, hout.same.buf⟩

theorem Paging.consistent {ret : Bool} (h : Paging data p (.ok (ret, data'))) :
    ∃ l, Consistent data' l := by
  cases h with
  | inserted _ _ hin => exact hin.consistent
  | refused _ _ hout _ =>
      rcases hout.consistent with ⟨l, hcons⟩
      exact ⟨l, hcons.printed _ _⟩

theorem Paging.size {ret : Bool} (h : Paging data p (.ok (ret, data'))) :
    (data.buf p).size ≠ 0 ∧ (data.buf p).size ≤ poolSize := by
  cases h with
  | inserted _ hout hin =>
      rw [← hout.same.size p]
      exact ⟨hin.size_pos.ne', hin.size_le⟩
  | refused hsize _ _ _ => exact hsize

end Same

section Step

variable {data data' : Data} {c : Command}

theorem PageInCall.same {data₀ : Data} {p : Ptr} (h : PageInCall data c data₀ p) (hs : Sound data)
    {q : Ptr} (hq : q ∈ data₀.allBuffers) :
    q = p ∨ q ∈ data.allBuffers ∧ data₀.buf q = data.buf q := by
  rcases hs.consistent with ⟨l, hcons⟩
  cases h with
  | create _ _ _ =>
      rcases List.mem_cons.mp hq with rfl | hq
      · exact Or.inl rfl
      · exact Or.inr ⟨hq, hcons.register_old _ hq⟩
  | use _ _ _ _ => exact Or.inr ⟨hq, rfl⟩

theorem Sound.setBuf (hs : Sound data) {p : Ptr} {buf : Buffer}
    (hname : buf.name = (data.buf p).name) (hpaged : buf.pagedIn = (data.buf p).pagedIn)
    (hsize : buf.size = (data.buf p).size) : Sound (data.setBuf p buf) := by
  rcases hs.consistent with ⟨l, hcons⟩
  refine ⟨⟨l, hcons.setBuf hname hpaged hsize⟩, fun q hq => ?_⟩
  rw [setBuf_field Buffer.size hsize]
  exact hs.sized q hq

theorem Sound.printed (hs : Sound data) (stdout stderr : Bytes) :
    Sound (data.printed stdout stderr) := by
  rcases hs.consistent with ⟨l, hcons⟩
  exact ⟨⟨l, hcons.printed _ _⟩, hs.sized⟩

theorem Sound.nextLine (hs : Sound data) (lineNum : Nat) : Sound { data with lineNum } := by
  rcases hs.consistent with ⟨l, hcons⟩
  exact ⟨⟨l, hcons.nextLine _⟩, hs.sized⟩

theorem Consistent.freed {l : List NodeRef} (h : Consistent data l) {p : Ptr}
    (hout : data.PagesOut (if (data.buf p).pagedIn then [p] else []) data') :
    ∃ l', Consistent (data'.unlisted p) l' := by
  rcases hout with ⟨_, mm, l', rfl, hcons, _⟩
  refine ⟨l', hcons.unlisted ?_⟩
  cases hpaged : (data.buf p).pagedIn with
  | true => simp
  | false => simpa using h.not_mem_mru hpaged

theorem Step.sound (hs : Sound data) (h : Step data c (.ok data')) : Sound data' := by
  rcases hs.consistent with ⟨l, hcons⟩
  cases h with
  | rejected _ stdout stderr =>
      exact hs.printed stdout stderr
  | destroyed _ _ _ hout =>
      refine ⟨hcons.freed hout, fun q hq => ?_⟩
      rcases hout with ⟨_, mm, _, rfl, _, _⟩
      exact hs.sized q (List.mem_of_mem_erase hq)
  | usecnt inUse _ _ _ stderr =>
      apply Sound.printed
      exact hs.setBuf rfl rfl rfl
  | paged hcall hin =>
      refine ⟨hin.consistent, fun q hq => ?_⟩
      rw [hin.same.allBuffers] at hq
      rw [hin.same.size]
      rcases hcall.same hs hq with rfl | ⟨hq, hsame⟩
      · exact hin.size
      · rw [hsame]
        exact hs.sized q hq
  | touched _ _ hname hpaged =>
      exact ⟨⟨l, hcons.touched (hcons.mem_mru (findBuffer_some hname).1 hpaged)⟩, hs.sized⟩
  | told _ _ _ =>
      exact hs.setBuf rfl rfl rfl

theorem BadCreate.not_rejects (hbad : BadCreate data c) : ¬ Rejects data c := by
  rcases hbad with ⟨hverb, hname, size, argsOffset, hsize, _⟩
  simp [Rejects, hverb, hname, hsize]

theorem BadCreate.call_size (hbad : BadCreate data c) {data₀ : Data} {p : Ptr}
    (hcall : PageInCall data c data₀ p) :
    (data₀.buf p).size = 0 ∨ (data₀.buf p).size > poolSize := by
  rcases hbad with ⟨hverb, _, size, argsOffset, hsize, hrange⟩
  cases hcall with
  | create _ _ hscan =>
      rw [hsize] at hscan
      cases hscan
      rw [register_new]
      exact hrange
  | use huse _ _ _ => simp [hverb] at huse

theorem PageInCall.bad_or_sized (hs : Sound data) {data₀ : Data} {p : Ptr}
    (hcall : PageInCall data c data₀ p) :
    BadCreate data c ∨ (data₀.buf p).size ≠ 0 ∧ (data₀.buf p).size ≤ poolSize := by
  cases hcall with
  | @create size argsOffset hverb hname hsize =>
      by_cases hrange : size = 0 ∨ size > poolSize
      · exact Or.inl ⟨hverb, hname, size, argsOffset, hsize, hrange⟩
      · right
        rw [register_new]
        exact ⟨fun hzero => hrange (Or.inl hzero), not_lt.mp fun hbig => hrange (Or.inr hbig)⟩
  | use _ _ hname _ => exact Or.inr (hs.sized _ (findBuffer_some hname).1)

/-- Only a create of a size that the pool cannot hold aborts. -/
theorem Step.aborts_or (hs : Sound data) {result : Except Bug Data} (h : Step data c result) :
    BadCreate data c ∧ result = .error (.assertion .scanInit) ∨
      ¬ BadCreate data c ∧ ∃ data', result = .ok data' := by
  cases h with
  | rejected hreject stdout stderr =>
      exact Or.inr ⟨fun hbad => hbad.not_rejects hreject, _, rfl⟩
  | destroyed hverb _ _ _ =>
      exact Or.inr ⟨fun hbad => by simp [hbad.1] at hverb, _, rfl⟩
  | usecnt inUse hverb _ _ _ =>
      refine Or.inr ⟨fun hbad => ?_, _, rfl⟩
      cases inUse <;> simp [usecntVerb, hbad.1] at hverb
  | touched hverb _ _ _ =>
      exact Or.inr ⟨fun hbad => by simp [hbad.1] at hverb, _, rfl⟩
  | told hverb _ _ =>
      exact Or.inr ⟨fun hbad => by simp [hbad.1] at hverb, _, rfl⟩
  | paged hcall hin =>
      refine Or.inr ⟨fun hbad => ?_, _, rfl⟩
      have hsize := hin.size
      have hrange := hbad.call_size hcall
      omega
  | aborted hcall hin =>
      left
      cases hin with
      | aborted hrange =>
          refine ⟨(hcall.bad_or_sized hs).resolve_right ?_, rfl⟩
          omega

end Step

section Run

variable {data data' : Data}

theorem processLine_step (hs : Sound data) (line : Bytes) :
    (∃ c, lineCommand line = some c ∧ Step data c (data.processLine line)) ∨
      lineCommand line = none ∧
        ∃ stdout stderr, data.processLine line = .ok (data.printed stdout stderr) := by
  rcases hs.consistent with ⟨l, hcons⟩
  rcases processLine_cases data line with ⟨c, hc, hrun⟩ | hquiet
  · rw [hrun]
    exact Or.inl ⟨c, hc, execute_step hcons c⟩
  · exact Or.inr hquiet

theorem processLine_sound (hs : Sound data) {line : Bytes}
    (hrun : data.processLine line = .ok data') : Sound data' := by
  rcases processLine_step hs line with ⟨c, _, hstep⟩ | ⟨_, stdout, stderr, hquiet⟩
  · rw [hrun] at hstep
    exact hstep.sound hs
  · rw [hquiet] at hrun
    cases hrun
    exact hs.printed stdout stderr

theorem initData_sound : ∃ data, initData = .ok data ∧ Sound data ∧ data.allBuffers = [] := by
  rcases init_valid with ⟨mm, hinit, hvalid⟩
  refine ⟨_, by rw [initData, hinit, ok_bind]; rfl, ⟨⟨[], ?_⟩, by simp⟩, rfl⟩
  constructor
  · exact hvalid
  · exact List.nodup_nil
  · simp
  · simp
  · exact List.Perm.refl _
  · simp

def Data.nextLine (data : Data) : Data := { data with lineNum := data.lineNum + 1 }

theorem processLines_cons (data : Data) (line : Bytes) (lines : List Bytes) :
    data.processLines (line :: lines) = (do
      let data ← data.processLine line
      data.nextLine.processLines lines) := rfl

theorem processLines_append (data : Data) (first second : List Bytes) :
    data.processLines (first ++ second) = (do
      let data ← data.processLines first
      data.processLines second) := by
  induction first generalizing data with
  | nil => rfl
  | cons line first ih =>
      rw [List.cons_append, processLines_cons, processLines_cons]
      cases data.processLine line with
      | error bug => rfl
      | ok data' => exact ih data'.nextLine

theorem run_append (first second : List Bytes) :
    run (first ++ second) = (do
      let data ← run first
      data.processLines second) := by
  rw [run, run]
  cases initData with
  | error bug => rfl
  | ok data => exact processLines_append data first second

theorem run_concat {lines : List Bytes} {data : Data} (hrun : run lines = .ok data)
    (line : Bytes) :
    run (lines ++ [line]) = (do
      let data' ← data.processLine line
      return data'.nextLine) := by
  rw [run_append, hrun]
  rfl

/-- What holds at the start and is kept by every line that does not abort holds
after every run. -/
theorem run_induction {P : List Bytes → Data → Prop}
    (start : ∀ data, initData = .ok data → P [] data)
    (line : ∀ lines data line data', run lines = .ok data → P lines data →
      data.processLine line = .ok data' → P (lines ++ [line]) data'.nextLine)
    {lines : List Bytes} {data : Data} (hrun : run lines = .ok data) : P lines data := by
  induction lines using List.reverseRecOn generalizing data with
  | nil =>
      apply start
      rw [← hrun, run]
      cases initData <;> rfl
  | append_singleton lines last ih =>
      cases hbefore : run lines with
      | error bug =>
          rw [run_append, hbefore] at hrun
          cases hrun
      | ok before =>
          rw [run_concat hbefore] at hrun
          cases hlast : before.processLine last with
          | error bug =>
              rw [hlast] at hrun
              cases hrun
          | ok after =>
              rw [hlast] at hrun
              cases hrun
              exact line lines before last after hbefore (ih hbefore) hlast

theorem exists_run {α : Type} {lines : List Bytes} {f : Data → α} {value : α}
    (h : (run lines).toOption.map f = some value) :
    ∃ data, run lines = .ok data ∧ f data = value := by
  cases hrun : run lines with
  | error bug =>
      rw [hrun] at h
      cases h
  | ok data =>
      rw [hrun] at h
      exact ⟨data, rfl, Option.some.inj h⟩

theorem run_sound {lines : List Bytes} (hrun : run lines = .ok data) : Sound data := by
  refine run_induction (P := fun _ data => Sound data) ?_ ?_ hrun
  · intro data hinit
    rcases initData_sound with ⟨data₀, hinit₀, hs, _⟩
    rw [hinit₀] at hinit
    cases hinit
    exact hs
  · intro _ _ _ _ _ hs hline
    exact (processLine_sound hs hline).nextLine _

end Run

/-- The states in which `page_in_buffer` runs or that a line leaves behind. -/
inductive Reached : Data → Prop
  | line {lines : List Bytes} {data : Data} (hrun : run lines = .ok data) : Reached data
  | call {lines : List Bytes} {line : Bytes} {data data₀ : Data} {c : Command} {p : Ptr}
      (hrun : run lines = .ok data) (hline : lineCommand line = some c)
      (hcall : PageInCall data c data₀ p) : Reached data₀

theorem Reached.consistent {data : Data} (h : Reached data) : ∃ l, Consistent data l := by
  cases h with
  | line hrun => exact (run_sound hrun).consistent
  | call hrun _ hcall =>
      rcases (run_sound hrun).consistent with ⟨l, hcons⟩
      exact ⟨l, hcall.consistent hcons⟩

/-- The states that the eviction can start from. -/
inductive EvictionState : Data → Prop
  | reached {data : Data} (h : Reached data) : EvictionState data
  | purged {data data' : Data} (h : Reached data) (hpurge : data.userspaceCachePurge = .ok data') :
      EvictionState data'

theorem EvictionState.consistent {data : Data} (h : EvictionState data) :
    ∃ l, Consistent data l := by
  cases h with
  | reached h => exact h.consistent
  | purged h hpurge =>
      rcases h.consistent with ⟨l, hcons⟩
      rcases userspaceCachePurge_pagesOut hcons with ⟨data₁, hrun, hout⟩
      rw [hrun] at hpurge
      cases hpurge
      exact hout.consistent

end CmaPool.TestDrm
