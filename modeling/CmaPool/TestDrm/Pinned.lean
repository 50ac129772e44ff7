import CmaPool.TestDrm.Runs

/-! What a line does to the buffers that are paged in.

A buffer leaves the pool through its own destroy, or unpinned when another
buffer has to be brought in; until then it stays where it is. -/

namespace CmaPool.TestDrm

open Drm

def Data.PagedIn (data : Data) (p : Ptr) : Prop :=
  p ∈ data.allBuffers ∧ (data.buf p).pagedIn = true

/-- The command creates or uses a buffer that is not paged in. -/
def BringsIn (data : Data) (c : Command) : Prop :=
  (c.verb = .create ∨ c.verb = .use) ∧ ∀ b, (data.buf b).name = c.name → ¬ data.PagedIn b

def Destroys (c : Command) (name : Nat) : Prop :=
  c.verb = .destroy ∧ c.args = [] ∧ c.name = name

def Releases (c : Command) (name : Nat) : Prop :=
  c.verb = .removeUsecnt ∧ c.args = [] ∧ c.name = name

/-- What becomes of a paged-in buffer in one line. -/
structure LineFrame (data : Data) (line : Bytes) (data' : Data) : Prop where
  stays : ∀ q, data.PagedIn q → data'.PagedIn q → data'.startOf q = data.startOf q
  evicted : ∀ q, data.PagedIn q → ¬ data'.PagedIn q →
    (∀ c, lineCommand line = some c → c.name ≠ (data.buf q).name) →
    (data.buf q).inUse = false ∧ (data.buf q).unmoveable = false ∧
      ∃ c, lineCommand line = some c ∧ BringsIn data c
  named : ∀ q c, data.PagedIn q → ¬ data'.PagedIn q → lineCommand line = some c →
    c.name = (data.buf q).name → Destroys c (data.buf q).name

/-- The three ways of one command with a paged-in buffer. -/
inductive Fate (data : Data) (c : Command) (data' : Data) (q : Ptr) : Prop
  | stays (hin : data'.PagedIn q) (hstart : data'.startOf q = data.startOf q)
  | destroyed (hout : ¬ data'.PagedIn q) (hdestroy : Destroys c (data.buf q).name)
  | evicted (hout : ¬ data'.PagedIn q) (hfree : (data.buf q).pinned = false)
      (hother : c.name ≠ (data.buf q).name) (hbrings : BringsIn data c)

section Paging

variable {data data' : Data} {l : List NodeRef} {p q : Ptr} {c : Command}

theorem Consistent.pagedIn_iff (h : Consistent data l) : data.PagedIn q ↔ q ∈ data.mruBuffers :=
  (h.mru q).symm

/-- Paging a buffer in keeps the others where they are or evicts them unpinned. -/
theorem Paging.fate {ret : Bool} (hp : p ∉ data.mruBuffers)
    (hin : Paging data p (.ok (ret, data'))) (hq : q ∈ data.mruBuffers) :
    data'.PagedIn q ∧ data'.startOf q = data.startOf q ∨
      ¬ data'.PagedIn q ∧ (data.buf q).pinned = false := by
  rcases hin.consistent with ⟨l', hcons⟩
  have hne : NodeRef.buf q ≠ .buf p := by
    intro heq
    cases heq
    exact hp hq
  rw [hcons.pagedIn_iff]
  cases hin with
  | @inserted evicted _ _ hevicted hout hin =>
      rcases hout with ⟨_, mm, _, rfl, _, hblock⟩
      rcases hin with ⟨mm', _, rfl, _, _, hblock'⟩
      have hkept : mm'.block (.buf q) = data.mm.block (.buf q) :=
        calc
          mm'.block (.buf q) = mm.block (.buf q) := hblock' _ hne
          _ = data.mm.block (.buf q) := hblock _
      have hstart := (block_ext hkept).1
      by_cases hmem : q ∈ evicted
      · refine Or.inr ⟨?_, (hevicted q hmem).2⟩
        have hqp : q ≠ p := fun heq => hp (heq ▸ hq)
        simp [Data.pagedIn, hmem, hqp]
      · refine Or.inl ⟨?_, hstart⟩
        simp [Data.pagedIn, hmem, hq]
  | @refused evicted _ _ hevicted hout _ =>
      rcases hout with ⟨_, mm, _, rfl, _, hblock⟩
      by_cases hmem : q ∈ evicted
      · refine Or.inr ⟨?_, (hevicted q hmem).2⟩
        simp [Data.eprint, hmem]
      · refine Or.inl ⟨?_, (block_ext (hblock _)).1⟩
        simp [Data.eprint, hmem, hq]

theorem PageInCall.absent {data₀ : Data} (h : Consistent data l)
    (hcall : PageInCall data c data₀ p) : p ∉ data₀.mruBuffers := by
  cases hcall with
  | create _ _ _ => exact fun hmem => h.not_mem_fresh ((h.mru _).mp hmem).1
  | use _ _ _ habsent => exact h.not_mem_mru habsent

theorem PageInCall.keeps {data₀ : Data} (h : Consistent data l)
    (hcall : PageInCall data c data₀ p) (hq : data.PagedIn q) :
    q ∈ data₀.mruBuffers ∧ data₀.buf q = data.buf q ∧ data₀.startOf q = data.startOf q := by
  have hmru := h.pagedIn_iff.mp hq
  cases hcall with
  | create _ _ _ =>
      have hnode : NodeRef.buf q ≠ .buf data.nextPtr := fun heq =>
        h.not_mem_fresh (NodeRef.buf.inj heq ▸ hq.1)
      refine ⟨hmru, h.register_old _ hq.1, ?_⟩
      exact congrArg DrmMmNode.start (clearNode_of_ne hnode)
  | use _ _ _ _ => exact ⟨hmru, rfl, rfl⟩

theorem PageInCall.brings {data₀ : Data} (h : Consistent data l)
    (hcall : PageInCall data c data₀ p) : BringsIn data c := by
  cases hcall with
  | create hverb hname _ =>
      exact ⟨Or.inl hverb, fun b heq hb => findBuffer_none.mp hname b hb.1 heq⟩
  | use hverb _ hname habsent =>
      rcases findBuffer_some hname with ⟨hp, hpname⟩
      refine ⟨Or.inr hverb, fun b heq hb => ?_⟩
      obtain rfl := h.name_inj hb.1 hp (heq.trans hpname.symm)
      have hpaged := hb.2
      simp [habsent] at hpaged

theorem Step.fate (hs : Sound data) (hstep : Step data c (.ok data')) (hq : data.PagedIn q) :
    Fate data c data' q := by
  rcases hs.consistent with ⟨l, hcons⟩
  have hmru := hcons.pagedIn_iff.mp hq
  cases hstep with
  | rejected _ _ _ =>
      exact .stays hq rfl
  | @destroyed p _ hverb hargs hname hout =>
      rcases hcons.freed hout with ⟨l', hcons'⟩
      rcases findBuffer_some hname with ⟨hp, hpname⟩
      rcases hout with ⟨_, mm, _, rfl, _, hblock⟩
      by_cases hqp : q = p
      · subst hqp
        refine .destroyed ?_ ⟨hverb, hargs, hpname.symm⟩
        rw [hcons'.pagedIn_iff]
        simp [Data.unlisted, hq.2]
      · refine .stays ?_ (block_ext (hblock _)).1
        rw [hcons'.pagedIn_iff]
        cases (data.buf p).pagedIn <;> simp [Data.unlisted, hmru, hqp]
  | usecnt _ _ _ _ _ =>
      exact .stays ⟨hq.1, (setBuf_field Buffer.pagedIn (by rfl) q).trans hq.2⟩ rfl
  | paged hcall hin =>
      rcases hcall.keeps hcons hq with ⟨hmru₀, hbuf, hstart⟩
      rcases hin.fate (hcall.absent hcons) hmru₀ with
        ⟨hstays, hsame⟩ | ⟨hout, hfree⟩
      · exact .stays hstays (hsame.trans hstart)
      · have hbrings := hcall.brings hcons
        rw [hbuf] at hfree
        exact .evicted hout hfree (fun heq => hbrings.2 q heq.symm hq) hbrings
  | @touched p _ _ hname hpaged =>
      exact .stays hq rfl
  | told _ _ _ =>
      exact .stays ⟨hq.1, (setBuf_field Buffer.pagedIn (by rfl) q).trans hq.2⟩ rfl

end Paging

section Line

variable {data data' : Data} {q : Ptr} {c : Command} {line : Bytes}

theorem line_frame (hs : Sound data) (hrun : data.processLine line = .ok data') :
    LineFrame data line data' := by
  rcases processLine_step hs line with ⟨c, hc, hstep⟩ | ⟨_, stdout, stderr, hquiet⟩
  · rw [hrun] at hstep
    constructor
    · intro q hq hq'
      cases hstep.fate hs hq with
      | stays _ hstart => exact hstart
      | destroyed hout _ => exact absurd hq' hout
      | evicted hout _ _ _ => exact absurd hq' hout
    · intro q hq hout hother
      cases hstep.fate hs hq with
      | stays hin _ => exact absurd hin hout
      | destroyed _ hdestroy => exact absurd hdestroy.2.2 (hother c hc)
      | evicted _ hfree _ hbrings =>
          rw [Buffer.pinned, Bool.or_eq_false_iff] at hfree
          exact ⟨hfree.1, hfree.2, c, hc, hbrings⟩
    · intro q c' hq hout hc' hname
      rw [hc] at hc'
      cases hc'
      cases hstep.fate hs hq with
      | stays hin _ => exact absurd hin hout
      | destroyed _ hdestroy => exact hdestroy
      | evicted _ _ hother _ => exact absurd hname hother
  · rw [hquiet] at hrun
    cases hrun
    exact ⟨fun _ _ _ => rfl, fun _ hq hout => absurd hq hout, fun _ _ hq hout => absurd hq hout⟩

/-- The fields that pin a buffer, over one command. -/
theorem Step.flags (hs : Sound data) (hstep : Step data c (.ok data')) (hq : q ∈ data.allBuffers) :
    (data'.buf q).name = (data.buf q).name ∧
      (data'.buf q).unmoveable = (data.buf q).unmoveable ∧
      ((data.buf q).inUse = true → ¬ Releases c (data.buf q).name →
        (data'.buf q).inUse = true) := by
  rcases hs.consistent with ⟨l, hcons⟩
  cases hstep with
  | rejected _ _ _ =>
      exact ⟨rfl, rfl, fun hbusy _ => hbusy⟩
  | destroyed _ _ _ hout =>
      rcases hout with ⟨_, mm, _, rfl, _, _⟩
      exact ⟨rfl, rfl, fun hbusy _ => hbusy⟩
  | @usecnt p inUse hverb hargs hname stderr =>
      refine ⟨setBuf_field Buffer.name (by rfl) q, setBuf_field Buffer.unmoveable (by rfl) q, ?_⟩
      intro hbusy hkept
      by_cases hqp : q = p
      · subst hqp
        cases inUse with
        | true => simp [Data.setBuf, Data.printed]
        | false => exact absurd ⟨hverb, hargs, (findBuffer_some hname).2.symm⟩ hkept
      · exact (congrArg Buffer.inUse (Function.update_of_ne hqp _ _)).trans hbusy
  | @paged data₀ _ p _ hcall hin =>
      have hbuf : data₀.buf q = data.buf q := by
        cases hcall with
        | create _ _ _ => exact hcons.register_old _ hq
        | use _ _ _ _ => rfl
      have hsame := hin.same.buf q
      rw [hbuf] at hsame
      rw [← hsame]
      exact ⟨rfl, rfl, fun hbusy _ => hbusy⟩
  | touched _ _ _ _ =>
      exact ⟨rfl, rfl, fun hbusy _ => hbusy⟩
  | told _ _ _ =>
      exact ⟨setBuf_field Buffer.name (by rfl) q, setBuf_field Buffer.unmoveable (by rfl) q,
        fun hbusy _ => (setBuf_field Buffer.inUse (by rfl) q).trans hbusy⟩

end Line

/-- None of the lines destroys `q`, and what pins it is not an `in_use` that one
of them takes back. -/
structure KeepsPin (data : Data) (q : Ptr) (lines : List Bytes) : Prop where
  undestroyed : ∀ line ∈ lines, ∀ c, lineCommand line = some c → ¬ Destroys c (data.buf q).name
  pinned : (data.buf q).unmoveable = true ∨ (data.buf q).inUse = true ∧
    ∀ line ∈ lines, ∀ c, lineCommand line = some c → ¬ Releases c (data.buf q).name

section Run

variable {data data' : Data} {q : Ptr} {line : Bytes} {lines : List Bytes}

theorem KeepsPin.buf_pinned (h : KeepsPin data q lines) : (data.buf q).pinned = true := by
  rw [Buffer.pinned, Bool.or_eq_true]
  exact h.pinned.symm.imp_left And.left

theorem line_pinned (hs : Sound data) (hq : data.PagedIn q)
    (hkeep : KeepsPin data q (line :: lines)) (hrun : data.processLine line = .ok data') :
    data'.PagedIn q ∧ data'.startOf q = data.startOf q ∧ KeepsPin data' q lines := by
  have hrest : ∀ {P : Bytes → Prop}, (∀ line' ∈ line :: lines, P line') →
      ∀ line' ∈ lines, P line' := fun hall line' hmem => hall line' (List.mem_cons_of_mem _ hmem)
  rcases processLine_step hs line with ⟨c, hc, hstep⟩ | ⟨_, stdout, stderr, hquiet⟩
  · rw [hrun] at hstep
    rcases hstep.flags hs hq.1 with ⟨hname, hmoveable, hbusy⟩
    have hnext : KeepsPin data' q lines := by
      constructor
      · rw [hname]
        exact hrest hkeep.undestroyed
      · rw [hname, hmoveable]
        refine hkeep.pinned.imp_right fun ⟨hin, hheld⟩ => ⟨?_, hrest hheld⟩
        exact hbusy hin (hheld line List.mem_cons_self c hc)
    cases hstep.fate hs hq with
    | stays hin hstart => exact ⟨hin, hstart, hnext⟩
    | destroyed _ hdestroy =>
        exact absurd hdestroy (hkeep.undestroyed line List.mem_cons_self c hc)
    | evicted _ hfree _ _ => simp [hkeep.buf_pinned] at hfree
  · rw [hquiet] at hrun
    cases hrun
    exact ⟨hq, rfl, hrest hkeep.undestroyed, hkeep.pinned.imp_right fun hin =>
      ⟨hin.1, hrest hin.2⟩⟩

theorem processLines_pinned (hs : Sound data) (hq : data.PagedIn q) (hkeep : KeepsPin data q lines)
    (hrun : data.processLines lines = .ok data') :
    data'.PagedIn q ∧ data'.startOf q = data.startOf q := by
  induction lines generalizing data with
  | nil =>
      cases hrun
      exact ⟨hq, rfl⟩
  | cons line lines ih =>
      rw [processLines_cons] at hrun
      cases hline : data.processLine line with
      | error bug =>
          rw [hline] at hrun
          cases hrun
      | ok mid =>
          rw [hline, ok_bind] at hrun
          rcases line_pinned hs hq hkeep hline with ⟨hin, hstart, hnext⟩
          have hsound := (processLine_sound hs hline).nextLine (mid.lineNum + 1)
          rcases ih hsound hin ⟨hnext.undestroyed, hnext.pinned⟩ hrun with ⟨hlast, hkept⟩
          exact ⟨hlast, hkept.trans hstart⟩

end Run

/-- Every line moves or loses a paged-in buffer only as `LineFrame` says, so that a
pinned one stays in place until its destroy or release. -/
theorem run_pinned {lines : List Bytes} {data : Data} (hrun : run lines = .ok data) :
    (∀ line data', data.processLine line = .ok data' → LineFrame data line data') ∧
      ∀ more data' q, run (lines ++ more) = .ok data' → data.PagedIn q → KeepsPin data q more →
        data'.PagedIn q ∧ data'.startOf q = data.startOf q := by
  have hs := run_sound hrun
  refine ⟨fun line data' hline => line_frame hs hline, ?_⟩
  intro more data' q hlast hq hkeep
  rw [run_append, hrun, ok_bind] at hlast
  exact processLines_pinned hs hq hkeep hlast

theorem run_pinned_evicting :
    ∃ data data', run [text "[1] @@@ create 1 100000000\n",
        text "[2] @@@ create 2 30000000\n", text "[3] @@@ add_usecnt 2\n"] = .ok data ∧
      run ([text "[1] @@@ create 1 100000000\n", text "[2] @@@ create 2 30000000\n",
        text "[3] @@@ add_usecnt 2\n"] ++ [text "[4] @@@ create 3 100000000\n"]) = .ok data' ∧
      data.mruBuffers = [1, 0] ∧ data'.mruBuffers = [2, 1] ∧
      (∀ line data', data.processLine line = .ok data' → LineFrame data line data') ∧
      data'.PagedIn 1 ∧ data'.startOf 1 = data.startOf 1 := by
  have hbefore : (run [text "[1] @@@ create 1 100000000\n",
      text "[2] @@@ create 2 30000000\n", text "[3] @@@ add_usecnt 2\n"]).toOption.map
      (fun data => (data.mruBuffers, data.allBuffers, data.buf 1)) =
      some ([1, 0], [1, 0],
        { Data.newBuffer 2 30000000 false with pagedIn := true, inUse := true }) := by
    decide +kernel
  have hafter : (run ([text "[1] @@@ create 1 100000000\n",
      text "[2] @@@ create 2 30000000\n", text "[3] @@@ add_usecnt 2\n"] ++
      [text "[4] @@@ create 3 100000000\n"])).toOption.map Data.mruBuffers = some [2, 1] := by
    decide +kernel
  have hcommand : lineCommand (text "[4] @@@ create 3 100000000\n") =
      some ⟨.create, 3, text "100000000\n"⟩ := by
    decide +kernel
  rcases exists_run hbefore with ⟨data, hrun, hlists⟩
  rcases exists_run hafter with ⟨data', hrun', hmru'⟩
  have hmru : data.mruBuffers = [1, 0] := congrArg Prod.fst hlists
  have hall : data.allBuffers = [1, 0] := congrArg (fun value => value.2.1) hlists
  have hbuf : data.buf 1 =
      { Data.newBuffer 2 30000000 false with pagedIn := true, inUse := true } :=
    congrArg (fun value => value.2.2) hlists
  rcases run_pinned hrun with ⟨hframe, hkept⟩
  refine ⟨data, data', hrun, hrun', hmru, hmru', hframe, hkept _ data' 1 hrun' ?_ ⟨?_, ?_⟩⟩
  · exact ⟨by simp [hall], by rw [hbuf]⟩
  · intro line hline c hc
    rw [List.mem_singleton.mp hline, hcommand] at hc
    cases hc
    simp [Destroys]
  · right
    refine ⟨by rw [hbuf], fun line hline c hc => ?_⟩
    rw [List.mem_singleton.mp hline, hcommand] at hc
    cases hc
    simp [Releases]

end CmaPool.TestDrm
