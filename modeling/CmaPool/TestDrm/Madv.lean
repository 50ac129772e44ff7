import CmaPool.TestDrm.Pinned
import CmaPool.TestDrm.Ledger

/-! `madv` and the purge that depends on it.

The loop over `madv_map` returns after its first entry, so that no buffer ever
becomes `dontneed` and the purge finds nothing. -/

namespace CmaPool.TestDrm

open Drm

/-- The buffers are as they were last told to be. -/
def Tracked (ledger : Ledger) (data : Data) : Prop :=
  ∀ p ∈ data.allBuffers, ledger (data.buf p).name = some (data.buf p).madv

/-- Where the line makes `page_in_buffer` purge, no unpinned buffer that was last
told dontneed is paged in afterwards. -/
def PurgesTold (ledger : Ledger) (data : Data) (line : Bytes) : Prop :=
  ∀ c data₀ p, lineCommand line = some c → PageInCall data c data₀ p →
    ∀ data₁ data₂, data₀.insertBufferInCmaPool p .best = .ok (false, data₁) →
      data₁.userspaceCachePurge = .ok data₂ →
      ∀ q, data₂.PagedIn q → ledger.enter c (data₂.buf q).name = some .dontneed →
        (data₂.buf q).inUse = true ∨ (data₂.buf q).unmoveable = true

/-- After every line each live buffer has the value it was last told, and every
purge takes what was last told dontneed. -/
def FollowsMadv (lines : List Bytes) : Prop :=
  ∀ front data, front <+: lines → run front = .ok data →
    Tracked (ledgerOf front) data ∧
      ∀ line, front ++ [line] <+: lines → PurgesTold (ledgerOf front) data line

/-- The line tells a live buffer dontneed. -/
def TellsDontneed (ledger : Ledger) (line : Bytes) : Prop :=
  ∃ c, lineCommand line = some c ∧ c.verb = .madv ∧ ledger c.name ≠ none ∧
    firstWord c.args = text "dontneed"

section Madv

variable {data data' : Data} {ledger : Ledger} {c : Command} {line : Bytes}

theorem madvMap_dontneed {word : Bytes} :
    Data.madvMap.lookup word = some .dontneed ↔ word = text "dontneed" := by
  have hother : text "dontneed" ≠ text "willneed" := by decide +kernel
  rw [Data.madvMap, List.lookup_cons, List.lookup_cons]
  by_cases hwill : word = text "willneed"
  · rw [hwill, beq_self_eq_true]
    simp [hother.symm]
  · rw [beq_false_of_ne hwill]
    by_cases hdont : word = text "dontneed"
    · rw [hdont, beq_self_eq_true]
      exact iff_of_true rfl rfl
    · rw [beq_false_of_ne hdont]
      simp [hdont]

/-- Only a `madv` line makes an entry of the ledger `dontneed`. -/
theorem Ledger.enter_dontneed {name : Nat} (h : ledger.enter c name = some .dontneed) :
    ledger name = some .dontneed ∨
      c.verb = .madv ∧ ledger c.name ≠ none ∧ firstWord c.args = text "dontneed" := by
  rw [Ledger.enter] at h
  cases hverb : c.verb with
  | create =>
      simp only [hverb] at h
      split at h
      · rw [Function.update_apply] at h
        split at h
        · cases h
        · exact Or.inl h
      · exact Or.inl h
  | destroy =>
      simp only [hverb] at h
      split at h
      · rw [Function.update_apply] at h
        split at h
        · cases h
        · exact Or.inl h
      · exact Or.inl h
  | madv =>
      simp only [hverb] at h
      cases hword : Data.madvMap.lookup (firstWord c.args) with
      | none =>
          rw [hword] at h
          exact Or.inl h
      | some value =>
          simp only [hword] at h
          split at h
          · exact Or.inl h
          · next hlive =>
              rw [Function.update_apply] at h
              split at h
              · cases h
                exact Or.inr ⟨rfl, hlive, madvMap_dontneed.mp hword⟩
              · exact Or.inl h
  | addUsecnt => exact Or.inl (by simpa only [hverb] using h)
  | removeUsecnt => exact Or.inl (by simpa only [hverb] using h)
  | use => exact Or.inl (by simpa only [hverb] using h)

theorem Ledger.line_dontneed {name : Nat} (h : ledger.line line name = some .dontneed) :
    ledger name = some .dontneed ∨ TellsDontneed ledger line := by
  rw [Ledger.line] at h
  cases hc : lineCommand line with
  | none =>
      rw [hc] at h
      exact Or.inl h
  | some c =>
      rw [hc] at h
      exact (Ledger.enter_dontneed h).imp_right fun htells => ⟨c, hc, htells⟩

theorem TellsDontneed.entry (h : TellsDontneed ledger line) :
    ∃ c, lineCommand line = some c ∧ ledger c.name ≠ none ∧
      ledger.line line c.name = some .dontneed := by
  rcases h with ⟨c, hc, hverb, hlive, hword⟩
  refine ⟨c, hc, hlive, ?_⟩
  have hlookup := madvMap_dontneed.mpr hword
  simp only [Ledger.line, hc, Ledger.enter, hverb, hlookup, if_neg hlive, Function.update_self]

def AllWillneed (data : Data) : Prop := ∀ p ∈ data.allBuffers, (data.buf p).madv = .willneed

theorem SameBuffers.madv (h : SameBuffers data data') (q : Ptr) :
    (data'.buf q).madv = (data.buf q).madv := by
  rw [← h.buf q]

theorem Step.allWillneed (h : AllWillneed data)
    (hstep : Step data c (.ok data')) : AllWillneed data' := by
  cases hstep with
  | rejected _ _ _ =>
      exact h
  | destroyed _ _ _ hout =>
      rcases hout with ⟨_, mm, _, rfl, _, _⟩
      exact fun q hq => h q (List.mem_of_mem_erase hq)
  | usecnt _ _ _ _ _ =>
      exact fun q hq => (setBuf_field Buffer.madv (by rfl) q).trans (h q hq)
  | paged hcall hin =>
      intro q hq
      rw [hin.same.allBuffers] at hq
      rw [hin.same.madv]
      cases hcall with
      | create _ _ _ =>
          by_cases hnew : q = data.nextPtr
          · subst hnew
            exact congrArg Buffer.madv (register_new data _)
          · have hold := (List.mem_cons.mp hq).resolve_left hnew
            have hbuf := h q hold
            simpa [Data.register, Data.setBuf, hnew] using hbuf
      | use _ _ _ _ => exact h q hq
  | touched _ _ _ _ =>
      exact h
  | @told p madv _ hname hmadv =>
      have hp := h p (findBuffer_some hname).1
      have hkept : madv = (data.buf p).madv := by
        rw [hp] at hmadv ⊢
        exact hmadv.elim id id
      exact fun q hq => (setBuf_field Buffer.madv hkept q).trans (h q hq)

/-- No line ever makes a buffer `dontneed`. -/
theorem run_allWillneed {lines : List Bytes} (hrun : run lines = .ok data) :
    AllWillneed data := by
  refine run_induction (P := fun _ data => AllWillneed data) ?_ ?_ hrun
  · intro data hinit
    rcases initData_sound with ⟨data₀, hinit₀, _, hempty⟩
    rw [hinit₀] at hinit
    cases hinit
    intro p hp
    simp [hempty] at hp
  · intro lines data line data' hbefore h hline
    rcases processLine_step (run_sound hbefore) line with ⟨c, _, hstep⟩ | ⟨_, _, _, hquiet⟩
    · rw [hline] at hstep
      have hnext : AllWillneed data' := hstep.allWillneed h
      exact hnext
    · rw [hquiet] at hline
      cases hline
      exact h

/-- A `madv` line is never the end of a run. -/
theorem TellsDontneed.continues {front : List Bytes} (hrun : run front = .ok data)
    (h : TellsDontneed ledger line) : ∃ data', run (front ++ [line]) = .ok data' := by
  rcases h with ⟨c, hc, hverb, _⟩
  rcases processLine_step (run_sound hrun) line with ⟨c', hc', hstep⟩ | ⟨hnone, _⟩
  · rw [hc] at hc'
    cases hc'
    rcases hstep.aborts_or (run_sound hrun) with ⟨hbad, _⟩ | ⟨_, data', hline⟩
    · have hcreate := hbad.1
      simp [hverb] at hcreate
    · refine ⟨data'.nextLine, ?_⟩
      rw [run_concat hrun, hline]
      rfl
  · rw [hc] at hnone
    cases hnone

theorem ledgerOf_willneed {lines : List Bytes} (hrun : run lines = .ok data)
    (hnever : ∀ front line data, front ++ [line] <+: lines → run front = .ok data →
      ¬ TellsDontneed (ledgerOf front) line) (name : Nat) :
    ledgerOf lines name ≠ some .dontneed := by
  revert hnever
  refine run_induction (P := fun lines _ => (∀ front line data, front ++ [line] <+: lines →
    run front = .ok data → ¬ TellsDontneed (ledgerOf front) line) →
    ledgerOf lines name ≠ some .dontneed) ?_ ?_ hrun
  · intro _ _ _
    simp [ledgerOf]
  · intro lines data line _ hbefore ih _ hnever hentry
    rw [ledgerOf_concat] at hentry
    rcases Ledger.line_dontneed hentry with hold | htells
    · refine ih ?_ hold
      intro front line' data' hfront
      exact hnever front line' data' (hfront.trans (List.prefix_append _ _))
    · exact hnever lines line data (List.prefix_refl _) hbefore htells

end Madv

/-- The program follows the `madv` lines exactly as long as none of them tells a
live buffer dontneed. -/
theorem followsMadv_iff (lines : List Bytes) :
    FollowsMadv lines ↔
      ∀ front line data, front ++ [line] <+: lines → run front = .ok data →
        ¬ TellsDontneed (ledgerOf front) line := by
  constructor
  · intro h front line data hfront hrun htells
    rcases htells.continues hrun with ⟨data', hrun'⟩
    rcases htells.entry with ⟨c, hc, hlive, hentry⟩
    rw [← ledgerOf_concat] at hentry
    have hlists := run_lists hrun' c.name
    rw [hentry] at hlists
    cases hfind : data'.findBuffer c.name with
    | none => simp [hfind] at hlists
    | some p =>
        rcases findBuffer_some hfind with ⟨hp, hname⟩
        have htracked := (h (front ++ [line]) data' hfront hrun').1 p hp
        rw [hname, hentry, run_allWillneed hrun' p hp] at htracked
        cases htracked
  · intro hnever front data hfront hrun
    have hbelow : ∀ front' line data, front' ++ [line] <+: front → run front' = .ok data →
        ¬ TellsDontneed (ledgerOf front') line :=
      fun front' line data hpre => hnever front' line data (hpre.trans hfront)
    have hwillneed := ledgerOf_willneed hrun hbelow
    constructor
    · intro p hp
      have hlive := run_lists hrun (data.buf p).name
      rw [run_allWillneed hrun p hp]
      cases hentry : ledgerOf front (data.buf p).name with
      | none =>
          have hfind := hlive.mp hentry
          exact absurd rfl (findBuffer_none.mp hfind p hp)
      | some value =>
          cases value with
          | willneed => rfl
          | dontneed => exact absurd hentry (hwillneed _)
    · intro line hline c data₀ p hc _ data₁ data₂ _ _ q _ hentry
      rcases Ledger.enter_dontneed hentry with hold | htells
      · exact absurd hold (hwillneed _)
      · exact absurd ⟨c, hc, htells⟩ (hnever front line data hline hrun)

theorem told_dontneed_ignored :
    ¬ FollowsMadv [text "[1] @@@ create 1 4096\n", text "[2] @@@ madv 1 dontneed\n"] := by
  intro h
  have hlists : (run [text "[1] @@@ create 1 4096\n",
      text "[2] @@@ madv 1 dontneed\n"]).toOption.map
      (fun data => (data.allBuffers, (data.buf 0).name, (data.buf 0).madv)) =
      some ([0], 1, .willneed) := by
    decide +kernel
  have hledger : ledgerOf [text "[1] @@@ create 1 4096\n", text "[2] @@@ madv 1 dontneed\n"] 1 =
      some .dontneed := by
    decide +kernel
  rcases exists_run hlists with ⟨data, hrun, hlists⟩
  simp only [Prod.mk.injEq] at hlists
  rcases hlists with ⟨hall, hname, hmadv⟩
  have htracked := (h _ data (List.prefix_refl _) hrun).1 0 (by simp [hall])
  rw [hname, hledger, hmadv] at htracked
  cases htracked

end CmaPool.TestDrm
