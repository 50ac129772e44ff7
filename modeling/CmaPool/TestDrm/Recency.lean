import CmaPool.Lib.Recency
import CmaPool.TestDrm.Ledger

/-! The MRU list is in the order of the last accepted create or use. -/

namespace CmaPool.TestDrm

open Drm Recency

/-- The name that an accepted create or use is for, going by the ledger. -/
def Ledger.touched (ledger : Ledger) (c : Command) : Option Nat :=
  match c.verb with
  | .create => if ledger c.name = none ∧ (scanSize c.args).isSome then some c.name else none
  | .use => if c.args = [] ∧ ledger c.name ≠ none then some c.name else none
  | _ => none

def Ledger.touchedLine (ledger : Ledger) (line : Bytes) : Option Nat :=
  (lineCommand line).bind ledger.touched

def touchLogFrom (ledger : Ledger) : List Bytes → List (Option Nat)
  | [] => []
  | line :: lines => ledger.touchedLine line :: touchLogFrom (ledger.line line) lines

/-- The name that each line of the log touches. -/
def touchLog (lines : List Bytes) : List (Option Nat) := touchLogFrom (fun _ => none) lines

def Data.Named (data : Data) (p : Ptr) (name : Nat) : Prop := (data.buf p).name = name

/-- What a line that touches `touched` does to `mru_buffers`. -/
structure MruStep (data : Data) (touched : Option Nat) (data' : Data) : Prop where
  named : ∀ q ∈ data'.mruBuffers, q ∈ data.mruBuffers →
    (data'.buf q).name = (data.buf q).name
  order : data'.mruBuffers.Sublist data.mruBuffers ∧
      (∀ q ∈ data'.mruBuffers, touched ≠ some (data'.buf q).name) ∨
    ∃ p rest, touched = some (data'.buf p).name ∧ data'.mruBuffers = p :: rest ∧
      rest.Sublist data.mruBuffers

section Log

theorem touchLogFrom_concat (ledger : Ledger) (lines : List Bytes) (line : Bytes) :
    touchLogFrom ledger (lines ++ [line]) =
      touchLogFrom ledger lines ++ [(lines.foldl Ledger.line ledger).touchedLine line] := by
  induction lines generalizing ledger with
  | nil => rfl
  | cons first lines ih => exact congrArg (ledger.touchedLine first :: ·) (ih _)

theorem touchLog_concat (lines : List Bytes) (line : Bytes) :
    touchLog (lines ++ [line]) = touchLog lines ++ [(ledgerOf lines).touchedLine line] :=
  touchLogFrom_concat _ lines line

end Log

section Step

variable {data data' : Data} {ledger : Ledger} {c : Command} {p : Ptr}

theorem mruStep_quiet (hname : ∀ q, (data'.buf q).name = (data.buf q).name)
    (hsub : data'.mruBuffers.Sublist data.mruBuffers) : MruStep data none data' :=
  ⟨fun q _ _ => hname q, Or.inl ⟨hsub, nofun⟩⟩

theorem mruStep_touched (hname : ∀ q ∈ data.mruBuffers, (data'.buf q).name = (data.buf q).name)
    {rest : List Ptr} (hmru : data'.mruBuffers = p :: rest) (hsub : rest.Sublist data.mruBuffers) :
    MruStep data (some (data'.buf p).name) data' :=
  ⟨fun q _ hq => hname q hq, Or.inr ⟨p, rest, rfl, hmru, hsub⟩⟩

theorem Ledger.touched_rejected (h : ledger.Lists data) (hreject : Rejects data c) :
    ledger.touched c = none := by
  have hname := h c.name
  rw [Rejects] at hreject
  rw [Ledger.touched]
  cases hverb : c.verb with
  | create =>
      simp only [hverb] at hreject ⊢
      exact if_neg (h.not_created hreject)
  | use =>
      simp only [hverb] at hreject ⊢
      rw [if_neg]
      rintro ⟨hargs, hlive⟩
      rcases hreject with hbad | hnone
      · exact hbad hargs
      · exact hlive (hname.mpr hnone)
  | _ => rfl

theorem Ledger.touched_use (h : ledger.Lists data) (hverb : c.verb = .use) (hargs : c.args = [])
    (hname : data.findBuffer c.name = some p) :
    ledger.touched c = some (data.buf p).name := by
  have hlive : ledger c.name ≠ none := by
    rw [ne_eq, h c.name, hname]
    exact nofun
  simp only [Ledger.touched, hverb, if_pos (And.intro hargs hlive), (findBuffer_some hname).2]

theorem PageInCall.touched {data₀ : Data} (h : ledger.Lists data)
    (hcall : PageInCall data c data₀ p) : ledger.touched c = some (data₀.buf p).name := by
  cases hcall with
  | create hverb hname hsize =>
      have hfree := (h c.name).mpr hname
      simp only [Ledger.touched, hverb, hfree, hsize, Option.isSome_some, and_self, if_true,
        register_new]
      rfl
  | use hverb hargs hname _ => exact Ledger.touched_use h hverb hargs hname

theorem PageInCall.mru {data₀ : Data} {l : List NodeRef} (hcons : Consistent data l)
    (hcall : PageInCall data c data₀ p) : data₀.mruBuffers = data.mruBuffers ∧
      ∀ q ∈ data.mruBuffers, (data₀.buf q).name = (data.buf q).name := by
  cases hcall with
  | create _ _ _ =>
      refine ⟨rfl, fun q hq => ?_⟩
      rw [hcons.register_old _ ((hcons.mru q).mp hq).1]
  | use _ _ _ _ => exact ⟨rfl, fun _ _ => rfl⟩

theorem Data.PagesOut.sublist {evicted : List Ptr} (h : data.PagesOut evicted data') :
    data'.mruBuffers.Sublist data.mruBuffers := by
  rcases h with ⟨_, mm, _, rfl, _, _⟩
  exact List.filter_sublist

theorem Paging.mru {ret : Bool} (hin : Paging data p (.ok (ret, data'))) :
    data'.mruBuffers.Sublist data.mruBuffers ∨
      ∃ rest, data'.mruBuffers = p :: rest ∧ rest.Sublist data.mruBuffers := by
  cases hin with
  | inserted _ hout hin =>
      rcases hin with ⟨mm, _, rfl, _, _, _⟩
      exact Or.inr ⟨_, rfl, hout.sublist⟩
  | refused _ _ hout _ => exact Or.inl hout.sublist

theorem Step.mruStep (hs : Sound data) (hs' : Sound data') (h : ledger.Lists data)
    (hstep : Step data c (.ok data')) : MruStep data (ledger.touched c) data' := by
  rcases hs.consistent with ⟨l, hcons⟩
  cases hstep with
  | rejected hreject stdout stderr =>
      rw [Ledger.touched_rejected h hreject]
      exact mruStep_quiet (fun _ => rfl) (List.Sublist.refl _)
  | @destroyed p data₁ hverb hargs hname hout =>
      have hquiet : ledger.touched c = none := by rw [Ledger.touched, hverb]
      rw [hquiet]
      exact mruStep_quiet (fun q => hout.same.name q) hout.sublist
  | usecnt inUse hverb _ _ _ =>
      have hquiet : ledger.touched c = none := by
        rw [Ledger.touched, hverb]
        cases inUse <;> rfl
      rw [hquiet]
      exact mruStep_quiet (setBuf_field Buffer.name (by rfl)) (List.Sublist.refl _)
  | @paged data₀ _ p _ hcall hin =>
      rcases hcall.mru hcons with ⟨hmru, hnames⟩
      have hsame : ∀ q ∈ data.mruBuffers, (data'.buf q).name = (data.buf q).name :=
        fun q hq => (hin.same.name q).trans (hnames q hq)
      rw [hcall.touched h, ← hin.same.name p]
      rcases hin.mru with hsub | ⟨rest, hmru', hsub⟩
      · rw [hmru] at hsub
        refine ⟨fun q _ hq => hsame q hq, Or.inl ⟨hsub, fun q hq heq => ?_⟩⟩
        rcases hs'.consistent with ⟨l', hcons'⟩
        have hp : p ∈ data'.allBuffers := hin.same.allBuffers ▸ hcall.listed.1
        have hqp := hcons'.name_inj hp ((hcons'.mru q).mp hq).1 (Option.some.inj heq)
        apply (hcall.consistent hcons).not_mem_mru hcall.listed.2
        rw [hmru, hqp]
        exact hsub.subset hq
      · rw [hmru] at hsub
        exact mruStep_touched hsame hmru' hsub
  | @touched p hverb hargs hname hpaged =>
      rw [Ledger.touched_use h hverb hargs hname]
      have hkeep : ∀ q ∈ data.mruBuffers, ((data.touched p).buf q).name = (data.buf q).name :=
        fun _ _ => rfl
      exact mruStep_touched hkeep rfl List.erase_sublist
  | told hverb _ _ =>
      have hquiet : ledger.touched c = none := by rw [Ledger.touched, hverb]
      rw [hquiet]
      exact mruStep_quiet (setBuf_field Buffer.name (by rfl)) (List.Sublist.refl _)

theorem processLine_mruStep (hs : Sound data) (h : ledger.Lists data) {line : Bytes}
    (hrun : data.processLine line = .ok data') :
    MruStep data (ledger.touchedLine line) data' := by
  have hs' := processLine_sound hs hrun
  rw [Ledger.touchedLine]
  rcases processLine_step hs line with ⟨c, hc, hstep⟩ | ⟨hnone, stdout, stderr, hquiet⟩
  · rw [hrun] at hstep
    rw [hc]
    exact hstep.mruStep hs hs' h
  · rw [hquiet] at hrun
    cases hrun
    rw [hnone]
    exact mruStep_quiet (fun _ => rfl) (List.Sublist.refl _)

theorem Sound.name_inj (hs : Sound data) {q : Ptr} (hp : p ∈ data.mruBuffers)
    (hq : q ∈ data.mruBuffers) (heq : (data.buf p).name = (data.buf q).name) : p = q := by
  rcases hs.consistent with ⟨l, hcons⟩
  exact hcons.name_inj ((hcons.mru p).mp hp).1 ((hcons.mru q).mp hq).1 heq

theorem MruStep.byRecency {touched : Option Nat} (hstep : MruStep data touched data')
    (hs' : Sound data') {log : List (Option Nat)}
    (hlog : ByRecency log data.Named data.mruBuffers) :
    ByRecency (log ++ [touched]) data'.Named data'.mruBuffers := by
  have hnamed : ∀ q ∈ data'.mruBuffers, q ∈ data.mruBuffers →
      ∀ name, data'.Named q name ↔ data.Named q name := by
    intro q hq hold name
    rw [Data.Named, Data.Named, hstep.named q hq hold]
  rcases hstep.order with ⟨hsub, hother⟩ | ⟨p, rest, rfl, hmru, hsub⟩
  · apply hlog.keep hsub (fun q hq => hnamed q hq (hsub.subset hq))
    intro q hq name hname heq
    rw [← (hnamed q hq (hsub.subset hq) name).mpr hname] at heq
    exact hother q hq heq
  · have hnodup : data'.mruBuffers.Nodup := by
      rcases hs'.consistent with ⟨l', hcons'⟩
      exact hcons'.mruNodup
    have hinj : ∀ q ∈ data'.mruBuffers, (data'.buf q).name = (data'.buf p).name → q = p :=
      fun q hq heq => hs'.name_inj hq (hmru ▸ List.mem_cons_self) heq
    rw [hmru] at hnodup hnamed hinj ⊢
    have hrest : ∀ q ∈ rest, ∀ name, data'.Named q name ↔ data.Named q name :=
      fun q hq => hnamed q (List.mem_cons_of_mem _ hq) (hsub.subset hq)
    have hother : ∀ q ∈ rest, ¬ data'.Named q (data'.buf p).name := by
      intro q hq heq
      exact (List.nodup_cons.mp hnodup).1 (hinj q (List.mem_cons_of_mem _ hq) heq ▸ hq)
    have hkept : ByRecency (log ++ [some (data'.buf p).name]) data'.Named rest := by
      apply hlog.keep hsub hrest
      intro q hq name hname heq
      rw [← Option.some.inj heq] at hname
      exact hother q hq ((hrest q hq _).mpr hname)
    exact hkept.touch (fun _ => eq_comm) hother

end Step

theorem run_byRecency {lines : List Bytes} {data : Data} (hrun : run lines = .ok data) :
    ByRecency (touchLog lines) data.Named data.mruBuffers := by
  refine run_induction (P := fun lines data => ByRecency (touchLog lines) data.Named
    data.mruBuffers) ?_ ?_ hrun
  · intro data hinit
    rcases initData_sound with ⟨data₀, hinit₀, hs, hempty⟩
    rw [hinit₀] at hinit
    cases hinit
    rcases hs.consistent with ⟨l, hcons⟩
    have hmru : data.mruBuffers = [] := by
      apply List.eq_nil_iff_forall_not_mem.mpr
      intro q hq
      have hmem := ((hcons.mru q).mp hq).1
      rw [hempty] at hmem
      cases hmem
    rw [hmru]
    exact byRecency_nil _ _
  · intro lines data line data' hbefore hlog hline
    have hs := run_sound hbefore
    rw [touchLog_concat]
    have hstep := processLine_mruStep hs (run_lists hbefore) hline
    have hafter : ByRecency (touchLog lines ++ [(ledgerOf lines).touchedLine line])
        data'.Named data'.mruBuffers := hstep.byRecency (processLine_sound hs hline) hlog
    exact hafter

end CmaPool.TestDrm
