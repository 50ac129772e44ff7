import CmaPool.Lib.Recency
import CmaPool.Python.Runs

/-! The MRU list is in the order of the last create or use. -/

namespace CmaPool.Python

open Recency

def Command.touches (c : Command) : Bool := c.cmd = "create" ∨ c.cmd = "use"

/-- The id that each command of a history without exceptions creates or uses. -/
def touchLog (history : List Command) : List (Option Int) :=
  history.map fun c => if c.touches then some c.bufId else none

def Pool.Named (s : Pool) (r : Ref) (bufId : Int) : Prop := (bufId, r) ∈ s.buffers

/-- What a command that does not raise does to `mru_list`. -/
structure MruStep (s : Pool) (c : Command) (s' : Pool) : Prop where
  named : ∀ x ∈ s'.mruList, x ∈ s.mruList → ∀ bufId, s'.Named x bufId ↔ s.Named x bufId
  quiet : c.touches = false → s'.mruList.Sublist s.mruList
  touched : c.touches = true → ∃ r rest, s'.Named r c.bufId ∧ s'.mruList = r :: rest ∧
    rest.Sublist s.mruList

section Named

variable {s : Pool} {r x : Ref} {bufId other : Int}

theorem Linked.named_unique (h : Linked s) (hr : s.Named r bufId) :
    s.Named r other ↔ other = bufId := by
  constructor
  · intro hother
    have hsame := List.inj_on_of_nodup_map h.refs hother hr rfl
    exact congrArg Prod.fst hsame
  · intro heq
    rw [heq]
    exact hr

theorem Linked.named_inj (h : Linked s) (hr : s.Named r bufId) (hx : s.Named x bufId) : x = r := by
  have hsame := List.inj_on_of_nodup_map h.ids hx hr rfl
  exact congrArg Prod.snd hsame

end Named

section Step

variable {s s' : Pool} {c : Command} {r : Ref}

/-- A command that leaves the table of buffers and the order of the list. -/
theorem mruStep_quiet (htouches : c.touches = false) (hbuffers : s'.buffers = s.buffers)
    (hmru : s'.mruList = s.mruList) : MruStep s c s' where
  named := by
    intro x _ _ bufId
    rw [Pool.Named, Pool.Named, hbuffers]
  quiet := fun _ => hmru ▸ List.Sublist.refl _
  touched := by simp [htouches]

theorem mruStep_destroy (h : Linked s) (hcmd : c.cmd = "destroy")
    (hmem : s.Named r c.bufId) : MruStep s c (s.destroy c.bufId r) where
  named := by
    intro x hx _ bufId
    have hne : x ≠ r := by simpa [Pool.destroy] using (List.mem_filter.mp hx).2
    simp only [Pool.Named, Pool.destroy, List.mem_filter, decide_eq_true_eq]
    constructor
    · exact And.left
    · intro hnamed
      refine ⟨hnamed, fun heq => hne ?_⟩
      subst heq
      exact h.named_inj hmem hnamed
  quiet := fun _ => List.filter_sublist
  touched := by simp [Command.touches, hcmd]

theorem mruStep_touched (htouches : c.touches = true) {rest : List Ref}
    (hnamed : ∀ x ∈ s.mruList, ∀ bufId, s'.Named x bufId ↔ s.Named x bufId)
    (hr : s'.Named r c.bufId) (hmru : s'.mruList = r :: rest) (hsub : rest.Sublist s.mruList) :
    MruStep s c s' where
  named := fun x _ hx => hnamed x hx
  quiet := by simp [htouches]
  touched := fun _ => ⟨r, rest, hr, hmru, hsub⟩

theorem mruStep_create (h : Linked s) (hcmd : c.cmd = "create") {buf : Buffer}
    (habsent : buf.offset = none) (hin : PageIn (s.register c.bufId buf) s.nextRef (.ok ⟨⟩ s')) :
    MruStep s c s' := by
  have hnamed : ∀ x ∈ s.mruList, ∀ bufId,
      (s.register c.bufId buf).Named x bufId ↔ s.Named x bufId := by
    intro x hx bufId
    have hlive := ((h.paged x).mp (h.mru.mem_iff.mp hx)).1
    have hne : x ≠ s.nextRef := fun heq => Nat.lt_irrefl _ (heq ▸ h.fresh x hlive)
    simp [Pool.Named, Pool.register, hne]
  cases hin with
  | resident hpaged => simp [Pool.register, habsent] at hpaged
  | placed evicted spot _ _ _ _ _ =>
      have hr : (s.register c.bufId buf).Named s.nextRef c.bufId := by
        simp [Pool.Named, Pool.register]
      have htouches : c.touches = true := by simp [Command.touches, hcmd]
      exact mruStep_touched htouches hnamed hr rfl List.filter_sublist

theorem mruStep_use (hcmd : c.cmd = "use") (hr : s.Named r c.bufId)
    (hin : PageIn s r (.ok ⟨⟩ s')) : MruStep s c (s'.touch r) := by
  have htouches : c.touches = true := by simp [Command.touches, hcmd]
  cases hin with
  | resident _ =>
      exact mruStep_touched htouches (fun _ _ _ => Iff.rfl) hr rfl List.filter_sublist
  | placed evicted spot _ _ _ _ _ =>
      have hdrop : (r :: (s.pageOut evicted).mruList).filter (· ∉ [r]) =
          (s.pageOut evicted).mruList.filter (· ∉ [r]) :=
        List.filter_cons_of_neg (by simp)
      have hsub : ((r :: (s.pageOut evicted).mruList).filter (· ∉ [r])).Sublist s.mruList := by
        rw [hdrop]
        exact List.filter_sublist.trans List.filter_sublist
      exact mruStep_touched htouches (fun _ _ _ => Iff.rfl) hr rfl hsub

theorem Step.mruStep (h : Linked s) {q : Request} (haccepts : Accepts s c q)
    (hstep : Step s c q (.ok ⟨⟩ s')) : MruStep s c s' := by
  cases hstep with
  | destroy r =>
      cases haccepts with
      | destroy hcmd _ hid => exact mruStep_destroy h hcmd (mem_of_lookup hid)
  | addUsecnt r =>
      cases haccepts with
      | addUsecnt hcmd _ _ _ =>
          exact mruStep_quiet (by simp [Command.touches, hcmd]) rfl rfl
  | release r _ =>
      cases haccepts with
      | removeUsecnt hcmd _ _ _ =>
          exact mruStep_quiet (by simp [Command.touches, hcmd]) rfl rfl
  | compact r offset _ _ =>
      cases haccepts with
      | removeUsecnt hcmd _ _ _ =>
          rcases compacted_lists (s.setInUse r false) r offset with ⟨_, hmru, _, hbuffers, _⟩
          exact mruStep_quiet (by simp [Command.touches, hcmd]) hbuffers hmru
  | create size unmoveable _ hin =>
      cases haccepts with
      | create hcmd _ _ _ => exact mruStep_create h hcmd rfl hin
  | used r s' hin =>
      cases haccepts with
      | use hcmd _ hid _ => exact mruStep_use hcmd (mem_of_lookup hid) hin
  | madv r value =>
      cases haccepts with
      | madv hcmd _ _ => exact mruStep_quiet (by simp [Command.touches, hcmd]) rfl rfl

theorem processCommand_mruStep (h : Linked s) (hrun : processCommand c s = .ok ⟨⟩ s') :
    MruStep s c s' := by
  rcases processCommand_outcome h c with ⟨q, haccepts, hstep⟩ | ⟨_, e, herror⟩
  · rw [hrun] at hstep
    exact hstep.mruStep h haccepts
  · rw [hrun] at herror
    cases herror

theorem MruStep.byRecency (hstep : MruStep s c s') (h' : Linked s') {log : List (Option Int)}
    (hlog : ByRecency log s.Named s.mruList) :
    ByRecency (log ++ [if c.touches then some c.bufId else none]) s'.Named s'.mruList := by
  cases htouches : c.touches with
  | false =>
      have hsub := hstep.quiet htouches
      exact hlog.keep hsub (fun x hx => hstep.named x hx (hsub.subset hx)) (by simp)
  | true =>
      rcases hstep.touched htouches with ⟨r, rest, hr, hmru, hsub⟩
      have hnodup := h'.mruNodup
      have hnamed := hstep.named
      rw [hmru] at hnodup hnamed ⊢
      have hother : ∀ x ∈ rest, ¬ s'.Named x c.bufId := by
        intro x hx hxname
        exact (List.nodup_cons.mp hnodup).1 (h'.named_inj hr hxname ▸ hx)
      have hrest : ∀ x ∈ rest, ∀ bufId, s'.Named x bufId ↔ s.Named x bufId :=
        fun x hx => hnamed x (List.mem_cons_of_mem _ hx) (hsub.subset hx)
      have hkept : ByRecency (log ++ [some c.bufId]) s'.Named rest := by
        apply hlog.keep hsub hrest
        intro x hx bufId hbufId heq
        rw [← Option.some.inj heq] at hbufId
        exact hother x hx ((hrest x hx _).mpr hbufId)
      exact hkept.touch (fun m => h'.named_unique hr) hother

end Step

theorem touchLog_concat (history : List Command) (c : Command) :
    touchLog (history ++ [c]) =
      touchLog history ++ [if c.touches then some c.bufId else none] := List.map_append

/-- In a history without exceptions, the list is in the order of its touches. -/
theorem processCommands_byRecency {compact : Bool} {history : List Command} {s : Pool}
    (hrun : processCommands history (Pool.new compact) = .ok ⟨⟩ s) :
    ByRecency (touchLog history) s.Named s.mruList := by
  have hboth : Linked s ∧ ByRecency (touchLog history) s.Named s.mruList := by
    refine processCommands_induction
      (P := fun history s => Linked s ∧ ByRecency (touchLog history) s.Named s.mruList)
      ⟨linked_new compact, byRecency_nil _ _⟩ ?_ hrun
    intro history s c s' ⟨hlinked, hlog⟩ hc
    have hlinked' := processCommand_linked hlinked hc
    refine ⟨hlinked', ?_⟩
    rw [touchLog_concat]
    exact (processCommand_mruStep hlinked hc).byRecency hlinked' hlog
  exact hboth.2

end CmaPool.Python
