import CmaPool.Python.Steps

/-! Every run keeps the pool linked. -/

namespace CmaPool.Python

section Destroy

variable {s : Pool} {bufId : Int} {r x : Ref}

theorem mem_live_destroy (h : Linked s) (hmem : (bufId, r) ∈ s.buffers) :
    x ∈ (s.destroy bufId r).live ↔ x ∈ s.live ∧ x ≠ r := by
  simp only [Pool.live, Pool.destroy, List.mem_map, List.mem_filter, decide_eq_true_eq]
  constructor
  · rintro ⟨⟨key, ref⟩, ⟨hentry, hkey⟩, rfl⟩
    refine ⟨⟨_, hentry, rfl⟩, ?_⟩
    intro heq
    simp only at heq hkey
    subst heq
    have hsame := List.inj_on_of_nodup_map h.refs hentry hmem rfl
    injection hsame with hkeys _
    exact hkey hkeys
  · rintro ⟨⟨⟨key, ref⟩, hentry, rfl⟩, hne⟩
    refine ⟨_, ⟨hentry, ?_⟩, rfl⟩
    intro heq
    simp only at heq hne
    subst heq
    have hsame := List.inj_on_of_nodup_map h.ids hentry hmem rfl
    injection hsame with _ hrefs
    exact hne hrefs

theorem linked_destroy (h : Linked s) (hmem : (bufId, r) ∈ s.buffers) :
    Linked (s.destroy bufId r) := by
  have hsub : (s.destroy bufId r).buffers.Sublist s.buffers := List.filter_sublist
  constructor
  · exact h.ids.sublist (hsub.map _)
  · exact h.refs.sublist (hsub.map _)
  · intro x hx
    exact h.fresh x ((hsub.map _).subset hx)
  · exact h.offsets.filter _
  · exact h.mru.filter _
  · intro x
    rw [mem_live_destroy h hmem]
    change x ∈ s.offsetList.filter (· ∉ [r]) ↔ _
    rw [List.mem_filter, h.paged x]
    simp only [List.mem_singleton, decide_eq_true_eq]
    constructor
    · intro ⟨⟨hlive, hsome⟩, hne⟩
      exact ⟨⟨hlive, hne⟩, hsome⟩
    · intro ⟨⟨hlive, hne⟩, hsome⟩
      exact ⟨⟨hlive, hsome⟩, hne⟩

end Destroy

section Linked

variable {s : Pool}

theorem compacted_lists (s : Pool) (r : Ref) (old : Int) :
    (s.compacted r old).offsetList = s.offsetList ∧ (s.compacted r old).mruList = s.mruList ∧
      (s.compacted r old).overflow = s.overflow ∧ (s.compacted r old).buffers = s.buffers ∧
      (s.compacted r old).compact = s.compact := by
  rw [Pool.compacted]
  split <;> exact ⟨rfl, rfl, rfl, rfl, rfl⟩

theorem linked_compacted (h : Linked s) {r : Ref} {offset : Int}
    (hpaged : (s.heap r).offset = some offset) : Linked (s.compacted r offset) := by
  rw [Pool.compacted]
  split
  · exact linked_setBuffer h r _ (by simp [hpaged])
  · exact h

theorem linked_touch (h : Linked s) {r : Ref} (hr : r ∈ s.offsetList) : Linked (s.touch r) where
  ids := h.ids
  refs := h.refs
  fresh := h.fresh
  offsets := h.offsets
  mru := by
    have hmem : r ∈ s.mruList := h.mru.mem_iff.mpr hr
    have herase : (r :: s.mruList.filter (· ∉ [r])).Perm s.mruList := by
      rw [← erase_eq_filter_not_mem h.mruNodup]
      exact (List.perm_cons_erase hmem).symm
    exact herase.trans h.mru
  paged := h.paged

theorem Step.linked (h : Linked s) {c : Command} {q : Request}
    {result : EStateM.Result Exn Pool Unit} (haccepts : Accepts s c q)
    (hstep : Step s c q result) : Linked (stateOf result) := by
  cases hstep with
  | destroy r =>
      cases haccepts with
      | destroy _ _ hid => exact linked_destroy h (mem_of_lookup hid)
  | addUsecnt r => exact linked_setInUse h r true
  | release r _ => exact linked_setInUse h r false
  | compact r offset _ hpaged =>
      apply linked_compacted (linked_setInUse h r false)
      simpa [Pool.setInUse, Pool.setBuffer] using hpaged
  | compactAbsent r _ _ => exact linked_setInUse h r false
  | create size unmoveable _ hin =>
      cases haccepts with
      | create _ hid _ _ =>
          apply hin.linked (linked_register h hid _ _)
          simp [Pool.live, Pool.register]
  | used r s' hin =>
      cases haccepts with
      | use _ _ hid _ =>
          have hlinked : Linked s' := hin.linked h (live_of_lookup hid)
          apply linked_touch hlinked
          rcases hin.live with ⟨hsame, hsome⟩
          exact (hlinked.paged r).mpr ⟨hsame ▸ live_of_lookup hid, hsome⟩
  | unused r e s' hin =>
      cases haccepts with
      | use _ _ hid _ => exact hin.linked h (live_of_lookup hid)
  | madv r value => exact linked_setBuffer h r _ rfl

/-- The step of a linked pool: an accepted request, or no change. -/
theorem step_cases (h : Linked s) (c : Command) :
    (∃ q result, Accepts s c q ∧ Step s c q result ∧ step s c = stateOf result) ∨
      (∀ q, ¬ Accepts s c q) ∧ step s c = s := by
  rcases processCommand_outcome h c with ⟨q, haccepts, hstep⟩ | ⟨hnone, e, herror⟩
  · exact Or.inl ⟨q, _, haccepts, hstep, rfl⟩
  · exact Or.inr ⟨hnone, by rw [step, herror]; rfl⟩

theorem PageIn.compact {r : Ref} {result : EStateM.Result Exn Pool Unit}
    (hin : PageIn s r result) : (stateOf result).compact = s.compact := by
  cases hin <;> rfl

theorem step_compact (h : Linked s) (c : Command) : (step s c).compact = s.compact := by
  rcases step_cases h c with ⟨q, result, _, hstep, heq⟩ | ⟨_, heq⟩
  · rw [heq]
    cases hstep with
    | compact r offset _ _ =>
        change ((s.setInUse r false).compacted r offset).compact = s.compact
        rw [Pool.compacted]
        split <;> rfl
    | create size unmoveable _ hin => exact hin.compact
    | used r s' hin => exact hin.compact
    | unused r e s' hin => exact hin.compact
    | _ => rfl
  · rw [heq]

theorem step_linked (h : Linked s) (c : Command) : Linked (step s c) := by
  rcases step_cases h c with ⟨q, result, haccepts, hstep, heq⟩ | ⟨_, heq⟩
  · rw [heq]
    exact hstep.linked h haccepts
  · rw [heq]
    exact h

theorem foldl_linked (h : Linked s) (history : List Command) :
    Linked (history.foldl step s) := by
  induction history generalizing s with
  | nil => exact h
  | cons c history ih => exact ih (step_linked h c)

theorem foldl_compact (h : Linked s) (history : List Command) :
    (history.foldl step s).compact = s.compact := by
  induction history generalizing s with
  | nil => rfl
  | cons c history ih => exact (ih (step_linked h c)).trans (step_compact h c)

end Linked

theorem run_linked (compact : Bool) (history : List Command) : Linked (run compact history) :=
  foldl_linked (linked_new compact) history

theorem run_compact (compact : Bool) (history : List Command) :
    (run compact history).compact = compact :=
  foldl_compact (linked_new compact) history

theorem run_append (compact : Bool) (first second : List Command) :
    run compact (first ++ second) = second.foldl step (run compact first) :=
  List.foldl_append

theorem run_concat (compact : Bool) (history : List Command) (c : Command) :
    run compact (history ++ [c]) = step (run compact history) c := by
  rw [run_append]
  rfl

section Reachable

variable {s s' : Pool}

theorem processCommands_eq (history : List Command)
    (hrun : raised (processCommands history s) = none) :
    processCommands history s = .ok ⟨⟩ (history.foldl step s) := by
  induction history generalizing s with
  | nil => rfl
  | cons c history ih =>
      rw [processCommands, bind_apply] at hrun ⊢
      cases hstep : processCommand c s with
      | error e s₁ =>
          rw [hstep] at hrun
          cases hrun
      | ok u s₁ =>
          rw [hstep] at hrun
          rw [List.foldl_cons, step, hstep]
          exact ih hrun

theorem processCommands_linked (h : Linked s) (history : List Command)
    (hrun : processCommands history s = .ok ⟨⟩ s') : Linked s' := by
  have heq := processCommands_eq history (by rw [hrun]; rfl)
  rw [hrun] at heq
  injection heq with _ hfinal
  rw [hfinal]
  exact foldl_linked h history

theorem processCommands_append (first second : List Command) (s : Pool) :
    processCommands (first ++ second) s =
      (do processCommands first; processCommands second : M Unit) s := by
  induction first generalizing s with
  | nil => rfl
  | cons c first ih =>
      simp only [List.cons_append, processCommands, bind_apply]
      cases processCommand c s with
      | error e s' => rfl
      | ok u s' => simpa using ih s'

/-- The history so far was processed without an exception. -/
theorem processCommands_induction {P : List Command → Pool → Prop} {s₀ : Pool} (start : P [] s₀)
    (command : ∀ history s c s', P history s → processCommand c s = .ok ⟨⟩ s' →
      P (history ++ [c]) s')
    {history : List Command} {s : Pool} (hrun : processCommands history s₀ = .ok ⟨⟩ s) :
    P history s := by
  induction history using List.reverseRecOn generalizing s with
  | nil =>
      cases hrun
      exact start
  | append_singleton history c ih =>
      rw [processCommands_append, bind_apply] at hrun
      cases hbefore : processCommands history s₀ with
      | error e before =>
          rw [hbefore] at hrun
          cases hrun
      | ok u before =>
          rw [hbefore] at hrun
          simp only [processCommands, bind_apply] at hrun
          cases hlast : processCommand c before with
          | error e after =>
              rw [hlast] at hrun
              cases hrun
          | ok u after =>
              rw [hlast] at hrun
              cases hrun
              exact command history before c s (ih hbefore) hlast

theorem processCommand_linked {c : Command} (h : Linked s)
    (hrun : processCommand c s = .ok ⟨⟩ s') : Linked s' := by
  have hstep : step s c = s' := by
    rw [step, hrun]
    rfl
  exact hstep ▸ step_linked h c

end Reachable

end CmaPool.Python
