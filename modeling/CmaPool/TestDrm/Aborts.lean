import CmaPool.TestDrm.Ledger

/-! The lines that end the program.

`buf_create` registers a buffer of any size, and the scan asserts that the size
is one that the pool can hold; every other assertion always holds. -/

namespace CmaPool.TestDrm

open Drm

/-- The line creates a buffer of a size that the pool cannot hold. -/
def BadLine (ledger : Ledger) (line : Bytes) : Prop :=
  ∃ c size argsOffset, lineCommand line = some c ∧ c.verb = .create ∧ ledger c.name = none ∧
    scanSize c.args = some (size, argsOffset) ∧ (size = 0 ∨ size > poolSize)

theorem badLine_iff {data : Data} {ledger : Ledger} {line : Bytes} {c : Command}
    (h : ledger.Lists data) (hline : lineCommand line = some c) :
    BadLine ledger line ↔ BadCreate data c := by
  constructor
  · intro ⟨c', size, argsOffset, hc', hverb, hname, hsize, hrange⟩
    rw [hline] at hc'
    cases hc'
    exact ⟨hverb, (h c.name).mp hname, size, argsOffset, hsize, hrange⟩
  · intro ⟨hverb, hname, size, argsOffset, hsize, hrange⟩
    exact ⟨c, size, argsOffset, hline, hverb, (h c.name).mpr hname, hsize, hrange⟩

theorem processLine_aborts_or {data : Data} {ledger : Ledger} (hs : Sound data)
    (h : ledger.Lists data) (line : Bytes) :
    BadLine ledger line ∧ data.processLine line = .error (.assertion .scanInit) ∨
      ¬ BadLine ledger line ∧ ∃ data', data.processLine line = .ok data' := by
  rcases processLine_step hs line with ⟨c, hc, hstep⟩ | ⟨hnone, stdout, stderr, hquiet⟩
  · rw [badLine_iff h hc]
    exact hstep.aborts_or hs
  · right
    refine ⟨?_, _, hquiet⟩
    intro ⟨c, size, argsOffset, hc, _⟩
    rw [hnone] at hc
    cases hc

/-- A run reaches its end exactly when no line creates a buffer that the pool
cannot hold. -/
theorem run_completes_iff (lines : List Bytes) :
    (∃ data, run lines = .ok data) ↔
      ∀ front line, front ++ [line] <+: lines → ¬ BadLine (ledgerOf front) line := by
  induction lines using List.reverseRecOn with
  | nil =>
      rcases initData_sound with ⟨data, hinit, _, _⟩
      have hrun : run [] = .ok data := by
        rw [run, hinit]
        rfl
      simp [hrun]
  | append_singleton lines last ih =>
      constructor
      · rintro ⟨data', hrun⟩ front line hfront
        cases hbefore : run lines with
        | error bug =>
            rw [run_append, hbefore] at hrun
            cases hrun
        | ok data =>
            rcases List.prefix_concat_iff.mp hfront with heq | hfront
            · rcases List.append_inj' heq rfl with ⟨rfl, hline⟩
              rw [List.singleton_inj.mp hline]
              rcases processLine_aborts_or (run_sound hbefore) (run_lists hbefore) last with
                ⟨_, habort⟩ | ⟨hgood, _⟩
              · rw [run_concat hbefore, habort] at hrun
                cases hrun
              · exact hgood
            · exact ih.mp ⟨data, hbefore⟩ front line hfront
      · intro hgood
        have hfront : ∀ front line, front ++ [line] <+: lines → ¬ BadLine (ledgerOf front) line :=
          fun front line hpre => hgood front line (hpre.trans (List.prefix_append _ _))
        rcases ih.mpr hfront with ⟨data, hbefore⟩
        rcases processLine_aborts_or (run_sound hbefore) (run_lists hbefore) last with
          ⟨hbad, _⟩ | ⟨_, data', hlast⟩
        · exact absurd hbad (hgood lines last (List.prefix_refl _))
        · refine ⟨data'.nextLine, ?_⟩
          rw [run_concat hbefore, hlast]
          rfl

theorem empty_create_aborts :
    ¬ (∃ data, run [text "[1] @@@ create 1 0\n"] = .ok data) ∧
      (run [text "[1] @@@ create 1 0\n"]).map (fun _ => ()) = .error (.assertion .scanInit) := by
  have habort : (run [text "[1] @@@ create 1 0\n"]).map (fun _ => ()) =
      .error (.assertion .scanInit) := by
    decide +kernel
  refine ⟨?_, habort⟩
  intro ⟨data, hrun⟩
  rw [hrun] at habort
  cases habort

end CmaPool.TestDrm
