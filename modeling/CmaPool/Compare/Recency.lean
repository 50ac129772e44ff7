import CmaPool.Python.Recency
import CmaPool.TestDrm.Recency

/-! The order of the MRU lists of both programs. -/

namespace CmaPool.Compare

open Recency

/-- Both lists hold the buffers that are paged in, the one whose last accepted
create or use is the latest first, and no other command changes their order. -/
theorem mru_byRecency :
    (∀ compact history s, Python.processCommands history (Python.Pool.new compact) = .ok ⟨⟩ s →
      (∀ r, r ∈ s.mruList ↔ r ∈ s.live ∧ (s.heap r).offset.isSome = true) ∧
      ByRecency (Python.touchLog history) s.Named s.mruList ∧
      ∀ c s', Python.processCommand c s = .ok ⟨⟩ s' → Python.MruStep s c s') ∧
    ∀ lines data, TestDrm.run lines = .ok data →
      (∀ p, p ∈ data.mruBuffers ↔ p ∈ data.allBuffers ∧ (data.buf p).pagedIn = true) ∧
      ByRecency (TestDrm.touchLog lines) data.Named data.mruBuffers ∧
      ∀ line data', data.processLine line = .ok data' →
        TestDrm.MruStep data ((TestDrm.ledgerOf lines).touchedLine line) data' := by
  constructor
  · intro compact history s hrun
    have hlinked := Python.processCommands_linked (Python.linked_new compact) history hrun
    refine ⟨fun r => ?_, Python.processCommands_byRecency hrun, fun c s' hc => ?_⟩
    · rw [hlinked.mru.mem_iff]
      exact hlinked.paged r
    · exact Python.processCommand_mruStep hlinked hc
  · intro lines data hrun
    have hs := TestDrm.run_sound hrun
    rcases hs.consistent with ⟨l, hcons⟩
    refine ⟨hcons.mru, TestDrm.run_byRecency hrun, fun line data' hline => ?_⟩
    exact TestDrm.processLine_mruStep hs (TestDrm.run_lists hrun) hline

/-- Buffer 1 is used after buffer 2 was created. -/
theorem mru_byRecency_used :
    (∃ s, Python.processCommands [⟨0, "create", 1, some ["4096"]⟩,
        ⟨1, "create", 2, some ["4096"]⟩, ⟨2, "use", 1, none⟩] (Python.Pool.new true) = .ok ⟨⟩ s ∧
      ByRecency [some 1, some 2, some 1] s.Named s.mruList) ∧
    ∃ data, TestDrm.run [TestDrm.text "[0] @@@ create 1 4096\n",
        TestDrm.text "[1] @@@ create 2 4096\n", TestDrm.text "[2] @@@ use 1\n"] = .ok data ∧
      data.mruBuffers = [0, 1] ∧
      ByRecency [some 1, some 2, some 1] data.Named data.mruBuffers := by
  have hrun := Python.processCommands_eq (s := Python.Pool.new true)
    [⟨0, "create", 1, some ["4096"]⟩, ⟨1, "create", 2, some ["4096"]⟩, ⟨2, "use", 1, none⟩]
    (by decide +kernel)
  have hmru : (TestDrm.run [TestDrm.text "[0] @@@ create 1 4096\n",
      TestDrm.text "[1] @@@ create 2 4096\n", TestDrm.text "[2] @@@ use 1\n"]).toOption.map
      (fun data => data.mruBuffers) = some [0, 1] := by
    decide +kernel
  have hlog : TestDrm.touchLog [TestDrm.text "[0] @@@ create 1 4096\n",
      TestDrm.text "[1] @@@ create 2 4096\n", TestDrm.text "[2] @@@ use 1\n"] =
      [some 1, some 2, some 1] := by
    decide +kernel
  rcases TestDrm.exists_run hmru with ⟨data, hdata, hmru⟩
  have hrecent := (mru_byRecency.2 _ data hdata).2.1
  rw [hlog] at hrecent
  exact ⟨⟨_, hrun, (mru_byRecency.1 true _ _ hrun).2.1⟩, data, hdata, hmru, hrecent⟩

end CmaPool.Compare
