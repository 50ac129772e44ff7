import CmaPool.Python.Overflow
import CmaPool.TestDrm.Overflow

/-! The overflow of both programs. -/

namespace CmaPool.Compare

/-- Both counters hold the size of what is live and not paged in, and the teardown
leaves nothing. -/
theorem overflow_accounted :
    (∀ compact history,
      (Python.run compact history).overflow = (Python.run compact history).absentSize) ∧
    ∀ lines data, TestDrm.run lines = .ok data →
      data.overflow = data.absentSize % 2 ^ 64 ∧
      ∃ data', data.freeBuffers = .ok data' ∧ TestDrm.TornDown data' := by
  constructor
  · exact fun compact history => (Python.run_balanced compact history).overflow
  · intro lines data hrun
    have hbalanced := TestDrm.run_balanced hrun
    exact ⟨hbalanced, TestDrm.freeBuffers_tornDown (TestDrm.run_sound hrun) hbalanced⟩

/-- In both programs the second buffer takes the place of the first. -/
theorem overflow_accounted_evicting :
    (∃ history, history = [⟨0, "create", 1, some ["100000000"]⟩,
        ⟨1, "create", 2, some ["100000000"]⟩] ∧
      (Python.run false history).offsetList = [1] ∧
      (Python.run false history).overflow = 100000000 ∧
      (Python.run false history).overflow = (Python.run false history).absentSize) ∧
    ∃ data, TestDrm.run [TestDrm.text "[1] @@@ create 00000001 100000000\n",
        TestDrm.text "[2] @@@ create 00000002 100000000\n"] = .ok data ∧
      data.overflow = 100000000 ∧ data.overflow = data.absentSize % 2 ^ 64 ∧
      ∃ data', data.freeBuffers = .ok data' ∧ TestDrm.TornDown data' := by
  have hoverflow : (TestDrm.run [TestDrm.text "[1] @@@ create 00000001 100000000\n",
      TestDrm.text "[2] @@@ create 00000002 100000000\n"]).toOption.map
      (fun data => data.overflow) = some 100000000 := by
    decide +kernel
  rcases TestDrm.exists_run hoverflow with ⟨data, hrun, hoverflow⟩
  exact ⟨⟨_, rfl, by decide +kernel, by decide +kernel, overflow_accounted.1 false _⟩,
    data, hrun, hoverflow, overflow_accounted.2 _ data hrun⟩

end CmaPool.Compare
