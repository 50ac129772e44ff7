import CmaPool.Python.Runs

/-! The exceptions of a command whose preconditions hold.

Only running out of space is meant to fail. Three requests raise something else:
ending the use of a paged-out buffer of a compacting pool, a madv command without
an argument, and a create whose size has more digits than `int` takes. -/

namespace CmaPool.Python

/-- What the handlers check of a command before they act on it. -/
inductive Checked (s : Pool) (c : Command) : Prop
  | destroy {r : Ref} (hcmd : c.cmd = "destroy") (hargs : c.args = none)
      (hid : s.buffers.lookup c.bufId = some r)
  | addUsecnt {r : Ref} (hcmd : c.cmd = "add_usecnt") (hargs : c.args = none)
      (hid : s.buffers.lookup c.bufId = some r) (hidle : (s.heap r).inUse = false)
  | removeUsecnt {r : Ref} (hcmd : c.cmd = "remove_usecnt") (hargs : c.args = none)
      (hid : s.buffers.lookup c.bufId = some r) (hbusy : (s.heap r).inUse = true)
  | create {arg : String} {rest : List String} (hcmd : c.cmd = "create")
      (hid : s.buffers.lookup c.bufId = none) (hargs : c.args = some (arg :: rest))
      (hsize : IsDecimal arg)
  | use {r : Ref} (hcmd : c.cmd = "use") (hargs : c.args = none)
      (hid : s.buffers.lookup c.bufId = some r) (hmadv : (s.heap r).madv = "willneed")
  | madv {r : Ref} (hcmd : c.cmd = "madv") (hid : s.buffers.lookup c.bufId = some r)

/-- The only exception is that of `_page_in_buffer`. -/
def Declared (result : EStateM.Result Exn Pool Unit) : Prop :=
  ∀ e, raised result = some e → ∃ size, e = .noSpace size

/-- Ending the use of a paged-out buffer of a compacting pool. -/
def CompactsAbsent (s : Pool) (c : Command) : Prop :=
  s.compact = true ∧ c.cmd = "remove_usecnt" ∧
    ∃ r, s.buffers.lookup c.bufId = some r ∧ (s.heap r).offset = none

def LacksValue (c : Command) : Prop :=
  c.cmd = "madv" ∧ (c.args = none ∨ c.args = some [])

def LongSize (c : Command) : Prop :=
  c.cmd = "create" ∧ ∃ size ∈ (c.args.getD []).head?, maxStrDigits < size.length

section Declared

variable {s : Pool} {c : Command}

theorem PageIn.declared {r : Ref} {result : EStateM.Result Exn Pool Unit}
    (hin : PageIn s r result) : Declared result := by
  intro e herror
  cases hin with
  | resident _ => cases herror
  | placed _ _ _ _ _ _ _ => cases herror
  | failed _ _ _ _ _ =>
      cases herror
      exact ⟨_, rfl⟩

/-- An accepted request fails in an undeclared way exactly when it compacts
around a paged-out buffer. -/
theorem Step.declared_iff {q : Request} {result : EStateM.Result Exn Pool Unit}
    (haccepts : Accepts s c q) (hstep : Step s c q result) :
    Declared result ↔ ¬ CompactsAbsent s c := by
  have hother : c.cmd ≠ "remove_usecnt" → ¬ CompactsAbsent s c := fun hne habsent =>
    hne habsent.2.1
  have hok : ∀ s', Declared (.ok ⟨⟩ s') := fun s' e herror => by cases herror
  cases haccepts with
  | destroy hcmd _ _ =>
      cases hstep
      exact iff_of_true (hok _) (hother (by simp [hcmd]))
  | addUsecnt hcmd _ _ _ =>
      cases hstep
      exact iff_of_true (hok _) (hother (by simp [hcmd]))
  | removeUsecnt hcmd _ hid _ =>
      cases hstep with
      | release _ hplain =>
          apply iff_of_true (hok _)
          intro habsent
          simp [CompactsAbsent, hplain] at habsent
      | compact _ offset _ hpaged =>
          apply iff_of_true (hok _)
          intro ⟨_, _, r, hid', hnone⟩
          obtain rfl := Option.some.inj (hid.symm.trans hid')
          simp [hpaged] at hnone
      | compactAbsent _ hcompact hnone =>
          apply iff_of_false
          · intro hdeclared
            rcases hdeclared _ rfl with ⟨size, hsize⟩
            cases hsize
          · exact fun hnot => hnot ⟨hcompact, hcmd, _, hid, hnone⟩
  | create hcmd _ _ _ =>
      cases hstep with
      | create _ _ _ hin => exact iff_of_true hin.declared (hother (by simp [hcmd]))
  | use hcmd _ _ _ =>
      cases hstep with
      | used _ s' hin => exact iff_of_true (hok _) (hother (by simp [hcmd]))
      | unused _ e s' hin => exact iff_of_true hin.declared (hother (by simp [hcmd]))
  | madv hcmd _ _ =>
      cases hstep
      exact iff_of_true (hok _) (hother (by simp [hcmd]))

theorem Checked.accepts_or (hchecked : Checked s c) :
    (∃ q, Accepts s c q) ∨ LacksValue c ∨ LongSize c ∧ s.buffers.lookup c.bufId = none := by
  cases hchecked with
  | destroy hcmd hargs hid => exact Or.inl ⟨_, .destroy hcmd hargs hid⟩
  | addUsecnt hcmd hargs hid hidle => exact Or.inl ⟨_, .addUsecnt hcmd hargs hid hidle⟩
  | removeUsecnt hcmd hargs hid hbusy => exact Or.inl ⟨_, .removeUsecnt hcmd hargs hid hbusy⟩
  | @create arg rest hcmd hid hargs hsize =>
      have hint := int_of_isDecimal hsize
      by_cases hlong : maxStrDigits < arg.length
      · exact Or.inr (Or.inr ⟨⟨hcmd, arg, by simp [hargs], hlong⟩, hid⟩)
      · rw [if_neg hlong] at hint
        exact Or.inl ⟨_, .create hcmd hid hargs hint⟩
  | use hcmd hargs hid hmadv => exact Or.inl ⟨_, .use hcmd hargs hid hmadv⟩
  | madv hcmd hid =>
      cases hargs : c.args with
      | none => exact Or.inr (Or.inl ⟨hcmd, Or.inl hargs⟩)
      | some args =>
          cases args with
          | nil => exact Or.inr (Or.inl ⟨hcmd, Or.inr hargs⟩)
          | cons value rest => exact Or.inl ⟨_, .madv hcmd hargs hid⟩

theorem bufMadv_lacksValue (hlacks : LacksValue c) :
    ¬ Declared (processCommand c s) := by
  intro hdeclared
  rw [processCommand_handler rfl hlacks.1] at hdeclared
  rcases hlacks.2 with hargs | hargs
  · rcases hdeclared .type (by simp [bufMadv, hargs, firstArg, raised]) with ⟨size, hsize⟩
    cases hsize
  · rcases hdeclared .index (by simp [bufMadv, hargs, firstArg, raised]) with ⟨size, hsize⟩
    cases hsize

theorem bufCreate_longSize (hchecked : Checked s c) (hlong : LongSize c)
    (hid : s.buffers.lookup c.bufId = none) : ¬ Declared (processCommand c s) := by
  intro hdeclared
  rw [processCommand_handler rfl hlong.1] at hdeclared
  cases hchecked with
  | @create arg rest _ _ hargs hsize =>
      obtain ⟨_, size, hsome, hlimit⟩ := hlong
      obtain rfl : arg = size := by simpa [hargs] using hsome
      have hint := int_of_isDecimal hsize
      rw [if_pos hlimit] at hint
      rcases hdeclared .value (by simp [bufCreate, pyAssert, hid, hargs, firstArg, hint, raised]) with
        ⟨size, hsize⟩
      cases hsize
  | _ => simp_all [LongSize]

theorem Accepts.not_lacksValue {q : Request} (haccepts : Accepts s c q) : ¬ LacksValue c := by
  intro hlacks
  cases haccepts <;> simp_all [LacksValue]

theorem Accepts.not_longSize {q : Request} (haccepts : Accepts s c q) (hchecked : Checked s c) :
    ¬ LongSize c := by
  rintro ⟨hcreate, size, hsome, hlimit⟩
  cases hchecked with
  | @create arg rest _ _ hargs hsize =>
      obtain rfl : arg = size := by simpa [hargs] using hsome
      have hint := int_of_isDecimal hsize
      rw [if_pos hlimit] at hint
      cases haccepts <;> simp_all
  | _ => simp_all

end Declared

theorem processCommand_declared_iff {compact : Bool} {history : List Command} {s : Pool}
    {c : Command} (hrun : processCommands history (Pool.new compact) = .ok ⟨⟩ s)
    (hchecked : Checked s c) :
    Declared (processCommand c s) ↔ ¬ CompactsAbsent s c ∧ ¬ LacksValue c ∧ ¬ LongSize c := by
  have hlinked := processCommands_linked (linked_new compact) history hrun
  rcases processCommand_outcome hlinked c with ⟨q, haccepts, hstep⟩ | ⟨hnone, _⟩
  · rw [hstep.declared_iff haccepts]
    have hothers := And.intro haccepts.not_lacksValue (haccepts.not_longSize hchecked)
    exact (and_iff_left hothers).symm
  · rcases hchecked.accepts_or with ⟨q, haccepts⟩ | hlacks | ⟨hlong, hid⟩
    · exact absurd haccepts (hnone q)
    · exact iff_of_false (bufMadv_lacksValue hlacks) fun hall => hall.2.1 hlacks
    · exact iff_of_false (bufCreate_longSize hchecked hlong hid) fun hall => hall.2.2 hlong

/-- Buffer 3 has evicted buffer 1 and lies below buffer 2, which is in use. -/
def evictingHistory : List Command :=
  [⟨0, "create", 1, some ["83886080"]⟩, ⟨1, "create", 2, some ["50331648"]⟩,
    ⟨2, "add_usecnt", 2, none⟩, ⟨3, "create", 3, some ["67108864"]⟩]

/-- The end of the use moves buffer 2 down, and buffer 1 comes back instead of buffer 3. -/
theorem processCommand_declared_evicting :
    (Declared (processCommand ⟨4, "remove_usecnt", 2, none⟩ (run true evictingHistory)) ∧
      ((run true (evictingHistory ++ [⟨4, "remove_usecnt", 2, none⟩])).heap 1).offset =
        some 67108864) ∧
    Declared (processCommand ⟨4, "use", 1, none⟩ (run true evictingHistory)) ∧
      (run true (evictingHistory ++ [⟨4, "use", 1, none⟩])).overflow = 67108864 := by
  have hrun : processCommands evictingHistory (Pool.new true) = .ok ⟨⟩ (run true evictingHistory) :=
    processCommands_eq evictingHistory (by decide +kernel)
  have hrelease : Checked (run true evictingHistory) ⟨4, "remove_usecnt", 2, none⟩ :=
    .removeUsecnt rfl rfl (r := 1) (by decide +kernel) (by decide +kernel)
  have huse : Checked (run true evictingHistory) ⟨4, "use", 1, none⟩ :=
    .use rfl rfl (r := 0) (by decide +kernel) (by decide +kernel)
  have hpaged : ¬ CompactsAbsent (run true evictingHistory) ⟨4, "remove_usecnt", 2, none⟩ := by
    rintro ⟨_, _, r, hid, hoffset⟩
    have hbuffer : (run true evictingHistory).buffers.lookup 2 = some 1 := by decide +kernel
    cases hbuffer.symm.trans hid
    exact absurd hoffset (by decide +kernel)
  refine ⟨⟨(processCommand_declared_iff hrun hrelease).mpr ⟨hpaged, ?_, ?_⟩, by decide +kernel⟩,
    (processCommand_declared_iff hrun huse).mpr ⟨?_, ?_, ?_⟩, by decide +kernel⟩
  · simp [LacksValue]
  · simp [LongSize]
  · simp [CompactsAbsent]
  · simp [LacksValue]
  · simp [LongSize]

/-- Buffer 1 is evicted by the create of buffer 2 before a command uses it. -/
theorem absent_compacted :
    ¬ ∀ compact history s c, processCommands history (Pool.new compact) = .ok ⟨⟩ s →
      Checked s c → Declared (processCommand c s) := by
  intro hdeclared
  have hfails := hdeclared true _ _ ⟨3, "remove_usecnt", 1, none⟩
    (processCommands_eq [⟨0, "create", 1, some ["134217728"]⟩,
      ⟨1, "create", 2, some ["134217728"]⟩, ⟨2, "add_usecnt", 1, none⟩] (by decide +kernel))
    (.removeUsecnt rfl rfl (r := 0) (by decide +kernel) (by decide +kernel))
  rcases hfails .type (by decide +kernel) with ⟨size, hsize⟩
  cases hsize

end CmaPool.Python
