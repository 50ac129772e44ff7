import CmaPool.Python.Frame

/-! Unmoveable buffers.

Eviction and the purge honour the flag. Compaction does not look at it, so the
buffers stay put exactly in the runs that never compact one of them across a
gap. -/

namespace CmaPool.Python

/-- An unmoveable buffer, once paged in, keeps its offset until it is destroyed. -/
def StaysPut (compact : Bool) (history : List Command) : Prop :=
  ∀ before between after, history = before ++ between ++ after →
    ∀ bufId r offset, (run compact before).At bufId r offset →
      ((run compact before).heap r).unmoveable = true →
      (∀ c ∈ between, ¬ c.Destroys bufId) →
      (run compact (before ++ between)).At bufId r offset

/-- The command ends the use of an unmoveable buffer that is paged in above a
gap, in a compacting pool. -/
def Slides (s : Pool) (c : Command) : Prop :=
  s.compact = true ∧ ∃ r offset, c.Releases c.bufId ∧ s.At c.bufId r offset ∧
    (s.heap r).inUse = true ∧ (s.heap r).unmoveable = true ∧ s.endBelow offset < offset

section Step

variable {s : Pool} {c : Command} {bufId : Int} {r : Ref} {offset : Int}

theorem step_unmoveable (h : Linked s) (hat : s.At bufId r offset)
    (hfixed : (s.heap r).unmoveable = true) (hdestroy : ¬ c.Destroys bufId)
    (hslides : ¬ Slides s c) :
    (step s c).At bufId r offset ∧ ((step s c).heap r).unmoveable = true := by
  by_cases hid : bufId = c.bufId
  · subst hid
    have hown := step_own h hat.entry hat.paged hdestroy
    refine ⟨⟨hown.entry, hown.stayed ?_⟩, hown.unmoveable.trans hfixed⟩
    intro hcompact hreleases hbusy hgap
    exact hslides ⟨hcompact, r, offset, hreleases, hat, hbusy, hfixed, hgap⟩
  · rcases step_other_pinned h hat hid (Or.inr hfixed) with ⟨hat', _, hunmoveable⟩
    exact ⟨hat', hunmoveable.trans hfixed⟩

theorem foldl_unmoveable (h : Linked s) (hat : s.At bufId r offset)
    (hfixed : (s.heap r).unmoveable = true) (between : List Command)
    (hdestroy : ∀ c ∈ between, ¬ c.Destroys bufId)
    (hslides : ∀ front c back, between = front ++ c :: back → ¬ Slides (front.foldl step s) c) :
    (between.foldl step s).At bufId r offset := by
  induction between generalizing s with
  | nil => exact hat
  | cons c between ih =>
      rcases step_unmoveable h hat hfixed (hdestroy c List.mem_cons_self)
        (hslides [] c between rfl) with ⟨hat', hfixed'⟩
      apply ih (step_linked h c) hat' hfixed'
      · exact fun d hd => hdestroy d (List.mem_cons_of_mem _ hd)
      · intro front d back hsplit
        exact hslides (c :: front) d back (by rw [hsplit]; rfl)

theorem Slides.moves (h : Linked s) (hslides : Slides s c) :
    ∃ r offset, s.At c.bufId r offset ∧ (s.heap r).unmoveable = true ∧ ¬ c.Destroys c.bufId ∧
      ¬ (step s c).At c.bufId r offset := by
  rcases hslides with ⟨hcompact, r, offset, hreleases, hat, hbusy, hfixed, hgap⟩
  have hdestroy : ¬ c.Destroys c.bufId := by simp [Command.Destroys, hreleases.1]
  have hown := step_own h hat.entry hat.paged hdestroy
  refine ⟨r, offset, hat, hfixed, hdestroy, ?_⟩
  intro hstill
  have hmoved := hown.moved hcompact hreleases hbusy hgap
  rw [hstill.paged] at hmoved
  have heq := Option.some.inj hmoved
  omega

end Step

theorem staysPut_of {compact : Bool} {history : List Command}
    (h : ∀ before c after, history = before ++ c :: after → ¬ Slides (run compact before) c) :
    StaysPut compact history := by
  intro before between after hsplit bufId r offset hat hfixed hdestroy
  rw [run_append]
  apply foldl_unmoveable (run_linked compact before) hat hfixed between hdestroy
  intro front c back hbetween
  rw [← run_append]
  apply h (before ++ front) c (back ++ after)
  rw [hsplit, hbetween]
  simp

theorem staysPut_iff (compact : Bool) (history : List Command) :
    StaysPut compact history ↔
      ∀ before c after, history = before ++ c :: after → ¬ Slides (run compact before) c := by
  constructor
  · intro hstays before c after hsplit hslides
    rcases hslides.moves (run_linked compact before) with
      ⟨r, offset, hat, hfixed, hdestroy, hmoved⟩
    apply hmoved
    rw [← run_concat]
    apply hstays before [c] after (by simpa using hsplit) c.bufId r offset hat hfixed
    intro d hd
    rw [List.mem_singleton.mp hd]
    exact hdestroy
  · exact staysPut_of

/-- Compaction moves buffer 2 from 4096 to 0 when its use ends. -/
theorem unmoveable_compacted :
    ¬ ∀ compact history, StaysPut compact history := by
  intro hstays
  have hat := hstays true
    [⟨0, "create", 1, some ["4096"]⟩, ⟨1, "create", 2, some ["4096", "unmoveable"]⟩,
      ⟨2, "destroy", 1, none⟩, ⟨3, "add_usecnt", 2, none⟩, ⟨4, "remove_usecnt", 2, none⟩]
    [⟨0, "create", 1, some ["4096"]⟩, ⟨1, "create", 2, some ["4096", "unmoveable"]⟩,
      ⟨2, "destroy", 1, none⟩, ⟨3, "add_usecnt", 2, none⟩]
    [⟨4, "remove_usecnt", 2, none⟩] [] rfl 2 1 4096
    ⟨by decide +kernel, by decide +kernel⟩ (by decide +kernel) (by simp [Command.Destroys])
  have hmoved : ¬ ((run true [⟨0, "create", 1, some ["4096"]⟩,
      ⟨1, "create", 2, some ["4096", "unmoveable"]⟩, ⟨2, "destroy", 1, none⟩,
      ⟨3, "add_usecnt", 2, none⟩, ⟨4, "remove_usecnt", 2, none⟩]).heap 1).offset = some 4096 := by
    decide +kernel
  exact hmoved hat.paged

/-- A pool that does not compact keeps its unmoveable buffers in place. -/
theorem staysPut_plain (history : List Command) : StaysPut false history := by
  apply staysPut_of
  intro before c after _ hslides
  have hcompact := hslides.1
  rw [run_compact] at hcompact
  cases hcompact

end CmaPool.Python
