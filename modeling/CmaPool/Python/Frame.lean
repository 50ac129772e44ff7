import CmaPool.Python.Layout

/-! What a command leaves alone.

A command on one buffer changes another only by paging it out, and only when
the command has to make room that the free space does not have. A pinned buffer
that is paged in is therefore moved or lost by its own commands alone. -/

namespace CmaPool.Python

/-- No interval of `size` bytes of the pool is free of paged-in buffers. -/
def Pool.NoRoom (s : Pool) (size : Int) : Prop :=
  ∀ offset, 0 ≤ offset → offset + size ≤ poolSize →
    ∃ r ∈ s.offsetList, ¬ Disjoint (Set.Ico offset (offset + size)) (s.heap r).interval

/-- The command is a create or use of a buffer that is not paged in and whose
size is `full`. -/
def NeedsRoom (full : Int → Prop) (s : Pool) (c : Command) : Prop :=
  (∃ size, s.buffers.lookup c.bufId = none ∧ c.createSize = some size ∧ full size) ∨
    c.cmd = "use" ∧ ∃ r, s.buffers.lookup c.bufId = some r ∧
      (s.heap r).offset = none ∧ full (s.heap r).size

/-- The command changes no buffer but the one it names, up to evictions. -/
structure Frame (full : Int → Prop) (s : Pool) (c : Command) (s' : Pool) : Prop where
  entries : ∀ bufId r, bufId ≠ c.bufId → ((bufId, r) ∈ s'.buffers ↔ (bufId, r) ∈ s.buffers)
  offset : ∀ bufId r, (bufId, r) ∈ s.buffers → bufId ≠ c.bufId →
    (s'.heap r).offset = (s.heap r).offset ∨ (s'.heap r).offset = none
  evicted : ∀ bufId r, (bufId, r) ∈ s.buffers → bufId ≠ c.bufId →
    (s.heap r).offset ≠ none → (s'.heap r).offset = none →
      NeedsRoom full s c ∧ (s.heap r).inUse = false ∧ (s.heap r).unmoveable = false
  flags : ∀ bufId r, (bufId, r) ∈ s.buffers → bufId ≠ c.bufId →
    (s'.heap r).inUse = (s.heap r).inUse ∧ (s'.heap r).unmoveable = (s.heap r).unmoveable

def Pool.Full (s : Pool) (size : Int) : Prop := s.firstFit size = none

theorem NeedsRoom.mono {full full' : Int → Prop} {s : Pool} {c : Command}
    (h : NeedsRoom full s c) (hfull : ∀ size, full size → full' size) : NeedsRoom full' s c := by
  rcases h with ⟨size, hid, hsize, hroom⟩ | ⟨hcmd, r, hid, habsent, hroom⟩
  · exact Or.inl ⟨size, hid, hsize, hfull _ hroom⟩
  · exact Or.inr ⟨hcmd, r, hid, habsent, hfull _ hroom⟩

theorem Frame.mono {full full' : Int → Prop} {s s' : Pool} {c : Command}
    (h : Frame full s c s') (hfull : ∀ size, full size → full' size) : Frame full' s c s' where
  entries := h.entries
  offset := h.offset
  evicted := by
    intro bufId r hr hne hsome hnone
    rcases h.evicted bufId r hr hne hsome hnone with ⟨hroom, hfree⟩
    exact ⟨hroom.mono hfull, hfree⟩
  flags := h.flags

section Room

variable {s : Pool}

theorem firstFit_none_noRoom (h : Packing s) {size : Int} (hfull : s.firstFit size = none) :
    s.NoRoom size := by
  have hgaps := firstFit_none hfull
  have hpos : 0 < size := by
    have hfirst : (0, Gaps.firstStart s.blocks poolSize) ∈ Gaps.gaps 0 s.blocks poolSize :=
      Gaps.mem_gaps_iff.mpr ⟨[], s.blocks, rfl, rfl⟩
    have hwide := hgaps _ hfirst
    have hle := h.packed.firstStart_le
    simp only at hwide
    omega
  intro offset hlow hhigh
  by_contra hfree
  have hplace : Gaps.Placement (ClosureOperator.id Int) (Gaps.endAt size) 0 s.blocks poolSize
      offset := by
    refine ⟨ClosureOperator.isClosed_iff _ |>.mpr rfl, hlow, hhigh, ?_⟩
    intro block hblock
    rcases List.mem_map.mp hblock with ⟨r, hr, rfl⟩
    rcases h.linked.offset_of_mem hr with ⟨start, hstart⟩
    have hdisjoint : Disjoint (Set.Ico offset (offset + size)) (s.heap r).interval := by
      by_contra hmeet
      exact hfree ⟨r, hr, hmeet⟩
    rw [Buffer.interval, hstart, Set.Ico_disjoint_Ico] at hdisjoint
    have hempty : (s.heap r).size = 0 → start = 0 := by
      intro hzero
      have hbottom := h.empty r hr hzero
      rw [hstart] at hbottom
      exact Option.some.inj hbottom
    have hsize := h.size_nonneg hr
    rw [block_of_offset hstart]
    simp only [Gaps.endAt_apply, min_le_iff, le_max_iff] at hdisjoint ⊢
    omega
  rcases Gaps.gap_of_placement hplace with ⟨gap, hgap, hfit⟩
  have hwide := hgaps gap hgap
  have hfits : gap.1 + size ≤ gap.2 := hfit
  omega

end Room

section Effect

variable {s : Pool}

/-- Paging a buffer in evicts unpinned buffers, and only when the buffer is
absent and finds no gap, and leaves the rest of the heap to that one buffer. -/
theorem PageIn.effect {r : Ref} {result : EStateM.Result Exn Pool Unit}
    (hin : PageIn s r result) :
    ∃ evicted : List Ref,
      (∀ x ∈ evicted, x ∈ s.offsetList ∧ (s.heap x).pinned = false) ∧
      (evicted = [] ∨ (s.heap r).offset = none ∧ s.firstFit (s.heap r).size = none) ∧
      (stateOf result).buffers = s.buffers ∧
      ∀ x, x ≠ r ∨ (s.heap r).offset.isSome = true →
        (stateOf result).heap x = (s.pageOut evicted).heap x := by
  cases hin with
  | resident _ =>
      refine ⟨[], by simp, Or.inl rfl, rfl, ?_⟩
      intro x _
      rw [pageOut_nil]
      rfl
  | placed evicted spot habsent _ hevicted hfull _ =>
      refine ⟨evicted, hevicted, hfull.imp_right fun hnone => ⟨habsent, hnone⟩, rfl, ?_⟩
      intro x hx
      rcases hx with hx | hx
      · exact Function.update_of_ne hx _ _
      · simp [habsent] at hx
  | failed evicted habsent _ hevicted hfull =>
      exact ⟨evicted, hevicted, Or.inr ⟨habsent, hfull⟩, rfl, fun _ _ => rfl⟩

theorem ne_of_other (h : Linked s) {bufId bufId' : Int} {r x : Ref}
    (hx : (bufId', x) ∈ s.buffers) (hr : (bufId, r) ∈ s.buffers) (hne : bufId' ≠ bufId) :
    x ≠ r := by
  intro heq
  subst heq
  have hsame := List.inj_on_of_nodup_map h.refs hx hr rfl
  injection hsame with hids _
  exact hne hids

/-- The frame of a change confined to the buffer the command names. -/
theorem frame_of_confined {full : Int → Prop} {c : Command} {s' : Pool}
    (hentries : ∀ bufId r, bufId ≠ c.bufId → ((bufId, r) ∈ s'.buffers ↔ (bufId, r) ∈ s.buffers))
    (hheap : ∀ bufId r, (bufId, r) ∈ s.buffers → bufId ≠ c.bufId → s'.heap r = s.heap r) :
    Frame full s c s' where
  entries := hentries
  offset := by
    intro bufId r hr hne
    rw [hheap bufId r hr hne]
    exact Or.inl rfl
  evicted := by
    intro bufId r hr hne hsome hnone
    rw [hheap bufId r hr hne] at hnone
    exact absurd hnone hsome
  flags := by
    intro bufId r hr hne
    rw [hheap bufId r hr hne]
    exact ⟨rfl, rfl⟩

/-- The frame of paging in the named buffer of a pool that agrees with the
command's own on all others. -/
theorem frame_of_pageIn {full : Int → Prop} {c : Command} {s₁ s' : Pool} {r : Ref}
    {evicted : List Ref}
    (hentries : ∀ bufId x, bufId ≠ c.bufId → ((bufId, x) ∈ s'.buffers ↔ (bufId, x) ∈ s.buffers))
    (hbefore : ∀ bufId x, (bufId, x) ∈ s.buffers → bufId ≠ c.bufId →
      x ≠ r ∧ s₁.heap x = s.heap x)
    (hheap : ∀ x, x ≠ r → s'.heap x = (s₁.pageOut evicted).heap x)
    (hevicted : ∀ x ∈ evicted, (s₁.heap x).pinned = false)
    (hroom : evicted = [] ∨ NeedsRoom full s c) : Frame full s c s' where
  entries := hentries
  offset := by
    intro bufId x hx hne
    rcases hbefore bufId x hx hne with ⟨hxr, hsame⟩
    rw [hheap x hxr]
    by_cases hout : x ∈ evicted
    · exact Or.inr (pageOut_offset_of_mem hout)
    · rw [pageOut_heap_of_not_mem hout, hsame]
      exact Or.inl rfl
  evicted := by
    intro bufId x hx hne hsome hnone
    rcases hbefore bufId x hx hne with ⟨hxr, hsame⟩
    by_cases hout : x ∈ evicted
    · have hfree := hevicted x hout
      rw [hsame, Buffer.pinned, Bool.or_eq_false_iff] at hfree
      refine ⟨?_, hfree⟩
      rcases hroom with hnil | hroom
      · simp [hnil] at hout
      · exact hroom
    · rw [hheap x hxr, pageOut_heap_of_not_mem hout, hsame] at hnone
      exact absurd hnone hsome
  flags := by
    intro bufId x hx hne
    rcases hbefore bufId x hx hne with ⟨hxr, hsame⟩
    rw [hheap x hxr, pageOut_inUse, pageOut_unmoveable, hsame]
    exact ⟨rfl, rfl⟩

end Effect

section Step

variable {s : Pool} {c : Command}

theorem register_other (h : Linked s) (buf : Buffer) {r : Ref} (hr : r ∈ s.live) :
    r ≠ s.nextRef ∧ (s.register c.bufId buf).heap r = s.heap r := by
  have hne : r ≠ s.nextRef := fun heq => Nat.lt_irrefl _ (heq ▸ h.fresh r hr)
  exact ⟨hne, Function.update_of_ne hne _ _⟩

theorem blocks_register (h : Linked s) (buf : Buffer) :
    (s.register c.bufId buf).blocks = s.blocks := by
  apply List.map_congr_left
  intro x hx
  rw [(register_other h buf ((h.paged x).mp hx).1).2]

/-- The frame of a use, whatever it does to the recency order afterwards. -/
theorem PageIn.frame_use (h : Linked s) {r : Ref} {result : EStateM.Result Exn Pool Unit}
    (hin : PageIn s r result) (hcmd : c.cmd = "use") (hid : s.buffers.lookup c.bufId = some r)
    {s' : Pool} (hbuffers' : s'.buffers = (stateOf result).buffers)
    (hheap' : s'.heap = (stateOf result).heap) : Frame s.Full s c s' := by
  rcases hin.effect with ⟨evicted, hevicted, hfull, hbuffers, hheap⟩
  have hother : ∀ bufId x, (bufId, x) ∈ s.buffers → bufId ≠ c.bufId →
      x ≠ r ∧ s.heap x = s.heap x :=
    fun bufId x hx hne => ⟨ne_of_other h hx (mem_of_lookup hid) hne, rfl⟩
  apply frame_of_pageIn _ hother _ (fun x hx => (hevicted x hx).2)
  · apply hfull.imp_right
    intro hnone
    exact Or.inr ⟨hcmd, r, hid, hnone⟩
  · intro bufId x _
    rw [hbuffers', hbuffers]
  · intro x hx
    rw [hheap']
    exact hheap x (Or.inl hx)

theorem mem_setBuffer_other (h : Linked s) {r : Ref}
    (hid : s.buffers.lookup c.bufId = some r) (buf : Buffer) :
    ∀ bufId x, (bufId, x) ∈ s.buffers → bufId ≠ c.bufId →
      (s.setBuffer r buf).heap x = s.heap x := by
  intro bufId x hx hne
  have hxr : x ≠ r := ne_of_other h hx (mem_of_lookup hid) hne
  exact Function.update_of_ne hxr _ _

theorem Step.frame (h : Linked s) {q : Request} {result : EStateM.Result Exn Pool Unit}
    (haccepts : Accepts s c q) (hstep : Step s c q result) :
    Frame s.Full s c (stateOf result) := by
  cases hstep with
  | destroy r =>
      apply frame_of_confined
      · intro bufId x hne
        simp [stateOf, Pool.destroy, hne]
      · intro bufId x _ _
        rfl
  | addUsecnt r =>
      cases haccepts with
      | addUsecnt _ _ hid _ =>
          exact frame_of_confined (fun _ _ _ => Iff.rfl) (mem_setBuffer_other h hid _)
  | release r _ =>
      cases haccepts with
      | removeUsecnt _ _ hid _ =>
          exact frame_of_confined (fun _ _ _ => Iff.rfl) (mem_setBuffer_other h hid _)
  | compact r offset _ hpaged =>
      cases haccepts with
      | removeUsecnt _ _ hid _ =>
          have hidle := mem_setBuffer_other h hid { s.heap r with inUse := false }
          apply frame_of_confined
          · intro bufId x _
            change _ ∈ ((s.setInUse r false).compacted r offset).buffers ↔ _
            rw [Pool.compacted]
            split <;> rfl
          · intro bufId x hx hne
            change ((s.setInUse r false).compacted r offset).heap x = _
            rw [Pool.compacted]
            split
            · have hxr : x ≠ r := ne_of_other h hx (mem_of_lookup hid) hne
              exact (Function.update_of_ne hxr _ _).trans (hidle bufId x hx hne)
            · exact hidle bufId x hx hne
  | compactAbsent r _ _ =>
      cases haccepts with
      | removeUsecnt _ _ hid _ =>
          exact frame_of_confined (fun _ _ _ => Iff.rfl) (mem_setBuffer_other h hid _)
  | create size unmoveable _ hin =>
      cases haccepts with
      | create hcmd hid hargs hsize =>
          rcases hin.effect with ⟨evicted, hevicted, hfull, hbuffers, hheap⟩
          apply frame_of_pageIn _
            (fun bufId x hx _ => register_other h _ (List.mem_map.mpr ⟨_, hx, rfl⟩))
            (fun x hx => hheap x (Or.inl hx)) (fun x hx => (hevicted x hx).2)
          · apply hfull.imp_right
            intro hnone
            refine Or.inl ⟨size, hid, by simp [Command.createSize, hcmd, hargs, hsize], ?_⟩
            have hfit := hnone.2
            rw [Pool.firstFit, blocks_register h] at hfit
            simpa [Pool.register, Buffer.new, Pool.Full, Pool.firstFit] using hfit
          · intro bufId x hne
            rw [hbuffers]
            simp [Pool.register, hne]
  | used r s' hin =>
      cases haccepts with
      | use hcmd _ hid _ => exact hin.frame_use h hcmd hid rfl rfl
  | unused r e s' hin =>
      cases haccepts with
      | use hcmd _ hid _ => exact hin.frame_use h hcmd hid rfl rfl
  | madv r value =>
      cases haccepts with
      | madv _ _ hid =>
          exact frame_of_confined (fun _ _ _ => Iff.rfl) (mem_setBuffer_other h hid _)

theorem step_frame_full (h : Linked s) (c : Command) : Frame s.Full s c (step s c) := by
  rcases step_cases h c with ⟨q, result, haccepts, hstep, heq⟩ | ⟨_, heq⟩
  · rw [heq]
    exact hstep.frame h haccepts
  · rw [heq]
    exact frame_of_confined (fun _ _ _ => Iff.rfl) (fun _ _ _ _ => rfl)

theorem step_frame (h : Packing s) (c : Command) : Frame s.NoRoom s c (step s c) :=
  (step_frame_full h.linked c).mono fun _ => firstFit_none_noRoom h

end Step

section Pinned

variable {s : Pool} {c : Command} {bufId : Int} {x : Ref} {offset : Int}

def Command.Destroys (c : Command) (bufId : Int) : Prop :=
  c.cmd = "destroy" ∧ c.args = none ∧ c.bufId = bufId

def Command.Releases (c : Command) (bufId : Int) : Prop :=
  c.cmd = "remove_usecnt" ∧ c.args = none ∧ c.bufId = bufId

theorem blocks_setBuffer {r : Ref} {buf : Buffer} (h : buf.block = (s.heap r).block) :
    (s.setBuffer r buf).blocks = s.blocks := by
  apply List.map_congr_left
  intro y _
  by_cases hy : y = r
  · subst hy
    simpa [Pool.setBuffer] using h
  · exact block_update_of_ne hy _

/-- What its own commands do to a buffer that is paged in at `offset`. -/
structure Own (s : Pool) (c : Command) (x : Ref) (offset : Int) (s' : Pool) : Prop where
  entry : (c.bufId, x) ∈ s'.buffers
  unmoveable : (s'.heap x).unmoveable = (s.heap x).unmoveable
  inUse : ¬ c.Releases c.bufId → (s.heap x).inUse = true → (s'.heap x).inUse = true
  moved : s.compact = true → c.Releases c.bufId → (s.heap x).inUse = true →
    s.endBelow offset < offset → (s'.heap x).offset = some (s.endBelow offset)
  stayed : (s.compact = true → c.Releases c.bufId → (s.heap x).inUse = true →
    ¬ s.endBelow offset < offset) → (s'.heap x).offset = some offset

theorem own_of_same {s' : Pool} (hentry : (c.bufId, x) ∈ s'.buffers)
    (hrelease : ¬ c.Releases c.bufId) (hpaged : (s.heap x).offset = some offset)
    (hunmoveable : (s'.heap x).unmoveable = (s.heap x).unmoveable)
    (hinUse : (s.heap x).inUse = true → (s'.heap x).inUse = true)
    (hoffset : (s'.heap x).offset = (s.heap x).offset) : Own s c x offset s' where
  entry := hentry
  unmoveable := hunmoveable
  inUse := fun _ => hinUse
  moved := fun _ hreleases => absurd hreleases hrelease
  stayed := fun _ => hoffset.trans hpaged

theorem Step.own (h : Linked s) {q : Request} {result : EStateM.Result Exn Pool Unit}
    (haccepts : Accepts s c q) (hstep : Step s c q result) (hx : (c.bufId, x) ∈ s.buffers)
    (hpaged : (s.heap x).offset = some offset) (hdestroy : ¬ c.Destroys c.bufId) :
    Own s c x offset (stateOf result) := by
  have hlookup := lookup_of_mem h hx
  have hother : c.cmd ≠ "remove_usecnt" → ¬ c.Releases c.bufId := fun hne hrel => hne hrel.1
  cases haccepts with
  | destroy hcmd hargs _ => exact absurd ⟨hcmd, hargs, rfl⟩ hdestroy
  | addUsecnt hcmd _ hid _ =>
      cases hstep
      obtain rfl : x = _ := Option.some.inj (hlookup.symm.trans hid)
      apply own_of_same _ (hother (by simp [hcmd])) hpaged <;>
        simp [stateOf, Pool.setInUse, Pool.setBuffer, hx]
  | removeUsecnt hcmd hargs hid hbusy =>
      obtain rfl : x = _ := Option.some.inj (hlookup.symm.trans hid)
      have hreleases : c.Releases c.bufId := ⟨hcmd, hargs, rfl⟩
      cases hstep with
      | release _ hplain =>
          constructor
          · exact hx
          · simp [stateOf, Pool.setInUse, Pool.setBuffer]
          · exact fun hno => absurd hreleases hno
          · intro hcompact
            simp [hplain] at hcompact
          · intro _
            simpa [stateOf, Pool.setInUse, Pool.setBuffer] using hpaged
      | compact _ start hcompact hstart =>
          obtain rfl : offset = start := Option.some.inj (hpaged.symm.trans hstart)
          have hblocks : (s.setInUse x false).blocks = s.blocks := blocks_setBuffer rfl
          have hbelow : (s.setInUse x false).endBelow offset = s.endBelow offset := by
            rw [Pool.endBelow, hblocks, Pool.endBelow]
          constructor
          · change _ ∈ ((s.setInUse x false).compacted x offset).buffers
            rw [Pool.compacted]
            split <;> exact hx
          · change (((s.setInUse x false).compacted x offset).heap x).unmoveable = _
            rw [Pool.compacted]
            split <;> simp [Pool.setInUse, Pool.setBuffer]
          · exact fun hno => absurd hreleases hno
          · intro _ _ _ hgap
            change (((s.setInUse x false).compacted x offset).heap x).offset = _
            rw [Pool.compacted, hbelow, if_pos hgap]
            simp [Pool.setBuffer]
          · intro hstay
            change (((s.setInUse x false).compacted x offset).heap x).offset = _
            rw [Pool.compacted, hbelow, if_neg (hstay hcompact hreleases hbusy)]
            simpa [Pool.setInUse, Pool.setBuffer] using hpaged
      | compactAbsent _ _ habsent => simp [hpaged] at habsent
  | create _ hid _ _ => simp [hlookup] at hid
  | use hcmd _ hid _ =>
      obtain rfl : x = _ := Option.some.inj (hlookup.symm.trans hid)
      have hsame : ∀ {result}, PageIn s x result → stateOf result = s := by
        intro result hin
        cases hin with
        | resident _ => rfl
        | placed _ _ habsent _ _ _ _ => simp [hpaged] at habsent
        | failed _ habsent _ _ _ => simp [hpaged] at habsent
      have hrelease := hother (by simp [hcmd])
      cases hstep with
      | used _ s' hin =>
          obtain rfl : s' = s := hsame hin
          exact own_of_same hx hrelease hpaged rfl id rfl
      | unused _ e s' hin =>
          obtain rfl : s' = s := hsame hin
          exact own_of_same hx hrelease hpaged rfl id rfl
  | madv hcmd _ hid =>
      cases hstep
      obtain rfl : x = _ := Option.some.inj (hlookup.symm.trans hid)
      apply own_of_same _ (hother (by simp [hcmd])) hpaged <;>
        simp [stateOf, Pool.setBuffer, hx]

theorem step_own (h : Linked s) (hx : (c.bufId, x) ∈ s.buffers)
    (hpaged : (s.heap x).offset = some offset) (hdestroy : ¬ c.Destroys c.bufId) :
    Own s c x offset (step s c) := by
  rcases step_cases h c with ⟨q, result, haccepts, hstep, heq⟩ | ⟨hnone, heq⟩
  · rw [heq]
    exact hstep.own h haccepts hx hpaged hdestroy
  · rw [heq]
    constructor
    · exact hx
    · rfl
    · exact fun _ hbusy => hbusy
    · intro _ hreleases hbusy
      exact absurd (Accepts.removeUsecnt hreleases.1 hreleases.2.1 (lookup_of_mem h hx) hbusy)
        (hnone _)
    · exact fun _ => hpaged

/-- The buffer `r` is live under `bufId` and paged in at `offset`. -/
structure Pool.At (s : Pool) (bufId : Int) (r : Ref) (offset : Int) : Prop where
  entry : (bufId, r) ∈ s.buffers
  paged : (s.heap r).offset = some offset

theorem step_other_pinned (h : Linked s) (hat : s.At bufId x offset) (hne : bufId ≠ c.bufId)
    (hpinned : (s.heap x).inUse = true ∨ (s.heap x).unmoveable = true) :
    (step s c).At bufId x offset ∧
      ((step s c).heap x).inUse = (s.heap x).inUse ∧
      ((step s c).heap x).unmoveable = (s.heap x).unmoveable := by
  have hframe := step_frame_full h c
  refine ⟨⟨(hframe.entries bufId x hne).mpr hat.entry, ?_⟩, hframe.flags bufId x hat.entry hne⟩
  rcases hframe.offset bufId x hat.entry hne with hsame | hnone
  · exact hsame.trans hat.paged
  · have hsome : (s.heap x).offset ≠ none := by simp [hat.paged]
    rcases hframe.evicted bufId x hat.entry hne hsome hnone with ⟨_, hidle, hmoveable⟩
    simp [hidle, hmoveable] at hpinned

theorem step_inUse (h : Linked s) (hat : s.At bufId x offset) (hbusy : (s.heap x).inUse = true)
    (hdestroy : ¬ c.Destroys bufId) (hrelease : ¬ c.Releases bufId) :
    (step s c).At bufId x offset ∧ ((step s c).heap x).inUse = true := by
  by_cases hid : bufId = c.bufId
  · subst hid
    have hown := step_own h hat.entry hat.paged hdestroy
    exact ⟨⟨hown.entry, hown.stayed fun _ hreleases => absurd hreleases hrelease⟩,
      hown.inUse hrelease hbusy⟩
  · rcases step_other_pinned h hat hid (Or.inl hbusy) with ⟨hat', hinUse, _⟩
    exact ⟨hat', hinUse.trans hbusy⟩

theorem foldl_inUse (h : Linked s) (hat : s.At bufId x offset)
    (hbusy : (s.heap x).inUse = true) (others : List Command)
    (hothers : ∀ c ∈ others, ¬ c.Destroys bufId ∧ ¬ c.Releases bufId) :
    (others.foldl step s).At bufId x offset := by
  induction others generalizing s with
  | nil => exact hat
  | cons c others ih =>
      rcases hothers c List.mem_cons_self with ⟨hdestroy, hrelease⟩
      rcases step_inUse h hat hbusy hdestroy hrelease with ⟨hat', hbusy'⟩
      apply ih (step_linked h c) hat' hbusy'
      exact fun d hd => hothers d (List.mem_cons_of_mem _ hd)

theorem step_addUsecnt (h : Linked s) (hat : s.At bufId x offset)
    (hcmd : c.cmd = "add_usecnt") (hargs : c.args = none) (hid : c.bufId = bufId) :
    (step s c).At bufId x offset ∧ ((step s c).heap x).inUse = true := by
  subst hid
  have hlookup := lookup_of_mem h hat.entry
  have hdestroy : ¬ c.Destroys c.bufId := by simp [Command.Destroys, hcmd]
  have hrelease : ¬ c.Releases c.bufId := by simp [Command.Releases, hcmd]
  cases hbusy : (s.heap x).inUse with
  | true => exact step_inUse h hat hbusy hdestroy hrelease
  | false =>
      have hown := step_own h hat.entry hat.paged hdestroy
      refine ⟨⟨hown.entry, hown.stayed fun _ hreleases => absurd hreleases hrelease⟩, ?_⟩
      rw [step, processCommand_handler rfl hcmd]
      simp [bufAddUsecnt, hargs, findBuffer_some hlookup, hbusy, stateOf]

end Pinned

theorem run_frame (compact : Bool) (history : List Command)
    (hsizes : ∀ c ∈ history, c.SizeOk) :
    (∀ c, Frame (run compact history).NoRoom (run compact history) c
      (step (run compact history) c)) ∧
    ∀ bufId r offset, (run compact history).At bufId r offset →
      ∀ (add : Command) (others : List Command),
        add.cmd = "add_usecnt" → add.args = none → add.bufId = bufId →
        (∀ c ∈ others, ¬ c.Destroys bufId ∧ ¬ c.Releases bufId) →
        (run compact (history ++ add :: others)).At bufId r offset := by
  constructor
  · intro c
    exact step_frame (run_packing compact history hsizes) c
  · intro bufId r offset hat add others hcmd hargs hid hothers
    have hlinked := run_linked compact history
    rcases step_addUsecnt hlinked hat hcmd hargs hid with ⟨hat', hbusy⟩
    rw [run_append]
    exact foldl_inUse (step_linked hlinked add) hat' hbusy others hothers

theorem run_frame_evicting :
    (run false [⟨0, "create", 1, some ["134217728"]⟩, ⟨1, "add_usecnt", 1, none⟩,
      ⟨2, "create", 2, some ["4096"]⟩]).At 1 0 0 := by
  have hframe := run_frame false [⟨0, "create", 1, some ["134217728"]⟩] (by decide +kernel)
  have hat : (run false [⟨0, "create", 1, some ["134217728"]⟩]).At 1 0 0 :=
    ⟨by decide +kernel, by decide +kernel⟩
  exact hframe.2 1 0 0 hat ⟨1, "add_usecnt", 1, none⟩ [⟨2, "create", 2, some ["4096"]⟩] rfl rfl rfl
    (by simp [Command.Destroys, Command.Releases])

end CmaPool.Python
