import CmaPool.Python.Frame
import CmaPool.Python.Insertion

/-! Compaction closes the gap below the buffer whose use ends, and no other. -/

namespace CmaPool.Python

def Command.Acquires (c : Command) (bufId : Int) : Prop :=
  c.cmd = "add_usecnt" ∧ c.args = none ∧ c.bufId = bufId

/-- The end of the last buffer of `front`; 0 when there is none. -/
def Pool.EndOf (s : Pool) (front : List Ref) (stop : Int) : Prop :=
  (front = [] ∧ stop = 0) ∨
    ∃ rest x start, front = rest ++ [x] ∧ (s.heap x).offset = some start ∧
      stop = start + (s.heap x).size

/-- What `remove_usecnt` does to a compacting pool in which `r` is paged in. -/
structure Compacts (s : Pool) (bufId : Int) (r : Ref) (old : Int) (s' : Pool) : Prop where
  closed : ∃ front back stop, s.offsetList = front ++ r :: back ∧ s.EndOf front stop ∧
    (s'.heap r).offset = some stop ∧ stop ≤ old
  offsetList : s'.offsetList = s.offsetList
  mruList : s'.mruList = s.mruList
  others : ∀ x, x ≠ r → (s'.heap x).offset = (s.heap x).offset
  overflow : s'.overflow = s.overflow
  laidOut : LaidOut s'
  settled : ∀ acquire release : Command, acquire.Acquires bufId → release.Releases bufId →
    ∀ x, ((step (step s' acquire) release).heap x).offset = (s'.heap x).offset

section Compaction

variable {s : Pool} {r : Ref} {bufId old : Int} {c : Command} {front back : List Ref}

theorem lastEnd_endOf (hoffset : ∀ x ∈ front, (s.heap x).offset.isSome = true) :
    s.EndOf front (Gaps.lastEnd 0 (front.map fun x => (s.heap x).block)) := by
  rcases front.eq_nil_or_concat' with rfl | ⟨rest, x, rfl⟩
  · exact Or.inl ⟨rfl, rfl⟩
  · have hmem : x ∈ rest ++ [x] := List.mem_append_right _ List.mem_cons_self
    rcases Option.isSome_iff_exists.mp (hoffset x hmem) with ⟨start, hstart⟩
    refine Or.inr ⟨rest, x, start, rfl, hstart, ?_⟩
    rw [List.map_append, Gaps.lastEnd_append, List.map_singleton, block_of_offset hstart]
    rfl

theorem Packing.lastEnd_le (h : Packing s) (hsplit : s.offsetList = front ++ r :: back)
    (hpaged : (s.heap r).offset = some old) :
    Gaps.lastEnd 0 (front.map fun x => (s.heap x).block) ≤ old := by
  have hpacked := h.packed
  rw [Pool.blocks, hsplit, List.map_append, List.map_cons, block_of_offset hpaged,
    Gaps.packed_append] at hpacked
  exact hpacked.2.1

theorem compacted_offset (h : Packing s) (hsplit : s.offsetList = front ++ r :: back)
    (hpaged : (s.heap r).offset = some old) :
    ((s.compacted r old).heap r).offset =
      some (Gaps.lastEnd 0 (front.map fun x => (s.heap x).block)) := by
  have hle := h.lastEnd_le hsplit hpaged
  rw [Pool.compacted, endBelow_eq h hsplit hpaged]
  split
  · simp [Pool.setBuffer]
  · next hclosed =>
      have heq : old = Gaps.lastEnd 0 (front.map fun x => (s.heap x).block) := by omega
      rw [hpaged, ← heq]

theorem compacted_of_closed (h : Packing s) (hsplit : s.offsetList = front ++ r :: back)
    (hpaged : (s.heap r).offset =
      some (Gaps.lastEnd 0 (front.map fun x => (s.heap x).block))) :
    s.compacted r (Gaps.lastEnd 0 (front.map fun x => (s.heap x).block)) = s := by
  rw [Pool.compacted, endBelow_eq h hsplit hpaged, if_neg (lt_irrefl _)]

theorem compacted_others (s : Pool) (r : Ref) (old : Int) {x : Ref} (hne : x ≠ r) :
    (s.compacted r old).heap x = s.heap x := by
  rw [Pool.compacted]
  split
  · exact Function.update_of_ne hne _ _
  · rfl

theorem compacted_inUse (s : Pool) (r x : Ref) (old : Int) :
    ((s.compacted r old).heap x).inUse = (s.heap x).inUse := by
  rw [Pool.compacted]
  split
  · by_cases hx : x = r
    · subst hx
      simp [Pool.setBuffer]
    · simp [Pool.setBuffer, hx]
  · rfl

theorem release_eq (h : Linked s) (hcompact : s.compact = true) (hrelease : c.Releases bufId)
    (hid : s.buffers.lookup bufId = some r) (hbusy : (s.heap r).inUse = true)
    (hpaged : (s.heap r).offset = some old) :
    processCommand c s = .ok ⟨⟩ ((s.setInUse r false).compacted r old) := by
  rcases hrelease with ⟨hcmd, hargs, rfl⟩
  have hstill : ((s.setInUse r false).heap r).offset = some old := by
    simpa [Pool.setInUse, Pool.setBuffer] using hpaged
  rw [processCommand_handler rfl hcmd, bufRemoveUsecnt_eq hargs hid hbusy, if_pos hcompact,
    compactBuffer_paged (linked_setInUse h r false) hstill]

theorem acquire_eq (hacquire : c.Acquires bufId) (hid : s.buffers.lookup bufId = some r)
    (hidle : (s.heap r).inUse = false) : step s c = s.setInUse r true := by
  rcases hacquire with ⟨hcmd, hargs, rfl⟩
  rw [step, processCommand_handler rfl hcmd]
  simp [bufAddUsecnt, hargs, findBuffer_some hid, hidle, stateOf, Pool.setInUse, Pool.setBuffer]

theorem setInUse_blocks (s : Pool) (r : Ref) (inUse : Bool) (l : List Ref) :
    (l.map fun x => ((s.setInUse r inUse).heap x).block) = l.map fun x => (s.heap x).block := by
  apply List.map_congr_left
  intro x _
  by_cases hx : x = r
  · subst hx
    simp [Pool.setInUse, Pool.setBuffer, Buffer.block]
  · exact block_update_of_ne hx _

theorem setInUse_offset (s : Pool) (r x : Ref) (inUse : Bool) :
    ((s.setInUse r inUse).heap x).offset = (s.heap x).offset := by
  by_cases hx : x = r
  · subst hx
    simp [Pool.setInUse, Pool.setBuffer]
  · simp [Pool.setInUse, Pool.setBuffer, hx]

/-- A second use of a buffer without a gap below it moves nothing. -/
theorem release_settled (h : Packing s) (hcompact : s.compact = true)
    (hid : s.buffers.lookup bufId = some r) (hidle : (s.heap r).inUse = false)
    (hsplit : s.offsetList = front ++ r :: back)
    (hpaged : (s.heap r).offset = some (Gaps.lastEnd 0 (front.map fun x => (s.heap x).block)))
    {acquire release : Command} (hacquire : acquire.Acquires bufId)
    (hrelease : release.Releases bufId) (x : Ref) :
    ((step (step s acquire) release).heap x).offset = (s.heap x).offset := by
  have hbusy : Packing (s.setInUse r true) := packing_setBuffer h r _ rfl rfl
  have hfree : Packing ((s.setInUse r true).setInUse r false) :=
    packing_setBuffer hbusy r _ rfl rfl
  have hused : ((s.setInUse r true).heap r).inUse = true := by
    simp [Pool.setInUse, Pool.setBuffer]
  have hpaged' : (((s.setInUse r true).setInUse r false).heap r).offset =
      some (Gaps.lastEnd 0 (front.map fun x =>
        (((s.setInUse r true).setInUse r false).heap x).block)) := by
    rw [setInUse_offset, setInUse_offset, setInUse_blocks, setInUse_blocks]
    exact hpaged
  rw [acquire_eq hacquire hid hidle, step, release_eq hbusy.linked hcompact hrelease hid hused
    ((setInUse_offset _ _ _ _).trans hpaged), ← setInUse_blocks s r true,
    ← setInUse_blocks (s.setInUse r true) r false, stateOf,
    compacted_of_closed hfree hsplit hpaged', setInUse_offset, setInUse_offset]

theorem release_compacts (h : Packing s) (hcompact : s.compact = true)
    (hat : s.At bufId r old) (hbusy : (s.heap r).inUse = true) (hrelease : c.Releases bufId) :
    ∃ s', processCommand c s = .ok ⟨⟩ s' ∧ Compacts s bufId r old s' := by
  have hid := lookup_of_mem h.linked hat.entry
  have hlive := live_of_lookup hid
  have hmem : r ∈ s.offsetList := (h.linked.paged r).mpr ⟨hlive, by simp [hat.paged]⟩
  rcases List.append_of_mem hmem with ⟨front, back, hsplit⟩
  have hfree : Packing (s.setInUse r false) := packing_setBuffer h r _ rfl rfl
  have hpaged : ((s.setInUse r false).heap r).offset = some old :=
    (setInUse_offset _ _ _ _).trans hat.paged
  have hend := compacted_offset hfree hsplit hpaged
  rcases compacted_lists (s.setInUse r false) r old with
    ⟨hoffsets, hmru, hover, hbuffers, hmode⟩
  have hpacking := hfree.compacted hlive hpaged
  have hfront : ∀ x ∈ front, x ≠ r ∧ (s.heap x).offset.isSome = true := by
    intro x hx
    have hnodup := h.linked.offsets
    rw [hsplit, List.nodup_middle, List.nodup_cons, List.mem_append, not_or] at hnodup
    have hin : x ∈ s.offsetList := by
      rw [hsplit]
      exact List.mem_append_left _ hx
    exact ⟨fun heq => hnodup.1.1 (heq ▸ hx), ((h.linked.paged x).mp hin).2⟩
  have hblocks : (front.map fun x => (((s.setInUse r false).compacted r old).heap x).block) =
      front.map fun x => ((s.setInUse r false).heap x).block := by
    apply List.map_congr_left
    intro x hx
    rw [compacted_others _ _ _ (hfront x hx).1]
  refine ⟨_, release_eq h.linked hcompact hrelease hid hbusy hat.paged, ?_⟩
  constructor
  · refine ⟨front, back, _, hsplit, lastEnd_endOf fun x hx => (hfront x hx).2, ?_,
      h.lastEnd_le hsplit hat.paged⟩
    rw [hend, setInUse_blocks]
  · exact hoffsets
  · exact hmru
  · intro x hx
    rw [compacted_others _ _ _ hx, setInUse_offset]
  · exact hover
  · exact hpacking.laidOut
  · intro acquire release hacquire hrelease' x
    have hlist := hoffsets.trans hsplit
    apply release_settled hpacking (hmode.trans hcompact) (hbuffers ▸ hid) _ hlist _ hacquire
      hrelease'
    · rw [compacted_inUse]
      simp [Pool.setInUse, Pool.setBuffer]
    · rw [hblocks]
      exact hend

end Compaction

theorem run_compacts {history : List Command} (hsizes : ∀ c ∈ history, c.SizeOk)
    {bufId : Int} {r : Ref} {old : Int} (hat : (run true history).At bufId r old)
    (hbusy : ((run true history).heap r).inUse = true) {c : Command}
    (hrelease : c.Releases bufId) :
    ∃ s', processCommand c (run true history) = .ok ⟨⟩ s' ∧
      Compacts (run true history) bufId r old s' :=
  release_compacts (run_packing true history hsizes) (run_compact true history) hat hbusy hrelease

/-- Buffer 2 of this log slides down to the start of the pool. -/
theorem run_compacts_sliding :
    ∃ s', processCommand ⟨4, "remove_usecnt", 2, none⟩ (run true
        [⟨0, "create", 1, some ["4096"]⟩, ⟨1, "create", 2, some ["8192"]⟩,
          ⟨2, "destroy", 1, none⟩, ⟨3, "add_usecnt", 2, none⟩]) = .ok ⟨⟩ s' ∧
      Compacts (run true [⟨0, "create", 1, some ["4096"]⟩, ⟨1, "create", 2, some ["8192"]⟩,
        ⟨2, "destroy", 1, none⟩, ⟨3, "add_usecnt", 2, none⟩]) 2 1 4096 s' :=
  run_compacts (by decide +kernel) ⟨by decide +kernel, by decide +kernel⟩ (by decide +kernel)
    ⟨rfl, rfl, rfl⟩

end CmaPool.Python
