import CmaPool.Python.Runs

/-! The layout of the pool: the paged-in buffers are packed in offset order.

Zero-sized buffers all sit at offset 0, in front of the list. Compaction looks
for its predecessor by offset and not by position; the two agree because no
empty buffer can share a positive offset with its successor. -/

namespace CmaPool.Python

structure Packing (s : Pool) : Prop where
  linked : Linked s
  sizes : ∀ r ∈ s.live, 0 ≤ (s.heap r).size
  packed : Gaps.Packed 0 s.blocks poolSize
  empty : ∀ r ∈ s.offsetList, (s.heap r).size = 0 → (s.heap r).offset = some 0

theorem packing_new (compact : Bool) : Packing (Pool.new compact) where
  linked := linked_new compact
  sizes := by simp [Pool.new, Pool.live]
  packed := by
    change (0 : Int) ≤ poolSize
    decide
  empty := by simp [Pool.new]

theorem block_of_offset {buf : Buffer} {offset : Int} (h : buf.offset = some offset) :
    buf.block = (offset, offset + buf.size) := by
  simp [Buffer.block, h]

section FirstFit

variable {size lastOffset : Int} {pos : Nat} {blocks : List (Int × Int)}

/-- First fit settles at the end of the blocks before its position, where the
gap is wide enough. -/
theorem firstFit_some {spot : Int × Nat}
    (h : firstFit size lastOffset pos blocks = some spot) :
    ∃ front back, blocks = front ++ back ∧ spot.2 = pos + front.length ∧
      spot.1 = Gaps.lastEnd lastOffset front ∧
      spot.1 + size ≤ Gaps.firstStart back poolSize := by
  induction blocks generalizing lastOffset pos with
  | nil =>
      rw [firstFit] at h
      split at h
      · next hfit =>
          cases h
          exact ⟨[], [], rfl, rfl, rfl, hfit⟩
      · cases h
  | cons block blocks ih =>
      rw [firstFit] at h
      split at h
      · next hfit =>
          cases h
          refine ⟨[], block :: blocks, rfl, rfl, rfl, ?_⟩
          simp only [Gaps.firstStart_cons]
          omega
      · rcases ih h with ⟨front, back, rfl, hpos, hend, hfit⟩
        refine ⟨block :: front, back, rfl, ?_, hend, hfit⟩
        rw [hpos, List.length_cons]
        omega

theorem firstFit_none (h : firstFit size lastOffset pos blocks = none) :
    ∀ gap ∈ Gaps.gaps lastOffset blocks poolSize, gap.2 < gap.1 + size := by
  induction blocks generalizing lastOffset pos with
  | nil =>
      rw [firstFit] at h
      split at h
      · cases h
      · next hfit =>
          intro gap hgap
          rw [List.mem_singleton.mp hgap]
          omega
  | cons block blocks ih =>
      rw [firstFit] at h
      split at h
      · cases h
      · next hfit =>
          intro gap hgap
          rcases List.mem_cons.mp hgap with rfl | hgap
          · simp only
            omega
          · exact ih h gap hgap

/-- First fit is never above a start that is free. -/
theorem firstFit_le_free {start : Int} (hlow : lastOffset ≤ start)
    (hhigh : start + size ≤ poolSize)
    (hoff : ∀ block ∈ blocks, start + size ≤ block.1 ∨ block.2 ≤ start) :
    ∃ spot, firstFit size lastOffset pos blocks = some spot ∧ spot.1 ≤ start := by
  induction blocks generalizing lastOffset pos with
  | nil =>
      have hfit : lastOffset + size ≤ poolSize := by omega
      exact ⟨(lastOffset, pos), if_pos hfit, hlow⟩
  | cons block blocks ih =>
      rw [firstFit]
      split
      · exact ⟨_, rfl, hlow⟩
      · next hnarrow =>
          have hpast : block.2 ≤ start := by
            rcases hoff block List.mem_cons_self with hbelow | hpast
            · omega
            · exact hpast
          exact ih hpast fun b hb => hoff b (List.mem_cons_of_mem _ hb)

/-- The start that first fit settles on is free. -/
theorem firstFit_off (hpacked : Gaps.Packed lastOffset blocks poolSize) {spot : Int × Nat}
    (h : firstFit size lastOffset pos blocks = some spot) :
    lastOffset ≤ spot.1 ∧ spot.1 + size ≤ poolSize ∧
      ∀ block ∈ blocks, spot.1 + size ≤ block.1 ∨ block.2 ≤ spot.1 := by
  rcases firstFit_some h with ⟨front, back, hsplit, _, hstart, hfit⟩
  have hgap : (Gaps.lastEnd lastOffset front, Gaps.firstStart back poolSize) ∈
      Gaps.gaps lastOffset blocks poolSize := Gaps.mem_gaps_iff.mpr ⟨front, back, hsplit, rfl⟩
  have hfits : Gaps.Fits (ClosureOperator.id Int) (Gaps.endAt size)
      (Gaps.lastEnd lastOffset front, Gaps.firstStart back poolSize) := by
    rw [← hstart]
    exact hfit
  rcases Gaps.placement_of_gap hpacked hgap hfits with ⟨_, hplace⟩
  have hid : (ClosureOperator.id Int) (Gaps.lastEnd lastOffset front) = spot.1 := hstart.symm
  rw [hid] at hplace
  exact hplace

end FirstFit

section Blocks

variable {s : Pool}

theorem blocks_pageOut (evicted : List Ref) :
    (s.pageOut evicted).blocks =
      (s.offsetList.filter (· ∉ evicted)).map fun r => (s.heap r).block := by
  apply List.map_congr_left
  intro r hr
  have hkept : r ∉ evicted := by simpa using (List.mem_filter.mp hr).2
  rw [pageOut_heap_of_not_mem hkept]

theorem Packing.pageOut (h : Packing s) (evicted : List Ref) : Packing (s.pageOut evicted) where
  linked := h.linked.pageOut evicted
  sizes := by
    intro r hr
    rw [pageOut_size]
    exact h.sizes r hr
  packed := by
    rw [blocks_pageOut]
    exact h.packed.sublist (List.filter_sublist.map _)
  empty := by
    intro r hr hsize
    rcases List.mem_filter.mp hr with ⟨hmem, hkept⟩
    rw [pageOut_size] at hsize
    rw [pageOut_heap_of_not_mem (by simpa using hkept)]
    exact h.empty r hmem hsize

theorem block_update_of_ne {r x : Ref} (h : x ≠ r) (buf : Buffer) :
    (Function.update s.heap r buf x).block = (s.heap x).block := by
  rw [Function.update_of_ne h]

theorem place_size (r x : Ref) (spot : Int × Nat) :
    ((s.place r spot).heap x).size = (s.heap x).size := by
  by_cases hx : x = r
  · subst hx
    simp [Pool.place]
  · simp [Pool.place, hx]

theorem place_packed (hpacked : Gaps.Packed 0 s.blocks poolSize) {r : Ref}
    (hfree : r ∉ s.offsetList) (hsize : 0 ≤ (s.heap r).size) {spot : Int × Nat}
    (hspot : s.firstFit (s.heap r).size = some spot) :
    Gaps.Packed 0 (s.place r spot).blocks poolSize := by
  rcases firstFit_some hspot with ⟨front, back, hsplit, hpos, hend, hfit⟩
  rw [Nat.zero_add] at hpos
  have hnew : (s.place r spot).blocks =
      front ++ (spot.1, spot.1 + (s.heap r).size) :: back := by
    have hother : ∀ l : List Ref, (∀ x ∈ l, x ∈ s.offsetList) →
        (l.map fun x => ((s.place r spot).heap x).block) = l.map fun x => (s.heap x).block := by
      intro l hl
      apply List.map_congr_left
      intro x hx
      have hne : x ≠ r := fun heq => hfree (heq ▸ hl x hx)
      exact block_update_of_ne hne _
    have hself : ((s.place r spot).heap r).block = (spot.1, spot.1 + (s.heap r).size) := by
      simp [Pool.place, Buffer.block]
    have htake : (s.offsetList.take spot.2).map (fun x => (s.heap x).block) = front := by
      rw [List.map_take, hpos]
      change s.blocks.take front.length = front
      rw [hsplit, List.take_left]
    have hdrop : (s.offsetList.drop spot.2).map (fun x => (s.heap x).block) = back := by
      rw [List.map_drop, hpos]
      change s.blocks.drop front.length = back
      rw [hsplit, List.drop_left]
    change (listInsert s.offsetList spot.2 r).map (fun x => ((s.place r spot).heap x).block) = _
    rw [listInsert, List.map_append, List.map_cons, hself,
      hother _ (fun x hx => List.mem_of_mem_take hx),
      hother _ (fun x hx => List.mem_of_mem_drop hx), htake, hdrop]
  rw [hsplit] at hpacked
  rw [hnew]
  apply hpacked.insert
  · exact le_of_eq hend.symm
  · omega
  · exact hfit

theorem Packing.place (h : Packing s) {r : Ref} (hr : r ∈ s.live)
    (habsent : (s.heap r).offset = none) {spot : Int × Nat}
    (hspot : s.firstFit (s.heap r).size = some spot) : Packing (s.place r spot) := by
  have hfree := h.linked.absent habsent
  constructor
  · exact h.linked.place hr habsent spot
  · intro x hx
    rw [place_size]
    exact h.sizes x hx
  · exact place_packed h.packed hfree (h.sizes r hr) hspot
  · intro x hx hsize
    rw [place_size] at hsize
    by_cases hxr : x = r
    · subst hxr
      -- an empty buffer fits below whatever comes first
      have hzero : spot.1 = 0 := by
        rw [Pool.firstFit, hsize] at hspot
        cases hblocks : s.blocks with
        | nil =>
            rw [hblocks, firstFit, if_pos (by decide)] at hspot
            cases hspot
            rfl
        | cons block blocks =>
            have hlow : 0 ≤ block.1 := by
              have hpacked := h.packed
              rw [hblocks] at hpacked
              exact hpacked.1
            rw [hblocks, firstFit, if_pos (by omega)] at hspot
            cases hspot
            rfl
      simp [Pool.place, hzero]
    · have hmem : x ∈ s.offsetList := by
        have hin : x ∈ listInsert s.offsetList spot.2 r := hx
        rw [listInsert, List.mem_append, List.mem_cons] at hin
        rcases hin with hin | hin | hin
        · exact List.mem_of_mem_take hin
        · exact absurd hin hxr
        · exact List.mem_of_mem_drop hin
      have hold := h.empty x hmem hsize
      simpa [Pool.place, hxr] using hold

/-- Changes that touch neither a size nor an offset keep the layout. -/
theorem Packing.of_same {s' : Pool} (h : Packing s) (hlinked : Linked s')
    (hlive : ∀ r ∈ s'.live, r ∈ s.live)
    (hlist : s'.offsetList.Sublist s.offsetList)
    (hsize : ∀ r ∈ s.live, (s'.heap r).size = (s.heap r).size)
    (hoffset : ∀ r ∈ s.live, (s'.heap r).offset = (s.heap r).offset) : Packing s' where
  linked := hlinked
  sizes := by
    intro r hr
    rw [hsize r (hlive r hr)]
    exact h.sizes r (hlive r hr)
  packed := by
    have hblocks : s'.blocks = s'.offsetList.map fun r => (s.heap r).block := by
      apply List.map_congr_left
      intro r hr
      have hmem := ((h.linked.paged r).mp (hlist.subset hr)).1
      rw [Buffer.block, Buffer.block, hsize r hmem, hoffset r hmem]
    rw [hblocks]
    exact h.packed.sublist (hlist.map _)
  empty := by
    intro r hr hzero
    have hmem := ((h.linked.paged r).mp (hlist.subset hr)).1
    rw [hsize r hmem] at hzero
    rw [hoffset r hmem]
    exact h.empty r (hlist.subset hr) hzero

end Blocks

section Compaction

variable {s : Pool}

/-- The search by offset stops at the list predecessor. -/
theorem endBelow_eq (h : Packing s) {r : Ref} {offset : Int} {front back : List Ref}
    (hsplit : s.offsetList = front ++ r :: back) (hpaged : (s.heap r).offset = some offset) :
    s.endBelow offset = Gaps.lastEnd 0 (front.map fun x => (s.heap x).block) := by
  have hblocks : s.blocks = (front.map fun x => (s.heap x).block) ++
      (offset, offset + (s.heap r).size) :: back.map fun x => (s.heap x).block := by
    rw [Pool.blocks, hsplit, List.map_append, List.map_cons, block_of_offset hpaged]
  have hpacked := h.packed
  rw [hblocks, Gaps.packed_append] at hpacked
  rcases hpacked with ⟨hfront, hback⟩
  have hlow : 0 ≤ Gaps.lastEnd 0 (front.map fun x => (s.heap x).block) := hfront.le
  have hhigh : Gaps.lastEnd 0 (front.map fun x => (s.heap x).block) ≤ offset := hback.1
  rw [Pool.endBelow, hblocks]
  rcases lt_or_eq_of_le (hlow.trans hhigh) with hpos | hzero
  · have hbelow : ∀ block ∈ front.map fun x => (s.heap x).block,
        decide (block.1 < offset) = true := by
      intro block hblock
      have hends := hfront.mem hblock
      rcases List.mem_map.mp hblock with ⟨x, hx, rfl⟩
      have hmem : x ∈ s.offsetList := by
        rw [hsplit]
        exact List.mem_append_left _ hx
      rcases h.linked.offset_of_mem hmem with ⟨start, hstart⟩
      rw [block_of_offset hstart] at hends ⊢
      simp only [decide_eq_true_eq] at hends ⊢
      by_cases hempty : (s.heap x).size = 0
      · have hbottom := h.empty x hmem hempty
        rw [hstart] at hbottom
        injection hbottom with hbottom
        omega
      · omega
    rw [List.takeWhile_append_of_pos hbelow, List.takeWhile_cons_of_neg (by simp),
      List.append_nil]
  · have hnone : ((front.map fun x => (s.heap x).block) ++ (offset, offset + (s.heap r).size) ::
        back.map fun x => (s.heap x).block).takeWhile (fun block => block.1 < offset) = [] := by
      cases hall : (front.map fun x => (s.heap x).block) ++ (offset, offset + (s.heap r).size) ::
          back.map fun x => (s.heap x).block with
      | nil => rfl
      | cons block blocks =>
          have hfirst : 0 ≤ block.1 := by
            have hpacked := h.packed
            rw [hblocks, hall] at hpacked
            exact hpacked.1
          rw [List.takeWhile_cons_of_neg]
          simp only [decide_eq_true_eq]
          omega
    rw [hnone]
    simp only [Gaps.lastEnd_nil]
    omega

theorem blocks_setBuffer_offset {r : Ref} {front back : List Ref} (h : Linked s)
    (hsplit : s.offsetList = front ++ r :: back) (start : Int) :
    (s.setBuffer r { s.heap r with offset := some start }).blocks =
      (front.map fun x => (s.heap x).block) ++
        (start, start + (s.heap r).size) :: back.map fun x => (s.heap x).block := by
  have hnodup := h.offsets
  rw [hsplit, List.nodup_middle, List.nodup_cons, List.mem_append, not_or] at hnodup
  have hother : ∀ l : List Ref, r ∉ l →
      (l.map fun x => ((s.setBuffer r { s.heap r with offset := some start }).heap x).block) =
        l.map fun x => (s.heap x).block := by
    intro l hl
    apply List.map_congr_left
    intro x hx
    have hne : x ≠ r := fun heq => hl (heq ▸ hx)
    exact block_update_of_ne hne _
  have hself : ((s.setBuffer r { s.heap r with offset := some start }).heap r).block =
      (start, start + (s.heap r).size) := by
    simp [Pool.setBuffer, Buffer.block]
  change s.offsetList.map _ = _
  rw [hsplit, List.map_append, List.map_cons, hself, hother front hnodup.1.1,
    hother back hnodup.1.2]

theorem Packing.compacted (h : Packing s) {r : Ref} {offset : Int} (hr : r ∈ s.live)
    (hpaged : (s.heap r).offset = some offset) : Packing (s.compacted r offset) := by
  have hlinked := linked_compacted h.linked hpaged
  rw [Pool.compacted] at hlinked ⊢
  split
  · next hgap =>
      rw [if_pos hgap] at hlinked
      have hmem : r ∈ s.offsetList := (h.linked.paged r).mpr ⟨hr, by simp [hpaged]⟩
      rcases List.append_of_mem hmem with ⟨front, back, hsplit⟩
      have hend := endBelow_eq h hsplit hpaged
      have hsize := h.sizes r hr
      have hpacked := h.packed
      rw [Pool.blocks, hsplit, List.map_append, List.map_cons, block_of_offset hpaged,
        Gaps.packed_append] at hpacked
      rcases hpacked with ⟨hfront, hlow, hpair, hback⟩
      constructor
      · exact hlinked
      · intro x hx
        have hold := h.sizes x hx
        by_cases hxr : x = r
        · subst hxr
          simpa [Pool.setBuffer] using hold
        · simpa [Pool.setBuffer, hxr] using hold
      · rw [blocks_setBuffer_offset h.linked hsplit, hend, Gaps.packed_append]
        refine ⟨hfront, le_rfl, by omega, hback.mono ?_ le_rfl⟩
        simp only
        omega
      · intro x hx hempty
        by_cases hxr : x = r
        · subst hxr
          have hzero : (s.heap x).size = 0 := by simpa [Pool.setBuffer] using hempty
          have hbottom := h.empty x hmem hzero
          rw [hpaged] at hbottom
          injection hbottom with hbottom
          have hnonneg := hfront.le
          omega
        · have hzero : (s.heap x).size = 0 := by simpa [Pool.setBuffer, hxr] using hempty
          simpa [Pool.setBuffer, hxr] using h.empty x hx hzero
  · exact h

end Compaction

/-- The size a create command asks for. -/
def Command.createSize (c : Command) : Option Int :=
  if c.cmd = "create" then (c.args.bind List.head?).bind int else none

def Command.SizeOk (c : Command) : Prop := ∀ size ∈ c.createSize, 0 ≤ size

instance : DecidablePred Command.SizeOk :=
  fun c => inferInstanceAs (Decidable (∀ size ∈ c.createSize, 0 ≤ size))

theorem Command.sizeOk_of_decimal {c : Command}
    (h : ∀ arg words, c.cmd = "create" → c.args = some (arg :: words) → IsDecimal arg) :
    c.SizeOk := by
  intro size hsize
  rw [createSize] at hsize
  split at hsize
  · next hcmd =>
      obtain ⟨arg, hfirst, hint⟩ := Option.bind_eq_some_iff.mp hsize
      obtain ⟨args, hargs, hhead⟩ := Option.bind_eq_some_iff.mp hfirst
      obtain ⟨words, rfl⟩ := List.head?_eq_some_iff.mp hhead
      obtain rfl := int_decimal (h arg words hcmd hargs) hint
      omega
  · cases hsize

section Runs

variable {s : Pool}

/-- A buffer whose size and offset are left alone keeps the layout. -/
theorem packing_setBuffer (h : Packing s) (r : Ref) (buf : Buffer)
    (hsize : buf.size = (s.heap r).size) (hoffset : buf.offset = (s.heap r).offset) :
    Packing (s.setBuffer r buf) := by
  have hsome : buf.offset.isSome = (s.heap r).offset.isSome := by rw [hoffset]
  apply h.of_same (linked_setBuffer h.linked r buf hsome) (fun _ hx => hx) (List.Sublist.refl _)
  · intro x _
    by_cases hx : x = r
    · subst hx
      simpa [Pool.setBuffer] using hsize
    · simp [Pool.setBuffer, hx]
  · intro x _
    by_cases hx : x = r
    · subst hx
      simpa [Pool.setBuffer] using hoffset
    · simp [Pool.setBuffer, hx]

theorem packing_register (h : Packing s) {bufId : Int}
    (hid : s.buffers.lookup bufId = none) {size : Int} (hsize : 0 ≤ size) (unmoveable : Bool) :
    Packing (s.register bufId (Buffer.new size unmoveable)) := by
  have hold : ∀ x ∈ s.live, x ≠ s.nextRef := by
    intro x hx heq
    exact Nat.lt_irrefl _ (heq ▸ h.linked.fresh x hx)
  have hpagedOld : ∀ x ∈ s.offsetList, x ≠ s.nextRef :=
    fun x hx => hold x ((h.linked.paged x).mp hx).1
  constructor
  · exact linked_register h.linked hid size unmoveable
  · intro x hx
    by_cases hnew : x = s.nextRef
    · subst hnew
      simpa [Pool.register, Buffer.new] using hsize
    · have hmem : x ∈ s.live := by
        simpa [Pool.live, Pool.register, hnew] using hx
      simpa [Pool.register, hnew] using h.sizes x hmem
  · have hblocks : (s.register bufId (Buffer.new size unmoveable)).blocks = s.blocks := by
      apply List.map_congr_left
      intro x hx
      exact block_update_of_ne (hpagedOld x hx) _
    rw [hblocks]
    exact h.packed
  · intro x hx hempty
    have hne := hpagedOld x hx
    have hzero : (s.heap x).size = 0 := by simpa [Pool.register, hne] using hempty
    simpa [Pool.register, hne] using h.empty x hx hzero

theorem PageIn.packing (h : Packing s) {r : Ref} (hr : r ∈ s.live)
    {result : EStateM.Result Exn Pool Unit} (hin : PageIn s r result) :
    Packing (stateOf result) := by
  cases hin with
  | resident _ => exact h
  | placed evicted spot habsent _ hevicted _ hspot =>
      have hfree : r ∉ evicted := fun hmem => h.linked.absent habsent (hevicted r hmem).1
      apply (h.pageOut evicted).place hr
      · rw [pageOut_heap_of_not_mem hfree]
        exact habsent
      · rw [pageOut_size]
        exact hspot
  | failed evicted _ _ _ _ => exact h.pageOut evicted

/-- What is paged in is no larger than the pool. -/
theorem PageIn.size_le {s' : Pool} (h : Packing s) {r : Ref} (habsent : (s.heap r).offset = none)
    (hin : PageIn s r (.ok ⟨⟩ s')) : (s.heap r).size ≤ poolSize := by
  cases hin with
  | resident hpaged =>
      rw [habsent] at hpaged
      cases hpaged
  | placed evicted spot _ _ _ _ hspot =>
      obtain ⟨hlow, hhigh, _⟩ := firstFit_off (h.pageOut evicted).packed hspot
      omega

theorem Step.create_size_le {s' : Pool} (h : Packing s) {c : Command} {size : Int}
    {unmoveable : Bool} (hsize : c.SizeOk) (haccepts : Accepts s c (.create size unmoveable))
    (hstep : Step s c (.create size unmoveable) (.ok ⟨⟩ s')) : size ≤ poolSize := by
  cases hstep with
  | create _ _ _ hin =>
      cases haccepts with
      | @create _ _ rest hcmd hid hargs hint =>
          have hnonneg : 0 ≤ size := hsize size (by simp [Command.createSize, hcmd, hargs, hint])
          have hnew : ∀ unmoveable, (s.register c.bufId (Buffer.new size unmoveable)).heap s.nextRef =
              Buffer.new size unmoveable := fun _ => Function.update_self ..
          have hle := hin.size_le (packing_register h hid hnonneg _) (by rw [hnew]; rfl)
          rwa [hnew] at hle

theorem Step.packing (h : Packing s) {c : Command} {q : Request} (hsize : c.SizeOk)
    {result : EStateM.Result Exn Pool Unit} (haccepts : Accepts s c q)
    (hstep : Step s c q result) : Packing (stateOf result) := by
  have hlinked := hstep.linked h.linked haccepts
  cases hstep with
  | destroy r =>
      cases haccepts with
      | destroy _ _ hid =>
          apply h.of_same hlinked
          · intro x hx
            exact ((mem_live_destroy h.linked (mem_of_lookup hid)).mp hx).1
          · exact List.filter_sublist
          · exact fun _ _ => rfl
          · exact fun _ _ => rfl
  | addUsecnt r => exact packing_setBuffer h r _ rfl rfl
  | release r _ => exact packing_setBuffer h r _ rfl rfl
  | compact r offset _ hpaged =>
      cases haccepts with
      | removeUsecnt _ _ hid _ =>
          have hidle : Packing (s.setInUse r false) := packing_setBuffer h r _ rfl rfl
          apply hidle.compacted (live_of_lookup hid)
          simpa [Pool.setInUse, Pool.setBuffer] using hpaged
  | compactAbsent r _ _ => exact packing_setBuffer h r _ rfl rfl
  | create size unmoveable _ hin =>
      cases haccepts with
      | create hcmd hid hargs hint =>
          have hnonneg : 0 ≤ size := hsize size (by simp [Command.createSize, hcmd, hargs, hint])
          apply hin.packing (packing_register h hid hnonneg _)
          simp [Pool.live, Pool.register]
  | used r s' hin =>
      cases haccepts with
      | use _ _ hid _ =>
          have hpacking : Packing s' := hin.packing h (live_of_lookup hid)
          exact hpacking.of_same hlinked (fun _ hx => hx) (List.Sublist.refl _)
            (fun _ _ => rfl) (fun _ _ => rfl)
  | unused r e s' hin =>
      cases haccepts with
      | use _ _ hid _ => exact hin.packing h (live_of_lookup hid)
  | madv r value => exact packing_setBuffer h r _ rfl rfl

theorem step_packing (h : Packing s) {c : Command} (hsize : c.SizeOk) : Packing (step s c) := by
  rcases step_cases h.linked c with ⟨q, result, haccepts, hstep, heq⟩ | ⟨_, heq⟩
  · rw [heq]
    exact hstep.packing h hsize haccepts
  · rw [heq]
    exact h

theorem foldl_packing (h : Packing s) (history : List Command)
    (hsizes : ∀ c ∈ history, c.SizeOk) : Packing (history.foldl step s) := by
  induction history generalizing s with
  | nil => exact h
  | cons c history ih =>
      apply ih (step_packing h (hsizes c List.mem_cons_self))
      exact fun d hd => hsizes d (List.mem_cons_of_mem _ hd)

end Runs

theorem run_packing (compact : Bool) (history : List Command)
    (hsizes : ∀ c ∈ history, c.SizeOk) : Packing (run compact history) :=
  foldl_packing (packing_new compact) history hsizes

/-- Where a paged-in buffer lies; nothing for one that is paged out. -/
def Buffer.interval (buf : Buffer) : Set Int :=
  match buf.offset with
  | some offset => Set.Ico offset (offset + buf.size)
  | none => ∅

/-- The buffers `x` and `y` are paged in with `bound` between their offsets. -/
def Pool.Ordered (s : Pool) (bound : Buffer → Int → Int → Prop) (x y : Ref) : Prop :=
  ∃ first second, (s.heap x).offset = some first ∧ (s.heap y).offset = some second ∧
    bound (s.heap x) first second

structure LaidOut (s : Pool) : Prop where
  members : ∀ r, r ∈ s.offsetList ↔
    (∃ bufId, (bufId, r) ∈ s.buffers) ∧ (s.heap r).offset ≠ none
  once : s.offsetList.Nodup
  mru : s.mruList.Perm s.offsetList
  order : s.offsetList.Pairwise (s.Ordered fun _ first second => first ≤ second)
  inside : ∀ r ∈ s.offsetList, ∃ offset, (s.heap r).offset = some offset ∧
    0 ≤ offset ∧ offset + (s.heap r).size ≤ poolSize
  consecutive : s.offsetList.IsChain (s.Ordered fun buf first second => first + buf.size ≤ second)
  disjoint : s.offsetList.Pairwise fun x y => Disjoint (s.heap x).interval (s.heap y).interval

section LaidOut

variable {s : Pool}

theorem ends_pairwise (hpacked : Gaps.Packed 0 s.blocks poolSize)
    (hoffset : ∀ r ∈ s.offsetList, (s.heap r).offset.isSome = true) :
    s.offsetList.Pairwise (s.Ordered fun buf first second => first + buf.size ≤ second) := by
  have hpairwise := List.pairwise_map.mp hpacked.pairwise
  apply hpairwise.imp_of_mem
  intro x y hx hy hends
  rcases Option.isSome_iff_exists.mp (hoffset x hx) with ⟨first, hfirst⟩
  rcases Option.isSome_iff_exists.mp (hoffset y hy) with ⟨second, hsecond⟩
  rw [block_of_offset hfirst, block_of_offset hsecond] at hends
  exact ⟨first, second, hfirst, hsecond, hends⟩

/-- Ends in order put the offsets in order. -/
theorem order_of_ends
    (hends : s.offsetList.Pairwise (s.Ordered fun buf first second => first + buf.size ≤ second))
    (hsizes : ∀ r ∈ s.offsetList, 0 ≤ (s.heap r).size) :
    s.offsetList.Pairwise (s.Ordered fun _ first second => first ≤ second) := by
  apply hends.imp_of_mem
  intro x y hx _ hends
  rcases hends with ⟨first, second, hfirst, hsecond, hle⟩
  have hsize := hsizes x hx
  exact ⟨first, second, hfirst, hsecond, by omega⟩

theorem Packing.ends_pairwise (h : Packing s) :
    s.offsetList.Pairwise (s.Ordered fun buf first second => first + buf.size ≤ second) :=
  Python.ends_pairwise h.packed fun r hr => ((h.linked.paged r).mp hr).2

theorem Packing.size_nonneg (h : Packing s) {r : Ref} (hr : r ∈ s.offsetList) :
    0 ≤ (s.heap r).size :=
  h.sizes r ((h.linked.paged r).mp hr).1

theorem Packing.laidOut (h : Packing s) : LaidOut s where
  members := by
    intro r
    rw [h.linked.paged r, Pool.live, List.mem_map, Option.isSome_iff_ne_none]
    constructor
    · rintro ⟨⟨⟨bufId, ref⟩, hentry, href⟩, hoffset⟩
      exact ⟨⟨bufId, href ▸ hentry⟩, hoffset⟩
    · rintro ⟨⟨bufId, hentry⟩, hoffset⟩
      exact ⟨⟨(bufId, r), hentry, rfl⟩, hoffset⟩
  once := h.linked.offsets
  mru := h.linked.mru
  order := order_of_ends h.ends_pairwise fun r hr => h.size_nonneg hr
  inside := by
    intro r hr
    rcases h.linked.offset_of_mem hr with ⟨offset, hoffset⟩
    have hblock := h.packed.mem (List.mem_map.mpr ⟨r, hr, rfl⟩)
    rw [block_of_offset hoffset] at hblock
    exact ⟨offset, hoffset, hblock.1, hblock.2.2⟩
  consecutive := h.ends_pairwise.isChain
  disjoint := by
    apply h.ends_pairwise.imp
    intro x y hends
    rcases hends with ⟨first, second, hfirst, hsecond, hle⟩
    rw [Buffer.interval, Buffer.interval, hfirst, hsecond]
    exact Gaps.disjoint_of_le hle

end LaidOut

theorem run_laidOut (compact : Bool) (history : List Command)
    (hsizes : ∀ c ∈ history, c.SizeOk) : LaidOut (run compact history) :=
  (run_packing compact history hsizes).laidOut

theorem run_laidOut_compacting :
    LaidOut (run true [⟨0, "create", 1, some ["4096"]⟩, ⟨1, "create", 2, some ["0", "unmoveable"]⟩,
      ⟨2, "destroy", 1, none⟩, ⟨3, "add_usecnt", 2, none⟩, ⟨4, "remove_usecnt", 2, none⟩]) :=
  run_laidOut true _ (by decide +kernel)

end CmaPool.Python
