import CmaPool.Drm.Remove
import CmaPool.Drm.Scan
import CmaPool.TestDrm.Commands

/-! The lists of buffers and the node list, kept in step.

Paging a buffer out and inserting one have closed forms, and both keep the
state consistent. -/

namespace CmaPool.TestDrm

open Drm

/-- `l` is the node list of the allocator. -/
structure Consistent (data : Data) (l : List NodeRef) : Prop where
  valid : Valid data.mm l
  names : (data.allBuffers.map fun p => (data.buf p).name).Nodup
  fresh : ∀ p ∈ data.allBuffers, p < data.nextPtr
  mru : ∀ p, p ∈ data.mruBuffers ↔ p ∈ data.allBuffers ∧ (data.buf p).pagedIn = true
  nodes : l.Perm (data.mruBuffers.map NodeRef.buf)
  sizes : ∀ p ∈ data.mruBuffers, (data.mm.node (.buf p)).size = (data.buf p).size

def Buffer.pinned (buf : Buffer) : Bool := buf.inUse || buf.unmoveable

def Buffer.purgeable (buf : Buffer) : Bool :=
  buf.madv = .dontneed ∧ !buf.inUse ∧ !buf.unmoveable

namespace Data

def pagedOut (data : Data) (evicted : List Ptr) (mm : DrmMm) : Data :=
  { data with
    buf := fun q =>
      { data.buf q with pagedIn := (data.buf q).pagedIn && decide (q ∉ evicted) }
    mruBuffers := data.mruBuffers.filter (· ∉ evicted)
    mm
    overflow := evicted.foldl (fun overflow q => add64 overflow (data.buf q).size) data.overflow }

def pagedIn (data : Data) (p : Ptr) (mm : DrmMm) : Data :=
  { data with
    buf := Function.update data.buf p { data.buf p with pagedIn := true }
    mruBuffers := p :: data.mruBuffers
    mm
    overflow := sub64 data.overflow (data.buf p).size }

/-- Some block of `size` bytes at a page boundary of the pool is off `ps`. -/
def Room (data : Data) (ps : List Ptr) (size : Nat) : Prop :=
  ∃ start, FreeAt data.mm (ps.map NodeRef.buf) size start

/-- `data'` is `data` with `evicted` paged out, each once, and every node where it
was. -/
def PagesOut (data : Data) (evicted : List Ptr) (data' : Data) : Prop :=
  (evicted.Nodup ∧ ∀ q ∈ evicted, q ∈ data.mruBuffers) ∧
    ∃ mm l, data' = data.pagedOut evicted mm ∧
      Consistent (data.pagedOut evicted mm) l ∧
      ∀ n, mm.block n = data.mm.block n

/-- `data'` is `data` with `p` paged in, off the other nodes. -/
def PagesIn (data : Data) (p : Ptr) (data' : Data) : Prop :=
  ∃ mm l, data' = data.pagedIn p mm ∧ Consistent (data.pagedIn p mm) l ∧
    FreeAt data.mm (data.mruBuffers.map NodeRef.buf) (data.buf p).size
      (mm.node (.buf p)).start ∧
    ∀ n, n ≠ .buf p → mm.block n = data.mm.block n

end Data

theorem block_ext {mm mm' : DrmMm} {n : NodeRef} (h : mm'.block n = mm.block n) :
    (mm'.node n).start = (mm.node n).start ∧ (mm'.node n).size = (mm.node n).size := by
  have hstart : (mm'.node n).start = (mm.node n).start := congrArg Prod.fst h
  have hend : (mm'.node n).start + (mm'.node n).size = (mm.node n).start + (mm.node n).size :=
    congrArg Prod.snd h
  omega

/-- A field that the new contents of a buffer agree on is the same everywhere. -/
theorem setBuf_field {α : Type} {data : Data} {p : Ptr} {buf : Buffer} (f : Buffer → α)
    (h : f buf = f (data.buf p)) (q : Ptr) : f ((data.setBuf p buf).buf q) = f (data.buf q) := by
  by_cases hq : q = p
  · subst hq
    simp only [Data.setBuf, Function.update_self, h]
  · simp only [Data.setBuf, Function.update_of_ne hq]

section Consistent

variable {data : Data} {l : List NodeRef} {p : Ptr} {size : Nat}

theorem Consistent.mruNodup (h : Consistent data l) : data.mruBuffers.Nodup :=
  (h.nodes.nodup_iff.mp (List.nodup_cons.mp h.valid.ring.2).2).of_map _

theorem Consistent.allNodup (h : Consistent data l) : data.allBuffers.Nodup := h.names.of_map _

theorem Consistent.mem_nodes (h : Consistent data l) : NodeRef.buf p ∈ l ↔ p ∈ data.mruBuffers := by
  rw [h.nodes.mem_iff, List.mem_map]
  constructor
  · intro ⟨q, hq, heq⟩
    cases heq
    exact hq
  · intro hp
    exact ⟨p, hp, rfl⟩

theorem Consistent.not_mem_ring (h : Consistent data l) (hp : p ∉ data.mruBuffers) :
    NodeRef.buf p ∉ NodeRef.head :: l := by
  simp [h.mem_nodes, hp]

theorem Consistent.hasRoom_iff (h : Consistent data l) :
    HasRoom data.mm l size ↔ data.Room data.mruBuffers size := by
  rw [hasRoom_iff_freeAt h.valid.packed]
  constructor
  · intro ⟨start, hfree⟩
    exact ⟨start, hfree.subset fun n hn => h.nodes.mem_iff.mpr hn⟩
  · intro ⟨start, hfree⟩
    exact ⟨start, hfree.subset fun n hn => h.nodes.mem_iff.mp hn⟩

theorem Data.Room.mono {ps qs : List Ptr} (h : data.Room ps size) (hsub : ∀ q ∈ qs, q ∈ ps) :
    data.Room qs size := by
  rcases h with ⟨start, hfree⟩
  refine ⟨start, hfree.subset fun n hn => ?_⟩
  rcases List.mem_map.mp hn with ⟨q, hq, rfl⟩
  exact List.mem_map.mpr ⟨q, hsub q hq, rfl⟩

theorem Data.Room.of_block {data' : Data} {ps : List Ptr} (h : data.Room ps size)
    (hblock : ∀ n, data'.mm.block n = data.mm.block n) : data'.Room ps size := by
  rcases h with ⟨start, hfree⟩
  exact ⟨start, hfree.of_block fun n _ => hblock n⟩

/-- What is printed has no part in the invariant. -/
theorem Consistent.printed (h : Consistent data l) (stdout stderr : Bytes) :
    Consistent (data.printed stdout stderr) l :=
  ⟨h.valid, h.names, h.fresh, h.mru, h.nodes, h.sizes⟩

theorem Consistent.nextLine (h : Consistent data l) (lineNum : Nat) :
    Consistent { data with lineNum } l :=
  ⟨h.valid, h.names, h.fresh, h.mru, h.nodes, h.sizes⟩

end Consistent

section PageOut

variable {data : Data} {l : List NodeRef} {p : Ptr}

@[simp] theorem pagedOut_mruBuffers (evicted : List Ptr) (mm : DrmMm) :
    (data.pagedOut evicted mm).mruBuffers = data.mruBuffers.filter (· ∉ evicted) := rfl

theorem pagedOut_nil : data.pagedOut [] data.mm = data := by
  simp [Data.pagedOut]

theorem pagedOut_buf {evicted : List Ptr} (hp : p ∉ evicted) (mm : DrmMm) :
    (data.pagedOut evicted mm).buf p = data.buf p := by
  simp [Data.pagedOut, hp]

theorem pagedOut_pagedOut (first second : List Ptr) (mm mm' : DrmMm) :
    (data.pagedOut first mm).pagedOut second mm' = data.pagedOut (first ++ second) mm' := by
  simp only [Data.pagedOut, List.filter_filter, List.foldl_append, Data.mk.injEq, true_and,
    and_true]
  constructor
  · funext q
    simp [Bool.and_assoc]
  · apply List.filter_congr
    intro q _
    simp [Bool.and_comm]

/-- Paging out keeps the state consistent, whichever node list is left. -/
theorem Consistent.pagedOut (h : Consistent data l) {evicted : List Ptr} {mm : DrmMm}
    {l' : List NodeRef} (hvalid : Valid mm l')
    (hnodes : l'.Perm ((data.mruBuffers.filter (· ∉ evicted)).map NodeRef.buf))
    (hblock : ∀ n, mm.block n = data.mm.block n) :
    Consistent (data.pagedOut evicted mm) l' where
  valid := hvalid
  names := h.names
  fresh := h.fresh
  mru := by
    intro q
    have hq := h.mru q
    simp only [Data.pagedOut, List.mem_filter, Bool.and_eq_true, hq, and_assoc]
  nodes := hnodes
  sizes := by
    intro q hq
    have hmem := (List.mem_filter.mp hq).1
    exact (block_ext (hblock _)).2.trans (h.sizes q hmem)

theorem Data.PagesOut.trans {data₁ data₂ : Data} {first second : List Ptr}
    (h₁ : data.PagesOut first data₁) (h₂ : data₁.PagesOut second data₂) :
    data.PagesOut (first ++ second) data₂ := by
  rcases h₁ with ⟨⟨hnodup, hmem⟩, mm, l, rfl, _, hblock⟩
  rcases h₂ with ⟨⟨hnodup', hmem'⟩, mm', l', rfl, hcons, hblock'⟩
  have hrest : ∀ q ∈ second, q ∈ data.mruBuffers ∧ q ∉ first := by
    intro q hq
    simpa using hmem' q hq
  rw [pagedOut_pagedOut] at hcons ⊢
  refine ⟨⟨?_, ?_⟩, mm', l', rfl, hcons, fun n => (hblock' n).trans (hblock n)⟩
  · apply List.nodup_append.mpr
    exact ⟨hnodup, hnodup', fun q hq r hr heq => (hrest r hr).2 (heq ▸ hq)⟩
  · intro q hq
    rcases List.mem_append.mp hq with hq | hq
    · exact hmem q hq
    · exact (hrest q hq).1

theorem Consistent.pagesOut_nil (h : Consistent data l) : data.PagesOut [] data :=
  ⟨⟨List.nodup_nil, nofun⟩, data.mm, l, pagedOut_nil.symm, by rw [pagedOut_nil]; exact h,
    fun _ => rfl⟩

theorem removeBufferFromPool_pagesOut (h : Consistent data l) (hp : p ∈ data.mruBuffers) :
    ∃ data', data.removeBufferFromPool p = .ok data' ∧ data.PagesOut [p] data' := by
  rcases List.append_of_mem (h.mem_nodes.mpr hp) with ⟨xs, ys, rfl⟩
  rcases removeNode_valid h.valid with ⟨mm, hrun, hvalid, hblock⟩
  have herase : data.mruBuffers.erase p = data.mruBuffers.filter (· ∉ [p]) := by
    rw [h.mruNodup.erase_eq_filter]
    apply List.filter_congr
    intro q _
    rw [Bool.eq_iff_iff]
    simp
  have hperm : (xs ++ ys).Perm ((data.mruBuffers.filter (· ∉ [p])).map NodeRef.buf) := by
    have hrest := h.nodes.erase (NodeRef.buf p)
    have hnew := h.valid.ring.nodup_remove.1
    have hxs : NodeRef.buf p ∉ xs := fun hx => hnew (by simp [hx])
    rw [List.erase_append_right _ hxs, List.erase_cons_head] at hrest
    have hinj : Function.Injective NodeRef.buf := fun _ _ heq => NodeRef.buf.inj heq
    rw [← herase, List.map_erase hinj]
    exact hrest
  have hmem : ∀ q ∈ [p], q ∈ data.mruBuffers := fun q hq => List.mem_singleton.mp hq ▸ hp
  refine ⟨data.pagedOut [p] mm, ?_, ⟨List.nodup_singleton p, hmem⟩, mm, xs ++ ys, rfl,
    h.pagedOut hvalid hperm hblock, hblock⟩
  rw [Data.removeBufferFromPool, hrun, ok_bind, eraseEntry, if_pos hp, herase]
  simp only [pure_eq_ok, ok_bind, Data.setBuf, Data.pagedOut, Except.ok.injEq, Data.mk.injEq,
    true_and, and_true]
  refine ⟨?_, rfl⟩
  funext q
  by_cases hq : q = p
  · subst hq
    simp
  · simp [hq]

/-- A loop that pages out the buffers that pass a test. -/
theorem foldlM_pagesOut (test : Buffer → Bool) {todo : List Ptr} (h : Consistent data l)
    (hmem : ∀ p ∈ todo, p ∈ data.mruBuffers) (hnodup : todo.Nodup) :
    ∃ data', todo.foldlM (fun data p =>
        if test (data.buf p) then data.removeBufferFromPool p else pure data) data = .ok data' ∧
      data.PagesOut (todo.filter fun p => test (data.buf p)) data' := by
  induction todo generalizing data l with
  | nil => exact ⟨data, rfl, h.pagesOut_nil⟩
  | cons p todo ih =>
      rcases List.nodup_cons.mp hnodup with ⟨hp, htodo⟩
      have hrest : ∀ q ∈ todo, q ∈ data.mruBuffers :=
        fun q hq => hmem q (List.mem_cons_of_mem _ hq)
      rw [List.foldlM_cons]
      cases htest : test (data.buf p) with
      | false =>
          rw [List.filter_cons_of_neg (by simp [htest])]
          simpa using ih h hrest htodo
      | true =>
          rcases removeBufferFromPool_pagesOut h (hmem p List.mem_cons_self) with
            ⟨_, hrun, hout⟩
          rcases hout with ⟨honce, mm, l', rfl, hcons, hblock⟩
          have hother : ∀ q ∈ todo, q ∉ [p] := by
            intro q hq heq
            exact hp (List.mem_singleton.mp heq ▸ hq)
          have hkeep : ∀ q ∈ todo, q ∈ (data.pagedOut [p] mm).mruBuffers := by
            intro q hq
            simpa using ⟨hrest q hq, fun heq => hother q hq (by simp [heq])⟩
          have hsame : (todo.filter fun q => test ((data.pagedOut [p] mm).buf q)) =
              todo.filter fun q => test (data.buf q) := by
            apply List.filter_congr
            intro q hq
            rw [pagedOut_buf (hother q hq)]
          rcases ih hcons hkeep htodo with ⟨data', hloop, hout'⟩
          rw [hsame] at hout'
          rw [List.filter_cons_of_pos (by simp [htest])]
          refine ⟨data', ?_, Data.PagesOut.trans ⟨honce, mm, l', rfl, hcons, hblock⟩ hout'⟩
          simp only [if_true, hrun, ok_bind]
          exact hloop

def Data.purgeList (data : Data) : List Ptr :=
  data.mruBuffers.filter fun p => (data.buf p).purgeable

theorem userspaceCachePurge_pagesOut (h : Consistent data l) :
    ∃ data', data.userspaceCachePurge = .ok data' ∧ data.PagesOut data.purgeList data' := by
  have hloop := foldlM_pagesOut Buffer.purgeable h (fun _ hp => hp) h.mruNodup
  rw [Data.userspaceCachePurge, Data.purgeList]
  simpa only [Buffer.purgeable, decide_eq_true_eq] using hloop

theorem evict_pagesOut (h : Consistent data l) {evicted : List Ptr}
    (hmem : ∀ p ∈ evicted, p ∈ data.mruBuffers) (hnodup : evicted.Nodup) :
    ∃ data', evicted.foldlM Data.removeBufferFromPool data = .ok data' ∧
      data.PagesOut evicted data' := by
  have hloop := foldlM_pagesOut (fun _ => true) h hmem hnodup
  simpa using hloop

end PageOut

section Insert

variable {data : Data} {l : List NodeRef} {p : Ptr}

theorem Consistent.pagedIn (h : Consistent data l) (hp : p ∈ data.allBuffers) {mm : DrmMm}
    {xs ys : List NodeRef} (hl : l = xs ++ ys) (hvalid : Valid mm (xs ++ .buf p :: ys))
    (hsize : (mm.node (.buf p)).size = (data.buf p).size)
    (hblock : ∀ n, n ≠ .buf p → mm.block n = data.mm.block n) :
    Consistent (data.pagedIn p mm) (xs ++ .buf p :: ys) where
  valid := hvalid
  names := by
    have hname : ∀ q, ((data.pagedIn p mm).buf q).name = (data.buf q).name := by
      intro q
      by_cases hq : q = p
      · subst hq
        simp [Data.pagedIn]
      · simp [Data.pagedIn, hq]
    change (data.allBuffers.map fun q => ((data.pagedIn p mm).buf q).name).Nodup
    simpa only [hname] using h.names
  fresh := h.fresh
  mru := by
    intro q
    have hold := h.mru q
    by_cases hq : q = p
    · subst hq
      simp [Data.pagedIn, hp]
    · simp [Data.pagedIn, hq, hold]
  nodes := by
    have hrest := h.nodes
    rw [hl] at hrest
    exact List.perm_middle.trans (hrest.cons _)
  sizes := by
    intro q hq
    by_cases hqp : q = p
    · subst hqp
      simpa [Data.pagedIn] using hsize
    · have hmem : q ∈ data.mruBuffers := by simpa [Data.pagedIn, hqp] using hq
      have hne : NodeRef.buf q ≠ .buf p := fun heq => hqp (NodeRef.buf.inj heq)
      have hsame := (block_ext (hblock _ hne)).2.trans (h.sizes q hmem)
      simpa [Data.pagedIn, hqp] using hsame

theorem insertBufferInCmaPool_cases (h : Consistent data l) (hp : p ∈ data.allBuffers)
    (hout : p ∉ data.mruBuffers) (mode : InsertMode) :
    (∃ data', data.insertBufferInCmaPool p mode = .ok (true, data') ∧ data.PagesIn p data') ∨
      ((data.buf p).size = 0 ∨ ¬ data.Room data.mruBuffers (data.buf p).size) ∧
        data.insertBufferInCmaPool p mode = .ok (false, data) := by
  rcases insertNodeGeneric_cases h.valid (h.not_mem_ring hout) (data.buf p).size mode with
    ⟨xs, ys, mm, rfl, hsize, hfit, hrun, hvalid, hplaced⟩ | ⟨hfull, hrun⟩
  · left
    refine ⟨data.pagedIn p mm, ?_, mm, _, rfl,
      h.pagedIn hp rfl hvalid hplaced.size hplaced.other, ?_, hplaced.other⟩
    · rw [Data.insertBufferInCmaPool]
      simp only [hrun, ok_bind]
      rfl
    · rw [hplaced.start]
      have hgap : (Gaps.lastEnd 0 (data.mm.blocks xs),
          Gaps.firstStart (data.mm.blocks ys) poolSize) ∈
          Gaps.gaps 0 (data.mm.blocks (xs ++ ys)) poolSize :=
        Gaps.mem_gaps_iff.mpr ⟨_, _, blocks_append, rfl⟩
      have hfree := placement_iff.mp (Gaps.placement_of_gap h.valid.packed hgap hfit)
      exact hfree.subset fun n hn => h.nodes.mem_iff.mpr hn
  · right
    rw [h.hasRoom_iff] at hfull
    refine ⟨hfull, ?_⟩
    rw [Data.insertBufferInCmaPool]
    simp only [hrun, ok_bind]
    rfl

end Insert

end CmaPool.TestDrm
