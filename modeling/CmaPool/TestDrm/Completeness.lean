import CmaPool.TestDrm.Invariant

/-! When `page_in_buffer` fails, and what it has done by then.

The scan misses no feasible placement, so a failure means that the buffers it
may not touch leave no room. Only the purge remains of it then. -/

namespace CmaPool.TestDrm

open Drm

/-- A page-aligned place for `size` bytes off every paged-in buffer that is in
use or unmoveable. -/
def Data.SpotOffPinned (data : Data) (size start : Nat) : Prop :=
  pageSize ∣ start ∧ start + size ≤ poolSize ∧
    ∀ q ∈ data.allBuffers, (data.buf q).pagedIn = true →
      (data.buf q).inUse = true ∨ (data.buf q).unmoveable = true →
      Disjoint (Set.Ico start (start + size)) (nodeRange data.mm (.buf q))

/-- Exactly the purgeable buffers are paged out. -/
structure OnlyPurged (data data' : Data) : Prop where
  pagedIn : ∀ q ∈ data.allBuffers, (data'.buf q).pagedIn = true ↔
    (data.buf q).pagedIn = true ∧ ¬ ((data.buf q).madv = .dontneed ∧
      (data.buf q).inUse = false ∧ (data.buf q).unmoveable = false)
  start : ∀ q, (data'.mm.node (.buf q)).start = (data.mm.node (.buf q)).start
  mruBuffers : data'.mruBuffers = data.mruBuffers.filter fun q => (data'.buf q).pagedIn

def PageInComplete (data : Data) (p : Ptr) : Prop :=
  ∃ ret data', data.pageInBuffer p = .ok (ret, data') ∧
    (ret = false ↔ ¬ ∃ start, data.SpotOffPinned (data.buf p).size start) ∧
    (ret = false → OnlyPurged data data')

section PageIn

variable {data data' : Data} {l : List NodeRef} {p : Ptr} {size : Nat}

def Data.pinnedBuffers (data : Data) : List Ptr :=
  data.mruBuffers.filter fun q => (data.buf q).pinned

theorem mem_pinnedBuffers {q : Ptr} :
    q ∈ data.pinnedBuffers ↔ q ∈ data.mruBuffers ∧ (data.buf q).pinned = true :=
  List.mem_filter

theorem Consistent.room_pinned_iff (h : Consistent data l) (hsize : size ≠ 0) :
    data.Room data.pinnedBuffers size ↔ ∃ start, data.SpotOffPinned size start := by
  have hapart : ∀ start q, q ∈ data.mruBuffers →
      (Disjoint (Set.Ico start (start + size)) (nodeRange data.mm (.buf q)) ↔
        start + size ≤ (data.mm.block (.buf q)).1 ∨ (data.mm.block (.buf q)).2 ≤ start) := by
    intro start q hq
    have hpos := h.valid.sized _ (h.mem_nodes.mpr hq)
    rw [nodeRange, Set.Ico_disjoint_Ico, DrmMm.block]
    omega
  constructor
  · rintro ⟨start, hpage, hend, hoff⟩
    refine ⟨start, hpage, hend, fun q hq hpaged hpinned => ?_⟩
    have hmru := h.mem_mru hq hpaged
    rw [hapart start q hmru]
    apply hoff
    apply List.mem_map_of_mem
    exact mem_pinnedBuffers.mpr ⟨hmru, by simpa [Buffer.pinned] using hpinned⟩
  · rintro ⟨start, hpage, hend, hoff⟩
    refine ⟨start, hpage, hend, fun n hn => ?_⟩
    rcases List.mem_map.mp hn with ⟨q, hq, rfl⟩
    rcases mem_pinnedBuffers.mp hq with ⟨hmru, hpinned⟩
    rcases (h.mru q).mp hmru with ⟨hall, hpaged⟩
    exact (hapart start q hmru).mp (hoff q hall hpaged (by simpa [Buffer.pinned] using hpinned))

/-- Where the buffer goes in, the pinned buffers leave room for it. -/
theorem Paging.room_pinned (hin : Paging data p (.ok (true, data'))) :
    data.Room data.pinnedBuffers (data.buf p).size := by
  cases hin with
  | inserted hevicted hout hin =>
      have hroom := hin.room
      rw [hout.same.size p] at hroom
      rcases hout with ⟨_, mm, _, rfl, _, hblock⟩
      have hback : data.Room (data.pagedOut _ mm).mruBuffers (data.buf p).size :=
        hroom.of_block fun n => (hblock n).symm
      refine hback.mono fun q hq => ?_
      rcases mem_pinnedBuffers.mp hq with ⟨hmru, hpinned⟩
      rw [pagedOut_mruBuffers, List.mem_filter, decide_eq_true_eq]
      refine ⟨hmru, fun hmem => ?_⟩
      simp [(hevicted q hmem).2] at hpinned

/-- The purge and the candidates are all the unpinned buffers. -/
theorem mem_purge_or_evictable {q : Ptr} (hq : q ∈ data.mruBuffers)
    (hfree : (data.buf q).pinned = false) : q ∈ data.purgeList ++ data.evictable := by
  by_cases hpurge : q ∈ data.purgeList
  · exact List.mem_append_left _ hpurge
  · apply List.mem_append_right
    rw [Data.evictable, List.mem_filter, Data.candidates, List.mem_filter, List.mem_reverse]
    exact ⟨⟨hq, by simpa using hfree⟩, by simpa using hpurge⟩

theorem not_room_pinned {enough : List Ptr → Prop} [DecidablePred enough]
    (henough : ∀ taken, enough taken ↔
      data.Room (data.mruBuffers.filter (· ∉ data.purgeList ++ taken)) size)
    (htake : Eviction.takeUntil enough [] data.evictable = none) :
    ¬ data.Room data.pinnedBuffers size := by
  have hnone := Eviction.takeUntil_none htake
  rw [henough, List.nil_append] at hnone
  intro hroom
  apply hnone
  refine hroom.mono fun q hq => ?_
  rw [List.mem_filter, decide_eq_true_eq] at hq
  apply mem_pinnedBuffers.mpr
  refine ⟨hq.1, ?_⟩
  by_contra hfree
  exact hq.2 (mem_purge_or_evictable hq.1 (by simpa using hfree))

theorem Data.PagesOut.onlyPurged (h : Consistent data l)
    (hout : data.PagesOut data.purgeList data') : OnlyPurged data data' := by
  rcases hout with ⟨_, mm, _, rfl, _, hblock⟩
  have hpaged : ∀ q, ((data.pagedOut data.purgeList mm).buf q).pagedIn = true ↔
      (data.buf q).pagedIn = true ∧ q ∉ data.purgeList := by
    intro q
    simp [Data.pagedOut]
  constructor
  · intro q hq
    rw [hpaged]
    apply and_congr_right
    intro hin
    have hmru := h.mem_mru hq hin
    simp [Data.purgeList, hmru, Buffer.purgeable]
  · exact fun q => (block_ext (hblock _)).1
  · rw [pagedOut_mruBuffers]
    apply List.filter_congr
    intro q hq
    rw [Bool.eq_iff_iff, hpaged, ((h.mru q).mp hq).2]
    simp

open Classical in
theorem Consistent.pageIn_complete (h : Consistent data l) (hp : p ∈ data.allBuffers)
    (habsent : (data.buf p).pagedIn = false) (hsize : 0 < (data.buf p).size)
    (hpool : (data.buf p).size ≤ poolSize) : PageInComplete data p := by
  have hq := h.not_mem_mru habsent
  have hpaging := pageInBuffer_paging h hp hq
  have hcases := pageInBuffer_cases h hp hq hsize.ne' hpool fun _ => Iff.rfl
  have hroom := h.room_pinned_iff hsize.ne'
  unfold PageInComplete
  rw [← hroom]
  generalize data.pageInBuffer p = result at hpaging hcases
  cases hcases with
  | fits _ => exact ⟨true, _, rfl, by simp [hpaging.room_pinned], by simp⟩
  | evicting _ _ _ _ _ => exact ⟨true, _, rfl, by simp [hpaging.room_pinned], by simp⟩
  | failed _ htake hout =>
      have hnone := not_room_pinned (fun _ => Iff.rfl) htake
      have hpurged := hout.onlyPurged h
      exact ⟨false, _, rfl, by simp [hnone], fun _ =>
        ⟨hpurged.pagedIn, hpurged.start, hpurged.mruBuffers⟩⟩

end PageIn

/-- A live buffer that is paged out, of a size that the pool can hold. -/
structure PagedOut (data : Data) (p : Ptr) : Prop where
  live : p ∈ data.allBuffers
  absent : (data.buf p).pagedIn = false
  size : 0 < (data.buf p).size ∧ (data.buf p).size ≤ poolSize

theorem PagedOut.pageIn_complete {data : Data} {p : Ptr} (hout : PagedOut data p)
    (h : ∃ l, Consistent data l) : PageInComplete data p := by
  obtain ⟨l, hcons⟩ := h
  exact hcons.pageIn_complete hout.live hout.absent hout.size.1 hout.size.2

/-- Paging in fails exactly when the pinned buffers leave no room, and then it
has only purged: in every consistent state, so in every state that is reached. -/
theorem pageInBuffer_complete :
    (∀ data p, (∃ l, Consistent data l) → PagedOut data p → PageInComplete data p) ∧
      ∀ data p, Reached data → PagedOut data p → PageInComplete data p :=
  ⟨fun _ _ h hout => hout.pageIn_complete h,
    fun _ _ h hout => hout.pageIn_complete h.consistent⟩

/-- The second buffer may be purged, which leaves the third without room next to the
first. -/
theorem pageInBuffer_complete_refused :
    ∃ data, run [text "[1] @@@ create 1 100000000 x\n", text "[2] @@@ create 2 4096\n",
        text "[3] @@@ create 3 100000000\n"] = .ok data ∧ Reached data ∧
      PageInComplete data 2 ∧
      ∃ data', data' = data.setBuf 1 { data.buf 1 with madv := .dontneed } ∧
        (∃ l, Consistent data' l) ∧ data'.purgeList = [1] ∧ PageInComplete data' 2 := by
  have hlists : (run [text "[1] @@@ create 1 100000000 x\n", text "[2] @@@ create 2 4096\n",
      text "[3] @@@ create 3 100000000\n"]).toOption.map (fun data =>
        (data.allBuffers, data.buf 2,
          (data.setBuf 1 { data.buf 1 with madv := .dontneed }).purgeList)) =
      some ([2, 1, 0], Data.newBuffer 3 100000000 false, [1]) := by
    decide +kernel
  obtain ⟨data, hrun, hlists⟩ := exists_run hlists
  simp only [Prod.mk.injEq] at hlists
  obtain ⟨hall, hthird, hpurge⟩ := hlists
  have hreached : Reached data := .line hrun
  obtain ⟨l, hcons⟩ := hreached.consistent
  have hout : PagedOut data 2 := by
    constructor
    · simp [hall]
    · rw [hthird]
      rfl
    · rw [hthird]
      decide
  have htold : Consistent (data.setBuf 1 { data.buf 1 with madv := .dontneed }) l :=
    hcons.setBuf rfl rfl rfl
  exact ⟨data, hrun, hreached, pageInBuffer_complete.2 data 2 hreached hout, _, rfl, ⟨l, htold⟩,
    hpurge, pageInBuffer_complete.1 _ 2 ⟨l, htold⟩ ⟨hout.live, hout.absent, hout.size⟩⟩

end CmaPool.TestDrm
