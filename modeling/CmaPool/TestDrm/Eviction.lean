import CmaPool.Lib.Eviction
import CmaPool.TestDrm.Consistency

/-! `page_out_buffers_for_insertion`.

The scan takes the unpinned buffers, the least recently used first, until what
is left of the pool has room. The clean-up brings the allocator back, whichever
of them are evicted then. -/

namespace CmaPool.TestDrm

open Drm

/-- What the eviction may take, the least recently used first. -/
def Data.candidates (data : Data) : List Ptr :=
  data.mruBuffers.reverse.filter fun p => !(data.buf p).pinned

section Loops

variable (data : Data) {mm₀ mm : DrmMm} {l₀ l : List NodeRef} {added lru : List Ptr}
  {scan : DrmMmScan} {size : Nat} {enough : List Ptr → Prop}

theorem mem_ring_left {n : NodeRef} {p : Ptr} {mm' : DrmMm} {l' : List NodeRef}
    (h : Scanning mm₀ l₀ (added.map NodeRef.buf) mm l)
    (h' : Scanning mm₀ l₀ ((p :: added).map NodeRef.buf) mm' l')
    (hn : n ∈ l) (hne : n ≠ .buf p) : n ∈ l' := by
  rcases h.mem hn with ⟨hmem, hout⟩
  rw [h'.members, List.mem_filter]
  simpa [hmem, hne] using hout

/-- The buffers of the roster make room if the ring that is left has it. -/
theorem enough_iff_hasRoom
    (henough : ∀ taken, enough taken ↔
      HasRoom mm₀ (l₀.filter (· ∉ taken.map NodeRef.buf)) size)
    (h : Scanning mm₀ l₀ (added.map NodeRef.buf) mm l) :
    enough added.reverse ↔ HasRoom mm₀ l size := by
  have hsame : l₀.filter (· ∉ added.reverse.map NodeRef.buf) = l := by
    rw [h.members]
    apply List.filter_congr
    intro n _
    simp
  rw [henough, hsame]

variable [DecidablePred enough]

theorem scanForEviction_cases (h₀ : Valid mm₀ l₀) (hscan : ScanFor scan size) (hsize : size ≠ 0)
    (henough : ∀ taken, enough taken ↔
      HasRoom mm₀ (l₀.filter (· ∉ taken.map NodeRef.buf)) size)
    (hroster : Roster mm₀ l₀ (added.map NodeRef.buf) mm l) (hfull : ¬ HasRoom mm₀ l size)
    (hmem : ∀ p ∈ lru, NodeRef.buf p ∈ l) (hnodup : lru.Nodup) :
    ∃ added' mm' l', Roster mm₀ l₀ (added'.map NodeRef.buf) mm' l' ∧
      (Eviction.takeUntil enough added.reverse (lru.filter fun p => !(data.buf p).pinned) = none ∧
        { data with mm }.scanForEviction scan added lru =
          .ok (false, scan, added', { data with mm := mm' }) ∨
      ∃ hit,
        Eviction.takeUntil enough added.reverse (lru.filter fun p => !(data.buf p).pinned) =
          some added'.reverse ∧
        FreeAt mm₀ l' size hit ∧
        { data with mm }.scanForEviction scan added lru =
          .ok (true, { scan with hitStart := hit, hitEnd := hit + size }, added',
            { data with mm := mm' })) := by
  induction lru generalizing added mm l with
  | nil =>
      refine ⟨added, mm, l, hroster, Or.inl ⟨?_, rfl⟩⟩
      apply Eviction.takeUntil_nil
      rwa [enough_iff_hasRoom henough (hroster.scanning h₀)]
  | cons p lru ih =>
      rcases List.nodup_cons.mp hnodup with ⟨hp, hlru⟩
      have hrest : ∀ q ∈ lru, NodeRef.buf q ∈ l :=
        fun q hq => hmem q (List.mem_cons_of_mem _ hq)
      cases hpinned : (data.buf p).pinned with
      | true =>
          have hskip : ({ data with mm } : Data).scanForEviction scan added (p :: lru) =
              { data with mm }.scanForEviction scan added lru := by
            have htest : ((data.buf p).inUse || (data.buf p).unmoveable) = true := hpinned
            simp only [Data.scanForEviction, htest, if_true]
          rw [List.filter_cons_of_neg (by simp [hpinned]), hskip]
          exact ih hroster hfull hrest hlru
      | false =>
          have htest : ¬ ((data.buf p).inUse || (data.buf p).unmoveable) = true := by
            rw [Buffer.pinned] at hpinned
            simp [hpinned]
          have hnow : ¬ enough added.reverse := by
            rwa [enough_iff_hasRoom henough (hroster.scanning h₀)]
          rw [List.filter_cons_of_pos (by simp [hpinned]), Eviction.takeUntil_cons hnow,
            ← List.reverse_cons]
          rcases hroster.add h₀ (hmem p List.mem_cons_self) hscan hsize hfull with
            ⟨mm', l', hroster', hadded⟩
          rw [← List.map_cons] at hroster'
          rcases hadded with ⟨hfull', hadd⟩ | ⟨hit, hroom, hplace, hadd⟩
          · have hstep : ({ data with mm } : Data).scanForEviction scan added (p :: lru) =
                { data with mm := mm' }.scanForEviction scan (p :: added) lru := by
              simp [Data.scanForEviction, htest, hadd]
            rw [hstep]
            apply ih hroster' hfull' _ hlru
            intro q hq
            apply mem_ring_left (hroster.scanning h₀) (hroster'.scanning h₀) (hrest q hq)
            intro heq
            cases heq
            exact hp hq
          · refine ⟨p :: added, mm', l', hroster', Or.inr ⟨hit, ?_, placement_iff.mp hplace, ?_⟩⟩
            · apply Eviction.takeUntil_of_enough
              exact (enough_iff_hasRoom henough (hroster'.scanning h₀)).mpr hroom
            · simp [Data.scanForEviction, htest, hadd]

/-- With no hit there is no block that the clean-up reports. -/
theorem removeFromRoster_eq (h₀ : Valid mm₀ l₀) (hhit : scan.hitEnd = 0)
    (hroster : Roster mm₀ l₀ (added.map NodeRef.buf) mm l) :
    { data with mm }.removeFromRoster scan added = .ok { data with mm := mm₀ } := by
  induction added generalizing mm l with
  | nil =>
      cases hroster
      rfl
  | cons p added ih =>
      rcases hroster.remove h₀ scan with ⟨mm', l', hroster', hremove⟩
      have hkept : decide ((mm₀.block (.buf p)).2 > scan.hitStart ∧
          (mm₀.block (.buf p)).1 < scan.hitEnd) = false := by
        simp [hhit]
      rw [hkept] at hremove
      simp only [Data.removeFromRoster, hremove, ok_bind, bugOn_of_not Bool.false_ne_true]
      exact ih hroster'

theorem chooseEvicted_eq (h₀ : Valid mm₀ l₀) (scan : DrmMmScan)
    (hroster : Roster mm₀ l₀ (added.map NodeRef.buf) mm l) :
    { data with mm }.chooseEvicted scan added =
      .ok (added.filter fun p => (mm₀.block (.buf p)).2 > scan.hitStart ∧
        (mm₀.block (.buf p)).1 < scan.hitEnd, { data with mm := mm₀ }) := by
  induction added generalizing mm l with
  | nil =>
      cases hroster
      rfl
  | cons p added ih =>
      rcases hroster.remove h₀ scan with ⟨mm', l', hroster', hremove⟩
      simp only [Data.chooseEvicted, hremove, ok_bind, ih hroster', pure_eq_ok, List.filter_cons]

end Loops

section PageOut

variable {data : Data} {l : List NodeRef} {size : Nat}

theorem mem_candidates {p : Ptr} (hp : p ∈ data.candidates) :
    p ∈ data.mruBuffers ∧ (data.buf p).pinned = false := by
  rcases List.mem_filter.mp hp with ⟨hmem, hfree⟩
  exact ⟨List.mem_reverse.mp hmem, by simpa using hfree⟩

/-- The room a set of buffers leaves, on the node list. -/
theorem Consistent.hasRoom_filter (h : Consistent data l) (taken : List Ptr) :
    HasRoom data.mm (l.filter (· ∉ taken.map NodeRef.buf)) size ↔
      data.Room (data.mruBuffers.filter (· ∉ taken)) size := by
  have hpacked : Gaps.Packed 0 (data.mm.blocks (l.filter (· ∉ taken.map NodeRef.buf))) poolSize :=
    h.valid.packed.sublist (List.filter_sublist.map _)
  have hmem : ∀ n, n ∈ l.filter (· ∉ taken.map NodeRef.buf) ↔
      n ∈ (data.mruBuffers.filter (· ∉ taken)).map NodeRef.buf := by
    intro n
    simp only [List.mem_filter, h.nodes.mem_iff, List.mem_map, decide_eq_true_eq]
    constructor
    · rintro ⟨⟨p, hp, rfl⟩, hout⟩
      exact ⟨p, ⟨hp, fun htaken => hout ⟨p, htaken, rfl⟩⟩, rfl⟩
    · rintro ⟨p, ⟨hp, hout⟩, rfl⟩
      refine ⟨⟨p, hp, rfl⟩, ?_⟩
      intro ⟨q, hq, heq⟩
      exact hout (NodeRef.buf.inj heq ▸ hq)
  rw [hasRoom_iff_freeAt hpacked]
  constructor
  · intro ⟨start, hfree⟩
    exact ⟨start, hfree.subset fun n hn => (hmem n).mpr hn⟩
  · intro ⟨start, hfree⟩
    exact ⟨start, hfree.subset fun n hn => (hmem n).mp hn⟩

/-- The eviction pages out some of the least recently used buffers up to the
one that makes room, or leaves everything as it was. -/
theorem pageOutBuffersForInsertion_cases (h : Consistent data l) (hsize : size ≠ 0)
    (hpool : size ≤ poolSize) (hfull : ¬ data.Room data.mruBuffers size)
    {enough : List Ptr → Prop} [DecidablePred enough]
    (henough : ∀ taken, enough taken ↔ data.Room (data.mruBuffers.filter (· ∉ taken)) size) :
    Eviction.takeUntil enough [] data.candidates = none ∧
        data.pageOutBuffersForInsertion size = .ok (false, data) ∨
      ∃ front evicted data', Eviction.takeUntil enough [] data.candidates = some front ∧
        (∀ p ∈ evicted, p ∈ front) ∧
        data.pageOutBuffersForInsertion size = .ok (true, data') ∧
        evicted.foldlM Data.removeBufferFromPool data = .ok data' ∧
        data.PagesOut evicted data' ∧ data'.Room data'.mruBuffers size := by
  rcases scanInit_ok h.valid hsize hpool with ⟨scan, hinit, hfor, hhit⟩
  have hmem : ∀ p ∈ data.mruBuffers.reverse, NodeRef.buf p ∈ l := by
    intro p hp
    exact h.mem_nodes.mpr (List.mem_reverse.mp hp)
  have hnodup := List.nodup_reverse.mpr h.mruNodup
  rw [← h.hasRoom_iff] at hfull
  have hroster₀ : Roster data.mm l (([] : List Ptr).map NodeRef.buf) data.mm l := .nil
  rcases scanForEviction_cases data h.valid hfor hsize
      (fun taken => (henough taken).trans (h.hasRoom_filter taken).symm) hroster₀ hfull hmem
      hnodup with
    ⟨added, mm, l', hroster, ⟨htake, hrun⟩ | ⟨hit, htake, hfree, hrun⟩⟩
  · left
    refine ⟨htake, ?_⟩
    have hclean := removeFromRoster_eq data h.valid hhit hroster
    simp only [Data.pageOutBuffersForInsertion, hinit, ok_bind, hrun, hclean]
    rfl
  · right
    rcases Eviction.takeUntil_some htake with ⟨front, hfront, hsame, _⟩
    rw [List.reverse_nil, List.nil_append] at hsame
    have hadded : ∀ p ∈ added, p ∈ front := by
      intro p hp
      rw [← hsame]
      exact List.mem_reverse.mpr hp
    have honce : added.Nodup := by
      rw [← List.nodup_reverse, hsame]
      exact (hnodup.filter _).sublist hfront.sublist
    have hchoose := chooseEvicted_eq data h.valid
      { scan with hitStart := hit, hitEnd := hit + size } hroster
    generalize hevicted : (added.filter fun p => (data.mm.block (.buf p)).2 > hit ∧
      (data.mm.block (.buf p)).1 < hit + size) = evicted at hchoose
    have hsub : ∀ p ∈ evicted, p ∈ added := by
      intro p hp
      rw [← hevicted] at hp
      exact (List.mem_filter.mp hp).1
    have hpaged : ∀ p ∈ evicted, p ∈ data.mruBuffers :=
      fun p hp => (mem_candidates (hfront.subset (hadded p (hsub p hp)))).1
    have hevictedNodup : evicted.Nodup := by
      rw [← hevicted]
      exact honce.filter _
    rcases evict_pagesOut h hpaged hevictedNodup with ⟨data', hevict, hout⟩
    refine ⟨front, evicted, data', ?_, fun p hp => hadded p (hsub p hp), ?_, hevict, hout, hit, ?_⟩
    · rw [← hsame]
      exact htake
    · simp only [Data.pageOutBuffersForInsertion, hinit, ok_bind, hrun, if_true, hchoose, hevict]
      rfl
    · rcases hout with ⟨_, mm', _, rfl, _, hblock⟩
      have hoff : FreeAt data.mm ((data.mruBuffers.filter (· ∉ evicted)).map NodeRef.buf) size
          hit := by
        refine ⟨hfree.1, hfree.2.1, ?_⟩
        intro n hn
        rcases List.mem_map.mp hn with ⟨q, hq, rfl⟩
        rw [List.mem_filter, decide_eq_true_eq] at hq
        by_cases hroll : q ∈ added
        · have hmiss := hq.2
          rw [← hevicted, List.mem_filter, decide_eq_true_eq] at hmiss
          have hapart : ¬ ((data.mm.block (.buf q)).2 > hit ∧
              (data.mm.block (.buf q)).1 < hit + size) := fun hmeet => hmiss ⟨hroll, hmeet⟩
          omega
        · apply hfree.2.2
          rw [(hroster.scanning h.valid).members, List.mem_filter, h.mem_nodes]
          simpa using ⟨hq.1, hroll⟩
      exact hoff.of_block fun n _ => hblock n

end PageOut

end CmaPool.TestDrm
