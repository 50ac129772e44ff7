import CmaPool.Python.Layout

/-! First fit and LRU eviction against what they are for.

A start is free when the block there stays in the pool off the given buffers.
First fit takes the least free start, and paging a buffer in evicts no more of
the least recently used buffers than that start needs. -/

namespace CmaPool.Python

/-- `[start, start + size)` lies in the pool, off every buffer of `l`. -/
def Pool.FreeOff (s : Pool) (l : List Ref) (size start : Int) : Prop :=
  0 ≤ start ∧ start + size ≤ poolSize ∧
    ∀ x ∈ l, Disjoint (Set.Ico start (start + size)) (s.heap x).interval

structure Pool.Positive (s : Pool) : Prop where
  packing : Packing s
  sizes : ∀ r ∈ s.live, 0 < (s.heap r).size

/-- What a successful `_insert_buffer` does. -/
structure FirstFit (s : Pool) (r : Ref) (start : Int) (s' : Pool) : Prop where
  least : IsLeast {o | s.FreeOff s.offsetList (s.heap r).size o} start
  offset : (s'.heap r).offset = some start
  others : ∀ x, x ≠ r → s'.heap x = s.heap x
  position : ∃ front back, s.offsetList = front ++ back ∧ s'.offsetList = front ++ r :: back
  sorted : s'.offsetList.Pairwise (s'.Ordered fun _ first second => first ≤ second)

section Free

variable {s : Pool} {size start : Int} {l : List Ref}

theorem disjoint_interval {buf : Buffer} {offset : Int} (hoffset : buf.offset = some offset)
    (hsize : 0 < size) (hbuf : 0 < buf.size) :
    Disjoint (Set.Ico start (start + size)) buf.interval ↔
      start + size ≤ buf.block.1 ∨ buf.block.2 ≤ start := by
  rw [Buffer.interval, hoffset, block_of_offset hoffset, Set.Ico_disjoint_Ico]
  simp only [min_le_iff, le_max_iff]
  omega

theorem Pool.Positive.freeOff_iff (h : s.Positive) (hl : ∀ x ∈ l, x ∈ s.offsetList)
    (hsize : 0 < size) :
    s.FreeOff l size start ↔ 0 ≤ start ∧ start + size ≤ poolSize ∧
      ∀ x ∈ l, start + size ≤ (s.heap x).block.1 ∨ (s.heap x).block.2 ≤ start := by
  have havoid : ∀ x ∈ l, Disjoint (Set.Ico start (start + size)) (s.heap x).interval ↔
      start + size ≤ (s.heap x).block.1 ∨ (s.heap x).block.2 ≤ start := by
    intro x hx
    rcases h.packing.linked.offset_of_mem (hl x hx) with ⟨offset, hoffset⟩
    have hlive := ((h.packing.linked.paged x).mp (hl x hx)).1
    exact disjoint_interval hoffset hsize (h.sizes x hlive)
  rw [Pool.FreeOff, forall₂_congr havoid]

theorem Pool.FreeOff.mono {l' : List Ref} (h : s.FreeOff l size start) (hsub : ∀ x ∈ l', x ∈ l) :
    s.FreeOff l' size start :=
  ⟨h.1, h.2.1, fun x hx => h.2.2 x (hsub x hx)⟩

theorem Pool.Positive.pageOut (h : s.Positive) (evicted : List Ref) :
    (s.pageOut evicted).Positive where
  packing := h.packing.pageOut evicted
  sizes := by
    intro r hr
    rw [pageOut_size]
    exact h.sizes r hr

end Free

section FirstFit

variable {s : Pool} {size : Int}

theorem Pool.Positive.firstFit_le (h : s.Positive) (hsize : 0 < size) {start : Int}
    (hfree : s.FreeOff s.offsetList size start) :
    ∃ spot, s.firstFit size = some spot ∧ spot.1 ≤ start := by
  rcases (h.freeOff_iff (fun _ hx => hx) hsize).mp hfree with ⟨hlow, hhigh, hoff⟩
  apply firstFit_le_free hlow hhigh
  intro block hblock
  rcases List.mem_map.mp hblock with ⟨x, hx, rfl⟩
  exact hoff x hx

theorem Pool.Positive.firstFit_least (h : s.Positive) (hsize : 0 < size) {spot : Int × Nat}
    (hspot : s.firstFit size = some spot) :
    IsLeast {o | s.FreeOff s.offsetList size o} spot.1 := by
  constructor
  · rcases firstFit_off h.packing.packed hspot with ⟨hlow, hhigh, hoff⟩
    apply (h.freeOff_iff (fun _ hx => hx) hsize).mpr
    exact ⟨hlow, hhigh, fun x hx => hoff _ (List.mem_map_of_mem hx)⟩
  · intro start hfree
    rcases h.firstFit_le hsize hfree with ⟨spot', hspot', hle⟩
    have hsame : spot = spot' := Option.some.inj (hspot.symm.trans hspot')
    rw [hsame]
    exact hle

theorem Pool.Positive.firstFit_isSome_iff (h : s.Positive) (hsize : 0 < size) :
    (s.firstFit size).isSome = true ↔ ∃ start, s.FreeOff s.offsetList size start := by
  constructor
  · intro hsome
    rcases Option.isSome_iff_exists.mp hsome with ⟨spot, hspot⟩
    exact ⟨spot.1, (h.firstFit_least hsize hspot).1⟩
  · intro ⟨start, hfree⟩
    rcases h.firstFit_le hsize hfree with ⟨spot, hspot, _⟩
    exact Option.isSome_iff_exists.mpr ⟨spot, hspot⟩

end FirstFit

section Insert

variable {s : Pool} {r : Ref}

theorem place_offsetList (spot : Int × Nat) :
    ∃ front back, s.offsetList = front ++ back ∧
      (s.place r spot).offsetList = front ++ r :: back :=
  ⟨s.offsetList.take spot.2, s.offsetList.drop spot.2, (List.take_append_drop _ _).symm, rfl⟩

theorem Pool.Positive.place (h : s.Positive) (habsent : (s.heap r).offset = none)
    (hsize : 0 < (s.heap r).size) {spot : Int × Nat}
    (hspot : s.firstFit (s.heap r).size = some spot) :
    FirstFit s r spot.1 (s.place r spot) where
  least := h.firstFit_least hsize hspot
  offset := by simp [Pool.place]
  others := fun x hx => Function.update_of_ne hx _ _
  position := place_offsetList spot
  sorted := by
    have hfree := h.packing.linked.absent habsent
    have hold : ∀ x ∈ (s.place r spot).offsetList, x = r ∨ x ∈ s.offsetList := by
      intro x hx
      rcases place_offsetList (s := s) (r := r) spot with ⟨front, back, hsplit, hplaced⟩
      rw [hplaced, List.mem_append, List.mem_cons] at hx
      rw [hsplit, List.mem_append]
      tauto
    apply order_of_ends
    · apply ends_pairwise (place_packed h.packing.packed hfree hsize.le hspot)
      intro x hx
      rcases hold x hx with rfl | hmem
      · simp [Pool.place]
      · have hne : x ≠ r := fun heq => hfree (heq ▸ hmem)
        have hpaged := ((h.packing.linked.paged x).mp hmem).2
        simpa [Pool.place, hne] using hpaged
    · intro x hx
      rw [place_size]
      rcases hold x hx with rfl | hmem
      · exact hsize.le
      · exact h.packing.size_nonneg hmem

end Insert

/-- `_insert_buffer` succeeds exactly when there is a free start, takes the least
one, and otherwise changes nothing. -/
theorem insertBuffer_firstFit {s : Pool} (h : s.Positive) {r : Ref}
    (habsent : (s.heap r).offset = none) (hsize : 0 < (s.heap r).size) :
    ∃ ret s', insertBuffer r s = .ok ret s' ∧
      (ret = true ↔ ∃ start, s.FreeOff s.offsetList (s.heap r).size start) ∧
      (ret = true → ∃ start, FirstFit s r start s') ∧ (ret = false → s' = s) := by
  have hiff := h.firstFit_isSome_iff hsize
  rw [insertBuffer_eq h.packing.linked]
  cases hspot : s.firstFit (s.heap r).size with
  | some spot =>
      rw [hspot, Option.isSome_some] at hiff
      exact ⟨true, _, rfl, hiff, fun _ => ⟨spot.1, h.place habsent hsize hspot⟩, nofun⟩
  | none =>
      rw [hspot, Option.isSome_none] at hiff
      exact ⟨false, s, rfl, hiff, nofun, fun _ => rfl⟩

/-- Buffer 1 of this log, evicted for buffer 3, fits below buffer 2 again. -/
theorem insertBuffer_firstFit_below :
    ∃ s, s = run false [⟨0, "create", 1, some ["90000000"]⟩, ⟨1, "create", 2, some ["40000000"]⟩,
        ⟨2, "create", 3, some ["50000000"]⟩, ⟨3, "destroy", 3, none⟩] ∧
      ∃ ret s', insertBuffer 0 s = .ok ret s' ∧
        (ret = true ↔ ∃ start, s.FreeOff s.offsetList (s.heap 0).size start) ∧
        (ret = true → ∃ start, FirstFit s 0 start s') ∧ (ret = false → s' = s) :=
  ⟨_, rfl, insertBuffer_firstFit ⟨run_packing false _ (by decide +kernel), by decide +kernel⟩
    (by decide +kernel) (by decide +kernel)⟩

/-- The buffers that the purge leaves to evict, least recently used first. -/
def Pool.lruRest (s : Pool) : List Ref :=
  s.mruList.reverse.filter fun r => !(s.heap r).pinned && !(s.heap r).purgeable

/-- The purge and the `k` least recently used. -/
def Pool.oldest (s : Pool) (k : Nat) : List Ref := s.purgeList ++ s.lruRest.take k

/-- Some start is free once the buffers of `evicted` are gone. -/
def Pool.FitsWithout (s : Pool) (evicted : List Ref) (size : Int) : Prop :=
  ∃ start, s.FreeOff (s.offsetList.filter (· ∉ evicted)) size start

/-- What paging in a buffer that does not fit does when it does not raise. -/
structure EvictsLru (s : Pool) (r : Ref) (k : Nat) (s' : Pool) : Prop where
  fewest : IsLeast {k | s.FitsWithout (s.oldest k) (s.heap r).size} k
  evicted : ∀ x ∈ s.offsetList, (s'.heap x).offset = none ↔ x ∈ s.oldest k

structure PagedIn (s : Pool) (r : Ref) (s' : Pool) : Prop where
  paged : r ∈ s'.offsetList ∧ (s'.heap r).offset.isSome = true
  recent : s'.mruList.head? = some r
  fitting : (∃ start, s.FreeOff s.offsetList (s.heap r).size start) →
    ∀ x ∈ s.offsetList, (s'.heap x).offset = (s.heap x).offset
  evicting : (¬ ∃ start, s.FreeOff s.offsetList (s.heap r).size start) → ∃ k, EvictsLru s r k s'

section PageIn

variable {s : Pool} {r : Ref} {size : Int}

theorem lruRest_eq (h : Linked s) : (s.pageOut s.purgeList).lruCandidates = s.lruRest := by
  rw [lruCandidates_pageOut, Pool.lruCandidates, Pool.lruRest, ← List.filter_reverse,
    List.filter_filter]
  apply List.filter_congr
  intro x hx
  have hmem : x ∈ s.offsetList := h.mru.mem_iff.mp (List.mem_reverse.mp hx)
  simp [Pool.purgeList, hmem, Bool.and_comm]

theorem Pool.Positive.fitsWithout_iff (h : s.Positive) (hsize : 0 < size) (evicted : List Ref) :
    ((s.pageOut evicted).firstFit size).isSome = true ↔ s.FitsWithout evicted size := by
  rw [(h.pageOut evicted).firstFit_isSome_iff hsize]
  apply exists_congr
  intro start
  apply and_congr_right
  intro _
  apply and_congr_right
  intro _
  apply forall₂_congr
  intro x hx
  have hkept : x ∉ evicted := by simpa using (List.mem_filter.mp hx).2
  rw [pageOut_heap_of_not_mem hkept]

theorem mem_oldest_unpinned (h : Linked s) {k : Nat} {x : Ref} (hx : x ∈ s.oldest k) :
    x ∈ s.offsetList ∧ (s.heap x).pinned = false := by
  apply mem_evictable h
  rw [Pool.evictable, lruRest_eq h]
  rcases List.mem_append.mp hx with hx | hx
  · exact List.mem_append_left _ hx
  · exact List.mem_append_right _ (List.mem_of_mem_take hx)

theorem mem_evictable_iff (h : Linked s) {x : Ref} (hx : x ∈ s.offsetList) :
    x ∈ s.evictable ↔ (s.heap x).pinned = false := by
  constructor
  · exact fun hmem => (mem_evictable h hmem).2
  · intro hfree
    rw [Pool.evictable, lruRest_eq h, List.mem_append, Pool.purgeList, Pool.lruRest]
    have hmru : x ∈ s.mruList := h.mru.mem_iff.mpr hx
    cases hpurge : (s.heap x).purgeable <;> simp [hx, hmru, hfree, hpurge]

theorem placeFirst_recent {spot : Int × Nat}
    (hspot : s.firstFit (s.heap r).size = some spot) :
    r ∈ (s.placeFirst r).offsetList ∧ ((s.placeFirst r).heap r).offset.isSome = true ∧
      (s.placeFirst r).mruList.head? = some r := by
  simp only [Pool.placeFirst, hspot]
  refine ⟨?_, by simp [Pool.place], rfl⟩
  rcases place_offsetList (s := s) (r := r) spot with ⟨front, back, _, hplaced⟩
  rw [hplaced]
  simp

theorem placeFirst_offset {x : Ref} (hne : x ≠ r) (s : Pool) :
    ((s.placeFirst r).heap x).offset = (s.heap x).offset := by
  rw [Pool.placeFirst]
  split
  · simp [Pool.place, hne]
  · rfl

/-- The state after `evicted` made way for `r`. -/
theorem pagedIn_without (habsent : (s.heap r).offset = none) (h : Linked s)
    {evicted : List Ref} {x : Ref} (hx : x ∈ s.offsetList) :
    (((s.pageOut evicted).placeFirst r).heap x).offset = none ↔ x ∈ evicted := by
  have hne : x ≠ r := fun heq => h.absent habsent (heq ▸ hx)
  rw [placeFirst_offset hne]
  by_cases hmem : x ∈ evicted
  · exact iff_of_true (pageOut_offset_of_mem hmem) hmem
  · rw [pageOut_heap_of_not_mem hmem]
    rcases h.offset_of_mem hx with ⟨offset, hoffset⟩
    simp [hoffset, hmem]

theorem pageOut_recent {evicted : List Ref}
    (hfits : ((s.pageOut evicted).firstFit (s.heap r).size).isSome = true) :
    r ∈ ((s.pageOut evicted).placeFirst r).offsetList ∧
      (((s.pageOut evicted).placeFirst r).heap r).offset.isSome = true ∧
      ((s.pageOut evicted).placeFirst r).mruList.head? = some r := by
  obtain ⟨spot, hspot⟩ := Option.isSome_iff_exists.mp hfits
  exact placeFirst_recent (by rw [pageOut_size]; exact hspot)

/-- The pinned buffers are among those that stay. -/
theorem Pool.FitsWithout.offPinned {evicted : List Ref} (h : s.FitsWithout evicted size)
    (hevicted : ∀ x ∈ evicted, (s.heap x).pinned = false) :
    ∃ start, s.FreeOff (s.offsetList.filter fun x => (s.heap x).pinned) size start := by
  obtain ⟨start, hfree⟩ := h
  refine ⟨start, hfree.mono fun x hx => ?_⟩
  obtain ⟨hmem, hheld⟩ := List.mem_filter.mp hx
  apply List.mem_filter.mpr
  refine ⟨hmem, decide_eq_true fun hgone => ?_⟩
  simp [hevicted x hgone] at hheld

/-- Without every buffer that may be evicted only the pinned ones stay. -/
theorem fitsWithout_of_offPinned (h : Linked s) {start : Int}
    (hfree : s.FreeOff (s.offsetList.filter fun x => (s.heap x).pinned) size start) :
    s.FitsWithout (s.purgeList ++ s.lruRest) size := by
  refine ⟨start, hfree.mono fun x hx => ?_⟩
  obtain ⟨hmem, hkept⟩ := List.mem_filter.mp hx
  apply List.mem_filter.mpr
  refine ⟨hmem, ?_⟩
  by_contra hheld
  have hgone := (mem_evictable_iff h hmem).mpr (by simpa using hheld)
  rw [Pool.evictable, lruRest_eq h] at hgone
  exact absurd hgone (by simpa using hkept)

end PageIn

/-- Paging in raises exactly when the pinned buffers leave no start free, and
otherwise evicts the purgeable and the fewest least recently used buffers. -/
theorem pageInBuffer_lru {s : Pool} (h : s.Positive) {r : Ref} (hr : r ∈ s.live)
    (habsent : (s.heap r).offset = none) :
    ((∃ s', pageInBuffer r s = .ok ⟨⟩ s') ∨
      ∃ s', pageInBuffer r s = .error (.noSpace (s.heap r).size) s') ∧
    ((∃ e s', pageInBuffer r s = .error e s') ↔
      ¬ ∃ start, s.FreeOff (s.offsetList.filter fun x => (s.heap x).pinned)
        (s.heap r).size start) ∧
    ∀ s', pageInBuffer r s = .ok ⟨⟩ s' → PagedIn s r s' := by
  have hlinked := h.packing.linked
  have hsize := h.sizes r hr
  have hfits := h.firstFit_isSome_iff hsize
  have hwithout := h.fitsWithout_iff hsize
  rw [pageInBuffer_eq hlinked habsent, Pool.evictionPlan]
  by_cases hnow : (s.firstFit (s.heap r).size).isSome = true
  · rw [if_pos hnow]
    have hnow' : ((s.pageOut []).firstFit (s.heap r).size).isSome = true := by
      rw [pageOut_nil]
      exact hnow
    refine ⟨Or.inl ⟨_, rfl⟩, iff_of_false (by rintro ⟨_, _, ⟨⟩⟩) ?_, fun s' hs' => ?_⟩
    · exact not_not.mpr (((hwithout []).mp hnow').offPinned (by simp))
    · cases hs'
      obtain ⟨hmem, hsome, hhead⟩ := pageOut_recent hnow'
      refine ⟨⟨hmem, hsome⟩, hhead, fun _ x hx => ?_, fun hfull => absurd (hfits.mp hnow) hfull⟩
      have hne : x ≠ r := fun heq => hlinked.absent habsent (heq ▸ hx)
      rw [placeFirst_offset hne, pageOut_nil]
  · rw [if_neg hnow, lruRest_eq hlinked]
    have hfull : ¬ ∃ start, s.FreeOff s.offsetList (s.heap r).size start :=
      fun hfree => hnow (hfits.mpr hfree)
    cases hplan : Eviction.takeUntil
        (fun evicted => ((s.pageOut evicted).firstFit (s.heap r).size).isSome = true)
        s.purgeList s.lruRest with
    | some evicted =>
        rcases Eviction.takeUntil_least hplan with ⟨k, rfl, hleast⟩
        have henough : s.FitsWithout (s.oldest k) (s.heap r).size := (hwithout _).mp hleast.1
        refine ⟨Or.inl ⟨_, rfl⟩, iff_of_false (by rintro ⟨_, _, ⟨⟩⟩) ?_, fun s' hs' => ?_⟩
        · exact not_not.mpr (henough.offPinned fun x hx => (mem_oldest_unpinned hlinked hx).2)
        · cases hs'
          obtain ⟨hmem, hsome, hhead⟩ := pageOut_recent hleast.1
          refine ⟨⟨hmem, hsome⟩, hhead, fun hfree => absurd hfree hfull, fun _ => ⟨k, ?_, ?_⟩⟩
          · simpa only [hwithout, Pool.oldest] using hleast
          · exact fun x hx => pagedIn_without habsent hlinked hx
    | none =>
        refine ⟨Or.inr ⟨_, rfl⟩, iff_of_true ⟨_, _, rfl⟩ ?_, by rintro s' ⟨⟩⟩
        rintro ⟨start, hfree⟩
        apply Eviction.takeUntil_none hplan
        exact (hwithout _).mpr (fitsWithout_of_offPinned hlinked hfree)

/-- Buffer 1 of this log comes back: the two others make way for it. -/
theorem pageInBuffer_lru_returning :
    ∃ s, s = run false [⟨0, "create", 1, some ["98304000"]⟩, ⟨1, "create", 2, some ["28672000"]⟩,
        ⟨2, "create", 3, some ["98304000"]⟩] ∧
      ((∃ s', pageInBuffer 0 s = .ok ⟨⟩ s') ∨
        ∃ s', pageInBuffer 0 s = .error (.noSpace (s.heap 0).size) s') ∧
      ((∃ e s', pageInBuffer 0 s = .error e s') ↔
        ¬ ∃ start, s.FreeOff (s.offsetList.filter fun x => (s.heap x).pinned)
          (s.heap 0).size start) ∧
      ∀ s', pageInBuffer 0 s = .ok ⟨⟩ s' → PagedIn s 0 s' :=
  ⟨_, rfl, pageInBuffer_lru ⟨run_packing false _ (by decide +kernel), by decide +kernel⟩
    (by decide +kernel) (by decide +kernel)⟩

end CmaPool.Python
