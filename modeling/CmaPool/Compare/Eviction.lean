import CmaPool.Python.Insertion
import CmaPool.TestDrm.Pinned

/-! The two pools side by side.

From matching states that are laid out in pages, first fit and best fit succeed
together, so both evictions stop at the same buffer in LRU order; the scan then
spares what the new buffer does not displace. -/

namespace CmaPool.Compare

open Python (Pool Ref Packing)
open TestDrm (Data Ptr Consistent)
open Drm (pageSize FreeAt NodeRef)

/-- The same buffers paged in, `σ` naming the C buffer of each Python one. -/
structure Matches (s : Pool) (data : Data) (σ : Ref → Ptr) : Prop where
  mru : data.mruBuffers = s.mruList.map σ
  offset : ∀ x ∈ s.mruList, (s.heap x).offset = some ↑(data.startOf (σ x))
  size : ∀ x ∈ s.mruList, (s.heap x).size = ↑(data.buf (σ x)).size
  inUse : ∀ x ∈ s.mruList, (s.heap x).inUse = (data.buf (σ x)).inUse
  unmoveable : ∀ x ∈ s.mruList, (s.heap x).unmoveable = (data.buf (σ x)).unmoveable
  madv : ∀ x ∈ s.mruList, (s.heap x).madv = Data.madvStr (data.buf (σ x)).madv
  pageSizes : ∀ x ∈ s.mruList, (data.buf (σ x)).size ≠ 0 ∧ pageSize ∣ (data.buf (σ x)).size
  pageOffsets : ∀ x ∈ s.mruList, pageSize ∣ data.startOf (σ x)

section FirstFit

variable {s : Pool} {size : Int}

/-- First fit on a pool laid out in pages finds a page boundary. -/
theorem firstFit_isSome_iff (h : Packing s)
    (hpages : ∀ x ∈ s.offsetList, (pageSize : Int) ∣ (s.heap x).block.2) :
    (s.firstFit size).isSome = true ↔
      ∃ start : Nat, pageSize ∣ start ∧ start + size ≤ Python.poolSize ∧
        ∀ x ∈ s.offsetList, start + size ≤ (s.heap x).block.1 ∨ (s.heap x).block.2 ≤ start := by
  constructor
  · intro hsome
    rcases Option.isSome_iff_exists.mp hsome with ⟨spot, hspot⟩
    rcases Python.firstFit_some hspot with ⟨front, back, hsplit, _, hstart, _⟩
    rcases Python.firstFit_off h.packed hspot with ⟨hlow, hhigh, hoff⟩
    rw [hstart] at hlow hhigh hoff
    have hpage : (pageSize : Int) ∣ Gaps.lastEnd 0 front := by
      rcases Gaps.lastEnd_mem 0 front with heq | ⟨block, hblock, heq⟩
      · rw [heq]
        exact dvd_zero _
      · have hmem : block ∈ s.blocks := by
          rw [hsplit]
          exact List.mem_append_left _ hblock
        rcases List.mem_map.mp hmem with ⟨x, hx, rfl⟩
        rw [heq]
        exact hpages x hx
    rcases Int.eq_ofNat_of_zero_le hlow with ⟨start, hnat⟩
    rw [hnat] at hhigh hoff hpage
    refine ⟨start, Int.natCast_dvd_natCast.mp hpage, hhigh, fun x hx => ?_⟩
    exact hoff _ (List.mem_map.mpr ⟨x, hx, rfl⟩)
  · intro ⟨start, _, hend, hoff⟩
    have hblocks : ∀ block ∈ s.blocks, start + size ≤ block.1 ∨ block.2 ≤ start := by
      intro block hblock
      rcases List.mem_map.mp hblock with ⟨x, hx, rfl⟩
      exact hoff x hx
    have hlow : (0 : Int) ≤ start := Int.natCast_nonneg start
    rcases Python.firstFit_le_free hlow hend hblocks with ⟨spot, hspot, _⟩
    exact Option.isSome_iff_exists.mpr ⟨spot, hspot⟩

end FirstFit

section Matching

variable {s : Pool} {data : Data} {σ : Ref → Ptr} {l : List NodeRef}

theorem Matches.mem_mru (h : Matches s data σ) {x : Ref} (hx : x ∈ s.mruList) :
    σ x ∈ data.mruBuffers := by
  rw [h.mru]
  exact List.mem_map_of_mem hx

theorem Matches.block (h : Matches s data σ) (hd : Consistent data l) {x : Ref}
    (hx : x ∈ s.mruList) :
    (s.heap x).block =
      (((data.mm.block (.buf (σ x))).1 : Int), ((data.mm.block (.buf (σ x))).2 : Int)) := by
  rw [Python.block_of_offset (h.offset x hx), h.size x hx, Drm.DrmMm.block,
    hd.sizes _ (h.mem_mru hx)]
  simp [Data.startOf]

theorem Matches.injective (h : Matches s data σ) (hd : Consistent data l) {x y : Ref}
    (hx : x ∈ s.mruList) (hy : y ∈ s.mruList) (heq : σ x = σ y) : x = y := by
  have hnodup := hd.mruNodup
  rw [h.mru] at hnodup
  exact List.inj_on_of_nodup_map hnodup hx hy heq

theorem Matches.pinned (h : Matches s data σ) {x : Ref} (hx : x ∈ s.mruList) :
    (s.heap x).pinned = (data.buf (σ x)).pinned := by
  rw [Python.Buffer.pinned, TestDrm.Buffer.pinned, h.inUse x hx, h.unmoveable x hx]

theorem Matches.purgeable (h : Matches s data σ) {x : Ref} (hx : x ∈ s.mruList) :
    (s.heap x).purgeable = (data.buf (σ x)).purgeable := by
  have hmadv := h.madv x hx
  rw [Python.Buffer.purgeable, TestDrm.Buffer.purgeable, hmadv, h.inUse x hx, h.unmoveable x hx]
  cases (data.buf (σ x)).madv <;> simp [Data.madvStr]

theorem Matches.mem_purgeList (h : Matches s data σ) (hs : Packing s)
    {x : Ref} (hx : x ∈ s.mruList) : σ x ∈ data.purgeList ↔ x ∈ s.purgeList := by
  have hoffset : x ∈ s.offsetList := hs.linked.mru.mem_iff.mp hx
  simp [Data.purgeList, Pool.purgeList, hoffset, h.mem_mru hx, h.purgeable hx]

/-- First fit succeeds without `evicted` exactly when the C pool has room then. -/
theorem Matches.fits_iff_room (h : Matches s data σ) (hs : Packing s) (hd : Consistent data l)
    (evicted : List Ref) {qs : List Ptr}
    (hqs : ∀ q, q ∈ qs ↔ ∃ x ∈ s.mruList, x ∉ evicted ∧ σ x = q) (size : Nat) :
    ((s.pageOut evicted).firstFit size).isSome = true ↔ data.Room qs size := by
  have hmem : ∀ x, x ∈ (s.pageOut evicted).offsetList ↔ x ∈ s.mruList ∧ x ∉ evicted := by
    intro x
    rw [hs.linked.mru.mem_iff]
    simp [Pool.pageOut]
  have hblock : ∀ x ∈ s.mruList, x ∉ evicted → ((s.pageOut evicted).heap x).block =
      (((data.mm.block (.buf (σ x))).1 : Int), ((data.mm.block (.buf (σ x))).2 : Int)) := by
    intro x hx hkept
    rw [Python.pageOut_heap_of_not_mem hkept]
    exact h.block hd hx
  have hpages : ∀ x ∈ (s.pageOut evicted).offsetList,
      (pageSize : Int) ∣ ((s.pageOut evicted).heap x).block.2 := by
    intro x hx
    rcases (hmem x).mp hx with ⟨hx, hkept⟩
    rw [hblock x hx hkept, Int.natCast_dvd_natCast, Drm.DrmMm.block,
      hd.sizes _ (h.mem_mru hx)]
    exact Nat.dvd_add (h.pageOffsets x hx) (h.pageSizes x hx).2
  rw [firstFit_isSome_iff (hs.pageOut evicted) hpages]
  have hpool : Python.poolSize = ((Drm.poolSize : Nat) : Int) := rfl
  constructor
  · rintro ⟨start, hpage, hend, hoff⟩
    refine ⟨start, hpage, by omega, fun n hn => ?_⟩
    rcases List.mem_map.mp hn with ⟨q, hq, rfl⟩
    rcases (hqs q).mp hq with ⟨x, hx, hkept, rfl⟩
    have hapart := hoff x ((hmem x).mpr ⟨hx, hkept⟩)
    rw [hblock x hx hkept] at hapart
    simp only at hapart
    omega
  · rintro ⟨start, hpage, hend, hoff⟩
    refine ⟨start, hpage, by omega, fun x hx => ?_⟩
    rcases (hmem x).mp hx with ⟨hx, hkept⟩
    have hapart := hoff (.buf (σ x)) (List.mem_map_of_mem ((hqs _).mpr ⟨x, hx, hkept, rfl⟩))
    rw [hblock x hx hkept]
    simp only
    omega

theorem Matches.evictable (h : Matches s data σ) (hs : Packing s) :
    data.evictable = (s.pageOut s.purgeList).lruCandidates.map σ := by
  rw [Python.lruCandidates_pageOut, Pool.lruCandidates, Data.evictable, Data.candidates, h.mru,
    ← List.map_reverse, List.filter_map, List.filter_map, ← List.filter_reverse,
    List.filter_filter, List.filter_filter]
  congr 1
  apply List.filter_congr
  intro x hx
  have hmru := List.mem_reverse.mp hx
  have hpurge := h.mem_purgeList hs hmru
  simp [h.pinned hmru, hpurge]

theorem mem_mru_of_candidate (hs : Packing s) {x : Ref}
    (hx : x ∈ (s.pageOut s.purgeList).lruCandidates) : x ∈ s.mruList := by
  rw [Python.lruCandidates_pageOut] at hx
  have hold := (Python.mem_lruCandidates hs.linked).mp (List.mem_filter.mp hx).1
  exact hs.linked.mru.mem_iff.mpr hold.1

/-- Both evictions stop at the same buffer. -/
theorem Matches.takeUntil (h : Matches s data σ) (hs : Packing s) (hd : Consistent data l)
    (size : Nat) {enough : List Ptr → Prop} [DecidablePred enough]
    (henough : ∀ taken, enough taken ↔
      data.Room (data.mruBuffers.filter (· ∉ data.purgeList ++ taken)) size) :
    Eviction.takeUntil enough [] data.evictable =
      (Eviction.takeUntil
        (fun front => ((s.pageOut (s.purgeList ++ front)).firstFit size).isSome = true) []
        (s.pageOut s.purgeList).lruCandidates).map (List.map σ) := by
  rw [h.evictable hs, ← List.map_nil]
  apply Eviction.takeUntil_map σ
  intro front hfront
  rw [List.nil_append, henough]
  symm
  apply h.fits_iff_room hs hd
  intro q
  rw [List.mem_filter, decide_eq_true_eq, h.mru, List.mem_map]
  constructor
  · rintro ⟨⟨x, hx, rfl⟩, hout⟩
    refine ⟨x, hx, fun hmem => hout ?_, rfl⟩
    rcases List.mem_append.mp hmem with hmem | hmem
    · exact List.mem_append_left _ ((h.mem_purgeList hs hx).mpr hmem)
    · exact List.mem_append_right _ (List.mem_map_of_mem hmem)
  · rintro ⟨x, hx, hout, rfl⟩
    refine ⟨⟨x, hx, rfl⟩, fun hmem => hout ?_⟩
    rcases List.mem_append.mp hmem with hmem | hmem
    · exact List.mem_append_left _ ((h.mem_purgeList hs hx).mp hmem)
    · rcases List.mem_map.mp hmem with ⟨y, hy, heq⟩
      have hymru := mem_mru_of_candidate hs (hfront.subset hy)
      rw [← h.injective hd hymru hx heq]
      exact List.mem_append_right _ hy

end Matching

section PageIn

variable {s : Pool} {data : Data} {σ : Ref → Ptr} {l : List NodeRef} {r : Ref} {p : Ptr}

/-- The plan of the Python pool once the free space has failed. -/
theorem evictionPlan_full {size : Int} (hfull : ¬ (s.firstFit size).isSome = true) :
    s.evictionPlan size =
      (Eviction.takeUntil
        (fun front => ((s.pageOut (s.purgeList ++ front)).firstFit size).isSome = true) []
        (s.pageOut s.purgeList).lruCandidates).map (s.purgeList ++ ·) := by
  have hsplit := Eviction.takeUntil_append
    (fun evicted => ((s.pageOut evicted).firstFit size).isSome = true) s.purgeList []
    (s.pageOut s.purgeList).lruCandidates
  rw [List.append_nil] at hsplit
  rw [Pool.evictionPlan, if_neg hfull, hsplit]

theorem Matches.fits_iff (h : Matches s data σ) (hs : Packing s) (hd : Consistent data l)
    (size : Nat) : (s.firstFit size).isSome = true ↔ data.Room data.mruBuffers size := by
  have hfits : ((s.pageOut []).firstFit size).isSome = true ↔ data.Room data.mruBuffers size :=
    h.fits_iff_room hs hd [] (by simp [h.mru]) size
  rwa [Python.pageOut_nil] at hfits

open Classical in
/-- The C pool pages a buffer in exactly when the Python pool does, and what it
pages out for that is among what the Python pool pages out. -/
theorem pageInBuffer_subset (hs : Packing s) (hd : ∃ l, Consistent data l) (hm : Matches s data σ)
    (hr : (s.heap r).offset = none) (hp : p ∈ data.allBuffers)
    (habsent : (data.buf p).pagedIn = false) (hsame : (s.heap r).size = ↑(data.buf p).size)
    (hsize : 0 < (data.buf p).size) (hpool : (data.buf p).size ≤ Drm.poolSize) :
    ∃ ret data', data.pageInBuffer p = .ok (ret, data') ∧
      (ret = true ↔ ∃ s', Python.pageInBuffer r s = .ok ⟨⟩ s') ∧
      ∀ s', Python.pageInBuffer r s = .ok ⟨⟩ s' →
        ∀ x ∈ s.mruList, ¬ data'.PagedIn (σ x) → (s'.heap x).offset = none := by
  rcases hd with ⟨l, hd⟩
  have hcases := TestDrm.pageInBuffer_cases hd hp (hd.not_mem_mru habsent) hsize.ne' hpool
    fun _ => Iff.rfl
  have hfits := hm.fits_iff hs hd (data.buf p).size
  have htakes := hm.takeUntil hs hd (data.buf p).size fun _ => Iff.rfl
  have hrun := Python.pageInBuffer_eq hs.linked hr
  rw [hsame] at hrun
  generalize data.pageInBuffer p = result at hcases
  cases hcases with
  | fits hin =>
      have hplan : s.evictionPlan ↑(data.buf p).size = some [] := by
        rw [Pool.evictionPlan, if_pos (hfits.mpr hin.room)]
      rw [hplan] at hrun
      refine ⟨true, _, rfl, ⟨fun _ => ⟨_, hrun⟩, fun _ => rfl⟩, fun _ _ x hx hout => ?_⟩
      rcases hin with ⟨mm, l', rfl, hcons, _, _⟩
      have hmru := List.mem_cons_of_mem p (hm.mem_mru hx)
      exact absurd (hcons.pagedIn_iff.mpr hmru) hout
  | @evicting front chosen data₁ data' hfull htake hchosen hout hin =>
      rw [htakes, Option.map_eq_some_iff] at htake
      rcases htake with ⟨taken, htaken, rfl⟩
      have hplan := evictionPlan_full (fun hsome => hfull (hfits.mp hsome))
      rw [htaken, Option.map_some] at hplan
      rw [hplan] at hrun
      refine ⟨true, _, rfl, ⟨fun _ => ⟨_, hrun⟩, fun _ => rfl⟩, fun s' hs' x hx hgone => ?_⟩
      rw [hrun] at hs'
      cases hs'
      have hxr : x ≠ r := by
        rintro rfl
        have hoffset := hm.offset x hx
        simp [hr] at hoffset
      have hevicted : σ x ∈ data.purgeList ++ chosen := by
        by_contra hkept
        apply hgone
        rcases hout with ⟨_, mm, _, rfl, _, _⟩
        rcases hin with ⟨mm', _, rfl, hcons, _, _⟩
        apply hcons.pagedIn_iff.mpr
        apply List.mem_cons_of_mem
        rw [TestDrm.pagedOut_mruBuffers, List.mem_filter, decide_eq_true_eq]
        exact ⟨hm.mem_mru hx, hkept⟩
      have hpython : x ∈ s.purgeList ++ taken := by
        rcases List.mem_append.mp hevicted with hpurge | hfront
        · exact List.mem_append_left _ ((hm.mem_purgeList hs hx).mp hpurge)
        · rcases List.mem_map.mp (hchosen _ hfront) with ⟨y, hy, heq⟩
          rcases Eviction.takeUntil_some htaken with ⟨cands, hcands, rfl, _⟩
          have hymru := mem_mru_of_candidate hs (hcands.subset hy)
          rw [← hm.injective hd hymru hx heq]
          exact List.mem_append_right _ hy
      rw [Python.placeFirst_offset hxr]
      exact Python.pageOut_offset_of_mem hpython
  | failed hfull htake _ =>
      rw [htakes, Option.map_eq_none_iff] at htake
      have hplan := evictionPlan_full (fun hsome => hfull (hfits.mp hsome))
      rw [htake, Option.map_none] at hplan
      rw [hplan] at hrun
      refine ⟨false, _, rfl, ⟨fun htrue => absurd htrue Bool.false_ne_true, ?_⟩, ?_⟩
      · rintro ⟨s', hs'⟩
        rw [hrun] at hs'
        cases hs'
      · intro s' hs'
        rw [hrun] at hs'
        cases hs'

end PageIn

/-- Buffer 1 of this log comes back: the C pool gives up buffer 3 for it, the
Python pool buffers 2 and 3. -/
theorem pageInBuffer_subset_returning :
    ∃ data, TestDrm.run [TestDrm.text "[1] @@@ create 1 98304000\n",
        TestDrm.text "[2] @@@ create 2 28672000\n",
        TestDrm.text "[3] @@@ create 3 98304000\n"] = .ok data ∧
      ∃ ret data', data.pageInBuffer 0 = .ok (ret, data') ∧
        (ret = true ↔ ∃ s', Python.pageInBuffer 0 (Python.run false
          [⟨1, "create", 1, some ["98304000"]⟩, ⟨2, "create", 2, some ["28672000"]⟩,
            ⟨3, "create", 3, some ["98304000"]⟩]) = .ok ⟨⟩ s') ∧
        ∀ s', Python.pageInBuffer 0 (Python.run false
            [⟨1, "create", 1, some ["98304000"]⟩, ⟨2, "create", 2, some ["28672000"]⟩,
              ⟨3, "create", 3, some ["98304000"]⟩]) = .ok ⟨⟩ s' →
          ∀ x ∈ [2, 1], ¬ data'.PagedIn x → (s'.heap x).offset = none := by
  generalize hhistory : [(⟨1, "create", 1, some ["98304000"]⟩ : Python.Command),
    ⟨2, "create", 2, some ["28672000"]⟩, ⟨3, "create", 3, some ["98304000"]⟩] = history
  have hsizes : ∀ c ∈ history, c.SizeOk := by
    rw [← hhistory]
    decide +kernel
  have hpython : ((Python.run false history).mruList, (Python.run false history).heap 0,
      (Python.run false history).heap 1, (Python.run false history).heap 2) =
      ([2, 1], { Python.Buffer.new 98304000 false with offset := none },
        { Python.Buffer.new 28672000 false with offset := some 98304000 },
        { Python.Buffer.new 98304000 false with offset := some 0 }) := by
    rw [← hhistory]
    decide +kernel
  have hlists : (TestDrm.run [TestDrm.text "[1] @@@ create 1 98304000\n",
      TestDrm.text "[2] @@@ create 2 28672000\n",
      TestDrm.text "[3] @@@ create 3 98304000\n"]).toOption.map
      (fun data => (data.allBuffers, data.mruBuffers, [data.buf 0, data.buf 1, data.buf 2],
        [data.startOf 1, data.startOf 2])) =
      some ([2, 1, 0], [2, 1], [Data.newBuffer 1 98304000 false,
        { Data.newBuffer 2 28672000 false with pagedIn := true },
        { Data.newBuffer 3 98304000 false with pagedIn := true }], [98304000, 0]) := by
    decide +kernel
  rcases TestDrm.exists_run hlists with ⟨data, hrun, hlists⟩
  simp only [Prod.mk.injEq, List.cons.injEq, and_true] at hpython hlists
  rcases hpython with ⟨hmruPy, hbuf0, hbuf1, hbuf2⟩
  rcases hlists with ⟨hall, hmru, ⟨hbuf0', hbuf1', hbuf2'⟩, hstart1, hstart2⟩
  have hmatches : Matches (Python.run false history) data id := by
    constructor
    case pageSizes =>
      have hpages : ∀ size ∈ [98304000, 28672000], size ≠ 0 ∧ pageSize ∣ size := by decide
      simpa [hmruPy, hbuf1', hbuf2', Data.newBuffer] using hpages
    case pageOffsets =>
      have hpages : ∀ start ∈ [0, 98304000], pageSize ∣ start := by decide
      simpa [hmruPy, hstart1, hstart2] using hpages
    all_goals simp [hmruPy, hmru, hbuf1, hbuf2, hbuf1', hbuf2', hstart1, hstart2,
      Python.Buffer.new, Data.newBuffer, TestDrm.Buffer.cleared, Data.madvStr]
  refine ⟨data, hrun, ?_⟩
  rw [← hmruPy]
  apply pageInBuffer_subset (Python.run_packing false history hsizes)
    (TestDrm.run_sound hrun).consistent hmatches
  · simp [hbuf0]
  · simp [hall]
  · simp [hbuf0', Data.newBuffer, TestDrm.Buffer.cleared]
  · simp [hbuf0, hbuf0', Data.newBuffer, Python.Buffer.new]
  · simp [hbuf0', Data.newBuffer]
  · rw [hbuf0']
    decide

end CmaPool.Compare
