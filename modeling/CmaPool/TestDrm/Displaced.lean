import CmaPool.TestDrm.Completeness
import CmaPool.TestDrm.Pinned
import CmaPool.TestDrm.ScanProtocol

/-! The eviction pages out the buffers that the new one displaces, and no others.

The gap that the last of them leaves is on top of the hole stack, and rounding
its bottom gives the start that the scan hit. -/

namespace CmaPool.TestDrm

open Drm

/-- `evicted` are the buffers that a block of `size` bytes at `hit` meets, and `hit`
is a rounded end of nodes that stay. -/
structure Displaces (data : Data) (size hit : Nat) (evicted : List Ptr) : Prop where
  once : evicted.Nodup
  paged : ∀ q ∈ evicted, q ∈ data.mruBuffers
  meets : ∀ q ∈ data.mruBuffers, q ∈ evicted ↔
    (data.mm.block (.buf q)).1 < hit + size ∧ hit < (data.mm.block (.buf q)).2
  free : FreeAt data.mm ((data.mruBuffers.filter (· ∉ evicted)).map NodeRef.buf) size hit
  rounded : ∃ zs, hit = pageUp (Gaps.lastEnd 0 (data.mm.blocks zs)) ∧
    ∀ z ∈ zs, z ∈ (data.mruBuffers.filter (· ∉ evicted)).map NodeRef.buf

section Displace

variable {data data' : Data} {l : List NodeRef} {p : Ptr} {size hit : Nat} {evicted : List Ptr}

/-- A scan that hits chooses the buffers of the roster that the hit meets, and the
other buffers of the pool are off it. -/
theorem Consistent.displaces (h : Consistent data l) {roster : List Ptr} {mm : DrmMm}
    {l' : List NodeRef} (hroster : Roster data.mm l (roster.map NodeRef.buf) mm l')
    (honce : roster.Nodup) (hpaged : ∀ q ∈ roster, q ∈ data.mruBuffers)
    (hhit : Hit data.mm l' size hit) :
    Displaces data size hit (roster.filter fun q => (data.mm.block (.buf q)).2 > hit ∧
      (data.mm.block (.buf q)).1 < hit + size) := by
  have hscanning := hroster.scanning h.valid
  have hpacked : Gaps.Packed 0 (data.mm.blocks l') poolSize := by
    have hplaced := (hscanning.placed h.valid).packed
    rwa [hscanning.blocks] at hplaced
  have hfree := hhit.freeAt hpacked
  have hleft : ∀ q ∈ data.mruBuffers, q ∉ roster → NodeRef.buf q ∈ l' := by
    intro q hq hout
    rw [hscanning.members, List.mem_filter]
    simpa [h.mem_nodes] using ⟨hq, hout⟩
  have hmeets : ∀ q ∈ data.mruBuffers, q ∈ (roster.filter fun q =>
      (data.mm.block (.buf q)).2 > hit ∧ (data.mm.block (.buf q)).1 < hit + size) ↔
      (data.mm.block (.buf q)).1 < hit + size ∧ hit < (data.mm.block (.buf q)).2 := by
    intro q hq
    simp only [List.mem_filter, decide_eq_true_eq]
    constructor
    · exact fun hmem => ⟨hmem.2.2, hmem.2.1⟩
    · intro ⟨hlow, hhigh⟩
      refine ⟨?_, hhigh, hlow⟩
      by_contra hout
      have hoff := hfree.2.2 _ (hleft q hq hout)
      omega
  constructor
  · exact honce.filter _
  · exact fun q hq => hpaged q (List.mem_filter.mp hq).1
  · exact hmeets
  · refine ⟨hfree.1, hfree.2.1, ?_⟩
    intro n hn
    rcases List.mem_map.mp hn with ⟨q, hq, rfl⟩
    rw [List.mem_filter, decide_eq_true_eq] at hq
    have hkept := hq.2
    rw [hmeets q hq.1] at hkept
    omega
  · rcases hhit with ⟨zs, ys, rfl, rfl, _⟩
    refine ⟨zs, rfl, fun z hz => ?_⟩
    rcases hscanning.mem (List.mem_append_left ys hz) with ⟨hmem, hout⟩
    rw [h.nodes.mem_iff] at hmem
    rcases List.mem_map.mp hmem with ⟨q, hq, rfl⟩
    apply List.mem_map_of_mem
    rw [List.mem_filter, decide_eq_true_eq]
    refine ⟨hq, fun hevicted => hout ?_⟩
    exact List.mem_map_of_mem (List.mem_filter.mp hevicted).1

theorem removeBufferFromPool_mm (hrun : data.removeBufferFromPool p = .ok data') :
    data.mm.removeNode (.buf p) = .ok data'.mm := by
  rcases bind_ok hrun with ⟨mm, hmm, hrun⟩
  rcases bind_ok hrun with ⟨_, _, hrun⟩
  cases hrun
  exact hmm

/-- With `front` paged out, the nodes beside `last` are the buffers that stay. -/
theorem Consistent.mem_beside {front : List Ptr} {last : Ptr} {mm : DrmMm} {xs ys : List NodeRef}
    (h : Consistent (data.pagedOut front mm) (xs ++ .buf last :: ys)) (n : NodeRef) :
    n ∈ xs ++ ys ↔ n ∈ (data.mruBuffers.filter (· ∉ front ++ [last])).map NodeRef.buf := by
  have hin : n ∈ xs ++ .buf last :: ys ↔ n = .buf last ∨ n ∈ xs ++ ys := by
    rw [List.perm_middle.mem_iff, List.mem_cons]
  rw [h.nodes.mem_iff] at hin
  constructor
  · intro hn
    have hne : n ≠ .buf last := by
      intro heq
      exact h.valid.ring.nodup_remove.1 (heq ▸ List.mem_cons_of_mem _ hn)
    obtain ⟨q, hq, rfl⟩ := List.mem_map.mp (hin.mpr (Or.inr hn))
    have hqlast : q ≠ last := fun heq => hne (heq ▸ rfl)
    exact List.mem_map_of_mem (by simpa [hqlast] using hq)
  · intro hn
    obtain ⟨q, hq, rfl⟩ := List.mem_map.mp hn
    simp only [List.mem_filter, List.mem_append, List.mem_singleton, not_or,
      decide_eq_true_eq] at hq
    have hkept : NodeRef.buf q ∈ (data.pagedOut front mm).mruBuffers.map NodeRef.buf :=
      List.mem_map_of_mem (by simpa using ⟨hq.1, hq.2.1⟩)
    exact (hin.mp hkept).resolve_left fun heq => hq.2.2 (NodeRef.buf.inj heq)

/-- After the evictions the gap around the hit is the first hole of the stack, and
its bottom rounds to the hit. -/
theorem Displaces.top (hd : Displaces data size hit evicted) (h : Consistent data l)
    (hsome : evicted ≠ []) (hrun : evicted.foldlM Data.removeBufferFromPool data = .ok data') :
    ∃ xs ys, Valid data'.mm (xs ++ ys) ∧
      (∀ n ∈ xs ++ ys, n ∈ data.mruBuffers.map NodeRef.buf) ∧
      data'.mm.holeStack.head? = some (Ring.before .head xs) ∧
      pageUp (Gaps.lastEnd 0 (data'.mm.blocks xs)) = hit ∧
      hit + size ≤ Gaps.firstStart (data'.mm.blocks ys) poolSize := by
  rcases (List.eq_nil_or_concat evicted).resolve_left hsome with ⟨front, last, rfl⟩
  rw [List.concat_eq_append] at *
  have hfront : ∀ q ∈ front, q ∈ data.mruBuffers :=
    fun q hq => hd.paged q (List.mem_append_left _ hq)
  rcases evict_pagesOut h hfront (List.nodup_append.mp hd.once).1 with
    ⟨_, hbefore, _, mm, l₁, rfl, hcons, hblock⟩
  rw [List.foldlM_append, hbefore, ok_bind] at hrun
  rcases bind_ok hrun with ⟨_, hremove, hrun⟩
  cases hrun
  have hlast : last ∉ front := by
    intro hmem
    exact (List.nodup_append.mp hd.once).2.2 last hmem last (by simp) rfl
  have hmru : last ∈ (data.pagedOut front mm).mruBuffers := by
    simpa using ⟨hd.paged last (by simp), hlast⟩
  rcases List.append_of_mem (hcons.mem_nodes.mpr hmru) with ⟨xs, ys, rfl⟩
  have hmm := removeBufferFromPool_mm hremove
  rcases removeNode_valid hcons.valid with ⟨mm', hmm', hvalid, hblock'⟩
  have hsame : data'.mm = mm' := Except.ok.inj (hmm.symm.trans hmm')
  rw [hsame]
  have hblocks : ∀ ns, mm'.blocks ns = data.mm.blocks ns := fun ns =>
    List.map_congr_left fun n _ => (hblock' n).trans (hblock n)
  have hmem := hcons.mem_beside
  have hplace : Gaps.Placement pageUp (Gaps.endAt size) 0
      (data.mm.blocks xs ++ data.mm.blocks ys) poolSize hit := by
    rw [← blocks_append, placement_iff]
    exact hd.free.subset fun n hn => (hmem n).mp hn
  have hpacked : Gaps.Packed 0
      (data.mm.blocks xs ++ data.mm.block (.buf last) :: data.mm.blocks ys) poolSize := by
    have hold := hcons.valid.packed
    have hold' : (data.pagedOut front mm).mm.blocks (xs ++ .buf last :: ys) =
        data.mm.blocks (xs ++ .buf last :: ys) := List.map_congr_left fun n _ => hblock n
    rw [hold', blocks_append] at hold
    exact hold
  have hmeet := (hd.meets last (hd.paged last (by simp))).mp (by simp)
  rcases hd.rounded with ⟨zs, hround, hzs⟩
  refine ⟨xs, ys, hvalid, ?_, ?_, ?_, ?_⟩
  · intro n hn
    exact (List.filter_sublist.map NodeRef.buf).subset ((hmem n).mp hn)
  · exact removeNode_top hcons.valid hmm'
  · rw [hblocks]
    have hstay : ∀ z ∈ data.mm.blocks zs, z ∈ data.mm.blocks xs ++ data.mm.blocks ys := by
      intro z hz
      rw [← blocks_append]
      rcases List.mem_map.mp hz with ⟨n, hn, rfl⟩
      exact List.mem_map_of_mem ((hmem n).mpr (hzs n hn))
    exact hplace.start_eq hpacked hmeet hstay hround
  · rw [hblocks]
    exact (hplace.gap_at hpacked hmeet).2

/-- The eviction insertion takes the first hole of the stack. -/
theorem insertBufferInCmaPool_top {xs ys : List NodeRef} (h : Valid data.mm (xs ++ ys))
    (hp : NodeRef.buf p ∉ NodeRef.head :: (xs ++ ys)) (hsize : (data.buf p).size ≠ 0)
    (htop : data.mm.holeStack.head? = some (Ring.before .head xs))
    (hstart : pageUp (Gaps.lastEnd 0 (data.mm.blocks xs)) = hit)
    (hend : hit + (data.buf p).size ≤ Gaps.firstStart (data.mm.blocks ys) poolSize) :
    ∃ data', data.insertBufferInCmaPool p .evict = .ok (true, data') ∧ data'.startOf p = hit ∧
      (data'.buf p).size = (data.buf p).size := by
  have hfit : Gaps.Fits pageUp (Gaps.endAt (data.buf p).size)
      (Gaps.lastEnd 0 (data.mm.blocks xs), Gaps.firstStart (data.mm.blocks ys) poolSize) := by
    change pageUp (Gaps.lastEnd 0 (data.mm.blocks xs)) + (data.buf p).size ≤ _
    rw [hstart]
    exact hend
  rcases insertNodeGeneric_top h hp hsize hfit htop with ⟨mm', hrun, _, hplaced⟩
  refine ⟨data.pagedIn p mm', ?_, hplaced.start.trans hstart, ?_⟩
  · rw [Data.insertBufferInCmaPool]
    simp only [hrun, ok_bind]
    rfl
  · simp [Data.pagedIn]

theorem pageOutBuffersForInsertion_displaces (h : Consistent data l) (hsize : size ≠ 0)
    (hpool : size ≤ poolSize) (hrun : data.pageOutBuffersForInsertion size = .ok (true, data')) :
    ∃ scan₀ scan roster scanned evicted,
      data.mm.scanInitWithRange size pageSize 0 poolSize = .ok scan₀ ∧
      data.scanForEviction scan₀ [] data.mruBuffers.reverse = .ok (true, scan, roster, scanned) ∧
      Displaces data size scan.hitStart evicted ∧
      evicted.foldlM Data.removeBufferFromPool data = .ok data' := by
  rcases scanInit_ok h.valid hsize hpool with ⟨scan, hinit, hfor, hhit⟩
  have hmem : ∀ p ∈ data.mruBuffers.reverse, NodeRef.buf p ∈ l := by
    intro p hp
    exact h.mem_nodes.mpr (List.mem_reverse.mp hp)
  have hnodup := List.nodup_reverse.mpr h.mruNodup
  have hroster₀ : Roster data.mm l (([] : List Ptr).map NodeRef.buf) data.mm l := .nil
  rcases scanForEvictionTraced_calls data h.valid hfor hsize hroster₀ hmem hnodup [] with
    ⟨adds, mm, l', hroster, hsub, hscan⟩
  rw [List.append_nil] at hroster hscan
  have herase := scanForEvictionTraced_erase data scan [] [] data.mruBuffers.reverse
  rw [Data.pageOutBuffersForInsertion, hinit, ok_bind] at hrun
  rcases hscan with hmiss | ⟨hit, hhit', hfound⟩
  · have hclean := removeFromRoster_eq data h.valid hhit hroster
    rw [hmiss] at herase
    have hscan : data.scanForEviction scan [] data.mruBuffers.reverse =
        .ok (false, scan, (adds.map Prod.fst).reverse, { data with mm }) := herase.symm
    rw [hscan, ok_bind] at hrun
    simp only [Bool.false_eq_true, if_false, hclean, ok_bind] at hrun
    cases hrun
  · rw [hfound] at herase
    have hscan : data.scanForEviction scan [] data.mruBuffers.reverse =
        .ok (true, { scan with hitStart := hit, hitEnd := hit + size },
          (adds.map Prod.fst).reverse, { data with mm }) := herase.symm
    have honce : (adds.map Prod.fst).reverse.Nodup :=
      List.nodup_reverse.mpr ((hnodup.filter _).sublist hsub)
    have hpaged : ∀ q ∈ (adds.map Prod.fst).reverse, q ∈ data.mruBuffers :=
      fun q hq => (mem_candidates (hsub.subset (List.mem_reverse.mp hq))).1
    have hchoose := chooseEvicted_eq data h.valid
      { scan with hitStart := hit, hitEnd := hit + size } hroster
    refine ⟨scan, _, _, _, _, hinit, hscan, h.displaces hroster honce hpaged hhit', ?_⟩
    rw [hscan, ok_bind] at hrun
    simp only [if_true, hchoose, ok_bind] at hrun
    rcases bind_ok hrun with ⟨data₁, hevict, hrun⟩
    cases hrun
    exact hevict

end Displace

/-- `page_in_buffer` of `p` gets past both of its plain insertions to `data'`. -/
def Data.PastInsertions (data : Data) (p : Ptr) (data' : Data) : Prop :=
  ∃ data₁ data₂, data.insertBufferInCmaPool p .best = .ok (false, data₁) ∧
    data₁.userspaceCachePurge = .ok data₂ ∧
    data₂.insertBufferInCmaPool p .best = .ok (false, data')

/-- What is left of `page_in_buffer` once the eviction has made its choice. -/
structure PagedInAtHit (data data₃ data₄ : Data) (p : Ptr) (hit : Nat) (data₅ : Data) : Prop where
  inserted : data₄.insertBufferInCmaPool p .evict = .ok (true, data₅)
  returned : data.pageInBuffer p = .ok (true, data₅)
  start : data₅.startOf p = hit
  displaced : ∀ q ∈ data₃.allBuffers, (data₃.buf q).pagedIn = true →
    ((data₄.buf q).pagedIn = false ↔
      ¬ Disjoint (Set.Ico (data₅.startOf p) (data₅.startOf p + (data₅.buf p).size))
        (nodeRange data₃.mm (.buf q)))

section Past

variable {data data' : Data} {l : List NodeRef} {p : Ptr}

/-- A plain insertion that fails leaves everything as it was and finds no room. -/
theorem insertBufferInCmaPool_failed (h : Consistent data l) (hp : p ∈ data.allBuffers)
    (hout : p ∉ data.mruBuffers) (hsize : (data.buf p).size ≠ 0) {mode : InsertMode}
    (hrun : data.insertBufferInCmaPool p mode = .ok (false, data')) :
    data' = data ∧ ¬ data.Room data.mruBuffers (data.buf p).size := by
  rcases insertBufferInCmaPool_cases h hp hout mode with ⟨_, hin, _⟩ | ⟨hfull, hin⟩
  · rw [hin] at hrun
    cases hrun
  · rw [hin] at hrun
    cases hrun
    exact ⟨rfl, hfull.resolve_left hsize⟩

theorem Data.PastInsertions.state (hpast : data.PastInsertions p data') (h : Consistent data l)
    (hp : p ∈ data.allBuffers) (hout : p ∉ data.mruBuffers) (hsize : (data.buf p).size ≠ 0) :
    ∃ l', Consistent data' l' ∧ data'.allBuffers = data.allBuffers ∧ p ∉ data'.mruBuffers ∧
      (data'.buf p).size = (data.buf p).size ∧
      ¬ data'.Room data'.mruBuffers (data'.buf p).size ∧
      data.pageInBuffer p = data'.evictAndInsert p := by
  rcases hpast with ⟨data₁, data₂, hfirst, hpurge, hsecond⟩
  rcases insertBufferInCmaPool_failed h hp hout hsize hfirst with ⟨rfl, _⟩
  rcases userspaceCachePurge_pagesOut h with ⟨_, hpurge', _, mm, l', rfl, hcons, _⟩
  rw [hpurge'] at hpurge
  cases hpurge
  have habsent : p ∉ (data₁.pagedOut data₁.purgeList mm).mruBuffers := by
    simp [hout]
  rcases insertBufferInCmaPool_failed hcons hp habsent hsize hsecond with ⟨rfl, hfull⟩
  refine ⟨l', hcons, rfl, habsent, rfl, hfull, ?_⟩
  rw [Data.pageInBuffer, hfirst]
  simp only [ok_bind, Bool.false_eq_true, if_false, hpurge', hsecond]

end Past

/-- The eviction insertion succeeds at the start that the scan hit, and exactly the
buffers that lay there have been paged out. -/
theorem pageInBuffer_displaces {data data₃ data₄ : Data} (h : Reached data) {p : Ptr}
    (hp : p ∈ data.allBuffers) (habsent : (data.buf p).pagedIn = false)
    (hsize : 0 < (data.buf p).size) (hpool : (data.buf p).size ≤ poolSize)
    (hpast : data.PastInsertions p data₃)
    (hout : data₃.pageOutBuffersForInsertion (data.buf p).size = .ok (true, data₄)) :
    ∃ scan₀ scan roster scanned data₅,
      data₃.mm.scanInitWithRange (data.buf p).size pageSize 0 poolSize = .ok scan₀ ∧
      data₃.scanForEviction scan₀ [] data₃.mruBuffers.reverse =
        .ok (true, scan, roster, scanned) ∧
      PagedInAtHit data data₃ data₄ p scan.hitStart data₅ := by
  rcases h.consistent with ⟨l₀, hcons₀⟩
  rcases hpast.state hcons₀ hp (hcons₀.not_mem_mru habsent) hsize.ne' with
    ⟨l, hcons, hall, hmru, hsame, hfull, hrest⟩
  rw [← hsame] at hsize hpool hout ⊢
  rcases pageOutBuffersForInsertion_displaces hcons hsize.ne' hpool hout with
    ⟨scan₀, scan, roster, scanned, evicted, hinit, hscan, hd, hevict⟩
  have hsome : evicted ≠ [] := by
    intro hnone
    apply hfull
    refine ⟨scan.hitStart, hd.free.subset fun n hn => ?_⟩
    simpa [hnone] using hn
  rcases evict_pagesOut hcons hd.paged hd.once with ⟨_, hevict', _, mm, _, rfl, hcons₄, _⟩
  rw [hevict'] at hevict
  cases hevict
  rcases hd.top hcons hsome hevict' with ⟨xs, ys, hvalid, hmem, htop, hstart, hend⟩
  have hnew : NodeRef.buf p ∉ NodeRef.head :: (xs ++ ys) := by
    intro hin
    rcases List.mem_cons.mp hin with heq | hin
    · cases heq
    · rcases List.mem_map.mp (hmem _ hin) with ⟨q, hq, heq⟩
      exact hmru (NodeRef.buf.inj heq ▸ hq)
  have hbuf : ((data₃.pagedOut evicted mm).buf p).size = (data₃.buf p).size := rfl
  rw [← hbuf] at hsize hend
  rcases insertBufferInCmaPool_top hvalid hnew hsize.ne' htop hstart hend with
    ⟨data₅, hinsert, hhit, hsize₅⟩
  refine ⟨scan₀, scan, roster, scanned, data₅, hinit, hscan, hinsert, ?_, hhit, ?_⟩
  · rw [hrest, Data.evictAndInsert, hout]
    simp only [ok_bind, if_true, hinsert]
    rfl
  · intro q hq hpaged
    have hmruq := hcons.mem_mru hq hpaged
    have hpos := hcons.valid.sized _ (hcons.mem_nodes.mpr hmruq)
    have hmeets := hd.meets q hmruq
    have hgone : ((data₃.pagedOut evicted mm).buf q).pagedIn = false ↔ q ∈ evicted := by
      simp [Data.pagedOut, hpaged]
    rw [hgone, hmeets, hhit, hsize₅, hbuf, nodeRange, Set.Ico_disjoint_Ico, DrmMm.block]
    rw [hbuf] at hsize
    simp only [min_le_iff, le_max_iff]
    omega

/-- Buffer 1 of this log comes back in the place of the two others. -/
theorem pageInBuffer_displaces_returning :
    ∃ data data₃ data₄ scan data₅, run [text "[1] @@@ create 1 98304000\n",
        text "[2] @@@ create 2 28672000\n", text "[3] @@@ create 3 98304000\n"] = .ok data ∧
      data₃.pageOutBuffersForInsertion 98304000 = .ok (true, data₄) ∧
      PagedInAtHit data data₃ data₄ 0 (DrmMmScan.hitStart scan) data₅ := by
  have hchain : ((do
      let data ← run [text "[1] @@@ create 1 98304000\n", text "[2] @@@ create 2 28672000\n",
        text "[3] @@@ create 3 98304000\n"]
      let inserted ← data.insertBufferInCmaPool 0 .best
      let purged ← inserted.2.userspaceCachePurge
      let again ← purged.insertBufferInCmaPool 0 .best
      let out ← again.2.pageOutBuffersForInsertion 98304000
      return (data.allBuffers, data.buf 0, inserted.1, again.1, out.1)) : Except Bug _) =
      .ok ([2, 1, 0], Data.newBuffer 1 98304000 false, false, false, true) := by
    decide +kernel
  rcases bind_ok hchain with ⟨data, hrun, hchain⟩
  rcases bind_ok hchain with ⟨⟨first, data₁⟩, hfirst, hchain⟩
  rcases bind_ok hchain with ⟨data₂, hpurge, hchain⟩
  rcases bind_ok hchain with ⟨⟨second, data₃⟩, hsecond, hchain⟩
  rcases bind_ok hchain with ⟨⟨found, data₄⟩, hout, hchain⟩
  simp only [pure_eq_ok, Except.ok.injEq, Prod.mk.injEq] at hchain
  rcases hchain with ⟨hall, hbuf, rfl, rfl, rfl⟩
  have hsize : (data.buf 0).size = 98304000 := congrArg Buffer.size hbuf
  have hpast : data.PastInsertions 0 data₃ := ⟨data₁, data₂, hfirst, hpurge, hsecond⟩
  rcases pageInBuffer_displaces (.line hrun) (by simp [hall]) (congrArg Buffer.pagedIn hbuf)
      (by omega) (by rw [hsize]; decide) hpast (by rw [hsize]; exact hout) with
    ⟨_, scan, _, _, data₅, _, _, hhit⟩
  exact ⟨data, data₃, data₄, scan, data₅, hrun, hout, hhit⟩

end CmaPool.TestDrm
