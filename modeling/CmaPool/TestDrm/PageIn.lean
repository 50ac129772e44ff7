import CmaPool.TestDrm.Eviction

/-! `page_in_buffer`: the free space, then the purge, then the eviction. -/

namespace CmaPool.TestDrm

open Drm

/-- The candidates that the purge leaves. -/
def Data.evictable (data : Data) : List Ptr := data.candidates.filter (· ∉ data.purgeList)

/-- How paging in `p` ends, with the eviction decided by `enough`. -/
inductive PageIn (enough : List Ptr → Prop) [DecidablePred enough] (data : Data) (p : Ptr) :
    Except Bug (Bool × Data) → Prop
  | fits {data' : Data} (hin : data.PagesIn p data') : PageIn enough data p (.ok (true, data'))
  | evicting {front chosen : List Ptr} {data₁ data' : Data}
      (hfull : ¬ data.Room data.mruBuffers (data.buf p).size)
      (htake : Eviction.takeUntil enough [] data.evictable = some front)
      (hchosen : ∀ q ∈ chosen, q ∈ front)
      (hout : data.PagesOut (data.purgeList ++ chosen) data₁) (hin : data₁.PagesIn p data') :
      PageIn enough data p (.ok (true, data'))
  | failed {data₁ : Data}
      (hfull : ¬ data.Room data.mruBuffers (data.buf p).size)
      (htake : Eviction.takeUntil enough [] data.evictable = none)
      (hout : data.PagesOut data.purgeList data₁) :
      PageIn enough data p (.ok (false, data₁.eprint (Data.noInsertionPoint (data.buf p).size)))

/-- What `page_in_buffer` can do, for the buffers it does not page in. -/
inductive Paging (data : Data) (p : Ptr) : Except Bug (Bool × Data) → Prop
  | inserted {evicted : List Ptr} {data₁ data' : Data}
      (hevicted : ∀ q ∈ evicted, q ∈ data.mruBuffers ∧ (data.buf q).pinned = false)
      (hout : data.PagesOut evicted data₁) (hin : data₁.PagesIn p data') :
      Paging data p (.ok (true, data'))
  | refused {evicted : List Ptr} {data₁ : Data}
      (hsize : (data.buf p).size ≠ 0 ∧ (data.buf p).size ≤ poolSize)
      (hevicted : ∀ q ∈ evicted, q ∈ data.mruBuffers ∧ (data.buf q).pinned = false)
      (hout : data.PagesOut evicted data₁) (message : Bytes) :
      Paging data p (.ok (false, data₁.eprint message))
  | aborted (hsize : (data.buf p).size = 0 ∨ (data.buf p).size > poolSize) :
      Paging data p (.error (.assertion .scanInit))

section PageIn

variable {data : Data} {l : List NodeRef} {p : Ptr}

theorem pagedOut_candidates (mm : DrmMm) :
    (data.pagedOut data.purgeList mm).candidates = data.evictable := by
  rw [Data.evictable, Data.candidates, Data.candidates, List.filter_filter, pagedOut_mruBuffers,
    ← List.filter_reverse, List.filter_filter]
  apply List.filter_congr
  intro q _
  exact Bool.and_comm _ _

theorem pagedOut_room {evicted : List Ptr} {mm : DrmMm} {size : Nat}
    (hblock : ∀ n, mm.block n = data.mm.block n) (taken : List Ptr) :
    (data.pagedOut evicted mm).Room
        ((data.pagedOut evicted mm).mruBuffers.filter (· ∉ taken)) size ↔
      data.Room (data.mruBuffers.filter (· ∉ evicted ++ taken)) size := by
  have hsame : (data.pagedOut evicted mm).mruBuffers.filter (· ∉ taken) =
      data.mruBuffers.filter (· ∉ evicted ++ taken) := by
    rw [pagedOut_mruBuffers, List.filter_filter]
    apply List.filter_congr
    intro q _
    simp [Bool.and_comm]
  rw [hsame]
  constructor
  · intro hroom
    exact hroom.of_block fun n => (hblock n).symm
  · intro hroom
    exact hroom.of_block hblock

theorem Data.PagesIn.room {data' : Data} (h : data.PagesIn p data') :
    data.Room data.mruBuffers (data.buf p).size := by
  rcases h with ⟨_, _, _, _, hfree, _⟩
  exact ⟨_, hfree⟩

theorem Data.PagesIn.size_pos {data' : Data} (h : data.PagesIn p data') :
    0 < (data.buf p).size := by
  rcases h with ⟨mm, l', _, hcons, _, _⟩
  have hmem : p ∈ (data.pagedIn p mm).mruBuffers := List.mem_cons_self
  have hsize := hcons.sizes p hmem
  have hpos := hcons.valid.sized _ (hcons.mem_nodes.mpr hmem)
  simp only [Data.pagedIn, Function.update_self] at hsize hpos
  omega

theorem Data.PagesIn.size_le {data' : Data} (h : data.PagesIn p data') :
    (data.buf p).size ≤ poolSize := by
  rcases h with ⟨_, _, _, _, hfree, _⟩
  have hend := hfree.2.1
  omega

theorem Data.PagesOut.insert_ok {evicted : List Ptr} {data₁ : Data}
    (hout : data.PagesOut evicted data₁) (hp : p ∈ data.allBuffers) (hq : p ∉ data.mruBuffers)
    (hsize : (data.buf p).size ≠ 0) (hroom : data₁.Room data₁.mruBuffers (data.buf p).size)
    (mode : InsertMode) :
    ∃ data', data₁.insertBufferInCmaPool p mode = .ok (true, data') ∧ data₁.PagesIn p data' := by
  rcases hout with ⟨_, mm, l', rfl, hcons, _⟩
  have habsent : p ∉ (data.pagedOut evicted mm).mruBuffers := by
    simp [hq]
  rcases insertBufferInCmaPool_cases hcons hp habsent mode with hin | ⟨hbad, _⟩
  · exact hin
  · rcases hbad with hzero | hfull
    · exact absurd hzero hsize
    · exact absurd hroom hfull

theorem pageInBuffer_cases (h : Consistent data l) (hp : p ∈ data.allBuffers)
    (hq : p ∉ data.mruBuffers) (hsize : (data.buf p).size ≠ 0)
    (hpool : (data.buf p).size ≤ poolSize)
    {enough : List Ptr → Prop} [DecidablePred enough]
    (henough : ∀ taken, enough taken ↔
      data.Room (data.mruBuffers.filter (· ∉ data.purgeList ++ taken)) (data.buf p).size) :
    PageIn enough data p (data.pageInBuffer p) := by
  rw [Data.pageInBuffer]
  rcases insertBufferInCmaPool_cases h hp hq .best with ⟨data', hrun, hin⟩ | ⟨hbad, hrun⟩
  · rw [hrun]
    exact .fits hin
  have hfull : ¬ data.Room data.mruBuffers (data.buf p).size := hbad.resolve_left hsize
  rcases userspaceCachePurge_pagesOut h with ⟨data₁, hpurge, hout⟩
  rw [hrun]
  simp only [ok_bind, Bool.false_eq_true, if_false, hpurge]
  rcases hout with ⟨honce, mm, l₁, rfl, hcons, hblock⟩
  have hpurged : data.PagesOut data.purgeList (data.pagedOut data.purgeList mm) :=
    ⟨honce, mm, l₁, rfl, hcons, hblock⟩
  have habsent : p ∉ (data.pagedOut data.purgeList mm).mruBuffers := by
    simp [hq]
  have henough₁ : ∀ taken, enough taken ↔
      (data.pagedOut data.purgeList mm).Room
        ((data.pagedOut data.purgeList mm).mruBuffers.filter (· ∉ taken)) (data.buf p).size :=
    fun taken => (henough taken).trans (pagedOut_room hblock taken).symm
  rcases insertBufferInCmaPool_cases hcons hp habsent .best with
    ⟨data', hrun₁, hin⟩ | ⟨hbad₁, hrun₁⟩
  · have hnone : enough [] := by
      rw [henough₁]
      exact hin.room.mono fun q hq => (List.mem_filter.mp hq).1
    have hnil : ∀ q ∈ ([] : List Ptr), q ∈ ([] : List Ptr) := fun _ hq => hq
    have hpurged' := hpurged.trans hcons.pagesOut_nil
    rw [hrun₁]
    exact .evicting hfull (Eviction.takeUntil_of_enough hnone _) hnil hpurged' hin
  have hfull₁ := hbad₁.resolve_left hsize
  rw [hrun₁]
  simp only [ok_bind, Bool.false_eq_true, if_false, Data.evictAndInsert]
  rcases pageOutBuffersForInsertion_cases hcons hsize hpool hfull₁ henough₁ with
    ⟨htake, hevict⟩ | ⟨front, chosen, data₂, htake, hchosen, hevict, _, hout₂, hroom⟩
  · rw [pagedOut_candidates] at htake
    have hsame : ((data.pagedOut data.purgeList mm).buf p).size = (data.buf p).size := rfl
    rw [hsame, hevict]
    exact .failed hfull htake hpurged
  · rw [pagedOut_candidates] at htake
    have hall := hpurged.trans hout₂
    rcases hall.insert_ok hp hq hsize hroom .evict with ⟨data', hrun₂, hin⟩
    have hsame : ((data.pagedOut data.purgeList mm).buf p).size = (data.buf p).size := rfl
    rw [hsame, hevict]
    simp only [ok_bind, if_true, hrun₂]
    exact .evicting hfull htake hchosen hall hin

/-- A size that `drm_mm_scan_init_with_range` refuses ends the program. -/
theorem pageInBuffer_badSize (h : Consistent data l) (hp : p ∈ data.allBuffers)
    (hq : p ∉ data.mruBuffers) (hsize : (data.buf p).size = 0 ∨ (data.buf p).size > poolSize) :
    data.pageInBuffer p = .error (.assertion .scanInit) := by
  have hunfit : ∀ {data₁ : Data} {l₁ : List NodeRef}, Consistent data₁ l₁ →
      p ∈ data₁.allBuffers → p ∉ data₁.mruBuffers → (data₁.buf p).size = (data.buf p).size →
      data₁.insertBufferInCmaPool p .best = .ok (false, data₁) := by
    intro data₁ l₁ hcons hp₁ hq₁ hsame
    rcases insertBufferInCmaPool_cases hcons hp₁ hq₁ .best with ⟨data', _, hin⟩ | ⟨_, hrun⟩
    · exfalso
      have hpositive := hin.size_pos
      have hle := hin.size_le
      omega
    · exact hrun
  rcases userspaceCachePurge_pagesOut h with ⟨_, hpurge, _, mm, l₁, rfl, hcons, _⟩
  have habsent : p ∉ (data.pagedOut data.purgeList mm).mruBuffers := by
    simp [hq]
  have hinit := scanInit_eq hcons.valid (data.buf p).size
  rw [if_pos hsize] at hinit
  have hsame : ((data.pagedOut data.purgeList mm).buf p).size = (data.buf p).size := rfl
  rw [Data.pageInBuffer, hunfit h hp hq rfl]
  simp only [ok_bind, Bool.false_eq_true, if_false, hpurge, hunfit hcons hp habsent rfl,
    Data.evictAndInsert, Data.pageOutBuffersForInsertion, hsame, hinit, error_bind]

theorem mem_purgeList (hp : p ∈ data.purgeList) :
    p ∈ data.mruBuffers ∧ (data.buf p).pinned = false := by
  rcases List.mem_filter.mp hp with ⟨hmem, hpurge⟩
  simp only [Buffer.purgeable, decide_eq_true_eq, Bool.not_eq_true'] at hpurge
  exact ⟨hmem, by simp [Buffer.pinned, hpurge.2.1, hpurge.2.2]⟩

theorem mem_evictable (hp : p ∈ data.evictable) :
    p ∈ data.mruBuffers ∧ (data.buf p).pinned = false :=
  mem_candidates (List.mem_filter.mp hp).1

open Classical in
theorem pageInBuffer_paging (h : Consistent data l) (hp : p ∈ data.allBuffers)
    (hq : p ∉ data.mruBuffers) : Paging data p (data.pageInBuffer p) := by
  by_cases hsize : (data.buf p).size = 0 ∨ (data.buf p).size > poolSize
  · rw [pageInBuffer_badSize h hp hq hsize]
    exact .aborted hsize
  have hgood : (data.buf p).size ≠ 0 ∧ (data.buf p).size ≤ poolSize := by omega
  have hcases := pageInBuffer_cases h hp hq hgood.1 hgood.2 fun _ => Iff.rfl
  generalize data.pageInBuffer p = result at hcases
  cases hcases with
  | fits hin => exact .inserted (fun _ hq => absurd hq List.not_mem_nil) h.pagesOut_nil hin
  | evicting _ htake hchosen hout hin =>
      refine .inserted (fun q hmem => ?_) hout hin
      rcases Eviction.takeUntil_some htake with ⟨front, hfront, rfl, _⟩
      rcases List.mem_append.mp hmem with hmem | hmem
      · exact mem_purgeList hmem
      · exact mem_evictable (hfront.subset (by simpa using hchosen q hmem))
  | failed _ _ hout => exact .refused hgood (fun q hq => mem_purgeList hq) hout _

end PageIn

end CmaPool.TestDrm
