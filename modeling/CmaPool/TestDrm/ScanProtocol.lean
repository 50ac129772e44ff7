import CmaPool.TestDrm.Runs

/-! The calls that `page_out_buffers_for_insertion` makes to the allocator.

The traced program is the one of `Program` with a record of every call, and of
the allocator that the call leaves. -/

namespace CmaPool.TestDrm

open Drm

inductive DrmCall
  | scanInit
  | scanAddBlock (p : Ptr) (ret : Bool)
  | scanRemoveBlock (p : Ptr) (ret : Bool)
  | removeNode (p : Ptr)
  deriving DecidableEq

abbrev Trace := List (DrmCall × DrmMm)

namespace Data

def scanForEvictionTraced (data : Data) (scan : DrmMmScan) (evictionList : List Ptr)
    (trace : Trace) : List Ptr → Except Bug ((Bool × DrmMmScan × List Ptr × Data) × Trace)
  | [] => pure ((false, scan, evictionList, data), trace)
  | p :: lru =>
      if (data.buf p).inUse || (data.buf p).unmoveable then
        scanForEvictionTraced data scan evictionList trace lru
      else do
        let (found, scan, mm) ← data.mm.scanAddBlock scan (.buf p)
        let trace := trace ++ [(.scanAddBlock p found, mm)]
        if found then
          return ((true, scan, p :: evictionList, { data with mm }), trace)
        else
          scanForEvictionTraced { data with mm } scan (p :: evictionList) trace lru

def removeFromRosterTraced (data : Data) (scan : DrmMmScan) (trace : Trace) :
    List Ptr → Except Bug (Data × Trace)
  | [] => pure (data, trace)
  | p :: evictionList => do
      let (ret, mm) ← data.mm.scanRemoveBlock scan (.buf p)
      bugOn (ret = true) .pageOutBuffers
      removeFromRosterTraced { data with mm } scan (trace ++ [(.scanRemoveBlock p ret, mm)])
        evictionList

def chooseEvictedTraced (data : Data) (scan : DrmMmScan) (trace : Trace) :
    List Ptr → Except Bug ((List Ptr × Data) × Trace)
  | [] => pure (([], data), trace)
  | p :: evictionList => do
      let (evict, mm) ← data.mm.scanRemoveBlock scan (.buf p)
      let ((evicted, data), trace) ← chooseEvictedTraced { data with mm } scan
        (trace ++ [(.scanRemoveBlock p evict, mm)]) evictionList
      return ((if evict then p :: evicted else evicted, data), trace)

def evictTraced (data : Data) (trace : Trace) : List Ptr → Except Bug (Data × Trace)
  | [] => pure (data, trace)
  | p :: evicted => do
      let data ← data.removeBufferFromPool p
      evictTraced data (trace ++ [(.removeNode p, data.mm)]) evicted

def pageOutTraced (data : Data) (size : Nat) : Except Bug ((Bool × Data) × Trace) := do
  let scan ← data.mm.scanInitWithRange size pageSize 0 poolSize
  let ((found, scan, evictionList, data), trace) ← data.scanForEvictionTraced scan []
    [(.scanInit, data.mm)] data.mruBuffers.reverse
  if found then
    let ((evicted, data), trace) ← data.chooseEvictedTraced scan trace evictionList
    let (data, trace) ← data.evictTraced trace evicted
    return ((true, data), trace)
  else
    let (data, trace) ← data.removeFromRosterTraced scan trace evictionList
    return ((false, data), trace)

end Data

section Erase

theorem scanForEvictionTraced_erase (data : Data) (scan : DrmMmScan) (evictionList : List Ptr)
    (trace : Trace) (lru : List Ptr) :
    Prod.fst <$> data.scanForEvictionTraced scan evictionList trace lru =
      data.scanForEviction scan evictionList lru := by
  induction lru generalizing data scan evictionList trace with
  | nil => rfl
  | cons p lru ih =>
      rw [Data.scanForEvictionTraced, Data.scanForEviction]
      split
      · exact ih data scan evictionList trace
      · cases data.mm.scanAddBlock scan (.buf p) with
        | error bug => rfl
        | ok added =>
            rcases added with ⟨found, scan, mm⟩
            cases found with
            | true => rfl
            | false => exact ih { data with mm } scan (p :: evictionList) _

theorem removeFromRosterTraced_erase (data : Data) (scan : DrmMmScan) (trace : Trace)
    (evictionList : List Ptr) :
    Prod.fst <$> data.removeFromRosterTraced scan trace evictionList =
      data.removeFromRoster scan evictionList := by
  induction evictionList generalizing data trace with
  | nil => rfl
  | cons p evictionList ih =>
      rw [Data.removeFromRosterTraced, Data.removeFromRoster]
      cases data.mm.scanRemoveBlock scan (.buf p) with
      | error bug => rfl
      | ok removed =>
          rcases removed with ⟨ret, mm⟩
          cases ret with
          | true => rfl
          | false => exact ih { data with mm } _

theorem chooseEvictedTraced_erase (data : Data) (scan : DrmMmScan) (trace : Trace)
    (evictionList : List Ptr) :
    Prod.fst <$> data.chooseEvictedTraced scan trace evictionList =
      data.chooseEvicted scan evictionList := by
  induction evictionList generalizing data trace with
  | nil => rfl
  | cons p evictionList ih =>
      rw [Data.chooseEvictedTraced, Data.chooseEvicted]
      cases data.mm.scanRemoveBlock scan (.buf p) with
      | error bug => rfl
      | ok removed =>
          rcases removed with ⟨evict, mm⟩
          have hrest := ih { data with mm } (trace ++ [(.scanRemoveBlock p evict, mm)])
          simp only [ok_bind] at hrest ⊢
          rw [← hrest]
          cases Data.chooseEvictedTraced { data with mm } scan
            (trace ++ [(.scanRemoveBlock p evict, mm)]) evictionList <;> rfl

theorem evictTraced_erase (data : Data) (trace : Trace) (evicted : List Ptr) :
    Prod.fst <$> data.evictTraced trace evicted =
      evicted.foldlM Data.removeBufferFromPool data := by
  induction evicted generalizing data trace with
  | nil => rfl
  | cons p evicted ih =>
      rw [Data.evictTraced, List.foldlM_cons]
      cases data.removeBufferFromPool p with
      | error bug => rfl
      | ok data' => exact ih data' _

/-- Without its record the traced program is the program. -/
theorem pageOutTraced_erase (data : Data) (size : Nat) :
    Prod.fst <$> data.pageOutTraced size = data.pageOutBuffersForInsertion size := by
  rw [Data.pageOutTraced, Data.pageOutBuffersForInsertion]
  cases data.mm.scanInitWithRange size pageSize 0 poolSize with
  | error bug => rfl
  | ok scan =>
      have hscan := scanForEvictionTraced_erase data scan [] [(.scanInit, data.mm)]
        data.mruBuffers.reverse
      simp only [ok_bind]
      rw [← hscan]
      cases data.scanForEvictionTraced scan [] [(.scanInit, data.mm)]
          data.mruBuffers.reverse with
      | error bug => rfl
      | ok scanned =>
          rcases scanned with ⟨⟨found, scan, evictionList, data⟩, trace⟩
          cases found with
          | false =>
              have hremove := removeFromRosterTraced_erase data scan trace evictionList
              change Prod.fst <$> (do
                let removed ← data.removeFromRosterTraced scan trace evictionList
                return ((false, removed.1), removed.2)) = (do
                return (false, ← data.removeFromRoster scan evictionList))
              rw [← hremove]
              cases data.removeFromRosterTraced scan trace evictionList <;> rfl
          | true =>
              have hchoose := chooseEvictedTraced_erase data scan trace evictionList
              change Prod.fst <$> (do
                let chosen ← data.chooseEvictedTraced scan trace evictionList
                let evicted ← chosen.1.2.evictTraced chosen.2 chosen.1.1
                return ((true, evicted.1), evicted.2)) = (do
                let chosen ← data.chooseEvicted scan evictionList
                return (true, ← chosen.1.foldlM Data.removeBufferFromPool chosen.2))
              rw [← hchoose]
              cases data.chooseEvictedTraced scan trace evictionList with
              | error bug => rfl
              | ok chosen =>
                  rcases chosen with ⟨⟨evicted, data⟩, trace⟩
                  have hevict := evictTraced_erase data trace evicted
                  change Prod.fst <$> (do
                    let evicted ← data.evictTraced trace evicted
                    return ((true, evicted.1), evicted.2)) = (do
                    return (true, ← evicted.foldlM Data.removeBufferFromPool data))
                  rw [← hevict]
                  cases data.evictTraced trace evicted <;> rfl

end Erase

def addCall (call : Ptr × Bool × DrmMm) : DrmCall × DrmMm :=
  (.scanAddBlock call.1 call.2.1, call.2.2)

def removeCall (call : Ptr × Bool × DrmMm) : DrmCall × DrmMm :=
  (.scanRemoveBlock call.1 call.2.1, call.2.2)

def evictCall (call : Ptr × DrmMm) : DrmCall × DrmMm := (.removeNode call.1, call.2)

section Calls

variable (data : Data) {mm₀ mm : DrmMm} {l₀ l : List NodeRef} {added lru : List Ptr}
  {scan : DrmMmScan} {size : Nat}

/-- The scan adds unpinned buffers, each once, and ends without a failed
assertion. -/
theorem scanForEvictionTraced_calls (h₀ : Valid mm₀ l₀) (hscan : ScanFor scan size)
    (hsize : size ≠ 0) (hroster : Roster mm₀ l₀ (added.map NodeRef.buf) mm l)
    (hmem : ∀ p ∈ lru, NodeRef.buf p ∈ l) (hnodup : lru.Nodup) (trace : Trace) :
    ∃ (adds : List (Ptr × Bool × DrmMm)) (mm' : DrmMm) (l' : List NodeRef),
      Roster mm₀ l₀ (((adds.map Prod.fst).reverse ++ added).map NodeRef.buf) mm' l' ∧
      (adds.map Prod.fst).Sublist (lru.filter fun p => !(data.buf p).pinned) ∧
      ({ data with mm }.scanForEvictionTraced scan added trace lru =
          .ok ((false, scan, (adds.map Prod.fst).reverse ++ added, { data with mm := mm' }),
            trace ++ adds.map addCall) ∨
        ∃ hit, Hit mm₀ l' size hit ∧
          { data with mm }.scanForEvictionTraced scan added trace lru =
            .ok ((true, { scan with hitStart := hit, hitEnd := hit + size },
              (adds.map Prod.fst).reverse ++ added, { data with mm := mm' }),
              trace ++ adds.map addCall)) := by
  induction lru generalizing added mm l trace with
  | nil =>
      refine ⟨[], mm, l, hroster, by simp, Or.inl ?_⟩
      simp [Data.scanForEvictionTraced]
  | cons p lru ih =>
      rcases List.nodup_cons.mp hnodup with ⟨hp, hlru⟩
      have hrest : ∀ q ∈ lru, NodeRef.buf q ∈ l :=
        fun q hq => hmem q (List.mem_cons_of_mem _ hq)
      rw [Data.scanForEvictionTraced]
      cases hpinned : (data.buf p).pinned with
      | true =>
          have htest : ((data.buf p).inUse || (data.buf p).unmoveable) = true := hpinned
          rw [if_pos htest, List.filter_cons_of_neg (by simp [hpinned])]
          exact ih hroster hrest hlru trace
      | false =>
          have htest : ¬ ((data.buf p).inUse || (data.buf p).unmoveable) = true := by
            rw [Buffer.pinned] at hpinned
            simp [hpinned]
          rw [if_neg htest, List.filter_cons_of_pos (by simp [hpinned])]
          rcases hroster.addBlock h₀ (hmem p List.mem_cons_self) hscan hsize with
            ⟨mm₁, l₁, hroster₁, hadd | ⟨hit, hhit, hadd⟩⟩
          · rw [← List.map_cons] at hroster₁
            have hleft : ∀ q ∈ lru, NodeRef.buf q ∈ l₁ := by
              intro q hq
              apply mem_ring_left (hroster.scanning h₀) (hroster₁.scanning h₀) (hrest q hq)
              intro heq
              exact hp (NodeRef.buf.inj heq ▸ hq)
            rcases ih hroster₁ hleft hlru (trace ++ [(.scanAddBlock p false, mm₁)]) with
              ⟨adds, mm', l', hroster', hsub, hrun⟩
            refine ⟨(p, false, mm₁) :: adds, mm', l', by simpa using hroster', hsub.cons_cons p,
              ?_⟩
            simp only [hadd, ok_bind, Bool.false_eq_true, if_false]
            simpa [addCall] using hrun
          · refine ⟨[(p, true, mm₁)], mm₁, l₁, hroster₁, ?_, Or.inr ⟨hit, hhit, ?_⟩⟩
            · exact (List.nil_sublist _).cons_cons p
            · simp [hadd, addCall]

/-- Taking the roster down from its latest block leaves the allocator the scan
started from. -/
theorem chooseEvictedTraced_calls (h₀ : Valid mm₀ l₀) (scan : DrmMmScan)
    (hroster : Roster mm₀ l₀ (added.map NodeRef.buf) mm l) (trace : Trace) :
    ∃ removes : List (Ptr × Bool × DrmMm), removes.map Prod.fst = added ∧
      (∀ call ∈ removes.getLast?, call.2.2 = mm₀) ∧
      { data with mm }.chooseEvictedTraced scan trace added =
        .ok (((removes.filter fun call => call.2.1).map Prod.fst, { data with mm := mm₀ }),
          trace ++ removes.map removeCall) := by
  induction added generalizing mm l trace with
  | nil =>
      cases hroster
      exact ⟨[], rfl, by simp, by simp [Data.chooseEvictedTraced]⟩
  | cons p added ih =>
      rcases hroster.remove h₀ scan with ⟨mm', l', hroster', hremove⟩
      generalize decide ((mm₀.block (.buf p)).2 > scan.hitStart ∧
        (mm₀.block (.buf p)).1 < scan.hitEnd) = ret at hremove
      rcases ih hroster' (trace ++ [(.scanRemoveBlock p ret, mm')]) with
        ⟨removes, hadded, hlast, hrun⟩
      refine ⟨(p, ret, mm') :: removes, by simp [hadded], ?_, ?_⟩
      · cases removes with
        | nil =>
            rw [← hadded] at hroster'
            cases hroster'
            simp
        | cons call removes => simpa using hlast
      · rw [Data.chooseEvictedTraced, hremove, ok_bind]
        simp only [hrun, ok_bind, pure_eq_ok]
        cases ret <;> simp [removeCall]

theorem removeFromRosterTraced_calls (h₀ : Valid mm₀ l₀) (hhit : scan.hitEnd = 0)
    (hroster : Roster mm₀ l₀ (added.map NodeRef.buf) mm l) (trace : Trace) :
    ∃ removes : List (Ptr × Bool × DrmMm), removes.map Prod.fst = added ∧
      (∀ call ∈ removes.getLast?, call.2.2 = mm₀) ∧ (∀ call ∈ removes, call.2.1 = false) ∧
      { data with mm }.removeFromRosterTraced scan trace added =
        .ok ({ data with mm := mm₀ }, trace ++ removes.map removeCall) := by
  induction added generalizing mm l trace with
  | nil =>
      cases hroster
      exact ⟨[], rfl, by simp, by simp, by simp [Data.removeFromRosterTraced]⟩
  | cons p added ih =>
      rcases hroster.remove h₀ scan with ⟨mm', l', hroster', hremove⟩
      have hkept : decide ((mm₀.block (.buf p)).2 > scan.hitStart ∧
          (mm₀.block (.buf p)).1 < scan.hitEnd) = false := by
        simp [hhit]
      rw [hkept] at hremove
      rcases ih hroster' (trace ++ [(.scanRemoveBlock p false, mm')]) with
        ⟨removes, hadded, hlast, hmissed, hrun⟩
      refine ⟨(p, false, mm') :: removes, by simp [hadded], ?_, ?_, ?_⟩
      · cases removes with
        | nil =>
            rw [← hadded] at hroster'
            cases hroster'
            simp
        | cons call removes => simpa using hlast
      · simpa using hmissed
      · rw [Data.removeFromRosterTraced, hremove, ok_bind]
        simp only [bugOn_of_not Bool.false_ne_true, ok_bind, hrun]
        simp [removeCall]

theorem evictTraced_calls {evicted : List Ptr} {data' : Data}
    (hrun : evicted.foldlM Data.removeBufferFromPool data = .ok data') (trace : Trace) :
    ∃ evicts : List (Ptr × DrmMm), evicts.map Prod.fst = evicted ∧
      data.evictTraced trace evicted = .ok (data', trace ++ evicts.map evictCall) := by
  induction evicted generalizing data trace with
  | nil =>
      cases hrun
      exact ⟨[], rfl, by simp [Data.evictTraced]⟩
  | cons p evicted ih =>
      rw [List.foldlM_cons] at hrun
      cases hremove : data.removeBufferFromPool p with
      | error bug =>
          rw [hremove] at hrun
          cases hrun
      | ok data₁ =>
          rw [hremove] at hrun
          rcases ih data₁ hrun (trace ++ [(.removeNode p, data₁.mm)]) with
            ⟨evicts, hevicted, htraced⟩
          refine ⟨(p, data₁.mm) :: evicts, by simp [hevicted], ?_⟩
          rw [Data.evictTraced, hremove, ok_bind, htraced]
          simp [evictCall]

end Calls

/-- The order of the calls and what they leave. -/
structure ScanProtocol (data : Data) (found : Bool) (data' : Data) (trace : Trace)
    (adds removes : List (Ptr × Bool × DrmMm)) (evicts : List (Ptr × DrmMm)) : Prop where
  calls : trace = (.scanInit, data.mm) :: (adds.map addCall ++ removes.map removeCall ++
    evicts.map evictCall)
  once : (adds.map Prod.fst).Nodup
  unpinned : ∀ call ∈ adds, call.1 ∈ data.mruBuffers ∧ (data.buf call.1).pinned = false
  reversed : removes.map Prod.fst = (adds.map Prod.fst).reverse
  restored : ∀ call ∈ removes.getLast?, call.2.2 = data.mm
  ordered : ∃ l, Ring.IsRing data.mm.nodeList .head l ∧
    Gaps.Packed 0 (data.mm.blocks l) poolSize
  evicted : found = true →
    evicts.map Prod.fst = (removes.filter fun call => call.2.1).map Prod.fst
  missed : found = false →
    evicts = [] ∧ (∀ call ∈ removes, call.2.1 = false) ∧ data' = data

/-- The scan keeps to its protocol in every state, ends without a failed
assertion, and its last removal leaves the allocator it started from. -/
theorem pageOutBuffersForInsertion_protocol {data : Data} (hstate : EvictionState data)
    {size : Nat} (hsize : 0 < size) (hpool : size ≤ poolSize) :
    ∃ found data' trace adds removes evicts,
      data.pageOutBuffersForInsertion size = .ok (found, data') ∧
      data.pageOutTraced size = .ok ((found, data'), trace) ∧
      ScanProtocol data found data' trace adds removes evicts := by
  rcases hstate.consistent with ⟨l, hcons⟩
  rcases scanInit_ok hcons.valid hsize.ne' hpool with ⟨scan, hinit, hfor, hhit⟩
  have hmem : ∀ p ∈ data.mruBuffers.reverse, NodeRef.buf p ∈ l := by
    intro p hp
    exact hcons.mem_nodes.mpr (List.mem_reverse.mp hp)
  have hnodup := List.nodup_reverse.mpr hcons.mruNodup
  have hordered : ∃ l, Ring.IsRing data.mm.nodeList .head l ∧
      Gaps.Packed 0 (data.mm.blocks l) poolSize :=
    ⟨l, hcons.valid.ring, hcons.valid.packed⟩
  have herase := pageOutTraced_erase data size
  have hroster₀ : Roster data.mm l (([] : List Ptr).map NodeRef.buf) data.mm l := .nil
  rcases scanForEvictionTraced_calls data hcons.valid hfor hsize.ne' hroster₀ hmem hnodup
      [(.scanInit, data.mm)] with ⟨adds, mm, l', hroster, hsub, hscan⟩
  rw [List.append_nil] at hroster hscan
  have honce : (adds.map Prod.fst).Nodup := (hnodup.filter _).sublist hsub
  have hadded : ∀ p ∈ adds.map Prod.fst, p ∈ data.mruBuffers ∧ (data.buf p).pinned = false :=
    fun p hp => mem_candidates (hsub.subset hp)
  rcases hscan with hmiss | ⟨hit, _, hfound⟩
  · rcases removeFromRosterTraced_calls data hcons.valid hhit hroster
        ([(.scanInit, data.mm)] ++ adds.map addCall) with ⟨removes, hremoved, hlast, hnone, hclean⟩
    have htraced : data.pageOutTraced size = .ok ((false, data),
        (.scanInit, data.mm) :: (adds.map addCall ++ removes.map removeCall ++ [])) := by
      simp only [Data.pageOutTraced, hinit, ok_bind, hmiss, Bool.false_eq_true, if_false, hclean]
      simp
    rw [htraced] at herase
    refine ⟨false, data, _, adds, removes, [], herase.symm, htraced, ?_⟩
    constructor
    · rfl
    · exact honce
    · exact fun call hcall => hadded _ (List.mem_map_of_mem hcall)
    · exact hremoved
    · exact hlast
    · exact hordered
    · exact nofun
    · exact fun _ => ⟨rfl, hnone, rfl⟩
  · rcases chooseEvictedTraced_calls data hcons.valid
        { scan with hitStart := hit, hitEnd := hit + size } hroster
        ([(.scanInit, data.mm)] ++ adds.map addCall) with ⟨removes, hremoved, hlast, hchosen⟩
    have hevicted : ((removes.filter fun call => call.2.1).map Prod.fst).Sublist
        (adds.map Prod.fst).reverse := by
      rw [← hremoved]
      exact List.filter_sublist.map _
    have hpaged : ∀ p ∈ (removes.filter fun call => call.2.1).map Prod.fst,
        p ∈ data.mruBuffers :=
      fun p hp => (hadded p (List.mem_reverse.mp (hevicted.subset hp))).1
    rcases evict_pagesOut hcons hpaged ((List.nodup_reverse.mpr honce).sublist hevicted) with
      ⟨data', hevict, _⟩
    rcases evictTraced_calls data hevict
        ([(.scanInit, data.mm)] ++ adds.map addCall ++ removes.map removeCall) with
      ⟨evicts, hevicts, htraced⟩
    have hrun : data.pageOutTraced size = .ok ((true, data'), (.scanInit, data.mm) ::
        (adds.map addCall ++ removes.map removeCall ++ evicts.map evictCall)) := by
      simp only [Data.pageOutTraced, hinit, ok_bind, hfound, if_true, hchosen, htraced]
      simp
    rw [hrun] at herase
    refine ⟨true, data', _, adds, removes, evicts, herase.symm, hrun, ?_⟩
    constructor
    · rfl
    · exact honce
    · exact fun call hcall => hadded _ (List.mem_map_of_mem hcall)
    · exact hremoved
    · exact hlast
    · exact hordered
    · exact fun _ => hevicts
    · exact nofun

/-- Half of the pool and two quarters, the last in use. A buffer larger than the half
takes the first two, and one as large as the pool finds no place. -/
theorem pageOutBuffersForInsertion_protocol_missed :
    ∃ data, run [text "[1] @@@ create 1 67108864\n", text "[2] @@@ create 2 33554432\n",
        text "[3] @@@ create 3 33554432\n", text "[4] @@@ add_usecnt 3\n"] = .ok data ∧
      data.mruBuffers = [2, 1, 0] ∧
      (∃ found data' trace adds removes evicts,
        data.pageOutBuffersForInsertion 100000000 = .ok (found, data') ∧
        data.pageOutTraced 100000000 = .ok ((found, data'), trace) ∧
        ScanProtocol data found data' trace adds removes evicts ∧ found = true ∧
        trace.map Prod.fst = [.scanInit, .scanAddBlock 0 false, .scanAddBlock 1 true,
          .scanRemoveBlock 1 true, .scanRemoveBlock 0 true, .removeNode 1, .removeNode 0]) ∧
      ∃ found data' trace adds removes evicts,
        data.pageOutBuffersForInsertion 134217728 = .ok (found, data') ∧
        data.pageOutTraced 134217728 = .ok ((found, data'), trace) ∧
        ScanProtocol data found data' trace adds removes evicts ∧ found = false ∧
        trace.map Prod.fst = [.scanInit, .scanAddBlock 0 false, .scanAddBlock 1 false,
          .scanRemoveBlock 1 false, .scanRemoveBlock 0 false] := by
  have hruns : (run [text "[1] @@@ create 1 67108864\n", text "[2] @@@ create 2 33554432\n",
      text "[3] @@@ create 3 33554432\n", text "[4] @@@ add_usecnt 3\n"]).toOption.map (fun data =>
        (data.mruBuffers,
          (data.pageOutTraced 100000000).toOption.map fun r => (r.1.1, r.2.map Prod.fst),
          (data.pageOutTraced 134217728).toOption.map fun r => (r.1.1, r.2.map Prod.fst))) =
      some ([2, 1, 0],
        some (true, [.scanInit, .scanAddBlock 0 false, .scanAddBlock 1 true,
          .scanRemoveBlock 1 true, .scanRemoveBlock 0 true, .removeNode 1, .removeNode 0]),
        some (false, [.scanInit, .scanAddBlock 0 false, .scanAddBlock 1 false,
          .scanRemoveBlock 1 false, .scanRemoveBlock 0 false])) := by
    decide +kernel
  obtain ⟨data, hrun, hruns⟩ := exists_run hruns
  simp only [Prod.mk.injEq] at hruns
  obtain ⟨hmru, hfound, hmissed⟩ := hruns
  have hstate : EvictionState data := .reached (.line hrun)
  refine ⟨data, hrun, hmru, ?_, ?_⟩
  · obtain ⟨found, data', trace, adds, removes, evicts, hpage, htraced, hprotocol⟩ :=
      @pageOutBuffersForInsertion_protocol data hstate 100000000 (by decide) (by decide)
    rw [htraced] at hfound
    obtain ⟨rfl, hcalls⟩ := Prod.mk.inj (Option.some.inj hfound)
    exact ⟨_, _, _, _, _, _, hpage, htraced, hprotocol, rfl, hcalls⟩
  · obtain ⟨found, data', trace, adds, removes, evicts, hpage, htraced, hprotocol⟩ :=
      @pageOutBuffersForInsertion_protocol data hstate 134217728 (by decide) (by decide)
    rw [htraced] at hmissed
    obtain ⟨rfl, hcalls⟩ := Prod.mk.inj (Option.some.inj hmissed)
    exact ⟨_, _, _, _, _, _, hpage, htraced, hprotocol, rfl, hcalls⟩

end CmaPool.TestDrm
