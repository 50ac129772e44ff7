import CmaPool.Drm.TreeRuns
import CmaPool.TestDrm.Runs

/-! The trees of the allocator over the runs of the program.

Every line comes down to legal calls of the allocator, so that the trees hold at every
moment what the lists hold. -/

namespace CmaPool.TestDrm

open Drm Rbtree

/-- Legal calls lead from one state of the allocator to the other. -/
def Calls (mm mm' : DrmMm) : Prop := ∃ calls rets, CallRun mm calls rets mm'

section Calls

variable {data data' : Data} {l : List NodeRef} {p : Ptr} {size : Nat} {mm mm' mm'' : DrmMm}

theorem Calls.refl (mm : DrmMm) : Calls mm mm := ⟨[], [], .nil mm⟩

theorem Calls.trans (h : Calls mm mm') (h' : Calls mm' mm'') : Calls mm mm'' := by
  obtain ⟨calls, rets, hrun⟩ := h
  obtain ⟨calls', rets', hrun'⟩ := h'
  exact ⟨_, _, hrun.trans hrun'⟩

theorem calls_one {call : TreeCall} {ret : Int} (hlegal : call.Legal mm)
    (hcall : mm.call call = .ok (ret, mm')) : Calls mm mm' :=
  ⟨[call], [ret], .cons hlegal hcall (.nil mm')⟩

theorem removeBufferFromPool_calls (hrun : data.removeBufferFromPool p = .ok data') :
    Calls data.mm data'.mm := by
  obtain ⟨mm, hremove, hrun⟩ := bind_ok hrun
  obtain ⟨mruBuffers, _, hrun⟩ := bind_ok hrun
  cases hrun
  have hlegal : (TreeCall.remove (.buf p)).Legal data.mm := by
    obtain ⟨_, hallocated, _⟩ := bind_ok hremove
    cases hnode : (data.mm.node (.buf p)).allocated with
    | true => exact hnode
    | false =>
        rw [bugOn_of hnode] at hallocated
        cases hallocated
  have hcall : data.mm.call (.remove (.buf p)) = .ok (0, mm) := by
    rw [DrmMm.call, hremove]
    rfl
  exact calls_one hlegal hcall

theorem foldlM_calls {f : Data → Ptr → Except Bug Data}
    (hf : ∀ data p data', f data p = .ok data' → Calls data.mm data'.mm) {todo : List Ptr}
    (hrun : todo.foldlM f data = .ok data') : Calls data.mm data'.mm := by
  induction todo generalizing data with
  | nil =>
      cases hrun
      exact .refl _
  | cons p todo ih =>
      rw [List.foldlM_cons] at hrun
      obtain ⟨data₁, hfirst, hrest⟩ := bind_ok hrun
      exact (hf data p data₁ hfirst).trans (ih hrest)

theorem userspaceCachePurge_calls (hrun : data.userspaceCachePurge = .ok data') :
    Calls data.mm data'.mm := by
  refine foldlM_calls (fun data p data' hstep => ?_) hrun
  simp only at hstep
  split at hstep
  · exact removeBufferFromPool_calls hstep
  · cases hstep
    exact .refl _

theorem freeBuffer_calls (hrun : data.freeBuffer p = .ok data') : Calls data.mm data'.mm := by
  rw [Data.freeBuffer] at hrun
  split at hrun
  · obtain ⟨data₁, hout, hrun⟩ := bind_ok hrun
    obtain ⟨_, _, hrun⟩ := bind_ok hrun
    have hcalls := removeBufferFromPool_calls hout
    cases hrun
    exact hcalls
  · obtain ⟨_, hsame, hrun⟩ := bind_ok hrun
    obtain ⟨_, _, hrun⟩ := bind_ok hrun
    cases hrun
    cases hsame
    exact .refl _

theorem Consistent.free (h : Consistent data l) (hq : p ∉ data.mruBuffers) :
    NodeRef.buf p ≠ .head ∧ (data.mm.node (.buf p)).allocated = false := by
  refine ⟨nofun, ?_⟩
  cases hnode : (data.mm.node (.buf p)).allocated with
  | true => exact absurd (h.mem_nodes.mp ((h.valid.allocated _).mp hnode)) hq
  | false => rfl

theorem insertBufferInCmaPool_calls (h : Consistent data l) (hq : p ∉ data.mruBuffers)
    {mode : InsertMode} {inserted : Bool}
    (hrun : data.insertBufferInCmaPool p mode = .ok (inserted, data')) :
    Calls data.mm data'.mm := by
  obtain ⟨⟨ret, mm⟩, hinsert, hrun⟩ := bind_ok hrun
  have hcalls : Calls data.mm mm := calls_one
    (show (TreeCall.insert (.buf p) (data.buf p).size mode).Legal data.mm from h.free hq) hinsert
  simp only at hrun
  split at hrun
  · cases hrun
    exact hcalls
  · cases hrun
    exact hcalls

open Classical in
theorem pageOutBuffersForInsertion_calls (h : Consistent data l)
    (hfull : size = 0 ∨ ¬ data.Room data.mruBuffers size) {found : Bool}
    (hrun : data.pageOutBuffersForInsertion size = .ok (found, data')) :
    Calls data.mm data'.mm ∧ ∃ evicted, data.PagesOut evicted data' := by
  have hinit := scanInit_eq h.valid size
  by_cases hrange : size = 0 ∨ size > poolSize
  · rw [if_pos hrange] at hinit
    rw [Data.pageOutBuffersForInsertion, hinit] at hrun
    cases hrun
  · have hsize : size ≠ 0 := fun heq => hrange (Or.inl heq)
    rcases pageOutBuffersForInsertion_cases h hsize (by omega) (hfull.resolve_left hsize)
        (fun _ => Iff.rfl) with
      ⟨_, hmiss⟩ | ⟨_, evicted, data₁, _, _, hfound, hevict, hout, _⟩
    · rw [hmiss] at hrun
      cases hrun
      exact ⟨.refl _, [], h.pagesOut_nil⟩
    · rw [hfound] at hrun
      cases hrun
      exact ⟨foldlM_calls (fun _ _ _ => removeBufferFromPool_calls) hevict, evicted, hout⟩

theorem evictAndInsert_calls (h : Consistent data l) (hq : p ∉ data.mruBuffers)
    (hfull : (data.buf p).size = 0 ∨ ¬ data.Room data.mruBuffers (data.buf p).size)
    {inserted : Bool} (hrun : data.evictAndInsert p = .ok (inserted, data')) :
    Calls data.mm data'.mm := by
  obtain ⟨⟨found, data₁⟩, hevict, hrun⟩ := bind_ok hrun
  obtain ⟨hcalls, evicted, _, mm, l₁, rfl, hcons, _⟩ :=
    pageOutBuffersForInsertion_calls h hfull hevict
  have hq₁ : p ∉ (data.pagedOut evicted mm).mruBuffers := by
    simp [hq]
  cases found with
  | true =>
      obtain ⟨⟨ok, data₂⟩, hinsert, hrun⟩ := bind_ok hrun
      have hcalls₂ := hcalls.trans (insertBufferInCmaPool_calls hcons hq₁ hinsert)
      cases ok with
      | true =>
          cases hrun
          exact hcalls₂
      | false =>
          cases hrun
          exact hcalls₂
  | false =>
      cases hrun
      exact hcalls

theorem pageInBuffer_calls (h : Consistent data l) (hp : p ∈ data.allBuffers)
    (hq : p ∉ data.mruBuffers) {inserted : Bool}
    (hrun : data.pageInBuffer p = .ok (inserted, data')) : Calls data.mm data'.mm := by
  obtain ⟨⟨ok, data₁⟩, hinsert, hrun⟩ := bind_ok hrun
  have hcalls := insertBufferInCmaPool_calls h hq hinsert
  rcases insertBufferInCmaPool_cases h hp hq .best with ⟨_, hfits, _⟩ | ⟨_, hmiss⟩
  · rw [hfits] at hinsert
    cases hinsert
    cases hrun
    exact hcalls
  rw [hmiss] at hinsert
  cases hinsert
  obtain ⟨data₂, hpurge, hrun⟩ := bind_ok hrun
  have hpurged := userspaceCachePurge_calls hpurge
  obtain ⟨_, hpurge', _, mm, l₂, rfl, hcons, _⟩ := userspaceCachePurge_pagesOut h
  rw [hpurge] at hpurge'
  obtain rfl := Except.ok.inj hpurge'
  have hq₂ : p ∉ (data.pagedOut data.purgeList mm).mruBuffers := by
    simp [hq]
  obtain ⟨⟨ok, data₃⟩, hinsert, hrun⟩ := bind_ok hrun
  have hcalls₃ := hpurged.trans (insertBufferInCmaPool_calls hcons hq₂ hinsert)
  rcases insertBufferInCmaPool_cases hcons hp hq₂ .best with ⟨_, hfits, _⟩ | ⟨hfull, hmiss₃⟩
  · rw [hfits] at hinsert
    cases hinsert
    cases hrun
    exact hcalls₃
  rw [hmiss₃] at hinsert
  cases hinsert
  exact hpurged.trans (evictAndInsert_calls hcons hq₂ hfull hrun)

end Calls

section Line

variable {data data' : Data} {l : List NodeRef}

theorem withBuffer_calls {name : Nat} {args : Bytes} {f : Ptr → Except Bug Data}
    (hf : ∀ p, data.findBuffer name = some p → f p = .ok data' → Calls data.mm data'.mm)
    (hrun : data.withBuffer name args f = .ok data') : Calls data.mm data'.mm := by
  rcases withBuffer_cases data name args f with ⟨p, _, hname, hfound⟩ | ⟨_, _, hquiet⟩
  · rw [hfound] at hrun
    exact hf p hname hrun
  · rw [hquiet] at hrun
    cases hrun
    exact .refl _

theorem bufCreate_calls (h : Consistent data l) {name : Nat} {args : Bytes}
    (hrun : data.bufCreate name args = .ok data') : Calls data.mm data'.mm := by
  rw [Data.bufCreate] at hrun
  split at hrun
  · cases hrun
    exact .refl _
  · next hname =>
      split at hrun
      · cases hrun
        exact .refl _
      · next size argsOffset _ =>
          have hfresh : data.nextPtr ∉ data.mruBuffers :=
            fun hmem => h.not_mem_fresh ((h.mru _).mp hmem).1
          have hcleared : Calls data.mm (data.mm.clearNode (.buf data.nextPtr)) := calls_one
            (show (TreeCall.clear (.buf data.nextPtr)).Legal data.mm from h.free hfresh) rfl
          obtain ⟨⟨inserted, data₁⟩, hpage, hrun⟩ := bind_ok hrun
          cases hrun
          have hcons : Consistent (data.register (Data.newBuffer name size
              ((args.drop argsOffset).any fun c => !isspace c))) l := h.register hname rfl
          exact hcleared.trans (pageInBuffer_calls hcons List.mem_cons_self hfresh hpage)

theorem bufUse_calls (h : Consistent data l) {name : Nat} {args : Bytes}
    (hrun : data.bufUse name args = .ok data') : Calls data.mm data'.mm := by
  refine withBuffer_calls (fun p hname hrun => ?_) hrun
  cases hpaged : (data.buf p).pagedIn with
  | true =>
      simp only [hpaged, if_true] at hrun
      obtain ⟨_, _, hrun⟩ := bind_ok hrun
      cases hrun
      exact .refl _
  | false =>
      simp only [hpaged, Bool.false_eq_true, if_false] at hrun
      obtain ⟨⟨inserted, data₁⟩, hpage, hrun⟩ := bind_ok hrun
      cases hrun
      exact pageInBuffer_calls h (findBuffer_some hname).1 (h.not_mem_mru hpaged) hpage

theorem bufMadv_calls {name : Nat} {args : Bytes} (hrun : data.bufMadv name args = .ok data') :
    Calls data.mm data'.mm := by
  rw [Data.bufMadv] at hrun
  split at hrun
  · cases hrun
    exact .refl _
  · simp only [Data.setMadv, Data.madvMap] at hrun
    cases hrun
    split
    · exact .refl _
    · exact .refl _

theorem execute_calls (h : Consistent data l) {c : Command} (hrun : data.execute c = .ok data') :
    Calls data.mm data'.mm := by
  rw [Data.execute] at hrun
  cases hverb : c.verb with
  | destroy =>
      rw [hverb] at hrun
      exact withBuffer_calls (fun _ _ hfree => freeBuffer_calls hfree) hrun
  | addUsecnt =>
      rw [hverb] at hrun
      refine withBuffer_calls (fun p _ hset => ?_) hrun
      cases hset
      split <;> exact .refl _
  | removeUsecnt =>
      rw [hverb] at hrun
      refine withBuffer_calls (fun p _ hset => ?_) hrun
      cases hset
      split <;> exact .refl _
  | create =>
      rw [hverb] at hrun
      exact bufCreate_calls h hrun
  | use =>
      rw [hverb] at hrun
      exact bufUse_calls h hrun
  | madv =>
      rw [hverb] at hrun
      exact bufMadv_calls hrun

theorem processLine_calls (h : Consistent data l) {line : Bytes}
    (hrun : data.processLine line = .ok data') : Calls data.mm data'.mm := by
  rcases processLine_cases data line with ⟨c, _, hline⟩ | ⟨_, _, _, hquiet⟩
  · rw [hline] at hrun
    exact execute_calls h hrun
  · rw [hquiet] at hrun
    cases hrun
    exact .refl _

/-- The allocator of every run is what legal calls make of `drm_mm_init`. -/
theorem run_calls {lines : List Bytes} (hrun : run lines = .ok data) :
    ∃ mm₀, DrmMm.init 0 poolSize = .ok mm₀ ∧ Calls mm₀ data.mm := by
  refine run_induction (P := fun _ data =>
    ∃ mm₀, DrmMm.init 0 poolSize = .ok mm₀ ∧ Calls mm₀ data.mm) ?_ ?_ hrun
  · intro data hinit
    obtain ⟨mm, hmm, hdata⟩ := bind_ok hinit
    cases hdata
    exact ⟨mm, hmm, .refl mm⟩
  · intro lines data line data' hbefore hcalls hline
    obtain ⟨mm₀, hmm, hcalls⟩ := hcalls
    obtain ⟨l, hcons⟩ := (run_sound hbefore).consistent
    have hnow := processLine_calls hcons hline
    exact ⟨mm₀, hmm, hcalls.trans hnow⟩

end Line

/-- The allocator of every run comes from `drm_mm_init` by legal calls. Whichever they are,
the trees return from them, in whatever memory, what the lists return, and walks over the
trees then visit the holes and the nodes of the lists. -/
theorem run_inTrees {lines : List Bytes} {data : Data} (hrun : run lines = .ok data)
    (node : NodeRef → RbNode NodeRef) {fuel : Nat} (hfuel : treeFuel ≤ fuel) :
    ∃ mm₀ t₀, DrmMm.init 0 poolSize = .ok mm₀ ∧ TreeMm.init node fuel 0 poolSize = .ok t₀ ∧
      (∃ calls rets, CallRun mm₀ calls rets data.mm) ∧
      ∀ calls rets, CallRun mm₀ calls rets data.mm →
        ∃ t l, t₀.runCalls fuel calls = .ok (rets, t) ∧ Valid data.mm l ∧ InTrees t data.mm l ∧
          Walks fuel t data.mm l := by
  obtain ⟨mm₀, hinit, hcalls⟩ := run_calls hrun
  obtain ⟨t₀, htree₀, hall⟩ := CallRun.fromInit hinit node hfuel
  refine ⟨mm₀, t₀, hinit, htree₀, hcalls, fun calls rets hrun => ?_⟩
  obtain ⟨t, l, htree, hv, hin⟩ := hall hrun
  exact ⟨t, l, htree, hv, hin, hin.walks hv hfuel⟩

/-- Seven lines that free a buffer between two others, fill a part of what it leaves, and
evict for the last one. -/
theorem run_inTrees_evicting :
    ∃ data mm₀ t₀ calls rets t first,
      run [text "[1] @@@ create 1 100\n", text "[2] @@@ create 2 200\n",
        text "[3] @@@ create 3 300\n", text "[4] @@@ create 4 5000\n", text "[5] @@@ destroy 2\n",
        text "[6] @@@ create 5 4000\n", text "[7] @@@ create 6 134200000\n"] = .ok data ∧
      data.mruBuffers = [5, 4, 0] ∧ DrmMm.init 0 poolSize = .ok mm₀ ∧
      TreeMm.init (fun _ => ⟨none, .red, none, none⟩) treeFuel 0 poolSize = .ok t₀ ∧
      CallRun mm₀ calls rets data.mm ∧ t₀.runCalls treeFuel calls = .ok (rets, t) ∧
      t.holesSize.rbRoot.rbFirst treeFuel = some first ∧
      Cursor.visits (t.holesSize.rbRoot.rbNext treeFuel) 3 first =
        some [.buf 5, .buf 0, .buf 4] := by
  have hruns : (run [text "[1] @@@ create 1 100\n", text "[2] @@@ create 2 200\n",
      text "[3] @@@ create 3 300\n", text "[4] @@@ create 4 5000\n", text "[5] @@@ destroy 2\n",
      text "[6] @@@ create 5 4000\n", text "[7] @@@ create 6 134200000\n"]).toOption.map
        (fun data => (data.mruBuffers, data.mm.holesSize)) =
      some ([5, 4, 0], [.buf 5, .buf 0, .buf 4]) := by
    decide +kernel
  obtain ⟨data, hrun, hruns⟩ := exists_run hruns
  obtain ⟨hmru, hholes⟩ := Prod.mk.inj hruns
  obtain ⟨mm₀, t₀, hinit, htree₀, ⟨calls, rets, hcalls⟩, hall⟩ :=
    run_inTrees hrun (fun _ => ⟨none, .red, none, none⟩) le_rfl
  obtain ⟨t, l, htree, _, _, hwalks⟩ := hall calls rets hcalls
  obtain ⟨first, hfirst, hvisits⟩ := hwalks.holesSize
  rw [hholes] at hvisits
  exact ⟨data, mm₀, t₀, calls, rets, t, first, hrun, hmru, hinit, htree₀, hcalls, htree, hfirst,
    hvisits⟩

end CmaPool.TestDrm
