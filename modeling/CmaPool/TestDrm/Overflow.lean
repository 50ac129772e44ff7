import CmaPool.Lib.Accounting
import CmaPool.TestDrm.Runs

/-! The overflow counter is the total size of the buffers that are not paged in,
modulo `2 ^ 64`, and tearing the program down brings it to 0. -/

namespace CmaPool.TestDrm

open Drm Accounting

/-- The sizes of the live buffers that are not paged in. -/
def Data.absentSize (data : Data) : Nat :=
  total data.allBuffers (fun p => !(data.buf p).pagedIn) fun p => (data.buf p).size

/-- The counter, which is a `size_t`. -/
def Balanced (data : Data) : Prop := data.overflow = data.absentSize % 2 ^ 64

theorem add64_mod {a b c : Nat} (h : a = b % 2 ^ 64) : add64 a c = (c + b) % 2 ^ 64 := by
  rw [add64]
  omega

theorem sub64_mod {a b c : Nat} (h : a = (c + b) % 2 ^ 64) (hc : c ≤ 2 ^ 64) :
    sub64 a c = b % 2 ^ 64 := by
  rw [sub64]
  omega

section Change

variable {data : Data} {l : List NodeRef} {p : Ptr}

theorem foldl_add64 (evicted : List Ptr) {overflow total : Nat} (h : overflow = total % 2 ^ 64) :
    evicted.foldl (fun overflow q => add64 overflow (data.buf q).size) overflow =
      ((evicted.map fun q => (data.buf q).size).sum + total) % 2 ^ 64 := by
  induction evicted generalizing overflow total with
  | nil => simpa using h
  | cons q evicted ih =>
      rw [List.foldl_cons, ih (add64_mod h), List.map_cons, List.sum_cons]
      congr 1
      omega

theorem Balanced.pagesOut (hb : Balanced data) (h : Consistent data l) {evicted : List Ptr}
    {data' : Data} (hout : data.PagesOut evicted data') : Balanced data' := by
  rcases hout with ⟨⟨honce, hmru⟩, mm, _, rfl, _, _⟩
  have hmoved : (data.pagedOut evicted mm).absentSize =
      (evicted.map fun q => (data.buf q).size).sum + data.absentSize := by
    apply total_moved h.allNodup h.allNodup honce
    · intro q hq _
      simp [((h.mru q).mp (hmru q hq)).2]
    · intro q
      by_cases hq : q ∈ evicted
      · have hall := ((h.mru q).mp (hmru q hq)).1
        simp [Data.pagedOut, hq, hall]
      · simp [Data.pagedOut, hq]
  rw [Balanced, hmoved]
  exact foldl_add64 evicted hb

theorem Balanced.pagesIn (hb : Balanced data) (h : Consistent data l) (hp : p ∈ data.allBuffers)
    (habsent : (data.buf p).pagedIn = false) {data' : Data} (hin : data.PagesIn p data') :
    Balanced data' := by
  have hsize := hin.size_le
  have hpool : poolSize = 134217728 := rfl
  rcases hin with ⟨mm, _, rfl, _, _, _⟩
  have hsame : ∀ q, ((data.pagedIn p mm).buf q).size = (data.buf q).size := by
    intro q
    by_cases hq : q = p
    · subst hq
      simp [Data.pagedIn]
    · simp [Data.pagedIn, hq]
  have hmoved : data.absentSize =
      ([p].map fun q => (data.buf q).size).sum + (data.pagedIn p mm).absentSize := by
    rw [Data.absentSize, Data.absentSize]
    simp only [hsame]
    apply total_moved h.allNodup h.allNodup (List.nodup_singleton p)
    · intro q hq _
      rw [List.mem_singleton.mp hq]
      simp [Data.pagedIn]
    · intro q
      by_cases hq : q = p
      · subst hq
        simp [hp, habsent]
      · simp [hq, Data.pagedIn]
  rw [Balanced, hmoved, List.map_singleton, List.sum_singleton] at hb
  exact sub64_mod hb (by omega)

theorem Balanced.register (hb : Balanced data) (h : Consistent data l) {buf : Buffer}
    (habsent : buf.pagedIn = false) : Balanced (data.register buf) := by
  have hnew := register_new data buf
  have hold : ∀ q ∈ data.allBuffers, (data.register buf).buf q = data.buf q :=
    fun q hq => h.register_old buf hq
  have hall : (data.register buf).allBuffers = data.nextPtr :: data.allBuffers := rfl
  have hrest : total data.allBuffers (fun q => !((data.register buf).buf q).pagedIn)
      (fun q => ((data.register buf).buf q).size) = data.absentSize :=
    total_congr (fun q hq => by rw [hold q hq]) fun q hq => by rw [hold q hq]
  have hmoved : (data.register buf).absentSize = buf.size + data.absentSize := by
    rw [← hrest, Data.absentSize, hall, total, List.filter_cons_of_pos (by simp [hnew, habsent]),
      List.map_cons, List.sum_cons, hnew]
    rfl
  rw [Balanced, hmoved]
  exact add64_mod hb

theorem Balanced.unlisted (hb : Balanced data) (h : Consistent data l)
    (hp : p ∈ data.allBuffers) (habsent : (data.buf p).pagedIn = false)
    (hsize : (data.buf p).size ≤ poolSize) : Balanced (data.unlisted p) := by
  have hpool : poolSize = 134217728 := rfl
  have hmoved : data.absentSize =
      ([p].map fun q => (data.buf q).size).sum + (data.unlisted p).absentSize := by
    apply total_moved (h.allNodup.erase p) h.allNodup (List.nodup_singleton p)
    · intro q hq hkept
      have hne := (h.allNodup.mem_erase_iff.mp hkept).1
      exact absurd (List.mem_singleton.mp hq) hne
    · intro q
      by_cases hq : q = p
      · subst hq
        simp [hp, habsent]
      · simp [hq, Data.unlisted, h.allNodup.mem_erase_iff]
  rw [Balanced, hmoved, List.map_singleton, List.sum_singleton] at hb
  exact sub64_mod hb (by omega)

theorem Balanced.setBuf (hb : Balanced data) {buf : Buffer}
    (hpaged : buf.pagedIn = (data.buf p).pagedIn) (hsize : buf.size = (data.buf p).size) :
    Balanced (data.setBuf p buf) := by
  have hsame : (data.setBuf p buf).absentSize = data.absentSize :=
    total_congr (fun q _ => by rw [setBuf_field Buffer.pagedIn hpaged])
      fun q _ => setBuf_field Buffer.size hsize q
  rw [Balanced, hsame]
  exact hb

/-- The buffer of a destroy is out when it leaves the list. -/
theorem Data.PagesOut.freed {data₁ : Data}
    (hout : data.PagesOut (if (data.buf p).pagedIn then [p] else []) data₁) :
    (data₁.buf p).pagedIn = false := by
  rcases hout with ⟨_, mm, _, rfl, _, _⟩
  cases hpaged : (data.buf p).pagedIn <;> simp [Data.pagedOut, hpaged]

theorem Balanced.freed (hb : Balanced data) (hs : Sound data) (hp : p ∈ data.allBuffers)
    {data₁ : Data} (hout : data.PagesOut (if (data.buf p).pagedIn then [p] else []) data₁) :
    Balanced (data₁.unlisted p) := by
  rcases hs.consistent with ⟨l, hcons⟩
  rcases hout.consistent with ⟨l₁, hcons₁⟩
  have hsame := hout.same
  apply (hb.pagesOut hcons hout).unlisted hcons₁
  · rw [hsame.allBuffers]
    exact hp
  · exact hout.freed
  · rw [hsame.size]
    exact (hs.sized p hp).2

end Change

section Step

variable {data data' : Data} {c : Command}

theorem PageInCall.balanced {data₀ : Data} {p : Ptr} (hb : Balanced data) (hs : Sound data)
    (hcall : PageInCall data c data₀ p) : Balanced data₀ := by
  rcases hs.consistent with ⟨l, hcons⟩
  cases hcall with
  | create _ _ _ => exact hb.register hcons rfl
  | use _ _ _ _ => exact hb

theorem Paging.balanced {p : Ptr} {ret : Bool} (hb : Balanced data) {l : List NodeRef}
    (h : Consistent data l) (hp : p ∈ data.allBuffers) (habsent : (data.buf p).pagedIn = false)
    (hin : Paging data p (.ok (ret, data'))) : Balanced data' := by
  cases hin with
  | inserted _ hout hin =>
      rcases hout.consistent with ⟨l₁, hcons₁⟩
      apply (hb.pagesOut h hout).pagesIn hcons₁ _ _ hin
      · rw [hout.same.allBuffers]
        exact hp
      · rcases hout with ⟨_, mm, _, rfl, _, _⟩
        simp [Data.pagedOut, habsent]
  | @refused _ data₁ _ _ hout _ =>
      have hleft : Balanced data₁ := hb.pagesOut h hout
      exact hleft

theorem Step.balanced (hs : Sound data) (hb : Balanced data) (h : Step data c (.ok data')) :
    Balanced data' := by
  rcases hs.consistent with ⟨l, hcons⟩
  cases h with
  | rejected _ _ _ => exact hb
  | destroyed _ _ hname hout => exact hb.freed hs (findBuffer_some hname).1 hout
  | usecnt _ _ _ _ _ => exact hb.setBuf rfl rfl
  | paged hcall hin =>
      have hcons₀ := hcall.consistent hcons
      exact hin.balanced (hcall.balanced hb hs) hcons₀ hcall.listed.1 hcall.listed.2
  | touched _ _ _ _ => exact hb
  | told _ _ _ => exact hb.setBuf rfl rfl

theorem processLine_balanced (hs : Sound data) (hb : Balanced data) {line : Bytes}
    (hrun : data.processLine line = .ok data') : Balanced data' := by
  rcases processLine_step hs line with ⟨c, _, hstep⟩ | ⟨_, stdout, stderr, hquiet⟩
  · rw [hrun] at hstep
    exact hstep.balanced hs hb
  · rw [hquiet] at hrun
    cases hrun
    exact hb

end Step

theorem run_balanced {lines : List Bytes} {data : Data} (hrun : run lines = .ok data) :
    Balanced data := by
  refine run_induction (P := fun _ data => Balanced data) ?_ ?_ hrun
  · intro data hinit
    rw [initData] at hinit
    cases hmm : DrmMm.init 0 poolSize with
    | error bug =>
        rw [hmm] at hinit
        cases hinit
    | ok mm =>
        rw [hmm] at hinit
        cases hinit
        rfl
  · intro _ _ _ data' hbefore hb hline
    have hafter : Balanced data' := processLine_balanced (run_sound hbefore) hb hline
    exact hafter

/-- What `free_buffers` leaves. -/
structure TornDown (data : Data) : Prop where
  overflow : data.overflow = 0
  allBuffers : data.allBuffers = []
  mruBuffers : data.mruBuffers = []
  clean : data.mm.clean = true

theorem tornDown_of_empty {data : Data} (hs : Sound data) (hb : Balanced data)
    (hall : data.allBuffers = []) : TornDown data := by
  rcases hs.consistent with ⟨l, hcons⟩
  have hmru : data.mruBuffers = [] := by
    apply List.eq_nil_iff_forall_not_mem.mpr
    intro q hq
    have hmem := ((hcons.mru q).mp hq).1
    rw [hall] at hmem
    cases hmem
  have hnodes := hcons.nodes
  rw [hmru, List.map_nil, List.perm_nil] at hnodes
  have hring := hcons.valid.ring
  rw [hnodes] at hring
  have hempty : Ring.IsRing data.mm.nodeList NodeRef.head ([] ++ []) := hring
  constructor
  · rw [hb, Data.absentSize, hall]
    rfl
  · exact hall
  · exact hmru
  · exact decide_eq_true hempty.next_eq

theorem freeBuffers_tornDown {data : Data} (hs : Sound data) (hb : Balanced data) :
    ∃ data', data.freeBuffers = .ok data' ∧ TornDown data' := by
  rw [Data.freeBuffers]
  generalize hall : data.allBuffers = todo
  induction todo generalizing data with
  | nil => exact ⟨data, rfl, tornDown_of_empty hs hb hall⟩
  | cons p todo ih =>
      rcases hs.consistent with ⟨l, hcons⟩
      have hp : p ∈ data.allBuffers := by simp [hall]
      rcases freeBuffer_eq hcons hp with ⟨data₁, hout, hfree⟩
      have hrest : (data₁.unlisted p).allBuffers = todo := by
        change data₁.allBuffers.erase p = todo
        rw [hout.same.allBuffers, hall, List.erase_cons_head]
      have hsound : Sound (data₁.unlisted p) := by
        refine ⟨hcons.freed hout, fun q hq => ?_⟩
        have hsize : ((data₁.unlisted p).buf q).size = (data.buf q).size := hout.same.size q
        rw [hsize]
        apply hs.sized
        rw [← hout.same.allBuffers]
        exact List.mem_of_mem_erase hq
      rw [List.foldlM_cons, hfree, ok_bind]
      exact ih hsound (hb.freed hs hp hout) hrest

end CmaPool.TestDrm
