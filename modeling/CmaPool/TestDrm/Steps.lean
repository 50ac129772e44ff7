import CmaPool.TestDrm.PageIn

/-! The commands as steps: what each handler does to a consistent state. -/

namespace CmaPool.TestDrm

open Drm

/-- The handler reports an error before it changes anything. -/
def Rejects (data : Data) (c : Command) : Prop :=
  match c.verb with
  | .create => data.findBuffer c.name ≠ none ∨ scanSize c.args = none
  | .madv => data.findBuffer c.name = none
  | _ => c.args ≠ [] ∨ data.findBuffer c.name = none

def createdBuffer (c : Command) (size argsOffset : Nat) : Buffer :=
  Data.newBuffer c.name size ((c.args.drop argsOffset).any fun c => !isspace c)

/-- The state and the buffer for which the command calls `page_in_buffer`. -/
inductive PageInCall (data : Data) (c : Command) : Data → Ptr → Prop
  | create {size argsOffset : Nat} (hverb : c.verb = .create)
      (hname : data.findBuffer c.name = none) (hsize : scanSize c.args = some (size, argsOffset)) :
      PageInCall data c (data.register (createdBuffer c size argsOffset)) data.nextPtr
  | use {p : Ptr} (hverb : c.verb = .use) (hargs : c.args = [])
      (hname : data.findBuffer c.name = some p) (habsent : (data.buf p).pagedIn = false) :
      PageInCall data c data p

def usecntVerb (inUse : Bool) : Verb := if inUse then .addUsecnt else .removeUsecnt

def Data.unlisted (data : Data) (p : Ptr) : Data :=
  { data with
    allBuffers := data.allBuffers.erase p
    overflow := sub64 data.overflow (data.buf p).size }

def Data.touched (data : Data) (p : Ptr) : Data :=
  { data with mruBuffers := p :: data.mruBuffers.erase p }

inductive Step (data : Data) (c : Command) : Except Bug Data → Prop
  | rejected (hreject : Rejects data c) (stdout stderr : Bytes) :
      Step data c (.ok (data.printed stdout stderr))
  | destroyed {p : Ptr} {data₁ : Data} (hverb : c.verb = .destroy) (hargs : c.args = [])
      (hname : data.findBuffer c.name = some p)
      (hout : data.PagesOut (if (data.buf p).pagedIn then [p] else []) data₁) :
      Step data c (.ok (data₁.unlisted p))
  | usecnt {p : Ptr} (inUse : Bool) (hverb : c.verb = usecntVerb inUse) (hargs : c.args = [])
      (hname : data.findBuffer c.name = some p) (stderr : Bytes) :
      Step data c (.ok ((data.setBuf p { data.buf p with inUse }).printed data.stdout stderr))
  | paged {data₀ data' : Data} {p : Ptr} {ret : Bool} (hcall : PageInCall data c data₀ p)
      (hin : Paging data₀ p (.ok (ret, data'))) : Step data c (.ok data')
  | aborted {data₀ : Data} {p : Ptr} {bug : Bug} (hcall : PageInCall data c data₀ p)
      (hin : Paging data₀ p (.error bug)) : Step data c (.error bug)
  | touched {p : Ptr} (hverb : c.verb = .use) (hargs : c.args = [])
      (hname : data.findBuffer c.name = some p) (hpaged : (data.buf p).pagedIn = true) :
      Step data c (.ok (data.touched p))
  | told {p : Ptr} {madv : Madv} (hverb : c.verb = .madv)
      (hname : data.findBuffer c.name = some p)
      (hmadv : madv = .willneed ∨ madv = (data.buf p).madv) :
      Step data c (.ok (data.setBuf p { data.buf p with madv }))

section Find

variable {data : Data} {l : List NodeRef} {name : Nat} {p : Ptr}

theorem findBuffer_some (h : data.findBuffer name = some p) :
    p ∈ data.allBuffers ∧ (data.buf p).name = name :=
  ⟨List.mem_of_find?_eq_some h, by simpa using List.find?_some h⟩

theorem findBuffer_none :
    data.findBuffer name = none ↔ ∀ p ∈ data.allBuffers, (data.buf p).name ≠ name := by
  simp [Data.findBuffer]

theorem Consistent.name_inj (h : Consistent data l) {q : Ptr} (hp : p ∈ data.allBuffers)
    (hq : q ∈ data.allBuffers) (heq : (data.buf p).name = (data.buf q).name) : p = q :=
  List.inj_on_of_nodup_map h.names hp hq heq

theorem Consistent.not_mem_mru (h : Consistent data l) (habsent : (data.buf p).pagedIn = false) :
    p ∉ data.mruBuffers := by
  rw [h.mru]
  simp [habsent]

theorem Consistent.mem_mru (h : Consistent data l) (hp : p ∈ data.allBuffers)
    (hpaged : (data.buf p).pagedIn = true) : p ∈ data.mruBuffers :=
  (h.mru p).mpr ⟨hp, hpaged⟩

end Find

section Keep

variable {data : Data} {l : List NodeRef} {p : Ptr}

/-- A change of a buffer that its lists do not depend on. -/
theorem Consistent.setBuf (h : Consistent data l) {buf : Buffer}
    (hname : buf.name = (data.buf p).name) (hpaged : buf.pagedIn = (data.buf p).pagedIn)
    (hsize : buf.size = (data.buf p).size) : Consistent (data.setBuf p buf) l where
  valid := h.valid
  names := by
    change (data.allBuffers.map fun q => ((data.setBuf p buf).buf q).name).Nodup
    simpa only [setBuf_field Buffer.name hname] using h.names
  fresh := h.fresh
  mru := by
    intro q
    rw [setBuf_field Buffer.pagedIn hpaged]
    exact h.mru q
  nodes := h.nodes
  sizes := by
    intro q hq
    rw [setBuf_field Buffer.size hsize]
    exact h.sizes q hq

theorem Consistent.unlisted (h : Consistent data l) (hp : p ∉ data.mruBuffers) :
    Consistent (data.unlisted p) l where
  valid := h.valid
  names := h.names.sublist (List.erase_sublist.map _)
  fresh := fun q hq => h.fresh q (List.mem_of_mem_erase hq)
  mru := by
    intro q
    have hq : q ∈ data.mruBuffers → q ≠ p := fun hmem heq => hp (heq ▸ hmem)
    simp only [Data.unlisted, h.allNodup.mem_erase_iff]
    constructor
    · intro hmem
      exact ⟨⟨hq hmem, ((h.mru q).mp hmem).1⟩, ((h.mru q).mp hmem).2⟩
    · intro ⟨⟨_, hall⟩, hpaged⟩
      exact h.mem_mru hall hpaged
  nodes := h.nodes
  sizes := h.sizes

theorem Consistent.touched (h : Consistent data l) (hp : p ∈ data.mruBuffers) :
    Consistent (data.touched p) l := by
  have hperm : (data.touched p).mruBuffers.Perm data.mruBuffers :=
    (List.perm_cons_erase hp).symm
  constructor
  · exact h.valid
  · exact h.names
  · exact h.fresh
  · intro q
    rw [hperm.mem_iff]
    exact h.mru q
  · exact h.nodes.trans (hperm.symm.map _)
  · intro q hq
    exact h.sizes q (hperm.mem_iff.mp hq)

theorem Consistent.not_mem_fresh (h : Consistent data l) : data.nextPtr ∉ data.allBuffers := by
  intro hmem
  exact absurd (h.fresh _ hmem) (Nat.lt_irrefl _)

theorem register_new (data : Data) (buf : Buffer) :
    (data.register buf).buf data.nextPtr = buf := Function.update_self _ _ _

theorem Consistent.register_old (h : Consistent data l) (buf : Buffer) {q : Ptr}
    (hq : q ∈ data.allBuffers) : (data.register buf).buf q = data.buf q := by
  have hne : q ≠ data.nextPtr := fun heq => h.not_mem_fresh (heq ▸ hq)
  exact Function.update_of_ne hne _ _

theorem Consistent.register (h : Consistent data l) {buf : Buffer}
    (hname : data.findBuffer buf.name = none) (habsent : buf.pagedIn = false) :
    Consistent (data.register buf) l := by
  have hfresh := h.not_mem_fresh
  have hmru : data.nextPtr ∉ data.mruBuffers := fun hmem => hfresh ((h.mru _).mp hmem).1
  have hold : ∀ q ∈ data.allBuffers, (data.register buf).buf q = data.buf q :=
    fun q hq => h.register_old buf hq
  have hnew := register_new data buf
  constructor
  · exact h.valid.clearNode (h.not_mem_ring hmru)
  · have hnames : (data.allBuffers.map fun q => ((data.register buf).buf q).name) =
        data.allBuffers.map fun q => (data.buf q).name :=
      List.map_congr_left fun q hq => by rw [hold q hq]
    change ((data.nextPtr :: data.allBuffers).map
      fun q => ((data.register buf).buf q).name).Nodup
    rw [List.map_cons, hnames, hnew, List.nodup_cons]
    refine ⟨?_, h.names⟩
    intro hmem
    rcases List.mem_map.mp hmem with ⟨q, hq, heq⟩
    exact findBuffer_none.mp hname q hq heq
  · intro q hq
    rcases List.mem_cons.mp hq with rfl | hq
    · exact Nat.lt_succ_self _
    · exact Nat.lt_succ_of_lt (h.fresh q hq)
  · intro q
    change q ∈ data.mruBuffers ↔
      q ∈ data.nextPtr :: data.allBuffers ∧ ((data.register buf).buf q).pagedIn = true
    by_cases hq : q = data.nextPtr
    · subst hq
      simp [hmru, hnew, habsent]
    · have hsame : (data.register buf).buf q = data.buf q := Function.update_of_ne hq _ _
      rw [hsame, h.mru]
      simp [hq]
  · exact h.nodes
  · intro q hq
    have hall := ((h.mru q).mp hq).1
    have hne : NodeRef.buf q ≠ .buf data.nextPtr :=
      fun heq => hmru (NodeRef.buf.inj heq ▸ hq)
    rw [hold q hall]
    exact (congrArg DrmMmNode.size (clearNode_of_ne hne)).trans (h.sizes q hq)

end Keep

section Handlers

variable {data : Data} {l : List NodeRef} {c : Command} {p : Ptr}

theorem withBuffer_cases (data : Data) (name : Nat) (args : Bytes) (f : Ptr → Except Bug Data) :
    (∃ p, args = [] ∧ data.findBuffer name = some p ∧ data.withBuffer name args f = f p) ∨
      (args ≠ [] ∨ data.findBuffer name = none) ∧
        ∃ stderr, data.withBuffer name args f = .ok (data.printed data.stdout stderr) := by
  rw [Data.withBuffer]
  by_cases hargs : args = []
  · rw [if_neg (not_not.mpr hargs)]
    cases hname : data.findBuffer name with
    | none => exact Or.inr ⟨Or.inr rfl, _, rfl⟩
    | some p => exact Or.inl ⟨p, hargs, rfl, rfl⟩
  · rw [if_pos hargs]
    exact Or.inr ⟨Or.inl hargs, _, rfl⟩

theorem freeBuffer_eq (h : Consistent data l) (hp : p ∈ data.allBuffers) :
    ∃ data₁, data.PagesOut (if (data.buf p).pagedIn then [p] else []) data₁ ∧
      data.freeBuffer p = .ok (data₁.unlisted p) := by
  cases hpaged : (data.buf p).pagedIn with
  | false =>
      refine ⟨data, h.pagesOut_nil, ?_⟩
      simp only [Data.freeBuffer, hpaged, Bool.false_eq_true, if_false, pure_eq_ok, ok_bind,
        eraseEntry, if_pos hp]
      rfl
  | true =>
      rcases removeBufferFromPool_pagesOut h (h.mem_mru hp hpaged) with ⟨data₁, hrun, hout⟩
      refine ⟨data₁, hout, ?_⟩
      rcases hout with ⟨_, mm, l', rfl, _, _⟩
      have hlisted : p ∈ (data.pagedOut [p] mm).allBuffers := hp
      simp only [Data.freeBuffer, hpaged, if_true, hrun, ok_bind, eraseEntry, if_pos hlisted,
        pure_eq_ok]
      rfl

theorem bufDestroy_step (h : Consistent data l) (hverb : c.verb = .destroy) :
    Step data c (data.bufDestroy c.name c.args) := by
  rw [Data.bufDestroy]
  rcases withBuffer_cases data c.name c.args data.freeBuffer with
    ⟨p, hargs, hname, hrun⟩ | ⟨hbad, stderr, hrun⟩
  · rcases freeBuffer_eq h (findBuffer_some hname).1 with ⟨data₁, hout, hfree⟩
    rw [hrun, hfree]
    exact .destroyed hverb hargs hname hout
  · rw [hrun]
    exact .rejected (by simpa only [Rejects, hverb] using hbad) _ _

theorem bufAddUsecnt_step (hverb : c.verb = .addUsecnt) :
    Step data c (data.bufAddUsecnt c.name c.args) := by
  rw [Data.bufAddUsecnt]
  rcases withBuffer_cases data c.name c.args _ with
    ⟨p, hargs, hname, hrun⟩ | ⟨hbad, stderr, hrun⟩
  · rw [hrun]
    split
    · exact .usecnt true hverb hargs hname _
    · exact .usecnt true hverb hargs hname data.stderr
  · rw [hrun]
    exact .rejected (by simpa only [Rejects, hverb] using hbad) _ _

theorem bufRemoveUsecnt_step (hverb : c.verb = .removeUsecnt) :
    Step data c (data.bufRemoveUsecnt c.name c.args) := by
  rw [Data.bufRemoveUsecnt]
  rcases withBuffer_cases data c.name c.args _ with
    ⟨p, hargs, hname, hrun⟩ | ⟨hbad, stderr, hrun⟩
  · rw [hrun]
    split
    · exact .usecnt false hverb hargs hname _
    · exact .usecnt false hverb hargs hname data.stderr
  · rw [hrun]
    exact .rejected (by simpa only [Rejects, hverb] using hbad) _ _

theorem PageInCall.consistent {data₀ : Data} (h : Consistent data l)
    (hcall : PageInCall data c data₀ p) : Consistent data₀ l := by
  cases hcall with
  | create _ hname _ => exact h.register hname rfl
  | use _ _ _ _ => exact h

theorem PageInCall.listed {data₀ : Data} (hcall : PageInCall data c data₀ p) :
    p ∈ data₀.allBuffers ∧ (data₀.buf p).pagedIn = false := by
  cases hcall with
  | create _ _ _ => exact ⟨List.mem_cons_self, by rw [register_new]; rfl⟩
  | use _ _ hname habsent => exact ⟨(findBuffer_some hname).1, habsent⟩

theorem Paging.step {data₀ : Data} {result : Except Bug (Bool × Data)}
    (hcall : PageInCall data c data₀ p) (hin : Paging data₀ p result) :
    Step data c (Prod.snd <$> result) := by
  cases result with
  | ok out => exact .paged hcall hin
  | error bug => exact .aborted hcall hin

theorem bufCreate_step (h : Consistent data l) (hverb : c.verb = .create) :
    Step data c (data.bufCreate c.name c.args) := by
  rw [Data.bufCreate]
  cases hname : data.findBuffer c.name with
  | some p =>
      have hreject : Rejects data c := by
        simp [Rejects, hverb, hname]
      exact .rejected hreject _ _
  | none =>
      cases hscan : scanSize c.args with
      | none =>
          have hreject : Rejects data c := by
            simp [Rejects, hverb, hscan]
          exact .rejected hreject _ _
      | some scanned =>
          have hcreated : Consistent (data.register (createdBuffer c scanned.1 scanned.2)) l :=
            h.register hname rfl
          have hmru : data.nextPtr ∉ data.mruBuffers :=
            fun hmem => h.not_mem_fresh ((h.mru _).mp hmem).1
          have hin := pageInBuffer_paging hcreated List.mem_cons_self hmru
          exact hin.step (.create hverb hname hscan)

theorem bufUse_step (h : Consistent data l) (hverb : c.verb = .use) :
    Step data c (data.bufUse c.name c.args) := by
  rw [Data.bufUse]
  rcases withBuffer_cases data c.name c.args _ with
    ⟨p, hargs, hname, hrun⟩ | ⟨hbad, stderr, hrun⟩
  · have hp := (findBuffer_some hname).1
    rw [hrun]
    cases hpaged : (data.buf p).pagedIn with
    | true =>
        have hmem := h.mem_mru hp hpaged
        simp only [if_true, eraseEntry, if_pos hmem, pure_eq_ok, ok_bind]
        exact .touched hverb hargs hname hpaged
    | false =>
        have hin := pageInBuffer_paging h hp (h.not_mem_mru hpaged)
        exact hin.step (.use hverb hargs hname hpaged)
  · rw [hrun]
    exact .rejected (by simpa only [Rejects, hverb] using hbad) _ _

theorem bufMadv_step (hverb : c.verb = .madv) : Step data c (data.bufMadv c.name c.args) := by
  rw [Data.bufMadv]
  cases hname : data.findBuffer c.name with
  | none =>
      have hreject : Rejects data c := by
        simp [Rejects, hverb, hname]
      exact .rejected hreject _ _
  | some p =>
      simp only [Data.setMadv, Data.madvMap]
      split
      · exact .told hverb hname (Or.inl rfl)
      · have hself : data.setBuf p (data.buf p) = data := by
          simp [Data.setBuf]
        have hkept : Step data c
            (.ok (data.setBuf p { data.buf p with madv := (data.buf p).madv })) :=
          .told hverb hname (Or.inr rfl)
        rwa [hself] at hkept

theorem execute_step (h : Consistent data l) (c : Command) : Step data c (data.execute c) := by
  rw [Data.execute]
  cases hverb : c.verb with
  | destroy => exact bufDestroy_step h hverb
  | addUsecnt => exact bufAddUsecnt_step hverb
  | removeUsecnt => exact bufRemoveUsecnt_step hverb
  | create => exact bufCreate_step h hverb
  | use => exact bufUse_step h hverb
  | madv => exact bufMadv_step hverb

end Handlers

end CmaPool.TestDrm
