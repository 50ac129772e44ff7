import CmaPool.Lib.Registry
import CmaPool.Python.Frame
import CmaPool.TestDrm.Runs

/-! The table of the live buffers: what both programs record of a buffer under
its id, and how a command changes it. -/

namespace CmaPool.Compare

open Registry

structure Entry where
  size : Int
  unmoveable : Bool
  inUse : Bool
  deriving DecidableEq

def setUsed (inUse : Bool) : Option Entry → Option Entry :=
  Option.map fun entry => { entry with inUse }

section Python

open Python

def pyEntry (buf : Buffer) : Entry := ⟨buf.size, buf.unmoveable, buf.inUse⟩

def pyTable (s : Pool) (bufId : Int) : Option Entry :=
  (s.buffers.lookup bufId).map fun r => pyEntry (s.heap r)

def requestChange : Request → Option Entry → Option Entry
  | .destroy _ => fun _ => none
  | .addUsecnt _ => setUsed true
  | .removeUsecnt _ => setUsed false
  | .create size unmoveable => fun _ => some ⟨size, unmoveable, false⟩
  | .use _ => id
  | .madv _ _ => id

variable {s s' : Pool} {c : Command} {r : Ref} {q : Request}

theorem pyTable_congr (hbuffers : s'.buffers = s.buffers)
    (hentry : ∀ r, pyEntry (s'.heap r) = pyEntry (s.heap r)) : pyTable s' = pyTable s := by
  funext bufId
  rw [pyTable, pyTable, hbuffers]
  simp only [hentry]

theorem pyTable_setBuffer (h : Linked s) (hid : s.buffers.lookup c.bufId = some r) (buf : Buffer)
    {change : Option Entry → Option Entry}
    (hchange : some (pyEntry buf) = change (some (pyEntry (s.heap r)))) :
    pyTable (s.setBuffer r buf) = apply (pyTable s) ⟨c.bufId, change⟩ := by
  apply eq_apply
  · simp [pyTable, Pool.setBuffer, hid, hchange]
  · intro bufId hne
    change ((s.buffers.lookup bufId).map fun x => pyEntry ((s.setBuffer r buf).heap x)) = _
    rw [pyTable]
    cases hother : s.buffers.lookup bufId with
    | none => rfl
    | some x =>
        have hx : x ≠ r := ne_of_other h (mem_of_lookup hother) (mem_of_lookup hid) hne
        simp [Pool.setBuffer, hx]

theorem lookup_filter_ne {α β : Type} [DecidableEq α] (l : List (α × β)) (key key' : α) :
    (l.filter fun entry => entry.1 ≠ key).lookup key' =
      if key' = key then none else l.lookup key' := by
  induction l with
  | nil => simp
  | cons entry l ih =>
      by_cases hentry : entry.1 = key
      · rw [List.filter_cons_of_neg (by simpa using hentry), ih]
        by_cases hkey : key' = key
        · simp [hkey]
        · have hne : (key' == entry.1) = false := by simpa [hentry] using hkey
          rw [if_neg hkey, if_neg hkey, List.lookup_cons, hne]
      · rw [List.filter_cons_of_pos (by simpa using hentry), List.lookup_cons, List.lookup_cons, ih]
        cases hkey : key' == entry.1 with
        | true =>
            have hne : key' ≠ key := fun heq => hentry ((beq_iff_eq.mp hkey).symm.trans heq)
            exact (if_neg hne).symm
        | false => rfl

theorem pyTable_destroy (s : Pool) (bufId : Int) (r : Ref) :
    pyTable (s.destroy bufId r) = apply (pyTable s) ⟨bufId, fun _ => none⟩ := by
  apply eq_apply
  · simp only [pyTable, Pool.destroy, lookup_filter_ne, if_true]
    rfl
  · intro bufId' hne
    have hne' : bufId' ≠ bufId := hne
    simp only [pyTable, Pool.destroy, lookup_filter_ne, if_neg hne']

theorem pyTable_register (h : Linked s) (hid : s.buffers.lookup c.bufId = none) (buf : Buffer) :
    pyTable (s.register c.bufId buf) =
      apply (pyTable s) ⟨c.bufId, fun _ => some (pyEntry buf)⟩ := by
  apply eq_apply
  · simp [pyTable, Pool.register, List.lookup_append, hid]
  · intro bufId hne
    have hbeq : (bufId == c.bufId) = false := by simpa using hne
    have hlast : [(c.bufId, s.nextRef)].lookup bufId = none := by
      rw [List.lookup_cons, hbeq]
      rfl
    rw [pyTable, pyTable]
    simp only [Pool.register, List.lookup_append, hlast, Option.or_none]
    cases hother : s.buffers.lookup bufId with
    | none => rfl
    | some x =>
        have hx : x ≠ s.nextRef := (h.fresh x (live_of_lookup hother)).ne
        simp [hx]

theorem pageIn_table (hin : PageIn s r (.ok ⟨⟩ s')) : pyTable s' = pyTable s := by
  cases hin with
  | resident _ => rfl
  | placed evicted spot _ _ _ _ _ =>
      apply pyTable_congr
      · rfl
      · intro x
        by_cases hx : x = r
        · subst hx
          simp [Pool.place, pyEntry]
        · simp [Pool.place, pyEntry, hx]

theorem pyTable_compacted (s : Pool) (r : Ref) (offset : Int) :
    pyTable (s.compacted r offset) = pyTable s := by
  rw [Pool.compacted]
  split
  · apply pyTable_congr
    · rfl
    · intro x
      by_cases hx : x = r
      · subst hx
        simp [Pool.setBuffer, pyEntry]
      · simp [Pool.setBuffer, hx]
  · rfl

theorem pyTable_step (h : Linked s) (haccepts : Accepts s c q) (hstep : Step s c q (.ok ⟨⟩ s')) :
    pyTable s' = apply (pyTable s) ⟨c.bufId, requestChange q⟩ := by
  cases hstep with
  | destroy r => exact pyTable_destroy s c.bufId r
  | addUsecnt r =>
      cases haccepts with
      | addUsecnt _ _ hid _ => exact pyTable_setBuffer h hid _ rfl
  | release r _ =>
      cases haccepts with
      | removeUsecnt _ _ hid _ => exact pyTable_setBuffer h hid _ rfl
  | compact r offset _ _ =>
      cases haccepts with
      | removeUsecnt _ _ hid _ =>
          rw [pyTable_compacted]
          exact pyTable_setBuffer h hid _ rfl
  | create size unmoveable _ hin =>
      cases haccepts with
      | create _ hid _ _ =>
          rw [pageIn_table hin]
          exact pyTable_register h hid _
  | used r s' hin =>
      change pyTable s' = _
      rw [pageIn_table hin]
      exact (apply_id _ _).symm
  | madv r value =>
      cases haccepts with
      | madv _ _ hid => exact pyTable_setBuffer h hid _ rfl

end Python

section TestDrm

open TestDrm Drm

def drmEntry (buf : Buffer) : Entry := ⟨buf.size, buf.unmoveable, buf.inUse⟩

def drmTable (data : Data) (name : Nat) : Option Entry :=
  (data.findBuffer name).map fun p => drmEntry (data.buf p)

def commandChange (c : Command) : Option Entry → Option Entry :=
  match c.verb with
  | .destroy => fun _ => none
  | .addUsecnt => setUsed true
  | .removeUsecnt => setUsed false
  | .create => fun _ =>
      (scanSize c.args).map fun scanned => drmEntry (createdBuffer c scanned.1 scanned.2)
  | .use => id
  | .madv => id

variable {data data' : Data} {c : Command} {l l' : List NodeRef} {p : Ptr}

theorem drmTable_some (h : Consistent data l) {name : Nat} {entry : Entry} :
    drmTable data name = some entry ↔
      ∃ p ∈ data.allBuffers, (data.buf p).name = name ∧ drmEntry (data.buf p) = entry := by
  rw [drmTable, Option.map_eq_some_iff]
  constructor
  · intro ⟨p, hfind, hentry⟩
    rcases findBuffer_some hfind with ⟨hp, hname⟩
    exact ⟨p, hp, hname, hentry⟩
  · intro ⟨p, hp, hname, hentry⟩
    cases hfind : data.findBuffer name with
    | none => exact absurd hname (findBuffer_none.mp hfind p hp)
    | some q =>
        rcases findBuffer_some hfind with ⟨hq, hqname⟩
        have hsame : q = p := h.name_inj hq hp (hqname.trans hname.symm)
        exact ⟨p, by rw [hsame], hentry⟩

theorem drmTable_own (h : Consistent data l) (hp : p ∈ data.allBuffers) :
    drmTable data (data.buf p).name = some (drmEntry (data.buf p)) :=
  (drmTable_some h).mpr ⟨p, hp, rfl, rfl⟩

theorem drmTable_none {name : Nat} :
    drmTable data name = none ↔ data.findBuffer name = none := by
  rw [drmTable, Option.map_eq_none_iff]

theorem drmTable_other (h : Consistent data l) (h' : Consistent data' l') {name : Nat}
    (hnamed : ∀ q, q ∈ data'.allBuffers ∧ (data'.buf q).name = name ↔
      q ∈ data.allBuffers ∧ (data.buf q).name = name)
    (hentry : ∀ q ∈ data.allBuffers, (data.buf q).name = name →
      drmEntry (data'.buf q) = drmEntry (data.buf q)) :
    drmTable data' name = drmTable data name := by
  apply Option.ext
  intro entry
  rw [drmTable_some h', drmTable_some h]
  constructor
  · intro ⟨q, hq, hqname, hqentry⟩
    rcases (hnamed q).mp ⟨hq, hqname⟩ with ⟨hq, hqname⟩
    exact ⟨q, hq, hqname, (hentry q hq hqname).symm.trans hqentry⟩
  · intro ⟨q, hq, hqname, hqentry⟩
    rcases (hnamed q).mpr ⟨hq, hqname⟩ with ⟨hq', hqname'⟩
    exact ⟨q, hq', hqname', (hentry q hq hqname).trans hqentry⟩

theorem drmTable_same (h : Consistent data l) (h' : Consistent data' l')
    (hsame : SameBuffers data data') : drmTable data' = drmTable data := by
  funext name
  apply drmTable_other h h'
  · intro q
    rw [hsame.allBuffers, hsame.name]
  · intro q _ _
    rw [← hsame.buf q]
    rfl

theorem drmTable_setBuf (h : Consistent data l) (hname : data.findBuffer c.name = some p)
    {buf : Buffer} (h' : Consistent (data.setBuf p buf) l')
    (hkept : buf.name = (data.buf p).name)
    {f : Option Entry → Option Entry}
    (hchange : some (drmEntry buf) = f (some (drmEntry (data.buf p)))) :
    drmTable (data.setBuf p buf) = apply (drmTable data) ⟨c.name, f⟩ := by
  rcases findBuffer_some hname with ⟨hp, hpname⟩
  have hset : (data.setBuf p buf).buf p = buf := Function.update_self ..
  apply eq_apply
  · have hown := drmTable_own h' (p := p) hp
    rw [hset, hkept, hpname] at hown
    rw [hown, ← hpname, drmTable_own h hp]
    exact hchange
  · intro name hne
    apply drmTable_other h h'
    · intro q
      rw [setBuf_field Buffer.name hkept]
      exact Iff.rfl
    · intro q _ hqname
      have hq : q ≠ p := by
        intro heq
        subst heq
        exact hne (hqname.symm.trans hpname)
      exact congrArg drmEntry (Function.update_of_ne hq _ _)

theorem drmTable_unlisted (h : Consistent data l) (h' : Consistent (data.unlisted p) l')
    (hp : p ∈ data.allBuffers) :
    drmTable (data.unlisted p) =
      apply (drmTable data) ⟨(data.buf p).name, fun _ => none⟩ := by
  have hlisted : ∀ q, q ∈ (data.unlisted p).allBuffers ↔ q ≠ p ∧ q ∈ data.allBuffers :=
    fun q => h.allNodup.mem_erase_iff
  apply eq_apply
  · apply drmTable_none.mpr
    apply findBuffer_none.mpr
    intro q hq hqname
    rcases (hlisted q).mp hq with ⟨hne, hq⟩
    exact hne (h.name_inj hq hp hqname)
  · intro name hne
    apply drmTable_other h h'
    · intro q
      rw [hlisted]
      constructor
      · exact fun ⟨⟨_, hq⟩, hqname⟩ => ⟨hq, hqname⟩
      · intro ⟨hq, hqname⟩
        refine ⟨⟨?_, hq⟩, hqname⟩
        intro heq
        subst heq
        exact hne hqname.symm
    · exact fun _ _ _ => rfl

theorem drmTable_register (h : Consistent data l) {buf : Buffer}
    (h' : Consistent (data.register buf) l') :
    drmTable (data.register buf) =
      apply (drmTable data) ⟨buf.name, fun _ => some (drmEntry buf)⟩ := by
  have hnew : (data.register buf).buf data.nextPtr = buf := register_new data buf
  apply eq_apply
  · have hown := drmTable_own h' (p := data.nextPtr) List.mem_cons_self
    rwa [hnew] at hown
  · intro name hne
    have hlisted : ∀ q, q ∈ (data.register buf).allBuffers ↔
        q = data.nextPtr ∨ q ∈ data.allBuffers := fun q => List.mem_cons
    apply drmTable_other h h'
    · intro q
      rw [hlisted]
      constructor
      · rintro ⟨rfl | hq, hqname⟩
        · rw [hnew] at hqname
          exact absurd hqname.symm hne
        · rw [h.register_old buf hq] at hqname
          exact ⟨hq, hqname⟩
      · intro ⟨hq, hqname⟩
        rw [h.register_old buf hq]
        exact ⟨Or.inr hq, hqname⟩
    · intro q hq _
      rw [h.register_old buf hq]

theorem drmTable_absent {name : Nat} (hname : data.findBuffer name = none)
    {change : Option Entry → Option Entry} (hchange : change none = none) :
    drmTable data = apply (drmTable data) ⟨name, change⟩ := by
  apply eq_apply
  · rw [drmTable_none.mpr hname]
    exact hchange.symm
  · exact fun _ _ => rfl

/-- The text of the command is as its handler expects it. -/
def Plain (c : Command) : Prop :=
  match c.verb with
  | .create => (scanSize c.args).isSome
  | .madv => True
  | _ => c.args = []

theorem drmTable_rejected (hreject : Rejects data c) (hplain : Plain c)
    (hfresh : c.verb = .create → data.findBuffer c.name = none) :
    drmTable data = apply (drmTable data) ⟨c.name, commandChange c⟩ := by
  cases hverb : c.verb with
  | create =>
      simp only [Rejects, hverb] at hreject
      simp only [Plain, hverb] at hplain
      rcases hreject with hname | hscan
      · exact absurd (hfresh hverb) hname
      · simp [hscan] at hplain
  | madv =>
      simp only [Rejects, hverb] at hreject
      exact drmTable_absent hreject (by simp [commandChange, hverb])
  | _ =>
      simp only [Rejects, hverb] at hreject
      simp only [Plain, hverb] at hplain
      have hname := hreject.resolve_left (not_not.mpr hplain)
      exact drmTable_absent hname (by simp [commandChange, hverb, setUsed])

/-- A command whose text its handler can read changes the record under its name. -/
theorem drmTable_step (hs : Sound data) (hstep : Step data c (.ok data')) (hplain : Plain c)
    (hfresh : c.verb = .create → data.findBuffer c.name = none) :
    drmTable data' = apply (drmTable data) ⟨c.name, commandChange c⟩ := by
  rcases hs.consistent with ⟨l, hcons⟩
  rcases (hstep.sound hs).consistent with ⟨l', hcons'⟩
  cases hstep with
  | rejected hreject stdout stderr => exact drmTable_rejected hreject hplain hfresh
  | @destroyed p data₁ hverb _ hname hout =>
      rcases findBuffer_some hname with ⟨hp, hpname⟩
      rcases hout.consistent with ⟨l₁, hcons₁⟩
      have hsame := hout.same
      have hp₁ : p ∈ data₁.allBuffers := hsame.allBuffers ▸ hp
      rw [drmTable_unlisted hcons₁ hcons' hp₁, drmTable_same hcons hcons₁ hsame, hsame.name,
        hpname]
      simp [commandChange, hverb]
  | @usecnt p inUse hverb _ hname stderr =>
      have hset : Consistent (data.setBuf p { data.buf p with inUse }) l :=
        hcons.setBuf rfl rfl rfl
      change drmTable (data.setBuf p { data.buf p with inUse }) = _
      rw [drmTable_setBuf hcons hname hset rfl (f := setUsed inUse) rfl]
      cases inUse <;> simp [commandChange, hverb, usecntVerb]
  | @paged data₀ _ p _ hcall hin =>
      have hcons₀ := hcall.consistent hcons
      rw [drmTable_same hcons₀ hcons' hin.same]
      cases hcall with
      | create hverb hname hsize =>
          rw [drmTable_register hcons hcons₀]
          simp only [commandChange, hverb, hsize, Option.map_some]
          rfl
      | use hverb _ _ _ =>
          simp only [commandChange, hverb]
          exact (apply_id _ _).symm
  | touched hverb _ _ _ =>
      simp only [commandChange, hverb]
      exact (apply_id _ _).symm
  | told hverb hname _ =>
      simp only [commandChange, hverb]
      exact drmTable_setBuf hcons hname hcons' rfl rfl

end TestDrm

end CmaPool.Compare
