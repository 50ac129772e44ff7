import CmaPool.TestDrm.Runs

/-! What the lines of a log say, read without the program.

A ledger holds the live buffers with the value that each was last told. The
program lists the same buffers; which lines end it can be read off the ledger. -/

namespace CmaPool.TestDrm

open Drm

abbrev Ledger := Nat → Option Madv

def firstWord (args : Bytes) : Bytes := args.takeWhile fun c => !isspace c

def Ledger.enter (ledger : Ledger) (c : Command) : Ledger :=
  match c.verb with
  | .create =>
      if ledger c.name = none ∧ (scanSize c.args).isSome then
        Function.update ledger c.name (some .willneed)
      else ledger
  | .destroy => if c.args = [] then Function.update ledger c.name none else ledger
  | .madv =>
      match Data.madvMap.lookup (firstWord c.args) with
      | some value =>
          if ledger c.name = none then ledger else Function.update ledger c.name (some value)
      | none => ledger
  | _ => ledger

def Ledger.line (ledger : Ledger) (line : Bytes) : Ledger :=
  match lineCommand line with
  | some c => ledger.enter c
  | none => ledger

def ledgerOf (lines : List Bytes) : Ledger := lines.foldl Ledger.line fun _ => none

/-- The ledger and the program know the same live buffers. -/
def Ledger.Lists (ledger : Ledger) (data : Data) : Prop :=
  ∀ name, ledger name = none ↔ data.findBuffer name = none

section Lists

variable {data data' : Data} {ledger : Ledger} {c : Command}

theorem findBuffer_congr (hall : data'.allBuffers = data.allBuffers)
    (hname : ∀ q, (data'.buf q).name = (data.buf q).name) (name : Nat) :
    data'.findBuffer name = none ↔ data.findBuffer name = none := by
  simp only [findBuffer_none, hall, hname]

theorem Ledger.Lists.of_same (h : ledger.Lists data) (hall : data'.allBuffers = data.allBuffers)
    (hname : ∀ q, (data'.buf q).name = (data.buf q).name) : ledger.Lists data' :=
  fun name => (h name).trans (findBuffer_congr hall hname name).symm

/-- A create that is rejected has a live name or no size. -/
theorem Ledger.Lists.not_created (h : ledger.Lists data)
    (hreject : data.findBuffer c.name ≠ none ∨ scanSize c.args = none) :
    ¬ (ledger c.name = none ∧ (scanSize c.args).isSome = true) := by
  rintro ⟨hnone, hsome⟩
  rcases hreject with hlive | hscan
  · exact hlive ((h c.name).mp hnone)
  · simp [hscan] at hsome

theorem Ledger.enter_rejected (h : ledger.Lists data) (hreject : Rejects data c) :
    ledger.enter c = ledger := by
  have hname := h c.name
  rw [Rejects] at hreject
  rw [Ledger.enter]
  cases hverb : c.verb with
  | destroy =>
      simp only [hverb] at hreject ⊢
      rcases hreject with hargs | hnone
      · rw [if_neg hargs]
      · rw [hname.mpr hnone |>.symm, Function.update_eq_self, ite_self]
  | create =>
      simp only [hverb] at hreject ⊢
      exact if_neg (h.not_created hreject)
  | madv =>
      simp only [hverb] at hreject ⊢
      simp only [hname.mpr hreject, if_true]
      split <;> rfl
  | addUsecnt => rfl
  | removeUsecnt => rfl
  | use => rfl

theorem Ledger.enter_told (hverb : c.verb = .madv) (name : Nat) :
    ledger.enter c name = none ↔ ledger name = none := by
  rw [Ledger.enter]
  simp only [hverb]
  cases Data.madvMap.lookup (firstWord c.args) with
  | none => rfl
  | some value =>
      by_cases hold : ledger c.name = none
      · simp only [if_pos hold]
      · simp only [if_neg hold, Function.update_apply]
        split
        · next heq => simp [heq, hold]
        · rfl

/-- A name is missing once its buffer has left the list, or when it was missing before. -/
theorem Consistent.findBuffer_erase {l : List NodeRef} (h : Consistent data l) {p : Ptr}
    (hp : p ∈ data.allBuffers) (hall : data'.allBuffers = data.allBuffers.erase p)
    (hname : ∀ q, (data'.buf q).name = (data.buf q).name) (name : Nat) :
    data'.findBuffer name = none ↔ name = (data.buf p).name ∨ data.findBuffer name = none := by
  have hmem : ∀ q, q ∈ data'.allBuffers ↔ q ≠ p ∧ q ∈ data.allBuffers := by
    intro q
    rw [hall]
    exact h.allNodup.mem_erase_iff
  simp only [findBuffer_none, hmem, hname]
  constructor
  · intro hnone
    by_cases heq : name = (data.buf p).name
    · exact Or.inl heq
    · refine Or.inr fun q hq hqname => ?_
      by_cases hqp : q = p
      · exact heq (hqp ▸ hqname.symm)
      · exact hnone q ⟨hqp, hq⟩ hqname
  · intro hnone q ⟨hne, hq⟩ hqname
    rcases hnone with heq | hnone
    · exact hne (h.name_inj hq hp (hqname.trans heq))
    · exact hnone q hq hqname

theorem Consistent.findBuffer_register {l : List NodeRef} (h : Consistent data l) (b : Buffer)
    (name : Nat) : (data.register b).findBuffer name = none ↔
      name ≠ b.name ∧ data.findBuffer name = none := by
  have hlist : (data.register b).allBuffers = data.nextPtr :: data.allBuffers := rfl
  have hnew : ((data.register b).buf data.nextPtr).name = b.name :=
    congrArg Buffer.name (register_new data b)
  have hold : ∀ q ∈ data.allBuffers, (data.register b).buf q = data.buf q :=
    fun q hq => h.register_old b hq
  rw [findBuffer_none, findBuffer_none, hlist, List.forall_mem_cons, hnew]
  constructor
  · intro ⟨hne, hrest⟩
    exact ⟨fun heq => hne heq.symm, fun q hq => hold q hq ▸ hrest q hq⟩
  · intro ⟨hne, hrest⟩
    exact ⟨fun heq => hne heq.symm, fun q hq => (hold q hq).symm ▸ hrest q hq⟩

theorem Step.lists (hs : Sound data) (h : ledger.Lists data)
    (hstep : Step data c (.ok data')) : (ledger.enter c).Lists data' := by
  rcases hs.consistent with ⟨l, hcons⟩
  cases hstep with
  | rejected hreject stdout stderr =>
      rw [Ledger.enter_rejected h hreject]
      exact h.of_same rfl fun _ => rfl
  | @destroyed p data₁ hverb hargs hname hout =>
      rcases findBuffer_some hname with ⟨hp, hpname⟩
      rcases hout with ⟨_, mm, _, hdata, _, _⟩
      have hall : (data₁.unlisted p).allBuffers = data.allBuffers.erase p := by
        rw [hdata]
        rfl
      have hsame : ∀ q, ((data₁.unlisted p).buf q).name = (data.buf q).name := by
        rw [hdata]
        exact fun _ => rfl
      intro name
      rw [hcons.findBuffer_erase hp hall hsame, hpname, ← h name]
      simp only [Ledger.enter, hverb, if_pos hargs, Function.update_apply]
      split
      · next heq => simp [heq]
      · next hne => simp [hne]
  | usecnt inUse hverb _ _ _ =>
      have hsame : ledger.enter c = ledger := by
        rw [Ledger.enter, hverb]
        cases inUse <;> rfl
      rw [hsame]
      exact h.of_same rfl (setBuf_field Buffer.name (by rfl))
  | paged hcall hin =>
      cases hcall with
      | @create size argsOffset hverb hname hsize =>
          intro name
          have hnone := (h c.name).mpr hname
          rw [findBuffer_congr hin.same.allBuffers hin.same.name,
            hcons.findBuffer_register (createdBuffer c size argsOffset), ← h name]
          have hnew : (createdBuffer c size argsOffset).name = c.name := rfl
          simp only [Ledger.enter, hverb, hnone, hsize, Option.isSome_some, and_self, if_true,
            Function.update_apply, hnew]
          split
          · next heq => simp [heq]
          · next hne => simp [hne]
      | use hverb _ _ _ =>
          have hsame : ledger.enter c = ledger := by rw [Ledger.enter, hverb]
          rw [hsame]
          exact h.of_same hin.same.allBuffers hin.same.name
  | touched hverb _ _ _ =>
      have hsame : ledger.enter c = ledger := by rw [Ledger.enter, hverb]
      rw [hsame]
      exact h.of_same rfl fun _ => rfl
  | told hverb _ _ =>
      intro name
      rw [Ledger.enter_told hverb, h name]
      exact (findBuffer_congr (by rfl) (setBuf_field Buffer.name (by rfl)) name).symm

theorem processLine_lists (hs : Sound data) (h : ledger.Lists data) {line : Bytes}
    (hrun : data.processLine line = .ok data') : (ledger.line line).Lists data' := by
  rw [Ledger.line]
  rcases processLine_step hs line with ⟨c, hc, hstep⟩ | ⟨hnone, stdout, stderr, hquiet⟩
  · rw [hrun] at hstep
    rw [hc]
    exact hstep.lists hs h
  · rw [hquiet] at hrun
    cases hrun
    rw [hnone]
    exact h.of_same rfl fun _ => rfl

end Lists

theorem ledgerOf_concat (lines : List Bytes) (line : Bytes) :
    ledgerOf (lines ++ [line]) = (ledgerOf lines).line line := by
  rw [ledgerOf, List.foldl_append]
  rfl

theorem run_lists {lines : List Bytes} {data : Data} (hrun : run lines = .ok data) :
    (ledgerOf lines).Lists data := by
  refine run_induction (P := fun lines data => (ledgerOf lines).Lists data) ?_ ?_ hrun
  · intro data hinit
    rcases initData_sound with ⟨data₀, hinit₀, _, hempty⟩
    rw [hinit₀] at hinit
    cases hinit
    intro name
    rw [findBuffer_none, hempty]
    simp [ledgerOf]
  · intro lines data line data' hbefore h hline
    rw [ledgerOf_concat]
    have hlists := processLine_lists (run_sound hbefore) h hline
    exact hlists.of_same rfl fun _ => rfl

end CmaPool.TestDrm
