import CmaPool.Lib.Gaps
import CmaPool.Python.Paging

/-! The commands of the pool as steps.

`Accepts` is what a handler checks before it changes anything, `Step` what the
accepted request does. A command that is not accepted raises with the pool as
it was. -/

namespace CmaPool.Python

inductive Request
  | destroy (r : Ref)
  | addUsecnt (r : Ref)
  | removeUsecnt (r : Ref)
  | create (size : Int) (unmoveable : Bool)
  | use (r : Ref)
  | madv (r : Ref) (value : String)

inductive Accepts (s : Pool) (c : Command) : Request → Prop
  | destroy {r : Ref} (hcmd : c.cmd = "destroy") (hargs : c.args = none)
      (hid : s.buffers.lookup c.bufId = some r) : Accepts s c (.destroy r)
  | addUsecnt {r : Ref} (hcmd : c.cmd = "add_usecnt") (hargs : c.args = none)
      (hid : s.buffers.lookup c.bufId = some r) (hidle : (s.heap r).inUse = false) :
      Accepts s c (.addUsecnt r)
  | removeUsecnt {r : Ref} (hcmd : c.cmd = "remove_usecnt") (hargs : c.args = none)
      (hid : s.buffers.lookup c.bufId = some r) (hbusy : (s.heap r).inUse = true) :
      Accepts s c (.removeUsecnt r)
  | create {size : Int} {arg : String} {rest : List String} (hcmd : c.cmd = "create")
      (hid : s.buffers.lookup c.bufId = none) (hargs : c.args = some (arg :: rest))
      (hsize : int arg = some size) : Accepts s c (.create size (rest.length > 0))
  | use {r : Ref} (hcmd : c.cmd = "use") (hargs : c.args = none)
      (hid : s.buffers.lookup c.bufId = some r) (hmadv : (s.heap r).madv = "willneed") :
      Accepts s c (.use r)
  | madv {r : Ref} {value : String} {rest : List String} (hcmd : c.cmd = "madv")
      (hargs : c.args = some (value :: rest)) (hid : s.buffers.lookup c.bufId = some r) :
      Accepts s c (.madv r value)

def Pool.destroy (s : Pool) (bufId : Int) (r : Ref) : Pool :=
  { s with
    buffers := s.buffers.filter fun entry => entry.1 ≠ bufId
    mruList := s.mruList.filter (· ∉ [r])
    offsetList := s.offsetList.filter (· ∉ [r])
    overflow :=
      if (s.heap r).offset.isNone then s.overflow - (s.heap r).size else s.overflow }

def Pool.setInUse (s : Pool) (r : Ref) (inUse : Bool) : Pool :=
  s.setBuffer r { s.heap r with inUse }

/-- The end of the last of the leading buffers of `offset_list` that start
below `limit`. -/
def Pool.endBelow (s : Pool) (limit : Int) : Int :=
  Gaps.lastEnd 0 (s.blocks.takeWhile fun block => block.1 < limit)

def Pool.compacted (s : Pool) (r : Ref) (offset : Int) : Pool :=
  if s.endBelow offset < offset then
    s.setBuffer r { s.heap r with offset := some (s.endBelow offset) }
  else s

def Pool.register (s : Pool) (bufId : Int) (buf : Buffer) : Pool :=
  { s with
    heap := Function.update s.heap s.nextRef buf
    nextRef := s.nextRef + 1
    buffers := s.buffers ++ [(bufId, s.nextRef)]
    overflow := s.overflow + buf.size }

def Pool.touch (s : Pool) (r : Ref) : Pool :=
  { s with mruList := r :: s.mruList.filter (· ∉ [r]) }

inductive Step (s : Pool) (c : Command) : Request → EStateM.Result Exn Pool Unit → Prop
  | destroy (r : Ref) : Step s c (.destroy r) (.ok ⟨⟩ (s.destroy c.bufId r))
  | addUsecnt (r : Ref) : Step s c (.addUsecnt r) (.ok ⟨⟩ (s.setInUse r true))
  | release (r : Ref) (hplain : s.compact = false) :
      Step s c (.removeUsecnt r) (.ok ⟨⟩ (s.setInUse r false))
  | compact (r : Ref) (offset : Int) (hcompact : s.compact = true)
      (hpaged : (s.heap r).offset = some offset) :
      Step s c (.removeUsecnt r) (.ok ⟨⟩ ((s.setInUse r false).compacted r offset))
  | compactAbsent (r : Ref) (hcompact : s.compact = true) (habsent : (s.heap r).offset = none) :
      Step s c (.removeUsecnt r) (.error .type (s.setInUse r false))
  | create (size : Int) (unmoveable : Bool) (result : EStateM.Result Exn Pool Unit)
      (hin : PageIn (s.register c.bufId (Buffer.new size unmoveable)) s.nextRef result) :
      Step s c (.create size unmoveable) result
  | used (r : Ref) (s' : Pool) (hin : PageIn s r (.ok ⟨⟩ s')) :
      Step s c (.use r) (.ok ⟨⟩ (s'.touch r))
  | unused (r : Ref) (e : Exn) (s' : Pool) (hin : PageIn s r (.error e s')) :
      Step s c (.use r) (.error e s')
  | madv (r : Ref) (value : String) :
      Step s c (.madv r value) (.ok ⟨⟩ (s.setBuffer r { s.heap r with madv := value }))

section Lookup

variable {s : Pool} {bufId : Int} {r : Ref}

theorem mem_of_lookup (h : s.buffers.lookup bufId = some r) : (bufId, r) ∈ s.buffers := by
  rcases List.lookup_eq_some_iff.mp h with ⟨front, back, hsplit, _⟩
  rw [hsplit]
  simp

theorem live_of_lookup (h : s.buffers.lookup bufId = some r) : r ∈ s.live :=
  List.mem_map.mpr ⟨_, mem_of_lookup h, rfl⟩

theorem lookup_of_mem (h : Linked s) (hmem : (bufId, r) ∈ s.buffers) :
    s.buffers.lookup bufId = some r := by
  rcases List.append_of_mem hmem with ⟨front, back, hsplit⟩
  apply List.lookup_eq_some_iff.mpr
  refine ⟨front, back, hsplit, ?_⟩
  intro entry hentry
  have hids := h.ids
  rw [hsplit, List.map_append, List.map_cons] at hids
  have hdisjoint := List.disjoint_of_nodup_append hids
  simp only [bne_iff_ne, ne_eq]
  intro heq
  exact hdisjoint (List.mem_map.mpr ⟨entry, hentry, rfl⟩) (by simp [heq])

theorem not_mem_of_lookup_none (h : s.buffers.lookup bufId = none) (x : Ref) :
    (bufId, x) ∉ s.buffers := by
  intro hmem
  have hnone := List.lookup_eq_none_iff.mp h _ hmem
  simp at hnone

theorem findBuffer_some (h : s.buffers.lookup bufId = some r) :
    findBuffer bufId s = .ok r s := by
  simp [findBuffer, h]

theorem findBuffer_none (h : s.buffers.lookup bufId = none) :
    findBuffer bufId s = .error .key s := by
  simp [findBuffer, h]

end Lookup

section Handlers

variable {s : Pool} {c : Command} {r : Ref}

@[simp] theorem pyAssert_true (s : Pool) : pyAssert true s = .ok ⟨⟩ s := rfl

@[simp] theorem pyAssert_false (s : Pool) : pyAssert false s = .error .assertion s := rfl

theorem compactLoop_eq {offset : Int} (hpaged : (s.heap r).offset = some offset)
    (l : List Ref) (hoffset : ∀ x ∈ l, (s.heap x).offset.isSome = true) (prevOffset : Int) :
    compactLoop r prevOffset l s =
      .ok (Gaps.lastEnd prevOffset
        ((l.map fun x => (s.heap x).block).takeWhile fun block => block.1 < offset)) s := by
  induction l generalizing prevOffset with
  | nil => rfl
  | cons other rest ih =>
      rcases Option.isSome_iff_exists.mp (hoffset other List.mem_cons_self) with ⟨start, hother⟩
      have hblock : (s.heap other).block = (start, start + (s.heap other).size) := by
        simp [Buffer.block, hother]
      simp only [compactLoop, bind_apply, getOffset_some hother, getOffset_some hpaged,
        List.map_cons, hblock]
      by_cases hlow : start < offset
      · rw [if_neg (by omega), List.takeWhile_cons_of_pos (by simpa using hlow)]
        exact ih (fun x hx => hoffset x (List.mem_cons_of_mem _ hx)) _
      · rw [if_pos (by omega), List.takeWhile_cons_of_neg (by simpa using hlow)]
        rfl

theorem compactBuffer_paged (h : Linked s) {offset : Int}
    (hpaged : (s.heap r).offset = some offset) :
    compactBuffer r s = .ok ⟨⟩ (s.compacted r offset) := by
  simp only [compactBuffer, bind_apply, get_apply,
    compactLoop_eq hpaged s.offsetList (fun x hx => ((h.paged x).mp hx).2),
    getOffset_some hpaged]
  change (if s.endBelow offset < offset then _ else _ : M Unit) s = _
  rw [Pool.compacted]
  split <;> rfl

theorem compactBuffer_absent (h : Linked s) (habsent : (s.heap r).offset = none) :
    compactBuffer r s = .error .type s := by
  cases hlist : s.offsetList with
  | nil => simp [compactBuffer, hlist, compactLoop, getOffset_none habsent]
  | cons other rest =>
      rcases h.offset_of_mem (show other ∈ s.offsetList by simp [hlist]) with ⟨offset, hother⟩
      simp [compactBuffer, hlist, compactLoop, getOffset_some hother, getOffset_none habsent]

theorem bufDestroy_eq (h : Linked s) (hargs : c.args = none)
    (hid : s.buffers.lookup c.bufId = some r) :
    bufDestroy c s = .ok ⟨⟩ (s.destroy c.bufId r) := by
  have hlive := live_of_lookup hid
  simp only [bufDestroy, bind_apply, hargs, Option.isNone_none, pyAssert_true,
    findBuffer_some hid, getBuffer_apply]
  by_cases habsent : (s.heap r).offset.isNone = true
  · have hfree : r ∉ s.offsetList := by
      intro hmem
      have hsome := ((h.paged r).mp hmem).2
      simp_all
    have hmru : s.mruList.filter (· ∉ [r]) = s.mruList := by
      rw [← erase_eq_filter_not_mem h.mruNodup]
      exact List.erase_of_not_mem (fun hmem => hfree (h.mru.mem_iff.mp hmem))
    have hoffset : s.offsetList.filter (· ∉ [r]) = s.offsetList := by
      rw [← erase_eq_filter_not_mem h.offsets]
      exact List.erase_of_not_mem hfree
    rw [if_pos habsent]
    simp only [Pool.destroy, habsent, hmru, hoffset, bind_apply, modify_apply, if_true]
  · have hmem : r ∈ s.offsetList := by
      apply (h.paged r).mpr
      exact ⟨hlive, by simpa [Option.isSome_iff_ne_none] using habsent⟩
    have hmru : r ∈ s.mruList := h.mru.mem_iff.mpr hmem
    rw [if_neg habsent]
    simp only [mruListRemove, offsetListRemove, bind_apply, get_apply, if_pos hmru, if_pos hmem,
      set_apply, modify_apply, erase_eq_filter_not_mem h.mruNodup,
      erase_eq_filter_not_mem h.offsets]
    simp [Pool.destroy, habsent]

theorem bufRemoveUsecnt_eq (hargs : c.args = none)
    (hid : s.buffers.lookup c.bufId = some r) (hbusy : (s.heap r).inUse = true) :
    bufRemoveUsecnt c s =
      if s.compact then compactBuffer r (s.setInUse r false)
      else .ok ⟨⟩ (s.setInUse r false) := by
  simp only [bufRemoveUsecnt, bind_apply, hargs, Option.isNone_none, pyAssert_true,
    findBuffer_some hid, getBuffer_apply, hbusy, modifyBuffer_apply, get_apply]
  change (if s.compact then _ else _ : M Unit) (s.setInUse r false) = _
  split <;> rfl

theorem linked_setInUse (h : Linked s) (r : Ref) (inUse : Bool) : Linked (s.setInUse r inUse) :=
  linked_setBuffer h r _ rfl

theorem bufUse_eq (hargs : c.args = none) (hid : s.buffers.lookup c.bufId = some r)
    (hmadv : (s.heap r).madv = "willneed") :
    bufUse c s =
      (do
        pageInBuffer r
        pyAssert (← getBuffer r).offset.isSome
        mruListRemove r
        modify fun t : Pool => { t with mruList := r :: t.mruList } : M Unit) s := by
  simp only [bufUse, bind_apply, hargs, Option.isNone_none, pyAssert_true,
    findBuffer_some hid, getBuffer_apply, hmadv, beq_self_eq_true]

theorem PageIn.live {r : Ref} {s s' : Pool} (hin : PageIn s r (.ok ⟨⟩ s')) :
    s'.live = s.live ∧ (s'.heap r).offset.isSome = true := by
  cases hin with
  | resident hpaged => exact ⟨rfl, hpaged⟩
  | placed evicted spot _ _ _ _ _ => exact ⟨rfl, by simp [Pool.place]⟩

theorem bufUse_step (h : Linked s) (hargs : c.args = none)
    (hid : s.buffers.lookup c.bufId = some r) (hmadv : (s.heap r).madv = "willneed") :
    Step s c (.use r) (bufUse c s) := by
  have hlive := live_of_lookup hid
  have hin := pageInBuffer_cases h r
  rw [bufUse_eq hargs hid hmadv, bind_apply]
  cases hrun : pageInBuffer r s with
  | error e s' =>
      rw [hrun] at hin
      exact Step.unused r e s' hin
  | ok u s' =>
      rw [hrun] at hin
      have hlinked : Linked s' := hin.linked h hlive
      rcases hin.live with ⟨hsame, hsome⟩
      have hmem : r ∈ s'.mruList := by
        apply hlinked.mru.mem_iff.mpr
        exact (hlinked.paged r).mpr ⟨hsame ▸ hlive, hsome⟩
      have htouch := Step.used r s' hin (c := c)
      simpa [hsome, mruListRemove, hmem, Pool.touch,
        erase_eq_filter_not_mem hlinked.mruNodup] using htouch

theorem linked_register (h : Linked s) {bufId : Int} (hid : s.buffers.lookup bufId = none)
    (size : Int) (unmoveable : Bool) :
    Linked (s.register bufId (Buffer.new size unmoveable)) := by
  have hnew : s.nextRef ∉ s.live := fun hmem => Nat.lt_irrefl _ (h.fresh _ hmem)
  constructor
  · simp only [Pool.register, List.map_append, List.map_cons, List.map_nil]
    apply List.nodup_append.mpr
    refine ⟨h.ids, List.nodup_singleton _, ?_⟩
    intro x hx y hy heq
    rcases List.mem_map.mp hx with ⟨entry, hentry, rfl⟩
    rw [List.mem_singleton.mp hy] at heq
    rcases entry with ⟨key, ref⟩
    simp only at heq
    subst heq
    exact not_mem_of_lookup_none hid ref hentry
  · simp only [Pool.live, Pool.register, List.map_append, List.map_cons, List.map_nil]
    apply List.nodup_append.mpr
    refine ⟨h.refs, List.nodup_singleton _, ?_⟩
    intro x hx y hy heq
    rw [List.mem_singleton.mp hy] at heq
    exact hnew (heq ▸ hx)
  · intro x hx
    simp only [Pool.live, Pool.register, List.map_append, List.map_cons, List.map_nil,
      List.mem_append, List.mem_singleton] at hx
    rcases hx with hx | rfl
    · exact Nat.lt_succ_of_lt (h.fresh x hx)
    · exact Nat.lt_succ_self _
  · exact h.offsets
  · exact h.mru
  · intro x
    by_cases hx : x = s.nextRef
    · subst hx
      have hfree : s.nextRef ∉ s.offsetList := fun hmem => hnew ((h.paged _).mp hmem).1
      simp [Pool.register, Buffer.new, hfree]
    · simpa [Pool.register, Pool.live, hx] using h.paged x

theorem bufCreate_step (h : Linked s) {size : Int} {arg : String} {rest : List String}
    (hid : s.buffers.lookup c.bufId = none) (hargs : c.args = some (arg :: rest))
    (hsize : int arg = some size) :
    Step s c (.create size (rest.length > 0)) (bufCreate c s) := by
  have hrun : bufCreate c s =
      pageInBuffer s.nextRef (s.register c.bufId (Buffer.new size (rest.length > 0))) := by
    simp [bufCreate, hid, hargs, firstArg, hsize, registerBuffer, Pool.register]
  rw [hrun]
  exact Step.create _ _ _ (pageInBuffer_cases (linked_register h hid _ _) _)

end Handlers

/-- A command is accepted and takes its step, or raises and changes nothing. -/
def Outcome (s : Pool) (c : Command) (result : EStateM.Result Exn Pool Unit) : Prop :=
  (∃ q, Accepts s c q ∧ Step s c q result) ∨
    (∀ q, ¬ Accepts s c q) ∧ ∃ e, result = .error e s

section Outcomes

variable {s : Pool} {c : Command}

theorem bufDestroy_outcome (h : Linked s) (hcmd : c.cmd = "destroy") :
    Outcome s c (bufDestroy c s) := by
  cases hargs : c.args with
  | some args =>
      refine Or.inr ⟨?_, .assertion, by simp [bufDestroy, hargs]⟩
      intro q hq
      cases hq <;> simp_all
  | none =>
      cases hid : s.buffers.lookup c.bufId with
      | none =>
          refine Or.inr ⟨?_, .key, by simp [bufDestroy, hargs, findBuffer_none hid]⟩
          intro q hq
          cases hq <;> simp_all
      | some r =>
          refine Or.inl ⟨_, Accepts.destroy hcmd hargs hid, ?_⟩
          rw [bufDestroy_eq h hargs hid]
          exact Step.destroy r

theorem bufAddUsecnt_outcome (hcmd : c.cmd = "add_usecnt") :
    Outcome s c (bufAddUsecnt c s) := by
  cases hargs : c.args with
  | some args =>
      refine Or.inr ⟨?_, .assertion, by simp [bufAddUsecnt, hargs]⟩
      intro q hq
      cases hq <;> simp_all
  | none =>
      cases hid : s.buffers.lookup c.bufId with
      | none =>
          refine Or.inr ⟨?_, .key, by simp [bufAddUsecnt, hargs, findBuffer_none hid]⟩
          intro q hq
          cases hq <;> simp_all
      | some r =>
          cases hidle : (s.heap r).inUse with
          | true =>
              refine Or.inr ⟨?_, .assertion, by
                simp [bufAddUsecnt, hargs, findBuffer_some hid, hidle]⟩
              intro q hq
              cases hq <;> simp_all
          | false =>
              refine Or.inl ⟨_, Accepts.addUsecnt hcmd hargs hid hidle, ?_⟩
              have hrun : bufAddUsecnt c s = .ok ⟨⟩ (s.setInUse r true) := by
                simp [bufAddUsecnt, hargs, findBuffer_some hid, hidle, Pool.setInUse,
                  Pool.setBuffer]
              rw [hrun]
              exact Step.addUsecnt r

theorem bufRemoveUsecnt_outcome (h : Linked s) (hcmd : c.cmd = "remove_usecnt") :
    Outcome s c (bufRemoveUsecnt c s) := by
  cases hargs : c.args with
  | some args =>
      refine Or.inr ⟨?_, .assertion, by simp [bufRemoveUsecnt, hargs]⟩
      intro q hq
      cases hq <;> simp_all
  | none =>
      cases hid : s.buffers.lookup c.bufId with
      | none =>
          refine Or.inr ⟨?_, .key, by simp [bufRemoveUsecnt, hargs, findBuffer_none hid]⟩
          intro q hq
          cases hq <;> simp_all
      | some r =>
          cases hbusy : (s.heap r).inUse with
          | false =>
              refine Or.inr ⟨?_, .assertion, by
                simp [bufRemoveUsecnt, hargs, findBuffer_some hid, hbusy]⟩
              intro q hq
              cases hq <;> simp_all
          | true =>
              refine Or.inl ⟨_, Accepts.removeUsecnt hcmd hargs hid hbusy, ?_⟩
              have hlinked := linked_setInUse h r false
              have hoffset : ((s.setInUse r false).heap r).offset = (s.heap r).offset := by
                simp [Pool.setInUse, Pool.setBuffer]
              rw [bufRemoveUsecnt_eq hargs hid hbusy]
              cases hcompact : s.compact with
              | false => exact Step.release r hcompact
              | true =>
                  cases hpaged : (s.heap r).offset with
                  | none =>
                      rw [if_pos rfl, compactBuffer_absent hlinked (hoffset.trans hpaged)]
                      exact Step.compactAbsent r hcompact hpaged
                  | some offset =>
                      rw [if_pos rfl, compactBuffer_paged hlinked (hoffset.trans hpaged)]
                      exact Step.compact r offset hcompact hpaged

theorem bufCreate_outcome (h : Linked s) (hcmd : c.cmd = "create") :
    Outcome s c (bufCreate c s) := by
  cases hid : s.buffers.lookup c.bufId with
  | some r =>
      refine Or.inr ⟨?_, .assertion, by simp [bufCreate, hid]⟩
      intro q hq
      cases hq <;> simp_all
  | none =>
      cases hargs : c.args with
      | none =>
          refine Or.inr ⟨?_, .type, by simp [bufCreate, hid, hargs, firstArg]⟩
          intro q hq
          cases hq <;> simp_all
      | some args =>
          cases args with
          | nil =>
              refine Or.inr ⟨?_, .index, by simp [bufCreate, hid, hargs, firstArg]⟩
              intro q hq
              cases hq <;> simp_all
          | cons arg rest =>
              cases hsize : int arg with
              | none =>
                  refine Or.inr ⟨?_, .value, by simp [bufCreate, hid, hargs, firstArg, hsize]⟩
                  intro q hq
                  cases hq <;> simp_all
              | some size =>
                  exact Or.inl ⟨_, Accepts.create hcmd hid hargs hsize,
                    bufCreate_step h hid hargs hsize⟩

theorem bufUse_outcome (h : Linked s) (hcmd : c.cmd = "use") : Outcome s c (bufUse c s) := by
  cases hargs : c.args with
  | some args =>
      refine Or.inr ⟨?_, .assertion, by simp [bufUse, hargs]⟩
      intro q hq
      cases hq <;> simp_all
  | none =>
      cases hid : s.buffers.lookup c.bufId with
      | none =>
          refine Or.inr ⟨?_, .key, by simp [bufUse, hargs, findBuffer_none hid]⟩
          intro q hq
          cases hq <;> simp_all
      | some r =>
          by_cases hmadv : (s.heap r).madv = "willneed"
          · exact Or.inl ⟨_, Accepts.use hcmd hargs hid hmadv, bufUse_step h hargs hid hmadv⟩
          · have hfalse : ((s.heap r).madv == "willneed") = false := by simp [hmadv]
            refine Or.inr ⟨?_, .assertion, by
              simp [bufUse, hargs, findBuffer_some hid, hfalse]⟩
            intro q hq
            cases hq <;> simp_all

theorem bufMadv_outcome (hcmd : c.cmd = "madv") : Outcome s c (bufMadv c s) := by
  cases hargs : c.args with
  | none =>
      refine Or.inr ⟨?_, .type, by simp [bufMadv, hargs, firstArg]⟩
      intro q hq
      cases hq <;> simp_all
  | some args =>
      cases args with
      | nil =>
          refine Or.inr ⟨?_, .index, by simp [bufMadv, hargs, firstArg]⟩
          intro q hq
          cases hq <;> simp_all
      | cons value rest =>
          cases hid : s.buffers.lookup c.bufId with
          | none =>
              refine Or.inr ⟨?_, .key, by simp [bufMadv, hargs, firstArg, findBuffer_none hid]⟩
              intro q hq
              cases hq <;> simp_all
          | some r =>
              refine Or.inl ⟨_, Accepts.madv hcmd hargs hid, ?_⟩
              have hrun : bufMadv c s =
                  .ok ⟨⟩ (s.setBuffer r { s.heap r with madv := value }) := by
                simp [bufMadv, hargs, firstArg, findBuffer_some hid, Pool.setBuffer]
              rw [hrun]
              exact Step.madv r value

theorem processCommand_handler {name : String} {handler : Command → M Unit}
    (hname : commands.lookup name = some handler) (hcmd : c.cmd = name) :
    processCommand c s = handler c s := by
  rw [processCommand, hcmd, hname]

theorem processCommand_unknown (hcmd : commands.lookup c.cmd = none) :
    processCommand c s = .error .key s := by
  rw [processCommand, hcmd]
  rfl

theorem processCommand_outcome (h : Linked s) (c : Command) :
    Outcome s c (processCommand c s) := by
  by_cases hdestroy : c.cmd = "destroy"
  · rw [processCommand_handler rfl hdestroy]
    exact bufDestroy_outcome h hdestroy
  by_cases hadd : c.cmd = "add_usecnt"
  · rw [processCommand_handler rfl hadd]
    exact bufAddUsecnt_outcome hadd
  by_cases hremove : c.cmd = "remove_usecnt"
  · rw [processCommand_handler rfl hremove]
    exact bufRemoveUsecnt_outcome h hremove
  by_cases hcreate : c.cmd = "create"
  · rw [processCommand_handler rfl hcreate]
    exact bufCreate_outcome h hcreate
  by_cases huse : c.cmd = "use"
  · rw [processCommand_handler rfl huse]
    exact bufUse_outcome h huse
  by_cases hmadv : c.cmd = "madv"
  · rw [processCommand_handler rfl hmadv]
    exact bufMadv_outcome hmadv
  · have hunknown : commands.lookup c.cmd = none := by
      apply List.lookup_eq_none_iff.mpr
      simp [commands, hdestroy, hadd, hremove, hcreate, huse, hmadv]
    refine Or.inr ⟨?_, .key, processCommand_unknown hunknown⟩
    intro q hq
    cases hq <;> simp_all

end Outcomes

end CmaPool.Python
