import CmaPool.Lib.Accounting
import CmaPool.Python.Runs

/-! The overflow counter is the total size of the buffers that are paged out. -/

namespace CmaPool.Python

open Accounting

/-- The sizes of the live buffers whose offset is `None`. -/
def Pool.absentSize (s : Pool) : Int :=
  total s.live (fun r => (s.heap r).offset.isNone) fun r => (s.heap r).size

structure Balanced (s : Pool) : Prop where
  linked : Linked s
  overflow : s.overflow = s.absentSize

section Change

variable {s : Pool} {r : Ref}

theorem Balanced.setBuffer (h : Balanced s) (buf : Buffer)
    (hoffset : buf.offset.isSome = (s.heap r).offset.isSome)
    (hsize : buf.size = (s.heap r).size) : Balanced (s.setBuffer r buf) where
  linked := linked_setBuffer h.linked r buf hoffset
  overflow := by
    rw [show (s.setBuffer r buf).overflow = s.overflow from rfl, h.overflow]
    apply total_congr
    · intro x _
      by_cases hx : x = r
      · subst hx
        simp [Pool.setBuffer, ← Option.not_isSome, hoffset]
      · simp [Pool.setBuffer, hx]
    · intro x _
      by_cases hx : x = r
      · subst hx
        simp [Pool.setBuffer, hsize]
      · simp [Pool.setBuffer, hx]

theorem Balanced.pageOut (h : Balanced s) {evicted : List Ref} (honce : evicted.Nodup)
    (hevicted : ∀ x ∈ evicted, x ∈ s.offsetList) : Balanced (s.pageOut evicted) where
  linked := h.linked.pageOut evicted
  overflow := by
    have hmoved : (s.pageOut evicted).absentSize =
        (evicted.map fun x => (s.heap x).size).sum + s.absentSize := by
      rw [Pool.absentSize, Pool.absentSize]
      simp only [pageOut_size, pageOut_live]
      apply total_moved h.linked.refs h.linked.refs honce
      · intro x hx _
        rcases h.linked.offset_of_mem (hevicted x hx) with ⟨offset, hoffset⟩
        simp [hoffset]
      · intro x
        by_cases hx : x ∈ evicted
        · have hlive := ((h.linked.paged x).mp (hevicted x hx)).1
          simp [hx, hlive, pageOut_offset_of_mem]
        · simp [hx, pageOut_heap_of_not_mem]
    rw [hmoved, ← h.overflow, add_comm]
    rfl

theorem Balanced.place (h : Balanced s) (hr : r ∈ s.live) (habsent : (s.heap r).offset = none)
    (spot : Int × Nat) : Balanced (s.place r spot) where
  linked := h.linked.place hr habsent spot
  overflow := by
    have hsize : ∀ x, ((s.place r spot).heap x).size = (s.heap x).size := by
      intro x
      by_cases hx : x = r
      · subst hx
        simp [Pool.place]
      · simp [Pool.place, hx]
    have hmoved : s.absentSize = ([r].map fun x => (s.heap x).size).sum +
        (s.place r spot).absentSize := by
      rw [Pool.absentSize, Pool.absentSize]
      simp only [hsize]
      apply total_moved h.linked.refs h.linked.refs (List.nodup_singleton r)
      · intro x hx _
        rw [List.mem_singleton.mp hx]
        simp [Pool.place]
      · intro x
        by_cases hx : x = r
        · subst hx
          simp [hr, habsent]
        · simp [hx, Pool.place, Pool.live]
    change s.overflow - (s.heap r).size = _
    rw [h.overflow, hmoved]
    simp

theorem Balanced.register (h : Balanced s) {bufId : Int}
    (hid : s.buffers.lookup bufId = none) (size : Int) (unmoveable : Bool) :
    Balanced (s.register bufId (Buffer.new size unmoveable)) where
  linked := linked_register h.linked hid size unmoveable
  overflow := by
    have hnew : s.nextRef ∉ s.live := fun hmem => Nat.lt_irrefl _ (h.linked.fresh _ hmem)
    have hlinked := linked_register h.linked hid size unmoveable
    have hold : ∀ x ∈ s.live,
        (s.register bufId (Buffer.new size unmoveable)).heap x = s.heap x := by
      intro x hx
      have hne : x ≠ s.nextRef := fun heq => hnew (heq ▸ hx)
      exact Function.update_of_ne hne _ _
    have hmoved : (s.register bufId (Buffer.new size unmoveable)).absentSize =
        ([s.nextRef].map fun x =>
          ((s.register bufId (Buffer.new size unmoveable)).heap x).size).sum +
        total s.live
          (fun x => ((s.register bufId (Buffer.new size unmoveable)).heap x).offset.isNone)
          fun x => ((s.register bufId (Buffer.new size unmoveable)).heap x).size := by
      apply total_moved h.linked.refs hlinked.refs (List.nodup_singleton _)
      · intro x hx hlive
        exact absurd (List.mem_singleton.mp hx ▸ hlive) hnew
      · intro x
        by_cases hx : x = s.nextRef
        · subst hx
          simp [Pool.register, Pool.live, Buffer.new]
        · simp [Pool.register, Pool.live, hx]
    have hrest : total s.live
        (fun x => ((s.register bufId (Buffer.new size unmoveable)).heap x).offset.isNone)
        (fun x => ((s.register bufId (Buffer.new size unmoveable)).heap x).size) =
        s.absentSize :=
      total_congr (fun x hx => by rw [hold x hx]) fun x hx => by rw [hold x hx]
    change s.overflow + size = _
    rw [hmoved, hrest, h.overflow]
    simp [Pool.register, Buffer.new, add_comm]

theorem Balanced.destroy (h : Balanced s) {bufId : Int} (hmem : (bufId, r) ∈ s.buffers) :
    Balanced (s.destroy bufId r) where
  linked := linked_destroy h.linked hmem
  overflow := by
    have hlive : r ∈ s.live := List.mem_map.mpr ⟨_, hmem, rfl⟩
    have hmoved : s.absentSize =
        (((if (s.heap r).offset.isNone then [r] else []).map fun x => (s.heap x).size).sum) +
          (s.destroy bufId r).absentSize := by
      apply total_moved (linked_destroy h.linked hmem).refs h.linked.refs
      · split <;> simp
      · intro x hx hkept
        have hne := ((mem_live_destroy h.linked hmem).mp hkept).2
        split at hx
        · exact absurd (List.mem_singleton.mp hx) hne
        · cases hx
      · intro x
        rw [mem_live_destroy h.linked hmem]
        by_cases hx : x = r
        · subst hx
          cases (s.heap x).offset <;> simp [hlive]
        · cases (s.heap r).offset <;> simp [hx, Pool.destroy]
    change (if (s.heap r).offset.isNone then s.overflow - (s.heap r).size else s.overflow) = _
    rw [h.overflow, hmoved]
    split <;> simp

end Change

section Step

variable {s : Pool} {c : Command}

theorem PageIn.balanced (h : Balanced s) {r : Ref} (hr : r ∈ s.live)
    {result : EStateM.Result Exn Pool Unit} (hin : PageIn s r result) :
    Balanced (stateOf result) := by
  cases hin with
  | resident _ => exact h
  | placed evicted spot habsent honce hevicted _ _ =>
      have hout := h.pageOut honce fun x hx => (hevicted x hx).1
      apply hout.place hr
      have hfree : r ∉ evicted := fun hmem => h.linked.absent habsent (hevicted r hmem).1
      rw [pageOut_heap_of_not_mem hfree]
      exact habsent
  | failed evicted _ honce hevicted _ => exact h.pageOut honce fun x hx => (hevicted x hx).1

theorem Balanced.setInUse (h : Balanced s) (r : Ref) (inUse : Bool) :
    Balanced (s.setInUse r inUse) := h.setBuffer _ rfl rfl

theorem Balanced.compacted (h : Balanced s) {r : Ref} {offset : Int}
    (hpaged : (s.heap r).offset = some offset) : Balanced (s.compacted r offset) := by
  rw [Pool.compacted]
  split
  · exact h.setBuffer _ (by simp [hpaged]) rfl
  · exact h

theorem Balanced.touch (h : Balanced s) {r : Ref} (hr : r ∈ s.offsetList) :
    Balanced (s.touch r) := ⟨linked_touch h.linked hr, h.overflow⟩

theorem Step.balanced (h : Balanced s) {q : Request} {result : EStateM.Result Exn Pool Unit}
    (haccepts : Accepts s c q) (hstep : Step s c q result) : Balanced (stateOf result) := by
  cases hstep with
  | destroy r =>
      cases haccepts with
      | destroy _ _ hid => exact h.destroy (mem_of_lookup hid)
  | addUsecnt r => exact h.setInUse r true
  | release r _ => exact h.setInUse r false
  | compact r offset _ hpaged =>
      apply (h.setInUse r false).compacted
      simpa [Pool.setInUse, Pool.setBuffer] using hpaged
  | compactAbsent r _ _ => exact h.setInUse r false
  | create size unmoveable _ hin =>
      cases haccepts with
      | create _ hid _ _ =>
          apply hin.balanced (h.register hid _ _)
          simp [Pool.live, Pool.register]
  | used r s' hin =>
      cases haccepts with
      | use _ _ hid _ =>
          have hlive := live_of_lookup hid
          have hin' : Balanced s' := hin.balanced h hlive
          rcases hin.live with ⟨hsame, hsome⟩
          exact hin'.touch ((hin'.linked.paged r).mpr ⟨hsame ▸ hlive, hsome⟩)
  | unused r e s' hin =>
      cases haccepts with
      | use _ _ hid _ => exact hin.balanced h (live_of_lookup hid)
  | madv r value => exact h.setBuffer _ rfl rfl

theorem step_balanced (h : Balanced s) (c : Command) : Balanced (step s c) := by
  rcases step_cases h.linked c with ⟨q, result, haccepts, hstep, heq⟩ | ⟨_, heq⟩
  · rw [heq]
    exact hstep.balanced h haccepts
  · rw [heq]
    exact h

theorem foldl_balanced (h : Balanced s) (history : List Command) :
    Balanced (history.foldl step s) := by
  induction history generalizing s with
  | nil => exact h
  | cons c history ih => exact ih (step_balanced h c)

end Step

theorem run_balanced (compact : Bool) (history : List Command) :
    Balanced (run compact history) :=
  foldl_balanced ⟨linked_new compact, rfl⟩ history

end CmaPool.Python
