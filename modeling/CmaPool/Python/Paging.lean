import CmaPool.Lib.Eviction
import CmaPool.Python.Membership

/-! Eviction, purge and insertion in a linked pool. -/

namespace CmaPool.Python

/-- The buffers eviction may take, least recently used first. -/
def Pool.lruCandidates (s : Pool) : List Ref :=
  (s.mruList.filter fun r => !(s.heap r).pinned).reverse

/-- The buffers the purge takes. -/
def Pool.purgeList (s : Pool) : List Ref :=
  s.offsetList.filter fun r => (s.heap r).purgeable

section Eviction

variable {s : Pool}

theorem pageOutLruLoop_eq (h : Linked s) (pos : Nat) (hpos : pos ≤ s.mruList.length) :
    pageOutLruLoop pos s =
      match ((s.mruList.take pos).filter fun r => !(s.heap r).pinned).reverse with
      | [] => .ok false s
      | r :: _ => .ok true (s.pageOut [r]) := by
  induction pos with
  | zero => rfl
  | succ pos ih =>
      have hlt : pos < s.mruList.length := by omega
      have hget : s.mruList[pos]? = some s.mruList[pos] := List.getElem?_eq_getElem hlt
      have hmem : s.mruList[pos] ∈ s.offsetList := h.mru.mem_iff.mp (List.getElem_mem hlt)
      simp only [pageOutLruLoop, bind_apply, get_apply, hget, getBuffer_apply]
      rw [List.take_add_one, hget, Option.toList_some, List.filter_append, List.reverse_append]
      by_cases hpinned : (s.heap s.mruList[pos]).pinned = true
      · have hskip : ((s.heap s.mruList[pos]).inUse || (s.heap s.mruList[pos]).unmoveable) = true :=
          hpinned
        rw [if_pos hskip, ih (by omega)]
        simp [hpinned]
      · have htake :
            ¬((s.heap s.mruList[pos]).inUse || (s.heap s.mruList[pos]).unmoveable) = true :=
          hpinned
        rw [if_neg htake, bind_apply, removeBufferFromPool_eq h hmem]
        simp [hpinned]

theorem pageOutLruBuffer_eq (h : Linked s) :
    pageOutLruBuffer s =
      match s.lruCandidates with
      | [] => .ok false s
      | r :: _ => .ok true (s.pageOut [r]) := by
  have hloop := pageOutLruLoop_eq h s.mruList.length le_rfl
  rw [List.take_length] at hloop
  exact hloop

theorem mem_lruCandidates (h : Linked s) {r : Ref} :
    r ∈ s.lruCandidates ↔ r ∈ s.offsetList ∧ (s.heap r).pinned = false := by
  simp [Pool.lruCandidates, h.mru.mem_iff]

theorem lruCandidates_nodup (h : Linked s) : s.lruCandidates.Nodup :=
  List.nodup_reverse.mpr (h.mruNodup.filter _)

theorem lruCandidates_pageOut (evicted : List Ref) :
    (s.pageOut evicted).lruCandidates = s.lruCandidates.filter (· ∉ evicted) := by
  simp only [Pool.lruCandidates, pageOut_pinned, List.filter_reverse]
  simp only [Pool.pageOut, List.filter_filter]
  congr 1
  apply List.filter_congr
  intro r _
  simp [Bool.and_comm]

theorem purgeLoop_eq (h : Linked s) (fuel : Nat) (front back : List Ref)
    (hsplit : s.offsetList = front ++ back) (hfuel : back.length < fuel) :
    purgeLoop fuel front.length s =
      .ok ⟨⟩ (s.pageOut (back.filter fun r => (s.heap r).purgeable)) := by
  induction back generalizing s front fuel with
  | nil =>
      cases fuel with
      | zero => simp at hfuel
      | succ fuel => simp [purgeLoop, hsplit, pageOut_nil]
  | cons r back ih =>
      cases fuel with
      | zero => simp at hfuel
      | succ fuel =>
          have hlen : back.length < fuel := by simpa using hfuel
          have hget : s.offsetList[front.length]? = some r := by simp [hsplit]
          have hmem : r ∈ s.offsetList := by simp [hsplit]
          simp only [purgeLoop, bind_apply, get_apply, hget, getBuffer_apply]
          by_cases hpurge : (s.heap r).purgeable = true
          · have hnodup := h.offsets
            rw [hsplit, List.nodup_middle, List.nodup_cons, List.mem_append] at hnodup
            have hrest : (s.pageOut [r]).offsetList = front ++ back := by
              simp only [Pool.pageOut, hsplit, List.filter_append]
              rw [List.filter_cons_of_neg (by simp)]
              rw [List.filter_eq_self.mpr, List.filter_eq_self.mpr]
              · intro x hx
                have hne : x ≠ r := fun heq => hnodup.1 (Or.inr (heq ▸ hx))
                simp [hne]
              · intro x hx
                have hne : x ≠ r := fun heq => hnodup.1 (Or.inl (heq ▸ hx))
                simp [hne]
            rw [if_pos hpurge, bind_apply, removeBufferFromPool_eq h hmem]
            simp only []
            rw [ih (h.pageOut [r]) fuel front hrest hlen]
            simp [pageOut_append, hpurge]
          · have hnext := ih h fuel (front ++ [r]) (by simp [hsplit]) hlen
            rw [List.length_append, List.length_singleton] at hnext
            rw [if_neg hpurge, hnext]
            simp [hpurge]

theorem purgeUserspaceCache_eq (h : Linked s) :
    purgeUserspaceCache s = .ok ⟨⟩ (s.pageOut s.purgeList) := by
  have hloop := purgeLoop_eq h (s.offsetList.length + 1) [] s.offsetList rfl (by omega)
  exact hloop

end Eviction

def Buffer.block (buf : Buffer) : Int × Int :=
  (buf.offset.getD 0, buf.offset.getD 0 + buf.size)

def Pool.blocks (s : Pool) : List (Int × Int) := s.offsetList.map fun r => (s.heap r).block

/-- The offset and list position the first-fit pass settles on. -/
def firstFit (size : Int) (lastOffset : Int) (pos : Nat) : List (Int × Int) → Option (Int × Nat)
  | [] => if lastOffset + size ≤ poolSize then some (lastOffset, pos) else none
  | block :: blocks =>
      if block.1 - lastOffset ≥ size then some (lastOffset, pos)
      else firstFit size block.2 (pos + 1) blocks

def Pool.place (s : Pool) (r : Ref) (spot : Int × Nat) : Pool :=
  { s with
    heap := Function.update s.heap r { s.heap r with offset := some spot.1 }
    offsetList := listInsert s.offsetList spot.2 r
    mruList := r :: s.mruList
    overflow := s.overflow - (s.heap r).size }

def Pool.firstFit (s : Pool) (size : Int) : Option (Int × Nat) :=
  Python.firstFit size 0 0 s.blocks

section Insertion

variable {s : Pool}

theorem insertBufferAt_eq (offset : Int) (pos : Nat) (r : Ref) :
    insertBufferAt offset pos r s = .ok ⟨⟩ (s.place r (offset, pos)) := by
  simp [insertBufferAt, Pool.place]

theorem insertBufferLoop_eq (r : Ref) (front back : List Ref)
    (hsplit : s.offsetList = front ++ back)
    (hoffset : ∀ x ∈ back, (s.heap x).offset.isSome = true) (lastOffset : Int) :
    insertBufferLoop r lastOffset front.length back s =
      match firstFit (s.heap r).size lastOffset front.length
          (back.map fun x => (s.heap x).block) with
      | some spot => .ok true (s.place r spot)
      | none => .ok false s := by
  induction back generalizing front lastOffset with
  | nil =>
      have hlen : s.offsetList.length = front.length := by simp [hsplit]
      simp only [insertBufferLoop, List.map_nil, firstFit, bind_apply, getBuffer_apply]
      by_cases hfit : lastOffset + (s.heap r).size ≤ poolSize
      · rw [if_pos hfit, if_pos hfit]
        simp only [bind_apply, get_apply, insertBufferAt_eq, pure_apply, hlen]
      · rw [if_neg hfit, if_neg hfit]
        rfl
  | cons other back ih =>
      rcases Option.isSome_iff_exists.mp (hoffset other List.mem_cons_self) with ⟨offset, hother⟩
      have hblock : (s.heap other).block = (offset, offset + (s.heap other).size) := by
        simp [Buffer.block, hother]
      simp only [insertBufferLoop, List.map_cons, firstFit, bind_apply, getBuffer_apply,
        getOffset_some hother, hblock]
      by_cases hfit : offset - lastOffset ≥ (s.heap r).size
      · rw [if_pos hfit, if_pos hfit]
        simp only [bind_apply, insertBufferAt_eq, pure_apply]
      · have hnext := ih (front ++ [other]) (by simp [hsplit])
          (fun x hx => hoffset x (List.mem_cons_of_mem _ hx)) (offset + (s.heap other).size)
        rw [List.length_append, List.length_singleton] at hnext
        rw [if_neg hfit, if_neg hfit]
        exact hnext

theorem insertBuffer_eq (h : Linked s) (r : Ref) :
    insertBuffer r s =
      match s.firstFit (s.heap r).size with
      | some spot => .ok true (s.place r spot)
      | none => .ok false s :=
  insertBufferLoop_eq r [] s.offsetList rfl (fun x hx => ((h.paged x).mp hx).2) 0

theorem Linked.place (h : Linked s) {r : Ref} (hr : r ∈ s.live)
    (habsent : (s.heap r).offset = none) (spot : Int × Nat) : Linked (s.place r spot) := by
  have hfree := h.absent habsent
  have hperm : (listInsert s.offsetList spot.2 r).Perm (r :: s.offsetList) := by
    have hmiddle := @List.perm_middle _ r (s.offsetList.take spot.2) (s.offsetList.drop spot.2)
    rwa [List.take_append_drop] at hmiddle
  constructor
  · exact h.ids
  · exact h.refs
  · exact h.fresh
  · exact hperm.nodup_iff.mpr (List.nodup_cons.mpr ⟨hfree, h.offsets⟩)
  · exact (h.mru.cons r).trans hperm.symm
  · intro x
    change x ∈ listInsert s.offsetList spot.2 r ↔ _
    rw [hperm.mem_iff, List.mem_cons, h.paged x]
    by_cases hx : x = r
    · subst hx
      simpa [Pool.place, Pool.live] using hr
    · simp [Pool.place, Pool.live, hx]

end Insertion

section PageIn

variable {s : Pool}

/-- The pool with `r` placed by first fit, if it fits. -/
def Pool.placeFirst (s : Pool) (r : Ref) : Pool :=
  match s.firstFit (s.heap r).size with
  | some spot => s.place r spot
  | none => s

/-- The buffers `_page_in_buffer` pages out for a buffer of this size, in order;
`none` where it runs out of candidates. -/
def Pool.evictionPlan (s : Pool) (size : Int) : Option (List Ref) :=
  if (s.firstFit size).isSome then some []
  else Eviction.takeUntil (fun evicted => ((s.pageOut evicted).firstFit size).isSome = true)
    s.purgeList (s.pageOut s.purgeList).lruCandidates

/-- Everything the pool can page out. -/
def Pool.evictable (s : Pool) : List Ref :=
  s.purgeList ++ (s.pageOut s.purgeList).lruCandidates

theorem pageInLoop_placed (h : Linked s) {r : Ref} {evicted : List Ref} {spot : Int × Nat}
    (hfit : (s.pageOut evicted).firstFit (s.heap r).size = some spot) (fuel : Nat) :
    pageInLoop r (fuel + 1) (s.pageOut evicted) = .ok ⟨⟩ ((s.pageOut evicted).placeFirst r) := by
  simp only [pageInLoop, bind_apply, insertBuffer_eq (h.pageOut evicted), pageOut_size, hfit]
  simp [Pool.placeFirst, hfit]

theorem pageInLoop_eq (h : Linked s) (r : Ref) (fuel : Nat) (evicted cands : List Ref)
    (hcands : (s.pageOut evicted).lruCandidates = cands) (hfuel : cands.length < fuel) :
    pageInLoop r fuel (s.pageOut evicted) =
      match Eviction.takeUntil
          (fun evicted => ((s.pageOut evicted).firstFit (s.heap r).size).isSome = true)
          evicted cands with
      | some evicted => .ok ⟨⟩ ((s.pageOut evicted).placeFirst r)
      | none => .error (.noSpace (s.heap r).size) (s.pageOut (evicted ++ cands)) := by
  induction cands generalizing evicted fuel with
  | nil =>
      cases fuel with
      | zero => simp at hfuel
      | succ fuel =>
          cases hfit : (s.pageOut evicted).firstFit (s.heap r).size with
          | some spot =>
              rw [Eviction.takeUntil_of_enough (by simp [hfit]), pageInLoop_placed h hfit]
          | none =>
              rw [Eviction.takeUntil_nil (by simp [hfit])]
              simp only [pageInLoop, bind_apply, insertBuffer_eq (h.pageOut evicted), pageOut_size,
                hfit]
              simp [pageOutLruBuffer_eq (h.pageOut evicted), hcands]
  | cons c cands ih =>
      cases fuel with
      | zero => simp at hfuel
      | succ fuel =>
          cases hfit : (s.pageOut evicted).firstFit (s.heap r).size with
          | some spot =>
              rw [Eviction.takeUntil_of_enough (by simp [hfit]), pageInLoop_placed h hfit]
          | none =>
              have hnodup := lruCandidates_nodup (h.pageOut evicted)
              rw [hcands, List.nodup_cons] at hnodup
              have hrest : (s.pageOut (evicted ++ [c])).lruCandidates = cands := by
                rw [← pageOut_append, lruCandidates_pageOut, hcands,
                  List.filter_cons_of_neg (by simp), List.filter_eq_self]
                intro x hx
                have hne : x ≠ c := fun heq => hnodup.1 (heq ▸ hx)
                simp [hne]
              have hnext := ih fuel (evicted ++ [c]) hrest (by simpa using hfuel)
              rw [Eviction.takeUntil_cons (by simp [hfit])]
              simp only [pageInLoop, bind_apply, insertBuffer_eq (h.pageOut evicted), pageOut_size,
                hfit, pageOutLruBuffer_eq (h.pageOut evicted), hcands, pageOut_append,
                Bool.false_eq_true, if_false, if_true]
              rw [hnext, List.append_assoc, List.singleton_append]

theorem pageInBuffer_eq (h : Linked s) {r : Ref} (habsent : (s.heap r).offset = none) :
    pageInBuffer r s =
      match s.evictionPlan (s.heap r).size with
      | some evicted => .ok ⟨⟩ ((s.pageOut evicted).placeFirst r)
      | none => .error (.noSpace (s.heap r).size) (s.pageOut s.evictable) := by
  simp only [pageInBuffer, bind_apply, getBuffer_apply, habsent, Option.isSome_none,
    Bool.false_eq_true, if_false, insertBuffer_eq h, Pool.evictionPlan]
  cases hfit : s.firstFit (s.heap r).size with
  | some spot => simp [Pool.placeFirst, pageOut_nil, hfit]
  | none =>
      have hloop := pageInLoop_eq h r ((s.pageOut s.purgeList).mruList.length + 1) s.purgeList
        (s.pageOut s.purgeList).lruCandidates rfl (by
          simp only [Pool.lruCandidates, List.length_reverse]
          exact Nat.lt_succ_of_le (List.length_filter_le _ _))
      simp only [Bool.false_eq_true, if_false, bind_apply, purgeUserspaceCache_eq h, get_apply,
        hloop, Option.isSome_none]
      rfl

theorem mem_purgeList {r : Ref} (hr : r ∈ s.purgeList) :
    r ∈ s.offsetList ∧ (s.heap r).pinned = false := by
  rw [Pool.purgeList, List.mem_filter] at hr
  refine ⟨hr.1, ?_⟩
  have hpurge := hr.2
  simp only [Buffer.purgeable, Bool.and_eq_true, Bool.not_eq_true'] at hpurge
  simp [Buffer.pinned, hpurge.1.2, hpurge.2]

theorem mem_evictable (h : Linked s) {r : Ref} (hr : r ∈ s.evictable) :
    r ∈ s.offsetList ∧ (s.heap r).pinned = false := by
  rcases List.mem_append.mp hr with hr | hr
  · exact mem_purgeList hr
  · rw [lruCandidates_pageOut, List.mem_filter] at hr
    exact (mem_lruCandidates h).mp hr.1

theorem evictable_nodup (h : Linked s) : s.evictable.Nodup := by
  apply List.nodup_append.mpr
  refine ⟨h.offsets.filter _, lruCandidates_nodup (h.pageOut _), ?_⟩
  intro x hx y hy heq
  rw [lruCandidates_pageOut, List.mem_filter] at hy
  exact absurd (heq ▸ hx) (by simpa using hy.2)

/-- What `_page_in_buffer` can do to a linked pool. -/
inductive PageIn (s : Pool) (r : Ref) : EStateM.Result Exn Pool Unit → Prop
  | resident (hpaged : (s.heap r).offset.isSome = true) : PageIn s r (.ok ⟨⟩ s)
  | placed (evicted : List Ref) (spot : Int × Nat)
      (habsent : (s.heap r).offset = none)
      (honce : evicted.Nodup)
      (hevicted : ∀ x ∈ evicted, x ∈ s.offsetList ∧ (s.heap x).pinned = false)
      (hfull : evicted = [] ∨ s.firstFit (s.heap r).size = none)
      (hspot : (s.pageOut evicted).firstFit (s.heap r).size = some spot) :
      PageIn s r (.ok ⟨⟩ ((s.pageOut evicted).place r spot))
  | failed (evicted : List Ref)
      (habsent : (s.heap r).offset = none)
      (honce : evicted.Nodup)
      (hevicted : ∀ x ∈ evicted, x ∈ s.offsetList ∧ (s.heap x).pinned = false)
      (hfull : s.firstFit (s.heap r).size = none) :
      PageIn s r (.error (.noSpace (s.heap r).size) (s.pageOut evicted))

theorem pageInBuffer_cases (h : Linked s) (r : Ref) : PageIn s r (pageInBuffer r s) := by
  cases habsent : (s.heap r).offset with
  | some offset =>
      have hsome : (s.heap r).offset.isSome = true := by simp [habsent]
      have hstay : pageInBuffer r s = .ok ⟨⟩ s := by
        simp [pageInBuffer, hsome]
      rw [hstay]
      exact PageIn.resident hsome
  | none =>
      rw [pageInBuffer_eq h habsent]
      by_cases hfit : (s.firstFit (s.heap r).size).isSome = true
      · rcases Option.isSome_iff_exists.mp hfit with ⟨spot, hspot⟩
        have hplaced := PageIn.placed [] spot habsent List.nodup_nil (by simp) (Or.inl rfl)
          (by rw [pageOut_nil]; exact hspot)
        simpa [Pool.evictionPlan, hspot, Pool.placeFirst, pageOut_nil] using hplaced
      · have hfull : s.firstFit (s.heap r).size = none := by simpa using hfit
        simp only [Pool.evictionPlan, if_neg hfit]
        cases hplan : Eviction.takeUntil
            (fun evicted => ((s.pageOut evicted).firstFit (s.heap r).size).isSome = true)
            s.purgeList (s.pageOut s.purgeList).lruCandidates with
        | none =>
            exact PageIn.failed _ habsent (evictable_nodup h) (fun x hx => mem_evictable h hx) hfull
        | some evicted =>
            rcases Eviction.takeUntil_some hplan with ⟨front, hfront, rfl, henough⟩
            rcases Option.isSome_iff_exists.mp henough with ⟨spot, hspot⟩
            have hevicted : ∀ x ∈ s.purgeList ++ front,
                x ∈ s.offsetList ∧ (s.heap x).pinned = false := by
              intro x hx
              apply mem_evictable h
              rcases List.mem_append.mp hx with hx | hx
              · exact List.mem_append_left _ hx
              · exact List.mem_append_right _ (hfront.subset hx)
            have honce : (s.purgeList ++ front).Nodup :=
              (evictable_nodup h).sublist (hfront.sublist.append_left _)
            have hplaced := PageIn.placed _ spot habsent honce hevicted (Or.inr hfull) hspot
            simpa [Pool.placeFirst, hspot] using hplaced

theorem PageIn.linked (h : Linked s) {r : Ref} (hr : r ∈ s.live)
    {result : EStateM.Result Exn Pool Unit} (hin : PageIn s r result) :
    Linked (stateOf result) := by
  cases hin with
  | resident _ => exact h
  | placed evicted spot habsent _ hevicted _ _ =>
      refine (h.pageOut evicted).place hr ?_ spot
      have hfree : r ∉ evicted := fun hmem => h.absent habsent (hevicted r hmem).1
      rw [pageOut_heap_of_not_mem hfree]
      exact habsent
  | failed evicted _ _ _ _ => exact h.pageOut evicted

end PageIn

end CmaPool.Python
