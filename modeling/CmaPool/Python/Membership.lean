import CmaPool.Lib.Eviction
import CmaPool.Python.Pool

/-! What the pool's primitives do while its lists agree with the offsets.

`Linked` ties `buffers`, `offset_list`, `mru_list` and the offset fields
together. In a linked pool no `list.remove` fails, and paging out and placing
have closed forms from which the handlers are read off. -/

namespace CmaPool.Python

section Monad

variable {α β : Type}

@[simp] theorem pure_apply (a : α) (s : Pool) : (pure a : M α) s = .ok a s := rfl

@[simp] theorem bind_apply (x : M α) (f : α → M β) (s : Pool) :
    (x >>= f) s = match x s with
      | .ok a s' => f a s'
      | .error e s' => .error e s' := by
  change EStateM.bind x f s = _
  unfold EStateM.bind
  cases x s <;> rfl

@[simp] theorem get_apply (s : Pool) : (get : M Pool) s = .ok s s := rfl

@[simp] theorem set_apply (s s' : Pool) : (set s' : M PUnit) s = .ok ⟨⟩ s' := rfl

@[simp] theorem modify_apply (f : Pool → Pool) (s : Pool) :
    (modify f : M PUnit) s = .ok ⟨⟩ (f s) := rfl

@[simp] theorem throw_apply (e : Exn) (s : Pool) : (throw e : M α) s = .error e s := rfl

@[simp] theorem getBuffer_apply (r : Ref) (s : Pool) : getBuffer r s = .ok (s.heap r) s := rfl

@[simp] theorem modifyBuffer_apply (r : Ref) (f : Buffer → Buffer) (s : Pool) :
    modifyBuffer r f s =
      .ok ⟨⟩ { s with heap := Function.update s.heap r (f (s.heap r)) } := rfl

theorem getOffset_some {r : Ref} {s : Pool} {offset : Int}
    (h : (s.heap r).offset = some offset) : getOffset r s = .ok offset s := by
  simp [getOffset, h]

theorem getOffset_none {r : Ref} {s : Pool} (h : (s.heap r).offset = none) :
    getOffset r s = .error .type s := by
  simp [getOffset, h]

end Monad

def Pool.live (s : Pool) : List Ref := s.buffers.map Prod.snd

def Buffer.pinned (buf : Buffer) : Bool := buf.inUse || buf.unmoveable

structure Linked (s : Pool) : Prop where
  ids : (s.buffers.map Prod.fst).Nodup
  refs : s.live.Nodup
  fresh : ∀ r ∈ s.live, r < s.nextRef
  offsets : s.offsetList.Nodup
  mru : s.mruList.Perm s.offsetList
  paged : ∀ r, r ∈ s.offsetList ↔ r ∈ s.live ∧ (s.heap r).offset.isSome = true

theorem Linked.mruNodup {s : Pool} (h : Linked s) : s.mruList.Nodup :=
  h.mru.nodup_iff.mpr h.offsets

theorem linked_new (compact : Bool) : Linked (Pool.new compact) := by
  constructor <;> simp [Pool.new, Pool.live]

theorem Linked.offset_of_mem {s : Pool} (h : Linked s) {r : Ref} (hr : r ∈ s.offsetList) :
    ∃ offset, (s.heap r).offset = some offset :=
  Option.isSome_iff_exists.mp ((h.paged r).mp hr).2

theorem Linked.absent {s : Pool} (h : Linked s) {r : Ref} (habsent : (s.heap r).offset = none) :
    r ∉ s.offsetList := by
  intro hmem
  have hsome := ((h.paged r).mp hmem).2
  simp [habsent] at hsome

def Pool.setBuffer (s : Pool) (r : Ref) (buf : Buffer) : Pool :=
  { s with heap := Function.update s.heap r buf }

/-- A change of one buffer that leaves it paged in or paged out as it was. -/
theorem linked_setBuffer {s : Pool} (h : Linked s) (r : Ref) (buf : Buffer)
    (hoffset : buf.offset.isSome = (s.heap r).offset.isSome) : Linked (s.setBuffer r buf) where
  ids := h.ids
  refs := h.refs
  fresh := h.fresh
  offsets := h.offsets
  mru := h.mru
  paged := by
    intro x
    by_cases hx : x = r
    · subst hx
      simpa [Pool.setBuffer, Pool.live, hoffset] using h.paged x
    · simpa [Pool.setBuffer, Pool.live, hx] using h.paged x

/-- The pool after the buffers of `evicted` were paged out in that order. -/
def Pool.pageOut (s : Pool) (evicted : List Ref) : Pool :=
  { s with
    heap := fun r => if r ∈ evicted then { s.heap r with offset := none } else s.heap r
    mruList := s.mruList.filter (· ∉ evicted)
    offsetList := s.offsetList.filter (· ∉ evicted)
    overflow := s.overflow + (evicted.map fun r => (s.heap r).size).sum }

section PageOut

variable {s : Pool}

@[simp] theorem pageOut_buffers (evicted : List Ref) :
    (s.pageOut evicted).buffers = s.buffers := rfl

@[simp] theorem pageOut_live (evicted : List Ref) : (s.pageOut evicted).live = s.live := rfl

@[simp] theorem pageOut_compact (evicted : List Ref) :
    (s.pageOut evicted).compact = s.compact := rfl

@[simp] theorem pageOut_nextRef (evicted : List Ref) :
    (s.pageOut evicted).nextRef = s.nextRef := rfl

@[simp] theorem pageOut_size (evicted : List Ref) (r : Ref) :
    ((s.pageOut evicted).heap r).size = (s.heap r).size := by
  simp only [Pool.pageOut]
  split <;> rfl

@[simp] theorem pageOut_madv (evicted : List Ref) (r : Ref) :
    ((s.pageOut evicted).heap r).madv = (s.heap r).madv := by
  simp only [Pool.pageOut]
  split <;> rfl

@[simp] theorem pageOut_inUse (evicted : List Ref) (r : Ref) :
    ((s.pageOut evicted).heap r).inUse = (s.heap r).inUse := by
  simp only [Pool.pageOut]
  split <;> rfl

@[simp] theorem pageOut_unmoveable (evicted : List Ref) (r : Ref) :
    ((s.pageOut evicted).heap r).unmoveable = (s.heap r).unmoveable := by
  simp only [Pool.pageOut]
  split <;> rfl

@[simp] theorem pageOut_pinned (evicted : List Ref) (r : Ref) :
    ((s.pageOut evicted).heap r).pinned = (s.heap r).pinned := by
  simp [Buffer.pinned]

@[simp] theorem pageOut_purgeable (evicted : List Ref) (r : Ref) :
    ((s.pageOut evicted).heap r).purgeable = (s.heap r).purgeable := by
  simp [Buffer.purgeable]

theorem pageOut_heap_of_not_mem {evicted : List Ref} {r : Ref} (h : r ∉ evicted) :
    (s.pageOut evicted).heap r = s.heap r := if_neg h

theorem pageOut_offset_of_mem {evicted : List Ref} {r : Ref} (h : r ∈ evicted) :
    ((s.pageOut evicted).heap r).offset = none := by
  simp [Pool.pageOut, h]

theorem pageOut_nil : s.pageOut [] = s := by
  simp [Pool.pageOut]

theorem pageOut_append (first second : List Ref) :
    (s.pageOut first).pageOut second = s.pageOut (first ++ second) := by
  have hheap : ((s.pageOut first).pageOut second).heap = (s.pageOut (first ++ second)).heap := by
    funext r
    by_cases hfirst : r ∈ first <;> by_cases hsecond : r ∈ second <;>
      simp [Pool.pageOut, hfirst, hsecond]
  have hover : ((s.pageOut first).pageOut second).overflow =
      (s.pageOut (first ++ second)).overflow := by
    have hsizes : (second.map fun r => ((s.pageOut first).heap r).size) =
        second.map fun r => (s.heap r).size := by
      simp
    change (s.pageOut first).overflow + _ = _
    rw [hsizes]
    simp [Pool.pageOut, add_assoc]
  have hfilter : ∀ l : List Ref, (l.filter (· ∉ first)).filter (· ∉ second) =
      l.filter (· ∉ first ++ second) := by
    intro l
    rw [List.filter_filter]
    apply List.filter_congr
    intro r _
    simp [Bool.and_comm]
  change Pool.mk _ _ _ _ _ _ _ = Pool.mk _ _ _ _ _ _ _
  congr 1
  · exact hfilter _
  · exact hfilter _

theorem Linked.pageOut (h : Linked s) (evicted : List Ref) : Linked (s.pageOut evicted) where
  ids := h.ids
  refs := h.refs
  fresh := h.fresh
  offsets := h.offsets.filter _
  mru := h.mru.filter _
  paged := by
    intro r
    by_cases hr : r ∈ evicted
    · simp [Pool.pageOut, hr]
    · simpa [Pool.pageOut, Pool.live, hr] using h.paged r

theorem erase_eq_filter_not_mem {l : List Ref} (h : l.Nodup) (r : Ref) :
    l.erase r = l.filter (· ∉ [r]) := by
  rw [h.erase_eq_filter]
  apply List.filter_congr
  intro x _
  by_cases hx : x = r <;> simp [hx]

theorem removeBufferFromPool_eq (h : Linked s) {r : Ref} (hr : r ∈ s.offsetList) :
    removeBufferFromPool r s = .ok ⟨⟩ (s.pageOut [r]) := by
  have hmru : r ∈ s.mruList := h.mru.mem_iff.mpr hr
  simp only [removeBufferFromPool, offsetListRemove, mruListRemove, bind_apply, get_apply,
    if_pos hr, if_pos hmru, set_apply, modifyBuffer_apply, modify_apply]
  congr 1
  change Pool.mk _ _ _ _ _ _ _ = Pool.mk _ _ _ _ _ _ _
  congr 1
  · funext x
    by_cases hx : x = r
    · subst hx
      simp
    · simp [hx]
  · exact erase_eq_filter_not_mem h.mruNodup r
  · exact erase_eq_filter_not_mem h.offsets r
  · simp

end PageOut

end CmaPool.Python
