import CmaPool.TestDrm.Runs

/-! What holds of the lists and the allocator between two lines. -/

namespace CmaPool.TestDrm

open Drm

/-- The addresses of a node. -/
def nodeRange (mm : DrmMm) (n : NodeRef) : Set Nat :=
  Set.Ico (mm.node n).start ((mm.node n).start + (mm.node n).size)

structure Invariant (data : Data) : Prop where
  names : (data.allBuffers.map fun p => (data.buf p).name).Nodup
  once : data.mruBuffers.Nodup
  mru : ∀ p, p ∈ data.mruBuffers ↔ p ∈ data.allBuffers ∧ (data.buf p).pagedIn = true
  nodeList : ∃ l, Ring.IsRing data.mm.nodeList .head l ∧
    ∀ n, n ∈ l ↔ (data.mm.node n).allocated = true
  allocated : ∀ p ∈ data.allBuffers,
    ((data.mm.node (.buf p)).allocated = true ↔ (data.buf p).pagedIn = true)
  owned : ∀ n, (data.mm.node n).allocated = true → ∃ p ∈ data.allBuffers, n = .buf p
  sizes : ∀ p ∈ data.allBuffers, (data.buf p).pagedIn = true →
    (data.mm.node (.buf p)).size = (data.buf p).size
  aligned : ∀ n, (data.mm.node n).allocated = true → pageSize ∣ (data.mm.node n).start
  inside : ∀ n, (data.mm.node n).allocated = true →
    (data.mm.node n).start + (data.mm.node n).size ≤ poolSize
  disjoint : ∀ n m, n ≠ m → (data.mm.node n).allocated = true →
    (data.mm.node m).allocated = true → Disjoint (nodeRange data.mm n) (nodeRange data.mm m)
  idle : data.mm.scanActive = 0
  unscanned : ∀ n, (data.mm.node n).scannedBlock = false

section Invariant

variable {data : Data} {l : List NodeRef}

theorem Placed.disjoint {mm : DrmMm} (h : Placed mm l) {n m : NodeRef} (hn : n ∈ l) (hm : m ∈ l)
    (hne : n ≠ m) : Disjoint (nodeRange mm n) (nodeRange mm m) := by
  have hends : l.Pairwise fun x y => Disjoint (nodeRange mm x) (nodeRange mm y) := by
    apply (List.pairwise_map.mp h.packed.pairwise).imp
    intro x y hends
    exact Gaps.disjoint_of_le hends
  have hsymm : Std.Symm fun x y => Disjoint (nodeRange mm x) (nodeRange mm y) :=
    ⟨fun _ _ hdisjoint => hdisjoint.symm⟩
  exact hends.forall hn hm hne

theorem Consistent.allocated_iff (h : Consistent data l) {p : Ptr} :
    (data.mm.node (.buf p)).allocated = true ↔ p ∈ data.mruBuffers := by
  rw [h.valid.allocated, h.mem_nodes]

theorem Consistent.owner (h : Consistent data l) {n : NodeRef}
    (hn : (data.mm.node n).allocated = true) : ∃ p ∈ data.mruBuffers, n = .buf p := by
  rw [h.valid.allocated, h.nodes.mem_iff, List.mem_map] at hn
  rcases hn with ⟨p, hp, rfl⟩
  exact ⟨p, hp, rfl⟩

theorem Consistent.invariant (h : Consistent data l) : Invariant data where
  names := h.names
  once := h.mruNodup
  mru := h.mru
  nodeList := ⟨l, h.valid.ring, fun n => (h.valid.allocated n).symm⟩
  allocated := by
    intro p hp
    rw [h.allocated_iff, h.mru]
    simp [hp]
  owned := by
    intro n hn
    rcases h.owner hn with ⟨p, hp, rfl⟩
    exact ⟨p, ((h.mru p).mp hp).1, rfl⟩
  sizes := fun p hp hpaged => h.sizes p (h.mem_mru hp hpaged)
  aligned := fun n hn => h.valid.aligned n ((h.valid.allocated n).mp hn)
  inside := fun n hn => h.valid.end_le ((h.valid.allocated n).mp hn)
  disjoint := fun n m hne hn hm =>
    Placed.disjoint h.valid.toPlaced ((h.valid.allocated n).mp hn) ((h.valid.allocated m).mp hm) hne
  idle := h.valid.idle
  unscanned := h.valid.unscanned

end Invariant

/-- After every line of every run that no assertion ends. -/
theorem run_invariant {lines : List Bytes} {data : Data} (hrun : run lines = .ok data) :
    Invariant data := by
  rcases (run_sound hrun).consistent with ⟨l, hcons⟩
  exact hcons.invariant

theorem run_invariant_evicting :
    ∃ data, run [text "[1] @@@ create 1 100000000\n", text "[2] @@@ create 2 30000001 x\n",
      text "[3] @@@ create 3 100000000\n", text "[4] @@@ create 4 134217728\n"] = .ok data ∧
      data.mruBuffers = [2, 1] ∧ data.allBuffers = [3, 2, 1, 0] ∧ Invariant data := by
  have hlists : (run [text "[1] @@@ create 1 100000000\n", text "[2] @@@ create 2 30000001 x\n",
      text "[3] @@@ create 3 100000000\n", text "[4] @@@ create 4 134217728\n"]).toOption.map
      (fun data => (data.mruBuffers, data.allBuffers)) = some ([2, 1], [3, 2, 1, 0]) := by
    decide +kernel
  rcases exists_run hlists with ⟨data, hrun, hlists⟩
  exact ⟨data, hrun, congrArg Prod.fst hlists, congrArg Prod.snd hlists, run_invariant hrun⟩

end CmaPool.TestDrm
