import CmaPool.Drm.TreeSteps

/-! Runs of the allocator on its trees.

A run of calls that keeps to the contract of drm_mm.h returns on the trees what it
returns on the lists. The scan calls are not among them: they read no tree. -/

namespace CmaPool.Drm

open Rbtree RbRoot

/-- The calls that change what the trees hold or depend on. -/
inductive TreeCall
  | clear (n : NodeRef)
  | insert (n : NodeRef) (size : Nat) (mode : InsertMode)
  | remove (n : NodeRef)
  deriving DecidableEq

def DrmMm.call (mm : DrmMm) : TreeCall → Except Bug (Int × DrmMm)
  | .clear n => pure (0, mm.clearNode n)
  | .insert n size mode => mm.insertNodeGeneric n size pageSize mode
  | .remove n => do return (0, ← mm.removeNode n)

def TreeMm.call (t : TreeMm) (fuel : Nat) : TreeCall → Except Bug (Int × TreeMm)
  | .clear n => pure (0, t.clearNode n)
  | .insert n size mode => t.insertNodeGeneric fuel n size pageSize mode
  | .remove n => do return (0, ← t.removeNode fuel n)

def TreeMm.runCalls (t : TreeMm) (fuel : Nat) : List TreeCall → Except Bug (List Int × TreeMm)
  | [] => pure ([], t)
  | call :: calls => do
      let (ret, t) ← t.call fuel call
      let (rets, t) ← runCalls t fuel calls
      return (ret :: rets, t)

/-- A node goes in while it is not allocated, and out while it is. -/
def TreeCall.Legal (mm : DrmMm) : TreeCall → Prop
  | clear n => n ≠ .head ∧ (mm.node n).allocated = false
  | insert n _ _ => n ≠ .head ∧ (mm.node n).allocated = false
  | remove n => (mm.node n).allocated = true

/-- The calls lead from one state of the allocator on lists to another, each legal where
it is made, and return `rets`. -/
inductive CallRun : DrmMm → List TreeCall → List Int → DrmMm → Prop
  | nil (mm : DrmMm) : CallRun mm [] [] mm
  | cons {mm mm₁ mm₂ : DrmMm} {call : TreeCall} {calls : List TreeCall} {ret : Int}
      {rets : List Int} (hlegal : call.Legal mm) (hcall : mm.call call = .ok (ret, mm₁))
      (hrest : CallRun mm₁ calls rets mm₂) : CallRun mm (call :: calls) (ret :: rets) mm₂

theorem CallRun.trans {mm mm₁ mm₂ : DrmMm} {calls calls' : List TreeCall} {rets rets' : List Int}
    (h : CallRun mm calls rets mm₁) (h' : CallRun mm₁ calls' rets' mm₂) :
    CallRun mm (calls ++ calls') (rets ++ rets') mm₂ := by
  induction h with
  | nil mm => exact h'
  | cons hlegal hcall _ ih => exact .cons hlegal hcall (ih h')

/-- Enough for every loop over the holes or over a tree, however the pool is divided. -/
def treeFuel : Nat := 2 * (poolSize + 2)

section Bound

variable {mm : DrmMm} {l : List NodeRef}

theorem length_le_of_packed {low high : Nat} (h : Gaps.Packed low (mm.blocks l) high)
    (hsized : ∀ n ∈ l, 0 < (mm.node n).size) : low + l.length ≤ high := by
  induction l generalizing low with
  | nil => exact h
  | cons n l ih =>
      have hpos := hsized n List.mem_cons_self
      have hend : (mm.block n).2 = (mm.block n).1 + (mm.node n).size := rfl
      have hlow : low ≤ (mm.block n).1 := h.1
      have hrest := ih h.2.2 fun m hm => hsized m (List.mem_cons_of_mem _ hm)
      rw [List.length_cons]
      omega

theorem Valid.length_le (h : Valid mm l) : l.length ≤ poolSize := by
  have hlength := length_le_of_packed h.packed h.sized
  omega

theorem Valid.holes_length_le (h : Valid mm l) : mm.holesSize.length ≤ l.length + 1 := by
  have hsub : mm.holesSize ⊆ NodeRef.head :: l := by
    intro n hn
    by_contra hout
    exact h.index.mem_holesSize.mp hn (h.noHole n hout)
  exact (h.index.holesSize_nodup.subperm hsub).length_le

theorem depthBound_lt {n : Nat} (h : n ≤ poolSize + 1) : depthBound n < treeFuel := by
  have hdeep := depthBound_le n
  have hbound : treeFuel = 2 * (poolSize + 2) := rfl
  omega

theorem Valid.depth_lt (h : Valid mm l) : depthBound l.length < treeFuel :=
  depthBound_lt (h.length_le.trans (Nat.le_succ _))

theorem Valid.depth_holes_lt (h : Valid mm l) : depthBound mm.holesSize.length < treeFuel :=
  depthBound_lt (h.holes_length_le.trans (Nat.succ_le_succ h.length_le))

theorem Valid.not_mem_of_free (h : Valid mm l) {n : NodeRef} (hn : n ≠ .head)
    (hfree : (mm.node n).allocated = false) : n ∉ NodeRef.head :: l := by
  intro hmem
  have hin := (h.allocated n).mpr ((List.mem_cons.mp hmem).resolve_left hn)
  simp [hfree] at hin

end Bound

section Run

variable {t : TreeMm} {mm mm' : DrmMm} {l : List NodeRef} {fuel : Nat}

theorem InTrees.call (h : InTrees t mm l) (hv : Valid mm l) (hfuel : treeFuel ≤ fuel)
    {call : TreeCall} (hlegal : call.Legal mm) {ret : Int} (hrun : mm.call call = .ok (ret, mm')) :
    ∃ t' l', t.call fuel call = .ok (ret, t') ∧ Valid mm' l' ∧ InTrees t' mm' l' := by
  have hdeep : depthBound mm.holesSize.length < fuel := hv.depth_holes_lt.trans_le hfuel
  have hdeep' : depthBound l.length < fuel := hv.depth_lt.trans_le hfuel
  cases call with
  | clear n =>
      have hout := hv.not_mem_of_free hlegal.1 hlegal.2
      cases hrun
      exact ⟨_, l, rfl, hv.clearNode hout, h.clearNode hv hout⟩
  | insert n size mode =>
      have hout := hv.not_mem_of_free hlegal.1 hlegal.2
      have hrounds : 2 * mm.holesSize.length < fuel := by
        have hlength := hv.length_le
        have hholes := hv.holes_length_le
        have hbound : treeFuel = 2 * (poolSize + 2) := rfl
        omega
      exact h.insertNodeGeneric hv hout hrounds hdeep' hrun
  | remove n =>
      obtain ⟨xs, ys, rfl⟩ := List.append_of_mem ((hv.allocated n).mp hlegal)
      obtain ⟨removed, hremove, hdone⟩ := bind_ok hrun
      cases hdone
      obtain ⟨t', htree, hin⟩ := h.removeNode hdeep hdeep' hremove
      obtain ⟨mm₁, hrun₁, hvalid, _⟩ := removeNode_valid hv
      rw [hremove] at hrun₁
      obtain rfl := Except.ok.inj hrun₁
      exact ⟨t', _, by rw [TreeMm.call, htree]; rfl, hvalid, hin⟩

theorem CallRun.inTrees {calls : List TreeCall} {rets : List Int} (hrun : CallRun mm calls rets mm')
    (hfuel : treeFuel ≤ fuel) (hv : Valid mm l) (h : InTrees t mm l) :
    ∃ t' l', t.runCalls fuel calls = .ok (rets, t') ∧ Valid mm' l' ∧ InTrees t' mm' l' := by
  induction hrun generalizing t l with
  | nil mm => exact ⟨t, l, rfl, hv, h⟩
  | cons hlegal hcall _ ih =>
      obtain ⟨t₁, l₁, htree₁, hv₁, h₁⟩ := h.call hv hfuel hlegal hcall
      obtain ⟨t₂, l₂, htree₂, hv₂, h₂⟩ := ih hv₁ h₁
      refine ⟨t₂, l₂, ?_, hv₂, h₂⟩
      simp only [TreeMm.runCalls, htree₁, ok_bind, htree₂]
      rfl

end Run

section Walk

variable {t : TreeMm} {mm mm₀ : DrmMm} {l : List NodeRef} {fuel : Nat}

/-- What the walks over the trees of `t` visit: the list of hole sizes, the same holes by
where they start, and the nodes of the ring that meet a range. -/
structure Walks (fuel : Nat) (t : TreeMm) (mm : DrmMm) (l : List NodeRef) : Prop where
  holesSize : ∃ first, t.holesSize.rbRoot.rbFirst fuel = some first ∧
    Cursor.visits (t.holesSize.rbRoot.rbNext fuel) mm.holesSize.length first = some mm.holesSize
  holesAddr : ∃ holes first, t.holesAddr.rbFirst fuel = some first ∧
    Cursor.visits (t.holesAddr.rbNext fuel) holes.length first = some holes ∧
    holes.Perm mm.holesSize ∧
    holes.Pairwise fun n m => mm.holeNodeStart n ≤ mm.holeNodeStart m
  range : ∀ lo hi, ∃ first,
    t.intervalTree.iterFirst (fun n => (mm.node n).start) mm.last lo hi fuel = some first ∧
    Cursor.visits (t.intervalTree.rbRoot.iterNext (fun n => (mm.node n).start) mm.last lo hi fuel
      fuel) l.length first =
      some (l.filter (Intersects (fun n => (mm.node n).start) mm.last lo hi))

theorem starts_sorted {low high : Nat} (h : Gaps.Packed low (mm.blocks l) high) :
    l.Pairwise fun n m => (mm.node n).start ≤ (mm.node m).start := by
  have hblocks := h.pairwise
  rw [DrmMm.blocks, List.pairwise_map] at hblocks
  refine hblocks.imp fun hle => ?_
  exact (Nat.le_add_right _ _).trans hle

theorem InTrees.walks (h : InTrees t mm l) (hv : Valid mm l) (hfuel : treeFuel ≤ fuel) :
    Walks fuel t mm l := by
  have hdeep : depthBound mm.holesSize.length < fuel := (hv.depth_holes_lt).trans_le hfuel
  have hdeep' : depthBound l.length < fuel := (hv.depth_lt).trans_le hfuel
  obtain ⟨holes, htree, hperm, hsorted⟩ := h.addrs
  rw [← hperm.length_eq] at hdeep
  obtain ⟨first, hfirst, hvisits⟩ := htree.visits_rbNext hdeep
  rw [hperm.length_eq] at hdeep
  exact {
    holesSize := h.sizes.tree.visits_rbNext hdeep
    holesAddr := ⟨holes, first, hfirst, hvisits, hperm, hsorted⟩
    range := fun lo hi => h.interval.visits_iterNext (starts_sorted hv.packed) hdeep' }

/-- Whatever legal calls are made of an empty pool, the trees return what the lists return. -/
theorem CallRun.fromInit (hinit : DrmMm.init 0 poolSize = .ok mm₀)
    (node : NodeRef → RbNode NodeRef) (hfuel : treeFuel ≤ fuel) :
    ∃ t₀, TreeMm.init node fuel 0 poolSize = .ok t₀ ∧
      ∀ {calls rets mm}, CallRun mm₀ calls rets mm →
        ∃ t l, t₀.runCalls fuel calls = .ok (rets, t) ∧ Valid mm l ∧ InTrees t mm l := by
  have hpos : 0 < treeFuel := by decide
  obtain ⟨mm, t₀, hinit', htree₀, hv₀, hin₀⟩ := init_inTrees node (hpos.trans_le hfuel)
  rw [hinit] at hinit'
  obtain rfl := Except.ok.inj hinit'
  exact ⟨t₀, htree₀, fun hrun => hrun.inTrees hfuel hv₀ hin₀⟩

end Walk

end CmaPool.Drm
