import CmaPool.Drm.TreeHoles
import CmaPool.Drm.Remove

/-! The operations of the allocator on its trees: they answer what the operations on
lists answer, and leave the trees of what those leave. -/

namespace CmaPool.Drm

open RedBlack Rbtree RbRoot

section Search

variable {t : TreeMm} {mm : DrmMm} {l : List NodeRef} {n : NodeRef} {size fuel : Nat}

/-- The search of `best_hole` ends at the last node of the subtree that is large enough. -/
theorem bestBelow_spec (t : TreeMm) (size : Nat) {tree : RbTree NodeRef} {p : Option NodeRef}
    (h : Stored t.holesSize.rbRoot.node p tree)
    (hsorted : tree.toList.Pairwise fun x y => (t.mm.node y).holeSize ≤ (t.mm.node x).holeSize)
    (hn : tree.root = some n) (hfuel : tree.depth ≤ fuel) (best : Option NodeRef) :
    t.bestBelow size fuel best n =
      some ((tree.toList.takeWhile fun m => size ≤ (t.mm.node m).holeSize).getLast?.or best) := by
  induction tree generalizing fuel p n best with
  | nil => cases hn
  | node c l x r ihl ihr =>
      cases Option.some.inj hn
      simp only [RbTree.depth] at hfuel
      obtain ⟨hx, hl, hr⟩ := h
      obtain ⟨hsl, hsr, hcross⟩ := List.pairwise_append.mp hsorted
      cases fuel with
      | zero => omega
      | succ fuel =>
          rw [TreeMm.bestBelow, hx]
          by_cases hle : size ≤ (t.mm.node x).holeSize
          · have hall : ∀ m ∈ l.toList, decide (size ≤ (t.mm.node m).holeSize) = true := by
              intro m hm
              exact decide_eq_true (hle.trans (hcross m hm x List.mem_cons_self))
            rw [if_pos hle, RbTree.toList, List.takeWhile_append_of_pos hall,
              List.takeWhile_cons_of_pos (by simpa using hle)]
            cases hroot : r.root with
            | none =>
                cases RbTree.root_eq_none.mp hroot
                simp
            | some m =>
                have hdown := ihr hr (List.pairwise_cons.mp hsr).2 hroot
                  (show r.depth ≤ fuel by omega) (some x)
                simp only [hdown, List.getLast?_append, List.getLast?_cons]
                cases (r.toList.takeWhile fun m => decide (size ≤ (t.mm.node m).holeSize)).getLast? <;>
                  rfl
          · have hstop : (l.toList ++ x :: r.toList).takeWhile
                (fun m => decide (size ≤ (t.mm.node m).holeSize)) =
                l.toList.takeWhile fun m => decide (size ≤ (t.mm.node m).holeSize) := by
              rw [List.takeWhile_append]
              split
              · next hwhole =>
                  rw [List.takeWhile_cons_of_neg (by simpa using hle), List.append_nil]
                  exact (List.takeWhile_sublist _).eq_of_length hwhole |>.symm
              · rfl
            rw [if_neg hle, RbTree.toList, hstop]
            cases hroot : l.root with
            | none =>
                cases RbTree.root_eq_none.mp hroot
                simp
            | some m => exact ihl hl hsl hroot (by omega) best

theorem InTrees.bestHole (h : InTrees t mm l) (hholes : mm.holesSize ≠ [])
    (hfuel : depthBound mm.holesSize.length ≤ fuel) :
    t.bestHole fuel size = .ok (mm.bestHole size) := by
  obtain ⟨tree, hrep, hred, hlist⟩ := h.sizes.tree
  have hdepth := hred.depth_le
  have hsorted := h.index.sorted
  rw [← hlist] at hfuel hholes hsorted
  rw [← h.node] at hsorted
  rw [TreeMm.bestHole, hrep.holds.root]
  cases hroot : tree.root with
  | none =>
      cases RbTree.root_eq_none.mp hroot
      exact absurd rfl hholes
  | some n =>
      rw [pointer_some, ok_bind, bestBelow_spec t size hrep.holds.stored hsorted hroot
        (hdepth.trans hfuel) none, hlist, h.node, Option.or_none]
      rfl

theorem InTrees.largestHole (h : InTrees t mm l) : t.largestHole = mm.largestHole := by
  have hfirst := h.sizes.leftmost
  rw [TreeMm.largestHole, DrmMm.largestHole, hfirst, h.node]
  cases mm.holesSize <;> rfl

theorem InTrees.firstHole (h : InTrees t mm l) (hholes : mm.holesSize ≠ [])
    (hfuel : depthBound mm.holesSize.length ≤ fuel) (mode : InsertMode) :
    t.firstHole fuel size mode = .ok (mm.firstHole size mode) := by
  cases mode with
  | best => exact h.bestHole hholes hfuel
  | evict =>
      rw [TreeMm.firstHole, DrmMm.firstHole, h.holeStack]
      rfl

theorem InTrees.nextHole (h : InTrees t mm l) (hn : mm.holeFollows n)
    (hfuel : depthBound mm.holesSize.length < fuel) (mode : InsertMode) :
    t.nextHole fuel n mode = .ok (mm.nextHole n mode) := by
  cases mode with
  | best =>
      obtain ⟨xs, ys, hsplit⟩ := List.append_of_mem (h.index.mem_holesSize.mpr hn)
      have htree := h.sizes.tree
      rw [hsplit] at htree hfuel
      have hfront := takeWhile_ne htree.nodup
      rw [TreeMm.nextHole, DrmMm.nextHole, htree.rbPrev hfuel, hsplit, hfront]
      rfl
  | evict =>
      rw [TreeMm.nextHole, DrmMm.nextHole, h.holeStack]
      rfl

theorem HoleIndex.follows_nextHole (h : HoleIndex mm) {m : NodeRef} {mode : InsertMode}
    (hnext : mm.nextHole n mode = some m) : mm.holeFollows m := by
  cases mode with
  | best =>
      have hmem := List.mem_of_getLast? hnext
      exact h.mem_holesSize.mp ((List.takeWhile_sublist _).subset hmem)
  | evict =>
      have hmem := List.mem_of_mem_tail (List.mem_of_head? hnext)
      exact (h.mem m).mp ((List.dropWhile_sublist _).subset hmem)

theorem HoleIndex.follows_firstHole (h : HoleIndex mm) {mode : InsertMode}
    (hfirst : mm.firstHole size mode = some n) : mm.holeFollows n := by
  rw [firstHole_eq] at hfirst
  exact h.follows_of_mem (List.mem_of_head? hfirst)

end Search

section Congr

variable {t : TreeMm} {mm mm' : DrmMm} {l xs ys : List NodeRef} {n p : NodeRef}
  {size start fuel : Nat}

/-- The trees do not depend on what a change leaves of the nodes outside them. -/
theorem InTrees.congr (h : InTrees t mm l) (hstack : mm'.holeStack = mm.holeStack)
    (hsizes : mm'.holesSize = mm.holesSize)
    (hhole : ∀ n, (mm'.node n).holeSize = (mm.node n).holeSize)
    (hplace : ∀ n, n ∈ l ∨ mm.holeFollows n → mm'.holeNodeStart n = mm.holeNodeStart n) :
    InTrees (t.beside mm') mm' l where
  rest := rfl
  index := h.index.of_eq hstack hsizes hhole
  sizes := by
    rw [hsizes]
    exact h.sizes
  addrs := by
    obtain ⟨holes, htree, hperm, hsorted⟩ := h.addrs
    have hkey : ∀ n ∈ holes, mm'.holeNodeStart n = mm.holeNodeStart n :=
      fun n hn => hplace n (Or.inr (h.index.mem_holesSize.mp (hperm.mem_iff.mp hn)))
    refine ⟨holes, htree, by rwa [hsizes], hsorted.imp_of_mem fun hn hm hle => ?_⟩
    rw [hkey _ hn, hkey _ hm]
    exact hle
  interval := by
    refine h.interval.recombine fun n hn => ?_
    have hlast : mm'.last n = mm.last n := by rw [DrmMm.last, DrmMm.last, hplace n (Or.inl hn)]
    funext left right
    rw [combineMax, combineMax, hlast]

/-- A node changes, but not where a hole or an interval of the trees lies. -/
theorem InTrees.update (h : InTrees t mm l) {node : DrmMmNode}
    (hnode : mm'.node = Function.update mm.node p node) (hstack : mm'.holeStack = mm.holeStack)
    (hsizes : mm'.holesSize = mm.holesSize) (hhole : node.holeSize = (mm.node p).holeSize)
    (hplace : p ∈ l ∨ mm.holeFollows p → add64 node.start node.size = mm.holeNodeStart p) :
    InTrees (t.beside mm') mm' l := by
  apply h.congr hstack hsizes
  · intro n
    by_cases hn : n = p
    · simp [hnode, hn, hhole]
    · simp [hnode, hn]
  · intro n hin
    rw [DrmMm.holeNodeStart, hnode]
    by_cases hn : n = p
    · subst hn
      rw [Function.update_self]
      exact hplace hin
    · rw [Function.update_of_ne hn]
      rfl

theorem Valid.outside (h : Valid mm l) (hp : p ∉ NodeRef.head :: l) :
    ¬ (p ∈ l ∨ mm.holeFollows p) := by
  intro hin
  rcases hin with hin | hfollows
  · exact hp (List.mem_cons_of_mem _ hin)
  · exact hfollows (h.noHole p hp)

theorem firstStart_le_of_mem {low high : Nat} {ns : List NodeRef}
    (h : Gaps.Packed low (mm.blocks ns) high) (hn : n ∈ ns) :
    Gaps.firstStart (mm.blocks ns) high ≤ (mm.node n).start := by
  cases ns with
  | nil => cases hn
  | cons m ns =>
      rcases List.mem_cons.mp hn with rfl | hn
      · exact le_rfl
      · have hblock : mm.block n ∈ mm.blocks ns := List.mem_map_of_mem hn
        calc
          (mm.block m).1 ≤ (mm.block m).2 := h.2.1
          _ ≤ (mm.block n).1 := (h.2.2.mem hblock).1

/-- The test of `drm_mm_interval_tree_add_node` finds the node before the hole in the
tree, if there is one. -/
theorem Valid.holeInTree (h : Valid mm (xs ++ ys)) :
    (if (mm.node (Ring.before .head xs)).allocated then some (Ring.before .head xs) else none) =
      xs.getLast? := by
  rcases List.eq_nil_or_concat' xs with rfl | ⟨as, hole, rfl⟩
  · have hout : NodeRef.head ∉ ys := (List.nodup_cons.mp h.ring.2).1
    have hfree : ¬ (mm.node .head).allocated = true := fun hin => hout ((h.allocated _).mp hin)
    rw [Ring.before_nil, if_neg hfree]
    rfl
  · have hin : (mm.node hole).allocated = true := (h.allocated hole).mpr (by simp)
    rw [Ring.before_concat, if_pos hin, List.getLast?_concat]

/-- The state when `insertInHole` links the node into the interval tree. -/
def DrmMm.placeNode (mm : DrmMm) (p : NodeRef) (start size : Nat)
    (nodeList : Ring.Links NodeRef) : DrmMm :=
  { mm.setNode p { mm.node p with mm := true, size, start, holeSize := 0 } with nodeList }

theorem InTrees.placeNode (h : InTrees t mm l) (hv : Valid mm l) (hp : p ∉ NodeRef.head :: l)
    (start size : Nat) (nodeList : Ring.Links NodeRef) :
    InTrees (t.beside (mm.placeNode p start size nodeList)) (mm.placeNode p start size nodeList)
      l := by
  have hout := hv.outside hp
  exact h.update rfl rfl rfl (hv.noHole p hp).symm fun hin => absurd hin hout

theorem InTrees.intervalTreeAddNode (h : InTrees t mm (xs ++ ys)) (hv : Valid mm (xs ++ ys))
    (hp : p ∉ NodeRef.head :: (xs ++ ys)) (hsize : size ≠ 0)
    (hhigh : start + size ≤ Gaps.firstStart (mm.blocks ys) poolSize)
    (hfuel : depthBound (xs ++ ys).length < fuel) (nodeList : Ring.Links NodeRef) :
    ∃ t', (t.beside (mm.placeNode p start size nodeList)).intervalTreeAddNode fuel
        (Ring.before .head xs) p = .ok t' ∧
      InTrees t' (mm.placeNode p start size nodeList) (xs ++ p :: ys) := by
  have hplaced := h.placeNode hv hp start size nodeList
  have hout : p ∉ xs ++ ys := fun hmem => hp (List.mem_cons_of_mem _ hmem)
  have hold : ∀ n ∈ NodeRef.head :: (xs ++ ys),
      (mm.placeNode p start size nodeList).node n = mm.node n := by
    intro n hn
    have hne : n ≠ p := fun heq => hp (heq ▸ hn)
    exact Function.update_of_ne hne _ _
  have hself : ((mm.placeNode p start size nodeList).node p).start = start := by
    simp [DrmMm.placeNode]
  have hpacked := hv.packed
  rw [blocks_append, Gaps.packed_append] at hpacked
  have hlater : ∀ y ∈ ys, ((mm.placeNode p start size nodeList).node p).start <
      ((mm.placeNode p start size nodeList).node y).start := by
    intro y hy
    have hfirst := firstStart_le_of_mem hpacked.2 hy
    rw [hself, hold y (by simp [hy])]
    omega
  obtain ⟨intervalTree, hrun, hcached⟩ := @IsCached.intervalTreeAddNode NodeRef _ _ xs ys
    (fun n => ((mm.placeNode p start size nodeList).node n).start) _ p fuel hplaced.interval hout
    hlater hfuel
  have hhole := hv.holeInTree
  rw [← hold _ (Ring.before_mem_ring .head xs ys)] at hhole
  have htest : (if ((t.beside (mm.placeNode p start size nodeList)).mm.node
      (Ring.before .head xs)).allocated then some (Ring.before .head xs) else none) =
      xs.getLast? := hhole
  refine ⟨{ t with intervalTree }.beside (mm.placeNode p start size nodeList), ?_, rfl,
    hplaced.index, hplaced.sizes, hplaced.addrs, hcached⟩
  rw [TreeMm.intervalTreeAddNode, htest]
  simp only [beside_node, beside_last, hrun, walked_some]
  rfl

end Congr

section Insert

variable {t : TreeMm} {mm mm' : DrmMm} {l xs ys : List NodeRef} {p : NodeRef}
  {size start fuel : Nat}

theorem InTrees.insertInHole (h : InTrees t mm (xs ++ ys)) (hv : Valid mm (xs ++ ys))
    (hp : p ∉ NodeRef.head :: (xs ++ ys)) (hsize : size ≠ 0)
    (hhigh : start + size ≤ Gaps.firstStart (mm.blocks ys) poolSize)
    (hholes : depthBound mm.holesSize.length < fuel) (hnodes : depthBound (xs ++ ys).length < fuel)
    {holeStart holeEnd : Nat}
    (hrun : mm.insertInHole p (Ring.before .head xs) size holeStart holeEnd start = .ok mm') :
    ∃ t', t.insertInHole fuel p (Ring.before .head xs) size holeStart holeEnd start = .ok t' ∧
      InTrees t' mm' (xs ++ p :: ys) := by
  let links := Ring.insertBetween mm.nodeList p (Ring.before .head xs) (Ring.after .head ys)
  have hlink := hv.ring.listAdd_eq p
  have hbefore : Ring.before .head xs ∈ NodeRef.head :: (xs ++ ys) :=
    Ring.before_mem_ring .head xs ys
  have hne : p ≠ Ring.before .head xs := fun heq => hp (heq ▸ hbefore)
  -- the node enters the interval tree
  obtain ⟨t₁, hadd, hin₁⟩ := h.intervalTreeAddNode hv hp hsize hhigh hnodes links
  -- the node becomes allocated
  have hin₂ : InTrees (t₁.beside (mm.linkNode p start size links)) (mm.linkNode p start size links)
      (xs ++ p :: ys) := by
    have hnode : (mm.linkNode p start size links).node =
        Function.update (mm.placeNode p start size links).node p
          { mm.node p with mm := true, size, start, holeSize := 0, allocated := true } := by
      simp [DrmMm.linkNode, DrmMm.placeNode]
    exact hin₁.update hnode rfl rfl (by simp [DrmMm.placeNode])
      (by simp [DrmMm.holeNodeStart, DrmMm.placeNode])
  -- the hole leaves the trees, and what is left of it enters them
  rw [insertInHole_eq hv] at hrun
  obtain ⟨mm₃, hrm, hrun⟩ := bind_ok hrun
  obtain ⟨mm₄, hlow, hrun⟩ := bind_ok hrun
  obtain ⟨t₃, htree₃, hin₃, hlen₃, hedit⟩ := hin₂.rmHole_run hholes hrm
  have hlen₂ : (mm.linkNode p start size links).holesSize.length = mm.holesSize.length := rfl
  have hfuel₃ : depthBound mm₃.holesSize.length < fuel :=
    lt_of_le_of_lt (depthBound_mono (by omega)) hholes
  have hnone : (mm₃.node (Ring.before .head xs)).holeSize = 0 := by
    rw [hedit.node_eq]
    simp
  obtain ⟨t₄, htree₄, hin₄, hlen₄, hkept⟩ := hin₃.addHoleIf hnone hfuel₃ hlow
  have hfuel₄ : depthBound mm₄.holesSize.length < fuel :=
    lt_of_le_of_lt (depthBound_mono (by omega)) hholes
  have hnone' : (mm₄.node p).holeSize = 0 := by
    rw [hkept p hne, hedit.node_eq]
    simp [DrmMm.linkNode]
  obtain ⟨t₅, htree₅, hin₅, _, _⟩ := hin₄.addHoleIf hnone' hfuel₄ hrun
  refine ⟨t₅, ?_, hin₅⟩
  have hset : t.setNode p { t.mm.node p with mm := true, size, start, holeSize := 0 } =
      t.beside (mm.setNode p { mm.node p with mm := true, size, start, holeSize := 0 }) := by
    rw [TreeMm.setNode, h.rest]
    rfl
  have hset' : t₁.setNode p { t₁.mm.node p with allocated := true } =
      t₁.beside (mm.linkNode p start size links) := by
    rw [TreeMm.setNode, hin₁.rest]
    simp [TreeMm.beside, DrmMm.setNode, DrmMm.placeNode, DrmMm.linkNode]
  have hlist : (t.beside (mm.setNode p
      { mm.node p with mm := true, size, start, holeSize := 0 })).mm.nodeList = mm.nodeList := rfl
  rw [TreeMm.insertInHole]
  simp only [hset, hlist, hlink, pointer_some, ok_bind]
  change (do
    let t ← (t.beside (mm.placeNode p start size links)).intervalTreeAddNode fuel
      (Ring.before .head xs) p
    _) = _
  simp only [hadd, ok_bind, hset', htree₃, htree₄, htree₅]

theorem insertLoop_none (t : TreeMm) {alignment rangeStart rangeEnd : Nat} {mode : InsertMode}
    (rounds : Nat) :
    t.insertLoop fuel p size alignment rangeStart rangeEnd mode rounds none =
      .ok (-enospc, t) := by
  cases rounds <;> rfl

theorem InTrees.insertLoop (h : InTrees t mm l) (hv : Valid mm l) (hp : p ∉ NodeRef.head :: l)
    (hsize : size ≠ 0) (hholes : depthBound mm.holesSize.length < fuel)
    (hnodes : depthBound l.length < fuel) {mode : InsertMode} {rounds rounds' : Nat}
    (hrounds : rounds ≤ rounds') {hole : Option NodeRef}
    (hhole : ∀ n, hole = some n → mm.holeFollows n) {ret : Int}
    (hrun : mm.insertLoop p size (normalAlignment pageSize) 0 u64Max mode rounds hole =
      .ok (ret, mm')) :
    ∃ t' l', t.insertLoop fuel p size (normalAlignment pageSize) 0 u64Max mode rounds' hole =
      .ok (ret, t') ∧ Valid mm' l' ∧ InTrees t' mm' l' := by
  induction rounds generalizing rounds' hole with
  | zero =>
      cases hole with
      | none =>
          cases hrun
          exact ⟨t, l, insertLoop_none t rounds', hv, h⟩
      | some n => cases hrun
  | succ rounds ih =>
      cases hole with
      | none =>
          cases hrun
          exact ⟨t, l, insertLoop_none t rounds', hv, h⟩
      | some n =>
          obtain ⟨rounds', rfl⟩ : ∃ k, rounds' = k + 1 := ⟨rounds' - 1, by omega⟩
          have hfollows := hhole n rfl
          have hstart : adjustHole (mm.holeNodeStart n)
              (add64 (mm.holeNodeStart n) (mm.node n).holeSize) size (normalAlignment pageSize) 0
              u64Max = mm.startIn size (normalAlignment pageSize) 0 u64Max n := rfl
          rw [DrmMm.insertLoop] at hrun
          rw [TreeMm.insertLoop]
          simp only [h.holeNodeStart, h.node, hstart] at hrun ⊢
          cases hfound : mm.startIn size (normalAlignment pageSize) 0 u64Max n with
          | none =>
              simp only [hfound, h.nextHole hfollows hholes mode, ok_bind] at hrun ⊢
              exact ih (Nat.le_of_succ_le_succ hrounds)
                (fun m hm => h.index.follows_nextHole hm) hrun
          | some start =>
              obtain ⟨xs, ys, rfl, rfl⟩ := hv.cut_of_follows hfollows
              simp only [hfound] at hrun ⊢
              obtain ⟨mm₁, hinsert, hdone⟩ := bind_ok hrun
              cases hdone
              rw [hv.startIn_eq hsize] at hfound
              split at hfound
              · next hfit =>
                  obtain rfl := Option.some.inj hfound
                  obtain ⟨t', htree, hin⟩ := h.insertInHole hv hp hsize hfit hholes hnodes hinsert
                  rw [hv.holeEnd_before, lastEnd_blocks hv.toPlaced] at hinsert
                  obtain ⟨mm₂, hrun₂, hvalid, _⟩ := insertInHole_valid hv hp hsize
                    (pageUp.isClosed_closure _) (pageUp.le_closure _) hfit
                  rw [hinsert] at hrun₂
                  obtain rfl := Except.ok.inj hrun₂
                  refine ⟨t', _, ?_, hvalid, hin⟩
                  rw [htree]
                  rfl
              · cases hfound

/-- The insertion answers what it answers on lists. -/
theorem InTrees.insertNodeGeneric (h : InTrees t mm l) (hv : Valid mm l)
    (hp : p ∉ NodeRef.head :: l)
    (hfuel : 2 * mm.holesSize.length < fuel) (hnodes : depthBound l.length < fuel)
    {mode : InsertMode} {ret : Int}
    (hrun : mm.insertNodeGeneric p size pageSize mode = .ok (ret, mm')) :
    ∃ t' l', t.insertNodeGeneric fuel p size pageSize mode = .ok (ret, t') ∧ Valid mm' l' ∧
      InTrees t' mm' l' := by
  have hrange : ¬ (0 > u64Max) := by decide
  rw [DrmMm.insertNodeGeneric, DrmMm.insertNodeInRange, bugOn_of_not hrange, ok_bind] at hrun
  rw [TreeMm.insertNodeGeneric, TreeMm.insertNodeInRange, bugOn_of_not hrange, ok_bind]
  split at hrun
  · next hsize =>
      cases hrun
      exact ⟨t, l, by rw [if_pos hsize]; rfl, hv, h⟩
  · next hsize =>
      rw [if_neg hsize, h.largestHole]
      split at hrun
      · next hlarge =>
          cases hrun
          exact ⟨t, l, by rw [if_pos hlarge]; rfl, hv, h⟩
      · next hlarge =>
          have hzero : size ≠ 0 := fun heq => hsize (Or.inl heq)
          have hholes : mm.holesSize ≠ [] := by
            intro hnil
            rw [DrmMm.largestHole, hnil] at hlarge
            exact hlarge (Nat.pos_of_ne_zero hzero)
          have hpos := List.length_pos_iff.mpr hholes
          have hdepth := depthBound_le mm.holesSize.length
          have hlength := h.index.perm.length_eq
          rw [if_neg hlarge, h.firstHole hholes (by omega) mode, ok_bind]
          exact h.insertLoop hv hp hzero (by omega) hnodes (by omega)
            (fun n hn => h.index.follows_firstHole hn) hrun

end Insert

section Remove

variable {t : TreeMm} {mm mm' : DrmMm} {l xs ys : List NodeRef} {n p : NodeRef} {fuel : Nat}

theorem InTrees.intervalTreeRemove (h : InTrees t mm (xs ++ n :: ys))
    (hfuel : depthBound (xs ++ n :: ys).length < fuel) :
    ∃ t', t.intervalTreeRemove fuel n = .ok t' ∧ InTrees t' mm (xs ++ ys) := by
  obtain ⟨intervalTree, hrun, hcached⟩ :=
    h.interval.rbEraseCached (maintains_max mm.last) (totals_max mm.last) hfuel
  refine ⟨{ t with intervalTree }, ?_, h.rest, h.index, h.sizes, h.addrs, hcached⟩
  rw [TreeMm.intervalTreeRemove, h.last, hrun]
  rfl

theorem InTrees.removeNode (h : InTrees t mm (xs ++ n :: ys))
    (hholes : depthBound mm.holesSize.length < fuel)
    (hnodes : depthBound (xs ++ n :: ys).length < fuel) (hrun : mm.removeNode n = .ok mm') :
    ∃ t', t.removeNode fuel n = .ok t' ∧ InTrees t' mm' (xs ++ ys) := by
  obtain ⟨_, hallocated, hrun⟩ := bind_ok hrun
  obtain ⟨_, hscanned, hrun⟩ := bind_ok hrun
  obtain ⟨prev, hprev, hrun⟩ := bind_ok hrun
  obtain ⟨mm₁, hrm, hrun⟩ := bind_ok hrun
  obtain ⟨nodeList, hlist, hrun⟩ := bind_ok hrun
  obtain ⟨mm₃, hrm', hadd⟩ := bind_ok hrun
  -- the node's own hole and its interval leave the trees
  obtain ⟨t₁, htree₁, hin₁, hlen₁, _⟩ := h.rmHoleIf hholes hrm
  obtain ⟨t₂, htree₂, hin₂⟩ := hin₁.intervalTreeRemove hnodes
  -- the node leaves the ring
  have hin₃ : InTrees (t₂.beside (mm₁.unlinkNode n nodeList)) (mm₁.unlinkNode n nodeList)
      (xs ++ ys) := by
    exact hin₂.update rfl rfl rfl rfl fun _ => rfl
  -- the gap takes the place of the hole before the node
  have hlen₂ : (mm₁.unlinkNode n nodeList).holesSize.length = mm₁.holesSize.length := rfl
  have hfuel₃ : depthBound (mm₁.unlinkNode n nodeList).holesSize.length < fuel :=
    lt_of_le_of_lt (depthBound_mono (by omega)) hholes
  obtain ⟨t₄, htree₄, hin₄, hlen₄, hedit⟩ := hin₃.rmHoleIf hfuel₃ hrm'
  have hnone : (mm₃.node prev).holeSize = 0 := by
    rw [hedit.node_eq]
    simp
  have hfuel₄ : depthBound mm₃.holesSize.length < fuel :=
    lt_of_le_of_lt (depthBound_mono hlen₄) hfuel₃
  obtain ⟨t₅, htree₅, hin₅, _, _⟩ := hin₄.addHole_run hnone hfuel₄ hadd
  refine ⟨t₅, ?_, hin₅⟩
  have hprevTree : t.mm.listPrevEntry n = .ok prev := by
    rw [h.rest]
    exact hprev
  have hset : ({ t₂ with mm := { t₂.mm with nodeList } } : TreeMm).setNode n
      { t₂.mm.node n with allocated := false } = t₂.beside (mm₁.unlinkNode n nodeList) := by
    rw [TreeMm.setNode, hin₂.rest]
    rfl
  rw [TreeMm.removeNode, h.node, hallocated, ok_bind, hscanned, ok_bind, hprevTree, ok_bind, htree₁,
    ok_bind, htree₂, ok_bind, hin₂.nodeList, hlist, ok_bind]
  simp only [hset, htree₄, ok_bind, htree₅]

theorem InTrees.clearNode (h : InTrees t mm l) (hv : Valid mm l) (hp : p ∉ NodeRef.head :: l) :
    InTrees (t.clearNode p) (mm.clearNode p) l := by
  have hcleared : InTrees (t.beside (mm.clearNode p)) (mm.clearNode p) l := by
    have hout := hv.outside hp
    exact h.update rfl rfl rfl (hv.noHole p hp).symm fun hin => absurd hin hout
  have hsame : t.clearNode p = t.beside (mm.clearNode p) := by
    rw [TreeMm.clearNode, h.rest]
    rfl
  rwa [hsame]

theorem isCached_empty {β : Type} (combine : NodeRef → Option β → Option β → β)
    (node : NodeRef → RbNode NodeRef) (augmented : NodeRef → β) :
    IsCached combine ⟨{ node, rbNode := none, augmented }, none⟩ ([] : List NodeRef) :=
  ⟨⟨.nil, ⟨⟨rfl, trivial, List.nodup_nil⟩, trivial⟩, ⟨trivial, 0, rfl⟩, rfl⟩, rfl⟩

/-- `drm_mm_init` on the range of the pool. -/
theorem init_inTrees (node : NodeRef → RbNode NodeRef) (hfuel : 0 < fuel) :
    ∃ mm t, DrmMm.init 0 poolSize = .ok mm ∧ TreeMm.init node fuel 0 poolSize = .ok t ∧
      Valid mm [] ∧ InTrees t mm [] := by
  obtain ⟨mm, hinit, hvalid⟩ := init_valid
  have hbug : ¬ (add64 0 poolSize ≤ 0) := by decide
  have hhead : InTrees (TreeMm.initHead node 0 poolSize) (DrmMm.initHead 0 poolSize) [] := by
    refine ⟨rfl, initHead_index, isCached_empty _ node _,
      ⟨[], ?_, List.Perm.refl _, List.Pairwise.nil⟩, isCached_empty _ node _⟩
    exact (isCached_empty _ node _).tree
  have hadd := hinit
  rw [DrmMm.init, bugOn_of_not hbug, ok_bind] at hadd
  obtain ⟨t, htree, hin, _, _⟩ := hhead.addHole_run (initHead_holeSize .head) hfuel hadd
  refine ⟨mm, t, hinit, ?_, hvalid, hin⟩
  rw [TreeMm.init, bugOn_of_not hbug, ok_bind, htree]

end Remove

end CmaPool.Drm
