import CmaPool.Drm.Insert

/-! The search for a hole, in both of its orders.

Both orders visit every hole that is large enough, so an insertion fails only
when no gap of the pool has room. -/

namespace CmaPool.Drm

/-- Some gap between the nodes of `l` takes a block of `size` bytes at a page
boundary. -/
def HasRoom (mm : DrmMm) (l : List NodeRef) (size : Nat) : Prop :=
  ∃ gap ∈ Gaps.gaps 0 (mm.blocks l) poolSize, Gaps.Fits pageUp (Gaps.endAt size) gap

instance (size : Nat) (gap : Nat × Nat) :
    Decidable (Gaps.Fits pageUp (Gaps.endAt size) gap) :=
  inferInstanceAs (Decidable (pageUp gap.1 + size ≤ gap.2))

instance (mm : DrmMm) (l : List NodeRef) (size : Nat) : Decidable (HasRoom mm l size) :=
  inferInstanceAs (Decidable (∃ gap ∈ Gaps.gaps 0 (mm.blocks l) poolSize,
    Gaps.Fits pageUp (Gaps.endAt size) gap))

/-- The holes in the order in which the search visits them. -/
def DrmMm.holesInOrder (mm : DrmMm) (size : Nat) : InsertMode → List NodeRef
  | .best => (mm.holesSize.takeWhile fun n => size ≤ (mm.node n).holeSize).reverse
  | .evict => mm.holeStack

section Order

variable {mm : DrmMm} {size : Nat} {n : NodeRef}

theorem takeWhile_ne {front back : List NodeRef} (h : (front ++ n :: back).Nodup) :
    (front ++ n :: back).takeWhile (· ≠ n) = front := by
  have hfront : ∀ m ∈ front, decide (m ≠ n) = true := by
    intro m hm
    have hne : m ≠ n := fun heq =>
      List.disjoint_of_nodup_append h hm (heq ▸ List.mem_cons_self)
    simpa using hne
  rw [List.takeWhile_append_of_pos hfront, List.takeWhile_cons_of_neg (by simp), List.append_nil]

theorem dropWhile_ne {front back : List NodeRef} (h : (front ++ n :: back).Nodup) :
    (front ++ n :: back).dropWhile (· ≠ n) = n :: back := by
  have hsplit := List.takeWhile_append_dropWhile (p := (· ≠ n)) (l := front ++ n :: back)
  rw [takeWhile_ne h] at hsplit
  exact List.append_cancel_left hsplit

theorem mem_takeWhile_sorted {l : List NodeRef} {holeSize : NodeRef → Nat}
    (hsorted : l.Pairwise fun x y => holeSize y ≤ holeSize x) (hn : n ∈ l)
    (hle : size ≤ holeSize n) : n ∈ l.takeWhile fun m => size ≤ holeSize m := by
  induction l with
  | nil => cases hn
  | cons m l ih =>
      rcases List.pairwise_cons.mp hsorted with ⟨hm, hl⟩
      have hlarge : size ≤ holeSize m := by
        rcases List.mem_cons.mp hn with rfl | hn
        · exact hle
        · exact hle.trans (hm n hn)
      rw [List.takeWhile_cons_of_pos (by simpa using hlarge)]
      rcases List.mem_cons.mp hn with rfl | hn
      · exact List.mem_cons_self
      · exact List.mem_cons_of_mem _ (ih hl hn)

theorem firstHole_eq (mm : DrmMm) (size : Nat) (mode : InsertMode) :
    mm.firstHole size mode = (mm.holesInOrder size mode).head? := by
  cases mode with
  | best => rw [DrmMm.firstHole, DrmMm.bestHole, DrmMm.holesInOrder, List.head?_reverse]
  | evict => rfl

theorem HoleIndex.nextHole_eq (h : HoleIndex mm) (mode : InsertMode) {visited left : List NodeRef}
    (hsplit : mm.holesInOrder size mode = visited ++ n :: left) :
    mm.nextHole n mode = left.head? := by
  cases mode with
  | best =>
      have hnodup := h.holesSize_nodup
      rw [DrmMm.holesInOrder, List.reverse_eq_iff] at hsplit
      have hwhole := List.takeWhile_append_dropWhile
        (p := fun n => decide (size ≤ (mm.node n).holeSize)) (l := mm.holesSize)
      rw [hsplit] at hwhole
      simp only [List.reverse_append, List.reverse_cons, List.append_assoc, List.cons_append,
        List.nil_append] at hwhole
      rw [← hwhole] at hnodup
      rw [DrmMm.nextHole, ← hwhole, takeWhile_ne hnodup, List.getLast?_reverse]
  | evict =>
      have hnodup := h.nodup
      have hstack : mm.holeStack = visited ++ n :: left := hsplit
      rw [hstack] at hnodup
      rw [DrmMm.nextHole, hstack, dropWhile_ne hnodup]
      rfl

theorem HoleIndex.follows_of_mem (h : HoleIndex mm) {mode : InsertMode}
    (hn : n ∈ mm.holesInOrder size mode) : mm.holeFollows n := by
  cases mode with
  | best =>
      apply h.mem_holesSize.mp
      exact List.takeWhile_sublist _ |>.subset (List.mem_reverse.mp hn)
  | evict => exact (h.mem n).mp hn

theorem HoleIndex.mem_holesInOrder (h : HoleIndex mm) {mode : InsertMode}
    (hfollows : mm.holeFollows n) (hle : size ≤ (mm.node n).holeSize) :
    n ∈ mm.holesInOrder size mode := by
  cases mode with
  | best =>
      apply List.mem_reverse.mpr
      exact mem_takeWhile_sorted h.sorted (h.mem_holesSize.mpr hfollows) hle
  | evict => exact (h.mem n).mpr hfollows

theorem holesInOrder_length (mm : DrmMm) (size : Nat) (mode : InsertMode) :
    (mm.holesInOrder size mode).length ≤ mm.holesSize.length + mm.holeStack.length := by
  cases mode with
  | best =>
      have hlen := (List.takeWhile_sublist
        (p := fun n => decide (size ≤ (mm.node n).holeSize)) (l := mm.holesSize)).length_le
      rw [DrmMm.holesInOrder, List.length_reverse]
      omega
  | evict =>
      rw [DrmMm.holesInOrder]
      omega

end Order

section Loop

variable {mm : DrmMm} {mode : InsertMode}

/-- The allocation start the search finds in a hole. -/
def DrmMm.startIn (mm : DrmMm) (size alignment rangeStart rangeEnd : Nat) (hole : NodeRef) :
    Option Nat :=
  adjustHole (mm.holeNodeStart hole) (add64 (mm.holeNodeStart hole) (mm.node hole).holeSize) size
    alignment rangeStart rangeEnd

theorem insertLoop_cases (p : NodeRef) (size alignment rangeStart rangeEnd : Nat)
    {todo : List NodeRef}
    (hnext : ∀ visited n left, todo = visited ++ n :: left →
      mm.nextHole n mode = left.head?) (fuel : Nat) (hfuel : todo.length ≤ fuel) :
    (∃ hole ∈ todo, ∃ start,
      mm.startIn size alignment rangeStart rangeEnd hole = some start ∧
      mm.insertLoop p size alignment rangeStart rangeEnd mode fuel todo.head? = (do
        return (0, ← mm.insertInHole p hole size (mm.holeNodeStart hole)
          (add64 (mm.holeNodeStart hole) (mm.node hole).holeSize) start))) ∨
    (∀ hole ∈ todo, mm.startIn size alignment rangeStart rangeEnd hole = none) ∧
      mm.insertLoop p size alignment rangeStart rangeEnd mode fuel todo.head? =
        .ok (-enospc, mm) := by
  induction todo generalizing fuel with
  | nil =>
      right
      refine ⟨by simp, ?_⟩
      cases fuel <;> rfl
  | cons hole todo ih =>
      cases fuel with
      | zero => simp at hfuel
      | succ fuel =>
          cases hstart : mm.startIn size alignment rangeStart rangeEnd hole with
          | some start =>
              refine Or.inl ⟨hole, List.mem_cons_self, start, hstart, ?_⟩
              rw [DrmMm.startIn] at hstart
              simp only [List.head?_cons, DrmMm.insertLoop, hstart]
          | none =>
              have hrun : mm.insertLoop p size alignment rangeStart rangeEnd mode (fuel + 1)
                  (hole :: todo).head? =
                  mm.insertLoop p size alignment rangeStart rangeEnd mode fuel todo.head? := by
                have hsucc := hnext [] hole todo rfl
                rw [DrmMm.startIn] at hstart
                simp only [List.head?_cons, DrmMm.insertLoop, hstart, hsucc]
              rw [hrun]
              rcases ih (fun visited n left hsplit => hnext (hole :: visited) n left
                  (by rw [hsplit]; rfl)) fuel (by simpa using hfuel) with
                ⟨found, hfound, start, hsome, hloop⟩ | ⟨hnone, hloop⟩
              · exact Or.inl ⟨found, List.mem_cons_of_mem _ hfound, start, hsome, hloop⟩
              · refine Or.inr ⟨?_, hloop⟩
                intro n hn
                rcases List.mem_cons.mp hn with rfl | hn
                · exact hstart
                · exact hnone n hn

end Loop

section Insert

variable {mm : DrmMm} {l xs ys : List NodeRef} {p : NodeRef} {size : Nat}

theorem Valid.holeEnd_before (h : Valid mm (xs ++ ys)) :
    add64 (mm.holeNodeStart (Ring.before .head xs))
        (mm.node (Ring.before .head xs)).holeSize =
      Gaps.firstStart (mm.blocks ys) poolSize := by
  have hpool : poolSize = 134217728 := rfl
  have hgap := h.toPlaced.gap
  rw [lastEnd_blocks h.toPlaced, h.holeSize_before, add64_of_lt (by omega)]
  omega

theorem Valid.startIn_eq (h : Valid mm (xs ++ ys)) (hsize : size ≠ 0) :
    mm.startIn size (normalAlignment pageSize) 0 u64Max (Ring.before .head xs) =
      if Gaps.Fits pageUp (Gaps.endAt size)
          (Gaps.lastEnd 0 (mm.blocks xs), Gaps.firstStart (mm.blocks ys) poolSize)
      then some (pageUp (Gaps.lastEnd 0 (mm.blocks xs))) else none := by
  rw [DrmMm.startIn, h.holeEnd_before, lastEnd_blocks h.toPlaced]
  exact adjustHole_eq hsize h.toPlaced.gap.1 h.toPlaced.gap.2 (by decide)

/-- A hole that takes the block is in the index and is visited. -/
theorem Valid.mem_holesInOrder (h : Valid mm (xs ++ ys)) (hsize : size ≠ 0)
    (hfit : Gaps.Fits pageUp (Gaps.endAt size)
      (Gaps.lastEnd 0 (mm.blocks xs), Gaps.firstStart (mm.blocks ys) poolSize))
    (mode : InsertMode) : Ring.before .head xs ∈ mm.holesInOrder size mode := by
  have hlow : Gaps.lastEnd 0 (mm.blocks xs) ≤ pageUp (Gaps.lastEnd 0 (mm.blocks xs)) :=
    pageUp.le_closure _
  have hhigh : pageUp (Gaps.lastEnd 0 (mm.blocks xs)) + size ≤
      Gaps.firstStart (mm.blocks ys) poolSize := hfit
  have hhole := h.holeSize_before
  apply h.index.mem_holesInOrder
  · rw [DrmMm.holeFollows, hhole]
    omega
  · omega

theorem Valid.largestHole_ge (h : Valid mm l) {n : NodeRef} (hn : mm.holeFollows n) :
    (mm.node n).holeSize ≤ mm.largestHole := by
  have hmem := h.index.mem_holesSize.mpr hn
  have hsorted := h.index.sorted
  rw [DrmMm.largestHole]
  cases hholes : mm.holesSize with
  | nil => simp [hholes] at hmem
  | cons m rest =>
      rw [hholes] at hmem hsorted
      rcases List.mem_cons.mp hmem with rfl | hrest
      · exact le_rfl
      · exact (List.pairwise_cons.mp hsorted).1 n hrest

theorem Valid.cut_of_follows (h : Valid mm l) {n : NodeRef} (hn : mm.holeFollows n) :
    ∃ xs ys, l = xs ++ ys ∧ Ring.before .head xs = n := by
  apply Ring.exists_cut
  by_contra hout
  exact hn (h.noHole n hout)

theorem hasRoom_iff : HasRoom mm l size ↔
    ∃ xs ys, l = xs ++ ys ∧ Gaps.Fits pageUp (Gaps.endAt size)
      (Gaps.lastEnd 0 (mm.blocks xs), Gaps.firstStart (mm.blocks ys) poolSize) := by
  constructor
  · intro ⟨gap, hgap, hfit⟩
    rcases Gaps.mem_gaps_iff.mp hgap with ⟨front, back, hsplit, rfl⟩
    rcases List.map_eq_append_iff.mp hsplit with ⟨xs, ys, hl, rfl, rfl⟩
    exact ⟨xs, ys, hl, hfit⟩
  · intro ⟨xs, ys, hl, hfit⟩
    refine ⟨_, Gaps.mem_gaps_iff.mpr ⟨mm.blocks xs, mm.blocks ys, ?_, rfl⟩, hfit⟩
    rw [hl, blocks_append]

theorem HasRoom.size_le (h : HasRoom mm l size) (hvalid : Placed mm l) : size ≤ poolSize := by
  rcases hasRoom_iff.mp h with ⟨xs, ys, rfl, hfit⟩
  have hhigh : pageUp (Gaps.lastEnd 0 (mm.blocks xs)) + size ≤
      Gaps.firstStart (mm.blocks ys) poolSize := hfit
  have hgap := hvalid.gap
  omega

/-- A block of `size` bytes at `start` is page-aligned, inside the pool and off
the nodes of `l`. -/
def FreeAt (mm : DrmMm) (l : List NodeRef) (size start : Nat) : Prop :=
  pageSize ∣ start ∧ start + size ≤ poolSize ∧
    ∀ n ∈ l, start + size ≤ (mm.block n).1 ∨ (mm.block n).2 ≤ start

theorem placement_iff {start : Nat} :
    Gaps.Placement pageUp (Gaps.endAt size) 0 (mm.blocks l) poolSize start ↔
      FreeAt mm l size start := by
  simp only [Gaps.Placement, FreeAt, DrmMm.blocks, List.forall_mem_map, Nat.zero_le, true_and]
  rfl

theorem FreeAt.subset {ns : List NodeRef} {start : Nat} (h : FreeAt mm l size start)
    (hsub : ∀ n ∈ ns, n ∈ l) : FreeAt mm ns size start :=
  ⟨h.1, h.2.1, fun n hn => h.2.2 n (hsub n hn)⟩

theorem FreeAt.of_block {mm' : DrmMm} {start : Nat} (h : FreeAt mm l size start)
    (hblock : ∀ n ∈ l, mm'.block n = mm.block n) : FreeAt mm' l size start := by
  refine ⟨h.1, h.2.1, fun n hn => ?_⟩
  rw [hblock n hn]
  exact h.2.2 n hn

theorem hasRoom_iff_freeAt (hpacked : Gaps.Packed 0 (mm.blocks l) poolSize) :
    HasRoom mm l size ↔ ∃ start, FreeAt mm l size start := by
  simp only [← placement_iff]
  exact (Gaps.exists_placement_iff hpacked).symm

theorem Valid.largestHole_of_room (h : Valid mm l) (hsize : size ≠ 0)
    (hroom : HasRoom mm l size) : size ≤ mm.largestHole := by
  rcases hasRoom_iff.mp hroom with ⟨xs, ys, rfl, hfit⟩
  have hfollows := h.index.follows_of_mem (h.mem_holesInOrder hsize hfit .evict)
  have hlow := pageUp.le_closure (Gaps.lastEnd 0 (mm.blocks xs))
  have hhigh : pageUp (Gaps.lastEnd 0 (mm.blocks xs)) + size ≤
      Gaps.firstStart (mm.blocks ys) poolSize := hfit
  have hhole := h.holeSize_before
  have hlargest := h.largestHole_ge hfollows
  omega

/-- An insertion places the block at the bottom of a gap, or finds no room and
changes nothing. -/
theorem insertNodeGeneric_cases (h : Valid mm l) (hp : p ∉ NodeRef.head :: l) (size : Nat)
    (mode : InsertMode) :
    (∃ xs ys mm', l = xs ++ ys ∧ size ≠ 0 ∧
      Gaps.Fits pageUp (Gaps.endAt size)
        (Gaps.lastEnd 0 (mm.blocks xs), Gaps.firstStart (mm.blocks ys) poolSize) ∧
      mm.insertNodeGeneric p size pageSize mode = .ok (0, mm') ∧ Valid mm' (xs ++ p :: ys) ∧
      PlacedAt mm mm' p (pageUp (Gaps.lastEnd 0 (mm.blocks xs))) size) ∨
    (size = 0 ∨ ¬ HasRoom mm l size) ∧
      mm.insertNodeGeneric p size pageSize mode = .ok (-enospc, mm) := by
  have hrange : ¬ (0 > u64Max) := by decide
  rw [DrmMm.insertNodeGeneric, DrmMm.insertNodeInRange, bugOn_of_not hrange, ok_bind]
  by_cases hzero : size = 0 ∨ sub64 u64Max 0 < size
  · right
    rw [if_pos hzero]
    refine ⟨hzero.imp_right ?_, rfl⟩
    intro hlarge hroom
    have hle := hroom.size_le h.toPlaced
    have hword : poolSize ≤ sub64 u64Max 0 := by decide
    omega
  have hsize : size ≠ 0 := fun heq => hzero (Or.inl heq)
  rw [if_neg hzero]
  by_cases hlargest : mm.largestHole < size
  · right
    rw [if_pos hlargest]
    refine ⟨Or.inr ?_, rfl⟩
    intro hroom
    have hle := h.largestHole_of_room hsize hroom
    omega
  rw [if_neg hlargest, firstHole_eq]
  rcases insertLoop_cases p size (normalAlignment pageSize) 0 u64Max
      (fun visited n left hsplit => h.index.nextHole_eq mode hsplit) _
      (holesInOrder_length mm size mode) with
    ⟨hole, hhole, start, hstart, hloop⟩ | ⟨hnone, hloop⟩
  · left
    rcases h.cut_of_follows (h.index.follows_of_mem hhole) with ⟨xs, ys, rfl, rfl⟩
    rw [h.startIn_eq hsize] at hstart
    split at hstart
    · next hfit =>
        obtain rfl := Option.some.inj hstart
        have hclosed : pageSize ∣ pageUp (Gaps.lastEnd 0 (mm.blocks xs)) :=
          pageUp.isClosed_closure _
        rcases insertInHole_valid h hp hsize hclosed (pageUp.le_closure _) hfit with
          ⟨mm', hrun, hvalid, hplaced⟩
        refine ⟨xs, ys, mm', rfl, hsize, hfit, ?_, hvalid, hplaced⟩
        rw [hloop, h.holeEnd_before, lastEnd_blocks h.toPlaced, hrun]
        rfl
    · cases hstart
  · right
    refine ⟨Or.inr ?_, hloop⟩
    intro hroom
    rcases hasRoom_iff.mp hroom with ⟨xs, ys, rfl, hfit⟩
    have hmiss := hnone _ (h.mem_holesInOrder hsize hfit mode)
    rw [h.startIn_eq hsize, if_pos hfit] at hmiss
    cases hmiss

/-- The search from the top of the hole stack takes the first hole if the block
fits there. -/
theorem insertNodeGeneric_top (h : Valid mm (xs ++ ys)) (hp : p ∉ NodeRef.head :: (xs ++ ys))
    (hsize : size ≠ 0)
    (hfit : Gaps.Fits pageUp (Gaps.endAt size)
      (Gaps.lastEnd 0 (mm.blocks xs), Gaps.firstStart (mm.blocks ys) poolSize))
    (htop : mm.holeStack.head? = some (Ring.before .head xs)) :
    ∃ mm', mm.insertNodeGeneric p size pageSize .evict = .ok (0, mm') ∧
      Valid mm' (xs ++ p :: ys) ∧
      PlacedAt mm mm' p (pageUp (Gaps.lastEnd 0 (mm.blocks xs))) size := by
  have hroom : HasRoom mm (xs ++ ys) size := hasRoom_iff.mpr ⟨xs, ys, rfl, hfit⟩
  have hrange : ¬ (0 > u64Max) := by decide
  have hword : ¬ (size = 0 ∨ sub64 u64Max 0 < size) := by
    have hle := hroom.size_le h.toPlaced
    have hpool : poolSize ≤ sub64 u64Max 0 := by decide
    omega
  have hlargest : ¬ mm.largestHole < size := not_lt.mpr (h.largestHole_of_room hsize hroom)
  have hstart := h.startIn_eq hsize
  rw [if_pos hfit, DrmMm.startIn] at hstart
  rcases insertInHole_valid h hp hsize (pageUp.isClosed_closure _) (pageUp.le_closure _) hfit with
    ⟨mm', hrun, hvalid, hplaced⟩
  have hfuel : ∃ fuel, mm.holesSize.length + mm.holeStack.length = fuel + 1 := by
    cases hstack : mm.holeStack with
    | nil => simp [hstack] at htop
    | cons n stack => exact ⟨mm.holesSize.length + stack.length, rfl⟩
  rcases hfuel with ⟨fuel, hfuel⟩
  refine ⟨mm', ?_, hvalid, hplaced⟩
  rw [DrmMm.insertNodeGeneric, DrmMm.insertNodeInRange, bugOn_of_not hrange, ok_bind, if_neg hword,
    if_neg hlargest, DrmMm.firstHole, htop, hfuel, DrmMm.insertLoop]
  simp only [hstart]
  rw [h.holeEnd_before, lastEnd_blocks h.toPlaced, hrun]
  rfl

end Insert

end CmaPool.Drm
