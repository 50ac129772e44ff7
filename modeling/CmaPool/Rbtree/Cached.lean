import CmaPool.Rbtree.Tree

/-! Trees that keep their leftmost node at hand. -/

namespace CmaPool.Rbtree

open RedBlack RbRoot

variable {α β : Type} [DecidableEq α]

/-- `rb_first_cached` is the first node. -/
structure IsCached (combine : α → Option β → Option β → β) (s : RbRootCached α β) (l : List α) :
    Prop where
  tree : IsTree combine s.rbRoot l
  leftmost : s.rbLeftmost = l.head?

section Cached

variable {augment : RbAugmentCallbacks α β} {combine : α → Option β → Option β → β}
  {total : List α → β} {s : RbRootCached α β} {l xs ys : List α} {x : α} {fuel : Nat}

omit [DecidableEq α] in
theorem IsCached.recombine {combine' : α → Option β → Option β → β} (h : IsCached combine s l)
    (heq : ∀ x ∈ l, combine' x = combine x) : IsCached combine' s l :=
  ⟨h.tree.recombine heq, h.leftmost⟩

theorem IsCached.rbEraseCached (haug : Maintains augment combine) (htotal : Totals combine total)
    (h : IsCached combine s (xs ++ x :: ys)) (hfuel : depthBound (xs ++ x :: ys).length < fuel) :
    ∃ s', s.rbEraseCached augment fuel x = some s' ∧ IsCached combine s' (xs ++ ys) := by
  rcases h.tree.rbErase haug htotal hfuel with ⟨root, hrun, htree⟩
  have hn := h.tree.nodup
  cases xs with
  | nil =>
      have hfirst : s.rbLeftmost = some x := h.leftmost
      refine ⟨⟨root, ys.head?⟩, ?_, htree, rfl⟩
      rw [RbRootCached.rbEraseCached, if_pos hfirst, h.tree.rbNext hfuel, hrun]
      rfl
  | cons y xs =>
      have hfirst : s.rbLeftmost = some y := h.leftmost
      have hne : s.rbLeftmost ≠ some x := by
        rw [hfirst]
        rintro heq
        cases Option.some.inj heq
        exact (List.nodup_cons.mp hn).1 (by simp)
      refine ⟨⟨root, s.rbLeftmost⟩, ?_, htree, hfirst⟩
      rw [RbRootCached.rbEraseCached, if_neg hne, hrun]
      rfl

end Cached

/-- The loop of `insert_hole_size` or of `RB_INSERT`, and what follows it. -/
def insertCached (t : RbRootCached α Unit) (goLeft : α → Bool) (fuel : Nat) (node : α) :
    Option (RbRootCached α Unit) := do
  let found ← findLink (fun f _ => f) goLeft fuel t.rbRoot none true t.rbRoot.rbNode
  { t with rbRoot := found.1.rbLinkNode node found.2.1 }.rbInsertColorCached dummyCallbacks fuel
    node found.2.2

theorem IsCached.insertCached {s : RbRootCached α Unit} {l : List α} {x : α} {fuel : Nat}
    {goLeft : α → Bool} (h : IsCached combineUnit s l)
    (hsorted : l.Pairwise fun y z => goLeft y → goLeft z) (hx : x ∉ l)
    (hfuel : depthBound l.length < fuel) :
    ∃ s', insertCached s goLeft fuel x = some s' ∧ IsCached combineUnit s'
      ((l.takeWhile fun y => !goLeft y) ++ x :: l.dropWhile fun y => !goLeft y) := by
  rcases h.tree.inserted hsorted hx hfuel with ⟨link, root, hfind, hinsert, htree⟩
  refine ⟨⟨root, if (l.takeWhile fun y => !goLeft y).isEmpty then some x else s.rbLeftmost⟩, ?_,
    htree, ?_⟩
  · simp [Rbtree.insertCached, hfind, RbRootCached.rbInsertColorCached, hinsert]
  · have hfirst := h.leftmost
    cases l with
    | nil => simp
    | cons y l =>
        cases hgo : goLeft y with
        | true => simp [hgo]
        | false => simpa [hgo] using hfirst

section Sorted

variable (key : α → Nat)

omit [DecidableEq α]

/-- A search that goes left at larger keys passes the others. -/
theorem passed_eq (x : α) :
    (fun y => !decide (key x < key y)) = fun y => decide (key y ≤ key x) := by
  funext y
  rw [← decide_not]
  exact decide_eq_decide.mpr not_lt

theorem goesLeft_of_sorted {l : List α} (h : l.Pairwise fun y z => key y ≤ key z) (x : α) :
    l.Pairwise fun y z => decide (key x < key y) = true → decide (key x < key z) = true := by
  refine h.imp fun hle hlt => ?_
  simp only [decide_eq_true_eq] at hlt ⊢
  exact lt_of_lt_of_le hlt hle

end Sorted

end CmaPool.Rbtree
