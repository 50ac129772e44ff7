import CmaPool.Rbtree.Erase

/-! The walks over a stored tree: to the ends, and to the neighbours of a node. -/

namespace CmaPool.Rbtree

open RedBlack RbRoot

variable {α β : Type} {s : RbRoot α β}

/-- The end of a list on the side. -/
def endOf (side : Side) (l : List α) : Option α :=
  match side with
  | .left => l.head?
  | .right => l.getLast?

/-- What stands in the list on the side of a place in it. -/
def nextTo (side : Side) (xs ys : List α) : Option α :=
  match side with
  | .left => xs.getLast?
  | .right => ys.head?

theorem descend_spec (side : Side) {fuel : Nat} {t : RbTree α} {p : Option α} {n : α}
    (h : Stored s.node p t) (hn : t.root = some n) (hfuel : t.depth ≤ fuel) :
    ∃ z, s.descend side fuel n = some z ∧ endOf side t.toList = some z := by
  induction t generalizing fuel p n with
  | nil => cases hn
  | node c l x r ihl ihr =>
      cases Option.some.inj hn
      simp only [RbTree.depth] at hfuel
      rcases h with ⟨hx, hl, hr⟩
      cases fuel with
      | zero => omega
      | succ fuel =>
          rw [descend, hx]
          cases side with
          | left =>
              cases hroot : l.root with
              | none =>
                  cases RbTree.root_eq_none.mp hroot
                  exact ⟨x, rfl, rfl⟩
              | some y =>
                  rcases ihl hl hroot (show l.depth ≤ fuel by omega) with ⟨z, hrun, hz⟩
                  refine ⟨z, hrun, ?_⟩
                  rw [endOf] at hz ⊢
                  simp [hz]
          | right =>
              cases hroot : r.root with
              | none =>
                  cases RbTree.root_eq_none.mp hroot
                  exact ⟨x, rfl, by simp [endOf]⟩
              | some y =>
                  rcases ihr hr hroot (show r.depth ≤ fuel by omega) with ⟨z, hrun, hz⟩
                  refine ⟨z, hrun, ?_⟩
                  rw [endOf] at hz ⊢
                  simp [List.getLast?_cons, hz]

variable [DecidableEq α]

theorem ascend_spec (side : Side) {fuel : Nat} {ctx : List (Frame α)} {x : α}
    (h : StoredAbove s.node none (some x) ctx) (hx : (s.node x).parent = above none ctx)
    (hnodup : (members ctx).Nodup) (hout : x ∉ members ctx) (hfuel : ctx.length < fuel) :
    s.ascend side fuel x = some (nextTo side (before ctx) (after ctx)) := by
  induction ctx generalizing fuel x with
  | nil =>
      cases fuel with
      | zero => cases hfuel
      | succ fuel =>
          rw [ascend, hx]
          cases side <;> rfl
  | cons f ctx ih =>
      rcases h with ⟨hf, _, habove⟩
      rw [members, List.nodup_cons, List.mem_append, not_or, List.nodup_append] at hnodup
      cases fuel with
      | zero => cases hfuel
      | succ fuel =>
          rw [ascend, hx, above_cons]
          simp only [hf]
          rcases f with ⟨fside, c, y, o⟩
          by_cases hside : fside = side
          · subst hside
            have hup := ih (x := y) habove (by rw [hf, linked_parent]) hnodup.2.2.1 hnodup.1.2
              (Nat.lt_of_succ_lt_succ hfuel)
            rw [if_pos (by rw [linked_child]), hup]
            cases fside <;> simp [nextTo, before, after, Frame.front, Frame.back]
          · have hother : side = fside.other := by
              cases side <;> cases fside <;> simp_all
            have hsibling : some x ≠ o.root := by
              intro heq
              exact hout (by simp [RbTree.root_mem heq.symm])
            rw [if_neg (by rw [hother, linked_child_other]; exact hsibling), hother]
            cases fside <;> simp [nextTo, before, after, Frame.front, Frame.back]

/-- `rb_next` and `rb_prev`. -/
theorem neighbour_spec {side : Side} {fuel : Nat} {ctx : List (Frame α)} {c : Color}
    {l r : RbTree α} {x : α} (h : Holds s (plug ctx (.node c l x r)))
    (hfuel : (plug ctx (.node c l x r)).depth < fuel) :
    s.neighbour side fuel x = some (nextTo side (before ctx ++ l.toList) (r.toList ++ after ctx)) := by
  rcases stored_plug.mp h.stored with ⟨hctx, hx, hl, hr⟩
  have hn := (toList_plug_perm ctx _).nodup_iff.mp h.nodup
  have hdepth := depth_plug ctx (.node c l x r)
  have hout : x ∉ members ctx := List.disjoint_of_nodup_append hn (by simp)
  have hparent : (s.node x).parent = above none ctx := by rw [hx]
  have hlinked : ¬ s.emptyNode x := by
    intro hempty
    exact hout (above_mem (hparent.symm.trans hempty.1))
  have hup := ascend_spec side hctx hparent (List.nodup_append.mp hn).2.1 hout
    (show ctx.length < fuel by omega)
  simp only [RbTree.depth] at hdepth
  rw [neighbour, if_neg hlinked, hx]
  cases side with
  | left =>
      cases hroot : l.root with
      | none =>
          cases RbTree.root_eq_none.mp hroot
          simpa [RbNode.child, nextTo] using hup
      | some y =>
          rcases descend_spec .right hl hroot (show l.depth ≤ fuel by omega) with ⟨z, hrun, hz⟩
          rw [endOf] at hz
          simp [RbNode.child, nextTo, hrun, hz]
  | right =>
      cases hroot : r.root with
      | none =>
          cases RbTree.root_eq_none.mp hroot
          simpa [RbNode.child, nextTo] using hup
      | some y =>
          rcases descend_spec .left hr hroot (show r.depth ≤ fuel by omega) with ⟨z, hrun, hz⟩
          rw [endOf] at hz
          simp [RbNode.child, nextTo, hrun, hz]

end CmaPool.Rbtree
