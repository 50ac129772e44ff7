import CmaPool.Rbtree.Stored

/-! What the rotations of rbtree.c make of a stored tree.

A rotation writes the links below the node that goes down, and then moves the
place in the parent with `__rb_rotate_set_parents`. -/

namespace CmaPool.Rbtree

open RedBlack RbRoot

variable {α β : Type} [DecidableEq α]

section SetParents

variable {s : RbRoot α β} {node : α → RbNode α} {ctx : List (Frame α)} {old new : α}

/-- `__rb_rotate_set_parents` puts `new` into the hole that `old` filled. -/
theorem rbRotateSetParents_eq (cold : Color) (hctx : StoredAbove node none (some old) ctx)
    (hsame : ∀ y ∈ members ctx, s.node y = node y)
    (hold : old ∉ members ctx) (hnew : new ∉ members ctx)
    (hparent : (s.node old).parent = above none ctx) :
    s.rbRotateSetParents old new cold =
      hook ((s.rbSetParentColor new (above none ctx) (s.node old).color).rbSetParentColor old
        (some new) cold) (some new) ctx := by
  rw [rbRotateSetParents, hparent]
  refine rbChangeChild_eq (some new) hctx hold fun y hy => ?_
  have hyold : y ≠ old := fun heq => hold (heq ▸ hy)
  have hynew : y ≠ new := fun heq => hnew (heq ▸ hy)
  simp [rbSetParentColor, node_setNode, hyold, hynew, hsame y hy]

variable (cold : Color) (hctx : StoredAbove node none (some old) ctx)
  (hsame : ∀ y ∈ members ctx, s.node y = node y)
  (hold : old ∉ members ctx) (hnew : new ∉ members ctx)
  (hparent : (s.node old).parent = above none ctx)

include hctx hsame hold hnew hparent

theorem node_rbRotateSetParents (hne : old ≠ new) (y : α) (hy : y ∉ members ctx) :
    (s.rbRotateSetParents old new cold).node y =
      if y = old then { s.node old with parent := some new, color := cold }
      else if y = new then
        { s.node new with parent := above none ctx, color := (s.node old).color }
      else s.node y := by
  rw [rbRotateSetParents_eq cold hctx hsame hold hnew hparent,
    node_hook_of_ne _ _ fun h => hy (above_mem h)]
  simp [rbSetParentColor, node_setNode, hne]

theorem storedAbove_rbRotateSetParents (hnodup : (members ctx).Nodup) :
    StoredAbove (s.rbRotateSetParents old new cold).node none (some new) ctx := by
  rw [rbRotateSetParents_eq cold hctx hsame hold hnew hparent]
  refine storedAbove_hook (some new) hctx hnodup fun y hy => ?_
  have hyold : y ≠ old := fun heq => hold (heq ▸ hy)
  have hynew : y ≠ new := fun heq => hnew (heq ▸ hy)
  simp [rbSetParentColor, node_setNode, hyold, hynew, hsame y hy]

theorem rbNode_rbRotateSetParents {t t' : RbTree α} (hroot : s.rbNode = (plug ctx t).root)
    (ht' : t'.root = some new) :
    (s.rbRotateSetParents old new cold).rbNode = (plug ctx t').root := by
  have hset : ((s.rbSetParentColor new (above none ctx) (s.node old).color).rbSetParentColor old
      (some new) cold).rbNode = (plug ctx t).root := hroot
  rw [rbRotateSetParents_eq cold hctx hsame hold hnew hparent]
  exact ht' ▸ rbNode_hook hset t'

end SetParents

section Rotate

variable {s s' : RbRoot α β} {side : Side} {ctx : List (Frame α)} {a b d e : RbTree α}
  {c cold cnew : Color} {new old : α}

/-- One rotation, with the links written and the place in the parent still to
be set. -/
theorem Holds.rotated (p : Option α) (cnow cb : Color)
    (h : Holds s (plug ctx (.on side c (.on side cnew a new b) old d)))
    (hroot : s'.rbNode = s.rbNode)
    (hnew : s'.node new = linked side p cnow a.root (some old))
    (hold : s'.node old = linked side (above none ctx) c b.root d.root)
    (hb : ∀ x, b.root = some x → s'.node x = { s.node x with parent := some old, color := cb })
    (hrest : ∀ y, y = new ∨ y = old ∨ b.root = some y ∨ s'.node y = s.node y) :
    Holds (s'.rbRotateSetParents old new cold)
      (plug ctx (.on side c a new (.on side cold (b.recolor cb) old d))) := by
  have hstored := h.stored
  rw [stored_plug, stored_on, stored_on, RbTree.root_on] at hstored
  rcases hstored with ⟨hctx, _, ⟨_, ha, hb'⟩, hd⟩
  have hn := nodup_rotate h.nodup
  simp only [List.nodup_cons, List.nodup_append, List.mem_cons, List.mem_append, not_or] at hn
  have hne : old ≠ new := hn.1.1
  have hbmem : ∀ y, b.root = some y → y ∈ b.toList := fun y => RbTree.root_mem
  have hsame : ∀ y ∈ members ctx, s'.node y = s.node y := by grind
  have hparent : (s'.node old).parent = above none ctx := by rw [hold, linked_parent]
  have hnode := node_rbRotateSetParents cold hctx hsame (by grind) (by grind) hparent hne
  have habove := storedAbove_rbRotateSetParents cold hctx hsame (by grind)
    (show new ∉ members ctx by grind) hparent (by grind)
  rw [hold, hnew, linked_color, linked_setParentColor, linked_setParentColor] at hnode
  refine ⟨?_, ?_, ?_⟩
  · exact rbNode_rbRotateSetParents cold hctx hsame (by grind) (by grind) hparent
      (hroot.trans h.root) RbTree.root_on
  · rw [stored_plug, stored_on, stored_on, RbTree.root_on, RbTree.root_on, RbTree.root_recolor]
    refine ⟨habove, ?_, ha.congr ?_, ?_, hb'.reparent (by grind) ?_ ?_, hd.congr ?_⟩
    · rw [hnode new (by grind), if_neg hne.symm, if_pos rfl]
    · grind
    · rw [hnode old (by grind), if_pos rfl]
    · grind
    · grind
    · grind
  · have hlist : (plug ctx (.on side c a new (.on side cold (b.recolor cb) old d))).toList =
        (plug ctx (.on side c (.on side cnew a new b) old d)).toList := by
      cases side <;> simp [RbTree.on]
    exact hlist ▸ h.nodup

variable {mid : α} {cmid cmid' : Color}

/-- Two rotations: `new` goes above `mid` and then above `old`. -/
theorem Holds.rotatedTwice (p : Option α) (cnow cb ce : Color)
    (h : Holds s (plug ctx
      (.on side c (.on side.other cmid (.on side cnew b new e) mid a) old d)))
    (hroot : s'.rbNode = s.rbNode)
    (hnew : s'.node new = linked side p cnow (some mid) (some old))
    (hmid : s'.node mid = linked side (some new) cmid' a.root b.root)
    (hold : s'.node old = linked side (above none ctx) c e.root d.root)
    (hb : ∀ x, b.root = some x → s'.node x = { s.node x with parent := some mid, color := cb })
    (he : ∀ x, e.root = some x → s'.node x = { s.node x with parent := some old, color := ce })
    (hrest : ∀ y, y = new ∨ y = mid ∨ y = old ∨ b.root = some y ∨ e.root = some y ∨
      s'.node y = s.node y) :
    Holds (s'.rbRotateSetParents old new cold)
      (plug ctx (.on side c (.on side.other cmid' (b.recolor cb) mid a) new
        (.on side cold (e.recolor ce) old d))) := by
  have hstored := h.stored
  rw [stored_plug, stored_on, stored_on, stored_on, RbTree.root_on] at hstored
  rcases hstored with ⟨hctx, _, ⟨_, ⟨_, hb', he'⟩, ha⟩, hd⟩
  have hn := nodup_rotateTwice h.nodup
  simp only [List.nodup_cons, List.nodup_append, List.mem_cons, List.mem_append, not_or] at hn
  have hne : old ≠ new := hn.1.2.1
  have hbmem : ∀ y, b.root = some y → y ∈ b.toList := fun y => RbTree.root_mem
  have hemem : ∀ y, e.root = some y → y ∈ e.toList := fun y => RbTree.root_mem
  have hsame : ∀ y ∈ members ctx, s'.node y = s.node y := by grind
  have hparent : (s'.node old).parent = above none ctx := by rw [hold, linked_parent]
  have hnode := node_rbRotateSetParents cold hctx hsame (by grind) (by grind) hparent hne
  have habove := storedAbove_rbRotateSetParents cold hctx hsame (by grind)
    (show new ∉ members ctx by grind) hparent (by grind)
  rw [hold, hnew, linked_color, linked_setParentColor, linked_setParentColor] at hnode
  refine ⟨?_, ?_, ?_⟩
  · exact rbNode_rbRotateSetParents cold hctx hsame (by grind) (by grind) hparent
      (hroot.trans h.root) RbTree.root_on
  · rw [stored_plug, stored_on, stored_on, stored_on, RbTree.root_on, RbTree.root_on,
      RbTree.root_on, RbTree.root_recolor, RbTree.root_recolor, linked_other]
    refine ⟨habove, ?_, ⟨?_, hb'.reparent (by grind) ?_ ?_, ha.congr ?_⟩, ?_,
      he'.reparent (by grind) ?_ ?_, hd.congr ?_⟩
    · rw [hnode new (by grind), if_neg hne.symm, if_pos rfl]
    · grind
    · grind
    · grind
    · grind
    · grind
    · grind
    · grind
    · grind
  · have hlist : (plug ctx (.on side c (.on side.other cmid' (b.recolor cb) mid a) new
        (.on side cold (e.recolor ce) old d))).toList =
        (plug ctx
          (.on side c (.on side.other cmid (.on side cnew b new e) mid a) old d)).toList := by
      cases side <;> simp [RbTree.on]
    exact hlist ▸ h.nodup

end Rotate

end CmaPool.Rbtree
