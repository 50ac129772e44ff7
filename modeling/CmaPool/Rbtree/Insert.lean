import CmaPool.Rbtree.Augment

/-! `__rb_insert`: the colours are mended from the new node up. -/

namespace CmaPool.Rbtree

open RedBlack RbRoot

variable {α β : Type} [DecidableEq α] {augment : RbAugmentCallbacks α β}
  {combine : α → Option β → Option β → β} {total : List α → β}

section Rotate

variable {f : α → β} {node : α → RbNode α} {side : Side} {ctx : List (Frame α)}
  {a b d : RbTree α} {c cnew clinks : Color} {p : Option α} {new old : α}

/-- The callback of a rotation, after the links below `old` are written. -/
theorem consistent_rotate (haug : Maintains augment combine) (htotal : Totals combine total)
    (c' cold cb : Color)
    (h : Consistent combine f (plug ctx (.on side c (.on side cnew a new b) old d)))
    (hnodup : (plug ctx (.on side c (.on side cnew a new b) old d)).toList.Nodup)
    (hold : node old = linked side p clinks b.root d.root) :
    Consistent combine (augment.rotate node f old new)
      (plug ctx (.on side c' a new (.on side cold (b.recolor cb) old d))) := by
  have hn := nodup_rotate hnodup
  simp only [List.nodup_cons, List.mem_cons, List.mem_append, not_or] at hn
  have hne : new ≠ old := fun heq => hn.1.1 heq.symm
  have hother : ∀ t : RbTree α, new ∉ t.toList →
      t.root.map (Function.update f new (f old)) = t.root.map f := by
    intro t ht
    refine map_root_congr fun y hy => ?_
    have hy : y ≠ new := fun heq => ht (heq ▸ hy)
    exact Function.update_of_ne hy (f old) f
  have hrotated : Consistent combine (augment.rotate node f old new)
      (plug ctx (.on side c' a new (.on side cold b old d))) := by
    rw [haug.rotate, combineOn_linked combine hold, hother b hn.2.1.2.1, hother d hn.2.1.2.2.1]
    refine h.rotate htotal hnodup ?_ (Function.update_self _ _ _) (fun y => ?_)
    · rw [Function.update_of_ne hne, Function.update_self]
    · by_cases hold : y = old
      · exact .inr (.inl hold)
      · by_cases hnew : y = new
        · exact .inl hnew
        · rw [Function.update_of_ne hold, Function.update_of_ne hnew]
          exact .inr (.inr rfl)
  simpa [consistent_plug, consistent_on] using hrotated

/-- The callbacks of two rotations one after the other. -/
theorem consistent_rotateTwice {node' : α → RbNode α} {e : RbTree α} {mid : α} {q : Option α}
    {cmid clinks' : Color} (haug : Maintains augment combine) (htotal : Totals combine total)
    (c' cmid' cold cb ce : Color)
    (h : Consistent combine f
      (plug ctx (.on side c (.on side.other cmid (.on side cnew b new e) mid a) old d)))
    (hnodup : (plug ctx
      (.on side c (.on side.other cmid (.on side cnew b new e) mid a) old d)).toList.Nodup)
    (hmid : node mid = linked side.other p clinks b.root a.root)
    (hold : node' old = linked side q clinks' e.root d.root) :
    Consistent combine (augment.rotate node' (augment.rotate node f mid new) old new)
      (plug ctx (.on side c' (.on side.other cmid' (b.recolor cb) mid a) new
        (.on side cold (e.recolor ce) old d))) := by
  let lower : Frame α := ⟨side, c, old, d⟩
  have hbefore : plug ctx (.on side c (.on side.other cmid (.on side cnew b new e) mid a) old d) =
      plug (lower :: ctx) (.on side.other cmid (.on side.other cnew e new b) mid a) := by
    rw [RbTree.on_other side cnew]
    rfl
  have hbetween : plug (lower :: ctx) (.on side.other cmid e new (.on side.other cmid' (b.recolor cb)
      mid a)) = plug ctx (.on side c (.on side cmid (.on side.other cmid' (b.recolor cb) mid a) new e)
      old d) := by
    rw [RbTree.on_other side cmid]
    rfl
  have hlist : (plug ctx (.on side c (.on side cmid (.on side.other cmid' (b.recolor cb) mid a) new e)
      old d)).toList = (plug ctx
      (.on side c (.on side.other cmid (.on side cnew b new e) mid a) old d)).toList := by
    cases side <;> simp [RbTree.on]
  have hfirst := consistent_rotate haug htotal cmid cmid' cb (hbefore ▸ h) (hbefore ▸ hnodup) hmid
  rw [hbetween] at hfirst
  exact consistent_rotate haug htotal c' cold ce hfirst (hlist ▸ hnodup) hold

end Rotate

section Steps

variable {s : RbRoot α β} {side : Side} {ctx : List (Frame α)} {a b d e : RbTree α}
  {c : Color} {old mid new : α}

theorem augmented_insertOuter (augment : RbAugmentCallbacks α β) (s : RbRoot α β) (side : Side)
    (new old : α) : (s.insertOuter augment side new old).augmented =
      augment.rotate (s.insertOuter augment side new old).node s.augmented old new := by
  simp [insertOuter, augmentRotate]

theorem augmented_insertInner (augment : RbAugmentCallbacks α β) (s : RbRoot α β) (side : Side)
    (new mid : α) : (s.insertInner augment side new mid).augmented =
      augment.rotate (s.insertInner augment side new mid).node s.augmented mid new := by
  simp [insertInner, augmentRotate]

theorem Holds.outer (augment : RbAugmentCallbacks α β)
    (h : Holds s (plug ctx (.on side c (.on side .red a new b) old d))) :
    Holds (s.insertOuter augment side new old)
      (plug ctx (.on side c a new (.on side .red (b.recolor .black) old d))) := by
  have hstored := h.stored
  rw [stored_plug, stored_on, stored_on, RbTree.root_on] at hstored
  rcases hstored with ⟨_, hold, ⟨hnew, _, _⟩, _⟩
  have hn := nodup_rotate h.nodup
  simp only [List.nodup_cons, List.mem_cons, List.mem_append, not_or] at hn
  have hne : old ≠ new := hn.1.1
  have hb : b.root ≠ some new ∧ b.root ≠ some old := by
    constructor <;> intro hroot
    · exact hn.2.1.2.1 (RbTree.root_mem hroot)
    · exact hn.1.2.2.1 (RbTree.root_mem hroot)
  refine Holds.augmented (Holds.rotated (some old) .red .black h ?_ ?_ ?_ ?_ ?_) _
  · simp
  · simp [node_setParentColorIf, node_writeChild, hnew, hb, hne.symm]
  · simp [node_setParentColorIf, node_writeChild, hold, hnew, hb, hne]
  · intro x hx
    have hxnew : x ≠ new := fun heq => hb.1 (heq ▸ hx)
    have hxold : x ≠ old := fun heq => hb.2 (heq ▸ hx)
    simp [node_setParentColorIf, node_writeChild, hnew, hx, hxold, hxnew]
  · intro y
    simp only [node_setParentColorIf, node_writeChild, hnew, linked_child_other]
    grind

theorem Represents.outer (haug : Maintains augment combine) (htotal : Totals combine total)
    (h : Represents combine s (plug ctx (.on side c (.on side .red a new b) old d))) :
    Represents combine (s.insertOuter augment side new old)
      (plug ctx (.on side c a new (.on side .red (b.recolor .black) old d))) := by
  have hholds := h.holds.outer augment
  have hstored := hholds.stored
  rw [stored_plug, stored_on, stored_on, RbTree.root_recolor] at hstored
  have hold := hstored.2.2.2.1
  refine ⟨hholds, ?_⟩
  rw [augmented_insertOuter]
  exact consistent_rotate haug htotal c .red .black h.consistent h.holds.nodup hold

theorem node_insertInner (augment : RbAugmentCallbacks α β) {pmid : Option α}
    (hmid : s.node mid = linked side pmid .red a.root (some new))
    (hnew : s.node new = linked side (some mid) .red b.root e.root) (hne : mid ≠ new)
    (hb : ∀ y, b.root = some y → y ≠ new ∧ y ≠ mid) (y : α) :
    (s.insertInner augment side new mid).node y =
      if y = mid then linked side (some new) .red a.root b.root
      else if y = new then linked side (some mid) .red (some mid) e.root
      else if b.root = some y then { s.node y with parent := some mid, color := .black }
      else s.node y := by
  simp only [insertInner, augmentRotate, node_rbSetParentColor, node_setParentColorIf,
    node_writeChild, hmid, hnew]
  split_ifs <;> simp_all

/-- Cases 2 and 3 of `__rb_insert` one after the other. -/
theorem Holds.inner (augment : RbAugmentCallbacks α β)
    (h : Holds s (plug ctx (.on side c (.on side.other .red (.on side .red b new e) mid a) old d))) :
    Holds ((s.insertInner augment side new mid).insertOuter augment side new old)
      (plug ctx (.on side c (.on side.other .red (b.recolor .black) mid a) new
        (.on side .red (e.recolor .black) old d))) := by
  have hstored := h.stored
  simp only [stored_plug, stored_on, RbTree.root_on, linked_other] at hstored
  rcases hstored with ⟨_, hold, ⟨hmid, ⟨hnew, _, _⟩, _⟩, _⟩
  have hn := nodup_rotateTwice h.nodup
  simp only [List.nodup_cons, List.mem_cons, List.mem_append, not_or] at hn
  rcases hn with ⟨⟨hom, hon, hob, hoe, hoa, hod, hoc⟩, ⟨hmn, hmb, hme, hma, hmd, hmc⟩,
    ⟨hnb, hne, hna, hnd, hnc⟩, hrest⟩
  have hb : ∀ y, b.root = some y → y ≠ new ∧ y ≠ mid ∧ y ≠ old := by
    intro y hy
    have hmem := RbTree.root_mem hy
    grind
  have he : ∀ y, e.root = some y → y ≠ new ∧ y ≠ mid ∧ y ≠ old ∧ b.root ≠ some y := by
    intro y hy
    have hmem := RbTree.root_mem hy
    have hdisjoint := List.disjoint_of_nodup_append hrest
    have hbe : b.root ≠ some y := fun heq =>
      hdisjoint (RbTree.root_mem heq) (List.mem_append_left _ hmem)
    grind
  let t := s.insertInner augment side new mid
  have ht : ∀ y, t.node y = _ := node_insertInner augment hmid hnew hmn fun y hy =>
    ⟨(hb y hy).1, (hb y hy).2.1⟩
  have htmp : (t.node new).child side.other = e.root := by
    rw [ht new, if_neg (Ne.symm hmn), if_pos rfl, linked_child_other]
  let u := ((t.writeChild old side e.root).writeChild new side.other (some old)).setParentColorIf
    (some old) .black e.root
  have hu : ∀ y, u.node y = if y = old then linked side (above none ctx) c e.root d.root
      else if y = new then linked side (some mid) .red (some mid) (some old)
      else if e.root = some y then { s.node y with parent := some old, color := .black }
      else t.node y := by
    intro y
    simp only [u, node_setParentColorIf, node_writeChild, ht]
    split_ifs <;> simp_all
  have houter : t.insertOuter augment side new old =
      (u.rbRotateSetParents old new .red).augmentRotate augment old new := by
    rw [insertOuter, htmp]
  change Holds (t.insertOuter augment side new old) _
  rw [houter]
  refine Holds.augmented (h.rotatedTwice (some mid) .red .black .black ?_ ?_ ?_ ?_ ?_ ?_ ?_) _
  · simp [u, t, insertInner, augmentRotate]
  · rw [hu, if_neg (Ne.symm hon), if_pos rfl]
  · have hemid : e.root ≠ some mid := fun heq => (he mid heq).2.1 rfl
    rw [hu, if_neg (Ne.symm hom), if_neg hmn, if_neg hemid, ht, if_pos rfl]
  · rw [hu, if_pos rfl]
  · intro x hx
    have hxe : e.root ≠ some x := fun heq => (he x heq).2.2.2 hx
    rw [hu, if_neg (hb x hx).2.2, if_neg (hb x hx).1, if_neg hxe, ht, if_neg (hb x hx).2.1,
      if_neg (hb x hx).1, if_pos hx]
  · intro x hx
    rw [hu, if_neg (he x hx).2.2.1, if_neg (he x hx).1, if_pos hx]
  · intro y
    rw [hu, ht]
    grind

/-- The augmented values after cases 2 and 3 of `__rb_insert`. -/
theorem Represents.inner (haug : Maintains augment combine) (htotal : Totals combine total)
    (h : Represents combine s
      (plug ctx (.on side c (.on side.other .red (.on side .red b new e) mid a) old d))) :
    Represents combine ((s.insertInner augment side new mid).insertOuter augment side new old)
      (plug ctx (.on side c (.on side.other .red (b.recolor .black) mid a) new
        (.on side .red (e.recolor .black) old d))) := by
  have hholds := h.holds.inner augment
  have hn := nodup_rotateTwice h.holds.nodup
  simp only [List.nodup_cons, List.mem_cons, List.mem_append, not_or] at hn
  have hb : ∀ y, b.root = some y → y ≠ new ∧ y ≠ mid := by
    intro y hy
    have hmem := RbTree.root_mem hy
    grind
  have hstored := h.holds.stored
  simp only [stored_plug, stored_on, RbTree.root_on, linked_other] at hstored
  have hmid := node_insertInner augment hstored.2.2.1.1 hstored.2.2.1.2.1.1 hn.2.1.1 hb mid
  rw [if_pos rfl, ← linked_other] at hmid
  have hstored' := hholds.stored
  simp only [stored_plug, stored_on, RbTree.root_recolor] at hstored'
  refine ⟨hholds, ?_⟩
  rw [augmented_insertOuter, augmented_insertInner]
  exact consistent_rotateTwice haug htotal c .red .red .black .black h.consistent h.holds.nodup hmid
    hstored'.2.2.2.1

theorem Represents.recolored {t : RbTree α} {x : α} (h : Represents combine s (plug ctx t))
    (hx : t.root = some x) (c : Color) :
    Represents combine (s.rbSetParentColor x (above none ctx) c) (plug ctx (t.recolor c)) := by
  refine ⟨h.holds.recolored hx c, ?_⟩
  have hcons := consistent_plug.mp h.consistent
  rw [consistent_plug, RbTree.root_recolor, consistent_recolor]
  exact hcons

/-- Case 1 of `__rb_insert`. -/
theorem Represents.flip {pside : Side} {t o u : RbTree α} {p g tmp : α}
    (h : Represents combine s (plug ctx (.on side .black (.on pside .red t p o) g u)))
    (hu : u.root = some tmp) :
    Represents combine (s.insertFlip p g tmp)
      (plug ctx (.on side .red (.on pside .black t p o) g (u.recolor .black))) := by
  let uncle : Frame α := ⟨side.other, .black, g, .on pside .red t p o⟩
  have huncle : ∀ u, plug (uncle :: ctx) u = plug ctx (.on side .black (.on pside .red t p o) g u) := by
    intro u
    exact congrArg (plug ctx) (RbTree.on_other side .black u g _)
  let parent : Frame α := ⟨side, .black, g, u.recolor .black⟩
  have h₁ : Represents combine (s.rbSetParentColor tmp (some g) .black)
      (plug (uncle :: ctx) (u.recolor .black)) := Represents.recolored (huncle u ▸ h) hu .black
  rw [huncle] at h₁
  have hparent : Represents combine (s.rbSetParentColor tmp (some g) .black)
      (plug (parent :: ctx) (.on pside .red t p o)) := h₁
  have h₂ := hparent.recolored RbTree.root_on .black
  rw [RbTree.recolor_on] at h₂
  have hgparent : Represents combine ((s.rbSetParentColor tmp (some g) .black).rbSetParentColor p
      (some g) .black) (plug ctx (.on side .black (.on pside .black t p o) g (u.recolor .black))) :=
    h₂
  have hg := (stored_on.mp (stored_plug.mp hgparent.holds.stored).2).1
  have h₃ := hgparent.recolored RbTree.root_on .red
  rw [RbTree.recolor_on] at h₃
  rw [insertFlip, hg, linked_parent]
  exact h₃

end Steps

section Loop

variable {s : RbRoot α β} {ctx : List (Frame α)}

omit [DecidableEq α] in
/-- The colour test of a child. -/
theorem redAt_root {p : Option α} {t : RbTree α} (h : Stored s.node p t) :
    s.redAt t.root ↔ ¬ t.IsBlack := by
  cases t with
  | nil => simp [redAt]
  | node c l x r =>
      have hx : (s.node x).color = c := by rw [h.1]
      cases c <;> simp [redAt, hx]

/-- The comparison that picks the half of a loop. -/
theorem side_eq {f : Frame α} {x : α} {top : Option α}
    (h : StoredAbove s.node top (some x) (f :: ctx)) (hx : x ∉ f.sibling.toList) :
    (if some x ≠ (s.node f.value).right then Side.left else .right) = f.side := by
  have hvalue := h.1
  rcases f with ⟨side, c, y, o⟩
  have hroot : o.root ≠ some x := fun heq => hx (RbTree.root_mem heq)
  cases side with
  | left => simp [hvalue, linked, Ne.symm hroot]
  | right => simp [hvalue, linked]

/-- One turn of the loop below a red parent. -/
theorem rbInsert_red {pside side : Side} {p g x : α} {o u t : RbTree α} (fuel : Nat)
    (h : Holds s (plug (⟨pside, .red, p, o⟩ :: ⟨side, .black, g, u⟩ :: ctx) t))
    (hx : t.root = some x) :
    rbInsert augment (fuel + 1) s x (some p) =
      if s.redAt u.root then
        u.root.bind fun tmp => rbInsert augment fuel (s.insertFlip p g tmp) g
          ((s.insertFlip p g tmp).node g).parent
      else if pside = side.other then
        some ((s.insertInner augment side x p).insertOuter augment side x g)
      else
        some (s.insertOuter augment side p g) := by
  have hn := (toList_plug_perm _ t).nodup_iff.mp h.nodup
  have hxt : x ∈ t.toList := RbTree.root_mem hx
  simp only [members, List.nodup_append, List.nodup_cons, List.mem_cons, List.mem_append] at hn
  have hpu : p ∉ u.toList := by grind
  have hxo : x ∉ o.toList := by grind
  rcases (stored_plug.mp h.stored).1 with ⟨hp, _, hg, hu, _⟩
  have hside : (if some p ≠ (s.node g).right then Side.left else .right) = side :=
    side_eq (stored_plug.mp h.stored).1.2.2 hpu
  have htmp : (s.node g).child side.other = u.root := by rw [hg, linked_child_other]
  have hinner : some x = (s.node p).child side.other ↔ pside = side.other := by
    rw [hp, hx]
    have hne : o.root ≠ some x := fun heq => hxo (RbTree.root_mem heq)
    cases pside <;> cases side <;> simp [linked, RbNode.child, Ne.symm hne]
  have hcolor : (s.node p).color ≠ .black := by simp [hp]
  have hparent : (s.node p).parent = some g := by simp [hp]
  rw [rbInsert, if_neg hcolor, hparent]
  simp only [Option.bind_eq_bind, Option.bind_some, hside, htmp, hinner]
  rfl

end Loop

/-- The loop makes a red-black tree of a tree whose only flaw is that the parent
of the red `x` may be red as well. -/
theorem rbInsert_spec (haug : Maintains augment combine) (htotal : Totals combine total)
    {fuel n : Nat} {s : RbRoot α β} {ctx : List (Frame α)} {l r : RbTree α} {x : α}
    (h : Represents combine s (plug ctx (.node .red l x r)))
    (hl : l.IsBlack ∧ l.Balanced n) (hr : r.IsBlack ∧ r.Balanced n) (hctx : Accepts n ctx)
    (hfuel : ctx.length < fuel) :
    ∃ s' t, rbInsert augment fuel s x (above none ctx) = some s' ∧ Represents combine s' t ∧
      t.IsRedBlack ∧ t.toList = (plug ctx (.node .red l x r)).toList := by
  induction fuel generalizing n s ctx l x r with
  | zero => cases hfuel
  | succ fuel ih =>
      have hx : (RbTree.node .red l x r).Balanced n := ⟨⟨hl.1, hr.1⟩, hl.2, hr.2⟩
      rcases ctx with _ | ⟨⟨pside, _ | _, p, o⟩, ctx⟩
      · exact ⟨_, _, rfl, h.recolored rfl .black, ⟨rfl, n + 1, n, rfl, hl.2, hr.2⟩, by simp⟩
      · rcases ctx with _ | ⟨⟨side, gc, g, u⟩, ctx⟩
        · exact absurd hctx.1.2 id
        · rcases hctx with ⟨⟨hoblack, hgblack⟩, ho, hctx⟩
          cases hgblack
          rcases hctx with ⟨hu, hctx⟩
          have htree : Represents combine s
              (plug ctx (.on side .black (.on pside .red (.node .red l x r) p o) g u)) := h
          have hlength : ctx.length < fuel := by
            simp only [List.length_cons] at hfuel
            omega
          have hustored := (stored_plug.mp h.holds.stored).1.2.2.2.1
          rw [above_cons, rbInsert_red fuel h.holds rfl]
          by_cases hred : s.redAt u.root
          · rcases RbTree.exists_red_of_not_isBlack ((redAt_root hustored).mp hred) with
              ⟨ul, tmp, ur, rfl⟩
            have hflip := htree.flip rfl
            have hgnode := (stored_on.mp (stored_plug.mp hflip.holds.stored).2).1
            have hlower : (RbTree.on pside .black (.node .red l x r) p o).IsBlack ∧
                (RbTree.on pside .black (.node .red l x r) p o).Balanced (n + 1) :=
              ⟨by simp, RbTree.balanced_on_black.mpr ⟨n, rfl, hx, ho⟩⟩
            have huncle : (RbTree.node .black ul tmp ur).IsBlack ∧
                (RbTree.node .black ul tmp ur).Balanced (n + 1) :=
              ⟨rfl, n, rfl, (RbTree.balanced_red.mp hu).2⟩
            have hlist : (plug ctx (.on side .red (.on pside .black (.node .red l x r) p o) g
                (.node .black ul tmp ur))).toList = (plug ctx (.on side .black
                (.on pside .red (.node .red l x r) p o) g (.node .red ul tmp ur))).toList := by
              cases side <;> cases pside <;> simp [RbTree.on]
            rw [if_pos hred, RbTree.root_node, Option.bind_some, hgnode, linked_parent]
            cases side with
            | left =>
                rcases ih hflip hlower huncle hctx hlength with ⟨s', t, heq, hrep, hblack, ht⟩
                exact ⟨s', t, heq, hrep, hblack, ht.trans hlist⟩
            | right =>
                rcases ih hflip huncle hlower hctx hlength with ⟨s', t, heq, hrep, hblack, ht⟩
                exact ⟨s', t, heq, hrep, hblack, ht.trans hlist⟩
          · have hublack : u.IsBlack := not_not.mp ((redAt_root hustored).not.mp hred)
            rw [if_neg hred]
            by_cases hinner : pside = side.other
            · subst hinner
              rcases RbTree.exists_on side .red l x r with ⟨b, e, hon⟩
              rw [hon] at htree hx
              have hlist : (plug ctx (.on side .black (.on side.other .red (b.recolor .black) p o) x
                  (.on side .red (e.recolor .black) g u))).toList = (plug ctx
                  (.on side .black (.on side.other .red (.on side .red b x e) p o) g u)).toList := by
                cases side <;> simp [RbTree.on]
              rw [if_pos rfl]
              exact ⟨_, _, rfl, htree.inner haug htotal,
                inner_isRedBlack hx ⟨hoblack, ho⟩ ⟨hublack, hu⟩ hctx, hon ▸ hlist⟩
            · have hsame : pside = side := by
                cases pside <;> cases side <;> simp_all
              subst hsame
              have hlist : (plug ctx (.on pside .black (.node .red l x r) p
                  (.on pside .red (o.recolor .black) g u))).toList = (plug ctx
                  (.on pside .black (.on pside .red (.node .red l x r) p o) g u)).toList := by
                cases pside <;> simp [RbTree.on]
              rw [if_neg hinner]
              exact ⟨_, _, rfl, htree.outer haug htotal,
                outer_isRedBlack hx ⟨hoblack, ho⟩ ⟨hublack, hu⟩ hctx, hlist⟩
      · have hp := (stored_plug.mp h.holds.stored).1.1
        rw [above_cons, rbInsert, hp, linked_color, if_pos rfl]
        exact ⟨s, _, rfl, h, plug_isRedBlack.mpr ⟨n, hx, hctx, .inr rfl⟩, rfl⟩

end CmaPool.Rbtree
