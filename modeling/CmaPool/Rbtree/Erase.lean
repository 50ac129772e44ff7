import CmaPool.Rbtree.EraseColor

/-! `__rb_erase_augmented`: a node is unlinked, or its successor takes its
place. -/

namespace CmaPool.Rbtree

open RedBlack RbRoot

variable {α β : Type} [DecidableEq α] {augment : RbAugmentCallbacks α β}
  {combine : α → Option β → Option β → β} {total : List α → β}

section Splice

variable {s u : RbRoot α β} {side : Side} {ctx : List (Frame α)} {t : RbTree α}
  {c : Color} {x : α}

/-- `__rb_change_child` moves the place of a subtree. -/
theorem Holds.replaced (t' : RbTree α) (h : Holds s (plug ctx t)) (hx : t.root = some x)
    (hroot : u.rbNode = s.rbNode) (hsame : ∀ y ∈ members ctx, u.node y = s.node y) :
    StoredAbove (u.rbChangeChild x t'.root (above none ctx)).node none t'.root ctx ∧
      (u.rbChangeChild x t'.root (above none ctx)).rbNode = (plug ctx t').root ∧
      ∀ y, y ∉ members ctx →
        (u.rbChangeChild x t'.root (above none ctx)).node y = u.node y := by
  have hctx := (stored_plug.mp h.stored).1
  have hn := (toList_plug_perm ctx t).nodup_iff.mp h.nodup
  have hxctx : x ∉ members ctx := List.disjoint_of_nodup_append hn (RbTree.root_mem hx)
  rw [hx] at hctx
  refine ⟨?_, ?_, fun y hy => node_rbChangeChild_of_not_mem t'.root hctx hxctx hsame hy⟩
  · rw [rbChangeChild_eq t'.root hctx hxctx hsame]
    exact storedAbove_hook t'.root hctx (List.nodup_append.mp hn).2.1 hsame
  · rw [rbChangeChild_eq t'.root hctx hxctx hsame]
    exact rbNode_hook (hroot.trans h.root) t'

theorem Holds.spliced (h : Holds s (plug ctx (.on side c t x .nil))) :
    Holds ((s.rbChangeChild x t.root (above none ctx)).setParentColorIf (above none ctx) c t.root)
      (plug ctx (t.recolor c)) := by
  rcases h.replaced t RbTree.root_on rfl (fun _ _ => rfl) with ⟨hctx, hroot, hrest⟩
  have ht := (stored_on.mp (stored_plug.mp h.stored).2).2.1
  have hn := (perm_on_append side c t x .nil (members ctx)).nodup_iff.mp
    ((toList_plug_perm ctx _).nodup_iff.mp h.nodup)
  rw [List.nodup_cons, RbTree.toList, List.nil_append] at hn
  have hdisjoint : ∀ y ∈ t.toList, y ∉ members ctx := fun y hy => List.disjoint_of_nodup_append hn.2 hy
  refine ⟨?_, stored_plug.mpr ⟨?_, ?_⟩, ?_⟩
  · rw [rbNode_setParentColorIf, hroot]
    exact root_plug_congr ctx (RbTree.root_recolor t).symm
  · rw [RbTree.root_recolor]
    refine hctx.congr fun y hy => ?_
    have hne : t.root ≠ some y := fun heq => hdisjoint y (RbTree.root_mem heq) hy
    rw [node_setParentColorIf, if_neg hne]
  · refine ht.reparent (List.nodup_append.mp hn.2).1 (fun y hy => ?_) (fun y hy hne => ?_)
    · rw [node_setParentColorIf, if_pos hy, hrest y (hdisjoint y (RbTree.root_mem hy))]
    · rw [node_setParentColorIf, if_neg hne, hrest y (hdisjoint y hy)]
  · refine (toList_plug_perm ctx (t.recolor c)).nodup_iff.mpr ?_
    rw [RbTree.toList_recolor]
    exact hn.2

theorem eraseSimple_eq (s : RbRoot α β) (x : α) (child : Option α) :
    s.eraseSimple x child =
      (if child = none ∧ (s.node x).color = .black then (s.node x).parent else none,
        (s.rbChangeChild x child (s.node x).parent).setParentColorIf (s.node x).parent
          (s.node x).color child) := by
  cases child with
  | none => simp [eraseSimple, setParentColorIf]
  | some child => simp [eraseSimple, setParentColorIf]

end Splice

section Replace

variable {s u : RbRoot α β} {ctx inner : List (Frame α)} {l sr : RbTree α} {c cs : Color}
  {x y tmp parent : α}

theorem eraseReplace_eq (u : RbRoot α β) (parent : α) (child2 up : Option α) (hne : x ≠ y)
    (hxtmp : x ≠ tmp) (hup : (u.node x).parent = up)
    (hchange : ((((u.writeChild y .left (some tmp)).rbSetParent tmp (some y)).rbChangeChild x
      (some y) up).node y) = { u.node y with left := some tmp }) :
    u.eraseReplace x y parent tmp child2 =
      (if child2 = none ∧ (u.node y).color = .black then some parent else none,
        ((((u.writeChild y .left (some tmp)).rbSetParent tmp (some y)).rbChangeChild x (some y)
          up).rbSetParentColor y up (u.node x).color).setParentColorIf (some parent) .black
            child2) := by
  have hx : ((u.writeChild y .left (some tmp)).rbSetParent tmp (some y)).node x = u.node x := by
    rw [rbSetParent, node_setNode, if_neg hxtmp, node_writeChild, if_neg hne]
  cases child2 with
  | none => simp [eraseReplace, hx, hup, hchange, setParentColorIf]
  | some child2 => simp [eraseReplace, hx, hup, setParentColorIf]

omit [DecidableEq α] in
/-- `y` in the place of `x`, and `sr` in the place of `y`. -/
theorem Holds.replacedBy {w : RbRoot α β}
    (h : Holds s (plug ctx (.node c l x (plug inner (.node cs .nil y sr)))))
    (hroot : w.rbNode = (plug ctx (.node c l y (plug inner (sr.recolor .black)))).root)
    (hctx : StoredAbove w.node none (some y) ctx)
    (hinner : StoredAbove w.node (some y) sr.root inner)
    (hy : w.node y = ⟨above none ctx, c, (plug inner sr).root, l.root⟩)
    (hl : ∀ z, l.root = some z → w.node z = { s.node z with parent := some y })
    (hsr : ∀ z, sr.root = some z →
      w.node z = { s.node z with parent := above (some y) inner, color := .black })
    (hrest : ∀ z, z = y ∨ z ∈ members ctx ∨ z ∈ members inner ∨ l.root = some z ∨
      sr.root = some z ∨ w.node z = s.node z) :
    Holds w (plug ctx (.node c l y (plug inner (sr.recolor .black)))) := by
  have hn := nodup_replace _ h.nodup
  rcases (stored_plug.mp h.stored).2 with ⟨_, hlstored, hplugged⟩
  have hsrstored := (stored_plug.mp hplugged).2.2.2
  rcases exists_recolor_self hlstored with ⟨k, hk, hkey⟩
  have hroots : (plug inner (sr.recolor .black)).root = (plug inner sr).root :=
    root_plug_congr inner (RbTree.root_recolor sr)
  have hlmem : ∀ z, l.root = some z → z ∈ l.toList := fun z => RbTree.root_mem
  have hsrmem : ∀ z, sr.root = some z → z ∈ sr.toList := fun z => RbTree.root_mem
  simp only [List.nodup_cons, List.mem_cons, List.nodup_append, List.mem_append, not_or] at hn
  refine ⟨hroot, stored_plug.mpr ⟨hctx, ?_, ?_, stored_plug.mpr ⟨?_, ?_⟩⟩, ?_⟩
  · rw [hy, hroots]
  · refine hk ▸ hlstored.reparent (by grind) (fun z hz => ?_) (fun z hz hne => ?_)
    · have hkz := hkey z hz
      rw [hl z hz, ← hkz]
    · grind
  · rw [RbTree.root_recolor]
    exact hinner
  · refine hsrstored.reparent (by grind) (fun z hz => hsr z hz) (fun z hz hne => ?_)
    grind
  · refine (perm_replace ctx inner c l (sr.recolor .black) y).nodup_iff.mpr ?_
    simp only [RbTree.toList_recolor, List.nodup_cons, List.nodup_append, List.mem_append, not_or]
    grind

/-- The end of cases 2 and 3: `y` stands below the frames `inner` and has been
unlinked from them already. -/
theorem Holds.eraseReplace
    (h : Holds s (plug ctx (.node c l x (plug inner (.node cs .nil y sr)))))
    (hl : l.root = some tmp) (hroot : u.rbNode = s.rbNode)
    (hcolor : (u.node y).color = cs) (hright : (u.node y).right = (plug inner sr).root)
    (hinner : StoredAbove u.node (some y) sr.root inner)
    (hparent : above (some y) inner = some parent)
    (hrest : ∀ z, z = y ∨ z ∈ members inner ∨ u.node z = s.node z) :
    ∃ w, u.eraseReplace x y parent tmp sr.root =
        (if sr.root = none ∧ cs = .black then some parent else none, w) ∧
      Holds w (plug ctx (.node c l y (plug inner (sr.recolor .black)))) ∧
      w.augmented = u.augmented := by
  have hn := nodup_replace _ h.nodup
  have hx := (stored_plug.mp h.stored).2.1
  have htmp := RbTree.root_mem hl
  have hsrmem : ∀ z, sr.root = some z → z ∈ sr.toList := fun z => RbTree.root_mem
  simp only [List.nodup_cons, List.mem_cons, List.nodup_append, List.mem_append, not_or] at hn
  rcases hn with ⟨⟨hxy, hxl, hxs, hxi, hxc⟩, ⟨hyl, hys, hyi, hyc⟩, hdisjoint⟩
  have hux : u.node x = s.node x := by grind
  let v := (u.writeChild y .left (some tmp)).rbSetParent tmp (some y)
  have hv : ∀ z, v.node z = if z = tmp then { u.node z with parent := some y }
      else if z = y then { u.node y with left := some tmp } else u.node z := by
    intro z
    simp only [v, rbSetParent, node_setNode, node_writeChild]
    split_ifs <;> simp_all [RbNode.setChild]
  have hctx : ∀ z ∈ members ctx, v.node z = s.node z := by
    intro z hz
    rw [hv]
    grind
  rcases h.replaced (.node c l y (plug inner (sr.recolor .black))) rfl (u := v) hroot hctx with
    ⟨hvctx, hvroot, hvrest⟩
  rw [RbTree.root_node] at hvctx hvroot hvrest
  have hup : (u.node x).parent = above none ctx := by rw [hux, hx]
  have hchange : (v.rbChangeChild x (some y) (above none ctx)).node y =
      { u.node y with left := some tmp } := by
    rw [hvrest y hyc, hv]
    grind
  let w := ((v.rbChangeChild x (some y) (above none ctx)).rbSetParentColor y (above none ctx)
    (u.node x).color).setParentColorIf (some parent) .black sr.root
  have hxtmp : x ≠ tmp := fun heq => hxl (heq ▸ htmp)
  have heq := eraseReplace_eq u parent sr.root (above none ctx) hxy hxtmp hup hchange
  rw [hcolor] at heq
  have hw : ∀ z, z ∉ members ctx → w.node z =
      if sr.root = some z then { u.node z with parent := some parent, color := .black }
      else if z = y then ⟨above none ctx, c, (plug inner sr).root, some tmp⟩
      else if z = tmp then { u.node z with parent := some y } else u.node z := by
    intro z hz
    simp only [w, node_setParentColorIf, node_rbSetParentColor, hvrest z hz, hvrest y hyc, hv]
    grind
  have hwctx : ∀ z ∈ members ctx, w.node z =
      (v.rbChangeChild x (some y) (above none ctx)).node z := by
    intro z hz
    simp only [w, node_setParentColorIf, node_rbSetParentColor]
    grind
  refine ⟨w, heq, h.replacedBy ?_ (hvctx.congr hwctx) (hinner.congr fun z hz => ?_) ?_
    (fun z hz => ?_) (fun z hz => ?_) (fun z => ?_), by simp [w, v, rbSetParent, setNode]⟩
  · simpa [w] using hvroot
  · rw [hw z (by grind)]
    grind
  · rw [hw y hyc, hl]
    grind
  · rw [hw z (by grind)]
    grind
  · rw [hw z (by grind), hparent]
    grind
  · by_cases hz : z ∈ members ctx
    · exact .inr (.inl hz)
    · rw [hw z hz]
      grind

end Replace

section Successor

variable {s : RbRoot α β} {ctx inner : List (Frame α)} {l ls rs sr : RbTree α} {c cs cr : Color}
  {x y tmp child parent : α}

omit [DecidableEq α] in
/-- The loop of case 3 goes down to the left as far as it can. -/
theorem eraseSuccessor_spec {fuel : Nat} {p : Option α} {below : α}
    (h : Stored s.node p (.node cr ls child rs)) (hbelow : ls.root = some below)
    (hfuel : ls.depth ≤ fuel) :
    ∃ f inner cs y sr, RbTree.node cr ls child rs = plug (f :: inner) (.node cs .nil y sr) ∧
      (∀ g ∈ f :: inner, g.side = .left) ∧
      (f :: inner).getLast? = some ⟨.left, cr, child, rs⟩ ∧
      s.eraseSuccessor fuel child below = some (f.value, y) := by
  induction ls generalizing fuel p cr child rs below with
  | nil => cases hbelow
  | node cl lls b lrs ih _ =>
      cases Option.some.inj hbelow
      have hb := h.2.1.1
      cases fuel with
      | zero => cases hfuel
      | succ fuel =>
          rw [eraseSuccessor, hb]
          cases hll : lls.root with
          | none =>
              cases RbTree.root_eq_none.mp hll
              exact ⟨⟨.left, cr, child, rs⟩, [], cl, b, lrs, rfl, by simp, rfl, rfl⟩
          | some next =>
              have hdepth : lls.depth ≤ fuel := by
                simp only [RbTree.depth] at hfuel
                omega
              rcases ih h.2.1 hll hdepth with ⟨f, inner, cs, y, sr, heq, hleft, hlast, hrun⟩
              refine ⟨f, inner ++ [⟨.left, cr, child, rs⟩], cs, y, sr, ?_, ?_, ?_, hrun⟩
              · rw [← List.cons_append, plug_append, ← heq]
                rfl
              · intro g hg
                rw [← List.cons_append, List.mem_append, List.mem_singleton] at hg
                rcases hg with hg | rfl
                · exact hleft g hg
                · rfl
              · rw [← List.cons_append, List.getLast?_concat]

/-- What case 3 writes before the successor is taken up. -/
def unlinkSuccessor (s : RbRoot α β) (parent y child : α) (child2 : Option α) : RbRoot α β :=
  ((s.writeChild parent .left child2).writeChild y .right (some child)).rbSetParent child (some y)

omit [DecidableEq α] in
theorem root_plug_last {ctx : List (Frame α)} {z : Frame α} (h : ctx.getLast? = some z)
    (t : RbTree α) : (plug ctx t).root = some z.value := by
  induction ctx generalizing t with
  | nil => cases h
  | cons f ctx ih =>
      cases ctx with
      | nil =>
          have hf : f = z := by simpa using h
          simp [hf, Frame.fill]
      | cons g ctx => exact ih (by simpa using h) (f.fill t)

section Unlink

variable {f z : Frame α}
  (h : Holds s (plug ctx (.node c l x (plug (f :: inner) (.node cs .nil y sr)))))
  (hlast : (f :: inner).getLast? = some z)

include h hlast

theorem storedAbove_unlinkSuccessor (hf : f.side = .left) :
    StoredAbove (unlinkSuccessor s f.value y z.value sr.root).node (some y) sr.root (f :: inner) := by
  have hn := nodup_replace _ h.nodup
  rw [List.nodup_cons, List.nodup_cons] at hn
  have hy : y ∉ members (f :: inner) := by
    intro hy
    exact hn.2.1 (by simp only [List.mem_append, hy, true_or, or_true])
  have hnodup : (members (f :: inner)).Nodup := by
    have hrest := (List.nodup_append.mp (List.nodup_append.mp hn.2.2).2.1).2.1
    exact (List.nodup_append.mp hrest).1
  have hinner := (stored_plug.mp (stored_plug.mp h.stored).2.2.2).1
  have hcut : StoredAbove (s.writeChild f.value .left sr.root).node (some x) sr.root (f :: inner) := by
    refine hinner.rechild hnodup (fun g hg => ?_) (fun w _ hw => ?_)
    · cases Option.some.inj hg
      rw [node_writeChild, if_pos rfl, hf]
    · have hne : w ≠ f.value := fun heq => hw (by rw [heq, above_cons])
      rw [node_writeChild, if_neg hne]
  have hnext : StoredAbove ((s.writeChild f.value .left sr.root).writeChild y .right
      (some z.value)).node (some x) sr.root (f :: inner) := by
    refine hcut.congr fun w hw => ?_
    have hne : w ≠ y := fun heq => hy (heq ▸ hw)
    rw [node_writeChild, if_neg hne]
  refine hnext.retop hnodup hlast ?_ fun w _ hne => ?_
  · rw [unlinkSuccessor, rbSetParent, node_setNode, if_pos rfl]
  · rw [unlinkSuccessor, rbSetParent, node_setNode, if_neg hne]

theorem node_unlinkSuccessor :
    (unlinkSuccessor s f.value y z.value sr.root).node y =
        ⟨some f.value, cs, some z.value, none⟩ ∧
      ∀ w, w = y ∨ w ∈ members (f :: inner) ∨
        (unlinkSuccessor s f.value y z.value sr.root).node w = s.node w := by
  have hn := nodup_replace _ h.nodup
  rw [List.nodup_cons, List.nodup_cons] at hn
  have hy : y ∉ members (f :: inner) := by
    intro hy
    exact hn.2.1 (by simp only [List.mem_append, hy, true_or, or_true])
  have hfmem : f.value ∈ members (f :: inner) := List.mem_cons_self
  have hzmem : z.value ∈ members (f :: inner) := value_mem (List.mem_of_getLast? hlast)
  have hyf : y ≠ f.value := fun heq => hy (heq ▸ hfmem)
  have hyz : y ≠ z.value := fun heq => hy (heq ▸ hzmem)
  have hstored := (stored_plug.mp (stored_plug.mp h.stored).2.2.2).2.1
  simp only [unlinkSuccessor, rbSetParent, node_setNode, node_writeChild]
  refine ⟨by simp [hyf, hyz, hstored, RbNode.setChild], fun w => ?_⟩
  by_cases hw : w ∈ members (f :: inner)
  · exact .inr (.inl hw)
  · have hwf : w ≠ f.value := fun heq => hw (heq ▸ hfmem)
    have hwz : w ≠ z.value := fun heq => hw (heq ▸ hzmem)
    by_cases hwy : w = y
    · exact .inl hwy
    · simp [hwf, hwz, hwy]

end Unlink

end Successor

section Erase

variable {s u : RbRoot α β} {side : Side} {ctx inner : List (Frame α)} {l r t sr : RbTree α}
  {c cs : Color} {x y tmp parent : α} {fuel : Nat}

/-- The `propagate` up to the root. -/
theorem Holds.propagated (haug : Maintains augment combine) (h : Holds u (plug ctx t))
    (hstale : StaleAbove combine u.augmented ctx) (ht : Consistent combine u.augmented t)
    (hfuel : ctx.length < fuel) :
    ∃ s', u.augmentPropagate augment fuel (above none ctx) none = some s' ∧
      Represents combine s' (plug ctx t) := by
  have hn := (toList_plug_perm ctx t).nodup_iff.mp h.nodup
  have hctx := (stored_plug.mp h.stored).1
  have hdisjoint : ∀ z ∈ t.toList, z ∉ members ctx := fun z hz => List.disjoint_of_nodup_append hn hz
  rcases haug.propagate hctx (List.nodup_append.mp hn).2.1 (by simp)
      (fun z hz heq => hdisjoint z (RbTree.root_mem heq) hz) hstale hfuel with
    ⟨g, hg, hcons, hrest⟩
  have hgt : Consistent combine g t := ht.congr fun z hz => hrest z (hdisjoint z hz)
  refine ⟨{ u with augmented := g }, ?_, h.augmented g, consistent_plug.mpr ⟨hcons, hgt⟩⟩
  rw [augmentPropagate, hg]
  rfl

theorem Represents.eraseSimple (haug : Maintains augment combine)
    (h : Represents combine s (plug ctx (.on side c t x .nil))) (hfuel : ctx.length < fuel) :
    ∃ u s', s.eraseSimple x t.root =
        (if t.root = none ∧ c = .black then above none ctx else none, u) ∧
      u.augmentPropagate augment fuel (s.node x).parent none = some s' ∧
      Represents combine s' (plug ctx (t.recolor c)) := by
  have hx := (stored_on.mp (stored_plug.mp h.holds.stored).2).1
  rcases consistent_plug.mp h.consistent with ⟨hctx, htree⟩
  have ht := (consistent_on.mp htree).2.1
  let w := (s.rbChangeChild x t.root (above none ctx)).setParentColorIf (above none ctx) c t.root
  have hw : Holds w (plug ctx (t.recolor c)) := h.holds.spliced
  have haugw : w.augmented = s.augmented := by simp [w]
  rcases hw.propagated haug (haugw ▸ hctx.stale) (haugw ▸ consistent_recolor.mpr ht) hfuel with
    ⟨s', hrun, hrep⟩
  refine ⟨w, s', ?_, ?_, hrep⟩
  · rw [eraseSimple_eq, hx, linked_color, linked_parent]
  · rw [hx, linked_parent]
    exact hrun

theorem Represents.eraseReplace (haug : Maintains augment combine)
    (h : Represents combine s (plug ctx (.node c l x (plug inner (.node cs .nil y sr)))))
    (hl : l.root = some tmp) (hroot : u.rbNode = s.rbNode)
    (hcolor : (u.node y).color = cs) (hright : (u.node y).right = (plug inner sr).root)
    (hinner : StoredAbove u.node (some y) sr.root inner)
    (hparent : above (some y) inner = some parent)
    (hrest : ∀ z, z = y ∨ z ∈ members inner ∨ u.node z = s.node z)
    (hcopy : u.augmented y = s.augmented x)
    (hsame : ∀ z, z = y ∨ z ∈ members inner ∨ u.augmented z = s.augmented z)
    (hcons : Consistent combine u.augmented (plug inner sr)) (hfuel : ctx.length + 1 < fuel) :
    ∃ w s', u.eraseReplace x y parent tmp sr.root =
        (if sr.root = none ∧ cs = .black then some parent else none, w) ∧
      w.augmentPropagate augment fuel (some y) none = some s' ∧
      Represents combine s' (plug ctx (.node c l y (plug inner (sr.recolor .black)))) := by
  rcases h.holds.eraseReplace hl hroot hcolor hright hinner hparent hrest with ⟨w, heq, hw, haugw⟩
  have hn := nodup_replace _ h.holds.nodup
  simp only [List.nodup_cons, List.mem_cons, List.nodup_append, List.mem_append, not_or] at hn
  rcases consistent_plug.mp h.consistent with ⟨hctx, _, hlcons, _⟩
  let frame : Frame α := ⟨.right, c, y, l⟩
  have hframe : Holds w (plug (frame :: ctx) (plug inner (sr.recolor .black))) := hw
  have hlsame : ∀ z ∈ l.toList, u.augmented z = s.augmented z := by grind
  have hctxsame : ∀ z ∈ members ctx, u.augmented z = s.augmented z := by grind
  have hstale : StaleAbove combine w.augmented (frame :: ctx) := by
    rw [haugw]
    refine ⟨hlcons.congr hlsame, ?_⟩
    rw [hcopy]
    exact hctx.congr hctxsame
  have hbelow : Consistent combine w.augmented (plug inner (sr.recolor .black)) := by
    rw [haugw, consistent_plug, RbTree.root_recolor, consistent_recolor]
    exact consistent_plug.mp hcons
  rcases hframe.propagated haug hstale hbelow hfuel with ⟨s', hrun, hrep⟩
  exact ⟨w, s', heq, hrun, hrep⟩

/-- Case 2 of `__rb_erase_augmented`: the right child is the successor. -/
theorem Represents.eraseChild (haug : Maintains augment combine)
    (h : Represents combine s (plug ctx (.node c l x (.node cs .nil y sr))))
    (hl : l.root = some tmp) (hfuel : ctx.length + 1 < fuel) :
    ∃ w s', (s.augmentCopy augment x y).eraseReplace x y y tmp sr.root =
        (if sr.root = none ∧ cs = .black then some y else none, w) ∧
      w.augmentPropagate augment fuel (some y) none = some s' ∧
      Represents combine s' (plug ctx (.node c l y (sr.recolor .black))) := by
  have hy := (stored_plug.mp h.holds.stored).2.2.2.1
  have hsr := (consistent_plug.mp h.consistent).2.2.2.2.2
  have hn := nodup_replace [] h.holds.nodup
  rw [List.nodup_cons, List.nodup_cons] at hn
  have hcopied : (s.augmentCopy augment x y).augmented =
      Function.update s.augmented y (s.augmented x) := haug.copy s.augmented x y
  have hrepl : Represents combine s (plug ctx (.node c l x (plug [] (.node cs .nil y sr)))) := h
  refine hrepl.eraseReplace haug hl rfl ?_ ?_ trivial rfl (fun z => .inr (.inr rfl)) ?_ (fun z => ?_)
    ?_ hfuel
  · exact congrArg RbNode.color hy
  · exact congrArg RbNode.right hy
  · rw [hcopied, Function.update_self]
  · rw [hcopied]
    by_cases hz : z = y
    · exact .inl hz
    · exact .inr (.inr (Function.update_of_ne hz _ _))
  · rw [hcopied]
    refine hsr.congr fun z hz => ?_
    have hne : z ≠ y := by
      rintro rfl
      exact hn.2.1 (by simp [hz])
    exact Function.update_of_ne hne _ _

/-- Case 3: the successor is further down. -/
theorem Represents.eraseBelow (haug : Maintains augment combine) {f z : Frame α}
    (h : Represents combine s (plug ctx (.node c l x (plug (f :: inner) (.node cs .nil y sr)))))
    (hl : l.root = some tmp) (hf : f.side = .left) (hlast : (f :: inner).getLast? = some z)
    (hinner : inner.length + 1 < fuel) (hfuel : ctx.length + 1 < fuel) :
    ∃ v w s', ((unlinkSuccessor s f.value y z.value sr.root).augmentCopy augment x
          y).augmentPropagate augment fuel (some f.value) (some y) = some v ∧
      v.eraseReplace x y f.value tmp sr.root =
        (if sr.root = none ∧ cs = .black then some f.value else none, w) ∧
      w.augmentPropagate augment fuel (some y) none = some s' ∧
      Represents combine s' (plug ctx (.node c l y (plug (f :: inner) (sr.recolor .black)))) := by
  have hn := nodup_replace _ h.holds.nodup
  simp only [List.nodup_cons, List.nodup_append, List.mem_append, not_or] at hn
  have hy : y ∉ members (f :: inner) := hn.2.1.2.2.1
  have hnodup : (members (f :: inner)).Nodup := hn.2.2.2.1.2.1.1
  have hysr : y ∉ sr.toList := hn.2.1.2.1
  have hsr : ∀ w ∈ sr.toList, w ∉ members (f :: inner) := by grind
  have hbelow := consistent_plug.mp (consistent_plug.mp h.consistent).2.2.2
  have hstored := storedAbove_unlinkSuccessor h.holds hlast hf
  rcases node_unlinkSuccessor h.holds hlast with ⟨hynode, hrest⟩
  let u := unlinkSuccessor s f.value y z.value sr.root
  let copied := Function.update s.augmented y (s.augmented x)
  have hcopied : ∀ w, w ≠ y → copied w = s.augmented w := fun w hw => Function.update_of_ne hw _ _
  have hstale : StaleAbove combine copied (f :: inner) := by
    refine hbelow.1.stale.congr fun w hw => hcopied w ?_
    rintro rfl
    exact hy hw
  rcases haug.propagate hstored hnodup
      (fun w hw heq => hy (Option.some.inj heq ▸ hw))
      (fun w hw heq => hsr w (RbTree.root_mem heq) hw) hstale hinner with
    ⟨g, hg, hgcons, hgrest⟩
  let v : RbRoot α β := { u with augmented := g }
  have hrun : (u.augmentCopy augment x y).augmentPropagate augment fuel (some f.value) (some y) =
      some v := by
    rw [augmentPropagate, augmentCopy]
    simp only [haug.copy]
    have hgu : augment.propagate fuel u.node (Function.update u.augmented y (u.augmented x))
        (some f.value) (some y) = some g := hg
    rw [hgu]
    rfl
  have hgsr : Consistent combine g sr := by
    refine hbelow.2.2.2.congr fun w hw => ?_
    have hne : w ≠ y := by
      rintro rfl
      exact hysr hw
    rw [hgrest w (hsr w hw)]
    exact hcopied w hne
  have hvrest : ∀ w, w = y ∨ w ∈ members (f :: inner) ∨ v.augmented w = s.augmented w := by
    intro w
    by_cases hw : w = y
    · exact .inl hw
    · by_cases hmem : w ∈ members (f :: inner)
      · exact .inr (.inl hmem)
      · exact .inr (.inr ((hgrest w hmem).trans (hcopied w hw)))
  rcases h.eraseReplace (u := v) haug hl rfl (congrArg RbNode.color hynode)
      ((congrArg RbNode.right hynode).trans (root_plug_last hlast sr).symm) hstored rfl hrest
      ((hgrest y hy).trans (Function.update_self _ _ _)) hvrest
      (consistent_plug.mpr ⟨hgcons, hgsr⟩) hfuel with
    ⟨w, s', heq, hprop, hrep⟩
  exact ⟨v, w, s', hrun, heq, hprop, hrep⟩

/-- What `__rb_erase_augmented` leaves: a red-black tree, or one that is short of a
black node below `rebalance`. -/
def Unlinked (combine : α → Option β → Option β → β) (s : RbRoot α β) (rebalance : Option α)
    (l : List α) (depth : Nat) : Prop :=
  (rebalance = none ∧ ∃ t, Represents combine s t ∧ t.IsRedBlack ∧ t.toList = l) ∨
    ∃ f ctx, rebalance = some f.value ∧ Represents combine s (plug (f :: ctx) .nil) ∧
      Accepts 1 (f :: ctx) ∧ (plug (f :: ctx) .nil).toList = l ∧ ctx.length < depth

omit [DecidableEq α] in
theorem unlinked_of_splice {ctx : List (Frame α)} {rebalance : Option α} {depth : Nat}
    (h : Represents combine s (plug ctx (t.recolor .black)))
    (hcolor : if t.root = none ∧ c = .black then Accepts 1 ctx
      else (plug ctx (t.recolor .black)).IsRedBlack)
    (hrebalance : rebalance = if t.root = none ∧ c = .black then above none ctx else none)
    (hdepth : ctx.length < depth + 1) :
    Unlinked combine s rebalance (plug ctx (t.recolor .black)).toList depth := by
  by_cases hshort : t.root = none ∧ c = .black
  · rw [if_pos hshort] at hcolor hrebalance
    cases RbTree.root_eq_none.mp hshort.1
    cases ctx with
    | nil => exact .inl ⟨hrebalance, _, h, ⟨trivial, 0, rfl⟩, rfl⟩
    | cons f ctx => exact .inr ⟨f, ctx, hrebalance, h, hcolor, rfl, Nat.lt_of_succ_lt_succ hdepth⟩
  · rw [if_neg hshort] at hcolor hrebalance
    exact .inl ⟨hrebalance, _, h, hcolor, rfl⟩

omit [DecidableEq α] in
theorem above_append (inner ctx : List (Frame α)) (f : Frame α) :
    above none (inner ++ f :: ctx) = above (some f.value) inner := by
  cases inner <;> rfl

omit [DecidableEq α] in
/-- The list without the node, and the colours, when the successor `y` takes its place. -/
theorem unlinked_of_replace (inner : List (Frame α)) {s' : RbRoot α β}
    (h : Represents combine s' (plug ctx (.node c l y (plug inner (sr.recolor .black)))))
    (hcolor : (plug ctx (.node c l x (plug inner (.node cs .nil y sr)))).IsRedBlack)
    (hleft : ∀ g ∈ inner, g.side = .left) (hparent : above (some y) inner = some parent)
    (hfuel : (plug ctx (.node c l x (plug inner (.node cs .nil y sr)))).depth < fuel) :
    Unlinked combine s' (if sr.root = none ∧ cs = .black then some parent else none)
      (before ctx ++ l.toList ++ ((plug inner (.node cs .nil y sr)).toList ++ after ctx)) fuel := by
  let frames : List (Frame α) := inner ++ ⟨.right, c, y, l⟩ :: ctx
  have hplug : ∀ (v : α) (o : RbTree α), plug ctx (.node c l v (plug inner o)) =
      plug (inner ++ ⟨.right, c, v, l⟩ :: ctx) o := by
    intro v o
    rw [plug_append]
    rfl
  rw [hplug] at h hcolor hfuel
  have hdepth := depth_plug (inner ++ ⟨.right, c, x, l⟩ :: ctx) (.node cs .nil y sr)
  have hlength : frames.length < fuel + 1 := by
    simp only [frames, List.length_append, List.length_cons] at hdepth ⊢
    omega
  rcases isRedBlack_splice .right (t := sr) (isRedBlack_value.mp hcolor) with ⟨_, hspliced⟩
  have hrebalance : (if sr.root = none ∧ cs = .black then some parent else none) =
      if sr.root = none ∧ cs = .black then above none frames else none := by
    rw [above_append, hparent]
  have hdone := unlinked_of_splice h hspliced hrebalance hlength
  have hlist : (plug frames (sr.recolor .black)).toList =
      before ctx ++ l.toList ++ ((plug inner (.node cs .nil y sr)).toList ++ after ctx) := by
    rw [← hplug]
    simp [before_eq_nil hleft]
  exact hlist ▸ hdone

theorem rbEraseAugmented_spec (haug : Maintains augment combine)
    (h : Represents combine s (plug ctx (.node c l x r)))
    (hcolor : (plug ctx (.node c l x r)).IsRedBlack)
    (hfuel : (plug ctx (.node c l x r)).depth < fuel) :
    ∃ rebalance s', s.rbEraseAugmented augment fuel x = some (rebalance, s') ∧
      Unlinked combine s' rebalance (before ctx ++ l.toList ++ (r.toList ++ after ctx)) fuel := by
  have hx := (stored_plug.mp h.holds.stored).2.1
  have hdepth := depth_plug ctx (.node c l x r)
  have hctx : ctx.length < fuel := by omega
  have hsimple : ∀ (side : Side) {t : RbTree α},
      RbTree.node c l x r = .on side c t x .nil → t.toList = l.toList ++ r.toList →
      ∃ u s', s.eraseSimple x t.root =
          (if t.root = none ∧ c = .black then above none ctx else none, u) ∧
        u.augmentPropagate augment fuel (above none ctx) none = some s' ∧
        Unlinked combine s' (if t.root = none ∧ c = .black then above none ctx else none)
          (before ctx ++ l.toList ++ (r.toList ++ after ctx)) fuel := by
    intro side t hon hlist
    rw [hon] at h hcolor
    rcases isRedBlack_splice side hcolor with ⟨hblack, hspliced⟩
    rcases h.eraseSimple haug hctx with ⟨u, s', heq, hrun, hdone⟩
    rw [hblack] at hdone
    rw [hx] at hrun
    have hunlinked := unlinked_of_splice hdone hspliced rfl (Nat.lt_succ_of_lt hctx)
    have hwhole : (plug ctx (t.recolor .black)).toList =
        before ctx ++ l.toList ++ (r.toList ++ after ctx) := by simp [hlist]
    exact ⟨u, s', heq, hrun, hwhole ▸ hunlinked⟩
  rw [rbEraseAugmented, hx]
  cases hl : l.root with
  | none =>
      cases RbTree.root_eq_none.mp hl
      rcases hsimple .right (t := r) rfl rfl with ⟨u, s', heq, hrun, hdone⟩
      exact ⟨_, s', by simp [heq, hrun], hdone⟩
  | some tmp =>
      cases r with
      | nil =>
          rcases hsimple .left (t := l) rfl (by simp) with ⟨u, s', heq, hrun, hdone⟩
          rw [hl] at heq
          exact ⟨_, s', by simp [heq, hrun, hl], hdone⟩
      | node cr ls child rs =>
          have hchild := (stored_plug.mp h.holds.stored).2.2.2.1
          have hlong : ctx.length + 1 < fuel := by
            simp only [RbTree.depth] at hdepth
            omega
          cases hls : ls.root with
          | none =>
              cases RbTree.root_eq_none.mp hls
              rcases h.eraseChild haug hl hlong with ⟨w, s', heq, hrun, hdone⟩
              refine ⟨_, s', ?_, unlinked_of_replace [] hdone hcolor (by simp) rfl hfuel⟩
              simp [hchild, heq, hrun]
          | some below =>
              have hdown : ls.depth ≤ fuel := by
                simp only [RbTree.depth] at hdepth
                omega
              rcases eraseSuccessor_spec (stored_plug.mp h.holds.stored).2.2.2 hls hdown with
                ⟨f, inner, cs, y, sr, hplug, hleft, hlast, hfound⟩
              rw [hplug] at h hcolor hfuel hdepth
              have hinner := depth_plug (f :: inner) (.node cs .nil y sr)
              have hlength : inner.length + 1 < fuel := by
                simp only [RbTree.depth, List.length_cons] at hinner hdepth
                omega
              rcases h.eraseBelow haug hl (hleft f List.mem_cons_self) hlast hlength hlong with
                ⟨v, w, s', hprop, heq, hrun, hdone⟩
              have hy := (stored_plug.mp (stored_plug.mp h.holds.stored).2.2.2).2.1
              have hsr : (s.node y).right = sr.root := congrArg RbNode.right hy
              refine ⟨_, s', ?_, hplug ▸ unlinked_of_replace _ hdone hcolor hleft rfl hfuel⟩
              rw [unlinkSuccessor] at hprop
              simp [hchild, hls, hfound, hsr, hprop, heq, hrun]

/-- `rb_erase` takes one node out and keeps the rest in its order. -/
theorem rbErase_spec (haug : Maintains augment combine) (htotal : Totals combine total)
    (h : Represents combine s (plug ctx (.node c l x r)))
    (hcolor : (plug ctx (.node c l x r)).IsRedBlack)
    (hfuel : (plug ctx (.node c l x r)).depth < fuel) :
    ∃ s' t', s.rbErase augment fuel x = some s' ∧ Represents combine s' t' ∧ t'.IsRedBlack ∧
      t'.toList = before ctx ++ l.toList ++ (r.toList ++ after ctx) := by
  rcases rbEraseAugmented_spec haug h hcolor hfuel with ⟨rebalance, u, heq, hunlinked⟩
  rw [rbErase, heq]
  rcases hunlinked with ⟨rfl, t', hdone⟩ | ⟨f, outer, rfl, hrep, haccepts, hlist, hlength⟩
  · exact ⟨u, t', rfl, hdone⟩
  · rcases rbEraseColor_spec haug htotal (n := 0) hrep ⟨trivial, rfl⟩ haccepts hlength with
      ⟨s', t', hrun, hdone, hred, hlist'⟩
    exact ⟨s', t', hrun, hdone, hred, hlist'.trans hlist⟩

end Erase

end CmaPool.Rbtree
