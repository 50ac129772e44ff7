import CmaPool.Rbtree.Insert

/-! `____rb_erase_color`: a subtree that is short of a black node is mended from
its parent up. -/

namespace CmaPool.Rbtree

open RedBlack RbRoot

variable {α β : Type} [DecidableEq α] {augment : RbAugmentCallbacks α β}
  {combine : α → Option β → Option β → β} {total : List α → β}

section Steps

variable {s : RbRoot α β} {side : Side} {ctx : List (Frame α)} {a b e t : RbTree α}
  {c cs : Color} {P S N tmp : α}

omit [DecidableEq α] in
/-- The colour a subtree has already. -/
theorem exists_recolor_self {node : α → RbNode α} {p : Option α} (h : Stored node p t) :
    ∃ k, t.recolor k = t ∧ ∀ x, t.root = some x → (node x).color = k := by
  cases t with
  | nil => exact ⟨.black, rfl, by simp⟩
  | node k l y r =>
      refine ⟨k, rfl, fun x hx => ?_⟩
      rw [← Option.some.inj hx, h.1]

/-- Case 1 of `____rb_erase_color` is the rotation of case 3 of `__rb_insert`. -/
theorem eraseRedSibling_eq (h : (s.node S).child side.other = some tmp) :
    s.eraseRedSibling augment side.other P S tmp = s.insertOuter augment side S P := by
  simp [eraseRedSibling, insertOuter, h, setParentColorIf]

theorem augmented_eraseOuter (augment : RbAugmentCallbacks α β) (s : RbRoot α β) (side : Side)
    (P S tmp : α) : (s.eraseOuter augment side P S tmp).augmented =
      augment.rotate (s.eraseOuter augment side P S tmp).node s.augmented P S := by
  simp [eraseOuter, augmentRotate]

theorem augmented_eraseInner (augment : RbAugmentCallbacks α β) (s : RbRoot α β) (side : Side)
    (P S N : α) : (s.eraseInner augment side P S N).augmented =
      augment.rotate (s.eraseInner augment side P S N).node s.augmented S N := by
  simp [eraseInner, augmentRotate]

/-- Case 4 of `____rb_erase_color`. -/
theorem Holds.erasedOuter (augment : RbAugmentCallbacks α β)
    (h : Holds s (plug ctx (.on side c (.on side cs a S b) P t))) (ha : a.root = some tmp) :
    Holds (s.eraseOuter augment side.other P S tmp)
      (plug ctx (.on side c (a.recolor .black) S (.on side .black b P t))) := by
  let inner : List (Frame α) := ⟨side, cs, S, b⟩ :: ⟨side, c, P, t⟩ :: ctx
  have hpaint : Holds (s.rbSetParentColor tmp (some S) .black)
      (plug ctx (.on side c (.on side cs (a.recolor .black) S b) P t)) := by
    have hinner : Holds s (plug inner a) := h
    exact hinner.recolored ha .black
  have hstored := hpaint.stored
  simp only [stored_plug, stored_on, RbTree.root_on, RbTree.root_recolor] at hstored
  rcases hstored with ⟨_, hP, ⟨hS, _, hb⟩, _⟩
  rcases exists_recolor_self hb with ⟨k, hk, hkey⟩
  have hn := nodup_rotate h.nodup
  simp only [List.nodup_cons, List.mem_cons, List.mem_append, not_or] at hn
  rcases hn with ⟨⟨hPS, hPa, hPb, _, _⟩, ⟨hSa, hSb, _, _⟩, hdisjoint⟩
  have htmp : tmp ∈ a.toList := RbTree.root_mem ha
  have hStmp : S ≠ tmp := fun heq => hSa (heq ▸ htmp)
  have hPtmp : P ≠ tmp := fun heq => hPa (heq ▸ htmp)
  have hbroot : ∀ y, b.root = some y → y ≠ S ∧ y ≠ P ∧ y ≠ tmp := by
    intro y hy
    have hmem := RbTree.root_mem hy
    have hatmp := List.disjoint_of_nodup_append hdisjoint htmp
    refine ⟨fun heq => hSb (heq ▸ hmem), fun heq => hPb (heq ▸ hmem), fun heq => ?_⟩
    exact hatmp (List.mem_append_left _ (heq ▸ hmem))
  rw [node_rbSetParentColor, if_neg hStmp] at hS
  rw [node_rbSetParentColor, if_neg hPtmp] at hP
  have htmp2 : (s.node S).child side.other = b.root := by rw [hS, linked_child_other]
  let u := (((s.writeChild P side b.root).writeChild S side.other (some P)).rbSetParentColor tmp
    (some S) .black).setParentIf (some P) b.root
  have hu : ∀ y, u.node y = if y = S then linked side (some P) cs a.root (some P)
      else if y = P then linked side (above none ctx) c b.root t.root
      else if b.root = some y then { s.node y with parent := some P }
      else (s.rbSetParentColor tmp (some S) .black).node y := by
    intro y
    simp only [u, node_setParentIf, node_rbSetParentColor, node_writeChild]
    split_ifs <;> simp_all
  have houter : s.eraseOuter augment side.other P S tmp =
      (u.rbRotateSetParents P S .black).augmentRotate augment P S := by
    rw [eraseOuter, htmp2, Side.other_other]
  rw [houter, ← hk]
  refine Holds.augmented (hpaint.rotated (some P) cs k ?_ ?_ ?_ ?_ ?_) _
  · simp [u]
  · rw [hu, if_pos rfl, RbTree.root_recolor]
  · rw [hu, if_neg hPS, if_pos rfl]
  · intro x hx
    have hkx := hkey x hx
    rw [node_rbSetParentColor, if_neg (hbroot x hx).2.2] at hkx ⊢
    rw [hu, if_neg (hbroot x hx).1, if_neg (hbroot x hx).2.1, if_pos hx, ← hkx]
  · intro y
    rw [hu]
    grind

theorem Represents.erasedOuter (haug : Maintains augment combine) (htotal : Totals combine total)
    (h : Represents combine s (plug ctx (.on side c (.on side cs a S b) P t)))
    (ha : a.root = some tmp) :
    Represents combine (s.eraseOuter augment side.other P S tmp)
      (plug ctx (.on side c (a.recolor .black) S (.on side .black b P t))) := by
  have hholds := h.holds.erasedOuter augment ha
  have hstored := hholds.stored
  simp only [stored_plug, stored_on] at hstored
  have hcons := consistent_rotate haug htotal c .black .black h.consistent h.holds.nodup
    hstored.2.2.2.1
  refine ⟨hholds, ?_⟩
  rw [augmented_eraseOuter]
  simpa [consistent_plug, consistent_on] using hcons

theorem node_eraseInner (augment : RbAugmentCallbacks α β) {pS pP : Option α}
    (hS : s.node S = linked side pS cs a.root (some N))
    (hN : s.node N = linked side (some S) .red b.root e.root)
    (hP : s.node P = linked side pP c (some S) t.root)
    (hne : P ≠ S ∧ P ≠ N ∧ S ≠ N) (hb : ∀ y, b.root = some y → y ≠ N ∧ y ≠ S ∧ y ≠ P) (y : α) :
    (s.eraseInner augment side.other P S N).node y =
      if y = S then linked side pS cs a.root b.root
      else if y = N then linked side (some S) .red (some S) e.root
      else if y = P then linked side pP c (some N) t.root
      else if b.root = some y then { s.node y with parent := some S, color := .black }
      else s.node y := by
  simp only [eraseInner, augmentRotate, node_setParentColorIf, node_writeChild, hN, hS, hP,
    Side.other_other]
  split_ifs <;> simp_all

/-- Cases 3 and 4 of `____rb_erase_color` one after the other. -/
theorem Holds.erasedInner (augment : RbAugmentCallbacks α β)
    (h : Holds s (plug ctx (.on side c (.on side.other cs (.on side .red b N e) S a) P t))) :
    Holds ((s.eraseInner augment side.other P S N).eraseOuter augment side.other P N S)
      (plug ctx (.on side c (.on side.other .black (b.recolor .black) S a) N
        (.on side .black e P t))) := by
  have hstored := h.stored
  simp only [stored_plug, stored_on, RbTree.root_on, linked_other] at hstored
  rcases hstored with ⟨_, hP, ⟨hS, ⟨hN, _, he⟩, _⟩, _⟩
  rcases exists_recolor_self he with ⟨k, hk, hkey⟩
  have hn := nodup_rotateTwice h.nodup
  simp only [List.nodup_cons, List.mem_cons, List.mem_append, not_or] at hn
  rcases hn with ⟨⟨hPS, hPN, hPb, hPe, _⟩, ⟨hSN, hSb, hSe, _⟩, ⟨hNb, hNe, _⟩, hrest⟩
  have hb : ∀ y, b.root = some y → y ≠ N ∧ y ≠ S ∧ y ≠ P := by
    intro y hy
    have hmem := RbTree.root_mem hy
    grind
  have hedge : ∀ y, e.root = some y → y ≠ N ∧ y ≠ S ∧ y ≠ P ∧ b.root ≠ some y := by
    intro y hy
    have hmem := RbTree.root_mem hy
    have hdisjoint := List.disjoint_of_nodup_append hrest
    have hbe : b.root ≠ some y := fun heq =>
      hdisjoint (RbTree.root_mem heq) (List.mem_append_left _ hmem)
    grind
  let v := s.eraseInner augment side.other P S N
  have hv : ∀ y, v.node y = _ := node_eraseInner augment hS hN hP ⟨hPS, hPN, hSN⟩ hb
  have htmp2 : (v.node N).child side.other = e.root := by
    rw [hv N, if_neg (Ne.symm hSN), if_pos rfl, linked_child_other]
  let u := (((v.writeChild P side e.root).writeChild N side.other (some P)).rbSetParentColor S
    (some N) .black).setParentIf (some P) e.root
  have hu : ∀ y, u.node y = if y = S then linked side (some N) .black a.root b.root
      else if y = N then linked side (some S) .red (some S) (some P)
      else if y = P then linked side (above none ctx) c e.root t.root
      else if e.root = some y then { s.node y with parent := some P }
      else v.node y := by
    intro y
    simp only [u, node_setParentIf, node_rbSetParentColor, node_writeChild, hv]
    split_ifs <;> simp_all
  have houter : v.eraseOuter augment side.other P N S =
      (u.rbRotateSetParents P N .black).augmentRotate augment P N := by
    rw [eraseOuter, htmp2, Side.other_other]
  change Holds (v.eraseOuter augment side.other P N S) _
  rw [houter, ← hk]
  refine Holds.augmented (h.rotatedTwice (some S) .red .black k ?_ ?_ ?_ ?_ ?_ ?_ ?_) _
  · simp [u, v, eraseInner, augmentRotate]
  · rw [hu, if_neg (Ne.symm hSN), if_pos rfl]
  · rw [hu, if_pos rfl]
  · rw [hu, if_neg hPS, if_neg hPN, if_pos rfl]
  · intro x hx
    have hex : e.root ≠ some x := fun heq => (hedge x heq).2.2.2 hx
    rw [hu, if_neg (hb x hx).2.1, if_neg (hb x hx).1, if_neg (hb x hx).2.2, if_neg hex, hv,
      if_neg (hb x hx).2.1, if_neg (hb x hx).1, if_neg (hb x hx).2.2, if_pos hx]
  · intro x hx
    rw [hu, if_neg (hedge x hx).2.1, if_neg (hedge x hx).1, if_neg (hedge x hx).2.2.1, if_pos hx,
      ← hkey x hx]
  · intro y
    rw [hu, hv]
    grind

theorem Represents.erasedInner (haug : Maintains augment combine) (htotal : Totals combine total)
    (h : Represents combine s
      (plug ctx (.on side c (.on side.other cs (.on side .red b N e) S a) P t))) :
    Represents combine ((s.eraseInner augment side.other P S N).eraseOuter augment side.other P N S)
      (plug ctx (.on side c (.on side.other .black (b.recolor .black) S a) N
        (.on side .black e P t))) := by
  have hholds := h.holds.erasedInner augment
  have hn := nodup_rotateTwice h.holds.nodup
  simp only [List.nodup_cons, List.mem_cons, List.mem_append, not_or] at hn
  have hb : ∀ y, b.root = some y → y ≠ N ∧ y ≠ S ∧ y ≠ P := by
    intro y hy
    have hmem := RbTree.root_mem hy
    grind
  have hstored := h.holds.stored
  simp only [stored_plug, stored_on, RbTree.root_on, linked_other] at hstored
  have hS := node_eraseInner augment hstored.2.2.1.1 hstored.2.2.1.2.1.1 hstored.2.1
    ⟨hn.1.1, hn.1.2.1, hn.2.1.1⟩ hb S
  rw [if_pos rfl, ← linked_other] at hS
  have hstored' := hholds.stored
  simp only [stored_plug, stored_on] at hstored'
  have hcons := consistent_rotateTwice haug htotal c .black .black .black .black h.consistent
    h.holds.nodup hS hstored'.2.2.2.1
  refine ⟨hholds, ?_⟩
  rw [augmented_eraseOuter, augmented_eraseInner]
  simpa [consistent_plug, consistent_on] using hcons

end Steps

section Loop

variable {s : RbRoot α β} {side : Side} {ctx : List (Frame α)} {n : Nat} {a b t sib : RbTree α}
  {c : Color} {P S : α}

theorem rbSetBlack_eq {p : Option α} {x : α} (h : (s.node x).parent = p) :
    s.rbSetBlack x = s.rbSetParentColor x p .black := by
  rw [rbSetBlack, rbSetParentColor, ← h]

/-- What `____rb_erase_color` makes of a subtree that is short of a black node: a
red-black tree, or the same flaw one frame further up. -/
def Mended (combine : α → Option β → Option β → β) (s : RbRoot α β) (ctx : List (Frame α))
    (n : Nat) (P : α) (l : List α) (next : Option α) : Prop :=
  (next = none ∧ ∃ t, Represents combine s t ∧ t.IsRedBlack ∧ t.toList = l) ∨
    (next = above none ctx ∧ Accepts (n + 1) ctx ∧ ∃ t, Represents combine s (plug ctx t) ∧
      t.root = some P ∧ t.IsBlack ∧ t.Balanced n ∧ (plug ctx t).toList = l)

/-- Cases 2, 3 and 4, with the sibling written out. -/
theorem eraseBlackSibling_spec (haug : Maintains augment combine) (htotal : Totals combine total)
    (h : Represents combine s (plug ctx (.on side c (.on side .black a S b) P t)))
    (ha : a.Balanced n) (hb : b.Balanced n) (ht : t.IsBlack ∧ t.Balanced n)
    (hred : c = .red → RedFits ctx ∧ Accepts (n + 1) ctx)
    (hblack : c = .black → Accepts (n + 2) ctx) :
    ∃ next s', s.eraseBlackSibling augment side.other P S = some (next, s') ∧
      Mended combine s' ctx (n + 1) P (plug ctx (.on side c (.on side .black a S b) P t)).toList next ∧
      (c = .red → next = none) := by
  have hstored := h.holds.stored
  simp only [stored_plug, stored_on, RbTree.root_on] at hstored
  rcases hstored with ⟨_, hP, ⟨hS, hastored, hbstored⟩, _⟩
  have htmp1 : (s.node S).child side.other.other = a.root := by
    rw [Side.other_other, hS, linked_child]
  have htmp2 : (s.node S).child side.other = b.root := by rw [hS, linked_child_other]
  have htop : ∀ A B : RbTree α, ∀ x, A.IsBlack ∧ A.Balanced (n + 1) → B.IsBlack ∧ B.Balanced (n + 1) →
      (plug ctx (.on side c A x B)).IsRedBlack := by
    intro A B x hA hB
    cases c with
    | red =>
        exact plug_isRedBlack.mpr ⟨n + 1, RbTree.balanced_on_red.mpr ⟨⟨hA.1, hB.1⟩, hA.2, hB.2⟩,
          (hred rfl).2, .inr (hred rfl).1⟩
    | black =>
        exact plug_isRedBlack.mpr ⟨n + 2, RbTree.balanced_on_black.mpr ⟨n + 1, rfl, hA.2, hB.2⟩,
          hblack rfl, .inl (by simp)⟩
  rw [eraseBlackSibling, htmp1, htmp2]
  by_cases houter : s.redAt a.root
  · rcases RbTree.exists_red_of_not_isBlack ((redAt_root hastored).mp houter) with ⟨al, A, ar, rfl⟩
    have hA : (RbTree.node .black al A ar).IsBlack ∧ (RbTree.node .black al A ar).Balanced (n + 1) :=
      ⟨rfl, n, rfl, (RbTree.balanced_red.mp ha).2⟩
    have hB : (RbTree.on side .black b P t).IsBlack ∧ (RbTree.on side .black b P t).Balanced (n + 1) :=
      ⟨by simp, RbTree.balanced_on_black.mpr ⟨n, rfl, hb, ht.2⟩⟩
    have hlist : (plug ctx (.on side c (.node .black al A ar) S (.on side .black b P t))).toList =
        (plug ctx (.on side c (.on side .black (.node .red al A ar) S b) P t)).toList := by
      cases side <;> simp [RbTree.on]
    refine ⟨none, _, if_pos houter, .inl ⟨rfl, _, h.erasedOuter haug htotal rfl, ?_, hlist⟩,
      fun _ => rfl⟩
    exact htop _ _ S hA hB
  · have hablack : a.IsBlack := not_not.mp ((redAt_root hastored).not.mp houter)
    rw [if_neg houter]
    by_cases hinner : s.redAt b.root
    · rcases RbTree.exists_red_of_not_isBlack ((redAt_root hbstored).mp hinner) with
        ⟨bl, N, br, rfl⟩
      rcases RbTree.exists_on side .red bl N br with ⟨b', e, hon⟩
      have hflip : ∀ m : RbTree α, RbTree.on side .black a S m = .on side.other .black m S a :=
        fun m => (RbTree.on_other side .black m S a).symm
      rw [hon] at hb
      rw [hon, hflip] at h ⊢
      rcases RbTree.balanced_on_red.mp hb with ⟨⟨hb'black, heblack⟩, hb', he⟩
      have hA : (RbTree.on side.other .black (b'.recolor .black) S a).IsBlack ∧
          (RbTree.on side.other .black (b'.recolor .black) S a).Balanced (n + 1) := by
        rw [hb'black.recolor]
        exact ⟨by simp, RbTree.balanced_on_black.mpr ⟨n, rfl, hb', ha⟩⟩
      have hB : (RbTree.on side .black e P t).IsBlack ∧
          (RbTree.on side .black e P t).Balanced (n + 1) :=
        ⟨by simp, RbTree.balanced_on_black.mpr ⟨n, rfl, he, ht.2⟩⟩
      have hlist : (plug ctx (.on side c (.on side.other .black (b'.recolor .black) S a) N
          (.on side .black e P t))).toList = (plug ctx
          (.on side c (.on side.other .black (.on side .red b' N e) S a) P t)).toList := by
        cases side <;> simp [RbTree.on]
      have hred' : s.redAt (some N) := hinner
      refine ⟨none, _, ?_, .inl ⟨rfl, _, h.erasedInner haug htotal, htop _ _ N hA hB, hlist⟩,
        fun _ => rfl⟩
      rw [RbTree.root_on, if_pos hred']
      rfl
    · have hbblack : b.IsBlack := not_not.mp ((redAt_root hbstored).not.mp hinner)
      rw [if_neg hinner]
      let frame : Frame α := ⟨side, c, P, t⟩
      have hsibling : Represents combine s (plug (frame :: ctx) (.on side .black a S b)) := h
      have hpaint := hsibling.recolored RbTree.root_on .red
      rw [RbTree.recolor_on] at hpaint
      have hpaint : Represents combine (s.rbSetParentColor S (some P) .red)
          (plug ctx (.on side c (.on side .red a S b) P t)) := hpaint
      have hnode := (stored_on.mp (stored_plug.mp hpaint.holds.stored).2).1
      have hS : (RbTree.on side .red a S b).Balanced n :=
        RbTree.balanced_on_red.mpr ⟨⟨hablack, hbblack⟩, ha, hb⟩
      have hwhole : (RbTree.on side .black (.on side .red a S b) P t).Balanced (n + 1) :=
        RbTree.balanced_on_black.mpr ⟨n, rfl, hS, ht.2⟩
      have hlist : ∀ c', (plug ctx (.on side c' (.on side .red a S b) P t)).toList =
          (plug ctx (.on side c (.on side .black a S b) P t)).toList := by
        intro c'
        cases side <;> simp [RbTree.on]
      simp only [hnode, linked_color]
      cases c with
      | red =>
          have hdone := hpaint.recolored RbTree.root_on .black
          rw [RbTree.recolor_on] at hdone
          refine ⟨none, _, if_pos rfl, .inl ⟨rfl, _, ?_, ?_, hlist .black⟩, fun _ => rfl⟩
          · rw [rbSetBlack_eq (by rw [hnode, linked_parent])]
            exact hdone
          · exact plug_isRedBlack.mpr ⟨n + 1, hwhole, (hred rfl).2, .inl (by simp)⟩
      | black =>
          refine ⟨above none ctx, _, ?_,
            .inr ⟨rfl, hblack rfl, _, hpaint, by simp, by simp, hwhole, hlist .black⟩, by simp⟩
          simp [linked_parent]

/-- Case 1 and what follows it: the parent is red then, so the loop ends. -/
theorem eraseRedSibling_spec (haug : Maintains augment combine) (htotal : Totals combine total)
    (h : Represents combine s (plug ctx (.on side .black (.on side .red a S b) P t)))
    (ha : a.Balanced (n + 1)) (hb : b.IsBlack ∧ b.Balanced (n + 1)) (ht : t.IsBlack ∧ t.Balanced n)
    (hctx : Accepts (n + 2) ctx) :
    ∃ B s' t', b.root = some B ∧
      (s.eraseRedSibling augment side.other P S B).eraseBlackSibling augment side.other P B =
        some (none, s') ∧
      Represents combine s' t' ∧ t'.IsRedBlack ∧
      t'.toList = (plug ctx (.on side .black (.on side .red a S b) P t)).toList := by
  cases b with
  | nil => cases hb.2
  | node cb bl B br =>
      cases hb.1
      rcases RbTree.exists_on side .black bl B br with ⟨a', b', hon⟩
      have hS := (stored_on.mp (stored_on.mp (stored_plug.mp h.holds.stored).2).2.1).1
      have htmp : (s.node S).child side.other = some B := by
        rw [hS, linked_child_other, RbTree.root_node]
      have hrotated := h.outer haug htotal
      rw [RbTree.recolor_node, hon] at hrotated
      rcases RbTree.balanced_on_black.mp (hon ▸ hb.2) with ⟨m, hm, ha', hb'⟩
      cases hm
      let top : Frame α := ⟨side.other, .black, S, a⟩
      have hframe : Represents combine (s.insertOuter augment side S P)
          (plug (top :: ctx) (.on side .red (.on side .black a' B b') P t)) := by
        rw [plug, Frame.fill, RbTree.on_other]
        exact hrotated
      have htop : RedFits (top :: ctx) ∧ Accepts (n + 1) (top :: ctx) := ⟨rfl, ha, hctx⟩
      rcases eraseBlackSibling_spec haug htotal hframe ha' hb' ht (fun _ => htop) (by simp) with
        ⟨next, s', heq, hmended, hnone⟩
      cases hnone rfl
      rcases hmended with ⟨_, t', hrep, hblack, hlist⟩ | ⟨hnext, _⟩
      · refine ⟨B, s', t', rfl, ?_, hrep, hblack, hlist.trans ?_⟩
        · rw [eraseRedSibling_eq htmp, heq]
        · rw [hon]
          cases side <;> simp [top, Frame.fill, RbTree.on]
      · cases hnext

omit [DecidableEq α] in
/-- The comparison that picks the half of the loop; the subtree may be empty. -/
theorem side_eq_root {f : Frame α} {top : Option α} (h : StoredAbove s.node top t.root (f :: ctx))
    (hS : f.sibling.root = some S) (hSt : S ∉ t.toList) [DecidableEq α] :
    (if t.root ≠ (s.node f.value).right then Side.left else .right) = f.side := by
  have hvalue := h.1
  rcases f with ⟨side, c, y, o⟩
  have hroot : t.root ≠ some S := fun heq => hSt (RbTree.root_mem heq)
  cases side with
  | left => simp_all [linked]
  | right => simp [hvalue, linked]

/-- The loop makes a red-black tree of a tree whose only flaw is that the subtree
in the hole is short of one black node. -/
theorem rbEraseColor_spec (haug : Maintains augment combine) (htotal : Totals combine total)
    {fuel : Nat} {f : Frame α} (h : Represents combine s (plug (f :: ctx) t))
    (ht : t.IsBlack ∧ t.Balanced n) (hctx : Accepts (n + 1) (f :: ctx))
    (hfuel : ctx.length < fuel) :
    ∃ s' t', rbEraseColor augment fuel s t.root f.value = some s' ∧ Represents combine s' t' ∧
      t'.IsRedBlack ∧ t'.toList = (plug (f :: ctx) t).toList := by
  induction fuel generalizing n s f ctx t with
  | zero => cases hfuel
  | succ fuel ih =>
      rcases f with ⟨fside, c, P, sib⟩
      rcases Side.exists_other fside with ⟨side, rfl⟩
      have hsib : sib.Balanced (n + 1) := by
        cases c
        · exact hctx.2.1
        · exact hctx.1
      have hred : c = .red → RedFits ctx ∧ Accepts (n + 1) ctx := by
        rintro rfl
        exact ⟨hctx.1.2, hctx.2.2⟩
      have hblack : c = .black → Accepts (n + 2) ctx := by
        rintro rfl
        exact hctx.2
      have hfill : ∀ o, plug (⟨side.other, c, P, o⟩ :: ctx) t = plug ctx (.on side c o P t) := fun o =>
        congrArg (plug ctx) (RbTree.on_other side c t P o)
      have hstored := stored_plug.mp h.holds.stored
      cases sib with
      | nil => cases hsib
      | node cs sl S sr =>
          have hS : S ∉ t.toList := by
            have hn := (toList_plug_perm _ t).nodup_iff.mp h.holds.nodup
            intro hmem
            exact List.disjoint_of_nodup_append hn hmem (by simp)
          have hside := side_eq_root hstored.1 rfl hS
          have hsibling : (s.node P).child side.other.other = some S := by
            rw [hstored.1.1, linked_child_other, RbTree.root_node]
          have hcolor : (s.node S).color = cs := by rw [hstored.1.2.1.1]
          rcases RbTree.exists_on side cs sl S sr with ⟨a, b, hon⟩
          rw [hfill, hon] at h ⊢
          rw [hon] at hsib
          rw [rbEraseColor]
          simp only [hside, hsibling, Option.bind_eq_bind, Option.bind_some, hcolor]
          cases cs with
          | black =>
              rcases RbTree.balanced_on_black.mp hsib with ⟨m, hm, ha, hb⟩
              cases hm
              rcases eraseBlackSibling_spec haug htotal h ha hb ht hred hblack with
                ⟨next, s', heq, hmended, _⟩
              rw [if_neg (by simp), heq, Option.bind_some]
              rcases hmended with ⟨rfl, t', hdone⟩ | ⟨rfl, hacc, t', hrep, hroot, hblack', ht', hlist⟩
              · exact ⟨s', t', rfl, hdone⟩
              · cases ctx with
                | nil => exact ⟨s', t', rfl, hrep, ⟨hblack', _, ht'⟩, hlist⟩
                | cons g ctx =>
                    have hlength : ctx.length < fuel := Nat.lt_of_succ_lt_succ hfuel
                    rcases ih hrep ⟨hblack', ht'⟩ hacc hlength with ⟨s'', t'', heq', hdone⟩
                    rw [hroot] at heq'
                    exact ⟨s'', t'', heq', hdone.1, hdone.2.1, hdone.2.2.trans hlist⟩
          | red =>
              have hcblack : c = .black := by
                cases c with
                | red => exact absurd hctx.1.1 (by simp)
                | black => rfl
              subst hcblack
              rcases RbTree.balanced_on_red.mp hsib with ⟨⟨_, hbblack⟩, ha, hb⟩
              have hSnode := (stored_on.mp (stored_on.mp (stored_plug.mp h.holds.stored).2).2.1).1
              rcases eraseRedSibling_spec haug htotal h ha ⟨hbblack, hb⟩ ht (hblack rfl) with
                ⟨B, s', t', hroot, heq, hdone⟩
              have htmp : (s.node S).child side.other = some B := by
                rw [hSnode, linked_child_other, hroot]
              rw [if_pos rfl, htmp, Option.bind_some, heq]
              exact ⟨s', t', rfl, hdone⟩

end Loop

end CmaPool.Rbtree
