import CmaPool.Rbtree.Interval

/-! Insertion into an interval tree: the last addresses are raised on the way to the
link, so that the tree is consistent before it is balanced. -/

namespace CmaPool.Rbtree

open RedBlack RbRoot

variable {α : Type} [DecidableEq α]

/-- `if (parent->ITSUBTREE < last) parent->ITSUBTREE = last`. -/
def raiseTo (last : Nat) (f : α → Nat) (parent : α) : α → Nat :=
  if f parent < last then Function.update f parent last else f

/-- The first loop of `drm_mm_interval_tree_add_node`. -/
def raiseUp (last : Nat) : Nat → RbRoot α Nat → Option α → Option (RbRoot α Nat)
  | 0, _, _ => none
  | _ + 1, t, none => some t
  | fuel + 1, t, some rb =>
      if t.augmented rb ≥ last then
        some t
      else
        raiseUp last fuel { t with augmented := Function.update t.augmented rb last }
          (t.node rb).parent

/-- `drm_mm_interval_tree_add_node`; `hole` is none where the hole node is not
allocated. -/
def intervalTreeAddNode (t : RbRootCached α Nat) (start last : α → Nat) (fuel : Nat)
    (hole : Option α) (node : α) : Option (RbRootCached α Nat) := do
  let root := { t.rbRoot with augmented := Function.update t.rbRoot.augmented node (last node) }
  let found ←
    match hole with
    | some hole => do
        let root ← raiseUp (last node) fuel root (some hole)
        findLink (raiseTo (last node)) (fun parent => start node < start parent) fuel root
          (some (hole, .right)) false (root.node hole).right
    | none =>
        findLink (raiseTo (last node)) (fun parent => start node < start parent) fuel root none true
          root.rbNode
  { t with rbRoot := found.1.rbLinkNode node found.2.1 }.rbInsertColorCached
    (declareCallbacks (computeMax last)) fuel node found.2.2

/-- The values on the way to the hole are raised to `v`. -/
def Raised (f g : α → Nat) (v : Nat) (ctx : List (Frame α)) : Prop :=
  ∀ y, g y = if y ∈ ctx.map Frame.value then max (f y) v else f y

section Raised

variable {f g g' : α → Nat} {v : Nat} {ctx inner : List (Frame α)} {last : α → Nat} {x : α}

theorem raiseTo_apply (v : Nat) (f : α → Nat) (x y : α) :
    raiseTo v f x y = if y = x then max (f y) v else f y := by
  rw [raiseTo]
  by_cases hy : y = x
  · subst hy
    split <;> simp <;> omega
  · split <;> simp [hy]

theorem raised_visited : Raised f (visited (raiseTo v) f ctx) v ctx := by
  intro y
  induction ctx with
  | nil => rfl
  | cons fr ctx ih =>
      have hstep : visited (raiseTo v) f (fr :: ctx) =
          raiseTo v (visited (raiseTo v) f ctx) fr.value := rfl
      rw [hstep, raiseTo_apply, ih, List.map_cons]
      by_cases hy : y = fr.value
      · have hmem : y ∈ fr.value :: ctx.map Frame.value := hy ▸ List.mem_cons_self
        rw [if_pos hy, if_pos hmem]
        split <;> omega
      · rw [if_neg hy]
        exact if_congr (by simp [hy]) rfl rfl

theorem Raised.append (hctx : Raised f g v ctx) (hinner : Raised g g' v inner) :
    Raised f g' v (inner ++ ctx) := by
  intro y
  rw [hinner y, hctx y, List.map_append]
  by_cases hi : y ∈ inner.map Frame.value
  · rw [if_pos hi, if_pos (List.mem_append_left _ hi)]
    split <;> omega
  · rw [if_neg hi]
    exact if_congr (by simp only [List.mem_append, hi, false_or]) rfl rfl

theorem consistentAbove_raised {child : Option Nat}
    (h : ConsistentAbove (combineMax last) f child ctx) (hnodup : (members ctx).Nodup)
    (hg : ∀ y ∈ members ctx, g y = if y ∈ ctx.map Frame.value then max (f y) v else f y) :
    ConsistentAbove (combineMax last) g (some (max (child.getD 0) v)) ctx := by
  induction ctx generalizing child with
  | nil => trivial
  | cons fr ctx ih =>
      rcases h with ⟨hvalue, hsibling, habove⟩
      rw [members, List.nodup_cons, List.mem_append, not_or, List.nodup_append] at hnodup
      have hvalues : ∀ y ∈ ctx.map Frame.value, y ∈ members ctx := by
        intro y hy
        rcases List.mem_map.mp hy with ⟨fr', hfr', rfl⟩
        exact value_mem hfr'
      have hsame : ∀ y ∈ fr.sibling.toList, g y = f y := by
        intro y hy
        have hne : y ≠ fr.value := fun heq => hnodup.1.1 (heq ▸ hy)
        have hout : y ∉ ctx.map Frame.value := fun hmem => hnodup.2.2.2 y hy y (hvalues y hmem) rfl
        rw [hg y (by simp [hy]), if_neg]
        simpa [hne] using hout
      have hself : g fr.value = max (f fr.value) v := by rw [hg fr.value (by simp), if_pos (by simp)]
      refine ⟨?_, hsibling.congr hsame, ?_⟩
      · rw [hself, hvalue, map_root_congr hsame]
        cases fr.side <;> simp only [combineOn, combineMax, Option.getD_some] <;> omega
      · have hrest := ih habove hnodup.2.2.1 fun y hy => by
          have hne : y ≠ fr.value := fun heq => hnodup.1.2 (heq ▸ hy)
          rw [hg y (by simp [hy])]
          exact if_congr (by simp [hne]) rfl rfl
        rw [hself]
        exact hrest

/-- A link with the values on the way raised to that of the new node. -/
theorem consistent_raised (h : Consistent (combineMax last) f (plug ctx .nil))
    (hnodup : (plug ctx (.nil : RbTree α)).toList.Nodup) (hx : g x = last x)
    (hg : ∀ y ∈ members ctx, g y = if y ∈ ctx.map Frame.value then max (f y) (last x) else f y) :
    Consistent (combineMax last) g (plug ctx (.node .red .nil x .nil)) := by
  have hn : (members ctx).Nodup := (toList_plug_perm ctx .nil).nodup_iff.mp hnodup
  have habove := consistentAbove_raised (consistent_plug.mp h).1 hn hg
  refine consistent_plug.mpr ⟨?_, ?_, trivial, trivial⟩
  · simpa [hx] using habove
  · simp [hx, combineMax]

omit [DecidableEq α] in
theorem le_of_consistentAbove {w : Nat} (h : ConsistentAbove (combineMax last) f (some w) ctx) :
    ∀ fr ∈ ctx, w ≤ f fr.value := by
  induction ctx generalizing w with
  | nil => simp
  | cons fr ctx ih =>
      have hfirst : w ≤ f fr.value := by
        rw [h.1]
        cases fr.side <;> simp only [combineOn, combineMax, Option.getD_some] <;> omega
      intro fr' hfr'
      rcases List.mem_cons.mp hfr' with rfl | hmem
      · exact hfirst
      · exact hfirst.trans (ih h.2.2 fr' hmem)

/-- The loop may stop at a node that reaches far enough: so do all above it. -/
theorem raiseUp_spec (v : Nat) {s : RbRoot α Nat} {top : Option Nat} {child : Option α} {fuel : Nat}
    (h : StoredAbove s.node none child ctx) (hnodup : (members ctx).Nodup)
    (hcons : ConsistentAbove (combineMax last) s.augmented top ctx) (hfuel : ctx.length < fuel) :
    ∃ g, raiseUp v fuel s (above none ctx) = some { s with augmented := g } ∧
      Raised s.augmented g v ctx := by
  induction ctx generalizing s fuel top child with
  | nil =>
      cases fuel with
      | zero => cases hfuel
      | succ fuel => exact ⟨s.augmented, rfl, fun y => rfl⟩
  | cons fr ctx ih =>
      rcases h with ⟨hnode, _, habove⟩
      cases fuel with
      | zero => cases hfuel
      | succ fuel =>
          rw [above_cons, raiseUp]
          by_cases hstop : s.augmented fr.value ≥ v
          · refine ⟨s.augmented, if_pos hstop, fun y => ?_⟩
            split
            · next hmem =>
                rcases List.mem_map.mp hmem with ⟨fr', hfr', rfl⟩
                have hle : s.augmented fr.value ≤ s.augmented fr'.value := by
                  rcases List.mem_cons.mp hfr' with rfl | hrest
                  · exact le_rfl
                  · exact le_of_consistentAbove hcons.2.2 fr' hrest
                omega
            · rfl
          · rw [members, List.nodup_cons, List.mem_append, not_or, List.nodup_append] at hnodup
            let s' : RbRoot α Nat :=
              { s with augmented := Function.update s.augmented fr.value v }
            have hsame : ∀ y ∈ members ctx, s'.augmented y = s.augmented y := by
              intro y hy
              have hne : y ≠ fr.value := fun heq => hnodup.1.2 (heq ▸ hy)
              exact Function.update_of_ne hne _ _
            rcases ih (s := s') habove hnodup.2.2.1 (hcons.2.2.congr hsame)
                (Nat.lt_of_succ_lt_succ hfuel) with ⟨g, hrun, hg⟩
            refine ⟨g, ?_, fun y => ?_⟩
            · rw [if_neg hstop, hnode, linked_parent]
              exact hrun
            · rw [hg y]
              by_cases hy : y = fr.value
              · subst hy
                simp only [s', Function.update_self, List.map_cons, List.mem_cons, true_or, if_true]
                split_ifs <;> omega
              · have hkept : s'.augmented y = s.augmented y := Function.update_of_ne hy _ _
                rw [hkept]
                exact if_congr (by simp [hy]) rfl rfl

/-- The value of the new node itself is written before the walks. -/
theorem Raised.of_update {w : Nat} (h : Raised (Function.update f x w) g w ctx)
    (hx : x ∉ members ctx) : g x = w ∧
      ∀ y ∈ members ctx, g y = if y ∈ ctx.map Frame.value then max (f y) w else f y := by
  refine ⟨?_, fun y hy => ?_⟩
  · rw [h x, Function.update_self, max_self, ite_self]
  · have hne : y ≠ x := fun heq => hx (heq ▸ hy)
    rw [h y, Function.update_of_ne hne]

end Raised

section Insert

variable {s : RbRootCached α Nat} {l xs ys : List α} {start last : α → Nat} {x : α} {fuel : Nat}

/-- What follows the walks: the node is linked, and the tree is balanced. -/
theorem isCached_raised {root : RbRoot α Nat} {ctx : List (Frame α)} {f : α → Nat}
    (leftmost : Bool) (first : Option α) (hold : Holds root (plug ctx .nil))
    (hred : (plug ctx (.nil : RbTree α)).IsRedBlack) (hx : x ∉ members ctx)
    (hcons : Consistent (combineMax last) f (plug ctx .nil)) (hroot : root.augmented x = last x)
    (hraised : ∀ y ∈ members ctx,
      root.augmented y = if y ∈ ctx.map Frame.value then max (f y) (last x) else f y)
    (hfirst : (if leftmost then some x else first) = (before ctx ++ x :: after ctx).head?)
    (hfuel : ctx.length < fuel) :
    ∃ s', (⟨root.rbLinkNode x (linkOf ctx), first⟩ : RbRootCached α Nat).rbInsertColorCached
        (declareCallbacks (computeMax last)) fuel x leftmost = some s' ∧
      IsCached (combineMax last) s' (before ctx ++ x :: after ctx) := by
  have hlinked := consistent_raised hcons hold.nodup hroot hraised
  rw [← augmented_rbLinkNode root x (linkOf ctx)] at hlinked
  rcases rbInsertColor_spec (maintains_max last) (totals_max last) hold hred hx hlinked hfuel with
    ⟨root', hrun, htree⟩
  refine ⟨⟨root', if leftmost then some x else first⟩, ?_, htree, hfirst⟩
  rw [RbRootCached.rbInsertColorCached]
  simp only [hrun]
  rfl

omit [DecidableEq α] in
theorem eq_nil_of_later {inner : List (Frame α)}
    (hbefore : ∀ y ∈ before inner, decide (start x < start y) = false)
    (hlater : ∀ y ∈ (plug inner (.nil : RbTree α)).toList, start x < start y) :
    before inner = [] := by
  refine List.eq_nil_iff_forall_not_mem.mpr fun y hy => ?_
  have hpassed := of_decide_eq_false (hbefore y hy)
  exact hpassed (hlater y (by simp [hy]))

/-- `drm_mm_interval_tree_add_node` does not search: the node goes right behind the hole
node. -/
theorem IsCached.intervalTreeAddNode (h : IsCached (combineMax last) s (xs ++ ys))
    (hx : x ∉ xs ++ ys) (hlater : ∀ y ∈ ys, start x < start y)
    (hfuel : depthBound (xs ++ ys).length < fuel) :
    ∃ s', intervalTreeAddNode s start last fuel xs.getLast? x = some s' ∧
      IsCached (combineMax last) s' (xs ++ x :: ys) := by
  let root : RbRoot α Nat :=
    { s.rbRoot with augmented := Function.update s.rbRoot.augmented x (last x) }
  rcases List.eq_nil_or_concat' xs with rfl | ⟨as, hole, rfl⟩
  · rcases h with ⟨⟨t, hrep, hred, rfl⟩, hfirst⟩
    have hdepth := hred.depth_le.trans_lt hfuel
    have hgo : t.toList.Pairwise fun y z =>
        decide (start x < start y) = true → decide (start x < start z) = true :=
      List.pairwise_of_forall_mem_list fun y _ z hz _ => decide_eq_true (hlater z hz)
    rcases findLink_spec (s := root) (raiseTo (last x)) [] true hrep.holds.stored hgo
        hdepth with ⟨inner, rfl, hbefore, _, hrun⟩
    have hnil : before inner = [] := eq_nil_of_later hbefore hlater
    have hout : x ∉ members inner := fun hmem => hx ((toList_plug_perm inner .nil).mem_iff.mpr hmem)
    rcases raised_visited.of_update hout with ⟨hself, hraised⟩
    have hlength := depth_plug inner (.nil : RbTree α)
    have hlist : (plug inner (.nil : RbTree α)).toList = after inner := by simp [hnil]
    rcases isCached_raised true s.rbLeftmost
        (hrep.holds.augmented (visited (raiseTo (last x)) root.augmented inner)) hred hout
        hrep.consistent hself hraised (by simp [hnil]) (lt_of_le_of_lt (by omega) hdepth) with
      ⟨s', hinsert, hcached⟩
    rw [hnil, List.nil_append, ← hlist] at hcached
    refine ⟨s', ?_, hcached⟩
    have hroot : root.rbNode = (plug inner (.nil : RbTree α)).root := hrep.holds.root
    simp only [linkOf, List.head?_nil, Option.map_none, List.append_nil, hnil, List.isEmpty_nil,
      Bool.and_true] at hrun
    rw [← hroot] at hrun
    rw [List.getLast?_nil, Rbtree.intervalTreeAddNode]
    change (findLink (raiseTo (last x)) _ fuel root none true root.rbNode).bind _ = _
    rw [hrun]
    exact hinsert
  · have htree : IsTree (combineMax last) s.rbRoot (as ++ hole :: ys) := by simpa using h.tree
    rcases htree.exists_plug with ⟨ctx, c, l, r, hrep, hred, hlist, hdepth, has, hys⟩
    let outer : List (Frame α) := ⟨.right, c, hole, l⟩ :: ctx
    have hwhole : Represents (combineMax last) s.rbRoot (plug outer r) := hrep
    have hdeep : (plug outer r).depth < fuel := by
      refine hdepth.trans_lt ?_
      simpa using hfuel
    have hlength := depth_plug outer r
    have hperm := toList_plug_perm outer r
    have hout : x ∉ (plug outer r).toList := by
      have hsame : (plug outer r).toList = as ++ hole :: ys := hlist
      rw [hsame]
      simpa using hx
    have hnodup := (List.nodup_append.mp (hperm.nodup_iff.mp hwhole.holds.nodup)).2.1
    rcases stored_plug.mp hwhole.holds.stored with ⟨houter, hr⟩
    have hsame : ∀ y ∈ members outer, root.augmented y = s.rbRoot.augmented y := by
      intro y hy
      have hne : y ≠ x := by
        rintro rfl
        exact hout (hperm.mem_iff.mpr (List.mem_append_right _ hy))
      exact Function.update_of_ne hne _ _
    rcases raiseUp_spec (last x) (s := root) houter hnodup
        ((consistent_plug.mp hwhole.consistent).1.congr hsame)
        (show outer.length < fuel by omega) with
      ⟨g, hraise, hg⟩
    have hlate : ∀ y ∈ r.toList, start x < start y := fun y hy => hlater y (by simp [hys, hy])
    have hgo : r.toList.Pairwise fun y z =>
        decide (start x < start y) = true → decide (start x < start z) = true :=
      List.pairwise_of_forall_mem_list fun y _ z hz _ => decide_eq_true (hlate z hz)
    rcases findLink_spec (s := { root with augmented := g }) (raiseTo (last x)) outer false
        hr hgo (show r.depth < fuel by omega) with ⟨inner, rfl, hbefore, _, hrun⟩
    have hnil : before inner = [] := eq_nil_of_later hbefore hlate
    rw [← plug_append] at hwhole hperm hdeep
    have hout' : x ∉ members (inner ++ outer) := by
      intro hmem
      rw [← plug_append] at hout
      exact hout ((toList_plug_perm (inner ++ outer) .nil).mem_iff.mpr hmem)
    rcases (hg.append raised_visited).of_update hout' with ⟨hself, hraised⟩
    rw [← plug_append] at hlength
    have hends : before (inner ++ outer) = as ++ [hole] ∧ after (inner ++ outer) = ys := by
      have hleft : before outer = as ++ [hole] := by simp [outer, before, Frame.front, has]
      have hright : after outer = after ctx := by simp [outer, after, Frame.back]
      rw [before_append, after_append, hnil, hleft, hright, hys]
      simp [hnil]
    have hfirst : (if false = true then some x else s.rbLeftmost) =
        (before (inner ++ outer) ++ x :: after (inner ++ outer)).head? := by
      rw [if_neg (by simp), h.leftmost, hends.1]
      simp
    have hshort := depth_plug (inner ++ outer) (.nil : RbTree α)
    have hred' : (plug (inner ++ outer) (.nil : RbTree α)).IsRedBlack := by
      rw [plug_append]
      exact hred
    rcases isCached_raised false s.rbLeftmost
        (hwhole.holds.augmented (visited (raiseTo (last x)) g inner)) hred' hout' hwhole.consistent
        hself hraised hfirst (show (inner ++ outer).length < fuel by omega) with ⟨s', hinsert, hcached⟩
    rw [hends.1, hends.2] at hcached
    refine ⟨s', ?_, hcached⟩
    have hright : (root.node hole).right = (plug inner (.nil : RbTree α)).root :=
      congrArg RbNode.right houter.1
    rw [List.getLast?_concat, Rbtree.intervalTreeAddNode]
    change (raiseUp (last x) fuel root (above none outer)).bind _ = _
    rw [hraise, Option.bind_some]
    simp only [hright]
    have hlink : linkOf outer = some (hole, .right) := rfl
    rw [hlink, hnil, List.isEmpty_nil, Bool.and_true] at hrun
    change (findLink (raiseTo (last x)) _ fuel { root with augmented := g } (some (hole, .right)) false
      _).bind _ = _
    rw [hrun]
    exact hinsert

end Insert

end CmaPool.Rbtree
