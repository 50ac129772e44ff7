import CmaPool.Rbtree.Walk

/-! Red-black trees as lists: what each operation of rbtree.h does to the nodes in
their order. -/

namespace CmaPool.Rbtree

open RedBlack RbRoot

variable {α β : Type}

/-- A red-black tree with the nodes of `l` in this order. -/
def IsTree (combine : α → Option β → Option β → β) (s : RbRoot α β) (l : List α) : Prop :=
  ∃ t, Represents combine s t ∧ t.IsRedBlack ∧ t.toList = l

/-- The loops of a tree of `n` nodes go at most this far. -/
def depthBound (n : Nat) : Nat := 2 * Nat.log 2 (n + 1)

/-- What `rb_link` is for the hole. -/
def linkOf (ctx : List (Frame α)) : Option (α × Side) := ctx.head?.map fun f => (f.value, f.side)

theorem depthBound_mono {m n : Nat} (h : m ≤ n) : depthBound m ≤ depthBound n :=
  Nat.mul_le_mul_left 2 (Nat.log_mono_right (Nat.succ_le_succ h))

theorem depthBound_le (n : Nat) : depthBound n ≤ n + 1 := by
  have hpow : 2 ^ Nat.log 2 (n + 1) ≤ n + 1 := Nat.pow_log_le_self 2 (Nat.succ_ne_zero n)
  have htwice : ∀ k : Nat, 2 * k ≤ 2 ^ k := by
    intro k
    cases k with
    | zero => exact Nat.zero_le _
    | succ k =>
        have hlt := Nat.lt_two_pow_self (n := k)
        rw [Nat.pow_succ]
        omega
  exact (htwice _).trans hpow

section IsTree

variable {combine : α → Option β → Option β → β} {s : RbRoot α β} {l xs ys : List α} {x : α}
  {fuel : Nat}

theorem IsTree.nodup (h : IsTree combine s l) : l.Nodup := by
  rcases h with ⟨t, hrep, _, rfl⟩
  exact hrep.holds.nodup

/-- A node of a tree, with what lies before it and behind it. -/
theorem IsTree.exists_plug (h : IsTree combine s (xs ++ x :: ys)) :
    ∃ ctx c l r, Represents combine s (plug ctx (.node c l x r)) ∧
      (plug ctx (.node c l x r)).IsRedBlack ∧ (plug ctx (.node c l x r)).toList = xs ++ x :: ys ∧
      (plug ctx (.node c l x r)).depth ≤ depthBound (xs ++ x :: ys).length ∧
      xs = before ctx ++ l.toList ∧ ys = r.toList ++ after ctx := by
  rcases h with ⟨t, hrep, hred, hlist⟩
  have hx : x ∈ t.toList := by rw [hlist]; simp
  rcases RedBlack.exists_plug hx with ⟨ctx, c, l, r, rfl⟩
  have hdepth := hred.depth_le
  rw [hlist] at hdepth
  exact ⟨ctx, c, l, r, hrep, hred, hlist, hdepth, plug_split hrep.holds.nodup hlist⟩

theorem IsTree.recombine {combine' : α → Option β → Option β → β} (h : IsTree combine s l)
    (heq : ∀ x ∈ l, combine' x = combine x) : IsTree combine' s l := by
  rcases h with ⟨t, hrep, hred, rfl⟩
  exact ⟨t, ⟨hrep.holds, hrep.consistent.recombine heq⟩, hred, rfl⟩

theorem IsTree.rbFirst (h : IsTree combine s l) (hfuel : depthBound l.length ≤ fuel) :
    s.rbFirst fuel = some l.head? := by
  rcases h with ⟨t, hrep, hred, rfl⟩
  rw [RbRoot.rbFirst, hrep.holds.root]
  cases hroot : t.root with
  | none =>
      cases RbTree.root_eq_none.mp hroot
      rfl
  | some n =>
      rcases descend_spec .left hrep.holds.stored hroot (hred.depth_le.trans hfuel) with
        ⟨z, hrun, hz⟩
      rw [endOf] at hz
      simp [hrun, hz]

variable [DecidableEq α]

theorem IsTree.neighbour (h : IsTree combine s (xs ++ x :: ys))
    (hfuel : depthBound (xs ++ x :: ys).length < fuel) (side : Side) :
    s.neighbour side fuel x = some (nextTo side xs ys) := by
  rcases h.exists_plug with ⟨ctx, c, l, r, hrep, _, _, hdepth, rfl, rfl⟩
  exact neighbour_spec hrep.holds (hdepth.trans_lt hfuel)

theorem IsTree.rbNext (h : IsTree combine s (xs ++ x :: ys))
    (hfuel : depthBound (xs ++ x :: ys).length < fuel) : s.rbNext fuel x = some ys.head? :=
  h.neighbour hfuel .right

theorem IsTree.rbPrev (h : IsTree combine s (xs ++ x :: ys))
    (hfuel : depthBound (xs ++ x :: ys).length < fuel) : s.rbPrev fuel x = some xs.getLast? :=
  h.neighbour hfuel .left

/-- `for (n = rb_first(root); n; n = rb_next(n))` visits the nodes in their order. -/
theorem IsTree.visits_rbNext (h : IsTree combine s l) (hfuel : depthBound l.length < fuel) :
    ∃ first, s.rbFirst fuel = some first ∧
      Cursor.visits (s.rbNext fuel) l.length first = some l := by
  refine ⟨l.head?, h.rbFirst hfuel.le, Cursor.visits_eq (fun xs x ys hsplit => ?_) le_rfl⟩
  subst hsplit
  exact h.rbNext hfuel

end IsTree

section Edit

variable [DecidableEq α] {augment : RbAugmentCallbacks α β} {combine : α → Option β → Option β → β}
  {total : List α → β} {s : RbRoot α β} {l xs ys : List α} {x : α} {fuel : Nat}

theorem IsTree.rbErase (haug : Maintains augment combine) (htotal : Totals combine total)
    (h : IsTree combine s (xs ++ x :: ys)) (hfuel : depthBound (xs ++ x :: ys).length < fuel) :
    ∃ s', s.rbErase augment fuel x = some s' ∧ IsTree combine s' (xs ++ ys) := by
  rcases h.exists_plug with ⟨ctx, c, l, r, hrep, hred, _, hdepth, rfl, rfl⟩
  rcases rbErase_spec haug htotal hrep hred (hdepth.trans_lt hfuel) with
    ⟨s', t', hrun, hrep', hred', hlist⟩
  exact ⟨s', hrun, t', hrep', hred', hlist⟩

theorem rbLinkNode_eq (s : RbRoot α β) (x : α) (ctx : List (Frame α)) :
    s.rbLinkNode x (linkOf ctx) =
      hook (s.setNode x ⟨above none ctx, .red, none, none⟩) (some x) ctx := by
  cases ctx <;> rfl

theorem Holds.linked {ctx : List (Frame α)} (h : Holds s (plug ctx .nil)) (hx : x ∉ members ctx) :
    Holds (s.rbLinkNode x (linkOf ctx)) (plug ctx (.node .red .nil x .nil)) := by
  have hctx := (stored_plug.mp h.stored).1
  have hn : (members ctx).Nodup := (toList_plug_perm ctx .nil).nodup_iff.mp h.nodup
  have hsame : ∀ y ∈ members ctx,
      (s.setNode x ⟨above none ctx, .red, none, none⟩).node y = s.node y := by
    intro y hy
    have hne : y ≠ x := fun heq => hx (heq ▸ hy)
    rw [node_setNode, if_neg hne]
  rw [rbLinkNode_eq]
  refine ⟨?_, stored_plug.mpr ⟨storedAbove_hook (some x) hctx hn hsame, ?_, trivial, trivial⟩, ?_⟩
  · exact rbNode_hook (s := s.setNode x ⟨above none ctx, .red, none, none⟩) h.root
      (.node .red .nil x .nil)
  · rw [node_hook_of_ne _ _ fun heq => hx (above_mem heq), node_setNode, if_pos rfl]
    rfl
  · exact (toList_plug_perm ctx (.node .red .nil x .nil)).nodup_iff.mpr (List.nodup_cons.mpr ⟨hx, hn⟩)

/-- `rb_link_node` and `rb_insert_color` at a free link. -/
theorem rbInsertColor_spec (haug : Maintains augment combine) (htotal : Totals combine total)
    {ctx : List (Frame α)} (h : Holds s (plug ctx .nil))
    (hred : (plug ctx (.nil : RbTree α)).IsRedBlack) (hx : x ∉ members ctx)
    (hcons : Consistent combine (s.rbLinkNode x (linkOf ctx)).augmented
      (plug ctx (.node .red .nil x .nil)))
    (hfuel : ctx.length < fuel) :
    ∃ s', (s.rbLinkNode x (linkOf ctx)).rbInsertColor augment fuel x = some s' ∧
      IsTree combine s' (before ctx ++ x :: after ctx) := by
  have hlinked := h.linked hx
  rcases plug_isRedBlack.mp hred with ⟨n, hn, hctx, _⟩
  have hnil : (RbTree.nil : RbTree α).IsBlack ∧ (RbTree.nil : RbTree α).Balanced n := ⟨trivial, hn⟩
  have hparent := congrArg RbNode.parent (stored_plug.mp hlinked.stored).2.1
  rcases rbInsert_spec haug htotal ⟨hlinked, hcons⟩ hnil hnil hctx hfuel with
    ⟨s', t, hrun, hrep, hred', hlist⟩
  refine ⟨s', ?_, t, hrep, hred', ?_⟩
  · rw [rbInsertColor, hparent]
    exact hrun
  · rw [hlist]
    simp

theorem augmented_rbLinkNode (s : RbRoot α β) (x : α) (link : Option (α × Side)) :
    (s.rbLinkNode x link).augmented = s.augmented := by
  cases link <;> rfl

/-- What the walk makes of the values on its way down to the hole. -/
def visited (visit : (α → β) → α → α → β) (f : α → β) (ctx : List (Frame α)) : α → β :=
  ctx.foldr (fun fr f => visit f fr.value) f

omit [DecidableEq α] in
/-- The walk ends at the link between the nodes it passed on their right and those it
passed on their left. -/
theorem findLink_spec (visit : (α → β) → α → α → β) {goLeft : α → Bool} {t : RbTree α}
    {p : Option α} (outer : List (Frame α)) (leftmost : Bool) (h : Stored s.node p t)
    (hsorted : t.toList.Pairwise fun y z => goLeft y → goLeft z) (hfuel : t.depth < fuel) :
    ∃ inner, t = plug inner .nil ∧ (∀ y ∈ before inner, goLeft y = false) ∧
      (∀ y ∈ after inner, goLeft y = true) ∧
      findLink visit goLeft fuel s (linkOf outer) leftmost t.root =
        some ({ s with augmented := visited visit s.augmented inner }, linkOf (inner ++ outer),
          leftmost && (before inner).isEmpty) := by
  induction t generalizing s fuel p outer leftmost with
  | nil =>
      cases fuel with
      | zero => cases hfuel
      | succ fuel =>
          exact ⟨[], rfl, by simp [before], by simp [after], by simp [findLink, before, visited]⟩
  | node c l x r ihl ihr =>
      simp only [RbTree.depth] at hfuel
      rcases h with ⟨hx, hl, hr⟩
      rcases List.pairwise_append.mp hsorted with ⟨hsl, hsr, hcross⟩
      rcases List.pairwise_cons.mp hsr with ⟨hxr, hsr⟩
      let s' : RbRoot α β := { s with augmented := visit s.augmented x }
      cases fuel with
      | zero => omega
      | succ fuel =>
          rw [RbTree.root_node, findLink, hx]
          by_cases hgo : goLeft x = true
          · rcases ihl (s := s') (⟨.left, c, x, r⟩ :: outer) leftmost hl hsl
                (show l.depth < fuel by omega) with
              ⟨inner, hplug, hbefore, hafter, hrun⟩
            refine ⟨inner ++ [⟨.left, c, x, r⟩], ?_, ?_, ?_, ?_⟩
            · rw [plug_append, ← hplug]
              rfl
            · simpa [before_append, before, Frame.front] using hbefore
            · intro y hy
              simp only [after_append, after, Frame.back, List.append_nil, List.mem_append,
                List.mem_cons] at hy
              rcases hy with hy | rfl | hy
              · exact hafter y hy
              · exact hgo
              · exact hxr y hy hgo
            · rw [if_pos hgo]
              simpa [before_append, before, Frame.front, linkOf, visited, s'] using hrun
          · rcases ihr (s := s') (⟨.right, c, x, l⟩ :: outer) false hr hsr
                (show r.depth < fuel by omega) with
              ⟨inner, hplug, hbefore, hafter, hrun⟩
            refine ⟨inner ++ [⟨.right, c, x, l⟩], ?_, ?_, ?_, ?_⟩
            · rw [plug_append, ← hplug]
              rfl
            · intro y hy
              simp only [before_append, before, Frame.front, List.nil_append, List.mem_append,
                List.mem_singleton] at hy
              rcases hy with (hy | rfl) | hy
              · have hstop := hcross y hy x List.mem_cons_self
                simpa using mt hstop hgo
              · simpa using hgo
              · exact hbefore y hy
            · simpa [after_append, after, Frame.back] using hafter
            · have hpassed : (before (inner ++ [⟨.right, c, x, l⟩])).isEmpty = false := by
                simp [before_append, before, Frame.front]
              rw [if_neg hgo, hpassed, Bool.and_false]
              simpa [linkOf, visited, s'] using hrun

omit [DecidableEq α] in
theorem takeWhile_eq_of_split {goLeft : α → Bool} (hxs : ∀ y ∈ xs, goLeft y = false)
    (hys : ∀ y ∈ ys, goLeft y = true) :
    (xs ++ ys).takeWhile (fun y => !goLeft y) = xs ∧
      (xs ++ ys).dropWhile (fun y => !goLeft y) = ys := by
  have hpass : ∀ y ∈ xs, (!goLeft y) = true := by simpa using hxs
  rw [List.takeWhile_append_of_pos hpass, List.dropWhile_append_of_pos hpass]
  cases ys with
  | nil => simp
  | cons y ys => simp [hys y List.mem_cons_self]

/-- A loop like that of `RB_INSERT`, with what follows it: the node goes in front of
the nodes that the loop passes on their left. -/
theorem IsTree.inserted {s : RbRoot α Unit} (h : IsTree combineUnit s l) {goLeft : α → Bool}
    (hsorted : l.Pairwise fun y z => goLeft y → goLeft z) (hx : x ∉ l)
    (hfuel : depthBound l.length < fuel) :
    ∃ link s', findLink (fun f _ => f) goLeft fuel s none true s.rbNode =
        some (s, link, (l.takeWhile fun y => !goLeft y).isEmpty) ∧
      (s.rbLinkNode x link).rbInsertColor dummyCallbacks fuel x = some s' ∧
      IsTree combineUnit s'
        ((l.takeWhile fun y => !goLeft y) ++ x :: l.dropWhile fun y => !goLeft y) := by
  rcases h with ⟨t, hrep, hred, rfl⟩
  have hdepth := hred.depth_le.trans_lt hfuel
  rcases findLink_spec (fun f _ => f) [] true hrep.holds.stored hsorted hdepth with
    ⟨inner, rfl, hbefore, hafter, hrun⟩
  have hlist : (plug inner (.nil : RbTree α)).toList = before inner ++ after inner := by simp
  have hlength := depth_plug inner (.nil : RbTree α)
  have hout : x ∉ members inner := by
    intro hmem
    exact hx ((toList_plug_perm inner .nil).mem_iff.mpr hmem)
  have hcons : Consistent combineUnit (s.rbLinkNode x (linkOf inner)).augmented
      (plug inner (.node .red .nil x .nil)) :=
    consistent_plug.mpr ⟨consistentAbove_unit _ _ inner, rfl, trivial, trivial⟩
  rcases rbInsertColor_spec maintains_dummy totals_unit hrep.holds hred hout hcons
      (lt_of_le_of_lt (by omega) hdepth) with
    ⟨s', hinsert, htree⟩
  rcases takeWhile_eq_of_split hbefore hafter with ⟨htake, hdrop⟩
  rw [hlist, htake, hdrop]
  refine ⟨linkOf inner, s', ?_, hinsert, htree⟩
  have hkept : visited (fun f _ => f) s.augmented inner = s.augmented := Subsingleton.elim _ _
  rw [hrep.holds.root]
  simpa [linkOf, hkept] using hrun

end Edit

end CmaPool.Rbtree
