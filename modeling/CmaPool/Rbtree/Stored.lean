import CmaPool.Rbtree.Node

/-! What the memory of the nodes holds when it spells out a tree, and what a
rotation of the links makes of the tree. -/

namespace CmaPool.Rbtree

open RedBlack

variable {α β : Type}

/-- A node with `child` on `side` and `sibling` on the other side. -/
def linked (side : Side) (parent : Option α) (color : Color) (child sibling : Option α) :
    RbNode α :=
  match side with
  | .left => ⟨parent, color, sibling, child⟩
  | .right => ⟨parent, color, child, sibling⟩

section Linked

variable (side : Side) (p child child' sibling : Option α) (c : Color)

@[simp] theorem linked_parent : (linked side p c child sibling).parent = p := by
  cases side <;> rfl

@[simp] theorem linked_color : (linked side p c child sibling).color = c := by
  cases side <;> rfl

@[simp] theorem linked_child : (linked side p c child sibling).child side = child := by
  cases side <;> rfl

@[simp] theorem linked_child_other :
    (linked side p c child sibling).child side.other = sibling := by
  cases side <;> rfl

@[simp] theorem linked_setChild :
    (linked side p c child sibling).setChild child' side = linked side p c child' sibling := by
  cases side <;> rfl

@[simp] theorem linked_setChild_other :
    (linked side p c child sibling).setChild child' side.other = linked side p c child child' := by
  cases side <;> rfl

@[simp] theorem linked_setParent (p' : Option α) :
    { linked side p c child sibling with parent := p' } = linked side p' c child sibling := by
  cases side <;> rfl

@[simp] theorem linked_setParentColor (p' : Option α) (c' : Color) :
    { linked side p c child sibling with parent := p', color := c' } =
      linked side p' c' child sibling := by
  cases side <;> rfl

theorem linked_other : linked side.other p c child sibling = linked side p c sibling child := by
  cases side <;> rfl

end Linked

def Stored (node : α → RbNode α) : Option α → RbTree α → Prop
  | _, .nil => True
  | p, .node c l x r =>
      node x = ⟨p, c, r.root, l.root⟩ ∧ Stored node (some x) l ∧ Stored node (some x) r

/-- The parent of what fills the hole. -/
def above (top : Option α) : List (Frame α) → Option α
  | [] => top
  | f :: _ => some f.value

/-- The frames are stored above a hole that is filled with `child`. -/
def StoredAbove (node : α → RbNode α) (top : Option α) : Option α → List (Frame α) → Prop
  | _, [] => True
  | child, f :: ctx =>
      node f.value = linked f.side (above top ctx) f.color child f.sibling.root ∧
        Stored node (some f.value) f.sibling ∧ StoredAbove node top (some f.value) ctx

@[simp] theorem stored_nil {node : α → RbNode α} {p : Option α} : Stored node p .nil := trivial

@[simp] theorem above_nil {top : Option α} : above top ([] : List (Frame α)) = top := rfl

@[simp] theorem above_cons {top : Option α} {f : Frame α} {ctx : List (Frame α)} :
    above top (f :: ctx) = some f.value := rfl

@[simp] theorem storedAbove_nil {node : α → RbNode α} {top child : Option α} :
    StoredAbove node top child [] := trivial

theorem stored_on {node : α → RbNode α} {p : Option α} {side : Side} {c : Color}
    {t o : RbTree α} {x : α} :
    Stored node p (.on side c t x o) ↔
      node x = linked side p c t.root o.root ∧ Stored node (some x) t ∧ Stored node (some x) o := by
  cases side with
  | left => exact Iff.rfl
  | right =>
      simp only [RbTree.on, Stored, linked]
      tauto

theorem stored_plug {node : α → RbNode α} {top : Option α} {ctx : List (Frame α)} {t : RbTree α} :
    Stored node top (plug ctx t) ↔
      StoredAbove node top t.root ctx ∧ Stored node (above top ctx) t := by
  induction ctx generalizing t with
  | nil => simp [plug, above]
  | cons f ctx ih =>
      rw [plug, ih, Frame.fill, stored_on, RbTree.root_on, StoredAbove, above_cons]
      tauto

section Frame

variable {node node' : α → RbNode α}

theorem Stored.congr {t : RbTree α} {p : Option α} (h : Stored node p t)
    (heq : ∀ y ∈ t.toList, node' y = node y) : Stored node' p t := by
  induction t generalizing p with
  | nil => trivial
  | node c l x r ihl ihr =>
      rcases h with ⟨hx, hl, hr⟩
      exact ⟨(heq x (by simp)).trans hx,
        ihl hl (fun y hy => heq y (List.mem_append_left _ hy)),
        ihr hr (fun y hy => heq y (List.mem_append_right _ (List.mem_cons_of_mem x hy)))⟩

/-- Only the root of a subtree holds its parent and its colour. -/
theorem Stored.reparent {t : RbTree α} {p p' : Option α} {c : Color} (h : Stored node p t)
    (hnodup : t.toList.Nodup)
    (hroot : ∀ x, t.root = some x → node' x = { node x with parent := p', color := c })
    (hrest : ∀ y ∈ t.toList, t.root ≠ some y → node' y = node y) :
    Stored node' p' (t.recolor c) := by
  cases t with
  | nil => trivial
  | node c₀ l x r =>
      rcases h with ⟨hx, hl, hr⟩
      have hxnot : x ∉ l.toList ++ r.toList :=
        (List.nodup_cons.mp (List.nodup_middle.mp hnodup)).1
      have hother : ∀ y ∈ l.toList ++ r.toList, node' y = node y := by
        intro y hy
        have hne : x ≠ y := fun heq => hxnot (heq ▸ hy)
        refine hrest y ?_ (by simpa using hne)
        simp only [List.mem_append] at hy
        simp only [RbTree.toList, List.mem_append, List.mem_cons]
        tauto
      refine ⟨?_, hl.congr fun y hy => hother y (List.mem_append_left _ hy),
        hr.congr fun y hy => hother y (List.mem_append_right _ hy)⟩
      rw [hroot x rfl, hx]

theorem StoredAbove.congr {ctx : List (Frame α)} {top child : Option α}
    (h : StoredAbove node top child ctx) (heq : ∀ y ∈ members ctx, node' y = node y) :
    StoredAbove node' top child ctx := by
  induction ctx generalizing child with
  | nil => trivial
  | cons f ctx ih =>
      rcases h with ⟨hf, hsibling, habove⟩
      exact ⟨(heq f.value List.mem_cons_self).trans hf,
        hsibling.congr fun y hy => heq y (by simp [hy]),
        ih habove fun y hy => heq y (by simp [hy])⟩

/-- Only the nearest frame holds what fills the hole. -/
theorem StoredAbove.rechild {ctx : List (Frame α)} {top child child' : Option α}
    (h : StoredAbove node top child ctx) (hnodup : (members ctx).Nodup)
    (hhead : ∀ f, ctx.head? = some f → node' f.value = (node f.value).setChild child' f.side)
    (hrest : ∀ y ∈ members ctx, above top ctx ≠ some y → node' y = node y) :
    StoredAbove node' top child' ctx := by
  cases ctx with
  | nil => trivial
  | cons f ctx =>
      rcases h with ⟨hf, hsibling, habove⟩
      have hnot := (List.nodup_cons.mp hnodup).1
      have hother : ∀ y ∈ f.sibling.toList ++ members ctx, node' y = node y := by
        intro y hy
        have hne : f.value ≠ y := fun heq => hnot (heq ▸ hy)
        exact hrest y (List.mem_cons_of_mem _ hy) (by simpa using hne)
      refine ⟨?_, hsibling.congr fun y hy => hother y (List.mem_append_left _ hy),
        habove.congr fun y hy => hother y (List.mem_append_right _ hy)⟩
      rw [hhead f rfl, hf, linked_setChild]

theorem StoredAbove.head {ctx : List (Frame α)} {top child : Option α} {f : Frame α}
    (h : StoredAbove node top child ctx) (hf : ctx.head? = some f) :
    (node f.value).child f.side = child ∧
      ∀ y, (node f.value).child f.side.other = some y → y ∈ members ctx := by
  cases ctx with
  | nil => cases hf
  | cons g ctx =>
      cases Option.some.inj hf
      rw [h.1, linked_child, linked_child_other]
      refine ⟨rfl, fun y hy => ?_⟩
      have hmem := RbTree.root_mem hy
      simp [hmem]

end Frame

theorem head_mem {ctx : List (Frame α)} {f : Frame α} (hf : ctx.head? = some f) :
    f.value ∈ members ctx := by
  cases ctx with
  | nil => cases hf
  | cons g ctx =>
      cases Option.some.inj hf
      exact List.mem_cons_self

theorem above_mem {ctx : List (Frame α)} {y : α} (h : above none ctx = some y) :
    y ∈ members ctx := by
  cases ctx with
  | nil => cases h
  | cons f ctx =>
      cases Option.some.inj h
      exact List.mem_cons_self

theorem root_plug_cons (f : Frame α) (ctx : List (Frame α)) (t t' : RbTree α) :
    (plug (f :: ctx) t).root = (plug (f :: ctx) t').root := by
  induction ctx generalizing f t t' with
  | nil => simp [Frame.fill]
  | cons g ctx ih => exact ih g (f.fill t) (f.fill t')

theorem root_plug_congr (ctx : List (Frame α)) {t t' : RbTree α} (h : t.root = t'.root) :
    (plug ctx t).root = (plug ctx t').root := by
  cases ctx with
  | nil => exact h
  | cons f ctx => exact root_plug_cons f ctx t t'

theorem value_mem {ctx : List (Frame α)} {f : Frame α} (h : f ∈ ctx) : f.value ∈ members ctx := by
  induction ctx with
  | nil => cases h
  | cons g ctx ih =>
      rcases List.mem_cons.mp h with rfl | hmem
      · exact List.mem_cons_self
      · simp [ih hmem]

/-- Only the outermost frame holds the parent of the whole. -/
theorem StoredAbove.retop {node node' : α → RbNode α} {ctx : List (Frame α)}
    {top top' child : Option α} {z : Frame α} (h : StoredAbove node top child ctx)
    (hnodup : (members ctx).Nodup) (hz : ctx.getLast? = some z)
    (hset : node' z.value = { node z.value with parent := top' })
    (hrest : ∀ y ∈ members ctx, y ≠ z.value → node' y = node y) :
    StoredAbove node' top' child ctx := by
  induction ctx generalizing child with
  | nil => trivial
  | cons f ctx ih =>
      rcases h with ⟨hf, hsibling, habove⟩
      rw [members, List.nodup_cons, List.nodup_append, List.mem_append, not_or] at hnodup
      rcases hnodup with ⟨⟨hvs, hvc⟩, _, hn, hdisjoint⟩
      cases ctx with
      | nil =>
          have hzf : f = z := by simpa using hz
          subst hzf
          refine ⟨by rw [hset, hf, linked_setParent]; rfl, hsibling.congr fun y hy => ?_, trivial⟩
          exact hrest y (by simp [hy]) fun heq => hvs (heq ▸ hy)
      | cons g ctx =>
          have hlast : (g :: ctx).getLast? = some z := by simpa using hz
          have hzctx : z.value ∈ members (g :: ctx) := value_mem (List.mem_of_getLast? hlast)
          have hfz : f.value ≠ z.value := fun heq => hvc (heq ▸ hzctx)
          refine ⟨?_, hsibling.congr fun y hy => ?_, ih habove hn hlast fun y hy => ?_⟩
          · rw [hrest f.value List.mem_cons_self hfz, hf]
            rfl
          · exact hrest y (by simp [hy]) fun heq => hdisjoint y hy _ hzctx heq
          · exact hrest y (List.mem_cons_of_mem _ (List.mem_append_right _ hy))

structure Holds (s : RbRoot α β) (t : RbTree α) : Prop where
  root : s.rbNode = t.root
  stored : Stored s.node none t
  nodup : t.toList.Nodup

theorem Holds.augmented {s : RbRoot α β} {t : RbTree α} (h : Holds s t) (f : α → β) :
    Holds { s with augmented := f } t := ⟨h.root, h.stored, h.nodup⟩

/-- The memory of a tree, and what its nodes are augmented by. -/
structure Represents (combine : α → Option β → Option β → β) (s : RbRoot α β) (t : RbTree α) :
    Prop where
  holds : Holds s t
  consistent : Consistent combine s.augmented t

section Write

variable [DecidableEq α]

open RbRoot

theorem node_setNode (t : RbRoot α β) (x y : α) (n : RbNode α) :
    (t.setNode x n).node y = if y = x then n else t.node y := Function.update_apply t.node x n y

theorem node_writeChild (t : RbRoot α β) (x y : α) (side : Side) (child : Option α) :
    (t.writeChild x side child).node y =
      if y = x then (t.node x).setChild child side else t.node y := node_setNode t x y _

theorem node_rbSetParentColor (t : RbRoot α β) (x y : α) (p : Option α) (c : Color) :
    (t.rbSetParentColor x p c).node y =
      if y = x then { t.node x with parent := p, color := c } else t.node y := node_setNode t x y _

theorem node_setParentColorIf (t : RbRoot α β) (p x : Option α) (y : α) (c : Color) :
    (t.setParentColorIf p c x).node y =
      if x = some y then { t.node y with parent := p, color := c } else t.node y := by
  cases x with
  | none => simp [setParentColorIf]
  | some x =>
      rw [setParentColorIf, node_rbSetParentColor]
      by_cases h : y = x
      · simp [h]
      · simp [h, Ne.symm h]

theorem node_setParentIf (t : RbRoot α β) (p x : Option α) (y : α) :
    (t.setParentIf p x).node y = if x = some y then { t.node y with parent := p } else t.node y := by
  cases x with
  | none => simp [setParentIf]
  | some x =>
      rw [setParentIf, rbSetParent, node_setNode]
      by_cases h : y = x
      · simp [h]
      · simp [h, Ne.symm h]

@[simp] theorem rbNode_setNode (t : RbRoot α β) (x : α) (n : RbNode α) :
    (t.setNode x n).rbNode = t.rbNode := rfl

@[simp] theorem rbNode_writeChild (t : RbRoot α β) (x : α) (side : Side) (child : Option α) :
    (t.writeChild x side child).rbNode = t.rbNode := rfl

@[simp] theorem rbNode_rbSetParentColor (t : RbRoot α β) (x : α) (p : Option α) (c : Color) :
    (t.rbSetParentColor x p c).rbNode = t.rbNode := rfl

@[simp] theorem rbNode_setParentColorIf (t : RbRoot α β) (p x : Option α) (c : Color) :
    (t.setParentColorIf p c x).rbNode = t.rbNode := by
  cases x <;> rfl

@[simp] theorem rbNode_setParentIf (t : RbRoot α β) (p x : Option α) :
    (t.setParentIf p x).rbNode = t.rbNode := by
  cases x <;> rfl

@[simp] theorem augmented_writeChild (t : RbRoot α β) (x : α) (side : Side) (child : Option α) :
    (t.writeChild x side child).augmented = t.augmented := rfl

@[simp] theorem augmented_rbSetParentColor (t : RbRoot α β) (x : α) (p : Option α) (c : Color) :
    (t.rbSetParentColor x p c).augmented = t.augmented := rfl

@[simp] theorem augmented_setParentColorIf (t : RbRoot α β) (p x : Option α) (c : Color) :
    (t.setParentColorIf p c x).augmented = t.augmented := by
  cases x <;> rfl

@[simp] theorem augmented_setParentIf (t : RbRoot α β) (p x : Option α) :
    (t.setParentIf p x).augmented = t.augmented := by
  cases x <;> rfl

@[simp] theorem augmented_rbChangeChild (t : RbRoot α β) (old : α) (new parent : Option α) :
    (t.rbChangeChild old new parent).augmented = t.augmented := by
  cases parent with
  | none => rfl
  | some parent =>
      rw [rbChangeChild]
      split <;> rfl

@[simp] theorem augmented_rbRotateSetParents (t : RbRoot α β) (old new : α) (c : Color) :
    (t.rbRotateSetParents old new c).augmented = t.augmented := by
  simp [rbRotateSetParents]

/-- `new` in the place of what fills the hole. -/
def hook (t : RbRoot α β) (new : Option α) : List (Frame α) → RbRoot α β
  | [] => { t with rbNode := new }
  | f :: _ => t.writeChild f.value f.side new

theorem node_hook_head (t : RbRoot α β) (new : Option α) {ctx : List (Frame α)} {f : Frame α}
    (h : ctx.head? = some f) :
    (hook t new ctx).node f.value = (t.node f.value).setChild new f.side := by
  cases ctx with
  | nil => cases h
  | cons g ctx =>
      cases Option.some.inj h
      rw [hook, writeChild, node_setNode, if_pos rfl]

theorem node_hook_of_ne (t : RbRoot α β) (new : Option α) {ctx : List (Frame α)} {y : α}
    (h : above none ctx ≠ some y) : (hook t new ctx).node y = t.node y := by
  cases ctx with
  | nil => rfl
  | cons f ctx =>
      have hne : y ≠ f.value := fun heq => h (by rw [heq, above_cons])
      rw [hook, writeChild, node_setNode, if_neg hne]

theorem rbNode_hook {s : RbRoot α β} {ctx : List (Frame α)} {t : RbTree α}
    (h : s.rbNode = (plug ctx t).root) (t' : RbTree α) :
    (hook s t'.root ctx).rbNode = (plug ctx t').root := by
  cases ctx with
  | nil => rfl
  | cons f ctx => exact h.trans (root_plug_cons f ctx t t')

/-- The test of `__rb_change_child` finds the side of the hole. -/
theorem rbChangeChild_eq {s : RbRoot α β} {node : α → RbNode α} {ctx : List (Frame α)} {old : α}
    (new : Option α) (hctx : StoredAbove node none (some old) ctx) (hold : old ∉ members ctx)
    (hsame : ∀ y ∈ members ctx, s.node y = node y) :
    s.rbChangeChild old new (above none ctx) = hook s new ctx := by
  cases ctx with
  | nil => rfl
  | cons f ctx =>
      have hhead := hctx.head rfl
      rw [← hsame f.value List.mem_cons_self] at hhead
      have hother : (s.node f.value).child f.side.other ≠ some old := fun h => hold (hhead.2 old h)
      rw [above_cons, rbChangeChild, hook]
      rcases f with ⟨side, c, x, o⟩
      cases side with
      | left => exact if_pos hhead.1
      | right => exact if_neg hother

theorem node_rbChangeChild_of_not_mem {s : RbRoot α β} {node : α → RbNode α}
    {ctx : List (Frame α)} {old y : α} (new : Option α)
    (hctx : StoredAbove node none (some old) ctx) (hold : old ∉ members ctx)
    (hsame : ∀ y ∈ members ctx, s.node y = node y) (hy : y ∉ members ctx) :
    (s.rbChangeChild old new (above none ctx)).node y = s.node y := by
  rw [rbChangeChild_eq new hctx hold hsame]
  exact node_hook_of_ne s new fun h => hy (above_mem h)

/-- The frames after `hook`. -/
theorem storedAbove_hook {s : RbRoot α β} {node : α → RbNode α} {ctx : List (Frame α)}
    {child : Option α} (new : Option α) (hctx : StoredAbove node none child ctx)
    (hnodup : (members ctx).Nodup) (hsame : ∀ y ∈ members ctx, s.node y = node y) :
    StoredAbove (hook s new ctx).node none new ctx := by
  refine hctx.rechild hnodup (fun f hf => ?_) (fun y hy hne => ?_)
  · rw [node_hook_head s new hf, hsame f.value (head_mem hf)]
  · rw [node_hook_of_ne s new hne, hsame y hy]

/-- `rb_set_parent_color` with the parent the node has. -/
theorem Holds.recolored {s : RbRoot α β} {ctx : List (Frame α)} {t : RbTree α} {x : α}
    (h : Holds s (plug ctx t)) (hx : t.root = some x) (c : Color) :
    Holds (s.rbSetParentColor x (above none ctx) c) (plug ctx (t.recolor c)) := by
  rcases stored_plug.mp h.stored with ⟨hctx, ht⟩
  have hn := (toList_plug_perm ctx t).nodup_iff.mp h.nodup
  have hxctx : ∀ y ∈ members ctx, y ≠ x := by
    intro y hy heq
    exact List.disjoint_of_nodup_append hn (RbTree.root_mem hx) (heq ▸ hy)
  refine ⟨?_, stored_plug.mpr ⟨?_, ?_⟩, ?_⟩
  · cases ctx with
    | nil => exact h.root.trans (RbTree.root_recolor t).symm
    | cons f ctx => exact h.root.trans (root_plug_cons f ctx t _)
  · rw [RbTree.root_recolor]
    exact hctx.congr fun y hy => by rw [node_rbSetParentColor, if_neg (hxctx y hy)]
  · refine ht.reparent (List.nodup_append.mp hn).1 (fun y hy => ?_) (fun y _ hne => ?_)
    · rw [hx] at hy
      rw [node_rbSetParentColor, if_pos (Option.some.inj hy).symm, Option.some.inj hy]
    · have hyx : y ≠ x := fun heq => hne (heq ▸ hx)
      rw [node_rbSetParentColor, if_neg hyx]
  · simpa using h.nodup

end Write

end CmaPool.Rbtree
