import CmaPool.Rbtree.Rotate

/-! The callbacks of augmented trees: `RB_DECLARE_CALLBACKS` and
`RB_DECLARE_CALLBACKS_MAX`, and the dummy ones of rbtree.c. -/

namespace CmaPool.Rbtree

open RedBlack

variable {α β : Type}

/-- The part of `compute_max` for one child. -/
def childMax (f : α → Nat) (max : Nat) : Option α → Nat
  | none => max
  | some child => if f child > max then f child else max

/-- The largest value in the subtree. -/
def combineMax (value : α → Nat) (x : α) (left right : Option Nat) : Nat :=
  max (value x) (max (left.getD 0) (right.getD 0))

def listMax (value : α → Nat) (l : List α) : Nat := (l.map value).foldr max 0

theorem childMax_eq (f : α → Nat) (m : Nat) (child : Option α) :
    childMax f m child = max m ((child.map f).getD 0) := by
  cases child with
  | none => simp [childMax]
  | some x =>
      simp only [childMax, Option.map_some, Option.getD_some]
      split <;> omega

theorem listMax_append (value : α → Nat) (l r : List α) :
    listMax value (l ++ r) = max (listMax value l) (listMax value r) := by
  induction l with
  | nil => simp [listMax]
  | cons x l ih =>
      have hcons : listMax value (x :: (l ++ r)) = max (value x) (listMax value (l ++ r)) := rfl
      rw [List.cons_append, hcons, ih, ← max_assoc]
      rfl

theorem totals_max (value : α → Nat) : Totals (combineMax value) (listMax value) := by
  intro x l r
  have hempty : ∀ l : List α, ((if l = [] then none else some (listMax value l)).getD 0) =
      listMax value l := by
    intro l
    cases l <;> rfl
  have hcons : listMax value (x :: r) = max (value x) (listMax value r) := rfl
  rw [combineMax, hempty, hempty, listMax_append, hcons]
  omega

theorem le_listMax (value : α → Nat) {l : List α} {bound : Nat} (hbound : 0 < bound) :
    bound ≤ listMax value l ↔ ∃ x ∈ l, bound ≤ value x := by
  induction l with
  | nil => simp [listMax]; omega
  | cons x l ih =>
      have hcons : listMax value (x :: l) = max (value x) (listMax value l) := rfl
      rw [hcons, le_max_iff, ih]
      simp

/-- What there is to combine when nothing is augmented. -/
def combineUnit (_ : α) (_ _ : Option Unit) : Unit := ()

theorem totals_unit : Totals (combineUnit (α := α)) (fun _ => ()) := fun _ _ _ => rfl

theorem consistentAbove_unit (f : α → Unit) (child : Option Unit) (ctx : List (Frame α)) :
    ConsistentAbove combineUnit f child ctx := by
  have htree : ∀ t : RbTree α, Consistent combineUnit f t := by
    intro t
    induction t with
    | nil => trivial
    | node c l x r ihl ihr => exact ⟨rfl, ihl, ihr⟩
  induction ctx generalizing child with
  | nil => trivial
  | cons fr ctx ih => exact ⟨rfl, htree fr.sibling, ih (some (f fr.value))⟩

theorem combineOn_linked (combine : α → Option β → Option β → β) {node : α → RbNode α}
    {f : α → β} {side : Side} {x : α} {p child sibling : Option α} {c : Color}
    (h : node x = linked side p c child sibling) :
    combine x ((node x).left.map f) ((node x).right.map f) =
      combineOn combine side x (child.map f) (sibling.map f) := by
  rw [h]
  cases side <;> rfl

variable [DecidableEq α]

def dummyCallbacks : RbAugmentCallbacks α Unit where
  propagate _ _ f _ _ := some f
  copy f _ _ := f
  rotate _ f _ _ := f

/-- The `propagate` of `RB_DECLARE_CALLBACKS`. -/
def propagate (compute : (α → RbNode α) → (α → β) → α → Bool → Bool × (α → β)) :
    Nat → (α → RbNode α) → (α → β) → Option α → Option α → Option (α → β)
  | 0, _, _, _, _ => none
  | fuel + 1, node, f, rb, stop =>
      if rb = stop then
        some f
      else do
        let x ← rb
        let computed := compute node f x true
        if computed.1 then
          return computed.2
        else
          propagate compute fuel node computed.2 (node x).parent stop

/-- `RB_DECLARE_CALLBACKS`. -/
def declareCallbacks (compute : (α → RbNode α) → (α → β) → α → Bool → Bool × (α → β)) :
    RbAugmentCallbacks α β where
  propagate := propagate compute
  copy f old new := Function.update f new (f old)
  rotate node f old new := (compute node (Function.update f new (f old)) old false).2

/-- The `compute_max` of `RB_DECLARE_CALLBACKS_MAX`. -/
def computeMax (value : α → Nat) (node : α → RbNode α) (f : α → Nat) (x : α) (exit : Bool) :
    Bool × (α → Nat) :=
  let max := childMax f (childMax f (value x) (node x).left) (node x).right
  if exit = true ∧ f x = max then (true, f) else (false, Function.update f x max)

/-- What the library of rbtree.c relies on. -/
structure Maintains (augment : RbAugmentCallbacks α β)
    (combine : α → Option β → Option β → β) : Prop where
  copy : ∀ f old new, augment.copy f old new = Function.update f new (f old)
  rotate : ∀ node f old new, augment.rotate node f old new =
    Function.update (Function.update f new (f old)) old
      (combine old ((node old).left.map (Function.update f new (f old)))
        ((node old).right.map (Function.update f new (f old))))
  propagate : ∀ {fuel node f ctx top child},
    StoredAbove node top child ctx → (members ctx).Nodup → (∀ x ∈ members ctx, top ≠ some x) →
    (∀ x ∈ members ctx, child ≠ some x) → StaleAbove combine f ctx →
    ctx.length < fuel →
    ∃ g, augment.propagate fuel node f (above top ctx) top = some g ∧
      ConsistentAbove combine g (child.map g) ctx ∧ ∀ y, y ∉ members ctx → g y = f y

section Declare

variable {compute : (α → RbNode α) → (α → β) → α → Bool → Bool × (α → β)}
  {combine : α → Option β → Option β → β}

theorem propagate_spec
    (hcompute : ∀ node f x, compute node f x true = (true, f) ∧
        f x = combine x ((node x).left.map f) ((node x).right.map f) ∨
      compute node f x true = (false, Function.update f x
        (combine x ((node x).left.map f) ((node x).right.map f))))
    {fuel : Nat} {node : α → RbNode α} {f : α → β} {ctx : List (Frame α)} {top child : Option α}
    (hstored : StoredAbove node top child ctx) (hnodup : (members ctx).Nodup)
    (htop : ∀ x ∈ members ctx, top ≠ some x) (hchild : ∀ x ∈ members ctx, child ≠ some x)
    (hstale : StaleAbove combine f ctx) (hfuel : ctx.length < fuel) :
    ∃ g, propagate compute fuel node f (above top ctx) top = some g ∧
      ConsistentAbove combine g (child.map g) ctx ∧ ∀ y, y ∉ members ctx → g y = f y := by
  induction ctx generalizing fuel f child with
  | nil =>
      cases fuel with
      | zero => cases hfuel
      | succ fuel => exact ⟨f, if_pos rfl, trivial, fun y _ => rfl⟩
  | cons fr ctx ih =>
      rcases hstored with ⟨hnode, _, habove⟩
      rcases hstale with ⟨hsibling, hctx⟩
      rw [members, List.nodup_cons, List.mem_append, not_or, List.nodup_append] at hnodup
      rcases hnodup with ⟨⟨_, hvalue⟩, _, hn, hdisjoint⟩
      have hne : some fr.value ≠ top := (htop fr.value List.mem_cons_self).symm
      have hcombine := combineOn_linked combine (f := f) hnode
      cases fuel with
      | zero => cases hfuel
      | succ fuel =>
          rw [above_cons, propagate, if_neg hne]
          have hvalue' := hcompute node f fr.value
          rw [hcombine] at hvalue'
          simp only [Option.bind_eq_bind, Option.bind_some]
          rcases hvalue' with ⟨hstop, hsame⟩ | hgo
          · rw [hstop]
            exact ⟨f, rfl, ⟨hsame, hsibling, hctx⟩, fun y _ => rfl⟩
          · let v := combineOn combine fr.side fr.value (child.map f) (fr.sibling.root.map f)
            have hupdate : ∀ y ∈ members ctx, Function.update f fr.value v y = f y := by
              intro y hy
              have hyvalue : y ≠ fr.value := fun heq => hvalue (heq ▸ hy)
              exact Function.update_of_ne hyvalue v f
            have hbelow : ∀ x ∈ members ctx, some fr.value ≠ some x := by
              intro x hx heq
              exact hvalue (Option.some.inj heq ▸ hx)
            rcases ih habove hn (fun x hx => htop x (by simp [hx])) hbelow (hctx.congr hupdate).stale
                (Nat.lt_of_succ_lt_succ hfuel) with ⟨g, hg, hgctx, hgrest⟩
            have hrest : ∀ y, y ∉ members (fr :: ctx) → g y = f y := by
              intro y hy
              simp only [members, List.mem_cons, List.mem_append, not_or] at hy
              rw [hgrest y hy.2.2, Function.update_of_ne hy.1]
            have hgvalue : g fr.value = v := by
              rw [hgrest fr.value hvalue, Function.update_self]
            have hgsibling : ∀ y ∈ fr.sibling.toList, g y = f y := by
              intro y hy
              have hyctx : y ∉ members ctx := fun h => hdisjoint y hy y h rfl
              have hyvalue : y ≠ fr.value := by grind
              rw [hgrest y hyctx, Function.update_of_ne hyvalue]
            have hgchild : child.map g = child.map f := by
              cases child with
              | none => rfl
              | some x =>
                  have hx : x ∉ members (fr :: ctx) := fun h => hchild x h rfl
                  simp [hrest x hx]
            refine ⟨g, ?_, ⟨?_, hsibling.congr hgsibling, hgctx⟩, hrest⟩
            · simpa [hgo, hnode] using hg
            · rw [hgvalue, hgchild, map_root_congr hgsibling]

theorem maintains_declareCallbacks
    (hexit : ∀ node f x, compute node f x true = (true, f) ∧
        f x = combine x ((node x).left.map f) ((node x).right.map f) ∨
      compute node f x true = (false, Function.update f x
        (combine x ((node x).left.map f) ((node x).right.map f))))
    (hset : ∀ node f x, (compute node f x false).2 =
      Function.update f x (combine x ((node x).left.map f) ((node x).right.map f))) :
    Maintains (declareCallbacks compute) combine where
  copy _ _ _ := rfl
  rotate node f old new := hset node (Function.update f new (f old)) old
  propagate := propagate_spec hexit

end Declare

theorem maintains_max (value : α → Nat) :
    Maintains (declareCallbacks (computeMax value)) (combineMax value) := by
  refine maintains_declareCallbacks (fun node f x => ?_) (fun node f x => ?_)
  · simp only [computeMax, combineMax, childMax_eq, max_assoc, true_and]
    split
    · next hsame => exact .inl ⟨rfl, hsame⟩
    · exact .inr rfl
  · simp [computeMax, combineMax, childMax_eq, max_assoc]

theorem maintains_dummy : Maintains (dummyCallbacks (α := α)) combineUnit where
  copy _ _ _ := rfl
  rotate _ _ _ _ := rfl
  propagate {_ _ f ctx _ child} _ _ _ _ _ _ :=
    ⟨f, rfl, consistentAbove_unit f (child.map f) ctx, fun _ _ => rfl⟩

end CmaPool.Rbtree
