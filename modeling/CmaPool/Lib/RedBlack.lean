import CmaPool.Lib.Cursor

/-! Red-black trees, cut at a subtree.

The frames above a subtree are kept from the nearest to the root. A frame names
its side once, so that what is said of the left says the same of the right. -/

namespace RedBlack

inductive Color
  | red
  | black
  deriving DecidableEq

inductive Side
  | left
  | right
  deriving DecidableEq

def Side.other : Side → Side
  | .left => .right
  | .right => .left

@[simp] theorem Side.other_left : Side.left.other = .right := rfl

@[simp] theorem Side.other_right : Side.right.other = .left := rfl

@[simp] theorem Side.other_other (side : Side) : side.other.other = side := by
  cases side <;> rfl

theorem Side.exists_other (side : Side) : ∃ o : Side, side = o.other :=
  ⟨side.other, side.other_other.symm⟩

inductive RbTree (α : Type*)
  | nil
  | node (color : Color) (left : RbTree α) (value : α) (right : RbTree α)

variable {α β : Type*}

namespace RbTree

def root : RbTree α → Option α
  | nil => none
  | node _ _ x _ => some x

@[simp] def toList : RbTree α → List α
  | nil => []
  | node _ l x r => l.toList ++ x :: r.toList

@[simp] def depth : RbTree α → Nat
  | nil => 0
  | node _ l _ r => max l.depth r.depth + 1

def recolor (c : Color) : RbTree α → RbTree α
  | nil => nil
  | node _ l x r => node c l x r

/-- The node `x` with `t` on `side` and `o` on the other one. -/
def on (side : Side) (c : Color) (t : RbTree α) (x : α) (o : RbTree α) : RbTree α :=
  match side with
  | .left => node c t x o
  | .right => node c o x t

def IsBlack : RbTree α → Prop
  | nil => True
  | node c _ _ _ => c = .black

/-- Every way down passes `n` black nodes, and no two red ones in a row. -/
def Balanced (n : Nat) : RbTree α → Prop
  | nil => n = 0
  | node .red l _ r => (l.IsBlack ∧ r.IsBlack) ∧ l.Balanced n ∧ r.Balanced n
  | node .black l _ r => ∃ m, n = m + 1 ∧ l.Balanced m ∧ r.Balanced m

def IsRedBlack (t : RbTree α) : Prop := t.IsBlack ∧ ∃ n, t.Balanced n

@[simp] theorem root_nil : (nil : RbTree α).root = none := rfl

@[simp] theorem root_node {c : Color} {l r : RbTree α} {x : α} :
    (node c l x r).root = some x := rfl

@[simp] theorem recolor_nil {c : Color} : (nil : RbTree α).recolor c = nil := rfl

@[simp] theorem recolor_node {c c' : Color} {l r : RbTree α} {x : α} :
    (node c l x r).recolor c' = node c' l x r := rfl

@[simp] theorem isBlack_nil : (nil : RbTree α).IsBlack := trivial

@[simp] theorem isBlack_node {c : Color} {l r : RbTree α} {x : α} :
    (node c l x r).IsBlack ↔ c = .black := Iff.rfl

@[simp] theorem balanced_nil {n : Nat} : (nil : RbTree α).Balanced n ↔ n = 0 := Iff.rfl

@[simp] theorem balanced_red {n : Nat} {l r : RbTree α} {x : α} :
    (node .red l x r).Balanced n ↔
      (l.IsBlack ∧ r.IsBlack) ∧ l.Balanced n ∧ r.Balanced n := Iff.rfl

@[simp] theorem balanced_black {n : Nat} {l r : RbTree α} {x : α} :
    (node .black l x r).Balanced n ↔ ∃ m, n = m + 1 ∧ l.Balanced m ∧ r.Balanced m := Iff.rfl

@[simp] theorem root_on {side : Side} {c : Color} {t o : RbTree α} {x : α} :
    (on side c t x o).root = some x := by
  cases side <;> rfl

@[simp] theorem isBlack_on {side : Side} {c : Color} {t o : RbTree α} {x : α} :
    (on side c t x o).IsBlack ↔ c = .black := by
  cases side <;> rfl

@[simp] theorem balanced_on_red {side : Side} {n : Nat} {t o : RbTree α} {x : α} :
    (on side .red t x o).Balanced n ↔
      (t.IsBlack ∧ o.IsBlack) ∧ t.Balanced n ∧ o.Balanced n := by
  cases side
  · exact Iff.rfl
  · simp only [on, balanced_red]
    tauto

@[simp] theorem balanced_on_black {side : Side} {n : Nat} {t o : RbTree α} {x : α} :
    (on side .black t x o).Balanced n ↔ ∃ m, n = m + 1 ∧ t.Balanced m ∧ o.Balanced m := by
  cases side
  · exact Iff.rfl
  · simp only [on, balanced_black, and_comm (a := o.Balanced _)]

@[simp] theorem recolor_on {side : Side} {c c' : Color} {t o : RbTree α} {x : α} :
    (on side c t x o).recolor c' = on side c' t x o := by
  cases side <;> rfl

@[simp] theorem root_recolor {c : Color} (t : RbTree α) : (t.recolor c).root = t.root := by
  cases t <;> rfl

@[simp] theorem toList_recolor {c : Color} (t : RbTree α) : (t.recolor c).toList = t.toList := by
  cases t <;> rfl

@[simp] theorem isBlack_recolor (t : RbTree α) : (t.recolor .black).IsBlack := by
  cases t <;> simp

theorem IsBlack.recolor {t : RbTree α} (h : t.IsBlack) : t.recolor .black = t := by
  cases t with
  | nil => rfl
  | node c l x r => rw [isBlack_node.mp h, RbTree.recolor]

theorem on_other (side : Side) (c : Color) (t : RbTree α) (x : α) (o : RbTree α) :
    on side.other c t x o = on side c o x t := by
  cases side <;> rfl

theorem toList_on_perm (side : Side) (c : Color) (t : RbTree α) (x : α) (o : RbTree α) :
    (on side c t x o).toList.Perm (x :: (t.toList ++ o.toList)) := by
  cases side with
  | left => exact List.perm_middle
  | right => exact List.perm_middle.trans (List.perm_append_comm.cons x)

theorem root_eq_none {t : RbTree α} : t.root = none ↔ t = nil := by
  cases t <;> simp

theorem root_mem {t : RbTree α} {x : α} (h : t.root = some x) : x ∈ t.toList := by
  cases t with
  | nil => cases h
  | node c l y r => simp_all

theorem exists_red_of_not_isBlack {t : RbTree α} (h : ¬ t.IsBlack) :
    ∃ l x r, t = node .red l x r := by
  cases t with
  | nil => exact absurd isBlack_nil h
  | node c l x r =>
      cases c with
      | red => exact ⟨l, x, r, rfl⟩
      | black => exact absurd rfl h

theorem exists_on (side : Side) (c : Color) (l : RbTree α) (x : α) (r : RbTree α) :
    ∃ t o, node c l x r = on side c t x o := by
  cases side
  · exact ⟨l, r, rfl⟩
  · exact ⟨r, l, rfl⟩

theorem two_pow_le_length {t : RbTree α} {n : Nat} (h : t.Balanced n) :
    2 ^ n ≤ t.toList.length + 1 := by
  induction t generalizing n with
  | nil => simp [balanced_nil.mp h]
  | node c l x r ihl ihr =>
      cases c with
      | red =>
          have hl := ihl (balanced_red.mp h).2.1
          simp only [toList, List.length_append, List.length_cons]
          omega
      | black =>
          rcases balanced_black.mp h with ⟨m, rfl, hml, hmr⟩
          have hl := ihl hml
          have hr := ihr hmr
          simp only [toList, List.length_append, List.length_cons, pow_succ]
          omega

theorem depth_le {t : RbTree α} {n : Nat} (h : t.Balanced n) :
    t.depth ≤ 2 * n + 1 ∧ (t.IsBlack → t.depth ≤ 2 * n) := by
  induction t generalizing n with
  | nil => simp
  | node c l x r ihl ihr =>
      cases c with
      | red =>
          rcases balanced_red.mp h with ⟨⟨hlb, hrb⟩, hl, hr⟩
          have hdl := (ihl hl).2 hlb
          have hdr := (ihr hr).2 hrb
          simp only [depth, isBlack_node, reduceCtorEq, false_implies, and_true]
          omega
      | black =>
          rcases balanced_black.mp h with ⟨m, rfl, hl, hr⟩
          have hdl := (ihl hl).1
          have hdr := (ihr hr).1
          simp only [depth, isBlack_node, true_implies]
          omega

/-- The bound on the height that the colours give. -/
theorem IsRedBlack.depth_le {t : RbTree α} (h : t.IsRedBlack) :
    t.depth ≤ 2 * Nat.log 2 (t.toList.length + 1) := by
  rcases h with ⟨hblack, n, hn⟩
  have hlog : n ≤ Nat.log 2 (t.toList.length + 1) :=
    Nat.le_log_of_pow_le Nat.one_lt_two (two_pow_le_length hn)
  calc t.depth ≤ 2 * n := (RbTree.depth_le hn).2 hblack
    _ ≤ 2 * Nat.log 2 (t.toList.length + 1) := Nat.mul_le_mul_left 2 hlog

end RbTree

structure Frame (α : Type*) where
  side : Side
  color : Color
  value : α
  sibling : RbTree α

namespace Frame

def fill (f : Frame α) (t : RbTree α) : RbTree α := RbTree.on f.side f.color t f.value f.sibling

def front (f : Frame α) : List α :=
  match f.side with
  | .left => []
  | .right => f.sibling.toList ++ [f.value]

def back (f : Frame α) : List α :=
  match f.side with
  | .left => f.value :: f.sibling.toList
  | .right => []

theorem toList_fill (f : Frame α) (t : RbTree α) :
    (f.fill t).toList = f.front ++ t.toList ++ f.back := by
  cases f with
  | mk side c x o => cases side <;> simp [fill, RbTree.on, front, back]

end Frame

@[simp] def plug : List (Frame α) → RbTree α → RbTree α
  | [], t => t
  | f :: ctx, t => plug ctx (f.fill t)

/-- What lies before the hole in the order of the tree. -/
def before : List (Frame α) → List α
  | [] => []
  | f :: ctx => before ctx ++ f.front

def after : List (Frame α) → List α
  | [] => []
  | f :: ctx => f.back ++ after ctx

@[simp] theorem toList_plug (ctx : List (Frame α)) (t : RbTree α) :
    (plug ctx t).toList = before ctx ++ t.toList ++ after ctx := by
  induction ctx generalizing t with
  | nil => simp [before, after]
  | cons f ctx ih =>
      calc (plug (f :: ctx) t).toList = before ctx ++ (f.fill t).toList ++ after ctx := ih (f.fill t)
        _ = before (f :: ctx) ++ t.toList ++ after (f :: ctx) := by
          simp [Frame.toList_fill, before, after]

/-- What is in the frames. -/
@[simp] def members : List (Frame α) → List α
  | [] => []
  | f :: ctx => f.value :: (f.sibling.toList ++ members ctx)

theorem toList_plug_perm (ctx : List (Frame α)) (t : RbTree α) :
    (plug ctx t).toList.Perm (t.toList ++ members ctx) := by
  induction ctx generalizing t with
  | nil => simp
  | cons f ctx ih =>
      have hfill :=
        (RbTree.toList_on_perm f.side f.color t f.value f.sibling).append_right (members ctx)
      have hmiddle : (f.value :: (t.toList ++ f.sibling.toList) ++ members ctx).Perm
          (t.toList ++ members (f :: ctx)) := by
        simpa using List.perm_middle.symm
      exact (ih (f.fill t)).trans (hfill.trans hmiddle)

theorem perm_on_append (side : Side) (c : Color) (t : RbTree α) (x : α) (o : RbTree α)
    (l : List α) :
    ((RbTree.on side c t x o).toList ++ l).Perm (x :: (t.toList ++ (o.toList ++ l))) := by
  have hperm := (RbTree.toList_on_perm side c t x o).append_right l
  simpa using hperm

section Nodup

variable {side : Side} {ctx : List (Frame α)} {a b d e : RbTree α} {c cmid cnew : Color}
  {new mid old : α}

theorem nodup_rotate
    (h : (plug ctx (.on side c (.on side cnew a new b) old d)).toList.Nodup) :
    (old :: new :: (a.toList ++ (b.toList ++ (d.toList ++ members ctx)))).Nodup := by
  have hplug := (toList_plug_perm ctx _).nodup_iff.mp h
  have houter := (perm_on_append side c (.on side cnew a new b) old d (members ctx)).nodup_iff.mp hplug
  have hinner := perm_on_append side cnew a new b (d.toList ++ members ctx)
  exact (hinner.cons old).nodup_iff.mp houter

theorem nodup_rotateTwice
    (h : (plug ctx (.on side c (.on side.other cmid (.on side cnew b new e) mid a) old
      d)).toList.Nodup) :
    (old :: mid :: new ::
      (b.toList ++ (e.toList ++ (a.toList ++ (d.toList ++ members ctx))))).Nodup := by
  have hplug := (toList_plug_perm ctx _).nodup_iff.mp h
  have houter := (perm_on_append side c (.on side.other cmid (.on side cnew b new e) mid a) old d
    (members ctx)).nodup_iff.mp hplug
  have hmid := perm_on_append side.other cmid (.on side cnew b new e) mid a (d.toList ++ members ctx)
  have hinner := perm_on_append side cnew b new e (a.toList ++ (d.toList ++ members ctx))
  exact ((hmid.trans (hinner.cons mid)).cons old).nodup_iff.mp houter

end Nodup

theorem perm_replace (ctx inner : List (Frame α)) (c : Color) (l t : RbTree α) (x : α) :
    (plug ctx (.node c l x (plug inner t))).toList.Perm
      (x :: (l.toList ++ (t.toList ++ (members inner ++ members ctx)))) := by
  have hinner := ((toList_plug_perm inner t).append_right (members ctx)).append_left l.toList
  have houter := perm_on_append .left c l x (plug inner t) (members ctx)
  have hassoc : (x :: (l.toList ++ (t.toList ++ members inner ++ members ctx))).Perm
      (x :: (l.toList ++ (t.toList ++ (members inner ++ members ctx)))) := by simp
  exact ((toList_plug_perm ctx _).trans houter).trans ((hinner.cons x).trans hassoc)

theorem nodup_replace (inner : List (Frame α)) {ctx : List (Frame α)} {c cs : Color}
    {l sr : RbTree α} {x y : α}
    (h : (plug ctx (.node c l x (plug inner (.node cs .nil y sr)))).toList.Nodup) :
    (x :: y :: (l.toList ++ (sr.toList ++ (members inner ++ members ctx)))).Nodup := by
  have hperm := perm_replace ctx inner c l (.node cs .nil y sr) x
  have hmiddle : (x :: (l.toList ++ (y :: sr.toList ++ (members inner ++ members ctx)))).Perm
      (x :: y :: (l.toList ++ (sr.toList ++ (members inner ++ members ctx)))) :=
    List.perm_middle.cons x
  exact (hperm.trans hmiddle).nodup_iff.mp h

theorem plug_append (inner outer : List (Frame α)) (t : RbTree α) :
    plug (inner ++ outer) t = plug outer (plug inner t) := by
  induction inner generalizing t with
  | nil => rfl
  | cons f inner ih => exact ih (f.fill t)

theorem before_append (inner outer : List (Frame α)) :
    before (inner ++ outer) = before outer ++ before inner := by
  induction inner with
  | nil => simp [before]
  | cons f inner ih => simp [before, ih]

theorem after_append (inner outer : List (Frame α)) :
    after (inner ++ outer) = after inner ++ after outer := by
  induction inner with
  | nil => simp [after]
  | cons f inner ih => simp [after, ih]

theorem before_eq_nil {ctx : List (Frame α)} (h : ∀ f ∈ ctx, f.side = .left) : before ctx = [] := by
  induction ctx with
  | nil => rfl
  | cons f ctx ih =>
      have hf : f.side = .left := h f List.mem_cons_self
      simp [before, Frame.front, hf, ih fun g hg => h g (List.mem_cons_of_mem f hg)]

theorem depth_plug (ctx : List (Frame α)) (t : RbTree α) :
    t.depth + ctx.length ≤ (plug ctx t).depth := by
  induction ctx generalizing t with
  | nil => exact le_rfl
  | cons f ctx ih =>
      have hfill : t.depth + 1 ≤ (f.fill t).depth := by
        cases f with
        | mk side c x o => cases side <;> simp [Frame.fill, RbTree.on]
      have h := ih (f.fill t)
      simp only [plug, List.length_cons]
      omega

/-- Every member of a tree is the root of a subtree. -/
theorem exists_plug {t : RbTree α} {x : α} (h : x ∈ t.toList) :
    ∃ ctx c l r, t = plug ctx (.node c l x r) := by
  have hdown : ∀ (t : RbTree α), x ∈ t.toList → ∀ ctx, ∃ ctx' c l r,
      plug ctx t = plug ctx' (.node c l x r) := by
    intro t
    induction t with
    | nil => simp
    | node c l y r ihl ihr =>
        intro hx ctx
        rcases List.mem_append.mp hx with hl | hr
        · exact ihl hl (⟨.left, c, y, r⟩ :: ctx)
        · rcases List.mem_cons.mp hr with rfl | hr
          · exact ⟨ctx, c, l, r, rfl⟩
          · exact ihr hr (⟨.right, c, y, l⟩ :: ctx)
  exact hdown t h []

/-- In a tree without repetitions a member's place splits the list where the
member stands. -/
theorem plug_split {ctx : List (Frame α)} {c : Color} {l r : RbTree α} {x : α} {xs ys : List α}
    (hnodup : (plug ctx (.node c l x r)).toList.Nodup)
    (h : (plug ctx (.node c l x r)).toList = xs ++ x :: ys) :
    xs = before ctx ++ l.toList ∧ ys = r.toList ++ after ctx := by
  have hlist : (plug ctx (.node c l x r)).toList =
      (before ctx ++ l.toList) ++ x :: (r.toList ++ after ctx) := by simp
  rw [hlist] at hnodup
  exact Cursor.nodup_split hnodup (h.symm.trans hlist)

/-- The colour above the hole is black, so a red root fits in. -/
def RedFits : List (Frame α) → Prop
  | [] => False
  | f :: _ => f.color = .black

/-- A tree of black height `n` fits in the hole. -/
def Accepts : Nat → List (Frame α) → Prop
  | _, [] => True
  | n, ⟨_, .red, _, o⟩ :: ctx => (o.IsBlack ∧ RedFits ctx) ∧ o.Balanced n ∧ Accepts n ctx
  | n, ⟨_, .black, _, o⟩ :: ctx => o.Balanced n ∧ Accepts (n + 1) ctx

@[simp] theorem redFits_nil : ¬ RedFits ([] : List (Frame α)) := id

@[simp] theorem redFits_cons {f : Frame α} {ctx : List (Frame α)} :
    RedFits (f :: ctx) ↔ f.color = .black := Iff.rfl

@[simp] theorem accepts_nil {n : Nat} : Accepts n ([] : List (Frame α)) := trivial

@[simp] theorem accepts_red {n : Nat} {side : Side} {x : α} {o : RbTree α}
    {ctx : List (Frame α)} :
    Accepts n (⟨side, .red, x, o⟩ :: ctx) ↔
      (o.IsBlack ∧ RedFits ctx) ∧ o.Balanced n ∧ Accepts n ctx := Iff.rfl

@[simp] theorem accepts_black {n : Nat} {side : Side} {x : α} {o : RbTree α}
    {ctx : List (Frame α)} :
    Accepts n (⟨side, .black, x, o⟩ :: ctx) ↔ o.Balanced n ∧ Accepts (n + 1) ctx := Iff.rfl

theorem plug_isRedBlack {ctx : List (Frame α)} {t : RbTree α} :
    (plug ctx t).IsRedBlack ↔
      ∃ n, t.Balanced n ∧ Accepts n ctx ∧ (t.IsBlack ∨ RedFits ctx) := by
  induction ctx generalizing t with
  | nil => simp [RbTree.IsRedBlack, and_comm]
  | cons f ctx ih =>
      rcases f with ⟨side, c, x, o⟩
      rw [plug, ih]
      cases c with
      | red =>
          simp only [Frame.fill, RbTree.balanced_on_red, RbTree.isBlack_on, accepts_red,
            redFits_cons, reduceCtorEq, false_or, or_false]
          constructor
          · rintro ⟨n, ⟨⟨hblack, hoblack⟩, ht, ho⟩, hctx, hfits⟩
            exact ⟨n, ht, ⟨⟨hoblack, hfits⟩, ho, hctx⟩, hblack⟩
          · rintro ⟨n, ht, ⟨⟨hoblack, hfits⟩, ho, hctx⟩, hblack⟩
            exact ⟨n, ⟨⟨hblack, hoblack⟩, ht, ho⟩, hctx, hfits⟩
      | black =>
          simp only [Frame.fill, RbTree.balanced_on_black, RbTree.isBlack_on, accepts_black,
            redFits_cons, or_true, true_or, and_true]
          constructor
          · rintro ⟨_, ⟨m, rfl, ht, ho⟩, hctx⟩
            exact ⟨m, ht, ho, hctx⟩
          · rintro ⟨m, ht, ho, hctx⟩
            exact ⟨m + 1, ⟨m, rfl, ht, ho⟩, hctx⟩

section Colours

variable {side : Side} {ctx : List (Frame α)} {n : Nat} {o u t : RbTree α}
  {p g x : α}

/-- The loop ends with a rotation at `g` when `x` hangs on the outside. -/
theorem outer_isRedBlack (ht : t.Balanced n) (ho : o.IsBlack ∧ o.Balanced n)
    (hu : u.IsBlack ∧ u.Balanced n) (hctx : Accepts (n + 1) ctx) :
    (plug ctx (.on side .black t p (.on side .red (o.recolor .black) g u))).IsRedBlack := by
  have hlower : (RbTree.on side .red (o.recolor .black) g u).Balanced n := by
    rw [ho.1.recolor]
    exact RbTree.balanced_on_red.mpr ⟨⟨ho.1, hu.1⟩, ho.2, hu.2⟩
  exact plug_isRedBlack.mpr ⟨n + 1, RbTree.balanced_on_black.mpr ⟨n, rfl, ht, hlower⟩, hctx,
    .inl (by simp)⟩

/-- The loop ends with two rotations when `x` hangs on the inside. -/
theorem inner_isRedBlack {b e : RbTree α} (ht : (RbTree.on side .red b x e).Balanced n)
    (ho : o.IsBlack ∧ o.Balanced n) (hu : u.IsBlack ∧ u.Balanced n)
    (hctx : Accepts (n + 1) ctx) :
    (plug ctx (.on side .black (.on side.other .red (b.recolor .black) p o) x
      (.on side .red (e.recolor .black) g u))).IsRedBlack := by
  rcases RbTree.balanced_on_red.mp ht with ⟨⟨hbblack, heblack⟩, hb, he⟩
  have hupper : (RbTree.on side.other .red (b.recolor .black) p o).Balanced n := by
    rw [hbblack.recolor]
    exact RbTree.balanced_on_red.mpr ⟨⟨hbblack, ho.1⟩, hb, ho.2⟩
  exact outer_isRedBlack hupper ⟨heblack, he⟩ hu hctx

end Colours

section Value

variable {inner ctx : List (Frame α)} {side : Side} {c : Color} {x y : α} {o t : RbTree α}

/-- The colours do not depend on the values. -/
theorem redFits_value :
    RedFits (inner ++ ⟨side, c, x, o⟩ :: ctx) ↔ RedFits (inner ++ ⟨side, c, y, o⟩ :: ctx) := by
  cases inner <;> exact Iff.rfl

theorem accepts_value {n : Nat} : Accepts n (inner ++ ⟨side, c, x, o⟩ :: ctx) ↔
    Accepts n (inner ++ ⟨side, c, y, o⟩ :: ctx) := by
  induction inner generalizing n with
  | nil => cases c <;> exact Iff.rfl
  | cons f inner ih =>
      rcases f with ⟨fside, fc, fx, fo⟩
      cases fc with
      | red => simp only [List.cons_append, accepts_red, ih, redFits_value (x := x) (y := y)]
      | black => simp only [List.cons_append, accepts_black, ih]

theorem isRedBlack_value : (plug (inner ++ ⟨side, c, x, o⟩ :: ctx) t).IsRedBlack ↔
    (plug (inner ++ ⟨side, c, y, o⟩ :: ctx) t).IsRedBlack := by
  simp only [plug_isRedBlack, accepts_value (x := x) (y := y), redFits_value (x := x) (y := y)]

end Value

/-- A node with at most one child is taken out: the child takes its place in black,
and where there is none a black node is missing. -/
theorem isRedBlack_splice (side : Side) {ctx : List (Frame α)} {c : Color} {t : RbTree α} {x : α}
    (h : (plug ctx (.on side c t x .nil)).IsRedBlack) :
    t.recolor c = t.recolor .black ∧
      if t.root = none ∧ c = .black then Accepts 1 ctx
      else (plug ctx (t.recolor .black)).IsRedBlack := by
  rcases plug_isRedBlack.mp h with ⟨n, hn, hctx, hfits⟩
  cases c with
  | red =>
      rcases RbTree.balanced_on_red.mp hn with ⟨⟨ht, _⟩, hbt, rfl⟩
      cases t with
      | nil =>
          have hnil : (plug ctx (.nil : RbTree α)).IsRedBlack :=
            plug_isRedBlack.mpr ⟨0, RbTree.balanced_nil.mpr rfl, hctx, .inl trivial⟩
          exact ⟨rfl, by simpa using hnil⟩
      | node ct l z r =>
          cases ht
          rcases hbt with ⟨m, hm, _⟩
          cases hm
  | black =>
      rcases RbTree.balanced_on_black.mp hn with ⟨m, rfl, hbt, rfl⟩
      cases t with
      | nil => exact ⟨rfl, by simpa using hctx⟩
      | node ct l z r =>
          have hblack : (RbTree.node .black l z r).Balanced 1 := by
            cases ct with
            | red => exact ⟨0, rfl, (RbTree.balanced_red.mp hbt).2⟩
            | black =>
                rcases hbt with ⟨k, hk, _⟩
                cases hk
          exact ⟨rfl, by simpa using plug_isRedBlack.mpr ⟨1, hblack, hctx, .inl rfl⟩⟩

section Augment

/-! What a node is augmented by is made of the node and of what its children are
augmented by. -/

variable (combine : α → Option β → Option β → β)

def combineOn (side : Side) (x : α) (child sibling : Option β) : β :=
  match side with
  | .left => combine x child sibling
  | .right => combine x sibling child

def Consistent (f : α → β) : RbTree α → Prop
  | .nil => True
  | .node _ l x r =>
      f x = combine x (l.root.map f) (r.root.map f) ∧ Consistent f l ∧ Consistent f r

/-- The frames are consistent above a hole that is filled with `child`. -/
def ConsistentAbove (f : α → β) : Option β → List (Frame α) → Prop
  | _, [] => True
  | child, fr :: ctx =>
      f fr.value = combineOn combine fr.side fr.value child (fr.sibling.root.map f) ∧
        Consistent combine f fr.sibling ∧ ConsistentAbove f (some (f fr.value)) ctx

/-- Of the frames only the nearest may be out of date. -/
def StaleAbove (f : α → β) : List (Frame α) → Prop
  | [] => True
  | fr :: ctx => Consistent combine f fr.sibling ∧ ConsistentAbove combine f (some (f fr.value)) ctx

/-- `total` is what the combination adds up to over the list of a subtree. -/
def Totals (total : List α → β) : Prop :=
  ∀ x l r, combine x (if l = [] then none else some (total l))
    (if r = [] then none else some (total r)) = total (l ++ x :: r)

variable {combine} {f g : α → β}

@[simp] theorem consistent_nil : Consistent combine f .nil := trivial

@[simp] theorem consistentAbove_nil {child : Option β} :
    ConsistentAbove combine f child [] := trivial

theorem consistent_on {side : Side} {c : Color} {t o : RbTree α} {x : α} :
    Consistent combine f (.on side c t x o) ↔
      f x = combineOn combine side x (t.root.map f) (o.root.map f) ∧
        Consistent combine f t ∧ Consistent combine f o := by
  cases side with
  | left => exact Iff.rfl
  | right =>
      simp only [RbTree.on, Consistent, combineOn]
      tauto

@[simp] theorem consistent_recolor {c : Color} {t : RbTree α} :
    Consistent combine f (t.recolor c) ↔ Consistent combine f t := by
  cases t <;> exact Iff.rfl

theorem consistent_plug {ctx : List (Frame α)} {t : RbTree α} :
    Consistent combine f (plug ctx t) ↔
      ConsistentAbove combine f (t.root.map f) ctx ∧ Consistent combine f t := by
  induction ctx generalizing t with
  | nil => simp
  | cons fr ctx ih =>
      rw [plug, ih, Frame.fill, consistent_on, RbTree.root_on, ConsistentAbove, Option.map_some]
      tauto

theorem map_root_congr {t : RbTree α} (h : ∀ y ∈ t.toList, g y = f y) :
    t.root.map g = t.root.map f := by
  cases t with
  | nil => rfl
  | node c l x r => simp [h x (by simp)]

theorem Consistent.congr {t : RbTree α} (h : Consistent combine f t)
    (heq : ∀ y ∈ t.toList, g y = f y) : Consistent combine g t := by
  induction t with
  | nil => trivial
  | node c l x r ihl ihr =>
      have hl : ∀ y ∈ l.toList, g y = f y := fun y hy => heq y (by simp [hy])
      have hr : ∀ y ∈ r.toList, g y = f y := fun y hy => heq y (by simp [hy])
      refine ⟨?_, ihl h.2.1 hl, ihr h.2.2 hr⟩
      rw [map_root_congr hl, map_root_congr hr, heq x (by simp)]
      exact h.1

/-- The combination may be read in another way that comes to the same at the nodes. -/
theorem Consistent.recombine {combine' : α → Option β → Option β → β} {t : RbTree α}
    (h : Consistent combine f t) (heq : ∀ x ∈ t.toList, combine' x = combine x) :
    Consistent combine' f t := by
  induction t with
  | nil => trivial
  | node c l x r ihl ihr =>
      have hl : ∀ y ∈ l.toList, combine' y = combine y := fun y hy => heq y (by simp [hy])
      have hr : ∀ y ∈ r.toList, combine' y = combine y := fun y hy => heq y (by simp [hy])
      refine ⟨?_, ihl h.2.1 hl, ihr h.2.2 hr⟩
      rw [heq x (by simp)]
      exact h.1

theorem ConsistentAbove.congr {ctx : List (Frame α)} {child : Option β}
    (h : ConsistentAbove combine f child ctx) (heq : ∀ y ∈ members ctx, g y = f y) :
    ConsistentAbove combine g child ctx := by
  induction ctx generalizing child with
  | nil => trivial
  | cons fr ctx ih =>
      have hsibling : ∀ y ∈ fr.sibling.toList, g y = f y := fun y hy => heq y (by simp [hy])
      rcases h with ⟨hvalue, hcons, habove⟩
      have hx : g fr.value = f fr.value := heq fr.value List.mem_cons_self
      refine ⟨?_, hcons.congr hsibling, ?_⟩
      · rw [map_root_congr hsibling, hx]
        exact hvalue
      · rw [hx]
        exact ih habove fun y hy => heq y (by simp [hy])

theorem ConsistentAbove.stale {ctx : List (Frame α)} {child : Option β}
    (h : ConsistentAbove combine f child ctx) : StaleAbove combine f ctx := by
  cases ctx with
  | nil => trivial
  | cons fr ctx => exact h.2

theorem StaleAbove.congr {ctx : List (Frame α)} (h : StaleAbove combine f ctx)
    (heq : ∀ y ∈ members ctx, g y = f y) : StaleAbove combine g ctx := by
  cases ctx with
  | nil => trivial
  | cons fr ctx =>
      have hsibling : ∀ y ∈ fr.sibling.toList, g y = f y := fun y hy => heq y (by simp [hy])
      have habove : ∀ y ∈ members ctx, g y = f y := fun y hy => heq y (by simp [hy])
      refine ⟨h.1.congr hsibling, ?_⟩
      rw [heq fr.value List.mem_cons_self]
      exact h.2.congr habove

theorem Consistent.total {total : List α → β} (htotal : Totals combine total) {t : RbTree α}
    (h : Consistent combine f t) :
    t.root.map f = if t.toList = [] then none else some (total t.toList) := by
  induction t with
  | nil => rfl
  | node c l x r ihl ihr =>
      have hx : f x = total (l.toList ++ x :: r.toList) := by
        rw [h.1, ihl h.2.1, ihr h.2.2]
        exact htotal x l.toList r.toList
      simp [hx]

theorem Consistent.total_root {total : List α → β} (htotal : Totals combine total) {t : RbTree α}
    {x : α} (h : Consistent combine f t) (hx : t.root = some x) : f x = total t.toList := by
  have htree := h.total htotal
  have hne : t.toList ≠ [] := List.ne_nil_of_mem (RbTree.root_mem hx)
  rw [hx, Option.map_some, if_neg hne] at htree
  exact Option.some.inj htree

theorem combineOn_total {total : List α → β} (htotal : Totals combine total) {side : Side}
    {c : Color} {t o : RbTree α} {x : α} (ht : Consistent combine f t) (ho : Consistent combine f o) :
    combineOn combine side x (t.root.map f) (o.root.map f) =
      total (RbTree.on side c t x o).toList := by
  rw [ht.total htotal, ho.total htotal]
  cases side
  · exact htotal x t.toList o.toList
  · exact htotal x o.toList t.toList

section Rotate

variable {total : List α → β} {side : Side} {ctx : List (Frame α)} {a b d : RbTree α}
  {c c' cnew cold : Color} {new old : α}

/-- The value of `old` goes to `new`, and `old` is made up again from its new
children. -/
theorem Consistent.rotate (htotal : Totals combine total)
    (h : Consistent combine f (plug ctx (.on side c (.on side cnew a new b) old d)))
    (hnodup : (plug ctx (.on side c (.on side cnew a new b) old d)).toList.Nodup)
    (hnew : g new = f old)
    (hold : g old = combineOn combine side old (b.root.map f) (d.root.map f))
    (hrest : ∀ y, y = new ∨ y = old ∨ g y = f y) :
    Consistent combine g (plug ctx (.on side c' a new (.on side cold b old d))) := by
  have hn := nodup_rotate hnodup
  simp only [List.nodup_cons, List.mem_cons, List.mem_append, not_or] at hn
  rw [consistent_plug, consistent_on, consistent_on, RbTree.root_on] at h
  rcases h with ⟨hctx, hfold, ⟨hfnew, ha, hb⟩, hd⟩
  have hga : ∀ y ∈ a.toList, g y = f y := by grind
  have hgb : ∀ y ∈ b.toList, g y = f y := by grind
  have hgd : ∀ y ∈ d.toList, g y = f y := by grind
  have hgc : ∀ y ∈ members ctx, g y = f y := by grind
  have hlower : Consistent combine g (.on side cold b old d) := by
    refine consistent_on.mpr ⟨?_, hb.congr hgb, hd.congr hgd⟩
    rw [map_root_congr hgb, map_root_congr hgd, hold]
  have hupper : g new = combineOn combine side new (a.root.map g)
      ((RbTree.on side cold b old d).root.map g) := by
    have hbelow : Consistent combine f (.on side cnew a new b) :=
      consistent_on.mpr ⟨hfnew, ha, hb⟩
    calc g new = f old := hnew
      _ = total (RbTree.on side c (.on side cnew a new b) old d).toList := by
        rw [hfold]
        exact combineOn_total htotal hbelow hd
      _ = total (RbTree.on side c' a new (.on side cold b old d)).toList := by
        cases side <;> simp [RbTree.on]
      _ = _ := (combineOn_total htotal (ha.congr hga) hlower).symm
  rw [consistent_plug, consistent_on, RbTree.root_on]
  refine ⟨?_, hupper, ha.congr hga, hlower⟩
  simp only [Option.map_some, hnew]
  exact hctx.congr hgc

end Rotate

end Augment

end RedBlack
