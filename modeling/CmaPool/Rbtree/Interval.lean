import CmaPool.Rbtree.Cached

/-! The interval trees of interval_tree_generic.h: sorted by where the intervals start,
and augmented by the last address of a subtree. -/

namespace CmaPool.Rbtree

open RedBlack RbRoot

variable {α : Type}

namespace RbRoot

variable (t : RbRoot α Nat) (start last : α → Nat) (lo hi : Nat)

/-- A child whose subtree reaches up to `lo`. -/
def reaches (child : Option α) : Option α := child.filter fun c => lo ≤ t.augmented c

/-- `_subtree_search` of `INTERVAL_TREE_DEFINE`. -/
def subtreeSearch : Nat → α → Option (Option α)
  | 0, _ => none
  | fuel + 1, node =>
      match t.reaches lo (t.node node).left with
      | some left => subtreeSearch fuel left
      | none =>
          if start node ≤ hi then
            if lo ≤ last node then
              some (some node)
            else
              match t.reaches lo (t.node node).right with
              | some right => subtreeSearch fuel right
              | none => some none
          else
            some none

/-- `_iter_next`. -/
def iterNext [DecidableEq α] (fuel : Nat) : Nat → α → Option (Option α)
  | 0, _ => none
  | rounds + 1, node =>
      match t.reaches lo (t.node node).right with
      | some right => subtreeSearch t start last lo hi fuel right
      | none => do
          match ← t.ascend .right fuel node with
          | none => return none
          | some node =>
              if hi < start node then
                return none
              else if lo ≤ last node then
                return some node
              else
                iterNext fuel rounds node

end RbRoot

/-- `_iter_first`. -/
def RbRootCached.iterFirst (t : RbRootCached α Nat) (start last : α → Nat) (lo hi fuel : Nat) :
    Option (Option α) :=
  match t.rbRoot.rbNode with
  | none => some none
  | some node =>
      if t.rbRoot.augmented node < lo then
        some none
      else do
        let leftmost ← t.rbLeftmost
        if start leftmost > hi then
          return none
        else
          t.rbRoot.subtreeSearch start last lo hi fuel node

/-- The intervals that intersect `[lo, hi]`. -/
def Intersects (start last : α → Nat) (lo hi : Nat) (x : α) : Bool := start x ≤ hi ∧ lo ≤ last x

section Search

variable {s : RbRoot α Nat} {start last : α → Nat} {lo hi fuel : Nat}

/-- The largest last address of a subtree says whether some interval in it reaches
up to `lo`. -/
theorem reaches_eq (lo : Nat) {t : RbTree α} (h : Consistent (combineMax last) s.augmented t) :
    s.reaches lo t.root = if ∃ y ∈ t.toList, lo ≤ last y then t.root else none := by
  cases hroot : t.root with
  | none => simp [reaches]
  | some x =>
      have hx := RbTree.root_mem hroot
      have hmax := h.total_root (totals_max last) hroot
      have hiff : lo ≤ s.augmented x ↔ ∃ y ∈ t.toList, lo ≤ last y := by
        rw [hmax]
        rcases Nat.eq_zero_or_pos lo with rfl | hpos
        · exact ⟨fun _ => ⟨x, hx, Nat.zero_le _⟩, fun _ => Nat.zero_le _⟩
        · exact le_listMax last hpos
      simp [reaches, Option.filter, hiff]

/-- Where an interval reaches up to `lo` but starts too late, so do all that follow. -/
theorem find?_append_of_reaches (hi : Nat) {l r : List α}
    (hsorted : (l ++ r).Pairwise fun y z => start y ≤ start z) (h : ∃ y ∈ l, lo ≤ last y) :
    (l ++ r).find? (Intersects start last lo hi) = l.find? (Intersects start last lo hi) := by
  rcases h with ⟨y, hy, hlo⟩
  rw [List.find?_append]
  cases hl : l.find? (Intersects start last lo hi) with
  | some z => rfl
  | none =>
      have hlate : hi < start y := by
        have hmiss := List.find?_eq_none.mp hl y hy
        simp only [Intersects, decide_eq_true_eq, not_and] at hmiss
        by_contra hle
        exact hmiss (not_lt.mp hle) hlo
      rw [Option.none_or]
      refine List.find?_eq_none.mpr fun z hz => ?_
      have hyz := (List.pairwise_append.mp hsorted).2.2 y hy z hz
      simp only [Intersects, decide_eq_true_eq, not_and]
      omega

theorem find?_of_not_reaches {l : List α} (h : ¬ ∃ y ∈ l, lo ≤ last y) :
    l.find? (Intersects start last lo hi) = none := by
  refine List.find?_eq_none.mpr fun z hz => ?_
  have hz' : ¬ lo ≤ last z := fun hle => h ⟨z, hz, hle⟩
  simp [Intersects, hz']

theorem find?_of_late {x : α} {l : List α} (hsorted : (x :: l).Pairwise fun y z => start y ≤ start z)
    (h : hi < start x) : (x :: l).find? (Intersects start last lo hi) = none := by
  refine List.find?_eq_none.mpr fun z hz => ?_
  have hxz : start x ≤ start z := by
    rcases List.mem_cons.mp hz with rfl | hz
    · exact le_rfl
    · exact (List.pairwise_cons.mp hsorted).1 z hz
  simp only [Intersects, decide_eq_true_eq, not_and]
  omega

/-- The search finds the first interval of the subtree that intersects. -/
theorem subtreeSearch_spec (lo hi : Nat) {t : RbTree α} {p : Option α} {n : α} (h : Stored s.node p t)
    (hcons : Consistent (combineMax last) s.augmented t)
    (hsorted : t.toList.Pairwise fun y z => start y ≤ start z) (hn : t.root = some n)
    (hfuel : t.depth ≤ fuel) :
    s.subtreeSearch start last lo hi fuel n =
      some (t.toList.find? (Intersects start last lo hi)) := by
  induction t generalizing fuel p n with
  | nil => cases hn
  | node c l x r ihl ihr =>
      cases Option.some.inj hn
      simp only [RbTree.depth] at hfuel
      rcases h with ⟨hx, hl, hr⟩
      rcases hcons with ⟨_, hcl, hcr⟩
      rcases List.pairwise_append.mp hsorted with ⟨hsl, hsr, _⟩
      have hsr' := (List.pairwise_cons.mp hsr).2
      cases fuel with
      | zero => omega
      | succ fuel =>
          rw [subtreeSearch, hx]
          simp only [reaches_eq _ hcl, reaches_eq _ hcr]
          by_cases hleft : ∃ y ∈ l.toList, lo ≤ last y
          · have hfind := find?_append_of_reaches hi hsorted hleft
            rw [if_pos hleft, RbTree.toList, hfind]
            cases hroot : l.root with
            | none =>
                cases RbTree.root_eq_none.mp hroot
                simp at hleft
            | some m => exact ihl hl hcl hsl hroot (by omega)
          · have hfind : (RbTree.node c l x r).toList.find? (Intersects start last lo hi) =
                (x :: r.toList).find? (Intersects start last lo hi) := by
              rw [RbTree.toList, List.find?_append, find?_of_not_reaches hleft, Option.none_or]
            rw [if_neg hleft, hfind]
            by_cases hle : start x ≤ hi
            · rw [if_pos hle]
              by_cases hlo : lo ≤ last x
              · simp [Intersects, hle, hlo]
              · have hmiss : Intersects start last lo hi x = false := by simp [Intersects, hlo]
                rw [if_neg hlo, List.find?_cons_of_neg (by simp [hmiss])]
                by_cases hright : ∃ y ∈ r.toList, lo ≤ last y
                · rw [if_pos hright]
                  cases hroot : r.root with
                  | none =>
                      cases RbTree.root_eq_none.mp hroot
                      simp at hright
                  | some m => exact ihr hr hcr hsr' hroot (by omega)
                · rw [if_neg hright, find?_of_not_reaches hright]
            · rw [if_neg hle, find?_of_late hsr (not_le.mp hle)]

/-- `_iter_first`: the quick tests lose nothing. -/
theorem IsCached.iterFirst {s : RbRootCached α Nat} {l : List α}
    (h : IsCached (combineMax last) s l) (hsorted : l.Pairwise fun y z => start y ≤ start z)
    (hfuel : depthBound l.length ≤ fuel) :
    s.iterFirst start last lo hi fuel = some (l.find? (Intersects start last lo hi)) := by
  rcases h with ⟨⟨t, hrep, hred, rfl⟩, hfirst⟩
  rw [RbRootCached.iterFirst, hrep.holds.root]
  cases hroot : t.root with
  | none =>
      cases RbTree.root_eq_none.mp hroot
      rfl
  | some n =>
      have hreach := reaches_eq lo hrep.consistent
      simp only [hroot, reaches, Option.filter] at hreach
      by_cases hlow : s.rbRoot.augmented n < lo
      · have hnone : ¬ ∃ y ∈ t.toList, lo ≤ last y := by
          intro hex
          simp [hex] at hreach
          omega
        simp only [if_pos hlow, find?_of_not_reaches hnone]
      · have hdown := subtreeSearch_spec lo hi hrep.holds.stored hrep.consistent hsorted
          hroot (hred.depth_le.trans hfuel)
        cases hlist : t.toList with
        | nil =>
            have hmem := RbTree.root_mem hroot
            rw [hlist] at hmem
            cases hmem
        | cons x rest =>
            rw [hlist] at hfirst hsorted hdown
            simp only [if_neg hlow, hfirst, List.head?_cons]
            by_cases hlate : start x > hi
            · simp [hlate, find?_of_late hsorted hlate]
            · simpa [hlate] using hdown

end Search

section Next

variable [DecidableEq α] {s : RbRoot α Nat} {start last : α → Nat} {lo hi fuel : Nat}

omit [DecidableEq α] in
/-- The frame from which the walk up does not come from the right. -/
theorem after_eq_cons {ctx : List (Frame α)} {y : α} {ys : List α} (h : after ctx = y :: ys) :
    ∃ inner c o outer, ctx = inner ++ ⟨.left, c, y, o⟩ :: outer ∧ ys = o.toList ++ after outer := by
  induction ctx with
  | nil => cases h
  | cons f ctx ih =>
      rcases f with ⟨side, c, x, o⟩
      cases side with
      | left =>
          cases h
          exact ⟨[], c, o, ctx, rfl, rfl⟩
      | right =>
          rcases ih h with ⟨inner, c', o', outer, rfl, hys⟩
          exact ⟨⟨.right, c, x, o⟩ :: inner, c', o', outer, rfl, hys⟩

/-- `_iter_next`: from an interval that intersects to the next one that does. -/
theorem iterNext_spec {rounds : Nat} {ctx : List (Frame α)} {c : Color} {l r : RbTree α} {x : α}
    (h : Represents (combineMax last) s (plug ctx (.node c l x r)))
    (hsorted : (plug ctx (.node c l x r)).toList.Pairwise fun y z => start y ≤ start z)
    (hfuel : (plug ctx (.node c l x r)).depth < fuel) (hrounds : ctx.length < rounds) :
    s.iterNext start last lo hi fuel rounds x =
      some ((r.toList ++ after ctx).find? (Intersects start last lo hi)) := by
  induction rounds generalizing ctx c l x r with
  | zero => cases hrounds
  | succ rounds ih =>
      rcases stored_plug.mp h.holds.stored with ⟨hctx, hx, _, hr⟩
      have hcr := (consistent_plug.mp h.consistent).2.2.2
      have hlist : (plug ctx (.node c l x r)).toList =
          before ctx ++ l.toList ++ x :: (r.toList ++ after ctx) := by simp
      have htail : (r.toList ++ after ctx).Pairwise fun y z => start y ≤ start z := by
        rw [hlist] at hsorted
        exact (List.pairwise_cons.mp (List.pairwise_append.mp hsorted).2.1).2
      have hdepth := depth_plug ctx (.node c l x r)
      simp only [RbTree.depth] at hdepth
      rw [iterNext, hx]
      simp only [reaches_eq _ hcr]
      by_cases hright : ∃ y ∈ r.toList, lo ≤ last y
      · rw [if_pos hright, find?_append_of_reaches _ htail hright]
        cases hroot : r.root with
        | none =>
            cases RbTree.root_eq_none.mp hroot
            simp at hright
        | some m =>
            exact subtreeSearch_spec _ _ hr hcr (List.pairwise_append.mp htail).1 hroot (by omega)
      · have hn := (toList_plug_perm ctx _).nodup_iff.mp h.holds.nodup
        have hout : x ∉ members ctx := List.disjoint_of_nodup_append hn (by simp)
        have hup := ascend_spec .right hctx (by rw [hx]) (List.nodup_append.mp hn).2.1 hout
          (show ctx.length < fuel by omega)
        rw [if_neg hright, List.find?_append, find?_of_not_reaches hright, Option.none_or, hup, nextTo]
        cases hafter : after ctx with
        | nil => rfl
        | cons y ys =>
            have htail' := (List.pairwise_append.mp htail).2.1
            rw [hafter] at htail'
            simp only [List.head?_cons, Option.bind_eq_bind, Option.bind_some]
            by_cases hlate : hi < start y
            · rw [if_pos hlate, find?_of_late htail' hlate]
              rfl
            · rw [if_neg hlate]
              by_cases hlo : lo ≤ last y
              · simp [hlo, Intersects, not_lt.mp hlate]
              · have hmiss : Intersects start last lo hi y = false := by simp [Intersects, hlo]
                rw [if_neg hlo, List.find?_cons_of_neg (by simp [hmiss])]
                rcases after_eq_cons hafter with ⟨inner, c', o, outer, rfl, rfl⟩
                have hplug : plug (inner ++ ⟨.left, c', y, o⟩ :: outer) (.node c l x r) =
                    plug outer (.node c' (plug inner (.node c l x r)) y o) := by
                  rw [plug_append]
                  rfl
                rw [hplug] at h hsorted hfuel
                refine ih h hsorted hfuel ?_
                simp only [List.length_append, List.length_cons] at hrounds
                omega

/-- The loop over `_iter_first` and `_iter_next` visits the intervals that intersect, in
their order. -/
theorem IsCached.visits_iterNext {s : RbRootCached α Nat} {l : List α}
    (h : IsCached (combineMax last) s l) (hsorted : l.Pairwise fun y z => start y ≤ start z)
    (hfuel : depthBound l.length < fuel) :
    ∃ first, s.iterFirst start last lo hi fuel = some first ∧
      Cursor.visits (s.rbRoot.iterNext start last lo hi fuel fuel) l.length first =
        some (l.filter (Intersects start last lo hi)) := by
  refine ⟨_, h.iterFirst hsorted hfuel.le, ?_⟩
  rw [← List.head?_filter]
  refine Cursor.visits_eq (fun xs x ys hsplit => ?_) (List.length_filter_le _ l)
  rcases List.filter_eq_append_iff.mp hsplit with ⟨front, back, rfl, _, hback⟩
  rcases List.filter_eq_cons_iff.mp hback with ⟨skipped, rest, rfl, _, _, rfl⟩
  have htree : IsTree (combineMax last) s.rbRoot ((front ++ skipped) ++ x :: rest) := by
    simpa using h.tree
  rcases htree.exists_plug with ⟨ctx, c, lt, rt, hrep, _, hlist, hdepth, _, rfl⟩
  have hlength := depth_plug ctx (.node c lt x rt)
  have hdeep : (plug ctx (.node c lt x rt)).depth < fuel := by
    rw [List.append_assoc] at hdepth
    exact hdepth.trans_lt hfuel
  rw [iterNext_spec hrep (by rw [hlist]; simpa using hsorted) hdeep (by omega), List.head?_filter]

end Next

end CmaPool.Rbtree
