import Mathlib

/-! Circular doubly linked lists threaded through a link field.

A cell holds its two neighbours; an unset or poisoned pointer is `none`, and
following it has no result. `Ring` relates the cells to the list of members
read from the list head. Unlinking a member leaves its own cell as it was, so
linking it back behind its stale predecessor restores every cell. -/

namespace Ring

variable {α : Type*}

structure ListHead (α : Type*) where
  next : Option α
  prev : Option α
  deriving DecidableEq

abbrev Links (α : Type*) := α → ListHead α

def poisoned : ListHead α := ⟨none, none⟩

def Linked (links : Links α) (x y : α) : Prop :=
  (links x).next = some y ∧ (links y).prev = some x

def IsRing (links : Links α) (head : α) (members : List α) : Prop :=
  (head :: members ++ [head]).IsChain (Linked links) ∧ (head :: members).Nodup

/-- The member before a cut of the ring, or the head. -/
def before (head : α) : List α → α
  | [] => head
  | x :: xs => before x xs

/-- The member after a cut of the ring, or the head. -/
def after (head : α) : List α → α
  | [] => head
  | y :: _ => y

@[simp] theorem before_nil (head : α) : before head [] = head := rfl

@[simp] theorem before_cons (head x : α) (xs : List α) :
    before head (x :: xs) = before x xs := rfl

@[simp] theorem after_nil (head : α) : after head [] = head := rfl

@[simp] theorem after_cons (head y : α) (ys : List α) : after head (y :: ys) = y := rfl

@[simp] theorem before_concat (head x : α) (xs : List α) : before head (xs ++ [x]) = x := by
  induction xs generalizing head with
  | nil => rfl
  | cons y ys ih => exact ih y

theorem before_mem (head : α) (xs : List α) : before head xs ∈ head :: xs := by
  induction xs generalizing head with
  | nil => exact List.mem_singleton.mpr rfl
  | cons x xs ih => exact List.mem_cons_of_mem _ (ih x)

theorem after_mem (head : α) (ys : List α) : after head ys ∈ head :: ys := by
  cases ys with
  | nil => exact List.mem_singleton.mpr rfl
  | cons y ys => exact List.mem_cons_of_mem _ List.mem_cons_self

theorem exists_concat_before (head : α) (xs : List α) :
    ∃ front, head :: xs = front ++ [before head xs] := by
  induction xs generalizing head with
  | nil => exact ⟨[], rfl⟩
  | cons x xs ih =>
      rcases ih x with ⟨front, hfront⟩
      exact ⟨head :: front, congrArg (head :: ·) hfront⟩

theorem exists_cons_after (head : α) (ys : List α) :
    ∃ back, ys ++ [head] = after head ys :: back := by
  cases ys with
  | nil => exact ⟨[], rfl⟩
  | cons y ys => exact ⟨ys ++ [head], rfl⟩

theorem exists_cut {head x : α} {members : List α} (h : x ∈ head :: members) :
    ∃ xs ys, members = xs ++ ys ∧ before head xs = x := by
  rcases List.mem_cons.mp h with rfl | hx
  · exact ⟨[], members, rfl, rfl⟩
  · rcases List.append_of_mem hx with ⟨xs, ys, rfl⟩
    exact ⟨xs ++ [x], ys, by simp, before_concat head x xs⟩

/-- A chain reads the forward link of all but its last node and the backward
link of all but its first. -/
theorem chain_congr {links links' : Links α} {l : List α}
    (hnext : ∀ x ∈ l.dropLast, (links' x).next = (links x).next)
    (hprev : ∀ x ∈ l.tail, (links' x).prev = (links x).prev)
    (h : l.IsChain (Linked links)) : l.IsChain (Linked links') := by
  induction l with
  | nil => exact List.isChain_nil
  | cons x l ih =>
      cases l with
      | nil => exact List.isChain_singleton x
      | cons y l =>
          rw [List.isChain_cons_cons] at h ⊢
          rcases h with ⟨⟨hxy, hyx⟩, htail⟩
          refine ⟨⟨?_, ?_⟩, ih ?_ ?_ htail⟩
          · exact (hnext x (by simp)).trans hxy
          · exact (hprev y (by simp)).trans hyx
          · intro z hz
            exact hnext z (by simpa using Or.inr hz)
          · intro z hz
            exact hprev z (List.mem_of_mem_tail (by simpa using hz))

section Cut

variable {links : Links α} {head : α} {xs ys : List α}

theorem chain_cut :
    (head :: (xs ++ ys) ++ [head]).IsChain (Linked links) ↔
      (head :: xs).IsChain (Linked links) ∧ (ys ++ [head]).IsChain (Linked links) ∧
        Linked links (before head xs) (after head ys) := by
  rcases exists_concat_before head xs with ⟨front, hfront⟩
  rcases exists_cons_after head ys with ⟨back, hback⟩
  have hsplit : head :: (xs ++ ys) ++ [head] = (head :: xs) ++ (ys ++ [head]) := by simp
  rw [hsplit, List.isChain_append, hfront, hback]
  simp

theorem IsRing.cut (h : IsRing links head (xs ++ ys)) :
    Linked links (before head xs) (after head ys) :=
  (chain_cut.mp h.1).2.2

theorem IsRing.next_eq (h : IsRing links head (xs ++ ys)) :
    (links (before head xs)).next = some (after head ys) := h.cut.1

theorem IsRing.next_member {x : α} (h : IsRing links head (xs ++ x :: ys)) :
    (links x).next = some (after head ys) := by
  have hcut : IsRing links head ((xs ++ [x]) ++ ys) := by simpa using h
  simpa using hcut.next_eq

theorem IsRing.prev_member {x : α} (h : IsRing links head (xs ++ x :: ys)) :
    (links x).prev = some (before head xs) := h.cut.2

theorem IsRing.before_not_mem (h : IsRing links head (xs ++ ys)) :
    before head xs ∉ ys := by
  have hnodup : (head :: xs ++ ys).Nodup := h.2
  intro hmem
  exact List.disjoint_of_nodup_append hnodup (before_mem head xs) hmem

theorem IsRing.after_not_mem (h : IsRing links head (xs ++ ys)) :
    after head ys ∉ xs := by
  have hnodup : (head :: xs ++ ys).Nodup := h.2
  intro hmem
  rcases List.mem_cons.mp (after_mem head ys) with heq | hys
  · rw [heq] at hmem
    exact (List.nodup_cons.mp h.2).1 (List.mem_append_left _ hmem)
  · exact List.disjoint_of_nodup_append hnodup (List.mem_cons_of_mem _ hmem) hys

theorem IsRing.before_not_mem_dropLast (h : IsRing links head (xs ++ ys)) :
    before head xs ∉ (head :: xs).dropLast := by
  rcases exists_concat_before head xs with ⟨front, hfront⟩
  have hnodup : (head :: xs ++ ys).Nodup := h.2
  rw [hfront] at hnodup ⊢
  rw [List.dropLast_concat]
  intro hmem
  exact List.disjoint_of_nodup_append (List.nodup_append.mp hnodup).1 hmem (by simp)

theorem IsRing.after_not_mem_tail (h : IsRing links head (xs ++ ys)) :
    after head ys ∉ (ys ++ [head]).tail := by
  cases ys with
  | nil => simp
  | cons y ys =>
      have hnodup : (head :: xs ++ (y :: ys)).Nodup := h.2
      have hys := (List.nodup_append.mp hnodup).2.1
      have hne : y ≠ head := by
        rintro rfl
        exact (List.nodup_cons.mp h.2).1 (by simp)
      simpa using ⟨(List.nodup_cons.mp hys).1, hne⟩

theorem IsRing.nodup_remove {x : α} (h : IsRing links head (xs ++ x :: ys)) :
    x ∉ head :: (xs ++ ys) ∧ (head :: (xs ++ ys)).Nodup := by
  have hperm : (head :: (xs ++ x :: ys)).Perm (x :: head :: (xs ++ ys)) :=
    (List.perm_middle.cons head).trans (List.Perm.swap x head _)
  exact List.nodup_cons.mp (hperm.nodup_iff.mp h.2)

theorem before_mem_ring (head : α) (xs ys : List α) : before head xs ∈ head :: (xs ++ ys) :=
  List.mem_append_left ys (before_mem head xs)

theorem after_mem_ring (head : α) (xs ys : List α) : after head ys ∈ head :: (xs ++ ys) := by
  rcases List.mem_cons.mp (after_mem head ys) with heq | hys
  · rw [heq]
    exact List.mem_cons_self
  · exact List.mem_cons_of_mem _ (List.mem_append_right xs hys)

theorem IsRing.next_mem {members : List α} {x y : α} (h : IsRing links head members)
    (hx : x ∈ head :: members) (hnext : (links x).next = some y) : y ∈ head :: members := by
  rcases exists_cut hx with ⟨xs, ys, rfl, rfl⟩
  rw [h.next_eq] at hnext
  rw [← Option.some.inj hnext]
  exact after_mem_ring head xs ys

theorem IsRing.prev_of_next {members : List α} {x y : α} (h : IsRing links head members)
    (hx : x ∈ head :: members) (hnext : (links x).next = some y) : (links y).prev = some x := by
  rcases exists_cut hx with ⟨xs, ys, rfl, rfl⟩
  rw [h.next_eq] at hnext
  rw [← Option.some.inj hnext]
  exact h.cut.2

/-- Two sides of a cut survive any edit of the links across the cut. -/
theorem IsRing.sides (h : IsRing links head (xs ++ ys)) (links' : Links α)
    (hnext : ∀ x ∈ head :: (xs ++ ys), x ≠ before head xs → (links' x).next = (links x).next)
    (hprev : ∀ x ∈ head :: (xs ++ ys), x ≠ after head ys → (links' x).prev = (links x).prev) :
    (head :: xs).IsChain (Linked links') ∧ (ys ++ [head]).IsChain (Linked links') := by
  rcases chain_cut.mp h.1 with ⟨hfront, hback, _⟩
  constructor
  · refine chain_congr (fun x hx => ?_) (fun x hx => ?_) hfront
    · refine hnext x ?_ (fun heq => h.before_not_mem_dropLast (heq ▸ hx))
      exact List.mem_append_left ys ((List.dropLast_sublist _).subset hx)
    · rw [List.tail_cons] at hx
      refine hprev x ?_ (fun heq => h.after_not_mem (heq ▸ hx))
      exact List.mem_append_left ys (List.mem_cons_of_mem _ hx)
  · refine chain_congr (fun x hx => ?_) (fun x hx => ?_) hback
    · rw [List.dropLast_concat] at hx
      refine hnext x ?_ (fun heq => h.before_not_mem (heq ▸ hx))
      exact List.mem_append_right (head :: xs) hx
    · refine hprev x ?_ (fun heq => h.after_not_mem_tail (heq ▸ hx))
      have hmem := List.mem_of_mem_tail hx
      simp only [List.mem_append, List.mem_singleton] at hmem
      simp only [List.mem_cons, List.mem_append]
      tauto

end Cut

variable [DecidableEq α]

def setNext (links : Links α) (x y : α) : Links α :=
  Function.update links x { links x with next := some y }

def setPrev (links : Links α) (x y : α) : Links α :=
  Function.update links x { links x with prev := some y }

def initListHead (links : Links α) (list : α) : Links α :=
  setPrev (setNext links list list) list list

/-- `__list_add`. -/
def insertBetween (links : Links α) (new prev next : α) : Links α :=
  setNext (setPrev (setNext (setPrev links next new) new next) new prev) prev new

def listAdd (links : Links α) (new head : α) : Option (Links α) :=
  (links head).next.map (insertBetween links new head)

/-- `__list_del`. -/
def bridge (links : Links α) (prev next : α) : Links α :=
  setNext (setPrev links next prev) prev next

/-- `__list_del_entry`. -/
def listDelEntry (links : Links α) (entry : α) : Option (Links α) := do
  let prev ← (links entry).prev
  let next ← (links entry).next
  return bridge links prev next

def listDel (links : Links α) (entry : α) : Option (Links α) :=
  (listDelEntry links entry).map (fun links => Function.update links entry poisoned)

theorem insertBetween_next (links : Links α) {new prev : α} (next : α) (hprev : new ≠ prev)
    (x : α) :
    (insertBetween links new prev next x).next =
      if x = prev then some new else if x = new then some next else (links x).next := by
  simp only [insertBetween, setNext, setPrev, Function.update_apply]
  split_ifs <;> simp_all

theorem insertBetween_prev (links : Links α) {new next : α} (prev : α) (hnext : new ≠ next)
    (x : α) :
    (insertBetween links new prev next x).prev =
      if x = next then some new else if x = new then some prev else (links x).prev := by
  simp only [insertBetween, setNext, setPrev, Function.update_apply]
  split_ifs <;> simp_all

theorem bridge_next (links : Links α) (prev next x : α) :
    (bridge links prev next x).next = if x = prev then some next else (links x).next := by
  simp only [bridge, setNext, setPrev, Function.update_apply]
  split_ifs <;> simp_all

theorem bridge_prev (links : Links α) (prev next x : α) :
    (bridge links prev next x).prev = if x = next then some prev else (links x).prev := by
  simp only [bridge, setNext, setPrev, Function.update_apply]
  split_ifs <;> simp_all

section Edit

variable {links : Links α} {head x : α} {xs ys : List α}

theorem IsRing.listAdd_eq (h : IsRing links head (xs ++ ys)) (new : α) :
    listAdd links new (before head xs) =
      some (insertBetween links new (before head xs) (after head ys)) := by
  rw [listAdd, h.next_eq]
  rfl

theorem IsRing.inserted (h : IsRing links head (xs ++ ys))
    (hnew : x ∉ head :: (xs ++ ys)) :
    IsRing (insertBetween links x (before head xs) (after head ys)) head (xs ++ x :: ys) := by
  have hxb : x ≠ before head xs := fun heq => hnew (heq ▸ before_mem_ring head xs ys)
  have hxa : x ≠ after head ys := fun heq => hnew (heq ▸ after_mem_ring head xs ys)
  have hnext := insertBetween_next links (after head ys) hxb
  have hprev := insertBetween_prev links (before head xs) hxa
  have hold : ∀ y ∈ head :: (xs ++ ys), y ≠ x := fun y hy heq => hnew (heq ▸ hy)
  have hsides := h.sides (insertBetween links x (before head xs) (after head ys))
    (fun y hy hne => by rw [hnext, if_neg hne, if_neg (hold y hy)])
    (fun y hy hne => by rw [hprev, if_neg hne, if_neg (hold y hy)])
  rcases hsides with ⟨hfront, hback⟩
  refine ⟨chain_cut.mpr ⟨hfront, ?_, ?_⟩, ?_⟩
  · rcases exists_cons_after head ys with ⟨rest, hrest⟩
    rw [hrest] at hback
    rw [List.cons_append, hrest, List.isChain_cons_cons]
    refine ⟨⟨?_, ?_⟩, hback⟩
    · rw [hnext, if_neg hxb, if_pos rfl]
    · rw [hprev, if_pos rfl]
  · refine ⟨?_, ?_⟩
    · rw [hnext, if_pos rfl, after_cons]
    · rw [after_cons, hprev, if_neg hxa, if_pos rfl]
  · have hperm : (head :: (xs ++ x :: ys)).Perm (x :: head :: (xs ++ ys)) :=
      (List.perm_middle.cons head).trans (List.Perm.swap x head _)
    exact hperm.nodup_iff.mpr (List.nodup_cons.mpr ⟨hnew, h.2⟩)

theorem IsRing.listDelEntry_eq (h : IsRing links head (xs ++ x :: ys)) :
    listDelEntry links x = some (bridge links (before head xs) (after head ys)) := by
  simp [listDelEntry, h.prev_member, h.next_member]

theorem IsRing.unlinked (h : IsRing links head (xs ++ x :: ys)) :
    IsRing (bridge links (before head xs) (after head ys)) head (xs ++ ys) := by
  have hnext := bridge_next links (before head xs) (after head ys)
  have hprev := bridge_prev links (before head xs) (after head ys)
  have hfront : (head :: xs).IsChain (Linked links) := (chain_cut.mp h.1).1
  have hcut : IsRing links head ((xs ++ [x]) ++ ys) := by simpa using h
  have hback : (ys ++ [head]).IsChain (Linked links) := (chain_cut.mp hcut.1).2.1
  refine ⟨chain_cut.mpr ⟨?_, ?_, ?_, ?_⟩, h.nodup_remove.2⟩
  · refine chain_congr (fun y hy => ?_) (fun y hy => ?_) hfront
    · rw [hnext, if_neg]
      exact fun heq => h.before_not_mem_dropLast (heq ▸ hy)
    · rw [hprev, if_neg]
      exact fun heq => hcut.after_not_mem (heq ▸ List.mem_append_left _ hy)
  · refine chain_congr (fun y hy => ?_) (fun y hy => ?_) hback
    · rw [List.dropLast_concat] at hy
      rw [hnext, if_neg]
      exact fun heq => h.before_not_mem (heq ▸ List.mem_cons_of_mem _ hy)
    · rw [hprev, if_neg]
      exact fun heq => hcut.after_not_mem_tail (heq ▸ hy)
  · rw [hnext, if_pos rfl]
  · rw [hprev, if_pos rfl]

/-- The stale cell of an unlinked member still names both its neighbours. -/
theorem IsRing.relink (h : IsRing links head (xs ++ x :: ys)) :
    insertBetween (bridge links (before head xs) (after head ys)) x
      (before head xs) (after head ys) = links := by
  have hx := h.nodup_remove.1
  have hxb : x ≠ before head xs := fun heq => hx (heq ▸ before_mem_ring head xs ys)
  have hxa : x ≠ after head ys := fun heq => hx (heq ▸ after_mem_ring head xs ys)
  have hleft : Linked links (before head xs) x := h.cut
  have hright : Linked links x (after head ys) := by
    have hcut : IsRing links head ((xs ++ [x]) ++ ys) := by simpa using h
    simpa using hcut.cut
  have hcell : ∀ y, (insertBetween (bridge links (before head xs) (after head ys)) x
      (before head xs) (after head ys) y).next = (links y).next ∧
      (insertBetween (bridge links (before head xs) (after head ys)) x
      (before head xs) (after head ys) y).prev = (links y).prev := by
    intro y
    rw [insertBetween_next _ _ hxb, insertBetween_prev _ _ hxa, bridge_next, bridge_prev]
    constructor
    · split_ifs with h1 h2
      · rw [h1, hleft.1]
      · rw [h2, hright.1]
      · rfl
    · split_ifs with h1 h2
      · rw [h1, hright.2]
      · rw [h2, hleft.2]
      · rfl
  funext y
  rcases hcell y with ⟨hn, hp⟩
  cases hy : links y
  cases hy' : insertBetween (bridge links (before head xs) (after head ys)) x
      (before head xs) (after head ys) y
  simp_all

theorem IsRing.update_other {cell : ListHead α} (h : IsRing links head xs)
    (hx : x ∉ head :: xs) : IsRing (Function.update links x cell) head xs := by
  have hother : ∀ y ∈ head :: xs ++ [head], Function.update links x cell y = links y := by
    intro y hy
    refine Function.update_of_ne (fun heq => hx ?_) _ _
    simp only [List.mem_append, List.mem_singleton] at hy
    rcases hy with hy | hy
    · exact heq ▸ hy
    · rw [← heq, hy]
      exact List.mem_cons_self
  refine ⟨chain_congr (fun y hy => ?_) (fun y hy => ?_) h.1, h.2⟩
  · rw [hother y ((List.dropLast_sublist _).subset hy)]
  · rw [hother y (List.mem_of_mem_tail hy)]

theorem IsRing.deleted (h : IsRing links head (xs ++ x :: ys)) :
    listDel links x =
        some (Function.update (bridge links (before head xs) (after head ys)) x poisoned) ∧
      IsRing (Function.update (bridge links (before head xs) (after head ys)) x poisoned)
        head (xs ++ ys) := by
  refine ⟨?_, h.unlinked.update_other h.nodup_remove.1⟩
  rw [listDel, h.listDelEntry_eq]
  rfl

theorem isRing_initListHead : IsRing (initListHead links head) head [] := by
  refine ⟨?_, List.nodup_singleton head⟩
  simp [initListHead, setNext, setPrev, Linked]

end Edit

end Ring
