import Mathlib

/-! Registries: at most one record for each key.

An action changes the record of one key. The same action under a renamed key
keeps the renamed registry in step as long as the renaming keeps the keys apart. -/

namespace Registry

variable {κ κ' β γ : Type*}

structure Action (κ β : Type*) where
  key : κ
  change : Option β → Option β

def Action.rename (f : κ → κ') (a : Action κ β) : Action κ' β := ⟨f a.key, a.change⟩

def apply [DecidableEq κ] (registry : κ → Option β) (a : Action κ β) : κ → Option β :=
  Function.update registry a.key (a.change (registry a.key))

section Apply

variable [DecidableEq κ] (registry : κ → Option β) (a : Action κ β)

theorem apply_key : apply registry a a.key = a.change (registry a.key) := Function.update_self ..

theorem apply_other {key : κ} (h : key ≠ a.key) : apply registry a key = registry key :=
  Function.update_of_ne h ..

theorem apply_id (key : κ) : apply registry ⟨key, id⟩ = registry := Function.update_eq_self ..

theorem eq_apply {registry' : κ → Option β}
    (hown : registry' a.key = a.change (registry a.key))
    (hother : ∀ key, key ≠ a.key → registry' key = registry key) :
    registry' = apply registry a := by
  funext key
  by_cases hkey : key = a.key
  · rw [hkey, hown, apply_key]
  · rw [hother key hkey, apply_other _ _ hkey]

end Apply

section Observe

/-- What `g` shows of the records. -/
def observe (g : β → γ) (registry : κ → Option β) (key : κ) : Option γ := (registry key).map g

/-- A change of records as `g` shows it. -/
def Observed (g : β → γ) (change : Option β → Option β) (shown : Option γ → Option γ) : Prop :=
  ∀ entry, (change entry).map g = shown (entry.map g)

theorem observe_id (registry : κ → Option β) : observe id registry = registry := by
  funext key
  rw [observe, Option.map_id, id]

theorem observed_id (change : Option β → Option β) : Observed id change change := by
  intro entry
  rw [Option.map_id, id, id]

theorem observe_none {g : β → γ} {registry : κ → Option β} {key : κ} :
    observe g registry key = none ↔ registry key = none := Option.map_eq_none_iff

theorem observe_apply [DecidableEq κ] {g : β → γ} {registry : κ → Option β} {a : Action κ β}
    {shown : Option γ → Option γ} (h : Observed g a.change shown) :
    observe g (apply registry a) = apply (observe g registry) ⟨a.key, shown⟩ := by
  apply eq_apply
  · rw [observe, apply_key]
    exact h _
  · intro key hne
    exact congrArg (Option.map g) (apply_other registry a hne)

end Observe

/-- The records of `renamed` are those of `registry`, each under its new key. -/
structure Renamed (f : κ → κ') (keys : Set κ) (registry : κ → Option β)
    (renamed : κ' → Option β) : Prop where
  record : ∀ key ∈ keys, renamed (f key) = registry key
  inside : ∀ key, key ∉ keys → registry key = none
  onto : ∀ key', key' ∉ f '' keys → renamed key' = none

variable {f : κ → κ'} {keys : Set κ} {registry : κ → Option β} {renamed : κ' → Option β}

theorem renamed_empty (f : κ → κ') (keys : Set κ) :
    Renamed f keys (fun _ => none) (fun _ => (none : Option β)) :=
  ⟨fun _ _ => rfl, fun _ _ => rfl, fun _ _ => rfl⟩

/-- Two keys that are both present have two records. -/
theorem Renamed.ne (h : Renamed f keys registry renamed) (hinj : Set.InjOn f keys) {key key' : κ}
    (hkey : registry key ≠ none) (hkey' : registry key' ≠ none) (hne : key ≠ key') :
    f key ≠ f key' := by
  intro heq
  apply hne
  apply hinj ?_ ?_ heq
  · by_contra hout
    exact hkey (h.inside key hout)
  · by_contra hout
    exact hkey' (h.inside key' hout)

theorem Renamed.apply [DecidableEq κ] [DecidableEq κ'] (h : Renamed f keys registry renamed)
    (hinj : Set.InjOn f keys) {a : Action κ β} (ha : a.key ∈ keys) :
    Renamed f keys (apply registry a) (apply renamed (a.rename f)) where
  record := by
    intro key hkey
    by_cases heq : key = a.key
    · subst heq
      rw [apply_key registry a]
      calc
        Registry.apply renamed (a.rename f) (f a.key) = a.change (renamed (f a.key)) :=
          apply_key renamed (a.rename f)
        _ = a.change (registry a.key) := by rw [h.record _ ha]
    · have hne : f key ≠ (a.rename f).key := fun hsame => heq (hinj hkey ha hsame)
      rw [apply_other _ _ heq, apply_other _ _ hne]
      exact h.record key hkey
  inside := by
    intro key hkey
    have hne : key ≠ a.key := fun heq => hkey (heq ▸ ha)
    rw [apply_other _ _ hne]
    exact h.inside key hkey
  onto := by
    intro key' hkey'
    have hne : key' ≠ (a.rename f).key := fun heq => hkey' ⟨a.key, ha, heq.symm⟩
    rw [apply_other _ _ hne]
    exact h.onto key' hkey'

end Registry
