import Mathlib

/-! Samples of a system, taken at the ticks of a clock.

The events of the system come with their times, which may go back. An event takes
effect at the first tick that has reached its time and the times of all events
before it. -/

namespace Sampling

variable {View : Type*} {tick : Nat → Int} {shows : Nat → View → Prop} {times : List Int}

/-- The ticks that have reached all times. -/
def reaching (tick : Nat → Int) (times : List Int) : Set Nat := {n | ∀ t ∈ times, t ≤ tick n}

/-- The number of events in front of the first that is later than the tick, or of
all events. -/
def eventsBefore (tick : Nat → Int) (times : List Int) (n : Nat) : Nat :=
  times.findIdx fun t => tick n < t

/-- Every sample shows the system after the events that its tick has reached. -/
def Sampled (tick : Nat → Int) (shows : Nat → View → Prop) (times : List Int)
    (samples : List View) : Prop :=
  ∀ n view, samples[n]? = some view → shows (eventsBefore tick times n) view

theorem eventsBefore_reaching {n : Nat} (h : n ∈ reaching tick times) :
    eventsBefore tick times n = times.length := by
  rw [eventsBefore, List.findIdx_eq_length]
  intro t ht
  simpa using h t ht

/-- A later event changes nothing for a tick that has not reached it. -/
theorem eventsBefore_concat {n : Nat} {t : Int} (h : n ∉ reaching tick (times ++ [t])) :
    eventsBefore tick (times ++ [t]) n = eventsBefore tick times n := by
  by_cases htimes : n ∈ reaching tick times
  · have hlate : tick n < t := by
      by_contra hreached
      apply h
      intro s hs
      rcases List.mem_append.mp hs with hs | hs
      · exact htimes s hs
      · rw [List.mem_singleton.mp hs]
        exact Int.not_lt.mp hreached
    have hall := eventsBefore_reaching htimes
    rw [eventsBefore] at hall
    rw [eventsBefore, eventsBefore, List.findIdx_append, hall, if_neg (Nat.lt_irrefl _),
      List.findIdx_cons, decide_eq_true hlate]
    exact Nat.zero_add _
  · simp only [reaching, Set.mem_ofPred_eq, not_forall, not_le] at htimes
    obtain ⟨s, hs, hlate⟩ := htimes
    rw [eventsBefore, List.findIdx_append,
      if_pos (List.findIdx_lt_length_of_exists ⟨s, hs, by simpa using hlate⟩)]
    rfl

theorem sampled_nil : Sampled tick shows [] [] := by
  intro n view h
  cases h

/-- No sample is due for the event yet. -/
theorem Sampled.event {samples : List View} (h : Sampled tick shows times samples) {t : Int}
    (hleast : IsLeast (reaching tick (times ++ [t])) samples.length) :
    Sampled tick shows (times ++ [t]) samples := by
  intro n view hview
  have hlt : n < samples.length := (List.getElem?_eq_some_iff.mp hview).1
  rw [eventsBefore_concat fun hreached => Nat.not_lt.mpr (hleast.2 hreached) hlt]
  exact h n view hview

section Monotone

variable (hmono : Monotone tick)

include hmono

theorem reaching_mono {n m : Nat} (hle : n ≤ m) (h : n ∈ reaching tick times) :
    m ∈ reaching tick times := fun t ht => le_trans (h t ht) (hmono hle)

/-- One view for a number of ticks that have reached all events so far. -/
theorem Sampled.hold {samples : List View} (h : Sampled tick shows times samples)
    (hreached : samples.length ∈ reaching tick times) {view : View}
    (hview : shows times.length view) (count : Nat) :
    Sampled tick shows times (samples ++ List.replicate count view) := by
  intro n view' hn
  rw [List.getElem?_append] at hn
  split at hn
  · exact h n view' hn
  · next hbehind =>
      have hlate := reaching_mono hmono (Nat.not_lt.mp hbehind) hreached
      rw [List.getElem?_replicate] at hn
      split at hn
      · cases hn
        rwa [eventsBefore_reaching hlate]
      · cases hn

omit hmono in
/-- A tick that is too early is no candidate. -/
theorem wait_succ {n m : Nat} {t : Int} (hlate : tick n < t)
    (hleast : IsLeast {k | n + 1 ≤ k ∧ t ≤ tick k} m) : IsLeast {k | n ≤ k ∧ t ≤ tick k} m := by
  refine ⟨⟨Nat.le_of_succ_le hleast.1.1, hleast.1.2⟩, ?_⟩
  rintro k ⟨hk, hreached⟩
  apply hleast.2
  refine ⟨lt_of_le_of_ne hk ?_, hreached⟩
  rintro rfl
  exact absurd hreached (Int.not_le.mpr hlate)

/-- Waiting for one more event from the first tick that reached the others. -/
theorem reaching_concat {n m : Nat} {t : Int} (hleast : IsLeast (reaching tick times) n)
    (hwait : IsLeast {k | n ≤ k ∧ t ≤ tick k} m) :
    IsLeast (reaching tick (times ++ [t])) m := by
  constructor
  · intro s hs
    rcases List.mem_append.mp hs with hs | hs
    · exact reaching_mono hmono hwait.1.1 hleast.1 s hs
    · rw [List.mem_singleton.mp hs]
      exact hwait.1.2
  · intro k hk
    apply hwait.2
    exact ⟨hleast.2 fun s hs => hk s (List.mem_append_left _ hs),
      hk t (List.mem_append_right _ (List.mem_singleton.mpr rfl))⟩

end Monotone

theorem reaching_nil : IsLeast (reaching tick []) 0 :=
  ⟨fun _ ht => (List.not_mem_nil ht).elim, fun _ _ => Nat.zero_le _⟩

end Sampling
