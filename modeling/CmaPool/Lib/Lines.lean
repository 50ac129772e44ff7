import Mathlib

/-! Lines on a stream of which more may still come.

A line ends with the one stop that it contains. What has been cut off a stream
does not change when more comes in. -/

namespace Lines

variable {α : Type*}

def IsLine (stop : α) (line : List α) : Prop := ∃ body, line = body ++ [stop] ∧ stop ∉ body

variable [DecidableEq α]

/-- The first line and what comes after it; `none` while the stop is missing. -/
def cutLine (stop : α) : List α → Option (List α × List α)
  | [] => none
  | c :: s => if c = stop then some ([c], s) else (cutLine stop s).map fun (l, r) => (c :: l, r)

variable {stop : α} {line s : List α}

theorem cutLine_line (h : IsLine stop line) (s : List α) :
    cutLine stop (line ++ s) = some (line, s) := by
  rcases h with ⟨body, rfl, hfree⟩
  induction body with
  | nil => exact if_pos rfl
  | cons c body ih =>
      have hne : c ≠ stop := fun heq => hfree (heq ▸ List.mem_cons_self)
      have hrest := ih fun hmem => hfree (List.mem_cons_of_mem c hmem)
      change (if c = stop then _ else (cutLine stop (body ++ [stop] ++ s)).map _) = _
      rw [if_neg hne, hrest]
      rfl

theorem cutLine_none (h : cutLine stop s = none) : stop ∉ s := by
  induction s with
  | nil => exact List.not_mem_nil
  | cons c s ih =>
      rw [cutLine] at h
      split at h
      · cases h
      · next hne =>
          have hrest := ih (Option.map_eq_none_iff.mp h)
          rintro (_ | ⟨_, hmem⟩)
          · exact hne rfl
          · exact hrest hmem

theorem cutLine_some {rest : List α} (h : cutLine stop s = some (line, rest)) :
    s = line ++ rest ∧ IsLine stop line := by
  induction s generalizing line with
  | nil => cases h
  | cons c s ih =>
      rw [cutLine] at h
      split at h
      · next heq =>
          cases h
          exact ⟨rfl, [], by rw [heq]; rfl, List.not_mem_nil⟩
      · next hne =>
          rcases Option.map_eq_some_iff.mp h with ⟨⟨l, r⟩, hcut, hcons⟩
          cases hcons
          obtain ⟨hsplit, body, hbody, hfree⟩ := ih hcut
          refine ⟨congrArg (c :: ·) hsplit, c :: body, congrArg (c :: ·) hbody, ?_⟩
          rintro (_ | ⟨_, hmem⟩)
          · exact hne rfl
          · exact hfree hmem

theorem cutLine_append {rest : List α} (h : cutLine stop s = some (line, rest)) (more : List α) :
    cutLine stop (s ++ more) = some (line, rest ++ more) := by
  obtain ⟨rfl, hline⟩ := cutLine_some h
  rw [List.append_assoc]
  exact cutLine_line hline _

/-- A line cut off the part that has come in is the first line of the stream. -/
theorem cutLine_first {first rest more t : List α} (hfirst : IsLine stop first)
    (hstream : s ++ t = first ++ more) (h : cutLine stop s = some (line, rest)) :
    line = first ∧ rest ++ t = more := by
  obtain ⟨rfl, hline⟩ := cutLine_some h
  have hcut := cutLine_line hline (rest ++ t)
  rw [← List.append_assoc, hstream, cutLine_line hfirst] at hcut
  cases hcut
  exact ⟨rfl, rfl⟩

end Lines
