/-
What comes before what in a list that grows at its end. One writer's additions may come between
what another one saw and what it adds.
-/
import Mathlib.Data.List.Basic

namespace Lists

variable {α : Type} {P Q : α → Prop} {a b c l l' : List α}

/-- Before every `Q` of the list there is a `P`. -/
def Precedes (P Q : α → Prop) (l : List α) : Prop :=
  ∀ (i : Nat) e, l[i]? = some e → Q e → ∃ j < i, ∃ e', l[j]? = some e' ∧ P e'

/-- Additions to a list that has a `P`, or none of which is a `Q`. -/
theorem Precedes.append (h : Precedes P Q l) (hl : (∃ e ∈ l, P e) ∨ ∀ e ∈ l', ¬Q e) : Precedes P Q (l ++ l') := by
  intro i e hi hq
  by_cases hlt : i < l.length
  · rw [List.getElem?_append_left hlt] at hi
    obtain ⟨j, hj, e', he', hp⟩ := h i e hi hq
    exact ⟨j, hj, e', by rw [List.getElem?_append_left (by omega)]; exact he', hp⟩
  · rw [List.getElem?_append_right (by omega)] at hi
    rcases hl with ⟨e', he', hp⟩ | hl
    · obtain ⟨j, hj, rfl⟩ := List.mem_iff_getElem.1 he'
      exact ⟨j, by omega, l[j], by rw [List.getElem?_append_left hj, List.getElem?_eq_getElem hj], hp⟩
    · exact absurd hq (hl e (List.mem_of_getElem? hi))

/-- Two writers that both saw `a`: the additions of one, then those of the other. -/
theorem Precedes.insert (hb : Precedes P Q (a ++ b)) (hc : Precedes P Q (a ++ c)) : Precedes P Q (a ++ b ++ c) := by
  intro i e hi hq
  by_cases hlt : i < (a ++ b).length
  · rw [List.getElem?_append_left hlt] at hi
    obtain ⟨j, hj, e', he', hp⟩ := hb i e hi hq
    exact ⟨j, hj, e', by rw [List.getElem?_append_left (by omega)]; exact he', hp⟩
  · rw [List.getElem?_append_right (by omega)] at hi
    -- the element of `c`, and what comes before it, in the list the other writer saw
    have hlen : (a ++ b).length = a.length + b.length := List.length_append
    have hi' : (a ++ c)[a.length + (i - (a ++ b).length)]? = some e := by
      rw [List.getElem?_append_right (by omega), Nat.add_sub_cancel_left]; exact hi
    obtain ⟨j, hj, e', he', hp⟩ := hc _ e hi' hq
    by_cases hja : j < a.length
    · refine ⟨j, by omega, e', ?_, hp⟩
      rw [List.getElem?_append_left hja] at he'
      rw [List.append_assoc, List.getElem?_append_left hja]; exact he'
    · refine ⟨j + b.length, by omega, e', ?_, hp⟩
      rw [List.getElem?_append_right (by omega)] at he'
      rw [List.getElem?_append_right (by omega), show j + b.length - (a ++ b).length = j - a.length by omega]; exact he'

end Lists
