/-
Maps that keep the order in which their keys were set, as lists of entries.
-/
import Mathlib.Data.List.Basic

namespace Lists

variable {κ ν : Type} [BEq κ]

/-- The map without a key. -/
def erase (k : κ) (m : List (κ × ν)) : List (κ × ν) := m.filter fun e => e.1 != k

/-- A key that is there keeps its place. -/
def set (k : κ) (v : ν) (m : List (κ × ν)) : List (κ × ν) :=
  if (m.lookup k).isSome then m.map fun e => if e.1 == k then (k, v) else e else m ++ [(k, v)]

section OrderedMap

variable [LawfulBEq κ] {k k' : κ} {v : ν} {m : List (κ × ν)} {e : κ × ν}

theorem mem_erase : e ∈ erase k m ↔ e ∈ m ∧ e.1 ≠ k := by
  unfold erase
  rw [List.mem_filter, bne_iff_ne]

theorem mem_of_lookup (h : m.lookup k = some v) : (k, v) ∈ m := by
  obtain ⟨l₁, l₂, rfl, -⟩ := List.lookup_eq_some_iff.1 h
  exact List.mem_append_right _ List.mem_cons_self

theorem lookup_erase_self : (erase k m).lookup k = none := by
  rw [List.lookup_eq_none_iff]
  intro e he
  exact bne_iff_ne.2 fun h => (mem_erase.1 he).2 h.symm

theorem lookup_erase_of_ne (h : k' ≠ k) : (erase k m).lookup k' = m.lookup k' := by
  induction m with
  | nil => rfl
  | cons e m ih =>
    unfold erase at ih ⊢
    by_cases he : e.1 = k
    · rw [List.filter_cons_of_neg (by simpa using he), ih, List.lookup_cons, beq_eq_false_iff_ne.2 (by rw [he]; exact h)]
    · rw [List.filter_cons_of_pos (by simpa using he), List.lookup_cons, List.lookup_cons, ih]

/-- A key that was erased is set at the end. -/
theorem set_erase : set k v (erase k m) = erase k m ++ [(k, v)] := by
  rw [set, lookup_erase_self]
  rfl

theorem lookup_set_erase_self : (set k v (erase k m)).lookup k = some v := by
  rw [set_erase, List.lookup_append, lookup_erase_self, Option.none_or, List.lookup_cons_self]

theorem lookup_set_erase_of_ne (h : k' ≠ k) : (set k v (erase k m)).lookup k' = m.lookup k' := by
  rw [set_erase, List.lookup_append, lookup_erase_of_ne h, List.lookup_cons, beq_eq_false_iff_ne.2 h]
  exact Option.or_none

theorem mem_set_erase : e ∈ set k v (erase k m) ↔ (e ∈ m ∧ e.1 ≠ k) ∨ e = (k, v) := by
  rw [set_erase, List.mem_append, mem_erase, List.mem_singleton]

end OrderedMap

end Lists
