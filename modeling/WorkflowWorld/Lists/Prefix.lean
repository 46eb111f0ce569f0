/-
Facts on lists: enough non-empty parts give a prefix of their concatenation, empty ones can be left
out, and sorting commutes with filtering where no two elements have the same key.
-/
import Mathlib.Data.List.Sort

namespace Lists

variable {α β : Type}

/-- Enough non-empty parts give a prefix of their concatenation. -/
theorem take_flatMap_take (f : α → List β) (l : List α) (h : ∀ x ∈ l, f x ≠ []) {n k : Nat} (hn : n ≤ k) :
    ((l.take k).flatMap f).take n = (l.flatMap f).take n := by
  induction l generalizing n k with
  | nil => simp
  | cons x xs ih =>
    cases k with
    | zero =>
      obtain rfl := Nat.le_zero.1 hn
      simp
    | succ k =>
      have hx : 0 < (f x).length := List.length_pos_of_ne_nil (h x List.mem_cons_self)
      rw [List.take_succ_cons, List.flatMap_cons, List.flatMap_cons, List.take_append, List.take_append,
        ih (fun y hy => h y (List.mem_cons_of_mem _ hy)) (by omega)]

/-- Empty parts can be left out. -/
theorem flatMap_filter_of_nil {f : α → List β} {p : α → Bool} {l : List α} (h : ∀ x ∈ l, ¬ p x → f x = []) :
    (l.filter p).flatMap f = l.flatMap f := by
  induction l with
  | nil => rfl
  | cons x xs ih =>
    have ih := ih fun y hy => h y (List.mem_cons_of_mem _ hy)
    by_cases hx : p x
    · rw [List.filter_cons_of_pos hx, List.flatMap_cons, List.flatMap_cons, ih]
    · rw [List.filter_cons_of_neg hx, List.flatMap_cons, h x List.mem_cons_self hx, ih, List.nil_append]

/-- Rows with different keys are sorted in one way only. -/
theorem insertionSort_filter {r : α → α → Prop} [DecidableRel r] [Std.Total r] [IsTrans α r] (p : α → Bool)
    (l : List α) (h : ∀ a ∈ l, ∀ b ∈ l, r a b → r b a → a = b) :
    (l.filter p).insertionSort r = (l.insertionSort r).filter p := by
  refine List.Perm.eq_of_pairwise ?_ (List.pairwise_insertionSort r _)
    ((List.pairwise_insertionSort r l).filter p) ?_
  · intro a b ha hb
    rw [List.mem_insertionSort] at ha
    have hb' := (List.mem_insertionSort r).1 (List.mem_of_mem_filter hb)
    exact h a (List.mem_of_mem_filter ha) b hb'
  · exact (List.perm_insertionSort r _).trans ((List.perm_insertionSort r l).filter p).symm

end Lists
