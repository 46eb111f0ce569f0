/-
Recursive queries: rows that a query finds, and then, round by round, those that it finds from the rows of the
round before and has not found yet. In a finite universe the rounds end with all that can be reached.
-/
import Mathlib.Logic.Relation
import Mathlib.Data.List.Dedup
import Mathlib.Data.List.Nodup

namespace Lists

variable {α : Type} [DecidableEq α]

/-- The rows of a round that are new. -/
def newRows (next : List α → List α) (found work : List α) : List α := (next work).dedup.filter fun a => a ∉ found

/-- The rounds, of which there are at most `fuel`. -/
def rounds (next : List α → List α) : Nat → List α → List α → List α
  | 0, found, _ => found
  | fuel + 1, found, work =>
    match newRows next found work with
    | [] => found
    | a :: new => rounds next fuel (found ++ a :: new) (a :: new)

/-- `with recursive ... union`. -/
def recursiveUnion (next : List α → List α) (fuel : Nat) (seeds : List α) : List α := rounds next fuel seeds.dedup seeds.dedup

section Recursive

variable {next : List α → List α} {found work seeds : List α} {R : α → α → Prop} {fuel : Nat} {a b : α}

theorem mem_newRows : a ∈ newRows next found work ↔ a ∈ next work ∧ a ∉ found := by
  unfold newRows
  rw [List.mem_filter, List.mem_dedup, decide_eq_true_eq]

theorem nodup_append_newRows (h : found.Nodup) : (found ++ newRows next found work).Nodup := by
  refine List.nodup_append.2 ⟨h, (List.nodup_dedup _).filter _, fun a ha b hb heq => ?_⟩
  rw [heq] at ha
  exact (mem_newRows.1 hb).2 ha

theorem nodup_rounds (h : found.Nodup) : (rounds next fuel found work).Nodup := by
  induction fuel generalizing found work with
  | zero => exact h
  | succ fuel ih =>
    rw [rounds]
    split
    · exact h
    · rename_i a new hnew
      rw [← hnew]
      exact ih (nodup_append_newRows h)

/-- Nothing is found that cannot be reached. -/
theorem rounds_sound {P : α → Prop} (hnext : ∀ w b, b ∈ next w → (∀ a ∈ w, P a) → P b) (hf : ∀ a ∈ found, P a)
    (hw : ∀ a ∈ work, P a) : ∀ a ∈ rounds next fuel found work, P a := by
  induction fuel generalizing found work with
  | zero => exact hf
  | succ fuel ih =>
    rw [rounds]
    split
    · exact hf
    · rename_i a new hnew
      have hn : ∀ a ∈ newRows next found work, P a := fun a ha => hnext work a (mem_newRows.1 ha).1 hw
      rw [← hnew]
      exact ih (fun a ha => (List.mem_append.1 ha).elim (hf a) (hn a)) hn

theorem rounds_mono (ha : a ∈ found) : a ∈ rounds next fuel found work := by
  induction fuel generalizing found work with
  | zero => exact ha
  | succ fuel ih =>
    rw [rounds]
    split
    · exact ha
    · exact ih (List.mem_append_left _ ha)

/-- With as many rounds as there are rows that may still be found, the rows found are closed. -/
theorem rounds_closed (hnext : ∀ w b, b ∈ next w ↔ ∃ a ∈ w, R a b) {U : List α} (hU : ∀ a ∈ U, ∀ b, R a b → b ∈ U)
    (hf : ∀ a ∈ found, a ∈ U) (hnd : found.Nodup) (hfuel : U.length < fuel + found.length) (hw : ∀ a ∈ work, a ∈ found)
    (hdone : ∀ a ∈ found, a ∉ work → ∀ b, R a b → b ∈ found) :
    ∀ a ∈ rounds next fuel found work, ∀ b, R a b → b ∈ rounds next fuel found work := by
  induction fuel generalizing found work with
  | zero =>
    have hle := hnd.length_le_of_subset hf
    omega
  | succ fuel ih =>
    rw [rounds]
    -- What a row of the last round leads to was found before, or is new.
    have hstep : ∀ a ∈ found, ∀ b, R a b → b ∈ found ++ newRows next found work := by
      intro a ha b hab
      by_cases hb : b ∈ found
      · exact List.mem_append_left _ hb
      by_cases haw : a ∈ work
      · exact List.mem_append_right _ (mem_newRows.2 ⟨(hnext work b).2 ⟨a, haw, hab⟩, hb⟩)
      · exact absurd (hdone a ha haw b hab) hb
    split
    · rename_i hnew
      rwa [hnew, List.append_nil] at hstep
    · rename_i a new hnew
      rw [hnew] at hstep
      have hnd' : (found ++ a :: new).Nodup := by
        rw [← hnew]
        exact nodup_append_newRows hnd
      have hin : ∀ b ∈ a :: new, b ∈ U := by
        intro b hb
        rw [← hnew] at hb
        obtain ⟨c, hc, hcb⟩ := (hnext work b).1 (mem_newRows.1 hb).1
        exact hU c (hf c (hw c hc)) b hcb
      refine ih (fun b hb => (List.mem_append.1 hb).elim (hf b) (hin b)) hnd' ?_ (fun b hb => List.mem_append_right _ hb) ?_
      · rw [List.length_append, List.length_cons]
        omega
      · intro b hb hnot
        exact hstep b ((List.mem_append.1 hb).resolve_right hnot)

/-- A recursive query finds what can be reached from the rows it begins with. -/
theorem mem_recursiveUnion (hnext : ∀ w b, b ∈ next w ↔ ∃ a ∈ w, R a b) {U : List α} (hU : ∀ a ∈ U, ∀ b, R a b → b ∈ U)
    (hseeds : ∀ a ∈ seeds, a ∈ U) (hfuel : U.length < fuel) :
    b ∈ recursiveUnion next fuel seeds ↔ ∃ a ∈ seeds, Relation.ReflTransGen R a b := by
  constructor
  · refine rounds_sound (P := fun b => ∃ a ∈ seeds, Relation.ReflTransGen R a b) (fun w b hb hw => ?_) (fun a ha => ?_) (fun a ha => ?_) b
    · obtain ⟨c, hc, hcb⟩ := (hnext w b).1 hb
      obtain ⟨a, ha, hac⟩ := hw c hc
      exact ⟨a, ha, hac.tail hcb⟩
    · exact ⟨a, List.mem_dedup.1 ha, .refl⟩
    · exact ⟨a, List.mem_dedup.1 ha, .refl⟩
  · rintro ⟨a, ha, hab⟩
    induction hab with
    | refl => exact rounds_mono (List.mem_dedup.2 ha)
    | tail _ hcb ih =>
      refine rounds_closed hnext hU (fun a ha => hseeds a (List.mem_dedup.1 ha)) (List.nodup_dedup seeds) (by omega)
        (fun a ha => ha) (fun a ha hno => absurd ha hno) _ ih _ hcb

theorem nodup_recursiveUnion : (recursiveUnion next fuel seeds).Nodup := nodup_rounds (List.nodup_dedup seeds)

end Recursive

end Lists
