/-
Greedy grouping: a list is cut into consecutive groups, and a group is closed when the next element
no longer fits. Where the cuts fall depends only on the elements of the group that is open.
-/
import Mathlib.Data.List.Basic
import Mathlib.Data.List.Pairwise

namespace Greedy

variable {α β : Type} (full : List α → α → Bool)

/-! ## Groups -/

/-- An element goes to the pending group, unless that group is full for it. -/
def groups : List α → List α → List (List α)
  | [], [] => []
  | p :: ps, [] => [p :: ps]
  | [], a :: as => groups [a] as
  | p :: ps, a :: as => if full (p :: ps) a then (p :: ps) :: groups [a] as else groups (p :: ps ++ [a]) as

/-- The group that is pending after the elements of a list. -/
def pending : List α → List α → List α
  | ps, [] => ps
  | [], a :: as => pending [a] as
  | p :: ps, a :: as => if full (p :: ps) a then pending [a] as else pending (p :: ps ++ [a]) as

/-- A group starts at the end of a first list: one of the two lists is empty, or the pending group
has no room for the next element. -/
def cuts (as bs : List α) : Bool :=
  match pending full [] as, bs with
  | [], _ => true
  | _, [] => true
  | p :: ps, b :: _ => full (p :: ps) b

@[simp] theorem cuts_nil (as : List α) : cuts full as [] = true := by
  unfold cuts
  cases pending full [] as <;> rfl

@[simp] theorem groups_nil_cons (a : α) (as : List α) : groups full [] (a :: as) = groups full [a] as := by
  rw [groups]

theorem flatten_groups (ps as : List α) : (groups full ps as).flatten = ps ++ as := by
  fun_induction groups full ps as with
  | case1 => rfl
  | case2 p ps => simp
  | case3 a as ih => simp [ih]
  | case4 p ps a as h ih => simp [ih]
  | case5 p ps a as h ih =>
    rw [ih]
    simp

theorem ne_nil_of_mem_groups {ps as g : List α} (h : g ∈ groups full ps as) : g ≠ [] := by
  fun_induction groups full ps as with
  | case1 => cases h
  | case2 p ps =>
    obtain rfl := List.mem_singleton.1 h
    exact List.cons_ne_nil _ _
  | case3 a as ih => exact ih h
  | case4 p ps a as hf ih =>
    rcases List.mem_cons.1 h with rfl | h
    · exact List.cons_ne_nil _ _
    · exact ih h
  | case5 p ps a as hf ih => exact ih h

/-- A group that is full from `n` elements on has no more than `n`. -/
theorem length_le_of_mem_groups {n : Nat} (hn : 1 ≤ n) (hfull : ∀ (g : List α) a, n ≤ g.length → full g a)
    {ps as g : List α} (hps : ps.length ≤ n) (h : g ∈ groups full ps as) : g.length ≤ n := by
  fun_induction groups full ps as with
  | case1 => cases h
  | case2 p ps =>
    obtain rfl := List.mem_singleton.1 h
    exact hps
  | case3 a as ih => exact ih (by simpa using hn) h
  | case4 p ps a as hf ih =>
    rcases List.mem_cons.1 h with rfl | h
    · exact hps
    · exact ih (by simpa using hn) h
  | case5 p ps a as hf ih =>
    refine ih ?_ h
    have hlt : ¬ n ≤ (p :: ps).length := fun hle => hf (hfull _ _ hle)
    simp only [List.length_append, List.length_cons, List.length_nil] at hlt ⊢
    omega

/-- What an element may be added to unless the group is full for it holds of every group that has more
than one element. -/
theorem of_mem_groups {P : List α → Prop} (hstep : ∀ (g : List α) a, g ≠ [] → ¬ full g a → P (g ++ [a]))
    {ps as g : List α} (hps : ps.length ≤ 1 ∨ P ps) (h : g ∈ groups full ps as) : g.length = 1 ∨ P g := by
  fun_induction groups full ps as with
  | case1 => cases h
  | case2 p ps =>
    obtain rfl := List.mem_singleton.1 h
    rcases hps with hp | hp
    · left
      simpa using hp
    · exact .inr hp
  | case3 a as ih => exact ih (.inl (by simp)) h
  | case4 p ps a as hf ih =>
    rcases List.mem_cons.1 h with rfl | h
    · rcases hps with hp | hp
      · left
        simpa using hp
      · exact .inr hp
    · exact ih (.inl (by simp)) h
  | case5 p ps a as hf ih => exact ih (.inr (hstep _ a (List.cons_ne_nil p ps) hf)) h

/-- Groups made of two lists one after the other: those the first list closes, then those that start
from its pending group. -/
theorem groups_append (ps as : List α) :
    ∃ closed, (∀ bs, groups full ps (as ++ bs) = closed ++ groups full (pending full ps as) bs) ∧
      closed.flatten ++ pending full ps as = ps ++ as := by
  fun_induction pending full ps as with
  | case1 ps => exact ⟨[], fun _ => rfl, by simp⟩
  | case2 a as ih =>
    obtain ⟨closed, hg, hf⟩ := ih
    exact ⟨closed, fun bs => by simpa using hg bs, by simpa using hf⟩
  | case3 p ps a as h ih =>
    obtain ⟨closed, hg, hf⟩ := ih
    refine ⟨(p :: ps) :: closed, fun bs => ?_, ?_⟩
    · rw [List.cons_append, groups, if_pos h, hg]
      rfl
    · simpa using hf
  | case4 p ps a as h ih =>
    obtain ⟨closed, hg, hf⟩ := ih
    refine ⟨closed, fun bs => ?_, ?_⟩
    · rw [List.cons_append, groups, if_neg h, hg]
    · rw [hf]
      simp

/-- A pending group takes the elements it has room for. -/
theorem groups_pending (ps bs : List α) (h : ps ≠ []) :
    ∃ more rest, groups full ps bs = (ps ++ more) :: rest := by
  fun_induction groups full ps bs with
  | case1 => exact absurd rfl h
  | case2 p ps => exact ⟨[], [], by simp⟩
  | case3 b bs ih => exact absurd rfl h
  | case4 p ps b bs hf ih => exact ⟨[], groups full [b] bs, by simp⟩
  | case5 p ps b bs hf ih =>
    obtain ⟨more, rest, hg⟩ := ih (by simp)
    exact ⟨b :: more, rest, by rw [hg]; simp⟩

/-- Where a group starts at the end of a first list, that list is grouped on its own. -/
theorem groups_of_cuts {as bs : List α} (h : cuts full as bs) :
    groups full [] (as ++ bs) = groups full [] as ++ groups full [] bs := by
  obtain ⟨closed, hg, -⟩ := groups_append full [] as
  have ha := hg []
  rw [List.append_nil] at ha
  rw [hg, ha]
  unfold cuts at h
  split at h
  · rename_i h₀
    rw [h₀]
    simp [groups]
  · simp [groups]
  · rename_i p ps b bs h₀
    rw [h₀]
    simp [groups, h]

/-! ## The groups that start in a first list -/

/-- The groups whose first element satisfies `q`. -/
def starting (q : α → Bool) (gs : List (List α)) : List (List α) := gs.filter fun g => g.head?.any q

variable {full} {q : α → Bool} {as bs : List α}

theorem starting_of_forall {gs : List (List α)} (hne : ∀ g ∈ gs, g ≠ []) (hq : ∀ a ∈ gs.flatten, q a) :
    starting q gs = gs := by
  refine List.filter_eq_self.2 fun g hg => ?_
  obtain ⟨a, g', rfl⟩ := List.exists_cons_of_ne_nil (hne g hg)
  exact hq a (List.mem_flatten.2 ⟨_, hg, List.mem_cons_self⟩)

theorem starting_of_forall_not {gs : List (List α)} (hq : ∀ a ∈ gs.flatten, ¬ q a) : starting q gs = [] := by
  refine List.filter_eq_nil_iff.2 fun g hg => ?_
  cases g with
  | nil => simp
  | cons a g' => exact hq a (List.mem_flatten.2 ⟨_, hg, List.mem_cons_self⟩)

/-- Where a group starts at the end of the elements that satisfy `q`, the groups that start with one
of these hold no other element. -/
theorem starting_groups_of_cuts (ha : ∀ a ∈ as, q a) (hb : ∀ b ∈ bs, ¬ q b) (h : cuts full as bs) :
    starting q (groups full [] (as ++ bs)) = groups full [] as := by
  rw [groups_of_cuts full h]
  unfold starting
  rw [List.filter_append]
  have h₁ : starting q (groups full [] as) = groups full [] as :=
    starting_of_forall (fun g hg => ne_nil_of_mem_groups full hg) (by rwa [flatten_groups])
  have h₂ : starting q (groups full [] bs) = [] := starting_of_forall_not (by rwa [flatten_groups])
  unfold starting at h₁ h₂
  rw [h₁, h₂, List.append_nil]

/-- Where none does, they hold more than these elements. -/
theorem length_starting_groups (ha : ∀ a ∈ as, q a) (h : ¬ cuts full as bs) :
    as.length < (starting q (groups full [] (as ++ bs))).flatten.length := by
  unfold cuts at h
  split at h
  · exact absurd rfl h
  · exact absurd rfl h
  · rename_i p ps b bs h₀
    obtain ⟨closed, hg, hf⟩ := groups_append full [] as
    -- The pending group takes the element after `as` too.
    obtain ⟨more, rest, hr⟩ := groups_pending full (p :: ps ++ [b]) bs (by simp)
    have hc : starting q closed = closed := by
      refine starting_of_forall (fun g hgc => ?_) (fun a hac => ?_)
      · exact ne_nil_of_mem_groups full (by rw [hg []]; exact List.mem_append_left _ hgc)
      · exact ha a (by rw [← List.nil_append as, ← hf]; exact List.mem_append_left _ hac)
    have hp : q p := ha p (by rw [← List.nil_append as, ← hf, h₀]; simp)
    have hlen := congrArg List.length hf
    unfold starting at hc ⊢
    rw [hg, h₀, groups, if_neg h, hr, List.filter_append, hc, List.filter_cons, if_pos (by simpa using hp)]
    rw [h₀] at hlen
    simp only [List.length_append, List.length_cons, List.length_nil, List.flatten_append,
      List.flatten_cons] at hlen ⊢
    omega

end Greedy
