/-
A bounded memory of the keys that came last: a key that comes again is the newest, and the oldest one makes
room. Such a memory knows a key exactly when fewer others than it has room for have come since.
-/
import Mathlib.Data.List.DropRight
import Mathlib.Data.List.Dedup

namespace Lists

variable {α : Type} [DecidableEq α]

/-- The newest key is last, and the oldest one makes room. -/
def touch (limit : Nat) (l : List α) (a : α) : List α :=
  let marked := l.filter (· ≠ a) ++ [a]
  if marked.length > limit then marked.tail else marked

/-- What is left in the memory of all that came. -/
def remembered (limit : Nat) (as : List α) : List α := as.foldl (touch limit) []

/-- The keys, in the order in which each came last. -/
def lastSeen (as : List α) : List α := as.foldl (fun l a => l.filter (· ≠ a) ++ [a]) []

section Recent

variable {limit : Nat} {as l r : List α} {a b : α}

theorem lastSeen_concat (as : List α) (a : α) : lastSeen (as ++ [a]) = (lastSeen as).filter (· ≠ a) ++ [a] := by
  rw [lastSeen, List.foldl_append]; rfl

theorem remembered_concat (limit : Nat) (as : List α) (a : α) : remembered limit (as ++ [a]) = touch limit (remembered limit as) a := by
  rw [remembered, List.foldl_append]; rfl

theorem mem_lastSeen : a ∈ lastSeen as ↔ a ∈ as := by
  induction as using List.reverseRecOn with
  | nil => rfl
  | append_singleton as x ih =>
    rw [lastSeen_concat, List.mem_append, List.mem_append, List.mem_filter, List.mem_singleton, ih]
    by_cases hax : a = x
    · simp [hax]
    · simp [hax]

theorem nodup_lastSeen (as : List α) : (lastSeen as).Nodup := by
  induction as using List.reverseRecOn with
  | nil => exact List.nodup_nil
  | append_singleton as x ih =>
    rw [lastSeen_concat]
    refine List.nodup_append.2 ⟨ih.filter _, List.nodup_singleton _, ?_⟩
    rintro y hy z hz rfl
    have hyx : y ≠ x := by simpa using (List.mem_filter.1 hy).2
    exact hyx (List.mem_singleton.1 hz)

theorem length_lastSeen (as : List α) : (lastSeen as).length = as.dedup.length := by
  refine List.Perm.length_eq ((List.perm_ext_iff_of_nodup (nodup_lastSeen as) (List.nodup_dedup as)).2 fun a => ?_)
  rw [mem_lastSeen, List.mem_dedup]

/-- What came later is at the end. -/
theorem lastSeen_append (l r : List α) : lastSeen (l ++ r) = (lastSeen l).filter (· ∉ r) ++ lastSeen r := by
  induction r using List.reverseRecOn with
  | nil => simp [lastSeen]
  | append_singleton r x ih =>
    rw [← List.append_assoc, lastSeen_concat, ih, lastSeen_concat, List.filter_append, List.filter_filter, List.append_assoc]
    congr 1
    refine List.filter_congr fun y _ => ?_
    simp only [List.mem_append, List.mem_singleton, not_or]
    by_cases hy : y = x <;> by_cases hr : y ∈ r <;> simp [hy, hr]

omit [DecidableEq α] in
theorem rtake_of_length_le (h : l.length ≤ limit) : l.rtake limit = l := by
  rw [List.rtake, Nat.sub_eq_zero_of_le h, List.drop_zero]

omit [DecidableEq α] in
theorem rtake_append (h : limit ≤ r.length) : (l ++ r).rtake limit = r.rtake limit := by
  rw [List.rtake, List.rtake, List.length_append, List.drop_append,
    List.drop_eq_nil_of_le (by omega), List.nil_append]
  congr 1
  omega

/-- An eviction takes the key that came last the longest ago. -/
theorem touch_rtake (hl : l.Nodup) (limit : Nat) (a : α) :
    touch (limit + 1) (l.rtake (limit + 1)) a = (l.filter (· ≠ a) ++ [a]).rtake (limit + 1) := by
  obtain ⟨front, hsplit⟩ : ∃ front, l = front ++ l.rtake (limit + 1) := ⟨l.take (l.length - (limit + 1)), (List.take_append_drop ..).symm⟩
  have hlen : (l.rtake (limit + 1)).length = min l.length (limit + 1) := by
    rw [List.rtake, List.length_drop]; omega
  generalize l.rtake (limit + 1) = back at hsplit hlen ⊢
  subst hsplit
  rw [List.length_append] at hlen
  have hdis := (List.nodup_append.1 hl).2.2
  have hback := (List.nodup_append.1 hl).2.1
  rw [List.rtake_concat_succ, List.filter_append]
  unfold touch
  by_cases ha : a ∈ back
  · -- nothing is evicted
    have hfront : front.filter (· ≠ a) = front :=
      List.filter_eq_self.2 fun y hy => by simpa using hdis y hy a ha
    have hcount : (back.filter (· ≠ a)).length + 1 = back.length := by
      have hpos := List.length_pos_of_mem ha
      have herase : back.filter (· ≠ a) = back.erase a := by
        rw [hback.erase_eq_filter]
        exact List.filter_congr fun y _ => by by_cases h : y = a <;> simp [h]
      rw [herase, List.length_erase_of_mem ha]
      omega
    have hsmall : ¬(back.filter (· ≠ a) ++ [a]).length > limit + 1 := by
      rw [List.length_append, List.length_singleton]; omega
    simp only [hsmall, if_false, hfront]
    congr 1
    by_cases hfull : back.length = limit + 1
    · rw [rtake_append (by omega), rtake_of_length_le (by omega)]
    · have hempty : front = [] := List.length_eq_zero_iff.1 (by omega)
      rw [hempty, List.nil_append, rtake_of_length_le (by omega)]
  · have hkeep : back.filter (· ≠ a) = back := List.filter_eq_self.2 fun y hy => by
      have hne : y ≠ a := fun h => ha (h ▸ hy)
      simpa using hne
    simp only [hkeep, List.length_append, List.length_singleton]
    by_cases hfull : back.length = limit + 1
    · -- the oldest key makes room
      rw [if_pos (by omega), rtake_append (by omega), List.tail_append_of_ne_nil (by rintro rfl; simp at hfull)]
      congr 1
      rw [List.rtake, show back.length - limit = 1 by omega, List.drop_one]
    · have hempty : front = [] := List.length_eq_zero_iff.1 (by omega)
      rw [if_neg (by omega), hempty]
      simp only [List.filter_nil, List.nil_append]
      rw [rtake_of_length_le (by omega)]

theorem remembered_eq (limit : Nat) (as : List α) : remembered (limit + 1) as = (lastSeen as).rtake (limit + 1) := by
  induction as using List.reverseRecOn with
  | nil => simp [remembered, lastSeen]
  | append_singleton as x ih => rw [remembered_concat, lastSeen_concat, ih, touch_rtake (nodup_lastSeen as)]

omit [DecidableEq α] in
theorem mem_rtake_cons (hr : a ∉ r) : a ∈ (l ++ a :: r).rtake limit ↔ r.length < limit := by
  rw [List.rtake, List.length_append, List.length_cons, List.drop_append]
  by_cases h : r.length < limit
  · rw [show l.length + (r.length + 1) - limit - l.length = 0 by omega]
    simp [h]
  · rw [List.drop_eq_nil_of_le (by omega), List.nil_append]
    obtain ⟨m, hm⟩ : ∃ m, l.length + (r.length + 1) - limit - l.length = m + 1 := ⟨r.length - limit, by omega⟩
    rw [hm, List.drop_succ_cons]
    exact iff_of_false (fun hmem => hr (List.mem_of_mem_drop hmem)) h

/-- The memory knows a key exactly when fewer others than it has room for have come since. -/
theorem mem_remembered (limit : Nat) : a ∈ remembered (limit + 1) as ↔ ∃ l r, as = l ++ a :: r ∧ a ∉ r ∧ r.dedup.length ≤ limit := by
  have hsplit : ∀ l r : List α, a ∉ r → (a ∈ remembered (limit + 1) (l ++ a :: r) ↔ r.dedup.length ≤ limit) := by
    intro l r hr
    rw [remembered_eq, show l ++ a :: r = (l ++ [a]) ++ r by simp, lastSeen_append, lastSeen_concat, List.filter_append,
      List.append_assoc, List.filter_cons_of_pos (by simpa using hr), List.filter_nil, List.singleton_append,
      mem_rtake_cons (by rwa [mem_lastSeen]), length_lastSeen, Nat.lt_succ_iff]
  constructor
  · intro h
    have hmem : a ∈ as.reverse := by
      rw [remembered_eq] at h
      rw [List.mem_reverse, ← mem_lastSeen]
      exact List.mem_of_mem_drop h
    obtain ⟨r, l, heq, hr⟩ := List.eq_append_cons_of_mem hmem
    have has : as = l.reverse ++ a :: r.reverse := by
      have := congrArg List.reverse heq
      simpa using this
    subst has
    exact ⟨_, _, rfl, by simpa using hr, (hsplit _ _ (by simpa using hr)).1 h⟩
  · rintro ⟨l, r, rfl, hr, hlen⟩
    exact (hsplit l r hr).2 hlen

end Recent

end Lists
