/-
The elements of a list in the order in which they are first seen, and the groups of a fixed size that they
fill one after the other.
-/
import Mathlib.Data.List.Nodup
import Mathlib.Data.List.Dedup
import Mathlib.Data.Finset.Card
import Mathlib.Data.List.Induction
import Mathlib.Order.Interval.Finset.Nat

namespace Lists

variable {α : Type} [BEq α] [LawfulBEq α]

/-- The elements, each once, in the order in which they are first seen. -/
def firstSeen (l : List α) : List α := l.foldl (fun seen a => if a ∈ seen then seen else seen ++ [a]) []

section FirstSeen

variable {l : List α} {a b : α}

theorem firstSeen_concat (l : List α) (a : α) :
    firstSeen (l ++ [a]) = if a ∈ firstSeen l then firstSeen l else firstSeen l ++ [a] := by
  rw [firstSeen, List.foldl_append]
  rfl

theorem mem_firstSeen : a ∈ firstSeen l ↔ a ∈ l := by
  induction l using List.reverseRecOn with
  | nil => rfl
  | append_singleton l x ih =>
    rw [firstSeen_concat, List.mem_append, List.mem_singleton, ← ih]
    split
    · rename_i hx
      exact ⟨.inl, fun h => h.elim (fun h => h) fun h => h ▸ hx⟩
    · rw [List.mem_append, List.mem_singleton]

theorem nodup_firstSeen (l : List α) : (firstSeen l).Nodup := by
  induction l using List.reverseRecOn with
  | nil => exact List.nodup_nil
  | append_singleton l x ih =>
    rw [firstSeen_concat]
    split
    · exact ih
    · rename_i hx
      exact List.nodup_append.2 ⟨ih, List.pairwise_singleton _ _, fun y hy z hz => by
        rw [List.mem_singleton.1 hz]
        rintro rfl
        exact hx hy⟩

theorem length_firstSeen [DecidableEq α] (l : List α) : (firstSeen l).length = l.dedup.length := by
  refine List.Perm.length_eq ((List.perm_ext_iff_of_nodup (nodup_firstSeen l) (List.nodup_dedup l)).2 fun a => ?_)
  rw [mem_firstSeen, List.mem_dedup]

/-- The order is that of the first occurrences. -/
theorem idxOf_firstSeen_lt (ha : a ∈ l) (hb : b ∈ l) : (firstSeen l).idxOf a < (firstSeen l).idxOf b ↔ l.idxOf a < l.idxOf b := by
  induction l using List.reverseRecOn with
  | nil => cases ha
  | append_singleton l x ih =>
    have hkeep : ∀ c ∈ l, (firstSeen (l ++ [x])).idxOf c = (firstSeen l).idxOf c := by
      intro c hc
      rw [firstSeen_concat]
      split
      · rfl
      · exact List.idxOf_append_of_mem (mem_firstSeen.2 hc)
    have hnew : ∀ c ∉ l, c = x → (firstSeen (l ++ [x])).idxOf c = (firstSeen l).length ∧ (l ++ [x]).idxOf c = l.length := by
      rintro c hc rfl
      have hc' : c ∉ firstSeen l := fun h => hc (mem_firstSeen.1 h)
      rw [firstSeen_concat, if_neg hc', List.idxOf_append_of_notMem hc', List.idxOf_append_of_notMem hc, List.idxOf_cons_self]
      exact ⟨rfl, rfl⟩
    have hlt : ∀ c ∈ l, (firstSeen l).idxOf c < (firstSeen l).length ∧ l.idxOf c < l.length := fun c hc =>
      ⟨List.idxOf_lt_length_iff.2 (mem_firstSeen.2 hc), List.idxOf_lt_length_iff.2 hc⟩
    rw [List.mem_append, List.mem_singleton] at ha hb
    by_cases hal : a ∈ l
    · rw [hkeep a hal, List.idxOf_append_of_mem hal]
      by_cases hbl : b ∈ l
      · rw [hkeep b hbl, List.idxOf_append_of_mem hbl]
        exact ih hal hbl
      · obtain ⟨h1, h2⟩ := hnew b hbl (hb.resolve_left hbl)
        rw [h1, h2]
        exact iff_of_true (hlt a hal).1 (hlt a hal).2
    · obtain ⟨h1, h2⟩ := hnew a hal (ha.resolve_left hal)
      rw [h1, h2]
      by_cases hbl : b ∈ l
      · rw [hkeep b hbl, List.idxOf_append_of_mem hbl]
        exact iff_of_false (hlt b hbl).1.not_gt (hlt b hbl).2.not_gt
      · obtain ⟨h3, h4⟩ := hnew b hbl (hb.resolve_left hbl)
        rw [h3, h4]
        exact iff_of_false (lt_irrefl _) (lt_irrefl _)

end FirstSeen

/-! ## Groups of a fixed size -/

section Groups

variable {D : List α} {k w : Nat}

/-- The groups that have an element are the first ones. -/
theorem exists_mem_group (hk : 0 < k) : (∃ a ∈ D, D.idxOf a / k = w) → w < (D.length + k - 1) / k := by
  rintro ⟨a, ha, rfl⟩
  have hlt := List.idxOf_lt_length_iff.2 ha
  have hnext : D.idxOf a / k + 1 = (D.idxOf a + k) / k := (Nat.add_div_right _ hk).symm
  have hle : (D.idxOf a + k) / k ≤ (D.length + k - 1) / k := Nat.div_le_div_right (by omega)
  omega

theorem exists_of_lt_groups (hD : D.Nodup) (hk : 0 < k) (hw : w < (D.length + k - 1) / k) : ∃ a ∈ D, D.idxOf a / k = w := by
  have hle := (Nat.le_div_iff_mul_le hk).1 (Nat.succ_le_of_lt hw)
  rw [Nat.succ_mul] at hle
  have hlt : w * k < D.length := by omega
  exact ⟨D[w * k], List.getElem_mem hlt, by rw [hD.idxOf_getElem]; exact Nat.mul_div_cancel w hk⟩

variable [DecidableEq α]

/-- The elements of the `w`th group of `k`. -/
def group (D : List α) (k w : Nat) : Finset α := D.toFinset.filter fun a => D.idxOf a / k = w

omit [LawfulBEq α] in
theorem mem_group {a : α} : a ∈ group D k w ↔ a ∈ D ∧ D.idxOf a / k = w := by
  unfold group; rw [Finset.mem_filter, List.mem_toFinset]

/-- The group's positions. -/
theorem card_group (hD : D.Nodup) (k w : Nat) : (group D k w).card = ((Finset.range D.length).filter fun i => i / k = w).card := by
  refine Finset.card_bij (fun a _ => D.idxOf a) (fun a ha => ?_) (fun a ha b hb h => ?_) fun i hi => ?_
  · obtain ⟨hin, hw⟩ := mem_group.1 ha
    exact Finset.mem_filter.2 ⟨Finset.mem_range.2 (List.idxOf_lt_length_iff.2 hin), hw⟩
  · exact (List.idxOf_inj (mem_group.1 ha).1).1 h
  · obtain ⟨hlt, hw⟩ := Finset.mem_filter.1 hi
    rw [Finset.mem_range] at hlt
    have hidx := hD.idxOf_getElem i hlt
    exact ⟨D[i], mem_group.2 ⟨List.getElem_mem hlt, by rw [hidx]; exact hw⟩, hidx⟩

theorem card_group_le (hD : D.Nodup) (hk : 0 < k) : (group D k w).card ≤ k := by
  rw [card_group hD]
  refine (Finset.card_le_card fun i hi => ?_).trans (b := (Finset.Ico (w * k) (w * k + k)).card) (by simp)
  obtain ⟨-, hw⟩ := Finset.mem_filter.1 hi
  obtain ⟨h1, h2⟩ := (Nat.div_eq_iff hk).1 hw
  exact Finset.mem_Ico.2 ⟨by omega, by omega⟩

/-- A group that others follow is full. -/
theorem card_group_full (hD : D.Nodup) (hk : 0 < k) (hlen : w * k + k ≤ D.length) : (group D k w).card = k := by
  refine le_antisymm (card_group_le hD hk) ?_
  rw [card_group hD]
  refine le_trans (by simp) (Finset.card_le_card (s := Finset.Ico (w * k) (w * k + k)) fun i hi => ?_)
  obtain ⟨h1, h2⟩ := Finset.mem_Ico.1 hi
  refine Finset.mem_filter.2 ⟨Finset.mem_range.2 (by omega), (Nat.div_eq_iff hk).2 ⟨by omega, by omega⟩⟩

end Groups

end Lists
