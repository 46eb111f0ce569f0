/-
Reading a list past a cursor, the key of the last element read. A list in the order of its keys is
read as it stands; of any other, a reader that goes one element at a time sees a proper part.
-/
import Mathlib.Data.List.Sort

namespace Lists

section Cursor

variable {α κ : Type} [LinearOrder κ] {key : α → κ}

/-- The element is past the cursor. -/
def beyond (key : α → κ) (c : Option κ) (x : α) : Bool := c.all fun k => decide (k < key x)

theorem beyond_trans {c : Option κ} {x y : α} (hx : beyond key c x) (hy : beyond key (some (key x)) y) :
    beyond key c y := by
  cases c with
  | none => rfl
  | some k =>
    simp only [beyond, Option.all_some, decide_eq_true_eq] at hx hy ⊢
    exact hx.trans hy

theorem not_beyond_self (x : α) : ¬ beyond key (some (key x)) x := by
  simp [beyond]

/-! ## One element at a time -/

/-- The elements that are past the cursor and past all the ones before them. -/
def records (key : α → κ) : Option κ → List α → List α
  | _, [] => []
  | c, x :: xs => if beyond key c x then x :: records key (some (key x)) xs else records key c xs

theorem records_sublist (c : Option κ) (l : List α) : (records key c l).Sublist l := by
  induction l generalizing c with
  | nil => exact .slnil
  | cons x xs ih =>
    rw [records]
    split
    · exact (ih _).cons_cons x
    · exact (ih c).cons x

theorem beyond_of_mem_records {c : Option κ} {l : List α} {y : α} (h : y ∈ records key c l) : beyond key c y := by
  induction l generalizing c with
  | nil => cases h
  | cons x xs ih =>
    rw [records] at h
    split at h
    · rename_i hx
      rcases List.mem_cons.1 h with rfl | h
      · exact hx
      · exact beyond_trans hx (ih h)
    · exact ih h

theorem pairwise_records (c : Option κ) (l : List α) : (records key c l).Pairwise fun x y => key x < key y := by
  induction l generalizing c with
  | nil => exact .nil
  | cons x xs ih =>
    rw [records]
    split
    · refine List.pairwise_cons.2 ⟨fun y hy => ?_, ih _⟩
      simpa [beyond] using beyond_of_mem_records hy
    · exact ih c

/-- Only a list in the order of its keys is read whole, one element at a time. -/
theorem pairwise_of_length_records {c : Option κ} {l : List α} (h : (records key c l).length = l.length) :
    l.Pairwise fun x y => key x < key y := by
  rw [← (records_sublist c l).eq_of_length h]
  exact pairwise_records c l

/-- The next element, and the ones past it. -/
theorem records_eq (c : Option κ) (l : List α) :
    records key c l = match l.filter (beyond key c) with
      | [] => []
      | x :: _ => x :: records key (some (key x)) l := by
  induction l generalizing c with
  | nil => rfl
  | cons y ys ih =>
    by_cases hy : beyond key c y
    · rw [List.filter_cons_of_pos hy]
      simp only [records, if_pos hy, if_neg (not_beyond_self y)]
    · rw [records, if_neg hy, List.filter_cons_of_neg hy, ih c]
      cases hf : ys.filter (beyond key c) with
      | nil => rfl
      | cons x xs =>
        have hx : beyond key c x := (List.mem_filter.1 (hf ▸ List.mem_cons_self)).2
        -- What the cursor has passed, the next element has passed.
        simp only [records, if_neg fun h => hy (beyond_trans hx h)]

/-! ## Page by page -/

/-- In a list in the order of its keys, the elements past the last one of a page are those that
follow it. -/
theorem filter_beyond_getLast {c : Option κ} {l : List α} (hl : l.Pairwise fun x y => key x < key y) {limit : Nat}
    {x : α} (hx : ((l.filter (beyond key c)).take limit).getLast? = some x) :
    l.filter (beyond key (some (key x))) = (l.filter (beyond key c)).drop limit := by
  set F := l.filter (beyond key c) with hF
  have hsplit : F.take limit ++ F.drop limit = F := List.take_append_drop limit F
  have hxc : beyond key c x := (List.mem_filter.1 (List.mem_of_mem_take (List.mem_of_getLast? hx))).2
  have hall : l.filter (beyond key (some (key x))) = F.filter (beyond key (some (key x))) := by
    rw [hF, List.filter_filter]
    refine List.filter_congr fun y _ => ?_
    by_cases hy : beyond key (some (key x)) y
    · simp [hy, beyond_trans hxc hy]
    · simp [hy]
  have hpw : (F.take limit ++ F.drop limit).Pairwise fun x y => key x < key y := by
    rw [hsplit]
    exact hl.filter _
  obtain ⟨front, hfront⟩ := List.getLast?_eq_some_iff.1 hx
  rw [hfront] at hpw
  obtain ⟨hpage, -, hrest⟩ := List.pairwise_append.1 hpw
  have hread : (front ++ [x]).filter (beyond key (some (key x))) = [] := by
    refine List.filter_eq_nil_iff.2 fun y hy => ?_
    rcases List.mem_append.1 hy with hy | hy
    · have hlt := (List.pairwise_append.1 hpage).2.2 y hy x (List.mem_singleton_self x)
      simpa [beyond] using le_of_lt hlt
    · rw [List.mem_singleton.1 hy]
      exact not_beyond_self x
  have hkeep : (F.drop limit).filter (beyond key (some (key x))) = F.drop limit := by
    refine List.filter_eq_self.2 fun y hy => ?_
    simpa [beyond] using hrest x (by simp) y hy
  rw [hall, ← hsplit, List.filter_append, hfront, hread, hkeep, List.nil_append, ← hfront, hsplit]

/-! ## Of a list that grows at its end -/

/-- A page that leaves something, and then all that is past its last element once the list has grown. -/
theorem take_append_filter_beyond {c : Option κ} {l l' : List α} (hl' : l'.Pairwise fun x y => key x < key y) (hg : l <+: l')
    {limit : Nat} (hmore : limit < (l.filter (beyond key c)).length) {x : α}
    (hx : ((l.filter (beyond key c)).take limit).getLast? = some x) :
    (l.filter (beyond key c)).take limit ++ l'.filter (beyond key (some (key x))) = l'.filter (beyond key c) := by
  obtain ⟨tail, rfl⟩ := hg
  have htake : ((l ++ tail).filter (beyond key c)).take limit = (l.filter (beyond key c)).take limit := by
    rw [List.filter_append, List.take_append_of_le_length (le_of_lt hmore)]
  rw [← htake] at hx ⊢
  rw [filter_beyond_getLast hl' hx, List.take_append_drop]

/-! ## From the end -/

/-- The element is before the cursor. -/
def preceding (key : α → κ) (c : Option κ) (x : α) : Bool := c.all fun k => decide (key x < k)

theorem preceding_eq (c : Option κ) : preceding key c = beyond (fun x => OrderDual.toDual (key x)) (c.map OrderDual.toDual) := by
  funext x
  cases c <;> simp [preceding, beyond]

theorem preceding_trans {c : Option κ} {x y : α} (hx : preceding key c x) (hy : preceding key (some (key x)) y) :
    preceding key c y := by
  rw [preceding_eq] at *
  exact beyond_trans hx hy

/-- The cursor of an element has fewer elements before it than one that the element precedes. -/
theorem countP_preceding_lt {c : Option κ} {l : List α} {p : α → Bool} {x : α} (hx : x ∈ l) (hp : p x) (hc : preceding key c x) :
    (l.countP fun y => p y && preceding key (some (key x)) y) < l.countP fun y => p y && preceding key c y := by
  obtain ⟨l₁, l₂, rfl⟩ := List.append_of_mem hx
  have hle : ∀ l' : List α, (l'.countP fun y => p y && preceding key (some (key x)) y) ≤ l'.countP fun y => p y && preceding key c y := by
    refine fun l' => List.countP_mono_left fun y _ h => ?_
    rw [Bool.and_eq_true] at h ⊢
    exact ⟨h.1, preceding_trans hc h.2⟩
  have hself : (p x && preceding key (some (key x)) x) = false := by simp [preceding]
  have hin : (p x && preceding key c x) = true := by rw [hp, hc]; rfl
  rw [List.countP_append, List.countP_append, List.countP_cons, List.countP_cons, hself, hin, if_neg Bool.false_ne_true, if_pos rfl]
  have h₁ := hle l₁
  have h₂ := hle l₂
  omega

/-- In a list in the order of its keys, read from its end, the elements before the last one of a page are
those that follow it. -/
theorem filter_preceding_getLast {c : Option κ} {l : List α} (hl : l.Pairwise fun x y => key x < key y) {limit : Nat}
    {x : α} (hx : ((l.reverse.filter (preceding key c)).take limit).getLast? = some x) :
    l.reverse.filter (preceding key (some (key x))) = (l.reverse.filter (preceding key c)).drop limit := by
  rw [preceding_eq] at hx ⊢
  rw [preceding_eq]
  have hrev : l.reverse.Pairwise fun x y => OrderDual.toDual (key x) < OrderDual.toDual (key y) := List.pairwise_reverse.2 hl
  exact filter_beyond_getLast hrev hx

/-- What was added lies past every element that was there. -/
theorem filter_preceding_of_grown {l l' : List α} (hl' : l'.Pairwise fun x y => key x < key y) (hg : l <+: l') {x : α}
    (hx : x ∈ l) : l'.reverse.filter (preceding key (some (key x))) = l.reverse.filter (preceding key (some (key x))) := by
  obtain ⟨tail, rfl⟩ := hg
  have hnone : tail.reverse.filter (preceding key (some (key x))) = [] := by
    refine List.filter_eq_nil_iff.2 fun y hy => ?_
    simpa [preceding] using le_of_lt ((List.pairwise_append.1 hl').2.2 x hx y (List.mem_reverse.1 hy))
  rw [List.reverse_append, List.filter_append, hnone, List.nil_append]

end Cursor

end Lists
