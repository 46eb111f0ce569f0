/-
A keyed table cut down to some of its keys: the entries stay in their order, and a key that is kept is
looked up, inserted and erased as in the whole table. The keys of a kind, after an insert and an erase.
-/
import Mathlib.Data.List.AList

namespace Lists

variable {κ : Type} {ρ : κ → Type} (p : κ → Bool)

def restrict (t : AList ρ) : AList ρ :=
  ⟨t.entries.filter fun e => p e.1, t.nodupKeys.sublist (List.filter_sublist ..)⟩

theorem entries_restrict (t : AList ρ) : (restrict p t).entries = t.entries.filter fun e => p e.1 := rfl

section Restrict

variable [DecidableEq κ] {p} {k : κ}

theorem dlookup_filter (hk : p k = true) : ∀ l : List (Sigma ρ), (l.filter fun e => p e.1).dlookup k = l.dlookup k
  | [] => rfl
  | e :: l => by
    by_cases he : k = e.1
    · subst he
      rw [List.filter_cons, if_pos hk, List.dlookup_cons_eq, List.dlookup_cons_eq]
    · rw [List.dlookup_cons_ne _ _ he]
      cases hp : p e.1 with
      | true => rw [List.filter_cons, if_pos hp, List.dlookup_cons_ne _ _ he, dlookup_filter hk l]
      | false => rw [List.filter_cons, if_neg (by simp [hp]), dlookup_filter hk l]

theorem lookup_restrict (t : AList ρ) (hk : p k = true) : (restrict p t).lookup k = t.lookup k := dlookup_filter hk _

theorem lookup_restrict_of_not (t : AList ρ) (hk : p k = false) : (restrict p t).lookup k = none := by
  rw [AList.lookup_eq_none, AList.mem_keys]
  intro hmem
  obtain ⟨v, hv⟩ := List.mem_keys.1 hmem
  have hp := (List.mem_filter.1 hv).2
  rw [hk] at hp
  cases hp

theorem filter_kerase (hk : p k = true) : ∀ l : List (Sigma ρ), (l.kerase k).filter (fun e => p e.1) = (l.filter fun e => p e.1).kerase k
  | [] => rfl
  | e :: l => by
    by_cases he : k = e.1
    · subst he
      rw [List.kerase_cons_eq rfl, List.filter_cons, if_pos hk, List.kerase_cons_eq rfl]
    · rw [List.kerase_cons_ne he]
      cases hp : p e.1 with
      | true => rw [List.filter_cons, if_pos hp, List.filter_cons, if_pos hp, List.kerase_cons_ne he, filter_kerase hk l]
      | false => rw [List.filter_cons, if_neg (by simp [hp]), List.filter_cons, if_neg (by simp [hp]), filter_kerase hk l]

theorem filter_kerase_of_not (hk : p k = false) : ∀ l : List (Sigma ρ), (l.kerase k).filter (fun e => p e.1) = l.filter fun e => p e.1
  | [] => rfl
  | e :: l => by
    by_cases he : k = e.1
    · subst he
      rw [List.kerase_cons_eq rfl, List.filter_cons, if_neg (by simp [hk])]
    · rw [List.kerase_cons_ne he, List.filter_cons, List.filter_cons, filter_kerase_of_not hk l]

theorem restrict_erase (t : AList ρ) (hk : p k = true) : restrict p (t.erase k) = (restrict p t).erase k :=
  AList.ext (filter_kerase hk _)

theorem restrict_erase_of_not (t : AList ρ) (hk : p k = false) : restrict p (t.erase k) = restrict p t :=
  AList.ext (filter_kerase_of_not hk _)

theorem restrict_insert (t : AList ρ) (v : ρ k) (hk : p k = true) : restrict p (t.insert k v) = (restrict p t).insert k v := by
  refine AList.ext ?_
  rw [AList.entries_insert, entries_restrict, entries_restrict, AList.entries_insert,
    List.filter_cons, if_pos hk, filter_kerase hk]

theorem restrict_insert_of_not (t : AList ρ) (v : ρ k) (hk : p k = false) : restrict p (t.insert k v) = restrict p t := by
  refine AList.ext ?_
  rw [entries_restrict, entries_restrict, AList.entries_insert,
    List.filter_cons, if_neg (by simp [hk]), filter_kerase_of_not hk]

theorem filter_keys_erase (t : AList ρ) (k : κ) (q : κ → Bool) :
    (t.erase k).keys.filter q = (t.keys.filter q).filter fun k' => decide (k' ≠ k) := by
  rw [AList.keys_erase, t.keys_nodup.erase_eq_filter, List.filter_filter, List.filter_filter]
  refine List.filter_congr fun k' _ => ?_
  rw [Bool.and_comm, Bool.eq_iff_iff, Bool.and_eq_true, Bool.and_eq_true, bne_iff_ne, decide_eq_true_eq]

theorem filter_keys_insert (t : AList ρ) (v : ρ k) (q : κ → Bool) :
    (t.insert k v).keys.filter q =
      (if q k = true then [k] else []) ++ (t.keys.filter q).filter fun k' => decide (k' ≠ k) := by
  rw [AList.keys_insert, List.filter_cons, ← filter_keys_erase, AList.keys_erase]
  split <;> rfl

end Restrict

end Lists
