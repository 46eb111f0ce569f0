/-
Unique indexes under READ COMMITTED. Where every statement checks an index against what its session sees, and
every write that adds an entry holds the entry's key until its transaction ends, no session ever sees two entries
under one value, and no two are ever committed.
-/
import WorkflowWorld.Concurrency.Sessions

namespace Concurrency.Schema

variable {S : Schema} {n : Nat} {Mem Reply ι α : Type}

theorem length_le_one {l : List α} (hn : l.Nodup) (h : ∀ a ∈ l, ∀ b ∈ l, a = b) : l.length ≤ 1 := by
  rcases l with _ | ⟨a, _ | ⟨b, l⟩⟩
  · exact Nat.zero_le 1
  · exact Nat.le_refl 1
  · obtain rfl := h a (List.mem_cons_self ..) b (List.mem_cons_of_mem _ (List.mem_cons_self ..))
    exact absurd (List.mem_cons_self ..) (List.nodup_cons.1 hn).1

theorem eq_of_length_le_one {l : List α} {a b : α} (h : l.length ≤ 1) (ha : a ∈ l) (hb : b ∈ l) : a = b := by
  rcases l with _ | ⟨c, _ | ⟨c', l⟩⟩
  · cases ha
  · rw [List.mem_singleton.1 ha, List.mem_singleton.1 hb]
  · simp only [List.length_cons] at h
    omega

/-- Of each kind there is one at most exactly if no two elements are of one kind. -/
theorem length_filter_le_one_iff {p : ι → α → Bool} : ∀ {l : List α},
    (∀ i, (l.filter (p i)).length ≤ 1) ↔ l.Pairwise fun a b => ∀ i, p i a = true → p i b = false
  | [] => by simp
  | a :: l => by
    rw [List.pairwise_cons, ← length_filter_le_one_iff]
    constructor
    · refine fun h => ⟨fun b hb i ha => ?_, fun i => ((List.sublist_cons_self a l).filter _).length_le.trans (h i)⟩
      have hi := h i
      rw [List.filter_cons_of_pos ha, List.length_cons] at hi
      have hnil : l.filter (p i) = [] := List.length_eq_zero_iff.1 (by omega)
      exact Bool.eq_false_iff.2 (List.filter_eq_nil_iff.1 hnil b hb)
    · rintro ⟨ha, hl⟩ i
      cases hi : p i a with
      | true =>
        rw [List.filter_cons_of_pos hi, List.filter_eq_nil_iff.2 fun b hb => by rw [ha b hb i hi]; exact Bool.false_ne_true]
        exact Nat.le_refl 1
      | false =>
        rw [List.filter_cons_of_neg (by simp [hi])]
        exact hl i

/-- A list that no write adds to. -/
theorem sublist_applyAll {f : S.Db → List α} : ∀ {ws : List S.Write}, (∀ w ∈ ws, ∀ d, (f (S.apply w d)).Sublist (f d)) →
    ∀ d, (f (S.applyAll ws d)).Sublist (f d)
  | [], _, _ => .refl _
  | w :: _, h, d =>
    (sublist_applyAll (fun w' hw' => h w' (List.mem_cons_of_mem _ hw')) (S.apply w d)).trans (h w (List.mem_cons_self ..) d)

/-- Under each of its values an index has a list of entries of the data. A write that does not hold the value's
key adds none, and from fewer entries a write makes fewer. -/
structure UniqueIndex (S : Schema) (ι α : Type) where
  key : ι → S.Key
  entries : S.Db → ι → List α
  frame : ∀ w d i, key i ∉ S.touches w → (entries (S.apply w d) i).Sublist (entries d i)
  mono : ∀ w d d' i, (entries d i).Sublist (entries d' i) → (entries (S.apply w d) i).Sublist (entries (S.apply w d') i)
  ext : ∀ d d' i, S.Ext d d' → entries d' i = entries d i
  /-- A statement leaves no two entries under a value where its session sees none. -/
  checked : ∀ q pick now d, (∀ i, (entries d i).length ≤ 1) →
    ∀ i, (entries (S.applyAll (S.plan q pick now d).writes d) i).length ≤ 1

namespace UniqueIndex

open State

variable {X : UniqueIndex S ι α} {ws : List S.Write} {d d' : S.Db} {i : ι}

def Unique (X : UniqueIndex S ι α) (d : S.Db) : Prop := ∀ i, (X.entries d i).length ≤ 1

/-- The write adds no entry. -/
def Spare (X : UniqueIndex S ι α) (w : S.Write) : Prop := ∀ d i, (X.entries (S.apply w d) i).Sublist (X.entries d i)

theorem frame_applyAll (d : S.Db) (h : X.key i ∉ S.touchesAll ws) : (X.entries (S.applyAll ws d) i).Sublist (X.entries d i) :=
  sublist_applyAll (f := fun d => X.entries d i)
    (fun w hw d => X.frame w d i fun hin => h (List.mem_flatMap.2 ⟨w, hw, hin⟩)) d

theorem mono_applyAll : ∀ (ws : List S.Write) {d d' : S.Db}, (X.entries d i).Sublist (X.entries d' i) →
    (X.entries (S.applyAll ws d) i).Sublist (X.entries (S.applyAll ws d') i)
  | [], _, _, h => h
  | w :: ws, _, _, h => mono_applyAll ws (X.mono w _ _ i h)

theorem Unique.of_sublist (h : X.Unique d') (hs : ∀ i, (X.entries d i).Sublist (X.entries d' i)) : X.Unique d :=
  fun i => (hs i).length_le.trans (h i)

/-- What a session has pending is unique on the committed data, whatever the others commit: a value whose key they
hold is none of the session's. -/
def rules (X : UniqueIndex S ι α) (cond : Fin n → S.Op Mem Reply → S.State n Mem Reply → Prop) : TxRules S n Mem Reply where
  data := X.Unique
  draft _ ws _ d := X.Unique (S.applyAll ws d)
  steady _ _ := True
  ready _ _ := True
  inert := X.Spare
  grows _ _ := True
  spares _ _ _ := True
  effect _ _ _ := True
  answer _ _ _ _ _ := True
  cond := cond
  recalls := False
  grows_refl _ := trivial
  grows_trans _ _ _ _ _ := trivial
  spares_refl _ _ := trivial
  spares_trans _ _ _ _ _ _ := trivial
  effect_refl _ _ := trivial
  effect_spares _ _ _ _ _ _ := trivial
  draft_nil _ _ h := h
  draft_inert t ws ks new ks' d h hn := by
    rw [applyAll_append]
    exact h.of_sublist fun i => sublist_applyAll (f := fun d => X.entries d i) (fun w hw d => hn w hw d i) _
  steady_nil _ := trivial
  steady_inert _ _ _ _ _ := trivial
  ready_inert _ _ _ := trivial
  spares_inert _ _ _ _ := trivial
  publish _ _ _ _ _ h _ := ⟨h, trivial, trivial⟩
  others t ws ks u ws' ks' d hd h _ _ h' hks hws hws' i := by
    by_cases hin : X.key i ∈ S.touchesAll ws
    · -- the other's pending writes are about other values
      have hout : X.key i ∉ S.touchesAll ws' := fun hin' => hks _ (hws _ hin) (hws' _ hin')
      exact (frame_applyAll _ hout).length_le.trans (h i)
    · exact (mono_applyAll ws' (frame_applyAll d hin)).length_le.trans (h' i)
  ext d d' hd he := by
    refine ⟨fun i => ?_, trivial, fun _ => trivial⟩
    rw [X.ext d d' i he]
    exact hd i
  ext_draft t ws ks d d' h he := h.of_sublist fun i => mono_applyAll ws (by rw [X.ext d d' i he])
  answer_grows _ _ _ _ _ _ h _ := h

variable {cond : Fin n → S.Op Mem Reply → S.State n Mem Reply → Prop} {s : S.State n Mem Reply}

theorem unique_view (hi : (X.rules cond).Inv s) (t : Fin n) : X.Unique (s.view t) := by
  rw [view_eq]
  exact hi.draft_pend t

/-- Every statement keeps the index. -/
theorem admits (t : Fin n) (q : S.Query) : (X.rules cond).Admits t (fun _ => True) (fun _ _ => True) q := by
  intro s pick a _ hi _ _ _ _ _
  refine ⟨⟨?_, fun _ => trivial⟩, trivial, trivial⟩
  show X.Unique (S.applyAll _ s.db)
  rw [applyAll_append, ← view_eq]
  exact X.checked q pick (s.clock t) (s.view t) (unique_view hi t)

end UniqueIndex

end Concurrency.Schema
