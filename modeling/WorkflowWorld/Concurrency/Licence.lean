/-
Licences that are granted once and used once. A row records a grant, with the number of the session
it was made to, and is not granted again; a record in the data, once there, stays, and uses the
licence of the session that wrote it. Where a session writes a record only under its own licence,
with no record there yet, the data never holds two records.
-/
import WorkflowWorld.Concurrency.Sessions

namespace Concurrency.Schema

variable {S : Schema} {n : Nat} {Mem Reply : Type}

/-- A grant kept by the row of one key, and the records that use it. -/
structure Licences (S : Schema) where
  Grant : Type
  owner : Grant → Option Nat
  key : S.Key
  grant : S.Db → Option Grant
  /-- The owners of the records. -/
  records : S.Db → List Nat
  uses : S.Write → Option Nat
  grant_agree : ∀ d d', S.Agree key d d' → grant d = grant d'
  records_apply : ∀ w d, records (S.apply w d) = records d ++ (uses w).toList
  records_ext : ∀ d d', S.Ext d d' → records d' = records d

namespace Licences

open State

variable {L : Licences S} {ws new ws' : List S.Write} {d d' : S.Db}

def usesAll (L : Licences S) (ws : List S.Write) : List Nat := ws.filterMap L.uses

theorem usesAll_append : L.usesAll (ws ++ new) = L.usesAll ws ++ L.usesAll new := List.filterMap_append

theorem records_applyAll : ∀ (ws : List S.Write) (d : S.Db), L.records (S.applyAll ws d) = L.records d ++ L.usesAll ws
  | [], d => by simp [applyAll, usesAll]
  | w :: ws, d => by
    show L.records (S.applyAll ws (S.apply w d)) = _
    rw [records_applyAll ws, L.records_apply, List.append_assoc]
    cases h : L.uses w <;> simp [usesAll, h]

theorem grant_applyAll (h : L.key ∉ S.touchesAll ws) (d : S.Db) : L.grant (S.applyAll ws d) = L.grant d :=
  (L.grant_agree _ _ (agree_applyAll ws d h)).symm

/-- There is no record, or one, and it is the grantee's. -/
def Valid (L : Licences S) (d : S.Db) : Prop :=
  L.records d = [] ∨ ∃ g m, L.grant d = some g ∧ L.owner g = some m ∧ L.records d = [m]

/-- A grant stays. -/
def Grows (L : Licences S) (d d' : S.Db) : Prop := ∀ g, L.grant d = some g → L.grant d' = some g

/-- The writes keep a grant and record nothing. -/
structure Fits (L : Licences S) (d : S.Db) (new : List S.Write) : Prop where
  grows : L.Grows d (S.applyAll new d)
  noRecord : L.usesAll new = []

/-- Writes beside the row and the records. -/
theorem Fits.of_inert (h : ∀ w ∈ new, L.key ∉ S.touches w ∧ L.uses w = none) (d : S.Db) : L.Fits d new := by
  refine ⟨fun g hg => ?_, List.filterMap_eq_nil_iff.2 fun w hw => (h w hw).2⟩
  rw [grant_applyAll (fun hin => ?_) d]
  · exact hg
  · obtain ⟨w, hw, hk⟩ := List.mem_flatMap.1 hin
    exact (h w hw).1 hk

/-- What session `m` has pending, on the committed data. -/
structure Draft (L : Licences S) (m : Nat) (ws : List S.Write) (d : S.Db) : Prop where
  valid : L.Valid (S.applyAll ws d)
  grows : L.Grows d (S.applyAll ws d)
  own : ∀ m' ∈ L.usesAll ws, m' = m

theorem Valid.fits (h : L.Valid d) (hf : L.Fits d new) : L.Valid (S.applyAll new d) := by
  have hrec : L.records (S.applyAll new d) = L.records d := by rw [records_applyAll, hf.noRecord, List.append_nil]
  rcases h with h | ⟨g, m, hg, ho, h⟩
  · exact .inl (hrec.trans h)
  · exact .inr ⟨g, m, hf.grows g hg, ho, hrec.trans h⟩

theorem Draft.append {m : Nat} (h : L.Draft m ws d) (hf : L.Fits (S.applyAll ws d) new) : L.Draft m (ws ++ new) d := by
  have happ := applyAll_append ws new d
  refine ⟨by rw [happ]; exact h.valid.fits hf, fun g hg => by rw [happ]; exact hf.grows g (h.grows g hg), fun m' hm' => ?_⟩
  rw [usesAll_append, hf.noRecord, List.append_nil] at hm'
  exact h.own m' hm'

/-- Of two sessions at most one has a record, pending or committed: the grant names one of them, and at most one
of them has its row. -/
theorem Draft.others {m m' : Nat} (hm : m ≠ m') (h : L.Draft m ws d) (h' : L.Draft m' ws' d)
    (hex : ∀ k ∈ S.touchesAll ws, k ∉ S.touchesAll ws') : L.Draft m' ws' (S.applyAll ws d) := by
  -- a grant in the pending transaction's row was not moved by the commit
  have hmine : L.key ∈ S.touchesAll ws' → L.grant (S.applyAll ws d) = L.grant d ∧
      L.grant (S.applyAll ws' (S.applyAll ws d)) = L.grant (S.applyAll ws' d) := by
    intro hk
    have hnot : L.key ∉ S.touchesAll ws := fun hin => hex _ hin hk
    exact ⟨grant_applyAll hnot d, (L.grant_agree _ _ (agree_applyAll_congr ws' _ _ (agree_applyAll ws d hnot))).symm⟩
  have hgrows : L.Grows (S.applyAll ws d) (S.applyAll ws' (S.applyAll ws d)) := by
    intro g hg
    by_cases hk : L.key ∈ S.touchesAll ws'
    · rw [(hmine hk).2]; exact h'.grows g ((hmine hk).1 ▸ hg)
    · rw [grant_applyAll hk]; exact hg
  -- what the pending transaction sees granted is granted after the commit too
  have hsees : ∀ g, L.grant (S.applyAll ws' d) = some g → L.grant (S.applyAll ws' (S.applyAll ws d)) = some g := by
    intro g hg
    by_cases hk : L.key ∈ S.touchesAll ws'
    · rw [(hmine hk).2]; exact hg
    · rw [grant_applyAll hk]
      exact h.grows g (by rw [← grant_applyAll hk]; exact hg)
  refine ⟨?_, hgrows, h'.own⟩
  have hrec : L.records (S.applyAll ws' (S.applyAll ws d)) = L.records (S.applyAll ws d) ++ L.usesAll ws' := records_applyAll ..
  have hvalid' := h'.valid
  unfold Valid at hvalid' ⊢
  rw [records_applyAll] at hvalid'
  rcases h.valid with hnone | ⟨g, m₁, hg, ho, hone⟩
  · -- the commit left no record
    have hd : L.records d = [] := by
      rw [records_applyAll] at hnone; exact (List.append_eq_nil_iff.1 hnone).1
    rw [hd, List.nil_append] at hvalid'
    rw [hrec, hnone, List.nil_append]
    exact hvalid'.imp_right fun ⟨g, m₂, hg, ho, h⟩ => ⟨g, m₂, hsees g hg, ho, h⟩
  · -- the commit left one: the pending transaction has none
    have hmine' : L.usesAll ws' = [] := by
      by_contra hne
      obtain ⟨m₂, hm₂⟩ := List.exists_mem_of_ne_nil _ hne
      rcases hvalid' with hnil | ⟨g', m₃, hg', ho', h₃⟩
      · exact hne (List.append_eq_nil_iff.1 hnil).2
      · have hd : L.records d = [] := by
          have hlen := congrArg List.length h₃
          have := List.length_pos_iff.2 hne
          simp only [List.length_append, List.length_singleton] at hlen
          exact List.eq_nil_of_length_eq_zero (by omega)
        rw [hd, List.nil_append] at h₃
        have hwho : m₃ = m' := h'.own m₃ (by rw [h₃]; exact List.mem_singleton.2 rfl)
        have hwho' : m₁ = m := by
          rw [records_applyAll, hd, List.nil_append] at hone
          exact h.own m₁ (by rw [hone]; exact List.mem_singleton.2 rfl)
        have hsame := hgrows g hg
        rw [hsees g' hg', Option.some.injEq] at hsame
        subst hsame
        rw [ho', Option.some.injEq] at ho
        exact hm (by rw [← hwho', ← ho, hwho])
    rw [hrec, hmine', List.append_nil]
    exact .inr ⟨g, m₁, hgrows g hg, ho, hone⟩

theorem Draft.ext {m : Nat} (h : L.Draft m ws d) (he : S.Ext d d') : L.Draft m ws d' := by
  have hg : L.grant d = L.grant d' := L.grant_agree _ _ (S.agree_ext _ _ _ he)
  have hg' : L.grant (S.applyAll ws d) = L.grant (S.applyAll ws d') :=
    L.grant_agree _ _ (agree_applyAll_congr ws _ _ (S.agree_ext _ _ _ he))
  have hrec : L.records (S.applyAll ws d') = L.records (S.applyAll ws d) := by
    rw [records_applyAll, records_applyAll, L.records_ext d d' he]
  refine ⟨?_, fun g hgd => hg' ▸ h.grows g (hg ▸ hgd), h.own⟩
  have hv := h.valid
  unfold Valid at hv ⊢
  rw [hrec, ← hg']
  exact hv

/-- The rules under which the data holds at most one record. -/
def rules (L : Licences S) (cond : Fin n → S.Op Mem Reply → S.State n Mem Reply → Prop) : TxRules S n Mem Reply where
  data := L.Valid
  draft t ws _ d := L.Draft t ws d
  steady _ _ := True
  ready _ _ := True
  inert w := L.key ∉ S.touches w ∧ L.uses w = none
  grows := L.Grows
  spares t d d' := (t : Nat) ∈ L.records d' → (t : Nat) ∈ L.records d
  effect t d d' := ∃ l, L.records d' = L.records d ++ l ∧ ∀ m ∈ l, m = (t : Nat)
  answer _ _ _ _ _ := True
  cond := cond
  recalls := False
  grows_refl _ _ h := h
  grows_trans _ _ _ h1 h2 g h := h2 g (h1 g h)
  spares_refl _ _ h := h
  spares_trans _ _ _ _ h1 h2 h := h1 (h2 h)
  effect_refl _ d := ⟨[], by simp, fun _ h => by cases h⟩
  effect_spares t u d d' hu he hin := by
    obtain ⟨l, hl, hown⟩ := he
    rw [hl] at hin
    exact (List.mem_append.1 hin).resolve_right fun h => hu (Fin.ext (hown _ h))
  draft_nil _ d hd := ⟨hd, fun _ h => h, fun _ h => by cases h⟩
  draft_inert t ws _ new _ d h hn := h.append (.of_inert hn _)
  steady_nil _ := trivial
  steady_inert _ _ _ _ _ := trivial
  ready_inert _ _ _ := trivial
  spares_inert t ws d hn := by
    rw [records_applyAll, (Fits.of_inert hn d).noRecord, List.append_nil]
    exact fun h => h
  publish t ws _ d _ h _ := ⟨h.valid, h.grows, L.usesAll ws, records_applyAll ws d, h.own⟩
  others t ws _ u ws' _ d _ h _ hu h' hks hw hw' :=
    h.others (fun heq => hu (Fin.ext heq).symm) h' fun k hk hk' => hks k (hw k hk) (hw' k hk')
  ext d d' hd he := by
    have hg : L.grant d = L.grant d' := L.grant_agree _ _ (S.agree_ext _ _ _ he)
    have hrec := L.records_ext d d' he
    refine ⟨?_, fun g h => hg ▸ h, fun t h => hrec ▸ h⟩
    unfold Valid at hd ⊢
    rw [hrec, ← hg]
    exact hd
  ext_draft _ _ _ _ _ h he := h.ext he
  answer_grows _ _ _ _ _ _ h _ := h

/-! ## A session's licence -/

variable {cond : Fin n → S.Op Mem Reply → S.State n Mem Reply → Prop} {t : Fin n} {s s' : S.State n Mem Reply}

/-- The grant is there for session `t`, for good as it goes on: it is committed, or the row is the session's own. -/
def Granted (L : Licences S) (t : Fin n) (g : L.Grant) (s : S.State n Mem Reply) : Prop :=
  L.grant s.db = some g ∨ L.key ∈ s.locks t ∧ L.grant (s.view t) = some g

/-- And it was made to the session. -/
def Held (L : Licences S) (t : Fin n) (s : S.State n Mem Reply) : Prop := ∃ g, L.owner g = some (t : Nat) ∧ L.Granted t g s

/-- It does, and nothing is recorded yet. -/
structure Licensed (L : Licences S) (t : Fin n) (s : S.State n Mem Reply) : Prop where
  held : L.Held t s
  unused : L.records (s.view t) = []

theorem frame : (L.rules cond).Frame t (fun _ => True) (fun _ _ => True) := TxRules.any_frame fun _ _ => trivial

theorem draft_of_inv (hi : (L.rules cond).Inv s) : L.Draft t (s.pend t) s.db := hi.draft_pend t

theorem valid_view (hi : (L.rules cond).Inv s) : L.Valid (s.view t) := by
  rw [view_eq]; exact (draft_of_inv hi).valid

theorem Granted.view {g : L.Grant} (h : L.Granted t g s) (hi : (L.rules cond).Inv s) : L.grant (s.view t) = some g := by
  rcases h with h | ⟨-, h⟩
  · rw [view_eq]; exact (draft_of_inv hi).grows g h
  · exact h

theorem Granted.rely {g : L.Grant} (h : L.Granted t g s) (hr : (L.rules cond).rules.Rely t s s') : L.Granted t g s' := by
  rcases h with h | ⟨hl, h⟩
  · have hgrows : L.Grows s.db s'.db := hr.rel
    exact .inl (hgrows g h)
  · refine .inr ⟨by rw [hr.keep.locks]; exact hl, ?_⟩
    rw [view_eq] at h ⊢
    rw [hr.keep.pend, ← L.grant_agree _ _ (agree_applyAll_congr (s.pend t) _ _ (hr.keep.agree _ hl))]
    exact h

/-- A grant lasts over a statement that fits. -/
theorem Granted.write {g : L.Grant} (h : L.Granted t g s) (hf : L.Fits (s.view t) new) (takes : List S.Key) :
    L.Granted t g (s.write t takes new) := by
  cases hx : s.tx t with
  | none =>
    have hv : s.view t = s.db := by unfold State.view; rw [hx]
    have hgrows := hf.grows
    rw [hv] at hgrows
    rw [TxRules.write_tx_none hx]
    rcases h with h | ⟨-, h⟩
    · exact .inl (hgrows g h)
    · exact .inl (hgrows g (hv ▸ h))
  | some x =>
    rcases h with h | ⟨hl, h⟩
    · exact .inl (by rw [TxRules.write_db hx]; exact h)
    · refine .inr ⟨?_, by rw [write_view]; exact hf.grows g h⟩
      rw [TxRules.write_locks hx]; exact List.mem_append_left _ hl

theorem Held.view (h : L.Held t s) (hi : (L.rules cond).Inv s) :
    ∃ g, L.owner g = some (t : Nat) ∧ L.grant (s.view t) = some g := by
  obtain ⟨g, ho, hg⟩ := h
  exact ⟨g, ho, hg.view hi⟩

/-- The others do not take it away, nor use it. -/
theorem Licensed.rely (h : L.Licensed t s) (hi : (L.rules cond).Inv s') (hr : (L.rules cond).rules.Rely t s s') :
    L.Licensed t s' := by
  have hheld : L.Held t s' := by
    obtain ⟨g, ho, hg⟩ := h.held
    exact ⟨g, ho, hg.rely hr⟩
  have hused := h.unused
  rw [view_eq, records_applyAll, List.append_eq_nil_iff] at hused
  refine ⟨hheld, ?_⟩
  rw [view_eq, records_applyAll, hr.keep.pend, hused.2, List.append_nil]
  have hvalid : L.Valid s'.db := hi.data
  refine hvalid.resolve_right ?_
  rintro ⟨g', m, hg', ho', hone⟩
  -- the record would be the session's own
  obtain ⟨g, ho, hg⟩ := hheld.view hi
  have hsame : L.grant (s'.view t) = some g' := by rw [view_eq]; exact (draft_of_inv hi).grows g' hg'
  rw [hg, Option.some.injEq] at hsame
  subst hsame
  rw [ho, Option.some.injEq] at ho'
  have hspares : (t : Nat) ∈ L.records s'.db → (t : Nat) ∈ L.records s.db := hr.spares
  have hin := hspares (by rw [hone, ho']; exact List.mem_singleton.2 rfl)
  rw [hused.1] at hin
  cases hin

/-- A statement that fits what the session sees. -/
theorem extends_of_fits (hi : (L.rules cond).Inv s) {takes : List S.Key} (hf : L.Fits (s.view t) new) :
    (L.rules cond).Extends t s takes new := by
  refine ⟨(draft_of_inv hi).append ?_, fun _ => trivial⟩
  rw [← view_eq]
  exact hf

/-- The licence lasts over a statement that fits. -/
theorem Licensed.write (h : L.Licensed t s) (hf : L.Fits (s.view t) new) (takes : List S.Key) : L.Licensed t (s.write t takes new) := by
  obtain ⟨g, ho, hg⟩ := h.held
  refine ⟨⟨g, ho, hg.write hf takes⟩, ?_⟩
  rw [write_view, records_applyAll, hf.noRecord, List.append_nil]
  exact h.unused

theorem Licensed.read (h : L.Licensed t s) (takes : List S.Key) : L.Licensed t ((s.see t).write t takes []) :=
  Licensed.write (s := s.see t) ⟨h.held, h.unused⟩ (.of_inert (fun _ hw => by cases hw) _) takes

/-- The grant itself: there was none, so nothing is recorded. -/
theorem licensed_grant (hi : (L.rules cond).Inv s) (hnone : L.grant (s.view t) = none) (hk : L.key ∈ S.touchesAll new)
    (hno : L.usesAll new = []) {g : L.Grant} (ho : L.owner g = some (t : Nat)) (hg : L.grant (S.applyAll new (s.view t)) = some g)
    (takes : List S.Key) : L.Licensed t (s.write t takes new) := by
  refine ⟨⟨g, ho, ?_⟩, ?_⟩
  · cases hx : s.tx t with
    | none =>
      rw [TxRules.write_tx_none hx]
      unfold State.view at hg; rw [hx] at hg
      exact .inl hg
    | some x =>
      refine .inr ⟨?_, by rw [write_view]; exact hg⟩
      rw [TxRules.write_locks hx]
      exact List.mem_append_right _ (List.mem_append_right _ hk)
  · rw [write_view, records_applyAll, hno, List.append_nil]
    refine (valid_view hi).resolve_right ?_
    rintro ⟨g', _, hg', -⟩
    rw [hnone] at hg'
    cases hg'

/-- The use of the licence. -/
theorem extends_of_use (hi : (L.rules cond).Inv s) (h : L.Licensed t s) (hk : L.key ∉ S.touchesAll new)
    (huse : L.usesAll new = [(t : Nat)]) {takes : List S.Key} : (L.rules cond).Extends t s takes new := by
  have hd := draft_of_inv (t := t) hi
  obtain ⟨g, ho, hg⟩ := h.held.view hi
  have happ := applyAll_append (s.pend t) new s.db
  refine ⟨⟨?_, fun g' hg' => ?_, fun m hm => ?_⟩, fun _ => trivial⟩
  · rw [happ, ← view_eq]
    refine .inr ⟨g, t, by rw [grant_applyAll hk]; exact hg, ho, ?_⟩
    rw [records_applyAll, h.unused, huse]
    rfl
  · rw [happ, grant_applyAll hk]
    exact hd.grows g' hg'
  · rw [usesAll_append, huse] at hm
    rcases List.mem_append.1 hm with hm | hm
    · exact hd.own m hm
    · exact List.mem_singleton.1 hm

end Licences

end Concurrency.Schema
