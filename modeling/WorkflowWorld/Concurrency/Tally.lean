/-
A counter kept in a row, and the records in a log that it counts. A transaction that raises the
counter appends a record before it commits; the row's lock keeps the others from raising it in
between. So the counter is the number of records, and a session that found the counter at zero in a
row of its own makes the first record. The row itself only moves upwards in an order.
-/
import WorkflowWorld.Concurrency.Sessions
import Mathlib.Algebra.GroupWithZero.Nat

namespace Concurrency.Schema

variable {S : Schema} {n : Nat} {Mem Reply : Type}

/-- A row with a counter, and the owners of the records it counts. -/
structure Tally (S : Schema) where
  key : S.Key
  Row : Type
  row : S.Db → Row
  /-- The order the row moves in. -/
  le : Row → Row → Prop
  value : Row → Nat
  /-- By how much the write raises the counter. -/
  bumps : S.Write → Nat
  log : S.Db → List Nat
  records : S.Write → Option Nat
  le_refl : ∀ r, le r r
  le_trans : ∀ a b c, le a b → le b c → le a c
  row_agree : ∀ d d', S.Agree key d d' → row d = row d'
  bumps_touches : ∀ w, bumps w ≠ 0 → key ∈ S.touches w
  log_apply : ∀ w d, log (S.apply w d) = log d ++ (records w).toList
  log_ext : ∀ d d', S.Ext d d' → log d' = log d

namespace Tally

open State

variable {T : Tally S} {ws new ws' : List S.Write} {d d' : S.Db}

def bumpsAll (T : Tally S) (ws : List S.Write) : Nat := (ws.map T.bumps).sum

def recordsAll (T : Tally S) (ws : List S.Write) : List Nat := ws.filterMap T.records

theorem bumpsAll_append : T.bumpsAll (ws ++ new) = T.bumpsAll ws + T.bumpsAll new := by simp [bumpsAll]

theorem recordsAll_append : T.recordsAll (ws ++ new) = T.recordsAll ws ++ T.recordsAll new := List.filterMap_append

theorem log_applyAll : ∀ (ws : List S.Write) (d : S.Db), T.log (S.applyAll ws d) = T.log d ++ T.recordsAll ws
  | [], d => by simp [applyAll, recordsAll]
  | w :: ws, d => by
    show T.log (S.applyAll ws (S.apply w d)) = _
    rw [log_applyAll ws, T.log_apply, List.append_assoc]
    cases h : T.records w <;> simp [recordsAll, h]

theorem row_applyAll (h : T.key ∉ S.touchesAll ws) (d : S.Db) : T.row (S.applyAll ws d) = T.row d :=
  (T.row_agree _ _ (agree_applyAll ws d h)).symm

theorem bumpsAll_eq_zero (h : T.key ∉ S.touchesAll ws) : T.bumpsAll ws = 0 := by
  rw [bumpsAll, List.sum_eq_zero_iff_forall_eq_nat]
  intro x hx
  obtain ⟨w, hw, rfl⟩ := List.mem_map.1 hx
  by_contra hne
  exact h (List.mem_flatMap.2 ⟨w, hw, T.bumps_touches w hne⟩)

/-- The writes move the row upwards, and raise the counter by what they say. -/
structure Draft (T : Tally S) (ws : List S.Write) (d : S.Db) : Prop where
  le : T.le (T.row d) (T.row (S.applyAll ws d))
  value : T.value (T.row (S.applyAll ws d)) = T.value (T.row d) + T.bumpsAll ws

/-- Every raise of the counter has its record. -/
def Balanced (T : Tally S) (ws : List S.Write) : Prop := T.bumpsAll ws = (T.recordsAll ws).length

/-- The log grew and the row moved upwards. -/
structure Grew (T : Tally S) (d d' : S.Db) : Prop where
  log : T.log d <+: T.log d'
  row : T.le (T.row d) (T.row d')

theorem Draft.of_aside (h : T.key ∉ S.touchesAll ws) (d : S.Db) : T.Draft ws d := by
  rw [show T.Draft ws d ↔ _ from ⟨fun h => And.intro h.le h.value, fun h => ⟨h.1, h.2⟩⟩, row_applyAll h, bumpsAll_eq_zero h]
  exact ⟨T.le_refl _, rfl⟩

theorem Draft.append (h : T.Draft ws d) (hn : T.Draft new (S.applyAll ws d)) : T.Draft (ws ++ new) d := by
  have happ := applyAll_append ws new d
  refine ⟨by rw [happ]; exact T.le_trans _ _ _ h.le hn.le, ?_⟩
  rw [happ, hn.value, h.value, bumpsAll_append, Nat.add_assoc]

theorem Balanced.append (h : T.Balanced ws) (hn : T.Balanced new) : T.Balanced (ws ++ new) := by
  unfold Balanced at h hn ⊢
  rw [bumpsAll_append, recordsAll_append, List.length_append, h, hn]

/-- Of two sessions at most one has the row. -/
theorem Draft.others (h' : T.Draft ws' d) (hex : ∀ k ∈ S.touchesAll ws, k ∉ S.touchesAll ws') : T.Draft ws' (S.applyAll ws d) := by
  by_cases hk : T.key ∈ S.touchesAll ws'
  · have hnot : T.key ∉ S.touchesAll ws := fun hin => hex _ hin hk
    have hrow := row_applyAll hnot d
    have hrow' : T.row (S.applyAll ws' (S.applyAll ws d)) = T.row (S.applyAll ws' d) :=
      (T.row_agree _ _ (agree_applyAll_congr ws' _ _ (agree_applyAll ws d hnot))).symm
    exact ⟨by rw [hrow', hrow]; exact h'.le, by rw [hrow', hrow]; exact h'.value⟩
  · exact .of_aside hk _

/-- The rules that keep the counter and the log together. Of an answer that `claims` a first record, the record is
there. -/
def rules (T : Tally S) (claims : Fin n → Reply → Prop) (cond : Fin n → S.Op Mem Reply → S.State n Mem Reply → Prop) :
    TxRules S n Mem Reply where
  data d := T.value (T.row d) = (T.log d).length
  draft _ ws _ d := T.Draft ws d
  steady _ ws := T.Balanced ws
  ready _ ws := T.Balanced ws
  inert w := T.key ∉ S.touches w ∧ T.records w = none
  grows := T.Grew
  spares _ _ _ := True
  effect _ _ _ := True
  answer t r _ _ d := claims t r → (T.log d).head? = some (t : Nat)
  cond := cond
  recalls := False
  grows_refl _ := ⟨List.prefix_refl _, T.le_refl _⟩
  grows_trans _ _ _ h1 h2 := ⟨h1.log.trans h2.log, T.le_trans _ _ _ h1.row h2.row⟩
  spares_refl _ _ := trivial
  spares_trans _ _ _ _ _ _ := trivial
  effect_refl _ _ := trivial
  effect_spares _ _ _ _ _ _ := trivial
  draft_nil _ d _ := ⟨T.le_refl _, rfl⟩
  draft_inert _ ws _ new _ d h hn := by
    refine h.append (.of_aside (fun hin => ?_) _)
    obtain ⟨w, hw, hk⟩ := List.mem_flatMap.1 hin
    exact (hn w hw).1 hk
  steady_nil _ := rfl
  steady_inert _ ws new h hn := by
    refine h.append ?_
    unfold Balanced
    rw [bumpsAll_eq_zero, recordsAll, List.filterMap_eq_nil_iff.2 fun w hw => (hn w hw).2]
    · rfl
    · intro hin
      obtain ⟨w, hw, hk⟩ := List.mem_flatMap.1 hin
      exact (hn w hw).1 hk
  ready_inert _ ws hn := by
    unfold Balanced
    rw [bumpsAll_eq_zero, recordsAll, List.filterMap_eq_nil_iff.2 fun w hw => (hn w hw).2]
    · rfl
    · intro hin
      obtain ⟨w, hw, hk⟩ := List.mem_flatMap.1 hin
      exact (hn w hw).1 hk
  spares_inert _ _ _ _ := trivial
  publish _ ws _ d hd h hr := by
    refine ⟨?_, ⟨?_, h.le⟩, trivial⟩
    · rw [h.value, hd, log_applyAll, List.length_append, hr]
    · rw [log_applyAll]; exact List.prefix_append _ _
  others _ _ _ _ _ _ _ _ _ _ _ h' hks hw hw' := h'.others fun k hk hk' => hks k (hw k hk) (hw' k hk')
  ext d d' hd he := by
    have hrow : T.row d = T.row d' := T.row_agree _ _ (S.agree_ext _ _ _ he)
    have hlog := T.log_ext d d' he
    exact ⟨by rw [hlog, ← hrow]; exact hd, ⟨by simp only [hlog, List.prefix_refl], by rw [hrow]; exact T.le_refl _⟩, fun _ => trivial⟩
  ext_draft _ ws _ d d' h he := by
    have hrow : T.row d = T.row d' := T.row_agree _ _ (S.agree_ext _ _ _ he)
    have hrow' : T.row (S.applyAll ws d) = T.row (S.applyAll ws d') :=
      T.row_agree _ _ (agree_applyAll_congr ws _ _ (S.agree_ext _ _ _ he))
    exact ⟨by rw [← hrow, ← hrow']; exact h.le, by rw [← hrow, ← hrow']; exact h.value⟩
  answer_grows t r _ _ d d' h hg hc := by
    obtain ⟨l, hl⟩ := hg.log
    rw [← hl, List.head?_append, h hc]
    rfl

/-! ## What a session knows -/

variable {claims : Fin n → Reply → Prop} {cond : Fin n → S.Op Mem Reply → S.State n Mem Reply → Prop} {t : Fin n}
  {s s' s₁ s₃ : S.State n Mem Reply}

theorem draft_of_inv (hi : (T.rules claims cond).Inv s) : T.Draft (s.pend t) s.db := hi.draft_pend t

/-- The row is, for session `t`, where `P` says, for good where `P` is closed upwards. -/
def Sees (T : Tally S) (t : Fin n) (P : T.Row → Prop) (s : S.State n Mem Reply) : Prop :=
  P (T.row s.db) ∨ T.key ∈ s.locks t ∧ P (T.row (s.view t))

theorem sees_of_view {P : T.Row → Prop} (hb : Base s) (h : P (T.row (s.view t))) : T.Sees t P s := by
  by_cases hl : T.key ∈ s.locks t
  · exact .inr ⟨hl, h⟩
  · refine .inl ?_
    rw [view_eq, row_applyAll fun hin => hl (hb.touchesAll_pend t _ hin)] at h
    exact h

theorem Sees.view {P : T.Row → Prop} (hP : ∀ a b, T.le a b → P a → P b) (h : T.Sees t P s) (hi : (T.rules claims cond).Inv s) :
    P (T.row (s.view t)) := by
  rcases h with h | ⟨-, h⟩
  · rw [view_eq]; exact hP _ _ (draft_of_inv hi).le h
  · exact h

theorem Sees.rely {P : T.Row → Prop} (hP : ∀ a b, T.le a b → P a → P b) (h : T.Sees t P s)
    (hr : (T.rules claims cond).rules.Rely t s s') : T.Sees t P s' := by
  rcases h with h | ⟨hl, h⟩
  · have hgrew : T.Grew s.db s'.db := hr.rel
    exact .inl (hP _ _ hgrew.row h)
  · refine .inr ⟨by rw [hr.keep.locks]; exact hl, ?_⟩
    rw [← T.row_agree _ _ (hr.keep.view hl)]
    exact h

/-- Writes beside the row. -/
theorem Sees.aside {P : T.Row → Prop} (h : T.Sees t P s) (takes : List S.Key) {ws : List S.Write} (hw : T.key ∉ S.touchesAll ws) :
    T.Sees t P ((s.see t).write t takes ws) := by
  have hrow : T.row (((s.see t).write t takes ws).view t) = T.row (s.view t) := by
    rw [write_view, row_applyAll hw]; rfl
  rcases h with h | ⟨hl, h⟩
  · refine .inl ?_
    cases hx : s.tx t with
    | none =>
      rw [TxRules.write_tx_none (s := s.see t) hx]
      show P (T.row (S.applyAll ws s.db))
      rw [row_applyAll hw]
      exact h
    | some x => rw [TxRules.write_db (s := s.see t) hx]; exact h
  · refine .inr ⟨?_, by rw [hrow]; exact h⟩
    cases hx : s.tx t with
    | none => simp [State.locks, hx] at hl
    | some x => rw [TxRules.write_locks (s := s.see t) hx]; exact List.mem_append_left _ hl

theorem Sees.read {P : T.Row → Prop} (h : T.Sees t P s) (takes : List S.Key) : T.Sees t P ((s.see t).write t takes []) :=
  h.aside takes (by simp [touchesAll])

/-- What a session knows is about the committed state, and about its own writes and locks. -/
theorem Sees.of_eq {P : T.Row → Prop} (h : T.Sees t P s) (hdb : s'.db = s.db) (hpend : s'.pend t = s.pend t)
    (hlocks : s'.locks t = s.locks t) : T.Sees t P s' := by
  unfold Sees at h ⊢
  rw [view_eq, hdb, hpend, hlocks, ← view_eq]
  exact h

/-- The row is the session's own, and nothing was counted before it. -/
structure Alone (T : Tally S) (t : Fin n) (s : S.State n Mem Reply) : Prop where
  held : T.key ∈ s.locks t
  none : T.value (T.row s.db) = 0

theorem Alone.rely (h : T.Alone t s) (hk : Keep t s s') : T.Alone t s' :=
  ⟨by rw [hk.locks]; exact h.held, by rw [← T.row_agree _ _ (hk.agree _ h.held)]; exact h.none⟩

theorem Alone.of_eq (h : T.Alone t s) (hdb : s'.db = s.db) (hlocks : s'.locks t = s.locks t) : T.Alone t s' :=
  ⟨by rw [hlocks]; exact h.held, by rw [hdb]; exact h.none⟩

theorem Alone.inside (h : T.Alone t s) : ∃ x, s.tx t = some x := by
  cases hx : s.tx t with
  | none => exact absurd h.held (by simp [State.locks, hx])
  | some x => exact ⟨x, rfl⟩

theorem Alone.write (h : T.Alone t s) (takes : List S.Key) (ws : List S.Write) : T.Alone t ((s.see t).write t takes ws) := by
  obtain ⟨x, hx⟩ := h.inside
  refine ⟨?_, by rw [TxRules.write_db (s := s.see t) hx]; exact h.none⟩
  rw [TxRules.write_locks (s := s.see t) hx]
  exact List.mem_append_left _ h.held

/-- Nothing is in the log then. -/
theorem Alone.log (h : T.Alone t s) (hi : (T.rules claims cond).Inv s) : T.log s.db = [] := by
  have hdata : T.value (T.row s.db) = (T.log s.db).length := hi.data
  rw [h.none] at hdata
  exact List.eq_nil_of_length_eq_zero hdata.symm

/-- The first record is the session's: in the log, or pending in a row of its own. -/
def Claimed (T : Tally S) (t : Fin n) (s : S.State n Mem Reply) : Prop :=
  (T.log s.db).head? = some (t : Nat) ∨
    T.Alone t s ∧ s.aborted t = false ∧ (T.recordsAll (s.pend t)).head? = some (t : Nat)

theorem Claimed.rely (h : T.Claimed t s) (hr : (T.rules claims cond).rules.Rely t s s') : T.Claimed t s' := by
  rcases h with h | ⟨h, hab, hrec⟩
  · have hgrew : T.Grew s.db s'.db := hr.rel
    obtain ⟨l, hl⟩ := hgrew.log
    exact .inl (by rw [← hl, List.head?_append, h]; rfl)
  · refine .inr ⟨h.rely hr.keep, ?_, by rw [hr.keep.pend]; exact hrec⟩
    rw [State.aborted, hr.keep.tx]
    exact hab

theorem Claimed.write (h : T.Claimed t s) (takes : List S.Key) (ws : List S.Write) : T.Claimed t ((s.see t).write t takes ws) := by
  cases hx : s.tx t with
  | none =>
    rw [TxRules.write_tx_none (s := s.see t) hx]
    refine .inl ?_
    have hfirst := h.resolve_right fun ⟨h, _⟩ => by
      obtain ⟨x, hx'⟩ := h.inside
      rw [hx] at hx'; cases hx'
    show (T.log (S.applyAll ws s.db)).head? = _
    rw [log_applyAll, List.head?_append, hfirst]; rfl
  | some x =>
    refine h.imp (fun h => ?_) fun ⟨h, hab, hrec⟩ => ⟨h.write takes ws, ?_, ?_⟩
    · rw [TxRules.write_db (s := s.see t) hx]; exact h
    · rw [TxRules.write_aborted]; exact hab
    · rw [TxRules.write_pend (s := s.see t) hx, recordsAll_append, List.head?_append]
      show ((T.recordsAll (s.pend t)).head?.or _) = _
      rw [hrec]; rfl

theorem Claimed.commitTx (h : T.Claimed t s₃) (hi : (T.rules claims cond).Inv s₃) (hn : s₃.nest t = (s₁.beginTx t).nest t) :
    T.Claimed t (s₃.commitTx t) := by
  cases hx : s₁.tx t with
  | none =>
    rw [TxRules.beginTx_nest, hx] at hn
    obtain ⟨x, hx₃, hsaves, -⟩ := TxRules.nest_some hn
    refine .inl ?_
    rw [TxRules.commitTx_top hx₃ hsaves]
    rcases h with h | ⟨h, hab, hrec⟩
    · split
      · exact h
      · show (T.log (S.applyAll x.writes s₃.db)).head? = _
        rw [log_applyAll, List.head?_append, h]; rfl
    · rw [State.aborted, hx₃] at hab
      rw [if_neg (by rw [show x.failed = false from hab]; simp)]
      show (T.log (S.applyAll x.writes s₃.db)).head? = _
      rw [log_applyAll, h.log hi, List.nil_append, ← pend_of_tx hx₃]
      exact hrec
  | some x =>
    obtain ⟨x₃, hx₃, hc, -⟩ := TxRules.commitTx_inner hx hn
    rw [hc]
    refine h.imp (fun h => h) fun ⟨h, hab, hrec⟩ => ⟨⟨?_, h.none⟩, ?_, ?_⟩
    · have := h.held
      unfold State.locks at this ⊢; rw [setTx_tx_self]; rw [hx₃] at this; exact this
    · unfold State.aborted at hab ⊢; rw [setTx_tx_self]; rw [hx₃] at hab; exact hab
    · unfold State.pend at hrec ⊢; rw [setTx_tx_self]; rw [hx₃] at hrec; exact hrec

/-- Outside a transaction. -/
theorem Claimed.first (h : T.Claimed t s) (hn : s.nest t = none) : (T.log s.db).head? = some (t : Nat) := by
  refine h.resolve_right fun ⟨h, _⟩ => ?_
  obtain ⟨x, hx⟩ := h.inside
  rw [TxRules.nest_none] at hn
  rw [hn] at hx
  cases hx

end Tally

end Concurrency.Schema
