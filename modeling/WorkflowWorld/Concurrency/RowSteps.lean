/-
Rows that go on by steps: a table whose rows are inserted and updated but never deleted. What a
session may make of a row is a step of its own, whatever the others do to the row before or after;
a row is inserted good, and a step keeps it so. Where every statement makes no more of the rows than
its session may, every commit does.
-/
import WorkflowWorld.Concurrency.Sessions

namespace Concurrency.Schema

variable {S : Schema} {n : Nat} {Mem Reply : Type}

/-- A table, and the steps that a session may make of its rows. -/
structure RowSteps (S : Schema) (n : Nat) where
  Id : Type
  Row : Type
  row : Id → S.Db → Option Row
  key : Id → S.Key
  step : Fin n → Id → Row → Row → Prop
  good : Row → Prop
  row_agree : ∀ i d d', S.Agree (key i) d d' → row i d = row i d'
  step_refl : ∀ t i r, step t i r r
  step_trans : ∀ t i a b c, step t i a b → step t i b c → step t i a c
  step_good : ∀ t i r r', good r → step t i r r' → good r'

namespace RowSteps

open State

variable {T : RowSteps S n} {t u : Fin n} {i : T.Id} {ws ws' : List S.Write} {d d' : S.Db}

/-- What session `t` makes of a row, or of the row's absence. -/
structure Moved (T : RowSteps S n) (t : Fin n) (i : T.Id) (o o' : Option T.Row) : Prop where
  kept : ∀ r, o = some r → ∃ r', o' = some r' ∧ T.step t i r r'
  born : o = none → ∀ r', o' = some r' → T.good r'

theorem Moved.refl (o : Option T.Row) : T.Moved t i o o :=
  ⟨fun r hr => ⟨r, hr, T.step_refl t i r⟩, fun ho r hr => by rw [ho] at hr; cases hr⟩

theorem Moved.of_same {o o' : Option T.Row} (h : o' = o) : T.Moved t i o o' := by
  rw [h]; exact .refl o

/-- A row that is inserted. -/
theorem Moved.of_born {o o' : Option T.Row} {r : T.Row} (ho : o = none) (ho' : o' = some r) (hr : T.good r) : T.Moved t i o o' := by
  refine ⟨fun r₀ hr₀ => ?_, fun _ r' hr' => ?_⟩
  · rw [ho] at hr₀; cases hr₀
  · cases ho'.symm.trans hr'; exact hr

/-- A row that is changed in place. -/
theorem Moved.of_step {o o' : Option T.Row} {r r' : T.Row} (ho : o = some r) (ho' : o' = some r') (hs : T.step t i r r') :
    T.Moved t i o o' := by
  refine ⟨fun r₀ hr₀ => ?_, fun hnone => ?_⟩
  · cases ho.symm.trans hr₀; exact ⟨r', ho', hs⟩
  · rw [ho] at hnone; cases hnone

theorem Moved.trans {a b c : Option T.Row} (h₁ : T.Moved t i a b) (h₂ : T.Moved t i b c) : T.Moved t i a c := by
  refine ⟨fun r hr => ?_, fun ha r'' hr'' => ?_⟩
  · obtain ⟨r', hr', hs⟩ := h₁.kept r hr
    obtain ⟨r'', hr'', hs'⟩ := h₂.kept r' hr'
    exact ⟨r'', hr'', T.step_trans t i r r' r'' hs hs'⟩
  · cases hb : b with
    | none => exact h₂.born hb r'' hr''
    | some r' =>
      obtain ⟨r₁, hr₁, hs⟩ := h₂.kept r' hb
      cases hr₁.symm.trans hr''
      exact T.step_good t i r' _ (h₁.born ha r' hb) hs

/-- What session `t` makes of the table. -/
def Moves (T : RowSteps S n) (t : Fin n) (d d' : S.Db) : Prop := ∀ i, T.Moved t i (T.row i d) (T.row i d')

/-- Every row is good. -/
def Good (T : RowSteps S n) (d : S.Db) : Prop := ∀ i r, T.row i d = some r → T.good r

/-- Every row goes on by the sessions' steps. -/
def Goes (T : RowSteps S n) (d d' : S.Db) : Prop :=
  ∀ i r, T.row i d = some r → ∃ r', T.row i d' = some r' ∧ Relation.ReflTransGen (fun a b => ∃ t, T.step t i a b) r r'

theorem Moves.goes (h : T.Moves t d d') : T.Goes d d' := by
  intro i r hr
  obtain ⟨r', hr', hs⟩ := (h i).kept r hr
  exact ⟨r', hr', .single ⟨t, hs⟩⟩

theorem Moves.good (h : T.Moves t d d') (hd : T.Good d) : T.Good d' := by
  intro i r' hr'
  cases hr : T.row i d with
  | none => exact (h i).born hr r' hr'
  | some r =>
    obtain ⟨r₁, hr₁, hs⟩ := (h i).kept r hr
    cases hr₁.symm.trans hr'
    exact T.step_good t i r _ (hd i r hr) hs

/-- What every step is, a row's whole way is, if it is closed under composition. -/
theorem Goes.related {P : T.Row → T.Row → Prop} (h : T.Goes d d') (hrefl : ∀ r, P r r) (htrans : ∀ a b c, P a b → P b c → P a c)
    (hstep : ∀ t a b, T.step t i a b → P a b) {r : T.Row} (hr : T.row i d = some r) : ∃ r', T.row i d' = some r' ∧ P r r' := by
  obtain ⟨r', hr', hsteps⟩ := h i r hr
  refine ⟨r', hr', ?_⟩
  clear hr'
  induction hsteps with
  | refl => exact hrefl r
  | tail _ hs ih =>
    obtain ⟨t, hs⟩ := hs
    exact htrans _ _ _ ih (hstep t _ _ hs)

/-- Writes that touch no row of the table. -/
theorem row_applyAll {i : T.Id} (h : T.key i ∉ S.touchesAll ws) (d : S.Db) : T.row i (S.applyAll ws d) = T.row i d :=
  (T.row_agree i _ _ (agree_applyAll ws d h)).symm

/-- Writes that touch no row. -/
theorem Moves.of_untouched (h : ∀ i, T.key i ∉ S.touchesAll ws) (d : S.Db) : T.Moves t d (S.applyAll ws d) :=
  fun i => .of_same (row_applyAll (h i) d)

/-- A write of one row: it inserts a good one, or changes one by a step. -/
theorem Moves.of_single {w : S.Write} {i : T.Id} {r' : T.Row} (hi : T.row i (S.apply w d) = some r')
    (hother : ∀ j, j ≠ i → T.row j (S.apply w d) = T.row j d)
    (h : T.row i d = none ∧ T.good r' ∨ ∃ r, T.row i d = some r ∧ T.step t i r r') : T.Moves t d (S.applyAll [w] d) := by
  intro j
  show T.Moved t j (T.row j d) (T.row j (S.apply w d))
  by_cases hj : j = i
  · subst hj
    rcases h with ⟨hnone, hgood⟩ | ⟨r, hr, hs⟩
    · exact .of_born hnone hi hgood
    · exact .of_step hr hi hs
  · exact .of_same (hother j hj)

/-- Another session's commit leaves what a pending transaction makes of the rows: at most one of the two
touches a row. -/
theorem Moves.others (h : T.Moves u d (S.applyAll ws' d)) (hex : ∀ k ∈ S.touchesAll ws, k ∉ S.touchesAll ws') :
    T.Moves u (S.applyAll ws d) (S.applyAll ws' (S.applyAll ws d)) := by
  intro i
  by_cases hk : T.key i ∈ S.touchesAll ws'
  · have hnot : T.key i ∉ S.touchesAll ws := fun hin => hex _ hin hk
    rw [row_applyAll hnot d, ← T.row_agree i _ _ (agree_applyAll_congr ws' _ _ (agree_applyAll ws d hnot))]
    exact h i
  · rw [row_applyAll hk]
    exact .refl _

/-- The rules: every commit moves the rows by its session's steps. -/
def rules (T : RowSteps S n) (cond : Fin n → S.Op Mem Reply → S.State n Mem Reply → Prop) : TxRules S n Mem Reply where
  data := T.Good
  draft t ws _ d := T.Moves t d (S.applyAll ws d)
  steady _ _ := True
  ready _ _ := True
  inert w := ∀ i, T.key i ∉ S.touches w
  grows := T.Goes
  spares _ _ _ := True
  effect := T.Moves
  answer _ _ _ _ _ := True
  cond := cond
  recalls := False
  grows_refl _ _ r hr := ⟨r, hr, .refl⟩
  grows_trans _ _ _ h₁ h₂ i r hr := by
    obtain ⟨r', hr', hs⟩ := h₁ i r hr
    obtain ⟨r'', hr'', hs'⟩ := h₂ i r' hr'
    exact ⟨r'', hr'', hs.trans hs'⟩
  spares_refl _ _ := trivial
  spares_trans _ _ _ _ _ _ := trivial
  effect_refl _ _ _ := .refl _
  effect_spares _ _ _ _ _ _ := trivial
  draft_nil _ _ _ _ := .refl _
  draft_inert t ws _ new _ d h hn i := by
    have hnew : T.key i ∉ S.touchesAll new := fun hin => by
      obtain ⟨w, hw, hk⟩ := List.mem_flatMap.1 hin
      exact hn w hw i hk
    rw [applyAll_append, row_applyAll hnew]
    exact h i
  steady_nil _ := trivial
  steady_inert _ _ _ _ _ := trivial
  ready_inert _ _ _ := trivial
  spares_inert _ _ _ _ := trivial
  publish _ _ _ _ hd h _ := ⟨h.good hd, h.goes, h⟩
  others _ ws _ _ ws' _ d _ _ _ _ h' hks hw hw' := h'.others fun k hk hk' => hks k (hw k hk) (hw' k hk')
  ext d d' hd he := by
    have hag : ∀ i, T.row i d = T.row i d' := fun i => T.row_agree i _ _ (S.agree_ext _ _ _ he)
    exact ⟨fun i r hr => hd i r ((hag i).trans hr), fun i r hr => ⟨r, (hag i).symm.trans hr, .refl⟩, fun _ => trivial⟩
  ext_draft _ ws _ d d' h he i := by
    rw [← T.row_agree i _ _ (S.agree_ext _ _ _ he), ← T.row_agree i _ _ (agree_applyAll_congr ws _ _ (S.agree_ext _ _ _ he))]
    exact h i
  answer_grows _ _ _ _ _ _ h _ := h

variable {cond : Fin n → S.Op Mem Reply → S.State n Mem Reply → Prop}

/-- A statement that makes no more of the rows it sees than its session may. -/
theorem admits_of_moves {A : S.State n Mem Reply → Prop} {q : S.Query}
    (hq : ∀ s pick, cond t (.query q) s → T.Moves t (s.view t) (S.applyAll (S.plan q pick (s.clock t) (s.view t)).writes (s.view t))) :
    (T.rules cond).Admits t A (fun _ _ => True) q := by
  intro s pick a _ hi _ _ hc _ _
  refine ⟨⟨fun i => ?_, fun _ => trivial⟩, trivial, trivial⟩
  have hpend : T.Moved t i (T.row i s.db) (T.row i (s.view t)) := by
    rw [view_eq]
    exact hi.draft_pend t i
  rw [applyAll_append, ← view_eq]
  exact hpend.trans (hq s pick hc i)

/-- In every run from a safe configuration the rows stay good and go on by steps. -/
theorem goes_of_safe {ε : Type} {C₀ C C' : Config (Fin n) (S.Op Mem Reply) Op.Res (S.State n Mem Reply) ε}
    (hsafe : (T.rules cond).rules.Safe C₀) (h : Reaches (S.machine n Mem Reply) cond C₀ C)
    (h' : Reaches (S.machine n Mem Reply) cond C C') : T.Good C.st.db ∧ T.Goes C.st.db C'.st.db := by
  obtain ⟨hC, -⟩ := hsafe.reaches TxRules.tolerates h
  exact ⟨hC.inv.data, (hC.reaches TxRules.tolerates h').2⟩

end RowSteps

end Concurrency.Schema
