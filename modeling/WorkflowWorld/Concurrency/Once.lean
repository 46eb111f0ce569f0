/-
Calls that are all or nothing: a session publishes at most once, and what it publishes then is
`good`; a call that throws has published nothing. The rules say nothing of the other sessions, so
that only the session itself is followed: a transaction of its may write anything, and what has to be
shown is what is pending where it commits.
-/
import WorkflowWorld.Concurrency.Record
import WorkflowWorld.Concurrency.Sessions

namespace Concurrency.Schema

open Rules State

variable {S : Schema} {n : Nat} {Mem Reply : Type}

/-- Session `t₀` publishes once, something `good`, and has published nothing where its answer is a throw. -/
def once (t₀ : Fin n) (good : List S.Write → Prop) (thrown : Reply → Prop)
    (cond : Fin n → S.Op Mem Reply → S.State n Mem Reply → Prop) : Rules (S.machine n Mem Reply) where
  inv s := ∀ a ∈ s.replies, a.who = t₀ → thrown a.reply → a.wrote = false
  cond := cond
  rel _ _ := True
  guar t s s' := t = t₀ → s'.db = s.db ∨ s.wrote t₀ = false ∧ ∃ ws, good ws ∧ s'.db = S.applyAll ws s.db
  spares _ _ _ := True
  rel_refl _ := trivial
  rel_trans _ _ _ _ _ := trivial
  spares_refl _ _ := trivial
  spares_trans _ _ _ _ _ _ := trivial
  guar_spares _ _ _ _ _ _ := trivial

/-- Session `t` is at the savepoints `N`, has published nothing, and has pending only what is `ok`. -/
structure Holding (ok : S.Write → Prop) (t : Fin n) (N : Option (List S.Mark × Nat)) (s : S.State n Mem Reply) : Prop where
  nest : s.nest t = N
  wrote : s.wrote t = false
  pend : ∀ w ∈ s.pend t, ok w

namespace Once

variable {t₀ t : Fin n} {good : List S.Write → Prop} {thrown : Reply → Prop}
  {cond : Fin n → S.Op Mem Reply → S.State n Mem Reply → Prop} {ok : S.Write → Prop}
  {N : Option (List S.Mark × Nat)} {s s' : S.State n Mem Reply}

theorem tolerates : (once t₀ good thrown cond).Tolerates where
  crash _ _ _ hi := ⟨hi, trivial, fun _ => .inl rfl⟩
  env s s' _ hi he := by
    refine ⟨?_, trivial, fun _ => trivial⟩
    cases he <;> exact hi

/-- The other sessions. -/
theorem wp_other {ε α : Type} (ht : t ≠ t₀) (p : Prog (S.Op Mem Reply) Op.Res ε α) (s : S.State n Mem Reply) :
    (once t₀ good thrown cond).wp t p (fun _ _ => True) (fun _ _ => True) s := by
  induction p generalizing s with
  | pure a => trivial
  | throw e => trivial
  | op o k ih =>
    intro s₁ _ hi _ _ ch r s₂ he
    refine ⟨⟨fun a ha hwho => ?_, trivial, fun h => absurd h ht⟩, ih r s₂⟩
    rcases (recorded_exec he).replies with h | ⟨-, b, h, hb, -⟩
    · rw [h] at ha; exact hi a ha hwho
    · rw [h, List.mem_append, List.mem_singleton] at ha
      rcases ha with ha | rfl
      · exact hi a ha hwho
      · exact absurd (hb.symm.trans hwho) ht

theorem ok_same (hi : (once t₀ good thrown cond).inv s) (hdb : s'.db = s.db) (hr : s'.replies = s.replies) :
    (once t₀ good thrown cond).Ok t s s' :=
  ⟨by intro a ha; rw [hr] at ha; exact hi a ha, trivial, fun _ => .inl hdb⟩

/-! ## What the session holds -/

theorem keep (h : Holding ok t N s) (hk : Keep t s s') : Holding ok t N s' :=
  ⟨(TxRules.nest_of_tx hk.tx).trans h.nest, hk.wrote.trans h.wrote, by rw [hk.pend]; exact h.pend⟩

theorem mono {ok' : S.Write → Prop} (h : Holding ok t N s) (hok : ∀ w, ok w → ok' w) : Holding ok' t N s :=
  ⟨h.nest, h.wrote, fun w hw => hok w (h.pend w hw)⟩

theorem fail_holding (h : Holding ok t N s) : Holding ok t N (s.fail t) := by
  refine ⟨?_, ?_, by rw [fail_pend]; exact h.pend⟩
  · rw [← h.nest]; unfold State.fail State.nest; cases hx : s.tx t <;> simp [hx]
  · rw [← h.wrote]; unfold State.fail; cases s.tx t <;> rfl

theorem fail_replies (s : S.State n Mem Reply) (t : Fin n) : (s.fail t).replies = s.replies := by
  unfold State.fail; cases s.tx t <;> rfl

theorem see_holding (h : Holding ok t N s) : Holding ok t N (s.see t) := ⟨h.nest, h.wrote, h.pend⟩

/-- A statement's writes: pending inside a transaction; outside one there must be none. -/
theorem write_holding (takes : List S.Key) {ws : List S.Write} (h : Holding ok t N s) (hN : N ≠ none ∨ ws = [])
    (hws : ∀ w ∈ ws, ok w) : Holding ok t N ((s.see t).write t takes ws) ∧
      ((s.see t).write t takes ws).pend t = s.pend t ++ ws ∧ ((s.see t).write t takes ws).db = s.db ∧
      ((s.see t).write t takes ws).replies = s.replies := by
  cases hx : s.tx t with
  | none =>
    obtain rfl : ws = [] := hN.resolve_left fun hne => hne (by rw [← h.nest]; exact TxRules.nest_none.2 hx)
    have hw : (s.see t).write t takes [] = (s.see t).publish t [] := TxRules.write_tx_none (s := s.see t) hx ..
    rw [hw, List.append_nil]
    exact ⟨⟨h.nest, by simp [publish, see, h.wrote], h.pend⟩, rfl, rfl, rfl⟩
  | some x =>
    have hp := TxRules.write_pend (s := s.see t) hx takes ws
    have hin : (s.see t).nest t ≠ none := by
      intro hn
      have := TxRules.nest_none.1 hn
      rw [see_tx, hx] at this
      cases this
    refine ⟨⟨(TxRules.write_nest ..).trans h.nest, ?_, fun w hw => ?_⟩, hp, TxRules.write_db (s := s.see t) hx .., ?_⟩
    · rw [(TxRules.write_rest (s.see t) t takes ws).2.2 hin]; exact h.wrote
    · rw [hp] at hw; exact (List.mem_append.1 hw).elim (h.pend w) (hws w)
    · unfold State.write; simp [hx, see, setTx]

/-! ## Its programs -/

section Programs

variable {ε α : Type} {wrap : SqlError S.Viol → ε}

/-- A statement: outside a transaction it writes nothing, or something good. -/
theorem wp_statement (q : S.Query) {Q : S.Ans q → S.State n Mem Reply → Prop} {E : ε → S.State n Mem Reply → Prop}
    (h : Holding ok t₀ N s)
    (hok : ∀ s₁ pick a, Holding ok t₀ N s₁ → cond t₀ (.query q) s₁ → (S.plan q pick (s₁.clock t₀) (s₁.view t₀)).ans = .ok a →
      (N ≠ none ∨ (S.plan q pick (s₁.clock t₀) (s₁.view t₀)).writes = [] ∨
        good (S.plan q pick (s₁.clock t₀) (s₁.view t₀)).writes) ∧
      Q a ((s₁.see t₀).write t₀ (S.plan q pick (s₁.clock t₀) (s₁.view t₀)).takes
        (S.plan q pick (s₁.clock t₀) (s₁.view t₀)).writes))
    (herr : ∀ s₁ e, Holding ok t₀ N s₁ → E (wrap e) s₁) :
    (once t₀ good thrown cond).wp t₀ (statement wrap q) Q E s := by
  intro s₁ _ hi hr hc ch r s₂ he
  have h₁ := keep h hr.keep
  rcases runQuery_cases he with ⟨e, rfl, hs, -⟩ | ⟨a, rfl, ha, -, -, rfl⟩
  · rcases hs with rfl | rfl | rfl
    · exact ⟨ok_same hi rfl rfl, herr _ e h₁⟩
    · exact ⟨ok_same hi (fail_db ..) (fail_replies ..), herr _ e (fail_holding h₁)⟩
    · exact ⟨ok_same hi (fail_db ..) (fail_replies ..), herr _ e (fail_holding (see_holding h₁))⟩
  · obtain ⟨hw, hq⟩ := hok s₁ ch.pick a h₁ hc ha
    refine ⟨?_, hq⟩
    by_cases hin : N ≠ none ∨ (S.plan q ch.pick (s₁.clock t₀) (s₁.view t₀)).writes = []
    · have hany : Holding (fun _ => True) t₀ N s₁ := mono h₁ fun _ _ => trivial
      obtain ⟨-, -, hdb, hrep⟩ := write_holding (S.plan q ch.pick (s₁.clock t₀) (s₁.view t₀)).takes hany hin fun _ _ => trivial
      exact ok_same hi hdb hrep
    · rw [not_or, not_not] at hin
      have hgood := (hw.resolve_left (not_not.2 hin.1)).resolve_left hin.2
      rw [TxRules.write_tx_none (s := s₁.see t₀) (TxRules.nest_none.1 (h₁.nest.trans hin.1))]
      exact ⟨hi, trivial, fun _ => .inr ⟨h₁.wrote, _, hgood, rfl⟩⟩

/-- An operation on the session's own memory, or a look at the clock. -/
theorem wp_op {o : S.Op Mem Reply} {k : o.Res → Prog (S.Op Mem Reply) Op.Res ε α} {Q : α → S.State n Mem Reply → Prop}
    {E : ε → S.State n Mem Reply → Prop} (h : Holding ok t₀ N s)
    (hop : ∀ s₁ ch r s₂, State.exec t₀ ch o s₁ = some (r, s₂) → s₂.db = s₁.db ∧ s₂.replies = s₁.replies ∧ s₂.tx = s₁.tx ∧
      s₂.wrote = s₁.wrote)
    (hk : ∀ r s₂, Holding ok t₀ N s₂ → (once t₀ good thrown cond).wp t₀ (k r) Q E s₂) :
    (once t₀ good thrown cond).wp t₀ (.op o k) Q E s := by
  intro s₁ _ hi hr _ ch r s₂ he
  have h₁ := keep h hr.keep
  obtain ⟨h1, h2, h3, h4⟩ := hop s₁ ch r s₂ he
  refine ⟨ok_same hi h1 h2, hk r s₂ ⟨?_, ?_, ?_⟩⟩
  · rw [← h₁.nest]; exact TxRules.nest_of_tx (congrFun h3 t₀)
  · rw [h4]; exact h₁.wrote
  · unfold State.pend; rw [h3]; exact h₁.pend

/-- A transaction inside another one, or one that writes nothing. -/
theorem wp_inner {body : Prog (S.Op Mem Reply) Op.Res ε α} (hN : N ≠ none ∨ ∀ w, ¬ok w)
    (hbody : ∀ N s, N ≠ none → Holding ok t₀ N s →
      (once t₀ good thrown cond).wp t₀ body (fun _ => Holding ok t₀ N) (fun _ => Holding ok t₀ N) s)
    (h : Holding ok t₀ N s) :
    (once t₀ good thrown cond).wp t₀ (transaction body) (fun _ => Holding ok t₀ N) (fun _ => Holding ok t₀ N) s := by
  intro s₁ _ hi hr _ ch r s₂ he
  cases he
  have h₁ := keep h hr.keep
  obtain ⟨y, hy, -, hp, -⟩ := TxRules.beginTx_tx s₁ t₀
  have hb : Holding ok t₀ ((s₁.beginTx t₀).nest t₀) (s₁.beginTx t₀) :=
    ⟨rfl, by rw [(TxRules.beginTx_rest s₁ t₀).2.2]; exact h₁.wrote, by rw [hp]; exact h₁.pend⟩
  refine ⟨ok_same hi (TxRules.beginTx_db ..) (TxRules.beginTx_replies ..), ?_⟩
  rw [wp_bind, wp_tryCatch]
  refine wp_mono ?_ ?_ _ _ (hbody _ _ (by rw [TxRules.beginTx_nest]; simp) hb)
  · intro a s₂ h₂ s₃ _ hi₃ hr₃ _ _ r₃ s₄ he₃
    cases he₃
    have h₃ := keep h₂ hr₃.keep
    have hn := TxRules.commitTx_nest h₃.nest
    cases hx : s₁.tx t₀ with
    | none =>
      have hnone := TxRules.nest_none.2 hx
      have hnil : s₃.pend t₀ = [] := by
        refine List.eq_nil_iff_forall_not_mem.2 fun w hw => ?_
        exact hN.elim (fun hne => hne (h₁.nest.symm.trans hnone)) fun hno => hno w (h₃.pend w hw)
      have hp4 : (s₃.commitTx t₀).pend t₀ = [] := by
        unfold State.pend; rw [TxRules.nest_none.1 (hn.trans hnone)]
      rcases TxRules.commitTx_outer hx h₃.nest with hc | hc
      · rw [hc] at hn hp4 ⊢
        exact ⟨ok_same hi₃ rfl rfl, hn.trans h₁.nest, h₃.wrote, by rw [hp4]; simp⟩
      · rw [hc, hnil] at hn hp4 ⊢
        exact ⟨ok_same hi₃ rfl rfl, hn.trans h₁.nest, by simp [publish, setTx, h₃.wrote], by rw [hp4]; simp⟩
    | some x =>
      obtain ⟨x₃, hx₃, hc, -⟩ := TxRules.commitTx_inner hx h₃.nest
      have hp4 : (s₃.commitTx t₀).pend t₀ = s₃.pend t₀ := by rw [hc]; unfold State.pend; rw [setTx_tx_self, hx₃]
      rw [hc] at hn hp4 ⊢
      exact ⟨ok_same hi₃ rfl rfl, hn.trans h₁.nest, h₃.wrote, by rw [hp4]; exact h₃.pend⟩
  · intro e s₂ h₂ s₃ _ hi₃ hr₃ _ _ r₃ s₄ he₃
    cases he₃
    have h₃ := keep h₂ hr₃.keep
    have htx := TxRules.rollbackTx_tx h₃.nest
    refine ⟨ok_same hi₃ (TxRules.rollbackTx_db ..) ?_, (TxRules.nest_of_tx htx).trans h₁.nest, ?_, ?_⟩
    · unfold State.rollbackTx
      split
      · rfl
      · split <;> rfl
    · rw [(TxRules.rollbackTx_rest s₃ t₀).2.2]; exact h₃.wrote
    · unfold State.pend; rw [htx]; exact h₁.pend

/-- A program built of statements whose writes are `ok`, where they are not published. -/
theorem wp_of_built [Recoverable ε] {P : S.Op Mem Reply → Prop} {B : (α : Type) → Prog (S.Op Mem Reply) Op.Res ε α → Prop}
    (hP : ∀ q, P (.query q) → ∀ pick now d, ∀ w ∈ (S.plan q pick now d).writes, ok w)
    (hB : ∀ (α : Type) (p : Prog (S.Op Mem Reply) Op.Res ε α), B α p → ∀ N s, (N ≠ none ∨ ∀ w, ¬ok w) → Holding ok t₀ N s →
      (once t₀ good thrown cond).wp t₀ p (fun _ => Holding ok t₀ N) (fun _ => Holding ok t₀ N) s)
    {p : Prog (S.Op Mem Reply) Op.Res ε α} (hp : Built P B p) (hN : N ≠ none ∨ ∀ w, ¬ok w) (h : Holding ok t₀ N s) :
    (once t₀ good thrown cond).wp t₀ p (fun _ => Holding ok t₀ N) (fun _ => Holding ok t₀ N) s := by
  induction hp generalizing N s with
  | pure a => exact h
  | throw e => exact h
  | block hb => exact hB _ _ hb N s hN h
  | query q k hq _ ih =>
    intro s₁ _ hi hr _ ch r s₂ he
    have h₁ := keep h hr.keep
    rcases runQuery_cases he with ⟨e, rfl, hs, -⟩ | ⟨a, rfl, -, -, -, rfl⟩
    · rcases hs with rfl | rfl | rfl
      · exact ⟨ok_same hi rfl rfl, ih _ hN h₁⟩
      · exact ⟨ok_same hi (fail_db ..) (fail_replies ..), ih _ hN (fail_holding h₁)⟩
      · exact ⟨ok_same hi (fail_db ..) (fail_replies ..), ih _ hN (fail_holding (see_holding h₁))⟩
    · have hw := hP q hq ch.pick (s₁.clock t₀) (s₁.view t₀)
      obtain ⟨h₂, -, hdb, hrep⟩ := write_holding (S.plan q ch.pick (s₁.clock t₀) (s₁.view t₀)).takes h₁
        (hN.imp_right fun hno => List.eq_nil_iff_forall_not_mem.2 fun w hw' => hno w (hw w hw')) hw
      exact ⟨ok_same hi hdb hrep, ih _ hN h₂⟩
  | clock k _ ih => exact wp_op h (fun _ _ _ _ he => by cases he; exact ⟨rfl, rfl, rfl, rfl⟩) fun r _ h' => ih r hN h'
  | load k _ ih => exact wp_op h (fun _ _ _ _ he => by cases he; exact ⟨rfl, rfl, rfl, rfl⟩) fun r _ h' => ih r hN h'
  | store m k _ _ ih => exact wp_op h (fun _ _ _ _ he => by cases he; exact ⟨rfl, rfl, rfl, rfl⟩) fun r _ h' => ih r hN h'
  | bind _ _ ihp ihf =>
    rw [wp_bind]
    exact wp_mono (fun a s' h' => ihf a hN h') (fun _ _ h' => h') _ _ (ihp hN h)
  | tryCatch _ _ hthrow ihp ihf =>
    rw [wp_tryCatch]
    refine wp_mono (fun _ _ h' => h') (fun e s' h' => ?_) _ _ (ihp hN h)
    by_cases hc : caught e
    · exact ihf e hc hN h'
    · rw [hthrow e hc]; exact h'
  | transaction _ ih => exact wp_inner hN (fun N s hN' h' => ih (.inl hN') h') h

/-- The session's one transaction: nothing is pending where it commits, or something good, where `F` tells so. -/
theorem wp_outer {body : Prog (S.Op Mem Reply) Op.Res ε α} {F : α → Prop}
    (hbody : ∀ c s, Holding (fun _ => False) t₀ (some ([], c)) s →
      (once t₀ good thrown cond).wp t₀ body
        (fun a s' => Holding (fun _ => True) t₀ (some ([], c)) s' ∧ (s'.pend t₀ = [] ∨ F a ∧ good (s'.pend t₀)))
        (fun _ => Holding (fun _ => True) t₀ (some ([], c))) s)
    (h : Holding (fun _ => False) t₀ none s) :
    (once t₀ good thrown cond).wp t₀ (transaction body) (fun a s' => ¬F a → Holding (fun _ => False) t₀ none s')
      (fun _ => Holding (fun _ => False) t₀ none) s := by
  intro s₁ _ hi hr _ ch r s₂ he
  cases he
  have h₁ := keep h hr.keep
  have hx := TxRules.nest_none.1 h₁.nest
  obtain ⟨y, hy, -, hp, -⟩ := TxRules.beginTx_tx s₁ t₀
  have hnest : (s₁.beginTx t₀).nest t₀ = some ([], s₁.now) := by rw [TxRules.beginTx_nest, hx]
  have hb : Holding (fun _ => False) t₀ (some ([], s₁.now)) (s₁.beginTx t₀) :=
    ⟨hnest, by rw [(TxRules.beginTx_rest s₁ t₀).2.2]; exact h₁.wrote, by rw [hp]; exact h₁.pend⟩
  have hidle : ∀ s₄ : S.State n Mem Reply, s₄.tx t₀ = none → s₄.wrote t₀ = false → Holding (fun _ => False) t₀ none s₄ :=
    fun s₄ h4 hw => ⟨TxRules.nest_none.2 h4, hw, fun w hw => by unfold State.pend at hw; rw [h4] at hw; cases hw⟩
  refine ⟨ok_same hi (TxRules.beginTx_db ..) (TxRules.beginTx_replies ..), ?_⟩
  rw [wp_bind, wp_tryCatch]
  refine wp_mono ?_ ?_ _ _ (hbody _ _ hb)
  · rintro a s₂ ⟨h₂, hpend⟩ s₃ _ hi₃ hr₃ _ _ r₃ s₄ he₃
    cases he₃
    have h₃ := keep h₂ hr₃.keep
    rw [← hr₃.keep.pend] at hpend
    rcases TxRules.commitTx_outer hx (h₃.nest.trans hnest.symm) with hc | hc
    · rw [hc]
      exact ⟨ok_same hi₃ rfl rfl, fun _ => hidle _ (setTx_tx_self ..) h₃.wrote⟩
    · rw [hc]
      rcases hpend with hnil | ⟨hF, hgood⟩
      · rw [hnil]
        exact ⟨ok_same hi₃ rfl rfl, fun _ => hidle _ (setTx_tx_self ..) (by simp [publish, setTx, h₃.wrote])⟩
      · exact ⟨⟨hi₃, trivial, fun _ => .inr ⟨h₃.wrote, _, hgood, rfl⟩⟩, fun hnot => absurd hF hnot⟩
  · intro e s₂ h₂ s₃ _ hi₃ hr₃ _ _ r₃ s₄ he₃
    cases he₃
    have h₃ := keep h₂ hr₃.keep
    have htx := TxRules.rollbackTx_tx (h₃.nest.trans hnest.symm)
    refine ⟨ok_same hi₃ (TxRules.rollbackTx_db ..) ?_, hidle _ (htx.trans hx) ?_⟩
    · unfold State.rollbackTx
      split
      · rfl
      · split <;> rfl
    · rw [(TxRules.rollbackTx_rest s₃ t₀).2.2]; exact h₃.wrote

end Programs

/-- What a step of the session does, and that a throw is the answer of a session that left the data alone. -/
theorem step_of_safe {ε : Type} {C C₁ : Config (Fin n) (S.Op Mem Reply) Op.Res (S.State n Mem Reply) ε}
    (hC : (once t₀ good thrown cond).Safe C) (hs : Step (S.machine n Mem Reply) cond (some t₀) C C₁) :
    (C₁.st.db = C.st.db ∨ C.st.wrote t₀ = false ∧ ∃ ws, good ws ∧ C₁.st.db = S.applyAll ws C.st.db) ∧
      ∀ C', Reaches (S.machine n Mem Reply) cond C₁ C' → (∀ a ∈ C.st.replies, a.who ≠ t₀) →
        (∃ a ∈ C'.st.replies, a.who = t₀ ∧ thrown a.reply) → C₁.st.db = C.st.db := by
  obtain ⟨hC₁, -, hguar⟩ := hC.step tolerates hs
  refine ⟨hguar t₀ rfl rfl, fun C' hr hnew ⟨a, ha, hwho, hthrown⟩ => ?_⟩
  exact db_of_not_wrote hs hr hnew ha hwho ((hC₁.reaches tolerates hr).1.inv a ha hwho hthrown)

end Once

end Concurrency.Schema
