/-
Programs of a session as a whole: a program built of statements, of blocks that are proved by
themselves and of transactions keeps the rules of a claim when its statements and blocks do, and
whatever relation between its states they keep.
-/
import WorkflowWorld.Concurrency.TxRules

namespace Concurrency.Schema

open Rules

variable {S : Schema} {n : Nat} {Mem Reply : Type}

/-- The errors that programs catch to go on; any other is thrown on. -/
class Recoverable (ε : Type) where
  caught : ε → Prop

export Recoverable (caught)

section Built

variable {ε : Type} [Recoverable ε]

/-- A program built of statements and memory writes `P`, of blocks `B` and of whole transactions. -/
inductive Built (P : S.Op Mem Reply → Prop) (B : (α : Type) → Prog (S.Op Mem Reply) Op.Res ε α → Prop) :
    ∀ {α : Type}, Prog (S.Op Mem Reply) Op.Res ε α → Prop
  | pure {α : Type} (a : α) : Built P B (.pure a)
  | throw {α : Type} (e : ε) : Built P B (.throw e : Prog (S.Op Mem Reply) Op.Res ε α)
  | block {α : Type} {p : Prog (S.Op Mem Reply) Op.Res ε α} (h : B α p) : Built P B p
  | query {α : Type} (q : S.Query) (k : Op.Res (.query q : S.Op Mem Reply) → Prog (S.Op Mem Reply) Op.Res ε α)
      (h : P (.query q)) (hk : ∀ r, Built P B (k r)) : Built P B (.op (.query q) k)
  | clock {α : Type} (k : Nat → Prog (S.Op Mem Reply) Op.Res ε α) (hk : ∀ r, Built P B (k r)) : Built P B (.op .clock k)
  | load {α : Type} (k : Mem → Prog (S.Op Mem Reply) Op.Res ε α) (hk : ∀ r, Built P B (k r)) : Built P B (.op .load k)
  | store {α : Type} (m : Mem) (k : Unit → Prog (S.Op Mem Reply) Op.Res ε α) (h : P (.store m))
      (hk : ∀ r, Built P B (k r)) : Built P B (.op (.store m) k)
  | bind {α β : Type} {p : Prog (S.Op Mem Reply) Op.Res ε α} {f : α → Prog (S.Op Mem Reply) Op.Res ε β}
      (hp : Built P B p) (hf : ∀ a, Built P B (f a)) : Built P B (p >>= f)
  | tryCatch {α : Type} {p : Prog (S.Op Mem Reply) Op.Res ε α} {f : ε → Prog (S.Op Mem Reply) Op.Res ε α}
      (hp : Built P B p) (hf : ∀ e, caught e → Built P B (f e)) (hthrow : ∀ e, ¬caught e → f e = .throw e) :
      Built P B (tryCatch p f)
  | transaction {α : Type} {p : Prog (S.Op Mem Reply) Op.Res ε α} (hp : Built P B p) : Built P B (transaction p)

variable {P P' : S.Op Mem Reply → Prop} {B B' : (α : Type) → Prog (S.Op Mem Reply) Op.Res ε α → Prop}

theorem Built.statement (wrap : SqlError S.Viol → ε) {q : S.Query} (h : P (.query q)) :
    Built P B (statement wrap q : Prog (S.Op Mem Reply) Op.Res ε (S.Ans q)) := by
  refine .query q _ h fun r => ?_
  cases r with
  | ok a => exact .pure a
  | error e => exact .throw _

theorem Built.ite {α : Type} {a b : Prog (S.Op Mem Reply) Op.Res ε α} {c : Prop} [Decidable c] (ha : Built P B a)
    (hb : Built P B b) : Built P B (if c then a else b) := by
  by_cases h : c
  · rw [if_pos h]; exact ha
  · rw [if_neg h]; exact hb

/-- The blocks of a program may be opened. -/
theorem Built.expand (hP : ∀ o, P o → P' o)
    (hB : ∀ (α : Type) (p : Prog (S.Op Mem Reply) Op.Res ε α), B α p → Built P' B' p)
    {α : Type} {p : Prog (S.Op Mem Reply) Op.Res ε α} (h : Built P B p) : Built P' B' p := by
  induction h with
  | pure a => exact .pure a
  | throw e => exact .throw e
  | block h => exact hB _ _ h
  | query q k h _ ih => exact .query q k (hP _ h) ih
  | clock k _ ih => exact .clock k ih
  | load k _ ih => exact .load k ih
  | store m k h _ ih => exact .store m k (hP _ h) ih
  | bind _ _ ihp ihf => exact .bind ihp ihf
  | tryCatch _ _ hthrow ihp ihf => exact .tryCatch ihp ihf hthrow
  | transaction _ ih => exact .transaction ih

/-- The operations beside statements and memory writes. -/
def Op.Bracket : S.Op Mem Reply → Prop
  | .begin | .commit | .rollback | .clock | .load => True
  | _ => False

/-- Every operation of a built program is one of its statements and memory writes, or brackets them. -/
theorem Built.all (hB : ∀ (α : Type) (p : Prog (S.Op Mem Reply) Op.Res ε α), B α p → p.All fun o => P o ∨ o.Bracket) {α : Type}
    {p : Prog (S.Op Mem Reply) Op.Res ε α} (h : Built P B p) : p.All fun o => P o ∨ o.Bracket := by
  induction h with
  | pure a => trivial
  | throw e => trivial
  | block h => exact hB _ _ h
  | query q k h _ ih => exact ⟨.inl h, ih⟩
  | clock k _ ih => exact ⟨.inr trivial, ih⟩
  | load k _ ih => exact ⟨.inr trivial, ih⟩
  | store m k h _ ih => exact ⟨.inl h, ih⟩
  | bind _ _ ihp ihf => exact .bind ihp ihf
  | tryCatch _ _ hthrow ihp ihf =>
    refine .tryCatch ihp fun e => ?_
    by_cases hc : caught e
    · exact ihf e hc
    · rw [hthrow e hc]; trivial
  | transaction _ ih =>
    exact ⟨.inr trivial, fun _ => .bind (.tryCatch ih fun _ => ⟨.inr trivial, fun _ => trivial⟩) fun _ => ⟨.inr trivial, fun _ => trivial⟩⟩

/-- A statement or memory write `P`, or a look at the clock or the memory. -/
def Op.Plain (P : S.Op Mem Reply → Prop) : S.Op Mem Reply → Prop
  | .query q => P (.query q)
  | .store m => P (.store m)
  | .clock | .load => True
  | _ => False

/-- Programs without transactions. -/
theorem Built.of_plain {α : Type} {p : Prog (S.Op Mem Reply) Op.Res ε α} (h : p.All (Op.Plain P)) : Built P B p := by
  induction p with
  | pure a => exact .pure a
  | throw e => exact .throw e
  | op o k ih =>
    cases o with
    | query q => exact .query q k h.1 fun r => ih r (h.2 r)
    | store m => exact .store m k h.1 fun r => ih r (h.2 r)
    | clock => exact .clock k fun r => ih r (h.2 r)
    | load => exact .load k fun r => ih r (h.2 r)
    | _ => exact h.1.elim

omit [Recoverable ε] in
theorem plain_statement (wrap : SqlError S.Viol → ε) {q : S.Query} (h : P (.query q)) :
    (statement wrap q : Prog (S.Op Mem Reply) Op.Res ε (S.Ans q)).All (Op.Plain P) := by
  refine ⟨h, fun r => ?_⟩
  cases r <;> trivial

/-- A program whose statements keep some rules, and whose blocks do, keeps them. -/
theorem wp_of_built {R : Rules (S.machine n Mem Reply)} {t : Fin n}
    (hop : ∀ o s ch r s', P o ∨ o.Bracket → State.Base s → R.inv s → R.cond t o s → State.exec t ch o s = some (r, s') →
      R.Ok t s s')
    (hB : ∀ (α : Type) (p : Prog (S.Op Mem Reply) Op.Res ε α), B α p → ∀ s, R.wp t p (fun _ _ => True) (fun _ _ => True) s)
    {α : Type} {p : Prog (S.Op Mem Reply) Op.Res ε α} (h : Built P B p) (s : S.State n Mem Reply) :
    R.wp t p (fun _ _ => True) (fun _ _ => True) s := by
  have hstep : ∀ {β : Type} (o : S.Op Mem Reply) {k : o.Res → Prog (S.Op Mem Reply) Op.Res ε β}, P o ∨ o.Bracket →
      (∀ r s, R.wp t (k r) (fun _ _ => True) (fun _ _ => True) s) → ∀ s, R.wp t (.op o k) (fun _ _ => True) (fun _ _ => True) s :=
    fun o _ ho hk s s₁ hb hi _ hc ch r s₂ he => ⟨hop o s₁ ch r s₂ ho hb hi hc he, hk r s₂⟩
  induction h generalizing s with
  | pure a => trivial
  | throw e => trivial
  | block h => exact hB _ _ h s
  | query q k h _ ih => exact hstep (.query q) (.inl h) ih s
  | clock k _ ih => exact hstep .clock (.inr trivial) ih s
  | load k _ ih => exact hstep .load (.inr trivial) ih s
  | store m k h _ ih => exact hstep (.store m) (.inl h) ih s
  | bind _ _ ihp ihf => exact (wp_bind _ _ _ s).2 (wp_mono (fun a s' _ => ihf a s') (fun _ _ _ => trivial) _ _ (ihp s))
  | tryCatch _ _ hthrow ihp ihf =>
    refine (wp_tryCatch _ _ s).2 (wp_mono (fun _ _ _ => trivial) (fun e s' _ => ?_) _ _ (ihp s))
    by_cases hc : caught e
    · exact ihf e hc s'
    · rw [hthrow e hc]; trivial
  | transaction _ ih =>
    refine hstep .begin (.inr trivial) (fun _ s => ?_) s
    rw [wp_bind, wp_tryCatch]
    refine wp_mono (fun _ s' _ => ?_) (fun _ s' _ => ?_) _ _ (ih s)
    · exact fun s₁ hb hi _ hc ch r s₂ he => ⟨hop .commit s₁ ch r s₂ (.inr trivial) hb hi hc he, trivial⟩
    · exact fun s₁ hb hi _ hc ch r s₂ he => ⟨hop .rollback s₁ ch r s₂ (.inr trivial) hb hi hc he, trivial⟩

end Built

namespace TxRules

open State

variable {R : TxRules S n Mem Reply} {t u : Fin n} {s s' : S.State n Mem Reply}

/-! ## Where a session has gone -/

/-- Session `t` went on from `s` to `s'`, at the same savepoints. -/
structure Went (R : TxRules S n Mem Reply) (t : Fin n) (s s' : S.State n Mem Reply) : Prop where
  grows : R.grows s.db s'.db
  nest : s'.nest t = s.nest t
  pend : s.pend t <+: s'.pend t
  locks : s.locks t ⊆ s'.locks t
  now : s.now ≤ s'.now
  wrote : s.nest t ≠ none → s'.wrote t = s.wrote t
  agree : ∀ k ∈ s.locks t, S.Agree k s.db s'.db

theorem Went.refl (t : Fin n) (s : S.State n Mem Reply) : R.Went t s s :=
  ⟨R.grows_refl _, rfl, List.prefix_refl _, fun _ h => h, le_refl _, fun _ => rfl, fun k _ => S.agree_refl k _⟩

theorem Went.trans {a b c : S.State n Mem Reply} (h1 : R.Went t a b) (h2 : R.Went t b c) : R.Went t a c :=
  ⟨R.grows_trans _ _ _ h1.grows h2.grows, h2.nest.trans h1.nest, h1.pend.trans h2.pend,
    fun _ hk => h2.locks (h1.locks hk), le_trans h1.now h2.now,
    fun hn => (h2.wrote (by rw [h1.nest]; exact hn)).trans (h1.wrote hn),
    fun k hk => S.agree_trans k _ _ _ (h1.agree k hk) (h2.agree k (h1.locks hk))⟩

theorem Still.went (h : R.Still t s s') : R.Went t s s' := by
  obtain ⟨ws, hp, -⟩ := h.pend
  exact ⟨h.grows, h.nest, ⟨ws, hp.symm⟩, h.locks, h.now, h.wrote, h.agree⟩

theorem Went.write (hi : R.Inv s) {takes : List S.Key} {ws : List S.Write} (he : R.Extends t s takes ws) :
    R.Went t s (s.write t takes ws) := by
  obtain ⟨h1, -, h3⟩ := write_rest s t takes ws
  cases hx : s.tx t with
  | none =>
    have hp : s.pend t = [] := by unfold State.pend; rw [hx]
    have hl : s.locks t = [] := by unfold State.locks; rw [hx]
    have hd := he.1
    rw [hp, hl, List.nil_append] at hd
    rw [write_tx_none hx]
    exact ⟨(R.publish t _ _ _ hi.data hd (he.2 hx)).2.1, rfl, List.prefix_refl _, fun _ h => h, le_refl _,
      fun hn => absurd (nest_none.2 hx) hn, by rw [hl]; simp⟩
  | some x =>
    have hdb : (s.write t takes ws).db = s.db := write_db hx ..
    refine ⟨by rw [hdb]; exact R.grows_refl _, write_nest .., ⟨ws, (write_pend hx ..).symm⟩, ?_, by rw [h1],
      fun hn => by rw [h3 hn], fun k _ => by rw [hdb]; exact S.agree_refl k _⟩
    rw [write_locks hx]; exact fun k hk => List.mem_append_left _ hk

/-- The session's memory is its own. -/
theorem Went.store (s : S.State n Mem Reply) (t : Fin n) (m : Mem) : R.Went t s { s with mem := Function.update s.mem t m } :=
  ⟨R.grows_refl _, rfl, List.prefix_refl _, fun _ h => h, le_refl _, fun _ => rfl, fun k _ => S.agree_refl k _⟩

theorem Went.commitTx {s₁ s₃ : S.State n Mem Reply} (hi : R.Inv s₃) (hr : s₁.tx t = none → R.ready t (s₃.pend t))
    (h : R.Went t (s₁.beginTx t) s₃) : R.Went t s₁ (s₃.commitTx t) := by
  obtain ⟨-, -, -, hp₁, hl₁⟩ := beginTx_tx s₁ t
  obtain ⟨hb1, -, hb3⟩ := beginTx_rest s₁ t
  obtain ⟨hc1, -⟩ := commitTx_rest s₃ t
  have hin : (s₁.beginTx t).nest t ≠ none := by rw [beginTx_nest]; simp
  have hg := h.grows; have hpd := h.pend; have hag := h.agree; have hlk := h.locks
  rw [beginTx_db] at hg hag
  rw [hl₁] at hag hlk
  rw [hp₁] at hpd
  have hnow : s₁.now ≤ (s₃.commitTx t).now := by rw [hc1, ← hb1]; exact h.now
  cases hx : s₁.tx t with
  | none =>
    have hp0 : s₁.pend t = [] := by unfold State.pend; rw [hx]
    have hl0 : s₁.locks t = [] := by unfold State.locks; rw [hx]
    have hdb : R.grows s₁.db (s₃.commitTx t).db := by
      rcases commitTx_outer hx h.nest with hc | hc
      · rw [hc]; exact hg
      · obtain ⟨x₃, hx₃, -⟩ := nest_some (h.nest.trans (beginTx_nest s₁ t))
        have hd := hi.drafts t x₃.toMark ((mem_marks hx₃).2 (.inl rfl))
        have hr := hr hx
        rw [hc]
        rw [pend_of_tx hx₃] at hr ⊢
        exact R.grows_trans _ _ _ hg (R.publish t _ _ _ hi.data hd hr).2.1
    exact ⟨hdb, commitTx_nest h.nest, by rw [hp0]; exact List.nil_prefix, by rw [hl0]; simp, hnow,
      fun hn => absurd (nest_none.2 hx) hn, by rw [hl0]; simp⟩
  | some x =>
    obtain ⟨x₃, hx₃, hc, -⟩ := commitTx_inner hx h.nest
    have hdb : (s₃.commitTx t).db = s₃.db := by rw [hc]; rfl
    have hwr : (s₃.commitTx t).wrote = s₃.wrote := by rw [hc]; rfl
    have hpc : (s₃.commitTx t).pend t = s₃.pend t := by rw [hc]; unfold State.pend; rw [setTx_tx_self, hx₃]
    have hlc : (s₃.commitTx t).locks t = s₃.locks t := by rw [hc]; unfold State.locks; rw [setTx_tx_self, hx₃]
    exact ⟨by rw [hdb]; exact hg, commitTx_nest h.nest, by rw [hpc]; exact hpd, by rw [hlc]; exact hlk, hnow,
      fun _ => by rw [hwr, h.wrote hin, hb3], by rw [hdb]; exact hag⟩

theorem Went.rollbackTx {s₁ s₃ : S.State n Mem Reply} (h : R.Went t (s₁.beginTx t) s₃) :
    R.Went t s₁ (s₃.rollbackTx t) := by
  obtain ⟨-, -, -, -, hl₁⟩ := beginTx_tx s₁ t
  obtain ⟨hb1, -, hb3⟩ := beginTx_rest s₁ t
  obtain ⟨hc1, -, hc3⟩ := rollbackTx_rest s₃ t
  have htx := rollbackTx_tx h.nest
  have hin : (s₁.beginTx t).nest t ≠ none := by rw [beginTx_nest]; simp
  have hg := h.grows; have hag := h.agree
  rw [beginTx_db] at hg hag
  rw [hl₁] at hag
  have hp : (s₃.rollbackTx t).pend t = s₁.pend t := by unfold State.pend; rw [htx]
  have hl : (s₃.rollbackTx t).locks t = s₁.locks t := by unfold State.locks; rw [htx]
  exact ⟨by rw [rollbackTx_db]; exact hg, nest_of_tx htx, by simp only [hp, List.prefix_refl], by rw [hl]; exact fun _ hk => hk,
    by rw [hc1, ← hb1]; exact h.now, fun _ => by rw [hc3, h.wrote hin, hb3], by rw [rollbackTx_db]; exact hag⟩

/-- A transaction that was rolled back left nothing behind, wherever it began. -/
theorem Went.rollbackTx_wrote {s₁ s₃ : S.State n Mem Reply} (h : R.Went t (s₁.beginTx t) s₃) :
    (s₃.rollbackTx t).wrote t = s₁.wrote t := by
  rw [(rollbackTx_rest s₃ t).2.2, h.wrote (by rw [beginTx_nest]; simp), (beginTx_rest s₁ t).2.2]

/-- Every savepoint of session `t` is a steady moment. -/
def SoundBelow (R : TxRules S n Mem Reply) (t : Fin n) (s : S.State n Mem Reply) : Prop :=
  ∀ l c, s.nest t = some (l, c) → ∀ m ∈ l, R.steady t m.writes

theorem Sound.below (h : R.Sound t s) : R.SoundBelow t s := by
  intro l c hn m hm
  obtain ⟨x, hx, rfl, -⟩ := nest_some hn
  exact h m ((mem_marks hx).2 (.inr hm))

theorem SoundBelow.went (h : R.SoundBelow t s) (hw : R.Went t s s') : R.SoundBelow t s' :=
  fun l c hn => h l c (by rw [← hw.nest]; exact hn)

theorem SoundBelow.sound (h : R.SoundBelow t s) (hr : R.steady t (s.pend t)) : R.Sound t s := by
  intro m hm
  cases hx : s.tx t with
  | none => rw [marks_none hx] at hm; cases hm
  | some x =>
    rcases (mem_marks hx).1 hm with rfl | hm
    · rw [pend_of_tx hx] at hr; exact hr
    · exact h x.saves x.startedAt (by unfold State.nest; rw [hx]; rfl) m hm

/-- A statement that makes the session's writes steady again. -/
theorem SoundBelow.write (h : R.SoundBelow t s) {takes : List S.Key} {ws : List S.Write}
    (hr : R.steady t (s.pend t ++ ws)) : R.Sound t (s.write t takes ws) := by
  intro m hm
  cases hx : s.tx t with
  | none =>
    rw [write_tx_none hx] at hm
    have : m ∈ s.marks t := hm
    rw [marks_none hx] at this; cases this
  | some x =>
    rcases write_saves hx takes ws hm with h' | h'
    · rw [h']; exact hr
    · exact h x.saves x.startedAt (by unfold State.nest; rw [hx]; rfl) m h'

/-! ## Programs built of statements and blocks -/

/-- An assertion `A` and a relation `G` between the states in which a session's program starts and
ends, closed under what the others and the server do. -/
structure Frame (R : TxRules S n Mem Reply) (t : Fin n) (A : S.State n Mem Reply → Prop)
    (G : S.State n Mem Reply → S.State n Mem Reply → Prop) : Prop where
  refl : ∀ s, A s → G s s
  trans : ∀ a b c, G a b → G b c → G a c
  rely : ∀ s s', A s → R.Inv s' → R.rules.Rely t s s' → G s s'
  failed : ∀ s s', A s → Failed t s s' → G s s'
  keeps : ∀ s s', A s → R.Went t s s' → G s s' → A s'
  enter : ∀ s, A s → A (s.beginTx t)
  ready : ∀ s₁ s₃, A s₁ → s₁.tx t = none → R.cond t .commit s₃ → R.Inv s₃ → R.Sound t s₃ → R.Went t (s₁.beginTx t) s₃ →
    G (s₁.beginTx t) s₃ → R.ready t (s₃.pend t)
  commit : ∀ s₁ s₃, A s₁ → R.Inv s₃ → (s₁.tx t = none → R.ready t (s₃.pend t)) → R.Went t (s₁.beginTx t) s₃ → G (s₁.beginTx t) s₃ →
    G s₁ (s₃.commitTx t)
  rollback : ∀ s₁ s₃, A s₁ → R.Inv s₃ → R.Went t (s₁.beginTx t) s₃ → G (s₁.beginTx t) s₃ → G s₁ (s₃.rollbackTx t)

/-- With it goes whatever lasts as the session goes on. -/
theorem Frame.and {A B : S.State n Mem Reply → Prop} {G : S.State n Mem Reply → S.State n Mem Reply → Prop} (hG : R.Frame t A G)
    (hkeep : ∀ s s', B s → R.Went t s s' → B s') (henter : ∀ s, B s → B (s.beginTx t)) :
    R.Frame t (fun s => A s ∧ B s) G where
  refl s h := hG.refl s h.1
  trans := hG.trans
  rely s s' h := hG.rely s s' h.1
  failed s s' h := hG.failed s s' h.1
  keeps s s' h hw hg := ⟨hG.keeps s s' h.1 hw hg, hkeep s s' h.2 hw⟩
  enter s h := ⟨hG.enter s h.1, henter s h.2⟩
  ready s₁ s₃ h := hG.ready s₁ s₃ h.1
  commit s₁ s₃ h := hG.commit s₁ s₃ h.1
  rollback s₁ s₃ h := hG.rollback s₁ s₃ h.1

/-- Session `t` may go on from `s'`: it could commit, and `G` relates the states. -/
structure Upto (R : TxRules S n Mem Reply) (t : Fin n) (G : S.State n Mem Reply → S.State n Mem Reply → Prop)
    (s s' : S.State n Mem Reply) : Prop where
  sound : R.Sound t s'
  went : R.Went t s s'
  frame : G s s'

/-- Session `t` left by a throw; where it can go on, it is as after a return. -/
structure Left {ε : Type} [Recoverable ε] (R : TxRules S n Mem Reply) (t : Fin n)
    (G : S.State n Mem Reply → S.State n Mem Reply → Prop) (s : S.State n Mem Reply) (e : ε) (s' : S.State n Mem Reply) :
    Prop where
  went : R.Went t s s'
  upto : caught e → R.Upto t G s s'

variable {ε : Type} [Recoverable ε] {A : S.State n Mem Reply → Prop}
  {G : S.State n Mem Reply → S.State n Mem Reply → Prop}

theorem Upto.refl (hG : R.Frame t A G) (hs : R.Sound t s) (ha : A s) : R.Upto t G s s := ⟨hs, .refl t s, hG.refl s ha⟩

theorem Upto.trans (hG : R.Frame t A G) {a b c : S.State n Mem Reply} (h1 : R.Upto t G a b) (h2 : R.Upto t G b c) :
    R.Upto t G a c := ⟨h2.sound, h1.went.trans h2.went, hG.trans _ _ _ h1.frame h2.frame⟩

theorem Upto.keeps (hG : R.Frame t A G) (ha : A s) (h : R.Upto t G s s') : A s' := hG.keeps _ _ ha h.went h.frame

theorem Upto.of_rely (hG : R.Frame t A G) (hs : R.Sound t s) (ha : A s) (hi : R.Inv s') (hr : R.rules.Rely t s s') :
    R.Upto t G s s' := ⟨hs.of_rely hr, (Still.of_rely hr).went, hG.rely _ _ ha hi hr⟩

theorem Upto.of_failed (hG : R.Frame t A G) (hs : R.Sound t s) (ha : A s) (hf : Failed t s s') : R.Upto t G s s' :=
  ⟨hf.sound hs, (hf.still (R := R)).went, hG.failed _ _ ha hf⟩

theorem Upto.left (h : R.Upto t G s s') (e : ε) : R.Left t G s e s' := ⟨h.went, fun _ => h⟩

theorem Upto.trans_left (hG : R.Frame t A G) {a b c : S.State n Mem Reply} {e : ε} (h1 : R.Upto t G a b)
    (h2 : R.Left t G b e c) : R.Left t G a e c :=
  ⟨h1.went.trans h2.went, fun hc => h1.trans hG (h2.upto hc)⟩

/-- What is shown of a statement: its writes fit, and its effect is within `G`. -/
def Admits (R : TxRules S n Mem Reply) (t : Fin n) (A : S.State n Mem Reply → Prop)
    (G : S.State n Mem Reply → S.State n Mem Reply → Prop) (q : S.Query) : Prop :=
  ∀ s pick a, Base s → R.Inv s → R.Sound t s → A s → R.cond t (.query q) s →
    (S.plan q pick (s.clock t) (s.view t)).ans = .ok a → s.Free t (waits (S.plan q pick (s.clock t) (s.view t))) →
    R.Extends t s (S.plan q pick (s.clock t) (s.view t)).takes (S.plan q pick (s.clock t) (s.view t)).writes ∧
    R.steady t (s.pend t ++ (S.plan q pick (s.clock t) (s.view t)).writes) ∧
    G s ((s.see t).write t (S.plan q pick (s.clock t) (s.view t)).takes (S.plan q pick (s.clock t) (s.view t)).writes)

/-- A program that keeps the rules from every sound state with `A`, and ends within `G`. -/
def Runs (R : TxRules S n Mem Reply) (t : Fin n) (A : S.State n Mem Reply → Prop)
    (G : S.State n Mem Reply → S.State n Mem Reply → Prop) {α : Type} (p : Prog (S.Op Mem Reply) Op.Res ε α) : Prop :=
  ∀ s, R.Sound t s → A s → R.rules.wp t p (fun _ => R.Upto t G s) (R.Left t G s) s

section Runs

variable {α β : Type}

/-- From a state the program went on to. -/
theorem Runs.after (hG : R.Frame t A G) {p : Prog (S.Op Mem Reply) Op.Res ε α} (hp : R.Runs t A G p) (ha : A s)
    (h : R.Upto t G s s') : R.rules.wp t p (fun _ => R.Upto t G s) (R.Left t G s) s' :=
  wp_mono (fun _ _ h' => h.trans hG h') (fun _ _ h' => h.trans_left hG h') _ _ (hp s' h.sound (h.keeps hG ha))

theorem Runs.bind (hG : R.Frame t A G) {p : Prog (S.Op Mem Reply) Op.Res ε α} {f : α → Prog (S.Op Mem Reply) Op.Res ε β}
    (hp : R.Runs t A G p) (hf : ∀ a, R.Runs t A G (f a)) : R.Runs t A G (p >>= f) := by
  intro s hs ha
  rw [wp_bind]
  exact wp_mono (fun a s' h => (hf a).after hG ha h) (fun _ _ h => h) _ _ (hp s hs ha)

theorem Runs.tryCatch (hG : R.Frame t A G) {p : Prog (S.Op Mem Reply) Op.Res ε α}
    {f : ε → Prog (S.Op Mem Reply) Op.Res ε α} (hp : R.Runs t A G p) (hf : ∀ e, caught e → R.Runs t A G (f e))
    (hthrow : ∀ e, ¬caught e → f e = .throw e) : R.Runs t A G (tryCatch p f) := by
  intro s hs ha
  rw [wp_tryCatch]
  refine wp_mono (fun _ _ h => h) (fun e s' h => ?_) _ _ (hp s hs ha)
  by_cases hc : caught e
  · exact (hf e hc).after hG ha (h.upto hc)
  · rw [hthrow e hc]; exact h

/-- An operation that does not move the transaction. -/
theorem Runs.op (hG : R.Frame t A G) {o : S.Op Mem Reply} {k : o.Res → Prog (S.Op Mem Reply) Op.Res ε α}
    (hstep : ∀ s ch r s', Base s → R.Inv s → R.Sound t s → A s → R.cond t o s → State.exec t ch o s = some (r, s') →
      R.rules.Ok t s s' ∧ R.Upto t G s s')
    (hk : ∀ r, R.Runs t A G (k r)) : R.Runs t A G (.op o k) := by
  intro s hs ha s₁ hb hi hr hc ch r s₂ he
  have h₁ := Upto.of_rely hG hs ha hi hr
  obtain ⟨hok, h₂⟩ := hstep s₁ ch r s₂ hb hi h₁.sound (h₁.keeps hG ha) hc he
  exact ⟨hok, (hk r).after hG ha (h₁.trans hG h₂)⟩

theorem Runs.query (hG : R.Frame t A G) {q : S.Query} (hq : R.Admits t A G q)
    {k : Op.Res (.query q : S.Op Mem Reply) → Prog (S.Op Mem Reply) Op.Res ε α} (hk : ∀ r, R.Runs t A G (k r)) :
    R.Runs t A G (.op (.query q) k) := by
  refine Runs.op hG (fun s ch r s' hb hi hs ha hc he => ?_) hk
  rcases runQuery_cases he with ⟨e, rfl, hf, -⟩ | ⟨a, rfl, hans, -, hbl, rfl⟩
  · obtain ⟨h1, h2⟩ := Failed.inv (R := R) hi hf
    exact ⟨ok_of_db h2 h1, .of_failed hG hs ha hf⟩
  · obtain ⟨hx, hr, hg⟩ := hq s ch.pick a hb hi hs ha hc hans fun u hu k hk => blocked_eq_false hbl hu k hk
    have hf : (s.see t).Free t ((S.plan q ch.pick (s.clock t) (s.view t)).takes ++
        S.touchesAll (S.plan q ch.pick (s.clock t) (s.view t)).writes) :=
      fun u hu k hk => blocked_eq_false hbl hu k (List.mem_append_right _ hk)
    refine ⟨ok_write (Inv.see hi) (hb.of_tx rfl) hf hx, SoundBelow.write (s := s.see t) hs.below hr, ?_, hg⟩
    exact (Still.see s t).went.trans (Went.write (s := s.see t) (Inv.see hi) hx)

theorem Runs.clock (hG : R.Frame t A G) {k : Nat → Prog (S.Op Mem Reply) Op.Res ε α} (hk : ∀ r, R.Runs t A G (k r)) :
    R.Runs t A G (.op .clock k) := by
  refine Runs.op hG (fun s ch r s' hb hi hs ha hc he => ?_) hk
  cases he
  exact ⟨ok_of_db rfl hi, .refl hG hs ha⟩

theorem Runs.load (hG : R.Frame t A G) {k : Mem → Prog (S.Op Mem Reply) Op.Res ε α} (hk : ∀ r, R.Runs t A G (k r)) :
    R.Runs t A G (.op .load k) := by
  refine Runs.op hG (fun s ch r s' hb hi hs ha hc he => ?_) hk
  cases he
  exact ⟨ok_of_db rfl hi, .refl hG hs ha⟩

theorem Runs.store (hG : R.Frame t A G) {m : Mem} (hm : ∀ s, A s → G s { s with mem := Function.update s.mem t m })
    {k : Unit → Prog (S.Op Mem Reply) Op.Res ε α} (hk : ∀ r, R.Runs t A G (k r)) : R.Runs t A G (.op (.store m) k) := by
  refine Runs.op hG (fun s ch r s' hb hi hs ha hc he => ?_) hk
  cases he
  exact ⟨ok_of_db rfl (Inv.of_eq hi rfl rfl rfl), hs, .store s t m, hm s ha⟩

/-- A program that runs, and ends with `B`. -/
def Gives (R : TxRules S n Mem Reply) (t : Fin n) (A : S.State n Mem Reply → Prop)
    (G : S.State n Mem Reply → S.State n Mem Reply → Prop) (p : Prog (S.Op Mem Reply) Op.Res ε α)
    (B : α → S.State n Mem Reply → Prop) : Prop :=
  ∀ s, R.Sound t s → A s → R.rules.wp t p (fun a s' => R.Upto t G s s' ∧ B a s') (R.Left t G s) s

/-- A transaction, whose body may rely on `D` inside it; what the body gives is told of the state after
the commit. What is known where a program starts may be more than what lasts as it goes on. -/
theorem Gives.transaction {F D H : S.State n Mem Reply → Prop} {B C : α → S.State n Mem Reply → Prop}
    (hG : R.Frame t F G) (hG' : R.Frame t H G) (hA : ∀ s, A s → F s) (hH : ∀ s, D s → H s)
    (hD : ∀ s s₁, A s → R.Inv s₁ → R.rules.Rely t s s₁ → D (s₁.beginTx t))
    (hB : ∀ a s₁ s₂ s₃, F s₁ → B a s₂ → R.Inv s₃ → R.rules.Rely t s₂ s₃ → R.Went t (s₁.beginTx t) s₃ →
      C a (s₃.commitTx t))
    {p : Prog (S.Op Mem Reply) Op.Res ε α} (hp : R.Gives t D G p B) : R.Gives t A G (transaction p) C := by
  intro s hs ha s₁ hb hi hr _ ch r s₂ he
  cases he
  have h₁ := Upto.of_rely hG hs (hA s ha) hi hr
  have ha₁ := h₁.keeps hG (hA s ha)
  have ha' := hD s s₁ ha hi hr
  refine ⟨ok_of_db (beginTx_db ..) (Inv.beginTx hi), ?_⟩
  rw [wp_bind, wp_tryCatch]
  refine wp_mono ?_ ?_ _ _ (hp (s₁.beginTx t) h₁.sound.beginTx ha')
  · rintro a s₂ ⟨h, hgives⟩ s₃ hb₃ hi₃ hr₃ hc₃ _ r₃ s₄ he₃
    cases he₃
    have h₃ := h.trans hG' (.of_rely hG' h.sound (h.keeps hG' (hH _ ha')) hi₃ hr₃)
    have hready : s₁.tx t = none → R.ready t (s₃.pend t) :=
      fun hx => hG.ready _ _ ha₁ hx hc₃ hi₃ h₃.sound h₃.went h₃.frame
    have houter : ∀ c, s₃.nest t = some ([], c) → R.ready t (s₃.pend t) := by
      intro c hc
      rw [h₃.went.nest, beginTx_nest] at hc
      cases hx : s₁.tx t with
      | none => exact hready hx
      | some x => rw [hx] at hc; cases hc
    refine ⟨ok_commitTx hi₃ hb₃ houter, h₁.trans hG ⟨h₁.sound.commitTx h₃.sound.steady_pend h₃.went.nest,
      h₃.went.commitTx hi₃ hready, ?_⟩, hB a s₁ _ s₃ ha₁ hgives hi₃ hr₃ h₃.went⟩
    exact hG.commit _ _ ha₁ hi₃ hready h₃.went h₃.frame
  · intro e s₂ h s₃ hb₃ hi₃ hr₃ _ _ r₃ s₄ he₃
    cases he₃
    have hw : R.Went t (s₁.beginTx t) s₃ := h.went.trans (Still.of_rely hr₃).went
    refine ⟨ok_of_db (rollbackTx_db ..) (Inv.rollbackTx hi₃), h₁.went.trans hw.rollbackTx, fun hc => ?_⟩
    have h₂ := h.upto hc
    have h₃ := h₂.trans hG' (.of_rely hG' h₂.sound (h₂.keeps hG' (hH _ ha')) hi₃ hr₃)
    exact h₁.trans hG ⟨h₁.sound.rollbackTx hw.nest, hw.rollbackTx, hG.rollback _ _ ha₁ hi₃ hw h₃.frame⟩

theorem Gives.runs {p : Prog (S.Op Mem Reply) Op.Res ε α} {B : α → S.State n Mem Reply → Prop} (h : R.Gives t A G p B) :
    R.Runs t A G p := fun s hs ha => wp_mono (fun _ _ h => h.1) (fun _ _ h => h) _ _ (h s hs ha)

theorem Runs.gives (hG : R.Frame t A G) {p : Prog (S.Op Mem Reply) Op.Res ε α} (hp : R.Runs t A G p) :
    R.Gives t A G p fun _ => A :=
  fun s hs ha => wp_mono (fun _ _ h => ⟨h, h.keeps hG ha⟩) (fun _ _ h => h) _ _ (hp s hs ha)

theorem Runs.transaction {A' : S.State n Mem Reply → Prop} (hG : R.Frame t A G) (hG' : R.Frame t A' G)
    (hA' : ∀ s, A s → A' (s.beginTx t)) {p : Prog (S.Op Mem Reply) Op.Res ε α} (hp : R.Runs t A' G p) :
    R.Runs t A G (transaction p) :=
  (Gives.transaction (C := fun _ _ => True) hG hG' (fun _ h => h) (fun _ h => h)
    (fun s s₁ ha hi hr => hA' s₁ (hG.keeps s s₁ ha (Still.of_rely hr).went (hG.rely s s₁ ha hi hr)))
    (fun _ _ _ _ _ _ _ _ _ => trivial) (hp.gives hG')).runs

/-- A program built of statements that fit and of blocks that run, runs. -/
theorem Runs.of_built (hG : R.Frame t A G) {P : S.Op Mem Reply → Prop}
    {B : (α : Type) → Prog (S.Op Mem Reply) Op.Res ε α → Prop} (hP : ∀ q, P (.query q) → R.Admits t A G q)
    (hm : ∀ m, P (.store m) → ∀ s, A s → G s { s with mem := Function.update s.mem t m })
    (hB : ∀ (α : Type) (p : Prog (S.Op Mem Reply) Op.Res ε α), B α p → R.Runs t A G p)
    {p : Prog (S.Op Mem Reply) Op.Res ε α} (hp : Built P B p) : R.Runs t A G p := by
  induction hp with
  | pure a => exact fun s hs ha => .refl hG hs ha
  | throw e => exact fun s hs ha => (Upto.refl hG hs ha).left e
  | block h => exact hB _ _ h
  | query q k h _ ih => exact Runs.query hG (hP q h) ih
  | clock k _ ih => exact Runs.clock hG ih
  | load k _ ih => exact Runs.load hG ih
  | store m k h _ ih => exact Runs.store hG (hm m h) ih
  | bind _ _ ihp ihf => exact Runs.bind hG ihp ihf
  | tryCatch _ _ hthrow ihp ihf => exact Runs.tryCatch hG ihp ihf hthrow
  | transaction _ ih => exact Runs.transaction hG hG hG.enter ih

theorem Gives.bind {F : S.State n Mem Reply → Prop} (hG : R.Frame t F G) {p : Prog (S.Op Mem Reply) Op.Res ε α} {f : α → Prog (S.Op Mem Reply) Op.Res ε β}
    {B : α → S.State n Mem Reply → Prop} {B' : β → S.State n Mem Reply → Prop} (hp : R.Gives t A G p B)
    (hf : ∀ a, R.Gives t (B a) G (f a) B') : R.Gives t A G (p >>= f) B' := by
  intro s hs ha
  rw [wp_bind]
  refine wp_mono (fun a s' h => ?_) (fun _ _ h => h) _ _ (hp s hs ha)
  exact wp_mono (fun _ _ h' => ⟨h.1.trans hG h'.1, h'.2⟩) (fun _ _ h' => h.1.trans_left hG h') _ _ (hf a s' h.1.sound h.2)

theorem Gives.pure {F : S.State n Mem Reply → Prop} (hG : R.Frame t F G) (hA : ∀ s, A s → F s) {a : α}
    {B : α → S.State n Mem Reply → Prop} (hB : ∀ s, A s → B a s) : R.Gives t A G (pure a : Prog (S.Op Mem Reply) Op.Res ε α) B :=
  fun s hs ha => ⟨.refl hG hs (hA s ha), hB s ha⟩

theorem Gives.throw {F : S.State n Mem Reply → Prop} (hG : R.Frame t F G) (hA : ∀ s, A s → F s) (e : ε)
    {B : α → S.State n Mem Reply → Prop} : R.Gives t A G (throw e : Prog (S.Op Mem Reply) Op.Res ε α) B :=
  fun s hs ha => (Upto.refl hG hs (hA s ha)).left e

/-- Reading the session's memory, and what is known of it there. -/
theorem Gives.load (hG : R.Frame t A G) {k : Mem → Prog (S.Op Mem Reply) Op.Res ε α} {B : Mem → S.State n Mem Reply → Prop}
    {B' : α → S.State n Mem Reply → Prop} (hB : ∀ s, Base s → R.Inv s → A s → R.cond t .load s → B (s.mem t) s)
    (hk : ∀ m, R.Gives t (B m) G (k m) B') : R.Gives t A G (.op .load k) B' := by
  intro s hs ha s₁ hb hi hr hc ch r s₂ he
  cases he
  have h₁ := Upto.of_rely hG hs ha hi hr
  refine ⟨ok_of_db rfl hi, ?_⟩
  exact wp_mono (fun _ _ h => ⟨h₁.trans hG h.1, h.2⟩) (fun _ _ h => h₁.trans_left hG h) _ _
    (hk _ s₁ h₁.sound (hB s₁ hb hi (h₁.keeps hG ha) hc))

theorem Gives.store {F : S.State n Mem Reply → Prop} (hG : R.Frame t F G) {m : Mem}
    (hm : ∀ s, F s → G s { s with mem := Function.update s.mem t m })
    {k : Unit → Prog (S.Op Mem Reply) Op.Res ε α} {B : α → S.State n Mem Reply → Prop} (hk : R.Gives t F G (k ()) B) :
    R.Gives t F G (.op (.store m) k) B := by
  intro s hs ha s₁ hb hi hr _ ch r s₂ he
  cases he
  have h₁ := Upto.of_rely hG hs ha hi hr
  have hf₁ := h₁.keeps hG ha
  have h₂ : R.Upto t G s { s₁ with mem := Function.update s₁.mem t m } := h₁.trans hG ⟨h₁.sound, .store s₁ t m, hm s₁ hf₁⟩
  refine ⟨ok_of_db rfl (Inv.of_eq hi rfl rfl rfl), ?_⟩
  exact wp_mono (fun _ _ h => ⟨h₂.trans hG h.1, h.2⟩) (fun _ _ h => h₂.trans_left hG h) _ _
    (hk _ h₂.sound (h₂.keeps hG ha))

/-- Reading the clock. What is known before it need only outlast what the others do. -/
theorem Gives.clock {F : S.State n Mem Reply → Prop} (hG : R.Frame t F G) (hA : ∀ s, A s → F s)
    (hrely : ∀ s s', A s → R.Inv s' → R.rules.Rely t s s' → A s') {k : Nat → Prog (S.Op Mem Reply) Op.Res ε α}
    {B : α → S.State n Mem Reply → Prop} (hk : ∀ c, R.Gives t A G (k c) B) : R.Gives t A G (.op .clock k) B := by
  intro s hs ha s₁ hb hi hr _ ch r s₂ he
  cases he
  have h₁ := Upto.of_rely hG hs (hA s ha) hi hr
  refine ⟨ok_of_db rfl hi, ?_⟩
  exact wp_mono (fun _ _ h => ⟨h₁.trans hG h.1, h.2⟩) (fun _ _ h => h₁.trans_left hG h) _ _
    (hk _ s₁ h₁.sound (hrely s s₁ ha hi hr))

omit [Recoverable ε] in
/-- A program of plain statements that all keep what is known, also where they fail. -/
theorem wp_plain {P : S.Op Mem Reply → Prop} (hG : R.Frame t (fun _ => True) (fun _ _ => True))
    (hrely : ∀ s s', A s → R.Inv s' → R.rules.Rely t s s' → A s') (hfailed : ∀ s s', A s → Failed t s s' → A s')
    (hstore : ∀ m, P (.store m) → ∀ s, A s → A { s with mem := Function.update s.mem t m })
    (hq : ∀ q, P (.query q) → R.Admits t A (fun _ s' => A s') q) {p : Prog (S.Op Mem Reply) Op.Res ε α} (hp : p.All (Op.Plain P))
    {s : S.State n Mem Reply} (hs : R.Sound t s) (ha : A s) :
    R.rules.wp t p (fun _ s' => R.Upto t (fun _ _ => True) s s' ∧ A s') (fun _ s' => R.Upto t (fun _ _ => True) s s' ∧ A s') s := by
  induction p generalizing s with
  | pure a => exact ⟨.refl hG hs trivial, ha⟩
  | throw e => exact ⟨.refl hG hs trivial, ha⟩
  | op o k ih =>
    intro s₁ hb hi hr hc ch r s₂ he
    have h₁ := Upto.of_rely hG hs trivial hi hr
    have ha₁ := hrely s s₁ ha hi hr
    have hstep : R.rules.Ok t s₁ s₂ ∧ R.Upto t (fun _ _ => True) s₁ s₂ ∧ A s₂ := by
      cases o with
      | query q =>
        rcases runQuery_cases he with ⟨e, rfl, hf, -⟩ | ⟨a, rfl, hans, -, hbl, rfl⟩
        · obtain ⟨h1, h2⟩ := Failed.inv (R := R) hi hf
          exact ⟨ok_of_db h2 h1, .of_failed hG h₁.sound trivial hf, hfailed s₁ s₂ ha₁ hf⟩
        · obtain ⟨hx, hsteady, ha₂⟩ := hq q hp.1 s₁ ch.pick a hb hi h₁.sound ha₁ hc hans fun u hu k hk => blocked_eq_false hbl hu k hk
          have hf : (s₁.see t).Free t ((S.plan q ch.pick (s₁.clock t) (s₁.view t)).takes ++
              S.touchesAll (S.plan q ch.pick (s₁.clock t) (s₁.view t)).writes) :=
            fun u hu k hk => blocked_eq_false hbl hu k (List.mem_append_right _ hk)
          refine ⟨ok_write (Inv.see hi) (hb.of_tx rfl) hf hx, ⟨SoundBelow.write (s := s₁.see t) h₁.sound.below hsteady, ?_, trivial⟩, ha₂⟩
          exact (Still.see s₁ t).went.trans (Went.write (s := s₁.see t) (Inv.see hi) hx)
      | clock => cases he; exact ⟨ok_of_db rfl hi, .refl hG h₁.sound trivial, ha₁⟩
      | load => cases he; exact ⟨ok_of_db rfl hi, .refl hG h₁.sound trivial, ha₁⟩
      | store m =>
        cases he
        exact ⟨ok_of_db rfl (Inv.of_eq hi rfl rfl rfl), ⟨h₁.sound, .store s₁ t m, trivial⟩, hstore m hp.1 s₁ ha₁⟩
      | _ => exact hp.1.elim
    obtain ⟨hok, h₂, ha₂⟩ := hstep
    have h := h₁.trans hG h₂
    exact ⟨hok, wp_mono (fun _ _ h' => ⟨h.trans hG h'.1, h'.2⟩) (fun _ _ h' => ⟨h.trans hG h'.1, h'.2⟩) _ _ (ih r (hp.2 r) h.sound ha₂)⟩

/-- A coarser relation. -/
theorem Runs.coarsen {G' : S.State n Mem Reply → S.State n Mem Reply → Prop} {p : Prog (S.Op Mem Reply) Op.Res ε α}
    (hp : R.Runs t A G p) (hGG : ∀ s s', A s → G s s' → G' s s') : R.Runs t A G' p :=
  fun s hs ha => wp_mono (fun _ _ h => ⟨h.sound, h.went, hGG _ _ ha h.frame⟩)
    (fun _ _ h => ⟨h.went, fun hc => ⟨(h.upto hc).sound, h.went, hGG _ _ ha (h.upto hc).frame⟩⟩) _ _ (hp s hs ha)

/-- What a program runs under may be weaker than what is known. -/
theorem Runs.weaken {A' : S.State n Mem Reply → Prop} {p : Prog (S.Op Mem Reply) Op.Res ε α} (hp : R.Runs t A G p)
    (hA : ∀ s, A' s → A s) : R.Runs t A' G p := fun s hs ha => hp s hs (hA s ha)

theorem Runs.bind_gives {F : S.State n Mem Reply → Prop} (hG : R.Frame t F G) {p : Prog (S.Op Mem Reply) Op.Res ε α}
    {f : α → Prog (S.Op Mem Reply) Op.Res ε β} {B : α → S.State n Mem Reply → Prop} (hp : R.Gives t A G p B) (hf : ∀ a, R.Runs t (B a) G (f a)) :
    R.Runs t A G (p >>= f) :=
  (hp.bind hG fun a s hs hb => wp_mono (fun _ _ h => ⟨h, trivial⟩) (fun _ _ h => h) _ _ (hf a s hs hb)
    : R.Gives t A G (p >>= f) fun _ _ => True).runs

/-- What follows may know less. -/
theorem Runs.bind_any {F : S.State n Mem Reply → Prop} (hG : R.Frame t F G) (hF : ∀ s, F s) {p : Prog (S.Op Mem Reply) Op.Res ε α}
    {f : α → Prog (S.Op Mem Reply) Op.Res ε β} (hp : R.Runs t A G p) (hf : ∀ a, R.Runs t F G (f a)) : R.Runs t A G (p >>= f) := by
  intro s hs ha
  rw [wp_bind]
  exact wp_mono (fun a s' h => (hf a).after hG (hF s) h) (fun _ _ h => h) _ _ (hp s hs ha)

theorem runs_pure (hG : R.Frame t A G) (a : α) : R.Runs t A G (pure a : Prog (S.Op Mem Reply) Op.Res ε α) :=
  fun _ hs ha => .refl hG hs ha

theorem runs_throw (hG : R.Frame t A G) (e : ε) : R.Runs t A G (throw e : Prog (S.Op Mem Reply) Op.Res ε α) :=
  fun _ hs ha => (Upto.refl hG hs ha).left e

/-! ## Programs that go through unsteady states -/

/-- A program inside a transaction that may leave it unsteady on the way; none of its failures is caught. -/
def Owes (R : TxRules S n Mem Reply) (t : Fin n) (A : S.State n Mem Reply → Prop) (p : Prog (S.Op Mem Reply) Op.Res ε α)
    (B : α → S.State n Mem Reply → Prop) : Prop :=
  ∀ s, R.SoundBelow t s → A s → R.rules.wp t p (fun a s' => R.Went t s s' ∧ B a s') (fun e s' => R.Went t s s' ∧ ¬caught e) s

theorem Owes.bind {p : Prog (S.Op Mem Reply) Op.Res ε α} {f : α → Prog (S.Op Mem Reply) Op.Res ε β}
    {B : α → S.State n Mem Reply → Prop} {B' : β → S.State n Mem Reply → Prop} (hp : R.Owes t A p B)
    (hf : ∀ a, R.Owes t (B a) (f a) B') : R.Owes t A (p >>= f) B' := by
  intro s hs ha
  rw [wp_bind]
  refine wp_mono (fun a s' h => ?_) (fun _ _ h => h) _ _ (hp s hs ha)
  exact wp_mono (fun _ _ h' => ⟨h.1.trans h'.1, h'.2⟩) (fun _ _ h' => ⟨h.1.trans h'.1, h'.2⟩) _ _ (hf a s' (hs.went h.1) h.2)

theorem Owes.pure {a : α} {B : α → S.State n Mem Reply → Prop} (h : ∀ s, A s → B a s) :
    R.Owes t A (pure a : Prog (S.Op Mem Reply) Op.Res ε α) B := fun s _ ha => ⟨.refl t s, h s ha⟩

theorem Owes.throw {e : ε} (h : ¬caught e) {B : α → S.State n Mem Reply → Prop} :
    R.Owes t A (throw e : Prog (S.Op Mem Reply) Op.Res ε α) B := fun s _ _ => ⟨.refl t s, h⟩

theorem Owes.load (hrely : ∀ s s', A s → R.Inv s' → R.rules.Rely t s s' → A s')
    {k : Mem → Prog (S.Op Mem Reply) Op.Res ε α} {B : α → S.State n Mem Reply → Prop} (hk : ∀ m, R.Owes t A (k m) B) :
    R.Owes t A (.op .load k) B := by
  intro s hs ha s₁ hb hi hr _ ch r s₂ he
  cases he
  have hw := (Still.of_rely hr).went
  refine ⟨ok_of_db rfl hi, ?_⟩
  exact wp_mono (fun _ _ h => ⟨hw.trans h.1, h.2⟩) (fun _ _ h => ⟨hw.trans h.1, h.2⟩) _ _ (hk _ s₁ (hs.went hw) (hrely s s₁ ha hi hr))

theorem Owes.clock (hrely : ∀ s s', A s → R.Inv s' → R.rules.Rely t s s' → A s')
    {k : Nat → Prog (S.Op Mem Reply) Op.Res ε α} {B : α → S.State n Mem Reply → Prop} (hk : ∀ now, R.Owes t A (k now) B) :
    R.Owes t A (.op .clock k) B := by
  intro s hs ha s₁ hb hi hr _ ch r s₂ he
  cases he
  have hw := (Still.of_rely hr).went
  refine ⟨ok_of_db rfl hi, ?_⟩
  exact wp_mono (fun _ _ h => ⟨hw.trans h.1, h.2⟩) (fun _ _ h => ⟨hw.trans h.1, h.2⟩) _ _ (hk _ s₁ (hs.went hw) (hrely s s₁ ha hi hr))

theorem Owes.store (hrely : ∀ s s', A s → R.Inv s' → R.rules.Rely t s s' → A s') {m : Mem}
    (hm : ∀ s, A s → A { s with mem := Function.update s.mem t m })
    {k : Unit → Prog (S.Op Mem Reply) Op.Res ε α} {B : α → S.State n Mem Reply → Prop} (hk : R.Owes t A (k ()) B) :
    R.Owes t A (.op (.store m) k) B := by
  intro s hs ha s₁ hb hi hr _ ch r s₂ he
  cases he
  have hw := (Still.of_rely hr).went.trans (.store (R := R) s₁ t m)
  refine ⟨ok_of_db rfl (Inv.of_eq hi rfl rfl rfl), ?_⟩
  exact wp_mono (fun _ _ h => ⟨hw.trans h.1, h.2⟩) (fun _ _ h => ⟨hw.trans h.1, h.2⟩) _ _
    (hk _ (hs.went hw) (hm s₁ (hrely s s₁ ha hi hr)))

/-- In the end it is steady again. -/
theorem Owes.gives {p : Prog (S.Op Mem Reply) Op.Res ε α} {B : α → S.State n Mem Reply → Prop} (h : R.Owes t A p B)
    (hB : ∀ a s, B a s → R.steady t (s.pend t)) : R.Gives t A (fun _ _ => True) p B := by
  intro s hs ha
  refine wp_mono (fun a s' h => ⟨⟨?_, h.1, trivial⟩, h.2⟩) (fun e s' h => ⟨h.1, fun hc => absurd hc h.2⟩) _ _ (h s hs.below ha)
  exact (hs.below.went h.1).sound (hB a s' h.2)

end Runs

/-! ## Programs beside the point -/

/-- What a session has pending is a draft. -/
theorem Inv.draft_pend (hi : R.Inv s) (t : Fin n) : R.draft t (s.pend t) (s.locks t) s.db := by
  cases hx : s.tx t with
  | none =>
    have hp : s.pend t = [] := by unfold State.pend; rw [hx]
    have hl : s.locks t = [] := by unfold State.locks; rw [hx]
    rw [hp, hl]
    exact R.draft_nil t _ hi.data
  | some x =>
    rw [pend_of_tx hx, locks_of_tx hx]
    exact hi.drafts t x.toMark ((mem_marks hx).2 (.inl rfl))

/-- Writes beside the point fit any draft. -/
theorem extends_inert (hi : R.Inv s) {takes : List S.Key} {ws : List S.Write} (hw : ∀ w ∈ ws, R.inert w) :
    R.Extends t s takes ws :=
  ⟨R.draft_inert t _ _ ws _ _ (hi.draft_pend t) hw, fun _ => R.ready_inert t ws hw⟩

theorem Still.write (hi : R.Inv s) {takes : List S.Key} {ws : List S.Write} (hw : ∀ w ∈ ws, R.inert w) :
    R.Still t s (s.write t takes ws) := by
  have hext : R.Extends t s takes ws := extends_inert hi hw
  obtain ⟨h1, h2, h3⟩ := write_rest s t takes ws
  cases hx : s.tx t with
  | none =>
    have hp : s.pend t = [] := by unfold State.pend; rw [hx]
    have hl : s.locks t = [] := by unfold State.locks; rw [hx]
    have hd := hext.1
    rw [hp, hl, List.nil_append] at hd
    rw [write_tx_none hx]
    refine ⟨(R.publish t _ _ _ hi.data hd (hext.2 hx)).2.1, R.spares_inert t ws _ hw, rfl, ⟨[], ?_, by simp⟩, fun _ h => h,
      le_refl _, fun hne => absurd (nest_none.2 hx) hne, fun _ => rfl, by rw [hl]; simp⟩
    rw [List.append_nil]; rfl
  | some x =>
    have hdb : (s.write t takes ws).db = s.db := write_db hx ..
    refine ⟨by rw [hdb]; exact R.grows_refl _, by rw [hdb]; exact R.spares_refl _ _, write_nest ..,
      ⟨ws, write_pend hx .., hw⟩, ?_, by rw [h1], fun hne => by rw [h3 hne], fun _ => by rw [h2],
      fun k _ => by rw [hdb]; exact S.agree_refl k _⟩
    rw [write_locks hx]; exact fun k hk => List.mem_append_left _ hk

/-- A statement that writes only what is beside the point. -/
theorem Admits.of_inert {q : S.Query} (hq : ∀ s pick, Base s → R.Inv s → R.cond t (.query q) s →
    ∀ w ∈ (S.plan q pick (s.clock t) (s.view t)).writes, R.inert w) : R.Admits t A (R.Still t) q := by
  intro s pick a hb hi hs _ hc _ _
  have hw := hq s pick hb hi hc
  refine ⟨extends_inert hi hw, R.steady_inert t _ _ hs.steady_pend hw, ?_⟩
  exact (Still.see s t).trans (Still.write (s := s.see t) (Inv.see hi) hw)

/-- An assertion that holds as long as the session goes on. -/
theorem went_frame (hready : ∀ s, A s → s.tx t = none → ∀ ws, R.steady t ws → R.ready t ws)
    (hkeep : ∀ s s', A s → R.Went t s s' → A s') (henter : ∀ s, A s → A (s.beginTx t)) : R.Frame t A (fun _ _ => True) where
  refl _ _ := trivial
  trans _ _ _ _ _ := trivial
  rely _ _ _ _ _ := trivial
  failed _ _ _ _ := trivial
  keeps s s' ha hw _ := hkeep s s' ha hw
  enter := henter
  ready s₁ _ ha hx _ _ hs _ _ := hready s₁ ha hx _ hs.steady_pend
  commit _ _ _ _ _ _ _ := trivial
  rollback _ _ _ _ _ _ := trivial

/-- Nothing but the rules themselves. -/
theorem any_frame (hready : ∀ ws, R.steady t ws → R.ready t ws) : R.Frame t (fun _ => True) (fun _ _ => True) :=
  went_frame (fun _ _ _ => hready) (fun _ _ _ _ => trivial) fun _ _ => trivial

/-- The session is in a transaction. -/
theorem inside_frame : R.Frame t (fun s => s.nest t ≠ none) (fun _ _ => True) :=
  went_frame (fun _ h hx => absurd (nest_none.2 hx) h) (fun _ _ h hw => by rw [hw.nest]; exact h)
    fun s _ => by rw [beginTx_nest]; simp

theorem Admits.mono {q : S.Query} {A' : S.State n Mem Reply → Prop} {G' : S.State n Mem Reply → S.State n Mem Reply → Prop}
    (hA : ∀ s, A' s → A s) (hGG : ∀ s s', A' s → G s s' → G' s s') (h : R.Admits t A G q) : R.Admits t A' G' q := by
  intro s pick a hb hi hs ha hc hans hf
  obtain ⟨h1, h2, h3⟩ := h s pick a hb hi hs (hA s ha) hc hans hf
  exact ⟨h1, h2, hGG _ _ ha h3⟩

/-! ## Rules that every write keeps by itself -/

theorem applyAll_keeps {data : S.Db → Prop} {good : S.Write → Prop} (h : ∀ w d, good w → data d → data (S.apply w d)) :
    ∀ (ws : List S.Write) (d : S.Db), (∀ w ∈ ws, good w) → data d → data (S.applyAll ws d)
  | [], _, _, hd => hd
  | w :: ws, d, hw, hd =>
    applyAll_keeps h ws _ (fun w' hw' => hw w' (List.mem_cons_of_mem _ hw')) (h w d (hw w (List.mem_cons_self ..)) hd)

/-- The invariant `data`, where every write made is `good` and a good write keeps `data`. -/
def pointwise (n : Nat) (Mem Reply : Type) (data : S.Db → Prop) (good : S.Write → Prop)
    (cond : Fin n → S.Op Mem Reply → S.State n Mem Reply → Prop)
    (keeps : ∀ w d, good w → data d → data (S.apply w d)) (ext : ∀ d d', data d → S.Ext d d' → data d') :
    TxRules S n Mem Reply where
  data := data
  draft _ ws _ _ := ∀ w ∈ ws, good w
  steady _ _ := True
  ready _ _ := True
  inert := good
  grows _ _ := True
  spares _ _ _ := True
  effect _ _ _ := True
  answer _ _ _ _ _ := True
  cond := cond
  recalls := False
  grows_refl _ := trivial
  grows_trans _ _ _ _ _ := trivial
  spares_refl _ _ := trivial
  spares_trans _ _ _ _ _ _ := trivial
  effect_refl _ _ := trivial
  effect_spares _ _ _ _ _ _ := trivial
  draft_nil _ _ _ _ h := by cases h
  draft_inert _ _ _ _ _ _ h hn w hw := (List.mem_append.1 hw).elim (h w) (hn w)
  steady_nil _ := trivial
  steady_inert _ _ _ _ _ := trivial
  ready_inert _ _ _ := trivial
  spares_inert _ _ _ _ := trivial
  publish _ ws _ d hd h _ := ⟨applyAll_keeps keeps ws d h hd, trivial, trivial⟩
  others _ _ _ _ _ _ _ _ _ _ _ h _ _ _ := h
  ext d d' hd he := ⟨ext d d' hd he, trivial, fun _ => trivial⟩
  ext_draft _ _ _ _ _ h _ := h
  answer_grows _ _ _ _ _ _ h _ := h

/-- Such an invariant holds of every session's view. -/
theorem pointwise_view {data : S.Db → Prop} {good : S.Write → Prop}
    {cond : Fin n → S.Op Mem Reply → S.State n Mem Reply → Prop}
    {keeps : ∀ w d, good w → data d → data (S.apply w d)} {ext : ∀ d d', data d → S.Ext d d' → data d'}
    (h : (pointwise n Mem Reply data good cond keeps ext).Inv s) (t : Fin n) : data (s.view t) := by
  rw [view_eq]
  refine applyAll_keeps keeps _ _ ?_ h.data
  cases hx : s.tx t with
  | none => unfold State.pend; rw [hx]; exact fun w hw => by cases hw
  | some x => rw [pend_of_tx hx]; exact h.drafts t x.toMark ((mem_marks hx).2 (.inl rfl))

end TxRules

end Concurrency.Schema
