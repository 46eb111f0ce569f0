/-
Interleaved execution of a family of programs on one shared state, and rely/guarantee reasoning
about it. A machine says what one operation of one thread does (or that the thread is blocked),
what a crash of a thread leaves behind and what the environment may change by itself; it carries
an invariant of its own and, for every thread, a relation that no step of another thread breaks.
Rules add to a machine an invariant, a relation every step keeps, and a condition on the
operations executed. A program is safe from a state when every operation it can issue, whatever
the others did in between, keeps the rules (`Rules.wp`); `Rules.Safe.reaches` then concludes
for every interleaving of any number of safe programs.
-/
import WorkflowWorld.Concurrency.Program
import Mathlib.Logic.Relation

namespace Concurrency

/-- The shared state `σ` and what the threads `ι` can do to it. `keep t` is what the steps of
the other threads, their crashes and the environment leave as thread `t` last saw it. -/
structure Machine (ι Op : Type) (Res : Op → Type) (Ch σ : Type) where
  exec : ι → Ch → (o : Op) → σ → Option (Res o × σ)
  crash : ι → σ → σ
  env : σ → σ → Prop
  base : σ → Prop
  keep : ι → σ → σ → Prop
  keep_refl : ∀ t s, keep t s s
  keep_trans : ∀ t a b c, keep t a b → keep t b c → keep t a c
  exec_base : ∀ {t ch o s r s'}, base s → exec t ch o s = some (r, s') → base s'
  exec_keep : ∀ {t u ch o s r s'}, base s → exec t ch o s = some (r, s') → u ≠ t → keep u s s'
  crash_base : ∀ {t s}, base s → base (crash t s)
  crash_keep : ∀ {t u s}, base s → u ≠ t → keep u s (crash t s)
  env_base : ∀ {s s'}, base s → env s s' → base s'
  env_keep : ∀ {u s s'}, base s → env s s' → keep u s s'

variable {ι Op : Type} {Res : Op → Type} {Ch σ ε : Type} [DecidableEq ι]

/-- A configuration: the shared state and what is left of every thread's program. -/
structure Config (ι Op : Type) (Res : Op → Type) (σ ε : Type) where
  st : σ
  prog : ι → Prog Op Res ε Unit

/-- One step of the system, in which an executed operation meets `cond`: a thread executes its
next operation, a thread crashes, or the environment acts. The label is the thread that acts. -/
inductive Step (M : Machine ι Op Res Ch σ) (cond : ι → Op → σ → Prop) :
    Option ι → Config ι Op Res σ ε → Config ι Op Res σ ε → Prop
  | run {C : Config ι Op Res σ ε} (t : ι) (ch : Ch) (o : Op) (k : Res o → Prog Op Res ε Unit)
      (r : Res o) (s' : σ) (hp : C.prog t = .op o k) (hc : cond t o C.st)
      (he : M.exec t ch o C.st = some (r, s')) :
      Step M cond (some t) C ⟨s', Function.update C.prog t (k r)⟩
  | crash {C : Config ι Op Res σ ε} (t : ι) :
      Step M cond (some t) C ⟨M.crash t C.st, Function.update C.prog t (.pure ())⟩
  | env {C : Config ι Op Res σ ε} (s' : σ) (he : M.env C.st s') : Step M cond none C ⟨s', C.prog⟩

/-- The configurations of all interleavings. -/
def Reaches (M : Machine ι Op Res Ch σ) (cond : ι → Op → σ → Prop) :
    Config ι Op Res σ ε → Config ι Op Res σ ε → Prop :=
  Relation.ReflTransGen fun C C' => ∃ a, Step M cond a C C'

theorem Step.mono {M : Machine ι Op Res Ch σ} {cond cond' : ι → Op → σ → Prop}
    (h : ∀ t o s, cond t o s → cond' t o s) {a : Option ι} {C C' : Config ι Op Res σ ε}
    (hs : Step M cond a C C') : Step M cond' a C C' := by
  cases hs with
  | run t ch o k r s' hp hc he => exact .run t ch o k r s' hp (h _ _ _ hc) he
  | crash t => exact .crash t
  | env s' he => exact .env s' he

/-- What is known of the state may be added to the condition. -/
theorem Step.strengthen {M : Machine ι Op Res Ch σ} {cond : ι → Op → σ → Prop} {P : σ → Prop} {a : Option ι}
    {C C' : Config ι Op Res σ ε} (hs : Step M cond a C C') (hP : P C.st) : Step M (fun t o s => cond t o s ∧ P s) a C C' := by
  cases hs with
  | run t ch o k r s' hp hc he => exact .run t ch o k r s' hp ⟨hc, hP⟩ he
  | crash t => exact .crash t
  | env s' he => exact .env s' he

theorem Reaches.mono {M : Machine ι Op Res Ch σ} {cond cond' : ι → Op → σ → Prop}
    (h : ∀ t o s, cond t o s → cond' t o s) {C C' : Config ι Op Res σ ε} (hr : Reaches M cond C C') :
    Reaches M cond' C C' :=
  Relation.ReflTransGen.mono (fun _ _ ⟨a, hs⟩ => ⟨a, Step.mono h hs⟩) _ _ hr

/-- What is to be shown of every step, for executions whose operations meet `cond`: the
invariant `inv`, the preorder `rel`, and `guar t` of the steps of thread `t`. `spares t` is what
the steps of the others leave to thread `t`, beyond what the machine keeps for it. -/
structure Rules (M : Machine ι Op Res Ch σ) where
  inv : σ → Prop
  cond : ι → Op → σ → Prop
  rel : σ → σ → Prop
  guar : ι → σ → σ → Prop
  spares : ι → σ → σ → Prop
  rel_refl : ∀ s, rel s s
  rel_trans : ∀ a b c, rel a b → rel b c → rel a c
  spares_refl : ∀ t s, spares t s s
  spares_trans : ∀ t a b c, spares t a b → spares t b c → spares t a c
  guar_spares : ∀ t u s s', u ≠ t → guar t s s' → spares u s s'

namespace Rules

omit [DecidableEq ι]

variable {M : Machine ι Op Res Ch σ} (R : Rules M)

/-- What a step of thread `t` from `s` to `s'` must satisfy. -/
def Ok (t : ι) (s s' : σ) : Prop := R.inv s' ∧ R.rel s s' ∧ R.guar t s s'

/-- What thread `t` may assume about the steps of the others. -/
structure Rely (t : ι) (s s' : σ) : Prop where
  rel : R.rel s s'
  spares : R.spares t s s'
  keep : M.keep t s s'

variable {R}

theorem Rely.refl (t : ι) (s : σ) : R.Rely t s s := ⟨R.rel_refl s, R.spares_refl t s, M.keep_refl t s⟩

theorem Rely.trans {t : ι} {a b c : σ} (h1 : R.Rely t a b) (h2 : R.Rely t b c) : R.Rely t a c :=
  ⟨R.rel_trans _ _ _ h1.rel h2.rel, R.spares_trans _ _ _ _ h1.spares h2.spares,
    M.keep_trans _ _ _ _ h1.keep h2.keep⟩

variable (R) {α β : Type}

/-- From `s`, after any interference, each operation of `t`'s program keeps the rules, and the
program ends in `Q` or, by a throw, in `E`. -/
def wp (t : ι) : Prog Op Res ε α → (α → σ → Prop) → (ε → σ → Prop) → σ → Prop
  | .pure a, Q, _, s => Q a s
  | .throw e, _, E, s => E e s
  | .op o k, Q, E, s => ∀ s₁, M.base s₁ → R.inv s₁ → R.Rely t s s₁ → R.cond t o s₁ →
      ∀ ch r s₂, M.exec t ch o s₁ = some (r, s₂) →
        R.Ok t s₁ s₂ ∧ wp t (k r) Q E s₂

variable {R} {t : ι} {Q : α → σ → Prop} {E : ε → σ → Prop} {s : σ}

@[simp] theorem wp_pure (a : α) : R.wp t (pure a : Prog Op Res ε α) Q E s ↔ Q a s := Iff.rfl

@[simp] theorem wp_throw (e : ε) : R.wp t (throw e : Prog Op Res ε α) Q E s ↔ E e s := Iff.rfl

theorem wp_bind (p : Prog Op Res ε α) (f : α → Prog Op Res ε β) (Q : β → σ → Prop) (s : σ) :
    R.wp t (p >>= f) Q E s ↔ R.wp t p (fun a => R.wp t (f a) Q E) E s := by
  induction p generalizing s with
  | pure a => exact Iff.rfl
  | throw e => exact Iff.rfl
  | op o k ih =>
    constructor
    · intro h s₁ hb hi hr hc ch r s₂ he
      exact ⟨(h s₁ hb hi hr hc ch r s₂ he).1, (ih r s₂).1 (h s₁ hb hi hr hc ch r s₂ he).2⟩
    · intro h s₁ hb hi hr hc ch r s₂ he
      exact ⟨(h s₁ hb hi hr hc ch r s₂ he).1, (ih r s₂).2 (h s₁ hb hi hr hc ch r s₂ he).2⟩

theorem wp_tryCatch (p : Prog Op Res ε α) (f : ε → Prog Op Res ε α) (s : σ) :
    R.wp t (tryCatch p f) Q E s ↔ R.wp t p Q (fun e => R.wp t (f e) Q E) s := by
  induction p generalizing s with
  | pure a => exact Iff.rfl
  | throw e => exact Iff.rfl
  | op o k ih =>
    constructor
    · intro h s₁ hb hi hr hc ch r s₂ he
      exact ⟨(h s₁ hb hi hr hc ch r s₂ he).1, (ih r s₂).1 (h s₁ hb hi hr hc ch r s₂ he).2⟩
    · intro h s₁ hb hi hr hc ch r s₂ he
      exact ⟨(h s₁ hb hi hr hc ch r s₂ he).1, (ih r s₂).2 (h s₁ hb hi hr hc ch r s₂ he).2⟩

theorem wp_mono {Q' : α → σ → Prop} {E' : ε → σ → Prop} (hQ : ∀ a s, Q a s → Q' a s)
    (hE : ∀ e s, E e s → E' e s) (p : Prog Op Res ε α) (s : σ) (h : R.wp t p Q E s) :
    R.wp t p Q' E' s := by
  induction p generalizing s with
  | pure a => exact hQ a s h
  | throw e => exact hE e s h
  | op o k ih =>
    intro s₁ hb hi hr hc ch r s₂ he
    exact ⟨(h s₁ hb hi hr hc ch r s₂ he).1, ih r s₂ (h s₁ hb hi hr hc ch r s₂ he).2⟩

/-- A program all of whose operations keep the rules and an assertion. -/
theorem wp_all {A : σ → Prop} {P : Op → Prop} (hrely : ∀ s s', A s → R.Rely t s s' → A s')
    (hstep : ∀ o s ch r s', P o → M.base s → R.inv s → A s → R.cond t o s → M.exec t ch o s = some (r, s') →
      R.Ok t s s' ∧ A s') {p : Prog Op Res ε α} (hp : p.All P) (s : σ) (h : A s) :
    R.wp t p (fun _ => A) (fun _ => A) s := by
  induction p generalizing s with
  | pure a => exact h
  | throw e => exact h
  | op o k ih =>
    intro s₁ hb hi hr hc ch r s₂ he
    obtain ⟨hok, h₂⟩ := hstep o s₁ ch r s₂ hp.1 hb hi (hrely s s₁ h hr) hc he
    exact ⟨hok, ih r (hp.2 r) s₂ h₂⟩

/-- A program keeps to two ends when it keeps to each. -/
theorem wp_and {Q' : α → σ → Prop} {E' : ε → σ → Prop} {p : Prog Op Res ε α} (h : R.wp t p Q E s) (h' : R.wp t p Q' E' s) :
    R.wp t p (fun a s => Q a s ∧ Q' a s) (fun e s => E e s ∧ E' e s) s := by
  induction p generalizing s with
  | pure a => exact ⟨h, h'⟩
  | throw e => exact ⟨h, h'⟩
  | op o k ih =>
    intro s₁ hb hi hr hc ch r s₂ he
    exact ⟨(h s₁ hb hi hr hc ch r s₂ he).1, ih r (h s₁ hb hi hr hc ch r s₂ he).2 (h' s₁ hb hi hr hc ch r s₂ he).2⟩

/-- Interference before the next operation is already allowed for. -/
theorem wp_rely (hQ : ∀ a s s', Q a s → R.Rely t s s' → Q a s') (hE : ∀ e s s', E e s → R.Rely t s s' → E e s')
    {p : Prog Op Res ε α} {s s' : σ} (h : R.wp t p Q E s) (hr : R.Rely t s s') : R.wp t p Q E s' := by
  cases p with
  | pure a => exact hQ a s s' h hr
  | throw e => exact hE e s s' h hr
  | op o k => exact fun s₁ hb hi hr' => h s₁ hb hi (hr.trans hr')

theorem wp_rely_any {p : Prog Op Res ε α} {s s' : σ} (h : R.wp t p (fun _ _ => True) (fun _ _ => True) s) (hr : R.Rely t s s') :
    R.wp t p (fun _ _ => True) (fun _ _ => True) s' := wp_rely (fun _ _ _ h _ => h) (fun _ _ _ h _ => h) h hr

variable (R)

/-- Every program of the configuration is safe. -/
structure Safe (C : Config ι Op Res σ ε) : Prop where
  base : M.base C.st
  inv : R.inv C.st
  wp : ∀ t, R.wp t (C.prog t) (fun _ _ => True) (fun _ _ => True) C.st

/-- The crashes and the environment keep the rules. -/
structure Tolerates : Prop where
  crash : ∀ t s, M.base s → R.inv s → R.Ok t s (M.crash t s)
  env : ∀ s s', M.base s → R.inv s → M.env s s' → R.inv s' ∧ R.rel s s' ∧ ∀ t, R.spares t s s'

variable {R}

theorem Safe.step [DecidableEq ι] (ht : R.Tolerates) {a : Option ι} {C C' : Config ι Op Res σ ε}
    (h : R.Safe C) (hs : Step M R.cond a C C') :
    R.Safe C' ∧ R.rel C.st C'.st ∧ ∀ t, a = some t → R.guar t C.st C'.st := by
  cases hs with
  | run t ch o k r s' hp hc he =>
    have hw := h.wp t
    rw [hp] at hw
    obtain ⟨⟨hinv, hrel, hg⟩, hk⟩ := hw C.st h.base h.inv (Rely.refl t _) hc ch r s' he
    refine ⟨⟨M.exec_base h.base he, hinv, fun u => ?_⟩, hrel, fun u hu => by cases hu; exact hg⟩
    by_cases hu : u = t
    · subst hu; simpa using hk
    · simp only [Function.update_of_ne hu]
      exact wp_rely_any (h.wp u) ⟨hrel, R.guar_spares _ _ _ _ hu hg, M.exec_keep h.base he hu⟩
  | crash t =>
    obtain ⟨hinv, hrel, hg⟩ := ht.crash t C.st h.base h.inv
    refine ⟨⟨M.crash_base h.base, hinv, fun u => ?_⟩, hrel, fun u hu => by cases hu; exact hg⟩
    by_cases hu : u = t
    · subst hu; simp only [Function.update_self]; trivial
    · simp only [Function.update_of_ne hu]
      exact wp_rely_any (h.wp u) ⟨hrel, R.guar_spares _ _ _ _ hu hg, M.crash_keep h.base hu⟩
  | env s' he =>
    obtain ⟨hinv, hrel, hsp⟩ := ht.env C.st s' h.base h.inv he
    exact ⟨⟨M.env_base h.base he, hinv, fun u => wp_rely_any (h.wp u) ⟨hrel, hsp u, M.env_keep h.base he⟩⟩, hrel,
      fun t h => by cases h⟩

theorem Safe.reaches [DecidableEq ι] (ht : R.Tolerates) {C C' : Config ι Op Res σ ε} (h : R.Safe C)
    (hr : Reaches M R.cond C C') : R.Safe C' ∧ R.rel C.st C'.st := by
  induction hr with
  | refl => exact ⟨h, R.rel_refl _⟩
  | tail _ hs ih =>
    obtain ⟨h1, h2⟩ := ih
    obtain ⟨a, hs⟩ := hs
    obtain ⟨h3, h4, -⟩ := h1.step ht hs
    exact ⟨h3, R.rel_trans _ _ _ h2 h4⟩

/-- What was shown of every reachable state may be assumed at every operation of a later proof. -/
theorem Safe.strengthen [DecidableEq ι] (ht : R.Tolerates) {C C' : Config ι Op Res σ ε} (h : R.Safe C)
    (hr : Reaches M R.cond C C') : Reaches M (fun t o s => R.cond t o s ∧ R.inv s) C C' := by
  induction hr with
  | refl => exact .refl
  | tail hr hs ih =>
    obtain ⟨a, hs⟩ := hs
    exact ih.tail ⟨a, hs.strengthen (h.reaches ht hr).1.inv⟩

end Rules

/-! ## Calls -/

/-- Thread `t` runs the program from `C` while the others go on, and it comes to `x` in `C'`. -/
inductive Called (M : Machine ι Op Res Ch σ) (cond : ι → Op → σ → Prop) (t : ι) {α : Type} :
    Config ι Op Res σ ε → Prog Op Res ε α → Config ι Op Res σ ε → Except ε α → Prop
  | pure (C : Config ι Op Res σ ε) (a : α) : Called M cond t C (.pure a) C (.ok a)
  | throw (C : Config ι Op Res σ ε) (e : ε) : Called M cond t C (.throw e) C (.error e)
  | others {C C₁ C' : Config ι Op Res σ ε} {p : Prog Op Res ε α} {x : Except ε α} {a : Option ι} (hs : Step M cond a C C₁)
      (ha : a ≠ some t) (h : Called M cond t C₁ p C' x) : Called M cond t C p C' x
  | op {C C' : Config ι Op Res σ ε} {x : Except ε α} (ch : Ch) (o : Op) (k : Res o → Prog Op Res ε α) (r : Res o) (s' : σ)
      (hc : cond t o C.st) (he : M.exec t ch o C.st = some (r, s')) (h : Called M cond t ⟨s', C.prog⟩ (k r) C' x) :
      Called M cond t C (.op o k) C' x

namespace Rules

variable {M : Machine ι Op Res Ch σ} {R : Rules M} {t : ι} {C C' : Config ι Op Res σ ε}

/-- Every program of the configuration but that of thread `t` is safe. -/
structure SafeBut (R : Rules M) (t : ι) (C : Config ι Op Res σ ε) : Prop where
  base : M.base C.st
  inv : R.inv C.st
  wp : ∀ u, u ≠ t → R.wp u (C.prog u) (fun _ _ => True) (fun _ _ => True) C.st

omit [DecidableEq ι] in
theorem SafeBut.of_safe (h : R.Safe C) : R.SafeBut t C := ⟨h.base, h.inv, fun u _ => h.wp u⟩

/-- A step of another thread. -/
theorem SafeBut.others (ht : R.Tolerates) (h : R.SafeBut t C) {a : Option ι} (hs : Step M R.cond a C C') (ha : a ≠ some t) :
    R.SafeBut t C' ∧ R.Rely t C.st C'.st := by
  cases hs with
  | run u ch o k r s' hp hc he =>
    have hu : u ≠ t := fun hu => ha (congrArg some hu)
    have hw := h.wp u hu
    rw [hp] at hw
    obtain ⟨⟨hinv, hrel, hg⟩, hk⟩ := hw C.st h.base h.inv (Rely.refl u _) hc ch r s' he
    have hrely : ∀ v, v ≠ u → R.Rely v C.st s' := fun v hv => ⟨hrel, R.guar_spares _ _ _ _ hv hg, M.exec_keep h.base he hv⟩
    refine ⟨⟨M.exec_base h.base he, hinv, fun v hv => ?_⟩, hrely t hu.symm⟩
    by_cases hvu : v = u
    · subst hvu
      simpa using hk
    · simp only [Function.update_of_ne hvu]
      exact wp_rely_any (h.wp v hv) (hrely v hvu)
  | crash u =>
    have hu : u ≠ t := fun hu => ha (congrArg some hu)
    obtain ⟨hinv, hrel, hg⟩ := ht.crash u C.st h.base h.inv
    have hrely : ∀ v, v ≠ u → R.Rely v C.st (M.crash u C.st) :=
      fun v hv => ⟨hrel, R.guar_spares _ _ _ _ hv hg, M.crash_keep h.base hv⟩
    refine ⟨⟨M.crash_base h.base, hinv, fun v hv => ?_⟩, hrely t hu.symm⟩
    by_cases hvu : v = u
    · subst hvu
      simp only [Function.update_self]
      trivial
    · simp only [Function.update_of_ne hvu]
      exact wp_rely_any (h.wp v hv) (hrely v hvu)
  | env s' he =>
    obtain ⟨hinv, hrel, hsp⟩ := ht.env C.st s' h.base h.inv he
    have hrely : ∀ v, R.Rely v C.st s' := fun v => ⟨hrel, hsp v, M.env_keep h.base he⟩
    exact ⟨⟨M.env_base h.base he, hinv, fun v hv => wp_rely_any (h.wp v hv) (hrely v)⟩, hrely t⟩

/-- What a program ends in is what its calls come to, where it outlasts what the others do. -/
theorem SafeBut.called (ht : R.Tolerates) {α : Type} {p : Prog Op Res ε α} {Q : α → σ → Prop} {E : ε → σ → Prop}
    (hQ : ∀ a s s', Q a s → R.Rely t s s' → Q a s') (hE : ∀ e s s', E e s → R.Rely t s s' → E e s') {x : Except ε α}
    (h : R.SafeBut t C) (hp : R.wp t p Q E C.st) (hc : Called M R.cond t C p C' x) :
    R.inv C'.st ∧ (∀ a, x = .ok a → Q a C'.st) ∧ ∀ e, x = .error e → E e C'.st := by
  induction hc with
  | pure C a => exact ⟨h.inv, fun _ hx => Except.ok.inj hx ▸ hp, nofun⟩
  | throw C e => exact ⟨h.inv, nofun, fun _ hx => Except.error.inj hx ▸ hp⟩
  | others hs ha _ ih =>
    obtain ⟨h₁, hrely⟩ := h.others ht hs ha
    exact ih h₁ (wp_rely hQ hE hp hrely)
  | op ch o k r s' hcond he _ ih =>
    obtain ⟨⟨hinv, hrel, hg⟩, hk⟩ := hp _ h.base h.inv (Rely.refl t _) hcond ch r s' he
    refine ih ⟨M.exec_base h.base he, hinv, fun v hv => wp_rely_any (h.wp v hv) ?_⟩ hk
    exact ⟨hrel, R.guar_spares _ _ _ _ hv hg, M.exec_keep h.base he hv⟩

end Rules

end Concurrency
