/-
Reads beside a run: a program that only asks a system for what it shows, whose answers come each at a
moment of its own. Between two of them the system goes on, as far as `reach` says.
-/
import WorkflowWorld.Concurrency.RelyGuarantee

namespace Concurrency

variable {σ Op : Type} {Res : Op → Type} {ε α β : Type} {reach : σ → σ → Prop} {answer : (o : Op) → σ → Res o}

/-- The program ends with `a`: it was begun where the system was at `s`, and had its last answer at `s'`. -/
inductive Served (reach : σ → σ → Prop) (answer : (o : Op) → σ → Res o) : Prog Op Res ε α → σ → α → σ → Prop
  | ends (a : α) (s : σ) : Served reach answer (.pure a) s a s
  | reads {o : Op} {k : Res o → Prog Op Res ε α} {s s₁ s' : σ} {a : α} (hr : reach s s₁)
      (hk : Served reach answer (k (answer o s₁)) s₁ a s') : Served reach answer (.op o k) s a s'

namespace Served

theorem reaches (hrefl : ∀ s, reach s s) (htrans : ∀ a b c, reach a b → reach b c → reach a c) {p : Prog Op Res ε α} {s s' : σ}
    {a : α} (h : Served reach answer p s a s') : reach s s' := by
  induction h with
  | ends a s => exact hrefl s
  | reads hr _ ih => exact htrans _ _ _ hr ih

/-- A program that reads may begin to wait earlier. -/
theorem earlier (htrans : ∀ a b c, reach a b → reach b c → reach a c) {o : Op} {k : Res o → Prog Op Res ε α} {s s₁ s' : σ} {a : α}
    (hr : reach s s₁) (h : Served reach answer (.op o k) s₁ a s') : Served reach answer (.op o k) s a s' := by
  cases h with
  | reads hr₁ hk => exact .reads (htrans _ _ _ hr hr₁) hk

/-- One read. -/
theorem of_perform {o : Op} {f : Res o → Prog Op Res ε α} {s s' : σ} {a : α}
    (h : Served reach answer (Prog.perform o >>= f) s a s') :
    ∃ s₁, reach s s₁ ∧ Served reach answer (f (answer o s₁)) s₁ a s' := by
  cases h with
  | reads hr hk => exact ⟨_, hr, hk⟩

theorem of_pure {a b : α} {s s' : σ} (h : Served reach answer (pure b : Prog Op Res ε α) s a s') : a = b ∧ s' = s := by
  cases h
  exact ⟨rfl, rfl⟩

theorem of_bind {p : Prog Op Res ε β} {f : β → Prog Op Res ε α} {s s' : σ} {a : α} (h : Served reach answer (p >>= f) s a s') :
    ∃ b s₁, Served reach answer p s b s₁ ∧ Served reach answer (f b) s₁ a s' := by
  induction p generalizing s with
  | pure b => exact ⟨b, s, .ends b s, h⟩
  | throw e => cases h
  | op o k ih =>
    cases h with
    | reads hr hk =>
      obtain ⟨b, s₁, hp, hf⟩ := ih _ hk
      exact ⟨b, s₁, .reads hr hp, hf⟩

/-- A program of reads on a system that does not move. -/
def runAt (look : (o : Op) → Res o) : Prog Op Res ε α → Except ε α
  | .pure a => .ok a
  | .throw e => .error e
  | .op o k => runAt look (k (look o))

theorem of_runAt {s : σ} (hrefl : reach s s) {p : Prog Op Res ε α} {a : α} (h : runAt (fun o => answer o s) p = .ok a) :
    Served reach answer p s a s := by
  induction p with
  | pure b => cases h; exact .ends a s
  | throw e => cases h
  | op o k ih => exact .reads hrefl (ih _ h)

end Served

/-! ## Where only the others go on -/

section Others

variable {ι Ch Op' : Type} {Res' : Op' → Type} [DecidableEq ι] {M : Machine ι Op' Res' Ch σ} {cond : ι → Op' → σ → Prop} {t : ι}

/-- The configurations that the steps of the others, and the environment, lead to. -/
def Meanwhile (M : Machine ι Op' Res' Ch σ) (cond : ι → Op' → σ → Prop) (t : ι) :
    Config ι Op' Res' σ ε → Config ι Op' Res' σ ε → Prop :=
  Relation.ReflTransGen fun C C' => ∃ a, a ≠ some t ∧ Step M cond a C C'

theorem Meanwhile.reaches {C C' : Config ι Op' Res' σ ε} (h : Meanwhile M cond t C C') : Reaches M cond C C' :=
  Relation.ReflTransGen.mono (fun _ _ ⟨a, _, hs⟩ => ⟨a, hs⟩) _ _ h

/-- They leave what the machine keeps for the thread. -/
theorem Meanwhile.keep {C C' : Config ι Op' Res' σ ε} (hb : M.base C.st) (h : Meanwhile M cond t C C') :
    M.base C'.st ∧ M.keep t C.st C'.st := by
  induction h with
  | refl => exact ⟨hb, M.keep_refl t _⟩
  | tail _ hs ih =>
    obtain ⟨a, ha, hs⟩ := hs
    obtain ⟨hb₁, hkeep⟩ := ih
    cases hs with
    | run u ch o k r s' hp hc he =>
      exact ⟨M.exec_base hb₁ he, M.keep_trans _ _ _ _ hkeep (M.exec_keep hb₁ he fun h => ha (by rw [h]))⟩
    | crash u => exact ⟨M.crash_base hb₁, M.keep_trans _ _ _ _ hkeep (M.crash_keep hb₁ fun h => ha (by rw [h]))⟩
    | env s' he => exact ⟨M.env_base hb₁ he, M.keep_trans _ _ _ _ hkeep (M.env_keep hb₁ he)⟩

end Others

end Concurrency
