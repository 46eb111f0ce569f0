/-
Sequential programs whose every effect is one operation of a shared store: a program returns a
value, throws, or issues an operation and continues with its answer. A thread of a concurrent
system is such a program, and the scheduler may switch threads at every operation and nowhere
else.
-/
import Mathlib.Logic.Basic
import Mathlib.Logic.Function.Basic

namespace Concurrency

/-- A program over the operations `Op` (answers `Res`), with exceptions `ε` and result `α`. -/
inductive Prog (Op : Type) (Res : Op → Type) (ε α : Type) : Type where
  | pure (a : α)
  | throw (e : ε)
  | op (o : Op) (k : Res o → Prog Op Res ε α)

namespace Prog

variable {Op : Type} {Res : Op → Type} {ε α β γ : Type}

def bind : Prog Op Res ε α → (α → Prog Op Res ε β) → Prog Op Res ε β
  | .pure a, f => f a
  | .throw e, _ => .throw e
  | .op o k, f => .op o fun r => (k r).bind f

def tryCatch : Prog Op Res ε α → (ε → Prog Op Res ε α) → Prog Op Res ε α
  | .pure a, _ => .pure a
  | .throw e, h => h e
  | .op o k, h => .op o fun r => (k r).tryCatch h

/-- The program that issues one operation and returns its answer. -/
def perform (o : Op) : Prog Op Res ε (Res o) := .op o .pure

instance : Monad (Prog Op Res ε) where
  pure := .pure
  bind := .bind

instance : MonadExceptOf ε (Prog Op Res ε) where
  throw := .throw
  tryCatch := .tryCatch

/-- Every operation the program can issue meets `P`. -/
def All (P : Op → Prop) : Prog Op Res ε α → Prop
  | .pure _ => True
  | .throw _ => True
  | .op o k => P o ∧ ∀ r, (k r).All P

section All

variable {P P' : Op → Prop} {p : Prog Op Res ε α}

theorem All.bind {f : α → Prog Op Res ε β} (hp : p.All P) (hf : ∀ a, (f a).All P) : (p >>= f).All P := by
  induction p with
  | pure a => exact hf a
  | throw e => trivial
  | op o k ih => exact ⟨hp.1, fun r => ih r (hp.2 r)⟩

theorem All.tryCatch {f : ε → Prog Op Res ε α} (hp : p.All P) (hf : ∀ e, (f e).All P) :
    (MonadExceptOf.tryCatch p f).All P := by
  induction p with
  | pure a => trivial
  | throw e => exact hf e
  | op o k ih => exact ⟨hp.1, fun r => ih r (hp.2 r)⟩

theorem All.ite {q : Prog Op Res ε α} {c : Prop} [Decidable c] (hp : p.All P) (hq : q.All P) : (if c then p else q).All P := by
  by_cases h : c
  · rw [if_pos h]; exact hp
  · rw [if_neg h]; exact hq

theorem All.mono (h : ∀ o, P o → P' o) (hp : p.All P) : p.All P' := by
  induction p with
  | pure a => trivial
  | throw e => trivial
  | op o k ih => exact ⟨h o hp.1, fun r => ih r (hp.2 r)⟩

end All

end Prog

end Concurrency
