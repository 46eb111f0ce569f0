/-
Schedules that can be run: a list of moves of a scheduler, played on a configuration of sessions.
What a schedule reaches is reachable.
-/
import WorkflowWorld.Concurrency.ReadCommitted

namespace Concurrency.Schema

variable {S : Schema} {n : Nat} {Mem Reply ε : Type}

/-- A move of the scheduler: it lets a session run for a number of operations at most, ends its
connection, or lets time pass. -/
inductive Move (S : Schema) (n : Nat) where
  | run (t : Fin n) (ops : Nat) (choice : S.Choice)
  | crash (t : Fin n)
  | tick (d : Nat)

/-- The configurations of `n` sessions. -/
abbrev Sessions (S : Schema) (n : Nat) (Mem Reply ε : Type) :=
  Config (Fin n) (S.Op Mem Reply) Op.Res (S.State n Mem Reply) ε

namespace Sessions

variable (allowed : Fin n → S.Op Mem Reply → S.State n Mem Reply → Bool)

/-- Session `t` runs, while its operations are allowed and need not wait. -/
def advance (t : Fin n) (choice : S.Choice) : Nat → Sessions S n Mem Reply ε → Option (Sessions S n Mem Reply ε)
  | 0, C => some C
  | ops + 1, C =>
    match C.prog t with
    | .op o k =>
      if allowed t o C.st then
        match State.exec t choice o C.st with
        | some (r, s) => advance t choice ops ⟨s, Function.update C.prog t (k r)⟩
        | none => none
      else none
    | _ => some C

def move : Move S n → Sessions S n Mem Reply ε → Option (Sessions S n Mem Reply ε)
  | .run t ops choice, C => advance allowed t choice ops C
  | .crash t, C => some ⟨C.st.crash t, Function.update C.prog t (.pure ())⟩
  | .tick d, C => some ⟨{ C.st with now := C.st.now + d }, C.prog⟩

def play : List (Move S n) → Sessions S n Mem Reply ε → Option (Sessions S n Mem Reply ε)
  | [], C => some C
  | m :: ms, C => (move allowed m C).bind (play ms)

variable {allowed} {c : Fin n → S.Op Mem Reply → S.State n Mem Reply → Prop}

theorem reaches_advance (hc : ∀ t o s, allowed t o s = true → c t o s) (t : Fin n) (choice : S.Choice) :
    ∀ (ops : Nat) {C C' : Sessions S n Mem Reply ε}, advance allowed t choice ops C = some C' →
      Reaches (S.machine n Mem Reply) c C C'
  | 0, C, C', h => by cases h; exact .refl
  | ops + 1, C, C', h => by
    unfold advance at h
    split at h
    · rename_i o k hp
      split at h
      · rename_i hok
        split at h
        · rename_i r s he
          exact .head ⟨_, .run t choice o k r s hp (hc _ _ _ hok) he⟩ (reaches_advance hc t choice ops h)
        · cases h
      · cases h
    · cases h; exact .refl

/-- One operation that changes the state is a step of its session. -/
theorem step_of_advance (hc : ∀ t o s, allowed t o s = true → c t o s) {t : Fin n} {choice : S.Choice}
    {C C' : Sessions S n Mem Reply ε} (h : advance allowed t choice 1 C = some C') (hst : C'.st ≠ C.st) :
    Step (S.machine n Mem Reply) c (some t) C C' := by
  unfold advance at h
  split at h
  · rename_i o k hp
    split at h
    · rename_i hok
      split at h
      · rename_i r s he
        cases h
        exact .run t choice o k r s hp (hc _ _ _ hok) he
      · cases h
    · cases h
  · cases h; exact absurd rfl hst

theorem reaches_play (hc : ∀ t o s, allowed t o s = true → c t o s) : ∀ (ms : List (Move S n))
    {C C' : Sessions S n Mem Reply ε}, play allowed ms C = some C' → Reaches (S.machine n Mem Reply) c C C'
  | [], C, C', h => by cases h; exact .refl
  | m :: ms, C, C', h => by
    obtain ⟨C₁, h1, h2⟩ := Option.bind_eq_some_iff.1 h
    refine .trans ?_ (reaches_play hc ms h2)
    cases m with
    | run t ops choice => exact reaches_advance hc t choice ops h1
    | crash t => cases h1; exact .single ⟨_, .crash t⟩
    | tick d => cases h1; exact .single ⟨_, .env _ (.tick _ d)⟩

/-- What holds where a schedule ends holds in a reachable configuration. -/
theorem exists_of_play (hc : ∀ t o s, allowed t o s = true → c t o s) {ms : List (Move S n)}
    {C : Sessions S n Mem Reply ε} {P : Sessions S n Mem Reply ε → Bool} (h : (play allowed ms C).any P = true) :
    ∃ C', Reaches (S.machine n Mem Reply) c C C' ∧ P C' = true := by
  obtain ⟨C', h1, h2⟩ := (Option.any_eq_true _ _).1 h
  exact ⟨C', reaches_play hc ms h1, h2⟩

end Sessions

end Concurrency.Schema
