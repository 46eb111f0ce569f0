/-
Runs of a machine: a partial step function on states, and the states that sequences of its events
lead to when each event meets a condition on the state it is taken in.
-/
import Mathlib.Logic.Relation

namespace Machine

variable {E S : Type} {step : E → S → Option S} {cond : E → S → Bool}

/-- A run whose events all satisfy `cond`. -/
def Reaches (step : E → S → Option S) (cond : E → S → Bool) : S → S → Prop :=
  Relation.ReflTransGen fun s s' => ∃ e, cond e s = true ∧ step e s = some s'

/-- No condition. -/
def always : E → S → Bool := fun _ _ => true

/-- What each event keeps, every run keeps. -/
theorem Reaches.invariant {P : S → Prop} {s s' : S} (h : Reaches step cond s s') (hs : P s)
    (hstep : ∀ e s s', P s → cond e s = true → step e s = some s' → P s') : P s' := by
  induction h with
  | refl => exact hs
  | tail _ hlast ih =>
    obtain ⟨e, hc, he⟩ := hlast
    exact hstep e _ _ ih hc he

/-- From a state where `P` holds, a run leads to one where nothing is left to do, when every state
that has something left has an event that makes it less. -/
theorem exists_reaches_of_measure {P Q : S → Prop} (μ : S → Nat)
    (hstep : ∀ s, P s → Q s ∨ ∃ e s', cond e s = true ∧ step e s = some s' ∧ P s' ∧ μ s' < μ s) {s : S} (hs : P s) :
    ∃ s', Reaches step cond s s' ∧ P s' ∧ Q s' := by
  generalize hn : μ s = n
  induction n using Nat.strongRecOn generalizing s with
  | ind n ih =>
    rcases hstep s hs with hq | ⟨e, s₁, hc, he, hp, hlt⟩
    · exact ⟨s, .refl, hs, hq⟩
    · obtain ⟨s', hr, hp', hq⟩ := ih (μ s₁) (hn ▸ hlt) hp rfl
      exact ⟨s', .head ⟨e, hc, he⟩ hr, hp', hq⟩

/-- Without end, a measure that never grows cannot get less again and again. -/
theorem exists_done_of_measure {run : Nat → S} {Done : S → Prop} (μ : S → Nat) {N : Nat}
    (hle : ∀ n ≥ N, Done (run n) ∨ μ (run (n + 1)) ≤ μ (run n))
    (hless : ∀ n ≥ N, Done (run n) ∨ ∃ m ≥ n, Done (run m) ∨ μ (run (m + 1)) < μ (run m)) : ∃ n, Done (run n) := by
  refine Classical.byContradiction fun hnever => ?_
  have hnot : ∀ n, ¬ Done (run n) := fun n hn => hnever ⟨n, hn⟩
  have hmono : ∀ n ≥ N, ∀ m ≥ n, μ (run m) ≤ μ (run n) := by
    intro n hn m hm
    induction hm with
    | refl => exact Nat.le_refl _
    | step hm ih => exact Nat.le_trans ((hle _ (Nat.le_trans hn hm)).resolve_left (hnot _)) ih
  have hfalse : ∀ b, ∀ n ≥ N, μ (run n) = b → False := by
    intro b
    induction b using Nat.strongRecOn with
    | ind b ih =>
      rintro n hn rfl
      obtain ⟨m, hm, h⟩ := (hless n hn).resolve_left (hnot n)
      exact ih _ (Nat.lt_of_lt_of_le (h.resolve_left (hnot m)) (hmono n hn m hm)) (m + 1) (by omega) rfl
  exact hfalse _ N (Nat.le_refl N) rfl

/-! ## Runs by a list of events -/

/-- A list of events, each of which satisfies `cond`, one after the other. -/
def play (step : E → S → Option S) (cond : E → S → Bool) : List E → S → Option S
  | [], s => some s
  | e :: es, s => if cond e s then (step e s).bind (play step cond es) else none

theorem reaches_play : ∀ {es : List E} {s s' : S}, play step cond es s = some s' → Reaches step cond s s'
  | [], s, s', h => by cases h; exact .refl
  | e :: es, s, s', h => by
    unfold play at h
    split at h
    · rename_i hc
      obtain ⟨s₁, h₁, h₂⟩ := Option.bind_eq_some_iff.1 h
      exact .head ⟨e, hc, h₁⟩ (reaches_play h₂)
    · cases h

/-- What holds where a list of events ends holds in a reachable state. -/
theorem exists_of_play {s : S} (es : List E) (P : S → Bool) (h : (play step cond es s).any P = true) :
    ∃ s', Reaches step cond s s' ∧ P s' = true := by
  obtain ⟨s', h₁, h₂⟩ := (Option.any_eq_true _ _).1 h
  exact ⟨s', reaches_play h₁, h₂⟩

/-! ## Projections -/

/-- A view of the state that the events of others leave alone and that is enough for one's own events goes
through a run as it does through one's own events. -/
theorem play_own {view : S → S} {mine : E → Bool} {P : S → Prop}
    (hkeep : ∀ e s s', P s → cond e s = true → step e s = some s' → P s')
    (hmine : ∀ e s s', P s → cond e s = true → step e s = some s' → mine e = true → step e (view s) = some (view s'))
    (hother : ∀ e s s', P s → cond e s = true → step e s = some s' → mine e = false → view s' = view s) :
    ∀ {es : List E} {s s' : S}, P s → play step cond es s = some s' →
      play step always (es.filter mine) (view s) = some (view s')
  | [], s, s', _, h => by cases h; rfl
  | e :: es, s, s', hs, h => by
    unfold play at h
    split at h
    · rename_i hc
      obtain ⟨s₁, h₁, h₂⟩ := Option.bind_eq_some_iff.1 h
      have ih := play_own hkeep hmine hother (hkeep e s s₁ hs hc h₁) h₂
      cases hm : mine e with
      | true =>
        rw [List.filter_cons_of_pos hm]
        simpa only [play, always, if_true, hmine e s s₁ hs hc h₁ hm, Option.bind_some] using ih
      | false =>
        rw [List.filter_cons_of_neg (by simp [hm]), ← hother e s s₁ hs hc h₁ hm]
        exact ih
    · cases h

end Machine
