/-
What the record of a session tells: a session that has published nothing has not moved the data, and
its answer keeps whether it had.
-/
import WorkflowWorld.Concurrency.ReadCommitted

namespace Concurrency.Schema

variable {S : Schema} {n : Nat} {Mem Reply ε : Type}

namespace State

variable {s s' : S.State n Mem Reply} {t u : Fin n}

/-- What a step does to the record. -/
structure Recorded (t : Fin n) (s s' : S.State n Mem Reply) : Prop where
  wrote : s'.wrote t = false → s'.db = s.db
  mono : ∀ u, s.wrote u = true → s'.wrote u = true
  replies : s'.replies = s.replies ∨
    s'.db = s.db ∧ ∃ a, s'.replies = s.replies ++ [a] ∧ a.who = t ∧ a.wrote = s.wrote t

theorem Recorded.of_same (hdb : s'.db = s.db) (hw : s'.wrote = s.wrote) (hr : s'.replies = s.replies) : Recorded t s s' :=
  ⟨fun _ => hdb, fun u h => by rw [hw]; exact h, .inl hr⟩

theorem Recorded.from {s₀ : S.State n Mem Reply} (h : Recorded t s₀ s') (hdb : s₀.db = s.db) (hw : s₀.wrote = s.wrote)
    (hr : s₀.replies = s.replies) : Recorded t s s' := by
  obtain ⟨h1, h2, h3⟩ := h
  rw [hdb] at h1 h3
  rw [hw] at h2 h3
  rw [hr] at h3
  exact ⟨h1, h2, h3⟩

theorem recorded_publish (s : S.State n Mem Reply) (t : Fin n) (ws : List S.Write) : Recorded t s (s.publish t ws) := by
  refine ⟨fun h => ?_, fun u h => ?_, .inl rfl⟩
  · simp only [publish, Function.update_self, Bool.or_eq_false_iff, Bool.not_eq_false', List.isEmpty_iff] at h
    show S.applyAll ws s.db = s.db
    rw [h.2]; rfl
  · by_cases hu : u = t
    · subst hu; simp [publish, h]
    · simp only [publish, Function.update_of_ne hu]; exact h

theorem recorded_fail (s : S.State n Mem Reply) (t : Fin n) : Recorded t s (s.fail t) := by
  unfold fail
  cases s.tx t <;> exact .of_same rfl rfl rfl

theorem recorded_exec {ch : S.Choice} {o : S.Op Mem Reply} {r : o.Res} (h : exec t ch o s = some (r, s')) : Recorded t s s' := by
  cases o with
  | begin =>
    cases h
    unfold beginTx
    cases s.tx t <;> exact .of_same rfl rfl rfl
  | commit =>
    cases h
    unfold commitTx
    cases hx : s.tx t with
    | none => exact .of_same rfl rfl rfl
    | some x =>
      simp only
      split
      · exact .of_same rfl rfl rfl
      · split
        · exact .of_same rfl rfl rfl
        · exact (recorded_publish (s.setTx t none) t x.writes).from rfl rfl rfl
  | rollback =>
    cases h
    unfold rollbackTx
    cases hx : s.tx t with
    | none => exact .of_same rfl rfl rfl
    | some x =>
      simp only
      split <;> exact .of_same rfl rfl rfl
  | clock => cases h; exact .of_same rfl rfl rfl
  | load => cases h; exact .of_same rfl rfl rfl
  | store m => cases h; exact .of_same rfl rfl rfl
  | reply a => cases h; exact ⟨fun _ => rfl, fun _ h => h, .inr ⟨rfl, _, rfl, rfl, rfl⟩⟩
  | query q =>
    rcases runQuery_cases h with ⟨e, -, hs, -⟩ | ⟨a, -, -, -, -, rfl⟩
    · rcases hs with rfl | rfl | rfl
      · exact .of_same rfl rfl rfl
      · exact recorded_fail s t
      · exact (recorded_fail (s.see t) t).from rfl rfl rfl
    · unfold write
      cases hx : (s.see t).tx t with
      | none => exact (recorded_publish (s.see t) t _).from rfl rfl rfl
      | some x => exact .of_same rfl rfl rfl

/-- What a step publishes: a whole transaction, or one statement. -/
theorem published_exec {ch : S.Choice} {o : S.Op Mem Reply} {r : o.Res} (h : exec t ch o s = some (r, s')) :
    s'.db = s.db ∨ s'.db = S.applyAll (s.pend t) s.db ∨
      ∃ q pick now d, s'.db = S.applyAll (S.plan q pick now d).writes s.db := by
  cases o with
  | begin =>
    cases h
    unfold beginTx
    cases s.tx t <;> exact .inl rfl
  | commit =>
    cases h
    unfold commitTx pend
    cases hx : s.tx t with
    | none => exact .inl rfl
    | some x =>
      simp only
      split
      · exact .inl rfl
      · split
        · exact .inl rfl
        · exact .inr (.inl rfl)
  | rollback =>
    cases h
    unfold rollbackTx
    cases s.tx t with
    | none => exact .inl rfl
    | some x =>
      simp only
      split <;> exact .inl rfl
  | clock | load | store m | reply a => cases h; exact .inl rfl
  | query q =>
    rcases runQuery_cases h with ⟨e, -, hs, -⟩ | ⟨a, -, -, -, -, rfl⟩
    · rcases hs with rfl | rfl | rfl
      · exact .inl rfl
      · exact .inl (fail_db ..)
      · exact .inl (fail_db ..)
    · unfold write
      cases (s.see t).tx t with
      | none => exact .inr (.inr ⟨q, _, _, _, rfl⟩)
      | some x => exact .inl rfl

end State

section Steps

variable {cond : Fin n → S.Op Mem Reply → S.State n Mem Reply → Prop} {C C₁ C' : Config (Fin n) (S.Op Mem Reply) Op.Res (S.State n Mem Reply) ε}
  {t : Fin n}

theorem recorded_step (h : Step (S.machine n Mem Reply) cond (some t) C C₁) : State.Recorded t C.st C₁.st := by
  cases h with
  | run t ch o k r s' hp hc he => exact State.recorded_exec he
  | crash t => exact .of_same rfl rfl rfl

theorem published_step (h : Step (S.machine n Mem Reply) cond (some t) C C₁) : C₁.st.db = C.st.db ∨
    C₁.st.db = S.applyAll (C.st.pend t) C.st.db ∨ ∃ q pick now d, C₁.st.db = S.applyAll (S.plan q pick now d).writes C.st.db := by
  cases h with
  | run t ch o k r s' hp hc he => exact State.published_exec he
  | crash t => exact .inl rfl

theorem wrote_mono {l : Option (Fin n)} (h : Step (S.machine n Mem Reply) cond l C C₁) (u : Fin n) :
    C.st.wrote u = true → C₁.st.wrote u = true := by
  cases h with
  | run t ch o k r s' hp hc he => exact (State.recorded_exec he).mono u
  | crash t => exact fun h => h
  | env s' he => cases he <;> exact fun h => h

/-- A session that had published keeps so, and says so in its answer. -/
theorem wrote_answer (h : Reaches (S.machine n Mem Reply) cond C C') (hw : C.st.wrote t = true) :
    C'.st.wrote t = true ∧ ∀ a ∈ C'.st.replies, a.who = t → a ∈ C.st.replies ∨ a.wrote = true := by
  induction h with
  | refl => exact ⟨hw, fun a ha _ => .inl ha⟩
  | @tail C₁ C₂ _ hs ih =>
    obtain ⟨l, hs⟩ := hs
    refine ⟨wrote_mono hs t ih.1, fun a ha hwho => ?_⟩
    have hreplies : C₂.st.replies = C₁.st.replies ∨ ∃ u b, C₂.st.replies = C₁.st.replies ++ [b] ∧ b.who = u ∧ b.wrote = C₁.st.wrote u := by
      cases hs with
      | run u ch o k r s' hp hc he =>
        exact (State.recorded_exec he).replies.imp_right fun ⟨_, b, h1, h2, h3⟩ => ⟨u, b, h1, h2, h3⟩
      | crash u => exact .inl rfl
      | env s' he => cases he <;> exact .inl rfl
    rcases hreplies with heq | ⟨u, b, heq, hb, hbw⟩
    · rw [heq] at ha; exact ih.2 a ha hwho
    · rw [heq, List.mem_append] at ha
      rcases ha with ha | ha
      · exact ih.2 a ha hwho
      · cases List.mem_singleton.1 ha
        rw [← hb, hwho] at hbw
        exact .inr (hbw.trans ih.1)

/-- A session that answers that it published nothing left the data alone, at each of its steps. -/
theorem db_of_not_wrote (hs : Step (S.machine n Mem Reply) cond (some t) C C₁) (hr : Reaches (S.machine n Mem Reply) cond C₁ C')
    (hnew : ∀ a ∈ C.st.replies, a.who ≠ t) {a : S.Answer n Reply} (ha : a ∈ C'.st.replies) (hwho : a.who = t)
    (hw : a.wrote = false) : C₁.st.db = C.st.db := by
  have hrec := recorded_step hs
  by_contra hne
  have hwrote : C₁.st.wrote t = true := by
    by_contra h
    exact hne (hrec.wrote (by simpa using h))
  rcases (wrote_answer hr hwrote).2 a ha hwho with ha₁ | ha₁
  · rcases hrec.replies with heq | ⟨hdb, -⟩
    · rw [heq] at ha₁; exact hnew a ha₁ hwho
    · exact hne hdb
  · rw [hw] at ha₁; cases ha₁

end Steps

end Concurrency.Schema
