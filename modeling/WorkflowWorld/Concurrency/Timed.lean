/-
Invariants that move with the clock: rules for every time, which ask less the later it is. They hold along a run, in each of
its states at the time it is.
-/
import WorkflowWorld.Concurrency.Sessions

namespace Concurrency.Schema

open Rules State

variable {S : Schema} {n : Nat} {Mem Reply : Type} {s s' : S.State n Mem Reply} {t u : Fin n}

/-! ## What an operation leaves -/

/-- An operation takes no time, and a transaction keeps the time it began at. -/
structure Clocked (s s' : S.State n Mem Reply) : Prop where
  now : s'.now = s.now
  started : ∀ u x', s'.tx u = some x' → x'.startedAt = s.now ∨ ∃ x, s.tx u = some x ∧ x'.startedAt = x.startedAt

theorem Clocked.of_tx (hnow : s'.now = s.now) (htx : s'.tx = s.tx) : Clocked s s' :=
  ⟨hnow, fun u x' hx' => .inr ⟨x', by rw [← htx]; exact hx', rfl⟩⟩

theorem Clocked.of_see (h : Clocked (s.see t) s') : Clocked s s' := ⟨h.now, h.started⟩

theorem Clocked.setTx {x' : Option S.Tx} (h : ∀ y, x' = some y → y.startedAt = s.now ∨ ∃ x, s.tx t = some x ∧ y.startedAt = x.startedAt) :
    Clocked s (s.setTx t x') := by
  refine ⟨rfl, fun u y hy => ?_⟩
  by_cases hu : u = t
  · subst hu
    rw [setTx_tx_self] at hy
    exact h y hy
  · rw [setTx_tx_ne _ _ hu] at hy
    exact .inr ⟨y, hy, rfl⟩

theorem Clocked.fail (s : S.State n Mem Reply) (t : Fin n) : Clocked s (s.fail t) := by
  unfold State.fail
  cases hx : s.tx t with
  | none => exact .of_tx rfl rfl
  | some x => exact .setTx fun y hy => .inr ⟨x, hx, by cases hy; rfl⟩

theorem Clocked.write (s : S.State n Mem Reply) (t : Fin n) (takes : List S.Key) (ws : List S.Write) :
    Clocked s (s.write t takes ws) := by
  unfold State.write
  cases hx : s.tx t with
  | none => exact .of_tx rfl rfl
  | some x => exact .setTx fun y hy => .inr ⟨x, hx, by cases hy; rfl⟩

theorem clocked_exec {ch : S.Choice} {o : S.Op Mem Reply} {r : o.Res} (h : exec t ch o s = some (r, s')) : Clocked s s' := by
  cases o with
  | begin =>
    cases h
    unfold beginTx
    cases hx : s.tx t with
    | none => exact .setTx fun y hy => .inl (by cases hy; rfl)
    | some x => exact .setTx fun y hy => .inr ⟨x, hx, by cases hy; rfl⟩
  | commit =>
    cases h
    unfold commitTx
    cases hx : s.tx t with
    | none => exact .of_tx rfl rfl
    | some x =>
      simp only
      split
      · exact .setTx fun y hy => .inr ⟨x, hx, by cases hy; rfl⟩
      · have hnone : Clocked s (s.setTx t none) := .setTx nofun
        split
        · exact hnone
        · exact ⟨rfl, hnone.started⟩
  | rollback =>
    cases h
    unfold rollbackTx
    cases hx : s.tx t with
    | none => exact .of_tx rfl rfl
    | some x =>
      simp only
      split
      · exact .setTx fun y hy => .inr ⟨x, hx, by cases hy; rfl⟩
      · exact .setTx nofun
  | clock | load | store | reply => cases h; exact .of_tx rfl rfl
  | query q =>
    rcases runQuery_cases h with ⟨e, -, rfl | rfl | rfl, -⟩ | ⟨a, -, -, -, -, rfl⟩
    · exact .of_tx rfl rfl
    · exact .fail s t
    · exact .of_see (.fail (s.see t) t)
    · exact .of_see (.write (s.see t) t _ _)

namespace TxRules

/-- An operation keeps rules that ask nothing of a commit or an answer, if what its statement writes fits. -/
theorem ok_exec {R : TxRules S n Mem Reply} (hready : ∀ t ws, R.ready t ws) (hans : ∀ t r o b d, R.answer t r o b d) (hb : Base s)
    (hi : R.Inv s) {ch : S.Choice} {o : S.Op Mem Reply} {r : o.Res} (h : exec t ch o s = some (r, s'))
    (hq : ∀ q, o = .query q → ∀ a, (S.plan q ch.pick (s.clock t) (s.view t)).ans = .ok a →
      R.Extends t s (S.plan q ch.pick (s.clock t) (s.view t)).takes (S.plan q ch.pick (s.clock t) (s.view t)).writes) :
    R.rules.Ok t s s' := by
  cases o with
  | begin => cases h; exact ok_of_db (beginTx_db ..) (Inv.beginTx hi)
  | commit => cases h; exact ok_commitTx hi hb fun _ _ => hready ..
  | rollback => cases h; exact ok_of_db (rollbackTx_db ..) (Inv.rollbackTx hi)
  | clock | load => cases h; exact ok_of_db rfl hi
  | store m => cases h; exact ok_of_db rfl (Inv.of_eq hi rfl rfl rfl)
  | reply a =>
    cases h
    refine ok_of_db rfl ⟨hi.data, hi.drafts, fun b hb' => ?_⟩
    exact hans ..
  | query q =>
    rcases runQuery_cases h with ⟨e, -, hs, -⟩ | ⟨a, -, ha, -, hbl, rfl⟩
    · obtain ⟨h1, h2⟩ := Failed.inv hi hs
      exact ok_of_db h2 h1
    · have hf : (s.see t).Free t ((S.plan q ch.pick (s.clock t) (s.view t)).takes ++
          S.touchesAll (S.plan q ch.pick (s.clock t) (s.view t)).writes) :=
        fun u hu k hk => blocked_eq_false hbl hu k (List.mem_append_right _ hk)
      exact ok_write (Inv.see hi) (hb.of_tx rfl) hf (hq q rfl a ha)

end TxRules

/-! ## Rules for every time -/

section Timed

variable (R : Nat → TxRules S n Mem Reply)

/-- What holds of the data and of a draft still holds later; nothing is asked of a commit or an answer. -/
structure Lasting : Prop where
  data : ∀ {N N' d}, N ≤ N' → (R N).data d → (R N').data d
  draft : ∀ {N N' t ws ks d}, N ≤ N' → (R N).draft t ws ks d → (R N').draft t ws ks d
  grows : ∀ {N N' d d'}, (R N).grows d d' → (R N').grows d d'
  ready : ∀ N t ws, (R N).ready t ws
  answer : ∀ N t r o b d, (R N).answer t r o b d

/-- The rules at the time it is. -/
def timed (cond : Fin n → S.Op Mem Reply → S.State n Mem Reply → Prop) : Rules (S.machine n Mem Reply) where
  inv s := (R s.now).Inv s ∧ ∀ u x, s.tx u = some x → x.startedAt ≤ s.now
  cond := cond
  rel s s' := (R 0).grows s.db s'.db
  guar _ _ _ := True
  spares _ _ _ := True
  rel_refl _ := (R 0).grows_refl _
  rel_trans _ _ _ := (R 0).grows_trans _ _ _
  spares_refl _ _ := trivial
  spares_trans _ _ _ _ _ _ := trivial
  guar_spares _ _ _ _ _ _ := trivial

variable {R} {cond : Fin n → S.Op Mem Reply → S.State n Mem Reply → Prop}

theorem Lasting.inv (hR : Lasting R) {N N' : Nat} (h : N ≤ N') (hi : (R N).Inv s) : (R N').Inv s :=
  ⟨hR.data h hi.data, fun t m hm => hR.draft h (hi.drafts t m hm), fun _ _ => hR.answer ..⟩

/-- An operation keeps the rules if its statement does at the time it is. -/
theorem Lasting.ok_exec (hR : Lasting R) (hb : Base s) (hi : (timed R cond).inv s) {ch : S.Choice} {o : S.Op Mem Reply} {r : o.Res}
    (h : exec t ch o s = some (r, s'))
    (hq : ∀ q, o = .query q → ∀ a, (S.plan q ch.pick (s.clock t) (s.view t)).ans = .ok a →
      (R s.now).Extends t s (S.plan q ch.pick (s.clock t) (s.view t)).takes (S.plan q ch.pick (s.clock t) (s.view t)).writes) :
    (timed R cond).Ok t s s' := by
  obtain ⟨hinv, hgrows, -⟩ := TxRules.ok_exec (hR.ready _) (hR.answer _) hb hi.1 h hq
  have hclock := clocked_exec h
  refine ⟨⟨by rw [hclock.now]; exact hinv, fun u x' hx' => ?_⟩, hR.grows hgrows, trivial⟩
  rw [hclock.now]
  rcases hclock.started u x' hx' with hnow | ⟨x, hx, hstart⟩
  · rw [hnow]
  · rw [hstart]
    exact hi.2 u x hx

theorem Lasting.tolerates (hR : Lasting R) : (timed R cond).Tolerates where
  crash t s _ hi := by
    refine ⟨⟨TxRules.Inv.drop hi.1, fun u x hx => ?_⟩, (R 0).grows_refl _, trivial⟩
    by_cases hu : u = t
    · subst hu
      change (s.setTx u none).tx u = some x at hx
      rw [setTx_tx_self] at hx
      cases hx
    · change (s.setTx t none).tx u = some x at hx
      rw [setTx_tx_ne _ _ hu] at hx
      exact hi.2 u x hx
  env s s' _ hi he := by
    cases he with
    | tick d =>
      have hle : s.now ≤ s.now + d := Nat.le_add_right ..
      refine ⟨⟨?_, fun u x hx => Nat.le_trans (hi.2 u x hx) hle⟩, (R 0).grows_refl _, fun _ => trivial⟩
      exact TxRules.Inv.of_eq (s := s) (hR.inv hle hi.1) rfl rfl rfl
    | ext d he =>
      obtain ⟨h1, h2, -⟩ := (R s.now).ext _ _ hi.1.data he
      refine ⟨⟨⟨h1, fun t m hm => (R s.now).ext_draft _ _ _ _ _ (hi.1.drafts t m hm) he, fun _ _ => hR.answer ..⟩, hi.2⟩,
        hR.grows h2, fun _ => trivial⟩

end Timed

end Concurrency.Schema
