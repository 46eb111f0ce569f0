/-
The keys a session can hold: those its statements take or write, and no others.
-/
import WorkflowWorld.Concurrency.Slices

namespace Concurrency.Schema

open State

variable {S : Schema} {n : Nat} {Mem Reply ε : Type} {s s' : S.State n Mem Reply} {t : Fin n}

/-- The keys a statement holds from then on. -/
def Op.holds (t : Fin n) (ch : S.Choice) (s : S.State n Mem Reply) : S.Op Mem Reply → List S.Key
  | .query q => (S.plan q ch.pick (s.clock t) (s.view t)).takes ++ S.touchesAll (S.plan q ch.pick (s.clock t) (s.view t)).writes
  | _ => []

theorem locks_setTx {x : Option S.Tx} {ks : List S.Key} (h : ∀ y, x = some y → ∀ k ∈ y.locks, k ∈ s.locks t ∨ k ∈ ks) :
    ∀ k ∈ (s.setTx t x).locks t, k ∈ s.locks t ∨ k ∈ ks := by
  intro k hk
  unfold State.locks at hk
  rw [setTx_tx_self] at hk
  cases x with
  | none => cases hk
  | some y => exact h y rfl k hk

/-- After an operation a session holds what it held, and what its statement took. -/
theorem locks_exec (hb : Base s) {ch : S.Choice} {o : S.Op Mem Reply} {r : o.Res} (he : State.exec t ch o s = some (r, s')) :
    ∀ k ∈ s'.locks t, k ∈ s.locks t ∨ k ∈ Op.holds t ch s o := by
  cases o with
  | begin =>
    cases he
    unfold State.beginTx
    cases hx : s.tx t with
    | none => exact locks_setTx fun y hy k hk => by cases hy; cases hk
    | some x => exact locks_setTx fun y hy k hk => by cases hy; exact .inl (by rw [locks_of_tx hx]; exact hk)
  | commit =>
    cases he
    unfold State.commitTx
    cases hx : s.tx t with
    | none => exact fun k hk => .inl hk
    | some x =>
      simp only
      split
      · refine locks_setTx fun y hy k hk => ?_
        cases hy
        exact .inl (by rw [locks_of_tx hx]; exact hk)
      · split
        · exact locks_setTx nofun
        · intro k hk
          have hnone : ∀ k ∈ (s.setTx t none).locks t, k ∈ s.locks t ∨ k ∈ ([] : List S.Key) := locks_setTx nofun
          exact (hnone k hk).imp_right nofun
  | rollback =>
    cases he
    unfold State.rollbackTx
    cases hx : s.tx t with
    | none => exact fun k hk => .inl hk
    | some x =>
      simp only
      split
      · rename_i m rest hs
        refine locks_setTx fun y hy k hk => ?_
        cases hy
        rw [locks_of_tx hx]
        exact .inl (((hb.txOk t x hx).pop hs).2.2.2.subset hk)
      · exact locks_setTx nofun
  | clock | load | store | reply => cases he; exact fun k hk => .inl hk
  | query q =>
    rcases runQuery_cases he with ⟨e, -, rfl | rfl | rfl, -⟩ | ⟨x, -, -, -, -, rfl⟩
    · exact fun k hk => .inl hk
    · exact fun k hk => .inl (by rw [fail_locks] at hk; exact hk)
    · exact fun k hk => .inl (by rw [fail_locks] at hk; exact hk)
    · intro k hk
      unfold State.write at hk
      cases hx : s.tx t with
      | none =>
        rw [show (s.see t).tx t = none from hx] at hk
        have hnone : s.locks t = [] := by unfold State.locks; rw [hx]
        change k ∈ s.locks t at hk
        rw [hnone] at hk
        cases hk
      | some x =>
        rw [show (s.see t).tx t = some x from hx] at hk
        unfold State.locks at hk
        rw [setTx_tx_self] at hk
        rw [locks_of_tx hx]
        exact List.mem_append.1 hk

variable {C C' : Sessions S n Mem Reply ε}

/-- The statement takes and writes such keys. -/
def HoldsOnly (K : S.Key → Prop) (q : S.Query) : Prop :=
  ∀ pick clock d, ∀ k ∈ (S.plan q pick clock d).takes ++ S.touchesAll (S.plan q pick clock d).writes, K k

/-- Every session issues statements of its own kind, and holds keys of its own kind. -/
structure HeldKeys (P : Fin n → Nat → S.Query → Prop) (K : Fin n → S.Key → Prop) (C : Sessions S n Mem Reply ε) : Prop where
  base : Base C.st
  locks : ∀ t, ∀ k ∈ C.st.locks t, K t k
  issues : ∀ t, Timely (P t) C.st.now (C.prog t)

variable {P : Fin n → Nat → S.Query → Prop} {K : Fin n → S.Key → Prop}

theorem HeldKeys.run (hP : ∀ t now q, P t now q → HoldsOnly (K t) q) (h : HeldKeys P K C) (t : Fin n) {ch : S.Choice} {o : S.Op Mem Reply} {k : o.Res → Prog (S.Op Mem Reply) Op.Res ε Unit}
    {r : o.Res} {s' : S.State n Mem Reply} (hp : C.prog t = .op o k) (he : State.exec t ch o C.st = some (r, s')) :
    HeldKeys P K ⟨s', Function.update C.prog t (k r)⟩ := by
  obtain ⟨hb, hkeep⟩ := exec_spec h.base he
  have hissues := h.issues t
  rw [hp] at hissues
  obtain ⟨hquery, hrest⟩ := hissues.exec h.base he
  refine ⟨hb, fun u key hkey => ?_, fun u => ?_⟩ <;> by_cases hut : u = t
  · subst hut
    rcases locks_exec h.base he key hkey with hkey | hkey
    · exact h.locks u key hkey
    · cases o with
      | query q => exact hP u _ q (hquery q rfl) _ _ _ key hkey
      | _ => cases hkey
  · change key ∈ s'.locks u at hkey
    rw [(hkeep u hut).locks] at hkey
    exact h.locks u key hkey
  · subst hut
    show Timely _ _ (Function.update C.prog u (k r) u)
    rw [Function.update_self]
    exact hrest
  · show Timely _ _ (Function.update C.prog t (k r) u)
    rw [Function.update_of_ne hut, (Effect.exec h.base he).now]
    exact h.issues u

theorem HeldKeys.crash (h : HeldKeys P K C) (t : Fin n) : HeldKeys P K ⟨C.st.crash t, Function.update C.prog t (.pure ())⟩ := by
  refine ⟨h.base.setTx nofun nofun, fun u key hkey => ?_, fun u => ?_⟩ <;> by_cases hut : u = t
  · subst hut
    have hnone : (C.st.setTx u none).locks u = [] := by
      unfold State.locks
      rw [setTx_tx_self]
    change key ∈ (C.st.setTx u none).locks u at hkey
    rw [hnone] at hkey
    cases hkey
  · change key ∈ (C.st.setTx t none).locks u at hkey
    rw [(Keep.setTx hut ..).locks] at hkey
    exact h.locks u key hkey
  · subst hut
    show Timely _ _ (Function.update C.prog u (.pure ()) u)
    rw [Function.update_self]
    trivial
  · show Timely _ _ (Function.update C.prog t (.pure ()) u)
    rw [Function.update_of_ne hut]
    exact h.issues u

theorem HeldKeys.reaches {cond : Fin n → S.Op Mem Reply → S.State n Mem Reply → Prop} (hP : ∀ t now q, P t now q → HoldsOnly (K t) q)
    (hlater : ∀ {t now now' q}, now ≤ now' → P t now q → P t now' q) (h : HeldKeys P K C)
    (hr : Reaches (S.machine n Mem Reply) cond C C') : HeldKeys P K C' := by
  induction hr with
  | refl => exact h
  | tail _ hs ih =>
    obtain ⟨_, hs⟩ := hs
    cases hs with
    | run t ch o k r s' hp _ he => exact ih.run hP t hp he
    | crash t => exact ih.crash t
    | env s' he =>
      obtain ⟨hb, hkeep⟩ := env_spec ih.base he
      refine ⟨hb, fun u key hkey => ?_, fun u => (ih.issues u).later (P := P u) hlater (hkeep u).now⟩
      change key ∈ s'.locks u at hkey
      rw [(hkeep u).locks] at hkey
      exact ih.locks u key hkey

/-- A statement waits for a session that holds a key it needs. -/
theorem exists_holder {ch : S.Choice} {q : S.Query} (hw : State.exec t ch (.query q) s = none) :
    ∃ u, u ≠ t ∧ ∃ k ∈ waits (S.plan q ch.pick (s.clock t) (s.view t)), k ∈ s.locks u := by
  change s.runQuery t ch q = none at hw
  unfold runQuery at hw
  simp only at hw
  split at hw
  · cases hw
  · split at hw
    · cases hw
    · split at hw
      · rename_i hbl
        unfold State.blocked at hbl
        rw [List.any_eq_true] at hbl
        obtain ⟨u, -, hu⟩ := hbl
        simp only [Bool.and_eq_true, bne_iff_ne, ne_eq, List.any_eq_true, List.contains_iff_mem] at hu
        exact ⟨u, hu.1, hu.2⟩
      · split at hw <;> cases hw

end Concurrency.Schema
