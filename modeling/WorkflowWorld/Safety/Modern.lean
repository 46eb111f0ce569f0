/-
Runs of spec version 2 or later stay so: the version is written once, with the run. The legacy
handler is therefore never entered for such a run.
-/
import WorkflowWorld.Storage.System

namespace WorkflowWorld

open Concurrency Schema

/-- The version a request works under. -/
def CreateReq.effectiveSpecVersion (D : Deps) (r : CreateReq) : Nat := r.specVersion.getD D.specVersion

/-- The request names run `K`, or mints its id. -/
def CreateReq.Targets (r : CreateReq) (K : RunKey) : Prop :=
  r.tenant = K.1 ∧ (r.run = some K.2 ∨ r.run = none ∧ r.ulid = K.2 ∧ r.event.type = .runCreated)

theorem CreateReq.Under.targets {D : Deps} {me : Nat} {r : CreateReq} {c : Ctx} (h : r.Under D me c) : r.Targets c.key := by
  refine ⟨h.tenant.symm, ?_⟩
  rcases h.run with h | ⟨h1, h2, h3⟩
  · exact .inl h
  · exact .inr ⟨h1, h2.symm, h3⟩

/-- Every request that can create run `K` is of spec version 2 or later. -/
def CreatedModern {n : Nat} (D : Deps) (requests : Fin n → CreateReq) (K : RunKey) : Prop :=
  ∀ t, (requests t).Targets K → (requests t).event.input.isSome = true → 2 ≤ (requests t).effectiveSpecVersion D

def RunRow.Modern (r : RunRow) : Prop := isLegacySpecVersion r.specVersion = false

/-- The run, if it exists, is of spec version 2 or later. -/
def Db.ModernRun (K : RunKey) (d : Db) : Prop := ∀ r, d.runs.lookup K = some r → r.Modern

/-- A write of run `K`'s row leaves it so. -/
def Write.ModernRun (K : RunKey) : Write → Prop
  | .insertRun k r | .updateRun k r => k = K → r.Modern
  | _ => True

theorem Write.ModernRun.apply {K : RunKey} (w : Write) (d : Db) (hw : w.ModernRun K) (hd : d.ModernRun K) :
    (w.apply d).ModernRun K := by
  intro r hr
  cases w with
  | insertRun k r' | updateRun k r' =>
    by_cases h : k = K
    · subst h
      rw [Write.apply, AList.lookup_insert] at hr
      cases hr
      exact hw rfl
    · rw [Write.apply, AList.lookup_insert_ne (Ne.symm h)] at hr
      exact hd r hr
  | _ => exact hd r hr

theorem Write.ModernRun.of_tbl {K : RunKey} {w : Write} (h : w.tbl ≠ .run) : w.ModernRun K := by
  cases w with
  | insertRun | updateRun => exact absurd rfl h
  | _ => trivial

section

variable {n : Nat} (cond : Fin n → Op → State n → Prop) (K : RunKey)

def modernRules : Rules n :=
  TxRules.pointwise (S := schema) n Bool Reply (Db.ModernRun K) (Write.ModernRun K) cond Write.ModernRun.apply
    (by rintro d d' hd ⟨m, rfl⟩; exact hd)

variable {cond K} {t : Fin n} {D : Deps} {requests : Fin n → CreateReq}

/-- A request's own version is no legacy one where it can create the run. -/
theorem CreatedModern.spec (hreq : CreatedModern D requests K) {t : Fin n} {c : Ctx} (hc : (requests t).Under D t c)
    (hk : c.key = K) (hi : (requests t).event.input.isSome = true) : isLegacySpecVersion (some c.specVersion) = false := by
  have h2 := hreq t (hk ▸ hc.targets) hi
  rw [CreateReq.effectiveSpecVersion, ← hc.specVersion] at h2
  exact decide_eq_false (by simp only [Option.getD_some, specVersionLegacy]; omega)

/-- A statement that inserts no legacy run. -/
theorem modern_admits {q : Query} (hq : ∀ k r, q = .insertRun k r → k = K → r.Modern) :
    (modernRules cond K).Admits t (fun _ => True) (fun _ _ => True) q := by
  refine .mono (fun _ h => h) (fun _ _ _ _ => trivial) (.of_inert fun s pick _ hi _ w hw => ?_)
  by_cases ht : w.tbl = .run
  · rcases plan_run hw ht with ⟨k, r, rfl, rfl, -⟩ | ⟨k, r, r', rfl, hr, hsame, -⟩
    · exact hq k r rfl
    · rintro rfl
      have hm : r.Modern := TxRules.pointwise_view hi t r hr
      show isLegacySpecVersion r'.specVersion = false
      rw [hsame.specVersion]; exact hm
  · exact .of_tbl ht

variable (cond) in
/-- The run of spec version 2 or later is so in every session's view, always. -/
theorem modern_safe {d : Db} {now : Nat} (hd : d.ModernRun K) (hreq : CreatedModern D requests K) :
    (modernRules cond K).rules.Safe (initial D requests d now) := by
  refine safe_of_admits hd (fun _ _ _ _ _ => trivial) (fun _ _ _ => trivial) fun t c hc q hq => modern_admits fun k r hqr hk => ?_
  subst hqr
  obtain h | h | ⟨i, hi, rfl, rfl⟩ := hq
  · cases h
  · exact h.elim
  · exact hreq.spec hc hk (by rw [hi]; rfl)

theorem modern_views {d : Db} {now : Nat} (hd : d.ModernRun K) (hreq : CreatedModern D requests K) {C : Configuration n}
    (hr : Reaches (World n) cond (initial D requests d now) C) (u : Fin n) : (C.st.view u).ModernRun K :=
  TxRules.pointwise_view ((modern_safe cond hd hreq).reaches TxRules.tolerates hr).1.inv u

/-- So it may be assumed at every operation. -/
theorem modern_reaches {d : Db} {now : Nat} (hd : d.ModernRun K) (hreq : CreatedModern D requests K) {C C' : Configuration n}
    (hr : Reaches (World n) cond (initial D requests d now) C) (hr' : Reaches (World n) cond C C') :
    Reaches (World n) (fun t o s => cond t o s ∧ ∀ u, (s.view u).ModernRun K) C C' := by
  have hC := ((modern_safe cond hd hreq).reaches TxRules.tolerates hr).1
  exact (hC.strengthen TxRules.tolerates hr').mono fun t o s h => ⟨h.1, fun u => TxRules.pointwise_view h.2 u⟩

end

theorem lifecycle_modern : CreatedModern defaultDeps lifecycle ("t", "r") := by
  have h : ∀ t, 2 ≤ (lifecycle t).effectiveSpecVersion defaultDeps := by decide
  exact fun t _ _ => h t

theorem empty_modern (K : RunKey) : Db.empty.ModernRun K := fun r hr => by cases hr

end WorkflowWorld
