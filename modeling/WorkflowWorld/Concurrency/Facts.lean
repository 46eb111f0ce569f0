/-
Facts about single rows, and records that cite them. A fact is a statement about one row that
the writes made keep; a record, once written, stays and cites a fact. Where every record is written
by a session that sees the fact it cites, every committed record has its fact. A session that has
seen a fact knows it for good: either it is committed, or the row is the session's own until it ends
its transaction. Some writes may undo facts; what is shown then holds of the runs in which no
transaction commits such a write.
-/
import WorkflowWorld.Concurrency.Sessions

namespace Concurrency.Schema

variable {S : Schema} {n : Nat} {Mem Reply : Type}

/-- Facts, each about the row of one key, and the records that cite them. -/
structure Facts (S : Schema) where
  Fact : Type
  holds : Fact → S.Db → Prop
  key : Fact → S.Key
  /-- Some record of the data cites the fact. -/
  cited : Fact → S.Db → Prop
  cites : S.Write → Fact → Prop
  /-- The write may undo a fact. -/
  undoes : S.Write → Prop
  holds_agree : ∀ f d d', S.Agree (key f) d d' → (holds f d ↔ holds f d')
  cited_apply : ∀ f w d, cited f (S.apply w d) ↔ cited f d ∨ cites w f
  cited_ext : ∀ f d d', S.Ext d d' → (cited f d' ↔ cited f d)

namespace Facts

open State

variable {F : Facts S} {f : F.Fact} {ws new ws' : List S.Write} {d d' : S.Db}

theorem cited_applyAll : ∀ (ws : List S.Write) (d : S.Db),
    F.cited f (S.applyAll ws d) ↔ F.cited f d ∨ ∃ w ∈ ws, F.cites w f
  | [], d => by simp [applyAll]
  | w :: ws, d => by
    show F.cited f (S.applyAll ws (S.apply w d)) ↔ _
    rw [cited_applyAll ws, F.cited_apply, or_assoc]
    simp

/-- A row that none of the writes touches. -/
theorem holds_applyAll (h : F.key f ∉ S.touchesAll ws) (d : S.Db) : F.holds f (S.applyAll ws d) ↔ F.holds f d :=
  (F.holds_agree f _ _ (agree_applyAll ws d h)).symm

/-- Every fact that is cited holds. -/
def Backed (F : Facts S) (d : S.Db) : Prop := ∀ f, F.cited f d → F.holds f d

/-- Facts stay. -/
def Grows (F : Facts S) (d d' : S.Db) : Prop := ∀ f, F.holds f d → F.holds f d'

/-- The writes keep every fact, and cite none that they leave open. -/
structure Fits (F : Facts S) (d : S.Db) (new : List S.Write) : Prop where
  grows : F.Grows d (S.applyAll new d)
  backed : ∀ f, ∀ w ∈ new, F.cites w f → F.holds f (S.applyAll new d)

/-- Writes that fit one by one, wherever they are made. -/
theorem Fits.of_each (h : ∀ w ∈ new, ∀ d, F.Fits d [w]) (d : S.Db) : F.Fits d new := by
  induction new generalizing d with
  | nil => exact ⟨fun _ h => h, fun _ _ hw => by cases hw⟩
  | cons w new ih =>
    have h1 := h w (List.mem_cons_self ..) d
    have h2 := ih (fun w' hw' => h w' (List.mem_cons_of_mem _ hw')) (S.apply w d)
    refine ⟨fun f hh => h2.grows f (h1.grows f hh), fun f w' hw' hc => ?_⟩
    rcases List.mem_cons.1 hw' with rfl | hw'
    · exact h2.grows f (h1.backed f w' (List.mem_singleton.2 rfl) hc)
    · exact h2.backed f w' hw' hc

/-- Some write of the list may undo a fact. -/
def Undone (F : Facts S) (ws : List S.Write) : Prop := ∃ w ∈ ws, F.undoes w

/-- The pending writes on top of the committed data keep its facts and back what is cited. -/
structure Draft (F : Facts S) (ws : List S.Write) (d : S.Db) : Prop where
  grows : F.Grows d (S.applyAll ws d)
  backed : F.Backed (S.applyAll ws d)

theorem Undone.append (h : F.Undone ws) (new : List S.Write) : F.Undone (ws ++ new) := by
  obtain ⟨w, hw, hu⟩ := h
  exact ⟨w, List.mem_append_left _ hw, hu⟩

theorem Draft.append (h : F.Draft ws d) (hf : F.Fits (S.applyAll ws d) new) : F.Draft (ws ++ new) d := by
  have happ := applyAll_append ws new d
  refine ⟨fun f hh => ?_, fun f hc => ?_⟩
  · rw [happ]; exact hf.grows f (h.grows f hh)
  · rw [happ] at hc ⊢
    rcases (cited_applyAll new _).1 hc with hc | ⟨w, hw, hc⟩
    · exact hf.grows f (h.backed f hc)
    · exact hf.backed f w hw hc

/-- Another session's commit leaves a draft as good as it was: at most one of the two touches a row. -/
theorem Draft.others (h : F.Draft ws d) (h' : F.Draft ws' d) (hex : ∀ k ∈ S.touchesAll ws, k ∉ S.touchesAll ws') :
    F.Draft ws' (S.applyAll ws d) := by
  -- a row of the pending transaction was not moved by the commit
  have hmine : ∀ f, F.key f ∈ S.touchesAll ws' →
      (F.holds f (S.applyAll ws d) ↔ F.holds f d) ∧
      (F.holds f (S.applyAll ws' (S.applyAll ws d)) ↔ F.holds f (S.applyAll ws' d)) := by
    intro f hk
    have hnot : F.key f ∉ S.touchesAll ws := fun hin => hex _ hin hk
    refine ⟨holds_applyAll hnot d, (F.holds_agree f _ _ ?_).symm⟩
    exact agree_applyAll_congr ws' _ _ (agree_applyAll ws d hnot)
  have hgrows : F.Grows (S.applyAll ws d) (S.applyAll ws' (S.applyAll ws d)) := by
    intro f hh
    by_cases hk : F.key f ∈ S.touchesAll ws'
    · obtain ⟨h1, h2⟩ := hmine f hk
      exact h2.2 (h'.grows f (h1.1 hh))
    · exact (holds_applyAll hk _).2 hh
  refine ⟨hgrows, fun f hc => ?_⟩
  rcases (cited_applyAll ws' _).1 hc with hc | hc
  · exact hgrows f (h.backed f hc)
  · have hh := h'.backed f ((cited_applyAll ws' d).2 (.inr hc))
    by_cases hk : F.key f ∈ S.touchesAll ws'
    · exact (hmine f hk).2.2 hh
    · exact hgrows f (h.grows f ((holds_applyAll hk d).1 hh))

theorem Draft.ext (h : F.Draft ws d) (he : S.Ext d d') : F.Draft ws d' := by
  have hag : ∀ f, F.holds f d ↔ F.holds f d' := fun f => F.holds_agree f _ _ (S.agree_ext _ _ _ he)
  have hag' : ∀ f, F.holds f (S.applyAll ws d) ↔ F.holds f (S.applyAll ws d') :=
    fun f => F.holds_agree f _ _ (agree_applyAll_congr ws _ _ (S.agree_ext _ _ _ he))
  refine ⟨fun f hh => (hag' f).1 (h.grows f ((hag f).2 hh)), fun f hc => (hag' f).1 (h.backed f ?_)⟩
  rw [cited_applyAll] at hc ⊢
  exact hc.imp_left (F.cited_ext f d d' he).1

/-- The rules that back every record, in runs in which no transaction that undoes a fact commits. -/
def rules (F : Facts S) (cond : Fin n → S.Op Mem Reply → S.State n Mem Reply → Prop) : TxRules S n Mem Reply where
  data := F.Backed
  draft _ ws _ d := F.Undone ws ∨ F.Draft ws d
  steady _ _ := True
  ready _ ws := ¬F.Undone ws
  inert w := ¬F.undoes w ∧ ∀ d, F.Fits d [w]
  grows := F.Grows
  spares _ _ _ := True
  effect _ _ _ := True
  answer _ _ _ _ _ := True
  cond := cond
  recalls := False
  grows_refl _ _ h := h
  grows_trans _ _ _ h1 h2 f h := h2 f (h1 f h)
  spares_refl _ _ := trivial
  spares_trans _ _ _ _ _ _ := trivial
  effect_refl _ _ := trivial
  effect_spares _ _ _ _ _ _ := trivial
  draft_nil _ d hd := .inr ⟨fun _ h => h, hd⟩
  draft_inert _ ws _ new _ d h hn := h.imp (·.append new) fun h => h.append (.of_each (fun w hw => (hn w hw).2) _)
  steady_nil _ := trivial
  steady_inert _ _ _ _ _ := trivial
  ready_inert _ ws h := fun ⟨w, hw, hu⟩ => (h w hw).1 hu
  spares_inert _ _ _ _ := trivial
  publish _ ws _ d _ h hr := by
    have hd := h.resolve_left hr
    exact ⟨hd.backed, hd.grows, trivial⟩
  others _ ws _ _ ws' _ d _ h hr _ h' hks hw hw' :=
    h'.imp_right fun h' => (h.resolve_left hr).others h' fun k hk hk' => hks k (hw k hk) (hw' k hk')
  ext d d' hd he := by
    have hag : ∀ f, F.holds f d ↔ F.holds f d' := fun f => F.holds_agree f _ _ (S.agree_ext _ _ _ he)
    exact ⟨fun f hc => (hag f).1 (hd f ((F.cited_ext f d d' he).1 hc)), fun f => (hag f).1, fun _ => trivial⟩
  ext_draft _ ws _ d d' h he := h.imp_right (·.ext he)
  answer_grows _ _ _ _ _ _ h _ := h

/-! ## What a session knows -/

variable {cond : Fin n → S.Op Mem Reply → S.State n Mem Reply → Prop} {t : Fin n} {s s' : S.State n Mem Reply}

/-- The fact holds for good as session `t` goes on: it is committed, or the row is the session's own, or the
session has undone facts itself. -/
def Known (F : Facts S) (t : Fin n) (f : F.Fact) (s : S.State n Mem Reply) : Prop :=
  F.holds f s.db ∨ (F.key f ∈ s.locks t ∧ F.holds f (s.view t)) ∨ F.Undone (s.pend t)

/-- What the session sees it knows. -/
theorem known_of_view (hb : Base s) (h : F.holds f (s.view t)) : F.Known t f s := by
  by_cases hl : F.key f ∈ s.locks t
  · exact .inr (.inl ⟨hl, h⟩)
  · refine .inl ?_
    have hnot : F.key f ∉ S.touchesAll (s.pend t) := fun hin => hl (hb.touchesAll_pend t _ hin)
    rw [view_eq, holds_applyAll hnot] at h
    exact h

theorem Known.view (hi : (F.rules cond).Inv s) (h : F.Known t f s) : F.Undone (s.pend t) ∨ F.holds f (s.view t) := by
  rcases h with h | ⟨-, h⟩ | h
  · refine (hi.draft_pend t).imp_right fun hd => ?_
    rw [view_eq]
    exact hd.grows f h
  · exact .inr h
  · exact .inl h

/-- What is known stays known. -/
def Knows (F : Facts S) (t : Fin n) (s s' : S.State n Mem Reply) : Prop := ∀ f, F.Known t f s → F.Known t f s'

/-- Where the session's own writes and locks stayed. -/
theorem Knows.of_same (hg : F.Grows s.db s'.db) (hp : s'.pend t = s.pend t) (hl : s.locks t ⊆ s'.locks t)
    (hag : ∀ k ∈ s.locks t, S.Agree k s.db s'.db) : F.Knows t s s' := by
  intro f h
  rcases h with h | ⟨h1, h2⟩ | h
  · exact .inl (hg f h)
  · refine .inr (.inl ⟨hl h1, ?_⟩)
    rw [view_eq] at h2 ⊢
    rw [hp]
    exact (F.holds_agree f _ _ (agree_applyAll_congr _ _ _ (hag _ h1))).1 h2
  · exact .inr (.inr (by rw [hp]; exact h))

/-- A statement that keeps every fact, or undoes. -/
theorem Knows.write {takes : List S.Key} {ws : List S.Write} (hu : s.tx t = none → ¬F.Undone ws)
    (h : F.Undone (s.pend t ++ ws) ∨ F.Grows (s.view t) (S.applyAll ws (s.view t))) : F.Knows t s (s.write t takes ws) := by
  intro f hf
  cases hx : s.tx t with
  | none =>
    have hv : s.view t = s.db := by unfold State.view; rw [hx]
    have hp : s.pend t = [] := by unfold State.pend; rw [hx]
    rw [hp, List.nil_append] at h
    have hgrow := h.resolve_left (hu hx)
    rw [hv] at hgrow
    rw [TxRules.write_tx_none hx]
    rcases hf with hf | ⟨-, hf⟩ | ⟨w, hw, -⟩
    · exact .inl (hgrow f hf)
    · exact .inl (hgrow f (hv ▸ hf))
    · rw [hp] at hw; cases hw
  | some x =>
    have hpend := TxRules.write_pend hx takes ws
    rcases h with h | h
    · exact .inr (.inr (by rw [hpend]; exact h))
    · rcases hf with hf | ⟨hl, hf⟩ | hf
      · exact .inl (by rw [TxRules.write_db hx]; exact hf)
      · refine .inr (.inl ⟨?_, by rw [write_view]; exact h f hf⟩)
        rw [TxRules.write_locks hx]; exact List.mem_append_left _ hl
      · exact .inr (.inr (by rw [hpend]; exact hf.append ws))

/-- The session's own write makes the fact. -/
theorem known_write {takes : List S.Key} {ws : List S.Write} (hk : F.key f ∈ S.touchesAll ws)
    (h : F.holds f (S.applyAll ws (s.view t))) : F.Known t f (s.write t takes ws) := by
  cases hx : s.tx t with
  | none =>
    rw [TxRules.write_tx_none hx]
    unfold State.view at h; rw [hx] at h
    exact .inl h
  | some x =>
    refine .inr (.inl ⟨?_, by rw [write_view]; exact h⟩)
    rw [TxRules.write_locks hx]
    exact List.mem_append_right _ (List.mem_append_right _ hk)

theorem Knows.read (s : S.State n Mem Reply) (t : Fin n) (takes : List S.Key) : F.Knows t s ((s.see t).write t takes []) :=
  Knows.write (s := s.see t) (fun _ ⟨_, hw, _⟩ => by cases hw) (.inr fun _ h => h)

theorem knows_store (m : Mem) (s : S.State n Mem Reply) : F.Knows t s { s with mem := Function.update s.mem t m } :=
  fun _ h => h

/-- No transaction that undoes a fact commits. -/
def Kept (F : Facts S) (cond : Fin n → S.Op Mem Reply → S.State n Mem Reply → Prop) : Prop :=
  ∀ t s c, cond t .commit s → s.nest t = some ([], c) → ¬F.Undone (s.pend t)

theorem knows_frame (hkept : F.Kept cond) {A : S.State n Mem Reply → Prop} (hkeep : ∀ s s', A s → F.Knows t s s' → A s') :
    (F.rules cond).Frame t A (F.Knows t) := by
  have henter : ∀ s : S.State n Mem Reply, F.Knows t s (s.beginTx t) := by
    intro s
    obtain ⟨-, -, -, hp, hl⟩ := TxRules.beginTx_tx s t
    have hdb := TxRules.beginTx_db s t
    exact .of_same (by rw [hdb]; exact fun _ h => h) hp (by rw [hl]; exact fun _ h => h)
      fun k _ => by rw [hdb]; exact S.agree_refl k _
  refine
    { refl := fun s _ f h => h
      trans := fun a b c h1 h2 f h => h2 f (h1 f h)
      rely := fun s s' _ _ hr => .of_same hr.rel hr.keep.pend (by rw [hr.keep.locks]; exact fun _ h => h) hr.keep.agree
      failed := fun s s' _ hf => ?_
      keeps := fun s s' ha _ h => hkeep s s' ha h
      enter := fun s ha => hkeep s _ ha (henter s)
      ready := fun s₁ s₃ _ hx hc _ _ hw _ => hkept t s₃ s₁.now hc (by rw [hw.nest, TxRules.beginTx_nest, hx])
      commit := fun s₁ s₃ _ hi hr hw hg => ?_
      rollback := fun s₁ s₃ _ hi hw hg => ?_ }
  · have hst := hf.still (R := F.rules cond)
    have hp : s'.pend t = s.pend t := by
      rcases hf with rfl | rfl | rfl
      · rfl
      · exact fail_pend ..
      · exact fail_pend ..
    exact .of_same hst.grows hp hst.locks hst.agree
  · intro f h
    cases hx : s₁.tx t with
    | none =>
      rcases h with h | ⟨h, -⟩ | ⟨w, h, -⟩
      · exact .inl ((hw.commitTx hi hr).grows f h)
      · simp [State.locks, hx] at h
      · simp [State.pend, hx] at h
    | some x =>
      obtain ⟨x₃, hx₃, hc, -⟩ := TxRules.commitTx_inner hx hw.nest
      have h₃ := hg f (henter s₁ f h)
      rw [hc]
      rcases h₃ with h₃ | ⟨h₃, h₄⟩ | h₃
      · exact .inl h₃
      · refine .inr (.inl ⟨?_, ?_⟩)
        · unfold State.locks at h₃ ⊢; rw [setTx_tx_self]; rw [hx₃] at h₃; exact h₃
        · unfold State.view at h₄ ⊢; rw [setTx_tx_self]; rw [hx₃] at h₄; exact h₄
      · refine .inr (.inr ?_)
        unfold State.pend at h₃ ⊢; rw [setTx_tx_self]; rw [hx₃] at h₃; exact h₃
  · have hback := hw.rollbackTx
    have htx := TxRules.rollbackTx_tx hw.nest
    exact .of_same hback.grows (by unfold State.pend; rw [htx]) hback.locks hback.agree

/-- A statement whose writes undo, or fit what the session sees. -/
theorem admits_of_fits {A : S.State n Mem Reply → Prop} {q : S.Query}
    (hq : ∀ s pick, Base s → (F.rules cond).Inv s → A s → cond t (.query q) s →
      (s.tx t = none → ¬F.Undone (S.plan q pick (s.clock t) (s.view t)).writes) ∧
      (F.Undone (s.pend t ++ (S.plan q pick (s.clock t) (s.view t)).writes) ∨
        F.Fits (s.view t) (S.plan q pick (s.clock t) (s.view t)).writes)) :
    (F.rules cond).Admits t A (F.Knows t) q := by
  intro s pick a hb hi _ ha hc _ _
  obtain ⟨hu, hf⟩ := hq s pick hb hi ha hc
  refine ⟨⟨?_, fun hx => hu hx⟩, trivial, Knows.write (s := s.see t) hu (hf.imp_right (·.grows))⟩
  rcases hf with hf | hf
  · exact .inl hf
  · refine (hi.draft_pend t).imp (·.append _) fun hd => hd.append ?_
    rw [← view_eq]
    exact hf

end Facts

end Concurrency.Schema
