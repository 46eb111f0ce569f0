/-
Invariants of a database under READ COMMITTED. A claim about the committed data comes as `TxRules`:
what holds of the committed data, what holds of the writes a transaction has pending (at each of
its savepoints too), what a transaction has reached when it commits, and which writes are beside
the point. The server's own operations then keep the rules, and so does every program all of whose
statements write only what is beside the point; what is left to show for a program are its other
statements, with the rules `wp_query` and `wp_transaction`.
-/
import WorkflowWorld.Concurrency.ReadCommitted

namespace Concurrency.Schema

open Rules

variable {S : Schema} {n : Nat} {Mem Reply : Type}

/-! ## Programs of a session -/

section Programs

variable {ε α : Type} (wrap : SqlError S.Viol → ε)

/-- One statement; its failure is thrown. -/
def statement (q : S.Query) : Prog (S.Op Mem Reply) Op.Res ε (S.Ans q) :=
  .op (.query q) fun r : Except (SqlError S.Viol) (S.Ans q) =>
    match r with
    | .ok a => .pure a
    | .error e => .throw (wrap e)

/-- A transaction, or a savepoint inside one: rolled back when its body throws. -/
def transaction (body : Prog (S.Op Mem Reply) Op.Res ε α) : Prog (S.Op Mem Reply) Op.Res ε α :=
  .op .begin fun _ => do
    let a ← tryCatch body fun e => .op .rollback fun _ => throw e
    .op .commit fun _ => pure a

end Programs

namespace State

variable (s : S.State n Mem Reply) (t : Fin n)

/-- The moments session `t` can still go on from: its transaction's present one and its
savepoints. -/
def marks : List S.Mark :=
  match s.tx t with
  | none => []
  | some x => x.toMark :: x.saves

/-- The savepoints of session `t`, with its transaction's clock. -/
def nest : Option (List S.Mark × Nat) := (s.tx t).map fun x => (x.saves, x.startedAt)

/-- The others hold none of the keys. -/
def Free (ks : List S.Key) : Prop := ∀ u, u ≠ t → ∀ k ∈ ks, k ∉ s.locks u

end State

/-- A claim about the committed data, with the invariant that carries it. -/
structure TxRules (S : Schema) (n : Nat) (Mem Reply : Type) where
  /-- Of the committed data. -/
  data : S.Db → Prop
  /-- Of a transaction's pending writes and its locks, on the committed data. -/
  draft : Fin n → List S.Write → List S.Key → S.Db → Prop
  /-- Of the pending writes of a transaction between the statements of its program. -/
  steady : Fin n → List S.Write → Prop
  /-- Of the pending writes of a transaction that commits. -/
  ready : Fin n → List S.Write → Prop
  /-- The writes beside the point. -/
  inert : S.Write → Prop
  /-- How the committed data changes. -/
  grows : S.Db → S.Db → Prop
  /-- What the others' commits leave to a session. -/
  spares : Fin n → S.Db → S.Db → Prop
  /-- What a session's commit does. -/
  effect : Fin n → S.Db → S.Db → Prop
  /-- What an answer says of the committed data, with what its session had seen and written. -/
  answer : Fin n → Reply → Option S.Db → Bool → S.Db → Prop
  /-- The condition on the operations executed. -/
  cond : Fin n → S.Op Mem Reply → S.State n Mem Reply → Prop
  /-- The programs' own memory matters. -/
  recalls : Prop
  grows_refl : ∀ d, grows d d
  grows_trans : ∀ a b c, grows a b → grows b c → grows a c
  spares_refl : ∀ t d, spares t d d
  spares_trans : ∀ t a b c, spares t a b → spares t b c → spares t a c
  effect_refl : ∀ t d, effect t d d
  effect_spares : ∀ t u d d', u ≠ t → effect t d d' → spares u d d'
  draft_nil : ∀ t d, data d → draft t [] [] d
  draft_inert : ∀ t ws ks new ks' d, draft t ws ks d → (∀ w ∈ new, inert w) → draft t (ws ++ new) (ks ++ ks') d
  steady_nil : ∀ t, steady t []
  steady_inert : ∀ t ws new, steady t ws → (∀ w ∈ new, inert w) → steady t (ws ++ new)
  ready_inert : ∀ t ws, (∀ w ∈ ws, inert w) → ready t ws
  spares_inert : ∀ t ws d, (∀ w ∈ ws, inert w) → spares t d (S.applyAll ws d)
  publish : ∀ t ws ks d, data d → draft t ws ks d → ready t ws →
    data (S.applyAll ws d) ∧ grows d (S.applyAll ws d) ∧ effect t d (S.applyAll ws d)
  others : ∀ t ws ks u ws' ks' d, data d → draft t ws ks d → ready t ws → u ≠ t → draft u ws' ks' d →
    (∀ k ∈ ks, k ∉ ks') → (∀ k ∈ S.touchesAll ws, k ∈ ks) → (∀ k ∈ S.touchesAll ws', k ∈ ks') →
    draft u ws' ks' (S.applyAll ws d)
  ext : ∀ d d', data d → S.Ext d d' → data d' ∧ grows d d' ∧ ∀ t, spares t d d'
  ext_draft : ∀ t ws ks d d', draft t ws ks d → S.Ext d d' → draft t ws ks d'
  answer_grows : ∀ t r o b d d', answer t r o b d → grows d d' → answer t r o b d'

namespace TxRules

variable (R : TxRules S n Mem Reply)

/-- The invariant of the whole server. -/
structure Inv (s : S.State n Mem Reply) : Prop where
  data : R.data s.db
  drafts : ∀ t, ∀ m ∈ s.marks t, R.draft t m.writes m.locks s.db
  answers : ∀ a ∈ s.replies, R.answer a.who a.reply a.seen a.wrote s.db

def rules : Rules (S.machine n Mem Reply) where
  inv := R.Inv
  cond := R.cond
  rel s s' := R.grows s.db s'.db
  guar t s s' := R.effect t s.db s'.db
  spares t s s' := R.spares t s.db s'.db
  rel_refl _ := R.grows_refl _
  rel_trans _ _ _ := R.grows_trans _ _ _
  spares_refl _ _ := R.spares_refl _ _
  spares_trans _ _ _ _ := R.spares_trans _ _ _ _
  guar_spares _ _ _ _ := R.effect_spares _ _ _ _

/-- Every moment session `t` can go on from is a steady one. -/
def Sound (t : Fin n) (s : S.State n Mem Reply) : Prop := ∀ m ∈ s.marks t, R.steady t m.writes

/-- Session `t` went on by nothing but writes beside the point, and the others did what they may. -/
structure Still (t : Fin n) (s s' : S.State n Mem Reply) : Prop where
  grows : R.grows s.db s'.db
  spares : R.spares t s.db s'.db
  nest : s'.nest t = s.nest t
  pend : ∃ ws, s'.pend t = s.pend t ++ ws ∧ ∀ w ∈ ws, R.inert w
  locks : s.locks t ⊆ s'.locks t
  now : s.now ≤ s'.now
  wrote : s.nest t ≠ none → s'.wrote t = s.wrote t
  mem : R.recalls → s'.mem t = s.mem t
  agree : ∀ k ∈ s.locks t, S.Agree k s.db s'.db

variable {R} {t u : Fin n} {s s' : S.State n Mem Reply} {l : List S.Mark} {c : Nat}

open State

theorem Still.refl (t : Fin n) (s : S.State n Mem Reply) : R.Still t s s :=
  ⟨R.grows_refl _, R.spares_refl _ _, rfl, ⟨[], by simp, by simp⟩, fun _ h => h, le_refl _, fun _ => rfl, fun _ => rfl,
    fun k _ => S.agree_refl k _⟩

theorem Still.trans {a b c : S.State n Mem Reply} (h1 : R.Still t a b) (h2 : R.Still t b c) : R.Still t a c := by
  obtain ⟨ws, hp1, hi1⟩ := h1.pend
  obtain ⟨ws', hp2, hi2⟩ := h2.pend
  refine ⟨R.grows_trans _ _ _ h1.grows h2.grows, R.spares_trans _ _ _ _ h1.spares h2.spares, h2.nest.trans h1.nest,
    ⟨ws ++ ws', by rw [hp2, hp1, List.append_assoc], fun w hw => ?_⟩, fun k hk => h2.locks (h1.locks hk),
    le_trans h1.now h2.now, fun hn => (h2.wrote (by rw [h1.nest]; exact hn)).trans (h1.wrote hn),
    fun hr => (h2.mem hr).trans (h1.mem hr),
    fun k hk => S.agree_trans k _ _ _ (h1.agree k hk) (h2.agree k (h1.locks hk))⟩
  rcases List.mem_append.1 hw with h | h
  · exact hi1 w h
  · exact hi2 w h

theorem nest_of_tx (h : s'.tx t = s.tx t) : s'.nest t = s.nest t := by unfold State.nest; rw [h]

theorem marks_of_tx (h : s'.tx t = s.tx t) : s'.marks t = s.marks t := by unfold State.marks; rw [h]

theorem Still.of_rely (h : R.rules.Rely t s s') : R.Still t s s' :=
  ⟨h.rel, h.spares, nest_of_tx h.keep.tx, ⟨[], by rw [h.keep.pend, List.append_nil], by simp⟩,
    fun k hk => by rw [h.keep.locks]; exact hk, h.keep.now, fun _ => h.keep.wrote, fun _ => h.keep.mem, h.keep.agree⟩

theorem Sound.of_rely (hs : R.Sound t s) (h : R.rules.Rely t s s') : R.Sound t s' := by
  intro m hm
  rw [marks_of_tx h.keep.tx] at hm
  exact hs m hm

/-! ## The server's operations keep the rules -/

theorem mem_marks {x : S.Tx} (h : s.tx t = some x) {m : S.Mark} :
    m ∈ s.marks t ↔ m = x.toMark ∨ m ∈ x.saves := by
  unfold State.marks; rw [h]; exact List.mem_cons

theorem marks_none (h : s.tx t = none) : s.marks t = [] := by unfold State.marks; rw [h]

theorem marks_setTx_ne (hu : u ≠ t) (x : Option S.Tx) : (s.setTx t x).marks u = s.marks u :=
  marks_of_tx (setTx_tx_ne _ _ hu)

theorem Inv.setTx (h : R.Inv s) {x : Option S.Tx}
    (hx : ∀ m ∈ (s.setTx t x).marks t, R.draft t m.writes m.locks s.db) : R.Inv (s.setTx t x) := by
  refine ⟨h.data, fun u m hm => ?_, h.answers⟩
  by_cases hu : u = t
  · subst hu; exact hx m hm
  · rw [marks_setTx_ne hu] at hm; exact h.drafts u m hm

/-- The keys of any moment of a transaction are among those it holds. -/
theorem marks_locks (hb : Base s) {m : S.Mark} (hm : m ∈ s.marks t) :
    (∀ k ∈ S.touchesAll m.writes, k ∈ m.locks) ∧ ∀ k ∈ m.locks, k ∈ s.locks t := by
  cases hx : s.tx t with
  | none => rw [marks_none hx] at hm; cases hm
  | some x =>
    have hok := hb.txOk t x hx
    rw [locks_of_tx hx]
    rcases (mem_marks hx).1 hm with rfl | hm
    · exact ⟨hok.top.touchesAll, fun k hk => hk⟩
    · exact ⟨(hok.saves m hm).1.touchesAll, fun k hk => (hok.saves m hm).2.2.subset hk⟩

theorem Inv.publish (h : R.Inv s) (hb : Base s) (hx : s.tx t = none) {ws : List S.Write} {ks : List S.Key}
    (hd : R.draft t ws ks s.db) (hr : R.ready t ws) (hks : ∀ k ∈ S.touchesAll ws, k ∈ ks) (hf : s.Free t ks) :
    R.rules.Ok t s (s.publish t ws) := by
  obtain ⟨h1, h2, h3⟩ := R.publish t ws ks s.db h.data hd hr
  refine ⟨⟨h1, fun u m hm => ?_, fun a ha => R.answer_grows _ _ _ _ _ _ (h.answers a ha) h2⟩, h2, h3⟩
  have hm' : m ∈ s.marks u := hm
  by_cases hu : u = t
  · subst hu; rw [marks_none hx] at hm'; cases hm'
  · obtain ⟨hl1, hl2⟩ := marks_locks hb hm'
    exact R.others t ws ks u m.writes m.locks s.db h.data hd hr hu (h.drafts u m hm')
      (fun k hk hk' => hf u hu k hk (hl2 k hk')) hks hl1

/-- A step that leaves the committed data and the answers alone. -/
theorem ok_of_db (hdb : s'.db = s.db) (hi : R.Inv s') : R.rules.Ok t s s' := by
  refine ⟨hi, ?_, ?_⟩
  · show R.grows s.db s'.db
    rw [hdb]; exact R.grows_refl _
  · show R.effect t s.db s'.db
    rw [hdb]; exact R.effect_refl _ _

theorem Inv.of_eq (h : R.Inv s) (hdb : s'.db = s.db) (htx : s'.tx = s.tx) (hr : s'.replies = s.replies) : R.Inv s' := by
  refine ⟨by rw [hdb]; exact h.data, fun u m hm => ?_, by rw [hr, hdb]; exact h.answers⟩
  rw [marks_of_tx (congrFun htx u)] at hm
  rw [hdb]; exact h.drafts u m hm

theorem Inv.see (h : R.Inv s) : R.Inv (s.see t) := h.of_eq rfl rfl rfl

theorem marks_setTx_self (x : Option S.Tx) :
    (s.setTx t x).marks t = match x with
      | none => []
      | some y => y.toMark :: y.saves := by
  unfold State.marks; rw [setTx_tx_self]

theorem beginTx_tx (s : S.State n Mem Reply) (t : Fin n) : ∃ y, (s.beginTx t).tx t = some y ∧
    (∀ m ∈ y.toMark :: y.saves, m = ⟨[], [], false⟩ ∨ m ∈ s.marks t) ∧ (s.beginTx t).pend t = s.pend t ∧
    (s.beginTx t).locks t = s.locks t := by
  unfold beginTx
  cases hx : s.tx t with
  | none =>
    refine ⟨_, setTx_tx_self .., fun m hm => .inl (List.mem_singleton.1 hm), ?_, ?_⟩
    · unfold State.pend; rw [setTx_tx_self, hx]
    · unfold State.locks; rw [setTx_tx_self, hx]
  | some x =>
    refine ⟨_, setTx_tx_self .., fun m hm => .inr ?_, ?_, ?_⟩
    · rcases List.mem_cons.1 hm with rfl | hm
      · exact (mem_marks hx).2 (.inl rfl)
      · rcases List.mem_cons.1 hm with rfl | hm
        · exact (mem_marks hx).2 (.inl rfl)
        · exact (mem_marks hx).2 (.inr hm)
    · unfold State.pend; rw [setTx_tx_self, hx]
    · unfold State.locks; rw [setTx_tx_self, hx]

theorem beginTx_db (s : S.State n Mem Reply) (t : Fin n) : (s.beginTx t).db = s.db := by
  unfold beginTx; cases s.tx t <;> rfl

theorem beginTx_replies (s : S.State n Mem Reply) (t : Fin n) : (s.beginTx t).replies = s.replies := by
  unfold beginTx; cases s.tx t <;> rfl

theorem beginTx_ne (s : S.State n Mem Reply) (hu : u ≠ t) : (s.beginTx t).tx u = s.tx u := by
  unfold beginTx; cases s.tx t <;> exact setTx_tx_ne _ _ hu

theorem Inv.beginTx (h : R.Inv s) : R.Inv (s.beginTx t) := by
  obtain ⟨y, hy, hm, -⟩ := beginTx_tx s t
  refine ⟨by rw [beginTx_db]; exact h.data, fun u m hmu => ?_, by rw [beginTx_db, beginTx_replies]; exact h.answers⟩
  rw [beginTx_db]
  by_cases hu : u = t
  · subst hu
    unfold State.marks at hmu
    rw [hy] at hmu
    rcases hm m hmu with rfl | hmu
    · exact R.draft_nil _ _ h.data
    · exact h.drafts u m hmu
  · rw [marks_of_tx (beginTx_ne s hu)] at hmu
    exact h.drafts u m hmu

theorem Sound.beginTx (h : R.Sound t s) : R.Sound t (s.beginTx t) := by
  obtain ⟨y, hy, hm, -⟩ := beginTx_tx s t
  intro m hmu
  unfold State.marks at hmu
  rw [hy] at hmu
  rcases hm m hmu with rfl | hmu
  · exact R.steady_nil _
  · exact h m hmu

theorem commitTx_nested {x : S.Tx} {m : S.Mark} {rest : List S.Mark} (hx : s.tx t = some x) (hs : x.saves = m :: rest) :
    s.commitTx t = s.setTx t (some { x with saves := rest }) := by
  unfold commitTx; simp only [hx, hs]

theorem commitTx_top {x : S.Tx} (hx : s.tx t = some x) (hs : x.saves = []) :
    s.commitTx t = if x.failed then s.setTx t none else (s.setTx t none).publish t x.writes := by
  unfold commitTx; simp only [hx, hs]

theorem Inv.drop (h : R.Inv s) : R.Inv (s.setTx t none) :=
  h.setTx fun m hm => by rw [marks_setTx_self] at hm; cases hm

/-- A commit keeps the rules, once what it publishes is ready. -/
theorem ok_commitTx (h : R.Inv s) (hb : Base s) (hr : ∀ c, s.nest t = some ([], c) → R.ready t (s.pend t)) :
    R.rules.Ok t s (s.commitTx t) := by
  cases hx : s.tx t with
  | none =>
    have : s.commitTx t = s := by unfold commitTx; rw [hx]
    rw [this]; exact ok_of_db rfl h
  | some x =>
    cases hs : x.saves with
    | cons m rest =>
      rw [commitTx_nested hx hs]
      refine ok_of_db rfl (h.setTx fun m' hm => h.drafts t m' ?_)
      rw [marks_setTx_self] at hm
      rw [mem_marks hx, hs]
      rcases List.mem_cons.1 hm with rfl | hm
      · exact .inl rfl
      · exact .inr (List.mem_cons_of_mem _ hm)
    | nil =>
      rw [commitTx_top hx hs]
      split
      · exact ok_of_db rfl h.drop
      · have hd := h.drafts t x.toMark ((mem_marks hx).2 (.inl rfl))
        have hr := hr x.startedAt (by unfold State.nest; rw [hx, Option.map_some, hs])
        rw [pend_of_tx hx] at hr
        have hb' : Base (s.setTx t none) := hb.setTx (fun y hy => by cases hy) (fun y hy => by cases hy)
        have hf : (s.setTx t none).Free t x.locks := by
          intro u hu k hk
          have hl : (s.setTx t none).locks u = s.locks u := by unfold State.locks; rw [setTx_tx_ne _ _ hu]
          rw [hl]
          exact hb.excl t u (Ne.symm hu) k (by rw [locks_of_tx hx]; exact hk)
        exact h.drop.publish hb' (setTx_tx_self ..) hd hr (hb.txOk t x hx).top.touchesAll hf

theorem rollbackTx_eq {x : S.Tx} (hx : s.tx t = some x) :
    s.rollbackTx t = s.setTx t (match x.saves with
      | m :: rest => some ⟨m, rest, x.startedAt⟩
      | [] => none) := by
  unfold rollbackTx
  cases hs : x.saves <;> simp only [hx, hs]

theorem rollbackTx_marks (s : S.State n Mem Reply) (t : Fin n) : ∀ m ∈ (s.rollbackTx t).marks t, m ∈ s.marks t := by
  intro m hm
  cases hx : s.tx t with
  | none =>
    have : s.rollbackTx t = s := by unfold rollbackTx; rw [hx]
    rw [this] at hm; exact hm
  | some x =>
    rw [rollbackTx_eq hx, marks_setTx_self] at hm
    rw [mem_marks hx]
    cases hs : x.saves with
    | nil => rw [hs] at hm; cases hm
    | cons m' rest => rw [hs] at hm; exact .inr hm

theorem rollbackTx_db (s : S.State n Mem Reply) (t : Fin n) : (s.rollbackTx t).db = s.db := by
  cases hx : s.tx t with
  | none => unfold rollbackTx; rw [hx]
  | some x => rw [rollbackTx_eq hx]; rfl

theorem Inv.rollbackTx (h : R.Inv s) : R.Inv (s.rollbackTx t) := by
  cases hx : s.tx t with
  | none =>
    have : s.rollbackTx t = s := by unfold State.rollbackTx; rw [hx]
    rw [this]; exact h
  | some x =>
    have hm := rollbackTx_marks s t
    rw [rollbackTx_eq hx] at hm ⊢
    exact h.setTx fun m hm' => h.drafts t m (hm m hm')

theorem fail_marks (s : S.State n Mem Reply) (t : Fin n) {m : S.Mark} (hm : m ∈ (s.fail t).marks t) :
    ∃ m' ∈ s.marks t, m.writes = m'.writes ∧ m.locks = m'.locks := by
  cases hx : s.tx t with
  | none =>
    have : s.fail t = s := by unfold fail; rw [hx]
    rw [this] at hm; exact ⟨m, hm, rfl, rfl⟩
  | some x =>
    have : s.fail t = s.setTx t (some { x with failed := true }) := by unfold fail; rw [hx]
    rw [this, marks_setTx_self] at hm
    rcases List.mem_cons.1 hm with rfl | hm
    · exact ⟨x.toMark, (mem_marks hx).2 (.inl rfl), rfl, rfl⟩
    · exact ⟨m, (mem_marks hx).2 (.inr hm), rfl, rfl⟩

theorem Inv.fail (h : R.Inv s) : R.Inv (s.fail t) := by
  have hm := @fail_marks S n Mem Reply s t
  cases hx : s.tx t with
  | none =>
    have : s.fail t = s := by unfold State.fail; rw [hx]
    rw [this]; exact h
  | some x =>
    have : s.fail t = s.setTx t (some { x with failed := true }) := by unfold State.fail; rw [hx]
    rw [this] at hm ⊢
    refine h.setTx fun m hm' => ?_
    obtain ⟨m', h1, h2, h3⟩ := hm hm'
    rw [h2, h3]; exact h.drafts t m' h1

theorem fail_nest (s : S.State n Mem Reply) (t : Fin n) : (s.fail t).nest t = s.nest t := by
  unfold State.fail State.nest
  cases hx : s.tx t <;> simp [hx]

theorem fail_rest (s : S.State n Mem Reply) (t : Fin n) :
    (s.fail t).now = s.now ∧ (s.fail t).wrote = s.wrote ∧ (s.fail t).mem = s.mem := by
  unfold State.fail; cases s.tx t <;> exact ⟨rfl, rfl, rfl⟩

theorem Still.fail (s : S.State n Mem Reply) (t : Fin n) : R.Still t s (s.fail t) := by
  obtain ⟨h1, h2, h3⟩ := fail_rest s t
  exact ⟨by rw [fail_db]; exact R.grows_refl _, by rw [fail_db]; exact R.spares_refl _ _, fail_nest s t,
    ⟨[], by rw [fail_pend, List.append_nil], by simp⟩, by rw [fail_locks]; exact fun _ h => h, by rw [h1],
    fun _ => by rw [h2], fun _ => by rw [h3], fun k _ => by rw [fail_db]; exact S.agree_refl k _⟩

theorem Still.see (s : S.State n Mem Reply) (t : Fin n) : R.Still t s (s.see t) :=
  ⟨R.grows_refl _, R.spares_refl _ _, rfl, ⟨[], by simp, by simp⟩, fun _ h => h, le_refl _, fun _ => rfl, fun _ => rfl,
    fun k _ => S.agree_refl k _⟩

theorem Sound.fail (h : R.Sound t s) : R.Sound t (s.fail t) := by
  intro m hm
  obtain ⟨m', h1, h2, -⟩ := fail_marks s t hm
  rw [h2]; exact h m' h1

theorem tolerates : R.rules.Tolerates where
  crash t s _ hi := ok_of_db rfl (Inv.drop hi)
  env s s' _ hi he := by
    cases he with
    | tick d =>
      exact ⟨Inv.of_eq hi rfl rfl rfl, R.grows_refl _, fun t => R.spares_refl _ _⟩
    | ext d he =>
      obtain ⟨h1, h2, h3⟩ := R.ext _ _ hi.data he
      exact ⟨⟨h1, fun t m hm => R.ext_draft _ _ _ _ _ (hi.drafts t m hm) he,
        fun a ha => R.answer_grows _ _ _ _ _ _ (hi.answers a ha) h2⟩, h2, h3⟩

/-! ## Statements -/

/-- What a statement of session `t` has to show for its writes. -/
def Extends (R : TxRules S n Mem Reply) (t : Fin n) (s : S.State n Mem Reply) (takes : List S.Key)
    (ws : List S.Write) : Prop :=
  R.draft t (s.pend t ++ ws) (s.locks t ++ (takes ++ S.touchesAll ws)) s.db ∧ (s.tx t = none → R.ready t ws)

theorem ok_write (h : R.Inv s) (hb : Base s) {takes : List S.Key} {ws : List S.Write}
    (hf : s.Free t (takes ++ S.touchesAll ws)) (he : R.Extends t s takes ws) :
    R.rules.Ok t s (s.write t takes ws) := by
  cases hx : s.tx t with
  | none =>
    have hp : s.pend t = [] := by unfold State.pend; rw [hx]
    have hl : s.locks t = [] := by unfold State.locks; rw [hx]
    have hw : s.write t takes ws = s.publish t ws := by unfold State.write; rw [hx]
    obtain ⟨h1, h2⟩ := he
    rw [hp, hl] at h1
    rw [hw]
    exact h.publish hb hx h1 (h2 hx) (fun k hk => List.mem_append_right _ (List.mem_append_right _ hk)) hf
  | some x =>
    have hw : s.write t takes ws = s.setTx t (some { x with
        writes := x.writes ++ ws
        locks := x.locks ++ (takes ++ S.touchesAll ws) }) := by unfold State.write; rw [hx]
    rw [hw]
    refine ok_of_db rfl (h.setTx fun m hm => ?_)
    rw [marks_setTx_self] at hm
    rcases List.mem_cons.1 hm with rfl | hm
    · have h1 := he.1
      rw [pend_of_tx hx, locks_of_tx hx] at h1
      exact h1
    · exact h.drafts t m ((mem_marks hx).2 (.inr hm))

theorem write_tx_none (hx : s.tx t = none) (takes : List S.Key) (ws : List S.Write) :
    s.write t takes ws = s.publish t ws := by unfold State.write; rw [hx]

theorem write_nest (s : S.State n Mem Reply) (t : Fin n) (takes : List S.Key) (ws : List S.Write) :
    (s.write t takes ws).nest t = s.nest t := by
  unfold State.write State.nest
  cases hx : s.tx t <;> simp [hx, State.publish]

theorem write_aborted (s : S.State n Mem Reply) (t : Fin n) (takes : List S.Key) (ws : List S.Write) :
    (s.write t takes ws).aborted t = s.aborted t := by
  unfold State.write State.aborted
  cases hx : s.tx t <;> simp [hx, State.publish]

theorem write_pend {x : S.Tx} (hx : s.tx t = some x) (takes : List S.Key) (ws : List S.Write) :
    (s.write t takes ws).pend t = s.pend t ++ ws := by
  unfold State.write State.pend; simp [hx]

theorem write_locks {x : S.Tx} (hx : s.tx t = some x) (takes : List S.Key) (ws : List S.Write) :
    (s.write t takes ws).locks t = s.locks t ++ (takes ++ S.touchesAll ws) := by
  unfold State.write State.locks; simp [hx]

theorem write_db {x : S.Tx} (hx : s.tx t = some x) (takes : List S.Key) (ws : List S.Write) :
    (s.write t takes ws).db = s.db := by
  unfold State.write; simp [hx]

theorem write_rest (s : S.State n Mem Reply) (t : Fin n) (takes : List S.Key) (ws : List S.Write) :
    (s.write t takes ws).now = s.now ∧ (s.write t takes ws).mem = s.mem ∧
      (s.nest t ≠ none → (s.write t takes ws).wrote = s.wrote) := by
  unfold State.write
  cases hx : s.tx t with
  | none => exact ⟨rfl, rfl, fun h => absurd (by unfold State.nest; rw [hx]; rfl) h⟩
  | some x => exact ⟨rfl, rfl, fun _ => rfl⟩

theorem write_saves {x : S.Tx} (hx : s.tx t = some x) (takes : List S.Key) (ws : List S.Write) {m : S.Mark}
    (hm : m ∈ (s.write t takes ws).marks t) : m.writes = s.pend t ++ ws ∨ m ∈ x.saves := by
  have hw : s.write t takes ws = s.setTx t (some { x with
      writes := x.writes ++ ws
      locks := x.locks ++ (takes ++ S.touchesAll ws) }) := by unfold State.write; rw [hx]
  rw [hw, marks_setTx_self] at hm
  rcases List.mem_cons.1 hm with rfl | hm
  · exact .inl (by rw [pend_of_tx hx])
  · exact .inr hm

section Statement

variable {ε : Type} {wrap : SqlError S.Viol → ε} {α : Type} {Q : α → S.State n Mem Reply → Prop}
  {E : ε → S.State n Mem Reply → Prop}

/-- The states a failed statement can leave. -/
def Failed (t : Fin n) (s s' : S.State n Mem Reply) : Prop := s' = s ∨ s' = s.fail t ∨ s' = (s.see t).fail t

theorem Failed.still (h : Failed t s s') : R.Still t s s' := by
  rcases h with rfl | rfl | rfl
  · exact .refl t _
  · exact .fail _ t
  · exact (Still.see s t).trans (.fail _ t)

/-- A failure leaves the committed state and what the session has done. -/
theorem Failed.same (h : Failed t s s') :
    s'.db = s.db ∧ s'.pend t = s.pend t ∧ s'.locks t = s.locks t ∧ s'.nest t = s.nest t := by
  rcases h with rfl | rfl | rfl
  · exact ⟨rfl, rfl, rfl, rfl⟩
  · exact ⟨fail_db .., fail_pend .., fail_locks .., fail_nest ..⟩
  · exact ⟨fail_db .., fail_pend .., fail_locks .., fail_nest ..⟩

theorem Failed.sound (hs : R.Sound t s) (h : Failed t s s') : R.Sound t s' := by
  rcases h with rfl | rfl | rfl
  · exact hs
  · exact hs.fail
  · exact Sound.fail (s := s.see t) hs

theorem Failed.inv (hi : R.Inv s) (h : Failed t s s') : R.Inv s' ∧ s'.db = s.db := by
  rcases h with rfl | rfl | rfl
  · exact ⟨hi, rfl⟩
  · exact ⟨hi.fail, fail_db ..⟩
  · exact ⟨hi.see.fail, by rw [fail_db]; rfl⟩

/-- A statement: what its plan writes is shown to fit, and it ends in `Q`, or fails in `E`. -/
theorem wp_query (q : S.Query) {Q : S.Ans q → S.State n Mem Reply → Prop} (s : S.State n Mem Reply)
    (hok : ∀ s₁ pick a, Base s₁ → R.Inv s₁ → R.rules.Rely t s s₁ → R.cond t (.query q) s₁ →
      (S.plan q pick (s₁.clock t) (s₁.view t)).ans = .ok a → s₁.aborted t = false →
      s₁.Free t (waits (S.plan q pick (s₁.clock t) (s₁.view t))) →
      R.Extends t s₁ (S.plan q pick (s₁.clock t) (s₁.view t)).takes (S.plan q pick (s₁.clock t) (s₁.view t)).writes ∧
      Q a ((s₁.see t).write t (S.plan q pick (s₁.clock t) (s₁.view t)).takes
        (S.plan q pick (s₁.clock t) (s₁.view t)).writes))
    (herr : ∀ s₁ s₂ e, Base s₁ → R.Inv s₁ → R.rules.Rely t s s₁ → R.cond t (.query q) s₁ → Failed t s₁ s₂ →
      (∀ v, e = .raised v → ∃ pick, (S.plan q pick (s₁.clock t) (s₁.view t)).ans = .error v ∧
        s₁.Free t (waits (S.plan q pick (s₁.clock t) (s₁.view t)))) → E (wrap e) s₂) :
    R.rules.wp t (statement wrap q) Q E s := by
  intro s₁ hb hi hr hc ch r s₂ he
  have hfree : ∀ {ks : List S.Key}, s₁.blocked t ks = false → s₁.Free t ks :=
    fun h u hu k hk => blocked_eq_false h hu k hk
  rcases runQuery_cases he with ⟨e, rfl, hs, hv⟩ | ⟨a, rfl, ha, hab, hbl, rfl⟩
  · obtain ⟨h1, h2⟩ := Failed.inv hi hs
    refine ⟨ok_of_db h2 h1, ?_⟩
    exact herr s₁ s₂ e hb hi hr hc hs fun v hev => ⟨ch.pick, (hv v hev).1, hfree (hv v hev).2.1⟩
  · obtain ⟨h1, h2⟩ := hok s₁ ch.pick a hb hi hr hc ha hab (hfree hbl)
    have hf : (s₁.see t).Free t ((S.plan q ch.pick (s₁.clock t) (s₁.view t)).takes ++
        S.touchesAll (S.plan q ch.pick (s₁.clock t) (s₁.view t)).writes) :=
      fun u hu k hk => blocked_eq_false hbl hu k (List.mem_append_right _ hk)
    exact ⟨ok_write (Inv.see hi) (hb.of_tx rfl) hf h1, h2⟩

/-- A transaction: from `s₁.beginTx`, its body ends where the same savepoints lie below it, ready
to commit; a throw is rolled back to where it began. -/
theorem wp_transaction {body : Prog (S.Op Mem Reply) Op.Res ε α} {U : α → S.State n Mem Reply → Prop}
    {V : ε → S.State n Mem Reply → Prop} (s : S.State n Mem Reply)
    (hbody : ∀ s₁, Base s₁ → R.Inv s₁ → R.rules.Rely t s s₁ →
      R.rules.wp t body (fun a s₂ => (∀ c, s₂.nest t = some ([], c) → R.ready t (s₂.pend t)) ∧ U a s₂) V (s₁.beginTx t))
    (hcommit : ∀ a s₂ s₃, U a s₂ → Base s₃ → R.Inv s₃ → R.rules.Rely t s₂ s₃ → Q a (s₃.commitTx t))
    (hrollback : ∀ e s₂ s₃, V e s₂ → Base s₃ → R.Inv s₃ → R.rules.Rely t s₂ s₃ → E e (s₃.rollbackTx t)) :
    R.rules.wp t (transaction body) Q E s := by
  intro s₁ hb hi hr _ ch r s₂ he
  cases he
  refine ⟨ok_of_db (beginTx_db ..) (Inv.beginTx hi), ?_⟩
  rw [wp_bind, wp_tryCatch]
  refine wp_mono ?_ ?_ _ _ (hbody s₁ hb hi hr)
  · rintro a s₂ ⟨hready, hq⟩ s₃ hb₃ hi₃ hr₃ _ _ r₃ s₄ he₃
    cases he₃
    have hpend : s₃.pend t = s₂.pend t := hr₃.keep.pend
    refine ⟨ok_commitTx hi₃ hb₃ fun c hc => ?_, hcommit a s₂ s₃ hq hb₃ hi₃ hr₃⟩
    rw [hpend]; exact hready c (by rw [← nest_of_tx hr₃.keep.tx]; exact hc)
  · intro e s₂ heb s₃ hb₃ hi₃ hr₃ _ _ r₃ s₄ he₃
    cases he₃
    exact ⟨ok_of_db (rollbackTx_db ..) (Inv.rollbackTx hi₃), hrollback e s₂ s₃ heb hb₃ hi₃ hr₃⟩

end Statement

/-! ## Entering and leaving a transaction -/

theorem beginTx_nest (s : S.State n Mem Reply) (t : Fin n) : (s.beginTx t).nest t = some (match s.tx t with
    | none => ([], s.now)
    | some x => (x.toMark :: x.saves, x.startedAt)) := by
  unfold State.beginTx State.nest
  cases hx : s.tx t <;> simp

theorem nest_some (h : s.nest t = some (l, c)) : ∃ x, s.tx t = some x ∧ x.saves = l ∧ x.startedAt = c := by
  unfold State.nest at h
  cases hx : s.tx t with
  | none => rw [hx] at h; cases h
  | some x => rw [hx] at h; cases h; exact ⟨x, rfl, rfl, rfl⟩

theorem nest_none : s.nest t = none ↔ s.tx t = none := by
  unfold State.nest; exact Option.map_eq_none_iff

/-- The end of a transaction that a session outside one began. -/
theorem commitTx_outer {s₁ s₃ : S.State n Mem Reply} (hx : s₁.tx t = none) (hn : s₃.nest t = (s₁.beginTx t).nest t) :
    s₃.commitTx t = s₃.setTx t none ∨ s₃.commitTx t = (s₃.setTx t none).publish t (s₃.pend t) := by
  rw [beginTx_nest, hx] at hn
  obtain ⟨x, hx₃, hs, -⟩ := nest_some hn
  rw [commitTx_top hx₃ hs, pend_of_tx hx₃]
  split
  · exact .inl rfl
  · exact .inr rfl

/-- The end of a savepoint: what was written since stays pending. -/
theorem commitTx_inner {s₁ s₃ : S.State n Mem Reply} {x : S.Tx} (hx : s₁.tx t = some x)
    (hn : s₃.nest t = (s₁.beginTx t).nest t) : ∃ x₃, s₃.tx t = some x₃ ∧
      s₃.commitTx t = s₃.setTx t (some { x₃ with saves := x.saves }) ∧ x₃.startedAt = x.startedAt := by
  rw [beginTx_nest, hx] at hn
  obtain ⟨x₃, hx₃, hs, hc⟩ := nest_some hn
  exact ⟨x₃, hx₃, commitTx_nested hx₃ hs, hc⟩

theorem commitTx_nest {s₁ s₃ : S.State n Mem Reply} (hn : s₃.nest t = (s₁.beginTx t).nest t) :
    (s₃.commitTx t).nest t = s₁.nest t := by
  cases hx : s₁.tx t with
  | none =>
    rw [nest_none.2 hx, nest_none]
    rcases commitTx_outer hx hn with h | h <;> rw [h] <;> exact setTx_tx_self ..
  | some x =>
    obtain ⟨x₃, -, h, hc⟩ := commitTx_inner hx hn
    rw [h]
    unfold State.nest
    rw [setTx_tx_self, hx, Option.map_some, Option.map_some, hc]

theorem rollbackTx_tx {s₁ s₃ : S.State n Mem Reply} (hn : s₃.nest t = (s₁.beginTx t).nest t) :
    (s₃.rollbackTx t).tx t = s₁.tx t := by
  rw [beginTx_nest] at hn
  obtain ⟨x₃, hx₃, hs, hc⟩ := nest_some hn
  rw [rollbackTx_eq hx₃, setTx_tx_self, hs, hc]
  cases s₁.tx t <;> rfl

theorem Sound.commitTx {s₁ s₃ : S.State n Mem Reply} (hs : R.Sound t s₁) (hr : R.steady t (s₃.pend t))
    (hn : s₃.nest t = (s₁.beginTx t).nest t) : R.Sound t (s₃.commitTx t) := by
  cases hx : s₁.tx t with
  | none =>
    intro m hm
    have : (s₃.commitTx t).tx t = none := by rw [← nest_none, commitTx_nest hn, nest_none, hx]
    rw [marks_none this] at hm; cases hm
  | some x =>
    obtain ⟨x₃, hx₃, h, -⟩ := commitTx_inner hx hn
    intro m hm
    rw [h, marks_setTx_self] at hm
    rcases List.mem_cons.1 hm with rfl | hm
    · rw [pend_of_tx hx₃] at hr; exact hr
    · exact hs m ((mem_marks hx).2 (.inr hm))

theorem Sound.rollbackTx {s₁ s₃ : S.State n Mem Reply} (hs : R.Sound t s₁)
    (hn : s₃.nest t = (s₁.beginTx t).nest t) : R.Sound t (s₃.rollbackTx t) := by
  intro m hm
  rw [marks_of_tx (rollbackTx_tx hn)] at hm
  exact hs m hm

theorem Sound.steady_pend (hs : R.Sound t s) : R.steady t (s.pend t) := by
  cases hx : s.tx t with
  | none =>
    have : s.pend t = [] := by unfold State.pend; rw [hx]
    rw [this]; exact R.steady_nil t
  | some x => rw [pend_of_tx hx]; exact hs x.toMark ((mem_marks hx).2 (.inl rfl))

theorem beginTx_rest (s : S.State n Mem Reply) (t : Fin n) :
    (s.beginTx t).now = s.now ∧ (s.beginTx t).mem = s.mem ∧ (s.beginTx t).wrote = s.wrote := by
  unfold State.beginTx; cases s.tx t <;> exact ⟨rfl, rfl, rfl⟩

theorem commitTx_rest (s : S.State n Mem Reply) (t : Fin n) :
    (s.commitTx t).now = s.now ∧ (s.commitTx t).mem = s.mem := by
  unfold State.commitTx
  cases s.tx t with
  | none => exact ⟨rfl, rfl⟩
  | some x =>
    simp only
    split
    · exact ⟨rfl, rfl⟩
    · split <;> exact ⟨rfl, rfl⟩

theorem rollbackTx_rest (s : S.State n Mem Reply) (t : Fin n) :
    (s.rollbackTx t).now = s.now ∧ (s.rollbackTx t).mem = s.mem ∧ (s.rollbackTx t).wrote = s.wrote := by
  unfold State.rollbackTx
  cases s.tx t with
  | none => exact ⟨rfl, rfl, rfl⟩
  | some x => simp only; split <;> exact ⟨rfl, rfl, rfl⟩

/-- A transaction of writes beside the point, from its start to its commit. -/
theorem Still.commitTx {s₁ s₃ : S.State n Mem Reply} (hi : R.Inv s₃) (hr : s₁.tx t = none → R.ready t (s₃.pend t))
    (h : R.Still t (s₁.beginTx t) s₃) : R.Still t s₁ (s₃.commitTx t) := by
  obtain ⟨y, hy, -, hp₁, hl₁⟩ := beginTx_tx s₁ t
  obtain ⟨hb1, hb2, hb3⟩ := beginTx_rest s₁ t
  obtain ⟨hc1, hc2⟩ := commitTx_rest s₃ t
  obtain ⟨ws, hp, hiw⟩ := h.pend
  rw [hp₁] at hp
  have hin : (s₁.beginTx t).nest t ≠ none := by rw [beginTx_nest]; simp
  have hg := h.grows; have hsp := h.spares; have hag := h.agree; have hlk := h.locks
  rw [beginTx_db] at hg hsp hag
  rw [hl₁] at hag hlk
  have hnow : s₁.now ≤ (s₃.commitTx t).now := by rw [hc1, ← hb1]; exact h.now
  have hmem : R.recalls → (s₃.commitTx t).mem t = s₁.mem t := fun hrc => by rw [hc2, h.mem hrc, hb2]
  cases hx : s₁.tx t with
  | none =>
    have hp0 : s₁.pend t = [] := by unfold State.pend; rw [hx]
    have hl0 : s₁.locks t = [] := by unfold State.locks; rw [hx]
    have hn := commitTx_nest h.nest
    have htx : (s₃.commitTx t).tx t = none := by rw [← nest_none, hn, nest_none, hx]
    rw [hp0, List.nil_append] at hp
    have hdb : R.grows s₁.db (s₃.commitTx t).db ∧ R.spares t s₁.db (s₃.commitTx t).db := by
      rcases commitTx_outer hx h.nest with hc | hc
      · rw [hc]; exact ⟨hg, hsp⟩
      · rw [hc]
        obtain ⟨x₃, hx₃⟩ : ∃ x₃, s₃.tx t = some x₃ := by
          have := h.nest; rw [beginTx_nest] at this
          obtain ⟨x₃, hx₃, -⟩ := nest_some this
          exact ⟨x₃, hx₃⟩
        have hd := hi.drafts t x₃.toMark ((mem_marks hx₃).2 (.inl rfl))
        have hr := hr hx
        rw [pend_of_tx hx₃] at hr hp ⊢
        refine ⟨R.grows_trans _ _ _ hg (R.publish t _ _ _ hi.data hd hr).2.1, ?_⟩
        exact R.spares_trans _ _ _ _ hsp (R.spares_inert t _ _ (by rw [hp]; exact hiw))
    refine ⟨hdb.1, hdb.2, hn, ⟨[], ?_, by simp⟩, by rw [hl0]; simp, hnow, ?_, hmem, by rw [hl0]; simp⟩
    · rw [hp0]; unfold State.pend; rw [htx]; rfl
    · exact fun hne => absurd (nest_none.2 hx) hne
  | some x =>
    obtain ⟨x₃, hx₃, hc, -⟩ := commitTx_inner hx h.nest
    have hdb : (s₃.commitTx t).db = s₃.db := by rw [hc]; rfl
    have hwr : (s₃.commitTx t).wrote = s₃.wrote := by rw [hc]; rfl
    refine ⟨by rw [hdb]; exact hg, by rw [hdb]; exact hsp, commitTx_nest h.nest, ⟨ws, ?_, hiw⟩, ?_, hnow, ?_, hmem,
      by rw [hdb]; exact hag⟩
    · rw [← hp, hc]; unfold State.pend; rw [setTx_tx_self, hx₃]
    · have : (s₃.commitTx t).locks t = s₃.locks t := by rw [hc]; unfold State.locks; rw [setTx_tx_self, hx₃]
      rw [this]; exact hlk
    · intro _; rw [hwr, h.wrote hin, hb3]

/-- A transaction that was rolled back. -/
theorem Still.rollbackTx {s₁ s₃ : S.State n Mem Reply} (h : R.Still t (s₁.beginTx t) s₃) :
    R.Still t s₁ (s₃.rollbackTx t) := by
  obtain ⟨-, -, -, -, hl₁⟩ := beginTx_tx s₁ t
  obtain ⟨hb1, hb2, hb3⟩ := beginTx_rest s₁ t
  obtain ⟨hc1, hc2, hc3⟩ := rollbackTx_rest s₃ t
  have htx := rollbackTx_tx h.nest
  have hin : (s₁.beginTx t).nest t ≠ none := by rw [beginTx_nest]; simp
  have hg := h.grows; have hsp := h.spares; have hag := h.agree
  rw [beginTx_db] at hg hsp hag
  rw [hl₁] at hag
  refine ⟨by rw [rollbackTx_db]; exact hg, by rw [rollbackTx_db]; exact hsp, nest_of_tx htx, ⟨[], ?_, by simp⟩, ?_, ?_,
    fun _ => by rw [hc3, h.wrote hin, hb3], fun hrc => by rw [hc2, h.mem hrc, hb2], by rw [rollbackTx_db]; exact hag⟩
  · unfold State.pend; rw [htx, List.append_nil]
  · unfold State.locks; rw [htx]; exact fun _ hk => hk
  · rw [hc1, ← hb1]; exact h.now

/-- What an operation leaves pending: no more than there was, or what its statement wrote besides. -/
theorem exec_pend (hb : Base s) {ch : S.Choice} {o : S.Op Mem Reply} {r : o.Res} (h : State.exec t ch o s = some (r, s')) :
    (s'.pend t).length ≤ (s.pend t).length ∨ ∃ q, o = .query q ∧
      s'.pend t = s.pend t ++ (S.plan q ch.pick (s.clock t) (s.view t)).writes := by
  cases o with
  | begin =>
    cases h
    obtain ⟨-, -, -, hp, -⟩ := beginTx_tx s t
    exact .inl (by rw [hp])
  | commit =>
    cases h
    cases hx : s.tx t with
    | none => exact .inl (by unfold State.commitTx; rw [hx])
    | some x =>
      cases hs : x.saves with
      | cons m rest =>
        rw [commitTx_nested hx hs]
        exact .inl (by unfold State.pend; rw [setTx_tx_self, hx])
      | nil =>
        have hnone : (s.commitTx t).tx t = none := by
          rw [commitTx_top hx hs]
          split <;> exact setTx_tx_self ..
        exact .inl (by unfold State.pend; rw [hnone]; simp)
  | rollback =>
    cases h
    cases hx : s.tx t with
    | none => exact .inl (by unfold State.rollbackTx; rw [hx])
    | some x =>
      rw [rollbackTx_eq hx]
      unfold State.pend
      rw [setTx_tx_self, hx]
      cases hs : x.saves with
      | nil => exact .inl (by simp)
      | cons m rest => exact .inl ((hb.txOk t x hx).saves m (by rw [hs]; exact List.mem_cons_self ..)).2.1.length_le
  | clock => cases h; exact .inl (le_refl _)
  | load => cases h; exact .inl (le_refl _)
  | store m => cases h; exact .inl (le_refl _)
  | reply a => cases h; exact .inl (le_refl _)
  | query q =>
    rcases runQuery_cases h with ⟨e, -, hs, -⟩ | ⟨a, -, -, -, -, rfl⟩
    · rcases hs with rfl | rfl | rfl
      · exact .inl (le_refl _)
      · exact .inl (by rw [fail_pend])
      · exact .inl (by rw [fail_pend]; exact le_refl _)
    · cases hx : s.tx t with
      | none =>
        rw [write_tx_none (s := s.see t) hx]
        exact .inl (le_refl _)
      | some x => exact .inr ⟨q, rfl, write_pend (s := s.see t) hx ..⟩

end TxRules

end Concurrency.Schema
