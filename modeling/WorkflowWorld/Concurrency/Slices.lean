/-
A part of a database whose sessions do not see the rest. Where the statements of the sessions inside are
about the part, and those of the sessions outside leave it alone but for what has lapsed, a run of all is,
for the sessions inside, a run of theirs alone on the part: a session outside does nothing there, and what
it removes that has lapsed is removed by the server.
-/
import WorkflowWorld.Concurrency.TxRules
import WorkflowWorld.Concurrency.Schedule

namespace Concurrency

/-- The plan without its writes to other data. -/
def Plan.within {Key Write Viol α : Type} (mine : Write → Bool) (p : Plan Key Write Viol α) : Plan Key Write Viol α :=
  { p with writes := p.writes.filter mine }

theorem Plan.within_ans {Key Write Viol α : Type} (mine : Write → Bool) (p : Plan Key Write Viol α) : (p.within mine).ans = p.ans := rfl

namespace Schema

open State

variable {S : Schema} {n : Nat} {Mem Reply ε α β : Type}

/-! ## What a program issues, and when -/

/-- The statements of the program, each at a time its clock has reached. -/
def Timely (P : Nat → S.Query → Prop) : Nat → Prog (S.Op Mem Reply) Op.Res ε α → Prop
  | _, .pure _ | _, .throw _ => True
  | t, .op .clock k => ∀ now ≥ t, Timely P now (k now)
  | t, .op (.query q) k => P t q ∧ ∀ r, Timely P t (k r)
  | t, .op .begin k | t, .op .commit k | t, .op .rollback k | t, .op .load k | t, .op (.store _) k | t, .op (.reply _) k =>
    ∀ r, Timely P t (k r)

variable {P P' : Nat → S.Query → Prop} {t : Nat} {p : Prog (S.Op Mem Reply) Op.Res ε α}

theorem Timely.mono (h : ∀ now ≥ t, ∀ q, P now q → P' now q) (hp : Timely P t p) : Timely P' t p := by
  induction p generalizing t with
  | pure | throw => trivial
  | op o k ih =>
    cases o with
    | clock => exact fun now hnow => ih now (fun now' hnow' => h now' (hnow.trans hnow')) (hp now hnow)
    | query q => exact ⟨h t le_rfl q hp.1, fun r => ih r h (hp.2 r)⟩
    | begin | commit | rollback | load | store | reply => exact fun r => ih r h (hp r)

/-- A statement that may be issued may be issued later. -/
theorem Timely.later (hP : ∀ {now now' q}, now ≤ now' → P now q → P now' q) {t' : Nat} (ht : t ≤ t') (hp : Timely P t p) :
    Timely P t' p := by
  induction p generalizing t t' with
  | pure | throw => trivial
  | op o k ih =>
    cases o with
    | clock => exact fun now hnow => hp now (ht.trans hnow)
    | query q => exact ⟨hP ht hp.1, fun r => ih r ht (hp.2 r)⟩
    | begin | commit | rollback | load | store | reply => exact fun r => ih r ht (hp r)

theorem Timely.bind {f : α → Prog (S.Op Mem Reply) Op.Res ε β} (hp : Timely P t p) (hf : ∀ a, ∀ now ≥ t, Timely P now (f a)) :
    Timely P t (p >>= f) := by
  induction p generalizing t with
  | pure a => exact hf a t le_rfl
  | throw => trivial
  | op o k ih =>
    cases o with
    | clock => exact fun now hnow => ih now (hp now hnow) fun a now' hnow' => hf a now' (hnow.trans hnow')
    | query q => exact ⟨hp.1, fun r => ih r (hp.2 r) hf⟩
    | begin | commit | rollback | load | store | reply => exact fun r => ih r (hp r) hf

theorem Timely.tryCatch {f : ε → Prog (S.Op Mem Reply) Op.Res ε α} (hp : Timely P t p) (hf : ∀ e, ∀ now ≥ t, Timely P now (f e)) :
    Timely P t (MonadExceptOf.tryCatch p f) := by
  induction p generalizing t with
  | pure => trivial
  | throw e => exact hf e t le_rfl
  | op o k ih =>
    cases o with
    | clock => exact fun now hnow => ih now (hp now hnow) fun e now' hnow' => hf e now' (hnow.trans hnow')
    | query q => exact ⟨hp.1, fun r => ih r (hp.2 r) hf⟩
    | begin | commit | rollback | load | store | reply => exact fun r => ih r (hp r) hf

/-- The statements of the program, whenever it runs. -/
structure Issues (P : Nat → S.Query → Prop) (p : Prog (S.Op Mem Reply) Op.Res ε α) : Prop where
  timely : ∀ t, Timely P t p

namespace Issues

variable {f : α → Prog (S.Op Mem Reply) Op.Res ε β}

theorem pure (a : α) : Issues P (pure a : Prog (S.Op Mem Reply) Op.Res ε α) := ⟨fun _ => trivial⟩

theorem throw (e : ε) : Issues P (throw e : Prog (S.Op Mem Reply) Op.Res ε α) := ⟨fun _ => trivial⟩

theorem bind (hp : Issues P p) (hf : ∀ a, Issues P (f a)) : Issues P (p >>= f) :=
  ⟨fun t => (hp.timely t).bind fun a now _ => (hf a).timely now⟩

theorem tryCatch {f : ε → Prog (S.Op Mem Reply) Op.Res ε α} (hp : Issues P p) (hf : ∀ e, Issues P (f e)) :
    Issues P (MonadExceptOf.tryCatch p f) := ⟨fun t => (hp.timely t).tryCatch fun e now _ => (hf e).timely now⟩

theorem ite {c : Prop} [Decidable c] {q : Prog (S.Op Mem Reply) Op.Res ε α} (hp : Issues P p) (hq : Issues P q) :
    Issues P (if c then p else q) := by
  split
  · exact hp
  · exact hq

theorem clock {k : Nat → Prog (S.Op Mem Reply) Op.Res ε α} (hk : ∀ now, Timely P now (k now)) : Issues P (.op .clock k) :=
  ⟨fun _ now _ => hk now⟩

theorem load {k : Mem → Prog (S.Op Mem Reply) Op.Res ε α} (hk : ∀ m, Issues P (k m)) : Issues P (.op .load k) :=
  ⟨fun t m => (hk m).timely t⟩

theorem store {m : Mem} {k : Unit → Prog (S.Op Mem Reply) Op.Res ε α} (hk : Issues P (k ())) : Issues P (.op (.store m) k) :=
  ⟨fun t _ => hk.timely t⟩

theorem reply {r : Reply} {k : Unit → Prog (S.Op Mem Reply) Op.Res ε α} (hk : Issues P (k ())) : Issues P (.op (.reply r) k) :=
  ⟨fun t _ => hk.timely t⟩

theorem statement (wrap : SqlError S.Viol → ε) {q : S.Query} (hq : ∀ now, P now q) :
    Issues P (Schema.statement wrap q : Prog (S.Op Mem Reply) Op.Res ε (S.Ans q)) := by
  refine ⟨fun t => ⟨hq t, fun r => ?_⟩⟩
  cases r <;> trivial

theorem transaction (hp : Issues P p) : Issues P (Schema.transaction p) := by
  have hbody : ∀ t, Timely P t (MonadExceptOf.tryCatch p fun e => .op .rollback fun _ => Prog.throw e) :=
    fun t => (hp.timely t).tryCatch fun _ _ _ _ => trivial
  exact ⟨fun t _ => (hbody t).bind fun a now _ _ => trivial⟩

end Issues

/-! ## A part of the data -/

/-- A part of the data, by the writes that are to it. `lapsed` is a write that others may make of it at
the time, on the data as they are; what has lapsed stays so, whatever else lapses first. -/
structure Slice (S : Schema) where
  part : S.Db → S.Db
  mine : S.Write → Bool
  lapsed : Nat → S.Db → S.Write → Prop
  part_mine : ∀ {w} d, mine w = true → part (S.apply w d) = S.apply w (part d)
  part_other : ∀ {w} d, mine w = false → part (S.apply w d) = part d
  part_ext : ∀ {d d'}, S.Ext d d' → S.Ext (part d) (part d')
  lapsed_part : ∀ {now d w}, mine w = true → lapsed now d w → lapsed now (part d) w
  lapsed_later : ∀ {now now' d w}, now ≤ now' → lapsed now d w → lapsed now' d w
  lapsed_agree : ∀ {now d d' w}, (∀ k ∈ S.touches w, S.Agree k d d') → lapsed now d w → lapsed now d' w
  lapsed_back : ∀ {now d w w'}, (mine w' = true → ∃ now d, lapsed now d w') → mine w = true → lapsed now (S.apply w' d) w →
    lapsed now d w

namespace Slice

variable (σ : Slice S)

/-- A statement about the part does to it what it would do were there nothing else. -/
def Inside (q : S.Query) : Prop :=
  ∀ pick now d, ∃ pick', S.plan q pick' now (σ.part d) = (S.plan q pick now d).within σ.mine

/-- At the time, a statement about other data removes from the part what has lapsed, if anything. -/
def Outside (now : Nat) (q : S.Query) : Prop :=
  ∀ pick clock d, ∀ w ∈ (S.plan q pick clock d).writes, σ.mine w = true → σ.lapsed now d w

variable {σ}

theorem outside_later {now now' : Nat} {q : S.Query} (h : now ≤ now') (hq : σ.Outside now q) : σ.Outside now' q :=
  fun pick clock d w hw hm => σ.lapsed_later h (hq pick clock d w hw hm)

theorem part_applyAll : ∀ (ws : List S.Write) (d : S.Db), σ.part (S.applyAll ws d) = S.applyAll (ws.filter σ.mine) (σ.part d)
  | [], _ => rfl
  | w :: ws, d => by
    show σ.part (S.applyAll ws (S.apply w d)) = _
    rw [part_applyAll ws]
    cases hw : σ.mine w with
    | true =>
      rw [List.filter_cons_of_pos hw, σ.part_mine d hw]
      rfl
    | false => rw [List.filter_cons_of_neg (by simp [hw]), σ.part_other d hw]

/-- What has lapsed behind such writes had lapsed before them. -/
theorem lapsed_applyAll {now : Nat} {w : S.Write} (hw : σ.mine w = true) : ∀ {ws : List S.Write} {d : S.Db},
    (∀ w' ∈ ws, σ.mine w' = true → ∃ now d, σ.lapsed now d w') → σ.lapsed now (S.applyAll ws d) w → σ.lapsed now d w
  | [], _, _, h => h
  | w' :: ws, d, hws, h => by
    obtain ⟨hw', hws⟩ := List.forall_mem_cons.1 hws
    exact σ.lapsed_back hw' hw (lapsed_applyAll hw hws h)

/-! ## The part by itself -/

/-- The server of the part: what has lapsed may go at any time. -/
inductive Env (σ : Slice S) : S.State n Mem Reply → S.State n Mem Reply → Prop
  | env {s s' : S.State n Mem Reply} (h : State.Env s s') : Env σ s s'
  | lapse (s : S.State n Mem Reply) (ws : List S.Write) (h : ∀ w ∈ ws, σ.mine w = true ∧ σ.lapsed s.now s.db w) :
    Env σ s { s with db := S.applyAll ws s.db }

/-- The sessions on the part, with nothing known of what they keep to. -/
def alone (σ : Slice S) (n : Nat) (Mem Reply : Type) : Machine (Fin n) (S.Op Mem Reply) Op.Res S.Choice (S.State n Mem Reply) where
  exec t ch o s := State.exec t ch o s
  crash t s := s.crash t
  env := Env σ
  base _ := True
  keep _ _ _ := True
  keep_refl _ _ := trivial
  keep_trans _ _ _ _ _ _ := trivial
  exec_base _ _ := trivial
  exec_keep _ _ _ := trivial
  crash_base _ := trivial
  crash_keep _ _ := trivial
  env_base _ _ := trivial
  env_keep _ _ := trivial

theorem touchesAll_filter (mine : S.Write → Bool) (ws : List S.Write) : S.touchesAll (ws.filter mine) ⊆ S.touchesAll ws := by
  intro k hk
  obtain ⟨w, hw, hkw⟩ := List.mem_flatMap.1 hk
  exact List.mem_flatMap.2 ⟨w, (List.mem_filter.1 hw).1, hkw⟩

theorem waits_within (mine : S.Write → Bool) {α : Type} (p : Plan S.Key S.Write S.Viol α) : waits (p.within mine) ⊆ waits p :=
  List.append_subset.2 ⟨List.subset_append_left .., List.subset_append_of_subset_right _
    (List.append_subset.2 ⟨List.subset_append_left .., List.subset_append_of_subset_right _ (touchesAll_filter ..)⟩)⟩

/-- A moment of a transaction, and what is left of it on the part. -/
structure MarkSliced (σ : Slice S) (m m' : S.Mark) : Prop where
  writes : m'.writes = m.writes.filter σ.mine
  locks : m'.locks ⊆ m.locks
  failed : m'.failed = m.failed

structure TxSliced (σ : Slice S) (x y : S.Tx) : Prop where
  top : σ.MarkSliced x.toMark y.toMark
  saves : List.Forall₂ σ.MarkSliced x.saves y.saves
  startedAt : y.startedAt = x.startedAt

/-- The state of all, and what the sessions inside make of it. -/
structure Sliced (σ : Slice S) (inside : Fin n → Prop) [DecidablePred inside] (s a : S.State n Mem Reply) : Prop where
  db : a.db = σ.part s.db
  now : a.now = s.now
  tx : ∀ t, inside t → Option.Rel σ.TxSliced (s.tx t) (a.tx t)
  idle : ∀ t, ¬inside t → a.tx t = none
  mem : ∀ t, inside t → a.mem t = s.mem t
  replies : a.replies.map (fun r => (r.who, r.reply)) = (s.replies.filter fun r => inside r.who).map fun r => (r.who, r.reply)

namespace Sliced

variable {inside : Fin n → Prop} [DecidablePred inside] {s s' a : S.State n Mem Reply} {t u : Fin n} {x : Option S.Tx} {ws : List S.Write}

theorem view (h : σ.Sliced inside s a) (ht : inside t) : a.view t = σ.part (s.view t) := by
  have htx := h.tx t ht
  unfold State.view
  rw [h.db]
  generalize s.tx t = x at htx
  generalize a.tx t = y at htx
  cases htx with
  | none => rfl
  | some hxy => exact (congrArg (S.applyAll · _) hxy.top.writes).trans (part_applyAll ..).symm

theorem clock (h : σ.Sliced inside s a) (ht : inside t) : a.clock t = s.clock t := by
  have htx := h.tx t ht
  unfold State.clock
  generalize s.tx t = x at htx
  generalize a.tx t = y at htx
  cases htx with
  | none => exact h.now
  | some hxy => exact hxy.startedAt

theorem aborted (h : σ.Sliced inside s a) (ht : inside t) : a.aborted t = s.aborted t := by
  have htx := h.tx t ht
  unfold State.aborted
  generalize s.tx t = x at htx
  generalize a.tx t = y at htx
  cases htx with
  | none => rfl
  | some hxy => exact hxy.top.failed

theorem locks (h : σ.Sliced inside s a) (t : Fin n) : a.locks t ⊆ s.locks t := by
  by_cases ht : inside t
  · have htx := h.tx t ht
    unfold State.locks
    generalize s.tx t = x at htx
    generalize a.tx t = y at htx
    cases htx with
    | none => exact List.Subset.refl _
    | some hxy => exact hxy.top.locks
  · unfold State.locks
    rw [h.idle t ht]
    exact List.nil_subset _

/-- With fewer locks there is less to wait for. -/
theorem blocked (h : σ.Sliced inside s a) {ks ks' : List S.Key} (hks : ks' ⊆ ks) (hb : s.blocked t ks = false) :
    a.blocked t ks' = false := by
  unfold State.blocked
  rw [List.any_eq_false]
  intro u _ hu
  simp only [Bool.and_eq_true, bne_iff_ne, ne_eq, List.any_eq_true, List.contains_iff_mem] at hu
  obtain ⟨hne, k, hk, hl⟩ := hu
  exact blocked_eq_false hb hne k (hks hk) (h.locks u hl)

theorem setTx (h : σ.Sliced inside s a) (ht : inside t) {y : Option S.Tx} (hxy : Option.Rel σ.TxSliced x y) :
    σ.Sliced inside (s.setTx t x) (a.setTx t y) := by
  refine ⟨h.db, h.now, fun u hu => ?_, fun u hu => ?_, h.mem, h.replies⟩
  · by_cases hut : u = t
    · subst hut
      rw [setTx_tx_self, setTx_tx_self]
      exact hxy
    · rw [setTx_tx_ne _ _ hut, setTx_tx_ne _ _ hut]
      exact h.tx u hu
  · rw [setTx_tx_ne _ _ (by rintro rfl; exact hu ht)]
    exact h.idle u hu

theorem publish (h : σ.Sliced inside s a) : σ.Sliced inside (s.publish t ws) (a.publish t (ws.filter σ.mine)) := by
  refine ⟨?_, h.now, h.tx, h.idle, h.mem, h.replies⟩
  show S.applyAll _ a.db = _
  rw [h.db]
  exact (part_applyAll ..).symm

theorem see (h : σ.Sliced inside s a) : σ.Sliced inside (s.see t) (a.see t) := ⟨h.db, h.now, h.tx, h.idle, h.mem, h.replies⟩

theorem fail (h : σ.Sliced inside s a) (ht : inside t) : σ.Sliced inside (s.fail t) (a.fail t) := by
  have htx := h.tx t ht
  unfold State.fail
  generalize s.tx t = x at htx
  generalize a.tx t = y at htx
  cases htx with
  | none => exact h
  | some hxy => exact h.setTx ht (.some ⟨⟨hxy.top.writes, hxy.top.locks, rfl⟩, hxy.saves, hxy.startedAt⟩)

theorem write (h : σ.Sliced inside s a) (ht : inside t) (takes : List S.Key) :
    σ.Sliced inside (s.write t takes ws) (a.write t takes (ws.filter σ.mine)) := by
  have htx := h.tx t ht
  unfold State.write
  generalize s.tx t = x at htx
  generalize a.tx t = y at htx
  cases htx with
  | none => exact h.publish
  | @some x y hxy =>
    refine h.setTx ht (.some ⟨⟨?_, ?_, hxy.top.failed⟩, hxy.saves, hxy.startedAt⟩)
    · show y.writes ++ _ = (x.writes ++ ws).filter σ.mine
      rw [List.filter_append, hxy.top.writes]
    · exact List.append_subset.2 ⟨List.subset_append_of_subset_left _ hxy.top.locks, List.subset_append_of_subset_right _
        (List.append_subset.2 ⟨List.subset_append_left .., List.subset_append_of_subset_right _ (touchesAll_filter ..)⟩)⟩

theorem beginTx (h : σ.Sliced inside s a) (ht : inside t) : σ.Sliced inside (s.beginTx t) (a.beginTx t) := by
  have htx := h.tx t ht
  unfold State.beginTx
  generalize s.tx t = x at htx
  generalize a.tx t = y at htx
  cases htx with
  | none => exact h.setTx ht (.some ⟨⟨rfl, List.nil_subset _, rfl⟩, .nil, h.now⟩)
  | some hxy => exact h.setTx ht (.some ⟨hxy.top, .cons hxy.top hxy.saves, hxy.startedAt⟩)

theorem commitTx (h : σ.Sliced inside s a) (ht : inside t) : σ.Sliced inside (s.commitTx t) (a.commitTx t) := by
  have htx := h.tx t ht
  unfold State.commitTx
  generalize s.tx t = x at htx
  generalize a.tx t = y at htx
  cases htx with
  | none => exact h
  | @some x y hxy =>
    simp only
    have hsaves := hxy.saves
    generalize x.saves = l at hsaves
    generalize y.saves = l' at hsaves
    cases hsaves with
    | cons hm hrest => exact h.setTx ht (.some ⟨hxy.top, hrest, hxy.startedAt⟩)
    | nil =>
      have hnone : σ.Sliced inside (s.setTx t none) (a.setTx t none) := h.setTx ht .none
      simp only [hxy.top.failed, hxy.top.writes]
      split
      · exact hnone
      · exact hnone.publish

theorem rollbackTx (h : σ.Sliced inside s a) (ht : inside t) : σ.Sliced inside (s.rollbackTx t) (a.rollbackTx t) := by
  have htx := h.tx t ht
  unfold State.rollbackTx
  generalize s.tx t = x at htx
  generalize a.tx t = y at htx
  cases htx with
  | none => exact h
  | @some x y hxy =>
    simp only [hxy.startedAt]
    have hsaves := hxy.saves
    generalize x.saves = l at hsaves
    generalize y.saves = l' at hsaves
    cases hsaves with
    | cons hm hrest => exact h.setTx ht (.some ⟨hm, hrest, rfl⟩)
    | nil => exact h.setTx ht .none

/-- An operation of a session inside does to the part what it does to all. -/
theorem exec (h : σ.Sliced inside s a) (ht : inside t) {ch : S.Choice} {o : S.Op Mem Reply} {r : o.Res}
    (ho : ∀ q, o = .query q → σ.Inside q) (he : State.exec t ch o s = some (r, s')) :
    ∃ ch' a', State.exec t ch' o a = some (r, a') ∧ σ.Sliced inside s' a' := by
  cases o with
  | begin => cases he; exact ⟨ch, _, rfl, h.beginTx ht⟩
  | commit => cases he; exact ⟨ch, _, rfl, h.commitTx ht⟩
  | rollback => cases he; exact ⟨ch, _, rfl, h.rollbackTx ht⟩
  | clock => cases he; exact ⟨ch, a, by rw [← h.now]; rfl, h⟩
  | load => cases he; exact ⟨ch, a, by rw [← h.mem t ht]; rfl, h⟩
  | store m =>
    cases he
    refine ⟨ch, _, rfl, h.db, h.now, h.tx, h.idle, fun u hu => ?_, h.replies⟩
    show Function.update a.mem t m u = Function.update s.mem t m u
    by_cases hut : u = t
    · subst hut
      rw [Function.update_self, Function.update_self]
    · rw [Function.update_of_ne hut, Function.update_of_ne hut, h.mem u hu]
  | reply m =>
    cases he
    refine ⟨ch, _, rfl, h.db, h.now, h.tx, h.idle, h.mem, ?_⟩
    rw [List.map_append, List.filter_append, List.map_append, h.replies, List.filter_cons_of_pos (by simpa using ht)]
    rfl
  | query q =>
    obtain ⟨pick', hplan⟩ := ho q rfl ch.pick (s.clock t) (s.view t)
    refine ⟨⟨ch.fault, pick'⟩, ?_⟩
    change s.runQuery t ch q = some (r, s') at he
    show ∃ a', a.runQuery t ⟨ch.fault, pick'⟩ q = some (r, a') ∧ _
    unfold runQuery at he ⊢
    simp only [h.clock ht, h.view ht, h.aborted ht, hplan] at he ⊢
    by_cases hab : s.aborted t = true
    · rw [if_pos hab] at he ⊢
      cases he
      exact ⟨a, rfl, h⟩
    · rw [if_neg hab] at he ⊢
      by_cases hf : ch.fault = true
      · rw [if_pos hf] at he ⊢
        cases he
        exact ⟨_, rfl, h.fail ht⟩
      · rw [if_neg hf] at he ⊢
        cases hb : s.blocked t (waits (S.plan q ch.pick (s.clock t) (s.view t))) with
        | true => rw [if_pos hb] at he; cases he
        | false =>
          rw [if_neg (by simp [hb])] at he
          rw [if_neg (by simp [h.blocked (waits_within ..) hb]), Plan.within_ans]
          cases hans : (S.plan q ch.pick (s.clock t) (s.view t)).ans with
          | error v =>
            rw [hans] at he
            cases he
            exact ⟨_, rfl, h.see.fail ht⟩
          | ok x =>
            rw [hans] at he
            cases he
            exact ⟨_, rfl, h.see.write ht _⟩

end Sliced

end Slice

/-! ## The sessions outside -/

/-- The writes of the statement that the operation is. -/
def Op.wrote (t : Fin n) (ch : S.Choice) (s : S.State n Mem Reply) : S.Op Mem Reply → List S.Write
  | .query q => (S.plan q ch.pick (s.clock t) (s.view t)).writes
  | _ => []

/-- What an operation does to the data, to its session's draft and to the record: what is published, or still pending, was
pending or is written by the statement, and it is not both. -/
structure Effect (t : Fin n) (wrote : List S.Write) (s s' : S.State n Mem Reply) : Prop where
  now : s'.now = s.now
  replies : ∃ l, s'.replies = s.replies ++ l ∧ ∀ x ∈ l, x.who = t
  writes : ∃ ws, s'.db = S.applyAll ws s.db ∧ (ws = [] ∨ s'.pend t = []) ∧ ∀ w, w ∈ ws ∨ w ∈ s'.pend t → w ∈ s.pend t ∨ w ∈ wrote

namespace Effect

variable {s s' : S.State n Mem Reply} {t : Fin n} {wrote : List S.Write}

/-- Nothing is published. -/
theorem of_pend (hnow : s'.now = s.now) (hreplies : ∃ l, s'.replies = s.replies ++ l ∧ ∀ x ∈ l, x.who = t) (hdb : s'.db = s.db)
    (hpend : ∀ w ∈ s'.pend t, w ∈ s.pend t ∨ w ∈ wrote) : Effect t wrote s s' :=
  ⟨hnow, hreplies, [], hdb, .inl rfl, fun w hw => hw.elim (fun h => by cases h) (hpend w)⟩

theorem of_same (hnow : s'.now = s.now) (hreplies : s'.replies = s.replies) (hdb : s'.db = s.db)
    (hpend : ∀ w ∈ s'.pend t, w ∈ s.pend t ∨ w ∈ wrote) : Effect t wrote s s' :=
  .of_pend hnow ⟨[], by rw [hreplies, List.append_nil], List.forall_mem_nil _⟩ hdb hpend

theorem setTx {x : Option S.Tx} (h : ∀ y, x = some y → ∀ w ∈ y.writes, w ∈ s.pend t ∨ w ∈ wrote) : Effect t wrote s (s.setTx t x) := by
  refine .of_same rfl rfl rfl fun w hw => ?_
  unfold State.pend at hw
  rw [setTx_tx_self] at hw
  cases x with
  | none => cases hw
  | some y => exact h y rfl w hw

theorem fail (s : S.State n Mem Reply) (t : Fin n) : Effect t wrote s (s.fail t) := by
  refine .of_same ?_ ?_ (fail_db ..) fun w hw => .inl (by rw [fail_pend] at hw; exact hw)
  · unfold State.fail
    cases s.tx t <;> rfl
  · unfold State.fail
    cases s.tx t <;> rfl

theorem of_see (h : Effect t wrote (s.see t) s') : Effect t wrote s s' := ⟨h.now, h.replies, h.writes⟩

theorem write (s : S.State n Mem Reply) (t : Fin n) (takes : List S.Key) (ws : List S.Write) : Effect t ws s (s.write t takes ws) := by
  unfold State.write
  cases hx : s.tx t with
  | none =>
    have hpend : (s.publish t ws).pend t = [] := by
      unfold State.pend
      rw [show (s.publish t ws).tx t = s.tx t from rfl, hx]
    refine ⟨rfl, ⟨[], (List.append_nil _).symm, List.forall_mem_nil _⟩, ws, rfl, .inr hpend, fun w hw => ?_⟩
    rw [hpend] at hw
    exact .inr (hw.resolve_right (by simp))
  | some x =>
    refine .setTx fun y hy w hw => ?_
    cases hy
    rw [pend_of_tx hx]
    exact List.mem_append.1 hw

theorem commitTx (s : S.State n Mem Reply) (t : Fin n) : Effect t [] s (s.commitTx t) := by
  unfold State.commitTx
  cases hx : s.tx t with
  | none => exact .of_same rfl rfl rfl fun w hw => .inl hw
  | some x =>
    simp only
    split
    · refine .setTx fun y hy w hw => ?_
      cases hy
      exact .inl (by rw [pend_of_tx hx]; exact hw)
    · split
      · exact .setTx nofun
      · have hpend : ((s.setTx t none).publish t x.writes).pend t = [] := by
          unfold State.pend
          rw [show ((s.setTx t none).publish t x.writes).tx t = (s.setTx t none).tx t from rfl, setTx_tx_self]
        refine ⟨rfl, ⟨[], (List.append_nil _).symm, List.forall_mem_nil _⟩, x.writes, rfl, .inr hpend, fun w hw => ?_⟩
        rw [hpend] at hw
        rw [pend_of_tx hx]
        exact .inl (hw.resolve_right (by simp))

theorem rollbackTx (hb : Base s) (t : Fin n) : Effect t [] s (s.rollbackTx t) := by
  unfold State.rollbackTx
  cases hx : s.tx t with
  | none => exact .of_same rfl rfl rfl fun w hw => .inl hw
  | some x =>
    simp only
    split
    · rename_i m rest hs
      refine .setTx fun y hy w hw => ?_
      cases hy
      rw [pend_of_tx hx]
      exact .inl (((hb.txOk t x hx).pop hs).2.2.1.subset hw)
    · exact .setTx nofun

theorem exec (hb : Base s) {ch : S.Choice} {o : S.Op Mem Reply} {r : o.Res} (he : State.exec t ch o s = some (r, s')) :
    Effect t (Op.wrote t ch s o) s s' := by
  cases o with
  | begin =>
    cases he
    unfold State.beginTx
    cases hx : s.tx t with
    | none => exact .setTx fun y hy w hw => by cases hy; cases hw
    | some x => exact .setTx fun y hy w hw => by cases hy; exact .inl (by rw [pend_of_tx hx]; exact hw)
  | commit => cases he; exact commitTx s t
  | rollback => cases he; exact rollbackTx hb t
  | clock | load | store => cases he; exact .of_same rfl rfl rfl fun w hw => .inl hw
  | reply m => cases he; exact .of_pend rfl ⟨[_], rfl, by simp⟩ rfl fun w hw => .inl hw
  | query q =>
    rcases runQuery_cases he with ⟨e, -, rfl | rfl | rfl, -⟩ | ⟨x, -, -, -, -, rfl⟩
    · exact .of_same rfl rfl rfl fun w hw => .inl hw
    · exact fail s t
    · exact of_see (fail (s.see t) t)
    · exact of_see (write (s.see t) t _ _)

end Effect

namespace Slice

variable {σ : Slice S} {inside : Fin n → Prop} {s s' a : S.State n Mem Reply} {t u : Fin n} {ch : S.Choice} {o : S.Op Mem Reply}
  {r : o.Res}

/-- What the sessions outside have pending for the part has lapsed. -/
def Lapsing (σ : Slice S) (inside : Fin n → Prop) (s : S.State n Mem Reply) : Prop :=
  ∀ t, ¬inside t → ∀ w ∈ s.pend t, σ.mine w = true → σ.lapsed s.now s.db w

namespace Lapsing

/-- So has what a statement adds. -/
theorem wrote (h : σ.Lapsing inside s) (ht : ¬inside t) (ho : ∀ q, o = .query q → σ.Outside s.now q) {w : S.Write}
    (hw : w ∈ s.pend t ∨ w ∈ Op.wrote t ch s o) (hm : σ.mine w = true) : σ.lapsed s.now s.db w := by
  rcases hw with hw | hw
  · exact h t ht w hw hm
  · cases o with
    | query q =>
      have hview := ho q rfl ch.pick (s.clock t) (s.view t) w hw hm
      rw [view_eq] at hview
      exact lapsed_applyAll hm (fun w' hw' hm' => ⟨_, _, h t ht w' hw' hm'⟩) hview
    | _ => cases hw

/-- The others do not touch what a session has pending. -/
theorem keep (h : σ.Lapsing inside s) (hb : Base s) (hk : Keep u s s') (hu : ¬inside u) :
    ∀ w ∈ s'.pend u, σ.mine w = true → σ.lapsed s'.now s'.db w := by
  intro w hw hm
  rw [hk.pend] at hw
  refine σ.lapsed_later hk.now (σ.lapsed_agree (fun k hkw => hk.agree k ?_) (h u hu w hw hm))
  exact hb.touchesAll_pend u k (List.mem_flatMap.2 ⟨w, hw, hkw⟩)

theorem exec (h : σ.Lapsing inside s) (hb : Base s) (ho : ¬inside t → ∀ q, o = .query q → σ.Outside s.now q)
    (he : State.exec t ch o s = some (r, s')) : σ.Lapsing inside s' := by
  intro u hu w hw hm
  by_cases hut : u = t
  · subst hut
    obtain ⟨hnow, -, ws, hdb, hor, hall⟩ := Effect.exec hb he
    rcases hor with rfl | hnil
    · rw [hnow, hdb]
      exact h.wrote hu (ho hu) (hall w (.inr hw)) hm
    · rw [hnil] at hw
      cases hw
  · exact h.keep hb ((exec_spec hb he).2 u hut) hu w hw hm

theorem crash (h : σ.Lapsing inside s) (hb : Base s) (t : Fin n) : σ.Lapsing inside (s.crash t) := by
  intro u hu w hw hm
  by_cases hut : u = t
  · subst hut
    unfold State.crash State.pend at hw
    rw [setTx_tx_self] at hw
    cases hw
  · exact h.keep hb (Keep.setTx hut ..) hu w hw hm

theorem env (h : σ.Lapsing inside s) (hb : Base s) (he : State.Env s s') : σ.Lapsing inside s' :=
  fun u hu => h.keep hb ((env_spec hb he).2 u) hu

end Lapsing

variable [DecidablePred inside]

/-- To the part, an operation of a session outside removes what has lapsed, if anything. -/
theorem Sliced.exec_outside (h : σ.Sliced inside s a) (hl : σ.Lapsing inside s) (hb : Base s) (ht : ¬inside t)
    (ho : ∀ q, o = .query q → σ.Outside s.now q) (he : State.exec t ch o s = some (r, s')) :
    ∃ a', σ.Env a a' ∧ σ.Sliced inside s' a' := by
  obtain ⟨hnow, ⟨l, hreplies, hwho⟩, ws, hdb, -, hall⟩ := Effect.exec hb he
  have hkeep := (exec_spec hb he).2
  have hne : ∀ u, inside u → u ≠ t := by rintro u hu rfl; exact ht hu
  refine ⟨_, .lapse a (ws.filter σ.mine) fun w hw => ?_, ?_, h.now.trans hnow.symm, fun u hu => ?_, h.idle, fun u hu => ?_, ?_⟩
  · obtain ⟨hw, hm⟩ := List.mem_filter.1 hw
    rw [h.now, h.db]
    exact ⟨hm, σ.lapsed_part hm (hl.wrote ht ho (hall w (.inl hw)) hm)⟩
  · show S.applyAll _ a.db = _
    rw [hdb, h.db, part_applyAll]
  · rw [(hkeep u (hne u hu)).tx]
    exact h.tx u hu
  · rw [(hkeep u (hne u hu)).mem]
    exact h.mem u hu
  · have hnone : l.filter (fun x => inside x.who) = [] :=
      List.filter_eq_nil_iff.2 fun x hx => by rw [hwho x hx]; simpa using ht
    rw [hreplies, List.filter_append, hnone, List.append_nil]
    exact h.replies

theorem Sliced.crash (h : σ.Sliced inside s a) (ht : inside t) : σ.Sliced inside (s.crash t) (a.crash t) := h.setTx ht .none

theorem Sliced.crash_outside (h : σ.Sliced inside s a) (ht : ¬inside t) : σ.Sliced inside (s.crash t) a := by
  refine ⟨h.db, h.now, fun u hu => ?_, h.idle, h.mem, h.replies⟩
  have hut : u ≠ t := by rintro rfl; exact ht hu
  show Option.Rel _ ((s.setTx t none).tx u) _
  rw [setTx_tx_ne _ _ hut]
  exact h.tx u hu

theorem Sliced.env (h : σ.Sliced inside s a) (he : State.Env s s') : ∃ a', State.Env a a' ∧ σ.Sliced inside s' a' := by
  cases he with
  | tick d => exact ⟨_, .tick a d, h.db, congrArg (· + d) h.now, h.tx, h.idle, h.mem, h.replies⟩
  | ext d he => exact ⟨_, .ext a (σ.part d) (by rw [h.db]; exact σ.part_ext he), rfl, h.now, h.tx, h.idle, h.mem, h.replies⟩

end Slice

/-- What remains of a program after its next operation. -/
theorem Timely.exec {s s' : S.State n Mem Reply} {i : Fin n} {ch : S.Choice} {o : S.Op Mem Reply} {r : o.Res}
    {k : o.Res → Prog (S.Op Mem Reply) Op.Res ε α} (hb : Base s) (h : Timely P s.now (.op o k))
    (he : State.exec i ch o s = some (r, s')) : (∀ q, o = .query q → P s.now q) ∧ Timely P s'.now (k r) := by
  have hnow := (Effect.exec hb he).now
  rw [hnow]
  cases o with
  | clock => cases he; exact ⟨nofun, h _ le_rfl⟩
  | query q => exact ⟨fun q' hq' => by cases hq'; exact h.1, h.2 r⟩
  | begin | commit | rollback | load | store | reply => exact ⟨nofun, h r⟩

/-! ## Runs -/

namespace Slice

variable {σ : Slice S} {inside : Fin n → Prop} [DecidablePred inside] {C C' A : Sessions S n Mem Reply ε}

/-- A run of all and one of the sessions inside, side by side. -/
structure Simulates (σ : Slice S) (inside : Fin n → Prop) [DecidablePred inside] (C A : Sessions S n Mem Reply ε) : Prop where
  base : Base C.st
  sliced : σ.Sliced inside C.st A.st
  lapsing : σ.Lapsing inside C.st
  same : ∀ t, inside t → A.prog t = C.prog t
  about : ∀ t, inside t → Timely (fun _ => σ.Inside) C.st.now (C.prog t)
  spares : ∀ t, ¬inside t → Timely σ.Outside C.st.now (C.prog t)

theorem Simulates.run (h : σ.Simulates inside C A) (t : Fin n) {ch : S.Choice} {o : S.Op Mem Reply}
    {k : o.Res → Prog (S.Op Mem Reply) Op.Res ε Unit} {r : o.Res} {s' : S.State n Mem Reply} (hp : C.prog t = .op o k)
    (he : State.exec t ch o C.st = some (r, s')) :
    ∃ A', Reaches (σ.alone n Mem Reply) (fun _ _ _ => True) A A' ∧ σ.Simulates inside ⟨s', Function.update C.prog t (k r)⟩ A' := by
  have hb := (exec_spec h.base he).1
  have hnow := (Effect.exec h.base he).now
  have hother : ∀ {P : Nat → S.Query → Prop} {u}, u ≠ t → Timely P C.st.now (C.prog u) →
      Timely P s'.now (Function.update C.prog t (k r) u) := by
    intro P u hu hP
    rw [Function.update_of_ne hu, hnow]
    exact hP
  have hself : ∀ {P : Nat → S.Query → Prop}, Timely P C.st.now (C.prog t) →
      (∀ q, o = .query q → P C.st.now q) ∧ Timely P s'.now (Function.update C.prog t (k r) t) := by
    intro P hP
    rw [hp] at hP
    rw [Function.update_self]
    exact hP.exec h.base he
  have hparts : (∀ u, inside u → Timely (fun _ => σ.Inside) s'.now (Function.update C.prog t (k r) u)) ∧
      ∀ u, ¬inside u → Timely σ.Outside s'.now (Function.update C.prog t (k r) u) := by
    refine ⟨fun u hu => ?_, fun u hu => ?_⟩ <;> by_cases hut : u = t
    · subst hut
      exact (hself (h.about u hu)).2
    · exact hother hut (h.about u hu)
    · subst hut
      exact (hself (h.spares u hu)).2
    · exact hother hut (h.spares u hu)
  have hlapsing := h.lapsing.exec h.base (fun ht => (hself (h.spares t ht)).1) he
  by_cases ht : inside t
  · obtain ⟨ch', a', hexec, hsliced⟩ := h.sliced.exec ht (hself (h.about t ht)).1 he
    refine ⟨⟨a', Function.update A.prog t (k r)⟩, .single ⟨_, .run t ch' o k r a' ((h.same t ht).trans hp) trivial hexec⟩, hb, hsliced,
      hlapsing, fun u hu => ?_, hparts.1, hparts.2⟩
    show Function.update A.prog t (k r) u = Function.update C.prog t (k r) u
    by_cases hut : u = t
    · subst hut
      rw [Function.update_self, Function.update_self]
    · rw [Function.update_of_ne hut, Function.update_of_ne hut]
      exact h.same u hu
  · obtain ⟨a', henv, hsliced⟩ := h.sliced.exec_outside h.lapsing h.base ht (hself (h.spares t ht)).1 he
    refine ⟨⟨a', A.prog⟩, .single ⟨_, .env a' henv⟩, hb, hsliced, hlapsing, fun u hu => ?_, hparts.1, hparts.2⟩
    have hut : u ≠ t := by rintro rfl; exact ht hu
    show A.prog u = Function.update C.prog t (k r) u
    rw [Function.update_of_ne hut]
    exact h.same u hu

theorem Simulates.crash (h : σ.Simulates inside C A) (t : Fin n) :
    ∃ A', Reaches (σ.alone n Mem Reply) (fun _ _ _ => True) A A' ∧
      σ.Simulates inside ⟨C.st.crash t, Function.update C.prog t (.pure ())⟩ A' := by
  have hb : Base (C.st.crash t) := h.base.setTx nofun nofun
  have hprog : ∀ {P : Nat → S.Query → Prop} {u}, Timely P C.st.now (C.prog u) →
      Timely P (C.st.crash t).now (Function.update C.prog t (.pure ()) u) := by
    intro P u hP
    by_cases hut : u = t
    · subst hut
      rw [Function.update_self]
      trivial
    · rw [Function.update_of_ne hut]
      exact hP
  have habout := fun u hu => hprog (h.about u hu)
  have hspares := fun u hu => hprog (h.spares u hu)
  by_cases ht : inside t
  · refine ⟨⟨A.st.crash t, Function.update A.prog t (.pure ())⟩, .single ⟨_, .crash t⟩, hb, h.sliced.crash ht,
      h.lapsing.crash h.base t, fun u hu => ?_, habout, hspares⟩
    show Function.update A.prog t (.pure ()) u = Function.update C.prog t (.pure ()) u
    by_cases hut : u = t
    · subst hut
      rw [Function.update_self, Function.update_self]
    · rw [Function.update_of_ne hut, Function.update_of_ne hut]
      exact h.same u hu
  · refine ⟨A, .refl, hb, h.sliced.crash_outside ht, h.lapsing.crash h.base t, fun u hu => ?_, habout, hspares⟩
    have hut : u ≠ t := by rintro rfl; exact ht hu
    show A.prog u = Function.update C.prog t (.pure ()) u
    rw [Function.update_of_ne hut]
    exact h.same u hu

theorem Simulates.env (h : σ.Simulates inside C A) {s' : S.State n Mem Reply} (he : State.Env C.st s') :
    ∃ A', Reaches (σ.alone n Mem Reply) (fun _ _ _ => True) A A' ∧ σ.Simulates inside ⟨s', C.prog⟩ A' := by
  obtain ⟨a', henv, hsliced⟩ := h.sliced.env he
  have hnow : C.st.now ≤ s'.now := by
    cases he with
    | tick d => exact Nat.le_add_right ..
    | ext d _ => exact le_rfl
  exact ⟨⟨a', A.prog⟩, .single ⟨_, .env a' (.env henv)⟩, (env_spec h.base he).1, hsliced, h.lapsing.env h.base he, h.same,
    fun u hu => (h.about u hu).later (fun _ h => h) hnow, fun u hu => (h.spares u hu).later (P := σ.Outside) outside_later hnow⟩

/-- In a run of all, the sessions inside go through a run of theirs alone. -/
theorem Simulates.reaches {cond : Fin n → S.Op Mem Reply → S.State n Mem Reply → Prop} (h : σ.Simulates inside C A)
    (hr : Reaches (S.machine n Mem Reply) cond C C') :
    ∃ A', Reaches (σ.alone n Mem Reply) (fun _ _ _ => True) A A' ∧ σ.Simulates inside C' A' := by
  induction hr with
  | refl => exact ⟨A, .refl, h⟩
  | @tail _ C₂ _ hs ih =>
    obtain ⟨A₁, hA, h₁⟩ := ih
    obtain ⟨_, hs⟩ := hs
    have hstep : ∃ A₂, Reaches (σ.alone n Mem Reply) (fun _ _ _ => True) A₁ A₂ ∧ σ.Simulates inside C₂ A₂ := by
      cases hs with
      | run t ch o k r s' hp _ he => exact h₁.run t hp he
      | crash t => exact h₁.crash t
      | env s' he => exact h₁.env he
    obtain ⟨A₂, hA₂, h₂⟩ := hstep
    exact ⟨A₂, hA.trans hA₂, h₂⟩

end Slice

end Schema

end Concurrency
