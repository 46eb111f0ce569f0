/-
A database under READ COMMITTED, over any schema. A statement is planned on what its session
sees: the committed data with the session's own uncommitted writes on top. It waits while
another transaction holds one of the keys it needs: a row lock it wants, a row another
transaction has changed, or a unique key another transaction is inserting or deleting. The locks
of a transaction and its writes end together, with its commit, its rollback or the rollback to
the savepoint before them. A session outside a transaction commits each statement by itself. A
statement that raises aborts its transaction, whose later statements are refused until a
rollback. Any statement may also fail for a reason of the server's own (a deadlock victim, a
timeout, a lost connection).
-/
import WorkflowWorld.Concurrency.RelyGuarantee
import Mathlib.Data.List.Basic
import Mathlib.Data.List.FinRange

namespace Concurrency

/-- What a statement will do, once it need not wait: the keys it waits for, the locks it takes
beside those of the rows it writes, its writes and its answer. An answer that is an error has no
effect. -/
structure Plan (Key Write Viol α : Type) where
  needs : List Key := []
  takes : List Key := []
  writes : List Write := []
  ans : Except Viol α

/-- A schema: its data, its elementary writes with the keys each of them holds until the end of
its transaction, and its statements, planned from a choice among the rows the statement leaves
open, the session's clock and the session's view. `Agree k` compares what key `k` protects. -/
structure Schema where
  Db : Type
  Write : Type
  Key : Type
  Query : Type
  Ans : Query → Type
  Pick : Type
  Viol : Type
  apply : Write → Db → Db
  touches : Write → List Key
  plan : (q : Query) → Pick → Nat → Db → Plan Key Write Viol (Ans q)
  Agree : Key → Db → Db → Prop
  /-- What others than the sessions may do to the data; it moves nothing a key protects. -/
  Ext : Db → Db → Prop
  decKey : DecidableEq Key
  agree_refl : ∀ k d, Agree k d d
  agree_trans : ∀ k a b c, Agree k a b → Agree k b c → Agree k a c
  agree_apply : ∀ k w d, k ∉ touches w → Agree k d (apply w d)
  agree_congr : ∀ k w d d', Agree k d d' → Agree k (apply w d) (apply w d')
  agree_ext : ∀ k d d', Ext d d' → Agree k d d'

attribute [instance] Schema.decKey

/-- Why a statement failed. -/
inductive SqlError (Viol : Type) where
  | raised (v : Viol)
  | aborted
  | fault
  deriving DecidableEq

namespace Schema

variable (S : Schema)

/-- A list of writes, in order. -/
def applyAll (ws : List S.Write) (d : S.Db) : S.Db := ws.foldl (fun d w => S.apply w d) d

/-- The keys a list of writes holds. -/
def touchesAll (ws : List S.Write) : List S.Key := ws.flatMap S.touches

/-- What a savepoint goes back to. -/
structure Mark where
  writes : List S.Write
  locks : List S.Key
  failed : Bool

/-- An open transaction. -/
structure Tx extends Mark S where
  saves : List (Mark S)
  startedAt : Nat

/-- An answer a session gave, with what it had seen and whether it had written by then. -/
structure Answer (n : Nat) (Reply : Type) where
  who : Fin n
  reply : Reply
  seen : Option S.Db
  wrote : Bool

/-- The server and the sessions' own memory (`mem`), with the answers given so far. Two fields
record what happened and steer nothing: what a session's latest statement was planned on (`seen`),
and whether the session has published a write (`wrote`). -/
structure State (n : Nat) (Mem Reply : Type) where
  db : S.Db
  tx : Fin n → Option S.Tx
  mem : Fin n → Mem
  now : Nat
  replies : List (S.Answer n Reply)
  seen : Fin n → Option S.Db
  wrote : Fin n → Bool

/-- The server with its sessions before their first operation. -/
def State.init {S : Schema} {n : Nat} {Mem Reply : Type} (db : S.Db) (mem : Mem) (now : Nat) :
    S.State n Mem Reply :=
  ⟨db, fun _ => none, fun _ => mem, now, [], fun _ => none, fun _ => false⟩

/-- The operations of a session. `begin` inside a transaction sets a savepoint, and `commit` and
`rollback` then end at that savepoint. -/
inductive Op (Mem Reply : Type) where
  | begin
  | commit
  | rollback
  | clock
  | load
  | store (m : Mem)
  | reply (r : Reply)
  | query (q : S.Query)

variable {S} {n : Nat} {Mem Reply : Type}

def Op.Res : S.Op Mem Reply → Type
  | .begin => Unit
  | .commit => Unit
  | .rollback => Unit
  | .clock => Nat
  | .load => Mem
  | .store _ => Unit
  | .reply _ => Unit
  | .query q => Except (SqlError S.Viol) (S.Ans q)

/-- The scheduler's choice at a statement: whether the server fails it, and among the rows it
leaves open. -/
structure Choice (S : Schema) where
  fault : Bool
  pick : S.Pick

namespace State

variable (s : S.State n Mem Reply) (t : Fin n)

/-- What session `t` sees. -/
def view : S.Db :=
  match s.tx t with
  | none => s.db
  | some x => S.applyAll x.writes s.db

/-- The clock of session `t`'s statements: its transaction's start, or the present. -/
def clock : Nat :=
  match s.tx t with
  | none => s.now
  | some x => x.startedAt

def locks : List S.Key :=
  match s.tx t with
  | none => []
  | some x => x.locks

def aborted : Bool :=
  match s.tx t with
  | none => false
  | some x => x.failed

/-- Another transaction holds one of the keys. -/
def blocked (ks : List S.Key) : Bool :=
  (List.finRange n).any fun u => u != t && ks.any fun k => (s.locks u).contains k

def setTx (x : Option S.Tx) : S.State n Mem Reply :=
  { s with tx := Function.update s.tx t x }

def fail : S.State n Mem Reply :=
  match s.tx t with
  | none => s
  | some x => s.setTx t (some { x with failed := true })

/-- Writes become part of the committed data. -/
def publish (ws : List S.Write) : S.State n Mem Reply :=
  { s with db := S.applyAll ws s.db, wrote := Function.update s.wrote t (s.wrote t || !ws.isEmpty) }

/-- The session's view is what its statement is planned on. -/
def see : S.State n Mem Reply := { s with seen := Function.update s.seen t (some (s.view t)) }

/-- The effect of a statement that need not wait. -/
def write (takes : List S.Key) (ws : List S.Write) : S.State n Mem Reply :=
  match s.tx t with
  | none => s.publish t ws
  | some x => s.setTx t (some { x with
      writes := x.writes ++ ws
      locks := x.locks ++ (takes ++ S.touchesAll ws) })

def beginTx : S.State n Mem Reply :=
  match s.tx t with
  | none => s.setTx t (some ⟨⟨[], [], false⟩, [], s.now⟩)
  | some x => s.setTx t (some { x with saves := x.toMark :: x.saves })

def commitTx : S.State n Mem Reply :=
  match s.tx t with
  | none => s
  | some x =>
    match x.saves with
    | _ :: rest => s.setTx t (some { x with saves := rest })
    | [] =>
      if x.failed then s.setTx t none
      else (s.setTx t none).publish t x.writes

def rollbackTx : S.State n Mem Reply :=
  match s.tx t with
  | none => s
  | some x =>
    match x.saves with
    | m :: rest => s.setTx t (some ⟨m, rest, x.startedAt⟩)
    | [] => s.setTx t none

/-- The keys a plan waits for. -/
def waits {α : Type} (p : Plan S.Key S.Write S.Viol α) : List S.Key :=
  p.needs ++ (p.takes ++ S.touchesAll p.writes)

def runQuery (ch : S.Choice) (q : S.Query) :
    Option (Except (SqlError S.Viol) (S.Ans q) × S.State n Mem Reply) :=
  let p := S.plan q ch.pick (s.clock t) (s.view t)
  if s.aborted t then some (.error .aborted, s)
  else if ch.fault then some (.error .fault, s.fail t)
  else if s.blocked t (waits p) then none
  else match p.ans with
    | .error v => some (.error (.raised v), (s.see t).fail t)
    | .ok a => some (.ok a, (s.see t).write t p.takes p.writes)

def exec (t : Fin n) (ch : S.Choice) : (o : S.Op Mem Reply) → S.State n Mem Reply →
    Option (o.Res × S.State n Mem Reply)
  | .begin, s => some ((), s.beginTx t)
  | .commit, s => some ((), s.commitTx t)
  | .rollback, s => some ((), s.rollbackTx t)
  | .clock, s => some (s.now, s)
  | .load, s => some (s.mem t, s)
  | .store m, s => some ((), { s with mem := Function.update s.mem t m })
  | .reply r, s => some ((), { s with replies := s.replies ++ [⟨t, r, s.seen t, s.wrote t⟩] })
  | .query q, s => s.runQuery t ch q

/-- The session's connection ends: the server rolls its transaction back. -/
def crash : S.State n Mem Reply := s.setTx t none

/-- Time passes, and what is outside the sessions acts. -/
inductive Env : S.State n Mem Reply → S.State n Mem Reply → Prop
  | tick (s : S.State n Mem Reply) (d : Nat) : Env s { s with now := s.now + d }
  | ext (s : S.State n Mem Reply) (d : S.Db) (h : S.Ext s.db d) : Env s { s with db := d }

/-! ## What a session's operations do -/

variable {s s' : S.State n Mem Reply} {t u : Fin n}

/-- The uncommitted writes of session `t`. -/
def pend (s : S.State n Mem Reply) (t : Fin n) : List S.Write :=
  match s.tx t with
  | none => []
  | some x => x.writes

theorem view_eq (s : S.State n Mem Reply) (t : Fin n) : s.view t = S.applyAll (s.pend t) s.db := by
  unfold view pend
  cases s.tx t <;> rfl

theorem blocked_eq_false {ks : List S.Key} (h : s.blocked t ks = false) (hu : u ≠ t) :
    ∀ k ∈ ks, k ∉ s.locks u := by
  intro k hk hl
  rw [blocked, List.any_eq_false] at h
  have := h u (List.mem_finRange u)
  simp only [Bool.and_eq_true, bne_iff_ne, ne_eq, List.any_eq_true, List.contains_iff_mem, not_and,
    not_exists] at this
  exact this hu k hk hl

/-- The possible ends of a statement: it failed, or it had its plan's answer and effect. -/
theorem runQuery_cases {ch : S.Choice} {q : S.Query} {r : Except (SqlError S.Viol) (S.Ans q)}
    (h : s.runQuery t ch q = some (r, s')) :
    (∃ e, r = .error e ∧ (s' = s ∨ s' = s.fail t ∨ s' = (s.see t).fail t) ∧
      ∀ v, e = .raised v → (S.plan q ch.pick (s.clock t) (s.view t)).ans = .error v ∧
        s.blocked t (waits (S.plan q ch.pick (s.clock t) (s.view t))) = false ∧ s' = (s.see t).fail t) ∨
    (∃ a, r = .ok a ∧ (S.plan q ch.pick (s.clock t) (s.view t)).ans = .ok a ∧ s.aborted t = false ∧
      s.blocked t (waits (S.plan q ch.pick (s.clock t) (s.view t))) = false ∧
      s' = (s.see t).write t (S.plan q ch.pick (s.clock t) (s.view t)).takes
        (S.plan q ch.pick (s.clock t) (s.view t)).writes) := by
  unfold runQuery at h
  simp only at h
  split at h
  · cases h; exact .inl ⟨_, rfl, .inl rfl, fun v hv => by cases hv⟩
  · rename_i hab
    split at h
    · cases h; exact .inl ⟨_, rfl, .inr (.inl rfl), fun v hv => by cases hv⟩
    · split at h
      · cases h
      · rename_i hbl
        split at h
        · rename_i v hv
          cases h
          exact .inl ⟨_, rfl, .inr (.inr rfl), fun w hw => by cases hw; exact ⟨hv, by simpa using hbl, rfl⟩⟩
        · rename_i a ha
          cases h; exact .inr ⟨a, rfl, ha, by simpa using hab, by simpa using hbl, rfl⟩

@[simp] theorem setTx_db (s : S.State n Mem Reply) (t : Fin n) (x : Option S.Tx) : (s.setTx t x).db = s.db := rfl
@[simp] theorem setTx_now (s : S.State n Mem Reply) (t : Fin n) (x : Option S.Tx) : (s.setTx t x).now = s.now := rfl
@[simp] theorem setTx_mem (s : S.State n Mem Reply) (t : Fin n) (x : Option S.Tx) : (s.setTx t x).mem = s.mem := rfl
@[simp] theorem setTx_replies (s : S.State n Mem Reply) (t : Fin n) (x : Option S.Tx) :
    (s.setTx t x).replies = s.replies := rfl
@[simp] theorem setTx_tx_self (s : S.State n Mem Reply) (t : Fin n) (x : Option S.Tx) :
    (s.setTx t x).tx t = x := Function.update_self ..
theorem setTx_tx_ne (s : S.State n Mem Reply) (x : Option S.Tx) (h : u ≠ t) : (s.setTx t x).tx u = s.tx u :=
  Function.update_of_ne h ..

theorem fail_db (s : S.State n Mem Reply) (t : Fin n) : (s.fail t).db = s.db := by
  unfold fail; cases s.tx t <;> rfl

theorem fail_pend (s : S.State n Mem Reply) (t : Fin n) : (s.fail t).pend t = s.pend t := by
  unfold fail pend; cases h : s.tx t <;> simp [h]

theorem fail_locks (s : S.State n Mem Reply) (t : Fin n) : (s.fail t).locks t = s.locks t := by
  unfold fail locks; cases h : s.tx t <;> simp [h]

@[simp] theorem see_db (s : S.State n Mem Reply) (t : Fin n) : (s.see t).db = s.db := rfl
@[simp] theorem see_tx (s : S.State n Mem Reply) (t : Fin n) : (s.see t).tx = s.tx := rfl
@[simp] theorem see_view (s : S.State n Mem Reply) (t u : Fin n) : (s.see t).view u = s.view u := rfl
@[simp] theorem see_pend (s : S.State n Mem Reply) (t u : Fin n) : (s.see t).pend u = s.pend u := rfl
@[simp] theorem see_locks (s : S.State n Mem Reply) (t u : Fin n) : (s.see t).locks u = s.locks u := rfl

theorem applyAll_append (ws ws' : List S.Write) (d : S.Db) :
    S.applyAll (ws ++ ws') d = S.applyAll ws' (S.applyAll ws d) := List.foldl_append ..

theorem write_view (s : S.State n Mem Reply) (t : Fin n) (ks : List S.Key) (ws : List S.Write) :
    (s.write t ks ws).view t = S.applyAll ws (s.view t) := by
  unfold write view
  cases h : s.tx t with
  | none => simp [h, publish]
  | some x => simp [applyAll_append]

/-! ## The server's own invariant -/

/-- Every write of the mark holds its keys. -/
def MarkOk (m : S.Mark) : Prop := ∀ w ∈ m.writes, ∀ k ∈ S.touches w, k ∈ m.locks

/-- A mark of an earlier moment of the same transaction. -/
def MarkLe (m m' : S.Mark) : Prop := m.writes <+: m'.writes ∧ m.locks <+: m'.locks

/-- A well-formed transaction: its writes hold their keys, at every savepoint too, and the
savepoints are its own earlier moments. -/
structure TxOk (x : S.Tx) : Prop where
  top : MarkOk x.toMark
  saves : ∀ m ∈ x.saves, MarkOk m ∧ MarkLe m x.toMark
  nested : x.saves.Pairwise fun newer older => MarkLe older newer

/-- Locks are exclusive and every transaction is well formed. -/
structure Base (s : S.State n Mem Reply) : Prop where
  excl : ∀ t u, t ≠ u → ∀ k ∈ s.locks t, k ∉ s.locks u
  txOk : ∀ t x, s.tx t = some x → TxOk x

/-- What the other sessions leave to session `t`: its transaction, its memory, its record, the
rows it holds and the order of time. -/
structure Keep (t : Fin n) (s s' : S.State n Mem Reply) : Prop where
  tx : s'.tx t = s.tx t
  mem : s'.mem t = s.mem t
  seen : s'.seen t = s.seen t
  wrote : s'.wrote t = s.wrote t
  now : s.now ≤ s'.now
  agree : ∀ k ∈ s.locks t, S.Agree k s.db s'.db

theorem Keep.refl (t : Fin n) (s : S.State n Mem Reply) : Keep t s s :=
  ⟨rfl, rfl, rfl, rfl, le_refl _, fun k _ => S.agree_refl k _⟩

theorem Keep.pend (h : Keep t s s') : s'.pend t = s.pend t := by unfold State.pend; rw [h.tx]

theorem Keep.locks (h : Keep t s s') : s'.locks t = s.locks t := by unfold State.locks; rw [h.tx]

theorem Keep.trans {a b c : S.State n Mem Reply} (h1 : Keep t a b) (h2 : Keep t b c) : Keep t a c :=
  ⟨h2.tx.trans h1.tx, h2.mem.trans h1.mem, h2.seen.trans h1.seen, h2.wrote.trans h1.wrote,
    le_trans h1.now h2.now, fun k hk =>
    S.agree_trans k _ _ _ (h1.agree k hk) (h2.agree k (by rw [h1.locks]; exact hk))⟩

theorem agree_applyAll {k : S.Key} : ∀ (ws : List S.Write) (d : S.Db), k ∉ S.touchesAll ws →
    S.Agree k d (S.applyAll ws d)
  | [], d, _ => S.agree_refl k d
  | w :: ws, d, h => by
    rw [Schema.touchesAll, List.flatMap_cons, List.mem_append, not_or] at h
    exact S.agree_trans k _ _ _ (S.agree_apply k w d h.1) (agree_applyAll ws _ h.2)

theorem agree_applyAll_congr {k : S.Key} : ∀ (ws : List S.Write) (d d' : S.Db), S.Agree k d d' →
    S.Agree k (S.applyAll ws d) (S.applyAll ws d')
  | [], _, _, h => h
  | w :: ws, _, _, h => agree_applyAll_congr ws _ _ (S.agree_congr k w _ _ h)

/-- The rows a session holds look the same to it after any interference. -/
theorem Keep.view (h : Keep t s s') {k : S.Key} (hk : k ∈ s.locks t) : S.Agree k (s.view t) (s'.view t) := by
  rw [view_eq, view_eq, h.pend]
  exact agree_applyAll_congr _ _ _ (h.agree k hk)

theorem MarkLe.refl (m : S.Mark) : MarkLe m m := ⟨List.prefix_refl _, List.prefix_refl _⟩

theorem MarkLe.trans {a b c : S.Mark} (h1 : MarkLe a b) (h2 : MarkLe b c) : MarkLe a c :=
  ⟨h1.1.trans h2.1, h1.2.trans h2.2⟩

theorem MarkOk.touchesAll {m : S.Mark} (h : MarkOk m) : ∀ k ∈ S.touchesAll m.writes, k ∈ m.locks := by
  intro k hk
  obtain ⟨w, hw, hkw⟩ := List.mem_flatMap.1 hk
  exact h w hw k hkw

/-- A transaction whose savepoints are kept and whose top only grows stays well formed. -/
theorem TxOk.grow {x : S.Tx} (h : TxOk x) {m : S.Mark} (hm : MarkOk m) (hle : MarkLe x.toMark m) :
    TxOk ⟨m, x.saves, x.startedAt⟩ :=
  ⟨hm, fun m' hm' => ⟨(h.saves m' hm').1, (h.saves m' hm').2.trans hle⟩, h.nested⟩

theorem TxOk.push {x : S.Tx} (h : TxOk x) : TxOk ⟨x.toMark, x.toMark :: x.saves, x.startedAt⟩ := by
  refine ⟨h.top, fun m hm => ?_, List.pairwise_cons.2 ⟨fun m hm => (h.saves m hm).2, h.nested⟩⟩
  rcases List.mem_cons.1 hm with rfl | hm
  · exact ⟨h.top, MarkLe.refl _⟩
  · exact h.saves m hm

theorem TxOk.pop {x : S.Tx} (h : TxOk x) {m : S.Mark} {rest : List S.Mark} (hs : x.saves = m :: rest) :
    TxOk ⟨x.toMark, rest, x.startedAt⟩ ∧ TxOk ⟨m, rest, x.startedAt⟩ ∧ MarkLe m x.toMark := by
  have hsaves := h.saves
  have hn := h.nested
  rw [hs] at hsaves hn
  rw [List.pairwise_cons] at hn
  refine ⟨⟨h.top, fun m' hm' => hsaves m' (List.mem_cons_of_mem _ hm'), hn.2⟩,
    ⟨(hsaves m (List.mem_cons_self ..)).1, fun m' hm' => ?_, hn.2⟩, (hsaves m (List.mem_cons_self ..)).2⟩
  exact ⟨(hsaves m' (List.mem_cons_of_mem _ hm')).1, hn.1 m' hm'⟩

/-- Replacing `t`'s transaction by a well-formed one that takes only free keys keeps `Base`. -/
theorem Base.setTx (h : Base s) {x : Option S.Tx} (hx : ∀ y, x = some y → TxOk y)
    (hfree : ∀ y, x = some y → ∀ k ∈ y.locks, k ∈ s.locks t ∨ ∀ u, u ≠ t → k ∉ s.locks u) :
    Base (s.setTx t x) := by
  have hself : ∀ k ∈ (s.setTx t x).locks t, ∀ u, u ≠ t → k ∉ s.locks u := by
    intro k hk u hu
    unfold State.locks at hk
    rw [setTx_tx_self] at hk
    cases hx' : x with
    | none => rw [hx'] at hk; cases hk
    | some y =>
      rw [hx'] at hk
      rcases hfree y hx' k hk with h1 | h1
      · exact h.excl t u (Ne.symm hu) k h1
      · exact h1 u hu
  have hother : ∀ u, u ≠ t → (s.setTx t x).locks u = s.locks u := by
    intro u hu; unfold State.locks; rw [setTx_tx_ne _ _ hu]
  refine ⟨fun a b hab k hk hk' => ?_, fun u y hy => ?_⟩
  · by_cases ha : a = t
    · subst ha
      rw [hother b (Ne.symm hab)] at hk'
      exact hself k hk b (Ne.symm hab) hk'
    · rw [hother a ha] at hk
      by_cases hb : b = t
      · subst hb; exact hself k hk' a hab hk
      · rw [hother b hb] at hk'
        exact h.excl a b hab k hk hk'
  · by_cases hu : u = t
    · subst hu; rw [setTx_tx_self] at hy; exact hx y hy
    · rw [setTx_tx_ne _ _ hu] at hy; exact h.txOk u y hy

theorem Base.of_tx (h : Base s) (htx : s'.tx = s.tx) : Base s' := by
  have hl : ∀ t, s'.locks t = s.locks t := fun t => by unfold State.locks; rw [htx]
  refine ⟨fun a b hab k hk => ?_, fun u y hy => h.txOk u y (by rw [← htx]; exact hy)⟩
  rw [hl a] at hk; rw [hl b]
  exact h.excl a b hab k hk

theorem Keep.setTx (hu : u ≠ t) (s : S.State n Mem Reply) (x : Option S.Tx) : Keep u s (s.setTx t x) :=
  ⟨setTx_tx_ne _ _ hu, rfl, rfl, rfl, le_refl _, fun k _ => S.agree_refl k _⟩

theorem Keep.see (hu : u ≠ t) (s : S.State n Mem Reply) : Keep u s (s.see t) :=
  ⟨rfl, rfl, Function.update_of_ne hu .., rfl, le_refl _, fun k _ => S.agree_refl k _⟩

/-- Publishing writes whose keys nobody else holds keeps the others' rows. -/
theorem Keep.publish (hu : u ≠ t) (s : S.State n Mem Reply) (ws : List S.Write)
    (hfree : ∀ k ∈ S.touchesAll ws, k ∉ s.locks u) : Keep u s (s.publish t ws) :=
  ⟨rfl, rfl, rfl, Function.update_of_ne hu .., le_refl _, fun k hk => agree_applyAll ws _ fun h => hfree k h hk⟩

theorem locks_of_tx {x : S.Tx} (h : s.tx t = some x) : s.locks t = x.locks := by unfold State.locks; rw [h]

theorem pend_of_tx {x : S.Tx} (h : s.tx t = some x) : s.pend t = x.writes := by unfold State.pend; rw [h]

/-- A session holds the rows it has written. -/
theorem Base.touchesAll_pend (hb : Base s) (t : Fin n) : ∀ k ∈ S.touchesAll (s.pend t), k ∈ s.locks t := by
  intro k hk
  cases hx : s.tx t with
  | none => simp [State.pend, hx, touchesAll] at hk
  | some x =>
    rw [pend_of_tx hx] at hk
    rw [locks_of_tx hx]
    exact (hb.txOk t x hx).top.touchesAll k hk

theorem fail_spec (hb : Base s) : Base (s.fail t) ∧ ∀ u, u ≠ t → Keep u s (s.fail t) := by
  unfold fail
  cases hx : s.tx t with
  | none => exact ⟨hb, fun u _ => Keep.refl u s⟩
  | some x =>
    refine ⟨hb.setTx (fun y hy => ?_) (fun y hy k hk => ?_), fun u hu => Keep.setTx hu s _⟩
    · cases hy; exact (hb.txOk t x hx).grow (hb.txOk t x hx).top (MarkLe.refl x.toMark)
    · cases hy; exact .inl (by rw [locks_of_tx hx]; exact hk)

theorem write_spec (hb : Base s) {takes : List S.Key} {ws : List S.Write}
    (hfree : ∀ u, u ≠ t → ∀ k ∈ takes ++ S.touchesAll ws, k ∉ s.locks u) :
    Base (s.write t takes ws) ∧ ∀ u, u ≠ t → Keep u s (s.write t takes ws) := by
  unfold write
  cases hx : s.tx t with
  | none =>
    refine ⟨hb.of_tx rfl, fun u hu => Keep.publish hu s ws fun k hk => ?_⟩
    exact hfree u hu k (List.mem_append_right _ hk)
  | some x =>
    refine ⟨hb.setTx (fun y hy => ?_) (fun y hy k hk => ?_), fun u hu => Keep.setTx hu s _⟩
    · cases hy
      refine (hb.txOk t x hx).grow ?_ ⟨List.prefix_append _ _, List.prefix_append _ _⟩
      intro w hw k hk
      rcases List.mem_append.1 hw with hw | hw
      · exact List.mem_append_left _ ((hb.txOk t x hx).top w hw k hk)
      · exact List.mem_append_right _ (List.mem_append_right _ (List.mem_flatMap.2 ⟨w, hw, hk⟩))
    · cases hy
      rcases List.mem_append.1 hk with hk | hk
      · exact .inl (by rw [locks_of_tx hx]; exact hk)
      · exact .inr fun u hu => hfree u hu k hk

theorem beginTx_spec (hb : Base s) : Base (s.beginTx t) ∧ ∀ u, u ≠ t → Keep u s (s.beginTx t) := by
  unfold beginTx
  cases hx : s.tx t with
  | none =>
    refine ⟨hb.setTx (fun y hy => ?_) (fun y hy k hk => ?_), fun u hu => Keep.setTx hu s _⟩
    · cases hy
      exact ⟨fun w hw => (by cases hw), fun m hm => (by cases hm), List.Pairwise.nil⟩
    · cases hy; cases hk
  | some x =>
    refine ⟨hb.setTx (fun y hy => ?_) (fun y hy k hk => ?_), fun u hu => Keep.setTx hu s _⟩
    · cases hy; exact (hb.txOk t x hx).push
    · cases hy; exact .inl (by rw [locks_of_tx hx]; exact hk)

theorem commitTx_spec (hb : Base s) : Base (s.commitTx t) ∧ ∀ u, u ≠ t → Keep u s (s.commitTx t) := by
  unfold commitTx
  cases hx : s.tx t with
  | none => exact ⟨hb, fun u _ => Keep.refl u s⟩
  | some x =>
    simp only
    cases hs : x.saves with
    | cons m rest =>
      refine ⟨hb.setTx (fun y hy => ?_) (fun y hy k hk => ?_), fun u hu => Keep.setTx hu s _⟩
      · cases hy; exact ((hb.txOk t x hx).pop hs).1
      · cases hy; exact .inl (by rw [locks_of_tx hx]; exact hk)
    | nil =>
      have hnone : Base (s.setTx t none) := hb.setTx (fun y hy => by cases hy) (fun y hy => by cases hy)
      simp only
      split
      · exact ⟨hnone, fun u hu => Keep.setTx hu s _⟩
      · refine ⟨hnone.of_tx rfl, fun u hu => (Keep.setTx hu s none).trans (Keep.publish hu _ x.writes fun k hk => ?_)⟩
        have hl : (s.setTx t none).locks u = s.locks u := by unfold State.locks; rw [setTx_tx_ne _ _ hu]
        rw [hl]
        refine hb.excl t u (Ne.symm hu) k ?_
        rw [locks_of_tx hx]
        exact (hb.txOk t x hx).top.touchesAll k hk

theorem rollbackTx_spec (hb : Base s) : Base (s.rollbackTx t) ∧ ∀ u, u ≠ t → Keep u s (s.rollbackTx t) := by
  unfold rollbackTx
  cases hx : s.tx t with
  | none => exact ⟨hb, fun u _ => Keep.refl u s⟩
  | some x =>
    simp only
    cases hs : x.saves with
    | cons m rest =>
      obtain ⟨-, hok, hle⟩ := (hb.txOk t x hx).pop hs
      refine ⟨hb.setTx (fun y hy => ?_) (fun y hy k hk => ?_), fun u hu => Keep.setTx hu s _⟩
      · cases hy; exact hok
      · cases hy; exact .inl (by rw [locks_of_tx hx]; exact hle.2.subset hk)
    | nil =>
      refine ⟨hb.setTx (fun y hy => ?_) (fun y hy => ?_), fun u hu => Keep.setTx hu s _⟩
      · cases hy
      · cases hy

theorem runQuery_spec (hb : Base s) {ch : S.Choice} {q : S.Query} {r : Except (SqlError S.Viol) (S.Ans q)}
    (h : s.runQuery t ch q = some (r, s')) : Base s' ∧ ∀ u, u ≠ t → Keep u s s' := by
  have hsee : Base (s.see t) := hb.of_tx rfl
  rcases runQuery_cases h with ⟨e, -, rfl | rfl | rfl, -⟩ | ⟨a, -, -, -, hbl, rfl⟩
  · exact ⟨hb, fun u _ => Keep.refl u _⟩
  · exact fail_spec hb
  · exact ⟨(fail_spec hsee).1, fun u hu => (Keep.see hu s).trans ((fail_spec hsee).2 u hu)⟩
  · have hfree : ∀ u, u ≠ t → ∀ k ∈ (S.plan q ch.pick (s.clock t) (s.view t)).takes ++
        S.touchesAll (S.plan q ch.pick (s.clock t) (s.view t)).writes, k ∉ (s.see t).locks u :=
      fun u hu k hk => blocked_eq_false hbl hu k (List.mem_append_right _ hk)
    exact ⟨(write_spec hsee hfree).1, fun u hu => (Keep.see hu s).trans ((write_spec hsee hfree).2 u hu)⟩

theorem exec_spec (hb : Base s) {ch : S.Choice} {o : S.Op Mem Reply} {r : o.Res}
    (h : exec t ch o s = some (r, s')) : Base s' ∧ ∀ u, u ≠ t → Keep u s s' := by
  cases o with
  | begin => cases h; exact beginTx_spec hb
  | commit => cases h; exact commitTx_spec hb
  | rollback => cases h; exact rollbackTx_spec hb
  | clock => cases h; exact ⟨hb, fun u _ => Keep.refl u _⟩
  | load => cases h; exact ⟨hb, fun u _ => Keep.refl u _⟩
  | store m =>
    cases h
    exact ⟨hb.of_tx rfl, fun u hu =>
      ⟨rfl, Function.update_of_ne hu .., rfl, rfl, le_refl _, fun k _ => S.agree_refl k _⟩⟩
  | reply a =>
    cases h
    exact ⟨hb.of_tx rfl, fun u _ => ⟨rfl, rfl, rfl, rfl, le_refl _, fun k _ => S.agree_refl k _⟩⟩
  | query q => exact runQuery_spec hb h

theorem env_spec (hb : Base s) (h : Env s s') : Base s' ∧ ∀ u, Keep u s s' := by
  cases h with
  | tick d => exact ⟨hb.of_tx rfl, fun u => ⟨rfl, rfl, rfl, rfl, Nat.le_add_right .., fun k _ => S.agree_refl k _⟩⟩
  | ext d he => exact ⟨hb.of_tx rfl, fun u => ⟨rfl, rfl, rfl, rfl, le_refl _, fun k _ => S.agree_ext k _ _ he⟩⟩

end State

variable (S n Mem Reply)

/-- `n` sessions on one server. -/
def machine : Machine (Fin n) (S.Op Mem Reply) Op.Res S.Choice (S.State n Mem Reply) where
  exec t ch o s := State.exec t ch o s
  crash t s := s.crash t
  env := State.Env
  base := State.Base
  keep := State.Keep
  keep_refl := State.Keep.refl
  keep_trans _ _ _ _ := State.Keep.trans
  exec_base hb h := (State.exec_spec hb h).1
  exec_keep hb h hu := (State.exec_spec hb h).2 _ hu
  crash_base hb := hb.setTx (fun y hy => by cases hy) (fun y hy => by cases hy)
  crash_keep _ hu := State.Keep.setTx hu _ _
  env_base hb h := (State.env_spec hb h).1
  env_keep hb h := (State.env_spec hb h).2 _

end Schema

end Concurrency
