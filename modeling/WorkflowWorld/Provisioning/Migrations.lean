/-
The migrations (`runMigrations`): any number of instances on one database, of one release or of several,
each stepping from await to await under a session-level advisory lock. Any call may fail, and a session may
be lost at any point, also between a commit and its answer.
-/
import WorkflowWorld.Concurrency.Machine
import Mathlib.Data.List.Nodup
import Mathlib.Data.List.Perm.Subperm
import Mathlib.Logic.Function.Basic

namespace WorkflowWorld.Migrations

/-! ## One instance -/

/-- Where the loop over the files is: the names the table held, those applied, those to come. -/
structure Loop (Name : Type) where
  seen : List Name
  applied : List Name
  todo : List Name
  deriving DecidableEq, Repr

/-- The await an instance is at. -/
inductive Phase (Name : Type) where
  | idle
  | locking
  | creatingSchema
  | creatingTable
  | selecting
  | reading (name : Name) (l : Loop Name)
  | beginning (name : Name) (l : Loop Name)
  | executing (name : Name) (l : Loop Name)
  | recording (name : Name) (l : Loop Name)
  | committing (name : Name) (l : Loop Name)
  | rollingBack
  | unlocking (result : Option (List Name))
  | returned (applied : List Name)
  | thrown
  deriving DecidableEq, Repr

/-- How a call ends: well, with an error, or well on the server and with its session lost. -/
inductive Answer where
  | ok | error | lost
  deriving DecidableEq, Repr

/-- What a call does on the server beside its answer. -/
inductive Effect (Name : Type) where
  | nothing
  | lock
  | unlock
  | commit (name : Name)
  deriving DecidableEq, Repr

section Instance

variable {Name : Type} [DecidableEq Name]

/-- The loop, up to the next file that is not in the table. -/
def iterate (seen applied : List Name) : List Name → Phase Name
  | [] => .unlocking (some applied)
  | name :: todo => if name ∈ seen then iterate seen applied todo else .reading name ⟨seen, applied, todo⟩

/-- `finally` is done: the call returns, or its error goes on. -/
def finish : Option (List Name) → Phase Name
  | some applied => .returned applied
  | none => .thrown

/-- The phase is left by an answer of the session, not of the file system. -/
def Phase.queries : Phase Name → Bool
  | .reading _ _ => false
  | _ => true

/-- An instance goes on with an answer. `free` tells that the lock is to be had, `rows` is the table. -/
def resume (files : List Name) (free : Bool) (rows : List Name) (a : Answer) : Phase Name → Option (Phase Name × Effect Name)
  | .idle => some (.locking, .nothing)
  | .locking =>
    match a with
    | .error => some (.unlocking none, .nothing)
    | _ => if free then some (.creatingSchema, .lock) else none
  | .creatingSchema => some (if a = .error then .unlocking none else .creatingTable, .nothing)
  | .creatingTable => some (if a = .error then .unlocking none else .selecting, .nothing)
  | .selecting => some (if a = .error then .unlocking none else iterate rows [] files, .nothing)
  | .reading name l => some (if a = .error then .unlocking none else .beginning name l, .nothing)
  | .beginning name l => some (if a = .error then .unlocking none else .executing name l, .nothing)
  | .executing name l => some (if a = .error then .rollingBack else .recording name l, .nothing)
  | .recording name l =>
    -- the name is the table's primary key
    some (if a = .error ∨ name ∈ rows then .rollingBack else .committing name l, .nothing)
  | .committing name l =>
    match a with
    | .ok => some (iterate l.seen (l.applied ++ [name]) l.todo, .commit name)
    | .lost => some (.rollingBack, .commit name)
    | .error => some (.rollingBack, .nothing)
  | .rollingBack => some (.unlocking none, .nothing)
  | .unlocking result =>
    -- an error of the unlock is swallowed
    some (finish result, if a = .error then .nothing else .unlock)
  | .returned _ | .thrown => none

end Instance

/-! ## The system -/

/-- The migrations table, the scripts whose transactions committed, and the instances. -/
structure State (I Name : Type) where
  rows : List Name
  scripts : List Name
  holder : Option I
  connected : I → Bool
  phase : I → Phase Name

/-- What happens next: an instance's call is answered, or its session is lost. -/
inductive Event (I : Type) where
  | run (i : I) (a : Answer)
  | disconnect (i : I)
  deriving DecidableEq, Repr

section System

variable {I Name : Type} [DecidableEq I] [DecidableEq Name]

def initial (rows : List Name) : State I Name :=
  { rows := rows, scripts := rows, holder := none, connected := fun _ => true, phase := fun _ => .idle }

/-- The server ends a session: its locks are free again. -/
def State.disconnect (s : State I Name) (i : I) : State I Name :=
  { s with
    connected := Function.update s.connected i false
    holder := if s.holder = some i then none else s.holder }

def Effect.apply (i : I) : Effect Name → State I Name → State I Name
  | .nothing, s => s
  | .lock, s => { s with holder := some i }
  | .unlock, s => { s with holder := if s.holder = some i then none else s.holder }
  | .commit name, s => { s with rows := s.rows ++ [name], scripts := s.scripts ++ [name] }

def State.goto (s : State I Name) (i : I) (p : Phase Name) : State I Name := { s with phase := Function.update s.phase i p }

/-- One event. A lost session answers nothing but errors. -/
def step (files : I → List Name) : Event I → State I Name → Option (State I Name)
  | .disconnect i, s => some (s.disconnect i)
  | .run i a, s =>
    if a ≠ .error ∧ (s.phase i).queries ∧ s.connected i = false then none
    else do
      let (p, e) ← resume (files i) (s.holder = none) s.rows a (s.phase i)
      let s := (e.apply i s).goto i p
      return if a = .lost then s.disconnect i else s

end System

/-! ## Where an instance is -/

section Places

variable {Name : Type} [DecidableEq Name] {files rows rows' : List Name} {connected : Bool}

/-- Between the lock and its release. -/
def Phase.holds : Phase Name → Bool
  | .idle | .locking | .unlocking _ | .returned _ | .thrown => false
  | _ => true

/-- The names the call has applied so far, those it will return. -/
def Phase.applied : Phase Name → List Name
  | .reading _ l | .beginning _ l | .executing _ l | .recording _ l | .committing _ l => l.applied
  | .unlocking (some applied) | .returned applied => applied
  | _ => []

/-- The loop is at `name`: the files before it are in the table, which holds what it held at the start and
what the loop has added. -/
structure Loop.At (files rows : List Name) (name : Name) (l : Loop Name) : Prop where
  rows_eq : rows = l.seen ++ l.applied
  split : ∃ done, files = done ++ name :: l.todo ∧ l.applied.Sublist done ∧ ∀ f ∈ done, f ∈ rows

/-- Where an instance is, as long as its session lives: once that is lost, the table goes on without it. -/
def Phase.Placed (files rows : List Name) (connected : Bool) : Phase Name → Prop
  | .reading name l | .beginning name l | .executing name l | .recording name l => connected = true → l.At files rows name
  | .committing name l => connected = true → l.At files rows name ∧ name ∉ rows
  | .unlocking (some applied) | .returned applied => applied.Sublist files ∧ ∀ f ∈ files, f ∈ rows
  | _ => True

theorem placed_iterate {seen applied : List Name} (hrows : rows = seen ++ applied) : ∀ {todo : List Name} (done : List Name),
    files = done ++ todo → applied.Sublist done → (∀ f ∈ done, f ∈ rows) → (iterate seen applied todo).Placed files rows connected
  | [], done, hfiles, hsub, hdone => by
    rw [List.append_nil] at hfiles
    subst hfiles
    exact ⟨hsub, hdone⟩
  | name :: todo, done, hfiles, hsub, hdone => by
    unfold iterate
    split
    · rename_i hseen
      refine placed_iterate hrows (done ++ [name]) (by simp [hfiles]) (hsub.trans (List.sublist_append_left ..)) ?_
      intro f hf
      rcases List.mem_append.1 hf with hf | hf
      · exact hdone f hf
      · rw [List.mem_singleton.1 hf, hrows]
        exact List.mem_append_left _ hseen
    · exact fun _ => ⟨hrows, done, hfiles, hsub, hdone⟩

theorem applied_iterate (seen applied : List Name) : ∀ todo : List Name, (iterate seen applied todo).applied = applied
  | [] => rfl
  | name :: todo => by
    unfold iterate
    split
    · exact applied_iterate seen applied todo
    · rfl

/-- What an answer makes of an instance: it commits the file it is at, or leaves the table as it is. -/
theorem resume_cases {free : Bool} {a : Answer} {p p' : Phase Name} {e : Effect Name}
    (h : resume files free rows a p = some (p', e)) (hp : p.Placed files rows connected)
    (hc : a ≠ .error → p.queries = true → connected = true) :
    (∃ name l, p = .committing name l ∧ e = .commit name ∧ connected = true ∧
      (p' = iterate l.seen (l.applied ++ [name]) l.todo ∨ a = .lost ∧ p' = .rollingBack)) ∨
    ((∀ name, e ≠ .commit name) ∧ p'.Placed files rows connected ∧ (p'.applied = p.applied ∨ p'.applied = []) ∧
      (p'.holds = true → p.holds = true ∧ e = .nothing ∨ e = .lock)) := by
  have hquiet : ∀ name : Name, Effect.nothing ≠ .commit name := fun _ h => by cases h
  cases p with
  | idle =>
    cases h
    exact .inr ⟨hquiet, trivial, .inl rfl, fun h => by cases h⟩
  | locking =>
    cases a with
    | error =>
      cases h
      exact .inr ⟨hquiet, trivial, .inl rfl, fun h => by cases h⟩
    | ok | lost =>
      cases hfree : free with
      | false => rw [hfree] at h; cases h
      | true =>
        rw [hfree] at h
        cases h
        exact .inr ⟨fun _ h => (by cases h), trivial, .inl rfl, fun _ => .inr rfl⟩
  | creatingSchema | creatingTable =>
    cases a <;> cases h <;> exact .inr ⟨hquiet, trivial, .inl rfl, fun _ => .inl ⟨rfl, rfl⟩⟩
  | selecting =>
    have hgo : ∀ c', (iterate rows [] files).Placed files rows c' := fun c' =>
      placed_iterate (List.append_nil _).symm [] rfl (List.nil_sublist _) (List.forall_mem_nil _)
    cases a with
    | error => cases h; exact .inr ⟨hquiet, trivial, .inl rfl, fun h => by cases h⟩
    | ok | lost => cases h; exact .inr ⟨hquiet, hgo _, .inl (applied_iterate ..), fun _ => .inl ⟨rfl, rfl⟩⟩
  | reading name l | beginning name l | executing name l =>
    cases a <;> cases h <;> first
      | exact .inr ⟨hquiet, hp, .inl rfl, fun _ => .inl ⟨rfl, rfl⟩⟩
      | exact .inr ⟨hquiet, trivial, .inr rfl, fun _ => .inl ⟨rfl, rfl⟩⟩
  | recording name l =>
    by_cases hfail : a = .error ∨ name ∈ rows
    · simp only [resume, hfail, if_true] at h
      cases h
      exact .inr ⟨hquiet, trivial, .inr rfl, fun _ => .inl ⟨rfl, rfl⟩⟩
    · simp only [resume, hfail, if_false] at h
      cases h
      exact .inr ⟨hquiet, fun hlive => ⟨hp hlive, fun hin => hfail (.inr hin)⟩, .inl rfl, fun _ => .inl ⟨rfl, rfl⟩⟩
  | committing name l =>
    cases a with
    | error => cases h; exact .inr ⟨hquiet, trivial, .inr rfl, fun _ => .inl ⟨rfl, rfl⟩⟩
    | ok => cases h; exact .inl ⟨name, l, rfl, rfl, hc (by simp) rfl, .inl rfl⟩
    | lost => cases h; exact .inl ⟨name, l, rfl, rfl, hc (by simp) rfl, .inr ⟨rfl, rfl⟩⟩
  | rollingBack =>
    cases h
    exact .inr ⟨hquiet, trivial, .inl rfl, fun h => by cases h⟩
  | unlocking result =>
    cases h
    refine .inr ⟨fun name => ?_, ?_, ?_, fun h => ?_⟩
    · split <;> simp
    · cases result with
      | none => trivial
      | some applied => exact hp
    · cases result <;> exact .inl rfl
    · cases result <;> cases h
  | returned | thrown => cases h

/-- The lock is taken when it is free. -/
theorem free_of_lock {free : Bool} {a : Answer} {p p' : Phase Name} (h : resume files free rows a p = some (p', .lock)) : free = true := by
  cases p with
  | locking =>
    cases free with
    | true => rfl
    | false => cases a <;> cases h
  | committing => cases a <;> cases h
  | unlocking => cases a <;> cases h
  | _ => cases h

end Places

/-! ## All instances -/

section Instances

variable {I Name : Type} [DecidableEq I] [DecidableEq Name] {files : I → List Name} {rows₀ : List Name} {s s' : State I Name}

/-- The names that instances of all releases agree on, in their order: an older release has the first of them. -/
def Releases (files : I → List Name) (rows₀ all : List Name) : Prop :=
  all.Nodup ∧ rows₀ <+: all ∧ ∀ i, files i <+: all

/-- The invariant, from a table that held `rows₀`. -/
structure Ok (files : I → List Name) (rows₀ : List Name) (s : State I Name) : Prop where
  same : s.scripts = s.rows
  nodup : s.rows.Nodup
  kept : rows₀ <+: s.rows
  holder : ∀ i, (s.phase i).holds = true → s.connected i = true → s.holder = some i
  placed : ∀ i, (s.phase i).Placed (files i) s.rows (s.connected i)
  own : ∀ i, ∀ f ∈ (s.phase i).applied, f ∈ s.rows ∧ f ∉ rows₀
  disjoint : ∀ i j, i ≠ j → ∀ f ∈ (s.phase i).applied, f ∉ (s.phase j).applied

omit [DecidableEq Name] in
theorem Ok.disconnect (h : Ok files rows₀ s) (i : I) : Ok files rows₀ (s.disconnect i) := by
  have hplaced : ∀ {p : Phase Name} {fs rows : List Name}, p.Placed fs rows true → p.Placed fs rows false := by
    intro p fs rows hp
    cases p with
    | reading | beginning | executing | recording | committing => exact fun h => by cases h
    | unlocking result => cases result <;> exact hp
    | _ => exact hp
  refine ⟨h.same, h.nodup, h.kept, fun j hj hlive => ?_, fun j => ?_, h.own, h.disjoint⟩
  · by_cases hji : j = i
    · subst hji
      simp [State.disconnect] at hlive
    · have hlive : s.connected j = true := by simpa [State.disconnect, hji] using hlive
      have hholder := h.holder j hj hlive
      simp [State.disconnect, hholder, hji]
  · by_cases hji : j = i
    · subst hji
      simp only [State.disconnect, Function.update_self]
      cases hc : s.connected j with
      | true => exact hplaced (hc ▸ h.placed j)
      | false => exact hc ▸ h.placed j
    · simp only [State.disconnect, Function.update_of_ne hji]
      exact h.placed j

omit [DecidableEq I] [DecidableEq Name] in
/-- A row more takes no instance off its place but one that is in the loop with a live session. -/
theorem Phase.Placed.append {fs rows : List Name} {c : Bool} {p : Phase Name} (h : p.Placed fs rows c) (name : Name)
    (hout : p.holds = true → c = false) : p.Placed fs (rows ++ [name]) c := by
  cases p with
  | reading | beginning | executing | recording | committing =>
    intro hc
    rw [hout rfl] at hc
    cases hc
  | unlocking result =>
    cases result with
    | none => trivial
    | some applied => exact ⟨h.1, fun f hf => List.mem_append_left _ (h.2 f hf)⟩
  | returned applied => exact ⟨h.1, fun f hf => List.mem_append_left _ (h.2 f hf)⟩
  | _ => trivial

omit [DecidableEq Name] in
theorem Ok.quiet {i : I} {p' : Phase Name} {e : Effect Name} (h : Ok files rows₀ s) (he : ∀ name, e ≠ .commit name)
    (hplaced : p'.Placed (files i) s.rows (s.connected i)) (happlied : p'.applied = (s.phase i).applied ∨ p'.applied = [])
    (hholds : p'.holds = true → (s.phase i).holds = true ∧ e = .nothing ∨ e = .lock)
    (hfree : e = .lock → s.holder = none) :
    Ok files rows₀ ((e.apply i s).goto i p') := by
  have happly : (e.apply i s).rows = s.rows ∧ (e.apply i s).scripts = s.scripts ∧ (e.apply i s).phase = s.phase ∧
      (e.apply i s).connected = s.connected := by
    cases e with
    | commit name => exact absurd rfl (he name)
    | _ => exact ⟨rfl, rfl, rfl, rfl⟩
  obtain ⟨hrows, hscripts, hphase, hconnected⟩ := happly
  have hat : ∀ j, ((e.apply i s).goto i p').phase j = if j = i then p' else s.phase j := by
    intro j
    simp only [State.goto, hphase, Function.update_apply]
  have hsub : ∀ j, ∀ f ∈ (((e.apply i s).goto i p').phase j).applied, f ∈ (s.phase j).applied := by
    intro j f hf
    rw [hat j] at hf
    split at hf
    · rename_i hji
      rcases happlied with heq | heq
      · rw [heq] at hf; exact hji ▸ hf
      · rw [heq] at hf; cases hf
    · exact hf
  refine ⟨?_, ?_, ?_, fun j hj hlive => ?_, fun j => ?_, fun j f hf => ?_, fun j k hjk f hf hf' => ?_⟩
  · exact (hscripts.trans h.same).trans hrows.symm
  · exact hrows ▸ h.nodup
  · exact hrows ▸ h.kept
  · have hlive : s.connected j = true := by rw [← hconnected]; exact hlive
    rw [hat j] at hj
    show (e.apply i s).holder = some j
    by_cases hji : j = i
    · subst hji
      rw [if_pos rfl] at hj
      rcases hholds hj with ⟨hold, rfl⟩ | rfl
      · exact h.holder j hold hlive
      · rfl
    · rw [if_neg hji] at hj
      have hholder := h.holder j hj hlive
      cases e with
      | nothing => exact hholder
      | commit name => exact absurd rfl (he name)
      | unlock =>
        simp only [Effect.apply, hholder, Option.some.injEq]
        rw [if_neg hji]
      | lock =>
        rw [hfree rfl] at hholder
        cases hholder
  · rw [hat j]
    show (if j = i then p' else s.phase j).Placed (files j) (e.apply i s).rows ((e.apply i s).connected j)
    rw [hrows, hconnected]
    split
    · rename_i hji
      exact hji ▸ hplaced
    · exact h.placed j
  · show f ∈ (e.apply i s).rows ∧ f ∉ rows₀
    rw [hrows]
    exact h.own j f (hsub j f hf)
  · exact h.disjoint j k hjk f (hsub j f hf) (hsub k f hf')

theorem Ok.commit {i : I} {name : Name} {l : Loop Name} {p' : Phase Name} (h : Ok files rows₀ s) (hp : s.phase i = .committing name l)
    (hlive : s.connected i = true) (hp' : p' = iterate l.seen (l.applied ++ [name]) l.todo ∨ p' = .rollingBack) :
    Ok files rows₀ (((Effect.commit name).apply i s).goto i p') := by
  have hplace := h.placed i
  rw [hp] at hplace
  obtain ⟨⟨hrows, done, hfiles, hsub, hdone⟩, hnew⟩ := hplace hlive
  have hholder : s.holder = some i := h.holder i (by rw [hp]; rfl) hlive
  have hat : ∀ j, (((Effect.commit name).apply i s).goto i p').phase j = if j = i then p' else s.phase j := by
    intro j
    simp only [State.goto, Effect.apply, Function.update_apply]
  have happ : p'.applied ⊆ l.applied ++ [name] := by
    rcases hp' with rfl | rfl
    · rw [applied_iterate]; exact List.Subset.refl _
    · exact List.nil_subset _
  -- what the others will return is in the table already
  have hother : ∀ j, ∀ f ∈ (s.phase j).applied, f ≠ name := fun j f hf hfn => hnew (hfn ▸ (h.own j f hf).1)
  have hmine : l.applied = (s.phase i).applied := by rw [hp]; rfl
  refine ⟨?_, ?_, ?_, fun j hj hconn => ?_, fun j => ?_, fun j f hf => ?_, fun j k hjk f hf hf' => ?_⟩
  · show s.scripts ++ [name] = s.rows ++ [name]
    rw [h.same]
  · exact List.nodup_append.2 ⟨h.nodup, List.nodup_singleton _, fun f hf g hg hfg =>
      hnew (List.mem_singleton.1 hg ▸ hfg ▸ hf)⟩
  · exact h.kept.trans (List.prefix_append ..)
  · rw [hat j] at hj
    by_cases hji : j = i
    · exact hji ▸ hholder
    · rw [if_neg hji] at hj
      exact h.holder j hj hconn
  · rw [hat j]
    show (if j = i then p' else s.phase j).Placed (files j) (s.rows ++ [name]) (s.connected j)
    by_cases hji : j = i
    · subst hji
      rw [if_pos rfl]
      rcases hp' with rfl | rfl
      · refine placed_iterate (by rw [hrows, List.append_assoc]) (done ++ [name]) (by simp [hfiles])
          (hsub.append (List.Sublist.refl _)) fun f hf => ?_
        exact (List.mem_append.1 hf).elim (fun hf => List.mem_append_left _ (hdone f hf)) (List.mem_append_right _)
      · trivial
    · rw [if_neg hji]
      refine (h.placed j).append name fun hj => ?_
      by_contra hconn
      have := h.holder j hj (by simpa using hconn)
      exact hji (Option.some.inj (this.symm.trans hholder))
  · show f ∈ s.rows ++ [name] ∧ f ∉ rows₀
    rw [hat j] at hf
    split at hf
    · rcases List.mem_append.1 (happ hf) with hf | hf
      · obtain ⟨h₁, h₂⟩ := h.own i f (hmine ▸ hf)
        exact ⟨List.mem_append_left _ h₁, h₂⟩
      · rw [List.mem_singleton.1 hf]
        exact ⟨List.mem_append_right _ (List.mem_singleton.2 rfl), fun h₀ => hnew (h.kept.subset h₀)⟩
    · obtain ⟨h₁, h₂⟩ := h.own j f hf
      exact ⟨List.mem_append_left _ h₁, h₂⟩
  · rw [hat] at hf hf'
    have hcases : ∀ {j f}, f ∈ (if j = i then p' else s.phase j).applied → f ∈ (s.phase j).applied ∨ j = i ∧ f = name := by
      intro j f hf
      split at hf
      · rename_i hji
        rcases List.mem_append.1 (happ hf) with hf | hf
        · exact .inl (hji ▸ hmine ▸ hf)
        · exact .inr ⟨hji, List.mem_singleton.1 hf⟩
      · exact .inl hf
    rcases hcases hf with hf | ⟨hji, rfl⟩
    · rcases hcases hf' with hf' | ⟨-, rfl⟩
      · exact h.disjoint j k hjk f hf hf'
      · exact hother j f hf rfl
    · rcases hcases hf' with hf' | ⟨hki, -⟩
      · exact hother k f hf' rfl
      · exact hjk (hji.trans hki.symm)

/-- The answer of a call, with what it does on the server. -/
theorem step_run {i : I} {a : Answer} (hs : step files (.run i a) s = some s') : ∃ p' e,
    resume (files i) (s.holder = none) s.rows a (s.phase i) = some (p', e) ∧
    (a ≠ .error → (s.phase i).queries = true → s.connected i = true) ∧
    (s' = (e.apply i s).goto i p' ∨ s' = ((e.apply i s).goto i p').disconnect i) := by
  rw [step] at hs
  split at hs
  · cases hs
  · rename_i hok
    obtain ⟨⟨p', e⟩, hres, hs⟩ := Option.bind_eq_some_iff.1 hs
    refine ⟨p', e, hres, fun ha hq => ?_, ?_⟩
    · by_contra hne
      exact hok ⟨ha, hq, by simpa using hne⟩
    · simp only [Option.pure_def, Option.some.injEq] at hs
      subst hs
      split
      · exact .inr rfl
      · exact .inl rfl

theorem Ok.step {e : Event I} (h : Ok files rows₀ s) (hs : step files e s = some s') : Ok files rows₀ s' := by
  cases e with
  | disconnect i => cases hs; exact h.disconnect i
  | run i a =>
    obtain ⟨p', e, hres, hc, hs'⟩ := step_run hs
    have hgoto : Ok files rows₀ ((e.apply i s).goto i p') := by
      rcases resume_cases hres (h.placed i) hc with ⟨name, l, hp, rfl, hlive, hp'⟩ | ⟨he, hplaced, happlied, hholds⟩
      · exact h.commit hp hlive (hp'.imp_right (·.2))
      · exact h.quiet he hplaced happlied hholds fun hlock => of_decide_eq_true (free_of_lock (hlock ▸ hres))
    rcases hs' with rfl | rfl
    · exact hgoto
    · exact hgoto.disconnect i

omit [DecidableEq I] [DecidableEq Name] in
theorem ok_initial (h : rows₀.Nodup) : Ok files rows₀ (initial rows₀ : State I Name) := by
  refine ⟨rfl, h, List.prefix_rfl, fun i hi => (by cases hi), fun i => trivial, fun i f hf => (by cases hf), fun i j _ f hf => by cases hf⟩

/-! ## Whole runs -/

omit [DecidableEq I] [DecidableEq Name] in
/-- Where all files come from one list, the next file is the next of that list. -/
theorem prefix_append {all rows fs done todo : List Name} {name : Name} (hall : all.Nodup) (hrows : rows <+: all) (hfs : fs <+: all)
    (hsplit : fs = done ++ name :: todo) (hdone : ∀ f ∈ done, f ∈ rows) (hnew : name ∉ rows) : rows ++ [name] <+: all := by
  obtain ⟨rest, rfl⟩ := hfs
  subst hsplit
  have hbefore : done ++ name :: (todo ++ rest) = done ++ [name] ++ (todo ++ rest) := by simp
  rw [List.append_assoc, List.cons_append] at hrows hall ⊢
  -- the table ends before `name`, and has all that is before it
  have hle : rows <+: done := by
    rcases List.prefix_or_prefix_of_prefix hrows (List.prefix_append done (name :: (todo ++ rest))) with h | ⟨extra, rfl⟩
    · exact h
    · cases extra with
      | nil => simp
      | cons x extra =>
        have hx := (List.prefix_append_right_inj done).1 hrows
        have hxn : x = name := by
          have := List.cons_prefix_cons.1 hx
          exact this.1
        exact absurd (by rw [hxn]; simp) hnew
  have heq : rows = done := by
    refine hle.eq_of_length_le ?_
    have hnd : done.Nodup := (List.nodup_append.1 hall).1
    exact (List.subperm_of_subset hnd hdone).length_le
  rw [heq, hbefore]
  exact List.prefix_append ..

/-- What a step does to the table. -/
theorem rows_step {e : Event I} (h : Ok files rows₀ s) (hs : step files e s = some s') :
    s'.rows = s.rows ∨ ∃ (i : I) (name : Name) (l : Loop Name), s'.rows = s.rows ++ [name] ∧ name ∉ s.rows ∧ l.At (files i) s.rows name := by
  cases e with
  | disconnect i => cases hs; exact .inl rfl
  | run i a =>
    obtain ⟨p', e, hres, hc, hs'⟩ := step_run hs
    have hrows : s'.rows = (e.apply i s).rows := by rcases hs' with rfl | rfl <;> rfl
    rcases resume_cases hres (h.placed i) hc with ⟨name, l, hp, rfl, hlive, -⟩ | ⟨he, -⟩
    · have hplace := h.placed i
      rw [hp] at hplace
      exact .inr ⟨i, name, l, hrows, (hplace hlive).2, (hplace hlive).1⟩
    · cases e with
      | commit name => exact absurd rfl (he name)
      | _ => exact .inl hrows

/-- What every run of any number of instances leaves. -/
structure Migrated (files : I → List Name) (rows₀ : List Name) (s : State I Name) : Prop where
  /-- The table names the scripts that were committed, each once. -/
  once : s.scripts = s.rows ∧ s.rows.Nodup
  /-- Of the instances between the lock and its release, one has a live session. -/
  alone : ∀ i j, (s.phase i).holds = true → s.connected i = true → (s.phase j).holds = true → s.connected j = true → i = j
  /-- A call that returns leaves none of its files out. -/
  complete : ∀ i applied, s.phase i = .returned applied → applied.Sublist (files i) ∧ ∀ f ∈ files i, f ∈ s.rows
  /-- What it returns, it has applied itself. -/
  reported : ∀ i applied, s.phase i = .returned applied → ∀ f ∈ applied, f ∈ s.rows ∧ f ∉ rows₀ ∧
    ∀ j applied', j ≠ i → s.phase j = .returned applied' → f ∉ applied'

end Instances

/-- Two releases: the older one loses its session in the commit of the second file, and the newer one goes on. -/
def twoReleases : Bool → List String
  | false => ["0001", "0002"]
  | true => ["0001", "0002", "0003"]

end WorkflowWorld.Migrations
