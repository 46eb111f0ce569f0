/-
The lifecycle of the embedded runner (`start`, `startRunnerWhenExecutorIsReady`, `deferRunnerStart`, `close` of
`src/queue.ts`): any number of calls of `start` and `close`, each going from await to await. What they share are the
variables of the queue and the controllers that abort a start.
-/
import WorkflowWorld.Concurrency.Machine
import Mathlib.Logic.Function.Basic

namespace WorkflowWorld.Dispatcher.EmbeddedRunner

/-! ## Starts of the runner -/

/-- The await a start of the runner is at. -/
inductive Stage where
  /-- `getExecutionBaseUrl`. -/
  | resolving
  /-- `canConnectToLoopbackTarget`. -/
  | connecting
  | sleeping
  /-- graphile's `run`. -/
  | launching
  /-- The body is through, and `finally` is to come. -/
  | ended (ok : Bool)
  | settled (ok : Bool)
  deriving DecidableEq, Repr

def Stage.active : Stage → Bool
  | .resolving | .connecting | .sleeping | .launching => true
  | .ended _ | .settled _ => false

/-- A promise of `runnerStart`: of `startRunnerWhenExecutorIsReady`, or of `deferRunnerStart`. -/
structure Task where
  controller : Nat
  deferred : Bool
  stage : Stage
  deriving DecidableEq, Repr

/-- What the starts of the runner share with `close`. Runners are named by the tasks that launched them. -/
structure Core where
  closing : Bool := false
  /-- The controller and the promise. -/
  runnerStart : Option (Nat × Nat) := none
  runner : Option Nat := none
  /-- The runners that were launched and not stopped. -/
  running : List Nat := []
  aborted : List Nat := []
  tasks : Nat → Option Task := fun _ => none

namespace Core

def setTask (c : Core) (t : Nat) (task : Task) : Core := { c with tasks := Function.update c.tasks t (some task) }

/-- A task goes on to the next await. -/
def advance (c : Core) (t : Nat) (task : Task) (stage : Stage) : Core := c.setTask t { task with stage }

def isAborted (c : Core) (task : Task) : Bool := c.aborted.contains task.controller

/-- `startRunnerUnlessAborted`, up to the await of `run`. -/
def startRunnerUnlessAborted (c : Core) (t : Nat) (task : Task) : Core :=
  c.advance t task (if c.isAborted task then .ended true else .launching)

/-- `deferRunnerStart`, up to the first await of its loop, under a promise of its own. -/
def deferRunnerStart (c : Core) (t : Nat) (task : Task) (promise : Nat) : Core :=
  { (c.advance t task (.ended true)).setTask promise ⟨task.controller, true, .connecting⟩ with
    runnerStart := some (task.controller, promise) }

/-- `startRunnerWhenExecutorIsReady`, up to its await; the promise it awaits, if it makes one. -/
def startRunnerWhenExecutorIsReady (c : Core) (external : Bool) (promise : Nat) : Core × Option Nat :=
  if external then (c, none)
  else if c.closing || c.runner.isSome || c.runnerStart.isSome then (c, none)
  else ({ c.setTask promise ⟨promise, false, .resolving⟩ with runnerStart := some (promise, promise) }, some promise)

/-- The promise has settled, and how. -/
def settled (c : Core) (t : Nat) : Option Bool :=
  match c.tasks t with
  | some { stage := .settled ok, .. } => some ok
  | _ => none

end Core

/-- What `getExecutionBaseUrl` leads to. -/
inductive Resolved where
  | error | noTarget | target
  deriving DecidableEq, Repr

/-- The answer to the await that a task is at. -/
inductive Answer where
  | resolved (r : Resolved)
  /-- `none`: it threw. -/
  | connected (reachable : Option Bool)
  | slept
  | launched (ok : Bool)
  | finally_
  deriving DecidableEq, Repr

/-- A task goes on with an answer. The deferred start catches its errors. -/
def Core.resume (c : Core) (t : Nat) (task : Task) (promise : Nat) : Answer → Option Core
  | .resolved r =>
    if task.stage ≠ .resolving then none
    else match r with
      | .error => some (c.advance t task (.ended false))
      | .noTarget => some (c.startRunnerUnlessAborted t task)
      | .target => some (c.advance t task .connecting)
  | .connected reachable =>
    if task.stage ≠ .connecting then none
    else match reachable with
      | none => some (c.advance t task (.ended task.deferred))
      | some true => some (c.startRunnerUnlessAborted t task)
      | some false =>
        if task.deferred then some (c.advance t task .sleeping)
        else if c.isAborted task then some (c.advance t task (.ended true))
        else some (c.deferRunnerStart t task promise)
  | .slept =>
    if task.stage ≠ .sleeping then none
    else some (c.advance t task (if c.isAborted task then .ended true else .connecting))
  | .launched ok =>
    if task.stage ≠ .launching then none
    else if ok then some { c.advance t task (.ended true) with runner := some t, running := t :: c.running }
    else some (c.advance t task (.ended task.deferred))
  | .finally_ =>
    match task.stage with
    | .ended ok =>
      some { c.advance t task (.settled ok) with
        runnerStart := if c.runnerStart.any (·.2 = t) then none else c.runnerStart }
    | _ => none

/-! ## Calls -/

/-- The body of `startPromise`. -/
inductive Boot where
  /-- `makeWorkerUtils` and `migrate`. -/
  | preparing
  | starting (promise : Nat)
  | settled (ok : Bool)
  deriving DecidableEq, Repr

/-- A call of `start`. -/
inductive Call where
  | booting (boot : Nat)
  | starting (promise : Nat)
  | returned
  | threw
  deriving DecidableEq, Repr

/-- A call of `close`. -/
inductive Close where
  | awaitingStart (promise : Nat)
  | awaitingBoot (boot : Option Nat)
  | stopping (runner : Nat)
  /-- `workerUtils.release`. -/
  | releasing
  /-- `localWorld.close`. -/
  | closingWorld
  | closed
  | threw
  deriving DecidableEq, Repr

structure State extends Core where
  startPromise : Option Nat := none
  boots : Nat → Option Boot := fun _ => none
  calls : Nat → Option Call := fun _ => none
  closes : Nat → Option Close := fun _ => none
  /-- The number of the next promise. -/
  next : Nat := 0

namespace State

def setBoot (s : State) (b : Nat) (boot : Boot) : State := { s with boots := Function.update s.boots b (some boot) }

def setCall (s : State) (i : Nat) (call : Call) : State := { s with calls := Function.update s.calls i (some call) }

def setClose (s : State) (k : Nat) (close : Close) : State := { s with closes := Function.update s.closes k (some close) }

/-- `startRunnerWhenExecutorIsReady`, and the promise to await. -/
def startRunner (s : State) (external : Bool) : State × Option Nat :=
  ({ s with toCore := (s.toCore.startRunnerWhenExecutorIsReady external s.next).1, next := s.next + 1 },
    (s.toCore.startRunnerWhenExecutorIsReady external s.next).2)

def bootSettled (s : State) (b : Nat) : Option Bool :=
  match s.boots b with
  | some (.settled ok) => some ok
  | _ => none

/-- `startPromise` settles; a failed one is forgotten before. -/
def settleBoot (s : State) (b : Nat) (ok : Bool) : State :=
  ({ s with startPromise := if ok then s.startPromise else none }).setBoot b (.settled ok)

/-- `start`, up to the await of `startPromise`. -/
def start (s : State) (i : Nat) : State :=
  if s.closing then s.setCall i .returned
  else match s.startPromise with
    | some b => s.setCall i (.booting b)
    | none => ({ s with startPromise := some s.next }.setBoot s.next .preparing).setCall i (.booting s.next)

/-- `close`, up to its first await. -/
def close (s : State) (k : Nat) : State :=
  match s.runnerStart with
  | some (controller, promise) =>
    { s with closing := true, aborted := controller :: s.aborted }.setClose k (.awaitingStart promise)
  | none => { s with closing := true }.setClose k (.awaitingBoot s.startPromise)

/-- A call of `close` goes on; `ok` answers the calls it makes itself. -/
def resumeClose (s : State) (k : Nat) (ok : Bool) : Close → Option State
  | .awaitingStart promise =>
    match s.settled promise with
    | some true => some ({ s with runnerStart := none }.setClose k (.awaitingBoot s.startPromise))
    | some false => some (s.setClose k .threw)
    | none => none
  | .awaitingBoot boot =>
    if boot.all fun b => (s.bootSettled b).isSome then
      match s.runner with
      | some r => some (s.setClose k (.stopping r))
      | none => some (s.setClose k .releasing)
    else none
  | .stopping r =>
    if ok then some ({ s with runner := none, running := s.running.filter (· ≠ r) }.setClose k .releasing)
    else some (s.setClose k .threw)
  | .releasing => some (if ok then { s with startPromise := none }.setClose k .closingWorld else s.setClose k .threw)
  | .closingWorld => some (s.setClose k (if ok then .closed else .threw))
  | .closed | .threw => none

end State

/-- What happens next. -/
inductive Event where
  | start
  | prepared (boot : Nat) (ok : Bool)
  | booted (boot : Nat)
  | called (call : Nat)
  | task (t : Nat) (a : Answer)
  | close
  | closing (close : Nat) (ok : Bool)
  deriving DecidableEq, Repr

open State in
def step (external : Bool) : Event → State → Option State
  | .start, s => some { s.start s.next with next := s.next + 1 }
  | .prepared b ok, s =>
    if s.boots b ≠ some .preparing then none
    else if ok then
      match s.startRunner external with
      | (s', some promise) => some (s'.setBoot b (.starting promise))
      | (s', none) => some (s'.settleBoot b true)
    else some (s.settleBoot b false)
  | .booted b, s =>
    match s.boots b with
    | some (.starting promise) => (s.settled promise).map (s.settleBoot b)
    | _ => none
  | .called i, s =>
    match s.calls i with
    | some (.booting b) =>
      match s.bootSettled b with
      | some true =>
        if !s.closing && s.runner.isNone && s.runnerStart.isNone then
          match s.startRunner external with
          | (s', some promise) => some (s'.setCall i (.starting promise))
          | (s', none) => some (s'.setCall i .returned)
        else some (s.setCall i .returned)
      | some false => some (s.setCall i .threw)
      | none => none
    | some (.starting promise) => (s.settled promise).map fun ok => s.setCall i (if ok then .returned else .threw)
    | _ => none
  | .task t a, s => (s.tasks t).bind fun task => (s.toCore.resume t task s.next a).map fun c => { s with toCore := c, next := s.next + 1 }
  | .close, s => some { s.close s.next with next := s.next + 1 }
  | .closing k ok, s => (s.closes k).bind (s.resumeClose k ok)

/-! ## What moves a start -/

/-- The task is on its way to a runner. -/
def Active (tasks : Nat → Option Task) (t : Nat) (task : Task) : Prop := tasks t = some task ∧ task.stage.active = true

theorem Active.of_update {tasks : Nat → Option Task} {t t' : Nat} {task task' : Task}
    (h : Active (Function.update tasks t (some task)) t' task') :
    (t' = t ∧ task' = task ∧ task.stage.active = true) ∨ (t' ≠ t ∧ Active tasks t' task') := by
  obtain ⟨hfound, hactive⟩ := h
  by_cases ht : t' = t
  · subst ht
    rw [Function.update_self] at hfound
    obtain rfl := Option.some.inj hfound
    exact .inl ⟨rfl, rfl, hactive⟩
  · rw [Function.update_of_ne ht] at hfound
    exact .inr ⟨ht, hfound, hactive⟩

/-- A task that is through is no longer on its way. -/
theorem Active.of_through {tasks : Nat → Option Task} {t t' : Nat} {task task' : Task}
    (h : Active (Function.update tasks t (some task)) t' task') (hthrough : task.stage.active = false) :
    t' ≠ t ∧ Active tasks t' task' := by
  rcases h.of_update with ⟨-, -, hactive⟩ | h
  · rw [hthrough] at hactive
    cases hactive
  · exact h

namespace Core

/-- What everything but `close` does to the starts. -/
inductive Moves : Core → Core → Prop
  | start {c : Core} (promise : Nat) (hclosing : c.closing = false) (hrunner : c.runner = none) (hstart : c.runnerStart = none) :
      Moves c { c.setTask promise ⟨promise, false, .resolving⟩ with runnerStart := some (promise, promise) }
  | advance {c : Core} {t : Nat} {task : Task} (h : Active c.tasks t task) (stage : Stage) : Moves c (c.advance t task stage)
  | defer {c : Core} {t : Nat} {task : Task} (h : Active c.tasks t task) (ha : c.isAborted task = false) (promise : Nat) :
      Moves c (c.deferRunnerStart t task promise)
  | launched {c : Core} {t : Nat} {task : Task} (h : Active c.tasks t task) :
      Moves c { c.advance t task (.ended true) with runner := some t, running := t :: c.running }
  | finally_ {c : Core} {t : Nat} {task : Task} (h : c.tasks t = some task) (hs : task.stage.active = false) (ok : Bool) :
      Moves c { c.advance t task (.settled ok) with
        runnerStart := if c.runnerStart.any (·.2 = t) then none else c.runnerStart }

theorem moves_startRunnerUnlessAborted {c : Core} {t : Nat} {task : Task} (h : Active c.tasks t task) :
    Moves c (c.startRunnerUnlessAborted t task) := .advance h _

theorem moves_resume {c c' : Core} {t promise : Nat} {task : Task} {a : Answer} (ht : c.tasks t = some task)
    (h : c.resume t task promise a = some c') : Moves c c' := by
  have hactive : ∀ stage, task.stage = stage → stage.active = true → Active c.tasks t task := by
    rintro _ rfl ha
    exact ⟨ht, ha⟩
  cases a with
  | resolved r =>
    simp only [resume] at h
    split at h
    · cases h
    · rename_i hs
      have ha := hactive _ (not_not.1 hs) rfl
      cases r with
      | error => cases h; exact .advance ha _
      | noTarget => cases h; exact moves_startRunnerUnlessAborted ha
      | target => cases h; exact .advance ha _
  | connected reachable =>
    simp only [resume] at h
    split at h
    · cases h
    · rename_i hs
      have ha := hactive _ (not_not.1 hs) rfl
      rcases reachable with _ | _ | _
      · cases h
        exact .advance ha _
      · simp only at h
        split at h
        · cases h
          exact .advance ha _
        · split at h
          · cases h
            exact .advance ha _
          · rename_i hab
            cases h
            exact .defer ha (Bool.eq_false_iff.2 hab) promise
      · cases h
        exact moves_startRunnerUnlessAborted ha
  | slept =>
    simp only [resume] at h
    split at h
    · cases h
    · rename_i hs
      cases h
      exact .advance (hactive _ (not_not.1 hs) rfl) _
  | launched ok =>
    simp only [resume] at h
    split at h
    · cases h
    · rename_i hs
      have ha := hactive _ (not_not.1 hs) rfl
      split at h
      · cases h
        exact .launched ha
      · cases h
        exact .advance ha _
  | finally_ =>
    simp only [resume] at h
    split at h
    · rename_i ok hs
      cases h
      exact .finally_ ht (by rw [hs]; rfl) ok
    · cases h

theorem moves_startRunner (c : Core) (external : Bool) (promise : Nat) :
    (c.startRunnerWhenExecutorIsReady external promise).1 = c ∨ Moves c (c.startRunnerWhenExecutorIsReady external promise).1 := by
  unfold startRunnerWhenExecutorIsReady
  split
  · exact .inl rfl
  · split
    · exact .inl rfl
    · rename_i hguard
      simp only [Bool.or_eq_true, not_or, Bool.not_eq_true, Option.isSome_eq_false_iff, Option.isNone_iff_eq_none] at hguard
      obtain ⟨⟨hclosing, hrunner⟩, hstart⟩ := hguard
      exact .inr (.start promise hclosing hrunner hstart)

/-- A start is on its way only as the one that `runnerStart` holds, and there is a runner only where none is. -/
structure Ok (c : Core) : Prop where
  starts : ∀ t task, Active c.tasks t task → c.runnerStart = some (task.controller, t)
  idle : ∀ t task, Active c.tasks t task → c.runner = none
  running : ∀ t ∈ c.running, c.runner = some t

/-- So there is one at most. -/
theorem Ok.eq_of_active {c : Core} (hc : c.Ok) {t t' : Nat} {task task' : Task} (h : Active c.tasks t task)
    (h' : Active c.tasks t' task') : t = t' := by
  have heq := (hc.starts t task h).symm.trans (hc.starts t' task' h')
  exact (Prod.mk.inj (Option.some.inj heq)).2

theorem Ok.moves {c c' : Core} (hc : c.Ok) (h : Moves c c') : c'.Ok := by
  cases h with
  | start promise hclosing hrunner hstart =>
    refine ⟨fun t task ha => ?_, fun t task _ => hrunner, hc.running⟩
    rcases ha.of_update with ⟨rfl, rfl, -⟩ | ⟨-, ha⟩
    · rfl
    · rw [hc.starts t task ha] at hstart
      cases hstart
  | @advance t task hactive stage =>
    refine ⟨fun t' task' ha => ?_, fun t' task' _ => hc.idle t task hactive, hc.running⟩
    rcases ha.of_update with ⟨rfl, rfl, -⟩ | ⟨-, ha⟩
    · exact hc.starts _ task hactive
    · exact hc.starts t' task' ha
  | @defer t task hactive _ promise =>
    refine ⟨fun t' task' ha => ?_, fun t' task' _ => hc.idle t task hactive, hc.running⟩
    rcases ha.of_update with ⟨rfl, rfl, -⟩ | ⟨-, ha⟩
    · rfl
    · -- the task that defers was the only one, and is through
      obtain ⟨hne, ha⟩ := Active.of_through ha rfl
      exact absurd (hc.eq_of_active ha hactive) hne
  | @launched t task hactive =>
    have hnone : ∀ t' task', ¬ Active (c.advance t task (.ended true)).tasks t' task' := by
      rintro t' task' ha
      obtain ⟨hne, ha⟩ := Active.of_through ha rfl
      exact hne (hc.eq_of_active ha hactive)
    refine ⟨fun t' task' ha => absurd ha (hnone t' task'), fun t' task' ha => absurd ha (hnone t' task'), fun t' ht' => ?_⟩
    rcases List.mem_cons.1 ht' with rfl | ht'
    · rfl
    · have hr := hc.running t' ht'
      rw [hc.idle t task hactive] at hr
      cases hr
  | @finally_ t task hfound hs ok =>
    refine ⟨fun t' task' ha => ?_, fun t' task' ha => ?_, hc.running⟩
    · obtain ⟨hne, ha⟩ := Active.of_through ha rfl
      have hstart := hc.starts t' task' ha
      show (if c.runnerStart.any (·.2 = t) then none else c.runnerStart) = _
      rw [hstart, if_neg]
      simpa using hne
    · exact hc.idle t' task' (Active.of_through ha rfl).2

end Core

/-! ## Closing -/

/-- No start is on its way, and none will be. -/
def Core.Idle (c : Core) : Prop := c.closing = true ∧ ∀ t task, ¬ Active c.tasks t task

/-- What a call of `close` has made sure of. -/
def Close.Ok (c : Core) : Close → Prop
  | .awaitingStart promise =>
    c.closing = true ∧ ∀ t task, Active c.tasks t task → t = promise ∧ c.isAborted task = true
  | .awaitingBoot _ => c.Idle
  | .stopping r => c.Idle ∧ (c.runner = none ∨ c.runner = some r)
  | .releasing | .closingWorld | .closed => c.Idle ∧ c.runner = none
  | .threw => True

theorem Core.Idle.moves {c c' : Core} (hc : c.Idle) (h : Core.Moves c c') : c'.Idle ∧ c'.runner = c.runner := by
  obtain ⟨hclosing, hnone⟩ := hc
  cases h with
  | start promise hno => rw [hclosing] at hno; cases hno
  | advance hactive => exact absurd hactive (hnone _ _)
  | defer hactive => exact absurd hactive (hnone _ _)
  | launched hactive => exact absurd hactive (hnone _ _)
  | finally_ => exact ⟨⟨hclosing, fun t task ha => hnone t task (Active.of_through ha rfl).2⟩, rfl⟩

theorem Close.Ok.moves {c c' : Core} {close : Close} (hk : close.Ok c) (h : Core.Moves c c') : close.Ok c' := by
  cases close with
  | awaitingStart promise =>
    obtain ⟨hclosing, hone⟩ := hk
    cases h with
    | start promise hno => rw [hclosing] at hno; cases hno
    | @advance t task hactive stage =>
      refine ⟨hclosing, fun t' task' ha => ?_⟩
      rcases ha.of_update with ⟨rfl, rfl, -⟩ | ⟨-, ha⟩
      · exact hone _ task hactive
      · exact hone t' task' ha
    | @defer t task hactive hno _ =>
      rw [(hone t task hactive).2] at hno
      cases hno
    | launched => exact ⟨hclosing, fun t' task' ha => hone t' task' (Active.of_through ha rfl).2⟩
    | finally_ => exact ⟨hclosing, fun t' task' ha => hone t' task' (Active.of_through ha rfl).2⟩
  | awaitingBoot boot => exact (Core.Idle.moves hk h).1
  | stopping r =>
    obtain ⟨hidle, hrunner⟩ := hk
    obtain ⟨hidle', heq⟩ := hidle.moves h
    exact ⟨hidle', heq ▸ hrunner⟩
  | releasing | closingWorld | closed =>
    obtain ⟨hidle, hrunner⟩ := hk
    obtain ⟨hidle', heq⟩ := hidle.moves h
    exact ⟨hidle', heq.trans hrunner⟩
  | threw => trivial

/-- What a call of `close` does keeps what the others have made sure of. -/
theorem Close.Ok.mono {c c' : Core} {close : Close} (hk : close.Ok c) (htasks : c'.tasks = c.tasks)
    (hclosing : c.closing = true → c'.closing = true) (haborted : ∀ a ∈ c.aborted, a ∈ c'.aborted)
    (hrunner : c'.runner = none ∨ c'.runner = c.runner) : close.Ok c' := by
  have hidle : c.Idle → c'.Idle := fun h => ⟨hclosing h.1, by rw [htasks]; exact h.2⟩
  have hgone : c.runner = none → c'.runner = none := fun h => hrunner.elim id fun heq => heq.trans h
  cases close with
  | awaitingStart promise =>
    refine ⟨hclosing hk.1, fun t task ha => ?_⟩
    rw [htasks] at ha
    obtain ⟨ht, hab⟩ := hk.2 t task ha
    exact ⟨ht, List.contains_iff_mem.2 (haborted _ (List.contains_iff_mem.1 hab))⟩
  | awaitingBoot boot => exact hidle hk
  | stopping r =>
    refine ⟨hidle hk.1, ?_⟩
    rcases hrunner with hnone | heq
    · exact .inl hnone
    · rw [heq]
      exact hk.2
  | releasing | closingWorld | closed => exact ⟨hidle hk.1, hgone hk.2⟩
  | threw => trivial

/-! ## The queue -/

/-- Each call of `close` keeps what it has made sure of; and so does one that was at `past` before. -/
structure Inv (past : Close) (s : State) : Prop where
  core : s.toCore.Ok
  closes : ∀ k close, s.closes k = some close → close.Ok s.toCore
  past : past.Ok s.toCore

section Steps

variable {external : Bool} {past : Close} {s s' : State}

/-- Only `close` does more than to move a start. -/
def Quiet (s s' : State) : Prop := (s'.toCore = s.toCore ∨ Core.Moves s.toCore s'.toCore) ∧ s'.closes = s.closes

theorem Inv.quiet (hs : Inv past s) (h : Quiet s s') : Inv past s' := by
  obtain ⟨hcore | hmoves, hcloses⟩ := h
  · refine ⟨hcore ▸ hs.core, fun k close hk => ?_, hcore ▸ hs.past⟩
    rw [hcore]
    exact hs.closes k close (hcloses ▸ hk)
  · exact ⟨hs.core.moves hmoves, fun k close hk => (hs.closes k close (hcloses ▸ hk)).moves hmoves, hs.past.moves hmoves⟩

theorem quiet_startRunner (external : Bool) (s : State) : Quiet s (s.startRunner external).1 :=
  ⟨Core.moves_startRunner s.toCore external s.next, rfl⟩

theorem quiet_start (s : State) (i : Nat) : Quiet s (s.start i) := by
  unfold State.start
  split
  · exact ⟨.inl rfl, rfl⟩
  · split <;> exact ⟨.inl rfl, rfl⟩

theorem quiet_of_step {e : Event} (h : step external e s = some s') (hclose : e ≠ .close) (hclosing : ∀ k ok, e ≠ .closing k ok) :
    Quiet s s' := by
  have hrunner := quiet_startRunner external s
  cases e with
  | start =>
    cases h
    exact quiet_start s s.next
  | prepared b ok =>
    simp only [step] at h
    split at h
    · cases h
    · split at h
      · split at h <;> rename_i hstart <;> rw [hstart] at hrunner <;> cases h <;> exact hrunner
      · cases h
        exact ⟨.inl rfl, rfl⟩
  | booted b =>
    simp only [step] at h
    split at h
    · obtain ⟨ok, -, rfl⟩ := Option.map_eq_some_iff.1 h
      exact ⟨.inl rfl, rfl⟩
    · cases h
  | called i =>
    simp only [step] at h
    split at h
    · split at h
      · split at h
        · split at h <;> rename_i hstart <;> rw [hstart] at hrunner <;> cases h <;> exact hrunner
        · cases h
          exact ⟨.inl rfl, rfl⟩
      · cases h
        exact ⟨.inl rfl, rfl⟩
      · cases h
    · obtain ⟨ok, -, rfl⟩ := Option.map_eq_some_iff.1 h
      exact ⟨.inl rfl, rfl⟩
    · cases h
  | task t a =>
    obtain ⟨task, ht, h⟩ := Option.bind_eq_some_iff.1 h
    obtain ⟨c, hc, rfl⟩ := Option.map_eq_some_iff.1 h
    exact ⟨.inr (Core.moves_resume ht hc), rfl⟩
  | close => exact absurd rfl hclose
  | closing k ok => exact absurd rfl (hclosing k ok)

/-- The call itself has made sure of what it goes on with, and it disturbs no other. -/
theorem Inv.setClose (hs : Inv past s) {c : Core} {k : Nat} {close : Close} {sp : Option Nat} (hc : c.Ok) (hk : close.Ok c)
    (htasks : c.tasks = s.tasks) (hclosing : s.closing = true → c.closing = true) (haborted : ∀ a ∈ s.aborted, a ∈ c.aborted)
    (hrunner : c.runner = none ∨ c.runner = s.runner) : Inv past ({ s with toCore := c, startPromise := sp }.setClose k close) := by
  refine ⟨hc, fun k' close' hk' => ?_, hs.past.mono htasks hclosing haborted hrunner⟩
  change Function.update s.closes k (some close) k' = some close' at hk'
  by_cases hkk : k' = k
  · subst hkk
    rw [Function.update_self] at hk'
    obtain rfl := Option.some.inj hk'
    exact hk
  · rw [Function.update_of_ne hkk] at hk'
    exact (hs.closes k' close' hk').mono htasks hclosing haborted hrunner

theorem Inv.close (hs : Inv past s) (k : Nat) : Inv past (s.close k) := by
  unfold State.close
  split
  · rename_i controller promise hstart
    refine hs.setClose (c := { s.toCore with closing := true, aborted := controller :: s.aborted }) ?_ ⟨rfl, fun t task ha => ?_⟩ rfl
      (fun _ => rfl) (fun a ha => List.mem_cons_of_mem _ ha) (.inr rfl)
    · exact ⟨hs.core.starts, hs.core.idle, hs.core.running⟩
    · -- the only start on its way is the one that is aborted
      have heq := hs.core.starts t task ha
      rw [hstart] at heq
      obtain ⟨hcontroller, hpromise⟩ := Prod.mk.inj (Option.some.inj heq)
      refine ⟨hpromise.symm, List.contains_iff_mem.2 ?_⟩
      rw [← hcontroller]
      exact List.mem_cons_self ..
  · rename_i hstart
    refine hs.setClose (c := { s.toCore with closing := true }) ?_ ⟨rfl, fun t task ha => ?_⟩ rfl (fun _ => rfl) (fun a ha => ha) (.inr rfl)
    · exact ⟨hs.core.starts, hs.core.idle, hs.core.running⟩
    · have heq := hs.core.starts t task ha
      rw [hstart] at heq
      cases heq

theorem not_active_of_settled {c : Core} {t : Nat} {ok : Bool} (h : c.settled t = some ok) (task : Task) : ¬ Active c.tasks t task := by
  rintro ⟨hfound, hactive⟩
  unfold Core.settled at h
  rw [hfound] at h
  split at h
  · rename_i heq
    rw [(Option.some.inj heq)] at hactive
    cases hactive
  · cases h

theorem Inv.resumeClose (hs : Inv past s) {k : Nat} {close : Close} {ok : Bool} (hk : s.closes k = some close)
    (h : s.resumeClose k ok close = some s') : Inv past s' := by
  have hok := hs.closes k close hk
  have hthrow : Inv past (s.setClose k .threw) :=
    hs.setClose hs.core (show Close.Ok s.toCore .threw from trivial) rfl id (fun _ ha => ha) (.inr rfl)
  cases close with
  | awaitingStart promise =>
    simp only [State.resumeClose] at h
    split at h
    · rename_i hsettled
      cases h
      -- what it awaited was all that was on its way
      have hnone : ∀ t task, ¬ Active s.tasks t task := by
        rintro t task ha
        obtain ⟨rfl, -⟩ := hok.2 t task ha
        exact not_active_of_settled hsettled task ha
      refine hs.setClose (c := { s.toCore with runnerStart := none }) ?_ ⟨hok.1, hnone⟩ rfl id (fun _ ha => ha) (.inr rfl)
      exact ⟨fun t task ha => absurd ha (hnone t task), hs.core.idle, hs.core.running⟩
    · cases h
      exact hthrow
    · cases h
  | awaitingBoot boot =>
    simp only [State.resumeClose] at h
    split at h
    · split at h
      · rename_i r hr
        cases h
        exact hs.setClose hs.core (show Close.Ok s.toCore (.stopping r) from ⟨hok, .inr hr⟩) rfl id (fun _ ha => ha) (.inr rfl)
      · rename_i hr
        cases h
        exact hs.setClose hs.core (show Close.Ok s.toCore .releasing from ⟨hok, hr⟩) rfl id (fun _ ha => ha) (.inr rfl)
    · cases h
  | stopping r =>
    simp only [State.resumeClose] at h
    split at h
    · cases h
      refine hs.setClose (c := { s.toCore with runner := none, running := s.running.filter (· ≠ r) }) ?_ ⟨hok.1, rfl⟩ rfl id
        (fun _ ha => ha) (.inl rfl)
      refine ⟨hs.core.starts, fun _ _ _ => rfl, fun t ht => ?_⟩
      -- the runner that is stopped is the only one that runs
      obtain ⟨ht, hne⟩ := List.mem_filter.1 ht
      have hrunner := hs.core.running t ht
      rcases hok.2 with hnone | hsome
      · rw [hnone] at hrunner
        cases hrunner
      · rw [hsome] at hrunner
        exact absurd (Option.some.inj hrunner).symm (of_decide_eq_true hne)
    · cases h
      exact hthrow
  | releasing =>
    simp only [State.resumeClose] at h
    split at h
    · cases h
      exact hs.setClose hs.core (show Close.Ok s.toCore .closingWorld from hok) rfl id (fun _ ha => ha) (.inr rfl)
    · cases h
      exact hthrow
  | closingWorld =>
    simp only [State.resumeClose] at h
    cases h
    cases ok with
    | true => exact hs.setClose hs.core (show Close.Ok s.toCore .closed from hok) rfl id (fun _ ha => ha) (.inr rfl)
    | false => exact hthrow
  | closed | threw => cases h

theorem Inv.step {e : Event} (hs : Inv past s) (h : step external e s = some s') : Inv past s' := by
  by_cases hclose : e = .close
  · subst hclose
    cases h
    exact ⟨(hs.close s.next).core, (hs.close s.next).closes, (hs.close s.next).past⟩
  · by_cases hclosing : ∃ k ok, e = .closing k ok
    · obtain ⟨k, ok, rfl⟩ := hclosing
      obtain ⟨close, hk, h⟩ := Option.bind_eq_some_iff.1 h
      exact hs.resumeClose hk h
    · exact hs.quiet (quiet_of_step h hclose fun k ok heq => hclosing ⟨k, ok, heq⟩)

end Steps

theorem inv_initial : Inv .threw {} := by
  refine ⟨⟨?_, ?_, ?_⟩, ?_, trivial⟩
  · rintro t task ⟨hfound, -⟩
    cases hfound
  · rintro t task ⟨hfound, -⟩
    cases hfound
  · intro t ht
    cases ht
  · intro k close hk
    cases hk

/-! ## Runs -/

/-- The runner that the task launches runs, or is being launched. -/
def State.Live (s : State) (t : Nat) : Prop := (∃ task, s.tasks t = some task ∧ task.stage = .launching) ∨ t ∈ s.running

/-- A call of `close` has returned. -/
def State.Closed (s : State) : Prop := ∃ k, s.closes k = some .closed

section Runs

variable {past : Close} {s : State}

theorem Inv.one (hs : Inv past s) {t t' : Nat} (h : s.Live t) (h' : s.Live t') : t = t' := by
  have hactive : ∀ t task, s.tasks t = some task → task.stage = .launching → Active s.tasks t task :=
    fun t task ht hl => ⟨ht, by rw [hl]; rfl⟩
  have hapart : ∀ t task t', s.tasks t = some task → task.stage = .launching → t' ∉ s.running := by
    intro t task t' ht hl hr
    have hrunner := hs.core.running t' hr
    rw [hs.core.idle t task (hactive t task ht hl)] at hrunner
    cases hrunner
  rcases h with ⟨task, ht, hl⟩ | hr
  · rcases h' with ⟨task', ht', hl'⟩ | hr'
    · exact hs.core.eq_of_active (hactive t task ht hl) (hactive t' task' ht' hl')
    · exact absurd hr' (hapart t task t' ht hl)
  · rcases h' with ⟨task', ht', hl'⟩ | hr'
    · exact absurd hr (hapart t' task' t ht' hl')
    · exact Option.some.inj ((hs.core.running t hr).symm.trans (hs.core.running t' hr'))

theorem not_live_of_past (hs : Inv .closed s) (t : Nat) : ¬ s.Live t := by
  obtain ⟨⟨-, hnone⟩, hrunner⟩ := hs.past
  rintro (⟨task, ht, hl⟩ | hr)
  · exact hnone t task ⟨ht, by rw [hl]; rfl⟩
  · have hsome := hs.core.running t hr
    rw [hrunner] at hsome
    cases hsome

end Runs

/-- However calls of `start` and `close` interleave with the starts of the runner and whatever their awaits answer, in
every reachable state at most one graphile runner runs or is being launched; and once a call of `close` has returned,
none does, then and ever after. -/
theorem one_runner (external : Bool) {s : State} (h : Machine.Reaches (step external) Machine.always {} s) :
    (∀ t t', s.Live t → s.Live t' → t = t') ∧
    (s.Closed → ∀ s', Machine.Reaches (step external) Machine.always s s' → ∀ t, ¬ s'.Live t) := by
  have hs : Inv .threw s := h.invariant inv_initial fun e s s' hs _ he => hs.step he
  refine ⟨fun t t' => hs.one, fun hclosed s' hlater t => ?_⟩
  obtain ⟨k, hk⟩ := hclosed
  have hpast : Inv .closed s := ⟨hs.core, hs.closes, hs.closes k _ hk⟩
  exact not_live_of_past (hlater.invariant hpast fun e s s' hs _ he => hs.step he) t

/-- The executor is not up when the queue starts; it comes up, the runner is launched, and the launch goes on while the
queue is closed. A second call of `start` joins the first, and one after `close` does nothing. -/
def closedWhileLaunching : List Event :=
  [.start, .start, .prepared 0 true, .task 2 (.resolved .target), .task 2 (.connected (some false)), .task 2 .finally_,
    .task 4 (.connected (some true)), .close, .task 4 (.launched true), .task 4 .finally_, .booted 0, .called 1, .called 0,
    .closing 7 true, .start, .closing 7 true, .closing 7 true, .closing 7 true, .closing 7 true]

theorem one_runner_closedWhileLaunching : ∃ s s', Machine.Reaches (step false) Machine.always {} s ∧ s.Live 4 ∧
    (∀ t, s.Live t → t = 4) ∧ Machine.Reaches (step false) Machine.always {} s' ∧ s'.calls 0 = some .returned ∧ ∀ t, ¬ s'.Live t := by
  obtain ⟨s, hr, hp⟩ := @Machine.exists_of_play _ _ (step false) Machine.always {} (closedWhileLaunching.take 9)
    (fun s => decide (4 ∈ s.running)) (by decide +kernel)
  obtain ⟨s', hr', hp'⟩ := @Machine.exists_of_play _ _ (step false) Machine.always {} closedWhileLaunching
    (fun s => decide (s.closes 7 = some .closed ∧ s.calls 0 = some .returned)) (by decide +kernel)
  have hlive : s.Live 4 := .inr (of_decide_eq_true hp)
  obtain ⟨hclosed, hreturned⟩ := of_decide_eq_true hp'
  exact ⟨s, s', hr, hlive, fun t ht => (one_runner false hr).1 t 4 ht hlive, hr', hreturned,
    (one_runner false hr').2 ⟨7, hclosed⟩ s' .refl⟩

end WorkflowWorld.Dispatcher.EmbeddedRunner
