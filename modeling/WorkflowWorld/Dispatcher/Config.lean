/-
The dispatcher's configuration (`src/dispatcher/config.ts`), as far as the modelled parts read it, and the
cadence that `src/dispatcher/ownership.ts` derives from the liveness budget. Numbers are parsed from the
environment's texts; a text beyond 2^53 would be rounded to a double, which is left out.
-/
import Mathlib.Order.Basic
import Mathlib.Tactic.Common

namespace WorkflowWorld.Dispatcher

/-! ## Numbers of the environment -/

/-- `WhiteSpace` and `LineTerminator`, which `parseInt` skips. -/
def isStrWhiteSpace (c : Char) : Bool :=
  [9, 10, 11, 12, 13, 32, 160, 5760, 8232, 8233, 8239, 8287, 12288, 65279].contains c.toNat ||
    (8192 ≤ c.toNat && c.toNat ≤ 8202)

/-- The digits at the front. -/
def leadingDigits (text : List Char) : Option Nat :=
  match text.takeWhile Char.isDigit with
  | [] => none
  | digits => some (digits.foldl (fun n c => 10 * n + (c.toNat - 48)) 0)

/-- `Number.parseInt(text, 10)`: a sign and the digits at the front; the rest is ignored. -/
def parseInt (text : String) : Option Int :=
  match text.toList.dropWhile isStrWhiteSpace with
  | '-' :: rest => (leadingDigits rest).map fun n => -(n : Int)
  | '+' :: rest => (leadingDigits rest).map fun n => (n : Int)
  | rest => (leadingDigits rest).map fun n => (n : Int)

def positiveNumber (value : Option String) (fallback : Nat) : Nat :=
  match parseInt (value.getD "") with
  | some parsed => if parsed > 0 then parsed.toNat else fallback
  | none => fallback

def nonNegativeNumber (value : Option String) (fallback : Nat) : Nat :=
  match parseInt (value.getD "") with
  | some parsed => if parsed ≥ 0 then parsed.toNat else fallback
  | none => fallback

theorem positiveNumber_pos {value : Option String} {fallback : Nat} (h : 0 < fallback) : 0 < positiveNumber value fallback := by
  unfold positiveNumber
  split
  · split <;> omega
  · exact h

/-! ## The configuration -/

structure DispatcherConfiguration where
  worldUrl : String
  poolSize : Nat
  concurrency : Nat
  leaseRenewIntervalMs : Nat
  activationLeaseTtlMs : Nat
  bootRecoveryDeploymentsPerWave : Nat
  bootRecoveryWaveIntervalMs : Nat
  executorFailureLimit : Nat
  executorFailureMinSpanMs : Nat
  ownershipLivenessMs : Nat
  deriving DecidableEq, Repr

def defaultActivationLeaseTtlMs : Nat := 180000

def defaultBootRecoveryDeploymentsPerWave : Nat := 4

def defaultBootRecoveryWaveIntervalMs : Nat := 30000

def minDispatcherPoolSize : Nat := 4

def defaultOwnershipLivenessMs : Nat := 90000

def defaultExecutorFailureLimit : Nat := 5

def defaultExecutorFailureMinSpanMs : Nat := 60000

/-- The floor below which the derived keepalive and heartbeat cadence stops making sense. -/
def minOwnershipLivenessMs : Nat := 3000

def worldUrlRequired : String :=
  "WORKFLOW_WORLD_URL is required: the dispatcher claims jobs from the shared workflow database. " ++
    "It must name the same database deployments write to — see WORKFLOW_WORLD_BOOTSTRAP_URL if the host and the containers " ++
    "reach it by different hostnames."

def leaseRenewIntervalTooLong (renewIntervalMs ttlMs : Nat) : String :=
  "WORKFLOW_DISPATCHER_LEASE_RENEW_INTERVAL_MS (" ++ toString renewIntervalMs ++ "ms) must be well below the " ++
    "activation lease TTL (" ++ toString ttlMs ++ "ms), or a long step loses its executor mid-flight."

def bothActivationsSet : String :=
  "WORKFLOW_DISPATCHER_ACTIVATION_API_URL and WORKFLOW_DISPATCHER_STATIC_ENDPOINTS are both set; configure one."

def activationRequired : String :=
  "WORKFLOW_DISPATCHER_ACTIVATION_API_URL is required: the dispatcher wakes a deployment through the host's activation API. " ++
    "For executors that are always running, set WORKFLOW_DISPATCHER_STATIC_ENDPOINTS instead."

def poolSizeTooSmall (poolSize : Nat) : String :=
  "WORKFLOW_DISPATCHER_POOL_SIZE (" ++ toString poolSize ++ ") is below the minimum of " ++ toString minDispatcherPoolSize ++
    ": one connection is held for dispatcher ownership and one for Graphile LISTEN, leaving too few for claiming and " ++
    "completing jobs."

def ownershipLivenessTooSmall (livenessMs : Nat) : String :=
  "WORKFLOW_DISPATCHER_OWNERSHIP_LIVENESS_MS (" ++ toString livenessMs ++ "ms) is below the minimum of " ++
    toString minOwnershipLivenessMs ++ "ms: the keepalive and heartbeat cadence is derived from it."

/-- A variable that is set to something. -/
def nonEmpty (value : Option String) : Option String := value.filter (· ≠ "")

/-- The configuration of an environment. `parseStaticEndpoints` parses the deployments' origins, or throws. -/
def resolveDispatcherConfig (env : String → Option String) (parseStaticEndpoints : String → Except String (List (String × String))) :
    Except String DispatcherConfiguration :=
  let worldUrl := (env "WORKFLOW_WORLD_BOOTSTRAP_URL" <|> env "EVELAND_WORKFLOW_WORLD_BOOTSTRAP_URL" <|>
    env "WORKFLOW_WORLD_URL" <|> env "EVELAND_WORKFLOW_WORLD_URL").getD ""
  let activationLeaseTtlMs := positiveNumber (env "WORKFLOW_DISPATCHER_ACTIVATION_LEASE_TTL_MS") defaultActivationLeaseTtlMs
  let leaseRenewIntervalMs :=
    positiveNumber (env "WORKFLOW_DISPATCHER_LEASE_RENEW_INTERVAL_MS") (max 1000 (activationLeaseTtlMs / 3))
  let poolSize := positiveNumber (env "WORKFLOW_DISPATCHER_POOL_SIZE") 10
  let ownershipLivenessMs := positiveNumber (env "WORKFLOW_DISPATCHER_OWNERSHIP_LIVENESS_MS") defaultOwnershipLivenessMs
  if worldUrl = "" then .error worldUrlRequired
  else if leaseRenewIntervalMs ≥ activationLeaseTtlMs then
    .error (leaseRenewIntervalTooLong leaseRenewIntervalMs activationLeaseTtlMs)
  else
    let apiUrl := nonEmpty (env "WORKFLOW_DISPATCHER_ACTIVATION_API_URL")
    match (nonEmpty (env "WORKFLOW_DISPATCHER_STATIC_ENDPOINTS")).mapM parseStaticEndpoints with
    | .error e => .error e
    | .ok staticEndpoints =>
      if apiUrl.isSome && staticEndpoints.isSome then .error bothActivationsSet
      else if apiUrl.isNone && staticEndpoints.isNone then .error activationRequired
      else if poolSize < minDispatcherPoolSize then .error (poolSizeTooSmall poolSize)
      else if ownershipLivenessMs < minOwnershipLivenessMs then .error (ownershipLivenessTooSmall ownershipLivenessMs)
      else .ok
        { worldUrl, poolSize, leaseRenewIntervalMs, activationLeaseTtlMs, ownershipLivenessMs
          concurrency := positiveNumber (env "WORKFLOW_DISPATCHER_CONCURRENCY") (max 1 (poolSize - 2))
          bootRecoveryDeploymentsPerWave :=
            positiveNumber (env "WORKFLOW_DISPATCHER_BOOT_RECOVERY_DEPLOYMENTS_PER_WAVE") defaultBootRecoveryDeploymentsPerWave
          bootRecoveryWaveIntervalMs :=
            nonNegativeNumber (env "WORKFLOW_DISPATCHER_BOOT_RECOVERY_WAVE_INTERVAL_MS") defaultBootRecoveryWaveIntervalMs
          executorFailureLimit := positiveNumber (env "WORKFLOW_DISPATCHER_EXECUTOR_FAILURE_LIMIT") defaultExecutorFailureLimit
          executorFailureMinSpanMs :=
            nonNegativeNumber (env "WORKFLOW_DISPATCHER_EXECUTOR_FAILURE_MIN_SPAN_MS") defaultExecutorFailureMinSpanMs }

section Admitted

variable {env : String → Option String} {parseStaticEndpoints : String → Except String (List (String × String))}
  {c : DispatcherConfiguration}

/-- What an admitted configuration has passed. -/
structure DispatcherConfiguration.Admitted (c : DispatcherConfiguration) : Prop where
  renew_pos : 0 < c.leaseRenewIntervalMs
  renew_lt : c.leaseRenewIntervalMs < c.activationLeaseTtlMs
  failureLimit_pos : 0 < c.executorFailureLimit
  perWave_pos : 0 < c.bootRecoveryDeploymentsPerWave
  liveness : minOwnershipLivenessMs ≤ c.ownershipLivenessMs

theorem admitted_of_resolve (h : resolveDispatcherConfig env parseStaticEndpoints = .ok c) : c.Admitted := by
  unfold resolveDispatcherConfig at h
  simp only at h
  split at h
  · cases h
  split at h
  · cases h
  rename_i hrenew
  split at h
  · cases h
  split at h
  · cases h
  split at h
  · cases h
  split at h
  · cases h
  split at h
  · cases h
  rename_i hliveness
  cases h
  exact ⟨positiveNumber_pos (by omega), Nat.not_le.1 hrenew, positiveNumber_pos (by decide), positiveNumber_pos (by decide),
    Nat.not_lt.1 hliveness⟩

end Admitted

/-! ## The ownership session's cadence -/

structure OwnershipLivenessSettings where
  keepalivesIdleSeconds : Nat
  keepalivesIntervalSeconds : Nat
  keepalivesCount : Nat
  idleSessionTimeoutMs : Nat
  heartbeatIntervalMs : Nat
  deriving DecidableEq, Repr

def deriveOwnershipLiveness (livenessMs : Nat) : OwnershipLivenessSettings :=
  let budget := max minOwnershipLivenessMs livenessMs
  let third := budget / 3
  { keepalivesIdleSeconds := max 1 (third / 1000)
    keepalivesIntervalSeconds := max 1 (third / 3000)
    keepalivesCount := 3
    idleSessionTimeoutMs := budget
    heartbeatIntervalMs := third }

namespace OwnershipLivenessSettings

/-- The time after which the server notices that the peer is gone: it was idle, and no probe was answered. -/
def keepaliveMs (s : OwnershipLivenessSettings) : Nat :=
  1000 * (s.keepalivesIdleSeconds + s.keepalivesCount * s.keepalivesIntervalSeconds)

/-- The longest silence of a healthy owner: a heartbeat interval, and a heartbeat that is not answered in time. -/
def longestSilenceMs (s : OwnershipLivenessSettings) : Nat := s.heartbeatIntervalMs + s.heartbeatIntervalMs

end OwnershipLivenessSettings

/-- A healthy owner is never silent for the whole idle timeout. -/
theorem longestSilence_lt_idleSessionTimeout (livenessMs : Nat) :
    (deriveOwnershipLiveness livenessMs).longestSilenceMs < (deriveOwnershipLiveness livenessMs).idleSessionTimeoutMs := by
  simp only [deriveOwnershipLiveness, OwnershipLivenessSettings.longestSilenceMs, minOwnershipLivenessMs]
  omega

/-- From the whole seconds on, the keepalives stay within two thirds of the budget. -/
theorem keepaliveMs_le_twoThirds {livenessMs : Nat} (h : 9000 ≤ livenessMs) :
    (deriveOwnershipLiveness livenessMs).keepaliveMs ≤ 2 * (livenessMs / 3) := by
  simp only [deriveOwnershipLiveness, OwnershipLivenessSettings.keepaliveMs, minOwnershipLivenessMs]
  omega

/-- The keepalives have whole seconds, at least one each: at least four in all. -/
theorem keepaliveMs_ge (livenessMs : Nat) : 4000 ≤ (deriveOwnershipLiveness livenessMs).keepaliveMs := by
  simp only [deriveOwnershipLiveness, OwnershipLivenessSettings.keepaliveMs]
  omega

/-- The cadence keeps to an admitted liveness budget exactly from four seconds on. -/
theorem ownership_liveness_iff {env : String → Option String}
    {parseStaticEndpoints : String → Except String (List (String × String))} {c : DispatcherConfiguration}
    (h : resolveDispatcherConfig env parseStaticEndpoints = .ok c) :
    ((deriveOwnershipLiveness c.ownershipLivenessMs).keepaliveMs ≤ c.ownershipLivenessMs ∧
      (deriveOwnershipLiveness c.ownershipLivenessMs).longestSilenceMs <
        (deriveOwnershipLiveness c.ownershipLivenessMs).idleSessionTimeoutMs) ↔ 4000 ≤ c.ownershipLivenessMs := by
  have hadmitted := (admitted_of_resolve h).liveness
  refine ⟨fun hbudget => Nat.le_trans (keepaliveMs_ge _) hbudget.1, fun hfour => ⟨?_, longestSilence_lt_idleSessionTimeout _⟩⟩
  by_cases hnine : 9000 ≤ c.ownershipLivenessMs
  · have := keepaliveMs_le_twoThirds hnine
    omega
  · -- an interval of one second, after an idle time of one or two
    simp only [deriveOwnershipLiveness, OwnershipLivenessSettings.keepaliveMs, minOwnershipLivenessMs]
    omega

/-- An environment with the given liveness budget. -/
def livenessEnv (livenessMs : String) : String → Option String
  | "WORKFLOW_WORLD_URL" => some "postgres://localhost/world"
  | "WORKFLOW_DISPATCHER_ACTIVATION_API_URL" => some "http://localhost:4000"
  | "WORKFLOW_DISPATCHER_OWNERSHIP_LIVENESS_MS" => some livenessMs
  | _ => none

/-- Five seconds: noticed after four, and two heartbeats are short of five. -/
theorem ownership_liveness_five : ∃ c, resolveDispatcherConfig (livenessEnv "5000") (fun _ => .ok []) = .ok c ∧
    c.ownershipLivenessMs = 5000 ∧ (deriveOwnershipLiveness c.ownershipLivenessMs).keepaliveMs ≤ c.ownershipLivenessMs ∧
    (deriveOwnershipLiveness c.ownershipLivenessMs).longestSilenceMs <
      (deriveOwnershipLiveness c.ownershipLivenessMs).idleSessionTimeoutMs := by
  obtain ⟨c, hc, hl⟩ : ∃ c, resolveDispatcherConfig (livenessEnv "5000") (fun _ => .ok []) = .ok c ∧ c.ownershipLivenessMs = 5000 :=
    ⟨_, rfl, by decide⟩
  exact ⟨c, hc, hl, (ownership_liveness_iff hc).2 (by rw [hl]; decide)⟩

/-- Three seconds are admitted, and a vanished peer is noticed after four. -/
theorem ownership_liveness_exceeded : ∃ c, resolveDispatcherConfig (livenessEnv "3000") (fun _ => .ok []) = .ok c ∧
    c.ownershipLivenessMs = 3000 ∧ (deriveOwnershipLiveness c.ownershipLivenessMs).keepaliveMs = 4000 ∧
    ¬(deriveOwnershipLiveness c.ownershipLivenessMs).keepaliveMs ≤ c.ownershipLivenessMs :=
  ⟨_, rfl, by decide, by decide, by decide⟩

end WorkflowWorld.Dispatcher
