/-
Static endpoints (`src/dispatcher/static-activation.ts`): the table of deployments that the environment names, and the
activation client that answers from it. How a URL is read (`parseEndpointUrl`, `src/dispatcher/vqs-client.ts`) is a
parameter: the origin of the URL, or why it is no endpoint.
-/
import WorkflowWorld.Dispatcher.Config
import Mathlib.Data.List.DropRight
import Mathlib.Data.List.Nodup
import Std.Data.String.ToNat

namespace WorkflowWorld.Dispatcher.StaticActivation

/-! ## The table -/

/-- `String.prototype.trim`. -/
def trim (text : List Char) : List Char := (text.dropWhile isStrWhiteSpace).rdropWhile isStrWhiteSpace

/-- What stands before the first `=`, if there is one. -/
def deploymentIdOf (entry : List Char) : List Char :=
  if entry.contains '=' then trim (entry.takeWhile (· != '=')) else []

/-- What stands after it. -/
def originOf (entry : List Char) : List Char :=
  if entry.contains '=' then trim (entry.dropWhile (· != '=')).tail else []

inductive EndpointsError where
  | notAPair (entry : String)
  | twice (deploymentId : String)
  | badEndpoint (deploymentId error : String)
  | empty
  deriving DecidableEq, Repr

/-- The text of the error; `stringify` is `JSON.stringify`. -/
def EndpointsError.message (stringify : String → String) : EndpointsError → String
  | .notAPair entry => "WORKFLOW_DISPATCHER_STATIC_ENDPOINTS entry " ++ stringify entry ++ " is not <deploymentId>=<origin>."
  | .twice deploymentId => "WORKFLOW_DISPATCHER_STATIC_ENDPOINTS names deployment " ++ deploymentId ++ " more than once."
  | .badEndpoint deploymentId error => "WORKFLOW_DISPATCHER_STATIC_ENDPOINTS, deployment " ++ deploymentId ++ ": " ++ error
  | .empty => "WORKFLOW_DISPATCHER_STATIC_ENDPOINTS is set but names no deployment."

/-- What an object literal inherits, and `in` finds. -/
def inheritedNames : List String :=
  ["constructor", "__defineGetter__", "__defineSetter__", "hasOwnProperty", "__lookupGetter__", "__lookupSetter__",
    "isPrototypeOf", "propertyIsEnumerable", "toString", "valueOf", "__proto__", "toLocaleString"]

/-- The endpoints by deployment. -/
abbrev Endpoints := List (String × String)

def Endpoints.has (endpoints : Endpoints) (deploymentId : String) : Bool :=
  (endpoints.map (·.1)).contains deploymentId || inheritedNames.contains deploymentId

section Parse

variable (parseEndpointUrl : String → Except String String)

/-- The body of the loop. -/
def addPair (endpoints : Endpoints) (pair : List Char) : Except EndpointsError Endpoints :=
  let entry := trim pair
  if entry = [] then .ok endpoints
  else
    let deploymentId := deploymentIdOf entry
    let origin := originOf entry
    if deploymentId = [] ∨ origin = [] then .error (.notAPair (String.ofList entry))
    else if endpoints.has (String.ofList deploymentId) then .error (.twice (String.ofList deploymentId))
    else match parseEndpointUrl (String.ofList origin) with
      | .error error => .error (.badEndpoint (String.ofList deploymentId) error)
      | .ok origin => .ok (endpoints ++ [(String.ofList deploymentId, origin)])

def parseStaticEndpoints (value : String) : Except EndpointsError Endpoints := do
  let endpoints ← (value.toList.splitOn ',').foldlM (addPair parseEndpointUrl) []
  if endpoints = [] then .error .empty else .ok endpoints

/-! ## The client -/

structure StaticActivationClient where
  endpoints : Endpoints
  leases : Nat := 0

/-- What `activate` answers. -/
inductive ActivationOutcome where
  | activated (leaseId endpointUrl : String)
  | notActivatable (status : Nat) (message : String)
  deriving DecidableEq, Repr

def staticEndpoint (e : String × String) : Except String (String × String) :=
  match parseEndpointUrl e.2 with
  | .error error => .error ("Static endpoint for deployment " ++ e.1 ++ ": " ++ error)
  | .ok origin => .ok (e.1, origin)

def createStaticActivationClient (endpoints : Endpoints) : Except String StaticActivationClient := do
  pure { endpoints := ← endpoints.mapM (staticEndpoint parseEndpointUrl) }

end Parse

def leaseId (deploymentId : String) (lease : Nat) : String := "static:" ++ deploymentId ++ ":" ++ Nat.repr lease

def noStaticEndpoint (deploymentId : String) : ActivationOutcome :=
  .notActivatable 409 ("Deployment " ++ deploymentId ++ " has no static endpoint configured.")

def StaticActivationClient.activate (c : StaticActivationClient) (deploymentId : String) : StaticActivationClient × ActivationOutcome :=
  match c.endpoints.lookup deploymentId with
  | none => (c, noStaticEndpoint deploymentId)
  | some endpointUrl => ({ c with leases := c.leases + 1 }, .activated (leaseId deploymentId (c.leases + 1)) endpointUrl)

/-- The answers to calls one after the other. -/
def StaticActivationClient.activations (c : StaticActivationClient) : List String → List ActivationOutcome
  | [] => []
  | deploymentId :: rest => (c.activate deploymentId).2 :: (c.activate deploymentId).1.activations rest

def ActivationOutcome.lease? : ActivationOutcome → Option String
  | .activated leaseId _ => some leaseId
  | .notActivatable _ _ => none

/-! ## What is read -/

section Reads

variable {parseEndpointUrl : String → Except String String} {endpoints endpoints' : Endpoints} {e : String × String}

/-- The entries of the text, without the blank ones. -/
def entries (pairs : List (List Char)) : List (List Char) := (pairs.map trim).filter (· ≠ [])

/-- The entry names a deployment and an endpoint for it. -/
structure Names (parseEndpointUrl : String → Except String String) (entry : List Char) (e : String × String) : Prop where
  deploymentId : deploymentIdOf entry ≠ [] ∧ e.1 = String.ofList (deploymentIdOf entry)
  origin : originOf entry ≠ [] ∧ parseEndpointUrl (String.ofList (originOf entry)) = .ok e.2

theorem has_eq_false {deploymentId : String} :
    endpoints.has deploymentId = false ↔ deploymentId ∉ endpoints.map (·.1) ∧ deploymentId ∉ inheritedNames := by
  simp [Endpoints.has]

theorem addPair_blank {pair : List Char} (h : trim pair = []) : addPair parseEndpointUrl endpoints pair = .ok endpoints := by
  unfold addPair
  rw [if_pos h]

theorem addPair_eq_ok {pair : List Char} (h : trim pair ≠ []) :
    addPair parseEndpointUrl endpoints pair = .ok endpoints' ↔
      ∃ e, Names parseEndpointUrl (trim pair) e ∧ endpoints.has e.1 = false ∧ endpoints' = endpoints ++ [e] := by
  unfold addPair
  rw [if_neg h]
  constructor
  · intro hok
    dsimp only at hok
    split at hok
    · cases hok
    · rename_i hparts
      rw [not_or] at hparts
      split at hok
      · cases hok
      · rename_i hnew
        split at hok
        · cases hok
        · rename_i origin hparse
          cases hok
          exact ⟨_, ⟨⟨hparts.1, rfl⟩, hparts.2, hparse⟩, Bool.eq_false_iff.2 hnew, rfl⟩
  · rintro ⟨⟨deploymentId, origin⟩, ⟨⟨hid, rfl⟩, horigin, hparse⟩, hnew, rfl⟩
    dsimp only at hparse hnew ⊢
    rw [if_neg (not_or.2 ⟨hid, horigin⟩), if_neg (Bool.eq_false_iff.1 hnew), hparse]

theorem entries_cons_blank {pair : List Char} {pairs : List (List Char)} (h : trim pair = []) : entries (pair :: pairs) = entries pairs := by
  simp [entries, h]

theorem entries_cons {pair : List Char} {pairs : List (List Char)} (h : trim pair ≠ []) :
    entries (pair :: pairs) = trim pair :: entries pairs := by
  simp [entries, h]

/-- The loop goes through where each entry names a deployment that none before it does. -/
theorem foldlM_addPair {pairs : List (List Char)} (hnodup : (endpoints.map (·.1)).Nodup) :
    pairs.foldlM (addPair parseEndpointUrl) endpoints = .ok endpoints' ↔
      ∃ es, endpoints' = endpoints ++ es ∧ List.Forall₂ (Names parseEndpointUrl) (entries pairs) es ∧
        (endpoints'.map (·.1)).Nodup ∧ ∀ e ∈ es, e.1 ∉ inheritedNames := by
  induction pairs generalizing endpoints with
  | nil =>
    constructor
    · intro h
      cases h
      exact ⟨[], (List.append_nil _).symm, .nil, hnodup, fun e he => by cases he⟩
    · rintro ⟨es, rfl, hes, -, -⟩
      cases hes
      rw [List.append_nil]
      rfl
  | cons pair pairs ih =>
    rw [List.foldlM_cons]
    by_cases hblank : trim pair = []
    · rw [addPair_blank hblank, entries_cons_blank hblank]
      exact ih hnodup
    · rw [entries_cons hblank]
      constructor
      · intro h
        obtain ⟨added, hadd, hrest⟩ : ∃ added, addPair parseEndpointUrl endpoints pair = .ok added ∧
            pairs.foldlM (addPair parseEndpointUrl) added = .ok endpoints' := by
          cases hx : addPair parseEndpointUrl endpoints pair with
          | error error => rw [hx] at h; cases h
          | ok added => rw [hx] at h; exact ⟨added, rfl, h⟩
        obtain ⟨e, hnames, hnew, rfl⟩ := (addPair_eq_ok hblank).1 hadd
        obtain ⟨hnew, hown⟩ := has_eq_false.1 hnew
        have hnodup' : ((endpoints ++ [e]).map (·.1)).Nodup := by
          rw [List.map_append]
          refine List.nodup_append.2 ⟨hnodup, List.nodup_singleton _, ?_⟩
          rintro a ha b hb rfl
          exact hnew ((List.mem_singleton.1 hb : a = e.1) ▸ ha)
        obtain ⟨es, rfl, hes, hnd, howns⟩ := (ih hnodup').1 hrest
        refine ⟨e :: es, by simp, .cons hnames hes, hnd, ?_⟩
        rintro e' he'
        rcases List.mem_cons.1 he' with rfl | he'
        · exact hown
        · exact howns e' he'
      · rintro ⟨_, rfl, hes, hnd, howns⟩
        cases hes with
        | @cons _ e _ es hnames hes =>
        have heq : endpoints ++ e :: es = (endpoints ++ [e]) ++ es := by simp
        have hnodup' : ((endpoints ++ [e]).map (·.1)).Nodup := by
          rw [heq, List.map_append] at hnd
          exact (List.nodup_append.1 hnd).1
        have hnew : endpoints.has e.1 = false := by
          refine has_eq_false.2 ⟨?_, howns e (List.mem_cons_self ..)⟩
          rw [List.map_append] at hnodup'
          exact fun hin => (List.nodup_append.1 hnodup').2.2 e.1 hin e.1 (List.mem_singleton_self _) rfl
        rw [(addPair_eq_ok hblank).2 ⟨e, hnames, hnew, rfl⟩]
        exact (ih hnodup').2 ⟨es, heq, hes, hnd, fun e' he' => howns e' (List.mem_cons_of_mem _ he')⟩

theorem nodup_nil_keys : (([] : Endpoints).map (·.1)).Nodup := List.nodup_nil

theorem parseStaticEndpoints_eq_ok {value : String} : parseStaticEndpoints parseEndpointUrl value = .ok endpoints ↔
    endpoints ≠ [] ∧ List.Forall₂ (Names parseEndpointUrl) (entries (value.toList.splitOn ',')) endpoints ∧
      (endpoints.map (·.1)).Nodup ∧ ∀ e ∈ endpoints, e.1 ∉ inheritedNames := by
  unfold parseStaticEndpoints
  constructor
  · intro h
    cases hfold : (value.toList.splitOn ',').foldlM (addPair parseEndpointUrl) [] with
    | error error => rw [hfold] at h; cases h
    | ok found =>
      rw [hfold] at h
      change (if found = [] then _ else _) = _ at h
      split at h
      · cases h
      · rename_i hne
        cases h
        obtain ⟨es, heq, hes, hnd, howns⟩ := (foldlM_addPair nodup_nil_keys).1 hfold
        rw [List.nil_append] at heq
        subst heq
        exact ⟨hne, hes, hnd, howns⟩
  · rintro ⟨hne, hes, hnd, howns⟩
    rw [(foldlM_addPair nodup_nil_keys).2 ⟨endpoints, (List.nil_append _).symm, hes, hnd, howns⟩]
    change (if endpoints = [] then _ else _) = _
    rw [if_neg hne]

end Reads

/-! ## What is answered -/

section Answers

variable {c : StaticActivationClient} {n m : Nat} {deploymentId deploymentId' : String}

/-- The number of a lease is what follows the last colon. -/
theorem leaseId_inj (h : leaseId deploymentId n = leaseId deploymentId' m) : n = m := by
  have hdigits : ∀ k : Nat, ∀ c ∈ (Nat.repr k).toList.reverse, (c != ':') = true := by
    intro k c hc
    have hd : c.isDigit = true := by
      rw [List.mem_reverse, Nat.repr, String.toList_ofList] at hc
      exact Nat.isDigit_of_mem_toDigits (by decide) (by decide) hc
    rw [bne_iff_ne]
    rintro rfl
    exact absurd hd (by decide)
  have htail : ∀ d k, (leaseId d k).toList.reverse.takeWhile (· != ':') = (Nat.repr k).toList.reverse := by
    intro d k
    have hcolon : (leaseId d k).toList.reverse = (Nat.repr k).toList.reverse ++ (':' :: ("static:" ++ d).toList.reverse) := by
      simp [leaseId, String.toList_append]
    rw [hcolon, List.takeWhile_append_of_pos (hdigits k), List.takeWhile_cons_of_neg (by decide), List.append_nil]
  have heq := congrArg (fun s : String => s.toList.reverse.takeWhile (· != ':')) h
  simp only [htail, List.reverse_inj, String.toList_inj] at heq
  exact Nat.repr_injective heq

/-- What the client answers for a deployment. -/
def Answers (endpoints : Endpoints) (deploymentId : String) (outcome : ActivationOutcome) : Prop :=
  match endpoints.lookup deploymentId with
  | some endpointUrl => ∃ lease, outcome = .activated (leaseId deploymentId lease) endpointUrl
  | none => outcome = noStaticEndpoint deploymentId

theorem answers_activations (c : StaticActivationClient) (ids : List String) :
    List.Forall₂ (Answers c.endpoints) ids (c.activations ids) := by
  induction ids generalizing c with
  | nil => exact .nil
  | cons deploymentId rest ih =>
    have hkeep : (c.activate deploymentId).1.endpoints = c.endpoints := by
      unfold StaticActivationClient.activate
      split <;> rfl
    refine .cons ?_ (hkeep ▸ ih (c.activate deploymentId).1)
    unfold Answers StaticActivationClient.activate
    cases c.endpoints.lookup deploymentId with
    | none => rfl
    | some endpointUrl => exact ⟨c.leases + 1, rfl⟩

/-- Later leases have later numbers. -/
theorem lease_of_activations {ids : List String} {leaseId' : String} (h : leaseId' ∈ (c.activations ids).filterMap (·.lease?)) :
    ∃ deploymentId n, leaseId' = leaseId deploymentId n ∧ c.leases < n := by
  induction ids generalizing c with
  | nil => cases h
  | cons deploymentId rest ih =>
    unfold StaticActivationClient.activations StaticActivationClient.activate at h
    cases hfound : c.endpoints.lookup deploymentId with
    | none =>
      rw [hfound] at h
      exact ih h
    | some endpointUrl =>
      rw [hfound] at h
      rcases List.mem_cons.1 h with rfl | h
      · exact ⟨deploymentId, c.leases + 1, rfl, Nat.lt_succ_self _⟩
      · obtain ⟨d, n, heq, hlt⟩ := ih h
        exact ⟨d, n, heq, Nat.lt_of_succ_lt hlt⟩

theorem nodup_leases (c : StaticActivationClient) (ids : List String) : ((c.activations ids).filterMap (·.lease?)).Nodup := by
  induction ids generalizing c with
  | nil => exact List.nodup_nil
  | cons deploymentId rest ih =>
    unfold StaticActivationClient.activations StaticActivationClient.activate
    cases c.endpoints.lookup deploymentId with
    | none => exact ih c
    | some endpointUrl =>
      refine List.nodup_cons.2 ⟨fun hin => ?_, ih _⟩
      obtain ⟨d, n, heq, hlt⟩ := lease_of_activations hin
      have := leaseId_inj heq
      dsimp only at hlt
      omega

theorem names_of_mem {parseEndpointUrl : String → Except String String} {l : List (List Char)} {endpoints : Endpoints}
    (h : List.Forall₂ (Names parseEndpointUrl) l endpoints) {e : String × String} (he : e ∈ endpoints) :
    ∃ entry, Names parseEndpointUrl entry e := by
  induction h with
  | nil => cases he
  | cons hnames _ ih =>
    rcases List.mem_cons.1 he with rfl | he
    · exact ⟨_, hnames⟩
    · exact ih he

theorem createStaticActivationClient_eq {parseEndpointUrl : String → Except String String} {endpoints : Endpoints}
    (h : ∀ e ∈ endpoints, parseEndpointUrl e.2 = .ok e.2) : createStaticActivationClient parseEndpointUrl endpoints = .ok ⟨endpoints, 0⟩ := by
  have hmap : endpoints.mapM (staticEndpoint parseEndpointUrl) = .ok endpoints := by
    induction endpoints with
    | nil => rfl
    | cons e endpoints ih =>
      rw [List.mapM_cons, ih fun e' he' => h e' (List.mem_cons_of_mem _ he'), staticEndpoint, h e (List.mem_cons_self ..)]
      rfl
  unfold createStaticActivationClient
  rw [hmap]
  rfl

end Answers

/-- A text is accepted exactly if it names a deployment, and each of its entries that is not blank names a deployment, with
an endpoint, that no other names and no object inherits; what it names is read as it stands. Of such a text a client is
made, which answers any calls with the endpoint that the text names, or that it names none, under leases that differ. -/
theorem static_endpoints {parseEndpointUrl : String → Except String String}
    (hcanonical : ∀ url origin, parseEndpointUrl url = .ok origin → parseEndpointUrl origin = .ok origin) (value : String)
    (endpoints : Endpoints) :
    (parseStaticEndpoints parseEndpointUrl value = .ok endpoints ↔
      endpoints ≠ [] ∧ List.Forall₂ (Names parseEndpointUrl) (entries (value.toList.splitOn ',')) endpoints ∧
        (endpoints.map (·.1)).Nodup ∧ ∀ e ∈ endpoints, e.1 ∉ inheritedNames) ∧
    (parseStaticEndpoints parseEndpointUrl value = .ok endpoints →
      ∃ client, createStaticActivationClient parseEndpointUrl endpoints = .ok client ∧
        ∀ ids, List.Forall₂ (Answers endpoints) ids (client.activations ids) ∧
          ((client.activations ids).filterMap (·.lease?)).Nodup) := by
  refine ⟨parseStaticEndpoints_eq_ok, fun h => ?_⟩
  obtain ⟨-, hnames, -, -⟩ := parseStaticEndpoints_eq_ok.1 h
  refine ⟨⟨endpoints, 0⟩, createStaticActivationClient_eq fun e he => ?_, fun ids => ⟨answers_activations ⟨endpoints, 0⟩ ids, nodup_leases _ ids⟩⟩
  obtain ⟨entry, hentry⟩ := names_of_mem hnames he
  exact hcanonical _ _ hentry.origin.2

/-- Two executors, one named with a slash at the end. -/
def twoExecutors (url : String) : Except String String :=
  if url = "http://b:2/" then .ok "http://b:2"
  else if url = "http://a:1" ∨ url = "http://b:2" then .ok url
  else .error "Executor endpoint is not a URL."

theorem static_endpoints_twoExecutors : ∃ client,
    createStaticActivationClient twoExecutors [("a", "http://a:1"), ("b", "http://b:2")] = .ok client ∧
      List.Forall₂ (Answers [("a", "http://a:1"), ("b", "http://b:2")]) ["b", "c", "b"] (client.activations ["b", "c", "b"]) ∧
      ((client.activations ["b", "c", "b"]).filterMap (·.lease?)).Nodup := by
  have hcanonical : ∀ url origin, twoExecutors url = .ok origin → twoExecutors origin = .ok origin := by
    intro url origin h
    unfold twoExecutors at h
    split at h
    · cases h
      decide +kernel
    · split at h
      · rename_i hurl
        cases h
        rcases hurl with rfl | rfl <;> decide +kernel
      · cases h
  have hparse : parseStaticEndpoints twoExecutors " a=http://a:1, ,b = http://b:2/" =
      .ok [("a", "http://a:1"), ("b", "http://b:2")] := by decide +kernel
  obtain ⟨client, hclient, hanswers⟩ := (static_endpoints hcanonical " a=http://a:1, ,b = http://b:2/" _).2 hparse
  exact ⟨client, hclient, hanswers ["b", "c", "b"]⟩

end WorkflowWorld.Dispatcher.StaticActivation
