/-
The lineage of a new run, resolved twice: by `resolveRunRetentionForCreation` (`src/run-retention-resolution.ts`), and by
the trigger `set_run_retention_deadlines` (`migrations/0012_run_retention_lineage.sql`) where an older World leaves the root
out. Of the trigger only the root is here.
-/
import WorkflowWorld.Retention.Prune
import WorkflowWorld.Lists.FirstSeen
import WorkflowWorld.Text.Json

namespace WorkflowWorld.RetentionResolution

open Lists Retention

/-! ## Attributes and classes -/

abbrev Attributes := List (String × String)

def runRetentionAttribute : String := "workflow-world.retention-class"
def rootRunIdAttribute : String := "$rootRunId"
def parentRunIdAttribute : String := "$parentRunId"

/-- `attributes?.[name]`. -/
def attributeOf (attributes : Option Attributes) (name : String) : Option String := attributes.bind (·.lookup name)

def resolveRunRetentionClass (value : Option String) (attributes : Option Attributes) : Except String RetentionClass :=
  let selected := (value.or (attributeOf attributes runRetentionAttribute)).getD "interactive"
  if selected = "scheduled" ∨ selected = "ephemeral" then .ok .scheduled
  else if selected = "interactive" then .ok .interactive
  else if selected = "persistent" then .ok .persistent
  else .error ("Invalid workflow run retention class \"" ++ selected ++
    "\": expected scheduled/ephemeral, interactive, or persistent.")

/-- What `JSON.stringify` of an id is in a text. -/
def stringifyId : Option RunId → String
  | some id => String.ofList (Text.quote (Text.utf16 id))
  | none => "undefined"

/-! ## Creation -/

structure RunRetentionIdentity where
  retentionClass : RetentionClass
  retentionRootRunId : RunId
  deriving DecidableEq, Repr

structure RunRetentionClassForCreationInput where
  retentionClass : Option String := none
  attributes : Option Attributes := none
  getAncestorRetentionClass : Option (RunId → Option RetentionClass) := none

structure RunRetentionForCreationInput where
  runId : RunId
  retentionClass : Option String := none
  attributes : Option Attributes := none
  getAncestorRetention : Option (RunId → Option RunRetentionIdentity) := none

/-- `new Set([rootRunId, parentRunId])`, without `undefined`. -/
def declaredAncestors (rootRunId parentRunId : Option RunId) : List RunId := (firstSeen [rootRunId, parentRunId]).filterMap id

/-- `ambientIntent` is what the store of the retention context holds. -/
def resolveRunRetentionClassForCreation (ambientIntent : Option RetentionClass) (input : RunRetentionClassForCreationInput) :
    Except String RetentionClass :=
  if input.retentionClass.isSome || (attributeOf input.attributes runRetentionAttribute).isSome then
    resolveRunRetentionClass input.retentionClass input.attributes
  else
    let rootRunId := attributeOf input.attributes rootRunIdAttribute
    let parentRunId := attributeOf input.attributes parentRunIdAttribute
    if rootRunId.isSome || parentRunId.isSome then
      match input.getAncestorRetentionClass.bind (declaredAncestors rootRunId parentRunId).findSome? with
      | some retentionClass => .ok retentionClass
      | none => .error ("Workflow run retention lineage could not resolve root " ++ stringifyId rootRunId ++ " or parent " ++
          stringifyId parentRunId ++ ".")
    else .ok (ambientIntent.getD .interactive)

def resolveRunRetentionForCreation (ambientIntent : Option RetentionClass) (input : RunRetentionForCreationInput) :
    Except String RunRetentionIdentity := do
  let rootRunId := attributeOf input.attributes rootRunIdAttribute
  let parentRunId := attributeOf input.attributes parentRunIdAttribute
  let ancestors := match input.getAncestorRetention with
    | some get => (declaredAncestors rootRunId parentRunId).filterMap fun runId => (get runId).map (runId, ·)
    | none => []
  let retentionClass ← resolveRunRetentionClassForCreation ambientIntent
    { retentionClass := input.retentionClass
      attributes := input.attributes
      getAncestorRetentionClass := some fun runId => (ancestors.lookup runId).map (·.retentionClass) }
  let ancestor := ancestors.head?.map (·.2)
  pure
    { retentionClass
      retentionRootRunId := (((ancestor.map (·.retentionRootRunId)).or rootRunId).or parentRunId).getD input.runId }

/-! ## The table and the two writers -/

/-- What both read of a run; every row has its root. -/
structure StoredRun where
  key : RunKey
  retentionClass : RetentionClass
  retentionRootRunId : RunId
  deriving DecidableEq, Repr

/-- `where tenant_id = … and id = …`. -/
def selectRun (table : List StoredRun) (tenantId : TenantId) (runId : RunId) : Option StoredRun :=
  table.find? (·.key == (tenantId, runId))

/-- The query `getAncestorRetention` of a tenant's storage. -/
def getAncestorRetention (table : List StoredRun) (tenantId : TenantId) (runId : RunId) : Option RunRetentionIdentity :=
  (selectRun table tenantId runId).map fun r => ⟨r.retentionClass, r.retentionRootRunId⟩

/-- `resolveCreationRetention` of a tenant's storage. -/
def resolveCreationRetention (ambientIntent : Option RetentionClass) (table : List StoredRun) (tenantId : TenantId) (runId : RunId)
    (retentionClass : Option String) (attributes : Option Attributes) : Except String RunRetentionIdentity :=
  resolveRunRetentionForCreation ambientIntent
    { runId, retentionClass, attributes, getAncestorRetention := some (getAncestorRetention table tenantId) }

/-- What the trigger reads of `new`. -/
structure NewRun where
  tenantId : TenantId
  id : RunId
  attributes : Option Attributes
  retentionRootRunId : Option RunId := none
  deriving DecidableEq, Repr

/-- `new.retention_root_run_id` when `set_run_retention_deadlines` returns. -/
def setRunRetentionDeadlines (table : List StoredRun) (new : NewRun) : RunId :=
  match new.retentionRootRunId with
  | some root => root
  | none =>
    match (attributeOf new.attributes "$rootRunId").or (attributeOf new.attributes "$eve.root") with
    | some root => root
    | none =>
      match (attributeOf new.attributes "$parentRunId").or (attributeOf new.attributes "$eve.parent") with
      | some declaredParent => ((selectRun table new.tenantId declaredParent).map (·.retentionRootRunId)).getD declaredParent
      | none => new.id

/-! ## What they resolve -/

/-- The root that a stored run has. -/
def storedRoot (table : List StoredRun) (tenantId : TenantId) (runId : RunId) : Option RunId :=
  (selectRun table tenantId runId).map (·.retentionRootRunId)

/-- Where the two agree on a run with these attributes. -/
structure SameLineage (table : List StoredRun) (tenantId : TenantId) (runId : RunId) (attributes : Option Attributes) : Prop where
  /-- The first declared ancestor that is stored has the declared root. -/
  root : ∀ r, attributeOf attributes "$rootRunId" = some r →
    ∀ x, (storedRoot table tenantId r).or ((attributeOf attributes "$parentRunId").bind (storedRoot table tenantId)) = some x → x = r
  /-- With no `$rootRunId`, `$eve.root` is the root that the parent has, or the parent itself where it is not stored. -/
  parent : attributeOf attributes "$rootRunId" = none → ∀ p, attributeOf attributes "$parentRunId" = some p →
    ∀ e, attributeOf attributes "$eve.root" = some e → e = (storedRoot table tenantId p).getD p
  /-- With neither, `$eve.root` is the run itself, and if there is none so is the root of `$eve.parent`. -/
  alone : attributeOf attributes "$rootRunId" = none → attributeOf attributes "$parentRunId" = none →
    ∀ e, (attributeOf attributes "$eve.root").or
      ((attributeOf attributes "$eve.parent").map fun q => (storedRoot table tenantId q).getD q) = some e → e = runId

section Resolved

variable {ambientIntent : Option RetentionClass} {table : List StoredRun} {tenantId : TenantId} {runId : RunId}
  {retentionClass : Option String} {attributes : Option Attributes} {identity : RunRetentionIdentity}

theorem declaredAncestors_same (r : RunId) : declaredAncestors (some r) (some r) = [r] := by
  simp [declaredAncestors, firstSeen]

theorem declaredAncestors_ne {r p : RunId} (h : r ≠ p) : declaredAncestors (some r) (some p) = [r, p] := by
  simp [declaredAncestors, firstSeen, Ne.symm h]

theorem declaredAncestors_root (r : RunId) : declaredAncestors (some r) none = [r] := by
  simp [declaredAncestors, firstSeen]

theorem declaredAncestors_parent (p : RunId) : declaredAncestors none (some p) = [p] := by
  simp [declaredAncestors, firstSeen]

/-- The first of the declared ancestors that `get` knows is the root if it knows that one, else the parent. -/
theorem findSome?_declaredAncestors {α : Type} (get : RunId → Option α) (rootRunId parentRunId : Option RunId) :
    (declaredAncestors rootRunId parentRunId).findSome? get = (rootRunId.bind get).or (parentRunId.bind get) := by
  cases rootRunId with
  | none =>
    cases parentRunId with
    | none => rfl
    | some p =>
      rw [declaredAncestors_parent]
      cases h : get p <;> simp [h]
  | some r =>
    cases parentRunId with
    | none =>
      rw [declaredAncestors_root]
      cases h : get r <;> simp [h]
    | some p =>
      by_cases hrp : r = p
      · subst hrp
        rw [declaredAncestors_same]
        cases h : get r <;> simp [h]
      · rw [declaredAncestors_ne hrp]
        cases h : get r <;> cases h' : get p <;> simp [h, h']

theorem head?_filterMap {α β : Type} (f : α → Option β) (l : List α) : (l.filterMap f).head? = l.findSome? f := by
  induction l with
  | nil => rfl
  | cons a l ih => cases h : f a <;> simp [h, ih]

/-- The root that the resolver computes, whatever the class. -/
theorem retentionRootRunId_eq
    (h : resolveCreationRetention ambientIntent table tenantId runId retentionClass attributes = .ok identity) :
    identity.retentionRootRunId =
      (((((attributeOf attributes "$rootRunId").bind (storedRoot table tenantId)).or
        ((attributeOf attributes "$parentRunId").bind (storedRoot table tenantId))).or
        (attributeOf attributes "$rootRunId")).or (attributeOf attributes "$parentRunId")).getD runId := by
  unfold resolveCreationRetention resolveRunRetentionForCreation at h
  dsimp only at h
  generalize resolveRunRetentionClassForCreation _ _ = c at h
  cases c with
  | error e => cases h
  | ok c =>
    cases h
    dsimp only
    have hstored : ∀ o : Option RunId,
        ((o.bind fun id => (getAncestorRetention table tenantId id).map (id, ·)).map (·.2)).map (·.retentionRootRunId) =
          o.bind (storedRoot table tenantId) := by
      intro o
      cases o with
      | none => rfl
      | some r => cases hs : selectRun table tenantId r <;> simp [getAncestorRetention, storedRoot, hs]
    rw [head?_filterMap, findSome?_declaredAncestors, Option.map_or, Option.map_or, hstored, hstored]
    rfl

/-- The root that the trigger computes where the writer left it out. -/
theorem setRunRetentionDeadlines_eq (table : List StoredRun) (tenantId : TenantId) (runId : RunId) (attributes : Option Attributes) :
    setRunRetentionDeadlines table { tenantId, id := runId, attributes } =
      ((attributeOf attributes "$rootRunId").or (attributeOf attributes "$eve.root")).getD
        ((((attributeOf attributes "$parentRunId").or (attributeOf attributes "$eve.parent")).map fun p =>
          (storedRoot table tenantId p).getD p).getD runId) := by
  unfold setRunRetentionDeadlines
  dsimp only
  cases (attributeOf attributes "$rootRunId").or (attributeOf attributes "$eve.root") with
  | some root => rfl
  | none => cases (attributeOf attributes "$parentRunId").or (attributeOf attributes "$eve.parent") <;> rfl

end Resolved

/-- The resolver and the trigger compute the same root if and only if the declared root is its own root where it is stored, and
the attributes that only the trigger reads say nothing else. -/
theorem resolvers_agree_iff (ambientIntent : Option RetentionClass) (table : List StoredRun) (tenantId : TenantId) (runId : RunId)
    (retentionClass : Option String) (attributes : Option Attributes) (identity : RunRetentionIdentity)
    (h : resolveCreationRetention ambientIntent table tenantId runId retentionClass attributes = .ok identity) :
    identity.retentionRootRunId = setRunRetentionDeadlines table { tenantId, id := runId, attributes } ↔
      SameLineage table tenantId runId attributes := by
  rw [retentionRootRunId_eq h, setRunRetentionDeadlines_eq]
  constructor
  · intro heq
    refine ⟨fun r hr x hx => ?_, fun hr p hp e he => ?_, fun hr hp e he => ?_⟩
    · rw [hr, Option.bind_some, hx] at heq
      exact heq
    · rw [hr, hp, he] at heq
      cases hs : storedRoot table tenantId p with
      | none =>
        simp only [Option.bind_none, Option.bind_some, hs] at heq
        exact heq.symm
      | some x =>
        simp only [Option.bind_none, Option.bind_some, hs] at heq
        exact heq.symm
    · rw [hr, hp] at heq
      cases hroot : attributeOf attributes "$eve.root" with
      | some e' =>
        rw [hroot] at heq he
        exact (Option.some.inj he).symm.trans heq.symm
      | none =>
        cases hparent : attributeOf attributes "$eve.parent" with
        | none =>
          rw [hroot, hparent] at he
          cases he
        | some q =>
          rw [hroot, hparent] at heq he
          exact (Option.some.inj he).symm.trans heq.symm
  · intro hsame
    cases hr : attributeOf attributes "$rootRunId" with
    | some r =>
      rw [Option.bind_some]
      cases hx : (storedRoot table tenantId r).or ((attributeOf attributes "$parentRunId").bind (storedRoot table tenantId)) with
      | none => rfl
      | some x => exact hsame.root r hr x hx
    | none =>
      cases hp : attributeOf attributes "$parentRunId" with
      | some p =>
        have heve := hsame.parent hr p hp
        cases he : attributeOf attributes "$eve.root" with
        | some e => cases hs : storedRoot table tenantId p <;> simp [heve e he, hs]
        | none => cases hs : storedRoot table tenantId p <;> simp [hs]
      | none =>
        have heve := hsame.alone hr hp
        cases he : attributeOf attributes "$eve.root" with
        | some e => exact (heve e (by rw [he]; rfl)).symm
        | none =>
          cases hq : attributeOf attributes "$eve.parent" with
          | some q => exact (heve _ (by rw [he, hq]; rfl)).symm
          | none => rfl

theorem resolvers_agree_iff_child :
    let table : List StoredRun := [⟨("proj_example", "wrun_root"), .scheduled, "wrun_root"⟩]
    let attributes := some [("$parentRunId", "wrun_root"), ("$rootRunId", "wrun_root")]
    resolveCreationRetention none table "proj_example" "wrun_child" none attributes = .ok ⟨.scheduled, "wrun_root"⟩ ∧
      ("wrun_root" = setRunRetentionDeadlines table { tenantId := "proj_example", id := "wrun_child", attributes } ↔
        SameLineage table "proj_example" "wrun_child" attributes) :=
  ⟨by decide +kernel, resolvers_agree_iff none _ _ _ none _ ⟨.scheduled, "wrun_root"⟩ (by decide +kernel)⟩

/-- A run whose only edge is `$eve.root` is its own root for the resolver, and of the lineage of that root for the trigger. -/
theorem resolver_ignores_eve_root :
    let table : List StoredRun := [⟨("proj_example", "wrun_root"), .scheduled, "wrun_root"⟩]
    let attributes := some [("$eve.root", "wrun_root")]
    resolveCreationRetention none table "proj_example" "wrun_child" none attributes = .ok ⟨.interactive, "wrun_child"⟩ ∧
      setRunRetentionDeadlines table { tenantId := "proj_example", id := "wrun_child", attributes } = "wrun_root" := by
  decide +kernel

end WorkflowWorld.RetentionResolution
