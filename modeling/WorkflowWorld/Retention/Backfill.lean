/-
The retention backfill (`src/retention-backfill.ts`): the graph of the runs that descend from runs with a marker,
the preview of what a backfill would change there, and the batches that change it. Attributes are what `->>` reads
of them; the deadlines that the trigger recomputes are not read here.
-/
import WorkflowWorld.Retention.Prune
import WorkflowWorld.Dispatcher.Config
import WorkflowWorld.Dispatcher.DeadLetters
import WorkflowWorld.Lists.Recursive
import Mathlib.Data.List.ProdSigma
import Mathlib.Data.Finset.Card

namespace WorkflowWorld.RetentionBackfill

open Lists Retention

/-! ## Rows -/

/-- What the graph query reads of a run. -/
structure RunNode where
  key : RunKey
  attributes : List (String × String)
  deriving DecidableEq, Repr

/-- What a backfill reads of a run. -/
structure GraphRun where
  node : RunNode
  status : RunStatus
  createdAt : Nat
  retentionClass : RetentionClass
  deriving DecidableEq, Repr

def RunNode.attribute (n : RunNode) (name : String) : Option String := n.attributes.lookup name

def GraphRun.key (r : GraphRun) : RunKey := r.node.key

/-! ## Selectors -/

/-- The class a caller selects; `ephemeral` is another word for `scheduled`. -/
inductive SelectedClass where
  | class (c : RetentionClass)
  | ephemeral
  deriving DecidableEq, Repr

structure BackfillSelector where
  tenantId : TenantId
  rootAttribute : String
  rootValue : String
  retentionClass : SelectedClass
  deriving DecidableEq, Repr

structure NormalizedSelector where
  tenantId : TenantId
  rootAttribute : String
  rootValue : String
  retentionClass : RetentionClass
  deriving DecidableEq, Repr

/-- `resolveRunRetentionClass` of a selector's class. -/
def SelectedClass.resolve : SelectedClass → RetentionClass
  | .class c => c
  | .ephemeral => .scheduled

def assertNonEmptyString (value name : String) : Except String Unit :=
  if value.toList.all Dispatcher.isStrWhiteSpace then .error (name ++ " must not be empty.") else .ok ()

def assertPositiveInteger (value : Int) (name : String) : Except String Unit :=
  if value ≤ 0 then .error (name ++ " must be a positive integer.") else .ok ()

def normalizeSelector (s : BackfillSelector) : Except String NormalizedSelector := do
  Dispatcher.assertValidTenantId s.tenantId
  assertNonEmptyString s.rootAttribute "rootAttribute"
  assertNonEmptyString s.rootValue "rootValue"
  pure ⟨s.tenantId, s.rootAttribute, s.rootValue, s.retentionClass.resolve⟩

/-! ## The graph -/

/-- A row of `graph`: a run, and the root under which it was found. -/
abbrev GraphRow := RunKey × RunId

def NormalizedSelector.isRoot (s : NormalizedSelector) (n : RunNode) : Bool :=
  n.key.1 == s.tenantId && n.attribute s.rootAttribute == some s.rootValue

def roots (s : NormalizedSelector) (nodes : List RunNode) : List GraphRow :=
  (nodes.filter s.isRoot).map fun n => (n.key, n.key.2)

/-- The join of the recursive term. -/
def RunNode.descends (child : RunNode) (g : GraphRow) : Bool :=
  child.key.1 == g.1.1 &&
    (child.attribute "$parentRunId" == some g.1.2 || child.attribute "$eve.parent" == some g.1.2 ||
      child.attribute "$rootRunId" == some g.2 || child.attribute "$eve.root" == some g.2)

def childRows (nodes : List RunNode) (graph : List GraphRow) : List GraphRow :=
  graph.flatMap fun g => (nodes.filter (·.descends g)).map fun child => (child.key, g.2)

/-- `GRAPH_CTE`. There are no more rows than pairs of runs. -/
def graph (s : NormalizedSelector) (nodes : List RunNode) : List GraphRow :=
  recursiveUnion (childRows nodes) (nodes.length * nodes.length + 1) (roots s nodes)

/-! ## Preview and batches -/

/-- `graph join workflow_runs`. -/
def joined (s : NormalizedSelector) (table : List GraphRun) : List GraphRun :=
  (graph s (table.map (·.node))).flatMap fun g => table.filter (·.key == g.1)

/-- The class is another one than the selected, and not `persistent`. -/
def NormalizedSelector.changes (s : NormalizedSelector) (r : GraphRun) : Bool :=
  r.retentionClass != s.retentionClass && r.retentionClass != .persistent

/-- The counts of a preview. -/
structure BackfillPreview where
  matchedRoots : Nat
  eligibleRuns : Nat
  excludedPersistentRuns : Nat
  deriving DecidableEq, Repr

def previewWorkflowRunRetentionBackfill (selector : BackfillSelector) (table : List GraphRun) : Except String BackfillPreview := do
  let s ← normalizeSelector selector
  pure
    { matchedRoots := (roots s (table.map (·.node))).length
      eligibleRuns := (joined s table).countP s.changes
      excludedPersistentRuns := (joined s table).countP fun r => r.retentionClass == .persistent }

structure BackfillResult where
  updatedRuns : Nat
  remainingRuns : Nat
  hitBatchLimit : Bool
  deriving DecidableEq, Repr

/-- `case when runs.status in ('pending', 'running') then 0 else 1 end`. -/
def GraphRun.rank (r : GraphRun) : Nat := if r.status.isTerminal then 1 else 0

/-- Active runs come first, then the older ones. -/
def victimOrder (a b : GraphRun) : Prop :=
  a.rank < b.rank ∨ a.rank = b.rank ∧ (a.createdAt < b.createdAt ∨ a.createdAt = b.createdAt ∧ a.key.2 ≤ b.key.2)

instance : DecidableRel victimOrder := fun _ _ => inferInstanceAs (Decidable (_ ∨ _))

def victims (s : NormalizedSelector) (batchSize : Nat) (table : List GraphRun) : List RunKey :=
  ((((joined s table).filter s.changes).insertionSort victimOrder).take batchSize).map (·.key)

def countRemaining (s : NormalizedSelector) (table : List GraphRun) : Nat := (joined s table).countP s.changes

/-- One transaction, with no other writer. -/
def backfillBatch (s : NormalizedSelector) (batchSize : Nat) (table : List GraphRun) : BackfillResult × List GraphRun :=
  let keys := victims s batchSize table
  let updated := table.map fun r => if keys.contains r.key then { r with retentionClass := s.retentionClass } else r
  ({ updatedRuns := table.countP fun r => keys.contains r.key
     remainingRuns := countRemaining s updated
     hitBatchLimit := countRemaining s updated > 0 }, updated)

def backfillWorkflowRunRetentionClass (selector : BackfillSelector) (batchSize : Int) (table : List GraphRun) :
    Except String (BackfillResult × List GraphRun) := do
  let s ← normalizeSelector selector
  assertPositiveInteger batchSize "batchSize"
  pure (backfillBatch s batchSize.toNat table)

/-! ## The graph is what descends from the roots -/

/-- The run is in the graph, under a root: it is the root, or a child of one that is, or names the root itself. -/
inductive Member (s : NormalizedSelector) (nodes : List RunNode) : RunKey → RunId → Prop
  | root {n : RunNode} (hn : n ∈ nodes) (hr : s.isRoot n = true) : Member s nodes n.key n.key.2
  | child {n : RunNode} {k : RunKey} {root : RunId} (hk : Member s nodes k root) (hn : n ∈ nodes)
      (hd : n.descends (k, root) = true) : Member s nodes n.key root

section Graph

variable {s : NormalizedSelector} {nodes : List RunNode} {k : RunKey} {root : RunId}

/-- One step of the recursive term. -/
def Descends (nodes : List RunNode) (g g' : GraphRow) : Prop := ∃ n ∈ nodes, n.descends g = true ∧ g' = (n.key, g.2)

theorem mem_childRows {work : List GraphRow} {g' : GraphRow} :
    g' ∈ childRows nodes work ↔ ∃ g ∈ work, Descends nodes g g' := by
  simp only [childRows, List.mem_flatMap, List.mem_map, List.mem_filter, Descends, and_assoc, eq_comm (a := g')]

theorem mem_roots {g : GraphRow} : g ∈ roots s nodes ↔ ∃ n ∈ nodes, s.isRoot n = true ∧ g = (n.key, n.key.2) := by
  simp only [roots, List.mem_map, List.mem_filter, and_assoc, eq_comm (a := g)]

theorem mem_graph : (k, root) ∈ graph s nodes ↔ Member s nodes k root := by
  -- a row pairs a run with the id of a run
  have hU : ∀ g ∈ nodes.map (·.key) ×ˢ nodes.map (·.key.2), ∀ g', Descends nodes g g' →
      g' ∈ nodes.map (·.key) ×ˢ nodes.map (·.key.2) := by
    rintro g hg g' ⟨n, hn, -, rfl⟩
    exact List.mem_product.2 ⟨List.mem_map_of_mem hn, (List.mem_product.1 hg).2⟩
  have hseeds : ∀ g ∈ roots s nodes, g ∈ nodes.map (·.key) ×ˢ nodes.map (·.key.2) := by
    intro g hg
    obtain ⟨n, hn, -, rfl⟩ := mem_roots.1 hg
    exact List.mem_product.2 ⟨List.mem_map_of_mem hn, List.mem_map_of_mem (f := fun n : RunNode => n.key.2) hn⟩
  have hfuel : (nodes.map (·.key) ×ˢ nodes.map (·.key.2)).length < nodes.length * nodes.length + 1 := by
    rw [List.length_product, List.length_map, List.length_map]
    exact Nat.lt_succ_self _
  unfold graph
  rw [mem_recursiveUnion (fun w b => mem_childRows) hU hseeds hfuel]
  constructor
  · rintro ⟨g, hg, hreach⟩
    obtain ⟨n, hn, hroot, rfl⟩ := mem_roots.1 hg
    suffices h : ∀ g', Relation.ReflTransGen (Descends nodes) (n.key, n.key.2) g' → Member s nodes g'.1 g'.2 from h _ hreach
    intro g' h
    induction h with
    | refl => exact .root hn hroot
    | tail _ hd ih =>
      obtain ⟨c, hc, hd, rfl⟩ := hd
      exact .child ih hc hd
  · intro h
    induction h with
    | root hn hr => exact ⟨_, mem_roots.2 ⟨_, hn, hr, rfl⟩, .refl⟩
    | child _ hn hd ih =>
      obtain ⟨g, hg, hreach⟩ := ih
      exact ⟨g, hg, hreach.tail ⟨_, hn, hd, rfl⟩⟩

theorem nodup_graph : (graph s nodes).Nodup := nodup_recursiveUnion

/-- What is in the graph is a run of the table. -/
theorem Member.mem_keys (h : Member s nodes k root) : ∃ n ∈ nodes, n.key = k := by
  cases h with
  | root hn => exact ⟨_, hn, rfl⟩
  | child _ hn => exact ⟨_, hn, rfl⟩

end Graph

/-! ## What is counted -/

/-- The runs of the graph that are still to change. -/
def toChange (s : NormalizedSelector) (table : List GraphRun) : List GraphRun :=
  table.filter fun r => s.changes r && (graph s (table.map (·.node))).any (·.1 == r.key)

/-- No run that is to change is in the graph under two roots. -/
def UnderOneRoot (s : NormalizedSelector) (table : List GraphRun) : Prop :=
  ∀ r ∈ table, s.changes r = true → ∀ root root', Member s (table.map (·.node)) r.key root →
    Member s (table.map (·.node)) r.key root' → root = root'

section Counts

variable {s : NormalizedSelector} {table : List GraphRun} {r r' : GraphRun}

theorem mem_toChange : r ∈ toChange s table ↔
    r ∈ table ∧ s.changes r = true ∧ ∃ root, Member s (table.map (·.node)) r.key root := by
  unfold toChange
  rw [List.mem_filter, Bool.and_eq_true, List.any_eq_true]
  refine and_congr_right fun _ => and_congr_right fun _ => ⟨?_, ?_⟩
  · rintro ⟨⟨k, root⟩, hg, hk⟩
    cases beq_iff_eq.1 hk
    exact ⟨root, mem_graph.1 hg⟩
  · rintro ⟨root, hm⟩
    exact ⟨(r.key, root), mem_graph.2 hm, beq_self_eq_true _⟩

theorem mem_joined : r ∈ joined s table ↔ r ∈ table ∧ ∃ root, Member s (table.map (·.node)) r.key root := by
  unfold joined
  rw [List.mem_flatMap]
  constructor
  · rintro ⟨⟨k, root⟩, hg, hr⟩
    obtain ⟨hin, hk⟩ := List.mem_filter.1 hr
    cases beq_iff_eq.1 hk
    exact ⟨hin, root, mem_graph.1 hg⟩
  · rintro ⟨hr, root, hm⟩
    exact ⟨(r.key, root), mem_graph.2 hm, List.mem_filter.2 ⟨hr, beq_self_eq_true _⟩⟩

/-- The rows of the graph whose run is to change. -/
def changingRows (s : NormalizedSelector) (table : List GraphRun) : List GraphRow :=
  (graph s (table.map (·.node))).filter fun g => table.any fun r => r.key == g.1 && s.changes r

/-- The join has one row for each row of the graph. -/
theorem countP_joined (hkeys : (table.map (·.key)).Nodup) : (joined s table).countP s.changes = (changingRows s table).length := by
  unfold joined changingRows
  generalize graph s (table.map (·.node)) = G
  induction G with
  | nil => rfl
  | cons g G ih =>
    have hone : (table.filter (·.key == g.1)).countP s.changes = if table.any (fun r => r.key == g.1 && s.changes r) then 1 else 0 := by
      rw [List.countP_filter]
      have hle : table.countP (fun r => s.changes r && r.key == g.1) ≤ 1 := by
        refine le_trans (List.countP_mono_left (q := fun r => r.key == g.1) fun r _ h => (Bool.and_eq_true_iff.1 h).2) ?_
        have hcount := List.nodup_iff_count_le_one.1 hkeys g.1
        rwa [List.count, List.countP_map] at hcount
      split
      · rename_i hany
        obtain ⟨r, hr, h⟩ := List.any_eq_true.1 hany
        exact le_antisymm hle (List.countP_pos_iff.2 ⟨r, hr, by rw [Bool.and_comm]; exact h⟩)
      · rename_i hany
        refine List.countP_eq_zero.2 fun r hr h => hany (List.any_eq_true.2 ⟨r, hr, by rw [Bool.and_comm]; exact h⟩)
    rw [List.flatMap_cons, List.countP_append, ih, hone, List.filter_cons]
    split <;> simp [Nat.add_comm]

theorem mem_changingRows {g : GraphRow} : g ∈ changingRows s table ↔
    Member s (table.map (·.node)) g.1 g.2 ∧ ∃ r ∈ table, r.key = g.1 ∧ s.changes r = true := by
  unfold changingRows
  rw [List.mem_filter, List.any_eq_true]
  simp only [Bool.and_eq_true, beq_iff_eq]
  exact and_congr_left fun _ => mem_graph

theorem nodup_toChange (hkeys : (table.map (·.key)).Nodup) : ((toChange s table).map (·.key)).Nodup :=
  hkeys.sublist (List.filter_sublist.map _)

/-- They are of the runs that are to change, each under each of its roots. -/
theorem toFinset_changingRows : ((changingRows s table).map (·.1)).toFinset = ((toChange s table).map (·.key)).toFinset := by
  ext k
  simp only [List.mem_toFinset, List.mem_map, mem_changingRows, mem_toChange]
  constructor
  · rintro ⟨g, ⟨hm, r, hr, hk, hc⟩, rfl⟩
    exact ⟨r, ⟨hr, hc, g.2, by rw [hk]; exact hm⟩, hk⟩
  · rintro ⟨r, ⟨hr, hc, root, hm⟩, rfl⟩
    exact ⟨(r.key, root), ⟨hm, r, hr, rfl, hc⟩, rfl⟩

/-- What is counted are the runs to change if and only if none of them is under two roots. -/
theorem countP_joined_eq_iff (hkeys : (table.map (·.key)).Nodup) :
    (joined s table).countP s.changes = (toChange s table).length ↔ UnderOneRoot s table := by
  have hcard : (toChange s table).length = ((changingRows s table).map (·.1)).toFinset.card := by
    rw [toFinset_changingRows, List.toFinset_card_of_nodup (nodup_toChange hkeys), List.length_map]
  have hnd : (changingRows s table).Nodup := nodup_graph.filter _
  have hone : ((changingRows s table).map (·.1)).toFinset.card = ((changingRows s table).map (·.1)).length ↔
      ((changingRows s table).map (·.1)).Nodup :=
    ⟨fun h => List.dedup_eq_self.1 ((List.dedup_sublist _).eq_of_length h), fun h => List.toFinset_card_of_nodup h⟩
  have hlength : ((changingRows s table).map (·.1)).length = (changingRows s table).length := List.length_map _
  rw [countP_joined hkeys, hcard, eq_comm, ← hlength, hone, List.nodup_map_iff_inj_on hnd]
  constructor
  · intro hinj r hr hc root root' hm hm'
    exact congrArg Prod.snd (hinj (r.key, root) (mem_changingRows.2 ⟨hm, r, hr, rfl, hc⟩) (r.key, root')
      (mem_changingRows.2 ⟨hm', r, hr, rfl, hc⟩) rfl)
  · rintro hone ⟨k, root⟩ hg ⟨k', root'⟩ hg' rfl
    obtain ⟨hm, r, hr, hk, hc⟩ := mem_changingRows.1 hg
    obtain ⟨hm', -⟩ := mem_changingRows.1 hg'
    dsimp only at hk hm hm'
    subst hk
    rw [hone r hr hc root root' hm hm']

theorem joined_eq_zero : (joined s table).countP s.changes = 0 ↔ toChange s table = [] := by
  rw [List.countP_eq_zero, List.eq_nil_iff_forall_not_mem]
  constructor
  · intro h r hr
    obtain ⟨hin, hc, hm⟩ := mem_toChange.1 hr
    exact h r (mem_joined.2 ⟨hin, hm⟩) hc
  · intro h r hr hc
    obtain ⟨hin, hm⟩ := mem_joined.1 hr
    exact h r (mem_toChange.2 ⟨hin, hc, hm⟩)

end Counts

/-! ## One batch -/

/-- What a batch does to a row. -/
def changeRow (s : NormalizedSelector) (keys : List RunKey) (r : GraphRun) : GraphRun :=
  if keys.contains r.key then { r with retentionClass := s.retentionClass } else r

section Batch

variable {s : NormalizedSelector} {batchSize : Nat} {table : List GraphRun} {r : GraphRun} {keys : List RunKey}

theorem changeRow_node (s : NormalizedSelector) (keys : List RunKey) (r : GraphRun) : (changeRow s keys r).node = r.node := by
  unfold changeRow
  split <;> rfl

/-- The graph is not in the classes. -/
theorem nodes_batch : (backfillBatch s batchSize table).2.map (·.node) = table.map (·.node) := by
  show (table.map (changeRow s _)).map (·.node) = _
  rw [List.map_map]
  exact List.map_congr_left fun r _ => changeRow_node s _ r

/-- The runs of a batch are to change. -/
theorem exists_of_mem_victims {k : RunKey} (h : k ∈ victims s batchSize table) : ∃ r ∈ toChange s table, r.key = k := by
  obtain ⟨r, hr, rfl⟩ := List.mem_map.1 h
  obtain ⟨hj, hc⟩ := List.mem_filter.1 ((List.mem_insertionSort _).1 (List.mem_of_mem_take hr))
  obtain ⟨hin, hm⟩ := mem_joined.1 hj
  exact ⟨r, mem_toChange.2 ⟨hin, hc, hm⟩, rfl⟩

theorem toChange_of_victim (hkeys : (table.map (·.key)).Nodup) (hr : r ∈ table)
    (h : (victims s batchSize table).contains r.key = true) : r ∈ toChange s table := by
  obtain ⟨r', hr', hk⟩ := exists_of_mem_victims (List.contains_iff_mem.1 h)
  have hsame : r' = r := List.inj_on_of_nodup_map hkeys (mem_toChange.1 hr').1 hr hk
  rwa [hsame] at hr'

/-- Where something is to change, a batch changes something. -/
theorem updatedRuns_pos (hb : 0 < batchSize) (h : toChange s table ≠ []) :
    0 < (backfillBatch s batchSize table).1.updatedRuns := by
  obtain ⟨r, hr⟩ := List.exists_mem_of_ne_nil _ h
  obtain ⟨hin, hc, hm⟩ := mem_toChange.1 hr
  have hne : victims s batchSize table ≠ [] := by
    have hlen : 0 < (((joined s table).filter s.changes).insertionSort victimOrder).length :=
      List.length_pos_of_mem ((List.mem_insertionSort _).2 (List.mem_filter.2 ⟨mem_joined.2 ⟨hin, hm⟩, hc⟩))
    refine List.ne_nil_of_length_pos ?_
    rw [victims, List.length_map, List.length_take]
    omega
  obtain ⟨k, hk⟩ := List.exists_mem_of_ne_nil _ hne
  obtain ⟨r', hr', rfl⟩ := exists_of_mem_victims hk
  exact List.countP_pos_iff.2 ⟨r', (mem_toChange.1 hr').1, List.contains_iff_mem.2 hk⟩

/-- What a batch changes is no longer to change, and nothing else is different. -/
theorem length_toChange_batch (hkeys : (table.map (·.key)).Nodup) :
    (backfillBatch s batchSize table).1.updatedRuns + (toChange s (backfillBatch s batchSize table).2).length =
      (toChange s table).length := by
  set keys := victims s batchSize table with hvictims
  set inGraph : GraphRun → Bool := fun r => (graph s (table.map (·.node))).any (·.1 == r.key) with hgraph
  have hafter : (toChange s (backfillBatch s batchSize table).2).length =
      table.countP fun r => (s.changes r && inGraph r) && !keys.contains r.key := by
    have htable : (backfillBatch s batchSize table).2 = table.map (changeRow s keys) := rfl
    rw [toChange, nodes_batch, ← List.countP_eq_length_filter, htable, List.countP_map]
    refine List.countP_congr fun r _ => ?_
    show (s.changes (changeRow s keys r) && (graph s (table.map (·.node))).any (·.1 == (changeRow s keys r).node.key)) = true ↔ _
    rw [changeRow_node]
    unfold changeRow
    split
    · rename_i hv
      have hchanged : s.changes { r with retentionClass := s.retentionClass } = false := by
        simp [NormalizedSelector.changes]
      rw [hchanged, hv, Bool.not_true, Bool.and_false, Bool.false_and]
    · rename_i hv
      rw [Bool.not_eq_true] at hv
      rw [hv, Bool.not_false, Bool.and_true]
      rfl
  have hbefore : (toChange s table).length = table.countP fun r => s.changes r && inGraph r := by
    rw [toChange, ← List.countP_eq_length_filter]
  have hupdated : (backfillBatch s batchSize table).1.updatedRuns =
      table.countP fun r => (s.changes r && inGraph r) && keys.contains r.key := by
    show table.countP (fun r => keys.contains r.key) = _
    refine List.countP_congr fun r hr => ?_
    rw [Bool.and_eq_true (s.changes r && inGraph r)]
    refine ⟨fun h => ⟨?_, h⟩, fun h => h.2⟩
    exact (List.mem_filter.1 (toChange_of_victim hkeys hr h)).2
  have hsplit := List.countP_eq_countP_filter_add table (fun r => s.changes r && inGraph r) fun r => keys.contains r.key
  rw [List.countP_filter, List.countP_filter] at hsplit
  rw [hafter, hbefore, hupdated, hsplit]

theorem mem_batch_of_not (hkeys : (table.map (·.key)).Nodup) (hr : r ∈ table) (hnot : r ∉ toChange s table) :
    r ∈ (backfillBatch s batchSize table).2 := by
  refine List.mem_map.2 ⟨r, hr, if_neg fun h => hnot (toChange_of_victim hkeys hr h)⟩

theorem mem_batch (hr : r ∈ table) : changeRow s (victims s batchSize table) r ∈ (backfillBatch s batchSize table).2 :=
  List.mem_map_of_mem hr

end Batch

/-! ## Call after call -/

/-- Calls of the backfill, one after the other, with no other writer: the tables between them, and their results. -/
structure Calls (selector : BackfillSelector) (batchSize : Int) (table : List GraphRun) (tables : Nat → List GraphRun)
    (result : Nat → BackfillResult) : Prop where
  start : tables 0 = table
  call : ∀ n, backfillWorkflowRunRetentionClass selector batchSize (tables n) = .ok (result n, tables (n + 1))

/-- The calls do what the preview says. -/
structure AsPreviewed (s : NormalizedSelector) (table : List GraphRun) (preview : BackfillPreview) (tables : Nat → List GraphRun)
    (result : Nat → BackfillResult) : Prop where
  ends : ∃ n, (result n).remainingRuns = 0
  total : ∀ n, (result n).remainingRuns = 0 → ((List.range (n + 1)).map fun i => (result i).updatedRuns).sum = preview.eligibleRuns
  remaining : ∀ n, (result n).remainingRuns = (toChange s (tables (n + 1))).length
  changed : ∀ n, (result n).remainingRuns = 0 → ∀ r ∈ table, r.retentionClass ≠ .persistent →
    (∃ root, Member s (table.map (·.node)) r.key root) → ∃ r' ∈ tables (n + 1), r'.key = r.key ∧ r'.retentionClass = s.retentionClass
  others : ∀ n, ∀ r ∈ table, (r.retentionClass = .persistent ∨ ∀ root, ¬ Member s (table.map (·.node)) r.key root) → r ∈ tables n

/-- What the calls so far leave. -/
structure Progress (s : NormalizedSelector) (table : List GraphRun) (tables : Nat → List GraphRun) (result : Nat → BackfillResult)
    (n : Nat) : Prop where
  nodes : (tables n).map (·.node) = table.map (·.node)
  counted : ((List.range n).map fun i => (result i).updatedRuns).sum + (toChange s (tables n)).length = (toChange s table).length
  changed : ∀ r ∈ table, r.retentionClass ≠ .persistent →
    ∃ r' ∈ tables n, r'.key = r.key ∧ (r'.retentionClass = s.retentionClass ∨ r'.retentionClass ≠ .persistent)
  others : ∀ r ∈ table, (r.retentionClass = .persistent ∨ ∀ root, ¬ Member s (table.map (·.node)) r.key root) → r ∈ tables n
  left : ∀ r ∈ tables n, s.changes r = true → r ∈ table

section Repeated

variable {selector : BackfillSelector} {s : NormalizedSelector} {batchSize : Int} {table : List GraphRun} {tables : Nat → List GraphRun}
  {result : Nat → BackfillResult} {preview : BackfillPreview} {n : Nat}

theorem backfill_ok (hs : normalizeSelector selector = .ok s) (hb : 0 < batchSize) (table : List GraphRun) :
    backfillWorkflowRunRetentionClass selector batchSize table = .ok (backfillBatch s batchSize.toNat table) := by
  unfold backfillWorkflowRunRetentionClass assertPositiveInteger
  rw [hs, if_neg (by omega)]
  rfl

theorem keys_of_nodes {table table' : List GraphRun} (h : table'.map (·.node) = table.map (·.node)) :
    table'.map (·.key) = table.map (·.key) := by
  have hkeys := congrArg (List.map RunNode.key) h
  rwa [List.map_map, List.map_map] at hkeys

/-- One call more. -/
theorem Progress.step (hkeys : (table.map (·.key)).Nodup) (hp : Progress s table tables result n) {b : Nat}
    (hcall : (result n, tables (n + 1)) = backfillBatch s b (tables n)) : Progress s table tables result (n + 1) := by
  have hres : result n = (backfillBatch s b (tables n)).1 := congrArg Prod.fst hcall
  have htab : tables (n + 1) = (backfillBatch s b (tables n)).2 := congrArg Prod.snd hcall
  have hkeys' : ((tables n).map (·.key)).Nodup := by
    rw [keys_of_nodes hp.nodes]
    exact hkeys
  refine ⟨?_, ?_, fun r hr hc => ?_, fun r hr ho => ?_, fun r hr hc => ?_⟩
  · rw [htab, nodes_batch, hp.nodes]
  · have hbatch : (backfillBatch s b (tables n)).1.updatedRuns + (toChange s (backfillBatch s b (tables n)).2).length =
        (toChange s (tables n)).length := length_toChange_batch hkeys'
    rw [← hres, ← htab] at hbatch
    rw [List.range_succ, List.map_append, List.sum_append, List.map_singleton, List.sum_singleton, ← hp.counted]
    omega
  · obtain ⟨r', hr', hk, hclass⟩ := hp.changed r hr hc
    refine ⟨changeRow s _ r', by rw [htab]; exact mem_batch hr', ?_⟩
    unfold changeRow
    split
    · exact ⟨hk, .inl rfl⟩
    · exact ⟨hk, hclass⟩
  · rw [htab]
    refine mem_batch_of_not hkeys' (hp.others r hr ho) fun hin => ?_
    obtain ⟨-, hc, root, hm⟩ := mem_toChange.1 hin
    rw [hp.nodes] at hm
    rcases ho with hpers | hno
    · rw [NormalizedSelector.changes, hpers] at hc
      simp at hc
    · exact hno root hm
  · rw [htab] at hr
    obtain ⟨r', hr', rfl⟩ := List.mem_map.1 hr
    split at hc
    · simp [NormalizedSelector.changes] at hc
    · rename_i hv
      rw [if_neg hv]
      exact hp.left r' hr' hc

theorem progress (hs : normalizeSelector selector = .ok s) (hb : 0 < batchSize) (hkeys : (table.map (·.key)).Nodup)
    (h : Calls selector batchSize table tables result) (n : Nat) : Progress s table tables result n := by
  induction n with
  | zero =>
    refine ⟨by rw [h.start], ?_, fun r hr hc => ⟨r, by rw [h.start]; exact hr, rfl, .inr hc⟩, fun r hr _ => by rw [h.start]; exact hr,
      fun r hr _ => by rwa [h.start] at hr⟩
    rw [h.start]
    exact Nat.zero_add _
  | succ n ih => exact ih.step hkeys (Except.ok.inj ((h.call n).symm.trans (backfill_ok hs hb _)))

/-- What is left after a call is what the preview would count then. -/
theorem remainingRuns_eq (hs : normalizeSelector selector = .ok s) (hb : 0 < batchSize)
    (h : Calls selector batchSize table tables result) (n : Nat) :
    (result n).remainingRuns = (joined s (tables (n + 1))).countP s.changes := by
  have hcall := Except.ok.inj ((h.call n).symm.trans (backfill_ok hs hb _))
  rw [show result n = (backfillBatch s batchSize.toNat (tables n)).1 from congrArg Prod.fst hcall,
    show tables (n + 1) = (backfillBatch s batchSize.toNat (tables n)).2 from congrArg Prod.snd hcall]
  rfl

theorem remainingRuns_eq_zero (hs : normalizeSelector selector = .ok s) (hb : 0 < batchSize)
    (h : Calls selector batchSize table tables result) (n : Nat) :
    (result n).remainingRuns = 0 ↔ toChange s (tables (n + 1)) = [] := by
  rw [remainingRuns_eq hs hb h, joined_eq_zero]

/-- The calls come to an end. -/
theorem exists_remainingRuns_eq_zero (hs : normalizeSelector selector = .ok s) (hb : 0 < batchSize) (hkeys : (table.map (·.key)).Nodup)
    (h : Calls selector batchSize table tables result) : ∃ n, (result n).remainingRuns = 0 := by
  by_contra hnever
  have hleft : ∀ n, toChange s (tables (n + 1)) ≠ [] := fun n hnil => hnever ⟨n, (remainingRuns_eq_zero hs hb h n).2 hnil⟩
  have hless : ∀ n, n + (toChange s (tables (n + 1))).length ≤ (toChange s (tables 1)).length := by
    intro n
    induction n with
    | zero => exact Nat.le_of_eq (Nat.zero_add _)
    | succ n ih =>
      have hkeys' : ((tables (n + 1)).map (·.key)).Nodup := by
        rw [keys_of_nodes (progress hs hb hkeys h (n + 1)).nodes]
        exact hkeys
      have hcall := Except.ok.inj ((h.call (n + 1)).symm.trans (backfill_ok hs hb _))
      have hbatch : (backfillBatch s batchSize.toNat (tables (n + 1))).1.updatedRuns +
          (toChange s (backfillBatch s batchSize.toNat (tables (n + 1))).2).length = (toChange s (tables (n + 1))).length :=
        length_toChange_batch hkeys'
      have hpos : 0 < (backfillBatch s batchSize.toNat (tables (n + 1))).1.updatedRuns := updatedRuns_pos (by omega) (hleft n)
      rw [← hcall] at hbatch hpos
      dsimp only at hbatch hpos
      omega
  have hall := hless (toChange s (tables 1)).length
  have hnil := List.length_eq_zero_iff.1 (show (toChange s (tables ((toChange s (tables 1)).length + 1))).length = 0 by omega)
  exact hleft _ hnil

/-- One root is enough at every call. -/
theorem UnderOneRoot.later (hp : Progress s table tables result n) (h : UnderOneRoot s table) : UnderOneRoot s (tables n) := by
  intro r hr hc root root' hm hm'
  rw [hp.nodes] at hm hm'
  exact h r (hp.left r hr hc) hc root root' hm hm'

end Repeated

/-- The calls do what the preview says if and only if no run that is to change is in the graph under two roots: the preview
and the remaining runs are counted for each root apart. -/
theorem backfill_as_previewed_iff (selector : BackfillSelector) (s : NormalizedSelector) (hs : normalizeSelector selector = .ok s)
    (batchSize : Int) (hb : 0 < batchSize) (table : List GraphRun) (hkeys : (table.map (·.key)).Nodup) :
    ∃ preview tables result, previewWorkflowRunRetentionBackfill selector table = .ok preview ∧
      Calls selector batchSize table tables result ∧ (AsPreviewed s table preview tables result ↔ UnderOneRoot s table) := by
  let tables : Nat → List GraphRun := fun n => (fun t => (backfillBatch s batchSize.toNat t).2)^[n] table
  have h : Calls selector batchSize table tables fun n => (backfillBatch s batchSize.toNat (tables n)).1 := by
    refine ⟨rfl, fun n => ?_⟩
    have hnext : tables (n + 1) = (backfillBatch s batchSize.toNat (tables n)).2 := Function.iterate_succ_apply' ..
    rw [backfill_ok hs hb, hnext]
  generalize (fun n => (backfillBatch s batchSize.toNat (tables n)).1) = result at h
  have hpreview : previewWorkflowRunRetentionBackfill selector table = .ok
      { matchedRoots := (roots s (table.map (·.node))).length
        eligibleRuns := (joined s table).countP s.changes
        excludedPersistentRuns := (joined s table).countP fun r => r.retentionClass == .persistent } := by
    unfold previewWorkflowRunRetentionBackfill
    rw [hs]
    rfl
  have hp := progress hs hb hkeys h
  -- all that is counted over the calls are the runs that were to change
  have htotal : ∀ n, (result n).remainingRuns = 0 →
      ((List.range (n + 1)).map fun i => (result i).updatedRuns).sum = (toChange s table).length := by
    intro n hn
    have hcounted := (hp (n + 1)).counted
    rwa [(remainingRuns_eq_zero hs hb h n).1 hn, List.length_nil, Nat.add_zero] at hcounted
  refine ⟨_, tables, result, hpreview, h, fun has => ?_, fun hone => ?_⟩
  · obtain ⟨n, hn⟩ := has.ends
    exact (countP_joined_eq_iff hkeys).1 ((has.total n hn).symm.trans (htotal n hn))
  · refine ⟨exists_remainingRuns_eq_zero hs hb hkeys h, fun n hn => ?_, fun n => ?_, fun n hn r hr hc hm => ?_, fun n => (hp n).others⟩
    · exact (htotal n hn).trans ((countP_joined_eq_iff hkeys).2 hone).symm
    · rw [remainingRuns_eq hs hb h, countP_joined_eq_iff]
      · exact hone.later (hp (n + 1))
      · rw [keys_of_nodes (hp (n + 1)).nodes]
        exact hkeys
    · obtain ⟨r', hr', hk, hclass⟩ := (hp (n + 1)).changed r hr hc
      refine ⟨r', hr', hk, by_contra fun hsel => ?_⟩
      -- such a run would still be to change
      have hin : r' ∈ toChange s (tables (n + 1)) := by
        refine mem_toChange.2 ⟨hr', ?_, by rw [(hp (n + 1)).nodes, hk]; exact hm⟩
        rw [NormalizedSelector.changes, Bool.and_eq_true, bne_iff_ne, bne_iff_ne]
        exact ⟨hsel, hclass.resolve_left hsel⟩
      rw [(remainingRuns_eq_zero hs hb h n).1 hn] at hin
      cases hin

/-- The runs that a schedule triggered. -/
def schedulerSelector : BackfillSelector := ⟨"proj_example", "$eve.trigger", "channel:eveland-scheduler", .ephemeral⟩

theorem backfill_as_previewed_iff_child :
    let s : NormalizedSelector := ⟨"proj_example", "$eve.trigger", "channel:eveland-scheduler", .scheduled⟩
    let table : List GraphRun :=
      [⟨⟨("proj_example", "root"), [("$eve.trigger", "channel:eveland-scheduler")]⟩, .running, 0, .interactive⟩,
        ⟨⟨("proj_example", "child"), [("$parentRunId", "root")]⟩, .completed, 1, .interactive⟩]
    ∃ preview tables result, previewWorkflowRunRetentionBackfill schedulerSelector table = .ok preview ∧
      Calls schedulerSelector 1 table tables result ∧ (AsPreviewed s table preview tables result ↔ UnderOneRoot s table) :=
  backfill_as_previewed_iff schedulerSelector _ (by decide +kernel) 1 (by decide) _ (by decide +kernel)

/-- Where a root descends from another one, a preview of three runs is of two, and after the first call two runs remain where
one does. -/
theorem backfill_counts_roots :
    let table : List GraphRun :=
      [⟨⟨("proj_example", "root"), [("$eve.trigger", "channel:eveland-scheduler")]⟩, .running, 0, .interactive⟩,
        ⟨⟨("proj_example", "child"), [("$parentRunId", "root"), ("$eve.trigger", "channel:eveland-scheduler")]⟩, .completed, 1,
          .interactive⟩]
    previewWorkflowRunRetentionBackfill schedulerSelector table = .ok ⟨2, 3, 0⟩ ∧
    (backfillWorkflowRunRetentionClass schedulerSelector 5 table).map (·.1) = .ok ⟨2, 0, false⟩ ∧
    (backfillWorkflowRunRetentionClass schedulerSelector 1 table).map (fun r => (r.1, (toChange
      ⟨"proj_example", "$eve.trigger", "channel:eveland-scheduler", .scheduled⟩ r.2).length)) = .ok (⟨1, 2, true⟩, 1) := by
  decide +kernel

end WorkflowWorld.RetentionBackfill
