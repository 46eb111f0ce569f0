/-
Embedded recovery (`src/recovery.ts`): `reenqueueTenantRuns` pages through a tenant's pending runs and then
through its running ones by `runs.list` (`src/storage.ts`), while the table goes on changing.
-/
import WorkflowWorld.Dispatcher.BootRecovery
import WorkflowWorld.Concurrency.Machine
import WorkflowWorld.Lists.Pages
import Mathlib.Data.String.Basic

namespace WorkflowWorld.Dispatcher

open Lists Machine

/-! ## `runs.list` -/

structure ListRunsParams where
  workflowName : Option String := none
  status : Option (List RunStatus) := none
  cursor : Option RunId := none
  limit : Option Nat := none
  deriving DecidableEq, Repr

structure RunPage where
  data : List RunEntry
  hasMore : Bool
  cursor : Option RunId
  deriving DecidableEq, Repr

def RunEntry.key (r : RunEntry) : RunKey := (r.tenantId, r.id)

/-- The rows that the query asks for, `order by run_id desc`. -/
def selectRuns (tenantId : TenantId) (p : ListRunsParams) (table : List RunEntry) : List RunEntry :=
  (table.filter fun r => r.tenantId == tenantId && preceding (·.id) p.cursor r && p.workflowName.all (· == r.name) &&
    p.status.all (·.contains r.status)).insertionSort fun a b => a.id ≥ b.id

def listRuns (tenantId : TenantId) (p : ListRunsParams) (table : List RunEntry) : RunPage :=
  let limit := p.limit.getD 20
  let all := (selectRuns tenantId p table).take (limit + 1)
  let values := all.take limit
  { data := values, hasMore := all.length > limit, cursor := values.getLast?.map (·.id) }

/-! ## What happens to the table -/

/-- What the World, or retention, does to a run. -/
inductive RunChange where
  | created (r : RunEntry)
  | started (k : RunKey)
  | settled (k : RunKey) (status : RunStatus)
  | pruned (k : RunKey)
  deriving DecidableEq, Repr

namespace RunChange

/-- A run is created once, starts where it is pending, and is settled where it is not. -/
def apply (table : List RunEntry) : RunChange → Option (List RunEntry)
  | created r => if table.any (·.key == r.key) then none else some (table ++ [r])
  | started k => some (table.map fun r => if r.key == k && r.status == .pending then { r with status := .running } else r)
  | settled k status =>
    if status.isTerminal then
      some (table.map fun r => if r.key == k && !r.status.isTerminal then { r with status := status } else r)
    else none
  | pruned k => some (table.filter fun r => !(r.key == k && r.status.isTerminal))

def creates : RunChange → Bool
  | created _ => true
  | _ => false

end RunChange

/-! ## The loop -/

/-- What the loop holds while it goes through a page: the statuses to come, and what the page says. -/
structure PageLoop where
  status : RunStatus
  rest : List RunStatus
  hasMore : Bool
  cursor : Option RunId
  deriving DecidableEq, Repr

/-- The await that the loop is at. -/
inductive SweepPhase where
  | listing (status : RunStatus) (rest : List RunStatus) (cursor : Option RunId)
  | enqueueing (run : RunEntry) (left : List RunEntry) (loop : PageLoop)
  | ended
  deriving DecidableEq, Repr

/-- The end of a page: the next one, or the first one of the next status. -/
def PageLoop.next (l : PageLoop) : SweepPhase :=
  if l.hasMore then .listing l.status l.rest l.cursor
  else match l.rest with
    | [] => .ended
    | status :: rest => .listing status rest none

/-- The runs of a page that are left. -/
def PageLoop.goOn (l : PageLoop) : List RunEntry → SweepPhase
  | [] => l.next
  | run :: left => .enqueueing run left l

structure TenantSweep where
  table : List RunEntry
  phase : SweepPhase := .listing .pending [.running] none
  /-- The calls of `enqueue` that succeeded. -/
  enqueued : List (String × RunId) := []
  deriving DecidableEq, Repr

/-- A page is read, a call of `enqueue` answers, or the table changes. -/
inductive SweepEvent where
  | listed
  | answered (ok : Bool)
  | changed (c : RunChange)
  deriving DecidableEq, Repr

/-- One await of `reenqueueTenantRuns`, or a change beside it. -/
def sweepStep (tenantId : TenantId) : SweepEvent → TenantSweep → Option TenantSweep
  | .listed, s =>
    match s.phase with
    | .listing status rest cursor =>
      let page := listRuns tenantId { status := some [status], cursor } s.table
      some { s with phase := PageLoop.goOn ⟨status, rest, page.hasMore, page.cursor⟩ page.data }
    | _ => none
  | .answered ok, s =>
    match s.phase with
    | .enqueueing run left loop =>
      -- a failed call is logged and the loop goes on
      some { s with phase := loop.goOn left, enqueued := if ok then s.enqueued ++ [(run.name, run.id)] else s.enqueued }
    | _ => none
  | .changed c, s => (c.apply s.table).map fun table => { s with table }

/-! ## The table -/

section Table

variable {table table' : List RunEntry} {c : RunChange} {k : RunKey}

/-- The run has a row that is pending or running. -/
def activeIn (table : List RunEntry) (k : RunKey) : Bool := table.any fun r => r.key == k && !r.status.isTerminal

theorem activeIn_iff : activeIn table k = true ↔ ∃ r ∈ table, r.key = k ∧ r.status.isTerminal = false := by
  simp [activeIn]

/-- A change leaves each row where it is, or takes its status on; it adds a row under a new key at most. -/
theorem RunChange.mem_apply (h : c.apply table = some table') {r' : RunEntry} (hr : r' ∈ table') :
    (∃ r ∈ table, r' = { r with status := r'.status } ∧
      (r'.status = r.status ∨ r.status = .pending ∧ r'.status = .running ∨ r'.status.isTerminal = true)) ∨
    c = .created r' ∧ ∀ r ∈ table, r.key ≠ r'.key := by
  cases c with
  | created r₀ =>
    rw [apply] at h
    split at h
    · cases h
    · rename_i hnew
      cases h
      rcases List.mem_append.1 hr with hr | hr
      · exact .inl ⟨r', hr, rfl, .inl rfl⟩
      · rw [List.mem_singleton.1 hr]
        refine .inr ⟨rfl, fun r hr₀ heq => hnew ?_⟩
        exact List.any_eq_true.2 ⟨r, hr₀, beq_iff_eq.2 heq⟩
  | started k =>
    cases h
    obtain ⟨r, hr₀, rfl⟩ := List.mem_map.1 hr
    refine .inl ⟨r, hr₀, ?_⟩
    split
    · rename_i hc
      rw [Bool.and_eq_true, beq_iff_eq, beq_iff_eq] at hc
      exact ⟨rfl, .inr (.inl ⟨hc.2, rfl⟩)⟩
    · exact ⟨rfl, .inl rfl⟩
  | settled k status =>
    rw [apply] at h
    split at h
    · rename_i hterm
      cases h
      obtain ⟨r, hr₀, rfl⟩ := List.mem_map.1 hr
      refine .inl ⟨r, hr₀, ?_⟩
      split
      · exact ⟨rfl, .inr (.inr hterm)⟩
      · exact ⟨rfl, .inl rfl⟩
    · cases h
  | pruned k =>
    cases h
    exact .inl ⟨r', (List.mem_filter.1 hr).1, rfl, .inl rfl⟩

theorem key_status (r : RunEntry) (status : RunStatus) : ({ r with status := status } : RunEntry).key = r.key := rfl

/-- The keys stay apart. -/
theorem RunChange.nodup_apply (h : c.apply table = some table') (hn : (table.map (·.key)).Nodup) :
    (table'.map (·.key)).Nodup := by
  have hsame : ∀ f : RunEntry → RunEntry, (∀ r, (f r).key = r.key) → ((table.map f).map (·.key)).Nodup := by
    intro f hf
    rw [List.map_map]
    exact (List.map_congr_left fun r _ => hf r) ▸ hn
  cases c with
  | created r₀ =>
    rw [apply] at h
    split at h
    · cases h
    · rename_i hnew
      cases h
      rw [List.map_append, List.map_singleton, List.nodup_append]
      refine ⟨hn, List.pairwise_singleton _ _, fun a ha b hb heq => hnew ?_⟩
      obtain ⟨r, hr, rfl⟩ := List.mem_map.1 ha
      rw [List.mem_singleton.1 hb] at heq
      exact List.any_eq_true.2 ⟨r, hr, beq_iff_eq.2 heq⟩
  | started k =>
    cases h
    refine hsame _ fun r => ?_
    split <;> rfl
  | settled k status =>
    rw [apply] at h
    split at h
    · cases h
      refine hsame _ fun r => ?_
      split <;> rfl
    · cases h
  | pruned k =>
    cases h
    exact hn.sublist (List.filter_sublist.map _)

/-- The rows of a kind that the status does not decide become no more, unless one is created. -/
theorem RunChange.countP_apply (h : c.apply table = some table') (hc : c.creates = false) {p : RunEntry → Bool}
    (hp : ∀ r status, p { r with status := status } = p r) : table'.countP p ≤ table.countP p := by
  have hsame : ∀ f : RunEntry → RunEntry, (∀ r, p (f r) = p r) → (table.map f).countP p ≤ table.countP p := by
    intro f hf
    rw [List.countP_map]
    exact Nat.le_of_eq (congrArg (List.countP · table) (funext hf))
  cases c with
  | created r₀ => cases hc
  | started k =>
    cases h
    refine hsame _ fun r => ?_
    split
    · exact hp r _
    · rfl
  | settled k status =>
    rw [apply] at h
    split at h
    · cases h
      refine hsame _ fun r => ?_
      split
      · exact hp r _
      · rfl
    · cases h
  | pruned k =>
    cases h
    exact List.filter_sublist.countP_le

end Table

/-! ## Pages -/

section Page

variable {tenantId : TenantId} {p : ListRunsParams} {table : List RunEntry} {r : RunEntry}

theorem mem_selectRuns : r ∈ selectRuns tenantId p table ↔ r ∈ table ∧ r.tenantId = tenantId ∧
    preceding (·.id) p.cursor r ∧ p.workflowName.all (· == r.name) ∧ p.status.all (·.contains r.status) := by
  unfold selectRuns
  rw [List.mem_insertionSort, List.mem_filter]
  simp only [Bool.and_eq_true, beq_iff_eq, and_assoc]

/-- The rows come in the order of their ids, from the last one. -/
theorem pairwise_selectRuns (hn : (table.map (·.key)).Nodup) : (selectRuns tenantId p table).Pairwise fun a b => b.id < a.id := by
  have hids : (selectRuns tenantId p table).Pairwise fun a b => a.id ≠ b.id := by
    unfold selectRuns
    refine (List.perm_insertionSort _ _).symm.pairwise ?_ fun h => h.symm
    have hkeys : table.Pairwise fun a b => a.key ≠ b.key := List.pairwise_map.1 hn
    refine (List.pairwise_filter.2 (hkeys.imp fun hne ha hb hid => hne ?_))
    simp only [Bool.and_eq_true, beq_iff_eq] at ha hb
    exact Prod.ext (ha.1.1.1.trans hb.1.1.1.symm) hid
  exact ((List.pairwise_insertionSort _ _).and hids).imp fun ⟨hle, hne⟩ => lt_of_le_of_ne hle fun h => hne h.symm

theorem length_listRuns_le : (listRuns tenantId p table).data.length ≤ p.limit.getD 20 := by
  unfold listRuns
  exact List.length_take_le _ _

/-- A row that is asked for is on the page, or the page says that there are more and its cursor is before the row. -/
theorem listRuns_covers (hn : (table.map (·.key)).Nodup) (hr : r ∈ selectRuns tenantId p table) :
    r ∈ (listRuns tenantId p table).data ∨
      (listRuns tenantId p table).hasMore = true ∧ preceding (·.id) (listRuns tenantId p table).cursor r := by
  unfold listRuns
  set all := selectRuns tenantId p table with hall
  set limit := p.limit.getD 20
  have hdata : (all.take (limit + 1)).take limit = all.take limit := by
    rw [List.take_take, Nat.min_eq_left (Nat.le_succ _)]
  simp only [hdata]
  have hsplit : all.take limit ++ all.drop limit = all := List.take_append_drop limit all
  rw [← hsplit] at hr
  rcases List.mem_append.1 hr with hr | hr
  · exact .inl hr
  have hlen : limit < all.length := by
    have hpos := List.length_pos_of_mem hr
    rw [List.length_drop] at hpos
    omega
  have hpw : (selectRuns tenantId p table).Pairwise fun a b => b.id < a.id := pairwise_selectRuns hn
  rw [← hall, ← hsplit] at hpw
  refine .inr ⟨by rw [decide_eq_true_eq, List.length_take]; omega, ?_⟩
  rcases hlast : (all.take limit).getLast? with _ | y
  · rfl
  · have hlt := (List.pairwise_append.1 hpw).2.2 y (List.mem_of_getLast? hlast) r hr
    simpa [preceding] using hlt

/-- A page that leaves something has a row, whose id is its cursor. -/
theorem cursor_listRuns (hl : 1 ≤ p.limit.getD 20) (hmore : (listRuns tenantId p table).hasMore = true) :
    ∃ r ∈ selectRuns tenantId p table, (listRuns tenantId p table).cursor = some r.id := by
  unfold listRuns at hmore ⊢
  simp only [decide_eq_true_eq] at hmore ⊢
  rcases hlast : (((selectRuns tenantId p table).take (p.limit.getD 20 + 1)).take (p.limit.getD 20)).getLast? with _ | y
  · rw [List.getLast?_eq_none_iff] at hlast
    have hlen := congrArg List.length hlast
    rw [List.length_take, List.length_nil] at hlen
    omega
  · exact ⟨y, List.mem_of_mem_take (List.mem_of_mem_take (List.mem_of_getLast? hlast)), rfl⟩

end Page

/-! ## Coverage -/

namespace SweepPhase

/-- The pages to come list a run of this id while it has this status. -/
def Lists (x : RunId) (status : RunStatus) : SweepPhase → Prop
  | .listing st rest cursor => st = status ∧ preceding (fun y => y) cursor x ∨ status ∈ rest
  | _ => False

/-- The run is on the page that the loop goes through, or on one to come. -/
def Ahead (x : RunId) (status : RunStatus) : SweepPhase → Prop
  | .enqueueing run left loop => x ∈ (run :: left).map (·.id) ∨ loop.next.Lists x status
  | phase => phase.Lists x status

/-- The running runs come after the pending ones. -/
def InOrder (status : RunStatus) (rest : List RunStatus) : Prop :=
  status = .pending ∧ rest = [.running] ∨ status = .running ∧ rest = []

def Ordered : SweepPhase → Prop
  | .listing status rest _ => InOrder status rest
  | .enqueueing _ _ loop => InOrder loop.status loop.rest
  | .ended => True

end SweepPhase

namespace PageLoop

variable {l : PageLoop} {data : List RunEntry} {x : RunId} {status : RunStatus}

theorem next_ordered (h : SweepPhase.InOrder l.status l.rest) : l.next.Ordered := by
  unfold next
  split
  · exact h
  · rcases h with ⟨-, hr⟩ | ⟨-, hr⟩
    · rw [hr]
      exact .inr ⟨rfl, rfl⟩
    · rw [hr]
      trivial

theorem goOn_ordered (h : SweepPhase.InOrder l.status l.rest) : (l.goOn data).Ordered := by
  cases data with
  | nil => exact next_ordered h
  | cons run left => exact h

theorem goOn_ahead (h : x ∈ data.map (·.id) ∨ l.next.Lists x status) : (l.goOn data).Ahead x status := by
  cases data with
  | nil =>
    have hn : l.next.Lists x status := h.resolve_left List.not_mem_nil
    show l.next.Ahead x status
    cases hp : l.next with
    | listing => rwa [hp] at hn
    | enqueueing => rw [hp] at hn; exact hn.elim
    | ended => rw [hp] at hn; exact hn.elim
  | cons run left => exact h

/-- A status to come is listed from its first page on. -/
theorem next_lists_of_mem (h : status ∈ l.rest) : l.next.Lists x status := by
  unfold next
  split
  · exact .inr h
  · cases hr : l.rest with
    | nil => rw [hr] at h; cases h
    | cons st rest =>
      rw [hr] at h
      rcases List.mem_cons.1 h with rfl | h
      · exact .inl ⟨rfl, rfl⟩
      · exact .inr h

end PageLoop

namespace SweepPhase

/-- A run that starts meanwhile is listed among the running ones. -/
theorem Lists.started {p : SweepPhase} (ho : p.Ordered) {x : RunId} (h : p.Lists x .pending) : p.Lists x .running := by
  cases p with
  | listing st rest cursor =>
    rcases ho with ⟨rfl, rfl⟩ | ⟨rfl, rfl⟩
    · exact .inr (List.mem_singleton_self _)
    · rcases h with ⟨h, -⟩ | h <;> cases h
  | enqueueing => exact h
  | ended => exact h

theorem Ahead.started {p : SweepPhase} (ho : p.Ordered) {x : RunId} (h : p.Ahead x .pending) : p.Ahead x .running := by
  cases p with
  | listing st rest cursor => exact Lists.started ho h
  | enqueueing run left loop => exact h.imp_right (Lists.started (PageLoop.next_ordered ho))
  | ended => exact h

end SweepPhase

section Coverage

variable {tenantId : TenantId} {x : RunId} {s s' : TenantSweep} {e : SweepEvent}

/-- The primary key, and the order of the two passes. -/
structure TenantSweep.Sound (s : TenantSweep) : Prop where
  keys : (s.table.map (·.key)).Nodup
  ordered : s.phase.Ordered

/-- The run was enqueued, or the sweep has it ahead with the status that it has. -/
def TenantSweep.Covers (k : RunKey) (s : TenantSweep) : Prop :=
  k.2 ∈ s.enqueued.map (·.2) ∨ ∃ r ∈ s.table, r.key = k ∧ r.status.isTerminal = false ∧ s.phase.Ahead k.2 r.status

theorem sound_step (h : sweepStep tenantId e s = some s') (hs : s.Sound) : s'.Sound := by
  obtain ⟨hkeys, hord⟩ := hs
  cases e with
  | listed =>
    rw [sweepStep] at h
    split at h
    · rename_i st rest cursor hp
      cases h
      rw [hp] at hord
      exact ⟨hkeys, PageLoop.goOn_ordered hord⟩
    · cases h
  | answered ok =>
    rw [sweepStep] at h
    split at h
    · rename_i run left loop hp
      cases h
      rw [hp] at hord
      exact ⟨hkeys, PageLoop.goOn_ordered hord⟩
    · cases h
  | changed c =>
    obtain ⟨table, hc, rfl⟩ := Option.map_eq_some_iff.1 h
    exact ⟨RunChange.nodup_apply hc hkeys, hord⟩

/-- What a page read leaves ahead. -/
theorem ahead_listed {st : RunStatus} {rest : List RunStatus} {cursor : Option RunId} {table : List RunEntry}
    (hkeys : (table.map (·.key)).Nodup) {r : RunEntry} (hr : r ∈ table) (hkey : r.key = (tenantId, x))
    (h : (SweepPhase.listing st rest cursor).Ahead x r.status) :
    (PageLoop.goOn ⟨st, rest, (listRuns tenantId { status := some [st], cursor } table).hasMore,
      (listRuns tenantId { status := some [st], cursor } table).cursor⟩
      (listRuns tenantId { status := some [st], cursor } table).data).Ahead x r.status := by
  refine PageLoop.goOn_ahead ?_
  obtain ⟨htenant, rfl⟩ := Prod.mk.inj hkey
  rcases h with ⟨rfl, hprec⟩ | hrest
  · have hsel : r ∈ selectRuns tenantId { status := some [r.status], cursor } table :=
      mem_selectRuns.2 ⟨hr, htenant, hprec, rfl, by simp⟩
    rcases listRuns_covers hkeys hsel with hin | ⟨hmore, hprec'⟩
    · exact .inl (List.mem_map_of_mem hin)
    · refine .inr ?_
      unfold PageLoop.next
      rw [if_pos hmore]
      exact .inl ⟨rfl, hprec'⟩
  · exact .inr (PageLoop.next_lists_of_mem hrest)

theorem covers_step (h : sweepStep tenantId e s = some s') (hok : e ≠ .answered false) (hs : s.Sound)
    (hcov : s.Covers (tenantId, x)) (hact : activeIn s'.table (tenantId, x) = true) : s'.Covers (tenantId, x) := by
  cases e with
  | listed =>
    rw [sweepStep] at h
    split at h
    · rename_i st rest cursor hp
      cases h
      rcases hcov with hin | ⟨r, hr, hkey, hlive, hahead⟩
      · exact .inl hin
      · rw [hp] at hahead
        exact .inr ⟨r, hr, hkey, hlive, ahead_listed hs.keys hr hkey hahead⟩
    · cases h
  | answered ok =>
    rw [sweepStep] at h
    split at h
    · rename_i run left loop hp
      cases ok with
      | false => exact absurd rfl hok
      | true =>
        cases h
        unfold TenantSweep.Covers
        rw [if_pos rfl, List.map_append, List.mem_append]
        rcases hcov with hin | ⟨r, hr, hkey, hlive, hahead⟩
        · exact .inl (.inl hin)
        rw [hp] at hahead
        rcases hahead with hin | hnext
        · rcases List.mem_cons.1 hin with heq | hin
          · exact .inl (.inr (by rw [heq]; exact List.mem_singleton_self _))
          · exact .inr ⟨r, hr, hkey, hlive, PageLoop.goOn_ahead (.inl hin)⟩
        · exact .inr ⟨r, hr, hkey, hlive, PageLoop.goOn_ahead (.inr hnext)⟩
    · cases h
  | changed c =>
    obtain ⟨table, hc, rfl⟩ := Option.map_eq_some_iff.1 h
    rcases hcov with hin | ⟨r, hr, hkey, hlive, hahead⟩
    · exact .inl hin
    obtain ⟨r', hr', hkey', hlive'⟩ := activeIn_iff.1 hact
    refine .inr ⟨r', hr', hkey', hlive', ?_⟩
    rcases RunChange.mem_apply hc hr' with ⟨r₀, hr₀, heq, hmoved⟩ | ⟨-, hnew⟩
    · have hsame : r₀ = r := List.inj_on_of_nodup_map hs.keys hr₀ hr (by rw [hkey, ← hkey', heq]; rfl)
      subst hsame
      rcases hmoved with hst | ⟨hpend, hrun⟩ | hterm
      · rw [hst]
        exact hahead
      · rw [hpend] at hahead
        rw [hrun]
        exact hahead.started hs.ordered
      · rw [hterm] at hlive'
        cases hlive'
    · exact absurd (hkey.trans hkey'.symm) (hnew r hr)

theorem covers_start {table : List RunEntry} {k : RunKey} (hact : activeIn table k = true) :
    ({ table } : TenantSweep).Covers k := by
  obtain ⟨r, hr, hkey, hlive⟩ := activeIn_iff.1 hact
  refine .inr ⟨r, hr, hkey, hlive, ?_⟩
  cases hst : r.status with
  | pending => exact .inl ⟨rfl, rfl⟩
  | running => exact .inr (List.mem_singleton_self _)
  | completed | failed | cancelled => rw [hst] at hlive; cases hlive

end Coverage

/-! ## The end of the sweep -/

section Ends

variable {tenantId : TenantId} {s s' : TenantSweep} {e : SweepEvent}

/-- How many runs of the tenant a cursor has before it. -/
def runsBefore (tenantId : TenantId) (table : List RunEntry) (cursor : Option RunId) : Nat :=
  table.countP fun r => r.tenantId == tenantId && preceding (·.id) cursor r

/-- A bound on the pages that are left to read. -/
def SweepPhase.pages (tenantId : TenantId) (table : List RunEntry) : SweepPhase → Nat
  | .listing _ rest cursor => rest.length * (runsBefore tenantId table none + 1) + runsBefore tenantId table cursor + 1
  | _ => 0

/-- A bound on the awaits that are left: of a page, each of its at most twenty runs and the page itself. -/
def TenantSweep.work (tenantId : TenantId) (s : TenantSweep) : Nat :=
  match s.phase with
  | .enqueueing _ left loop => left.length + 1 + 22 * loop.next.pages tenantId s.table
  | phase => 22 * phase.pages tenantId s.table

theorem work_goOn (loop : PageLoop) (data : List RunEntry) (hp : s.phase = loop.goOn data) :
    s.work tenantId = data.length + 22 * loop.next.pages tenantId s.table := by
  unfold TenantSweep.work
  rw [hp]
  cases data with
  | nil =>
    show (match loop.next with | .enqueueing _ left loop => _ | phase => _) = _
    cases hn : loop.next with
    | listing => exact (Nat.zero_add _).symm
    | enqueueing =>
      unfold PageLoop.next at hn
      split at hn
      · cases hn
      · split at hn <;> cases hn
    | ended => rfl
  | cons run left => rfl

/-- The cursor of a page that leaves something has fewer runs before it. -/
theorem runsBefore_cursor {st : RunStatus} {cursor : Option RunId} {table : List RunEntry}
    (hmore : (listRuns tenantId { status := some [st], cursor } table).hasMore = true) :
    runsBefore tenantId table (listRuns tenantId { status := some [st], cursor } table).cursor < runsBefore tenantId table cursor := by
  obtain ⟨r, hr, hcur⟩ := cursor_listRuns (Nat.le_of_ble_eq_true rfl) hmore
  obtain ⟨hin, htenant, hprec, -, -⟩ := mem_selectRuns.1 hr
  rw [hcur]
  exact countP_preceding_lt hin (beq_iff_eq.2 htenant) hprec

/-- The page just read is one less. -/
theorem pages_listed (st : RunStatus) (rest : List RunStatus) (cursor : Option RunId) (table : List RunEntry) :
    (PageLoop.next ⟨st, rest, (listRuns tenantId { status := some [st], cursor } table).hasMore,
      (listRuns tenantId { status := some [st], cursor } table).cursor⟩).pages tenantId table <
    (SweepPhase.listing st rest cursor).pages tenantId table := by
  unfold PageLoop.next
  split
  · rename_i hmore
    have hlt := runsBefore_cursor hmore
    simp only [SweepPhase.pages]
    omega
  · cases rest with
    | nil => exact Nat.succ_pos _
    | cons st' rest =>
      simp only [SweepPhase.pages, List.length_cons, Nat.succ_mul]
      omega

/-- An await of the sweep leaves less. -/
theorem work_lt (h : sweepStep tenantId e s = some s') (he : ∀ c, e ≠ .changed c) : s'.work tenantId < s.work tenantId := by
  cases e with
  | listed =>
    rw [sweepStep] at h
    split at h
    · rename_i st rest cursor hp
      cases h
      rw [work_goOn _ _ rfl]
      dsimp only
      have hlen : (listRuns tenantId { status := some [st], cursor } s.table).data.length ≤ 20 := length_listRuns_le
      have hpages := @pages_listed tenantId st rest cursor s.table
      have hwork : s.work tenantId = 22 * (SweepPhase.listing st rest cursor).pages tenantId s.table := by
        unfold TenantSweep.work
        rw [hp]
      omega
    · cases h
  | answered ok =>
    rw [sweepStep] at h
    split at h
    · rename_i run left loop hp
      cases h
      rw [work_goOn _ _ rfl]
      dsimp only
      have hwork : s.work tenantId = left.length + 1 + 22 * loop.next.pages tenantId s.table := by
        unfold TenantSweep.work
        rw [hp]
      omega
    · cases h
  | changed c => exact absurd rfl (he c)

/-- A change that creates no run adds no work. -/
theorem work_changed {c : RunChange} (h : sweepStep tenantId (.changed c) s = some s') (hc : c.creates = false) :
    s'.work tenantId ≤ s.work tenantId := by
  obtain ⟨table, ht, rfl⟩ := Option.map_eq_some_iff.1 h
  have hbefore : ∀ cursor, runsBefore tenantId table cursor ≤ runsBefore tenantId s.table cursor := fun cursor =>
    RunChange.countP_apply ht hc fun r status => rfl
  have hpages : ∀ p : SweepPhase, p.pages tenantId table ≤ p.pages tenantId s.table := by
    intro p
    cases p with
    | listing st rest cursor =>
      have hmul : rest.length * (runsBefore tenantId table none + 1) ≤ rest.length * (runsBefore tenantId s.table none + 1) :=
        Nat.mul_le_mul_left _ (Nat.succ_le_succ (hbefore none))
      have hcur := hbefore cursor
      simp only [SweepPhase.pages]
      omega
    | enqueueing => exact Nat.le_refl _
    | ended => exact Nat.le_refl _
  unfold TenantSweep.work
  cases hp : s.phase with
  | enqueueing run left loop => exact Nat.add_le_add_left (Nat.mul_le_mul_left 22 (hpages loop.next)) _
  | listing st rest cursor => exact Nat.mul_le_mul_left 22 (hpages _)
  | ended => exact Nat.mul_le_mul_left 22 (hpages _)

end Ends

/-! ## Embedded recovery -/

/-- The run stays pending or running, and every call of `enqueue` succeeds. -/
def stays (k : RunKey) (e : SweepEvent) (s : TenantSweep) : Bool := activeIn s.table k && e != .answered false

/-- The event is the sweep's own. -/
def SweepEvent.ofSweep (e : SweepEvent) : Prop := ∀ c, e ≠ .changed c

/-- A run that was there before the sweep and stays pending or running until it ends is enqueued. The sweep is never stuck, and
it ends where only finitely many runs are created meanwhile. -/
theorem tenant_recovery_covers (tenantId : TenantId) (table : List RunEntry) (hkeys : (table.map (·.key)).Nodup) :
    (∀ x s', activeIn table (tenantId, x) = true → Reaches (sweepStep tenantId) (stays (tenantId, x)) { table } s' →
      activeIn s'.table (tenantId, x) = true → s'.phase = .ended → x ∈ s'.enqueued.map (·.2)) ∧
    (∀ s : TenantSweep, s.phase ≠ .ended → ∃ e : SweepEvent, e.ofSweep ∧ (sweepStep tenantId e s).isSome) ∧
    ∀ (run : Nat → TenantSweep) (event : Nat → SweepEvent), run 0 = { table } →
      (∀ n, (run n).phase = .ended ∨ sweepStep tenantId (event n) (run n) = some (run (n + 1))) →
      (∃ N, ∀ n ≥ N, ∀ r, event n ≠ .changed (.created r)) →
      (∀ n, ∃ m ≥ n, (run m).phase = .ended ∨ (event m).ofSweep) →
      ∃ n, (run n).phase = .ended := by
  refine ⟨fun x s' hact h hact' hend => ?_, fun s hs => ?_, fun run event _ hstep hfinite hfair => ?_⟩
  · obtain ⟨-, hcov⟩ : s'.Sound ∧ (activeIn s'.table (tenantId, x) = true → s'.Covers (tenantId, x)) := by
      refine h.invariant (P := fun s => s.Sound ∧ (activeIn s.table (tenantId, x) = true → s.Covers (tenantId, x)))
        ⟨⟨hkeys, .inl ⟨rfl, rfl⟩⟩, covers_start⟩ fun e s s' ⟨hsound, hcov⟩ hstays hstep => ?_
      obtain ⟨hlive, hok⟩ := Bool.and_eq_true_iff.1 hstays
      exact ⟨sound_step hstep hsound, covers_step hstep (bne_iff_ne.1 hok) hsound (hcov hlive)⟩
    rcases hcov hact' with hin | ⟨r, -, -, -, hahead⟩
    · exact hin
    · rw [hend] at hahead
      exact hahead.elim
  · cases hp : s.phase with
    | listing st rest cursor => exact ⟨.listed, fun _ => SweepEvent.noConfusion, by rw [sweepStep, hp]; rfl⟩
    | enqueueing run left loop => exact ⟨.answered true, fun _ => SweepEvent.noConfusion, by rw [sweepStep, hp]; rfl⟩
    | ended => exact absurd hp hs
  · obtain ⟨N, hN⟩ := hfinite
    have hless : ∀ n ≥ N, (run n).phase = .ended ∨ ((event n).ofSweep → (run (n + 1)).work tenantId < (run n).work tenantId) ∧
        (run (n + 1)).work tenantId ≤ (run n).work tenantId := by
      intro n hn
      refine (hstep n).imp_right fun h => ⟨work_lt h, ?_⟩
      cases he : event n with
      | changed c =>
        rw [he] at h
        refine work_changed h ?_
        cases c with
        | created r => exact absurd he (hN n hn r)
        | started | settled | pruned => rfl
      | listed | answered => exact (work_lt h (by rw [he]; exact fun _ => SweepEvent.noConfusion)).le
    refine @exists_done_of_measure _ _ (fun s => s.phase = .ended) (TenantSweep.work tenantId) _
      (fun n hn => (hless n hn).imp_right (·.2)) fun n hn => .inr ?_
    obtain ⟨m, hm, hdone | hown⟩ := hfair n
    · exact ⟨m, hm, .inl hdone⟩
    · exact ⟨m, hm, (hless m (Nat.le_trans hn hm)).imp_right fun h => h.1 hown⟩

/-- Where the run starts before the first page is read. -/
theorem tenant_recovery_covers_started :
    let run (id : RunId) (status : RunStatus) : RunEntry := ⟨"t", id, "wf", "d", none, status, 0⟩
    let ended : TenantSweep :=
      { table := [run "r1" .running, run "r2" .running], phase := .ended, enqueued := [("wf", "r2"), ("wf", "r1")] }
    play (sweepStep "t") (stays ("t", "r1")) [.changed (.started ("t", "r1")), .listed, .listed, .answered true, .answered true]
      { table := [run "r1" .pending, run "r2" .running] } = some ended ∧ "r1" ∈ ended.enqueued.map (·.2) := by
  have hplay : play (sweepStep "t") (stays ("t", "r1"))
      [.changed (.started ("t", "r1")), .listed, .listed, .answered true, .answered true]
      { table := [⟨"t", "r1", "wf", "d", none, .pending, 0⟩, ⟨"t", "r2", "wf", "d", none, .running, 0⟩] } =
      some { table := [⟨"t", "r1", "wf", "d", none, .running, 0⟩, ⟨"t", "r2", "wf", "d", none, .running, 0⟩]
             phase := .ended, enqueued := [("wf", "r2"), ("wf", "r1")] } := by
    decide +kernel
  exact ⟨hplay, (tenant_recovery_covers "t" _ (by decide)).1 "r1" _ (by decide) (reaches_play hplay) (by decide) rfl⟩

end WorkflowWorld.Dispatcher
