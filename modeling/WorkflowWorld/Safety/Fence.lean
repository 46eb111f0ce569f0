/-
The in-band count of a run. An in-band create runs in one transaction, which compares the count
under its row's lock and advances it with the first event it appends, so that the count is one more
than the number of in-band creates that appended, and no two of them carried the same expected
count. Two things break this: an append that was given a ULID, which advances nothing, and a savepoint
that is rolled back after the advance, which the fence's own flag survives.
-/
import WorkflowWorld.Safety.Log
import Mathlib.Data.Finset.Card
import Mathlib.Data.Fintype.Basic

namespace WorkflowWorld

open Concurrency Schema

/-! ## Who wrote in-band -/

/-- The request is an in-band write to the run. -/
def CreateReq.inBandOn (r : CreateReq) (K : RunKey) : Bool := r.tenant = K.1 && r.fenced = some K.2

/-- The count that an in-band write to the run expects. -/
def CreateReq.expectedOn (r : CreateReq) (K : RunKey) : Option Nat :=
  if r.inBandOn K then r.expectedSeqInBand.filter (· ≤ maxSafeInteger) else none

section Writers

variable {n : Nat} (requests : Fin n → CreateReq) (K : RunKey)

/-- The in-band creates that have appended to the run's log. -/
def inBandWriters (d : Db) : Finset (Fin n) :=
  Finset.univ.filter fun t => ((requests t).expectedOn K).isSome = true ∧ ∃ e ∈ d.events K, e.writer = t

/-- The count is that of the in-band creates that appended, each of which expected a count of its own.
`base` is the count the run had, or starts with. -/
structure FenceOk (base : Nat) (d : Db) : Prop where
  closed : d.slots.lookup K = none → d.events K = [] ∧ base = 1
  count : ∀ m, d.slots.lookup K = some m → m = base + (inBandWriters requests K d).card
  below : ∀ m, d.slots.lookup K = some m → ∀ t ∈ inBandWriters requests K d, ∀ x, (requests t).expectedOn K = some x → x < m
  once : ∀ t ∈ inBandWriters requests K d, ∀ u ∈ inBandWriters requests K d,
    (requests t).expectedOn K = (requests u).expectedOn K → t = u

/-- The writes advance the run's count. -/
def Advances (ws : List Write) : Prop := ∃ m, Write.updateSlots K m ∈ ws

/-- The marker a transaction found, or its own. -/
def Marker (ws : List Write) (d : Db) (o : Option Nat) : Prop :=
  Opens K ws ∧ o = some 1 ∨ ¬Opens K ws ∧ o = d.slots.lookup K

/-- The pending writes of session `t` advance the count at most once, from the count it expects, and
only with an event. -/
structure FenceDraft (t : Fin n) (ws : List Write) (d : Db) : Prop where
  own : ∀ e ∈ appended K ws, e.writer = t
  marked : appended K ws ≠ [] → d.slotted K = true ∨ Opens K ws
  fresh : ((requests t).expectedOn K).isSome = true → appended K ws ≠ [] → ∀ e ∈ d.events K, e.writer ≠ t
  opens : Opens K ws → d.slots.lookup K = none
  count : ¬Advances K ws ∧ Marker K ws d (Db.slots (schema.applyAll ws d) |>.lookup K) ∨
    ∃ x, (requests t).expectedOn K = some x ∧ Advances K ws ∧ appended K ws ≠ [] ∧ Marker K ws d (some x) ∧
      (Db.slots (schema.applyAll ws d)).lookup K = some (x + 1)

end Writers

section Draft

variable {n : Nat} {requests : Fin n → CreateReq} {K : RunKey} {base : Nat} {t u : Fin n} {ws ws' new : List Write} {d d' : Db}

theorem mem_inBandWriters : t ∈ inBandWriters requests K d ↔
    ((requests t).expectedOn K).isSome = true ∧ ∃ e ∈ d.events K, e.writer = t := by
  unfold inBandWriters; rw [Finset.mem_filter]; simp

variable (requests) in
theorem inBandWriters_empty (h : d.events K = []) : inBandWriters requests K d = ∅ := by
  refine Finset.eq_empty_of_forall_notMem fun u hu => ?_
  obtain ⟨-, e, he, -⟩ := mem_inBandWriters.1 hu
  rw [h] at he; cases he

/-- Writes that leave the run's marker. -/
theorem slots_applyAll (h : ∀ w ∈ ws, ¬w.Marks K) (d : Db) :
    (Db.slots (schema.applyAll ws d)).lookup K = d.slots.lookup K := by
  refine Eq.symm (Schema.State.agree_applyAll (S := schema) (k := .row (.slots K)) ws d fun hin => ?_)
  obtain ⟨w, hw, hk⟩ := List.mem_flatMap.1 hin
  refine h w hw ?_
  cases w with
  | insertSlots k m =>
    simp only [Write.touches, List.mem_cons, Key.row.injEq, RowRef.slots.injEq] at hk
    rcases hk with rfl | hk
    · exact ⟨m, .inl rfl⟩
    · simp at hk
  | updateSlots k m =>
    simp only [Write.touches, List.mem_cons, Key.row.injEq, RowRef.slots.injEq] at hk
    rcases hk with rfl | hk
    · exact ⟨m, .inr rfl⟩
    · simp at hk
  | appendEvent k e => exact absurd hk (by simp only [Write.touches, EventRow.correlatedKey]; split <;> [split; skip] <;> simp)
  | insertHook k r | deleteHook k r =>
    exact absurd hk (by simp only [Write.touches, HookRow.claimKey]; split <;> simp)
  | _ => simp [Write.touches] at hk

theorem marks_touches {w : Write} (h : w.Marks K) : Key.row (.slots K) ∈ w.touches := by
  obtain ⟨m, rfl | rfl⟩ := h <;> simp [Write.touches]

theorem opens_append : Opens K (ws ++ new) ↔ Opens K ws ∨ Opens K new := by
  simp only [Opens, List.mem_append, exists_or]

theorem advances_append : Advances K (ws ++ new) ↔ Advances K ws ∨ Advances K new := by
  simp only [Advances, List.mem_append, exists_or]

theorem fenceDraft_nil (d : Db) : FenceDraft requests K t [] d where
  own e he := by cases he
  marked h := absurd rfl h
  fresh _ h := absurd rfl h
  opens := fun ⟨m, hm⟩ => by cases hm
  count := .inl ⟨fun ⟨m, hm⟩ => (by cases hm), .inr ⟨fun ⟨m, hm⟩ => (by cases hm), rfl⟩⟩

/-- More writes that leave the marker: events of the session's own, under a marker. -/
theorem FenceDraft.append (h : FenceDraft requests K t ws d) (hm : ∀ w ∈ new, ¬w.Marks K)
    (hown : ∀ e ∈ appended K new, e.writer = t) (hmark : appended K new ≠ [] → d.slotted K = true ∨ Opens K ws)
    (hfresh : ((requests t).expectedOn K).isSome = true → appended K new ≠ [] → ∀ e ∈ d.events K, e.writer ≠ t) :
    FenceDraft requests K t (ws ++ new) d := by
  have ho : Opens K (ws ++ new) ↔ Opens K ws := by
    rw [opens_append]; exact or_iff_left fun ⟨m, hin⟩ => hm _ hin ⟨m, .inl rfl⟩
  have ha : Advances K (ws ++ new) ↔ Advances K ws := by
    rw [advances_append]; exact or_iff_left fun ⟨m, hin⟩ => hm _ hin ⟨m, .inr rfl⟩
  have hv : (Db.slots (schema.applyAll (ws ++ new) d)).lookup K = (Db.slots (schema.applyAll ws d)).lookup K := by
    rw [Schema.State.applyAll_append (S := schema), slots_applyAll hm]
  have hne : appended K (ws ++ new) ≠ [] → appended K ws ≠ [] ∨ appended K new ≠ [] := by
    rw [appended_append]
    intro h'
    by_contra hnot
    simp only [not_or, not_not] at hnot
    exact h' (by rw [hnot.1, hnot.2]; rfl)
  refine ⟨?_, fun h' => ?_, fun hs h' => ?_, fun h' => h.opens (ho.1 h'), ?_⟩
  · rw [appended_append]
    exact fun e he => (List.mem_append.1 he).elim (h.own e) (hown e)
  · rw [ho]; exact (hne h').elim h.marked hmark
  · exact (hne h').elim (h.fresh hs) (hfresh hs)
  · simp only [Marker, ho, ha, hv]
    refine h.count.imp (fun h' => h') fun ⟨x, h1, h2, h3, h4, h5⟩ => ⟨x, h1, h2, ?_, h4, h5⟩
    rw [appended_append]; exact List.append_ne_nil_of_left_ne_nil h3 _

theorem FenceDraft.offLog (h : FenceDraft requests K t ws d) (hn : ∀ w ∈ new, w.OffLog K) :
    FenceDraft requests K t (ws ++ new) d := by
  have hnil := appended_offLog hn
  exact h.append (fun w hw => (hn w hw).2) (by rw [hnil]; simp) (fun h' => absurd hnil h') fun _ h' => absurd hnil h'

/-- The marker a session sees is the one it found, or its own. -/
theorem FenceDraft.slotted (h : FenceDraft requests K t ws d) (hv : Db.slotted (schema.applyAll ws d) K = true) :
    d.slotted K = true ∨ Opens K ws := by
  unfold Db.slotted at hv ⊢
  rcases h.count with ⟨-, hm⟩ | ⟨x, -, -, -, hm, -⟩
  · rcases hm with ⟨ho, -⟩ | ⟨-, heq⟩
    · exact .inr ho
    · rw [heq] at hv; exact .inl hv
  · rcases hm with ⟨ho, -⟩ | ⟨-, heq⟩
    · exact .inr ho
    · rw [← heq]; exact .inl rfl

/-- The session opens the run's slots. -/
theorem FenceDraft.open (h : FenceDraft requests K t ws d) (hnone : (Db.slots (schema.applyAll ws d)).lookup K = none) :
    FenceDraft requests K t (ws ++ [.insertSlots K 1]) d := by
  have hno : ¬Advances K ws ∧ ¬Opens K ws ∧ d.slots.lookup K = none := by
    rcases h.count with ⟨ha, hm⟩ | ⟨x, -, -, -, -, hv⟩
    · rcases hm with ⟨-, heq⟩ | ⟨ho, heq⟩
      · rw [hnone] at heq; cases heq
      · exact ⟨ha, ho, by rw [← heq, hnone]⟩
    · rw [hnone] at hv; cases hv
  have happ : appended K (ws ++ [.insertSlots K 1]) = appended K ws := by
    rw [appended_append]; exact List.append_nil _
  have hopen : Opens K (ws ++ [.insertSlots K 1]) := ⟨1, by simp⟩
  refine ⟨by rw [happ]; exact h.own, fun _ => .inr hopen, by rw [happ]; exact h.fresh, fun _ => hno.2.2, .inl ⟨?_, .inl ⟨hopen, ?_⟩⟩⟩
  · rw [advances_append]
    rintro (h' | ⟨m, hm⟩)
    · exact hno.1 h'
    · cases List.mem_singleton.1 hm
  · rw [Schema.State.applyAll_append (S := schema)]
    simp [Schema.applyAll, Write.apply]

/-- The session advances the count it expects, with an event pending. -/
theorem FenceDraft.advance (h : FenceDraft requests K t ws d) {x : Nat} (hx : (requests t).expectedOn K = some x)
    (hv : (Db.slots (schema.applyAll ws d)).lookup K = some x) (hne : appended K ws ≠ []) :
    FenceDraft requests K t (ws ++ [.updateSlots K (x + 1)]) d := by
  have happ : appended K (ws ++ [.updateSlots K (x + 1)]) = appended K ws := by
    rw [appended_append]; exact List.append_nil _
  have ho : Opens K (ws ++ [.updateSlots K (x + 1)]) ↔ Opens K ws := by
    rw [opens_append]; exact or_iff_left fun ⟨m, hin⟩ => by cases List.mem_singleton.1 hin
  have hm : Marker K ws d (some x) := by
    rcases h.count with ⟨-, hm⟩ | ⟨y, hy, -, -, -, hv'⟩
    · rw [hv] at hm; exact hm
    · rw [hx] at hy; cases hy
      rw [hv, Option.some.injEq] at hv'
      omega
  refine ⟨by rw [happ]; exact h.own, by rw [happ, ho]; exact h.marked, by rw [happ]; exact h.fresh, by rw [ho]; exact h.opens,
    .inr ⟨x, hx, ⟨x + 1, by simp⟩, by rw [happ]; exact hne, by simp only [Marker, ho]; exact hm, ?_⟩⟩
  rw [Schema.State.applyAll_append (S := schema)]
  simp [Schema.applyAll, Write.apply]

/-- Another session's commit. -/
theorem FenceDraft.others (h : FenceDraft requests K t ws d) (hu : u ≠ t) (h' : FenceDraft requests K u ws' d)
    (hex : ∀ k ∈ schema.touchesAll ws, k ∉ schema.touchesAll ws') : FenceDraft requests K u ws' (schema.applyAll ws d) := by
  -- where the pending transaction wrote the marker, the commit did not
  have hkeep : ∀ w ∈ ws', w.Marks K → (Db.slots (schema.applyAll ws d)).lookup K = d.slots.lookup K := by
    intro w hw hm
    refine slots_applyAll (fun w' hw' hm' => ?_) d
    exact hex _ (List.mem_flatMap.2 ⟨w', hw', marks_touches hm'⟩) (List.mem_flatMap.2 ⟨w, hw, marks_touches hm⟩)
  have hcongr : (Db.slots (schema.applyAll ws d)).lookup K = d.slots.lookup K →
      (Db.slots (schema.applyAll ws' (schema.applyAll ws d))).lookup K = (Db.slots (schema.applyAll ws' d)).lookup K :=
    fun heq => Eq.symm (Schema.State.agree_applyAll_congr (S := schema) (k := .row (.slots K)) ws' _ _ heq.symm)
  refine ⟨h'.own, fun hne => (h'.marked hne).imp_left fun hs => (slotted_applyAll ws d).2 (.inl hs), fun hs hne e he => ?_,
    fun ⟨m, hm⟩ => by rw [hkeep _ hm ⟨m, .inl rfl⟩]; exact h'.opens ⟨m, hm⟩, ?_⟩
  · rw [events_applyAll, List.mem_append] at he
    rcases he with he | he
    · exact h'.fresh hs hne e he
    · rw [h.own e he]; exact fun heq => hu (Fin.ext heq.symm)
  · by_cases hmarks : ∃ w ∈ ws', w.Marks K
    · obtain ⟨w, hw, hm⟩ := hmarks
      have heq := hkeep w hw hm
      simp only [Marker, heq, hcongr heq]
      exact h'.count
    · have hno : ∀ w ∈ ws', ¬w.Marks K := fun w hw hm => hmarks ⟨w, hw, hm⟩
      refine .inl ⟨fun ⟨m, hm⟩ => hno _ hm ⟨m, .inr rfl⟩, .inr ⟨fun ⟨m, hm⟩ => hno _ hm ⟨m, .inl rfl⟩, slots_applyAll hno _⟩⟩

/-- The sessions that wrote in-band, after a commit of session `t`. -/
theorem inBandWriters_applyAll (h : FenceDraft requests K t ws d) :
    inBandWriters requests K (schema.applyAll ws d) =
      if ((requests t).expectedOn K).isSome = true ∧ appended K ws ≠ [] then Insert.insert t (inBandWriters requests K d)
      else inBandWriters requests K d := by
  ext u
  rw [mem_inBandWriters, events_applyAll]
  simp only [List.mem_append]
  split
  · rename_i hc
    rw [Finset.mem_insert, mem_inBandWriters]
    constructor
    · rintro ⟨hs, e, he | he, hu⟩
      · exact .inr ⟨hs, e, he, hu⟩
      · exact .inl (Fin.ext (hu.symm.trans (h.own e he)))
    · rintro (rfl | ⟨hs, e, he, hu⟩)
      · obtain ⟨e, he⟩ := List.exists_mem_of_ne_nil _ hc.2
        exact ⟨hc.1, e, .inr he, h.own e he⟩
      · exact ⟨hs, e, .inl he, hu⟩
  · rename_i hc
    rw [mem_inBandWriters]
    constructor
    · rintro ⟨hs, e, he | he, hu⟩
      · exact ⟨hs, e, he, hu⟩
      · refine absurd ⟨?_, List.ne_nil_of_mem he⟩ hc
        rw [← show u = t from Fin.ext (hu.symm.trans (h.own e he))]; exact hs
    · rintro ⟨hs, e, he, hu⟩
      exact ⟨hs, e, .inl he, hu⟩

/-- A commit without in-band events leaves the count. -/
theorem FenceOk.publish_same (hd : FenceOk requests K base d) (h : FenceDraft requests K t ws d)
    (hsame : inBandWriters requests K (schema.applyAll ws d) = inBandWriters requests K d)
    (hm : Marker K ws d ((Db.slots (schema.applyAll ws d)).lookup K)) : FenceOk requests K base (schema.applyAll ws d) := by
  rcases hm with ⟨ho, hv⟩ | ⟨ho, hv⟩
  · obtain ⟨hnil, hbase⟩ := hd.closed (h.opens ho)
    have hempty := inBandWriters_empty requests hnil
    refine ⟨fun hn => (by rw [hv] at hn; cases hn), fun m hm => ?_, fun m hm u hu => ?_, fun u hu => ?_⟩
    · rw [hv] at hm; cases hm
      rw [hsame, hempty, hbase]; rfl
    · rw [hsame, hempty] at hu; cases hu
    · rw [hsame, hempty] at hu; cases hu
  · refine ⟨fun hn => ?_, fun m hm => ?_, fun m hm u hu => ?_, fun u hu u' hu' => ?_⟩
    · obtain ⟨hnil, hbase⟩ := hd.closed (hv ▸ hn)
      refine ⟨?_, hbase⟩
      have : appended K ws = [] := by
        by_contra hne
        rcases h.marked hne with hs | hs
        · unfold Db.slotted at hs; rw [← hv, hn] at hs; cases hs
        · exact ho hs
      rw [events_applyAll, hnil, this]; rfl
    · rw [hsame]; exact hd.count m (hv ▸ hm)
    · rw [hsame] at hu; exact hd.below m (hv ▸ hm) u hu
    · rw [hsame] at hu hu'; exact hd.once u hu u' hu'

/-- An in-band commit with an event counts once. -/
theorem FenceOk.publish_inBand (hd : FenceOk requests K base d) (h : FenceDraft requests K t ws d) {x : Nat}
    (hx : (requests t).expectedOn K = some x) (hne : appended K ws ≠ []) (hm : Marker K ws d (some x))
    (hv : (Db.slots (schema.applyAll ws d)).lookup K = some (x + 1)) : FenceOk requests K base (schema.applyAll ws d) := by
  have hs : ((requests t).expectedOn K).isSome = true := by rw [hx]; rfl
  have hw := inBandWriters_applyAll h
  rw [if_pos ⟨hs, hne⟩] at hw
  have hnot : t ∉ inBandWriters requests K d := by
    rw [mem_inBandWriters]
    rintro ⟨-, e, he, hwr⟩
    exact h.fresh hs hne e he hwr
  -- those that wrote before expected less
  have hbefore : x = base + (inBandWriters requests K d).card ∧ ∀ u ∈ inBandWriters requests K d, ∀ y,
      (requests u).expectedOn K = some y → y < x := by
    rcases hm with ⟨ho, h1⟩ | ⟨-, h1⟩
    · obtain ⟨hnil, hbase⟩ := hd.closed (h.opens ho)
      have hempty := inBandWriters_empty requests hnil
      cases h1
      rw [hempty, hbase]
      exact ⟨rfl, fun u hu => by cases hu⟩
    · exact ⟨hd.count x h1.symm, fun u hu => hd.below x h1.symm u hu⟩
  refine ⟨fun hn => (by rw [hv] at hn; cases hn), fun m hm' => ?_, fun m hm' u hu y hy => ?_, fun u hu u' hu' heq => ?_⟩
  · rw [hv] at hm'; cases hm'
    rw [hw, Finset.card_insert_of_notMem hnot, hbefore.1, Nat.add_assoc]
  · rw [hv] at hm'; cases hm'
    rw [hw, Finset.mem_insert] at hu
    rcases hu with rfl | hu
    · rw [hx] at hy; cases hy; omega
    · have := hbefore.2 u hu y hy; omega
  · rw [hw, Finset.mem_insert] at hu hu'
    rcases hu with rfl | hu <;> rcases hu' with rfl | hu'
    · rfl
    · have := hbefore.2 u' hu' x (by rw [← heq]; exact hx); omega
    · have := hbefore.2 u hu x (by rw [heq]; exact hx); omega
    · exact hd.once u hu u' hu' heq

theorem FenceOk.publish (hd : FenceOk requests K base d) (h : FenceDraft requests K t ws d)
    (hr : ((requests t).expectedOn K).isSome = true → appended K ws ≠ [] → Advances K ws) :
    FenceOk requests K base (schema.applyAll ws d) := by
  rcases h.count with ⟨ha, hm⟩ | ⟨x, hx, -, hne, hm, hv⟩
  · refine hd.publish_same h ?_ hm
    rw [inBandWriters_applyAll h, if_neg fun hc => ha (hr hc.1 hc.2)]
  · exact hd.publish_inBand h hx hne hm hv

/-- A session that expects no count leaves it. -/
theorem FenceDraft.keeps_count (h : FenceDraft requests K t ws d) (hx : (requests t).expectedOn K = none) {m : Nat}
    (hm : d.slots.lookup K = some m) : (Db.slots (schema.applyAll ws d)).lookup K = some m := by
  rcases h.count with ⟨-, ⟨ho, -⟩ | ⟨-, hv⟩⟩ | ⟨x, hx', -⟩
  · rw [h.opens ho] at hm; cases hm
  · rw [hv, hm]
  · rw [hx] at hx'; cases hx'

end Draft

/-- What a commit of session `t` does: its events are its own, and an out-of-band one leaves the count. -/
structure FenceEffect {n : Nat} (requests : Fin n → CreateReq) (K : RunKey) (t : Fin n) (d d' : Db) : Prop where
  count : (requests t).expectedOn K = none → ∀ m, d.slots.lookup K = some m → d'.slots.lookup K = some m
  own : ∀ e ∈ d'.events K, e ∈ d.events K ∨ e.writer = t

section Rules

variable {n : Nat} (cond : Fin n → Op → State n → Prop) (requests : Fin n → CreateReq) (K : RunKey) (base : Nat)

def fenceRules : Rules n where
  data := FenceOk requests K base
  draft t ws _ d := FenceDraft requests K t ws d
  steady _ _ := True
  ready t ws := ((requests t).expectedOn K).isSome = true → appended K ws ≠ [] → Advances K ws
  inert w := w.OffLog K
  grows d d' := d.slotted K = true → d'.slotted K = true
  spares t d d' := ∀ e ∈ d'.events K, e.writer = t → e ∈ d.events K
  effect := FenceEffect requests K
  answer t a _ wrote _ := (requests t).inBandOn K = true → (∃ e, a = .error e) → wrote = false
  cond := cond
  recalls := False
  grows_refl _ h := h
  grows_trans _ _ _ h1 h2 h := h2 (h1 h)
  spares_refl _ _ _ h _ := h
  spares_trans _ _ _ _ h1 h2 e he hw := h1 e (h2 e he hw) hw
  effect_refl _ _ := ⟨fun _ _ h => h, fun _ h => .inl h⟩
  effect_spares t u d d' hu h e he hw := (h.own e he).resolve_right fun h' => hu (Fin.ext (hw.symm.trans h'))
  draft_nil _ d _ := fenceDraft_nil d
  draft_inert _ _ _ _ _ _ h hn := h.offLog hn
  steady_nil _ := trivial
  steady_inert _ _ _ _ _ := trivial
  ready_inert _ _ hn _ hne := absurd (appended_offLog hn) hne
  spares_inert _ ws d hn e he _ := by rwa [events_applyAll, appended_offLog hn, List.append_nil] at he
  publish t ws _ d hd h hr := by
    refine ⟨hd.publish h hr, fun hs => (slotted_applyAll ws d).2 (.inl hs), fun hx m hm => h.keeps_count hx hm, fun e he => ?_⟩
    rw [events_applyAll, List.mem_append] at he
    exact he.imp_right (h.own e)
  others _ _ _ _ _ _ _ _ h _ hu h' hks hw hw' := h.others hu h' fun k hk hk' => hks k (hw k hk) (hw' k hk')
  ext d d' hd he := by
    obtain ⟨m, rfl⟩ := he
    exact ⟨⟨hd.closed, hd.count, hd.below, hd.once⟩, fun h => h, fun _ _ h _ => h⟩
  ext_draft t ws ks d d' h he := by
    have hv : (Db.slots (schema.applyAll ws d)).lookup K = (Db.slots (schema.applyAll ws d')).lookup K :=
      Schema.State.agree_applyAll_congr (S := schema) (k := .row (.slots K)) ws _ _ (schema.agree_ext _ _ _ he)
    obtain ⟨m, rfl⟩ := he
    exact ⟨h.own, h.marked, h.fresh, h.opens, by simp only [Marker, ← hv]; exact h.count⟩
  answer_grows _ _ _ _ _ _ h _ := h

end Rules

end WorkflowWorld
