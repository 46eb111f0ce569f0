/-
The order of a log that sessions append to. A `later` entry is appended by a session that sees a
`first` one; what others commit in between comes before what the session has pending, and so takes
nothing from it. Where the log's subject comes with a `first` entry in one transaction, to see the
subject is to see the entry.
-/
import WorkflowWorld.Concurrency.Sessions
import WorkflowWorld.Lists.Order

namespace Concurrency.Schema

open Lists

variable {S : Schema} {n : Nat} {Mem Reply : Type}

/-- A log, two kinds of its entries, and the subject that comes with a `first` one. -/
structure Order (S : Schema) where
  Entry : Type
  log : S.Db → List Entry
  appends : S.Write → Option Entry
  first : Entry → Prop
  later : Entry → Prop
  /-- The subject is there. -/
  begun : S.Db → Prop
  /-- The write leaves the subject there. -/
  makes : S.Write → Prop
  /-- The write begins the subject. -/
  begins : S.Write → Prop
  makes_of_begins : ∀ w, begins w → makes w
  log_apply : ∀ w d, log (S.apply w d) = log d ++ (appends w).toList
  begun_apply : ∀ w d, begun (S.apply w d) ↔ begun d ∨ makes w
  log_ext : ∀ d d', S.Ext d d' → log d' = log d
  begun_ext : ∀ d d', S.Ext d d' → (begun d' ↔ begun d)

namespace Order

open State

variable {O : Order S} {ws ws' new : List S.Write} {d d' : S.Db}

def appended (O : Order S) (ws : List S.Write) : List O.Entry := ws.filterMap O.appends

theorem appended_append : O.appended (ws ++ new) = O.appended ws ++ O.appended new := List.filterMap_append

theorem log_applyAll : ∀ (ws : List S.Write) (d : S.Db), O.log (S.applyAll ws d) = O.log d ++ O.appended ws
  | [], d => by simp [applyAll, appended]
  | w :: ws, d => by
    show O.log (S.applyAll ws (S.apply w d)) = _
    rw [log_applyAll ws, O.log_apply, List.append_assoc]
    cases h : O.appends w <;> simp [appended, h]

theorem begun_applyAll : ∀ (ws : List S.Write) (d : S.Db), O.begun (S.applyAll ws d) ↔ O.begun d ∨ ∃ w ∈ ws, O.makes w
  | [], d => by simp [applyAll]
  | w :: ws, d => by
    show O.begun (S.applyAll ws (S.apply w d)) ↔ _
    rw [begun_applyAll ws, O.begun_apply, or_assoc]
    simp

/-- Some entry of the log is a `first` one. -/
def Opened (O : Order S) (d : S.Db) : Prop := ∃ e ∈ O.log d, O.first e

/-- The writes begin the subject. -/
def Begins (O : Order S) (ws : List S.Write) : Prop := ∃ w ∈ ws, O.begins w

/-- Of the committed data: the log is in order, and opened where its subject is there. -/
structure Ordered (O : Order S) (d : S.Db) : Prop where
  order : Precedes O.first O.later (O.log d)
  opened : O.begun d → O.Opened d

/-- Of a transaction's writes: they leave the log in order, and the subject is a committed one or its own. -/
structure Draft (O : Order S) (ws : List S.Write) (d : S.Db) : Prop where
  order : Precedes O.first O.later (O.log (S.applyAll ws d))
  begun : O.begun (S.applyAll ws d) → O.begun d ∨ O.Begins ws

/-- The log grew. -/
structure Grew (O : Order S) (d d' : S.Db) : Prop where
  log : O.log d <+: O.log d'
  begun : O.begun d → O.begun d'

/-- The writes append a `later` entry only to a log that is opened, and begin the subject or find it there. -/
structure Fits (O : Order S) (d : S.Db) (new : List S.Write) : Prop where
  order : O.Opened d ∨ ∀ e ∈ O.appended new, ¬O.later e
  begun : ∀ w ∈ new, O.makes w → O.begun d ∨ O.Begins new

/-- The write appends no `later` entry and leaves the subject. -/
def Aside (O : Order S) (w : S.Write) : Prop := (∀ e, O.appends w = some e → ¬O.later e) ∧ ¬O.makes w

theorem Fits.of_aside (h : ∀ w ∈ new, O.Aside w) (d : S.Db) : O.Fits d new := by
  refine ⟨.inr fun e he => ?_, fun w hw hm => absurd hm (h w hw).2⟩
  obtain ⟨w, hw, hwe⟩ := List.mem_filterMap.1 he
  exact (h w hw).1 e hwe

theorem Begins.left (h : O.Begins ws) (new : List S.Write) : O.Begins (ws ++ new) := by
  obtain ⟨w, hw, hb⟩ := h
  exact ⟨w, List.mem_append_left _ hw, hb⟩

theorem Begins.right (h : O.Begins new) (ws : List S.Write) : O.Begins (ws ++ new) := by
  obtain ⟨w, hw, hb⟩ := h
  exact ⟨w, List.mem_append_right _ hw, hb⟩

theorem Draft.append (h : O.Draft ws d) (hf : O.Fits (S.applyAll ws d) new) : O.Draft (ws ++ new) d := by
  have happ := applyAll_append ws new d
  refine ⟨?_, fun hb => ?_⟩
  · rw [happ, log_applyAll new]
    exact h.order.append hf.order
  · have hold : O.begun (S.applyAll ws d) → O.begun d ∨ O.Begins (ws ++ new) :=
      fun hb => (h.begun hb).imp_right (·.left new)
    rw [happ, begun_applyAll] at hb
    rcases hb with hb | ⟨w, hw, hm⟩
    · exact hold hb
    · rcases hf.begun w hw hm with hb | hb
      · exact hold hb
      · exact .inr (hb.right ws)

theorem Grew.applyAll (ws : List S.Write) (d : S.Db) : O.Grew d (S.applyAll ws d) :=
  ⟨by rw [log_applyAll]; exact List.prefix_append _ _, fun h => (begun_applyAll ws d).2 (.inl h)⟩

theorem Opened.grew (h : O.Opened d) (hg : O.Grew d d') : O.Opened d' := by
  obtain ⟨e, he, hf⟩ := h
  exact ⟨e, hg.log.subset he, hf⟩

/-- What another session commits comes before what this one has pending. -/
theorem Draft.others (h : O.Draft ws d) (h' : O.Draft ws' d) : O.Draft ws' (S.applyAll ws d) := by
  refine ⟨?_, fun hb => ?_⟩
  · have h1 := h.order
    have h2 := h'.order
    rw [log_applyAll] at h1 h2
    rw [log_applyAll ws', log_applyAll ws]
    exact h1.insert h2
  · rcases (begun_applyAll ws' _).1 hb with hb | hb
    · exact .inl hb
    · exact (h'.begun ((begun_applyAll ws' d).2 (.inr hb))).imp_left (Grew.applyAll ws d).begun

/-- The rules that keep the log in order. -/
def rules (O : Order S) (cond : Fin n → S.Op Mem Reply → S.State n Mem Reply → Prop) : TxRules S n Mem Reply where
  data := O.Ordered
  draft _ ws _ d := O.Draft ws d
  steady _ ws := O.Begins ws → ∃ e ∈ O.appended ws, O.first e
  ready _ ws := O.Begins ws → ∃ e ∈ O.appended ws, O.first e
  inert w := O.Aside w
  grows := O.Grew
  spares _ _ _ := True
  effect _ _ _ := True
  answer _ _ _ _ _ := True
  cond := cond
  recalls := False
  grows_refl _ := ⟨List.prefix_refl _, fun h => h⟩
  grows_trans _ _ _ h1 h2 := ⟨h1.log.trans h2.log, fun h => h2.begun (h1.begun h)⟩
  spares_refl _ _ := trivial
  spares_trans _ _ _ _ _ _ := trivial
  effect_refl _ _ := trivial
  effect_spares _ _ _ _ _ _ := trivial
  draft_nil _ d hd := ⟨hd.order, .inl⟩
  draft_inert _ _ _ _ _ _ h hn := h.append (.of_aside hn _)
  steady_nil _ := fun ⟨w, hw, _⟩ => by cases hw
  ready_inert _ ws hn := fun ⟨w, hw, hb⟩ => absurd (O.makes_of_begins w hb) (hn w hw).2
  steady_inert _ ws new h hn := by
    rintro ⟨w, hw, hb⟩
    have hold : w ∈ ws := (List.mem_append.1 hw).resolve_right fun hw => (hn w hw).2 (O.makes_of_begins w hb)
    obtain ⟨e, he, hf⟩ := h ⟨w, hold, hb⟩
    exact ⟨e, by rw [appended_append]; exact List.mem_append_left _ he, hf⟩
  spares_inert _ _ _ _ := trivial
  publish _ ws _ d hd h hr := by
    refine ⟨⟨h.order, fun hb => ?_⟩, .applyAll ws d, trivial⟩
    rcases h.begun hb with hb | hb
    · exact (hd.opened hb).grew (.applyAll ws d)
    · obtain ⟨e, he, hf⟩ := hr hb
      exact ⟨e, by rw [log_applyAll]; exact List.mem_append_right _ he, hf⟩
  others _ _ _ _ _ _ _ _ h _ _ h' _ _ _ := h.others h'
  ext d d' hd he := by
    have hlog := O.log_ext d d' he
    have hbegun := O.begun_ext d d' he
    refine ⟨⟨by rw [hlog]; exact hd.order, fun hb => ?_⟩, ⟨by simp only [hlog, List.prefix_refl], hbegun.2⟩, fun _ => trivial⟩
    obtain ⟨e, he, hf⟩ := hd.opened (hbegun.1 hb)
    exact ⟨e, by rw [hlog]; exact he, hf⟩
  ext_draft _ ws _ d d' h he := by
    have horder := h.order
    have hbegun := h.begun
    rw [log_applyAll] at horder
    rw [begun_applyAll] at hbegun
    refine ⟨by rw [log_applyAll, O.log_ext d d' he]; exact horder, fun hb => ?_⟩
    rw [begun_applyAll, O.begun_ext d d' he] at hb
    rw [O.begun_ext d d' he]
    exact hbegun hb
  answer_grows _ _ _ _ _ _ h _ := h

/-! ## What a session sees -/

variable {cond : Fin n → S.Op Mem Reply → S.State n Mem Reply → Prop} {t : Fin n} {s s' : S.State n Mem Reply}
  {A : S.State n Mem Reply → Prop}

/-- A session that sees the log opened will see it so. -/
theorem opened_went (h : O.Opened (s.view t)) (hw : (O.rules cond).Went t s s') : O.Opened (s'.view t) := by
  obtain ⟨e, he, hf⟩ := h
  obtain ⟨ws, hws⟩ := hw.pend
  have hgrew : O.Grew s.db s'.db := hw.grows
  rw [view_eq, log_applyAll] at he
  refine ⟨e, ?_, hf⟩
  rw [view_eq, log_applyAll, ← hws, appended_append]
  rcases List.mem_append.1 he with he | he
  · exact List.mem_append_left _ (hgrew.log.subset he)
  · exact List.mem_append_right _ (List.mem_append_left _ he)

/-- To see the subject is to see the log opened. -/
theorem opened_of_begun (hi : (O.rules cond).Inv s) (hs : (O.rules cond).Sound t s) (h : O.begun (s.view t)) :
    O.Opened (s.view t) := by
  have hdraft : O.Draft (s.pend t) s.db := hi.draft_pend t
  have hdata : O.Ordered s.db := hi.data
  rw [view_eq] at h ⊢
  rcases hdraft.begun h with h | h
  · exact (hdata.opened h).grew (.applyAll _ _)
  · obtain ⟨e, he, hf⟩ := TxRules.Sound.steady_pend hs h
    exact ⟨e, by rw [log_applyAll]; exact List.mem_append_right _ he, hf⟩

theorem frame : (O.rules cond).Frame t (fun _ => True) (fun _ _ => True) := TxRules.any_frame fun _ h => h

theorem opened_frame : (O.rules cond).Frame t (fun s => O.Opened (s.view t)) (fun _ _ => True) := by
  refine TxRules.went_frame (fun _ _ _ _ h => h) (fun _ _ h hw => opened_went h hw) fun s h => ?_
  obtain ⟨-, -, -, hp, -⟩ := TxRules.beginTx_tx s t
  rw [view_eq, hp, TxRules.beginTx_db, ← view_eq]
  exact h

theorem extends_of_fits (hi : (O.rules cond).Inv s) {takes : List S.Key} (hf : O.Fits (s.view t) new)
    (hready : s.tx t = none → ¬O.Begins new) : (O.rules cond).Extends t s takes new := by
  have hdraft : O.Draft (s.pend t) s.db := hi.draft_pend t
  exact ⟨hdraft.append (view_eq s t ▸ hf), fun hx hb => absurd hb (hready hx)⟩

/-- A statement that begins no subject. -/
theorem admits_of_fits {q : S.Query} (hq : ∀ s pick, Base s → (O.rules cond).Inv s → (O.rules cond).Sound t s → A s → cond t (.query q) s →
      O.Fits (s.view t) (S.plan q pick (s.clock t) (s.view t)).writes ∧ ¬O.Begins (S.plan q pick (s.clock t) (s.view t)).writes) :
    (O.rules cond).Admits t A (fun _ _ => True) q := by
  intro s pick a hb hi hs ha hc _ _
  obtain ⟨hfits, hno⟩ := hq s pick hb hi hs ha hc
  refine ⟨extends_of_fits hi hfits fun _ => hno, ?_, trivial⟩
  rintro ⟨w, hw, hbegins⟩
  obtain ⟨e, he, hf⟩ := TxRules.Sound.steady_pend hs
    ⟨w, (List.mem_append.1 hw).resolve_right fun hw => hno ⟨w, hw, hbegins⟩, hbegins⟩
  exact ⟨e, by rw [appended_append]; exact List.mem_append_left _ he, hf⟩

theorem admits_aside {q : S.Query} (hq : ∀ d pick now, ∀ w ∈ (S.plan q pick now d).writes, O.Aside w) :
    (O.rules cond).Admits t A (fun _ _ => True) q :=
  admits_of_fits fun _ _ _ _ _ _ _ =>
    ⟨.of_aside (hq _ _ _) _, fun ⟨w, hw, hb⟩ => (hq _ _ _ w hw).2 (O.makes_of_begins w hb)⟩

end Order

end Concurrency.Schema
