/-
Live reads of a stream (`createStreamer`, `listenChannel`, `get`): one producer commits rows and then
notifies them, and a reader gets what it selects, what was buffered while it selected and what its
streamer fetches for each notification. A notification that is sent before the streamer's LISTEN is
active reaches nobody.
-/
import WorkflowWorld.Streams.Written
import WorkflowWorld.Concurrency.Machine
import Mathlib.Data.List.Infix

namespace WorkflowWorld.Streams

/-! ## The machine -/

/-- `start` of a reader, after its select has answered. -/
def drained (startIndex : Option Int) (rows : StreamTable) (buffer : List StreamChunkEvent) :
    Except StreamError Reader := do
  let events ← rows.mapM rowEvents
  let chunks := events.flatten
  .ok ((chunks ++ buffer).foldl Reader.enqueue { offset := startOffset startIndex chunks })

/-- Where a reader is in `start`. -/
inductive Phase where
  /-- `get` has not been called. -/
  | idle
  /-- Its listener is registered, and its select is under way. -/
  | subscribed (buffer : List StreamChunkEvent)
  /-- The select has been executed, and its rows are on their way. -/
  | selected (rows : StreamTable) (buffer : List StreamChunkEvent)
  /-- `buffer = null`. The select had `seen` rows. -/
  | live (seen : Nat) (reader : Reader)
  /-- A row could not be unpacked. -/
  | errored
  deriving DecidableEq, Repr

/-- `onData`, for the events of a row. -/
def Phase.onData (events : List StreamChunkEvent) : Phase → Phase
  | .idle => .idle
  | .subscribed buffer => .subscribed (buffer ++ events)
  | .selected rows buffer => .selected rows (buffer ++ events)
  | .live seen reader => .live seen (events.foldl Reader.enqueue reader)
  | .errored => .errored

/-- How many rows the select had, once it has been executed. -/
def Phase.seen : Phase → Option Nat
  | .selected rows _ => some rows.length
  | .live seen _ => some seen
  | _ => none

/-- `events.listenerCount(key)` is not 0. -/
def Phase.listens : Phase → Bool
  | .idle => false
  | _ => true

/-- A stream with one producer, and a streamer with one reader of it. -/
structure Live where
  /-- The rows of the stream, as they were committed. -/
  table : StreamTable := []
  /-- How many of them have been notified. -/
  notified : Nat := 0
  created : Bool := false
  /-- The streamer's LISTEN is active. -/
  listening : Bool := false
  /-- Notifications that the streamer's client has not handled. -/
  inbox : List String := []
  /-- Handled notifications whose row fetch has not been made; the mutex keeps them in order. -/
  fetches : List String := []
  phase : Phase := .idle
  deriving DecidableEq, Repr

/-- The ids of a producer's next call: increasing, and past everything it has written. -/
def mintsNext (t : StreamTable) (call : Call) (ids : List String) : Bool :=
  decide (ids.length = call.minted) && ids.all isChunkId && decide (ids.Pairwise (· < ·)) &&
    decide (∀ row ∈ t, ∀ j ∈ row.ids, ∀ id ∈ ids, j < id)

inductive LiveEvent where
  /-- The insert of a `write`, `writeMulti` or `close` commits. -/
  | commit (call : Call) (compactSnapshots : Bool) (ids : List String)
  /-- `notifyStream` for the next row. -/
  | notify
  /-- `createStreamer`. -/
  | create
  /-- The LISTEN of its subscription becomes active. -/
  | listen
  /-- `get` registers its listener and issues its select. -/
  | subscribe
  /-- The select is executed. -/
  | select
  /-- The client handles a notification: without a listener it is dropped. -/
  | receive
  /-- The row of a notification is fetched and its events are emitted. -/
  | fetch
  /-- The reader is given what it selected and what was buffered. -/
  | drain
  deriving DecidableEq, Repr

/-- The events emitted for a notification. -/
def fetched (tenantId name chunkId : String) (t : StreamTable) : List StreamChunkEvent :=
  match (streamRows tenantId name t).find? (·.chunkId == chunkId) with
  | none => []
  | some row =>
    match rowEvents row with
    | .ok events => events
    | .error _ => []

variable (C : SnapshotCompaction) (tenantId name : String) (startIndex : Nat)

def Live.step : LiveEvent → Live → Option Live
  | .commit call compactSnapshots ids, s =>
    if call.name = name ∧ mintsNext s.table call ids then
      match call.rows (C.compact compactSnapshots) tenantId ids with
      | .ok rows => some { s with table := s.table ++ rows }
      | .error _ => none
    else none
  | .notify, s =>
    match s.table[s.notified]? with
    | some row =>
      some { s with
        notified := s.notified + 1
        inbox := if s.listening then s.inbox ++ [row.chunkId] else s.inbox }
    | none => none
  | .create, s => if s.created then none else some { s with created := true }
  | .listen, s => if s.created && !s.listening then some { s with listening := true } else none
  | .subscribe, s =>
    match s.phase with
    | .idle => if s.created then some { s with phase := .subscribed [] } else none
    | _ => none
  | .select, s =>
    match s.phase with
    | .subscribed buffer =>
      some { s with phase := .selected (orderById (streamRows tenantId name s.table)) buffer }
    | _ => none
  | .receive, s =>
    match s.inbox with
    | id :: rest =>
      some { s with inbox := rest, fetches := if s.phase.listens then s.fetches ++ [id] else s.fetches }
    | [] => none
  | .fetch, s =>
    match s.fetches with
    | id :: rest =>
      some { s with fetches := rest, phase := s.phase.onData (fetched tenantId name id s.table) }
    | [] => none
  | .drain, s =>
    match s.phase with
    | .selected rows buffer =>
      match drained (some startIndex) rows buffer with
      | .ok reader => some { s with phase := .live rows.length reader }
      | .error _ => some { s with phase := .errored }
    | _ => none

/-- What the reader's controller has been given. -/
def Live.delivered (s : Live) : List Buffer :=
  match s.phase with
  | .live _ reader => reader.enqueued
  | _ => []

def Live.closed (s : Live) : Bool :=
  match s.phase with
  | .live _ reader => reader.closed
  | _ => false

/-- The reader has drained its buffer and no notification is under way. -/
def Live.quiet (s : Live) : Bool := (s.phase matches .live _ _) && s.inbox.isEmpty && s.fetches.isEmpty

/-- The non-empty chunks from the start index up to the first EOF. -/
def expected (t : StreamTable) : List Buffer :=
  (((logicalStream tenantId name t).chunks.drop startIndex).map (·.data)).filter fun data => !data.isEmpty

/-- What a live read is to do: it delivers the chunks in order, none twice and nothing else; of every
row that was notified, once its notification has been worked off; it closes for an EOF, and when one
was notified; and what is under way can be worked off. -/
structure Live.Delivers (cond : LiveEvent → Live → Bool) (s : Live) : Prop where
  inOrder : s.delivered <+: expected tenantId name startIndex s.table
  closes : s.closed = true → s.table.any (·.eof) = true ∧ s.delivered = expected tenantId name startIndex s.table
  complete : s.quiet = true → expected tenantId name startIndex (s.table.take s.notified) <+: s.delivered ∧
    ((s.table.take s.notified).any (·.eof) = true → s.closed = true)
  settles : ∃ s', Machine.Reaches (Live.step C tenantId name startIndex) cond s s' ∧ s'.quiet = true ∧
    s'.table = s.table ∧ s'.notified = s'.table.length

/-- The LISTEN is active when a row that the reader's select did not have is notified. -/
def listened : LiveEvent → Live → Bool
  | .notify, s => s.listening || s.phase.seen.all fun seen => decide (s.notified < seen)
  | _, _ => true

/-! ## The rows of one producer -/

/-- The rows of the stream, each before the next. -/
structure Sequential (t : StreamTable) : Prop where
  stream : ∀ row ∈ t, row.tenantId = tenantId ∧ row.streamId = name
  sound : ∀ row ∈ t, row.eof = false → row.Sound
  named : ∀ row ∈ t, startsWith row.chunkId "chnk_"
  before : t.Pairwise Before

/-- A reader that has been given the events of the rows. -/
def readerAt (t : StreamTable) : Reader := (t.flatMap (·.events)).foldl Reader.enqueue { offset := startIndex }

variable {C tenantId name startIndex} {t : StreamTable}

theorem get_eq_drained (startIndex : Option Int) (buffer : List StreamChunkEvent) :
    get tenantId name startIndex buffer t = (drained startIndex (orderById (streamRows tenantId name t)) buffer).map
      fun reader => ⟨reader.enqueued, reader.closed⟩ := by
  unfold get drained
  cases (orderById (streamRows tenantId name t)).mapM rowEvents <;> rfl

theorem drained_of_sound (h : ∀ row ∈ t, row.eof = false → row.Sound) (buffer : List StreamChunkEvent) :
    drained (some startIndex) t buffer = .ok (buffer.foldl Reader.enqueue (readerAt startIndex t)) := by
  unfold drained
  rw [mapM_rowEvents h]
  simp only [bind, Except.bind, ← List.flatMap_def, List.foldl_append]
  rfl

namespace Sequential

theorem append {rows : StreamTable} {ids : List String} (h : Sequential tenantId name t)
    (hadd : Added tenantId name ids rows) (hnext : ∀ row ∈ t, ∀ j ∈ row.ids, ∀ id ∈ ids, j < id) :
    Sequential tenantId name (t ++ rows) where
  stream row hr := (List.mem_append.1 hr).elim (h.stream row) (hadd.stream row)
  sound row hr := (List.mem_append.1 hr).elim (h.sound row) (hadd.sound row)
  named row hr := (List.mem_append.1 hr).elim (h.named row) (hadd.named row)
  before := List.pairwise_append.2 ⟨h.before, hadd.before, fun row hr row' hr' j hj k hk =>
    hnext row hr j hj k (hadd.ids_mem row' hr' k hk)⟩

theorem take (h : Sequential tenantId name t) (n : Nat) : Sequential tenantId name (t.take n) where
  stream row hr := h.stream row (List.mem_of_mem_take hr)
  sound row hr := h.sound row (List.mem_of_mem_take hr)
  named row hr := h.named row (List.mem_of_mem_take hr)
  before := h.before.sublist (List.take_sublist n t)

theorem streamRows_eq (h : Sequential tenantId name t) : streamRows tenantId name t = t := by
  refine List.filter_eq_self.2 fun row hr => ?_
  obtain ⟨h₁, h₂⟩ := h.stream row hr
  simp [h₁, h₂]

theorem laidOut (h : Sequential tenantId name t) : LaidOut t :=
  Apart.laidOut ⟨h.sound, h.named, h.before.imp .inl⟩

theorem orderById_eq (h : Sequential tenantId name t) : orderById t = t := by
  refine List.Pairwise.insertionSort_eq (h.before.imp_of_mem fun {a b} ha hb hab => ?_)
  exact le_of_lt (hab _ (h.laidOut.legible.mem_ids ha) _ (h.laidOut.legible.mem_ids hb))

theorem chunks_eq (h : Sequential tenantId name t) :
    (logicalStream tenantId name t).chunks = (t.takeWhile fun row => !row.eof).flatMap (·.chunks) := by
  rw [logicalStream, visibleRows, h.streamRows_eq, h.orderById_eq]

/-- The row of a notification. -/
theorem fetched_eq (h : Sequential tenantId name t) {row : StreamRow} (hr : row ∈ t) :
    fetched tenantId name row.chunkId t = row.events := by
  have hfind : t.find? (·.chunkId == row.chunkId) = some row := by
    obtain ⟨row', hf⟩ := Option.isSome_iff_exists.1
      (List.find?_isSome.2 ⟨row, hr, by simp⟩ : (t.find? (·.chunkId == row.chunkId)).isSome)
    have hid : row'.chunkId = row.chunkId := by simpa using List.find?_some hf
    rw [hf, h.laidOut.legible.eq_of_chunkId (List.mem_of_find?_eq_some hf) hr hid]
  unfold fetched
  rw [h.streamRows_eq, hfind]
  simp only [rowEvents_eq (h.sound row hr)]

/-- A reader that has been given the rows has delivered what is expected of them. -/
theorem readerAt_eq (h : Sequential tenantId name t) :
    (readerAt startIndex t).enqueued = expected tenantId name startIndex t ∧
      (readerAt startIndex t).closed = t.any (·.eof) := by
  have hlaid : LaidOut (streamRows tenantId name t) := by
    rw [h.streamRows_eq]
    exact h.laidOut
  have hget : get tenantId name (some startIndex) [] t =
      .ok ⟨(readerAt startIndex t).enqueued, (readerAt startIndex t).closed⟩ := by
    rw [get_eq_drained, h.streamRows_eq, h.orderById_eq, drained_of_sound h.sound]
    rfl
  have hoff : (logicalStream tenantId name t).offset (some (startIndex : Int)) = startIndex := by
    unfold LogicalStream.offset
    rw [Option.getD_some, if_neg (by omega), Int.toNat_natCast]
  have hany : (logicalStream tenantId name t).closed = t.any (·.eof) := by
    rw [logicalStream, h.streamRows_eq]
  cases hc : (logicalStream tenantId name t).closed with
  | true =>
    rw [get_eq_of_closed hlaid hc, hoff] at hget
    injection hget with hget
    injection hget with he hcl
    exact ⟨he.symm, by rw [← hcl, ← hany, hc]⟩
  | false =>
    rw [get_eq_of_open hlaid hc (some (startIndex : Int)) (by simp), hoff] at hget
    injection hget with hget
    injection hget with he hcl
    exact ⟨he.symm, by rw [← hcl, ← hany, hc]⟩

theorem expected_prefix (h : Sequential tenantId name t) {m n : Nat} (hmn : m ≤ n) :
    expected tenantId name startIndex (t.take m) <+: expected tenantId name startIndex (t.take n) := by
  unfold expected
  rw [(h.take m).chunks_eq, (h.take n).chunks_eq]
  have hpre : t.take m <+: t.take n := List.take_prefix_take_left hmn
  refine (List.IsPrefix.map _ (List.IsPrefix.drop (List.IsPrefix.flatMap ?_ _) _)).filter _
  obtain ⟨rest, hrest⟩ := hpre
  rw [← hrest, List.takeWhile_append]
  split
  · rename_i hall
    rw [List.takeWhile_eq_self_iff.2 (List.takeWhile_eq_self_iff.1 ((List.takeWhile_prefix _).eq_of_length hall))]
    exact List.prefix_append _ _
  · exact List.prefix_refl _

/-- Nothing is expected past an EOF. -/
theorem expected_of_eof (h : Sequential tenantId name t) {m : Nat} (he : (t.take m).any (·.eof) = true) :
    expected tenantId name startIndex (t.take m) = expected tenantId name startIndex t := by
  unfold expected
  rw [(h.take m).chunks_eq, h.chunks_eq]
  have hsplit : t.takeWhile (fun row => !row.eof) = (t.take m).takeWhile fun row => !row.eof := by
    conv_lhs => rw [← List.take_append_drop m t]
    rw [List.takeWhile_append, if_neg]
    intro hall
    obtain ⟨row, hr, heof⟩ := List.any_eq_true.1 he
    have := List.takeWhile_eq_self_iff.1 ((List.takeWhile_prefix _).eq_of_length hall) row hr
    simp [heof] at this
  rw [hsplit]

end Sequential

/-! ## What a run keeps -/

variable (startIndex)

/-- The events of the rows from `j` to `k`. -/
def eventsBetween (t : StreamTable) (j k : Nat) : List StreamChunkEvent := ((t.take k).drop j).flatMap (·.events)

/-- What the reader has, when the streamer has come to the notification of row `k`: what is buffered
goes up to it, and starts where the select ends or before. -/
def Phase.Has (t : StreamTable) (listening : Bool) (k : Nat) : Phase → Prop
  | .idle => True
  | .subscribed buffer => ∃ j ≤ k, buffer = eventsBetween t j k ∧ (listening = false → j = k)
  | .selected rows buffer => ∃ j ≤ k, ∃ n ≤ t.length, j ≤ n ∧ rows = t.take n ∧ buffer = eventsBetween t j k ∧
      (listening = false → j = k)
  | .live seen reader => ∃ m ≤ t.length, k ≤ m ∧ seen ≤ m ∧ reader = readerAt startIndex (t.take m)
  | .errored => False

variable (tenantId name)

structure Live.Inv (s : Live) : Prop where
  sequential : Sequential tenantId name s.table
  notified_le : s.notified ≤ s.table.length
  unheard : s.phase.listens = false → s.fetches = []
  silent : s.listening = false → s.inbox = [] ∧ s.fetches = []
  reading : ∃ k ≤ s.notified, s.fetches ++ s.inbox = ((s.table.take s.notified).drop k).map (·.chunkId) ∧
    s.phase.Has startIndex s.table s.listening k

variable {tenantId name startIndex} {s s' : Live} {j k m n : Nat}

theorem eventsBetween_self : eventsBetween t k k = [] := by
  unfold eventsBetween
  rw [List.drop_eq_nil_of_le (List.length_take_le k t)]
  rfl

theorem eventsBetween_append (hjm : j ≤ m) (hmk : m ≤ k) :
    eventsBetween t j k = eventsBetween t j m ++ eventsBetween t m k := by
  unfold eventsBetween
  rw [← List.flatMap_append]
  congr 1
  have htake : t.take m = (t.take k).take m := by rw [List.take_take, min_eq_left hmk]
  have hdrop : (t.take k).drop m = ((t.take k).drop j).drop (m - j) := by rw [List.drop_drop, Nat.add_sub_cancel' hjm]
  rw [htake, hdrop]
  generalize t.take k = u
  rw [List.drop_take, List.take_append_drop]

theorem eventsBetween_zero : eventsBetween t 0 k = (t.take k).flatMap (·.events) := rfl

theorem eventsBetween_succ {row : StreamRow} (hjk : j ≤ k) (hr : t[k]? = some row) :
    eventsBetween t j (k + 1) = eventsBetween t j k ++ row.events := by
  rw [eventsBetween_append hjk (Nat.le_succ k)]
  congr 1
  unfold eventsBetween
  obtain ⟨hk, rfl⟩ := List.getElem?_eq_some_iff.1 hr
  rw [List.take_succ_eq_append_getElem hk, List.drop_append_of_le_length (by simp [Nat.le_of_lt hk]),
    List.drop_eq_nil_of_le (List.length_take_le k t)]
  simp

theorem eventsBetween_grow {rows : StreamTable} (hk : k ≤ t.length) :
    eventsBetween (t ++ rows) j k = eventsBetween t j k := by
  unfold eventsBetween
  rw [List.take_append_of_le_length hk]

/-- Events of rows that the reader has been given are not given again. -/
theorem foldl_eventsBetween (hjm : j ≤ m) :
    (eventsBetween t j k).foldl Reader.enqueue (readerAt startIndex (t.take m)) =
      readerAt startIndex (t.take (max m k)) := by
  have hpassed : ∀ l, l ≤ m → ∀ msg ∈ eventsBetween t j l, (readerAt startIndex (t.take m)).Passed msg := by
    intro l hl msg hm
    obtain ⟨row, hr, hmsg⟩ := List.mem_flatMap.1 hm
    have hrow : row ∈ t.take m := (List.take_prefix_take_left hl).subset (List.mem_of_mem_drop hr)
    exact Reader.passed_foldl (List.mem_flatMap.2 ⟨row, hrow, hmsg⟩) _
  rcases le_total k m with hkm | hmk
  · rw [Reader.foldl_of_passed (hpassed k hkm), max_eq_left hkm]
  · rw [eventsBetween_append hjm hmk, List.foldl_append, Reader.foldl_of_passed (hpassed m (le_refl m)),
      max_eq_right hmk, readerAt, readerAt, ← List.foldl_append, ← eventsBetween_zero, ← eventsBetween_zero,
      ← eventsBetween_append (Nat.zero_le m) hmk]

namespace Phase.Has

variable {listening : Bool} {phase : Phase}

theorem grow {rows : StreamTable} (h : phase.Has startIndex t listening k) (hk : k ≤ t.length) :
    phase.Has startIndex (t ++ rows) listening k := by
  cases phase with
  | idle => trivial
  | subscribed buffer =>
    obtain ⟨j, hj, hbuf, hl⟩ := h
    exact ⟨j, hj, by rw [eventsBetween_grow hk, hbuf], hl⟩
  | selected selected buffer =>
    obtain ⟨j, hj, n, hn, hjn, hrows, hbuf, hl⟩ := h
    refine ⟨j, hj, n, by simp; omega, hjn, ?_, by rw [eventsBetween_grow hk, hbuf], hl⟩
    rw [List.take_append_of_le_length hn, hrows]
  | live seen reader =>
    obtain ⟨m, hm, hkm, hs, hr⟩ := h
    refine ⟨m, by simp; omega, hkm, hs, ?_⟩
    rw [List.take_append_of_le_length hm, hr]
  | errored => exact h

/-- A notification that reaches nobody, of a row that the reader has or is still to select. -/
theorem skip (h : phase.Has startIndex t false k) (hseen : ∀ n, phase.seen = some n → k < n) :
    phase.Has startIndex t false (k + 1) := by
  cases phase with
  | idle => trivial
  | subscribed buffer =>
    obtain ⟨j, hj, hbuf, hl⟩ := h
    obtain rfl := hl rfl
    exact ⟨j + 1, le_refl _, by rw [hbuf, eventsBetween_self, eventsBetween_self], fun _ => rfl⟩
  | selected rows buffer =>
    obtain ⟨j, hj, n, hn, hjn, hrows, hbuf, hl⟩ := h
    obtain rfl := hl rfl
    have hlt : j < n := by
      have := hseen rows.length rfl
      rwa [hrows, List.length_take, min_eq_left hn] at this
    exact ⟨j + 1, le_refl _, n, hn, hlt, hrows, by rw [hbuf, eventsBetween_self, eventsBetween_self], fun _ => rfl⟩
  | live seen reader =>
    obtain ⟨m, hm, hkm, hs, hr⟩ := h
    exact ⟨m, hm, (hseen seen rfl).trans_le hs, hs, hr⟩
  | errored => exact h

theorem listen (h : phase.Has startIndex t listening k) : phase.Has startIndex t true k := by
  cases phase with
  | idle => trivial
  | subscribed buffer =>
    obtain ⟨j, hj, hbuf, -⟩ := h
    exact ⟨j, hj, hbuf, fun h => by cases h⟩
  | selected rows buffer =>
    obtain ⟨j, hj, n, hn, hjn, hrows, hbuf, -⟩ := h
    exact ⟨j, hj, n, hn, hjn, hrows, hbuf, fun h => by cases h⟩
  | live seen reader => exact h
  | errored => exact h

/-- The row of a notification is emitted. -/
theorem onData {row : StreamRow} (h : phase.Has startIndex t true k) (hr : t[k]? = some row) :
    (phase.onData row.events).Has startIndex t true (k + 1) := by
  have hk : k < t.length := (List.getElem?_eq_some_iff.1 hr).1
  cases phase with
  | idle => trivial
  | subscribed buffer =>
    obtain ⟨j, hj, hbuf, -⟩ := h
    exact ⟨j, by omega, by rw [hbuf, eventsBetween_succ hj hr], fun h => by cases h⟩
  | selected rows buffer =>
    obtain ⟨j, hj, n, hn, hjn, hrows, hbuf, -⟩ := h
    exact ⟨j, by omega, n, hn, hjn, hrows, by rw [hbuf, eventsBetween_succ hj hr], fun h => by cases h⟩
  | live seen reader =>
    obtain ⟨m, hm, hkm, hs, rfl⟩ := h
    refine ⟨max m (k + 1), by omega, by omega, by omega, ?_⟩
    have hrow : row.events = eventsBetween t k (k + 1) := by
      rw [eventsBetween_succ (le_refl k) hr, eventsBetween_self, List.nil_append]
    rw [hrow, foldl_eventsBetween hkm]
  | errored => exact h

end Phase.Has

namespace Live.Inv

/-- The next notification the streamer comes to is of the next row. -/
theorem next {id : String} {rest : List String} {k : Nat} (hk : k ≤ s.notified)
    (hq : id :: rest = ((s.table.take s.notified).drop k).map (·.chunkId)) :
    ∃ row, s.table[k]? = some row ∧ id = row.chunkId ∧ k < s.notified ∧
      rest = ((s.table.take s.notified).drop (k + 1)).map (·.chunkId) := by
  have hlen : k < (s.table.take s.notified).length := by
    by_contra hge
    rw [List.drop_eq_nil_of_le (not_lt.1 hge)] at hq
    cases hq
  rw [List.drop_eq_getElem_cons hlen, List.map_cons] at hq
  injection hq with hid hrest
  rw [List.length_take] at hlen
  refine ⟨s.table[k], List.getElem?_eq_getElem _, ?_, by omega, hrest⟩
  simpa using hid

/-- While nothing is heard, the streamer has come to the end of what was notified. -/
theorem eq_notified {k : Nat} (h : Inv tenantId name startIndex s) (hk : k ≤ s.notified)
    (hq : [] = ((s.table.take s.notified).drop k).map (·.chunkId)) : k = s.notified := by
  have hnil := List.map_eq_nil_iff.1 hq.symm
  rw [List.drop_eq_nil_iff, List.length_take] at hnil
  have := h.notified_le
  omega

theorem init : Inv tenantId name startIndex {} where
  sequential := ⟨by simp, by simp, by simp, .nil⟩
  notified_le := le_refl _
  unheard _ := rfl
  silent _ := ⟨rfl, rfl⟩
  reading := ⟨0, le_refl _, rfl, trivial⟩

theorem commit {call : Call} {compactSnapshots : Bool} {ids : List String} (h : Inv tenantId name startIndex s)
    (hs : Live.step C tenantId name startIndex (.commit call compactSnapshots ids) s = some s') :
    Inv tenantId name startIndex s' := by
  obtain ⟨k, hk, hq, hph⟩ := h.reading
  simp only [Live.step] at hs
  split at hs
  · rename_i hok
    obtain ⟨rfl, hm⟩ := hok
    simp only [mintsNext, Bool.and_eq_true, decide_eq_true_eq, List.all_eq_true] at hm
    obtain ⟨⟨⟨hcount, hids⟩, hinc⟩, hnext⟩ := hm
    split at hs
    · rename_i rows hrows
      cases hs
      have hle : s.notified ≤ (s.table ++ rows).length := by
        have := h.notified_le
        simp only [List.length_append]
        omega
      refine ⟨h.sequential.append (added_of_rows hcount hids hinc hrows) hnext, hle, h.unheard, h.silent,
        k, hk, ?_, hph.grow (hk.trans h.notified_le)⟩
      rw [List.take_append_of_le_length h.notified_le]
      exact hq
    · cases hs
  · cases hs

theorem notify (h : Inv tenantId name startIndex s) (hc : listened .notify s = true)
    (hs : Live.step C tenantId name startIndex .notify s = some s') : Inv tenantId name startIndex s' := by
  obtain ⟨k, hk, hq, hph⟩ := h.reading
  simp only [Live.step] at hs
  split at hs
  · rename_i row hrow
    cases hs
    obtain ⟨hlt, rfl⟩ := List.getElem?_eq_some_iff.1 hrow
    cases hl : s.listening with
    | true =>
      refine ⟨h.sequential, hlt, h.unheard, fun h' => (by cases h'), k, Nat.le_succ_of_le hk, ?_, hl ▸ hph⟩
      -- The notification joins the queue.
      rw [if_pos rfl, ← List.append_assoc, hq, List.take_succ_eq_append_getElem hlt,
        List.drop_append_of_le_length (by rw [List.length_take]; omega)]
      simp
    | false =>
      -- It reaches nobody.
      obtain ⟨hin, hf⟩ := h.silent hl
      rw [hin, hf] at hq
      obtain rfl := h.eq_notified hk hq
      have hseen : ∀ n, s.phase.seen = some n → s.notified < n := by
        intro n hn
        simpa [listened, hl, hn] using hc
      refine ⟨h.sequential, hlt, h.unheard, fun _ => ⟨hin, hf⟩, s.notified + 1, le_refl _, ?_, ?_⟩
      · rw [if_neg Bool.false_ne_true, hin, hf, List.drop_eq_nil_of_le (List.length_take_le _ _)]
        rfl
      · rw [hl] at hph
        exact hph.skip hseen
  · cases hs

theorem listen (h : Inv tenantId name startIndex s) (hs : Live.step C tenantId name startIndex .listen s = some s') :
    Inv tenantId name startIndex s' := by
  obtain ⟨k, hk, hq, hph⟩ := h.reading
  simp only [Live.step] at hs
  split at hs
  · cases hs
    exact ⟨h.sequential, h.notified_le, h.unheard, fun h' => (by cases h'), k, hk, hq, hph.listen⟩
  · cases hs

theorem subscribe (h : Inv tenantId name startIndex s)
    (hs : Live.step C tenantId name startIndex .subscribe s = some s') : Inv tenantId name startIndex s' := by
  obtain ⟨k, hk, hq, hph⟩ := h.reading
  simp only [Live.step] at hs
  split at hs
  · split at hs
    · cases hs
      refine ⟨h.sequential, h.notified_le, fun h' => (by cases h'), h.silent, k, hk, hq, k, le_refl k, ?_, fun _ => rfl⟩
      exact eventsBetween_self.symm
    · cases hs
  · cases hs

theorem select (h : Inv tenantId name startIndex s) (hs : Live.step C tenantId name startIndex .select s = some s') :
    Inv tenantId name startIndex s' := by
  obtain ⟨k, hk, hq, hph⟩ := h.reading
  simp only [Live.step] at hs
  split at hs
  · rename_i buffer hp
    cases hs
    rw [hp] at hph
    obtain ⟨j, hj, hbuf, hl⟩ := hph
    have hn := h.notified_le
    refine ⟨h.sequential, hn, fun h' => (by cases h'), h.silent, k, hk, hq, j, hj, s.table.length, le_refl _, by omega,
      ?_, hbuf, hl⟩
    rw [h.sequential.streamRows_eq, h.sequential.orderById_eq, List.take_length]
  · cases hs

theorem receive (h : Inv tenantId name startIndex s) (hs : Live.step C tenantId name startIndex .receive s = some s') :
    Inv tenantId name startIndex s' := by
  obtain ⟨k, hk, hq, hph⟩ := h.reading
  simp only [Live.step] at hs
  split at hs
  · rename_i id rest hin
    cases hs
    have hl : s.listening = true := by
      by_contra hl
      rw [(h.silent (by simpa using hl)).1] at hin
      cases hin
    rw [hin] at hq
    cases hp : s.phase.listens with
    | true =>
      refine ⟨h.sequential, h.notified_le, fun h' => (by cases hp.symm.trans h'), fun h' => (by cases hl.symm.trans h'),
        k, hk, ?_, hph⟩
      rw [if_pos rfl, List.append_assoc]
      exact hq
    | false =>
      -- Without a listener the notification is dropped.
      have hf := h.unheard hp
      rw [hf, List.nil_append] at hq
      obtain ⟨row, -, -, hlt, hrest⟩ := next hk hq
      refine ⟨h.sequential, h.notified_le, fun _ => hf, fun h' => (by cases hl.symm.trans h'), k + 1, hlt, ?_, ?_⟩
      · rw [if_neg Bool.false_ne_true, hf, List.nil_append]
        exact hrest
      · cases hph' : s.phase with
        | idle => trivial
        | _ =>
          rw [hph'] at hp
          cases hp
  · cases hs

theorem fetch (h : Inv tenantId name startIndex s) (hs : Live.step C tenantId name startIndex .fetch s = some s') :
    Inv tenantId name startIndex s' := by
  obtain ⟨k, hk, hq, hph⟩ := h.reading
  simp only [Live.step] at hs
  split at hs
  · rename_i id rest hf
    cases hs
    have hl : s.listening = true := by
      by_contra hl
      rw [(h.silent (by simpa using hl)).2] at hf
      cases hf
    rw [hf, List.cons_append] at hq
    obtain ⟨row, hrow, rfl, hlt, hrest⟩ := next hk hq
    rw [hl] at hph
    have hmem : row ∈ s.table := List.mem_of_getElem? hrow
    refine ⟨h.sequential, h.notified_le, fun h' => ?_, fun h' => (by cases hl.symm.trans h'), k + 1, hlt, hrest, ?_⟩
    · have hidle : s.phase.listens = false := by
        cases hp : s.phase <;> rw [hp] at h' <;> first | rfl | cases h'
      rw [h.unheard hidle] at hf
      cases hf
    · rw [h.sequential.fetched_eq hmem]
      exact hl ▸ hph.onData hrow
  · cases hs

theorem drain (h : Inv tenantId name startIndex s) (hs : Live.step C tenantId name startIndex .drain s = some s') :
    Inv tenantId name startIndex s' := by
  obtain ⟨k, hk, hq, hph⟩ := h.reading
  simp only [Live.step] at hs
  split at hs
  · rename_i rows buffer hp
    rw [hp] at hph
    obtain ⟨j, hj, n, hn, hjn, rfl, rfl, -⟩ := hph
    rw [drained_of_sound (h.sequential.take n).sound, foldl_eventsBetween hjn] at hs
    cases hs
    have hle := h.notified_le
    refine ⟨h.sequential, hle, fun h' => (by cases h'), h.silent, k, hk, hq, max n k, max_le hn (hk.trans hle),
      le_max_right _ _, ?_, rfl⟩
    rw [List.length_take]
    exact (min_le_left _ _).trans (le_max_left _ _)
  · cases hs

theorem step {e : LiveEvent} (h : Inv tenantId name startIndex s) (hc : listened e s = true)
    (hs : Live.step C tenantId name startIndex e s = some s') : Inv tenantId name startIndex s' := by
  cases e with
  | commit call compactSnapshots ids => exact h.commit hs
  | notify => exact h.notify hc hs
  | create =>
    simp only [Live.step] at hs
    split at hs
    · cases hs
    · cases hs
      exact ⟨h.sequential, h.notified_le, h.unheard, h.silent, h.reading⟩
  | listen => exact h.listen hs
  | subscribe => exact h.subscribe hs
  | select => exact h.select hs
  | receive => exact h.receive hs
  | fetch => exact h.fetch hs
  | drain => exact h.drain hs

/-- The rows that a live reader has been given. -/
theorem given {seen : Nat} {reader : Reader} (h : Inv tenantId name startIndex s) (hp : s.phase = .live seen reader) :
    ∃ m ≤ s.table.length, (s.fetches ++ s.inbox = [] → s.notified ≤ m) ∧
      reader.enqueued = expected tenantId name startIndex (s.table.take m) ∧
      reader.closed = (s.table.take m).any (·.eof) := by
  obtain ⟨k, hk, hq, hph⟩ := h.reading
  rw [hp] at hph
  obtain ⟨m, hm, hkm, -, rfl⟩ := hph
  refine ⟨m, hm, fun hnil => ?_, (h.sequential.take m).readerAt_eq⟩
  rw [hnil] at hq
  rw [← h.eq_notified hk hq]
  exact hkm

theorem inOrder (h : Inv tenantId name startIndex s) : s.delivered <+: expected tenantId name startIndex s.table := by
  unfold Live.delivered
  split
  · rename_i seen reader hp
    obtain ⟨m, hm, -, hd, -⟩ := h.given hp
    rw [hd]
    simpa using h.sequential.expected_prefix hm
  · exact List.nil_prefix

theorem closes (h : Inv tenantId name startIndex s) (hc : s.closed = true) :
    s.table.any (·.eof) = true ∧ s.delivered = expected tenantId name startIndex s.table := by
  unfold Live.closed at hc
  split at hc
  · rename_i seen reader hp
    obtain ⟨m, hm, -, hd, hcl⟩ := h.given hp
    rw [hcl] at hc
    obtain ⟨row, hr, he⟩ := List.any_eq_true.1 hc
    refine ⟨List.any_eq_true.2 ⟨row, List.mem_of_mem_take hr, he⟩, ?_⟩
    simp only [Live.delivered, hp, hd]
    exact h.sequential.expected_of_eof hc
  · cases hc

theorem complete (h : Inv tenantId name startIndex s) (hq : s.quiet = true) :
    expected tenantId name startIndex (s.table.take s.notified) <+: s.delivered ∧
      ((s.table.take s.notified).any (·.eof) = true → s.closed = true) := by
  simp only [Live.quiet, Bool.and_eq_true, List.isEmpty_iff] at hq
  obtain ⟨⟨hlive, hin⟩, hf⟩ := hq
  cases hp : s.phase with
  | live seen reader =>
    obtain ⟨m, hm, hle, hd, hcl⟩ := h.given hp
    have hle := hle (by rw [hf, hin]; rfl)
    simp only [Live.delivered, Live.closed, hp, hd, hcl]
    refine ⟨h.sequential.expected_prefix hle, fun heof => ?_⟩
    obtain ⟨row, hr, he⟩ := List.any_eq_true.1 heof
    exact List.any_eq_true.2 ⟨row, (List.take_prefix_take_left hle).subset hr, he⟩
  | _ =>
    rw [hp] at hlive
    cases hlive

/-! ### What is under way can be worked off -/

end Live.Inv

/-- How far the reader is from having drained. -/
def Phase.left : Phase → Nat
  | .idle => 3
  | .subscribed _ => 2
  | .selected .. => 1
  | _ => 0

/-- What is left to do before the reader has drained and every notification has been handled. -/
def Live.left (s : Live) : Nat :=
  3 * (s.table.length - s.notified) + 2 * s.inbox.length + s.fetches.length + s.phase.left +
    (if s.created then 0 else 1) + (if s.listening then 0 else 1)

theorem Phase.left_onData (phase : Phase) (events : List StreamChunkEvent) : (phase.onData events).left = phase.left := by
  cases phase <;> rfl

/-- Until all is done there is something to do that leaves less. -/
theorem Live.Inv.progress (h : Inv tenantId name startIndex s) :
    (s.quiet = true ∧ s.notified = s.table.length) ∨ ∃ e s', listened e s = true ∧
      Live.step C tenantId name startIndex e s = some s' ∧ s'.table = s.table ∧ s'.left < s.left := by
  have hle := h.notified_le
  by_cases hcr : s.created
  swap
  · refine .inr ⟨.create, { s with created := true }, rfl, by simp [Live.step, hcr], rfl, ?_⟩
    simp [Live.left, hcr]
  by_cases hl : s.listening
  swap
  · refine .inr ⟨.listen, { s with listening := true }, rfl, by simp [Live.step, hcr, hl], rfl, ?_⟩
    simp [Live.left, hl]
  by_cases hn : s.notified < s.table.length
  · have hs : Live.step C tenantId name startIndex .notify s = some { s with
        notified := s.notified + 1, inbox := s.inbox ++ [s.table[s.notified].chunkId] } := by
      simp only [Live.step, List.getElem?_eq_getElem hn, if_pos hl]
    refine .inr ⟨.notify, _, by simp [listened, hl], hs, rfl, ?_⟩
    simp only [Live.left, List.length_append, List.length_singleton]
    omega
  rcases hin : s.inbox with _ | ⟨id, rest⟩
  swap
  · have hs : Live.step C tenantId name startIndex .receive s = some { s with
        inbox := rest, fetches := if s.phase.listens then s.fetches ++ [id] else s.fetches } := by
      simp only [Live.step, hin]
    have hlen : (if s.phase.listens then s.fetches ++ [id] else s.fetches).length ≤ s.fetches.length + 1 := by
      split <;> simp
    refine .inr ⟨.receive, _, rfl, hs, rfl, ?_⟩
    simp only [Live.left, hin, List.length_cons]
    omega
  rcases hf : s.fetches with _ | ⟨id, rest⟩
  swap
  · have hs : Live.step C tenantId name startIndex .fetch s = some { s with
        fetches := rest, phase := s.phase.onData (fetched tenantId name id s.table) } := by
      simp only [Live.step, hf]
    refine .inr ⟨.fetch, _, rfl, hs, rfl, ?_⟩
    simp [Live.left, hf, Phase.left_onData]
  cases hp : s.phase with
  | idle =>
    refine .inr ⟨.subscribe, { s with phase := .subscribed [] }, rfl, by simp [Live.step, hp, hcr], rfl, ?_⟩
    simp [Live.left, hp, Phase.left]
  | subscribed buffer =>
    have hs : Live.step C tenantId name startIndex .select s = some { s with
        phase := .selected (orderById (streamRows tenantId name s.table)) buffer } := by
      simp only [Live.step, hp]
    refine .inr ⟨.select, _, rfl, hs, rfl, ?_⟩
    simp [Live.left, hp, Phase.left]
  | selected rows buffer =>
    obtain ⟨k, -, -, hph⟩ := h.reading
    rw [hp] at hph
    obtain ⟨j, -, n, -, -, rfl, -, -⟩ := hph
    have hs : Live.step C tenantId name startIndex .drain s = some { s with
        phase := .live (s.table.take n).length
          (buffer.foldl Reader.enqueue (readerAt startIndex (s.table.take n))) } := by
      simp only [Live.step, hp, drained_of_sound (h.sequential.take n).sound]
    refine .inr ⟨.drain, _, rfl, hs, rfl, ?_⟩
    simp [Live.left, hp, Phase.left]
  | live seen reader => exact .inl ⟨by simp [Live.quiet, hp, hin, hf], by omega⟩
  | errored =>
    obtain ⟨k, -, -, hph⟩ := h.reading
    rw [hp] at hph
    exact hph.elim

theorem Live.Inv.settles (h : Inv tenantId name startIndex s) :
    ∃ s', Machine.Reaches (Live.step C tenantId name startIndex) listened s s' ∧ s'.quiet = true ∧
      s'.table = s.table ∧ s'.notified = s'.table.length := by
  obtain ⟨s', hr, ⟨-, ht⟩, hq, hn⟩ := Machine.exists_reaches_of_measure
    (P := fun s' => Inv tenantId name startIndex s' ∧ s'.table = s.table)
    (Q := fun s' => s'.quiet = true ∧ s'.notified = s'.table.length) Live.left
    (fun s₁ ⟨h₁, ht₁⟩ => (h₁.progress (C := C)).imp_right fun ⟨e, s₂, hc, hs, ht, hlt⟩ =>
      ⟨e, s₂, hc, hs, ⟨h₁.step hc hs, ht.trans ht₁⟩, hlt⟩) ⟨h, rfl⟩
  exact ⟨s', hr, hq, ht, hn⟩

/-! ## Live reads -/

/-- A live read delivers exactly once, in every run in which the LISTEN is active when a row that the
reader's select did not have is notified. -/
theorem live_read_delivers {s : Live}
    (h : Machine.Reaches (Live.step C tenantId name startIndex) listened {} s) :
    s.Delivers C tenantId name startIndex listened := by
  have hinv : s.Inv tenantId name startIndex := h.invariant .init fun _ _ _ hi hc hs => hi.step hc hs
  exact ⟨hinv.inOrder, hinv.closes, hinv.complete, hinv.settles⟩

/-- A chunk that reaches the reader through its select and its buffer, and the EOF through the emitter. -/
def heardRun : List LiveEvent :=
  [.create, .listen, .subscribe, .commit (.write "r" "s" [111, 110, 101]) true ["chnk_00000000000000000000000001"],
    .notify, .select, .receive, .fetch, .drain, .commit (.close "r" "s") true ["chnk_00000000000000000000000002"],
    .notify, .receive, .fetch]

theorem live_read_delivers_heardRun :
    ∃ s : Live, (s.delivered = [[111, 110, 101]] ∧ s.closed = true ∧ s.quiet = true) ∧
      s.Delivers noCompaction "t" "s" 0 listened := by
  obtain ⟨s, hr, hs⟩ := @Machine.exists_of_play _ _ (Live.step noCompaction "t" "s" 0) listened {}
    heardRun (fun s => decide (s.delivered = [[111, 110, 101]] ∧ s.closed = true ∧ s.quiet = true)) (by decide +kernel)
  exact ⟨s, of_decide_eq_true hs, live_read_delivers hr⟩

/-- The reader selects before the LISTEN is active, and a chunk is notified in between. -/
def unheardRun : List LiveEvent :=
  [.create, .subscribe, .select, .drain, .commit (.write "r" "s" [111, 110, 101]) true ["chnk_00000000000000000000000001"],
    .notify, .listen, .commit (.close "r" "s") true ["chnk_00000000000000000000000002"], .notify, .receive, .fetch]

/-- The chunk is skipped: the reader closes without it. -/
theorem live_read_skips_unheardRun :
    ¬ ∀ (C : SnapshotCompaction) (tenantId name : String) (startIndex : Nat) (s : Live),
      Machine.Reaches (Live.step C tenantId name startIndex) Machine.always {} s →
      s.Delivers C tenantId name startIndex Machine.always := by
  intro h
  obtain ⟨s, hr, hs⟩ := @Machine.exists_of_play _ _ (Live.step noCompaction "t" "s" 0) Machine.always {}
    unheardRun
    (fun s => decide (s.closed = true ∧ s.delivered = [] ∧ expected "t" "s" 0 s.table = [[111, 110, 101]]))
    (by decide +kernel)
  obtain ⟨hc, hd, he⟩ := of_decide_eq_true hs
  have heq := ((h noCompaction "t" "s" 0 s hr).closes hc).2
  rw [hd, he] at heq
  cases heq

end WorkflowWorld.Streams
