/-
The subscription of a streamer (`createStreamer`, `src/streamer.ts`): notifications of any number of streams, each with a
handler of its own that fetches a row and emits its events. The handlers of one stream wait for one another by a chain of
promises (`Mutex`, `src/util.ts`), found by the stream's key; those of different streams do not wait.
-/
import WorkflowWorld.Streams.Live

namespace WorkflowWorld.Streams.Listener

/-! ## The machine -/

inductive Stage where
  /-- For the promise before its own. -/
  | waiting
  | fetching
  | done
  deriving DecidableEq, Repr

/-- The handler of a notification, in its turn at the mutex. -/
structure Handler where
  key : String
  chunkId : String
  /-- The promise that `andThen` found: the handler it is of, or none that is resolved. -/
  previous : Option Nat
  stage : Stage
  deriving DecidableEq, Repr

/-- `Rc` of a `Mutex`. What `getMutex` acquires is never released. -/
structure Mutex where
  promise : Option Nat := none
  refCount : Nat := 0
  deriving DecidableEq, Repr

structure State where
  mutexes : String → Option Mutex := fun _ => none
  /-- In the order in which their notifications were handled. -/
  handlers : List Handler := []
  /-- The handlers that are through, in the order in which they got there, and whether they emitted. -/
  finished : List (Handler × Bool) := []

/-- A notification as it was sent. -/
structure StreamPublishMessage where
  streamId : String
  chunkId : String
  deriving DecidableEq, Repr

inductive Event where
  /-- `none`: the payload is not a message. `listens`: `events.listenerCount(key)` is not 0. -/
  | notify (message : Option StreamPublishMessage) (listens : Bool)
  /-- The promise before the handler's has settled. -/
  | start (handler : Nat)
  /-- The row was fetched and its events were emitted, or something threw. -/
  | finish (handler : Nat) (ok : Bool)
  deriving DecidableEq, Repr

def keyOf (streamId : String) : String := "strm:" ++ streamId

namespace State

def getMutex (s : State) (key : String) : Mutex :=
  let mutex := (s.mutexes key).getD {}
  { mutex with refCount := mutex.refCount + 1 }

def settled (s : State) : Option Nat → Bool
  | none => true
  | some i => s.handlers[i]?.any (·.stage = .done)

def setStage (s : State) (i : Nat) (h : Handler) (stage : Stage) : State := { s with handlers := s.handlers.set i { h with stage } }

end State

def step : Event → State → Option State
  | .notify none _, s => some s
  | .notify (some _) false, s => some s
  | .notify (some message) true, s =>
    let key := keyOf message.streamId
    let mutex := s.getMutex key
    some { s with
      mutexes := fun k => if k = key then some { mutex with promise := some s.handlers.length } else s.mutexes k
      handlers := s.handlers ++ [⟨key, message.chunkId, mutex.promise, .waiting⟩] }
  | .start i, s =>
    s.handlers[i]?.bind fun h => if h.stage = .waiting ∧ s.settled h.previous = true then some (s.setStage i h .fetching) else none
  | .finish i ok, s =>
    s.handlers[i]?.bind fun h =>
      if h.stage = .fetching then some { s.setStage i h .done with finished := s.finished ++ [(h, ok)] } else none

/-! ## What each stream sees -/

def Handler.isOf (key : String) (h : Handler) : Bool := h.key = key

def Handler.pending (key : String) (h : Handler) : Bool := h.isOf key && h.stage != .done

/-- The chunks whose notifications were accepted. -/
def State.accepted (s : State) (key : String) : List String := (s.handlers.filter (·.isOf key)).map (·.chunkId)

/-- Those that wait for their fetch, or are being fetched. -/
def State.queue (s : State) (key : String) : List String := (s.handlers.filter (·.pending key)).map (·.chunkId)

/-- Those that were worked off. -/
def State.workedOff (s : State) (key : String) : List String := (s.finished.filter (·.1.isOf key)).map (·.1.chunkId)

/-- Those whose events were emitted. -/
def State.emitted (s : State) (key : String) : List String :=
  (s.finished.filter fun x => x.1.isOf key && x.2).map (·.1.chunkId)

/-- The handler whose promise the stream's mutex holds. -/
def State.tail (s : State) (key : String) : Option Nat := (s.mutexes key).bind (·.promise)

/-- Each handler waits for the one before it of its stream, and goes on when all before it are done. -/
structure Inv (s : State) : Prop where
  tail : ∀ key p, s.tail key = some p → ∃ h, s.handlers[p]? = some h ∧ h.key = key
  last : ∀ (j : Nat) h, s.handlers[j]? = some h → ∃ p, s.tail h.key = some p ∧ j ≤ p
  behind : ∀ (i : Nat) h p, s.handlers[i]? = some h → h.previous = some p →
    p < i ∧ ∃ h', s.handlers[p]? = some h' ∧ h'.key = h.key
  next : ∀ (i : Nat) h (j : Nat) h', s.handlers[i]? = some h → j < i → s.handlers[j]? = some h' → h'.key = h.key →
    ∃ p, h.previous = some p ∧ j ≤ p
  inTurn : ∀ (i : Nat) h (j : Nat) h', s.handlers[i]? = some h → h.stage ≠ .waiting → j < i → s.handlers[j]? = some h' →
    h'.key = h.key → h'.stage = .done

section Steps

variable {s s' : State} {i j : Nat} {h h' : Handler} {stage : Stage} {key : String}

theorem promise_getMutex (s : State) (key : String) : (s.getMutex key).promise = s.tail key := by
  unfold State.getMutex State.tail
  cases s.mutexes key <;> rfl

/-! ### Notifications -/

/-- The state after an accepted notification. -/
def State.notified (s : State) (key chunkId : String) : State :=
  { s with
    mutexes := fun k => if k = key then some { s.getMutex key with promise := some s.handlers.length } else s.mutexes k
    handlers := s.handlers ++ [⟨key, chunkId, s.tail key, .waiting⟩] }

theorem step_notify (message : StreamPublishMessage) (s : State) :
    step (.notify (some message) true) s = some (s.notified (keyOf message.streamId) message.chunkId) := by
  simp only [step, State.notified, promise_getMutex]

theorem tail_notified (s : State) (key chunkId k : String) :
    (s.notified key chunkId).tail k = if k = key then some s.handlers.length else s.tail k := by
  unfold State.tail State.notified
  dsimp only
  split <;> rfl

/-- The handlers are those of before and the new one. -/
theorem of_notified {chunkId : String} (hj : (s.notified key chunkId).handlers[j]? = some h) :
    (j < s.handlers.length ∧ s.handlers[j]? = some h) ∨ (j = s.handlers.length ∧ h = ⟨key, chunkId, s.tail key, .waiting⟩) := by
  simp only [State.notified] at hj
  rw [List.getElem?_append] at hj
  split at hj
  · rename_i hlt
    exact .inl ⟨hlt, hj⟩
  · rename_i hge
    have hzero : j - s.handlers.length = 0 := by
      by_contra hne
      rw [List.getElem?_eq_none (by simp; omega)] at hj
      cases hj
    rw [hzero] at hj
    exact .inr ⟨by omega, (Option.some.inj hj).symm⟩

theorem getElem?_notified {chunkId : String} (hj : s.handlers[j]? = some h) : (s.notified key chunkId).handlers[j]? = some h := by
  obtain ⟨hlt, -⟩ := List.getElem?_eq_some_iff.1 hj
  simp only [State.notified]
  rw [List.getElem?_append_left hlt, hj]

theorem Inv.notified (hs : Inv s) (key chunkId : String) : Inv (s.notified key chunkId) := by
  have hlt : ∀ (j : Nat) h, s.handlers[j]? = some h → j < s.handlers.length := fun j h hj => (List.getElem?_eq_some_iff.1 hj).1
  constructor
  case tail =>
    intro k p hp
    rw [tail_notified] at hp
    split at hp
    · rename_i hk
      cases hp
      refine ⟨⟨key, chunkId, s.tail key, .waiting⟩, ?_, hk.symm⟩
      simp only [State.notified]
      exact List.getElem?_concat_length
    · obtain ⟨h, hh, hk⟩ := hs.tail k p hp
      exact ⟨h, getElem?_notified hh, hk⟩
  case last =>
    intro j h hj
    rw [tail_notified]
    rcases of_notified hj with ⟨hlt, hj⟩ | ⟨rfl, rfl⟩
    · split
      · exact ⟨_, rfl, by omega⟩
      · exact hs.last j h hj
    · rw [if_pos rfl]
      exact ⟨_, rfl, Nat.le_refl _⟩
  case behind =>
    intro i h p hi hp
    rcases of_notified hi with ⟨-, hi⟩ | ⟨rfl, rfl⟩
    · obtain ⟨hlt, h', hh', hk⟩ := hs.behind i h p hi hp
      exact ⟨hlt, h', getElem?_notified hh', hk⟩
    · obtain ⟨h', hh', hk⟩ := hs.tail key p hp
      exact ⟨hlt p h' hh', h', getElem?_notified hh', hk⟩
  case next =>
    intro i h j h' hi hji hj hk
    rcases of_notified hj with ⟨hjl, hj⟩ | ⟨rfl, rfl⟩
    · rcases of_notified hi with ⟨-, hi⟩ | ⟨rfl, rfl⟩
      · exact hs.next i h j h' hi hji hj hk
      · -- the new handler waits for the last one of its stream
        obtain ⟨p, hp, hle⟩ := hs.last j h' hj
        rw [hk] at hp
        exact ⟨p, hp, hle⟩
    · rcases of_notified hi with ⟨hil, -⟩ | ⟨rfl, -⟩ <;> omega
  case inTurn =>
    intro i h j h' hi hstage hji hj hk
    rcases of_notified hi with ⟨hil, hi⟩ | ⟨rfl, rfl⟩
    · rcases of_notified hj with ⟨-, hj⟩ | ⟨rfl, -⟩
      · exact hs.inTurn i h j h' hi hstage hji hj hk
      · omega
    · exact absurd rfl hstage

/-! ### Turns -/

/-- A handler is as it was but for the stage of the one that goes on. -/
theorem of_setStage (hi : s.handlers[i]? = some h) (hj : (s.setStage i h stage).handlers[j]? = some h') :
    ∃ h₀, s.handlers[j]? = some h₀ ∧ h₀.key = h'.key ∧ h₀.previous = h'.previous ∧
      ((j = i ∧ h₀ = h ∧ h'.stage = stage) ∨ (j ≠ i ∧ h₀ = h')) := by
  simp only [State.setStage] at hj
  by_cases hji : j = i
  · subst hji
    rw [List.getElem?_set_self (List.getElem?_eq_some_iff.1 hi).1] at hj
    cases hj
    exact ⟨h, hi, rfl, rfl, .inl ⟨rfl, rfl, rfl⟩⟩
  · rw [List.getElem?_set_ne (Ne.symm hji)] at hj
    exact ⟨h', hj, rfl, rfl, .inr ⟨hji, rfl⟩⟩

theorem getElem?_setStage (stage : Stage) (hi : s.handlers[i]? = some h) (hj : s.handlers[j]? = some h') :
    ∃ h'', (s.setStage i h stage).handlers[j]? = some h'' ∧ h''.key = h'.key := by
  simp only [State.setStage]
  by_cases hji : j = i
  · subst hji
    rw [hi] at hj
    cases hj
    exact ⟨_, List.getElem?_set_self (List.getElem?_eq_some_iff.1 hi).1, rfl⟩
  · rw [List.getElem?_set_ne (Ne.symm hji)]
    exact ⟨h', hj, rfl⟩

/-- A handler that is not done goes on where all before it are. -/
theorem Inv.setStage (hs : Inv s) (hi : s.handlers[i]? = some h) (hnot : h.stage ≠ .done)
    (hturn : ∀ (j : Nat) h', j < i → s.handlers[j]? = some h' → h'.key = h.key → h'.stage = .done) :
    Inv (s.setStage i h stage) := by
  constructor
  case tail =>
    intro key p hp
    obtain ⟨h', hh', hk⟩ := hs.tail key p hp
    obtain ⟨h'', hh'', hk'⟩ := getElem?_setStage stage hi hh'
    exact ⟨h'', hh'', hk'.trans hk⟩
  case last =>
    intro j h' hj
    obtain ⟨h₀, hj, hk, -, -⟩ := of_setStage hi hj
    rw [← hk]
    exact hs.last j h₀ hj
  case behind =>
    intro k h' p hk hp
    obtain ⟨h₀, hk, hkey, hprev, -⟩ := of_setStage hi hk
    obtain ⟨hlt, hb, hhb, hkb⟩ := hs.behind k h₀ p hk (hprev.trans hp)
    obtain ⟨hb', hhb', hkb'⟩ := getElem?_setStage stage hi hhb
    exact ⟨hlt, hb', hhb', hkb'.trans (hkb.trans hkey)⟩
  case next =>
    intro k hk' j hj' hk hjk hj hkey
    obtain ⟨k₀, hk, hkk, hprev, -⟩ := of_setStage hi hk
    obtain ⟨j₀, hj, hkj, -, -⟩ := of_setStage hi hj
    rw [← hprev]
    exact hs.next k k₀ j j₀ hk hjk hj (hkj.trans (hkey.trans hkk.symm))
  case inTurn =>
    intro k hk' j hj' hk hstage hjk hj hkey
    obtain ⟨k₀, hk₀, hkk, -, hkind⟩ := of_setStage hi hk
    obtain ⟨j₀, hj₀, hkj, -, hjind⟩ := of_setStage hi hj
    have hkey₀ : j₀.key = k₀.key := hkj.trans (hkey.trans hkk.symm)
    rcases hkind with ⟨hki, hkh, -⟩ | ⟨-, hkh⟩
    · -- it is the one that goes on
      rcases hjind with ⟨hji, -, -⟩ | ⟨-, hjh⟩
      · omega
      · rw [← hjh]
        exact hturn j j₀ (by omega) hj₀ (by rw [hkey₀, hkh])
    · rw [← hkh] at hstage
      have hdone := hs.inTurn k k₀ j j₀ hk₀ hstage hjk hj₀ hkey₀
      rcases hjind with ⟨-, hjh, -⟩ | ⟨-, hjh⟩
      · rw [hjh] at hdone
        exact absurd hdone hnot
      · rw [← hjh]
        exact hdone

/-- When the promise before it has settled, all before it are done. -/
theorem Inv.settled (hs : Inv s) (hi : s.handlers[i]? = some h) (hsettled : s.settled h.previous = true) (hji : j < i)
    (hj : s.handlers[j]? = some h') (hk : h'.key = h.key) : h'.stage = .done := by
  obtain ⟨p, hp, hle⟩ := hs.next i h j h' hi hji hj hk
  obtain ⟨hlt, hb, hhb, hkb⟩ := hs.behind i h p hi hp
  rw [hp, State.settled, hhb] at hsettled
  have hdone : hb.stage = .done := of_decide_eq_true hsettled
  rcases Nat.lt_or_eq_of_le hle with hlt' | rfl
  · exact hs.inTurn p hb j h' hhb (by rw [hdone]; intro hne; cases hne) hlt' hj (hk.trans hkb.symm)
  · rw [hj] at hhb
    cases hhb
    exact hdone

/-- What a step is: a notification that is accepted, a handler that goes on, or nothing. -/
theorem step_cases {e : Event} (hstep : step e s = some s') :
    s' = s ∨ (∃ key chunkId, s' = s.notified key chunkId) ∨
    (∃ i h, s.handlers[i]? = some h ∧ h.stage = .waiting ∧ s.settled h.previous = true ∧ s' = s.setStage i h .fetching) ∨
    ∃ i h ok, e = .finish i ok ∧ s.handlers[i]? = some h ∧ h.stage = .fetching ∧
      s' = { s.setStage i h .done with finished := s.finished ++ [(h, ok)] } := by
  cases e with
  | notify message listens =>
    cases message with
    | none =>
      cases hstep
      exact .inl rfl
    | some message =>
      cases listens with
      | false =>
        cases hstep
        exact .inl rfl
      | true =>
        rw [step_notify] at hstep
        cases hstep
        exact .inr (.inl ⟨_, _, rfl⟩)
  | start i =>
    obtain ⟨h, hi, hstep⟩ := Option.bind_eq_some_iff.1 hstep
    split at hstep
    · rename_i hgo
      cases hstep
      exact .inr (.inr (.inl ⟨i, h, hi, hgo.1, hgo.2, rfl⟩))
    · cases hstep
  | finish i ok =>
    obtain ⟨h, hi, hstep⟩ := Option.bind_eq_some_iff.1 hstep
    split at hstep
    · rename_i hgo
      cases hstep
      exact .inr (.inr (.inr ⟨i, h, ok, rfl, hi, hgo, rfl⟩))
    · cases hstep

theorem Inv.step {e : Event} (hs : Inv s) (hstep : step e s = some s') : Inv s' := by
  rcases step_cases hstep with rfl | ⟨key, chunkId, rfl⟩ | ⟨i, h, hi, hw, hsettled, rfl⟩ | ⟨i, h, ok, -, hi, hf, rfl⟩
  · exact hs
  · exact hs.notified key chunkId
  · refine hs.setStage hi (by rw [hw]; intro hne; cases hne) fun j h' hji hj hk => hs.settled hi hsettled hji hj hk
  · have hdone : Inv (s.setStage i h .done) :=
      hs.setStage hi (by rw [hf]; intro hne; cases hne) fun j h' hji hj hk =>
        hs.inTurn i h j h' hi (by rw [hf]; intro hne; cases hne) hji hj hk
    exact ⟨hdone.tail, hdone.last, hdone.behind, hdone.next, hdone.inTurn⟩

/-! ### The queue of a stream -/

theorem chunks_set {p : Handler → Bool} {a : Handler} {l : List Handler} (hi : i < l.length) :
    ((l.set i a).filter p).map (·.chunkId) = ((l.take i).filter p).map (·.chunkId) ++
      ((if p a = true then [a.chunkId] else []) ++ ((l.drop (i + 1)).filter p).map (·.chunkId)) := by
  rw [List.set_eq_take_append_cons_drop, if_pos hi, List.filter_append, List.map_append, List.filter_cons]
  congr 1
  split <;> simp

theorem chunks_split {p : Handler → Bool} (hi : s.handlers[i]? = some h) : (s.handlers.filter p).map (·.chunkId) =
      ((s.handlers.take i).filter p).map (·.chunkId) ++
        ((if p h = true then [h.chunkId] else []) ++ ((s.handlers.drop (i + 1)).filter p).map (·.chunkId)) := by
  obtain ⟨hlt, hget⟩ := List.getElem?_eq_some_iff.1 hi
  rw [← chunks_set hlt, ← hget, List.set_getElem_self]

/-- A handler that goes on is the head of its stream's queue. -/
theorem Inv.queue_eq (hs : Inv s) (hi : s.handlers[i]? = some h) (hf : h.stage = .fetching) :
    s.queue h.key = h.chunkId :: (s.setStage i h .done).queue h.key ∧
      ∀ key, key ≠ h.key → (s.setStage i h .done).queue key = s.queue key := by
  have hlt := (List.getElem?_eq_some_iff.1 hi).1
  have hfront : (s.handlers.take i).filter (Handler.pending h.key) = [] := by
    refine List.filter_eq_nil_iff.2 fun h' hh' hp => ?_
    obtain ⟨j, hj⟩ := List.mem_iff_getElem?.1 hh'
    rw [List.getElem?_take] at hj
    split at hj
    · rename_i hji
      unfold Handler.pending Handler.isOf at hp
      rw [Bool.and_eq_true, decide_eq_true_eq, bne_iff_ne] at hp
      exact hp.2 (hs.inTurn i h j h' hi (by rw [hf]; intro hne; cases hne) hji hj hp.1)
    · cases hj
  constructor
  · unfold State.queue
    rw [chunks_split hi, State.setStage, chunks_set hlt, hfront, if_pos (by simp [Handler.pending, Handler.isOf, hf]),
      if_neg (by simp [Handler.pending])]
    rfl
  · intro key hne
    unfold State.queue
    rw [chunks_split hi, State.setStage, chunks_set hlt, if_neg (by simp [Handler.pending]),
      if_neg (by simp [Handler.pending, Handler.isOf, Ne.symm hne])]

/-- What is accepted is what was worked off, and then what waits. -/
def Fifo (s : State) : Prop := ∀ key, s.accepted key = s.workedOff key ++ s.queue key

/-- `getMutex` has acquired each stream's mutex once for every notification, and nothing has released it. -/
def Counted (s : State) : Prop := ∀ key, ((s.mutexes key).getD {}).refCount = (s.accepted key).length

theorem accepted_notified (s : State) (key chunkId k : String) :
    (s.notified key chunkId).accepted k = s.accepted k ++ (if key = k then [chunkId] else []) := by
  unfold State.accepted State.notified
  rw [List.filter_append, List.map_append]
  by_cases hk : key = k
  · rw [if_pos hk, List.filter_cons_of_pos (by simp [Handler.isOf, hk])]
    rfl
  · rw [if_neg hk, List.filter_cons_of_neg (by simp [Handler.isOf, hk])]
    rfl

theorem queue_notified (s : State) (key chunkId k : String) :
    (s.notified key chunkId).queue k = s.queue k ++ (if key = k then [chunkId] else []) := by
  unfold State.queue State.notified
  rw [List.filter_append, List.map_append]
  by_cases hk : key = k
  · rw [if_pos hk, List.filter_cons_of_pos (by simp [Handler.pending, Handler.isOf, hk])]
    rfl
  · rw [if_neg hk, List.filter_cons_of_neg (by simp [Handler.pending, Handler.isOf, hk])]
    rfl

theorem accepted_setStage (hi : s.handlers[i]? = some h) (key : String) : (s.setStage i h stage).accepted key = s.accepted key := by
  unfold State.accepted
  rw [chunks_split hi, State.setStage, chunks_set (List.getElem?_eq_some_iff.1 hi).1]
  rfl

theorem queue_fetching (hi : s.handlers[i]? = some h) (hw : h.stage = .waiting) (key : String) :
    (s.setStage i h .fetching).queue key = s.queue key := by
  unfold State.queue
  rw [chunks_split hi, State.setStage, chunks_set (List.getElem?_eq_some_iff.1 hi).1]
  simp [Handler.pending, Handler.isOf, hw]

theorem Fifo.step {e : Event} (hs : Inv s) (hfifo : Fifo s) (hstep : step e s = some s') : Fifo s' := by
  intro k
  have hk := hfifo k
  rcases step_cases hstep with rfl | ⟨key, chunkId, rfl⟩ | ⟨i, h, hi, hw, -, rfl⟩ | ⟨i, h, ok, -, hi, hf, rfl⟩
  · exact hk
  · rw [accepted_notified, queue_notified, hk, List.append_assoc]
    rfl
  · rw [accepted_setStage hi, queue_fetching hi hw]
    exact hk
  · obtain ⟨hhead, hothers⟩ := hs.queue_eq hi hf
    show (s.setStage i h .done).accepted k = ((s.finished ++ [(h, ok)]).filter fun x => x.1.isOf k).map (fun x => x.1.chunkId) ++
      (s.setStage i h .done).queue k
    rw [accepted_setStage hi, hk, List.filter_append, List.map_append]
    by_cases hkk : k = h.key
    · subst hkk
      rw [hhead, List.filter_cons_of_pos (by simp [Handler.isOf])]
      simp [State.workedOff]
    · rw [hothers k hkk, List.filter_cons_of_neg (by simp [Handler.isOf, Ne.symm hkk])]
      simp [State.workedOff]

theorem Counted.step {e : Event} (hcounted : Counted s) (hstep : step e s = some s') : Counted s' := by
  intro k
  have hk := hcounted k
  rcases step_cases hstep with rfl | ⟨key, chunkId, rfl⟩ | ⟨i, h, hi, -, -, rfl⟩ | ⟨i, h, ok, -, hi, -, rfl⟩
  · exact hk
  · rw [accepted_notified, List.length_append, ← hk]
    by_cases hkk : key = k
    · subst hkk
      simp [State.notified, State.getMutex]
    · simp [State.notified, hkk, Ne.symm hkk]
  · rw [accepted_setStage hi]
    exact hk
  · show _ = ((s.setStage i h .done).accepted k).length
    rw [accepted_setStage hi]
    exact hk

/-! ### Progress -/

/-- The first of a stream that is not done. -/
theorem exists_first (hne : s.queue key ≠ []) : ∃ (i : Nat) (h : Handler),
    s.handlers[i]? = some h ∧ h.key = key ∧ h.stage ≠ .done ∧
    ∀ (j : Nat) h', j < i → s.handlers[j]? = some h' → h'.key = key → h'.stage = .done := by
  have hex : ∃ i : Nat, ∃ h : Handler, s.handlers[i]? = some h ∧ h.key = key ∧ h.stage ≠ .done := by
    obtain ⟨c, hc⟩ := List.exists_mem_of_ne_nil _ hne
    obtain ⟨h, hh, -⟩ := List.mem_map.1 hc
    obtain ⟨hmem, hp⟩ := List.mem_filter.1 hh
    unfold Handler.pending Handler.isOf at hp
    rw [Bool.and_eq_true, decide_eq_true_eq, bne_iff_ne] at hp
    obtain ⟨i, hi⟩ := List.mem_iff_getElem?.1 hmem
    exact ⟨i, h, hi, hp.1, hp.2⟩
  classical
  obtain ⟨h, hi, hk, hnot⟩ := Nat.find_spec hex
  refine ⟨Nat.find hex, h, hi, hk, hnot, fun j h' hj hh' hk' => ?_⟩
  by_contra hne'
  exact Nat.find_min hex hj ⟨h', hh', hk', hne'⟩

/-- The first of a stream goes through, whatever the other streams do not do. -/
theorem exists_next (hs : Inv s) (hne : s.queue key ≠ []) : ∃ s', Machine.Reaches step Machine.always s s' ∧
    s'.accepted key = s.accepted key ∧ s'.queue key = (s.queue key).tail ∧ ∀ k, k ≠ key → s'.queue k = s.queue k := by
  obtain ⟨i, h, hi, rfl, hnot, hbefore⟩ := exists_first hne
  -- once it fetches, it finishes
  have hfinish : ∀ {s : State} {h : Handler}, Inv s → s.handlers[i]? = some h → h.stage = .fetching →
      ∃ s', Machine.Reaches step Machine.always s s' ∧ s'.accepted h.key = s.accepted h.key ∧
        s'.queue h.key = (s.queue h.key).tail ∧ ∀ k, k ≠ h.key → s'.queue k = s.queue k := by
    intro s h hs hi hf
    obtain ⟨hhead, hothers⟩ := hs.queue_eq hi hf
    refine ⟨{ s.setStage i h .done with finished := s.finished ++ [(h, true)] },
      .single ⟨.finish i true, rfl, by simp [step, hi, hf]⟩, accepted_setStage hi h.key, ?_, hothers⟩
    rw [hhead]
    rfl
  cases hstage : h.stage with
  | done => exact absurd hstage hnot
  | fetching => exact hfinish hs hi hstage
  | waiting =>
    have hsettled : s.settled h.previous = true := by
      cases hp : h.previous with
      | none => rfl
      | some p =>
        obtain ⟨hlt, h', hh', hk'⟩ := hs.behind i h p hi hp
        rw [State.settled, hh']
        exact decide_eq_true (hbefore p h' hlt hh' hk')
    have hstart : step (.start i) s = some (s.setStage i h .fetching) := by simp [step, hi, hstage, hsettled]
    have hlt := (List.getElem?_eq_some_iff.1 hi).1
    obtain ⟨s', hr, hacc, htail, hothers⟩ := hfinish (h := { h with stage := .fetching }) (hs.step hstart)
      (by rw [State.setStage, List.getElem?_set_self hlt]) rfl
    refine ⟨s', .head ⟨.start i, rfl, hstart⟩ hr, hacc.trans (accepted_setStage hi h.key), ?_, fun k hk => ?_⟩
    · rw [htail, queue_fetching hi hstage]
    · rw [hothers k hk, queue_fetching hi hstage]

/-- A stream is worked off without any other. -/
theorem exists_settled {l : List String} : ∀ {s : State}, Inv s → s.queue key = l →
    ∃ s', Machine.Reaches step Machine.always s s' ∧
    s'.accepted key = s.accepted key ∧ s'.queue key = [] ∧ ∀ k, k ≠ key → s'.queue k = s.queue k := by
  induction l with
  | nil =>
    intro s hs hq
    exact ⟨s, .refl, rfl, hq, fun k hk => rfl⟩
  | cons c l ih =>
    intro s hs hq
    obtain ⟨s₁, hr, hacc, htail, hothers⟩ := exists_next hs (by rw [hq]; exact List.cons_ne_nil c l)
    have hs₁ : Inv s₁ := hr.invariant hs fun e s s' hs _ he => hs.step he
    obtain ⟨s', hr', hacc', hq', hothers'⟩ := ih hs₁ (by rw [htail, hq]; rfl)
    exact ⟨s', hr.trans hr', hacc'.trans hacc, hq', fun k hk => (hothers' k hk).trans (hothers k hk)⟩

end Steps

theorem inv_initial : Inv {} := by
  refine ⟨?_, ?_, ?_, ?_, ?_⟩
  · intro key p hp
    cases hp
  · intro j h hj
    cases hj
  · intro i h p hi
    cases hi
  · intro i h j h' hi
    cases hi
  · intro i h j h' hi
    cases hi

/-! ## Every run -/

/-- What the mutex of a stream is for. -/
structure State.Serves (s : State) (key : String) : Prop where
  /-- The accepted notifications are worked off in their order, and none is lost. -/
  inOrder : s.accepted key = s.workedOff key ++ s.queue key
  /-- None is emitted twice, or before one that was accepted earlier. -/
  emits : (s.emitted key).Sublist (s.accepted key)
  /-- At most one is fetched at a time. -/
  alone : ∀ (i j : Nat) h h', s.handlers[i]? = some h → s.handlers[j]? = some h' → h.key = key → h'.key = key →
    h.stage = .fetching → h'.stage = .fetching → i = j
  /-- They can be worked off, and no other stream has to move for it. -/
  settles : ∃ s', Machine.Reaches step Machine.always s s' ∧ s'.accepted key = s.accepted key ∧ s'.queue key = [] ∧
    ∀ k, k ≠ key → s'.queue k = s.queue k
  /-- The mutex is kept: nothing releases what `getMutex` acquires. -/
  kept : ((s.mutexes key).getD {}).refCount = (s.accepted key).length

/-- The queue of a stream is what a live read of it calls its fetches. -/
def State.Feeds (s : State) (name : String) : Prop :=
  ∀ (C : SnapshotCompaction) (tenantId : String) (startIndex : Nat) (L : Live), L.fetches = s.queue (keyOf name) →
    (∀ id rest, L.inbox = id :: rest → ∃ s' L', step (.notify (some ⟨name, id⟩) L.phase.listens) s = some s' ∧
      Live.step C tenantId name startIndex .receive L = some L' ∧ L'.fetches = s'.queue (keyOf name)) ∧
    (∀ (i : Nat) h s', s.handlers[i]? = some h → h.key = keyOf name → step (.finish i true) s = some s' →
      ∃ L', Live.step C tenantId name startIndex .fetch L = some L' ∧ L'.fetches = s'.queue (keyOf name) ∧
        L'.phase = L.phase.onData (fetched tenantId name h.chunkId L.table))

section Runs

variable {s : State}

theorem emitted_sublist_workedOff (s : State) (key : String) : (s.emitted key).Sublist (s.workedOff key) := by
  unfold State.emitted State.workedOff
  rw [← List.filter_filter]
  exact (List.filter_sublist.filter _).map _

theorem Inv.alone (hs : Inv s) {i j : Nat} {h h' : Handler} (hi : s.handlers[i]? = some h) (hj : s.handlers[j]? = some h')
    (hk : h.key = h'.key) (hf : h.stage = .fetching) (hf' : h'.stage = .fetching) : i = j := by
  rcases Nat.lt_trichotomy i j with hlt | heq | hlt
  · have hdone := hs.inTurn j h' i h hj (by rw [hf']; intro hne; cases hne) hlt hi hk
    rw [hf] at hdone
    cases hdone
  · exact heq
  · have hdone := hs.inTurn i h j h' hi (by rw [hf]; intro hne; cases hne) hlt hj hk.symm
    rw [hf'] at hdone
    cases hdone

theorem Inv.feeds (hs : Inv s) (name : String) : s.Feeds name := by
  intro C tenantId startIndex L hL
  constructor
  · intro id rest hinbox
    cases hlistens : L.phase.listens with
    | false =>
      refine ⟨s, _, rfl, by simp only [Live.step, hinbox, hlistens]; rfl, ?_⟩
      exact hL
    | true =>
      refine ⟨_, _, step_notify _ s, by simp only [Live.step, hinbox, hlistens]; rfl, ?_⟩
      rw [queue_notified, if_pos rfl]
      show L.fetches ++ [id] = _
      rw [hL]
  · intro i h s' hi hk hstep
    obtain ⟨h₀, hi₀, hstep⟩ := Option.bind_eq_some_iff.1 hstep
    rw [hi] at hi₀
    cases hi₀
    split at hstep
    · rename_i hf
      cases hstep
      have hhead := (hs.queue_eq hi hf).1
      rw [hk] at hhead
      exact ⟨_, by simp only [Live.step, hL.trans hhead]; rfl, rfl, rfl⟩
    · cases hstep

end Runs

/-- Two streams in turns. A fetch of the first throws. -/
def twoStreams : List Event :=
  [.notify (some ⟨"a", "chnk_1"⟩) true, .notify (some ⟨"a", "chnk_2"⟩) true, .notify none true,
    .notify (some ⟨"b", "chnk_3"⟩) true, .notify (some ⟨"c", "chnk_4"⟩) false, .start 0, .start 2, .finish 2 true, .finish 0 false, .start 1,
    .notify (some ⟨"a", "chnk_5"⟩) true]

end WorkflowWorld.Streams.Listener
