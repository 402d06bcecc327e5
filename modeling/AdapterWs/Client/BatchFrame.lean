import AdapterWs.Lib.JsMap
import AdapterWs.Lib.JsSet
import AdapterWs.Lib.JsString
import AdapterWs.Lib.Throwing

/-!
# Batch frames

The events of a batch share one exception boundary and one check that the socket is current; single
frames have their own. A subscriber that throws, or ends the connection, shows the difference.
-/

namespace AdapterWs.Client

open JsString

/-- An event, as a frame holds it and as the stores get it. The fields that are no numbers are
none. -/
structure Envelope (δ ν : Type*) where
  topic : JsString
  event : JsString
  data : δ
  t : Option ν
  seq : Option ν
  j : Option ν

/-- The stores of a connection. -/
inductive Store
  | events
  | topic (topic : JsString)
  | event (key : JsString)
  deriving DecidableEq

/-- A value that a store is set to: an event, or its data alone. -/
abbrev Delivery (δ ν : Type*) := Store × (Envelope δ ν ⊕ δ)

/-- What a frame reads and writes: whether the socket is the current one, the offsets of the topics,
the highest of a pending recovery, the epochs, and the stores that there are. -/
structure Feed (ν : Type*) where
  current : Bool
  lastSeenSeqs : JsMap JsString ν
  pendingRecoveries : JsMap JsString (Option ν)
  lastSeenEpochs : JsMap JsString ν
  topicStores : JsSet JsString
  eventStores : JsSet JsString

/-- The state, with what the stores were set to. -/
structure Session (δ ν : Type*) where
  feed : Feed ν
  delivered : List (Delivery δ ν)

/-- The page: `data?.truncated === true`, `data?.epoch` where it is a number, and what the
subscribers do about the last of the deliveries and whether one of them throws. -/
structure Page (δ ν : Type*) where
  truncated : δ → Bool
  epoch : δ → Option ν
  subscribers : List (Delivery δ ν) → Feed ν → Feed ν × Bool

section Stores

variable {δ ν : Type*} (page : Page δ ν)

/-- `set(value)` of a store. -/
def set (store : Store) (value : Envelope δ ν ⊕ δ) : Throwing (Session δ ν) Unit := fun s =>
  let delivered := s.delivered ++ [(store, value)]
  let (feed, throws) := page.subscribers delivered s.feed
  (if throws then none else some (), ⟨feed, delivered⟩)

/-- `set(value)` of a store that there may be. -/
def setIf (has : Feed ν → Prop) [DecidablePred has] (store : Store) (value : Envelope δ ν ⊕ δ) :
    Throwing (Session δ ν) Unit := fun s =>
  if has s.feed then set page store value s else (some (), s)

/-- The values that a store was set to. -/
def Session.valuesOf (s : Session δ ν) (store : Store) : List (Envelope δ ν ⊕ δ) :=
  (s.delivered.filter (·.1 = store)).map Prod.snd

/-- The same offsets, recoveries and epochs, and the same values in every store. -/
structure Indistinguishable (s t : Session δ ν) : Prop where
  lastSeenSeqs : s.feed.lastSeenSeqs = t.feed.lastSeenSeqs
  pendingRecoveries : s.feed.pendingRecoveries = t.feed.pendingRecoveries
  lastSeenEpochs : s.feed.lastSeenEpochs = t.feed.lastSeenEpochs
  values : ∀ store, s.valuesOf store = t.valuesOf store

theorem Indistinguishable.refl (s : Session δ ν) : Indistinguishable s s :=
  ⟨rfl, rfl, rfl, fun _ => rfl⟩

/-- The number of values of the event store. -/
def Session.count (s : Session δ ν) : ℕ := (s.valuesOf .events).length

theorem not_indistinguishable {s t : Session δ ν} (h : s.count ≠ t.count) :
    ¬Indistinguishable s t :=
  fun hst => h (congrArg List.length (hst.values .events))

theorem count_set (store : Store) (value : Envelope δ ν ⊕ δ) (s : Session δ ν) :
    (set page store value s).2.count = s.count + if store = .events then 1 else 0 := by
  simp only [set, Session.count, Session.valuesOf, List.filter_append, List.map_append,
    List.length_append]
  split <;> simp [*]

theorem count_setIf (has : Feed ν → Prop) [DecidablePred has] {store : Store}
    (hstore : store ≠ .events) (value : Envelope δ ν ⊕ δ) (s : Session δ ν) :
    (setIf page has store value s).2.count = s.count := by
  rw [setIf]
  split
  · rw [count_set, if_neg hstore, Nat.add_zero]
  · rfl

theorem count_bind {x y : Throwing (Session δ ν) Unit} {n : ℕ}
    (hx : ∀ s, (x s).2.count = s.count + n) (hy : ∀ s, (y s).2.count = s.count)
    (s : Session δ ν) : ((x >>= fun _ => y) s).2.count = s.count + n := by
  change (Throwing.andThen x (fun _ => y) s).2.count = _
  rw [Throwing.andThen, ← hx s]
  split
  · next heq => rw [hy, heq]
  · next heq => rw [heq]

end Stores

variable {δ ν : Type*} [LinearOrder ν] (page : Page δ ν)

/-- The offset that an event sets, or the one that the end of a replay takes back. -/
def Feed.note (f : Feed ν) (msg : Envelope δ ν) : Feed ν :=
  match msg.seq with
  | some seq =>
    match f.pendingRecoveries.get msg.topic with
    | some highest =>
      if highest.all (· < seq) then
        { f with pendingRecoveries := f.pendingRecoveries.set msg.topic (some seq) }
      else f
    | none =>
      if (f.lastSeenSeqs.get msg.topic).all (· < seq) then
        { f with lastSeenSeqs := f.lastSeenSeqs.set msg.topic seq }
      else f
  | none =>
    if (msg.event = lit "truncated" ∨ msg.event = lit "rehydrate" ∨ msg.event = lit "gap" ∨
        msg.event = lit "denied" ∨ msg.event = lit "end" ∧ page.truncated msg.data = true) ∧
        lit "__replay:" <+: msg.topic then
      let baseTopic := msg.topic.drop (lit "__replay:").length
      let epoch := if msg.event = lit "rehydrate" then page.epoch msg.data else none
      { f with
        lastSeenSeqs := f.lastSeenSeqs.delete baseTopic
        pendingRecoveries := (f.pendingRecoveries.get baseTopic).elim f.pendingRecoveries
          fun _ => f.pendingRecoveries.set baseTopic none
        lastSeenEpochs := epoch.elim f.lastSeenEpochs (f.lastSeenEpochs.set baseTopic) }
    else f

/-- `dispatchEvent(msg)`. -/
def dispatchEvent (msg : Envelope δ ν) : Throwing (Session δ ν) Unit := fun s =>
  let key := msg.topic ++ 0 :: msg.event
  (set page .events (.inl msg) >>= fun _ =>
    setIf page (msg.topic ∈ ·.topicStores) (.topic msg.topic) (.inl msg) >>= fun _ =>
      setIf page (key ∈ ·.eventStores) (.event key) (.inr msg.data))
    { s with feed := s.feed.note page msg }

/-- The loop over the events of a batch. -/
def dispatchAll : List (Envelope δ ν) → Throwing (Session δ ν) Unit
  | [] => pure ()
  | e :: events => dispatchEvent page e >>= fun _ => dispatchAll events

def maxFrameBytes : ℕ := 1048576

/-- A frame, of so many bytes: an event, or a batch. -/
inductive Frame (δ ν : Type*)
  | single (bytes : ℕ) (msg : Envelope δ ν)
  | batch (bytes : ℕ) (events : List (Envelope δ ν))

/-- `ws.onmessage` for the frames that hold events. -/
def onmessage (s : Session δ ν) : Frame δ ν → Session δ ν
  | .single bytes msg =>
    if s.feed.current = false ∨ maxFrameBytes < bytes ∨ msg.topic = [] then s
    else (dispatchEvent page msg s).2
  | .batch bytes events =>
    if s.feed.current = false ∨ maxFrameBytes < bytes then s else (dispatchAll page events s).2

/-- An event with a topic, whose own frame is within the size. -/
structure Framed (δ ν : Type*) where
  msg : Envelope δ ν
  bytes : ℕ
  fits : bytes ≤ maxFrameBytes
  topic_ne : msg.topic ≠ []

/-- The events in frames of their own. -/
def singly (s : Session δ ν) (events : List (Framed δ ν)) : Session δ ν :=
  events.foldl (fun s e => onmessage page s (.single e.bytes e.msg)) s

/-- On no event before the last does a subscriber throw or end the connection, unless both at
once. -/
def Unbroken : Session δ ν → List (Framed δ ν) → Prop
  | _, [] | _, [_] => True
  | s, e :: e' :: events =>
    let r := dispatchEvent page e.msg s
    (r.1 = none ↔ r.2.feed.current = false) ∧ (r.1 ≠ none → Unbroken r.2 (e' :: events))

variable {s : Session δ ν}

theorem count_dispatchEvent (msg : Envelope δ ν) (s : Session δ ν) :
    (dispatchEvent page msg s).2.count = s.count + 1 :=
  count_bind (count_set page .events _)
    (count_bind (n := 0) (count_setIf page _ (by simp) _) (count_setIf page _ (by simp) _)) _

theorem dispatchAll_cons (e : Envelope δ ν) (events : List (Envelope δ ν)) (s : Session δ ν) :
    (dispatchAll page (e :: events) s).2 =
      if (dispatchEvent page e s).1 = none then (dispatchEvent page e s).2
      else (dispatchAll page events (dispatchEvent page e s).2).2 := by
  change (Throwing.andThen _ _ s).2 = _
  rw [Throwing.andThen]
  split <;> next heq => simp [heq]

theorem le_count_dispatchAll (events : List (Envelope δ ν)) (s : Session δ ν) :
    s.count ≤ (dispatchAll page events s).2.count := by
  induction events generalizing s with
  | nil => exact le_rfl
  | cons e events ih =>
    have hstep := count_dispatchEvent page e s
    have hrest := ih (dispatchEvent page e s).2
    rw [dispatchAll_cons]
    split <;> omega

theorem singly_cons (hcurrent : s.feed.current = true) (e : Framed δ ν)
    (events : List (Framed δ ν)) :
    singly page s (e :: events) = singly page (dispatchEvent page e.msg s).2 events := by
  rw [singly, List.foldl_cons, onmessage, if_neg]
  · rfl
  · simp [hcurrent, e.fits, e.topic_ne]

/-- Nothing arrives at a socket that is not the current one. -/
theorem singly_of_left (hleft : s.feed.current = false) (events : List (Framed δ ν)) :
    singly page s events = s := by
  induction events with
  | nil => rfl
  | cons e events ih =>
    rw [singly, List.foldl_cons, onmessage, if_pos (.inl hleft)]
    exact ih

theorem le_count_singly (events : List (Framed δ ν)) (s : Session δ ν) :
    s.count ≤ (singly page s events).count := by
  induction events generalizing s with
  | nil => exact le_rfl
  | cons e events ih =>
    cases hcurrent : s.feed.current with
    | false => rw [singly_of_left page hcurrent]
    | true =>
      have hstep := count_dispatchEvent page e.msg s
      have hrest := ih (dispatchEvent page e.msg s).2
      rw [singly_cons page hcurrent]
      omega

theorem indistinguishable_dispatchAll_iff {events : List (Framed δ ν)} (hne : events ≠ [])
    (hcurrent : s.feed.current = true) :
    Indistinguishable (dispatchAll page (events.map Framed.msg) s).2 (singly page s events) ↔
      Unbroken page s events := by
  induction events generalizing s with
  | nil => exact absurd rfl hne
  | cons e events ih =>
    rw [List.map_cons, dispatchAll_cons, singly_cons page hcurrent]
    cases events with
    | nil => simp [Unbroken, singly, dispatchAll, Indistinguishable.refl, pure]
    | cons e' events =>
      rw [Unbroken]
      generalize dispatchEvent page e.msg s = r
      obtain ⟨_ | _, s'⟩ := r <;> cases hleft : s'.feed.current <;>
        simp only [reduceCtorEq, if_true, if_false]
      · simp [singly_of_left page hleft, Indistinguishable.refl]
      · -- the batch ends, the frames go on
        have hone := count_dispatchEvent page e'.msg s'
        have hmore := le_count_singly page events (dispatchEvent page e'.msg s').2
        rw [singly_cons page hleft]
        exact iff_of_false (not_indistinguishable (by omega)) (by simp)
      · -- the frames end, the batch goes on
        have hone := count_dispatchEvent page e'.msg s'
        have hmore := le_count_dispatchAll page (events.map Framed.msg)
          (dispatchEvent page e'.msg s').2
        rw [singly_of_left page hleft, List.map_cons, dispatchAll_cons]
        refine iff_of_false (not_indistinguishable ?_) (by simp)
        split <;> omega
      · simpa [hleft] using ih (by simp) hleft

/-- A batch is its events where no event but the last breaks one of the loops, and the batch is
within the size of a frame. -/
theorem indistinguishable_iff (s : Session δ ν) (bytes : ℕ) (events : List (Framed δ ν)) :
    Indistinguishable (onmessage page s (.batch bytes (events.map Framed.msg)))
        (singly page s events) ↔
      s.feed.current = false ∨ events = [] ∨ bytes ≤ maxFrameBytes ∧ Unbroken page s events := by
  cases hcurrent : s.feed.current with
  | false => simp [onmessage, hcurrent, singly_of_left, Indistinguishable.refl]
  | true =>
    cases events with
    | nil => simp [onmessage, dispatchAll, singly, Indistinguishable.refl, pure]
    | cons e events =>
      rw [onmessage]
      by_cases hbytes : maxFrameBytes < bytes
      · have hone := count_dispatchEvent page e.msg s
        have hmore := le_count_singly page events (dispatchEvent page e.msg s).2
        rw [if_pos (.inr hbytes), singly_cons page hcurrent]
        simpa [not_le.mpr hbytes] using not_indistinguishable (by omega)
      · rw [if_neg (by simp [hcurrent, hbytes])]
        simpa [not_lt.mp hbytes] using
          indistinguishable_dispatchAll_iff page (List.cons_ne_nil e events) hcurrent

/-- A page with a subscriber that throws on every event of one topic. -/
def throwsOn (topic : JsString) : Page Unit ℕ :=
  ⟨fun _ => false, fun _ => none, fun delivered feed =>
    (feed, delivered.getLast?.any fun d => d.2.isLeft && d.1 = .topic topic)⟩

/-- The first of two events finds a subscriber that throws. -/
theorem not_indistinguishable_throws :
    ¬∀ (page : Page Unit ℕ) (s : Session Unit ℕ) (bytes : ℕ) (events : List (Framed Unit ℕ)),
      bytes ≤ maxFrameBytes → Indistinguishable
        (onmessage page s (.batch bytes (events.map Framed.msg))) (singly page s events) := by
  intro h
  have hsame := h (throwsOn (lit "a"))
    ⟨⟨true, .empty, .empty, .empty, JsSet.empty.add (lit "a"), .empty⟩, []⟩ 2
    [⟨⟨lit "a", lit "e", (), none, some 1, none⟩, 1, by decide, by decide⟩,
      ⟨⟨lit "b", lit "e", (), none, some 1, none⟩, 1, by decide, by decide⟩] (by decide)
  exact absurd (congrArg List.length (hsame.values .events)) (by decide)

end AdapterWs.Client
