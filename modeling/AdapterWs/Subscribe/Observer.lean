import AdapterWs.Subscribe.Lanes

/-!
# The observer taps of one connection

The cursor and presence plugins hand a client a snapshot of a topic and subscribe it to a topic
derived from it, the tap. A handshake authorizes the client against the topic itself: it enrols
an attempt, awaits the authorization, and answers its caller whether the tap may be installed.
The caller awaits that answer, and installs the tap in a job of its own.

The jobs of the process are a queue. A call is a job, and so is the rest of a function whose
await has settled. Between two jobs nothing runs, so every order in which calls arrive and
authorizations settle is a run.
-/

namespace AdapterWs.Subscribe

/-- The plugins that install a tap. -/
inductive Tap
  | cursor
  | presence
  deriving DecidableEq

/-- `TOPIC_PREFIX` of the plugin. -/
def Tap.TOPIC_PREFIX : Tap → String
  | cursor => "__cursor:"
  | presence => "__presence:"

/-- The tap of a topic. -/
def Tap.derived (tap : Tap) (topic : String) : String := tap.TOPIC_PREFIX ++ topic

/-- A surface on which both plugins registered their prefix. -/
structure Observers where
  setup : Setup
  registered : ∀ tap : Tap, tap.TOPIC_PREFIX ∈ setup.derivedTopicPrefixes

/-- `assertSafeTopic(topic)` does not throw. -/
def isSafeTopic (topic : String) : Bool :=
  topic.toList.all fun ch => decide (32 ≤ ch.toNat) && ch.toNat != 34 && ch.toNat != 92

/-- The topics a handshake is for: application topics. -/
def isObservable (topic : String) : Bool := !topic.startsWith "__" && isSafeTopic topic

namespace Connection

/-- `trackedSubscribe(ws, topic)` answers `true`. -/
def subscribes (c : Connection) (topic : String) : Bool :=
  !exceedsSubscriptionCap (c.holds topic) c.ud.subscriptions.size
    MAX_SUBSCRIPTIONS_PER_CONNECTION && c.isOpen

/-- `authorizeDerivedSubscribe(ws, topic, authorize)` from its authorization to its end: whether
the caller may install its tap. -/
def authorizeDerivedSubscribe (setup : Setup) (c : Connection) (attempt : Attempt)
    (denied : Bool) : Bool × Connection :=
  if denied then
    let settled := settleDeniedSubscribe c.ud attempt.topic (c.holds attempt.topic)
    let left := { c with ud := settled.2 }
    (false,
      if settled.1 = .denyUnwind then left.unwindRevokedMembership setup attempt.topic else left)
  else if c.holds attempt.topic then
    let settled := settleHeldSubscribe c.ud attempt.topic attempt.token
    let left := { c with ud := settled.2 }
    (decide (settled.1 = .ack),
      if settled.1 = .denyUnwind then left.unwindRevokedMembership setup attempt.topic else left)
  else
    let settled := settlePendingSubscribe c.ud attempt.topic attempt.token false
    (settled.1, { c with ud := settled.2 })

end Connection

/-- One handshake in flight. -/
structure Handshake where
  tap : Tap
  attempt : Attempt
  /-- How often `platform.unsubscribe` had returned for the topic when the handshake began. -/
  begunAt : ℕ

/-- The topic a handshake is about. -/
def Handshake.topic (h : Handshake) : String := h.attempt.topic

/-- A tap that was installed. -/
structure Install where
  tap : Tap
  topic : String
  begunAt : ℕ
  /-- How often `platform.unsubscribe` had returned for the topic when the tap was installed. -/
  installedAt : ℕ
  deriving DecidableEq

/-- One job of the queue. -/
inductive Job
  /-- `tracker.snapshot` of the cursor plugin, or `tracker.sync` of the presence plugin. -/
  | observe (tap : Tap) (topic : String)
  /-- `platform.unsubscribe`. -/
  | unsubscribe (topic : String)
  /-- `authorizeDerivedSubscribe` after its authorization. -/
  | authorized (h : Handshake) (denied : Bool)
  /-- The handshake after `authorizeDerivedSubscribe`. -/
  | resumed (h : Handshake) (allowed : Bool)

/-- A connection, the handshakes that await their authorization, and the queue. -/
structure Observing where
  conn : Connection
  parked : List Handshake
  jobs : List Job
  /-- The topics `platform.unsubscribe` returned for, oldest first. -/
  unsubscribed : List String
  /-- The taps installed, oldest first. -/
  installs : List Install

namespace Observing

/-- How often `platform.unsubscribe` has returned for a topic. -/
def unsubscribes (s : Observing) (topic : String) : ℕ := s.unsubscribed.count topic

/-- A handshake up to its authorization: refused for an internal or unsafe topic and at the
pending cap. -/
def observe (s : Observing) (tap : Tap) (topic : String) : Observing :=
  if !isObservable topic then s
  else if exceedsPendingSubscribeCap s.conn.ud.pendingTotal
      MAX_PENDING_SUBSCRIBES_PER_CONNECTION then s
  else
    let begun := s.conn.begin topic
    { s with
      conn := begun.2
      parked := s.parked ++ [{ tap := tap, attempt := begun.1, begunAt := s.unsubscribes topic }] }

/-- `platform.unsubscribe(ws, topic)`. -/
def unsubscribe (o : Observers) (s : Observing) (topic : String) : Observing :=
  { s with
    conn := s.conn.platformUnsubscribe o.setup topic
    unsubscribed := s.unsubscribed ++ [topic] }

/-- A handshake lands, and its answer wakes the caller. -/
def land (o : Observers) (s : Observing) (h : Handshake) (denied : Bool) : Observing :=
  let landed := s.conn.authorizeDerivedSubscribe o.setup h.attempt denied
  { s with conn := landed.2, jobs := s.jobs ++ [.resumed h landed.1] }

/-- The caller installs the tap it was allowed. -/
def resume (s : Observing) (h : Handshake) (allowed : Bool) : Observing :=
  if allowed && s.conn.subscribes (h.tap.derived h.topic) then
    { s with
      conn := s.conn.trackedSubscribe (h.tap.derived h.topic)
      installs := s.installs ++
        [{ tap := h.tap
           topic := h.topic
           begunAt := h.begunAt
           installedAt := s.unsubscribes h.topic }] }
  else s

/-- One job. -/
def run (o : Observers) (s : Observing) : Job → Observing
  | .observe tap topic => s.observe tap topic
  | .unsubscribe topic => s.unsubscribe o topic
  | .authorized h denied => s.land o h denied
  | .resumed h allowed => s.resume h allowed

end Observing

/-- What can happen between two jobs, and the next job. -/
inductive ObserveEvent
  /-- A handshake is asked for. -/
  | observe (tap : Tap) (topic : String)
  /-- A revocation is asked for. -/
  | unsubscribe (topic : String)
  /-- The authorization of parked handshake `i` settles. -/
  | settles (i : ℕ) (denied : Bool)
  /-- The next job runs. -/
  | run
  /-- The socket stops being open. -/
  | ends

/-- A job joins the queue. -/
def Observing.enqueue (s : Observing) (job : Job) : Observing := { s with jobs := s.jobs ++ [job] }

/-- One event, where it is enabled. -/
def observeStep (o : Observers) (s : Observing) : ObserveEvent → Option Observing
  | .observe tap topic => some (s.enqueue (.observe tap topic))
  | .unsubscribe topic => some (s.enqueue (.unsubscribe topic))
  | .settles i denied =>
    s.parked[i]?.map fun h =>
      ({ s with parked := s.parked.eraseIdx i } : Observing).enqueue (.authorized h denied)
  | .run =>
    match s.jobs with
    | [] => none
    | job :: rest => some (({ s with jobs := rest } : Observing).run o job)
  | .ends => some { s with conn := { s.conn with isOpen := false } }

/-- A connection that holds some topics, with nothing in flight. -/
def Observing.idle (held : JsSet String) : Observing where
  conn := { Connection.opened with
    ud := { subscriptions := held, pending := JsMap.empty, pendingTotal := 0 } }
  parked := []
  jobs := []
  unsubscribed := []
  installs := []

/-- The handshakes and the revocations of a connection as a machine. -/
def observing (o : Observers) (held : JsSet String) : Machine Observing ObserveEvent where
  init := Observing.idle held
  step := observeStep o

end AdapterWs.Subscribe
