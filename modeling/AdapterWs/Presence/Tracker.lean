import AdapterWs.Lib.JsString
import AdapterWs.Lib.Machine
import AdapterWs.Subscribe.Policy

/-!
# The presence tracker

`createPresence` keeps what every connection has joined, the roster of every topic with the number
of connections of each user, the topics a connection observes, and the changes of the roster that
are not published yet. A connection that joins or observes a topic is subscribed to the presence
channel of the topic.
-/

namespace AdapterWs.Presence

open JsString Subscribe

/-- `TOPIC_PREFIX`. -/
def TOPIC_PREFIX : JsString := lit "__presence:"

/-- The presence channel of a topic. -/
def channel (topic : JsString) : JsString := TOPIC_PREFIX ++ topic

/-- `topic.startsWith('__')`. -/
def isInternal (topic : JsString) : Bool := (lit "__").isPrefixOf topic

/-- `assertSafeTopic(topic)` does not throw. -/
def isSafeTopic (topic : JsString) : Bool :=
  topic.all fun c => decide (32 ≤ c) && c != 34 && c != 92

/-- The limits of `PresenceOptions`. -/
structure PresenceOptions where
  maxConnections : ℕ
  maxTopics : ℕ
  maxTopicsPerConnection : ℕ
  maxConnections_pos : 0 < maxConnections
  maxTopics_pos : 0 < maxTopics
  maxTopicsPerConnection_pos : 0 < maxTopicsPerConnection

/-- What `select` returns: the key field as a string, if it has one, and the data, which stand for
themselves up to `deepEqual`. -/
structure Selected (D : Type) where
  keyField : Option JsString
  data : D

/-- What a connection has joined a topic with. -/
structure Joined (D : Type) where
  key : JsString
  data : D

/-- A user of a roster. No call sets its fields. -/
structure User (D : Type) where
  data : D
  count : ℤ

/-- A change of a roster that is not published yet. -/
inductive DiffOp (D : Type)
  | join
  | leave (data : D)

/-- A connection: whether it is closed, and its subscriptions. -/
structure Connection where
  closed : Bool
  subscriptions : JsSet JsString

variable {W D : Type}

/-- The tracker, and the connections. -/
structure Tracker (W D : Type) where
  wsTopics : JsMap W (JsMap JsString (Joined D))
  topicPresence : JsMap JsString (JsMap JsString (User D))
  syncObservers : JsMap W (JsSet JsString)
  pendingDiffs : JsMap JsString (JsMap JsString (DiffOp D))
  connCounter : ℕ
  connections : W → Connection

/-- A tracker nobody has joined, and connections without subscriptions. -/
def create : Tracker W D := ⟨.empty, .empty, .empty, .empty, 0, fun _ => ⟨false, .empty⟩⟩

namespace Tracker

variable [DecidableEq W]

/-! ## Subscriptions -/

/-- `trackedSubscribe(ws, topic)`. -/
def trackedSubscribe (p : Tracker W D) (ws : W) (topic : JsString) : Bool × Tracker W D :=
  let c := p.connections ws
  if c.closed then (false, p)
  else if exceedsSubscriptionCap (decide (topic ∈ c.subscriptions)) c.subscriptions.size
      MAX_SUBSCRIPTIONS_PER_CONNECTION then (false, p)
  else
    (true,
      { p with
        connections := Function.update p.connections ws
          { c with subscriptions := c.subscriptions.add topic } })

/-- `trackedUnsubscribe(ws, topic)`. The registry of a closed connection is out of reach. -/
def trackedUnsubscribe (p : Tracker W D) (ws : W) (topic : JsString) : Tracker W D :=
  let c := p.connections ws
  if c.closed then p
  else
    { p with
      connections := Function.update p.connections ws
        { c with subscriptions := c.subscriptions.delete topic } }

/-! ## Rosters -/

/-- What a connection has joined. -/
def topicsOf (p : Tracker W D) (ws : W) : JsMap JsString (Joined D) :=
  (p.wsTopics.get ws).getD .empty

/-- What a connection has joined a topic with. -/
def joinedOf (p : Tracker W D) (ws : W) (topic : JsString) : Option (Joined D) :=
  (p.topicsOf ws).get topic

/-- Whether a connection observes a topic. -/
def observes (p : Tracker W D) (ws : W) (topic : JsString) : Bool :=
  (p.syncObservers.get ws).any fun observed => decide (topic ∈ observed)

/-- The user of a topic under a key. -/
def userOf (p : Tracker W D) (topic key : JsString) : Option (User D) :=
  (p.topicPresence.get topic).bind fun users => users.get key

/-- `bufferDiff(topic, op, key, data)`. -/
def bufferDiff (p : Tracker W D) (topic key : JsString) (op : DiffOp D) : Tracker W D :=
  let entries := (p.pendingDiffs.get topic).getD .empty
  { p with pendingDiffs := p.pendingDiffs.set topic (entries.set key op) }

/-- The topics of a connection are stored, and its entry dropped with the last of them. -/
def setTopics (p : Tracker W D) (ws : W) (topics : JsMap JsString (Joined D)) : Tracker W D :=
  { p with
    wsTopics := if topics.size = 0 then p.wsTopics.delete ws else p.wsTopics.set ws topics }

/-- The users of a topic are stored, and its entry dropped with the last of them. -/
def setUsers (p : Tracker W D) (topic : JsString) (users : JsMap JsString (User D)) :
    Tracker W D :=
  { p with
    topicPresence :=
      if users.size = 0 then p.topicPresence.delete topic else p.topicPresence.set topic users }

/-- One connection less of a user. -/
def releaseUser (p : Tracker W D) (topic key : JsString) (users : JsMap JsString (User D))
    (existing : User D) : Tracker W D :=
  if existing.count - 1 ≤ 0 then
    (p.setUsers topic (users.delete key)).bufferDiff topic key (.leave existing.data)
  else p.setUsers topic (users.set key { existing with count := existing.count - 1 })

/-- `leaveTopic(ws, topic, connTopics)`. -/
def leaveTopic (p : Tracker W D) (ws : W) (topic : JsString) : Tracker W D :=
  match p.joinedOf ws topic with
  | none => p
  | some joined =>
    let p := p.setTopics ws ((p.topicsOf ws).delete topic)
    match p.topicPresence.get topic with
    | none => p
    | some users =>
      match users.get joined.key with
      | none => p
      | some existing =>
        let p := p.releaseUser topic joined.key users existing
        -- an observer keeps the channel
        if p.observes ws topic then p else p.trackedUnsubscribe ws (channel topic)

/-- A connection leaves the topics of a list. -/
def leaveTopics (p : Tracker W D) (ws : W) : List JsString → Tracker W D
  | [] => p
  | topic :: topics => (p.leaveTopic ws topic).leaveTopics ws topics

/-- A connection leaves all it has joined, and its entry is dropped. -/
def leaveAll (p : Tracker W D) (ws : W) : Tracker W D :=
  let p := p.leaveTopics ws (p.topicsOf ws).keys
  { p with wsTopics := p.wsTopics.delete ws }

/-! ## Joining -/

/-- `resolveKey(data)`, with the counter of connections without a key. -/
def resolveKey (p : Tracker W D) (selected : Selected D) : JsString × ℕ :=
  let fallback := (lit "__conn:" ++ lit (toString (p.connCounter + 1)), p.connCounter + 1)
  match selected.keyField with
  | none => fallback
  | some key =>
    if key = lit "__proto__" ∨ key = lit "constructor" ∨ key = lit "prototype" then fallback
    else (key, p.connCounter)

/-- What `join` does nothing for, or throws before it does anything: a topic that is not safe or
not of the app, one that is joined, a connection with too many of them or closed, and a `select`
that throws or returns no object. -/
def refusesJoin (o : PresenceOptions) (p : Tracker W D) (ws : W) (topic : JsString)
    (selected : Option (Selected D)) : Bool :=
  !isSafeTopic topic || isInternal topic || (p.joinedOf ws topic).isSome ||
    ((p.wsTopics.get ws).isSome && decide (o.maxTopicsPerConnection ≤ (p.topicsOf ws).size)) ||
    (p.connections ws).closed || selected.isNone

/-- Room for the connection: a new one takes the place of the oldest where there are too many. -/
def connectionRoom (o : PresenceOptions) (p : Tracker W D) (ws : W) : Tracker W D :=
  if (p.wsTopics.get ws).isSome ∨ p.wsTopics.size < o.maxConnections then p
  else
    match p.wsTopics.keys.head? with
    | none => p
    | some oldest => p.leaveAll oldest

/-- Room for the topic: the roster of the oldest is dropped where there are too many. -/
def topicRoom (o : PresenceOptions) (p : Tracker W D) (topic : JsString) : Tracker W D :=
  if (p.topicPresence.get topic).isSome ∨ p.topicPresence.size < o.maxTopics then p
  else
    match p.topicPresence.keys.head? with
    | none => p
    | some oldest => { p with topicPresence := p.topicPresence.delete oldest }

/-- One connection more of a user. -/
def countUser [DecidableEq D] (p : Tracker W D) (topic key : JsString) (data : D) :
    Tracker W D :=
  let users := (p.topicPresence.get topic).getD .empty
  match users.get key with
  | some existing =>
    let p := { p with
      topicPresence := p.topicPresence.set topic (users.set key ⟨data, existing.count + 1⟩) }
    if existing.data = data then p else p.bufferDiff topic key .join
  | none =>
    { p with topicPresence := p.topicPresence.set topic (users.set key ⟨data, 1⟩) }.bufferDiff
      topic key .join

/-- A connection and a user of the roster are recorded. -/
def record [DecidableEq D] (o : PresenceOptions) (p : Tracker W D) (ws : W) (topic : JsString)
    (selected : Selected D) : Tracker W D :=
  let (key, connCounter) := p.resolveKey selected
  let p := p.connectionRoom o ws
  let p :=
    { p with
      connCounter := connCounter
      wsTopics := p.wsTopics.set ws ((p.topicsOf ws).set topic ⟨key, selected.data⟩) }
  (p.topicRoom o topic).countUser topic key selected.data

/-- `join(ws, topic)`, where `select` returned `selected`, or threw. -/
def join [DecidableEq D] (o : PresenceOptions) (p : Tracker W D) (ws : W) (topic : JsString)
    (selected : Option (Selected D)) : Tracker W D :=
  match selected with
  | none => p
  | some data =>
    if p.refusesJoin o ws topic selected then p
    else
      let (subscribed, p) := (p.record o ws topic data).trackedSubscribe ws (channel topic)
      if subscribed then p else p.leaveTopic ws topic

/-! ## Leaving and observing -/

/-- The channels of topics are unsubscribed. -/
def unsubscribeAll (p : Tracker W D) (ws : W) : List JsString → Tracker W D
  | [] => p
  | topic :: topics => (p.trackedUnsubscribe ws (channel topic)).unsubscribeAll ws topics

/-- `leave(ws)`. -/
def leave (p : Tracker W D) (ws : W) : Tracker W D :=
  let p := if (p.wsTopics.get ws).isSome then p.leaveAll ws else p
  match p.syncObservers.get ws with
  | none => p
  | some observed =>
    let p := p.unsubscribeAll ws observed.elems
    { p with syncObservers := p.syncObservers.delete ws }

/-- `hooks.unsubscribe(ws, topic)`. -/
def unsubscribe (p : Tracker W D) (ws : W) (topic : JsString) : Tracker W D :=
  if isInternal topic then p else p.leaveTopic ws topic

/-- The topics a connection observes are stored, and its entry dropped with the last of them. -/
def setObserved (p : Tracker W D) (ws : W) (observed : JsSet JsString) : Tracker W D :=
  { p with
    syncObservers :=
      if observed.size = 0 then p.syncObservers.delete ws else p.syncObservers.set ws observed }

/-- `sync(ws, topic)` after its authorization, before which it changes nothing. -/
def sync (p : Tracker W D) (ws : W) (topic : JsString) (allowed : Bool) : Tracker W D :=
  if isInternal topic || !isSafeTopic topic || !allowed then p
  else
    let observed := (p.syncObservers.get ws).getD .empty
    let p := { p with syncObservers := p.syncObservers.set ws (observed.add topic) }
    let (subscribed, p) := p.trackedSubscribe ws (channel topic)
    if subscribed then p else p.setObserved ws ((observed.add topic).delete topic)

end Tracker

/-! ## Runs -/

/-- A call of the tracker, a subscription of the app, or the end of a connection. -/
inductive PresenceEvent (W D : Type)
  | join (ws : W) (topic : JsString) (selected : Option (Selected D))
  | leave (ws : W)
  | unsubscribe (ws : W) (topic : JsString)
  | sync (ws : W) (topic : JsString) (allowed : Bool)
  | subscribeOther (ws : W) (topic : JsString)
  | unsubscribeOther (ws : W) (topic : JsString)
  | close (ws : W)

/-- One step. The app leaves the presence channels to the tracker. -/
def Tracker.step [DecidableEq W] [DecidableEq D] (o : PresenceOptions) (p : Tracker W D) :
    PresenceEvent W D → Option (Tracker W D)
  | .join ws topic selected => some (p.join o ws topic selected)
  | .leave ws => some (p.leave ws)
  | .unsubscribe ws topic => some (p.unsubscribe ws topic)
  | .sync ws topic allowed => some (p.sync ws topic allowed)
  | .subscribeOther ws topic =>
    if TOPIC_PREFIX.isPrefixOf topic then none else some (p.trackedSubscribe ws topic).2
  | .unsubscribeOther ws topic =>
    if TOPIC_PREFIX.isPrefixOf topic then none else some (p.trackedUnsubscribe ws topic)
  | .close ws =>
    some { p with
      connections := Function.update p.connections ws { p.connections ws with closed := true } }

end AdapterWs.Presence
