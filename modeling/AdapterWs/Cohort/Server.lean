import AdapterWs.Lib.Machine
import AdapterWs.Cohort.Session

/-!
# The cohort server

The connections of one worker, the wire-id table and the registry of shared topics, driven by
events in any order. The first shared publish of a topic cohorts the connections that hold it,
in one walk, and marks the topic shared; every later landing cohorts its own connection.

An operation may be handed any topic. What keeps the cohorts apart from the logical topics is
that no logical name is a cohort name, and only the subscribe lanes validate theirs.
`Operation.Spares` is the condition the other lanes leave to their callers.
-/

namespace AdapterWs.Cohort

/-- One worker: its connections in the order they were opened, and the shared registries. -/
structure Server where
  connections : List Connection
  ids : WireIdTable
  sharedTopics : SharedTopics
  derivedTopicPrefixes : JsSet String

/-- What can happen on one connection. -/
inductive Operation
  | hello (caps : List Capability)
  | poison (capability : Capability)
  | landSubscribe (topic : String) (flush : FlushOutcome) (egress : Egress)
  | trackedSubscribe (topic : String) (egress : Egress)
  | trackedUnsubscribe (topic : String)
  | releaseSubscription (topic : String)
  | unsubscribeFrame (topic : String)
  | platformUnsubscribe (topic : String)
  | unwindRevokedMembership (topic : String)
  /-- Another control frame exhausts the budget. -/
  | controlFlood
  /-- The peer or the server ends the connection. -/
  | ends
  | closeConnection

namespace Operation

/-- One operation, where it is enabled: a subscribe lands on a valid topic, and a connection
closes once, after its socket stopped being open. -/
def run (shared : SharedTopics) (prefixes : List String) : Operation → Session → Option Session
  | hello caps, s => some (Cohort.hello s caps)
  | poison capability, s => some (poisonWireState s capability)
  | landSubscribe topic flush egress, s =>
    if isValidWireTopic topic true then some (Cohort.landSubscribe shared s topic flush egress)
    else none
  | trackedSubscribe topic egress, s => some (Cohort.trackedSubscribe shared s topic egress)
  | trackedUnsubscribe topic, s => some (Cohort.trackedUnsubscribe shared s topic)
  | releaseSubscription topic, s => some (Cohort.releaseSubscription shared prefixes s topic)
  | unsubscribeFrame topic, s => some (Cohort.unsubscribeFrame shared prefixes s topic)
  | platformUnsubscribe topic, s => some (Cohort.platformUnsubscribe shared prefixes s topic)
  | unwindRevokedMembership topic, s =>
    some (Cohort.unwindRevokedMembership shared prefixes s topic)
  | controlFlood, s => some { s with conn := s.conn.refuseControlFlood }
  | ends, s => some { s with conn := s.conn.ended }
  | closeConnection, s =>
    if s.conn.readyState = .closing then some (Cohort.closeConnection s) else none

end Operation

namespace Server

/-- A server without connections. -/
def start : Server where
  connections := []
  ids := WireIdTable.empty
  sharedTopics := JsMap.empty
  derivedTopicPrefixes := JsSet.empty

/-- Replace the session of connection `i`. -/
def put (s : Server) (i : ℕ) (session : Session) : Server :=
  { s with ids := session.ids, connections := s.connections.set i session.conn }

/-- Some connection advertised the capability: `capCounts.has(capability)`. -/
def advertised (s : Server) (capability : Capability) : Bool :=
  s.connections.any fun c => c.caps.any fun caps => decide (capability ∈ caps)

/-- One round of the lazy migration: connection `i` is cohorted if it is live and holds the
topic. -/
def migrateOne (topic : String) (capability : Capability) (egress : ℕ → Egress) (s : Server)
    (i : ℕ) : Server :=
  match s.connections[i]? with
  | none => s
  | some c =>
    if c.readyState ≠ .closed ∧ topic ∈ c.subscriptions then
      s.put i (joinSharedCohort ⟨s.ids, c⟩ topic capability (egress i))
    else s

/-- The lazy migration of a topic's current subscribers. -/
def migrate (topic : String) (capability : Capability) (egress : ℕ → Egress) (s : Server) :
    Server :=
  (List.range s.connections.length).foldl (migrateOne topic capability egress) s

/-- The shared branch of `publishWire`, up to its fan-outs: the first shared publish of a topic
cohorts its subscribers and marks the topic shared. -/
def publishShared (s : Server) (topic : String) (capability : Capability) (egress : ℕ → Egress) :
    Server :=
  if (s.sharedTopics.get topic).isSome then s
  else
    let migrated := migrate topic capability egress s
    { migrated with sharedTopics := migrated.sharedTopics.set topic capability }

/-- `fanOutCohort(cohort, …)`: the connections the walk offers the frame to. -/
def fanOutCohort (s : Server) (cohort : String) : List ℕ :=
  (List.range s.connections.length).filter fun i =>
    s.connections[i]?.any fun c => decide (c.readyState = .open ∧ cohort ∈ c.topics)

/-- The connections a cohort-split publish is offered to, one entry for each offer: the binary
cohort while the topic has an id, then the JSON cohort. -/
def cohortSplitOffers (s : Server) (topic : String) : List ℕ :=
  (if (s.ids.getId topic).isSome then s.fanOutCohort (cohortTopics topic).bin else []) ++
    s.fanOutCohort (cohortTopics topic).json

end Server

/-- What can happen on the server. -/
inductive Event
  | openConnection
  | registerDerivedTopicPrefix (derived : String)
  | publishShared (topic : String) (capability : Capability) (egress : ℕ → Egress)
  | operation (i : ℕ) (op : Operation)

/-- One event. A shared publish takes the cohort branch only while its capability is
advertised. -/
def step (s : Server) : Event → Option Server
  | .openConnection => some { s with connections := s.connections ++ [openConnection] }
  | .registerDerivedTopicPrefix derived =>
    if derived.isEmpty then none
    else some { s with derivedTopicPrefixes := s.derivedTopicPrefixes.add derived }
  | .publishShared topic capability egress =>
    if s.advertised capability then some (s.publishShared topic capability egress) else none
  | .operation i op =>
    s.connections[i]?.bind fun c =>
      (op.run s.sharedTopics s.derivedTopicPrefixes.elems ⟨s.ids, c⟩).map (s.put i)

/-- The server as a machine over events. -/
def server : Machine Server Event where
  init := Server.start
  step := step

/-! ## The condition on names -/

/-- The name ends like a cohort topic. -/
def isCohortTopic (name : String) : Bool :=
  "\x00bin".toList.isSuffixOf name.toList || "\x00json".toList.isSuffixOf name.toList

/-- The name is not that of a cohort the connection is registered on. -/
def Connection.Spares (c : Connection) (name : String) : Prop :=
  isCohortTopic name = true → name ∉ c.topics

instance (c : Connection) (name : String) : Decidable (c.Spares name) :=
  inferInstanceAs (Decidable (_ → _))

/-- An operation names no cohort: a plugin's subscribe takes no cohort name for a topic, and no
name that is unsubscribed is a cohort the connection is registered on. -/
def Operation.Spares (prefixes : List String) (c : Connection) : Operation → Prop
  | .trackedSubscribe topic _ => isCohortTopic topic = false
  | .trackedUnsubscribe topic => c.Spares topic
  | .releaseSubscription topic => ∀ name ∈ topic :: derivedTopics prefixes topic, c.Spares name
  | .unsubscribeFrame topic => ∀ name ∈ topic :: derivedTopics prefixes topic, c.Spares name
  | .platformUnsubscribe topic => ∀ name ∈ derivedTopics prefixes topic, c.Spares name
  | .unwindRevokedMembership topic =>
    ∀ name ∈ topic :: derivedTopics prefixes topic, c.Spares name
  | _ => True

instance (prefixes : List String) (c : Connection) :
    (op : Operation) → Decidable (op.Spares prefixes c)
  | .hello _ => inferInstanceAs (Decidable True)
  | .poison _ => inferInstanceAs (Decidable True)
  | .landSubscribe _ _ _ => inferInstanceAs (Decidable True)
  | .trackedSubscribe _ _ => inferInstanceAs (Decidable (_ = _))
  | .trackedUnsubscribe topic => inferInstanceAs (Decidable (c.Spares topic))
  | .releaseSubscription _ => inferInstanceAs (Decidable (∀ name ∈ _, c.Spares name))
  | .unsubscribeFrame _ => inferInstanceAs (Decidable (∀ name ∈ _, c.Spares name))
  | .platformUnsubscribe _ => inferInstanceAs (Decidable (∀ name ∈ _, c.Spares name))
  | .unwindRevokedMembership _ => inferInstanceAs (Decidable (∀ name ∈ _, c.Spares name))
  | .controlFlood => inferInstanceAs (Decidable True)
  | .ends => inferInstanceAs (Decidable True)
  | .closeConnection => inferInstanceAs (Decidable True)

/-- An event names no cohort. -/
def SparesCohorts (s : Server) : Event → Prop
  | .operation i op => ∀ c ∈ s.connections[i]?, op.Spares s.derivedTopicPrefixes.elems c
  | _ => True

instance (s : Server) : (e : Event) → Decidable (SparesCohorts s e)
  | .operation i op =>
    inferInstanceAs (Decidable (∀ c ∈ s.connections[i]?, op.Spares _ c))
  | .openConnection => inferInstanceAs (Decidable True)
  | .registerDerivedTopicPrefix _ => inferInstanceAs (Decidable True)
  | .publishShared _ _ _ => inferInstanceAs (Decidable True)

/-! ## The partition -/

/-- The cohorts of every shared topic partition its subscribers, and the id table counts the
binary ones. -/
structure CohortPartition (s : Server) : Prop where
  /-- An open connection that holds the topic is on exactly one cohort. -/
  subscriber : ∀ topic, (s.sharedTopics.get topic).isSome → ∀ c ∈ s.connections,
    c.readyState = .open → topic ∈ c.subscriptions →
      Xor ((cohortTopics topic).bin ∈ c.topics) ((cohortTopics topic).json ∈ c.topics)
  /-- An open connection that does not hold the topic is on neither. -/
  stranger : ∀ topic, (s.sharedTopics.get topic).isSome → ∀ c ∈ s.connections,
    c.readyState = .open → topic ∉ c.subscriptions →
      (cohortTopics topic).bin ∉ c.topics ∧ (cohortTopics topic).json ∉ c.topics
  /-- The binary cohort is the connections whose cohort set contains the topic. -/
  binary : ∀ topic, (s.sharedTopics.get topic).isSome → ∀ c ∈ s.connections,
    c.readyState = .open → ((cohortTopics topic).bin ∈ c.topics ↔ topic ∈ c.sharedCohorts)
  /-- The wire-id count of the topic is their number. -/
  refs : ∀ topic, (s.sharedTopics.get topic).isSome →
    s.ids.refs topic = s.connections.countP fun c => decide (topic ∈ c.sharedCohorts)
  /-- Each of them took an announce of the id now in the table. -/
  announced : ∀ topic, (s.sharedTopics.get topic).isSome → ∀ c ∈ s.connections,
    topic ∈ c.sharedCohorts →
      ∃ id, s.ids.getId topic = some id ∧ (topic, id) ∈ c.announced
  /-- No id is assigned to two topics, and only assigned ids are announced. -/
  assignedOnce : ∀ topic topic' id, (topic, id) ∈ s.ids.assigned →
    (topic', id) ∈ s.ids.assigned → topic = topic'
  onlyAssigned : ∀ c ∈ s.connections, ∀ p ∈ c.announced, p ∈ s.ids.assigned
  /-- A cohort-split publish is offered to every subscriber once and to nobody else. -/
  offered : ∀ topic, (s.sharedTopics.get topic).isSome → ∀ i c, s.connections[i]? = some c →
    c.readyState = .open →
      (s.cohortSplitOffers topic).count i = if topic ∈ c.subscriptions then 1 else 0

end AdapterWs.Cohort
