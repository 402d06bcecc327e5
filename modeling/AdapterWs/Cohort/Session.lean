import AdapterWs.Subscribe.Policy
import AdapterWs.Cohort.WireIdTable

/-!
# Cohort membership of one connection

A topic published through a shared codec splits its subscribers into two cohort topics, one for
the binary frame and one for the JSON envelope. This module embeds what changes a connection's
logical membership or its cohorts: the join and the leave, the tracked membership of plugins, the
landings of the subscribe lanes and the unsubscribes.

Every operation works on one connection and on the server-wide id table, a `Session`.
-/

namespace AdapterWs.Cohort

open Subscribe (exceedsSubscriptionCap MAX_SUBSCRIPTIONS_PER_CONNECTION)

/-- A capability token. -/
abbrev Capability := String

/-- The registered shared topics and the capability each was first published with. -/
abbrev SharedTopics := JsMap String Capability

/-- The two cohort topics of a shared topic. -/
structure CohortTopics where
  bin : String
  json : String

/-- `cohortTopics(topic)`. -/
def cohortTopics (topic : String) : CohortTopics where
  bin := topic ++ "\x00bin"
  json := topic ++ "\x00json"

/-- Where a socket is in its life: open, no longer open, and torn down by `closeConnection`. -/
inductive ReadyState
  | open
  | closing
  | closed
  deriving DecidableEq

/-- What a socket answers to a frame: taken, shed at the backpressure ceiling, or shed by a
runtime that terminates the connection there. -/
inductive SendAnswer
  | taken
  | shed
  | terminated
  deriving DecidableEq

/-- What the surroundings decide about one control frame. -/
structure Egress where
  /-- The byte budget of the current window covers the frame. -/
  withinBudget : Bool
  answer : SendAnswer

/-- `CONTROL_DELIVERED`, `CONTROL_REFUSED` and `CONTROL_GONE`. -/
inductive ControlResult
  | delivered
  | refused
  | gone
  deriving DecidableEq

/-- One connection: its socket, its topic registrations and the slots of its user data. -/
structure Connection where
  readyState : ReadyState
  /-- The topics the registry fans out to this socket. -/
  topics : JsSet String
  /-- `WS_SUBSCRIPTIONS`: the topics the connection logically holds. -/
  subscriptions : JsSet String
  /-- `WS_CAPS`: absent before the first hello and after the close. -/
  caps : Option (List Capability)
  /-- The capabilities whose `WS_WIRE_STATE` entry is poisoned. -/
  poisoned : List Capability
  /-- `WS_SHARED_COHORTS`: the topics the connection holds a wire-id reference of. -/
  sharedCohorts : JsSet String
  /-- `WS_CONTROL_BUDGET` is null: the connection was cut. -/
  controlCut : Bool
  /-- The wire-id announces the socket took. -/
  announced : List (String × ℕ)

/-- A connection after `openConnection`. -/
def openConnection : Connection where
  readyState := .open
  topics := JsSet.empty
  subscriptions := JsSet.empty
  caps := none
  poisoned := []
  sharedCohorts := JsSet.empty
  controlCut := false
  announced := []

/-- One connection beside the server-wide table. -/
structure Session where
  ids : WireIdTable
  conn : Connection

/-! ## The socket -/

/-- `ws.end` and `terminate`: an open socket starts to close. -/
def ReadyState.ended : ReadyState → ReadyState
  | .open => .closing
  | state => state

namespace Connection

/-- The socket is no longer open. -/
def ended (c : Connection) : Connection := { c with readyState := c.readyState.ended }

/-- `try { ws.subscribe(name) } catch {}`: a socket that is not open throws. -/
def trySubscribe (c : Connection) (name : String) : Connection :=
  if c.readyState = .open then { c with topics := c.topics.add name } else c

/-- `try { ws.unsubscribe(name) } catch {}`. -/
def tryUnsubscribe (c : Connection) (name : String) : Connection :=
  if c.readyState = .open then { c with topics := c.topics.delete name } else c

/-- `addLogicalSubscription`. -/
def addLogical (c : Connection) (topic : String) : Connection :=
  { c with subscriptions := c.subscriptions.add topic }

/-- `removeLogicalSubscription`. -/
def removeLogical (c : Connection) (topic : String) : Connection :=
  { c with subscriptions := c.subscriptions.delete topic }

/-- `caps && caps.has(capability) && !wireStatePoisoned(ud, capability)`. -/
def takesBinary (c : Connection) (capability : Capability) : Bool :=
  c.caps.any (fun caps => decide (capability ∈ caps)) && !decide (capability ∈ c.poisoned)

/-- `refuseControlFlood(ws)`: the connection is cut, once. -/
def refuseControlFlood (c : Connection) : Connection :=
  if c.controlCut then c else { c.ended with controlCut := true }

/-- `sendControl(ws, wireIdAnnounce(topic, id))`. -/
def sendAnnounce (c : Connection) (topic : String) (id : ℕ) (egress : Egress) :
    ControlResult × Connection :=
  if c.controlCut || !egress.withinBudget then (.gone, c.refuseControlFlood)
  else if c.readyState ≠ .open then (.gone, c)
  else
    match egress.answer with
    | .taken => (.delivered, { c with announced := c.announced ++ [(topic, id)] })
    | .shed => (.refused, c)
    | .terminated => (.refused, c.ended)

end Connection

/-! ## The cohorts -/

/-- `joinSharedCohort(ws, ud, topic, capability)`. -/
def joinSharedCohort (s : Session) (topic : String) (capability : Capability) (egress : Egress) :
    Session :=
  if s.conn.takesBinary capability then
    if topic ∈ s.conn.sharedCohorts then s
    else
      let acquired := s.ids.acquire topic
      match s.conn.sendAnnounce topic acquired.1 egress with
      | (.delivered, c) =>
        { ids := acquired.2
          conn := ({ c with sharedCohorts := c.sharedCohorts.add topic }.tryUnsubscribe
            (cohortTopics topic).json).trySubscribe (cohortTopics topic).bin }
      | (.refused, c) =>
        { ids := acquired.2.release topic, conn := c.trySubscribe (cohortTopics topic).json }
      | (.gone, c) => { ids := acquired.2.release topic, conn := c }
  else if topic ∈ s.conn.sharedCohorts then
    { ids := s.ids.release topic
      conn := ({ s.conn with sharedCohorts := s.conn.sharedCohorts.delete topic }.tryUnsubscribe
        (cohortTopics topic).bin).trySubscribe (cohortTopics topic).json }
  else { s with conn := s.conn.trySubscribe (cohortTopics topic).json }

/-- `leaveSharedCohort(ws, ud, topic)`. -/
def leaveSharedCohort (s : Session) (topic : String) : Session :=
  let c := (s.conn.tryUnsubscribe (cohortTopics topic).bin).tryUnsubscribe
    (cohortTopics topic).json
  if topic ∈ c.sharedCohorts then
    { ids := s.ids.release topic, conn := { c with sharedCohorts := c.sharedCohorts.delete topic } }
  else { s with conn := c }

/-- `WS_COHORT_JOIN`: join where the topic is shared. -/
def cohortJoin (shared : SharedTopics) (s : Session) (topic : String) (egress : Egress) :
    Session :=
  match shared.get topic with
  | some capability => joinSharedCohort s topic capability egress
  | none => s

/-- `WS_COHORT_LEAVE`: leave where the topic is shared. -/
def cohortLeave (shared : SharedTopics) (s : Session) (topic : String) : Session :=
  if (shared.get topic).isSome then leaveSharedCohort s topic else s

/-! ## The plugin lanes -/

/-- `trackedSubscribe(ws, topic)`. -/
def trackedSubscribe (shared : SharedTopics) (s : Session) (topic : String) (egress : Egress) :
    Session :=
  if exceedsSubscriptionCap (decide (topic ∈ s.conn.subscriptions)) s.conn.subscriptions.size
      MAX_SUBSCRIPTIONS_PER_CONNECTION then s
  else if s.conn.readyState ≠ .open then s
  else
    cohortJoin shared { s with conn := (s.conn.trySubscribe topic).addLogical topic } topic egress

/-- `trackedUnsubscribe(ws, topic)`. -/
def trackedUnsubscribe (shared : SharedTopics) (s : Session) (topic : String) : Session :=
  cohortLeave shared { s with conn := (s.conn.tryUnsubscribe topic).removeLogical topic } topic

/-- The taps derived from a topic: one under every registered prefix it does not carry. -/
def derivedTopics (prefixes : List String) (topic : String) : List String :=
  (prefixes.filter fun p => !topic.startsWith p).map (· ++ topic)

/-- `releaseDerivedSubscriptions(ws, topic)`. -/
def releaseDerivedSubscriptions (shared : SharedTopics) (prefixes : List String) (s : Session)
    (topic : String) : Session :=
  (derivedTopics prefixes topic).foldl (trackedUnsubscribe shared) s

/-- `releaseMembership(ws, ud, topic)`: a socket that is not open releases nothing. -/
def releaseMembership (shared : SharedTopics) (s : Session) (topic : String) : Session :=
  if s.conn.readyState ≠ .open then s
  else cohortLeave shared { s with conn := (s.conn.tryUnsubscribe topic).removeLogical topic } topic

/-- `releaseSubscription(ws, topic)`. -/
def releaseSubscription (shared : SharedTopics) (prefixes : List String) (s : Session)
    (topic : String) : Session :=
  (topic :: derivedTopics prefixes topic).foldl (releaseMembership shared) s

/-! ## The wire and platform lanes -/

/-- The number of UTF-16 code units of a name. -/
def utf16Length (name : String) : ℕ :=
  name.toList.foldr (fun c n => (if c.val < 0x10000 then 1 else 2) + n) 0

/-- The most code units a wire topic may have. -/
def MAX_TOPIC_UNITS : ℕ := 256

/-- `isValidWireTopic(topic, allowNonAscii)`, for a name without an unpaired surrogate. -/
def isValidWireTopic (topic : String) (allowNonAscii : Bool) : Bool :=
  utf16Length topic != 0 && decide (utf16Length topic ≤ MAX_TOPIC_UNITS) &&
    topic.toList.all fun c =>
      !(decide (c.val < 32) || c.val == 34 || c.val == 92) &&
        (allowNonAscii || decide (c.val ≤ 126))

/-- What the flush of a resume capture does to the socket: nothing, a termination the landing
does not see, or an end of the connection that stops the landing. -/
inductive FlushOutcome
  | intact
  | terminated
  | stopped
  deriving DecidableEq

/-- The landing of an allowed subscribe, on the wire, batch and platform lanes alike: the native
and the logical membership, the flush of the resume capture where there is one, and the cohort. -/
def landSubscribe (shared : SharedTopics) (s : Session) (topic : String) (flush : FlushOutcome)
    (egress : Egress) : Session :=
  if s.conn.readyState ≠ .open then s
  else
    let c := (s.conn.trySubscribe topic).addLogical topic
    match flush with
    | .intact => cohortJoin shared { s with conn := c } topic egress
    | .terminated => cohortJoin shared { s with conn := c.ended } topic egress
    | .stopped => { s with conn := c.ended }

/-- The client's unsubscribe frame. Its topic is any string: no lane validates it. -/
def unsubscribeFrame (shared : SharedTopics) (prefixes : List String) (s : Session)
    (topic : String) : Session :=
  releaseDerivedSubscriptions shared prefixes
    (cohortLeave shared { s with conn := (s.conn.removeLogical topic).tryUnsubscribe topic } topic)
    topic

/-- `platform.unsubscribe(ws, topic)`. -/
def platformUnsubscribe (shared : SharedTopics) (prefixes : List String) (s : Session)
    (topic : String) : Session :=
  let s := releaseDerivedSubscriptions shared prefixes s topic
  if topic ∉ s.conn.subscriptions then s
  else if s.conn.readyState ≠ .open then s
  else cohortLeave shared { s with conn := (s.conn.tryUnsubscribe topic).removeLogical topic } topic

/-- `unwindRevokedMembership(ws, topic)`: what a revoked attempt's hook installed is undone. -/
def unwindRevokedMembership (shared : SharedTopics) (prefixes : List String) (s : Session)
    (topic : String) : Session :=
  trackedUnsubscribe shared (releaseDerivedSubscriptions shared prefixes s topic) topic

/-! ## Hello, poison and close -/

/-- A hello replaces the capability set. -/
def hello (s : Session) (caps : List Capability) : Session :=
  { s with conn := { s.conn with caps := some caps } }

/-- `poisonWireState(ws, ud, capability)`. -/
def poisonWireState (s : Session) (capability : Capability) : Session :=
  { s with conn := { s.conn with poisoned := capability :: s.conn.poisoned } }

/-- The teardown of `closeConnection`, after the app's close hook. -/
def closeConnection (s : Session) : Session where
  ids := s.conn.sharedCohorts.elems.foldl WireIdTable.release s.ids
  conn :=
    { s.conn with
      readyState := .closed
      topics := JsSet.empty
      caps := none
      poisoned := []
      sharedCohorts := JsSet.empty }

end AdapterWs.Cohort
