import AdapterWs.Lib.Machine
import AdapterWs.Subscribe.Policy
import AdapterWs.Subscribe.Capture

/-!
# The subscribe lanes of one connection

The wire, batch and platform lanes subscribe a connection to a topic. Each is an asynchronous
function: it enrols an attempt, awaits the app's hook, on the recover lanes awaits the resume
hook as well, and lands. Between two awaits a lane runs without interruption, so a lane is a
sequence of steps, and every order of the steps of all lanes in flight is a run.

The connection carries a record of what the statements speak about: which memberships live
authority backs, which topics were revoked, what a landing installed or evicted, and from which
publish on a topic is live. No function of the source reads it.
-/

namespace AdapterWs.Subscribe

/-! ## The state -/

/-- What the surface knows of the plugins. -/
structure Setup where
  /-- `isPluginOwnedTopic`. -/
  pluginOwned : String → Bool
  derivedTopicPrefixes : List String

/-- One enrolled attempt. -/
structure Attempt where
  topic : String
  token : ℕ
  /-- How often the topic had been revoked when the attempt began. -/
  revocations : ℕ

/-- One topic of a batch frame. -/
structure BatchAttempt where
  attempt : Attempt
  /-- The grant gate refused the topic before the hook. -/
  authzDenied : Bool
  /-- What the hook answered for the topic. -/
  denial : Option String

/-- One lane in flight, at the await it is parked at. -/
inductive Activation
  | wireHook (attempt : Attempt) (recovers : Bool)
  | wireResume (attempt : Attempt) (capture : CaptureEntry)
  | platformHook (attempt : Attempt)
  | batchHook (attempts : List BatchAttempt) (recovers : List String) (userHook : Bool)
  | batchResume (attempts : List BatchAttempt) (capture : List CaptureEntry) (userHook : Bool)
  /-- The lane returned; a batch whose flush closed the connection leaves attempts unsettled. -/
  | returned (unsettled : List Attempt)

/-- The attempts an activation has in flight. -/
def Activation.attempts : Activation → List Attempt
  | wireHook attempt _ => [attempt]
  | wireResume attempt _ => [attempt]
  | platformHook attempt => [attempt]
  | batchHook attempts _ _ => attempts.map BatchAttempt.attempt
  | batchResume attempts _ _ => attempts.map BatchAttempt.attempt
  | returned unsettled => unsettled

/-- The captures an activation holds open. -/
def Activation.captures : Activation → List CaptureEntry
  | wireResume _ capture => [capture]
  | batchResume _ capture _ => capture
  | _ => []

/-- The answer of a lane for a topic: subscribed, or a reason. -/
structure Answer where
  topic : String
  reason : Option String
  deriving DecidableEq

/-- The record of the authority behind the memberships. -/
structure Audit where
  /-- Since its last revocation or release, an attempt of the topic that presented the current
  epoch landed as allowed. -/
  authority : JsSet String
  /-- The topics revoked so far, oldest first. -/
  revoked : List String
  /-- For each membership a landing installed: how often its topic had been revoked when the
  attempt began, and when it landed. -/
  installs : List (ℕ × ℕ)
  /-- For each membership a landing evicted: whether live authority backed it. -/
  evicted : List Bool

/-- From where a topic is live: the publish its membership was installed before, and the publish
from which the installing landing answers for its frames, with the floor its flush applied. -/
structure LiveSince where
  installedAt : ℕ
  answersFrom : ℕ
  floor : ℤ

/-- A recovering attempt that was answered with `subscribed`. -/
structure Recovered where
  topic : String
  openedAt : ℕ
  floor : ℤ

/-- One connection. -/
structure Connection where
  isOpen : Bool
  ud : UserData
  answers : List Answer
  cut : Cutover
  audit : Audit
  liveSince : JsMap String LiveSince
  recovered : List Recovered
  /-- A flush closed the connection or found it gone. -/
  flushClosed : Bool

namespace Connection

/-- A connection after its open. -/
def opened : Connection where
  isOpen := true
  ud := { subscriptions := JsSet.empty, pending := JsMap.empty, pendingTotal := 0 }
  answers := []
  cut :=
    { resumeBuffers := JsMap.empty
      nextBuffer := 0
      unregistered := []
      published := []
      received := [] }
  audit := { authority := JsSet.empty, revoked := [], installs := [], evicted := [] }
  liveSince := JsMap.empty
  recovered := []
  flushClosed := false

/-- The connection holds the topic. -/
def holds (c : Connection) (topic : String) : Bool := decide (topic ∈ c.ud.subscriptions)

/-- How often a topic was revoked. -/
def revocations (c : Connection) (topic : String) : ℕ := c.audit.revoked.count topic

/-- `sendSubscribed`, `sendDenied`, or the value a platform call returns. -/
def answer (c : Connection) (topic : String) (reason : Option String) : Connection :=
  { c with answers := c.answers ++ [{ topic := topic, reason := reason }] }

/-! ## Membership outside the lanes -/

/-- `tombstonePendingSubscribe`: a revocation of the topic. -/
def tombstone (c : Connection) (topic : String) : Connection :=
  { c with
    ud := (tombstonePendingSubscribe c.ud topic).2
    audit :=
      { c.audit with
        authority := c.audit.authority.delete topic
        revoked := c.audit.revoked ++ [topic] } }

/-- `removeLogicalSubscription`, with the native unsubscribe. -/
def drop (c : Connection) (topic : String) : Connection :=
  { c with ud := removeLogical c.ud topic }

/-- `trackedUnsubscribe(ws, topic)`. -/
def trackedUnsubscribe (c : Connection) (topic : String) : Connection :=
  (c.tombstone topic).drop topic

/-- The taps derived from a topic: one under every registered prefix it does not carry. -/
def derivedTopics (setup : Setup) (topic : String) : List String :=
  (setup.derivedTopicPrefixes.filter fun p => !topic.startsWith p).map (· ++ topic)

/-- `releaseDerivedSubscriptions(ws, topic)`. -/
def releaseDerivedSubscriptions (setup : Setup) (c : Connection) (topic : String) : Connection :=
  (derivedTopics setup topic).foldl trackedUnsubscribe c

/-- `unwindRevokedMembership(ws, topic)`. -/
def unwindRevokedMembership (setup : Setup) (c : Connection) (topic : String) : Connection :=
  (c.releaseDerivedSubscriptions setup topic).trackedUnsubscribe topic

/-- `trackedSubscribe(ws, topic)`: refused at the cap and on a socket that is not open. -/
def trackedSubscribe (c : Connection) (topic : String) : Connection :=
  if exceedsSubscriptionCap (c.holds topic) c.ud.subscriptions.size
      MAX_SUBSCRIPTIONS_PER_CONNECTION then c
  else if !c.isOpen then c
  else { c with ud := addLogical c.ud topic }

/-- `releaseMembership(ws, ud, topic)`: completed authority is withdrawn first, and a socket that
is not open keeps its membership. -/
def releaseMembership (c : Connection) (topic : String) : Connection :=
  let withdrawn :=
    { c with
      ud := withdrawGrant c.ud topic
      audit := { c.audit with authority := c.audit.authority.delete topic } }
  if !c.isOpen then withdrawn else withdrawn.drop topic

/-- `releaseSubscription(ws, topic)`. -/
def releaseSubscription (setup : Setup) (c : Connection) (topic : String) : Connection :=
  (topic :: derivedTopics setup topic).foldl releaseMembership c

/-- The client's unsubscribe frame. -/
def unsubscribeFrame (setup : Setup) (c : Connection) (topic : String) : Connection :=
  ((c.tombstone topic).drop topic).releaseDerivedSubscriptions setup topic

/-- `platform.unsubscribe(ws, topic)`. -/
def platformUnsubscribe (setup : Setup) (c : Connection) (topic : String) : Connection :=
  let released := (c.tombstone topic).releaseDerivedSubscriptions setup topic
  if !released.holds topic then released
  else if !released.isOpen then released
  else released.drop topic

/-! ## The exits of a landing -/

/-- An unwind at a landing, with the authority of what it evicts on record. -/
def evict (setup : Setup) (c : Connection) (topic : String) : Connection :=
  ({ c with
      audit :=
        { c.audit with
          evicted := c.audit.evicted ++ [decide (topic ∈ c.audit.authority)] } } : Connection)
    |>.unwindRevokedMembership setup topic

/-- The denied exit: `settleDeniedSubscribe`, the unwind it may ask for, and the answer. -/
def deny (setup : Setup) (c : Connection) (attempt : Attempt) (reason : String) : Connection :=
  let settled := settleDeniedSubscribe c.ud attempt.topic (c.holds attempt.topic)
  let left := { c with ud := settled.2 }
  (if settled.1 = .denyUnwind then left.evict setup attempt.topic else left).answer attempt.topic
    (some reason)

/-- The plain exit: `settlePendingSubscribe` without a grant, and the answer. -/
def refuse (c : Connection) (attempt : Attempt) (reason : String) : Connection :=
  ({ c with ud := (settlePendingSubscribe c.ud attempt.topic attempt.token false).2 } :
    Connection).answer attempt.topic (some reason)

/-- The attempt that presents the current epoch is authority for its topic. -/
def authorize (c : Connection) (attempt : Attempt) : Connection :=
  if isPendingSubscribeCancelled c.ud attempt.topic attempt.token then c
  else { c with audit := { c.audit with authority := c.audit.authority.add attempt.topic } }

/-- The held exit: `settleHeldSubscribe`, the unwind it may ask for, and the answer. -/
def landHeld (setup : Setup) (c : Connection) (attempt : Attempt) : Bool × Connection :=
  let settled := settleHeldSubscribe c.ud attempt.topic attempt.token
  let left := { c.authorize attempt with ud := settled.2 }
  match settled.1 with
  | .ack => (true, left.answer attempt.topic none)
  | .deny => (false, left.answer attempt.topic (some "FORBIDDEN"))
  | .denyUnwind =>
    (false, (left.evict setup attempt.topic).answer attempt.topic (some "FORBIDDEN"))

/-- The membership an allowed landing installs, with what its flush does where it holds a
capture. -/
def install (c : Connection) (attempt : Attempt) (live : LiveSince) : Connection :=
  { c with
    ud := addLogical c.ud attempt.topic
    audit :=
      { c.audit with
        installs := c.audit.installs ++ [(attempt.revocations, c.revocations attempt.topic)] }
    liveSince := c.liveSince.set attempt.topic live }

/-- A capture closed without a flush. -/
def discard (c : Connection) (entries : List CaptureEntry) : Connection :=
  { c with cut := discardResumeCapture entries c.cut }

/-- A recovering attempt acked on the held exit. -/
def recover (c : Connection) (entry : CaptureEntry) (covered : Option ℤ) : Connection :=
  { c with
    recovered := c.recovered ++
      [{ topic := entry.topic, openedAt := entry.openedAt, floor := entry.floor covered }] }

/-- How a landing on a topic that is not held ends. -/
inductive Fresh
  /-- Refused, or the socket is gone: nothing is installed. -/
  | refused
  /-- Installed and answered. -/
  | installed
  /-- Installed, and its flush ended the connection. -/
  | stopped
  deriving DecidableEq

/-- The fresh exit: `settlePendingSubscribe` with the grant, the install, the flush of the
capture and the answer. -/
def landFresh (c : Connection) (attempt : Attempt) (capture : Option CaptureEntry)
    (covered : Option ℤ) (answers : List SendResult) : Fresh × Connection :=
  let settled := settlePendingSubscribe c.ud attempt.topic attempt.token true
  let left := { c.authorize attempt with ud := settled.2 }
  if !settled.1 then (.refused, left.answer attempt.topic (some "FORBIDDEN"))
  else if !c.isOpen then (.refused, left)
  else
    let now := c.cut.published.length
    match capture with
    | none =>
      (.installed,
        (left.install attempt
          { installedAt := now, answersFrom := now, floor := 0 }).answer attempt.topic none)
    | some entry =>
      let flushed := flushResumeTopic entry covered answers c.cut
      let live : LiveSince :=
        { installedAt := now, answersFrom := entry.openedAt, floor := entry.floor covered }
      let installed := { left.install attempt live with cut := flushed.2 }
      if flushed.1 then (.stopped, { installed with isOpen := false, flushClosed := true })
      else
        (.installed, (installed.recover entry covered).answer attempt.topic none)

/-- Enrol an attempt for a topic. -/
def begin (c : Connection) (topic : String) : Attempt × Connection :=
  let begun := beginPendingSubscribe c.ud topic (c.holds topic)
  ({ topic := topic, token := begun.1, revocations := c.revocations topic },
    { c with ud := begun.2 })

/-! ## The wire lane -/

/-- `handleSubscribe` up to its hook, for a topic that passed validation and a frame that carries
a ref if it asks for history. -/
def wireSubscribe (setup : Setup) (c : Connection) (topic : String) (recovers : Bool)
    (gate : Gate) : Connection × Activation :=
  if exceedsSubscriptionCap (c.holds topic) c.ud.subscriptions.size
      MAX_SUBSCRIPTIONS_PER_CONNECTION then
    (c.answer topic (some "RATE_LIMITED"), .returned [])
  else if deniesWireSubscribePreHook gate (setup.pluginOwned topic)
      (c.holds topic && !membershipUnconfirmed c.ud topic) then
    (c.answer topic (some "FORBIDDEN"), .returned [])
  else if exceedsPendingSubscribeCap c.ud.pendingTotal MAX_PENDING_SUBSCRIBES_PER_CONNECTION then
    (c.answer topic (some "RATE_LIMITED"), .returned [])
  else
    let begun := c.begin topic
    (begun.2, .wireHook begun.1 recovers)

/-- The landing gate on a held topic: its membership must be one the gate accepts. -/
def deniesHeldLanding (setup : Setup) (c : Connection) (gate : Gate) (attempt : Attempt) : Bool :=
  c.holds attempt.topic &&
    deniesWireSubscribeLanding gate (setup.pluginOwned attempt.topic)
      (c.holds attempt.topic && heldSubscribeIsAuthorized c.ud
        (setup.pluginOwned attempt.topic) attempt.topic attempt.token)

/-- The landing of the wire lane on a topic that is not held: the landing gate, then the fresh
exit. A capture that is not flushed is discarded. -/
def wireLand (setup : Setup) (c : Connection) (gate : Gate) (attempt : Attempt)
    (capture : Option CaptureEntry) (covered : Option ℤ) (answers : List SendResult) :
    Connection :=
  if deniesWireSubscribeLanding gate (setup.pluginOwned attempt.topic) (c.holds attempt.topic) then
    (c.refuse attempt "FORBIDDEN").discard capture.toList
  else
    let landed := c.landFresh attempt capture covered answers
    if landed.1 = .refused then landed.2.discard capture.toList else landed.2

/-- `handleSubscribe` from its hook to its next await or its end. -/
def wireHookReturns (setup : Setup) (c : Connection) (attempt : Attempt) (recovers : Bool)
    (denial : Option String) (gate : Gate) (before : String → ℕ) : Connection × Activation :=
  match denial with
  | some reason => (c.deny setup attempt reason, .returned [])
  | none =>
    if c.deniesHeldLanding setup gate attempt then
      (c.deny setup attempt "FORBIDDEN", .returned [])
    else if c.holds attempt.topic && !recovers then
      ((c.landHeld setup attempt).2, .returned [])
    else if exceedsSubscriptionCap (c.holds attempt.topic) c.ud.subscriptions.size
        MAX_SUBSCRIPTIONS_PER_CONNECTION then (c.refuse attempt "RATE_LIMITED", .returned [])
    else if recovers then
      if recoverIsRevoked
          (c.holds attempt.topic && heldLandingWouldAck c.ud attempt.topic attempt.token)
          (setup.pluginOwned attempt.topic) gate.wireAuthz
          (isPendingSubscribeCancelled c.ud attempt.topic attempt.token) then
        (c.deny setup attempt "FORBIDDEN", .returned [])
      else
        let opened := openCapture before c.cut attempt.topic
        ({ c with cut := opened.2 }, .wireResume attempt opened.1)
    else (c.wireLand setup gate attempt none none [], .returned [])

/-- `handleSubscribe` from its resume hook to its end. -/
def wireResumeReturns (setup : Setup) (c : Connection) (attempt : Attempt)
    (capture : CaptureEntry) (covered : Option ℤ) (gate : Gate) (answers : List SendResult) :
    Connection :=
  if c.deniesHeldLanding setup gate attempt then
    (c.discard [capture]).deny setup attempt "FORBIDDEN"
  else if c.holds attempt.topic then
    let landed := c.landHeld setup attempt
    (if landed.1 then landed.2.recover capture covered else landed.2).discard [capture]
  else c.wireLand setup gate attempt (some capture) covered answers

/-! ## The platform lane -/

/-- `platform.subscribe` up to its hook, for a valid topic. -/
def platformSubscribe (c : Connection) (topic : String) : Connection × Activation :=
  if c.holds topic && !membershipUnconfirmed c.ud topic then (c.answer topic none, .returned [])
  else if exceedsSubscriptionCap (c.holds topic) c.ud.subscriptions.size
      MAX_SUBSCRIPTIONS_PER_CONNECTION then
    (c.answer topic (some "RATE_LIMITED"), .returned [])
  else if exceedsPendingSubscribeCap c.ud.pendingTotal MAX_PENDING_SUBSCRIBES_PER_CONNECTION then
    (c.answer topic (some "RATE_LIMITED"), .returned [])
  else
    let begun := c.begin topic
    (begun.2, .platformHook begun.1)

/-- `platform.subscribe` from its hook to its end. -/
def platformHookReturns (setup : Setup) (c : Connection) (attempt : Attempt)
    (denial : Option String) : Connection :=
  match denial with
  | some reason => c.deny setup attempt reason
  | none =>
    if c.holds attempt.topic then (c.landHeld setup attempt).2
    else if exceedsSubscriptionCap (c.holds attempt.topic) c.ud.subscriptions.size
        MAX_SUBSCRIPTIONS_PER_CONNECTION then c.refuse attempt "RATE_LIMITED"
    else (c.landFresh attempt none none []).2

/-! ## The batch lane -/

/-- The most topics of a batch frame. -/
def MAX_BATCH_TOPICS : ℕ := 256

/-- The topics of a batch frame enrolled one after the other. -/
def enrolBatch : List (String × Bool) → Connection → List BatchAttempt × Connection
  | [], c => ([], c)
  | (topic, authzDenied) :: rest, c =>
    let begun := c.begin topic
    let enrolled := enrolBatch rest begun.2
    ({ attempt := begun.1, authzDenied := authzDenied, denial := none } :: enrolled.1, enrolled.2)

/-- Every topic of a list denied for one reason. -/
def denyAll (c : Connection) (topics : List String) (reason : String) : Connection :=
  topics.foldl (fun c topic => c.answer topic (some reason)) c

/-- `handleSubscribeBatch` up to its hook, for topics that passed validation: those past the
pending budget take no further part in the frame. -/
def batchSubscribe (setup : Setup) (c : Connection) (topics : List String)
    (recovers : List String) (gate : Gate) : Connection × Activation :=
  let valid := topics.take MAX_BATCH_TOPICS
  let headroom := MAX_PENDING_SUBSCRIBES_PER_CONNECTION - c.ud.pendingTotal
  let flagged := valid.map fun topic =>
    (topic, gate.wireAuthz && deniesWireSubscribePreHook gate (setup.pluginOwned topic)
      (c.holds topic && !membershipUnconfirmed c.ud topic))
  let overflowed := c.denyAll (topics.drop MAX_BATCH_TOPICS) "BATCH_OVERFLOW"
  let limited := (flagged.drop headroom).foldl
    (fun c p => c.answer p.1 (some (if p.2 then "FORBIDDEN" else "RATE_LIMITED"))) overflowed
  let enrolled := enrolBatch (flagged.take headroom) limited
  (enrolled.2, .batchHook enrolled.1 recovers gate.userHook)

/-- The gate of a batch: the app's hook as the frame read it, the rest read fresh. -/
def batchGate (gate : Gate) (userHook : Bool) : Gate := { gate with userHook := userHook }

/-- A topic of a batch whose history the resume hook is asked for. -/
def batchRecovers (setup : Setup) (c : Connection) (gate : Gate) (recovers : List String)
    (b : BatchAttempt) : Bool :=
  !b.authzDenied &&
    !recoverIsRevoked
      (c.holds b.attempt.topic && heldLandingWouldAck c.ud b.attempt.topic b.attempt.token &&
        (!gate.enabled || gate.hasUserHook || heldSubscribeIsAuthorized c.ud
          (setup.pluginOwned b.attempt.topic) b.attempt.topic b.attempt.token))
      (setup.pluginOwned b.attempt.topic) gate.wireAuthz
      (isPendingSubscribeCancelled c.ud b.attempt.topic b.attempt.token) &&
    b.denial.isNone && decide (b.attempt.topic ∈ recovers)

/-- The denial of a batch topic at its landing. -/
def batchDenial (setup : Setup) (c : Connection) (gate : Gate) (b : BatchAttempt) :
    Option String :=
  if b.authzDenied then some "FORBIDDEN"
  else if deniesWireSubscribeLanding gate (setup.pluginOwned b.attempt.topic)
      (c.holds b.attempt.topic && heldSubscribeIsAuthorized c.ud
        (setup.pluginOwned b.attempt.topic) b.attempt.topic b.attempt.token) then
    some "FORBIDDEN"
  else b.denial

/-- The landing of one topic of a batch: whether its flush stopped the loop, the handle and the
connection after it. -/
def batchLandOne (setup : Setup) (gate : Gate) (covered : String → Option ℤ)
    (answers : String → List SendResult) (b : BatchAttempt) (handle : List CaptureEntry)
    (c : Connection) : Bool × List CaptureEntry × Connection :=
  match c.batchDenial setup gate b with
  | some reason => (false, handle, c.deny setup b.attempt reason)
  | none =>
    if c.holds b.attempt.topic then
      let landed := c.landHeld setup b.attempt
      match handle.find? (fun entry => entry.topic == b.attempt.topic) with
      | some entry =>
        (false, handle,
          if landed.1 then landed.2.recover entry (covered b.attempt.topic) else landed.2)
      | none => (false, handle, landed.2)
    else if exceedsSubscriptionCap (c.holds b.attempt.topic) c.ud.subscriptions.size
        MAX_SUBSCRIPTIONS_PER_CONNECTION then
      (false, handle, c.refuse b.attempt "RATE_LIMITED")
    else
      let entry := handle.find? fun entry => entry.topic == b.attempt.topic
      let landed := c.landFresh b.attempt entry (covered b.attempt.topic)
        (answers b.attempt.topic)
      if landed.1 = .refused then (false, handle, landed.2)
      else
        (decide (landed.1 = .stopped),
          handle.filter fun entry => entry.topic != b.attempt.topic, landed.2)

/-- The landing loop of a batch: the attempts it leaves unsettled, the handle and the connection
after it. -/
def batchLand (setup : Setup) (gate : Gate) (covered : String → Option ℤ)
    (answers : String → List SendResult) :
    List BatchAttempt → List CaptureEntry → Connection →
      List Attempt × List CaptureEntry × Connection
  | [], handle, c => ([], handle, c)
  | b :: rest, handle, c =>
    let landed := batchLandOne setup gate covered answers b handle c
    if landed.1 then (rest.map BatchAttempt.attempt, landed.2.1, landed.2.2)
    else batchLand setup gate covered answers rest landed.2.1 landed.2.2

/-- The end of a batch: the landing loop and the final sweep of the handle. -/
def batchFinish (setup : Setup) (c : Connection) (attempts : List BatchAttempt)
    (handle : List CaptureEntry) (gate : Gate) (covered : String → Option ℤ)
    (answers : String → List SendResult) : Connection × Activation :=
  let landed := batchLand setup gate covered answers attempts handle c
  (landed.2.2.discard landed.2.1, .returned landed.1)

/-- `handleSubscribeBatch` from its hook to its next await or its end. -/
def batchHookReturns (setup : Setup) (c : Connection) (attempts : List BatchAttempt)
    (recovers : List String) (userHook : Bool) (denials : ℕ → Option String) (gate : Gate)
    (before : String → ℕ) : Connection × Activation :=
  let gate := batchGate gate userHook
  let answered := attempts.mapIdx fun j b => { b with denial := denials j }
  let topics := ((answered.filter (c.batchRecovers setup gate recovers)).map
    fun b => b.attempt.topic).dedup
  if topics = [] then c.batchFinish setup answered [] gate (fun _ => none) fun _ => []
  else
    let opened := beginResumeCapture before topics c.cut
    ({ c with cut := opened.2 }, .batchResume answered opened.1 userHook)

end Connection

/-! ## The machine -/

/-- What can happen on a connection. -/
inductive Event
  | wireSubscribe (topic : String) (recovers : Bool) (gate : Gate)
  | batchSubscribe (topics recovers : List String) (gate : Gate)
  | platformSubscribe (topic : String)
  /-- The hook of activation `i` settles; a batch is answered topic by topic. -/
  | hookReturns (i : ℕ) (denials : ℕ → Option String) (gate : Gate) (before : String → ℕ)
  /-- The resume hook of activation `i` settles. -/
  | resumeReturns (i : ℕ) (covered : String → Option ℤ) (gate : Gate)
      (answers : String → List SendResult)
  /-- The hook of activation `i` installs tracked membership of a topic it was asked about. -/
  | hookInstalls (i : ℕ) (topic : String)
  | trackedSubscribe (topic : String)
  | trackedUnsubscribe (topic : String)
  | releaseSubscription (topic : String)
  | platformUnsubscribe (topic : String)
  | unsubscribeFrame (topic : String)
  /-- A publish of a topic, and whether a send to this connection would be taken. -/
  | publish (topic : String) (seq : Option ℕ) (taken : Bool)
  /-- The socket stops being open. -/
  | ends

/-- A connection and the lanes in flight on it. -/
structure Lanes where
  conn : Connection
  activations : List Activation

namespace Lanes

/-- A new activation beside the connection it left. -/
def spawn (l : Lanes) (entered : Connection × Activation) : Lanes :=
  { conn := entered.1, activations := l.activations ++ [entered.2] }

/-- Activation `i` at its next await or its end, beside the connection it left. -/
def put (l : Lanes) (i : ℕ) (left : Connection × Activation) : Lanes :=
  { conn := left.1, activations := l.activations.set i left.2 }

end Lanes

/-- The step of an activation whose subscribe hook settles. -/
def hookReturns (setup : Setup) (c : Connection) (denials : ℕ → Option String) (gate : Gate)
    (before : String → ℕ) : Activation → Option (Connection × Activation)
  | .wireHook attempt recovers =>
    some (c.wireHookReturns setup attempt recovers (denials 0) gate before)
  | .platformHook attempt => some (c.platformHookReturns setup attempt (denials 0), .returned [])
  | .batchHook attempts recovers userHook =>
    some (c.batchHookReturns setup attempts recovers userHook denials gate before)
  | _ => none

/-- The step of an activation whose resume hook settles. -/
def resumeReturns (setup : Setup) (c : Connection) (covered : String → Option ℤ) (gate : Gate)
    (answers : String → List SendResult) : Activation → Option (Connection × Activation)
  | .wireResume attempt capture =>
    some (c.wireResumeReturns setup attempt capture (covered attempt.topic) gate
      (answers attempt.topic), .returned [])
  | .batchResume attempts capture userHook =>
    some (c.batchFinish setup attempts capture (Connection.batchGate gate userHook) covered
      answers)
  | _ => none

/-- One event, where it is enabled. -/
def step (setup : Setup) (l : Lanes) : Event → Option Lanes
  | .wireSubscribe topic recovers gate =>
    some (l.spawn (l.conn.wireSubscribe setup topic recovers gate))
  | .batchSubscribe topics recovers gate =>
    some (l.spawn (l.conn.batchSubscribe setup topics recovers gate))
  | .platformSubscribe topic => some (l.spawn (l.conn.platformSubscribe topic))
  | .hookReturns i denials gate before =>
    (l.activations[i]?.bind (hookReturns setup l.conn denials gate before)).map (l.put i)
  | .resumeReturns i covered gate answers =>
    (l.activations[i]?.bind (resumeReturns setup l.conn covered gate answers)).map (l.put i)
  | .hookInstalls i topic =>
    l.activations[i]?.bind fun activation =>
      if activation.attempts.any fun attempt => attempt.topic == topic then
        some { l with conn := l.conn.trackedSubscribe topic }
      else none
  | .trackedSubscribe topic => some { l with conn := l.conn.trackedSubscribe topic }
  | .trackedUnsubscribe topic => some { l with conn := l.conn.trackedUnsubscribe topic }
  | .releaseSubscription topic => some { l with conn := l.conn.releaseSubscription setup topic }
  | .platformUnsubscribe topic => some { l with conn := l.conn.platformUnsubscribe setup topic }
  | .unsubscribeFrame topic => some { l with conn := l.conn.unsubscribeFrame setup topic }
  | .publish topic seq taken =>
    some { l with conn :=
      { l.conn with
        cut := publish topic seq (taken && l.conn.isOpen && l.conn.holds topic) l.conn.cut } }
  | .ends => some { l with conn := { l.conn with isOpen := false } }

/-- The connection as a machine over events. -/
def lanes (setup : Setup) : Machine Lanes Event where
  init := { conn := Connection.opened, activations := [] }
  step := step setup

theorem lanes_step (setup : Setup) (l : Lanes) (e : Event) :
    (lanes setup).step l e = step setup l e := rfl

/-! ## The plainest app -/

/-- An app without plugins. -/
def noPlugins : Setup where
  pluginOwned _ := false
  derivedTopicPrefixes := []

/-- A gate that is not armed, in an app without hooks. -/
def openGate : Gate where
  enabled := false
  strict := false
  userHook := false

/-- Every hook allows. -/
def allows (_ : ℕ) : Option String := none

end AdapterWs.Subscribe
