import AdapterWs.Lib.Machine
import AdapterWs.Relay.OriginStream

/-!
# A booting worker and the relay

The siblings of a booting worker number their relayed frames and hand them to the primary, on
their up ring or on their port. The primary forwards a ring frame only to a worker whose
`relay-attached` it has processed, and a port frame to every worker. The worker holds the port
frames of its boot in a backlog, replays them, starts its ring reader, posts `relay-attached`
and then dates its attach by its own clock.

Every thread takes its steps at any moment, and every queue is first in, first out. The
observer writes down which frames the primary handed to the worker and which it passed over.
-/

namespace AdapterWs.Relay

variable {Topic : Type}

/-- The identity a relayed frame carries for one publish. -/
structure Stamp (Topic : Type) where
  topic : Topic
  /-- The publishing worker's thread id. -/
  origin : ℕ
  /-- The publisher's ordinal on the topic. -/
  ord : ℕ
  /-- When the publisher opened the topic's relay stream. -/
  birth : ℚ
  deriving DecidableEq

/-- One frame: a single publish, or the events of one batch. -/
abbrev Frame (Topic : Type) := List (Stamp Topic)

/-- An outbound relay stream of a publisher. -/
structure RelayStream where
  /-- The frames numbered so far. -/
  ord : ℕ
  /-- When the first one was. -/
  birth : ℚ
  deriving DecidableEq

/-- What a sibling posts to the primary. -/
inductive PortMessage (Topic : Type)
  /-- Single publishes, which the primary forwards one by one. -/
  | publishBatch (messages : List (Stamp Topic))
  /-- One wire-level batch, which the primary forwards whole. -/
  | publishBatched (events : List (Stamp Topic))
  deriving DecidableEq

/-- The frames the primary forwards for a message. -/
def PortMessage.frames : PortMessage Topic → List (Frame Topic)
  | .publishBatch messages => messages.map fun message => [message]
  | .publishBatched events => [events]

/-- What becomes of an encoded send. -/
inductive Encoding
  /-- The frame is written to the ring. -/
  | encoded
  /-- The encoder threw: the frame is posted instead. -/
  | threw
  /-- The frame is over the ceiling: the ordinal is taken and nothing is sent. -/
  | refused
  deriving DecidableEq

/-- A publishing worker. -/
structure Sibling (Topic : Type) where
  /-- Its numbering, by topic. -/
  relayStreams : JsMap Topic RelayStream
  /-- The numbered publishes of the send in progress. -/
  batch : List (Stamp Topic)
  /-- Whether the send loop has begun, so that nothing more is numbered. -/
  sending : Bool
  /-- Whether `setRelayRingWriter` was called. -/
  ringWriter : Bool
  /-- The up ring. -/
  up : List (Frame Topic)
  /-- The port to the primary. -/
  port : List (PortMessage Topic)

/-- Where the booting worker stands. -/
inductive BootPhase
  /-- The handler graph is not committed: port frames are held. -/
  | init
  /-- `ready` is posted and the backlog is being replayed. -/
  | replaying
  /-- The ring reader is started and `relay-attached` is posted. -/
  | posted
  /-- The attach is dated: the worker is in its event loop. -/
  | live
  deriving DecidableEq

/-- The booting worker. -/
structure Receiver (Topic : Type) where
  phase : BootPhase
  /-- The frames posted to it and not yet delivered. -/
  port : List (Frame Topic)
  /-- Its down ring. -/
  ring : List (Frame Topic)
  /-- The frames delivered during `init`. -/
  bootBacklog : List (Frame Topic)
  /-- What is left of the frame being folded. -/
  folding : Frame Topic
  /-- `relayAttach.at`; `⊤` is `Infinity`. -/
  attachedAt : WithTop ℚ
  /-- Its trackers. -/
  originStreams : OriginStreams Topic

/-- The siblings, the primary's view of the booting worker, that worker, and the observer. -/
structure RelayAttach (Topic : Type) where
  /-- The last clock reading of any thread. -/
  clock : ℚ
  /-- The siblings, by thread id. -/
  siblings : ℕ → Sibling Topic
  /-- Whether the primary's `workers` has the worker. -/
  spawned : Bool
  /-- Whether a `relay-attached` is on its way to the primary. -/
  notice : Bool
  /-- The primary's `relayAttached` flag. -/
  relayAttached : Bool
  /-- The booting worker. -/
  worker : Receiver Topic
  /-- Every report its drains made. -/
  reports : List (Gap Topic)
  /-- Observer: everything numbered. -/
  numbered : List (Stamp Topic)
  /-- Observer: what the primary handed to the worker. -/
  handed : List (Stamp Topic)
  /-- Observer: what the primary processed and did not hand to the worker. -/
  passedOver : List (Stamp Topic)
  /-- Observer: what was passed over for want of the worker's `relay-attached`. -/
  withheld : List (Stamp Topic)

/-- What a thread can do. The clock of a step that reads one is an argument. -/
inductive AttachEvent (Topic : Type)
  /-- A sibling finishes its own boot. -/
  | setRelayRingWriter (origin : ℕ)
  /-- A sibling numbers the next publish of a send. -/
  | number (origin : ℕ) (topic : Topic) (now : ℚ)
  /-- `batchRelay` over the ring: the next message goes out. -/
  | sendNext (origin : ℕ) (encoding : Encoding)
  /-- `batchRelay` without a ring writer: the admitted messages go out. -/
  | sendBatch (origin : ℕ) (admits : Stamp Topic → Bool)
  /-- `relayBatched`: the whole send goes out as one frame. -/
  | relayBatched (origin : ℕ) (encoding : Encoding)
  /-- The primary spawns the worker. -/
  | spawn
  /-- The primary forwards the next frame of a sibling's ring. -/
  | forwardRing (origin : ℕ)
  /-- The primary forwards the next message of a sibling's port. -/
  | forwardPort (origin : ℕ)
  /-- The primary processes the worker's `relay-attached`. -/
  | hearAttached
  /-- The worker's port delivers a frame. -/
  | deliverPort
  /-- The worker's ring reader delivers a frame. -/
  | deliverRing
  /-- The handler graph is committed and `ready` is posted. -/
  | boot
  /-- The next frame of the backlog is dispatched. -/
  | replay
  /-- The ring reader is started and `relay-attached` is posted. -/
  | startReader
  /-- `markRelayAttached`. -/
  | markRelayAttached (now : ℚ)
  /-- `recordOriginStream` for the next publish of the frame in hand. -/
  | fold (now : ℚ)
  /-- The reporter's tick. -/
  | drain (now : ℚ)

namespace Sibling

/-- Allocate the next relay ordinal for a topic, opening the stream on first use. -/
def nextRelayOrdinal [DecidableEq Topic] (s : Sibling Topic) (topic : Topic) (now : ℚ) :
    RelayStream :=
  match s.relayStreams.get topic with
  | none => { ord := 1, birth := now }
  | some stream => { stream with ord := stream.ord + 1 }

/-- The stamp of the next publish. -/
def stamp [DecidableEq Topic] (s : Sibling Topic) (origin : ℕ) (topic : Topic) (now : ℚ) :
    Stamp Topic where
  topic := topic
  origin := origin
  ord := (s.nextRelayOrdinal topic now).ord
  birth := (s.nextRelayOrdinal topic now).birth

/-- Number the next publish of a send. -/
def number [DecidableEq Topic] (s : Sibling Topic) (origin : ℕ) (topic : Topic) (now : ℚ) :
    Sibling Topic :=
  { s with
    relayStreams := s.relayStreams.set topic (s.nextRelayOrdinal topic now)
    batch := s.batch ++ [s.stamp origin topic now] }

/-- Send one frame by the ring, or by the port where the encoder threw. -/
def send (s : Sibling Topic) (frame : Frame Topic) (fallback : PortMessage Topic) :
    Encoding → Sibling Topic
  | .encoded => { s with up := s.up ++ [frame] }
  | .threw => { s with port := s.port ++ [fallback] }
  | .refused => s

/-- The next message of `batchRelay`'s send loop over the ring. -/
def sendNext (s : Sibling Topic) (encoding : Encoding) : Option (Sibling Topic) :=
  match s.ringWriter, s.batch with
  | true, message :: rest =>
    some { s.send [message] (.publishBatch [message]) encoding with
      batch := rest, sending := !rest.isEmpty }
  | _, _ => none

/-- `batchRelay`'s send without a ring writer. -/
def sendBatch (s : Sibling Topic) (admits : Stamp Topic → Bool) : Option (Sibling Topic) :=
  if s.ringWriter = false ∧ s.batch ≠ [] then
    let admitted := s.batch.filter admits
    some { s with
      batch := []
      port := if admitted = [] then s.port else s.port ++ [.publishBatch admitted] }
  else none

/-- `relayBatched`'s send: without a ring writer the batch is posted. -/
def relayBatched (s : Sibling Topic) (encoding : Encoding) : Option (Sibling Topic) :=
  if s.sending = false ∧ s.batch ≠ [] then
    let lane := if s.ringWriter = false ∧ encoding = .encoded then .threw else encoding
    some { s.send s.batch (.publishBatched s.batch) lane with batch := [] }
  else none

end Sibling

namespace Receiver

/-- The port delivers a frame: dispatched in the event loop, held during `init`. -/
def deliverPort (w : Receiver Topic) : Option (Receiver Topic) :=
  match w.phase, w.folding, w.port with
  | .init, [], frame :: rest =>
    some { w with port := rest, bootBacklog := w.bootBacklog ++ [frame] }
  | .live, [], frame :: rest => some { w with port := rest, folding := frame }
  | _, _, _ => none

/-- The ring reader delivers a frame. -/
def deliverRing (w : Receiver Topic) : Option (Receiver Topic) :=
  match w.phase, w.folding, w.ring with
  | .live, [], frame :: rest => some { w with ring := rest, folding := frame }
  | _, _, _ => none

/-- The next frame of the backlog is dispatched. -/
def replay (w : Receiver Topic) : Option (Receiver Topic) :=
  match w.phase, w.folding, w.bootBacklog with
  | .replaying, [], frame :: rest => some { w with bootBacklog := rest, folding := frame }
  | _, _, _ => none

/-- The backlog has been replayed. -/
def replayed (w : Receiver Topic) : Prop :=
  w.phase = .replaying ∧ w.folding = [] ∧ w.bootBacklog = []

instance (w : Receiver Topic) [DecidableEq Topic] : Decidable w.replayed :=
  inferInstanceAs (Decidable (_ ∧ _ ∧ _))

/-- Fold the next publish of the frame in hand into the trackers. -/
def fold [DecidableEq Topic] (w : Receiver Topic) (now : ℚ) : Option (Receiver Topic) :=
  match w.folding with
  | [] => none
  | s :: rest =>
    some { w with
      folding := rest
      originStreams := recordOriginStream w.originStreams s.topic (some s.origin) (some s.ord)
        (some s.birth) w.attachedAt now }

end Receiver

namespace RelayAttach

variable [DecidableEq Topic]

/-- Nothing has been published and the worker has not been spawned. -/
def start : RelayAttach Topic where
  clock := 0
  siblings := fun _ =>
    { relayStreams := JsMap.empty, batch := [], sending := false, ringWriter := false
      up := [], port := [] }
  spawned := false
  notice := false
  relayAttached := false
  worker :=
    { phase := .init, port := [], ring := [], bootBacklog := [], folding := []
      attachedAt := ⊤, originStreams := JsMap.empty }
  reports := []
  numbered := []
  handed := []
  passedOver := []
  withheld := []

/-- One sibling replaced. -/
def setSibling (c : RelayAttach Topic) (origin : ℕ) (s : Sibling Topic) : RelayAttach Topic :=
  { c with siblings := Function.update c.siblings origin s }

/-- May the primary hand relay traffic to the worker's port? No ring overflows, so the worker
is never quarantined. -/
def relayEligible (c : RelayAttach Topic) : Bool := c.spawned

/-- May the primary write relay bytes into the worker's ring? -/
def relayRingEligible (c : RelayAttach Topic) : Bool := c.relayAttached && c.relayEligible

/-- The primary moves one frame of a ring. -/
def forwardFrame (c : RelayAttach Topic) (frame : Frame Topic) : RelayAttach Topic :=
  if c.relayRingEligible then
    { c with
      worker := { c.worker with ring := c.worker.ring ++ [frame] }
      handed := c.handed ++ frame }
  else
    { c with
      passedOver := c.passedOver ++ frame
      withheld := if c.spawned then c.withheld ++ frame else c.withheld }

/-- The primary forwards one message of a port. -/
def forwardMessage (c : RelayAttach Topic) (message : PortMessage Topic) : RelayAttach Topic :=
  if c.relayEligible then
    { c with
      worker := { c.worker with port := c.worker.port ++ message.frames }
      handed := c.handed ++ message.frames.flatten }
  else { c with passedOver := c.passedOver ++ message.frames.flatten }

/-- A step of one thread. `rings` says whether the cluster runs with relay rings. -/
def step (rings : Bool) (c : RelayAttach Topic) : AttachEvent Topic → Option (RelayAttach Topic)
  | .setRelayRingWriter i =>
    if rings = true ∧ (c.siblings i).batch = [] then
      some (c.setSibling i { c.siblings i with ringWriter := true })
    else none
  | .number i topic now =>
    if (c.siblings i).sending = false ∧ c.clock < now then
      some { c.setSibling i ((c.siblings i).number i topic now) with
        clock := now
        numbered := c.numbered ++ [(c.siblings i).stamp i topic now] }
    else none
  | .sendNext i encoding => ((c.siblings i).sendNext encoding).map (c.setSibling i)
  | .sendBatch i admits => ((c.siblings i).sendBatch admits).map (c.setSibling i)
  | .relayBatched i encoding => ((c.siblings i).relayBatched encoding).map (c.setSibling i)
  | .spawn => if c.spawned = false then some { c with spawned := true } else none
  | .forwardRing i =>
    match (c.siblings i).up with
    | [] => none
    | frame :: rest => some ((c.setSibling i { c.siblings i with up := rest }).forwardFrame frame)
  | .forwardPort i =>
    match (c.siblings i).port with
    | [] => none
    | message :: rest =>
      some ((c.setSibling i { c.siblings i with port := rest }).forwardMessage message)
  | .hearAttached =>
    if c.notice = true then some { c with notice := false, relayAttached := true } else none
  | .deliverPort => c.worker.deliverPort.map fun w => { c with worker := w }
  | .deliverRing => c.worker.deliverRing.map fun w => { c with worker := w }
  | .boot =>
    if c.spawned = true ∧ c.worker.phase = .init then
      some { c with worker := { c.worker with phase := .replaying } }
    else none
  | .replay => c.worker.replay.map fun w => { c with worker := w }
  | .startReader =>
    if rings = true ∧ c.worker.replayed then
      some { c with notice := true, worker := { c.worker with phase := .posted } }
    else none
  | .markRelayAttached now =>
    if (c.worker.phase = .posted ∨ rings = false ∧ c.worker.replayed) ∧ c.clock < now then
      some { c with
        clock := now, worker := { c.worker with phase := .live, attachedAt := (now : WithTop ℚ) } }
    else none
  | .fold now =>
    if c.clock < now then (c.worker.fold now).map fun w => { c with clock := now, worker := w }
    else none
  | .drain now =>
    if (c.worker.phase = .init ∨ c.worker.phase = .live) ∧ c.worker.folding = [] ∧
        c.clock < now then
      let taken := takeConfirmedGaps c.worker.originStreams now gapConfirmMs
      some { c with
        clock := now
        worker := { c.worker with originStreams := taken.2 }
        reports := c.reports ++ taken.1 }
    else none

end RelayAttach

/-- The runs of a cluster around one booting worker. -/
def relayAttach (Topic : Type) [DecidableEq Topic] (rings : Bool) :
    Machine (RelayAttach Topic) (AttachEvent Topic) where
  init := RelayAttach.start
  step := RelayAttach.step rings

end AdapterWs.Relay
