import AdapterWs.Lib.JsMap
import AdapterWs.Lib.Machine
import AdapterWs.Crdt.Record

/-!
# CRDT authority: the authority as a machine

Every call of the authority's surface, every timer callback, every reaction of a promise and
every answer of the host is one event, so a list of events is one interleaving. Records live in
a heap that only grows: `topics` maps a topic to the record it currently has, and a record that
was unloaded keeps its place, with whatever host calls still refer to it.

The reactions of settled promises may run in any order here, which includes the order of the
microtask queue. A host hook does not call back into the authority synchronously.
-/

namespace AdapterWs.Crdt

variable {Y : Yjs} {Topic : Type} [DecidableEq Topic]

/-! ## State -/

/-- How the promise of an `acquire` settled. -/
inductive AcquireStatus
  /-- The replica is still loading. -/
  | waiting
  /-- It resolved onto the record. -/
  | resolved
  | rejected (err : String)
  deriving DecidableEq

/-- One `acquire`, and the record it resolves onto. -/
structure Acquisition where
  record : ℕ
  /-- How its promise settled. -/
  status : AcquireStatus
  /-- Whether the holder released it. -/
  released : Bool
  deriving DecidableEq

/-- One record an explicit flush covers. -/
structure FlushTarget (Topic : Type) where
  topic : Topic
  /-- Its record when the flush began. -/
  record : ℕ
  /-- The store whose chain the flush awaits; `none` is the initial resolved promise. -/
  awaits : Option ℕ
  /-- How many updates the record had accepted when the flush began. -/
  acceptedBefore : ℕ
  deriving DecidableEq

/-- The report of an explicit flush. -/
structure FlushResult (Topic : Type) where
  /-- Whether everything landed. -/
  ok : Bool
  /-- The topics whose bytes a store confirmed. -/
  durable : List Topic
  /-- The topics the host declined. -/
  declined : List Topic
  /-- The topics whose store failed. -/
  failed : List Topic
  /-- The topics that never settled within the budget. -/
  timedOut : List Topic
  /-- The topics that may hold unconfirmed bytes. -/
  dirty : List Topic
  deriving DecidableEq

/-- One explicit flush. -/
structure Flush (Topic : Type) [DecidableEq Topic] where
  /-- Its identity among the waiters of a store. -/
  token : FlushToken
  /-- The snapshot of records it covers. -/
  targets : List (FlushTarget Topic)
  /-- The topics that have not answered. -/
  pending : List Topic
  /-- The answers so far. -/
  outcomes : JsMap Topic Outcome
  /-- How many topics have not answered. -/
  waiting : ℕ
  /-- Whether its deadline timer is armed. -/
  timer : Bool
  /-- What its promise resolved to. -/
  result : Option (FlushResult Topic)

namespace Flush

/-- The store chain of one topic answered. -/
def answer (fl : Flush Topic) (topic : Topic) (outcome : Outcome) : Flush Topic :=
  { fl with
    pending := fl.pending.filter (· ≠ topic)
    outcomes := fl.outcomes.set topic outcome
    waiting := fl.waiting - 1 }

/-- The deadline passed: whatever has not answered timed out. -/
def timeOut (fl : Flush Topic) : Flush Topic :=
  { fl with
    outcomes := fl.pending.foldl (fun m topic => m.set topic .timedout) fl.outcomes
    pending := []
    timer := false }

/-- The promise resolves. -/
def resolve (fl : Flush Topic) (res : FlushResult Topic) : Flush Topic :=
  { fl with timer := false, result := some res }

end Flush

/-- The check of the unload that `release` defers behind a store chain. -/
structure DeferredRelease where
  record : ℕ
  /-- The store whose chain the check awaits. -/
  awaits : Option ℕ
  /-- Whether the check ran. -/
  done : Bool
  deriving DecidableEq

/-- The host call an error was reported for. -/
inductive Op
  /-- `persist.load`. -/
  | load
  /-- `persist.store`. -/
  | store
  deriving DecidableEq

/-- The authority. -/
structure Authority (Y : Yjs) (Topic : Type) [DecidableEq Topic] where
  /-- The record each topic currently has. -/
  topics : JsMap Topic ℕ
  /-- Every record ever created. -/
  recs : List (TopicRecord Y Topic)
  /-- Every `acquire` that was not rejected at once. -/
  acquisitions : List Acquisition
  /-- Every explicit flush. -/
  flushes : List (Flush Topic)
  /-- Every deferred check of an unload. -/
  deferred : List DeferredRelease
  /-- Whether the authority was torn down. -/
  destroyed : Bool
  /-- What `onError` was called with. -/
  reported : List (String × Topic × Op)

namespace Authority

/-- The authority `createCrdtAuthority` returns. -/
def start : Authority Y Topic where
  topics := JsMap.empty
  recs := []
  acquisitions := []
  flushes := []
  deferred := []
  destroyed := false
  reported := []

/-- `topics.get(topic) === rec`. -/
def current (s : Authority Y Topic) (i : ℕ) : Bool :=
  (s.recs[i]?).any fun r => s.topics.get r.topic = some i

/-- `!destroyed && topics.get(topic) === rec`. -/
def live (s : Authority Y Topic) (i : ℕ) : Bool := !s.destroyed && s.current i

/-- One record replaced by a function of itself. -/
def update (s : Authority Y Topic) (i : ℕ) (f : TopicRecord Y Topic → TopicRecord Y Topic) :
    Authority Y Topic :=
  { s with recs := s.recs.modify i f }

/-- The records a test selects, replaced by a function of themselves. -/
def updateAll (s : Authority Y Topic) (p : ℕ → Bool)
    (f : ℕ → TopicRecord Y Topic → TopicRecord Y Topic) : Authority Y Topic :=
  { s with recs := s.recs.mapIdx fun i r => if p i then f i r else r }

/-- Report a persist failure to the host. -/
def reportError (cfg : Config) (s : Authority Y Topic) (err : String) (topic : Topic) (op : Op) :
    Authority Y Topic :=
  if cfg.hasOnError then { s with reported := s.reported ++ [(err, topic, op)] } else s

/-- Destroy a record's doc and forget the topic. -/
def unload (s : Authority Y Topic) (i : ℕ) : Authority Y Topic :=
  match s.recs[i]? with
  | none => s
  | some r =>
    { s.update i (TopicRecord.unload TopicRecord.unloadedError) with
      topics := if s.topics.get r.topic = some i then s.topics.delete r.topic else s.topics }

/-- The store whose chain `rec.storing` is. -/
def storing (r : TopicRecord Y Topic) : Option ℕ :=
  if r.stores = [] then none else some (r.stores.length - 1)

/-- The value a chain resolved to, read by `asOutcome`: a chain that ran no store means that
nothing is unwritten. -/
def chainValue (s : Authority Y Topic) (i : ℕ) (awaits : Option ℕ) : Option Outcome :=
  match awaits with
  | none => some .durable
  | some k => (s.recs[i]?).bind fun r => (r.stores[k]?).bind fun c => c.chain

/-! ## References -/

/-- `acquire`: the replica exists from here on, and its load is shared by everyone who waits.
A destroyed authority rejects. -/
def acquire (cfg : Config) (s : Authority Y Topic) (topic : Topic) (clientID : UInt32) :
    Authority Y Topic :=
  if s.destroyed then s
  else
    match s.topics.get topic with
    | some i =>
      -- a re-join during the on-empty store keeps the live replica
      { s.update i (fun r => { r with unloading := false }) with
        acquisitions := s.acquisitions ++ [⟨i, .waiting, false⟩] }
    | none =>
      { s with
        topics := s.topics.set topic s.recs.length
        recs := s.recs ++ [TopicRecord.fresh Y cfg topic clientID]
        acquisitions := s.acquisitions ++ [⟨s.recs.length, .waiting, false⟩] }

/-- The reaction of `acquire` to the load: the reference is counted. -/
def settleAcquire (s : Authority Y Topic) (a : ℕ) : Option (Authority Y Topic) :=
  match s.acquisitions[a]? with
  | some ⟨i, .waiting, released⟩ => do
    let r ← s.recs[i]?
    match r.load.phase with
    | .loaded =>
      some { s.update i (fun r => { r with refs := r.refs + 1 }) with
        acquisitions := s.acquisitions.set a ⟨i, .resolved, released⟩ }
    | .failed err =>
      some { s with acquisitions := s.acquisitions.set a ⟨i, .rejected err, released⟩ }
    | _ => none
  | _ => none

/-- `release(topic)`. -/
def release (cfg : Config) (s : Authority Y Topic) (topic : Topic) : Authority Y Topic :=
  match s.topics.get topic with
  | none => s
  | some i =>
    match s.recs[i]? with
    | none => s
    | some r =>
      if r.loaded then
        let s' := s.update i fun r => (r.dropRef cfg).2
        if (r.dropRef cfg).1 then
          { s' with deferred := s.deferred ++ [⟨i, storing r, false⟩] }
        else s'
      else s

/-- Whether an acquisition resolved onto a record of this topic and was not released. -/
def holds (s : Authority Y Topic) (a : ℕ) (topic : Topic) : Bool :=
  (s.acquisitions[a]?).any fun q => q.status = .resolved && !q.released &&
    (s.recs[q.record]?).any fun r => r.topic = topic

/-- The holder of an acquisition calls `release(topic)`, or somebody without one does. -/
def releaseBy (cfg : Config) (s : Authority Y Topic) (topic : Topic) (holder : Option ℕ) :
    Option (Authority Y Topic) :=
  match holder with
  | none => some (s.release cfg topic)
  | some a =>
    if s.holds a topic then
      some { s.release cfg topic with
        acquisitions := s.acquisitions.modify a fun q => { q with released := true } }
    else none

/-- The deferred check of `release`. -/
def settleRelease (cfg : Config) (s : Authority Y Topic) (d : ℕ) : Option (Authority Y Topic) :=
  match s.deferred[d]? with
  | some ⟨i, awaits, false⟩ =>
    if (s.chainValue i awaits).isSome then
      let s' := { s with deferred := s.deferred.set d ⟨i, awaits, true⟩ }
      if s.live i && (s.recs[i]?).any fun r => r.releasable cfg then some (s'.unload i)
      else some s'
    else none
  | _ => none

/-! ## Edits -/

/-- `applyUpdate(topic, bytes)`, with the bytes to fan out. -/
def applyUpdate (cfg : Config) (s : Authority Y Topic) (topic : Topic) (bytes : JsBytes)
    (mono : ℚ) : Authority Y Topic × Option (List UInt8) :=
  match s.topics.get topic with
  | none => (s, none)
  | some i =>
    match s.recs[i]? with
    | none => (s, none)
    | some r =>
      if !r.loaded || s.destroyed then (s, none)
      else
        match toBytes bytes with
        | none => (s, none)
        | some u8 =>
          if u8 = [] then (s, none)
          else
            (s.update i (TopicRecord.edit cfg u8 mono),
              if (Y.applyUpdate r.doc u8).2 then some u8 else none)

/-! ## Explicit flushes -/

/-- The topics of the targets that pass a test. -/
def topicsWhere (targets : List (FlushTarget Topic)) (p : FlushTarget Topic → Bool) :
    List Topic :=
  (targets.filter p).map FlushTarget.topic

omit [DecidableEq Topic] in
/-- A topic is listed when one of its targets passes the test. -/
theorem mem_topicsWhere {targets : List (FlushTarget Topic)} {p : FlushTarget Topic → Bool}
    {topic : Topic} : topic ∈ topicsWhere targets p ↔ ∃ t ∈ targets, p t = true ∧ t.topic = topic := by
  simp [topicsWhere, and_assoc]

/-- Whether a topic's bytes are unconfirmed: its outcome is not durable, or its record took an
edit while the flush ran. -/
def unconfirmed (s : Authority Y Topic) (outcomes : JsMap Topic Outcome)
    (t : FlushTarget Topic) : Bool :=
  outcomes.get t.topic ≠ some .durable ||
    ((s.recs[t.record]?).any fun r => r.dirty) && s.topics.get t.topic = some t.record

/-- Assemble the caller-facing flush report. -/
def buildFlushResult (cfg : Config) (s : Authority Y Topic) (targets : List (FlushTarget Topic))
    (outcomes : JsMap Topic Outcome) : FlushResult Topic where
  ok := topicsWhere targets (s.unconfirmed outcomes) = []
  durable := topicsWhere targets fun t => outcomes.get t.topic ≠ some .declined &&
    outcomes.get t.topic ≠ some .failed && outcomes.get t.topic ≠ some .timedout && cfg.hasStore
  declined := topicsWhere targets fun t => outcomes.get t.topic = some .declined
  failed := topicsWhere targets fun t => outcomes.get t.topic = some .failed
  timedOut := topicsWhere targets fun t => outcomes.get t.topic = some .timedout
  dirty := topicsWhere targets (s.unconfirmed outcomes)

/-- Flush `f` resolves: it stops counting as a waiter, and reports. -/
def finish (cfg : Config) (s : Authority Y Topic) (f : ℕ) (fl : Flush Topic) :
    Authority Y Topic :=
  let s' := s.updateAll (fun i => i ∈ fl.targets.map FlushTarget.record) fun _ =>
    TopicRecord.forgetFlush fl.token
  { s' with
    flushes := s.flushes.set f (fl.resolve (s.buildFlushResult cfg fl.targets fl.outcomes)) }

/-- The flush every target of which joined or armed a store, and awaits its chain. -/
def openFlush (s : Authority Y Topic) (token : FlushToken) (targets : List (Topic × ℕ)) :
    Flush Topic where
  token := token
  targets := targets.map fun (topic, i) =>
    { topic
      record := i
      awaits := (s.recs[i]?).bind storing
      acceptedBefore := (s.recs[i]?).elim 0 fun r => r.accepted.length }
  pending := targets.map Prod.fst
  outcomes := JsMap.empty
  waiting := targets.length
  timer := token.deadline.isSome && targets ≠ []
  result := none

/-- `runFlush`: one bounded flush over a snapshot of records. -/
def runFlush (cfg : Config) (s : Authority Y Topic) (targets : List (Topic × ℕ))
    (timeout : WithTop ℚ) (now : ℚ) : Authority Y Topic :=
  let token : FlushToken := ⟨s.flushes.length, Option.map (now + ·) timeout⟩
  let s' := s.updateAll (fun i => i ∈ targets.map Prod.snd) fun _ =>
    TopicRecord.flushOne cfg token
  let fl := s'.openFlush token targets
  let s'' := { s' with flushes := s.flushes ++ [fl] }
  if targets = [] then s''.finish cfg token.id fl else s''

/-- An argument of `persistNow` as the caller passes it. -/
inductive FlushArg (Topic : Type)
  | undefined
  | topic (t : Topic)
  /-- A plain options bag. -/
  | bag (timeout : Knob)
  /-- Anything else, an array among them. -/
  | other
  deriving DecidableEq

/-- The checks `persistNow` makes on its arguments: the topic, or every topic, and the budget. -/
def flushArgs (cfg : Config) (topic options : FlushArg Topic) :
    Except String (Option Topic × WithTop ℚ) := do
  let (name, opts) :=
    match topic with
    | .bag timeout => (FlushArg.undefined, FlushArg.bag timeout)
    | _ => (topic, options)
  let name ←
    match name with
    | .undefined => pure none
    | .topic t => pure (some t)
    | _ => throw "crdt: persistNow topic must be a string"
  let timeout ←
    match opts with
    | .undefined => pure .undefined
    | .bag timeout => pure timeout
    | _ => throw "crdt: persistNow options must be an object"
  let timeout ← checkTimeout timeout "persistNow timeout"
  return (name, (timeout.map Subtype.val).getD cfg.flushTimeout)

/-- `persistNow(topic, options)`. A call whose arguments are rejected throws and does nothing. -/
def persistNow (cfg : Config) (s : Authority Y Topic) (topic options : FlushArg Topic)
    (now : ℚ) : Authority Y Topic :=
  match flushArgs cfg topic options with
  | .error _ => s
  | .ok (name, timeout) =>
    let targets :=
      match name with
      | some t => (s.topics.get t).toList.map fun i => (t, i)
      | none => s.topics.entries
    s.runFlush cfg targets timeout now

/-- The store chain a flush awaits for one topic resolves. -/
def settleFlush (cfg : Config) (s : Authority Y Topic) (f : ℕ) (topic : Topic) :
    Option (Authority Y Topic) := do
  let fl ← s.flushes[f]?
  let target ← fl.targets.find? fun t => t.topic = topic
  let outcome ← s.chainValue target.record target.awaits
  if topic ∈ fl.pending then
    let fl := fl.answer topic outcome
    let s' := { s with flushes := s.flushes.set f fl }
    return if fl.waiting = 0 then s'.finish cfg f fl else s'
  else none

/-- The text of the abort reason of a flush that ran out of budget. -/
def deadlineError : String := "crdt: persist flush deadline exceeded"

/-- The deadline of a flush: what is pending is reported as timed out, and every write the flush
was the last one waiting on is abandoned. -/
def expireFlush (cfg : Config) (s : Authority Y Topic) (f : ℕ) : Option (Authority Y Topic) := do
  let fl ← s.flushes[f]?
  if fl.timer then
    let expiring := fl.targets.filter fun t => t.topic ∈ fl.pending
    let s' := s.updateAll (fun i => i ∈ expiring.map FlushTarget.record) fun i =>
      TopicRecord.expire cfg (s.live i) fl.token deadlineError
    let fl := fl.timeOut
    return { s' with flushes := s.flushes.set f fl }.finish cfg f fl
  else none

/-! ## Host calls and timers -/

/-- The reaction to the load's answer. A failed load forgets the topic. -/
def settleLoad (cfg : Config) (s : Authority Y Topic) (i : ℕ) (malformed : String) :
    Option (Authority Y Topic) := do
  let r ← s.recs[i]?
  match r.load.phase with
  | .answered a =>
    match r.hydrate (s.current i) malformed a with
    | .ok r => some (s.update i fun _ => r)
    | .error err =>
      let s' := (s.update i fun r => { r with load := { r.load with phase := .failed err } }).unload i
      some (if !r.load.silent && !s.destroyed then s'.reportError cfg err r.topic .load else s')
  | _ => none

/-- A rejected store is reported, unless a teardown cancelled it. -/
def reportRejection (cfg : Config) (s : Authority Y Topic) (c : StoreCall) (a : StoreAnswer)
    (topic : Topic) : Authority Y Topic :=
  match a with
  | .rejected err => if !c.silent && !s.destroyed then s.reportError cfg err topic .store else s
  | .resolved _ => s

/-- The reaction to a store's answer. -/
def settleStore (cfg : Config) (s : Authority Y Topic) (i k : ℕ) : Option (Authority Y Topic) := do
  let r ← s.recs[i]?
  let c ← r.stores[k]?
  match c.phase with
  | .answered a =>
    let out := r.settleStore cfg (s.live i) k c a
    let s' := (s.update i fun _ => out.2).reportRejection cfg c a r.topic
    match out.1 with
    | .keep => some s'
    | .unload => some (s'.unload i)
  | _ => none

/-- One store of a record moves on, if it is in the phase for it. -/
def onStore (s : Authority Y Topic) (i k : ℕ) (enabled : TopicRecord Y Topic → StoreCall → Bool)
    (f : TopicRecord Y Topic → TopicRecord Y Topic) : Option (Authority Y Topic) := do
  let r ← s.recs[i]?
  let c ← r.stores[k]?
  if enabled r c then some (s.update i f) else none

/-- The chain of a settled store resolves. -/
def settleChain (s : Authority Y Topic) (i k : ℕ) : Option (Authority Y Topic) := do
  let r ← s.recs[i]?
  let c ← r.stores[k]?
  match c.phase with
  | .settled outcome =>
    if c.chain.isNone then some (s.update i (TopicRecord.settleChain k outcome)) else none
  | _ => none

/-! ## Teardown -/

/-- `drop(topic)`. -/
def drop (s : Authority Y Topic) (topic : Topic) : Authority Y Topic :=
  match s.topics.get topic with
  | none => s
  | some i => s.unload i

/-- `destroy()`. -/
def destroy (s : Authority Y Topic) : Authority Y Topic :=
  if s.destroyed then s
  else
    { s.updateAll s.current fun _ => TopicRecord.unload TopicRecord.destroyedError with
      destroyed := true
      topics := JsMap.empty }

end Authority

/-! ## The machine -/

/-- What can happen to an authority. -/
inductive Event (Topic : Type)
  /-- `acquire(topic)`; the client id is drawn if the replica is cold. -/
  | acquire (topic : Topic) (clientID : UInt32)
  /-- The promise of an `acquire` settles. -/
  | acquireSettles (a : ℕ)
  /-- `release(topic)`, by the holder of an acquisition or by nobody in particular. -/
  | release (topic : Topic) (holder : Option ℕ)
  /-- The deferred check of a `release` runs. -/
  | releaseSettles (d : ℕ)
  /-- `applyUpdate(topic, bytes)` at a reading of the monotonic clock. -/
  | applyUpdate (topic : Topic) (bytes : JsBytes) (mono : ℚ)
  /-- `persistNow(topic, options)` at a reading of the clock. -/
  | persistNow (topic options : Authority.FlushArg Topic) (now : ℚ)
  /-- A flush learns the outcome of one topic. -/
  | flushSettles (f : ℕ) (topic : Topic)
  /-- The deadline timer of a flush fires. -/
  | flushDeadline (f : ℕ)
  /-- The schedule or retry timer of a record fires. -/
  | timerFires (i : ℕ)
  /-- The load of a record is issued. -/
  | loadDispatches (i : ℕ)
  /-- The host's load settles. -/
  | loadAnswers (i : ℕ) (a : LoadAnswer)
  /-- The load's reaction runs; Yjs throws the given text on malformed bytes. -/
  | loadSettles (i : ℕ) (malformed : String)
  /-- A store's turn comes. -/
  | storeDispatches (i k : ℕ)
  /-- The host's store settles. -/
  | storeAnswers (i k : ℕ) (a : StoreAnswer)
  /-- A store's reaction runs. -/
  | storeSettles (i k : ℕ)
  /-- A store's chain resolves. -/
  | chainSettles (i k : ℕ)
  /-- `drop(topic)`. -/
  | drop (topic : Topic)
  | destroy

open Authority in
/-- One event. -/
def Authority.step (cfg : Config) (s : Authority Y Topic) :
    Event Topic → Option (Authority Y Topic)
  | .acquire topic clientID => some (s.acquire cfg topic clientID)
  | .acquireSettles a => s.settleAcquire a
  | .release topic holder => s.releaseBy cfg topic holder
  | .releaseSettles d => s.settleRelease cfg d
  | .applyUpdate topic bytes mono => some (s.applyUpdate cfg topic bytes mono).1
  | .persistNow topic options now => some (s.persistNow cfg topic options now)
  | .flushSettles f topic => s.settleFlush cfg f topic
  | .flushDeadline f => s.expireFlush cfg f
  | .timerFires i =>
    if (s.recs[i]?).any fun r => r.debounceTimer.isSome then
      some (s.update i (TopicRecord.fire cfg (s.live i)))
    else none
  | .loadDispatches i =>
    if (s.recs[i]?).any fun r => r.load.phase = .queued then
      some (s.update i (TopicRecord.dispatchLoad cfg))
    else none
  | .loadAnswers i a =>
    if (s.recs[i]?).any fun r => r.load.phase = .dispatched then
      some (s.update i fun r => { r with load := { r.load with phase := .answered a } })
    else none
  | .loadSettles i malformed => s.settleLoad cfg i malformed
  | .storeDispatches i k =>
    s.onStore i k (fun r c => c.phase = .queued && r.chainReady k) (TopicRecord.dispatchStore k)
  | .storeAnswers i k a =>
    s.onStore i k (fun _ c => c.phase = .dispatched) (TopicRecord.answerStore k a)
  | .storeSettles i k => s.settleStore cfg i k
  | .chainSettles i k => s.settleChain i k
  | .drop topic => some (s.drop topic)
  | .destroy => some s.destroy

/-- The authority of one declaration. -/
def crdtAuthority (Y : Yjs) (Topic : Type) [DecidableEq Topic] (cfg : Config) :
    Machine (Authority Y Topic) (Event Topic) where
  init := Authority.start
  step := Authority.step cfg

/-- A cold topic is acquired, its load finds nothing, and its replica takes one update. -/
def warmRun : List (Event ℕ) :=
  [.acquire 0 1, .loadDispatches 0, .loadSettles 0 "", .acquireSettles 0,
    .applyUpdate 0 (.uint8Array [1]) 0]

end AdapterWs.Crdt
