import AdapterWs.Lib.JsMap
import AdapterWs.Lib.JsString
import AdapterWs.Lib.Machine
import AdapterWs.Smooth.Predictor

/-!
# The client side of a smoothed topic

A channel resynchronises on each connection: it asks the server for the authoritative catalog and
rebuilds its basis on the reply. One flag says that a request is in flight. The request is made in
a job of its own, and its promise settles at any later time or never.
-/

namespace AdapterWs.Smooth

open JsString

/-- The status of the connection. -/
inductive Status
  | disconnected
  | connecting
  | opened
  | suspended
  | failed
  deriving DecidableEq

/-- How a reply is installed. -/
inductive Mode
  | fresh
  | soft
  deriving DecidableEq

/-- What the observer of overflows does when it is told. -/
structure Callback where
  /-- It calls `resync()` of the channel. -/
  resyncs : Bool
  /-- It throws after that. -/
  throws : Bool

/-- The options of a channel. -/
structure ChannelOptions (S C : Type) extends PredictorOptions S C where
  /-- `wireState.unpack`, or the identity without a codec. -/
  unpack : S → Option S

/-- An entry of the catalog. -/
structure CatalogEntry (S : Type) where
  key : Option JsString
  state : S

/-- A reply to a sync, field by field with its defaults. -/
structure SyncReply (S : Type) where
  topic : Option JsString
  you : Option JsString
  lc : Bool
  cells : Bool
  t : Option ℤ
  states : List (CatalogEntry S)
  ack : ℕ

/-- What a catalog was read into. -/
structure Catalog (S : Type) where
  merged : JsMap JsString S
  own : Option S
  bulk : List (JsString × S)

/-- A sample of the server clock. -/
inductive ClockSample
  | seed (t sendMono recvMono : ℤ)
  | sample (t recvMono : ℤ)

/-- A sync whose job has not run. -/
structure SyncJob where
  mode : Mode
  sendMono : ℤ
  deriving DecidableEq

/-- A request that was issued and has not settled. -/
structure SyncCall where
  id : ℕ
  job : SyncJob
  /-- The transitions to open before it was issued. -/
  opens : ℕ
  deriving DecidableEq

/-- When a reply that was installed had been asked for, and when it was installed, each in
transitions to open. -/
structure Installation where
  issued : ℕ
  installed : ℕ
  deriving DecidableEq

/-- A channel. -/
structure Channel (S C : Type) where
  destroyed : Bool
  prevStatus : Option Status
  syncInFlight : Bool
  lastSyncAttemptMono : Option ℤ
  wasOverflowed : Bool
  /-- The tap is bound to this topic. -/
  wireTopic : Option JsString
  selfKey : Option JsString
  smoothName : Option JsString
  lcEnabled : Bool
  /-- The remote entities. -/
  merged : JsMap JsString S
  cellOf : JsMap JsString JsString
  /-- The clock samples since the last reset. -/
  clock : List ClockSample
  predictor : Predictor S C
  lastFrameAt : Option ℤ
  /-- The jobs that will issue a request. -/
  scheduled : List SyncJob
  /-- The requests in flight. -/
  calls : List SyncCall
  /-- The requests so far. -/
  issued : ℕ
  /-- The transitions to open so far. -/
  opens : ℕ
  /-- A request was issued since the latest transition to open. -/
  served : Bool
  installs : List Installation

namespace Channel

variable {S C : Type}

/-- `createSmoothChannel(options)`, before the first status. -/
def create (o : ChannelOptions S C) : Channel S C where
  destroyed := false
  prevStatus := none
  syncInFlight := false
  lastSyncAttemptMono := none
  wasOverflowed := false
  wireTopic := none
  selfKey := none
  smoothName := none
  lcEnabled := false
  merged := .empty
  cellOf := .empty
  clock := []
  predictor := .create o.toPredictorOptions
  lastFrameAt := none
  scheduled := []
  calls := []
  issued := 0
  opens := 0
  served := false
  installs := []

/-- `resync(mode)`, up to the job that issues the request. -/
def resync (c : Channel S C) (mode : Mode) (mono : ℤ) : Channel S C :=
  if c.destroyed || c.syncInFlight then c
  else
    { c with
      syncInFlight := true
      lastSyncAttemptMono := some mono
      scheduled := c.scheduled ++ [⟨mode, mono⟩] }

/-- `notifyOverflow(state)`, and whether the observer threw. -/
def notifyOverflow (c : Channel S C) (state : Bool) (cb : Callback) (mono : ℤ) :
    Channel S C × Bool :=
  let c := { c with wasOverflowed := state }
  (if cb.resyncs then c.resync .fresh mono else c, cb.throws && !c.destroyed)

/-- The status store delivers a status. -/
def onStatus (c : Channel S C) (status : Status) (mono : ℤ) : Channel S C :=
  let opening := decide (status = .opened ∧ c.prevStatus ≠ some .opened)
  let c := { c with
    opens := c.opens + if opening then 1 else 0
    served := if opening then false else c.served }
  let c :=
    if status = .opened then
      c.resync (if c.prevStatus = some .suspended then .soft else .fresh) mono
    else c
  { c with prevStatus := some status }

/-- The next job calls `transport.sync()`. -/
def issue (c : Channel S C) : Option (Channel S C) :=
  match c.scheduled with
  | [] => none
  | job :: scheduled =>
    some { c with
      scheduled := scheduled
      calls := c.calls ++ [⟨c.issued, job, c.opens⟩]
      issued := c.issued + 1
      served := true }

/-- One entry of a catalog: the remote set, the caller's own state, and the batch to ingest. -/
def applyEntry (o : ChannelOptions S C) (selfKey : Option JsString) (r : Catalog S)
    (e : CatalogEntry S) : Catalog S :=
  match e.key, o.unpack e.state with
  | some key, some state =>
    if selfKey = some key then { r with own := some state }
    else { r with merged := r.merged.set key state, bulk := r.bulk ++ [(key, state)] }
  | _, _ => r

/-- `applyCatalog(states)`. -/
def applyCatalog (o : ChannelOptions S C) (c : Channel S C) (states : List (CatalogEntry S)) :
    Catalog S :=
  states.foldl (applyEntry o c.selfKey) ⟨c.merged, none, []⟩

/-- What a reply says of the topic. -/
def adopt (c : Channel S C) (reply : SyncReply S) : Channel S C :=
  { c with
    wireTopic := c.wireTopic <|> reply.topic.map (lit "__smooth:" ++ ·)
    selfKey := reply.you <|> c.selfKey
    lcEnabled := reply.lc
    smoothName := if reply.cells then reply.topic <|> c.smoothName else c.smoothName }

/-- The basis of a reply: the clock, the remote set, and the predictor. -/
def rebuild (o : ChannelOptions S C) (c : Channel S C) (call : SyncCall) (reply : SyncReply S)
    (recvMono : ℤ) : Channel S C :=
  let c :=
    match call.job.mode with
    | .soft => c
    | .fresh => { c with merged := .empty, cellOf := .empty, clock := [] }
  let catalog := c.applyCatalog o reply.states
  let seed := (reply.t.map fun t => ClockSample.seed t call.job.sendMono recvMono).toList
  let sample := (reply.t.map fun t => ClockSample.sample t recvMono).toList
  { c with
    clock := c.clock ++ seed ++ if catalog.bulk = [] then [] else sample
    merged := catalog.merged
    predictor := c.predictor.sync (catalog.own.getD o.initial) reply.ack
    lastFrameAt := some recvMono
    installs := c.installs ++ [⟨call.opens, c.opens⟩] }

/-- The reply of a request, or `none` for one that is no object. -/
def onReply (o : ChannelOptions S C) (c : Channel S C) (call : SyncCall)
    (reply : Option (SyncReply S)) (cb : Callback) (recvMono : ℤ) : Channel S C :=
  let c := { c with calls := c.calls.erase call, syncInFlight := false }
  match reply with
  | none => c
  | some reply =>
    if c.destroyed then c
    else
      let c := (c.adopt reply).rebuild o call reply recvMono
      if c.wasOverflowed then
        let told := c.notifyOverflow false cb recvMono
        -- what the observer throws is caught with the failures of the request
        if told.2 then { told.1 with syncInFlight := false } else told.1
      else c

/-- The request settles. -/
def settle (o : ChannelOptions S C) (c : Channel S C) (id : ℕ)
    (outcome : Option (Option (SyncReply S))) (cb : Callback) (recvMono : ℤ) :
    Option (Channel S C) :=
  (c.calls.find? fun call => call.id = id).map fun call =>
    match outcome with
    | none => { c with calls := c.calls.erase call, syncInFlight := false }
    | some reply => c.onReply o call reply cb recvMono

/-- A state of an entity arrives. -/
def onUpdate (o : ChannelOptions S C) (c : Channel S C) (key : JsString) (state : S)
    (t : Option ℤ) (recvMono : ℤ) : Channel S C :=
  match o.unpack state with
  | none => c
  | some state =>
    if c.selfKey = some key then { c with predictor := (c.predictor.rebase state).getD c.predictor }
    else
      { c with
        lastFrameAt := some recvMono
        merged := c.merged.set key state
        clock := c.clock ++ (t.map fun t => ClockSample.sample t recvMono).toList }

/-- An entity leaves. -/
def onRemove (c : Channel S C) (key : JsString) (recvMono : ℤ) : Channel S C :=
  { c with lastFrameAt := some recvMono, merged := c.merged.delete key }

/-- An acknowledgement arrives. -/
def onAck (o : ChannelOptions S C) (c : Channel S C) (id : ℕ) (state : S) (t : Option ℤ)
    (cb : Callback) (recvMono : ℤ) : Channel S C :=
  match o.unpack state with
  | none => c
  | some state =>
    match c.predictor.ack o.toPredictorOptions id state with
    | none => c
    | some (sentMono, predictor) =>
      let sample := t.map fun t =>
        match sentMono with
        | some sent => ClockSample.seed t sent recvMono
        | none => .sample t recvMono
      let c := { c with predictor := predictor, clock := c.clock ++ sample.toList }
      if c.wasOverflowed && !c.predictor.overflowed then
        (c.notifyOverflow false cb recvMono).1
      else c

/-- The overflow recovery of `loop()`. -/
def loop (o : ChannelOptions S C) (c : Channel S C) (cb : Callback) (mono : ℤ) : Channel S C :=
  if c.destroyed then c
  else
    let c := { c with predictor := c.predictor.checkOverflow o.toPredictorOptions mono }
    if c.predictor.overflowed then
      if c.wasOverflowed = false then
        let told := c.notifyOverflow true cb mono
        if told.2 then told.1 else told.1.resync .fresh mono
      else if c.syncInFlight = false ∧ (c.lastSyncAttemptMono.all fun last => 1000 < mono - last) then
        c.resync .fresh mono
      else c
    else c

/-- `command(cmd)`, up to the transmission. -/
def command (o : ChannelOptions S C) (c : Channel S C) (cmd : C) (cb : Callback) (mono : ℤ) :
    Channel S C :=
  let c := { c with predictor := (c.predictor.command o.toPredictorOptions cmd mono).2 }
  if c.predictor.overflowed && !c.wasOverflowed then
    let told := c.notifyOverflow true cb mono
    if told.2 then told.1 else told.1.resync .fresh mono
  else c

/-- `destroy()`. -/
def destroy (c : Channel S C) : Channel S C :=
  { c with destroyed := true, merged := .empty, cellOf := .empty }

end Channel

/-- What happens to a channel. -/
inductive ChannelEvent (S C : Type)
  | status (status : Status) (mono : ℤ)
  | issue
  | settle (id : ℕ) (outcome : Option (Option (SyncReply S))) (cb : Callback) (mono : ℤ)
  | update (key : JsString) (state : S) (t : Option ℤ) (mono : ℤ)
  | remove (key : JsString) (mono : ℤ)
  | ack (id : ℕ) (state : S) (t : Option ℤ) (cb : Callback) (mono : ℤ)
  | loop (cb : Callback) (mono : ℤ)
  | command (cmd : C) (cb : Callback) (mono : ℤ)
  | resync (mono : ℤ)
  | destroy

/-- One channel. -/
def channelMachine {S C : Type} (o : ChannelOptions S C) : Machine (Channel S C) (ChannelEvent S C) where
  init := .create o
  step c
    | .status status mono => if c.destroyed then none else some (c.onStatus status mono)
    | .issue => c.issue
    | .settle id outcome cb mono => c.settle o id outcome cb mono
    | .update key state t mono =>
      if c.destroyed then none else some (c.onUpdate o key state t mono)
    | .remove key mono => if c.destroyed then none else some (c.onRemove key mono)
    | .ack id state t cb mono => if c.destroyed then none else some (c.onAck o id state t cb mono)
    | .loop cb mono => some (c.loop o cb mono)
    | .command cmd cb mono => some (c.command o cmd cb mono)
    | .resync mono => some (c.resync .fresh mono)
    | .destroy => some c.destroy

end AdapterWs.Smooth
