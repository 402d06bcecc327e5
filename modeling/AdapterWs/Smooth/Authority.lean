import AdapterWs.Lib.JsMap
import AdapterWs.Lib.JsString
import AdapterWs.Lib.Machine

/-!
# The authority of a smoothed topic

`drain` applies the queued commands of every entity and returns the updates, acknowledgements and
events of the tick. It calls the app's `apply` and `onMissing`, which may throw, may emit events and
may enqueue or inject more commands. So it is not one step here: it runs to its next call of a hook,
and the hook's return, its throw and what it does before are steps of their own.

States stand for themselves up to `===`. A returned event and a drain are recorded with what the
authority itself does not keep: the number and the owner of an emission, and the states before and
after a drain.
-/

namespace AdapterWs.Smooth

open JsString

/-- The options of `createSmoothAuthority`, without the hooks: whether there is an `onMissing`, and
the budget, which is unbounded if there is none. -/
structure AuthorityOptions where
  onMissing : Bool
  maxCommandsPerTick : Option ℕ
  queueCap : ℕ
  budget_pos : ∀ n, maxCommandsPerTick = some n → 0 < n
  queueCap_pos : 0 < queueCap

/-- A command of a client. -/
structure QueuedCommand (C : Type) where
  id : ℕ
  cmd : C

/-- A command of the server, with its descending id. -/
structure ServerCommand (C : Type) where
  id : ℤ
  cmd : C

/-- An entity. -/
structure Entity (W S C : Type) where
  state : S
  ws : W
  queue : List (QueuedCommand C)
  lastAckedId : ℕ
  lastCommand : Option C
  active : Bool
  serverQueue : List (ServerCommand C)

/-- What `ctx.emitEvent` puts into the sink, with its number and the connection whose entity's
command emitted it. -/
structure Emission (W V : Type) where
  type : JsString
  key : JsString
  data : V
  id : ℤ
  serial : ℕ
  owner : W

/-- An event of a tick. -/
structure TickEvent (W V : Type) where
  emission : Emission W V
  ws : W
  commanded : Bool

/-- An update of a tick. -/
structure Update (K W S : Type) where
  key : K
  state : S
  ws : W
  commanded : Bool

/-- An acknowledgement. -/
structure Ack (K W S : Type) where
  key : K
  ws : W
  id : ℕ
  state : S

/-- What `drain` returns. -/
structure Tick (K W S V : Type) where
  updates : List (Update K W S)
  acks : List (Ack K W S)
  events : List (TickEvent W V)
  idle : Bool

/-- A hook that `drain` has called: `apply` for a command of the client, at a place in the prefix it
owns or in the entity's queue, `onMissing`, or `apply` for a command of the server. -/
inductive HookCall (S C : Type)
  | command (owned : Option (List (QueuedCommand C))) (i : ℕ) (c : QueuedCommand C)
  | missing
  | injected (commanded : Bool) (i : ℕ) (c : ServerCommand C)

/-- The commands of a client that a drain has committed. -/
structure Commit (K W : Type) where
  key : K
  ws : W
  ids : List ℕ

/-- What a drain has collected, what it has committed, and the states it started from. -/
structure TickLocals (K W S V : Type) where
  tick : Tick K W S V
  commits : List (Commit K W)
  start : K → Option S

/-- The local state of a drain in a call of a hook: the entities that remain, the entity with its
state before the tick, the state the commands have led to, and the commands applied to it. -/
structure TickFrame (K W S C V : Type) extends TickLocals K W S V where
  remaining : List K
  key : K
  before : S
  s : S
  applied : List ℕ
  call : HookCall S C

/-- A drain: the states before and after it, the commands it committed, and what it returned, if it
did not throw. -/
structure DrainRecord (K W S V : Type) where
  start : K → Option S
  finish : K → Option S
  commits : List (Commit K W)
  tick : Option (Tick K W S V)

/-- What happened to the entities. -/
inductive LogEntry (K W S V : Type)
  | drained (r : DrainRecord K W S V)
  | removed (key : K)
  | bound (key : K)

/-- The authority. -/
structure Authority (K W S C V : Type) where
  entities : JsMap K (Entity W S C)
  serverId : ℤ
  eventSink : List (Emission W V)
  currentId : ℤ
  eventOrdinal : ℕ
  drain : Option (TickFrame K W S C V)
  serial : ℕ
  /-- Newest first. -/
  log : List (LogEntry K W S V)

variable {K W S C V : Type}

namespace Authority

variable [DecidableEq K]

/-- The state of an entity. -/
def stateOf (a : Authority K W S C V) (key : K) : Option S := (a.entities.get key).map Entity.state

/-- An entity is stored. -/
def put (a : Authority K W S C V) (key : K) (e : Entity W S C) : Authority K W S C V :=
  { a with entities := a.entities.set key e }

/-! ## The calls -/

/-- `ensure(key, ws, initialState, opts)`. -/
def ensure [DecidableEq W] (a : Authority K W S C V) (key : K) (ws : W) (initialState : S)
    (active : Bool) : (S × ℕ) × Authority K W S C V :=
  match a.entities.get key with
  | none => ((initialState, 0), a.put key ⟨initialState, ws, [], 0, none, active, []⟩)
  | some e =>
    if e.ws = ws then ((e.state, e.lastAckedId), a)
    else
      ((e.state, 0),
        { a.put key { e with ws := ws, queue := [], lastAckedId := 0 } with
          log := .bound key :: a.log })

/-- `enqueue(key, commands)`, where an entry without a whole id from 0 on is none. -/
def enqueue (o : AuthorityOptions) (a : Authority K W S C V) (key : K)
    (commands : List (Option (QueuedCommand C))) : Bool × Authority K W S C V :=
  match a.entities.get key with
  | none => (false, a)
  | some e =>
    let incoming := (commands.drop (commands.length - o.queueCap)).filterMap id
    if incoming = [] then (false, a)
    else
      let overflow := e.queue.length + incoming.length - o.queueCap
      (true, a.put key { e with queue := e.queue.drop overflow ++ incoming })

/-- `inject(key, cmd)`. -/
def inject (o : AuthorityOptions) (a : Authority K W S C V) (key : K) (cmd : C) :
    Bool × Authority K W S C V :=
  match a.entities.get key with
  | none => (false, a)
  | some e =>
    let queue := if o.queueCap ≤ e.serverQueue.length then e.serverQueue.tail else e.serverQueue
    (true,
      { a.put key { e with serverQueue := queue ++ [⟨a.serverId - 1, cmd⟩] } with
        serverId := a.serverId - 1 })

/-- `set(key, state)`. -/
def set (a : Authority K W S C V) (key : K) (state : S) : Bool × Authority K W S C V :=
  match a.entities.get key with
  | none => (false, a)
  | some e => (true, a.put key { e with state := state, active := true })

/-- `remove(key)`. -/
def remove (a : Authority K W S C V) (key : K) : Bool × Authority K W S C V :=
  ((a.entities.get key).isSome,
    { a with
      entities := a.entities.delete key
      log := .removed key :: a.log })

end Authority

/-! ## The drain -/

/-- The acknowledgement and the update of an entity. -/
def Tick.finish [DecidableEq S] (tick : Tick K W S V) (key : K) (before : S) (e : Entity W S C)
    (commanded injected : Bool) : Tick K W S V where
  updates := tick.updates ++
    if e.state = before then [] else [⟨key, e.state, e.ws, commanded && !injected⟩]
  acks := tick.acks ++ if commanded then [⟨key, e.ws, e.lastAckedId, e.state⟩] else []
  events := tick.events
  idle := tick.idle && !(e.active || !e.queue.isEmpty || injected)

/-- The events of the sink are those of an entity. -/
def Tick.collect (tick : Tick K W S V) (sink : List (Emission W V)) (ws : W) (commanded : Bool) :
    Tick K W S V :=
  { tick with events := tick.events ++ sink.map fun emission => ⟨emission, ws, commanded⟩ }

namespace Authority

variable [DecidableEq K]

/-- A drain ends, by its return or by a throw. -/
def endDrain (a : Authority K W S C V) (l : TickLocals K W S V) (tick : Option (Tick K W S V)) :
    Authority K W S C V :=
  { a with
    drain := none
    log := .drained ⟨l.start, a.stateOf, l.commits, tick⟩ :: a.log }

omit [DecidableEq K] in
/-- A hook is called. -/
def enter (a : Authority K W S C V) (f : TickFrame K W S C V) : Authority K W S C V :=
  match f.call with
  | .command _ _ c => { a with currentId := c.id, eventOrdinal := 0, drain := some f }
  | .injected _ _ c => { a with currentId := c.id, eventOrdinal := 0, drain := some f }
  | .missing => { a with drain := some f }

variable [DecidableEq S]

/-- The entities that remain, up to the next call of a hook. -/
def visit (o : AuthorityOptions) (a : Authority K W S C V) (l : TickLocals K W S V) :
    List K → Authority K W S C V
  | [] => a.endDrain l (some l.tick)
  | key :: remaining =>
    match a.entities.get key with
    | none => a.visit o l remaining
    | some e =>
      match e.queue with
      | c :: _ =>
        match o.maxCommandsPerTick with
        | none => a.enter ⟨l, remaining, key, e.state, e.state, [], .command none 0 c⟩
        | some n =>
          -- a bounded tick owns its prefix
          (a.put key { e with queue := e.queue.drop n }).enter
            ⟨l, remaining, key, e.state, e.state, [], .command (some (e.queue.take n)) 0 c⟩
      | [] =>
        if e.active && o.onMissing then
          a.enter ⟨l, remaining, key, e.state, e.state, [], .missing⟩
        else
          let rested := { e with active := false }
          let a := a.put key rested
          match e.serverQueue with
          | c :: _ => a.enter ⟨l, remaining, key, e.state, e.state, [], .injected false 0 c⟩
          | [] =>
            let tick := l.tick.finish key e.state rested false false
            a.visit o { l with tick := tick } remaining

/-- The entity is done. -/
def leave (o : AuthorityOptions) (a : Authority K W S C V) (f : TickFrame K W S C V)
    (e : Entity W S C) (commanded injected : Bool) : Authority K W S C V :=
  a.visit o { f.toTickLocals with tick := f.tick.finish f.key f.before e commanded injected }
    f.remaining

/-- The commands of the server, after the owner's or `onMissing`. -/
def serverPhase (o : AuthorityOptions) (a : Authority K W S C V) (f : TickFrame K W S C V)
    (e : Entity W S C) (commanded : Bool) : Authority K W S C V :=
  match e.serverQueue with
  | c :: _ => a.enter { f with s := e.state, call := .injected commanded 0 c }
  | [] => a.leave o f e commanded false

/-- `ctx.emitEvent(type, data, opts)`, with the key of `opts`. -/
def emitEvent (a : Authority K W S C V) (ws : W) (type : JsString) (data : V)
    (key : Option JsString) : JsString × Authority K W S C V :=
  let key := key.getD (lit (toString a.currentId) ++ lit ":" ++ lit (toString a.eventOrdinal))
  (key,
    { a with
      eventOrdinal := a.eventOrdinal + 1
      serial := a.serial + 1
      eventSink := a.eventSink ++ [⟨type, key, data, a.currentId, a.serial, ws⟩] })

/-- `apply` returned a state. -/
def applied (o : AuthorityOptions) (a : Authority K W S C V) (f : TickFrame K W S C V)
    (e : Entity W S C) (s : S) : Option (Authority K W S C V) :=
  match f.call with
  | .missing => none
  | .command owned i c =>
    let e := { e with lastAckedId := c.id, lastCommand := some c.cmd }
    let tick := f.tick.collect a.eventSink e.ws true
    let f := { f with tick := tick, s := s, applied := f.applied ++ [c.id] }
    let a := { a with eventSink := [] }
    match (owned.getD e.queue)[i + 1]? with
    | some c => some ((a.put f.key e).enter { f with call := .command owned (i + 1) c })
    | none =>
      let queue := if owned.isNone then [] else e.queue
      let e := { e with queue := queue, state := s, active := true }
      let f := { f with commits := f.commits ++ [⟨f.key, e.ws, f.applied⟩] }
      some ((a.put f.key e).serverPhase o f e true)
  | .injected commanded i _ =>
    let tick := f.tick.collect a.eventSink e.ws false
    let f := { f with tick := tick, s := s }
    let a := { a with eventSink := [] }
    match e.serverQueue[i + 1]? with
    | some c => some (a.enter { f with call := .injected commanded (i + 1) c })
    | none =>
      let e := { e with serverQueue := [], state := s }
      some ((a.put f.key e).leave o f e commanded true)

/-- `onMissing` returned a state, or undefined. -/
def missed (o : AuthorityOptions) (a : Authority K W S C V) (f : TickFrame K W S C V)
    (e : Entity W S C) (s : Option S) : Option (Authority K W S C V) :=
  match f.call with
  | .missing =>
    let e :=
      match s with
      | none => { e with active := false }
      | some s => if s = e.state then { e with active := false } else { e with state := s }
    some ((a.put f.key e).serverPhase o f e false)
  | .command .. | .injected .. => none

omit [DecidableEq S] in
/-- A hook threw. The prefix a tick owns is put back. -/
def threw (o : AuthorityOptions) (a : Authority K W S C V) (f : TickFrame K W S C V)
    (e : Entity W S C) : Authority K W S C V :=
  match f.call with
  | .command (some owned) _ _ =>
    let queue := owned ++ e.queue
    (a.put f.key { e with queue := queue.drop (queue.length - o.queueCap) }).endDrain
      f.toTickLocals none
  | .command none _ _ | .missing | .injected .. => a.endDrain f.toTickLocals none

end Authority

/-! ## Runs -/

/-- A call, or what a hook does in a drain: it emits, it returns, or it throws. -/
inductive AuthorityEvent (K W S C V : Type)
  | ensure (key : K) (ws : W) (initialState : S) (active : Bool)
  | enqueue (key : K) (commands : List (Option (QueuedCommand C)))
  | inject (key : K) (cmd : C)
  | set (key : K) (state : S)
  | remove (key : K)
  | drain
  | emitEvent (type : JsString) (data : V) (key : Option JsString)
  | applied (s : S)
  | missed (s : Option S)
  | threw

/-- One step. Hooks enqueue and inject, and leave the other calls to the owner of the tick. -/
def Authority.step [DecidableEq K] [DecidableEq W] [DecidableEq S] (o : AuthorityOptions)
    (a : Authority K W S C V) : AuthorityEvent K W S C V → Option (Authority K W S C V)
  | .ensure key ws initialState active =>
    if a.drain.isNone then some (a.ensure key ws initialState active).2 else none
  | .enqueue key commands => some (a.enqueue o key commands).2
  | .inject key cmd => some (a.inject o key cmd).2
  | .set key state => if a.drain.isNone then some (a.set key state).2 else none
  | .remove key => if a.drain.isNone then some (a.remove key).2 else none
  | .drain =>
    if a.drain.isNone then some (a.visit o ⟨⟨[], [], [], true⟩, [], a.stateOf⟩ a.entities.keys)
    else none
  | .emitEvent type data key =>
    a.drain.bind fun f => (a.entities.get f.key).bind fun e =>
      match f.call with
      | .missing => none
      | .command .. | .injected .. => some (a.emitEvent e.ws type data key).2
  | .applied s => a.drain.bind fun f => (a.entities.get f.key).bind fun e => a.applied o f e s
  | .missed s => a.drain.bind fun f => (a.entities.get f.key).bind fun e => a.missed o f e s
  | .threw => a.drain.bind fun f => (a.entities.get f.key).map fun e => a.threw o f e

/-- One authority. -/
def authorityMachine [DecidableEq K] [DecidableEq W] [DecidableEq S] (o : AuthorityOptions) :
    Machine (Authority K W S C V) (AuthorityEvent K W S C V) where
  init := ⟨.empty, 0, [], 0, 0, none, 0, []⟩
  step a e := a.step o e

end AdapterWs.Smooth
