import AdapterWs.Lib.JsMap
import AdapterWs.Lib.Machine
import AdapterWs.Lib.Nearest
import AdapterWs.Lib.Spans

/-!
# Established-message admission

`createMessageAdmission` is a gate in front of the application's message hook. Four token buckets
are checked before any is charged, the work that runs is counted for the worker and for its
connection, and a frame that finds no room for its work may wait in one bounded queue, from which
the first entry that can start is taken.
-/

namespace AdapterWs.MessageAdmission

open Binary64

/-- The options `normalizeMessageAdmission` returns. -/
structure MessageAdmissionConfig where
  perConnectionRate : ℕ
  globalRate : ℕ
  perConnectionBytesRate : ℕ
  globalBytesRate : ℕ
  rateWindowMs : ℕ
  perConnectionConcurrent : ℕ
  globalConcurrent : ℕ
  maxQueue : ℕ
  rateWindowMs_pos : 0 < rateWindowMs
  maxQueue_requires : 0 < maxQueue → 0 < perConnectionConcurrent ∨ 0 < globalConcurrent

/-- `enabled`. -/
def MessageAdmissionConfig.enabled (o : MessageAdmissionConfig) : Bool :=
  decide (0 < o.perConnectionRate) || decide (0 < o.globalRate) ||
    decide (0 < o.perConnectionBytesRate) || decide (0 < o.globalBytesRate) ||
    decide (0 < o.perConnectionConcurrent) || decide (0 < o.globalConcurrent)

/-- A token bucket. -/
structure Bucket where
  tokens : ℚ
  updatedAt : ℚ
  deriving DecidableEq

/-- `refill(bucket, capacity, windowMs, at)`. -/
def refill (bucket : Option Bucket) (capacity windowMs : ℕ) (now : ℚ) : Bucket :=
  match bucket with
  | none => ⟨capacity, now⟩
  | some b =>
    let elapsed := max 0 (nearest (now - b.updatedAt))
    let added := nearest (nearest (elapsed * capacity) / windowMs)
    ⟨min capacity (nearest (b.tokens + added)), now⟩

/-- What a connection has running and waiting, and its buckets. -/
structure ConnectionState where
  active : ℤ
  queued : ℤ
  rate : Option Bucket
  bytes : Option Bucket
  closed : Bool
  deriving DecidableEq

variable {W : Type}

/-- An entry of the queue, with the number of its promise. -/
structure Waiting (W : Type) where
  ws : W
  wait : ℕ
  deriving DecidableEq

/-- A permit of a connection, and whether it was released. -/
structure Permit (W : Type) where
  ws : W
  released : Bool
  deriving DecidableEq

/-- What a wait is settled with. -/
inductive Outcome
  | permit (id : ℕ)
  | connectionClosed
  deriving DecidableEq

/-- The gate. -/
structure Gate (W : Type) where
  connections : JsMap W ConnectionState
  queue : List (Waiting W)
  active : ℤ
  globalBucket : Option Bucket
  globalBytesBucket : Option Bucket
  /-- The permits, in the order they were granted. -/
  permits : List (Permit W)
  /-- How many promises were made. -/
  waits : ℕ
  /-- The promises that were settled, in that order. -/
  settled : List (Waiting W × Outcome)

/-- The side a rejection comes from. -/
inductive Scope
  | connection
  | global
  deriving DecidableEq

/-- A decision that is no permit. -/
inductive Rejection
  | rateLimit (scope : Scope) (retryAfterMs : ℤ)
  | concurrencyLimit (scope : Scope)
  | queueFull (scope : Scope)
  | connectionClosed
  deriving DecidableEq

/-- What `enter` returns. -/
inductive Decision
  | permit (id : ℕ)
  | rejected (reason : Rejection)
  | queued (wait : ℕ)
  deriving DecidableEq

/-! ## Rate lanes -/

/-- A token bucket of a connection or of the worker, for frames or for bytes. -/
inductive RateLane (W : Type)
  | connectionRate (ws : W)
  | globalRate
  | connectionBytes (ws : W)
  | globalBytes
  deriving DecidableEq

namespace RateLane

/-- The lanes of a frame, in the order they are checked. -/
def ofFrame (ws : W) : List (RateLane W) :=
  [.connectionRate ws, .globalRate, .connectionBytes ws, .globalBytes]

/-- The tokens a lane holds at most. -/
def capacity (o : MessageAdmissionConfig) : RateLane W → ℕ
  | .connectionRate _ => o.perConnectionRate
  | .globalRate => o.globalRate
  | .connectionBytes _ => o.perConnectionBytesRate
  | .globalBytes => o.globalBytesRate

/-- What a frame costs on a lane. -/
def cost (bytes : ℕ) : RateLane W → ℕ
  | .connectionRate _ | .globalRate => 1
  | .connectionBytes _ | .globalBytes => bytes

def scope : RateLane W → Scope
  | .connectionRate _ | .connectionBytes _ => .connection
  | .globalRate | .globalBytes => .global

/-- Whether a frame is checked on a lane. -/
def checks (o : MessageAdmissionConfig) (bytes : ℕ) (lane : RateLane W) : Bool :=
  decide (0 < lane.cost bytes) && decide (0 < lane.capacity o)

end RateLane

/-- `rateRejection(scope, bucket, capacity, windowMs, cost)`. -/
def rateRejection (scope : Scope) (b : Bucket) (capacity windowMs cost : ℕ) : Rejection :=
  let missing := nearest (((min cost capacity : ℕ) : ℚ) - b.tokens)
  .rateLimit scope (max 1 ⌈nearest (nearest (missing * windowMs) / capacity)⌉)

namespace Gate

/-- A gate that nobody has entered. -/
def create : Gate W := ⟨.empty, [], 0, none, none, [], 0, []⟩

variable [DecidableEq W]

/-- `stateFor(ws)`. -/
def stateFor (g : Gate W) (ws : W) : ConnectionState :=
  (g.connections.get ws).getD ⟨0, 0, none, none, false⟩

def setState (g : Gate W) (ws : W) (state : ConnectionState) : Gate W :=
  { g with connections := g.connections.set ws state }

/-- `canStart(state)`. -/
def canStart (o : MessageAdmissionConfig) (g : Gate W) (state : ConnectionState) : Bool :=
  (decide (o.globalConcurrent = 0) || decide (g.active < o.globalConcurrent)) &&
    (decide (o.perConnectionConcurrent = 0) || decide (state.active < o.perConnectionConcurrent))

/-- `permit(state)`, with the number of the permit. -/
def permit (g : Gate W) (ws : W) : ℕ × Gate W :=
  let state := g.stateFor ws
  (g.permits.length,
    { g.setState ws { state with active := state.active + 1 } with
      active := g.active + 1
      permits := g.permits ++ [⟨ws, false⟩] })

/-- `blockedScope(state)`. -/
def blockedScope (o : MessageAdmissionConfig) (state : ConnectionState) : Scope :=
  if 0 < o.perConnectionConcurrent ∧ (o.perConnectionConcurrent : ℤ) ≤ state.active then .connection
  else .global

/-! ## The queue -/

/-- Whether `drain` takes an entry. -/
def startable (o : MessageAdmissionConfig) (g : Gate W) (entry : Waiting W) : Bool :=
  !(g.stateFor entry.ws).closed && g.canStart o (g.stateFor entry.ws)

/-- An entry that is first of those that can start is taken, and its wait settled with a permit. -/
def grant (o : MessageAdmissionConfig) (g : Gate W) (entry : Waiting W) : Gate W :=
  let state := g.stateFor entry.ws
  let taken := { g.setState entry.ws { state with queued := state.queued - 1 } with
    queue := g.queue.eraseP (g.startable o) }
  let (id, g) := taken.permit entry.ws
  { g with settled := g.settled ++ [(entry, .permit id)] }

/-- The loop of `drain`. Every round takes an entry, so there are no more rounds than entries. -/
def drainLoop (o : MessageAdmissionConfig) : ℕ → Gate W → Gate W
  | 0, g => g
  | fuel + 1, g =>
    match g.queue.find? (g.startable o) with
    | none => g
    | some entry => drainLoop o fuel (g.grant o entry)

/-- `drain()`. -/
def drain (o : MessageAdmissionConfig) (g : Gate W) : Gate W := drainLoop o g.queue.length g

/-- `release()` of a permit. -/
def release (o : MessageAdmissionConfig) (g : Gate W) (id : ℕ) : Gate W :=
  match g.permits[id]? with
  | none => g
  | some p =>
    if p.released then g
    else
      let state := g.stateFor p.ws
      drain o
        { g.setState p.ws { state with active := state.active - 1 } with
          active := g.active - 1
          permits := g.permits.set id { p with released := true } }

/-- `close(ws)`. The entries of the connection are settled from the last to the first. -/
def close (o : MessageAdmissionConfig) (g : Gate W) (ws : W) : Gate W :=
  match g.connections.get ws with
  | none => g
  | some state =>
    let gone := g.queue.filter fun entry => entry.ws = ws
    drain o
      { g.setState ws { state with closed := true, queued := state.queued - gone.length } with
        queue := g.queue.filter fun entry => entry.ws ≠ ws
        settled := g.settled ++ gone.reverse.map fun entry => (entry, .connectionClosed) }

/-! ## Entering -/

/-- The bucket of a lane. -/
def bucket (g : Gate W) : RateLane W → Option Bucket
  | .connectionRate ws => (g.stateFor ws).rate
  | .globalRate => g.globalBucket
  | .connectionBytes ws => (g.stateFor ws).bytes
  | .globalBytes => g.globalBytesBucket

/-- The gate with a bucket stored. -/
def setBucket (g : Gate W) (b : Bucket) : RateLane W → Gate W
  | .connectionRate ws => g.setState ws { g.stateFor ws with rate := some b }
  | .globalRate => { g with globalBucket := some b }
  | .connectionBytes ws => g.setState ws { g.stateFor ws with bytes := some b }
  | .globalBytes => { g with globalBytesBucket := some b }

/-- The bucket of a lane, refilled. -/
def nextBucket (o : MessageAdmissionConfig) (g : Gate W) (lane : RateLane W) (now : ℚ) : Bucket :=
  refill (g.bucket lane) (lane.capacity o) o.rateWindowMs now

/-- The checks of the lanes, up to the first that cannot afford the frame. -/
def checkRates (o : MessageAdmissionConfig) (g : Gate W) (bytes : ℕ) (now : ℚ) :
    List (RateLane W) → Option (RateLane W)
  | [] => none
  | lane :: lanes =>
    if lane.checks o bytes ∧ (g.nextBucket o lane now).tokens < lane.cost bytes then some lane
    else checkRates o g bytes now lanes

/-- A frame is charged to every lane it was checked on. -/
def chargeRates (o : MessageAdmissionConfig) (bytes : ℕ) (now : ℚ) :
    List (RateLane W) → Gate W → Gate W
  | [], g => g
  | lane :: lanes, g =>
    let next := g.nextBucket o lane now
    chargeRates o bytes now lanes
      (if lane.checks o bytes then
        g.setBucket { next with tokens := nearest (next.tokens - lane.cost bytes) } lane
      else g)

/-- A frame that was charged starts, waits or is rejected. -/
def place (o : MessageAdmissionConfig) (g : Gate W) (ws : W) : Decision × Gate W :=
  let state := g.stateFor ws
  if g.canStart o state then
    let (id, g) := g.permit ws
    (.permit id, g)
  else if o.maxQueue = 0 then (.rejected (.concurrencyLimit (blockedScope o state)), g)
  else if o.maxQueue ≤ g.queue.length ∨ (o.maxQueue : ℤ) ≤ state.queued then
    (.rejected (.queueFull (if o.maxQueue ≤ g.queue.length then .global else .connection)), g)
  else
    (.queued g.waits,
      { g.setState ws { state with queued := state.queued + 1 } with
        queue := g.queue ++ [⟨ws, g.waits⟩]
        waits := g.waits + 1 })

/-- `enter(ws, bytes)`. -/
def enter (o : MessageAdmissionConfig) (g : Gate W) (ws : W) (bytes : ℕ) (now : ℚ) :
    Decision × Gate W :=
  let g := g.setState ws (g.stateFor ws)
  if !o.enabled then
    let (id, g) := g.permit ws
    (.permit id, g)
  else if (g.stateFor ws).closed then (.rejected .connectionClosed, g)
  else
    match g.checkRates o bytes now (RateLane.ofFrame ws) with
    | some lane =>
      let next := g.nextBucket o lane now
      (.rejected (rateRejection lane.scope next (lane.capacity o) o.rateWindowMs
        (lane.cost bytes)), g.setBucket next lane)
    | none => (chargeRates o bytes now (RateLane.ofFrame ws) g).place o ws

end Gate

/-! ## Runs -/

/-- A call, a frame at a reading of the clock. -/
inductive AdmissionEvent (W : Type)
  | enter (ws : W) (bytes : ℕ) (now : ℚ)
  | release (id : ℕ)
  | close (ws : W)

/-- A gate, the last reading of the clock, the frames that entered, and what each lane let
through. -/
structure History (W : Type) where
  gate : Gate W
  clock : ℚ
  entered : List Timed
  passed : RateLane W → List Timed

/-- Whether a decision was made before the lanes were charged. -/
def Decision.isUncharged : Decision → Bool
  | .rejected (.rateLimit _ _) | .rejected .connectionClosed => true
  | _ => false

variable [DecidableEq W]

/-- What the lanes have let through with a frame more. -/
def pass (o : MessageAdmissionConfig) (ws : W) (bytes : ℕ) (now : ℚ)
    (passed : RateLane W → List Timed) (lane : RateLane W) : List Timed :=
  if lane ∈ RateLane.ofFrame ws ∧ lane.checks o bytes then
    passed lane ++ [⟨now, lane.cost bytes⟩]
  else passed lane

/-- One call. The clock does not go back, and a permit can be released any number of times. -/
def History.call (o : MessageAdmissionConfig) (s : History W) :
    AdmissionEvent W → Option (History W)
  | .enter ws bytes now =>
    if s.clock ≤ now then
      let (decision, gate) := s.gate.enter o ws bytes now
      some
        { gate := gate
          clock := now
          entered := s.entered ++ [⟨now, 1⟩]
          passed :=
            if decision.isUncharged then s.passed else pass o ws bytes now s.passed }
    else none
  | .release id =>
    if id < s.gate.permits.length then some { s with gate := s.gate.release o id } else none
  | .close ws => some { s with gate := s.gate.close o ws }

/-- One gate, from a reading of the clock on. -/
def messageAdmissionMachine (o : MessageAdmissionConfig) (clock : ℚ) :
    Machine (History W) (AdmissionEvent W) where
  init := ⟨.create, clock, [], fun _ => []⟩
  step s e := s.call o e

end AdapterWs.MessageAdmission
