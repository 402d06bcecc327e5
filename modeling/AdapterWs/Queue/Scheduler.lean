import AdapterWs.Lib.JsMap
import AdapterWs.Lib.Machine
import AdapterWs.Queue.Links

/-!
# The queue of tasks by key

`createQueue` keeps one `QueueState` for each live key and starts the waiting tasks of the keys
round-robin, up to `concurrency` at once for a key and `maxRunningTotal` over all keys. A running
task keeps a reference to the queue state it was started from, so the queue states are named here
by their places in `states`.
-/

namespace AdapterWs.Queue

open JsString Function

/-- A bound: a positive integer, or `Infinity`. -/
inductive Bound
  | finite (n : ℕ) (pos : 1 ≤ n)
  | infinite

/-- `n >= bound`. -/
def Bound.reached : Bound → ℤ → Bool
  | .finite b _, n => decide ((b : ℤ) ≤ n)
  | .infinite, _ => false

/-- A bound as a template literal prints it. -/
def Bound.text : Bound → JsString
  | .finite n _ => lit (toString n)
  | .infinite => lit "Infinity"

/-- The options of `createQueue`. -/
structure QueueOptions where
  /-- The largest number of tasks of one key in flight. -/
  concurrency : ℕ
  /-- The largest number of waiting tasks of one key. -/
  maxSize : Bound
  /-- The largest number of live keys. -/
  maxKeys : Bound
  /-- The largest number of waiting tasks. -/
  maxPendingTotal : Bound
  /-- The largest number of tasks in flight. -/
  maxRunningTotal : Bound
  /-- The largest length of a key. -/
  maxKeyLength : ℕ
  /-- Whether `onDrop` is given. -/
  onDrop : Bool
  concurrency_pos : 1 ≤ concurrency
  maxKeyLength_pos : 1 ≤ maxKeyLength

/-- A value passed as a key. -/
inductive KeyArgument
  | nullish
  | string (key : JsString)
  | other

/-- The bound that sheds a push. -/
inductive DropReason
  | maxSize
  | maxKeys
  | maxPendingTotal
  deriving DecidableEq

/-- The name of the option. -/
def DropReason.name : DropReason → String
  | .maxSize => "maxSize"
  | .maxKeys => "maxKeys"
  | .maxPendingTotal => "maxPendingTotal"

/-- The code of the overload error. -/
def DropReason.code : DropReason → String
  | .maxSize => "QUEUE_FULL"
  | .maxKeys => "QUEUE_TOO_MANY_KEYS"
  | .maxPendingTotal => "QUEUE_BACKLOG_FULL"

/-- What a push is rejected with before its task starts. -/
inductive QueueError
  | keyNotString
  | keyLength (length max : ℕ)
  | taskNotFunction
  | overload (key : JsString) (reason : DropReason) (limit : Bound)
  | cleared (key : JsString)

/-- The text of an error. -/
def QueueError.message : QueueError → JsString
  | .keyNotString => lit "queue: key must be a string"
  | .keyLength length max =>
    lit "queue: key length " ++ lit (toString length) ++ lit " exceeds maxKeyLength " ++
      lit (toString max)
  | .taskNotFunction => lit "queue: task must be a function"
  | .overload key reason limit =>
    lit "queue \"" ++ key ++ lit "\": " ++ lit reason.name ++ lit " exceeded (limit " ++
      limit.text ++ lit ")"
  | .cleared _ => lit "queue cleared"

/-- The code of an error that has one. -/
def QueueError.code : QueueError → Option String
  | .overload _ reason _ => some reason.code
  | .cleared _ => some "QUEUE_CLEARED"
  | _ => none

/-- How the promise of a push settles. -/
inductive Outcome
  | resolved
  | failed
  | refused (e : QueueError)

/-- What is kept for one key. -/
structure QueueState where
  items : Fifo
  running : ℤ
  /-- The drains that wait for it. -/
  drains : List ℕ
  /-- Its place in the service line. -/
  lineNode : Option ℕ

/-- The queue state of a new key. -/
def QueueState.create : QueueState := ⟨fifoCreate, 0, [], none⟩

/-- A task in flight. -/
structure InFlight where
  /-- The push it came with. -/
  call : ℕ
  key : JsString
  /-- The queue state it was started from. -/
  state : ℕ
  deriving DecidableEq

/-- The pushes shed, by the bound that tripped. -/
structure Dropped where
  maxSize : ℕ
  maxKeys : ℕ
  maxPendingTotal : ℕ

/-- One queue and the tasks in flight. -/
structure TaskQueue where
  /-- The queue states by key. -/
  queues : JsMap JsString ℕ
  /-- Every queue state made so far. -/
  states : ℕ → QueueState
  /-- The place of the next queue state. -/
  made : ℕ
  tasks : Tasks
  /-- The place of the next task. -/
  allocated : ℕ
  serviceLine : Line
  inFlight : List InFlight
  pendingCurrent : ℤ
  runningCurrent : ℤ
  keysPeak : ℕ
  pendingPeak : ℤ
  runningPeak : ℤ
  pushedTotal : ℤ
  completedTotal : ℤ
  failedTotal : ℤ
  clearedTotal : ℤ
  onDropErrorsTotal : ℕ
  dropped : Dropped
  /-- The pushes and drains so far. -/
  calls : ℕ
  /-- The promises of pushes that settled. -/
  settled : List (ℕ × Outcome)
  /-- The drains that were told of an idle key. -/
  drained : List ℕ

namespace TaskQueue

/-- `createQueue`. -/
def create : TaskQueue where
  queues := .empty
  states := fun _ => .create
  made := 0
  tasks := fun _ => ⟨0, [], none⟩
  allocated := 0
  serviceLine := lineCreate
  inFlight := []
  pendingCurrent := 0
  runningCurrent := 0
  keysPeak := 0
  pendingPeak := 0
  runningPeak := 0
  pushedTotal := 0
  completedTotal := 0
  failedTotal := 0
  clearedTotal := 0
  onDropErrorsTotal := 0
  dropped := ⟨0, 0, 0⟩
  calls := 0
  settled := []
  drained := []

/-- Write a queue state. -/
def setState (s : TaskQueue) (q : ℕ) (state : QueueState) : TaskQueue :=
  { s with states := update s.states q state }

/-! ## Scheduling -/

/-- `markReady(key, q)`. -/
def markReady (o : QueueOptions) (s : TaskQueue) (key : JsString) (q : ℕ) : TaskQueue :=
  let state := s.states q
  if state.lineNode ≠ none ∨ state.items.size = 0 ∨ (o.concurrency : ℤ) ≤ state.running then s
  else
    let (node, serviceLine) := lineAppend s.serviceLine key
    { s with serviceLine := serviceLine }.setState q { state with lineNode := some node }

/-- `unmarkReady(q)`. -/
def unmarkReady (s : TaskQueue) (q : ℕ) : TaskQueue :=
  match (s.states q).lineNode with
  | none => s
  | some node =>
    { s with serviceLine := lineRemove s.serviceLine node }.setState q
      { s.states q with lineNode := none }

/-- `start(key, q)`, up to the settlement of the task. -/
def start (s : TaskQueue) (key : JsString) (q : ℕ) : TaskQueue :=
  let state := s.states q
  match state.items.head with
  -- the callers check that a task waits
  | none => s
  | some node =>
    let (tasks, items) := fifoShift s.tasks state.items node
    { s with
      tasks := tasks
      pendingCurrent := s.pendingCurrent - 1
      runningCurrent := s.runningCurrent + 1
      runningPeak := max s.runningPeak (s.runningCurrent + 1)
      inFlight := s.inFlight ++ [InFlight.mk (s.tasks node).call key q] }.setState q
        { state with items := items, running := state.running + 1 }

/-- One visit of `pump` to the head of the service line. -/
def visit (o : QueueOptions) (s : TaskQueue) (node : ℕ) : TaskQueue :=
  let key := (s.serviceLine.nodes node).key
  let s := { s with serviceLine := lineRemove s.serviceLine node }
  match s.queues.get key with
  | none => s
  | some q =>
    let s := s.setState q { s.states q with lineNode := none }
    if (s.states q).items.size = 0 ∨ (o.concurrency : ℤ) ≤ (s.states q).running then s
    else (s.start key q).markReady o key q

/-- The loop of `pump`. -/
def pumpLoop (o : QueueOptions) : ℕ → TaskQueue → TaskQueue
  | 0, s => s
  | fuel + 1, s =>
    if o.maxRunningTotal.reached s.runningCurrent then s
    else
      match s.serviceLine.head with
      | none => s
      | some node => pumpLoop o fuel (s.visit o node)

/-- `pump()`. A visit takes a place from the line and gives one back only for a started task. -/
def pump (o : QueueOptions) (s : TaskQueue) : TaskQueue :=
  pumpLoop o (s.serviceLine.size + s.pendingCurrent).toNat s

/-- The shortcut of `schedule`: with nobody in line the key is started at once. -/
def startAhead (o : QueueOptions) (s : TaskQueue) (key : JsString) (q : ℕ) : TaskQueue :=
  if s.serviceLine.head = none ∧ 0 < (s.states q).items.size ∧
      (s.states q).running < o.concurrency ∧ o.maxRunningTotal.reached s.runningCurrent = false then
    s.start key q
  else s

/-- `schedule(key, q)`. -/
def schedule (o : QueueOptions) (s : TaskQueue) (key : JsString) (q : ℕ) : TaskQueue :=
  ((s.startAhead o key q).markReady o key q).pump o

/-- `cleanup(key)`. -/
def cleanup (s : TaskQueue) (key : JsString) : TaskQueue :=
  match s.queues.get key with
  | none => s
  | some q =>
    if (s.states q).running = 0 ∧ (s.states q).items.size = 0 then
      let drains := (s.states q).drains
      let s := s.unmarkReady q
      { s with queues := s.queues.delete key, drained := s.drained ++ drains }
    else s

/-- A promise of a push settles. -/
def answer (s : TaskQueue) (call : ℕ) (outcome : Outcome) : TaskQueue :=
  { s with settled := s.settled ++ [(call, outcome)] }

/-- The loop of `rejectWaiting`. -/
def rejectLoop (key : JsString) (q : ℕ) : ℕ → TaskQueue → TaskQueue
  | 0, s => s
  | fuel + 1, s =>
    let state := s.states q
    match state.items.head with
    | none => s
    | some node =>
      let (tasks, items) := fifoShift s.tasks state.items node
      rejectLoop key q fuel
        (({ s with
          tasks := tasks
          pendingCurrent := s.pendingCurrent - 1
          clearedTotal := s.clearedTotal + 1 }.setState q
            { state with items := items }).answer (s.tasks node).call (.refused (.cleared key)))

/-- `rejectWaiting(key, q)`. -/
def rejectWaiting (s : TaskQueue) (key : JsString) (q : ℕ) : TaskQueue :=
  let s := s.unmarkReady q
  rejectLoop key q (s.states q).items.size.toNat s

/-! ## Operations -/

/-- Count a shed push. -/
def Dropped.count (d : Dropped) : DropReason → Dropped
  | .maxSize => { d with maxSize := d.maxSize + 1 }
  | .maxKeys => { d with maxKeys := d.maxKeys + 1 }
  | .maxPendingTotal => { d with maxPendingTotal := d.maxPendingTotal + 1 }

/-- `shed(key, task, code, reason, limit)`, with a sink that may throw. -/
def shed (o : QueueOptions) (s : TaskQueue) (call : ℕ) (key : JsString) (reason : DropReason)
    (limit : Bound) (sinkThrows : Bool) : TaskQueue :=
  { s with
    dropped := Dropped.count s.dropped reason
    onDropErrorsTotal := s.onDropErrorsTotal + if o.onDrop && sinkThrows then 1 else 0 }.answer call
      (.refused (.overload key reason limit))

/-- Give a key a new queue state. -/
def register (s : TaskQueue) (key : JsString) : TaskQueue :=
  let queues := s.queues.set key s.made
  { s with
    queues := queues
    made := s.made + 1
    keysPeak := max s.keysPeak queues.size }.setState s.made .create

/-- The queue state of a key, made where it has none. -/
def ensure (s : TaskQueue) (key : JsString) : TaskQueue × ℕ :=
  match s.queues.get key with
  | some q => (s, q)
  | none => (s.register key, s.made)

/-- Queue a task of a key. -/
def enqueue (s : TaskQueue) (call : ℕ) (key : JsString) (q : ℕ) : TaskQueue :=
  let state := s.states q
  let queued := fifoPush (update s.tasks s.allocated ⟨call, key, none⟩) state.items s.allocated
  { s with
    tasks := queued.1
    allocated := s.allocated + 1
    pendingCurrent := s.pendingCurrent + 1
    pendingPeak := max s.pendingPeak (s.pendingCurrent + 1)
    pushedTotal := s.pushedTotal + 1 }.setState q { state with items := queued.2 }

/-- The bound that sheds a push for a key. -/
def overload (o : QueueOptions) (s : TaskQueue) (key : JsString) : Option (DropReason × Bound) :=
  match s.queues.get key with
  | some q =>
    if o.maxSize.reached (s.states q).items.size then some (.maxSize, o.maxSize)
    else if o.maxPendingTotal.reached s.pendingCurrent then
      some (.maxPendingTotal, o.maxPendingTotal)
    else none
  | none =>
    if o.maxKeys.reached s.queues.size then some (.maxKeys, o.maxKeys)
    else if o.maxPendingTotal.reached s.pendingCurrent then
      some (.maxPendingTotal, o.maxPendingTotal)
    else none

/-- `push(key, task)`, with a task that may be no function and a sink that may throw. -/
def push (o : QueueOptions) (s : TaskQueue) (key : KeyArgument) (callable sinkThrows : Bool) :
    TaskQueue :=
  let call := s.calls
  let s := { s with calls := s.calls + 1 }
  match key with
  | .string key =>
    if o.maxKeyLength < key.length then
      s.answer call (.refused (.keyLength key.length o.maxKeyLength))
    else if callable = false then s.answer call (.refused .taskNotFunction)
    else
      match s.overload o key with
      | some (reason, limit) => s.shed o call key reason limit sinkThrows
      | none =>
        let (s, q) := s.ensure key
        (s.enqueue call key q).schedule o key q
  | _ => s.answer call (.refused .keyNotString)

/-- A task in flight settles. -/
def settle (o : QueueOptions) (s : TaskQueue) (call : ℕ) (completed : Bool) : Option TaskQueue :=
  (s.inFlight.find? fun f => f.call = call).map fun f =>
    let s := { s with
      inFlight := s.inFlight.erase f
      runningCurrent := s.runningCurrent - 1
      completedTotal := s.completedTotal + if completed then 1 else 0
      failedTotal := s.failedTotal + if completed then 0 else 1 }.setState f.state
        { s.states f.state with running := (s.states f.state).running - 1 }
    ((s.answer call (if completed then .resolved else .failed)).schedule o f.key f.state).cleanup
      f.key

/-- `size(key)`. -/
def size (s : TaskQueue) : KeyArgument → ℤ
  | .nullish => s.pendingCurrent + s.runningCurrent
  | .string key =>
    match s.queues.get key with
    | some q => (s.states q).items.size + (s.states q).running
    | none => 0
  | .other => 0

/-- Cancel the waiting tasks of a key. -/
def clearKey (s : TaskQueue) (key : JsString) (q : ℕ) : TaskQueue :=
  (s.rejectWaiting key q).cleanup key

/-- `clear(key)`. -/
def clear (s : TaskQueue) : KeyArgument → TaskQueue
  | .nullish => s.queues.entries.foldl (fun s e => s.clearKey e.1 e.2) s
  | .string key =>
    match s.queues.get key with
    | some q => s.clearKey key q
    | none => s
  | .other => s

/-- Let a drain wait for a key, or tell it at once that the key is idle. -/
def drainKey (s : TaskQueue) (call : ℕ) (key : JsString) : TaskQueue :=
  match s.queues.get key with
  | none => { s with drained := s.drained ++ [call] }
  | some q =>
    if (s.states q).items.size = 0 ∧ (s.states q).running = 0 then
      { s with drained := s.drained ++ [call] }
    else s.setState q { s.states q with drains := (s.states q).drains ++ [call] }

/-- `drain(key)`. -/
def drain (s : TaskQueue) (key : KeyArgument) : TaskQueue :=
  let call := s.calls
  let s := { s with calls := s.calls + 1 }
  match key with
  | .nullish =>
    if s.queues.size = 0 then { s with drained := s.drained ++ [call] }
    else s.queues.entries.foldl (fun s e => s.drainKey call e.1) s
  | .string key => s.drainKey call key
  | .other => { s with drained := s.drained ++ [call] }

end TaskQueue

/-- What happens to a queue. -/
inductive QueueEvent
  | push (key : KeyArgument) (callable sinkThrows : Bool)
  | settle (call : ℕ) (completed : Bool)
  | clear (key : KeyArgument)
  | drain (key : KeyArgument)

/-- One queue. -/
def queueMachine (o : QueueOptions) : Machine TaskQueue QueueEvent where
  init := .create
  step s
    | .push key callable sinkThrows => some (s.push o key callable sinkThrows)
    | .settle call completed => s.settle o call completed
    | .clear key => some (s.clear key)
    | .drain key => some (s.drain key)

end AdapterWs.Queue
