import AdapterWs.Lib.CursorMap
import AdapterWs.Lib.JsSet
import AdapterWs.Lib.JsString
import AdapterWs.Lib.Machine

/-!
# Coalesced sends

`sendCoalesced` keeps the latest value of every key of a connection and flushes them in the order of
their keys. A flush stringifies a value, and the app's serializers may call `sendCoalesced` again,
on this connection or on another. So a flush is not one step: it runs to its next call of
`JSON.stringify`, and the flushes that wait in such a call are a stack, the innermost first.

There are two loops. `flushCoalescedFor` walks the queue with an iterator in `drainCoalesced`.
`flushSingleCoalesced` starts without one where the queue holds the entry just set alone. Whether a
value without a JSON form is reported or thrown to the caller is left out.
-/

namespace AdapterWs.Coalesce

open JsString

/-- `MAX_COALESCED_KEYS_PER_CONNECTION`. -/
def MAX_COALESCED_KEYS_PER_CONNECTION : ℕ := 1000000

/-- What a socket answers to a send: 1, 0 or 2. -/
inductive SendStatus
  | sent
  | enqueued
  | dropped
deriving DecidableEq

/-- A queued entry, told from others by its number. -/
structure QueuedEntry (D : Type) where
  serial : ℕ
  topic : JsString
  event : JsString
  data : D

/-- The loop of a flush: `drainCoalesced` with the drain it interrupted and its iterator, or
`flushSingleCoalesced` with its first key and the iterator it opens later. -/
inductive Pass (C K : Type)
  | drain (previous : Option C) (cursor : ℕ)
  | single (firstKey : K) (rest : Option ℕ)

/-- A flush that waits for a serializer. -/
structure Flush (C K D : Type) where
  conn : C
  key : K
  value : QueuedEntry D
  retried : Bool
  remaining : ℕ
  yielded : Bool
  pass : Pass C K

/-- A value that was set, or a send and its status. -/
inductive LogEntry (C K : Type)
  | set (conn : C) (key : K) (serial : ℕ)
  | send (conn : C) (key : K) (serial : ℕ) (status : SendStatus)

/-- The queues of all connections, what the flushes share, the flushes that wait, and what was set
and sent, newest first. -/
structure Coalescer (C K D : Type) where
  pending : C → CursorMap K (QueuedEntry D)
  closed : C → Bool
  singleFlushPending : Option C
  singleFlushEvicted : Bool
  singleFlushTouched : Bool
  coalescedDrainDepth : ℕ
  drainingCoalesced : Option C
  parentDrains : JsSet C
  coalescedContinuations : JsSet C
  stack : List (Flush C K D)
  sets : ℕ
  log : List (LogEntry C K)

variable {C K D : Type}

/-- A flush is one of `flushSingleCoalesced`. -/
def Flush.isSingle (f : Flush C K D) : Bool :=
  match f.pass with
  | .drain .. => false
  | .single .. => true

namespace Coalescer

variable [DecidableEq C]

/-- The queue of a connection is stored. -/
def store (s : Coalescer C K D) (conn : C) (queue : CursorMap K (QueuedEntry D)) :
    Coalescer C K D :=
  { s with pending := Function.update s.pending conn queue }

/-! ## The loops -/

/-- `settleCoalescedFlush`, of a queue that was not aborted. -/
def settle (s : Coalescer C K D) (conn : C) (yielded : Bool) : Coalescer C K D :=
  if yielded then
    { s with coalescedContinuations := s.coalescedContinuations.add conn }
  else s

/-- A loop has ended. -/
def finish (s : Coalescer C K D) (f : Flush C K D) (yielded : Bool) : Coalescer C K D :=
  match f.pass with
  | .drain previous _ =>
    { s with
      coalescedDrainDepth := s.coalescedDrainDepth - 1
      drainingCoalesced := previous
      parentDrains := previous.elim s.parentDrains s.parentDrains.delete }.settle f.conn yielded
  | .single .. => { s with singleFlushPending := none }.settle f.conn yielded

/-- The next write of a loop, or its end after bounded work. -/
def attempt (s : Coalescer C K D) (f : Flush C K D) : Coalescer C K D :=
  if f.remaining = 0 then s.finish f true
  else { s with stack := { f with remaining := f.remaining - 1 } :: s.stack }

variable [DecidableEq K]

/-- The entry an iterator comes to. -/
def visit (s : Coalescer C K D) (f : Flush C K D) (cursor : ℕ) (pass : ℕ → Pass C K) :
    Coalescer C K D :=
  match (s.pending f.conn).next cursor with
  | none => s.finish f f.yielded
  | some (key, value, cursor) =>
    s.attempt { f with key := key, value := value, retried := false, pass := pass cursor }

/-- The loop goes on to the next entry. -/
def advance (s : Coalescer C K D) (f : Flush C K D) : Coalescer C K D :=
  match f.pass with
  | .drain previous cursor => s.visit f cursor (.drain previous)
  | .single firstKey (some cursor) => s.visit f cursor fun cursor => .single firstKey (some cursor)
  | .single firstKey none =>
    let queue := s.pending f.conn
    if queue.size = 0 then s.finish f f.yielded
    else
      -- the iterator goes past the slot of the first entry, if that is still there
      let cursor :=
        if !s.singleFlushEvicted && (queue.get firstKey).isSome then
          (queue.next 0).elim 0 fun entry => entry.2.2
        else 0
      s.visit f cursor fun cursor => .single firstKey (some cursor)

/-- The entry of a key is a value. -/
def holds (s : Coalescer C K D) (conn : C) (key : K) (value : QueuedEntry D) : Bool :=
  decide (((s.pending conn).get key).map QueuedEntry.serial = some value.serial)

/-- A value was written, or passed over, with a result. -/
def afterWrite (s : Coalescer C K D) (f : Flush C K D) (result : SendStatus) : Coalescer C K D :=
  if result = .dropped then s.finish f false
  else if (f.isSingle && !s.singleFlushTouched) || s.holds f.conn f.key f.value then
    let s := s.store f.conn ((s.pending f.conn).delete f.key)
    if result = .enqueued then s.finish f false else s.advance f
  else if result = .enqueued then s.finish f false
  else
    match (s.pending f.conn).get f.key with
    | none => s.advance f
    | some value =>
      if f.retried then s.advance { f with yielded := true }
      else s.attempt { f with retried := true, value := value }

/-- A serializer has queued a newer value for the key. -/
def superseded (s : Coalescer C K D) (f : Flush C K D) : Bool :=
  (decide (s.singleFlushPending ≠ some f.conn) || s.singleFlushTouched) &&
    !s.holds f.conn f.key f.value

/-- `writeCoalesced`, where the value has a JSON form and the socket answers. -/
def serialized (s : Coalescer C K D) (f : Flush C K D) (status : SendStatus) : Coalescer C K D :=
  if s.superseded f then s.afterWrite f .sent
  else { s with log := .send f.conn f.key f.value.serial status :: s.log }.afterWrite f status

/-- `writeCoalesced`, where the value has no JSON form. -/
def failed (s : Coalescer C K D) (f : Flush C K D) : Coalescer C K D := s.afterWrite f .sent

/-- `writeCoalesced`, where the socket throws. -/
def aborted (s : Coalescer C K D) (f : Flush C K D) : Coalescer C K D :=
  if s.superseded f then s.afterWrite f .sent
  else (s.finish f false).store f.conn { s.pending f.conn with map := .empty }

/-! ## The calls -/

/-- `flushCoalescedFor(facade)`. -/
def flushCoalescedFor (s : Coalescer C K D) (conn : C) : Coalescer C K D :=
  match (s.pending conn).next 0 with
  | none => s
  | some (key, value, cursor) =>
    if s.closed conn then s
    else if s.singleFlushPending = some conn then { s with singleFlushTouched := true }
    else if s.drainingCoalesced = some conn ∨ conn ∈ s.parentDrains then s
    else
      let previous := s.drainingCoalesced
      { s with
        coalescedDrainDepth := s.coalescedDrainDepth + 1
        drainingCoalesced := some conn
        parentDrains := previous.elim s.parentDrains s.parentDrains.add }.attempt
          ⟨conn, key, value, false, (s.pending conn).size * 2, false, .drain previous cursor⟩

/-- The oldest entry gives way to a new key. -/
def evict (s : Coalescer C K D) (conn : C) (key : K) : Coalescer C K D :=
  let queue := s.pending conn
  if MAX_COALESCED_KEYS_PER_CONNECTION ≤ queue.size ∧ queue.get key = none then
    match queue.next 0 with
    | none => s
    | some (oldest, _, _) =>
      let s := s.store conn (queue.delete oldest)
      if s.singleFlushPending = some conn then
        { s with singleFlushEvicted := true, singleFlushTouched := true }
      else s
  else s

/-- A value is set. -/
def enqueue (s : Coalescer C K D) (conn : C) (key : K) (entry : QueuedEntry D) :
    Coalescer C K D :=
  { s.store conn ((s.pending conn).set key entry) with
    sets := s.sets + 1
    log := .set conn key entry.serial :: s.log }

/-- `sendCoalesced(facade, { key, topic, event, data })`. -/
def sendCoalesced (s : Coalescer C K D) (conn : C) (key : K) (topic event : JsString) (data : D) :
    Coalescer C K D :=
  if s.closed conn then s
  else
    let entry := ⟨s.sets, topic, event, data⟩
    let s := (s.evict conn key).enqueue conn key entry
    if (s.pending conn).size = 1 ∧ s.singleFlushPending = none ∧ s.coalescedDrainDepth = 0 then
      { s with
        singleFlushPending := some conn
        singleFlushEvicted := false
        singleFlushTouched := false }.attempt
          ⟨conn, key, entry, false, 2, false, .single key none⟩
    else s.flushCoalescedFor conn

/-- The timer of a continuation. -/
def continuation (s : Coalescer C K D) (conn : C) : Coalescer C K D :=
  let s := { s with coalescedContinuations := s.coalescedContinuations.delete conn }
  if s.closed conn then s.store conn { s.pending conn with map := .empty }
  else s.flushCoalescedFor conn

end Coalescer

/-! ## Runs -/

/-- A call, which a serializer may make in a flush, a drain callback or a continuation, the end of a
connection, or what happens to the value of the innermost flush. -/
inductive CoalesceEvent (C K D : Type)
  | sendCoalesced (conn : C) (key : K) (topic event : JsString) (data : D)
  | drain (conn : C)
  | continuation (conn : C)
  | close (conn : C)
  | serialized (status : SendStatus)
  | failed
  | aborted

/-- One step. -/
def Coalescer.step [DecidableEq C] [DecidableEq K] (s : Coalescer C K D) :
    CoalesceEvent C K D → Option (Coalescer C K D)
  | .sendCoalesced conn key topic event data => some (s.sendCoalesced conn key topic event data)
  | .drain conn => if s.stack.isEmpty then some (s.flushCoalescedFor conn) else none
  | .continuation conn =>
    if s.stack.isEmpty ∧ conn ∈ s.coalescedContinuations then some (s.continuation conn) else none
  | .close conn => some { s with closed := Function.update s.closed conn true }
  | .serialized status =>
    match s.stack with
    | [] => none
    | f :: stack => some ({ s with stack := stack }.serialized f status)
  | .failed =>
    match s.stack with
    | [] => none
    | f :: stack => some ({ s with stack := stack }.failed f)
  | .aborted =>
    match s.stack with
    | [] => none
    | f :: stack => some ({ s with stack := stack }.aborted f)

/-- The flushes of all connections. -/
def coalesceMachine [DecidableEq C] [DecidableEq K] :
    Machine (Coalescer C K D) (CoalesceEvent C K D) where
  init := ⟨fun _ => .empty, fun _ => false, none, false, false, 0, none, .empty, .empty, [], 0, []⟩
  step s e := s.step e

end AdapterWs.Coalesce
