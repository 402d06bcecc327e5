import AdapterWs.Lib.JsMap
import AdapterWs.Lib.JsString
import AdapterWs.Lib.Machine

/-!
# The lock of one process

`createLock` serialises the functions that are passed with one key. Each active key has a
`KeyState`, found by key in `states`; the holder keeps a reference to the key state it acquired
and hands over through it when it settles. `clear` empties `states` and leaves the holders
running. A key state is named here by its place in `heap`.
-/

namespace AdapterWs.Lock

open JsString

/-- The options of `createLock`, each a positive integer. -/
structure LockOptions where
  /-- The largest number of active keys. -/
  maxKeys : ℕ
  /-- The largest length of a key. -/
  maxKeyLength : ℕ
  /-- The largest number of waiters of one key. -/
  maxWaitersPerKey : ℕ
  maxKeys_pos : 1 ≤ maxKeys
  maxKeyLength_pos : 1 ≤ maxKeyLength
  maxWaitersPerKey_pos : 1 ≤ maxWaitersPerKey

/-- What a call is rejected with. -/
inductive LockError
  | emptyKey
  | keyLength (length max : ℕ)
  | notFunction
  | waitRange
  | activeKeys (max : ℕ)
  | queueFull (key : JsString) (max : ℕ)
  | timedOut (key : JsString) (maxWaitMs : ℕ)
  | cleared
  deriving DecidableEq

/-- A number in decimal. -/
def digits (n : ℕ) : JsString := lit (toString n)

/-- The text of an error. -/
def LockError.message : LockError → JsString
  | .emptyKey => lit "lock: key must be a non-empty string"
  | .keyLength length max =>
    lit "lock: key length " ++ digits length ++ lit " exceeds maxKeyLength " ++ digits max
  | .notFunction => lit "lock: fn must be a function"
  | .waitRange => lit "lock: maxWaitMs must be a non-negative finite number"
  | .activeKeys max => lit "lock: active key count exceeded " ++ digits max
  | .queueFull key max => lit "lock: waiter queue for key '" ++ key ++ lit "' exceeded " ++ digits max
  | .timedOut key maxWaitMs =>
    lit "lock: timed out after " ++ digits maxWaitMs ++ lit "ms waiting for key '" ++ key ++ lit "'"
  | .cleared => lit "lock: cleared"

/-- The code of an error that has one. -/
def LockError.code : LockError → Option String
  | .queueFull _ _ => some "LOCK_QUEUE_FULL"
  | .timedOut _ _ => some "LOCK_TIMEOUT"
  | .cleared => some "LOCK_CLEARED"
  | _ => none

/-- The arguments of `withLock`. -/
structure WithLockCall where
  /-- The key, or `none` for a value that is no string. -/
  key : Option JsString
  /-- Whether `fn` is a function. -/
  callable : Bool
  /-- The wait, if one is passed, and `some none` for one that is no non-negative number. -/
  maxWaitMs : Option (Option ℕ)

/-- A caller in a queue. -/
structure Waiter where
  call : ℕ
  /-- The key it waits for. -/
  key : JsString
  /-- The clears before the call. -/
  since : ℕ
  /-- The wait its timer is armed for. -/
  timer : Option ℕ
  cancelled : Bool
  deriving DecidableEq

/-- Mark a waiter cancelled and clear its timer. -/
def Waiter.cancel (w : Waiter) : Waiter := { w with cancelled := true, timer := none }

/-- One active key. -/
structure KeyState where
  running : Bool
  queue : List Waiter
  deriving DecidableEq

/-- A function that is running. -/
structure Holder where
  /-- The call it was passed to. -/
  call : ℕ
  /-- The key it holds. -/
  key : JsString
  /-- The key state it acquired. -/
  state : ℕ
  /-- The clears before the call. -/
  since : ℕ
  deriving DecidableEq

/-- One lock and what runs under it. -/
structure LockRegistry where
  /-- The key states by key. -/
  states : JsMap JsString ℕ
  /-- Every key state made so far. -/
  heap : List KeyState
  /-- The functions that are running. -/
  holders : List Holder
  calls : ℕ
  clears : ℕ
  /-- The calls that were rejected, and why. -/
  rejected : List (ℕ × LockError)

namespace LockRegistry

/-- `createLock`. -/
def create : LockRegistry := ⟨JsMap.empty, [], [], 0, 0, []⟩

/-- `held(key)`. -/
def held (s : LockRegistry) (key : JsString) : Bool := (s.states.get key).isSome

/-- `size()`. -/
def size (s : LockRegistry) : ℕ := s.states.size

/-- Reject a call. -/
def reject (s : LockRegistry) (call : ℕ) (e : LockError) : LockRegistry :=
  { s with rejected := s.rejected ++ [(call, e)] }

/-- Run a function as the holder of a key state. -/
def runHead (s : LockRegistry) (call : ℕ) (key : JsString) (state since : ℕ) : LockRegistry :=
  { s with holders := s.holders ++ [⟨call, key, state, since⟩] }

/-- Promote the next waiter that is not cancelled, or release the key. -/
def advance (s : LockRegistry) (key : JsString) (state : ℕ) : LockRegistry :=
  match s.heap[state]? with
  | none => s
  | some ks =>
    match ks.queue.dropWhile Waiter.cancelled with
    | waiter :: queue =>
      { s with heap := s.heap.set state { ks with queue := queue } }.runHead
        waiter.call key state waiter.since
    -- the key is released by its name, whichever key state it names by now
    | [] => { s with heap := s.heap.set state ⟨false, []⟩, states := s.states.delete key }

/-- The checks of the arguments. -/
def checkCall (o : LockOptions) (c : WithLockCall) : Except LockError (JsString × Option ℕ) :=
  match c.key with
  | none => .error .emptyKey
  | some key =>
    if key.length = 0 then .error .emptyKey
    else if o.maxKeyLength < key.length then .error (.keyLength key.length o.maxKeyLength)
    else if c.callable = false then .error .notFunction
    else
      match c.maxWaitMs with
      | none => .ok (key, none)
      | some none => .error .waitRange
      | some (some ms) => .ok (key, some ms)

/-- Take the key state of a key that has one, or wait for it. -/
def acquire (o : LockOptions) (s : LockRegistry) (call : ℕ) (key : JsString)
    (maxWaitMs : Option ℕ) (state : ℕ) (ks : KeyState) : LockRegistry :=
  if ks.running = false then
    { s with heap := s.heap.set state { ks with running := true } }.runHead call key state s.clears
  else if o.maxWaitersPerKey ≤ ks.queue.length then
    s.reject call (.queueFull key o.maxWaitersPerKey)
  else
    { s with
      heap := s.heap.set state
        { ks with queue := ks.queue ++ [⟨call, key, s.clears, maxWaitMs, false⟩] } }

/-- `withLock(key, fn, opts)`. -/
def withLock (o : LockOptions) (s : LockRegistry) (c : WithLockCall) : LockRegistry :=
  let call := s.calls
  let s := { s with calls := s.calls + 1 }
  match checkCall o c with
  | .error e => s.reject call e
  | .ok (key, maxWaitMs) =>
    match s.states.get key with
    | some state =>
      match s.heap[state]? with
      | some ks => acquire o s call key maxWaitMs state ks
      | none => s
    | none =>
      if o.maxKeys ≤ s.states.size then s.reject call (.activeKeys o.maxKeys)
      else
        { s with
          states := s.states.set key s.heap.length
          heap := s.heap ++ [KeyState.mk true []] }.runHead call key s.heap.length s.clears

/-- A running function settles. -/
def settle (s : LockRegistry) (call : ℕ) : Option LockRegistry :=
  (s.holders.find? fun h => h.call = call).map fun h =>
    { s with holders := s.holders.erase h }.advance h.key h.state

/-- The waiter of a call, with its timer armed, and the wait. -/
def armed (s : LockRegistry) (call : ℕ) : Option (Waiter × ℕ) :=
  (s.heap.flatMap KeyState.queue).findSome? fun w =>
    if w.call = call then w.timer.map fun ms => (w, ms) else none

/-- Cancel the waiter of a call. -/
def cancelCall (call : ℕ) (ks : KeyState) : KeyState :=
  { ks with queue := ks.queue.map fun w => if w.call = call then Waiter.cancel w else w }

/-- The timer of a waiter fires. -/
def expire (s : LockRegistry) (call : ℕ) : Option LockRegistry :=
  (s.armed call).map fun p =>
    { s with heap := s.heap.map (cancelCall call) }.reject call (.timedOut p.1.key p.2)

/-- Cancel the waiters of a key state. -/
def cancelAll (ks : KeyState) : KeyState :=
  { ks with queue := ks.queue.map fun w => if w.cancelled then w else Waiter.cancel w }

/-- The waiters a clear rejects. -/
def waiting (s : LockRegistry) : List Waiter :=
  s.states.entries.flatMap fun e =>
    ((s.heap[e.2]?.map KeyState.queue).getD []).filter fun w => !w.cancelled

/-- `clear()`. -/
def clear (s : LockRegistry) : LockRegistry :=
  { s with
    states := JsMap.empty
    heap := s.heap.mapIdx fun i ks =>
      if ∃ e ∈ s.states.entries, e.2 = i then cancelAll ks else ks
    clears := s.clears + 1
    rejected := s.rejected ++ s.waiting.map fun w => (w.call, LockError.cleared) }

end LockRegistry

/-- What happens to a lock. -/
inductive LockEvent
  | withLock (c : WithLockCall)
  | settle (call : ℕ)
  | timeout (call : ℕ)
  | clear

/-- One lock. -/
def lockMachine (o : LockOptions) : Machine LockRegistry LockEvent where
  init := .create
  step s
    | .withLock c => some (s.withLock o c)
    | .settle call => s.settle call
    | .timeout call => s.expire call
    | .clear => some s.clear

end AdapterWs.Lock
