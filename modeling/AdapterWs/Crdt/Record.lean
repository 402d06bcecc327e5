import AdapterWs.Crdt.Options

/-!
# CRDT authority: one topic record

The record of one topic holds the replica, its reference count, the persistence schedule and the
host calls made for it. Every store is chained behind the one before it, so the store calls of a
record are the list `stores`, oldest first: `rec.newest` and `rec.storing` are its last call and
that call's chain, and `rec.inflight` holds the calls that are neither settled nor abandoned.

A promise is the column that says how far it got. The reactions of a promise run later, each as
a step of its own, so a host call is dispatched, answered by the host, and then settled here.

The columns `accepted`, `captured` and `confirmed` belong to an observer and are read by no
operation.
-/

namespace AdapterWs.Crdt

/-! ## Host calls -/

/-- One explicit flush among the waiters of a store, with its own deadline; `none` is `null`. -/
structure FlushToken where
  /-- The identity of the token. -/
  id : ℕ
  /-- The moment the flush stops waiting. -/
  deadline : Option ℚ
  deriving DecidableEq

/-- What a flush learns about a topic. A store answers with one of the first three. -/
inductive Outcome
  /-- The host wrote the bytes. -/
  | durable
  /-- The host declined to write them. -/
  | declined
  /-- The write failed or was given up. -/
  | failed
  /-- The flush's deadline expired first. -/
  | timedout
  deriving DecidableEq

/-- How the promise of a `persist.store` call settled. -/
inductive StoreAnswer
  /-- It resolved, with `false` or with anything else. -/
  | resolved (refused : Bool)
  | rejected (err : String)
  deriving DecidableEq

/-- How far a store got. -/
inductive StorePhase
  /-- Waiting behind the chain of the store before it. -/
  | queued
  /-- `persist.store` was called and has not settled. -/
  | dispatched
  /-- The call settled, and the reaction has not run. -/
  | answered (a : StoreAnswer)
  /-- The reaction ran. -/
  | settled (outcome : Outcome)
  deriving DecidableEq

/-- The handle of one store, and the promises made for it. -/
structure StoreCall where
  /-- The state captured when the store was armed. -/
  blob : List UInt8
  /-- The attempt number the host is handed. -/
  attempt : ℕ
  /-- The flushes awaiting this store. -/
  waiters : List FlushToken
  /-- The reason its signal was fired with, once the store was abandoned. -/
  aborted : Option String
  /-- Whether it was abandoned by a teardown. -/
  silent : Bool
  /-- How far it got. -/
  phase : StorePhase
  /-- The deadline the host was handed, once it was called. -/
  handed : Option (Option ℚ)
  /-- What the store's chain promise resolved to. -/
  chain : Option Outcome
  /-- How many updates the replica had accepted at the capture. -/
  captured : ℕ
  /-- Whether the host answered other than `false` before the store was abandoned. -/
  confirmed : Bool
  deriving DecidableEq

namespace StoreCall

/-- `handle.abandoned`. -/
def abandoned (c : StoreCall) : Bool := c.aborted.isSome

/-- Whether the store is in `rec.inflight`. -/
def inFlight (c : StoreCall) : Bool :=
  !c.abandoned && match c.phase with
    | .settled _ => false
    | _ => true

/-- The handle's part of `abandon`: the signal fires and the chain is released. -/
def abandon (c : StoreCall) (reason : String) (silent : Bool) : StoreCall :=
  { c with aborted := some reason, silent, chain := some (c.chain.getD .failed) }

/-- `handle.waiters.add(flush)`. -/
def join (c : StoreCall) (flush : FlushToken) : StoreCall :=
  { c with waiters := c.waiters.insert flush }

/-- `handle.waiters.delete(token)`. -/
def leave (c : StoreCall) (token : FlushToken) : StoreCall :=
  { c with waiters := c.waiters.filter (· ≠ token) }

/-- Whether a flush is the last one waiting on a store in flight. -/
def lastWaiter (c : StoreCall) (token : FlushToken) : Bool :=
  c.inFlight && token ∈ c.waiters && (c.leave token).waiters.isEmpty

end StoreCall

/-- The moment the last flush still waiting on a call stops waiting: the latest of its waiters'
deadlines, and `none` when nothing bounds it. -/
def waiterDeadline : List FlushToken → Option ℚ → Option ℚ
  | [], latest => latest
  | flush :: waiters, latest =>
    match flush.deadline with
    | none => none
    | some deadline =>
      match latest with
      | none => waiterDeadline waiters (some deadline)
      | some l => waiterDeadline waiters (if l < deadline then some deadline else some l)

/-- How the promise of `persist.load` settled: with stored bytes, with nothing, or rejected. -/
inductive LoadAnswer
  /-- It resolved; `none` is `null` or `undefined`. -/
  | resolved (stored : Option JsBytes)
  | rejected (err : String)
  deriving DecidableEq

/-- How far the load got. -/
inductive LoadPhase
  /-- `ensure` returned and the first reaction has not run. -/
  | queued
  /-- `persist.load` was called and has not settled. -/
  | dispatched
  /-- The call settled, or there is no hook to call, and the reaction has not run. -/
  | answered (a : LoadAnswer)
  /-- The record is loaded. -/
  | loaded
  /-- The load failed, and every coalesced waiter rejects with this error. -/
  | failed (err : String)
  deriving DecidableEq

/-- The handle of the one load of a record. -/
structure LoadCall where
  /-- The reason its signal was fired with. -/
  aborted : Option String
  /-- Whether it was cancelled by a teardown. -/
  silent : Bool
  /-- How far it got. -/
  phase : LoadPhase
  deriving DecidableEq

/-- Whether the load is in `rec.inflight`. -/
def LoadCall.inFlight (c : LoadCall) : Bool :=
  c.aborted.isNone && match c.phase with
    | .loaded => false
    | .failed _ => false
    | _ => true

/-! ## The record -/

/-- The record of one topic. -/
structure TopicRecord (Y : Yjs) (Topic : Type) where
  /-- The topic the record's closures were made for. -/
  topic : Topic
  /-- The replica. -/
  doc : Y.Doc
  /-- The live references. -/
  refs : ℕ
  /-- The load of the durable state. -/
  load : LoadCall
  /-- Whether the load succeeded. -/
  loaded : Bool
  /-- Whether the replica holds bytes that no store captured. -/
  dirty : Bool
  /-- Updates merged since the last store was armed. -/
  updatesSinceStore : ℕ
  /-- The wait of the armed schedule or retry timer. -/
  debounceTimer : Option ℚ
  /-- When the current run of edits began. -/
  maxWaitStart : Option ℚ
  /-- Every store armed on the record, oldest first. -/
  stores : List StoreCall
  /-- The attempts made at the current unstored state. -/
  storeAttempt : ℕ
  /-- Whether the last reference went away. -/
  unloading : Bool
  /-- The updates the replica accepted, oldest first. -/
  accepted : List (List UInt8)

namespace TopicRecord

variable {Y : Yjs} {Topic : Type}

/-- The record a cold `ensure` creates. -/
def fresh (Y : Yjs) (cfg : Config) (topic : Topic) (clientID : UInt32) : TopicRecord Y Topic where
  topic := topic
  doc := Y.newDoc cfg.gc clientID
  refs := 0
  load := { aborted := none, silent := false, phase := .queued }
  loaded := false
  dirty := false
  updatesSinceStore := 0
  debounceTimer := none
  maxWaitStart := none
  stores := []
  storeAttempt := 0
  unloading := false
  accepted := []

/-- Cancel the schedule or retry timer. -/
def clearSchedule (r : TopicRecord Y Topic) : TopicRecord Y Topic :=
  { r with debounceTimer := none, maxWaitStart := none }

/-- Arm the recovery timer of a record holding unstored bytes. -/
def armRetry (cfg : Config) (r : TopicRecord Y Topic) : TopicRecord Y Topic :=
  if r.debounceTimer = none then { r with debounceTimer := some (max 1000 cfg.debounceMaxWait) }
  else r

/-- A write that did not confirm: the captured state goes back to dirty and onto the retry
schedule, and the write counts as an attempt at it. -/
def requeue (cfg : Config) (attempt : ℕ) (r : TopicRecord Y Topic) : TopicRecord Y Topic :=
  { r with storeAttempt := attempt, dirty := true }.armRetry cfg

/-- Cancel every host call in flight because the record is going away. -/
def abortInFlight (reason : String) (r : TopicRecord Y Topic) : TopicRecord Y Topic :=
  { r with
    load := if r.load.inFlight then { r.load with aborted := some reason, silent := true }
      else r.load
    stores := r.stores.map fun c => if c.inFlight then c.abandon reason true else c }

/-- The record's part of `unload`. -/
def unload (reason : String) (r : TopicRecord Y Topic) : TopicRecord Y Topic :=
  r.clearSchedule.abortInFlight reason

/-- The handle of a store armed now: the full state, captured at a consistent point. -/
def capture (flush : Option FlushToken) (r : TopicRecord Y Topic) : StoreCall where
  blob := Y.encodeStateAsUpdate r.doc
  attempt := r.storeAttempt + 1
  waiters := flush.toList
  aborted := none
  silent := false
  phase := .queued
  handed := none
  chain := none
  captured := r.accepted.length
  confirmed := false

/-- Capture the full state now and chain the host's `store` behind any store in flight. -/
def storeNow (cfg : Config) (flush : Option FlushToken) (r : TopicRecord Y Topic) :
    TopicRecord Y Topic :=
  let r := { r.clearSchedule with dirty := false, updatesSinceStore := 0 }
  if cfg.hasStore then { r with stores := r.stores ++ [r.capture flush] } else r

/-- Trailing debounce with a sustained-edit force. -/
def scheduleStore (cfg : Config) (mono : ℚ) (r : TopicRecord Y Topic) : TopicRecord Y Topic :=
  if cfg.hasStore then
    let start := r.maxWaitStart.getD mono
    { r with
      maxWaitStart := some start
      debounceTimer := some (max 0 (min cfg.debounceWait (start + cfg.debounceMaxWait - mono))) }
  else r

/-- The callback of the schedule timer and of the retry timer. -/
def fire (cfg : Config) (live : Bool) (r : TopicRecord Y Topic) : TopicRecord Y Topic :=
  let r := { r with debounceTimer := none }
  if live && r.dirty then r.storeNow cfg none else r

/-- Merge one update into the replica, if Yjs takes it. -/
def edit (cfg : Config) (u8 : List UInt8) (mono : ℚ) (r : TopicRecord Y Topic) :
    TopicRecord Y Topic :=
  let applied := Y.applyUpdate r.doc u8
  if applied.2 then
    let r := { r with
      doc := applied.1
      dirty := true
      updatesSinceStore := r.updatesSinceStore + 1
      accepted := r.accepted ++ [u8] }
    if cfg.snapshotEvery ≤ r.updatesSinceStore then r.storeNow cfg none
    else r.scheduleStore cfg mono
  else { r with doc := applied.1 }

/-- The synchronous part of `release` on a loaded record: whether the deferred check of the
unload is registered, and the record. -/
def dropRef (cfg : Config) (r : TopicRecord Y Topic) : Bool × TopicRecord Y Topic :=
  let r := { r with refs := r.refs - 1 }
  if 0 < r.refs then (false, r)
  else
    let r := { r with unloading := true }
    if cfg.persistOnEmpty && r.dirty && cfg.hasStore then (false, r.storeNow cfg none)
    else (true, r)

/-- Whether the deferred check of `release` unloads the record. -/
def releasable (cfg : Config) (r : TopicRecord Y Topic) : Bool :=
  r.refs = 0 && r.unloading && (!r.dirty || !cfg.hasStore || !cfg.persistOnEmpty)

/-- One topic's contribution to a flush: the flush joins every store in flight, and stores what
is dirty. -/
def flushOne (cfg : Config) (flush : FlushToken) (r : TopicRecord Y Topic) :
    TopicRecord Y Topic :=
  let r := { r with stores := r.stores.map fun c => if c.inFlight then c.join flush else c }
  if r.loaded && r.dirty && cfg.hasStore then r.storeNow cfg (some flush) else r

/-- A finished flush stops counting as a waiter. -/
def forgetFlush (token : FlushToken) (r : TopicRecord Y Topic) : TopicRecord Y Topic :=
  { r with stores := r.stores.map fun c => if c.inFlight then c.leave token else c }

/-- The flush's deadline on one record: every store it was the last one waiting on is abandoned,
oldest first, so that the newest of them names the attempt. -/
def expire (cfg : Config) (live : Bool) (token : FlushToken) (reason : String)
    (r : TopicRecord Y Topic) : TopicRecord Y Topic :=
  let given := r.stores.filter fun c => c.lastWaiter token
  let r := { r with
    stores := r.stores.map fun c =>
      if c.lastWaiter token then (c.leave token).abandon reason false
      else if c.inFlight then c.leave token
      else c }
  match given.getLast? with
  | none => r
  | some newest => if live then r.requeue cfg newest.attempt else r

/-! ## The load -/

/-- The first reaction of the load: the host is asked, if it has a hook. -/
def dispatchLoad (cfg : Config) (r : TopicRecord Y Topic) : TopicRecord Y Topic :=
  { r with load := { r.load with
    phase := if cfg.hasLoad then .dispatched else .answered (.resolved none) } }

/-- The text of the error a load that returns no bytes fails with. -/
def notBytesError : String :=
  "crdt: persist.load must return bytes (Uint8Array or number[]) or null"

/-- The text of the error that destroys the waiters of a topic that went away. -/
def destroyedError : String := "crdt: authority destroyed"

/-- The text of the abort reason of an unloaded topic. -/
def unloadedError : String := "crdt: topic unloaded"

/-- What the reaction to the load's answer does: a loaded record, or the error it throws.
`current` says whether the topic map still holds this record. -/
def hydrate (current : Bool) (malformed : String) (a : LoadAnswer) (r : TopicRecord Y Topic) :
    Except String (TopicRecord Y Topic) :=
  match a with
  | .rejected err => .error err
  | .resolved stored =>
    if current then
      match stored with
      | none => .ok { r with loaded := true, load := { r.load with phase := .loaded } }
      | some stored =>
        match toBytes stored with
        | none => .error notBytesError
        | some bytes =>
          let applied := Y.applyUpdate r.doc bytes
          if applied.2 then
            .ok { r with
              doc := applied.1, loaded := true, load := { r.load with phase := .loaded } }
          else .error malformed
    else .error destroyedError

/-! ## The stores -/

/-- Whether the chain a store waits behind has resolved. -/
def chainReady (r : TopicRecord Y Topic) (k : ℕ) : Bool :=
  match k with
  | 0 => true
  | k + 1 => (r.stores[k]?).any fun c => c.chain.isSome

/-- The store's turn: the host is called, unless the store was abandoned before it was issued. -/
def dispatchStore (k : ℕ) (r : TopicRecord Y Topic) : TopicRecord Y Topic :=
  { r with stores := r.stores.modify k fun c =>
    if c.abandoned then { c with phase := .answered (.resolved false) }
    else { c with phase := .dispatched, handed := some (waiterDeadline c.waiters none) } }

/-- The host's promise settles. -/
def answerStore (k : ℕ) (a : StoreAnswer) (r : TopicRecord Y Topic) : TopicRecord Y Topic :=
  { r with stores := r.stores.modify k fun c =>
    { c with
      phase := .answered a
      confirmed := c.confirmed || !c.abandoned && a = .resolved false } }

/-- What the settlement of a store asks of the authority. -/
inductive Verdict
  /-- Nothing. -/
  | keep
  /-- The deferred unload. -/
  | unload
  deriving DecidableEq

/-- The outcome the reaction reports for an answer. -/
def outcomeOf (abandoned : Bool) : StoreAnswer → Outcome
  | .resolved refused => if abandoned then .failed else if refused then .declined else .durable
  | .rejected _ => .failed

/-- The reaction to the answer of store `k`. Only the newest store of a live record owns the
lifecycle. -/
def settleStore (cfg : Config) (live : Bool) (k : ℕ) (c : StoreCall) (a : StoreAnswer)
    (r : TopicRecord Y Topic) : Verdict × TopicRecord Y Topic :=
  let outcome := outcomeOf c.abandoned a
  let r := { r with stores := r.stores.modify k fun c => { c with phase := .settled outcome } }
  if c.abandoned || !live || k + 1 ≠ r.stores.length then (.keep, r)
  else
    match a with
    | .rejected _ => (.keep, r.requeue cfg c.attempt)
    | .resolved true =>
      if r.unloading && r.refs = 0 then
        (.unload, { r with storeAttempt := c.attempt, dirty := true })
      else (.keep, r.requeue cfg c.attempt)
    | .resolved false =>
      let r := { r with storeAttempt := 0 }
      if r.unloading && r.refs = 0 then
        if r.dirty then (.keep, r.storeNow cfg none) else (.unload, r)
      else (.keep, r)

/-- The chain of store `k` takes the store's outcome, unless it was released before. -/
def settleChain (k : ℕ) (outcome : Outcome) (r : TopicRecord Y Topic) : TopicRecord Y Topic :=
  { r with stores := r.stores.modify k fun c => { c with chain := some (c.chain.getD outcome) } }

end TopicRecord
end AdapterWs.Crdt
