import AdapterWs.Lib.Machine
import AdapterWs.Lib.Ledger

/-!
# Upgrade admission

The WebSocket upgrade path of one worker: the admission controller with its three ceilings and
its pacing queue, the upgrade handler with every door, the accept with the permit it moves to
the connection, and the close that hands the permit back. The handler runs in segments between
its awaits; what the request, the hook, the socket and the `ws` library do is chosen by the
environment.
-/

namespace AdapterWs.UpgradeGate

/-- The resolved ceilings. Zero disables a ceiling, and a cursor ceiling of zero disables the
cursor lane. -/
structure AdmissionOptions where
  maxConcurrent : ℕ
  maxConnections : ℕ
  perTickBudget : ℕ
  maxDeferred : ℕ
  cursorMaxConcurrent : ℕ
  /-- Whether the app exports an upgrade hook. -/
  hasUpgradeHook : Bool
  deriving DecidableEq, Repr

/-- Whether any ceiling can reject. -/
def AdmissionOptions.armed (opts : AdmissionOptions) : Bool :=
  decide (opts.maxConcurrent > 0) || decide (opts.maxConnections > 0) ||
    decide (opts.perTickBudget > 0)

/-- The admission controller: its counters and the queue of paced accepts. -/
structure Admission where
  inFlight : ℤ := 0
  cursorInFlight : ℤ := 0
  connectionPermits : ℤ := 0
  perTickCount : ℕ := 0
  deferred : List ℕ := []
  deferredRejectedTotal : ℕ := 0
  drainScheduled : Bool := false
  /-- A connection permit was released without an acquisition, which throws in the source. -/
  faulted : Bool := false
  deriving DecidableEq, Repr

namespace Admission

variable (opts : AdmissionOptions) (a : Admission)

def tryAcquire : Option Admission :=
  if opts.maxConcurrent > 0 ∧ a.inFlight ≥ opts.maxConcurrent then none
  else some { a with inFlight := a.inFlight + 1 }

def release : Admission :=
  { a with inFlight := a.inFlight - 1 }

def tryAcquireConnection : Option Admission :=
  if opts.maxConnections = 0 then some a
  else if a.connectionPermits ≥ opts.maxConnections then none
  else some { a with connectionPermits := a.connectionPermits + 1 }

def releaseConnection : Admission :=
  if opts.maxConnections = 0 then a
  else if a.connectionPermits ≤ 0 then { a with faulted := true }
  else { a with connectionPermits := a.connectionPermits - 1 }

def tryAcquireCursor : Option Admission :=
  if opts.maxConcurrent > 0 ∧ a.inFlight ≥ opts.maxConcurrent then none
  else if a.cursorInFlight ≥ opts.cursorMaxConcurrent then none
  else some { a with inFlight := a.inFlight + 1, cursorInFlight := a.cursorInFlight + 1 }

def releaseCursorInFlight : Admission :=
  { a with inFlight := a.inFlight - 1, cursorInFlight := a.cursorInFlight - 1 }

end Admission

/-- The accepted socket of an upgrade and its userData, as far as permits go. -/
structure Connection where
  /-- The permit rides the carrier symbol on userData. -/
  carrier : Bool
  /-- The permit sits in the connection's own slot. -/
  permit : Bool
  /-- The adapter's close listener is registered. -/
  closeListener : Bool
  /-- Setup failed after the accept, so the close is setup cleanup. -/
  failedOpen : Bool
  closed : Bool
  deriving DecidableEq, Repr

/-- A connection as the accept hands it to the setup, its permit in the carrier. -/
def Connection.accepted (carrier : Bool) : Connection where
  carrier := carrier
  permit := false
  closeListener := false
  failedOpen := false
  closed := false

/-- Where a call of the handler stands. -/
inductive Phase
  /-- Inside its first segment. -/
  | running
  /-- Parked at the upgrade hook. -/
  | hookPending
  /-- Its accept waits in the pacing queue. -/
  | deferred
  | finished
  deriving DecidableEq, Repr

/-- One call of the upgrade handler: the flags of its closure, its socket, and the connection
its accept opened. -/
structure Upgrade where
  isCursor : Bool
  acquired : Bool
  inFlightReleased : Bool
  connectionPermitHeld : Bool
  connectionPermitTransferred : Bool
  /-- The abandoned-handshake listener is on the socket. -/
  closeListener : Bool
  destroyed : Bool
  closeEmitted : Bool
  phase : Phase
  connection : Option Connection
  deriving DecidableEq, Repr

/-- An upgrade with the controller it charges. -/
abbrev Charged : Type := Admission × Upgrade

section Release

variable (opts : AdmissionOptions)

/-- Hand back the closure's permit unless it was never taken or has moved on. -/
def releaseConnectionPermit (p : Charged) : Charged :=
  if !p.2.connectionPermitHeld || p.2.connectionPermitTransferred then p
  else (p.1.releaseConnection opts, { p.2 with connectionPermitHeld := false })

/-- Hand back the handshake slot once, then the permit, and drop the listener. -/
def releaseInFlight (p : Charged) : Charged :=
  let q :=
    if p.2.inFlightReleased then p
    else
      (if p.2.isCursor then p.1.releaseCursorInFlight else p.1.release,
        { p.2 with inFlightReleased := true })
  let r := releaseConnectionPermit opts q
  (r.1, { r.2 with closeListener := r.2.closeListener && !opts.armed })

/-- The handler returns. -/
def finish (p : Charged) : Charged :=
  (p.1, { p.2 with phase := .finished })

/-- Hand back the permit a connection holds, once. -/
def releaseConnectionPermitFor (a : Admission) (c : Connection) : Admission × Connection :=
  if c.permit then (a.releaseConnection opts, { c with permit := false }) else (a, c)

end Release

/-- What becomes of a connection between the accept and the end of its setup. -/
inductive Setup
  | opened
  /-- The attribution hook refuses the connection. -/
  | attributionRefused
  /-- Setup throws, before or after the close listener is registered. -/
  | failed (closeListener : Bool)
  deriving DecidableEq, Repr

/-- What an accept runs into. -/
inductive AcceptOutcome
  /-- Copying the hook's userData throws. -/
  | copyThrows
  /-- `ws` throws before its callback. -/
  | wsThrows
  /-- `ws` answers the peer itself and calls nothing. -/
  | wsAnswers
  /-- The callback throws ahead of the connection setup. -/
  | callbackThrows
  | accepted (setup : Setup)
  deriving DecidableEq, Repr

section Accept

variable (opts : AdmissionOptions)

/-- Connection setup: promote the carrier to the slot, then run the rest of the setup. -/
def openConnection (setup : Setup) (a : Admission) (c : Connection) : Admission × Connection :=
  if opts.maxConnections > 0 && !c.carrier then
    -- A carrier that cannot be found is fatal, and the setup stops here.
    (a, c)
  else
    let c := if opts.maxConnections > 0 then { c with carrier := false, permit := true } else c
    match setup with
    | .opened => (a, { c with closeListener := true })
    | .attributionRefused => releaseConnectionPermitFor opts a c
    | .failed closeListener =>
      releaseConnectionPermitFor opts a
        { c with closeListener := closeListener, failedOpen := true }

/-- The accept itself, and whether it throws to its caller. -/
def acceptUpgrade (out : AcceptOutcome) (p : Charged) : Charged × Bool :=
  if p.2.destroyed then (finish (releaseInFlight opts p), false)
  else
    match out with
    | .copyThrows => (finish (releaseInFlight opts p), true)
    | .wsThrows => (finish (releaseInFlight opts (releaseConnectionPermit opts p)), true)
    | .wsAnswers => (finish (releaseInFlight opts p), false)
    | .callbackThrows =>
      -- The transfer is stamped by the callback and taken back by the catch.
      (finish (releaseInFlight opts (releaseConnectionPermit opts p)), true)
    | .accepted setup =>
      let opened := openConnection opts setup p.1 (.accepted p.2.connectionPermitHeld)
      (finish (releaseInFlight opts
        (opened.1, { p.2 with
          connectionPermitTransferred := p.2.connectionPermitHeld
          connection := some opened.2 })), false)

/-- An accept that throws to the handler rejects it, and the caller destroys the socket. -/
def acceptNow (out : AcceptOutcome) (p : Charged) : Charged :=
  let run := acceptUpgrade opts out p
  (run.1.1, { run.1.2 with destroyed := run.1.2.destroyed || run.2 })

/-- The end of the handler: leave an abandoned socket, else run the accept under the per-tick
budget. -/
def admitAccept (id : ℕ) (out : AcceptOutcome) (p : Charged) : Charged :=
  if p.2.destroyed then finish (releaseInFlight opts p)
  else if opts.perTickBudget = 0 then acceptNow opts out p
  else if p.1.perTickCount < opts.perTickBudget then
    acceptNow opts out
      ({ p.1 with perTickCount := p.1.perTickCount + 1, drainScheduled := true }, p.2)
  else if p.1.deferred.length ≥ opts.maxDeferred then
    finish (releaseInFlight opts
      ({ p.1 with deferredRejectedTotal := p.1.deferredRejectedTotal + 1 }, p.2))
  else
    ({ p.1 with deferred := p.1.deferred ++ [id], drainScheduled := true },
      { p.2 with phase := .deferred })

end Accept

/-- The door an upgrade fails at. -/
inductive Door
  /-- A refusal ahead of the gate: host, path, framing, handshake or siege. -/
  | beforeGate
  | ambiguousHeader
  | rateLimit
  | origin
  /-- Every door is passed. -/
  | passes
  deriving DecidableEq, Repr

/-- A request as the handler meets it. -/
structure Request where
  door : Door
  /-- The client offered the cursor lane's subprotocol. -/
  cursorLane : Bool
  destroyed : Bool
  closeEmitted : Bool
  deriving DecidableEq, Repr

section Handle

variable (opts : AdmissionOptions)

/-- A handler that has charged nothing yet. -/
def Upgrade.fresh (request : Request) : Upgrade where
  isCursor := decide (opts.cursorMaxConcurrent > 0) && request.cursorLane
  acquired := false
  inFlightReleased := false
  connectionPermitHeld := false
  connectionPermitTransferred := false
  closeListener := false
  destroyed := request.destroyed
  closeEmitted := request.closeEmitted
  phase := .finished
  connection := none

/-- The handler from the request to the hook, or to its end where there is no hook. -/
def handleUpgrade (id : ℕ) (request : Request) (out : AcceptOutcome) (a : Admission) : Charged :=
  let fresh := Upgrade.fresh opts request
  if request.door = .beforeGate then (a, fresh)
  else
    match if fresh.isCursor then a.tryAcquireCursor opts else a.tryAcquire opts with
    | none => (a, fresh)
    | some a =>
      let u := { fresh with acquired := true, phase := .running }
      match a.tryAcquireConnection opts with
      | none => finish (releaseInFlight opts (a, u))
      | some a =>
        let u := { u with
          connectionPermitHeld := decide (opts.maxConnections > 0)
          closeListener := opts.armed }
        if request.door ≠ .passes then finish (releaseInFlight opts (a, u))
        else if opts.hasUpgradeHook then (a, { u with phase := .hookPending })
        else admitAccept opts id out (a, u)

/-- How the upgrade hook settles. -/
inductive HookOutcome
  | timedOut
  | rejected
  | threw
  | resolved
  deriving DecidableEq, Repr

/-- The handler after its await of the hook. -/
def settleHook (id : ℕ) (hook : HookOutcome) (out : AcceptOutcome) (p : Charged) : Charged :=
  if hook = .resolved then admitAccept opts id out p else finish (releaseInFlight opts p)

/-- The close listener of an accepted socket. -/
def closeConnection (a : Admission) (c : Connection) : Admission × Connection :=
  let c := { c with closed := true }
  if !c.closeListener then (a, c)
  else if c.failedOpen then (a, { c with failedOpen := false })
  else releaseConnectionPermitFor opts a c

end Handle

/-- The worker: the controller and every upgrade so far. -/
structure State where
  admission : Admission
  upgrades : List Upgrade
  deriving DecidableEq, Repr

namespace State

/-- Run a step of one upgrade against the controller. -/
def onUpgrade (q : State) (i : ℕ) (f : Charged → Charged) : State :=
  match q.upgrades[i]? with
  | none => q
  | some u =>
    let r := f (q.admission, u)
    { admission := r.1, upgrades := q.upgrades.set i r.2 }

/-- The pacing queue's turn: run queued accepts until the budget or the queue is spent. -/
def drainLoop (opts : AdmissionOptions) (outs : ℕ → AcceptOutcome) : ℕ → State → State
  | 0, q => q
  | n + 1, q =>
    match q.admission.deferred with
    | [] => q
    | id :: rest =>
      let dequeued := { q with
        admission := { q.admission with
          deferred := rest
          perTickCount := q.admission.perTickCount + 1 } }
      drainLoop opts outs n
        (dequeued.onUpgrade id fun p => (acceptUpgrade opts (outs id) p).1)

/-- One turn of the drain timer. -/
def drain (opts : AdmissionOptions) (outs : ℕ → AcceptOutcome) (q : State) : State :=
  let started := { q with
    admission := { q.admission with drainScheduled := false, perTickCount := 0 } }
  let r := drainLoop opts outs opts.perTickBudget started
  let again := decide (r.admission.deferred ≠ []) || decide (r.admission.perTickCount > 0)
  { r with admission := { r.admission with drainScheduled := r.admission.drainScheduled || again } }

end State

/-- What can happen next on the worker. -/
inductive Event
  /-- An upgrade request arrives. `out` is what its accept meets if it runs at once. -/
  | upgrade (request : Request) (out : AcceptOutcome)
  /-- The hook of a parked upgrade settles. -/
  | hookSettles (i : ℕ) (hook : HookOutcome) (out : AcceptOutcome)
  /-- The socket of an upgrade is destroyed. -/
  | destroy (i : ℕ)
  /-- The socket of an upgrade emits `close`. -/
  | socketClose (i : ℕ)
  /-- The drain timer fires. -/
  | drain (outs : ℕ → AcceptOutcome)
  /-- The connection of an upgrade emits `close`. -/
  | close (i : ℕ)

/-- The socket emits `close`, and the abandoned-handshake listener runs if it is installed. -/
def Upgrade.onSocketClose (opts : AdmissionOptions) (p : Charged) : Charged :=
  let emitted := (p.1, { p.2 with closeEmitted := true })
  if p.2.closeListener then releaseInFlight opts emitted else emitted

/-- The connection emits `close`. -/
def Upgrade.onClose (opts : AdmissionOptions) (p : Charged) : Charged :=
  match p.2.connection with
  | none => p
  | some c =>
    let r := closeConnection opts p.1 c
    (r.1, { p.2 with connection := some r.2 })

/-- One event of the worker, where it is possible. -/
def State.step (opts : AdmissionOptions) (q : State) : Event → Option State
  | .upgrade request out =>
    if request.closeEmitted && !request.destroyed then none
    else
      let r := handleUpgrade opts q.upgrades.length request out q.admission
      some { admission := r.1, upgrades := q.upgrades ++ [r.2] }
  | .hookSettles i hook out =>
    if (q.upgrades[i]?).any fun u => decide (u.phase = .hookPending) then
      some (q.onUpgrade i (settleHook opts i hook out))
    else none
  | .destroy i => some (q.onUpgrade i fun p => (p.1, { p.2 with destroyed := true }))
  | .socketClose i =>
    if (q.upgrades[i]?).any fun u => u.destroyed && !u.closeEmitted then
      some (q.onUpgrade i (Upgrade.onSocketClose opts))
    else none
  | .drain outs =>
    if q.admission.drainScheduled then some (q.drain opts outs) else none
  | .close i =>
    if (q.upgrades[i]?).any fun u => u.connection.any fun c => !c.closed then
      some (q.onUpgrade i (Upgrade.onClose opts))
    else none

/-- A worker that starts with every counter at zero. -/
def upgrades (opts : AdmissionOptions) : Machine State Event where
  init := { admission := {}, upgrades := [] }
  step := State.step opts

end AdapterWs.UpgradeGate
