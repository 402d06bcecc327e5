import AdapterWs.Lib.Machine
import AdapterWs.Cluster.RestartBudget

/-!
# Supervision of a cluster of workers

The primary of a cluster and its workers as one machine over a clock. The primary sweeps
every heartbeat interval, stamps what arrives from its workers and respawns the slots whose
worker exited. A worker posts the messages of its startup in order, answers heartbeats and may
send anything else at any time. The environment decides how much time passes and what arrives
when, so a run is a schedule.

`Worker.onTime` watches the schedule of one worker: it turns false when the clock passes a
heartbeat interval without the answer to a heartbeat, or without the rest of the startup of a
worker that reported ready. A boot may take any time.
-/

namespace AdapterWs.Cluster

def HEARTBEAT_INTERVAL_MS : ℕ := 10000
def HEARTBEAT_TIMEOUT_MS : ℕ := 30000
def WORKER_BOOT_TIMEOUT_FLOOR_MS : ℕ := 2 * HEARTBEAT_INTERVAL_MS

/-- The configurations the primary starts under: at least one io worker, any ring size and
any boot deadline. The mode is always reuseport. -/
structure ClusterConfig where
  ioCount : ℕ
  computeCount : ℕ
  ioCount_pos : 0 < ioCount
  relayRingKb : ℕ
  bootTimeoutRaw : ℕ

namespace ClusterConfig

variable (cfg : ClusterConfig)

/-- The slots of the cluster: the io slots, then the compute slots. -/
abbrev SlotId : Type := Fin (cfg.ioCount + cfg.computeCount)

def role (i : cfg.SlotId) : Role :=
  if i.val < cfg.ioCount then .io else .compute

/-- Whether a spawned worker is handed relay rings. -/
def relayRing : Bool := decide (cfg.relayRingKb > 0)

/-- The timeouts of the heartbeat sweep. -/
def watchdog : WatchdogOptions where
  steadyTimeoutMs := HEARTBEAT_TIMEOUT_MS
  bootTimeoutMs :=
    (resolveBootTimeout cfg.bootTimeoutRaw WORKER_BOOT_TIMEOUT_FLOOR_MS).bootTimeoutMs

end ClusterConfig

/-- The restart options of the primary, which are the supervisor's own defaults. -/
def restartOptions : SupervisorOptions := {}

/-- What a worker posts once its boot is over: ready, and the attach notice of a worker that
was handed rings. -/
def startupPosts (role : Role) (relayRing : Bool) : List WorkerMessage :=
  .ready role :: if relayRing then [.relayAttached] else []

/-- A live worker: its record in the primary and the messages between the two. -/
structure Worker where
  health : HealthMeta
  /-- The posts of its startup that have not arrived yet. -/
  startup : List WorkerMessage
  booted : Bool
  /-- When the heartbeats it has not answered yet were sent, oldest first. -/
  unanswered : List Instant
  exitRequested : Bool
  /-- When the last post of its startup arrived. -/
  servingSince : Option Instant
  /-- Whether every answer and startup post so far arrived within an interval. -/
  onTime : Bool
  deriving DecidableEq, Repr

/-- One slot: the restart budget and the worker that occupies it. -/
structure Slot where
  budget : SlotState
  worker : Option Worker
  deriving DecidableEq, Repr

namespace Worker

/-- The worker is inside its deadlines at an instant. -/
def PromptAt (w : Worker) (t : Instant) : Prop :=
  (∀ sent ∈ w.unanswered, t ≤ sent + HEARTBEAT_INTERVAL_MS) ∧
    (w.health.ready = true → w.startup ≠ [] →
      t ≤ w.health.readyAt.getD 0 + HEARTBEAT_INTERVAL_MS)

instance (w : Worker) (t : Instant) : Decidable (w.PromptAt t) :=
  inferInstanceAs (Decidable (_ ∧ _))

/-- The clock reaches `t`. -/
def advance (w : Worker) (t : Instant) : Worker :=
  { w with onTime := w.onTime && decide (w.PromptAt t) }

/-- The sweep keeps the worker and sends it a heartbeat. -/
def keep (w : Worker) (now : Instant) : Worker :=
  { w with unanswered := w.unanswered ++ [now] }

/-- The sweep asks the worker to exit. -/
def requestExit (w : Worker) : Worker :=
  { w with exitRequested := true }

end Worker

namespace Slot

/-- A worker spawns into the slot with a fresh record. -/
def spawnWorker (cfg : ClusterConfig) (role : Role) (now : Instant) (s : Slot) : Slot where
  budget := s.budget.noteSpawn
  worker := some {
    health := {
      ready := false
      lastHeartbeat := 0
      spawnedAt := now
      readyAt := some 0
      relayAttached := some false }
    startup := startupPosts role cfg.relayRing
    booted := false
    unanswered := []
    exitRequested := false
    servingSince := none
    onTime := true }

/-- The primary's handler for one message of the slot's worker. -/
def onMessage (s : Slot) (w : Worker) (msg : WorkerMessage) (now : Instant) : Slot :=
  let stamped := recordWorkerMessage w.health msg now .reuseport
  { budget :=
      if msg = .relayAttached ∧ stamped.2 = .attached then s.budget.noteReady now else s.budget
    worker := some { w with health := stamped.1 } }

/-- The primary's handler for the exit of the slot's worker. -/
def onExit (s : Slot) (now : Instant) : Slot × ExitOutcome :=
  let charged := s.budget.noteExit now false restartOptions
  ({ budget := charged.1, worker := none }, charged.2)

end Slot

/-- What can happen to one slot. -/
inductive SlotEvent
  /-- The next post of the worker's startup arrives. -/
  | startup
  /-- The answer to the oldest outstanding heartbeat arrives. -/
  | ack
  /-- Any other message of the worker arrives. -/
  | traffic
  /-- A relay frame of the worker arrives over its up ring. -/
  | ringFrame
  /-- The worker exits. -/
  | exit
  /-- The respawn timer of the slot fires. -/
  | respawn
  deriving DecidableEq, Repr

/-- One event of a slot, with what an exit told the primary. -/
def Slot.step (cfg : ClusterConfig) (role : Role) (now : Instant) (s : Slot) :
    SlotEvent → Option (Slot × ExitOutcome)
  | .startup =>
    s.worker.bind fun w =>
      match w.startup with
      | [] => none
      | msg :: rest =>
        let served := { w with
          startup := rest
          booted := true
          servingSince := if rest = [] then some now else w.servingSince }
        some (s.onMessage served msg now, .ignored)
  | .ack =>
    s.worker.bind fun w =>
      if routeWorkerMessage .heartbeat w.booted = .ack ∧ w.unanswered ≠ [] then
        some (s.onMessage { w with unanswered := w.unanswered.tail } .heartbeatAck now, .ignored)
      else none
  | .traffic => s.worker.map fun w => (s.onMessage w .other now, .ignored)
  | .ringFrame =>
    s.worker.bind fun w =>
      if cfg.relayRing && w.booted then
        let heard := { w with health := { w.health with lastHeartbeat := now } }
        some ({ s with worker := some heard }, .ignored)
      else none
  | .exit => s.worker.map fun _ => s.onExit now
  | .respawn =>
    s.budget.timer.bind fun due =>
      if due ≤ now then some (s.spawnWorker cfg role now, .ignored) else none

/-- The primary: the clock, the next sweep and the slots. -/
structure Primary (cfg : ClusterConfig) where
  now : Instant
  nextSweep : Instant
  slots : cfg.SlotId → Slot
  hardExited : Bool

inductive PrimaryEvent (cfg : ClusterConfig)
  /-- Time passes. -/
  | advance (d : Instant)
  /-- The heartbeat timer fires. -/
  | sweep
  /-- Something happens to one slot. -/
  | slot (i : cfg.SlotId) (e : SlotEvent)
  deriving DecidableEq, Repr

namespace Primary

variable {cfg : ClusterConfig}

/-- The body of the heartbeat timer: judge every worker, then back-fill stranded slots. -/
def heartbeatSweep (q : Primary cfg) : Primary cfg :=
  let workers := sweepWorkerHealth (fun i => (q.slots i).worker) Worker.health q.now cfg.watchdog
    (fun w _ _ => w.requestExit) (fun w => w.keep q.now)
  { q with
    nextSweep := q.nextSweep + HEARTBEAT_INTERVAL_MS
    slots := fun i =>
      { budget := (q.slots i).budget.reconcile q.now false restartOptions
        worker := workers i } }

/-- The exit of a worker past the attempt cap takes the primary down. -/
def isExhausted : ExitOutcome → Bool
  | .exhausted _ => true
  | _ => false

/-- One event. A primary that took itself down does nothing more. -/
def step (q : Primary cfg) (e : PrimaryEvent cfg) : Option (Primary cfg) :=
  if q.hardExited then none
  else
    match e with
    | .advance d =>
      if 0 < d ∧ q.now + d ≤ q.nextSweep then
        some { q with
          now := q.now + d
          slots := fun i =>
            { q.slots i with worker := (q.slots i).worker.map fun w => w.advance (q.now + d) } }
      else none
    | .sweep => if q.now = q.nextSweep then some q.heartbeatSweep else none
    | .slot i e =>
      ((q.slots i).step cfg (cfg.role i) q.now e).map fun r =>
        { q with
          slots := Function.update q.slots i r.1
          hardExited := isExhausted r.2 }

end Primary

/-- The primary starts the heartbeat timer and spawns a worker into every slot. -/
def primary (cfg : ClusterConfig) (start : Instant) : Machine (Primary cfg) (PrimaryEvent cfg) where
  init :=
    { now := start
      nextSweep := start + HEARTBEAT_INTERVAL_MS
      slots := fun i => Slot.spawnWorker cfg (cfg.role i) start { budget := {}, worker := none }
      hardExited := false }
  step := Primary.step

/-- An event that neither brings anything from the slot's worker nor ends or replaces it. -/
def PrimaryEvent.SilentFor {cfg : ClusterConfig} (i : cfg.SlotId) : PrimaryEvent cfg → Prop
  | .slot j _ => j ≠ i
  | _ => True

/-- What supervision promises under one configuration, whenever the primary is started. -/
structure SupervisionSound (cfg : ClusterConfig) : Prop where
  /-- No sweep asks a worker to exit while its schedule has been kept. -/
  keepsHealthy : ∀ start : Instant, 0 ≤ start → ∀ es q, (primary cfg start).Reaches es q →
    ∀ i w, (q.slots i).worker = some w → w.onTime = true → w.exitRequested = false
  /-- The exit of a worker that served the stable window leaves a fresh budget. -/
  resetsBudget : ∀ start : Instant, 0 ≤ start → ∀ es q, (primary cfg start).Reaches es q →
    ∀ i w since, (q.slots i).worker = some w → w.servingSince = some since →
      since + restartOptions.stableMs ≤ q.now →
    ∀ q', (primary cfg start).step q (.slot i .exit) = some q' →
      (q'.slots i).budget.attempts = 1 ∧
        (q'.slots i).budget.delay = restartOptions.delayBase
  /-- A sweep past the timeout of a silent worker asks it to exit. -/
  escalatesSilent : ∀ start : Instant, 0 ≤ start → ∀ es q, (primary cfg start).Reaches es q →
    ∀ i w, (q.slots i).worker = some w →
    ∀ fs q₁, (∀ e ∈ fs, PrimaryEvent.SilentFor i e) → (primary cfg start).exec q fs = some q₁ →
    ∀ q₂, (primary cfg start).step q₁ .sweep = some q₂ →
      (w.health.ready = true → w.health.lastHeartbeat + cfg.watchdog.steadyTimeoutMs < q₁.now →
        ∃ w₂, (q₂.slots i).worker = some w₂ ∧ w₂.exitRequested = true) ∧
      (w.health.ready = false → 0 < cfg.watchdog.bootTimeoutMs →
        w.health.bootReference + cfg.watchdog.bootTimeoutMs < q₁.now →
        ∃ w₂, (q₂.slots i).worker = some w₂ ∧ w₂.exitRequested = true)

end AdapterWs.Cluster
