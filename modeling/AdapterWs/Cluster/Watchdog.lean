import Mathlib.Tactic.Linarith

/-!
# The worker watchdog

The decision functions of the worker-supervision protocol: the verdict the primary passes on
one worker at a heartbeat sweep, the floor under the boot deadline, the boot-time gate for
control messages, and the stamps an inbound worker message leaves on its slot's liveness
record.
-/

namespace AdapterWs.Cluster

/-- A reading of the monotonic clock in milliseconds, fractions included. -/
abbrev Instant := ℚ

/-- How connections reach the workers. The primary refuses to start in acceptor mode. -/
inductive ClusterMode
  | acceptor
  | reuseport
  deriving DecidableEq, Repr

/-- An io worker listens and serves, a compute worker only runs its init hook. -/
inductive Role
  | io
  | compute
  deriving DecidableEq, Repr

/-- The regimes of the watchdog, each with its own reference clock. -/
inductive Regime
  | steady
  | boot
  | attach
  deriving DecidableEq, Repr

/-- The liveness record of one worker. A caller may leave `readyAt` and `relayAttached` out. -/
structure HealthMeta where
  ready : Bool
  lastHeartbeat : Instant
  spawnedAt : Instant
  readyAt : Option Instant
  relayAttached : Option Bool
  deriving DecidableEq, Repr

/-- The two timeouts a sweep judges by, in whole milliseconds. -/
structure WatchdogOptions where
  steadyTimeoutMs : ℕ
  bootTimeoutMs : ℕ
  deriving DecidableEq, Repr

inductive HealthVerdict
  | keep
  | escalate (regime : Regime) (reason : String)
  deriving DecidableEq, Repr

/-- Whether the verdict asks the worker to exit. -/
def HealthVerdict.escalates : HealthVerdict → Bool
  | .keep => false
  | .escalate _ _ => true

/-- The clock the boot regime measures from: the last ack, or the spawn before any ack. -/
def HealthMeta.bootReference (m : HealthMeta) : Instant :=
  if 0 < m.lastHeartbeat then m.lastHeartbeat else m.spawnedAt

def steadyReason (steadyTimeoutMs : ℕ) : String :=
  s!"unresponsive (no heartbeat ack in {steadyTimeoutMs}ms)"

def attachReason (steadyTimeoutMs : ℕ) : String :=
  "ready but its relay reader never attached (no relay-attached in the " ++
    s!"{steadyTimeoutMs}ms after it reported ready), " ++
    "so it has been serving while missing every cross-worker publish"

def bootReason (bootTimeoutMs : ℕ) : String :=
  s!"wedged during init (no liveness ack within the {bootTimeoutMs}ms " ++
    "WORKER_BOOT_TIMEOUT_MS boot deadline)"

/-- The primary's verdict on one worker at one sweep. -/
def classifyWorkerHealth (m : HealthMeta) (now : Instant) (opts : WatchdogOptions) :
    HealthVerdict :=
  if m.ready then
    if now - m.lastHeartbeat > opts.steadyTimeoutMs then
      .escalate .steady (steadyReason opts.steadyTimeoutMs)
    else
      -- An absent field makes no claim about attachment and is not judged.
      let readyAt := m.readyAt.getD 0
      if m.relayAttached = some false ∧ readyAt > 0 ∧ now - readyAt > opts.steadyTimeoutMs then
        .escalate .attach (attachReason opts.steadyTimeoutMs)
      else .keep
  else if opts.bootTimeoutMs > 0 then
    if now - m.bootReference > opts.bootTimeoutMs then
      .escalate .boot (bootReason opts.bootTimeoutMs)
    else .keep
  else .keep

/-- The boot deadline in force and whether the configured one was raised to it. -/
structure BootTimeout where
  bootTimeoutMs : ℕ
  clamped : Bool
  deriving DecidableEq, Repr

/-- The configured boot deadline against a safe floor. Zero disables the deadline. -/
def resolveBootTimeout (raw floorMs : ℕ) : BootTimeout :=
  if raw ≤ 0 then ⟨0, false⟩
  else if raw < floorMs then ⟨floorMs, true⟩
  else ⟨raw, false⟩

/-- A resolved deadline is disabled or at least the floor. -/
theorem resolveBootTimeout_floor (raw floorMs : ℕ) :
    (resolveBootTimeout raw floorMs).bootTimeoutMs = 0 ∨
      floorMs ≤ (resolveBootTimeout raw floorMs).bootTimeoutMs := by
  unfold resolveBootTimeout
  split
  · simp
  · split
    · simp
    · right
      simpa using by omega

/-- The control messages of the primary that the boot-time gate tells apart. -/
inductive ControlType
  | heartbeat
  | terminate
  | other
  deriving DecidableEq, Repr

inductive ControlAction
  | ack
  | terminate
  | dispatch
  | buffer
  deriving DecidableEq, Repr

/-- The worker's gate for an inbound control message, before and after its boot. -/
def routeWorkerMessage (type : ControlType) (booted : Bool) : ControlAction :=
  match type with
  | .heartbeat => .ack
  | .terminate => .terminate
  | .other => if booted then .dispatch else .buffer

/-- The messages of a worker that the primary's stamping tells apart. -/
inductive WorkerMessage
  | relayAttached
  | descriptor
  | ready (role : Role)
  | heartbeatAck
  | other
  deriving DecidableEq, Repr

inductive Transition
  | attached
  | ready
  | alive
  deriving DecidableEq, Repr

/-- Whether the message is the ready edge of the cluster mode. -/
def readyEdge (msg : WorkerMessage) (clusterMode : ClusterMode) : Bool :=
  match msg with
  | .descriptor => clusterMode = .acceptor
  | .ready role => clusterMode = .reuseport || role = .compute
  | _ => false

/-- The stamps one inbound worker message leaves on its slot's liveness record. -/
def recordWorkerMessage (m : HealthMeta) (msg : WorkerMessage) (now : Instant)
    (clusterMode : ClusterMode) : HealthMeta × Transition :=
  if msg = .relayAttached then
    if m.relayAttached = some true then ({ m with lastHeartbeat := now }, .alive)
    else ({ m with lastHeartbeat := now, relayAttached := some true }, .attached)
  else if readyEdge msg clusterMode then
    ({ m with lastHeartbeat := now, ready := true, readyAt := some now }, .ready)
  else ({ m with lastHeartbeat := now }, .alive)

/-- One sweep over every worker: each record gets its own verdict and the caller's hook for
it. -/
def sweepWorkerHealth {ι ω : Type} (workers : ι → Option ω) (metaOf : ω → HealthMeta)
    (now : Instant) (opts : WatchdogOptions) (escalate : ω → Regime → String → ω)
    (keep : ω → ω) : ι → Option ω := fun i =>
  (workers i).map fun w =>
    match classifyWorkerHealth (metaOf w) now opts with
    | .escalate regime reason => escalate w regime reason
    | .keep => keep w

section Verdict

variable {m : HealthMeta} {now : Instant} {opts : WatchdogOptions}

theorem classifyWorkerHealth_keep
    (hsteady : m.ready = true → now - m.lastHeartbeat ≤ opts.steadyTimeoutMs)
    (hattach : m.ready = true → m.relayAttached = some false →
      now - m.readyAt.getD 0 ≤ opts.steadyTimeoutMs)
    (hboot : m.ready = false → opts.bootTimeoutMs > 0 →
      now - m.bootReference ≤ opts.bootTimeoutMs) :
    classifyWorkerHealth m now opts = .keep := by
  unfold classifyWorkerHealth
  cases hready : m.ready with
  | true =>
    rw [if_pos rfl, if_neg (not_lt.mpr (hsteady hready))]
    apply if_neg
    intro h
    exact absurd h.2.2 (not_lt.mpr (hattach hready h.1))
  | false =>
    rw [if_neg (by decide)]
    split
    · rename_i hpos
      exact if_neg (not_lt.mpr (hboot hready hpos))
    · rfl

/-- A ready worker whose last message is older than the steady timeout is escalated. -/
theorem escalates_of_silent_ready (hready : m.ready = true)
    (hstale : (opts.steadyTimeoutMs : ℚ) < now - m.lastHeartbeat) :
    (classifyWorkerHealth m now opts).escalates = true := by
  unfold classifyWorkerHealth
  rw [if_pos hready, if_pos hstale]
  rfl

/-- A booting worker whose reference clock is older than the boot deadline is escalated. -/
theorem escalates_of_silent_boot (hready : m.ready = false) (hpos : 0 < opts.bootTimeoutMs)
    (hstale : (opts.bootTimeoutMs : ℚ) < now - m.bootReference) :
    (classifyWorkerHealth m now opts).escalates = true := by
  unfold classifyWorkerHealth
  rw [if_neg (by simp [hready]), if_pos hpos, if_pos hstale]
  rfl

/-- A ready worker that never attached is escalated once the steady timeout has passed since
it reported ready, whatever it has sent meanwhile. -/
theorem escalates_of_never_attached (hready : m.ready = true)
    (hattach : m.relayAttached = some false) {readyAt : Instant}
    (hreadyAt : m.readyAt = some readyAt) (hpos : 0 < readyAt)
    (hstale : (opts.steadyTimeoutMs : ℚ) < now - readyAt) :
    (classifyWorkerHealth m now opts).escalates = true := by
  unfold classifyWorkerHealth
  rw [if_pos hready]
  split
  · rfl
  · simp only [hreadyAt, Option.getD_some]
    rw [if_pos ⟨hattach, hpos, hstale⟩]
    rfl

end Verdict

end AdapterWs.Cluster
