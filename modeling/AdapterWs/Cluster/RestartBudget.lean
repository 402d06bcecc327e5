import AdapterWs.Cluster.Watchdog

/-!
# The restart supervisor

Each slot of the cluster has its own restart budget: the attempts charged so far, the
exponential backoff and the pending respawn. A budget is reset by an exit, and only when the
slot's worker had been up for the stable window.
-/

namespace AdapterWs.Cluster

/-- The knobs of the supervisor, in milliseconds and attempts. -/
structure SupervisorOptions where
  delayBase : ℕ := 100
  delayMax : ℕ := 5000
  maxAttempts : ℕ := 50
  stableMs : ℕ := 30000
  deriving DecidableEq, Repr

/-- One slot: its budget, its pending respawn by due time, and what its worker has reported. -/
structure SlotState where
  attempts : ℕ := 0
  delay : ℕ := 0
  timer : Option Instant := none
  live : Bool := false
  spawning : Bool := false
  readyAt : Option Instant := none
  deriving DecidableEq, Repr

/-- The answer of `noteExit`: nothing under shutdown, a charged attempt, or the cap. -/
inductive ExitOutcome
  | ignored
  | restarting (delay attempts : ℕ)
  | exhausted (attempts : ℕ)
  deriving DecidableEq, Repr

namespace SlotState

/-- Schedule the slot's respawn after its backoff, unless one is pending. -/
def schedule (s : SlotState) (now : Instant) (shuttingDown : Bool) : SlotState × Option ℕ :=
  if shuttingDown || s.timer.isSome then (s, none)
  else ({ s with timer := some (now + s.delay) }, some s.delay)

/-- A worker is spawning for the slot. -/
def noteSpawn (s : SlotState) : SlotState :=
  { s with timer := none, live := false, spawning := true, readyAt := none }

/-- The slot's worker came up. The budget is left alone until the next exit. -/
def noteReady (s : SlotState) (now : Instant) : SlotState :=
  { s with timer := none, live := true, spawning := false, readyAt := some now }

/-- Whether the slot's worker has been up for the stable window. -/
def wasStablyUp (s : SlotState) (now : Instant) (opts : SupervisorOptions) : Bool :=
  s.readyAt.any fun readyAt => decide (now - readyAt ≥ opts.stableMs)

/-- The slot's worker exited: charge one attempt, on a fresh budget if it was stably up. -/
def noteExit (s : SlotState) (now : Instant) (shuttingDown : Bool) (opts : SupervisorOptions) :
    SlotState × ExitOutcome :=
  let wasStablyUp := s.wasStablyUp now opts
  let down := { s with live := false, spawning := false, readyAt := none }
  if shuttingDown then (down, .ignored)
  else
    let attempts := (if wasStablyUp then 0 else s.attempts) + 1
    let delay := if wasStablyUp then 0 else s.delay
    if attempts > opts.maxAttempts then
      ({ down with attempts := attempts, delay := delay }, .exhausted attempts)
    else
      let delay := if delay = 0 then opts.delayBase else min (delay * 2) opts.delayMax
      let scheduled := schedule { down with attempts := attempts, delay := delay } now shuttingDown
      (scheduled.1, .restarting (scheduled.2.getD delay) attempts)

/-- The safety net of one slot: schedule a respawn where nothing is live, booting or
pending. -/
def reconcile (s : SlotState) (now : Instant) (shuttingDown : Bool) (opts : SupervisorOptions) :
    SlotState :=
  if !shuttingDown && !s.live && !s.spawning && s.timer.isNone &&
      decide (s.attempts ≤ opts.maxAttempts) then
    (s.schedule now shuttingDown).1
  else s

variable (s : SlotState) (now : Instant) (opts : SupervisorOptions) (shuttingDown : Bool)

@[simp] theorem schedule_attempts : (s.schedule now shuttingDown).1.attempts = s.attempts := by
  unfold schedule
  split <;> rfl

@[simp] theorem schedule_delay : (s.schedule now shuttingDown).1.delay = s.delay := by
  unfold schedule
  split <;> rfl

@[simp] theorem schedule_readyAt : (s.schedule now shuttingDown).1.readyAt = s.readyAt := by
  unfold schedule
  split <;> rfl

/-- The safety net never forgets when a worker came up. -/
@[simp] theorem reconcile_readyAt : (s.reconcile now shuttingDown opts).readyAt = s.readyAt := by
  unfold reconcile
  split
  · exact s.schedule_readyAt now shuttingDown
  · rfl

/-- An exit after the stable window leaves one attempt on the base delay. -/
theorem noteExit_stable (hup : s.wasStablyUp now opts = true) (hmax : 1 ≤ opts.maxAttempts) :
    (s.noteExit now false opts).1.attempts = 1 ∧
      (s.noteExit now false opts).1.delay = opts.delayBase := by
  have hcap : ¬ 0 + 1 > opts.maxAttempts := by omega
  simp only [noteExit, hup, if_true, if_neg hcap, Bool.false_eq_true, if_false,
    schedule_attempts, schedule_delay, and_self]

end SlotState

end AdapterWs.Cluster
