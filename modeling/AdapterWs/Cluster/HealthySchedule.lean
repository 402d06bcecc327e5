import AdapterWs.Cluster.Supervision

/-!
# Healthy workers are kept

The soundness of supervision over every schedule. A slot invariant is proved for one slot at a
time and lifted to every run by `SlotInvariant.reaches`. The invariant that carries the claim
says where the reference clock of a worker on time stands relative to the next sweep: it is at
most two intervals behind, or the heartbeat of the sweep before the last one is still out and
then the clock cannot pass.
-/

namespace AdapterWs.Cluster

open Machine Option Slot

namespace Slot

/-- The clock reaches `t` for the slot. -/
def advance (s : Slot) (t : Instant) : Slot :=
  { s with worker := s.worker.map fun w => w.advance t }

/-- The verdict of one sweep applied to a worker. -/
def judge (cfg : ClusterConfig) (now : Instant) (w : Worker) : Worker :=
  match classifyWorkerHealth w.health now cfg.watchdog with
  | .escalate _ _ => w.requestExit
  | .keep => w.keep now

/-- One sweep over the slot. -/
def judged (cfg : ClusterConfig) (now : Instant) (s : Slot) : Slot where
  budget := s.budget.reconcile now false restartOptions
  worker := s.worker.map (judge cfg now)

theorem judge_keep {cfg : ClusterConfig} {now : Instant} {w : Worker}
    (h : classifyWorkerHealth w.health now cfg.watchdog = .keep) :
    judge cfg now w = w.keep now := by
  simp [judge, h]

theorem judge_escalated {cfg : ClusterConfig} {now : Instant} {w : Worker}
    (h : (classifyWorkerHealth w.health now cfg.watchdog).escalates = true) :
    judge cfg now w = w.requestExit := by
  cases hv : classifyWorkerHealth w.health now cfg.watchdog with
  | keep => simp [hv, HealthVerdict.escalates] at h
  | escalate _ _ => simp [judge, hv]

section

variable (cfg : ClusterConfig) (now : Instant) (w : Worker)

@[simp] theorem judge_health : (judge cfg now w).health = w.health := by
  unfold judge
  split <;> rfl

@[simp] theorem judge_startup : (judge cfg now w).startup = w.startup := by
  unfold judge
  split <;> rfl

@[simp] theorem judge_servingSince : (judge cfg now w).servingSince = w.servingSince := by
  unfold judge
  split <;> rfl

@[simp] theorem judge_onTime : (judge cfg now w).onTime = w.onTime := by
  unfold judge
  split <;> rfl

end

end Slot

section Step

variable {cfg : ClusterConfig} {start : Instant} {q q' : Primary cfg}

theorem step_advance {d : Instant} (h : q.step (.advance d) = some q') :
    0 < d ∧ q.now + d ≤ q.nextSweep ∧ q'.now = q.now + d ∧ q'.nextSweep = q.nextSweep ∧
      q'.hardExited = false ∧ ∀ i, q'.slots i = (q.slots i).advance (q.now + d) := by
  cases hx : q.hardExited with
  | true => simp [Primary.step, hx] at h
  | false =>
    simp only [Primary.step, hx, Bool.false_eq_true, if_false, ite_none_right_eq_some,
      some.injEq] at h
    obtain ⟨hd, rfl⟩ := h
    exact ⟨hd.1, hd.2, rfl, rfl, rfl, fun i => rfl⟩

theorem step_sweep (h : q.step .sweep = some q') :
    q.now = q.nextSweep ∧ q'.now = q.now ∧ q'.nextSweep = q.nextSweep + HEARTBEAT_INTERVAL_MS ∧
      q'.hardExited = false ∧ ∀ i, q'.slots i = (q.slots i).judged cfg q.now := by
  cases hx : q.hardExited with
  | true => simp [Primary.step, hx] at h
  | false =>
    simp only [Primary.step, hx, Bool.false_eq_true, if_false, ite_none_right_eq_some,
      some.injEq] at h
    obtain ⟨hnow, rfl⟩ := h
    exact ⟨hnow, rfl, rfl, hx, fun i => rfl⟩

theorem step_slot {i : cfg.SlotId} {e : SlotEvent} (h : q.step (.slot i e) = some q') :
    q'.now = q.now ∧ q'.nextSweep = q.nextSweep ∧ (∀ j, j ≠ i → q'.slots j = q.slots j) ∧
      ∃ out, (q.slots i).step cfg (cfg.role i) q.now e = some (q'.slots i, out) := by
  cases hx : q.hardExited with
  | true => simp [Primary.step, hx] at h
  | false =>
    simp only [Primary.step, hx, Bool.false_eq_true, if_false, map_eq_some_iff] at h
    obtain ⟨r, hr, rfl⟩ := h
    refine ⟨rfl, rfl, fun j hj => Function.update_of_ne hj _ _, r.2, ?_⟩
    simpa using hr

end Step

/-- A property of one slot that every event of the primary preserves. -/
structure SlotInvariant (cfg : ClusterConfig) (I : Instant → Instant → Slot → Prop) : Prop where
  init : ∀ role start, 0 ≤ start →
    I start (start + HEARTBEAT_INTERVAL_MS)
      (Slot.spawnWorker cfg role start { budget := {}, worker := none })
  advance : ∀ now next s d, I now next s → 0 < d → now + d ≤ next →
    I (now + d) next (s.advance (now + d))
  sweep : ∀ now s, I now now s → I now (now + HEARTBEAT_INTERVAL_MS) (s.judged cfg now)
  event : ∀ role now next s e r, I now next s → s.step cfg role now e = some r → I now next r.1

theorem SlotInvariant.reaches {cfg : ClusterConfig} {I : Instant → Instant → Slot → Prop}
    (hI : SlotInvariant cfg I) {start : Instant} (hstart : 0 ≤ start)
    {es : List (PrimaryEvent cfg)} {q : Primary cfg} (h : (primary cfg start).Reaches es q)
    (i : cfg.SlotId) : I q.now q.nextSweep (q.slots i) := by
  refine ReachesWhere.invariant (I := fun q => I q.now q.nextSweep (q.slots i)) ?_ ?_ h
  · exact hI.init (cfg.role i) start hstart
  · intro q e q' ih _ hstep
    cases e with
    | advance d =>
      obtain ⟨hd, hle, hnow, hnext, -, hslots⟩ := step_advance hstep
      rw [hnow, hnext, hslots i]
      exact hI.advance _ _ _ _ ih hd hle
    | sweep =>
      obtain ⟨hdue, hnow, hnext, -, hslots⟩ := step_sweep hstep
      rw [hnow, hnext, hslots i, ← hdue]
      rw [← hdue] at ih
      exact hI.sweep _ _ ih
    | slot j e =>
      obtain ⟨hnow, hnext, hother, out, hown⟩ := step_slot hstep
      rw [hnow, hnext]
      by_cases hij : i = j
      · subst hij
        exact hI.event _ _ _ _ _ _ ih hown
      · rw [hother i hij]
        exact ih

/-- Where a worker that was handed rings stands in its startup. -/
inductive Phase (w : Worker) (budget : SlotState) : Prop
  | booting (role : Role) : w.startup = [.ready role, .relayAttached] → w.health.ready = false →
      w.health.relayAttached = some false → w.servingSince = none → Phase w budget
  | starting : w.startup = [.relayAttached] → w.health.ready = true →
      w.health.relayAttached = some false → w.servingSince = none → Phase w budget
  | serving (since : Instant) : w.startup = [] → w.health.ready = true →
      w.health.relayAttached = some true → w.servingSince = some since →
      budget.readyAt = some since → Phase w budget

/-- A worker on time: how far its clocks trail the next sweep, and that nothing asked it to
exit. -/
structure OnSchedule (now next : Instant) (w : Worker) : Prop where
  kept : w.exitRequested = false
  answers : ∀ sent ∈ w.unanswered,
    now ≤ sent + HEARTBEAT_INTERVAL_MS ∧ sent + HEARTBEAT_INTERVAL_MS ≤ next
  reference : w.health.ready = true → w.health.bootReference ≤ w.health.lastHeartbeat
  lastSweep : next ≤ w.health.bootReference + HEARTBEAT_INTERVAL_MS ∨
    next - HEARTBEAT_INTERVAL_MS ∈ w.unanswered
  recent : next ≤ w.health.bootReference + 2 * HEARTBEAT_INTERVAL_MS ∨
    ∃ sent ∈ w.unanswered, sent + 2 * HEARTBEAT_INTERVAL_MS ≤ next
  startup : w.health.ready = true → w.startup ≠ [] →
    now ≤ w.health.readyAt.getD 0 + HEARTBEAT_INTERVAL_MS

section Schedule

variable {cfg : ClusterConfig} {now next : Instant} {w w' : Worker}

theorem interval_nonneg : (0 : ℚ) ≤ HEARTBEAT_INTERVAL_MS :=
  Nat.cast_nonneg _

theorem bootReference_of_heard {m : HealthMeta} (hheard : m.lastHeartbeat = now)
    (hspawned : 0 ≤ m.spawnedAt) :
    now ≤ m.bootReference ∧ (m.spawnedAt ≤ now → m.bootReference ≤ m.lastHeartbeat) := by
  unfold HealthMeta.bootReference
  split
  · rw [hheard]
    exact ⟨le_refl _, fun _ => le_refl _⟩
  · constructor
    · linarith
    · intro h
      linarith

/-- A worker on schedule is kept: its reference clock is at most two intervals behind, which
is inside both timeouts. -/
theorem classify_keep_of_onSchedule {budget : SlotState} (hphase : Phase w budget)
    (h : OnSchedule now now w) : classifyWorkerHealth w.health now cfg.watchdog = .keep := by
  have href : now ≤ w.health.bootReference + 2 * HEARTBEAT_INTERVAL_MS := by
    cases h.recent with
    | inl hle => exact hle
    | inr hout =>
      -- The heartbeat of the sweep before the last one would be past its deadline.
      obtain ⟨sent, hsent, hle⟩ := hout
      have hlate := (h.answers sent hsent).1
      have hpos : (0 : ℚ) < HEARTBEAT_INTERVAL_MS := by
        norm_num [HEARTBEAT_INTERVAL_MS]
      linarith
  have hsteady : (2 * HEARTBEAT_INTERVAL_MS : ℚ) ≤ HEARTBEAT_TIMEOUT_MS := by
    norm_num [HEARTBEAT_INTERVAL_MS, HEARTBEAT_TIMEOUT_MS]
  apply classifyWorkerHealth_keep
  · intro hready
    have := h.reference hready
    change now - w.health.lastHeartbeat ≤ (HEARTBEAT_TIMEOUT_MS : ℚ)
    linarith
  · intro hready hattach
    have hrest : w.startup ≠ [] := by
      cases hphase with
      | booting _ _ hbooting => simp [hready] at hbooting
      | starting hstartup => simp [hstartup]
      | serving _ _ _ hserving => simp [hattach] at hserving
    have := h.startup hready hrest
    change now - w.health.readyAt.getD 0 ≤ (HEARTBEAT_TIMEOUT_MS : ℚ)
    linarith [interval_nonneg]
  · intro _ hpos
    have hfloor : WORKER_BOOT_TIMEOUT_FLOOR_MS ≤ cfg.watchdog.bootTimeoutMs := by
      cases resolveBootTimeout_floor cfg.bootTimeoutRaw WORKER_BOOT_TIMEOUT_FLOOR_MS with
      | inl hzero => exact absurd hpos (by simp [ClusterConfig.watchdog, hzero])
      | inr hle => exact hle
    have hcast : (2 * HEARTBEAT_INTERVAL_MS : ℚ) ≤ cfg.watchdog.bootTimeoutMs := by
      exact_mod_cast hfloor
    linarith

/-- After the sweep the next one is an interval away, and the worker's new heartbeat is out. -/
theorem OnSchedule.keep (h : OnSchedule now now w) :
    OnSchedule now (now + HEARTBEAT_INTERVAL_MS) (w.keep now) where
  kept := h.kept
  answers := by
    intro sent hsent
    rw [Worker.keep, List.mem_append, List.mem_singleton] at hsent
    cases hsent with
    | inl hold =>
      have := h.answers sent hold
      exact ⟨this.1, by linarith [interval_nonneg]⟩
    | inr hnew =>
      rw [hnew]
      exact ⟨by linarith [interval_nonneg], le_refl _⟩
  reference := h.reference
  lastSweep := by
    right
    rw [Worker.keep, add_sub_cancel_right]
    simp
  recent := by
    cases h.lastSweep with
    | inl hle =>
      left
      change _ ≤ w.health.bootReference + _
      linarith
    | inr hout =>
      right
      refine ⟨now - HEARTBEAT_INTERVAL_MS, ?_, by linarith⟩
      exact List.mem_append_left _ hout
  startup := h.startup

theorem OnSchedule.hear (h : OnSchedule now next w)
    (hsoon : next ≤ now + HEARTBEAT_INTERVAL_MS) (hheard : w'.health.lastHeartbeat = now)
    (hspawned : 0 ≤ w'.health.spawnedAt ∧ w'.health.spawnedAt ≤ now)
    (hkept : w'.exitRequested = w.exitRequested)
    (hanswers : ∀ sent ∈ w'.unanswered, sent ∈ w.unanswered)
    (hstartup : w'.health.ready = true → w'.startup ≠ [] →
      now ≤ w'.health.readyAt.getD 0 + HEARTBEAT_INTERVAL_MS) :
    OnSchedule now next w' where
  kept := by rw [hkept, h.kept]
  answers := fun sent hsent => h.answers sent (hanswers sent hsent)
  reference := fun _ => (bootReference_of_heard hheard hspawned.1).2 hspawned.2
  lastSweep := by
    have := (bootReference_of_heard hheard hspawned.1).1
    left
    linarith
  recent := by
    have := (bootReference_of_heard hheard hspawned.1).1
    left
    linarith [interval_nonneg]
  startup := hstartup

theorem OnSchedule.advance {d : Instant} (h : OnSchedule now next w)
    (hprompt : w.PromptAt (now + d)) :
    OnSchedule (now + d) next (w.advance (now + d)) where
  kept := h.kept
  answers := fun sent hsent => ⟨hprompt.1 sent hsent, (h.answers sent hsent).2⟩
  reference := h.reference
  lastSweep := h.lastSweep
  recent := h.recent
  startup := hprompt.2

end Schedule

/-- The invariant of one slot: the worker in it is in a known phase of its startup, and on
schedule as long as it has been on time. -/
structure SlotHealthy (now next : Instant) (s : Slot) : Prop where
  clock : 0 ≤ now
  soon : next ≤ now + HEARTBEAT_INTERVAL_MS
  spawned : ∀ w, s.worker = some w → 0 ≤ w.health.spawnedAt ∧ w.health.spawnedAt ≤ now
  phase : ∀ w, s.worker = some w → Phase w s.budget
  schedule : ∀ w, s.worker = some w → w.onTime = true → OnSchedule now next w

section SlotHealthy

variable {cfg : ClusterConfig} {now next : Instant} {s : Slot} {w : Worker} {role : Role}

/-- A fresh worker has its whole startup ahead and its first sweep within an interval. -/
theorem slotHealthy_spawnWorker (hring : cfg.relayRing = true) (hclock : 0 ≤ now)
    (hsoon : next ≤ now + HEARTBEAT_INTERVAL_MS) :
    SlotHealthy now next (spawnWorker cfg role now s) where
  clock := hclock
  soon := hsoon
  spawned := by
    intro w hw
    cases hw
    exact ⟨hclock, le_refl _⟩
  phase := by
    intro w hw
    cases hw
    exact .booting role (by simp [startupPosts, hring]) rfl rfl rfl
  schedule := by
    intro w hw _
    cases hw
    exact {
      kept := rfl
      answers := by simp
      reference := by simp
      lastSweep := by
        left
        simpa [HealthMeta.bootReference] using hsoon
      recent := by
        left
        have := interval_nonneg
        simp only [HealthMeta.bootReference, lt_irrefl, if_false]
        linarith
      startup := by simp }

theorem slotHealthy_empty (hclock : 0 ≤ now) (hsoon : next ≤ now + HEARTBEAT_INTERVAL_MS)
    (hempty : s.worker = none) : SlotHealthy now next s where
  clock := hclock
  soon := hsoon
  spawned := by simp [hempty]
  phase := by simp [hempty]
  schedule := by simp [hempty]

section

variable (s) (w) (now)

theorem onMessage_ready :
    s.onMessage w (.ready role) now =
      { budget := s.budget
        worker := some { w with
          health := { w.health with lastHeartbeat := now, ready := true, readyAt := some now } } } :=
  rfl

theorem onMessage_relayAttached (h : w.health.relayAttached = some false) :
    s.onMessage w .relayAttached now =
      { budget := s.budget.noteReady now
        worker := some { w with
          health := { w.health with lastHeartbeat := now, relayAttached := some true } } } := by
  simp [onMessage, recordWorkerMessage, h]

/-- Any other message advances the liveness clock alone. -/
theorem onMessage_alive {msg : WorkerMessage} (hmsg : msg = .heartbeatAck ∨ msg = .other) :
    s.onMessage w msg now =
      { budget := s.budget
        worker := some { w with health := { w.health with lastHeartbeat := now } } } := by
  cases hmsg with
  | inl h => subst h; rfl
  | inr h => subst h; rfl

end

/-- A message outside the startup keeps the slot healthy. -/
theorem SlotHealthy.heard (h : SlotHealthy now next s) (hw : s.worker = some w)
    {unanswered : List Instant} (hsub : ∀ sent ∈ unanswered, sent ∈ w.unanswered) :
    SlotHealthy now next { s with worker := some { w with
      health := { w.health with lastHeartbeat := now }, unanswered := unanswered } } where
  clock := h.clock
  soon := h.soon
  spawned := by
    intro w' hw'
    cases hw'
    exact h.spawned w hw
  phase := by
    intro w' hw'
    cases hw'
    cases h.phase w hw with
    | booting role h1 h2 h3 h4 => exact .booting role h1 h2 h3 h4
    | starting h1 h2 h3 h4 => exact .starting h1 h2 h3 h4
    | serving since h1 h2 h3 h4 h5 => exact .serving since h1 h2 h3 h4 h5
  schedule := by
    intro w' hw' honTime
    cases hw'
    have hold := h.schedule w hw honTime
    exact hold.hear h.soon rfl (h.spawned w hw) rfl hsub hold.startup

/-- The next post of the startup keeps the slot healthy. -/
theorem SlotHealthy.startup (h : SlotHealthy now next s) (hw : s.worker = some w)
    {msg : WorkerMessage} {rest : List WorkerMessage} (hposts : w.startup = msg :: rest) :
    SlotHealthy now next (s.onMessage { w with
      startup := rest
      booted := true
      servingSince := if rest = [] then some now else w.servingSince } msg now) := by
  have hold := h.schedule w hw
  cases h.phase w hw with
  | booting role hstartup _ hattach hsince =>
    rw [hstartup] at hposts
    cases hposts
    rw [onMessage_ready]
    refine ⟨h.clock, h.soon, ?_, ?_, ?_⟩
    · intro w' hw'
      cases hw'
      exact h.spawned w hw
    · intro w' hw'
      cases hw'
      exact .starting rfl rfl hattach (by simpa using hsince)
    · intro w' hw' honTime
      cases hw'
      refine (hold honTime).hear h.soon rfl (h.spawned w hw) rfl (fun _ hs => hs) ?_
      intro _ _
      simp
  | starting hstartup hready hattach hsince =>
    rw [hstartup] at hposts
    cases hposts
    rw [onMessage_relayAttached _ _ _ (by exact hattach)]
    refine ⟨h.clock, h.soon, ?_, ?_, ?_⟩
    · intro w' hw'
      cases hw'
      exact h.spawned w hw
    · intro w' hw'
      cases hw'
      exact .serving now rfl hready rfl (by simp) rfl
    · intro w' hw' honTime
      cases hw'
      refine (hold honTime).hear h.soon rfl (h.spawned w hw) rfl (fun _ hs => hs) ?_
      intro _ hrest
      exact absurd rfl hrest
  | serving _ hstartup =>
    rw [hstartup] at hposts
    cases hposts

/-- A phase survives the safety net of the sweep, which never touches the uptime stamp. -/
theorem Phase.reconcile {budget : SlotState} (h : Phase w budget) {w' : Worker}
    (hhealth : w'.health = w.health) (hstartup : w'.startup = w.startup)
    (hsince : w'.servingSince = w.servingSince) :
    Phase w' (budget.reconcile now false restartOptions) := by
  cases h with
  | booting role h1 h2 h3 h4 =>
    exact .booting role (by rw [hstartup, h1]) (by rw [hhealth, h2]) (by rw [hhealth, h3])
      (by rw [hsince, h4])
  | starting h1 h2 h3 h4 =>
    exact .starting (by rw [hstartup, h1]) (by rw [hhealth, h2]) (by rw [hhealth, h3])
      (by rw [hsince, h4])
  | serving since h1 h2 h3 h4 h5 =>
    exact .serving since (by rw [hstartup, h1]) (by rw [hhealth, h2]) (by rw [hhealth, h3])
      (by rw [hsince, h4]) (by rw [SlotState.reconcile_readyAt, h5])

/-- Every event of the primary keeps every slot healthy. -/
theorem slotInvariant_slotHealthy (hring : cfg.relayRing = true) :
    SlotInvariant cfg SlotHealthy where
  init := by
    intro role start hstart
    exact slotHealthy_spawnWorker hring hstart (le_refl _)
  advance := by
    intro now next s d h hd hle
    refine ⟨by linarith [h.clock], by linarith [h.soon], ?_, ?_, ?_⟩
    · intro w' hw'
      obtain ⟨w, hw, rfl⟩ := map_eq_some_iff.mp hw'
      have := h.spawned w hw
      exact ⟨this.1, le_trans this.2 (by linarith)⟩
    · intro w' hw'
      obtain ⟨w, hw, rfl⟩ := map_eq_some_iff.mp hw'
      cases h.phase w hw with
      | booting role h1 h2 h3 h4 => exact .booting role h1 h2 h3 h4
      | starting h1 h2 h3 h4 => exact .starting h1 h2 h3 h4
      | serving since h1 h2 h3 h4 h5 => exact .serving since h1 h2 h3 h4 h5
    · intro w' hw' honTime
      obtain ⟨w, hw, rfl⟩ := map_eq_some_iff.mp hw'
      simp only [Worker.advance, Bool.and_eq_true, decide_eq_true_eq] at honTime
      exact (h.schedule w hw honTime.1).advance honTime.2
  sweep := by
    intro now s h
    refine ⟨h.clock, le_refl _, ?_, ?_, ?_⟩
    · intro w' hw'
      obtain ⟨w, hw, rfl⟩ := map_eq_some_iff.mp hw'
      rw [judge_health]
      exact h.spawned w hw
    · intro w' hw'
      obtain ⟨w, hw, rfl⟩ := map_eq_some_iff.mp hw'
      refine (h.phase w hw).reconcile (judge_health _ _ _) ?_ ?_
      · exact judge_startup _ _ _
      · exact judge_servingSince _ _ _
    · intro w' hw' honTime
      obtain ⟨w, hw, rfl⟩ := map_eq_some_iff.mp hw'
      rw [judge_onTime] at honTime
      have hold := h.schedule w hw honTime
      rw [judge_keep (classify_keep_of_onSchedule (h.phase w hw) hold)]
      exact hold.keep
  event := by
    intro role now next s e r h hstep
    cases e with
    | startup =>
      obtain ⟨w, hw, hstep⟩ := bind_eq_some_iff.mp hstep
      cases hposts : w.startup with
      | nil => simp [hposts] at hstep
      | cons msg rest =>
        simp only [hposts, some.injEq] at hstep
        rw [← hstep]
        exact h.startup hw hposts
    | ack =>
      obtain ⟨w, hw, hstep⟩ := bind_eq_some_iff.mp hstep
      obtain ⟨-, hstep⟩ := ite_none_right_eq_some.mp hstep
      cases hstep
      rw [onMessage_alive _ _ _ (.inl rfl)]
      exact h.heard hw fun _ hs => List.mem_of_mem_tail hs
    | traffic =>
      obtain ⟨w, hw, hstep⟩ := map_eq_some_iff.mp hstep
      cases hstep
      rw [onMessage_alive _ _ _ (.inr rfl)]
      exact h.heard hw fun _ hs => hs
    | ringFrame =>
      obtain ⟨w, hw, hstep⟩ := bind_eq_some_iff.mp hstep
      obtain ⟨-, hstep⟩ := ite_none_right_eq_some.mp hstep
      cases hstep
      exact h.heard hw fun _ hs => hs
    | exit =>
      obtain ⟨w, hw, hstep⟩ := map_eq_some_iff.mp hstep
      cases hstep
      exact slotHealthy_empty h.clock h.soon rfl
    | respawn =>
      obtain ⟨due, hdue, hstep⟩ := bind_eq_some_iff.mp hstep
      obtain ⟨-, hstep⟩ := ite_none_right_eq_some.mp hstep
      cases hstep
      exact slotHealthy_spawnWorker hring h.clock h.soon

end SlotHealthy

section Silence

variable {cfg : ClusterConfig} {start : Instant} {q q' : Primary cfg} {i : cfg.SlotId}
  {w : Worker}

/-- An event that brings nothing from the worker of a slot leaves its liveness record. -/
theorem health_of_silent_step {e : PrimaryEvent cfg} (hsilent : e.SilentFor i)
    (h : q.step e = some q') (hw : (q.slots i).worker = some w) :
    ∃ w', (q'.slots i).worker = some w' ∧ w'.health = w.health := by
  cases e with
  | advance d =>
    obtain ⟨-, -, -, -, -, hslots⟩ := step_advance h
    refine ⟨w.advance (q.now + d), ?_, rfl⟩
    simp [hslots i, advance, hw]
  | sweep =>
    obtain ⟨-, -, -, -, hslots⟩ := step_sweep h
    refine ⟨judge cfg q.now w, ?_, judge_health _ _ _⟩
    simp [hslots i, judged, hw]
  | slot j e =>
    obtain ⟨-, -, hother, -⟩ := step_slot h
    refine ⟨w, ?_, rfl⟩
    rw [hother i (Ne.symm hsilent), hw]

/-- A run that brings nothing from the worker of a slot leaves its liveness record. -/
theorem health_of_silent {fs : List (PrimaryEvent cfg)}
    (hsilent : ∀ e ∈ fs, PrimaryEvent.SilentFor i e)
    (h : (primary cfg start).exec q fs = some q') (hw : (q.slots i).worker = some w) :
    ∃ w', (q'.slots i).worker = some w' ∧ w'.health = w.health := by
  induction fs generalizing q w with
  | nil =>
    cases h
    exact ⟨w, hw, rfl⟩
  | cons e fs ih =>
    obtain ⟨q₁, hstep, hrest⟩ := bind_eq_some_iff.mp h
    obtain ⟨w₁, hw₁, hhealth⟩ := health_of_silent_step (hsilent e (by simp)) hstep hw
    obtain ⟨w', hw', hhealth'⟩ := ih (fun e he => hsilent e (by simp [he])) hrest hw₁
    exact ⟨w', hw', hhealth'.trans hhealth⟩

/-- A sweep asks a worker to exit whose verdict says so. -/
theorem exitRequested_of_sweep (h : q.step .sweep = some q')
    (hw : (q.slots i).worker = some w)
    (hv : (classifyWorkerHealth w.health q.now cfg.watchdog).escalates = true) :
    ∃ w', (q'.slots i).worker = some w' ∧ w'.exitRequested = true := by
  obtain ⟨-, -, -, -, hslots⟩ := step_sweep h
  refine ⟨w.requestExit, ?_, rfl⟩
  simp [hslots i, judged, hw, judge_escalated hv]

end Silence

end AdapterWs.Cluster
