import AdapterWs.Cluster.HealthySchedule

/-!
# The attach notice and the relay rings

A worker posts its attach notice inside the branch that starts its relay rings, while the
primary judges the attach of every worker it spawned. With the rings disabled the notice never
comes: the record of a worker that serves and answers every heartbeat still says unattached,
and the attach regime asks it to exit once the steady timeout has passed since it was ready.
-/

namespace AdapterWs.Cluster

open Machine Slot Option

section Sound

variable {cfg : ClusterConfig}

/-- The uptime stamp of a worker past its startup is the one its budget is judged by. -/
theorem wasStablyUp_of_phase {s : Slot} {w : Worker} {now since : Instant}
    (h : Phase w s.budget) (hsince : w.servingSince = some since)
    (hstable : since + restartOptions.stableMs ≤ now) :
    s.budget.wasStablyUp now restartOptions = true := by
  cases h with
  | booting _ _ _ _ hnone => simp [hsince] at hnone
  | starting _ _ _ hnone => simp [hsince] at hnone
  | serving since' _ _ _ hserving hready =>
    have hsame : since' = since := by
      rw [hserving] at hsince
      exact some.inj hsince
    simp only [SlotState.wasStablyUp, hready, any_some, decide_eq_true_eq, hsame]
    linarith

theorem sound_of_ring (hring : cfg.relayRing = true) : SupervisionSound cfg where
  keepsHealthy := by
    intro start hstart es q hreach i w hw honTime
    have h := (slotInvariant_slotHealthy hring).reaches hstart hreach i
    exact (h.schedule w hw honTime).kept
  resetsBudget := by
    intro start hstart es q hreach i w since hw hsince hstable q' hstep
    have h := (slotInvariant_slotHealthy hring).reaches hstart hreach i
    have hup := wasStablyUp_of_phase (h.phase w hw) hsince hstable
    obtain ⟨-, -, -, out, hown⟩ := step_slot hstep
    simp only [Slot.step, hw, map_some, some.injEq] at hown
    have hslot : q'.slots i = ((q.slots i).onExit q.now).1 := by
      rw [hown]
    rw [hslot]
    exact SlotState.noteExit_stable _ _ _ hup (by decide)
  escalatesSilent := by
    intro start hstart es q hreach i w hw fs q₁ hsilent hrun q₂ hsweep
    obtain ⟨w₁, hw₁, hhealth⟩ := health_of_silent hsilent hrun hw
    constructor
    · intro hready hstale
      apply exitRequested_of_sweep hsweep hw₁
      rw [hhealth]
      exact escalates_of_silent_ready hready (by linarith)
    · intro hready hpos hstale
      apply exitRequested_of_sweep hsweep hw₁
      rw [hhealth]
      exact escalates_of_silent_boot hready hpos (by linarith)

end Sound

section RingDisabled

variable {cfg : ClusterConfig}

/-- A worker that reported ready, answered every heartbeat and has nothing left to post, at
the instant of a sweep, and that the primary still reads as unattached. -/
structure UnattachedAt (q : Primary cfg) (i : cfg.SlotId) (readyAt : Instant) (w : Worker) :
    Prop where
  running : q.hardExited = false
  due : q.now = q.nextSweep
  worker : (q.slots i).worker = some w
  answered : w.unanswered = []
  onTime : w.onTime = true
  booted : w.booted = true
  startup : w.startup = []
  ready : w.health.ready = true
  unattached : w.health.relayAttached = some false
  readyAt_eq : w.health.readyAt = some readyAt
  heard : q.now ≤ w.health.lastHeartbeat + HEARTBEAT_INTERVAL_MS

/-- While the attach regime is inside its timeout the worker is kept, answers the heartbeat at
once and stands the same way at the next sweep. -/
theorem UnattachedAt.next_sweep {q : Primary cfg} {i : cfg.SlotId} {readyAt : Instant}
    {w : Worker} (h : UnattachedAt q i readyAt w)
    (start : Instant) (hinside : q.now - readyAt ≤ HEARTBEAT_TIMEOUT_MS) :
    ∃ q' w', (primary cfg start).exec q
        [.sweep, .slot i .ack, .advance HEARTBEAT_INTERVAL_MS] = some q' ∧
      UnattachedAt q' i readyAt w' ∧ q'.now = q.now + HEARTBEAT_INTERVAL_MS := by
  have hkeep : classifyWorkerHealth w.health q.now cfg.watchdog = .keep := by
    apply classifyWorkerHealth_keep
    · intro _
      have hheard := h.heard
      have hsteady : (HEARTBEAT_INTERVAL_MS : ℚ) ≤ HEARTBEAT_TIMEOUT_MS := by
        norm_num [HEARTBEAT_INTERVAL_MS, HEARTBEAT_TIMEOUT_MS]
      change q.now - w.health.lastHeartbeat ≤ (HEARTBEAT_TIMEOUT_MS : ℚ)
      linarith
    · intro _ _
      rw [h.readyAt_eq, getD_some]
      exact hinside
    · intro hbooting
      simp [h.ready] at hbooting
  have hslot : (q.heartbeatSweep.slots i).worker = some (w.keep q.now) := by
    change ((q.slots i).judged cfg q.now).worker = _
    simp [judged, h.worker, judge_keep hkeep]
  let heard : Worker :=
    { w with health := { w.health with lastHeartbeat := q.now }, unanswered := [] }
  let acked : Primary cfg :=
    { q.heartbeatSweep with
      slots := Function.update q.heartbeatSweep.slots i
        { budget := (q.heartbeatSweep.slots i).budget, worker := some heard }
      hardExited := false }
  let later : Primary cfg :=
    { acked with
      now := q.now + HEARTBEAT_INTERVAL_MS
      slots := fun j => (acked.slots j).advance (q.now + HEARTBEAT_INTERVAL_MS) }
  have hsweep : q.step .sweep = some q.heartbeatSweep := by
    simp [Primary.step, h.running, h.due]
  have hack : q.heartbeatSweep.step (.slot i .ack) = some acked := by
    have hout : (w.keep q.now).unanswered ≠ [] := by
      simp [Worker.keep]
    have htail : (w.keep q.now).unanswered.tail = [] := by
      simp [Worker.keep, h.answered]
    have hown : (q.heartbeatSweep.slots i).step cfg (cfg.role i) q.now .ack =
        some ({ budget := (q.heartbeatSweep.slots i).budget, worker := some heard }, .ignored) := by
      simp only [Slot.step, hslot, bind_some, routeWorkerMessage, hout, ne_eq,
        not_false_eq_true, and_self, if_true, htail, onMessage_alive _ _ _ (.inl rfl)]
      rfl
    simp only [Primary.step, Primary.heartbeatSweep, h.running, Bool.false_eq_true, if_false]
    change Option.map _ ((q.heartbeatSweep.slots i).step cfg (cfg.role i) q.now .ack) = _
    rw [hown]
    rfl
  have hadvance : acked.step (.advance HEARTBEAT_INTERVAL_MS) = some later := by
    have hpos : (0 : ℚ) < HEARTBEAT_INTERVAL_MS := by
      norm_num [HEARTBEAT_INTERVAL_MS]
    have hle : acked.now + HEARTBEAT_INTERVAL_MS ≤ acked.nextSweep := by
      change q.now + _ ≤ q.nextSweep + _
      rw [h.due]
    simp only [Primary.step, hpos, hle, true_and, if_true]
    rfl
  have hworker : (later.slots i).worker = some (heard.advance (q.now + HEARTBEAT_INTERVAL_MS)) := by
    simp [later, acked, advance]
  refine ⟨later, heard.advance (q.now + HEARTBEAT_INTERVAL_MS), ?_, ?_, rfl⟩
  · change (q.step .sweep).bind _ = _
    rw [hsweep]
    change (q.heartbeatSweep.step (.slot i .ack)).bind _ = _
    rw [hack]
    change (acked.step (.advance HEARTBEAT_INTERVAL_MS)).bind _ = _
    rw [hadvance]
    rfl
  · refine ⟨rfl, ?_, hworker, rfl, ?_, h.booted, h.startup, h.ready, h.unattached, h.readyAt_eq,
      le_refl _⟩
    · change q.now + _ = q.nextSweep + _
      rw [h.due]
    · have hprompt : heard.PromptAt (q.now + HEARTBEAT_INTERVAL_MS) := by
        refine ⟨fun sent hsent => ?_, fun _ hrest => absurd h.startup hrest⟩
        cases hsent
      change (w.onTime && decide (heard.PromptAt (q.now + HEARTBEAT_INTERVAL_MS))) = true
      simp [h.onTime, hprompt]

/-- The first worker of a cluster without rings: ready at once, at the first sweep. -/
theorem exists_unattachedAt (hring : cfg.relayRing = false) :
    ∃ es q i w, (primary cfg 1).Reaches es q ∧ UnattachedAt q i 1 w ∧
      q.now = 1 + HEARTBEAT_INTERVAL_MS := by
  let i : cfg.SlotId := ⟨0, by have := cfg.ioCount_pos; omega⟩
  let q₀ := (primary cfg 1).init
  let w₀ : Worker :=
    { health := ⟨true, 1, 1, some 1, some false⟩
      startup := [], booted := true, unanswered := [], exitRequested := false
      servingSince := some 1, onTime := true }
  let q₁ : Primary cfg :=
    { q₀ with
      slots := Function.update q₀.slots i
        { budget := ({} : SlotState).noteSpawn, worker := some w₀ } }
  let q₂ : Primary cfg :=
    { q₁ with
      now := 1 + HEARTBEAT_INTERVAL_MS
      slots := fun j => (q₁.slots j).advance (1 + HEARTBEAT_INTERVAL_MS) }
  have hready : q₀.step (.slot i .startup) = some q₁ := by
    have hown : (q₀.slots i).step cfg (cfg.role i) q₀.now .startup =
        some ({ budget := ({} : SlotState).noteSpawn, worker := some w₀ }, .ignored) := by
      change step cfg (cfg.role i) 1 (spawnWorker cfg (cfg.role i) 1 _) .startup = _
      simp only [Slot.step, Slot.spawnWorker, bind_some, startupPosts, hring,
        Bool.false_eq_true, if_false, if_true, onMessage_ready]
      rfl
    have hrunning : q₀.hardExited = false := rfl
    simp only [Primary.step, hrunning, Bool.false_eq_true, if_false, hown]
    rfl
  have hadvance : q₁.step (.advance HEARTBEAT_INTERVAL_MS) = some q₂ := by
    have hpos : (0 : ℚ) < HEARTBEAT_INTERVAL_MS := by
      norm_num [HEARTBEAT_INTERVAL_MS]
    have hle : q₁.now + HEARTBEAT_INTERVAL_MS ≤ q₁.nextSweep := le_refl _
    simp only [Primary.step, hpos, hle, true_and, if_true]
    rfl
  have hrun : (primary cfg 1).exec q₀ [.slot i .startup, .advance HEARTBEAT_INTERVAL_MS] =
      some q₂ := by
    change (q₀.step (.slot i .startup)).bind _ = _
    rw [hready]
    change (q₁.step (.advance HEARTBEAT_INTERVAL_MS)).bind _ = _
    rw [hadvance]
    rfl
  refine ⟨_, q₂, i, w₀.advance (1 + HEARTBEAT_INTERVAL_MS), reaches_of_exec hrun, ?_, rfl⟩
  have hprompt : w₀.PromptAt (1 + HEARTBEAT_INTERVAL_MS) := by
    refine ⟨fun sent hsent => ?_, fun _ hrest => absurd rfl hrest⟩
    cases hsent
  refine ⟨rfl, rfl, ?_, rfl, ?_, rfl, rfl, rfl, rfl, rfl, le_refl _⟩
  · simp [q₂, q₁, advance]
  · change (true && decide (w₀.PromptAt (1 + HEARTBEAT_INTERVAL_MS))) = true
    simp [hprompt]

/-- Without rings a worker that keeps every deadline is asked to exit by the fourth sweep. -/
theorem not_sound_of_no_ring (hring : cfg.relayRing = false) : ¬ SupervisionSound cfg := by
  intro hsound
  have hten : (HEARTBEAT_INTERVAL_MS : ℚ) = 10000 := by
    norm_num [HEARTBEAT_INTERVAL_MS]
  have hthirty : (HEARTBEAT_TIMEOUT_MS : ℚ) = 30000 := by
    norm_num [HEARTBEAT_TIMEOUT_MS]
  obtain ⟨es₁, q₁, i, w₁, hreach₁, h₁, hnow₁⟩ := exists_unattachedAt hring
  obtain ⟨q₂, w₂, hx₂, h₂, hnow₂⟩ := h₁.next_sweep 1 (by linarith)
  obtain ⟨q₃, w₃, hx₃, h₃, hnow₃⟩ := h₂.next_sweep 1 (by linarith)
  obtain ⟨q₄, w₄, hx₄, h₄, hnow₄⟩ := h₃.next_sweep 1 (by linarith)
  have hreach₄ := ((hreach₁.exec hx₂).exec hx₃).exec hx₄
  have hsweep : (primary cfg 1).step q₄ .sweep = some q₄.heartbeatSweep := by
    change Primary.step q₄ .sweep = _
    simp [Primary.step, h₄.running, h₄.due]
  have hv : (classifyWorkerHealth w₄.health q₄.now cfg.watchdog).escalates = true := by
    apply escalates_of_never_attached h₄.ready h₄.unattached h₄.readyAt_eq (by norm_num)
    change (HEARTBEAT_TIMEOUT_MS : ℚ) < q₄.now - 1
    linarith
  have hworker : (q₄.heartbeatSweep.slots i).worker = some w₄.requestExit := by
    change ((q₄.slots i).judged cfg q₄.now).worker = _
    simp [judged, h₄.worker, judge_escalated hv]
  have hkept := hsound.keepsHealthy 1 (by norm_num) _ _ (.next hreach₄ trivial hsweep) i _
    hworker h₄.onTime
  cases hkept

end RingDisabled

/-- Supervision keeps every healthy worker, resets the budget of a stable one and escalates a
silent one exactly when the relay rings are enabled. -/
theorem supervisionSound_iff (cfg : ClusterConfig) :
    SupervisionSound cfg ↔ 0 < cfg.relayRingKb := by
  cases hring : cfg.relayRing with
  | true =>
    have hpos : 0 < cfg.relayRingKb := by simpa [ClusterConfig.relayRing] using hring
    exact ⟨fun _ => hpos, fun _ => sound_of_ring hring⟩
  | false =>
    have hzero : ¬ 0 < cfg.relayRingKb := by
      have := of_decide_eq_false hring
      omega
    exact ⟨fun h => absurd h (not_sound_of_no_ring hring), fun h => absurd h hzero⟩

/-- One io worker, rings disabled, every other knob at its default. -/
def ringDisabled : ClusterConfig where
  ioCount := 1
  computeCount := 0
  ioCount_pos := by decide
  relayRingKb := 0
  bootTimeoutRaw := 60000

/-- The defect at the documented postMessage-only configuration. -/
theorem not_supervisionSound_ringDisabled : ¬ SupervisionSound ringDisabled :=
  not_sound_of_no_ring (by decide)

end AdapterWs.Cluster
