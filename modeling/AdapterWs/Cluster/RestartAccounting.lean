import AdapterWs.Cluster.RestartSlots

/-!
# Accounting of restart slots

Every slot is registered and spawned once at boot, and then its workers report and exit, timers
fire and the safety net runs in any order. While the primary is not shutting down, a slot has a
worker, or a respawn that waits, or it is exhausted, and what happens to it happens to no other.
-/

namespace AdapterWs.Cluster

open JsString List Option Supervisor

/-- What has happened to a slot: its worker with the time it has come up, its exits since the last
one of a stable worker, that one among them, the delays of their respawns, and whether the slot was
given up. -/
structure Life where
  worker : Option (Option Instant)
  streak : ℕ
  delays : List ℕ
  exhausted : Bool

namespace Life

/-- A slot without a worker. -/
def empty : Life := ⟨none, 0, [], false⟩

/-- A worker spawns. -/
def spawn (life : Life) : Life := { life with worker := some none }

/-- The worker comes up. -/
def ready (life : Life) (now : Instant) : Life := { life with worker := some (some now) }

/-- Whether the worker has been up for the stable window. -/
def stable (opts : SupervisorOptions) (life : Life) (now : Instant) : Bool :=
  life.worker.join.any fun readyAt => decide (now - readyAt ≥ opts.stableMs)

/-- The exits with one more. -/
def streakAfter (opts : SupervisorOptions) (life : Life) (now : Instant) : ℕ :=
  (if life.stable opts now then 0 else life.streak) + 1

/-- The delays that an exit comes after. -/
def delaysBefore (opts : SupervisorOptions) (life : Life) (now : Instant) : List ℕ :=
  if life.stable opts now then [] else life.delays

/-- The worker exits. -/
def exit (opts : SupervisorOptions) (life : Life) (now : Instant) : ExitOutcome → Life
  | .ignored => { life with worker := none }
  | .restarting delay _ => ⟨none, life.streakAfter opts now,
      life.delaysBefore opts now ++ [delay], life.exhausted⟩
  | .exhausted _ => ⟨none, life.streakAfter opts now, life.delaysBefore opts now, true⟩

end Life

/-- The supervisor, its slots and the slots it has spawned workers into. -/
structure World where
  sup : Supervisor
  clock : Instant
  shuttingDown : Bool
  lives : SlotName → Life
  spawned : List SlotName

/-- What happens to a supervisor. -/
inductive RestartEvent
  | ready (slot : SlotName) (now : Instant)
  | exit (slot : SlotName) (now : Instant)
  | fire (token : ℕ)
  | reconcile
  | shutDown
  | stopAll

namespace World

/-- The life of a slot is another. -/
def live (w : World) (slot : SlotName) (life : Life) : SlotName → Life :=
  Function.update w.lives slot life

/-- What an event does, where it can happen: a worker reports ready once and exits once, a timer
fires while it waits, the clock does not go back, and all timers are stopped on shutdown. -/
def step (opts : SupervisorOptions) (w : World) : RestartEvent → Option World
  | .ready slot now =>
    if (w.lives slot).worker = some none ∧ w.clock ≤ now then
      some { w with
        sup := w.sup.noteReady slot now, clock := now
        lives := w.live slot ((w.lives slot).ready now) }
    else none
  | .exit slot now =>
    if (w.lives slot).worker.isSome ∧ w.clock ≤ now then
      let outcome := w.sup.noteExit opts slot now w.shuttingDown
      some { w with
        sup := outcome.1, clock := now
        lives := w.live slot ((w.lives slot).exit opts now outcome.2) }
    else none
  | .fire token =>
    if (w.sup.timers.get token).isSome then
      let fired := w.sup.fire token w.shuttingDown
      match fired.2 with
      | some slot => some { w with
          sup := fired.1, lives := w.live slot (w.lives slot).spawn
          spawned := w.spawned ++ [slot] }
      | none => some { w with sup := fired.1 }
    else none
  | .reconcile => some { w with sup := (w.sup.reconcile opts w.shuttingDown).1 }
  | .shutDown => some { w with shuttingDown := true }
  | .stopAll => if w.shuttingDown then some { w with sup := w.sup.stopAll } else none

/-- The primary registers every slot and then spawns a worker into each. -/
def boot (slots : List SlotName) (start : Instant) : World where
  sup := slots.foldl Supervisor.noteSpawn (slots.foldl Supervisor.stateOf .create)
  clock := start
  shuttingDown := false
  lives slot := if slot ∈ slots then Life.empty.spawn else Life.empty
  spawned := slots

end World

/-- The runs of a supervisor over some slots. -/
def restarts (opts : SupervisorOptions) (slots : List SlotName) (start : Instant) :
    Machine World RestartEvent where
  init := .boot slots start
  step := World.step opts

/-- The slot of an event. -/
def RestartEvent.slot? (w : World) : RestartEvent → Option SlotName
  | .ready slot _ => some slot
  | .exit slot _ => some slot
  | .fire token => (w.sup.timers.get token).bind fun r => (w.sup.slots.get r.key).map (·.slot)
  | _ => none

/-! ## Accounts -/

/-- What the state of a slot says of its worker. -/
def Reported (life : Life) (s : SlotRecord) : Prop :=
  match life.worker with
  | some none => s.live = false ∧ s.spawning = true ∧ s.readyAt = none
  | some (some readyAt) => s.live = true ∧ s.spawning = false ∧ s.readyAt = some readyAt
  | none => s.live = false ∧ s.spawning = false ∧ s.readyAt = none

/-- The account of a slot: a worker, a respawn that waits, or the verdict that it is exhausted. Its
attempts are its exits since the last one of a stable worker, and their delays are bounded and do
not fall. -/
structure Accounted (opts : SupervisorOptions) (sup : Supervisor) (life : Life) (slot : SlotName)
    (s : SlotRecord) : Prop where
  get_eq : sup.slots.get (keyOf slot) = some s
  slot_eq : s.slot = slot
  reported : Reported life s
  one_of : life.worker.isSome = true ∧ s.timer = none ∧ life.exhausted = false ∨
    life.worker = none ∧ s.timer.isSome = true ∧ life.exhausted = false ∨
      life.worker = none ∧ s.timer = none ∧ life.exhausted = true
  timer_iff : ∀ token delay, sup.timers.get token = some ⟨keyOf slot, delay⟩ ↔
    s.timer = some token ∧ delay = s.delay
  attempts_eq : s.attempts = life.streak
  exhausted_iff : life.exhausted = true ↔ life.streak = opts.maxAttempts + 1
  streak_le : life.streak ≤ opts.maxAttempts + 1
  delay_eq : s.delay = life.delays.getLast?.getD 0
  bounds : ∀ delay ∈ life.delays, min opts.delayBase opts.delayMax ≤ delay ∧
    delay ≤ max opts.delayBase opts.delayMax
  ascending : opts.delayBase ≤ opts.delayMax → life.delays.Pairwise (· ≤ ·)

/-- A slot is left alone: its state and its timers. -/
structure Untouched (sup sup' : Supervisor) (slot : SlotName) : Prop where
  state_eq : sup'.slots.get (keyOf slot) = sup.slots.get (keyOf slot)
  timers_iff : ∀ token delay, sup'.timers.get token = some ⟨keyOf slot, delay⟩ ↔
    sup.timers.get token = some ⟨keyOf slot, delay⟩

/-- A supervisor changes at one slot. -/
structure Changes (key : JsString) (sup sup' : Supervisor) : Prop where
  slots_eq : ∀ k, k ≠ key → sup'.slots.get k = sup.slots.get k
  timers_eq : ∀ token r, r.key ≠ key →
    (sup'.timers.get token = some r ↔ sup.timers.get token = some r)
  fresh : (∀ token r, sup.timers.get token = some r → token < sup.tokens) →
    ∀ token r, sup'.timers.get token = some r → token < sup'.tokens

/-- The accounts of all slots, and that there are no others. -/
structure Consistent (opts : SupervisorOptions) (slots : List SlotName) (w : World) : Prop where
  accounted : ∀ slot ∈ slots, ∃ s, Accounted opts w.sup (w.lives slot) slot s
  known : ∀ k s, w.sup.slots.get k = some s → ∃ slot ∈ slots, keyOf slot = k
  fresh : ∀ token r, w.sup.timers.get token = some r → token < w.sup.tokens
  timers_known : ∀ token r, w.sup.timers.get token = some r → ∃ slot ∈ slots, keyOf slot = r.key
  workers_known : ∀ slot, (w.lives slot).worker.isSome = true → slot ∈ slots

variable {opts : SupervisorOptions} {slots : List SlotName} {w w' : World} {sup sup' : Supervisor}
  {life : Life} {slot other : SlotName} {s : SlotRecord} {now : Instant} {key : JsString}
  {delay : ℕ}

theorem Changes.untouched (h : Changes (keyOf slot) sup sup') (hne : other ≠ slot) :
    Untouched sup sup' other :=
  ⟨h.slots_eq _ (keyOf_injective.ne hne), fun token delay =>
    h.timers_eq token ⟨keyOf other, delay⟩ (keyOf_injective.ne hne)⟩

theorem Accounted.of_untouched (h : Accounted opts sup life slot s)
    (hsame : Untouched sup sup' slot) : Accounted opts sup' life slot s :=
  { h with
    get_eq := hsame.state_eq.trans h.get_eq
    timer_iff := fun token delay => (hsame.timers_iff token delay).trans (h.timer_iff token delay) }

/-- A change at one slot keeps the accounts of the others. -/
theorem Consistent.of_changes (h : Consistent opts slots w) (hslot : slot ∈ slots)
    (hchanges : Changes (keyOf slot) w.sup sup')
    (hself : ∃ s, Accounted opts sup' life slot s) (clock : Instant) (spawned : List SlotName) :
    Consistent opts slots ⟨sup', clock, w.shuttingDown, w.live slot life, spawned⟩ := by
  refine ⟨fun other hother => ?_, fun k s hget => ?_, hchanges.fresh h.fresh,
    fun token r hget => ?_, fun other hworker => ?_⟩
  · by_cases heq : other = slot
    · subst heq
      obtain ⟨s, hs⟩ := hself
      refine ⟨s, ?_⟩
      simp only [World.live, Function.update_self]
      exact hs
    · obtain ⟨s, hs⟩ := h.accounted other hother
      refine ⟨s, ?_⟩
      simp only [World.live, Function.update_of_ne heq]
      exact hs.of_untouched (hchanges.untouched heq)
  · by_cases heq : k = keyOf slot
    · exact ⟨slot, hslot, heq.symm⟩
    · exact h.known k s ((hchanges.slots_eq k heq).symm.trans hget)
  · by_cases heq : r.key = keyOf slot
    · exact ⟨slot, hslot, heq.symm⟩
    · exact h.timers_known token r ((hchanges.timers_eq token r heq).mp hget)
  · by_cases heq : other = slot
    · exact heq ▸ hslot
    · refine h.workers_known other ?_
      simp only [World.live, Function.update_of_ne heq] at hworker
      exact hworker

/-! ## Events -/

section

variable (h : Accounted opts sup life slot s)
include h

theorem Accounted.timer_eq_none (hworker : life.worker.isSome = true) :
    s.timer = none ∧ life.exhausted = false := by
  rcases h.one_of with ⟨-, htimer, hexhausted⟩ | ⟨hnone, -⟩ | ⟨hnone, -⟩
  · exact ⟨htimer, hexhausted⟩
  · rw [hnone] at hworker
    cases hworker
  · rw [hnone] at hworker
    cases hworker

theorem not_exhausted (hexhausted : life.exhausted = false) : life.streak ≤ opts.maxAttempts := by
  have hne : life.streak ≠ opts.maxAttempts + 1 := fun heq => by
    rw [h.exhausted_iff.mpr heq] at hexhausted
    cases hexhausted
  have hle := h.streak_le
  omega

theorem Accounted.ready (hworker : life.worker = some none) (now : Instant) :
    Changes (keyOf slot) sup (sup.noteReady slot now) ∧
      ∃ s', Accounted opts (sup.noteReady slot now) (life.ready now) slot s' := by
  obtain ⟨htimer, hexhausted⟩ := h.timer_eq_none (by rw [hworker]; rfl)
  have hstate := stateAt_of_get h.get_eq
  have htimers : ∀ token,
      (sup.noteReady slot now).timers.get token = sup.timers.get token := by
    intro token
    rw [timers_noteReady, hstate, htimer, if_neg (by simp)]
  refine ⟨⟨fun k hk => ?_, fun token r _ => ?_, fun hlt token r hget => ?_⟩, _,
    (get_noteReady ..).trans (if_pos rfl), ?_, ?_, ?_, fun token delay => ?_, ?_,
    h.exhausted_iff, h.streak_le, ?_, h.bounds, h.ascending⟩
  · rw [get_noteReady, if_neg (Ne.symm hk)]
  · rw [htimers]
  · rw [htimers] at hget
    rw [tokens_noteReady]
    exact hlt token r hget
  · exact hstate.symm ▸ h.slot_eq
  · exact ⟨rfl, rfl, rfl⟩
  · exact .inl ⟨rfl, rfl, hexhausted⟩
  · rw [htimers, h.timer_iff, hstate, htimer]
  · exact hstate.symm ▸ h.attempts_eq
  · exact hstate.symm ▸ h.delay_eq

theorem Accounted.fire {token : ℕ} (htoken : sup.timers.get token = some ⟨keyOf slot, delay⟩) :
    sup.fire token false = ((sup.fire token false).1, some slot) ∧
      Changes (keyOf slot) sup (sup.fire token false).1 ∧
        ∃ s', Accounted opts (sup.fire token false).1 life.spawn slot s' := by
  obtain ⟨htimer, hdelay⟩ := (h.timer_iff token delay).mp htoken
  have hfire := fire_of_get htoken h.get_eq h.slot_eq
  have hdropped : (sup.dropTimer (keyOf slot) token).slots.get (keyOf slot) =
      some { s with timer := none } := by
    rw [get_dropTimer, if_pos rfl, h.get_eq, map_some]
  have hstate := stateAt_of_get hdropped
  have htimers : ∀ token', ((sup.dropTimer (keyOf slot) token).noteSpawn slot).timers.get token' =
      if token = token' then none else sup.timers.get token' := by
    intro token'
    rw [timers_noteSpawn, hstate, if_neg (by simp), timers_dropTimer,
      JsMap.get_delete]
  rw [hfire]
  refine ⟨rfl, ⟨fun k hk => ?_, fun token' r hr => ?_, fun hlt token' r hget => ?_⟩, _,
    (get_noteSpawn ..).trans (if_pos rfl), ?_, ?_, ?_, fun token' delay' => ?_, ?_,
    h.exhausted_iff, h.streak_le, ?_, h.bounds, h.ascending⟩
  · rw [get_noteSpawn, if_neg (Ne.symm hk), get_dropTimer,
      if_neg (Ne.symm hk)]
  · rw [htimers]
    split_ifs with heq
    · subst heq
      rw [htoken]
      refine ⟨fun hnone => absurd hnone (by simp), fun hsome => ?_⟩
      exact absurd (congrArg Respawn.key (some.inj hsome)).symm hr
    · exact Iff.rfl
  · rw [htimers] at hget
    split_ifs at hget
    rw [tokens_noteSpawn, dropTimer, tokens_assign]
    exact hlt token' r hget
  · rw [hstate]
    exact h.slot_eq
  · exact ⟨rfl, rfl, rfl⟩
  · refine .inl ⟨rfl, rfl, ?_⟩
    rcases h.one_of with ⟨-, hnone, -⟩ | ⟨-, -, hexhausted⟩ | ⟨-, hnone, -⟩
    · rw [htimer] at hnone
      cases hnone
    · exact hexhausted
    · rw [htimer] at hnone
      cases hnone
  · rw [htimers]
    split_ifs with heq
    · simp
    · rw [h.timer_iff, htimer]
      simp [heq]
  · rw [hstate]
    exact h.attempts_eq
  · rw [hstate]
    exact h.delay_eq

end

theorem wasStablyUp_eq (h : Reported life s) (now : Instant) :
    wasStablyUp opts s now = life.stable opts now := by
  have hready : s.readyAt = life.worker.join := by
    rw [Reported] at h
    cases hworker : life.worker with
    | none =>
      rw [hworker] at h
      exact h.2.2
    | some worker =>
      rw [hworker] at h
      cases worker with
      | none => exact h.2.2
      | some readyAt => exact h.2.2
  rw [wasStablyUp, Life.stable, hready]

theorem nextDelay_bounds (opts : SupervisorOptions)
    (h : delay = 0 ∨ min opts.delayBase opts.delayMax ≤ delay) :
    min opts.delayBase opts.delayMax ≤ nextDelay opts delay ∧
      nextDelay opts delay ≤ max opts.delayBase opts.delayMax := by
  rw [nextDelay]
  split_ifs with hzero <;> omega

theorem le_nextDelay (hle : opts.delayBase ≤ opts.delayMax)
    (h : delay = 0 ∨ delay ≤ max opts.delayBase opts.delayMax) :
    delay ≤ nextDelay opts delay := by
  rw [nextDelay]
  split_ifs with hzero <;> omega

/-- The last of some numbers that do not fall is the greatest. -/
theorem le_getLast {delays : List ℕ} (h : delays.Pairwise (· ≤ ·)) (hmem : delay ∈ delays) :
    delay ≤ delays.getLast?.getD 0 := by
  rcases eq_nil_or_concat delays with rfl | ⟨before, last, rfl⟩
  · cases hmem
  · rw [concat_eq_append] at h hmem ⊢
    rw [getLast?_concat, getD_some]
    rcases mem_append.mp hmem with hbefore | hlast
    · exact (pairwise_append.mp h).2.2 _ hbefore _ (.head _)
    · exact (mem_singleton.mp hlast).le

theorem getLast_mem_or {delays : List ℕ} :
    delays.getLast?.getD 0 = 0 ∨ delays.getLast?.getD 0 ∈ delays := by
  rcases eq_nil_or_concat delays with rfl | ⟨before, last, rfl⟩
  · exact .inl rfl
  · right
    rw [concat_eq_append, getLast?_concat, getD_some]
    exact mem_concat_self

section

variable (h : Accounted opts sup life slot s)
include h

theorem Accounted.charged (now : Instant) :
    (chargedRecord opts s now).attempts = life.streakAfter opts now ∧
      (chargedRecord opts s now).delay =
        (life.delaysBefore opts now).getLast?.getD 0 := by
  rw [chargedRecord, Life.streakAfter, Life.delaysBefore,
    wasStablyUp_eq h.reported, h.attempts_eq, h.delay_eq]
  split_ifs <;> exact ⟨rfl, rfl⟩

theorem Accounted.delaysBefore (now : Instant) :
    (∀ delay ∈ life.delaysBefore opts now, min opts.delayBase opts.delayMax ≤ delay ∧
      delay ≤ max opts.delayBase opts.delayMax) ∧
    (opts.delayBase ≤ opts.delayMax → (life.delaysBefore opts now).Pairwise (· ≤ ·)) := by
  rw [Life.delaysBefore]
  split_ifs
  · exact ⟨forall_mem_nil _, fun _ => .nil⟩
  · exact ⟨h.bounds, h.ascending⟩

theorem Accounted.exit_exhausted (hexhausted : life.exhausted = false) (htimer : s.timer = none)
    (now : Instant) (hcap : opts.maxAttempts < (chargedRecord opts s now).attempts)
    (hget : sup'.slots.get (keyOf slot) = some (chargedRecord opts s now))
    (htimers : sup'.timers = sup.timers) (attempts : ℕ) :
    Accounted opts sup' (life.exit opts now (.exhausted attempts)) slot
      (chargedRecord opts s now) := by
  obtain ⟨hattempts, hdelay⟩ := h.charged now
  have hstreak : life.streakAfter opts now = opts.maxAttempts + 1 := by
    have hwithin := not_exhausted h hexhausted
    rw [hattempts, Life.streakAfter] at hcap
    rw [Life.streakAfter]
    split_ifs at hcap ⊢ <;> omega
  refine ⟨hget, h.slot_eq, ⟨rfl, rfl, rfl⟩, .inr (.inr ⟨rfl, htimer, rfl⟩),
    fun token delay => ?_, hattempts, ⟨fun _ => hstreak, fun _ => rfl⟩, hstreak.le, hdelay,
    (h.delaysBefore now).1, (h.delaysBefore now).2⟩
  rw [htimers, h.timer_iff, htimer, chargedRecord, htimer]
  simp

theorem Accounted.exit_restarting (hexhausted : life.exhausted = false) (htimer : s.timer = none)
    (now : Instant) (hcap : (chargedRecord opts s now).attempts ≤ opts.maxAttempts)
    (hget : sup'.slots.get (keyOf slot) = some { chargedRecord opts s now with
      delay := nextDelay opts (chargedRecord opts s now).delay
      timer := some sup.tokens }) (htimers : sup'.timers = sup.timers.set sup.tokens ⟨keyOf slot,
      nextDelay opts (chargedRecord opts s now).delay⟩) (attempts : ℕ) :
    Accounted opts sup' (life.exit opts now (.restarting
        (nextDelay opts (chargedRecord opts s now).delay) attempts)) slot
      { chargedRecord opts s now with
        delay := nextDelay opts (chargedRecord opts s now).delay
        timer := some sup.tokens } := by
  obtain ⟨hattempts, hdelay⟩ := h.charged now
  obtain ⟨hbounds, hascending⟩ := h.delaysBefore now
  have hstreak : life.streakAfter opts now ≤ opts.maxAttempts := hattempts.symm.trans_le hcap
  refine ⟨hget, h.slot_eq, ⟨rfl, rfl, rfl⟩, .inr (.inl ⟨rfl, rfl, hexhausted⟩),
    fun token delay => ?_, hattempts, ?_, hstreak.trans (Nat.le_succ _), ?_,
    fun delay hmem => ?_, fun hle => ?_⟩
  · rw [htimers, JsMap.get_set]
    split_ifs with heq
    · subst heq
      simp [eq_comm]
    · rw [h.timer_iff, htimer]
      simp [heq]
  · refine ⟨fun heq => ?_, fun heq => ?_⟩
    · cases hexhausted.symm.trans heq
    · simp only [Life.exit] at heq
      omega
  · simp only [Life.exit]
    rw [getLast?_concat, getD_some]
  · rcases mem_concat.mp hmem with hmem | rfl
    · exact hbounds delay hmem
    · rw [hdelay]
      exact nextDelay_bounds opts (getLast_mem_or.imp_right fun hlast => (hbounds _ hlast).1)
  · refine pairwise_append.mpr ⟨hascending hle, pairwise_singleton .., ?_⟩
    intro delay hmem last hlast
    rw [mem_singleton.mp hlast, hdelay]
    refine (le_getLast (hascending hle) hmem).trans (le_nextDelay hle ?_)
    exact getLast_mem_or.imp_right fun hlast => (hbounds _ hlast).2

theorem Accounted.exit (hworker : life.worker.isSome = true)
    (hfresh : ∀ token r, sup.timers.get token = some r → token < sup.tokens) (now : Instant) :
    Changes (keyOf slot) sup (sup.noteExit opts slot now false).1 ∧
      ∃ s', Accounted opts (sup.noteExit opts slot now false).1
        (life.exit opts now (sup.noteExit opts slot now false).2) slot s' := by
  obtain ⟨htimer, hexhausted⟩ := h.timer_eq_none hworker
  rcases noteExit_cases opts now h.get_eq htimer with
    ⟨hcap, hout, hslots, htimers, htokens⟩ | ⟨hcap, hout, hslots, htimers, htokens⟩
  · refine ⟨⟨fun k hk => (hslots k).trans (if_neg (Ne.symm hk)), fun token r _ => ?_,
      fun hlt token r hget => ?_⟩, _, hout ▸ h.exit_exhausted hexhausted htimer now hcap
        ((hslots _).trans (if_pos rfl)) htimers _⟩
    · rw [htimers]
    · rw [htimers] at hget
      rw [htokens]
      exact hlt token r hget
  · refine ⟨⟨fun k hk => (hslots k).trans (if_neg (Ne.symm hk)), fun token r hr => ?_,
      fun hlt token r hget => ?_⟩, _, hout ▸ h.exit_restarting hexhausted htimer now hcap
        ((hslots _).trans (if_pos rfl)) htimers _⟩
    · rw [htimers, JsMap.get_set]
      split_ifs with heq
      · subst heq
        refine ⟨fun hsome => ?_, fun hsome => ?_⟩
        · exact absurd (congrArg Respawn.key (some.inj hsome)).symm hr
        · exact absurd (hfresh _ _ hsome) (lt_irrefl _)
      · exact Iff.rfl
    · rw [htimers, JsMap.get_set] at hget
      rw [htokens]
      split_ifs at hget with heq
      · omega
      · exact (hlt token r hget).trans (Nat.lt_succ_self _)

theorem Accounted.not_dropped : isDropped opts s = false := by
  have hreported := h.reported
  rw [Reported] at hreported
  rw [isDropped]
  rcases h.one_of with ⟨hworker, -, -⟩ | ⟨-, htimer, -⟩ | ⟨-, -, hexhausted⟩
  · obtain ⟨worker, hworker⟩ := isSome_iff_exists.mp hworker
    rw [hworker] at hreported
    cases worker with
    | none => rw [hreported.2.1]; simp
    | some readyAt => rw [hreported.1]; simp
  · obtain ⟨token, htoken⟩ := isSome_iff_exists.mp htimer
    rw [htoken]
    simp
  · have hstreak := h.exhausted_iff.mp hexhausted
    rw [decide_eq_false (by rw [h.attempts_eq, hstreak]; omega), Bool.and_false]

end

theorem Consistent.reconcile (h : Consistent opts slots w) (shuttingDown : Bool) :
    w.sup.reconcile opts shuttingDown = (w.sup, 0) := by
  refine reconcile_eq opts shuttingDown fun k s hget => ?_
  obtain ⟨slot, hslot, rfl⟩ := h.known k s hget
  obtain ⟨s', hs'⟩ := h.accounted slot hslot
  rw [hs'.get_eq] at hget
  exact some.inj hget ▸ hs'.not_dropped

theorem Consistent.slot_of_timer (h : Consistent opts slots w) {token : ℕ} {r : Respawn}
    (htoken : w.sup.timers.get token = some r) :
    ∃ slot ∈ slots, ∃ s delay, r = ⟨keyOf slot, delay⟩ ∧
      Accounted opts w.sup (w.lives slot) slot s := by
  obtain ⟨key, delay⟩ := r
  obtain ⟨slot, hslot, heq⟩ := h.timers_known token _ htoken
  obtain ⟨s, hs⟩ := h.accounted slot hslot
  simp only at heq
  exact ⟨slot, hslot, s, delay, by rw [heq], hs⟩

/-- An event of one slot changes that slot, and keeps every account. -/
theorem Consistent.step (h : Consistent opts slots w) (hup : w.shuttingDown = false)
    {e : RestartEvent} (hstep : w.step opts e = some w') :
    (w'.shuttingDown = false → Consistent opts slots w') ∧
      ∀ slot, e.slot? w = some slot → Changes (keyOf slot) w.sup w'.sup ∧
        ∀ other, other ≠ slot → w'.lives other = w.lives other := by
  cases e with
  | ready slot now =>
    obtain ⟨hguard, ⟨⟩⟩ := ite_none_right_eq_some.mp hstep
    have hslot := h.workers_known slot (by rw [hguard.1]; rfl)
    obtain ⟨s, hs⟩ := h.accounted slot hslot
    obtain ⟨hchanges, hself⟩ := hs.ready hguard.1 now
    refine ⟨fun _ => h.of_changes hslot hchanges hself now w.spawned, fun slot' hslot' => ?_⟩
    cases hslot'
    exact ⟨hchanges, fun other hne => Function.update_of_ne hne ..⟩
  | exit slot now =>
    obtain ⟨hguard, ⟨⟩⟩ := ite_none_right_eq_some.mp hstep
    have hslot := h.workers_known slot hguard.1
    obtain ⟨s, hs⟩ := h.accounted slot hslot
    obtain ⟨hchanges, hself⟩ := hs.exit hguard.1 h.fresh now
    rw [hup]
    refine ⟨fun _ => ?_, fun slot' hslot' => ?_⟩
    · have hconsistent := h.of_changes hslot hchanges hself now w.spawned
      rw [hup] at hconsistent
      exact hconsistent
    · cases hslot'
      exact ⟨hchanges, fun other hne => Function.update_of_ne hne ..⟩
  | fire token =>
    simp only [World.step] at hstep
    split_ifs at hstep with hguard
    obtain ⟨r, hr⟩ := isSome_iff_exists.mp hguard
    obtain ⟨slot, hslot, s, delay, rfl, hs⟩ := h.slot_of_timer hr
    obtain ⟨hfire, hchanges, hself⟩ := hs.fire hr
    rw [hup, hfire] at hstep
    cases hstep
    refine ⟨fun _ => ?_, fun slot' hslot' => ?_⟩
    · have hconsistent := h.of_changes hslot hchanges hself w.clock (w.spawned ++ [slot])
      rw [hup] at hconsistent
      exact hconsistent
    · have heq : slot = slot' := by
        rw [RestartEvent.slot?, hr, bind_some, hs.get_eq, map_some,
          hs.slot_eq] at hslot'
        exact some.inj hslot'
      subst heq
      exact ⟨hchanges, fun other hne => Function.update_of_ne hne ..⟩
  | reconcile =>
    cases hstep
    rw [h.reconcile]
    exact ⟨fun _ => h, fun slot hslot => absurd hslot (by simp [RestartEvent.slot?])⟩
  | shutDown =>
    cases hstep
    refine ⟨fun hdown => ?_, fun slot hslot => absurd hslot (by simp [RestartEvent.slot?])⟩
    cases hdown
  | stopAll =>
    simp only [World.step] at hstep
    rw [hup] at hstep
    cases hstep

/-! ## Boot -/

/-- The state of a slot whose first worker boots. -/
def SlotRecord.booted (slot : SlotName) : SlotRecord :=
  { SlotRecord.fresh slot with spawning := true }

/-- What a supervisor looks like while the primary boots. -/
structure Booting (slots : List SlotName) (sup : Supervisor) : Prop where
  timers_eq : sup.timers = .empty
  state : ∀ slot, sup.stateAt slot = .fresh slot ∨ sup.stateAt slot = .booted slot
  known : ∀ k s, sup.slots.get k = some s → ∃ slot ∈ slots, keyOf slot = k

section

variable (h : Booting slots sup)
include h

theorem Booting.stateOf (hslot : slot ∈ slots) : Booting slots (sup.stateOf slot) := by
  refine ⟨(timers_stateOf ..).trans h.timers_eq, fun other => ?_, fun k s hget => ?_⟩
  · rw [stateAt, get_stateOf]
    split_ifs with heq
    · rw [keyOf_injective heq]
      exact h.state other
    · exact h.state other
  · rw [get_stateOf] at hget
    split_ifs at hget with heq
    · exact ⟨slot, hslot, heq⟩
    · exact h.known k s hget

theorem Booting.get_noteSpawn (slot : SlotName) (k : JsString) :
    (sup.noteSpawn slot).slots.get k =
      if keyOf slot = k then some (.booted slot) else sup.slots.get k := by
  rw [Supervisor.get_noteSpawn]
  rcases h.state slot with heq | heq <;> rw [heq] <;> rfl

theorem Booting.noteSpawn (hslot : slot ∈ slots) : Booting slots (sup.noteSpawn slot) := by
  have htimer : (sup.stateAt slot).timer = none := by
    rcases h.state slot with heq | heq <;> rw [heq] <;> rfl
  refine ⟨?_, fun other => ?_, fun k s hget => ?_⟩
  · rw [Supervisor.noteSpawn, Supervisor.timers_assign, Supervisor.cancelTimer,
      get_stateOf, if_pos rfl, bind_some, htimer]
    exact (timers_stateOf ..).trans h.timers_eq
  · rw [stateAt, h.get_noteSpawn]
    split_ifs with heq
    · rw [keyOf_injective heq]
      exact .inr rfl
    · exact h.state other
  · rw [h.get_noteSpawn] at hget
    split_ifs at hget with heq
    · exact ⟨slot, hslot, heq⟩
    · exact h.known k s hget

theorem Booting.foldl_stateOf {rest : List SlotName} (hrest : ∀ slot ∈ rest, slot ∈ slots) :
    Booting slots (rest.foldl Supervisor.stateOf sup) := by
  induction rest generalizing sup with
  | nil => exact h
  | cons slot rest ih =>
    exact ih (h.stateOf (hrest slot (.head _))) fun other hother =>
      hrest other (.tail _ hother)

theorem Booting.foldl_noteSpawn {rest : List SlotName} (hrest : ∀ slot ∈ rest, slot ∈ slots) :
    Booting slots (rest.foldl Supervisor.noteSpawn sup) ∧ ∀ slot,
      (slot ∈ rest ∨ sup.slots.get (keyOf slot) = some (.booted slot)) →
        (rest.foldl Supervisor.noteSpawn sup).slots.get (keyOf slot) = some (.booted slot) := by
  induction rest generalizing sup with
  | nil =>
    refine ⟨h, fun slot hslot => ?_⟩
    rcases hslot with hmem | hget
    · cases hmem
    · exact hget
  | cons first rest ih =>
    obtain ⟨hbooting, hbooted⟩ := ih (h.noteSpawn (hrest first (.head _)))
      fun other hother => hrest other (.tail _ hother)
    refine ⟨hbooting, fun slot hslot => hbooted slot ?_⟩
    by_cases heq : first = slot
    · subst heq
      exact .inr ((h.get_noteSpawn ..).trans (if_pos rfl))
    · refine hslot.imp (fun hmem => ?_) fun hget => ?_
      · exact (mem_cons.mp hmem).resolve_left (Ne.symm heq)
      · rw [h.get_noteSpawn, if_neg (keyOf_injective.ne heq), hget]

end

theorem consistent_boot (opts : SupervisorOptions) (slots : List SlotName) (start : Instant) :
    Consistent opts slots (.boot slots start) := by
  have hcreated : Booting slots .create := by
    refine ⟨rfl, fun slot => .inl rfl, fun k s hget => ?_⟩
    cases hget
  have hself : ∀ slot ∈ slots, slot ∈ slots := fun slot hslot => hslot
  obtain ⟨hbooting, hbooted⟩ := (hcreated.foldl_stateOf hself).foldl_noteSpawn hself
  have hempty : ∀ token r, (World.boot slots start).sup.timers.get token ≠ some r := by
    intro token r hget
    rw [World.boot, hbooting.timers_eq] at hget
    cases hget
  refine ⟨fun slot hslot => ⟨.booted slot, ?_⟩, hbooting.known,
    fun token r hget => absurd hget (hempty token r),
    fun token r hget => absurd hget (hempty token r), fun slot hworker => ?_⟩
  · have hlife : (World.boot slots start).lives slot = Life.empty.spawn := if_pos hslot
    rw [hlife]
    refine ⟨hbooted slot (.inl hslot), rfl, ⟨rfl, rfl, rfl⟩, .inl ⟨rfl, rfl, rfl⟩,
      fun token delay => ⟨fun hget => (hempty _ _ hget).elim, fun hget => ?_⟩, rfl,
      ⟨fun heq => ?_, fun heq => ?_⟩, Nat.zero_le _, rfl,
      forall_mem_nil _, fun _ => .nil⟩
    · cases hget.1
    · cases heq
    · exact absurd heq (Nat.succ_ne_zero _).symm
  · by_contra hslot
    have hlife : (World.boot slots start).lives slot = Life.empty := if_neg hslot
    rw [hlife] at hworker
    cases hworker

/-! ## Runs -/

/-- A primary that shuts down goes on with it, and spawns nothing. -/
theorem step_of_shuttingDown {e : RestartEvent} (hstep : w.step opts e = some w')
    (hdown : w.shuttingDown = true) : w'.shuttingDown = true ∧ w'.spawned = w.spawned := by
  cases e with
  | ready slot now =>
    obtain ⟨-, ⟨⟩⟩ := ite_none_right_eq_some.mp hstep
    exact ⟨hdown, rfl⟩
  | exit slot now =>
    obtain ⟨-, ⟨⟩⟩ := ite_none_right_eq_some.mp hstep
    exact ⟨hdown, rfl⟩
  | fire token =>
    simp only [World.step] at hstep
    split_ifs at hstep with hguard
    obtain ⟨r, hr⟩ := isSome_iff_exists.mp hguard
    have hnone : (w.sup.fire token w.shuttingDown).2 = none := by
      rw [fire, hr, hdown]
    rw [hnone] at hstep
    cases hstep
    exact ⟨hdown, rfl⟩
  | reconcile =>
    cases hstep
    exact ⟨hdown, rfl⟩
  | shutDown =>
    cases hstep
    exact ⟨rfl, rfl⟩
  | stopAll =>
    obtain ⟨-, ⟨⟩⟩ := ite_none_right_eq_some.mp hstep
    exact ⟨hdown, rfl⟩

/-- In a run that is not shutting down every account holds. -/
theorem budgetConsistent_of_reaches {start : Instant} {es : List RestartEvent}
    (h : (restarts opts slots start).Reaches es w) (hup : w.shuttingDown = false) :
    Consistent opts slots w := by
  refine Machine.ReachesWhere.invariant
    (I := fun w => w.shuttingDown = false → Consistent opts slots w)
    (fun _ => consistent_boot opts slots start) (fun w e w' ih _ hstep hup' => ?_) h hup
  cases hdown : w.shuttingDown with
  | false => exact ((ih hdown).step hdown hstep).1 hup'
  | true =>
    exfalso
    have hstays : w'.shuttingDown = true := (step_of_shuttingDown hstep hdown).1
    rw [hup'] at hstays
    cases hstays

/-- How many respawns of a slot wait. -/
def World.pending (w : World) (slot : SlotName) : ℕ :=
  (w.sup.timers.entries.filter fun entry => decide (entry.2.key = keyOf slot)).length

theorem Accounted.pending_eq (h : Accounted opts w.sup life slot s) :
    w.pending slot = if s.timer.isSome then 1 else 0 := by
  have hmem : ∀ entry, entry ∈ w.sup.timers.entries.filter
      (fun entry => decide (entry.2.key = keyOf slot)) ↔
        s.timer = some entry.1 ∧ entry.2 = ⟨keyOf slot, s.delay⟩ := by
    intro entry
    obtain ⟨token, key, delay⟩ := entry
    rw [mem_filter, decide_eq_true_iff]
    refine ⟨fun hentry => ?_, fun hentry => ?_⟩
    · obtain ⟨hentry, hkey⟩ := hentry
      simp only at hkey
      subst hkey
      obtain ⟨htimer, rfl⟩ := (h.timer_iff token delay).mp (JsMap.get_eq_some_iff.mpr hentry)
      exact ⟨htimer, rfl⟩
    · obtain ⟨htimer, heq⟩ := hentry
      simp only [Respawn.mk.injEq] at heq
      obtain ⟨rfl, rfl⟩ := heq
      exact ⟨JsMap.get_eq_some_iff.mp ((h.timer_iff token s.delay).mpr ⟨htimer, rfl⟩), rfl⟩
  have hnodup : (w.sup.timers.entries.filter
      fun entry => decide (entry.2.key = keyOf slot)).Nodup :=
    (List.Nodup.of_map _ w.sup.timers.nodup).filter _
  rw [World.pending]
  cases htimer : s.timer with
  | none =>
    refine length_eq_zero_iff.mpr (eq_nil_iff_forall_not_mem.mpr fun entry hentry => ?_)
    have hsome := ((hmem entry).mp hentry).1
    rw [htimer] at hsome
    cases hsome
  | some token =>
    have hself := (hmem (token, ⟨keyOf slot, s.delay⟩)).mpr ⟨htimer, rfl⟩
    have hsame : ∀ entry ∈ w.sup.timers.entries.filter
        (fun entry => decide (entry.2.key = keyOf slot)),
          entry = (token, ⟨keyOf slot, s.delay⟩) := by
      intro entry hentry
      obtain ⟨hsome, heq⟩ := (hmem entry).mp hentry
      rw [htimer] at hsome
      exact Prod.ext (some.inj hsome).symm heq
    have hpos := length_pos_of_mem hself
    have hle := nodup_replicate.mp (eq_replicate_of_mem hsame ▸ hnodup)
    simp only [isSome_some, if_true]
    omega

/-- In any run, while the primary is not shutting down: every slot has a worker or one respawn that
waits or is exhausted, exits charge it one by one up to the cap unless a worker was stable, and the
delays keep to their bounds and do not fall where the first is no longer than the longest; the
safety net schedules nothing; an event of one slot changes nothing of another. Once it is shutting
down it spawns no more. -/
theorem slots_accounted (opts : SupervisorOptions) (slots : List SlotName) (start : Instant)
    {es : List RestartEvent} {w : World} (h : (restarts opts slots start).Reaches es w) :
    (w.shuttingDown = false →
      (∀ slot ∈ slots, ∃ s, Accounted opts w.sup (w.lives slot) slot s ∧
        (if (w.lives slot).worker.isSome then 1 else 0) + w.pending slot +
          (if (w.lives slot).exhausted then 1 else 0) = 1) ∧
      w.sup.reconcile opts false = (w.sup, 0) ∧
      ∀ e w' slot, w.step opts e = some w' → e.slot? w = some slot → ∀ other, other ≠ slot →
        Untouched w.sup w'.sup other ∧ w'.lives other = w.lives other) ∧
    (w.shuttingDown = true → ∀ fs w', (restarts opts slots start).exec w fs = some w' →
      w'.spawned = w.spawned) := by
  refine ⟨fun hup => ?_, fun hdown fs w' hexec => ?_⟩
  · have hconsistent := budgetConsistent_of_reaches h hup
    refine ⟨fun slot hslot => ?_, hconsistent.reconcile false,
      fun e w' slot hstep hslot other hne => ?_⟩
    · obtain ⟨s, hs⟩ := hconsistent.accounted slot hslot
      refine ⟨s, hs, ?_⟩
      rw [hs.pending_eq]
      rcases hs.one_of with ⟨hworker, htimer, hexhausted⟩ | ⟨hworker, htimer, hexhausted⟩ |
        ⟨hworker, htimer, hexhausted⟩ <;> rw [hworker, htimer, hexhausted] <;> rfl
    · obtain ⟨hchanges, hlives⟩ := (hconsistent.step hup hstep).2 slot hslot
      exact ⟨hchanges.untouched hne, hlives other hne⟩
  · induction fs generalizing w es with
    | nil =>
      cases hexec
      rfl
    | cons e fs ih =>
      rw [Machine.exec_cons, bind_eq_some_iff] at hexec
      obtain ⟨w₁, hstep, hexec⟩ := hexec
      obtain ⟨hdown₁, hspawned⟩ := step_of_shuttingDown hstep hdown
      exact (ih (.next h trivial hstep) hdown₁ hexec).trans hspawned

/-- A slot of the io workers. -/
def ioSlot (index : ℕ) : SlotName := ⟨lit "io", index⟩

/-- One worker flaps and exhausts its slot while another runs. -/
theorem slots_accounted_flap : ∃ w, (restarts { maxAttempts := 1 } [ioSlot 0, ioSlot 1] 0).Reaches
    [.exit (ioSlot 0) 5, .ready (ioSlot 1) 6, .reconcile, .fire 0, .exit (ioSlot 0) 7] w ∧
      (w.lives (ioSlot 0)).exhausted = true ∧
        w.sup.reconcile { maxAttempts := 1 } false = (w.sup, 0) ∧
        (w.lives (ioSlot 1)).worker = some (some 6) := by
  obtain ⟨w, hreaches, hup, hexhausted, hworker⟩ : ∃ w,
      (restarts { maxAttempts := 1 } [ioSlot 0, ioSlot 1] 0).Reaches
        [.exit (ioSlot 0) 5, .ready (ioSlot 1) 6, .reconcile, .fire 0, .exit (ioSlot 0) 7] w ∧
      w.shuttingDown = false ∧ (w.lives (ioSlot 0)).exhausted = true ∧
        (w.lives (ioSlot 1)).worker = some (some 6) := Machine.exists_of_exec (by decide +kernel)
  exact ⟨w, hreaches, hexhausted, ((slots_accounted _ _ _ hreaches).1 hup).2.1, hworker⟩

/-- Where the first delay is longer than the longest, the second is shorter. -/
theorem exists_shorter_delay : ∃ w,
    (restarts { delayBase := 100, delayMax := 50 } [ioSlot 0] 0).Reaches
      [.exit (ioSlot 0) 0, .fire 0, .exit (ioSlot 0) 0] w ∧
    w.shuttingDown = false ∧ ¬(w.lives (ioSlot 0)).delays.Pairwise (· ≤ ·) :=
  Machine.exists_of_exec (by decide +kernel)

end AdapterWs.Cluster
