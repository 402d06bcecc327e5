import AdapterWs.Lib.Decimal
import AdapterWs.Lib.JsMap
import AdapterWs.Lib.Machine
import AdapterWs.Cluster.RestartBudget

/-!
# The slots of the restart supervisor

The supervisor of a cluster as the source has it: a map from the keys of slots to their states, and
the respawns that wait in the timers of the primary. A state names its timer by the token that
`setTimer` gave out, and a timer names the state it respawns.
-/

namespace AdapterWs.Cluster

open JsString Option

/-- A slot. -/
structure SlotName where
  role : JsString
  index : ℕ
  deriving DecidableEq

/-- The key of a slot. -/
def keyOf (slot : SlotName) : JsString := slot.role ++ unit '#' :: decimal slot.index

/-! ## Keys -/

theorem hash_not_mem_decimal (n : ℕ) : unit '#' ∉ decimal n := by
  intro hmem
  cases isDigit_of_mem_decimal hmem

theorem keyOf_injective : Function.Injective keyOf := by
  intro slot other h
  have hrole := congrArg (List.rdropWhile (· ≠ unit '#')) h
  have hindex := congrArg (List.rtakeWhile (· ≠ unit '#')) h
  simp only [keyOf] at hrole hindex
  rw [rtakeWhile_append_cons, rtakeWhile_append_cons,
    rtakeWhile_of_not_mem (hash_not_mem_decimal _),
    rtakeWhile_of_not_mem (hash_not_mem_decimal _)] at hindex
  rw [keyOf, keyOf, hindex] at h
  have hname := List.append_cancel_right h
  obtain ⟨role, index⟩ := slot
  obtain ⟨role', index'⟩ := other
  rw [SlotName.mk.injEq]
  exact ⟨hname, decimal_injective hindex⟩

/-! ## The supervisor -/

/-- `SlotState`: the name of a slot, its budget, the token of its timer and what its worker has
reported. -/
structure SlotRecord where
  slot : SlotName
  attempts : ℕ
  delay : ℕ
  timer : Option ℕ
  live : Bool
  spawning : Bool
  readyAt : Option Instant
  deriving DecidableEq

/-- A slot that nothing has happened to. -/
def SlotRecord.fresh (slot : SlotName) : SlotRecord := ⟨slot, 0, 0, none, false, false, none⟩

/-- A respawn that waits in the timers of the primary. -/
structure Respawn where
  key : JsString
  delay : ℕ
  deriving DecidableEq

/-- The states by key, and the timers by token. -/
structure Supervisor where
  slots : JsMap JsString SlotRecord
  timers : JsMap ℕ Respawn
  /-- The token of the next timer. -/
  tokens : ℕ

namespace Supervisor

/-- `createRestartSupervisor(options)`. -/
def create : Supervisor := ⟨.empty, .empty, 0⟩

/-- `stateOf(slot)` brings the state of a slot into being. -/
def stateOf (sup : Supervisor) (slot : SlotName) : Supervisor :=
  match sup.slots.get (keyOf slot) with
  | some _ => sup
  | none => { sup with slots := sup.slots.set (keyOf slot) (.fresh slot) }

/-- An assignment to fields of the state of a slot. -/
def assign (sup : Supervisor) (key : JsString) (f : SlotRecord → SlotRecord) : Supervisor :=
  match sup.slots.get key with
  | some s => { sup with slots := sup.slots.set key (f s) }
  | none => sup

/-- A timer of a slot is gone. -/
def dropTimer (sup : Supervisor) (key : JsString) (token : ℕ) : Supervisor :=
  { sup with timers := sup.timers.delete token }.assign key ({ · with timer := none })

/-- `cancelTimer(s)`. -/
def cancelTimer (sup : Supervisor) (key : JsString) : Supervisor :=
  match (sup.slots.get key).bind (·.timer) with
  | some token => sup.dropTimer key token
  | none => sup

/-- `schedule(s)`, with the delay it has used. -/
def schedule (sup : Supervisor) (key : JsString) (shuttingDown : Bool) : Supervisor × Option ℕ :=
  match sup.slots.get key with
  | some s =>
    if shuttingDown || s.timer.isSome then (sup, none)
    else
      (⟨sup.slots.set key { s with timer := some sup.tokens },
        sup.timers.set sup.tokens ⟨key, s.delay⟩, sup.tokens + 1⟩, some s.delay)
  | none => (sup, none)

/-- `noteSpawn(slot)`. -/
def noteSpawn (sup : Supervisor) (slot : SlotName) : Supervisor :=
  ((sup.stateOf slot).cancelTimer (keyOf slot)).assign (keyOf slot)
    ({ · with live := false, spawning := true, readyAt := none })

/-- `noteReady(slot)`. -/
def noteReady (sup : Supervisor) (slot : SlotName) (now : Instant) : Supervisor :=
  ((sup.stateOf slot).cancelTimer (keyOf slot)).assign (keyOf slot)
    ({ · with live := true, spawning := false, readyAt := some now })

/-- The state of a slot, or a fresh one. -/
def stateAt (sup : Supervisor) (slot : SlotName) : SlotRecord :=
  (sup.slots.get (keyOf slot)).getD (.fresh slot)

/-- Whether a worker has been ready for the stable window. -/
def wasStablyUp (opts : SupervisorOptions) (s : SlotRecord) (now : Instant) : Bool :=
  s.readyAt.any fun readyAt => decide (now - readyAt ≥ opts.stableMs)

/-- One attempt more, on a fresh budget after a stable worker. -/
def charge (sup : Supervisor) (key : JsString) (wasStablyUp : Bool) : Supervisor :=
  (if wasStablyUp then sup.assign key ({ · with attempts := 0, delay := 0 }) else sup).assign key
    fun s => { s with attempts := s.attempts + 1 }

/-- The backoff after another one. -/
def nextDelay (opts : SupervisorOptions) (delay : ℕ) : ℕ :=
  if delay = 0 then opts.delayBase else min (delay * 2) opts.delayMax

/-- `noteExit(slot)`. -/
def noteExit (opts : SupervisorOptions) (sup : Supervisor) (slot : SlotName) (now : Instant)
    (shuttingDown : Bool) : Supervisor × ExitOutcome :=
  let stably := wasStablyUp opts (sup.stateAt slot) now
  let down := (sup.stateOf slot).assign (keyOf slot)
    ({ · with live := false, spawning := false, readyAt := none })
  if shuttingDown then (down, .ignored)
  else
    let charged := down.charge (keyOf slot) stably
    let attempts := (charged.stateAt slot).attempts
    if attempts > opts.maxAttempts then (charged, .exhausted attempts)
    else
      let scheduled := (charged.assign (keyOf slot) fun s =>
        { s with delay := nextDelay opts s.delay }).schedule (keyOf slot) shuttingDown
      (scheduled.1,
        .restarting (scheduled.2.getD (scheduled.1.stateAt slot).delay) attempts)

/-- Whether the safety net has to schedule a slot. -/
def isDropped (opts : SupervisorOptions) (s : SlotRecord) : Bool :=
  !s.live && !s.spawning && s.timer.isNone && decide (s.attempts ≤ opts.maxAttempts)

/-- The safety net at one slot, with how many slots it has scheduled so far. -/
def backfill (opts : SupervisorOptions) (shuttingDown : Bool) (r : Supervisor × ℕ)
    (key : JsString) : Supervisor × ℕ :=
  match r.1.slots.get key with
  | some s =>
    if isDropped opts s then ((r.1.schedule key shuttingDown).1, r.2 + 1) else r
  | none => r

/-- `reconcile()`. -/
def reconcile (opts : SupervisorOptions) (sup : Supervisor) (shuttingDown : Bool) :
    Supervisor × ℕ :=
  if shuttingDown then (sup, 0)
  else sup.slots.keys.foldl (backfill opts shuttingDown) (sup, 0)

/-- `stopAll()`. -/
def stopAll (sup : Supervisor) : Supervisor := sup.slots.keys.foldl cancelTimer sup

/-- The callback of a timer, with the slot that it spawns: the spawn routine notes the spawn before
it does anything else. -/
def fire (sup : Supervisor) (token : ℕ) (shuttingDown : Bool) : Supervisor × Option SlotName :=
  match sup.timers.get token with
  | none => (sup, none)
  | some respawn =>
    let cleared := sup.dropTimer respawn.key token
    match shuttingDown, cleared.slots.get respawn.key with
    | false, some s => (cleared.noteSpawn s.slot, some s.slot)
    | _, _ => (cleared, none)

/-! ## What the operations do to a slot -/

variable {sup : Supervisor} {slot : SlotName} {key k : JsString} {s : SlotRecord} {token : ℕ}

section

variable (sup)

theorem get_assign (key k : JsString) (f : SlotRecord → SlotRecord) :
    (sup.assign key f).slots.get k =
      if key = k then (sup.slots.get k).map f else sup.slots.get k := by
  rw [assign]
  cases hget : sup.slots.get key with
  | some s =>
    simp only
    rw [JsMap.get_set]
    split_ifs with heq
    · rw [← heq, hget, map_some]
    · rfl
  | none =>
    simp only
    split_ifs with heq
    · rw [← heq, hget, map_none]
    · rfl

@[simp] theorem timers_assign (key : JsString) (f : SlotRecord → SlotRecord) :
    (sup.assign key f).timers = sup.timers := by
  rw [assign]
  split <;> rfl

@[simp] theorem tokens_assign (key : JsString) (f : SlotRecord → SlotRecord) :
    (sup.assign key f).tokens = sup.tokens := by
  rw [assign]
  split <;> rfl

theorem get_stateOf (slot : SlotName) (k : JsString) :
    (sup.stateOf slot).slots.get k =
      if keyOf slot = k then some (sup.stateAt slot) else sup.slots.get k := by
  rw [stateOf, stateAt]
  cases hget : sup.slots.get (keyOf slot) with
  | some s =>
    simp only
    split_ifs with heq
    · rw [← heq, hget, getD_some]
    · rfl
  | none =>
    simp only
    rw [JsMap.get_set, getD_none]

@[simp] theorem timers_stateOf (slot : SlotName) : (sup.stateOf slot).timers = sup.timers := by
  rw [stateOf]
  split <;> rfl

@[simp] theorem tokens_stateOf (slot : SlotName) : (sup.stateOf slot).tokens = sup.tokens := by
  rw [stateOf]
  split <;> rfl

theorem get_dropTimer (key k : JsString) (token : ℕ) :
    (sup.dropTimer key token).slots.get k =
      if key = k then (sup.slots.get k).map ({ · with timer := none }) else sup.slots.get k :=
  get_assign _ key k _

theorem timers_dropTimer (key : JsString) (token : ℕ) :
    (sup.dropTimer key token).timers = sup.timers.delete token := timers_assign _ key _

theorem get_cancelTimer (key k : JsString) :
    (sup.cancelTimer key).slots.get k =
      if key = k then (sup.slots.get k).map ({ · with timer := none }) else sup.slots.get k := by
  rw [cancelTimer]
  split
  · exact get_dropTimer ..
  · next hnone =>
    split_ifs with heq
    · subst heq
      cases hget : sup.slots.get key with
      | none => rfl
      | some s =>
        rw [hget, bind_some] at hnone
        rw [map_some, ← hnone]
    · rfl

@[simp] theorem tokens_cancelTimer (key : JsString) :
    (sup.cancelTimer key).tokens = sup.tokens := by
  rw [cancelTimer]
  split
  · exact tokens_assign ..
  · rfl

theorem timers_cancelTimer (key : JsString) (token : ℕ) :
    (sup.cancelTimer key).timers.get token =
      if (sup.slots.get key).bind (·.timer) = some token then none
      else sup.timers.get token := by
  rw [cancelTimer]
  split
  · next token' hsome =>
    rw [timers_dropTimer, JsMap.get_delete, hsome]
    simp
  · next hnone =>
    rw [hnone, if_neg (by simp)]

theorem get_noteSpawn (slot : SlotName) (k : JsString) :
    (sup.noteSpawn slot).slots.get k = if keyOf slot = k then
      some { sup.stateAt slot with timer := none, live := false, spawning := true, readyAt := none }
      else sup.slots.get k := by
  rw [noteSpawn, get_assign, get_cancelTimer, get_stateOf]
  split_ifs <;> rfl

theorem timers_noteSpawn (slot : SlotName) (token : ℕ) :
    (sup.noteSpawn slot).timers.get token =
      if (sup.stateAt slot).timer = some token then none else sup.timers.get token := by
  rw [noteSpawn, timers_assign, timers_cancelTimer, get_stateOf, if_pos rfl, timers_stateOf,
    bind_some]

@[simp] theorem tokens_noteSpawn (slot : SlotName) : (sup.noteSpawn slot).tokens = sup.tokens := by
  rw [noteSpawn, tokens_assign, tokens_cancelTimer, tokens_stateOf]

theorem get_noteReady (slot : SlotName) (now : Instant) (k : JsString) :
    (sup.noteReady slot now).slots.get k = if keyOf slot = k then
      some { sup.stateAt slot with
        timer := none, live := true, spawning := false, readyAt := some now }
      else sup.slots.get k := by
  rw [noteReady, get_assign, get_cancelTimer, get_stateOf]
  split_ifs <;> rfl

theorem timers_noteReady (slot : SlotName) (now : Instant) (token : ℕ) :
    (sup.noteReady slot now).timers.get token =
      if (sup.stateAt slot).timer = some token then none else sup.timers.get token := by
  rw [noteReady, timers_assign, timers_cancelTimer, get_stateOf, if_pos rfl, timers_stateOf,
    bind_some]

@[simp] theorem tokens_noteReady (slot : SlotName) (now : Instant) :
    (sup.noteReady slot now).tokens = sup.tokens := by
  rw [noteReady, tokens_assign, tokens_cancelTimer, tokens_stateOf]

end

/-- The state of a slot once an exit is charged. -/
def chargedRecord (opts : SupervisorOptions) (s : SlotRecord) (now : Instant) : SlotRecord :=
  { s with
    attempts := (if wasStablyUp opts s now then 0 else s.attempts) + 1
    delay := if wasStablyUp opts s now then 0 else s.delay
    live := false, spawning := false, readyAt := none }

theorem stateAt_of_get (hget : sup.slots.get (keyOf slot) = some s) : sup.stateAt slot = s := by
  rw [stateAt, hget, getD_some]

theorem get_charge (sup : Supervisor) (key k : JsString) (stably : Bool) :
    (sup.charge key stably).slots.get k = if key = k then (sup.slots.get k).map fun s => { s with
      attempts := (if stably then 0 else s.attempts) + 1
      delay := if stably then 0 else s.delay } else sup.slots.get k := by
  rw [charge, get_assign]
  cases stably with
  | true =>
    simp only [if_true, get_assign]
    by_cases hk : key = k
    · rw [if_pos hk, if_pos hk, if_pos hk, map_map]
      rfl
    · rw [if_neg hk, if_neg hk, if_neg hk]
  | false => rfl

@[simp] theorem timers_charge (sup : Supervisor) (key : JsString) (stably : Bool) :
    (sup.charge key stably).timers = sup.timers := by
  rw [charge, timers_assign]
  split_ifs
  · exact timers_assign ..
  · rfl

@[simp] theorem tokens_charge (sup : Supervisor) (key : JsString) (stably : Bool) :
    (sup.charge key stably).tokens = sup.tokens := by
  rw [charge, tokens_assign]
  split_ifs
  · exact tokens_assign ..
  · rfl

theorem schedule_of_get (hget : sup.slots.get key = some s) (htimer : s.timer = none) :
    sup.schedule key false = (⟨sup.slots.set key { s with timer := some sup.tokens },
      sup.timers.set sup.tokens ⟨key, s.delay⟩, sup.tokens + 1⟩, some s.delay) := by
  rw [schedule, hget]
  simp only
  rw [htimer]
  rfl

/-- An exit is charged, and either past the cap or followed by a respawn after the backoff. -/
theorem noteExit_cases (opts : SupervisorOptions) (now : Instant)
    (hget : sup.slots.get (keyOf slot) = some s) (htimer : s.timer = none) :
    (opts.maxAttempts < (chargedRecord opts s now).attempts ∧
      (sup.noteExit opts slot now false).2 = .exhausted (chargedRecord opts s now).attempts ∧
      (∀ k, (sup.noteExit opts slot now false).1.slots.get k =
        if keyOf slot = k then some (chargedRecord opts s now) else sup.slots.get k) ∧
      (sup.noteExit opts slot now false).1.timers = sup.timers ∧
      (sup.noteExit opts slot now false).1.tokens = sup.tokens) ∨
    ((chargedRecord opts s now).attempts ≤ opts.maxAttempts ∧
      (sup.noteExit opts slot now false).2 =
        .restarting (nextDelay opts (chargedRecord opts s now).delay)
          (chargedRecord opts s now).attempts ∧
      (∀ k, (sup.noteExit opts slot now false).1.slots.get k =
        if keyOf slot = k then some { chargedRecord opts s now with
          delay := nextDelay opts (chargedRecord opts s now).delay
          timer := some sup.tokens } else sup.slots.get k) ∧
      (sup.noteExit opts slot now false).1.timers = sup.timers.set sup.tokens
        ⟨keyOf slot, nextDelay opts (chargedRecord opts s now).delay⟩ ∧
      (sup.noteExit opts slot now false).1.tokens = sup.tokens + 1) := by
  have hcharged : ∀ k, (((sup.stateOf slot).assign (keyOf slot)
      ({ · with live := false, spawning := false, readyAt := none })).charge (keyOf slot)
        (wasStablyUp opts s now)).slots.get k =
      if keyOf slot = k then some (chargedRecord opts s now) else sup.slots.get k := by
    intro k
    rw [get_charge, get_assign, get_stateOf, stateAt_of_get hget]
    by_cases hk : keyOf slot = k
    · rw [if_pos hk, if_pos hk, if_pos hk, if_pos hk]
      rfl
    · rw [if_neg hk, if_neg hk, if_neg hk, if_neg hk]
  have hself := (hcharged (keyOf slot)).trans (if_pos rfl)
  rw [noteExit, stateAt_of_get hget]
  simp only [Bool.false_eq_true, if_false]
  rw [stateAt_of_get hself]
  by_cases hcap : (chargedRecord opts s now).attempts > opts.maxAttempts
  · left
    rw [if_pos hcap]
    refine ⟨hcap, rfl, hcharged, ?_, ?_⟩
    · rw [timers_charge, timers_assign, timers_stateOf]
    · rw [tokens_charge, tokens_assign, tokens_stateOf]
  · right
    rw [if_neg hcap]
    have hbacked : ∀ k, ((((sup.stateOf slot).assign (keyOf slot)
        ({ · with live := false, spawning := false, readyAt := none })).charge (keyOf slot)
          (wasStablyUp opts s now)).assign (keyOf slot) fun s =>
            { s with delay := nextDelay opts s.delay }).slots.get k =
        if keyOf slot = k then some { chargedRecord opts s now with
          delay := nextDelay opts (chargedRecord opts s now).delay } else sup.slots.get k := by
      intro k
      rw [get_assign, hcharged]
      split_ifs <;> rfl
    rw [schedule_of_get ((hbacked _).trans (if_pos rfl)) htimer]
    refine ⟨not_lt.mp hcap, rfl, fun k => ?_, ?_, ?_⟩
    · simp only
      rw [JsMap.get_set, hbacked, tokens_assign, tokens_charge, tokens_assign, tokens_stateOf]
      split_ifs <;> rfl
    · simp only
      rw [timers_assign, timers_charge, timers_assign, timers_stateOf, tokens_assign,
        tokens_charge, tokens_assign, tokens_stateOf]
    · simp only
      rw [tokens_assign, tokens_charge, tokens_assign, tokens_stateOf]

/-- Where no slot is dropped, the safety net does nothing. -/
theorem reconcile_eq (opts : SupervisorOptions) (shuttingDown : Bool)
    (hnone : ∀ k s, sup.slots.get k = some s → isDropped opts s = false) :
    sup.reconcile opts shuttingDown = (sup, 0) := by
  have hfold : ∀ (keys : List JsString) (n : ℕ),
      keys.foldl (backfill opts shuttingDown) (sup, n) = (sup, n) := by
    intro keys n
    induction keys with
    | nil => rfl
    | cons k keys ih =>
      have hstep : backfill opts shuttingDown (sup, n) k = (sup, n) := by
        rw [backfill]
        cases hget : sup.slots.get k with
        | none => rfl
        | some s => exact if_neg (by simp [hnone k s hget])
      rw [List.foldl_cons, hstep, ih]
  rw [reconcile]
  split_ifs
  · rfl
  · exact hfold _ 0

theorem fire_of_get {delay : ℕ} (htoken : sup.timers.get token = some ⟨keyOf slot, delay⟩)
    (hget : sup.slots.get (keyOf slot) = some s) (hslot : s.slot = slot) :
    sup.fire token false = ((sup.dropTimer (keyOf slot) token).noteSpawn slot, some slot) := by
  rw [fire, htoken]
  simp only
  rw [get_dropTimer, if_pos rfl, hget, map_some]
  simp only
  rw [hslot]

/-! ## The budget of a slot -/

end Supervisor

/-- The budget of a slot, with the time its respawn is due. -/
def SlotRecord.budget (s : SlotRecord) (due : Option Instant) : SlotState :=
  ⟨s.attempts, s.delay, due, s.live, s.spawning, s.readyAt⟩

namespace Supervisor

variable {sup : Supervisor} {slot : SlotName} {s : SlotRecord}

end Supervisor

end AdapterWs.Cluster
