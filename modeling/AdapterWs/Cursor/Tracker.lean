import AdapterWs.Lib.Machine
import AdapterWs.Lib.Nearest

/-!
# The cursor tracker

A move of a cursor is broadcast at once or at the end of the cursor's throttle window. With
`minMove` one that is near the last position broadcast is dropped, and a debounced timer sends the
position at rest. A broadcast waits for the next tick of its topic where topics are throttled.

The tracker is here that of one connection and one topic, which are never evicted. A timer may fire
at any time while it is armed, so the delays are left out. `update` is given two readings of the
clock, its own and that of `broadcast`.
-/

namespace AdapterWs.Cursor

open Binary64

/-- What `position` returns. -/
structure Point where
  x : ℚ
  y : ℚ
deriving DecidableEq

/-- The options of `createCursor` that `update` reads. A payload is taken if it is within
`maxDataBytes` and `MAX_PROJECTION_DEPTH`. -/
structure CursorOptions (D : Type) where
  throttle : ℚ
  topicThrottle : ℚ
  minMove : ℚ
  /-- `finitePosition(data)`. -/
  finitePosition : D → Option Point
  takes : D → Bool
  throttle_nonneg : 0 ≤ throttle
  topicThrottle_nonneg : 0 ≤ topicThrottle
  minMove_nonneg : 0 ≤ minMove

/-- The payload of a call, with the number of the call, which the tracker does not read. -/
structure Move (D : Type) where
  call : ℕ
  data : D

/-- A cursor on a topic, and whether its timers are armed. -/
structure CursorEntry (D : Type) where
  data : Move D
  lastBroadcast : ℚ
  timer : Bool
  lastSentPos : Option Point
  settleTimer : Bool

/-- `topicFlush`: the broadcast of the cursor that waits for the tick. -/
structure TopicFlush (D : Type) where
  dirty : Option (Move D)
  lastFlush : ℚ

/-- The tracker, the payloads it was given and the broadcasts that left it, newest first. -/
structure CursorTracker (D : Type) where
  entry : Option (CursorEntry D)
  topicFlush : Option (TopicFlush D)
  /-- The topic is one of `dirtyTopics`. -/
  dirtyTopic : Bool
  tickTimer : Bool
  clock : ℚ
  received : List D
  sent : List (Move D)

variable {D : Type}

/-- Whether the jitter filter drops a position. -/
def CursorOptions.drops (o : CursorOptions D) : Option Point → Option Point → Bool
  | some pos, some lastSentPos =>
    decide (max |nearest (pos.x - lastSentPos.x)| |nearest (pos.y - lastSentPos.y)| < o.minMove)
  | _, _ => false

/-- The position the jitter filter reads, if there is one. -/
def CursorOptions.posOf (o : CursorOptions D) (data : D) : Option Point :=
  if 0 < o.minMove then o.finitePosition data else none

namespace CursorTracker

/-- `broadcast(topic, key, data)`. -/
def broadcast (o : CursorOptions D) (t : CursorTracker D) (move : Move D) (now : ℚ) :
    CursorTracker D :=
  if o.topicThrottle ≤ 0 then { t with clock := now, sent := move :: t.sent }
  else
    let state := t.topicFlush.getD ⟨none, nearest (now - o.topicThrottle)⟩
    { t with
      clock := now
      topicFlush := some { state with dirty := some move }
      dirtyTopic := true
      tickTimer := true }

/-- `update(ws, topic, data)`. -/
def update (o : CursorOptions D) (t : CursorTracker D) (data : D) (now later : ℚ) :
    CursorTracker D :=
  if !o.takes data then { t with clock := now }
  else
    let move := ⟨t.received.length, data⟩
    let t := { t with clock := now, received := data :: t.received }
    let entry := t.entry.getD ⟨move, 0, false, none, false⟩
    let entry := if 0 < o.minMove then { entry with settleTimer := false } else entry
    let pos := o.posOf data
    if o.drops pos entry.lastSentPos then
      -- the trailing broadcast sends the position at rest where it is pending
      { t with entry := some { entry with data := move, settleTimer := !entry.timer } }
    else if o.throttle ≤ nearest (now - entry.lastBroadcast) then
      { t with
        entry := some { entry with
          data := move
          timer := false
          lastBroadcast := now
          lastSentPos := pos <|> entry.lastSentPos } }.broadcast o move later
    else { t with entry := some { entry with data := move, timer := true } }

/-- The trailing timer. -/
def trailing (o : CursorOptions D) (t : CursorTracker D) (e : CursorEntry D) (now later : ℚ) :
    CursorTracker D :=
  { t with
    entry := some { e with
      lastBroadcast := now
      timer := false
      lastSentPos := o.posOf e.data.data <|> e.lastSentPos } }.broadcast o e.data later

/-- The settle timer. -/
def settle (o : CursorOptions D) (t : CursorTracker D) (e : CursorEntry D) (now later : ℚ) :
    CursorTracker D :=
  let e := { e with settleTimer := false }
  let p := o.finitePosition e.data.data
  if p.isSome ∧ p ≠ e.lastSentPos then
    { t with entry := some { e with lastBroadcast := now, lastSentPos := p } }.broadcast o e.data
      later
  else { t with clock := now, entry := some e }

/-- `tick()`. -/
def tick (o : CursorOptions D) (t : CursorTracker D) (now : ℚ) : CursorTracker D :=
  let t := { t with clock := now, tickTimer := false }
  if !t.dirtyTopic then t
  else
    match t.topicFlush with
    | none => { t with dirtyTopic := false }
    | some state =>
      match state.dirty with
      | none => { t with dirtyTopic := false }
      | some move =>
        let deadline := nearest (state.lastFlush + o.topicThrottle)
        if deadline ≤ now then
          let drift := nearest (now - deadline)
          { t with
            sent := move :: t.sent
            dirtyTopic := false
            topicFlush :=
              some ⟨none, if drift < o.topicThrottle then deadline else now⟩ }
        else { t with tickTimer := true }

end CursorTracker

/-! ## Runs -/

/-- A call of `update`, or a timer that fires, with the readings of the clock. -/
inductive TrackerEvent (D : Type)
  | update (data : D) (now later : ℚ)
  | trailing (now later : ℚ)
  | settle (now later : ℚ)
  | tick (now : ℚ)

/-- One step, on a clock that does not go back. -/
def CursorTracker.step (o : CursorOptions D) (t : CursorTracker D) :
    TrackerEvent D → Option (CursorTracker D)
  | .update data now later =>
    if t.clock ≤ now ∧ now ≤ later then some (t.update o data now later) else none
  | .trailing now later =>
    t.entry.bind fun e =>
      if e.timer ∧ t.clock ≤ now ∧ now ≤ later then some (t.trailing o e now later) else none
  | .settle now later =>
    t.entry.bind fun e =>
      if e.settleTimer ∧ t.clock ≤ now ∧ now ≤ later then some (t.settle o e now later) else none
  | .tick now => if t.tickTimer ∧ t.clock ≤ now then some (t.tick o now) else none

/-- One tracker, created at a time. -/
def cursorTrackerMachine (o : CursorOptions D) (clock : ℚ) :
    Machine (CursorTracker D) (TrackerEvent D) where
  init := ⟨none, none, false, false, clock, [], []⟩
  step t e := t.step o e

end AdapterWs.Cursor
