import Mathlib.Data.Int.Basic

/-!
# Prediction with server-authoritative reconciliation

The simulation part of the predictor: the authoritative base, the commands not yet acknowledged,
and the prediction that replays them on the base.
-/

namespace AdapterWs.Smooth

/-- The options of a predictor. -/
structure PredictorOptions (S C : Type) where
  apply : S → C → S
  initial : S
  windowCap : ℕ
  windowMaxAgeMs : ℤ

/-- A command that was not acknowledged yet. -/
structure Pending (C : Type) where
  id : ℕ
  cmd : C
  sentMono : ℤ

/-- The state of a predictor. -/
structure Predictor (S C : Type) where
  /-- The last authoritative state. -/
  base : S
  /-- What the owner renders. -/
  predicted : S
  lastAckedId : ℕ
  nextId : ℕ
  /-- The window, oldest first. -/
  pending : List (Pending C)
  overflowed : Bool

namespace Predictor

variable {S C : Type}

/-- `createPredictor(options)`. -/
def create (o : PredictorOptions S C) : Predictor S C := ⟨o.initial, o.initial, 0, 1, [], false⟩

/-- `killPrediction()`. -/
def killPrediction (p : Predictor S C) : Predictor S C :=
  { p with pending := [], predicted := p.base, overflowed := true }

/-- The oldest command of the window is older than the bound. -/
def expired (o : PredictorOptions S C) (p : Predictor S C) (monoNow : ℤ) : Bool :=
  match p.pending with
  | [] => false
  | e :: _ => decide (o.windowMaxAgeMs < monoNow - e.sentMono)

/-- `command(cmd, monoNow)`. -/
def command (o : PredictorOptions S C) (p : Predictor S C) (cmd : C) (monoNow : ℤ) :
    ℕ × Predictor S C :=
  let id := p.nextId
  let p := { p with nextId := id + 1 }
  if p.overflowed then (id, p)
  else if o.windowCap ≤ p.pending.length ∨ p.expired o monoNow = true then (id, p.killPrediction)
  else
    (id, { p with
      pending := p.pending ++ [⟨id, cmd, monoNow⟩]
      predicted := o.apply p.predicted cmd })

/-- Replay a window on a state. -/
def replay (o : PredictorOptions S C) (state : S) (pending : List (Pending C)) : S :=
  pending.foldl (fun s e => o.apply s e.cmd) state

/-- `ack(ackedId, state, monoNow)`: the send time of the acknowledged command, if it was in the
window, or `none` where the acknowledgement is ignored. -/
def ack (o : PredictorOptions S C) (p : Predictor S C) (ackedId : ℕ) (state : S) :
    Option (Option ℤ × Predictor S C) :=
  if ackedId ≤ p.lastAckedId ∨ p.nextId ≤ ackedId then none
  else if p.overflowed then
    some (none, { p with
      lastAckedId := ackedId
      base := state
      predicted := state
      overflowed := false })
  else
    let pending := p.pending.dropWhile fun e => e.id ≤ ackedId
    some ((p.pending.find? fun e => e.id = ackedId).map Pending.sentMono,
      { p with
        lastAckedId := ackedId
        base := state
        pending := pending
        predicted := replay o state pending })

/-- `sync(state, ackedId)`. -/
def sync (p : Predictor S C) (state : S) (ackedId : ℕ) : Predictor S C :=
  { p with
    base := state
    predicted := state
    lastAckedId := min ackedId (p.nextId - 1)
    pending := []
    overflowed := false }

/-- `rebase(state)`, or `none` while a command awaits its acknowledgement. -/
def rebase (p : Predictor S C) (state : S) : Option (Predictor S C) :=
  if p.pending = [] then some { p with base := state, predicted := state } else none

/-- `checkOverflow(monoNow)`; the answer is the `overflowed` of the result. -/
def checkOverflow (o : PredictorOptions S C) (p : Predictor S C) (monoNow : ℤ) : Predictor S C :=
  if p.overflowed = false ∧ p.expired o monoNow = true then p.killPrediction else p

end Predictor
end AdapterWs.Smooth
