import AdapterWs.Lib.Decimal
import AdapterWs.Lib.OwnProperties
import Mathlib.Algebra.BigOperators.Group.List.Basic

/-!
# Active topics and their hash

A worker splits its delivered maxima into the topics whose maximum has changed within some ticks and
the quiet ones, and hashes both parts. The parts are plain objects, so a topic that is named as the
prototype of an object is in neither.
-/

namespace AdapterWs.StateHash

open JsString OwnProperties Option JsMap

variable {N : Type} [DecidableEq N] {o o' : List (JsString × N)}

/-! ## Hashes -/

/-- `fnvStr(h, str)`, on the bits of `h`. -/
def fnvStr (h : UInt32) (str : JsString) : UInt32 :=
  str.foldl (fun h c => (h ^^^ c.toUInt32) * 16777619) h

def FNV_OFFSET : UInt32 := 2166136261

/-- The digest of a topic with its seq. -/
def entryDigest (text : N → JsString) (p : JsString × N) : UInt32 :=
  fnvStr (fnvStr FNV_OFFSET p.1) (unit ':' :: text p.2)

/-- `computeStateHash({ topicSeqs })` of the own properties of an object, where seqs have a text. -/
def computeStateHash (text : N → JsString) (topicSeqs : List (JsString × N)) : UInt32 :=
  topicSeqs.foldl (fun acc p => acc + entryDigest text p)
    (fnvStr FNV_OFFSET (lit "t:" ++ JsString.decimal topicSeqs.length))

/-- The name of the prototype of an object. -/
def protoKey : JsString := lit "__proto__"

/-- `o[key] = v` on a plain object, of a number: where the key names the prototype, nothing. -/
def assignProperty (key : JsString) (v : N) (o : List (JsString × N)) : List (JsString × N) :=
  if key = protoKey then o else define key v o

/-- The maps that a worker keeps between ticks. -/
structure Tracking (N : Type) where
  prevSeqs : JsMap JsString N
  lastChangedTick : JsMap JsString ℕ

/-- The two parts. -/
structure Split (N : Type) where
  active : List (JsString × N)
  quiet : List (JsString × N)

/-- One topic of the loop. -/
def sight (tick windowTicks : ℕ) (s : Split N × Tracking N) (p : JsString × N) :
    Split N × Tracking N :=
  let tracking : Tracking N :=
    if s.2.prevSeqs.get p.1 = some p.2 then s.2
    else ⟨s.2.prevSeqs.set p.1 p.2, s.2.lastChangedTick.set p.1 tick⟩
  match tracking.lastChangedTick.get p.1 with
  | some changedAt =>
    if tick ≤ changedAt + windowTicks then
      (⟨assignProperty p.1 p.2 s.1.active, s.1.quiet⟩, tracking)
    else (⟨s.1.active, assignProperty p.1 p.2 s.1.quiet⟩, tracking)
  | none => (⟨s.1.active, assignProperty p.1 p.2 s.1.quiet⟩, tracking)

/-- The maps follow the membership of the live map. -/
def prune (current : JsMap JsString N) (tracking : Tracking N) : Tracking N :=
  if tracking.prevSeqs.size > current.size then
    tracking.prevSeqs.keys.foldl (fun t topic =>
      if (current.get topic).isSome then t
      else ⟨t.prevSeqs.delete topic, t.lastChangedTick.delete topic⟩) tracking
  else tracking

/-- `partitionActiveTopics(current, prevSeqs, lastChangedTick, tick, windowTicks)`. -/
def partitionActiveTopics (current : JsMap JsString N) (tracking : Tracking N)
    (tick windowTicks : ℕ) : Split N × Tracking N :=
  let looped := current.entries.foldl (sight tick windowTicks) (⟨[], []⟩, tracking)
  (looped.1, prune current looped.2)

/-! ## What the parts should be -/

/-- When a topic has last changed, with its seq now. -/
def changedAt (tracking : Tracking N) (tick : ℕ) (topic : JsString) (seq : N) : Option ℕ :=
  if tracking.prevSeqs.get topic = some seq then tracking.lastChangedTick.get topic else some tick

/-- Whether a topic has changed, or was first seen, within the last ticks. -/
def isRecent (tracking : Tracking N) (tick windowTicks : ℕ) (topic : JsString) (seq : N) : Bool :=
  (changedAt tracking tick topic seq).any fun changed => decide (tick ≤ changed + windowTicks)

/-- Every topic is in the part it belongs to, and the maps are those of the live topics. -/
structure Partitioned (current : JsMap JsString N) (tracking : Tracking N)
    (tick windowTicks : ℕ) (out : Split N × Tracking N) : Prop where
  active_eq : ∀ topic, JsMap.lookup topic out.1.active =
    (current.get topic).filter fun seq => isRecent tracking tick windowTicks topic seq
  quiet_eq : ∀ topic, JsMap.lookup topic out.1.quiet =
    (current.get topic).filter fun seq => !isRecent tracking tick windowTicks topic seq
  prevSeqs_eq : ∀ topic, out.2.prevSeqs.get topic = current.get topic
  keys_eq : ∀ topic, (out.2.lastChangedTick.get topic).isSome = (current.get topic).isSome

/-! ## The loop -/

variable {current : JsMap JsString N} {tracking : Tracking N} {tick windowTicks : ℕ}
  {l : List (JsString × N)} {out : Split N × Tracking N}

section

variable (current) (tracking) (tick windowTicks)

end

/-- Every topic is in the part that it belongs to and the maps are those of the live topics, another
worker with the same maps reports the same hashes, and one that lacks a topic does not hash the same
pairs. -/
structure Faithful (text : N → JsString) (current : JsMap JsString N) (tracking : Tracking N)
    (tick windowTicks : ℕ) : Prop where
  partitioned : Partitioned current tracking tick windowTicks
    (partitionActiveTopics current tracking tick windowTicks)
  agree : ∀ (current' : JsMap JsString N) (tracking' : Tracking N),
    (∀ topic, current'.get topic = current.get topic) →
    (∀ topic, tracking'.prevSeqs.get topic = tracking.prevSeqs.get topic) →
    (∀ topic, tracking'.lastChangedTick.get topic = tracking.lastChangedTick.get topic) →
    computeStateHash text (partitionActiveTopics current' tracking' tick windowTicks).1.active =
      computeStateHash text (partitionActiveTopics current tracking tick windowTicks).1.active ∧
    computeStateHash text (partitionActiveTopics current' tracking' tick windowTicks).1.quiet =
      computeStateHash text (partitionActiveTopics current tracking tick windowTicks).1.quiet
  absent : ∀ (current' : JsMap JsString N) (tracking' : Tracking N) (tick' : ℕ) (topic : JsString),
    (current.get topic).isSome = true → current'.get topic = none →
    ¬((partitionActiveTopics current' tracking' tick' windowTicks).1.active.Perm
        (partitionActiveTopics current tracking tick windowTicks).1.active ∧
      (partitionActiveTopics current' tracking' tick' windowTicks).1.quiet.Perm
        (partitionActiveTopics current tracking tick windowTicks).1.quiet)

end AdapterWs.StateHash
