import AdapterWs.Lib.JsMap
import AdapterWs.Lib.JsString
import AdapterWs.Lib.Machine

/-!
# The bounded sequence registries

`seqMap` holds the counter of every topic a worker numbers, `seenMap` the highest number it saw
of a topic. `createSeqBound` keeps both under a capacity by forgetting topics. The counter of a
forgotten topic survives as a floor under the topic's hash, and once the floors overflow as one
high-water mark. A number that a topic draws again starts above both.
-/

namespace AdapterWs.SeqBound

open JsString

/-- FNV-1a over the units of a topic. -/
def fnv32 (topic : JsString) : UInt32 :=
  topic.foldl (fun h c => (h ^^^ c.toUInt32) * 0x01000193) 0x811c9dc5

/-- The bounds of the registries. -/
structure BoundConfig where
  /-- The topics a registry may hold, or `0` for no bound. -/
  capacity : ℕ
  /-- The floors that may be carried. -/
  floorCap : ℕ
  /-- The entries one pass of a sweep inspects. -/
  scanLimit : ℕ

/-- What the probes say while a call runs. -/
structure Judgement where
  /-- The quiet probe: the reporter has judged the topic quiet. -/
  quiet : JsString → Bool
  /-- A topic with subscribers or an open resume buffer. -/
  isProtected : JsString → Bool

/-- The two registries. -/
inductive Registry
  | seq
  | seen
  deriving DecidableEq

/-- The over-cap inserts that are let through after a sweep finds nothing. -/
def BLOCKED_BACKOFF : ℕ := 16

/-- The registries of one worker and the bound over them. -/
structure Registries where
  seqMap : JsMap JsString ℕ
  seenMap : JsMap JsString ℤ
  /-- The highest forgotten counter of each hash. -/
  floors : JsMap UInt32 ℕ
  /-- The highest counter no floor names any more. -/
  highWater : ℕ
  quietProbe : Bool
  blockedSkipSeq : ℕ
  blockedSkipSeen : ℕ
  /-- Whether a number was recorded that this worker did not stamp. -/
  foreignSeqRecorded : Bool
  /-- The sizes reported to `onOverCap`. -/
  overCaps : List ℕ

namespace Registries

/-- Two maps, before any call. -/
def start (seqMap : JsMap JsString ℕ) (seenMap : JsMap JsString ℤ) : Registries :=
  ⟨seqMap, seenMap, JsMap.empty, 0, false, 0, 0, false, []⟩

/-- `floorOf(topic)`. -/
def floorOf (s : Registries) (topic : JsString) : ℕ :=
  match if s.floors.size = 0 then none else s.floors.get (fnv32 topic) with
  | some exact => if s.highWater < exact then exact else s.highWater
  | none => s.highWater

/-- Absorb the floors into the mark. -/
def absorb (s : Registries) : Registries :=
  { s with
    highWater := s.floors.entries.foldl (fun mark e => if mark < e.2 then e.2 else mark) s.highWater
    floors := JsMap.empty }

/-- Raise the floor of a hash. -/
def raiseFloor (floors : JsMap UInt32 ℕ) (key : UInt32) (lastSeq : ℕ) : JsMap UInt32 ℕ :=
  match floors.get key with
  | none => floors.set key lastSeq
  | some prev => if prev < lastSeq then floors.set key lastSeq else floors

/-- Carry the counter of a forgotten topic. -/
def recordFloor (cfg : BoundConfig) (s : Registries) (topic : JsString) (lastSeq : ℕ) :
    Registries :=
  let floors := raiseFloor s.floors (fnv32 topic) lastSeq
  if cfg.floorCap < floors.size then absorb { s with floors := floors }
  else { s with floors := floors }

/-- Forget one topic in both registries. -/
def evict (cfg : BoundConfig) (s : Registries) (topic : JsString) : Registries :=
  let s :=
    match s.seqMap.get topic with
    | some last =>
      let s := s.recordFloor cfg topic last
      { s with seqMap := s.seqMap.delete topic }
    | none => s
  { s with seenMap := s.seenMap.delete topic }

/-- The topics of a registry, in its order. -/
def topics (s : Registries) : Registry → List JsString
  | .seq => s.seqMap.keys
  | .seen => s.seenMap.keys

/-- The size of a registry. -/
def size (s : Registries) : Registry → ℕ
  | .seq => s.seqMap.size
  | .seen => s.seenMap.size

/-- The walk of one pass: what it passes over, and its victim. -/
def walk (skip : JsString → Bool) (admitted : JsString) :
    List JsString → ℕ → List JsString → List JsString × Option JsString
  | [], _, passedOver => (passedOver, none)
  | candidate :: rest, budget, passedOver =>
    if candidate = admitted then walk skip admitted rest budget passedOver
    else
      match budget with
      | 0 => (passedOver, none)
      | budget + 1 =>
        if skip candidate = true then walk skip admitted rest budget (passedOver ++ [candidate])
        else (passedOver, some candidate)

/-- Move an entry to the tail. -/
def rotateOne {V : Type} (m : JsMap JsString V) (topic : JsString) : JsMap JsString V :=
  match m.get topic with
  | some value => (m.delete topic).set topic value
  | none => m

/-- Move what was passed over to the tail of its registry. -/
def rotate (s : Registries) (passedOver : List JsString) : Registry → Registries
  | .seq => { s with seqMap := passedOver.foldl rotateOne s.seqMap }
  | .seen => { s with seenMap := passedOver.foldl rotateOne s.seenMap }

/-- Whether a candidate is passed over. -/
def skips (s : Registries) (j : Judgement) (topic : JsString) : Bool :=
  s.quietProbe && !j.quiet topic || j.isProtected topic

/-- The passes of a sweep that are left. -/
def sweep (cfg : BoundConfig) (j : Judgement) (r : Registry) (admitted : JsString) :
    ℕ → Registries → Bool × Registries
  | 0, s => (false, s)
  | passes + 1, s =>
    let (passedOver, victim) := walk (s.skips j) admitted (s.topics r) cfg.scanLimit []
    let s := s.rotate passedOver r
    match victim with
    | some victim => (true, s.evict cfg victim)
    | none => if passedOver = [] then (false, s) else sweep cfg j r admitted passes s

/-- Sweep the front of a registry for a victim. -/
def evictOldestUnprotected (cfg : BoundConfig) (j : Judgement) (r : Registry) (s : Registries)
    (admitted : JsString) : Bool × Registries :=
  sweep cfg j r admitted 2 s

/-- The over-cap inserts still to let through. -/
def blockedSkip (s : Registries) : Registry → ℕ
  | .seq => s.blockedSkipSeq
  | .seen => s.blockedSkipSeen

def setBlockedSkip (s : Registries) (n : ℕ) : Registry → Registries
  | .seq => { s with blockedSkipSeq := n }
  | .seen => { s with blockedSkipSeen := n }

/-- Report a registry over its capacity. -/
def onOverCap (s : Registries) (r : Registry) : Registries :=
  { s with overCaps := s.overCaps ++ [s.size r] }

/-- Enforce the capacity after a new topic entered a registry. -/
def enforce (cfg : BoundConfig) (j : Judgement) (r : Registry) (s : Registries)
    (topic : JsString) : Registries :=
  if cfg.capacity = 0 ∨ s.size r ≤ cfg.capacity then s
  else if 0 < s.blockedSkip r then (s.setBlockedSkip (s.blockedSkip r - 1) r).onOverCap r
  else
    match evictOldestUnprotected cfg j r s topic with
    | (true, s) => s
    | (false, s) => (s.setBlockedSkip BLOCKED_BACKOFF r).onOverCap r

/-- `onInsert(topic)`. -/
def onInsert (cfg : BoundConfig) (j : Judgement) (s : Registries) (topic : JsString) : Registries :=
  enforce cfg j .seq s topic

/-- `onSeenInsert(topic)`. -/
def onSeenInsert (cfg : BoundConfig) (j : Judgement) (s : Registries) (topic : JsString) :
    Registries :=
  enforce cfg j .seen s topic

/-- Record a number in `seenMap` that is higher than the one there. -/
def raiseSeen (cfg : BoundConfig) (j : Judgement) (s : Registries) (topic : JsString) (seq : ℤ) :
    Registries :=
  match s.seenMap.get topic with
  | none => { s with seenMap := s.seenMap.set topic seq }.onSeenInsert cfg j topic
  | some prev => if prev < seq then { s with seenMap := s.seenMap.set topic seq } else s

/-- Record a number that another authority issued. -/
def recordSeen (cfg : BoundConfig) (j : Judgement) (s : Registries) (topic : JsString) (seq : ℤ) :
    Registries :=
  { s with foreignSeqRecorded := true }.raiseSeen cfg j topic seq

/-- Record a number that a counter just gave out. -/
def recordStampedSeen (cfg : BoundConfig) (j : Judgement) (s : Registries) (topic : JsString)
    (seq : ℤ) : Registries :=
  if s.foreignSeqRecorded = true then s.raiseSeen cfg j topic seq
  else
    let before := s.seenMap.size
    let s := { s with seenMap := s.seenMap.set topic seq }
    if s.seenMap.size ≠ before then s.onSeenInsert cfg j topic else s

end Registries

/-- The `seq` option of a publish. -/
inductive SeqOption
  | undefined
  | null
  | bool (b : Bool)
  /-- A number, `none` for one that is no integer. -/
  | number (n : Option ℤ)
  | bigint (n : ℤ)
  /-- A value of another type. -/
  | other
  deriving DecidableEq

/-- Why an option cannot be stamped. -/
inductive SeqError
  | uncarryableSeq
  | invalidSeq
  deriving DecidableEq

/-- `Number.MAX_SAFE_INTEGER`. -/
def MAX_SAFE_INTEGER : ℤ := 9007199254740991

/-- Validate an explicit integer. -/
def explicitSeqValue : Option ℤ → Except SeqError ℕ
  | none => .error .invalidSeq
  | some n =>
    if n < 1 then .error .invalidSeq
    else if n ≤ MAX_SAFE_INTEGER then .ok n.toNat
    else .error .uncarryableSeq

namespace Registries

/-- Draw the next number of a topic. -/
def drawCounter (cfg : BoundConfig) (j : Judgement) (s : Registries) (topic : JsString) :
    ℕ × Registries :=
  match s.seqMap.get topic with
  | some current =>
    let next := current + 1
    (next, { s with seqMap := s.seqMap.set topic next })
  | none =>
    let next := s.floorOf topic + 1
    (next, { s with seqMap := s.seqMap.set topic next }.onInsert cfg j topic)

/-- `stampSeqValue(opt, seqMap, topic, bound)`. -/
def stampSeqValue (cfg : BoundConfig) (j : Judgement) (opt : SeqOption) (s : Registries)
    (topic : JsString) : Except SeqError (Option ℕ) × Registries :=
  match opt with
  | .null | .bool false => (.ok none, s)
  | .number n => ((explicitSeqValue n).map some, s)
  | .bigint n => ((explicitSeqValue (some n)).map some, s)
  | .other => (.error .invalidSeq, s)
  | .undefined | .bool true =>
    let (next, s) := s.drawCounter cfg j topic
    (.ok (some next), s)

end Registries

/-- What is called. -/
inductive SeqEvent
  | stamp (j : Judgement) (opt : SeqOption) (topic : JsString)
  | recordSeen (j : Judgement) (topic : JsString) (seq : ℤ)
  | recordStampedSeen (j : Judgement) (topic : JsString) (seq : ℤ)
  | useQuietProbe

/-- The counter values among the answers of `stampSeqValue`. -/
def counterValue : SeqOption → Except SeqError (Option ℕ) → Option ℕ
  | .undefined, .ok n | .bool true, .ok n => n
  | _, _ => none

/-- A worker's registries and the numbers its counters gave out. -/
structure Numbering where
  registries : Registries
  /-- Every number, with its topic, oldest first. -/
  issued : List (JsString × ℕ)

/-- One worker's registries over two maps. -/
def seqMachine (cfg : BoundConfig) (seqMap : JsMap JsString ℕ) (seenMap : JsMap JsString ℤ) :
    Machine Numbering SeqEvent where
  init := ⟨.start seqMap seenMap, []⟩
  step s
    | .stamp j opt topic =>
      let (answer, registries) := s.registries.stampSeqValue cfg j opt topic
      some ⟨registries,
        s.issued ++ ((counterValue opt answer).map fun n => (topic, n)).toList⟩
    | .recordSeen j topic seq =>
      some { s with registries := s.registries.recordSeen cfg j topic seq }
    | .recordStampedSeen j topic seq =>
      some { s with registries := s.registries.recordStampedSeen cfg j topic seq }
    | .useQuietProbe => some { s with registries := { s.registries with quietProbe := true } }

end AdapterWs.SeqBound
