import Mathlib
import AdapterWs.Lib.JsMap
import AdapterWs.Lib.NatRange

/-!
# Relay loss detection: the stream tracker

One worker stamps a dense ordinal on every frame it relays for a topic, and a receiver keeps
one `OriginStream` per (topic, origin) to see which ordinals never came. `recordOriginStream`
folds one arrival into the tracker and `takeConfirmedGaps` takes the holes that have outlived
the grace.

The tracker is the watermark `w`, the highest arrival `hi`, and a bounded memory of what
arrived above the first hole: at most `maxPendingAbove` exact ordinals in `above`, and as many
merged ranges in `aboveRanges`. Once a delivered ordinal has been forgotten, `saturated` is
set and `forgottenFloor` is the lowest forgotten one.
-/

namespace AdapterWs.Relay

open NatRange

/-- How many ordinals above an open hole the exact buffer retains, and how many ranges. -/
def maxPendingAbove : ℕ := 64

/-- How long an open hole must persist before it counts as a real drop, in milliseconds. -/
def gapConfirmMs : ℚ := 1000

/-- The tracker of one (topic, origin) stream. -/
structure OriginStream where
  /-- Everything at or below the watermark is accounted for. -/
  w : ℕ
  /-- The highest ordinal that arrived. -/
  hi : ℕ
  /-- The exact buffer above the hole; `none` is `null`, a contiguous stream. -/
  above : Option (Finset ℕ)
  /-- The cached maximum of `above`; `⊥` is `-Infinity`. -/
  aboveMax : WithBot ℕ
  /-- The delivered ordinals that no longer fit in `above`. -/
  aboveRanges : List (ℕ × ℕ)
  /-- Whether a delivered ordinal has been forgotten. -/
  saturated : Bool
  /-- The lowest forgotten ordinal; `⊤` is `Infinity`. -/
  forgottenFloor : WithTop ℕ
  /-- When the blocking hole became the blocking one; 0 when there is no hole. -/
  holeSince : ℚ
  deriving DecidableEq

/-- One report of `takeConfirmedGaps`, without the stream's names. -/
structure LostRange where
  /-- The first missing ordinal, `from`. -/
  first : ℕ
  /-- The last missing ordinal, `to`. -/
  last : ℕ
  /-- The number of frames proven lost. -/
  count : ℕ
  deriving DecidableEq

/-- One report of `takeConfirmedGaps`. -/
structure Gap (Topic : Type) extends LostRange where
  /-- The topic the lost frames were published on. -/
  topic : Topic
  /-- The thread that sent them. -/
  origin : ℕ
  deriving DecidableEq

/-- Retain a delivered ordinal that no longer fits in `above`. The second component is the
lowest delivered ordinal the cap forgot, or 0. -/
def retainAboveRange (ranges : List (ℕ × ℕ)) (ord : ℕ) : List (ℕ × ℕ) × ℕ :=
  let before := ranges.takeWhile fun r => r.2 + 1 < ord
  let rest := ranges.dropWhile fun r => r.2 + 1 < ord
  let inserted := before ++ (ord, ord) :: rest
  match rest with
  | (lo, hi) :: tail =>
    if lo ≤ ord + 1 ∧ ord ≤ hi + 1 then (before ++ absorb (min lo ord) (max hi ord) tail, 0)
    else if ranges.length < maxPendingAbove then (inserted, 0)
    else (inserted.dropLast, (inserted.getLast?.getD (ord, ord)).1)
  | [] => if ranges.length < maxPendingAbove then (inserted, 0) else (ranges, ord)

/-- Whether the range memory holds an ordinal. -/
def aboveRangesContain : List (ℕ × ℕ) → ℕ → Bool
  | [], _ => false
  | (lo, hi) :: ranges, ord =>
    if ord < lo then false else if ord ≤ hi then true else aboveRangesContain ranges ord

/-- `while (above.delete(w + 1)) w++`. -/
def drainExact (w : ℕ) (above : Finset ℕ) : ℕ × Finset ℕ :=
  if w + 1 ∈ above then drainExact (w + 1) (above.erase (w + 1)) else (w, above)
  termination_by above.card
  decreasing_by exact Finset.card_erase_lt_of_mem ‹_›

/-- Drain the exact ordinals and the ranges that are contiguous with the watermark. -/
def drainAbove (w : ℕ) (above : Finset ℕ) : List (ℕ × ℕ) → ℕ × Finset ℕ × List (ℕ × ℕ)
  | [] => ((drainExact w above).1, (drainExact w above).2, [])
  | (lo, hi) :: ranges =>
    if lo = (drainExact w above).1 + 1 then drainAbove hi (drainExact w above).2 ranges
    else ((drainExact w above).1, (drainExact w above).2, (lo, hi) :: ranges)

namespace OriginStream

/-- The first sighting of a stream whose prefix was owed to this worker and never came. -/
def withPrefixMissing (ord : ℕ) (now : ℚ) : OriginStream where
  w := 0
  hi := ord
  above := some {ord}
  aboveMax := ord
  aboveRanges := []
  saturated := false
  forgottenFloor := ⊤
  holeSince := now

/-- The first sighting of a stream that is baselined where it was met. -/
def baselined (ord : ℕ) : OriginStream where
  w := ord
  hi := ord
  above := none
  aboveMax := ⊥
  aboveRanges := []
  saturated := false
  forgottenFloor := ⊤
  holeSince := 0

/-- The tracker after the first sighting. -/
def first (ord : ℕ) (birth : ℚ) (attachedAt : WithTop ℚ) (now : ℚ) : OriginStream :=
  if 1 < ord ∧ attachedAt < (birth : WithTop ℚ) then withPrefixMissing ord now else baselined ord

/-- Clean tracking resumed from the highest arrival. -/
def rebaseline (st : OriginStream) : OriginStream where
  w := st.hi
  hi := st.hi
  above := none
  aboveMax := ⊥
  aboveRanges := []
  saturated := false
  forgottenFloor := ⊤
  holeSince := 0

/-- The arrival right above the watermark: it may plug the current hole. -/
def advance (st : OriginStream) (ord : ℕ) (now : ℚ) : OriginStream :=
  match st.above with
  | none => { st with w := ord }
  | some above =>
    let drained := drainAbove ord above st.aboveRanges
    if drained.2.1 = ∅ ∧ drained.2.2 = [] then st.rebaseline
    else
      { st with
        w := drained.1
        above := some drained.2.1
        aboveRanges := drained.2.2
        aboveMax := if drained.2.1 = ∅ then ⊥ else st.aboveMax
        -- what is still buffered sits behind a different hole, whose age starts here
        holeSince := now }

/-- Hand one ordinal to the range memory, and remember what the cap forgot. -/
def retain (st : OriginStream) (ord : ℕ) : OriginStream :=
  let kept := retainAboveRange st.aboveRanges ord
  if kept.2 = 0 then { st with aboveRanges := kept.1 }
  else
    { st with
      aboveRanges := kept.1
      saturated := true
      forgottenFloor := min st.forgottenFloor (kept.2 : WithTop ℕ) }

/-- The state in which an arrival above the hole is buffered: the memory is allocated and the
hole is dated. -/
def openHole (st : OriginStream) (now : ℚ) : OriginStream :=
  let st :=
    if st.above = none then
      { st with
        above := some ∅, aboveMax := ⊥, aboveRanges := [], saturated := false,
        forgottenFloor := ⊤ }
    else st
  if st.holeSince = 0 then { st with holeSince := now } else st

/-- Keep a higher ordinal with at least one missing below it. At the cap the exact buffer
keeps its smallest ordinals and hands the others to the range memory. -/
def buffer (st : OriginStream) (ord : ℕ) (now : ℚ) : OriginStream :=
  let st := st.openHole now
  let above := st.above.getD ∅
  if ord ∈ above ∨ aboveRangesContain st.aboveRanges ord = true then st
  else if above.card < maxPendingAbove then
    { st with above := some (insert ord above), aboveMax := max st.aboveMax ord }
  else if (ord : WithBot ℕ) < st.aboveMax then
    let evicted := st.aboveMax.unbotD 0
    let kept := insert ord (above.erase evicted)
    { st with above := some kept, aboveMax := kept.max }.retain evicted
  else st.retain ord

/-- Fold one arrival into a tracked stream. -/
def record (st : OriginStream) (ord : ℕ) (now : ℚ) : OriginStream :=
  let st := { st with hi := max st.hi ord }
  if ord ≤ st.w then st
  else if ord = st.w + 1 then st.advance ord now
  else st.buffer ord now

end OriginStream

/-- `Array.from(above).sort((a, b) => a - b)`, as an insertion sort so that it evaluates. -/
def ascending (above : Finset ℕ) : List ℕ :=
  Quot.liftOn above.val (List.insertionSort (· ≤ ·)) fun l l' h =>
    ((List.perm_insertionSort _ l).trans (h.trans (List.perm_insertionSort _ l').symm)).eq_of_pairwise'
      (List.pairwise_insertionSort (· ≤ ·) l) (List.pairwise_insertionSort (· ≤ ·) l')

/-- One run extended by the next covered item, or `none` where the item is not contiguous. -/
def extendRun (run : Option (ℕ × ℕ)) (item : ℕ × ℕ) : Option (ℕ × ℕ) :=
  match run with
  | none => some item
  | some (runStart, runEnd) =>
    if item.1 ≤ runEnd + 1 then some (runStart, max runEnd item.2) else none

/-- The first covered run above the hole: the two memories merged in ascending order, taken
while the next item stays contiguous. -/
def firstRun (exact : List ℕ) (ranges : List (ℕ × ℕ)) (run : Option (ℕ × ℕ)) : Option (ℕ × ℕ) :=
  match exact, ranges with
  | [], [] => run
  | e :: exact, [] =>
    match extendRun run (e, e) with
    | none => run
    | some run => firstRun exact [] (some run)
  | [], r :: ranges =>
    match extendRun run r with
    | none => run
    | some run => firstRun [] ranges (some run)
  | e :: exact, r :: ranges =>
    if e < r.1 then
      match extendRun run (e, e) with
      | none => run
      | some run => firstRun exact (r :: ranges) (some run)
    else
      match extendRun run r with
      | none => run
      | some run => firstRun (e :: exact) ranges (some run)
  termination_by exact.length + ranges.length

namespace OriginStream

/-- The report of a saturated stream: the first hole, clamped below the lowest forgotten
arrival, and a silent re-baseline of everything above. -/
def takeSaturated (st : OriginStream) : OriginStream × Option LostRange :=
  let lowestAbove := (st.above.getD ∅).min
  let lowestRanged : WithTop ℕ := (st.aboveRanges.head?.map Prod.fst).elim ⊤ (↑)
  let boundary := min (min lowestAbove lowestRanged) st.forgottenFloor
  let last := boundary.untopD 0 - 1
  (st.rebaseline,
    if st.w + 1 ≤ last then some ⟨st.w + 1, last, last - (st.w + 1) + 1⟩ else none)

/-- The report of a stream that has forgotten nothing: the aged first hole. Exactly the first
covered run is consumed, and the next hole's age starts now. -/
def takeFirstHole (st : OriginStream) (nowMs : ℚ) : OriginStream × Option LostRange :=
  match firstRun (ascending (st.above.getD ∅)) st.aboveRanges none with
  | none => (st, none)
  | some (runStart, runEnd) =>
    let above := (st.above.getD ∅).filter fun s => ¬ s ≤ runEnd
    let ranges := st.aboveRanges.dropWhile fun r => r.2 ≤ runEnd
    let lost : LostRange := ⟨st.w + 1, runStart - 1, runStart - 1 - st.w⟩
    if above = ∅ ∧ ranges = [] then (st.rebaseline, some lost)
    else
      ({ st with
          w := runEnd
          above := st.above.map fun _ => above
          aboveRanges := ranges
          aboveMax := if above = ∅ then ⊥ else st.aboveMax
          holeSince := nowMs }, some lost)

/-- Take the blocking hole of one stream if it has outlived the grace. -/
def takeConfirmed (st : OriginStream) (nowMs graceMs : ℚ) : OriginStream × Option LostRange :=
  if st.holeSince = 0 ∨ nowMs - st.holeSince < graceMs then (st, none)
  else if st.saturated then st.takeSaturated
  else st.takeFirstHole nowMs

end OriginStream

section Maps

variable {Topic : Type} [DecidableEq Topic]

/-- Every tracked stream, by topic and then by sending thread. -/
abbrev OriginStreams (Topic : Type) := JsMap Topic (JsMap ℕ OriginStream)

/-- Fold one relayed frame's ordinal into the (topic, origin) stream tracker. A frame without
all three stamps is ignored. -/
def recordOriginStream (streams : OriginStreams Topic) (topic : Topic) (origin ord : Option ℕ)
    (birth : Option ℚ) (attachedAt : WithTop ℚ) (now : ℚ) : OriginStreams Topic :=
  match origin, ord, birth with
  | some origin, some ord, some birth =>
    let byOrigin := (streams.get topic).getD JsMap.empty
    let st :=
      match byOrigin.get origin with
      | none => OriginStream.first ord birth attachedAt now
      | some st => st.record ord now
    streams.set topic (byOrigin.set origin st)
  | _, _, _ => streams

/-- Take every hole that has now outlived the grace, reporting each exactly once. -/
def takeConfirmedGaps (streams : OriginStreams Topic) (nowMs graceMs : ℚ) :
    List (Gap Topic) × OriginStreams Topic :=
  (streams.entries.flatMap fun (topic, byOrigin) =>
      byOrigin.entries.filterMap fun (origin, st) =>
        (st.takeConfirmed nowMs graceMs).2.map fun lost => { lost with topic, origin },
    streams.mapVals fun _ byOrigin =>
      byOrigin.mapVals fun _ st => (st.takeConfirmed nowMs graceMs).1)

/-- The tracker of one stream. -/
def streamOf (streams : OriginStreams Topic) (topic : Topic) (origin : ℕ) :
    Option OriginStream :=
  (streams.get topic).bind fun byOrigin => byOrigin.get origin

end Maps
end AdapterWs.Relay
