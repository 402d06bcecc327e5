import AdapterWs.Lib.CursorMap
import AdapterWs.Lib.Machine
import AdapterWs.Lib.SlidingCounter
import AdapterWs.SlidingWindow.Identity

/-!
# The sliding-window limiter of the two doors

Every identity has an entry of two counts. At the cap an entry is evicted, the least active one of a
sample that a rotating iterator takes; a sweep drops the entries of two windows without a request
and lets go of the iterator. Times are rationals.
-/

namespace AdapterWs.SlidingWindow

open JsString SlidingCounter

/-- The options of `createSlidingWindowLimiter`. -/
structure LimiterOptions where
  maxPerWindow : ℚ
  windowMs : ℚ
  maxEntries : ℕ
  /-- How many entries an eviction inspects; no value for what is not finite. -/
  evictionSample : Option ℚ
  maxKeyLen : ℕ

/-- How many entries an eviction inspects: one at least. -/
def LimiterOptions.sampleTarget (o : LimiterOptions) : ℕ :=
  match o.evictionSample with
  | none => 1
  | some n => if 1 ≤ n then ⌊n⌋₊ else 1

/-- The entries, and the iterator that evictions go on with. -/
structure Limiter where
  map : CursorMap JsString Counter
  evictCursor : Option ℕ

namespace Limiter

/-- `createSlidingWindowLimiter(options)`. -/
def create : Limiter := ⟨.empty, none⟩

/-- The entry with the lowest score so far. -/
def leastActive (victim : Option (JsString × ℕ)) (entry : JsString × Counter) :
    Option (JsString × ℕ) :=
  let score := entry.2.prev + entry.2.curr
  if victim.all fun v => decide (score < v.2) then some (entry.1, score) else victim

/-- `evictOne()`, with the identity it drops. -/
def evictOne (o : LimiterOptions) (l : Limiter) : Option JsString × Limiter :=
  let sample := l.map.walk (fun _ _ => false) o.sampleTarget (o.sampleTarget + 3) 0 0 l.evictCursor
  match sample.1.foldl leastActive none with
  | none => (none, ⟨l.map, sample.2⟩)
  | some (victim, _) => (some victim, ⟨l.map.delete victim, sample.2⟩)

/-- Room for an identity that is new. -/
def makeRoom (o : LimiterOptions) (l : Limiter) : Option JsString × Limiter :=
  if o.maxEntries ≤ l.map.size then l.evictOne o else (none, l)

/-- `exceeded(clientIp, nowMs)` of an identity: the answer, the identity that is evicted, and the
limiter after it. -/
def exceeded (o : LimiterOptions) (l : Limiter) (key : JsString) (nowMs : ℚ) :
    Bool × Option JsString × Limiter :=
  if o.maxPerWindow ≤ 0 then (false, none, l)
  else
    match l.map.get key with
    | none =>
      let room := l.makeRoom o
      let answer := (Counter.opened nowMs).count o.windowMs o.maxPerWindow nowMs
      (answer.1, room.1, ⟨room.2.map.set key answer.2, room.2.evictCursor⟩)
    | some entry =>
      let answer := (entry.rotate o.windowMs nowMs).count o.windowMs o.maxPerWindow nowMs
      (answer.1, none, { l with map := l.map.set key answer.2 })

/-- `sweep(nowMs)`. -/
def sweep (o : LimiterOptions) (l : Limiter) (nowMs : ℚ) : Limiter :=
  ⟨l.map.filter fun _ entry => decide (nowMs - entry.start < 2 * o.windowMs), none⟩

end Limiter

/-- A call. -/
inductive Call
  | exceeded (clientIp : JsString) (nowMs : ℚ)
  | sweep (nowMs : ℚ)

/-- When a call is made. -/
def Call.time : Call → ℚ
  | .exceeded _ nowMs => nowMs
  | .sweep nowMs => nowMs

/-- A limiter with its clock, the requests of every identity with their answers, and the identities
that were evicted. -/
structure Run where
  limiter : Limiter
  clock : ℚ
  requests : List (JsString × Request)
  evicted : List JsString

/-- What a call does. -/
def Run.call (case : CaseMap) (o : LimiterOptions) (s : Run) : Call → Run
  | .exceeded clientIp nowMs =>
    let key := rateLimitKey case o.maxKeyLen clientIp
    let answer := s.limiter.exceeded o key nowMs
    ⟨answer.2.2, nowMs, s.requests ++ [(key, ⟨nowMs, answer.1⟩)],
      s.evicted ++ answer.2.1.toList⟩
  | .sweep nowMs => ⟨s.limiter.sweep o nowMs, nowMs, s.requests, s.evicted⟩

/-- The runs from some time on: the clock does not go back. -/
def machine (case : CaseMap) (o : LimiterOptions) (start : ℚ) : Machine Run Call where
  init := ⟨.create, start, [], []⟩
  step s call := if s.clock ≤ call.time then some (s.call case o call) else none

/-- The requests of an identity with their answers. -/
def Run.requestsOf (s : Run) (key : JsString) : List Request :=
  (s.requests.filter fun r => decide (r.1 = key)).map Prod.snd

end AdapterWs.SlidingWindow
