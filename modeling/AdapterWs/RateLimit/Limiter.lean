import AdapterWs.Lib.CursorMap
import AdapterWs.Lib.JsString
import AdapterWs.Lib.Machine
import AdapterWs.Lib.Nearest
import AdapterWs.Lib.Spans

/-!
# The rate limiter

`createRateLimit` keeps a bucket for every key: the allowance left in the current window, when
the window ends, and until when the key is banned. The window starts again at the first call after
its end. A map of more than a thousand buckets first drops those whose window and ban are over,
and a full one gives up a bucket of a sample.
-/

namespace AdapterWs.RateLimit

open Binary64 JsString

/-- `RateLimitOptions`. -/
structure RateLimitOptions where
  points : ℕ
  interval : ℚ
  blockDuration : ℚ
  maxBuckets : ℕ
  evictionSample : ℕ
  /-- `budget: 'tenant'`. -/
  budgetTenant : Bool
  points_pos : 0 < points
  interval_pos : 0 < interval
  blockDuration_nonneg : 0 ≤ blockDuration

/-- `Bucket`. -/
structure Bucket where
  points : ℚ
  resetAt : ℚ
  bannedUntil : ℚ
  prev : ℚ
  banSeq : ℕ
  deriving DecidableEq

/-- `ConsumeResult`. -/
structure ConsumeResult where
  allowed : Bool
  remaining : ℚ
  resetMs : ℚ
  deriving DecidableEq

/-- What one call does with the bucket of its key. -/
structure Consumed where
  result : ConsumeResult
  bucket : Bucket
  /-- Until when the key is banned, if this call banned it. -/
  placed : Option ℚ
  deriving DecidableEq

namespace Bucket

/-- The bucket of a key that is new. -/
def fresh (o : RateLimitOptions) (points t : ℚ) : Bucket := ⟨points, nearest (t + o.interval), 0, 0, 0⟩

/-- The bucket with a new window, if the last one is over. -/
def refill (o : RateLimitOptions) (b : Bucket) (t : ℚ) : Bucket :=
  if b.resetAt ≤ t then
    { b with
      prev := if t < nearest (b.resetAt + o.interval) then nearest (o.points - b.points) else 0
      points := o.points
      resetAt := nearest (t + o.interval) }
  else b

/-- What `consume` does with a bucket. -/
def consume (o : RateLimitOptions) (b : Bucket) (cost t : ℚ) (banSeq : ℕ) : Consumed :=
  if t < b.bannedUntil then ⟨⟨false, 0, nearest (b.bannedUntil - t)⟩, b, none⟩
  else
    let b := b.refill o t
    if cost ≤ b.points then
      let b := { b with points := nearest (b.points - cost) }
      ⟨⟨true, b.points, nearest (b.resetAt - t)⟩, b, none⟩
    else if 0 < o.blockDuration then
      let expiry := nearest (t + o.blockDuration)
      ⟨⟨false, 0, o.blockDuration⟩, { b with bannedUntil := expiry, banSeq := banSeq + 1 },
        some expiry⟩
    else ⟨⟨false, max 0 b.points, nearest (b.resetAt - t)⟩, b, none⟩

/-- `activity(bucket, t)`. -/
def activity (o : RateLimitOptions) (b : Bucket) (t : ℚ) : ℚ :=
  let drawn := nearest (o.points - b.points)
  if t < b.resetAt then nearest (drawn + b.prev)
  else if t < nearest (b.resetAt + o.interval) then drawn
  else 0

/-- Whether the window and the ban of a bucket are over. -/
def expired (b : Bucket) (t : ℚ) : Bool := decide (b.resetAt ≤ t) && decide (b.bannedUntil ≤ t)

end Bucket

/-- The buckets, the iterator that samples them, and the bans counted. -/
structure RateLimiter where
  buckets : CursorMap JsString Bucket
  evictCursor : Option ℕ
  banSeq : ℕ

/-- A bucket that was given up. -/
structure Evicted where
  key : JsString
  banned : Bool

/-- The best candidates of a sample so far. -/
structure Sample where
  /-- The least active bucket that is not banned, with its score and whether its window is over. -/
  victim : Option (JsString × ℚ × Bool)
  /-- The bucket that was banned last, with the number of its ban. -/
  bannedVictim : Option (JsString × ℕ)

namespace RateLimiter

/-- `createRateLimit(options)`. -/
def create : RateLimiter := ⟨.empty, none, 0⟩

/-- `cleanup(t)`. -/
def cleanup (l : RateLimiter) (t : ℚ) : RateLimiter :=
  if l.buckets.size ≤ 1000 then l
  else
    let buckets := l.buckets.filter fun _ b => !b.expired t
    { l with
      buckets := buckets
      evictCursor := if buckets.size < l.buckets.size then none else l.evictCursor }

/-- The candidate of a sample is given up, a banned one only if there is no other. -/
def takeVictim (l : RateLimiter) (sample : Sample) : Option Evicted × RateLimiter :=
  match sample.victim, sample.bannedVictim with
  | some (key, _), _ => (some ⟨key, false⟩, { l with buckets := l.buckets.delete key })
  | none, some (key, _) => (some ⟨key, true⟩, { l with buckets := l.buckets.delete key })
  | none, none => (none, l)

/-- The loop of `evictOne`. An iteration that ends is followed by at most two more, so that three
turns more than samples are enough. -/
def evictLoop (o : RateLimitOptions) (t : ℚ) :
    ℕ → ℕ → ℕ → Sample → RateLimiter → Option Evicted × RateLimiter
  | 0, _, _, sample, l => l.takeVictim sample
  | fuel + 1, sampled, wrapped, sample, l =>
    if sampled < o.evictionSample ∧ wrapped < 2 then
      let wrapped := if l.evictCursor.isNone then wrapped + 1 else wrapped
      match l.buckets.next (l.evictCursor.getD 0) with
      | none => evictLoop o t fuel sampled wrapped sample { l with evictCursor := none }
      | some (key, b, cursor) =>
        let l := { l with evictCursor := some cursor }
        if t < b.bannedUntil then
          -- a ban is taken only as a last resort, and then the one placed last
          evictLoop o t fuel (sampled + 1) wrapped
            (if sample.bannedVictim.all fun v => decide (v.2 < b.banSeq) then
              { sample with bannedVictim := some (key, b.banSeq) }
            else sample) l
        else
          let score := b.activity o t
          let ended := decide (b.resetAt ≤ t)
          let sample :=
            if sample.victim.all fun v => decide (score < v.2.1) ||
                (decide (score = v.2.1) && ended && !v.2.2) then
              { sample with victim := some (key, score, ended) }
            else sample
          if score = 0 ∧ ended = true then l.takeVictim sample
          else evictLoop o t fuel (sampled + 1) wrapped sample l
    else l.takeVictim sample

/-- `evictOne(t)`. -/
def evictOne (o : RateLimitOptions) (l : RateLimiter) (t : ℚ) : Option Evicted × RateLimiter :=
  evictLoop o t (o.evictionSample + 3) 0 0 ⟨none, none⟩ l

/-- Room for a key that is new. -/
def makeRoom (o : RateLimitOptions) (l : RateLimiter) (t : ℚ) : Option Evicted × RateLimiter :=
  if o.maxBuckets ≤ l.buckets.size then l.evictOne o t else (none, l)

/-- The bucket of a key, which is new with `points` if there is none. -/
def bucketFor (o : RateLimitOptions) (l : RateLimiter) (key : JsString) (points t : ℚ) :
    Option Evicted × Bucket × RateLimiter :=
  match l.buckets.get key with
  | some b => (none, b, l)
  | none =>
    let (evicted, l) := l.makeRoom o t
    let b := Bucket.fresh o points t
    (evicted, b, { l with buckets := l.buckets.set key b })

/-- `consume(ws, cost)` for the key of a connection, at a cost that is not negative. -/
def consume (o : RateLimitOptions) (l : RateLimiter) (key : JsString) (cost t : ℚ) :
    Consumed × Option Evicted × RateLimiter :=
  let l := l.cleanup t
  let (evicted, b, l) := l.bucketFor o key o.points t
  let consumed := b.consume o cost t l.banSeq
  (consumed, evicted,
    { l with
      buckets := l.buckets.set key consumed.bucket
      banSeq := if consumed.placed.isSome then l.banSeq + 1 else l.banSeq })

/-- How long a ban lasts: `duration ?? (blockDuration || 60000)`. -/
def banDuration (o : RateLimitOptions) (duration : Option ℚ) : ℚ :=
  duration.getD (if o.blockDuration = 0 then 60000 else o.blockDuration)

/-- `ban(key, duration, tenantId)`. -/
def ban (o : RateLimitOptions) (l : RateLimiter) (key : JsString) (duration : Option ℚ) (t : ℚ) :
    Option Evicted × RateLimiter :=
  let (evicted, b, l) := l.bucketFor o key 0 t
  let b := { b with bannedUntil := nearest (t + banDuration o duration), banSeq := l.banSeq + 1 }
  (evicted, { l with buckets := l.buckets.set key b, banSeq := l.banSeq + 1 })

/-- `unban(key, tenantId)`. -/
def unban (l : RateLimiter) (key : JsString) : RateLimiter :=
  match l.buckets.get key with
  | none => l
  | some b => { l with buckets := l.buckets.set key { b with bannedUntil := 0 } }

/-- `reset(key, tenantId)`. -/
def reset (l : RateLimiter) (key : JsString) : RateLimiter :=
  match l.buckets.get key with
  | none => l
  | some _ => { l with buckets := l.buckets.delete key, evictCursor := none }

/-- The keys that `clear(tenantId)` drops. -/
def isCleared (o : RateLimitOptions) (tenantId key : JsString) : Bool :=
  tenantId.isEmpty || (o.budgetTenant && decide (key = tenantId)) ||
    (tenantId ++ [0]).isPrefixOf key

/-- `clear(tenantId)`, of everything where the tenant is empty. -/
def clear (o : RateLimitOptions) (l : RateLimiter) (tenantId : JsString) : RateLimiter :=
  { l with buckets := l.buckets.filter fun key _ => !isCleared o tenantId key, evictCursor := none }

end RateLimiter

/-! ## Runs -/

/-- A call that was allowed. -/
structure Grant where
  time : ℚ
  cost : ℚ
  /-- The end of the window it was let through in. -/
  resetAt : ℚ
  /-- Whether a ban of its key stood. -/
  underBan : Bool

/-- What happened to a key since its bucket was last evicted, reset or cleared. -/
structure KeyHistory where
  /-- The bucket it would have if none were swept. -/
  unswept : Option Bucket
  grants : List Grant
  /-- Until when the bans of the key stand. -/
  bans : List ℚ

/-- A limiter, the last reading of the clock, what happened to the keys, and every result with the
one the bucket would have given that is never swept. -/
structure History where
  limiter : RateLimiter
  clock : ℚ
  keys : JsString → KeyHistory
  results : List (ConsumeResult × ConsumeResult)

/-- A call, at a reading of the clock. -/
inductive RateLimitEvent
  | consume (key : JsString) (cost t : ℚ)
  | ban (key : JsString) (duration : Option ℚ) (t : ℚ)
  | unban (key : JsString)
  | reset (key : JsString)
  | clear (tenantId : JsString)

namespace KeyHistory

/-- A key of which nothing is known. -/
def empty : KeyHistory := ⟨none, [], []⟩

/-- A ban is placed. One that ends earlier replaces those that would end later. -/
def place (k : KeyHistory) (expiry : ℚ) : KeyHistory :=
  { k with bans := k.bans.filter (fun e => decide (e ≤ expiry)) ++ [expiry] }

/-- Whether a ban stands. -/
def banned (k : KeyHistory) (t : ℚ) : Bool := k.bans.any fun expiry => decide (t < expiry)

/-- The key after a call that was decided by its bucket. -/
def consume (o : RateLimitOptions) (k : KeyHistory) (cost t : ℚ) (done : Consumed) : KeyHistory :=
  let k :=
    { k with
      unswept := some ((k.unswept.getD (.fresh o o.points t)).consume o cost t 0).bucket
      grants :=
        if done.result.allowed then k.grants ++ [⟨t, cost, done.bucket.resetAt, k.banned t⟩]
        else k.grants }
  match done.placed with
  | none => k
  | some expiry => k.place expiry

/-- The key after it was banned. -/
def ban (o : RateLimitOptions) (k : KeyHistory) (expiry t : ℚ) : KeyHistory :=
  let b := k.unswept.getD (.fresh o 0 t)
  { k with unswept := some { b with bannedUntil := expiry } }.place expiry

/-- The key after its ban was removed. -/
def unban (k : KeyHistory) : KeyHistory :=
  { k with unswept := k.unswept.map fun b => { b with bannedUntil := 0 }, bans := [] }

end KeyHistory

/-- Nothing is known of a key that was evicted. -/
def forget (keys : JsString → KeyHistory) : Option Evicted → JsString → KeyHistory
  | none => keys
  | some evicted => Function.update keys evicted.key .empty

/-- One call. The clock does not go back, and a negative cost throws before anything happens. -/
def History.call (o : RateLimitOptions) (s : History) : RateLimitEvent → Option History
  | .consume key cost t =>
    if s.clock ≤ t ∧ 0 ≤ cost then
      let (done, evicted, limiter) := s.limiter.consume o key cost t
      let keys := forget s.keys evicted
      let unswept := (((keys key).unswept).getD (.fresh o o.points t)).consume o cost t 0
      some
        { limiter := limiter
          clock := t
          keys := Function.update keys key ((keys key).consume o cost t done)
          results := s.results ++ [(done.result, unswept.result)] }
    else none
  | .ban key duration t =>
    if s.clock ≤ t then
      let (evicted, limiter) := s.limiter.ban o key duration t
      let keys := forget s.keys evicted
      let expiry := nearest (t + RateLimiter.banDuration o duration)
      some
        { s with
          limiter := limiter
          clock := t
          keys := Function.update keys key ((keys key).ban o expiry t) }
    else none
  | .unban key =>
    some
      { s with
        limiter := s.limiter.unban key
        keys := Function.update s.keys key (s.keys key).unban }
  | .reset key =>
    some
      { s with
        limiter := s.limiter.reset key
        keys := Function.update s.keys key .empty }
  | .clear tenantId =>
    some
      { s with
        limiter := s.limiter.clear o tenantId
        keys := fun key =>
          if RateLimiter.isCleared o tenantId key then .empty else s.keys key }

/-- One limiter, from a reading of the clock on, in milliseconds since the epoch. -/
def rateLimitMachine (o : RateLimitOptions) (clock : ℕ) : Machine History RateLimitEvent where
  init := ⟨.create, clock, fun _ => .empty, []⟩
  step s e := s.call o e

/-! ## What a limiter promises -/

/-- The cost of a call at its time. -/
def Grant.timed (g : Grant) : Timed := ⟨g.time, g.cost⟩

/-- The cost of a call at the end of its window. -/
def Grant.windowed (g : Grant) : Timed := ⟨g.resetAt, g.cost⟩

/-- What is promised of the calls of a key that were allowed. -/
structure Kept (o : RateLimitOptions) (k : KeyHistory) : Prop where
  /-- At most `points` within one window. -/
  window : ∀ r, Spans.total (· = r) (k.grants.map Grant.windowed) ≤ o.points
  /-- At most twice `points` within a span that is shorter than the interval. -/
  span : ∀ a b, b - a < o.interval →
    Spans.total (fun t => a ≤ t ∧ t ≤ b) (k.grants.map Grant.timed) ≤ 2 * o.points
  /-- None while a ban stands. -/
  banned : ∀ g ∈ k.grants, g.underBan = false

/-- Every key is kept to its limit, and no result depends on what was swept. -/
structure Guaranteed (o : RateLimitOptions) (s : History) : Prop where
  kept : ∀ key, Kept o (s.keys key)
  unswept : ∀ results ∈ s.results, results.1 = results.2

end AdapterWs.RateLimit
