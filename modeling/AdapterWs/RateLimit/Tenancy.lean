import AdapterWs.RateLimit.TwoRuns

/-!
# The keys of a rate limiter

A bucket belongs to the key that `keyBy` gives for a connection. The id of a tenant is put before
it with a NUL between, or is the key itself where a tenant has one budget. A connection without a
tenant has the raw key.
-/

namespace AdapterWs.RateLimit

open JsString List

variable {W : Type} [DecidableEq W]

/-- `keyBy`. -/
inductive KeyBy
  | ip
  | connection
  | custom
  deriving DecidableEq

/-- The options, with those that decide on keys. -/
structure TenancyOptions extends RateLimitOptions where
  keyBy : KeyBy
  /-- Whether a `tenant` function is given. -/
  tenant : Bool

/-- What a call throws. -/
inductive TenancyError
  | cost
  | nulByte
  | noTenant
  | adminNoTenant
  deriving DecidableEq

/-- The text of an error. -/
def TenancyError.message : TenancyError → JsString
  | .cost => lit "ratelimit: cost must be a non-negative finite number"
  | .nulByte =>
    lit "ratelimit: tenant id must not contain a NUL byte (it is the bucket-key delimiter)"
  | .noTenant =>
    lit "ratelimit: budget 'tenant' needs a tenant id for every connection, and this one has none. "
      ++ lit "Set the `tenant` option, or export `attribution(user)` (returning a tenantId) from the "
      ++ lit "WebSocket handler module so the adapter attributes the connection at open. Without "
      ++ lit "either, the config can only describe one global bucket, which budget 'tenant' does not "
      ++ lit "mean."
  | .adminNoTenant =>
    lit "ratelimit: budget 'tenant' keeps one bucket per tenant, so reset/ban/unban "
      ++ lit "address it by the tenantId argument (the key argument is not read in this mode). "
      ++ lit "Pass the tenant id to name the bucket to act on."

/-! ## The key of a bucket -/

/-- A tenant id, if there is one that is not empty. -/
def scopeOf (tenantId : Option JsString) : Option JsString := tenantId.filter fun id => !id.isEmpty

/-- `bucketKey(rawKey, tenantId)`. -/
def bucketKey (o : RateLimitOptions) (rawKey : JsString) (tenantId : Option JsString) :
    Except TenancyError JsString :=
  match scopeOf tenantId with
  | none => if o.budgetTenant then .error .noTenant else .ok rawKey
  | some id =>
    if id.contains 0 then .error .nulByte
    else .ok (if o.budgetTenant then id else id ++ 0 :: rawKey)

/-- `adminBucketKey(key, tenantId)`. -/
def adminBucketKey (o : RateLimitOptions) (key : JsString) (tenantId : Option JsString) :
    Except TenancyError JsString :=
  if o.budgetTenant then
    if (scopeOf tenantId).isNone then .error .adminNoTenant else bucketKey o [] tenantId
  else bucketKey o key tenantId

/-- `'__conn:' + n`. -/
def connKey (n : ℕ) : JsString := lit "__conn:" ++ lit (toString n)

/-- A limiter and the keys it gave to connections. -/
structure TenantLimiter (W : Type) where
  limiter : RateLimiter
  wsKeys : W → Option JsString
  connCounter : ℕ

namespace TenantLimiter

variable (o : TenancyOptions) (s : TenantLimiter W)

/-- A limiter before any call. -/
def create : TenantLimiter W := ⟨.create, fun _ => none, 0⟩

/-- `resolveRawKey(ws)`, where `raw` is what the user data or the key function gives. -/
def resolveRawKey (ws : W) (raw : JsString) : JsString × TenantLimiter W :=
  match o.keyBy with
  | .ip | .custom => (raw, s)
  | .connection =>
    match s.wsKeys ws with
    | some key => (key, s)
    | none =>
      let key := connKey (s.connCounter + 1)
      (key,
        { s with
          wsKeys := Function.update s.wsKeys ws (some key)
          connCounter := s.connCounter + 1 })

/-- The key of a connection that is attributed to a tenant and not asked of a `tenant` function. -/
def connectionKey (ws : W) (tenantId : Option JsString) :
    Except TenancyError JsString × TenantLimiter W :=
  match s.wsKeys ws with
  | some key => (.ok key, s)
  | none =>
    let s := { s with connCounter := s.connCounter + 1 }
    match bucketKey o.toRateLimitOptions (connKey s.connCounter) tenantId with
    | .ok key => (.ok key, { s with wsKeys := Function.update s.wsKeys ws (some key) })
    | .error e => (.error e, s)

/-- `principalBucketKey(ws)`. -/
def principalBucketKey (ws : W) (raw : JsString) (tenantId : Option JsString) :
    Except TenancyError JsString × TenantLimiter W :=
  if o.tenant then
    let (rawKey, s) := s.resolveRawKey o ws raw
    (bucketKey o.toRateLimitOptions rawKey tenantId, s)
  else
    match o.keyBy with
    | .connection => s.connectionKey o ws tenantId
    | .ip | .custom => (bucketKey o.toRateLimitOptions raw tenantId, s)

/-- The key that `consume` takes. -/
def consumeKey (ws : W) (raw : JsString) (tenantId : Option JsString) :
    Except TenancyError JsString × TenantLimiter W :=
  if o.budgetTenant then (bucketKey o.toRateLimitOptions [] tenantId, s)
  else s.principalBucketKey o ws raw tenantId

/-- `consume(ws, cost)`. -/
def consume (ws : W) (raw : JsString) (tenantId : Option JsString) (cost t : ℚ) :
    Except TenancyError ConsumeResult × TenantLimiter W :=
  if cost < 0 then (.error .cost, s)
  else
    match s.consumeKey o ws raw tenantId with
    | (.error e, s) => (.error e, s)
    | (.ok key, s) =>
      let consumed := s.limiter.consume o.toRateLimitOptions key cost t
      (.ok consumed.1.result, { s with limiter := consumed.2.2 })

/-- A call on the bucket of a key, which does nothing where there is no key. -/
def admin (key : JsString) (tenantId : Option JsString)
    (act : RateLimiter → JsString → RateLimiter) : TenantLimiter W :=
  match adminBucketKey o.toRateLimitOptions key tenantId with
  | .error _ => s
  | .ok key => { s with limiter := act s.limiter key }

/-- `clear(tenantId)`. -/
def clear (tenantId : Option JsString) : TenantLimiter W :=
  { s with
    limiter := s.limiter.clear o.toRateLimitOptions (tenantId.getD [])
    connCounter := if (scopeOf tenantId).isNone then 0 else s.connCounter }

end TenantLimiter

/-! ## Runs -/

/-- A call, with what the functions of the options give for its connection. -/
inductive TenancyEvent (W : Type)
  | consume (ws : W) (raw : JsString) (resolved : Option JsString) (cost t : ℚ)
  | reset (key : JsString) (tenantId : Option JsString)
  | ban (key : JsString) (duration : Option ℚ) (tenantId : Option JsString) (t : ℚ)
  | unban (key : JsString) (tenantId : Option JsString)
  | clear (tenantId : Option JsString)

/-- The tenant of a connection: what the `tenant` function gives for it at this call, or the
attribution it got when it was opened. -/
def tenantOf (o : TenancyOptions) (attribution : W → Option JsString) (ws : W)
    (resolved : Option JsString) : Option JsString := if o.tenant then resolved else attribution ws

namespace TenancyEvent

/-- Whether a call is one of a tenant. -/
def isOf (o : TenancyOptions) (attribution : W → Option JsString) (tenantId : JsString) :
    TenancyEvent W → Bool
  | .consume ws _ resolved _ _ => decide (tenantOf o attribution ws resolved = some tenantId)
  | .reset _ id | .ban _ _ id _ | .unban _ id | .clear id => decide (id = some tenantId)

/-- The reading of the clock, by a call that reads it. -/
def time : TenancyEvent W → Option ℚ
  | .consume _ _ _ _ t | .ban _ _ _ t => some t
  | .reset _ _ | .unban _ _ | .clear _ => none

end TenancyEvent

/-- A call, with the result of `consume`. -/
def TenantLimiter.call (o : TenancyOptions) (attribution : W → Option JsString)
    (s : TenantLimiter W) :
    TenancyEvent W → Option (Except TenancyError ConsumeResult) × TenantLimiter W
  | .consume ws raw resolved cost t =>
    let (result, s) := s.consume o ws raw (tenantOf o attribution ws resolved) cost t
    (some result, s)
  | .reset key tenantId => (none, s.admin o key tenantId RateLimiter.reset)
  | .ban key duration tenantId t =>
    (none, s.admin o key tenantId fun l key => (l.ban o.toRateLimitOptions key duration t).2)
  | .unban key tenantId => (none, s.admin o key tenantId RateLimiter.unban)
  | .clear tenantId => (none, s.clear o tenantId)

/-- A limiter after some calls. -/
def TenantLimiter.run (o : TenancyOptions) (attribution : W → Option JsString)
    (s : TenantLimiter W) (es : List (TenancyEvent W)) : TenantLimiter W :=
  es.foldl (fun s e => (s.call o attribution e).2) s

/-! ## Two runs -/

/-- A call of both runs, or one that only one of them has. -/
inductive PairEvent (W : Type)
  | both (e : TenancyEvent W)
  | left (e : TenancyEvent W)
  | right (e : TenancyEvent W)

/-- Two limiters, their clocks, and the results of the calls that both have. -/
structure Pair (W : Type) where
  left : TenantLimiter W
  right : TenantLimiter W
  leftClock : ℚ
  rightClock : ℚ
  results : List (Option (Except TenancyError ConsumeResult) ×
    Option (Except TenancyError ConsumeResult))

/-- Two runs of one limiter that differ in what a tenant does. -/
def pairMachine (o : TenancyOptions) (attribution : W → Option JsString) (tenantId : JsString)
    (clock : ℕ) : Machine (Pair W) (PairEvent W) where
  init := ⟨.create, .create, clock, clock, []⟩
  step p
    | .both e =>
      if e.isOf o attribution tenantId then none
      else
        let (resultLeft, left) := p.left.call o attribution e
        let (resultRight, right) := p.right.call o attribution e
        some ⟨left, right, e.time.getD p.leftClock, e.time.getD p.rightClock,
          p.results ++ [(resultLeft, resultRight)]⟩
    | .left e =>
      if e.isOf o attribution tenantId then
        some { p with
          left := (p.left.call o attribution e).2
          leftClock := e.time.getD p.leftClock }
      else none
    | .right e =>
      if e.isOf o attribution tenantId then
        some { p with
          right := (p.right.call o attribution e).2
          rightClock := e.time.getD p.rightClock }
      else none

/-- The calls of the first run. -/
def lefts : List (PairEvent W) → List (TenancyEvent W) :=
  List.flatMap fun | .both e | .left e => [e] | .right _ => []

/-- The calls of the second run. -/
def rights : List (PairEvent W) → List (TenancyEvent W) :=
  List.flatMap fun | .both e | .right e => [e] | .left _ => []

variable {o : TenancyOptions} {attribution : W → Option JsString} {tenantId : JsString}

omit [DecidableEq W] in
/-- Two lists of calls that differ in those of a tenant are the two sides of a list of pairs. -/
theorem exists_pairs : ∀ es es' : List (TenancyEvent W),
    es.filter (fun e => !e.isOf o attribution tenantId) =
        es'.filter (fun e => !e.isOf o attribution tenantId) →
      ∃ ps : List (PairEvent W), lefts ps = es ∧ rights ps = es'
  | [], [], _ => ⟨[], rfl, rfl⟩
  | e :: es, [], h => by
    cases hof : e.isOf o attribution tenantId with
    | true =>
      rw [filter_cons_of_neg (by simp [hof])] at h
      obtain ⟨ps, hleft, hright⟩ := exists_pairs es [] h
      exact ⟨.left e :: ps, congrArg (e :: ·) hleft, hright⟩
    | false =>
      rw [filter_cons_of_pos (by simp [hof])] at h
      cases h
  | [], e' :: es', h => by
    cases hof : e'.isOf o attribution tenantId with
    | true =>
      rw [filter_cons_of_neg (l := es') (by simp [hof])] at h
      obtain ⟨ps, hleft, hright⟩ := exists_pairs [] es' h
      exact ⟨.right e' :: ps, hleft, congrArg (e' :: ·) hright⟩
    | false =>
      rw [filter_cons_of_pos (l := es') (by simp [hof])] at h
      cases h
  | e :: es, e' :: es', h => by
    cases hof : e.isOf o attribution tenantId with
    | true =>
      rw [filter_cons_of_neg (l := es) (by simp [hof])] at h
      obtain ⟨ps, hleft, hright⟩ := exists_pairs es (e' :: es') h
      exact ⟨.left e :: ps, congrArg (e :: ·) hleft, hright⟩
    | false =>
      cases hof' : e'.isOf o attribution tenantId with
      | true =>
        rw [filter_cons_of_neg (l := es') (by simp [hof'])] at h
        obtain ⟨ps, hleft, hright⟩ := exists_pairs (e :: es) es' h
        exact ⟨.right e' :: ps, hleft, congrArg (e' :: ·) hright⟩
      | false =>
        rw [filter_cons_of_pos (by simp [hof]),
          filter_cons_of_pos (by simp [hof'])] at h
        obtain ⟨rfl, htail⟩ := cons.inj h
        obtain ⟨ps, hleft, hright⟩ := exists_pairs es es' htail
        exact ⟨.both e :: ps, congrArg (e :: ·) hleft, congrArg (e :: ·) hright⟩
termination_by es es' => es.length + es'.length

/-- The two sides of a run of pairs are runs of the limiter. -/
theorem sides_of_reaches {ok : Pair W → PairEvent W → Prop} {clock : ℕ} {ps : List (PairEvent W)}
    {p : Pair W} (h : (pairMachine o attribution tenantId clock).ReachesWhere ok ps p) :
    p.left = TenantLimiter.create.run o attribution (lefts ps) ∧
      p.right = TenantLimiter.create.run o attribution (rights ps) := by
  induction h with
  | start => exact ⟨rfl, rfl⟩
  | @next ps p p' e _ _ hstep ih =>
    obtain ⟨hleft, hright⟩ := ih
    simp only [lefts, rights, TenantLimiter.run, flatMap_append, foldl_append,
      flatMap_singleton] at hleft hright ⊢
    cases e with
    | both e =>
      simp only [pairMachine, Option.ite_none_left_eq_some] at hstep
      cases hstep.2
      exact ⟨by rw [← hleft]; rfl, by rw [← hright]; rfl⟩
    | left e =>
      simp only [pairMachine, Option.ite_none_right_eq_some] at hstep
      cases hstep.2
      exact ⟨by rw [← hleft]; rfl, hright⟩
    | right e =>
      simp only [pairMachine, Option.ite_none_right_eq_some] at hstep
      cases hstep.2
      exact ⟨hleft, by rw [← hright]; rfl⟩

end AdapterWs.RateLimit
