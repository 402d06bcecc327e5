import AdapterWs.RateLimit.Kept

/-!
# The guarantee of the rate limiter

Sweeping and evicting change the bucket of no other key, so that a run is followed key by key.
Rounding can let more through than the limit, and so can a ban on a key whose entry was swept take
its allowance away: a run without such steps keeps every promise.
-/

namespace AdapterWs.RateLimit

open Binary64 JsString Option RateLimiter CursorMap Function

variable {o : RateLimitOptions} {l : RateLimiter} {t cost : ℚ} {key other : JsString}

/-! ## Evicting -/

/-- The buckets without the one that was evicted. -/
def without (buckets : CursorMap JsString Bucket) : Option Evicted → CursorMap JsString Bucket
  | none => buckets
  | some evicted => buckets.delete evicted.key

theorem takeVictim_buckets (l : RateLimiter) (sample : Sample) :
    (l.takeVictim sample).2.buckets = without l.buckets (l.takeVictim sample).1 := by
  rw [takeVictim]
  split <;> rfl

theorem evictLoop_buckets (fuel sampled wrapped : ℕ) (sample : Sample) (l : RateLimiter) :
    (evictLoop o t fuel sampled wrapped sample l).2.buckets =
      without l.buckets (evictLoop o t fuel sampled wrapped sample l).1 := by
  induction fuel generalizing sampled wrapped sample l with
  | zero => exact takeVictim_buckets l sample
  | succ fuel ih =>
    rw [evictLoop]
    by_cases hgo : sampled < o.evictionSample ∧ wrapped < 2
    · rw [if_pos hgo]
      simp only
      split
      · exact ih _ _ _ _
      · next key b cursor _ =>
        by_cases hbanned : t < b.bannedUntil
        · rw [if_pos hbanned]
          exact ih _ _ _ _
        · rw [if_neg hbanned]
          by_cases hfree : b.activity o t = 0 ∧ decide (b.resetAt ≤ t) = true
          · rw [if_pos hfree]
            exact takeVictim_buckets _ _
          · rw [if_neg hfree]
            exact ih _ _ _ _
    · rw [if_neg hgo]
      exact takeVictim_buckets l sample

theorem evictLoop_succ {fuel sampled wrapped : ℕ} {sample : Sample}
    (h : turnsLeft o.evictionSample sampled wrapped l.evictCursor ≤ fuel) :
    evictLoop o t (fuel + 1) sampled wrapped sample l =
      evictLoop o t fuel sampled wrapped sample l := by
  induction fuel generalizing sampled wrapped sample l with
  | zero =>
    rw [evictLoop, evictLoop,
      if_neg (not_of_turnsLeft_eq_zero h)]
  | succ fuel ih =>
    rw [evictLoop]
    conv_rhs => rw [evictLoop]
    by_cases hgo : sampled < o.evictionSample ∧ wrapped < 2
    · rw [if_pos hgo, if_pos hgo]
      simp only
      split
      · exact ih (turnsLeft_end h hgo)
      · next key b cursor _ =>
        have hstep := turnsLeft_step h hgo cursor
        by_cases hbanned : t < b.bannedUntil
        · rw [if_pos hbanned, if_pos hbanned]
          exact ih hstep
        · rw [if_neg hbanned, if_neg hbanned]
          by_cases hfree : b.activity o t = 0 ∧ decide (b.resetAt ≤ t) = true
          · rw [if_pos hfree, if_pos hfree]
          · rw [if_neg hfree, if_neg hfree]
            exact ih hstep
    · rw [if_neg hgo, if_neg hgo]

theorem makeRoom_buckets (l : RateLimiter) (t : ℚ) :
    (l.makeRoom o t).2.buckets = without l.buckets (l.makeRoom o t).1 := by
  rw [makeRoom]
  split_ifs
  · exact evictLoop_buckets _ _ _ _ l
  · rfl

theorem get_without (buckets : CursorMap JsString Bucket) (evicted : Option Evicted)
    (other : JsString) : (without buckets evicted).get other =
      if evicted.any fun e => e.key = other then none else buckets.get other := by
  cases evicted with
  | none => rfl
  | some e => simp [without, get_delete]

/-! ## The bucket a call finds -/

/-- The bucket of a key, and what the others have, when a call finds it. -/
theorem bucketFor_spec (l : RateLimiter) (key : JsString) (p t : ℚ) :
    let found := l.bucketFor o key p t
    found.2.1 = (l.buckets.get key).getD (.fresh o p t) ∧
      (∀ b, l.buckets.get key = some b → found.1 = none) ∧
      ∀ b other, (found.2.2.buckets.set key b).get other =
        if key = other then some b
        else if found.1.any fun evicted => evicted.key = other then none
        else l.buckets.get other := by
  rw [bucketFor]
  cases hget : l.buckets.get key with
  | some b => exact ⟨rfl, fun _ _ => rfl, fun b' other => by simp [get_set]⟩
  | none =>
    refine And.intro rfl (And.intro (fun b hsome => ?_) fun b other => ?_)
    · cases hsome
    · simp only [get_set]
      by_cases heq : key = other
      · rw [if_pos heq, if_pos heq]
      · rw [if_neg heq, if_neg heq, if_neg heq, makeRoom_buckets, get_without]

/-- A sweep drops the buckets whose window and ban are over, or nothing. -/
theorem get_cleanup (l : RateLimiter) (t : ℚ) (key : JsString) :
    (l.cleanup t).buckets.get key = l.buckets.get key ∨
      (l.cleanup t).buckets.get key = (l.buckets.get key).filter fun b => !b.expired t := by
  rw [cleanup]
  split_ifs
  · exact .inl rfl
  · exact .inr (get_filter ..)

/-! ## Steps -/

variable {s s' : History} {r : Option Bucket} {keys : JsString → KeyHistory} {now : ℚ}
  {u : Option Bucket} {b : Bucket}

/-- The end of a window is not rounded down, and what is left after a call is not rounded up; no
ban is placed on a key whose entry was swept. -/
def Exact (o : RateLimitOptions) (s : History) : RateLimitEvent → Prop
  | .consume key cost t =>
    t + o.interval ≤ nearest (t + o.interval) ∧
      (cost ≤ allowance o (s.limiter.buckets.get key) t →
        nearest (allowance o (s.limiter.buckets.get key) t - cost) ≤
          allowance o (s.limiter.buckets.get key) t - cost)
  | .ban key _ t =>
    t + o.interval ≤ nearest (t + o.interval) ∧
      (s.limiter.buckets.get key = none → (s.keys key).unswept = none)
  | .unban _ | .reset _ | .clear _ => True

instance instDecidableExact (o : RateLimitOptions) (s : History) :
    (e : RateLimitEvent) → Decidable (Exact o s e)
  | .consume key cost t => inferInstanceAs (Decidable (t + o.interval ≤ nearest (t + o.interval) ∧
      (cost ≤ allowance o (s.limiter.buckets.get key) t →
        nearest (allowance o (s.limiter.buckets.get key) t - cost) ≤
          allowance o (s.limiter.buckets.get key) t - cost)))
  | .ban key _ t => inferInstanceAs (Decidable (t + o.interval ≤ nearest (t + o.interval) ∧
      (s.limiter.buckets.get key = none → (s.keys key).unswept = none)))
  | .unban _ | .reset _ | .clear _ => isTrue trivial

/-- What holds of a key: its two buckets agree, and it is kept to its limit. -/
structure TrackedKey (o : RateLimitOptions) (now : ℚ) (r : Option Bucket) (k : KeyHistory) :
    Prop where
  synced : Synced now r k.unswept
  metered : MeteredKey o now k

/-- What holds of every key and every result. -/
structure Tracked (o : RateLimitOptions) (s : History) : Prop where
  clock : 0 ≤ s.clock
  keys : ∀ key, TrackedKey o s.clock (s.limiter.buckets.get key) (s.keys key)
  results : ∀ results ∈ s.results, results.1 = results.2

theorem trackedKey_empty (o : RateLimitOptions) (now : ℚ) : TrackedKey o now none .empty :=
  ⟨trivial, rfl, rfl⟩

theorem TrackedKey.forget (h : TrackedKey o now r (keys other)) (evicted : Option Evicted) :
    TrackedKey o now (if evicted.any fun e => e.key = other then none else r)
      (RateLimit.forget keys evicted other) := by
  cases evicted with
  | none => exact h
  | some e =>
    rw [RateLimit.forget]
    by_cases heq : e.key = other
    · subst heq
      simp only [any_some, decide_true, if_true, update_self]
      exact trackedKey_empty o now
    · simp only [any_some, heq, decide_false, Bool.false_eq_true, if_false,
        update_of_ne (Ne.symm heq)]
      exact h

theorem TrackedKey.cleanup {r' : Option Bucket} {k : KeyHistory} (h : TrackedKey o now r k)
    (ht : now ≤ t) (hr : r' = r ∨ r' = r.filter fun b => !b.expired t) : TrackedKey o t r' k := by
  refine ⟨?_, h.metered.mono ht⟩
  rcases hr with rfl | rfl
  · exact h.synced.mono ht
  · exact (h.synced.mono ht).filter

theorem Synced.allowance_eq (h : Synced t r u) : allowance o r t = allowance o u t := by
  match r, u, h with
  | none, none, _ => rfl
  | none, some b', h =>
    rw [allowance, allowance, getD_none, getD_some, refill_fresh.1,
      (refill_of_over h.1).1]
  | some b, some b', h => exact (refill_points_resetAt h.points h.resetAt).1

theorem allowance_cleanup {r' : Option Bucket} (hr : r' = r ∨ r' = r.filter fun b => !b.expired t) :
    allowance o r t = allowance o r' t := by
  rcases hr with rfl | rfl
  · rfl
  · cases r with
    | none => rfl
    | some b =>
      rw [filter_some]
      cases hexpired : b.expired t with
      | false => rfl
      | true =>
        simp only [Bucket.expired, Bool.and_eq_true, decide_eq_true_eq] at hexpired
        exact (refill_of_over hexpired.1).1.trans refill_fresh.1.symm

/-- The key of a call, of which nothing is forgotten where it has a bucket. -/
theorem TrackedKey.found (h : TrackedKey o now r (keys key)) {evicted : Option Evicted}
    (hevicted : ∀ b, r = some b → evicted = none) :
    TrackedKey o now r (RateLimit.forget keys evicted key) := by
  have hforget := h.forget evicted
  cases r with
  | none => rwa [ite_self] at hforget
  | some b =>
    rw [hevicted b rfl] at hforget ⊢
    exact hforget

theorem unswept_consume (k : KeyHistory) (done : Consumed) :
    (k.consume o cost t done).unswept =
      some ((k.unswept.getD (.fresh o o.points t)).consume o cost t 0).bucket := by
  rw [KeyHistory.consume]
  cases done.placed <;> rfl

/-- A key without a bucket that is never swept has none after others were forgotten. -/
theorem unswept_forget (h : (keys key).unswept = none) (evicted : Option Evicted) :
    (RateLimit.forget keys evicted key).unswept = none := by
  cases evicted with
  | none => exact h
  | some e =>
    rw [RateLimit.forget]
    by_cases heq : key = e.key
    · rw [heq, update_self]
      rfl
    · rw [update_of_ne heq]
      exact h

/-- A ban on both buckets of a key, neither of which was swept. -/
theorem Synced.ban (h : Synced t r u) (hknown : r = none → u = none) (expiry : ℚ) (seq : ℕ) :
    Synced t (some { r.getD (.fresh o 0 t) with bannedUntil := expiry, banSeq := seq })
      (some { u.getD (.fresh o 0 t) with bannedUntil := expiry }) := by
  match r, u, h with
  | none, none, _ => exact ⟨rfl, rfl, .inl rfl⟩
  | none, some _, _ => exact nomatch hknown rfl
  | some _, some _, h => exact ⟨h.points, h.resetAt, .inl rfl⟩

theorem Synced.unban (h : Synced t r u) (ht : 0 ≤ t) :
    Synced t (r.map fun b => { b with bannedUntil := 0 })
      (u.map fun b => { b with bannedUntil := 0 }) := by
  match r, u, h with
  | none, none, _ => trivial
  | none, some _, h => exact ⟨h.1, ht⟩
  | some _, some _, h => exact ⟨h.points, h.resetAt, .inl rfl⟩

theorem Tracked.consume (h : Tracked o s) (hexact : Exact o s (.consume key cost t))
    (hcall : s.call o (.consume key cost t) = some s') : Tracked o s' := by
  simp only [History.call] at hcall
  split_ifs at hcall with hgo
  obtain ⟨hclock, hcost⟩ := hgo
  cases hcall
  have ht := h.clock.trans hclock
  obtain ⟨hend, hround⟩ := hexact
  have hcleanup := get_cleanup s.limiter t
  have hswept : ∀ other, TrackedKey o t ((s.limiter.cleanup t).buckets.get other) (s.keys other) :=
    fun other => (h.keys other).cleanup hclock (hcleanup other)
  rw [allowance_cleanup (hcleanup key)] at hround
  obtain ⟨hbucket, hkept, hget⟩ := bucketFor_spec (o := o) (s.limiter.cleanup t) key o.points t
  have hfound := (hswept key).found hkept
  simp only [consume, hbucket]
  have hothers := fun other => (hswept other).forget
    ((s.limiter.cleanup t).bucketFor o key o.points t).1
  generalize (s.limiter.cleanup t).bucketFor o key o.points t = found at hget hfound hothers
  generalize (s.limiter.cleanup t).buckets.get key = r at hfound hround
  have hagree : Agree t ((r.getD (.fresh o o.points t)).consume o cost t found.2.2.banSeq)
      (((forget s.keys found.1 key).unswept.getD (.fresh o o.points t)).consume o cost t 0) :=
    consume_synced hfound.synced ht
  refine ⟨ht, fun other => ?_, fun results hmem => ?_⟩
  · simp only [hget]
    by_cases heq : key = other
    · subst heq
      rw [if_pos rfl, update_self]
      rw [hfound.synced.allowance_eq] at hround
      refine ⟨?_, hfound.metered.consume hcost hend hround hagree⟩
      rw [unswept_consume]
      exact hagree.alike
    · rw [if_neg heq, update_of_ne (Ne.symm heq)]
      exact hothers other
  · rcases mem_concat.mp hmem with hmem | rfl
    · exact h.results results hmem
    · exact hagree.result

theorem Tracked.ban {duration : Option ℚ} (h : Tracked o s)
    (hexact : Exact o s (.ban key duration t))
    (hcall : s.call o (.ban key duration t) = some s') : Tracked o s' := by
  simp only [History.call] at hcall
  split_ifs at hcall with hclock
  cases hcall
  obtain ⟨hend, hknown⟩ := hexact
  have hkeys : ∀ other, TrackedKey o t (s.limiter.buckets.get other) (s.keys other) := fun other =>
    ⟨(h.keys other).synced.mono hclock, (h.keys other).metered.mono hclock⟩
  obtain ⟨hbucket, hkept, hget⟩ := bucketFor_spec (o := o) s.limiter key 0 t
  have hfound := (hkeys key).found hkept
  simp only [ban, hbucket]
  have hothers := fun other => (hkeys other).forget (s.limiter.bucketFor o key 0 t).1
  refine ⟨h.clock.trans hclock, fun other => ?_, h.results⟩
  simp only [hget]
  by_cases heq : key = other
  · subst heq
    rw [if_pos rfl, update_self]
    exact ⟨hfound.synced.ban (fun hnone => unswept_forget (hknown hnone) _) _ _,
      hfound.metered.ban _ hend⟩
  · rw [if_neg heq, update_of_ne (Ne.symm heq)]
    exact hothers other

theorem get_unban (l : RateLimiter) (key other : JsString) :
    (l.unban key).buckets.get other =
      if key = other then (l.buckets.get key).map fun b => { b with bannedUntil := 0 }
      else l.buckets.get other := by
  rw [unban]
  cases hget : l.buckets.get key with
  | none =>
    split_ifs with heq
    · exact heq ▸ hget
    · rfl
  | some b => exact get_set ..

theorem get_reset (l : RateLimiter) (key other : JsString) :
    (l.reset key).buckets.get other = if key = other then none else l.buckets.get other := by
  rw [reset]
  cases hget : l.buckets.get key with
  | none =>
    split_ifs with heq
    · exact heq ▸ hget
    · rfl
  | some b => exact get_delete ..

theorem Tracked.act (h : Tracked o s) {k : KeyHistory}
    (hget : ∀ other, l.buckets.get other = if key = other then r else s.limiter.buckets.get other)
    (hkey : TrackedKey o s.clock r k) :
    Tracked o { s with limiter := l, keys := update s.keys key k } := by
  refine ⟨h.clock, fun other => ?_, h.results⟩
  simp only [hget]
  by_cases heq : key = other
  · subst heq
    rw [if_pos rfl, update_self]
    exact hkey
  · rw [if_neg heq, update_of_ne (Ne.symm heq)]
    exact h.keys other

theorem Tracked.unban (h : Tracked o s) (key : JsString) :
    Tracked o { s with
      limiter := s.limiter.unban key
      keys := update s.keys key (s.keys key).unban } :=
  h.act (get_unban s.limiter key)
    ⟨(h.keys key).synced.unban h.clock, (h.keys key).metered.unban⟩

theorem Tracked.reset (h : Tracked o s) (key : JsString) :
    Tracked o { s with
      limiter := s.limiter.reset key
      keys := update s.keys key .empty } :=
  h.act (get_reset s.limiter key) (trackedKey_empty o s.clock)

theorem Tracked.clear (h : Tracked o s) (tenantId : JsString) :
    Tracked o { s with
      limiter := s.limiter.clear o tenantId
      keys := fun key => if isCleared o tenantId key then .empty else s.keys key } := by
  refine ⟨h.clock, fun other => ?_, h.results⟩
  simp only [RateLimiter.clear, CursorMap.get_filter]
  cases hcleared : isCleared o tenantId other with
  | true =>
    have hnone : (s.limiter.buckets.get other).filter (fun _ => !true) = none := by
      cases s.limiter.buckets.get other <;> rfl
    rw [hnone]
    exact trackedKey_empty o s.clock
  | false =>
    have hsame : (s.limiter.buckets.get other).filter (fun _ => !false) =
        s.limiter.buckets.get other := by
      cases s.limiter.buckets.get other <;> rfl
    rw [hsame]
    exact h.keys other

/-! ## Runs -/

/-- In a run whose steps do not round against the limit and ban no key whose entry was swept, every
key is kept to its limit and to its bans, and no result depends on what was swept. -/
theorem guaranteed_of_exact (o : RateLimitOptions) (clock : ℕ) {es : List RateLimitEvent}
    {s : History} (h : (rateLimitMachine o clock).ReachesWhere (Exact o) es s) :
    Guaranteed o s := by
  have htracked : Tracked o s := by
    refine h.invariant (I := Tracked o) ?_ fun s e s' hs hexact hstep => ?_
    · exact ⟨Nat.cast_nonneg clock, fun _ => trackedKey_empty o _,
        List.forall_mem_nil _⟩
    · cases e with
      | consume key cost t => exact hs.consume hexact hstep
      | ban key duration t => exact hs.ban hexact hstep
      | unban key =>
        cases hstep
        exact hs.unban key
      | reset key =>
        cases hstep
        exact hs.reset key
      | clear tenantId =>
        cases hstep
        exact hs.clear tenantId
  exact ⟨fun key => (htracked.keys key).metered.kept, htracked.results⟩

theorem second_pos : (0 : ℚ) < 1000 := by norm_num

theorem twoSeconds_nonneg : (0 : ℚ) ≤ 2000 := by norm_num

/-- Two calls in a second, and a ban of two seconds for the third. -/
def blockingOptions : RateLimitOptions :=
  ⟨2, 1000, 2000, 10, 16, false, Nat.two_pos, second_pos, twoSeconds_nonneg⟩

/-- A key that is banned by a call too many and let go, another that is banned, a tenant dropped. -/
def bannedRun : List RateLimitEvent :=
  [.consume (JsString.lit "a") 1 0, .consume (JsString.lit "a") 1 10,
    .consume (JsString.lit "a") 1 20, .consume (JsString.lit "a") 1 30, .unban (JsString.lit "a"),
    .consume (JsString.lit "a") 1 1020, .ban (JsString.lit "b") (some 500) 1100,
    .consume (JsString.lit "b") 1 1200, .reset (JsString.lit "b"), .clear (JsString.lit "t")]

theorem guaranteed_of_exact_bannedRun : ∃ s,
    (rateLimitMachine blockingOptions 0).ReachesWhere (Exact blockingOptions) bannedRun s ∧
      Guaranteed blockingOptions s ∧
      s.results.map (fun results => results.1.allowed) = [true, true, false, false, true, false] :=
  Machine.exists_and_of_execWhere (by decide +kernel) fun _ hs _ =>
    guaranteed_of_exact _ _ hs

/-! ## A ban on a key whose entry was swept -/

theorem bucketFor_of_none {p : ℚ} (hnone : l.buckets.get key = none)
    (hroom : l.buckets.size < o.maxBuckets) : l.bucketFor o key p t =
      (none, .fresh o p t, { l with buckets := l.buckets.set key (.fresh o p t) }) := by
  rw [bucketFor, hnone, makeRoom, if_neg (not_le.mpr hroom)]

theorem bucketFor_of_some {p : ℚ} (hsome : l.buckets.get key = some b) :
    l.bucketFor o key p t = (none, b, l) := by
  rw [bucketFor, hsome]

/-- A ban on a key whose entry was swept leaves it no allowance. -/
theorem ban_of_swept {d : Option ℚ} (hnone : s.limiter.buckets.get key = none)
    (hroom : s.limiter.buckets.size < o.maxBuckets) (hunswept : (s.keys key).unswept = some b)
    (hclock : s.clock ≤ t) :
    ∃ s' expiry seq, s.call o (.ban key d t) = some s' ∧ s'.clock = t ∧
      s'.limiter.buckets.get key = some ⟨0, nearest (t + o.interval), expiry, 0, seq⟩ ∧
      (s'.keys key).unswept = some { b with bannedUntil := expiry } := by
  have hcall : s.call o (.ban key d t) = some
      { s with
        limiter := (s.limiter.ban o key d t).2
        clock := t
        keys := update s.keys key
          ((s.keys key).ban o (nearest (t + banDuration o d)) t) } := by
    simp [History.call, if_pos hclock, ban, bucketFor_of_none hnone hroom, forget]
  refine ⟨_, nearest (t + banDuration o d), s.limiter.banSeq + 1, hcall, rfl, ?_, ?_⟩
  · simp only [ban, bucketFor_of_none hnone hroom, Bucket.fresh]
    exact get_set_self ..
  · simp [KeyHistory.ban, KeyHistory.place, hunswept]

theorem unban_of_banned {p r e : ℚ} {seq : ℕ}
    (hget : s.limiter.buckets.get key = some ⟨p, r, e, 0, seq⟩)
    (hunswept : (s.keys key).unswept = some { b with bannedUntil := e }) :
    ∃ s', s.call o (.unban key) = some s' ∧ s'.clock = s.clock ∧
      s'.limiter.buckets.get key = some ⟨p, r, 0, 0, seq⟩ ∧
      (s'.keys key).unswept = some { b with bannedUntil := 0 } := by
  refine ⟨_, rfl, rfl, ?_, ?_⟩
  · simp only [unban, hget]
    exact get_set_self ..
  · simp [KeyHistory.unban, hunswept]

theorem call_consume (hclock : s.clock ≤ t) (hcost : 0 ≤ cost)
    (hfound : (s.limiter.cleanup t).bucketFor o key o.points t = (none, b, l)) :
    s.call o (.consume key cost t) = some
      { limiter :=
          { l with
            buckets := l.buckets.set key (b.consume o cost t l.banSeq).bucket
            banSeq :=
              if (b.consume o cost t l.banSeq).placed.isSome then l.banSeq + 1 else l.banSeq }
        clock := t
        keys := update s.keys key
          ((s.keys key).consume o cost t (b.consume o cost t l.banSeq))
        results := s.results ++ [((b.consume o cost t l.banSeq).result,
          (((s.keys key).unswept.getD (.fresh o o.points t)).consume o cost t 0).result)] } := by
  simp [History.call, if_pos (And.intro hclock hcost), consume, hfound, forget]

/-- A call on a key without allowance is refused, where the window that was not swept is over. -/
theorem consume_of_swept {r : ℚ} {seq : ℕ}
    (hget : s.limiter.buckets.get key = some ⟨0, r, 0, 0, seq⟩)
    (hunswept : (s.keys key).unswept = some { b with bannedUntil := 0 }) (hover : b.resetAt ≤ t)
    (hclock : s.clock ≤ t) (ht : 0 ≤ t) (hend : t < r) :
    ∃ s' results, s.call o (.consume key 1 t) = some s' ∧ results ∈ s'.results ∧
      results.1.allowed = false ∧ results.2.allowed = true := by
  have hpoints : (1 : ℚ) ≤ o.points := by exact_mod_cast o.points_pos
  have hkept : (s.limiter.cleanup t).buckets.get key = some ⟨0, r, 0, 0, seq⟩ := by
    rcases get_cleanup s.limiter t key with heq | heq
    · rw [heq, hget]
    · rw [heq, hget, filter_some, if_pos]
      simp [Bucket.expired, not_le.mpr hend]
  refine ⟨_, _, call_consume hclock zero_le_one (bucketFor_of_some hkept),
    List.mem_concat_self, ?_, ?_⟩
  · simp only [Bucket.consume, if_neg (not_lt.mpr ht), Bucket.refill, if_neg (not_le.mpr hend),
      if_neg (not_le.mpr (zero_lt_one (α := ℚ)))]
    split_ifs <;> rfl
  · simp only [hunswept, getD_some, Bucket.consume, if_neg (not_lt.mpr ht), Bucket.refill,
      if_pos hover, if_pos hpoints]

/-! ## Many keys -/

theorem millisecond_pos : (0 : ℚ) < 1 := by norm_num

theorem noBlock_nonneg : (0 : ℚ) ≤ 0 := le_refl 0

/-- Two calls in a millisecond. -/
def briefOptions : RateLimitOptions :=
  ⟨2, 1, 0, 1000000, 16, false, Nat.two_pos, millisecond_pos, noBlock_nonneg⟩

/-- A key for every number. -/
def keyOf (n : ℕ) : JsString := [UInt16.ofNat n]

theorem keyOf_ne {i j : ℕ} (hij : i < j) (hj : j < 65536) : keyOf j ≠ keyOf i := by
  intro heq
  have hunit := (List.cons.inj heq).1
  have hval := congrArg UInt16.toNat hunit
  rw [UInt16.toNat_ofNat_of_lt' hj, UInt16.toNat_ofNat_of_lt' (hij.trans hj)] at hval
  omega

/-- One call of each of the first keys. -/
def callEach (n : ℕ) : List RateLimitEvent := (List.range n).map fun i => .consume (keyOf i) 1 0

/-- A limiter after one call of each of the first keys. -/
structure CalledEach (n : ℕ) (s : History) : Prop where
  clock : s.clock = 0
  banSeq : s.limiter.banSeq = 0
  size : s.limiter.buckets.size = n
  called : ∀ i, i < n → s.limiter.buckets.get (keyOf i) = some ⟨1, 1, 0, 0, 0⟩ ∧
    (s.keys (keyOf i)).unswept = some ⟨1, 1, 0, 0, 0⟩
  notYet : ∀ i, n ≤ i → i < 65536 → s.limiter.buckets.get (keyOf i) = none ∧
    (s.keys (keyOf i)).unswept = none

theorem CalledEach.call {n : ℕ} (h : CalledEach n s) (hn : n ≤ 1000) :
    ∃ s', s.call briefOptions (.consume (keyOf n) 1 0) = some s' ∧ CalledEach (n + 1) s' := by
  have hsize : s.limiter.buckets.size < briefOptions.maxBuckets := by
    rw [h.size]
    exact lt_of_le_of_lt hn (by decide)
  have hcleanup : s.limiter.cleanup 0 = s.limiter := if_pos (h.size ▸ hn)
  obtain ⟨hnone, hunswept⟩ := h.notYet n (le_refl n) (by omega)
  have hdone : ((Bucket.fresh briefOptions briefOptions.points 0).consume briefOptions 1 0 0) =
      ⟨⟨true, 1, 1⟩, ⟨1, 1, 0, 0, 0⟩, none⟩ := by
    decide +kernel
  have hfound := bucketFor_of_none (t := 0) (p := briefOptions.points) hnone hsize
  rw [← hcleanup] at hfound
  have hcall := call_consume (o := briefOptions) h.clock.le zero_le_one hfound
  rw [hcleanup] at hcall
  simp only [h.banSeq, hdone, hunswept, getD_none] at hcall
  refine ⟨_, hcall, rfl, rfl, ?_, fun i hi => ?_, fun i hi hlt => ?_⟩
  · simp [size_set, hnone, h.size]
  · simp only [get_set]
    rcases Nat.lt_succ_iff_lt_or_eq.mp hi with hlt | rfl
    · rw [if_neg (keyOf_ne hlt (by omega)), if_neg (keyOf_ne hlt (by omega)),
        update_of_ne (keyOf_ne hlt (by omega)).symm]
      exact h.called i hlt
    · rw [if_pos rfl, update_self, unswept_consume, hunswept]
      exact ⟨rfl, congrArg (fun done => some done.bucket) hdone⟩
  · simp only [get_set]
    have hne : keyOf n ≠ keyOf i := (keyOf_ne hi hlt).symm
    rw [if_neg hne, if_neg hne, update_of_ne hne.symm]
    exact h.notYet i (by omega) hlt

theorem calledEach (n : ℕ) (hn : n ≤ 1001) : ∃ s, (rateLimitMachine briefOptions 0).Reaches
    (callEach n) s ∧ CalledEach n s := by
  induction n with
  | zero =>
    refine ⟨_, .start, rfl, rfl, rfl, fun i hi => absurd hi (Nat.not_lt_zero i),
      fun i _ _ => ⟨rfl, rfl⟩⟩
  | succ n ih =>
    obtain ⟨s, hs, hcalled⟩ := ih (by omega)
    obtain ⟨s', hcall, hcalled'⟩ := hcalled.call (by omega)
    refine ⟨s', ?_, hcalled'⟩
    rw [callEach, List.range_succ, List.map_append]
    exact .next hs trivial hcall

/-- The second key is called again after every window is over. -/
theorem swept_after (h : CalledEach 1001 s) :
    ∃ s', s.call briefOptions (.consume (keyOf 1) 1 2) = some s' ∧ s'.clock = 2 ∧
      s'.limiter.buckets.get (keyOf 0) = none ∧
      s'.limiter.buckets.size < briefOptions.maxBuckets ∧
      (s'.keys (keyOf 0)).unswept = some ⟨1, 1, 0, 0, 0⟩ := by
  have hcleanup : (s.limiter.cleanup 2).buckets =
      s.limiter.buckets.filter fun _ b => !b.expired 2 := by
    rw [cleanup, h.size, if_neg (by decide)]
  have hswept : ∀ i, i < 1001 → (s.limiter.cleanup 2).buckets.get (keyOf i) = none := by
    intro i hi
    rw [hcleanup, CursorMap.get_filter, (h.called i hi).1]
    decide +kernel
  have hsize : (s.limiter.cleanup 2).buckets.size ≤ 1001 := by
    rw [hcleanup, ← h.size]
    exact size_filter_le ..
  have hroom : (s.limiter.cleanup 2).buckets.size < briefOptions.maxBuckets :=
    lt_of_le_of_lt hsize (by decide)
  have hne : keyOf 1 ≠ keyOf 0 := keyOf_ne zero_lt_one (by decide)
  refine ⟨_, call_consume (h.clock.trans_le zero_le_two) zero_le_one
    (bucketFor_of_none (hswept 1 (by decide)) hroom), rfl, ?_, ?_, ?_⟩
  · simp only [get_set, if_neg hne]
    exact hswept 0 (by decide)
  · simp only [size_set, get_set_self, isSome_some, if_true,
      hswept 1 (by decide), isSome_none, Bool.false_eq_true, if_false]
    exact lt_of_le_of_lt (Nat.succ_le_succ hsize) (by decide)
  · simp only [update_of_ne hne.symm]
    exact (h.called 0 (by decide)).2

/-- The call a sweep decides. -/
def sweptBan : List RateLimitEvent :=
  callEach 1001 ++ [.consume (keyOf 1) 1 2] ++ [.ban (keyOf 0) none 2] ++ [.unban (keyOf 0)] ++
    [.consume (keyOf 0) 1 2]

/-- One call in a second. -/
def singleOptions : RateLimitOptions :=
  ⟨1, 1000, 0, 10, 16, false, Nat.one_pos, second_pos, noBlock_nonneg⟩

/-- Ten calls for a tenth, none of which is a tenth. -/
def tenths : List RateLimitEvent := List.replicate 10 (.consume (keyOf 0) (nearest (1 / 10)) 0)

/-- A sweep decides a result, and rounding lets more through than the points of a window. -/
theorem not_guaranteed_sweptBan :
    (¬∀ (o : RateLimitOptions) (clock : ℕ) (es : List RateLimitEvent) (s : History),
      (rateLimitMachine o clock).Reaches es s → ∀ results ∈ s.results, results.1 = results.2) ∧
    ¬∀ (o : RateLimitOptions) (clock : ℕ) (es : List RateLimitEvent) (s : History),
      (rateLimitMachine o clock).Reaches es s → ∀ key, Kept o (s.keys key) := by
  constructor
  · intro hall
    obtain ⟨s, hs, hcalled⟩ := calledEach 1001 (le_refl 1001)
    obtain ⟨s₁, hcall₁, hclock₁, hnone, hroom, hunswept₁⟩ := swept_after hcalled
    obtain ⟨s₂, expiry, seq, hcall₂, hclock₂, hget₂, hunswept₂⟩ :=
      ban_of_swept (d := none) hnone hroom hunswept₁ hclock₁.le
    obtain ⟨s₃, hcall₃, hclock₃, hget₃, hunswept₃⟩ :=
      unban_of_banned (o := briefOptions) hget₂ hunswept₂
    obtain ⟨s₄, results, hcall₄, hmem, hrefused, hallowed⟩ :=
      consume_of_swept (t := 2) hget₃ hunswept₃ one_le_two (hclock₃.trans hclock₂).le zero_le_two
        (by decide +kernel)
    have hreach : (rateLimitMachine briefOptions 0).Reaches sweptBan s₄ :=
      .next (.next (.next (.next hs trivial hcall₁) trivial hcall₂) trivial hcall₃) trivial hcall₄
    have hresult := congrArg ConsumeResult.allowed (hall _ _ _ _ hreach results hmem)
    rw [hrefused, hallowed] at hresult
    cases hresult
  · intro hall
    obtain ⟨s, hs, hp⟩ : ∃ s, (rateLimitMachine singleOptions 0).Reaches tenths s ∧
        1 < Spans.total (· = 1000) ((s.keys (keyOf 0)).grants.map Grant.windowed) :=
      Machine.exists_of_exec (by decide +kernel)
    have hwindow := (hall _ _ _ _ hs (keyOf 0)).window 1000
    have hone : ((singleOptions.points : ℕ) : ℚ) = 1 := Nat.cast_one
    rw [hone] at hwindow
    exact absurd hp (not_lt.mpr hwindow)

end AdapterWs.RateLimit
