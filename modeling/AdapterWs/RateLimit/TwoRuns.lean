import AdapterWs.RateLimit.Guarantee

/-!
# Two runs of a rate limiter

Two limiters are compared key by key: the buckets of a key are alike, or one has none and the
window and the ban of the other are over. They answer alike and stay so, unless a key is banned that
has a bucket in one of them only: the new bucket starts without an allowance.
-/

namespace AdapterWs.RateLimit

open Binary64 JsString RateLimiter

variable {o : RateLimitOptions} {l : RateLimiter} {b b' : Bucket} {now t cost : ℚ}
  {key other : JsString} {r r' u u' : Option Bucket} {seq seq' : ℕ}

/-! ## The buckets of a key -/

theorem Alike.symm (h : Alike now b b') : Alike now b' b :=
  ⟨h.points.symm, h.resetAt.symm, h.bannedUntil.imp Eq.symm And.symm⟩

/-- The buckets of a key in two runs. -/
def Matched (now : ℚ) : Option Bucket → Option Bucket → Prop
  | none, none => True
  | none, some b => b.resetAt ≤ now ∧ b.bannedUntil ≤ now
  | some b, none => b.resetAt ≤ now ∧ b.bannedUntil ≤ now
  | some b, some b' => Alike now b b'

theorem Matched.refl (now : ℚ) (r : Option Bucket) : Matched now r r := by
  cases r with
  | none => trivial
  | some b => exact Alike.refl now b

theorem Matched.symm (h : Matched now r u) : Matched now u r := by
  match r, u, h with
  | none, none, _ => trivial
  | none, some _, h => exact h
  | some _, none, h => exact h
  | some _, some _, h => exact Alike.symm h

theorem Matched.mono (h : Matched now r u) (ht : now ≤ t) : Matched t r u := by
  match r, u, h with
  | none, none, _ => trivial
  | none, some _, h => exact ⟨h.1.trans ht, h.2.trans ht⟩
  | some _, none, h => exact ⟨h.1.trans ht, h.2.trans ht⟩
  | some _, some _, h => exact Alike.mono h ht

theorem Alike.expired (h : Alike t b b') (hover : b.expired t = true) : b'.expired t = true := by
  simp only [Bucket.expired, Bool.and_eq_true, decide_eq_true_eq] at hover ⊢
  refine ⟨h.resetAt ▸ hover.1, ?_⟩
  rcases h.bannedUntil with heq | hboth
  · exact heq ▸ hover.2
  · exact hboth.2

theorem expired_mono (hover : b.expired t = true) (ht : t ≤ now) : b.expired now = true := by
  simp only [Bucket.expired, Bool.and_eq_true, decide_eq_true_eq] at hover ⊢
  exact ⟨hover.1.trans ht, hover.2.trans ht⟩

theorem Matched.filter (h : Matched now r u) (ht : t ≤ now) :
    Matched now (r.filter fun b => !b.expired t) u := by
  match r, u, h with
  | none, none, _ => trivial
  | none, some _, h => exact h
  | some b, none, h =>
    rw [Option.filter_some]
    split_ifs
    · exact h
    · trivial
  | some b, some b', h =>
    rw [Option.filter_some]
    cases hover : b.expired t with
    | false => exact h
    | true =>
      have hover' := Alike.expired h (expired_mono hover ht)
      simpa [Bucket.expired, Matched] using hover'

/-- What a sweep leaves of a bucket, if there was one. -/
def Swept (t : ℚ) (r r' : Option Bucket) : Prop := r' = r ∨ r' = r.filter fun b => !b.expired t

theorem Matched.swept_left (h : Matched now r u) (hr : Swept t r r') (ht : t ≤ now) :
    Matched now r' u := by
  rcases hr with rfl | rfl
  · exact h
  · exact h.filter ht

theorem Matched.swept (h : Matched t r u) (hr : Swept t r r') (hu : Swept t u u') :
    Matched t r' u' :=
  ((h.swept_left hr le_rfl).symm.swept_left hu le_rfl).symm

theorem Agree.symm {d d' : Consumed} (h : Agree t d d') : Agree t d' d :=
  ⟨h.result.symm, h.placed.symm, h.alike.symm⟩

/-- The bucket a call finds. -/
def found (o : RateLimitOptions) (r : Option Bucket) (t : ℚ) : Bucket :=
  r.getD (.fresh o o.points t)

theorem agree_of_matched (h : Matched t r u) (ht : 0 ≤ t) :
    Agree t ((found o r t).consume o cost t seq) ((found o u t).consume o cost t seq') := by
  match r, u, h with
  | none, none, _ => exact agree_of_alike (Alike.refl t _)
  | none, some b, h => exact consume_synced (r := none) (u := some b) h ht
  | some b, none, h => exact (consume_synced (r := none) (u := some b) h ht).symm
  | some b, some b', h => exact agree_of_alike h

theorem Matched.consume (h : Matched t r u) (ht : 0 ≤ t) :
    Matched t (some ((found o r t).consume o cost t seq).bucket)
      (some ((found o u t).consume o cost t seq').bucket) := (agree_of_matched h ht).alike

/-- A key that is banned, with a bucket in both runs or in neither. -/
theorem Matched.ban (h : Matched t r u) (hsome : r.isSome = u.isSome) (expiry : ℚ) :
    Matched t (some { r.getD (.fresh o 0 t) with bannedUntil := expiry, banSeq := seq })
      (some { u.getD (.fresh o 0 t) with bannedUntil := expiry, banSeq := seq' }) := by
  match r, u, h, hsome with
  | none, none, _, _ => exact ⟨rfl, rfl, .inl rfl⟩
  | some _, some _, h, _ => exact ⟨h.points, h.resetAt, .inl rfl⟩

theorem Matched.unban (h : Matched t r u) (ht : 0 ≤ t) :
    Matched t (r.map fun b => { b with bannedUntil := 0 })
      (u.map fun b => { b with bannedUntil := 0 }) := by
  match r, u, h with
  | none, none, _ => trivial
  | none, some _, h => exact ⟨h.1, ht⟩
  | some _, none, h => exact ⟨h.1, ht⟩
  | some _, some _, h => exact ⟨h.points, h.resetAt, .inl rfl⟩

/-! ## The buckets after a call -/

theorem swept_cleanup (l : RateLimiter) (t : ℚ) (key : JsString) :
    Swept t (l.buckets.get key) ((l.cleanup t).buckets.get key) := get_cleanup l t key

theorem size_cleanup_le (l : RateLimiter) (t : ℚ) :
    (l.cleanup t).buckets.size ≤ l.buckets.size := by
  rw [cleanup]
  split_ifs
  · exact le_rfl
  · exact CursorMap.size_filter_le ..

/-- A call that evicts nothing changes the bucket of its key. -/
theorem get_consume (hevicted : (l.consume o key cost t).2.1 = none) :
    (l.consume o key cost t).1.result =
        ((found o ((l.cleanup t).buckets.get key) t).consume o cost t 0).result ∧
      ∃ seq, ∀ other, (l.consume o key cost t).2.2.buckets.get other =
        if key = other then
          some ((found o ((l.cleanup t).buckets.get key) t).consume o cost t seq).bucket
        else (l.cleanup t).buckets.get other := by
  obtain ⟨hbucket, -, hget⟩ := bucketFor_spec (o := o) (l.cleanup t) key o.points t
  have hnone : ((l.cleanup t).bucketFor o key o.points t).1 = none := hevicted
  refine ⟨?_, ((l.cleanup t).bucketFor o key o.points t).2.2.banSeq, fun other => ?_⟩
  · simp only [consume, hbucket]
    exact (agree_of_alike (Alike.refl t _)).result
  · simp only [consume, hget, hnone, hbucket, Option.any_none, Bool.false_eq_true,
      if_false]
    rfl

theorem get_ban {duration : Option ℚ} (hevicted : (l.ban o key duration t).1 = none) :
    ∃ seq, ∀ other, (l.ban o key duration t).2.buckets.get other =
      if key = other then
        some { (l.buckets.get key).getD (.fresh o 0 t) with
          bannedUntil := nearest (t + banDuration o duration), banSeq := seq }
      else l.buckets.get other := by
  obtain ⟨hbucket, -, hget⟩ := bucketFor_spec (o := o) l key 0 t
  have hnone : (l.bucketFor o key 0 t).1 = none := hevicted
  refine ⟨(l.bucketFor o key 0 t).2.2.banSeq + 1, fun other => ?_⟩
  simp [ban, hget, hnone, hbucket]

theorem get_clear (l : RateLimiter) (tenantId other : JsString) :
    (l.clear o tenantId).buckets.get other =
      if isCleared o tenantId other = true then none else l.buckets.get other := by
  rw [clear, CursorMap.get_filter]
  cases isCleared o tenantId other <;> cases l.buckets.get other <;> rfl

end AdapterWs.RateLimit
