import AdapterWs.RateLimit.OldestBan
import AdapterWs.RateLimit.TwoRuns

/-!
# Idle buckets

A bucket whose window and ban are over and that has drawn nothing for a whole window says nothing:
a limiter that has dropped it goes on like one that keeps it. Only a ban tells them apart, which
gives a key without a bucket one without an allowance.
-/

namespace AdapterWs.RateLimit

open Binary64 JsString Bucket

variable {o : RateLimitOptions} {l : RateLimiter} {b b' : Bucket} {now t cost : ℚ}
  {key other : JsString} {r r' u u' : Option Bucket} {seq seq' : ℕ}

/-! ## A bucket that says nothing -/

/-- A bucket whose window and ban are over, and whose activity is nothing. -/
structure Idle (o : RateLimitOptions) (now : ℚ) (b : Bucket) : Prop where
  window : b.resetAt ≤ now
  ban : b.bannedUntil ≤ now
  activity : b.activity o now = 0

theorem activity_of_over (h : b.resetAt ≤ t) : b.activity o t =
    if t < nearest (b.resetAt + o.interval) then nearest (o.points - b.points) else 0 := by
  rw [activity]
  simp [if_neg (not_lt.mpr h)]

theorem Idle.mono (h : Idle o now b) (ht : now ≤ t) : Idle o t b := by
  refine ⟨h.window.trans ht, h.ban.trans ht, ?_⟩
  have hnow := h.activity
  rw [activity_of_over h.window] at hnow
  rw [activity_of_over (h.window.trans ht)]
  split_ifs with hlt
  · rwa [if_pos (ht.trans_lt hlt)] at hnow
  · rfl

theorem prev_refill_of_over (h : b.resetAt ≤ t) : (b.refill o t).prev = b.activity o t := by
  rw [activity_of_over h, refill, if_pos h]

theorem prev_refill_of_not_over (h : ¬b.resetAt ≤ t) : (b.refill o t).prev = b.prev := by
  rw [refill, if_neg h]

theorem prev_refill_fresh : ((fresh o o.points t).refill o t).prev = 0 := by
  rw [refill]
  split_ifs with hover hlt
  · simp [fresh]
  · rfl
  · rfl

/-! ## The buckets of the key -/

/-- The buckets of the key in the two runs: they differ in bans that are over, or one has none and
the other says nothing. -/
def Interchangeable (o : RateLimitOptions) (now : ℚ) : Option Bucket → Option Bucket → Prop
  | none, none => True
  | none, some b => Idle o now b
  | some b, none => Idle o now b
  | some b, some b' => Alike now b b' ∧ b.prev = b'.prev

theorem Interchangeable.matched (h : Interchangeable o now r u) : Matched now r u := by
  match r, u, h with
  | none, none, _ => trivial
  | none, some _, h => exact ⟨h.window, h.ban⟩
  | some _, none, h => exact ⟨h.window, h.ban⟩
  | some _, some _, h => exact h.1

theorem Interchangeable.mono (h : Interchangeable o now r u) (ht : now ≤ t) :
    Interchangeable o t r u := by
  match r, u, h with
  | none, none, _ => trivial
  | none, some _, h => exact Idle.mono h ht
  | some _, none, h => exact Idle.mono h ht
  | some _, some _, h => exact ⟨Alike.mono h.1 ht, h.2⟩

/-- How much a key has drawn; one without a bucket has drawn nothing. -/
def score (o : RateLimitOptions) (r : Option Bucket) (t : ℚ) : ℚ :=
  r.elim 0 fun b => b.activity o t

/-- Until when a ban on a key stands. -/
def standing (r : Option Bucket) (t : ℚ) : Option ℚ :=
  r.bind fun b => if t < b.bannedUntil then some b.bannedUntil else none

theorem standing_of_over (h : b.bannedUntil ≤ t) : standing (some b) t = none := by
  rw [standing, Option.bind_some, if_neg (not_lt.mpr h)]

theorem Interchangeable.score (h : Interchangeable o now r u) (ht : now ≤ t) :
    score o r t = score o u t := by
  match r, u, h with
  | none, none, _ => rfl
  | none, some _, h => exact (Idle.mono h ht).activity.symm
  | some _, none, h => exact (Idle.mono h ht).activity
  | some b, some b', h =>
    simp [RateLimit.score, activity, h.1.points, h.1.resetAt, h.2]

theorem Matched.standing (h : Matched now r u) (ht : now ≤ t) : standing r t = standing u t := by
  match r, u, h with
  | none, none, _ => rfl
  | none, some _, h => exact (standing_of_over (h.2.trans ht)).symm
  | some _, none, h => exact standing_of_over (h.2.trans ht)
  | some b, some b', h =>
    rcases h.bannedUntil with heq | ⟨hb, hb'⟩
    · simp [RateLimit.standing, heq]
    · rw [standing_of_over (hb.trans ht), standing_of_over (hb'.trans ht)]

theorem Interchangeable.prev (h : Interchangeable o t r u) :
    ((found o r t).refill o t).prev = ((found o u t).refill o t).prev := by
  match r, u, h with
  | none, none, _ => rfl
  | none, some b, h =>
    exact prev_refill_fresh.trans (h.activity.symm.trans (prev_refill_of_over h.window).symm)
  | some b, none, h =>
    exact ((prev_refill_of_over h.window).trans h.activity).trans prev_refill_fresh.symm
  | some b, some b', h =>
    by_cases hover : b'.resetAt ≤ t
    · have hover' : b.resetAt ≤ t := h.1.resetAt ▸ hover
      have hscore := Interchangeable.score (r := some b) (u := some b') h (le_refl t)
      exact (prev_refill_of_over hover').trans (hscore.trans (prev_refill_of_over hover).symm)
    · have hover' : ¬b.resetAt ≤ t := h.1.resetAt ▸ hover
      exact (prev_refill_of_not_over hover').trans (h.2.trans (prev_refill_of_not_over hover).symm)

theorem prev_consume (b : Bucket) (cost t : ℚ) (seq : ℕ) :
    (b.consume o cost t seq).bucket.prev =
      if t < b.bannedUntil then b.prev else (b.refill o t).prev := by
  simp only [consume]
  split_ifs <;> rfl

theorem prev_consume_congr (hban : t < b.bannedUntil ↔ t < b'.bannedUntil)
    (hprev : t < b.bannedUntil → b.prev = b'.prev)
    (hrefill : (b.refill o t).prev = (b'.refill o t).prev) :
    (b.consume o cost t seq).bucket.prev = (b'.consume o cost t seq').bucket.prev := by
  rw [prev_consume, prev_consume]
  by_cases hb : t < b.bannedUntil
  · rw [if_pos hb, if_pos (hban.mp hb)]
    exact hprev hb
  · rw [if_neg hb, if_neg (fun hb' => hb (hban.mpr hb'))]
    exact hrefill

theorem Interchangeable.consume (h : Interchangeable o t r u) (ht : 0 ≤ t) :
    Interchangeable o t (some ((found o r t).consume o cost t seq).bucket)
      (some ((found o u t).consume o cost t seq').bucket) := by
  refine ⟨(agree_of_matched h.matched ht).alike, ?_⟩
  have hrefill := h.prev
  have hfresh : ¬t < (fresh o o.points t).bannedUntil := not_lt.mpr ht
  match r, u, h with
  | none, none, _ => exact prev_consume_congr Iff.rfl (fun _ => rfl) rfl
  | none, some b, h =>
    exact prev_consume_congr (iff_of_false hfresh (not_lt.mpr h.ban))
      (fun hban => absurd hban hfresh) hrefill
  | some b, none, h =>
    exact prev_consume_congr (iff_of_false (not_lt.mpr h.ban) hfresh)
      (fun hban => absurd hban (not_lt.mpr h.ban)) hrefill
  | some b, some b', ⟨halike, hprev⟩ =>
    have hban : t < b.bannedUntil ↔ t < b'.bannedUntil := by
      rcases halike.bannedUntil with hsame | ⟨hb, hb'⟩
      · rw [hsame]
      · exact iff_of_false (not_lt.mpr hb) (not_lt.mpr hb')
    exact prev_consume_congr hban (fun _ => hprev) hrefill

/-- A sweep that leaves the bucket in one run only, where it says nothing. -/
def SweptAlike (o : RateLimitOptions) (t : ℚ) : Option Bucket → Option Bucket → Prop
  | none, some b => b.activity o t = 0
  | some b, none => b.activity o t = 0
  | none, none => True
  | some _, some _ => True

theorem Interchangeable.swept (h : Interchangeable o t r u) (hr : Swept t r r') (hu : Swept t u u')
    (hlevel : SweptAlike o t r' u') : Interchangeable o t r' u' := by
  have hmatched := h.matched.swept hr hu
  have hkept : ∀ {r r' : Option Bucket} {b}, Swept t r r' → r' = some b → r = some b := by
    intro r r' b hr heq
    rcases hr with rfl | rfl
    · exact heq
    · exact (Option.filter_eq_some_iff.mp heq).1
  match r', u', hlevel with
  | none, none, _ => trivial
  | none, some b, hlevel => exact ⟨hmatched.1, hmatched.2, hlevel⟩
  | some b, none, hlevel => exact ⟨hmatched.1, hmatched.2, hlevel⟩
  | some b, some b', _ =>
    obtain rfl := hkept hr rfl
    obtain rfl := hkept hu rfl
    exact h

theorem Interchangeable.ban (h : Interchangeable o t r u) (hsome : r.isSome = u.isSome)
    (expiry : ℚ) :
    Interchangeable o t (some { r.getD (.fresh o 0 t) with bannedUntil := expiry, banSeq := seq })
      (some { u.getD (.fresh o 0 t) with bannedUntil := expiry, banSeq := seq' }) := by
  refine ⟨h.matched.ban hsome expiry, ?_⟩
  match r, u, h, hsome with
  | none, none, _, _ => rfl
  | some _, some _, h, _ => exact h.2

theorem Interchangeable.unban (h : Interchangeable o t r u) (ht : 0 ≤ t) :
    Interchangeable o t (r.map fun b => { b with bannedUntil := 0 })
      (u.map fun b => { b with bannedUntil := 0 }) := by
  match r, u, h with
  | none, none, _ => trivial
  | none, some _, h => exact ⟨h.window, ht, h.activity⟩
  | some _, none, h => exact ⟨h.window, ht, h.activity⟩
  | some _, some _, h => exact ⟨⟨h.1.points, h.1.resetAt, .inl rfl⟩, h.2⟩

/-! ## Two runs -/

/-- The limiter that has dropped the bucket, the one that keeps it, the last reading of the clock,
and their results. -/
structure Twins where
  dropped : RateLimiter
  kept : RateLimiter
  clock : ℚ
  results : List (ConsumeResult × ConsumeResult)

/-- A call on both. -/
def Twins.call (o : RateLimitOptions) (s : Twins) : RateLimitEvent → Option Twins
  | .consume key cost t =>
    if 0 ≤ cost then
      let dropped := s.dropped.consume o key cost t
      let kept := s.kept.consume o key cost t
      some ⟨dropped.2.2, kept.2.2, t, s.results ++ [(dropped.1.result, kept.1.result)]⟩
    else none
  | .ban key duration t =>
    some { s with
      dropped := (s.dropped.ban o key duration t).2
      kept := (s.kept.ban o key duration t).2
      clock := t }
  | .unban key => some { s with dropped := s.dropped.unban key, kept := s.kept.unban key }
  | .reset key => some { s with dropped := s.dropped.reset key, kept := s.kept.reset key }
  | .clear tenantId =>
    some { s with dropped := s.dropped.clear o tenantId, kept := s.kept.clear o tenantId }

/-- A limiter and one that has dropped a bucket of it at a time, with any iterator. -/
def twinMachine (o : RateLimitOptions) (l : RateLimiter) (key : JsString) (cursor : Option ℕ)
    (t : ℚ) : Machine Twins RateLimitEvent where
  init := ⟨{ l with buckets := l.buckets.delete key, evictCursor := cursor }, l, t, []⟩
  step s e := s.call o e

/-- A step that evicts nothing in either run. -/
def EvictsNothing (o : RateLimitOptions) (s : Twins) : RateLimitEvent → Prop
  | .consume key cost t =>
    (s.dropped.consume o key cost t).2.1 = none ∧ (s.kept.consume o key cost t).2.1 = none
  | .ban key duration t =>
    (s.dropped.ban o key duration t).1 = none ∧ (s.kept.ban o key duration t).1 = none
  | .unban _ | .reset _ | .clear _ => True

/-- A step that evicts nothing, at a time not before the last; it bans no key that has a bucket in
one run only, and sweeps the bucket of the dropped key from both or neither, or where it says
nothing. -/
def Level (o : RateLimitOptions) (dropped : JsString) (s : Twins) : RateLimitEvent → Prop
  | .consume key cost t => s.clock ≤ t ∧ EvictsNothing o s (.consume key cost t) ∧
      SweptAlike o t ((s.dropped.cleanup t).buckets.get dropped)
        ((s.kept.cleanup t).buckets.get dropped)
  | .ban key duration t => s.clock ≤ t ∧ EvictsNothing o s (.ban key duration t) ∧
      (s.dropped.buckets.get key).isSome = (s.kept.buckets.get key).isSome
  | .unban _ | .reset _ | .clear _ => True

/-- The results are the same, and so are what the key has drawn and its ban from now on. -/
structure Unobservable (o : RateLimitOptions) (key : JsString) (s : Twins) : Prop where
  results : ∀ results ∈ s.results, results.1 = results.2
  score : ∀ t, s.clock ≤ t →
    RateLimit.score o (s.dropped.buckets.get key) t = RateLimit.score o (s.kept.buckets.get key) t
  standing : ∀ t, s.clock ≤ t →
    RateLimit.standing (s.dropped.buckets.get key) t =
      RateLimit.standing (s.kept.buckets.get key) t

/-- The buckets of every key match, and those of the dropped key are interchangeable. -/
structure Paired (o : RateLimitOptions) (key : JsString) (s : Twins) : Prop where
  clock : 0 ≤ s.clock
  others : ∀ other,
    Matched s.clock (s.dropped.buckets.get other) (s.kept.buckets.get other)
  same : Interchangeable o s.clock (s.dropped.buckets.get key) (s.kept.buckets.get key)
  results : ∀ results ∈ s.results, results.1 = results.2

variable {s s' : Twins}

theorem Paired.unobservable (h : Paired o key s) : Unobservable o key s :=
  ⟨h.results, fun _ ht => h.same.score ht, fun _ ht => h.same.matched.standing ht⟩

theorem paired_init (hidle : ∀ b, l.buckets.get key = some b → Idle o t b) (ht : 0 ≤ t)
    (cursor : Option ℕ) : Paired o key (twinMachine o l key cursor t).init := by
  have hget : ∀ other, (l.buckets.delete key).get other =
      if key = other then none else l.buckets.get other := fun other => CursorMap.get_delete ..
  have hsame : Interchangeable o t ((l.buckets.delete key).get key) (l.buckets.get key) := by
    rw [hget, if_pos rfl]
    cases hkey : l.buckets.get key with
    | none => trivial
    | some b => exact hidle b hkey
  refine ⟨ht, fun other => ?_, hsame, nofun⟩
  by_cases heq : key = other
  · exact heq ▸ hsame.matched
  · simp only [twinMachine, hget, if_neg heq]
    exact Matched.refl t _

theorem Paired.consume {k : JsString} (h : Paired o key s)
    (hlevel : Level o key s (.consume k cost t)) :
    Paired o key
      ⟨(s.dropped.consume o k cost t).2.2, (s.kept.consume o k cost t).2.2, t, s.results ++
        [((s.dropped.consume o k cost t).1.result, (s.kept.consume o k cost t).1.result)]⟩ := by
  obtain ⟨hclock, ⟨hdropped, hkept⟩, hswept⟩ := hlevel
  have ht := h.clock.trans hclock
  obtain ⟨hresult, seq, hget⟩ := get_consume hdropped
  obtain ⟨hresult', seq', hget'⟩ := get_consume hkept
  have hothers := fun other => ((h.others other).mono hclock).swept
    (swept_cleanup s.dropped t other) (swept_cleanup s.kept t other)
  have hsame := (h.same.mono hclock).swept (swept_cleanup s.dropped t key)
    (swept_cleanup s.kept t key) hswept
  refine ⟨ht, fun other => ?_, ?_, fun results hmem => ?_⟩
  · simp only [hget, hget']
    split_ifs
    · exact (hothers k).consume ht
    · exact hothers other
  · simp only [hget, hget']
    split_ifs with heq
    · subst heq
      exact hsame.consume ht
    · exact hsame
  · rcases mem_concat.mp hmem with hmem | rfl
    · exact h.results results hmem
    · rw [hresult, hresult']
      exact (agree_of_matched (hothers k) ht).result

theorem Paired.ban {k : JsString} {duration : Option ℚ} (h : Paired o key s)
    (hlevel : Level o key s (.ban k duration t)) :
    Paired o key
      { s with
        dropped := (s.dropped.ban o k duration t).2
        kept := (s.kept.ban o k duration t).2
        clock := t } := by
  obtain ⟨hclock, ⟨hdropped, hkept⟩, hsome⟩ := hlevel
  obtain ⟨seq, hget⟩ := get_ban hdropped
  obtain ⟨seq', hget'⟩ := get_ban hkept
  refine ⟨h.clock.trans hclock, fun other => ?_, ?_, h.results⟩
  · simp only [hget, hget']
    split_ifs
    · exact ((h.others k).mono hclock).ban hsome _
    · exact (h.others other).mono hclock
  · simp only [hget, hget']
    split_ifs with heq
    · subst heq
      exact (h.same.mono hclock).ban hsome _
    · exact h.same.mono hclock

theorem Paired.step {e : RateLimitEvent} (h : Paired o key s) (hlevel : Level o key s e)
    (hstep : s.call o e = some s') : Paired o key s' := by
  cases e with
  | consume k cost t =>
    simp only [Twins.call, Option.ite_none_right_eq_some] at hstep
    exact Option.some.inj hstep.2 ▸ h.consume hlevel
  | ban k duration t => exact Option.some.inj hstep ▸ h.ban hlevel
  | unban k =>
    cases hstep
    refine ⟨h.clock, fun other => ?_, ?_, h.results⟩
    · simp only [get_unban]
      split_ifs
      · exact (h.others k).unban h.clock
      · exact h.others other
    · simp only [get_unban]
      split_ifs with heq
      · subst heq
        exact h.same.unban h.clock
      · exact h.same
  | reset k =>
    cases hstep
    refine ⟨h.clock, fun other => ?_, ?_, h.results⟩
    · simp only [get_reset]
      split_ifs
      · trivial
      · exact h.others other
    · simp only [get_reset]
      split_ifs
      · trivial
      · exact h.same
  | clear tenantId =>
    cases hstep
    refine ⟨h.clock, fun other => ?_, ?_, h.results⟩
    · simp only [get_clear]
      split_ifs
      · trivial
      · exact h.others other
    · simp only [get_clear]
      split_ifs
      · trivial
      · exact h.same

/-- From any limiter, dropping a bucket that says nothing is not observed in any run of level
steps. -/
theorem unobservable_of_level (o : RateLimitOptions) (l : RateLimiter) (key : JsString)
    (cursor : Option ℕ) {b : Bucket} (hget : l.buckets.get key = some b) (ht : 0 ≤ t)
    (hidle : Idle o t b) {es : List RateLimitEvent}
    (hrun : (twinMachine o l key cursor t).ReachesWhere (Level o key) es s) :
    Unobservable o key s := by
  have hpaired : Paired o key s := by
    refine hrun.invariant (I := Paired o key) ?_ fun s e s' hs hlevel hstep =>
      hs.step hlevel hstep
    refine paired_init (fun b' hb' => ?_) ht cursor
    exact Option.some.inj (hget.symm.trans hb') ▸ hidle
  exact hpaired.unobservable

/-! ## A bucket that was dropped -/

instance {t : ℚ} : Decidable (SweptAlike o t r u) :=
  match r, u with
  | none, none => isTrue trivial
  | none, some b => inferInstanceAs (Decidable (b.activity o t = 0))
  | some b, none => inferInstanceAs (Decidable (b.activity o t = 0))
  | some _, some _ => isTrue trivial

instance {e : RateLimitEvent} : Decidable (EvictsNothing o s e) :=
  match e with
  | .consume key cost t => inferInstanceAs (Decidable
      ((s.dropped.consume o key cost t).2.1 = none ∧ (s.kept.consume o key cost t).2.1 = none))
  | .ban key duration t => inferInstanceAs (Decidable
      ((s.dropped.ban o key duration t).1 = none ∧ (s.kept.ban o key duration t).1 = none))
  | .unban _ | .reset _ | .clear _ => isTrue trivial

instance {e : RateLimitEvent} : Decidable (Level o key s e) :=
  match e with
  | .consume k cost t => inferInstanceAs (Decidable
      (s.clock ≤ t ∧ EvictsNothing o s (.consume k cost t) ∧
        SweptAlike o t ((s.dropped.cleanup t).buckets.get key)
          ((s.kept.cleanup t).buckets.get key)))
  | .ban k duration t => inferInstanceAs (Decidable
      (s.clock ≤ t ∧ EvictsNothing o s (.ban k duration t) ∧
        (s.dropped.buckets.get k).isSome = (s.kept.buckets.get k).isSome))
  | .unban _ | .reset _ | .clear _ => isTrue trivial

/-- A limiter after one call. -/
def calledOnce : RateLimiter := (RateLimiter.create.consume briefOptions (keyOf 0) 1 0).2.2

/-- The bucket of the call. -/
def idleBucket : Bucket := ⟨1, 1, 0, 0, 0⟩

theorem get_calledOnce : calledOnce.buckets.get (keyOf 0) = some idleBucket := by decide +kernel

theorem reaches_calledOnce :
    (limiterMachine briefOptions).Reaches [.consume (keyOf 0) 1 0] calledOnce :=
  .next .start trivial rfl

theorem idle_idleBucket : Idle briefOptions 5 idleBucket :=
  ⟨by decide +kernel, by decide +kernel, by decide +kernel⟩

/-- A call, a ban that is removed again, and another call. -/
def levelRun : List RateLimitEvent :=
  [.consume (keyOf 0) 1 5, .ban (keyOf 0) none 5, .unban (keyOf 0), .consume (keyOf 0) 1 7]

/-- The results of the two calls are the same. -/
theorem unobservable_of_level_levelRun :
    ∃ s, (twinMachine briefOptions calledOnce (keyOf 0) none 5).ReachesWhere
        (Level briefOptions (keyOf 0)) levelRun s ∧
      s.results = [(⟨true, 1, 1⟩, ⟨true, 1, 1⟩), (⟨true, 1, 1⟩, ⟨true, 1, 1⟩)] ∧
      Unobservable briefOptions (keyOf 0) s := by
  obtain ⟨s, hs, hresults⟩ : ∃ s, (twinMachine briefOptions calledOnce (keyOf 0) none
      5).ReachesWhere (Level briefOptions (keyOf 0)) levelRun s ∧ s.results =
      [(⟨true, 1, 1⟩, ⟨true, 1, 1⟩), (⟨true, 1, 1⟩, ⟨true, 1, 1⟩)] :=
    Machine.exists_of_execWhere (by decide +kernel)
  exact ⟨s, hs, hresults, unobservable_of_level briefOptions calledOnce (keyOf 0)
    none get_calledOnce (by norm_num) idle_idleBucket hs⟩

/-- A ban that is removed again, and a call. -/
def pardonedRun : List RateLimitEvent :=
  [.ban (keyOf 0) none 5, .unban (keyOf 0), .consume (keyOf 0) 1 5]

/-- The limiter that keeps the bucket lets the call through, and the other one refuses it: its ban
left a bucket without an allowance. -/
theorem not_unobservable_pardonedRun :
    ∃ l b, (limiterMachine briefOptions).Reaches [.consume (keyOf 0) 1 0] l ∧
      l.buckets.get (keyOf 0) = some b ∧ Idle briefOptions 5 b ∧
      ∃ s, (twinMachine briefOptions l (keyOf 0) none 5).ReachesWhere
          (EvictsNothing briefOptions) pardonedRun s ∧
        s.results = [(⟨false, 0, 1⟩, ⟨true, 1, 1⟩)] ∧ ¬Unobservable briefOptions (keyOf 0) s := by
  obtain ⟨s, hs, hresults⟩ : ∃ s, (twinMachine briefOptions calledOnce (keyOf 0) none
      5).ReachesWhere (EvictsNothing briefOptions) pardonedRun s ∧ s.results =
      [(⟨false, 0, 1⟩, ⟨true, 1, 1⟩)] :=
    Machine.exists_of_execWhere (by decide +kernel)
  refine ⟨calledOnce, idleBucket, reaches_calledOnce, get_calledOnce, idle_idleBucket, s, hs,
    hresults, fun hunobservable => ?_⟩
  have hsame := hunobservable.results _ (hresults ▸ List.mem_singleton_self _)
  exact absurd hsame (by decide +kernel)

end AdapterWs.RateLimit
