import AdapterWs.RateLimit.Limiter

/-!
# Limits over every run

A bucket that is never swept is compared with the one the limiter has: they agree up to bans that
are over, and where the limiter has none, the other has nothing left to say. On it, what was let
through since the window started is what the allowance has lost, and a span shorter than the
interval meets at most two windows.
-/

namespace AdapterWs.RateLimit

open Binary64 List Bucket Spans

variable {o : RateLimitOptions} {b b' : Bucket} {now t cost : ℚ} {seq seq' : ℕ}
  {r u : Option Bucket}

/-! ## Two buckets of one key -/

/-- Two buckets that differ only in bans that are over. -/
structure Alike (now : ℚ) (b b' : Bucket) : Prop where
  points : b.points = b'.points
  resetAt : b.resetAt = b'.resetAt
  bannedUntil : b.bannedUntil = b'.bannedUntil ∨ (b.bannedUntil ≤ now ∧ b'.bannedUntil ≤ now)

theorem Alike.refl (now : ℚ) (b : Bucket) : Alike now b b := ⟨rfl, rfl, .inl rfl⟩

theorem Alike.mono (h : Alike now b b') (ht : now ≤ t) : Alike t b b' := by
  refine ⟨h.points, h.resetAt, ?_⟩
  rcases h.bannedUntil with heq | ⟨hb, hb'⟩
  · exact .inl heq
  · exact .inr ⟨hb.trans ht, hb'.trans ht⟩

/-- A bucket and the one that is never swept. -/
def Synced (now : ℚ) : Option Bucket → Option Bucket → Prop
  | none, none => True
  | none, some b' => b'.resetAt ≤ now ∧ b'.bannedUntil ≤ now
  | some _, none => False
  | some b, some b' => Alike now b b'

theorem Synced.mono (h : Synced now r u) (ht : now ≤ t) : Synced t r u := by
  match r, u, h with
  | none, none, _ => trivial
  | none, some b', h => exact ⟨h.1.trans ht, h.2.trans ht⟩
  | some b, some b', h => exact Alike.mono h ht

/-- A sweep drops only what the other bucket has nothing left to say about. -/
theorem Synced.filter (h : Synced t r u) : Synced t (r.filter fun b => !b.expired t) u := by
  match r, u, h with
  | none, none, _ => trivial
  | none, some b', h => exact h
  | some b, some b', h =>
    rw [Option.filter_some]
    cases hexpired : b.expired t with
    | false => exact h
    | true =>
      simp only [expired, Bool.and_eq_true, decide_eq_true_eq] at hexpired
      refine ⟨h.resetAt ▸ hexpired.1, ?_⟩
      rcases h.bannedUntil with heq | ⟨-, hb'⟩
      · exact heq ▸ hexpired.2
      · exact hb'

/-! ## One call on a bucket -/

theorem refill_points_resetAt (h : b.points = b'.points) (hreset : b.resetAt = b'.resetAt) :
    (b.refill o t).points = (b'.refill o t).points ∧
      (b.refill o t).resetAt = (b'.refill o t).resetAt := by
  rw [refill, refill, hreset]
  by_cases hover : b'.resetAt ≤ t
  · rw [if_pos hover, if_pos hover]
    exact ⟨rfl, rfl⟩
  · rw [if_neg hover, if_neg hover]
    exact ⟨h, hreset⟩

@[simp] theorem bannedUntil_refill (b : Bucket) : (b.refill o t).bannedUntil = b.bannedUntil := by
  rw [refill]
  split_ifs <;> rfl

theorem refill_of_over (h : b.resetAt ≤ t) :
    (b.refill o t).points = o.points ∧ (b.refill o t).resetAt = nearest (t + o.interval) := by
  rw [refill, if_pos h]
  exact ⟨rfl, rfl⟩

theorem refill_fresh : ((fresh o o.points t).refill o t).points = o.points ∧
    ((fresh o o.points t).refill o t).resetAt = nearest (t + o.interval) := by
  rw [refill]
  split_ifs <;> exact ⟨rfl, rfl⟩

/-- What a call does with two buckets that have the same allowance in the same window. -/
structure Agree (t : ℚ) (d d' : Consumed) : Prop where
  result : d.result = d'.result
  placed : d.placed = d'.placed
  alike : Alike t d.bucket d'.bucket

theorem agree_of_refill (hb : b.bannedUntil ≤ t) (hb' : b'.bannedUntil ≤ t)
    (hpoints : (b.refill o t).points = (b'.refill o t).points)
    (hreset : (b.refill o t).resetAt = (b'.refill o t).resetAt) :
    Agree t (b.consume o cost t seq) (b'.consume o cost t seq') := by
  rw [consume, consume, if_neg (not_lt.mpr hb), if_neg (not_lt.mpr hb')]
  simp only [hpoints, hreset]
  split_ifs
  · exact ⟨rfl, rfl, rfl, rfl, .inr ⟨by simpa using hb, by simpa using hb'⟩⟩
  · exact ⟨rfl, rfl, rfl, rfl, .inl rfl⟩
  · exact ⟨rfl, rfl, hpoints, hreset, .inr ⟨by simpa using hb, by simpa using hb'⟩⟩

theorem agree_of_alike (h : Alike t b b') :
    Agree t (b.consume o cost t seq) (b'.consume o cost t seq') := by
  obtain ⟨hpoints, hreset⟩ := refill_points_resetAt (o := o) (t := t) h.points h.resetAt
  rcases h.bannedUntil with heq | ⟨hb, hb'⟩
  · by_cases hbanned : t < b'.bannedUntil
    · rw [consume, consume, heq, if_pos hbanned, if_pos hbanned]
      exact ⟨rfl, rfl, h⟩
    · have hover := not_lt.mp hbanned
      exact agree_of_refill (heq ▸ hover) hover hpoints hreset
  · exact agree_of_refill hb hb' hpoints hreset

/-- The bucket of the limiter and the one that is never swept answer alike. -/
theorem consume_synced (h : Synced t r u) (ht : 0 ≤ t) :
    Agree t ((r.getD (.fresh o o.points t)).consume o cost t seq)
      ((u.getD (.fresh o o.points t)).consume o cost t seq') := by
  match r, u, h with
  | none, none, _ => exact agree_of_alike (Alike.refl t _)
  | none, some b', h =>
    obtain ⟨hpoints, hreset⟩ := refill_fresh (o := o) (t := t)
    obtain ⟨hpoints', hreset'⟩ := refill_of_over (o := o) h.1
    exact agree_of_refill ht h.2 (hpoints.trans hpoints'.symm) (hreset.trans hreset'.symm)
  | some b, some b', h => exact agree_of_alike h

/-! ## What was let through -/

/-- The calls of a key that were allowed, at their times. -/
def KeyHistory.timed (k : KeyHistory) : List Timed := k.grants.map Grant.timed

/-- The calls of a key that were allowed, at the ends of their windows. -/
def KeyHistory.windowed (k : KeyHistory) : List Timed := k.grants.map Grant.windowed

/-- A bucket has lost what was let through since its window started, and what was let through
before was within the limit. -/
structure Metered (o : RateLimitOptions) (now : ℚ) (k : KeyHistory) (b : Bucket) : Prop where
  nonneg : 0 ≤ b.points
  points_le : b.points ≤ o.points
  costs : ∀ g ∈ k.grants, 0 ≤ g.cost
  start : ∃ start, start ≤ now ∧ start + o.interval ≤ b.resetAt ∧
    Spans.total (start ≤ ·) k.timed ≤ o.points - b.points ∧
    ∀ a, start - o.interval < a →
      Spans.total (fun t => a ≤ t ∧ t < start) k.timed ≤ o.points
  before : ∀ g ∈ k.grants, g.time < b.resetAt ∧ g.resetAt ≤ b.resetAt
  window : Spans.total (· = b.resetAt) k.windowed ≤ o.points - b.points
  bans : ∀ expiry ∈ k.bans, expiry ≤ b.bannedUntil ∨ expiry ≤ now
  kept : Kept o k

variable {k k' : KeyHistory}

theorem Kept.congr (h : Kept o k) (hgrants : k'.grants = k.grants) : Kept o k' :=
  ⟨fun r => hgrants ▸ h.window r, fun a b hspan => hgrants ▸ h.span a b hspan,
    fun g hg => h.banned g (hgrants ▸ hg)⟩

theorem Metered.congr (h : Metered o now k b) (hgrants : k'.grants = k.grants)
    (hbans : k'.bans = k.bans) : Metered o now k' b := by
  have hkept := h.kept.congr hgrants
  obtain ⟨u, grants, bans⟩ := k
  obtain ⟨u', grants', bans'⟩ := k'
  obtain rfl : grants' = grants := hgrants
  obtain rfl : bans' = bans := hbans
  exact ⟨h.nonneg, h.points_le, h.costs, h.start, h.before, h.window, h.bans, hkept⟩

theorem Metered.mono (h : Metered o now k b) (ht : now ≤ t) : Metered o t k b := by
  obtain ⟨start, hstart, hrest⟩ := h.start
  refine { h with start := ⟨start, hstart.trans ht, hrest⟩, bans := fun expiry hmem => ?_ }
  rcases h.bans expiry hmem with hle | hle
  · exact .inl hle
  · exact .inr (hle.trans ht)

/-- A key of which nothing is known keeps to its limit. -/
theorem kept_of_grants_eq_nil (h : k.grants = []) : Kept o k := by
  refine ⟨fun r => ?_, fun a b _ => ?_, fun g hmem => ?_⟩
  · simp [h]
  · simp [h]
  · rw [h] at hmem
    cases hmem

theorem metered_fresh {p : ℚ} (hgrants : k.grants = []) (hbans : k.bans = []) (hp : 0 ≤ p)
    (hle : p ≤ o.points) (hend : t + o.interval ≤ nearest (t + o.interval)) :
    Metered o t k (.fresh o p t) := by
  have hnone : ∀ g, g ∉ k.grants := fun g hmem => by simp [hgrants] at hmem
  refine ⟨hp, hle, fun g hmem => absurd hmem (hnone g), ⟨t, le_refl t, hend, ?_, fun a _ => ?_⟩,
    fun g hmem => absurd hmem (hnone g), ?_, fun expiry hmem => by simp [hbans] at hmem,
    kept_of_grants_eq_nil hgrants⟩
  · simpa [KeyHistory.timed, hgrants, fresh] using hle
  · simp [KeyHistory.timed, hgrants]
  · simpa [KeyHistory.windowed, hgrants, fresh] using hle

theorem Metered.timed_nonneg (h : Metered o now k b) : ∀ x ∈ k.timed, 0 ≤ x.amount := by
  intro x hx
  obtain ⟨g, hg, rfl⟩ := mem_map.mp hx
  exact h.costs g hg

section

variable (h : Metered o t k b)
include h

/-- A window that is over starts again, and one that is not goes on. -/
theorem Metered.refill (hend : t + o.interval ≤ nearest (t + o.interval)) :
    Metered o t k (b.refill o t) ∧ t < (b.refill o t).resetAt := by
  have hinterval := o.interval_pos
  by_cases hover : b.resetAt ≤ t
  · rw [Bucket.refill, if_pos hover]
    have hpoints : (0 : ℚ) ≤ o.points := Nat.cast_nonneg _
    obtain ⟨start, hstart, hreset, hsince, -⟩ := h.start
    refine ⟨⟨hpoints, le_refl _, h.costs, ⟨t, le_refl t, hend, ?_, fun a ha => ?_⟩,
      fun g hg => ?_, ?_, h.bans, h.kept⟩, lt_of_lt_of_le (by linarith) hend⟩
    · rw [sub_self, total_eq_zero]
      intro x hx hle
      obtain ⟨g, hg, rfl⟩ := mem_map.mp hx
      exact absurd ((h.before g hg).1.trans_le (hover.trans hle)) (lt_irrefl _)
    · -- what passed since the old window started is all that is within an interval
      have hmono := total_mono h.timed_nonneg
        (p := fun u => a ≤ u ∧ u < t) (q := (start ≤ ·)) fun x _ hx => by linarith [hx.1]
      have := h.nonneg
      linarith
    · obtain ⟨htime, hwindow⟩ := h.before g hg
      exact ⟨by linarith, by linarith⟩
    · rw [sub_self, total_eq_zero]
      intro x hx heq
      obtain ⟨g, hg, rfl⟩ := mem_map.mp hx
      have hwindow : g.resetAt ≤ b.resetAt := (h.before g hg).2
      have heq : g.resetAt = nearest (t + o.interval) := heq
      linarith
  · rw [Bucket.refill, if_neg hover]
    exact ⟨h, not_le.mp hover⟩

theorem Metered.grant (ht : t < b.resetAt) (hcost : 0 ≤ cost) (hallowed : cost ≤ b.points)
    (hround : nearest (b.points - cost) ≤ b.points - cost) (hbanned : b.bannedUntil ≤ t) :
    Metered o t { k with grants := k.grants ++ [⟨t, cost, b.resetAt, k.banned t⟩] }
      { b with points := nearest (b.points - cost) } := by
  obtain ⟨start, hstart, hreset, hsince, hbefore⟩ := h.start
  have hnonneg : 0 ≤ nearest (b.points - cost) := nearest_nonneg (sub_nonneg.mpr hallowed)
  have hle := h.points_le
  have htimed : KeyHistory.timed { k with grants := k.grants ++ [⟨t, cost, b.resetAt, k.banned t⟩] } =
      k.timed ++ [⟨t, cost⟩] := map_append
  have hwindowed : KeyHistory.windowed
      { k with grants := k.grants ++ [⟨t, cost, b.resetAt, k.banned t⟩] } =
        k.windowed ++ [⟨b.resetAt, cost⟩] := map_append
  have hmem : ∀ g ∈ k.grants ++ [⟨t, cost, b.resetAt, k.banned t⟩],
      g ∈ k.grants ∨ g = ⟨t, cost, b.resetAt, k.banned t⟩ := by
    intro g hg
    rwa [mem_append, mem_singleton] at hg
  refine ⟨hnonneg, by linarith, fun g hg => ?_, ⟨start, hstart, hreset, ?_, fun a ha => ?_⟩,
    fun g hg => ?_, ?_, h.bans, fun r => ?_, fun a c hspan => ?_, fun g hg => ?_⟩
  · rcases hmem g hg with hg | rfl
    · exact h.costs g hg
    · exact hcost
  · rw [htimed, total_append, if_pos hstart]
    simp only
    linarith
  · rw [htimed, total_append, if_neg fun hin => absurd hin.2 (not_lt.mpr hstart), add_zero]
    exact hbefore a ha
  · rcases hmem g hg with hg | rfl
    · exact h.before g hg
    · exact ⟨ht, le_refl _⟩
  · rw [hwindowed, total_append, if_pos rfl]
    have := h.window
    simp only at this ⊢
    linarith
  · have hold := h.kept.window r
    have hwindow := h.window
    change total (· = r) (KeyHistory.windowed _) ≤ _
    rw [hwindowed, total_append]
    split_ifs with heq
    · simp only at heq
      subst heq
      simp only
      linarith
    · rw [add_zero]
      exact hold
  · have hold := h.kept.span a c hspan
    change total (fun u => a ≤ u ∧ u ≤ c) (KeyHistory.timed _) ≤ _
    rw [htimed, total_append]
    split_ifs with hin
    · -- the span meets this window and what passed within an interval before it
      have hsplit := total_le_add h.timed_nonneg (p := fun u => a ≤ u ∧ u ≤ c)
        (q := fun u => a ≤ u ∧ u < start) (r := (start ≤ ·)) fun x _ hx => by
          rcases lt_or_ge x.time start with hlt | hge
          · exact .inl ⟨hx.1, hlt⟩
          · exact .inr hge
      have hprev := hbefore a (by linarith [hin.2])
      simp only
      linarith
    · rw [add_zero]
      exact hold
  · rcases hmem g hg with hg | rfl
    · exact h.kept.banned g hg
    · refine Bool.eq_false_iff.mpr fun hstands => ?_
      obtain ⟨expiry, hexpiry, hlt⟩ := any_eq_true.mp hstands
      have hlt := of_decide_eq_true hlt
      rcases h.bans expiry hexpiry with hover | hover <;> linarith

theorem Metered.place (expiry : ℚ) (seq : ℕ) :
    Metered o t (k.place expiry) { b with bannedUntil := expiry, banSeq := seq } := by
  refine ⟨h.nonneg, h.points_le, h.costs, h.start, h.before, h.window, fun e hmem => ?_,
    h.kept.congr rfl⟩
  rcases mem_append.mp hmem with hmem | hmem
  · exact .inl (of_decide_eq_true (mem_filter.mp hmem).2)
  · exact .inl (mem_singleton.mp hmem).le

theorem Metered.unban : Metered o t { k with bans := [] } { b with bannedUntil := 0 } :=
  ⟨h.nonneg, h.points_le, h.costs, h.start, h.before, h.window,
    forall_mem_nil _, h.kept.congr rfl⟩

end

/-! ## One key -/

/-- What holds of a key: of its bucket that is never swept, if it has one. -/
def MeteredKey (o : RateLimitOptions) (now : ℚ) (k : KeyHistory) : Prop :=
  match k.unswept with
  | none => k.grants = [] ∧ k.bans = []
  | some b => Metered o now k b

theorem MeteredKey.mono (h : MeteredKey o now k) (ht : now ≤ t) : MeteredKey o t k := by
  rw [MeteredKey] at h ⊢
  cases hb : k.unswept with
  | none =>
    rw [hb] at h
    exact h
  | some b =>
    rw [hb] at h
    exact Metered.mono h ht

theorem MeteredKey.kept (h : MeteredKey o now k) : Kept o k := by
  rw [MeteredKey] at h
  cases hb : k.unswept with
  | none =>
    rw [hb] at h
    exact kept_of_grants_eq_nil h.1
  | some b =>
    rw [hb] at h
    exact Metered.kept h

/-- The bucket a call finds, which is new if there is none. -/
theorem MeteredKey.getD (h : MeteredKey o t k) {p : ℚ} (hp : 0 ≤ p) (hle : p ≤ o.points)
    (hend : t + o.interval ≤ nearest (t + o.interval)) :
    Metered o t k (k.unswept.getD (.fresh o p t)) := by
  rw [MeteredKey] at h
  cases hb : k.unswept with
  | none =>
    rw [hb] at h
    exact metered_fresh h.1 h.2 hp hle hend
  | some b =>
    rw [hb] at h
    exact h

/-- The allowance that a bucket has for a call. -/
def allowance (o : RateLimitOptions) (b : Option Bucket) (t : ℚ) : ℚ :=
  ((b.getD (.fresh o o.points t)).refill o t).points

/-- One call, decided by a bucket that agrees with the one that is never swept. -/
theorem MeteredKey.consume {done : Consumed} (h : MeteredKey o t k) (hcost : 0 ≤ cost)
    (hend : t + o.interval ≤ nearest (t + o.interval))
    (hround : cost ≤ allowance o k.unswept t →
      nearest (allowance o k.unswept t - cost) ≤ allowance o k.unswept t - cost)
    (hagree : Agree t done ((k.unswept.getD (.fresh o o.points t)).consume o cost t 0)) :
    MeteredKey o t (k.consume o cost t done) := by
  have hmetered := h.getD (Nat.cast_nonneg o.points) (le_refl (o.points : ℚ)) hend
  rw [allowance] at hround
  rw [KeyHistory.consume, hagree.result, hagree.placed, hagree.alike.resetAt]
  generalize k.unswept.getD (.fresh o o.points t) = b at hmetered hround ⊢
  obtain ⟨hrefilled, hwithin⟩ := hmetered.refill hend
  rw [Bucket.consume]
  by_cases hbanned : t < b.bannedUntil
  · rw [if_pos hbanned]
    exact hmetered.congr rfl rfl
  · rw [if_neg hbanned]
    simp only
    have hover : (b.refill o t).bannedUntil ≤ t := by
      rw [bannedUntil_refill]
      exact not_lt.mp hbanned
    by_cases hallowed : cost ≤ (b.refill o t).points
    · rw [if_pos hallowed]
      exact (hrefilled.grant hwithin hcost hallowed (hround hallowed) hover).congr rfl rfl
    · rw [if_neg hallowed]
      by_cases hblock : 0 < o.blockDuration
      · rw [if_pos hblock]
        exact (hrefilled.place _ _).congr rfl rfl
      · rw [if_neg hblock]
        exact hrefilled.congr rfl rfl

theorem MeteredKey.ban (h : MeteredKey o t k) (expiry : ℚ)
    (hend : t + o.interval ≤ nearest (t + o.interval)) : MeteredKey o t (k.ban o expiry t) :=
  ((h.getD (le_refl 0) (Nat.cast_nonneg o.points) hend).place expiry _).congr rfl rfl

theorem MeteredKey.unban (h : MeteredKey o t k) : MeteredKey o t k.unban := by
  rw [MeteredKey] at h
  rw [MeteredKey, KeyHistory.unban]
  cases hb : k.unswept with
  | none =>
    rw [hb] at h
    exact ⟨h.1, rfl⟩
  | some b =>
    rw [hb] at h
    exact (Metered.unban h).congr rfl rfl

end AdapterWs.RateLimit
