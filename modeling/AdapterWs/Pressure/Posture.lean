import Mathlib.Data.List.Infix
import Mathlib.Data.Int.Init

/-!
# Protection posture

The posture goes up and down one level at a time. Three counters of consecutive samples decide, and
a transition resets those that the new level reads, so that no sample from before it counts towards
the next.
-/

namespace AdapterWs.Pressure

open List

/-- The working levels. -/
inductive Level
  | normal
  | elevated
  | siege
  deriving DecidableEq

/-- The configuration of `createPosture`: the ceilings of the admission gate, zero where there is
none, the pinned level, and whether there is an `onTransition`. -/
structure PostureConfig where
  maxConcurrent : ℕ
  maxConnections : ℕ
  pin : Option Level
  onTransition : Bool

/-- The state of a posture, with the calls of `onTransition`. -/
structure Posture where
  level : Level
  rejectAccum : ℕ
  rejectedPerSecond : ℤ
  rateLimitAccum : ℕ
  activeRun : ℕ
  overCapRun : ℕ
  quietRun : ℕ
  transitions : List (Level × Level)

def escalateElevatedSamples : ℕ := 5

def escalateSiegeSamples : ℕ := 10

def relaxSamples : ℕ := 10

/-- `siegeRejectRate()`, none where it is infinite. -/
def PostureConfig.siegeRejectRate (c : PostureConfig) : Option ℕ :=
  let ceiling :=
    if 0 < c.maxConcurrent ∧ 0 < c.maxConnections then min c.maxConcurrent c.maxConnections
    else max c.maxConcurrent c.maxConnections
  if 0 < ceiling then some (ceiling * 2) else none

/-- `createPosture(cfg)`. -/
def Posture.create (c : PostureConfig) : Posture := ⟨c.pin.getD .normal, 0, 0, 0, 0, 0, 0, []⟩

/-- What a pressure sample shows: whether it is active, and the rejects since the last. -/
structure Sample where
  active : Bool
  rejects : ℕ

/-- At least as many rejects as the rate. -/
def Sample.overCapacity (c : PostureConfig) (x : Sample) : Bool :=
  c.siegeRejectRate.any fun rate => decide (rate ≤ x.rejects)

/-- Neither active nor with a reject. -/
def Sample.calm (x : Sample) : Bool := !x.active && decide (x.rejects = 0)

namespace Posture

/-- `n >> 1`, on 32 bits. -/
def halved (n : ℤ) : ℤ := n.bmod 4294967296 / 2

/-- The counters after a sample. -/
def count (c : PostureConfig) (s : Posture) (x : Sample) : Posture :=
  { s with
    activeRun := if x.active then s.activeRun + 1 else 0
    overCapRun := if x.overCapacity c then s.overCapRun + 1 else 0
    quietRun := if x.calm then s.quietRun + 1 else 0 }

/-- The level after a sample is counted. -/
def settle (s : Posture) : Posture :=
  match s.level with
  | .normal =>
    if escalateElevatedSamples ≤ s.activeRun then
      { s with level := .elevated, overCapRun := 0, quietRun := 0 }
    else s
  | .elevated =>
    if escalateSiegeSamples ≤ s.overCapRun then { s with level := .siege, quietRun := 0 }
    else if relaxSamples ≤ s.quietRun then { s with level := .normal, activeRun := 0 }
    else s
  | .siege =>
    if relaxSamples ≤ s.quietRun then
      { s with level := .elevated, quietRun := 0, overCapRun := 0 }
    else s

/-- `tick(snapshot)`, where `active` is that the snapshot is there and its `active` is true. -/
def tick (c : PostureConfig) (s : Posture) (active : Bool) : Posture :=
  let rejectedPerSecond := s.rejectAccum + halved s.rejectedPerSecond
  if c.pin.isSome then
    { s with rejectedPerSecond := rejectedPerSecond, rejectAccum := 0, rateLimitAccum := 0 }
  else
    let settled := (s.count c ⟨active, s.rejectAccum⟩).settle
    { settled with
      rejectedPerSecond := rejectedPerSecond
      rejectAccum := 0
      rateLimitAccum := 0
      transitions := s.transitions ++
        if settled.level ≠ s.level ∧ c.onTransition then [(s.level, settled.level)] else [] }

end Posture

/-- The calls. -/
inductive PostureEvent
  | recordCapacityReject
  | recordRateLimitReject
  | tick (active : Bool)
  deriving DecidableEq

/-- One call. -/
def Posture.call (c : PostureConfig) (s : Posture) : PostureEvent → Posture
  | .recordCapacityReject => { s with rejectAccum := s.rejectAccum + 1 }
  | .recordRateLimitReject => { s with rateLimitAccum := s.rateLimitAccum + 1 }
  | .tick active => s.tick c active

/-- The posture after a run. -/
def run (c : PostureConfig) (es : List PostureEvent) : Posture :=
  es.foldl (Posture.call c) (.create c)

/-! ## What precedes a transition -/

/-- The samples of a run and the rejects since the last of them, one call later. -/
def collect : List Sample × ℕ → PostureEvent → List Sample × ℕ
  | (xs, n), .recordCapacityReject => (xs, n + 1)
  | (xs, n), .recordRateLimitReject => (xs, n)
  | (xs, n), .tick active => (xs ++ [⟨active, n⟩], 0)

/-- The samples of a run. -/
def samples (es : List PostureEvent) : List Sample := (es.foldl collect ([], 0)).1

/-- The capacity rejects since the last sample. -/
def pending (es : List PostureEvent) : ℕ := (es.foldl collect ([], 0)).2

/-- A part of a run that ends with a sample. -/
def Ends (before : List PostureEvent) : Prop := ∀ e, before.getLast? = some e → ∃ b, e = .tick b

/-- The transitions that there are, with the number and the kind of the samples they take. -/
def dwell (c : PostureConfig) : Level → Level → Option (ℕ × (Sample → Bool))
  | .normal, .elevated => some (escalateElevatedSamples, Sample.active)
  | .elevated, .siege => some (escalateSiegeSamples, Sample.overCapacity c)
  | .elevated, .normal | .siege, .elevated => some (relaxSamples, Sample.calm)
  | .normal, .normal | .normal, .siege | .elevated, .elevated | .siege, .normal | .siege, .siege =>
    none

/-- A step follows so many samples in a row of a kind, its own included, and the level was the same
since before the first of them. -/
def Dwelt (c : PostureConfig) (l : Level) (p : Sample → Bool) (n : ℕ) (es : List PostureEvent)
    (e : PostureEvent) : Prop :=
  ∃ before window, es = before ++ window ∧ Ends before ∧ n ≤ (samples (window ++ [e])).length ∧
    (∀ x ∈ samples (window ++ [e]), p x = true) ∧ ∀ q, q <+: window → (run c (before ++ q)).level = l

/-- What is promised of the step after a run. -/
structure Steady (c : PostureConfig) (es : List PostureEvent) (e : PostureEvent) : Prop where
  dwelt : (run c (es ++ [e])).level ≠ (run c es).level → ∃ n p,
    dwell c (run c es).level (run c (es ++ [e])).level = some (n, p) ∧
      Dwelt c (run c es).level p n es e
  notified : (run c (es ++ [e])).transitions = (run c es).transitions ++
    if (run c (es ++ [e])).level ≠ (run c es).level ∧ c.onTransition then
      [((run c es).level, (run c (es ++ [e])).level)]
    else []

variable {c : PostureConfig} {es : List PostureEvent} {e : PostureEvent} {l : Level}
  {p : Sample → Bool} {n : ℕ} {s : Posture}

theorem run_concat : run c (es ++ [e]) = (run c es).call c e := by
  rw [run, foldl_append]
  rfl

theorem foldl_collect (xs : List Sample) (n : ℕ) : es.foldl collect (xs, n) =
    (xs ++ (es.foldl collect ([], n)).1, (es.foldl collect ([], n)).2) := by
  induction es generalizing xs n with
  | nil => simp
  | cons e es ih =>
    cases e with
    | recordCapacityReject => exact ih xs (n + 1)
    | recordRateLimitReject => exact ih xs n
    | tick active =>
      simp only [foldl_cons, collect]
      rw [ih, ih ([] ++ _)]
      simp

theorem samples_concat : samples (es ++ [e]) = (collect (samples es, pending es) e).1 := by
  rw [samples, foldl_append]
  rfl

theorem pending_concat : pending (es ++ [e]) = (collect (samples es, pending es) e).2 := by
  rw [pending, foldl_append]
  rfl

theorem pending_append {before window : List PostureEvent} (h : Ends before) :
    pending (before ++ window) = pending window := by
  obtain ⟨xs, hxs⟩ : ∃ xs, before.foldl collect ([], 0) = (xs, 0) := by
    rcases eq_nil_or_concat' before with rfl | ⟨init, e, rfl⟩
    · exact ⟨[], rfl⟩
    · obtain ⟨b, rfl⟩ := h e (getLast?_concat ..)
      rw [foldl_append]
      exact ⟨_, rfl⟩
  rw [pending, foldl_append, hxs, foldl_collect]
  rfl

/-! ## The counters -/

/-- The last samples of a run, of a kind and at one level. -/
def Streak (c : PostureConfig) (l : Level) (p : Sample → Bool) (n : ℕ)
    (es : List PostureEvent) : Prop :=
  ∃ before window, es = before ++ window ∧ Ends before ∧ n ≤ (samples window).length ∧
    (∀ x ∈ samples window, p x = true) ∧ ∀ q, q <+: window → (run c (before ++ q)).level = l

theorem streak_zero (hends : Ends es) : Streak c (run c es).level p 0 es := by
  refine ⟨es, [], (append_nil es).symm, hends, Nat.zero_le _, nofun, fun q hq => ?_⟩
  rw [prefix_nil.mp hq, append_nil]

theorem ends_tick (es : List PostureEvent) (b : Bool) : Ends (es ++ [.tick b]) := by
  intro e he
  rw [getLast?_concat] at he
  exact ⟨b, (Option.some.inj he).symm⟩

theorem Streak.dwelt (h : Streak c l p n es) {b : Bool} (hp : p ⟨b, pending es⟩ = true) :
    Dwelt c l p (n + 1) es (.tick b) := by
  obtain ⟨before, window, rfl, hends, hn, hall, hlevel⟩ := h
  rw [pending_append hends] at hp
  refine ⟨before, window, rfl, hends, ?_, fun x hx => ?_, hlevel⟩
  · rw [samples_concat, collect, length_append]
    exact Nat.succ_le_succ hn
  · rw [samples_concat] at hx
    rcases mem_append.mp hx with hx | hx
    · exact hall x hx
    · rw [mem_singleton.mp hx]
      exact hp

theorem Dwelt.streak (h : Dwelt c l p n es e) (hlevel : (run c (es ++ [e])).level = l) :
    Streak c l p n (es ++ [e]) := by
  obtain ⟨before, window, rfl, hends, hn, hall, hlevels⟩ := h
  refine ⟨before, window ++ [e], append_assoc .., hends, hn, hall, fun q hq => ?_⟩
  rcases prefix_concat_iff.mp hq with rfl | hq
  · rw [← append_assoc]
    exact hlevel
  · exact hlevels q hq

/-- The counter that the transition to a level reads. -/
def Posture.counter (s : Posture) (next : Level) : ℕ :=
  match s.level, next with
  | .normal, _ => s.activeRun
  | .elevated, .siege => s.overCapRun
  | .elevated, _ | .siege, _ => s.quietRun

/-- What the counters of a run have counted. -/
structure Counted (c : PostureConfig) (es : List PostureEvent) : Prop where
  pending : (run c es).rejectAccum = pending es
  streak : ∀ next n p, dwell c (run c es).level next = some (n, p) →
    Streak c (run c es).level p ((run c es).counter next) es

theorem of_le_counter {q : Bool} {k m : ℕ} (hk : 0 < k) (h : k ≤ if q then m + 1 else 0) :
    q = true ∧ k ≤ m + 1 := by
  split at h
  · next hq => exact ⟨hq, h⟩
  · omega

/-- A sample is counted, or a dwell is over and the counters of the new level start. -/
theorem tick_cases (hpin : c.pin = none) (s : Posture) (b : Bool) :
    ((s.tick c b).level = s.level ∧ ∀ next n p, dwell c s.level next = some (n, p) →
      (s.tick c b).counter next = if p ⟨b, s.rejectAccum⟩ then s.counter next + 1 else 0) ∨
    ∃ n p, dwell c s.level (s.tick c b).level = some (n, p) ∧ p ⟨b, s.rejectAccum⟩ = true ∧
      n ≤ s.counter (s.tick c b).level + 1 ∧
      ∀ next, (s.tick c b).counter next = 0 := by
  obtain ⟨level, rejectAccum, rate, limited, activeRun, overCapRun, quietRun, transitions⟩ := s
  simp only [Posture.tick, hpin, Option.isSome_none, Bool.false_eq_true, if_false, Posture.settle,
    Posture.count]
  cases level with
  | normal =>
    by_cases hle : escalateElevatedSamples ≤ if b then activeRun + 1 else 0
    · obtain ⟨hp, hn⟩ := of_le_counter (q := b) (by decide) hle
      simp only [if_pos hle]
      exact .inr ⟨_, _, rfl, hp, hn, fun next => by cases next <;> rfl⟩
    · simp only [if_neg hle]
      refine .inl ⟨trivial, fun next n p hdwell => ?_⟩
      cases next <;> cases hdwell
      rfl
  | elevated =>
    by_cases hle : escalateSiegeSamples ≤
        if Sample.overCapacity c ⟨b, rejectAccum⟩ then overCapRun + 1 else 0
    · obtain ⟨hp, hn⟩ := of_le_counter (by decide) hle
      simp only [if_pos hle]
      exact .inr ⟨_, _, rfl, hp, hn, fun next => by cases next <;> rfl⟩
    simp only [if_neg hle]
    by_cases hle : relaxSamples ≤ if Sample.calm ⟨b, rejectAccum⟩ then quietRun + 1 else 0
    · obtain ⟨hp, hn⟩ := of_le_counter (by decide) hle
      simp only [if_pos hle]
      exact .inr ⟨_, _, rfl, hp, hn, fun next => by cases next <;> rfl⟩
    · simp only [if_neg hle]
      refine .inl ⟨trivial, fun next n p hdwell => ?_⟩
      cases next <;> cases hdwell <;> rfl
  | siege =>
    by_cases hle : relaxSamples ≤ if Sample.calm ⟨b, rejectAccum⟩ then quietRun + 1 else 0
    · obtain ⟨hp, hn⟩ := of_le_counter (by decide) hle
      simp only [if_pos hle]
      exact .inr ⟨_, _, rfl, hp, hn, fun next => by cases next <;> rfl⟩
    · simp only [if_neg hle]
      refine .inl ⟨trivial, fun next n p hdwell => ?_⟩
      cases next <;> cases hdwell
      rfl

theorem Streak.concat (h : Streak c l p n es) (hsamples : ∀ w, samples (w ++ [e]) = samples w)
    (hlevel : (run c (es ++ [e])).level = l) : Streak c l p n (es ++ [e]) := by
  obtain ⟨before, window, rfl, hends, hn, hall, hlevels⟩ := h
  rw [← hsamples] at hn hall
  exact Dwelt.streak ⟨before, window, rfl, hends, hn, hall, hlevels⟩ hlevel

theorem Counted.call (hpin : c.pin = none) (h : Counted c es) : Counted c (es ++ [e]) := by
  cases e with
  | recordCapacityReject =>
    refine ⟨?_, fun next n p hdwell => ?_⟩
    · rw [run_concat, pending_concat]
      exact congrArg (· + 1) h.pending
    · rw [run_concat] at hdwell ⊢
      refine (h.streak next n p hdwell).concat (fun _ => samples_concat) ?_
      rw [run_concat]
      rfl
  | recordRateLimitReject =>
    refine ⟨?_, fun next n p hdwell => ?_⟩
    · rw [run_concat, pending_concat]
      exact h.pending
    · rw [run_concat] at hdwell ⊢
      refine (h.streak next n p hdwell).concat (fun _ => samples_concat) ?_
      rw [run_concat]
      rfl
  | tick b =>
    have hrun : run c (es ++ [.tick b]) = (run c es).tick c b := run_concat
    have hcases := tick_cases hpin (run c es) b
    rw [← hrun, h.pending] at hcases
    refine ⟨?_, fun next n p hdwell => ?_⟩
    · rw [pending_concat, hrun, Posture.tick, hpin]
      rfl
    rcases hcases with ⟨hlevel, hcounter⟩ | ⟨_, _, -, -, -, hzero⟩
    · rw [hlevel] at hdwell
      have hstreak := h.streak next n p hdwell
      rw [hcounter next n p hdwell, hlevel]
      split
      · next hp => exact (hstreak.dwelt hp).streak hlevel
      · exact hlevel ▸ streak_zero (ends_tick es b)
    · rw [hzero]
      exact streak_zero (ends_tick es b)

theorem counted_run (hpin : c.pin = none) (es : List PostureEvent) : Counted c es := by
  induction es using reverseRecOn with
  | nil =>
    refine ⟨rfl, fun next n p _ => ?_⟩
    have hzero : (run c []).counter next = 0 := by
      simp only [run, foldl_nil, Posture.create, hpin]
      rfl
    rw [hzero]
    exact streak_zero nofun
  | append_singleton es e ih => exact ih.call hpin

/-! ## Every run -/

theorem steady_run (hpin : c.pin = none) (es : List PostureEvent) (e : PostureEvent) :
    Steady c es e := by
  cases e with
  | recordCapacityReject | recordRateLimitReject =>
    refine ⟨fun hne => absurd (congrArg Posture.level run_concat) hne, ?_⟩
    rw [run_concat]
    simp [Posture.call]
  | tick b =>
    have hrun : run c (es ++ [.tick b]) = (run c es).tick c b := run_concat
    refine ⟨fun hne => ?_, ?_⟩
    · have h := counted_run hpin es
      have hcases := tick_cases hpin (run c es) b
      rw [← hrun, h.pending] at hcases
      rcases hcases with ⟨hlevel, -⟩ | ⟨n, p, hdwell, hp, hle, -⟩
      · exact absurd hlevel hne
      · obtain ⟨before, window, heq, hends, hn, hrest⟩ := (h.streak _ n p hdwell).dwelt hp
        exact ⟨n, p, hdwell, before, window, heq, hends, hle.trans hn, hrest⟩
    · simp only [hrun, Posture.tick, hpin]
      rfl

/-- Without a ceiling, no number of rejects is over capacity. -/
theorem ne_siege (hpin : c.pin = none) (hconcurrent : c.maxConcurrent = 0)
    (hconnections : c.maxConnections = 0) (es : List PostureEvent) : (run c es).level ≠ .siege := by
  induction es using reverseRecOn with
  | nil => simp [run, Posture.create, hpin]
  | append_singleton es e ih =>
    intro hsiege
    obtain ⟨n, p, hdwell, before, window, -, -, hn, hall, -⟩ :=
      (steady_run hpin es e).dwelt (hsiege ▸ ih.symm)
    rw [hsiege] at hdwell
    cases hl : (run c es).level <;> rw [hl] at hdwell <;> cases hdwell
    have hnever : ∀ x, Sample.overCapacity c x = false := by
      simp [Sample.overCapacity, PostureConfig.siegeRejectRate, hconcurrent, hconnections]
    obtain ⟨x, hx⟩ := exists_mem_of_length_pos (hn.trans_lt' (by decide))
    exact absurd (hall x hx) (by simp [hnever])

/-- The state without the count of the rate limit. -/
def Posture.unlimited (s : Posture) : Posture := { s with rateLimitAccum := 0 }

theorem settle_unlimited (s : Posture) : s.unlimited.settle = s.settle.unlimited := by
  cases hl : s.level <;> simp only [Posture.settle, Posture.unlimited, hl] <;>
    (repeat' split) <;> simp [hl]

theorem call_unlimited (s : Posture) (e : PostureEvent) :
    (s.unlimited.call c e).unlimited = (s.call c e).unlimited := by
  cases e with
  | recordCapacityReject | recordRateLimitReject => rfl
  | tick b =>
    have hsettle := settle_unlimited (s.count c ⟨b, s.rejectAccum⟩)
    simp only [Posture.call, Posture.tick]
    split
    · rfl
    · rw [show s.unlimited.count c ⟨b, s.unlimited.rejectAccum⟩ =
        (s.count c ⟨b, s.rejectAccum⟩).unlimited from rfl, hsettle]
      rfl

theorem run_filter (es : List PostureEvent) :
    (run c (es.filter (· ≠ .recordRateLimitReject))).unlimited = (run c es).unlimited := by
  induction es using reverseRecOn with
  | nil => rfl
  | append_singleton es e ih =>
    rw [filter_append, run_concat, ← call_unlimited, ← ih, call_unlimited]
    cases e with
    | recordRateLimitReject => exact congrArg (fun q => (run c q).unlimited) (append_nil _)
    | recordCapacityReject | tick b => exact congrArg Posture.unlimited run_concat

theorem run_of_pin (hpin : c.pin = some l) (es : List PostureEvent) :
    (run c es).level = l ∧ (run c es).transitions = [] := by
  induction es using reverseRecOn with
  | nil => simp [run, Posture.create, hpin]
  | append_singleton es e ih =>
    rw [run_concat]
    cases e <;> simpa [Posture.call, Posture.tick, hpin] using ih

/-- Every step of a posture that is not pinned: a transition goes to the next level, after its dwell
at the level before, and is notified once; without a ceiling it is never to siege. The rejects of
the rate limit move nothing, and nothing moves a posture that is pinned. -/
theorem posture_spec (c : PostureConfig) (es : List PostureEvent) :
    (c.pin = none → ∀ e, Steady c es e) ∧
    ((run c (es.filter (· ≠ .recordRateLimitReject))).level = (run c es).level ∧
      (run c (es.filter (· ≠ .recordRateLimitReject))).transitions = (run c es).transitions) ∧
    (c.pin = none → c.maxConcurrent = 0 → c.maxConnections = 0 → (run c es).level ≠ .siege) ∧
    ∀ l, c.pin = some l → (run c es).level = l ∧ (run c es).transitions = [] := by
  have hlevel := congrArg Posture.level (run_filter (c := c) es)
  have htransitions := congrArg Posture.transitions (run_filter (c := c) es)
  refine ⟨fun hpin => steady_run hpin es, ⟨hlevel, htransitions⟩,
    fun hpin hconcurrent hconnections => ne_siege hpin hconcurrent hconnections es,
    fun l hpin => run_of_pin hpin es⟩

example : (run ⟨1, 0, none, true⟩ (List.replicate 5 (.tick true))).level = .elevated := by decide

end AdapterWs.Pressure
