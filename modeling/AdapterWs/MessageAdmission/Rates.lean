import AdapterWs.MessageAdmission.Permits

/-!
# Rates

A frame changes a bucket in one of two ways: the first lane that cannot afford it is refilled, or
every lane it was checked on is refilled and charged. What a lane has let through since a time and
the tokens it has left are at most its capacity and the part of it that the elapsed time gives
back, but for what rounding adds with every frame.
-/

namespace AdapterWs.MessageAdmission

open Binary64 Spans Gate

variable {W : Type} [DecidableEq W] {o : MessageAdmissionConfig} {g g' : Gate W}
  {ws ws' : W} {entry : Waiting W} {lane : RateLane W} {bytes : ℕ} {now clock : ℚ}
  {entered : List Timed} {bucket : Option Bucket} {passed : List Timed}

/-! ## Buckets of a gate -/

/-- Two gates with the same buckets. -/
def SameBuckets (g g' : Gate W) : Prop := ∀ lane, g'.bucket lane = g.bucket lane

theorem SameBuckets.trans {g'' : Gate W} (h : SameBuckets g g') (h' : SameBuckets g' g'') :
    SameBuckets g g'' := fun lane => (h' lane).trans (h lane)

/-- Gates whose connections differ in their counts have the same buckets. -/
theorem sameBuckets_of_state {state : ConnectionState}
    (hstate : ∀ ws', g'.stateFor ws' = if ws = ws' then state else g.stateFor ws')
    (hrate : state.rate = (g.stateFor ws).rate) (hbytes : state.bytes = (g.stateFor ws).bytes)
    (hglobal : g'.globalBucket = g.globalBucket)
    (hglobalBytes : g'.globalBytesBucket = g.globalBytesBucket) : SameBuckets g g' := by
  have hkept : ∀ ws', (g'.stateFor ws').rate = (g.stateFor ws').rate ∧
      (g'.stateFor ws').bytes = (g.stateFor ws').bytes := by
    intro ws'
    rw [hstate]
    split
    · next heq => rw [← heq]; exact ⟨hrate, hbytes⟩
    · exact ⟨rfl, rfl⟩
  intro lane
  cases lane with
  | connectionRate ws' => exact (hkept ws').1
  | globalRate => exact hglobal
  | connectionBytes ws' => exact (hkept ws').2
  | globalBytes => exact hglobalBytes

theorem sameBuckets_permit (g : Gate W) (ws : W) : SameBuckets g (g.permit ws).2 :=
  sameBuckets_of_state (stateFor_permit g ws) rfl rfl rfl rfl

theorem sameBuckets_grant (g : Gate W) (entry : Waiting W) : SameBuckets g (g.grant o entry) :=
  sameBuckets_of_state (stateFor_grant g entry) rfl rfl rfl rfl

theorem sameBuckets_drainLoop (fuel : ℕ) (g : Gate W) :
    SameBuckets g (drainLoop o fuel g) := by
  induction fuel generalizing g with
  | zero => exact fun _ => rfl
  | succ fuel ih =>
    rw [drainLoop]
    split
    · exact fun _ => rfl
    · exact (sameBuckets_grant g _).trans (ih _)

theorem sameBuckets_release (g : Gate W) (id : ℕ) : SameBuckets g (g.release o id) := by
  rw [release]
  cases g.permits[id]? with
  | none => exact fun _ => rfl
  | some p =>
    simp only
    split
    · exact fun _ => rfl
    · refine SameBuckets.trans ?_ (sameBuckets_drainLoop _ _)
      exact sameBuckets_of_state (fun ws' => stateFor_setState g p.ws ws' _) rfl rfl rfl rfl

theorem sameBuckets_close (g : Gate W) (ws : W) : SameBuckets g (g.close o ws) := by
  rw [close]
  cases hget : g.connections.get ws with
  | none => exact fun _ => rfl
  | some state =>
    have hstate : g.stateFor ws = state := by rw [stateFor, hget, Option.getD_some]
    subst hstate
    refine SameBuckets.trans ?_ (sameBuckets_drainLoop _ _)
    exact sameBuckets_of_state (fun ws' => stateFor_setState g ws ws' _) rfl rfl rfl rfl

theorem sameBuckets_place (g : Gate W) (ws : W) : SameBuckets g (g.place o ws).2 := by
  rw [place]
  simp only
  split
  · exact sameBuckets_permit g ws
  · split
    · exact fun _ => rfl
    · split
      · exact fun _ => rfl
      · exact sameBuckets_of_state (fun ws' => stateFor_setState g ws ws' _) rfl rfl rfl rfl

theorem bucket_setBucket (g : Gate W) (b : Bucket) (lane lane' : RateLane W) :
    (g.setBucket b lane).bucket lane' = if lane = lane' then some b else g.bucket lane' := by
  cases lane with
  | connectionRate ws =>
    cases lane' <;> simp [setBucket, bucket, stateFor_setState]
    · split <;> rfl
    · rfl
    · split
      · next heq => rw [heq]
      · rfl
    · rfl
  | globalRate => cases lane' <;> rfl
  | connectionBytes ws =>
    cases lane' <;> simp [setBucket, bucket, stateFor_setState]
    · split
      · next heq => rw [heq]
      · rfl
    · rfl
    · split <;> rfl
    · rfl
  | globalBytes => cases lane' <;> rfl

/-! ## What a frame does to a lane -/

/-- The bucket of a lane that was charged. -/
def charged (o : MessageAdmissionConfig) (g : Gate W) (lane : RateLane W) (bytes : ℕ) (now : ℚ) :
    Bucket :=
  { g.nextBucket o lane now with
    tokens := nearest ((g.nextBucket o lane now).tokens - lane.cost bytes) }

theorem bucket_chargeRates (lanes : List (RateLane W)) (hnodup : lanes.Nodup) (g : Gate W) :
    (chargeRates o bytes now lanes g).bucket lane =
      if lane ∈ lanes ∧ lane.checks o bytes then some (charged o g lane bytes now)
      else g.bucket lane := by
  induction lanes generalizing g with
  | nil => simp [chargeRates]
  | cons first lanes ih =>
    obtain ⟨hfirst, hnodup⟩ := List.nodup_cons.mp hnodup
    rw [chargeRates, ih hnodup]
    cases hchecks : first.checks o bytes with
    | false =>
      simp only [Bool.false_eq_true, if_false]
      by_cases heq : lane = first
      · subst heq
        simp [hchecks]
      · simp [heq]
    | true =>
      simp only [if_true]
      by_cases heq : lane = first
      · subst heq
        rw [if_neg (fun h => hfirst h.1), bucket_setBucket, if_pos rfl,
          if_pos ⟨(.head _), hchecks⟩]
        rfl
      · have hother : ∀ b, (g.setBucket b first).bucket lane = g.bucket lane := fun b => by
          rw [bucket_setBucket, if_neg (Ne.symm heq)]
        simp [charged, nextBucket, hother, heq]

omit [DecidableEq W] in
theorem nodup_ofFrame (ws : W) : (RateLane.ofFrame ws).Nodup := by
  simp [RateLane.ofFrame]

/-- The checks end at a lane that cannot afford the frame. -/
theorem checkRates_eq_some {lanes : List (RateLane W)}
    (h : g.checkRates o bytes now lanes = some lane) :
    lane ∈ lanes ∧ lane.checks o bytes ∧ (g.nextBucket o lane now).tokens < lane.cost bytes := by
  induction lanes with
  | nil => cases h
  | cons first lanes ih =>
    rw [checkRates] at h
    split at h
    · next hfirst =>
      cases h
      exact ⟨(.head _), hfirst⟩
    · obtain ⟨hmem, hrest⟩ := ih h
      exact ⟨.tail _ hmem, hrest⟩

theorem cost_le_of_checkRates {lanes : List (RateLane W)}
    (h : g.checkRates o bytes now lanes = none) (hmem : lane ∈ lanes)
    (hchecks : lane.checks o bytes = true) :
    (lane.cost bytes : ℚ) ≤ (g.nextBucket o lane now).tokens := by
  induction lanes with
  | nil => cases hmem
  | cons first lanes ih =>
    rw [checkRates] at h
    split at h
    · cases h
    · next hfirst =>
      rcases List.mem_cons.mp hmem with rfl | hmem
      · exact not_lt.mp fun hlt => hfirst ⟨hchecks, hlt⟩
      · exact ih h hmem

/-- What a frame does to a lane, with its bucket and what it has let through after the frame. -/
inductive LaneStep (o : MessageAdmissionConfig) (g : Gate W) (bytes : ℕ) (now : ℚ)
    (lane : RateLane W) (passed : List Timed) : Option Bucket → List Timed → Prop
  | kept : LaneStep o g bytes now lane passed (g.bucket lane) passed
  | refilled (hchecks : lane.checks o bytes = true) :
      LaneStep o g bytes now lane passed (some (g.nextBucket o lane now)) passed
  | charged (hchecks : lane.checks o bytes = true)
      (hcost : (lane.cost bytes : ℚ) ≤ (g.nextBucket o lane now).tokens) :
      LaneStep o g bytes now lane passed (some (charged o g lane bytes now))
        (passed ++ [⟨now, lane.cost bytes⟩])

theorem isUncharged_place (g : Gate W) (ws : W) : (g.place o ws).1.isUncharged = false := by
  rw [place]
  simp only
  split
  · rfl
  · split
    · rfl
    · split <;> rfl

omit [DecidableEq W] in
theorem checks_of_disabled (h : o.enabled = false) (lane : RateLane W) (bytes : ℕ) :
    lane.checks o bytes = false := by
  simp only [MessageAdmissionConfig.enabled, Bool.or_eq_false_iff, decide_eq_false_iff_not,
    not_lt, Nat.le_zero] at h
  cases lane <;> simp [RateLane.checks, RateLane.capacity, h]

theorem laneStep_enter (passed : RateLane W → List Timed) (g : Gate W) (ws : W) (bytes : ℕ)
    (now : ℚ) (lane : RateLane W) :
    LaneStep o g bytes now lane (passed lane) ((g.enter o ws bytes now).2.bucket lane)
      (if (g.enter o ws bytes now).1.isUncharged then passed lane
        else pass o ws bytes now passed lane) := by
  have hstored : SameBuckets g (g.setState ws (g.stateFor ws)) :=
    sameBuckets_of_state (fun ws' => stateFor_setState g ws ws' _) rfl rfl rfl rfl
  have hnext : ∀ lane, (g.setState ws (g.stateFor ws)).nextBucket o lane now =
      g.nextBucket o lane now := fun lane => by rw [nextBucket, hstored, nextBucket]
  rw [enter]
  simp only
  split
  · next hdisabled =>
    rw [Bool.not_eq_true'] at hdisabled
    simp only [Decision.isUncharged, Bool.false_eq_true, if_false, pass,
      checks_of_disabled hdisabled, and_false]
    rw [sameBuckets_permit, hstored]
    exact .kept
  · split
    · simp only [Decision.isUncharged, if_true]
      rw [hstored]
      exact .kept
    · split
      · next refused hrefused =>
        obtain ⟨-, hchecks, -⟩ := checkRates_eq_some hrefused
        simp only [rateRejection, Decision.isUncharged, if_true]
        rw [bucket_setBucket]
        split
        · next heq =>
          subst heq
          rw [hnext]
          exact .refilled hchecks
        · rw [hstored]
          exact .kept
      · next hpassed =>
        rw [isUncharged_place, if_neg Bool.false_ne_true, sameBuckets_place,
          bucket_chargeRates _ (nodup_ofFrame ws), pass]
        split
        · next hlane =>
          have hcost := cost_le_of_checkRates hpassed hlane.1 hlane.2
          rw [charged, hnext] at *
          exact .charged hlane.2 hcost
        · rw [hstored]
          exact .kept

/-- A frame that is refused before the charge leaves every lane as it was, but for a refill. -/
theorem bucket_of_isUncharged (h : (g.enter o ws bytes now).1.isUncharged = true)
    (lane : RateLane W) : (g.enter o ws bytes now).2.bucket lane = g.bucket lane ∨
      (g.enter o ws bytes now).2.bucket lane = some (g.nextBucket o lane now) := by
  have hstep := laneStep_enter (o := o) (fun _ => []) g ws bytes now lane
  rw [if_pos h] at hstep
  generalize (g.enter o ws bytes now).2.bucket lane = b at hstep ⊢
  cases hstep with
  | kept => exact .inl rfl
  | refilled => exact .inr rfl

/-! ## Refills -/

/-- The nearest double of an amount that is not large is hardly more. -/
theorem nearest_le_add {x b : ℚ} (hx : 0 ≤ x) (hb : x + 1 ≤ b) :
    nearest x ≤ x + b / 2 ^ 53 :=
  (nearest_le hx).trans (add_le_add_right (div_le_div_of_nonneg_right hb (by positivity)) x)

/-- What a bucket gains is hardly more than the elapsed part of the capacity. -/
theorem gain_le {tokens cap window elapsed : ℚ} (htokens : 0 ≤ tokens) (hfull : tokens ≤ 2 * cap)
    (hcap : 1 ≤ cap) (hwindow : 1 ≤ window) (helapsed : 0 ≤ elapsed) (hlt : elapsed ≤ window) :
    nearest (tokens + nearest (nearest (nearest elapsed * cap) / window)) ≤
      tokens + elapsed * cap / window + 13 * cap / 2 ^ 53 := by
  have hwindow0 : 0 < window := lt_of_lt_of_le zero_lt_one hwindow
  have hcap0 : 0 < cap := lt_of_lt_of_le zero_lt_one hcap
  have hcapw : 1 ≤ window * cap := by nlinarith
  have h₁ : nearest elapsed ≤ elapsed + 2 * window / 2 ^ 53 :=
    nearest_le_add helapsed (by linarith)
  have hprod₁ : nearest elapsed * cap ≤ elapsed * cap + 2 * (window * cap) / 2 ^ 53 := by
    have := mul_le_mul_of_nonneg_right h₁ hcap0.le
    calc nearest elapsed * cap ≤ (elapsed + 2 * window / 2 ^ 53) * cap := this
      _ = _ := by ring
  have helapsedCap : elapsed * cap ≤ window * cap := mul_le_mul_of_nonneg_right hlt hcap0.le
  have h₂ : nearest (nearest elapsed * cap) ≤
      elapsed * cap + 5 * (window * cap) / 2 ^ 53 := by
    have := nearest_le_add (x := nearest elapsed * cap) (b := 3 * (window * cap))
      (mul_nonneg (nearest_nonneg helapsed) hcap0.le) (by norm_num at hprod₁ ⊢; linarith)
    norm_num at this hprod₁ ⊢
    linarith
  have hquot : nearest (nearest elapsed * cap) / window ≤
      elapsed * cap / window + 5 * cap / 2 ^ 53 := by
    rw [div_le_iff₀ hwindow0]
    calc nearest (nearest elapsed * cap) ≤ elapsed * cap + 5 * (window * cap) / 2 ^ 53 := h₂
      _ = _ := by field_simp
  have hpart : elapsed * cap / window ≤ cap := by
    rw [div_le_iff₀ hwindow0]
    linarith
  have hpart0 : 0 ≤ elapsed * cap / window := by positivity
  have hquot0 : 0 ≤ nearest (nearest elapsed * cap) / window :=
    div_nonneg (nearest_nonneg (mul_nonneg (nearest_nonneg helapsed) hcap0.le)) hwindow0.le
  have h₃ : nearest (nearest (nearest elapsed * cap) / window) ≤
      elapsed * cap / window + 8 * cap / 2 ^ 53 := by
    have := nearest_le_add (b := 3 * cap) hquot0 (by norm_num at hquot ⊢; linarith)
    norm_num at this hquot ⊢
    linarith
  have h₄ := nearest_le_add (x := tokens + nearest (nearest (nearest elapsed * cap) / window))
    (b := 5 * cap) (add_nonneg htokens (nearest_nonneg hquot0))
    (by norm_num at h₃ ⊢; linarith)
  norm_num at h₃ h₄ ⊢
  linarith

/-- What rounding may add with every frame. -/
def slack (o : MessageAdmissionConfig) (lane : RateLane W) : ℚ := lane.capacity o / 2 ^ 49

theorem refill_spec {b : Bucket} {capacity window : ℕ} (hcap : 0 < capacity) (hwindow : 0 < window)
    (htokens : 0 ≤ b.tokens) (hfull : b.tokens ≤ 2 * capacity) (hnow : b.updatedAt ≤ now) :
    0 ≤ (refill (some b) capacity window now).tokens ∧
      (refill (some b) capacity window now).tokens ≤ capacity ∧
      (refill (some b) capacity window now).tokens ≤
        b.tokens + (now - b.updatedAt) * capacity / window + 13 * capacity / 2 ^ 53 := by
  have hcap' : (1 : ℚ) ≤ capacity := by exact_mod_cast hcap
  have hwindow' : (1 : ℚ) ≤ window := by exact_mod_cast hwindow
  have helapsed : 0 ≤ now - b.updatedAt := sub_nonneg.mpr hnow
  have hround : max 0 (nearest (now - b.updatedAt)) = nearest (now - b.updatedAt) :=
    max_eq_right (nearest_nonneg helapsed)
  simp only [refill, hround]
  refine ⟨?_, min_le_left _ _, ?_⟩
  · refine le_min (by linarith) (nearest_nonneg (add_nonneg htokens (nearest_nonneg ?_)))
    exact div_nonneg (nearest_nonneg (mul_nonneg (nearest_nonneg helapsed) (by linarith)))
      (by linarith)
  · rcases le_total (now - b.updatedAt) window with hle | hle
    · exact (min_le_right _ _).trans (gain_le htokens hfull hcap' hwindow' helapsed hle)
    · -- a whole window has passed, which is worth the whole capacity
      refine (min_le_left _ _).trans ?_
      have hwhole : (capacity : ℚ) ≤ (now - b.updatedAt) * capacity / window := by
        rw [le_div_iff₀ (by linarith)]
        nlinarith
      have hextra : (0 : ℚ) ≤ 13 * capacity / 2 ^ 53 := by positivity
      linarith

/-! ## What a lane has let through -/

/-- What a lane may let through in a span, with the frames that entered in it. -/
def allowed (o : MessageAdmissionConfig) (lane : RateLane W) (entered : List Timed) (a b : ℚ) : ℚ :=
  lane.capacity o * (1 + (b - a) / o.rateWindowMs) +
    slack o lane * Spans.total (fun t => a ≤ t ∧ t ≤ b) entered

/-- What is left of a bucket and what its lane has let through since a time are what the lane may
let through. -/
structure Held (o : MessageAdmissionConfig) (lane : RateLane W) (b : Bucket)
    (entered passed : List Timed) : Prop where
  tokens_nonneg : 0 ≤ b.tokens
  tokens_le : b.tokens ≤ 2 * lane.capacity o
  times : ∀ x ∈ passed, x.time ≤ b.updatedAt
  since : ∀ a ≤ b.updatedAt, Spans.total (fun t => a ≤ t ∧ t ≤ b.updatedAt) passed + b.tokens ≤
    allowed o lane entered a b.updatedAt

/-- A lane within its limit. -/
structure Metered (o : MessageAdmissionConfig) (lane : RateLane W) (clock : ℚ)
    (bucket : Option Bucket) (entered passed : List Timed) : Prop where
  within : ∀ a b, a ≤ b →
    Spans.total (fun t => a ≤ t ∧ t ≤ b) passed ≤ allowed o lane entered a b
  unused : bucket = none → passed = []
  held : ∀ b, bucket = some b → b.updatedAt ≤ clock ∧ Held o lane b entered passed

section

omit [DecidableEq W]

theorem slack_nonneg (o : MessageAdmissionConfig) (lane : RateLane W) : 0 ≤ slack o lane := by
  rw [slack]
  positivity

theorem allowed_append (entered : List Timed) (a b : ℚ) :
    allowed o lane (entered ++ [⟨now, 1⟩]) a b =
      allowed o lane entered a b + if a ≤ now ∧ now ≤ b then slack o lane else 0 := by
  rw [allowed, allowed, total_append]
  split <;> ring

theorem allowed_le_append (entered : List Timed) (a b : ℚ) :
    allowed o lane entered a b ≤ allowed o lane (entered ++ [⟨now, 1⟩]) a b := by
  rw [allowed_append]
  have := slack_nonneg o lane
  split_ifs <;> linarith

theorem allowed_nonneg (hentered : ∀ x ∈ entered, 0 ≤ x.amount) {a b : ℚ} (hab : a ≤ b) :
    0 ≤ allowed o lane entered a b := by
  have hspan : 0 ≤ (b - a) / o.rateWindowMs := div_nonneg (sub_nonneg.mpr hab) (Nat.cast_nonneg _)
  have htotal := total_nonneg (p := fun t => a ≤ t ∧ t ≤ b) hentered
  have := mul_nonneg (slack_nonneg o lane) htotal
  rw [allowed]
  positivity

end

section

variable (h : Metered o lane clock bucket entered passed) (hclock : clock ≤ now)
include h hclock

section

omit [DecidableEq W]

theorem Metered.kept : Metered o lane now bucket (entered ++ [⟨now, 1⟩]) passed := by
  refine ⟨fun a b hab => ?_, h.unused, fun b hb => ?_⟩
  · exact (h.within a b hab).trans (allowed_le_append entered a b)
  · obtain ⟨hupdated, hheld⟩ := h.held b hb
    refine ⟨hupdated.trans hclock, hheld.tokens_nonneg, hheld.tokens_le, hheld.times,
      fun a ha => ?_⟩
    exact (hheld.since a ha).trans (allowed_le_append entered a _)

/-- A bucket that is refilled, with room for the rounding of a charge. -/
theorem Metered.refill (hentered : ∀ x ∈ entered, 0 ≤ x.amount) (hcap : 0 < lane.capacity o) :
    let next := refill bucket (lane.capacity o) o.rateWindowMs now
    0 ≤ next.tokens ∧ next.tokens ≤ lane.capacity o ∧ (∀ x ∈ passed, x.time ≤ now) ∧
      ∀ a ≤ now, total (fun t => a ≤ t ∧ t ≤ now) passed + next.tokens ≤
        allowed o lane entered a now + 13 * lane.capacity o / 2 ^ 53 := by
  have hcapacity : (0 : ℚ) ≤ lane.capacity o := Nat.cast_nonneg _
  have hextra : (0 : ℚ) ≤ 13 * lane.capacity o / 2 ^ 53 := by positivity
  have hslack := fun a : ℚ => mul_nonneg (slack_nonneg o lane)
    (total_nonneg (p := fun t => a ≤ t ∧ t ≤ now) hentered)
  have hspan : ∀ a ≤ now, (lane.capacity o : ℚ) ≤ allowed o lane entered a now := by
    intro a ha
    have hpart : 0 ≤ (lane.capacity o : ℚ) * ((now - a) / o.rateWindowMs) :=
      mul_nonneg hcapacity (div_nonneg (sub_nonneg.mpr ha) (Nat.cast_nonneg _))
    have := hslack a
    rw [allowed]
    linarith
  cases bucket with
  | none =>
    obtain rfl := h.unused rfl
    refine ⟨hcapacity, le_refl _, List.forall_mem_nil _, fun a ha => ?_⟩
    have := hspan a ha
    rw [total_nil]
    simp only [MessageAdmission.refill]
    linarith
  | some b =>
    obtain ⟨hupdated, hheld⟩ := h.held b rfl
    have hnow := hupdated.trans hclock
    obtain ⟨htokens, hfull, hgain⟩ :=
      refill_spec hcap o.rateWindowMs_pos hheld.tokens_nonneg hheld.tokens_le hnow
    have htimes : ∀ x ∈ passed, x.time ≤ now := fun x hx => (hheld.times x hx).trans hnow
    refine ⟨htokens, hfull, htimes, fun a ha => ?_⟩
    rcases le_or_gt a b.updatedAt with hle | hgt
    · have hsince := hheld.since a hle
      have hsame : total (fun t => a ≤ t ∧ t ≤ now) passed =
          total (fun t => a ≤ t ∧ t ≤ b.updatedAt) passed :=
        total_congr fun x hx => by simp [htimes x hx, hheld.times x hx]
      have hmono : slack o lane * total (fun t => a ≤ t ∧ t ≤ b.updatedAt) entered ≤
          slack o lane * total (fun t => a ≤ t ∧ t ≤ now) entered :=
        mul_le_mul_of_nonneg_left
          (total_mono hentered fun x _ hx => ⟨hx.1, hx.2.trans hnow⟩) (slack_nonneg o lane)
      rw [hsame]
      rw [allowed] at hsince ⊢
      have hsplit : (lane.capacity o : ℚ) * (1 + (now - a) / o.rateWindowMs) =
          lane.capacity o * (1 + (b.updatedAt - a) / o.rateWindowMs) +
            (now - b.updatedAt) * lane.capacity o / o.rateWindowMs := by ring
      rw [hsplit]
      linarith
    · have hzero : total (fun t => a ≤ t ∧ t ≤ now) passed = 0 :=
        total_eq_zero fun x hx hin => not_le.mpr hgt (hin.1.trans (hheld.times x hx))
      have := hspan a ha
      rw [hzero]
      linarith

theorem Metered.refilled (hentered : ∀ x ∈ entered, 0 ≤ x.amount) (hcap : 0 < lane.capacity o) :
    Metered o lane now (some (MessageAdmission.refill bucket (lane.capacity o) o.rateWindowMs now))
      (entered ++ [⟨now, 1⟩]) passed := by
  obtain ⟨htokens, hfull, htimes, hsince⟩ := h.refill hclock hentered hcap
  have hcapacity : (0 : ℚ) ≤ lane.capacity o := Nat.cast_nonneg _
  have hupdated : (MessageAdmission.refill bucket (lane.capacity o) o.rateWindowMs now).updatedAt =
      now := by
    cases bucket <;> rfl
  refine ⟨(h.kept hclock).within, fun hnone => absurd hnone (Option.some_ne_none _), fun b hb => ?_⟩
  cases hb
  refine ⟨hupdated.le, htokens, by linarith, fun x hx => (htimes x hx).trans hupdated.ge,
    fun a ha => ?_⟩
  rw [hupdated] at ha ⊢
  have hspan := hsince a ha
  rw [allowed_append, if_pos ⟨ha, le_refl now⟩, slack]
  norm_num at hspan ⊢
  linarith

theorem Metered.charged {cost : ℕ} (hentered : ∀ x ∈ entered, 0 ≤ x.amount ∧ x.time ≤ clock)
    (hcap : 0 < lane.capacity o) {next : Bucket}
    (hnext : next = MessageAdmission.refill bucket (lane.capacity o) o.rateWindowMs now)
    (hcost : (cost : ℚ) ≤ next.tokens) :
    Metered o lane now (some { next with tokens := nearest (next.tokens - cost) })
      (entered ++ [⟨now, 1⟩]) (passed ++ [⟨now, cost⟩]) := by
  obtain ⟨htokens, hfull, htimes, hsince⟩ :=
    h.refill hclock (fun x hx => (hentered x hx).1) hcap
  rw [← hnext] at htokens hfull hsince
  have hcap' : (1 : ℚ) ≤ lane.capacity o := by exact_mod_cast hcap
  have hcost0 : (0 : ℚ) ≤ cost := Nat.cast_nonneg _
  have hupdated : next.updatedAt = now := by
    rw [hnext]
    cases bucket <;> rfl
  have hleft : 0 ≤ next.tokens - cost := sub_nonneg.mpr hcost
  have hround : nearest (next.tokens - cost) ≤
      next.tokens - cost + 2 * lane.capacity o / 2 ^ 53 :=
    nearest_le_add hleft (by linarith)
  refine ⟨fun a b hab => ?_, fun hnone => absurd hnone (Option.some_ne_none _), fun b hb => ?_⟩
  · rw [total_append, allowed_append]
    by_cases hin : a ≤ now ∧ now ≤ b
    · rw [if_pos hin, if_pos hin]
      have hspan := hsince a hin.1
      have hsame : total (fun t => a ≤ t ∧ t ≤ b) passed =
          total (fun t => a ≤ t ∧ t ≤ now) passed :=
        total_congr fun x hx => by simp [htimes x hx, (htimes x hx).trans hin.2]
      have hlater : allowed o lane entered a now ≤ allowed o lane entered a b := by
        have hmono : slack o lane * total (fun t => a ≤ t ∧ t ≤ now) entered ≤
            slack o lane * total (fun t => a ≤ t ∧ t ≤ b) entered :=
          mul_le_mul_of_nonneg_left (total_mono (fun x hx => (hentered x hx).1)
            fun x _ hx => ⟨hx.1, hx.2.trans hin.2⟩) (slack_nonneg o lane)
        have hspan : (lane.capacity o : ℚ) * (1 + (now - a) / o.rateWindowMs) ≤
            lane.capacity o * (1 + (b - a) / o.rateWindowMs) := by
          refine mul_le_mul_of_nonneg_left (add_le_add_right ?_ 1) (by linarith)
          exact div_le_div_of_nonneg_right (by linarith [hin.2]) (Nat.cast_nonneg _)
        rw [allowed, allowed]
        linarith
      rw [hsame, slack]
      norm_num at hspan ⊢
      linarith
    · rw [if_neg hin, if_neg hin, add_zero, add_zero]
      exact h.within a b hab
  · cases hb
    refine ⟨hupdated.le, nearest_nonneg hleft, ?_, fun x hx => ?_, fun a ha => ?_⟩
    · norm_num at hround ⊢
      linarith
    · simp only [hupdated]
      rcases mem_concat.mp hx with hx | rfl
      · exact htimes x hx
      · exact le_refl now
    · simp only [hupdated] at ha ⊢
      have hspan := hsince a ha
      rw [total_append, allowed_append, if_pos ⟨ha, le_refl now⟩, if_pos ⟨ha, le_refl now⟩,
        slack]
      norm_num at hspan hround ⊢
      linarith

end

end

/-! ## Runs -/

/-- What holds of a gate and its lanes in every run. -/
structure Tracked (o : MessageAdmissionConfig) (s : History W) : Prop where
  sound : Sound o s.gate
  entered : ∀ x ∈ s.entered, 0 ≤ x.amount ∧ x.time ≤ s.clock
  metered : ∀ lane, Metered o lane s.clock (s.gate.bucket lane) s.entered (s.passed lane)

/-- What is promised of a gate: its counts, bounds and waits, each lane within its limit but for
the rounding, and no charge with a refusal that comes before it. -/
structure Admitted (o : MessageAdmissionConfig) (s : History W) : Prop where
  sound : Sound o s.gate
  within : ∀ (lane : RateLane W) (a b : ℚ), a ≤ b →
    Spans.total (fun t => a ≤ t ∧ t ≤ b) (s.passed lane) ≤ allowed o lane s.entered a b
  uncharged : ∀ ws bytes now, (s.gate.enter o ws bytes now).1.isUncharged = true → ∀ lane,
    (s.gate.enter o ws bytes now).2.bucket lane = s.gate.bucket lane ∨
      (s.gate.enter o ws bytes now).2.bucket lane = some (s.gate.nextBucket o lane now)

variable {s s' : History W}

theorem Tracked.enter (h : Tracked o s)
    (hcall : s.call o (.enter ws bytes now) = some s') : Tracked o s' := by
  simp only [History.call] at hcall
  obtain ⟨hclock, hsome⟩ := Option.ite_none_right_eq_some.mp hcall
  cases hsome
  refine ⟨h.sound.enter ws bytes now, fun x hx => ?_, fun lane => ?_⟩
  · rcases mem_concat.mp hx with hx | rfl
    · exact ⟨(h.entered x hx).1, (h.entered x hx).2.trans hclock⟩
    · exact ⟨zero_le_one, le_refl now⟩
  · have hstep := laneStep_enter (o := o) s.passed s.gate ws bytes now lane
    have hmetered := h.metered lane
    have hpassed : (if (s.gate.enter o ws bytes now).1.isUncharged = true then s.passed
        else pass o ws bytes now s.passed) lane =
          if (s.gate.enter o ws bytes now).1.isUncharged = true then s.passed lane
          else pass o ws bytes now s.passed lane := by
      split <;> rfl
    simp only [hpassed]
    generalize (s.gate.enter o ws bytes now).2.bucket lane = bucket at hstep ⊢
    generalize (if (s.gate.enter o ws bytes now).1.isUncharged = true then s.passed lane
      else pass o ws bytes now s.passed lane) = passed at hstep ⊢
    have hcap : lane.checks o bytes = true → 0 < lane.capacity o := fun hchecks => by
      simp only [RateLane.checks, Bool.and_eq_true, decide_eq_true_eq] at hchecks
      exact hchecks.2
    cases hstep with
    | kept => exact hmetered.kept hclock
    | refilled hchecks =>
      exact hmetered.refilled hclock (fun x hx => (h.entered x hx).1) (hcap hchecks)
    | charged hchecks hcost =>
      exact hmetered.charged hclock h.entered (hcap hchecks) rfl hcost

theorem Tracked.of_sameBuckets (h : Tracked o s) {gate : Gate W} (hsound : Sound o gate)
    (hbuckets : SameBuckets s.gate gate) : Tracked o { s with gate := gate } :=
  ⟨hsound, h.entered, fun lane => by
    rw [hbuckets]
    exact h.metered lane⟩

theorem tracked_init (o : MessageAdmissionConfig) (clock : ℚ) :
    Tracked o (messageAdmissionMachine (W := W) o clock).init where
  sound := sound_create o
  entered _ hx := absurd hx List.not_mem_nil
  metered lane := by
    refine ⟨fun a b hab => ?_, fun _ => rfl, fun b hb => ?_⟩
    · exact allowed_nonneg (List.forall_mem_nil _) hab
    · cases lane <;> cases hb

/-- In every run, permits, bounds and waits are as promised, and each lane lets through what its
capacity and the elapsed time allow, but for the rounding. -/
theorem admitted_of_reaches (o : MessageAdmissionConfig) (clock : ℚ)
    {es : List (AdmissionEvent W)} {s : History W}
    (h : (messageAdmissionMachine o clock).Reaches es s) : Admitted o s := by
  have htracked : Tracked o s := by
    refine h.invariant (I := Tracked o) (tracked_init o clock) fun s e s' hs _ hstep => ?_
    cases e with
    | enter ws bytes now => exact hs.enter hstep
    | release id =>
      obtain ⟨-, ⟨⟩⟩ := Option.ite_none_right_eq_some.mp hstep
      exact hs.of_sameBuckets (hs.sound.release id) (sameBuckets_release _ id)
    | close ws =>
      cases hstep
      exact hs.of_sameBuckets (hs.sound.close ws) (sameBuckets_close _ ws)
  exact ⟨htracked.sound, fun lane => (htracked.metered lane).within,
    fun ws bytes now huncharged => bucket_of_isUncharged huncharged⟩

theorem oneSecond_pos : 0 < 1000 := by decide

theorem smallConfig_requires : 0 < 2 → 0 < 1 ∨ 0 < 2 := fun _ => .inl one_pos

/-- Three frames in a second, one running for each connection, two running, two waiting. -/
def smallConfig : MessageAdmissionConfig :=
  ⟨3, 0, 0, 100, 1000, 1, 2, 2, oneSecond_pos, smallConfig_requires⟩

/-- Frames that run, wait, are granted by a release and settled by a close, and one too many. -/
def crowdedRun : List (AdmissionEvent ℕ) :=
  [.enter 0 10 0, .enter 1 20 1, .enter 0 30 2, .enter 2 10 3, .enter 1 5 4, .release 0,
    .release 0, .close 2, .enter 1 5 400, .enter 0 90 500, .release 1]

theorem admitted_of_reaches_crowdedRun : ∃ s : History ℕ,
    (messageAdmissionMachine smallConfig 0).Reaches crowdedRun s ∧ Admitted smallConfig s ∧
      s.gate.settled.map (fun settled => settled.1.wait) = [0, 1, 2] := by
  exact Machine.exists_and_of_exec (by decide +kernel) fun _ hs _ => admitted_of_reaches _ _ hs

theorem rateConfig_requires {limit : ℕ} : 0 < 0 → 0 < limit ∨ 0 < 0 := fun h => .inr h

/-- Three frames in a second, and no more than so many running for a connection. -/
def rateConfig (limit : ℕ) : MessageAdmissionConfig :=
  ⟨3, 0, 0, 0, 1000, limit, 0, 0, oneSecond_pos, rateConfig_requires⟩

/-- A third of a second, which rounding makes worth a frame. -/
def early : ℚ := 5864062014805333 / 2 ^ 44

/-- A frame that is refused for what is running was charged, and rounding lets a fourth frame
through before its time. -/
theorem not_admitted_refusedFrame :
    (¬∀ (o : MessageAdmissionConfig) (clock : ℚ) (es : List (AdmissionEvent ℕ)) (s : History ℕ),
      (messageAdmissionMachine o clock).Reaches es s → ∀ ws bytes now reason,
        (s.gate.enter o ws bytes now).1 = .rejected reason → ∀ lane,
          (s.gate.enter o ws bytes now).2.bucket lane = s.gate.bucket lane ∨
            (s.gate.enter o ws bytes now).2.bucket lane = some (s.gate.nextBucket o lane now)) ∧
    ¬∀ (o : MessageAdmissionConfig) (clock : ℚ) (es : List (AdmissionEvent ℕ)) (s : History ℕ),
      (messageAdmissionMachine o clock).Reaches es s → ∀ (lane : RateLane ℕ) (a b : ℚ), a ≤ b →
        Spans.total (fun t => a ≤ t ∧ t ≤ b) (s.passed lane) ≤
          lane.capacity o * (1 + (b - a) / o.rateWindowMs) := by
  constructor
  · intro hall
    obtain ⟨s, hs, hrejected, hchanged, hother⟩ : ∃ s : History ℕ,
        (messageAdmissionMachine (rateConfig 1) 0).Reaches [.enter 0 0 0] s ∧
        (s.gate.enter (rateConfig 1) 0 0 0).1 = .rejected (.concurrencyLimit .connection) ∧
        (s.gate.enter (rateConfig 1) 0 0 0).2.bucket (.connectionRate 0) ≠
          s.gate.bucket (.connectionRate 0) ∧
        (s.gate.enter (rateConfig 1) 0 0 0).2.bucket (.connectionRate 0) ≠
          some (s.gate.nextBucket (rateConfig 1) (.connectionRate 0) 0) :=
      Machine.exists_of_exec (by decide +kernel)
    rcases hall _ _ _ _ hs 0 0 0 _ hrejected (.connectionRate 0) with hkept | hrefilled
    · exact hchanged hkept
    · exact hother hrefilled
  · intro hall
    obtain ⟨s, hs, hp⟩ : ∃ s : History ℕ, (messageAdmissionMachine (rateConfig 0) 0).Reaches
        [.enter 0 0 0, .enter 0 0 0, .enter 0 0 0, .enter 0 0 early] s ∧
        3 * (1 + (early - 0) / 1000) <
          total (fun t => 0 ≤ t ∧ t ≤ early) (s.passed (.connectionRate 0)) :=
      Machine.exists_of_exec (by decide +kernel)
    have hearly : (0 : ℚ) ≤ early := by
      rw [early]
      norm_num
    have hwithin := hall _ _ _ _ hs (.connectionRate 0) 0 early hearly
    exact absurd hp (not_lt.mpr hwithin)

end AdapterWs.MessageAdmission
