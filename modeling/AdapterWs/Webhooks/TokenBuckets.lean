import AdapterWs.Lib.JsString
import AdapterWs.Lib.Machine
import AdapterWs.Lib.Weight
import Mathlib.Tactic.Linarith
import Mathlib.Tactic.Positivity
import Mathlib.Tactic.Ring

/-!
# Token buckets with a bounded number of slots

A bucket refills up to its capacity, and is dropped for another key only when it is full. So what
the buckets lack of their capacities counts the takes, whichever keys the slots were for.
-/

namespace AdapterWs.Webhooks

open JsMap
open List hiding beq_eq_decide

/-- The options that `createTokenBuckets` accepts. -/
structure BucketOptions where
  capacity : ℚ
  refillPerSec : ℚ
  maxKeys : ℕ
  capacity_pos : 0 < capacity
  refillPerSec_nonneg : 0 ≤ refillPerSec
  maxKeys_pos : 1 ≤ maxKeys

/-- A bucket, and when it was last refilled, in ms. -/
structure Bucket where
  tokens : ℚ
  ts : ℚ
  deriving DecidableEq

/-- The slots, and until when no sweep runs. -/
structure TokenBuckets where
  buckets : JsMap JsString Bucket
  sweepBlockedUntil : ℚ

variable (o : BucketOptions)

def BucketOptions.sweepRetryMs : ℚ :=
  if 0 < o.refillPerSec then min 1000 (1000 / o.refillPerSec) else 1000

/-- `refill(b)`. -/
def Bucket.refill (now : ℚ) (b : Bucket) : Bucket :=
  if 0 < now - b.ts then
    ⟨min o.capacity (b.tokens + (now - b.ts) / 1000 * o.refillPerSec), now⟩
  else b

/-- `sweepReclaimable(map, holdsAllowance)`, which refills what it keeps. -/
def sweepReclaimable (now : ℚ) (map : JsMap JsString Bucket) : JsMap JsString Bucket :=
  map.filterMap fun key b =>
    if key = [] then some b
    else if (b.refill o now).tokens < o.capacity then some (b.refill o now) else none

namespace TokenBuckets

/-- The bucket of a key, or `none` where there is no slot for it. -/
def bucketFor (now : ℚ) (s : TokenBuckets) (key : JsString) : Option Bucket × TokenBuckets :=
  match s.buckets.get key with
  | some b => (some b, s)
  | none =>
    let swept := sweepReclaimable o now s.buckets
    if ¬key = [] ∧ o.maxKeys ≤ s.buckets.size then
      if now < s.sweepBlockedUntil then (none, s)
      else if swept.size = s.buckets.size then (none, ⟨swept, now + o.sweepRetryMs⟩)
      else (some ⟨o.capacity, now⟩, { s with buckets := swept.set key ⟨o.capacity, now⟩ })
    else (some ⟨o.capacity, now⟩, { s with buckets := s.buckets.set key ⟨o.capacity, now⟩ })

/-- `take(key)`. -/
def take (now : ℚ) (s : TokenBuckets) (key : JsString) : Bool × TokenBuckets :=
  match s.bucketFor o now key with
  | (none, s) => (false, s)
  | (some b, s) =>
    let b := b.refill o now
    if 1 ≤ b.tokens then
      (true, { s with buckets := s.buckets.set key { b with tokens := b.tokens - 1 } })
    else (false, { s with buckets := s.buckets.set key b })

/-- `tokensFor(key)`. -/
def tokensFor (now : ℚ) (s : TokenBuckets) (key : JsString) : ℚ × TokenBuckets :=
  match s.buckets.get key with
  | none => (o.capacity, s)
  | some b =>
    ((b.refill o now).tokens, { s with buckets := s.buckets.set key (b.refill o now) })

end TokenBuckets

/-- A call of `take`, or of `tokensFor`, and its time. -/
structure BucketCall where
  now : ℚ
  key : JsString
  peek : Bool

/-- A call, with its answer. -/
def TokenBuckets.call (s : TokenBuckets) (c : BucketCall) : (Bool ⊕ ℚ) × TokenBuckets :=
  if c.peek = true then (s.tokensFor o c.now c.key).map .inr id
  else (s.take o c.now c.key).map .inl id

/-- The answers to some calls. -/
def TokenBuckets.answers (s : TokenBuckets) : List BucketCall → List (Bool ⊕ ℚ)
  | [] => []
  | c :: calls => (s.call o c).1 :: answers (s.call o c).2 calls

/-- The buckets, the time, and the takes that returned true with their times. -/
structure Metering where
  store : TokenBuckets
  clock : ℚ
  granted : List (ℚ × JsString)

/-- The calls, with a clock that does not go back. -/
def tokenBuckets : Machine Metering BucketCall where
  init := ⟨⟨.empty, 0⟩, 0, []⟩
  step s c :=
    if s.clock ≤ c.now then
      some ⟨(s.store.call o c).2, c.now,
        s.granted ++ if (s.store.call o c).1 = .inl true then [(c.now, c.key)] else []⟩
    else none

/-- How many takes of some keys returned true in a span of time. -/
def Metering.count (s : Metering) (p : JsString → Bool) (t u : ℚ) : ℕ :=
  s.granted.countP fun g => decide (t ≤ g.1 ∧ g.1 ≤ u) && p g.2

/-- What is promised of a state, and of the calls on it. -/
structure Ceiling (s : Metering) : Prop where
  aggregate : ∀ t u, t ≤ u → (s.count (fun _ => true) t u : ℚ) ≤
    o.maxKeys * o.capacity + o.maxKeys * o.refillPerSec * ((u - t) / 1000)
  perKey : ∀ key t u, t ≤ u → (s.count (· = key) t u : ℚ) ≤
    o.capacity + o.refillPerSec * ((u - t) / 1000)
  dropped : ∀ (c : BucketCall) key b, s.clock ≤ c.now → s.store.buckets.get key = some b →
    (s.store.call o c).2.buckets.get key = none → (b.refill o c.now).tokens = o.capacity
  peeked : ∀ now key calls, s.clock ≤ now → (∀ c ∈ calls, now ≤ c.now) →
    calls.Pairwise (·.now ≤ ·.now) →
      (s.store.tokensFor o now key).2.answers o calls = s.store.answers o calls

/-- A take of the empty key opens no slot beyond the bound. -/
def OpensSlot (s : Metering) (c : BucketCall) : Prop :=
  c.peek = false → c.key = [] → s.store.buckets.get [] = none →
    s.store.buckets.size < o.maxKeys

variable {o} {b : Bucket} {s s' : Metering} {now now' t u : ℚ} {m : JsMap JsString Bucket}
  {p : JsString → Bool} {key : JsString}

/-! ## Refilling -/

theorem refilled_nonneg (h : now ≤ now') : 0 ≤ (now' - now) / 1000 * o.refillPerSec :=
  mul_nonneg (div_nonneg (sub_nonneg.mpr h) (by norm_num)) o.refillPerSec_nonneg

/-- A refill after a refill. -/
theorem refill_refill (h : now ≤ now') : (b.refill o now).refill o now' = b.refill o now' := by
  by_cases hpast : 0 < now - b.ts
  · have hpast' : 0 < now' - b.ts := by linarith
    simp only [Bucket.refill, if_pos hpast, if_pos hpast']
    by_cases hlater : 0 < now' - now
    · have hmore := refilled_nonneg (o := o) h
      have hsum : b.tokens + (now' - b.ts) / 1000 * o.refillPerSec =
          b.tokens + (now - b.ts) / 1000 * o.refillPerSec +
            (now' - now) / 1000 * o.refillPerSec := by ring
      have hfull := le_add_of_nonneg_right (a := o.capacity) hmore
      rw [if_pos hlater, ← min_add_add_right, ← min_assoc, min_eq_left hfull, hsum]
    · rw [if_neg hlater, le_antisymm h (by linarith)]
  · have hsame : b.refill o now = b := if_neg hpast
    rw [hsame]

/-- A bucket is within its capacity, and was refilled in the past. -/
structure Bucket.Within (o : BucketOptions) (clock : ℚ) (b : Bucket) : Prop where
  nonneg : 0 ≤ b.tokens
  le : b.tokens ≤ o.capacity
  past : b.ts ≤ clock

section

variable (h : b.Within o now) (hnow : now ≤ now')
include h hnow

theorem Bucket.Within.refill : (b.refill o now').Within o now' ∧ (b.refill o now').ts = now' := by
  have hpast := h.past.trans hnow
  have hmore := refilled_nonneg (o := o) hpast
  rw [Bucket.refill]
  split
  · exact ⟨⟨le_min o.capacity_pos.le (by linarith [h.nonneg]), min_le_left _ _, le_rfl⟩, rfl⟩
  · exact ⟨⟨h.nonneg, h.le, hpast⟩, le_antisymm hpast (by linarith)⟩

/-- A span of time adds its part of the rate at most. -/
theorem tokens_refill_le :
    (b.refill o now').tokens ≤ (b.refill o now).tokens + (now' - now) / 1000 * o.refillPerSec := by
  have hmore := refilled_nonneg (o := o) hnow
  have hts := (h.refill le_rfl).2
  rw [← refill_refill hnow]
  generalize b.refill o now = b at *
  rw [Bucket.refill]
  split
  · rw [hts]
    exact min_le_right _ _
  · linarith

end

/-! ## What the buckets lack -/

/-- What a bucket lacks of its capacity, if its key counts. -/
def lack (o : BucketOptions) (p : JsString → Bool) (now : ℚ) (key : JsString) (b : Bucket) : ℚ :=
  if p key then o.capacity - (b.refill o now).tokens else 0

/-- What the buckets of some keys lack of their capacities. -/
def spent (o : BucketOptions) (p : JsString → Bool) (now : ℚ) (m : JsMap JsString Bucket) : ℚ :=
  (m.entries.map fun e => lack o p now e.1 e.2).sum

/-- How many slots some keys have. -/
def slots (p : JsString → Bool) (m : JsMap JsString Bucket) : ℕ := m.keys.countP p

/-- Every bucket is within its capacity. -/
def Sound (o : BucketOptions) (clock : ℚ) (m : JsMap JsString Bucket) : Prop :=
  ∀ key b, m.get key = some b → b.Within o clock

theorem lack_nonneg (h : b.Within o now) (hnow : now ≤ now') : 0 ≤ lack o p now' key b := by
  have hle := (h.refill hnow).1.le
  rw [lack]
  split <;> linarith

theorem lack_refill (hnow : now ≤ now') :
    lack o p now' key (b.refill o now) = lack o p now' key b := by
  rw [lack, refill_refill hnow, lack]

/-- A sum over the slots. -/
theorem sum_le_slots {f g : JsString → Bucket → ℚ} {c : ℚ}
    (h : ∀ key b, m.get key = some b → f key b ≤ g key b + if p key then c else 0) :
    (m.entries.map fun e => f e.1 e.2).sum ≤ (m.entries.map fun e => g e.1 e.2).sum +
      slots p m * c := by
  have hentries : ∀ e ∈ m.entries, f e.1 e.2 ≤ g e.1 e.2 + if p e.1 then c else 0 := fun e he =>
    h e.1 e.2 (get_eq_some_iff.mpr he)
  rw [slots, JsMap.keys]
  generalize m.entries = l at *
  induction l with
  | nil => simp
  | cons e l ih =>
    have he := hentries e (.head _)
    have ih := ih fun e he => hentries e (.tail _ he)
    rw [map_cons, map_cons, sum_cons, sum_cons, map_cons, countP_cons]
    by_cases hp : p e.1 = true
    · rw [if_pos hp] at he ⊢
      push_cast
      linarith
    · rw [if_neg hp] at he ⊢
      rw [Nat.add_zero]
      linarith

theorem spent_le (h : Sound o now m) : spent o p now m ≤ slots p m * o.capacity := by
  have hsum := sum_le_slots (m := m) (p := p) (f := lack o p now) (g := fun _ _ => 0)
    (c := o.capacity) fun key b hb => by
      have hnonneg := ((h key b hb).refill le_rfl).1.nonneg
      rw [lack]
      split <;> linarith
  simpa [spent] using hsum

/-- Time gives some of it back. -/
theorem spent_elapsed (h : Sound o now m) (hnow : now ≤ now') : spent o p now m ≤
    spent o p now' m + slots p m * ((now' - now) / 1000 * o.refillPerSec) :=
  sum_le_slots fun key b hb => by
    have hle := tokens_refill_le (h key b hb) hnow
    rw [lack, lack]
    split <;> linarith

theorem spent_nonneg (h : Sound o now m) (hnow : now ≤ now') : 0 ≤ spent o p now' m := by
  refine sum_nonneg fun x hx => ?_
  obtain ⟨e, he, rfl⟩ := mem_map.mp hx
  exact lack_nonneg (h e.1 e.2 (get_eq_some_iff.mpr he)) hnow

/-- A sweep drops what lacks nothing. -/
theorem spent_sweepReclaimable (h : Sound o now m) :
    spent o p now (sweepReclaimable o now m) = spent o p now m := by
  have hentries : ∀ e ∈ m.entries, e.2.Within o now := fun e he =>
    h e.1 e.2 (get_eq_some_iff.mpr he)
  simp only [spent, sweepReclaimable, JsMap.filterMap]
  generalize m.entries = l at *
  induction l with
  | nil => rfl
  | cons e l ih =>
    have ih := ih fun e he => hentries e (.tail _ he)
    have hle := ((hentries e (.head _)).refill le_rfl).1.le
    rw [map_cons, sum_cons, ← ih, filterMap_cons]
    split_ifs with hempty hkept
    · rfl
    · simp [lack_refill]
    · have hzero : lack o p now e.1 e.2 = 0 := by
        rw [lack]
        split <;> linarith
      rw [hzero, zero_add]
      rfl

theorem sound_sweepReclaimable (h : Sound o now m) : Sound o now (sweepReclaimable o now m) := by
  intro key b hb
  rw [sweepReclaimable, get_filterMap] at hb
  obtain ⟨b₀, hb₀, hb⟩ := Option.bind_eq_some_iff.mp hb
  have hwithin := h key b₀ hb₀
  split_ifs at hb
  · exact Option.some.inj hb ▸ hwithin
  · exact Option.some.inj hb ▸ (hwithin.refill le_rfl).1

theorem sound_set (h : Sound o now m) (hb : b.Within o now) : Sound o now (m.set key b) := by
  intro key' b' hb'
  rw [get_set] at hb'
  split_ifs at hb'
  · exact Option.some.inj hb' ▸ hb
  · exact h key' b' hb'

theorem get_of_set {key' : JsString} (h : (m.set key' b).get key = none) : m.get key = none := by
  rw [get_set] at h
  split_ifs at h
  exact h

variable {st st' : TokenBuckets} {c : BucketCall} {r : Option Bucket}

/-- What a call, or a part of one, does to the slots. -/
structure Tidy (o : BucketOptions) (now : ℚ) (opens : Prop) (st st' : TokenBuckets) : Prop where
  sound : Sound o now st'.buckets
  size : opens → st.buckets.size ≤ o.maxKeys → st'.buckets.size ≤ o.maxKeys
  dropped : ∀ key b, st.buckets.get key = some b → st'.buckets.get key = none →
    (b.refill o now).tokens = o.capacity

/-- A bucket that was asked for takes its new place. -/
theorem Tidy.set {opens : Prop} (h : Tidy o now opens st st') (hb : st'.buckets.get key = some b)
    {b' : Bucket} (hwithin : b'.Within o now) :
    Tidy o now opens st { st' with buckets := st'.buckets.set key b' } ∧
      ∀ p, spent o p now (st'.buckets.set key b') + lack o p now key b =
        spent o p now st'.buckets + lack o p now key b' := by
  refine ⟨⟨sound_set h.sound hwithin, fun hopens hsize => ?_, fun key b hold hnone =>
    h.dropped key b hold (get_of_set hnone)⟩, fun p => ?_⟩
  · simp only [size_set, hb]
    exact h.size hopens hsize
  · have hset := sum_set (lack o p now) st'.buckets key b'
    rwa [hb] at hset

/-- What there is of a key when it is asked for, and the rest. -/
theorem bucketFor_spec (h : Sound o now st.buckets) (hr : st.bucketFor o now key = (r, st')) :
    Tidy o now (key = [] → st.buckets.get [] = none → st.buckets.size < o.maxKeys) st st' ∧
      (∀ p, spent o p now st'.buckets = spent o p now st.buckets) ∧
      ∀ b ∈ r, st'.buckets.get key = some b := by
  have hnew : (⟨o.capacity, now⟩ : Bucket).Within o now := ⟨o.capacity_pos.le, le_rfl, le_rfl⟩
  have hsweep := sound_sweepReclaimable h
  have hle : (sweepReclaimable o now st.buckets).size ≤ st.buckets.size :=
    length_filterMap_le _ _
  have hadd : ∀ {m} p, m.get key = none →
      spent o p now (m.set key ⟨o.capacity, now⟩) = spent o p now m := by
    intro m p hnone
    have hset := sum_set (lack o p now) m key ⟨o.capacity, now⟩
    simpa [hnone, spent, lack, Bucket.refill] using hset
  have hdropped : ∀ key b, st.buckets.get key = some b →
      (sweepReclaimable o now st.buckets).get key = none →
        (b.refill o now).tokens = o.capacity := by
    intro key b hb hnone
    rw [sweepReclaimable, get_filterMap, hb, Option.bind_some] at hnone
    split_ifs at hnone with hempty hfull
    exact le_antisymm ((h key b hb).refill le_rfl).1.le (not_lt.mp hfull)
  have hkept : ∀ key b, st.buckets.get key = some b → st.buckets.get key ≠ none :=
    fun key b hb hnone => by cases hb.symm.trans hnone
  rw [TokenBuckets.bucketFor] at hr
  split at hr
  · next b hb =>
    cases hr
    exact ⟨⟨h, fun _ hsize => hsize, fun key b hold hnone => absurd hnone (hkept key b hold)⟩,
      fun _ => rfl, fun _ hmem => Option.some.inj hmem ▸ hb⟩
  · next hnone =>
    simp only at hr
    split_ifs at hr with hfull hblocked hfreed <;> cases hr
    · exact ⟨⟨h, fun _ hsize => hsize, fun key b hold hnone => absurd hnone (hkept key b hold)⟩,
        fun _ => rfl, fun _ hmem => by cases hmem⟩
    · exact ⟨⟨hsweep, fun _ hsize => hle.trans hsize, hdropped⟩,
        fun _ => spent_sweepReclaimable h, fun _ hmem => by cases hmem⟩
    · have hswept : (sweepReclaimable o now st.buckets).get key = none := by
        rw [sweepReclaimable, get_filterMap, hnone]
        rfl
      refine ⟨⟨sound_set hsweep hnew, fun _ hsize => (size_set_le _ _ _).trans (by omega),
        fun key b hold hgone => hdropped key b hold (get_of_set hgone)⟩, fun p => ?_,
        fun b hmem => by rw [get_set_self, hmem]⟩
      rw [hadd p hswept, spent_sweepReclaimable h]
    · refine ⟨⟨sound_set h hnew, fun hopens hsize => (size_set_le _ _ _).trans ?_,
        fun key b hold hgone => absurd (get_of_set hgone) (hkept key b hold)⟩,
        fun p => hadd p hnone, fun b hmem => by rw [get_set_self, hmem]⟩
      by_cases hempty : key = []
      · exact hopens hempty (hempty ▸ hnone)
      · exact not_le.mp fun hmax => hfull ⟨hempty, hmax⟩

/-- A take that returns true is what a bucket lacks more, and no other call changes that. -/
theorem call_spec (h : Sound o c.now st.buckets) :
    Tidy o c.now (c.peek = false → c.key = [] → st.buckets.get [] = none →
      st.buckets.size < o.maxKeys) st (st.call o c).2 ∧
      ∀ p, spent o p c.now (st.call o c).2.buckets = spent o p c.now st.buckets +
        if (st.call o c).1 = .inl true ∧ p c.key = true then 1 else 0 := by
  have hsame : Tidy o c.now (c.peek = false → c.key = [] → st.buckets.get [] = none →
      st.buckets.size < o.maxKeys) st st :=
    ⟨h, fun _ hsize => hsize, fun key b hb hnone => by cases hb.symm.trans hnone⟩
  by_cases hpeek : c.peek = true
  · simp only [TokenBuckets.call, if_pos hpeek, TokenBuckets.tokensFor]
    split
    · exact ⟨hsame, by simp⟩
    · next b hb =>
      obtain ⟨htidy, hset⟩ := hsame.set hb ((h c.key b hb).refill le_rfl).1
      simp only [lack_refill le_rfl, add_left_inj] at hset
      exact ⟨htidy, by simpa using hset⟩
  · cases hr : st.bucketFor o c.now c.key with
    | mk r st' =>
      obtain ⟨htidy, hspent, hget⟩ := bucketFor_spec h hr
      have htidy' : Tidy o c.now (c.peek = false → c.key = [] → st.buckets.get [] = none →
          st.buckets.size < o.maxKeys) st st' :=
        ⟨htidy.sound, fun hopens => htidy.size (hopens (Bool.not_eq_true _ ▸ hpeek)), htidy.dropped⟩
      simp only [TokenBuckets.call, if_neg hpeek, TokenBuckets.take, hr]
      cases r with
      | none => exact ⟨htidy', by simp [hspent]⟩
      | some b =>
        have hb := hget b rfl
        obtain ⟨hwithin, hts⟩ := (htidy.sound c.key b hb).refill le_rfl
        simp only
        split
        · next htaken =>
          obtain ⟨htidy, hset⟩ := htidy'.set hb (show Bucket.Within o c.now
            { b.refill o c.now with tokens := (b.refill o c.now).tokens - 1 } from
              ⟨by simp only; linarith, by simp only; linarith [hwithin.le], hwithin.past⟩)
          have hfresh : Bucket.refill o c.now
              { b.refill o c.now with tokens := (b.refill o c.now).tokens - 1 } =
                { b.refill o c.now with tokens := (b.refill o c.now).tokens - 1 } :=
            if_neg (by simp [hts])
          refine ⟨htidy, fun p => ?_⟩
          have hmore := hset p
          simp only [lack, hfresh] at hmore
          by_cases hp : p c.key = true
          · simp only [hp, if_true, and_self, Prod.map, id, ← hspent p] at hmore ⊢
            linarith
          · simpa [hp, ← hspent p] using hmore
        · obtain ⟨htidy, hset⟩ := htidy'.set hb hwithin
          simp only [lack_refill le_rfl, add_left_inj] at hset
          exact ⟨htidy, by simpa [hspent] using hset⟩

/-! ## Runs -/

/-- What takes returned true in a span of time, against what the buckets lack. -/
structure Metered (o : BucketOptions) (p : JsString → Bool) (N : ℕ) (t u : ℚ) (s : Metering) :
    Prop where
  during : t ≤ s.clock → s.clock ≤ u → (s.count p t u : ℚ) ≤
    spent o p s.clock s.store.buckets + N * ((s.clock - t) / 1000 * o.refillPerSec)
  total : (s.count p t u : ℚ) ≤ N * o.capacity + N * ((u - t) / 1000 * o.refillPerSec)

/-- What every state keeps. -/
structure Kept (o : BucketOptions) (s : Metering) : Prop where
  sound : Sound o s.clock s.store.buckets
  logged : ∀ g ∈ s.granted, g.1 ≤ s.clock
  size : s.store.buckets.size ≤ o.maxKeys
  metered : ∀ p N t u, t ≤ u → (∀ m, m.size ≤ o.maxKeys → slots p m ≤ N) → Metered o p N t u s

/-- A call that takes `δ` more from the buckets of some keys. -/
theorem Metered.step {N δ : ℕ} (h : Metered o p N t u s)
    (hsound : Sound o s.clock s.store.buckets) (hlogged : ∀ g ∈ s.granted, g.1 ≤ s.clock)
    (hslots : slots p s.store.buckets ≤ N) (hclock : s.clock ≤ s'.clock)
    (hsound' : Sound o s'.clock s'.store.buckets) (hslots' : slots p s'.store.buckets ≤ N)
    (hspent : spent o p s'.clock s'.store.buckets = spent o p s'.clock s.store.buckets + δ)
    (hcount : s'.count p t u = s.count p t u + if t ≤ s'.clock ∧ s'.clock ≤ u then δ else 0) :
    Metered o p N t u s' := by
  have hslotsQ : (slots p s.store.buckets : ℚ) ≤ N := by exact_mod_cast hslots
  have hslotsQ' : (slots p s'.store.buckets : ℚ) ≤ N := by exact_mod_cast hslots'
  have hduring : t ≤ s'.clock → s'.clock ≤ u → (s'.count p t u : ℚ) ≤
      spent o p s'.clock s'.store.buckets + N * ((s'.clock - t) / 1000 * o.refillPerSec) := by
    intro ht hu
    rw [hcount, if_pos ⟨ht, hu⟩, hspent]
    push_cast
    by_cases hbefore : t ≤ s.clock
    · have hold := h.during hbefore (hclock.trans hu)
      have helapsed := spent_elapsed (p := p) hsound hclock
      have hpart := mul_le_mul_of_nonneg_right hslotsQ (refilled_nonneg (o := o) hclock)
      have hsum : (N : ℚ) * ((s'.clock - t) / 1000 * o.refillPerSec) =
          N * ((s'.clock - s.clock) / 1000 * o.refillPerSec) +
            N * ((s.clock - t) / 1000 * o.refillPerSec) := by ring
      linarith
    · have hzero : s.count p t u = 0 := countP_eq_zero.mpr fun g hg hin => by
        have hle := hlogged g hg
        simp only [Bool.and_eq_true, decide_eq_true_eq] at hin
        linarith [hin.1.1]
      have hnonneg := spent_nonneg (p := p) hsound hclock
      have hpart := mul_nonneg N.cast_nonneg (refilled_nonneg (o := o) ht)
      rw [hzero, Nat.cast_zero]
      linarith
  refine ⟨hduring, ?_⟩
  by_cases hin : t ≤ s'.clock ∧ s'.clock ≤ u
  · have hle := hduring hin.1 hin.2
    have hfull := (spent_le (p := p) hsound').trans
      (mul_le_mul_of_nonneg_right hslotsQ' o.capacity_pos.le)
    have hrest := mul_nonneg N.cast_nonneg (refilled_nonneg (o := o) hin.2)
    have hsum : (N : ℚ) * ((u - t) / 1000 * o.refillPerSec) =
        N * ((u - s'.clock) / 1000 * o.refillPerSec) +
          N * ((s'.clock - t) / 1000 * o.refillPerSec) := by ring
    linarith
  · rw [hcount, if_neg hin, Nat.add_zero]
    exact h.total

theorem Kept.step (h : Kept o s) (hok : OpensSlot o s c)
    (hs : (tokenBuckets o).step s c = some s') : Kept o s' := by
  obtain ⟨hclock, ⟨⟩⟩ := Option.ite_none_right_eq_some.mp hs
  have hsound : Sound o c.now s.store.buckets := fun key b hb =>
    ⟨(h.sound key b hb).nonneg, (h.sound key b hb).le, (h.sound key b hb).past.trans hclock⟩
  obtain ⟨htidy, hspent⟩ := call_spec hsound
  have hsize := htidy.size hok h.size
  refine ⟨htidy.sound, fun g hg => ?_, hsize, fun p N t u htu hN => ?_⟩
  · rcases mem_append.mp hg with hold | hnew
    · exact (h.logged g hold).trans hclock
    · split at hnew
      · cases mem_singleton.mp hnew
        exact le_rfl
      · cases hnew
  · refine (h.metered p N t u htu hN).step
      (δ := if (s.store.call o c).1 = .inl true ∧ p c.key = true then 1 else 0) h.sound h.logged
      (hN _ h.size) hclock htidy.sound (hN _ hsize) ((hspent p).trans (by push_cast; rfl)) ?_
    simp only [Metering.count, countP_append]
    by_cases htaken : (s.store.call o c).1 = .inl true
    · by_cases hp : p c.key = true <;> simp [htaken, hp, countP_singleton]
    · simp [htaken]

/-! ## Peeking -/

/-- Two states that only differ in when their buckets were refilled. -/
structure Alike (o : BucketOptions) (now : ℚ) (st st' : TokenBuckets) : Prop where
  buckets : ∀ key, (st.buckets.get key).map (Bucket.refill o now) =
    (st'.buckets.get key).map (Bucket.refill o now)
  blocked : st.sweepBlockedUntil = st'.sweepBlockedUntil

theorem Alike.later (h : Alike o now st st') (hnow : now ≤ now') : Alike o now' st st' := by
  refine ⟨fun key => ?_, h.blocked⟩
  have hkey := congrArg (Option.map (Bucket.refill o now')) (h.buckets key)
  simpa only [Option.map_map, Function.comp_def, refill_refill hnow] using hkey

theorem Alike.set {b' : Bucket} (h : Alike o now st st') (hb : b.refill o now = b'.refill o now) :
    Alike o now { st with buckets := st.buckets.set key b }
      { st' with buckets := st'.buckets.set key b' } := by
  refine ⟨fun key' => ?_, h.blocked⟩
  simp only [get_set]
  split
  · simp [hb]
  · exact h.buckets key'

theorem Alike.size (h : Alike o now st st') : st.buckets.size = st'.buckets.size := by
  rw [← length_keys, ← length_keys]
  refine ((perm_ext_iff_of_nodup st.buckets.nodup_keys st'.buckets.nodup_keys).mpr
    fun key => ?_).length_eq
  have hnone := congrArg (· = none) (h.buckets key)
  simp only [Option.map_eq_none_iff, get_eq_none_iff] at hnone
  exact not_iff_not.mp (iff_of_eq hnone)

theorem Alike.sweepReclaimable (h : Alike o now st st') (blocked : ℚ) :
    Alike o now ⟨sweepReclaimable o now st.buckets, blocked⟩
      ⟨Webhooks.sweepReclaimable o now st'.buckets, blocked⟩ := by
  refine ⟨fun key => ?_, rfl⟩
  have hkey := h.buckets key
  simp only [Webhooks.sweepReclaimable, get_filterMap]
  cases hb : st.buckets.get key <;> cases hb' : st'.buckets.get key <;> simp_all
  split_ifs <;> simp_all [refill_refill]

theorem Alike.bucketFor (h : Alike o now st st') (key : JsString) :
    ((st.bucketFor o now key).1.map (Bucket.refill o now) =
      (st'.bucketFor o now key).1.map (Bucket.refill o now)) ∧
    Alike o now (st.bucketFor o now key).2 (st'.bucketFor o now key).2 := by
  have hkey := h.buckets key
  rw [TokenBuckets.bucketFor, TokenBuckets.bucketFor]
  cases hb : st.buckets.get key with
  | some b =>
    cases hb' : st'.buckets.get key with
    | some b' => exact ⟨by rwa [hb, hb'] at hkey, h⟩
    | none => simp [hb, hb'] at hkey
  | none =>
    cases hb' : st'.buckets.get key with
    | some b' => simp [hb, hb'] at hkey
    | none =>
      have hswept := h.sweepReclaimable
      simp only [h.size, h.blocked, (hswept 0).size]
      split_ifs
      · exact ⟨rfl, h⟩
      · exact ⟨rfl, hswept _⟩
      · exact ⟨rfl, (hswept _).set rfl⟩
      · exact ⟨rfl, (h.set rfl).buckets, rfl⟩

/-- The same calls have the same answers. -/
theorem Alike.call (h : Alike o now st st') (hnow : now ≤ c.now) :
    (st.call o c).1 = (st'.call o c).1 ∧ Alike o c.now (st.call o c).2 (st'.call o c).2 := by
  have h := h.later hnow
  by_cases hpeek : c.peek = true
  · have hkey := h.buckets c.key
    simp only [TokenBuckets.call, if_pos hpeek, TokenBuckets.tokensFor]
    cases hb : st.buckets.get c.key <;> cases hb' : st'.buckets.get c.key <;> simp_all
    exact h.set rfl
  · obtain ⟨hfound, halike⟩ := h.bucketFor c.key
    simp only [TokenBuckets.call, if_neg hpeek, TokenBuckets.take]
    cases hr : st.bucketFor o c.now c.key with
    | mk r st₁ =>
      cases hr' : st'.bucketFor o c.now c.key with
      | mk r' st₁' =>
        rw [hr, hr'] at hfound halike
        cases r with
        | none =>
          cases r' with
          | none => exact ⟨rfl, halike⟩
          | some b' => cases hfound
        | some b =>
          cases r' with
          | none => cases hfound
          | some b' =>
            simp only [Option.some.inj hfound]
            split_ifs
            · exact ⟨rfl, halike.set rfl⟩
            · exact ⟨rfl, halike.set rfl⟩

theorem Alike.answers {calls : List BucketCall} (h : Alike o now st st')
    (hnow : ∀ c ∈ calls, now ≤ c.now) (hordered : calls.Pairwise (·.now ≤ ·.now)) :
    st.answers o calls = st'.answers o calls := by
  induction calls generalizing now st st' with
  | nil => rfl
  | cons c calls ih =>
    obtain ⟨hlater, hordered⟩ := pairwise_cons.mp hordered
    obtain ⟨hanswer, halike⟩ := h.call (hnow c (.head _))
    rw [TokenBuckets.answers, TokenBuckets.answers, hanswer, ih halike hlater hordered]

/-- The promise is kept in every run where the empty key opens no slot beyond the bound. -/
theorem ceiling_run {calls : List BucketCall}
    (h : (tokenBuckets o).ReachesWhere (OpensSlot o) calls s) : Ceiling o s := by
  have hkept : Kept o s := by
    refine h.invariant (I := Kept o) ?_ fun _ _ _ hkept hok hs => hkept.step hok hs
    refine ⟨fun _ _ hb => absurd hb (by simp [tokenBuckets]), fun _ hg => absurd hg not_mem_nil,
      Nat.zero_le _,
      fun p N t u htu _ => ⟨fun ht hu => ?_, ?_⟩⟩
    · have hnonneg := mul_nonneg N.cast_nonneg (refilled_nonneg (o := o) ht)
      simpa [tokenBuckets, Metering.count, spent, empty] using hnonneg
    · have hnonneg := mul_nonneg N.cast_nonneg (refilled_nonneg (o := o) htu)
      have hcapacity := mul_nonneg (α := ℚ) N.cast_nonneg o.capacity_pos.le
      simpa [tokenBuckets, Metering.count] using add_nonneg hcapacity hnonneg
  have hsound : ∀ {now}, s.clock ≤ now → Sound o now s.store.buckets := fun hnow key b hb =>
    ⟨(hkept.sound key b hb).nonneg, (hkept.sound key b hb).le,
      (hkept.sound key b hb).past.trans hnow⟩
  refine ⟨fun t u htu => ?_, fun key t u htu => ?_, fun c key b hnow hb hgone =>
    (call_spec (hsound hnow)).1.dropped key b hb hgone, fun now key calls hnow hcalls hordered =>
      Alike.answers ⟨fun key' => ?_, ?_⟩ hcalls hordered⟩
  · have htotal := (hkept.metered (fun _ => true) o.maxKeys t u htu fun m hm => by
      rwa [slots, countP_true, length_keys]).total
    linarith
  · have htotal := (hkept.metered (· = key) 1 t u htu fun m _ => by
      have hcount := nodup_iff_count_le_one.mp m.nodup_keys key
      simpa only [count, slots, beq_eq_decide] using hcount).total
    simp only [Nat.cast_one, one_mul] at htotal
    linarith
  · rw [TokenBuckets.tokensFor]
    split
    · rfl
    · next b hb =>
      simp only [get_set]
      split
      · next heq => simp [← heq, hb, refill_refill le_rfl]
      · rfl
  · rw [TokenBuckets.tokensFor]
    split <;> rfl

instance instDecidableOpensSlot (s : Metering) (c : BucketCall) : Decidable (OpensSlot o s c) :=
  inferInstanceAs (Decidable (_ → _ → _ → _))

/-- One slot of one token, refilled with one a second. -/
def oneSlot : BucketOptions := ⟨1, 1, 1, by norm_num, by norm_num, le_rfl⟩

/-- A slot that is full again is handed on. -/
theorem ceiling_run_handedOn : ∃ s, (tokenBuckets oneSlot).ReachesWhere (OpensSlot oneSlot)
    [⟨0, [97], false⟩, ⟨500, [98], false⟩, ⟨1500, [98], false⟩] s ∧ Ceiling oneSlot s ∧
      s.granted = [(0, [97]), (1500, [98])] :=
  Machine.exists_and_of_execWhere (by decide +kernel) fun _ hs _ => ceiling_run hs

/-- The empty key takes a token beyond those of the one slot. -/
theorem not_ceiling_emptyKey : ¬∀ (o : BucketOptions) (calls : List BucketCall) (s : Metering),
    (tokenBuckets o).Reaches calls s → Ceiling o s := by
  intro h
  obtain ⟨s, hs, hcount⟩ : ∃ s, (tokenBuckets oneSlot).Reaches
      [⟨0, [97], false⟩, ⟨0, [], false⟩] s ∧ s.count (fun _ => true) 0 0 = 2 :=
    Machine.exists_of_exec (by decide +kernel)
  have hle := (h _ _ s hs).aggregate 0 0 le_rfl
  rw [hcount] at hle
  norm_num [oneSlot] at hle

end AdapterWs.Webhooks
