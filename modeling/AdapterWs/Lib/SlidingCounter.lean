import Mathlib.Data.List.Induction
import Mathlib.Data.Rat.Floor

/-!
# Counters over a sliding window

A counter of two windows estimates how many requests a sliding window has seen: the count of the
previous window fades while the current one passes. A window starts at the first request after the
last one has passed, and a gap of two windows forgets both counts.
-/

namespace AdapterWs.SlidingCounter

open List Option Nat

/-- The counts of two windows, and where the current one starts. -/
structure Counter where
  prev : ℕ
  curr : ℕ
  start : ℚ
deriving DecidableEq

/-- A request and its answer. -/
structure Request where
  time : ℚ
  refused : Bool
deriving DecidableEq

variable {window limit now : ℚ} {h : List Request} {before : Option ℚ} {c : Counter}
  {times : List ℚ} {p q : ℚ → Bool}

/-- A counter without requests. -/
def Counter.opened (now : ℚ) : Counter := ⟨0, 0, now⟩

/-- The windows have passed on. -/
def Counter.rotate (window now : ℚ) (c : Counter) : Counter :=
  if 2 * window ≤ now - c.start then .opened now
  else if window ≤ now - c.start then ⟨c.curr, 0, now⟩
  else c

/-- How many requests the window that ends now has seen, estimated. -/
def Counter.estimate (window now : ℚ) (c : Counter) : ℚ :=
  c.prev * (1 - (now - c.start) / window) + c.curr

/-- One more request, with its answer: it is refused where the estimate has come to the limit. -/
def Counter.count (window limit now : ℚ) (c : Counter) : Bool × Counter :=
  if limit ≤ c.estimate window now then (true, c) else (false, { c with curr := c.curr + 1 })

/-- A request. -/
def ask (window limit now : ℚ) (c : Option Counter) : Bool × Counter :=
  ((c.map (Counter.rotate window now)).getD (.opened now)).count window limit now

/-- A counter after requests at some times, and their answers. -/
def run (window limit : ℚ) (times : List ℚ) : Option Counter × List Request :=
  times.foldl (fun s now => (some (ask window limit now s.1).2,
    s.2 ++ [⟨now, (ask window limit now s.1).1⟩])) (none, [])

/-- The counter after requests at some times. -/
def counter (window limit : ℚ) (times : List ℚ) : Option Counter := (run window limit times).1

/-- The answers of requests at some times. -/
def history (window limit : ℚ) (times : List ℚ) : List Request := (run window limit times).2

theorem counter_concat (times : List ℚ) (now : ℚ) : counter window limit (times ++ [now]) =
    some (ask window limit now (counter window limit times)).2 := by
  rw [counter, run, foldl_append]
  rfl

theorem history_concat (times : List ℚ) (now : ℚ) : history window limit (times ++ [now]) =
    history window limit times ++
      [⟨now, (ask window limit now (counter window limit times)).1⟩] := by
  rw [history, run, foldl_append]
  rfl

/-- A request after a window and the next have passed finds a counter without requests. -/
theorem ask_of_passed (hpassed : 2 * window ≤ now - c.start) :
    ask window limit now (some c) = ask window limit now none := by
  rw [ask, ask, map_some, getD_some, Counter.rotate, if_pos hpassed]
  rfl

theorem map_time_history (times : List ℚ) : (history window limit times).map (·.time) = times := by
  induction times using reverseRecOn with
  | nil => rfl
  | append_singleton times now ih =>
    rw [history_concat, map_append, ih]
    rfl

/-! ## Windows -/

/-- Where the window of a request starts, and the one before it unless it is forgotten. -/
def nextWindows (window now : ℚ) : Option (Option ℚ × ℚ) → Option ℚ × ℚ
  | none => (none, now)
  | some (before, start) =>
    if 2 * window ≤ now - start then (none, now)
    else if window ≤ now - start then (some start, now)
    else (before, start)

/-- Where the windows start after requests at some times. -/
def windows (window : ℚ) (times : List ℚ) : Option (Option ℚ × ℚ) :=
  times.foldl (fun w now => some (nextWindows window now w)) none

theorem windows_concat (times : List ℚ) (now : ℚ) :
    windows window (times ++ [now]) = some (nextWindows window now (windows window times)) := by
  rw [windows, foldl_append]
  rfl

/-- How many requests at such times were admitted. -/
def admitted (h : List Request) (p : ℚ → Bool) : ℕ :=
  h.countP fun r => !r.refused && p r.time

/-- How many requests were admitted in the window before. -/
def admittedBefore (h : List Request) (before : Option ℚ) (start : ℚ) : ℕ :=
  before.elim 0 fun p => admitted h fun t => decide (p ≤ t) && decide (t < start)

theorem admittedBefore_some (h : List Request) (p start : ℚ) : admittedBefore h (some p) start =
    admitted h fun t => decide (p ≤ t) && decide (t < start) := rfl

/-- The estimate, from the requests that were admitted. -/
def slidingEstimate (window : ℚ) (h : List Request) (now : ℚ) : ℚ :=
  let w := nextWindows window now (windows window (h.map (·.time)))
  admittedBefore h w.1 w.2 * (1 - (now - w.2) / window) + admitted h fun t => decide (w.2 ≤ t)

theorem admitted_append (h h' : List Request) (p : ℚ → Bool) :
    admitted (h ++ h') p = admitted h p + admitted h' p := countP_append

theorem admitted_eq_zero (hp : ∀ r ∈ h, p r.time = false) : admitted h p = 0 := by
  refine countP_eq_zero.mpr fun r hr => ?_
  simp [hp r hr]

theorem admitted_congr (hpq : ∀ r ∈ h, p r.time = q r.time) : admitted h p = admitted h q := by
  refine countP_congr fun r hr => ?_
  rw [hpq r hr]

theorem admitted_mono (hpq : ∀ r ∈ h, p r.time = true → q r.time = true) :
    admitted h p ≤ admitted h q := by
  refine countP_mono_left fun r hr => ?_
  simp only [Bool.and_eq_true]
  exact fun hp => ⟨hp.1, hpq r hr hp.2⟩

theorem admitted_singleton (r : Request) (p : ℚ → Bool) :
    admitted [r] p = if r.refused then 0 else if p r.time then 1 else 0 := by
  rw [admitted, countP_cons, countP_nil]
  cases r.refused <;> simp

/-- What a span holds is what it holds before some time and from then on. -/
theorem admitted_split (mid : ℚ) (hp : ∀ r ∈ h, p r.time = true → r.time < mid → q r.time = true) :
    admitted h p ≤ admitted h (fun t => q t && decide (t < mid)) +
      admitted h fun t => decide (mid ≤ t) := by
  induction h with
  | nil => exact zero_le _
  | cons r h ih =>
    have hrest := ih fun r hr => hp r (.tail _ hr)
    rw [← singleton_append, admitted_append, admitted_append, admitted_append,
      admitted_singleton, admitted_singleton, admitted_singleton]
    have hone := hp r (.head _)
    by_cases hmid : r.time < mid
    · cases hrefused : r.refused <;> cases hpr : p r.time <;> simp_all <;> omega
    · cases hrefused : r.refused <;> cases hpr : p r.time <;> simp_all <;> omega

/-! ## What a counter knows -/

/-- The counts of a counter are those of its windows, and no more than the limit admits. -/
structure Sound (window limit : ℚ) (h : List Request) (before : Option ℚ) (c : Counter) :
    Prop where
  curr_eq : c.curr = admitted h fun t => decide (c.start ≤ t)
  prev_eq : c.prev = admittedBefore h before c.start
  within : ∀ r ∈ h, r.time < c.start + window
  forgotten : before = none → ∀ r ∈ h, r.time < c.start → r.time ≤ c.start - window
  passed : ∀ p, before = some p → p + window ≤ c.start
  curr_le : c.curr ≤ ⌈limit⌉₊
  prev_le : c.prev ≤ ⌈limit⌉₊

theorem sound_opened (hwindow : 0 < window) (hpast : ∀ r ∈ h, r.time ≤ now - window) :
    Sound window limit h none (.opened now) := by
  refine ⟨?_, rfl, fun r hr => ?_, fun _ r hr _ => hpast r hr, fun p hp => ?_, zero_le _,
    zero_le _⟩
  · refine (admitted_eq_zero fun r hr => decide_eq_false ?_).symm
    have hle := hpast r hr
    exact not_le.mpr (by rw [Counter.opened]; linarith)
  · have hle := hpast r hr
    rw [Counter.opened]
    linarith
  · cases hp.symm

theorem Sound.rotate (hs : Sound window limit h before c) (hwindow : 0 < window)
    (hpast : ∀ r ∈ h, r.time ≤ now) :
    Sound window limit h (nextWindows window now (some (before, c.start))).1
      (c.rotate window now) ∧
      (c.rotate window now).start = (nextWindows window now (some (before, c.start))).2 ∧
        now < (c.rotate window now).start + window := by
  rw [Counter.rotate, nextWindows]
  split_ifs with hgap hpassed
  · refine ⟨sound_opened hwindow fun r hr => ?_, rfl, ?_⟩
    · have hlt := hs.within r hr
      linarith
    · rw [Counter.opened]
      linarith
  · refine ⟨⟨?_, ?_, fun r hr => ?_, ?_, fun p hp => ?_, zero_le _, hs.curr_le⟩, rfl, ?_⟩
    · refine (admitted_eq_zero fun r hr => decide_eq_false ?_).symm
      have hlt := hs.within r hr
      exact not_le.mpr (by simp only; linarith)
    · simp only
      rw [admittedBefore_some, hs.curr_eq]
      refine admitted_congr fun r hr => ?_
      have hlt := hs.within r hr
      rw [decide_eq_true (by linarith : r.time < now), Bool.and_true]
    · have hle := hpast r hr
      simp only
      linarith
    · intro hnone
      cases hnone
    · cases hp
      simp only
      linarith
    · simp only
      linarith
  · exact ⟨hs, rfl, by linarith⟩

theorem Sound.count (hs : Sound window limit h before c) (hwindow : 0 < window)
    (hstart : c.start ≤ now) (hwithin : now < c.start + window) :
    Sound window limit (h ++ [⟨now, (c.count window limit now).1⟩]) before
      (c.count window limit now).2 := by
  have hbefore : ∀ r : Request, r.time = now → ∀ before,
      admittedBefore (h ++ [r]) before c.start = admittedBefore h before c.start := by
    intro r hr before
    cases before with
    | none => rfl
    | some p =>
      rw [admittedBefore_some, admittedBefore_some, admitted_append,
        admitted_eq_zero (h := [r]), add_zero]
      intro r' hr'
      rw [mem_singleton.mp hr', hr, decide_eq_false (not_lt.mpr hstart), Bool.and_false]
  have hall : ∀ r : Request, r.time = now → ∀ r' ∈ h ++ [r], r'.time < c.start + window := by
    intro r hr r' hr'
    rcases mem_append.mp hr' with hr' | hr'
    · exact hs.within r' hr'
    · rw [mem_singleton.mp hr', hr]
      exact hwithin
  have hforgotten : ∀ r : Request, r.time = now → before = none → ∀ r' ∈ h ++ [r],
      r'.time < c.start → r'.time ≤ c.start - window := by
    intro r hr hnone r' hr' hlt
    rcases mem_append.mp hr' with hr' | hr'
    · exact hs.forgotten hnone r' hr' hlt
    · rw [mem_singleton.mp hr', hr] at hlt
      exact absurd hstart (not_le.mpr hlt)
  rw [Counter.count]
  split_ifs with hrefused
  · refine ⟨?_, (hs.prev_eq.trans (hbefore _ rfl before).symm), hall _ rfl, hforgotten _ rfl,
      hs.passed, hs.curr_le, hs.prev_le⟩
    rw [admitted_append, admitted_singleton, if_pos rfl, add_zero]
    exact hs.curr_eq
  · refine ⟨?_, (hs.prev_eq.trans (hbefore _ rfl before).symm), hall _ rfl, hforgotten _ rfl,
      hs.passed, ?_, hs.prev_le⟩
    · rw [admitted_append, admitted_singleton, if_neg Bool.false_ne_true,
        if_pos (decide_eq_true hstart), ← hs.curr_eq]
    · have hfade : 0 ≤ (c.prev : ℚ) * (1 - (now - c.start) / window) := by
        refine mul_nonneg (cast_nonneg _) ?_
        rw [sub_nonneg, div_le_one hwindow]
        linarith
      have hlt : (c.curr : ℚ) < limit := by
        rw [Counter.estimate] at hrefused
        linarith
      exact lt_ceil.mpr hlt

theorem start_nextWindows (w : Option (Option ℚ × ℚ))
    (hpast : ∀ v, w = some v → v.2 ≤ now) : (nextWindows window now w).2 ≤ now := by
  rcases w with _ | ⟨before, start⟩
  · exact le_rfl
  · have hle := hpast _ rfl
    rw [nextWindows]
    split_ifs
    · exact le_rfl
    · exact le_rfl
    · exact hle

theorem Sound.ask (hs : Sound window limit h before c) (hwindow : 0 < window)
    (hstart : c.start ≤ now) (hpast : ∀ r ∈ h, r.time ≤ now) :
    Sound window limit (h ++ [⟨now, (ask window limit now (some c)).1⟩])
      (nextWindows window now (some (before, c.start))).1 (ask window limit now (some c)).2 ∧
      (ask window limit now (some c)).2.start = (nextWindows window now (some (before, c.start))).2
      := by
  obtain ⟨hrotated, heq, hwithin⟩ := hs.rotate hwindow hpast
  have hle : (c.rotate window now).start ≤ now := by
    rw [heq]
    exact start_nextWindows _ fun v hv => some.inj hv ▸ hstart
  refine ⟨hrotated.count hwindow hle hwithin, ?_⟩
  rw [← heq, SlidingCounter.ask, map_some, getD_some, Counter.count]
  split <;> rfl

theorem time_le_of_history {r : Request} (hr : r ∈ history window limit times)
    (hpast : ∀ t ∈ times, t ≤ now) : r.time ≤ now := by
  refine hpast r.time ?_
  rw [← @map_time_history window limit times]
  exact mem_map_of_mem hr

theorem pairwise_concat_iff : (times ++ [now]).Pairwise (· ≤ ·) ↔
    times.Pairwise (· ≤ ·) ∧ ∀ t ∈ times, t ≤ now := by
  rw [pairwise_append]
  simp

theorem eq_nil_of_counter (h : counter window limit times = none) : times = [] := by
  rcases eq_nil_or_concat times with hnil | ⟨times', last, rfl⟩
  · exact hnil
  · rw [concat_eq_append, counter_concat] at h
    cases h

/-- The counts of a counter are those of its windows, the later of which starts at a request. -/
theorem sound_history (hwindow : 0 < window) (hordered : times.Pairwise (· ≤ ·)) {c : Counter}
    (hc : counter window limit times = some c) : ∃ before,
      windows window times = some (before, c.start) ∧ c.start ∈ times ∧
        Sound window limit (history window limit times) before c := by
  induction times using reverseRecOn generalizing c with
  | nil => cases hc
  | append_singleton times now ih =>
    obtain ⟨hordered, hpast⟩ := pairwise_concat_iff.mp hordered
    rw [counter_concat] at hc
    cases hc
    rw [history_concat, windows_concat]
    have hearlier : ∀ r ∈ history window limit times, r.time ≤ now :=
      fun r hr => time_le_of_history hr hpast
    cases hcounter : counter window limit times with
    | none =>
      obtain rfl := eq_nil_of_counter hcounter
      have hopened : Sound window limit [] none (.opened now) :=
        sound_opened hwindow fun r hr => absurd hr not_mem_nil
      have hsound := hopened.count hwindow le_rfl (lt_add_of_pos_right now hwindow)
      have hstart : (ask window limit now none).2.start = now := by
        rw [ask, map_none, getD_none, Counter.count]
        split <;> rfl
      refine ⟨none, ?_, ?_, hsound⟩
      · rw [hstart]
        rfl
      · rw [hstart]
        exact mem_concat_self
    | some c =>
      obtain ⟨before, hwindows, hmem, hs⟩ := ih hordered hcounter
      obtain ⟨hsound, hstart⟩ := hs.ask hwindow (hpast _ hmem) hearlier
      refine ⟨_, ?_, ?_, hsound⟩
      · rw [hwindows, hstart]
      · rw [hstart, nextWindows]
        split_ifs
        · exact mem_concat_self
        · exact mem_concat_self
        · exact mem_append_left _ hmem

/-- The counter that a request finds once the windows have passed on. -/
theorem exists_found (hwindow : 0 < window) (hordered : (times ++ [now]).Pairwise (· ≤ ·)) :
    ∃ before c, nextWindows window now (windows window times) = (before, c.start) ∧
      Sound window limit (history window limit times) before c ∧ c.start ≤ now ∧
        now < c.start + window ∧
          ask window limit now (counter window limit times) = c.count window limit now := by
  obtain ⟨hordered, hpast⟩ := pairwise_concat_iff.mp hordered
  have hearlier : ∀ r ∈ history window limit times, r.time ≤ now :=
    fun r hr => time_le_of_history hr hpast
  cases hcounter : counter window limit times with
  | none =>
    obtain rfl := eq_nil_of_counter hcounter
    refine ⟨none, .opened now, rfl, ?_, le_rfl, lt_add_of_pos_right now hwindow, rfl⟩
    exact sound_opened hwindow fun r hr => absurd hr not_mem_nil
  | some c =>
    obtain ⟨before, hwindows, hmem, hs⟩ := sound_history hwindow hordered hcounter
    obtain ⟨hrotated, hstart, hwithin⟩ := hs.rotate hwindow hearlier
    rw [hwindows]
    refine ⟨_, c.rotate window now, Prod.ext rfl hstart.symm, hrotated, ?_, hwithin, rfl⟩
    rw [hstart]
    exact start_nextWindows _ fun v hv => some.inj hv ▸ hpast _ hmem

/-- A request is refused where the estimate of what was admitted has come to the limit. -/
theorem refused_eq (hwindow : 0 < window) (hordered : (times ++ [now]).Pairwise (· ≤ ·)) :
    (ask window limit now (counter window limit times)).1 =
      decide (limit ≤ slidingEstimate window (history window limit times) now) := by
  obtain ⟨before, c, hnext, hs, -, -, hask⟩ := @exists_found window limit now times hwindow hordered
  have hestimate : slidingEstimate window (history window limit times) now =
      c.estimate window now := by
    rw [slidingEstimate, map_time_history, hnext, Counter.estimate, hs.curr_eq, hs.prev_eq]
  rw [hask, hestimate, Counter.count]
  split_ifs with hrefused
  · exact (decide_eq_true hrefused).symm
  · exact (decide_eq_false hrefused).symm

/-- The answers of some requests do not depend on the later ones. -/
theorem history_append (times later : List ℚ) : ∃ rest,
    history window limit (times ++ later) = history window limit times ++ rest := by
  induction later using reverseRecOn with
  | nil => exact ⟨[], by rw [append_nil, append_nil]⟩
  | append_singleton later now ih =>
    obtain ⟨rest, hrest⟩ := ih
    rw [← append_assoc, history_concat, hrest, append_assoc]
    exact ⟨_, rfl⟩

theorem refused_of_history (hwindow : 0 < window) (hordered : times.Pairwise (· ≤ ·))
    {before after : List Request} {r : Request}
    (hsplit : history window limit times = before ++ r :: after) :
    r.refused = decide (limit ≤ slidingEstimate window before r.time) := by
  have htimes : times = before.map (·.time) ++ [r.time] ++ after.map (·.time) := by
    rw [← @map_time_history window limit times, hsplit, map_append,
      map_cons, append_assoc]
    rfl
  obtain ⟨rest, hrest⟩ := @history_append window limit
    (before.map (·.time) ++ [r.time]) (after.map (·.time))
  rw [← htimes, hsplit, history_concat, append_assoc] at hrest
  have hlength : before.length =
      (history window limit (before.map (·.time))).length := by
    have hmap := congrArg length
      (@map_time_history window limit (before.map (·.time)))
    rw [length_map, length_map] at hmap
    exact hmap.symm
  obtain ⟨hbefore, hfirst⟩ := append_inj hrest hlength
  have hr : r.refused =
      (ask window limit r.time (counter window limit (before.map (·.time)))).1 :=
    congrArg Request.refused (cons.inj hfirst).1
  rw [htimes] at hordered
  rw [hr, refused_eq hwindow (pairwise_append.mp hordered).1, ← hbefore]

/-- A span of time. -/
def inSpan (first span t : ℚ) : Bool := decide (first ≤ t) && decide (t ≤ first + span)

/-- What was admitted before, in a span that a request ends. -/
theorem Sound.burst (hs : Sound window limit h before c) (hwindow : 0 < window)
    (hadmits : c.estimate window now < limit) (hstart : c.start ≤ now)
    (hwithin : now < c.start + window) {first span : ℚ} (hlast : now ≤ first + span)
    (hspan : span < window) (hpos : 0 ≤ span) :
    (admitted h (inSpan first span) : ℚ) < limit + ⌈limit⌉₊ * span / window := by
  have hfade : 0 ≤ 1 - (now - c.start) / window := by
    rw [sub_nonneg, div_le_one hwindow]
    linarith
  rw [Counter.estimate] at hadmits
  by_cases hcurrent : c.start ≤ first
  · -- the span lies in the current window
    have hle : admitted h (inSpan first span) ≤ c.curr := by
      rw [hs.curr_eq]
      refine admitted_mono fun r _ hr => ?_
      rw [inSpan, Bool.and_eq_true, decide_eq_true_iff] at hr
      exact decide_eq_true (hcurrent.trans hr.1)
    have hprev : 0 ≤ (c.prev : ℚ) * (1 - (now - c.start) / window) :=
      mul_nonneg (cast_nonneg _) hfade
    have hcast : (admitted h (inSpan first span) : ℚ) ≤ c.curr := cast_le.mpr hle
    have hrest : 0 ≤ (⌈limit⌉₊ : ℚ) * span / window := by positivity
    linarith
  · -- what it holds before the current window is what the one before admitted
    have hle : admitted h (inSpan first span) ≤ c.prev + c.curr := by
      rw [hs.curr_eq, hs.prev_eq]
      cases before with
      | none =>
        refine le_add_left (admitted_mono fun r hr hin => ?_)
        rw [inSpan, Bool.and_eq_true, decide_eq_true_iff] at hin
        by_contra hlt
        have hearly := hs.forgotten rfl r hr (not_le.mp (mt decide_eq_true hlt))
        linarith [hin.1]
      | some p =>
        rw [admittedBefore_some]
        refine admitted_split c.start fun r _ hin _ => ?_
        rw [inSpan, Bool.and_eq_true, decide_eq_true_iff] at hin
        have hpassed := hs.passed p rfl
        exact decide_eq_true (by linarith [hin.1])
    have hcast : (admitted h (inSpan first span) : ℚ) ≤ c.prev + c.curr := by
      exact_mod_cast hle
    have hprev : (c.prev : ℚ) ≤ ⌈limit⌉₊ := cast_le.mpr hs.prev_le
    have helapsed : (c.prev : ℚ) * ((now - c.start) / window) ≤ ⌈limit⌉₊ * (span / window) := by
      have hnonneg : 0 ≤ (now - c.start) / window := div_nonneg (by linarith) hwindow.le
      have hshort : (now - c.start) / window ≤ span / window := by
        gcongr
        linarith [not_le.mp hcurrent]
      exact mul_le_mul hprev hshort hnonneg (cast_nonneg _)
    rw [mul_div_assoc]
    linarith

/-- Any span that is shorter than a window admits fewer requests than the limit, the part of it
that the span is of a window, and one. -/
theorem burst_lt (hwindow : 0 < window) (hlimit : 0 ≤ limit)
    (hordered : times.Pairwise (· ≤ ·)) {first span : ℚ} (hpos : 0 ≤ span)
    (hspan : span < window) :
    (admitted (history window limit times) (inSpan first span) : ℚ) <
      limit + ⌈limit⌉₊ * span / window + 1 := by
  induction times using reverseRecOn with
  | nil =>
    have hrest : 0 ≤ (⌈limit⌉₊ : ℚ) * span / window := by positivity
    change ((0 : ℕ) : ℚ) < _
    rw [cast_zero]
    linarith
  | append_singleton times now ih =>
    have hprevious := ih (pairwise_concat_iff.mp hordered).1
    rw [history_concat, admitted_append, admitted_singleton]
    by_cases hcounted : (ask window limit now (counter window limit times)).1 = false ∧
        inSpan first span now = true
    · obtain ⟨hadmits, hin⟩ := hcounted
      obtain ⟨before, c, -, hs, hstart, hwithin, hask⟩ :=
        @exists_found window limit now times hwindow hordered
      have hestimate : c.estimate window now < limit := by
        rw [hask, Counter.count] at hadmits
        by_contra hfull
        rw [if_pos (not_lt.mp hfull)] at hadmits
        cases hadmits
      rw [hadmits, if_neg Bool.false_ne_true, if_pos hin, cast_add, cast_one]
      rw [inSpan, Bool.and_eq_true, decide_eq_true_iff, decide_eq_true_iff] at hin
      have hburst := hs.burst hwindow hestimate hstart hwithin hin.2 hspan hpos
      linarith
    · have hzero : (if (ask window limit now (counter window limit times)).1 = true then 0
          else if inSpan first span now = true then 1 else 0) = 0 := by
        split_ifs with hrefused hin
        · rfl
        · exact (hcounted ⟨Bool.not_eq_true _ ▸ hrefused, hin⟩).elim
        · rfl
      rw [hzero, add_zero]
      exact hprevious

end AdapterWs.SlidingCounter
