import AdapterWs.SafeUrl.Resolved
import AdapterWs.SlidingWindow.Limiter

/-!
# Bursts of the sliding-window limiter

An identity that is not evicted is counted by a counter of its own: its entry is the counter of its
requests so far, or it has none because a sweep came after two windows without one, where the next
request would have found a counter without requests anyway. So an identity is admitted what its
counter admits, and sweeps change no answer.
-/

namespace AdapterWs.SlidingWindow

open JsString SlidingCounter List CursorMap Limiter

variable {case : CaseMap} {o : LimiterOptions} {start : ℚ} {s s' : Run} {l : Limiter}
  {key : JsString} {now : ℚ}

/-! ## Evictions -/

theorem leastActive_isSome (victim : Option (JsString × ℕ)) (entry : JsString × Counter) :
    (leastActive victim entry).isSome = true := by
  cases victim with
  | none => rfl
  | some victim =>
    simp only [leastActive]
    split <;> rfl

/-- The least active entry of a sample is one of the sample. -/
theorem mem_of_leastActive {entries : List (JsString × Counter)} {start : Option (JsString × ℕ)}
    {victim : JsString × ℕ} (h : entries.foldl leastActive start = some victim) :
    start = some victim ∨ ∃ entry ∈ entries, entry.1 = victim.1 := by
  induction entries generalizing start with
  | nil => exact .inl h
  | cons entry entries ih =>
    rcases ih h with hstart | ⟨entry', hmem, heq⟩
    · simp only [leastActive] at hstart
      split_ifs at hstart with hless
      · refine .inr ⟨entry, (.head _), ?_⟩
        rw [← Option.some.inj hstart]
      · exact .inl hstart
    · exact .inr ⟨entry', .tail _ hmem, heq⟩

/-- A sample that is not empty has a least active entry. -/
theorem exists_leastActive {entries : List (JsString × Counter)} (hne : entries ≠ [])
    (start : Option (JsString × ℕ)) :
    ∃ victim, entries.foldl leastActive start = some victim := by
  induction entries using reverseRecOn with
  | nil => exact absurd rfl hne
  | append_singleton entries entry ih =>
    rw [foldl_append]
    exact Option.isSome_iff_exists.mp (leastActive_isSome _ entry)

theorem one_le_sampleTarget (o : LimiterOptions) : 1 ≤ o.sampleTarget := by
  rw [LimiterOptions.sampleTarget]
  cases o.evictionSample with
  | none => exact le_rfl
  | some n =>
    simp only
    split_ifs with h
    · exact Nat.le_floor (by exact_mod_cast h)
    · exact le_rfl

/-- An eviction drops the entry that it names, and no other. -/
theorem evictOne_cases (o : LimiterOptions) (l : Limiter) :
    ((l.evictOne o).1 = none ∧ (l.evictOne o).2.map = l.map) ∨
      ∃ victim entry, (l.evictOne o).1 = some victim ∧ l.map.get victim = some entry ∧
        (l.evictOne o).2.map = l.map.delete victim := by
  rw [evictOne]
  split
  · exact .inl ⟨rfl, rfl⟩
  · next victim score hvictim =>
    rcases mem_of_leastActive hvictim with hnone | ⟨entry, hmem, heq⟩
    · cases hnone
    · simp only at heq
      subst heq
      exact .inr ⟨_, entry.2, rfl, get_of_mem_walk hmem, rfl⟩

/-- An eviction from a map that is not empty drops an entry. -/
theorem size_evictOne (hsize : 0 < l.map.size) :
    (l.evictOne o).2.map.size + 1 = l.map.size := by
  obtain ⟨victim, hvictim⟩ := exists_leastActive (@walk_ne_nil _ _ _ l.map
    (fun _ _ => false) _ (o.sampleTarget + 1) l.evictCursor hsize (one_le_sampleTarget o)) none
  rcases evictOne_cases o l with ⟨hnone, -⟩ | ⟨victim, entry, -, hget, hmap⟩
  · rw [evictOne, hvictim] at hnone
    cases hnone
  · rw [hmap]
    exact size_delete hget

theorem size_makeRoom (h : l.map.size ≤ max 1 o.maxEntries) :
    (l.makeRoom o).2.map.size + 1 ≤ max 1 o.maxEntries := by
  rw [makeRoom]
  split_ifs with hfull
  · rcases Nat.eq_zero_or_pos l.map.size with hzero | hpos
    · rcases evictOne_cases o l with ⟨-, hmap⟩ | ⟨victim, entry, -, hget, hmap⟩
      · rw [hmap]
        omega
      · have hdrop := size_delete hget
        omega
    · have hdrop := size_evictOne (o := o) hpos
      omega
  · exact Nat.succ_le_of_lt (lt_of_lt_of_le (not_le.mp hfull) (le_max_right ..))

/-- Room for a new identity costs no other its entry, unless it is evicted. -/
theorem get_makeRoom (hkept : key ∉ (l.makeRoom o).1.toList) :
    (l.makeRoom o).2.map.get key = l.map.get key := by
  rw [makeRoom] at hkept ⊢
  split_ifs at hkept ⊢ with hfull
  · rcases evictOne_cases o l with ⟨-, hmap⟩ | ⟨victim, entry, hvictim, -, hmap⟩
    · rw [hmap]
    · rw [hvictim, Option.toList_some, mem_singleton] at hkept
      rw [hmap, get_delete, if_neg (Ne.symm hkept)]
  · rfl

/-! ## One call -/

theorem exceeded_self (hlimit : 0 < o.maxPerWindow) (l : Limiter) (key : JsString) (now : ℚ) :
    (l.exceeded o key now).1 = (ask o.windowMs o.maxPerWindow now (l.map.get key)).1 ∧
      (l.exceeded o key now).2.2.map.get key =
        some (ask o.windowMs o.maxPerWindow now (l.map.get key)).2 := by
  rw [exceeded, if_neg (not_le.mpr hlimit)]
  cases l.map.get key with
  | none => exact ⟨rfl, get_set_self ..⟩
  | some entry => exact ⟨rfl, get_set_self ..⟩

/-- A request leaves the entries of the others, except the one that is evicted. -/
theorem exceeded_other {other : JsString} (hother : other ≠ key)
    (hkept : key ∉ (l.exceeded o other now).2.1.toList) :
    (l.exceeded o other now).2.2.map.get key = l.map.get key := by
  rw [exceeded] at hkept ⊢
  split_ifs at hkept ⊢ with hoff
  · rfl
  · cases hget : l.map.get other with
    | none =>
      rw [hget] at hkept
      simp only
      rw [get_set, if_neg hother, get_makeRoom hkept]
    | some entry =>
      simp only
      rw [get_set, if_neg hother]

theorem size_exceeded (h : l.map.size ≤ max 1 o.maxEntries) :
    (l.exceeded o key now).2.2.map.size ≤ max 1 o.maxEntries := by
  rw [exceeded]
  split_ifs with hoff
  · exact h
  · cases hget : l.map.get key with
    | none =>
      simp only
      rw [size_set]
      have hroom := size_makeRoom h
      split_ifs <;> omega
    | some entry =>
      simp only
      rw [size_set, hget, Option.isSome_some, if_pos rfl]
      exact h

/-! ## Runs -/

/-- The requests of an identity are what a counter of its own answers, and its entry is that
counter, or it has none after two windows without a request. -/
structure Tracked (o : LimiterOptions) (s : Run) (key : JsString) : Prop where
  requests_eq : s.requestsOf key =
    history o.windowMs o.maxPerWindow ((s.requestsOf key).map (·.time))
  ordered : ((s.requestsOf key).map (·.time)).Pairwise (· ≤ ·)
  past : ∀ t ∈ (s.requestsOf key).map (·.time), t ≤ s.clock
  entry_eq : s.limiter.map.get key =
      counter o.windowMs o.maxPerWindow ((s.requestsOf key).map (·.time)) ∨
    s.limiter.map.get key = none ∧
      ∃ c, counter o.windowMs o.maxPerWindow ((s.requestsOf key).map (·.time)) = some c ∧
        2 * o.windowMs ≤ s.clock - c.start

/-- A request finds the counter of its identity, or one that answers alike. -/
theorem Tracked.ask_eq (h : Tracked o s key) (hnow : s.clock ≤ now) :
    ask o.windowMs o.maxPerWindow now (s.limiter.map.get key) =
      ask o.windowMs o.maxPerWindow now
        (counter o.windowMs o.maxPerWindow ((s.requestsOf key).map (·.time))) := by
  rcases h.entry_eq with heq | ⟨hnone, c, hc, hpassed⟩
  · rw [heq]
  · rw [hnone, hc, ask_of_passed (by linarith)]

theorem requestsOf_snoc (s : Run) (l : Limiter) (clock : ℚ) (r : JsString × Request)
    (evicted : List JsString) (key : JsString) :
    Run.requestsOf ⟨l, clock, s.requests ++ [r], evicted⟩ key =
      s.requestsOf key ++ if r.1 = key then [r.2] else [] := by
  rw [Run.requestsOf, filter_append, map_append, ← Run.requestsOf]
  by_cases hkey : r.1 = key <;> simp [hkey]

/-- A sweep drops an entry only after two windows without a request. -/
theorem Tracked.sweep (case : CaseMap) (h : Tracked o s key) (hnow : s.clock ≤ now) :
    Tracked o (s.call case o (.sweep now)) key := by
  have hget : (s.call case o (.sweep now)).limiter.map.get key = (s.limiter.map.get key).filter
      fun entry => decide (now - entry.start < 2 * o.windowMs) := get_filter ..
  refine ⟨h.requests_eq, h.ordered, fun t ht => (h.past t ht).trans hnow, ?_⟩
  rw [hget]
  rcases h.entry_eq with heq | ⟨hnone, c, hc, hpassed⟩
  · rw [heq]
    cases hc : counter o.windowMs o.maxPerWindow ((s.requestsOf key).map (·.time)) with
    | none => exact .inl hc.symm
    | some c =>
      by_cases hrecent : now - c.start < 2 * o.windowMs
      · rw [Option.filter_some, if_pos (decide_eq_true hrecent)]
        exact .inl hc.symm
      · rw [Option.filter_some, if_neg (by simpa using hrecent)]
        exact .inr ⟨rfl, c, hc, not_lt.mp hrecent⟩
  · rw [hnone]
    refine .inr ⟨rfl, c, hc, hpassed.trans ?_⟩
    exact sub_le_sub_right hnow _

/-- A request of the identity is counted by its counter. -/
theorem Tracked.request (case : CaseMap) (hlimit : 0 < o.maxPerWindow) {clientIp : JsString}
    (hkey : rateLimitKey case o.maxKeyLen clientIp = key) (h : Tracked o s key)
    (hnow : s.clock ≤ now) : Tracked o (s.call case o (.exceeded clientIp now)) key := by
  obtain ⟨hanswer, hentry⟩ := exceeded_self hlimit s.limiter key now
  rw [h.ask_eq hnow] at hanswer hentry
  have hrequests : (s.call case o (.exceeded clientIp now)).requestsOf key =
      s.requestsOf key ++ [⟨now, (s.limiter.exceeded o key now).1⟩] := by
    rw [Run.call, hkey, requestsOf_snoc, if_pos rfl]
  have htimes : ((s.call case o (.exceeded clientIp now)).requestsOf key).map (·.time) =
      (s.requestsOf key).map (·.time) ++ [now] := by
    rw [hrequests, map_append]
    rfl
  refine ⟨?_, ?_, ?_, .inl ?_⟩
  · rw [htimes, hrequests, history_concat, ← h.requests_eq, hanswer]
  · rw [htimes]
    exact pairwise_concat_iff.mpr ⟨h.ordered, fun t ht => (h.past t ht).trans hnow⟩
  · rw [htimes]
    intro t ht
    rcases mem_append.mp ht with ht | ht
    · exact (h.past t ht).trans hnow
    · exact (mem_singleton.mp ht).le
  · rw [htimes, counter_concat, ← hentry]
    rw [Run.call, hkey]

/-- A request of another identity that does not evict this one leaves it as it is. -/
theorem Tracked.otherRequest (case : CaseMap) {clientIp : JsString}
    (hkey : rateLimitKey case o.maxKeyLen clientIp ≠ key) (h : Tracked o s key)
    (hnow : s.clock ≤ now) (hkept : key ∉ (s.call case o (.exceeded clientIp now)).evicted) :
    Tracked o (s.call case o (.exceeded clientIp now)) key := by
  have hrequests : (s.call case o (.exceeded clientIp now)).requestsOf key =
      s.requestsOf key := by
    rw [Run.call, requestsOf_snoc, if_neg hkey, append_nil]
  have hentry : (s.call case o (.exceeded clientIp now)).limiter.map.get key =
      s.limiter.map.get key :=
    exceeded_other hkey fun hmem => hkept (mem_append_right _ hmem)
  refine ⟨?_, ?_, ?_, ?_⟩
  · rw [hrequests]
    exact h.requests_eq
  · rw [hrequests]
    exact h.ordered
  · rw [hrequests]
    exact fun t ht => (h.past t ht).trans hnow
  · rw [hrequests, hentry]
    rcases h.entry_eq with heq | ⟨hnone, c, hc, hpassed⟩
    · exact .inl heq
    · exact .inr ⟨hnone, c, hc, hpassed.trans (sub_le_sub_right hnow _)⟩

theorem evicted_call (s : Run) (call : Call) {key : JsString} (h : key ∈ s.evicted) :
    key ∈ (s.call case o call).evicted := by
  cases call with
  | exceeded clientIp now => exact mem_append_left _ h
  | sweep now => exact h

/-- A step is a call with a clock that does not go back. -/
theorem call_of_step {call : Call} (h : (machine case o start).step s call = some s') :
    s.clock ≤ call.time ∧ s' = s.call case o call := by
  simp only [machine] at h
  split_ifs at h with hnow
  exact ⟨hnow, (Option.some.inj h).symm⟩

variable {calls : List Call}

/-- In every run, an identity that was not evicted is tracked. -/
theorem tracked_of_reaches (hlimit : 0 < o.maxPerWindow)
    (h : (machine case o start).Reaches calls s) (hkept : key ∉ s.evicted) : Tracked o s key := by
  refine Machine.ReachesWhere.invariant (I := fun s => key ∉ s.evicted → Tracked o s key)
    (fun _ => ?_) (fun s call s' ih _ hstep hkept => ?_) h hkept
  · exact ⟨rfl, .nil, forall_mem_nil _, .inl rfl⟩
  · obtain ⟨hnow, rfl⟩ := call_of_step hstep
    have htracked := ih fun hmem => hkept (evicted_call s call hmem)
    cases call with
    | sweep now => exact htracked.sweep case hnow
    | exceeded clientIp now =>
      by_cases hkey : rateLimitKey case o.maxKeyLen clientIp = key
      · exact htracked.request case hlimit hkey hnow
      · exact htracked.otherRequest case hkey hnow hkept

theorem size_le_of_reaches (h : (machine case o start).Reaches calls s) :
    s.limiter.map.size ≤ max 1 o.maxEntries := by
  refine Machine.ReachesWhere.invariant (I := fun s => s.limiter.map.size ≤ max 1 o.maxEntries)
    (Nat.zero_le _) (fun s call s' ih _ hstep => ?_) h
  obtain ⟨-, rfl⟩ := call_of_step hstep
  cases call with
  | exceeded clientIp now => exact size_exceeded ih
  | sweep now => exact (size_filter_le _ _).trans ih

/-! ## Sweeps -/

/-- The request of a call: its identity and its time. -/
def Call.request (case : CaseMap) (o : LimiterOptions) : Call → Option (JsString × ℚ)
  | .exceeded clientIp nowMs => some (rateLimitKey case o.maxKeyLen clientIp, nowMs)
  | .sweep _ => none

theorem requests_eq_of_reaches (h : (machine case o start).Reaches calls s) :
    s.requests.map (fun r => (r.1, r.2.time)) = calls.filterMap (Call.request case o) := by
  refine Machine.ReachesWhere.invariant_trace (I := fun calls s =>
    s.requests.map (fun r => (r.1, r.2.time)) = calls.filterMap (Call.request case o)) rfl
    (fun calls s call s' ih _ hstep => ?_) h
  obtain ⟨-, rfl⟩ := call_of_step hstep
  rw [filterMap_append, ← ih]
  cases call with
  | exceeded clientIp now =>
    rw [Run.call, map_append]
    rfl
  | sweep now => exact (append_nil _).symm

theorem times_requestsOf (s : Run) (key : JsString) : (s.requestsOf key).map (·.time) =
    ((s.requests.map fun r => (r.1, r.2.time)).filter fun r => decide (r.1 = key)).map
      Prod.snd := by
  rw [Run.requestsOf, map_map, filter_map, map_map]
  rfl

/-- Two runs of the same requests answer an identity alike, whatever they sweep. -/
theorem requestsOf_congr (hlimit : 0 < o.maxPerWindow) {calls' : List Call}
    (h : (machine case o start).Reaches calls s) (h' : (machine case o start).Reaches calls' s')
    (hsame : calls'.filterMap (Call.request case o) = calls.filterMap (Call.request case o))
    (hkept : key ∉ s.evicted) (hkept' : key ∉ s'.evicted) :
    s'.requestsOf key = s.requestsOf key := by
  have htracked := tracked_of_reaches hlimit h hkept
  have htracked' := tracked_of_reaches hlimit h' hkept'
  rw [htracked.requests_eq, htracked'.requests_eq, times_requestsOf, times_requestsOf,
    requests_eq_of_reaches h, requests_eq_of_reaches h', hsame]

/-- In any run: a span that is shorter than a window admits an identity fewer requests than the
limit, the part of the limit's whole requests that the span is of the window, and one; a request is
refused where the requests admitted before come to the limit, and nowhere else; a run with other
sweeps answers it the same; all of this for identities that are not evicted. The entries are at most
as many as configured, or one. -/
theorem bounded_bursts (case : CaseMap) (o : LimiterOptions) (start : ℚ)
    (hlimit : 1 ≤ o.maxPerWindow) (hwindow : 0 < o.windowMs) {calls : List Call} {s : Run}
    (h : (machine case o start).Reaches calls s) :
    s.limiter.map.size ≤ max 1 o.maxEntries ∧
      ∀ key, key ∉ s.evicted →
        (∀ first span : ℚ, 0 ≤ span → span < o.windowMs →
          (admitted (s.requestsOf key) (inSpan first span) : ℚ) <
            o.maxPerWindow + ⌈o.maxPerWindow⌉₊ * span / o.windowMs + 1) ∧
        (∀ before r after, s.requestsOf key = before ++ r :: after →
          r.refused = decide (o.maxPerWindow ≤ slidingEstimate o.windowMs before r.time)) ∧
        ∀ calls' s', (machine case o start).Reaches calls' s' → key ∉ s'.evicted →
          calls'.filterMap (Call.request case o) = calls.filterMap (Call.request case o) →
          s'.requestsOf key = s.requestsOf key := by
  have hpos : 0 < o.maxPerWindow := zero_lt_one.trans_le hlimit
  refine ⟨size_le_of_reaches h, fun key hkept => ?_⟩
  have htracked := tracked_of_reaches hpos h hkept
  refine ⟨fun first span hspan hshort => ?_, fun before r after hsplit => ?_,
    fun calls' s' h' hkept' hsame => requestsOf_congr hpos h h' hsame hkept hkept'⟩
  · rw [htracked.requests_eq]
    exact burst_lt hwindow hpos.le htracked.ordered hspan hshort
  · exact refused_of_history hwindow htracked.ordered (htracked.requests_eq.symm.trans hsplit)

/-- Options of one and a half requests in a tenth of a second. -/
def halfOptions : LimiterOptions := ⟨3 / 2, 100, 2, some 16, 128⟩

/-- Requests of one address at some times. -/
def requestsAt (times : List ℚ) : List Call := times.map (Call.exceeded (lit "203.0.113.7"))

/-- A sweep two windows after a request changes no answer. -/
theorem bounded_bursts_swept :
    ∃ s, (machine SafeUrl.asciiCase halfOptions 0).Reaches
        (requestsAt [0, 50] ++ [.sweep 210] ++ requestsAt [220]) s ∧
      s.limiter.map.size ≤ 2 ∧
      (admitted (s.requestsOf (lit "203.0.113.7")) (inSpan 0 50) : ℚ) < 3 / 2 + 2 * 50 / 100 + 1 ∧
      (s.requestsOf (lit "203.0.113.7")).map (·.refused) = [false, false, false] := by
  obtain ⟨s, hreaches, hkept, hanswers⟩ : ∃ s, (machine SafeUrl.asciiCase halfOptions 0).Reaches
      (requestsAt [0, 50] ++ [.sweep 210] ++ requestsAt [220]) s ∧
      lit "203.0.113.7" ∉ s.evicted ∧
      (s.requestsOf (lit "203.0.113.7")).map (·.refused) = [false, false, false] :=
    Machine.exists_of_exec (by decide +kernel)
  obtain ⟨hsize, hall⟩ := bounded_bursts SafeUrl.asciiCase halfOptions 0 (by decide +kernel)
    (by decide +kernel) hreaches
  have hceil : ⌈halfOptions.maxPerWindow⌉₊ = 2 := by decide +kernel
  have hburst := (hall _ hkept).1 0 50 (by decide +kernel) (by decide +kernel)
  rw [hceil] at hburst
  exact ⟨s, hreaches, hsize, hburst, hanswers⟩

/-- A limit that is no whole number rounds up in each of two windows: seventy-seven hundredths of a
window admit four requests of an address. -/
theorem exists_burst_of_half :
    ∃ s, (machine SafeUrl.asciiCase halfOptions 0).Reaches
        (requestsAt [0, 0, 100, 199, 199, 200, 276, 276]) s ∧
      lit "203.0.113.7" ∉ s.evicted ∧
      ¬((admitted (s.requestsOf (lit "203.0.113.7")) (inSpan 199 77) : ℚ) <
        halfOptions.maxPerWindow * (1 + 77 / halfOptions.windowMs) + 1) :=
  Machine.exists_of_exec (by decide +kernel)

end AdapterWs.SlidingWindow
