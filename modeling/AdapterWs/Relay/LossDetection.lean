import AdapterWs.Lib.Machine
import AdapterWs.Relay.OriginStreamInvariant

/-!
# Relay loss detection: runs

A worker folds relayed frames of every topic and origin into one map of trackers and drains it
on a tick. `lossDetection topic origin` is that worker together with an observer of one stream,
who writes down what arrived on it, when its blocking hole became the blocking one, and every
report the drains made about it. The observer's columns are never read by the code.
-/

namespace AdapterWs.Relay

open NatRange OriginStream List Option

variable {Topic : Type} [DecidableEq Topic] (streams : OriginStreams Topic) (topic : Topic)
  (origin : ℕ)

/-! ## The maps of trackers -/

theorem streamOf_recordOriginStream (t : Topic) (origin o ord : ℕ) (birth : ℚ)
    (attachedAt : WithTop ℚ) (now : ℚ) :
    streamOf (recordOriginStream streams t (some o) (some ord) (some birth) attachedAt now)
        topic origin =
      if t = topic ∧ o = origin then
        some (match streamOf streams topic origin with
          | none => first ord birth attachedAt now
          | some st => st.record ord now)
      else streamOf streams topic origin := by
  simp only [streamOf, recordOriginStream, JsMap.get_set]
  by_cases ht : t = topic
  · subst ht
    rw [if_pos rfl, bind_some, JsMap.get_set]
    by_cases ho : o = origin
    · subst ho
      rw [if_pos rfl, if_pos ⟨rfl, rfl⟩]
      cases hm : streams.get t with
      | none => rfl
      | some byOrigin => rfl
    · rw [if_neg ho, if_neg fun h => ho h.2]
      cases hm : streams.get t with
      | none => rfl
      | some byOrigin => rfl
  · rw [if_neg ht, if_neg fun h => ht h.1]

theorem streamOf_takeConfirmedGaps (now grace : ℚ) :
    streamOf (takeConfirmedGaps streams now grace).2 topic origin =
      (streamOf streams topic origin).map fun st => (st.takeConfirmed now grace).1 := by
  simp only [streamOf, takeConfirmedGaps, JsMap.get_mapVals]
  cases hm : streams.get topic with
  | none => rfl
  | some byOrigin => simp

/-- The reports about one stream. -/
def gapsOf (gaps : List (Gap Topic)) (topic : Topic) (origin : ℕ) : List LostRange :=
  (gaps.filter fun g => g.topic = topic ∧ g.origin = origin).map Gap.toLostRange

/-- A drain reports at most one range about a stream, the one its tracker gave up. -/
theorem gapsOf_takeConfirmedGaps (now grace : ℚ) :
    gapsOf (takeConfirmedGaps streams now grace).1 topic origin =
      ((streamOf streams topic origin).bind fun st => (st.takeConfirmed now grace).2).toList := by
  have inner : ∀ byOrigin : JsMap ℕ OriginStream, ∀ t : Topic,
      ((byOrigin.entries.filterMap fun p => (p.2.takeConfirmed now grace).2.map fun lost =>
          ({ lost with topic := t, origin := p.1 } : Gap Topic)).filter
        fun g => g.topic = topic ∧ g.origin = origin) =
      if t = topic then
        ((byOrigin.get origin).bind fun st => (st.takeConfirmed now grace).2).toList.map
          fun lost => { lost with topic, origin }
      else [] := by
    intro byOrigin t
    rw [filterMap_eq_flatMap_toList, JsMap.filter_flatMap_entries (k := origin)]
    · by_cases ht : t = topic
      · subst ht
        cases hg : byOrigin.get origin with
        | none => simp
        | some st => cases hl : (st.takeConfirmed now grace).2 <;> simp [hl]
      · rw [if_neg ht]
        cases hg : byOrigin.get origin with
        | none => simp
        | some st => cases hl : (st.takeConfirmed now grace).2 <;> simp [hl, ht]
    · rintro ⟨o, st⟩ - ho
      cases (st.takeConfirmed now grace).2 <;> simp [ho]
  simp only [gapsOf, takeConfirmedGaps, streamOf]
  rw [JsMap.filter_flatMap_entries (k := topic)]
  · cases hm : streams.get topic with
    | none => rfl
    | some byOrigin =>
      simp only [map_some, getD_some, bind_some]
      have hin := inner byOrigin topic
      rw [if_pos rfl] at hin
      refine (congrArg (map _) hin).trans ?_
      rw [List.map_map]
      simp [Function.comp_def]
  · rintro ⟨t, byOrigin⟩ - ht
    exact (inner byOrigin t).trans (if_neg ht)

/-! ## The observed worker -/

/-- One report about the watched stream, with what the observer knew when it was made. -/
structure Report extends LostRange where
  /-- What had arrived on the stream before. -/
  arrivedBefore : List ℕ
  /-- The stream's blocking hole at that moment. -/
  hole : Option ℕ
  /-- How long it had been the blocking one. -/
  blockedFor : ℚ
  /-- The grace the drain was called with. -/
  grace : ℚ
  deriving DecidableEq

/-- The worker's map of trackers, and what an observer of one stream wrote down. -/
structure Watched (Topic : Type) [DecidableEq Topic] where
  /-- The worker's trackers. -/
  streams : OriginStreams Topic
  /-- The last clock reading. -/
  clock : ℚ
  /-- The ordinals that arrived on the watched stream. -/
  arrived : List ℕ
  /-- What precedes the stream's first sighting and was never owed to this worker. -/
  baseline : ℕ
  /-- When the stream's blocking hole became the blocking one. -/
  blockedSince : Option ℚ
  everSaturated : Bool
  /-- The reports about the stream, oldest first. -/
  reports : List Report

/-- What can happen to the worker. -/
inductive RelayEvent (Topic : Type)
  /-- A relayed frame arrives, with the stamps it carries. -/
  | arrive (topic : Topic) (origin ord : Option ℕ) (birth : Option ℚ) (attachedAt : WithTop ℚ)
      (now : ℚ)
  /-- The tick drains the confirmed holes. -/
  | drain (nowMs graceMs : ℚ)

/-- The blocking hole of a stream, if the stream is known and has one. -/
def blockingOf (streams : OriginStreams Topic) (topic : Topic) (origin : ℕ) : Option ℕ :=
  (streamOf streams topic origin).bind blocking

namespace Watched

variable (topic : Topic) (origin : ℕ)

/-- The worker before anything arrived. -/
def start : Watched Topic where
  streams := JsMap.empty
  clock := 0
  arrived := []
  baseline := 0
  blockedSince := none
  everSaturated := false
  reports := []

/-- The trackers replaced at a clock reading. The observer dates the blocking hole anew exactly
when it is not the one that was blocking before. -/
def observe (m : Watched Topic) (streams : OriginStreams Topic) (now : ℚ) : Watched Topic :=
  let after := blockingOf streams topic origin
  { m with
    streams, clock := now
    blockedSince :=
      if after = none then none
      else if after = blockingOf m.streams topic origin then m.blockedSince
      else some now
    everSaturated := m.everSaturated || (streamOf streams topic origin).any (·.saturated) }

/-- A relayed frame is folded into the trackers. -/
def arrive (m : Watched Topic) (t : Topic) (o ord : Option ℕ) (birth : Option ℚ)
    (attachedAt : WithTop ℚ) (now : ℚ) : Watched Topic :=
  let m' := m.observe topic origin (recordOriginStream m.streams t o ord birth attachedAt now) now
  match o, ord, birth with
  | some o, some ord, some birth =>
    if t = topic ∧ o = origin then
      { m' with
        arrived := m.arrived ++ [ord]
        baseline :=
          if m.arrived = [] then if 1 < ord ∧ attachedAt < (birth : WithTop ℚ) then 0 else ord
          else m.baseline }
    else m'
  | _, _, _ => m'

/-- The confirmed holes are drained. -/
def drain (m : Watched Topic) (nowMs graceMs : ℚ) : Watched Topic :=
  let taken := takeConfirmedGaps m.streams nowMs graceMs
  { m.observe topic origin taken.2 nowMs with
    reports := m.reports ++ (gapsOf taken.1 topic origin).map fun lost =>
      { lost with
        arrivedBefore := m.arrived
        hole := blockingOf m.streams topic origin
        blockedFor := nowMs - m.blockedSince.getD nowMs
        grace := graceMs } }

/-- Ordinals start at 1, and the clock is positive and never goes back. -/
def step (m : Watched Topic) : RelayEvent Topic → Option (Watched Topic)
  | .arrive t o ord birth attachedAt now =>
    if 0 < now ∧ m.clock ≤ now ∧ ord ≠ some 0 then
      some (m.arrive topic origin t o ord birth attachedAt now)
    else none
  | .drain nowMs graceMs =>
    if 0 < nowMs ∧ m.clock ≤ nowMs then some (m.drain topic origin nowMs graceMs) else none

end Watched

/-- The worker's runs, watched at one stream. -/
def lossDetection (topic : Topic) (origin : ℕ) : Machine (Watched Topic) (RelayEvent Topic) where
  init := Watched.start
  step := Watched.step topic origin

/-! ## The invariant of a run -/

/-- A report that names real losses only: a well-formed range at the blocking hole, which had
outlived the grace, holding no ordinal that had arrived. -/
structure Report.Sound (r : Report) : Prop where
  /-- The range is nonempty. -/
  first_le : r.first ≤ r.last
  /-- The count is its length. -/
  count_eq : r.count = r.last - r.first + 1
  /-- No ordinal of the range had arrived. -/
  missing : ∀ n ∈ r.arrivedBefore, ¬ (r.first ≤ n ∧ n ≤ r.last)
  /-- The range starts at the blocking hole. -/
  hole_eq : r.hole = some r.first
  /-- The hole had been blocking for the grace. -/
  aged : r.grace ≤ r.blockedFor

/-- Some report names the ordinal. -/
def Reported (reports : List Report) (n : ℕ) : Prop := ∃ r ∈ reports, r.first ≤ n ∧ n ≤ r.last

/-- The watched tracker agrees with the observer. -/
structure Agrees (m : Watched Topic) (st : OriginStream) : Prop where
  /-- The tracker tracks the arrivals. -/
  tracks : Tracks (· ∈ m.arrived) st
  /-- The hole is dated from when it became the blocking one. -/
  dated : st.blocking ≠ none → m.blockedSince = some st.holeSince
  /-- That moment is not in the future. -/
  past : st.holeSince ≤ m.clock
  /-- A stream that was never saturated is not saturated now. -/
  unforgotten : m.everSaturated = false → st.saturated = false
  /-- Every report lies at or below the watermark. -/
  below : ∀ r ∈ m.reports, r.last ≤ st.w
  /-- While nothing was forgotten, the watermark passed over arrivals and reports only. -/
  accounted : m.everSaturated = false →
    ∀ n, m.baseline < n → n ≤ st.w → n ∈ m.arrived ∨ Reported m.reports n

/-- The invariant of a run. -/
structure Consistent (topic : Topic) (origin : ℕ) (m : Watched Topic) : Prop where
  /-- The clock starts at 0. -/
  clock_nonneg : 0 ≤ m.clock
  /-- Every report names real losses. -/
  sound : ∀ r ∈ m.reports, r.Sound
  /-- Every report lies above the earlier ones. -/
  ascending : m.reports.Pairwise fun a b => a.last < b.first
  /-- Nothing arrived on a stream without a tracker. -/
  unseen : streamOf m.streams topic origin = none → m.arrived = [] ∧ m.reports = []
  /-- A tracker agrees with the observer. -/
  seen : ∀ st, streamOf m.streams topic origin = some st → m.arrived ≠ [] ∧ Agrees m st

theorem consistent_start : Consistent topic origin (Watched.start : Watched Topic) := by
  refine ⟨le_rfl, ?_, List.Pairwise.nil, fun _ => ⟨rfl, rfl⟩, ?_⟩
  · intro r hr
    cases hr
  · intro st hst
    cases hst

section Steps

variable {topic : Topic} {origin : ℕ} {m : Watched Topic} {streams : OriginStreams Topic}
  {st : OriginStream} {now : ℚ}

/-- What the observer dates: the hole that stays blocking keeps its date. -/
theorem blockedSince_observe (hold : st.blocking ≠ none → m.blockedSince = some st.holeSince)
    (hst : streamOf m.streams topic origin = some st) {st' : OriginStream}
    (hst' : streamOf streams topic origin = some st')
    (hdate : st'.holeSince = if st'.blocking = none then 0
      else if st'.blocking = st.blocking then st.holeSince else now)
    (hb : st'.blocking ≠ none) :
    (m.observe topic origin streams now).blockedSince = some st'.holeSince := by
  simp only [Watched.observe, blockingOf, hst, hst', bind_some]
  rw [if_neg hb] at hdate ⊢
  by_cases hsame : st'.blocking = st.blocking
  · rw [if_pos hsame] at hdate ⊢
    rw [hdate, hold (hsame ▸ hb)]
  · rw [if_neg hsame] at hdate ⊢
    rw [hdate]

/-- What happens to the other streams does not concern the observer. -/
theorem consistent_observe_of_eq (h : Consistent topic origin m) (hclock : m.clock ≤ now)
    (hsame : streamOf streams topic origin = streamOf m.streams topic origin) :
    Consistent topic origin (m.observe topic origin streams now) := by
  refine ⟨h.clock_nonneg.trans hclock, h.sound, h.ascending, ?_, ?_⟩
  · intro hnone
    exact h.unseen (hsame ▸ hnone)
  · intro st hst
    have hst₀ : streamOf m.streams topic origin = some st := hsame ▸ hst
    obtain ⟨harr, ha⟩ := h.seen st hst₀
    have hever : (m.observe topic origin streams now).everSaturated = false →
        m.everSaturated = false := by
      intro he
      simp only [Watched.observe, Bool.or_eq_false_iff] at he
      exact he.1
    refine ⟨harr, ha.tracks, ?_, ha.past.trans hclock, fun he => ha.unforgotten (hever he),
      ha.below, fun he => ha.accounted (hever he)⟩
    refine blockedSince_observe ha.dated hst₀ hst ?_
    by_cases hb : st.blocking = none
    · rw [if_pos hb]
      exact ha.tracks.holeSince_eq_zero_iff.mpr hb
    · rw [if_neg hb, if_pos rfl]

theorem everSaturated_observe (now : ℚ) {st' : OriginStream}
    (hst' : streamOf streams topic origin = some st')
    (he : (m.observe topic origin streams now).everSaturated = false) :
    m.everSaturated = false ∧ st'.saturated = false := by
  simpa only [Watched.observe, hst', any_some, Bool.or_eq_false_iff] using he

theorem agrees_first (h : Consistent topic origin m) (hnow : 0 < now)
    (hnone : streamOf m.streams topic origin = none) {ord : ℕ} {birth : ℚ}
    {attachedAt : WithTop ℚ}
    (hst' : streamOf streams topic origin = some (first ord birth attachedAt now)) :
    Agrees { m.observe topic origin streams now with
      arrived := m.arrived ++ [ord]
      baseline :=
        if m.arrived = [] then if 1 < ord ∧ attachedAt < (birth : WithTop ℚ) then 0 else ord
        else m.baseline } (first ord birth attachedAt now) := by
  obtain ⟨harr, hrep⟩ := h.unseen hnone
  have hdate : (first ord birth attachedAt now).holeSince =
      if (first ord birth attachedAt now).blocking = none then 0 else now := by
    have ht := tracks_first ord hnow.ne' birth attachedAt
    by_cases hb : (first ord birth attachedAt now).blocking = none
    · rw [if_pos hb]
      exact ht.holeSince_eq_zero_iff.mpr hb
    · rw [if_neg hb]
      unfold first at hb ⊢
      by_cases hp : 1 < ord ∧ attachedAt < (birth : WithTop ℚ)
      · rw [if_pos hp]
        rfl
      · rw [if_neg hp] at hb
        exact absurd (if_neg (lt_irrefl _)) hb
  refine ⟨?_, ?_, ?_, fun he => (everSaturated_observe now hst' he).2, ?_, ?_⟩
  · refine (tracks_first ord hnow.ne' birth attachedAt).congr fun n => ?_
    simp [harr]
  · intro hb
    simp only [Watched.observe, blockingOf, hst', hnone, bind_some, bind_none]
    rw [if_neg hb, if_neg hb, hdate, if_neg hb]
  · rw [hdate]
    by_cases hb : (first ord birth attachedAt now).blocking = none
    · rw [if_pos hb]
      exact hnow.le
    · rw [if_neg hb]
      exact le_rfl
  · intro r hr
    simp only [Watched.observe, hrep] at hr
    cases hr
  · intro _ n h₁ h₂
    simp only [harr, if_true] at h₁
    unfold first at h₂
    by_cases hp : 1 < ord ∧ attachedAt < (birth : WithTop ℚ)
    · rw [if_pos hp] at h₂
      simp only [withPrefixMissing] at h₂
      omega
    · rw [if_neg hp] at h₁ h₂
      simp only [baselined] at h₂
      omega

theorem agrees_record (h : Agrees m st) (harr : m.arrived ≠ []) (hnow : 0 < now)
    (hclock : m.clock ≤ now) (hst : streamOf m.streams topic origin = some st) {ord b : ℕ}
    (hst' : streamOf streams topic origin = some (st.record ord now)) :
    Agrees { m.observe topic origin streams now with
      arrived := m.arrived ++ [ord]
      baseline := if m.arrived = [] then b else m.baseline } (st.record ord now) := by
  obtain ⟨ht, hw, hacc, hdate⟩ := record_spec ord h.tracks hnow.ne'
  refine ⟨?_, blockedSince_observe h.dated hst hst' hdate, ?_,
    fun he => (everSaturated_observe now hst' he).2, ?_, ?_⟩
  · refine ht.congr fun n => ?_
    simp
  · simp only [Watched.observe]
    rw [hdate]
    by_cases hb : (st.record ord now).blocking = none
    · rw [if_pos hb]
      exact hnow.le
    · rw [if_neg hb]
      by_cases hsame : (st.record ord now).blocking = st.blocking
      · rw [if_pos hsame]
        exact h.past.trans hclock
      · rw [if_neg hsame]
  · intro r hr
    exact (h.below r hr).trans hw
  · intro he n h₁ h₂
    simp only [if_neg harr] at h₁
    have he := (everSaturated_observe now hst' he).1
    simp only [mem_append, mem_singleton]
    by_cases hn : n ≤ st.w
    · rcases h.accounted he n h₁ hn with ha | hr
      · exact .inl (.inl ha)
      · exact .inr hr
    · exact .inl (hacc (h.unforgotten he) n (by omega) h₂)

theorem consistent_arrive (h : Consistent topic origin m) (t : Topic) (o ord : Option ℕ)
    (birth : Option ℚ) (attachedAt : WithTop ℚ) (hnow : 0 < now) (hclock : m.clock ≤ now) :
    Consistent topic origin (m.arrive topic origin t o ord birth attachedAt now) := by
  cases o with
  | none => exact consistent_observe_of_eq h hclock rfl
  | some o =>
    cases ord with
    | none => exact consistent_observe_of_eq h hclock rfl
    | some ord =>
      cases birth with
      | none => exact consistent_observe_of_eq h hclock rfl
      | some birth =>
        have hstream :=
          streamOf_recordOriginStream m.streams topic t origin o ord birth attachedAt now
        simp only [Watched.arrive]
        by_cases hto : t = topic ∧ o = origin
        · rw [if_pos hto] at hstream ⊢
          generalize hrec : recordOriginStream m.streams t (some o) (some ord) (some birth)
            attachedAt now = streams at hstream ⊢
          refine ⟨h.clock_nonneg.trans hclock, h.sound, h.ascending, ?_, ?_⟩
          · intro hnone
            simp only [Watched.observe, hstream] at hnone
            cases hnone
          · intro st' hst'
            simp only [Watched.observe, hstream] at hst'
            cases hst'
            refine ⟨by simp, ?_⟩
            cases hst : streamOf m.streams topic origin with
            | none =>
              simp only [hst] at hstream
              exact agrees_first h hnow hst hstream
            | some st =>
              simp only [hst] at hstream
              obtain ⟨harr, ha⟩ := h.seen st hst
              exact agrees_record ha harr hnow hclock hst hstream
        · rw [if_neg hto] at hstream ⊢
          exact consistent_observe_of_eq h hclock hstream

theorem consistent_drain (h : Consistent topic origin m) (grace : ℚ) (hnow : 0 < now)
    (hclock : m.clock ≤ now) : Consistent topic origin (m.drain topic origin now grace) := by
  have hgaps := gapsOf_takeConfirmedGaps m.streams topic origin now grace
  have hstream := streamOf_takeConfirmedGaps m.streams topic origin now grace
  have hquiet : gapsOf (takeConfirmedGaps m.streams now grace).1 topic origin = [] →
      streamOf (takeConfirmedGaps m.streams now grace).2 topic origin =
        streamOf m.streams topic origin →
      Consistent topic origin (m.drain topic origin now grace) := by
    intro hg hs
    have hm : m.drain topic origin now grace =
        m.observe topic origin (takeConfirmedGaps m.streams now grace).2 now := by
      simp [Watched.drain, hg, Watched.observe]
    rw [hm]
    exact consistent_observe_of_eq h hclock hs
  cases hst : streamOf m.streams topic origin with
  | none => exact hquiet (by rw [hgaps, hst]; rfl) (by rw [hstream, hst]; rfl)
  | some st =>
    obtain ⟨harr, ha⟩ := h.seen st hst
    rcases takeConfirmed_spec ha.tracks hnow.ne' grace with ⟨hout, -⟩ | ⟨hb, haged, htaken⟩
    · refine hquiet ?_ ?_
      · rw [hgaps, hst, bind_some, hout]
        rfl
      · rw [hstream, hst, map_some, hout]
    · rw [hst, bind_some] at hgaps
      rw [hst, map_some] at hstream
      generalize hout : st.takeConfirmed now grace = out at hgaps hstream htaken
      obtain ⟨st', lost⟩ := out
      simp only at hgaps hstream
      have hhole : st.blocking = some (st.w + 1) := by
        unfold blocking at hb ⊢
        by_cases hlt : st.w < st.hi
        · exact if_pos hlt
        · exact absurd (if_neg hlt) hb
      simp only [Watched.drain, hgaps]
      -- the one report this drain can add
      have hnew : ∀ r ∈ (lost.toList.map fun l : LostRange =>
          ({ l with
            arrivedBefore := m.arrived
            hole := blockingOf m.streams topic origin
            blockedFor := now - m.blockedSince.getD now
            grace } : Report)), r.Sound ∧ r.first = st.w + 1 ∧ r.last ≤ st'.w := by
        intro r hr
        obtain ⟨l, hl, rfl⟩ := mem_map.mp hr
        rw [mem_toList] at hl
        obtain ⟨s₁, s₂, s₃, s₄, s₅⟩ := htaken.sound l hl
        refine ⟨⟨s₂, s₃, fun n hn hin => s₅ n hin.1 hin.2 hn, ?_, ?_⟩, s₁, s₄⟩
        · simp only [blockingOf, hst, bind_some]
          rw [hhole, s₁]
        · simp only [ha.dated hb, getD_some]
          exact haged
      refine ⟨h.clock_nonneg.trans hclock, ?_, ?_, ?_, ?_⟩
      · intro r hr
        rcases mem_append.mp hr with hr | hr
        · exact h.sound r hr
        · exact (hnew r hr).1
      · refine pairwise_append.mpr ⟨h.ascending, ?_, ?_⟩
        · cases lost with
          | none => exact List.Pairwise.nil
          | some l => exact pairwise_singleton _ _
        · intro a hra b hrb
          have h₁ := ha.below a hra
          have h₂ := (hnew b hrb).2.1
          omega
      · intro hnone
        simp only [Watched.observe, hstream] at hnone
        cases hnone
      · intro st'' hst''
        simp only [Watched.observe, hstream, some.injEq] at hst''
        subst hst''
        refine ⟨harr, htaken.tracks, ?_, ?_, fun he => (everSaturated_observe now hstream he).2,
          ?_, ?_⟩
        · refine fun hb' => blockedSince_observe ha.dated hst hstream ?_ hb'
          obtain ⟨hne, hdate⟩ := htaken.dated hb'
          rw [if_neg hb', if_neg hne]
          exact hdate
        · by_cases hb' : st'.blocking = none
          · rw [htaken.tracks.holeSince_eq_zero_iff.mpr hb']
            exact hnow.le
          · exact (htaken.dated hb').2.le
        · intro r hr
          rcases mem_append.mp hr with hr | hr
          · exact (ha.below r hr).trans htaken.w_le
          · exact (hnew r hr).2.2
        · intro he n h₁ h₂
          have he := (everSaturated_observe now hstream he).1
          by_cases hn : n ≤ st.w
          · rcases ha.accounted he n h₁ hn with hn | ⟨r, hr, hin⟩
            · exact .inl hn
            · exact .inr ⟨r, mem_append_left _ hr, hin⟩
          · rcases htaken.accounted (ha.unforgotten he) n (by omega) h₂ with hn | ⟨l, hl, hin⟩
            · exact .inl hn
            · refine .inr ⟨_, mem_append_right _
                (mem_map.mpr ⟨l, mem_toList.mpr hl, rfl⟩), hin⟩

end Steps

theorem invariant_of_reaches {topic : Topic} {origin : ℕ} {es : List (RelayEvent Topic)}
    {m : Watched Topic} (h : (lossDetection topic origin).Reaches es m) :
    Consistent topic origin m := by
  refine Machine.ReachesWhere.invariant (consistent_start topic origin) ?_ h
  intro s e s' hs _ hstep
  cases e with
  | arrive t o ord birth attachedAt now =>
    simp only [lossDetection, Watched.step] at hstep
    by_cases hen : 0 < now ∧ s.clock ≤ now ∧ ord ≠ some 0
    · rw [if_pos hen] at hstep
      cases hstep
      exact consistent_arrive hs t o ord birth attachedAt hen.1 hen.2.1
    · rw [if_neg hen] at hstep
      cases hstep
  | drain now grace =>
    simp only [lossDetection, Watched.step] at hstep
    by_cases hen : 0 < now ∧ s.clock ≤ now
    · rw [if_pos hen] at hstep
      cases hstep
      exact consistent_drain hs grace hen.1 hen.2
    · rw [if_neg hen] at hstep
      cases hstep

/-! ## Every loss is reported -/

/-- Drains whose clock is past the grace since the event before each of them. -/
def PastGrace : ℚ → List (ℚ × ℚ) → Prop
  | _, [] => True
  | clock, (now, grace) :: ds => 0 < now ∧ clock ≤ now ∧ grace ≤ now - clock ∧ PastGrace now ds

/-- A list of drains as events. -/
def drains (ds : List (ℚ × ℚ)) : List (RelayEvent Topic) := ds.map fun d => .drain d.1 d.2

/-- Every ordinal between the baseline and the highest arrival arrived at some time or was
reported exactly once. -/
def Accounted (m : Watched Topic) : Prop :=
  ∀ n, m.baseline < n → (∃ a ∈ m.arrived, n ≤ a) →
    n ∈ m.arrived ∨ (m.reports.countP fun r => r.first ≤ n ∧ n ≤ r.last) = 1

/-- Ranges that each lie above the earlier ones name an ordinal at most once. -/
theorem countP_eq_one_of_reported {reports : List Report} {n : ℕ}
    (hsound : ∀ r ∈ reports, r.first ≤ r.last)
    (hasc : reports.Pairwise fun a b => a.last < b.first) (h : Reported reports n) :
    (reports.countP fun r => r.first ≤ n ∧ n ≤ r.last) = 1 := by
  induction reports with
  | nil =>
    obtain ⟨r, hr, -⟩ := h
    cases hr
  | cons r reports ih =>
    obtain ⟨hlt, hasc⟩ := pairwise_cons.mp hasc
    have hsound' : ∀ q ∈ reports, q.first ≤ q.last := fun q hq =>
      hsound q (.tail _ hq)
    by_cases hr : r.first ≤ n ∧ n ≤ r.last
    · have hzero : (reports.countP fun r => r.first ≤ n ∧ n ≤ r.last) = 0 := by
        refine countP_eq_zero.mpr fun q hq hin => ?_
        have := hlt q hq
        simp only [decide_eq_true_eq] at hin
        omega
      rw [countP_cons_of_pos (by simpa using hr), hzero]
    · rw [countP_cons_of_neg (by simpa using hr)]
      refine ih hsound' hasc ?_
      obtain ⟨q, hq, hin⟩ := h
      rcases mem_cons.mp hq with rfl | hq
      · exact absurd hin hr
      · exact ⟨q, hq, hin⟩

section Completeness

variable {topic : Topic} {origin : ℕ} {m : Watched Topic} {st : OriginStream}

/-- With nothing forgotten and no hole open, every ordinal is accounted for. -/
theorem Consistent.accounted (h : Consistent topic origin m) (he : m.everSaturated = false)
    (hb : blockingOf m.streams topic origin = none) : Accounted m := by
  intro n hn ⟨a, ha, hle⟩
  cases hst : streamOf m.streams topic origin with
  | none =>
    rw [(h.unseen hst).1] at ha
    cases ha
  | some st =>
    obtain ⟨-, hag⟩ := h.seen st hst
    rw [blockingOf, hst, bind_some] at hb
    have hw := (hag.tracks.clean (hag.tracks.blocking_eq_none_iff.mp hb)).1
    have hahi := hag.tracks.le_hi a ha
    rcases hag.accounted he n hn (by omega) with hn | hr
    · exact .inl hn
    · exact .inr (countP_eq_one_of_reported (fun r hr => (h.sound r hr).first_le)
        h.ascending hr)

theorem held_eq_zero_iff {A : ℕ → Prop} (h : Tracks A st) : st.held = 0 ↔ st.blocking = none := by
  rw [h.blocking_eq_none_iff]
  unfold held
  constructor
  · intro h₀
    by_contra hne
    obtain ⟨n, hn | ⟨r, hr, -⟩⟩ := (h.opened hne).2
    · have := Finset.card_pos.mpr ⟨n, hn⟩
      omega
    · have := length_pos_of_mem hr
      omega
  · intro hn
    simp [hn, (h.clean hn).2.1]

theorem held_le (h : Bounded st) : st.held ≤ 2 * maxPendingAbove := by
  have := h.card_le
  have := h.length_le
  unfold held
  omega

section

variable (h : Consistent topic origin m) (he : m.everSaturated = false)
include h he

/-- A drain past the grace leaves less in memory, until no hole is open. -/
theorem held_drain {now grace : ℚ} (hnow : 0 < now) (hgrace : grace ≤ now - m.clock) :
    (m.drain topic origin now grace).everSaturated = false ∧
      ∀ st', streamOf (m.drain topic origin now grace).streams topic origin = some st' →
        ∃ st, streamOf m.streams topic origin = some st ∧ st'.held ≤ st.held - 1 := by
  have hstream := streamOf_takeConfirmedGaps m.streams topic origin now grace
  cases hst : streamOf m.streams topic origin with
  | none =>
    rw [hst, map_none] at hstream
    refine ⟨by simp [Watched.drain, Watched.observe, he, hstream], fun st' hst' => ?_⟩
    cases hstream.symm.trans hst'
  | some st =>
    obtain ⟨-, ha⟩ := h.seen st hst
    have hs := ha.unforgotten he
    rw [hst, map_some] at hstream
    refine ⟨?_, fun st' hst' => ⟨st, rfl, ?_⟩⟩
    · simp only [Watched.drain, Watched.observe, he, hstream, any_some, Bool.false_or]
      rcases takeConfirmed_spec ha.tracks hnow.ne' grace with ⟨hout, -⟩ | ⟨-, -, htaken⟩
      · rw [hout]
        exact hs
      · exact htaken.saturated hs
    · obtain rfl := some.inj (hstream.symm.trans hst')
      rcases takeConfirmed_spec ha.tracks hnow.ne' grace with ⟨hout, hb⟩ | ⟨-, -, htaken⟩
      · rw [hout]
        have hb : st.blocking = none := by
          rcases hb with hb | hyoung
          · exact hb
          · have hpast := ha.past
            have : now - m.clock ≤ now - st.holeSince := sub_le_sub_left hpast now
            exact absurd (hgrace.trans this) (not_le.mpr hyoung)
        have := (held_eq_zero_iff ha.tracks).mpr hb
        simp only
        omega
      · have := htaken.held_lt hs
        omega

/-- Drains past the grace, as many as the memory holds items, close every hole. -/
theorem drains_close {ds : List (ℚ × ℚ)} (hds : PastGrace m.clock ds)
    (hlen : ∀ st, streamOf m.streams topic origin = some st → st.held ≤ ds.length) :
    ∃ m', (lossDetection topic origin).exec m (drains ds) = some m' ∧ m'.arrived = m.arrived ∧
      m'.everSaturated = false ∧ blockingOf m'.streams topic origin = none ∧
      Consistent topic origin m' := by
  induction ds generalizing m with
  | nil =>
    refine ⟨m, rfl, rfl, he, ?_, h⟩
    rw [blockingOf]
    cases hst : streamOf m.streams topic origin with
    | none => rfl
    | some st =>
      rw [bind_some]
      exact (held_eq_zero_iff (h.seen st hst).2.tracks).mp (by simpa using hlen st hst)
  | cons d ds ih =>
    obtain ⟨now, grace⟩ := d
    obtain ⟨hnow, hclock, hgrace, hds⟩ := hds
    obtain ⟨he', hheld⟩ := held_drain h he hnow hgrace
    obtain ⟨m', hx, harr, hrest⟩ := ih (consistent_drain h grace hnow hclock) he' hds
      fun st' hst' => by
        obtain ⟨st, hst, hle⟩ := hheld st' hst'
        have hlen := hlen st hst
        rw [length_cons] at hlen
        omega
    refine ⟨m', ?_, harr, hrest⟩
    have hstep : (lossDetection topic origin).step m (.drain now grace) =
        some (m.drain topic origin now grace) := if_pos ⟨hnow, hclock⟩
    rw [drains, map_cons, Machine.exec_cons, hstep, bind_some]
    exact hx

end

/-- Loss detection is sound, bounded and, within its memory, complete. In every run the reports
name real losses at a hole that had outlived the grace, each above the earlier ones, and the
memory keeps its bounds. If the stream was never saturated, everything is accounted for whenever
no hole is open, and drains past the grace, as many as the memory can hold items, reach that. -/
theorem loss_detection_sound_and_complete {es : List (RelayEvent Topic)}
    (h : (lossDetection topic origin).Reaches es m) :
    (∀ r ∈ m.reports, r.Sound) ∧
      (m.reports.Pairwise fun a b => a.last < b.first) ∧
      (∀ st, streamOf m.streams topic origin = some st → Bounded st) ∧
      (m.everSaturated = false → blockingOf m.streams topic origin = none → Accounted m) ∧
      (m.everSaturated = false → ∀ ds, PastGrace m.clock ds → 2 * maxPendingAbove ≤ ds.length →
        ∃ m', (lossDetection topic origin).exec m (drains ds) = some m' ∧
          m'.arrived = m.arrived ∧ Accounted m') := by
  have hc := invariant_of_reaches h
  refine ⟨hc.sound, hc.ascending, fun st hst => (hc.seen st hst).2.tracks.toBounded,
    hc.accounted, ?_⟩
  intro he ds hds hlen
  obtain ⟨m', hx, harr, he', hb', hc'⟩ := drains_close hc he hds fun st hst =>
    (held_le (hc.seen st hst).2.tracks.toBounded).trans hlen
  exact ⟨m', hx, harr, hc'.accounted he' hb'⟩

end Completeness

/-- A stream met at its head: 3, 4 and 6 arrive, and a drain comes 1000 ms after the first of
them opened the hole at 2. -/
def lossyRun : List (RelayEvent ℕ) :=
  [(1, 10), (3, 20), (4, 30), (6, 40)].map (fun (ord, now) =>
    .arrive 0 (some 7) (some ord) (some 5) ((9 : ℚ) : WithTop ℚ) now) ++ [.drain 1020 1000]

/-- The drain reports 2, and leaves the younger hole at 5 to a later one. -/
theorem loss_detection_lossyRun :
    ∃ m, (lossDetection 0 7).Reaches lossyRun m ∧
      (m.reports.map fun r => (r.first, r.last, r.count, r.blockedFor)) = [(2, 2, 1, 1000)] ∧
      (∀ r ∈ m.reports, r.Sound) ∧ blockingOf m.streams 0 7 = some 5 := by
  obtain ⟨m, hm, hreports, hblocking⟩ : ∃ m, (lossDetection 0 7).Reaches lossyRun m ∧
      (m.reports.map fun r => (r.first, r.last, r.count, r.blockedFor)) = [(2, 2, 1, 1000)] ∧
      blockingOf m.streams 0 7 = some 5 := Machine.exists_of_exec (by decide +kernel)
  exact ⟨m, hm, hreports, (loss_detection_sound_and_complete hm).1, hblocking⟩

end AdapterWs.Relay
