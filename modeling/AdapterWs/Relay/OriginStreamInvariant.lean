import AdapterWs.Relay.OriginStreamMemory

/-!
# Relay loss detection: the tracker's invariant

`Bounded` is what holds of the two memories at any time, and `Tracks A st` relates a tracker
to the set `A` of the ordinals that arrived on its stream: what is retained arrived, and what
arrived above the watermark is retained or lies at or above the forgotten floor. Each operation
has one specification over `Tracks`, from which every statement about a run follows.
-/

namespace AdapterWs.Relay

open NatRange Option Finset

namespace OriginStream

variable {st : OriginStream} {A : ℕ → Prop} {ord : ℕ} {now : ℚ}

/-- The delivered ordinals the bounded memory holds. -/
def Retained (st : OriginStream) (n : ℕ) : Prop :=
  n ∈ st.above.getD ∅ ∨ Covers st.aboveRanges n

/-- The missing ordinal the watermark stops at, if anything arrived above it. -/
def blocking (st : OriginStream) : Option ℕ := if st.w < st.hi then some (st.w + 1) else none

/-- How many items the two memories hold. -/
def held (st : OriginStream) : ℕ := (st.above.getD ∅).card + st.aboveRanges.length

/-- The bounds of the two memories, and where what they hold lies. -/
structure Bounded (st : OriginStream) : Prop where
  /-- The watermark never passes the highest arrival. -/
  w_le_hi : st.w ≤ st.hi
  /-- The exact buffer is capped. -/
  card_le : (st.above.getD ∅).card ≤ maxPendingAbove
  /-- The cached maximum is the maximum. -/
  aboveMax_eq : st.aboveMax = (st.above.getD ∅).max
  /-- The ranges are sorted, disjoint and not adjacent. -/
  canonical : Canonical st.aboveRanges
  /-- The ranges are capped. -/
  length_le : st.aboveRanges.length ≤ maxPendingAbove
  /-- No ordinal is in both memories. -/
  disjoint : ∀ n ∈ st.above.getD ∅, ¬ Covers st.aboveRanges n
  /-- What is retained lies above the hole at the watermark. -/
  within : ∀ n, Retained st n → st.w + 1 < n ∧ n ≤ st.hi
  /-- The floor is set exactly when something was forgotten. -/
  saturated_iff : st.saturated = true ↔ st.forgottenFloor ≠ ⊤

/-- The tracker of a stream on which exactly the ordinals in `A` arrived. -/
structure Tracks (A : ℕ → Prop) (st : OriginStream) : Prop extends Bounded st where
  /-- A contiguous stream has no hole and no memory. -/
  clean : st.above = none → st.w = st.hi ∧ st.aboveRanges = [] ∧ st.saturated = false ∧
    st.holeSince = 0
  /-- An open hole is dated, and something is retained above it. -/
  opened : st.above ≠ none → st.holeSince ≠ 0 ∧ ∃ n, Retained st n
  /-- Something arrived at `hi`. -/
  hi_arrived : A st.hi
  /-- Nothing arrived above `hi`. -/
  le_hi : ∀ n, A n → n ≤ st.hi
  /-- The memory holds arrivals only. -/
  arrived : ∀ n, Retained st n → A n
  /-- An arrival above the watermark is retained, or lies at or above the floor. -/
  remembered : ∀ n, A n → st.w < n → Retained st n ∨ st.forgottenFloor ≤ (n : WithTop ℕ)

theorem Bounded.floor_eq_top (h : Bounded st) (hs : st.saturated = false) :
    st.forgottenFloor = ⊤ := by
  by_contra hne
  have := h.saturated_iff.mpr hne
  rw [hs] at this
  cases this

/-- While nothing was forgotten, the memory is a complete record above the watermark. -/
theorem Tracks.retained_of_lt (h : Tracks A st) (hs : st.saturated = false) {n : ℕ} (hn : A n)
    (hw : st.w < n) : Retained st n := by
  rcases h.remembered n hn hw with hr | hf
  · exact hr
  · rw [h.floor_eq_top hs, top_le_iff] at hf
    exact absurd hf WithTop.coe_ne_top

theorem Tracks.blocking_eq_none_iff (h : Tracks A st) : st.blocking = none ↔ st.above = none := by
  unfold blocking
  constructor
  · intro hb
    by_contra hne
    obtain ⟨n, hn⟩ := (h.opened hne).2
    have := h.within n hn
    rw [if_pos (by omega)] at hb
    cases hb
  · intro hn
    have := (h.clean hn).1
    rw [if_neg (by omega)]

theorem Tracks.holeSince_eq_zero_iff (h : Tracks A st) :
    st.holeSince = 0 ↔ st.blocking = none := by
  rw [h.blocking_eq_none_iff]
  constructor
  · intro h₀
    by_contra hne
    exact (h.opened hne).1 h₀
  · intro hn
    exact (h.clean hn).2.2.2

theorem Tracks.congr {B : ℕ → Prop} (h : Tracks A st) (hAB : ∀ n, A n ↔ B n) : Tracks B st := by
  have : A = B := funext fun n => propext (hAB n)
  exact this ▸ h

/-! ## The first sighting, and clean tracking -/

theorem bounded_rebaseline (st : OriginStream) : Bounded st.rebaseline := by
  refine ⟨le_rfl, by simp [rebaseline], rfl, canonical_nil, by simp [rebaseline], ?_, ?_, ?_⟩
  · simp [rebaseline]
  · simp [rebaseline, Retained]
  · simp [rebaseline]

theorem tracks_rebaseline (hhi : A st.hi) (hle : ∀ n, A n → n ≤ st.hi) :
    Tracks A st.rebaseline := by
  refine ⟨bounded_rebaseline st, ?_, ?_, hhi, hle, ?_, ?_⟩
  · simp [rebaseline]
  · simp [rebaseline]
  · simp [rebaseline, Retained]
  · intro n hn hw
    have := hle n hn
    simp only [rebaseline] at hw
    omega

theorem tracks_first (ord : ℕ) (hnow : now ≠ 0) (birth : ℚ) (attachedAt : WithTop ℚ) :
    Tracks (fun n => n = ord) (first ord birth attachedAt now) := by
  unfold first
  by_cases hb : 1 < ord ∧ attachedAt < (birth : WithTop ℚ)
  · rw [if_pos hb]
    have hret : ∀ n, Retained (withPrefixMissing ord now) n ↔ n = ord := by
      intro n
      simp [Retained, withPrefixMissing]
    refine ⟨⟨Nat.zero_le _, ?_, ?_, canonical_nil, Nat.zero_le _, ?_, ?_, ?_⟩,
      ?_, ?_, rfl, ?_, fun n => (hret n).mp, ?_⟩
    · simp [withPrefixMissing, maxPendingAbove]
    · simp [withPrefixMissing, Nat.cast_withBot]
    · simp [withPrefixMissing]
    · intro n hn
      rw [(hret n).mp hn]
      exact ⟨hb.1, le_rfl⟩
    · simp [withPrefixMissing]
    · simp [withPrefixMissing]
    · intro _
      exact ⟨hnow, ord, (hret ord).mpr rfl⟩
    · rintro n rfl
      exact le_rfl
    · intro n hn _
      exact .inl ((hret n).mpr hn)
  · rw [if_neg hb]
    have ht : Tracks (fun n => n = ord) (baselined ord).rebaseline :=
      tracks_rebaseline rfl fun n hn => hn.le
    exact ht

/-! ## Buffering an arrival above the hole -/

/-- What keeping one more arrival does to the memory. -/
structure Kept (st : OriginStream) (ord : ℕ) (st' : OriginStream) : Prop where
  /-- The memory stays bounded. -/
  bounded : Bounded st'
  /-- The watermark does not move. -/
  w_eq : st'.w = st.w
  /-- Nor does the highest arrival. -/
  hi_eq : st'.hi = st.hi
  /-- Nor does the age of the hole. -/
  holeSince_eq : st'.holeSince = st.holeSince
  /-- The memory stays allocated. -/
  allocated : st'.above ≠ none
  /-- Something is retained. -/
  nonempty : ∃ n, Retained st' n
  /-- Nothing but the arrival is new. -/
  retained : ∀ n, Retained st' n → Retained st n ∨ n = ord
  /-- What the memory loses lies at or above the new floor. -/
  remembered : ∀ n, Retained st n ∨ n = ord →
    Retained st' n ∨ st'.forgottenFloor ≤ (n : WithTop ℕ)
  /-- The floor only sinks. -/
  floor_le : st'.forgottenFloor ≤ st.forgottenFloor

/-- Handing an ordinal that is not retained to the range memory keeps it. -/
theorem kept_retain (h : Bounded st) (hnew : ¬ Retained st ord)
    (hin : st.w + 1 < ord ∧ ord ≤ st.hi) (hne : ∃ n, n ∈ st.above.getD ∅)
    (halloc : st.above ≠ none) : Kept st ord (st.retain ord) := by
  have hpos : ∀ r ∈ st.aboveRanges, 0 < r.1 := by
    intro r hr
    have := h.within r.1 (.inr ⟨r, hr, le_rfl, h.canonical.nonempty r hr⟩)
    omega
  have hnewR : ¬ Covers st.aboveRanges ord := fun hc => hnew (.inr hc)
  obtain ⟨hcan, hlen, hsub, hrem⟩ :=
    retainAboveRange_spec h.canonical h.length_le (by omega) hpos hnewR
  have hret : ∀ n, n ∈ st.above.getD ∅ ∨ Covers (retainAboveRange st.aboveRanges ord).1 n →
      Retained st n ∨ n = ord := by
    intro n hn
    rcases hn with hn | hn
    · exact .inl (.inl hn)
    · exact (hsub n hn).imp_left .inr
  have hwithin : ∀ n, n ∈ st.above.getD ∅ ∨
      Covers (retainAboveRange st.aboveRanges ord).1 n → st.w + 1 < n ∧ n ≤ st.hi := by
    intro n hn
    rcases hret n hn with hn | rfl
    · exact h.within n hn
    · exact hin
  have hdis : ∀ n ∈ st.above.getD ∅, ¬ Covers (retainAboveRange st.aboveRanges ord).1 n := by
    intro n hn hc
    rcases hsub n hc with hc | rfl
    · exact h.disjoint n hn hc
    · exact hnew (.inl hn)
  obtain ⟨m, hm⟩ := hne
  unfold retain
  by_cases h₀ : (retainAboveRange st.aboveRanges ord).2 = 0
  · simp only [if_pos h₀]
    refine ⟨⟨h.w_le_hi, h.card_le, h.aboveMax_eq, hcan, hlen, hdis, hwithin, h.saturated_iff⟩,
      rfl, rfl, rfl, halloc, ⟨m, .inl hm⟩, hret, ?_, le_rfl⟩
    intro n hn
    refine .inl ?_
    have hcov : Covers st.aboveRanges n ∨ n = ord →
        Covers (retainAboveRange st.aboveRanges ord).1 n := by
      intro hn
      rcases hrem n hn with hn | hn
      · exact hn
      · exact absurd h₀ hn.1
    rcases hn with (hn | hn) | hn
    · exact .inl hn
    · exact .inr (hcov (.inl hn))
    · exact .inr (hcov (.inr hn))
  · simp only [if_neg h₀]
    refine ⟨⟨h.w_le_hi, h.card_le, h.aboveMax_eq, hcan, hlen, hdis, hwithin, ?_⟩,
      rfl, rfl, rfl, halloc, ⟨m, .inl hm⟩, hret, ?_, min_le_left _ _⟩
    · simp only [true_iff, ne_eq]
      intro htop
      have := min_le_right st.forgottenFloor
        (((retainAboveRange st.aboveRanges ord).2 : ℕ) : WithTop ℕ)
      rw [htop, top_le_iff] at this
      exact WithTop.coe_ne_top this
    · intro n hn
      have hcov : Covers st.aboveRanges n ∨ n = ord →
          Covers (retainAboveRange st.aboveRanges ord).1 n ∨
            min st.forgottenFloor (((retainAboveRange st.aboveRanges ord).2 : ℕ) : WithTop ℕ) ≤
              (n : WithTop ℕ) := by
        intro hn
        rcases hrem n hn with hn | hn
        · exact .inl hn
        · exact .inr ((min_le_right _ _).trans (WithTop.coe_le_coe.mpr hn.2))
      rcases hn with (hn | hn) | hn
      · exact .inl (.inl hn)
      · exact (hcov (.inl hn)).imp_left .inr
      · exact (hcov (.inr hn)).imp_left .inr

/-- An arrival that is retained already changes nothing. -/
theorem kept_self (h : Bounded st) (halloc : st.above ≠ none) (hin : Retained st ord) :
    Kept st ord st := by
  refine ⟨h, rfl, rfl, rfl, halloc, ⟨ord, hin⟩, fun n => .inl, ?_, le_rfl⟩
  rintro n (hn | rfl)
  · exact .inl hn
  · exact .inl hin

theorem kept_insert (h : Bounded st) (hcard : (st.above.getD ∅).card < maxPendingAbove)
    (hnew : ¬ Retained st ord) (hin : st.w + 1 < ord ∧ ord ≤ st.hi) :
    Kept st ord { st with
      above := some (insert ord (st.above.getD ∅)), aboveMax := max st.aboveMax ord } := by
  have hret : ∀ n, n ∈ insert ord (st.above.getD ∅) ∨ Covers st.aboveRanges n ↔
      Retained st n ∨ n = ord := by
    intro n
    rw [mem_insert, Retained]
    tauto
  refine ⟨⟨h.w_le_hi, ?_, ?_, h.canonical, h.length_le, ?_, ?_, h.saturated_iff⟩,
    rfl, rfl, rfl, by simp, ⟨ord, (hret ord).mpr (.inr rfl)⟩, fun n => (hret n).mp,
    fun n hn => .inl ((hret n).mpr hn), le_rfl⟩
  · have := card_insert_le ord (st.above.getD ∅)
    simp only [getD_some]
    omega
  · simp only [getD_some]
    rw [max_insert, h.aboveMax_eq, max_comm, Nat.cast_withBot]
  · intro n hn
    rcases mem_insert.mp hn with rfl | hn
    · exact fun hc => hnew (.inr hc)
    · exact h.disjoint n hn
  · intro n hn
    rcases (hret n).mp hn with hn | rfl
    · exact h.within n hn
    · exact hin

/-- At the cap a smaller arrival takes the place of the maximum, which the ranges take. -/
theorem kept_evict (h : Bounded st) (hnew : ¬ Retained st ord) (hin : st.w + 1 < ord ∧ ord ≤ st.hi) (hlt : (ord : WithBot ℕ) < st.aboveMax) :
    Kept st ord
      (retain { st with
        above := some (insert ord ((st.above.getD ∅).erase (st.aboveMax.unbotD 0))),
        aboveMax := (insert ord ((st.above.getD ∅).erase (st.aboveMax.unbotD 0))).max }
        (st.aboveMax.unbotD 0)) := by
  obtain ⟨evicted, hev⟩ := WithBot.ne_bot_iff_exists.mp (ne_bot_of_gt hlt)
  have hmem : evicted ∈ st.above.getD ∅ :=
    mem_of_max (by rw [← h.aboveMax_eq, ← hev])
  rw [← hev, WithBot.unbotD_coe]
  rw [← hev, Nat.cast_withBot, WithBot.coe_lt_coe] at hlt
  generalize hk : insert ord ((st.above.getD ∅).erase evicted) = kept
  have hkept : ∀ n, n ∈ kept ↔ n = ord ∨ n ≠ evicted ∧ n ∈ st.above.getD ∅ := by
    intro n
    rw [← hk, mem_insert, mem_erase]
  have hbounded : Bounded { st with above := some kept, aboveMax := kept.max } := by
    refine ⟨h.w_le_hi, ?_, rfl, h.canonical, h.length_le, ?_, ?_, h.saturated_iff⟩
    · have h₁ := card_insert_le ord ((st.above.getD ∅).erase evicted)
      have h₂ := card_erase_of_mem hmem
      have h₃ := card_pos.mpr ⟨evicted, hmem⟩
      have h₄ := h.card_le
      simp only [getD_some]
      rw [← hk]
      omega
    · intro n hn
      rcases (hkept n).mp hn with rfl | hn
      · exact fun hc => hnew (.inr hc)
      · exact h.disjoint n hn.2
    · rintro n (hn | hn)
      · rcases (hkept n).mp hn with rfl | hn
        · exact hin
        · exact h.within n (.inl hn.2)
      · exact h.within n (.inr hn)
  have hgone : ¬ Retained { st with above := some kept, aboveMax := kept.max } evicted := by
    rintro (hn | hn)
    · rcases (hkept evicted).mp hn with hn | hn
      · omega
      · exact hn.1 rfl
    · exact h.disjoint evicted hmem hn
  have hk := kept_retain hbounded hgone (h.within evicted (.inl hmem))
    ⟨ord, (hkept ord).mpr (.inl rfl)⟩ (by simp)
  refine ⟨hk.bounded, hk.w_eq, hk.hi_eq, hk.holeSince_eq, hk.allocated, hk.nonempty, ?_, ?_,
    hk.floor_le⟩
  · intro n hn
    rcases hk.retained n hn with (hn | hn) | rfl
    · rcases (hkept n).mp hn with hn | hn
      · exact .inr hn
      · exact .inl (.inl hn.2)
    · exact .inl (.inr hn)
    · exact .inl (.inl hmem)
  · intro n hn
    refine hk.remembered n ?_
    by_cases hne : n = evicted
    · exact .inr hne
    · rcases hn with (hn | hn) | hn
      · exact .inl (.inl ((hkept n).mpr (.inr ⟨hne, hn⟩)))
      · exact .inl (.inr hn)
      · exact .inl (.inl ((hkept n).mpr (.inl hn)))

/-- Opening a hole leaves the memory as it was, and dates the hole if it has no date. -/
theorem openHole_spec (now : ℚ) (h : Tracks A st) (hw : st.w + 1 < ord) :
    ∃ s, openHole { st with hi := max st.hi ord } now = s ∧ Bounded s ∧ s.above ≠ none ∧
      (∀ n, Retained s n ↔ Retained st n) ∧ s.w = st.w ∧ s.hi = max st.hi ord ∧
      s.forgottenFloor = st.forgottenFloor ∧
      s.holeSince = if st.above = none then now else st.holeSince := by
  refine ⟨_, rfl, ?_⟩
  have hle := h.w_le_hi
  by_cases hn : st.above = none
  · obtain ⟨hwhi, hr, hs, h₀⟩ := h.clean hn
    have hf := h.floor_eq_top hs
    simp only [openHole, if_pos hn, if_pos h₀]
    refine ⟨⟨?_, by simp, by simp, canonical_nil, by simp, by simp, by simp [Retained], by simp⟩,
      by simp, by simp [Retained, hn, hr], by simp [hf]⟩
    simp only
    omega
  · have h₀ := (h.opened hn).1
    simp only [openHole, if_neg hn, if_neg h₀]
    refine ⟨⟨?_, h.card_le, h.aboveMax_eq, h.canonical, h.length_le, h.disjoint, ?_,
      h.saturated_iff⟩, hn, fun n => Iff.rfl, by simp⟩
    · simp only
      omega
    · intro n hr
      have := h.within n hr
      simp only
      omega

/-- An arrival with a missing ordinal below it: the watermark stays, and so does the date of a
hole that was open. -/
theorem tracks_buffer (h : Tracks A st) (hnow : now ≠ 0) (hw : st.w + 1 < ord) :
    Tracks (fun n => A n ∨ n = ord) (buffer { st with hi := max st.hi ord } ord now) ∧
      (buffer { st with hi := max st.hi ord } ord now).w = st.w ∧
      (buffer { st with hi := max st.hi ord } ord now).above ≠ none ∧
      (buffer { st with hi := max st.hi ord } ord now).holeSince =
        if st.above = none then now else st.holeSince := by
  obtain ⟨s, hs, hb, halloc, hret, hsw, hshi, hfloor, hsince⟩ :=
    openHole_spec now h hw
  have hin : s.w + 1 < ord ∧ ord ≤ s.hi := by omega
  have hk : Kept s ord (buffer { st with hi := max st.hi ord } ord now) := by
    simp only [buffer, hs]
    by_cases hdup : ord ∈ s.above.getD ∅ ∨ aboveRangesContain s.aboveRanges ord = true
    · rw [if_pos hdup]
      exact kept_self hb halloc (hdup.imp_right (aboveRangesContain_iff hb.canonical ord).mp)
    · rw [if_neg hdup]
      have hnew : ¬ Retained s ord := fun hn =>
        hdup (hn.imp_right (aboveRangesContain_iff hb.canonical ord).mpr)
      by_cases hcard : (s.above.getD ∅).card < maxPendingAbove
      · rw [if_pos hcard]
        exact kept_insert hb hcard hnew hin
      · rw [if_neg hcard]
        have hne : ∃ n, n ∈ s.above.getD ∅ := by
          refine card_pos.mp ?_
          have : maxPendingAbove = 64 := rfl
          omega
        by_cases hlt : (ord : WithBot ℕ) < s.aboveMax
        · rw [if_pos hlt]
          exact kept_evict hb hnew hin hlt
        · rw [if_neg hlt]
          exact kept_retain hb hnew hin hne halloc
  have hdated : s.holeSince ≠ 0 := by
    rw [hsince]
    by_cases hn : st.above = none
    · rwa [if_pos hn]
    · rw [if_neg hn]
      exact (h.opened hn).1
  refine ⟨⟨hk.bounded, fun hn => absurd hn hk.allocated, fun _ => ⟨?_, hk.nonempty⟩,
    ?_, ?_, ?_, ?_⟩, by rw [hk.w_eq, hsw], hk.allocated, by rw [hk.holeSince_eq, hsince]⟩
  · rwa [hk.holeSince_eq]
  · rw [hk.hi_eq, hshi]
    rcases le_total st.hi ord with hle | hle
    · exact .inr (max_eq_right hle)
    · exact .inl (by rw [max_eq_left hle]; exact h.hi_arrived)
  · intro n hn
    rw [hk.hi_eq, hshi]
    rcases hn with hn | rfl
    · exact (h.le_hi n hn).trans (le_max_left _ _)
    · exact le_max_right _ _
  · intro n hn
    rcases hk.retained n hn with hn | hn
    · exact .inl (h.arrived n ((hret n).mp hn))
    · exact .inr hn
  · intro n hn hlt
    rw [hk.w_eq, hsw] at hlt
    rcases hn with hn | hn
    · rcases h.remembered n hn hlt with hr | hf
      · exact hk.remembered n (.inl ((hret n).mpr hr))
      · exact .inr ((hk.floor_le.trans hfloor.le).trans hf)
    · exact hk.remembered n (.inr hn)

/-! ## Moving the watermark -/

theorem max_filter_gt {above : Finset ℕ} {w : ℕ} (hne : above.filter (w < ·) ≠ ∅) :
    (above.filter (w < ·)).max = above.max := by
  refine le_antisymm (Finset.max_mono (Finset.filter_subset _ _)) (Finset.max_le fun n hn => ?_)
  obtain ⟨m, hm⟩ := Finset.nonempty_iff_ne_empty.mpr hne
  by_cases hlt : w < n
  · exact le_max (mem_filter.mpr ⟨hn, hlt⟩)
  · have hle : n ≤ m := by
      have := (mem_filter.mp hm).2
      omega
    exact (WithBot.coe_le_coe.mpr hle).trans (le_max hm)

/-- The watermark raised over a part of the memory, with something left above it: the next hole
is the one right above the new watermark, and its age starts now. -/
theorem tracks_raise {B : ℕ → Prop} {hi w : ℕ} {above : Finset ℕ} {ranges : List (ℕ × ℕ)}
    (h : Tracks A st) (hnow : now ≠ 0) (hhi : B hi) (hlehi : ∀ n, B n → n ≤ hi)
    (hAB : ∀ n, A n → B n) (hBA : ∀ n, B n → w < n → A n) (hw : st.w ≤ w) (hwhi : w ≤ hi)
    (habove : above = (st.above.getD ∅).filter (w < ·))
    (hcov : ∀ n, Covers ranges n ↔ Covers st.aboveRanges n ∧ w < n)
    (hsuffix : ranges <:+ st.aboveRanges) (hstop : ¬ Retained st (w + 1))
    (hne : ¬ (above = ∅ ∧ ranges = [])) :
    Tracks B { st with
      hi := hi, w := w, above := some above, aboveRanges := ranges,
      aboveMax := if above = ∅ then ⊥ else st.aboveMax, holeSince := now } := by
  have hret : ∀ n, n ∈ above ∨ Covers ranges n ↔ Retained st n ∧ w < n := by
    intro n
    rw [habove, mem_filter, hcov, Retained, or_and_right]
  refine ⟨⟨hwhi, ?_, ?_, ?_, ?_, ?_, ?_, h.saturated_iff⟩, ?_, ?_, hhi, hlehi, ?_, ?_⟩
  · rw [getD_some, habove]
    exact (card_filter_le _ _).trans h.card_le
  · rw [getD_some]
    by_cases he : above = ∅
    · simp [he]
    · simp only [if_neg he]
      rw [h.aboveMax_eq, habove, max_filter_gt (habove ▸ he)]
  · obtain ⟨pre, hpre⟩ := hsuffix
    have := h.canonical
    rw [← hpre] at this
    exact (canonical_append.mp this).2.1
  · exact hsuffix.length_le.trans h.length_le
  · intro n hn hc
    rw [getD_some, habove, mem_filter] at hn
    exact h.disjoint n hn.1 ((hcov n).mp hc).1
  · intro n hn
    obtain ⟨hr, hlt⟩ := (hret n).mp hn
    have hne : n ≠ w + 1 := by
      rintro rfl
      exact hstop hr
    refine ⟨?_, hlehi n (hAB n (h.arrived n hr))⟩
    simp only
    omega
  · exact fun hne => by cases hne
  · refine fun _ => ⟨hnow, ?_⟩
    by_cases he : above = ∅
    · have hr : ranges ≠ [] := fun hr => hne ⟨he, hr⟩
      obtain ⟨r, rs, hr⟩ := List.exists_cons_of_ne_nil hr
      have hmem : r ∈ st.aboveRanges := hsuffix.subset (by simp [hr])
      exact ⟨r.1, .inr ⟨r, by simp [hr], le_rfl, h.canonical.nonempty r hmem⟩⟩
    · obtain ⟨m, hm⟩ := nonempty_iff_ne_empty.mpr he
      exact ⟨m, .inl (by simpa using hm)⟩
  · intro n hn
    exact hAB n (h.arrived n ((hret n).mp hn).1)
  · intro n hn hlt
    simp only at hlt
    rcases h.remembered n (hBA n hn hlt) (by omega) with hr | hf
    · exact .inl ((hret n).mpr ⟨hr, hlt⟩)
    · exact .inr hf

/-- The arrival right above the watermark: everything up to the new watermark is accounted for,
and the next hole is dated now. -/
theorem tracks_advance (h : Tracks A st) (hnow : now ≠ 0) (hw : ord = st.w + 1) :
    Tracks (fun n => A n ∨ n = ord) (advance { st with hi := max st.hi ord } ord now) ∧
      ord ≤ (advance { st with hi := max st.hi ord } ord now).w ∧
      (st.saturated = false → ∀ n, ord < n →
        n ≤ (advance { st with hi := max st.hi ord } ord now).w → A n) ∧
      ((advance { st with hi := max st.hi ord } ord now).above ≠ none →
        (advance { st with hi := max st.hi ord } ord now).holeSince = now) := by
  have hle := h.w_le_hi
  have hhi : (fun n => A n ∨ n = ord) (max st.hi ord) := by
    rcases le_total st.hi ord with hle | hle
    · exact .inr (max_eq_right hle)
    · exact .inl (by rw [max_eq_left hle]; exact h.hi_arrived)
  have hlehi : ∀ n, A n ∨ n = ord → n ≤ max st.hi ord := by
    rintro n (hn | rfl)
    · exact (h.le_hi n hn).trans (le_max_left _ _)
    · exact le_max_right _ _
  cases ha : st.above with
  | none =>
    obtain ⟨hwhi, hr, hs, h₀⟩ := h.clean ha
    have hmax : max st.hi ord = ord := by omega
    have hf := h.floor_eq_top hs
    have hnone : ∀ n, ¬ (n ∈ (none : Option (Finset ℕ)).getD ∅ ∨ Covers [] n) := by simp
    simp only [advance]
    refine ⟨⟨⟨hmax.ge, by simp, ?_, ?_, ?_, by simp, ?_, h.saturated_iff⟩, ?_, ?_, hhi, hlehi,
      ?_, ?_⟩, le_rfl, fun _ n h₁ h₂ => by omega, fun hne => absurd rfl hne⟩
    · simpa [ha] using h.aboveMax_eq
    · simp only [hr]; exact canonical_nil
    · simp [hr]
    · intro n hn
      simp only [Retained, hr] at hn
      exact absurd hn (hnone n)
    · exact fun _ => ⟨hmax.symm, hr, hs, h₀⟩
    · exact fun hne => absurd rfl hne
    · intro n hn
      simp only [Retained, hr] at hn
      exact absurd hn (hnone n)
    · intro n hn hlt
      have := hlehi n hn
      simp only at hlt
      omega
  | some above =>
    have hgt : ∀ n ∈ above, ord < n := by
      intro n hn
      have := h.within n (.inl (by simpa [ha] using hn))
      omega
    have hrgt : ∀ r ∈ st.aboveRanges, ord < r.1 := by
      intro r hr
      have := h.within r.1 (.inr ⟨r, hr, le_rfl, h.canonical.nonempty r hr⟩)
      omega
    have hdis : ∀ n ∈ above, ¬ Covers st.aboveRanges n := by
      have := h.disjoint
      simpa [ha] using this
    have hretA : ∀ n, n ∈ above ∨ Covers st.aboveRanges n → A n ∧ n ≤ st.hi := by
      intro n hn
      have hr : Retained st n := by simpa [Retained, ha] using hn
      exact ⟨h.arrived n hr, (h.within n hr).2⟩
    obtain ⟨d₁, d₂, d₃, d₄, d₅, d₆, d₇⟩ := drainAbove_spec hgt h.canonical hrgt hdis
    simp only [advance]
    generalize drainAbove ord above st.aboveRanges = drained at d₁ d₂ d₃ d₄ d₅ d₆ d₇
    obtain ⟨w', above', ranges'⟩ := drained
    simp only at d₁ d₂ d₃ d₄ d₅ d₆ d₇ ⊢
    have hret' : ∀ n, n ∈ above' ∨ Covers ranges' n ↔
        (n ∈ above ∨ Covers st.aboveRanges n) ∧ w' < n := by
      intro n
      rw [d₃, mem_filter, d₄, or_and_right]
    have hw'hi : w' ≤ max st.hi ord := by
      by_cases hlt : ord < w'
      · have := (hretA w' (d₂ w' hlt le_rfl)).2
        omega
      · omega
    by_cases hempty : above' = ∅ ∧ ranges' = []
    · rw [if_pos hempty]
      refine ⟨tracks_rebaseline hhi hlehi, ?_, ?_, fun hne => absurd rfl hne⟩
      · simp [rebaseline]
      · -- nothing was forgotten and nothing is left, so the drain reached the highest arrival
        intro hs n h₁ h₂
        simp only [rebaseline] at h₂
        have hhiw : st.hi ≤ w' := by
          by_contra hlt
          have hr := h.retained_of_lt hs h.hi_arrived (by omega)
          have := (hret' st.hi).mpr ⟨by simpa [Retained, ha] using hr, by omega⟩
          simp [hempty.1, hempty.2] at this
        exact (hretA n (d₂ n h₁ (by omega))).1
    · rw [if_neg hempty]
      refine ⟨tracks_raise h hnow hhi hlehi (fun n => .inl) ?_ (by omega) hw'hi
        (by rw [ha]; exact d₃) d₄ d₅ ?_ hempty, d₁, ?_, fun _ => rfl⟩
      · rintro n (hn | hn) hlt
        · exact hn
        · omega
      · rintro (hn | hn)
        · exact d₆ (by simpa [ha] using hn)
        · exact d₇ hn
      · intro _ n h₁ h₂
        exact (hretA n (d₂ n h₁ h₂)).1

/-! ## One arrival -/

/-- One arrival folded into a tracker. What it passes over arrived, unless something was
forgotten, and the hole is dated from when it became the blocking one. -/
theorem record_spec (ord : ℕ) (h : Tracks A st) (hnow : now ≠ 0) :
    Tracks (fun n => A n ∨ n = ord) (st.record ord now) ∧ st.w ≤ (st.record ord now).w ∧
      (st.saturated = false → ∀ n, st.w < n → n ≤ (st.record ord now).w → A n ∨ n = ord) ∧
      (st.record ord now).holeSince =
        if (st.record ord now).blocking = none then 0
        else if (st.record ord now).blocking = st.blocking then st.holeSince else now := by
  have hle := h.w_le_hi
  rcases Nat.lt_trichotomy ord (st.w + 1) with hlow | hnext | hhigh
  · have hst : st.record ord now = st := by
      have hmax : max st.hi ord = st.hi := by omega
      simp only [record, hmax]
      rw [if_pos (by omega)]
    rw [hst]
    refine ⟨⟨h.toBounded, h.clean, h.opened, .inl h.hi_arrived, ?_,
      fun n hn => .inl (h.arrived n hn), ?_⟩, le_rfl, fun _ n h₁ h₂ => by omega, ?_⟩
    · rintro n (hn | rfl)
      · exact h.le_hi n hn
      · omega
    · rintro n (hn | rfl) hlt
      · exact h.remembered n hn hlt
      · omega
    · by_cases hb : st.blocking = none
      · rw [if_pos hb]
        exact h.holeSince_eq_zero_iff.mpr hb
      · rw [if_neg hb, if_pos rfl]
  · have hst : st.record ord now = advance { st with hi := max st.hi ord } ord now := by
      simp only [record]
      rw [if_neg (by omega), if_pos hnext]
    obtain ⟨ht, hw, hacc, hdate⟩ := tracks_advance h hnow hnext
    rw [hst]
    refine ⟨ht, by omega, ?_, ?_⟩
    · intro hs n h₁ h₂
      by_cases hn : n = ord
      · exact .inr hn
      · exact .inl (hacc hs n (by omega) h₂)
    · generalize advance { st with hi := max st.hi ord } ord now = st' at ht hw hacc hdate
      by_cases hb : st'.blocking = none
      · rw [if_pos hb]
        exact ht.holeSince_eq_zero_iff.mpr hb
      · have hmoved : st'.blocking ≠ st.blocking := by
          intro heq
          unfold blocking at heq hb
          by_cases h₁ : st'.w < st'.hi
          · by_cases h₂ : st.w < st.hi
            · rw [if_pos h₁, if_pos h₂, some.injEq] at heq
              omega
            · rw [if_pos h₁, if_neg h₂] at heq
              cases heq
          · exact hb (if_neg h₁)
        rw [if_neg hb, if_neg hmoved]
        exact hdate fun hn => hb (ht.blocking_eq_none_iff.mpr hn)
  · have hst : st.record ord now = buffer { st with hi := max st.hi ord } ord now := by
      simp only [record]
      rw [if_neg (by omega), if_neg (by omega)]
    obtain ⟨ht, hw, halloc, hdate⟩ := tracks_buffer h hnow hhigh
    rw [hst]
    generalize buffer { st with hi := max st.hi ord } ord now = st' at ht hw halloc hdate
    have hb : st'.blocking ≠ none := fun hb => halloc (ht.blocking_eq_none_iff.mp hb)
    refine ⟨ht, hw.ge, fun _ n h₁ h₂ => by omega, ?_⟩
    rw [if_neg hb, hdate]
    by_cases hn : st.above = none
    · have hnb := h.blocking_eq_none_iff.mpr hn
      rw [if_pos hn, if_neg (by rw [hnb]; exact hb)]
    · have hopen : st.blocking ≠ none := fun hb => hn (h.blocking_eq_none_iff.mp hb)
      have hsame : st'.blocking = st.blocking := by
        unfold blocking at hb hopen ⊢
        by_cases h₁ : st'.w < st'.hi
        · by_cases h₂ : st.w < st.hi
          · rw [if_pos h₁, if_pos h₂, hw]
          · exact absurd (if_neg h₂) hopen
        · exact absurd (if_neg h₁) hb
      rw [if_neg hn, if_pos hsame]

/-! ## One drain -/

/-- What a drain that consumes the blocking hole reports and leaves. -/
structure Taken (A : ℕ → Prop) (st : OriginStream) (now : ℚ)
    (out : OriginStream × Option LostRange) : Prop where
  /-- The tracker still tracks the same arrivals. -/
  tracks : Tracks A out.1
  /-- The watermark only rises. -/
  w_le : st.w ≤ out.1.w
  /-- The report is the hole at the old watermark; it names no arrival, and the new watermark
  is past it. -/
  sound : ∀ lost, out.2 = some lost → lost.first = st.w + 1 ∧ lost.first ≤ lost.last ∧
    lost.count = lost.last - lost.first + 1 ∧ lost.last ≤ out.1.w ∧
    ∀ n, lost.first ≤ n → n ≤ lost.last → ¬ A n
  /-- While nothing was forgotten, what the watermark passes over arrived or is reported. -/
  accounted : st.saturated = false → ∀ n, st.w < n → n ≤ out.1.w →
    A n ∨ ∃ lost, out.2 = some lost ∧ lost.first ≤ n ∧ n ≤ lost.last
  /-- A drain forgets nothing. -/
  saturated : st.saturated = false → out.1.saturated = false
  /-- The next hole is dated now. -/
  dated : out.1.blocking ≠ none → out.1.blocking ≠ st.blocking ∧ out.1.holeSince = now
  /-- While nothing was forgotten, the memory shrinks. -/
  held_lt : st.saturated = false → out.1.held < st.held

theorem blocking_rebaseline (st : OriginStream) : st.rebaseline.blocking = none := by
  simp [blocking, rebaseline]

/-- The saturated report stays below every arrival that is retained or was forgotten. -/
theorem takeSaturated_spec (h : Tracks A st) (hs : st.saturated = true) :
    Taken A st now st.takeSaturated := by
  have hne : st.above ≠ none := fun hn => by
    have := (h.clean hn).2.2.1
    rw [hs] at this
    cases this
  have hle := h.w_le_hi
  simp only [takeSaturated]
  generalize hlow : (st.above.getD ∅).min = lowestAbove
  generalize hran : (st.aboveRanges.head?.map Prod.fst).elim (⊤ : WithTop ℕ) (↑) = lowestRanged
  have hretained : ∀ n, Retained st n →
      min (min lowestAbove lowestRanged) st.forgottenFloor ≤ (n : WithTop ℕ) := by
    rintro n (hn | ⟨r, hr, hn⟩)
    · rw [← hlow]
      exact (min_le_left _ _).trans ((min_le_left _ _).trans (min_le hn))
    · refine (min_le_left _ _).trans ((min_le_right _ _).trans ?_)
      rw [← hran]
      have hcan := h.canonical
      cases hrs : st.aboveRanges with
      | nil => simp [hrs] at hr
      | cons q qs =>
        rw [hrs] at hr hcan
        obtain ⟨hq, hlt, -⟩ := canonical_cons.mp hcan
        have hle : q.1 ≤ n := by
          rcases List.mem_cons.mp hr with rfl | hr
          · exact hn.1
          · have := hlt r hr
            omega
        exact WithTop.coe_le_coe.mpr hle
  have hclear : ∀ n, A n → st.w < n →
      min (min lowestAbove lowestRanged) st.forgottenFloor ≤ (n : WithTop ℕ) := by
    intro n hn hw
    rcases h.remembered n hn hw with hr | hf
    · exact hretained n hr
    · exact (min_le_right _ _).trans hf
  obtain ⟨m, hm⟩ := (h.opened hne).2
  have hmle := hretained m hm
  have hmhi := (h.within m hm).2
  generalize min (min lowestAbove lowestRanged) st.forgottenFloor = boundary at hclear hmle ⊢
  obtain ⟨b, rfl⟩ := WithTop.ne_top_iff_exists.mp (ne_top_of_le_ne_top WithTop.coe_ne_top hmle)
  rw [Nat.cast_withTop, WithTop.coe_le_coe] at hmle
  rw [WithTop.untopD_coe]
  refine ⟨tracks_rebaseline h.hi_arrived h.le_hi, hle, ?_, ?_, ?_, ?_, ?_⟩
  · intro lost hlost
    by_cases hwb : st.w + 1 ≤ b - 1
    · simp only [if_pos hwb] at hlost
      cases hlost
      refine ⟨rfl, hwb, rfl, ?_, ?_⟩
      · simp only [rebaseline]
        omega
      · intro n h₁ h₂ hn
        have hbn := hclear n hn (by simp only at h₁; omega)
        rw [Nat.cast_withTop, WithTop.coe_le_coe] at hbn
        simp only at h₁ h₂
        omega
    · simp only [if_neg hwb] at hlost
      cases hlost
  · intro hf
    rw [hs] at hf
    cases hf
  · exact fun _ => rfl
  · exact fun hb => absurd (blocking_rebaseline st) hb
  · intro hf
    rw [hs] at hf
    cases hf

/-- The staged report names exactly the hole at the watermark, and consumes the first run. -/
theorem takeFirstHole_spec (h : Tracks A st) (hs : st.saturated = false) (hopen : st.above ≠ none)
    (hnow : now ≠ 0) : Taken A st now (st.takeFirstHole now) := by
  have hle := h.w_le_hi
  obtain ⟨a, b, hrun, hab, hin, hlow, hstop₁, hstop₂⟩ :=
    firstRun_spec h.canonical h.disjoint (h.opened hopen).2
  have hw : st.w + 1 < a := (h.within a (hin a le_rfl hab)).1
  have hbhi : b ≤ st.hi := (h.within b (hin b hab le_rfl)).2
  have hmissing : ∀ n, st.w + 1 ≤ n → n ≤ a - 1 → ¬ A n := by
    intro n h₁ h₂ hn
    have := hlow n (h.retained_of_lt hs hn (by omega))
    omega
  have hcov := covers_dropWhile h.canonical hstop₂
  have habove : ((st.above.getD ∅).filter fun s => ¬ s ≤ b) = (st.above.getD ∅).filter (b < ·) := by
    refine filter_congr fun n _ => ?_
    exact not_le
  have hsuffix : (st.aboveRanges.dropWhile fun r => r.2 ≤ b) <:+ st.aboveRanges :=
    List.dropWhile_suffix _
  have hheld : ((st.above.getD ∅).filter fun s => ¬ s ≤ b).card +
      (st.aboveRanges.dropWhile fun r => r.2 ≤ b).length < st.held := by
    have h₁ := card_filter_le (st.above.getD ∅) (fun s => ¬ s ≤ b)
    have h₂ := hsuffix.length_le
    unfold held
    rcases hin a le_rfl hab with ha | ha
    · have : ((st.above.getD ∅).filter fun s => ¬ s ≤ b).card < (st.above.getD ∅).card := by
        refine card_lt_card (filter_ssubset.mpr ⟨a, ha, ?_⟩)
        simpa using hab
      omega
    · have : (st.aboveRanges.dropWhile fun r => r.2 ≤ b).length ≠ st.aboveRanges.length := by
        intro hlen
        rw [hsuffix.eq_of_length hlen] at hcov
        have := ((hcov a).mp ha).2
        omega
      omega
  unfold takeFirstHole
  simp only [hrun]
  have hreport : ∀ w', b ≤ w' → ∀ lost, some (⟨st.w + 1, a - 1, a - 1 - st.w⟩ : LostRange) =
      some lost → lost.first = st.w + 1 ∧ lost.first ≤ lost.last ∧
        lost.count = lost.last - lost.first + 1 ∧ lost.last ≤ w' ∧
        ∀ n, lost.first ≤ n → n ≤ lost.last → ¬ A n := by
    intro w' hw' lost hlost
    cases hlost
    refine ⟨rfl, ?_, ?_, ?_, hmissing⟩ <;> simp only <;> omega
  have haccounted : ∀ n, st.w < n → n ≤ b → A n ∨
      ∃ lost, some (⟨st.w + 1, a - 1, a - 1 - st.w⟩ : LostRange) = some lost ∧
        lost.first ≤ n ∧ n ≤ lost.last := by
    intro n h₁ h₂
    by_cases hna : n < a
    · exact .inr ⟨_, rfl, h₁, by simp only; omega⟩
    · exact .inl (h.arrived n (hin n (by omega) h₂))
  by_cases hempty : ((st.above.getD ∅).filter fun s => ¬ s ≤ b) = ∅ ∧
      (st.aboveRanges.dropWhile fun r => r.2 ≤ b) = []
  · rw [if_pos hempty]
    -- nothing is left above the run, so it ends at the highest arrival
    have hbeq : st.hi ≤ b := by
      by_contra hlt
      rcases h.retained_of_lt hs h.hi_arrived (by omega) with hr | hr
      · have : st.hi ∈ (st.above.getD ∅).filter fun s => ¬ s ≤ b :=
          mem_filter.mpr ⟨hr, hlt⟩
        rw [hempty.1] at this
        exact absurd this (notMem_empty _)
      · have := (hcov st.hi).mpr ⟨hr, by omega⟩
        simp [hempty.2] at this
    refine ⟨tracks_rebaseline h.hi_arrived h.le_hi, hle, hreport _ (by exact hbhi), ?_,
      fun _ => rfl, fun hb => absurd (blocking_rebaseline st) hb, ?_⟩
    · intro _ n h₁ h₂
      simp only [rebaseline] at h₂
      exact haccounted n h₁ (by omega)
    · intro _
      simp only [held, rebaseline, getD_none, card_empty, List.length_nil]
      unfold held at hheld
      omega
  · rw [if_neg hempty]
    have hmap : (st.above.map fun _ => (st.above.getD ∅).filter fun s => ¬ s ≤ b) =
        some ((st.above.getD ∅).filter fun s => ¬ s ≤ b) := by
      cases ha : st.above with
      | none => exact absurd ha hopen
      | some above => rfl
    rw [hmap]
    refine ⟨tracks_raise h hnow h.hi_arrived h.le_hi (fun _ hn => hn) (fun _ hn _ => hn)
      (by omega) hbhi habove hcov hsuffix (by rintro (hr | hr); exacts [hstop₁ hr, hstop₂ hr])
      hempty, ?_, hreport b le_rfl, ?_, fun _ => hs, ?_, ?_⟩
    · simp only
      omega
    · exact fun _ n h₁ h₂ => haccounted n h₁ h₂
    · refine fun hb => ⟨?_, rfl⟩
      have hlt : b < st.hi := by
        by_contra hge
        exact hb (if_neg hge)
      have h₁ : st.w < st.hi := by omega
      simp only [blocking, if_pos hlt, if_pos h₁, ne_eq, some.injEq]
      omega
    · exact fun _ => by simpa only [held, getD_some] using hheld

/-- One drain of one stream. A hole that has not outlived the grace is left alone. -/
theorem takeConfirmed_spec (h : Tracks A st) (hnow : now ≠ 0) (grace : ℚ) :
    (st.takeConfirmed now grace = (st, none) ∧
        (st.blocking = none ∨ now - st.holeSince < grace)) ∨
      st.blocking ≠ none ∧ grace ≤ now - st.holeSince ∧
        Taken A st now (st.takeConfirmed now grace) := by
  unfold takeConfirmed
  by_cases hyoung : st.holeSince = 0 ∨ now - st.holeSince < grace
  · rw [if_pos hyoung]
    exact .inl ⟨rfl, hyoung.imp_left h.holeSince_eq_zero_iff.mp⟩
  · rw [if_neg hyoung]
    obtain ⟨h₀, hold⟩ := not_or.mp hyoung
    have hb : st.blocking ≠ none := fun hb => h₀ (h.holeSince_eq_zero_iff.mpr hb)
    have hopen : st.above ≠ none := fun hn => hb (h.blocking_eq_none_iff.mpr hn)
    refine .inr ⟨hb, not_lt.mp hold, ?_⟩
    by_cases hs : st.saturated = true
    · rw [if_pos hs]
      exact takeSaturated_spec h hs
    · rw [if_neg hs]
      exact takeFirstHole_spec h (by simpa using hs) hopen hnow

end OriginStream
end AdapterWs.Relay
