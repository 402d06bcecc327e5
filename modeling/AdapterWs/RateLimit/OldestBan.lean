import AdapterWs.RateLimit.Guarantee

/-!
# The oldest ban

An eviction walks a sample of the buckets with an iterator that is kept across calls, and takes one
that is not banned, or else the one banned last. Two entries of a sample are never the same, so the
ban that was placed longest ago is never the last of its sample.
-/

namespace AdapterWs.RateLimit

open Binary64 JsString Option RateLimiter CursorMap

variable {o : RateLimitOptions} {l l' : RateLimiter} {t cost : ℚ} {key : JsString}
  {entries : List (JsString × Bucket)}

/-! ## The sample -/

/-- An entry that nothing in the rest of a sample can beat. -/
def decisive (o : RateLimitOptions) (t : ℚ) (_ : JsString) (b : Bucket) : Bool :=
  !decide (t < b.bannedUntil) && decide (b.activity o t = 0) && decide (b.resetAt ≤ t)

/-- The candidates after another entry. -/
def choose (o : RateLimitOptions) (t : ℚ) (sample : Sample) (entry : JsString × Bucket) : Sample :=
  if t < entry.2.bannedUntil then
    if sample.bannedVictim.all fun v => decide (v.2 < entry.2.banSeq) then
      { sample with bannedVictim := some (entry.1, entry.2.banSeq) }
    else sample
  else
    if sample.victim.all fun v => decide (entry.2.activity o t < v.2.1) ||
        (decide (entry.2.activity o t = v.2.1) && decide (entry.2.resetAt ≤ t) && !v.2.2) then
      { sample with
        victim := some (entry.1, entry.2.activity o t, decide (entry.2.resetAt ≤ t)) }
    else sample

/-- The entries the sample of an eviction comes to. -/
def RateLimiter.walked (o : RateLimitOptions) (l : RateLimiter) (t : ℚ) :
    List (JsString × Bucket) :=
  (l.buckets.walk (decisive o t) o.evictionSample (o.evictionSample + 3) 0 0 l.evictCursor).1

theorem evictLoop_eq (fuel sampled wrapped : ℕ) (sample : Sample) (l : RateLimiter) :
    evictLoop o t fuel sampled wrapped sample l =
      let walk := l.buckets.walk (decisive o t) o.evictionSample fuel sampled wrapped l.evictCursor
      { l with evictCursor := walk.2 }.takeVictim (walk.1.foldl (choose o t) sample) := by
  induction fuel generalizing sampled wrapped sample l with
  | zero => rfl
  | succ fuel ih =>
    rw [evictLoop, walk]
    by_cases hgo : sampled < o.evictionSample ∧ wrapped < 2
    · rw [if_pos hgo, if_pos hgo]
      simp only
      cases hnext : l.buckets.next (l.evictCursor.getD 0) with
      | none => exact ih _ _ _ _
      | some step =>
        obtain ⟨k, b, cursor⟩ := step
        simp only
        by_cases hbanned : t < b.bannedUntil
        · have hstop : decisive o t k b = false := by simp [decisive, hbanned]
          rw [if_pos hbanned, hstop, ih]
          simp [choose, hbanned]
        · rw [if_neg hbanned]
          by_cases hfree : b.activity o t = 0 ∧ decide (b.resetAt ≤ t) = true
          · have hstop : decisive o t k b = true := by
              simpa [decisive, not_lt.mp hbanned] using hfree
            rw [if_pos hfree, hstop, if_pos rfl]
            simp [choose, hbanned]
          · have hstop : decisive o t k b = false := by
              rw [← Bool.not_eq_true]
              simpa [decisive, hbanned] using hfree
            rw [if_neg hfree, hstop, ih]
            simp [choose, hbanned]
    · rw [if_neg hgo, if_neg hgo]
      rfl

/-- The candidates of some entries. -/
structure Chosen (t : ℚ) (entries : List (JsString × Bucket)) (sample : Sample) : Prop where
  victim : ∀ v, sample.victim = some v →
    ∃ entry ∈ entries, entry.1 = v.1 ∧ ¬t < entry.2.bannedUntil
  none_of_victim : sample.victim = none → ∀ entry ∈ entries, t < entry.2.bannedUntil
  bannedVictim : ∀ v, sample.bannedVictim = some v →
    ∃ entry ∈ entries, entry.1 = v.1 ∧ entry.2.banSeq = v.2 ∧ t < entry.2.bannedUntil
  last : ∀ entry ∈ entries, t < entry.2.bannedUntil →
    ∃ v, sample.bannedVictim = some v ∧ entry.2.banSeq ≤ v.2

theorem chosen_nil (t : ℚ) : Chosen t [] ⟨none, none⟩ := ⟨nofun, nofun, nofun, nofun⟩

theorem Chosen.weaken {p : JsString × Bucket → Prop} (entry : JsString × Bucket)
    (h : ∃ e ∈ entries, p e) : ∃ e ∈ entries ++ [entry], p e := by
  obtain ⟨e, he, hp⟩ := h
  exact ⟨e, List.mem_append_left _ he, hp⟩

theorem Chosen.choose {sample : Sample} (h : Chosen t entries sample) (entry : JsString × Bucket) :
    Chosen t (entries ++ [entry]) (choose o t sample entry) := by
  have hself : entry ∈ entries ++ [entry] := List.mem_concat_self
  have hcases : ∀ e ∈ entries ++ [entry], e ∈ entries ∨ e = entry := fun e he =>
    (List.mem_append.mp he).imp_right List.mem_singleton.mp
  rw [RateLimit.choose]
  by_cases hbanned : t < entry.2.bannedUntil
  · rw [if_pos hbanned]
    have hvictim := fun v hv => Chosen.weaken entry (h.victim v hv)
    have hnone : sample.victim = none → ∀ e ∈ entries ++ [entry], t < e.2.bannedUntil := by
      intro hnone e he
      rcases hcases e he with he | rfl
      · exact h.none_of_victim hnone e he
      · exact hbanned
    split_ifs with hlast
    · refine ⟨hvictim, hnone, fun v hv => ?_, fun e he hban => ⟨_, rfl, ?_⟩⟩
      · cases hv
        exact ⟨entry, hself, rfl, rfl, hbanned⟩
      · rcases hcases e he with he | rfl
        · obtain ⟨v, hv, hle⟩ := h.last e he hban
          rw [hv, all_some, decide_eq_true_eq] at hlast
          exact hle.trans hlast.le
        · exact le_rfl
    · refine ⟨hvictim, hnone, fun v hv => Chosen.weaken entry (h.bannedVictim v hv),
        fun e he hban => ?_⟩
      rcases hcases e he with he | rfl
      · exact h.last e he hban
      · cases hv : sample.bannedVictim with
        | none => simp [hv] at hlast
        | some v =>
          rw [hv, all_some, decide_eq_true_eq, not_lt] at hlast
          exact ⟨v, rfl, hlast⟩
  · rw [if_neg hbanned]
    have hbannedVictim := fun v hv => Chosen.weaken entry (h.bannedVictim v hv)
    have hlast : ∀ e ∈ entries ++ [entry], t < e.2.bannedUntil →
        ∃ v, sample.bannedVictim = some v ∧ e.2.banSeq ≤ v.2 := by
      intro e he hban
      rcases hcases e he with he | rfl
      · exact h.last e he hban
      · exact absurd hban hbanned
    split_ifs with hbetter
    · refine ⟨fun v hv => ?_, nofun, hbannedVictim, hlast⟩
      cases hv
      exact ⟨entry, hself, rfl, hbanned⟩
    · refine ⟨fun v hv => Chosen.weaken entry (h.victim v hv), fun hnone => ?_, hbannedVictim,
        hlast⟩
      simp [hnone] at hbetter

theorem chosen_foldl {sample : Sample} (h : Chosen t entries sample)
    (more : List (JsString × Bucket)) :
    Chosen t (entries ++ more) (more.foldl (choose o t) sample) := by
  induction more generalizing entries sample with
  | nil => rwa [List.append_nil]
  | cons entry more ih =>
    rw [List.append_cons, List.foldl_cons]
    exact ih (h.choose entry)

theorem evictOne_eq (o : RateLimitOptions) (l : RateLimiter) (t : ℚ) :
    ∃ cursor sample, l.evictOne o t = { l with evictCursor := cursor }.takeVictim sample ∧
      Chosen t (l.walked o t) sample := by
  rw [evictOne, evictLoop_eq]
  exact ⟨_, _, rfl, chosen_foldl (chosen_nil t) _⟩

/-! ## One eviction -/

/-- What an eviction does to a full map: one entry goes, an unbanned one if the sample has any, and
not the one whose ban was placed before those of all others. -/
def SafeEviction (o : RateLimitOptions) (l : RateLimiter) (t : ℚ) : Prop :=
  o.maxBuckets ≤ l.buckets.size →
    ∃ evicted b, (l.evictOne o t).1 = some evicted ∧ l.buckets.get evicted.key = some b ∧
      (l.evictOne o t).2.buckets = l.buckets.delete evicted.key ∧
      (l.evictOne o t).2.buckets.size + 1 = l.buckets.size ∧
      (evicted.banned = true ↔ t < b.bannedUntil) ∧
      ((∃ entry ∈ l.walked o t, ¬t < entry.2.bannedUntil) → ¬t < b.bannedUntil) ∧
      ∀ oldest b₀, l.buckets.get oldest = some b₀ → t < b₀.bannedUntil →
        (∀ k b, l.buckets.get k = some b → t < b.bannedUntil → b₀.banSeq ≤ b.banSeq) →
        evicted.key ≠ oldest

/-- The map is within its cap, and no two bans have the same number. -/
structure Sound (o : RateLimitOptions) (l : RateLimiter) : Prop where
  ordered : l.buckets.Ordered
  size_le : l.buckets.size ≤ o.maxBuckets
  numbered : ∀ k b, l.buckets.get k = some b → b.banSeq ≤ l.banSeq
  distinct : ∀ k k' b b', l.buckets.get k = some b → l.buckets.get k' = some b' →
    b.banSeq = b'.banSeq → b.banSeq = 0 ∨ k = k'
  unbanned : ∀ k b, l.buckets.get k = some b → b.banSeq = 0 → b.bannedUntil = 0

theorem safeEviction_of_sound (hbuckets : 2 ≤ o.maxBuckets) (hsample : 2 ≤ o.evictionSample)
    (h : Sound o l) (ht : 0 ≤ t) : SafeEviction o l t := by
  intro hfull
  obtain ⟨cursor, sample, heq, hchosen⟩ := evictOne_eq o l t
  have hget : ∀ entry ∈ l.walked o t, l.buckets.get entry.1 = some entry.2 :=
    fun entry hentry => get_of_mem_walk hentry
  rw [heq]
  cases hvictim : sample.victim with
  | some v =>
    obtain ⟨⟨k, b⟩, hentry, rfl, hfree⟩ := hchosen.victim v hvictim
    have hb : l.buckets.get v.1 = some b := hget _ hentry
    have hdelete := size_delete hb
    rw [takeVictim, hvictim]
    refine ⟨⟨v.1, false⟩, b, rfl, hb, rfl, hdelete, by simpa using hfree, fun _ => hfree, ?_⟩
    rintro oldest b₀ holdest hban - rfl
    cases hb.symm.trans holdest
    exact hfree hban
  | none =>
    -- every entry of the sample is banned, and there are two
    have hall := hchosen.none_of_victim hvictim
    have htwo : ∃ entry ∈ l.walked o t, ∃ entry' ∈ l.walked o t, entry'.1 ≠ entry.1 := by
      have hwalk : l.walked o t = (l.buckets.walk (decisive o t) o.evictionSample
          (o.evictionSample - 1 + 4) 0 0 l.evictCursor).1 := by
        rw [walked, show o.evictionSample + 3 = o.evictionSample - 1 + 4 by omega]
      rw [hwalk] at hall ⊢
      rcases exists_ne_of_walk (decisive o t) (o.evictionSample - 1)
        h.ordered (by omega) hsample l.evictCursor with ⟨entry, hentry, hstop⟩ | htwo
      · simp [decisive, hall entry hentry] at hstop
      · exact htwo
    obtain ⟨first, hfirst, second, hsecond, hne⟩ := htwo
    obtain ⟨v, hv, -⟩ := hchosen.last first hfirst (hall first hfirst)
    obtain ⟨⟨k, b⟩, hentry, rfl, hseq, hban⟩ := hchosen.bannedVictim v hv
    have hb : l.buckets.get v.1 = some b := hget _ hentry
    have hdelete := size_delete hb
    have hlast : ∀ entry ∈ l.walked o t, entry.2.banSeq ≤ b.banSeq := by
      intro entry hmem
      obtain ⟨v', hv', hle⟩ := hchosen.last entry hmem (hall entry hmem)
      cases hv.symm.trans hv'
      exact hseq ▸ hle
    rw [takeVictim, hvictim, hv]
    refine ⟨⟨v.1, true⟩, b, rfl, hb, rfl, hdelete, by simpa using hban, ?_, ?_⟩
    · rintro ⟨entry, hmem, hfree⟩
      exact absurd (hall entry hmem) hfree
    · rintro oldest b₀ holdest - hsmallest rfl
      cases hb.symm.trans holdest
      -- one of the two has another key, and its ban is neither older nor newer
      obtain ⟨other, hother, hkey⟩ : ∃ other ∈ l.walked o t, other.1 ≠ v.1 := by
        by_cases heq : first.1 = v.1
        · exact ⟨second, hsecond, fun h => hne (h.trans heq.symm)⟩
        · exact ⟨first, hfirst, heq⟩
      have hsame : other.2.banSeq = b.banSeq := le_antisymm (hlast other hother)
        (hsmallest other.1 other.2 (hget other hother) (hall other hother))
      rcases h.distinct _ _ _ _ (hget other hother) hb hsame with hzero | heq
      · have hover := h.unbanned _ _ (hget other hother) hzero
        exact absurd (hall other hother) (not_lt.mpr (hover ▸ ht))
      · exact hkey heq

/-! ## The invariant -/

theorem sound_create (o : RateLimitOptions) : Sound o .create :=
  ⟨ordered_empty, Nat.zero_le _, nofun, nofun, nofun⟩

theorem Sound.drop (h : Sound o l) (hordered : l'.buckets.Ordered)
    (hsize : l'.buckets.size ≤ l.buckets.size) (hseq : l'.banSeq = l.banSeq)
    (hget : ∀ k b, l'.buckets.get k = some b → l.buckets.get k = some b) : Sound o l' :=
  ⟨hordered, hsize.trans h.size_le, fun k b hb => hseq ▸ h.numbered k b (hget k b hb),
    fun k k' b b' hb hb' => h.distinct k k' b b' (hget k b hb) (hget k' b' hb'),
    fun k b hb => h.unbanned k b (hget k b hb)⟩

theorem Sound.filter (h : Sound o l) (f : JsString → Bucket → Bool) (cursor : Option ℕ) :
    Sound o { l with buckets := l.buckets.filter f, evictCursor := cursor } := by
  refine h.drop (h.ordered.filter f) (size_filter_le f _) rfl fun k b hb => ?_
  rw [CursorMap.get_filter, filter_eq_some_iff] at hb
  exact hb.1

theorem Sound.cleanup (h : Sound o l) (t : ℚ) : Sound o (l.cleanup t) := by
  rw [RateLimiter.cleanup]
  split_ifs
  · exact h
  · exact h.filter _ _

theorem Sound.delete (h : Sound o l) (key : JsString) (cursor : Option ℕ) :
    Sound o { l with buckets := l.buckets.delete key, evictCursor := cursor } := by
  refine h.drop (h.ordered.delete key) (JsMap.size_delete_le _ _) rfl fun k b hb => ?_
  rw [get_delete] at hb
  split_ifs at hb
  exact hb

/-- A bucket is stored: with the number of its ban, without one, or with a new one. -/
theorem Sound.set (h : Sound o l) {b : Bucket} {seq : ℕ}
    (hroom : (l.buckets.get key).isSome = true ∨ l.buckets.size < o.maxBuckets)
    (hseq : l.banSeq ≤ seq) (hle : b.banSeq ≤ seq)
    (hnew : b.banSeq = 0 ∨ l.banSeq < b.banSeq ∨
      ∃ b₀, l.buckets.get key = some b₀ ∧ b₀.banSeq = b.banSeq)
    (hunbanned : b.banSeq = 0 → b.bannedUntil = 0) :
    Sound o { l with buckets := l.buckets.set key b, banSeq := seq } := by
  have hother : ∀ k b', l.buckets.get k = some b' → b.banSeq = b'.banSeq →
      b.banSeq = 0 ∨ key = k := by
    intro k b' hb' heq
    rcases hnew with hzero | hlt | ⟨b₀, hb₀, hsame⟩
    · exact .inl hzero
    · have := h.numbered k b' hb'
      omega
    · rcases h.distinct key k b₀ b' hb₀ hb' (hsame.trans heq) with hzero | hkey
      · exact .inl (hsame ▸ hzero)
      · exact .inr hkey
  refine ⟨h.ordered.set key b, ?_, fun k b' hb' => ?_, fun k k' b₁ b₂ hb₁ hb₂ heq => ?_,
    fun k b' hb' => ?_⟩
  · rw [size_set]
    have hsize := h.size_le
    split_ifs with hsome
    · exact hsize
    · exact (hroom.resolve_left hsome)
  · rw [get_set] at hb'
    split_ifs at hb' with hk
    · exact some.inj hb' ▸ hle
    · exact (h.numbered k b' hb').trans hseq
  · rw [get_set] at hb₁ hb₂
    split_ifs at hb₁ hb₂ with hk hk' hk'
    · exact .inr (hk.symm.trans hk')
    · cases hb₁
      exact (hother k' b₂ hb₂ heq).imp_right fun h => hk.symm.trans h
    · cases hb₂
      exact (hother k b₁ hb₁ heq.symm).imp (fun h => heq.trans h) fun h => h.symm.trans hk'
    · exact h.distinct k k' b₁ b₂ hb₁ hb₂ heq
  · rw [get_set] at hb'
    split_ifs at hb' with hk
    · cases hb'
      exact hunbanned
    · exact h.unbanned k b' hb'

theorem banSeq_takeVictim (l : RateLimiter) (sample : Sample) :
    (l.takeVictim sample).2.banSeq = l.banSeq := by
  rw [takeVictim]
  split <;> rfl

theorem Sound.makeRoom (hbuckets : 2 ≤ o.maxBuckets) (hsample : 2 ≤ o.evictionSample)
    (h : Sound o l) (ht : 0 ≤ t) :
    Sound o (l.makeRoom o t).2 ∧ (l.makeRoom o t).2.buckets.size < o.maxBuckets ∧
      (l.makeRoom o t).2.banSeq = l.banSeq := by
  have hsize := h.size_le
  rw [RateLimiter.makeRoom]
  split_ifs with hfull
  · obtain ⟨evicted, b, -, -, hdelete, hone, -⟩ := safeEviction_of_sound hbuckets hsample h ht hfull
    obtain ⟨cursor, sample, heq, -⟩ := evictOne_eq o l t
    have hseq : (l.evictOne o t).2.banSeq = l.banSeq := by
      rw [heq, banSeq_takeVictim]
    refine ⟨?_, by omega, hseq⟩
    refine (h.delete evicted.key none).drop ?_ ?_ hseq fun k b hb => ?_
    · exact hdelete ▸ h.ordered.delete evicted.key
    · exact (congrArg size hdelete).le
    · exact hdelete ▸ hb
  · exact ⟨h, not_le.mp hfull, rfl⟩

/-- The bucket a call finds is one of the map, which is sound. -/
theorem Sound.bucketFor (hbuckets : 2 ≤ o.maxBuckets) (hsample : 2 ≤ o.evictionSample)
    (h : Sound o l) (ht : 0 ≤ t) (key : JsString) (p : ℚ) :
    Sound o (l.bucketFor o key p t).2.2 ∧
      (l.bucketFor o key p t).2.2.buckets.get key = some (l.bucketFor o key p t).2.1 := by
  rw [RateLimiter.bucketFor]
  cases hget : l.buckets.get key with
  | some b => exact ⟨h, hget⟩
  | none =>
    obtain ⟨hroom, hsize, -⟩ := h.makeRoom hbuckets hsample ht
    refine ⟨hroom.set (.inr hsize) le_rfl (Nat.zero_le _) (.inl rfl) fun _ => rfl, ?_⟩
    exact get_set_self _ _ _

theorem banSeq_consume (b : Bucket) (cost t : ℚ) (banSeq : ℕ) :
    ((b.consume o cost t banSeq).placed.isSome = true ∧
        (b.consume o cost t banSeq).bucket.banSeq = banSeq + 1) ∨
      ((b.consume o cost t banSeq).placed.isSome = false ∧
        (b.consume o cost t banSeq).bucket.banSeq = b.banSeq ∧
        (b.consume o cost t banSeq).bucket.bannedUntil = b.bannedUntil) := by
  have hrefill : (b.refill o t).banSeq = b.banSeq := by
    rw [Bucket.refill]
    split_ifs <;> rfl
  simp only [Bucket.consume]
  split_ifs
  · exact .inr ⟨rfl, rfl, rfl⟩
  · exact .inr ⟨rfl, hrefill, bannedUntil_refill b⟩
  · exact .inl ⟨rfl, rfl⟩
  · exact .inr ⟨rfl, hrefill, bannedUntil_refill b⟩

theorem Sound.consume (hbuckets : 2 ≤ o.maxBuckets) (hsample : 2 ≤ o.evictionSample)
    (h : Sound o l) (ht : 0 ≤ t) (key : JsString) (cost : ℚ) :
    Sound o (l.consume o key cost t).2.2 := by
  obtain ⟨hfound, hget⟩ := (h.cleanup t).bucketFor hbuckets hsample ht key o.points
  rw [RateLimiter.consume]
  generalize (l.cleanup t).bucketFor o key o.points t = found at hfound hget
  simp only
  have hroom : (found.2.2.buckets.get key).isSome = true ∨
      found.2.2.buckets.size < o.maxBuckets := .inl (by rw [hget]; rfl)
  rcases banSeq_consume (o := o) found.2.1 cost t found.2.2.banSeq with
    ⟨hplaced, hseq⟩ | ⟨hplaced, hseq, huntil⟩
  · rw [hplaced, if_pos rfl]
    exact hfound.set hroom (Nat.le_succ _) hseq.le (.inr (.inl (hseq ▸ Nat.lt_succ_self _)))
      fun hzero => absurd (hseq.symm.trans hzero) (Nat.succ_ne_zero _)
  · rw [hplaced, if_neg Bool.false_ne_true]
    refine hfound.set hroom le_rfl (hseq ▸ hfound.numbered _ _ hget)
      (.inr (.inr ⟨_, hget, hseq.symm⟩)) fun hzero => ?_
    exact huntil.trans (hfound.unbanned _ _ hget (hseq ▸ hzero))

theorem Sound.ban (hbuckets : 2 ≤ o.maxBuckets) (hsample : 2 ≤ o.evictionSample)
    (h : Sound o l) (ht : 0 ≤ t) (key : JsString) (duration : Option ℚ) :
    Sound o (l.ban o key duration t).2 := by
  obtain ⟨hfound, hget⟩ := h.bucketFor hbuckets hsample ht key 0
  rw [RateLimiter.ban]
  generalize l.bucketFor o key 0 t = found at hfound hget
  exact hfound.set (.inl (by rw [hget]; rfl)) (Nat.le_succ _) le_rfl
    (.inr (.inl (Nat.lt_succ_self _))) fun hzero => absurd hzero (Nat.succ_ne_zero _)

theorem Sound.unban (h : Sound o l) (key : JsString) : Sound o (l.unban key) := by
  rw [RateLimiter.unban]
  cases hget : l.buckets.get key with
  | none => exact h
  | some b =>
    exact h.set (.inl (by rw [hget]; rfl)) le_rfl (h.numbered key b hget)
      (.inr (.inr ⟨b, hget, rfl⟩)) fun _ => rfl

theorem Sound.reset (h : Sound o l) (key : JsString) : Sound o (l.reset key) := by
  rw [RateLimiter.reset]
  cases l.buckets.get key with
  | none => exact h
  | some b => exact h.delete key none

/-! ## Runs -/

/-- One call, at any reading of the clock. A negative cost throws before anything happens. -/
def RateLimiter.call (o : RateLimitOptions) (l : RateLimiter) : RateLimitEvent → Option RateLimiter
  | .consume key cost t =>
    if 0 ≤ t ∧ 0 ≤ cost then some (l.consume o key cost t).2.2 else none
  | .ban key duration t => if 0 ≤ t then some (l.ban o key duration t).2 else none
  | .unban key => some (l.unban key)
  | .reset key => some (l.reset key)
  | .clear tenantId => some (l.clear o tenantId)

/-- One limiter. -/
def limiterMachine (o : RateLimitOptions) : Machine RateLimiter RateLimitEvent where
  init := .create
  step l e := l.call o e

theorem sound_of_reaches (hbuckets : 2 ≤ o.maxBuckets) (hsample : 2 ≤ o.evictionSample)
    {es : List RateLimitEvent} (h : (limiterMachine o).Reaches es l) : Sound o l := by
  refine Machine.ReachesWhere.invariant (I := Sound o) (sound_create o) ?_ h
  intro l e l' hl _ hstep
  cases e with
  | consume key cost t =>
    simp only [limiterMachine, call, ite_none_right_eq_some] at hstep
    obtain ⟨⟨ht, -⟩, hstep⟩ := hstep
    exact some.inj hstep ▸ hl.consume hbuckets hsample ht key cost
  | ban key duration t =>
    simp only [limiterMachine, call, ite_none_right_eq_some] at hstep
    obtain ⟨ht, hstep⟩ := hstep
    exact some.inj hstep ▸ hl.ban hbuckets hsample ht key duration
  | unban key => exact some.inj hstep ▸ hl.unban key
  | reset key => exact some.inj hstep ▸ hl.reset key
  | clear tenantId => exact some.inj hstep ▸ hl.filter _ none

/-- In every state, whatever the iterator has come to, the map is within its cap, and an eviction
from a full map, for a ban or after the sweep of a call, never clears the oldest ban. -/
theorem oldestBan_of_reaches (o : RateLimitOptions) (hbuckets : 2 ≤ o.maxBuckets)
    (hsample : 2 ≤ o.evictionSample) {es : List RateLimitEvent} {l : RateLimiter}
    (h : (limiterMachine o).Reaches es l) :
    l.buckets.size ≤ o.maxBuckets ∧
      ∀ t, 0 ≤ t → SafeEviction o l t ∧ SafeEviction o (l.cleanup t) t := by
  have hsound := sound_of_reaches hbuckets hsample h
  exact ⟨hsound.size_le, fun t ht => ⟨safeEviction_of_sound hbuckets hsample hsound ht,
    safeEviction_of_sound hbuckets hsample (hsound.cleanup t) ht⟩⟩

theorem minute_nonneg : (0 : ℚ) ≤ 60000 := by norm_num

/-- Two buckets, samples of two, and bans for a call too many. -/
def crowdedOptions : RateLimitOptions :=
  ⟨1, 1000, 60000, 2, 2, false, Nat.one_pos, second_pos, minute_nonneg⟩

/-- Two keys are banned, and a third comes. -/
def crowdedRun : List RateLimitEvent :=
  [.ban (keyOf 0) none 0, .ban (keyOf 1) none 5, .consume (keyOf 2) 1 9, .ban (keyOf 3) none 10]

/-- The second and third ban make room for others, and the first stands. -/
theorem oldestBan_of_reaches_crowdedRun :
    ∃ l, (limiterMachine crowdedOptions).Reaches crowdedRun l ∧
      (l.buckets.get (keyOf 0)).isSome = true ∧ l.buckets.size = 2 ∧
      SafeEviction crowdedOptions l 11 := by
  obtain ⟨l, hl, hfirst, hsize⟩ : ∃ l, (limiterMachine crowdedOptions).Reaches crowdedRun l ∧
      (l.buckets.get (keyOf 0)).isSome = true ∧ l.buckets.size = 2 :=
    Machine.exists_of_exec (by decide +kernel)
  exact ⟨l, hl, hfirst, hsize,
    ((oldestBan_of_reaches crowdedOptions le_rfl le_rfl hl).2 11 (by norm_num)).1⟩

end AdapterWs.RateLimit
