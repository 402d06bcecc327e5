import AdapterWs.Relay.OriginStream

/-!
# Relay loss detection: what the bounded memory remembers

The specifications of the operations on the two bounded structures above a hole, each stated
once over the set of ordinals they hold: what the range memory keeps and forgets, how far a
drain moves the watermark, and which run the staged report consumes.
-/

namespace AdapterWs.Relay

open NatRange List

/-! ## The range memory -/

variable {ranges : List (ℕ × ℕ)}

theorem aboveRangesContain_iff (h : Canonical ranges) (ord : ℕ) :
    aboveRangesContain ranges ord = true ↔ Covers ranges ord := by
  induction ranges with
  | nil => simp [aboveRangesContain]
  | cons r ranges ih =>
    obtain ⟨lo, hi⟩ := r
    obtain ⟨hr, hlt, hrs⟩ := canonical_cons.mp h
    simp only at hr hlt
    rw [aboveRangesContain, covers_cons]
    by_cases h₁ : ord < lo
    · rw [if_pos h₁]
      have hnot : ¬ Covers ranges ord := by
        rintro ⟨q, hq, hlo, -⟩
        have := hlt q hq
        omega
      simp only [hnot, or_false]
      constructor
      · intro h; cases h
      · intro h; omega
    · by_cases h₂ : ord ≤ hi
      · rw [if_neg h₁, if_pos h₂]
        simp only [true_iff]
        exact .inl ⟨by omega, h₂⟩
      · rw [if_neg h₁, if_neg h₂, ih hrs]
        constructor
        · exact .inr
        · rintro (h | h)
          · exact absurd h.2 h₂
          · exact h

/-- Splitting a canonical list at an ordinal: the ranges before it end at least two below, and the
ranges from there on do not. -/
theorem le_of_mem_dropWhile (h : Canonical ranges) (ord : ℕ) :
    ∀ r ∈ ranges.dropWhile fun r => r.2 + 1 < ord, ord ≤ r.2 + 1 := by
  induction ranges with
  | nil => simp
  | cons r ranges ih =>
    obtain ⟨hr, hlt, hrs⟩ := canonical_cons.mp h
    by_cases hc : r.2 + 1 < ord
    · rw [dropWhile_cons_of_pos (by simpa using hc)]
      exact ih hrs
    · rw [dropWhile_cons_of_neg (by simpa using hc)]
      intro q hq
      rcases mem_cons.mp hq with rfl | hq
      · omega
      · have h₁ := hlt q hq
        have h₂ := hrs.nonempty q hq
        omega

variable {before : List (ℕ × ℕ)} {ord : ℕ}

theorem canonical_insert {rest : List (ℕ × ℕ)} (h : Canonical (before ++ rest))
    (hbefore : ∀ r ∈ before, r.2 + 1 < ord) (hrest : ∀ r ∈ rest, ord + 1 < r.1) :
    Canonical (before ++ (ord, ord) :: rest) := by
  obtain ⟨hcb, hcr, hcross⟩ := canonical_append.mp h
  refine canonical_append.mpr ⟨hcb, canonical_cons.mpr ⟨le_rfl, hrest, hcr⟩, ?_⟩
  intro r hrm q hq
  rcases mem_cons.mp hq with rfl | hq
  · exact hbefore r hrm
  · exact hcross r hrm q hq

theorem covers_insert {rest : List (ℕ × ℕ)} {n : ℕ} :
    Covers (before ++ (ord, ord) :: rest) n ↔ Covers (before ++ rest) n ∨ n = ord := by
  simp only [covers_append, covers_cons, ← le_antisymm_iff]
  rw [eq_comm (a := ord)]
  tauto

theorem canonical_join {tail : List (ℕ × ℕ)} {lo hi : ℕ}
    (h : Canonical (before ++ (lo, hi) :: tail)) (hbefore : ∀ r ∈ before, r.2 + 1 < ord) :
    Canonical (before ++ absorb (min lo ord) (max hi ord) tail) := by
  obtain ⟨hcb, hcr, hcross⟩ := canonical_append.mp h
  obtain ⟨hle, -, hct⟩ := canonical_cons.mp hcr
  obtain ⟨hca, hstart⟩ := canonical_absorb (show min lo ord ≤ max hi ord by simp only at hle; omega) hct
  refine canonical_append.mpr ⟨hcb, hca, fun r hrm q hq => ?_⟩
  have h₁ := hbefore r hrm
  have h₂ := hcross r hrm (lo, hi) (.head _)
  rcases hstart q hq with hs | hs
  · simp only at h₂
    omega
  · exact hcross r hrm q (.tail _ hs)

/-- An uncovered ordinal that touches a range sits just outside one of its ends. -/
theorem covers_join {tail : List (ℕ × ℕ)} {lo hi n : ℕ} (h : Canonical ((lo, hi) :: tail))
    (htouch : lo ≤ ord + 1 ∧ ord ≤ hi + 1) (hnew : ¬ Covers (before ++ (lo, hi) :: tail) ord) :
    Covers (before ++ absorb (min lo ord) (max hi ord) tail) n ↔
      Covers (before ++ (lo, hi) :: tail) n ∨ n = ord := by
  obtain ⟨hle, hlt, -⟩ := canonical_cons.mp h
  simp only [covers_append, covers_cons, not_or, not_and] at hle hlt hnew ⊢
  have hlo : ∀ q ∈ tail, min lo ord ≤ q.1 := by
    intro q hq
    have := hlt q hq
    omega
  have hends : (min lo ord ≤ n ∧ n ≤ max hi ord) ↔ (lo ≤ n ∧ n ≤ hi) ∨ n = ord := by
    have := hnew.2.1
    omega
  rw [covers_absorb (by omega) hlo, hends]
  tauto

/-- Retaining an uncovered ordinal keeps the memory canonical and bounded. It adds nothing but
the ordinal, and whatever it loses lies at or above the floor it answers. -/
theorem retainAboveRange_spec (h : Canonical ranges) (hlen : ranges.length ≤ maxPendingAbove)
    (hord : 0 < ord) (hpos : ∀ r ∈ ranges, 0 < r.1) (hnew : ¬ Covers ranges ord) :
    Canonical (retainAboveRange ranges ord).1 ∧
      (retainAboveRange ranges ord).1.length ≤ maxPendingAbove ∧
      (∀ n, Covers (retainAboveRange ranges ord).1 n → Covers ranges n ∨ n = ord) ∧
      ∀ n, Covers ranges n ∨ n = ord → Covers (retainAboveRange ranges ord).1 n ∨
        (retainAboveRange ranges ord).2 ≠ 0 ∧ (retainAboveRange ranges ord).2 ≤ n := by
  have hsplit := (takeWhile_append_dropWhile (p := fun r : ℕ × ℕ => r.2 + 1 < ord)
    (l := ranges)).symm
  have hbefore : ∀ r ∈ ranges.takeWhile fun r => r.2 + 1 < ord, r.2 + 1 < ord := fun r hr => by
    simpa using mem_takeWhile_imp hr
  have hrest := le_of_mem_dropWhile h ord
  unfold retainAboveRange
  generalize (ranges.takeWhile fun r => r.2 + 1 < ord) = before at hsplit hbefore ⊢
  generalize (ranges.dropWhile fun r => r.2 + 1 < ord) = rest at hsplit hrest ⊢
  subst hsplit
  cases rest with
  | nil =>
    by_cases hcap : (before ++ []).length < maxPendingAbove
    · simp only [if_pos hcap]
      refine ⟨canonical_insert h hbefore (by simp), ?_, fun n => covers_insert.mp,
        fun n hn => .inl (covers_insert.mpr hn)⟩
      simp only [length_append, length_cons, length_nil] at hcap ⊢
      omega
    · simp only [if_neg hcap]
      refine ⟨h, hlen, fun n => .inl, ?_⟩
      rintro n (hn | rfl)
      · exact .inl hn
      · exact .inr ⟨by omega, le_rfl⟩
  | cons r tail =>
    obtain ⟨lo, hi⟩ := r
    have hcr := (canonical_append.mp h).2.1
    obtain ⟨hrne, hrlt, -⟩ := canonical_cons.mp hcr
    have hge := hrest (lo, hi) (.head _)
    simp only at hrne hrlt hge ⊢
    by_cases htouch : lo ≤ ord + 1 ∧ ord ≤ hi + 1
    · simp only [if_pos htouch]
      refine ⟨canonical_join h hbefore, ?_, fun n => (covers_join hcr htouch hnew).mp,
        fun n hn => .inl ((covers_join hcr htouch hnew).mpr hn)⟩
      have := length_absorb_le (min lo ord) (max hi ord) tail
      simp only [length_append, length_cons] at hlen ⊢
      omega
    · have hgap : ∀ q ∈ (lo, hi) :: tail, ord + 1 < q.1 := by
        intro q hq
        rcases mem_cons.mp hq with rfl | hq
        · simp only
          omega
        · have := hrlt q hq
          omega
      have hins := canonical_insert h hbefore hgap
      simp only [if_neg htouch]
      by_cases hcap : (before ++ (lo, hi) :: tail).length < maxPendingAbove
      · simp only [if_pos hcap]
        refine ⟨hins, ?_, fun n => covers_insert.mp, fun n hn => .inl (covers_insert.mpr hn)⟩
        simp only [length_append, length_cons] at hcap ⊢
        omega
      · simp only [if_neg hcap]
        -- the furthest range is popped: what it held lies at or above its start
        obtain ⟨init, last, hlast⟩ : ∃ init last,
            before ++ (ord, ord) :: (lo, hi) :: tail = init ++ [last] :=
          ⟨_, _, (dropLast_append_getLast (by simp)).symm⟩
        have hlengths := congrArg length hlast
        have hpopped : 0 < last.1 := by
          have hmem : last ∈ before ++ (ord, ord) :: (lo, hi) :: tail := by rw [hlast]; simp
          simp only [mem_append, mem_cons] at hmem hpos
          rcases hmem with hm | rfl | hm
          · exact hpos _ (.inl hm)
          · exact hord
          · exact hpos _ (.inr hm)
        simp only [hlast, dropLast_concat, getLast?_concat, Option.getD_some] at hins ⊢
        refine ⟨(canonical_append.mp hins).1, ?_, fun n hn => covers_insert.mp ?_, fun n hn => ?_⟩
        · simp only [length_append, length_cons, length_nil] at hlengths hlen
          omega
        · rw [hlast, covers_append]
          exact .inl hn
        · have hkept := covers_insert.mpr hn
          rw [hlast, covers_append, covers_cons] at hkept
          rcases hkept with hn | hn | hn
          · exact .inl hn
          · exact .inr ⟨by omega, hn.1⟩
          · exact absurd hn (not_covers_nil n)

/-! ## Draining at a plug -/

theorem drainExact_spec (w : ℕ) (above : Finset ℕ) (hgt : ∀ n ∈ above, w < n) :
    w ≤ (drainExact w above).1 ∧
      (∀ n, w < n → n ≤ (drainExact w above).1 → n ∈ above) ∧
      (drainExact w above).2 = above.filter (fun n => (drainExact w above).1 < n) ∧
      (drainExact w above).1 + 1 ∉ above := by
  induction w, above using drainExact.induct with
  | case1 w above hmem ih =>
    rw [drainExact, if_pos hmem]
    have hgt' : ∀ n ∈ above.erase (w + 1), w + 1 < n := by
      intro n hn
      obtain ⟨hne, hn⟩ := Finset.mem_erase.mp hn
      have := hgt n hn
      omega
    obtain ⟨h₁, h₂, h₃, h₄⟩ := ih hgt'
    refine ⟨by omega, ?_, ?_, ?_⟩
    · intro n hw hn
      by_cases hne : n = w + 1
      · subst hne; exact hmem
      · exact Finset.mem_of_mem_erase (h₂ n (by omega) hn)
    · rw [h₃]
      ext n
      simp only [Finset.mem_filter, Finset.mem_erase]
      exact ⟨fun hn => ⟨hn.1.2, hn.2⟩, fun hn => ⟨⟨by omega, hn.1⟩, hn.2⟩⟩
    · intro hn
      exact h₄ (Finset.mem_erase.mpr ⟨by omega, hn⟩)
  | case2 w above hmem =>
    rw [drainExact, if_neg hmem]
    refine ⟨le_rfl, fun n h₁ h₂ => by omega, ?_, hmem⟩
    ext n
    simp only [Finset.mem_filter]
    exact ⟨fun hn => ⟨hn, hgt n hn⟩, fun hn => hn.1⟩

variable {above : Finset ℕ}

/-- A drain accounts for every ordinal up to the new watermark, keeps what lies above it, and
stops where neither structure holds the next ordinal. -/
theorem drainAbove_spec {w : ℕ} (hgt : ∀ n ∈ above, w < n) (hc : Canonical ranges)
    (hrgt : ∀ r ∈ ranges, w < r.1) (hdis : ∀ n ∈ above, ¬ Covers ranges n) :
    w ≤ (drainAbove w above ranges).1 ∧
      (∀ n, w < n → n ≤ (drainAbove w above ranges).1 → n ∈ above ∨ Covers ranges n) ∧
      (drainAbove w above ranges).2.1 =
        above.filter (fun n => (drainAbove w above ranges).1 < n) ∧
      (∀ n, Covers (drainAbove w above ranges).2.2 n ↔
        Covers ranges n ∧ (drainAbove w above ranges).1 < n) ∧
      (drainAbove w above ranges).2.2 <:+ ranges ∧
      (drainAbove w above ranges).1 + 1 ∉ above ∧
      ¬ Covers ranges ((drainAbove w above ranges).1 + 1) := by
  induction ranges generalizing w above with
  | nil =>
    obtain ⟨h₁, h₂, h₃, h₄⟩ := drainExact_spec w above hgt
    refine ⟨h₁, fun n hw hn => .inl (h₂ n hw hn), h₃, ?_, suffix_refl _, h₄, by simp⟩
    simp [drainAbove]
  | cons r ranges ih =>
    obtain ⟨lo, hi⟩ := r
    obtain ⟨hr, hlt, hrs⟩ := canonical_cons.mp hc
    simp only at hr hlt
    obtain ⟨h₁, h₂, h₃, h₄⟩ := drainExact_spec w above hgt
    have hlow := hrgt (lo, hi) (by simp)
    simp only at hlow
    -- the exact drain cannot run into the first range
    have hstop : (drainExact w above).1 < lo := by
      by_contra hge
      exact hdis lo (h₂ lo hlow (by omega)) ⟨(lo, hi), by simp, le_rfl, hr⟩
    have hexact : ∀ n, n ∈ (drainExact w above).2 ↔
        n ∈ above ∧ (drainExact w above).1 < n := by
      intro n
      have := congrArg (n ∈ ·) h₃
      simpa only [Finset.mem_filter, eq_iff_iff] using this
    by_cases hnext : lo = (drainExact w above).1 + 1
    · have hgt' : ∀ n ∈ (drainExact w above).2, hi < n := by
        intro n hn
        obtain ⟨hn, hlt⟩ := (hexact n).mp hn
        by_contra hle
        exact hdis n hn ⟨(lo, hi), by simp, by simp only; omega, by simp only; omega⟩
      have hrgt' : ∀ r ∈ ranges, hi < r.1 := by
        intro r hrm
        have := hlt r hrm
        omega
      have hdis' : ∀ n ∈ (drainExact w above).2, ¬ Covers ranges n := by
        intro n hn hcov
        exact hdis n ((hexact n).mp hn).1 (by rw [covers_cons]; exact .inr hcov)
      obtain ⟨k₁, k₂, k₃, k₄, k₅, k₆, k₇⟩ := ih hgt' hrs hrgt' hdis'
      rw [drainAbove, if_pos hnext]
      refine ⟨by omega, ?_, ?_, ?_, k₅.trans (suffix_cons _ _), ?_, ?_⟩
      · intro n hw hn
        by_cases hle : n ≤ (drainExact w above).1
        · exact .inl (h₂ n hw hle)
        · by_cases hle' : n ≤ hi
          · exact .inr (by rw [covers_cons]; exact .inl (by simp only; omega))
          · rcases k₂ n (by omega) hn with hn | hn
            · exact .inl ((hexact n).mp hn).1
            · exact .inr (by rw [covers_cons]; exact .inr hn)
      · rw [k₃]
        ext n
        simp only [Finset.mem_filter, hexact]
        exact ⟨fun hn => ⟨hn.1.1, hn.2⟩, fun hn => ⟨⟨hn.1, by omega⟩, hn.2⟩⟩
      · intro n
        rw [k₄, covers_cons]
        constructor
        · rintro ⟨hn, hlt⟩; exact ⟨.inr hn, hlt⟩
        · rintro ⟨hn | hn, hlt⟩
          · simp only at hn; omega
          · exact ⟨hn, hlt⟩
      · intro hn
        exact k₆ ((hexact _).mpr ⟨hn, by omega⟩)
      · rw [covers_cons]
        rintro (hn | hn)
        · simp only at hn; omega
        · exact k₇ hn
    · rw [drainAbove, if_neg hnext]
      refine ⟨h₁, fun n hw hn => .inl (h₂ n hw hn), h₃, ?_, suffix_refl _, h₄, ?_⟩
      · intro n
        rw [covers_cons]
        constructor
        · intro hn
          refine ⟨hn, ?_⟩
          rcases hn with hn | ⟨q, hq, hn, -⟩
          · simp only at hn; omega
          · have := hlt q hq; omega
        · exact And.left
      · rw [covers_cons]
        rintro (hn | ⟨q, hq, hn, -⟩)
        · simp only at hn; omega
        · have := hlt q hq; omega

/-! ## The run a staged report consumes -/

theorem mem_ascending {n : ℕ} : n ∈ ascending above ↔ n ∈ above := by
  obtain ⟨⟨l⟩, hl⟩ := above
  exact mem_insertionSort _

theorem pairwise_ascending (above : Finset ℕ) : (ascending above).Pairwise (· < ·) := by
  obtain ⟨⟨l⟩, hl⟩ := above
  have hle : (l.insertionSort (· ≤ ·)).Pairwise (· ≤ ·) := pairwise_insertionSort _ l
  have hne : (l.insertionSort (· ≤ ·)).Nodup := (perm_insertionSort _ l).nodup_iff.mpr hl
  exact (hle.and hne).imp fun h => lt_of_le_of_ne h.1 h.2

/-- What `firstRun` merges: ascending ordinals, and canonical ranges that hold none of them. -/
structure Mergeable (exact : List ℕ) (ranges : List (ℕ × ℕ)) : Prop where
  sorted : exact.Pairwise (· < ·)
  canonical : Canonical ranges
  disjoint : ∀ n ∈ exact, ¬ Covers ranges n

/-- The lowest item of the two memories, and what they hold above it. -/
structure Pops (exact : List ℕ) (ranges : List (ℕ × ℕ)) (item : ℕ × ℕ) (exact' : List ℕ)
    (ranges' : List (ℕ × ℕ)) : Prop where
  run : ∀ run, firstRun exact ranges run =
    (extendRun run item).elim run fun run => firstRun exact' ranges' (some run)
  shorter : exact'.length + ranges'.length < exact.length + ranges.length
  rest : Mergeable exact' ranges'
  le : item.1 ≤ item.2
  held : ∀ n, n ∈ exact ∨ Covers ranges n ↔
    (item.1 ≤ n ∧ n ≤ item.2) ∨ n ∈ exact' ∨ Covers ranges' n
  above : ∀ n, n ∈ exact' ∨ Covers ranges' n → item.2 < n

variable {exact : List ℕ}

theorem Mergeable.pops_exact {x : ℕ} (h : Mergeable (x :: exact) ranges)
    (hlow : ∀ r ∈ ranges, x < r.1) (hrun : ∀ run, firstRun (x :: exact) ranges run =
      (extendRun run (x, x)).elim run fun run => firstRun exact ranges (some run)) :
    Pops (x :: exact) ranges (x, x) exact ranges := by
  obtain ⟨hlt, hsorted⟩ := pairwise_cons.mp h.sorted
  refine ⟨hrun, by simp, ⟨hsorted, h.canonical, fun n hn => h.disjoint n (by simp [hn])⟩, le_rfl,
    fun n => ?_, ?_⟩
  · rw [mem_cons, or_assoc, ← le_antisymm_iff, eq_comm]
  · rintro n (hn | ⟨r, hr, hn, -⟩)
    · exact hlt n hn
    · exact (hlow r hr).trans_le hn

theorem Mergeable.pops_range {r : ℕ × ℕ} (h : Mergeable exact (r :: ranges))
    (hlow : ∀ x ∈ exact, r.1 ≤ x) (hrun : ∀ run, firstRun exact (r :: ranges) run =
      (extendRun run r).elim run fun run => firstRun exact ranges (some run)) :
    Pops exact (r :: ranges) r exact ranges := by
  obtain ⟨hle, hlt, hcanonical⟩ := canonical_cons.mp h.canonical
  refine ⟨hrun, by simp, ⟨h.sorted, hcanonical, fun n hn hcov => h.disjoint n hn ?_⟩, hle,
    fun n => ?_, ?_⟩
  · exact (covers_cons ..).mpr (.inr hcov)
  · rw [covers_cons, or_left_comm]
  · rintro n (hn | ⟨q, hq, hn, -⟩)
    · by_contra hge
      exact h.disjoint n hn ((covers_cons ..).mpr (.inl ⟨hlow n hn, by omega⟩))
    · have := hlt q hq
      omega

/-- A pass of the loop takes the lowest item of the two memories. -/
theorem Mergeable.pops (h : Mergeable exact ranges) (hne : ∃ n, n ∈ exact ∨ Covers ranges n) :
    ∃ item exact' ranges', Pops exact ranges item exact' ranges' := by
  cases exact with
  | nil =>
    cases ranges with
    | nil => simp at hne
    | cons r ranges =>
      refine ⟨_, _, _, h.pops_range (by simp) fun run => ?_⟩
      rw [firstRun]
      cases extendRun run r <;> rfl
  | cons x exact =>
    cases ranges with
    | nil =>
      refine ⟨_, _, _, h.pops_exact (by simp) fun run => ?_⟩
      rw [firstRun]
      cases extendRun run (x, x) <;> rfl
    | cons r ranges =>
      obtain ⟨hle, hlt, -⟩ := canonical_cons.mp h.canonical
      by_cases hx : x < r.1
      · refine ⟨_, _, _, h.pops_exact (fun q hq => ?_) fun run => ?_⟩
        · rcases mem_cons.mp hq with rfl | hq
          · exact hx
          · have := hlt q hq
            omega
        · rw [firstRun, if_pos hx]
          cases extendRun run (x, x) <;> rfl
      · refine ⟨_, _, _, h.pops_range (fun y hy => ?_) fun run => ?_⟩
        · rcases mem_cons.mp hy with rfl | hy
          · omega
          · have := (pairwise_cons.mp h.sorted).1 y hy
            omega
        · rw [firstRun, if_neg hx]
          cases extendRun run r <;> rfl

/-- Extending an open run: it grows over contiguous items only and stops at an ordinal that
neither structure holds. -/
theorem firstRun_some_spec {s e : ℕ} (h : Mergeable exact ranges)
    (hgt : ∀ n, n ∈ exact ∨ Covers ranges n → e < n) :
    ∃ e', firstRun exact ranges (some (s, e)) = some (s, e') ∧ e ≤ e' ∧
      (∀ n, e < n → n ≤ e' → n ∈ exact ∨ Covers ranges n) ∧
      ¬ (e' + 1 ∈ exact ∨ Covers ranges (e' + 1)) := by
  induction hk : exact.length + ranges.length using Nat.strong_induction_on
    generalizing exact ranges e with
  | _ k ih =>
    subst hk
    by_cases hne : ∃ n, n ∈ exact ∨ Covers ranges n
    · obtain ⟨item, exact', ranges', hpops⟩ := h.pops hne
      have hlow := hgt item.1 ((hpops.held _).mpr (.inl ⟨le_rfl, hpops.le⟩))
      have hle := hpops.le
      rw [hpops.run, extendRun]
      by_cases hcont : item.1 ≤ e + 1
      · obtain ⟨e', he, hle', hcov, hstop⟩ := ih _ hpops.shorter hpops.rest hpops.above rfl
        rw [if_pos hcont, max_eq_right (by omega)]
        refine ⟨e', he, by omega, fun n h₁ h₂ => (hpops.held n).mpr ?_, fun hn => ?_⟩
        · by_cases hn : n ≤ item.2
          · exact .inl ⟨by omega, hn⟩
          · exact .inr (hcov n (by omega) h₂)
        · rcases (hpops.held _).mp hn with hn | hn
          · omega
          · exact hstop hn
      · rw [if_neg hcont]
        refine ⟨e, rfl, le_rfl, fun n h₁ h₂ => by omega, fun hn => ?_⟩
        rcases (hpops.held _).mp hn with hn | hn
        · omega
        · have := hpops.above _ hn
          omega
    · have hempty : firstRun exact ranges (some (s, e)) = some (s, e) := by
        cases exact with
        | nil =>
          cases ranges with
          | nil => rw [firstRun]
          | cons r ranges =>
            exact absurd ⟨r.1, .inr ⟨r, by simp, le_rfl, h.canonical.nonempty r (by simp)⟩⟩ hne
        | cons x exact => exact absurd ⟨x, .inl (by simp)⟩ hne
      exact ⟨e, hempty, le_rfl, fun n h₁ h₂ => by omega, fun hn => hne ⟨_, hn⟩⟩

/-- The first run of a nonempty memory is a maximal contiguous block at the lowest arrival. -/
theorem firstRun_spec (hc : Canonical ranges) (hdis : ∀ n ∈ above, ¬ Covers ranges n)
    (hne : ∃ n, n ∈ above ∨ Covers ranges n) :
    ∃ s e, firstRun (ascending above) ranges none = some (s, e) ∧ s ≤ e ∧
      (∀ n, s ≤ n → n ≤ e → n ∈ above ∨ Covers ranges n) ∧
      (∀ n, n ∈ above ∨ Covers ranges n → s ≤ n) ∧
      e + 1 ∉ above ∧ ¬ Covers ranges (e + 1) := by
  have hmem : ∀ n, n ∈ ascending above ↔ n ∈ above := fun n => mem_ascending
  have hsorted := pairwise_ascending above
  generalize ascending above = exact at hmem hsorted
  simp only [← hmem] at hdis hne ⊢
  obtain ⟨item, exact', ranges', hpops⟩ := Mergeable.pops ⟨hsorted, hc, hdis⟩ hne
  obtain ⟨e, he, hle, hcov, hstop⟩ := firstRun_some_spec (s := item.1) hpops.rest hpops.above
  have hlow := hpops.le
  refine ⟨item.1, e, (hpops.run none).trans he, by omega, fun n h₁ h₂ => (hpops.held n).mpr ?_,
    fun n hn => ?_, ?_⟩
  · by_cases hn : n ≤ item.2
    · exact .inl ⟨h₁, hn⟩
    · exact .inr (hcov n (by omega) h₂)
  · rcases (hpops.held n).mp hn with hn | hn
    · exact hn.1
    · have := hpops.above n hn
      omega
  · rw [← not_or]
    intro hn
    rcases (hpops.held _).mp hn with hn | hn
    · omega
    · exact hstop hn

end AdapterWs.Relay
