import Mathlib.Data.List.Basic
import Mathlib.Data.List.TakeDrop
import Mathlib.Order.Lattice

/-!
# Canonical lists of ranges of naturals

A set of naturals kept as a list of closed ranges `(lo, hi)`. The list is canonical when the
ranges are nonempty, ascending, and separated by at least one missing number, so that every
set has one list and membership in the set is membership in one range.
-/

namespace AdapterWs.NatRange

/-- Some range of the list contains `n`. -/
def Covers (rs : List (ℕ × ℕ)) (n : ℕ) : Prop := ∃ r ∈ rs, r.1 ≤ n ∧ n ≤ r.2

/-- Nonempty ranges, ascending, with a gap between neighbours. -/
structure Canonical (rs : List (ℕ × ℕ)) : Prop where
  /-- Every range ends before the next one starts, with a number between them. -/
  apart : rs.Pairwise fun a b => a.2 + 1 < b.1
  /-- Every range holds at least its two ends. -/
  nonempty : ∀ r ∈ rs, r.1 ≤ r.2

@[simp] theorem not_covers_nil (n : ℕ) : ¬ Covers [] n := by simp [Covers]

@[simp] theorem covers_cons (r : ℕ × ℕ) (rs : List (ℕ × ℕ)) (n : ℕ) :
    Covers (r :: rs) n ↔ (r.1 ≤ n ∧ n ≤ r.2) ∨ Covers rs n := by
  simp [Covers]

@[simp] theorem covers_append (rs qs : List (ℕ × ℕ)) (n : ℕ) :
    Covers (rs ++ qs) n ↔ Covers rs n ∨ Covers qs n := by
  simp [Covers, or_and_right, exists_or]

theorem canonical_nil : Canonical [] := ⟨List.Pairwise.nil, by simp⟩

variable {rs : List (ℕ × ℕ)}

@[simp] theorem canonical_cons {r : ℕ × ℕ} :
    Canonical (r :: rs) ↔ r.1 ≤ r.2 ∧ (∀ q ∈ rs, r.2 + 1 < q.1) ∧ Canonical rs := by
  constructor
  · intro h
    have hp := List.pairwise_cons.mp h.apart
    exact ⟨h.nonempty r (by simp), hp.1, hp.2, fun q hq => h.nonempty q (by simp [hq])⟩
  · rintro ⟨hr, hlt, h⟩
    refine ⟨List.pairwise_cons.mpr ⟨hlt, h.apart⟩, ?_⟩
    intro q hq
    rcases List.mem_cons.mp hq with rfl | hq
    · exact hr
    · exact h.nonempty q hq

theorem canonical_append {qs : List (ℕ × ℕ)} :
    Canonical (rs ++ qs) ↔
      Canonical rs ∧ Canonical qs ∧ ∀ r ∈ rs, ∀ q ∈ qs, r.2 + 1 < q.1 := by
  constructor
  · intro h
    obtain ⟨h₁, h₂, h₃⟩ := List.pairwise_append.mp h.apart
    exact ⟨⟨h₁, fun r hr => h.nonempty r (by simp [hr])⟩,
      ⟨h₂, fun r hr => h.nonempty r (by simp [hr])⟩, h₃⟩
  · rintro ⟨h₁, h₂, h₃⟩
    refine ⟨List.pairwise_append.mpr ⟨h₁.apart, h₂.apart, h₃⟩, ?_⟩
    intro r hr
    rcases List.mem_append.mp hr with hr | hr
    · exact h₁.nonempty r hr
    · exact h₂.nonempty r hr

/-- The ranges above an uncovered number are what is left after dropping those below it. -/
theorem covers_dropWhile {e : ℕ} (h : Canonical rs) (hstop : ¬ Covers rs (e + 1)) (n : ℕ) :
    Covers (rs.dropWhile fun r => r.2 ≤ e) n ↔ Covers rs n ∧ e < n := by
  induction rs with
  | nil => simp
  | cons r rs ih =>
    obtain ⟨hr, hlt, hrs⟩ := canonical_cons.mp h
    rw [covers_cons, not_or] at hstop
    by_cases hle : r.2 ≤ e
    · rw [List.dropWhile_cons_of_pos (by simpa using hle), ih hrs hstop.2, covers_cons]
      constructor
      · exact fun hn => ⟨.inr hn.1, hn.2⟩
      · rintro ⟨hn | hn, hlt⟩
        · omega
        · exact ⟨hn, hlt⟩
    · rw [List.dropWhile_cons_of_neg (by simpa using hle)]
      constructor
      · intro hn
        refine ⟨hn, ?_⟩
        rcases (covers_cons r rs n).mp hn with hn | ⟨q, hq, hn, -⟩
        · omega
        · have := hlt q hq
          omega
      · exact And.left

/-- A range together with the following ranges it touches, and the ranges it does not touch. -/
def absorb (lo hi : ℕ) : List (ℕ × ℕ) → List (ℕ × ℕ)
  | [] => [(lo, hi)]
  | (lo', hi') :: rs =>
    if lo' ≤ hi + 1 then absorb lo (max hi hi') rs else (lo, hi) :: (lo', hi') :: rs

theorem covers_absorb {lo hi : ℕ} (hle : lo ≤ hi) (hlo : ∀ r ∈ rs, lo ≤ r.1) (n : ℕ) :
    Covers (absorb lo hi rs) n ↔ (lo ≤ n ∧ n ≤ hi) ∨ Covers rs n := by
  induction rs generalizing hi with
  | nil => simp [absorb]
  | cons r rs ih =>
    obtain ⟨lo', hi'⟩ := r
    have hlo' : lo ≤ lo' := hlo (lo', hi') (by simp)
    by_cases h : lo' ≤ hi + 1
    · rw [absorb, if_pos h, ih (by omega) (fun r hr => hlo r (by simp [hr]))]
      simp only [covers_cons]
      constructor
      · rintro (h | h)
        · by_cases hn : n ≤ hi
          · exact .inl ⟨h.1, hn⟩
          · exact .inr (.inl (by omega))
        · exact .inr (.inr h)
      · rintro (h | h | h)
        · exact .inl (by omega)
        · exact .inl (by omega)
        · exact .inr h
    · rw [absorb, if_neg h]
      simp

/-- What absorbing leaves is canonical, and starts where the absorbing range starts. -/
theorem canonical_absorb {lo hi : ℕ} (hle : lo ≤ hi) (h : Canonical rs) :
    Canonical (absorb lo hi rs) ∧ ∀ r ∈ absorb lo hi rs, lo ≤ r.1 ∨ r ∈ rs := by
  induction rs generalizing hi with
  | nil => simp [absorb, hle, canonical_nil]
  | cons r rs ih =>
    obtain ⟨lo', hi'⟩ := r
    obtain ⟨hr, hlt, hrs⟩ := canonical_cons.mp h
    by_cases ht : lo' ≤ hi + 1
    · rw [absorb, if_pos ht]
      obtain ⟨h₁, h₂⟩ := ih (show lo ≤ max hi hi' by omega) hrs
      exact ⟨h₁, fun q hq => (h₂ q hq).imp_right fun hq => by simp [hq]⟩
    · rw [absorb, if_neg ht]
      refine ⟨canonical_cons.mpr ⟨hle, ?_, h⟩, ?_⟩
      · intro q hq
        rcases List.mem_cons.mp hq with rfl | hq
        · simp only; omega
        · have := hlt q hq
          simp only at this hr ⊢
          omega
      · intro q hq
        rcases List.mem_cons.mp hq with rfl | hq
        · exact .inl le_rfl
        · exact .inr hq

theorem length_absorb_le (lo hi : ℕ) (rs : List (ℕ × ℕ)) :
    (absorb lo hi rs).length ≤ rs.length + 1 := by
  induction rs generalizing hi with
  | nil => simp [absorb]
  | cons r rs ih =>
    obtain ⟨lo', hi'⟩ := r
    by_cases h : lo' ≤ hi + 1
    · rw [absorb, if_pos h]
      have := ih (max hi hi')
      simp only [List.length_cons]
      omega
    · simp [absorb, if_neg h]

end AdapterWs.NatRange
