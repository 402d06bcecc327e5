import AdapterWs.Lib.Binary64
import Mathlib.Data.Rat.Floor
import Mathlib.Tactic.Positivity

/-!
# Rational arithmetic rounded to doubles

Every operation of the language on finite numbers gives the double nearest to the exact result,
half to even. A double is here the rational it stands for, so that arithmetic is that of the
rationals with `nearest` after each operation. Results beyond the greatest double, which the
language gives as infinite, are not modelled: their exponent is unbounded here.
-/

namespace AdapterWs.Binary64

open Nat

/-- `n / d` rounded to 53 significant bits. -/
def nearestUnits (n d : ℕ) : ℕ :=
  let k := Nat.log2 (n / d) - 52
  halfEven n (d * 2 ^ k) * 2 ^ k

/-- The double nearest to a rational. -/
def nearest (x : ℚ) : ℚ :=
  let units := nearestUnits (x.num.natAbs * one) x.den
  mkRat (if x < 0 then -(units : ℤ) else units) one

/-- What rounding a quotient to a whole number adds at most. -/
theorem halfEven_mul_le (n d : ℕ) : 2 * (halfEven n d * d) ≤ 2 * n + d := by
  rw [halfEven]
  have hdiv := div_add_mod n d
  rw [mul_comm] at hdiv
  split_ifs with hup
  · rw [add_mul, one_mul]
    omega
  · rw [add_zero]
    omega

theorem nearestUnits_mul_le (n d : ℕ) :
    2 ^ 53 * (nearestUnits n d * d) ≤ 2 ^ 53 * n + n + 2 ^ 52 * d := by
  rw [nearestUnits]
  have hround := halfEven_mul_le n (d * 2 ^ (log2 (n / d) - 52))
  generalize hk : log2 (n / d) - 52 = k at hround ⊢
  have hmul : halfEven n (d * 2 ^ k) * 2 ^ k * d = halfEven n (d * 2 ^ k) * (d * 2 ^ k) := by ring
  rw [hmul]
  generalize halfEven n (d * 2 ^ k) * (d * 2 ^ k) = r at hround
  rcases Nat.eq_zero_or_pos k with hzero | hpos
  · rw [hzero, pow_zero, mul_one] at hround
    omega
  · have hne : n / d ≠ 0 := by
      intro hne
      rw [hne] at hk
      simp at hk
      omega
    have hle : 2 ^ (52 + k) ≤ n / d := by
      rw [show 52 + k = log2 (n / d) by omega]
      exact log2_self_le hne
    have hbits : 2 ^ 52 * (d * 2 ^ k) ≤ n := by
      calc 2 ^ 52 * (d * 2 ^ k) = d * 2 ^ (52 + k) := by rw [pow_add]; ring
        _ ≤ d * (n / d) := mul_le_mul_left d hle
        _ ≤ n := mul_div_le n d
    omega

theorem nearest_eq (x : ℚ) : nearest x =
    (if x < 0 then -1 else 1) * (nearestUnits (x.num.natAbs * one) x.den : ℚ) / one := by
  rw [nearest, Rat.mkRat_eq_div]
  split_ifs <;> push_cast <;> ring

@[simp] theorem nearest_zero : nearest 0 = 0 := by decide +kernel

theorem nearest_nonneg {x : ℚ} (h : 0 ≤ x) : 0 ≤ nearest x := by
  rw [nearest_eq, if_neg (not_lt.mpr h)]
  positivity

/-- Rounding adds at most `2^-53` of a number and of one. -/
theorem nearest_le {x : ℚ} (h : 0 ≤ x) : nearest x ≤ x + (x + 1) / 2 ^ 53 := by
  have hone : (2 : ℚ) ^ 52 ≤ one := by
    have hexp := leastExponent_eq
    rw [one]
    exact_mod_cast Nat.pow_le_pow_right (by omega) (by omega : 52 ≤ leastExponent)
  have hpos : (0 : ℚ) < one := lt_of_lt_of_le (by positivity) hone
  have hden : (0 : ℚ) < x.den := by exact_mod_cast x.den_pos
  have hnum : (x.num.natAbs : ℚ) = x * x.den := by
    have hcast : ((x.num.natAbs : ℕ) : ℤ) = x.num := Int.natAbs_of_nonneg (Rat.num_nonneg.mpr h)
    rw [Rat.mul_den_eq_num, ← hcast]
    rfl
  have hbound := nearestUnits_mul_le (x.num.natAbs * one) x.den
  rw [nearest_eq, if_neg (not_lt.mpr h), one_mul, div_le_iff₀ hpos]
  generalize nearestUnits (x.num.natAbs * one) x.den = units at hbound ⊢
  have hcast : (2 : ℚ) ^ 53 * (units * x.den) ≤
      2 ^ 53 * (x * x.den * one) + x * x.den * one + 2 ^ 52 * x.den := by
    have := (cast_le (α := ℚ)).mpr hbound
    push_cast at this
    rw [hnum] at this
    exact this
  have hscaled : (2 : ℚ) ^ 53 * units ≤ 2 ^ 53 * (x * one) + x * one + 2 ^ 52 := by
    refine le_of_mul_le_mul_right ?_ hden
    linarith
  have hscale : (x + (x + 1) / 2 ^ 53) * one * 2 ^ 53 = 2 ^ 53 * (x * one) + x * one + one := by
    ring
  refine le_of_mul_le_mul_right ?_ (by positivity : (0 : ℚ) < 2 ^ 53)
  rw [hscale]
  linarith

/-! ## Rounding below a double -/

theorem halfEven_le_of_le {n d c : ℕ} (h : n ≤ c * d) : halfEven n d ≤ c := by
  have hle : n / d ≤ c := Nat.div_le_of_le_mul (by rwa [mul_comm])
  have hdiv := div_add_mod n d
  rw [halfEven]
  rcases hle.lt_or_eq with hlt | heq
  · split_ifs <;> omega
  · rw [heq, mul_comm] at hdiv
    have hzero : n % d = 0 := by omega
    rw [hzero, heq]
    split_ifs with hup
    · have hd : d = 0 := by omega
      subst hd
      simp at heq
      omega
    · exact le_rfl

/-- A quotient below a number of 53 significant bits is not rounded over it. -/
theorem nearestUnits_le_of_le {n d m : ℕ} (hd : 0 < d) (hm : 2 ^ (log2 m - 52) ∣ m)
    (h : n ≤ m * d) : nearestUnits n d ≤ m := by
  rw [nearestUnits]
  generalize hk : log2 (n / d) - 52 = k
  rcases Nat.eq_zero_or_pos k with rfl | hpos
  · simpa using halfEven_le_of_le h
  have hne : n / d ≠ 0 := by
    intro hne
    rw [hne] at hk
    simp at hk
    omega
  have hlog : log2 (n / d) = 52 + k := by omega
  have hlo : 2 ^ (52 + k) ≤ n / d := hlog ▸ log2_self_le hne
  have hhi : n / d < 2 ^ (53 + k) := by
    have hlt := lt_log2_self (n := n / d)
    rwa [hlog, show 52 + k + 1 = 53 + k by omega] at hlt
  have hle : n / d ≤ m := Nat.div_le_of_le_mul (by rwa [mul_comm])
  by_cases hbig : 2 ^ (53 + k) ≤ m
  · have hn : n ≤ 2 ^ 53 * (d * 2 ^ k) := by
      have hlt := (div_lt_iff_lt_mul hd).mp hhi
      calc n ≤ 2 ^ (53 + k) * d := hlt.le
        _ = 2 ^ 53 * (d * 2 ^ k) := by rw [pow_add]; ring
    calc halfEven n (d * 2 ^ k) * 2 ^ k ≤ 2 ^ 53 * 2 ^ k :=
          mul_le_mul_right _ (halfEven_le_of_le hn)
      _ = 2 ^ (53 + k) := (pow_add 2 53 k).symm
      _ ≤ m := hbig
  · have hm₀ : m ≠ 0 := by
      rintro rfl
      exact hne (le_zero.mp hle)
    have hlogm : log2 m = 52 + k := by
      refine (log2_eq_iff hm₀).mpr ⟨hlo.trans hle, ?_⟩
      rw [show 52 + k + 1 = 53 + k by omega]
      exact not_le.mp hbig
    rw [hlogm, show 52 + k - 52 = k by omega] at hm
    obtain ⟨c, rfl⟩ := hm
    have hn : n ≤ c * (d * 2 ^ k) := by
      calc n ≤ 2 ^ k * c * d := h
        _ = c * (d * 2 ^ k) := by ring
    rw [mul_comm (2 ^ k) c]
    exact mul_le_mul_right _ (halfEven_le_of_le hn)

theorem nearest_le_of_le {x y : ℚ} (hx : 0 ≤ x) (hy : nearest y = y) (h : x ≤ y) :
    nearest x ≤ y := by
  have hunit : (0 : ℚ) < one := by exact_mod_cast Nat.two_pow_pos leastExponent
  have hnum : ∀ {z : ℚ}, 0 ≤ z → (z.num.natAbs : ℚ) = z * z.den := fun {z} hz => by
    have hcast : ((z.num.natAbs : ℕ) : ℤ) = z.num := Int.natAbs_of_nonneg (Rat.num_nonneg.mpr hz)
    rw [Rat.mul_den_eq_num, ← hcast]
    rfl
  have hunits : ∀ {z : ℚ}, 0 ≤ z →
      nearest z = (nearestUnits (z.num.natAbs * one) z.den : ℚ) / one := fun {z} hz => by
    rw [nearest_eq, if_neg (not_lt.mpr hz), one_mul]
  have hyden : (0 : ℚ) < y.den := by exact_mod_cast y.den_pos
  have hxden : (0 : ℚ) < x.den := by exact_mod_cast x.den_pos
  obtain ⟨m, hm⟩ : ∃ m, nearestUnits (y.num.natAbs * one) y.den = m := ⟨_, rfl⟩
  have hval : y * one = m := by
    have heq := hunits (hx.trans h)
    rw [hy, hm] at heq
    rw [heq, div_mul_cancel₀ _ hunit.ne']
  have hprod : y.num.natAbs * one = m * y.den := by
    have hcast : (y.num.natAbs : ℚ) * one = m * y.den := by
      rw [hnum (hx.trans h), ← hval]
      ring
    exact_mod_cast hcast
  have hdvd : 2 ^ (log2 m - 52) ∣ m := by
    rw [hprod, nearestUnits, Nat.mul_div_cancel _ y.den_pos] at hm
    exact Dvd.intro_left _ hm
  have hle : x.num.natAbs * one ≤ m * x.den := by
    have hcast : (x.num.natAbs : ℚ) * one ≤ m * x.den := by
      rw [hnum hx, ← hval, mul_right_comm]
      exact mul_le_mul_of_nonneg_right (mul_le_mul_of_nonneg_right h hunit.le) hxden.le
    exact_mod_cast hcast
  have hround := nearestUnits_le_of_le x.den_pos hdvd hle
  rw [hunits hx, div_le_iff₀ hunit, hval]
  exact_mod_cast hround

end AdapterWs.Binary64
