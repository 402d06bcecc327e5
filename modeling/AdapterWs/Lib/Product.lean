import AdapterWs.Lib.Binary64

/-!
# Products of numbers, and naturals as numbers

A product of finite numbers is rounded once. A natural that a program adds up in numbers is exact
up to `2^53`; from there on the number is only known to be no less, up to infinity.
-/

namespace AdapterWs.Binary64

open Nat Bool

/-- `a * b`. -/
def mul (a b : Binary64) : Binary64 :=
  let negative := a.negative != b.negative
  if a.isNaN || b.isNaN then nan
  else if a.isFinite && b.isFinite then
    pack negative (roundTo 53 leastExponent (a.magnitude * b.magnitude) / 2 ^ leastExponent)
  else if a.magnitude = 0 ∨ b.magnitude = 0 then nan
  else ofPattern negative topPattern

example : mul ⟨0x3fb999999999999a#64⟩ ⟨0x3fc999999999999a#64⟩ = ⟨0x3f947ae147ae147c#64⟩ := by
  decide +kernel

/-- `+Infinity`. -/
def infinity : Binary64 := ofPattern false topPattern

theorem isNaN_nan : nan.isNaN = true := by decide +kernel

theorem isNaN_add_left {a : Binary64} (h : a.isNaN = true) (b : Binary64) :
    (a.add b).isNaN = true := by
  rw [add, h, Bool.true_or, if_pos rfl]
  exact isNaN_nan

theorem isNaN_add_right (a : Binary64) {b : Binary64} (h : b.isNaN = true) :
    (a.add b).isNaN = true := by
  rw [add, h, Bool.or_true, if_pos rfl]
  exact isNaN_nan

/-! ## Packed numbers -/

variable (s : Bool)

theorem pattern_pack (z : ℕ) : (pack s z).pattern = min (squeeze 52 z) topPattern :=
  pattern_ofPattern (lt_of_le_of_lt (min_le_right _ _) (by decide))

theorem isNaN_pack (z : ℕ) : (pack s z).isNaN = false := by
  rw [isNaN, pattern_pack]
  exact decide_eq_false (not_lt.mpr (min_le_right _ _))

theorem negative_pack (z : ℕ) : (pack s z).negative = s :=
  negative_ofPattern (lt_of_le_of_lt (min_le_right _ _) (by decide))

variable {z : ℕ}

theorem pack_eq_infinity (hlog : 2098 ≤ log2 z) : pack false z = infinity := by
  have hz : z ≠ 0 := by
    rintro rfl
    simp at hlog
  have hquot : 2 ^ 52 ≤ z / 2 ^ (log2 z - 52) := by
    rw [Nat.le_div_iff_mul_le (Nat.two_pow_pos _), ← pow_add,
      show 52 + (log2 z - 52) = log2 z by omega]
    exact log2_self_le hz
  have hexp : 2046 * 2 ^ 52 ≤ (log2 z - 52) * 2 ^ 52 := mul_le_mul_right _ (by omega)
  have htop : topPattern ≤ squeeze 52 z := by
    rw [squeeze, topPattern]
    omega
  rw [pack, min_eq_right htop, infinity]

theorem magnitude_infinity : infinity.magnitude = 2 ^ (1024 + leastExponent) := by
  have hexp := leastExponent_eq
  have htop : topPattern = (972 + leastExponent) * 2 ^ 52 + 2 ^ 52 := by
    rw [hexp]
    decide
  rw [magnitude, infinity, pattern_ofPattern (by decide), htop,
    expand_normal le_rfl (by decide), ← pow_add,
    show 52 + (972 + leastExponent) = 1024 + leastExponent by omega]

/-- What is packed exactly keeps the power of two it reaches. -/
theorem le_magnitude_pack {j : ℕ} (hj : j ≤ 1024 + leastExponent) (hz : 2 ^ j ≤ z)
    (h : 2 ^ (log2 z - 52) ∣ z) : 2 ^ j ≤ (pack false z).magnitude := by
  have hexp := leastExponent_eq
  by_cases hlog : log2 z < 2098
  · rw [(pack_spec hlog h).2.2]
    exact hz
  · rw [pack_eq_infinity (Nat.le_of_not_lt hlog), magnitude_infinity]
    exact Nat.pow_le_pow_right (by decide) hj

/-- A number with enough significant bits below a sum is below the rounded sum. -/
theorem le_roundTo_of_dvd {f y : ℕ} (hy : 2 ^ (log2 y - f) ∣ y) (hyz : y ≤ z) :
    y ≤ roundTo (f + 1) 0 z := by
  by_cases hy0 : y = 0
  · simp [hy0]
  have hz0 : z ≠ 0 := by omega
  have hlog : log2 y ≤ log2 z := (le_log2 hz0).mpr ((log2_self_le hy0).trans hyz)
  rcases lt_or_eq_of_le hlog with hlt | heq
  · -- a power of two lies between them
    refine le_trans ?_ (le_roundTo (zero_le _) (succ_pos f) (log2_self_le hz0))
    exact ((log2_lt hy0).mp hlt).le
  · rw [roundTo, Nat.zero_max, Nat.add_sub_add_right, ← heq]
    calc y = y / 2 ^ (Nat.log2 y - f) * 2 ^ (Nat.log2 y - f) := (Nat.div_mul_cancel hy).symm
      _ ≤ z / 2 ^ (Nat.log2 y - f) * 2 ^ (Nat.log2 y - f) :=
        Nat.mul_le_mul_right _ (Nat.div_le_div_right hyz)
      _ ≤ _ := Nat.mul_le_mul_right _ (div_le_halfEven _ _)

/-! ## Naturals -/

/-- The number of a natural: exact up to `2^53`, and no less than `2^53` above. -/
structure IsNat (b : Binary64) (n : ℕ) : Prop where
  number : b.isNaN = false
  sign : b.negative = false
  exact : n ≤ 2 ^ 53 → b.IsInt n
  large : 2 ^ 53 ≤ n → 2 ^ 53 * one ≤ b.magnitude

variable {a b : Binary64} {m n : ℕ} {k c : ℕ}

theorem scaled_of_sign (h : b.negative = false) : b.scaled = b.magnitude := by
  rw [scaled, h, if_neg Bool.false_ne_true]

theorem two_pow_mul_one (j : ℕ) : 2 ^ j * one = 2 ^ (j + leastExponent) := by
  rw [one, ← pow_add]

theorem isNat_pack (h : 2 ^ (log2 (n * one) - 52) ∣ n * one) :
    (pack false (n * one)).IsNat n := by
  have hexp := leastExponent_eq
  refine ⟨isNaN_pack _ _, negative_pack _ _, fun hn => ?_, fun hn => ?_⟩
  · obtain ⟨hlog, hdvd⟩ := natAbs_mul_one_spec hn
    obtain ⟨hfinite, hsign, hmagnitude⟩ := pack_spec (s := false) hlog hdvd
    refine ⟨hfinite, ?_⟩
    rw [scaled_of_sign hsign, hmagnitude]
    push_cast
    rfl
  · rw [two_pow_mul_one]
    refine le_magnitude_pack (by omega) ?_ h
    rw [← two_pow_mul_one]
    exact mul_le_mul_right _ hn

theorem ofInt_eq_pack {m : ℤ} (hm : m.natAbs ≤ 2 ^ 53) :
    ofInt m = pack (decide (m < 0)) (m.natAbs * one) := by
  obtain ⟨-, hdvd⟩ := natAbs_mul_one_spec hm
  have hround : roundTo 53 0 (m.natAbs * one) = m.natAbs * one := by
    refine roundTo_of_dvd ?_
    rw [zero_max, show log2 (m.natAbs * one) + 1 - 53 = log2 (m.natAbs * one) - 52 by
      omega]
    exact hdvd
  have hsign : m * one < 0 ↔ m < 0 :=
    ⟨fun h => neg_of_mul_neg_left h one_pos.le, fun h => mul_neg_of_neg_of_pos h one_pos⟩
  rw [ofInt, ofScaled, Int.natAbs_mul, Int.natAbs_natCast, hround]
  simp [hsign]

theorem isNat_ofInt (hn : n ≤ 2 ^ 53) : (ofInt n).IsNat n := by
  rw [ofInt_eq_pack (m := n) hn, decide_eq_false (not_lt.mpr (Int.natCast_nonneg n)),
    Int.natAbs_natCast]
  exact isNat_pack (natAbs_mul_one_spec hn).2

theorem isNat_infinity (hn : 2 ^ 53 < n) : infinity.IsNat n := by
  have hexp := leastExponent_eq
  refine ⟨by decide +kernel, by decide +kernel, fun h => by omega, fun _ => ?_⟩
  rw [magnitude_infinity, two_pow_mul_one]
  exact Nat.pow_le_pow_right (by decide) (by omega)

theorem IsNat.eq_infinity (h : b.IsNat n) (hb : b.isFinite = false) :
    b = infinity ∧ 2 ^ 53 < n := by
  have hpattern : b.pattern = topPattern :=
    le_antisymm (Nat.le_of_not_lt (of_decide_eq_false h.number))
      (Nat.le_of_not_lt (of_decide_eq_false hb))
  refine ⟨?_, ?_⟩
  · rw [← ofPattern_pattern b, h.sign, hpattern, infinity]
  · by_contra hle
    rw [(h.exact (by omega)).finite] at hb
    cases hb

theorem IsNat.le_magnitude (h : b.IsNat n) : min n (2 ^ 53) * one ≤ b.magnitude := by
  by_cases hn : n ≤ 2 ^ 53
  · have hvalue := (h.exact hn).value
    rw [scaled_of_sign h.sign] at hvalue
    rw [min_eq_left hn]
    exact_mod_cast hvalue.ge
  · rw [min_eq_right (by omega)]
    exact h.large (by omega)

theorem IsNat.add (ha : a.IsNat m) (hb : b.IsNat n) : (a.add b).IsNat (m + n) := by
  by_cases hfa : a.isFinite = true
  · by_cases hfb : b.isFinite = true
    · have hsum := add_of_isFinite hfa hfb
      have hnonneg : 0 ≤ a.scaled + b.scaled := by
        rw [scaled_of_sign ha.sign, scaled_of_sign hb.sign]
        positivity
      by_cases hzero : a.scaled + b.scaled = 0
      · rw [if_pos hzero, ha.sign, Bool.false_and, Bool.false_and] at hsum
        have hle := ha.le_magnitude
        have hle' := hb.le_magnitude
        have hpos : 0 < one := Nat.two_pow_pos _
        rw [scaled_of_sign ha.sign, scaled_of_sign hb.sign] at hzero
        have hm : a.magnitude = 0 := by omega
        have hn : b.magnitude = 0 := by omega
        rw [hm, Nat.le_zero, Nat.mul_eq_zero] at hle
        rw [hn, le_zero, mul_eq_zero] at hle'
        obtain rfl : m = 0 := by omega
        obtain rfl : n = 0 := by omega
        rw [hsum]
        exact ⟨by decide +kernel, by decide +kernel, fun _ => isInt_zero _, fun h => by omega⟩
      · rw [if_neg hzero] at hsum
        have hpack : a.add b = pack false (roundTo 53 0 (a.magnitude + b.magnitude)) := by
          rw [hsum, ofScaled, decide_eq_false (not_lt.mpr hnonneg), scaled_of_sign ha.sign,
            scaled_of_sign hb.sign]
          norm_cast
        refine ⟨by rw [hpack, isNaN_pack], by rw [hpack, negative_pack], fun h => ?_, fun h => ?_⟩
        · exact_mod_cast (ha.exact (by omega)).add (hb.exact (by omega)) (by omega)
        · have hexp := leastExponent_eq
          rw [hpack, two_pow_mul_one]
          refine le_magnitude_pack (by omega) (le_roundTo (zero_le _) (by decide) ?_)
            (dvd_roundTo 52 _)
          rw [← two_pow_mul_one]
          refine le_trans ?_ (Nat.add_le_add ha.le_magnitude hb.le_magnitude)
          rw [← add_mul]
          exact mul_le_mul_right _ (by omega)
    · obtain ⟨rfl, hn⟩ := hb.eq_infinity (eq_false_of_not_eq_true hfb)
      have hsum : a.add infinity = infinity := by
        rw [Binary64.add, ha.number, hb.number, hfa, eq_false_of_not_eq_true hfb]
        simp
      rw [hsum]
      exact isNat_infinity (by omega)
  · obtain ⟨rfl, hm⟩ := ha.eq_infinity (eq_false_of_not_eq_true hfa)
    have hsum : infinity.add b = infinity := by
      rw [Binary64.add, ha.number, hb.number, eq_false_of_not_eq_true hfa]
      by_cases hfb : b.isFinite = true
      · simp [hfb]
      · simp [hfb, ha.sign, hb.sign]
    rw [hsum]
    exact isNat_infinity (by omega)

theorem IsNat.lt_iff (ha : a.IsNat m) (hb : b.IsNat n) (hm : m < 2 ^ 53) :
    a.lt b = true ↔ m < n := by
  by_cases hn : n ≤ 2 ^ 53
  · rw [(ha.exact hm.le).lt_iff (hb.exact hn)]
    norm_cast
  · have hlarge := hb.large (by omega)
    have hlt : a.scaled < b.scaled := by
      rw [(ha.exact hm.le).value, scaled_of_sign hb.sign]
      have hscaled : m * one < 2 ^ 53 * one :=
        (Nat.mul_lt_mul_right (Nat.two_pow_pos _)).mpr hm
      exact_mod_cast lt_of_lt_of_le hscaled hlarge
    rw [lt, ha.number, hb.number, decide_eq_true hlt]
    simp
    omega

theorem IsInt.isInteger {m : ℤ} (h : b.IsInt m) : b.isInteger = true := by
  have habs := natAbs_scaled b
  rw [h.value, Int.natAbs_mul, Int.natAbs_natCast] at habs
  rw [Binary64.isInteger, h.finite, Bool.true_and, decide_eq_true_eq]
  exact ⟨m.natAbs, by rw [← habs, mul_comm]⟩

/-! ## Indices -/

/-- The number is an integer from zero on, and not the negative zero. -/
structure IsIndex (b : Binary64) (n : ℕ) : Prop extends b.IsInt n where
  sign : b.negative = false

theorem IsIndex.isNat (h : b.IsIndex n) : b.IsNat n := by
  refine ⟨not_isNaN_of_isFinite h.finite, h.sign, fun _ => h.toIsInt, fun hn => ?_⟩
  have hvalue := h.value
  rw [scaled_of_sign h.sign] at hvalue
  have hmagnitude : b.magnitude = n * one := by exact_mod_cast hvalue
  rw [hmagnitude]
  exact mul_le_mul_right _ hn

theorem IsNat.isIndex (h : b.IsNat n) (hn : n ≤ 2 ^ 53) : b.IsIndex n := ⟨h.exact hn, h.sign⟩

theorem isIndex_ofInt (hn : n ≤ 2 ^ 53) : (ofInt n).IsIndex n :=
  ⟨isInt_ofInt (by omega), (isNat_ofInt hn).sign⟩

theorem IsIndex.add (ha : a.IsIndex m) (hb : b.IsIndex n) (h : m + n ≤ 2 ^ 53) :
    (a.add b).IsIndex (m + n) := by
  refine ⟨?_, (ha.isNat.add hb.isNat).sign⟩
  exact_mod_cast ha.toIsInt.add hb.toIsInt (by omega)

/-! ## Powers of two -/

/-- `2^k`, or infinity. -/
def powerOfTwo (k : ℕ) : Binary64 := pack false (2 ^ k * one)

theorem powerOfTwo_of_le (hk : 1024 ≤ k) : powerOfTwo k = infinity := by
  have hexp := leastExponent_eq
  refine pack_eq_infinity ?_
  rw [two_pow_mul_one, log2_two_pow]
  omega

theorem powerOfTwo_spec (hk : k < 1024) :
    (powerOfTwo k).isFinite = true ∧ (powerOfTwo k).magnitude = 2 ^ k * one := by
  have hexp := leastExponent_eq
  have hlog : log2 (2 ^ k * one) = k + leastExponent := by rw [two_pow_mul_one, log2_two_pow]
  obtain ⟨hfinite, -, hmagnitude⟩ := pack_spec (s := false) (z := 2 ^ k * one) (by omega) (by
    rw [hlog, two_pow_mul_one]
    exact pow_dvd_pow 2 (by omega))
  exact ⟨hfinite, hmagnitude⟩

theorem isNat_powerOfTwo (k : ℕ) : (powerOfTwo k).IsNat (2 ^ k) := by
  refine isNat_pack ?_
  rw [two_pow_mul_one, log2_two_pow]
  exact pow_dvd_pow 2 (sub_le _ _)

theorem magnitude_ofInt (hn : n ≤ 2 ^ 53) : (ofInt n).magnitude = n * one := by
  have hvalue := (isInt_ofInt (n := n) (by omega)).value
  rw [scaled_of_sign (isNat_ofInt hn).sign] at hvalue
  exact_mod_cast hvalue

/-- A small natural times a power of two has 53 significant bits. -/
theorem dvd_mul_powerOfTwo (hc : c ≤ 2 ^ 53) (k : ℕ) :
    2 ^ (log2 (c * 2 ^ k * one) - 52) ∣ c * 2 ^ k * one := by
  by_cases hc0 : c = 0
  · simp [hc0]
  · obtain ⟨-, hdvd⟩ := natAbs_mul_one_spec hc
    rw [show c * 2 ^ k * one = c * one * 2 ^ k by ring,
      log2_mul_two_pow (a := c * one) (Nat.mul_ne_zero hc0 (Nat.two_pow_pos _).ne')]
    by_cases hsmall : log2 (c * one) + k - 52 ≤ k
    · exact Dvd.dvd.mul_left (pow_dvd_pow 2 hsmall) _
    · rw [show log2 (c * one) + k - 52 = (log2 (c * one) - 52) + k by omega, pow_add]
      exact mul_dvd_mul_right hdvd _

theorem mul_of_exact (ha : a.isFinite = true) (hb : b.isFinite = true)
    (hz : a.magnitude * b.magnitude = z * 2 ^ leastExponent) (h : 2 ^ (log2 z - 52) ∣ z) :
    a.mul b = pack (a.negative != b.negative) z := by
  have hround : roundTo 53 leastExponent (z * 2 ^ leastExponent) = z * 2 ^ leastExponent := by
    refine roundTo_of_dvd ?_
    by_cases hz0 : z = 0
    · simp [hz0]
    · rw [log2_mul_two_pow hz0, show max leastExponent (log2 z + leastExponent + 1 - 53) =
        log2 z - 52 + leastExponent by omega, pow_add]
      exact mul_dvd_mul_right h _
  rw [mul, not_isNaN_of_isFinite ha, not_isNaN_of_isFinite hb, ha, hb, Bool.or_self,
    if_neg Bool.false_ne_true, Bool.and_self, if_pos rfl, hz, hround,
    Nat.mul_div_cancel _ (Nat.two_pow_pos _)]

/-- The product of a small natural and a power of two is exact. -/
theorem mul_powerOfTwo_of_lt (hc : c ≤ 2 ^ 53) (hk : k < 1024) :
    (ofInt c).mul (powerOfTwo k) = pack false (c * 2 ^ k * one) := by
  obtain ⟨hfinite, hmagnitude⟩ := powerOfTwo_spec hk
  have hfc : (ofInt c).isFinite = true := (isInt_ofInt (n := c) (by omega)).finite
  have hz : (ofInt c).magnitude * (powerOfTwo k).magnitude =
      c * 2 ^ k * one * 2 ^ leastExponent := by
    rw [magnitude_ofInt hc, hmagnitude, ← one]
    ring
  rw [mul_of_exact hfc hfinite hz (dvd_mul_powerOfTwo hc k), (isNat_ofInt hc).sign,
    (isNat_powerOfTwo k).sign, bne_self_eq_false]

theorem mul_comm (a b : Binary64) : a.mul b = b.mul a := by
  have hsign : (a.negative != b.negative) = (b.negative != a.negative) := by
    cases a.negative <;> cases b.negative <;> rfl
  simp [mul, hsign, or_comm b.isNaN, and_comm b.isFinite, Nat.mul_comm b.magnitude, or_comm (a := b.magnitude = 0)]

theorem mul_powerOfTwo_of_le (hc : c ≤ 2 ^ 53) (hc0 : c ≠ 0) (hk : 1024 ≤ k) :
    (ofInt c).mul (powerOfTwo k) = infinity := by
  have hmag : (ofInt c).magnitude ≠ 0 := by
    rw [magnitude_ofInt hc]
    exact Nat.mul_ne_zero hc0 (Nat.two_pow_pos _).ne'
  have htop : infinity.magnitude ≠ 0 := by
    rw [magnitude_infinity]
    exact (Nat.two_pow_pos _).ne'
  have hnat := isNat_ofInt hc
  have hinf := isNat_infinity (lt_succ_self (2 ^ 53))
  have hfinite : infinity.isFinite = false := by decide +kernel
  rw [powerOfTwo_of_le hk, mul, hnat.number, hinf.number, hnat.sign, hinf.sign, hfinite,
    Bool.or_self, if_neg Bool.false_ne_true, Bool.and_false, if_neg Bool.false_ne_true,
    if_neg (not_or.mpr ⟨hmag, htop⟩), bne_self_eq_false, infinity]

theorem powerOfTwo_mul (k : ℕ) : (powerOfTwo k).mul (ofInt (128 : ℕ)) = powerOfTwo (k + 7) := by
  rw [mul_comm]
  by_cases hk : k < 1024
  · rw [mul_powerOfTwo_of_lt (by decide) hk, powerOfTwo, Nat.pow_add, Nat.mul_comm (2 ^ k)]
  · rw [mul_powerOfTwo_of_le (by decide) (by decide) (Nat.le_of_not_lt hk),
      powerOfTwo_of_le (by omega)]

/-- A digit times a power of two is the number of the product. -/
theorem isNat_mul_powerOfTwo (hc : c ≤ 2 ^ 53) (h : k < 1024 ∨ c ≠ 0) :
    ((ofInt c).mul (powerOfTwo k)).IsNat (c * 2 ^ k) := by
  by_cases hk : k < 1024
  · rw [mul_powerOfTwo_of_lt hc hk]
    exact isNat_pack (dvd_mul_powerOfTwo hc k)
  · have hc0 : c ≠ 0 := h.resolve_left hk
    rw [mul_powerOfTwo_of_le hc hc0 (Nat.le_of_not_lt hk)]
    refine isNat_infinity ?_
    calc 2 ^ 53 < 2 ^ k := Nat.pow_lt_pow_right (by decide) (by omega)
      _ ≤ c * 2 ^ k := Nat.le_mul_of_pos_left _ (pos_of_ne_zero hc0)

theorem isNaN_zero_mul_powerOfTwo (hk : 1024 ≤ k) :
    ((ofInt (0 : ℕ)).mul (powerOfTwo k)).isNaN = true := by
  rw [powerOfTwo_of_le hk]
  decide +kernel

/-! ## Halves -/

/-- `0.5`. -/
def oneHalf : Binary64 := pack false (2 ^ (leastExponent - 1))

/-- `b / 2`, which is the product: both are the number nearest to the half. -/
def half (b : Binary64) : Binary64 := b.mul oneHalf

theorem half_ofInt {m : ℤ} (hm : m.natAbs ≤ 2 ^ 52) : (ofInt (2 * m)).half = ofInt m := by
  have hexp := leastExponent_eq
  have hlog : log2 (2 ^ (leastExponent - 1)) = leastExponent - 1 := log2_two_pow
  obtain ⟨hfinite, hsign, hmagnitude⟩ := pack_spec (s := false) (z := 2 ^ (leastExponent - 1))
    (by omega) (by rw [hlog]; exact pow_dvd_pow 2 (by omega))
  have hdouble : (2 * m).natAbs ≤ 2 ^ 53 := by omega
  obtain ⟨hlog2, hdvd2⟩ := natAbs_mul_one_spec hdouble
  obtain ⟨hfinite2, hsign2, hmagnitude2⟩ :=
    pack_spec (s := decide (2 * m < 0)) hlog2 hdvd2
  have hz : (2 * m).natAbs * one * 2 ^ (leastExponent - 1) =
      m.natAbs * one * 2 ^ leastExponent := by
    have hpow : 2 ^ leastExponent = 2 ^ (leastExponent - 1) * 2 := by
      rw [← Nat.pow_succ, show (leastExponent - 1).succ = leastExponent by omega]
    rw [Int.natAbs_mul, hpow, show (2 : ℤ).natAbs = 2 from rfl]
    ring
  have hneg : decide (2 * m < 0) = decide (m < 0) := by
    simp only [decide_eq_decide]
    omega
  rw [half, oneHalf, ofInt_eq_pack hdouble, ofInt_eq_pack (by omega),
    mul_of_exact hfinite2 hfinite (z := m.natAbs * one) (by rw [hmagnitude2, hmagnitude, hz])
      (natAbs_mul_one_spec (by omega)).2, hsign2, hsign, hneg, bne_false]

/-! ## Numbers from zero on -/

/-- The number is not negative, or no number. -/
def Unsigned (b : Binary64) : Prop := b.isNaN = true ∨ b.negative = false

theorem IsNat.unsigned (h : b.IsNat n) : b.Unsigned := .inr h.sign

theorem Unsigned.sign (h : b.Unsigned) (hb : b.isFinite = true) : b.negative = false := by
  refine h.resolve_left ?_
  rw [not_isNaN_of_isFinite hb]
  exact false_ne_true

theorem isFinite_of_add (h : (a.add b).isFinite = true) : a.isFinite = true ∧ b.isFinite = true := by
  have hnan : nan.isFinite = false := by decide +kernel
  rw [add] at h
  by_cases ha : a.isFinite = true <;> by_cases hb : b.isFinite = true
  · exact ⟨ha, hb⟩
  all_goals
    exfalso
    revert h
    simp only [ha, hb]
    split_ifs <;> simp_all

theorem add_of_sign (ha : a.isFinite = true) (hb : b.isFinite = true) (hsa : a.negative = false)
    (hsb : b.negative = false) :
    a.add b = pack false (roundTo 53 0 (a.magnitude + b.magnitude)) := by
  rw [add_of_isFinite ha hb, scaled_of_sign hsa, scaled_of_sign hsb]
  have hneg : decide ((a.magnitude : ℤ) + b.magnitude < 0) = false := decide_eq_false (by omega)
  have habs : ((a.magnitude : ℤ) + b.magnitude).natAbs = a.magnitude + b.magnitude := by omega
  split_ifs with hzero
  · have hsum : a.magnitude + b.magnitude = 0 := by omega
    have hround : roundTo 53 0 0 = 0 := by decide
    have hsqueeze : squeeze 52 0 = 0 := squeeze_of_lt (by decide)
    rw [hsa, Bool.false_and, Bool.false_and, hsum, hround, pack, hsqueeze, zero_min]
  · rw [ofScaled, hneg, habs]

section

variable (ha : a.Unsigned) (hb : b.Unsigned)
include ha hb

theorem Unsigned.add : (a.add b).Unsigned := by
  by_cases hna : a.isNaN = true
  · exact .inl (isNaN_add_left hna b)
  by_cases hnb : b.isNaN = true
  · exact .inl (isNaN_add_right a hnb)
  have hsa := ha.resolve_left hna
  have hsb := hb.resolve_left hnb
  by_cases hfa : a.isFinite = true
  · by_cases hfb : b.isFinite = true
    · rw [add_of_sign hfa hfb hsa hsb]
      exact .inr (negative_pack _ _)
    · right
      rw [Binary64.add]
      simp [hna, hnb, hfa, hfb, hsb]
  · right
    rw [Binary64.add]
    by_cases hfb : b.isFinite = true <;> simp [hna, hnb, hfa, hfb, hsa, hsb]

theorem Unsigned.mul : (a.mul b).Unsigned := by
  have hnan : nan.isNaN = true := isNaN_nan
  by_cases hna : a.isNaN = true
  · left
    rw [Binary64.mul, hna, Bool.true_or, if_pos rfl, hnan]
  by_cases hnb : b.isNaN = true
  · left
    rw [Binary64.mul, hnb, Bool.or_true, if_pos rfl, hnan]
  have hsign : (a.negative != b.negative) = false := by
    rw [ha.resolve_left hna, hb.resolve_left hnb, bne_self_eq_false]
  rw [Binary64.mul, hsign]
  split_ifs
  · exact .inl hnan
  · exact .inr (negative_pack _ _)
  · exact .inl hnan
  · exact .inr (negative_ofPattern (by decide))

theorem scaled_le_add (h : (a.add b).isFinite = true) : a.scaled ≤ (a.add b).scaled := by
  obtain ⟨hfa, hfb⟩ := isFinite_of_add h
  have hsa := ha.sign hfa
  have hsum := add_of_sign hfa hfb hsa (hb.sign hfb)
  have hlog : log2 (roundTo 53 0 (a.magnitude + b.magnitude)) < 2098 := by
    by_contra hlarge
    rw [hsum, pack_eq_infinity (Nat.le_of_not_lt hlarge)] at h
    exact absurd h (by decide +kernel)
  obtain ⟨-, hsign, hmagnitude⟩ := pack_spec (s := false) hlog (dvd_roundTo 52 _)
  rw [hsum, scaled_of_sign hsa, scaled_of_sign hsign, hmagnitude]
  exact_mod_cast le_roundTo_of_dvd (dvd_expand 52 a.pattern) (le_add_right _ _)

/-- Two finite numbers from zero on of one value are one. -/
theorem Unsigned.eq_of_scaled (hfa : a.isFinite = true) (hfb : b.isFinite = true)
    (h : a.scaled = b.scaled) : a = b := by
  by_cases hzero : a.scaled = 0
  · have hzero' : b.scaled = 0 := h ▸ hzero
    rw [eq_zero_of_scaled hzero, eq_zero_of_scaled hzero', ha.sign hfa, hb.sign hfb]
  · exact eq_of_scaled_eq (not_isNaN_of_isFinite hfa) (not_isNaN_of_isFinite hfb) h hzero

end

theorem magnitude_lt_infinity (h : b.isFinite = true) : b.magnitude < infinity.magnitude := by
  have hexp := leastExponent_eq
  have hlt : b.pattern < topPattern := of_decide_eq_true h
  rw [magnitude_infinity, magnitude]
  by_cases hsmall : b.pattern < 2 ^ 52
  · rw [expand_of_lt hsmall]
    exact lt_of_lt_of_le hsmall (Nat.pow_le_pow_right (by decide) (by omega))
  · obtain ⟨k, c, hpattern, hlo, hhi⟩ := normal_of_le (Nat.le_of_not_lt hsmall)
    have hk : k * 2 ^ 52 < 2046 * 2 ^ 52 := by
      rw [topPattern] at hlt
      omega
    have hk' : k < 2046 := Nat.lt_of_mul_lt_mul_right hk
    rw [hpattern, expand_normal hlo hhi]
    calc c * 2 ^ k < 2 ^ 53 * 2 ^ k := (Nat.mul_lt_mul_right (Nat.two_pow_pos k)).mpr hhi
      _ = 2 ^ (53 + k) := (pow_add 2 53 k).symm
      _ ≤ _ := Nat.pow_le_pow_right (by decide) (by omega)

/-- What is at most a finite number from zero on is finite. -/
theorem Unsigned.isFinite_of_le (ha : a.Unsigned) (hb : b.Unsigned) (hfb : b.isFinite = true)
    (h : a.le b = true) : a.isFinite = true := by
  rw [le, and_eq_true, and_eq_true, decide_eq_true_eq] at h
  obtain ⟨⟨hna, -⟩, hle⟩ := h
  have hna : a.isNaN = false := by simpa using hna
  by_contra hfa
  have hpattern : a.pattern = topPattern :=
    le_antisymm (Nat.le_of_not_lt (of_decide_eq_false hna))
      (Nat.le_of_not_lt (of_decide_eq_false (eq_false_of_not_eq_true hfa)))
  have hsa : a.negative = false := ha.resolve_left (by rw [hna]; exact false_ne_true)
  have htop : a.magnitude = infinity.magnitude := by
    rw [magnitude, magnitude, hpattern, infinity, pattern_ofPattern (by decide)]
  have hlt := magnitude_lt_infinity hfb
  rw [scaled_of_sign hsa, scaled_of_sign (hb.sign hfb), htop] at hle
  omega

/-- Of two finite numbers one is at most the other, or it is above it. -/
theorem lt_of_not_le (ha : a.isFinite = true) (hb : b.isFinite = true) (h : a.le b = false) :
    b.lt a = true := by
  rw [le, not_isNaN_of_isFinite ha, not_isNaN_of_isFinite hb] at h
  rw [lt, not_isNaN_of_isFinite ha, not_isNaN_of_isFinite hb]
  simpa using h

theorem lt_trans {c : Binary64} (hab : a.lt b = true) (hbc : b.lt c = true) :
    a.lt c = true := by
  simp only [lt, and_eq_true, not_eq_true', decide_eq_true_eq] at hab hbc ⊢
  exact ⟨⟨hab.1.1, hbc.1.2⟩, hab.2.trans hbc.2⟩

end AdapterWs.Binary64
