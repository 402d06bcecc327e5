import Mathlib.Data.BitVec
import Mathlib.Data.Nat.Log
import Mathlib.Tactic.Linarith
import Mathlib.Tactic.Ring

/-!
# Binary64 numbers

The numbers of the language: 64-bit patterns of a sign, an exponent and a fraction. The magnitude
of a finite number is a natural in units of `2^-1074`, the least positive number, so that sums are
exact integers that are then rounded to 53 significant bits, half to even. Narrowing to binary32
rounds to 24 significant bits in units of `2^-149`.
-/

namespace AdapterWs

open Nat

/-! ## Rounding -/

/-- `z / d` rounded to the nearest, half to even. -/
def halfEven (z d : ℕ) : ℕ :=
  z / d + if d < 2 * (z % d) ∨ (d = 2 * (z % d) ∧ z / d % 2 = 1) then 1 else 0

/-- Round to `p` significant bits, and to a multiple of `2^q`. -/
def roundTo (p q z : ℕ) : ℕ :=
  let k := max q (Nat.log2 z + 1 - p)
  halfEven z (2 ^ k) * 2 ^ k

variable {a k : ℕ}

theorem log2_mul_two_pow (ha : a ≠ 0) : log2 (a * 2 ^ k) = log2 a + k := by
  rw [Nat.log2_eq_iff (Nat.mul_ne_zero ha (Nat.two_pow_pos k).ne')]
  obtain ⟨hlo, hhi⟩ := (log2_eq_iff ha).mp rfl
  constructor
  · rw [pow_add]
    exact mul_le_mul_right _ hlo
  · rw [show log2 a + k + 1 = log2 a + 1 + k by omega, pow_add]
    exact (Nat.mul_lt_mul_right (Nat.two_pow_pos k)).mpr hhi

variable {z : ℕ}

theorem halfEven_of_dvd {d : ℕ} (h : d ∣ z) : halfEven z d = z / d := by
  have hmod : z % d = 0 := mod_eq_zero_of_dvd h
  have hbranch : ¬(d < 2 * (z % d) ∨ (d = 2 * (z % d) ∧ z / d % 2 = 1)) := by
    rw [hmod]
    rintro (h | ⟨rfl, h⟩)
    · omega
    · simp at h
  rw [halfEven, if_neg hbranch, add_zero]

theorem roundTo_of_dvd {p q : ℕ} (h : 2 ^ max q (log2 z + 1 - p) ∣ z) : roundTo p q z = z := by
  rw [roundTo, halfEven_of_dvd h, Nat.div_mul_cancel h]

theorem halfEven_le (z d : ℕ) : halfEven z d ≤ z / d + 1 := by
  rw [halfEven]
  split_ifs <;> omega

/-- What is rounded has the significant bits it was rounded to. -/
theorem dvd_roundTo (f z : ℕ) :
    2 ^ (Nat.log2 (roundTo (f + 1) 0 z) - f) ∣ roundTo (f + 1) 0 z := by
  rw [roundTo, Nat.zero_max, Nat.add_sub_add_right]
  generalize hk : log2 z - f = k
  have hlt : z < 2 ^ (f + 1) * 2 ^ k := by
    rw [← pow_add]
    exact lt_of_lt_of_le Nat.lt_log2_self (Nat.pow_le_pow_right (by omega) (by omega))
  have hquot : halfEven z (2 ^ k) ≤ 2 ^ (f + 1) :=
    le_trans (halfEven_le _ _) (Nat.succ_le_of_lt (Nat.div_lt_of_lt_mul (Nat.mul_comm _ _ ▸ hlt)))
  generalize halfEven z (2 ^ k) = q at hquot
  by_cases hq : q = 0
  · simp [hq]
  · rw [log2_mul_two_pow hq]
    by_cases htop : q = 2 ^ (f + 1)
    · rw [htop, log2_two_pow, ← pow_add]
      exact pow_dvd_pow 2 (by omega)
    · have hlog : log2 q < f + 1 := (log2_lt hq).mpr (by omega)
      exact Dvd.dvd.mul_left (pow_dvd_pow 2 (by omega)) q

variable {f : ℕ}

theorem roundTo_le : roundTo (f + 1) 0 z ≤ 2 * z := by
  by_cases hz : z = 0
  · simp [hz, roundTo, halfEven]
  · rw [roundTo, Nat.zero_max, Nat.add_sub_add_right]
    have hle : 2 ^ (log2 z - f) ≤ z :=
      le_trans (Nat.pow_le_pow_right (by omega) (by omega)) (Nat.log2_self_le hz)
    have hmul := Nat.div_mul_le_self z (2 ^ (Nat.log2 z - f))
    have hhalf := Nat.mul_le_mul_right (2 ^ (Nat.log2 z - f)) (halfEven_le z (2 ^ (Nat.log2 z - f)))
    rw [add_mul, one_mul] at hhalf
    omega

theorem div_le_halfEven (z d : ℕ) : z / d ≤ halfEven z d := le_add_right _ _

/-- What has as many bits as a power of two is not rounded below it. -/
theorem le_roundTo {p q j : ℕ} (hq : q ≤ j) (hp : 0 < p) (hz : 2 ^ j ≤ z) :
    2 ^ j ≤ roundTo p q z := by
  have hzpos : z ≠ 0 := by
    have := Nat.two_pow_pos j
    omega
  have hlog : j ≤ log2 z := (le_log2 hzpos).mpr hz
  have hle : max q (log2 z + 1 - p) ≤ log2 z := by omega
  rw [roundTo]
  generalize max q (log2 z + 1 - p) = k at hle
  have hpow : 2 ^ log2 z ≤ z := log2_self_le hzpos
  have hquot : 2 ^ (log2 z - k) ≤ halfEven z (2 ^ k) := by
    refine le_trans ?_ (div_le_halfEven _ _)
    rw [Nat.le_div_iff_mul_le (Nat.two_pow_pos k), ← pow_add, Nat.sub_add_cancel hle]
    exact hpow
  calc 2 ^ j ≤ 2 ^ Nat.log2 z := Nat.pow_le_pow_right (by omega) hlog
    _ = 2 ^ (Nat.log2 z - k) * 2 ^ k := by rw [← pow_add, Nat.sub_add_cancel hle]
    _ ≤ _ := mul_le_mul_right _ hquot

/-! ## Fields of a pattern -/

/-- The magnitude of an exponent and a fraction of `f` bits, in units of the least. -/
def expand (f m : ℕ) : ℕ :=
  if m < 2 ^ f then m else (2 ^ f + m % 2 ^ f) * 2 ^ (m / 2 ^ f - 1)

/-- The exponent and the fraction of a magnitude with `f + 1` significant bits. -/
def squeeze (f z : ℕ) : ℕ := (Nat.log2 z - f) * 2 ^ f + z / 2 ^ (Nat.log2 z - f)

variable {m : ℕ}

theorem expand_of_lt (h : m < 2 ^ f) : expand f m = m := if_pos h

theorem squeeze_of_lt (h : z < 2 ^ (f + 1)) : squeeze f z = z := by
  have hlog : log2 z - f = 0 := by
    by_cases hz : z = 0
    · simp [hz]
    · have := (log2_lt hz).mpr h
      omega
  rw [squeeze, hlog, zero_mul, zero_add, pow_zero, Nat.div_one]

section

variable (hlo : 2 ^ f ≤ a) (hhi : a < 2 ^ (f + 1))
include hlo hhi

/-- The magnitude of an exponent `k + 1` and a fraction. -/
theorem expand_normal : expand f (k * 2 ^ f + a) = a * 2 ^ k := by
  obtain ⟨c, rfl⟩ := Nat.exists_eq_add_of_le hlo
  have hc : c < 2 ^ f := by
    rw [pow_succ] at hhi
    omega
  have hsum : k * 2 ^ f + (2 ^ f + c) = c + 2 ^ f * (k + 1) := by
    rw [mul_succ, mul_comm k]
    omega
  have hge : ¬c + 2 ^ f * (k + 1) < 2 ^ f := by
    rw [mul_succ]
    omega
  rw [hsum, expand, if_neg hge, add_mul_mod_self_left, mod_eq_of_lt hc,
    Nat.add_mul_div_left _ _ (Nat.two_pow_pos f), Nat.div_eq_of_lt hc, zero_add,
    Nat.add_sub_cancel]

theorem log2_normal : log2 (a * 2 ^ k) = f + k := by
  have ha : a ≠ 0 := by
    have := Nat.two_pow_pos f
    omega
  rw [log2_mul_two_pow ha, (log2_eq_iff ha).mpr ⟨hlo, hhi⟩]

theorem squeeze_normal : squeeze f (a * 2 ^ k) = k * 2 ^ f + a := by
  rw [squeeze, log2_normal hlo hhi, Nat.add_sub_cancel_left,
    Nat.mul_div_cancel _ (Nat.two_pow_pos k)]

end

/-- A magnitude with `f + 1` significant bits is below `2^f` or a fraction and an exponent. -/
theorem normal_of_dvd (hz : 2 ^ f ≤ z) (h : 2 ^ (log2 z - f) ∣ z) :
    ∃ k a, z = a * 2 ^ k ∧ 2 ^ f ≤ a ∧ a < 2 ^ (f + 1) := by
  have hzpos : z ≠ 0 := by
    have := Nat.two_pow_pos f
    omega
  obtain ⟨hlo, hhi⟩ := (log2_eq_iff hzpos).mp rfl
  have hf : f ≤ log2 z := (le_log2 hzpos).mpr hz
  obtain ⟨k, hk⟩ := Nat.exists_eq_add_of_le hf
  rw [hk, Nat.add_sub_cancel_left] at h
  obtain ⟨a, ha⟩ := h
  refine ⟨k, a, by rw [ha, mul_comm], ?_, ?_⟩
  · refine (Nat.mul_le_mul_left_iff (Nat.two_pow_pos k)).mp ?_
    rw [← ha, ← pow_add, add_comm, ← hk]
    exact hlo
  · refine (Nat.mul_lt_mul_left (Nat.two_pow_pos k)).mp ?_
    rw [← ha, ← pow_add, show k + (f + 1) = Nat.log2 z + 1 by omega]
    exact hhi

/-- A magnitude of at most `f + 1` significant bits is read back. -/
theorem expand_squeeze (h : 2 ^ (log2 z - f) ∣ z) : expand f (squeeze f z) = z := by
  by_cases hz : z < 2 ^ f
  · rw [squeeze_of_lt (lt_trans hz (Nat.pow_lt_pow_right (by omega) (by omega))), expand_of_lt hz]
  · obtain ⟨k, a, rfl, hlo, hhi⟩ := normal_of_dvd (Nat.le_of_not_lt hz) h
    rw [squeeze_normal hlo hhi, expand_normal hlo hhi]

theorem normal_of_le (h : 2 ^ f ≤ m) : ∃ k a, m = k * 2 ^ f + a ∧ 2 ^ f ≤ a ∧ a < 2 ^ (f + 1) := by
  have hpos := Nat.two_pow_pos f
  have hquot : 1 ≤ m / 2 ^ f := (le_div_iff_mul_le hpos).mpr (by omega)
  obtain ⟨k, hk⟩ := Nat.exists_eq_add_of_le hquot
  have hmod := Nat.mod_lt m hpos
  have hsum := Nat.div_add_mod m (2 ^ f)
  rw [hk, mul_add, mul_one, mul_comm] at hsum
  refine ⟨k, 2 ^ f + m % 2 ^ f, by omega, by omega, ?_⟩
  rw [pow_succ]
  omega

theorem squeeze_expand (f m : ℕ) : squeeze f (expand f m) = m := by
  by_cases hm : m < 2 ^ f
  · rw [expand_of_lt hm, squeeze_of_lt (lt_trans hm (Nat.pow_lt_pow_right (by omega) (by omega)))]
  · obtain ⟨k, a, rfl, hlo, hhi⟩ := normal_of_le (Nat.le_of_not_lt hm)
    rw [expand_normal hlo hhi, squeeze_normal hlo hhi]

/-- A pattern's magnitude has `f + 1` significant bits. -/
theorem dvd_expand (f m : ℕ) : 2 ^ (log2 (expand f m) - f) ∣ expand f m := by
  by_cases hm : m < 2 ^ f
  · rw [expand_of_lt hm]
    have hlog : log2 m - f = 0 := by
      by_cases hz : m = 0
      · simp [hz]
      · have := (log2_lt hz).mpr hm
        omega
    rw [hlog]
    exact one_dvd _
  · obtain ⟨k, a, rfl, hlo, hhi⟩ := normal_of_le (Nat.le_of_not_lt hm)
    rw [expand_normal hlo hhi, log2_normal hlo hhi, Nat.add_sub_cancel_left]
    exact Nat.dvd_mul_left _ _

/-! ## Numbers -/

/-- A number, as its bit pattern. -/
structure Binary64 where
  bits : BitVec 64
  deriving DecidableEq

namespace Binary64

/-- The pattern of infinity, without its sign. -/
def topPattern : ℕ := 2047 * 2 ^ 52

/-- The least positive number is `1` divided by `2` so many times. -/
@[irreducible] def leastExponent : ℕ := 1074

/-- `1` in units of the least positive number. -/
def one : ℕ := 2 ^ leastExponent

/-- The sign bit. -/
def negative (b : Binary64) : Bool := decide (2 ^ 63 ≤ b.bits.toNat)

/-- The exponent and the fraction. -/
def pattern (b : Binary64) : ℕ := b.bits.toNat % 2 ^ 63

/-- The number of a sign, an exponent and a fraction. -/
def ofPattern (negative : Bool) (m : ℕ) : Binary64 :=
  ⟨BitVec.ofNat 64 (negative.toNat * 2 ^ 63 + m)⟩

def isNaN (b : Binary64) : Bool := decide (topPattern < b.pattern)

/-- `Number.isFinite(b)`. -/
def isFinite (b : Binary64) : Bool := decide (b.pattern < topPattern)

/-- The magnitude in units of the least positive number; that of infinity is above all others. -/
def magnitude (b : Binary64) : ℕ := expand 52 b.pattern

/-- The value in units of the least positive number. -/
def scaled (b : Binary64) : ℤ := if b.negative then -b.magnitude else b.magnitude

/-- The number of a magnitude with 53 significant bits, or infinity. -/
def pack (negative : Bool) (z : ℕ) : Binary64 := ofPattern negative (min (squeeze 52 z) topPattern)

/-- The nearest number. -/
def ofScaled (z : ℤ) : Binary64 := pack (decide (z < 0)) (roundTo 53 0 z.natAbs)

def nan : Binary64 := ofPattern false (topPattern + 2 ^ 51)

/-- `-b`. -/
def neg (b : Binary64) : Binary64 := ofPattern (!b.negative) b.pattern

/-- `a + b`. -/
def add (a b : Binary64) : Binary64 :=
  if a.isNaN || b.isNaN then nan
  else if a.isFinite && b.isFinite then
    -- an exact zero is negative only as a sum of two negative zeros
    if a.scaled + b.scaled = 0 then ofPattern (a.negative && b.negative && a.pattern == 0) 0
    else ofScaled (a.scaled + b.scaled)
  else if a.isFinite then b
  else if b.isFinite then a
  else if a.negative = b.negative then a
  else nan

/-- `a - b`. -/
def sub (a b : Binary64) : Binary64 := a.add b.neg

/-- `a < b`. -/
def lt (a b : Binary64) : Bool := !a.isNaN && !b.isNaN && decide (a.scaled < b.scaled)

/-- `a <= b`. -/
def le (a b : Binary64) : Bool := !a.isNaN && !b.isNaN && decide (a.scaled ≤ b.scaled)

/-- `a === b`. -/
def strictEq (a b : Binary64) : Bool := !a.isNaN && !b.isNaN && decide (a.scaled = b.scaled)

/-- The number of an integer. -/
def ofInt (n : ℤ) : Binary64 := ofScaled (n * one)

/-- The integer of a number that is one. -/
def toInt (b : Binary64) : ℤ := b.scaled / one

/-- `Number.isInteger(b)`. -/
def isInteger (b : Binary64) : Bool := b.isFinite && decide (one ∣ b.magnitude)

/-- `Number.isSafeInteger(b)`. -/
def isSafeInteger (b : Binary64) : Bool := b.isInteger && decide (b.magnitude < 2 ^ 53 * one)

/-- The binary32 pattern a number is narrowed to. -/
def toFloat32 (b : Binary64) : BitVec 32 :=
  let top := 255 * 2 ^ 23
  let m :=
    if b.isNaN then top + 2 ^ 22
    else if b.isFinite then min (squeeze 23 (roundTo 24 925 b.magnitude / 2 ^ 925)) top
    else top
  BitVec.ofNat 32 (b.negative.toNat * 2 ^ 31 + m)

/-- The number of a binary32 pattern. -/
def ofFloat32 (v : BitVec 32) : Binary64 :=
  let negative := decide (2 ^ 31 ≤ v.toNat)
  let m := v.toNat % 2 ^ 31
  let top := 255 * 2 ^ 23
  if m = top then ofPattern negative topPattern
  else if top < m then nan
  else pack negative (expand 23 m * 2 ^ 925)

/-- `Math.fround(b)`. -/
def fround (b : Binary64) : Binary64 := ofFloat32 b.toFloat32

example : (ofInt 1).bits = 0x3ff0000000000000#64 := by decide +kernel
example : add ⟨0x3fb999999999999a#64⟩ ⟨0x3fc999999999999a#64⟩ = ⟨0x3fd3333333333334#64⟩ := by
  decide +kernel
example : fround ⟨0x3fb999999999999a#64⟩ = ⟨0x3fb99999a0000000#64⟩ := by decide +kernel

/-! ## Patterns and values -/

theorem pattern_lt (b : Binary64) : b.pattern < 2 ^ 63 := mod_lt _ (by decide)

theorem ofPattern_pattern (b : Binary64) : ofPattern b.negative b.pattern = b := by
  have hlt := b.bits.isLt
  have hbits : b.negative.toNat * 2 ^ 63 + b.pattern = b.bits.toNat := by
    rw [negative, pattern]
    by_cases h : 2 ^ 63 ≤ b.bits.toNat
    · rw [decide_eq_true h, Bool.toNat_true]
      omega
    · rw [decide_eq_false h, Bool.toNat_false]
      omega
  rw [ofPattern, hbits, BitVec.ofNat_toNat, BitVec.setWidth_eq]

variable {s : Bool}

theorem toNat_ofPattern (hm : m < 2 ^ 63) : (ofPattern s m).bits.toNat = s.toNat * 2 ^ 63 + m := by
  rw [ofPattern, BitVec.toNat_ofNat, mod_eq_of_lt]
  cases s <;> simp <;> omega

@[simp] theorem pattern_ofPattern (hm : m < 2 ^ 63) : (ofPattern s m).pattern = m := by
  rw [pattern, toNat_ofPattern hm, mul_add_mod_self_right, mod_eq_of_lt hm]

@[simp] theorem negative_ofPattern (hm : m < 2 ^ 63) : (ofPattern s m).negative = s := by
  rw [negative, toNat_ofPattern hm]
  cases s
  · simpa using hm
  · simp

variable {b : Binary64}

/-- A number is the packing of its magnitude, infinity included. -/
theorem pack_magnitude (h : b.isNaN = false) : pack b.negative b.magnitude = b := by
  have hle : b.pattern ≤ topPattern := Nat.le_of_not_lt (of_decide_eq_false h)
  rw [pack, magnitude, squeeze_expand, min_eq_left hle, ofPattern_pattern]

theorem not_isNaN_of_isFinite (h : b.isFinite = true) : b.isNaN = false :=
  decide_eq_false (not_lt.mpr (of_decide_eq_true h).le)

/-- A finite number is below the magnitude of infinity. -/
theorem squeeze_lt_topPattern (hlog : log2 z < 2098) : squeeze 52 z < topPattern := by
  by_cases hsmall : z < 2 ^ 53
  · rw [squeeze_of_lt hsmall]
    exact lt_of_lt_of_le hsmall (by decide)
  · have hquot : z / 2 ^ (log2 z - 52) < 2 ^ 53 := by
      rw [Nat.div_lt_iff_lt_mul (Nat.two_pow_pos _), ← pow_add]
      exact lt_of_lt_of_le Nat.lt_log2_self (Nat.pow_le_pow_right (by decide) (by omega))
    have hexp : (Nat.log2 z - 52) * 2 ^ 52 ≤ 2045 * 2 ^ 52 :=
      Nat.mul_le_mul_right _ (by omega)
    rw [squeeze]
    simp only [topPattern] at *
    omega

theorem pack_spec (hlog : log2 z < 2098) (h : 2 ^ (log2 z - 52) ∣ z) :
    (pack s z).isFinite = true ∧ (pack s z).negative = s ∧ (pack s z).magnitude = z := by
  have hlt := squeeze_lt_topPattern hlog
  have hpattern : squeeze 52 z < 2 ^ 63 := lt_trans hlt (by decide)
  rw [pack, min_eq_left hlt.le]
  refine ⟨?_, negative_ofPattern hpattern, ?_⟩
  · rw [isFinite, pattern_ofPattern hpattern]
    exact decide_eq_true hlt
  · rw [magnitude, pattern_ofPattern hpattern, expand_squeeze h]

theorem scaled_eq_zero_iff : b.scaled = 0 ↔ b.pattern = 0 := by
  have hmag : b.magnitude = 0 ↔ b.pattern = 0 := by
    constructor
    · intro h
      rw [← squeeze_expand 52 b.pattern, ← magnitude, h]
      rfl
    · intro h
      rw [magnitude, h]
      rfl
  rw [← hmag, scaled]
  split_ifs <;> simp

theorem eq_of_scaled_eq {a : Binary64} (ha : a.isNaN = false) (hb : b.isNaN = false)
    (h : a.scaled = b.scaled) (hne : a.scaled ≠ 0) : a = b := by
  have hparts : a.negative = b.negative ∧ a.magnitude = b.magnitude := by
    simp only [scaled] at h hne
    cases hna : a.negative <;> cases hnb : b.negative <;> simp [hna, hnb] at h hne ⊢ <;> omega
  rw [← pack_magnitude ha, ← pack_magnitude hb, hparts.1, hparts.2]

theorem eq_zero_of_scaled (h : b.scaled = 0) : b = ofPattern b.negative 0 := by
  rw [← scaled_eq_zero_iff.mp h, ofPattern_pattern]

@[simp] theorem scaled_neg (b : Binary64) : b.neg.scaled = -b.scaled := by
  simp only [scaled, neg, magnitude, negative_ofPattern (pattern_lt b),
    pattern_ofPattern (pattern_lt b)]
  cases b.negative <;> simp

@[simp] theorem isFinite_neg (b : Binary64) : b.neg.isFinite = b.isFinite := by
  rw [neg, isFinite, isFinite, pattern_ofPattern (pattern_lt b)]

/-! ## Integers -/

theorem leastExponent_eq : leastExponent = 1074 := by rw [leastExponent]

theorem one_pos : (0 : ℤ) < one := by exact_mod_cast Nat.two_pow_pos leastExponent

theorem log2_mul_one (hz : z ≠ 0) : log2 (z * one) = log2 z + leastExponent :=
  log2_mul_two_pow hz

theorem two_pow_dvd_mul_one (hk : k ≤ leastExponent) (z : ℕ) : 2 ^ k ∣ z * one :=
  Dvd.dvd.mul_left (pow_dvd_pow 2 hk) z

/-- The number is a finite integer. -/
structure IsInt (b : Binary64) (n : ℤ) : Prop where
  finite : b.isFinite = true
  value : b.scaled = n * one

variable {a b : Binary64} {m n : ℤ}

theorem IsInt.unique (h : b.IsInt m) (h' : b.IsInt n) : m = n := by
  have := h.value.symm.trans h'.value
  exact mul_right_cancel₀ one_pos.ne' this

theorem IsInt.toInt (h : b.IsInt n) : b.toInt = n := by
  rw [Binary64.toInt, h.value, Int.mul_ediv_cancel _ one_pos.ne']

theorem IsInt.neg (h : b.IsInt n) : b.neg.IsInt (-n) :=
  ⟨by rw [isFinite_neg, h.finite], by rw [scaled_neg, h.value, neg_mul]⟩

/-- Two patterns of one integer other than zero are one. -/
theorem IsInt.eq (ha : a.IsInt n) (hb : b.IsInt n) (hn : n ≠ 0) : a = b := by
  refine eq_of_scaled_eq (not_isNaN_of_isFinite ha.finite) (not_isNaN_of_isFinite hb.finite)
    (ha.value.trans hb.value.symm) ?_
  rw [ha.value]
  exact mul_ne_zero hn one_pos.ne'

/-- The magnitude of an integer has 53 significant bits up to `2^53`. -/
theorem natAbs_mul_one_spec (hz : z ≤ 2 ^ 53) :
    log2 (z * one) < 2098 ∧ 2 ^ (log2 (z * one) - 52) ∣ z * one := by
  have hexp := leastExponent_eq
  by_cases hz0 : z = 0
  · simp [hz0]
  · rw [log2_mul_one hz0]
    by_cases htop : z = 2 ^ 53
    · rw [htop, log2_two_pow, one, ← pow_add]
      exact ⟨by omega, pow_dvd_pow 2 (by omega)⟩
    · have hlog : log2 z < 53 := (log2_lt hz0).mpr (by omega)
      exact ⟨by omega, two_pow_dvd_mul_one (by omega) z⟩

theorem isInt_ofScaled (hn : n.natAbs ≤ 2 ^ 53) : (ofScaled (n * one)).IsInt n := by
  have habs : (n * one).natAbs = n.natAbs * one := by rw [Int.natAbs_mul, Int.natAbs_natCast]
  obtain ⟨hlog, hdvd⟩ := natAbs_mul_one_spec hn
  have hround : roundTo 53 0 (n * one).natAbs = n.natAbs * one := by
    rw [habs]
    refine roundTo_of_dvd ?_
    rw [zero_max, show log2 (n.natAbs * one) + 1 - 53 = log2 (n.natAbs * one) - 52 by omega]
    exact hdvd
  obtain ⟨hfinite, hnegative, hmagnitude⟩ := pack_spec (s := decide (n * one < 0)) hlog hdvd
  rw [ofScaled, hround]
  refine ⟨hfinite, ?_⟩
  rw [scaled, hnegative, hmagnitude]
  have hpos := one_pos
  by_cases hneg : n * one < 0
  · have hn0 : n < 0 := neg_of_mul_neg_left hneg hpos.le
    rw [if_pos (decide_eq_true hneg), cast_mul, Int.ofNat_natAbs_of_nonpos hn0.le, neg_mul,
      neg_neg]
  · have hn0 : 0 ≤ n := nonneg_of_mul_nonneg_left (not_lt.mp hneg) hpos
    rw [decide_eq_false hneg, if_neg Bool.false_ne_true, cast_mul, Int.natAbs_of_nonneg hn0]

theorem isInt_ofInt (hn : n.natAbs ≤ 2 ^ 53) : (ofInt n).IsInt n := isInt_ofScaled hn

theorem isInt_zero (s : Bool) : (ofPattern s 0).IsInt 0 := by
  refine ⟨?_, ?_⟩
  · rw [isFinite, pattern_ofPattern (Nat.two_pow_pos 63)]
    rfl
  · rw [zero_mul, scaled_eq_zero_iff, pattern_ofPattern (Nat.two_pow_pos 63)]

theorem add_of_isFinite (ha : a.isFinite = true) (hb : b.isFinite = true) :
    a.add b = if a.scaled + b.scaled = 0 then ofPattern (a.negative && b.negative && a.pattern == 0) 0
      else ofScaled (a.scaled + b.scaled) := by
  rw [add, not_isNaN_of_isFinite ha, not_isNaN_of_isFinite hb, ha, hb, Bool.or_self,
    if_neg Bool.false_ne_true, Bool.and_self, if_pos rfl]

theorem IsInt.add (ha : a.IsInt m) (hb : b.IsInt n) (h : (m + n).natAbs ≤ 2 ^ 53) :
    (a.add b).IsInt (m + n) := by
  rw [add_of_isFinite ha.finite hb.finite, ha.value, hb.value, ← add_mul]
  split_ifs with hzero
  · rw [(mul_eq_zero.mp hzero).resolve_right one_pos.ne']
    exact isInt_zero _
  · exact isInt_ofScaled h

theorem IsInt.add_eq {s : ℤ} (ha : a.IsInt m) (hb : b.IsInt n) (hs : m + n = s)
    (h : s.natAbs ≤ 2 ^ 53) : (a.add b).IsInt s := by
  subst hs
  exact ha.add hb h

theorem IsInt.sub (ha : a.IsInt m) (hb : b.IsInt n) (h : (m - n).natAbs ≤ 2 ^ 53) :
    (a.sub b).IsInt (m - n) := by
  rw [sub_eq_add_neg] at h ⊢
  exact ha.add hb.neg h

theorem ofScaled_spec {z : ℤ} (hlog : log2 (roundTo 53 0 z.natAbs) < 2098) :
    (ofScaled z).isFinite = true ∧ (ofScaled z).magnitude = roundTo 53 0 z.natAbs := by
  obtain ⟨hfinite, -, hmagnitude⟩ :=
    pack_spec (s := decide (z < 0)) hlog (dvd_roundTo 52 z.natAbs)
  exact ⟨hfinite, hmagnitude⟩

/-- A sum far from the top stays finite, keeps the power of two it reaches and is not doubled. -/
theorem add_large {j : ℕ} (ha : a.isFinite = true) (hb : b.isFinite = true) (hk : k ≤ 2096)
    (hlo : 2 ^ j ≤ (a.scaled + b.scaled).natAbs) (hhi : log2 (a.scaled + b.scaled).natAbs < k) :
    (a.add b).isFinite = true ∧ 2 ^ j ≤ (a.add b).magnitude ∧
      (a.add b).magnitude ≤ 2 * (a.scaled + b.scaled).natAbs := by
  have hpos := Nat.two_pow_pos j
  have hne : (a.scaled + b.scaled).natAbs ≠ 0 := by omega
  have hround := le_roundTo (p := 53) (zero_le j) (by omega) hlo
  have hlog : log2 (roundTo 53 0 (a.scaled + b.scaled).natAbs) < k + 1 := by
    rw [log2_lt (by omega), pow_succ']
    calc roundTo 53 0 (a.scaled + b.scaled).natAbs
        ≤ 2 * (a.scaled + b.scaled).natAbs := roundTo_le
      _ < 2 * 2 ^ k := (Nat.mul_lt_mul_left (by omega)).mpr ((Nat.log2_lt hne).mp hhi)
  have hbelow : Nat.log2 (roundTo 53 0 (a.scaled + b.scaled).natAbs) < 2098 := by omega
  obtain ⟨hfinite, hmagnitude⟩ := ofScaled_spec hbelow
  have hsum : a.add b = ofScaled (a.scaled + b.scaled) := by
    rw [add_of_isFinite ha hb, if_neg (Int.natAbs_ne_zero.mp hne)]
  rw [hsum, hmagnitude]
  exact ⟨hfinite, hround, roundTo_le⟩

/-! ## Comparing integers -/

theorem IsInt.lt_iff (ha : a.IsInt m) (hb : b.IsInt n) : a.lt b = true ↔ m < n := by
  simp only [lt, not_isNaN_of_isFinite ha.finite, not_isNaN_of_isFinite hb.finite, ha.value,
    hb.value, Bool.not_false, Bool.true_and, decide_eq_true_eq]
  exact mul_lt_mul_iff_left₀ one_pos

theorem IsInt.le_iff (ha : a.IsInt m) (hb : b.IsInt n) : a.le b = true ↔ m ≤ n := by
  simp only [le, not_isNaN_of_isFinite ha.finite, not_isNaN_of_isFinite hb.finite, ha.value,
    hb.value, Bool.not_false, Bool.true_and, decide_eq_true_eq]
  exact mul_le_mul_iff_left₀ one_pos

theorem IsInt.strictEq_iff (ha : a.IsInt m) (hb : b.IsInt n) : a.strictEq b = true ↔ m = n := by
  simp only [strictEq, not_isNaN_of_isFinite ha.finite, not_isNaN_of_isFinite hb.finite, ha.value,
    hb.value, Bool.not_false, Bool.true_and, decide_eq_true_eq]
  exact mul_left_inj' one_pos.ne'

theorem natAbs_scaled (b : Binary64) : b.scaled.natAbs = b.magnitude := by
  rw [scaled]
  split_ifs <;> simp

theorem isSafeInteger_iff : b.isSafeInteger = true ↔ ∃ n, b.IsInt n ∧ n.natAbs < 2 ^ 53 := by
  have hpos : 0 < one := Nat.two_pow_pos _
  constructor
  · intro h
    simp only [isSafeInteger, isInteger, Bool.and_eq_true, decide_eq_true_eq] at h
    obtain ⟨⟨hfinite, z, hz⟩, hlt⟩ := h
    have hz' : z < 2 ^ 53 := by
      rw [hz, mul_comm] at hlt
      exact Nat.lt_of_mul_lt_mul_right hlt
    refine ⟨if b.negative then -z else z, ⟨hfinite, ?_⟩, ?_⟩
    · rw [scaled, hz]
      split_ifs <;> push_cast <;> ring
    · split_ifs <;> simpa using hz'
  · rintro ⟨n, h, hn⟩
    have hmag : b.magnitude = n.natAbs * one := by
      rw [← natAbs_scaled, h.value, Int.natAbs_mul, Int.natAbs_natCast]
    simp only [isSafeInteger, isInteger, Bool.and_eq_true, decide_eq_true_eq, hmag]
    exact ⟨⟨h.finite, Nat.dvd_mul_left _ _⟩, (Nat.mul_lt_mul_right hpos).mpr hn⟩

end Binary64
end AdapterWs
