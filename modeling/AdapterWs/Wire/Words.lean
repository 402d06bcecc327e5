import AdapterWs.Wire.BitStream

/-!
# Double words

The pattern of a number is carried as two words of 32 bits. Bits are counted from the most
significant one, and a span of them is written and read bit by bit.
-/

namespace AdapterWs.Wire

open Throwing BitVec

/-- Two words of 32 bits. -/
@[ext] structure Words where
  hi : BitVec 32
  lo : BitVec 32
  deriving DecidableEq

/-- `f64ToWords(v)`. -/
def f64ToWords (v : Binary64) : Words := ⟨v.bits.extractLsb' 32 32, v.bits.extractLsb' 0 32⟩

/-- `wordsToF64(hi, lo)`. -/
def wordsToF64 (w : Words) : Binary64 := ⟨w.hi ++ w.lo⟩

/-- `Math.clz32(x)`. -/
def clz32 (x : BitVec 32) : ℕ := if x = 0 then 32 else 31 - Nat.log2 x.toNat

/-- `ctz32(x)`. -/
def ctz32 (x : BitVec 32) : ℕ := 31 - clz32 (x &&& -x)

namespace Words

/-- `bitAt(hi, lo, p)`. -/
def bitAt (w : Words) (p : ℕ) : Bool :=
  if p < 32 then w.hi.getLsbD (31 - p) else w.lo.getLsbD (63 - p)

def xor (v w : Words) : Words := ⟨v.hi ^^^ w.hi, v.lo ^^^ w.lo⟩

/-- `clz64(hi, lo)`. -/
def clz64 (w : Words) : ℕ :=
  if w.hi ≠ 0 then clz32 w.hi else if w.lo ≠ 0 then 32 + clz32 w.lo else 64

/-- `ctz64(hi, lo)`. -/
def ctz64 (w : Words) : ℕ :=
  if w.lo ≠ 0 then ctz32 w.lo else if w.hi ≠ 0 then 32 + ctz32 w.hi else 64

/-- The bit at `p` is set. -/
def setBit (w : Words) (p : ℕ) : Words :=
  if p < 32 then { w with hi := w.hi ||| BitVec.twoPow 32 (31 - p) }
  else { w with lo := w.lo ||| BitVec.twoPow 32 (63 - p) }

/-- `writeSpan(bw, hi, lo, start, len)`. -/
def writeSpan (w : Words) (start : ℕ) : ℕ → Bits
  | 0 => []
  | len + 1 => w.bitAt start :: w.writeSpan (start + 1) len

/-- The loop of `readSpan`, from the words read so far. -/
def readSpanFrom (w : Words) (p : ℕ) : ℕ → Throwing Bits Words
  | 0 => pure w
  | len + 1 => do
    let b ← readBit
    readSpanFrom (if b then w.setBit p else w) (p + 1) len

/-- `readSpan(br, start, len)`. -/
def readSpan (start len : ℕ) : Throwing Bits Words := readSpanFrom ⟨0, 0⟩ start len

variable {v w : Words} {p q : ℕ} {x : BitVec 32}

theorem eq_of_bitAt (h : ∀ p < 64, v.bitAt p = w.bitAt p) : v = w := by
  apply Words.ext
  · refine eq_of_getLsbD_eq fun i hi => ?_
    have hbit := h (31 - i) (by omega)
    rwa [bitAt, bitAt, if_pos (by omega), if_pos (by omega), Nat.sub_sub_self (by omega)] at hbit
  · refine eq_of_getLsbD_eq fun i hi => ?_
    have hbit := h (63 - i) (by omega)
    rwa [bitAt, bitAt, if_neg (by omega), if_neg (by omega), Nat.sub_sub_self (by omega)] at hbit

theorem bitAt_setBit (hp : p < 64) (hq : q < 64) :
    (w.setBit p).bitAt q = (w.bitAt q || decide (p = q)) := by
  simp only [setBit, bitAt]
  by_cases hp32 : p < 32
  · by_cases hq32 : q < 32
    · rw [if_pos hp32, if_pos hq32, if_pos hq32, getLsbD_or, getLsbD_twoPow]
      congr 1
      rw [decide_eq_true (by omega : 31 - p < 32), Bool.true_and, decide_eq_decide]
      omega
    · have hne : p ≠ q := by omega
      simp [hp32, hq32, hne]
  · by_cases hq32 : q < 32
    · have hne : p ≠ q := by omega
      simp [hp32, hq32, hne]
    · rw [if_neg hp32, if_neg hq32, if_neg hq32, getLsbD_or, getLsbD_twoPow]
      congr 1
      rw [decide_eq_true (by omega : 63 - p < 32), Bool.true_and, decide_eq_decide]
      omega

theorem bitAt_xor : (v.xor w).bitAt p = (v.bitAt p ^^ w.bitAt p) := by
  simp only [xor, bitAt]
  split_ifs <;> simp

theorem xor_xor : (v.xor w).xor w = v := by
  apply eq_of_bitAt
  intro p _
  rw [bitAt_xor, bitAt_xor, Bool.xor_assoc, Bool.xor_self, Bool.xor_false]

@[simp] theorem bitAt_zero : bitAt ⟨0, 0⟩ p = false := by simp [bitAt]

theorem readSpanFrom_writeSpan (v w : Words) {len : ℕ} (bits : Bits) (hp : p + len ≤ 64) :
    ∃ r, (readSpanFrom v p len).Gives (w.writeSpan p len ++ bits) r bits ∧
      ∀ q < 64, r.bitAt q = (v.bitAt q || decide (p ≤ q ∧ q < p + len) && w.bitAt q) := by
  induction len generalizing v p with
  | zero =>
    refine ⟨v, gives_pure _ _, fun q _ => ?_⟩
    rw [decide_eq_false (by omega), Bool.false_and, Bool.or_false]
  | succ len ih =>
    obtain ⟨r, hread, hr⟩ := ih (if w.bitAt p then v.setBit p else v) (p := p + 1) (by omega)
    refine ⟨r, (gives_readBit _ _).bind hread, fun q hq => ?_⟩
    rw [hr q hq]
    have hset : (if w.bitAt p then v.setBit p else v).bitAt q =
        (v.bitAt q || decide (p = q) && w.bitAt p) := by
      split_ifs with hb
      · rw [bitAt_setBit (by omega) hq, hb, Bool.and_true]
      · rw [Bool.eq_false_of_not_eq_true hb, Bool.and_false, Bool.or_false]
    rw [hset, Bool.or_assoc]
    congr 1
    by_cases heq : p = q
    · subst heq
      simp
    · rw [decide_eq_false heq, Bool.false_and, Bool.false_or]
      congr 1
      rw [decide_eq_decide]
      omega

theorem readSpan_writeSpan {start len : ℕ} (bits : Bits) (hlen : start + len ≤ 64)
    (h : ∀ p < 64, w.bitAt p = true → start ≤ p ∧ p < start + len) :
    (readSpan start len).Gives (w.writeSpan start len ++ bits) w bits := by
  obtain ⟨r, hread, hr⟩ := readSpanFrom_writeSpan ⟨0, 0⟩ w bits hlen
  have heq : r = w := by
    refine eq_of_bitAt fun p hp => ?_
    rw [hr p hp, bitAt_zero, Bool.false_or]
    cases hb : w.bitAt p with
    | false => rw [Bool.and_false]
    | true => rw [decide_eq_true (h p hp hb), Bool.true_and]
  exact heq ▸ hread

/-! ## The zeros around a word -/

theorem log2_lt_of_ne_zero (hx : x ≠ 0) : Nat.log2 x.toNat < 32 :=
  (Nat.log2_lt fun h => hx (eq_of_toNat_eq h)).mpr x.isLt

theorem clz32_spec (hx : x ≠ 0) :
    clz32 x < 32 ∧ x.getLsbD (31 - clz32 x) = true ∧ ∀ i, 31 - clz32 x < i → x.getLsbD i = false := by
  have hne : x.toNat ≠ 0 := fun h => hx (eq_of_toNat_eq h)
  have hlog := log2_lt_of_ne_zero hx
  have hclz : 31 - clz32 x = Nat.log2 x.toNat := by
    rw [clz32, if_neg hx]
    omega
  refine ⟨by rw [clz32, if_neg hx]; omega, ?_, fun i hi => ?_⟩
  · rw [hclz, ← testBit_toNat]
    exact Nat.testBit_log2 hne
  · rw [hclz] at hi
    rw [← testBit_toNat]
    exact Nat.testBit_lt_two_pow ((Nat.log2_lt hne).mp hi)

theorem getLsbD_and_neg {i : ℕ} (hi : i < 32) :
    (x &&& -x).getLsbD i = (x.getLsbD i && !decide (∃ j < i, x.getLsbD j = true)) := by
  rw [getLsbD_and, getLsbD_neg, decide_eq_true hi, Bool.true_and]
  cases x.getLsbD i <;> simp

theorem ctz32_spec (hx : x ≠ 0) :
    ctz32 x < 32 ∧ x.getLsbD (ctz32 x) = true ∧ ∀ i < ctz32 x, x.getLsbD i = false := by
  have hlowest : x &&& -x ≠ 0 := by
    obtain ⟨i, hi, hbit⟩ : ∃ i < 32, x.getLsbD i = true := by
      by_contra hnone
      push Not at hnone
      exact hx (eq_of_getLsbD_eq fun i hi => by simpa using hnone i hi)
    have hex : ∃ i, i < 32 ∧ x.getLsbD i = true := ⟨i, hi, hbit⟩
    obtain ⟨hlt, hset⟩ := Nat.find_spec hex
    intro hzero
    have hnone : ¬∃ j < Nat.find hex, x.getLsbD j = true := by
      rintro ⟨j, hj, hjset⟩
      exact Nat.find_min hex hj ⟨by omega, hjset⟩
    have hlow := getLsbD_and_neg (x := x) hlt
    rw [hzero, hset, decide_eq_false hnone] at hlow
    simp at hlow
  obtain ⟨hlt, hbit, -⟩ := clz32_spec hlowest
  have hctz : ctz32 x < 32 := by
    rw [ctz32]
    omega
  rw [← ctz32, getLsbD_and_neg hctz, Bool.and_eq_true, Bool.not_eq_true'] at hbit
  refine ⟨hctz, hbit.1, fun i hi => ?_⟩
  exact Bool.eq_false_of_not_eq_true fun hset => of_decide_eq_false hbit.2 ⟨i, hi, hset⟩

theorem clz64_spec (hw : w ≠ ⟨0, 0⟩) :
    w.clz64 < 64 ∧ w.bitAt w.clz64 = true ∧ ∀ p < w.clz64, w.bitAt p = false := by
  rw [clz64]
  by_cases hhi : w.hi = 0
  · have hlo : w.lo ≠ 0 := fun h => hw (Words.ext hhi h)
    obtain ⟨hlt, hset, hzeros⟩ := clz32_spec hlo
    rw [if_neg (not_not_intro hhi), if_pos hlo]
    refine ⟨by omega, ?_, fun p hp => ?_⟩
    · rw [bitAt, if_neg (by omega), show 63 - (32 + clz32 w.lo) = 31 - clz32 w.lo by omega]
      exact hset
    · rw [bitAt]
      split_ifs with h32
      · simp [hhi]
      · exact hzeros _ (by omega)
  · obtain ⟨hlt, hset, hzeros⟩ := clz32_spec hhi
    rw [if_pos hhi]
    refine ⟨by omega, ?_, fun p hp => ?_⟩
    · rw [bitAt, if_pos hlt]
      exact hset
    · rw [bitAt, if_pos (by omega)]
      exact hzeros _ (by omega)

theorem ctz64_spec (hw : w ≠ ⟨0, 0⟩) :
    w.ctz64 < 64 ∧ ∀ p < 64, 63 - w.ctz64 < p → w.bitAt p = false := by
  rw [ctz64]
  by_cases hlo : w.lo = 0
  · have hhi : w.hi ≠ 0 := fun h => hw (Words.ext h hlo)
    obtain ⟨hlt, -, hzeros⟩ := ctz32_spec hhi
    rw [if_neg (not_not_intro hlo), if_pos hhi]
    refine ⟨by omega, fun p hp hlast => ?_⟩
    rw [bitAt]
    split_ifs with h32
    · exact hzeros _ (by omega)
    · simp [hlo]
  · obtain ⟨hlt, -, hzeros⟩ := ctz32_spec hlo
    rw [if_pos hlo]
    refine ⟨by omega, fun p hp hlast => ?_⟩
    rw [bitAt, if_neg (by omega)]
    exact hzeros _ (by omega)

theorem span_spec (hw : w ≠ ⟨0, 0⟩) :
    w.clz64 + w.ctz64 < 64 ∧
      ∀ p < 64, w.bitAt p = true → w.clz64 ≤ p ∧ p < w.clz64 + (64 - w.clz64 - w.ctz64) := by
  obtain ⟨hlead, hfirst, hzeros⟩ := clz64_spec hw
  obtain ⟨htrail, hlast⟩ := ctz64_spec hw
  have hsum : w.clz64 + w.ctz64 < 64 := by
    by_contra h
    rw [hlast _ hlead (by omega)] at hfirst
    cases hfirst
  refine ⟨hsum, fun p hp hset => ⟨?_, ?_⟩⟩
  · by_contra h
    rw [hzeros p (by omega)] at hset
    cases hset
  · by_contra h
    rw [hlast p hp (by omega)] at hset
    cases hset

end Words

theorem wordsToF64_f64ToWords (v : Binary64) : wordsToF64 (f64ToWords v) = v := by
  rw [wordsToF64, f64ToWords]
  congr
  exact @extractLsb'_append_extractLsb' 32 32 _

end AdapterWs.Wire
