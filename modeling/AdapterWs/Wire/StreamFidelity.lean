import AdapterWs.Wire.ValueStream
import Mathlib.Algebra.Order.Ring.Abs

/-!
# Fidelity of value streams

The two slots of a series hold the same number, but not always the same zero: on the integer path
the reader computes the sample from a sum, which is never a negative zero. A sample is read as the
number that was written, unless it is an exclusive or with a zero whose sign the reader lost.
-/

namespace AdapterWs.Wire

open Throwing Binary64 Bool

/-! ## Fields of bits -/

theorem readSigned_writeSigned {value : ℤ} {bits : ℕ} (hpos : 0 < bits)
    (hlo : -2 ^ (bits - 1) ≤ value) (hhi : value < 2 ^ (bits - 1)) (rest : Bits) :
    (readSigned bits).Gives (writeSigned value bits ++ rest) value rest := by
  obtain ⟨k, rfl⟩ : ∃ k, bits = k + 1 := ⟨bits - 1, by omega⟩
  rw [Nat.add_sub_cancel] at hlo hhi
  have hpow : (2 : ℤ) ^ (k + 1) = 2 * 2 ^ k := by rw [pow_succ]; ring
  have hnat : (2 : ℕ) ^ (k + 1) = 2 * 2 ^ k := by rw [pow_succ]; ring
  have hcast : ((2 ^ k : ℕ) : ℤ) = 2 ^ k := by push_cast; rfl
  generalize hu : (if value < 0 then value + 2 ^ (k + 1) else value).toNat = u
  have hlt : u < 2 ^ (k + 1) := by
    split_ifs at hu <;> omega
  have hvalue : (if 2 ^ (k + 1 - 1) ≤ u then (u : ℤ) - 2 ^ (k + 1) else u) = value := by
    rw [Nat.add_sub_cancel]
    split_ifs at hu ⊢ <;> omega
  have hread := (readBits_writeBits hlt rest).map
    (g := fun u : ℕ => if 2 ^ (k + 1 - 1) ≤ u then (u : ℤ) - 2 ^ (k + 1) else u)
  rw [hvalue] at hread
  rw [writeSigned, hu]
  exact hread

theorem gives_onBits {α : Type} {x : Throwing Bits α} {bits rest : Bits} {a : α}
    (h : x.Gives bits a rest) (slot : Slot) : (onBits x).Gives (slot, bits) a (slot, rest) := by
  rw [Gives, onBits, Throwing.onPart, show x bits = _ from h]

variable {dod : Binary64}

theorem between_iff (min max : ℤ) {q : ℤ} (hdod : dod.IsInt q) (hmin : min.natAbs ≤ 2 ^ 53)
    (hmax : max.natAbs ≤ 2 ^ 53) : between min max dod = true ↔ min ≤ q ∧ q ≤ max := by
  rw [between, and_eq_true, (isInt_ofInt hmin).le_iff hdod, hdod.le_iff (isInt_ofInt hmax)]

theorem readDod_writeDod {q : ℤ} (hdod : dod.IsInt q) (hlo : -2 ^ 31 ≤ q) (hhi : q < 2 ^ 31)
    (rest : Bits) : readDod.Gives (writeDod dod ++ rest) q rest := by
  have hzero := hdod.strictEq_iff (isInt_ofInt (n := 0) (by decide))
  have h64 := between_iff (-64) 63 hdod (by decide) (by decide)
  have h256 := between_iff (-256) 255 hdod (by decide) (by decide)
  have h2048 := between_iff (-2048) 2047 hdod (by decide) (by decide)
  rw [writeDod, hdod.toInt]
  split_ifs with hz h7 h9 h12
  · rw [hzero.mp hz]
    exact (gives_readBit false rest).bind (gives_pure 0 rest)
  · obtain ⟨hmin, hmax⟩ := h64.mp h7
    exact (gives_readBit true _).bind ((gives_readBit false _).bind
      (readSigned_writeSigned (by decide) (by omega) (by omega) rest))
  · obtain ⟨hmin, hmax⟩ := h256.mp h9
    exact (gives_readBit true _).bind ((gives_readBit true _).bind ((gives_readBit false _).bind
      (readSigned_writeSigned (by decide) (by omega) (by omega) rest)))
  · obtain ⟨hmin, hmax⟩ := h2048.mp h12
    exact (gives_readBit true _).bind ((gives_readBit true _).bind ((gives_readBit true _).bind
      ((gives_readBit false _).bind
        (readSigned_writeSigned (by decide) (by omega) (by omega) rest))))
  · exact (gives_readBit true _).bind ((gives_readBit true _).bind ((gives_readBit true _).bind
      ((gives_readBit true _).bind
        (readSigned_writeSigned (by decide) (by omega) (by omega) rest))))

/-! ## The integer path -/

/-- A difference that grows by less than `2^31` a sample is bounded by the way it has come. -/
def RideBound (p d : ℤ) : Prop :=
  (0 ≤ d → d ^ 2 ≤ 2 ^ 32 * (p + 2 ^ 53)) ∧ (d ≤ 0 → d ^ 2 ≤ 2 ^ 32 * (2 ^ 53 - p))

theorem RideBound.natAbs_le {p d : ℤ} (h : RideBound p d) (hp : p.natAbs < 2 ^ 53) :
    d.natAbs ≤ 2 ^ 43 := by
  have hsq : d ^ 2 ≤ (2 ^ 43) ^ 2 := by
    rcases le_total 0 d with hd | hd
    · have := h.1 hd
      omega
    · have := h.2 hd
      omega
  obtain ⟨hlo, hhi⟩ := abs_le_of_sq_le_sq' hsq (by norm_num)
  omega

theorem RideBound.step {p d d' : ℤ} (h : RideBound p d) (hp : p.natAbs < 2 ^ 53)
    (hlo : -2 ^ 31 ≤ d' - d) (hhi : d' - d < 2 ^ 31) : RideBound (p + d') d' := by
  have hbelow : 0 ≤ p + 2 ^ 53 := by omega
  have habove : 0 ≤ 2 ^ 53 - p := by omega
  constructor
  · intro hd'
    rcases le_total 0 d with hd | hd
    · have hgrown := mul_nonneg hd' (by omega : 0 ≤ 2 ^ 31 - (d' - d))
      nlinarith [h.1 hd, sq_nonneg (d' - d)]
    · have hsmall := mul_nonneg hd' (by omega : 0 ≤ 2 ^ 31 - d')
      nlinarith
  · intro hd'
    rcases le_total 0 d with hd | hd
    · have hsmall := mul_nonneg (neg_nonneg.mpr hd') (by omega : 0 ≤ 2 ^ 31 + d')
      nlinarith
    · have hgrown := mul_nonneg (neg_nonneg.mpr hd') (by omega : 0 ≤ 2 ^ 31 + (d' - d))
      nlinarith [h.2 hd, sq_nonneg (d' - d)]

variable {a b : Binary64}

theorem add_large_one {k : ℕ} (ha : a.isFinite = true) (hb : b.isFinite = true)
    (hlo : 2 ^ k * one ≤ (a.scaled + b.scaled).natAbs)
    (hhi : (a.scaled + b.scaled).natAbs ≤ 2 ^ 56 * one) :
    (a.add b).isFinite = true ∧ 2 ^ k * one ≤ (a.add b).magnitude ∧
      (a.add b).magnitude ≤ 2 * (a.scaled + b.scaled).natAbs := by
  have hexp := leastExponent_eq
  have hpow : 2 ^ k * one = 2 ^ (k + leastExponent) := by rw [one, pow_add]
  have hpos := Nat.two_pow_pos (k + leastExponent)
  rw [hpow] at hlo ⊢
  refine add_large (k := 57 + leastExponent) ha hb (by omega) hlo ?_
  rw [Nat.log2_lt (by omega), pow_add, ← one]
  have hone : 0 < one := Nat.two_pow_pos _
  omega

theorem rideBound_zero {p : ℤ} (hp : p.natAbs < 2 ^ 53) : RideBound p 0 :=
  ⟨fun _ => by omega, fun _ => by omega⟩

/-- A large double difference does not ride the integer path. -/
theorem not_in_range (hfinite : dod.isFinite = true) (hlarge : 2 ^ 52 * one ≤ dod.magnitude) :
    (Binary64.le (.ofInt (-2 ^ 31)) dod && dod.lt (.ofInt (2 ^ 31))) = false := by
  have hlo := isInt_ofInt (n := -2 ^ 31) (by decide)
  have hhi := isInt_ofInt (n := 2 ^ 31) (by decide)
  have hone : 0 < one := Nat.two_pow_pos _
  rw [and_eq_false_iff, Binary64.le, Binary64.lt, not_isNaN_of_isFinite hfinite,
    not_isNaN_of_isFinite hlo.finite, not_isNaN_of_isFinite hhi.finite, hlo.value, hhi.value]
  rw [← natAbs_scaled] at hlarge
  simp only [Bool.not_false, Bool.true_and, decide_eq_false_iff_not]
  omega

theorem scaled_sub_natAbs {d : ℤ} (hb : b.IsInt d) :
    (a.scaled + b.neg.scaled) = a.scaled - d * one := by
  rw [hb.neg.value]
  ring

variable {e : Slot} {v : Binary64}

theorem intPath_spec {delta : Binary64} {d : ℤ} (hdelta : e.prevDelta.IsInt d)
    (hbound : ∀ p, e.prev.IsInt p → p.natAbs < 2 ^ 53 → RideBound p d)
    (hint : intPath e v = some (delta, dod)) :
    ∃ n p, v.IsInt n ∧ e.prev.IsInt p ∧ n.natAbs < 2 ^ 53 ∧ p.natAbs < 2 ^ 53 ∧
      delta.IsInt (n - p) ∧ (n - p).natAbs ≤ 2 ^ 53 ∧ dod.IsInt (n - p - d) ∧
      -2 ^ 31 ≤ n - p - d ∧ n - p - d < 2 ^ 31 := by
  simp only [intPath] at hint
  split_ifs at hint with hsafe hrange
  rw [Option.some.injEq, Prod.mk.injEq] at hint
  obtain ⟨rfl, rfl⟩ := hint
  rw [and_eq_true, isSafeInteger_iff, isSafeInteger_iff] at hsafe
  obtain ⟨⟨n, hn, hnlt⟩, ⟨p, hp, hplt⟩⟩ := hsafe
  have hd := (hbound p hp hplt).natAbs_le hplt
  have hone : 0 < one := Nat.two_pow_pos _
  have hsum : v.scaled + e.prev.neg.scaled = (n - p) * one := by
    rw [hn.value, hp.neg.value]
    ring
  have hsumAbs : (v.scaled + e.prev.neg.scaled).natAbs = (n - p).natAbs * one := by
    rw [hsum, Int.natAbs_mul, Int.natAbs_natCast]
  by_cases hexact : (n - p).natAbs ≤ 2 ^ 53
  · have hdelta' := hn.sub hp hexact
    by_cases hexact' : (n - p - d).natAbs ≤ 2 ^ 53
    · have hdod := hdelta'.sub hdelta hexact'
      rw [and_eq_true, (isInt_ofInt (by decide)).le_iff hdod,
        hdod.lt_iff (isInt_ofInt (by decide))] at hrange
      exact ⟨n, p, hn, hp, hnlt, hplt, hdelta', hexact, hdod, hrange.1, hrange.2⟩
    · -- the double difference is far out of the range
      exfalso
      have hdodAbs : ((v.sub e.prev).scaled + e.prevDelta.neg.scaled).natAbs =
          (n - p - d).natAbs * one := by
        rw [hdelta'.value, hdelta.neg.value, ← add_mul, ← sub_eq_add_neg, Int.natAbs_mul,
          Int.natAbs_natCast]
      have hlarge := add_large_one (k := 53) hdelta'.finite hdelta.neg.finite
        (hdodAbs ▸ Nat.mul_le_mul_right _ (by omega)) (hdodAbs ▸ Nat.mul_le_mul_right _ (by omega))
      rw [← Binary64.sub] at hlarge
      rw [not_in_range hlarge.1 (by omega)] at hrange
      cases hrange
  · -- the difference is far from the previous one
    exfalso
    have hlarge := add_large_one (k := 53) hn.finite hp.neg.finite
      (hsumAbs ▸ Nat.mul_le_mul_right _ (by omega)) (hsumAbs ▸ Nat.mul_le_mul_right _ (by omega))
    rw [← Binary64.sub, hsumAbs] at hlarge
    obtain ⟨hfinite, hlo, hhi⟩ := hlarge
    have hdabs : (d * one).natAbs ≤ 2 ^ 43 * one := by
      rw [Int.natAbs_mul, Int.natAbs_natCast]
      exact Nat.mul_le_mul_right _ hd
    have hnpabs : (n - p).natAbs * one ≤ 2 ^ 54 * one := Nat.mul_le_mul_right _ (by omega)
    rw [← natAbs_scaled] at hlo hhi
    have hlarge := add_large_one (k := 52) hfinite hdelta.neg.finite
      (by rw [scaled_sub_natAbs hdelta]; omega) (by rw [scaled_sub_natAbs hdelta]; omega)
    rw [← Binary64.sub] at hlarge
    rw [not_in_range hlarge.1 hlarge.2.1] at hrange
    cases hrange

/-! ## Negative zeros -/

/-- `-0`. -/
def negZero : Binary64 := .ofPattern true 0

theorem eq_of_scaled_eq_zero (hv : v.scaled = 0) (hvs : v ≠ negZero) : v = .ofPattern false 0 := by
  have heq := eq_zero_of_scaled hv
  cases hneg : v.negative with
  | false => rwa [hneg] at heq
  | true =>
    rw [hneg] at heq
    exact absurd heq hvs

/-- A sum of integers is not the negative zero, unless both are. -/
theorem add_ne_negZero {m n : ℤ} (ha : a.IsInt m) (hb : b.IsInt n) (hsum : (a.add b).IsInt (m + n))
    (hsign : b ≠ negZero) : a.add b ≠ negZero := by
  by_cases hzero : m + n = 0
  · have hscaled : a.scaled + b.scaled = 0 := by
      rw [ha.value, hb.value, ← add_mul, hzero, zero_mul]
    have hfalse : (a.negative && b.negative && a.pattern == 0) = false := by
      rw [eq_false_iff]
      intro htrue
      simp only [and_eq_true, beq_iff_eq] at htrue
      obtain ⟨⟨-, hneg⟩, hpattern⟩ := htrue
      have hbscaled : b.scaled = 0 := by
        have haeq : a = .ofPattern a.negative 0 := by
          rw [← hpattern, ofPattern_pattern]
        have hascaled : a.scaled = 0 := by
          rw [haeq]
          cases a.negative <;> decide +kernel
        omega
      have hbeq := eq_zero_of_scaled hbscaled
      rw [hneg] at hbeq
      exact hsign hbeq
    rw [add_of_isFinite ha.finite hb.finite, if_pos hscaled, hfalse]
    decide +kernel
  · intro hneg
    have hscaled : (a.add b).scaled = 0 := by
      rw [hneg]
      decide +kernel
    rw [hsum.value] at hscaled
    exact hzero ((mul_eq_zero.mp hscaled).resolve_right one_pos.ne')

theorem ofInt_ne_negZero {n : ℤ} (hn : n.natAbs ≤ 2 ^ 53) : Binary64.ofInt n ≠ negZero := by
  by_cases hzero : n = 0
  · subst hzero
    decide +kernel
  · intro hneg
    have hscaled : (Binary64.ofInt n).scaled = 0 := by
      rw [hneg]
      decide +kernel
    rw [(isInt_ofInt hn).value] at hscaled
    exact hzero ((mul_eq_zero.mp hscaled).resolve_right one_pos.ne')

/-! ## The exclusive or -/

variable {d : Slot}

/-- The exclusive or is read, in the window it was written in. -/
theorem readXor_writeXor (hlead : d.wLead = e.wLead) (hlen : d.wLen = e.wLen)
    (hwindow : d.hasWindow = e.hasWindow) (hfits : e.wLead + e.wLen ≤ 64) (x : Words) :
    ∃ d', (∀ rest, (readXor d).Gives (d, (writeXor e x).1 ++ rest)
        (wordsToF64 (x.xor (f64ToWords d.prev))) (d', rest)) ∧
      d' = { d with
        hasWindow := (writeXor e x).2.hasWindow
        wLead := (writeXor e x).2.wLead
        wLen := (writeXor e x).2.wLen } ∧
      (writeXor e x).2.wLead + (writeXor e x).2.wLen ≤ 64 := by
  by_cases hx : x = ⟨0, 0⟩
  · have hvalue : wordsToF64 (x.xor (f64ToWords d.prev)) = d.prev := by
      rw [hx, show Words.xor ⟨0, 0⟩ (f64ToWords d.prev) = f64ToWords d.prev by
        simp [Words.xor], wordsToF64_f64ToWords]
    rw [writeXor, if_pos hx, hvalue]
    refine ⟨d, fun rest =>
      (gives_onBits (gives_readBit false rest) d).bind (gives_pure _ _), ?_, hfits⟩
    simp [← hlead, ← hlen, ← hwindow]
  · obtain ⟨hsum, hspan⟩ := Words.span_spec hx
    simp only [writeXor, if_neg hx]
    split_ifs with hreuse
    · simp only [and_eq_true, decide_eq_true_eq] at hreuse
      refine ⟨d, fun rest => ?_, by simp [← hlead, ← hlen, ← hwindow], hfits⟩
      have hread := @Words.readSpan_writeSpan _ e.wLead e.wLen rest hfits
        fun p hp hset => by have := hspan p hp hset; omega
      rw [← hlead, ← hlen] at hread ⊢
      exact (gives_onBits (gives_readBit true _) d).bind
        ((gives_onBits (gives_readBit false _) d).bind
          ((gives_onBits hread d).bind (gives_pure _ _)))
    · obtain ⟨k, hk⟩ : ∃ k, 64 - x.clz64 - x.ctz64 = k + 1 := ⟨63 - x.clz64 - x.ctz64, by omega⟩
      rw [hk] at hspan ⊢
      have hfit : x.clz64 + (k + 1) ≤ 64 := by omega
      refine ⟨_, fun rest => ?_, rfl, hfit⟩
      have hread := Words.readSpan_writeSpan rest hfit hspan
      simp only [List.cons_append, List.append_assoc, Nat.add_sub_cancel]
      exact (gives_onBits (gives_readBit true _) d).bind
        ((gives_onBits (gives_readBit true _) d).bind
          ((gives_onBits (readBits_writeBits (by omega) _) d).bind
            ((gives_onBits (readBits_writeBits (by omega) _) d).bind
              (Gives.bind (a := ()) rfl ((gives_onBits hread _).bind (gives_pure _ _))))))

/-! ## Agreement -/

namespace Slot

/-- The slots of the two ends hold the same numbers. -/
structure Agree (e d : Slot) : Prop where
  has : d.has = e.has
  hasWindow : d.hasWindow = e.hasWindow
  wLead : d.wLead = e.wLead
  wLen : d.wLen = e.wLen
  fits : e.wLead + e.wLen ≤ 64
  finite : e.prev.isFinite = true
  finite' : d.prev.isFinite = true
  value : d.prev.scaled = e.prev.scaled
  delta : ∃ n, e.prevDelta.IsInt n ∧ d.prevDelta.IsInt n ∧
    ∀ p, e.prev.IsInt p → p.natAbs < 2 ^ 53 → RideBound p n

/-- The sample would be an exclusive or with a zero whose sign the reader lost. -/
def Lost (e d : Slot) (v : Binary64) : Prop :=
  e.has = true ∧ e.prev ≠ d.prev ∧ intPath e v = none ∧ v.scaled ≠ 0

instance (e d : Slot) (v : Binary64) : Decidable (Lost e d v) :=
  inferInstanceAs (Decidable (_ ∧ _ ∧ _ ∧ _))

theorem agree_createStreamSlot : Agree createStreamSlot createStreamSlot := by
  have hzero : (Binary64.ofInt 0).IsInt 0 := isInt_ofInt (by decide)
  exact ⟨rfl, rfl, rfl, rfl, le_rfl, hzero.finite, hzero.finite, rfl, 0, hzero, hzero,
    fun p _ hp => rideBound_zero hp⟩

variable {e d : Slot} {v : Binary64}

/-- A first sample leaves one number, no difference and no window. -/
theorem Agree.first (h : Agree e d) (hv : v.isFinite = true) :
    Agree { e with has := true, prev := v, prevDelta := .ofInt 0, hasWindow := false }
      { d with has := true, prev := v, prevDelta := .ofInt 0, hasWindow := false } := by
  have hzero : (Binary64.ofInt 0).IsInt 0 := isInt_ofInt (by decide)
  exact ⟨rfl, rfl, h.wLead, h.wLen, h.fits, hv, hv, rfl, 0, hzero, hzero,
    fun p _ hp => rideBound_zero hp⟩

theorem Agree.prev_zero (h : Agree e d) (hne : e.prev ≠ d.prev) :
    e.prev.scaled = 0 ∧ d.prev.scaled = 0 := by
  have hzero : e.prev.scaled = 0 := by
    by_contra hn
    exact hne (eq_of_scaled_eq (not_isNaN_of_isFinite h.finite) (not_isNaN_of_isFinite h.finite')
      h.value.symm hn)
  exact ⟨hzero, h.value.trans hzero⟩

end Slot

theorem xor_zeros {c : Binary64} (ha : a.scaled = 0) (hb : b.scaled = 0) (hc : c.scaled = 0) :
    (wordsToF64 (((f64ToWords a).xor (f64ToWords b)).xor (f64ToWords c))).isFinite = true ∧
      (wordsToF64 (((f64ToWords a).xor (f64ToWords b)).xor (f64ToWords c))).scaled = 0 := by
  rw [eq_zero_of_scaled ha, eq_zero_of_scaled hb, eq_zero_of_scaled hc]
  cases a.negative <;> cases b.negative <;> cases c.negative <;> decide +kernel

theorem readStreamValue_first (h : Slot.Agree e d) (hhas : e.has = false) (v : Binary64)
    (rest : Bits) :
    readStreamValue.Gives (d, (writeStreamValue e v).1 ++ rest) v
      ({ d with has := true, prev := v, prevDelta := .ofInt 0, hasWindow := false }, rest) := by
  have hd : d.has = false := h.has.trans hhas
  have hvalue : wordsToF64 ⟨BitVec.ofNat 32 (f64ToWords v).hi.toNat,
      BitVec.ofNat 32 (f64ToWords v).lo.toNat⟩ = v := by
    rw [BitVec.ofNat_toNat, BitVec.ofNat_toNat, BitVec.setWidth_eq, BitVec.setWidth_eq,
      wordsToF64_f64ToWords]
  rw [writeStreamValue, hhas, Bool.not_false, if_pos rfl, List.append_assoc]
  refine Gives.bind (a := d) rfl ?_
  rw [hd, Bool.not_false, if_pos rfl]
  refine (gives_onBits (readBits_writeBits (BitVec.isLt _) _) d).bind
    ((gives_onBits (readBits_writeBits (BitVec.isLt _) _) d).bind ?_)
  rw [hvalue]
  exact Gives.bind (a := ()) rfl (gives_pure _ _)

/-- A sample on the integer path is read as its integer. -/
theorem readStreamValue_int {delta : Binary64} (h : Slot.Agree e d) (hhas : e.has = true)
    (hint : intPath e v = some (delta, dod)) :
    ∃ v' d', (∀ rest, readStreamValue.Gives (d, (writeStreamValue e v).1 ++ rest) v' (d', rest)) ∧
      v'.scaled = v.scaled ∧ Slot.Agree (writeStreamValue e v).2 d' ∧ d'.prev = v' ∧
        v' ≠ negZero := by
  obtain ⟨k, hke, hkd, hbound⟩ := h.delta
  obtain ⟨n, p, hn, hp, hnlt, hplt, hdelta, hdeltaLe, hdod, hlo, hhi⟩ :=
    intPath_spec hke hbound hint
  have hp' : d.prev.IsInt p := ⟨h.finite', h.value.trans hp.value⟩
  have hq : (n - p - k).natAbs ≤ 2 ^ 53 := by omega
  have hnle : n.natAbs ≤ 2 ^ 53 := by omega
  have hdelta' := hkd.add_eq (isInt_ofInt hq) (by ring) hdeltaLe
  have hsign' : d.prevDelta.add (.ofInt (n - p - k)) ≠ negZero := by
    refine add_ne_negZero hkd (isInt_ofInt hq) ?_ (ofInt_ne_negZero hq)
    rwa [add_sub_cancel]
  generalize hsum : d.prevDelta.add (.ofInt (n - p - k)) = delta' at hdelta' hsign' ⊢
  have hv' := hp'.add_eq hdelta' (by ring) hnle
  have hsign : d.prev.add delta' ≠ negZero := by
    refine add_ne_negZero hp' hdelta' ?_ hsign'
    rwa [add_sub_cancel]
  have hwrite : writeStreamValue e v =
      (false :: writeDod dod, { e with prev := v, prevDelta := delta }) := by
    rw [writeStreamValue, hhas, Bool.not_true, if_neg Bool.false_ne_true, hint]
  rw [hwrite]
  refine ⟨d.prev.add delta', { d with prev := d.prev.add delta', prevDelta := delta' },
    fun rest => ?_, hv'.value.trans hn.value.symm,
    ⟨h.has, h.hasWindow, h.wLead, h.wLen, h.fits, hn.finite, hv'.finite,
      hv'.value.trans hn.value.symm, n - p, hdelta, hdelta', fun q hq hqlt => ?_⟩, rfl, hsign⟩
  · refine Gives.bind (a := d) rfl ?_
    rw [h.has.trans hhas, Bool.not_true, if_neg Bool.false_ne_true, List.cons_append]
    refine (gives_onBits (gives_readBit false _) d).bind ?_
    rw [if_neg Bool.false_ne_true]
    refine (gives_onBits (readDod_writeDod hdod hlo hhi rest) d).bind ?_
    rw [hsum]
    exact Gives.bind (a := ()) rfl (gives_pure _ _)
  · have hstep : RideBound (p + (n - p)) (n - p) := (hbound p hp hplt).step hplt hlo hhi
    rw [show p + (n - p) = n by ring] at hstep
    exact hn.unique hq ▸ hstep

/-- A sample off the integer path is read as its exclusive or. -/
theorem readStreamValue_xor (h : Slot.Agree e d) (hhas : e.has = true) (hint : intPath e v = none) :
    let x := (f64ToWords v).xor (f64ToWords e.prev)
    let v' := wordsToF64 (x.xor (f64ToWords d.prev))
    ∃ d', (∀ rest, readStreamValue.Gives (d, (writeStreamValue e v).1 ++ rest) v' (d', rest)) ∧
      d'.prev = v' ∧ (v.isFinite = true → v'.isFinite = true → v'.scaled = v.scaled →
        Slot.Agree (writeStreamValue e v).2 d') := by
  intro x v'
  obtain ⟨d', hread, hd', hfits⟩ :=
    readXor_writeXor h.wLead h.wLen h.hasWindow h.fits x
  have hwrite : writeStreamValue e v = (true :: (writeXor e x).1,
      { (writeXor e x).2 with prev := v, prevDelta := .ofInt 0 }) := by
    rw [writeStreamValue, hhas, Bool.not_true, if_neg Bool.false_ne_true, hint]
  have hkeep : (writeXor e x).2.has = e.has := by
    simp only [writeXor]
    split_ifs <;> rfl
  have hzero : (Binary64.ofInt 0).IsInt 0 := isInt_ofInt (by decide)
  rw [hwrite]
  refine ⟨{ d' with prev := v', prevDelta := .ofInt 0 }, fun rest => ?_, rfl, fun hv hv' hvalue =>
    ⟨?_, ?_, ?_, ?_, hfits, hv, hv', hvalue, 0, hzero, hzero, fun p _ hp => rideBound_zero hp⟩⟩
  · refine Gives.bind (a := d) rfl ?_
    rw [h.has.trans hhas, Bool.not_true, if_neg Bool.false_ne_true, List.cons_append]
    refine (gives_onBits (gives_readBit true _) d).bind ?_
    rw [if_pos rfl]
    exact (hread rest).bind (Gives.bind (a := d') rfl (Gives.bind (a := ()) rfl (gives_pure _ _)))
  · rw [hkeep, hd']
    exact h.has
  · rw [hd']
  · rw [hd']
  · rw [hd']

theorem writeStreamValue_prev (e : Slot) (v : Binary64) : (writeStreamValue e v).2.prev = v := by
  simp only [writeStreamValue]
  split_ifs
  · rfl
  · cases intPath e v <;> rfl

/-- A sample that is not lost is read back, and the slots agree again. -/
theorem readStreamValue_writeStreamValue (h : Slot.Agree e d) (hv : v.isFinite = true)
    (hkept : ¬Slot.Lost e d v) :
    ∃ v' d', (∀ rest, readStreamValue.Gives (d, (writeStreamValue e v).1 ++ rest) v' (d', rest)) ∧
      v'.isFinite = true ∧ v'.scaled = v.scaled ∧ Slot.Agree (writeStreamValue e v).2 d' := by
  cases hhas : e.has with
  | false =>
    refine ⟨v, _, readStreamValue_first h hhas v, hv, rfl, ?_⟩
    rw [writeStreamValue, hhas, Bool.not_false, if_pos rfl]
    exact h.first hv
  | true =>
    cases hint : intPath e v with
    | some r =>
      obtain ⟨v', d', hread, hvalue, hagree, hprev, -⟩ := readStreamValue_int h hhas hint
      exact ⟨v', d', hread, hprev ▸ hagree.finite', hvalue, hagree⟩
    | none =>
      obtain ⟨d', hread, -, hagree⟩ := readStreamValue_xor h hhas hint
      by_cases hprev : e.prev = d.prev
      · rw [← hprev, Words.xor_xor, wordsToF64_f64ToWords] at hread hagree
        exact ⟨v, d', hread, hv, rfl, hagree hv hv rfl⟩
      · -- the signs of the zeros differ, and the sample is a zero as well
        obtain ⟨he, hd⟩ := h.prev_zero hprev
        have hzero : v.scaled = 0 := by
          by_contra hne
          exact hkept ⟨hhas, hprev, hint, hne⟩
        obtain ⟨hfinite, hvalue⟩ := xor_zeros hzero he hd
        exact ⟨_, d', hread, hfinite, hvalue.trans hzero.symm,
          hagree hv hfinite (hvalue.trans hzero.symm)⟩

end AdapterWs.Wire
