import AdapterWs.Lib.Binary64
import AdapterWs.Lib.ByteLength
import AdapterWs.Lib.Decimal

/-!
# The text of a number

`Number::toString` in base ten: the shortest decimal that is read back as the number, the nearest
of these, laid out with a point or with an exponent.
-/

namespace AdapterWs

open JsString

namespace Binary64

/-- The magnitude nearest to `s * 10 ^ e`, in units of the least positive number. -/
def nearestDecimal (s : ℕ) (e : ℤ) : ℕ :=
  let num := s * one * 10 ^ e.toNat
  let den := 10 ^ (-e).toNat
  let k := Nat.log2 (num / den) - 52
  halfEven num (den * 2 ^ k) * 2 ^ k

/-- Where the decimal point is from the first digit of a magnitude. -/
def decimalPoint (z : ℕ) : ℤ :=
  if one ≤ z then (Nat.toDigits 10 (z / one)).length
  else 1 - (Nat.toDigits 10 ((one - 1) / z)).length

/-- Digits of a magnitude on the grid of the exponent `e`, the nearest first. -/
def decimalOf (z : ℕ) (e : ℤ) : Option ℕ :=
  let num := z * 10 ^ (-e).toNat
  let den := one * 10 ^ e.toNat
  [halfEven num den, num / den, num / den + 1].find? fun s => nearestDecimal s e == z

/-- The digits and the exponent of the shortest decimal; seventeen digits are enough. -/
def shortest (z : ℕ) : ℕ × ℤ :=
  ((List.range 17).findSome? fun k =>
    (decimalOf z (decimalPoint z - (k + 1))).map (·, decimalPoint z - (k + 1))).getD (0, 0)

/-- The exponent behind a first digit with the decimal point after the first `n`. -/
def exponentPart (n : ℤ) : JsString :=
  unit 'e' :: (if 0 < n then unit '+' else unit '-') :: decimal (n - 1).natAbs

/-- Digits with the decimal point after the first `n`. -/
def layout (digits : JsString) (n : ℤ) : JsString :=
  let k := digits.length
  if k ≤ n ∧ n ≤ 21 then digits ++ List.replicate (n.toNat - k) (unit '0')
  else if 0 < n ∧ n ≤ 21 then digits.take n.toNat ++ unit '.' :: digits.drop n.toNat
  else if -6 < n ∧ n ≤ 0 then lit "0." ++ List.replicate (-n).toNat (unit '0') ++ digits
  else if k = 1 then digits ++ exponentPart n
  else digits.take 1 ++ unit '.' :: (digits.drop 1 ++ exponentPart n)

/-- `String(b)`. -/
def text (b : Binary64) : JsString :=
  if b.isNaN then lit "NaN"
  else if b.magnitude = 0 then lit "0"
  else
    let sign := if b.negative then lit "-" else []
    if b.isFinite then
      let d := shortest b.magnitude
      let digits := decimal d.1
      sign ++ layout (digits.rdropWhile (· == unit '0')) (digits.length + d.2)
    else sign ++ lit "Infinity"

example : text ⟨0x3fd3333333333334#64⟩ = lit "0.30000000000000004" := by decide +kernel
example : text ⟨0x0000000000000002#64⟩ = lit "1e-323" := by decide +kernel
example : text ⟨0x3fb999999999999a#64⟩ = lit "0.1" := by decide +kernel
example : text (ofInt (-12300)) = lit "-12300" := by decide +kernel

/-! ## ASCII -/

theorem isAscii_decimal (n : ℕ) : IsAscii (decimal n) := by
  intro u hu
  obtain ⟨c, hc, rfl⟩ := List.mem_map.mp hu
  have hdigit := Nat.isDigit_of_mem_toDigits (by decide) (by decide) hc
  simp only [Char.isDigit, Bool.and_eq_true, decide_eq_true_eq] at hdigit
  have hle : c.toNat ≤ 57 := hdigit.2
  rw [unit, UInt16.toNat_ofNat', Nat.mod_eq_of_lt (by omega)]
  omega

theorem isAscii_replicate (n : ℕ) : IsAscii (List.replicate n (unit '0')) := by
  intro c hc
  rw [List.eq_of_mem_replicate hc]
  decide

theorem isAscii_layout {digits : JsString} (h : IsAscii digits) (n : ℤ) :
    IsAscii (layout digits n) := by
  have htake (k : ℕ) : IsAscii (digits.take k) := fun c hc => h c (List.mem_of_mem_take hc)
  have hdrop (k : ℕ) : IsAscii (digits.drop k) := fun c hc => h c (List.mem_of_mem_drop hc)
  have hexponent : IsAscii (exponentPart n) := by
    refine .cons (by decide) (.cons ?_ (isAscii_decimal _))
    split_ifs <;> decide
  rw [layout]
  split_ifs with h1 h2 h3 h4
  · exact h.append (isAscii_replicate _)
  · exact (htake _).append (.cons (by decide) (hdrop _))
  · exact (IsAscii.append (by decide) (isAscii_replicate _)).append h
  · exact h.append hexponent
  · exact (htake _).append (.cons (by decide) ((hdrop _).append hexponent))

theorem ascii_text (b : Binary64) : IsAscii b.text := by
  have hdigits (n : ℕ) : IsAscii ((decimal n).rdropWhile (· == unit '0')) := fun c hc =>
    isAscii_decimal n c ((List.rdropWhile_prefix _ _).subset hc)
  rw [text]
  split_ifs with hnan hzero hneg hfinite
  · decide
  · decide
  · exact IsAscii.append (by decide) (isAscii_layout (hdigits _) _)
  · decide
  · exact IsAscii.append (by decide) (isAscii_layout (hdigits _) _)
  · decide

end Binary64
end AdapterWs
