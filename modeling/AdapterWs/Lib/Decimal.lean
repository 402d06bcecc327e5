import AdapterWs.Lib.JsString

/-!
# Decimal texts

The text of a natural number, and lists of texts joined by a unit that none of them has.
-/

namespace AdapterWs.JsString

/-- The text of a natural number. -/
def decimal (n : ℕ) : JsString := (Nat.toDigits 10 n).map unit

theorem ofNat_unit {c : Char} (h : c.isDigit = true) : Char.ofNat (unit c).toNat = c := by
  simp only [Char.isDigit, Bool.and_eq_true, decide_eq_true_eq] at h
  have hle : c.toNat ≤ 57 := h.2
  rw [unit, UInt16.toNat_ofNat', Nat.mod_eq_of_lt (by omega)]
  exact Char.ofNat_toNat c

theorem map_decimal (n : ℕ) :
    (decimal n).map (fun u => Char.ofNat u.toNat) = Nat.toDigits 10 n := by
  rw [decimal, List.map_map]
  refine (List.map_congr_left fun c hc => ?_).trans (List.map_id _)
  exact ofNat_unit (Nat.isDigit_of_mem_toDigits (by decide) (by decide) hc)

theorem decimal_injective : Function.Injective decimal := by
  intro m n h
  have hchars : Nat.toDigits 10 m = Nat.toDigits 10 n := by
    rw [← map_decimal, h, map_decimal]
  have hvalue := congrArg (Nat.ofDigitChars 10 · 0) hchars
  simpa using hvalue

theorem isDigit_of_mem_decimal {n : ℕ} {u : UInt16} (h : u ∈ decimal n) :
    (Char.ofNat u.toNat).isDigit = true := by
  obtain ⟨c, hc, rfl⟩ := List.mem_map.mp h
  have hdigit := Nat.isDigit_of_mem_toDigits (by decide) (by decide) hc
  rw [ofNat_unit hdigit]
  exact hdigit

/-- Two lists of texts that a unit joins to the same text are the same. -/
theorem intercalate_injective {sep : UInt16} {parts parts' : List JsString} (hne : parts ≠ [])
    (hne' : parts' ≠ []) (hsep : ∀ p ∈ parts, sep ∉ p) (hsep' : ∀ p ∈ parts', sep ∉ p)
    (h : [sep].intercalate parts = [sep].intercalate parts') : parts = parts' := by
  rw [← split_intercalate hne hsep, h, split_intercalate hne' hsep']

end AdapterWs.JsString
