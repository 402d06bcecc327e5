import AdapterWs.Lib.NumberText

/-!
# JSON texts

What `JSON.stringify` writes for a string and for a number: a string stands between quotes, its
quotes, backslashes, control characters and lone surrogates escaped.
-/

namespace AdapterWs.JsString

variable {c d : UInt16} {s t : JsString}

/-- Four hexadecimal digits. -/
def hexDigits (c : UInt16) : JsString :=
  [4096, 256, 16, 1].map fun place => unit (Nat.digitChar (c.toNat / place % 16))

/-- The units that have an escape of their own. -/
def hasShortEscape (c : UInt16) : Bool :=
  c == 8 || c == 9 || c == 10 || c == 12 || c == 13 || c == 34 || c == 92

/-- The units that are written by their number. -/
def isEscapedByNumber (c : UInt16) : Bool := decide (c.toNat < 32) || isHigh c || isLow c

/-- A unit that stands alone, escaped. -/
def escapeUnit (c : UInt16) : JsString :=
  if c = 8 then lit "\\b"
  else if c = 9 then lit "\\t"
  else if c = 10 then lit "\\n"
  else if c = 12 then lit "\\f"
  else if c = 13 then lit "\\r"
  else if c = 34 then lit "\\\""
  else if c = 92 then lit "\\\\"
  else if isEscapedByNumber c then lit "\\u" ++ hexDigits c
  else [c]

/-- The units of a string, escaped. -/
def escape : JsString → JsString
  | [] => []
  | [c] => escapeUnit c
  | c :: d :: s =>
    if isHigh c && isLow d then c :: d :: escape s else escapeUnit c ++ escape (d :: s)

/-- `JSON.stringify(s)` of a string. -/
def quote (s : JsString) : JsString := lit "\"" ++ escape s ++ lit "\""

/-- `JSON.stringify(b)` of a number. -/
def jsonNumber (b : Binary64) : JsString := if b.isFinite then b.text else lit "null"

/-- The bytes of a unit that stands alone, escaped. -/
def escapedUnitSize (c : UInt16) : ℕ :=
  if hasShortEscape c then 2 else if isEscapedByNumber c then 6 else unitBytes c

/-- The bytes of a string once it is escaped. -/
def escapedSize : JsString → ℕ
  | [] => 0
  | [c] => escapedUnitSize c
  | c :: d :: s =>
    if isHigh c && isLow d then 4 + escapedSize s else escapedUnitSize c + escapedSize (d :: s)

/-! ## Units -/

theorem isAscii_hexDigits (c : UInt16) : IsAscii (hexDigits c) := by
  intro u hu
  obtain ⟨place, -, rfl⟩ := List.mem_map.mp hu
  have hall : ∀ n < 16, (unit (Nat.digitChar n)).toNat < 128 := by decide
  exact hall _ (Nat.mod_lt _ (by decide))

/-- What stands alone is written as ASCII or as itself. -/
theorem escapeUnit_cases (c : UInt16) :
    (hasShortEscape c = true ∧ IsAscii (escapeUnit c) ∧ (escapeUnit c).length = 2) ∨
    (hasShortEscape c = false ∧ isEscapedByNumber c = true ∧ IsAscii (escapeUnit c) ∧
      (escapeUnit c).length = 6) ∨
    (hasShortEscape c = false ∧ isEscapedByNumber c = false ∧ escapeUnit c = [c]) := by
  by_cases hshort : hasShortEscape c = true
  · refine .inl ⟨hshort, ?_⟩
    simp only [hasShortEscape, Bool.or_eq_true, beq_iff_eq] at hshort
    rcases hshort with (((((h | h) | h) | h) | h) | h) | h <;> rw [h] <;> decide
  · rw [Bool.not_eq_true] at hshort
    refine .inr ?_
    have hne := hshort
    simp only [hasShortEscape, Bool.or_eq_false_iff, beq_eq_false_iff_ne] at hne
    obtain ⟨⟨⟨⟨⟨⟨h1, h2⟩, h3⟩, h4⟩, h5⟩, h6⟩, h7⟩ := hne
    rw [escapeUnit, if_neg h1, if_neg h2, if_neg h3, if_neg h4, if_neg h5, if_neg h6, if_neg h7]
    cases hnum : isEscapedByNumber c with
    | true =>
      rw [if_pos rfl]
      exact .inl ⟨hshort, rfl, IsAscii.append (by decide) (isAscii_hexDigits c), rfl⟩
    | false =>
      rw [if_neg Bool.false_ne_true]
      exact .inr ⟨hshort, rfl, rfl⟩

theorem not_isHigh_of_plain (h : isEscapedByNumber c = false) : isHigh c = false := by
  rw [isEscapedByNumber, Bool.or_eq_false_iff, Bool.or_eq_false_iff] at h
  exact h.1.2

/-- The bytes of a unit that stands alone, and of what follows. -/
theorem byteLength_escapeUnit_append (c : UInt16) (t : JsString) :
    byteLength (escapeUnit c ++ t) = escapedUnitSize c + byteLength t := by
  rw [escapedUnitSize]
  rcases escapeUnit_cases c with
    ⟨hshort, hascii, hlen⟩ | ⟨hshort, hnum, hascii, hlen⟩ | ⟨hshort, hnum, heq⟩
  · rw [byteLength_ascii_append hascii, hlen, hshort]
    rfl
  · rw [byteLength_ascii_append hascii, hlen, hshort, hnum]
    rfl
  · rw [heq, hshort, hnum, List.singleton_append, byteLength_cons fun hc => ?_]
    · rfl
    · rw [not_isHigh_of_plain hnum] at hc
      cases hc

/-! ## Strings -/

theorem byteLength_escape (s : JsString) : byteLength (escape s) = escapedSize s := by
  fun_induction escape s with
  | case1 => rfl
  | case2 c =>
    rw [← List.append_nil (escapeUnit c), byteLength_escapeUnit_append]
    rfl
  | case3 c d s hpair ih =>
    obtain ⟨hc, hd⟩ := (Bool.and_eq_true _ _).mp hpair
    rw [byteLength_pair hc hd, escapedSize, if_pos hpair, ih]
  | case4 c d s hpair ih =>
    rw [byteLength_escapeUnit_append, escapedSize, if_neg hpair, ih]

theorem byteLength_quote (s : JsString) : byteLength (quote s) = 2 + escapedSize s := by
  have hquote : IsAscii (lit "\"") := by decide
  rw [quote, byteLength_append _ (opensLow_of_ascii hquote), byteLength_ascii_append hquote,
    byteLength_escape, byteLength_of_ascii hquote]
  change 1 + escapedSize s + 1 = 2 + escapedSize s
  omega

end AdapterWs.JsString
