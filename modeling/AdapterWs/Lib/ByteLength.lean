import AdapterWs.Lib.Utf8

/-!
# The size of UTF-8 text

`Buffer.byteLength`. The text of two strings in a row is the text of each, unless a surrogate pair
is cut between them, so that the sizes of the parts of a JSON text add up.
-/

namespace AdapterWs

open List Bool
namespace JsString

variable {c d : UInt16} {s t : JsString}

/-- `Buffer.byteLength(s)`. -/
def byteLength (s : JsString) : ℕ := (utf8Encode s).length

/-- The bytes of a unit that stands alone. -/
def unitBytes (c : UInt16) : ℕ := if c.toNat < 0x80 then 1 else if c.toNat < 0x800 then 2 else 3

/-- The first unit is a low surrogate. -/
def opensLow : JsString → Bool
  | [] => false
  | c :: _ => isLow c

/-- The units are ASCII. -/
def IsAscii (s : JsString) : Prop := ∀ c ∈ s, c.toNat < 128

instance instDecidableIsAscii (s : JsString) : Decidable (IsAscii s) :=
  List.decidableBAll (fun c : UInt16 => c.toNat < 128) s

theorem IsAscii.append (hs : IsAscii s) (ht : IsAscii t) : IsAscii (s ++ t) := by
  intro c hc
  rcases mem_append.mp hc with hc | hc
  · exact hs c hc
  · exact ht c hc

theorem IsAscii.cons (hc : c.toNat < 128) (hs : IsAscii s) : IsAscii (c :: s) := by
  intro d hd
  rcases mem_cons.mp hd with rfl | hd
  · exact hc
  · exact hs d hd

/-! ## Code points -/

theorem isHigh_iff : isHigh c = true ↔ 0xD800 ≤ c.toNat ∧ c.toNat < 0xDC00 := decide_eq_true_iff

theorem isLow_iff : isLow c = true ↔ 0xDC00 ≤ c.toNat ∧ c.toNat < 0xE000 := decide_eq_true_iff

theorem isLow_of_ascii (h : c.toNat < 128) : isLow c = false := by
  refine eq_false_iff.mpr fun hlow => ?_
  have := isLow_iff.mp hlow
  omega

theorem isHigh_of_ascii (h : c.toNat < 128) : isHigh c = false := by
  refine eq_false_iff.mpr fun hhigh => ?_
  have := isHigh_iff.mp hhigh
  omega

theorem codePoints_pair (hc : isHigh c = true) (hd : isLow d = true) (s : JsString) :
    codePoints (c :: d :: s) = pairPoint c d :: codePoints s := by
  rw [codePoints, hc, hd]
  rfl

theorem codePoints_cons (h : isHigh c = true → opensLow s = false) :
    codePoints (c :: s) = (if isHigh c || isLow c then 0xFFFD else c.toNat) :: codePoints s := by
  cases s with
  | nil => rfl
  | cons d s =>
    have hpair : (isHigh c && isLow d) = false := by
      cases hc : isHigh c with
      | false => rfl
      | true => exact h hc
    rw [codePoints, hpair]
    rfl

/-- No pair is cut where the right string opens with no low surrogate. -/
theorem codePoints_append (s : JsString) (ht : opensLow t = false) :
    codePoints (s ++ t) = codePoints s ++ codePoints t := by
  fun_induction codePoints s with
  | case1 => rfl
  | case2 c => exact codePoints_cons fun _ => ht
  | case3 c d s hpair ih =>
    obtain ⟨hc, hd⟩ := (and_eq_true _ _).mp hpair
    rw [cons_append, cons_append, codePoints_pair hc hd, ih, cons_append]
  | case4 c d s hpair ih =>
    rw [cons_append, codePoints_cons fun hc => ?_, ih, cons_append]
    rw [cons_append, opensLow]
    rw [hc, Bool.true_and] at hpair
    exact eq_false_iff.mpr hpair

theorem utf8Encode_append (s : JsString) (ht : opensLow t = false) :
    utf8Encode (s ++ t) = utf8Encode s ++ utf8Encode t := by
  rw [utf8Encode, codePoints_append s ht, flatMap_append]
  rfl

/-! ## Sizes -/

theorem byteLength_append (s : JsString) (ht : opensLow t = false) :
    byteLength (s ++ t) = byteLength s + byteLength t := by
  rw [byteLength, utf8Encode_append s ht, length_append]
  rfl

theorem length_encodePoint (p : ℕ) : (encodePoint p).length =
    if p < 0x80 then 1 else if p < 0x800 then 2 else if p < 0x10000 then 3 else 4 := by
  rw [encodePoint]
  split_ifs <;> rfl

theorem length_encodePoint_unit (c : UInt16) :
    (encodePoint (if isHigh c || isLow c then 0xFFFD else c.toNat)).length = unitBytes c := by
  have hsize : c.toNat < 65536 := c.toNat_lt
  rw [length_encodePoint, unitBytes]
  by_cases h : (isHigh c || isLow c) = true
  · have hsurrogate : 0xD800 ≤ c.toNat := by
      rcases or_eq_true _ _ ▸ h with hc | hc
      · exact (isHigh_iff.mp hc).1
      · have := (isLow_iff.mp hc).1
        omega
    rw [if_pos h, if_neg (by omega), if_neg (by omega), if_pos (by omega), if_neg (by omega),
      if_neg (by omega)]
  · rw [if_neg h]
    split_ifs <;> omega

theorem byteLength_cons (h : isHigh c = true → opensLow s = false) :
    byteLength (c :: s) = unitBytes c + byteLength s := by
  rw [byteLength, utf8Encode, codePoints_cons h, flatMap_cons, length_append,
    length_encodePoint_unit]
  rfl

theorem byteLength_pair (hc : isHigh c = true) (hd : isLow d = true) (s : JsString) :
    byteLength (c :: d :: s) = 4 + byteLength s := by
  have hlen : (encodePoint (pairPoint c d)).length = 4 := by
    have hle : 0x10000 ≤ pairPoint c d := Nat.le_add_right_of_le (Nat.le_add_right _ _)
    generalize pairPoint c d = p at hle
    rw [length_encodePoint, if_neg (by omega), if_neg (by omega), if_neg (by omega)]
  rw [byteLength, utf8Encode, codePoints_pair hc hd, flatMap_cons, length_append, hlen]
  rfl

theorem unitBytes_of_ascii (h : c.toNat < 128) : unitBytes c = 1 := if_pos h

theorem byteLength_ascii_cons (h : c.toNat < 128) (s : JsString) :
    byteLength (c :: s) = 1 + byteLength s := by
  rw [byteLength_cons fun hc => absurd hc (by rw [isHigh_of_ascii h]; exact false_ne_true),
    unitBytes_of_ascii h]

theorem byteLength_of_ascii (h : IsAscii s) : byteLength s = s.length := by
  induction s with
  | nil => rfl
  | cons c s ih =>
    rw [byteLength_ascii_cons (h c (.head _)),
      ih fun d hd => h d (.tail _ hd), length_cons, add_comm]

theorem opensLow_of_ascii (h : IsAscii s) : opensLow s = false := by
  cases s with
  | nil => rfl
  | cons c s => exact isLow_of_ascii (h c (.head _))

theorem byteLength_ascii_append (h : IsAscii s) (t : JsString) :
    byteLength (s ++ t) = s.length + byteLength t := by
  induction s with
  | nil => rw [nil_append, length_nil, zero_add]
  | cons c s ih =>
    rw [cons_append, byteLength_ascii_cons (h c (.head _)),
      ih fun d hd => h d (.tail _ hd), length_cons]
    omega

/-- The bytes of an ASCII literal, and of what follows. -/
theorem byteLength_lit_append {l : JsString} (hl : IsAscii l) {n : ℕ} (hn : l.length = n)
    (t : JsString) : byteLength (l ++ t) = n + byteLength t := by
  rw [byteLength_ascii_append hl, hn]

theorem byteLength_intercalate {sep : JsString} (hsep : IsAscii sep) (hone : sep.length = 1)
    {parts : List JsString} (hparts : ∀ p ∈ parts, opensLow p = false) :
    byteLength (sep.intercalate parts) = (parts.map byteLength).sum + (parts.length - 1) := by
  induction parts with
  | nil => rfl
  | cons p parts ih =>
    cases parts with
    | nil => simp
    | cons q parts =>
      have hopen : opensLow (sep ++ sep.intercalate (q :: parts)) = false := by
        obtain ⟨c, rfl⟩ := length_eq_one_iff.mp hone
        exact isLow_of_ascii (hsep c (.head _))
      rw [intercalate_cons_cons, append_assoc, byteLength_append _ hopen,
        byteLength_lit_append hsep hone, ih fun r hr => hparts r (.tail _ hr)]
      simp only [map_cons, sum_cons, length_cons]
      omega

theorem unitBytes_le (c : UInt16) : 1 ≤ unitBytes c ∧ unitBytes c ≤ 3 := by
  rw [unitBytes]
  split_ifs <;> omega

theorem byteLength_bounds (s : JsString) :
    s.length ≤ byteLength s ∧ byteLength s ≤ 3 * s.length := by
  fun_induction codePoints s with
  | case1 => exact ⟨le_rfl, le_rfl⟩
  | case2 c =>
    rw [byteLength_cons fun _ => rfl]
    exact unitBytes_le c
  | case3 c d s hpair ih =>
    obtain ⟨hc, hd⟩ := (and_eq_true _ _).mp hpair
    rw [byteLength_pair hc hd, length_cons, length_cons]
    omega
  | case4 c d s hpair ih =>
    have hc := unitBytes_le c
    rw [byteLength_cons fun hc => ?_, length_cons]
    · omega
    · rw [hc, Bool.true_and] at hpair
      exact eq_false_iff.mpr hpair

end JsString
end AdapterWs
