import AdapterWs.Lib.JsString

/-!
# UTF-8 text

`TextEncoder` and `TextDecoder`. The encoder writes `U+FFFD` for a lone surrogate. The decoder
reads byte by byte, writes `U+FFFD` for each maximal ill-formed part, and drops a byte order mark
at the start.
-/

namespace AdapterWs

open List UInt16
namespace JsString

def isHigh (c : UInt16) : Bool := decide (0xD800 ≤ c.toNat ∧ c.toNat < 0xDC00)

def isLow (c : UInt16) : Bool := decide (0xDC00 ≤ c.toNat ∧ c.toNat < 0xE000)

/-- The code point of a surrogate pair. -/
def pairPoint (c d : UInt16) : ℕ := 0x10000 + (c.toNat - 0xD800) * 0x400 + (d.toNat - 0xDC00)

/-- The code points of a string, `U+FFFD` for a lone surrogate. -/
def codePoints : JsString → List ℕ
  | [] => []
  | [c] => [if isHigh c || isLow c then 0xFFFD else c.toNat]
  | c :: d :: s =>
    if isHigh c && isLow d then pairPoint c d :: codePoints s
    else (if isHigh c || isLow c then 0xFFFD else c.toNat) :: codePoints (d :: s)

/-- The code units of a code point. -/
def ofCodePoint (p : ℕ) : JsString :=
  if p < 0x10000 then [UInt16.ofNat p]
  else [UInt16.ofNat (0xD800 + (p - 0x10000) / 0x400), UInt16.ofNat (0xDC00 + (p - 0x10000) % 0x400)]

def ofCodePoints (ps : List ℕ) : JsString := ps.flatMap ofCodePoint

/-- The bytes of a code point. -/
def encodePoint (p : ℕ) : List UInt8 :=
  if p < 0x80 then [UInt8.ofNat p]
  else if p < 0x800 then [UInt8.ofNat (0xC0 + p / 64), UInt8.ofNat (0x80 + p % 64)]
  else if p < 0x10000 then
    [UInt8.ofNat (0xE0 + p / 4096), UInt8.ofNat (0x80 + p / 64 % 64), UInt8.ofNat (0x80 + p % 64)]
  else
    [UInt8.ofNat (0xF0 + p / 262144), UInt8.ofNat (0x80 + p / 4096 % 64),
      UInt8.ofNat (0x80 + p / 64 % 64), UInt8.ofNat (0x80 + p % 64)]

/-- `new TextEncoder().encode(s)`. -/
def utf8Encode (s : JsString) : List UInt8 := (codePoints s).flatMap encodePoint

/-- Where the decoder stands: the bits read of a character, how many bytes it still needs, and
the bounds of the next. -/
structure Decoding where
  point : ℕ
  needed : ℕ
  lower : ℕ
  upper : ℕ

namespace Decoding

/-- Between characters. -/
def idle : Decoding := ⟨0, 0, 0x80, 0xBF⟩

/-- The first byte of a character. -/
def first (b : ℕ) : List ℕ × Decoding :=
  if b < 0x80 then ([b], idle)
  else if 0xC2 ≤ b ∧ b ≤ 0xDF then ([], ⟨b - 0xC0, 1, 0x80, 0xBF⟩)
  else if 0xE0 ≤ b ∧ b ≤ 0xEF then
    ([], ⟨b - 0xE0, 2, if b = 0xE0 then 0xA0 else 0x80, if b = 0xED then 0x9F else 0xBF⟩)
  else if 0xF0 ≤ b ∧ b ≤ 0xF4 then
    ([], ⟨b - 0xF0, 3, if b = 0xF0 then 0x90 else 0x80, if b = 0xF4 then 0x8F else 0xBF⟩)
  else ([0xFFFD], idle)

/-- The next byte. -/
def next (d : Decoding) (b : ℕ) : List ℕ × Decoding :=
  if d.needed = 0 then first b
  else if d.lower ≤ b ∧ b ≤ d.upper then
    let point := d.point * 64 + (b - 0x80)
    if d.needed = 1 then ([point], idle) else ([], ⟨point, d.needed - 1, 0x80, 0xBF⟩)
  else
    -- the byte is read again as the first of a character
    let r := first b
    (0xFFFD :: r.1, r.2)

/-- The code points of the bytes that follow. -/
def run (d : Decoding) : List UInt8 → List ℕ
  | [] => if d.needed = 0 then [] else [0xFFFD]
  | b :: bs => (d.next b.toNat).1 ++ run (d.next b.toNat).2 bs

end Decoding

/-- The code points of a sequence of bytes. -/
def decodePoints (bs : List UInt8) : List ℕ := Decoding.idle.run bs

/-- A byte order mark at the start is dropped. -/
def dropBom : List ℕ → List ℕ
  | [] => []
  | p :: ps => if p = 0xFEFF then ps else p :: ps

/-- `new TextDecoder().decode(bs)`. -/
def utf8Decode (bs : List UInt8) : JsString := ofCodePoints (dropBom (decodePoints bs))

/-- No lone surrogate. -/
def isWellFormed : JsString → Bool
  | [] => true
  | [c] => !isHigh c && !isLow c
  | c :: d :: s =>
    if isHigh c && isLow d then isWellFormed s else !isHigh c && !isLow c && isWellFormed (d :: s)

/-- The text survives the encoder and the decoder. -/
def isText (s : JsString) : Bool := isWellFormed s && !decide (s.head? = some 0xFEFF)

/-! ## Characters -/

/-- A scalar value. -/
def IsScalar (p : ℕ) : Prop := p < 0xD800 ∨ (0xE000 ≤ p ∧ p < 0x110000)

theorem toNat_byte {n : ℕ} (h : n < 256) : (UInt8.ofNat n).toNat = n := by
  rw [UInt8.toNat_ofNat']
  omega

namespace Decoding

theorem run_idle (b : UInt8) (bs : List UInt8) :
    idle.run (b :: bs) = (first b.toNat).1 ++ (first b.toNat).2.run bs := rfl

theorem run_middle {q n lo hi b : ℕ} (hb : b < 256) (hn : 2 ≤ n) (hlo : lo ≤ b) (hhi : b ≤ hi)
    (bs : List UInt8) :
    run ⟨q, n, lo, hi⟩ (UInt8.ofNat b :: bs) =
      run ⟨q * 64 + (b - 0x80), n - 1, 0x80, 0xBF⟩ bs := by
  rw [run, next, toNat_byte hb]
  simp only
  rw [if_neg (by omega), if_pos ⟨hlo, hhi⟩, if_neg (by omega)]
  rfl

theorem run_last {q lo hi b : ℕ} (hb : b < 256) (hlo : lo ≤ b) (hhi : b ≤ hi) (bs : List UInt8) :
    run ⟨q, 1, lo, hi⟩ (UInt8.ofNat b :: bs) = (q * 64 + (b - 0x80)) :: idle.run bs := by
  rw [run, next, toNat_byte hb]
  simp only
  rw [if_neg (by omega), if_pos ⟨hlo, hhi⟩, if_pos trivial]
  rfl

end Decoding

open Decoding in
theorem decodePoints_encodePoint {p : ℕ} (hp : IsScalar p) (bs : List UInt8) :
    decodePoints (encodePoint p ++ bs) = p :: decodePoints bs := by
  simp only [IsScalar] at hp
  rw [encodePoint, decodePoints, decodePoints]
  split_ifs with h1 h2 h3
  · rw [singleton_append, run_idle, toNat_byte (by omega), first, if_pos h1]
    rfl
  · rw [cons_append, singleton_append, run_idle, toNat_byte (by omega), first,
      if_neg (by omega), if_pos (by omega), nil_append,
      run_last (by omega) (by omega) (by omega)]
    exact cons_eq_cons.mpr ⟨by omega, rfl⟩
  · have hlead : first (0xE0 + p / 4096) = ([], ⟨p / 4096, 2,
        if 0xE0 + p / 4096 = 0xE0 then 0xA0 else 0x80,
        if 0xE0 + p / 4096 = 0xED then 0x9F else 0xBF⟩) := by
      rw [first, if_neg (by omega), if_neg (by omega), if_pos (by omega), Nat.add_sub_cancel_left]
    rw [cons_append, cons_append, singleton_append, run_idle,
      toNat_byte (by omega), hlead, nil_append,
      run_middle (by omega) le_rfl (by split_ifs <;> omega) (by split_ifs <;> omega),
      run_last (by omega) (by omega) (by omega)]
    exact cons_eq_cons.mpr ⟨by omega, rfl⟩
  · have hlead : first (0xF0 + p / 262144) = ([], ⟨p / 262144, 3,
        if 0xF0 + p / 262144 = 0xF0 then 0x90 else 0x80,
        if 0xF0 + p / 262144 = 0xF4 then 0x8F else 0xBF⟩) := by
      rw [first, if_neg (by omega), if_neg (by omega), if_neg (by omega), if_pos (by omega),
        Nat.add_sub_cancel_left]
    rw [cons_append, cons_append, cons_append, singleton_append, run_idle,
      toNat_byte (by omega), hlead, nil_append,
      run_middle (by omega) (by omega) (by split_ifs <;> omega) (by split_ifs <;> omega),
      run_middle (by omega) le_rfl (by omega) (by omega),
      run_last (by omega) (by omega) (by omega)]
    exact cons_eq_cons.mpr ⟨by omega, rfl⟩

theorem decodePoints_flatMap {ps : List ℕ} (h : ∀ p ∈ ps, IsScalar p) :
    decodePoints (ps.flatMap encodePoint) = ps := by
  induction ps with
  | nil => rfl
  | cons p ps ih =>
    rw [flatMap_cons, decodePoints_encodePoint (h p (.head _)),
      ih fun q hq => h q (.tail _ hq)]

/-! ## Texts -/

theorem pairPoint_spec {c d : UInt16} (hc : isHigh c = true) (hd : isLow d = true) :
    IsScalar (pairPoint c d) ∧ ofCodePoint (pairPoint c d) = [c, d] := by
  simp only [isHigh, isLow, decide_eq_true_eq] at hc hd
  have hpoint : pairPoint c d = 0x10000 + (c.toNat - 0xD800) * 0x400 + (d.toNat - 0xDC00) := rfl
  generalize pairPoint c d = q at hpoint
  have hhi : 0xD800 + (q - 0x10000) / 0x400 = c.toNat := by omega
  have hlo : 0xDC00 + (q - 0x10000) % 0x400 = d.toNat := by omega
  refine ⟨.inr (by omega), ?_⟩
  rw [ofCodePoint, if_neg (by omega), hhi, hlo, UInt16.ofNat_toNat, UInt16.ofNat_toNat]

theorem unitPoint_spec {c : UInt16} (hc : isHigh c = false) (hd : isLow c = false) :
    IsScalar c.toNat ∧ ofCodePoint c.toNat = [c] := by
  have hlt : c.toNat < 65536 := c.toNat_lt
  simp only [isHigh, isLow, decide_eq_false_iff_not] at hc hd
  refine ⟨?_, ?_⟩
  · simp only [IsScalar]
    omega
  · rw [ofCodePoint, if_pos hlt, UInt16.ofNat_toNat]

variable {s : JsString}

/-- The code points of a string without lone surrogates are its own. -/
theorem codePoints_spec (h : isWellFormed s = true) :
    (∀ p ∈ codePoints s, IsScalar p) ∧ ofCodePoints (codePoints s) = s := by
  fun_induction isWellFormed s with
  | case1 => exact ⟨forall_mem_nil _, rfl⟩
  | case2 c =>
    simp only [Bool.and_eq_true, Bool.not_eq_true'] at h
    obtain ⟨hscalar, hunit⟩ := unitPoint_spec h.1 h.2
    simp only [codePoints, h.1, h.2, Bool.or_self, Bool.false_eq_true, if_false]
    refine ⟨fun p hp => mem_singleton.mp hp ▸ hscalar, ?_⟩
    simpa [ofCodePoints] using hunit
  | case3 c d s hpair ih =>
    obtain ⟨hscalars, htext⟩ := ih h
    have hparts := (Bool.and_eq_true _ _).mp hpair
    obtain ⟨hscalar, hunits⟩ := pairPoint_spec hparts.1 hparts.2
    rw [codePoints, if_pos hpair]
    refine ⟨fun p hp => ?_, ?_⟩
    · rcases mem_cons.mp hp with heq | hp
      · exact heq ▸ hscalar
      · exact hscalars p hp
    · rw [ofCodePoints, flatMap_cons, hunits, ← ofCodePoints, htext]
      rfl
  | case4 c d s hpair ih =>
    simp only [Bool.and_eq_true, Bool.not_eq_true'] at h
    obtain ⟨hscalars, htext⟩ := ih h.2
    obtain ⟨hscalar, hunit⟩ := unitPoint_spec h.1.1 h.1.2
    have hpoint : (if (isHigh c || isLow c) = true then 0xFFFD else c.toNat) = c.toNat := by
      rw [h.1.1, h.1.2, Bool.or_self, if_neg Bool.false_ne_true]
    rw [codePoints, if_neg hpair, hpoint]
    refine ⟨fun p hp => ?_, ?_⟩
    · rcases mem_cons.mp hp with heq | hp
      · exact heq ▸ hscalar
      · exact hscalars p hp
    · rw [ofCodePoints, flatMap_cons, hunit, ← ofCodePoints, htext]
      rfl

theorem dropBom_codePoints (h : s.head? ≠ some 0xFEFF) : dropBom (codePoints s) = codePoints s := by
  have hunit : ∀ c : UInt16, c ≠ 0xFEFF →
      (if (isHigh c || isLow c) = true then 0xFFFD else c.toNat) ≠ 0xFEFF := by
    intro c hc
    split_ifs
    · decide
    · exact fun heq => hc (UInt16.toNat_inj.mp heq)
  match s with
  | [] => rfl
  | [c] => exact if_neg (hunit c fun hc => h (congrArg some hc))
  | c :: d :: s =>
    have hc : c ≠ 0xFEFF := fun hc => h (congrArg some hc)
    rw [codePoints]
    split_ifs with hpair hlone
    · have hpoint : pairPoint c d = 0x10000 + (c.toNat - 0xD800) * 0x400 + (d.toNat - 0xDC00) :=
        rfl
      generalize pairPoint c d = q at hpoint
      exact if_neg (by omega)
    · rfl
    · exact if_neg fun heq => hc (UInt16.toNat_inj.mp heq)

theorem utf8Decode_utf8Encode (h : isText s = true) : utf8Decode (utf8Encode s) = s := by
  simp only [isText, Bool.and_eq_true, Bool.not_eq_true', decide_eq_false_iff_not] at h
  obtain ⟨hscalars, htext⟩ := codePoints_spec h.1
  rw [utf8Decode, utf8Encode, decodePoints_flatMap hscalars, dropBom_codePoints h.2, htext]

/-! ## Any string -/

theorem isScalar_codePoints (s : JsString) : ∀ p ∈ codePoints s, IsScalar p := by
  have hunit : ∀ c : UInt16, IsScalar (if (isHigh c || isLow c) = true then 0xFFFD else c.toNat) := by
    intro c
    split_ifs with hlone
    · exact .inr (by decide)
    · simp only [Bool.or_eq_true, not_or, Bool.not_eq_true] at hlone
      exact (unitPoint_spec hlone.1 hlone.2).1
  fun_induction codePoints s with
  | case1 => exact forall_mem_nil _
  | case2 c => exact fun p hp => mem_singleton.mp hp ▸ hunit c
  | case3 c d s hpair ih =>
    have hparts := (Bool.and_eq_true _ _).mp hpair
    exact forall_mem_cons.mpr ⟨(pairPoint_spec hparts.1 hparts.2).1, ih⟩
  | case4 c d s hpair ih => exact forall_mem_cons.mpr ⟨hunit c, ih⟩

theorem utf8Decode_utf8Encode_eq (s : JsString) :
    utf8Decode (utf8Encode s) = ofCodePoints (dropBom (codePoints s)) := by
  rw [utf8Decode, utf8Encode, decodePoints_flatMap (isScalar_codePoints s)]

theorem isWellFormed_ofCodePoint_append {p : ℕ} (hp : IsScalar p) (s : JsString) :
    isWellFormed (ofCodePoint p ++ s) = isWellFormed s := by
  simp only [IsScalar] at hp
  rw [ofCodePoint]
  split_ifs with hunit
  · have hnat : (ofNat p).toNat = p := by
      rw [toNat_ofNat']
      omega
    have hhigh : isHigh (ofNat p) = false := by
      rw [isHigh, hnat, decide_eq_false_iff_not]
      omega
    have hlow : isLow (ofNat p) = false := by
      rw [isLow, hnat, decide_eq_false_iff_not]
      omega
    cases s <;> simp [isWellFormed, hhigh, hlow]
  · have hhi : (ofNat (0xD800 + (p - 0x10000) / 0x400)).toNat =
        0xD800 + (p - 0x10000) / 0x400 := by
      rw [toNat_ofNat']
      omega
    have hlo : (ofNat (0xDC00 + (p - 0x10000) % 0x400)).toNat =
        0xDC00 + (p - 0x10000) % 0x400 := by
      rw [toNat_ofNat']
      omega
    have hhigh : isHigh (ofNat (0xD800 + (p - 0x10000) / 0x400)) = true := by
      rw [isHigh, hhi, decide_eq_true_eq]
      omega
    have hlow : isLow (ofNat (0xDC00 + (p - 0x10000) % 0x400)) = true := by
      rw [isLow, hlo, decide_eq_true_eq]
      omega
    rw [cons_append, singleton_append, isWellFormed, hhigh, hlow, Bool.and_self,
      if_pos rfl]

theorem isWellFormed_ofCodePoints {ps : List ℕ} (h : ∀ p ∈ ps, IsScalar p) :
    isWellFormed (ofCodePoints ps) = true := by
  induction ps with
  | nil => rfl
  | cons p ps ih =>
    rw [ofCodePoints, flatMap_cons,
      isWellFormed_ofCodePoint_append (h p (.head _)), ← ofCodePoints]
    exact ih fun q hq => h q (.tail _ hq)

theorem isWellFormed_utf8Decode_utf8Encode (s : JsString) :
    isWellFormed (utf8Decode (utf8Encode s)) = true := by
  rw [utf8Decode_utf8Encode_eq]
  refine isWellFormed_ofCodePoints fun p hp => isScalar_codePoints s p ?_
  revert hp
  cases codePoints s with
  | nil => exact id
  | cons q ps =>
    rw [dropBom]
    split_ifs
    · exact mem_cons_of_mem _
    · exact id

/-- Of a string without lone surrogates, at most a byte order mark is lost. -/
theorem utf8Decode_utf8Encode_of_isWellFormed (h : isWellFormed s = true) :
    isText s = true ∨ s = 0xFEFF :: utf8Decode (utf8Encode s) := by
  by_cases hmark : s.head? = some 0xFEFF
  · right
    obtain ⟨t, rfl⟩ : ∃ t, s = 0xFEFF :: t := by
      cases s with
      | nil => cases hmark
      | cons c t => exact ⟨t, by rw [Option.some.inj hmark]⟩
    have hpoints := isWellFormed_ofCodePoint_append (p := 0xFEFF) (.inr (by decide)) t
    rw [show ofCodePoint 0xFEFF ++ t = 0xFEFF :: t from rfl, h] at hpoints
    have hcons : codePoints (0xFEFF :: t) = 0xFEFF :: codePoints t := by
      cases t <;> rfl
    rw [utf8Decode_utf8Encode_eq, hcons, dropBom, if_pos rfl, (codePoints_spec hpoints.symm).2]
  · left
    rw [isText, h, decide_eq_false hmark]
    rfl

theorem utf8Decode_utf8Encode_iff : utf8Decode (utf8Encode s) = s ↔ isText s = true := by
  refine ⟨fun h => ?_, utf8Decode_utf8Encode⟩
  have hformed := isWellFormed_utf8Decode_utf8Encode s
  rw [h] at hformed
  rcases utf8Decode_utf8Encode_of_isWellFormed hformed with htext | hmark
  · exact htext
  · have hlen := congrArg length hmark
    rw [h, length_cons] at hlen
    omega

end JsString
end AdapterWs
