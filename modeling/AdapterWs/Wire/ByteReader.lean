import AdapterWs.Lib.Machine
import AdapterWs.Lib.Product
import AdapterWs.Wire.Bytes

/-!
# The byte reader

The cursor and a varint of the reader are numbers, so a varint of any length is rounded, grows to
infinity or is no number at all, and goes into the tests of the reads as it is.
-/

namespace AdapterWs.Wire

open JsString Throwing List

/-! ## The buffer -/

/-- A `Uint8Array`. -/
structure ByteBuffer where
  bytes : Bytes
  length_lt : bytes.length < 2 ^ 53

namespace ByteBuffer

variable (buf : ByteBuffer)

/-- `buf.length`. -/
def length : Binary64 := .ofInt (buf.bytes.length : ℕ)

/-- `buf[pos]`, where a number that is no index has nothing. -/
def index (pos : Binary64) : Option UInt8 :=
  if pos.isInteger ∧ 0 ≤ pos.scaled then buf.bytes[pos.toInt.toNat]? else none

/-- An index of `subarray`: no number is `0`, and a negative one counts from the end. -/
def clamp (pos : Binary64) : ℕ :=
  let k := if pos.isNaN then 0 else pos.scaled.tdiv Binary64.one
  if k < 0 then (buf.bytes.length + k).toNat else min k.toNat buf.bytes.length

/-- `buf.subarray(start, stop)`. -/
def subarray (start stop : Binary64) : Bytes :=
  (buf.bytes.take (buf.clamp stop)).drop (buf.clamp start)

/-- The `n` bytes of a `DataView` at a position, or its `RangeError`. -/
def view (n : ℕ) (pos : Binary64) : Option Bytes :=
  let k := if pos.isNaN then 0 else pos.scaled.tdiv Binary64.one
  if 0 ≤ k ∧ k + n ≤ buf.bytes.length then some ((buf.bytes.drop k.toNat).take n) else none

end ByteBuffer

/-! ## The reads -/

/-- What a read returns. -/
inductive ReadValue
  | undefined
  | number (v : Binary64)
  | text (s : JsString)

/-- A byte as a number. -/
def ReadValue.ofByte : Option UInt8 → ReadValue
  | some b => .number (.ofInt b.toNat)
  | none => .undefined

namespace ByteReader

variable (buf : ByteBuffer)

/-- `1`. -/
def unit : Binary64 := .ofInt (1 : ℕ)

theorem isInt_unit : unit.IsInt 1 := Binary64.isInt_ofInt (by decide)

/-- `u8()`, where a missing byte is undefined. -/
def u8 : Throwing Binary64 (Option UInt8) := fun pos =>
  if buf.length.le pos then (none, pos) else (some (buf.index pos), pos.add unit)

end ByteReader

namespace ByteBuffer

variable {buf : ByteBuffer} {pos : Binary64} {n : ℕ}

variable {b : UInt8}

theorem isInt_of_index (h : buf.index pos = some b) :
    ∃ n : ℕ, pos.IsInt n ∧ buf.bytes[n]? = some b := by
  rw [index] at h
  split_ifs at h with hpos
  obtain ⟨hinteger, hsign⟩ := hpos
  rw [Binary64.isInteger, Bool.and_eq_true, decide_eq_true_eq] at hinteger
  obtain ⟨hfinite, z, hz⟩ := hinteger
  have hvalue : pos.scaled = (z : ℤ) * Binary64.one := by
    have habs := Binary64.natAbs_scaled pos
    rw [hz] at habs
    rw [← Int.natAbs_of_nonneg hsign, habs]
    push_cast
    ring
  have hint : pos.IsInt (z : ℕ) := ⟨hfinite, hvalue⟩
  rw [hint.toInt, Int.toNat_natCast] at h
  exact ⟨z, hint, h⟩

theorem index_of_isInt (h : pos.IsInt n) : buf.index pos = buf.bytes[n]? := by
  have hsign : 0 ≤ pos.scaled := by
    rw [h.value]
    positivity
  rw [index, if_pos ⟨h.isInteger, hsign⟩, h.toInt, Int.toNat_natCast]

end ByteBuffer

namespace ByteReader

variable (buf : ByteBuffer)

theorem isInt_next {pos : Binary64} {n : ℕ} (h : pos.IsInt n) (hn : n < 2 ^ 53) :
    (pos.add unit).IsInt (n + 1 : ℕ) := by
  have hsum := h.add isInt_unit (by omega)
  exact_mod_cast hsum

/-- The loop of `varint()`. -/
def varintLoop (pos result mul : Binary64) : Option Binary64 × Binary64 :=
  match h : buf.index pos with
  | none => (none, pos.add unit)
  | some b =>
    let result := result.add ((Binary64.ofInt (b.toNat % 128 : ℕ)).mul mul)
    let mul := mul.mul (.ofInt (128 : ℕ))
    if 0x80 ≤ b.toNat then varintLoop (pos.add unit) result mul
    else (some result, pos.add unit)
termination_by buf.bytes.length - pos.toInt.toNat
decreasing_by
  obtain ⟨n, hpos, hbyte⟩ := ByteBuffer.isInt_of_index h
  obtain ⟨hlt, -⟩ := List.getElem?_eq_some_iff.mp hbyte
  have hbound := buf.length_lt
  rw [(isInt_next hpos (by omega)).toInt, hpos.toInt, Int.toNat_natCast, Int.toNat_natCast]
  omega

/-- `varint()`. -/
def varint : Throwing Binary64 Binary64 := fun pos =>
  match buf.index pos with
  | none => (none, pos)
  | some first =>
    -- a single byte is the common case
    if first.toNat < 0x80 then (some (.ofInt first.toNat), pos.add unit)
    else varintLoop buf pos (.ofInt (0 : ℕ)) unit

/-- The next `n` bytes as a word: `getFloat32` and `getFloat64` behind their test. -/
def word (n : ℕ) (buf : ByteBuffer) : Throwing Binary64 ℕ := fun pos =>
  if buf.length.lt (pos.add (.ofInt n)) then (none, pos)
  else
    match buf.view n pos with
    | none => (none, pos)
    | some bytes => (some (ofBigEndian bytes), pos.add (.ofInt n))

/-- The number of a binary32 word. -/
def ofWord32 (v : ℕ) : Binary64 := .ofFloat32 (BitVec.ofNat 32 v)

/-- The number of a binary64 word. -/
def ofWord64 (v : ℕ) : Binary64 := ⟨BitVec.ofNat 64 v⟩

/-- `f32()`. -/
def f32 : Throwing Binary64 Binary64 := do
  let v ← word 4 buf
  pure (ofWord32 v)

/-- `f64()`. -/
def f64 : Throwing Binary64 Binary64 := do
  let v ← word 8 buf
  pure (ofWord64 v)

/-- The text of so many bytes. -/
def text (len : Binary64) : Throwing Binary64 JsString := fun pos =>
  if buf.length.lt (pos.add len) then (none, pos)
  else (some (utf8Decode (buf.subarray pos (pos.add len))), pos.add len)

/-- `str()`. -/
def str : Throwing Binary64 JsString := do
  let len ← varint buf
  text buf len

end ByteReader

/-- A read. -/
inductive ReadCall
  | u8
  | varint
  | f32
  | f64
  | str
  deriving DecidableEq

/-- A read from a cursor. -/
def ByteReader.read (buf : ByteBuffer) : ReadCall → Throwing Binary64 ReadValue
  | .u8 => do return .ofByte (← u8 buf)
  | .varint => do return .number (← varint buf)
  | .f32 => do return .number (← f32 buf)
  | .f64 => do return .number (← f64 buf)
  | .str => do return .text (← str buf)

/-! ## Groups of seven bits -/

/-- The groups of a varint, and what lies after it. -/
def splitVarint : Bytes → Option (Bytes × Bytes)
  | [] => none
  | b :: bs =>
    if 0x80 ≤ b.toNat then (splitVarint bs).map fun p => (b :: p.1, p.2) else some ([b], bs)

/-- The bytes are the groups of one varint. -/
def IsVarint (g : Bytes) : Prop := splitVarint g = some (g, [])

/-- The natural of the groups. -/
def groupValue : Bytes → ℕ
  | [] => 0
  | b :: g => b.toNat % 128 + 128 * groupValue g

/-- What the loop adds up. -/
def sumGroups : Bytes → Binary64 → Binary64 → Binary64
  | [], result, _ => result
  | b :: g, result, mul =>
    sumGroups g (result.add ((Binary64.ofInt (b.toNat % 128 : ℕ)).mul mul))
      (mul.mul (.ofInt (128 : ℕ)))

/-- The number of the groups. -/
def groupNumber : Bytes → Binary64
  | [b] => .ofInt b.toNat
  | g => sumGroups g (.ofInt (0 : ℕ)) ByteReader.unit

/-- A group past the range of a number is zero, from a place on. -/
def ZeroBeyond (i : ℕ) (g : Bytes) : Prop := ∃ j b, 147 ≤ i + j ∧ g[j]? = some b ∧ b.toNat % 128 = 0

variable {bs g rest : Bytes}

theorem splitVarint_eq_some (h : splitVarint bs = some (g, rest)) :
    bs = g ++ rest ∧ IsVarint g := by
  induction bs generalizing g rest with
  | nil => cases h
  | cons b bs ih =>
    rw [splitVarint] at h
    split_ifs at h with hb
    · cases hsplit : splitVarint bs with
      | none => simp [hsplit] at h
      | some p =>
        rw [hsplit, Option.map_some, Option.some.injEq, Prod.mk.injEq] at h
        obtain ⟨rfl, rfl⟩ := h
        obtain ⟨hbs, hvarint⟩ := ih hsplit
        refine ⟨by rw [hbs, cons_append], ?_⟩
        rw [IsVarint, splitVarint, if_pos hb, show splitVarint p.1 = _ from hvarint,
          Option.map_some]
    · rw [Option.some.injEq, Prod.mk.injEq] at h
      obtain ⟨rfl, rfl⟩ := h
      exact ⟨rfl, by rw [IsVarint, splitVarint, if_neg hb]⟩

theorem IsVarint.length_pos (h : IsVarint g) : 0 < g.length := by
  cases g with
  | nil => cases h
  | cons b g => exact Nat.succ_pos _

theorem length_of_drop {n : ℕ} (hn : n ≤ bs.length) (h : bs.drop n = g ++ rest) :
    bs.length = n + (g.length + rest.length) := by
  have := congrArg length h
  rw [length_drop, length_append] at this
  omega

theorem IsVarint.split (h : IsVarint g) (rest : Bytes) :
    splitVarint (g ++ rest) = some (g, rest) := by
  induction g with
  | nil => cases h
  | cons b g ih =>
    rw [IsVarint, splitVarint] at h
    rw [cons_append, splitVarint]
    split_ifs at h ⊢ with hb
    · cases hsplit : splitVarint g with
      | none => simp [hsplit] at h
      | some p =>
        rw [hsplit, Option.map_some, Option.some.injEq, Prod.mk.injEq, cons.injEq] at h
        obtain ⟨⟨-, hg⟩, hrest⟩ := h
        have hvarint : IsVarint g := by
          rw [IsVarint, hsplit, ← hg, ← hrest]
        rw [ih hvarint, Option.map_some]
    · rw [Option.some.injEq, Prod.mk.injEq, cons.injEq] at h
      rw [← h.1.2, nil_append]

variable {result : Binary64}

/-- A group of zero past the range makes the sum no number. -/
theorem isNaN_sumGroups_of_isNaN {mul : Binary64} (h : result.isNaN = true) :
    (sumGroups g result mul).isNaN = true := by
  induction g generalizing result mul with
  | nil => exact h
  | cons b g ih => exact ih (Binary64.isNaN_add_left h _)

theorem isNaN_sumGroups {i : ℕ} (h : ZeroBeyond i g) (result : Binary64) :
    (sumGroups g result (.powerOfTwo (7 * i))).isNaN = true := by
  induction g generalizing i result with
  | nil =>
    obtain ⟨j, b, -, hb, -⟩ := h
    cases hb
  | cons b g ih =>
    obtain ⟨j, c, hj, hc, hzero⟩ := h
    rw [sumGroups, Binary64.powerOfTwo_mul, show 7 * i + 7 = 7 * (i + 1) by omega]
    cases j with
    | zero =>
      cases hc
      refine isNaN_sumGroups_of_isNaN (Binary64.isNaN_add_right _ ?_)
      rw [hzero]
      exact Binary64.isNaN_zero_mul_powerOfTwo (by omega)
    | succ j => exact ih ⟨j, c, by omega, hc, hzero⟩ _

theorem isNat_sumGroups {i m : ℕ} (h : ¬ZeroBeyond i g) (hresult : result.IsNat m) :
    (sumGroups g result (.powerOfTwo (7 * i))).IsNat (m + groupValue g * 2 ^ (7 * i)) := by
  induction g generalizing i m result with
  | nil => simpa [sumGroups, groupValue] using hresult
  | cons b g ih =>
    have hdigit : 7 * i < 1024 ∨ b.toNat % 128 ≠ 0 := by
      by_contra hno
      rw [not_or, not_not] at hno
      exact h ⟨0, b, by omega, rfl, hno.2⟩
    have hrest : ¬ZeroBeyond (i + 1) g := by
      rintro ⟨j, c, hj, hc, hzero⟩
      exact h ⟨j + 1, c, by omega, hc, hzero⟩
    have hbyte : b.toNat % 128 ≤ 2 ^ 53 := by omega
    have hsum := ih hrest (hresult.add (Binary64.isNat_mul_powerOfTwo hbyte hdigit))
    rw [sumGroups, Binary64.powerOfTwo_mul, show 7 * i + 7 = 7 * (i + 1) by omega]
    have hvalue : m + b.toNat % 128 * 2 ^ (7 * i) + groupValue g * 2 ^ (7 * (i + 1)) =
        m + groupValue (b :: g) * 2 ^ (7 * i) := by
      rw [groupValue, show 7 * (i + 1) = 7 * i + 7 by omega, pow_add]
      ring
    rwa [hvalue] at hsum

theorem unit_eq : ByteReader.unit = .powerOfTwo 0 := by
  have hunit := (Binary64.isIndex_ofInt (n := 1) (by decide)).toIsInt
  exact hunit.eq ((Binary64.isNat_powerOfTwo 0).exact (by decide)) one_ne_zero

/-- The number of a varint is no number, or the one of its natural. -/
theorem isNaN_groupNumber (h : ZeroBeyond 0 g) : (groupNumber g).isNaN = true := by
  have hsum := isNaN_sumGroups h (.ofInt (0 : ℕ))
  rw [mul_zero, ← unit_eq] at hsum
  rw [groupNumber]
  · exact hsum
  · rintro b rfl
    obtain ⟨j, c, hj, hc, -⟩ := h
    have hlt := (List.getElem?_eq_some_iff.mp hc).1
    simp at hlt
    omega

theorem isNat_groupNumber (hg : IsVarint g) (h : ¬ZeroBeyond 0 g) :
    (groupNumber g).IsNat (groupValue g) := by
  have hsum := isNat_sumGroups h (Binary64.isIndex_ofInt (n := 0) (by decide)).isNat
  rw [mul_zero, ← unit_eq, zero_add, pow_zero, Nat.mul_one] at hsum
  rw [groupNumber.eq_def]
  split
  next b =>
    rw [IsVarint, splitVarint] at hg
    split_ifs at hg with hb
    · simp [splitVarint] at hg
    · have hvalue : groupValue [b] = b.toNat := by
        simp only [groupValue]
        omega
      rw [hvalue]
      exact (Binary64.isIndex_ofInt (by omega)).isNat
  next => exact hsum

/-! ## Reads from an index -/

namespace ByteReader

open Binary64

variable {buf : ByteBuffer} {pos : Binary64} {n : ℕ} {k : ℕ}

theorem isIndex_unit : unit.IsIndex 1 := isIndex_ofInt (by decide)

/-- The cursor after some bytes, one by one. -/
def advance (pos : Binary64) : ℕ → Binary64
  | 0 => pos
  | k + 1 => advance (pos.add unit) k

theorem isIndex_advance (h : pos.IsIndex n) (hk : n + k ≤ 2 ^ 53) :
    (advance pos k).IsIndex (n + k) := by
  induction k generalizing pos n with
  | zero => exact h
  | succ k ih =>
    have hnext := ih (h.add isIndex_unit (by omega)) (by omega)
    rwa [show n + 1 + k = n + (k + 1) by omega] at hnext

theorem index_of_drop (h : pos.IsIndex n) (hdrop : buf.bytes.drop n = b :: bs) :
    buf.index pos = some b ∧ buf.bytes.drop (n + 1) = bs ∧ n < buf.bytes.length := by
  have hget : buf.bytes[n]? = some b := by
    rw [← head?_drop, hdrop, head?_cons]
  refine ⟨by rw [ByteBuffer.index_of_isInt h.toIsInt, hget], ?_,
    (List.getElem?_eq_some_iff.mp hget).1⟩
  rw [← tail_drop, hdrop, tail_cons]

theorem index_of_drop_nil (h : pos.IsIndex n) (hdrop : buf.bytes.drop n = []) :
    buf.index pos = none ∧ buf.bytes.length ≤ n := by
  have hlen := drop_eq_nil_iff.mp hdrop
  rw [ByteBuffer.index_of_isInt h.toIsInt]
  exact ⟨getElem?_eq_none hlen, hlen⟩

theorem isIndex_length (buf : ByteBuffer) : buf.length.IsIndex buf.bytes.length :=
  isIndex_ofInt buf.length_lt.le

section

variable (h : pos.IsIndex n)
include h

theorem u8_of_drop (hdrop : buf.bytes.drop n = b :: bs) :
    u8 buf pos = (some (some b), pos.add unit) := by
  obtain ⟨hindex, -, hlt⟩ := index_of_drop h hdrop
  have hle : ¬buf.length.le pos = true := by
    rw [(isIndex_length buf).toIsInt.le_iff h.toIsInt]
    omega
  rw [u8, if_neg hle, hindex]

theorem u8_of_drop_nil (hdrop : buf.bytes.drop n = []) : u8 buf pos = (none, pos) := by
  obtain ⟨-, hlen⟩ := index_of_drop_nil h hdrop
  have hle : buf.length.le pos = true := by
    rw [(isIndex_length buf).toIsInt.le_iff h.toIsInt]
    omega
  rw [u8, if_pos hle]

theorem varintLoop_of_splitVarint (hdrop : buf.bytes.drop n = bs)
    (hsplit : splitVarint bs = some (g, rest)) (result mul : Binary64) :
    varintLoop buf pos result mul = (some (sumGroups g result mul), advance pos g.length) := by
  induction bs generalizing pos n g rest result mul with
  | nil => cases hsplit
  | cons b bs ih =>
    obtain ⟨hindex, hdrop', hlt⟩ := index_of_drop h hdrop
    have hbound := buf.length_lt
    rw [splitVarint] at hsplit
    rw [varintLoop]
    split
    next hnone => simp [hindex] at hnone
    next c hc =>
      cases hindex.symm.trans hc
      split_ifs at hsplit ⊢ with hb
      · cases hbs : splitVarint bs with
        | none => simp [hbs] at hsplit
        | some p =>
          rw [hbs, Option.map_some, Option.some.injEq, Prod.mk.injEq] at hsplit
          obtain ⟨rfl, rfl⟩ := hsplit
          exact ih (h.add isIndex_unit (by omega)) hdrop' hbs _ _
      · rw [Option.some.injEq, Prod.mk.injEq] at hsplit
        obtain ⟨rfl, rfl⟩ := hsplit
        rfl

theorem varintLoop_of_splitVarint_none (hdrop : buf.bytes.drop n = bs)
    (hsplit : splitVarint bs = none) (hn : n ≤ buf.bytes.length) (result mul : Binary64) :
    ∃ pos', varintLoop buf pos result mul = (none, pos') ∧ pos'.IsIndex (buf.bytes.length + 1) := by
  have hbound := buf.length_lt
  induction bs generalizing pos n result mul with
  | nil =>
    obtain ⟨hindex, hlen⟩ := index_of_drop_nil h hdrop
    refine ⟨pos.add unit, ?_, ?_⟩
    · rw [varintLoop]
      split
      next => rfl
      next c hc => simp [hindex] at hc
    · rw [show buf.bytes.length = n by omega]
      exact h.add isIndex_unit (by omega)
  | cons b bs ih =>
    obtain ⟨hindex, hdrop', hlt⟩ := index_of_drop h hdrop
    rw [splitVarint] at hsplit
    split_ifs at hsplit with hb
    rw [Option.map_eq_none_iff] at hsplit
    rw [varintLoop]
    split
    next hnone => simp [hindex] at hnone
    next c hc =>
      cases hindex.symm.trans hc
      rw [if_pos hb]
      exact ih (h.add isIndex_unit (by omega)) hdrop' hsplit (by omega) _ _

theorem varint_of_splitVarint (hsplit : splitVarint (buf.bytes.drop n) = some (g, rest)) :
    varint buf pos = (some (groupNumber g), advance pos g.length) := by
  cases hdrop : buf.bytes.drop n with
  | nil =>
    rw [hdrop] at hsplit
    cases hsplit
  | cons b bs =>
    obtain ⟨hindex, -, -⟩ := index_of_drop h hdrop
    rw [hdrop] at hsplit
    by_cases hb : b.toNat < 0x80
    · rw [splitVarint, if_neg (by omega), Option.some.injEq, Prod.mk.injEq] at hsplit
      obtain ⟨rfl, rfl⟩ := hsplit
      rw [varint, hindex]
      simp only [if_pos hb]
      rfl
    · have hloop := varintLoop_of_splitVarint h hdrop hsplit (.ofInt (0 : ℕ)) unit
      have hnumber : groupNumber g = sumGroups g (.ofInt (0 : ℕ)) unit := by
        refine groupNumber.eq_2 g ?_
        rintro c rfl
        rw [splitVarint, if_pos (by omega)] at hsplit
        cases hbs : splitVarint bs with
        | none => simp [hbs] at hsplit
        | some p =>
          rw [hbs, Option.map_some, Option.some.injEq, Prod.mk.injEq, cons.injEq] at hsplit
          obtain ⟨-, hvarint⟩ := splitVarint_eq_some hbs
          rw [IsVarint, hsplit.1.2] at hvarint
          cases hvarint
      rw [varint, hindex]
      simp only [if_neg hb]
      rw [hloop, hnumber]

theorem varint_of_splitVarint_none (hn : n ≤ buf.bytes.length + 1)
    (hsplit : splitVarint (buf.bytes.drop n) = none) :
    ∃ pos' n', varint buf pos = (none, pos') ∧ pos'.IsIndex n' ∧ n' ≤ buf.bytes.length + 1 := by
  cases hdrop : buf.bytes.drop n with
  | nil =>
    obtain ⟨hindex, -⟩ := index_of_drop_nil h hdrop
    exact ⟨pos, n, by rw [varint, hindex], h, hn⟩
  | cons b bs =>
    obtain ⟨hindex, -, hlt⟩ := index_of_drop h hdrop
    obtain ⟨pos', hloop, hpos'⟩ :=
      varintLoop_of_splitVarint_none h rfl hsplit hlt.le (.ofInt (0 : ℕ)) unit
    refine ⟨pos', _, ?_, hpos', le_rfl⟩
    rw [hdrop, splitVarint] at hsplit
    split_ifs at hsplit with hb
    rw [varint, hindex]
    simp only [if_neg (not_lt.mpr hb)]
    exact hloop

end

/-- The loop returns no negative number, wherever the cursor is. -/
theorem unsigned_varintLoop {mul v pos' : Binary64} (hresult : result.Unsigned)
    (hmul : mul.Unsigned) (h : varintLoop buf pos result mul = (some v, pos')) : v.Unsigned := by
  fun_induction varintLoop buf pos result mul with
  | case1 => cases h
  | case2 pos result mul b _ next mul' hb ih =>
    exact ih (hresult.add ((isIndex_ofInt (by omega)).isNat.unsigned.mul hmul))
      (hmul.mul (isIndex_ofInt (by decide)).isNat.unsigned) h
  | case3 pos result mul b _ next hb =>
    obtain ⟨hv, -⟩ := Prod.mk.inj h
    obtain rfl := Option.some.inj hv
    exact hresult.add ((isIndex_ofInt (by omega)).isNat.unsigned.mul hmul)

theorem unsigned_varint {v pos' : Binary64} (h : varint buf pos = (some v, pos')) : v.Unsigned := by
  rw [varint] at h
  split at h
  next => cases h
  next b hb =>
    split_ifs at h
    · obtain ⟨hv, -⟩ := Prod.mk.inj h
      cases hv
      exact (isIndex_ofInt (by have := b.toNat_lt; omega)).isNat.unsigned
    · exact unsigned_varintLoop (isIndex_ofInt (Nat.zero_le _)).isNat.unsigned
        isIndex_unit.isNat.unsigned h

theorem length_lt_iff {x : Binary64} {m : ℕ} (h : x.IsNat m) :
    buf.length.lt x = true ↔ buf.bytes.length < m :=
  (isIndex_length buf).isNat.lt_iff h buf.length_lt

section

variable (h : pos.IsIndex n)
include h

theorem truncate_of_isIndex : (if pos.isNaN then 0 else pos.scaled.tdiv one) = n := by
  rw [h.isNat.number, if_neg Bool.false_ne_true, h.value, Int.mul_tdiv_cancel _ Binary64.one_pos.ne']

theorem clamp_of_isIndex (hn : n ≤ buf.bytes.length) : buf.clamp pos = n := by
  simp only [ByteBuffer.clamp, truncate_of_isIndex h]
  rw [if_neg (by omega), Int.toNat_natCast, Nat.min_eq_left hn]

theorem view_of_isIndex (hk : n + k ≤ buf.bytes.length) :
    buf.view k pos = some ((buf.bytes.drop n).take k) := by
  simp only [ByteBuffer.view, truncate_of_isIndex h]
  rw [if_pos (by omega), Int.toNat_natCast]

theorem word_of_le (hk : n + k ≤ buf.bytes.length) :
    word k buf pos = (some (ofBigEndian ((buf.bytes.drop n).take k)), pos.add (.ofInt k)) := by
  have hbound := buf.length_lt
  have hsum := h.add (isIndex_ofInt (n := k) (by omega)) (by omega)
  have hlt : ¬buf.length.lt (pos.add (.ofInt k)) = true := by
    rw [length_lt_iff hsum.isNat]
    omega
  rw [word, if_neg hlt, view_of_isIndex h hk]

theorem word_of_lt (hk : k ≤ 2 ^ 53) (hlt : buf.bytes.length < n + k) :
    word k buf pos = (none, pos) := by
  have hsum := h.isNat.add (isIndex_ofInt hk).isNat
  rw [word, if_pos ((length_lt_iff hsum).mpr hlt)]

theorem str_of_splitVarint (hn : n ≤ buf.bytes.length)
    (hsplit : splitVarint (buf.bytes.drop n) = some (g, rest)) (hg : ¬ZeroBeyond 0 g)
    (hlen : groupValue g ≤ rest.length) :
    str buf pos = (some (utf8Decode (rest.take (groupValue g))),
      (advance pos g.length).add (groupNumber g)) := by
  obtain ⟨hdrop, hvarint⟩ := splitVarint_eq_some hsplit
  have hlength := length_of_drop hn hdrop
  have hbound := buf.length_lt
  have hpos := isIndex_advance (k := g.length) h (by omega)
  have hnumber := (isNat_groupNumber hvarint hg).isIndex (by omega)
  have hsum := hpos.add hnumber (by omega)
  have hlt : ¬buf.length.lt ((advance pos g.length).add (groupNumber g)) = true := by
    rw [length_lt_iff hsum.isNat]
    omega
  have hbody : buf.subarray (advance pos g.length) ((advance pos g.length).add (groupNumber g)) =
      rest.take (groupValue g) := by
    rw [ByteBuffer.subarray, clamp_of_isIndex hpos (by omega), clamp_of_isIndex hsum (by omega),
      drop_take, Nat.add_sub_cancel_left, ← drop_drop, hdrop, drop_left]
  rw [str, bind_apply, varint_of_splitVarint h hsplit]
  dsimp only
  rw [text]
  simp [if_neg hlt, hbody]

theorem str_of_lt (hn : n ≤ buf.bytes.length)
    (hsplit : splitVarint (buf.bytes.drop n) = some (g, rest)) (hg : ¬ZeroBeyond 0 g)
    (hlen : rest.length < groupValue g) : str buf pos = (none, advance pos g.length) := by
  obtain ⟨hdrop, hvarint⟩ := splitVarint_eq_some hsplit
  have hlength := length_of_drop hn hdrop
  have hbound := buf.length_lt
  have hpos := isIndex_advance (k := g.length) h (by omega)
  have hlt := (length_lt_iff (hpos.isNat.add (isNat_groupNumber hvarint hg))).mpr
    (show buf.bytes.length < n + g.length + groupValue g by omega)
  rw [str, bind_apply, varint_of_splitVarint h hsplit]
  dsimp only
  rw [text]
  simp [if_pos hlt]

/-- A string whose length is no number is returned, and the cursor is lost. -/
theorem str_of_zeroBeyond (hsplit : splitVarint (buf.bytes.drop n) = some (g, rest))
    (hg : ZeroBeyond 0 g) : ∃ pos', str buf pos = (some [], pos') ∧ pos'.isNaN = true := by
  have hnan := isNaN_groupNumber hg
  have hsum := isNaN_add_right (advance pos g.length) hnan
  have hlt : ¬buf.length.lt ((advance pos g.length).add (groupNumber g)) = true := by
    rw [lt, hsum]
    simp
  have hbody : buf.subarray (advance pos g.length) ((advance pos g.length).add (groupNumber g)) =
      [] := by
    simp [ByteBuffer.subarray, ByteBuffer.clamp, hsum]
  refine ⟨_, ?_, hsum⟩
  rw [str, bind_apply, varint_of_splitVarint h hsplit]
  dsimp only
  rw [text]
  simp only [if_neg hlt, hbody]
  rfl

end

end ByteReader

end AdapterWs.Wire
