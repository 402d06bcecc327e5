import AdapterWs.Lib.Binary64
import AdapterWs.Lib.Throwing
import AdapterWs.Lib.Utf8

/-!
# Byte frames

The writer and the reader of a frame: bytes, LEB128 integers, binary32 and binary64 numbers,
and strings with their length. A read past the end throws.
-/

namespace AdapterWs.Wire

open JsString Throwing

abbrev Bytes := List UInt8

/-! ## Writing -/

/-- `ByteWriter.varint(value)`. -/
def varint (value : ℕ) : Bytes :=
  if 0x7f < value then UInt8.ofNat (value % 128 + 128) :: varint (value / 128)
  else [UInt8.ofNat value]
termination_by value
decreasing_by omega

/-- `ByteWriter.str(s)`. -/
def str (s : JsString) : Bytes := varint (utf8Encode s).length ++ utf8Encode s

/-- The `n` bytes of a word, the most significant first. -/
def bigEndian : ℕ → ℕ → Bytes
  | 0, _ => []
  | n + 1, v => bigEndian n (v / 256) ++ [UInt8.ofNat v]

/-- `ByteWriter.f32(n)`. -/
def f32 (v : Binary64) : Bytes := bigEndian 4 v.toFloat32.toNat

/-- `ByteWriter.f64(n)`. -/
def f64 (v : Binary64) : Bytes := bigEndian 8 v.bits.toNat

/-! ## Reading -/

/-- `ByteReader.u8()`. -/
def readU8 : Throwing Bytes ℕ
  | [] => (none, [])
  | b :: bs => (some b.toNat, bs)

/-- `ByteReader.varint()`. -/
def readVarint : Throwing Bytes ℕ
  | [] => (none, [])
  | b :: bs =>
    if b.toNat < 0x80 then (some b.toNat, bs)
    else ((readVarint bs).1.map fun v => b.toNat % 128 + 128 * v, (readVarint bs).2)

/-- The next `n` bytes, or the end of the frame. -/
def readBytes (n : ℕ) : Throwing Bytes Bytes := fun bs =>
  if bs.length < n then (none, bs) else (some (bs.take n), bs.drop n)

/-- `ByteReader.str()`. -/
def readStr : Throwing Bytes JsString := do
  let len ← readVarint
  let bytes ← readBytes len
  pure (utf8Decode bytes)

/-- The word of its bytes. -/
def ofBigEndian (bs : Bytes) : ℕ := bs.foldl (fun v b => v * 256 + b.toNat) 0

/-- `ByteReader.f32()`. -/
def readF32 : Throwing Bytes Binary64 := do
  let bytes ← readBytes 4
  pure (.ofFloat32 (BitVec.ofNat 32 (ofBigEndian bytes)))

/-- `ByteReader.f64()`. -/
def readF64 : Throwing Bytes Binary64 := do
  let bytes ← readBytes 8
  pure ⟨BitVec.ofNat 64 (ofBigEndian bytes)⟩

/-! ## What was written is read -/

theorem readU8_ofNat {n : ℕ} (h : n < 256) (bs : Bytes) :
    readU8.Gives (UInt8.ofNat n :: bs) n bs := by
  rw [Gives, readU8, toNat_byte h]

theorem readVarint_varint (value : ℕ) (bs : Bytes) :
    readVarint.Gives (varint value ++ bs) value bs := by
  rw [Gives]
  fun_induction varint value with
  | case1 value hlarge ih =>
    rw [List.cons_append, readVarint, toNat_byte (by omega), if_neg (by omega), ih]
    simp only [Option.map_some, Prod.mk.injEq, Option.some.injEq, and_true]
    omega
  | case2 value hsmall =>
    rw [List.singleton_append, readVarint, toNat_byte (by omega), if_pos (by omega)]

theorem readBytes_append {n : ℕ} {as : Bytes} (h : as.length = n) (bs : Bytes) :
    (readBytes n).Gives (as ++ bs) as bs := by
  rw [Gives, readBytes, if_neg (by simp [h]), List.take_left' h, List.drop_left' h]

theorem readStr_str_eq (s : JsString) (bs : Bytes) :
    readStr.Gives (str s ++ bs) (utf8Decode (utf8Encode s)) bs := by
  have hread := (readVarint_varint (utf8Encode s).length (utf8Encode s ++ bs)).bind
    (f := fun len => readBytes len >>= fun bytes => pure (utf8Decode bytes))
    (readBytes_append rfl bs).map
  rw [← List.append_assoc] at hread
  exact hread

theorem readStr_str {s : JsString} (h : isText s = true) (bs : Bytes) :
    readStr.Gives (str s ++ bs) s bs := by
  have hread := readStr_str_eq s bs
  rwa [utf8Decode_utf8Encode h] at hread

@[simp] theorem length_bigEndian (n v : ℕ) : (bigEndian n v).length = n := by
  induction n generalizing v with
  | zero => rfl
  | succ n ih => rw [bigEndian, List.length_append, ih, List.length_singleton]

theorem ofBigEndian_bigEndian {n v : ℕ} (h : v < 256 ^ n) : ofBigEndian (bigEndian n v) = v := by
  induction n generalizing v with
  | zero =>
    rw [pow_zero] at h
    simp [bigEndian, ofBigEndian]
    omega
  | succ n ih =>
    rw [pow_succ] at h
    have hrest := ih (v := v / 256) (by omega)
    rw [ofBigEndian] at hrest ⊢
    rw [bigEndian, List.foldl_append, hrest]
    simp only [List.foldl_cons, List.foldl_nil, UInt8.toNat_ofNat']
    omega

theorem readF64_f64 (v : Binary64) (bs : Bytes) : readF64.Gives (f64 v ++ bs) v bs := by
  have hread := (readBytes_append (length_bigEndian 8 v.bits.toNat) bs).map
    (g := fun bytes => Binary64.mk (BitVec.ofNat 64 (ofBigEndian bytes)))
  rw [ofBigEndian_bigEndian v.bits.isLt, BitVec.ofNat_toNat, BitVec.setWidth_eq] at hread
  exact hread

end AdapterWs.Wire
