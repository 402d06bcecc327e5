import AdapterWs.Wire.Bytes

/-!
# Bit streams

Bits are written most significant first and packed into bytes, the last one padded with zeros.
-/

namespace AdapterWs.Wire

open JsString Throwing List

abbrev Bits := List Bool

/-- `BitWriter.writeBits(value, count)`. -/
def writeBits (value : ℕ) : ℕ → Bits
  | 0 => []
  | count + 1 => value.testBit count :: writeBits value count

/-- The value of bits, the most significant first. -/
def ofBits (bits : Bits) : ℕ := bits.foldl (fun v b => v * 2 + b.toNat) 0

/-- `BitWriter.finish()`. -/
def finish : Bits → Bytes
  | b₇ :: b₆ :: b₅ :: b₄ :: b₃ :: b₂ :: b₁ :: b₀ :: bits =>
    UInt8.ofNat (ofBits [b₇, b₆, b₅, b₄, b₃, b₂, b₁, b₀]) :: finish bits
  | [] => []
  | bits => [UInt8.ofNat (ofBits (bits ++ List.replicate (8 - bits.length) false))]

/-- The bits that `BitReader` takes from a buffer. -/
def bitsOf (bytes : Bytes) : Bits := bytes.flatMap fun b => writeBits b.toNat 8

/-- `BitReader.readBit()`. -/
def readBit : Throwing Bits Bool
  | [] => (none, [])
  | b :: bits => (some b, bits)

/-- The loop of `readBits`, from the value read so far. -/
def readBitsFrom (v : ℕ) : ℕ → Throwing Bits ℕ
  | 0 => pure v
  | count + 1 => do
    let b ← readBit
    readBitsFrom (v * 2 + b.toNat) count

/-- `BitReader.readBits(count)`. -/
def readBits (count : ℕ) : Throwing Bits ℕ := readBitsFrom 0 count

variable (bits : Bits)

theorem gives_readBit (b : Bool) (bits : Bits) : readBit.Gives (b :: bits) b bits := rfl

theorem readBitsFrom_writeBits (v value count : ℕ) (bits : Bits) :
    (readBitsFrom v count).Gives (writeBits value count ++ bits)
      (v * 2 ^ count + value % 2 ^ count) bits := by
  induction count generalizing v with
  | zero => simp [readBitsFrom, writeBits, gives_pure, Nat.mod_one]
  | succ count ih =>
    have hbit : (value.testBit count).toNat = value / 2 ^ count % 2 := by
      rw [Nat.testBit_eq_decide_div_mod_eq]
      rcases Nat.mod_two_eq_zero_or_one (value / 2 ^ count) with h | h <;> simp [h]
    have hsplit : v * 2 ^ (count + 1) + value % 2 ^ (count + 1) =
        (v * 2 + (value.testBit count).toNat) * 2 ^ count + value % 2 ^ count := by
      rw [Nat.mod_pow_succ, hbit, pow_succ]
      ring
    rw [hsplit]
    exact (gives_readBit _ _).bind (ih (v * 2 + (value.testBit count).toNat))

theorem readBits_writeBits {value count : ℕ} (h : value < 2 ^ count) (bits : Bits) :
    (readBits count).Gives (writeBits value count ++ bits) value bits := by
  have hread := readBitsFrom_writeBits 0 value count bits
  rwa [zero_mul, zero_add, Nat.mod_eq_of_lt h] at hread

/-! ## Packing -/

theorem ofBits_append_singleton (b : Bool) : ofBits (bits ++ [b]) = ofBits bits * 2 + b.toNat := by
  rw [ofBits, foldl_append, ← ofBits]
  rfl

theorem ofBits_lt : ofBits bits < 2 ^ bits.length := by
  induction bits using reverseRecOn with
  | nil => exact one_pos
  | append_singleton bits b ih =>
    rw [ofBits_append_singleton, length_append, length_singleton, pow_succ]
    have := b.toNat_le
    omega

theorem writeBits_succ (value count : ℕ) :
    writeBits value (count + 1) = writeBits (value / 2) count ++ [value.testBit 0] := by
  induction count with
  | zero => rfl
  | succ count ih => rw [writeBits, ih, writeBits, Nat.testBit_succ, cons_append]

theorem writeBits_ofBits : writeBits (ofBits bits) bits.length = bits := by
  induction bits using reverseRecOn with
  | nil => rfl
  | append_singleton bits b ih =>
    have hdiv : (ofBits bits * 2 + b.toNat) / 2 = ofBits bits := by
      have := b.toNat_le
      omega
    have hlast : (ofBits bits * 2 + b.toNat).testBit 0 = b := by
      rw [Nat.testBit_zero]
      cases b <;> simp
    rw [ofBits_append_singleton, length_append, length_singleton, writeBits_succ, hdiv,
      ih, hlast]

theorem bitsOf_byte {bits : Bits} (h : bits.length = 8) (bytes : Bytes) :
    bitsOf (UInt8.ofNat (ofBits bits) :: bytes) = bits ++ bitsOf bytes := by
  have hlt := ofBits_lt bits
  rw [h] at hlt
  have hbyte : writeBits (ofBits bits) 8 = bits := h ▸ writeBits_ofBits bits
  rw [bitsOf, flatMap_cons, toNat_byte hlt, hbyte, ← bitsOf]

theorem bitsOf_finish : ∃ padding, bitsOf (finish bits) = bits ++ padding := by
  fun_induction finish bits with
  | case1 b₇ b₆ b₅ b₄ b₃ b₂ b₁ b₀ bits ih =>
    obtain ⟨padding, hrest⟩ := ih
    refine ⟨padding, ?_⟩
    rw [bitsOf_byte rfl, hrest]
    rfl
  | case2 => exact ⟨[], rfl⟩
  | case3 bits hfull hempty =>
    have hlen : bits.length < 8 := by
      rcases bits with _ | ⟨b₇, _ | ⟨b₆, _ | ⟨b₅, _ | ⟨b₄, _ | ⟨b₃, _ | ⟨b₂, _ | ⟨b₁, _ | ⟨b₀, bits⟩⟩⟩⟩⟩⟩⟩⟩
      case cons.cons.cons.cons.cons.cons.cons.cons =>
        exact (hfull b₇ b₆ b₅ b₄ b₃ b₂ b₁ b₀ bits rfl).elim
      all_goals simp
    refine ⟨replicate (8 - bits.length) false, ?_⟩
    rw [bitsOf_byte (by simp; omega), append_assoc]
    simp [bitsOf]

end AdapterWs.Wire
