import AdapterWs.Wire.ByteReader
import AdapterWs.Wire.ValueFidelity

/-!
# Values at a cursor

The value codec reads from the byte reader, whose lengths and counts are numbers: a count may be
infinity or no number, and a zigzag code may be any number. What the writer wrote is read as the
codec on lists of bytes reads it.
-/

namespace AdapterWs.Wire

open JsString Throwing OwnProperties Binary64 List ByteReader Value

namespace ByteReader

variable {α β : Type} (buf : ByteBuffer)

/-! ## The reader -/

/-- `u % 2 === 0`. -/
def isEven (u : Binary64) : Bool := u.isFinite && decide (u.scaled % (2 * one) = 0)

/-- The number of a zigzag code. -/
def unzigzagNumber (u : Binary64) : Binary64 :=
  if isEven u then u.half else (u.add unit).neg.half

/-- `for (let i = …; i < n; i++)`. A round takes a byte or throws, so that the bytes bound them. -/
def rounds (n : Binary64) (x : Throwing Binary64 α) : ℕ → ℕ → Throwing Binary64 (List α)
  | 0, _ => throw
  | fuel + 1, i =>
    if (Binary64.ofInt i).lt n then do
      let a ← x
      let as ← rounds n x fuel (i + 1)
      pure (a :: as)
    else pure []

/-- What `new Array(n)` takes for a length. -/
def isArrayLength (n : Binary64) : Bool :=
  n.isInteger && decide (0 ≤ n.scaled) && n.lt (.ofInt (2 ^ 32 : ℕ))

/-- A property of an object. -/
def readProp (value : Throwing Binary64 Value) : Throwing Binary64 (JsString × Value) := do
  let key ← str buf
  let v ← value
  pure (key, v)

/-- The value of a tag. The values inside are read by `value`. -/
def readTagged (value : Throwing Binary64 Value) (fuel : ℕ) : Option ℕ → Throwing Binary64 Value
  | some 0 => pure .null
  | some 1 => pure (.bool false)
  | some 2 => pure (.bool true)
  | some 3 => do
    let u ← varint buf
    pure (.number (unzigzagNumber u))
  | some 4 => do
    let x ← f64 buf
    pure (.number x)
  | some 5 => do
    let s ← str buf
    pure (.string s)
  | some 6 => do
    let n ← varint buf
    if isArrayLength n then do
      let elems ← rounds n value fuel 0
      pure (.array elems)
    else throw
  | some 7 => do
    let n ← varint buf
    let props ← rounds n (readProp buf value) fuel 0
    pure (.object (ofList props))
  | _ => throw

/-- `readValue(r)`, to a depth. -/
def readValueTo : ℕ → Throwing Binary64 Value
  | 0 => throw
  | depth + 1 => do
    let tag ← u8 buf
    readTagged buf (readValueTo depth) (depth + 1) (tag.map UInt8.toNat)

end ByteReader

/-! ## What was written is read -/

/-- A read takes exactly these bytes, wherever they stand in the buffer. -/
def Reads {α : Type} (buf : ByteBuffer) (x : Throwing Binary64 α) (w : Bytes) (a : α) : Prop :=
  ∀ pos n rest, pos.IsIndex n → n ≤ buf.bytes.length → buf.bytes.drop n = w ++ rest →
    ∃ pos', x.Gives pos a pos' ∧ pos'.IsIndex (n + w.length)

variable {α β : Type} {buf : ByteBuffer} {x : Throwing Binary64 α} {f : α → Throwing Binary64 β}
  {w w' : Bytes} {a : α} {b : β} {k : ℕ}

/-- The bytes stand within the buffer, and the others follow. -/
theorem drop_append {n : ℕ} {rest : Bytes} (hn : n ≤ buf.bytes.length)
    (h : buf.bytes.drop n = w ++ rest) :
    n + w.length ≤ buf.bytes.length ∧ buf.bytes.drop (n + w.length) = rest := by
  have hlength := congrArg length h
  rw [length_drop, length_append] at hlength
  refine ⟨by omega, ?_⟩
  rw [← drop_drop, h, drop_left]

theorem Reads.pure (a : α) : Reads buf (Pure.pure a) [] a :=
  fun pos _ _ h _ _ => ⟨pos, gives_pure a pos, h⟩

theorem Reads.bind (hx : Reads buf x w a) (hf : Reads buf (f a) w' b) :
    Reads buf (x >>= f) (w ++ w') b := by
  intro pos n rest h hn hdrop
  rw [append_assoc] at hdrop
  obtain ⟨pos', hgives, hpos'⟩ := hx pos n _ h hn hdrop
  obtain ⟨hle, hdrop'⟩ := drop_append hn hdrop
  obtain ⟨pos'', hgives', hpos''⟩ := hf pos' _ _ hpos' hle hdrop'
  refine ⟨pos'', hgives.bind hgives', ?_⟩
  rwa [length_append, ← add_assoc]

theorem Reads.map {g : α → β} (hx : Reads buf x w a) :
    Reads buf (x >>= fun a => Pure.pure (g a)) w (g a) := by
  have h := hx.bind (f := fun a => Pure.pure (g a)) (Reads.pure (g a))
  rwa [append_nil] at h

theorem reads_u8 (b : UInt8) : Reads buf (u8 buf) [b] (some b) := by
  intro pos n rest h hn hdrop
  have hbound := buf.length_lt
  obtain ⟨hle, -⟩ := drop_append hn hdrop
  rw [length_singleton] at hle
  have hnext : n + 1 ≤ 2 ^ 53 := by omega
  exact ⟨_, u8_of_drop h hdrop, h.add isIndex_unit hnext⟩

/-- A varint is one whole group, or a group and a varint. -/
theorem isVarint_varint (k : ℕ) : IsVarint (varint k) := by
  fun_induction varint k with
  | case1 k hlarge ih =>
    rw [IsVarint, splitVarint, toNat_byte (by omega), if_pos (by omega),
      show splitVarint (varint (k / 128)) = _ from ih, Option.map_some]
  | case2 k hsmall => rw [IsVarint, splitVarint, toNat_byte (by omega), if_neg (by omega)]

theorem groupValue_varint (k : ℕ) : groupValue (varint k) = k := by
  fun_induction varint k with
  | case1 k hlarge ih =>
    rw [groupValue, toNat_byte (by omega), ih]
    omega
  | case2 k hsmall =>
    rw [groupValue, groupValue, toNat_byte (by omega)]
    omega

theorem length_varint_le {j : ℕ} (h : k < 128 ^ (j + 1)) : (varint k).length ≤ j + 1 := by
  induction j generalizing k with
  | zero =>
    rw [varint, if_neg (by omega), length_singleton]
  | succ j ih =>
    rw [varint]
    split_ifs with hlarge
    · have hrest := ih (k := k / 128) (by rw [pow_succ] at h; omega)
      rw [length_cons]
      omega
    · simp

theorem reads_varint (hk : k ≤ 2 ^ 53) :
    Reads buf (ByteReader.varint buf) (varint k) (.ofInt k) := by
  intro pos n rest h hn hdrop
  have hbound := buf.length_lt
  obtain ⟨hle, -⟩ := drop_append hn hdrop
  have hsplit : splitVarint (buf.bytes.drop n) = some (varint k, rest) := by
    rw [hdrop]
    exact (isVarint_varint k).split rest
  have hzero : ¬ZeroBeyond 0 (varint k) := by
    rintro ⟨j, b, hj, hb, -⟩
    have hlt := (List.getElem?_eq_some_iff.mp hb).1
    have hlen := length_varint_le (k := k) (j := 8) (by omega)
    omega
  have hnumber := isNat_groupNumber (isVarint_varint k) hzero
  rw [groupValue_varint] at hnumber
  have hvalue : groupNumber (varint k) = .ofInt k := by
    by_cases hk0 : k = 0
    · subst hk0
      rw [varint, if_neg (by decide)]
      rfl
    · exact (hnumber.exact hk).eq (isIndex_ofInt hk).toIsInt (by exact_mod_cast hk0)
  refine ⟨_, ?_, ByteReader.isIndex_advance h (by omega)⟩
  rw [← hvalue]
  exact varint_of_splitVarint h hsplit

theorem reads_word (k : ℕ) {v : ℕ} (hv : v < 256 ^ k) :
    Reads buf (word k buf) (bigEndian k v) v := by
  intro pos n rest h hn hdrop
  have hbound := buf.length_lt
  obtain ⟨hle, -⟩ := drop_append hn hdrop
  rw [length_bigEndian] at hle
  refine ⟨pos.add (.ofInt k), ?_, ?_⟩
  · have hword := word_of_le h hle
    rwa [hdrop, take_left' (length_bigEndian k v), ofBigEndian_bigEndian hv] at hword
  · rw [length_bigEndian]
    exact h.add (isIndex_ofInt (by omega)) (by omega)

theorem reads_f64 (v : Binary64) : Reads buf (ByteReader.f64 buf) (f64 v) v := by
  have hword : Reads buf (word 8 buf) (bigEndian 8 v.bits.toNat) v.bits.toNat :=
    reads_word 8 v.bits.isLt
  have h := hword.map (g := ofWord64)
  rwa [ByteReader.ofWord64, BitVec.ofNat_toNat, BitVec.setWidth_eq] at h

theorem reads_str (s : JsString) : Reads buf (ByteReader.str buf) (str s) (received s) := by
  intro pos n rest h hn hdrop
  have hbound := buf.length_lt
  rw [str, append_assoc] at hdrop
  obtain ⟨hle, hdrop'⟩ := drop_append hn hdrop
  obtain ⟨hle', -⟩ := drop_append hle hdrop'
  have hk : (utf8Encode s).length ≤ 2 ^ 53 := by omega
  obtain ⟨start, hread, hstart⟩ := reads_varint hk pos n _ h hn hdrop
  have hnumber := isIndex_ofInt hk
  have hsum := hstart.add hnumber (by omega)
  have hlt : ¬buf.length.lt (start.add (.ofInt (utf8Encode s).length)) = true := by
    rw [length_lt_iff hsum.isNat]
    omega
  have hbody : buf.subarray start (start.add (.ofInt (utf8Encode s).length)) = utf8Encode s := by
    rw [ByteBuffer.subarray, clamp_of_isIndex hstart hle,
      clamp_of_isIndex hsum hle', drop_take, Nat.add_sub_cancel_left, hdrop',
      take_left]
  have htext : (ByteReader.text buf (.ofInt (utf8Encode s).length)).Gives start (received s)
      (start.add (.ofInt (utf8Encode s).length)) := by
    rw [Gives, ByteReader.text, if_neg hlt, hbody, received]
  refine ⟨_, hread.bind htext, ?_⟩
  rwa [str, length_append, ← add_assoc]

theorem Reads.of_short (h : w.length < 2 ^ 53 → Reads buf x w a) : Reads buf x w a := by
  intro pos n rest hpos hn hdrop
  have hbound := buf.length_lt
  obtain ⟨hle, -⟩ := drop_append hn hdrop
  exact h (by omega) pos n rest hpos hn hdrop

/-! ## Loops -/

namespace ByteReader

theorem Reads.rounds_end (k fuel : ℕ) (hk : k ≤ 2 ^ 53) :
    Reads buf (rounds (.ofInt k) x (fuel + 1) k) [] [] := by
  have hlt : ¬(Binary64.ofInt k).lt (.ofInt k) = true := by
    rw [(isInt_ofInt (by omega)).lt_iff (isInt_ofInt (by omega))]
    exact lt_irrefl _
  rw [rounds, if_neg hlt]
  exact Reads.pure []

theorem Reads.rounds_succ {i fuel : ℕ} {as : List α} (hk : k ≤ 2 ^ 53) (hi : i < k)
    (hx : Reads buf x w a) (hrest : Reads buf (rounds (.ofInt k) x fuel (i + 1)) w' as) :
    Reads buf (rounds (.ofInt k) x (fuel + 1) i) (w ++ w') (a :: as) := by
  have hlt : (Binary64.ofInt i).lt (.ofInt k) = true := by
    rw [(isInt_ofInt (by omega)).lt_iff (isInt_ofInt (by omega))]
    exact_mod_cast hi
  rw [rounds, if_pos hlt]
  exact hx.bind hrest.map

theorem isArrayLength_ofInt (hk : k < 2 ^ 32) : isArrayLength (.ofInt k) = true := by
  have hint := isInt_ofInt (n := k) (by omega)
  have hnonneg : 0 ≤ (Binary64.ofInt k).scaled := by
    rw [hint.value]
    positivity
  have hlt : (Binary64.ofInt k).lt (.ofInt (2 ^ 32 : ℕ)) = true := by
    rw [hint.lt_iff (isInt_ofInt (by decide))]
    exact_mod_cast hk
  rw [isArrayLength, hint.isInteger, decide_eq_true hnonneg, hlt]
  rfl

theorem isEven_ofInt (hk : k ≤ 2 ^ 53) : isEven (.ofInt k) = decide (k % 2 = 0) := by
  have hint := isInt_ofInt (n := k) (by omega)
  have hmod : (k : ℤ) * one % (2 * one) = (k % 2 : ℕ) * one := by
    rw [Int.mul_comm, Int.mul_comm 2, Int.mul_emod_mul_of_pos _ _ Binary64.one_pos, Int.mul_comm]
    push_cast
    rfl
  rw [isEven, hint.finite, Bool.true_and, hint.value, hmod, decide_eq_decide, mul_eq_zero]
  have hone := Binary64.one_pos
  omega

theorem unzigzagNumber_ofInt (hk : k ≤ 2 ^ 53) :
    unzigzagNumber (.ofInt k) = .ofInt (unzigzag k) := by
  rw [unzigzagNumber, isEven_ofInt hk, unzigzag]
  by_cases heven : k % 2 = 0
  · have hk2 : (k : ℤ) = 2 * (k / 2) := by omega
    have hhalf := half_ofInt (m := (k / 2 : ℤ)) (by omega)
    rw [decide_eq_true heven, if_pos rfl, if_pos heven, ← hhalf, ← hk2]
  · have hnext : ((Binary64.ofInt k).add unit).neg.IsInt (-(k + 1)) :=
      ((isInt_ofInt (by omega)).add isInt_unit (by omega)).neg
    have hodd : -(k + 1 : ℤ) = 2 * -((k + 1) / 2) := by omega
    have hhalf := half_ofInt (m := -((k + 1 : ℤ) / 2)) (by omega)
    rw [decide_eq_false heven, if_neg Bool.false_ne_true, if_neg heven,
      hnext.eq (isInt_ofInt (by omega)) (by omega), hodd, hhalf]

end ByteReader

/-! ## Values -/

namespace Value

mutual

/-- Every array is as long as an array may be. -/
def hasArrayLengths : Value → Bool
  | .array elems => decide (elems.length < 2 ^ 32) && elemsHaveArrayLengths elems
  | .object props => propsHaveArrayLengths props
  | _ => true

def elemsHaveArrayLengths : List Value → Bool
  | [] => true
  | v :: vs => v.hasArrayLengths && elemsHaveArrayLengths vs

def propsHaveArrayLengths : List (JsString × Value) → Bool
  | [] => true
  | (_, v) :: props => v.hasArrayLengths && propsHaveArrayLengths props

end

end Value

theorem length_writeValue_pos (v : Value) : 0 < (writeValue v).length := by
  cases v with
  | bool b => cases b <;> simp [writeValue]
  | number x =>
    rw [writeValue, writeNumber]
    split_ifs <;> simp
  | _ => simp [writeValue]

theorem length_le_writeElems (vs : List Value) : vs.length ≤ (writeElems vs).length := by
  induction vs with
  | nil => exact Nat.zero_le _
  | cons v vs ih =>
    have hpos := length_writeValue_pos v
    rw [writeElems, length_append, length_cons]
    omega

theorem countP_le_writeProps (props : List (JsString × Value)) :
    props.countP (fun p => p.2.isKept) ≤ (writeProps props).length := by
  induction props with
  | nil => exact Nat.zero_le _
  | cons p props ih =>
    obtain ⟨key, v⟩ := p
    have hpos := length_writeValue_pos v
    rw [writeProps, length_append, countP_cons]
    cases v.isKept <;> simp <;> omega

theorem reads_writeNumber (x : Binary64) (depth : ℕ) :
    Reads buf (ByteReader.readValueTo buf (depth + 1)) (writeNumber x) (plainNumber x) := by
  rw [writeNumber]
  cases hfinite : x.isFinite with
  | false =>
    have hnull : plainNumber x = .null := by
      rw [plainNumber, hfinite, Bool.not_false, if_pos rfl]
    rw [Bool.not_false, if_pos rfl, hnull]
    exact (reads_u8 0).bind (Reads.pure null)
  | true =>
    rw [Bool.not_true, if_neg Bool.false_ne_true]
    split_ifs with hlimits
    · obtain ⟨n, hx, hn⟩ := isInt_of_limits hlimits
      have hzigzag : zigzag n ≤ 2 ^ 53 := by
        rw [zigzag]
        split_ifs <;> omega
      rw [plainNumber_of_isInt hx hn, hx.toInt]
      have hcode : Reads buf (ByteReader.varint buf) (varint (zigzag n)) (.ofInt (zigzag n)) :=
        reads_varint hzigzag
      have hread := hcode.map (g := fun u => number (unzigzagNumber u))
      rw [unzigzagNumber_ofInt hzigzag, unzigzag_zigzag] at hread
      exact (reads_u8 3).bind hread
    · rw [plainNumber_of_not_limits hfinite (by simpa using hlimits)]
      exact (reads_u8 4).bind (reads_f64 x).map

mutual

theorem reads_value : ∀ (v : Value) {depth : ℕ} (_ : (writeValue v).length ≤ depth)
    (_ : v.hasArrayLengths = true), Reads buf (ByteReader.readValueTo buf depth) (writeValue v) v.sent
  | v, 0, h, _ => absurd (length_writeValue_pos v) (by omega)
  | .undefined, depth + 1, _, _ | .null, depth + 1, _, _ | .function _, depth + 1, _, _
  | .symbol, depth + 1, _, _ => by
    rw [writeValue, sent]
    exact (reads_u8 0).bind (Reads.pure _)
  | .bool false, depth + 1, _, _ => by
    rw [writeValue, sent]
    exact (reads_u8 1).bind (Reads.pure _)
  | .bool true, depth + 1, _, _ => by
    rw [writeValue, sent]
    exact (reads_u8 2).bind (Reads.pure _)
  | .number x, depth + 1, _, _ => by
    rw [writeValue, sent]
    exact reads_writeNumber x depth
  | .string s, depth + 1, _, _ => by
    rw [writeValue, sent]
    exact (reads_u8 5).bind (reads_str s).map
  | .array elems, depth + 1, h, hfits => by
    rw [hasArrayLengths, Bool.and_eq_true, decide_eq_true_eq] at hfits
    rw [writeValue] at h
    simp only [cons_append, length_cons, length_append] at h
    have hcount := length_le_writeElems elems
    rw [writeValue, sent]
    refine (reads_u8 6).bind ((reads_varint (by omega)).bind ?_)
    rw [if_pos (isArrayLength_ofInt hfits.1)]
    exact (reads_elems elems (by omega) hfits.2 (by omega) (by omega) (by omega)).map
  | .object props, depth + 1, h, hfits => by
    rw [hasArrayLengths] at hfits
    rw [writeValue] at h
    simp only [cons_append, length_cons, length_append] at h
    have hcount := countP_le_writeProps props
    rw [writeValue, sent]
    refine Reads.of_short fun hshort => ?_
    simp only [cons_append, length_cons, length_append] at hshort
    refine (reads_u8 7).bind ((reads_varint (by omega)).bind ?_)
    exact (reads_props props (by omega) hfits (by omega) (by omega) (by omega)).map

theorem reads_elems : ∀ (vs : List Value) {depth fuel i k : ℕ}
    (_ : (writeElems vs).length ≤ depth) (_ : elemsHaveArrayLengths vs = true)
    (_ : i + vs.length = k) (_ : k ≤ 2 ^ 53) (_ : vs.length < fuel),
    Reads buf (ByteReader.rounds (.ofInt k) (ByteReader.readValueTo buf depth) fuel i)
      (writeElems vs) (sentElems vs)
  | _, _, 0, _, _, _, _, _, _, hfuel => absurd hfuel (Nat.not_lt_zero _)
  | [], _, fuel + 1, i, k, _, _, hi, hk, _ => by
    obtain rfl : i = k := by simpa using hi
    exact Reads.rounds_end i fuel hk
  | v :: vs, depth, fuel + 1, i, k, h, hfits, hi, hk, hfuel => by
    rw [writeElems, length_append] at h
    rw [elemsHaveArrayLengths, Bool.and_eq_true] at hfits
    rw [length_cons] at hi hfuel
    rw [writeElems, sentElems]
    exact ByteReader.Reads.rounds_succ hk (by omega) (reads_value v (by omega) hfits.1)
      (reads_elems vs (by omega) hfits.2 (by omega) hk (by omega))

theorem reads_props : ∀ (props : List (JsString × Value)) {depth fuel i k : ℕ}
    (_ : (writeProps props).length ≤ depth) (_ : propsHaveArrayLengths props = true)
    (_ : i + props.countP (fun p => p.2.isKept) = k) (_ : k ≤ 2 ^ 53)
    (_ : props.countP (fun p => p.2.isKept) < fuel),
    Reads buf (rounds (.ofInt k)
      (ByteReader.readProp buf (ByteReader.readValueTo buf depth)) fuel i)
      (writeProps props) (sentProps props)
  | _, _, 0, _, _, _, _, _, _, hfuel => absurd hfuel (Nat.not_lt_zero _)
  | [], _, fuel + 1, i, k, _, _, hi, hk, _ => by
    obtain rfl : i = k := by simpa using hi
    exact Reads.rounds_end i fuel hk
  | (key, v) :: props, depth, fuel + 1, i, k, h, hfits, hi, hk, hfuel => by
    rw [writeProps, length_append] at h
    rw [propsHaveArrayLengths, Bool.and_eq_true] at hfits
    rw [writeProps, sentProps]
    cases hkept : v.isKept with
    | false =>
      rw [countP_cons_of_neg (by simp [hkept])] at hi hfuel
      exact reads_props props (by omega) hfits.2 hi hk hfuel
    | true =>
      rw [hkept, if_pos rfl, length_append] at h
      rw [countP_cons_of_pos (by simp [hkept])] at hi hfuel
      rw [if_pos rfl, if_pos rfl]
      have hprop : Reads buf (ByteReader.readProp buf (ByteReader.readValueTo buf depth))
          (str key ++ writeValue v) (received key, v.sent) :=
        (reads_str key).bind (reads_value v (by omega) hfits.1).map
      exact Reads.rounds_succ hk (by omega) hprop
        (reads_props props (by omega) hfits.2 (by omega) hk (by omega))

end

end AdapterWs.Wire
