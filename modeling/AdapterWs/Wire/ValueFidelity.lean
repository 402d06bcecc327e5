import AdapterWs.Wire.Value
import Mathlib.Algebra.Order.BigOperators.Group.List

/-!
# The generic value codec and JSON

Every value is read back with the bytes it took, its strings as the text decoder gives them. That
is what JSON makes of the value exactly when all its strings and kept keys are texts.
-/

namespace AdapterWs.Wire

open JsString Throwing OwnProperties Binary64 List

/-! ## Numbers -/

theorem unzigzag_zigzag (n : ℤ) : unzigzag (zigzag n) = n := by
  rw [unzigzag, zigzag]
  split_ifs <;> omega

variable {x : Binary64}

theorem isInt_of_limits
    (h : (x.isInteger && Binary64.le (.ofInt (-INT_LIMIT)) x && x.le (.ofInt INT_LIMIT)) = true) :
    ∃ n, x.IsInt n ∧ n.natAbs ≤ 2 ^ 52 := by
  simp only [Bool.and_eq_true] at h
  obtain ⟨⟨hint, hlo⟩, hhi⟩ := h
  have hfinite : x.isFinite = true := by
    rw [isInteger, Bool.and_eq_true] at hint
    exact hint.1
  have hmin : (ofInt (-INT_LIMIT)).IsInt (-2 ^ 52) := isInt_ofInt (by decide)
  have hmax : (ofInt INT_LIMIT).IsInt (2 ^ 52) := isInt_ofInt (by decide)
  have hone := one_pos
  have hsafe : x.isSafeInteger = true := by
    rw [Binary64.le, Bool.and_eq_true, decide_eq_true_eq, hmin.value] at hlo
    rw [Binary64.le, Bool.and_eq_true, decide_eq_true_eq, hmax.value] at hhi
    rw [isSafeInteger, hint, Bool.true_and, decide_eq_true_eq, ← natAbs_scaled]
    zify
    rw [abs_lt]
    have hwide : (2 : ℤ) ^ 52 * one < 2 ^ 53 * one :=
      mul_lt_mul_of_pos_right (by norm_num) hone
    rw [neg_mul] at hlo
    exact ⟨(neg_lt_neg hwide).trans_le hlo.2, hhi.2.trans_lt hwide⟩
  obtain ⟨n, hn, -⟩ := isSafeInteger_iff.mp hsafe
  have hle := (hmin.le_iff hn).mp hlo
  have hge := (hn.le_iff hmax).mp hhi
  exact ⟨n, hn, by omega⟩

theorem plainNumber_of_isInt {n : ℤ} (h : x.IsInt n) (hn : n.natAbs ≤ 2 ^ 52) :
    Value.plainNumber x = .number (.ofInt n) := by
  have hzero : (ofInt 0).IsInt 0 := isInt_ofInt (by decide)
  rw [Value.plainNumber, h.finite, Bool.not_true, if_neg Bool.false_ne_true]
  by_cases h0 : n = 0
  · rw [if_pos ((h.strictEq_iff hzero).mpr h0), h0]
  · rw [if_neg fun heq => h0 ((h.strictEq_iff hzero).mp heq),
      h.eq (isInt_ofInt (by omega)) h0]

theorem plainNumber_of_not_limits (hfinite : x.isFinite = true)
    (h : (x.isInteger && Binary64.le (.ofInt (-INT_LIMIT)) x && x.le (.ofInt INT_LIMIT)) = false) :
    Value.plainNumber x = .number x := by
  have hzero : (ofInt 0).IsInt 0 := isInt_ofInt (by decide)
  rw [Value.plainNumber, hfinite, Bool.not_true, if_neg Bool.false_ne_true, if_neg]
  intro heq
  rw [strictEq, Bool.and_eq_true, decide_eq_true_eq, hzero.value] at heq
  have hx : x.IsInt 0 := ⟨hfinite, heq.2⟩
  have hint := isSafeInteger_iff.mpr ⟨0, hx, by decide⟩
  rw [isSafeInteger, Bool.and_eq_true] at hint
  have hlo := ((isInt_ofInt (n := -INT_LIMIT) (by decide)).le_iff hx).mpr (by decide)
  have hhi := (hx.le_iff (isInt_ofInt (n := INT_LIMIT) (by decide))).mpr (by decide)
  rw [hint.1, hlo, hhi] at h
  cases h

theorem gives_writeNumber (x : Binary64) (depth : ℕ) (rest : Bytes) :
    (readValueTo (depth + 1)).Gives (writeNumber x ++ rest) (Value.plainNumber x) rest := by
  rw [writeNumber]
  cases hfinite : x.isFinite with
  | false =>
    rw [Value.plainNumber, hfinite]
    exact (readU8_ofNat (n := 0) (by decide) rest).bind (gives_pure _ _)
  | true =>
    rw [Bool.not_true, if_neg Bool.false_ne_true]
    split_ifs with hlimits
    · obtain ⟨n, hn, hle⟩ := isInt_of_limits hlimits
      rw [plainNumber_of_isInt hn hle, hn.toInt]
      refine (readU8_ofNat (n := 3) (by decide) _).bind ?_
      have hread := (readVarint_varint (zigzag n) rest).map
        (g := fun u => Value.number (.ofInt (unzigzag u)))
      rw [unzigzag_zigzag] at hread
      exact hread
    · rw [plainNumber_of_not_limits hfinite (Bool.eq_false_of_not_eq_true hlimits)]
      exact (readU8_ofNat (n := 4) (by decide) _).bind (readF64_f64 x rest).map

/-! ## Every value is read -/

/-- A string as it is read. -/
def received (s : JsString) : JsString := utf8Decode (utf8Encode s)

namespace Value

mutual

/-- What is read of a value. -/
def sent : Value → Value
  | .undefined | .null | .function _ | .symbol => .null
  | .bool b => .bool b
  | .number x => plainNumber x
  | .string s => .string (received s)
  | .array elems => .array (sentElems elems)
  | .object props => .object (ofList (sentProps props))

def sentElems : List Value → List Value
  | [] => []
  | v :: vs => v.sent :: sentElems vs

def sentProps : List (JsString × Value) → List (JsString × Value)
  | [] => []
  | (key, v) :: props =>
    (if v.isKept then [(received key, v.sent)] else []) ++ sentProps props

end

end Value

mutual

theorem gives_readValueTo : ∀ (v : Value) {depth : ℕ} (_ : (writeValue v).length ≤ depth)
    (rest : Bytes), (readValueTo depth).Gives (writeValue v ++ rest) v.sent rest
  | v, 0, h, rest => by
    cases v with
    | bool b => cases b <;> simp [writeValue] at h
    | number x =>
      rw [writeValue, writeNumber] at h
      split_ifs at h <;> simp at h
    | _ => simp [writeValue] at h
  | .undefined, depth + 1, _, rest | .null, depth + 1, _, rest | .function _, depth + 1, _, rest
  | .symbol, depth + 1, _, rest => by
    rw [writeValue, Value.sent]
    exact (readU8_ofNat (n := 0) (by decide) rest).bind (gives_pure _ _)
  | .bool false, depth + 1, _, rest => by
    rw [writeValue, Value.sent]
    exact (readU8_ofNat (n := 1) (by decide) rest).bind (gives_pure _ _)
  | .bool true, depth + 1, _, rest => by
    rw [writeValue, Value.sent]
    exact (readU8_ofNat (n := 2) (by decide) rest).bind (gives_pure _ _)
  | .number x, depth + 1, _, rest => by
    rw [writeValue, Value.sent]
    exact gives_writeNumber x depth rest
  | .string s, depth + 1, _, rest => by
    rw [writeValue, Value.sent]
    exact (readU8_ofNat (n := 5) (by decide) _).bind (readStr_str_eq s rest).map
  | .array elems, depth + 1, h, rest => by
    rw [writeValue] at h
    simp only [cons_append, length_cons, length_append] at h
    rw [writeValue, Value.sent, cons_append, cons_append, append_assoc]
    refine (readU8_ofNat (n := 6) (by decide) _).bind ((readVarint_varint elems.length _).bind ?_)
    exact (gives_readElems elems (by omega) rest).map
  | .object props, depth + 1, h, rest => by
    rw [writeValue] at h
    simp only [cons_append, length_cons, length_append] at h
    rw [writeValue, Value.sent, cons_append, cons_append, append_assoc]
    refine (readU8_ofNat (n := 7) (by decide) _).bind ((readVarint_varint _ _).bind ?_)
    exact (gives_readProps props (by omega) rest).map

theorem gives_readElems : ∀ (vs : List Value) {depth : ℕ} (_ : (writeElems vs).length ≤ depth)
    (rest : Bytes), (times vs.length (readValueTo depth)).Gives (writeElems vs ++ rest)
      (Value.sentElems vs) rest
  | [], _, _, rest => gives_times_zero _ rest
  | v :: vs, depth, h, rest => by
    rw [writeElems, length_append] at h
    rw [writeElems, append_assoc, Value.sentElems]
    exact (gives_readValueTo v (by omega) _).times_succ (gives_readElems vs (by omega) rest)

theorem gives_readProps : ∀ (props : List (JsString × Value)) {depth : ℕ}
    (_ : (writeProps props).length ≤ depth) (rest : Bytes),
    (times (props.countP fun p => p.2.isKept) (readProp (readValueTo depth))).Gives
      (writeProps props ++ rest) (Value.sentProps props) rest
  | [], _, _, rest => gives_times_zero _ rest
  | (key, v) :: props, depth, h, rest => by
    rw [writeProps, length_append] at h
    rw [writeProps, append_assoc, Value.sentProps]
    cases hkept : v.isKept with
    | false =>
      rw [countP_cons_of_neg (by simp [hkept])]
      exact gives_readProps props (by omega) rest
    | true =>
      rw [hkept, if_pos rfl, length_append] at h
      rw [countP_cons_of_pos (by simp [hkept]), if_pos rfl, append_assoc]
      have hprop : (readProp (readValueTo depth)).Gives
          (str key ++ (writeValue v ++ (writeProps props ++ rest))) (received key, v.sent)
          (writeProps props ++ rest) :=
        (readStr_str_eq key _).bind (gives_readValueTo v (by omega) _).map
      exact hprop.times_succ (gives_readProps props (by omega) rest)

end

/-! ## What JSON makes of it -/

theorem isText_of_mem_keys {K : List JsString} (hK : K.Nodup)
    (h : ∀ k, k ∈ K.map received ↔ k ∈ K) : ∀ k ∈ K, isText k = true := by
  have hperm : K.Perm (K.map received) :=
    (hK.subperm fun k hk => (h k).mpr hk).perm_of_length_le (by simp)
  have hsums := (hperm.map length).sum_eq
  have hformed : ∀ k ∈ K, isText k = true ∨ k = 0xFEFF :: received k := by
    intro k hk
    obtain ⟨k', -, rfl⟩ := mem_map.mp ((h k).mpr hk)
    exact utf8Decode_utf8Encode_of_isWellFormed (isWellFormed_utf8Decode_utf8Encode k')
  -- a byte order mark that is lost would make the keys shorter
  have hmark : ∀ k ∈ K, isText k = false → (received k).length < k.length := by
    intro k hk hnot
    rcases hformed k hk with htext | hmark
    · rw [htext] at hnot
      cases hnot
    · have hlen := congrArg length hmark
      rw [length_cons] at hlen
      omega
  intro k hk
  by_contra hnot
  have hlt : (K.map fun k => (received k).length).sum < (K.map length).sum := by
    refine sum_lt_sum _ _ (fun l hl => ?_) ⟨k, hk, hmark k hk (Bool.eq_false_of_not_eq_true hnot)⟩
    cases htext : isText l with
    | true => rw [received, utf8Decode_utf8Encode htext]
    | false => exact (hmark l hl htext).le
  rw [map_map] at hsums
  exact hlt.ne hsums.symm

namespace Value

theorem jsonView_of_isKept {v : Value} (hkept : v.isKept = true) (h : v.hasNoToJSON = true) :
    v.jsonView = some v.jsonRoundTrip := by
  rw [jsonRoundTrip]
  cases v with
  | object props =>
    rw [hasNoToJSON, Bool.and_eq_true, Option.isNone_iff_eq_none] at h
    rw [jsonView, h.1]
    rfl
  | undefined => cases hkept
  | function => cases hkept
  | symbol => cases hkept
  | _ => rw [jsonView]; rfl

theorem jsonView_of_not_isKept {v : Value} (hkept : v.isKept = false) : v.jsonView = none := by
  cases v with
  | undefined | function | symbol => simp [jsonView]
  | _ => cases hkept

/-- The keys that JSON keeps. -/
def keptKeys (props : List (JsString × Value)) : List JsString :=
  (props.filter fun p => p.2.isKept).map Prod.fst

theorem keys_sentProps (props : List (JsString × Value)) :
    (sentProps props).map Prod.fst = (keptKeys props).map received := by
  induction props with
  | nil => rfl
  | cons p props ih =>
    obtain ⟨key, v⟩ := p
    rw [sentProps, map_append, ih, keptKeys, keptKeys, filter_cons]
    cases v.isKept <;> rfl

theorem keys_jsonProps {props : List (JsString × Value)} (h : propsHaveNoToJSON props = true) :
    (jsonProps props).map Prod.fst = keptKeys props := by
  induction props with
  | nil => rfl
  | cons p props ih =>
    obtain ⟨key, v⟩ := p
    rw [propsHaveNoToJSON, Bool.and_eq_true] at h
    rw [jsonProps, map_append, ih h.2, keptKeys, keptKeys, filter_cons]
    cases hkept : v.isKept with
    | false => rw [jsonView_of_not_isKept hkept]; rfl
    | true => rw [jsonView_of_isKept hkept h.1]; rfl

/-- An object whose keys are texts keeps the order of its properties. -/
theorem ofList_sentProps_eq_iff {props : List (JsString × Value)} (hordered : Ordered props)
    (h : propsHaveNoToJSON props = true) :
    ofList (sentProps props) = ofList (jsonProps props) ↔ sentProps props = jsonProps props := by
  have hkeys : (keptKeys props).Pairwise fun k l => k ≠ l ∧ precedes l k = false :=
    (ordered_iff_keys.mp hordered).sublist (filter_sublist.map Prod.fst)
  have hjson : Ordered (jsonProps props) := ordered_iff_keys.mpr (keys_jsonProps h ▸ hkeys)
  refine ⟨fun heq => ?_, fun heq => by rw [heq]⟩
  rw [ofList_of_ordered hjson] at heq
  have htext : ∀ k ∈ keptKeys props, isText k = true := by
    refine isText_of_mem_keys (hkeys.imp fun h => h.1) fun k => ?_
    rw [← keys_sentProps, ← mem_keys_ofList, heq, keys_jsonProps h]
  have hsame : (keptKeys props).map received = keptKeys props :=
    (map_congr_left fun k hk => utf8Decode_utf8Encode (htext k hk)).trans (map_id _)
  have hsent : Ordered (sentProps props) := by
    rw [ordered_iff_keys, keys_sentProps, hsame]
    exact hkeys
  rwa [ofList_of_ordered hsent] at heq

end Value

open Value

mutual

/-- A value is read as JSON would read it exactly when its strings are texts. -/
theorem sent_eq_iff : ∀ (v : Value), v.isOrdered = true → v.hasNoToJSON = true →
    (v.sent = v.jsonRoundTrip ↔ v.isTextual = true)
  | .undefined, _, _ | .null, _, _ | .function _, _, _ | .symbol, _, _ | .bool _, _, _
  | .number _, _, _ => by
    simp [sent, jsonRoundTrip, jsonView, isTextual]
  | .string s, _, _ => by
    simp only [sent, jsonRoundTrip, jsonView, Option.getD_some, Value.string.injEq, isTextual]
    exact utf8Decode_utf8Encode_iff
  | .array elems, ho, hj => by
    rw [isOrdered] at ho
    rw [hasNoToJSON] at hj
    simp only [sent, jsonRoundTrip, jsonView, Option.getD_some, Value.array.injEq, isTextual]
    exact sentElems_eq_iff elems ho hj
  | .object props, ho, hj => by
    rw [isOrdered, Bool.and_eq_true, decide_eq_true_eq] at ho
    rw [hasNoToJSON, Bool.and_eq_true, Option.isNone_iff_eq_none] at hj
    simp only [sent, jsonRoundTrip, jsonView, hj.1, Option.getD_some, Value.object.injEq, isTextual]
    rw [ofList_sentProps_eq_iff ho.1 hj.2]
    exact sentProps_eq_iff props ho.2 hj.2

theorem sentElems_eq_iff : ∀ (vs : List Value), isOrderedElems vs = true →
    elemsHaveNoToJSON vs = true → (sentElems vs = jsonElems vs ↔ isTextualElems vs = true)
  | [], _, _ => by simp [sentElems, jsonElems, isTextualElems]
  | v :: vs, ho, hj => by
    rw [isOrderedElems, Bool.and_eq_true] at ho
    rw [elemsHaveNoToJSON, Bool.and_eq_true] at hj
    rw [sentElems, jsonElems, isTextualElems, cons.injEq, Bool.and_eq_true,
      sentElems_eq_iff vs ho.2 hj.2, ← sent_eq_iff v ho.1 hj.1, jsonRoundTrip]

theorem sentProps_eq_iff : ∀ (props : List (JsString × Value)), isOrderedProps props = true →
    propsHaveNoToJSON props = true →
    (sentProps props = jsonProps props ↔ isTextualProps props = true)
  | [], _, _ => by simp [sentProps, jsonProps, isTextualProps]
  | (key, v) :: props, ho, hj => by
    rw [isOrderedProps, Bool.and_eq_true] at ho
    rw [propsHaveNoToJSON, Bool.and_eq_true] at hj
    have hrest := sentProps_eq_iff props ho.2 hj.2
    have hvalue := sent_eq_iff v ho.1 hj.1
    rw [sentProps, jsonProps, isTextualProps]
    cases hkept : v.isKept with
    | false => simpa [jsonView_of_not_isKept hkept] using hrest
    | true =>
      rw [jsonView_of_isKept hkept hj.1]
      simp [hvalue, hrest, received, utf8Decode_utf8Encode_iff]

end

/-! ## The round trip -/

/-- A value is read back as JSON would read it, from all its bytes. -/
def RoundTrips (v : Value) : Prop := decodeValue (encodeValue v) = (some v.jsonRoundTrip, [])

theorem decodeValue_encodeValue (v : Value) : decodeValue (encodeValue v) = (some v.sent, []) := by
  have hread := gives_readValueTo v le_rfl []
  rw [append_nil] at hread
  exact hread

/-- Exactly the values whose strings and kept keys are texts round-trip as JSON does. -/
theorem roundTrips_iff_isTextual (v : PlainValue) (h : v.value.hasNoToJSON = true) :
    RoundTrips v.value ↔ v.value.isTextual = true := by
  rw [RoundTrips, decodeValue_encodeValue, ← sent_eq_iff v.value v.ordered h]
  simp

/-- An object with a negative zero, an integer at the limit, a gap, and properties JSON drops. -/
def mixedValue : PlainValue where
  value := .object [(lit "7", .number (.ofPattern true 0)), (lit "a", .undefined),
    (lit "__proto__", .array [.number (.ofInt INT_LIMIT), .undefined, .string [0xE9]]),
    (lit "b", .number .nan)]
  ordered := by decide +kernel

theorem roundTrips_iff_isTextual_mixedValue : RoundTrips mixedValue.value :=
  (roundTrips_iff_isTextual mixedValue (by decide +kernel)).mpr (by decide +kernel)

/-- A string that starts with a byte order mark comes back without it. -/
theorem not_roundTrips_mark :
    ∃ v : PlainValue, v.value.hasNoToJSON = true ∧ ¬RoundTrips v.value := by
  refine ⟨⟨.string [0xFEFF, 0x61], by decide⟩, by decide, fun h => ?_⟩
  rw [RoundTrips, decodeValue_encodeValue, Value.jsonRoundTrip, Value.jsonView, Value.sent] at h
  simp only [Option.getD_some, Prod.mk.injEq, Option.some.injEq, Value.string.injEq, and_true,
    received, utf8Decode_utf8Encode_iff] at h
  revert h
  decide

end AdapterWs.Wire
