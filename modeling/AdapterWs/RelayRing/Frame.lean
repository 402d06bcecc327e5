import AdapterWs.Lib.JsonText
import AdapterWs.RelayRing.Ring

/-!
# Relay frames

The bytes a relayed publish takes on the ring: a length, a kind, flags for the fields that are
there, and the fields behind the sizes of their texts. A batch is one text of JSON. The value of a
publish is of any type, with a function that writes its text or throws.
-/

namespace AdapterWs.RelayRing

open JsString List

variable {Value : Type} {stringify : Value → Option JsString}

/-! ## Messages -/

/-- The numbers of a relayed frame: stamped together or not at all. -/
structure Stamp where
  origin : ℕ
  ord : Binary64
  birth : Binary64

/-- A publish of its own. -/
structure PublishMessage (Value : Type) where
  topic : JsString
  envelope : JsString
  compress : Bool
  seq : Option Binary64
  capability : Option JsString
  event : Option JsString
  data : Option Value
  stamp : Option Stamp

/-- A publish of a batch. -/
structure RelayBatchedEntry where
  topic : JsString
  env : JsString
  seq : Option Binary64
  stamp : Option Stamp

/-- `esc(s)`: a quote, a backslash or a control character throws. -/
def esc (s : JsString) : Option JsString :=
  if s.any fun c => decide (c.toNat < 32) || c == 34 || c == 92 then none
  else some (lit "\"" ++ s ++ lit "\"")

/-- `envelopePrefix(topic, event)`. -/
def envelopePrefix (topic event : JsString) : Option JsString := do
  let t ← esc topic
  let e ← esc event
  some (lit "\x7b\"topic\":" ++ t ++ lit ",\"event\":" ++ e ++ lit ",\"data\":")

/-- `envelopeData(data)`. -/
def envelopeData (stringify : Value → Option JsString) : Option Value → Option JsString
  | none => some (lit "null")
  | some value => stringify value

/-- `completeSerializedEnvelope(body, seq, jitterMs)`. -/
def completeSerializedEnvelope (body : JsString) (seq jitterMs : Option Binary64) : JsString :=
  let tail := match jitterMs with
    | none => lit "\x7d"
    | some j => lit ",\"j\":" ++ j.text ++ lit "\x7d"
  match seq with
  | none => body ++ tail
  | some n => body ++ lit ",\"seq\":" ++ n.text ++ tail

/-- `completeEnvelope(envelopePrefix(topic, event), data, seq, jitterMs)`. -/
def completeEnvelope (stringify : Value → Option JsString) (topic event : JsString)
    (data : Option Value) (seq jitterMs : Option Binary64) : Option JsString := do
  let front ← envelopePrefix topic event
  let text ← envelopeData stringify data
  some (completeSerializedEnvelope (front ++ text) seq jitterMs)

/-! ## Frames -/

/-- The `n` bytes of a word, the least significant first; what does not fit is cut. -/
def littleEndian : ℕ → ℕ → Bytes
  | 0, _ => []
  | n + 1, v => UInt8.ofNat v :: littleEndian n (v / 256)

/-- `setFloat64(o, v, true)`. -/
def float64 (v : Binary64) : Bytes := littleEndian 8 v.bits.toNat

/-- A text behind its size in `n` bytes. -/
def sized (n : ℕ) (text : Bytes) : Bytes := littleEndian n text.length ++ text

/-- A field that may be absent. -/
def optional {α : Type} (write : α → Bytes) : Option α → Bytes
  | none => []
  | some a => write a

def Stamp.encode (s : Stamp) : Bytes := littleEndian 4 s.origin ++ float64 s.ord ++ float64 s.birth

/-- A body behind its length. -/
def framed (body : Bytes) : Bytes := littleEndian 4 body.length ++ body

/-- The flags of the fields that are there. -/
def PublishMessage.flags (m : PublishMessage Value) : ℕ :=
  m.compress.toNat + 2 * m.seq.isSome.toNat + 4 * m.capability.isSome.toNat +
    8 * m.event.isSome.toNat + 16 * m.data.isSome.toNat + 32 * m.stamp.isSome.toNat

/-- The fields of a publish, its value written as `data`. -/
def PublishMessage.body (m : PublishMessage Value) (data : Option Bytes) : Bytes :=
  [1, UInt8.ofNat m.flags] ++ sized 2 (utf8Encode m.topic) ++ sized 4 (utf8Encode m.envelope) ++
    optional float64 m.seq ++ optional (fun s => sized 2 (utf8Encode s)) m.capability ++
    optional (fun s => sized 2 (utf8Encode s)) m.event ++ optional (sized 4) data ++
    optional Stamp.encode m.stamp

/-- `encodePublishFrame(…)`: it throws where the value has no text. -/
def encodePublishFrame (stringify : Value → Option JsString) (m : PublishMessage Value) :
    Option Bytes :=
  match m.data with
  | none => some (framed (m.body none))
  | some value =>
    (stringify value).map fun text => framed (m.body (some (utf8Encode text)))

/-- An entry of a batch as `JSON.stringify` writes it. -/
def RelayBatchedEntry.json (e : RelayBatchedEntry) : JsString :=
  let stamp := match e.stamp with
    | none => lit "\x7d"
    | some s =>
      lit ",\"origin\":" ++ decimal s.origin ++ (lit ",\"ord\":" ++ jsonNumber s.ord ++
        (lit ",\"birth\":" ++ jsonNumber s.birth ++ lit "\x7d"))
  let seq := match e.seq with
    | none => lit "null"
    | some n => jsonNumber n
  lit "\x7b\"topic\":" ++ (quote e.topic ++ (lit ",\"env\":" ++ (quote e.env ++
    (lit ",\"seq\":" ++ (seq ++ stamp)))))

/-- `JSON.stringify(events)`. -/
def stringifyEvents (events : List RelayBatchedEntry) : JsString :=
  lit "[" ++ ((lit ",").intercalate (events.map RelayBatchedEntry.json) ++ lit "]")

/-- `encodePublishBatchedFrame(events, compress)`. -/
def encodePublishBatchedFrame (events : List RelayBatchedEntry) (compress : Bool) : Bytes :=
  framed ([2, if compress then 1 else 0] ++ sized 4 (utf8Encode (stringifyEvents events)))

/-! ## Sizes -/

/-- The bytes behind the length of a frame. -/
def bodyLength (frame : Bytes) : ℕ := frame.length - 4

/-- The bytes of an entry in the text of its batch. -/
def RelayBatchedEntry.size (e : RelayBatchedEntry) : ℕ :=
  28 + escapedSize e.topic + escapedSize e.env +
    (match e.seq with
      | none => 4
      | some n => (jsonNumber n).length) +
    match e.stamp with
      | none => 0
      | some s =>
        26 + (decimal s.origin).length + (jsonNumber s.ord).length + (jsonNumber s.birth).length

/-- The bytes of the text of a batch. -/
def batchSize (events : List RelayBatchedEntry) : ℕ :=
  2 + (events.map RelayBatchedEntry.size).sum + (events.length - 1)

@[simp] theorem length_littleEndian (n v : ℕ) : (littleEndian n v).length = n := by
  induction n generalizing v with
  | zero => rfl
  | succ n ih => rw [littleEndian, length_cons, ih]

@[simp] theorem length_float64 (v : Binary64) : (float64 v).length = 8 := length_littleEndian 8 _

@[simp] theorem length_sized (n : ℕ) (text : Bytes) : (sized n text).length = n + text.length := by
  rw [sized, length_append, length_littleEndian]

@[simp] theorem length_stamp (s : Stamp) : s.encode.length = 20 := by
  simp [Stamp.encode]

@[simp] theorem bodyLength_framed (body : Bytes) : bodyLength (framed body) = body.length := by
  rw [bodyLength, framed, length_append, length_littleEndian, Nat.add_sub_cancel_left]

theorem length_optional_le {α : Type} {write : α → Bytes} {a : Option α} {n : ℕ}
    (h : ∀ x ∈ a, (write x).length ≤ n) : (optional write a).length ≤ n := by
  cases a with
  | none => exact Nat.zero_le _
  | some x => exact h x rfl

/-- The bytes of a publish, with a bound for each field that may be absent. -/
theorem length_body_le {m : PublishMessage Value} {data : Option Bytes} {c e d : ℕ}
    (hc : ∀ s ∈ m.capability, byteLength s ≤ c) (he : ∀ s ∈ m.event, byteLength s ≤ e)
    (hd : ∀ bs ∈ data, bs.length ≤ d) :
    (m.body data).length ≤ 44 + byteLength m.topic + byteLength m.envelope + c + e + d := by
  have hseq : (optional float64 m.seq).length ≤ 8 :=
    length_optional_le fun v _ => (length_float64 v).le
  have hcap : (optional (fun s => sized 2 (utf8Encode s)) m.capability).length ≤ 2 + c := by
    refine length_optional_le fun s hs => ?_
    rw [length_sized]
    exact Nat.add_le_add_left (hc s hs) 2
  have hevent : (optional (fun s => sized 2 (utf8Encode s)) m.event).length ≤ 2 + e := by
    refine length_optional_le fun s hs => ?_
    rw [length_sized]
    exact Nat.add_le_add_left (he s hs) 2
  have hdata : (optional (sized 4) data).length ≤ 4 + d := by
    refine length_optional_le fun bs hbs => ?_
    rw [length_sized]
    exact Nat.add_le_add_left (hd bs hbs) 4
  have hstamp : (optional Stamp.encode m.stamp).length ≤ 20 :=
    length_optional_le fun s _ => (length_stamp s).le
  simp only [PublishMessage.body, length_append, length_cons, length_nil,
    length_sized]
  change _ + (_ + byteLength m.topic) + (_ + byteLength m.envelope) + _ + _ + _ + _ + _ ≤ _
  omega

theorem byteLength_jsonNumber (b : Binary64) :
    byteLength (jsonNumber b) = (jsonNumber b).length := by
  refine byteLength_of_ascii ?_
  rw [jsonNumber]
  split_ifs
  · exact Binary64.ascii_text b
  · decide

theorem byteLength_json (e : RelayBatchedEntry) : byteLength e.json = e.size := by
  have hclose : byteLength (lit "\x7d") = 1 := byteLength_of_ascii (by decide)
  have hseq : byteLength (lit "null") = 4 := byteLength_of_ascii (by decide)
  have hstamp (s : Stamp) : byteLength (lit ",\"origin\":" ++ decimal s.origin ++
      (lit ",\"ord\":" ++ jsonNumber s.ord ++ (lit ",\"birth\":" ++ jsonNumber s.birth ++
        lit "\x7d"))) =
      27 + (decimal s.origin).length + (jsonNumber s.ord).length +
        (jsonNumber s.birth).length := by
    rw [byteLength_append _ rfl, byteLength_lit_append (by decide) (n := 10) rfl,
      byteLength_append _ rfl, byteLength_lit_append (by decide) (n := 7) rfl,
      byteLength_append _ rfl, byteLength_lit_append (by decide) (n := 9) rfl,
      byteLength_jsonNumber,
      byteLength_jsonNumber, byteLength_of_ascii (Binary64.isAscii_decimal _), hclose]
    omega
  rw [RelayBatchedEntry.json, byteLength_lit_append (by decide) (n := 9) rfl,
    byteLength_append _ rfl, byteLength_lit_append (by decide) (n := 7) rfl,
    byteLength_append _ rfl, byteLength_lit_append (by decide) (n := 7) rfl, byteLength_quote,
    byteLength_quote, RelayBatchedEntry.size]
  cases e.seq <;> cases e.stamp
  all_goals
    simp only
    rw [byteLength_append _ rfl]
    simp only [hseq, hclose, hstamp, byteLength_jsonNumber]
    omega

theorem byteLength_stringifyEvents (events : List RelayBatchedEntry) :
    byteLength (stringifyEvents events) = batchSize events := by
  have hopen : ∀ p ∈ events.map RelayBatchedEntry.json, opensLow p = false := by
    intro p hp
    obtain ⟨e, -, rfl⟩ := mem_map.mp hp
    rfl
  have hclose : byteLength (lit "]") = 1 := byteLength_of_ascii (by decide)
  rw [stringifyEvents, byteLength_lit_append (by decide) (n := 1) rfl, byteLength_append _ rfl,
    byteLength_intercalate (by decide) rfl hopen, hclose, map_map, length_map, batchSize]
  have hmap : events.map (byteLength ∘ RelayBatchedEntry.json) =
      events.map RelayBatchedEntry.size := map_congr_left fun e _ => byteLength_json e
  rw [hmap]
  omega

theorem bodyLength_encodePublishBatchedFrame (events : List RelayBatchedEntry) (compress : Bool) :
    bodyLength (encodePublishBatchedFrame events compress) = 6 + batchSize events := by
  rw [encodePublishBatchedFrame, bodyLength_framed, length_append, length_sized]
  change 2 + (4 + byteLength (stringifyEvents events)) = _
  rw [byteLength_stringifyEvents]
  omega

end AdapterWs.RelayRing
