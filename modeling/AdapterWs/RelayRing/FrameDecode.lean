import AdapterWs.Lib.Throwing
import AdapterWs.RelayRing.Fidelity
import AdapterWs.RelayRing.FrameCeiling

/-!
# Reading relay frames

The other end of the ring takes a frame apart: every size is read before its field, a size behind
the end of the frame throws, and a text is whatever its bytes decode to. `JSON.parse` is a function
that may throw.
-/

namespace AdapterWs.RelayRing

open JsString List Throwing

variable {Value : Type} {stringify : Value → Option JsString} {parse : JsString → Option Value}
  {m : PublishMessage Value} {config : Config}

/-! ## Frames taken apart -/

/-- A message, as it is handed to the dispatch. -/
inductive RelayMessage (Value : Type)
  | publish (m : PublishMessage Value)
  | publishBatched (events : Value) (compress : Bool)

/-- The number of some bytes, the least significant first. -/
def ofLittleEndian : Bytes → ℕ
  | [] => 0
  | b :: bs => b.toNat + 256 * ofLittleEndian bs

/-- `getUint16(o, true)` and its kind, of `n` bytes: a read behind the end throws. -/
def getUint (n : ℕ) : Throwing Bytes ℕ := fun rest =>
  if rest.length < n then (none, rest) else (some (ofLittleEndian (rest.take n)), rest.drop n)

/-- `getFloat64(o, true)`. -/
def getFloat64 : Throwing Bytes Binary64 := do
  let bits ← getUint 8
  pure ⟨BitVec.ofNat 64 bits⟩

/-- `textDecoder.decode(frame.subarray(o, o + n))`: the part ends where the frame ends. -/
def decodeText (n : ℕ) : Throwing Bytes JsString := fun rest =>
  (some (utf8Decode (rest.take n)), rest.drop n)

/-- A text behind its size in `n` bytes. -/
def getText (n : ℕ) : Throwing Bytes JsString := do
  let size ← getUint n
  decodeText size

/-- `JSON.parse` of a text behind its size. -/
def getJson (parse : JsString → Option Value) : Throwing Bytes Value := do
  let text ← getText 4
  match parse text with
  | none => throw
  | some value => pure value

def getStamp : Throwing Bytes Stamp := do
  let origin ← getUint 4
  let ord ← getFloat64
  let birth ← getFloat64
  pure ⟨origin, ord, birth⟩

/-- A field that is there if its flag is. -/
def getIf {α : Type} (isSet : Bool) (read : Throwing Bytes α) : Throwing Bytes (Option α) :=
  if isSet then do
    let a ← read
    pure (some a)
  else pure none

/-- The fields of a publish, behind its flags. -/
def decodePublish (parse : JsString → Option Value) (flags : ℕ) :
    Throwing Bytes (PublishMessage Value) := do
  let topic ← getText 2
  let envelope ← getText 4
  let seq ← getIf (flags.testBit 1) getFloat64
  let capability ← getIf (flags.testBit 2) (getText 2)
  let event ← getIf (flags.testBit 3) (getText 2)
  let data ← getIf (flags.testBit 4) (getJson parse)
  let stamp ← getIf (flags.testBit 5) getStamp
  pure ⟨topic, envelope, flags.testBit 0, seq, capability, event, data, stamp⟩

/-- `decodeRelayFrame(frame)`: no result if it throws, and no message if the kind is unknown. -/
def decodeRelayFrame (parse : JsString → Option Value) (frame : Bytes) :
    Option (Option (RelayMessage Value)) :=
  match frame.drop 4 with
  | [] => some none
  | kind :: rest =>
    let flags := (rest.headD 0).toNat
    if kind = 1 then
      (decodePublish parse flags rest.tail).1.map fun m => some (.publish m)
    else if kind = 2 then
      (getJson parse rest.tail).1.map fun events => some (.publishBatched events (flags.testBit 0))
    else some none

/-! ## Reading what was written -/

/-- What a text is once its bytes are decoded. -/
def received (s : JsString) : JsString := utf8Decode (utf8Encode s)

theorem ofLittleEndian_littleEndian {n v : ℕ} (h : v < 256 ^ n) :
    ofLittleEndian (littleEndian n v) = v := by
  induction n generalizing v with
  | zero => exact (Nat.lt_one_iff.mp h).symm
  | succ n ih =>
    have hdiv : v / 256 < 256 ^ n := Nat.div_lt_of_lt_mul (by rwa [pow_succ'] at h)
    rw [littleEndian, ofLittleEndian, ih hdiv, UInt8.toNat_ofNat']
    omega

theorem gives_getUint {n v : ℕ} (h : v < 256 ^ n) (rest : Bytes) :
    (getUint n).Gives (littleEndian n v ++ rest) v rest := by
  have hlen : ¬ (littleEndian n v ++ rest).length < n := by
    rw [length_append, length_littleEndian]
    omega
  rw [Gives, getUint, if_neg hlen, take_left' (length_littleEndian n v),
    drop_left' (length_littleEndian n v), ofLittleEndian_littleEndian h]

theorem gives_getFloat64 (v : Binary64) (rest : Bytes) :
    getFloat64.Gives (float64 v ++ rest) v rest := by
  have hbits : BitVec.ofNat 64 v.bits.toNat = v.bits := BitVec.ofNat_toNat 64 v.bits
  have h := (gives_getUint (n := 8) v.bits.isLt rest).map (g := fun b => Binary64.mk (.ofNat 64 b))
  rwa [hbits] at h

theorem gives_getText {n : ℕ} {s : JsString} (h : byteLength s < 256 ^ n) (rest : Bytes) :
    (getText n).Gives (sized n (utf8Encode s) ++ rest) (received s) rest := by
  rw [sized, append_assoc]
  refine (gives_getUint h (utf8Encode s ++ rest)).bind ?_
  rw [Gives, decodeText, byteLength, take_left, drop_left, received]

theorem gives_getStamp {s : Stamp} (h : s.origin < 256 ^ 4) (rest : Bytes) :
    getStamp.Gives (s.encode ++ rest) s rest := by
  rw [Stamp.encode, append_assoc, append_assoc]
  exact (gives_getUint h _).bind ((gives_getFloat64 s.ord _).bind (gives_getFloat64 s.birth _).map)

/-- A field that may be absent, behind a flag that tells. -/
theorem gives_getIf {α β : Type} {read : Throwing Bytes β} {write : α → Bytes} {f : α → β}
    {a : Option α} (h : ∀ x ∈ a, ∀ rest, read.Gives (write x ++ rest) (f x) rest) (rest : Bytes) :
    (getIf a.isSome read).Gives (optional write a ++ rest) (a.map f) rest := by
  cases a with
  | none => exact gives_pure none rest
  | some x => exact (h x rfl rest).map

/-- Every field is told by a bit of its own. -/
theorem testBit_flags (m : PublishMessage Value) :
    (UInt8.ofNat m.flags).toNat.testBit 0 = m.compress ∧
      (UInt8.ofNat m.flags).toNat.testBit 1 = m.seq.isSome ∧
      (UInt8.ofNat m.flags).toNat.testBit 2 = m.capability.isSome ∧
      (UInt8.ofNat m.flags).toNat.testBit 3 = m.event.isSome ∧
      (UInt8.ofNat m.flags).toNat.testBit 4 = m.data.isSome ∧
      (UInt8.ofNat m.flags).toNat.testBit 5 = m.stamp.isSome := by
  have hall : ∀ a b c d e f : Bool, ∀ n, n = a.toNat + 2 * b.toNat + 4 * c.toNat + 8 * d.toNat +
      16 * e.toNat + 32 * f.toNat → (UInt8.ofNat n).toNat.testBit 0 = a ∧
      (UInt8.ofNat n).toNat.testBit 1 = b ∧ (UInt8.ofNat n).toNat.testBit 2 = c ∧
      (UInt8.ofNat n).toNat.testBit 3 = d ∧ (UInt8.ofNat n).toNat.testBit 4 = e ∧
      (UInt8.ofNat n).toNat.testBit 5 = f := by
    rintro a b c d e f _ rfl
    revert a b c d e f
    decide
  exact hall _ _ _ _ _ _ _ rfl

/-! ## A publish -/

/-- The fields of a message fit their sizes on the wire. -/
structure PublishMessage.Fits (stringify : Value → Option JsString) (m : PublishMessage Value) :
    Prop where
  topic : byteLength m.topic < 256 ^ 2
  envelope : byteLength m.envelope < 256 ^ 4
  capability : ∀ s ∈ m.capability, byteLength s < 256 ^ 2
  event : ∀ s ∈ m.event, byteLength s < 256 ^ 2
  data : ∀ v ∈ m.data, ∀ s ∈ stringify v, byteLength s < 256 ^ 4
  stamp : ∀ s ∈ m.stamp, s.origin < 256 ^ 4

/-- The texts of a message survive the wire, and its value survives its text. -/
structure PublishMessage.Legible (stringify : Value → Option JsString)
    (parse : JsString → Option Value) (m : PublishMessage Value) : Prop where
  topic : isText m.topic = true
  envelope : isText m.envelope = true
  capability : ∀ s ∈ m.capability, isText s = true
  event : ∀ s ∈ m.event, isText s = true
  data : ∀ v ∈ m.data, ∀ s ∈ stringify v, parse (received s) = some v

/-- A message once its texts are decoded, under a value of its own. -/
def PublishMessage.received (m : PublishMessage Value) (data : Option Value) :
    PublishMessage Value :=
  { m with
    topic := RelayRing.received m.topic
    envelope := RelayRing.received m.envelope
    capability := m.capability.map RelayRing.received
    event := m.event.map RelayRing.received
    data := data }

theorem map_received_eq_iff {a : Option JsString} :
    a.map received = a ↔ ∀ s ∈ a, isText s = true := by
  cases a with
  | none => exact ⟨fun _ s hs => absurd hs (Option.not_mem_none s), fun _ => rfl⟩
  | some s =>
    rw [Option.map_some, Option.some.injEq, received, utf8Decode_utf8Encode_iff]
    refine ⟨fun h x hx => ?_, fun h => h s rfl⟩
    rwa [← Option.some.inj hx]

theorem received_eq_iff {data : Option Value} : m.received data = m ↔
    isText m.topic = true ∧ isText m.envelope = true ∧ (∀ s ∈ m.capability, isText s = true) ∧
      (∀ s ∈ m.event, isText s = true) ∧ data = m.data := by
  cases m
  simp only [PublishMessage.received, PublishMessage.mk.injEq, map_received_eq_iff, true_and,
    and_true]
  rw [RelayRing.received, RelayRing.received, utf8Decode_utf8Encode_iff, utf8Decode_utf8Encode_iff]

theorem gives_stamp (hfits : m.Fits stringify) (rest : Bytes) :
    (getIf m.stamp.isSome getStamp).Gives (optional Stamp.encode m.stamp ++ rest) m.stamp rest := by
  have h := gives_getIf (f := id) (fun s hs => gives_getStamp (hfits.stamp s hs)) rest
  rwa [Option.map_id] at h

/-- A message is read as it was written, if its value is; where that throws, so does the whole. -/
theorem decodePublish_body (hfits : m.Fits stringify) {data : Option Bytes}
    {value : Option (Option Value)} (hvalue : getIf m.data.isSome (getJson parse)
      (optional (sized 4) data ++ (optional Stamp.encode m.stamp ++ [])) =
        (value, optional Stamp.encode m.stamp ++ [])) :
    (decodePublish parse (UInt8.ofNat m.flags).toNat ((m.body data).drop 2)).1 =
      value.map m.received := by
  obtain ⟨hcompress, hseq, hcapability, hevent, hdata, hstamp⟩ := testBit_flags m
  have hgetSeq := gives_getIf (f := id) (a := m.seq) (fun v _ => gives_getFloat64 v)
  have hgetCapability := gives_getIf (fun s hs => gives_getText (hfits.capability s hs))
  have hgetEvent := gives_getIf (fun s hs => gives_getText (hfits.event s hs))
  rw [Option.map_id] at hgetSeq
  rw [← append_nil (drop 2 _)]
  simp only [PublishMessage.body, cons_append, nil_append, drop_succ_cons, drop_zero, append_assoc]
  rw [decodePublish, hcompress, hseq, hcapability, hevent, hdata, hstamp,
    (gives_getText hfits.topic _).bind_eq, (gives_getText hfits.envelope _).bind_eq,
    (hgetSeq _).bind_eq, (hgetCapability _).bind_eq, (hgetEvent _).bind_eq, bind_apply, hvalue]
  cases value with
  | none => rfl
  | some value => exact congrArg Prod.fst (gives_stamp hfits []).map

theorem decodeRelayFrame_framed (m : PublishMessage Value) (data : Option Bytes) :
    decodeRelayFrame parse (framed (m.body data)) =
      (decodePublish parse (UInt8.ofNat m.flags).toNat ((m.body data).drop 2)).1.map
        fun m => some (.publish m) := by
  rw [framed, decodeRelayFrame, drop_left' (length_littleEndian 4 _)]
  rfl

/-- What becomes of the value of a message: there is none, or its text is parsed, or that throws. -/
def PublishMessage.parsed (stringify : Value → Option JsString) (parse : JsString → Option Value)
    (m : PublishMessage Value) : Option (Option Value) :=
  match m.data.bind stringify with
  | none => some none
  | some text => (parse (RelayRing.received text)).map some

theorem decodeRelayFrame_encodePublishFrame (hfits : m.Fits stringify) {frame : Bytes}
    (hframe : encodePublishFrame stringify m = some frame) : decodeRelayFrame parse frame =
      (m.parsed stringify parse).map fun value => some (.publish (m.received value)) := by
  have hbody {data : Option Bytes} (hvalue : getIf m.data.isSome (getJson parse)
      (optional (sized 4) data ++ (optional Stamp.encode m.stamp ++ [])) =
        (m.parsed stringify parse, optional Stamp.encode m.stamp ++ [])) :
      decodeRelayFrame parse (framed (m.body data)) =
        (m.parsed stringify parse).map fun value => some (.publish (m.received value)) := by
    rw [decodeRelayFrame_framed, decodePublish_body hfits hvalue, Option.map_map]
    rfl
  rw [encodePublishFrame] at hframe
  cases hdata : m.data with
  | none =>
    rw [hdata] at hframe
    rw [← Option.some.inj hframe]
    refine hbody ?_
    rw [PublishMessage.parsed, hdata]
    rfl
  | some value =>
    rw [hdata] at hframe
    obtain ⟨text, htext, rfl⟩ := Option.map_eq_some_iff.mp hframe
    refine hbody ?_
    have hsize : byteLength text < 256 ^ 4 := hfits.data value hdata text htext
    have hparsed : m.parsed stringify parse = (parse (received text)).map some := by
      rw [PublishMessage.parsed, hdata, Option.bind_some, htext]
    rw [hparsed, hdata, Option.isSome_some, getIf, if_pos rfl, bind_apply, getJson, optional,
      (gives_getText hsize _).bind_eq]
    cases parse (received text) <;> rfl

/-- A message is received as it was exactly if its texts and its value are. -/
theorem map_received_eq_some_iff (hframe : (encodePublishFrame stringify m).isSome = true) :
    (m.parsed stringify parse).map m.received = some m ↔ m.Legible stringify parse := by
  have hparsed : m.parsed stringify parse = some m.data ↔
      ∀ v ∈ m.data, ∀ s ∈ stringify v, parse (received s) = some v := by
    rw [encodePublishFrame] at hframe
    cases hdata : m.data with
    | none =>
      rw [PublishMessage.parsed, hdata]
      exact ⟨fun _ v hv => absurd hv (Option.not_mem_none v), fun _ => rfl⟩
    | some value =>
      rw [hdata] at hframe
      obtain ⟨text, htext⟩ := Option.isSome_iff_exists.mp ((Option.isSome_map).symm.trans hframe)
      rw [PublishMessage.parsed, hdata, Option.bind_some, htext]
      simp [htext]
  simp only [Option.map_eq_some_iff, received_eq_iff]
  constructor
  · rintro ⟨data, hdata, htopic, henvelope, hcapability, hevent, rfl⟩
    exact ⟨htopic, henvelope, hcapability, hevent, hparsed.mp hdata⟩
  · intro h
    exact ⟨m.data, hparsed.mpr h.data, h.topic, h.envelope, h.capability, h.event, rfl⟩

/-- A publish whose fields fit arrives as it was exactly if its texts are well formed and start
with no mark, and its value is what its text parses to. -/
theorem arrives_iff_legible (hfits : m.Fits stringify) {frame : Bytes}
    (hframe : encodePublishFrame stringify m = some frame) :
    decodeRelayFrame parse frame = some (some (.publish m)) ↔ m.Legible stringify parse := by
  rw [decodeRelayFrame_encodePublishFrame hfits hframe,
    ← map_received_eq_some_iff (Option.isSome_of_eq_some hframe), Option.map_eq_some_iff,
    Option.map_eq_some_iff]
  simp only [Option.some.injEq, RelayMessage.publish.injEq]

/-- A publish with neither a value nor a stamp. -/
def bareMessage : PublishMessage Unit :=
  { topic := lit "a", envelope := lit "\x7b\x7d", compress := true, seq := some (.ofInt 1),
    capability := none, event := none, data := none, stamp := none }

theorem arrives_iff_legible_bareMessage : ∃ frame,
    encodePublishFrame (fun _ => none) bareMessage = some frame ∧
      decodeRelayFrame (fun _ => none) frame = some (some (.publish bareMessage)) := by
  have hframe : encodePublishFrame (fun _ => none) bareMessage = some _ := rfl
  refine ⟨_, hframe, (arrives_iff_legible ⟨by decide, by decide, ?_, ?_, ?_, ?_⟩ hframe).mpr
    ⟨by decide, by decide, ?_, ?_, ?_⟩⟩
  all_goals rintro _ ⟨⟩

/-! ## Over the ring -/

variable {message : RelayMessage Value} {frame : Bytes}

variable {sent : List (RelayMessage Value)} {frames : List Bytes}

end AdapterWs.RelayRing
