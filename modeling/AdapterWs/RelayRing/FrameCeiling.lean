import AdapterWs.RelayRing.Frame

/-!
# The frame ceiling

A sender refuses an envelope of more bytes than a ceiling, and the primary stops a stream on a
frame of more than four times that. A publish of its own repeats its topic, its event and its
value beside the envelope and stays below. A batch escapes every envelope again and puts the
numbers of the stream beside it, so that many small events, each under ordinals of many digits,
are admitted and still stop the stream.
-/

namespace AdapterWs.RelayRing

open JsString Option

variable {Value : Type} {stringify : Value → Option JsString} {m : PublishMessage Value} {max : ℕ}

/-! ## Admission -/

/-- `envelopeBytesOverCeiling(envelope)`; there may be no ceiling. -/
def envelopeBytesOverCeiling (maxRelayEnvelopeBytes : Option ℕ) (envelope : JsString) : ℕ :=
  match maxRelayEnvelopeBytes with
  | none => 0
  | some max =>
    if envelope.length * 3 ≤ max then 0
    else if max < byteLength envelope then byteLength envelope else 0

/-- What the flush of `batchRelay` admits of its batch. -/
def admitted (maxRelayEnvelopeBytes : Option ℕ) (batch : List (PublishMessage Value)) :
    List (PublishMessage Value) :=
  if batch.any fun m => decide (0 < envelopeBytesOverCeiling maxRelayEnvelopeBytes m.envelope) then
    batch.filter fun m => decide (envelopeBytesOverCeiling maxRelayEnvelopeBytes m.envelope = 0)
  else batch

/-- What becomes of a batch. -/
inductive Relayed
  /-- Refused, with its bytes. -/
  | refused (bytes : ℕ)
  | written (frame : Bytes)
  deriving DecidableEq

/-- The bytes of the envelopes of a batch. -/
def envelopeBytes (events : List RelayBatchedEntry) : ℕ :=
  (events.map fun e => byteLength e.env).sum

/-- `relayBatched(events, compress)` once the events are stamped. -/
def relayBatched (maxRelayEnvelopeBytes : Option ℕ) (events : List RelayBatchedEntry)
    (compress : Bool) : Relayed :=
  let frame := encodePublishBatchedFrame events compress
  match maxRelayEnvelopeBytes with
  | none => .written frame
  | some max =>
    let units := (events.map fun e => e.env.length).sum
    if max < units * 3 then
      if max < envelopeBytes events then .refused (envelopeBytes events) else .written frame
    else .written frame

/-- The envelope is that of the topic, the event and the value, as far as they are beside it. -/
def IsCompleted (stringify : Value → Option JsString) (m : PublishMessage Value) : Prop :=
  ∃ event data jitterMs,
    completeEnvelope stringify m.topic event data m.seq jitterMs = some m.envelope ∧
    (∀ e ∈ m.event, e = event) ∧ ∀ v ∈ m.data, data = some v

/-- A publish is refused when its envelope has more bytes than the ceiling. -/
theorem envelopeBytesOverCeiling_pos_iff (max : ℕ) (envelope : JsString) :
    0 < envelopeBytesOverCeiling (some max) envelope ↔ max < byteLength envelope := by
  have hle := (byteLength_bounds envelope).2
  simp only [envelopeBytesOverCeiling]
  split_ifs <;> omega

/-- The flush keeps the messages under the ceiling, and no others. -/
theorem mem_admitted_iff {batch : List (PublishMessage Value)} :
    m ∈ admitted (some max) batch ↔ m ∈ batch ∧ byteLength m.envelope ≤ max := by
  have hzero (m : PublishMessage Value) :
      envelopeBytesOverCeiling (some max) m.envelope = 0 ↔ byteLength m.envelope ≤ max := by
    have hpos := envelopeBytesOverCeiling_pos_iff max m.envelope
    omega
  rw [admitted]
  split_ifs with hany
  · rw [List.mem_filter, decide_eq_true_eq, hzero]
  · refine ⟨fun hm => ⟨hm, ?_⟩, And.left⟩
    rw [List.any_eq_true] at hany
    refine (hzero m).mp (Nat.eq_zero_of_not_pos fun hpos => hany ⟨m, hm, decide_eq_true hpos⟩)

/-- A batch is refused when its envelopes have more bytes than the ceiling. -/
theorem relayBatched_eq (max : ℕ) (events : List RelayBatchedEntry) (compress : Bool) :
    relayBatched (some max) events compress =
      if max < envelopeBytes events then .refused (envelopeBytes events)
      else .written (encodePublishBatchedFrame events compress) := by
  have hle : envelopeBytes events ≤ (events.map fun e => e.env.length).sum * 3 := by
    rw [envelopeBytes]
    induction events with
    | nil => exact Nat.zero_le _
    | cons e events ih =>
      have hunit := (byteLength_bounds e.env).2
      simp only [List.map_cons, List.sum_cons]
      omega
  simp only [relayBatched]
  split_ifs <;> first | rfl | omega

/-! ## A publish of its own -/

/-- An envelope ends with a byte at least behind its body. -/
theorem exists_completed (body : JsString) (seq jitterMs : Option Binary64) : ∃ rest,
    completeSerializedEnvelope body seq jitterMs = body ++ rest ∧ opensLow rest = false ∧
      1 ≤ byteLength rest := by
  have hpos {c : UInt16} (rest : JsString) : 1 ≤ byteLength (c :: rest) :=
    (Nat.succ_le_succ (Nat.zero_le _)).trans (byteLength_bounds (c :: rest)).1
  cases seq <;> cases jitterMs <;> simp only [completeSerializedEnvelope, List.append_assoc]
  all_goals exact ⟨_, rfl, rfl, hpos _⟩

/-- The envelope has its topic, its event, its value and at least 31 bytes around them. -/
theorem byteLength_completeEnvelope {topic event envelope : JsString} {data : Option Value}
    {seq jitterMs : Option Binary64}
    (h : completeEnvelope stringify topic event data seq jitterMs = some envelope) :
    ∃ text, envelopeData stringify data = some text ∧
      31 + byteLength topic + byteLength event + byteLength text ≤ byteLength envelope := by
  simp only [completeEnvelope, envelopePrefix, bind_eq_bind, bind_eq_some_iff,
    some.injEq] at h
  obtain ⟨front, ⟨t, ht, e, he, rfl⟩, text, htext, rfl⟩ := h
  refine ⟨text, htext, ?_⟩
  have hesc {s q : JsString} (hq : esc s = some q) : q = lit "\"" ++ s ++ lit "\"" := by
    rw [esc] at hq
    split_ifs at hq
    exact (some.inj hq).symm
  obtain ⟨rest, hrest, hopen, hpos⟩ := exists_completed
    (lit "\x7b\"topic\":" ++ t ++ lit ",\"event\":" ++ e ++ lit ",\"data\":" ++ text) seq jitterMs
  rw [hrest, hesc ht, hesc he, byteLength_append _ hopen]
  simp only [List.append_assoc]
  rw [byteLength_lit_append (by decide) (n := 9) rfl,
    byteLength_lit_append (by decide) (n := 1) rfl, byteLength_append _ rfl,
    byteLength_lit_append (by decide) (n := 1) rfl,
    byteLength_lit_append (by decide) (n := 9) rfl,
    byteLength_lit_append (by decide) (n := 1) rfl, byteLength_append _ rfl,
    byteLength_lit_append (by decide) (n := 1) rfl,
    byteLength_lit_append (by decide) (n := 8) rfl]
  omega

/-- An admitted publish takes at most three times the ceiling and thirteen bytes. -/
theorem bodyLength_encodePublishFrame_le {frame : Bytes} (hcompleted : IsCompleted stringify m)
    (hcap : ∀ s ∈ m.capability, byteLength s ≤ max) (hsize : byteLength m.envelope ≤ max)
    (hframe : encodePublishFrame stringify m = some frame) : bodyLength frame ≤ 3 * max + 13 := by
  obtain ⟨event, data, jitterMs, hcomplete, hevent, hdata⟩ := hcompleted
  obtain ⟨text, htext, hle⟩ := byteLength_completeEnvelope hcomplete
  have he : ∀ s ∈ m.event, byteLength s ≤ byteLength event := by
    intro s hs
    rw [hevent s hs]
  have hbody {bytes : Option Bytes} (hd : ∀ bs ∈ bytes, bs.length ≤ byteLength text) :
      (m.body bytes).length ≤ 3 * max + 13 := by
    have hlen := length_body_le hcap he hd
    omega
  cases hm : m.data with
  | none =>
    simp only [encodePublishFrame, hm, some.injEq] at hframe
    rw [← hframe, bodyLength_framed]
    exact hbody fun bs hbs => by cases hbs
  | some value =>
    rw [hdata value hm] at htext
    have htext : stringify value = some text := htext
    simp only [encodePublishFrame, hm, htext, map_some, some.injEq] at hframe
    rw [← hframe, bodyLength_framed]
    refine hbody fun bs hbs => ?_
    rw [← some.inj hbs]
    exact le_rfl

theorem exists_framed {frame : Bytes} (h : encodePublishFrame stringify m = some frame) :
    ∃ body, frame = framed body := by
  rw [encodePublishFrame] at h
  cases hm : m.data with
  | none =>
    rw [hm] at h
    exact ⟨_, (some.inj h).symm⟩
  | some value =>
    rw [hm] at h
    obtain ⟨text, -, htext⟩ := map_eq_some_iff.mp h
    exact ⟨_, htext.symm⟩

/-- The reader does not refuse a frame within its ceiling. -/
theorem refuses_eq_false {config : Config} {body : Bytes}
    (hconfig : config.maxFrameBytes = some max) (h : body.length ≤ max) :
    config.refuses (frameLength (framed body)) = false := by
  have hlength : frameLength (framed body) ≤ body.length := by
    simp only [framed, littleEndian, frameLength, List.cons_append, List.getD_cons_zero,
      List.getD_cons_succ, UInt8.toNat_ofNat']
    omega
  rw [Config.refuses, hconfig]
  exact decide_eq_false (by omega)

/-! ## Both lanes -/

/-- An admitted batch fits when its text and six bytes do. -/
theorem bodyLength_le_iff_of_admitted {events : List RelayBatchedEntry} {compress : Bool} :
    (∀ frame, relayBatched (some max) events compress = .written frame →
      bodyLength frame ≤ 4 * max) ↔
    (max < envelopeBytes events ∨ 6 + batchSize events ≤ 4 * max) := by
  rw [relayBatched_eq]
  by_cases hover : max < envelopeBytes events
  · rw [if_pos hover]
    refine ⟨fun _ => .inl hover, fun _ frame hframe => ?_⟩
    cases hframe
  · rw [if_neg hover, or_iff_right hover, ← bodyLength_encodePublishBatchedFrame events compress]
    refine ⟨fun h => h _ rfl, fun h frame hframe => ?_⟩
    rw [← Relayed.written.inj hframe]
    exact h

/-- With a ceiling of 1024 bytes at least, a publish that is admitted fits the reader's ceiling,
which the reader does not refuse, and one that is refused has too many bytes. A batch that is
refused has too many bytes, and one that is admitted fits when the topics and the envelopes,
escaped, and the numbers of the batch do. -/
theorem fits_of_admitted {max : ℕ} (hmax : 1024 ≤ max) {config : Config}
    (hconfig : config.maxFrameBytes = some (4 * max)) {batch : List (PublishMessage Value)}
    (hm : m ∈ batch) (hcompleted : IsCompleted stringify m)
    (hcap : ∀ s ∈ m.capability, byteLength s ≤ max) (events : List RelayBatchedEntry)
    (compress : Bool) :
    (m ∈ admitted (some max) batch → ∀ frame, encodePublishFrame stringify m = some frame →
      bodyLength frame ≤ 4 * max ∧ config.refuses (frameLength frame) = false) ∧
    (m ∉ admitted (some max) batch → max < byteLength m.envelope) ∧
    (∀ bytes, relayBatched (some max) events compress = .refused bytes →
      max < envelopeBytes events) ∧
    ((∀ frame, relayBatched (some max) events compress = .written frame →
        bodyLength frame ≤ 4 * max) ↔
      (max < envelopeBytes events ∨ 6 + batchSize events ≤ 4 * max)) := by
  refine ⟨fun hadmitted frame hframe => ?_, fun hrefused => ?_, fun bytes hbytes => ?_,
    bodyLength_le_iff_of_admitted⟩
  · have hle := bodyLength_encodePublishFrame_le hcompleted hcap
      (mem_admitted_iff.mp hadmitted).2 hframe
    have hfits : bodyLength frame ≤ 4 * max := by omega
    obtain ⟨body, rfl⟩ := exists_framed hframe
    rw [bodyLength_framed] at hfits ⊢
    exact ⟨hfits, refuses_eq_false hconfig hfits⟩
  · by_contra hsize
    exact hrefused (mem_admitted_iff.mpr ⟨hm, by omega⟩)
  · rw [relayBatched_eq] at hbytes
    by_contra hsize
    rw [if_neg hsize] at hbytes
    cases hbytes

/-- An event whose topic is 330 lone surrogates, as it is relayed after two weeks. -/
def surrogateEvent : RelayBatchedEntry :=
  { topic := List.replicate 330 0xD800
    env := lit "\x7b\"topic\":\"" ++ List.replicate 330 0xD800 ++
      lit "\",\"event\":\"\",\"data\":123\x7d"
    seq := none
    stamp := some ⟨12, .ofInt 12345678, ⟨0x41d26580b487e6b8#64⟩⟩ }

example : completeEnvelope (fun _ : Unit => some (lit "123")) surrogateEvent.topic [] (some ())
    surrogateEvent.seq none = some surrogateEvent.env := by decide +kernel

/-- A publish under short names. -/
def shortMessage : PublishMessage Unit :=
  { topic := lit "a"
    envelope := lit "\x7b\"topic\":\"a\",\"event\":\"b\",\"data\":null\x7d"
    compress := false
    seq := none
    capability := some (lit "c")
    event := some (lit "b")
    data := some ()
    stamp := none }

theorem shortMessage_isCompleted : IsCompleted (fun _ => some (lit "null")) shortMessage :=
  ⟨lit "b", some (), none, by decide +kernel, fun _ h => (some.inj h).symm,
    fun _ _ => rfl⟩

theorem zero_lt_positions : 0 < 2 ^ 32 := Nat.two_pow_pos 32

/-- The configuration of a reader under the least ceiling. -/
def leastConfig : Config where
  exponent := 12
  origin := 0
  origin_lt := zero_lt_positions
  maxPendingBytes := none
  maxFrameBytes := some 4096

theorem fits_of_admitted_shortMessage :
    (shortMessage ∈ admitted (some 1024) [shortMessage] →
      ∀ frame, encodePublishFrame (fun _ => some (lit "null")) shortMessage = some frame →
        bodyLength frame ≤ 4096 ∧ leastConfig.refuses (frameLength frame) = false) ∧
    ¬ ∀ frame, relayBatched (some 1024) [surrogateEvent] true = .written frame →
        bodyLength frame ≤ 4096 := by
  have h := @fits_of_admitted Unit (fun _ => some (lit "null")) shortMessage 1024 le_rfl
    leastConfig rfl [shortMessage] (List.mem_singleton_self _) shortMessage_isCompleted
    (by decide +kernel) [surrogateEvent] true
  exact ⟨h.1, fun hfits => absurd (h.2.2.2.mp hfits) (by decide +kernel)⟩

/-- One event, admitted under the ceiling, stops the stream. -/
theorem not_fits_surrogateEvent :
    ¬ ∀ max, 1024 ≤ max → ∀ events compress frame,
      relayBatched (some max) events compress = .written frame → bodyLength frame ≤ 4 * max := by
  intro h
  have hfits := bodyLength_le_iff_of_admitted.mp (h 1024 le_rfl [surrogateEvent] true)
  exact absurd hfits (by decide +kernel)

end AdapterWs.RelayRing
