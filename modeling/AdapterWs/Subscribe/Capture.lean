import Mathlib.Data.Int.Basic
import AdapterWs.Lib.JsMap

/-!
# Resume captures

Between the moment a recovering subscribe asks the resume hook for history and the moment its
live membership is installed, a publish of the topic reaches neither. A capture holds those
frames: it is opened before the hook is awaited, every publish of the topic is appended to it,
and it is flushed when the membership is installed or discarded when it is not.

Frames are named by their place in the order of all publishes, which stands for the envelope.
-/

namespace AdapterWs.Subscribe

/-- One publish of a topic: its place among all publishes and its seq, if it carries one. -/
structure Frame where
  index : ℕ
  seq : Option ℕ
  deriving DecidableEq

/-- The most frames a buffer holds. -/
def MAX_RESUME_BUFFERED_FRAMES : ℕ := 4096

/-- A live-frame buffer. -/
structure ResumeBuffer where
  topic : String
  frames : List Frame
  overflow : Bool

/-- One topic of a capture handle. -/
structure CaptureEntry where
  topic : String
  /-- The buffer, by the number it was opened under. -/
  buffer : ℕ
  /-- The topic's max-seen seq when the capture was opened. -/
  before : ℕ
  /-- How many publishes had been made when the capture was opened. -/
  openedAt : ℕ

/-- What a send to the client answers: taken, refused past the ceiling, or no socket left. -/
inductive SendResult
  | sent
  | refused
  | gone
  deriving DecidableEq

/-- A frame the client received on a topic: an envelope or the truncation marker. -/
inductive Received
  | envelope (topic : String) (index : ℕ)
  | truncated (topic : String)
  deriving DecidableEq

/-- The cutover side of one connection. -/
structure Cutover where
  /-- `resumeBuffers`, each buffer under the number it was opened with. -/
  resumeBuffers : JsMap ℕ ResumeBuffer
  nextBuffer : ℕ
  /-- The buffers handed to `unregister`, oldest first. -/
  unregistered : List ℕ
  /-- Every publish so far: its topic and its seq. -/
  published : List (String × Option ℕ)
  /-- What reached the client, oldest first. -/
  received : List Received

variable {cut : Cutover} {topic : String}

/-- One round of `beginResumeCapture`: a buffer for one topic. -/
def openCapture (before : String → ℕ) (cut : Cutover) (topic : String) : CaptureEntry × Cutover :=
  ({ topic := topic
     buffer := cut.nextBuffer
     before := before topic
     openedAt := cut.published.length },
    { cut with
      resumeBuffers := cut.resumeBuffers.set cut.nextBuffer
        { topic := topic, frames := [], overflow := false }
      nextBuffer := cut.nextBuffer + 1 })

/-- `beginResumeCapture(topics, ws)`; `before` answers `maxSeenSeq.get(topic)`, or zero. -/
def beginResumeCapture (before : String → ℕ) : List String → Cutover → List CaptureEntry × Cutover
  | [], cut => ([], cut)
  | topic :: topics, cut =>
    let opened := openCapture before cut topic
    let rest := beginResumeCapture before topics opened.2
    (opened.1 :: rest.1, rest.2)

/-- `unregister(handle, entry)`. -/
def unregister (cut : Cutover) (entry : CaptureEntry) : Cutover :=
  { cut with
    resumeBuffers := cut.resumeBuffers.delete entry.buffer
    unregistered := cut.unregistered ++ [entry.buffer] }

/-- `discardResumeCapture(handle)`. -/
def discardResumeCapture (entries : List CaptureEntry) (cut : Cutover) : Cutover :=
  entries.foldl unregister cut

/-- A buffer after one more frame of its topic. -/
def ResumeBuffer.push (buffer : ResumeBuffer) (frame : Frame) : ResumeBuffer :=
  if MAX_RESUME_BUFFERED_FRAMES ≤ buffer.frames.length then { buffer with overflow := true }
  else { buffer with frames := buffer.frames ++ [frame] }

/-- `captureResumeFrame(topic, seq, envelope, compress)`. -/
def captureResumeFrame (topic : String) (frame : Frame) (cut : Cutover) : Cutover :=
  { cut with
    resumeBuffers := cut.resumeBuffers.mapVals fun _ buffer =>
      if buffer.topic = topic then buffer.push frame else buffer }

/-- A publish of a topic: captured, and fanned out to the connection if it is subscribed and its
send is taken. -/
def publish (topic : String) (seq : Option ℕ) (reaches : Bool) (cut : Cutover) : Cutover :=
  let index := cut.published.length
  let captured := captureResumeFrame topic { index := index, seq := seq } cut
  { captured with
    published := cut.published ++ [(topic, seq)]
    received := if reaches then cut.received ++ [.envelope topic index] else cut.received }

/-! ## The flush -/

/-- The sends of one flush: the answers still to come, what was taken, and whether the socket is
gone. -/
structure Sending where
  answers : List SendResult
  received : List Received
  gone : Bool

/-- `deliver(payload, compress)`: the answers run out into sends that are taken. -/
def Sending.deliver (s : Sending) (payload : Received) : Bool × Sending :=
  match s.answers with
  | [] => (true, { s with received := s.received ++ [payload] })
  | .sent :: answers => (true, { s with answers := answers, received := s.received ++ [payload] })
  | .refused :: answers => (false, { s with answers := answers })
  | .gone :: answers => (false, { s with answers := answers, gone := true })

/-- The frame is already covered by the resume. -/
def Frame.covered (floor : ℤ) (frame : Frame) : Bool :=
  frame.seq.any fun seq => decide ((seq : ℤ) ≤ floor)

/-- The loop over the held frames: whether it stopped at a refused frame, and the sends after
it. -/
def flushFrames (topic : String) (floor : ℤ) : List Frame → Sending → Bool × Sending
  | [], s => (false, s)
  | frame :: frames, s =>
    if s.gone then (false, s)
    else if frame.covered floor then flushFrames topic floor frames s
    else
      match s.deliver (.envelope topic frame.index) with
      | (true, s) => flushFrames topic floor frames s
      | (false, s) => (!s.gone, s)

/-- The sends of `flushResumeTopic` for one buffer: whether the flush closed the connection or
found it gone, and what was taken. -/
def flushSends (topic : String) (floor : ℤ) (buffer : ResumeBuffer) (s : Sending) :
    Bool × Sending :=
  let marker := if buffer.overflow then s.deliver (.truncated topic) else (false, s)
  let sent := flushFrames topic floor buffer.frames marker.2
  let needsSignal := buffer.overflow || sent.1
  if needsSignal && !marker.1 && !sent.2.gone then
    let again := sent.2.deliver (.truncated topic)
    (!again.1, again.2)
  else (sent.2.gone, sent.2)

/-- The floor of the flush: the watermark the hook reported, or the pre-window one. -/
def CaptureEntry.floor (entry : CaptureEntry) (coveredSeq : Option ℤ) : ℤ :=
  coveredSeq.getD entry.before

/-- `flushResumeTopic(handle, topic, coveredSeq)` for the handle's entry of the topic: whether
the connection is no longer usable, and the cutover after it. -/
def flushResumeTopic (entry : CaptureEntry) (coveredSeq : Option ℤ) (answers : List SendResult)
    (cut : Cutover) : Bool × Cutover :=
  match cut.resumeBuffers.get entry.buffer with
  | none => (false, unregister cut entry)
  | some buffer =>
    let flushed := flushSends entry.topic (entry.floor coveredSeq) buffer
      { answers := answers, received := cut.received, gone := false }
    (flushed.1, unregister { cut with received := flushed.2.received } entry)

end AdapterWs.Subscribe
