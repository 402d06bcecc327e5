import AdapterWs.Lib.Circular
import AdapterWs.Lib.JsMap
import AdapterWs.Lib.JsSet
import AdapterWs.Lib.JsString
import AdapterWs.Lib.Machine

/-!
# The replay buffer

`createReplay` keeps the last messages of each topic in a ring, with the topic's counter, for as
many topics as it may hold. The topic used least recently gives way to a new one, and its counter
is forgotten with it.
-/

namespace AdapterWs.Replay

open JsString

/-- `BufferedMessage`. -/
structure BufferedMessage (D : Type) where
  seq : ℕ
  topic : JsString
  event : JsString
  data : D
  deriving DecidableEq

/-- `ReplayOptions`, both positive. -/
structure ReplayOptions where
  size : ℕ
  maxTopics : ℕ
  size_pos : 0 < size
  maxTopics_pos : 0 < maxTopics

/-- The counter and the ring of one topic. -/
structure TopicState (D : Type) where
  seq : ℕ
  buf : ℕ → Option (BufferedMessage D)
  start : ℕ
  len : ℕ

/-- The rings of the topics, and the topics in their order of use. -/
structure ReplayBuffer (D : Type) where
  topics : JsMap JsString (TopicState D)
  topicOrder : JsSet JsString

variable {D : Type}

/-- `pushMessage(state, msg)`. -/
def pushMessage (maxSize : ℕ) (state : TopicState D) (msg : BufferedMessage D) : TopicState D :=
  let buf := Circular.putAround maxSize state.buf ((state.start + state.len) % maxSize) [some msg]
  if state.len < maxSize then { state with buf := buf, len := state.len + 1 }
  else { state with buf := buf, start := (state.start + 1) % maxSize }

/-- The entries of a ring, oldest first. -/
def TopicState.entries (maxSize : ℕ) (state : TopicState D) : List (BufferedMessage D) :=
  (Circular.around maxSize state.buf state.start state.len).filterMap id

/-- `readSince(state, since)`. -/
def readSince (maxSize : ℕ) (state : TopicState D) (since : ℕ) : List (BufferedMessage D) :=
  if state.len = 0 ∨ state.seq ≤ since then []
  else (state.entries maxSize).filter fun entry => decide (since < entry.seq)

namespace ReplayBuffer

/-- `createReplay()`. -/
def create : ReplayBuffer D := ⟨.empty, .empty⟩

/-- `touchTopic(topic)`. -/
def touchTopic (b : ReplayBuffer D) (topic : JsString) : ReplayBuffer D :=
  match b.topics.get topic with
  | none => b
  | some _ => { b with topicOrder := (b.topicOrder.delete topic).add topic }

/-- The topic that gives way to a new one. -/
def victim (o : ReplayOptions) (b : ReplayBuffer D) : Option JsString :=
  if o.maxTopics ≤ b.topics.size then b.topicOrder.elems.head? else none

/-- The topic used least recently is forgotten. -/
def evict (b : ReplayBuffer D) : Option JsString → ReplayBuffer D
  | none => b
  | some lru => ⟨b.topics.delete lru, b.topicOrder.delete lru⟩

/-- `getTopic(topic)`. -/
def getTopic (o : ReplayOptions) (b : ReplayBuffer D) (topic : JsString) :
    TopicState D × ReplayBuffer D :=
  match b.topics.get topic with
  | none =>
    let b := b.evict (b.victim o)
    let state : TopicState D := ⟨0, fun _ => none, 0, 0⟩
    (state, ⟨b.topics.set topic state, b.topicOrder.add topic⟩)
  | some state => (state, { b with topicOrder := (b.topicOrder.delete topic).add topic })

/-- `publish(platform, topic, event, data)`: the message, or `none` where the data cannot be
copied, after the counter was drawn. -/
def publish (o : ReplayOptions) (b : ReplayBuffer D) (topic event : JsString) (snapshot : Option D) :
    Option (BufferedMessage D) × ReplayBuffer D :=
  let (state, b) := b.getTopic o topic
  let state := { state with seq := state.seq + 1 }
  match snapshot with
  | none => (none, { b with topics := b.topics.set topic state })
  | some data =>
    let msg : BufferedMessage D := ⟨state.seq, topic, event, data⟩
    (some msg, { b with topics := b.topics.set topic (pushMessage o.size state msg) })

/-- `seq(topic)`. -/
def seqOf (b : ReplayBuffer D) (topic : JsString) : ℕ × ReplayBuffer D :=
  (((b.topics.get topic).map TopicState.seq).getD 0, b.touchTopic topic)

/-- `since(topic, since)`, for an integer that is not negative. -/
def sinceOf (o : ReplayOptions) (b : ReplayBuffer D) (topic : JsString) (since : ℕ) :
    List (BufferedMessage D) × ReplayBuffer D :=
  (((b.topics.get topic).map fun state => readSince o.size state since).getD [], b.touchTopic topic)

end ReplayBuffer

/-- What one `replay` sent: the messages, and the end marker unless a send threw before it. -/
structure ReplayAnswer (D : Type) where
  sent : List (BufferedMessage D)
  /-- The end marker, with its `truncated`. -/
  ended : Option Bool

/-- Whether the oldest message that is left is beyond the next one. -/
def isTruncated (state : TopicState D) (sinceSeq : ℕ) : Bool :=
  decide (0 < state.len) &&
    (state.buf state.start).any fun oldest => decide (sinceSeq + 1 < oldest.seq)

/-- `replay(ws, topic, sinceSeq, platform)`, for an integer that is not negative, where `sends`
tells the data that `platform.send` can write. -/
def ReplayBuffer.replay (o : ReplayOptions) (sends : D → Bool) (b : ReplayBuffer D)
    (topic : JsString) (sinceSeq : ℕ) : ReplayAnswer D × ReplayBuffer D :=
  let b := b.touchTopic topic
  match b.topics.get topic with
  | none => (⟨[], some false⟩, b)
  | some state =>
    let missed := readSince o.size state sinceSeq
    if missed.all fun msg => sends msg.data then
      (⟨missed, some (isTruncated state sinceSeq)⟩, b)
    else (⟨missed.takeWhile fun msg => sends msg.data, none⟩, b)

namespace ReplayBuffer

/-- `clear()`. -/
def clear (_ : ReplayBuffer D) : ReplayBuffer D := create

/-- `clearTopic(topic)`. -/
def clearTopic (b : ReplayBuffer D) (topic : JsString) : ReplayBuffer D :=
  ⟨b.topics.delete topic, b.topicOrder.delete topic⟩

end ReplayBuffer

/-! ## Runs -/

/-- A number that was obtained for a topic since it was last cleared. -/
structure Position where
  topic : JsString
  number : ℕ
  /-- How many messages had been published on the topic. -/
  after : ℕ
  /-- Whether the topic was evicted since. -/
  evicted : Bool

/-- An answer to a position, and the messages published after it. -/
structure Served (D : Type) where
  position : Position
  answer : ReplayAnswer D
  owed : List (BufferedMessage D)

/-- A buffer, with the messages published on each topic since it was last cleared, the positions
obtained, and what was answered. -/
structure History (D : Type) where
  buffer : ReplayBuffer D
  published : JsString → List (BufferedMessage D)
  positions : List Position
  served : List (Served D)

/-- A call. -/
inductive ReplayEvent (D : Type)
  | publish (topic event : JsString) (snapshot : Option D)
  | seq (topic : JsString)
  | since (topic : JsString) (since : ℕ)
  | replay (topic : JsString) (sinceSeq : ℕ)
  | clear
  | clearTopic (topic : JsString)

/-- The positions of a topic that is evicted are marked. -/
def markEvicted (lru : Option JsString) (positions : List Position) : List Position :=
  positions.map fun pos => if some pos.topic = lru then { pos with evicted := true } else pos

/-- The topic that a publish evicts. -/
def ReplayBuffer.evictedBy (o : ReplayOptions) (b : ReplayBuffer D) (topic : JsString) :
    Option JsString :=
  match b.topics.get topic with
  | none => b.victim o
  | some _ => none

/-- The messages published on a topic after a position. -/
def History.owed (s : History D) (pos : Position) : List (BufferedMessage D) :=
  (s.published pos.topic).drop pos.after

/-- One call. A message that is published gives a position, as does `seq`. -/
def History.call (o : ReplayOptions) (sends : D → Bool) (s : History D) :
    ReplayEvent D → History D
  | .publish topic event snapshot =>
    let positions := markEvicted (s.buffer.evictedBy o topic) s.positions
    match s.buffer.publish o topic event snapshot with
    | (none, b) => { s with buffer := b, positions := positions }
    | (some msg, b) =>
      { s with
        buffer := b
        published := Function.update s.published topic (s.published topic ++ [msg])
        positions := positions ++
          [⟨topic, msg.seq, (s.published topic).length + 1, false⟩] }
  | .seq topic =>
    let (n, b) := s.buffer.seqOf topic
    { s with
      buffer := b
      positions := s.positions ++ [⟨topic, n, (s.published topic).length, false⟩] }
  | .since topic since => { s with buffer := (s.buffer.sinceOf o topic since).2 }
  | .replay topic sinceSeq =>
    let (answer, b) := s.buffer.replay o sends topic sinceSeq
    let known := s.positions.filter fun pos => pos.topic = topic ∧ pos.number = sinceSeq
    { s with
      buffer := b
      served := s.served ++ known.map fun pos => ⟨pos, answer, s.owed pos⟩ }
  | .clear =>
    { s with buffer := s.buffer.clear, published := fun _ => [], positions := [] }
  | .clearTopic topic =>
    { s with
      buffer := s.buffer.clearTopic topic
      published := Function.update s.published topic []
      positions := s.positions.filter fun pos => pos.topic ≠ topic }

/-- One buffer. -/
def replayMachine (o : ReplayOptions) (sends : D → Bool) : Machine (History D) (ReplayEvent D) where
  init := ⟨.create, fun _ => [], [], []⟩
  step s e := some (s.call o sends e)

/-- An answer that ends without `truncated` sent what was published after the position. -/
def Served.Complete (served : Served D) : Prop :=
  served.answer.ended = some false → served.answer.sent = served.owed

/-- Of the positions that a replay names, none has lost messages to an eviction. -/
def NotLost (s : History D) (e : ReplayEvent D) : Prop :=
  match e with
  | .replay topic sinceSeq => ∀ pos ∈ s.positions, pos.topic = topic ∧ pos.number = sinceSeq →
      pos.evicted = true → s.owed pos = []
  | _ => True

instance instDecidableNotLost (s : History D) : (e : ReplayEvent D) → Decidable (NotLost s e)
  | .replay topic sinceSeq =>
    have : ∀ pos, Decidable (s.owed pos = []) := fun pos =>
      decidable_of_iff (s.owed pos).isEmpty List.isEmpty_iff
    inferInstanceAs (Decidable (∀ pos ∈ s.positions, pos.topic = topic ∧ pos.number = sinceSeq →
      pos.evicted = true → s.owed pos = []))
  | .publish _ _ _ | .seq _ | .since _ _ | .clear | .clearTopic _ => isTrue trivial

end AdapterWs.Replay
