import AdapterWs.Lib.Circular
import AdapterWs.Lib.Machine
import Mathlib.Algebra.Group.Nat.Defs

/-!
# The relay ring

One direction of the relay between two workers: a byte ring in shared memory, with one writer and
one reader. Both run on their own thread. A position is an unsigned 32-bit number that wraps, and
the fill of the ring is the difference of the two positions. What does not fit waits in the
writer's deque, and a frame that does not come in one piece waits in the reader's accumulator.

A step is what one thread does from one atomic access to the next, so every interleaving of the
two threads is a run. `Atomics.waitAsync` compares and parks in one access, and `Atomics.notify`
wakes the side that is parked on the position.

The ring keeps a record of what the statements speak about: the writes it accepted, the bytes the
reader took out of the ring, the frames it emitted, and whether the caller owes a `notify`. No
function of the source reads it.
-/

namespace AdapterWs.RelayRing

/-- The bytes of a `Uint8Array`. -/
abbrev Bytes := List UInt8

/-! ## The state -/

/-- What a ring and its two ends are built with. -/
structure Config where
  /-- The capacity is the power of two with this exponent. -/
  exponent : ℕ
  /-- The position both ends start from. -/
  origin : ℕ
  origin_lt : origin < 2 ^ 32
  maxPendingBytes : Option ℕ
  maxFrameBytes : Option ℕ

/-- `this.cap`. -/
def Config.cap (config : Config) : ℕ := 2 ^ config.exponent

/-- The shared memory; a position is read unsigned. -/
structure Shared where
  data : ℕ → UInt8
  /-- `WRITE_IDX`. -/
  writeIdx : ℕ
  /-- `READ_IDX`. -/
  readIdx : ℕ

/-- A wait of one end for the position of the other. -/
inductive Wait
  | none
  /-- On the list of waiters. -/
  | parked
  /-- Notified, or refused by the comparison: its continuation is a job. -/
  | runnable
  deriving DecidableEq

/-- `Atomics.notify` on the position of the wait. -/
def Wait.notify : Wait → Wait
  | parked => runnable
  | w => w

/-- The fields of a `RingWriter`. -/
structure Writer where
  /-- The deque, a completed entry cleared. -/
  pending : List (Option Bytes)
  pendingHead : ℕ
  /-- The consumed part of the first entry. -/
  pendingOffset : ℕ
  pendingBytes : ℕ
  flushArmed : Bool
  closed : Bool
  readSnapshot : ℕ

/-- Who called `_push`. -/
inductive Caller
  | write
  | flush
  deriving DecidableEq

/-- One call of `_push(bytes, offset)`. -/
structure Push where
  caller : Caller
  bytes : Bytes
  offset : ℕ

/-- Where the writer's thread stands: before one of its atomic accesses, or in no call. -/
inductive WriterAt
  | idle
  | loadWrite (p : Push)
  | loadRead (p : Push) (write : ℕ)
  | copy (p : Push) (write n : ℕ)
  | store (p : Push) (write n : ℕ)
  /-- The notify that ends `_flushPending`. -/
  | notify
  /-- The `waitAsync` of `_armFlush`. -/
  | arm

/-- The fields of a `RingReader`. -/
structure Reader where
  /-- Bytes that are no whole frame yet; empty where the source has `null`. -/
  acc : Bytes
  closed : Bool
  waiting : Bool

/-- Where the reader's thread stands. -/
inductive ReaderAt
  | idle
  | loadWrite
  | loadRead (write : ℕ)
  | copy (write read avail : ℕ)
  | store (read avail : ℕ) (buf : Bytes)
  | notify (buf : Bytes)
  /-- The `waitAsync` of `_armWait`. -/
  | arm (expectedWrite : ℕ)

/-- A ring with its two ends. -/
structure Ring where
  shared : Shared
  writer : Writer
  writerAt : WriterAt
  /-- The wait `_armFlush` registered. -/
  flushWait : Wait
  reader : Reader
  readerAt : ReaderAt
  /-- The wait `_armWait` registered. -/
  readWait : Wait
  /-- The writes that were accepted, oldest first. -/
  accepted : List Bytes
  /-- The bytes the reader took out of the ring. -/
  consumed : Bytes
  /-- The frames the reader emitted, oldest first. -/
  emitted : List Bytes
  /-- Bytes went into the ring since the last notify of the reader. -/
  owed : Bool

/-- `(write - read) >>> 0`. -/
def distance (write read : ℕ) : ℕ := (write + 2 ^ 32 - read) % 2 ^ 32

/-- `(pos + n) | 0`, read unsigned. -/
def advance (pos n : ℕ) : ℕ := (pos + n) % 2 ^ 32

namespace Shared

/-- The bytes in the ring that the reader has not taken out. -/
def unread (shared : Shared) : ℕ := distance shared.writeIdx shared.readIdx

/-- The two `data.set` calls of `_push`. -/
def set (config : Config) (shared : Shared) (write : ℕ) (bytes : Bytes) : Shared :=
  { shared with
    data := Circular.putAround config.cap shared.data (write &&& (config.cap - 1)) bytes }

/-- The two `data.subarray` calls of `_drain`. -/
def subarray (config : Config) (shared : Shared) (read avail : ℕ) : Bytes :=
  let pos := read &&& (config.cap - 1)
  let firstPart := min avail (config.cap - pos)
  Circular.window shared.data pos firstPart ++ Circular.window shared.data 0 (avail - firstPart)

end Shared

/-! ## The writer -/

namespace Writer

/-- The bytes the deque holds. -/
def held (w : Writer) : Bytes :=
  ((w.pending.drop w.pendingHead).filterMap id).flatten.drop w.pendingOffset

/-- The fields after `close()`. -/
def close (w : Writer) : Writer :=
  { w with pending := [], pendingHead := 0, pendingOffset := 0, pendingBytes := 0, closed := true }

/-- `_armFlush()` up to its `waitAsync`. -/
def armFlush (w : Writer) : Writer × WriterAt :=
  if w.flushArmed || w.closed then (w, .idle) else ({ w with flushArmed := true }, .arm)

/-- The end of the loop of `_flushPending`. -/
def endFlush (w : Writer) : Writer × WriterAt :=
  (if w.pendingBytes = 0 then { w with pending := [], pendingHead := 0 } else w, .notify)

/-- One turn of the loop of `_flushPending`, up to its `_push`. -/
def flushNext (w : Writer) : Writer × WriterAt :=
  if w.pendingBytes = 0 then w.endFlush
  else
    match w.pending[w.pendingHead]? with
    | some (some head) =>
      (w, .loadWrite { caller := .flush, bytes := head, offset := w.pendingOffset })
    | _ => w.endFlush

/-- The ceiling on the backlog is passed. -/
def overflows (config : Config) (w : Writer) : Bool :=
  match config.maxPendingBytes with
  | none => false
  | some max => decide (max < w.pendingBytes)

end Writer

namespace Ring

/-- The writer after `close()`, which wakes its own wait. -/
def closeWriter (r : Ring) : Ring :=
  { r with
    writer := r.writer.close
    flushWait := r.flushWait.notify }

/-- The writer goes on from some fields. -/
def goOn (r : Ring) (next : Writer × WriterAt) : Ring :=
  { r with writer := next.1, writerAt := next.2 }

/-- `write(bytes)` up to its first atomic access; `aged` is the age check. -/
def write (config : Config) (r : Ring) (bytes : Bytes) (aged : Bool) : Ring :=
  if r.writer.closed then r
  else if r.writer.pendingBytes = 0 then
    { r with writerAt := .loadWrite { caller := .write, bytes := bytes, offset := 0 } }
  else if aged then r.closeWriter
  else if r.writer.overflows config then r.closeWriter
  else
    ({ r with accepted := r.accepted ++ [bytes] } : Ring).goOn
      ({ r.writer with
          pending := r.writer.pending ++ [some bytes]
          pendingBytes := r.writer.pendingBytes + bytes.length } : Writer).armFlush

/-- `_push` returned `n`: its caller up to the next atomic access. -/
def pushed (r : Ring) (p : Push) (n : ℕ) : Ring :=
  match p.caller with
  | .write =>
    let accepting := { r with accepted := r.accepted ++ [p.bytes] }
    if n < p.bytes.length then
      accepting.goOn
        ({ r.writer with
            pending := r.writer.pending ++ [some p.bytes]
            pendingOffset := n
            pendingBytes := p.bytes.length - n } : Writer).armFlush
    else { accepting with writerAt := .idle }
  | .flush =>
    if n = 0 then r.goOn r.writer.endFlush
    else
      let counted :=
        { r.writer with
          pendingOffset := r.writer.pendingOffset + n
          pendingBytes := r.writer.pendingBytes - n }
      r.goOn
        (if p.bytes.length ≤ counted.pendingOffset then
          { counted with
            pending := counted.pending.set counted.pendingHead none
            pendingHead := counted.pendingHead + 1
            pendingOffset := 0 }
        else counted).flushNext

/-- What `_push` has room for. -/
def room (config : Config) (r : Ring) (p : Push) (write : ℕ) : ℕ :=
  min (config.cap - distance write r.shared.readIdx) (p.bytes.length - p.offset)

/-- The snapshot `_push` takes where the ring cannot take everything. -/
def noteRead (r : Ring) (p : Push) (n : ℕ) : Ring :=
  if n < p.bytes.length - p.offset then
    { r with writer := { r.writer with readSnapshot := r.shared.readIdx } }
  else r

/-- The writer's next atomic access. -/
def writerStep (config : Config) (r : Ring) : Option Ring :=
  match r.writerAt with
  | .idle => none
  | .loadWrite p => some { r with writerAt := .loadRead p r.shared.writeIdx }
  | .loadRead p write =>
    let n := r.room config p write
    let noted := r.noteRead p n
    some (if n = 0 then noted.pushed p 0 else { noted with writerAt := .copy p write n })
  | .copy p write n =>
    some
      { r with
        shared := r.shared.set config write ((p.bytes.drop p.offset).take n)
        writerAt := .store p write n }
  | .store p write n =>
    some (({ r with
      shared := { r.shared with writeIdx := advance write n }
      owed := true } : Ring).pushed p n)
  | .notify =>
    let notified := { r with readWait := r.readWait.notify, owed := false }
    some
      (if 0 < r.writer.pendingBytes then notified.goOn r.writer.armFlush
      else { notified with writerAt := .idle })
  | .arm =>
    some
      { r with
        writerAt := .idle
        flushWait :=
          if r.shared.readIdx = r.writer.readSnapshot then .parked else .runnable }

/-- The continuation of the flush wait: `_flushPending` unless the writer is closed or its backlog
is too old. -/
def resumeFlush (r : Ring) (aged : Bool) : Ring :=
  let resumed :=
    { r with writer := { r.writer with flushArmed := false }, flushWait := .none }
  if r.writer.closed then resumed
  else if aged then resumed.closeWriter
  else resumed.goOn resumed.writer.flushNext

end Ring

/-! ## The reader -/

/-- The little-endian number a frame starts with. -/
def frameLength (bytes : Bytes) : ℕ :=
  (bytes.getD 0 0).toNat + (bytes.getD 1 0).toNat * 2 ^ 8 + (bytes.getD 2 0).toNat * 2 ^ 16 +
    (bytes.getD 3 0).toNat * 2 ^ 24

/-- What `_parse` makes of some bytes. -/
structure Parsed where
  frames : List Bytes
  rest : Bytes
  /-- A frame was declared longer than the reader takes. -/
  oversized : Bool

/-- The declared length is past the ceiling. -/
def Config.refuses (config : Config) (len : ℕ) : Bool :=
  match config.maxFrameBytes with
  | none => false
  | some max => decide (max < len)

/-- The loop of `_parse`, with fuel for its turns. -/
def parseLoop (config : Config) : ℕ → Bytes → Parsed
  | 0, buf => { frames := [], rest := buf, oversized := false }
  | fuel + 1, buf =>
    if buf.length < 4 then { frames := [], rest := buf, oversized := false }
    else if config.refuses (frameLength buf) then
      { frames := [], rest := [], oversized := true }
    else if buf.length - 4 < frameLength buf then
      { frames := [], rest := buf, oversized := false }
    else
      let later := parseLoop config fuel (buf.drop (4 + frameLength buf))
      { later with frames := buf.take (4 + frameLength buf) :: later.frames }

/-- `_parse()`: a turn takes at least four bytes, so there are turns enough. -/
def parse (config : Config) (buf : Bytes) : Parsed := parseLoop config buf.length buf

namespace Ring

/-- The reader's next atomic access. -/
def readerStep (config : Config) (r : Ring) : Option Ring :=
  match r.readerAt with
  | .idle => none
  | .loadWrite => some { r with readerAt := .loadRead r.shared.writeIdx }
  | .loadRead write =>
    let avail := distance write r.shared.readIdx
    some
      (if avail = 0 then
        { r with readerAt := .arm write, reader := { r.reader with waiting := true } }
      else { r with readerAt := .copy write r.shared.readIdx avail })
  | .copy _ read avail =>
    some
      { r with
        readerAt := .store read avail (r.reader.acc ++ r.shared.subarray config read avail) }
  | .store read avail buf =>
    some
      { r with
        shared := { r.shared with readIdx := advance read avail }
        consumed := r.consumed ++ buf.drop r.reader.acc.length
        readerAt := .notify buf }
  | .notify buf =>
    let parsed := parse config buf
    let woken :=
      { r with
        flushWait := r.flushWait.notify
        emitted := r.emitted ++ parsed.frames }
    some
      (if parsed.oversized then
        { woken with reader := { r.reader with acc := [], closed := true }, readerAt := .idle }
      else { woken with reader := { r.reader with acc := parsed.rest }, readerAt := .loadWrite })
  | .arm expectedWrite =>
    some
      { r with
        readerAt := .idle
        readWait := if r.shared.writeIdx = expectedWrite then .parked else .runnable }

end Ring

/-! ## The machine -/

/-- What can happen on a ring. -/
inductive Event
  /-- The writer's caller writes; `aged` is what the age check would find. -/
  | write (bytes : Bytes) (aged : Bool)
  /-- The writer's caller calls `notify()`. -/
  | notify
  /-- The continuation of the writer's wait runs. -/
  | resumeFlush (aged : Bool)
  /-- The writer's next atomic access. -/
  | writer
  | closeWriter
  /-- `start()` of the reader. -/
  | start
  /-- The continuation of the reader's wait runs. -/
  | resumeDrain
  /-- The reader's next atomic access. -/
  | reader
  | closeReader

/-- The writer's thread is in no call. -/
def WriterAt.isIdle : WriterAt → Bool
  | idle => true
  | _ => false

/-- The reader's thread is in no call. -/
def ReaderAt.isIdle : ReaderAt → Bool
  | idle => true
  | _ => false

/-- One event, where it is enabled. -/
def step (config : Config) (r : Ring) : Event → Option Ring
  | .write bytes aged => if r.writerAt.isIdle then some (r.write config bytes aged) else none
  | .notify =>
    if r.writerAt.isIdle then
      some { r with readWait := r.readWait.notify, owed := false }
    else none
  | .resumeFlush aged =>
    if r.writerAt.isIdle && r.flushWait == .runnable then some (r.resumeFlush aged) else none
  | .writer => r.writerStep config
  | .closeWriter => if r.writerAt.isIdle then some r.closeWriter else none
  | .start =>
    if r.readerAt.isIdle && !r.reader.waiting then
      some (if r.reader.closed then r else { r with readerAt := .loadWrite })
    else none
  | .resumeDrain =>
    if r.readerAt.isIdle && r.readWait == .runnable then
      let resumed := { r with reader := { r.reader with waiting := false }, readWait := .none }
      some (if r.reader.closed then resumed else { resumed with readerAt := .loadWrite })
    else none
  | .reader => r.readerStep config
  | .closeReader =>
    if r.readerAt.isIdle then
      some
        { r with
          reader := { r.reader with acc := [], closed := true }
          readWait := r.readWait.notify }
    else none

/-- A ring before any write. -/
def Ring.fresh (config : Config) (data : ℕ → UInt8) : Ring where
  shared := { data := data, writeIdx := config.origin, readIdx := config.origin }
  writer :=
    { pending := []
      pendingHead := 0
      pendingOffset := 0
      pendingBytes := 0
      flushArmed := false
      closed := false
      readSnapshot := 0 }
  writerAt := .idle
  flushWait := .none
  reader := { acc := [], closed := false, waiting := false }
  readerAt := .idle
  readWait := .none
  accepted := []
  consumed := []
  emitted := []
  owed := false

/-- A ring, over some contents of its memory, as a machine. -/
def ring (config : Config) (data : ℕ → UInt8) : Machine Ring Event where
  init := Ring.fresh config data
  step := step config

end AdapterWs.RelayRing
