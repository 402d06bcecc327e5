import AdapterWs.RelayRing.Backlog

/-!
# The ceilings on a spill

A writer whose ring is full keeps a backlog. The byte ceiling bounds the backlog, and the age
ceiling is meant to find a consumer that has stopped. The writer stamps the backlog when it opens
and whenever a flush moves bytes into the ring, and tests the age of the stamp at each write, at
each flush and when a timer fires.

The stamp follows the flush and not the consumer. A consumer that has freed bytes is blamed if the
age is tested at the ceiling before the flush it woke has pushed.
-/

namespace AdapterWs.RelayRing

/-! ## The state -/

/-- Why a spill is given up. -/
inductive Reason
  | bytes
  | age
  deriving DecidableEq

/-- The event of `_overflow`, and how things stood. -/
structure Report where
  reason : Reason
  droppedBytes : ℕ
  pendingAgeMs : ℕ
  maxPendingBytes : Option ℕ
  maxPendingAgeMs : ℕ
  /-- When it was reported. -/
  time : ℕ
  /-- The backlog before the frame that came in. -/
  backlog : ℕ
  /-- When the last byte of the backlog entered the ring, or the backlog opened. -/
  entered : ℕ
  /-- The consumer has freed bytes since then. -/
  freed : Bool

/-- A ring with the fields of its writer that tell the age of the backlog. Times count in a unit
of the clock. -/
structure Spill where
  ring : Ring
  /-- What `_now()` reads. -/
  now : ℕ
  pendingSince : ℕ
  /-- The delay of the timer that is set. -/
  ageTimer : Option ℕ
  /-- The calls of `onOverflow`. -/
  reports : List Report
  /-- When the last byte of the backlog entered the ring, or the backlog opened. -/
  entered : ℕ
  /-- The consumer has freed bytes since then. -/
  freed : Bool

/-- The reader stores the position it has come to. -/
def ReaderAt.isStore : ReaderAt → Bool
  | store _ _ _ => true
  | _ => false

namespace Spill

/-- `_pendingAge()`. -/
def pendingAge (s : Spill) : ℕ :=
  if 0 < s.ring.writer.pendingBytes then s.now - s.pendingSince else 0

/-- `close()`. -/
def close (s : Spill) : Spill :=
  { s with ring := s.ring.closeWriter, pendingSince := 0, ageTimer := none }

/-- `_overflow(reason, incomingBytes)`. -/
def overflow (config : Config) (maxAge : ℕ) (s : Spill) (reason : Reason) (incomingBytes : ℕ) :
    Spill :=
  { s.close with
    reports := s.reports ++
      [{ reason := reason
         droppedBytes := s.ring.writer.pendingBytes + incomingBytes
         pendingAgeMs := s.pendingAge
         maxPendingBytes := config.maxPendingBytes
         maxPendingAgeMs := maxAge
         time := s.now
         backlog := s.ring.writer.pendingBytes
         entered := s.entered
         freed := s.freed }] }

/-- `_armAgeLimit()` with a finite ceiling. -/
def armAgeLimit (maxAge : ℕ) (s : Spill) : Spill :=
  if s.ageTimer.isSome || s.ring.writer.closed || s.ring.writer.pendingBytes == 0 then s
  else { s with ageTimer := some (maxAge - s.pendingAge) }

/-- `write(bytes)`, up to its first atomic access. -/
def write (config : Config) (maxAge : ℕ) (s : Spill) (bytes : Bytes) : Spill :=
  if s.ring.writer.closed then s
  else if 0 < s.ring.writer.pendingBytes ∧ maxAge ≤ s.pendingAge then
    s.overflow config maxAge .age bytes.length
  else if 0 < s.ring.writer.pendingBytes ∧ s.ring.writer.overflows config then
    s.overflow config maxAge .bytes bytes.length
  else { s with ring := s.ring.write config bytes false }

/-- The end of `_flushPending`: nothing is left to age. -/
def endFlush (s : Spill) : Spill :=
  if s.ring.writer.pendingBytes = 0 then { s with pendingSince := 0, ageTimer := none } else s

/-- `this.pendingSince = this._now()`, where bytes of the backlog have entered the ring or the
backlog has opened. -/
def stamp (s : Spill) : Spill :=
  { s with pendingSince := s.now, entered := s.now, freed := false }

/-- `_push` returned `n`, and the ring went on to `ring`. -/
def pushed (maxAge : ℕ) (s : Spill) (p : Push) (n : ℕ) (ring : Ring) : Spill :=
  match p.caller with
  | .write =>
    if n < p.bytes.length then ({ s with ring := ring } : Spill).stamp.armAgeLimit maxAge
    else { s with ring := ring }
  | .flush =>
    if n = 0 then ({ s with ring := ring } : Spill).endFlush
    else ({ s with ring := ring } : Spill).stamp.endFlush

/-- The writer's next atomic access. -/
def writer (config : Config) (maxAge : ℕ) (s : Spill) : Option Spill :=
  (s.ring.writerStep config).map fun ring =>
    match s.ring.writerAt with
    | .loadRead p write =>
      if s.ring.room config p write = 0 then s.pushed maxAge p 0 ring else { s with ring := ring }
    | .store p _ n => s.pushed maxAge p n ring
    | _ => { s with ring := ring }

/-- The continuation of the flush wait, up to its first atomic access. -/
def resumeFlush (config : Config) (maxAge : ℕ) (s : Spill) : Spill :=
  let resumed : Ring :=
    { s.ring with writer := { s.ring.writer with flushArmed := false }, flushWait := .none }
  if s.ring.writer.closed then { s with ring := resumed }
  else if maxAge ≤ s.pendingAge then
    ({ s with ring := resumed } : Spill).overflow config maxAge .age 0
  else ({ s with ring := resumed.goOn resumed.writer.flushNext } : Spill).endFlush

/-- The callback of the age timer. -/
def fireAgeTimer (config : Config) (maxAge : ℕ) (s : Spill) : Spill :=
  let s : Spill := { s with ageTimer := none }
  if s.ring.writer.closed || s.ring.writer.pendingBytes == 0 then s
  else if maxAge ≤ s.pendingAge then s.overflow config maxAge .age 0
  else s.armAgeLimit maxAge

/-- The reader's next atomic access. -/
def reader (config : Config) (s : Spill) : Option Spill :=
  (s.ring.readerStep config).map fun ring =>
    { s with ring := ring, freed := s.freed || s.ring.readerAt.isStore }

end Spill

/-! ## The machine -/

/-- What can happen. -/
inductive SpillEvent
  | tick (d : ℕ)
  | write (bytes : Bytes)
  | notify
  | resumeFlush
  | writer
  | ageTimer
  | closeWriter
  | start
  | resumeDrain
  | reader
  | closeReader

/-- One event, where it is enabled. A timer that is set may fire at any time. -/
def spillStep (config : Config) (maxAge : ℕ) (s : Spill) : SpillEvent → Option Spill
  | .tick d => some { s with now := s.now + d }
  | .write bytes =>
    if s.ring.writerAt.isIdle then some (s.write config maxAge bytes) else none
  | .resumeFlush =>
    if s.ring.writerAt.isIdle && s.ring.flushWait == .runnable then
      some (s.resumeFlush config maxAge)
    else none
  | .writer => s.writer config maxAge
  | .ageTimer =>
    if s.ring.writerAt.isIdle && s.ageTimer.isSome then some (s.fireAgeTimer config maxAge)
    else none
  | .closeWriter => if s.ring.writerAt.isIdle then some s.close else none
  | .reader => s.reader config
  | .notify => (step config s.ring .notify).map fun ring => { s with ring := ring }
  | .start => (step config s.ring .start).map fun ring => { s with ring := ring }
  | .resumeDrain => (step config s.ring .resumeDrain).map fun ring => { s with ring := ring }
  | .closeReader => (step config s.ring .closeReader).map fun ring => { s with ring := ring }

/-- A spill before any write. -/
def Spill.fresh (config : Config) (data : ℕ → UInt8) : Spill :=
  ⟨.fresh config data, 0, 0, none, [], 0, false⟩

/-- A ring whose writer has an age ceiling. -/
def spillMachine (config : Config) (maxAge : ℕ) (data : ℕ → UInt8) : Machine Spill SpillEvent where
  init := .fresh config data
  step := spillStep config maxAge

/-- While there is a backlog, the consumer advances before the ceiling, and once it has, the clock
stays under the ceiling until the flush has pushed. -/
def Timely (maxAge : ℕ) (s : Spill) : SpillEvent → Prop
  | .tick d =>
    s.freed = true → 0 < s.ring.writer.pendingBytes → s.now + d < s.pendingSince + maxAge
  | .reader =>
    s.ring.readerAt.isStore = true → 0 < s.ring.writer.pendingBytes →
      s.now < s.pendingSince + maxAge
  | _ => True

instance instDecidableTimely (maxAge : ℕ) (s : Spill) :
    (e : SpillEvent) → Decidable (Timely maxAge s e)
  | .tick _ => inferInstanceAs (Decidable (_ → _ → _))
  | .reader => inferInstanceAs (Decidable (_ → _ → _))
  | .write _ | .notify | .resumeFlush | .writer | .ageTimer | .closeWriter | .start
  | .resumeDrain | .closeReader => isTrue trivial

/-- A report of age blames a consumer that has freed nothing for as long as the ceiling, and a
report of bytes names a backlog over the ceiling. -/
def Report.Founded (maxBytes maxAge : ℕ) (report : Report) : Prop :=
  match report.reason with
  | .age => report.freed = false ∧ report.entered + maxAge ≤ report.time
  | .bytes => maxBytes < report.backlog

end AdapterWs.RelayRing
