import AdapterWs.RelayRing.Fidelity

/-!
# No wake-up of the ring is lost

Each end waits for the position of the other to move past the value its verdict was computed from.
A writer whose push did not fit has seen the ring full, and it stays full until the reader moves;
a reader that parked has seen the ring empty, and it stays empty until the writer stores.

An end notifies one access after its store, so there are moments at which the other end is parked
with work to do: between the two accesses of the reader, and until the caller's `notify()`.
-/

namespace AdapterWs

open RelayRing Wait Ring Writer
namespace RelayRing

variable {config : Config} {r r' : Ring} {live : List Bytes} {shared shared' : Shared}
  {w w' : Writer} {p : Push} {n : ℕ} {wait : Wait}

/-- The writer's wait agrees with where its thread stands. A push that did not fit left the ring
full, as far as the reader had come when it looked. -/
inductive FlushFits (config : Config) (shared : Shared) (w : Writer) (wait : Wait) :
    WriterAt → Prop
  | quiet (hpending : w.pendingBytes = 0) (harmed : w.flushArmed = false)
      (hwait : wait = .none) : FlushFits config shared w wait .idle
  | waiting (hpending : 0 < w.pendingBytes) (harmed : w.flushArmed = true)
      (hwait : wait ≠ .none) (hfull : distance shared.writeIdx w.readSnapshot = config.cap) :
      FlushFits config shared w wait .idle
  | loadWrite (p : Push) (harmed : w.flushArmed = false) (hwait : wait = .none) :
      FlushFits config shared w wait (.loadWrite p)
  | loadRead (p : Push) (write : ℕ) (harmed : w.flushArmed = false) (hwait : wait = .none) :
      FlushFits config shared w wait (.loadRead p write)
  | copy (p : Push) (write n : ℕ) (harmed : w.flushArmed = false) (hwait : wait = .none)
      (hfull : n < p.bytes.length - p.offset → distance write w.readSnapshot + n = config.cap) :
      FlushFits config shared w wait (.copy p write n)
  | store (p : Push) (write n : ℕ) (harmed : w.flushArmed = false) (hwait : wait = .none)
      (hfull : n < p.bytes.length - p.offset → distance write w.readSnapshot + n = config.cap) :
      FlushFits config shared w wait (.store p write n)
  | notify (harmed : w.flushArmed = false) (hwait : wait = .none)
      (hfull : 0 < w.pendingBytes → distance shared.writeIdx w.readSnapshot = config.cap) :
      FlushFits config shared w wait .notify
  | arm (hpending : 0 < w.pendingBytes) (harmed : w.flushArmed = true) (hwait : wait = .none)
      (hfull : distance shared.writeIdx w.readSnapshot = config.cap) :
      FlushFits config shared w wait .arm

/-- The reader's wait agrees with where its thread stands. -/
inductive DrainFits (shared : Shared) (waiting : Bool) (wait : Wait) : ReaderAt → Prop
  | quiet (hwaiting : waiting = false) (hwait : wait = .none) :
      DrainFits shared waiting wait .idle
  | waits (hwaiting : waiting = true) (hwait : wait ≠ .none) :
      DrainFits shared waiting wait .idle
  | loadWrite (hwait : wait = .none) : DrainFits shared waiting wait .loadWrite
  | loadRead (write : ℕ) (hwait : wait = .none) : DrainFits shared waiting wait (.loadRead write)
  | copy (write read avail : ℕ) (hwait : wait = .none) :
      DrainFits shared waiting wait (.copy write read avail)
  | store (read avail : ℕ) (buf : Bytes) (hwait : wait = .none) :
      DrainFits shared waiting wait (.store read avail buf)
  | notify (buf : Bytes) (hwait : wait = .none) : DrainFits shared waiting wait (.notify buf)
  | arm (hwaiting : waiting = true) (hwait : wait = .none) :
      DrainFits shared waiting wait (.arm shared.readIdx)

/-- The invariant of the two waits. -/
structure Awaits (config : Config) (r : Ring) : Prop where
  snapshot_lt : r.writer.readSnapshot < 2 ^ 32
  flush : FlushFits config r.shared r.writer r.flushWait r.writerAt
  /-- The reader has not moved since the verdict, or it is about to notify. -/
  parked : r.flushWait = .parked →
    r.readerAt.isParsing = true ∨ r.shared.readIdx = r.writer.readSnapshot
  drain : DrainFits r.shared r.reader.waiting r.readWait r.readerAt
  /-- The ring is still empty, or a notify is to come. -/
  owed : r.readWait = .parked → r.shared.unread = 0 ∨ r.owed = true

/-! ## What the waits read -/

variable {at' : WriterAt}

/-- What does not move the writer, and wakes its wait at most. -/
theorem FlushFits.congr {wait' : Wait} (h : FlushFits config shared w wait at')
    (hwrite : shared'.writeIdx = shared.writeIdx) (hpending : w'.pendingBytes = w.pendingBytes)
    (harmed : w'.flushArmed = w.flushArmed) (hsnapshot : w'.readSnapshot = w.readSnapshot)
    (hnone : wait' = .none ↔ wait = .none) :
    FlushFits config shared' w' wait' at' := by
  cases h with
  | quiet hp ha hw => exact .quiet (hpending.trans hp) (harmed.trans ha) (hnone.mpr hw)
  | waiting hp ha hw hf =>
    exact .waiting (hpending ▸ hp) (harmed.trans ha) (mt hnone.mp hw)
      (by rw [hwrite, hsnapshot, hf])
  | loadWrite p ha hw => exact .loadWrite p (harmed.trans ha) (hnone.mpr hw)
  | loadRead p write ha hw => exact .loadRead p write (harmed.trans ha) (hnone.mpr hw)
  | copy p write n ha hw hf =>
    rw [← hsnapshot] at hf
    exact .copy p write n (harmed.trans ha) (hnone.mpr hw) hf
  | store p write n ha hw hf =>
    rw [← hsnapshot] at hf
    exact .store p write n (harmed.trans ha) (hnone.mpr hw) hf
  | notify ha hw hf =>
    rw [← hsnapshot, ← hwrite, ← hpending] at hf
    exact .notify (harmed.trans ha) (hnone.mpr hw) hf
  | arm hp ha hw hf =>
    exact .arm (hpending ▸ hp) (harmed.trans ha) (hnone.mpr hw) (by rw [hwrite, hsnapshot, hf])

theorem DrainFits.congr {at' : ReaderAt} {waiting : Bool} {wait' : Wait}
    (h : DrainFits shared waiting wait at') (hread : shared'.readIdx = shared.readIdx)
    (hnone : wait' = .none ↔ wait = .none) : DrainFits shared' waiting wait' at' := by
  cases h with
  | quiet hwaiting hwait => exact .quiet hwaiting (hnone.mpr hwait)
  | waits hwaiting hwait => exact .waits hwaiting (mt hnone.mp hwait)
  | loadWrite hwait => exact .loadWrite (hnone.mpr hwait)
  | loadRead write hwait => exact .loadRead write (hnone.mpr hwait)
  | copy write read avail hwait => exact .copy write read avail (hnone.mpr hwait)
  | store read avail buf hwait => exact .store read avail buf (hnone.mpr hwait)
  | notify buf hwait => exact .notify buf (hnone.mpr hwait)
  | arm hwaiting hwait =>
    rw [← hread]
    exact .arm hwaiting (hnone.mpr hwait)

theorem Wait.notify_ne_parked (wait : Wait) : wait.notify ≠ .parked := by
  cases wait <;> simp [notify]

theorem Wait.notify_eq_none : wait.notify = .none ↔ wait = .none := by
  cases wait <;> simp [notify]

/-! ## The writer's steps -/

/-- What a call of the writer leaves of the rest. -/
structure SameWaits (r r' : Ring) : Prop where
  shared : r'.shared = r.shared
  flushWait : r'.flushWait = r.flushWait
  reader : r'.reader = r.reader
  readerAt : r'.readerAt = r.readerAt
  readWait : r'.readWait = r.readWait
  owed : r'.owed = r.owed
  readSnapshot : r'.writer.readSnapshot = r.writer.readSnapshot

/-- The waits after the writer went on to its next access. -/
theorem Awaits.goOn (h : Awaits config r) (hsame : SameWaits r r')
    (hflush : FlushFits config r.shared r'.writer r.flushWait r'.writerAt) : Awaits config r' where
  snapshot_lt := by
    rw [hsame.readSnapshot]
    exact h.snapshot_lt
  flush := by
    rw [hsame.shared, hsame.flushWait]
    exact hflush
  parked := by
    rw [hsame.flushWait, hsame.readerAt, hsame.shared, hsame.readSnapshot]
    exact h.parked
  drain := by
    rw [hsame.shared, hsame.reader, hsame.readWait, hsame.readerAt]
    exact h.drain
  owed := by
    rw [hsame.readWait, hsame.shared, hsame.owed]
    exact h.owed

theorem readSnapshot_armFlush (w : Writer) : w.armFlush.1.readSnapshot = w.readSnapshot := by
  rcases armFlush_eq w with heq | heq <;> rw [heq]

theorem readSnapshot_endFlush (w : Writer) : w.endFlush.1.readSnapshot = w.readSnapshot := by
  rw [endFlush]
  split <;> rfl

theorem readSnapshot_flushNext (w : Writer) : w.flushNext.1.readSnapshot = w.readSnapshot := by
  rw [flushNext]
  split
  · exact readSnapshot_endFlush w
  · split
    · rfl
    · exact readSnapshot_endFlush w

/-- A caller that counts a push touches nothing but the deque and the flag. -/
theorem sameWaits_pushed (r : Ring) (p : Push) (n : ℕ) : SameWaits r (r.pushed p n) := by
  rw [pushed]
  cases p.caller with
  | write =>
    dsimp only
    split
    · exact ⟨rfl, rfl, rfl, rfl, rfl, rfl, readSnapshot_armFlush _⟩
    · exact ⟨rfl, rfl, rfl, rfl, rfl, rfl, rfl⟩
  | flush =>
    dsimp only
    split
    · exact ⟨rfl, rfl, rfl, rfl, rfl, rfl, readSnapshot_endFlush _⟩
    · refine ⟨rfl, rfl, rfl, rfl, rfl, rfl, (readSnapshot_flushNext _).trans ?_⟩
      split <;> rfl

/-- The loop of a flush goes on or ends with nothing left. -/
theorem FlushFits.flushNext (hbacklog : Backlog w live) (harmed : w.flushArmed = false)
    (hwait : wait = .none) : FlushFits config shared w.flushNext.1 wait w.flushNext.2 := by
  cases live with
  | nil =>
    have hbytes := hbacklog.bytes
    simp only [List.flatten_nil, List.length_nil] at hbytes
    rw [hbacklog.flushNext_nil]
    refine .notify harmed hwait fun hpos => ?_
    change 0 < w.pendingBytes at hpos
    omega
  | cons bytes live =>
    rw [hbacklog.flushNext_cons]
    exact .loadWrite _ harmed hwait

/-- After a push, the caller arms a flush, goes on with its flush, or is done. -/
theorem Took.flushFits (h : Took config r live p n) (hopen : r.writer.closed = false)
    (harmed : r.writer.flushArmed = false) (hwait : r.flushWait = .none)
    (hfull : n < p.bytes.length - p.offset →
      distance r.shared.writeIdx r.writer.readSnapshot = config.cap) :
    FlushFits config r.shared (r.pushed p n).writer r.flushWait (r.pushed p n).writerAt := by
  cases h.pushes with
  | write bytes hbytes =>
    rw [Ring.pushed]
    dsimp only
    split
    · next hn =>
      have hrefused := hfull hn
      change FlushFits config r.shared (armFlush _).1 r.flushWait (armFlush _).2
      rw [armFlush, if_neg (by simp [harmed, hopen])]
      exact .arm (Nat.sub_pos_of_lt hn) rfl hwait hrefused
    · have hzero : r.writer.pendingBytes = 0 := by
        have hbytes := h.backlog.bytes
        simp only [List.flatten_nil, List.length_nil] at hbytes
        omega
      exact .quiet hzero harmed hwait
  | flush bytes rest =>
    have hle : n ≤ bytes.length - r.writer.pendingOffset := h.le
    have hlt := h.backlog.offset bytes rfl
    rw [Ring.pushed]
    dsimp only
    split
    · next hzero =>
      have hrefused := hfull (by
        change n < bytes.length - r.writer.pendingOffset
        omega)
      change FlushFits config r.shared r.writer.endFlush.1 r.flushWait r.writer.endFlush.2
      rw [endFlush]
      split
      · exact .notify harmed hwait fun _ => hrefused
      · exact .notify harmed hwait fun _ => hrefused
    · by_cases hdone : bytes.length ≤ r.writer.pendingOffset + n
      · rw [if_pos hdone]
        exact FlushFits.flushNext (h.backlog.completed (by omega)) harmed hwait
      · rw [if_neg hdone]
        exact FlushFits.flushNext (h.backlog.progress (by omega)) harmed hwait

section

variable (h : Awaits config r)
include h

theorem Awaits.noteRead {write : ℕ} (hread : r.shared.readIdx < 2 ^ 32)
    (hat : r.writerAt = .loadRead p write) (harmed : r.writer.flushArmed = false)
    (hwait : r.flushWait = .none) (n : ℕ) :
    Awaits config (r.noteRead p n) ∧ (r.noteRead p n).flushWait = .none ∧
      (r.noteRead p n).writer.flushArmed = false ∧
      (r.noteRead p n).writer.closed = r.writer.closed ∧
      (n < p.bytes.length - p.offset →
        (r.noteRead p n).writer.readSnapshot = r.shared.readIdx) := by
  rw [Ring.noteRead]
  split
  · refine ⟨⟨hread, ?_, ?_, h.drain, h.owed⟩, hwait, harmed, rfl, fun _ => rfl⟩
    · change FlushFits config r.shared _ r.flushWait r.writerAt
      rw [hat]
      exact .loadRead p write harmed hwait
    · intro hparked
      exact .inr rfl
  · next hall => exact ⟨h, hwait, harmed, rfl, fun hn => absurd hn hall⟩

/-- A push goes on with its copy, or returns without one. -/
theorem Awaits.copyOrReturn {write : ℕ} (hheld : Held config { r with writerAt := .idle } live)
    (hp : Pushes r.writer live p) (harmed : r.writer.flushArmed = false)
    (hwait : r.flushWait = .none) (hopen : r.writer.closed = false)
    (hwrite : write = r.shared.writeIdx) (hfull : n < p.bytes.length - p.offset →
      distance write r.writer.readSnapshot + n = config.cap) :
    Awaits config
      (if n = 0 then r.pushed p 0 else { r with writerAt := .copy p write n }) := by
  subst hwrite
  split
  · next hzero =>
    subst hzero
    exact h.goOn (sameWaits_pushed r p 0)
      ((hheld.took_zero hp).flushFits hopen harmed hwait fun hn => by
        rw [← hfull hn, add_zero])
  · exact ⟨h.snapshot_lt, .copy p _ n harmed hwait hfull, h.parked, h.drain, h.owed⟩

/-- The verdict of a push on the room there is: where not all fits, the ring ends up full. -/
theorem Awaits.loadRead (hheld : Held config r live)
    (hat : r.writerAt = .loadRead p r.shared.writeIdx) (hp : Pushes r.writer live p)
    (harmed : r.writer.flushArmed = false) (hwait : r.flushWait = .none)
    (hopen : r.writer.closed = false) :
    Awaits config
      (if r.room config p r.shared.writeIdx = 0 then
        (r.noteRead p (r.room config p r.shared.writeIdx)).pushed p 0
      else
        { r.noteRead p (r.room config p r.shared.writeIdx) with
          writerAt := .copy p r.shared.writeIdx (r.room config p r.shared.writeIdx) }) := by
  have hfull : r.room config p r.shared.writeIdx < p.bytes.length - p.offset →
      distance r.shared.writeIdx r.shared.readIdx + r.room config p r.shared.writeIdx =
        config.cap := by
    have hfits := hheld.fits
    rw [Shared.unread] at hfits
    rw [room]
    omega
  generalize r.room config p r.shared.writeIdx = n at hfull ⊢
  obtain ⟨hnoted, hnotedWait, hnotedArmed, hnotedClosed, hsnapshot⟩ :=
    h.noteRead hheld.readIdx_lt hat harmed hwait n
  obtain ⟨hnotedHeld, hpushes⟩ := hheld.noteRead hp n
  refine hnoted.copyOrReturn hnotedHeld hpushes hnotedArmed hnotedWait
    (hnotedClosed.trans hopen) (by rw [shared_noteRead]) fun hn => ?_
  rw [hsnapshot hn]
  exact hfull hn

theorem Awaits.store (hheld : Held config r live) (hexp : config.exponent ≤ 31)
    (hp : Pushes r.writer live p) (hn : n ≤ p.bytes.length - p.offset)
    (hfit : r.shared.unread + n ≤ config.cap)
    (hcopied : Circular.around config.cap r.shared.data r.shared.writeIdx n =
      (p.bytes.drop p.offset).take n) (harmed : r.writer.flushArmed = false)
    (hwait : r.flushWait = .none) (hopen : r.writer.closed = false)
    (hat : r.writerAt = .store p r.shared.writeIdx n) (hfull : n < p.bytes.length - p.offset →
      distance r.shared.writeIdx r.writer.readSnapshot + n = config.cap) :
    Awaits config
      (({ r with
        shared := { r.shared with writeIdx := advance r.shared.writeIdx n }
        owed := true } : Ring).pushed p n) := by
  have hcap := Config.cap_le hexp
  have hstored : Awaits config
      { r with
        shared := { r.shared with writeIdx := advance r.shared.writeIdx n }
        owed := true } := by
    refine ⟨h.snapshot_lt, ?_, ?_, h.drain.congr rfl .rfl, fun _ => .inr rfl⟩
    · change FlushFits config _ r.writer r.flushWait r.writerAt
      rw [hat]
      exact .store p _ n harmed hwait hfull
    · intro hparked
      cases hparked.symm.trans hwait
  refine hstored.goOn (sameWaits_pushed _ p n)
    ((hheld.store hexp hp hn hfit hcopied).flushFits hopen harmed hwait fun hrefused => ?_)
  have hsum := hfull hrefused
  exact (distance_advance_left hheld.writeIdx_lt h.snapshot_lt (by omega)).trans hsum

theorem Awaits.notify (hopen : r.writer.closed = false) (harmed : r.writer.flushArmed = false)
    (hwait : r.flushWait = .none) (hfull : 0 < r.writer.pendingBytes →
      distance r.shared.writeIdx r.writer.readSnapshot = config.cap) :
    Awaits config
      (if 0 < r.writer.pendingBytes then
        ({ r with readWait := r.readWait.notify, owed := false } : Ring).goOn r.writer.armFlush
      else { r with readWait := r.readWait.notify, owed := false, writerAt := .idle }) := by
  have hnotified : Awaits config { r with readWait := r.readWait.notify, owed := false } :=
    ⟨h.snapshot_lt, h.flush, h.parked, h.drain.congr rfl notify_eq_none,
      fun hparked => absurd hparked (notify_ne_parked _)⟩
  split
  · next hpos =>
    refine hnotified.goOn ⟨rfl, rfl, rfl, rfl, rfl, rfl, readSnapshot_armFlush _⟩ ?_
    change FlushFits config r.shared r.writer.armFlush.1 r.flushWait r.writer.armFlush.2
    rw [armFlush, if_neg (by simp [harmed, hopen])]
    exact .arm hpos rfl hwait (hfull hpos)
  · next hzero =>
    exact hnotified.goOn ⟨rfl, rfl, rfl, rfl, rfl, rfl, rfl⟩
      (.quiet (Nat.eq_zero_of_not_pos hzero) harmed hwait)

theorem Awaits.arm (hpending : 0 < r.writer.pendingBytes) (harmed : r.writer.flushArmed = true)
    (hfull : distance r.shared.writeIdx r.writer.readSnapshot = config.cap) :
    Awaits config
      { r with
        writerAt := .idle
        flushWait :=
          if r.shared.readIdx = r.writer.readSnapshot then .parked else .runnable } := by
  refine ⟨h.snapshot_lt, .waiting hpending harmed ?_ hfull, ?_, h.drain, h.owed⟩
  · dsimp only
    split
    · intro hnone
      cases hnone
    · intro hnone
      cases hnone
  · dsimp only
    split
    · next heq => exact fun _ => .inr heq
    · intro hparked
      cases hparked

theorem Awaits.writerStep (hheld : Held config r live) (hexp : config.exponent ≤ 31)
    (hopen : r.writer.closed = false) (hs : r.writerStep config = some r') : Awaits config r' := by
  have hflush := h.flush
  have hwriter := hheld.writer
  rw [Ring.writerStep] at hs
  cases hat : r.writerAt with
  | idle =>
    rw [hat] at hs
    cases hs
  | loadWrite p =>
    rw [hat] at hs hflush
    cases hs
    cases hflush with
    | loadWrite _ harmed hwait =>
      exact ⟨h.snapshot_lt, .loadRead p _ harmed hwait, h.parked, h.drain, h.owed⟩
  | loadRead p write =>
    rw [hat] at hs hflush hwriter
    cases hwriter with
    | loadRead _ hp =>
      cases hflush with
      | loadRead _ _ harmed hwait =>
        cases hs
        exact h.loadRead hheld hat hp harmed hwait hopen
  | copy p write n =>
    rw [hat] at hs hflush
    cases hs
    cases hflush with
    | copy _ _ _ harmed hwait hfull =>
      exact ⟨h.snapshot_lt, .store p write n harmed hwait hfull, h.parked, h.drain.congr rfl .rfl,
        h.owed⟩
  | store p write n =>
    rw [hat] at hs hflush hwriter
    cases hs
    cases hwriter with
    | store _ _ hp hn hfit hcopied =>
      cases hflush with
      | store _ _ _ harmed hwait hfull =>
        exact h.store hheld hexp hp hn hfit hcopied harmed hwait hopen hat hfull
  | notify =>
    rw [hat] at hs hflush
    cases hs
    cases hflush with
    | notify harmed hwait hfull => exact h.notify hopen harmed hwait hfull
  | arm =>
    rw [hat] at hs hflush
    cases hs
    cases hflush with
    | arm hpending harmed hwait hfull => exact h.arm hpending harmed hfull

end

/-! ## The reader's steps -/

theorem Awaits.readerStep (h : Awaits config r) (hheld : Held config r live)
    (hs : r.readerStep config = some r') (hopen : r'.reader.closed = false) : Awaits config r' := by
  have hreader := hheld.reader
  have hdrain := h.drain
  have hparked := h.parked
  rw [Ring.readerStep] at hs
  cases hat : r.readerAt with
  | idle =>
    rw [hat] at hs
    cases hs
  | loadWrite =>
    rw [hat] at hs hdrain hparked
    cases hs
    cases hdrain with
    | loadWrite hwait => exact ⟨h.snapshot_lt, h.flush, hparked, .loadRead _ hwait, h.owed⟩
  | loadRead write =>
    rw [hat] at hs hdrain hparked hreader
    cases hdrain with
    | loadRead _ hwait =>
      cases hreader with
      | loadRead avail havail =>
        have hlt : avail < 2 ^ 32 := Nat.lt_of_le_of_lt havail (distance_lt _ _)
        simp only [distance_advance hheld.readIdx_lt hlt] at hs
        cases hs
        split
        · next hzero =>
          subst hzero
          have hsame : advance r.shared.readIdx 0 = r.shared.readIdx :=
            Nat.mod_eq_of_lt hheld.readIdx_lt
          rw [hsame]
          exact ⟨h.snapshot_lt, h.flush, hparked, .arm rfl hwait, h.owed⟩
        · exact ⟨h.snapshot_lt, h.flush, hparked, .copy _ _ _ hwait, h.owed⟩
  | copy write read avail =>
    rw [hat] at hs hdrain hparked
    cases hs
    cases hdrain with
    | copy _ _ _ hwait => exact ⟨h.snapshot_lt, h.flush, hparked, .store _ _ _ hwait, h.owed⟩
  | store read avail buf =>
    rw [hat] at hs hdrain
    cases hs
    cases hdrain with
    | store _ _ _ hwait =>
      refine ⟨h.snapshot_lt, h.flush.congr rfl rfl rfl rfl .rfl, fun _ => .inl rfl, .notify _ hwait,
        fun hreads => ?_⟩
      cases hwait.symm.trans hreads
  | notify buf =>
    rw [hat] at hs hdrain
    cases hs
    cases hdrain with
    | notify _ hwait =>
      split
      · next hoversized =>
        rw [if_pos hoversized] at hopen
        cases hopen
      · exact ⟨h.snapshot_lt, h.flush.congr rfl rfl rfl rfl notify_eq_none,
          fun hreads => absurd hreads (notify_ne_parked _), .loadWrite hwait, h.owed⟩
  | arm expectedWrite =>
    rw [hat] at hs hdrain hparked
    cases hs
    cases hdrain with
    | arm hwaiting hwait =>
      refine ⟨h.snapshot_lt, h.flush, hparked, .waits hwaiting ?_, ?_⟩
      · dsimp only
        split
        · intro hnone
          cases hnone
        · intro hnone
          cases hnone
      · dsimp only
        split
        · next heq =>
          intro _
          refine .inl ?_
          rw [Shared.unread, heq, distance_self]
        · intro hreads
          cases hreads

/-! ## Every run -/

theorem Awaits.fresh (config : Config) (data : ℕ → UInt8) : Awaits config (fresh config data) where
  snapshot_lt := Nat.two_pow_pos 32
  flush := .quiet rfl rfl rfl
  parked hparked := by cases hparked
  drain := .quiet rfl rfl
  owed hparked := by cases hparked

theorem Awaits.write {bytes : Bytes} (h : Awaits config r) (hat : r.writerAt = .idle)
    (aged : Bool) (hopen : (r.write config bytes aged).writer.closed = false) :
    Awaits config (r.write config bytes aged) := by
  have hflush := h.flush
  rw [hat] at hflush
  rw [Ring.write] at hopen ⊢
  split
  · exact h
  · next hclosed =>
    rw [if_neg hclosed] at hopen
    cases hflush with
    | quiet hpending harmed hwait =>
      rw [if_pos hpending]
      exact ⟨h.snapshot_lt, .loadWrite _ harmed hwait, h.parked, h.drain, h.owed⟩
    | waiting hpending harmed hwait hfull =>
      rw [if_neg (Nat.ne_of_gt hpending)] at hopen ⊢
      split
      · next haged =>
        rw [if_pos haged] at hopen
        cases hopen
      · next haged =>
        rw [if_neg haged] at hopen
        split
        · next hover =>
          rw [if_pos hover] at hopen
          cases hopen
        · refine h.goOn ⟨rfl, rfl, rfl, rfl, rfl, rfl, readSnapshot_armFlush _⟩ ?_
          change FlushFits config r.shared (armFlush _).1 r.flushWait
            (armFlush _).2
          rw [armFlush, if_pos (by simp [harmed])]
          exact .waiting (Nat.add_pos_left hpending _) harmed hwait hfull

theorem Awaits.resumeFlush (h : Awaits config r) (hheld : Held config r live) (aged : Bool)
    (hopen : (r.resumeFlush aged).writer.closed = false) :
    Awaits config (r.resumeFlush aged) := by
  rw [Ring.resumeFlush] at hopen ⊢
  split
  · next hclosed =>
    rw [if_pos hclosed] at hopen
    cases hclosed.symm.trans hopen
  · next hclosed =>
    rw [if_neg hclosed] at hopen
    split
    · next haged =>
      rw [if_pos haged] at hopen
      cases hopen
    · have hbacklog : Backlog { r.writer with flushArmed := false } live :=
        hheld.backlog.congr rfl rfl rfl rfl
      refine ⟨?_, FlushFits.flushNext hbacklog rfl rfl, fun hparked => (by cases hparked),
        h.drain, h.owed⟩
      exact (readSnapshot_flushNext _).symm ▸ h.snapshot_lt

theorem WriterAt.eq_idle (h : at'.isIdle = true) : at' = .idle := by
  cases at' <;> first | rfl | cases h

theorem Awaits.drains (h : Awaits config r) (hat : r.readerAt = .idle) :
    Awaits config { r with
      reader := { r.reader with waiting := false }, readWait := .none, readerAt := .loadWrite } := by
  have hparked := h.parked
  rw [hat] at hparked
  exact ⟨h.snapshot_lt, h.flush, hparked, .loadWrite rfl, fun hreads => by cases hreads⟩

theorem Awaits.step {e : Event} (h : Awaits config r) (hheld : Held config r live)
    (hexp : config.exponent ≤ 31) (hin : InStream r e)
    (hs : step config r e = some r') (hopen : r'.isOpen = true) : Awaits config r' := by
  simp only [isOpen, Bool.and_eq_true, Bool.not_eq_true'] at hopen
  simp only [InStream, isOpen, Bool.and_eq_true, Bool.not_eq_true'] at hin
  cases e with
  | write bytes aged =>
    simp only [RelayRing.step] at hs
    split at hs
    · next hidle =>
      cases hs
      exact h.write (WriterAt.eq_idle hidle) aged hopen.1
    · cases hs
  | notify =>
    obtain ⟨-, ⟨⟩⟩ := Option.ite_none_right_eq_some.mp hs
    exact ⟨h.snapshot_lt, h.flush, h.parked, h.drain.congr rfl notify_eq_none,
      fun hparked => absurd hparked (notify_ne_parked _)⟩
  | resumeFlush aged =>
    obtain ⟨-, ⟨⟩⟩ := Option.ite_none_right_eq_some.mp hs
    exact h.resumeFlush hheld aged hopen.1
  | writer => exact h.writerStep hheld hexp hin.1.1 hs
  | closeWriter =>
    obtain ⟨-, ⟨⟩⟩ := Option.ite_none_right_eq_some.mp hs
    exact absurd hopen.1 (by simp [closeWriter, close])
  | start =>
    simp only [RelayRing.step] at hs
    split at hs
    · next hidle =>
      simp only [Bool.and_eq_true, Bool.not_eq_true'] at hidle
      have hat := ReaderAt.eq_idle hidle.1
      have hdrain := h.drain
      have hparked := h.parked
      rw [hat] at hdrain hparked
      cases hs
      split
      · exact h
      · cases hdrain with
        | quiet hwaiting hwait =>
          exact ⟨h.snapshot_lt, h.flush, hparked, .loadWrite hwait, h.owed⟩
        | waits hwaiting hwait => cases hwaiting.symm.trans hidle.2
    · cases hs
  | resumeDrain =>
    simp only [RelayRing.step] at hs
    split at hs
    · next hidle =>
      simp only [Bool.and_eq_true] at hidle
      cases hs
      rw [if_neg (by simp [hin.1.2])]
      exact h.drains (ReaderAt.eq_idle hidle.1)
    · cases hs
  | reader => exact h.readerStep hheld hs hopen.2
  | closeReader =>
    obtain ⟨-, ⟨⟩⟩ := Option.ite_none_right_eq_some.mp hs
    cases hopen.2

/-- No end sleeps through what it waits for. -/
structure Awake (config : Config) (r : Ring) : Prop where
  /-- Between the calls of the writer, bytes in the deque have a flush that is armed: it is
  runnable, or the reader is about to notify it, or nothing happened since the verdict and the
  reader has bytes to take. -/
  flush : r.writerAt = .idle → 0 < r.writer.pendingBytes →
    r.writer.flushArmed = true ∧
      (r.flushWait = .runnable ∨
        r.flushWait = .parked ∧
          (r.readerAt.isParsing = true ∨
            r.shared.readIdx = r.writer.readSnapshot ∧ 0 < r.shared.unread))
  /-- A reader that is parked before unread bytes is about to be notified. -/
  drain : r.readWait = .parked → 0 < r.shared.unread → r.owed = true
  /-- With both ends parked and nothing left to do on either thread, nothing is outstanding. -/
  outstanding : r.writerAt = .idle → r.readerAt = .idle → r.owed = false →
    r.flushWait ≠ .runnable → r.readWait = .parked →
      r.writer.pendingBytes = 0 ∧ r.shared.unread = 0

theorem Awaits.awake (h : Awaits config r) : Awake config r := by
  have hdrain : r.readWait = .parked → 0 < r.shared.unread → r.owed = true := by
    intro hparked hpos
    rcases h.owed hparked with hzero | howed
    · omega
    · exact howed
  have hflush : r.writerAt = .idle → 0 < r.writer.pendingBytes →
      r.writer.flushArmed = true ∧
        (r.flushWait = .runnable ∨
          r.flushWait = .parked ∧
            (r.readerAt.isParsing = true ∨
              r.shared.readIdx = r.writer.readSnapshot ∧ 0 < r.shared.unread)) := by
    intro hat hpos
    have hfits := h.flush
    rw [hat] at hfits
    cases hfits with
    | quiet hpending harmed hwait => omega
    | waiting hpending harmed hwait hfull =>
      refine ⟨harmed, ?_⟩
      cases hstate : r.flushWait with
      | none => exact absurd hstate hwait
      | runnable => exact .inl rfl
      | parked =>
        refine .inr ⟨rfl, ?_⟩
        rcases h.parked hstate with hparsing | hsame
        · exact .inl hparsing
        · refine .inr ⟨hsame, ?_⟩
          rw [Shared.unread, hsame, hfull]
          exact config.cap_pos
  refine ⟨hflush, hdrain, ?_⟩
  intro hwriter hreader howed hrunnable hparked
  have hunread : r.shared.unread = 0 := by
    refine Nat.eq_zero_of_not_pos fun hpos => ?_
    cases (hdrain hparked hpos).symm.trans howed
  refine ⟨Nat.eq_zero_of_not_pos fun hpos => ?_, hunread⟩
  rcases (hflush hwriter hpos).2 with hrun | ⟨-, hparsing | ⟨-, hpos⟩⟩
  · exact hrunnable hrun
  · rw [hreader] at hparsing
    cases hparsing
  · omega

theorem awake_of_reaches {data : ℕ → UInt8} {es : List Event} (hexp : config.exponent ≤ 31)
    (hrun : (ring config data).ReachesWhere InStream es r) (hopen : r.isOpen = true) :
    Awake config r := by
  have hboth : r.isOpen = true → ∃ live, Held config r live ∧ Awaits config r := by
    refine hrun.invariant (I := fun r => r.isOpen = true → ∃ live, Held config r live ∧ Awaits config r)
      (fun _ => ⟨[], Held.fresh config data, Awaits.fresh config data⟩) ?_
    intro s e s' hinv hin hs hopen'
    obtain ⟨live, hheld, hawaits⟩ := hinv (by
      simp only [InStream, Bool.and_eq_true] at hin
      exact hin.1)
    obtain ⟨live', hheld'⟩ := hheld.step hexp hin hs hopen'
    exact ⟨live', hheld', hawaits.step hheld hexp hin hs hopen'⟩
  obtain ⟨live, -, hawaits⟩ := hboth hopen
  exact hawaits.awake

/-! ## Runs -/

/-- The reader parks before an empty ring, and a frame that does not fit is written. -/
def parkedRun : List Event :=
  [.start, .reader, .reader, .reader, .write shortFrame false, .writer, .writer, .writer, .writer,
    .writer, .notify]

/-- The writer waits for the reader, and the reader is about to drain. -/
def flushWaits (r : Ring) : Bool :=
  r.isOpen && decide (r.writer.pendingBytes = 1) && decide (r.flushWait = .parked) &&
    decide (r.readWait = .runnable)

theorem awake_parkedRun : ∃ r, Awake smallRing r ∧ flushWaits r = true := by
  obtain ⟨r, hr, hwaits⟩ :
      ∃ r, (ring smallRing fun _ => 0).ReachesWhere InStream parkedRun r ∧ flushWaits r = true :=
    Machine.exists_of_execWhere (by decide +kernel)
  have hopen : r.isOpen = true := by
    simp only [flushWaits, Bool.and_eq_true] at hwaits
    exact hwaits.1.1.1
  exact ⟨r, awake_of_reaches (by decide) hr hopen, hwaits⟩

/-- The reader has stored its position and not yet notified it. -/
def advancingRun : List Event :=
  [.write shortFrame false, .writer, .writer, .writer, .writer, .writer, .notify, .start, .reader,
    .reader, .reader, .reader]

/-- The writer is between its calls with bytes pending and a flush that is parked, and the read
position is past the one its last push observed. -/
def midAdvance (r : Ring) : Bool :=
  r.isOpen && r.writerAt.isIdle && !r.owed && decide (0 < r.writer.pendingBytes) &&
    decide (r.flushWait = .parked) && decide (r.shared.readIdx ≠ r.writer.readSnapshot)

/-- A frame of `2 ^ 32 + 1` bytes. -/
def overfullFrame : Bytes := [253, 255, 255, 255] ++ List.replicate (2 ^ 32 - 3) 0

theorem length_overfullFrame : overfullFrame.length = 2 ^ 32 + 1 := by
  have hheader : [253, 255, 255, (255 : UInt8)].length = 4 := rfl
  have htotal : 4 + (2 ^ 32 - 3) = 2 ^ 32 + 1 := by decide
  exact (List.length_append.trans (congrArg₂ (· + ·) hheader List.length_replicate)).trans htotal

/-- A write of which the ring took a part arms a flush. -/
theorem pushed_part {bytes : Bytes} (hn : n < bytes.length) (harmed : r.writer.flushArmed = false)
    (hopen : r.writer.closed = false) :
    (r.pushed { caller := .write, bytes := bytes, offset := 0 } n).writerAt = .arm ∧
      (r.pushed { caller := .write, bytes := bytes, offset := 0 } n).writer.closed = false ∧
      0 < (r.pushed { caller := .write, bytes := bytes, offset := 0 } n).writer.pendingBytes := by
  rw [pushed]
  dsimp only
  rw [if_pos hn, armFlush, if_neg (by simp [harmed, hopen])]
  exact ⟨rfl, hopen, Nat.sub_pos_of_lt hn⟩

/-- A writer that arms its flush and a reader that starts, on a ring whose positions are equal and
where the reader did not move, both park. -/
theorem parks_both {es : List Event} (h : (ring fullRing fun _ => 0).ReachesWhere InStream es r)
    (hat : r.writerAt = .arm) (hclosed : r.writer.closed = false)
    (hsnapshot : r.shared.readIdx = r.writer.readSnapshot)
    (hempty : distance r.shared.writeIdx r.shared.readIdx = 0) (hreader : r.readerAt = .idle)
    (hfields : r.reader = { acc := [], closed := false, waiting := false }) :
    ∃ es' r', (ring fullRing fun _ => 0).ReachesWhere InStream es' r' ∧ r'.isOpen = true ∧
      r'.writerAt = .idle ∧ r'.readerAt = .idle ∧ r'.owed = false ∧ r'.flushWait = .parked ∧
      r'.readWait = .parked ∧ r'.writer.pendingBytes = r.writer.pendingBytes := by
  have hopen : r.isOpen = true := by
    rw [isOpen, hclosed, hfields]
    rfl
  have harm : step fullRing r .writer =
      some { r with writerAt := .idle, flushWait := .parked } := by
    simp [step, writerStep, hat, if_pos hsnapshot]
  let waiting : Ring :=
    { r with
      writerAt := .idle, flushWait := .parked, readWait := r.readWait.notify, owed := false }
  have hnotify : step fullRing { r with writerAt := .idle, flushWait := .parked } .notify =
      some waiting := rfl
  have hstart : step fullRing waiting .start =
      some { waiting with readerAt := .loadWrite } := by
    simp only [step, waiting, hreader, hfields]
    rfl
  have hloadWrite : step fullRing { waiting with readerAt := .loadWrite } .reader =
      some { waiting with readerAt := .loadRead r.shared.writeIdx } := rfl
  let empty : Ring :=
    { waiting with
      reader := { waiting.reader with waiting := true }
      readerAt := .arm r.shared.writeIdx }
  have hloadRead : step fullRing
      { waiting with readerAt := .loadRead r.shared.writeIdx } .reader = some empty := by
    simp only [step, readerStep, waiting, hempty]
    rfl
  have hpark : step fullRing empty .reader =
      some { empty with readerAt := .idle, readWait := .parked } := by
    simp only [step, readerStep, empty, waiting]
    rfl
  have hwaiting := next_fullRing (next_fullRing h harm hopen rfl) hnotify hopen rfl
  have hloads := next_fullRing (next_fullRing hwaiting hstart hopen rfl) hloadWrite hopen rfl
  exact ⟨_, _, next_fullRing (next_fullRing hloads hloadRead hopen rfl) hpark hopen rfl, hopen, rfl,
    rfl, rfl, rfl, rfl, rfl⟩

/-- A full ring of `2 ^ 32` bytes is empty to its reader: both ends park, with a byte pending. -/
theorem both_parked_overfullRing :
    ∃ es r, (ring fullRing fun _ => 0).ReachesWhere InStream es r ∧ r.isOpen = true ∧
      r.writerAt = .idle ∧ r.readerAt = .idle ∧ r.owed = false ∧ r.flushWait = .parked ∧
      r.readWait = .parked ∧ 0 < r.writer.pendingBytes := by
  have hlength := length_overfullFrame
  generalize overfullFrame = frame at hlength
  have hpart : 2 ^ 32 < frame.length := by omega
  let stored : Ring :=
    { overfull frame with
      shared := { (overfull frame).shared with writeIdx := advance 0 (2 ^ 32) }
      owed := true }
  have hstore : step fullRing (overfull frame) .writer =
      some (stored.pushed { caller := .write, bytes := frame, offset := 0 } (2 ^ 32)) := rfl
  obtain ⟨hat, hclosed, hpending⟩ := pushed_part (r := stored) hpart rfl rfl
  have hsame := sameWaits_pushed stored { caller := .write, bytes := frame, offset := 0 } (2 ^ 32)
  have hspilled := next_fullRing (reaches_overfull (Nat.le_of_lt hpart)) hstore rfl rfl
  have hempty : distance stored.shared.writeIdx stored.shared.readIdx = 0 := by
    have hwrapped : advance 0 (2 ^ 32) = 0 := Nat.mod_self _
    change distance (advance 0 (2 ^ 32)) 0 = 0
    rw [hwrapped, distance_self]
  have hsnapshot : stored.shared.readIdx = stored.writer.readSnapshot := rfl
  rw [← hsame.shared] at hempty
  rw [← hsame.shared, ← hsame.readSnapshot] at hsnapshot
  obtain ⟨es, r, hr, hopen, hwriter, hreader, howed, hflush, hread, hbytes⟩ :=
    parks_both hspilled hat hclosed hsnapshot hempty (hsame.readerAt.trans rfl)
      (hsame.reader.trans rfl)
  rw [← hbytes] at hpending
  exact ⟨es, r, hr, hopen, hwriter, hreader, howed, hflush, hread, hpending⟩

/-- With the reader between its store and its notify, the flush is neither runnable nor has
nothing happened; and on a ring of `2 ^ 32` bytes both ends park with a byte pending. -/
theorem not_awake_midAdvance :
    (∃ es r, (ring smallRing fun _ => 0).ReachesWhere InStream es r ∧ midAdvance r = true) ∧
      ∃ es r, (ring fullRing fun _ => 0).ReachesWhere InStream es r ∧ ¬ Awake fullRing r := by
  refine ⟨⟨advancingRun, Machine.exists_of_execWhere (by decide +kernel)⟩, ?_⟩
  obtain ⟨es, r, hr, -, hwriter, hreader, howed, hflush, hread, hpending⟩ :=
    both_parked_overfullRing
  refine ⟨es, r, hr, fun hawake => ?_⟩
  have hnone := (hawake.outstanding hwriter hreader howed (by simp [hflush]) hread).1
  omega

end RelayRing
end AdapterWs
