import AdapterWs.RelayRing.SpillCeiling

/-!
# Whom the ceilings blame

The stamp of a backlog is the time at which its last byte entered the ring, or at which it opened.
So a report of age always comes as long after that as the ceiling says. The consumer may have
freed bytes in the meantime: then a flush is on its way, and it is the time until the flush pushes
that decides. Under the byte ceiling a backlog exceeds it by less than one frame, and a writer
that has reported writes nothing more.
-/

namespace AdapterWs

open Option RelayRing Bool
namespace RelayRing

variable {config : Config} {maxAge maxBytes n : ℕ} {data : ℕ → UInt8} {s s' : Spill} {r r' : Ring}
  {w : Writer} {p : Push} {e : SpillEvent}

/-! ## The ring below -/

/-- What the consumer does to a ring. -/
structure Ring.Drained (r r' : Ring) : Prop where
  writer : r'.writer = r.writer
  writerAt : r'.writerAt = r.writerAt
  accepted : r'.accepted = r.accepted
  writeIdx : r'.shared.writeIdx = r.shared.writeIdx
  data : r'.shared.data = r.shared.data
  flushWait : r.flushWait = .none → r'.flushWait = .none

theorem Ring.drained_of_readerStep (h : r.readerStep config = some r') : r.Drained r' := by
  have hkeep : ∀ {t : Ring}, t.writer = r.writer → t.writerAt = r.writerAt →
      t.accepted = r.accepted → t.shared.writeIdx = r.shared.writeIdx →
      t.shared.data = r.shared.data → (t.flushWait = r.flushWait ∨
        t.flushWait = r.flushWait.notify) → r.Drained t := by
    intro t hw ha hacc hidx hdata hwait
    refine ⟨hw, ha, hacc, hidx, hdata, fun hnone => ?_⟩
    rcases hwait with hwait | hwait
    · rw [hwait, hnone]
    · rw [hwait, hnone]
      rfl
  rw [Ring.readerStep] at h
  cases hat : r.readerAt with
  | idle =>
    rw [hat] at h
    cases h
  | loadWrite =>
    rw [hat] at h
    cases h
    exact hkeep rfl rfl rfl rfl rfl (.inl rfl)
  | loadRead write =>
    rw [hat] at h
    cases h
    split_ifs <;> exact hkeep rfl rfl rfl rfl rfl (.inl rfl)
  | copy write read avail =>
    rw [hat] at h
    cases h
    exact hkeep rfl rfl rfl rfl rfl (.inl rfl)
  | store read avail buf =>
    rw [hat] at h
    cases h
    exact hkeep rfl rfl rfl rfl rfl (.inl rfl)
  | notify buf =>
    rw [hat] at h
    cases h
    simp only
    split_ifs <;> exact hkeep rfl rfl rfl rfl rfl (.inr rfl)
  | arm expectedWrite =>
    rw [hat] at h
    cases h
    exact hkeep rfl rfl rfl rfl rfl (.inl rfl)

/-- The events of the reader and of the callers that leave the writer. -/
theorem Ring.drained_of_step {e : Event} (he : e = .notify ∨ e = .start ∨ e = .resumeDrain ∨
    e = .closeReader) (h : step config r e = some r') : r.Drained r' := by
  have hself : r.Drained r := ⟨rfl, rfl, rfl, rfl, rfl, id⟩
  rcases he with rfl | rfl | rfl | rfl <;> rw [step, ite_none_right_eq_some] at h <;>
    cases h.2
  · exact ⟨rfl, rfl, rfl, rfl, rfl, id⟩
  · split_ifs
    · exact hself
    · exact ⟨rfl, rfl, rfl, rfl, rfl, id⟩
  · simp only
    split_ifs <;> exact ⟨rfl, rfl, rfl, rfl, rfl, id⟩
  · exact ⟨rfl, rfl, rfl, rfl, rfl, id⟩

/-- A flush is waited for only where there is a backlog. -/
def Ring.Armed (r : Ring) : Prop :=
  match r.writerAt with
  | .idle => r.flushWait = .none ∨ r.writer.closed = true ∨ 0 < r.writer.pendingBytes
  | .arm => 0 < r.writer.pendingBytes
  | _ => r.flushWait = .none

theorem Ring.Armed.drained (h : r.Armed) (hd : r.Drained r') : r'.Armed := by
  rw [Ring.Armed, hd.writerAt, hd.writer]
  rw [Ring.Armed] at h
  cases hat : r.writerAt with
  | idle =>
    rw [hat] at h
    exact h.imp_left hd.flushWait
  | arm =>
    rw [hat] at h
    exact h
  | loadWrite p =>
    rw [hat] at h
    exact hd.flushWait h
  | loadRead p write =>
    rw [hat] at h
    exact hd.flushWait h
  | copy p write n =>
    rw [hat] at h
    exact hd.flushWait h
  | store p write n =>
    rw [hat] at h
    exact hd.flushWait h
  | notify =>
    rw [hat] at h
    exact hd.flushWait h

/-- A writer with a backlog goes on to wait for a flush. -/
theorem Ring.goOn_armFlush (r : Ring) (hw : 0 < w.pendingBytes) :
    (r.goOn w.armFlush).Armed ∧ (r.goOn w.armFlush).writer.pendingBytes = w.pendingBytes ∧
      (r.goOn w.armFlush).writer.closed = w.closed := by
  rcases armFlush_eq w with heq | heq
  · rw [heq]
    exact ⟨.inr (.inr hw), rfl, rfl⟩
  · rw [heq]
    exact ⟨hw, rfl, rfl⟩

theorem Ring.goOn_flushNext (r : Ring) (hwait : r.flushWait = .none) (w : Writer) :
    (r.goOn w.flushNext).Armed ∧ (r.goOn w.flushNext).writer.pendingBytes = w.pendingBytes ∧
      (r.goOn w.flushNext).writer.closed = w.closed := by
  have hend : (r.goOn w.endFlush).Armed ∧ (r.goOn w.endFlush).writer.pendingBytes =
      w.pendingBytes ∧ (r.goOn w.endFlush).writer.closed = w.closed := by
    rw [Writer.endFlush]
    split_ifs <;> exact ⟨hwait, rfl, rfl⟩
  rw [Writer.flushNext]
  split_ifs
  · exact hend
  · split
    · exact ⟨hwait, rfl, rfl⟩
    · exact hend

/-- What a returned `_push` leaves of the backlog. -/
structure Ring.Pushed (r r' : Ring) (p : Push) (n : ℕ) : Prop where
  armed : r'.Armed
  closed : r'.writer.closed = r.writer.closed
  wrote : p.caller = .write → r'.accepted = r.accepted ++ [p.bytes] ∧
    r'.writer.pendingBytes =
      if n < p.bytes.length then p.bytes.length - n else r.writer.pendingBytes
  flushed : p.caller = .flush → r'.accepted = r.accepted ∧
    r'.writer.pendingBytes = r.writer.pendingBytes - n

theorem Ring.pushed_spec (r : Ring) (hwait : r.flushWait = .none) (p : Push) (n : ℕ) :
    r.Pushed (r.pushed p n) p n := by
  rw [Ring.pushed]
  cases hcaller : p.caller with
  | write =>
    simp only
    split_ifs with hlt
    · obtain ⟨harmed, hbytes, hclosed⟩ :=
        Ring.goOn_armFlush { r with accepted := r.accepted ++ [p.bytes] }
          (w := { r.writer with
            pending := r.writer.pending ++ [some p.bytes]
            pendingOffset := n
            pendingBytes := p.bytes.length - n }) (Nat.sub_pos_of_lt hlt)
      refine ⟨harmed, hclosed, fun _ => ⟨rfl, ?_⟩, fun hp => ?_⟩
      · rw [if_pos hlt]
        exact hbytes
      · rw [hcaller] at hp
        cases hp
    · refine ⟨.inl hwait, rfl, fun _ => ⟨rfl, (if_neg hlt).symm⟩, fun hp => ?_⟩
      rw [hcaller] at hp
      cases hp
  | flush =>
    have hnot : p.caller = .write → False := by
      rw [hcaller]
      intro hp
      cases hp
    simp only
    split_ifs with hzero hlen
    · have hend : (r.goOn r.writer.endFlush).Armed ∧
          (r.goOn r.writer.endFlush).writer.closed = r.writer.closed ∧
          (r.goOn r.writer.endFlush).writer.pendingBytes = r.writer.pendingBytes := by
        rw [Writer.endFlush]
        split_ifs <;> exact ⟨hwait, rfl, rfl⟩
      exact ⟨hend.1, hend.2.1, fun hp => (hnot hp).elim,
        fun _ => ⟨rfl, by rw [hend.2.2, hzero, Nat.sub_zero]⟩⟩
    · obtain ⟨harmed, hbytes, hclosed⟩ := Ring.goOn_flushNext r hwait _
      exact ⟨harmed, hclosed, fun hp => (hnot hp).elim, fun _ => ⟨rfl, hbytes⟩⟩
    · obtain ⟨harmed, hbytes, hclosed⟩ := Ring.goOn_flushNext r hwait _
      exact ⟨harmed, hclosed, fun hp => (hnot hp).elim, fun _ => ⟨rfl, hbytes⟩⟩

/-- The writer is closed and its thread is in no call. -/
def Ring.Stopped (r : Ring) : Prop := r.writer.closed = true ∧ r.writerAt = .idle

/-! ## The invariant -/

/-- The stamp is the time at which the last byte of the backlog entered the ring or the backlog
opened, and where the consumer has freed bytes since then it is not old. -/
structure Watched (maxBytes maxAge : ℕ) (s : Spill) : Prop where
  stamp : 0 < s.ring.writer.pendingBytes → s.pendingSince = s.entered
  entered_le : s.entered ≤ s.now
  timely : s.freed = true → 0 < s.ring.writer.pendingBytes → s.now < s.pendingSince + maxAge
  armed : s.ring.Armed
  bounded : s.ring.writer.pendingBytes = 0 ∨
    ∃ f ∈ s.ring.accepted, s.ring.writer.pendingBytes ≤ maxBytes + f.length
  founded : ∀ report ∈ s.reports, report.Founded maxBytes maxAge
  stopped : s.reports ≠ [] → s.ring.Stopped

section

variable (hs : Watched maxBytes maxAge s)
include hs

theorem Watched.not_freed (hpos : 0 < s.ring.writer.pendingBytes) (haged : maxAge ≤ s.pendingAge) :
    s.freed = false ∧ s.entered + maxAge ≤ s.now := by
  rw [Spill.pendingAge, if_pos hpos] at haged
  have hstamp := hs.stamp hpos
  have hle := hs.entered_le
  constructor
  · cases hfreed : s.freed with
    | false => rfl
    | true =>
      have := hs.timely hfreed hpos
      omega
  · omega

theorem Watched.overflow (hidle : s.ring.writerAt = .idle) {reason : Reason} {incoming : ℕ}
    (hage : reason = .age → s.freed = false ∧ s.entered + maxAge ≤ s.now)
    (hbytes : reason = .bytes → maxBytes < s.ring.writer.pendingBytes) :
    Watched maxBytes maxAge (s.overflow config maxAge reason incoming) := by
  have hzero : ¬ 0 < (s.overflow config maxAge reason incoming).ring.writer.pendingBytes :=
    Nat.lt_irrefl 0
  refine ⟨fun h => absurd h hzero, hs.entered_le, fun _ h => absurd h hzero, ?_, .inl rfl, ?_, ?_⟩
  · have hat : (s.overflow config maxAge reason incoming).ring.writerAt = .idle := hidle
    rw [Ring.Armed, hat]
    exact .inr (.inl rfl)
  · intro report hreport
    rcases mem_concat.mp hreport with hreport | rfl
    · exact hs.founded report hreport
    · cases reason with
      | age => exact hage rfl
      | bytes => exact hbytes rfl
  · exact fun _ => ⟨rfl, hidle⟩

theorem Watched.close (hidle : s.ring.writerAt = .idle) : Watched maxBytes maxAge s.close := by
  have hzero : ¬ 0 < s.close.ring.writer.pendingBytes := Nat.lt_irrefl 0
  refine ⟨fun h => absurd h hzero, hs.entered_le, fun _ h => absurd h hzero, ?_, .inl rfl,
    hs.founded, fun _ => ⟨rfl, hidle⟩⟩
  have hat : s.close.ring.writerAt = .idle := hidle
  rw [Ring.Armed, hat]
  exact .inr (.inl rfl)

/-- The end of a flush clears a stamp that no backlog needs. -/
theorem Watched.endFlush : Watched maxBytes maxAge s.endFlush := by
  rw [Spill.endFlush]
  split_ifs with hzero
  · have hnot : ¬ 0 < s.ring.writer.pendingBytes := by omega
    exact ⟨fun h => absurd h hnot, hs.entered_le, fun _ h => absurd h hnot, hs.armed, hs.bounded,
      hs.founded, hs.stopped⟩
  · exact hs

theorem Watched.armAgeLimit : Watched maxBytes maxAge (s.armAgeLimit maxAge) := by
  rw [Spill.armAgeLimit]
  split_ifs
  · exact hs
  · exact ⟨hs.stamp, hs.entered_le, hs.timely, hs.armed, hs.bounded, hs.founded, hs.stopped⟩

theorem Watched.drained (hd : s.ring.Drained r') {freed : Bool}
    (hfreed : freed = true → 0 < s.ring.writer.pendingBytes → s.now < s.pendingSince + maxAge) :
    Watched maxBytes maxAge { s with ring := r', freed := freed } where
  stamp h := hs.stamp (hd.writer ▸ h)
  entered_le := hs.entered_le
  timely hf h := hfreed hf (hd.writer ▸ h)
  armed := hs.armed.drained hd
  bounded := by
    simp only [hd.writer, hd.accepted]
    exact hs.bounded
  founded := hs.founded
  stopped h := by
    have hstopped := hs.stopped h
    exact ⟨hd.writer ▸ hstopped.1, hd.writerAt ▸ hstopped.2⟩

theorem Watched.pushed (hnone : s.reports = []) (hring : s.ring.Pushed r' p n) :
    Watched maxBytes maxAge (s.pushed maxAge p n r') := by
  have hstopped : ∀ {P : Prop}, s.reports ≠ [] → P := fun h => absurd hnone h
  rw [Spill.pushed]
  cases hcaller : p.caller with
  | write =>
    obtain ⟨hacc, hbytes⟩ := hring.wrote hcaller
    have hmem : p.bytes ∈ r'.accepted := by
      rw [hacc]
      exact List.mem_concat_self
    simp only
    split_ifs with hlt
    · rw [if_pos hlt] at hbytes
      refine Watched.armAgeLimit ⟨fun _ => rfl, Nat.le_refl _, fun h => ?_, hring.armed, ?_,
        hs.founded, hstopped⟩
      · cases h
      · refine .inr ⟨p.bytes, hmem, ?_⟩
        simp only [Spill.stamp, hbytes]
        omega
    · rw [if_neg hlt] at hbytes
      refine ⟨fun h => hs.stamp (hbytes ▸ h), hs.entered_le,
        fun hf h => hs.timely hf (hbytes ▸ h), hring.armed, ?_, hs.founded, hstopped⟩
      simp only [hbytes, hacc]
      refine hs.bounded.imp_right fun ⟨f, hf, hle⟩ => ⟨f, List.mem_append_left _ hf, hle⟩
  | flush =>
    obtain ⟨hacc, hbytes⟩ := hring.flushed hcaller
    have hbounded : r'.writer.pendingBytes = 0 ∨
        ∃ f ∈ r'.accepted, r'.writer.pendingBytes ≤ maxBytes + f.length := by
      rw [hacc, hbytes]
      rcases hs.bounded with hzero | ⟨f, hf, hle⟩
      · exact .inl (by omega)
      · exact .inr ⟨f, hf, by omega⟩
    simp only
    split_ifs with hzero
    · rw [hzero, Nat.sub_zero] at hbytes
      exact Watched.endFlush ⟨fun h => hs.stamp (hbytes ▸ h), hs.entered_le,
        fun hf h => hs.timely hf (hbytes ▸ h), hring.armed, hbounded, hs.founded, hstopped⟩
    · refine Watched.endFlush ⟨fun _ => rfl, Nat.le_refl _, fun h => ?_, hring.armed, hbounded,
        hs.founded, hstopped⟩
      cases h

theorem Watched.access (hnone : s.reports = [])
    (hwriter : r'.writer.pendingBytes = s.ring.writer.pendingBytes)
    (hacc : r'.accepted = s.ring.accepted) (harmed : r'.Armed) :
    Watched maxBytes maxAge { s with ring := r' } where
  stamp h := hs.stamp (hwriter ▸ h)
  entered_le := hs.entered_le
  timely hf h := hs.timely hf (hwriter ▸ h)
  armed := harmed
  bounded := by
    simp only [hwriter, hacc]
    exact hs.bounded
  founded := hs.founded
  stopped h := absurd hnone h

end

/-! ## Events -/

theorem eq_idle_of_isIdle {position : WriterAt} (h : position.isIdle = true) :
    position = .idle := by
  cases position <;> first | rfl | cases h

section

variable (hs : Watched maxBytes maxAge s)
include hs

theorem Watched.write (hmax : config.maxPendingBytes = some maxBytes)
    (hidle : s.ring.writerAt = .idle) (bytes : Bytes) :
    Watched maxBytes maxAge (s.write config maxAge bytes) := by
  rw [Spill.write]
  split_ifs with hclosed hage hover
  · exact hs
  · exact hs.overflow hidle (fun _ => hs.not_freed hage.1 hage.2) fun h => by cases h
  · refine hs.overflow hidle (fun h => by cases h) fun _ => ?_
    have hpassed := hover.2
    rw [Writer.overflows, hmax] at hpassed
    exact of_decide_eq_true hpassed
  · have hnone : s.reports = [] := by
      by_contra hreports
      exact hclosed (hs.stopped hreports).1
    rw [Ring.write, if_neg hclosed]
    by_cases hzero : s.ring.writer.pendingBytes = 0
    · rw [if_pos hzero]
      refine hs.access hnone rfl rfl ?_
      have harmed := hs.armed
      rw [Ring.Armed, hidle] at harmed
      rcases harmed with hwait | hwait | hwait
      · exact hwait
      · exact absurd hwait hclosed
      · omega
    · have hpos : 0 < s.ring.writer.pendingBytes := Nat.pos_of_ne_zero hzero
      have hunder : ¬ s.ring.writer.overflows config = true := fun h => hover ⟨hpos, h⟩
      rw [if_neg hzero, if_neg Bool.false_ne_true, if_neg hunder]
      have hle : s.ring.writer.pendingBytes ≤ maxBytes := by
        rw [Writer.overflows, hmax, decide_eq_true_eq] at hunder
        omega
      obtain ⟨harmed, hbytes, -⟩ :=
        Ring.goOn_armFlush { s.ring with accepted := s.ring.accepted ++ [bytes] }
          (w := { s.ring.writer with
            pending := s.ring.writer.pending ++ [some bytes]
            pendingBytes := s.ring.writer.pendingBytes + bytes.length })
          (Nat.add_pos_left hpos _)
      refine ⟨fun _ => hs.stamp hpos, hs.entered_le, fun hf _ => hs.timely hf hpos, harmed,
        .inr ⟨bytes, List.mem_concat_self, ?_⟩, hs.founded,
        fun h => absurd hnone h⟩
      simp only [hbytes]
      omega

theorem Watched.resumeFlush (hidle : s.ring.writerAt = .idle)
    (hrunnable : s.ring.flushWait = .runnable) :
    Watched maxBytes maxAge (s.resumeFlush config maxAge) := by
  let resumed : Ring :=
    { s.ring with writer := { s.ring.writer with flushArmed := false }, flushWait := .none }
  have harmed : resumed.Armed := by
    have hat : resumed.writerAt = .idle := hidle
    rw [Ring.Armed, hat]
    exact .inl rfl
  have hresumed : Watched maxBytes maxAge { s with ring := resumed } :=
    ⟨hs.stamp, hs.entered_le, hs.timely, harmed, hs.bounded, hs.founded, hs.stopped⟩
  rw [Spill.resumeFlush]
  simp only
  split_ifs with hclosed hage
  · exact hresumed
  · have hpos : 0 < s.ring.writer.pendingBytes := by
      have hwaits := hs.armed
      rw [Ring.Armed, hidle, hrunnable] at hwaits
      rcases hwaits with hwait | hwait | hwait
      · cases hwait
      · exact absurd hwait hclosed
      · exact hwait
    exact hresumed.overflow hidle (fun _ => hs.not_freed hpos hage) fun h => by cases h
  · have hnone : s.reports = [] := by
      by_contra hreports
      exact hclosed (hs.stopped hreports).1
    obtain ⟨hnext, hbytes, -⟩ := Ring.goOn_flushNext resumed rfl resumed.writer
    exact (hresumed.access hnone hbytes rfl hnext).endFlush

theorem Watched.fireAgeTimer (hidle : s.ring.writerAt = .idle) :
    Watched maxBytes maxAge (s.fireAgeTimer config maxAge) := by
  have hcleared : Watched maxBytes maxAge { s with ageTimer := none } :=
    ⟨hs.stamp, hs.entered_le, hs.timely, hs.armed, hs.bounded, hs.founded, hs.stopped⟩
  rw [Spill.fireAgeTimer]
  simp only
  split_ifs with hquiet hage
  · exact hcleared
  · have hpos : 0 < s.ring.writer.pendingBytes := by
      refine Nat.pos_of_ne_zero fun hzero => hquiet ?_
      simp [hzero]
    exact hcleared.overflow hidle (fun _ => hs.not_freed hpos hage) fun h => by cases h
  · exact hcleared.armAgeLimit

/-- The writer's thread is inside a call only where nothing was reported. -/
theorem Watched.reports_eq_nil (hbusy : s.ring.writerAt ≠ .idle) : s.reports = [] := by
  by_contra hreports
  exact hbusy (hs.stopped hreports).2

theorem Watched.loadRead (hnone : s.reports = []) (hwait : s.ring.flushWait = .none) (p : Push)
    (write n : ℕ) :
    Watched maxBytes maxAge
      (if n = 0 then s.pushed maxAge p 0 ((s.ring.noteRead p n).pushed p 0)
      else { s with ring := { s.ring.noteRead p n with writerAt := .copy p write n } }) := by
  have hnoted : (s.ring.noteRead p n).flushWait = .none ∧
      (s.ring.noteRead p n).writer.pendingBytes = s.ring.writer.pendingBytes ∧
      (s.ring.noteRead p n).writer.closed = s.ring.writer.closed ∧
      (s.ring.noteRead p n).accepted = s.ring.accepted := by
    rw [Ring.noteRead]
    split_ifs <;> exact ⟨hwait, rfl, rfl, rfl⟩
  obtain ⟨hnoneWait, hbytes, hclosed, hacc⟩ := hnoted
  split_ifs with hzero
  · have hspec := Ring.pushed_spec (s.ring.noteRead p n) hnoneWait p 0
    refine hs.pushed hnone ⟨hspec.armed, hspec.closed.trans hclosed, fun hw => ?_, fun hf => ?_⟩
    · rw [← hacc, ← hbytes]
      exact hspec.wrote hw
    · rw [← hacc, ← hbytes]
      exact hspec.flushed hf
  · exact hs.access hnone hbytes hacc hnoneWait

theorem Watched.store (hnone : s.reports = []) (hwait : s.ring.flushWait = .none) (p : Push) (n : ℕ)
    (shared : Shared) :
    Watched maxBytes maxAge
      (s.pushed maxAge p n
        (({ s.ring with shared := shared, owed := true } : Ring).pushed p n)) := by
  have hspec := Ring.pushed_spec { s.ring with shared := shared, owed := true } hwait p n
  exact hs.pushed hnone ⟨hspec.armed, hspec.closed, hspec.wrote, hspec.flushed⟩

theorem Watched.writer (h : s.writer config maxAge = some s') : Watched maxBytes maxAge s' := by
  obtain ⟨ring, hring, rfl⟩ := map_eq_some_iff.mp h
  have harmed := hs.armed
  have hbusy := hs.reports_eq_nil
  rw [Ring.Armed] at harmed
  rw [Ring.writerStep] at hring
  cases hat : s.ring.writerAt with
  | idle =>
    rw [hat] at hring
    cases hring
  | loadWrite p =>
    rw [hat] at hring harmed hbusy
    cases hring
    exact hs.access (hbusy (by simp)) rfl rfl harmed
  | loadRead p write =>
    rw [hat] at hring harmed hbusy
    cases hring
    have hnext := hs.loadRead (hbusy (by simp)) harmed p write (s.ring.room config p write)
    simp only
    split_ifs at hnext ⊢
    · exact hnext
    · exact hnext
  | copy p write n =>
    rw [hat] at hring harmed hbusy
    cases hring
    exact hs.access (hbusy (by simp)) rfl rfl harmed
  | store p write n =>
    rw [hat] at hring harmed hbusy
    cases hring
    exact hs.store (hbusy (by simp)) harmed p n _
  | notify =>
    rw [hat] at hring harmed hbusy
    cases hring
    simp only
    split_ifs with hpos
    · obtain ⟨hnext, hbytes, -⟩ := Ring.goOn_armFlush
        { s.ring with readWait := s.ring.readWait.notify, owed := false } hpos
      exact hs.access (hbusy (by simp)) hbytes rfl hnext
    · exact hs.access (hbusy (by simp)) rfl rfl (.inl harmed)
  | arm =>
    rw [hat] at hring harmed hbusy
    cases hring
    exact hs.access (hbusy (by simp)) rfl rfl (.inr (.inr harmed))

theorem Watched.step (hmax : config.maxPendingBytes = some maxBytes) (hok : Timely maxAge s e)
    (h : spillStep config maxAge s e = some s') : Watched maxBytes maxAge s' := by
  have hcaller : ∀ {e : Event}, (e = .notify ∨ e = .start ∨ e = .resumeDrain ∨ e = .closeReader) →
      ((RelayRing.step config s.ring e).map fun ring => { s with ring := ring }) = some s' →
      Watched maxBytes maxAge s' := by
    intro e he hmap
    obtain ⟨ring, hring, rfl⟩ := map_eq_some_iff.mp hmap
    exact hs.drained (Ring.drained_of_step he hring) hs.timely
  cases e with
  | tick d =>
    cases h
    exact ⟨hs.stamp, Nat.le_trans hs.entered_le (Nat.le_add_right _ _), hok, hs.armed, hs.bounded,
      hs.founded, hs.stopped⟩
  | write bytes =>
    rw [spillStep, ite_none_right_eq_some] at h
    obtain ⟨hidle, heq⟩ := h
    cases heq
    exact hs.write hmax (eq_idle_of_isIdle hidle) bytes
  | resumeFlush =>
    rw [spillStep, ite_none_right_eq_some, and_eq_true, beq_iff_eq] at h
    obtain ⟨⟨hidle, hwait⟩, heq⟩ := h
    cases heq
    exact hs.resumeFlush (eq_idle_of_isIdle hidle) hwait
  | writer => exact hs.writer h
  | ageTimer =>
    rw [spillStep, ite_none_right_eq_some, and_eq_true] at h
    obtain ⟨⟨hidle, -⟩, heq⟩ := h
    cases heq
    exact hs.fireAgeTimer (eq_idle_of_isIdle hidle)
  | closeWriter =>
    rw [spillStep, ite_none_right_eq_some] at h
    obtain ⟨hidle, heq⟩ := h
    cases heq
    exact hs.close (eq_idle_of_isIdle hidle)
  | reader =>
    obtain ⟨ring, hring, rfl⟩ := map_eq_some_iff.mp h
    refine hs.drained (Ring.drained_of_readerStep hring) fun hfreed hpos => ?_
    rw [or_eq_true] at hfreed
    rcases hfreed with hfreed | hstore
    · exact hs.timely hfreed hpos
    · exact hok hstore hpos
  | notify => exact hcaller (.inl rfl) h
  | start => exact hcaller (.inr (.inl rfl)) h
  | resumeDrain => exact hcaller (.inr (.inr (.inl rfl))) h
  | closeReader => exact hcaller (.inr (.inr (.inr rfl))) h

end

theorem watched_fresh (config : Config) (data : ℕ → UInt8) :
    Watched maxBytes maxAge (.fresh config data) :=
  ⟨fun h => absurd h (Nat.lt_irrefl 0), Nat.le_refl 0, fun _ h => absurd h (Nat.lt_irrefl 0),
    .inl rfl, .inl rfl, List.forall_mem_nil _, fun h => absurd rfl h⟩

/-! ## After a report -/

/-- A writer that is stopped stays so, and writes nothing. -/
theorem stopped_step (hs : s.ring.Stopped) (h : spillStep config maxAge s e = some s') :
    s'.ring.Stopped ∧ s'.ring.shared.writeIdx = s.ring.shared.writeIdx ∧
      s'.ring.shared.data = s.ring.shared.data := by
  obtain ⟨hclosed, hidle⟩ := hs
  have hd : ∀ {r' : Ring}, s.ring.Drained r' → r'.Stopped ∧
      r'.shared.writeIdx = s.ring.shared.writeIdx ∧ r'.shared.data = s.ring.shared.data :=
    fun hd => ⟨⟨hd.writer ▸ hclosed, hd.writerAt ▸ hidle⟩, hd.writeIdx, hd.data⟩
  have hcaller : ∀ {e : Event}, (e = .notify ∨ e = .start ∨ e = .resumeDrain ∨ e = .closeReader) →
      ((step config s.ring e).map fun ring => { s with ring := ring }) = some s' →
      s'.ring.Stopped ∧ s'.ring.shared.writeIdx = s.ring.shared.writeIdx ∧
        s'.ring.shared.data = s.ring.shared.data := by
    intro e he hmap
    obtain ⟨ring, hring, rfl⟩ := map_eq_some_iff.mp hmap
    exact hd (Ring.drained_of_step he hring)
  cases e with
  | tick d =>
    cases h
    exact ⟨⟨hclosed, hidle⟩, rfl, rfl⟩
  | write bytes =>
    rw [spillStep, ite_none_right_eq_some, Spill.write, if_pos hclosed] at h
    cases h.2
    exact ⟨⟨hclosed, hidle⟩, rfl, rfl⟩
  | resumeFlush =>
    rw [spillStep, ite_none_right_eq_some, Spill.resumeFlush] at h
    simp only [hclosed, if_true] at h
    cases h.2
    exact ⟨⟨rfl, hidle⟩, rfl, rfl⟩
  | writer =>
    obtain ⟨ring, hring, -⟩ := map_eq_some_iff.mp h
    rw [Ring.writerStep, hidle] at hring
    cases hring
  | ageTimer =>
    rw [spillStep, ite_none_right_eq_some, Spill.fireAgeTimer] at h
    simp only [hclosed, Bool.true_or, if_true] at h
    cases h.2
    exact ⟨⟨hclosed, hidle⟩, rfl, rfl⟩
  | closeWriter =>
    rw [spillStep, ite_none_right_eq_some] at h
    cases h.2
    exact ⟨⟨rfl, hidle⟩, rfl, rfl⟩
  | reader =>
    obtain ⟨ring, hring, rfl⟩ := map_eq_some_iff.mp h
    exact hd (Ring.drained_of_readerStep hring)
  | notify => exact hcaller (.inl rfl) h
  | start => exact hcaller (.inr (.inl rfl)) h
  | resumeDrain => exact hcaller (.inr (.inr (.inl rfl))) h
  | closeReader => exact hcaller (.inr (.inr (.inr rfl))) h

theorem stopped_exec {es : List SpillEvent} (hs : s.ring.Stopped)
    (h : (spillMachine config maxAge data).exec s es = some s') :
    s'.ring.shared.writeIdx = s.ring.shared.writeIdx ∧
      s'.ring.shared.data = s.ring.shared.data := by
  induction es generalizing s with
  | nil =>
    cases h
    exact ⟨rfl, rfl⟩
  | cons e es ih =>
    rw [Machine.exec_cons, bind_eq_some_iff] at h
    obtain ⟨t, ht, hrest⟩ := h
    obtain ⟨hstopped, hidx, hdata⟩ := stopped_step hs ht
    obtain ⟨hidx', hdata'⟩ := ih hstopped hrest
    exact ⟨hidx'.trans hidx, hdata'.trans hdata⟩

/-! ## Runs -/

/-- Below the clock the ring makes one of its own steps, with the outcome of the age check. -/
theorem ring_of_spillStep (h : spillStep config maxAge s e = some s') :
    s'.ring = s.ring ∨ ∃ e', step config s.ring e' = some s'.ring := by
  have hend : ∀ s : Spill, s.endFlush.ring = s.ring := by
    intro s
    rw [Spill.endFlush]
    split_ifs <;> rfl
  have harm : ∀ s : Spill, (s.armAgeLimit maxAge).ring = s.ring := by
    intro s
    rw [Spill.armAgeLimit]
    split_ifs <;> rfl
  have hmap : ∀ {e' : Event},
      ((step config s.ring e').map fun ring => { s with ring := ring }) = some s' →
      ∃ e', step config s.ring e' = some s'.ring := by
    intro e' he'
    obtain ⟨ring, hring, rfl⟩ := map_eq_some_iff.mp he'
    exact ⟨e', hring⟩
  cases e with
  | tick d =>
    cases h
    exact .inl rfl
  | write bytes =>
    rw [spillStep, ite_none_right_eq_some] at h
    obtain ⟨hidle, heq⟩ := h
    cases heq
    rw [Spill.write]
    have hgive : ∀ aged, step config s.ring (.write bytes aged) =
        some (s.ring.write config bytes aged) := fun aged => if_pos hidle
    split_ifs with hclosed hage hover
    · exact .inl rfl
    · refine .inr ⟨.write bytes true, (hgive true).trans ?_⟩
      rw [Ring.write, if_neg hclosed, if_neg (Nat.ne_of_gt hage.1), if_pos rfl]
      rfl
    · refine .inr ⟨.write bytes true, (hgive true).trans ?_⟩
      rw [Ring.write, if_neg hclosed, if_neg (Nat.ne_of_gt hover.1), if_pos rfl]
      rfl
    · exact .inr ⟨.write bytes false, hgive false⟩
  | resumeFlush =>
    rw [spillStep, ite_none_right_eq_some] at h
    obtain ⟨hrunnable, heq⟩ := h
    cases heq
    have hgive : ∀ aged, step config s.ring (.resumeFlush aged) =
        some (s.ring.resumeFlush aged) := fun aged => if_pos hrunnable
    rw [Spill.resumeFlush]
    simp only
    split_ifs with hclosed hage
    · refine .inr ⟨.resumeFlush false, (hgive false).trans ?_⟩
      rw [Ring.resumeFlush, if_pos hclosed]
    · refine .inr ⟨.resumeFlush true, (hgive true).trans ?_⟩
      rw [Ring.resumeFlush, if_neg hclosed, if_pos rfl]
      rfl
    · refine .inr ⟨.resumeFlush false, (hgive false).trans ?_⟩
      rw [Ring.resumeFlush, if_neg hclosed, if_neg Bool.false_ne_true, hend]
  | writer =>
    obtain ⟨ring, hring, rfl⟩ := map_eq_some_iff.mp h
    refine .inr ⟨.writer, hring.trans (congrArg some ?_)⟩
    have hpushed : ∀ p n, (s.pushed maxAge p n ring).ring = ring := by
      intro p n
      rw [Spill.pushed]
      cases p.caller with
      | write =>
        simp only
        split_ifs
        · exact harm _
        · rfl
      | flush =>
        simp only
        split_ifs <;> exact hend _
    split
    · split_ifs
      · exact (hpushed _ 0).symm
      · rfl
    · exact (hpushed _ _).symm
    · rfl
  | ageTimer =>
    rw [spillStep, ite_none_right_eq_some, and_eq_true] at h
    obtain ⟨⟨hidle, -⟩, heq⟩ := h
    cases heq
    rw [Spill.fireAgeTimer]
    simp only
    split_ifs
    · exact .inl rfl
    · exact .inr ⟨.closeWriter, if_pos hidle⟩
    · exact .inl (harm _)
  | closeWriter =>
    rw [spillStep, ite_none_right_eq_some] at h
    obtain ⟨hidle, heq⟩ := h
    cases heq
    exact .inr ⟨.closeWriter, if_pos hidle⟩
  | reader =>
    obtain ⟨ring, hring, rfl⟩ := map_eq_some_iff.mp h
    exact .inr ⟨.reader, hring⟩
  | notify => exact .inr (hmap h)
  | start => exact .inr (hmap h)
  | resumeDrain => exact .inr (hmap h)
  | closeReader => exact .inr (hmap h)

/-- What holds of the ring in every run holds of the ring below a clock. -/
theorem reaches_ring {es : List SpillEvent}
    (hrun : (spillMachine config maxAge data).Reaches es s) :
    ∃ es', (ring config data).Reaches es' s.ring := by
  induction hrun with
  | start => exact ⟨[], .start⟩
  | next _ _ hstep ih =>
    obtain ⟨es', hs⟩ := ih
    rcases ring_of_spillStep hstep with heq | ⟨e', hring⟩
    · exact ⟨es', heq ▸ hs⟩
    · exact ⟨es' ++ [e'], hs.next trivial hring⟩

/-- A backlog that is reported for its age. -/
theorem reaches_ring_agedRun : ∃ (config : Config) (s : Spill) (es' : List Event),
    s.reports ≠ [] ∧ (ring config fun _ => 0).Reaches es' s.ring := by
  let config : Config := ⟨2, 0, by decide, some 64, none⟩
  obtain ⟨s, hrun, hreports⟩ : ∃ s, (spillMachine config 50 fun _ => 0).Reaches
      [.write (List.replicate 10 0), .writer, .writer, .writer, .writer, .writer, .tick 50,
      .ageTimer] s ∧ s.reports.length = 1 :=
    Machine.exists_of_exec (by decide +kernel)
  obtain ⟨es', hring⟩ := reaches_ring hrun
  refine ⟨config, s, es', fun hnone => ?_, hring⟩
  rw [hnone] at hreports
  cases hreports

/-- In every run in which the consumer advances, and its flush pushes, before the age of the
backlog reaches the ceiling: a report of age blames a consumer that has freed nothing since the
last byte of the backlog entered the ring or the backlog opened, which is at least the ceiling
ago; a report of bytes is about a backlog over its ceiling; the backlog exceeds the ceiling by no
more than one frame; and after a report nothing is written to the ring. -/
theorem founded_of_timely {es : List SpillEvent} (hmax : config.maxPendingBytes = some maxBytes)
    (hrun : (spillMachine config maxAge data).ReachesWhere (Timely maxAge) es s) :
    (∀ report ∈ s.reports, report.Founded maxBytes maxAge) ∧
      (s.ring.writer.pendingBytes = 0 ∨
        ∃ f ∈ s.ring.accepted, s.ring.writer.pendingBytes ≤ maxBytes + f.length) ∧
      (s.reports ≠ [] → ∀ es' s', (spillMachine config maxAge data).exec s es' = some s' →
        s'.ring.shared.writeIdx = s.ring.shared.writeIdx ∧
          s'.ring.shared.data = s.ring.shared.data) := by
  have hs : Watched maxBytes maxAge s :=
    hrun.invariant (watched_fresh config data) fun _ _ _ hI hok hstep => hI.step hmax hok hstep
  exact ⟨hs.founded, hs.bounded, fun hreports _ _ hexec => stopped_exec (hs.stopped hreports) hexec⟩

/-- A consumer that keeps draining under the ceiling is not blamed, and one that stalls is. -/
theorem founded_of_timely_stalledRun : ∃ (config : Config) (s : Spill),
    ((∀ report ∈ s.reports, report.Founded 64 50) ∧
      (s.ring.writer.pendingBytes = 0 ∨
        ∃ f ∈ s.ring.accepted, s.ring.writer.pendingBytes ≤ 64 + f.length) ∧
      (s.reports ≠ [] → ∀ es' s', (spillMachine config 50 fun _ => 0).exec s es' = some s' →
        s'.ring.shared.writeIdx = s.ring.shared.writeIdx ∧
          s'.ring.shared.data = s.ring.shared.data)) ∧
      s.reports.map (fun report => (report.reason, report.time, report.entered)) =
        [(.age, 90, 40)] := by
  let config : Config := ⟨2, 0, by decide, some 64, none⟩
  let bytes : Bytes := List.replicate 10 0
  obtain ⟨s, hrun, hp⟩ : ∃ s, (spillMachine config 50 fun _ => 0).ReachesWhere (Timely 50)
      [.write bytes, .writer, .writer, .writer, .writer, .writer, .tick 40, .start, .reader,
      .reader, .reader, .reader, .reader, .resumeFlush, .writer, .writer, .writer, .writer, .writer,
      .writer, .writer, .writer, .tick 50, .ageTimer] s ∧ s.reports.map (fun report =>
      (report.reason, report.time, report.entered)) = [(.age, 90, 40)] :=
    Machine.exists_of_execWhere (by decide +kernel)
  exact ⟨config, s, founded_of_timely rfl hrun, hp⟩

/-- At the ceiling, a consumer that has freed bytes is blamed by whatever tests the age next. -/
theorem blames_of_late (hclosed : s.ring.writer.closed = false)
    (hpos : 0 < s.ring.writer.pendingBytes) (hfreed : s.freed = true)
    (haged : maxAge ≤ s.pendingAge)
    (he : (∃ bytes, e = .write bytes) ∨ e = .resumeFlush ∨ e = .ageTimer)
    (h : spillStep config maxAge s e = some s') :
    ∃ report ∈ s'.reports, ¬ report.Founded maxBytes maxAge := by
  have hblames : ∀ (t : Spill) incoming, t.freed = true →
      ∃ report ∈ (t.overflow config maxAge .age incoming).reports,
        ¬ report.Founded maxBytes maxAge := by
    intro t incoming ht
    refine ⟨_, List.mem_concat_self, ?_⟩
    rw [Report.Founded, ht]
    exact fun hfounded => false_ne_true hfounded.1.symm
  rcases he with ⟨bytes, rfl⟩ | rfl | rfl <;> rw [spillStep, ite_none_right_eq_some] at h <;>
    cases h.2
  · rw [Spill.write, hclosed, if_neg Bool.false_ne_true, if_pos ⟨hpos, haged⟩]
    exact hblames s _ hfreed
  · rw [Spill.resumeFlush, hclosed]
    simp only [false_eq_true, if_false]
    rw [if_pos haged]
    exact hblames _ _ hfreed
  · have hquiet : (s.ring.writer.closed || s.ring.writer.pendingBytes == 0) = false := by
      simp [hclosed, Nat.ne_of_gt hpos]
    have haged' : maxAge ≤ ({ s with ageTimer := none } : Spill).pendingAge := haged
    rw [Spill.fireAgeTimer]
    simp only [hquiet, false_eq_true, if_false]
    rw [if_pos haged']
    exact hblames _ _ hfreed

/-- A ring of 1024 bytes fills, its consumer drains all of it one unit before the ceiling, and the
timer blames it before its flush is resumed. -/
theorem not_founded_drained : ¬ ∀ (config : Config) (maxBytes maxAge : ℕ) (data : ℕ → UInt8)
    (es : List SpillEvent) (s : Spill), config.maxPendingBytes = some maxBytes →
      (spillMachine config maxAge data).Reaches es s →
        (∀ report ∈ s.reports, report.Founded maxBytes maxAge) ∧
          (s.ring.writer.pendingBytes = 0 ∨
            ∃ f ∈ s.ring.accepted, s.ring.writer.pendingBytes ≤ maxBytes + f.length) ∧
          (s.reports ≠ [] → ∀ es' s', (spillMachine config maxAge data).exec s es' = some s' →
            s'.ring.shared.writeIdx = s.ring.shared.writeIdx ∧
              s'.ring.shared.data = s.ring.shared.data) := by
  intro hclaim
  let config : Config := ⟨10, 0, by decide, some 4096, none⟩
  obtain ⟨s, hrun, hp⟩ : ∃ s, (spillMachine config 50 fun _ => 0).Reaches
      [.write (List.replicate 1500 0), .writer, .writer, .writer, .writer, .writer, .tick 49,
      .start, .reader, .reader, .reader, .reader, .tick 1, .ageTimer] s ∧
      (s.reports.any fun report => report.reason = .age && report.freed) = true :=
    Machine.exists_of_exec (by decide +kernel)
  obtain ⟨report, hmem, hreport⟩ := List.any_eq_true.mp hp
  rw [and_eq_true, decide_eq_true_eq] at hreport
  have hfounded := (hclaim config 4096 50 _ _ s rfl hrun).1 report hmem
  rw [Report.Founded, hreport.1] at hfounded
  cases (hfounded.1.symm.trans hreport.2)

end RelayRing
end AdapterWs
