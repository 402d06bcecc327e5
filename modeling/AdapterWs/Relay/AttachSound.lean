import AdapterWs.Relay.AttachWindow
import AdapterWs.Relay.LossDetection

/-!
# What a booting worker reports as lost

The worker judges a first sighting by comparing the stream's birth with the instant it dated
its own attach at, while the primary hands it ring frames only from the moment it processed
`relay-attached`. In between the two a ring frame of a young stream is passed over that the
worker takes as owed. On the port a booting worker is handed frames throughout, so that a
stream can also be met there first, below frames the primary then passes over.
-/

namespace AdapterWs.Relay

open OriginStream List Option Sibling Function PortMessage

variable {Topic : Type} {frame : Frame Topic}

/-- The report names the stamp's frame. -/
def Gap.Names (g : Gap Topic) (s : Stamp Topic) : Prop :=
  (g.topic = s.topic ∧ g.origin = s.origin) ∧ g.first ≤ s.ord ∧ s.ord ≤ g.last

/-- The two stamps are of one stream. -/
def Stamp.SameStream (s s' : Stamp Topic) : Prop := s.topic = s'.topic ∧ s.origin = s'.origin

instance [DecidableEq Topic] (g : Gap Topic) (s : Stamp Topic) : Decidable (g.Names s) :=
  inferInstanceAs (Decidable ((_ ∧ _) ∧ _))

instance [DecidableEq Topic] (s s' : Stamp Topic) : Decidable (s.SameStream s') :=
  inferInstanceAs (Decidable (_ ∧ _))

namespace RelayAttach

variable {c : RelayAttach Topic}

/-- No report names a frame withheld from the worker: of what the primary has dealt with, every
reported ordinal is one it handed to the worker. -/
structure NothingWithheldReported (c : RelayAttach Topic) : Prop where
  /-- No report names a withheld frame. -/
  withheld : ∀ g ∈ c.reports, ∀ s ∈ c.withheld, ¬ g.Names s
  /-- A reported frame the primary has dealt with was handed to the worker. -/
  handed : ∀ g ∈ c.reports, ∀ s ∈ c.handed ++ c.passedOver, g.Names s → s ∈ c.handed

/-- Everything in the frame lies above what the worker was passed over for. -/
def AbovePassedOver (c : RelayAttach Topic) (frame : Frame Topic) : Prop :=
  ∀ s ∈ frame, ∀ p ∈ c.passedOver, p.SameStream s → p.ord < s.ord

/-- Everything in the frame lies below what the worker was handed, and on a stream that was
not born after the worker's attach. -/
def BelowHanded (c : RelayAttach Topic) (frame : Frame Topic) : Prop :=
  ∀ s ∈ frame, (s.birth : WithTop ℚ) ≤ c.worker.attachedAt ∧
    ∀ h ∈ c.handed, s.SameStream h → s.ord < h.ord

/-- What a forward moves, and whether the primary hands it to the worker. -/
def forwarding (c : RelayAttach Topic) : AttachEvent Topic → Option (Bool × Frame Topic)
  | .forwardRing i => (c.siblings i).up.head?.map fun frame => (c.relayRingEligible, frame)
  | .forwardPort i =>
    (c.siblings i).port.head?.map fun message => (c.relayEligible, message.frames.flatten)
  | _ => none

/-- The forward leaves no hole in a stream that is owed to the worker. -/
def Undivided (c : RelayAttach Topic) (e : AttachEvent Topic) : Prop :=
  ∀ f ∈ c.forwarding e, if f.1 = true then c.AbovePassedOver f.2 else c.BelowHanded f.2

instance [DecidableEq Topic] (c : RelayAttach Topic) (e : AttachEvent Topic) :
    Decidable (c.Undivided e) := by
  unfold Undivided AbovePassedOver BelowHanded
  infer_instance

end RelayAttach

/-! ## Where a numbered frame can be -/

/-- What a sibling has numbered and the primary has not dealt with. -/
def Sibling.queued (s : Sibling Topic) : List (Stamp Topic) :=
  s.batch ++ s.up.flatten ++ (s.port.flatMap PortMessage.frames).flatten

/-- What was handed to the worker and it has not folded. -/
def Receiver.held (w : Receiver Topic) : List (Stamp Topic) :=
  w.port.flatten ++ w.ring.flatten ++ w.bootBacklog.flatten ++ w.folding

@[simp] theorem flatten_frames_publishBatch (messages : List (Stamp Topic)) :
    (publishBatch messages).frames.flatten = messages := by
  induction messages with
  | nil => rfl
  | cons message messages ih =>
    simp only [frames, map_cons, flatten_cons] at ih ⊢
    rw [ih]
    rfl

@[simp] theorem flatten_frames_publishBatched (events : List (Stamp Topic)) :
    (publishBatched events).frames.flatten = events := by
  simp [frames]

namespace Sibling

variable {s s' : Sibling Topic} {x : Stamp Topic} {encoding : Encoding}

theorem mem_queued_send {fallback : PortMessage Topic} (hfallback : fallback.frames.flatten = frame)
    (encoding : Encoding) (hx : x ∈ (s.send frame fallback encoding).up.flatten ++
      ((s.send frame fallback encoding).port.flatMap frames).flatten) :
    x ∈ frame ++ s.up.flatten ++ (s.port.flatMap frames).flatten := by
  cases encoding with
  | encoded =>
    simp only [send, flatten_append, flatten_cons, flatten_nil, append_nil,
      mem_append] at hx ⊢
    tauto
  | threw =>
    simp only [send, flatMap_append, flatten_append, flatMap_cons,
      flatMap_nil, append_nil, hfallback, mem_append] at hx ⊢
    tauto
  | refused =>
    simp only [send, mem_append] at hx ⊢
    tauto

theorem mem_queued_sendNext (h : s.sendNext encoding = some s') (hx : x ∈ s'.queued) :
    x ∈ s.queued := by
  unfold sendNext at h
  split at h
  · next message rest _ hbatch =>
    cases h
    have hlane := mem_queued_send (s := s) (x := x) (flatten_frames_publishBatch [message])
      encoding
    simp only [queued, hbatch, mem_append, mem_cons, not_mem_nil] at hx hlane ⊢
    tauto
  · cases h

theorem mem_queued_sendBatch {admits : Stamp Topic → Bool} (h : s.sendBatch admits = some s')
    (hx : x ∈ s'.queued) : x ∈ s.queued := by
  obtain ⟨-, ⟨⟩⟩ := ite_none_right_eq_some.mp h
  simp only [queued, nil_append] at hx
  split at hx
  · simp only [queued, mem_append] at hx ⊢
    tauto
  · simp only [flatMap_append, flatten_append, flatMap_cons, flatMap_nil,
      append_nil, flatten_frames_publishBatch, mem_append, mem_filter] at hx
    simp only [queued, mem_append]
    tauto

theorem mem_queued_relayBatched (h : s.relayBatched encoding = some s') (hx : x ∈ s'.queued) :
    x ∈ s.queued := by
  obtain ⟨-, ⟨⟩⟩ := ite_none_right_eq_some.mp h
  have hlane := mem_queued_send (s := s) (x := x) (flatten_frames_publishBatched s.batch)
    (if s.ringWriter = false ∧ encoding = .encoded then .threw else encoding)
  simp only [queued, nil_append] at hx ⊢
  exact hlane hx

theorem relayStreams_send (frame : Frame Topic) (fallback : PortMessage Topic)
    (encoding : Encoding) : (s.send frame fallback encoding).relayStreams = s.relayStreams := by
  cases encoding <;> rfl

theorem relayStreams_sendNext (h : s.sendNext encoding = some s') :
    s'.relayStreams = s.relayStreams := by
  unfold sendNext at h
  split at h
  · cases h
    exact relayStreams_send _ _ _
  · cases h

theorem relayStreams_sendBatch {admits : Stamp Topic → Bool} (h : s.sendBatch admits = some s') :
    s'.relayStreams = s.relayStreams := by
  obtain ⟨-, ⟨⟩⟩ := ite_none_right_eq_some.mp h
  rfl

theorem relayStreams_relayBatched (h : s.relayBatched encoding = some s') :
    s'.relayStreams = s.relayStreams := by
  obtain ⟨-, ⟨⟩⟩ := ite_none_right_eq_some.mp h
  exact relayStreams_send _ _ _

end Sibling

/-! ## The worker's own steps -/

namespace Receiver

variable {w w' : Receiver Topic} {x : Stamp Topic}

/-- What delivering a frame leaves as it was. -/
structure Delivers (w w' : Receiver Topic) : Prop where
  /-- Nothing is folded and nothing new is held. -/
  held : ∀ x ∈ w'.held, x ∈ w.held
  attachedAt : w'.attachedAt = w.attachedAt
  originStreams : w'.originStreams = w.originStreams
  phase : w'.phase = w.phase

theorem delivers_deliverPort (h : w.deliverPort = some w') : Delivers w w' := by
  unfold deliverPort at h
  split at h
  · next frame rest _ hfolding hport =>
    cases h
    refine ⟨fun x hx => ?_, rfl, rfl, rfl⟩
    simp only [held, hport, hfolding, flatten_append, flatten_cons, flatten_nil,
      append_nil, mem_append] at hx ⊢
    tauto
  · next frame rest _ hfolding hport =>
    cases h
    refine ⟨fun x hx => ?_, rfl, rfl, rfl⟩
    simp only [held, hport, hfolding, flatten_cons, mem_append] at hx ⊢
    tauto
  · cases h

theorem delivers_deliverRing (h : w.deliverRing = some w') : Delivers w w' := by
  unfold deliverRing at h
  split at h
  · next frame rest _ hfolding hring =>
    cases h
    refine ⟨fun x hx => ?_, rfl, rfl, rfl⟩
    simp only [held, hring, hfolding, flatten_cons, mem_append] at hx ⊢
    tauto
  · cases h

theorem delivers_replay (h : w.replay = some w') : Delivers w w' := by
  unfold replay at h
  split at h
  · next frame rest _ hfolding hbacklog =>
    cases h
    refine ⟨fun x hx => ?_, rfl, rfl, rfl⟩
    simp only [held, hbacklog, hfolding, flatten_cons, mem_append] at hx ⊢
    tauto
  · cases h

end Receiver

/-! ## The invariant of a run -/

namespace RelayAttach

variable {c c' : RelayAttach Topic} {t : Topic} {o : ℕ}

/-- Every frame is where it can be: numbered, and handed to the worker before the worker has
it. -/
structure Queued (c : RelayAttach Topic) : Prop where
  /-- What a sibling has queued is numbered. -/
  siblings : ∀ i, ∀ s ∈ (c.siblings i).queued, s ∈ c.numbered
  worker : ∀ s ∈ c.worker.held, s ∈ c.handed
  handed : ∀ s ∈ c.handed, s ∈ c.numbered
  passedOver : ∀ s ∈ c.passedOver, s ∈ c.numbered
  withheld : ∀ s ∈ c.withheld, s ∈ c.passedOver

/-- A stream has one birth, which lies in the past. -/
structure Births [DecidableEq Topic] (c : RelayAttach Topic) : Prop where
  /-- The clock starts at 0. -/
  clock_nonneg : 0 ≤ c.clock
  /-- An open stream was born. -/
  past : ∀ i t r, (c.siblings i).relayStreams.get t = some r → r.birth ≤ c.clock
  /-- A stamp carries the birth of its stream. -/
  stamped : ∀ s ∈ c.numbered, ∃ r, (c.siblings s.origin).relayStreams.get s.topic = some r ∧
    r.birth = s.birth

/-- What was passed over lies below what was handed, on streams born by the attach. -/
structure PassedBelow (c : RelayAttach Topic) : Prop where
  /-- No frame was handed below one that was passed over. -/
  below : ∀ p ∈ c.passedOver, ∀ h ∈ c.handed, p.SameStream h → p.ord < h.ord
  /-- The streams of the frames passed over were born by the attach. -/
  born : ∀ p ∈ c.passedOver, (p.birth : WithTop ℚ) ≤ c.worker.attachedAt
  /-- The attach is dated last. -/
  unattached : c.worker.phase ≠ .live → c.worker.attachedAt = ⊤

/-- Why nothing at or below the floor of a stream is reported: the stream was first met right
there, or it was born after the attach and is owed from its head. -/
def Floor (c : RelayAttach Topic) (t : Topic) (o : ℕ) (floor : ℕ) : Prop :=
  (∃ h ∈ c.handed, (h.topic = t ∧ h.origin = o) ∧ h.ord = floor) ∨
    ∃ h ∈ c.handed, (h.topic = t ∧ h.origin = o) ∧ c.worker.attachedAt < (h.birth : WithTop ℚ)

/-- The trackers of one stream and the reports about it. -/
structure Tracked [DecidableEq Topic] (c : RelayAttach Topic) (t : Topic) (o : ℕ) : Prop where
  /-- A stream without a tracker was never reported about. -/
  unseen : streamOf c.worker.originStreams t o = none →
    ∀ g ∈ c.reports, ¬ (g.topic = t ∧ g.origin = o)
  /-- A tracker stands at or above the floor, and the reports lie above it. -/
  seen : ∀ st, streamOf c.worker.originStreams t o = some st →
    (∃ A, Tracks A st) ∧ ∃ floor ≤ st.w, c.Floor t o floor ∧
      ∀ g ∈ c.reports, (g.topic = t ∧ g.origin = o) → floor < g.first

/-- The invariant of a run. -/
structure Sound [DecidableEq Topic] (c : RelayAttach Topic) : Prop where
  queued : c.Queued
  births : c.Births
  passed : c.PassedBelow
  tracked : ∀ t o, c.Tracked t o

theorem Sound.reported [DecidableEq Topic] (h : c.Sound) :
    ∀ g ∈ c.reports, ∀ p ∈ c.passedOver, ¬ g.Names p := by
  rintro g hg p hp ⟨⟨ht, ho⟩, hfirst, -⟩
  have htracked := h.tracked p.topic p.origin
  cases hst : streamOf c.worker.originStreams p.topic p.origin with
  | none => exact htracked.unseen hst g hg ⟨ht, ho⟩
  | some st =>
    obtain ⟨-, floor, -, hfloor, hreports⟩ := htracked.seen st hst
    have habove := hreports g hg ⟨ht, ho⟩
    rcases hfloor with ⟨met, hmet, hsame, hord⟩ | ⟨met, hmet, hsame, hlate⟩
    · have hbelow := h.passed.below p hp met hmet ⟨hsame.1.symm, hsame.2.symm⟩
      omega
    · -- the stream has one birth, so the frame passed over is of a late stream too
      obtain ⟨r, hr, hbirth⟩ := h.births.stamped p (h.queued.passedOver p hp)
      obtain ⟨r', hr', hbirth'⟩ := h.births.stamped met (h.queued.handed met hmet)
      rw [hsame.1, hsame.2, hr] at hr'
      have hsameBirth : met.birth = p.birth := by
        rw [← hbirth', ← hbirth, some.inj hr']
      have hborn := h.passed.born p hp
      rw [hsameBirth] at hlate
      exact absurd hborn (not_le_of_gt hlate)

theorem Sound.nothingWithheldReported [DecidableEq Topic] (h : c.Sound) :
    c.NothingWithheldReported where
  withheld := fun g hg s hs => h.reported g hg s (h.queued.withheld s hs)
  handed := by
    intro g hg s hs hnames
    rcases mem_append.mp hs with hs | hs
    · exact hs
    · exact absurd hnames (h.reported g hg s hs)

/-- The trackers read what was handed, the attach and the reports. -/
theorem Tracked.of_grown [DecidableEq Topic] (h : c.Tracked t o)
    (hstreams : streamOf c'.worker.originStreams t o = streamOf c.worker.originStreams t o)
    (hreports : c'.reports = c.reports) (hhanded : ∀ s ∈ c.handed, s ∈ c'.handed)
    (hattached : c.worker.attachedAt = ⊤ ∨ c'.worker.attachedAt = c.worker.attachedAt) :
    c'.Tracked t o := by
  refine ⟨fun hnone => ?_, fun st hst => ?_⟩
  · rw [hreports]
    exact h.unseen (hstreams ▸ hnone)
  · obtain ⟨htracks, floor, hw, hfloor, habove⟩ := h.seen st (hstreams ▸ hst)
    refine ⟨htracks, floor, hw, ?_, hreports ▸ habove⟩
    rcases hfloor with ⟨met, hmet, hsame⟩ | ⟨met, hmet, hsame, hlate⟩
    · exact .inl ⟨met, hhanded met hmet, hsame⟩
    · rcases hattached with htop | heq
      · rw [htop] at hlate
        exact absurd hlate (not_top_lt)
      · exact .inr ⟨met, hhanded met hmet, hsame, heq ▸ hlate⟩

/-! ## One step -/

section Steps

variable [DecidableEq Topic] {rings : Bool} {now : ℚ} {w : Receiver Topic}

theorem sound_start : (start : RelayAttach Topic).Sound where
  queued := by
    refine ⟨fun i s hs => ?_, fun s hs => ?_, fun s hs => ?_, fun s hs => ?_, fun s hs => ?_⟩
    · simp [start, queued] at hs
    · simp [start, Receiver.held] at hs
    · cases hs
    · cases hs
    · cases hs
  births := by
    refine ⟨le_rfl, fun i t r hr => ?_, fun s hs => ?_⟩
    · cases hr
    · cases hs
  passed := by
    refine ⟨fun p hp => ?_, fun p hp => ?_, fun _ => rfl⟩
    · cases hp
    · cases hp
  tracked := by
    refine fun t o => ⟨fun _ g hg => ?_, fun st hst => ?_⟩
    · cases hg
    · cases hst

section

variable (h : c.Sound)
include h

theorem Sound.setSibling {i : ℕ} {s : Sibling Topic}
    (hstreams : s.relayStreams = (c.siblings i).relayStreams)
    (hqueued : ∀ x ∈ s.queued, x ∈ (c.siblings i).queued) : (c.setSibling i s).Sound := by
  have hsame : ∀ j, ((c.setSibling i s).siblings j).relayStreams = (c.siblings j).relayStreams := by
    intro j
    by_cases hj : j = i
    · subst hj
      simpa only [RelayAttach.setSibling, update_self] using hstreams
    · simp [RelayAttach.setSibling, update_of_ne hj]
  refine ⟨⟨fun j x hx => ?_, h.queued.worker, h.queued.handed, h.queued.passedOver,
    h.queued.withheld⟩, ⟨h.births.clock_nonneg, fun j t r hr => ?_, fun x hx => ?_⟩,
    ⟨h.passed.below, h.passed.born, h.passed.unattached⟩,
    fun t o => (h.tracked t o).of_grown rfl rfl (fun _ hs => hs) (.inr rfl)⟩
  · by_cases hj : j = i
    · subst hj
      simp only [RelayAttach.setSibling, update_self] at hx
      exact h.queued.siblings j x (hqueued x hx)
    · simp only [RelayAttach.setSibling, update_of_ne hj] at hx
      exact h.queued.siblings j x hx
  · rw [hsame j] at hr
    exact h.births.past j t r hr
  · rw [hsame]
    exact h.births.stamped x hx

theorem Sound.number (i : ℕ) (topic : Topic) (hclock : c.clock < now) :
    Sound { c.setSibling i ((c.siblings i).number i topic now) with
      clock := now
      numbered := c.numbered ++ [(c.siblings i).stamp i topic now] } := by
  have hborn : ((c.siblings i).nextRelayOrdinal topic now).birth ≤ now := by
    unfold nextRelayOrdinal
    cases hr : (c.siblings i).relayStreams.get topic with
    | none => exact le_rfl
    | some r => exact (h.births.past i topic r hr).trans hclock.le
  have hkept : ∀ r, (c.siblings i).relayStreams.get topic = some r →
      ((c.siblings i).nextRelayOrdinal topic now).birth = r.birth := by
    intro r hr
    simp [nextRelayOrdinal, hr]
  refine ⟨⟨fun j x hx => ?_, h.queued.worker, fun x hx => ?_, fun x hx => ?_,
    h.queued.withheld⟩, ⟨h.births.clock_nonneg.trans hclock.le, fun j t r hr => ?_,
    fun x hx => ?_⟩, ⟨h.passed.below, h.passed.born, h.passed.unattached⟩,
    fun t o => (h.tracked t o).of_grown rfl rfl (fun _ hs => hs) (.inr rfl)⟩
  · rw [mem_append]
    by_cases hj : j = i
    · subst hj
      simp only [RelayAttach.setSibling, update_self, Sibling.number, Sibling.queued,
        mem_append] at hx
      have hold := h.queued.siblings j x
      simp only [Sibling.queued, mem_append] at hold
      tauto
    · simp only [RelayAttach.setSibling, update_of_ne hj] at hx
      exact .inl (h.queued.siblings j x hx)
  · exact mem_append_left _ (h.queued.handed x hx)
  · exact mem_append_left _ (h.queued.passedOver x hx)
  · by_cases hj : j = i
    · subst hj
      simp only [RelayAttach.setSibling, update_self, Sibling.number,
        JsMap.get_set] at hr
      split at hr
      · rw [← some.inj hr]
        exact hborn
      · exact (h.births.past j t r hr).trans hclock.le
    · simp only [RelayAttach.setSibling, update_of_ne hj] at hr
      exact (h.births.past j t r hr).trans hclock.le
  · rcases mem_concat.mp hx with hx | rfl
    · obtain ⟨r, hr, hbirth⟩ := h.births.stamped x hx
      by_cases hj : x.origin = i
      · rw [hj] at hr
        simp only [RelayAttach.setSibling, hj, update_self, Sibling.number,
          JsMap.get_set]
        by_cases htopic : topic = x.topic
        · subst htopic
          exact ⟨_, if_pos rfl, (hkept r hr).trans hbirth⟩
        · exact ⟨r, (if_neg htopic).trans hr, hbirth⟩
      · simp only [RelayAttach.setSibling, update_of_ne hj]
        exact ⟨r, hr, hbirth⟩
    · simp only [RelayAttach.setSibling, Sibling.stamp, update_self, Sibling.number]
      exact ⟨_, JsMap.get_set_self _ _ _, rfl⟩

/-- The worker takes a step that folds nothing, before or after its attach, and the primary's
flags about it change. -/
theorem Sound.worker (hheld : ∀ x ∈ w.held, x ∈ c.worker.held)
    (hstreams : w.originStreams = c.worker.originStreams)
    (hattached : w.attachedAt = c.worker.attachedAt)
    (hphase : w.phase ≠ .live → c.worker.attachedAt = ⊤) (spawned notice relayAttached : Bool) :
    Sound { c with worker := w, spawned, notice, relayAttached } := by
  refine ⟨⟨h.queued.siblings, fun x hx => h.queued.worker x (hheld x hx), h.queued.handed,
    h.queued.passedOver, h.queued.withheld⟩, ⟨h.births.clock_nonneg, h.births.past,
    h.births.stamped⟩, ⟨h.passed.below, fun p hp => ?_, fun hnot => ?_⟩,
    fun t o => (h.tracked t o).of_grown (by rw [hstreams]) rfl (fun _ hs => hs) (.inr hattached)⟩
  · rw [hattached]
    exact h.passed.born p hp
  · rw [hattached]
    exact hphase hnot

theorem Sound.delivers (hw : c.worker.Delivers w) : Sound { c with worker := w } :=
  h.worker hw.held hw.originStreams hw.attachedAt
    (fun hnot => h.passed.unattached (hw.phase ▸ hnot)) c.spawned c.notice c.relayAttached

/-- The worker dates its attach: every stream numbered so far was born before. -/
theorem Sound.markRelayAttached (hclock : c.clock < now) (hphase : c.worker.phase ≠ .live) :
    Sound { c with
      clock := now
      worker := { c.worker with phase := .live, attachedAt := (now : WithTop ℚ) } } := by
  refine ⟨⟨h.queued.siblings, h.queued.worker, h.queued.handed, h.queued.passedOver,
    h.queued.withheld⟩, ⟨h.births.clock_nonneg.trans hclock.le,
    fun i t r hr => (h.births.past i t r hr).trans hclock.le, h.births.stamped⟩,
    ⟨h.passed.below, fun p hp => ?_, fun hnot => absurd rfl hnot⟩,
    fun t o => (h.tracked t o).of_grown rfl rfl (fun _ hs => hs)
      (.inl (h.passed.unattached hphase))⟩
  obtain ⟨r, hr, hbirth⟩ := h.births.stamped p (h.queued.passedOver p hp)
  have hpast := h.births.past _ _ r hr
  rw [hbirth] at hpast
  exact WithTop.coe_le_coe.mpr (hpast.trans hclock.le)

theorem Sound.hand (hnumbered : ∀ s ∈ frame, s ∈ c.numbered)
    (hheld : ∀ x ∈ w.held, x ∈ c.worker.held ∨ x ∈ frame)
    (hstreams : w.originStreams = c.worker.originStreams)
    (hattached : w.attachedAt = c.worker.attachedAt) (hphase : w.phase = c.worker.phase)
    (hclear : c.AbovePassedOver frame) :
    Sound { c with worker := w, handed := c.handed ++ frame } := by
  refine ⟨⟨h.queued.siblings, fun x hx => ?_, fun x hx => ?_, h.queued.passedOver,
    h.queued.withheld⟩, ⟨h.births.clock_nonneg, h.births.past, h.births.stamped⟩,
    ⟨fun p hp x hx hsame => ?_, fun p hp => ?_, fun hnot => ?_⟩,
    fun t o => (h.tracked t o).of_grown (by rw [hstreams]) rfl
      (fun _ hs => mem_append_left _ hs) (.inr hattached)⟩
  · rcases hheld x hx with hx | hx
    · exact mem_append_left _ (h.queued.worker x hx)
    · exact mem_append_right _ hx
  · rcases mem_append.mp hx with hx | hx
    · exact h.queued.handed x hx
    · exact hnumbered x hx
  · rcases mem_append.mp hx with hx | hx
    · exact h.passed.below p hp x hx hsame
    · exact hclear x hx p hp hsame
  · rw [hattached]
    exact h.passed.born p hp
  · rw [hattached]
    exact h.passed.unattached (hphase ▸ hnot)

theorem Sound.passOver {withheld : List (Stamp Topic)} (hnumbered : ∀ s ∈ frame, s ∈ c.numbered)
    (hwithheld : ∀ s ∈ withheld, s ∈ c.withheld ∨ s ∈ frame) (hclear : c.BelowHanded frame) :
    Sound { c with passedOver := c.passedOver ++ frame, withheld := withheld } := by
  refine ⟨⟨h.queued.siblings, h.queued.worker, h.queued.handed, fun x hx => ?_, fun x hx => ?_⟩,
    ⟨h.births.clock_nonneg, h.births.past, h.births.stamped⟩,
    ⟨fun p hp x hx hsame => ?_, fun p hp => ?_, h.passed.unattached⟩,
    fun t o => (h.tracked t o).of_grown rfl rfl (fun _ hs => hs) (.inr rfl)⟩
  · rcases mem_append.mp hx with hx | hx
    · exact h.queued.passedOver x hx
    · exact hnumbered x hx
  · rcases hwithheld x hx with hx | hx
    · exact mem_append_left _ (h.queued.withheld x hx)
    · exact mem_append_right _ hx
  · rcases mem_append.mp hp with hp | hp
    · exact h.passed.below p hp x hx hsame
    · exact (hclear p hp).2 x hx hsame
  · rcases mem_append.mp hp with hp | hp
    · exact h.passed.born p hp
    · exact (hclear p hp).1

theorem Sound.fold (hclock : c.clock < now) (hw : c.worker.fold now = some w) :
    Sound { c with clock := now, worker := w } := by
  unfold Receiver.fold at hw
  split at hw
  · cases hw
  · next s rest hfolding =>
    cases hw
    have hpos : now ≠ 0 := (h.births.clock_nonneg.trans_lt hclock).ne'
    have hs : s ∈ c.handed := by
      apply h.queued.worker
      simp [Receiver.held, hfolding]
    refine ⟨⟨h.queued.siblings, fun x hx => ?_, h.queued.handed, h.queued.passedOver,
      h.queued.withheld⟩, ⟨h.births.clock_nonneg.trans hclock.le,
      fun i t r hr => (h.births.past i t r hr).trans hclock.le, h.births.stamped⟩,
      ⟨h.passed.below, h.passed.born, h.passed.unattached⟩, fun t o => ?_⟩
    · apply h.queued.worker
      simp only [Receiver.held, hfolding, mem_append, mem_cons] at hx ⊢
      tauto
    · have hstream := streamOf_recordOriginStream c.worker.originStreams t s.topic o s.origin
        s.ord s.birth c.worker.attachedAt now
      by_cases hsame : s.topic = t ∧ s.origin = o
      · rw [if_pos hsame] at hstream
        refine ⟨fun hnone => ?_, fun st' hst' => ?_⟩
        · rw [hstream] at hnone
          cases hnone
        · rw [hstream] at hst'
          have hst'' := (some.inj hst').symm
          subst hst''
          cases hst : streamOf c.worker.originStreams t o with
          | none =>
            have hquiet := (h.tracked t o).unseen hst
            refine ⟨⟨_, tracks_first s.ord hpos s.birth c.worker.attachedAt⟩, ?_⟩
            simp only [first]
            by_cases hlate : 1 < s.ord ∧ c.worker.attachedAt < (s.birth : WithTop ℚ)
            · rw [if_pos hlate]
              exact ⟨0, le_rfl, .inr ⟨s, hs, hsame, hlate.2⟩,
                fun g hg hgs => absurd hgs (hquiet g hg)⟩
            · rw [if_neg hlate]
              exact ⟨s.ord, le_rfl, .inl ⟨s, hs, hsame, rfl⟩,
                fun g hg hgs => absurd hgs (hquiet g hg)⟩
          | some st =>
            obtain ⟨⟨A, htracks⟩, floor, hle, hfloor, habove⟩ := (h.tracked t o).seen st hst
            obtain ⟨htracks', hrises, -⟩ := record_spec s.ord htracks hpos
            exact ⟨⟨_, htracks'⟩, floor, hle.trans hrises, hfloor, habove⟩
      · rw [if_neg hsame] at hstream
        exact (h.tracked t o).of_grown hstream rfl (fun _ hs => hs) (.inr rfl)

theorem Sound.drain (hclock : c.clock < now) :
    Sound { c with
      clock := now
      worker := { c.worker with
        originStreams := (takeConfirmedGaps c.worker.originStreams now gapConfirmMs).2 }
      reports := c.reports ++ (takeConfirmedGaps c.worker.originStreams now gapConfirmMs).1 } := by
  have hpos : now ≠ 0 := (h.births.clock_nonneg.trans_lt hclock).ne'
  refine ⟨⟨h.queued.siblings, h.queued.worker, h.queued.handed, h.queued.passedOver,
    h.queued.withheld⟩, ⟨h.births.clock_nonneg.trans hclock.le,
    fun i t r hr => (h.births.past i t r hr).trans hclock.le, h.births.stamped⟩,
    ⟨h.passed.below, h.passed.born, h.passed.unattached⟩, fun t o => ?_⟩
  have hstream := streamOf_takeConfirmedGaps c.worker.originStreams t o now gapConfirmMs
  have hgaps := gapsOf_takeConfirmedGaps c.worker.originStreams t o now gapConfirmMs
  have hmem : ∀ g ∈ (takeConfirmedGaps c.worker.originStreams now gapConfirmMs).1,
      (g.topic = t ∧ g.origin = o) → g.toLostRange ∈
        gapsOf (takeConfirmedGaps c.worker.originStreams now gapConfirmMs).1 t o := by
    intro g hg hgs
    exact mem_map_of_mem (mem_filter.mpr ⟨hg, by simpa using hgs⟩)
  refine ⟨fun hnone g hg hgs => ?_, fun st' hst' => ?_⟩
  · rw [hstream] at hnone
    have hst := map_eq_none_iff.mp hnone
    rcases mem_append.mp hg with hg | hg
    · exact (h.tracked t o).unseen hst g hg hgs
    · have hnew := hmem g hg hgs
      rw [hgaps, hst] at hnew
      cases hnew
  · rw [hstream] at hst'
    obtain ⟨st, hst, hout⟩ := map_eq_some_iff.mp hst'
    obtain ⟨⟨A, htracks⟩, floor, hle, hfloor, habove⟩ := (h.tracked t o).seen st hst
    rw [hst, bind_some] at hgaps
    rcases takeConfirmed_spec htracks hpos gapConfirmMs with ⟨hkept, -⟩ | ⟨-, -, htaken⟩
    · rw [hkept] at hout hgaps
      refine ⟨⟨A, hout ▸ htracks⟩, floor, hout ▸ hle, hfloor, fun g hg hgs => ?_⟩
      rcases mem_append.mp hg with hg | hg
      · exact habove g hg hgs
      · have hnew := hmem g hg hgs
        rw [hgaps] at hnew
        cases hnew
    · refine ⟨⟨A, hout ▸ htaken.tracks⟩, floor, hout ▸ hle.trans htaken.w_le, hfloor,
        fun g hg hgs => ?_⟩
      rcases mem_append.mp hg with hg | hg
      · exact habove g hg hgs
      · have hnew := hmem g hg hgs
        rw [hgaps, mem_toList] at hnew
        have hfirst := (htaken.sound _ hnew).1
        omega

theorem Sound.forwardFrame (hnumbered : ∀ s ∈ frame, s ∈ c.numbered)
    (hclear : if c.relayRingEligible = true then c.AbovePassedOver frame
      else c.BelowHanded frame) : (c.forwardFrame frame).Sound := by
  unfold RelayAttach.forwardFrame
  split at hclear
  · next heligible =>
    rw [if_pos heligible]
    refine h.hand hnumbered (fun x hx => ?_) rfl rfl rfl hclear
    simp only [Receiver.held, flatten_append, flatten_cons, flatten_nil,
      append_nil, mem_append] at hx ⊢
    tauto
  · next heligible =>
    rw [if_neg heligible]
    refine h.passOver hnumbered (fun x hx => ?_) hclear
    split at hx
    · exact mem_append.mp hx
    · exact .inl hx

theorem Sound.forwardMessage {message : PortMessage Topic}
    (hnumbered : ∀ s ∈ message.frames.flatten, s ∈ c.numbered)
    (hclear : if c.relayEligible = true then c.AbovePassedOver message.frames.flatten
      else c.BelowHanded message.frames.flatten) : (c.forwardMessage message).Sound := by
  unfold RelayAttach.forwardMessage
  split at hclear
  · next heligible =>
    rw [if_pos heligible]
    refine h.hand hnumbered (fun x hx => ?_) rfl rfl rfl hclear
    simp only [Receiver.held, flatten_append, mem_append] at hx ⊢
    tauto
  · next heligible =>
    rw [if_neg heligible]
    exact h.passOver hnumbered (fun _ hx => .inl hx) hclear

theorem Sound.step {e : AttachEvent Topic} (hok : c.Undivided e) (hstep : c.step rings e = some c') :
    c'.Sound := by
  cases e with
  | setRelayRingWriter i =>
    simp only [RelayAttach.step] at hstep
    split at hstep
    · exact some.inj hstep ▸ h.setSibling rfl fun _ hx => hx
    · cases hstep
  | number i topic now =>
    simp only [RelayAttach.step] at hstep
    split at hstep
    · next hnow => exact some.inj hstep ▸ h.number i topic hnow.2
    · cases hstep
  | sendNext i encoding =>
    obtain ⟨s, hs, rfl⟩ := map_eq_some_iff.mp hstep
    exact h.setSibling (relayStreams_sendNext hs)
      fun _ hx => mem_queued_sendNext hs hx
  | sendBatch i admits =>
    obtain ⟨s, hs, rfl⟩ := map_eq_some_iff.mp hstep
    exact h.setSibling (relayStreams_sendBatch hs)
      fun _ hx => mem_queued_sendBatch hs hx
  | relayBatched i encoding =>
    obtain ⟨s, hs, rfl⟩ := map_eq_some_iff.mp hstep
    exact h.setSibling (relayStreams_relayBatched hs)
      fun _ hx => mem_queued_relayBatched hs hx
  | spawn =>
    simp only [RelayAttach.step] at hstep
    split at hstep
    · have hc' := some.inj hstep
      subst hc'
      exact h.worker (fun _ hx => hx) rfl rfl h.passed.unattached true c.notice c.relayAttached
    · cases hstep
  | forwardRing i =>
    simp only [RelayAttach.step] at hstep
    split at hstep
    · cases hstep
    · next frame rest hup =>
      have hc' := some.inj hstep
      subst hc'
      have hnumbered : ∀ s ∈ frame, s ∈ c.numbered := by
        intro s hs
        apply h.queued.siblings i
        simp only [Sibling.queued, hup, flatten_cons, mem_append]
        tauto
      have hsent : (c.setSibling i { c.siblings i with up := rest }).Sound := by
        refine h.setSibling rfl fun x hx => ?_
        simp only [Sibling.queued, hup, flatten_cons, mem_append] at hx ⊢
        tauto
      exact hsent.forwardFrame hnumbered (hok (c.relayRingEligible, frame) (by
        simp [forwarding, hup]))
  | forwardPort i =>
    simp only [RelayAttach.step] at hstep
    split at hstep
    · cases hstep
    · next message rest hport =>
      have hc' := some.inj hstep
      subst hc'
      have hnumbered : ∀ s ∈ message.frames.flatten, s ∈ c.numbered := by
        intro s hs
        apply h.queued.siblings i
        simp only [Sibling.queued, hport, flatMap_cons, flatten_append,
          mem_append]
        tauto
      have hsent : (c.setSibling i { c.siblings i with port := rest }).Sound := by
        refine h.setSibling rfl fun x hx => ?_
        simp only [Sibling.queued, hport, flatMap_cons, flatten_append,
          mem_append] at hx ⊢
        tauto
      exact hsent.forwardMessage hnumbered
        (hok (c.relayEligible, message.frames.flatten) (by simp [forwarding, hport]))
  | hearAttached =>
    simp only [RelayAttach.step] at hstep
    split at hstep
    · have hc' := some.inj hstep
      subst hc'
      exact h.worker (fun _ hx => hx) rfl rfl h.passed.unattached c.spawned false true
    · cases hstep
  | deliverPort =>
    obtain ⟨w, hw, rfl⟩ := map_eq_some_iff.mp hstep
    exact h.delivers (Receiver.delivers_deliverPort hw)
  | deliverRing =>
    obtain ⟨w, hw, rfl⟩ := map_eq_some_iff.mp hstep
    exact h.delivers (Receiver.delivers_deliverRing hw)
  | boot =>
    simp only [RelayAttach.step] at hstep
    split at hstep
    · next hboot =>
      have hc' := some.inj hstep
      subst hc'
      refine h.worker (w := { c.worker with phase := .replaying }) (fun _ hx => hx) rfl rfl
        (fun _ => ?_) c.spawned c.notice c.relayAttached
      exact h.passed.unattached (by simp [hboot.2])
    · cases hstep
  | replay =>
    obtain ⟨w, hw, rfl⟩ := map_eq_some_iff.mp hstep
    exact h.delivers (Receiver.delivers_replay hw)
  | startReader =>
    simp only [RelayAttach.step] at hstep
    split at hstep
    · next hreplayed =>
      have hc' := some.inj hstep
      subst hc'
      refine h.worker (w := { c.worker with phase := .posted }) (fun _ hx => hx) rfl rfl
        (fun _ => ?_) c.spawned true c.relayAttached
      exact h.passed.unattached (by simp [hreplayed.2.1])
    · cases hstep
  | markRelayAttached now =>
    simp only [RelayAttach.step] at hstep
    split at hstep
    · next hready =>
      have hc' := some.inj hstep
      subst hc'
      refine h.markRelayAttached hready.2 ?_
      rcases hready.1 with hposted | hreplayed
      · simp [hposted]
      · simp [hreplayed.2.1]
    · cases hstep
  | fold now =>
    simp only [RelayAttach.step] at hstep
    split at hstep
    · next hnow =>
      obtain ⟨w, hw, rfl⟩ := map_eq_some_iff.mp hstep
      exact h.fold hnow hw
    · cases hstep
  | drain now =>
    simp only [RelayAttach.step] at hstep
    split at hstep
    · next hnow =>
      have hc' := some.inj hstep
      subst hc'
      exact h.drain hnow.2.2
    · cases hstep

end

end Steps

end RelayAttach

open RelayAttach

/-- Where no forward divides a stream that is owed to the booting worker, no report of that
worker names a frame the primary passed over. -/
theorem nothing_withheld_reported [DecidableEq Topic] {rings : Bool} {c : RelayAttach Topic}
    {es : List (AttachEvent Topic)}
    (hrun : (relayAttach Topic rings).ReachesWhere Undivided es c) :
    c.NothingWithheldReported := by
  have hsound : c.Sound :=
    hrun.invariant sound_start fun _ _ _ h hok hstep => h.step hok hstep
  exact hsound.nothingWithheldReported

/-- The worker boots with nothing in its backlog and dates its attach at 20. -/
def attached : List (AttachEvent ℕ) :=
  [.setRelayRingWriter 7, .spawn, .boot, .startReader, .markRelayAttached 20]

/-- One publish of thread 7 on topic 0, forwarded by the ring. -/
def publishByRing (now : ℚ) : List (AttachEvent ℕ) :=
  [.number 7 0 now, .sendNext 7 .encoded, .forwardRing 7]

/-- A stream that opens after the worker's attach and before the primary heard of it. -/
def youngStreamRun : List (AttachEvent ℕ) :=
  attached ++ publishByRing 30 ++ [.hearAttached] ++ publishByRing 40 ++
    [.deliverRing, .fold 50, .drain 1050]

/-- The same stream opened before the attach. -/
def joinedStreamRun : List (AttachEvent ℕ) :=
  [.setRelayRingWriter 7, .spawn] ++ publishByRing 10 ++
    [.boot, .startReader, .markRelayAttached 20, .hearAttached] ++ publishByRing 30 ++
    [.deliverRing, .fold 40, .drain 1050]

/-- A joined stream is not reported about, although its head was withheld. -/
theorem nothing_withheld_reported_joinedStreamRun :
    ∃ c, (relayAttach ℕ true).ReachesWhere Undivided joinedStreamRun c ∧
      (c.withheld.map (·.ord) = [1] ∧ c.handed.map (·.ord) = [2]) ∧
      c.NothingWithheldReported := by
  obtain ⟨c, hc, hp⟩ : ∃ c, (relayAttach ℕ true).ReachesWhere Undivided joinedStreamRun c ∧
      c.withheld.map (·.ord) = [1] ∧ c.handed.map (·.ord) = [2] :=
    Machine.exists_of_execWhere (by decide +kernel)
  exact ⟨c, hc, hp, nothing_withheld_reported hc⟩

/-- The head of a young stream is withheld and then reported as lost. -/
theorem not_nothing_withheld_reported_youngStream :
    ¬ ∀ (rings : Bool) (es : List (AttachEvent ℕ)) (c : RelayAttach ℕ),
      (relayAttach ℕ rings).Reaches es c → c.NothingWithheldReported := by
  intro hall
  obtain ⟨c, hc, hp⟩ : ∃ c, (relayAttach ℕ true).Reaches youngStreamRun c ∧ (c.reports.any fun g =>
      c.withheld.any fun s => decide (g.Names s)) = true :=
    Machine.exists_of_exec (by decide +kernel)
  obtain ⟨g, hg, hs⟩ := any_eq_true.mp hp
  obtain ⟨s, hs, hnames⟩ := any_eq_true.mp hs
  exact (hall true _ c hc).withheld g hg s hs (of_decide_eq_true hnames)

end AdapterWs.Relay
