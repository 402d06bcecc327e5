import Mathlib.Data.List.Perm.Basic
import AdapterWs.Subscribe.Lanes

/-!
# What a lane can do when it resumes

A lane that resumes reads the gate, the slots and its capture, and then takes one exit. Each
relation here lists the exits of one lane with what the state allows them: which exits need the
topic held, which need room in the registry, and which leave the capture open.
-/

namespace AdapterWs.Subscribe

open Connection

variable {c : Connection} {setup : Setup} {gate : Gate} {a : Attempt} {b : BatchAttempt}
  {recovers : Bool} {before : String → ℕ} {capture : CaptureEntry} {handle : List CaptureEntry}
  {topic : String}

/-- The registry has room for one more topic. -/
def HasRoom (c : Connection) : Prop :=
  c.ud.subscriptions.size < MAX_SUBSCRIPTIONS_PER_CONNECTION

instance (c : Connection) : Decidable (HasRoom c) :=
  inferInstanceAs (Decidable (_ < _))

/-- A landing that recovers its topic on the held exit. -/
def landRecovered (setup : Setup) (c : Connection) (a : Attempt) (capture : CaptureEntry)
    (covered : Option ℤ) : Connection :=
  if (c.landHeld setup a).1 then (c.landHeld setup a).2.recover capture covered
  else (c.landHeld setup a).2

/-- The exits of the wire lane after its hook. -/
inductive WireHookExit (setup : Setup) (c : Connection) (a : Attempt) (recovers : Bool)
    (before : String → ℕ) : Connection × Activation → Prop
  | denied (reason : String) :
      WireHookExit setup c a recovers before (c.deny setup a reason, .returned [])
  | held : c.holds a.topic = true →
      WireHookExit setup c a recovers before ((c.landHeld setup a).2, .returned [])
  | refused (reason : String) : c.holds a.topic = false →
      WireHookExit setup c a recovers before (c.refuse a reason, .returned [])
  | fresh : c.holds a.topic = false → HasRoom c →
      WireHookExit setup c a recovers before ((c.landFresh a none none []).2, .returned [])
  | awaitsResume : recovers = true →
      WireHookExit setup c a recovers before
        ({ c with cut := (openCapture before c.cut a.topic).2 },
          .wireResume a (openCapture before c.cut a.topic).1)

/-- The exits of the wire lane after its resume hook. The fresh one does not ask for room. -/
inductive WireResumeExit (setup : Setup) (c : Connection) (gate : Gate) (a : Attempt)
    (capture : CaptureEntry) (covered : Option ℤ) (answers : List SendResult) : Connection → Prop
  | denied (reason : String) :
      WireResumeExit setup c gate a capture covered answers
        ((c.discard [capture]).deny setup a reason)
  | held : c.holds a.topic = true →
      WireResumeExit setup c gate a capture covered answers
        ((landRecovered setup c a capture covered).discard [capture])
  | refused (reason : String) : c.holds a.topic = false →
      WireResumeExit setup c gate a capture covered answers ((c.refuse a reason).discard [capture])
  | revoked : c.holds a.topic = false →
      (c.landFresh a (some capture) covered answers).1 = .refused →
      WireResumeExit setup c gate a capture covered answers
        ((c.landFresh a (some capture) covered answers).2.discard [capture])
  | fresh : c.holds a.topic = false →
      deniesWireSubscribeLanding gate (setup.pluginOwned a.topic) (c.holds a.topic) = false →
      (c.landFresh a (some capture) covered answers).1 ≠ .refused →
      WireResumeExit setup c gate a capture covered answers
        (c.landFresh a (some capture) covered answers).2

/-- The exits of the platform lane. -/
inductive PlatformExit (setup : Setup) (c : Connection) (a : Attempt) : Connection → Prop
  | denied (reason : String) : PlatformExit setup c a (c.deny setup a reason)
  | held : c.holds a.topic = true → PlatformExit setup c a (c.landHeld setup a).2
  | refused (reason : String) : c.holds a.topic = false →
      PlatformExit setup c a (c.refuse a reason)
  | fresh : c.holds a.topic = false → HasRoom c →
      PlatformExit setup c a (c.landFresh a none none []).2

/-- The exits of one topic of a batch: whether the loop stops, the handle and the connection. -/
inductive BatchExit (setup : Setup) (c : Connection) (a : Attempt) (handle : List CaptureEntry)
    (covered : String → Option ℤ) (answers : String → List SendResult) :
    Bool × List CaptureEntry × Connection → Prop
  | denied (reason : String) :
      BatchExit setup c a handle covered answers (false, handle, c.deny setup a reason)
  | held : c.holds a.topic = true →
      handle.find? (fun entry => entry.topic == a.topic) = none →
      BatchExit setup c a handle covered answers (false, handle, (c.landHeld setup a).2)
  | recovered (entry : CaptureEntry) : c.holds a.topic = true →
      handle.find? (fun entry => entry.topic == a.topic) = some entry →
      BatchExit setup c a handle covered answers
        (false, handle, landRecovered setup c a entry (covered a.topic))
  | refused (reason : String) : c.holds a.topic = false →
      BatchExit setup c a handle covered answers (false, handle, c.refuse a reason)
  | revoked (entry : Option CaptureEntry) : c.holds a.topic = false →
      handle.find? (fun entry => entry.topic == a.topic) = entry →
      (c.landFresh a entry (covered a.topic) (answers a.topic)).1 = .refused →
      BatchExit setup c a handle covered answers
        (false, handle, (c.landFresh a entry (covered a.topic) (answers a.topic)).2)
  | fresh (entry : Option CaptureEntry) : c.holds a.topic = false → HasRoom c →
      handle.find? (fun entry => entry.topic == a.topic) = entry →
      (c.landFresh a entry (covered a.topic) (answers a.topic)).1 ≠ .refused →
      BatchExit setup c a handle covered answers
        (decide ((c.landFresh a entry (covered a.topic) (answers a.topic)).1 = .stopped),
          handle.filter fun entry => entry.topic != a.topic,
          (c.landFresh a entry (covered a.topic) (answers a.topic)).2)

/-! ## The lanes take one of their exits -/

/-- A topic that the cap does not refuse is held or has room. -/
theorem hasRoom_of_not_exceeds (hheld : c.holds topic = false)
    (hcap : ¬ exceedsSubscriptionCap (c.holds topic) c.ud.subscriptions.size
      MAX_SUBSCRIPTIONS_PER_CONNECTION = true) : HasRoom c := by
  rw [hheld] at hcap
  exact Nat.lt_of_not_le (by simpa [exceedsSubscriptionCap] using hcap)

theorem holds_of_exceeds {size max : ℕ}
    (hcap : exceedsSubscriptionCap (c.holds topic) size max = true) : c.holds topic = false := by
  cases hheld : c.holds topic with
  | false => rfl
  | true => simp [hheld, exceedsSubscriptionCap] at hcap

theorem wireHookReturns_exit (denial : Option String) :
    WireHookExit setup c a recovers before
      (c.wireHookReturns setup a recovers denial gate before) := by
  cases denial with
  | some reason => exact .denied reason
  | none =>
    rw [Connection.wireHookReturns]
    split
    · exact .denied "FORBIDDEN"
    · split
      · next hheld =>
        rw [Bool.and_eq_true] at hheld
        exact .held hheld.1
      · next hheld =>
        split
        · next hcap => exact .refused "RATE_LIMITED" (holds_of_exceeds hcap)
        · next hcap =>
          split
          · next hrecovers =>
            split
            · exact .denied "FORBIDDEN"
            · exact .awaitsResume hrecovers
          · next hplain =>
            have hfree : c.holds a.topic = false := by simpa [hplain] using hheld
            rw [Connection.wireLand]
            split
            · exact .refused "FORBIDDEN" hfree
            · dsimp only
              split
              · exact .fresh hfree (hasRoom_of_not_exceeds hfree hcap)
              · exact .fresh hfree (hasRoom_of_not_exceeds hfree hcap)

theorem wireResumeReturns_exit (covered : Option ℤ) (answers : List SendResult) :
    WireResumeExit setup c gate a capture covered answers
      (c.wireResumeReturns setup a capture covered gate answers) := by
  rw [Connection.wireResumeReturns]
  split
  · exact .denied "FORBIDDEN"
  · split
    · next hheld => exact .held hheld
    · next hheld =>
      have hfree : c.holds a.topic = false := by simpa using hheld
      rw [Connection.wireLand]
      split
      · exact .refused "FORBIDDEN" hfree
      · next hpasses =>
        dsimp only
        split
        · next hrefused => exact .revoked hfree hrefused
        · next hinstalled => exact .fresh hfree (by simpa using hpasses) hinstalled

theorem platformHookReturns_exit (denial : Option String) :
    PlatformExit setup c a (c.platformHookReturns setup a denial) := by
  cases denial with
  | some reason => exact .denied reason
  | none =>
    rw [Connection.platformHookReturns]
    split
    · next hheld => exact .held hheld
    · next hheld =>
      have hfree : c.holds a.topic = false := by simpa using hheld
      split
      · exact .refused "RATE_LIMITED" hfree
      · next hcap => exact .fresh hfree (hasRoom_of_not_exceeds hfree hcap)

theorem batchLandOne_exit (setup : Setup) (gate : Gate) (b : BatchAttempt)
    (handle : List CaptureEntry) (covered : String → Option ℤ)
    (answers : String → List SendResult) :
    BatchExit setup c b.attempt handle covered answers
      (batchLandOne setup gate covered answers b handle c) := by
  rw [Connection.batchLandOne]
  split
  · next reason _ => exact .denied reason
  · split
    · next hheld =>
      dsimp only
      split
      · next entry hentry => exact .recovered entry hheld hentry
      · next hentry => exact .held hheld hentry
    · next hheld =>
      have hfree : c.holds b.attempt.topic = false := by simpa using hheld
      split
      · exact .refused "RATE_LIMITED" hfree
      · next hcap =>
        dsimp only
        split
        · next hrefused => exact .revoked _ hfree rfl hrefused
        · next hinstalled =>
          exact .fresh _ hfree (hasRoom_of_not_exceeds hfree hcap) rfl hinstalled

/-! ## The parts of a lane that only answer -/

theorem foldl_answer_eq {α : Type} (name : α → String) (reason : α → Option String) (xs : List α)
    (c : Connection) :
    ∃ answers, xs.foldl (fun c x => c.answer (name x) (reason x)) c =
      { c with answers := answers } := by
  induction xs generalizing c with
  | nil => exact ⟨c.answers, rfl⟩
  | cons x xs ih =>
    obtain ⟨answers, hanswers⟩ := ih (c.answer (name x) (reason x))
    exact ⟨answers, hanswers⟩

/-- A batch frame answers the topics it has no room for and enrols the others. -/
theorem batchSubscribe_eq (setup : Setup) (gate : Gate) (c : Connection)
    (topics recovers : List String) :
    ∃ answers enrolling,
      enrolling.length ≤ MAX_PENDING_SUBSCRIBES_PER_CONNECTION - c.ud.pendingTotal ∧
      c.batchSubscribe setup topics recovers gate =
        ((enrolBatch enrolling { c with answers := answers }).2,
          .batchHook (enrolBatch enrolling { c with answers := answers }).1 recovers
            gate.userHook) := by
  rw [Connection.batchSubscribe, denyAll]
  obtain ⟨overflowed, hoverflowed⟩ := foldl_answer_eq (fun topic => topic)
    (fun _ => some "BATCH_OVERFLOW") (topics.drop MAX_BATCH_TOPICS) c
  rw [hoverflowed]
  generalize List.map _ (topics.take MAX_BATCH_TOPICS) = flagged
  obtain ⟨limited, hlimited⟩ := foldl_answer_eq (fun p : String × Bool => p.1)
    (fun p => some (if p.2 then "FORBIDDEN" else "RATE_LIMITED"))
    (flagged.drop (MAX_PENDING_SUBSCRIBES_PER_CONNECTION - c.ud.pendingTotal))
    { c with answers := overflowed }
  refine ⟨limited, flagged.take (MAX_PENDING_SUBSCRIBES_PER_CONNECTION - c.ud.pendingTotal),
    List.length_take_le _ _, ?_⟩
  rw [hlimited]

/-! ## What the activations hold together -/

variable {α : Type} {l : Lanes} {i : ℕ} (f : Activation → List α)

/-- What all activations hold, with one of them in front. -/
theorem Lanes.flatMap_perm {activation : Activation} (hi : l.activations[i]? = some activation) :
    (l.activations.flatMap f).Perm (f activation ++ (l.activations.eraseIdx i).flatMap f) := by
  obtain ⟨hlt, hget⟩ := List.getElem?_eq_some_iff.mp hi
  have hperm := (List.getElem_cons_eraseIdx_perm hlt).symm.flatMap_right f
  rw [hget] at hperm
  exact hperm

/-- What all activations hold once one of them moved on. -/
theorem Lanes.flatMap_put (left : Connection × Activation) (hi : i < l.activations.length) :
    ((l.put i left).activations.flatMap f).Perm
      (f left.2 ++ (l.activations.eraseIdx i).flatMap f) :=
  (List.set_perm_cons_eraseIdx hi left.2).flatMap_right f

theorem Lanes.flatMap_spawn (entered : Connection × Activation) :
    ((l.spawn entered).activations.flatMap f).Perm (f entered.2 ++ l.activations.flatMap f) := by
  have happend : (l.spawn entered).activations.flatMap f =
      l.activations.flatMap f ++ f entered.2 := by
    simp [Lanes.spawn]
  rw [happend]
  exact List.perm_append_comm

end AdapterWs.Subscribe
