import AdapterWs.Subscribe.Landing
import AdapterWs.Subscribe.LaneCases

/-!
# A revocation defeats every subscribe in flight

The agreement of memberships and authority is kept by every exit, so by every lane and by every
step of the machine. What it says in a state with nothing in flight on a topic is the point of
the pending entries: a topic that is held was landed by an attempt that began after the last
revocation.

The domain is what the lanes, the hooks and the revocations do. A membership that a plugin
installs with no attempt of the topic in flight is outside it.
-/

namespace AdapterWs.Subscribe

open Connection Sound BatchAttempt

variable {c : Connection} {setup : Setup} {live : List Attempt} {a : Attempt}
  {topic : String} {gate : Gate} {l l' : Lanes} {before : String → ℕ}
  {left : Connection × Activation} {covered : String → Option ℤ}
  {answers : String → List SendResult} (attempts : List BatchAttempt)

/-! ## The lanes -/

section

variable (h : Sound c (a :: live))
include h

theorem Sound.landRecovered (hheld : c.holds a.topic = true) (capture : CaptureEntry)
    (covered : Option ℤ) : Sound (landRecovered setup c a capture covered) live := by
  rw [Subscribe.landRecovered]
  split
  · exact (h.landHeld hheld).recover capture covered
  · exact h.landHeld hheld

theorem Sound.wireHookExit {recovers : Bool} (hexit : WireHookExit setup c a recovers before left) :
    Sound left.1 (left.2.attempts ++ live) := by
  cases hexit with
  | denied reason => exact h.deny reason
  | held hheld => exact h.landHeld hheld
  | refused reason hfree => exact h.refuse hfree reason
  | fresh hfree _ => exact h.landFresh hfree none none []
  | awaitsResume _ => exact h.congr (fun ho => ho) rfl rfl

theorem Sound.wireResumeExit {capture : CaptureEntry} {covered : Option ℤ}
    {answers : List SendResult} {left : Connection}
    (hexit : WireResumeExit setup c gate a capture covered answers left) : Sound left live := by
  cases hexit with
  | denied reason => exact (h.discard [capture]).deny reason
  | held hheld => exact (h.landRecovered hheld capture covered).discard [capture]
  | refused reason hfree => exact (h.refuse hfree reason).discard [capture]
  | revoked hfree _ => exact (h.landFresh hfree (some capture) covered answers).discard [capture]
  | fresh hfree _ _ => exact h.landFresh hfree (some capture) covered answers

theorem Sound.platformExit {left : Connection} (hexit : PlatformExit setup c a left) :
    Sound left live := by
  cases hexit with
  | denied reason => exact h.deny reason
  | held hheld => exact h.landHeld hheld
  | refused reason hfree => exact h.refuse hfree reason
  | fresh hfree _ => exact h.landFresh hfree none none []

theorem Sound.batchExit {handle : List CaptureEntry} {left : Bool × List CaptureEntry × Connection}
    (hexit : BatchExit setup c a handle covered answers left) : Sound left.2.2 live := by
  cases hexit with
  | denied reason => exact h.deny reason
  | held hheld _ => exact h.landHeld hheld
  | recovered entry hheld _ => exact h.landRecovered hheld entry (covered a.topic)
  | refused reason hfree => exact h.refuse hfree reason
  | revoked entry hfree _ _ => exact h.landFresh hfree entry _ _
  | fresh entry hfree _ _ _ => exact h.landFresh hfree entry _ _

end

/-- The landing loop: what it leaves unsettled stays in flight. -/
theorem Sound.batchLand (handle : List CaptureEntry)
    (h : Sound c (attempts.map attempt ++ live)) :
    Sound (batchLand setup gate covered answers attempts handle c).2.2
      ((batchLand setup gate covered answers attempts handle c).1 ++ live) := by
  induction attempts generalizing c handle with
  | nil => exact h
  | cons b rest ih =>
    have hone : Sound (batchLandOne setup gate covered answers b handle c).2.2
        (rest.map attempt ++ live) := batchExit h (batchLandOne_exit setup gate b handle covered answers)
    rw [Connection.batchLand]
    split
    · exact hone
    · exact ih _ hone

theorem Sound.batchFinish (handle : List CaptureEntry)
    (h : Sound c (attempts.map attempt ++ live)) :
    Sound (c.batchFinish setup attempts handle gate covered answers).1
      ((c.batchFinish setup attempts handle gate covered answers).2.attempts ++ live) :=
  (batchLand attempts handle h).discard _

theorem map_attempt_mapIdx (denials : ℕ → Option String) (attempts : List BatchAttempt) :
    (attempts.mapIdx fun j b => { b with denial := denials j }).map attempt =
      attempts.map attempt := by
  apply List.ext_getElem
  · simp
  · intro i hi hi'
    simp

theorem Sound.batchHookReturns {denials : ℕ → Option String} (recovers : List String)
    (userHook : Bool) (h : Sound c (attempts.map attempt ++ live)) :
    Sound (c.batchHookReturns setup attempts recovers userHook denials gate before).1
      ((c.batchHookReturns setup attempts recovers userHook denials gate before).2.attempts ++
        live) := by
  rw [← map_attempt_mapIdx denials] at h
  rw [Connection.batchHookReturns]
  dsimp only
  split
  · exact batchFinish _ [] h
  · exact h.congr (fun ho => ho) rfl rfl

theorem Sound.enrolBatch (topics : List (String × Bool)) (h : Sound c live) :
    Sound (enrolBatch topics c).2 ((enrolBatch topics c).1.map attempt ++ live) := by
  induction topics generalizing c live with
  | nil => exact h
  | cons p rest ih => exact (ih (h.begin p.1)).perm List.perm_middle

theorem Sound.batchSubscribe (h : Sound c live) (topics recovers : List String) :
    Sound (c.batchSubscribe setup topics recovers gate).1
      ((c.batchSubscribe setup topics recovers gate).2.attempts ++ live) := by
  obtain ⟨answers, enrolling, -, heq⟩ := batchSubscribe_eq setup gate c topics recovers
  rw [heq]
  exact enrolBatch enrolling (h.congr (fun ho => ho) rfl rfl)

theorem Sound.wireSubscribe (h : Sound c live) (topic : String) (recovers : Bool) :
    Sound (c.wireSubscribe setup topic recovers gate).1
      ((c.wireSubscribe setup topic recovers gate).2.attempts ++ live) := by
  rw [Connection.wireSubscribe]
  split
  · exact h.answer _ _
  · split
    · exact h.answer _ _
    · split
      · exact h.answer _ _
      · exact h.begin topic

theorem Sound.platformSubscribe (h : Sound c live) (topic : String) :
    Sound (c.platformSubscribe topic).1 ((c.platformSubscribe topic).2.attempts ++ live) := by
  rw [Connection.platformSubscribe]
  split
  · exact h.answer _ _
  · split
    · exact h.answer _ _
    · split
      · exact h.answer _ _
      · exact h.begin topic

/-! ## The machine -/

/-- The attempts in flight on a connection. -/
def Lanes.inFlight (l : Lanes) : List Attempt := l.activations.flatMap Activation.attempts

/-- Every event but a plugin's own subscribe. -/
def Event.inLanes : Event → Bool
  | .trackedSubscribe _ => false
  | _ => true

/-- The domain as a condition on steps. -/
def InLanes (_ : Lanes) (e : Event) : Prop := e.inLanes = true

instance (l : Lanes) (e : Event) : Decidable (InLanes l e) :=
  inferInstanceAs (Decidable (_ = true))

theorem Sound.hookReturns {activation : Activation} {denials : ℕ → Option String}
    (h : Sound c (activation.attempts ++ live))
    (hs : hookReturns setup c denials gate before activation = some left) :
    Sound left.1 (left.2.attempts ++ live) := by
  cases activation with
  | wireHook attempt recovers =>
    cases hs
    exact wireHookExit h (wireHookReturns_exit (denials 0))
  | platformHook attempt =>
    cases hs
    exact platformExit h (platformHookReturns_exit (denials 0))
  | batchHook attempts recovers userHook =>
    cases hs
    exact batchHookReturns attempts recovers userHook h
  | wireResume attempt capture => cases hs
  | batchResume attempts capture userHook => cases hs
  | returned unsettled => cases hs

theorem Sound.resumeReturns {activation : Activation} (h : Sound c (activation.attempts ++ live))
    (hs : resumeReturns setup c covered gate answers activation = some left) :
    Sound left.1 (left.2.attempts ++ live) := by
  cases activation with
  | wireResume attempt capture =>
    cases hs
    exact wireResumeExit h (wireResumeReturns_exit _ _)
  | batchResume attempts capture userHook =>
    cases hs
    exact batchFinish attempts capture h
  | wireHook attempt recovers => cases hs
  | platformHook attempt => cases hs
  | batchHook attempts recovers userHook => cases hs
  | returned unsettled => cases hs

theorem Sound.put {i : ℕ} {f : Activation → Option (Connection × Activation)}
    (h : Sound l.conn l.inFlight)
    (hsettles : ∀ activation left live, Sound l.conn (activation.attempts ++ live) →
      f activation = some left → Sound left.1 (left.2.attempts ++ live))
    (hs : (l.activations[i]?.bind f).map (l.put i) = some l') : Sound l'.conn l'.inFlight := by
  obtain ⟨left, hleft, rfl⟩ := Option.map_eq_some_iff.mp hs
  obtain ⟨activation, hi, hf⟩ := Option.bind_eq_some_iff.mp hleft
  have hlt := (List.getElem?_eq_some_iff.mp hi).1
  have hsettled := hsettles activation left _ (h.perm (Lanes.flatMap_perm _ hi)) hf
  exact hsettled.perm (Lanes.flatMap_put _ left hlt).symm

theorem Sound.spawn {entered : Connection × Activation}
    (h : Sound entered.1 (entered.2.attempts ++ l.inFlight)) :
    Sound (l.spawn entered).conn (l.spawn entered).inFlight :=
  h.perm (Lanes.flatMap_spawn _ entered).symm

theorem Sound.step {e : Event} (h : Sound l.conn l.inFlight) (hin : InLanes l e)
    (hs : Subscribe.step setup l e = some l') : Sound l'.conn l'.inFlight := by
  cases e with
  | wireSubscribe topic recovers gate =>
    cases hs
    exact spawn (h.wireSubscribe topic recovers)
  | batchSubscribe topics recovers gate =>
    cases hs
    exact spawn (h.batchSubscribe topics recovers)
  | platformSubscribe topic =>
    cases hs
    exact spawn (h.platformSubscribe topic)
  | hookReturns i denials gate before => exact h.put (fun _ _ _ => hookReturns) hs
  | resumeReturns i covered gate answers => exact h.put (fun _ _ _ => resumeReturns) hs
  | hookInstalls i topic =>
    obtain ⟨activation, hi, hs⟩ := Option.bind_eq_some_iff.mp hs
    split at hs
    · next hany =>
      cases hs
      obtain ⟨attempt, hattempt, htopic⟩ := List.any_eq_true.mp hany
      have hlive : attempt ∈ l.inFlight :=
        List.mem_flatMap.mpr ⟨activation, List.mem_of_getElem? hi, hattempt⟩
      obtain ⟨entry, hentry⟩ := h.enrolled.exists_entry hlive
      rw [eq_of_beq htopic] at hentry
      exact h.trackedSubscribe hentry
    · cases hs
  | trackedSubscribe topic => cases hin
  | trackedUnsubscribe topic =>
    cases hs
    exact h.trackedUnsubscribe topic
  | releaseSubscription topic =>
    cases hs
    exact h.releaseSubscription topic
  | platformUnsubscribe topic =>
    cases hs
    exact h.platformUnsubscribe topic
  | unsubscribeFrame topic =>
    cases hs
    exact h.unsubscribeFrame topic
  | publish topic seq taken =>
    cases hs
    exact h.congr (fun ho => ho) rfl rfl
  | ends =>
    cases hs
    exact h.congr (fun ho => by cases ho) rfl rfl

/-! ## Every run -/

/-- No membership stands without authority, none that has it is evicted, no landing installs
across a revocation, and the pending total is the sum of the counts. -/
structure DefeatsRevoked (l : Lanes) : Prop where
  /-- While the socket is open, a held topic with no attempt in flight has authority. -/
  authority : l.conn.isOpen = true → ∀ topic, (∀ a ∈ l.inFlight, a.topic ≠ topic) →
    topic ∈ l.conn.ud.subscriptions → topic ∈ l.conn.audit.authority
  /-- No landing evicted a membership that had authority. -/
  spared : true ∉ l.conn.audit.evicted
  /-- A landing that installed began after the topic's last revocation. -/
  installs : ∀ p ∈ l.conn.audit.installs, p.1 = p.2
  /-- The pending total is the sum of the in-flight counts. -/
  total : l.conn.ud.pendingTotal = pendingSum l.conn.ud

theorem defeatsRevoked {es : List Event} (h : (lanes setup).ReachesWhere InLanes es l) :
    DefeatsRevoked l := by
  have hsound : Sound l.conn l.inFlight :=
    h.invariant (I := fun l => Sound l.conn l.inFlight) Sound.opened fun _ _ _ => Sound.step
  refine ⟨?_, ?_, hsound.installs, hsound.enrolled.total⟩
  · intro ho topic hquiet hheld
    exact (hsound.backed topic).quiet ho (hsound.enrolled.get_eq_none hquiet) hheld
  · intro hmem
    cases hsound.evicted true hmem

/-! ## Runs -/

/-- An attempt whose hook installs the membership is revoked and installs it again; an attempt
begun after the revocation lands before it. -/
def overlappingRun : List Event :=
  [.platformSubscribe "room", .hookInstalls 0 "room", .platformUnsubscribe "room",
    .hookInstalls 0 "room", .platformSubscribe "room", .hookReturns 1 allows openGate fun _ => 0,
    .hookReturns 0 allows openGate fun _ => 0]

/-- The topic is held and nothing is in flight. -/
def restsHeld (topic : String) (l : Lanes) : Bool :=
  decide (topic ∈ l.conn.ud.subscriptions) && l.inFlight.isEmpty

theorem defeatsRevoked_overlappingRun : ∃ l, DefeatsRevoked l ∧ restsHeld "room" l = true := by
  obtain ⟨l, hl, hrests⟩ : ∃ l, (lanes noPlugins).ReachesWhere InLanes overlappingRun l ∧
      restsHeld "room" l = true := Machine.exists_of_execWhere (by decide)
  exact ⟨l, defeatsRevoked hl, hrests⟩

/-- A recovering subscribe lands, its flush is refused and closes the connection, and the topic is
revoked: the closed socket keeps its registry. -/
def closedRun : List Event :=
  [.wireSubscribe "room" true openGate, .hookReturns 0 allows openGate fun _ => 0,
    .publish "room" (some 1) true,
    .resumeReturns 0 (fun _ => none) openGate fun _ => [.refused, .refused],
    .platformUnsubscribe "room"]

/-- The topic is held at rest without authority. -/
def restsUnauthorized (topic : String) (l : Lanes) : Bool :=
  restsHeld topic l && !decide (topic ∈ l.conn.audit.authority)

/-- On a socket that its flush closed, a revoked topic stays in the registry. -/
theorem not_held_only_with_authority :
    ¬ ∀ es l, (lanes noPlugins).ReachesWhere InLanes es l → ∀ topic,
      (∀ a ∈ l.inFlight, a.topic ≠ topic) → topic ∈ l.conn.ud.subscriptions →
        topic ∈ l.conn.audit.authority := by
  intro h
  obtain ⟨l, hl, hrests⟩ : ∃ l, (lanes noPlugins).ReachesWhere InLanes closedRun l ∧
      restsUnauthorized "room" l = true := Machine.exists_of_execWhere (by decide)
  simp only [restsUnauthorized, restsHeld, Bool.and_eq_true, decide_eq_true_iff,
    List.isEmpty_iff, Bool.not_eq_true', decide_eq_false_iff_not] at hrests
  obtain ⟨⟨hheld, hquiet⟩, hgone⟩ := hrests
  apply hgone (h _ l hl "room" _ hheld)
  intro a ha
  rw [hquiet] at ha
  cases ha

end AdapterWs.Subscribe
