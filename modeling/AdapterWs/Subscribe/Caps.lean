import Mathlib.Data.Fintype.EquivFin
import AdapterWs.Subscribe.Landing
import AdapterWs.Subscribe.LaneCases

/-!
# The caps of a connection

Every lane asks for room before it enrols an attempt and again before it installs a membership.
The wire lane asks before it awaits the resume hook and not after it, so a recovering subscribe
lands in whatever room the await left. Where that landing has room, the registry stays within its
cap; the pending total always does.
-/

namespace AdapterWs.Subscribe

open Connection JsSet

variable {c c' c'' : Connection} {setup : Setup} {a : Attempt} {topic : String} {gate : Gate}
  {l l' : Lanes} (ud : UserData) {before : String → ℕ} {left : Connection × Activation}
  {covered : String → Option ℤ} {answers : String → List SendResult}

/-- Neither the registry nor the pending total grew. -/
structure Shrinks (ud ud' : UserData) : Prop where
  size : ud'.subscriptions.size ≤ ud.subscriptions.size
  pending : ud'.pendingTotal ≤ ud.pendingTotal

theorem Shrinks.refl : Shrinks ud ud := ⟨le_rfl, le_rfl⟩

theorem Shrinks.trans {ud ud' ud'' : UserData} (h : Shrinks ud ud') (h' : Shrinks ud' ud'') :
    Shrinks ud ud'' :=
  ⟨le_trans h'.size h.size, le_trans h'.pending h.pending⟩

/-! ## Revocations and exits -/

theorem trackedUnsubscribe_shrinks (c : Connection) (topic : String) :
    Shrinks c.ud (c.trackedUnsubscribe topic).ud := by
  have htombstone : Shrinks c.ud (tombstonePendingSubscribe c.ud topic).2 :=
    ⟨le_of_eq (congrArg size subscriptions_tombstone),
      le_of_eq pendingTotal_tombstone⟩
  exact htombstone.trans ⟨size_delete_le _ _, le_rfl⟩

theorem releaseMembership_shrinks (c : Connection) (topic : String) :
    Shrinks c.ud (c.releaseMembership topic).ud := by
  have hwithdrawn : Shrinks c.ud (withdrawGrant c.ud topic) :=
    ⟨le_of_eq (congrArg size subscriptions_withdrawGrant),
      le_of_eq pendingTotal_withdrawGrant⟩
  rw [releaseMembership]
  dsimp only
  split
  · exact hwithdrawn
  · exact hwithdrawn.trans ⟨size_delete_le _ _, le_rfl⟩

/-- A walk over topics whose every round shrinks the slots. -/
theorem foldl_shrinks {f : Connection → String → Connection}
    (hf : ∀ c t, Shrinks c.ud (f c t).ud) (topics : List String) (c : Connection) :
    Shrinks c.ud (topics.foldl f c).ud := by
  induction topics generalizing c with
  | nil => exact .refl c.ud
  | cons t topics ih => exact (hf c t).trans (ih (f c t))

section

variable (c) (topic)

theorem releaseDerivedSubscriptions_shrinks :
    Shrinks c.ud (c.releaseDerivedSubscriptions setup topic).ud :=
  foldl_shrinks trackedUnsubscribe_shrinks _ c

theorem unsubscribeFrame_shrinks : Shrinks c.ud (c.unsubscribeFrame setup topic).ud :=
  (trackedUnsubscribe_shrinks c topic).trans (releaseDerivedSubscriptions_shrinks _ topic)

theorem platformUnsubscribe_shrinks : Shrinks c.ud (c.platformUnsubscribe setup topic).ud := by
  have hreleased : Shrinks c.ud
      ((c.tombstone topic).releaseDerivedSubscriptions setup topic).ud := by
    have htombstone : Shrinks c.ud (c.tombstone topic).ud :=
      ⟨le_of_eq (congrArg size subscriptions_tombstone),
        le_of_eq pendingTotal_tombstone⟩
    exact htombstone.trans (releaseDerivedSubscriptions_shrinks _ topic)
  rw [platformUnsubscribe]
  split
  · exact hreleased
  · split
    · exact hreleased
    · exact hreleased.trans ⟨size_delete_le _ _, le_rfl⟩

theorem evict_shrinks : Shrinks c.ud (c.evict setup topic).ud :=
  (foldl_shrinks trackedUnsubscribe_shrinks (derivedTopics setup topic)
    { c with
      audit :=
        { c.audit with evicted := c.audit.evicted ++ [decide (topic ∈ c.audit.authority)] } }).trans
    (trackedUnsubscribe_shrinks _ topic)

end

theorem settleDenied_shrinks (topic : String) (held : Bool) :
    Shrinks ud (settleDeniedSubscribe ud topic held).2 := by
  rw [settleDeniedSubscribe]
  split
  · exact .refl ud
  · exact ⟨le_rfl, Nat.sub_le _ _⟩

theorem settleHeld_shrinks (topic : String) (token : ℕ) :
    Shrinks ud (settleHeldSubscribe ud topic token).2 := by
  rw [settleHeldSubscribe]
  split
  · exact .refl ud
  · split
    · exact ⟨le_rfl, Nat.sub_le _ _⟩
    · exact ⟨le_rfl, Nat.sub_le _ _⟩

theorem settlePending_shrinks (topic : String) (token : ℕ) (granted : Bool) :
    Shrinks ud (settlePendingSubscribe ud topic token granted).2 := by
  rw [settlePendingSubscribe]
  split
  · exact .refl ud
  · exact ⟨le_rfl, Nat.sub_le _ _⟩

section

variable (c) (a)

theorem deny_shrinks (reason : String) : Shrinks c.ud (c.deny setup a reason).ud := by
  have hsettled := settleDenied_shrinks c.ud a.topic (c.holds a.topic)
  rw [deny, answer]
  dsimp only
  split
  · exact hsettled.trans (evict_shrinks
      { c with ud := (settleDeniedSubscribe c.ud a.topic (c.holds a.topic)).2 } a.topic)
  · exact hsettled

theorem refuse_shrinks (reason : String) : Shrinks c.ud (c.refuse a reason).ud :=
  settlePending_shrinks c.ud a.topic a.token false

theorem landHeld_shrinks : Shrinks c.ud (c.landHeld setup a).2.ud := by
  have hsettled := settleHeld_shrinks c.ud a.topic a.token
  rw [landHeld]
  dsimp only
  split
  · exact hsettled
  · exact hsettled
  · exact hsettled.trans (evict_shrinks
      { c.authorize a with ud := (settleHeldSubscribe c.ud a.topic a.token).2 } a.topic)

theorem landRecovered_shrinks (capture : CaptureEntry) (covered : Option ℤ) :
    Shrinks c.ud (landRecovered setup c a capture covered).ud := by
  rw [landRecovered]
  split
  · exact landHeld_shrinks c a
  · exact landHeld_shrinks c a

/-- A landing on a topic that is not held refuses, or adds the topic: then the attempt was not
cancelled and the socket is open. -/
theorem landFresh_size (capture : Option CaptureEntry) (covered : Option ℤ)
    (answers : List SendResult) :
    Shrinks c.ud (c.landFresh a capture covered answers).2.ud ∨
      ((c.landFresh a capture covered answers).2.ud.subscriptions =
          c.ud.subscriptions.add a.topic ∧
        (c.landFresh a capture covered answers).2.ud.pendingTotal ≤ c.ud.pendingTotal ∧
        isPendingSubscribeCancelled c.ud a.topic a.token = false ∧ c.isOpen = true) := by
  have hsettled := settlePending_shrinks c.ud a.topic a.token true
  cases hget : c.ud.pending.get a.topic with
  | none =>
    left
    rw [landFresh]
    simpa [settlePendingSubscribe, hget, answer] using Shrinks.refl c.ud
  | some entry =>
    rcases landFresh_cases hget capture covered answers with
      ⟨-, hland⟩ | ⟨-, -, hland⟩ | ⟨hcurrent, ho, -, hland⟩
    · left
      rw [hland]
      exact ⟨le_rfl, Nat.sub_le _ _⟩
    · left
      rw [hland]
      exact ⟨le_rfl, Nat.sub_le _ _⟩
    · right
      rw [hland.ud]
      refine ⟨rfl, Nat.sub_le _ _, ?_, ho⟩
      simp [isPendingSubscribeCancelled, hget, hcurrent]

end

theorem landFresh_shrinks_of_refused {capture : Option CaptureEntry} {covered : Option ℤ}
    {answers : List SendResult} (h : (c.landFresh a capture covered answers).1 = .refused) :
    Shrinks c.ud (c.landFresh a capture covered answers).2.ud := by
  cases hget : c.ud.pending.get a.topic with
  | none =>
    rw [landFresh]
    simpa [settlePendingSubscribe, hget, answer] using Shrinks.refl c.ud
  | some entry =>
    rcases landFresh_cases hget capture covered answers with
      ⟨-, hland⟩ | ⟨-, -, hland⟩ | ⟨-, -, hinstalled, -⟩
    · rw [hland]
      exact ⟨le_rfl, Nat.sub_le _ _⟩
    · rw [hland]
      exact ⟨le_rfl, Nat.sub_le _ _⟩
    · exact absurd h hinstalled

/-! ## The lanes -/

/-- Both counts are within their caps. -/
structure Capped (ud : UserData) : Prop where
  size : ud.subscriptions.size ≤ MAX_SUBSCRIPTIONS_PER_CONNECTION
  pending : ud.pendingTotal ≤ MAX_PENDING_SUBSCRIBES_PER_CONNECTION

theorem Capped.of_shrinks {ud ud' : UserData} (h : Capped ud) (hs : Shrinks ud ud') : Capped ud' :=
  ⟨le_trans hs.size h.size, le_trans hs.pending h.pending⟩

theorem Capped.landFresh (h : Capped c.ud) (hroom : HasRoom c) (capture : Option CaptureEntry)
    (covered : Option ℤ) (answers : List SendResult) :
    Capped (c.landFresh a capture covered answers).2.ud := by
  rcases landFresh_size c a capture covered answers with hs | ⟨hsubs, hpending, -, -⟩
  · exact h.of_shrinks hs
  · refine ⟨?_, le_trans hpending h.pending⟩
    rw [hsubs]
    exact le_trans (size_add_le _ _) hroom

theorem Capped.wireHookExit {recovers : Bool} (h : Capped c.ud)
    (hexit : WireHookExit setup c a recovers before left) : Capped left.1.ud := by
  cases hexit with
  | denied reason => exact h.of_shrinks (deny_shrinks c a reason)
  | held _ => exact h.of_shrinks (landHeld_shrinks c a)
  | refused reason _ => exact h.of_shrinks (refuse_shrinks c a reason)
  | fresh _ hroom => exact h.landFresh hroom none none []
  | awaitsResume _ => exact h

theorem Capped.platformExit (h : Capped c.ud) (hexit : PlatformExit setup c a c') :
    Capped c'.ud := by
  cases hexit with
  | denied reason => exact h.of_shrinks (deny_shrinks c a reason)
  | held _ => exact h.of_shrinks (landHeld_shrinks c a)
  | refused reason _ => exact h.of_shrinks (refuse_shrinks c a reason)
  | fresh _ hroom => exact h.landFresh hroom none none []

/-- The landing after a resume hook installs the membership. -/
def InstallsOnResume (setup : Setup) (c : Connection) (gate : Gate) (a : Attempt) : Prop :=
  c.holds a.topic = false ∧
    deniesWireSubscribeLanding gate (setup.pluginOwned a.topic) false = false ∧
    isPendingSubscribeCancelled c.ud a.topic a.token = false ∧ c.isOpen = true

instance (setup : Setup) (c : Connection) (gate : Gate) (a : Attempt) :
    Decidable (InstallsOnResume setup c gate a) := by
  unfold InstallsOnResume
  infer_instance

theorem Capped.wireResumeExit {capture : CaptureEntry} {covered : Option ℤ}
    {answers : List SendResult} (h : Capped c.ud)
    (hroom : InstallsOnResume setup c gate a → HasRoom c)
    (hexit : WireResumeExit setup c gate a capture covered answers c') : Capped c'.ud := by
  cases hexit with
  | denied reason => exact h.of_shrinks (deny_shrinks (c.discard [capture]) a reason)
  | held _ => exact h.of_shrinks (landRecovered_shrinks c a capture covered)
  | refused reason _ => exact h.of_shrinks (refuse_shrinks c a reason)
  | revoked hfree hrefused => exact h.of_shrinks (landFresh_shrinks_of_refused hrefused)
  | fresh hfree hpasses _ =>
    rcases landFresh_size c a (some capture) covered answers with hs | ⟨-, -, hcurrent, ho⟩
    · exact h.of_shrinks hs
    · exact h.landFresh (hroom ⟨hfree, hfree ▸ hpasses, hcurrent, ho⟩) _ _ _

theorem Capped.batchExit {handle : List CaptureEntry} {left : Bool × List CaptureEntry × Connection}
    (h : Capped c.ud) (hexit : BatchExit setup c a handle covered answers left) :
    Capped left.2.2.ud := by
  cases hexit with
  | denied reason => exact h.of_shrinks (deny_shrinks c a reason)
  | held _ _ => exact h.of_shrinks (landHeld_shrinks c a)
  | recovered entry _ _ => exact h.of_shrinks (landRecovered_shrinks c a entry _)
  | refused reason _ => exact h.of_shrinks (refuse_shrinks c a reason)
  | revoked entry _ _ hrefused => exact h.of_shrinks (landFresh_shrinks_of_refused hrefused)
  | fresh entry _ hroom _ _ => exact h.landFresh hroom _ _ _

theorem Capped.batchLand (attempts : List BatchAttempt) (handle : List CaptureEntry)
    (h : Capped c.ud) : Capped (batchLand setup gate covered answers attempts handle c).2.2.ud := by
  induction attempts generalizing c handle with
  | nil => exact h
  | cons b rest ih =>
    have hone := Capped.batchExit h
      (batchLandOne_exit setup gate b handle covered answers)
    rw [Connection.batchLand]
    split
    · exact hone
    · exact ih _ hone

theorem Capped.enrolBatch (topics : List (String × Bool)) (h : Capped c.ud)
    (hbudget : topics.length + c.ud.pendingTotal ≤ MAX_PENDING_SUBSCRIBES_PER_CONNECTION) :
    Capped (enrolBatch topics c).2.ud := by
  induction topics generalizing c with
  | nil => exact h
  | cons p rest ih =>
    rw [List.length_cons] at hbudget
    have hbudget' : rest.length + (c.begin p.1).2.ud.pendingTotal ≤
        MAX_PENDING_SUBSCRIBES_PER_CONNECTION := by
      change rest.length + (c.ud.pendingTotal + 1) ≤ _
      omega
    have hbegun : Capped (c.begin p.1).2.ud :=
      ⟨h.size, le_trans (Nat.le_add_left _ _) hbudget'⟩
    exact ih hbegun hbudget'

section

variable (h : Capped c.ud)
include h

theorem Capped.batchSubscribe (topics recovers : List String) :
    Capped (c.batchSubscribe setup topics recovers gate).1.ud := by
  obtain ⟨answers, enrolling, hlength, heq⟩ :=
    batchSubscribe_eq setup gate c topics recovers
  rw [heq]
  have hbudget : enrolling.length + c.ud.pendingTotal ≤ MAX_PENDING_SUBSCRIBES_PER_CONNECTION := by
    have := h.pending
    omega
  exact Capped.enrolBatch (c := { c with answers := answers }) enrolling h hbudget

theorem Capped.batchHookReturns {denials : ℕ → Option String} (attempts : List BatchAttempt)
    (recovers : List String) (userHook : Bool) :
    Capped (c.batchHookReturns setup attempts recovers userHook denials gate before).1.ud := by
  rw [Connection.batchHookReturns]
  dsimp only
  split
  · exact h.batchLand _ []
  · exact h

theorem Capped.begin (hbudget : ¬ exceedsPendingSubscribeCap c.ud.pendingTotal
      MAX_PENDING_SUBSCRIBES_PER_CONNECTION = true) (topic : String) :
    Capped (c.begin topic).2.ud := by
  refine ⟨h.size, ?_⟩
  simp only [exceedsPendingSubscribeCap, decide_eq_true_eq, not_le] at hbudget
  exact hbudget

theorem Capped.wireSubscribe (topic : String) (recovers : Bool) :
    Capped (c.wireSubscribe setup topic recovers gate).1.ud := by
  rw [Connection.wireSubscribe]
  split
  · exact h
  · split
    · exact h
    · split
      · exact h
      · next hbudget => exact h.begin hbudget topic

theorem Capped.platformSubscribe (topic : String) : Capped (c.platformSubscribe topic).1.ud := by
  rw [Connection.platformSubscribe]
  split
  · exact h
  · split
    · exact h
    · split
      · exact h
      · next hbudget => exact h.begin hbudget topic

theorem Capped.trackedSubscribe (topic : String) : Capped (c.trackedSubscribe topic).ud := by
  rw [Connection.trackedSubscribe]
  split
  · exact h
  · next hcap =>
    split
    · exact h
    · refine ⟨?_, h.pending⟩
      cases hheld : c.holds topic with
      | false => exact le_trans (size_add_le _ _) (hasRoom_of_not_exceeds hheld hcap)
      | true =>
        exact le_trans (le_of_eq (size_add_of_mem (of_decide_eq_true hheld))) h.size

end

/-! ## The machine -/

/-- Where a wire subscribe that comes back from its resume hook installs its topic, the registry
has room. -/
def RoomOnResume (setup : Setup) (l : Lanes) : Event → Prop
  | .resumeReturns i _ gate _ =>
    match l.activations[i]? with
    | some (.wireResume a _) => InstallsOnResume setup l.conn gate a → HasRoom l.conn
    | _ => True
  | _ => True

instance (setup : Setup) (l : Lanes) (e : Event) : Decidable (RoomOnResume setup l e) := by
  unfold RoomOnResume
  split
  · split <;> infer_instance
  · infer_instance

theorem Capped.hookReturns {activation : Activation} {denials : ℕ → Option String} (h : Capped c.ud)
    (hs : hookReturns setup c denials gate before activation = some left) : Capped left.1.ud := by
  cases activation with
  | wireHook attempt recovers =>
    cases hs
    exact Capped.wireHookExit h (wireHookReturns_exit (denials 0))
  | platformHook attempt =>
    cases hs
    exact Capped.platformExit h (platformHookReturns_exit (denials 0))
  | batchHook attempts recovers userHook =>
    cases hs
    exact h.batchHookReturns attempts recovers userHook
  | wireResume attempt capture => cases hs
  | batchResume attempts capture userHook => cases hs
  | returned unsettled => cases hs

theorem Capped.resumeReturns {activation : Activation} (h : Capped c.ud)
    (hroom : ∀ a capture, activation = .wireResume a capture →
      InstallsOnResume setup c gate a → HasRoom c)
    (hs : resumeReturns setup c covered gate answers activation = some left) :
    Capped left.1.ud := by
  cases activation with
  | wireResume attempt capture =>
    cases hs
    exact h.wireResumeExit (hroom attempt capture rfl) (wireResumeReturns_exit _ _)
  | batchResume attempts capture userHook =>
    cases hs
    exact h.batchLand attempts capture
  | wireHook attempt recovers => cases hs
  | platformHook attempt => cases hs
  | batchHook attempts recovers userHook => cases hs
  | returned unsettled => cases hs

theorem Capped.step {e : Event} (h : Capped l.conn.ud) (hroom : RoomOnResume setup l e)
    (hs : Subscribe.step setup l e = some l') : Capped l'.conn.ud := by
  cases e with
  | wireSubscribe topic recovers gate =>
    cases hs
    exact h.wireSubscribe topic recovers
  | batchSubscribe topics recovers gate =>
    cases hs
    exact h.batchSubscribe topics recovers
  | platformSubscribe topic =>
    cases hs
    exact h.platformSubscribe topic
  | hookReturns i denials gate before =>
    obtain ⟨left, hleft, rfl⟩ := Option.map_eq_some_iff.mp hs
    obtain ⟨activation, -, hf⟩ := Option.bind_eq_some_iff.mp hleft
    exact h.hookReturns hf
  | resumeReturns i covered gate answers =>
    obtain ⟨left, hleft, rfl⟩ := Option.map_eq_some_iff.mp hs
    obtain ⟨activation, hi, hf⟩ := Option.bind_eq_some_iff.mp hleft
    refine h.resumeReturns (fun a capture ha => ?_) hf
    rw [RoomOnResume, hi, ha] at hroom
    exact hroom
  | hookInstalls i topic =>
    obtain ⟨activation, -, hs⟩ := Option.bind_eq_some_iff.mp hs
    obtain ⟨-, ⟨⟩⟩ := Option.ite_none_right_eq_some.mp hs
    exact h.trackedSubscribe topic
  | trackedSubscribe topic =>
    cases hs
    exact h.trackedSubscribe topic
  | trackedUnsubscribe topic =>
    cases hs
    exact h.of_shrinks (trackedUnsubscribe_shrinks _ topic)
  | releaseSubscription topic =>
    cases hs
    exact h.of_shrinks (foldl_shrinks releaseMembership_shrinks _ _)
  | platformUnsubscribe topic =>
    cases hs
    exact h.of_shrinks (platformUnsubscribe_shrinks _ topic)
  | unsubscribeFrame topic =>
    cases hs
    exact h.of_shrinks (unsubscribeFrame_shrinks _ topic)
  | publish topic seq taken =>
    cases hs
    exact h
  | ends =>
    cases hs
    exact h

/-! ## Every run -/

theorem capped_of_roomOnResume {es : List Event}
    (h : (lanes setup).ReachesWhere (RoomOnResume setup) es l) :
    l.conn.ud.subscriptions.size ≤ MAX_SUBSCRIPTIONS_PER_CONNECTION ∧
      l.conn.ud.pendingTotal ≤ MAX_PENDING_SUBSCRIBES_PER_CONNECTION := by
  have hcapped : Capped l.conn.ud :=
    h.invariant (I := fun l => Capped l.conn.ud) ⟨Nat.zero_le _, Nat.zero_le _⟩ fun _ _ _ => Capped.step
  exact ⟨hcapped.size, hcapped.pending⟩

/-! ## Runs -/

/-- A recovering subscribe up to its resume hook. -/
def parkedRun : List Event :=
  [.wireSubscribe "room" true openGate, .hookReturns 0 allows openGate fun _ => 0]

/-- A recovering subscribe that lands. -/
def landedRun : List Event :=
  parkedRun ++ [.resumeReturns 0 (fun _ => none) openGate fun _ => []]

theorem capped_of_roomOnResume_landedRun :
    ∃ l : Lanes, (l.conn.ud.subscriptions.size ≤ MAX_SUBSCRIPTIONS_PER_CONNECTION ∧
      l.conn.ud.pendingTotal ≤ MAX_PENDING_SUBSCRIBES_PER_CONNECTION) ∧
      decide (l.conn.ud.subscriptions.size = 1) = true := by
  obtain ⟨l, hl, hsize⟩ : ∃ l, (lanes noPlugins).ReachesWhere (RoomOnResume noPlugins) landedRun l ∧
      decide (l.conn.ud.subscriptions.size = 1) = true :=
    Machine.exists_of_execWhere (by decide)
  exact ⟨l, capped_of_roomOnResume hl, hsize⟩

/-- The attempt of `parkedRun`. -/
def parkedAttempt : Attempt where
  topic := "room"
  token := 0
  revocations := 0

/-- A recovering subscribe is parked in its resume hook, and nothing stands against its landing. -/
structure Parked (l : Lanes) : Prop where
  parked : ∃ capture, l.activations[0]? = some (.wireResume parkedAttempt capture)
  entry : l.conn.ud.pending.get "room" = some { epoch := 0, inflight := 1, granted := false }
  free : "room" ∉ l.conn.ud.subscriptions
  isOpen : l.conn.isOpen = true

/-- While the subscribe is parked, plugins may fill the registry. -/
theorem exists_filled (n : ℕ) (hn : n ≤ MAX_SUBSCRIPTIONS_PER_CONNECTION) :
    ∃ es l, (lanes noPlugins).Reaches es l ∧ l.conn.ud.subscriptions.size = n ∧ Parked l := by
  induction n with
  | zero => exact ⟨parkedRun, _, Machine.reaches_of_exec rfl, rfl, ⟨_, rfl⟩, rfl, by decide, rfl⟩
  | succ n ih =>
    obtain ⟨es, l, hl, hsize, hparked⟩ := ih (Nat.le_of_succ_le hn)
    obtain ⟨name, hname⟩ := Infinite.exists_notMem_finset
      (insert "room" l.conn.ud.subscriptions.elems.toFinset)
    rw [Finset.mem_insert, List.mem_toFinset, mem_elems, not_or] at hname
    obtain ⟨hroom, hfresh⟩ := hname
    have hadded : (l.conn.trackedSubscribe name).ud = addLogical l.conn.ud name := by
      have hlt : ¬ MAX_SUBSCRIPTIONS_PER_CONNECTION ≤ n := not_le.mpr hn
      simp [Connection.trackedSubscribe, exceedsSubscriptionCap, holds, hfresh, hsize, hlt,
        hparked.isOpen]
    have hopen : (l.conn.trackedSubscribe name).isOpen = true := by
      rw [Connection.trackedSubscribe]
      split
      · exact hparked.isOpen
      · split
        · exact hparked.isOpen
        · exact hparked.isOpen
    refine ⟨es ++ [.trackedSubscribe name], { l with conn := l.conn.trackedSubscribe name },
      .next hl trivial rfl, ?_, hparked.parked, ?_, ?_, hopen⟩
    · dsimp only
      rw [hadded]
      exact (size_add_of_not_mem hfresh).trans (congrArg (· + 1) hsize)
    · dsimp only
      rw [hadded]
      exact hparked.entry
    · dsimp only
      rw [hadded]
      intro hmem
      rcases mem_add.mp hmem with heq | hmem
      · exact hroom heq.symm
      · exact hparked.free hmem

/-- A recovering subscribe that lands on a registry filled during its resume await goes past the
cap. -/
theorem not_capped_filledRun :
    ¬ ∀ es l, (lanes noPlugins).Reaches es l →
      l.conn.ud.subscriptions.size ≤ MAX_SUBSCRIPTIONS_PER_CONNECTION := by
  intro h
  obtain ⟨es, l, hl, hsize, hparked⟩ := exists_filled MAX_SUBSCRIPTIONS_PER_CONNECTION le_rfl
  obtain ⟨capture, hi⟩ := hparked.parked
  have hfree : l.conn.holds parkedAttempt.topic = false := decide_eq_false hparked.free
  obtain ⟨hinstalled, hland⟩ : (l.conn.landFresh parkedAttempt (some capture) none []).1 ≠ .refused ∧
      Installed l.conn parkedAttempt { epoch := 0, inflight := 1, granted := false }
        (l.conn.landFresh parkedAttempt (some capture) none []).2 := by
    rcases landFresh_cases (a := parkedAttempt) hparked.entry (some capture) none [] with
      ⟨hrevoked, -⟩ | ⟨-, hclosed, -⟩ | ⟨-, -, hinstalled⟩
    · exact absurd rfl hrevoked
    · rw [hparked.isOpen] at hclosed
      cases hclosed
    · exact hinstalled
  have hreturns : l.conn.wireResumeReturns noPlugins parkedAttempt capture none openGate [] =
      (l.conn.landFresh parkedAttempt (some capture) none []).2 := by
    simp [Connection.wireResumeReturns, deniesHeldLanding, hfree, wireLand, openGate, noPlugins,
      deniesWireSubscribeLanding, hinstalled]
  have hstep : (lanes noPlugins).step l (.resumeReturns 0 (fun _ => none) openGate fun _ => []) =
      some (l.put 0 ((l.conn.landFresh parkedAttempt (some capture) none []).2, .returned [])) := by
    rw [lanes_step, step, hi, ← hreturns]
    rfl
  have hpast := h _ _ (.next hl trivial hstep)
  change (l.conn.landFresh parkedAttempt (some capture) none []).2.ud.subscriptions.size ≤ _ at hpast
  have hadded := size_add_of_not_mem hparked.free
  rw [hland.ud, addLogical] at hpast
  change (l.conn.ud.subscriptions.add "room").size ≤ _ at hpast
  omega

end AdapterWs.Subscribe
