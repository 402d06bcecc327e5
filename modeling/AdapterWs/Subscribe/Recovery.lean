import Mathlib.Data.List.Dedup
import AdapterWs.Subscribe.Cutover
import AdapterWs.Subscribe.LaneCases

/-!
# No recovery leaves a silent gap

The exits of `Subscribe.Cutover` put together: every lane keeps the invariant, and so does every
step of the machine in the domain, which is the subscribe lanes and the publishes. The condition
is about one exit only: where a resume hook settles on a topic that another attempt made live, the
frames the capture holds from before that membership are covered by the watermark.
-/

namespace AdapterWs.Subscribe

open Connection List

variable {c c' : Connection} {setup : Setup} {open_ : List CaptureEntry} {a : Attempt}
  {topic : String} {gate : Gate} {capture : CaptureEntry} {handle : List CaptureEntry}
  {l l' : Lanes} {covered : String → Option ℤ} {answers : String → List SendResult}

/-! ## The condition along a lane -/

/-- Every capture of a held topic is answered for by the membership. -/
def Spanned (c : Connection) (handle : List CaptureEntry) (covered : String → Option ℤ) : Prop :=
  ∀ capture ∈ handle, c.holds capture.topic = true →
    Spans c capture (capture.floor (covered capture.topic))

theorem Spanned.of_steady (h : Spanned c handle covered) (hs : Steady c c') :
    Spanned c' handle covered := by
  intro capture hmem hheld
  rw [holds, hs.subscriptions] at hheld
  rw [Spans, hs.flushClosed, hs.cut, hs.liveSince]
  exact h capture hmem hheld

/-- A landing leaves the captures of other topics as they are. -/
theorem Spanned.lands {live : LiveSince} {extra : List Received} (h : Spanned c handle covered)
    (hlands : Lands c c' topic live extra) (hother : ∀ capture ∈ handle, capture.topic ≠ topic) :
    Spanned c' handle covered := by
  intro capture hmem hheld
  have hne := hother capture hmem
  have hold : c.holds capture.topic = true := by
    rw [holds, hlands.slots] at hheld
    simpa [holds, hne] using hheld
  rcases h capture hmem hold with hclosed | hmarker | hspans
  · exact .inl (hlands.closed hclosed)
  · refine .inr (.inl ?_)
    rw [hlands.received]
    exact mem_append_left _ hmarker
  · refine .inr (.inr ?_)
    rw [hlands.since, hlands.published, JsMap.get_set, if_neg (Ne.symm hne)]
    exact hspans

/-! ## The handle of a batch -/

theorem perm_of_find (hnodup : (handle.map CaptureEntry.topic).Nodup)
    (hfind : handle.find? (fun entry => entry.topic == topic) = some capture) :
    capture.topic = topic ∧
      handle.Perm (capture :: handle.filter fun entry => entry.topic != topic) := by
  induction handle with
  | nil => cases hfind
  | cons entry handle ih =>
    rw [map_cons, nodup_cons] at hnodup
    rw [find?_cons] at hfind
    split at hfind
    · next hentry =>
      cases hfind
      have htopic : capture.topic = topic := eq_of_beq hentry
      have hrest : handle.filter (fun entry => entry.topic != topic) = handle := by
        rw [filter_eq_self]
        intro other hother
        rw [bne_iff_ne]
        intro heq
        exact hnodup.1 (htopic.trans heq.symm ▸ mem_map_of_mem hother)
      rw [filter_cons_of_neg (by simpa using htopic), hrest]
      exact ⟨htopic, .refl _⟩
    · next hentry =>
      obtain ⟨htopic, hperm⟩ := ih hnodup.2 hfind
      refine ⟨htopic, ?_⟩
      rw [filter_cons_of_pos (by simpa [bne] using hentry)]
      exact (hperm.cons entry).trans (.swap _ _ _)

theorem filter_of_find_none
    (hfind : handle.find? (fun entry => entry.topic == topic) = none) :
    (handle.filter fun entry => entry.topic != topic) = handle := by
  rw [filter_eq_self]
  intro entry hmem
  simpa [bne] using find?_eq_none.mp hfind entry hmem

/-! ## The lanes -/

theorem Whole.landFresh_none (h : Whole c open_) (hfree : c.holds a.topic = false) :
    Whole (c.landFresh a none none []).2 open_ := by
  by_cases hrefused : (c.landFresh a none none []).1 = .refused
  · exact h.of_steady (landFresh_steady h.kept hrefused)
  · obtain ⟨hkept, hcut, live, extra, hlands⟩ := landFresh_plain h.kept hrefused
    exact h.lands live extra (of_decide_eq_false hfree) hkept (hcut ▸ h.buffered) hlands

variable {left : Connection × Activation}

theorem Whole.wireHookExit {recovers : Bool} {before : String → ℕ} (h : Whole c open_)
    (hexit : WireHookExit setup c a recovers before left) :
    Whole left.1 (left.2.captures ++ open_) := by
  cases hexit with
  | denied reason => exact h.of_steady (deny_steady h.kept a reason)
  | held hheld => exact h.of_steady (landHeld_steady setup h.kept hheld).2
  | refused reason _ => exact h.of_steady (refuse_steady h.kept a reason)
  | fresh hfree _ => exact h.landFresh_none hfree
  | awaitsResume _ =>
    exact h.of_buffers (h.buffered.openCapture before a.topic) rfl rfl

theorem Whole.platformExit (h : Whole c open_) (hexit : PlatformExit setup c a c') :
    Whole c' open_ := by
  cases hexit with
  | denied reason => exact h.of_steady (deny_steady h.kept a reason)
  | held hheld => exact h.of_steady (landHeld_steady setup h.kept hheld).2
  | refused reason _ => exact h.of_steady (refuse_steady h.kept a reason)
  | fresh hfree _ => exact h.landFresh_none hfree

theorem Whole.landRecovered {covered : Option ℤ} (h : Whole c open_)
    (hheld : c.holds a.topic = true) (htopic : capture.topic = a.topic)
    (hspans : Spans c capture (capture.floor covered)) :
    Whole (landRecovered setup c a capture covered) open_ := by
  obtain ⟨hack, hsteady⟩ := landHeld_steady setup h.kept hheld
  rw [Subscribe.landRecovered, if_pos hack]
  apply (h.of_steady hsteady).recover
  · rw [hsteady.subscriptions, htopic]
    exact of_decide_eq_true hheld
  · rw [Spans, hsteady.flushClosed, hsteady.cut, hsteady.liveSince]
    exact hspans

theorem Whole.wireResumeExit {answers : List SendResult} (h : Whole c (capture :: open_))
    (htopic : capture.topic = a.topic) (hspanned : Spanned c [capture] covered)
    (hexit : WireResumeExit setup c gate a capture (covered a.topic) answers c') :
    Whole c' open_ := by
  cases hexit with
  | denied reason =>
    have hdiscarded : Whole (c.discard [capture]) open_ := Whole.discard [capture] h
    exact hdiscarded.of_steady (deny_steady hdiscarded.kept a reason)
  | held hheld =>
    refine Whole.discard [capture] (h.landRecovered hheld htopic ?_)
    rw [← htopic]
    exact hspanned capture (mem_singleton_self _) (htopic ▸ hheld)
  | refused reason _ => exact Whole.discard [capture] (h.of_steady (refuse_steady h.kept a reason))
  | revoked _ hrefused =>
    exact Whole.discard [capture] (h.of_steady (landFresh_steady h.kept hrefused))
  | fresh hfree _ hinstalled =>
    obtain ⟨hkept, live, extra, hlands, hcut⟩ := landFresh_flushed h.kept
      (h.buffered.captured capture (.head _)) htopic hinstalled
    have hsent : Buffered { c.cut with received := c.cut.received ++ extra } (capture :: open_) :=
      h.buffered.congr rfl rfl rfl rfl
    exact h.lands live extra (of_decide_eq_false hfree) hkept (hcut ▸ hsent.unregister) hlands

/-- What a batch carries from one topic to the next. -/
structure Landing (c : Connection) (handle open_ : List CaptureEntry)
    (covered : String → Option ℤ) : Prop where
  whole : Whole c (handle ++ open_)
  keyed : (handle.map CaptureEntry.topic).Nodup
  spanned : Spanned c handle covered

theorem Landing.of_steady (h : Landing c handle open_ covered) (hs : Steady c c') :
    Landing c' handle open_ covered :=
  ⟨h.whole.of_steady hs, h.keyed, h.spanned.of_steady hs⟩

theorem Landing.batchExit {left : Bool × List CaptureEntry × Connection}
    (h : Landing c handle open_ covered) (hexit : BatchExit setup c a handle covered answers left) :
    Landing left.2.2 left.2.1 open_ covered := by
  have hkeyed : ((handle.filter fun entry => entry.topic != a.topic).map
      CaptureEntry.topic).Nodup := (filter_sublist.map _).nodup h.keyed
  have hother : ∀ capture ∈ handle.filter fun entry => entry.topic != a.topic,
      capture.topic ≠ a.topic := fun capture hmem => by simpa using (mem_filter.mp hmem).2
  have hspanned : Spanned c (handle.filter fun entry => entry.topic != a.topic) covered :=
    fun capture hmem => h.spanned capture (mem_of_mem_filter hmem)
  cases hexit with
  | denied reason => exact h.of_steady (deny_steady h.whole.kept a reason)
  | held hheld _ => exact h.of_steady (landHeld_steady setup h.whole.kept hheld).2
  | recovered capture hheld hfind =>
    obtain ⟨htopic, hperm⟩ := perm_of_find h.keyed hfind
    have hmem : capture ∈ handle := hperm.mem_iff.mpr (.head _)
    have hspans := h.spanned capture hmem (htopic ▸ hheld)
    rw [htopic] at hspans
    refine ⟨h.whole.landRecovered hheld htopic hspans, h.keyed, ?_⟩
    obtain ⟨hack, hsteady⟩ := landHeld_steady setup h.whole.kept hheld
    have hspanned' := h.spanned.of_steady hsteady
    rw [Subscribe.landRecovered, if_pos hack]
    exact hspanned'
  | refused reason _ => exact h.of_steady (refuse_steady h.whole.kept a reason)
  | revoked entry _ _ hrefused => exact h.of_steady (landFresh_steady h.whole.kept hrefused)
  | fresh entry hfree _ hfind hinstalled =>
    cases entry with
    | none =>
      obtain ⟨hkept, hcut, live, extra, hlands⟩ := landFresh_plain h.whole.kept hinstalled
      refine ⟨?_, hkeyed, hspanned.lands hlands hother⟩
      rw [filter_of_find_none hfind]
      exact h.whole.lands live extra (of_decide_eq_false hfree) hkept (hcut ▸ h.whole.buffered)
        hlands
    | some capture =>
      obtain ⟨htopic, hperm⟩ := perm_of_find h.keyed hfind
      have hwhole := h.whole.perm (hperm.append_right open_)
      obtain ⟨hkept, live, extra, hlands, hcut⟩ := landFresh_flushed h.whole.kept
        (hwhole.buffered.captured capture (.head _)) htopic hinstalled
      have hsent : Buffered { c.cut with received := c.cut.received ++ extra } (capture :: _) :=
        hwhole.buffered.congr rfl rfl rfl rfl
      exact ⟨hwhole.lands live extra (of_decide_eq_false hfree) hkept (hcut ▸ hsent.unregister)
        hlands, hkeyed, hspanned.lands hlands hother⟩

theorem Landing.batchLand (attempts : List BatchAttempt) (h : Landing c handle open_ covered) :
    Landing (batchLand setup gate covered answers attempts handle c).2.2
      (batchLand setup gate covered answers attempts handle c).2.1 open_ covered := by
  induction attempts generalizing c handle with
  | nil => exact h
  | cons b rest ih =>
    have hone := h.batchExit
      (batchLandOne_exit setup gate b handle covered answers)
    rw [Connection.batchLand]
    split
    · exact hone
    · exact ih hone

theorem Landing.batchFinish (attempts : List BatchAttempt) (h : Landing c handle open_ covered) :
    Whole (c.batchFinish setup attempts handle gate covered answers).1 open_ :=
  Whole.discard _ (h.batchLand attempts).whole

theorem enrolBatch_steady (topics : List (String × Bool)) (h : Kept c.ud) :
    Steady c (enrolBatch topics c).2 := by
  induction topics generalizing c with
  | nil => exact ⟨h, rfl, rfl, rfl, rfl, rfl⟩
  | cons p rest ih =>
    have hrest := ih (begin_steady h p.1).kept
    exact ⟨hrest.kept, hrest.subscriptions, hrest.cut, hrest.liveSince, hrest.recovered,
      hrest.flushClosed⟩

/-! ## The machine -/

/-- The captures in flight on a connection. -/
def Lanes.captures (l : Lanes) : List CaptureEntry := l.activations.flatMap Activation.captures

/-- An activation holds at most one capture of a topic, and the wire lane the one of its own. -/
def Activation.Keyed : Activation → Prop
  | .wireResume attempt capture => capture.topic = attempt.topic
  | .batchResume _ captures _ => (captures.map CaptureEntry.topic).Nodup
  | _ => True

/-- The invariant of the machine. -/
structure Lanes.Whole (l : Lanes) : Prop where
  whole : Subscribe.Whole l.conn l.captures
  keyed : ∀ activation ∈ l.activations, activation.Keyed

/-- The subscribe lanes and the publishes. -/
def Event.inCutover : Event → Bool
  | .wireSubscribe _ _ _ => true
  | .batchSubscribe _ _ _ => true
  | .platformSubscribe _ => true
  | .hookReturns _ _ _ _ => true
  | .resumeReturns _ _ _ _ => true
  | .publish _ _ _ => true
  | .ends => true
  | _ => false

/-- The captures whose resume hook settles, each with the watermark the hook reports. -/
def Event.resumed (l : Lanes) : Event → List (CaptureEntry × Option ℤ)
  | .resumeReturns i covered _ _ =>
    ((l.activations[i]?.map Activation.captures).getD []).map fun capture =>
      (capture, covered capture.topic)
  | _ => []

/-- Where a resume hook settles on a topic that is held, every frame published since its capture
was opened and before the publish the membership answers from is covered by the watermark. -/
def SpansCapture (l : Lanes) (e : Event) : Prop :=
  ∀ p ∈ e.resumed l, l.conn.holds p.1.topic = true → Spans l.conn p.1 (p.1.floor p.2)

/-- The steps of the runs the statement is about. -/
def InCutover (_ : Lanes) (e : Event) : Prop := e.inCutover = true

/-- The steps of the domain that meet the condition. -/
def InSpannedCutover (l : Lanes) (e : Event) : Prop := InCutover l e ∧ SpansCapture l e

instance (l : Lanes) (e : Event) : Decidable (InCutover l e) :=
  inferInstanceAs (Decidable (_ = true))

instance (l : Lanes) (e : Event) : Decidable (InSpannedCutover l e) := by
  unfold InSpannedCutover SpansCapture
  infer_instance

theorem Lanes.Whole.put {i : ℕ} {f : Activation → Option (Connection × Activation)}
    (h : l.Whole)
    (hsettles : ∀ activation left open_, l.activations[i]? = some activation →
      Subscribe.Whole l.conn (activation.captures ++ open_) → activation.Keyed →
        f activation = some left →
          Subscribe.Whole left.1 (left.2.captures ++ open_) ∧ left.2.Keyed)
    (hs : (l.activations[i]?.bind f).map (l.put i) = some l') : l'.Whole := by
  obtain ⟨left, hleft, rfl⟩ := Option.map_eq_some_iff.mp hs
  obtain ⟨activation, hi, hf⟩ := Option.bind_eq_some_iff.mp hleft
  have hlt := (List.getElem?_eq_some_iff.mp hi).1
  obtain ⟨hwhole, hkeyed⟩ := hsettles activation left _ hi
    (h.whole.perm (Lanes.flatMap_perm _ hi)) (h.keyed activation (mem_of_getElem? hi)) hf
  refine ⟨hwhole.perm (Lanes.flatMap_put _ left hlt).symm, ?_⟩
  intro other hother
  rcases mem_or_eq_of_mem_set hother with hother | rfl
  · exact h.keyed other hother
  · exact hkeyed

theorem Lanes.Whole.spawn {entered : Connection × Activation} (h : l.Whole)
    (hwhole : Subscribe.Whole entered.1 (entered.2.captures ++ l.captures))
    (hkeyed : entered.2.Keyed) : (l.spawn entered).Whole := by
  refine ⟨hwhole.perm (Lanes.flatMap_spawn _ entered).symm, ?_⟩
  intro activation hmem
  rcases mem_concat.mp hmem with hmem | rfl
  · exact h.keyed activation hmem
  · exact hkeyed

theorem whole_hookReturns {activation : Activation} {denials : ℕ → Option String}
    {before : String → ℕ} (h : Whole c (activation.captures ++ open_))
    (hs : hookReturns setup c denials gate before activation = some left) :
    Whole left.1 (left.2.captures ++ open_) ∧ left.2.Keyed := by
  cases activation with
  | wireHook attempt recovers =>
    cases hs
    have hexit : WireHookExit setup c attempt recovers before
        (c.wireHookReturns setup attempt recovers (denials 0) gate before) :=
      wireHookReturns_exit (denials 0)
    refine ⟨Whole.wireHookExit h hexit, ?_⟩
    generalize c.wireHookReturns setup attempt recovers (denials 0) gate before = left at hexit ⊢
    cases hexit with
    | awaitsResume _ => rfl
    | denied _ => trivial
    | held _ => trivial
    | refused _ _ => trivial
    | fresh _ _ => trivial
  | platformHook attempt =>
    cases hs
    exact ⟨Whole.platformExit h (platformHookReturns_exit (denials 0)), trivial⟩
  | batchHook attempts recovers userHook =>
    cases hs
    rw [Connection.batchHookReturns]
    dsimp only
    split
    · have hlanding : Landing c [] open_ fun _ => none :=
        ⟨h, nodup_nil, fun capture hmem => by cases hmem⟩
      exact ⟨hlanding.batchFinish _, trivial⟩
    · refine ⟨h.of_buffers (h.buffered.beginResumeCapture before _) (received_begin _ _ _)
        (published_begin _ _ _), ?_⟩
      rw [Activation.Keyed, map_topic_begin]
      exact nodup_dedup _
  | wireResume attempt capture => cases hs
  | batchResume attempts capture userHook => cases hs
  | returned unsettled => cases hs

theorem whole_resumeReturns {activation : Activation} (h : Whole c (activation.captures ++ open_))
    (hkeyed : activation.Keyed) (hspanned : Spanned c activation.captures covered)
    (hs : resumeReturns setup c covered gate answers activation = some left) :
    Whole left.1 (left.2.captures ++ open_) ∧ left.2.Keyed := by
  cases activation with
  | wireResume attempt capture =>
    cases hs
    exact ⟨Whole.wireResumeExit h hkeyed hspanned (wireResumeReturns_exit _ _), trivial⟩
  | batchResume attempts capture userHook =>
    cases hs
    exact ⟨Landing.batchFinish attempts ⟨h, hkeyed, hspanned⟩, trivial⟩
  | wireHook attempt recovers => cases hs
  | platformHook attempt => cases hs
  | batchHook attempts recovers userHook => cases hs
  | returned unsettled => cases hs

theorem whole_wireSubscribe (setup : Setup) (gate : Gate) (h : Whole c open_) (topic : String)
    (recovers : Bool) :
    Whole (c.wireSubscribe setup topic recovers gate).1
      ((c.wireSubscribe setup topic recovers gate).2.captures ++ open_) ∧
      (c.wireSubscribe setup topic recovers gate).2.Keyed := by
  have hanswer (reason : Option String) := h.of_steady (answer_steady h.kept topic reason)
  rw [Connection.wireSubscribe]
  split
  · exact ⟨hanswer _, trivial⟩
  · split
    · exact ⟨hanswer _, trivial⟩
    · split
      · exact ⟨hanswer _, trivial⟩
      · exact ⟨h.of_steady (begin_steady h.kept topic), trivial⟩

theorem whole_platformSubscribe (h : Whole c open_) (topic : String) :
    Whole (c.platformSubscribe topic).1 ((c.platformSubscribe topic).2.captures ++ open_) ∧
      (c.platformSubscribe topic).2.Keyed := by
  have hanswer (reason : Option String) := h.of_steady (answer_steady h.kept topic reason)
  rw [Connection.platformSubscribe]
  split
  · exact ⟨hanswer _, trivial⟩
  · split
    · exact ⟨hanswer _, trivial⟩
    · split
      · exact ⟨hanswer _, trivial⟩
      · exact ⟨h.of_steady (begin_steady h.kept topic), trivial⟩

theorem whole_batchSubscribe (setup : Setup) (gate : Gate) (h : Whole c open_)
    (topics recovers : List String) :
    Whole (c.batchSubscribe setup topics recovers gate).1
      ((c.batchSubscribe setup topics recovers gate).2.captures ++ open_) ∧
      (c.batchSubscribe setup topics recovers gate).2.Keyed := by
  obtain ⟨answers, enrolling, -, heq⟩ :=
    batchSubscribe_eq setup gate c topics recovers
  rw [heq]
  have hanswered : Steady c { c with answers := answers } := ⟨h.kept, rfl, rfl, rfl, rfl, rfl⟩
  have hwhole := h.of_steady hanswered
  exact ⟨hwhole.of_steady (enrolBatch_steady enrolling hwhole.kept), trivial⟩

theorem Lanes.Whole.step {e : Event} (h : l.Whole) (hin : InCutover l e) (hspans : SpansCapture l e)
    (hs : Subscribe.step setup l e = some l') : l'.Whole := by
  cases e with
  | wireSubscribe topic recovers gate =>
    cases hs
    obtain ⟨hwhole, hkeyed⟩ := whole_wireSubscribe setup gate h.whole topic recovers
    exact h.spawn hwhole hkeyed
  | batchSubscribe topics recovers gate =>
    cases hs
    obtain ⟨hwhole, hkeyed⟩ := whole_batchSubscribe setup gate h.whole topics recovers
    exact h.spawn hwhole hkeyed
  | platformSubscribe topic =>
    cases hs
    obtain ⟨hwhole, hkeyed⟩ := whole_platformSubscribe h.whole topic
    exact h.spawn hwhole hkeyed
  | hookReturns i denials gate before =>
    exact h.put (fun _ _ _ _ hwhole _ hf => whole_hookReturns hwhole hf) hs
  | resumeReturns i covered gate answers =>
    refine h.put (fun activation _ _ hi hwhole hkeyed hf => ?_) hs
    have hspanned : Spanned l.conn activation.captures covered := by
      intro capture hmem
      apply hspans (capture, covered capture.topic)
      rw [Event.resumed, hi]
      exact mem_map_of_mem hmem
    exact whole_resumeReturns hwhole hkeyed hspanned hf
  | publish topic seq taken =>
    cases hs
    refine ⟨h.whole.publish topic seq _ fun hreaches => ?_, h.keyed⟩
    rw [Bool.and_eq_true] at hreaches
    exact of_decide_eq_true hreaches.2
  | ends =>
    cases hs
    exact ⟨h.whole.of_steady ⟨h.whole.kept, rfl, rfl, rfl, rfl, rfl⟩, h.keyed⟩
  | hookInstalls i topic => cases hin
  | trackedSubscribe topic => cases hin
  | trackedUnsubscribe topic => cases hin
  | releaseSubscription topic => cases hin
  | platformUnsubscribe topic => cases hin
  | unsubscribeFrame topic => cases hin

theorem Lanes.Whole.init : (lanes setup).init.Whole where
  whole :=
    { kept := fun t ht => by cases ht
      buffered := ⟨.refl _, fun entry he => by cases he⟩
      live := .inr fun t ht => by cases ht
      increasing := fun t => List.Pairwise.nil
      bounded := fun t n hn => by cases hn
      silent := fun t _ => rfl
      recovered := fun r hr => by cases hr }
  keyed activation hmem := by cases hmem

/-! ## Every run -/

/-- No answered recovery left a gap, every topic reached the client in publish order and at most
once, and every capture buffer was unregistered once or is in the handle of one lane in flight. -/
structure CutsOver (l : Lanes) : Prop where
  noGap : ∀ r ∈ l.conn.recovered, NoGap l.conn r
  ordered : ∀ topic, (envelopes topic l.conn.cut.received).Pairwise (· < ·)
  handles : (l.conn.cut.unregistered ++ l.captures.map CaptureEntry.buffer).Perm
    (List.range l.conn.cut.nextBuffer)

theorem cutsOver {es : List Event}
    (h : (lanes setup).ReachesWhere InSpannedCutover es l) :
    CutsOver l := by
  have hwhole : l.Whole := h.invariant (I := Lanes.Whole) Lanes.Whole.init
    fun _ _ _ hl hok hs => hl.step hok.1 hok.2 hs
  exact ⟨fun r hr => (hwhole.whole.recovered r hr).2, hwhole.whole.increasing,
    hwhole.whole.buffered.handles⟩

/-! ## Runs -/

/-- A recovering subscribe is overtaken by a plain one: a publish falls between its capture and the
membership, another after it. -/
def overtakenRun (covered : Option ℤ) : List Event :=
  [.wireSubscribe "room" true openGate, .wireSubscribe "room" false openGate,
    .hookReturns 0 allows openGate fun _ => 0, .publish "room" (some 1) true,
    .hookReturns 1 allows openGate fun _ => 0, .publish "room" (some 2) true,
    .resumeReturns 0 (fun _ => covered) openGate fun _ => []]

/-- The watermark covers the publish before the membership. -/
theorem cutsOver_overtakenRun :
    ∃ l, CutsOver l ∧ l.conn.cut.received = [.envelope "room" 1] := by
  obtain ⟨l, hl, hreceived⟩ : ∃ l,
      (lanes noPlugins).ReachesWhere InSpannedCutover (overtakenRun (some 1)) l ∧
      decide (l.conn.cut.received = [.envelope "room" 1]) = true :=
    Machine.exists_of_execWhere (by decide)
  exact ⟨l, cutsOver hl, of_decide_eq_true hreceived⟩

/-- Some answered recovery left a gap. -/
def leavesGap (l : Lanes) : Bool := l.conn.recovered.any fun r => !decide (NoGap l.conn r)

/-- The resume hook covered nothing of the window: the publish before the membership is lost. -/
theorem gap_overtakenRun :
    ¬ ∀ es l, (lanes noPlugins).ReachesWhere InCutover es l → CutsOver l := by
  intro h
  obtain ⟨l, hl, hgap⟩ : ∃ l, (lanes noPlugins).ReachesWhere InCutover (overtakenRun none) l ∧
      leavesGap l = true :=
    Machine.exists_of_execWhere (by decide)
  obtain ⟨r, hr, hlost⟩ := any_eq_true.mp hgap
  simp only [Bool.not_eq_true', decide_eq_false_iff_not] at hlost
  exact hlost ((h _ l hl).noGap r hr)

end AdapterWs.Subscribe
