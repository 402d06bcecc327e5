import Mathlib.Data.List.Perm.Basic
import AdapterWs.Subscribe.ObserverLanding

/-!
# Observer taps and revocations

A handshake is enrolled under the topic until it lands, so a revocation that comes before its
landing cancels it. After its landing the handshake is one more job, which no entry stands for:
a revocation that runs while this job is in the queue takes the taps that are there, and the job
installs its own afterwards. In a run where no revocation meets such a job, no tap survives a
revocation.
-/

namespace AdapterWs.Subscribe

open Connection List Observing

variable {o : Observers} {held : JsSet String} {s s' : Observing} {topic topic' : String}
  {tap tap' : Tap} {h : Handshake} {live live' granted granted' : List Handshake}

/-! ## Names -/

theorem startsWith_derived (tap : Tap) (topic : String) :
    (tap.derived topic).startsWith "__" = true := by
  rw [String.startsWith_string_iff, Tap.derived, String.toList_append]
  cases tap with
  | cursor => exact ⟨"cursor:".toList ++ topic.toList, rfl⟩
  | presence => exact ⟨"presence:".toList ++ topic.toList, rfl⟩

theorem derived_inj : tap.derived topic = tap'.derived topic' ↔ tap = tap' ∧ topic = topic' := by
  constructor
  · intro heq
    have hlist : tap.TOPIC_PREFIX.toList ++ topic.toList =
        tap'.TOPIC_PREFIX.toList ++ topic'.toList := by
      rw [← String.toList_append, ← String.toList_append]
      exact congrArg String.toList heq
    cases tap with
    | cursor =>
      cases tap' with
      | cursor => exact ⟨rfl, String.toList_injective (append_cancel_left hlist)⟩
      | presence => cases hlist
    | presence =>
      cases tap' with
      | cursor => cases hlist
      | presence => exact ⟨rfl, String.toList_injective (append_cancel_left hlist)⟩
  · rintro ⟨rfl, rfl⟩
    rfl

/-- The taps of a topic that is not internal are swept with it. -/
theorem derived_mem_derivedTopics (o : Observers) (tap : Tap)
    (htopic : topic.startsWith "__" = false) :
    tap.derived topic ∈ derivedTopics o.setup topic := by
  refine mem_map.mpr ⟨tap.TOPIC_PREFIX, mem_filter.mpr ⟨o.registered tap, ?_⟩, rfl⟩
  rw [Bool.not_eq_true', String.startsWith_string_eq_false_iff]
  rw [String.startsWith_string_eq_false_iff] at htopic
  intro hstarts
  apply htopic
  refine List.IsPrefix.trans ?_ hstarts
  cases tap with
  | cursor => exact ⟨"cursor:".toList, rfl⟩
  | presence => exact ⟨"presence:".toList, rfl⟩

/-! ## What is claimed -/

/-- No tap survives a revocation of its topic. -/
structure TapsRevoked (s : Observing) : Prop where
  /-- No tap was installed by a handshake that began before a revocation that had returned. -/
  installs : ∀ i ∈ s.installs, i.begunAt = i.installedAt
  /-- A tap of a revoked topic was installed after the last revocation of the topic. -/
  gone : ∀ tap topic, topic.startsWith "__" = false → topic ∈ s.unsubscribed →
    tap.derived topic ∈ s.conn.ud.subscriptions →
      ∃ i ∈ s.installs, i.tap = tap ∧ i.topic = topic ∧ i.installedAt = s.unsubscribes topic

/-- The handshake of a job that has yet to land. -/
def Job.landing : Job → Option Handshake
  | .authorized h _ => some h
  | _ => none

/-- The handshake of a job that may install its tap. -/
def Job.allowed : Job → Option Handshake
  | .resumed h true => some h
  | _ => none

/-- The handshakes that have yet to land. -/
def Observing.inFlight (s : Observing) : List Handshake := s.parked ++ s.jobs.filterMap Job.landing

/-- The handshakes that were allowed and have yet to install their tap. -/
def Observing.allowed (s : Observing) : List Handshake := s.jobs.filterMap Job.allowed

/-- The next job revokes a topic that an allowed handshake is about to install a tap of. -/
def Observing.overtakes (s : Observing) : ObserveEvent → Bool
  | .run =>
    match s.jobs.head? with
    | some (.unsubscribe topic) => s.allowed.any fun h => h.topic == topic
    | _ => false
  | _ => false

/-- No revocation runs between the landing of a handshake and the job that installs its tap. -/
def NotOvertaken (s : Observing) (e : ObserveEvent) : Prop := s.overtakes e = false

instance (s : Observing) (e : ObserveEvent) : Decidable (NotOvertaken s e) :=
  inferInstanceAs (Decidable (_ = false))

/-! ## The invariant -/

/-- The connection, the handshakes that have yet to land and those that are allowed agree. -/
structure Observed (s : Observing) (live granted : List Handshake) : Prop where
  enrolled : Enrolled s.conn.ud s.conn.audit.revoked (live.map Handshake.attempt)
  /-- Every revocation since a handshake began is one its attempt has to answer for. -/
  begun : ∀ h ∈ live, h.begunAt ≤ s.unsubscribes h.topic ∧
    s.unsubscribes h.topic + h.attempt.revocations ≤ s.conn.revocations h.topic + h.begunAt
  /-- On an open socket no topic is held that was revoked. -/
  standing : s.conn.isOpen = true → ∀ topic, topic.startsWith "__" = false →
    topic ∈ s.conn.ud.subscriptions → s.unsubscribes topic = 0
  observable : ∀ h ∈ live ++ granted, h.topic.startsWith "__" = false
  /-- On an open socket no revocation came since an allowed handshake began. -/
  allowed : s.conn.isOpen = true → ∀ h ∈ granted, h.begunAt = s.unsubscribes h.topic
  revoked : TapsRevoked s

/-- The order of the handshakes does not matter, nor what is parked or queued. -/
theorem Observed.congr (hs : Observed s live granted) (hlive : live.Perm live')
    (hallowed : ∀ h ∈ granted', h ∈ granted) (hconn : s'.conn = s.conn)
    (hunsubscribed : s'.unsubscribed = s.unsubscribed) (hinstalls : s'.installs = s.installs) :
    Observed s' live' granted' := by
  cases s with
  | mk conn parked jobs unsubscribed installs =>
    cases s' with
    | mk conn' parked' jobs' unsubscribed' installs' =>
      cases hconn
      cases hunsubscribed
      cases hinstalls
      refine ⟨hs.enrolled.perm (hlive.map _), ?_, hs.standing, ?_, ?_, ?_⟩
      · exact fun h hh => hs.begun h (hlive.mem_iff.mpr hh)
      · intro h hh
        apply hs.observable h
        rcases mem_append.mp hh with hh | hh
        · exact mem_append_left _ (hlive.mem_iff.mpr hh)
        · exact mem_append_right _ (hallowed h hh)
      · exact fun ho h hh => hs.allowed ho h (hallowed h hh)
      · exact ⟨hs.revoked.installs, hs.revoked.gone⟩

theorem Observed.idle (held : JsSet String) : Observed (idle held) [] [] where
  enrolled := Enrolled.empty.congr rfl rfl
  begun h hh := by cases hh
  standing _ _ _ _ := rfl
  observable h hh := by cases hh
  allowed _ h hh := by cases hh
  revoked := by
    constructor
    · intro i hi
      cases hi
    · intro _ _ _ hmem
      cases hmem

/-! ## One job -/

theorem Observed.observe (hs : Observed s s.inFlight s.allowed) (tap : Tap) (topic : String) :
    Observed (s.observe tap topic) (s.observe tap topic).inFlight (s.observe tap topic).allowed := by
  rw [Observing.observe]
  split
  · exact hs
  · next hobservable =>
    split
    · exact hs
    · have hinternal : topic.startsWith "__" = false := by
        simp only [isObservable, Bool.not_eq_true', Bool.not_eq_false, Bool.and_eq_true]
          at hobservable
        exact hobservable.1
      have hnew : Observed { s with conn := (s.conn.begin topic).2 }
          ({ tap := tap
             attempt := (s.conn.begin topic).1
             begunAt := s.unsubscribes topic } :: s.inFlight) s.allowed := by
        refine ⟨hs.enrolled.begin topic (s.conn.holds topic), ?_, hs.standing, ?_, hs.allowed,
          ⟨hs.revoked.installs, hs.revoked.gone⟩⟩
        · intro h hh
          rcases mem_cons.mp hh with rfl | hh
          · exact ⟨le_rfl, le_of_eq (add_comm _ _)⟩
          · exact hs.begun h hh
        · intro h hh
          rcases mem_cons.mp hh with rfl | hh
          · exact hinternal
          · exact hs.observable h hh
      refine hnew.congr ?_ (fun h hh => hh) rfl rfl rfl
      rw [inFlight, inFlight, append_assoc]
      exact perm_middle.symm

/-- A revocation that meets no allowed handshake of its topic. -/
theorem Observed.unsubscribe (hs : Observed s live granted) (topic : String)
    (hmeets : ∀ h ∈ granted, h.topic ≠ topic) :
    Observed (s.unsubscribe o topic) live granted := by
  have hwithdrawn := withdrawn_platformUnsubscribe o.setup s.conn topic
  have htombstoned := withdrawn_tombstone s.conn topic
  have hcount (topic' : String) : (s.unsubscribe o topic).unsubscribes topic' =
      s.unsubscribes topic' + if topic = topic' then 1 else 0 := by
    rw [Observing.unsubscribes, Observing.unsubscribe, count_append, count_singleton]
    simp [unsubscribes]
  have hkeeps (topic' : String)
      (hmem : topic' ∈ (s.conn.platformUnsubscribe o.setup topic).ud.subscriptions) :
      topic' ∈ s.conn.ud.subscriptions :=
    htombstoned.subset topic' (hwithdrawn.subset topic' hmem)
  have hopen (ho : (s.unsubscribe o topic).conn.isOpen = true) : s.conn.isOpen = true :=
    hwithdrawn.isOpen.symm.trans ho
  refine ⟨?_, ?_, ?_, hs.observable, ?_, hs.revoked.installs, ?_⟩
  · exact hwithdrawn.enrolled _ (htombstoned.enrolled _ hs.enrolled)
  · intro h hh
    have hrevoked := hwithdrawn.revocations h.topic
    rw [revocations_tombstone] at hrevoked
    have hbegun := hs.begun h hh
    change h.begunAt ≤ (s.unsubscribe o topic).unsubscribes h.topic ∧
      (s.unsubscribe o topic).unsubscribes h.topic + h.attempt.revocations ≤
        (s.conn.platformUnsubscribe o.setup topic).revocations h.topic + h.begunAt
    rw [hcount]
    omega
  · intro ho topic' hinternal hmem
    have hne : topic ≠ topic' := by
      rintro rfl
      exact not_mem_platformUnsubscribe (hopen ho) o.setup topic hmem
    rw [hcount, if_neg hne]
    exact hs.standing (hopen ho) topic' hinternal (hkeeps topic' hmem)
  · intro ho h hh
    rw [hcount, if_neg (Ne.symm (hmeets h hh))]
    exact hs.allowed (hopen ho) h hh
  · intro tap topic' hinternal hrevoked hmem
    have hne : topic ≠ topic' := by
      rintro rfl
      exact not_mem_platformUnsubscribe_derived (derived_mem_derivedTopics o tap hinternal) _ hmem
    have hold : topic' ∈ s.unsubscribed := by
      rcases mem_append.mp hrevoked with hold | hnew
      · exact hold
      · exact absurd (mem_singleton.mp hnew).symm hne
    rw [hcount, if_neg hne]
    exact hs.revoked.gone tap topic' hinternal hold (hkeeps _ hmem)

/-- A landing allows a tap only where no revocation came since the handshake began. -/
theorem Observed.land (hs : Observed s (h :: live) granted) (denied : Bool) :
    Observed (s.land o h denied) live
      (granted ++ ([.resumed h (s.conn.authorizeDerivedSubscribe o.setup h.attempt denied).1] :
        List Job).filterMap Job.allowed) := by
  have hlanded : Landed s.conn h.attempt (live.map Handshake.attempt)
      (s.conn.authorizeDerivedSubscribe o.setup h.attempt denied) :=
    landed_authorizeDerivedSubscribe hs.enrolled denied
  have hnew (h' : Handshake)
      (hh : h' ∈ ([.resumed h (s.conn.authorizeDerivedSubscribe o.setup h.attempt denied).1] :
        List Job).filterMap Job.allowed) :
      h' = h ∧ (s.conn.authorizeDerivedSubscribe o.setup h.attempt denied).1 = true := by
    cases hanswer : (s.conn.authorizeDerivedSubscribe o.setup h.attempt denied).1 with
    | false =>
      rw [hanswer] at hh
      cases hh
    | true =>
      rw [hanswer] at hh
      exact ⟨mem_singleton.mp hh, rfl⟩
  refine ⟨hlanded.enrolled, ?_, ?_, ?_, ?_, hs.revoked.installs, ?_⟩
  · intro h' hh
    have hbegun := hs.begun h' (mem_cons_of_mem h hh)
    exact ⟨hbegun.1, le_trans hbegun.2 (Nat.add_le_add_right (hlanded.revocations _) _)⟩
  · intro ho topic hinternal hmem
    exact hs.standing (hlanded.isOpen.symm.trans ho) topic hinternal (hlanded.subset topic hmem)
  · intro h' hh
    rcases mem_append.mp hh with hh | hh
    · exact hs.observable h' (mem_append_left _ (mem_cons_of_mem h hh))
    · rcases mem_append.mp hh with hh | hh
      · exact hs.observable h' (mem_append_right _ hh)
      · rw [(hnew h' hh).1]
        exact hs.observable h (mem_append_left _ (.head _))
  · intro ho h' hh
    have hopen : s.conn.isOpen = true := hlanded.isOpen.symm.trans ho
    rcases mem_append.mp hh with hh | hh
    · exact hs.allowed hopen h' hh
    · obtain ⟨rfl, hanswer⟩ := hnew h' hh
      have hinternal := hs.observable h' (mem_append_left _ (.head _))
      obtain ⟨hle, hanswers⟩ := hs.begun h' (.head _)
      change h'.begunAt = s.unsubscribes h'.topic
      rcases hlanded.allowed hanswer with hheld | hcurrent
      · have hzero := hs.standing hopen h'.topic hinternal hheld
        omega
      · rw [Handshake.topic] at hle hanswers ⊢
        omega
  · intro tap topic hinternal hrevoked hmem
    exact hs.revoked.gone tap topic hinternal hrevoked (hlanded.subset _ hmem)

theorem Observed.install (hs : Observed s live granted) (hh : h ∈ granted) :
    Observed (s.resume h true) live granted := by
  rw [resume, Bool.true_and]
  split
  · next hsubscribes =>
    simp only [subscribes, Bool.and_eq_true, Bool.not_eq_true'] at hsubscribes
    obtain ⟨hcap, ho⟩ := hsubscribes
    have hinternal := hs.observable h (mem_append_right _ hh)
    have hsubs : s.conn.trackedSubscribe (h.tap.derived h.topic) =
        { s.conn with ud := addLogical s.conn.ud (h.tap.derived h.topic) } := by
      rw [trackedSubscribe, if_neg (by simp [hcap]), if_neg (by simp [ho])]
    rw [hsubs]
    refine ⟨hs.enrolled.congr rfl rfl, hs.begun, ?_, hs.observable, hs.allowed, ?_, ?_⟩
    · intro _ topic happ hmem
      rcases JsSet.mem_add.mp hmem with rfl | hmem
      · rw [startsWith_derived] at happ
        cases happ
      · exact hs.standing ho topic happ hmem
    · intro i hi
      rcases mem_concat.mp hi with hi | rfl
      · exact hs.revoked.installs i hi
      · exact hs.allowed ho h hh
    · intro tap topic happ hrevoked hmem
      rcases JsSet.mem_add.mp hmem with heq | hmem
      · obtain ⟨rfl, rfl⟩ := derived_inj.mp heq
        exact ⟨_, mem_concat_self, rfl, rfl, rfl⟩
      · obtain ⟨i, hi, hinstalled⟩ := hs.revoked.gone tap topic happ hrevoked hmem
        exact ⟨i, mem_append_left _ hi, hinstalled⟩
  · exact hs

/-! ## The machine -/

theorem Observed.run {job : Job} {rest : List Job} (hs : Observed s s.inFlight s.allowed)
    (hjobs : s.jobs = job :: rest) (hmeets : NotOvertaken s .run) :
    Observed (({ s with jobs := rest } : Observing).run o job)
      (({ s with jobs := rest } : Observing).run o job).inFlight
      (({ s with jobs := rest } : Observing).run o job).allowed := by
  rw [Observing.inFlight, Observing.allowed, hjobs] at hs
  cases job with
  | observe tap topic =>
    have hpopped : Observed { s with jobs := rest } (s.parked ++ rest.filterMap Job.landing)
        (rest.filterMap Job.allowed) := hs.congr (.refl _) (fun _ hh => hh) rfl rfl rfl
    exact Observed.observe hpopped tap topic
  | unsubscribe topic =>
    have hpopped : Observed { s with jobs := rest } (s.parked ++ rest.filterMap Job.landing)
        (rest.filterMap Job.allowed) := hs.congr (.refl _) (fun _ hh => hh) rfl rfl rfl
    apply hpopped.unsubscribe topic
    intro h hh ht
    rw [NotOvertaken, Observing.overtakes, Observing.allowed, hjobs] at hmeets
    have hnone := any_eq_false.mp hmeets h hh
    exact hnone (beq_iff_eq.mpr ht)
  | authorized h denied =>
    have hpopped : Observed { s with jobs := rest }
        (h :: (s.parked ++ rest.filterMap Job.landing)) (rest.filterMap Job.allowed) :=
      hs.congr perm_middle (fun _ hh => hh) rfl rfl rfl
    refine (hpopped.land denied).congr ?_ ?_ rfl rfl rfl
    · change List.Perm _ (s.parked ++ (rest ++ [_]).filterMap Job.landing)
      have hlast (answer : Bool) : [Job.resumed h answer].filterMap Job.landing = [] := rfl
      rw [filterMap_append, hlast, append_nil]
    · intro h' hh
      change h' ∈ (rest ++ [_]).filterMap Job.allowed at hh
      rwa [filterMap_append] at hh
  | resumed h allowed =>
    cases allowed with
    | false => exact hs.congr (.refl _) (fun _ hh => hh) rfl rfl rfl
    | true =>
      have hpopped : Observed { s with jobs := rest }
          (s.parked ++ rest.filterMap Job.landing) (h :: rest.filterMap Job.allowed) :=
        hs.congr (.refl _) (fun _ hh => hh) rfl rfl rfl
      have hqueues : (({ s with jobs := rest } : Observing).resume h true).parked = s.parked ∧
          (({ s with jobs := rest } : Observing).resume h true).jobs = rest := by
        rw [resume]
        split <;> exact ⟨rfl, rfl⟩
      change Observed (({ s with jobs := rest } : Observing).resume h true)
        ((({ s with jobs := rest } : Observing).resume h true).parked ++
          (({ s with jobs := rest } : Observing).resume h true).jobs.filterMap Job.landing)
        ((({ s with jobs := rest } : Observing).resume h true).jobs.filterMap Job.allowed)
      rw [hqueues.1, hqueues.2]
      exact (hpopped.install (.head _)).congr (.refl _)
        (fun _ hh => mem_cons_of_mem h hh) rfl rfl rfl

/-- A queued call is neither a landing nor an allowed handshake. -/
theorem Observed.enqueue {job : Job} (hs : Observed s s.inFlight s.allowed)
    (hlanding : job.landing = none) (hallowed : job.allowed = none) :
    Observed (s.enqueue job) (s.enqueue job).inFlight (s.enqueue job).allowed := by
  refine hs.congr ?_ ?_ rfl rfl rfl
  · rw [Observing.inFlight, Observing.inFlight, Observing.enqueue, filterMap_append]
    simp [hlanding]
  · intro h hh
    rw [Observing.allowed, Observing.enqueue, filterMap_append] at hh
    simpa [hallowed, Observing.allowed] using hh

theorem Observed.step {e : ObserveEvent} (hs : Observed s s.inFlight s.allowed)
    (hmeets : NotOvertaken s e) (hstep : observeStep o s e = some s') :
    Observed s' s'.inFlight s'.allowed := by
  cases e with
  | observe tap topic =>
    cases hstep
    exact hs.enqueue rfl rfl
  | unsubscribe topic =>
    cases hstep
    exact hs.enqueue rfl rfl
  | settles i denied =>
    obtain ⟨h, hi, rfl⟩ := Option.map_eq_some_iff.mp hstep
    refine hs.congr ?_ ?_ rfl rfl rfl
    · have hlt := (List.getElem?_eq_some_iff.mp hi).1
      have hperm : s.parked.Perm (h :: s.parked.eraseIdx i) := by
        rw [← (List.getElem?_eq_some_iff.mp hi).2]
        exact (List.getElem_cons_eraseIdx_perm hlt).symm
      rw [Observing.inFlight, Observing.inFlight, Observing.enqueue, List.filterMap_append]
      refine (hperm.append_right _).trans ?_
      rw [← append_assoc]
      exact (perm_append_singleton h _).symm
    · intro h' hh
      rw [Observing.allowed, Observing.enqueue, filterMap_append] at hh
      simpa [Job.allowed, Observing.allowed] using hh
  | run =>
    rw [observeStep] at hstep
    split at hstep
    · cases hstep
    · next job rest hjobs =>
      cases hstep
      exact hs.run hjobs hmeets
  | ends =>
    cases hstep
    exact ⟨hs.enrolled, hs.begun, (fun ho => by cases ho), hs.observable, (fun ho => by cases ho),
      hs.revoked.installs, hs.revoked.gone⟩

/-! ## Every run -/

theorem tapsRevoked {es : List ObserveEvent}
    (hrun : (observing o held).ReachesWhere NotOvertaken es s) : TapsRevoked s := by
  have hobserved : Observed s s.inFlight s.allowed :=
    hrun.invariant (I := fun s => Observed s s.inFlight s.allowed) (Observed.idle held)
      fun _ _ _ => Observed.step
  exact hobserved.revoked

/-! ## Runs -/

/-- A surface with the two plugins and no other. -/
def bothPlugins : Observers where
  setup :=
    { pluginOwned := fun _ => false
      derivedTopicPrefixes := [Tap.cursor.TOPIC_PREFIX, Tap.presence.TOPIC_PREFIX] }
  registered tap := by cases tap <;> decide

/-- A tap is installed, the topic is revoked with a handshake in flight, and a handshake that
begins afterwards installs the tap again. -/
def revokedRun : List ObserveEvent :=
  [.observe .cursor "room", .run, .settles 0 false, .run, .run, .observe .presence "room", .run,
    .unsubscribe "room", .run, .settles 0 false, .run, .run, .observe .cursor "room", .run,
    .settles 0 false, .run, .run]

/-- The tap stands, and its topic was revoked once. -/
def standsAgain (s : Observing) : Bool :=
  decide (Tap.cursor.derived "room" ∈ s.conn.ud.subscriptions) &&
    decide (s.installs.map Install.installedAt = [0, 1])

theorem tapsRevoked_revokedRun : ∃ s, TapsRevoked s ∧ standsAgain s = true := by
  obtain ⟨s, hs, hstands⟩ :
      ∃ s, (observing bothPlugins JsSet.empty).ReachesWhere NotOvertaken revokedRun s ∧
        standsAgain s = true := Machine.exists_of_execWhere (by decide +kernel)
  exact ⟨s, tapsRevoked hs, hstands⟩

/-- The revocation is queued behind the landing of a handshake, and ahead of its caller. -/
def overtakenRevocationRun : List ObserveEvent :=
  [.observe .cursor "room", .run, .settles 0 false, .unsubscribe "room", .run, .run, .run]

/-- The tap stands, though the handshake began before the revocation. -/
def standsOvertaken (s : Observing) : Bool :=
  decide (Tap.cursor.derived "room" ∈ s.conn.ud.subscriptions) &&
    decide (s.installs = [{ tap := .cursor, topic := "room", begunAt := 0, installedAt := 1 }])

/-- The tap of a revoked handshake is installed after the revocation returned. -/
theorem not_tapsRevoked_overtakenRevocationRun :
    ∃ es s, (observing bothPlugins JsSet.empty).Reaches es s ∧ ¬ TapsRevoked s := by
  obtain ⟨s, hs, hstands⟩ : ∃ s, (observing bothPlugins JsSet.empty).Reaches overtakenRevocationRun s ∧
      standsOvertaken s = true := Machine.exists_of_exec (by decide +kernel)
  refine ⟨overtakenRevocationRun, s, hs, fun hrevoked => ?_⟩
  simp only [standsOvertaken, Bool.and_eq_true, decide_eq_true_eq] at hstands
  have hinstalled := hrevoked.installs _ (hstands.2 ▸ mem_cons_self)
  cases hinstalled

end AdapterWs.Subscribe
