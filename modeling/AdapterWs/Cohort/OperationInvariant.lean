import AdapterWs.Cohort.SessionInvariant

/-!
# Every operation keeps its connection's invariant

The operations of one connection, assembled from the join, the leave and the socket. Each one
that spares the cohorts keeps `Session.Ok` and moves the id table only by its own dues.
-/

namespace AdapterWs.Cohort

variable {c : Connection} {s s' s'' : Session} {topic topic' name : String}
  {shared : SharedTopics} {prefixes : List String} {egress : Egress}

/-- The topic is in the registry of shared topics. -/
abbrev IsShared (shared : SharedTopics) (topic : String) : Prop :=
  (shared.get topic).isSome = true

/-- The invariant of one connection beside the table. -/
structure Session.Ok (shared : SharedTopics) (s : Session) : Prop where
  accounted : Accounted s
  /-- No held topic has a cohort name. -/
  names : ∀ topic ∈ s.conn.subscriptions, isCohortTopic topic = false
  split : ∀ topic, SplitAt (IsShared shared topic) s.conn topic

/-- An operation kept the invariant and moved the table by its connection's own dues. -/
structure Kept (shared : SharedTopics) (s s' : Session) : Prop where
  ok : s'.Ok shared
  transfer : Transfer s s'

theorem Kept.refl (h : s.Ok shared) : Kept shared s s := ⟨h, .of_eq rfl rfl⟩

theorem Kept.trans (h : Kept shared s s') (h' : Kept shared s' s'') : Kept shared s s'' :=
  ⟨h'.ok, h.transfer.trans h'.transfer⟩

/-- A change of the connection that leaves every topic alone. -/
theorem Kept.of_sameAt (h : s.Ok shared) (hsame : ∀ topic, SameAt topic s.conn c)
    (hcohorts : c.sharedCohorts = s.conn.sharedCohorts)
    (hsubs : c.subscriptions = s.conn.subscriptions)
    (hannounced : c.announced = s.conn.announced) (hcut : c.CutClosed) :
    Kept shared s { s with conn := c } where
  ok :=
    { accounted := h.accounted.of_eq rfl hcohorts hannounced hcut
      names := by
        rw [hsubs]
        exact h.names
      split := fun topic => (h.split topic).of_sameAt (hsame topic) }
  transfer := .of_eq rfl hcohorts

/-! ## Installing a membership -/

/-- A connection on which a membership of `topic` was just installed. -/
structure Installed (shared : SharedTopics) (s : Session) (topic : String) : Prop where
  accounted : Accounted s
  names : ∀ topic ∈ s.conn.subscriptions, isCohortTopic topic = false
  ready : JoinReady s.conn topic
  unshared : ¬ IsShared shared topic → SplitAt (IsShared shared topic) s.conn topic
  others : ∀ topic', topic' ≠ topic → SplitAt (IsShared shared topic') s.conn topic'

theorem cohortJoin_kept (h : Installed shared s topic) (egress : Egress) :
    Kept shared s (cohortJoin shared s topic egress) := by
  rw [cohortJoin]
  split
  · next capability hshared =>
    have hjoin := joinSharedCohort_outcome h.accounted.cut topic capability egress
    refine ⟨⟨hjoin.accounted h.accounted, ?_, ?_⟩, hjoin.transfer h.accounted⟩
    · rw [hjoin.subscriptions]
      exact h.names
    · intro topic'
      by_cases ht : topic' = topic
      · subst ht
        exact hjoin.splitAt h.ready (by simp [IsShared, hshared])
      · exact (h.others topic' ht).of_sameAt (hjoin.sameAt ht)
  · next hshared =>
    refine .refl ⟨h.accounted, h.names, ?_⟩
    intro topic'
    by_cases ht : topic' = topic
    · subst ht
      exact h.unshared (by simp [IsShared, hshared])
    · exact h.others topic' ht

/-- Registering a topic that names no cohort leaves every cohort registration alone. -/
theorem sameAt_trySubscribe (h : isCohortTopic topic = false) (topic' : String) :
    SameAt topic' c (c.trySubscribe topic) := by
  apply SameAt.trySubscribe
  · rintro rfl
    rw [isCohortTopic_bin] at h
    cases h
  · rintro rfl
    rw [isCohortTopic_json] at h
    cases h

/-- The native and the logical membership of a topic that names no cohort. -/
theorem Session.Ok.installed (h : s.Ok shared) (hname : isCohortTopic topic = false) :
    Installed shared { s with conn := (s.conn.trySubscribe topic).addLogical topic } topic := by
  have hsame := fun topic' => sameAt_trySubscribe (c := s.conn) hname topic'
  have hold := (h.split topic).of_sameAt (hsame topic)
  refine ⟨?_, ?_, ?_, ?_, ?_⟩
  · exact h.accounted.of_eq rfl (by simp [Connection.addLogical])
      (by simp [Connection.addLogical]) (h.accounted.cut.trySubscribe topic)
  · intro t ht
    simp only [Connection.addLogical, Connection.trySubscribe_subscriptions, JsSet.mem_add] at ht
    rcases ht with rfl | ht
    · exact hname
    · exact h.names t ht
  · refine ⟨fun _ => by simp [Connection.addLogical], hold.bin, fun ho hmem => ?_⟩
    intro hjson
    exact ((hold.json ho).mp hjson).2.2 hmem
  · intro hunshared
    refine ⟨hold.shared, fun _ hmem => absurd (hold.shared hmem) hunshared, hold.bin, fun ho => ?_⟩
    constructor
    · exact fun hjson => absurd ((hold.json ho).mp hjson).1 hunshared
    · exact fun hjson => absurd hjson.1 hunshared
  · intro topic' ht
    exact (h.split topic').of_sameAt ((hsame topic').trans (.addLogical ht))

theorem Installed.ended (h : Installed shared s topic) :
    Installed shared { s with conn := s.conn.ended } topic where
  accounted := h.accounted.of_eq rfl rfl rfl fun _ => s.conn.ended_readyState_ne
  names := h.names
  ready :=
    ⟨fun ho => absurd ho s.conn.ended_readyState_ne, fun ho => absurd ho s.conn.ended_readyState_ne,
      fun ho => absurd ho s.conn.ended_readyState_ne⟩
  unshared hunshared := (h.unshared hunshared).of_sameAt .ended
  others topic' ht := (h.others topic' ht).of_sameAt .ended

/-! ## Dropping a membership -/

/-- The native and the logical membership dropped, and the cohort left. -/
def dropMembership (shared : SharedTopics) (s : Session) (topic : String) : Session :=
  cohortLeave shared { s with conn := (s.conn.tryUnsubscribe topic).removeLogical topic } topic

theorem dropMembership_kept (h : s.Ok shared) (hspares : s.conn.Spares topic) :
    Kept shared s (dropMembership shared s topic) := by
  have hsame : ∀ topic', topic' ≠ topic →
      SameAt topic' s.conn ((s.conn.tryUnsubscribe topic).removeLogical topic) :=
    fun topic' ht => (SameAt.tryUnsubscribe_of_spares hspares).trans (.removeLogical ht)
  have haccounted : Accounted
      { s with conn := (s.conn.tryUnsubscribe topic).removeLogical topic } :=
    h.accounted.of_eq rfl (by simp [Connection.removeLogical])
      (by simp [Connection.removeLogical]) (h.accounted.cut.tryUnsubscribe topic)
  have hmove : Transfer s
      { s with conn := (s.conn.tryUnsubscribe topic).removeLogical topic } :=
    .of_eq rfl (by simp [Connection.removeLogical])
  have hnames : ∀ t ∈ ((s.conn.tryUnsubscribe topic).removeLogical topic).subscriptions,
      isCohortTopic t = false := by
    intro t ht
    simp only [Connection.removeLogical, Connection.tryUnsubscribe_subscriptions,
      JsSet.mem_delete] at ht
    exact h.names t ht.2
  rw [dropMembership, cohortLeave]
  split
  · next hshared =>
    refine ⟨⟨leaveSharedCohort_accounted haccounted topic, ?_, ?_⟩,
      hmove.trans (leaveSharedCohort_transfer haccounted topic)⟩
    · rw [leaveSharedCohort_subscriptions]
      exact hnames
    · intro topic'
      by_cases ht : topic' = topic
      · subst ht
        exact leaveSharedCohort_splitAt (by simp [Connection.removeLogical])
      · have hleave : SameAt topic' ((s.conn.tryUnsubscribe topic).removeLogical topic) _ :=
          leaveSharedCohort_sameAt
            (s := { s with conn := (s.conn.tryUnsubscribe topic).removeLogical topic }) ht
        exact (h.split topic').of_sameAt ((hsame topic' ht).trans hleave)
  · next hshared =>
    refine ⟨⟨haccounted, hnames, ?_⟩, hmove⟩
    intro topic'
    by_cases ht : topic' = topic
    · subst ht
      have hold := (h.split topic').of_sameAt (SameAt.tryUnsubscribe_of_spares hspares)
      refine ⟨hold.shared, fun _ hmem => absurd (hold.shared hmem) hshared, hold.bin, ?_⟩
      intro ho
      constructor
      · exact fun hjson => absurd ((hold.json ho).mp hjson).1 hshared
      · exact fun hjson => absurd hjson.1 hshared
    · exact (h.split topic').of_sameAt (hsame topic' ht)

/-- Dropping a membership registers the connection nowhere. -/
theorem dropMembership_topics_subset (h : name ∈ (dropMembership shared s topic).conn.topics) :
    name ∈ s.conn.topics := by
  rw [dropMembership, cohortLeave] at h
  split at h
  · exact Connection.topics_tryUnsubscribe_subset (leaveSharedCohort_topics_subset h)
  · exact Connection.topics_tryUnsubscribe_subset h

/-- Dropping memberships one after the other, each of them sparing the cohorts. -/
theorem foldl_dropMembership_kept {topics : List String} (h : s.Ok shared)
    (hspares : ∀ name ∈ topics, s.conn.Spares name) :
    Kept shared s (topics.foldl (dropMembership shared) s) := by
  induction topics generalizing s with
  | nil => exact .refl h
  | cons topic topics ih =>
    have hfirst := dropMembership_kept h (hspares topic (.head _))
    apply hfirst.trans
    apply ih hfirst.ok
    intro name hname hcohort hmem
    exact hspares name (.tail _ hname) hcohort (dropMembership_topics_subset hmem)

theorem foldl_dropMembership_topics_subset {topics : List String}
    (h : name ∈ (topics.foldl (dropMembership shared) s).conn.topics) : name ∈ s.conn.topics := by
  induction topics generalizing s with
  | nil => exact h
  | cons topic topics ih => exact dropMembership_topics_subset (ih h)

/-! ## The operations -/

theorem trackedUnsubscribe_eq : trackedUnsubscribe shared = dropMembership shared := rfl

theorem releaseDerivedSubscriptions_kept (h : s.Ok shared)
    (hspares : ∀ name ∈ derivedTopics prefixes topic, s.conn.Spares name) :
    Kept shared s (releaseDerivedSubscriptions shared prefixes s topic) := by
  rw [releaseDerivedSubscriptions, trackedUnsubscribe_eq]
  exact foldl_dropMembership_kept h hspares

theorem releaseDerivedSubscriptions_topics_subset
    (h : name ∈ (releaseDerivedSubscriptions shared prefixes s topic).conn.topics) :
    name ∈ s.conn.topics := by
  rw [releaseDerivedSubscriptions, trackedUnsubscribe_eq] at h
  exact foldl_dropMembership_topics_subset h

theorem landSubscribe_kept (h : s.Ok shared) (hname : isCohortTopic topic = false)
    (flush : FlushOutcome) (egress : Egress) :
    Kept shared s (landSubscribe shared s topic flush egress) := by
  have hinstalled := h.installed hname
  have hmove : Transfer s { s with conn := (s.conn.trySubscribe topic).addLogical topic } :=
    .of_eq rfl (by simp [Connection.addLogical])
  rw [landSubscribe]
  split
  · exact .refl h
  · cases flush with
    | intact =>
      have hjoin := cohortJoin_kept hinstalled egress
      exact ⟨hjoin.ok, hmove.trans hjoin.transfer⟩
    | terminated =>
      have hjoin := cohortJoin_kept hinstalled.ended egress
      have hended : Transfer { s with conn := (s.conn.trySubscribe topic).addLogical topic }
          { s with conn := ((s.conn.trySubscribe topic).addLogical topic).ended } :=
        .of_eq rfl rfl
      exact ⟨hjoin.ok, hmove.trans (hended.trans hjoin.transfer)⟩
    | stopped =>
      refine ⟨⟨hinstalled.ended.accounted, hinstalled.names, ?_⟩, hmove.trans (.of_eq rfl rfl)⟩
      intro topic'
      by_cases ht : topic' = topic
      · subst ht
        exact ⟨(h.split topic').shared ∘ by simp [Connection.ended, Connection.addLogical],
          fun ho => absurd ho (Connection.ended_readyState_ne _),
          fun ho => absurd ho (Connection.ended_readyState_ne _),
          fun ho => absurd ho (Connection.ended_readyState_ne _)⟩
      · exact hinstalled.ended.others topic' ht

theorem trackedSubscribe_kept (h : s.Ok shared) (hname : isCohortTopic topic = false)
    (egress : Egress) : Kept shared s (trackedSubscribe shared s topic egress) := by
  rw [trackedSubscribe]
  split
  · exact .refl h
  · split
    · exact .refl h
    · have hjoin := cohortJoin_kept (h.installed hname) egress
      have hmove : Transfer s { s with conn := (s.conn.trySubscribe topic).addLogical topic } :=
        .of_eq rfl (by simp [Connection.addLogical])
      exact ⟨hjoin.ok, hmove.trans hjoin.transfer⟩

theorem releaseMembership_kept (h : s.Ok shared) (hspares : s.conn.Spares topic) :
    Kept shared s (releaseMembership shared s topic) := by
  rw [releaseMembership]
  split
  · exact .refl h
  · exact dropMembership_kept h hspares

theorem releaseMembership_topics_subset
    (h : name ∈ (releaseMembership shared s topic).conn.topics) : name ∈ s.conn.topics := by
  rw [releaseMembership] at h
  split at h
  · exact h
  · exact dropMembership_topics_subset h

theorem releaseSubscription_kept (h : s.Ok shared)
    (hspares : ∀ name ∈ topic :: derivedTopics prefixes topic, s.conn.Spares name) :
    Kept shared s (releaseSubscription shared prefixes s topic) := by
  rw [releaseSubscription]
  revert hspares
  generalize topic :: derivedTopics prefixes topic = topics
  intro hspares
  induction topics generalizing s with
  | nil => exact .refl h
  | cons t topics ih =>
    have hfirst := releaseMembership_kept h (hspares t (.head _))
    apply hfirst.trans
    apply ih hfirst.ok
    intro name hname hcohort hmem
    exact hspares name (.tail _ hname) hcohort
      (releaseMembership_topics_subset hmem)

theorem unsubscribeFrame_kept (h : s.Ok shared)
    (hspares : ∀ name ∈ topic :: derivedTopics prefixes topic, s.conn.Spares name) :
    Kept shared s (unsubscribeFrame shared prefixes s topic) := by
  have hcomm : (s.conn.removeLogical topic).tryUnsubscribe topic =
      (s.conn.tryUnsubscribe topic).removeLogical topic := by
    by_cases ho : s.conn.readyState = .open
    · simp [Connection.tryUnsubscribe, Connection.removeLogical, ho]
    · simp [Connection.tryUnsubscribe, Connection.removeLogical, ho]
  have hdrop := dropMembership_kept h (hspares topic (.head _))
  rw [unsubscribeFrame, hcomm]
  apply hdrop.trans
  apply releaseDerivedSubscriptions_kept hdrop.ok
  intro name hname hcohort hmem
  exact hspares name (.tail _ hname) hcohort (dropMembership_topics_subset hmem)

theorem platformUnsubscribe_kept (h : s.Ok shared)
    (hspares : ∀ name ∈ derivedTopics prefixes topic, s.conn.Spares name) :
    Kept shared s (platformUnsubscribe shared prefixes s topic) := by
  have hderived := releaseDerivedSubscriptions_kept h hspares
  rw [platformUnsubscribe]
  split
  · exact hderived
  · next hheld =>
    split
    · exact hderived
    · apply hderived.trans
      apply dropMembership_kept hderived.ok
      intro hcohort
      rw [hderived.ok.names topic (not_not.mp hheld)] at hcohort
      cases hcohort

theorem unwindRevokedMembership_kept (h : s.Ok shared)
    (hspares : ∀ name ∈ topic :: derivedTopics prefixes topic, s.conn.Spares name) :
    Kept shared s (unwindRevokedMembership shared prefixes s topic) := by
  have hderived : Kept shared s (releaseDerivedSubscriptions shared prefixes s topic) :=
    releaseDerivedSubscriptions_kept h fun name hname => hspares name (.tail _ hname)
  rw [unwindRevokedMembership, trackedUnsubscribe_eq]
  apply hderived.trans
  apply dropMembership_kept hderived.ok
  intro hcohort hmem
  exact hspares topic (.head _) hcohort (releaseDerivedSubscriptions_topics_subset hmem)

/-- The close gives the references of the cohort set back, one for each topic. -/
theorem refs_closeConnection (s : Session) (topic : String) :
    (closeConnection s).ids.refs topic =
      s.ids.refs topic - if topic ∈ s.conn.sharedCohorts then 1 else 0 := by
  rw [closeConnection, WireIdTable.refs_foldl_release, s.conn.sharedCohorts.nodup.count]
  rfl

theorem closeConnection_kept (h : s.Ok shared) : Kept shared s (closeConnection s) where
  ok :=
    { accounted :=
        { announced := fun _ ht => absurd ht (JsSet.not_mem_empty _)
          logged := by
            rw [closeConnection, WireIdTable.assigned_foldl_release]
            exact h.accounted.logged
          cut := fun _ => by simp [closeConnection] }
      names := h.names
      split := fun _ =>
        { shared := fun ht => absurd ht (JsSet.not_mem_empty _)
          held := fun ho => by cases ho
          bin := fun ho => by cases ho
          json := fun ho => by cases ho } }
  transfer :=
    { refs := by
        intro topic
        have hdue : due topic (closeConnection s).conn = 0 := by simp [due, closeConnection]
        rw [refs_closeConnection, hdue, due]
        split
        · next hmem =>
          have := h.accounted.refs_pos hmem
          omega
        · omega
      keep := by
        intro topic id hid hother
        apply WireIdTable.getId_foldl_release _ hid
        have hrefs := refs_closeConnection s topic
        rw [closeConnection] at hrefs
        rw [due] at hother
        rw [hrefs]
        split at hother
        · next hmem => rw [if_pos hmem]; omega
        · next hmem => rw [if_neg hmem]; omega
      assigned := by
        rw [closeConnection, WireIdTable.assigned_foldl_release]
        exact List.Subset.refl _ }

/-- Every operation that spares the cohorts keeps its connection's invariant. -/
theorem Operation.run_kept {op : Operation} (h : s.Ok shared)
    (hspares : op.Spares prefixes s.conn) (hrun : op.run shared prefixes s = some s') :
    Kept shared s s' := by
  cases op with
  | hello caps =>
    cases hrun
    exact .of_sameAt h (fun _ => ⟨Iff.rfl, id, fun _ => Iff.rfl, fun _ => Iff.rfl,
      fun _ => Iff.rfl⟩) rfl rfl rfl h.accounted.cut
  | poison capability =>
    cases hrun
    exact .of_sameAt h (fun _ => ⟨Iff.rfl, id, fun _ => Iff.rfl, fun _ => Iff.rfl,
      fun _ => Iff.rfl⟩) rfl rfl rfl h.accounted.cut
  | landSubscribe topic flush egress =>
    rw [Operation.run] at hrun
    split at hrun
    · next hvalid =>
      cases hrun
      exact landSubscribe_kept h (not_isCohortTopic_of_valid hvalid) flush egress
    · cases hrun
  | trackedSubscribe topic egress =>
    cases hrun
    exact trackedSubscribe_kept h hspares egress
  | trackedUnsubscribe topic =>
    cases hrun
    exact dropMembership_kept h hspares
  | releaseSubscription topic =>
    cases hrun
    exact releaseSubscription_kept h hspares
  | unsubscribeFrame topic =>
    cases hrun
    exact unsubscribeFrame_kept h hspares
  | platformUnsubscribe topic =>
    cases hrun
    exact platformUnsubscribe_kept h hspares
  | unwindRevokedMembership topic =>
    cases hrun
    exact unwindRevokedMembership_kept h hspares
  | controlFlood =>
    cases hrun
    have hgone : Announcing "" 0 s.conn .gone s.conn.refuseControlFlood :=
      .of_gone h.accounted.cut
    exact .of_sameAt h (fun _ => hgone.sameAt) hgone.sharedCohorts hgone.subscriptions
      hgone.announced fun _ => hgone.gone rfl
  | ends =>
    cases hrun
    exact .of_sameAt h (fun _ => .ended) rfl rfl rfl fun _ => s.conn.ended_readyState_ne
  | closeConnection =>
    obtain ⟨-, ⟨⟩⟩ := Option.ite_none_right_eq_some.mp hrun
    exact closeConnection_kept h

end AdapterWs.Cohort
