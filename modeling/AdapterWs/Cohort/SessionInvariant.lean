import Mathlib.Data.Int.Cast.Basic
import AdapterWs.Cohort.Server

/-!
# What one connection keeps

The invariant of one connection beside the id table, and its preservation by every operation
that names no cohort. `SplitAt` is about one topic: which cohort the connection is registered on
is read off its cohort set and its logical membership. `Accounted` ties the cohort set to the id
table. `Transfer` says what an operation did to the table on behalf of its own connection only,
which is what the other connections need to know.
-/

namespace AdapterWs.Cohort

variable {c c' c'' : Connection} {s s' s'' : Session} {topic topic' name : String}
  {isShared : Prop} {shared : SharedTopics} {prefixes : List String} {capability : Capability}
  {egress : Egress} {ids : WireIdTable} {id : ℕ}

/-! ## Cohort names -/

theorem bin_injective (h : (cohortTopics topic).bin = (cohortTopics topic').bin) :
    topic = topic' :=
  (String.append_left_inj _).mp h

theorem json_injective (h : (cohortTopics topic).json = (cohortTopics topic').json) :
    topic = topic' :=
  (String.append_left_inj _).mp h

theorem bin_ne_json : (cohortTopics topic).bin ≠ (cohortTopics topic').json := by
  intro h
  have hlast := congrArg (fun n : String => n.toList.reverse) h
  simp [cohortTopics] at hlast

theorem isCohortTopic_bin (topic : String) : isCohortTopic (cohortTopics topic).bin = true := by
  simp [isCohortTopic, cohortTopics]

theorem isCohortTopic_json (topic : String) : isCohortTopic (cohortTopics topic).json = true := by
  simp [isCohortTopic, cohortTopics]

/-- A cohort name ends in a suffix that starts with a null character. -/
theorem null_mem_of_isCohortTopic (h : isCohortTopic name = true) : '\x00' ∈ name.toList := by
  rw [isCohortTopic, Bool.or_eq_true, List.isSuffixOf_iff_suffix, List.isSuffixOf_iff_suffix] at h
  rcases h with h | h
  · exact h.subset (by decide)
  · exact h.subset (by decide)

/-- A valid topic has no control character, so it names no cohort. -/
theorem not_isCohortTopic_of_valid {allowNonAscii : Bool}
    (h : isValidWireTopic topic allowNonAscii = true) : isCohortTopic topic = false := by
  rw [Bool.eq_false_iff]
  intro hcohort
  simp only [isValidWireTopic, Bool.and_eq_true, List.all_eq_true] at h
  have hnull := h.2 _ (null_mem_of_isCohortTopic hcohort)
  simp at hnull

/-! ## The socket -/

namespace Connection

section

variable (c) (name)

@[simp] theorem trySubscribe_readyState : (c.trySubscribe name).readyState = c.readyState := by
  rw [trySubscribe]; split <;> rfl

@[simp] theorem trySubscribe_subscriptions :
    (c.trySubscribe name).subscriptions = c.subscriptions := by
  rw [trySubscribe]; split <;> rfl

@[simp] theorem trySubscribe_sharedCohorts :
    (c.trySubscribe name).sharedCohorts = c.sharedCohorts := by
  rw [trySubscribe]; split <;> rfl

@[simp] theorem trySubscribe_announced : (c.trySubscribe name).announced = c.announced := by
  rw [trySubscribe]; split <;> rfl

end

variable {n : String}

theorem mem_topics_trySubscribe (h : c.readyState = .open) :
    n ∈ (c.trySubscribe name).topics ↔ n = name ∨ n ∈ c.topics := by
  rw [trySubscribe, if_pos h]
  exact JsSet.mem_add

section

variable (c) (name)

@[simp] theorem tryUnsubscribe_readyState : (c.tryUnsubscribe name).readyState = c.readyState := by
  rw [tryUnsubscribe]; split <;> rfl

@[simp] theorem tryUnsubscribe_subscriptions :
    (c.tryUnsubscribe name).subscriptions = c.subscriptions := by
  rw [tryUnsubscribe]; split <;> rfl

@[simp] theorem tryUnsubscribe_sharedCohorts :
    (c.tryUnsubscribe name).sharedCohorts = c.sharedCohorts := by
  rw [tryUnsubscribe]; split <;> rfl

@[simp] theorem tryUnsubscribe_announced : (c.tryUnsubscribe name).announced = c.announced := by
  rw [tryUnsubscribe]; split <;> rfl

end

theorem mem_topics_tryUnsubscribe (h : c.readyState = .open) :
    n ∈ (c.tryUnsubscribe name).topics ↔ n ≠ name ∧ n ∈ c.topics := by
  rw [tryUnsubscribe, if_pos h]
  exact JsSet.mem_delete

theorem topics_tryUnsubscribe_subset (h : n ∈ (c.tryUnsubscribe name).topics) : n ∈ c.topics := by
  rw [tryUnsubscribe] at h
  split at h
  · exact (JsSet.mem_delete.mp h).2
  · exact h

@[simp] theorem ended_readyState_ne (c : Connection) : c.ended.readyState ≠ .open := by
  cases h : c.readyState with
  | «open» => simp [ended, ReadyState.ended, h]
  | closing => simp [ended, ReadyState.ended, h]
  | closed => simp [ended, ReadyState.ended, h]

end Connection

/-! ## One topic of one connection -/

/-- The registrations of one topic follow from the cohort set and the logical membership. -/
structure SplitAt (isShared : Prop) (c : Connection) (topic : String) : Prop where
  shared : topic ∈ c.sharedCohorts → isShared
  held : c.readyState = .open → topic ∈ c.sharedCohorts → topic ∈ c.subscriptions
  bin : c.readyState = .open →
    ((cohortTopics topic).bin ∈ c.topics ↔ topic ∈ c.sharedCohorts)
  json : c.readyState = .open →
    ((cohortTopics topic).json ∈ c.topics ↔
      isShared ∧ topic ∈ c.subscriptions ∧ topic ∉ c.sharedCohorts)

/-- Nothing about `topic` changed on the way from `c` to `c'`, except that the socket may have
stopped being open. -/
structure SameAt (topic : String) (c c' : Connection) : Prop where
  cohort : topic ∈ c'.sharedCohorts ↔ topic ∈ c.sharedCohorts
  isOpen : c'.readyState = .open → c.readyState = .open
  held : c'.readyState = .open → (topic ∈ c'.subscriptions ↔ topic ∈ c.subscriptions)
  bin : c'.readyState = .open →
    ((cohortTopics topic).bin ∈ c'.topics ↔ (cohortTopics topic).bin ∈ c.topics)
  json : c'.readyState = .open →
    ((cohortTopics topic).json ∈ c'.topics ↔ (cohortTopics topic).json ∈ c.topics)

theorem SplitAt.of_sameAt (h : SplitAt isShared c topic) (hsame : SameAt topic c c') :
    SplitAt isShared c' topic where
  shared ht := h.shared (hsame.cohort.mp ht)
  held ho ht := (hsame.held ho).mpr (h.held (hsame.isOpen ho) (hsame.cohort.mp ht))
  bin ho := by rw [hsame.bin ho, hsame.cohort, h.bin (hsame.isOpen ho)]
  json ho := by rw [hsame.json ho, hsame.cohort, hsame.held ho, h.json (hsame.isOpen ho)]

namespace SameAt

theorem refl (topic : String) (c : Connection) : SameAt topic c c :=
  ⟨Iff.rfl, id, fun _ => Iff.rfl, fun _ => Iff.rfl, fun _ => Iff.rfl⟩

theorem trans (h : SameAt topic c c') (h' : SameAt topic c' c'') : SameAt topic c c'' where
  cohort := h'.cohort.trans h.cohort
  isOpen ho := h.isOpen (h'.isOpen ho)
  held ho := (h'.held ho).trans (h.held (h'.isOpen ho))
  bin ho := (h'.bin ho).trans (h.bin (h'.isOpen ho))
  json ho := (h'.json ho).trans (h.json (h'.isOpen ho))

theorem trySubscribe (hbin : (cohortTopics topic).bin ≠ name)
    (hjson : (cohortTopics topic).json ≠ name) : SameAt topic c (c.trySubscribe name) where
  cohort := by simp
  isOpen := by simp
  held _ := by simp
  bin ho := by
    rw [Connection.mem_topics_trySubscribe (by simpa using ho)]
    simp [hbin]
  json ho := by
    rw [Connection.mem_topics_trySubscribe (by simpa using ho)]
    simp [hjson]

/-- Unsubscribing a name leaves a topic alone unless it is a cohort of the topic on which the
connection is registered. -/
theorem tryUnsubscribe
    (hbin : (cohortTopics topic).bin = name → name ∉ c.topics)
    (hjson : (cohortTopics topic).json = name → name ∉ c.topics) :
    SameAt topic c (c.tryUnsubscribe name) where
  cohort := by simp
  isOpen := by simp
  held _ := by simp
  bin ho := by
    rw [Connection.mem_topics_tryUnsubscribe (by simpa using ho)]
    constructor
    · exact And.right
    · intro hmem
      exact ⟨fun heq => hbin heq (heq ▸ hmem), hmem⟩
  json ho := by
    rw [Connection.mem_topics_tryUnsubscribe (by simpa using ho)]
    constructor
    · exact And.right
    · intro hmem
      exact ⟨fun heq => hjson heq (heq ▸ hmem), hmem⟩

theorem tryUnsubscribe_of_spares (h : c.Spares name) :
    SameAt topic c (c.tryUnsubscribe name) := by
  apply tryUnsubscribe
  · rintro rfl
    exact h (isCohortTopic_bin topic)
  · rintro rfl
    exact h (isCohortTopic_json topic)

theorem ended : SameAt topic c c.ended where
  cohort := Iff.rfl
  isOpen ho := absurd ho c.ended_readyState_ne
  held ho := absurd ho c.ended_readyState_ne
  bin ho := absurd ho c.ended_readyState_ne
  json ho := absurd ho c.ended_readyState_ne

section

variable (h : topic' ≠ topic)
include h

theorem addLogical : SameAt topic' c (c.addLogical topic) where
  cohort := Iff.rfl
  isOpen := id
  held _ := by simp [Connection.addLogical, h]
  bin _ := Iff.rfl
  json _ := Iff.rfl

theorem removeLogical : SameAt topic' c (c.removeLogical topic) where
  cohort := Iff.rfl
  isOpen := id
  held _ := by simp [Connection.removeLogical, h]
  bin _ := Iff.rfl
  json _ := Iff.rfl

theorem trySubscribe_bin : SameAt topic' c (c.trySubscribe (cohortTopics topic).bin) :=
  trySubscribe (fun heq => h (bin_injective heq)) (Ne.symm bin_ne_json)

theorem trySubscribe_json : SameAt topic' c (c.trySubscribe (cohortTopics topic).json) :=
  trySubscribe bin_ne_json (fun heq => h (json_injective heq))

theorem tryUnsubscribe_bin : SameAt topic' c (c.tryUnsubscribe (cohortTopics topic).bin) :=
  tryUnsubscribe (fun heq => absurd (bin_injective heq) h) (fun heq => absurd heq.symm bin_ne_json)

theorem tryUnsubscribe_json : SameAt topic' c (c.tryUnsubscribe (cohortTopics topic).json) :=
  tryUnsubscribe (fun heq => absurd heq bin_ne_json) (fun heq => absurd (json_injective heq) h)

theorem cohorts_add :
    SameAt topic' c { c with sharedCohorts := c.sharedCohorts.add topic } where
  cohort := by simp [h]
  isOpen := id
  held _ := Iff.rfl
  bin _ := Iff.rfl
  json _ := Iff.rfl

theorem cohorts_delete :
    SameAt topic' c { c with sharedCohorts := c.sharedCohorts.delete topic } where
  cohort := by simp [h]
  isOpen := id
  held _ := Iff.rfl
  bin _ := Iff.rfl
  json _ := Iff.rfl

end

end SameAt

/-! ## The announce -/

/-- What an announce may change: the socket may end, and a taken announce is recorded. -/
structure Announcing (topic : String) (id : ℕ) (c : Connection) (result : ControlResult)
    (c' : Connection) : Prop where
  sharedCohorts : c'.sharedCohorts = c.sharedCohorts
  subscriptions : c'.subscriptions = c.subscriptions
  topics : c'.topics = c.topics
  isOpen : c'.readyState = .open → c.readyState = .open
  announced : c'.announced =
    if result = .delivered then c.announced ++ [(topic, id)] else c.announced
  gone : result = .gone → c'.readyState ≠ .open

/-- A connection that was cut is not open. -/
def Connection.CutClosed (c : Connection) : Prop := c.controlCut = true → c.readyState ≠ .open

theorem Connection.refuseControlFlood_closed (h : c.CutClosed) :
    c.refuseControlFlood.readyState ≠ .open := by
  rw [refuseControlFlood]
  split
  · next hcut => exact h hcut
  · exact c.ended_readyState_ne

theorem Announcing.of_gone (h : c.CutClosed) :
    Announcing topic id c .gone c.refuseControlFlood where
  sharedCohorts := by rw [Connection.refuseControlFlood]; split <;> rfl
  subscriptions := by rw [Connection.refuseControlFlood]; split <;> rfl
  topics := by rw [Connection.refuseControlFlood]; split <;> rfl
  isOpen ho := absurd ho (Connection.refuseControlFlood_closed h)
  announced := by rw [Connection.refuseControlFlood]; split <;> rfl
  gone _ := Connection.refuseControlFlood_closed h

/-- An announce found gone leaves a connection that is not open. -/
theorem sendAnnounce_announcing (h : c.CutClosed) (topic : String) (id : ℕ) (egress : Egress) :
    Announcing topic id c (c.sendAnnounce topic id egress).1
      (c.sendAnnounce topic id egress).2 := by
  rw [Connection.sendAnnounce]
  split
  · exact .of_gone h
  · split
    · next hclosed => exact ⟨rfl, rfl, rfl, fun ho => ho, rfl, fun _ => hclosed⟩
    · split
      · exact ⟨rfl, rfl, rfl, fun ho => ho, rfl, fun hgone => by cases hgone⟩
      · exact ⟨rfl, rfl, rfl, fun ho => ho, rfl, fun hgone => by cases hgone⟩
      · exact ⟨rfl, rfl, rfl, fun ho => absurd ho c.ended_readyState_ne, rfl,
          fun hgone => by cases hgone⟩

theorem sendAnnounce_cutClosed (h : c.CutClosed) (topic : String) (id : ℕ) (egress : Egress) :
    (c.sendAnnounce topic id egress).2.CutClosed := by
  rw [Connection.sendAnnounce]
  split
  · exact fun _ => Connection.refuseControlFlood_closed h
  · split
    · exact h
    · split
      · exact h
      · exact h
      · exact fun _ => c.ended_readyState_ne

theorem Announcing.sameAt {result : ControlResult} (h : Announcing topic id c result c') :
    SameAt topic' c c' where
  cohort := by rw [h.sharedCohorts]
  isOpen := h.isOpen
  held _ := by rw [h.subscriptions]
  bin _ := by rw [h.topics]
  json _ := by rw [h.topics]

/-! ## The table beside one connection -/

/-- The references a connection owes the table for a topic. -/
def due (topic : String) (c : Connection) : ℤ := if topic ∈ c.sharedCohorts then 1 else 0

theorem due_nonneg (topic : String) (c : Connection) : 0 ≤ due topic c := by
  rw [due]
  split <;> decide

/-- The connection was told the id of every topic it holds a reference of, and only ids the
table assigned. -/
structure Accounted (s : Session) : Prop where
  announced : ∀ topic ∈ s.conn.sharedCohorts,
    ∃ id, s.ids.getId topic = some id ∧ (topic, id) ∈ s.conn.announced
  logged : s.conn.announced ⊆ s.ids.assigned
  cut : s.conn.CutClosed

/-- An operation of one connection moves the table's counts by what the connection's own dues
moved, and keeps the id of every topic another connection holds a reference of. -/
structure Transfer (s s' : Session) : Prop where
  refs : ∀ topic, (s'.ids.refs topic : ℤ) - due topic s'.conn =
    s.ids.refs topic - due topic s.conn
  keep : ∀ topic id, s.ids.getId topic = some id →
    due topic s.conn < s.ids.refs topic → s'.ids.getId topic = some id
  assigned : s.ids.assigned ⊆ s'.ids.assigned

namespace Transfer

theorem trans (h : Transfer s s') (h' : Transfer s' s'') : Transfer s s'' where
  refs topic := (h'.refs topic).trans (h.refs topic)
  keep topic id hid hother := by
    apply h'.keep topic id (h.keep topic id hid hother)
    have := h.refs topic
    omega
  assigned := List.Subset.trans h.assigned h'.assigned

theorem of_eq (hids : s'.ids = s.ids) (h : s'.conn.sharedCohorts = s.conn.sharedCohorts) :
    Transfer s s' where
  refs topic := by rw [hids, due, due, h]
  keep topic id hid _ := by rw [hids, hid]
  assigned := by rw [hids]; exact List.Subset.refl _

/-- A reference taken for a topic that enters the cohort set. -/
theorem acquire (hnot : topic ∉ s.conn.sharedCohorts)
    (h : c'.sharedCohorts = s.conn.sharedCohorts.add topic) :
    Transfer s ⟨(s.ids.acquire topic).2, c'⟩ where
  refs t := by
    by_cases ht : t = topic
    · subst ht
      simp [WireIdTable.refs_acquire, due, h, hnot]
    · simp [WireIdTable.refs_acquire, due, h, ht, Ne.symm ht]
  keep _ _ hid _ := WireIdTable.getId_acquire_of_some hid
  assigned := WireIdTable.assigned_acquire_subset _ _

theorem attempt (h : c'.sharedCohorts = s.conn.sharedCohorts) :
    Transfer s ⟨(s.ids.acquire topic).2.release topic, c'⟩ where
  refs t := by simp [WireIdTable.refs_release, WireIdTable.refs_acquire, due, h]
  keep _ _ hid _ := WireIdTable.getId_attempt hid
  assigned := by
    rw [WireIdTable.assigned_release]
    exact WireIdTable.assigned_acquire_subset _ _

/-- A reference given back for a topic that leaves the cohort set. -/
theorem release (hmem : topic ∈ s.conn.sharedCohorts) (hpos : 0 < s.ids.refs topic)
    (h : c'.sharedCohorts = s.conn.sharedCohorts.delete topic) :
    Transfer s ⟨s.ids.release topic, c'⟩ where
  refs t := by
    by_cases ht : t = topic
    · subst ht
      simp only [WireIdTable.refs_release, due, h, JsSet.mem_delete, hmem, if_true]
      simp only [ne_eq, not_true_eq_false, false_and, if_false]
      omega
    · simp [WireIdTable.refs_release, due, h, ht, Ne.symm ht]
  keep t id hid hother := by
    apply WireIdTable.getId_release hid
    rw [WireIdTable.refs_release]
    by_cases ht : t = topic
    · subst ht
      rw [due, if_pos hmem] at hother
      rw [if_pos rfl]
      omega
    · rw [if_neg (Ne.symm ht)]
      exact WireIdTable.refs_pos_iff.mpr ⟨id, hid⟩
  assigned := by
    rw [WireIdTable.assigned_release]
    exact List.Subset.refl _

end Transfer

theorem Accounted.refs_pos (h : Accounted s) (ht : topic ∈ s.conn.sharedCohorts) :
    0 < s.ids.refs topic := by
  obtain ⟨id, hid, -⟩ := h.announced topic ht
  exact WireIdTable.refs_pos_iff.mpr ⟨id, hid⟩

/-! ## `joinSharedCohort` -/

/-- The ways a join ends. -/
inductive JoinOutcome (s : Session) (topic : String) : Session → Prop
  /-- Already on the binary cohort. -/
  | already (hmem : topic ∈ s.conn.sharedCohorts) : JoinOutcome s topic s
  /-- The announce was delivered: onto the binary cohort. -/
  | binary (hmem : topic ∉ s.conn.sharedCohorts) (c : Connection) (hcut : c.CutClosed)
      (h : Announcing topic (s.ids.acquire topic).1 s.conn .delivered c) :
      JoinOutcome s topic ⟨(s.ids.acquire topic).2,
        ({ c with sharedCohorts := c.sharedCohorts.add topic }.tryUnsubscribe
          (cohortTopics topic).json).trySubscribe (cohortTopics topic).bin⟩
  /-- The announce was refused: onto the JSON cohort. -/
  | refused (hmem : topic ∉ s.conn.sharedCohorts) (c : Connection) (hcut : c.CutClosed)
      (h : Announcing topic (s.ids.acquire topic).1 s.conn .refused c) :
      JoinOutcome s topic ⟨(s.ids.acquire topic).2.release topic,
        c.trySubscribe (cohortTopics topic).json⟩
  /-- The announce found nobody: onto no cohort. -/
  | gone (hmem : topic ∉ s.conn.sharedCohorts) (c : Connection) (hcut : c.CutClosed)
      (h : Announcing topic (s.ids.acquire topic).1 s.conn .gone c) :
      JoinOutcome s topic ⟨(s.ids.acquire topic).2.release topic, c⟩
  /-- No longer capable: from the binary cohort onto the JSON cohort. -/
  | demoted (hmem : topic ∈ s.conn.sharedCohorts) :
      JoinOutcome s topic ⟨s.ids.release topic,
        ({ s.conn with sharedCohorts := s.conn.sharedCohorts.delete topic }.tryUnsubscribe
          (cohortTopics topic).bin).trySubscribe (cohortTopics topic).json⟩
  /-- Not capable: onto the JSON cohort. -/
  | json (hmem : topic ∉ s.conn.sharedCohorts) :
      JoinOutcome s topic { s with conn := s.conn.trySubscribe (cohortTopics topic).json }

theorem joinSharedCohort_outcome (h : s.conn.CutClosed) (topic : String)
    (capability : Capability) (egress : Egress) :
    JoinOutcome s topic (joinSharedCohort s topic capability egress) := by
  rw [joinSharedCohort]
  split
  · split
    · next hmem => exact .already hmem
    · next hmem =>
      have hann := sendAnnounce_announcing h topic (s.ids.acquire topic).1 egress
      have hcut := sendAnnounce_cutClosed h topic (s.ids.acquire topic).1 egress
      dsimp only
      generalize s.conn.sendAnnounce topic (s.ids.acquire topic).1 egress = sent at hann hcut
      obtain ⟨result, c⟩ := sent
      cases result with
      | delivered => exact .binary hmem c hcut hann
      | refused => exact .refused hmem c hcut hann
      | gone => exact .gone hmem c hcut hann
  · split
    · next hmem => exact .demoted hmem
    · next hmem => exact .json hmem

namespace JoinOutcome

theorem sameAt (h : JoinOutcome s topic s') (hne : topic' ≠ topic) :
    SameAt topic' s.conn s'.conn := by
  cases h with
  | already => exact .refl _ _
  | binary hmem c hcut h =>
    exact ((h.sameAt.trans (.cohorts_add hne)).trans (.tryUnsubscribe_json hne)).trans
      (.trySubscribe_bin hne)
  | refused hmem c hcut h => exact h.sameAt.trans (.trySubscribe_json hne)
  | gone hmem c hcut h => exact h.sameAt
  | demoted =>
    exact ((SameAt.cohorts_delete hne).trans (.tryUnsubscribe_bin hne)).trans
      (.trySubscribe_json hne)
  | json => exact .trySubscribe_json hne

theorem transfer (h : JoinOutcome s topic s') (hs : Accounted s) : Transfer s s' := by
  cases h with
  | already => exact .of_eq rfl rfl
  | binary hmem c hcut h =>
    apply Transfer.acquire hmem
    simp [h.sharedCohorts]
  | refused hmem c hcut h =>
    apply Transfer.attempt
    simp [h.sharedCohorts]
  | gone hmem c hcut h => exact .attempt h.sharedCohorts
  | demoted hmem =>
    apply Transfer.release hmem (hs.refs_pos hmem)
    simp
  | json => exact .of_eq rfl (by simp)

theorem subscriptions (h : JoinOutcome s topic s') :
    s'.conn.subscriptions = s.conn.subscriptions := by
  cases h with
  | already => rfl
  | binary hmem c hcut h => simp [h.subscriptions]
  | refused hmem c hcut h => simp [h.subscriptions]
  | gone hmem c hcut h => exact h.subscriptions
  | demoted => simp
  | json => simp

end JoinOutcome

/-- What a topic must be for the connection to be cohorted for it: held, on no cohort that its
cohort set does not know of, and not on both. -/
structure JoinReady (c : Connection) (topic : String) : Prop where
  held : c.readyState = .open → topic ∈ c.subscriptions
  bin : c.readyState = .open →
    ((cohortTopics topic).bin ∈ c.topics ↔ topic ∈ c.sharedCohorts)
  json : c.readyState = .open → topic ∈ c.sharedCohorts → (cohortTopics topic).json ∉ c.topics

theorem JoinOutcome.splitAt (h : JoinOutcome s topic s') (hready : JoinReady s.conn topic)
    (hshared : isShared) : SplitAt isShared s'.conn topic := by
  cases h with
  | already hmem =>
    refine ⟨fun _ => hshared, fun ho _ => hready.held ho, hready.bin, fun ho => ?_⟩
    simp [hmem, hready.json ho hmem]
  | binary hmem c hcut h =>
    refine ⟨fun _ => hshared, fun ho _ => ?_, fun ho => ?_, fun ho => ?_⟩
    · have ho' := h.isOpen (by simpa using ho)
      simp [h.subscriptions, hready.held ho']
    · rw [Connection.mem_topics_trySubscribe (by simpa using ho)]
      simp
    · rw [Connection.mem_topics_trySubscribe (by simpa using ho),
        Connection.mem_topics_tryUnsubscribe (by simpa using ho)]
      simp [Ne.symm bin_ne_json]
  | refused hmem c hcut h =>
    refine ⟨fun _ => hshared, fun ho ht => ?_, fun ho => ?_, fun ho => ?_⟩
    · simp [h.sharedCohorts, hmem] at ht
    · have ho' := h.isOpen (by simpa using ho)
      rw [Connection.mem_topics_trySubscribe (by simpa using ho)]
      simp [bin_ne_json, h.topics, h.sharedCohorts, hready.bin ho']
    · have ho' := h.isOpen (by simpa using ho)
      rw [Connection.mem_topics_trySubscribe (by simpa using ho)]
      simp [h.sharedCohorts, h.subscriptions, hmem, hshared, hready.held ho']
  | gone hmem c hcut h =>
    exact ⟨fun _ => hshared, fun ho => absurd ho (h.gone rfl), fun ho => absurd ho (h.gone rfl),
      fun ho => absurd ho (h.gone rfl)⟩
  | demoted hmem =>
    refine ⟨fun _ => hshared, fun ho ht => ?_, fun ho => ?_, fun ho => ?_⟩
    · simp at ht
    · rw [Connection.mem_topics_trySubscribe (by simpa using ho),
        Connection.mem_topics_tryUnsubscribe (by simpa using ho)]
      simp [bin_ne_json]
    · rw [Connection.mem_topics_trySubscribe (by simpa using ho)]
      have hheld := hready.held (by simpa using ho)
      simp [hshared, hheld]
  | json hmem =>
    refine ⟨fun _ => hshared, fun ho ht => ?_, fun ho => ?_, fun ho => ?_⟩
    · simp [hmem] at ht
    · rw [Connection.mem_topics_trySubscribe (by simpa using ho)]
      have hbin := hready.bin (by simpa using ho)
      simp [bin_ne_json, hbin]
    · rw [Connection.mem_topics_trySubscribe (by simpa using ho)]
      have hheld := hready.held (by simpa using ho)
      simp [hshared, hheld, hmem]

/-- The same announces beside a table that kept the ids of the same cohort set. -/
theorem Accounted.of_attempt {result : ControlResult} (hs : Accounted s)
    (h : Announcing topic id s.conn result c) (hresult : result ≠ .delivered)
    (hcohorts : c'.sharedCohorts = c.sharedCohorts) (hannounced : c'.announced = c.announced)
    (hcut : c'.CutClosed) : Accounted ⟨(s.ids.acquire topic).2.release topic, c'⟩ where
  announced t ht := by
    rw [hcohorts, h.sharedCohorts] at ht
    obtain ⟨id, hid, hmem⟩ := hs.announced t ht
    refine ⟨id, WireIdTable.getId_attempt hid, ?_⟩
    rwa [hannounced, h.announced, if_neg hresult]
  logged := by
    rw [hannounced, h.announced, if_neg hresult, WireIdTable.assigned_release]
    exact List.Subset.trans hs.logged (WireIdTable.assigned_acquire_subset _ _)
  cut := hcut

/-- A reference given back by a connection whose cohort set loses the topic. -/
theorem Accounted.of_release (hs : Accounted s)
    (hcohorts : c'.sharedCohorts = s.conn.sharedCohorts.delete topic)
    (hannounced : c'.announced = s.conn.announced) (hcut : c'.CutClosed) :
    Accounted ⟨s.ids.release topic, c'⟩ where
  announced t ht := by
    rw [hcohorts, JsSet.mem_delete] at ht
    obtain ⟨id, hid, hmem⟩ := hs.announced t ht.2
    refine ⟨id, WireIdTable.getId_release hid ?_, by rwa [hannounced]⟩
    rw [WireIdTable.refs_release, if_neg (Ne.symm ht.1)]
    exact hs.refs_pos ht.2
  logged := by
    rw [hannounced, WireIdTable.assigned_release]
    exact hs.logged
  cut := hcut

/-- A change that leaves the table, the cohort set and the announces alone. -/
theorem Accounted.of_eq (hs : Accounted s) (hids : s'.ids = s.ids)
    (hcohorts : s'.conn.sharedCohorts = s.conn.sharedCohorts)
    (hannounced : s'.conn.announced = s.conn.announced) (hcut : s'.conn.CutClosed) :
    Accounted s' where
  announced t ht := by
    rw [hids, hannounced]
    exact hs.announced t (hcohorts ▸ ht)
  logged := by rw [hids, hannounced]; exact hs.logged
  cut := hcut

theorem Connection.CutClosed.trySubscribe (h : c.CutClosed) (name : String) :
    (c.trySubscribe name).CutClosed := by
  rw [Connection.trySubscribe]
  split <;> exact h

theorem Connection.CutClosed.tryUnsubscribe (h : c.CutClosed) (name : String) :
    (c.tryUnsubscribe name).CutClosed := by
  rw [Connection.tryUnsubscribe]
  split <;> exact h

theorem Connection.CutClosed.cohorts (h : c.CutClosed) (topics : JsSet String) :
    ({ c with sharedCohorts := topics } : Connection).CutClosed := h

theorem JoinOutcome.accounted (h : JoinOutcome s topic s') (hs : Accounted s) : Accounted s' := by
  cases h with
  | already => exact hs
  | binary hmem c hcut h =>
    have hann : c.announced = s.conn.announced ++ [(topic, (s.ids.acquire topic).1)] := by
      rw [h.announced, if_pos rfl]
    have hself := WireIdTable.getId_acquire_self s.ids topic
    refine ⟨?_, ?_, ((hcut.cohorts _).tryUnsubscribe _).trySubscribe _⟩
    · intro t ht
      simp only [Connection.trySubscribe_sharedCohorts, Connection.tryUnsubscribe_sharedCohorts,
        JsSet.mem_add, h.sharedCohorts] at ht
      rcases ht with rfl | ht
      · exact ⟨_, hself, by simp [hann]⟩
      · obtain ⟨id, hid, hmem'⟩ := hs.announced t ht
        exact ⟨id, WireIdTable.getId_acquire_of_some hid, by simp [hann, hmem']⟩
    · simp only [Connection.trySubscribe_announced, Connection.tryUnsubscribe_announced, hann]
      apply List.append_subset.mpr
      refine ⟨List.Subset.trans hs.logged (WireIdTable.assigned_acquire_subset _ _), ?_⟩
      simpa using WireIdTable.mem_assigned_of_getId hself
  | refused hmem c hcut h =>
    exact hs.of_attempt h (fun h => by cases h) (by simp) (by simp) (hcut.trySubscribe _)
  | gone hmem c hcut h => exact hs.of_attempt h (fun h => by cases h) rfl rfl hcut
  | demoted =>
    exact hs.of_release (by simp) (by simp) (((hs.cut.cohorts _).tryUnsubscribe _).trySubscribe _)
  | json => exact hs.of_eq rfl (by simp) (by simp) (.trySubscribe hs.cut _)

/-! ## `leaveSharedCohort` -/

/-- The ways a leave ends: with a reference given back, or without one. -/
theorem leaveSharedCohort_eq (s : Session) (topic : String) :
    leaveSharedCohort s topic =
      if topic ∈ s.conn.sharedCohorts then
        ⟨s.ids.release topic,
          { (s.conn.tryUnsubscribe (cohortTopics topic).bin).tryUnsubscribe
              (cohortTopics topic).json with
            sharedCohorts := s.conn.sharedCohorts.delete topic }⟩
      else
        ⟨s.ids, (s.conn.tryUnsubscribe (cohortTopics topic).bin).tryUnsubscribe
          (cohortTopics topic).json⟩ := by
  simp [leaveSharedCohort]

theorem leaveSharedCohort_sameAt (hne : topic' ≠ topic) :
    SameAt topic' s.conn (leaveSharedCohort s topic).conn := by
  have hnames : SameAt topic' s.conn ((s.conn.tryUnsubscribe (cohortTopics topic).bin).tryUnsubscribe
      (cohortTopics topic).json) := (SameAt.tryUnsubscribe_bin hne).trans (.tryUnsubscribe_json hne)
  rw [leaveSharedCohort_eq]
  split
  · refine ⟨?_, hnames.isOpen, hnames.held, hnames.bin, hnames.json⟩
    simp [hne]
  · exact hnames

theorem leaveSharedCohort_transfer (hs : Accounted s) (topic : String) :
    Transfer s (leaveSharedCohort s topic) := by
  rw [leaveSharedCohort_eq]
  split
  · next hmem => exact .release hmem (hs.refs_pos hmem) rfl
  · exact .of_eq rfl (by simp)

theorem leaveSharedCohort_accounted (hs : Accounted s) (topic : String) :
    Accounted (leaveSharedCohort s topic) := by
  have hcut := (hs.cut.tryUnsubscribe (cohortTopics topic).bin).tryUnsubscribe
    (cohortTopics topic).json
  rw [leaveSharedCohort_eq]
  split
  · exact hs.of_release rfl (by simp) hcut
  · exact hs.of_eq rfl (by simp) (by simp) hcut

/-- A leave takes a topic the connection does not hold off both cohorts. -/
theorem leaveSharedCohort_splitAt (hheld : topic ∉ s.conn.subscriptions) :
    SplitAt isShared (leaveSharedCohort s topic).conn topic := by
  have hcohort : topic ∉ (leaveSharedCohort s topic).conn.sharedCohorts := by
    rw [leaveSharedCohort_eq]
    split
    · simp
    · next hmem => simpa using hmem
  have hsubs : topic ∉ (leaveSharedCohort s topic).conn.subscriptions := by
    rw [leaveSharedCohort_eq]
    split <;> simpa using hheld
  have htopics : (leaveSharedCohort s topic).conn.topics =
      ((s.conn.tryUnsubscribe (cohortTopics topic).bin).tryUnsubscribe
        (cohortTopics topic).json).topics := by
    rw [leaveSharedCohort_eq]
    split <;> rfl
  have hopen : (leaveSharedCohort s topic).conn.readyState = s.conn.readyState := by
    rw [leaveSharedCohort_eq]
    split <;> simp
  refine ⟨fun h => absurd h hcohort, fun _ h => absurd h hcohort, fun ho => ?_, fun ho => ?_⟩
  · rw [hopen] at ho
    rw [htopics, Connection.mem_topics_tryUnsubscribe (by simpa using ho),
      Connection.mem_topics_tryUnsubscribe ho]
    simp [hcohort]
  · rw [hopen] at ho
    rw [htopics, Connection.mem_topics_tryUnsubscribe (by simpa using ho)]
    simp [hsubs]

theorem leaveSharedCohort_subscriptions (s : Session) (topic : String) :
    (leaveSharedCohort s topic).conn.subscriptions = s.conn.subscriptions := by
  rw [leaveSharedCohort_eq]
  split <;> simp

theorem leaveSharedCohort_topics_subset (h : name ∈ (leaveSharedCohort s topic).conn.topics) :
    name ∈ s.conn.topics := by
  apply Connection.topics_tryUnsubscribe_subset
  apply Connection.topics_tryUnsubscribe_subset
  rw [leaveSharedCohort_eq] at h
  split at h <;> exact h

end AdapterWs.Cohort
