import AdapterWs.Presence.Tracker

/-!
# Rosters and connections

A connection that leaves a topic takes one from the count of its user, and gives the channel back
unless it observes the topic. A join does the reverse. The counts of a roster are the connections
recorded under their keys as long as no roster is dropped to make room for another.
-/

namespace AdapterWs.Presence

open JsString Subscribe Option Tracker JsMap

variable {W D : Type} [DecidableEq W] {o : PresenceOptions} {p p' : Tracker W D} {ws ws' : W}
  {topic t key k : JsString} (c : JsString) {joined : Joined D}

/-- Whether what a connection has joined has a topic under a key, as a number. -/
def holds (topics : JsMap JsString (Joined D)) (topic key : JsString) : ℕ :=
  if (topics.get topic).any fun joined => decide (joined.key = key) then 1 else 0

/-- The connections that have joined a topic under a key. -/
def Tracker.joinedUnder (p : Tracker W D) (topic key : JsString) : ℕ :=
  p.wsTopics.total fun topics => holds topics topic key

/-- A user is counted for every connection recorded under their key, and is dropped with the last
of them. -/
structure Counted (p : Tracker W D) : Prop where
  counts : ∀ topic key, ((p.userOf topic key).map User.count).getD 0 = p.joinedUnder topic key
  positive : ∀ topic key user, p.userOf topic key = some user → 0 < user.count

/-- An open connection holds the channel of a topic if it has joined or observes the topic. -/
def Tracker.Channelled (p : Tracker W D) (ws : W) (topic : JsString) : Prop :=
  (p.connections ws).closed = false → (channel topic ∈ (p.connections ws).subscriptions ↔
    (p.joinedOf ws topic).isSome ∨ p.observes ws topic = true)

/-! ## Subscriptions -/

theorem channel_inj : channel topic = channel t ↔ topic = t :=
  List.append_right_inj TOPIC_PREFIX

theorem closed_trackedUnsubscribe :
    ((p.trackedUnsubscribe ws c).connections ws').closed = (p.connections ws').closed := by
  rw [trackedUnsubscribe]
  by_cases heq : ws' = ws
  · subst heq
    split_ifs <;> simp
  · split_ifs <;> simp [heq]

theorem mem_trackedUnsubscribe (hopen : (p.connections ws').closed = false) (c c' : JsString) :
    c' ∈ ((p.trackedUnsubscribe ws c).connections ws').subscriptions ↔
      c' ∈ (p.connections ws').subscriptions ∧ ¬(ws = ws' ∧ c' = c) := by
  rw [trackedUnsubscribe]
  by_cases heq : ws = ws'
  · subst heq
    simp only [hopen, Bool.false_eq_true, if_false, Function.update_self, JsSet.mem_delete]
    tauto
  · split_ifs <;> simp [heq, Ne.symm heq]

theorem closed_trackedSubscribe :
    ((p.trackedSubscribe ws c).2.connections ws').closed = (p.connections ws').closed := by
  simp only [trackedSubscribe]
  by_cases heq : ws' = ws
  · subst heq
    split_ifs <;> simp
  · split_ifs <;> simp [heq]

theorem mem_trackedSubscribe (c' : JsString) :
    c' ∈ ((p.trackedSubscribe ws c).2.connections ws').subscriptions ↔
      c' ∈ (p.connections ws').subscriptions ∨
        (ws = ws' ∧ c' = c ∧ (p.trackedSubscribe ws c).1 = true) := by
  simp only [trackedSubscribe]
  by_cases heq : ws = ws'
  · subst heq
    split_ifs <;> simp
    tauto
  · split_ifs <;> simp [heq, Ne.symm heq]

/-- A subscribe that fails on an open connection is for a topic it does not hold. -/
theorem not_mem_of_trackedSubscribe {c : JsString} (hopen : (p.connections ws).closed = false)
    (hfailed : (p.trackedSubscribe ws c).1 = false) : c ∉ (p.connections ws).subscriptions := by
  intro hmem
  simp [trackedSubscribe, hopen, hmem, exceedsSubscriptionCap] at hfailed

/-! ## Records -/

@[simp] theorem holds_empty : holds (empty : JsMap JsString (Joined D)) topic key = 0 := rfl

theorem holds_of_size {topics : JsMap JsString (Joined D)} (h : topics.size = 0) :
    holds topics topic key = 0 := by
  rw [holds, get_eq_none_of_size h]
  rfl

theorem topicsOf_setTopics (topics : JsMap JsString (Joined D)) (t : JsString) :
    (p.setTopics ws topics).joinedOf ws' t =
      if ws = ws' then topics.get t else p.joinedOf ws' t := by
  simp only [joinedOf, topicsOf, setTopics]
  by_cases heq : ws = ws'
  · subst heq
    rw [if_pos (rfl : ws = ws)]
    split_ifs with hsize
    · rw [get_eq_none_of_size hsize, get_delete_self]
      rfl
    · rw [get_set_self]
      rfl
  · split_ifs <;> simp [get_delete, get_set, heq]

/-- What a connection held, and what it holds, in the count of all. -/
theorem joinedUnder_setTopics (p : Tracker W D) (ws : W) (topics : JsMap JsString (Joined D))
    (t k : JsString) :
    (p.setTopics ws topics).joinedUnder t k + holds (p.topicsOf ws) t k =
      p.joinedUnder t k + holds topics t k := by
  have hold : ((p.wsTopics.get ws).map fun topics => holds topics t k).getD 0 =
      holds (p.topicsOf ws) t k := by
    rw [topicsOf]
    cases p.wsTopics.get ws <;> rfl
  simp only [joinedUnder, setTopics]
  split_ifs with hsize
  · have htotal := p.wsTopics.total_delete (fun topics => holds topics t k) ws
    rw [holds_of_size hsize]
    omega
  · have htotal := p.wsTopics.total_set (fun topics => holds topics t k) ws topics
    omega

/-! ## Users -/

omit [DecidableEq W] in
theorem userOf_setUsers (users : JsMap JsString (User D)) (t k : JsString) :
    (p.setUsers topic users).userOf t k =
      if topic = t then users.get k else p.userOf t k := by
  simp only [userOf, setUsers]
  by_cases heq : topic = t
  · subst heq
    rw [if_pos (rfl : topic = topic)]
    split_ifs with hsize
    · rw [get_eq_none_of_size hsize, get_delete_self]
      rfl
    · rw [get_set_self]
      rfl
  · split_ifs <;> simp [get_delete, get_set, heq]

/-- A user with one connection less. -/
def released (user : User D) : Option (User D) :=
  if user.count - 1 ≤ 0 then none else some { user with count := user.count - 1 }

omit [DecidableEq W] in
theorem userOf_releaseUser {users : JsMap JsString (User D)} (key : JsString) (existing : User D)
    (husers : p.topicPresence.get topic = some users) (t k : JsString) :
    (p.releaseUser topic key users existing).userOf t k =
      if topic = t ∧ key = k then released existing else p.userOf t k := by
  have hother : topic = t → users.get k = p.userOf t k := by
    rintro rfl
    rw [userOf, husers]
    rfl
  rw [releaseUser, released]
  split_ifs with hlast hsame hsame
  · change (p.setUsers topic (users.delete key)).userOf t k = none
    rw [userOf_setUsers, if_pos hsame.1, get_delete, if_pos hsame.2]
  · change (p.setUsers topic (users.delete key)).userOf t k = _
    rw [userOf_setUsers, get_delete]
    by_cases heq : topic = t
    · rw [if_pos heq, if_neg (fun hkey => hsame ⟨heq, hkey⟩)]
      exact hother heq
    · rw [if_neg heq]
  · rw [userOf_setUsers, if_pos hsame.1, get_set, if_pos hsame.2]
  · rw [userOf_setUsers, get_set]
    by_cases heq : topic = t
    · rw [if_pos heq, if_neg (fun hkey => hsame ⟨heq, hkey⟩)]
      exact hother heq
    · rw [if_neg heq]

omit [DecidableEq W] in
theorem wsTopics_releaseUser (p : Tracker W D) (topic key : JsString)
    (users : JsMap JsString (User D)) (existing : User D) :
    (p.releaseUser topic key users existing).wsTopics = p.wsTopics ∧
      (p.releaseUser topic key users existing).syncObservers = p.syncObservers ∧
      (p.releaseUser topic key users existing).connections = p.connections := by
  rw [releaseUser]
  split_ifs <;> exact ⟨rfl, rfl, rfl⟩

/-! ## Leaving a topic -/

theorem trackedUnsubscribe_eq : p.trackedUnsubscribe ws c =
    { p with connections := (p.trackedUnsubscribe ws c).connections } := by
  rw [trackedUnsubscribe]
  split_ifs <;> rfl

theorem trackedUnsubscribe_congr (h : p'.connections = p.connections) (c : JsString) :
    (p'.trackedUnsubscribe ws c).connections = (p.trackedUnsubscribe ws c).connections := by
  simp only [trackedUnsubscribe, h]
  split_ifs
  · exact h
  · rfl

omit [DecidableEq W] in
theorem Counted.congr (h : Counted p) (hws : p'.wsTopics = p.wsTopics)
    (htopics : p'.topicPresence = p.topicPresence) : Counted p' := by
  have huser : ∀ t k, p'.userOf t k = p.userOf t k := fun t k => by
    rw [userOf, htopics]
    rfl
  have hunder : ∀ t k, p'.joinedUnder t k = p.joinedUnder t k := fun t k => by
    rw [joinedUnder, hws]
    rfl
  exact ⟨fun t k => by rw [huser, hunder, h.counts],
    fun t k user hget => h.positive t k user (huser t k ▸ hget)⟩

/-- What a tracker is after a connection has left a topic it had joined. -/
structure Left (p p' : Tracker W D) (ws : W) (topic : JsString) : Prop where
  counted : Counted p'
  joined : ∀ ws' t, p'.joinedOf ws' t = if ws = ws' ∧ topic = t then none else p.joinedOf ws' t
  observers : p'.syncObservers = p.syncObservers
  connections : p'.connections = if p.observes ws topic then p.connections
    else (p.trackedUnsubscribe ws (channel topic)).connections

theorem joinedOf_congr (h : p'.wsTopics = p.wsTopics) (ws : W) (t : JsString) :
    p'.joinedOf ws t = p.joinedOf ws t := by
  rw [joinedOf, topicsOf, h]
  rfl

omit [DecidableEq W] in
theorem joinedUnder_congr (h : p'.wsTopics = p.wsTopics) (t k : JsString) :
    p'.joinedUnder t k = p.joinedUnder t k := by
  rw [joinedUnder, h]
  rfl

/-- A connection that has joined a topic counts for its user. -/
theorem joinedUnder_pos (h : p.joinedOf ws topic = some joined) :
    0 < p.joinedUnder topic joined.key := by
  have hset := joinedUnder_setTopics p ws .empty topic joined.key
  have hone : holds (p.topicsOf ws) topic joined.key = 1 := by
    rw [joinedOf] at h
    simp [holds, h]
  rw [hone, holds_empty] at hset
  omega

section

variable (h : Counted p) (hjoined : p.joinedOf ws topic = some joined)
include h hjoined

theorem Counted.exists_user :
    ∃ users existing, p.topicPresence.get topic = some users ∧
      users.get joined.key = some existing ∧ p.userOf topic joined.key = some existing := by
  have hpos := joinedUnder_pos hjoined
  have hcount := h.counts topic joined.key
  cases huser : p.userOf topic joined.key with
  | none =>
    rw [huser] at hcount
    simp only [map_none, getD_none] at hcount
    omega
  | some user =>
    obtain ⟨users, husers, hget⟩ := bind_eq_some_iff.mp huser
    exact ⟨users, user, husers, hget, rfl⟩

/-- The counts where a connection has left, and its user has one connection less. -/
theorem Counted.released {existing : User D} (huser : p.userOf topic joined.key = some existing)
    (hws : p'.wsTopics = (p.setTopics ws ((p.topicsOf ws).delete topic)).wsTopics)
    (husers : ∀ t k, p'.userOf t k =
      if topic = t ∧ joined.key = k then Presence.released existing else p.userOf t k) :
    Counted p' := by
  have hunder : ∀ t k, p'.joinedUnder t k + (if topic = t ∧ joined.key = k then 1 else 0) =
      p.joinedUnder t k := by
    intro t k
    have hset := joinedUnder_setTopics p ws ((p.topicsOf ws).delete topic) t k
    rw [joinedUnder_congr hws]
    rw [joinedOf] at hjoined
    by_cases heq : topic = t
    · subst heq
      have hnone : holds ((p.topicsOf ws).delete topic) topic k = 0 := by simp [holds]
      have hhad : holds (p.topicsOf ws) topic k = if joined.key = k then 1 else 0 := by
        simp [holds, hjoined]
      rw [hnone, hhad] at hset
      simp only [true_and]
      omega
    · have hkept : holds ((p.topicsOf ws).delete topic) t k = holds (p.topicsOf ws) t k := by
        simp [holds, get_delete, heq]
      rw [if_neg (fun hsame => heq hsame.1)]
      omega
  refine ⟨fun t k => ?_, fun t k user hget => ?_⟩
  · have hcount := h.counts t k
    have hleft := hunder t k
    rw [husers]
    by_cases hsame : topic = t ∧ joined.key = k
    · obtain ⟨rfl, rfl⟩ := hsame
      have hpositive := h.positive _ _ _ huser
      rw [huser, map_some, getD_some] at hcount
      rw [if_pos ⟨rfl, rfl⟩] at hleft ⊢
      rw [Presence.released]
      split_ifs with hlast
      · simp only [map_none, getD_none]
        omega
      · simp only [map_some, getD_some]
        omega
    · rw [if_neg hsame] at hleft ⊢
      rw [hcount]
      omega
  · rw [husers] at hget
    split_ifs at hget with hsame
    · rw [Presence.released] at hget
      split_ifs at hget with hlast
      cases hget
      simp only
      omega
    · exact h.positive t k user hget

theorem Counted.leaveTopic : Left p (p.leaveTopic ws topic) ws topic := by
  obtain ⟨users, existing, husers, hexisting, huser⟩ := h.exists_user hjoined
  have hset : (p.setTopics ws ((p.topicsOf ws).delete topic)).topicPresence.get topic =
      some users := husers
  rw [Tracker.leaveTopic, hjoined]
  simp only
  rw [hset]
  simp only
  rw [hexisting]
  simp only
  obtain ⟨hws, hobservers, hconnections⟩ := wsTopics_releaseUser
    (p.setTopics ws ((p.topicsOf ws).delete topic)) topic joined.key users existing
  have hreleased := userOf_releaseUser joined.key existing hset
  generalize (p.setTopics ws ((p.topicsOf ws).delete topic)).releaseUser topic joined.key users
    existing = r at hws hobservers hconnections hreleased ⊢
  have hcounted : Counted r := h.released hjoined huser hws hreleased
  have hjoined' : ∀ ws' t, r.joinedOf ws' t =
      if ws = ws' ∧ topic = t then none else p.joinedOf ws' t := by
    intro ws' t
    rw [joinedOf_congr hws, topicsOf_setTopics, get_delete]
    by_cases heq : ws = ws'
    · subst heq
      by_cases htopic : topic = t <;> simp [htopic, joinedOf]
    · simp [heq]
  have hobserves : r.observes ws topic = p.observes ws topic := by
    rw [observes, hobservers]
    rfl
  rw [hobserves]
  have hsame : r.connections = p.connections := hconnections
  split_ifs with hobserved
  · exact ⟨hcounted, hjoined', hobservers, by rw [if_pos hobserved]; exact hsame⟩
  · rw [trackedUnsubscribe_eq]
    refine ⟨hcounted.congr rfl rfl, hjoined', hobservers, ?_⟩
    rw [if_neg hobserved]
    exact trackedUnsubscribe_congr hsame _

end

/-! ## Leaving topics -/

/-- The counts of the rosters, and the channels of all connections. -/
structure Steady (p : Tracker W D) : Prop where
  counted : Counted p
  channelled : ∀ ws topic, p.Channelled ws topic

theorem observes_congr (h : p'.syncObservers = p.syncObservers) (ws : W) (t : JsString) :
    p'.observes ws t = p.observes ws t := by
  rw [observes, h]
  rfl

theorem Left.channelled (h : Left p p' ws topic) (hchannel : p.Channelled ws' t) :
    p'.Channelled ws' t := by
  have hobserves := observes_congr h.observers ws' t
  rw [Channelled, h.joined, hobserves, h.connections]
  by_cases hobserved : p.observes ws topic = true
  · rw [if_pos hobserved]
    by_cases hsame : ws = ws' ∧ topic = t
    · obtain ⟨rfl, rfl⟩ := hsame
      intro hopen
      rw [hchannel hopen]
      simp [hobserved]
    · rw [if_neg hsame]
      exact hchannel
  · rw [if_neg hobserved, closed_trackedUnsubscribe]
    intro hopen
    rw [mem_trackedUnsubscribe hopen, hchannel hopen, channel_inj]
    by_cases hsame : ws = ws' ∧ topic = t
    · obtain ⟨rfl, rfl⟩ := hsame
      simp [hobserved]
    · rw [if_neg hsame]
      simp only [and_iff_left_iff_imp]
      exact fun _ hback => hsame ⟨hback.1, hback.2.symm⟩

theorem Steady.leaveTopic (h : Steady p) (ws : W) (topic : JsString) :
    Steady (p.leaveTopic ws topic) ∧ ∀ ws' t, (p.leaveTopic ws topic).joinedOf ws' t =
      if ws = ws' ∧ topic = t then none else p.joinedOf ws' t := by
  cases hjoined : p.joinedOf ws topic with
  | none =>
    rw [Tracker.leaveTopic, hjoined]
    refine ⟨h, fun ws' t => ?_⟩
    split_ifs with hsame
    · obtain ⟨rfl, rfl⟩ := hsame
      exact hjoined
    · rfl
  | some joined =>
    have hleft := h.counted.leaveTopic hjoined
    exact ⟨⟨hleft.counted, fun ws' t => hleft.channelled (h.channelled ws' t)⟩, hleft.joined⟩

theorem Steady.leaveTopics (h : Steady p) (ws : W) (topics : List JsString) :
    Steady (p.leaveTopics ws topics) ∧ ∀ ws' t, (p.leaveTopics ws topics).joinedOf ws' t =
      if ws = ws' ∧ t ∈ topics then none else p.joinedOf ws' t := by
  induction topics generalizing p with
  | nil => exact ⟨h, fun ws' t => by simp [leaveTopics]⟩
  | cons topic topics ih =>
    obtain ⟨hsteady, hjoined⟩ := h.leaveTopic ws topic
    obtain ⟨hsteady', hjoined'⟩ := ih hsteady
    refine ⟨hsteady', fun ws' t => ?_⟩
    rw [leaveTopics, hjoined', hjoined]
    by_cases hws : ws = ws'
    · by_cases htopic : topic = t
      · simp [hws, htopic]
      · simp [hws, htopic, Ne.symm htopic]
    · simp [hws]

/-- The entry of a connection that has joined nothing is dropped. -/
theorem Steady.dropTopics (h : Steady p) (ws : W) (hnone : ∀ t, p.joinedOf ws t = none) :
    Steady { p with wsTopics := p.wsTopics.delete ws } ∧
      ∀ ws' t, joinedOf { p with wsTopics := p.wsTopics.delete ws } ws' t =
        p.joinedOf ws' t := by
  have hjoined : ∀ ws' t, joinedOf { p with wsTopics := p.wsTopics.delete ws } ws' t =
      p.joinedOf ws' t := by
    intro ws' t
    by_cases heq : ws = ws'
    · subst heq
      rw [hnone]
      simp [joinedOf, topicsOf]
    · simp [joinedOf, topicsOf, get_delete, heq]
  have hunder : ∀ t k, joinedUnder { p with wsTopics := p.wsTopics.delete ws } t k =
      p.joinedUnder t k := by
    intro t k
    have htotal := p.wsTopics.total_delete (fun topics => holds topics t k) ws
    have hzero : ((p.wsTopics.get ws).map fun topics => holds topics t k).getD 0 = 0 := by
      have := hnone t
      rw [joinedOf, topicsOf] at this
      cases hget : p.wsTopics.get ws with
      | none => rfl
      | some topics =>
        rw [hget, getD_some] at this
        simp [holds, this]
    rw [hzero] at htotal
    exact htotal
  refine ⟨⟨⟨fun t k => ?_, h.counted.positive⟩, fun ws' t => ?_⟩, hjoined⟩
  · rw [hunder]
    exact h.counted.counts t k
  · rw [Channelled, hjoined]
    exact h.channelled ws' t

theorem Steady.leaveAll (h : Steady p) (ws : W) :
    Steady (p.leaveAll ws) ∧ ∀ ws' t, (p.leaveAll ws).joinedOf ws' t =
      if ws = ws' then none else p.joinedOf ws' t := by
  obtain ⟨hsteady, hjoined⟩ := h.leaveTopics ws (p.topicsOf ws).keys
  have hall : ∀ ws' t, (p.leaveTopics ws (p.topicsOf ws).keys).joinedOf ws' t =
      if ws = ws' then none else p.joinedOf ws' t := by
    intro ws' t
    rw [hjoined]
    by_cases hws : ws = ws'
    · subst hws
      rw [if_pos rfl]
      split_ifs with hmem
      · rfl
      · have hkey : t ∉ (p.topicsOf ws).keys := fun hkey => hmem ⟨rfl, hkey⟩
        exact get_eq_none_iff.mpr hkey
    · rw [if_neg hws, if_neg (fun hsame => hws hsame.1)]
  obtain ⟨hdropped, hkept⟩ := hsteady.dropTopics ws fun t => by rw [hall, if_pos rfl]
  exact ⟨hdropped, fun ws' t => (hkept ws' t).trans (hall ws' t)⟩

/-! ## Leaving and observing -/

theorem unsubscribeAll_eq (ws : W) (topics : List JsString) : p.unsubscribeAll ws topics =
    { p with connections := (p.unsubscribeAll ws topics).connections } := by
  induction topics generalizing p with
  | nil => rfl
  | cons topic topics ih =>
    rw [unsubscribeAll, ih, trackedUnsubscribe_eq]

theorem unsubscribeAll_spec (ws ws' : W) (topics : List JsString) :
    ((p.unsubscribeAll ws topics).connections ws').closed = (p.connections ws').closed ∧
      ((p.connections ws').closed = false → ∀ t,
        (channel t ∈ ((p.unsubscribeAll ws topics).connections ws').subscriptions ↔
          channel t ∈ (p.connections ws').subscriptions ∧ ¬(ws = ws' ∧ t ∈ topics))) := by
  induction topics generalizing p with
  | nil => simp [unsubscribeAll]
  | cons topic topics ih =>
    obtain ⟨hclosed, hmem⟩ := ih (p := p.trackedUnsubscribe ws (channel topic))
    rw [closed_trackedUnsubscribe] at hclosed hmem
    refine ⟨hclosed, fun hopen t => ?_⟩
    rw [unsubscribeAll, hmem hopen, mem_trackedUnsubscribe hopen, channel_inj,
      List.mem_cons]
    tauto

/-- A connection that has joined nothing gives up what it observes. -/
theorem Steady.unobserve {observed : JsSet JsString} (h : Steady p)
    (hobserved : p.syncObservers.get ws = some observed) (hnone : ∀ t, p.joinedOf ws t = none) :
    Steady { p.unsubscribeAll ws observed.elems with
      syncObservers := (p.unsubscribeAll ws observed.elems).syncObservers.delete ws } := by
  rw [unsubscribeAll_eq]
  refine ⟨h.counted.congr rfl rfl, fun ws' t => ?_⟩
  intro hopen
  obtain ⟨hclosed, hmem⟩ := unsubscribeAll_spec (p := p) ws ws' observed.elems
  simp only at hopen ⊢
  rw [hclosed] at hopen
  rw [hmem hopen, h.channelled ws' t hopen]
  simp only [observes, get_delete]
  change _ ↔ (p.joinedOf ws' t).isSome = true ∨ _
  by_cases heq : ws = ws'
  · subst heq
    simp [hnone, hobserved]
  · simp [heq]

theorem Steady.leave (h : Steady p) (ws : W) : Steady (p.leave ws) := by
  rw [Tracker.leave]
  obtain ⟨hsteady, hnone⟩ : Steady (if (p.wsTopics.get ws).isSome then p.leaveAll ws else p) ∧
      ∀ t, (if (p.wsTopics.get ws).isSome then p.leaveAll ws else p).joinedOf ws t = none := by
    split_ifs with hget
    · obtain ⟨hleft, hjoined⟩ := h.leaveAll ws
      exact ⟨hleft, fun t => by rw [hjoined, if_pos rfl]⟩
    · refine ⟨h, fun t => ?_⟩
      rw [joinedOf, topicsOf, not_isSome_iff_eq_none.mp hget]
      rfl
  generalize (if (p.wsTopics.get ws).isSome then p.leaveAll ws else p) = q at hsteady hnone ⊢
  simp only
  cases hobserved : q.syncObservers.get ws with
  | none => exact hsteady
  | some observed => exact hsteady.unobserve hobserved hnone

theorem trackedSubscribe_eq (p : Tracker W D) (ws : W) (c : JsString) :
    (p.trackedSubscribe ws c).2 =
      { p with connections := (p.trackedSubscribe ws c).2.connections } := by
  simp only [trackedSubscribe]
  split_ifs <;> rfl

theorem ne_channel {c : JsString} (hother : TOPIC_PREFIX.isPrefixOf c = false) (t : JsString) :
    channel t ≠ c := by
  rintro rfl
  have hstarts : TOPIC_PREFIX.isPrefixOf (channel t) = true :=
    List.isPrefixOf_iff_prefix.mpr (List.prefix_append _ _)
  rw [hstarts] at hother
  cases hother

theorem Steady.subscribeOther (h : Steady p) (ws : W) {c : JsString}
    (hother : TOPIC_PREFIX.isPrefixOf c = false) : Steady (p.trackedSubscribe ws c).2 := by
  rw [trackedSubscribe_eq]
  refine ⟨h.counted.congr rfl rfl, fun ws' t hopen => ?_⟩
  simp only [closed_trackedSubscribe] at hopen
  simp only [mem_trackedSubscribe, ne_channel hother t, false_and, and_false, or_false]
  exact h.channelled ws' t hopen

theorem Steady.unsubscribeOther (h : Steady p) (ws : W) {c : JsString}
    (hother : TOPIC_PREFIX.isPrefixOf c = false) : Steady (p.trackedUnsubscribe ws c) := by
  rw [trackedUnsubscribe_eq]
  refine ⟨h.counted.congr rfl rfl, fun ws' t hopen => ?_⟩
  simp only [closed_trackedUnsubscribe] at hopen
  simp only [mem_trackedUnsubscribe hopen, ne_channel hother t, and_false, not_false_eq_true,
    and_true]
  exact h.channelled ws' t hopen

theorem Steady.close (h : Steady p) (ws : W) : Steady { p with
    connections := Function.update p.connections ws { p.connections ws with closed := true } } := by
  refine ⟨h.counted.congr rfl rfl, fun ws' t hopen => ?_⟩
  by_cases heq : ws' = ws
  · subst heq
    simp at hopen
  · simp only [Function.update_of_ne heq] at hopen ⊢
    exact h.channelled ws' t hopen

theorem observes_setObserved (observed : JsSet JsString) (t : JsString) :
    (p.setObserved ws observed).observes ws' t =
      if ws = ws' then decide (t ∈ observed) else p.observes ws' t := by
  simp only [observes, setObserved]
  by_cases heq : ws = ws'
  · subst heq
    rw [if_pos (rfl : ws = ws)]
    split_ifs with hsize
    · have hnil : observed.elems = [] := List.eq_nil_of_length_eq_zero hsize
      have hnone : t ∉ observed := fun hmem => by
        rw [← JsSet.mem_elems, hnil] at hmem
        exact List.not_mem_nil hmem
      simp [hnone]
    · simp
  · split_ifs <;> simp [get_delete, get_set, heq]

theorem Steady.sync (h : Steady p) (ws : W) (topic : JsString) (allowed : Bool) :
    Steady (p.sync ws topic allowed) := by
  rw [Tracker.sync]
  split_ifs with hrefused
  · exact h
  · simp only
    have hobserved : ∀ t, decide (t ∈ (p.syncObservers.get ws).getD .empty) = p.observes ws t := by
      intro t
      rw [observes]
      cases p.syncObservers.get ws <;> simp
    generalize (p.syncObservers.get ws).getD .empty = observed at hobserved ⊢
    have hconnections : ({ p with
        syncObservers := p.syncObservers.set ws (observed.add topic) } : Tracker W D).connections =
          p.connections := rfl
    have hobserves : ∀ ws' t, observes { p with
        syncObservers := p.syncObservers.set ws (observed.add topic) } ws' t =
          (p.observes ws' t || decide (ws = ws' ∧ t = topic)) := by
      intro ws' t
      by_cases heq : ws = ws'
      · subst heq
        rw [← hobserved]
        simp [observes, Bool.or_comm]
      · simp [observes, get_set, heq]
    generalize hq : ({ p with
      syncObservers := p.syncObservers.set ws (observed.add topic) } : Tracker W D) = q at *
    have hcounted : Counted q := h.counted.congr (by rw [← hq]) (by rw [← hq])
    have hjoined : ∀ ws' t, q.joinedOf ws' t = p.joinedOf ws' t :=
      joinedOf_congr (by rw [← hq])
    split_ifs with hsubscribed
    · rw [trackedSubscribe_eq]
      refine ⟨hcounted.congr rfl rfl, fun ws' t hopen => ?_⟩
      simp only [closed_trackedSubscribe, hconnections] at hopen
      simp only [mem_trackedSubscribe, hsubscribed, hconnections, channel_inj, and_true]
      change _ ↔ (q.joinedOf ws' t).isSome = true ∨ q.observes ws' t = true
      rw [h.channelled ws' t hopen, hjoined, hobserves]
      simp only [Bool.or_eq_true, decide_eq_true_eq]
      tauto
    · rw [trackedSubscribe_eq]
      refine ⟨hcounted.congr rfl rfl, fun ws' t hopen => ?_⟩
      have hfailed : (q.trackedSubscribe ws (channel topic)).1 = false :=
        Bool.eq_false_iff.mpr hsubscribed
      rw [observes_setObserved]
      change _ ↔ (q.joinedOf ws' t).isSome = true ∨
        (if ws = ws' then decide (t ∈ (observed.add topic).delete topic)
          else q.observes ws' t) = true
      change ((q.trackedSubscribe ws (channel topic)).2.connections ws').closed = false at hopen
      change channel t ∈ ((q.trackedSubscribe ws (channel topic)).2.connections ws').subscriptions
        ↔ _
      rw [closed_trackedSubscribe, hconnections] at hopen
      rw [mem_trackedSubscribe, hfailed, hconnections, h.channelled ws' t hopen, hjoined, hobserves]
      by_cases heq : ws = ws'
      · subst heq
        rw [← hobserved]
        have hnot := not_mem_of_trackedSubscribe (by rw [hconnections]; exact hopen) hfailed
        rw [hconnections, h.channelled ws topic hopen, ← hobserved] at hnot
        by_cases htopic : t = topic
        · subst htopic
          simp only [not_or, decide_eq_true_eq] at hnot
          simp [hnot.2]
        · simp [htopic]
      · simp [heq]

/-! ## Joining -/

/-- Room for a connection. One that has joined nothing before has joined nothing after. -/
theorem Steady.connectionRoom (h : Steady p) (ws : W) : Steady (p.connectionRoom o ws) ∧
    ∀ t, p.joinedOf ws t = none → (p.connectionRoom o ws).joinedOf ws t = none := by
  rw [Tracker.connectionRoom]
  split_ifs with hroom
  · exact ⟨h, fun _ hnone => hnone⟩
  · cases p.wsTopics.keys.head? with
    | none => exact ⟨h, fun _ hnone => hnone⟩
    | some oldest =>
      obtain ⟨hsteady, hjoined⟩ := h.leaveAll oldest
      refine ⟨hsteady, fun t hnone => ?_⟩
      rw [hjoined]
      split_ifs
      · rfl
      · exact hnone

variable [DecidableEq D]

omit [DecidableEq W] in
theorem userOf_countUser (key : JsString) (data : D) (t k : JsString) :
    ((p.countUser topic key data).userOf t k).map User.count =
      if topic = t ∧ key = k then some (((p.userOf topic key).map User.count).getD 0 + 1)
      else (p.userOf t k).map User.count := by
  have husers : ∀ k, ((p.topicPresence.get topic).getD .empty).get k = p.userOf topic k := by
    intro k
    rw [userOf]
    cases p.topicPresence.get topic <;> rfl
  have hset : ∀ user : User D, (((p.topicPresence.set topic
      (((p.topicPresence.get topic).getD .empty).set key user)).get t).bind
        fun users => users.get k) = if topic = t ∧ key = k then some user else p.userOf t k := by
    intro user
    rw [get_set]
    by_cases htopic : topic = t
    · subst htopic
      simp [get_set, husers]
    · rw [if_neg htopic, if_neg (fun hsame => htopic hsame.1), userOf]
  rw [countUser]
  simp only
  rw [husers]
  cases p.userOf topic key with
  | none =>
    simp only [userOf, bufferDiff, hset]
    split_ifs <;> rfl
  | some existing =>
    by_cases hdata : existing.data = data
    · simp only [if_pos hdata, userOf, hset]
      split_ifs <;> rfl
    · simp only [if_neg hdata, userOf, bufferDiff, hset]
      split_ifs <;> rfl

omit [DecidableEq W] in
theorem countUser_eq (p : Tracker W D) (topic key : JsString) (data : D) :
    (p.countUser topic key data).wsTopics = p.wsTopics ∧
      (p.countUser topic key data).syncObservers = p.syncObservers ∧
      (p.countUser topic key data).connections = p.connections := by
  rw [countUser]
  simp only
  split
  · split_ifs <;> exact ⟨rfl, rfl, rfl⟩
  · exact ⟨rfl, rfl, rfl⟩

omit [DecidableEq D] in
/-- The counts where a connection has joined, and its user has one connection more. -/
theorem Counted.recorded (h : Counted p) (hnone : p.joinedOf ws topic = none)
    (hws : p'.wsTopics = p.wsTopics.set ws ((p.topicsOf ws).set topic joined))
    (husers : ∀ t k, (p'.userOf t k).map User.count = if topic = t ∧ joined.key = k then
      some (((p.userOf topic joined.key).map User.count).getD 0 + 1)
    else (p.userOf t k).map User.count) : Counted p' := by
  have hunder : ∀ t k, p'.joinedUnder t k =
      p.joinedUnder t k + if topic = t ∧ joined.key = k then 1 else 0 := by
    intro t k
    have htotal := p.wsTopics.total_set (fun topics => holds topics t k) ws
      ((p.topicsOf ws).set topic joined)
    have hold : ((p.wsTopics.get ws).map fun topics => holds topics t k).getD 0 =
        holds (p.topicsOf ws) t k := by
      rw [topicsOf]
      cases p.wsTopics.get ws <;> rfl
    have hmore : holds ((p.topicsOf ws).set topic joined) t k =
        holds (p.topicsOf ws) t k + if topic = t ∧ joined.key = k then 1 else 0 := by
      rw [joinedOf] at hnone
      by_cases htopic : topic = t
      · subst htopic
        simp [holds, hnone]
      · simp [holds, get_set, htopic]
    rw [joinedUnder, joinedUnder, hws]
    omega
  refine ⟨fun t k => ?_, fun t k user hget => ?_⟩
  · rw [husers, hunder]
    split_ifs with hsame
    · obtain ⟨rfl, rfl⟩ := hsame
      rw [getD_some, h.counts, Nat.cast_add, Nat.cast_one]
    · exact h.counts t k
  · have hcount := husers t k
    rw [hget] at hcount
    split_ifs at hcount with hsame
    · rw [h.counts, map_some] at hcount
      have := some.inj hcount
      omega
    · cases huser : p.userOf t k with
      | none =>
        rw [huser] at hcount
        cases hcount
      | some user' =>
        rw [huser] at hcount
        have := some.inj hcount
        rw [this]
        exact h.positive t k user' huser

/-- A step that drops no roster to make room for another. -/
def KeepsTopics (o : PresenceOptions) (p : Tracker W D) : PresenceEvent W D → Prop
  | .join ws topic selected => p.refusesJoin o ws topic selected = false →
      ((p.connectionRoom o ws).topicPresence.get topic).isSome ∨
        (p.connectionRoom o ws).topicPresence.size < o.maxTopics
  | _ => True

/-- A connection was recorded on a topic, its channel not subscribed yet. -/
structure Recorded (q r : Tracker W D) (ws : W) (topic : JsString) (joined : Joined D) : Prop where
  before : Steady q
  notBefore : q.joinedOf ws topic = none
  counted : Counted r
  joinedOf : ∀ ws' t, r.joinedOf ws' t =
    if ws = ws' ∧ topic = t then some joined else q.joinedOf ws' t
  observers : r.syncObservers = q.syncObservers
  connections : r.connections = q.connections

theorem Steady.record (h : Steady p) (selected : Selected D) (hnone : p.joinedOf ws topic = none)
    (hroom : ((p.connectionRoom o ws).topicPresence.get topic).isSome ∨
      (p.connectionRoom o ws).topicPresence.size < o.maxTopics) :
    ∃ q joined, Recorded q (p.record o ws topic selected) ws topic joined := by
  obtain ⟨hsteady, hkept⟩ := h.connectionRoom (o := o) ws
  have hnone' := hkept topic hnone
  rw [Tracker.record]
  simp only
  generalize p.connectionRoom o ws = q at hroom hsteady hnone' ⊢
  generalize p.resolveKey selected = resolved
  rw [topicRoom, if_pos hroom]
  obtain ⟨hws, hobservers, hconnections⟩ := countUser_eq
    { q with
      connCounter := resolved.2
      wsTopics := q.wsTopics.set ws ((q.topicsOf ws).set topic ⟨resolved.1, selected.data⟩) }
    topic resolved.1 selected.data
  refine ⟨q, ⟨resolved.1, selected.data⟩, hsteady, hnone', ?_, fun ws' t => ?_, hobservers,
    hconnections⟩
  · exact hsteady.counted.recorded hnone' hws (userOf_countUser _ _)
  · rw [joinedOf_congr hws]
    by_cases heq : ws = ws'
    · subst heq
      simp [joinedOf, topicsOf, get_set]
    · simp [joinedOf, topicsOf, get_set, heq]

section Recorded

variable {q r : Tracker W D} {joined : Joined D}

omit [DecidableEq D] in
theorem Recorded.subscribed (h : Recorded q r ws topic joined)
    (hsubscribed : (r.trackedSubscribe ws (channel topic)).1 = true) :
    Steady (r.trackedSubscribe ws (channel topic)).2 := by
  rw [trackedSubscribe_eq]
  refine ⟨h.counted.congr rfl rfl, fun ws' t hopen => ?_⟩
  simp only [closed_trackedSubscribe, h.connections] at hopen
  simp only [mem_trackedSubscribe, hsubscribed, h.connections, channel_inj, and_true]
  change _ ↔ (r.joinedOf ws' t).isSome = true ∨ r.observes ws' t = true
  rw [h.before.channelled ws' t hopen, h.joinedOf, observes_congr h.observers]
  by_cases hsame : ws = ws' ∧ topic = t
  · obtain ⟨rfl, rfl⟩ := hsame
    simp
  · rw [if_neg hsame]
    have hother : ¬(ws = ws' ∧ t = topic) := fun hback => hsame ⟨hback.1, hback.2.symm⟩
    simp [hother]

omit [DecidableEq D] in
theorem Recorded.undone (h : Recorded q r ws topic joined)
    (hfailed : (r.trackedSubscribe ws (channel topic)).1 = false) :
    Steady ((r.trackedSubscribe ws (channel topic)).2.leaveTopic ws topic) := by
  have hclosed : ∀ ws', ((r.trackedSubscribe ws (channel topic)).2.connections ws').closed =
      (q.connections ws').closed := fun ws' => by
    rw [closed_trackedSubscribe, h.connections]
  have hmem : ∀ ws' t,
      channel t ∈ ((r.trackedSubscribe ws (channel topic)).2.connections ws').subscriptions ↔
        channel t ∈ (q.connections ws').subscriptions := fun ws' t => by
    rw [mem_trackedSubscribe, hfailed, h.connections]
    simp
  have hnot := @not_mem_of_trackedSubscribe W D _ r ws (channel topic)
  rw [h.connections] at hnot
  have hsame := trackedSubscribe_eq r ws (channel topic)
  generalize (r.trackedSubscribe ws (channel topic)).2 = u at hclosed hmem hsame ⊢
  have hjoinedOf : ∀ ws' t, u.joinedOf ws' t = r.joinedOf ws' t :=
    joinedOf_congr (by rw [hsame])
  have hobserves : ∀ ws' t, u.observes ws' t = q.observes ws' t := fun ws' t =>
    (observes_congr (by rw [hsame]) ws' t).trans (observes_congr h.observers ws' t)
  have hcounted : Counted u := h.counted.congr (by rw [hsame]) (by rw [hsame])
  have hjoined : u.joinedOf ws topic = some joined := by
    rw [hjoinedOf, h.joinedOf, if_pos ⟨rfl, rfl⟩]
  have hleft := hcounted.leaveTopic hjoined
  refine ⟨hleft.counted, fun ws' t => ?_⟩
  by_cases hthis : ws = ws' ∧ topic = t
  · -- an open connection did not hold the channel before, and observes nothing here
    obtain ⟨rfl, rfl⟩ := hthis
    intro hopen
    rw [hleft.joined, if_pos ⟨rfl, rfl⟩, observes_congr hleft.observers, hobserves]
    have hwasOpen : (q.connections ws).closed = false := by
      rw [← hclosed, ← hopen, hleft.connections]
      split_ifs
      · rfl
      · rw [closed_trackedUnsubscribe]
    have hnotHeld := hnot hwasOpen hfailed
    have hnotObserved := hnotHeld
    rw [h.before.channelled ws topic hwasOpen, h.notBefore] at hnotObserved
    simp only [isSome_none, Bool.false_eq_true, false_or, Bool.not_eq_true] at hnotObserved
    have huOpen : (u.connections ws).closed = false := (hclosed ws).trans hwasOpen
    rw [hleft.connections, hobserves, hnotObserved, if_neg Bool.false_ne_true,
      mem_trackedUnsubscribe huOpen]
    simp
  · refine hleft.channelled fun hopen => ?_
    rw [hclosed] at hopen
    rw [hmem, hjoinedOf, h.joinedOf, if_neg hthis, hobserves]
    exact h.before.channelled ws' t hopen

end Recorded

theorem Steady.join (h : Steady p) {selected : Option (Selected D)}
    (hkeeps : KeepsTopics o p (.join ws topic selected)) :
    Steady (p.join o ws topic selected) := by
  cases selected with
  | none => exact h
  | some data =>
    rw [Tracker.join]
    simp only
    cases hrefused : p.refusesJoin o ws topic (some data) with
    | true => exact h
    | false =>
      have hnone : p.joinedOf ws topic = none := by
        simp only [refusesJoin, Bool.or_eq_false_iff] at hrefused
        simpa using hrefused.1.1.1.2
      obtain ⟨q, joined, hrecorded⟩ := h.record data hnone (hkeeps hrefused)
      rw [if_neg Bool.false_ne_true]
      cases hsub : ((p.record o ws topic data).trackedSubscribe ws (channel topic)).1 with
      | true => exact hrecorded.subscribed hsub
      | false => exact hrecorded.undone hsub

/-! ## Runs -/

/-- What a presence promises: a user is counted for every connection that has joined under their
key, is on the roster as long as there is one, and an open connection holds the channel of what it
has joined or observes. -/
structure Consistent (p : Tracker W D) : Prop where
  count : ∀ topic key user, p.userOf topic key = some user →
    user.count = p.joinedUnder topic key
  entry : ∀ topic key, (p.userOf topic key).isSome ↔ 0 < p.joinedUnder topic key
  channel : ∀ ws topic, p.Channelled ws topic

omit [DecidableEq D] in
theorem Steady.consistent (h : Steady p) : Consistent p := by
  refine ⟨fun t k user huser => ?_, fun t k => ?_, h.channelled⟩
  · have hcount := h.counted.counts t k
    rw [huser] at hcount
    exact hcount
  · have hcount := h.counted.counts t k
    cases huser : p.userOf t k with
    | none =>
      rw [huser] at hcount
      simp only [map_none, getD_none] at hcount
      simp only [isSome_none, Bool.false_eq_true, false_iff]
      omega
    | some user =>
      have hpositive := h.counted.positive t k user huser
      rw [huser] at hcount
      simp only [map_some, getD_some] at hcount
      simp only [isSome_some, true_iff]
      omega

instance instDecidableKeepsTopics (o : PresenceOptions) (p : Tracker W D) :
    (e : PresenceEvent W D) → Decidable (KeepsTopics o p e)
  | .join ws topic selected =>
    inferInstanceAs (Decidable (p.refusesJoin o ws topic selected = false →
      ((p.connectionRoom o ws).topicPresence.get topic).isSome ∨
        (p.connectionRoom o ws).topicPresence.size < o.maxTopics))
  | .leave _ | .unsubscribe .. | .sync .. | .subscribeOther .. | .unsubscribeOther .. | .close _ =>
    .isTrue trivial

end AdapterWs.Presence
