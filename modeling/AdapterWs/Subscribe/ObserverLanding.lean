import AdapterWs.Subscribe.Enrolment
import AdapterWs.Subscribe.Observer

/-!
# What a revocation and a landing leave of a connection

A revocation and the landing of a handshake take memberships away and keep the entries in
agreement with the attempts in flight. A landing answers that the tap may be installed only where
the topic is held, or where it was not revoked since the handshake began.
-/

namespace AdapterWs.Subscribe
namespace Connection

variable {setup : Setup} {c c' c'' : Connection} {topic : String} {a : Attempt}
  {live : List Attempt} {entry : PendingEntry}

/-! ## Revocations -/

/-- `c'` is `c` with memberships taken away by revocations. -/
structure Withdrawn (c c' : Connection) : Prop where
  isOpen : c'.isOpen = c.isOpen
  subset : ∀ topic, topic ∈ c'.ud.subscriptions → topic ∈ c.ud.subscriptions
  revocations : ∀ topic, c.revocations topic ≤ c'.revocations topic
  enrolled : ∀ live, Enrolled c.ud c.audit.revoked live → Enrolled c'.ud c'.audit.revoked live

theorem Withdrawn.refl (c : Connection) : Withdrawn c c :=
  ⟨rfl, fun _ h => h, fun _ => le_rfl, fun _ h => h⟩

theorem Withdrawn.trans (h : Withdrawn c c') (h' : Withdrawn c' c'') : Withdrawn c c'' where
  isOpen := h'.isOpen.trans h.isOpen
  subset topic hmem := h.subset topic (h'.subset topic hmem)
  revocations topic := le_trans (h.revocations topic) (h'.revocations topic)
  enrolled live hlive := h'.enrolled live (h.enrolled live hlive)

theorem revocations_tombstone (c : Connection) (topic topic' : String) :
    (c.tombstone topic).revocations topic' =
      c.revocations topic' + if topic = topic' then 1 else 0 := by
  change (c.audit.revoked ++ [topic]).count topic' = _
  rw [List.count_append, List.count_singleton, revocations]
  simp

theorem mem_trackedUnsubscribe (topic' : String) :
    topic' ∈ (c.trackedUnsubscribe topic).ud.subscriptions ↔
      topic' ≠ topic ∧ topic' ∈ c.ud.subscriptions := by
  change topic' ∈ (tombstonePendingSubscribe c.ud topic).2.subscriptions.delete topic ↔ _
  rw [subscriptions_tombstone, JsSet.mem_delete]

section

variable (c) (topic)

theorem withdrawn_tombstone :
    Withdrawn c (c.tombstone topic) where
  isOpen := rfl
  subset topic' hmem := by
    change topic' ∈ (tombstonePendingSubscribe c.ud topic).2.subscriptions at hmem
    rwa [subscriptions_tombstone] at hmem
  revocations topic' := by
    rw [revocations_tombstone]
    omega
  enrolled _ h := h.tombstone topic

theorem withdrawn_drop : Withdrawn c (c.drop topic) where
  isOpen := rfl
  subset _ hmem := (JsSet.mem_delete.mp hmem).2
  revocations _ := le_rfl
  enrolled _ h := h.congr rfl rfl

theorem withdrawn_trackedUnsubscribe : Withdrawn c (c.trackedUnsubscribe topic) :=
  (withdrawn_tombstone c topic).trans (withdrawn_drop _ topic)

end

theorem withdrawn_foldl (topics : List String) (c : Connection) :
    Withdrawn c (topics.foldl trackedUnsubscribe c) := by
  induction topics generalizing c with
  | nil => exact .refl c
  | cons topic topics ih => exact (withdrawn_trackedUnsubscribe c topic).trans (ih _)

theorem withdrawn_unwind (setup : Setup) (c : Connection) (topic : String) :
    Withdrawn c (c.unwindRevokedMembership setup topic) :=
  (withdrawn_foldl _ c).trans (withdrawn_trackedUnsubscribe _ topic)

theorem withdrawn_platformUnsubscribe (setup : Setup) (c : Connection) (topic : String) :
    Withdrawn (c.tombstone topic) (c.platformUnsubscribe setup topic) := by
  have hreleased : Withdrawn (c.tombstone topic)
      ((c.tombstone topic).releaseDerivedSubscriptions setup topic) := withdrawn_foldl _ _
  rw [platformUnsubscribe]
  split
  · exact hreleased
  · split
    · exact hreleased
    · exact hreleased.trans (withdrawn_drop _ topic)

theorem not_mem_foldl_trackedUnsubscribe {topics : List String} (htopic : topic ∈ topics)
    (c : Connection) : topic ∉ (topics.foldl trackedUnsubscribe c).ud.subscriptions := by
  induction topics generalizing c with
  | nil => cases htopic
  | cons name topics ih =>
    rw [List.foldl_cons]
    by_cases hname : topic = name
    · intro hmem
      have hkept := (withdrawn_foldl topics _).subset topic hmem
      exact ((mem_trackedUnsubscribe topic).mp hkept).1 hname
    · exact ih ((List.mem_cons.mp htopic).resolve_left hname) _

theorem not_mem_platformUnsubscribe_derived {name : String}
    (hname : name ∈ derivedTopics setup topic) (c : Connection) :
    name ∉ (c.platformUnsubscribe setup topic).ud.subscriptions := by
  have hreleased : name ∉
      ((c.tombstone topic).releaseDerivedSubscriptions setup topic).ud.subscriptions :=
    not_mem_foldl_trackedUnsubscribe hname _
  rw [platformUnsubscribe]
  split
  · exact hreleased
  · split
    · exact hreleased
    · exact fun hmem => hreleased ((withdrawn_drop _ topic).subset name hmem)

theorem not_mem_platformUnsubscribe (ho : c.isOpen = true) (setup : Setup) (topic : String) :
    topic ∉ (c.platformUnsubscribe setup topic).ud.subscriptions := by
  have hopen : ((c.tombstone topic).releaseDerivedSubscriptions setup topic).isOpen = true :=
    (withdrawn_foldl _ _).isOpen.trans ho
  rw [platformUnsubscribe]
  split
  · next hheld => simpa [holds] using hheld
  · rw [if_neg (by simp [hopen])]
    exact fun hmem => (JsSet.mem_delete.mp hmem).1 rfl

/-! ## Landings -/

/-- `landed` is what the landing of `a` answers and leaves. -/
structure Landed (c : Connection) (a : Attempt) (live : List Attempt)
    (landed : Bool × Connection) : Prop where
  enrolled : Enrolled landed.2.ud landed.2.audit.revoked live
  isOpen : landed.2.isOpen = c.isOpen
  subset : ∀ topic, topic ∈ landed.2.ud.subscriptions → topic ∈ c.ud.subscriptions
  revocations : ∀ topic, c.revocations topic ≤ landed.2.revocations topic
  /-- A tap is allowed on a topic that is held, or that was not revoked since the start. -/
  allowed : landed.1 = true → a.topic ∈ c.ud.subscriptions ∨ a.revocations = c.revocations a.topic

/-- A settled attempt, and the unwind its verdict may ask for. -/
theorem Landed.settled (granted : Bool) {verdict : Verdict} {answer : Bool} {ud : UserData}
    (h : Enrolled c.ud c.audit.revoked (a :: live)) (hget : c.ud.pending.get a.topic = some entry)
    (hud : ud = leavePending c.ud a.topic { entry with granted := granted })
    (hallowed : answer = true →
      a.topic ∈ c.ud.subscriptions ∨ a.revocations = c.revocations a.topic) :
    Landed c a live (answer,
      if verdict = .denyUnwind then
        ({ c with ud := ud } : Connection).unwindRevokedMembership setup a.topic
      else { c with ud := ud }) := by
  subst hud
  have hleft : Enrolled (leavePending c.ud a.topic { entry with granted := granted })
      c.audit.revoked live := h.leave hget granted
  split
  · have hunwound := withdrawn_unwind setup
      { c with ud := leavePending c.ud a.topic { entry with granted := granted } } a.topic
    exact ⟨hunwound.enrolled live hleft, hunwound.isOpen, hunwound.subset, hunwound.revocations,
      hallowed⟩
  · exact ⟨hleft, rfl, fun _ hmem => hmem, fun _ => le_rfl, hallowed⟩

theorem landed_authorizeDerivedSubscribe (h : Enrolled c.ud c.audit.revoked (a :: live))
    (denied : Bool) : Landed c a live (c.authorizeDerivedSubscribe setup a denied) := by
  obtain ⟨entry, hget⟩ := h.exists_entry (.head _)
  rw [authorizeDerivedSubscribe]
  split
  · apply Landed.settled entry.granted h hget
    · rw [settleDeniedSubscribe, hget]
    · intro hfalse
      cases hfalse
  · split
    · next hheld =>
      have hmem : a.topic ∈ c.ud.subscriptions := of_decide_eq_true hheld
      by_cases hcurrent : entry.epoch = a.token
      · apply Landed.settled true h hget
        · rw [settleHeldSubscribe, hget]
          simp [if_pos hcurrent]
        · exact fun _ => .inl hmem
      · apply Landed.settled entry.granted h hget
        · rw [settleHeldSubscribe, hget]
          simp [if_neg hcurrent]
        · exact fun _ => .inl hmem
    · have hsettled : settlePendingSubscribe c.ud a.topic a.token false =
          (decide (entry.epoch = a.token), leavePending c.ud a.topic entry) := by
        rw [settlePendingSubscribe, hget]
        simp
      rw [hsettled]
      refine ⟨h.leave hget entry.granted, rfl, fun _ hmem => hmem, fun _ => le_rfl, ?_⟩
      intro hallowed
      exact .inr ((h.token_eq_iff (.head _) hget).mp (of_decide_eq_true hallowed))

end Connection

end AdapterWs.Subscribe
