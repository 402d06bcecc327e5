import AdapterWs.Subscribe.Enrolment

/-!
# The authority behind a membership

A held topic rests on authority: an attempt that presented the current epoch landed as allowed
after the last revocation or release of the topic. While attempts are in flight a membership may
stand without it, when an app hook installed it; the entry then says so, and the last attempt to
land unwinds it. Every exit of every lane keeps that.
-/

namespace AdapterWs.Subscribe

open Connection

variable {c c' : Connection} {setup : Setup} {live live' : List Attempt} {a : Attempt}
  {topic topic' : String} {entry : PendingEntry} {reason : String}

/-- The entry of a topic records the authority its membership has. A socket that is not open no
longer follows its registry, and keeps only the first part. -/
structure BackedAt (c : Connection) (topic : String) : Prop where
  /-- Authority of a held topic is on the entry. -/
  granted : topic ∈ c.ud.subscriptions → topic ∈ c.audit.authority →
    ∀ entry, c.ud.pending.get topic = some entry → entry.granted = true
  /-- An entry records no authority that is not there. -/
  authorized : c.isOpen = true → ∀ entry, c.ud.pending.get topic = some entry →
    entry.granted = true → topic ∈ c.audit.authority
  /-- With nothing in flight, a held topic has authority. -/
  quiet : c.isOpen = true → c.ud.pending.get topic = none → topic ∈ c.ud.subscriptions →
    topic ∈ c.audit.authority
  /-- A topic with authority is held. -/
  held : c.isOpen = true → topic ∈ c.audit.authority → topic ∈ c.ud.subscriptions

/-- The connection and the attempts in flight agree, every membership rests on what its entry
says, no landing installed a membership across a revocation and none evicted one that had
authority. -/
structure Sound (c : Connection) (live : List Attempt) : Prop where
  enrolled : Enrolled c.ud c.audit.revoked live
  backed : ∀ topic, BackedAt c topic
  installs : ∀ p ∈ c.audit.installs, p.1 = p.2
  evicted : ∀ b ∈ c.audit.evicted, b = false

/-- The state inside a call that revokes a topic: its authority is gone, its membership may still
stand. -/
structure Revoked (c : Connection) (live : List Attempt) (topic : String) : Prop where
  enrolled : Enrolled c.ud c.audit.revoked live
  backed : ∀ t, t ≠ topic → BackedAt c t
  gone : topic ∉ c.audit.authority
  withdrawn : ∀ entry, c.ud.pending.get topic = some entry → entry.granted = false
  installs : ∀ p ∈ c.audit.installs, p.1 = p.2
  evicted : ∀ b ∈ c.audit.evicted, b = false

/-! ## What the invariant reads -/

theorem BackedAt.congr (h : BackedAt c topic) (hopen : c'.isOpen = true → c.isOpen = true)
    (hheld : topic ∈ c'.ud.subscriptions ↔ topic ∈ c.ud.subscriptions)
    (hget : c'.ud.pending.get topic = c.ud.pending.get topic)
    (hauthority : topic ∈ c'.audit.authority ↔ topic ∈ c.audit.authority) : BackedAt c' topic where
  granted hmem hauth := by
    rw [hget]
    exact h.granted (hheld.mp hmem) (hauthority.mp hauth)
  authorized ho entry hsome hgranted :=
    hauthority.mpr (h.authorized (hopen ho) entry (hget ▸ hsome) hgranted)
  quiet ho hnone hmem := hauthority.mpr (h.quiet (hopen ho) (hget ▸ hnone) (hheld.mp hmem))
  held ho hauth := hheld.mpr (h.held (hopen ho) (hauthority.mp hauth))

/-- A topic without authority and without membership is backed. -/
theorem BackedAt.of_dropped (hgone : topic ∉ c.audit.authority)
    (hwithdrawn : ∀ entry, c.ud.pending.get topic = some entry → entry.granted = false)
    (hheld : c.isOpen = true → topic ∉ c.ud.subscriptions) : BackedAt c topic where
  granted _ hauth := absurd hauth hgone
  authorized _ entry hsome hgranted := by
    rw [hwithdrawn entry hsome] at hgranted
    cases hgranted
  quiet ho _ hmem := absurd hmem (hheld ho)
  held _ hauth := absurd hauth hgone

section

variable (h : Sound c live)
include h

theorem Sound.congr (hopen : c'.isOpen = true → c.isOpen = true) (hud : c'.ud = c.ud)
    (haudit : c'.audit = c.audit) : Sound c' live where
  enrolled := by
    rw [hud, haudit]
    exact h.enrolled
  backed topic := by
    apply (h.backed topic).congr hopen
    · rw [hud]
    · rw [hud]
    · rw [haudit]
  installs := by
    rw [haudit]
    exact h.installs
  evicted := by
    rw [haudit]
    exact h.evicted

theorem Sound.perm (hperm : live.Perm live') : Sound c live' :=
  ⟨h.enrolled.perm hperm, h.backed, h.installs, h.evicted⟩

theorem Sound.answer (topic : String) (reason : Option String) :
    Sound (c.answer topic reason) live :=
  h.congr id rfl rfl

theorem Sound.discard (entries : List CaptureEntry) : Sound (c.discard entries) live :=
  h.congr id rfl rfl

theorem Sound.recover (entry : CaptureEntry) (covered : Option ℤ) :
    Sound (c.recover entry covered) live :=
  h.congr id rfl rfl

end

theorem Sound.opened : Sound Connection.opened [] where
  enrolled := Enrolled.empty
  backed topic := by
    constructor
    · intro hmem
      cases hmem
    · intro _ entry hsome
      cases hsome
    · intro _ _ hmem
      cases hmem
    · intro _ hauth
      cases hauth
  installs p hp := by cases hp
  evicted b hb := by cases hb

/-! ## Revocations and releases -/

/-- A topic that is left alone stays as it was backed; the revoked one is without membership. -/
theorem backedAt_trackedUnsubscribe (henrolled : Enrolled c.ud c.audit.revoked live)
    (h : topic' ≠ topic → BackedAt c topic') : BackedAt (c.trackedUnsubscribe topic) topic' := by
  have hget : (c.trackedUnsubscribe topic).ud.pending.get topic' =
      if topic = topic' then (c.ud.pending.get topic).map fun entry =>
        { entry with epoch := entry.epoch + 1, granted := false }
      else c.ud.pending.get topic' :=
    get_tombstone topic' (henrolled.positive topic)
  have hsubs : topic' ∈ (c.trackedUnsubscribe topic).ud.subscriptions ↔
      topic' ≠ topic ∧ topic' ∈ c.ud.subscriptions := by
    change topic' ∈ (tombstonePendingSubscribe c.ud topic).2.subscriptions.delete topic ↔ _
    rw [subscriptions_tombstone, JsSet.mem_delete]
  have hauthority : topic' ∈ (c.trackedUnsubscribe topic).audit.authority ↔
      topic' ≠ topic ∧ topic' ∈ c.audit.authority := JsSet.mem_delete
  by_cases ht : topic' = topic
  · apply BackedAt.of_dropped
    · exact fun hauth => (hauthority.mp hauth).1 ht
    · intro entry hsome
      rw [hget, if_pos ht.symm] at hsome
      obtain ⟨old, -, rfl⟩ := Option.map_eq_some_iff.mp hsome
      rfl
    · exact fun _ hmem => (hsubs.mp hmem).1 ht
  · refine (h ht).congr (fun ho => ho) ?_ ?_ ?_
    · simp [hsubs, ht]
    · rw [hget, if_neg (Ne.symm ht)]
    · simp [hauthority, ht]

theorem Sound.trackedUnsubscribe (h : Sound c live) (topic : String) :
    Sound (c.trackedUnsubscribe topic) live where
  enrolled := (h.enrolled.tombstone topic).congr rfl rfl
  backed topic' := backedAt_trackedUnsubscribe h.enrolled fun _ => h.backed topic'
  installs := h.installs
  evicted := h.evicted

theorem Sound.tombstone (h : Sound c live) (topic : String) :
    Revoked (c.tombstone topic) live topic where
  enrolled := h.enrolled.tombstone topic
  backed topic' ht := by
    refine (h.backed topic').congr (fun ho => ho) ?_ ?_ ?_
    · change topic' ∈ (tombstonePendingSubscribe c.ud topic).2.subscriptions ↔ _
      rw [subscriptions_tombstone]
    · exact (get_tombstone topic' (h.enrolled.positive topic)).trans (if_neg (Ne.symm ht))
    · change topic' ∈ c.audit.authority.delete topic ↔ _
      simp [ht]
  gone hauth := (JsSet.mem_delete.mp hauth).1 rfl
  withdrawn entry hsome := by
    have hget := (get_tombstone topic (h.enrolled.positive topic)).symm.trans hsome
    rw [if_pos rfl] at hget
    obtain ⟨old, -, rfl⟩ := Option.map_eq_some_iff.mp hget
    rfl
  installs := h.installs
  evicted := h.evicted

section

variable (h : Revoked c live topic)
include h

/-- Revoking another topic on the way leaves the revoked one as it is. -/
theorem Revoked.trackedUnsubscribe (topic' : String) :
    Revoked (c.trackedUnsubscribe topic') live topic where
  enrolled := (h.enrolled.tombstone topic').congr rfl rfl
  backed t ht := backedAt_trackedUnsubscribe h.enrolled fun _ => h.backed t ht
  gone hauth := h.gone (JsSet.mem_delete.mp hauth).2
  withdrawn entry hsome := by
    have hget := (get_tombstone topic (h.enrolled.positive topic')).symm.trans hsome
    split at hget
    · obtain ⟨old, -, rfl⟩ := Option.map_eq_some_iff.mp hget
      rfl
    · exact h.withdrawn entry hget
  installs := h.installs
  evicted := h.evicted

theorem Revoked.releaseDerivedSubscriptions (setup : Setup) (topic' : String) :
    Revoked (c.releaseDerivedSubscriptions setup topic') live topic := by
  rw [Connection.releaseDerivedSubscriptions]
  induction derivedTopics setup topic' generalizing c with
  | nil => exact h
  | cons name names ih => exact ih (h.trackedUnsubscribe name)

/-- The revocation is complete where the membership is gone, or the socket is. -/
theorem Revoked.sound (hheld : c.isOpen = true → topic ∉ c.ud.subscriptions) : Sound c live where
  enrolled := h.enrolled
  backed t := by
    by_cases ht : t = topic
    · subst ht
      exact .of_dropped h.gone h.withdrawn hheld
    · exact h.backed t ht
  installs := h.installs
  evicted := h.evicted

theorem Revoked.drop : Sound (c.drop topic) live := by
  have hrevoked : Revoked (c.drop topic) live topic := by
    refine ⟨h.enrolled.congr rfl rfl, ?_, h.gone, h.withdrawn, h.installs, h.evicted⟩
    intro t ht
    refine (h.backed t ht).congr (fun ho => ho) ?_ ?_ ?_
    · change t ∈ c.ud.subscriptions.delete topic ↔ _
      simp [ht]
    · rfl
    · rfl
  apply hrevoked.sound
  intro _ hmem
  exact (JsSet.mem_delete.mp hmem).1 rfl

end

section

variable (h : Sound c live)
include h

theorem Sound.releaseDerivedSubscriptions (topic : String) :
    Sound (c.releaseDerivedSubscriptions setup topic) live := by
  rw [Connection.releaseDerivedSubscriptions]
  induction derivedTopics setup topic generalizing c with
  | nil => exact h
  | cons name names ih => exact ih (h.trackedUnsubscribe name)

theorem Sound.unsubscribeFrame (topic : String) : Sound (c.unsubscribeFrame setup topic) live :=
  (h.tombstone topic).drop.releaseDerivedSubscriptions topic

theorem Sound.platformUnsubscribe (topic : String) :
    Sound (c.platformUnsubscribe setup topic) live := by
  have hreleased : Revoked ((c.tombstone topic).releaseDerivedSubscriptions setup topic) live topic :=
    (h.tombstone topic).releaseDerivedSubscriptions setup topic
  rw [Connection.platformUnsubscribe]
  split
  · next hheld =>
    apply hreleased.sound
    intro _ hmem
    simp [holds, hmem] at hheld
  · split
    · next hclosed =>
      apply hreleased.sound
      intro ho
      simp [ho] at hclosed
    · exact hreleased.drop

/-- A release withdraws the authority before it drops the membership. -/
theorem Sound.releaseMembership (topic : String) : Sound (c.releaseMembership topic) live := by
  have hget (t : String) : (withdrawGrant c.ud topic).pending.get t =
      if topic = t then (c.ud.pending.get topic).map fun entry => { entry with granted := false }
      else c.ud.pending.get t := get_withdrawGrant
  have hrevoked : Revoked
      { c with
        ud := Subscribe.withdrawGrant c.ud topic
        audit := { c.audit with authority := c.audit.authority.delete topic } } live topic := by
    refine ⟨h.enrolled.withdrawGrant topic, ?_, ?_, ?_, h.installs, h.evicted⟩
    · intro t ht
      refine (h.backed t).congr (fun ho => ho) ?_ ?_ ?_
      · change t ∈ (Subscribe.withdrawGrant c.ud topic).subscriptions ↔ _
        rw [subscriptions_withdrawGrant]
      · exact (hget t).trans (if_neg (Ne.symm ht))
      · change t ∈ c.audit.authority.delete topic ↔ _
        simp [ht]
    · exact fun hauth => (JsSet.mem_delete.mp hauth).1 rfl
    · intro entry hsome
      have hwithdrawn := (hget topic).symm.trans hsome
      rw [if_pos rfl] at hwithdrawn
      obtain ⟨old, -, rfl⟩ := Option.map_eq_some_iff.mp hwithdrawn
      rfl
  rw [Connection.releaseMembership]
  dsimp only
  split
  · next hclosed =>
    apply hrevoked.sound
    intro ho
    simp only at ho
    simp [ho] at hclosed
  · exact hrevoked.drop

theorem Sound.releaseSubscription (topic : String) :
    Sound (c.releaseSubscription setup topic) live := by
  rw [Connection.releaseSubscription]
  induction topic :: derivedTopics setup topic generalizing c with
  | nil => exact h
  | cons name names ih => exact ih (h.releaseMembership name)

end

end AdapterWs.Subscribe
