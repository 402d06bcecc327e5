import AdapterWs.Subscribe.Provenance

/-!
# The exits of a landing

An attempt is enrolled, its hook may install the membership it is asked about, and it lands by
one of four exits. Each exit settles the attempt with its own function; each keeps the agreement
between the memberships and the authority behind them.
-/

namespace AdapterWs.Subscribe

open Connection

variable {c c' : Connection} {setup : Setup} {live : List Attempt} {a : Attempt}
  {topic topic' : String} {entry : PendingEntry} {reason : String} {gate : Gate}

/-! ## An attempt enrolled -/

theorem Sound.begin (h : Sound c live) (topic : String) :
    Sound (c.begin topic).2 ((c.begin topic).1 :: live) where
  enrolled := h.enrolled.begin topic (c.holds topic)
  backed t := by
    have hget : (c.begin topic).2.ud.pending.get t =
        if topic = t then
          some { Subscribe.enrolled c.ud topic (c.holds topic) with
            inflight := (Subscribe.enrolled c.ud topic (c.holds topic)).inflight + 1 }
        else c.ud.pending.get t := get_begin _
    have hold := h.backed t
    by_cases ht : topic = t
    · subst ht
      rw [if_pos rfl] at hget
      cases hopen : c.ud.pending.get topic with
      | none =>
        have hgranted : (Subscribe.enrolled c.ud topic (c.holds topic)).granted = true ↔
            topic ∈ c.ud.subscriptions := by
          rw [Subscribe.enrolled, hopen]
          exact decide_eq_true_iff
        refine ⟨?_, ?_, ?_, hold.held⟩
        · intro hmem _ entry hsome
          cases hget.symm.trans hsome
          exact hgranted.mpr hmem
        · intro ho entry hsome hauth
          cases hget.symm.trans hsome
          exact hold.quiet ho hopen (hgranted.mp hauth)
        · intro _ hnone
          cases hget.symm.trans hnone
      | some entry =>
        have hsame : Subscribe.enrolled c.ud topic (c.holds topic) = entry := by
          rw [Subscribe.enrolled, hopen]
          rfl
        rw [hsame] at hget
        refine ⟨?_, ?_, ?_, hold.held⟩
        · intro hmem hauth entry' hsome
          cases hget.symm.trans hsome
          exact hold.granted hmem hauth entry hopen
        · intro ho entry' hsome hgranted
          cases hget.symm.trans hsome
          exact hold.authorized ho entry hopen hgranted
        · intro _ hnone
          cases hget.symm.trans hnone
    · rw [if_neg ht] at hget
      exact hold.congr (fun ho => ho) Iff.rfl hget Iff.rfl
  installs := h.installs
  evicted := h.evicted

/-- A membership a hook installs while an attempt of its topic is in flight. -/
theorem Sound.trackedSubscribe (h : Sound c live) (hentry : c.ud.pending.get topic = some entry) :
    Sound (c.trackedSubscribe topic) live := by
  rw [Connection.trackedSubscribe]
  split
  · exact h
  · split
    · exact h
    · next hclosed =>
      have ho : c.isOpen = true := by simpa using hclosed
      refine ⟨h.enrolled.congr rfl rfl, ?_, h.installs, h.evicted⟩
      intro t
      have hold := h.backed t
      have hsubs : t ∈ (addLogical c.ud topic).subscriptions ↔
          t = topic ∨ t ∈ c.ud.subscriptions := JsSet.mem_add
      by_cases ht : t = topic
      · subst ht
        refine ⟨fun _ hauth => hold.granted (hold.held ho hauth) hauth, hold.authorized, ?_, ?_⟩
        · intro _ hnone
          cases hnone.symm.trans hentry
        · exact fun _ _ => hsubs.mpr (.inl rfl)
      · refine hold.congr (fun ho => ho) ?_ rfl Iff.rfl
        simp [hsubs, ht]

/-! ## An attempt settled -/

section

variable (h : Sound c (a :: live)) (hget : c.ud.pending.get a.topic = some entry)
include h hget

/-- The entry of every topic after one attempt left its own. -/
theorem Sound.get_leave (granted : Bool) (t : String) :
    (leavePending c.ud a.topic { entry with granted := granted }).pending.get t =
      if a.topic = t then
        if entry.inflight = 1 then none
        else some { entry with inflight := entry.inflight - 1, granted := granted }
      else c.ud.pending.get t :=
  Subscribe.get_leave (h.enrolled.positive a.topic entry hget)

theorem Sound.leave_kept
    (hlast : entry.inflight = 1 → a.topic ∈ c.ud.subscriptions → entry.granted = true) :
    Sound { c with ud := leavePending c.ud a.topic entry } live where
  enrolled := h.enrolled.leave hget entry.granted
  backed t := by
    have hold := h.backed t
    have hleave := h.get_leave hget entry.granted t
    by_cases ht : a.topic = t
    · subst ht
      rw [if_pos rfl] at hleave
      refine ⟨?_, ?_, ?_, hold.held⟩
      · intro hmem hauth entry' hsome
        have hgone := hleave.symm.trans hsome
        obtain ⟨-, ⟨⟩⟩ := Option.ite_none_left_eq_some.mp hgone
        exact hold.granted hmem hauth entry hget
      · intro ho entry' hsome hgranted
        have hgone := hleave.symm.trans hsome
        obtain ⟨-, ⟨⟩⟩ := Option.ite_none_left_eq_some.mp hgone
        exact hold.authorized ho entry hget hgranted
      · intro ho hnone hmem
        have hgone := hleave.symm.trans hnone
        split at hgone
        · next hone => exact hold.authorized ho entry hget (hlast hone hmem)
        · cases hgone
    · rw [if_neg ht] at hleave
      exact hold.congr (fun ho => ho) Iff.rfl hleave Iff.rfl
  installs := h.installs
  evicted := h.evicted

/-- An attempt leaves as authority for its topic, which is held where the socket is open. -/
theorem Sound.leave_granted (hopen : c'.isOpen = true → c.isOpen = true)
    (hpending : c'.ud.pending = (leavePending c.ud a.topic { entry with granted := true }).pending)
    (htotal : c'.ud.pendingTotal = c.ud.pendingTotal - 1)
    (hsubs : ∀ t, t ≠ a.topic → (t ∈ c'.ud.subscriptions ↔ t ∈ c.ud.subscriptions))
    (hheld : c'.isOpen = true → a.topic ∈ c'.ud.subscriptions)
    (hrevoked : c'.audit.revoked = c.audit.revoked)
    (hauthority : c'.audit.authority = c.audit.authority.add a.topic)
    (hinstalls : ∀ p ∈ c'.audit.installs, p.1 = p.2) (hevicted : c'.audit.evicted = c.audit.evicted) :
    Sound c' live where
  enrolled := by
    rw [hrevoked]
    exact (h.enrolled.leave hget true).congr hpending htotal
  backed t := by
    have hleave := h.get_leave hget true t
    rw [← hpending] at hleave
    have hauth : t ∈ c'.audit.authority ↔ t = a.topic ∨ t ∈ c.audit.authority := by
      rw [hauthority, JsSet.mem_add]
    by_cases ht : a.topic = t
    · subst ht
      have hself : a.topic ∈ c'.audit.authority := hauth.mpr (.inl rfl)
      rw [if_pos rfl] at hleave
      refine ⟨?_, fun _ _ _ _ => hself, fun _ _ _ => hself, fun ho _ => hheld ho⟩
      intro _ _ entry' hsome
      have hgone := hleave.symm.trans hsome
      obtain ⟨-, ⟨⟩⟩ := Option.ite_none_left_eq_some.mp hgone
      rfl
    · rw [if_neg ht] at hleave
      refine (h.backed t).congr hopen (hsubs t (Ne.symm ht)) hleave ?_
      simp [hauth, Ne.symm ht]
  installs := hinstalls
  evicted := by
    rw [hevicted]
    exact h.evicted

/-- The last attempt leaves a membership without authority, which is unwound. -/
theorem Sound.leave_evict (hheld : a.topic ∈ c.ud.subscriptions) (hgranted : entry.granted = false) :
    Sound (evict setup { c with ud := leavePending c.ud a.topic entry } a.topic) live := by
  have hgone : a.topic ∉ c.audit.authority := by
    intro hauth
    have := (h.backed a.topic).granted hheld hauth entry hget
    rw [hgranted] at this
    cases this
  have hleave := h.get_leave hget entry.granted
  have hrevoked : Revoked
      { c with
        ud := leavePending c.ud a.topic entry
        audit :=
          { c.audit with
            evicted := c.audit.evicted ++ [decide (a.topic ∈ c.audit.authority)] } }
      live a.topic := by
    refine ⟨h.enrolled.leave hget entry.granted, ?_, hgone, ?_, h.installs, ?_⟩
    · intro t ht
      exact (h.backed t).congr (fun ho => ho) Iff.rfl
        ((hleave t).trans (if_neg (Ne.symm ht))) Iff.rfl
    · intro entry' hsome
      have hleft := (hleave a.topic).symm.trans hsome
      rw [if_pos rfl] at hleft
      split at hleft
      · cases hleft
      · cases hleft
        exact hgranted
    · intro b hb
      rcases mem_concat.mp hb with hb | rfl
      · exact h.evicted b hb
      · exact decide_eq_false hgone
  have hunwound := hrevoked.releaseDerivedSubscriptions setup a.topic
  have hdropped := hunwound.trackedUnsubscribe a.topic
  apply hdropped.sound
  intro _ hmem
  exact (JsSet.mem_delete.mp hmem).1 rfl

end

/-! ## The exits -/

theorem Sound.deny (h : Sound c (a :: live)) (reason : String) :
    Sound (c.deny setup a reason) live := by
  obtain ⟨entry, hget⟩ := h.enrolled.exists_entry (.head _)
  rw [Connection.deny]
  apply Sound.answer
  have hsettled : settleDeniedSubscribe c.ud a.topic (c.holds a.topic) =
      (if !c.holds a.topic || entry.granted || decide (1 < entry.inflight) then .deny
        else .denyUnwind, leavePending c.ud a.topic entry) := by
    rw [settleDeniedSubscribe, hget]
  rw [hsettled]
  by_cases hkeep : (!c.holds a.topic || entry.granted || decide (1 < entry.inflight)) = true
  · rw [if_pos hkeep, if_neg (fun hv => by cases hv)]
    apply h.leave_kept hget
    intro hone hmem
    simpa [holds, hmem, hone] using hkeep
  · rw [if_neg hkeep, if_pos rfl]
    simp only [Bool.or_eq_true, Bool.not_eq_true', not_or, Bool.not_eq_false] at hkeep
    apply h.leave_evict hget
    · simpa [holds] using hkeep.1.1
    · simpa using hkeep.1.2

/-- The plain exit of an attempt whose topic is not held. -/
theorem Sound.refuse (h : Sound c (a :: live)) (hheld : c.holds a.topic = false)
    (reason : String) : Sound (c.refuse a reason) live := by
  obtain ⟨entry, hget⟩ := h.enrolled.exists_entry (.head _)
  have hsettled : (settlePendingSubscribe c.ud a.topic a.token false).2 =
      leavePending c.ud a.topic entry := by
    rw [settlePendingSubscribe, hget]
    simp
  rw [Connection.refuse, hsettled]
  apply Sound.answer
  apply h.leave_kept hget
  intro _ hmem
  simp [holds, hmem] at hheld

theorem authorize_of_current (hget : c.ud.pending.get a.topic = some entry)
    (hcurrent : entry.epoch = a.token) :
    c.authorize a = { c with audit :=
      { c.audit with authority := c.audit.authority.add a.topic } } := by
  rw [authorize, isPendingSubscribeCancelled, hget]
  simp [hcurrent]

theorem authorize_of_revoked (hget : c.ud.pending.get a.topic = some entry)
    (hrevoked : entry.epoch ≠ a.token) : c.authorize a = c := by
  rw [authorize, isPendingSubscribeCancelled, hget]
  simp [hrevoked]

theorem Sound.landHeld (h : Sound c (a :: live)) (hheld : c.holds a.topic = true) :
    Sound (c.landHeld setup a).2 live := by
  have hmem : a.topic ∈ c.ud.subscriptions := of_decide_eq_true hheld
  obtain ⟨entry, hget⟩ := h.enrolled.exists_entry (.head _)
  by_cases hcurrent : entry.epoch = a.token
  · have hsettled : settleHeldSubscribe c.ud a.topic a.token =
        (.ack, leavePending c.ud a.topic { entry with granted := true }) := by
      rw [settleHeldSubscribe, hget]
      simp [hcurrent]
    rw [Connection.landHeld, hsettled, authorize_of_current hget hcurrent]
    apply Sound.answer
    exact h.leave_granted hget (fun ho => ho) rfl rfl (fun _ _ => Iff.rfl) (fun _ => hmem) rfl rfl
      h.installs rfl
  · have hsettled : settleHeldSubscribe c.ud a.topic a.token =
        (if entry.granted then .ack else if entry.inflight ≤ 1 then .denyUnwind else .deny,
          leavePending c.ud a.topic entry) := by
      rw [settleHeldSubscribe, hget]
      simp [hcurrent]
    rw [Connection.landHeld, hsettled, authorize_of_revoked hget hcurrent]
    cases hgranted : entry.granted with
    | true => exact (h.leave_kept hget fun _ _ => hgranted).answer _ _
    | false =>
      by_cases hlast : entry.inflight ≤ 1
      · simp only [Bool.false_eq_true, if_false, if_pos hlast]
        exact (h.leave_evict hget hmem hgranted).answer _ _
      · simp only [Bool.false_eq_true, if_false, if_neg hlast]
        refine (h.leave_kept hget ?_).answer _ _
        intro hone
        exact absurd (le_of_eq hone) hlast

theorem settle_of_current (hget : c.ud.pending.get a.topic = some entry)
    (hcurrent : entry.epoch = a.token) :
    settlePendingSubscribe c.ud a.topic a.token true =
      (true, leavePending c.ud a.topic { entry with granted := true }) := by
  rw [settlePendingSubscribe, hget]
  simp [hcurrent]

theorem settle_of_revoked (hget : c.ud.pending.get a.topic = some entry)
    (hrevoked : entry.epoch ≠ a.token) :
    settlePendingSubscribe c.ud a.topic a.token true =
      (false, leavePending c.ud a.topic entry) := by
  rw [settlePendingSubscribe, hget]
  simp [hrevoked]

/-- What the fresh exit makes of the slots: the attempt leaves as authority, and where the socket
is open its topic is added. -/
structure Installed (c : Connection) (a : Attempt) (entry : PendingEntry) (c' : Connection) :
    Prop where
  isOpen : c'.isOpen = true → c.isOpen = true
  ud : c'.ud = addLogical (leavePending c.ud a.topic { entry with granted := true }) a.topic
  revoked : c'.audit.revoked = c.audit.revoked
  authority : c'.audit.authority = c.audit.authority.add a.topic
  installs : c'.audit.installs = c.audit.installs ++ [(a.revocations, c.revocations a.topic)]
  evicted : c'.audit.evicted = c.audit.evicted

theorem landFresh_cases (hget : c.ud.pending.get a.topic = some entry)
    (capture : Option CaptureEntry) (covered : Option ℤ) (answers : List SendResult) :
    (entry.epoch ≠ a.token ∧ c.landFresh a capture covered answers =
      (.refused, ({ c with ud := leavePending c.ud a.topic entry } : Connection).answer a.topic
        (some "FORBIDDEN"))) ∨
    (entry.epoch = a.token ∧ c.isOpen = false ∧ c.landFresh a capture covered answers =
      (.refused,
        { c with
          ud := leavePending c.ud a.topic { entry with granted := true }
          audit := { c.audit with authority := c.audit.authority.add a.topic } })) ∨
    (entry.epoch = a.token ∧ c.isOpen = true ∧
      (c.landFresh a capture covered answers).1 ≠ .refused ∧
      Installed c a entry (c.landFresh a capture covered answers).2) := by
  by_cases hcurrent : entry.epoch = a.token
  · right
    have hland := settle_of_current hget hcurrent
    cases ho : c.isOpen with
    | false =>
      left
      refine ⟨hcurrent, rfl, ?_⟩
      rw [landFresh, hland, authorize_of_current hget hcurrent]
      simp [ho]
    | true =>
      right
      refine ⟨hcurrent, rfl, ?_⟩
      rw [landFresh, hland, authorize_of_current hget hcurrent]
      simp only [ho, Bool.not_true, Bool.false_eq_true, if_false]
      cases capture with
      | none => exact ⟨fun hr => (by cases hr), ⟨fun _ => ho, rfl, rfl, rfl, rfl, rfl⟩⟩
      | some capture =>
        dsimp only
        split
        · exact ⟨fun hr => (by cases hr), ⟨fun hc => (by cases hc), rfl, rfl, rfl, rfl, rfl⟩⟩
        · exact ⟨fun hr => (by cases hr), ⟨fun _ => ho, rfl, rfl, rfl, rfl, rfl⟩⟩
  · left
    refine ⟨hcurrent, ?_⟩
    rw [landFresh, settle_of_revoked hget hcurrent, authorize_of_revoked hget hcurrent]
    rfl

theorem Sound.landFresh (h : Sound c (a :: live)) (hheld : c.holds a.topic = false)
    (capture : Option CaptureEntry) (covered : Option ℤ) (answers : List SendResult) :
    Sound (c.landFresh a capture covered answers).2 live := by
  obtain ⟨entry, hget⟩ := h.enrolled.exists_entry (.head _)
  rcases landFresh_cases hget capture covered answers with
    ⟨-, hland⟩ | ⟨-, hclosed, hland⟩ | ⟨hcurrent, -, -, hland⟩
  · rw [hland]
    refine (h.leave_kept hget ?_).answer _ _
    intro _ hmem
    simp [holds, hmem] at hheld
  · rw [hland]
    refine h.leave_granted hget (fun ho => ho) rfl rfl (fun _ _ => Iff.rfl) ?_ rfl rfl
      h.installs rfl
    intro ho
    simp [hclosed] at ho
  · have hsubs (t : String) :
        t ∈ (c.landFresh a capture covered answers).2.ud.subscriptions ↔
          t = a.topic ∨ t ∈ c.ud.subscriptions := by
      rw [hland.ud]
      exact JsSet.mem_add
    apply h.leave_granted hget hland.isOpen
    · rw [hland.ud]
      rfl
    · rw [hland.ud]
      rfl
    · intro t ht
      simp [hsubs, ht]
    · exact fun _ => (hsubs a.topic).mpr (.inl rfl)
    · exact hland.revoked
    · exact hland.authority
    · rw [hland.installs]
      intro p hp
      rcases mem_concat.mp hp with hp | rfl
      · exact h.installs p hp
      · exact (h.enrolled.token_eq_iff (.head _) hget).mp hcurrent
    · exact hland.evicted

end AdapterWs.Subscribe
