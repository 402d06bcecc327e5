import AdapterWs.UpgradeGate.PermitLedger

/-!
# The permit invariant over every run

The counters of the admission controller against the list of upgrades, preserved by every
event of the worker.
-/

namespace AdapterWs.UpgradeGate

open Machine List Option Upgrade Ledger

section Queue

variable (opts : AdmissionOptions) (a : Admission) (p : Charged)

@[simp] theorem releaseConnectionPermit_deferred :
    (releaseConnectionPermit opts p).1.deferred = p.1.deferred := by
  unfold releaseConnectionPermit
  split
  · rfl
  · exact releaseConnection_deferred opts p.1

@[simp] theorem releaseInFlight_deferred :
    (releaseInFlight opts p).1.deferred = p.1.deferred := by
  simp only [releaseInFlight, releaseConnectionPermit_deferred]
  split_ifs <;> rfl

@[simp] theorem finish_deferred : (finish p).1.deferred = p.1.deferred := rfl

@[simp] theorem finish_phase : (finish p).2.phase = .finished := rfl

@[simp] theorem releaseConnectionPermitFor_deferred (c : Connection) :
    (releaseConnectionPermitFor opts a c).1.deferred = a.deferred := by
  unfold releaseConnectionPermitFor
  split
  · exact releaseConnection_deferred opts a
  · rfl

@[simp] theorem openConnection_deferred (setup : Setup) (c : Connection) :
    (openConnection opts setup a c).1.deferred = a.deferred := by
  unfold openConnection
  split
  · rfl
  · cases setup <;> simp

@[simp] theorem closeConnection_deferred (c : Connection) :
    (closeConnection opts a c).1.deferred = a.deferred := by
  unfold closeConnection
  simp only
  split
  · rfl
  · split
    · rfl
    · simp

@[simp] theorem acceptUpgrade_deferred (out : AcceptOutcome) :
    (acceptUpgrade opts out p).1.1.deferred = p.1.deferred := by
  unfold acceptUpgrade
  split
  · simp
  · cases out <;> simp

@[simp] theorem acceptUpgrade_phase (out : AcceptOutcome) :
    (acceptUpgrade opts out p).1.2.phase = .finished := by
  unfold acceptUpgrade
  split
  · rfl
  · cases out <;> rfl

/-- The end of the handler finishes it, or queues it at the back. -/
theorem admitAccept_queue (id : ℕ) (out : AcceptOutcome) :
    ((admitAccept opts id out p).1.deferred = p.1.deferred ∧
        (admitAccept opts id out p).2.phase = .finished) ∨
      ((admitAccept opts id out p).1.deferred = p.1.deferred ++ [id] ∧
        (admitAccept opts id out p).2.phase = .deferred) := by
  unfold admitAccept
  split
  · left
    simp
  · split
    · left
      simp [acceptNow]
    · split
      · left
        simp [acceptNow]
      · split
        · left
          simp
        · right
          exact ⟨rfl, rfl⟩

theorem settleHook_queue (id : ℕ) (hook : HookOutcome) (out : AcceptOutcome) :
    ((settleHook opts id hook out p).1.deferred = p.1.deferred ∧
        (settleHook opts id hook out p).2.phase = .finished) ∨
      ((settleHook opts id hook out p).1.deferred = p.1.deferred ++ [id] ∧
        (settleHook opts id hook out p).2.phase = .deferred) := by
  unfold settleHook
  split
  · exact admitAccept_queue opts p id out
  · left
    simp

@[simp] theorem onSocketClose_deferred :
    (onSocketClose opts p).1.deferred = p.1.deferred := by
  unfold onSocketClose
  split
  · simp
  · rfl

@[simp] theorem onSocketClose_phase :
    (onSocketClose opts p).2.phase = p.2.phase := by
  unfold onSocketClose
  split
  · rw [releaseInFlight_snd]
  · rfl

@[simp] theorem onClose_deferred : (onClose opts p).1.deferred = p.1.deferred := by
  unfold onClose
  split
  · rfl
  · simp

@[simp] theorem onClose_phase : (onClose opts p).2.phase = p.2.phase := by
  unfold onClose
  split <;> rfl

end Queue

/-- The pacing queue names each waiting upgrade once. -/
def Queued (deferred : List ℕ) (upgrades : List Upgrade) : Prop :=
  deferred.Nodup ∧
    ∀ id ∈ deferred, ∃ u, upgrades[id]? = some u ∧ u.phase = .deferred

section Queued

variable {deferred : List ℕ} {upgrades : List Upgrade} {i : ℕ} {u v : Upgrade}

section

variable (h : Queued deferred upgrades)
include h

/-- A step that leaves the phase alone leaves the queue right. -/
theorem Queued.set_same (hu : upgrades[i]? = some u) (hphase : v.phase = u.phase) :
    Queued deferred (upgrades.set i v) := by
  refine ⟨h.1, fun id hid => ?_⟩
  obtain ⟨w, hw, hwaits⟩ := h.2 id hid
  by_cases hii : i = id
  · subst hii
    rw [hu] at hw
    cases hw
    refine ⟨v, ?_, hphase.trans hwaits⟩
    rw [List.getElem?_set_self (List.getElem?_eq_some_iff.mp hu).1]
  · exact ⟨w, by rw [getElem?_set_ne hii, hw], hwaits⟩

/-- A step of an upgrade that is not in the queue leaves the queue right. -/
theorem Queued.set_other (hi : i ∉ deferred) : Queued deferred (upgrades.set i v) := by
  refine ⟨h.1, fun id hid => ?_⟩
  obtain ⟨w, hw, hwaits⟩ := h.2 id hid
  have hii : i ≠ id := by
    intro he
    exact hi (he ▸ hid)
  exact ⟨w, by rw [getElem?_set_ne hii, hw], hwaits⟩

theorem Queued.push (hi : i ∉ deferred) (hv : upgrades[i]? = some v) (hwaits : v.phase = .deferred) :
    Queued (deferred ++ [i]) upgrades := by
  constructor
  · rw [nodup_append]
    refine ⟨h.1, by simp, ?_⟩
    intro x hx y hy
    rw [mem_singleton] at hy
    intro he
    exact hi (hy ▸ he ▸ hx)
  · intro id hid
    rw [mem_append, mem_singleton] at hid
    cases hid with
    | inl hold => exact h.2 id hold
    | inr hnew => exact ⟨v, hnew ▸ hv, hwaits⟩

theorem Queued.append : Queued deferred (upgrades ++ [v]) := by
  refine ⟨h.1, fun id hid => ?_⟩
  obtain ⟨w, hw, hwaits⟩ := h.2 id hid
  have hlt := (List.getElem?_eq_some_iff.mp hw).1
  exact ⟨w, by rw [getElem?_append_left hlt, hw], hwaits⟩

theorem Queued.not_mem (hu : upgrades[i]? = some u) (hphase : u.phase ≠ .deferred) :
    i ∉ deferred := by
  intro hi
  obtain ⟨w, hw, hwaits⟩ := h.2 i hi
  rw [hu] at hw
  cases hw
  exact hphase hwaits

end

end Queued

/-- The invariant: every counter is the total of its dues and inside its ceiling, nothing was
released without an acquisition, and every upgrade is sound. -/
structure Balanced (opts : AdmissionOptions) (q : State) : Prop where
  slots : q.admission.inFlight = Ledger.total slotDue q.upgrades
  cursor : q.admission.cursorInFlight = Ledger.total cursorDue q.upgrades
  permits : q.admission.connectionPermits = Ledger.total permitDue q.upgrades
  slots_le : 0 < opts.maxConcurrent → q.admission.inFlight ≤ opts.maxConcurrent
  cursor_le : q.admission.cursorInFlight ≤ opts.cursorMaxConcurrent
  permits_le : 0 < opts.maxConnections → q.admission.connectionPermits ≤ opts.maxConnections
  faulted : q.admission.faulted = false
  sound : ∀ u ∈ q.upgrades, u.Sound opts
  queued : Queued q.admission.deferred q.upgrades

section Step

variable {opts : AdmissionOptions} {q : State} {i : ℕ} {u : Upgrade}

theorem onUpgrade_eq (f : Charged → Charged) (hu : q.upgrades[i]? = some u) :
    q.onUpgrade i f =
      { admission := (f (q.admission, u)).1
        upgrades := q.upgrades.set i (f (q.admission, u)).2 } := by
  simp [State.onUpgrade, hu]

theorem Balanced.covered (h : Balanced opts q) (hu : q.upgrades[i]? = some u) :
    Covered (q.admission, u) := by
  have hmem : u ∈ q.upgrades := mem_of_getElem? hu
  unfold Covered
  rw [h.permits]
  exact due_le_total (fun z _ => permitDue_nonneg z) hmem

/-- A step of one upgrade that settles its dues keeps the invariant. -/
theorem Balanced.onUpgrade (h : Balanced opts q) (hu : q.upgrades[i]? = some u)
    {f : Charged → Charged} (hback : Handback (q.admission, u) (f (q.admission, u)))
    (hsound : (f (q.admission, u)).2.Sound opts)
    (hqueued : Queued (f (q.admission, u)).1.deferred
      (q.upgrades.set i (f (q.admission, u)).2)) :
    Balanced opts (q.onUpgrade i f) := by
  rw [onUpgrade_eq f hu]
  exact {
    slots := balanced_set h.slots hu hback.slots
    cursor := balanced_set h.cursor hu hback.cursor
    permits := balanced_set h.permits hu hback.permits
    slots_le := fun hmax => le_trans hback.slots_le (h.slots_le hmax)
    cursor_le := le_trans hback.cursor_le h.cursor_le
    permits_le := fun hmax => le_trans hback.permits_le (h.permits_le hmax)
    faulted := hback.faulted.trans h.faulted
    sound := by
      intro v hv
      cases mem_or_eq_of_mem_set hv with
      | inl hold => exact h.sound v hold
      | inr hnew => exact hnew ▸ hsound
    queued := hqueued }

end Step

section Arrival

variable {opts : AdmissionOptions} {a a' : Admission} (request : Request)

/-- What the gate leaves of the controller when it lets an upgrade in. -/
structure Admits (opts : AdmissionOptions) (isCursor : Bool) (a a' : Admission) : Prop where
  slots : a'.inFlight = a.inFlight + 1
  cursor : a'.cursorInFlight = a.cursorInFlight + if isCursor then 1 else 0
  permits : a'.connectionPermits = a.connectionPermits
  faulted : a'.faulted = a.faulted
  deferred : a'.deferred = a.deferred
  slots_le : 0 < opts.maxConcurrent → a'.inFlight ≤ opts.maxConcurrent
  cursor_le : a.cursorInFlight ≤ opts.cursorMaxConcurrent →
    a'.cursorInFlight ≤ opts.cursorMaxConcurrent

theorem admits_of_gate {isCursor : Bool}
    (h : (if isCursor then a.tryAcquireCursor opts else a.tryAcquire opts) = some a') :
    Admits opts isCursor a a' := by
  cases isCursor with
  | true =>
    simp only [if_true, Admission.tryAcquireCursor, ite_none_left_eq_some,
      some.injEq, not_and] at h
    obtain ⟨hroom, hlane, rfl⟩ := h
    refine ⟨rfl, rfl, rfl, rfl, rfl, fun hmax => ?_, fun _ => ?_⟩
    · have := hroom hmax
      simp only
      omega
    · simp only
      omega
  | false =>
    simp only [Bool.false_eq_true, if_false, Admission.tryAcquire,
      ite_none_left_eq_some, some.injEq, not_and] at h
    obtain ⟨hroom, rfl⟩ := h
    refine ⟨rfl, by simp, rfl, rfl, rfl, fun hmax => ?_, fun hle => hle⟩
    have := hroom hmax
    simp only
    omega

/-- What the permit reservation leaves of the controller. -/
structure Reserves (opts : AdmissionOptions) (a a' : Admission) : Prop where
  slots : a'.inFlight = a.inFlight
  cursor : a'.cursorInFlight = a.cursorInFlight
  permits : a'.connectionPermits =
    a.connectionPermits + if opts.maxConnections > 0 then 1 else 0
  faulted : a'.faulted = a.faulted
  deferred : a'.deferred = a.deferred
  permits_le : 0 < opts.maxConnections → a'.connectionPermits ≤ opts.maxConnections

theorem reserves_of_tryAcquireConnection (h : a.tryAcquireConnection opts = some a') :
    Reserves opts a a' := by
  unfold Admission.tryAcquireConnection at h
  split at h
  · rename_i hmax
    cases h
    exact ⟨rfl, rfl, by simp [hmax], rfl, rfl, fun hpos => by omega⟩
  · rename_i hmax
    simp only [ite_none_left_eq_some, some.injEq] at h
    obtain ⟨hroom, rfl⟩ := h
    have hpos : opts.maxConnections > 0 := Nat.pos_of_ne_zero hmax
    refine ⟨rfl, rfl, by simp [hpos], rfl, rfl, fun _ => ?_⟩
    simp only
    omega

/-- A newcomer that took from the counters what it owes. -/
structure Takes (opts : AdmissionOptions) (a : Admission) (p : Charged) : Prop where
  slots : p.1.inFlight - slotDue p.2 = a.inFlight
  cursor : p.1.cursorInFlight - cursorDue p.2 = a.cursorInFlight
  permits : p.1.connectionPermits - permitDue p.2 = a.connectionPermits
  slots_le : (0 < opts.maxConcurrent → a.inFlight ≤ opts.maxConcurrent) →
    0 < opts.maxConcurrent → p.1.inFlight ≤ opts.maxConcurrent
  cursor_le : a.cursorInFlight ≤ opts.cursorMaxConcurrent →
    p.1.cursorInFlight ≤ opts.cursorMaxConcurrent
  permits_le : (0 < opts.maxConnections → a.connectionPermits ≤ opts.maxConnections) →
    0 < opts.maxConnections → p.1.connectionPermits ≤ opts.maxConnections
  faulted : p.1.faulted = a.faulted

theorem Takes.settle {p p' : Charged} (h : Takes opts a p) (hback : Handback p p') :
    Takes opts a p' where
  slots := hback.slots.trans h.slots
  cursor := hback.cursor.trans h.cursor
  permits := hback.permits.trans h.permits
  slots_le := fun hle hmax => le_trans hback.slots_le (h.slots_le hle hmax)
  cursor_le := fun hle => le_trans hback.cursor_le (h.cursor_le hle)
  permits_le := fun hle hmax => le_trans hback.permits_le (h.permits_le hle hmax)
  faulted := hback.faulted.trans h.faulted

theorem Takes.covered {p : Charged} (h : Takes opts a p) (hpermits : 0 ≤ a.connectionPermits) :
    Covered p := by
  have := h.permits
  unfold Covered
  omega

theorem takes_fresh : Takes opts a (a, fresh opts request) where
  slots := by simp [slotDue, fresh]
  cursor := by simp [cursorDue, fresh]
  permits := by simp [permitDue, fresh]
  slots_le := fun hle => hle
  cursor_le := fun hle => hle
  permits_le := fun hle => hle
  faulted := rfl

theorem takes_gate (h : Admits opts (fresh opts request).isCursor a a') :
    Takes opts a
      (a', { fresh opts request with acquired := true, phase := .running }) where
  slots := by simp [slotDue, fresh, h.slots]
  cursor := by
    rw [h.cursor]
    simp [cursorDue, fresh]
  permits := by simp [permitDue, fresh, h.permits]
  slots_le := fun _ => h.slots_le
  cursor_le := h.cursor_le
  permits_le := fun hle hmax => by
    rw [h.permits]
    exact hle hmax
  faulted := h.faulted

/-- With the reservation it also owes its permit, where there is a ceiling. -/
theorem takes_reservation {a₁ a₂ : Admission}
    (h : Admits opts (fresh opts request).isCursor a a₁) (h' : Reserves opts a₁ a₂)
    {u : Upgrade} (hacquired : u.acquired = true) (hreleased : u.inFlightReleased = false)
    (hcursor : u.isCursor = (fresh opts request).isCursor)
    (hheld : u.connectionPermitHeld = decide (opts.maxConnections > 0))
    (htransferred : u.connectionPermitTransferred = false) (hnone : u.connection = none) :
    Takes opts a (a₂, u) where
  slots := by
    simp [slotDue, hacquired, hreleased, h'.slots, h.slots]
  cursor := by
    rw [h'.cursor, h.cursor]
    simp [cursorDue, hacquired, hreleased, hcursor]
  permits := by
    rw [h'.permits, h.permits]
    simp [permitDue, hheld, htransferred, hnone]
  slots_le := fun _ hmax => by
    rw [h'.slots]
    exact h.slots_le hmax
  cursor_le := fun hle => by
    rw [h'.cursor]
    exact h.cursor_le hle
  permits_le := fun _ => h'.permits_le
  faulted := h'.faulted.trans h.faulted

/-- The handler's first segment takes from the counters exactly what its upgrade owes, and the
upgrade it leaves is sound and queued only if it waits. -/
theorem takes_handleUpgrade (opts : AdmissionOptions) (id : ℕ) (request : Request) (out : AcceptOutcome)
    (hpermits : 0 ≤ a.connectionPermits) :
    Takes opts a (handleUpgrade opts id request out a) ∧
      (handleUpgrade opts id request out a).2.Sound opts ∧
      ((handleUpgrade opts id request out a).1.deferred = a.deferred ∨
        ((handleUpgrade opts id request out a).1.deferred = a.deferred ++ [id] ∧
          (handleUpgrade opts id request out a).2.phase = .deferred)) := by
  have hfresh : (fresh opts request).Sound opts := by
    constructor <;> simp [fresh]
  unfold handleUpgrade
  simp only
  split
  · exact ⟨takes_fresh request, hfresh, .inl rfl⟩
  · split
    · exact ⟨takes_fresh request, hfresh, .inl rfl⟩
    · rename_i a₁ hgate
      have hadmits := admits_of_gate hgate
      split
      · have htakes := takes_gate request hadmits
        refine ⟨htakes.settle (Handback.trans ?_ (handback_finish _)), ?_, ?_⟩
        · apply handback_releaseInFlight
          · exact fun _ => rfl
          · simp [fresh]
          · exact htakes.covered hpermits
        · apply sound_finish_releaseInFlight <;> simp [fresh]
        · left
          simp [hadmits.deferred]
      · rename_i a₂ hreserve
        have hreserves := reserves_of_tryAcquireConnection hreserve
        have hdeferred : a₂.deferred = a.deferred := hreserves.deferred.trans hadmits.deferred
        let reserved (phase : Phase) : Upgrade :=
          { fresh opts request with
            acquired := true
            connectionPermitHeld := decide (opts.maxConnections > 0)
            closeListener := opts.armed
            phase := phase }
        have htakes (phase : Phase) : Takes opts a (a₂, reserved phase) :=
          takes_reservation request hadmits hreserves rfl rfl rfl rfl rfl rfl
        have hceiling : decide (opts.maxConnections > 0) = true → opts.maxConnections ≠ 0 := by
          intro hmax
          exact Nat.pos_iff_ne_zero.mp (of_decide_eq_true hmax)
        have hsound (phase : Phase) (hphase : phase ≠ .finished) : (reserved phase).Sound opts :=
          { listener := fun _ => rfl
            ceiling := hceiling
            running := fun _ => ⟨rfl, rfl, rfl⟩
            held := fun _ _ => rfl
            slotBack := fun h => absurd h hphase
            permitBack := fun h => absurd h hphase
            promoted := fun c hc => by cases hc }
        split
        · refine ⟨(htakes .running).settle (Handback.trans ?_ (handback_finish _)), ?_, ?_⟩
          · apply handback_releaseInFlight
            · exact fun _ => rfl
            · exact hceiling
            · exact (htakes .running).covered hpermits
          · exact sound_finish_releaseInFlight (fun _ => rfl) hceiling (fun c hc => by cases hc)
          · left
            simp [hdeferred]
        · split
          · exact ⟨htakes .hookPending, hsound .hookPending (by decide), .inl hdeferred⟩
          · obtain ⟨hback, hsettled⟩ := admitAccept_settles id out (p := (a₂, reserved .running))
              (fun hphase => by cases hphase) (hsound .running (by decide))
              ((htakes .running).covered hpermits)
            refine ⟨(htakes .running).settle hback, hsettled, ?_⟩
            cases admitAccept_queue opts (a₂, reserved .running) id out with
            | inl h => exact .inl (h.1.trans hdeferred)
            | inr h => exact .inr ⟨by rw [← hdeferred]; exact h.1, h.2⟩

theorem Balanced.arrive {q : State} (h : Balanced opts q) (request : Request)
    (out : AcceptOutcome) :
    let r := handleUpgrade opts q.upgrades.length request out q.admission
    Balanced opts { admission := r.1, upgrades := q.upgrades ++ [r.2] } := by
  have hpermits : 0 ≤ q.admission.connectionPermits := by
    rw [h.permits]
    apply sum_nonneg
    intro n hn
    obtain ⟨z, -, rfl⟩ := mem_map.mp hn
    exact permitDue_nonneg z
  obtain ⟨htakes, hsound, hqueue⟩ :=
    takes_handleUpgrade opts q.upgrades.length request out hpermits
  exact {
    slots := balanced_append h.slots htakes.slots
    cursor := balanced_append h.cursor htakes.cursor
    permits := balanced_append h.permits htakes.permits
    slots_le := htakes.slots_le h.slots_le
    cursor_le := htakes.cursor_le h.cursor_le
    permits_le := htakes.permits_le h.permits_le
    faulted := htakes.faulted.trans h.faulted
    sound := by
      intro v hv
      rw [mem_append, mem_singleton] at hv
      cases hv with
      | inl hold => exact h.sound v hold
      | inr hnew => exact hnew ▸ hsound
    queued := by
      cases hqueue with
      | inl hsame =>
        rw [hsame]
        exact h.queued.append
      | inr hpushed =>
        rw [hpushed.1]
        refine Queued.push h.queued.append ?_ (by simp) hpushed.2
        intro hmem
        obtain ⟨w, hw, -⟩ := h.queued.2 _ hmem
        have := (List.getElem?_eq_some_iff.mp hw).1
        omega }

end Arrival

section Run

variable {opts : AdmissionOptions} {q q' : State}

theorem Balanced.repace (h : Balanced opts q) {a : Admission}
    (hslots : a.inFlight = q.admission.inFlight)
    (hcursor : a.cursorInFlight = q.admission.cursorInFlight)
    (hpermits : a.connectionPermits = q.admission.connectionPermits)
    (hfaulted : a.faulted = q.admission.faulted)
    (hqueued : Queued a.deferred q.upgrades) :
    Balanced opts { admission := a, upgrades := q.upgrades } where
  slots := hslots.trans h.slots
  cursor := hcursor.trans h.cursor
  permits := hpermits.trans h.permits
  slots_le := fun hmax => by
    rw [hslots]
    exact h.slots_le hmax
  cursor_le := by
    rw [hcursor]
    exact h.cursor_le
  permits_le := fun hmax => by
    rw [hpermits]
    exact h.permits_le hmax
  faulted := hfaulted.trans h.faulted
  sound := h.sound
  queued := hqueued

/-- A turn of the pacing queue runs each accept it dequeues once. -/
theorem Balanced.drainLoop (outs : ℕ → AcceptOutcome) (n : ℕ) (h : Balanced opts q) :
    Balanced opts (State.drainLoop opts outs n q) := by
  induction n generalizing q with
  | zero => exact h
  | succ n ih =>
    cases hqueue : q.admission.deferred with
    | nil => simpa [State.drainLoop, hqueue] using h
    | cons id rest =>
      simp only [State.drainLoop, hqueue]
      apply ih
      have hqueued := h.queued
      rw [hqueue] at hqueued
      obtain ⟨u, hu, hwaits⟩ := hqueued.2 id (by simp)
      have hrest : Queued rest q.upgrades :=
        ⟨(nodup_cons.mp hqueued.1).2, fun j hj => hqueued.2 j (by simp [hj])⟩
      have hdequeued := h.repace (a := { q.admission with
        deferred := rest, perTickCount := q.admission.perTickCount + 1 }) rfl rfl rfl rfl hrest
      have hrunning : u.phase ≠ .finished := by
        rw [hwaits]
        decide
      obtain ⟨hback, hsound⟩ := acceptUpgrade_settles (outs id) hrunning
        (h.sound u (mem_of_getElem? hu)) (hdequeued.covered hu)
      refine hdequeued.onUpgrade hu hback hsound ?_
      rw [acceptUpgrade_deferred]
      exact hrest.set_other (nodup_cons.mp hqueued.1).1

theorem Balanced.drain (outs : ℕ → AcceptOutcome) (h : Balanced opts q) :
    Balanced opts (q.drain opts outs) := by
  have hstarted := h.repace (a := { q.admission with drainScheduled := false, perTickCount := 0 })
    rfl rfl rfl rfl h.queued
  have hrun := hstarted.drainLoop outs opts.perTickBudget
  exact hrun.repace rfl rfl rfl rfl hrun.queued

theorem exists_upgrade_of_any {i : ℕ} {p : Upgrade → Bool}
    (h : (q.upgrades[i]?).any p = true) : ∃ u, q.upgrades[i]? = some u ∧ p u = true := by
  cases hu : q.upgrades[i]? with
  | none => simp [hu] at h
  | some u => exact ⟨u, rfl, by simpa [hu] using h⟩

theorem Balanced.step (h : Balanced opts q) {e : Event} (hstep : q.step opts e = some q') :
    Balanced opts q' := by
  cases e with
  | upgrade request out =>
    simp only [State.step, ite_none_left_eq_some, some.injEq] at hstep
    obtain ⟨-, rfl⟩ := hstep
    exact h.arrive request out
  | hookSettles i hook out =>
    simp only [State.step, ite_none_right_eq_some, some.injEq] at hstep
    obtain ⟨hparked, rfl⟩ := hstep
    obtain ⟨u, hu, hphase⟩ := exists_upgrade_of_any hparked
    simp only [decide_eq_true_eq] at hphase
    have hrunning : u.phase ≠ .finished := by
      rw [hphase]
      decide
    obtain ⟨hback, hsound⟩ := settleHook_settles i hook out hrunning
      (h.sound u (mem_of_getElem? hu)) (h.covered hu)
    refine h.onUpgrade hu hback hsound ?_
    have hi : i ∉ q.admission.deferred := h.queued.not_mem hu (by rw [hphase]; decide)
    cases settleHook_queue opts (q.admission, u) i hook out with
    | inl hfinished =>
      rw [hfinished.1]
      exact h.queued.set_other hi
    | inr hpushed =>
      rw [hpushed.1]
      refine (h.queued.set_other hi).push hi ?_ hpushed.2
      rw [List.getElem?_set_self (List.getElem?_eq_some_iff.mp hu).1]
  | destroy i =>
    simp only [State.step] at hstep
    cases hstep
    cases hu : q.upgrades[i]? with
    | none => simpa [State.onUpgrade, hu] using h
    | some u =>
      have hsound := (h.sound u (mem_of_getElem? hu)).destroy true
      rw [Bool.or_true] at hsound
      exact h.onUpgrade hu ⟨rfl, rfl, rfl, le_refl _, le_refl _, le_refl _, rfl⟩ hsound
        (h.queued.set_same hu rfl)
  | socketClose i =>
    simp only [State.step, ite_none_right_eq_some, some.injEq] at hstep
    obtain ⟨hdestroyed, rfl⟩ := hstep
    obtain ⟨u, hu, hgone⟩ := exists_upgrade_of_any hdestroyed
    obtain ⟨hback, hsound⟩ := onSocketClose_settles (p := (q.admission, u))
      (Bool.and_eq_true_iff.mp hgone).1 (h.sound u (mem_of_getElem? hu)) (h.covered hu)
    refine h.onUpgrade hu hback hsound ?_
    rw [onSocketClose_deferred]
    exact h.queued.set_same hu (onSocketClose_phase opts _)
  | drain outs =>
    simp only [State.step, ite_none_right_eq_some, some.injEq] at hstep
    obtain ⟨-, rfl⟩ := hstep
    exact h.drain outs
  | close i =>
    simp only [State.step, ite_none_right_eq_some, some.injEq] at hstep
    obtain ⟨hopen, rfl⟩ := hstep
    obtain ⟨u, hu, -⟩ := exists_upgrade_of_any hopen
    obtain ⟨hback, hsound⟩ := onClose_settles (p := (q.admission, u))
      (h.sound u (mem_of_getElem? hu)) (h.covered hu)
    refine h.onUpgrade hu hback hsound ?_
    rw [onClose_deferred]
    exact h.queued.set_same hu (onClose_phase opts _)

theorem balanced_of_reaches {es : List Event} (h : (upgrades opts).Reaches es q) :
    Balanced opts q := by
  refine ReachesWhere.invariant (I := Balanced opts) ?_ ?_ h
  · exact {
      slots := rfl
      cursor := rfl
      permits := rfl
      slots_le := fun _ => Int.natCast_nonneg _
      cursor_le := Int.natCast_nonneg _
      permits_le := fun _ => Int.natCast_nonneg _
      faulted := rfl
      sound := fun u hu => by cases hu
      queued := ⟨nodup_nil, fun id hid => by cases hid⟩ }
  · exact fun q e q' hq _ hstep => hq.step hstep

end Run

section Count

variable {opts : AdmissionOptions} {u : Upgrade}

end Count

/-- Two upgrades under a ceiling of two: the first opens and closes, the second, in the cursor
lane, is paced and abandoned by its peer. -/
def pacedRun : List Event :=
  [.upgrade ⟨.passes, false, false, false⟩ (.accepted .opened),
   .upgrade ⟨.passes, true, false, false⟩ .wsAnswers,
   .destroy 1, .socketClose 1, .drain fun _ => .wsAnswers, .close 0]

/-- The accept always finds the carrier it installed: the fatal branch of the setup is not
reachable. -/
theorem carrier_found {opts : AdmissionOptions} {es : List Event} {q : State}
    (h : (upgrades opts).Reaches es q) {u : Upgrade} (hu : u ∈ q.upgrades)
    (hrunning : u.phase ≠ .finished) (halive : u.destroyed = false) :
    (opts.maxConnections > 0 && !(Connection.accepted u.connectionPermitHeld).carrier) = false := by
  rw [show (Connection.accepted u.connectionPermitHeld).carrier = u.connectionPermitHeld from rfl,
    ((balanced_of_reaches h).sound u hu).held hrunning halive]
  simp

/-- In every run, an accept that is reached sets its connection up to the end: the connection has
its close listener and, under a ceiling, the permit that the close will return. -/
theorem setup_completes {opts : AdmissionOptions} {es : List Event} {q : State}
    (h : (upgrades opts).Reaches es q) {u : Upgrade} (hu : u ∈ q.upgrades)
    (hrunning : u.phase ≠ .finished) (halive : u.destroyed = false) (a : Admission) :
    openConnection opts .opened a (Connection.accepted u.connectionPermitHeld) =
      (a, ⟨false, decide (opts.maxConnections > 0), true, false, false⟩) := by
  have hfound := carrier_found h hu hrunning halive
  have hheld := ((balanced_of_reaches h).sound u hu).held hrunning halive
  rw [openConnection, hfound, if_neg Bool.false_ne_true, hheld]
  by_cases hlimit : opts.maxConnections > 0
  · simp [Connection.accepted, hlimit]
  · simp [Connection.accepted, hlimit]

/-- The second upgrade of a turn waits with its permit. -/
theorem setup_completes_pacedRun : ∃ (q : State) (u : Upgrade), u ∈ q.upgrades ∧
    u.phase = .deferred ∧
      openConnection ⟨2, 2, 1, 4, 1, false⟩ .opened q.admission
        (Connection.accepted u.connectionPermitHeld) =
          (q.admission, ⟨false, true, true, false, false⟩) := by
  obtain ⟨q, hreach, u, hu, hdeferred, halive⟩ :
      ∃ q, (upgrades ⟨2, 2, 1, 4, 1, false⟩).Reaches (pacedRun.take 2) q ∧
        ∃ u ∈ q.upgrades, u.phase = .deferred ∧ u.destroyed = false :=
    Machine.exists_of_exec (by decide)
  have hrunning : u.phase ≠ .finished := by
    rw [hdeferred]
    decide
  exact ⟨q, u, hu, hdeferred, setup_completes hreach hu hrunning halive q.admission⟩

end AdapterWs.UpgradeGate
