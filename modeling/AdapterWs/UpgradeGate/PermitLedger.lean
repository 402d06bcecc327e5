import AdapterWs.UpgradeGate.Admission

/-!
# Admission permits never leak

The three counters of the admission controller as ledgers over the upgrades. Every step of an
upgrade is a `Handback`: it moves the counters by exactly what it changes of that upgrade's
dues, raises none of them and never releases what was not acquired. Acquisition is the one
step that raises a counter, and it asks for the ceiling first.
-/

namespace AdapterWs.UpgradeGate

open Machine Connection Upgrade Admission

/-- The slot an upgrade still holds. -/
def slotDue (u : Upgrade) : ℤ :=
  if u.acquired && !u.inFlightReleased then 1 else 0

/-- The cursor slot an upgrade still holds. -/
def cursorDue (u : Upgrade) : ℤ :=
  if u.acquired && !u.inFlightReleased && u.isCursor then 1 else 0

/-- The permit a connection carries, in its carrier or in its slot. -/
def Connection.permitDue (c : Connection) : ℤ :=
  (if c.carrier then 1 else 0) + (if c.permit then 1 else 0)

/-- The permit of an upgrade: in its closure, or with its connection. -/
def permitDue (u : Upgrade) : ℤ :=
  (if u.connectionPermitHeld && !u.connectionPermitTransferred then 1 else 0) +
    u.connection.elim 0 Connection.permitDue

theorem Connection.permitDue_nonneg (c : Connection) : 0 ≤ c.permitDue := by
  unfold permitDue
  split_ifs <;> decide

theorem permitDue_nonneg (u : Upgrade) : 0 ≤ permitDue u := by
  unfold permitDue
  have hconn : 0 ≤ u.connection.elim 0 Connection.permitDue := by
    cases u.connection with
    | none => exact le_refl _
    | some c => exact c.permitDue_nonneg
  split_ifs <;> omega

section Release

variable (opts : AdmissionOptions) (a : Admission)

@[simp] theorem releaseConnection_deferred :
    (a.releaseConnection opts).deferred = a.deferred := by
  unfold releaseConnection
  split_ifs <;> rfl

/-- A permit that was acquired is handed back and nothing throws. -/
theorem releaseConnection_of_pos (hmax : opts.maxConnections ≠ 0)
    (hpos : 0 < a.connectionPermits) :
    a.releaseConnection opts = { a with connectionPermits := a.connectionPermits - 1 } := by
  rw [releaseConnection, if_neg hmax, if_neg (by omega)]

end Release

/-- A step of one upgrade that settles its own dues: each counter moves with the dues, none
rises and no release throws. -/
structure Handback (p p' : Charged) : Prop where
  slots : p'.1.inFlight - slotDue p'.2 = p.1.inFlight - slotDue p.2
  cursor : p'.1.cursorInFlight - cursorDue p'.2 = p.1.cursorInFlight - cursorDue p.2
  permits : p'.1.connectionPermits - permitDue p'.2 = p.1.connectionPermits - permitDue p.2
  slots_le : p'.1.inFlight ≤ p.1.inFlight
  cursor_le : p'.1.cursorInFlight ≤ p.1.cursorInFlight
  permits_le : p'.1.connectionPermits ≤ p.1.connectionPermits
  faulted : p'.1.faulted = p.1.faulted

theorem Handback.refl (p : Charged) : Handback p p :=
  ⟨rfl, rfl, rfl, le_refl _, le_refl _, le_refl _, rfl⟩

theorem Handback.trans {p q r : Charged} (h : Handback p q) (h' : Handback q r) :
    Handback p r where
  slots := h'.slots.trans h.slots
  cursor := h'.cursor.trans h.cursor
  permits := h'.permits.trans h.permits
  slots_le := h'.slots_le.trans h.slots_le
  cursor_le := h'.cursor_le.trans h.cursor_le
  permits_le := h'.permits_le.trans h.permits_le
  faulted := h'.faulted.trans h.faulted

/-- The counter covers what the upgrade owes it. -/
def Covered (p : Charged) : Prop :=
  permitDue p.2 ≤ p.1.connectionPermits

theorem Handback.covered {p p' : Charged} (h : Handback p p') (hp : Covered p) : Covered p' := by
  have := h.permits
  unfold Covered at *
  omega

section Steps

variable {opts : AdmissionOptions} {p : Charged}

theorem handback_finish (p : Charged) : Handback p (finish p) :=
  ⟨rfl, rfl, rfl, le_refl _, le_refl _, le_refl _, rfl⟩

theorem handback_releaseConnectionPermit
    (hheld : p.2.connectionPermitHeld = true → opts.maxConnections ≠ 0) (hp : Covered p) :
    Handback p (releaseConnectionPermit opts p) := by
  unfold releaseConnectionPermit
  split
  · exact Handback.refl p
  · rename_i h
    simp only [Bool.or_eq_true, Bool.not_eq_true', not_or, Bool.not_eq_false,
      Bool.not_eq_true] at h
    have hconn : 0 ≤ p.2.connection.elim 0 Connection.permitDue := by
      cases p.2.connection with
      | none => exact le_refl _
      | some c => exact c.permitDue_nonneg
    have hdue : permitDue p.2 = 1 + p.2.connection.elim 0 Connection.permitDue := by
      simp [permitDue, h.1, h.2]
    have hpos : 0 < p.1.connectionPermits := by
      unfold Covered at hp
      omega
    rw [releaseConnection_of_pos opts p.1 (hheld h.1) hpos]
    refine ⟨rfl, rfl, ?_, le_refl _, le_refl _, ?_, rfl⟩
    · simp only [permitDue, h.1, h.2, Bool.not_false, Bool.and_self, if_true, Bool.false_and,
        Bool.false_eq_true, if_false]
      omega
    · show p.1.connectionPermits - 1 ≤ p.1.connectionPermits
      omega

/-- A slot that was acquired and not released yet is handed back to the lane it came from. -/
theorem handback_slot (hacquired : p.2.acquired = true) (hheld : p.2.inFlightReleased = false) :
    Handback p
      (if p.2.isCursor then p.1.releaseCursorInFlight else p.1.release,
        { p.2 with inFlightReleased := true }) := by
  cases hcursor : p.2.isCursor with
  | true =>
    exact {
      slots := by simp [slotDue, hacquired, hheld, releaseCursorInFlight]
      cursor := by simp [cursorDue, hcursor, hacquired, hheld, releaseCursorInFlight]
      permits := rfl
      slots_le := Int.sub_le_self _ (by decide)
      cursor_le := Int.sub_le_self _ (by decide)
      permits_le := le_refl _
      faulted := rfl }
  | false =>
    exact {
      slots := by simp [slotDue, hacquired, hheld, release]
      cursor := by simp [cursorDue, hcursor, release]
      permits := rfl
      slots_le := Int.sub_le_self _ (by decide)
      cursor_le := le_refl _
      permits_le := le_refl _
      faulted := rfl }

theorem handback_releaseInFlight (hslot : p.2.inFlightReleased = false → p.2.acquired = true)
    (hheld : p.2.connectionPermitHeld = true → opts.maxConnections ≠ 0) (hp : Covered p) :
    Handback p (releaseInFlight opts p) := by
  have hdrop (r : Charged) :
      Handback r (r.1, { r.2 with closeListener := r.2.closeListener && !opts.armed }) :=
    ⟨rfl, rfl, rfl, le_refl _, le_refl _, le_refl _, rfl⟩
  cases hreleased : p.2.inFlightReleased with
  | true =>
    simp only [releaseInFlight, hreleased, if_true]
    exact (handback_releaseConnectionPermit hheld hp).trans (hdrop _)
  | false =>
    simp only [releaseInFlight, hreleased, Bool.false_eq_true, if_false]
    have hfreed := handback_slot (hslot hreleased) hreleased
    exact hfreed.trans
      ((handback_releaseConnectionPermit (by exact hheld) (hfreed.covered hp)).trans (hdrop _))

end Steps

/-- The shape of a connection whose setup has run: the permit left the carrier, and where the
slot holds one the close listener is there to hand it back. -/
structure Connection.Sound (opts : AdmissionOptions) (c : Connection) : Prop where
  carrier : c.carrier = false
  ceiling : c.permit = true → opts.maxConnections ≠ 0
  listed : c.permit = true → c.closeListener = true ∧ c.failedOpen = false
  closed : c.closed = true → c.permit = false

/-- The shape of an upgrade. While the handler runs its closure owns what it acquired, and
only the abandoned-handshake listener may have handed it back. Once it finished, the slot is
back and the permit is back or with the connection. -/
structure Upgrade.Sound (opts : AdmissionOptions) (u : Upgrade) : Prop where
  listener : u.closeListener = true → u.acquired = true
  ceiling : u.connectionPermitHeld = true → opts.maxConnections ≠ 0
  running : u.phase ≠ .finished → u.acquired = true ∧ u.connectionPermitTransferred = false ∧
    u.connection = none
  held : u.phase ≠ .finished → u.destroyed = false →
    u.connectionPermitHeld = decide (opts.maxConnections > 0)
  slotBack : u.phase = .finished → u.acquired = true → u.inFlightReleased = true
  permitBack : u.phase = .finished → u.connectionPermitHeld = true →
    u.connectionPermitTransferred = true
  promoted : ∀ c, u.connection = some c → c.Sound opts

section Shape

variable {opts : AdmissionOptions} {p : Charged}

theorem releaseConnectionPermit_snd (opts : AdmissionOptions) (p : Charged) :
    (releaseConnectionPermit opts p).2 = { p.2 with
      connectionPermitHeld := p.2.connectionPermitHeld && p.2.connectionPermitTransferred } := by
  obtain ⟨a, ⟨_, _, _, held, transferred, _, _, _, _, _⟩⟩ := p
  cases held <;> cases transferred <;> rfl

/-- What handing back leaves of the upgrade: the slot is back, and of the permit only one that
moved on is still recorded. -/
theorem releaseInFlight_snd (opts : AdmissionOptions) (p : Charged) :
    (releaseInFlight opts p).2 = { p.2 with
      inFlightReleased := true
      connectionPermitHeld := p.2.connectionPermitHeld && p.2.connectionPermitTransferred
      closeListener := p.2.closeListener && !opts.armed } := by
  obtain ⟨a, u⟩ := p
  cases hreleased : u.inFlightReleased with
  | true => simp [releaseInFlight, hreleased, releaseConnectionPermit_snd]
  | false => simp [releaseInFlight, hreleased, releaseConnectionPermit_snd]

/-- A handler that hands back and returns leaves a sound upgrade. -/
theorem sound_finish_releaseInFlight
    (hlistener : p.2.closeListener = true → p.2.acquired = true)
    (hheld : p.2.connectionPermitHeld = true → opts.maxConnections ≠ 0)
    (hpromoted : ∀ c, p.2.connection = some c → c.Sound opts) :
    Sound opts (finish (releaseInFlight opts p)).2 := by
  simp only [finish, releaseInFlight_snd]
  constructor
  · intro h
    exact hlistener (Bool.and_eq_true_iff.mp h).1
  · intro h
    exact hheld (Bool.and_eq_true_iff.mp h).1
  · intro h
    exact absurd rfl h
  · intro h
    exact absurd rfl h
  · intro _ _
    rfl
  · intro _ h
    exact (Bool.and_eq_true_iff.mp h).2
  · exact hpromoted

theorem Upgrade.Sound.destroy {u : Upgrade} (h : u.Sound opts) (d : Bool) :
    Sound opts { u with destroyed := u.destroyed || d } where
  listener := h.listener
  ceiling := h.ceiling
  running := h.running
  held := by
    intro hphase hdestroyed
    exact h.held hphase (Bool.or_eq_false_iff.mp hdestroyed).1
  slotBack := h.slotBack
  permitBack := h.permitBack
  promoted := h.promoted

end Shape

section Connection

variable {opts : AdmissionOptions} {a : Admission} {c : Connection}

/-- A connection step that settles the connection's own permit. -/
structure ConnectionHandback (a : Admission) (c : Connection) (a' : Admission)
    (c' : Connection) : Prop where
  inFlight : a'.inFlight = a.inFlight
  cursorInFlight : a'.cursorInFlight = a.cursorInFlight
  permits : a'.connectionPermits - c'.permitDue = a.connectionPermits - c.permitDue
  permits_le : a'.connectionPermits ≤ a.connectionPermits
  faulted : a'.faulted = a.faulted

/-- The connection hands back the permit in its slot, once. -/
theorem handback_releaseConnectionPermitFor (opts : AdmissionOptions)
    (hpermit : c.permit = true → opts.maxConnections ≠ 0)
    (hcovered : c.permitDue ≤ a.connectionPermits) :
    ConnectionHandback a c (releaseConnectionPermitFor opts a c).1
      (releaseConnectionPermitFor opts a c).2 := by
  unfold releaseConnectionPermitFor
  cases h : c.permit with
  | false => exact ⟨rfl, rfl, by simp [Connection.permitDue], le_refl _, rfl⟩
  | true =>
    have hdue : c.permitDue = (if c.carrier then 1 else 0) + 1 := by
      simp [Connection.permitDue, h]
    have hpos : 0 < a.connectionPermits := by
      rw [hdue] at hcovered
      split at hcovered <;> omega
    rw [if_pos rfl, releaseConnection_of_pos opts a (hpermit h) hpos]
    refine ⟨rfl, rfl, ?_, Int.sub_le_self _ (by decide), rfl⟩
    rw [hdue]
    simp only [Connection.permitDue, Bool.false_eq_true, if_false]
    omega

@[simp] theorem releaseConnectionPermitFor_permit (opts : AdmissionOptions) (a : Admission)
    (c : Connection) : (releaseConnectionPermitFor opts a c).2 = { c with permit := false } := by
  obtain ⟨_, permit, _, _, _⟩ := c
  cases permit <;> rfl

theorem ConnectionHandback.of_due {a' : Admission} {c₁ c' : Connection}
    (h : ConnectionHandback a c₁ a' c') (hdue : c₁.permitDue = c.permitDue) :
    ConnectionHandback a c a' c' :=
  { h with permits := by rw [h.permits, hdue] }

/-- What the setup of a connection leaves: its dues settled and a sound open connection. -/
structure SetupSettled (opts : AdmissionOptions) (a : Admission) (c : Connection)
    (r : Admission × Connection) : Prop where
  handback : ConnectionHandback a c r.1 r.2
  sound : r.2.Sound opts
  still_open : r.2.closed = false

/-- A connection refused in its setup hands back what the setup promoted. -/
theorem setupSettled_release {c₁ : Connection} (hdue : c₁.permitDue = c.permitDue)
    (hcarrier : c₁.carrier = false) (hceiling : c₁.permit = true → opts.maxConnections ≠ 0)
    (hclosed : c₁.closed = false) (hcovered : c.permitDue ≤ a.connectionPermits) :
    SetupSettled opts a c (releaseConnectionPermitFor opts a c₁) where
  handback :=
    (handback_releaseConnectionPermitFor opts hceiling (hdue ▸ hcovered)).of_due hdue
  sound := by
    rw [releaseConnectionPermitFor_permit]
    exact ⟨hcarrier, by simp, by simp, by simp⟩
  still_open := by
    rw [releaseConnectionPermitFor_permit]
    exact hclosed

/-- The setup moves the permit from the carrier to the slot, and hands it back on each path
that refuses the connection. -/
theorem setupSettled_openConnection (setup : Setup) {carrier : Bool}
    (hcarrier : carrier = true → opts.maxConnections ≠ 0)
    (hcovered : (accepted carrier).permitDue ≤ a.connectionPermits) :
    SetupSettled opts a (.accepted carrier) (openConnection opts setup a (.accepted carrier)) := by
  unfold openConnection
  split
  · rename_i hfatal
    exact {
      handback := ⟨rfl, rfl, rfl, le_refl _, rfl⟩
      sound := ⟨by simpa [accepted] using (Bool.and_eq_true_iff.mp hfatal).2,
        by simp [accepted], by simp [accepted],
        by simp [accepted]⟩
      still_open := rfl }
  · rename_i hfound
    -- Under a ceiling the carrier was there, so promoting it moves the permit and no count.
    obtain ⟨c₁, hc₁, hdue, hcarrier₁, hceiling, hfailed, hclosed⟩ : ∃ c₁ : Connection,
        (if opts.maxConnections > 0 then
          { accepted carrier with carrier := false, permit := true }
          else accepted carrier) = c₁ ∧
          c₁.permitDue = (accepted carrier).permitDue ∧ c₁.carrier = false ∧
          (c₁.permit = true → opts.maxConnections ≠ 0) ∧ c₁.failedOpen = false ∧
          c₁.closed = false := by
      refine ⟨_, rfl, ?_⟩
      cases carrier with
      | true =>
        have hmax : opts.maxConnections > 0 := Nat.pos_of_ne_zero (hcarrier rfl)
        rw [if_pos hmax]
        exact ⟨rfl, rfl, fun _ => hcarrier rfl, rfl, rfl⟩
      | false =>
        have hmax : ¬ opts.maxConnections > 0 := by simpa [accepted] using hfound
        rw [if_neg hmax]
        exact ⟨rfl, rfl, by simp [accepted], rfl, rfl⟩
    simp only [hc₁]
    cases setup with
    | opened =>
      exact {
        handback := ⟨rfl, rfl, by rw [← hdue]; rfl, le_refl _, rfl⟩
        sound := ⟨hcarrier₁, hceiling, fun _ => ⟨rfl, hfailed⟩, by simp [hclosed]⟩
        still_open := hclosed }
    | attributionRefused =>
      exact setupSettled_release hdue hcarrier₁ hceiling hclosed hcovered
    | failed closeListener =>
      apply setupSettled_release (by rw [← hdue]; rfl)
      · exact hcarrier₁
      · exact hceiling
      · exact hclosed
      · exact hcovered

/-- The close of a sound connection hands back its permit and leaves it closed. -/
theorem closeConnection_settles (h : c.Sound opts) (hcovered : c.permitDue ≤ a.connectionPermits) :
    ConnectionHandback a c (closeConnection opts a c).1 (closeConnection opts a c).2 ∧
      (closeConnection opts a c).2.Sound opts := by
  unfold closeConnection
  cases hpermit : c.permit with
  | false =>
    have hkeep (c' : Connection) (hcarrier : c'.carrier = c.carrier)
        (hsame : c'.permit = false) :
        ConnectionHandback a c a c' ∧ c'.Sound opts :=
      ⟨⟨rfl, rfl, by simp [Connection.permitDue, hcarrier, hpermit, hsame], le_refl _, rfl⟩,
        ⟨hcarrier.trans h.carrier, by simp [hsame], by simp [hsame], fun _ => hsame⟩⟩
    simp only
    split
    · exact hkeep _ rfl rfl
    · split
      · exact hkeep _ rfl rfl
      · rw [releaseConnectionPermitFor, if_neg Bool.false_ne_true]
        exact hkeep _ rfl rfl
  | true =>
    obtain ⟨hlistener, hopen⟩ := h.listed hpermit
    simp only [hlistener, hopen, Bool.not_true, Bool.false_eq_true, if_false]
    constructor
    · have hdue : { c with permit := true, closed := true }.permitDue = c.permitDue := by
        simp [Connection.permitDue, hpermit]
      refine (handback_releaseConnectionPermitFor opts ?_ ?_).of_due hdue
      · exact fun _ => h.ceiling hpermit
      · exact hdue ▸ hcovered
    · rw [releaseConnectionPermitFor_permit]
      exact ⟨h.carrier, by simp, by simp, by simp⟩

end Connection

section Accept

variable {opts : AdmissionOptions} {p : Charged}

theorem Upgrade.Sound.handback (h : p.2.Sound opts) (hacquired : p.2.acquired = true)
    (hp : Covered p) : Handback p (finish (releaseInFlight opts p)) :=
  (handback_releaseInFlight (fun _ => hacquired) h.ceiling hp).trans (handback_finish _)

/-- Moving the permit to the connection that was just set up settles the dues. -/
theorem handback_transfer (setup : Setup) (hrunning : p.2.phase ≠ .finished)
    (h : p.2.Sound opts) (hp : Covered p) {r : Admission × Connection}
    (hr : r = openConnection opts setup p.1 (.accepted p.2.connectionPermitHeld)) :
    SetupSettled opts p.1 (.accepted p.2.connectionPermitHeld) r ∧
      Handback p (r.1, { p.2 with
        connectionPermitTransferred := p.2.connectionPermitHeld
        connection := some r.2 }) := by
  obtain ⟨hacquired, htransferred, hnone⟩ := h.running hrunning
  have hdue : (Connection.accepted p.2.connectionPermitHeld).permitDue = permitDue p.2 := by
    cases hheld : p.2.connectionPermitHeld <;>
      simp [Connection.accepted, Connection.permitDue, permitDue, htransferred, hnone, hheld]
  have hsettled : SetupSettled opts p.1 (.accepted p.2.connectionPermitHeld) r := by
    rw [hr]
    apply setupSettled_openConnection setup h.ceiling
    rw [hdue]
    exact hp
  refine ⟨hsettled, ?_⟩
  have hafter : permitDue { p.2 with
      connectionPermitTransferred := p.2.connectionPermitHeld
      connection := some r.2 } = r.2.permitDue := by
    simp [permitDue]
  exact {
    slots := by
      rw [hsettled.handback.inFlight]
      rfl
    cursor := by
      rw [hsettled.handback.cursorInFlight]
      rfl
    permits := by
      rw [hafter, hsettled.handback.permits, hdue]
    slots_le := le_of_eq hsettled.handback.inFlight
    cursor_le := le_of_eq hsettled.handback.cursorInFlight
    permits_le := hsettled.handback.permits_le
    faulted := hsettled.handback.faulted }

/-- Every way an accept can end settles the upgrade's dues and leaves it sound and finished. -/
theorem acceptUpgrade_settles (out : AcceptOutcome) (hrunning : p.2.phase ≠ .finished)
    (h : p.2.Sound opts) (hp : Covered p) :
    Handback p (acceptUpgrade opts out p).1 ∧ (acceptUpgrade opts out p).1.2.Sound opts := by
  obtain ⟨hacquired, htransferred, hnone⟩ := h.running hrunning
  have hback : Handback p (finish (releaseInFlight opts p)) ∧
      (finish (releaseInFlight opts p)).2.Sound opts :=
    ⟨h.handback hacquired hp, sound_finish_releaseInFlight h.listener h.ceiling h.promoted⟩
  have hcatch : Handback p (finish (releaseInFlight opts (releaseConnectionPermit opts p))) ∧
      (finish (releaseInFlight opts (releaseConnectionPermit opts p))).2.Sound opts := by
    have hpermit := handback_releaseConnectionPermit h.ceiling hp
    have hsnd := releaseConnectionPermit_snd opts p
    constructor
    · refine hpermit.trans ((handback_releaseInFlight ?_ ?_ (hpermit.covered hp)).trans
        (handback_finish _))
      · intro _
        rw [hsnd]
        exact hacquired
      · rw [hsnd]
        intro hheld
        exact h.ceiling (Bool.and_eq_true_iff.mp hheld).1
    · apply sound_finish_releaseInFlight
      · rw [hsnd]
        exact h.listener
      · rw [hsnd]
        intro hheld
        exact h.ceiling (Bool.and_eq_true_iff.mp hheld).1
      · rw [hsnd]
        exact h.promoted
  unfold acceptUpgrade
  split
  · exact hback
  · cases out with
    | copyThrows => exact hback
    | wsThrows => exact hcatch
    | wsAnswers => exact hback
    | callbackThrows => exact hcatch
    | accepted setup =>
      obtain ⟨hsettled, htransfer⟩ := handback_transfer setup hrunning h hp rfl
      constructor
      · refine htransfer.trans (Handback.trans ?_ (handback_finish _))
        apply handback_releaseInFlight
        · exact fun _ => hacquired
        · exact h.ceiling
        · exact htransfer.covered hp
      · apply sound_finish_releaseInFlight
        · exact h.listener
        · exact h.ceiling
        · intro c hc
          cases hc
          exact hsettled.sound

theorem acceptNow_settles (out : AcceptOutcome) (hrunning : p.2.phase ≠ .finished)
    (h : p.2.Sound opts) (hp : Covered p) :
    Handback p (acceptNow opts out p) ∧ (acceptNow opts out p).2.Sound opts := by
  obtain ⟨hback, hsound⟩ := acceptUpgrade_settles out hrunning h hp
  refine ⟨?_, hsound.destroy _⟩
  exact hback.trans ⟨rfl, rfl, rfl, le_refl _, le_refl _, le_refl _, rfl⟩

/-- The end of the handler settles the dues, or parks the accept with everything it holds. -/
theorem admitAccept_settles (id : ℕ) (out : AcceptOutcome) (hrunning : p.2.phase ≠ .finished)
    (h : p.2.Sound opts) (hp : Covered p) :
    Handback p (admitAccept opts id out p) ∧ (admitAccept opts id out p).2.Sound opts := by
  have hback : Handback p (finish (releaseInFlight opts p)) ∧
      (finish (releaseInFlight opts p)).2.Sound opts :=
    ⟨h.handback (h.running hrunning).1 hp,
      sound_finish_releaseInFlight h.listener h.ceiling h.promoted⟩
  have hsame (a : Admission) (hslots : a.inFlight = p.1.inFlight)
      (hcursor : a.cursorInFlight = p.1.cursorInFlight)
      (hpermits : a.connectionPermits = p.1.connectionPermits)
      (hfaulted : a.faulted = p.1.faulted) : Handback p (a, p.2) :=
    ⟨by rw [hslots], by rw [hcursor], by rw [hpermits], le_of_eq hslots, le_of_eq hcursor,
      le_of_eq hpermits, hfaulted⟩
  unfold admitAccept
  split
  · exact hback
  · rename_i hdestroyed
    split
    · exact acceptNow_settles out hrunning h hp
    · split
      · have hspent := hsame
          { p.1 with perTickCount := p.1.perTickCount + 1, drainScheduled := true } rfl rfl rfl rfl
        obtain ⟨hnow, hsound⟩ := acceptNow_settles out (by exact hrunning) (by exact h)
          (hspent.covered hp)
        exact ⟨hspent.trans hnow, hsound⟩
      · split
        · have hcounted := hsame
            { p.1 with deferredRejectedTotal := p.1.deferredRejectedTotal + 1 } rfl rfl rfl rfl
          refine ⟨hcounted.trans (Sound.handback (by exact h) (h.running hrunning).1
            (hcounted.covered hp)), ?_⟩
          exact sound_finish_releaseInFlight h.listener h.ceiling h.promoted
        · refine ⟨⟨rfl, rfl, rfl, le_refl _, le_refl _, le_refl _, rfl⟩, ?_⟩
          exact {
            listener := h.listener
            ceiling := h.ceiling
            running := fun _ => h.running hrunning
            held := fun _ => h.held hrunning
            slotBack := fun hphase => by cases hphase
            permitBack := fun hphase => by cases hphase
            promoted := h.promoted }

theorem settleHook_settles (id : ℕ) (hook : HookOutcome) (out : AcceptOutcome)
    (hrunning : p.2.phase ≠ .finished) (h : p.2.Sound opts) (hp : Covered p) :
    Handback p (settleHook opts id hook out p) ∧ (settleHook opts id hook out p).2.Sound opts := by
  unfold settleHook
  split
  · exact admitAccept_settles id out hrunning h hp
  · exact ⟨h.handback (h.running hrunning).1 hp,
      sound_finish_releaseInFlight h.listener h.ceiling h.promoted⟩

/-- The abandoned-handshake listener hands back while the handler is still running. -/
theorem onSocketClose_settles (hdestroyed : p.2.destroyed = true) (h : p.2.Sound opts)
    (hp : Covered p) :
    Handback p (onSocketClose opts p) ∧ (onSocketClose opts p).2.Sound opts := by
  have hemitted : Handback p (p.1, { p.2 with closeEmitted := true }) :=
    ⟨rfl, rfl, rfl, le_refl _, le_refl _, le_refl _, rfl⟩
  unfold onSocketClose
  split
  · rename_i hlistener
    constructor
    · refine hemitted.trans (handback_releaseInFlight ?_ (by exact h.ceiling) (hemitted.covered hp))
      exact fun _ => h.listener hlistener
    · rw [releaseInFlight_snd]
      exact {
        listener := fun hl => h.listener (Bool.and_eq_true_iff.mp hl).1
        ceiling := fun hheld => h.ceiling (Bool.and_eq_true_iff.mp hheld).1
        running := h.running
        held := fun _ halive => by
          change p.2.destroyed = false at halive
          rw [hdestroyed] at halive
          cases halive
        slotBack := fun _ _ => rfl
        permitBack := fun _ hheld => (Bool.and_eq_true_iff.mp hheld).2
        promoted := h.promoted }
  · refine ⟨hemitted, ?_⟩
    exact ⟨h.listener, h.ceiling, h.running, h.held, h.slotBack, h.permitBack, h.promoted⟩

/-- The close of a connection hands back its permit, once. -/
theorem onClose_settles (h : p.2.Sound opts) (hp : Covered p) :
    Handback p (onClose opts p) ∧ (onClose opts p).2.Sound opts := by
  unfold onClose
  cases hconn : p.2.connection with
  | none => exact ⟨Handback.refl p, h⟩
  | some c =>
    have hdone : p.2.phase = .finished := by
      by_contra hrunning
      have hnone := (h.running hrunning).2.2
      rw [hconn] at hnone
      cases hnone
    have hrest : ∀ c', permitDue { p.2 with connection := some c' } =
        permitDue p.2 - c.permitDue + c'.permitDue := by
      intro c'
      simp only [permitDue, hconn, Option.elim_some]
      omega
    have hcovered : c.permitDue ≤ p.1.connectionPermits := by
      have hclosure : c.permitDue ≤ permitDue p.2 := by
        simp only [permitDue, hconn, Option.elim_some]
        split_ifs <;> omega
      exact le_trans hclosure hp
    obtain ⟨hback, hsound⟩ := closeConnection_settles (h.promoted c hconn) hcovered
    constructor
    · exact {
        slots := by
          simp only [hback.inFlight]
          rfl
        cursor := by
          simp only [hback.cursorInFlight]
          rfl
        permits := by
          have := hback.permits
          simp only [hrest]
          omega
        slots_le := le_of_eq hback.inFlight
        cursor_le := le_of_eq hback.cursorInFlight
        permits_le := hback.permits_le
        faulted := hback.faulted }
    · exact {
        listener := h.listener
        ceiling := h.ceiling
        running := fun hrunning => absurd hdone hrunning
        held := fun hrunning => absurd hdone hrunning
        slotBack := h.slotBack
        permitBack := h.permitBack
        promoted := by
          intro c' hc'
          cases hc'
          exact hsound }

end Accept

end AdapterWs.UpgradeGate
