import AdapterWs.Egress.Account

/-!
# Every window within its ceilings

What a window has counted is the sum of what was charged to it since it started. A publish is
admitted against that sum, or against the window before it where the window rotates before the
charge, and then the charge is the first of its window. Sweeping and evicting only drop windows.
-/

namespace AdapterWs.Egress

open List Function

variable {o : EgressOptions} {c : Ceilings} {l l' l'' : Ledger} {key other : JsString} {w : Window}
  {nowMs windowMs : ℚ}

/-! ## Dropping windows -/

/-- A ledger holds nothing that it did not hold before. -/
def Drops (l l' : Ledger) : Prop :=
  ∀ key w, l'.map.get key = some w → l.map.get key = some w

theorem Drops.refl (l : Ledger) : Drops l l := fun _ _ h => h

theorem Drops.trans (h : Drops l l') (h' : Drops l' l'') : Drops l l'' :=
  fun key w hget => h key w (h' key w hget)

theorem drops_of_map_eq (h : l'.map = l.map) : Drops l l' := fun key w hget => by rwa [h] at hget

theorem drops_delete (l : Ledger) (key : JsString) :
    Drops l { l with map := l.map.delete key } := by
  intro other w hget
  simp only [CursorMap.get_delete] at hget
  split_ifs at hget
  exact hget

@[simp] theorem map_closePass (l : Ledger) : l.closePass.map = l.map := by
  rw [Ledger.closePass]
  split <;> rfl

@[simp] theorem map_noteExpiry (l : Ledger) (expiry : ℚ) : (l.noteExpiry expiry).map = l.map := by
  rw [Ledger.noteExpiry]
  split
  · rfl
  · split <;> rfl

/-! ## The turns of a walk -/

@[simp] theorem evictCursor_closePass (l : Ledger) : l.closePass.evictCursor = none := by
  rw [Ledger.closePass]
  split <;> rfl

@[simp] theorem evictCursor_noteExpiry (l : Ledger) (expiry : ℚ) :
    (l.noteExpiry expiry).evictCursor = l.evictCursor := by
  rw [Ledger.noteExpiry]
  split
  · rfl
  · split <;> rfl

/-- The turns `reclaimExpired` is given are enough. -/
theorem reclaimLoop_succ {fuel steps wrapped : ℕ}
    (h : CursorMap.turnsLeft sweepSteps steps wrapped l.evictCursor ≤ fuel) :
    Ledger.reclaimLoop nowMs windowMs (fuel + 1) steps wrapped l =
      Ledger.reclaimLoop nowMs windowMs fuel steps wrapped l := by
  induction fuel generalizing steps wrapped l with
  | zero =>
    rw [Ledger.reclaimLoop, Ledger.reclaimLoop, if_neg (CursorMap.not_of_turnsLeft_eq_zero h)]
  | succ fuel ih =>
    rw [Ledger.reclaimLoop]
    conv_rhs => rw [Ledger.reclaimLoop]
    by_cases hgo : steps < sweepSteps ∧ wrapped < 2
    · rw [if_pos hgo, if_pos hgo]
      simp only
      split
      · refine ih ?_
        rw [evictCursor_closePass]
        exact CursorMap.turnsLeft_end h hgo
      · next key w cursor _ =>
        refine ih ?_
        have hstep := CursorMap.turnsLeft_step h hgo cursor
        by_cases hlapsed : w.lapsed nowMs windowMs = true
        · rw [if_pos hlapsed]
          exact hstep
        · rw [if_neg hlapsed, evictCursor_noteExpiry]
          exact hstep
    · rw [if_neg hgo, if_neg hgo]

/-- The turns `evictOne` is given are enough. -/
theorem evictLoop_succ {sample fuel sampled wrapped : ℕ} {victim : Option (JsString × ℚ)}
    (h : CursorMap.turnsLeft sample sampled wrapped l.evictCursor ≤ fuel) :
    Ledger.evictLoop c sample nowMs windowMs (fuel + 1) sampled wrapped victim l =
      Ledger.evictLoop c sample nowMs windowMs fuel sampled wrapped victim l := by
  induction fuel generalizing sampled wrapped victim l with
  | zero =>
    rw [Ledger.evictLoop, Ledger.evictLoop, if_neg (CursorMap.not_of_turnsLeft_eq_zero h)]
  | succ fuel ih =>
    rw [Ledger.evictLoop]
    conv_rhs => rw [Ledger.evictLoop]
    by_cases hgo : sampled < sample ∧ wrapped < 2
    · rw [if_pos hgo, if_pos hgo]
      simp only
      split
      · refine ih ?_
        rw [evictCursor_closePass]
        exact CursorMap.turnsLeft_end h hgo
      · next cursor _ =>
        split
        · rfl
        · refine ih ?_
          rw [evictCursor_noteExpiry]
          exact CursorMap.turnsLeft_step h hgo cursor
    · rw [if_neg hgo, if_neg hgo]

/-! ## What a walk leaves -/

theorem map_opened (l : Ledger) : l.opened.map = l.map := by
  rw [Ledger.opened]
  split <;> rfl

theorem evictCursor_opened (l : Ledger) : l.opened.evictCursor = some (l.evictCursor.getD 0) := by
  rw [Ledger.opened]
  cases hcursor : l.evictCursor with
  | none => rfl
  | some cursor => simp [hcursor]

/-- What every turn of a walk keeps. -/
structure TurnKeeps (nowMs windowMs : ℚ) (P : Ledger → Prop) : Prop where
  opened : ∀ {l : Ledger}, P l → P l.opened
  closes : ∀ {l : Ledger} {cursor}, P l → l.evictCursor = some cursor → l.map.next cursor = none →
    P l.closePass
  drops : ∀ {l : Ledger} {cursor key w cursor'}, P l → l.evictCursor = some cursor →
    l.map.next cursor = some (key, w, cursor') → w.lapsed nowMs windowMs = true →
      P { l with evictCursor := some cursor', map := l.map.delete key }
  leaves : ∀ {l : Ledger} {cursor key w cursor'}, P l → l.evictCursor = some cursor →
    l.map.next cursor = some (key, w, cursor') →
      P ({ l with evictCursor := some cursor' }.noteExpiry (Binary64.nearest (w.start + windowMs)))

section TurnKeeps

variable {P : Ledger → Prop} (h : TurnKeeps nowMs windowMs P) (hl : P l)
include h hl

theorem TurnKeeps.reclaimLoop (fuel steps wrapped : ℕ) :
    P (Ledger.reclaimLoop nowMs windowMs fuel steps wrapped l) := by
  induction fuel generalizing steps wrapped l with
  | zero => exact hl
  | succ fuel ih =>
    have hopened := h.opened hl
    have hcursor := evictCursor_opened l
    rw [Ledger.reclaimLoop]
    split
    · simp only [hcursor, Option.getD_some]
      split
      · next hdone => exact ih (h.closes hopened hcursor hdone) _ _
      · next key w cursor hnext =>
        refine ih ?_ _ _
        split
        · next hlapsed => exact h.drops hopened hcursor hnext hlapsed
        · exact h.leaves hopened hcursor hnext
    · exact hl

theorem TurnKeeps.reclaimExpired : P (l.reclaimExpired nowMs windowMs) := by
  rw [Ledger.reclaimExpired]
  split_ifs
  · exact hl
  · exact h.reclaimLoop hl _ _ _

variable (hvictim : ∀ {l : Ledger} victim, P l → P (l.dropVictim victim))
include hvictim

theorem TurnKeeps.evictLoop (sample fuel sampled wrapped : ℕ) (victim : Option (JsString × ℚ)) :
    P (Ledger.evictLoop c sample nowMs windowMs fuel sampled wrapped victim l) := by
  induction fuel generalizing sampled wrapped victim l with
  | zero => exact hvictim victim hl
  | succ fuel ih =>
    have hopened := h.opened hl
    have hcursor := evictCursor_opened l
    rw [Ledger.evictLoop]
    split
    · simp only [hcursor, Option.getD_some]
      split
      · next hdone => exact ih (h.closes hopened hcursor hdone) _ _ _
      · next key w cursor hnext =>
        split
        · next hlapsed => exact h.drops hopened hcursor hnext hlapsed
        · exact ih (h.leaves hopened hcursor hnext) _ _ _
    · exact hvictim victim hl

end TurnKeeps

theorem TurnKeeps.makeRoom {P : Ledger → Prop} (h : TurnKeeps nowMs o.windowMs P) (hl : P l)
    (hvictim : ∀ {l : Ledger} victim, P l → P (l.dropVictim victim)) :
    P (l.makeRoom o c nowMs) := by
  rw [Ledger.makeRoom]
  split_ifs
  · simp only
    split_ifs
    · exact h.evictLoop (h.reclaimExpired hl) hvictim _ _ _ _ _
    · exact h.reclaimExpired hl
  · exact hl

theorem drops_dropVictim (l : Ledger) (victim : Option (JsString × ℚ)) :
    Drops l (l.dropVictim victim) := by
  cases victim with
  | none => exact Drops.refl l
  | some victim => exact drops_delete l victim.1

theorem turnKeeps_drops (l : Ledger) : TurnKeeps nowMs windowMs (Drops l) where
  opened h := h.trans (drops_of_map_eq (map_opened _))
  closes h _ _ := h.trans (drops_of_map_eq (map_closePass _))
  drops h _ _ _ := h.trans (drops_delete _ _)
  leaves h _ _ := h.trans (drops_of_map_eq (map_noteExpiry _ _))

theorem drops_makeRoom (l : Ledger) : Drops l (l.makeRoom o c nowMs) :=
  (turnKeeps_drops l).makeRoom (Drops.refl l) fun victim h => h.trans (drops_dropVictim _ victim)

/-! ## Reading a window -/

/-- A reading that starts no window finds the window of the key. -/
theorem windowFor_of_not_starts (h : l.starts o key nowMs = false) :
    ∃ w, l.map.get key = some w ∧ l.windowFor o c key nowMs = (w, l) := by
  rw [Ledger.starts] at h
  rw [Ledger.windowFor]
  cases hget : l.map.get key with
  | none => simp [hget] at h
  | some w =>
    rw [hget, Option.all_some] at h
    exact ⟨w, rfl, by simp [h]⟩

/-- A reading that starts a window starts it empty, and leaves the other keys or drops them. -/
theorem windowFor_of_starts (h : l.starts o key nowMs = true) :
    ∃ w l', l.windowFor o c key nowMs = (w, { l' with map := l'.map.set key w }) ∧ Drops l l' ∧
      w.m = 0 ∧ w.d = 0 ∧ w.b = 0 := by
  rw [Ledger.starts] at h
  rw [Ledger.windowFor]
  cases hget : l.map.get key with
  | none => exact ⟨_, _, rfl, drops_makeRoom l, rfl, rfl, rfl⟩
  | some w =>
    rw [hget, Option.all_some] at h
    simp only [h, if_true]
    exact ⟨_, l, rfl, Drops.refl l, rfl, rfl, rfl⟩

/-! ## The charges of a window -/

/-- What a window has counted is what was charged to it. -/
structure Counts (w : Window) (window : List Charge) : Prop where
  messages : w.m = (window.map Charge.messages).sum
  deliveries : w.d = (window.map Charge.deliveries).sum
  bytes : w.b = (window.map Charge.bytes).sum

/-- The windows of a scope are within its ceilings, and those of its ledger are the newest. -/
structure Accounted (c : Ceilings) (l : Ledger) (log : WindowLog) : Prop where
  within : log.Within c
  counts : ∀ key w, l.map.get key = some w →
    ∃ window rest, log key = window :: rest ∧ Counts w window

/-- The window of a key has room for a publish. -/
def Admits (c : Ceilings) (l : Ledger) (key : JsString) (messages deliveries : ℕ) : Prop :=
  ∃ w, l.map.get key = some w ∧ overCeiling w c messages deliveries = none

variable {log : WindowLog} {messages deliveries bytes : ℕ}

theorem overCeiling_eq_none : overCeiling w c messages deliveries = none ↔
    (0 < c.messages → w.m + messages ≤ c.messages) ∧
      (0 < c.deliveries → w.d + deliveries ≤ c.deliveries) ∧ (0 < c.bytes → w.b < c.bytes) := by
  rw [overCeiling]
  split_ifs with hm hd hb
  · simp only [false_iff]
    omega
  · simp only [false_iff]
    omega
  · simp only [false_iff]
    omega
  · simp only [true_iff]
    omega

theorem within_nil (c : Ceilings) : Within c [] :=
  ⟨fun _ => Nat.zero_le _, fun _ => Nat.zero_le _, fun h => h⟩

/-- A window stays within the ceilings when a publish it has room for is charged. -/
theorem within_cons {window : List Charge} (hcounts : Counts w window)
    (hroom : overCeiling w c messages deliveries = none) :
    Within c (⟨messages, deliveries, bytes⟩ :: window) := by
  obtain ⟨hm, hd, hb⟩ := overCeiling_eq_none.mp hroom
  refine ⟨fun h => ?_, fun h => ?_, fun h => ?_⟩
  · rw [map_cons, sum_cons, ← hcounts.messages, add_comm]
    exact hm h
  · rw [map_cons, sum_cons, ← hcounts.deliveries, add_comm]
    exact hd h
  · rw [tail_cons, ← hcounts.bytes]
    exact hb h

theorem overCeiling_of_empty {w' : Window} (h : overCeiling w c messages deliveries = none)
    (hm : w'.m = 0) (hd : w'.d = 0) (hb : w'.b = 0) :
    overCeiling w' c messages deliveries = none := by
  rw [overCeiling_eq_none] at h ⊢
  omega

/-! ## One key -/

theorem WindowLog.read_of_starts (h : l.starts o key nowMs = true) :
    log.read o l key nowMs = update log key ([] :: log key) := if_pos h

theorem WindowLog.read_of_not_starts (h : l.starts o key nowMs = false) :
    log.read o l key nowMs = log := if_neg (by simp [h])

theorem Accounted.read (h : Accounted c l log) (key : JsString) (nowMs : ℚ) :
    Accounted c (l.windowFor o c key nowMs).2 (log.read o l key nowMs) := by
  cases hstarts : l.starts o key nowMs with
  | false =>
    obtain ⟨w, -, hread⟩ := windowFor_of_not_starts (c := c) hstarts
    rw [hread, WindowLog.read_of_not_starts hstarts]
    exact h
  | true =>
    obtain ⟨w, l', hread, hdrops, hm, hd, hb⟩ := windowFor_of_starts (c := c) hstarts
    rw [hread, WindowLog.read_of_starts hstarts]
    refine ⟨fun other window hmem => ?_, fun other w' hget => ?_⟩
    · by_cases hkey : other = key
      · subst hkey
        rw [update_self, mem_cons] at hmem
        rcases hmem with rfl | hmem
        · exact within_nil c
        · exact h.within other window hmem
      · rw [update_of_ne hkey] at hmem
        exact h.within other window hmem
    · simp only [CursorMap.get_set] at hget
      by_cases hkey : key = other
      · subst hkey
        rw [if_pos rfl] at hget
        cases hget
        rw [update_self]
        exact ⟨[], log key, rfl, hm, hd, hb⟩
      · rw [if_neg hkey] at hget
        rw [update_of_ne (Ne.symm hkey)]
        exact h.counts other w' (hdrops other w' hget)

theorem get_windowFor (l : Ledger) (key : JsString) (nowMs : ℚ) :
    (l.windowFor o c key nowMs).2.map.get key = some (l.windowFor o c key nowMs).1 := by
  cases hstarts : l.starts o key nowMs with
  | false =>
    obtain ⟨w, hget, hread⟩ := windowFor_of_not_starts (c := c) hstarts
    rw [hread]
    exact hget
  | true =>
    obtain ⟨w, l', hread, -⟩ := windowFor_of_starts (c := c) hstarts
    rw [hread]
    exact CursorMap.get_set_self ..

/-- A publish that was admitted has room in the window it is charged to, rotated or not. -/
theorem Admits.overCeiling_windowFor (h : Admits c l key messages deliveries) (nowMs : ℚ) :
    overCeiling (l.windowFor o c key nowMs).1 c messages deliveries = none := by
  obtain ⟨w, hget, hroom⟩ := h
  cases hstarts : l.starts o key nowMs with
  | false =>
    obtain ⟨w', hget', hread⟩ := windowFor_of_not_starts (c := c) hstarts
    rw [hget, Option.some.injEq] at hget'
    rw [hread, ← hget']
    exact hroom
  | true =>
    obtain ⟨w', l', hread, -, hm, hd, hb⟩ := windowFor_of_starts (c := c) hstarts
    rw [hread]
    exact overCeiling_of_empty hroom hm hd hb

/-- A publish that was admitted is charged within the ceilings. -/
theorem Accounted.charge (h : Accounted c l log) (hadmits : Admits c l key messages deliveries)
    (bytes : ℕ) (nowMs : ℚ) :
    Accounted c (l.charge o c key messages deliveries bytes nowMs)
      ((log.read o l key nowMs).charge key ⟨messages, deliveries, bytes⟩) := by
  have hread := h.read (o := o) key nowMs
  have hget := get_windowFor (o := o) (c := c) l key nowMs
  have hroom := hadmits.overCeiling_windowFor (o := o) nowMs
  rw [Ledger.charge]
  generalize hfound : l.windowFor o c key nowMs = found at hread hget hroom ⊢
  obtain ⟨w, l'⟩ := found
  obtain ⟨window, rest, hlog, hcounts⟩ := hread.counts key w hget
  refine ⟨fun other window' hmem => ?_, fun other w' hget' => ?_⟩
  · rw [WindowLog.charge] at hmem
    by_cases hkey : other = key
    · subst hkey
      rw [update_self, hlog, modifyHead_cons, mem_cons] at hmem
      rcases hmem with rfl | hmem
      · exact within_cons hcounts hroom
      · exact hread.within other window' (by rw [hlog]; exact .tail _ hmem)
    · rw [update_of_ne hkey] at hmem
      exact hread.within other window' hmem
  · simp only [CursorMap.get_set] at hget'
    rw [WindowLog.charge]
    by_cases hkey : key = other
    · subst hkey
      rw [if_pos rfl, Option.some.injEq] at hget'
      rw [update_self, hlog, ← hget']
      refine ⟨_, rest, rfl, ?_, ?_, ?_⟩
      · rw [map_cons, sum_cons, ← hcounts.messages]
        exact add_comm ..
      · rw [map_cons, sum_cons, ← hcounts.deliveries]
        exact add_comm ..
      · rw [map_cons, sum_cons, ← hcounts.bytes]
        exact add_comm ..
    · rw [if_neg hkey] at hget'
      rw [update_of_ne (Ne.symm hkey)]
      exact hread.counts other w' hget'

/-! ## Runs -/

variable {s : History} {a : Account} {topic tenantId : Option JsString} {topicMs tenantMs : ℚ}

/-- The optional key of an enabled scope has room for a publish. -/
def AdmitsKey (c : Ceilings) (l : Ledger) (key : Option JsString) (messages deliveries : ℕ) : Prop :=
  ∀ k, key = some k → c.enabled = true → Admits c l k messages deliveries

/-- Both scopes account for their windows, and the publish admitted last has room in them. -/
structure Sound (o : EgressOptions) (s : History) : Prop where
  topics : Accounted o.topic s.account.topicWindows s.topicLog
  tenants : Accounted o.tenant s.account.tenantWindows s.tenantLog
  admitted : ∀ p, s.admitted = some p →
    AdmitsKey o.topic s.account.topicWindows p.topic p.messages p.deliveries ∧
      AdmitsKey o.tenant s.account.tenantWindows p.tenantId p.messages p.deliveries

theorem accounted_create (c : Ceilings) : Accounted c .create fun _ => [] :=
  ⟨fun _ _ hmem => absurd hmem not_mem_nil, fun _ _ hget => nomatch hget⟩

/-- What asking a scope leaves, and what it means that it admits. -/
theorem Accounted.admitKey (h : Accounted c l log) (key : Option JsString)
    (messages deliveries : ℕ) (nowMs : ℚ) :
    Accounted c (l.admitKey o c key messages deliveries nowMs).2 (readLog o c l log key nowMs) ∧
      ((l.admitKey o c key messages deliveries nowMs).1 = none →
        AdmitsKey c (l.admitKey o c key messages deliveries nowMs).2 key messages deliveries) := by
  cases key with
  | none => exact ⟨h, fun _ _ hkey => nomatch hkey⟩
  | some key =>
    simp only [Ledger.admitKey, readLog]
    cases henabled : c.enabled with
    | false => exact ⟨h, fun _ _ _ henabled' => by simp [henabled] at henabled'⟩
    | true =>
      refine ⟨h.read key nowMs, fun hroom k hkey _ => ?_⟩
      cases hkey
      exact ⟨_, get_windowFor _ _ _, hroom⟩

theorem Accounted.chargeKey (h : Accounted c l log) {key : Option JsString}
    (hadmits : AdmitsKey c l key messages deliveries) (bytes : ℕ) (nowMs : ℚ) :
    Accounted c (l.chargeKey o c key messages deliveries bytes nowMs)
      (chargeLog o c l log key ⟨messages, deliveries, bytes⟩ nowMs) := by
  cases key with
  | none => exact h
  | some k =>
    simp only [Ledger.chargeKey, chargeLog]
    cases henabled : c.enabled with
    | false => exact h
    | true => exact h.charge (hadmits k rfl henabled) bytes nowMs

theorem Sound.admitPublish (h : Sound o s) (topic tenantId : Option JsString)
    (messages deliveries : ℕ) (topicMs tenantMs : ℚ) :
    let found := s.account.admitPublish o topic tenantId messages deliveries topicMs tenantMs
    Accounted o.topic found.2.topicWindows
        (readLog o o.topic s.account.topicWindows s.topicLog topic topicMs) ∧
      Accounted o.tenant found.2.tenantWindows
        (match (s.account.admitTopic o topic messages deliveries topicMs).1 with
          | some _ => s.tenantLog
          | none => readLog o o.tenant s.account.tenantWindows s.tenantLog tenantId tenantMs) ∧
      (found.1 = none → AdmitsKey o.topic found.2.topicWindows topic messages deliveries ∧
        AdmitsKey o.tenant found.2.tenantWindows tenantId messages deliveries) := by
  obtain ⟨htopics, htopic⟩ := h.topics.admitKey (o := o) topic messages deliveries topicMs
  obtain ⟨htenants, htenant⟩ := h.tenants.admitKey (o := o) tenantId messages deliveries tenantMs
  simp only [Account.admitPublish, Account.admitTopic, Account.admitTenant]
  generalize s.account.topicWindows.admitKey o o.topic topic messages deliveries topicMs = found
    at htopics htopic ⊢
  obtain ⟨crossed, l⟩ := found
  cases crossed with
  | some dim => exact ⟨htopics, h.tenants, fun hnone => nomatch hnone⟩
  | none => exact ⟨htopics, htenants, fun hnone => ⟨htopic rfl, htenant hnone⟩⟩

theorem Sound.call (h : Sound o s) {e : EgressEvent} {s' : History} (hcall : s.call o e = some s') :
    Sound o s' := by
  cases e with
  | admitPublish topic tenantId messages deliveries topicMs tenantMs =>
    simp only [History.call] at hcall
    split at hcall
    · cases hcall
      obtain ⟨htopics, htenants, hadmits⟩ :=
        h.admitPublish topic tenantId messages deliveries topicMs tenantMs
      refine ⟨htopics, htenants, fun p hp => ?_⟩
      split at hp
      · next hnone =>
        cases hp
        exact hadmits (Option.isNone_iff_eq_none.mp hnone)
      · cases hp
    · cases hcall
  | charge bytes nowMs =>
    simp only [History.call] at hcall
    split at hcall
    · cases hcall
    · next p hp =>
      obtain ⟨-, ⟨⟩⟩ := Option.ite_none_right_eq_some.mp hcall
      obtain ⟨htopic, htenant⟩ := h.admitted p hp
      exact ⟨h.topics.chargeKey htopic bytes nowMs, h.tenants.chargeKey htenant bytes nowMs,
        fun _ hnone => nomatch hnone⟩

/-- In every run, every window of every topic and of every tenant is within its ceilings, also
where the window rotates between the admission and the charge. -/
theorem within_ceilings (o : EgressOptions) (clock : ℚ) {es : List EgressEvent} {s : History}
    (h : (egressMachine o clock).Reaches es s) :
    s.topicLog.Within o.topic ∧ s.tenantLog.Within o.tenant := by
  have hsound : Sound o s := by
    refine h.invariant (I := Sound o) ?_ fun s e s' hs _ hstep => hs.call hstep
    exact ⟨accounted_create o.topic, accounted_create o.tenant, fun _ hnone => nomatch hnone⟩
  exact ⟨hsound.topics.within, hsound.tenants.within⟩

/-- Ten messages, ten deliveries and a hundred bytes for a topic, twenty messages for a tenant. -/
def smallEgress : EgressOptions := ⟨1000, 1024, 8, ⟨10, 10, 100⟩, ⟨20, 0, 0⟩⟩

/-- Two publishes, the second charged after its window rotated. -/
def rotatedRun : List EgressEvent :=
  [.admitPublish (some (JsString.lit "t")) (some (JsString.lit "a")) 4 4 0 1, .charge 150 2,
    .admitPublish (some (JsString.lit "u")) (some (JsString.lit "a")) 6 1 900 900, .charge 10 2000]

theorem within_ceilings_rotatedRun : ∃ s, (egressMachine smallEgress 0).Reaches rotatedRun s ∧
    (s.topicLog.Within smallEgress.topic ∧ s.tenantLog.Within smallEgress.tenant) ∧
    (s.tenantLog (JsString.lit "a")).length = 2 :=
  Machine.exists_and_of_exec (by decide +kernel) fun _ hs _ => within_ceilings _ _ hs

end AdapterWs.Egress
