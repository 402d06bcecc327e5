import AdapterWs.Egress.Horizon

/-!
# What a refusal costs

A publish is decided by reading the windows of its keys, and reading a key that is new makes room
for it. Where a ledger is full, its sweep comes to no lapsed window and neither does its eviction,
the room is that of a key whose window has not lapsed, also where the publish is then refused.
-/

namespace AdapterWs.Egress

open Binary64 Ledger CursorMap

variable {o : EgressOptions} {c : Ceilings} {l l' : Ledger} {key other : JsString} {w : Window}
  {nowMs windowMs start : ℚ} {entry : JsString × Window}

/-! ## Sweeps and samples -/

/-- The test at which an eviction stops. -/
def lapsedAt (nowMs windowMs : ℚ) : JsString → Window → Bool := fun _ w => w.lapsed nowMs windowMs

section Walk

variable {fuel steps wrapped sampled sample : ℕ}

/-- A sweep that comes to windows that have not lapsed drops none, and stands where the walk
stands. One that comes to a window that has lapsed makes room. -/
theorem reclaimLoop_walk (fuel steps wrapped : ℕ) (l : Ledger) :
    let walked := l.map.walk (lapsedAt nowMs windowMs) sweepSteps fuel steps wrapped l.evictCursor
    let swept := reclaimLoop nowMs windowMs fuel steps wrapped l
    (∀ entry ∈ walked.1, entry.2.lapsed nowMs windowMs = false) ∧ swept.map = l.map ∧
        swept.evictCursor = walked.2 ∨
      (∃ entry ∈ walked.1, entry.2.lapsed nowMs windowMs = true) ∧
        swept.map.size < l.map.size := by
  induction fuel generalizing steps wrapped l with
  | zero => exact .inl ⟨List.forall_mem_nil _, rfl, rfl⟩
  | succ fuel ih =>
    have hmap := map_opened l
    by_cases hgo : steps < sweepSteps ∧ wrapped < 2
    · cases hnext : l.map.next (l.evictCursor.getD 0) with
      | none =>
        have hrest := ih steps (if l.evictCursor.isNone then wrapped + 1 else wrapped)
          l.opened.closePass
        rw [walk_of_end hgo hnext, reclaimLoop_of_end hgo hnext]
        rwa [map_closePass, hmap, evictCursor_closePass] at hrest
      | some found =>
        obtain ⟨key, w, cursor⟩ := found
        cases hw : w.lapsed nowMs windowMs with
        | true =>
          rw [reclaimLoop_of_lapsed hgo hnext hw]
          have hsize := size_delete (get_of_next hnext)
          refine .inr ⟨⟨(key, w), ?_, hw⟩, (size_reclaimLoop_le _ _ _ _).trans_lt ?_⟩
          · rw [walk_of_next hgo hnext]
            exact .head _
          · rw [hmap]
            exact hsize ▸ Nat.lt_succ_self _
        | false =>
          have hrest := ih (steps + 1) (if l.evictCursor.isNone then wrapped + 1 else wrapped)
            ({ l.opened with evictCursor := some cursor }.noteExpiry
              (nearest (w.start + windowMs)))
          rw [map_noteExpiry, evictCursor_noteExpiry, hmap] at hrest
          rw [walk_of_pass (lapsedAt nowMs windowMs) fuel hgo hnext hw,
            reclaimLoop_of_live hgo hnext hw]
          rcases hrest with ⟨hlive, hkept⟩ | ⟨⟨entry, hentry, hlapsed⟩, hroom⟩
          · exact .inl ⟨List.forall_mem_cons.mpr ⟨hw, hlive⟩, hkept⟩
          · exact .inr ⟨⟨entry, .tail _ hentry, hlapsed⟩, hroom⟩
    · rw [reclaimLoop_of_stop hgo, walk_of_stop hgo]
      exact .inl ⟨List.forall_mem_nil _, rfl, rfl⟩

variable {victim : Option (JsString × ℚ)} {cursor : ℕ}

theorem evictLoop_of_stop (hgo : ¬(sampled < sample ∧ wrapped < 2)) :
    evictLoop c sample nowMs windowMs fuel sampled wrapped victim l =
      l.dropVictim victim := by
  cases fuel with
  | zero => rfl
  | succ fuel => rw [evictLoop, if_neg hgo]

theorem evictLoop_of_end (hgo : sampled < sample ∧ wrapped < 2)
    (hnext : l.map.next (l.evictCursor.getD 0) = none) :
    evictLoop c sample nowMs windowMs (fuel + 1) sampled wrapped victim l =
      evictLoop c sample nowMs windowMs fuel sampled
        (if l.evictCursor.isNone then wrapped + 1 else wrapped) victim l.opened.closePass := by
  rw [evictLoop, if_pos hgo]
  simp [evictCursor_opened, map_opened, hnext]

theorem map_evictLoop_of_lapsed (hgo : sampled < sample ∧ wrapped < 2)
    (hnext : l.map.next (l.evictCursor.getD 0) = some (key, w, cursor))
    (hlapsed : w.lapsed nowMs windowMs = true) :
    (evictLoop c sample nowMs windowMs (fuel + 1) sampled wrapped victim l).map =
      l.map.delete key := by
  rw [evictLoop, if_pos hgo]
  simp [evictCursor_opened, map_opened, hnext, hlapsed]

/-- A window that has not lapsed may become the victim. -/
theorem evictLoop_of_live (c : Ceilings) (fuel : ℕ) (victim : Option (JsString × ℚ))
    (hgo : sampled < sample ∧ wrapped < 2)
    (hnext : l.map.next (l.evictCursor.getD 0) = some (key, w, cursor))
    (hlive : w.lapsed nowMs windowMs = false) : ∃ victim',
      (victim' = victim ∨ ∃ score, victim' = some (key, score)) ∧
      evictLoop c sample nowMs windowMs (fuel + 1) sampled wrapped victim l =
        evictLoop c sample nowMs windowMs fuel (sampled + 1)
          (if l.evictCursor.isNone then wrapped + 1 else wrapped) victim'
          ({ l.opened with evictCursor := some cursor }.noteExpiry
            (nearest (w.start + windowMs))) := by
  refine ⟨if victim.all fun v => decide (nearest (spent c w + w.pu) < v.2) then
    some (key, nearest (spent c w + w.pu)) else victim, ?_, ?_⟩
  · split
    · exact .inr ⟨_, rfl⟩
    · exact .inl rfl
  · rw [evictLoop, if_pos hgo]
    simp [evictCursor_opened, map_opened, hnext, hlive]

/-- The victim has a window that has not lapsed. -/
def LiveVictim (nowMs windowMs : ℚ) (l : Ledger) (victim : Option (JsString × ℚ)) : Prop :=
  ∀ v, victim = some v → ∃ w, l.map.get v.1 = some w ∧ w.lapsed nowMs windowMs = false

/-- An eviction whose sample holds a lapsed window drops that, and one whose sample holds none
drops one that has not lapsed. -/
theorem evictLoop_walk (c : Ceilings) (fuel sampled wrapped : ℕ) (victim : Option (JsString × ℚ))
    (l : Ledger) (hvictim : LiveVictim nowMs windowMs l victim) :
    let walked := l.map.walk (lapsedAt nowMs windowMs) sample fuel sampled wrapped l.evictCursor
    let evicted := evictLoop c sample nowMs windowMs fuel sampled wrapped victim l
    ((∃ entry ∈ walked.1, entry.2.lapsed nowMs windowMs = true) ∧ ∃ key w,
      evicted.map = l.map.delete key ∧ l.map.get key = some w ∧
        w.lapsed nowMs windowMs = true) ∨
    (∀ entry ∈ walked.1, entry.2.lapsed nowMs windowMs = false) ∧ ∃ victim',
      evicted.map = (l.dropVictim victim').map ∧ LiveVictim nowMs windowMs l victim' := by
  induction fuel generalizing sampled wrapped victim l with
  | zero => exact .inr ⟨List.forall_mem_nil _, victim, rfl, hvictim⟩
  | succ fuel ih =>
    have hmap := map_opened l
    have hdrop : ∀ {l' : Ledger}, l'.map = l.map → ∀ victim',
        (l'.dropVictim victim').map = (l.dropVictim victim').map := by
      intro l' heq victim'
      cases victim' with
      | none => exact heq
      | some v => exact congrArg (delete · v.1) heq
    by_cases hgo : sampled < sample ∧ wrapped < 2
    · cases hnext : l.map.next (l.evictCursor.getD 0) with
      | none =>
        have heq : l.opened.closePass.map = l.map := by rw [map_closePass, hmap]
        have hrest := ih sampled (if l.evictCursor.isNone then wrapped + 1 else wrapped) victim
          l.opened.closePass (by rwa [LiveVictim, heq])
        rw [walk_of_end hgo hnext, evictLoop_of_end hgo hnext]
        simpa only [LiveVictim, heq, hdrop heq, evictCursor_closePass] using hrest
      | some found =>
        obtain ⟨key, w, cursor⟩ := found
        cases hw : w.lapsed nowMs windowMs with
        | true =>
          refine .inl ⟨⟨(key, w), ?_, hw⟩, key, w, map_evictLoop_of_lapsed hgo hnext hw,
            get_of_next hnext, hw⟩
          rw [walk_of_next hgo hnext]
          exact .head _
        | false =>
          obtain ⟨chosen, hchosen, hloop⟩ := evictLoop_of_live c fuel victim hgo hnext hw
          have heq : ({ l.opened with evictCursor := some cursor }.noteExpiry
              (nearest (w.start + windowMs))).map = l.map := by rw [map_noteExpiry, hmap]
          have hlive : LiveVictim nowMs windowMs l chosen := by
            rcases hchosen with rfl | ⟨score, rfl⟩
            · exact hvictim
            · intro v hv
              cases hv
              exact ⟨w, get_of_next hnext, hw⟩
          have hrest := ih (sampled + 1) (if l.evictCursor.isNone then wrapped + 1 else wrapped)
            chosen ({ l.opened with evictCursor := some cursor }.noteExpiry
              (nearest (w.start + windowMs))) (by rwa [LiveVictim, heq])
          rw [walk_of_pass (lapsedAt nowMs windowMs) fuel hgo hnext hw, hloop]
          simp only [LiveVictim, heq, hdrop heq, evictCursor_noteExpiry] at hrest
          rcases hrest with ⟨⟨entry, hentry, hlapsed⟩, hgone⟩ | ⟨hlive, hkept⟩
          · exact .inl ⟨⟨entry, .tail _ hentry, hlapsed⟩, hgone⟩
          · exact .inr ⟨List.forall_mem_cons.mpr ⟨hw, hlive⟩, hkept⟩
    · rw [evictLoop_of_stop hgo, walk_of_stop hgo]
      exact .inr ⟨List.forall_mem_nil _, victim, rfl, hvictim⟩

end Walk

/-! ## One reading -/

/-- What the sweep before a new key comes to, up to a lapsed window, and where it stops. -/
def Ledger.sweepWalk (o : EgressOptions) (l : Ledger) (nowMs : ℚ) :
    List (JsString × Window) × Option ℕ :=
  if nowMs < l.sweepUntil then ([], l.evictCursor)
  else l.map.walk (lapsedAt nowMs o.windowMs) sweepSteps (sweepSteps + 3) 0 0 l.evictCursor

/-- The sample of the eviction after a sweep that freed nothing, up to a lapsed window. -/
def Ledger.sampleWalk (o : EgressOptions) (l : Ledger) (nowMs : ℚ) : List (JsString × Window) :=
  (l.map.walk (lapsedAt nowMs o.windowMs) o.evictionSample (o.evictionSample + 3) 0 0
    (l.sweepWalk o nowMs).2).1

/-- A key that is new, in a full ledger whose sweep and whose eviction come to no window that has
lapsed. -/
structure Ledger.Squeezed (o : EgressOptions) (l : Ledger) (key : JsString) (nowMs : ℚ) : Prop where
  absent : l.map.get key = none
  full : o.maxKeys ≤ l.map.size
  swept : ∀ entry ∈ (l.sweepWalk o nowMs).1, entry.2.lapsed nowMs o.windowMs = false
  sampled : ∀ entry ∈ l.sampleWalk o nowMs, entry.2.lapsed nowMs o.windowMs = false

/-- The windows of other keys that have not lapsed are as they were. -/
def Spares (o : EgressOptions) (l l' : Ledger) (key : Option JsString) (nowMs : ℚ) : Prop :=
  ∀ other w, key ≠ some other → l.map.get other = some w → w.lapsed nowMs o.windowMs = false →
    l'.map.get other = some w

theorem Spares.refl (l : Ledger) (key : Option JsString) (nowMs : ℚ) : Spares o l l key nowMs :=
  fun _ _ _ hget _ => hget

theorem reclaimExpired_walk (o : EgressOptions) (l : Ledger) (nowMs : ℚ) :
    (∀ entry ∈ (l.sweepWalk o nowMs).1, entry.2.lapsed nowMs o.windowMs = false) ∧
        (l.reclaimExpired nowMs o.windowMs).map = l.map ∧
        (l.reclaimExpired nowMs o.windowMs).evictCursor = (l.sweepWalk o nowMs).2 ∨
      (∃ entry ∈ (l.sweepWalk o nowMs).1, entry.2.lapsed nowMs o.windowMs = true) ∧
        (l.reclaimExpired nowMs o.windowMs).map.size < l.map.size := by
  rw [reclaimExpired, sweepWalk]
  split_ifs
  · exact .inl ⟨List.forall_mem_nil _, rfl, rfl⟩
  · exact reclaimLoop_walk _ _ _ l

theorem evictOne_walk (o : EgressOptions) (c : Ceilings) (l : Ledger) (nowMs : ℚ) :
    let walked := l.map.walk (lapsedAt nowMs o.windowMs) o.evictionSample (o.evictionSample + 3)
      0 0 l.evictCursor
    let evicted := l.evictOne c o.evictionSample nowMs o.windowMs
    ((∃ entry ∈ walked.1, entry.2.lapsed nowMs o.windowMs = true) ∧ ∃ key w,
      evicted.map = l.map.delete key ∧ l.map.get key = some w ∧
        w.lapsed nowMs o.windowMs = true) ∨
    (∀ entry ∈ walked.1, entry.2.lapsed nowMs o.windowMs = false) ∧ ∃ victim',
      evicted.map = (l.dropVictim victim').map ∧ LiveVictim nowMs o.windowMs l victim' :=
  evictLoop_walk c _ 0 0 none l fun _ hnone => by cases hnone

theorem floor_le : o.maxKeys - (o.maxKeys >>> slackShift) ≤ o.maxKeys := Nat.sub_le ..

/-- The room of a key is that of a window that has not lapsed. -/
theorem exists_lost_of_squeezed (ho : o.Normalized) (h : l.Squeezed o key nowMs) : ∃ other w,
    key ≠ other ∧ l.map.get other = some w ∧ w.lapsed nowMs o.windowMs = false ∧
      (l.windowFor o c key nowMs).2.map.get other = none := by
  obtain ⟨-, hmap, hcursor⟩ := (reclaimExpired_walk o l nowMs).resolve_right (by
    rintro ⟨⟨entry, hentry, hlapsed⟩, -⟩
    cases (h.swept entry hentry).symm.trans hlapsed)
  have hfull : o.maxKeys ≤ (l.reclaimExpired nowMs o.windowMs).map.size := hmap ▸ h.full
  have hmake : l.makeRoom o c nowMs =
      (l.reclaimExpired nowMs o.windowMs).evictOne c o.evictionSample nowMs o.windowMs := by
    rw [makeRoom, if_pos (floor_le.trans h.full)]
    simp only
    rw [if_pos hfull]
  have hsize : (l.makeRoom o c nowMs).map.size + 1 =
      (l.reclaimExpired nowMs o.windowMs).map.size := by
    have hkeys := ho.keys
    rw [hmake]
    exact size_evictOne ho.sample (by omega)
  have hsampled := h.sampled
  rw [sampleWalk, ← hcursor, ← hmap] at hsampled
  obtain ⟨-, victim, heq, hlive⟩ :=
    (evictOne_walk o c (l.reclaimExpired nowMs o.windowMs) nowMs).resolve_left (by
      rintro ⟨⟨entry, hentry, hlapsed⟩, -⟩
      cases (hsampled entry hentry).symm.trans hlapsed)
  rw [hmake, heq] at hsize
  cases victim with
  | none => exact absurd hsize (Nat.succ_ne_self _)
  | some victim =>
    obtain ⟨w, hget, hw⟩ := hlive victim rfl
    rw [hmap] at hget
    have hne : key ≠ victim.1 := by
      rintro rfl
      cases h.absent.symm.trans hget
    refine ⟨victim.1, w, hne, hget, hw, ?_⟩
    simp [windowFor, h.absent, get_set, if_neg hne, hmake, heq, dropVictim, get_delete]

/-- Any other room is free, or that of a window that has lapsed. -/
theorem spares_makeRoom (hsize : l.map.size ≤ o.maxKeys) (habsent : l.map.get key = none)
    (h : ¬l.Squeezed o key nowMs) (hget : l.map.get other = some w)
    (hlive : w.lapsed nowMs o.windowMs = false) :
    (l.makeRoom o c nowMs).map.get other = some w := by
  have hspared := get_reclaimExpired_of_live hlive hget
  rw [makeRoom]
  split
  · simp only
    split
    · next hfull =>
      have hfull' : o.maxKeys ≤ l.map.size := hfull.trans (size_reclaimExpired_le l)
      obtain ⟨hswept, hmap, hcursor⟩ := (reclaimExpired_walk o l nowMs).resolve_right
        fun hroom => absurd hroom.2 (by omega)
      obtain ⟨-, key', w', heq, hget', hlapsed'⟩ :=
        (evictOne_walk o c (l.reclaimExpired nowMs o.windowMs) nowMs).resolve_right
          fun hsampled => h ⟨habsent, hfull', hswept, by
            rw [sampleWalk, ← hcursor, ← hmap]
            exact hsampled.1⟩
      have hne : key' ≠ other := by
        rintro rfl
        rw [hspared] at hget'
        cases hget'
        cases (hlive.symm.trans hlapsed')
      rw [heq, get_delete, if_neg hne]
      exact hspared
    · exact hspared
  · exact hget

/-- A reading spares the windows of other keys unless it is squeezed. -/
theorem spares_windowFor_iff (ho : o.Normalized) (hsize : l.map.size ≤ o.maxKeys) (key : JsString)
    (nowMs : ℚ) :
    Spares o l (l.windowFor o c key nowMs).2 (some key) nowMs ↔ ¬l.Squeezed o key nowMs := by
  constructor
  · intro hspares hsqueezed
    obtain ⟨other, w, hne, hget, hlive, hgone⟩ := exists_lost_of_squeezed (c := c) ho hsqueezed
    have hkept := hspares other w (fun heq => hne (Option.some.inj heq)) hget hlive
    cases hgone.symm.trans hkept
  · intro hnot other w hne hget hlive
    have hne' : key ≠ other := fun heq => hne (congrArg some heq)
    rw [windowFor]
    cases hkey : l.map.get key with
    | none =>
      simp only [get_set, if_neg hne']
      exact spares_makeRoom hsize hkey hnot hget hlive
    | some w' =>
      simp only
      split
      · simp only [get_set, if_neg hne']
        exact hget
      · exact hget

/-! ## One publish -/

variable {messages deliveries : ℕ} {topic tenantId : Option JsString} {topicMs tenantMs : ℚ}
  {a : Account}

/-- What a key has used of its window. -/
def Ledger.usage (o : EgressOptions) (l : Ledger) (key : JsString) (nowMs : ℚ) : Window :=
  match l.map.get key with
  | none => ⟨nowMs, 0, 0, 0, 0⟩
  | some w => if w.lapsed nowMs o.windowMs then ⟨nowMs, 0, 0, 0, 0⟩ else w

/-- A scope refuses a publish. -/
def Ledger.Crosses (o : EgressOptions) (c : Ceilings) (l : Ledger) (key : Option JsString)
    (messages deliveries : ℕ) (nowMs : ℚ) : Prop :=
  ∃ k, key = some k ∧ c.enabled = true ∧
    overCeiling (l.usage o k nowMs) c messages deliveries ≠ none

/-- A scope that is asked is squeezed. -/
def Ledger.SqueezedBy (o : EgressOptions) (c : Ceilings) (l : Ledger) (key : Option JsString)
    (nowMs : ℚ) : Prop :=
  ∃ k, key = some k ∧ c.enabled = true ∧ l.Squeezed o k nowMs

theorem overCeiling_windowFor (l : Ledger) (key : JsString) (nowMs : ℚ) :
    overCeiling (l.windowFor o c key nowMs).1 c messages deliveries =
      overCeiling (l.usage o key nowMs) c messages deliveries := by
  rw [windowFor, usage]
  cases l.map.get key with
  | none => rfl
  | some w =>
    simp only
    split <;> rfl

theorem admitKey_ne_none_iff (o : EgressOptions) (c : Ceilings) (l : Ledger)
    (key : Option JsString) (messages deliveries : ℕ) (nowMs : ℚ) :
    (l.admitKey o c key messages deliveries nowMs).1 ≠ none ↔
      l.Crosses o c key messages deliveries nowMs := by
  cases key with
  | none =>
    refine ⟨fun h => absurd rfl h, ?_⟩
    rintro ⟨k, hk, -⟩
    cases hk.symm
  | some k =>
    rw [admitKey]
    cases henabled : c.enabled with
    | false =>
      refine ⟨fun h => absurd rfl h, ?_⟩
      rintro ⟨k, -, h, -⟩
      cases henabled.symm.trans h
    | true =>
      simp only [if_true, overCeiling_windowFor]
      refine ⟨fun h => ⟨k, rfl, henabled, h⟩, ?_⟩
      rintro ⟨k', hk, -, h⟩
      cases hk
      exact h

/-- Asking a scope spares the windows of other keys unless it is squeezed. -/
theorem spares_admitKey_iff (c : Ceilings) (ho : o.Normalized) (hsize : l.map.size ≤ o.maxKeys)
    (key : Option JsString) (messages deliveries : ℕ) (nowMs : ℚ) :
    Spares o l (l.admitKey o c key messages deliveries nowMs).2 key nowMs ↔
      ¬l.SqueezedBy o c key nowMs := by
  cases key with
  | none =>
    refine ⟨fun _ => ?_, fun _ => Spares.refl l none nowMs⟩
    rintro ⟨k, hk, -⟩
    cases hk.symm
  | some k =>
    rw [admitKey]
    cases henabled : c.enabled with
    | false =>
      refine ⟨fun _ => ?_, fun _ => Spares.refl l (some k) nowMs⟩
      rintro ⟨k, -, h, -⟩
      cases henabled.symm.trans h
    | true =>
      simp only [if_true]
      rw [spares_windowFor_iff ho hsize]
      refine not_congr ⟨fun h => ⟨k, rfl, henabled, h⟩, ?_⟩
      rintro ⟨k', hk, -, h⟩
      cases hk
      exact h

/-- A publish that is refused leaves the windows of other keys, of either scope, that have not
lapsed. -/
def Untouched (o : EgressOptions) (a : Account) (topic tenantId : Option JsString)
    (messages deliveries : ℕ) (topicMs tenantMs : ℚ) : Prop :=
  let found := a.admitPublish o topic tenantId messages deliveries topicMs tenantMs
  found.1 ≠ none → Spares o a.topicWindows found.2.topicWindows topic topicMs ∧
    Spares o a.tenantWindows found.2.tenantWindows tenantId tenantMs

/-- The scopes that are asked up to the one that refuses are not squeezed. -/
structure Affordable (o : EgressOptions) (a : Account) (topic tenantId : Option JsString)
    (messages deliveries : ℕ) (topicMs tenantMs : ℚ) : Prop where
  byTopic : a.topicWindows.Crosses o o.topic topic messages deliveries topicMs →
    ¬a.topicWindows.SqueezedBy o o.topic topic topicMs
  byTenant : ¬a.topicWindows.Crosses o o.topic topic messages deliveries topicMs →
    a.tenantWindows.Crosses o o.tenant tenantId messages deliveries tenantMs →
      ¬a.topicWindows.SqueezedBy o o.topic topic topicMs ∧
        ¬a.tenantWindows.SqueezedBy o o.tenant tenantId tenantMs

theorem untouched_iff (ho : o.Normalized) (htopics : a.topicWindows.map.size ≤ o.maxKeys)
    (htenants : a.tenantWindows.map.size ≤ o.maxKeys) :
    Untouched o a topic tenantId messages deliveries topicMs tenantMs ↔
      Affordable o a topic tenantId messages deliveries topicMs tenantMs := by
  have hcrosses :=
    admitKey_ne_none_iff o o.topic a.topicWindows topic messages deliveries topicMs
  have hspares := spares_admitKey_iff o.topic ho htopics topic messages deliveries topicMs
  have hcrosses' :=
    admitKey_ne_none_iff o o.tenant a.tenantWindows tenantId messages deliveries tenantMs
  have hspares' := spares_admitKey_iff o.tenant ho htenants tenantId messages deliveries tenantMs
  simp only [Untouched, Account.admitPublish, Account.admitTopic, Account.admitTenant]
  generalize a.topicWindows.admitKey o o.topic topic messages deliveries topicMs = asked
    at hcrosses hspares ⊢
  obtain ⟨crossed, l⟩ := asked
  cases crossed with
  | some dim =>
    have hrefuses := hcrosses.mp (Option.some_ne_none dim)
    simp only
    refine ⟨fun h => ⟨fun _ => hspares.mp (h (Option.some_ne_none dim)).1, fun hnot => ?_⟩,
      fun h _ => ⟨hspares.mpr (h.byTopic hrefuses), Spares.refl _ _ _⟩⟩
    exact absurd hrefuses hnot
  | none =>
    have hadmits := fun h => hcrosses.mpr h rfl
    simp only
    refine ⟨fun h => ⟨fun hrefuses => (hadmits hrefuses).elim, fun _ hrefuses => ?_⟩,
      fun h hrefused => ?_⟩
    · obtain ⟨htopic, htenant⟩ := h (hcrosses'.mpr hrefuses)
      exact ⟨hspares.mp htopic, hspares'.mp htenant⟩
    · obtain ⟨htopic, htenant⟩ := h.byTenant hadmits (hcrosses'.mp hrefused)
      exact ⟨hspares.mpr htopic, hspares'.mpr htenant⟩

/-! ## Runs -/

/-- Both ledgers are within their bound. -/
structure Bounded (o : EgressOptions) (a : Account) : Prop where
  topics : a.topicWindows.map.size ≤ o.maxKeys
  tenants : a.tenantWindows.map.size ≤ o.maxKeys

theorem size_admitKey_le (c : Ceilings) (ho : o.Normalized) (hsize : l.map.size ≤ o.maxKeys)
    (key : Option JsString) (messages deliveries : ℕ) (nowMs : ℚ) :
    (l.admitKey o c key messages deliveries nowMs).2.map.size ≤ o.maxKeys := by
  have hkeys := ho.keys
  cases key with
  | none => exact hsize
  | some k =>
    rw [admitKey]
    split
    · exact size_windowFor_le (by omega) ho.sample hsize k
    · exact hsize

theorem size_chargeKey_le (c : Ceilings) (ho : o.Normalized) (hsize : l.map.size ≤ o.maxKeys)
    (key : Option JsString) (messages deliveries bytes : ℕ) (nowMs : ℚ) :
    (l.chargeKey o c key messages deliveries bytes nowMs).map.size ≤ o.maxKeys := by
  have hkeys := ho.keys
  cases key with
  | none => exact hsize
  | some k =>
    rw [chargeKey]
    split
    · simp only [charge, size_set, get_windowFor, Option.isSome_some, if_true]
      exact size_windowFor_le (by omega) ho.sample hsize k
    · exact hsize

theorem Bounded.admitPublish (ho : o.Normalized) (h : Bounded o a) :
    Bounded o (a.admitPublish o topic tenantId messages deliveries topicMs tenantMs).2 := by
  have htopics := size_admitKey_le o.topic ho h.topics topic messages deliveries topicMs
  have htenants := size_admitKey_le o.tenant ho h.tenants tenantId messages deliveries tenantMs
  simp only [Account.admitPublish, Account.admitTopic, Account.admitTenant]
  generalize a.topicWindows.admitKey o o.topic topic messages deliveries topicMs = asked
    at htopics ⊢
  obtain ⟨crossed, l⟩ := asked
  cases crossed with
  | some dim => exact ⟨htopics, h.tenants⟩
  | none => exact ⟨htopics, htenants⟩

variable {s : History}

theorem Bounded.call (ho : o.Normalized) (h : Bounded o s.account) {e : EgressEvent} {s' : History}
    (hcall : s.call o e = some s') : Bounded o s'.account := by
  cases e with
  | admitPublish topic tenantId messages deliveries topicMs tenantMs =>
    obtain ⟨-, ⟨⟩⟩ := Option.ite_none_right_eq_some.mp hcall
    exact h.admitPublish ho
  | charge bytes nowMs =>
    simp only [History.call] at hcall
    split at hcall
    · cases hcall
    · next p _ =>
      obtain ⟨-, ⟨⟩⟩ := Option.ite_none_right_eq_some.mp hcall
      exact
        ⟨size_chargeKey_le o.topic ho h.topics p.topic p.messages p.deliveries bytes nowMs,
          size_chargeKey_le o.tenant ho h.tenants p.tenantId p.messages p.deliveries bytes
            nowMs⟩

theorem bounded_of_reaches (ho : o.Normalized) {clock : ℚ} {es : List EgressEvent}
    (h : (egressMachine o clock).Reaches es s) : Bounded o s.account := by
  refine h.invariant (I := fun s => Bounded o s.account) ?_ fun s e s' hs _ hstep =>
    hs.call ho hstep
  exact ⟨Nat.zero_le _, Nat.zero_le _⟩

/-- In every state reached, a refusal leaves the windows of other keys exactly where no scope that
is asked is squeezed. -/
theorem untouched_iff_of_reaches (ho : o.Normalized) {clock : ℚ} {es : List EgressEvent}
    (h : (egressMachine o clock).Reaches es s) (topic tenantId : Option JsString)
    (messages deliveries : ℕ) (topicMs tenantMs : ℚ) :
    Untouched o s.account topic tenantId messages deliveries topicMs tenantMs ↔
      Affordable o s.account topic tenantId messages deliveries topicMs tenantMs := by
  obtain ⟨htopics, htenants⟩ := bounded_of_reaches ho h
  exact untouched_iff ho htopics htenants

theorem untouched_iff_of_reaches_rotatedRun :
    ∃ s, (egressMachine smallEgress 0).Reaches rotatedRun s ∧
      (Untouched smallEgress s.account (some (JsString.lit "v")) none 1 11 2000 2000 ↔
        Affordable smallEgress s.account (some (JsString.lit "v")) none 1 11 2000 2000) := by
  obtain ⟨s, hs, -⟩ : ∃ s, (egressMachine smallEgress 0).Reaches rotatedRun s ∧ true = true :=
    Machine.exists_of_exec (by decide +kernel)
  exact ⟨s, hs, untouched_iff_of_reaches normalized_smallEgress hs _ _ _ _ _ _⟩

/-- Publishes to topics that are new, at one reading of the clock. -/
def fillTopics (n : ℕ) : List EgressEvent :=
  (List.range n).map fun i => .admitPublish (some (fillKey i)) none 1 1 0 0

/-- The topics are read first, whatever the tenant says. -/
theorem topicWindows_admitPublish :
    (a.admitPublish o topic tenantId messages deliveries topicMs tenantMs).2.topicWindows =
      (a.topicWindows.admitKey o o.topic topic messages deliveries topicMs).2 := by
  simp only [Account.admitPublish, Account.admitTopic]
  generalize a.topicWindows.admitKey o o.topic topic messages deliveries topicMs = asked
  obtain ⟨crossed, l⟩ := asked
  cases crossed with
  | none => rfl
  | some dim => rfl

theorem exists_call_admitPublish (o : EgressOptions) (topic tenantId : Option JsString)
    (messages deliveries : ℕ) (htopic : s.clock ≤ topicMs) (htenant : topicMs ≤ tenantMs) :
    ∃ s', s.call o (.admitPublish topic tenantId messages deliveries topicMs tenantMs) = some s' ∧
      s'.account =
        (s.account.admitPublish o topic tenantId messages deliveries topicMs tenantMs).2 ∧
      s'.clock = tenantMs :=
  ⟨_, if_pos ⟨htopic, htenant⟩, rfl, rfl⟩

theorem exists_reaches_fillTopics {n : ℕ} (hn : n ≤ smallEgress.maxKeys) :
    ∃ s, (egressMachine smallEgress 0).Reaches (fillTopics n) s ∧ s.clock ≤ 0 ∧
      Filled 0 n s.account.topicWindows := by
  induction n with
  | zero => exact ⟨_, .start, le_rfl, filled_create 0⟩
  | succ n ih =>
    obtain ⟨s, hs, hclock, hfilled⟩ := ih (Nat.le_of_succ_le hn)
    obtain ⟨s', hstep, haccount, hclock'⟩ :=
      exists_call_admitPublish smallEgress (some (fillKey n)) none 1 1 hclock le_rfl
    refine ⟨s', ?_, hclock'.le, ?_⟩
    · rw [fillTopics, List.range_succ, List.map_append]
      exact hs.next trivial hstep
    · rw [haccount, topicWindows_admitPublish]
      exact hfilled.windowFor (by decide) hn

/-- In a ledger of windows that have all just started, a new key is squeezed. -/
theorem Filled.squeezed {n : ℕ} (h : Filled start n l) (hwindow : 0 < o.windowMs)
    (hfull : o.maxKeys ≤ n) : l.Squeezed o (fillKey n) start := by
  have hwalk : ∀ (sample fuel steps wrapped : ℕ) (cursor : Option ℕ),
      ∀ entry ∈ (l.map.walk (lapsedAt start o.windowMs) sample fuel steps wrapped cursor).1,
        entry.2.lapsed start o.windowMs = false :=
    fun _ _ _ _ _ entry hmem => h.live hwindow entry.1 entry.2 (get_of_mem_walk hmem)
  refine ⟨h.get_fillKey, h.size ▸ hfull, ?_, hwalk _ _ _ _ _⟩
  rw [sweepWalk]
  split
  · exact List.forall_mem_nil _
  · exact hwalk _ _ _ _ _

/-- A publish to eleven subscribers of a topic that is new costs another topic its window, and is
refused. -/
theorem not_untouched_fillTopics : ¬∀ es s, (egressMachine smallEgress 0).Reaches es s →
    ∀ (topic tenantId : Option JsString) (messages deliveries : ℕ) (topicMs tenantMs : ℚ),
      s.clock ≤ topicMs → topicMs ≤ tenantMs →
        Untouched smallEgress s.account topic tenantId messages deliveries topicMs tenantMs := by
  intro hall
  obtain ⟨s, hs, hclock, hfilled⟩ := exists_reaches_fillTopics le_rfl
  have huntouched := hall _ s hs (some (fillKey 1024)) none 1 11 0 0 hclock le_rfl
  obtain ⟨htopics, htenants⟩ := bounded_of_reaches normalized_smallEgress hs
  have haffordable := (untouched_iff normalized_smallEgress htopics htenants).mp huntouched
  refine haffordable.byTopic ⟨fillKey 1024, rfl, rfl, ?_⟩
    ⟨fillKey 1024, rfl, rfl, hfilled.squeezed (by decide) le_rfl⟩
  have hnone : s.account.topicWindows.map.get (fillKey 1024) = none := hfilled.get_fillKey
  rw [usage, hnone]
  decide

end AdapterWs.Egress
