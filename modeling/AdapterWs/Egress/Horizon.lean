import AdapterWs.Egress.Windows

/-!
# The sweep horizon

A pass of the iterator notes the least expiry of the windows it leaves. When it ends, every window
of the ledger is one it came to or one that started later, so that none lapses before what it noted,
and the sweep may be skipped until then. A ledger is within its bound, and gives up a window that
has not lapsed only where it is full and the sweep before freed nothing.
-/

namespace AdapterWs.Egress

open Binary64 Option CursorMap Ledger Nat

variable {o : EgressOptions} {c : Ceilings} {l l' : Ledger} {key other : JsString} {w : Window}
  {nowMs clock windowMs expiry start : ℚ} {cursor sample fuel wrapped n passed : ℕ}

/-! ## Horizons -/

/-- A time before which a window that started then has not lapsed, at any reading of the clock. -/
def Horizon (windowMs expiry start : ℚ) : Prop :=
  ∀ t, nearest t = t → t < expiry → t < start + windowMs

/-- The expiry of a window is rounded, and no reading lies between. -/
theorem horizon_expiry (h : 0 ≤ start + windowMs) :
    Horizon windowMs (nearest (start + windowMs)) start := by
  intro t ht hlt
  by_contra hle
  exact absurd (nearest_le_of_le h ht (not_lt.mp hle)) (not_le.mpr hlt)

theorem Horizon.earlier (h : Horizon windowMs expiry start) {expiry' : ℚ} (hle : expiry' ≤ expiry) :
    Horizon windowMs expiry' start := fun t ht hlt => h t ht (hlt.trans_le hle)

theorem Horizon.later (h : Horizon windowMs expiry start) {start' : ℚ} (hle : start ≤ start') :
    Horizon windowMs expiry start' :=
  fun t ht hlt => (h t ht hlt).trans_le (add_le_add_left hle windowMs)

/-- What a ledger knows of its windows: none has started after the clock or lapses before the
horizon, and those that the pass has passed do not lapse before what it noted. -/
structure Covered (windowMs clock : ℚ) (l : Ledger) : Prop where
  ordered : l.map.Ordered
  nonneg : 0 ≤ clock
  started : ∀ key w, l.map.get key = some w → 0 ≤ w.start ∧ w.start ≤ clock
  horizon : ∀ key w, l.map.get key = some w → Horizon windowMs l.sweepUntil w.start
  cursor_le : ∀ cursor, l.evictCursor = some cursor → cursor ≤ l.map.added
  passed : ∀ cursor, l.evictCursor = some cursor → ∀ key place w,
    l.map.find key = some (place, w) → place < cursor →
      ∃ expiry, l.passEarliestExpiry = some expiry ∧ Horizon windowMs expiry w.start
  past : ∃ start, start ≤ clock ∧ Horizon windowMs l.sweepUntil start
  noted : ∀ expiry, l.passEarliestExpiry = some expiry →
    ∃ start, start ≤ clock ∧ Horizon windowMs expiry start

theorem of_none {α : Type} {P : Prop} {a : α} (h : none = some a) : P :=
  absurd h.symm (some_ne_none a)

theorem covered_create (hclock : 0 ≤ clock) (hwindow : 0 ≤ windowMs) :
    Covered windowMs clock .create := by
  refine ⟨ordered_empty, hclock, fun _ _ => of_none, fun _ _ => of_none,
    fun _ => of_none, fun _ => of_none, ⟨clock, le_rfl, ?_⟩, fun _ => of_none⟩
  intro t _ hlt
  have hzero : t < 0 := hlt
  linarith

theorem Covered.mono (h : Covered windowMs clock l) (ht : clock ≤ nowMs) :
    Covered windowMs nowMs l := by
  refine ⟨h.ordered, h.nonneg.trans ht, fun key w hget => ?_, h.horizon, h.cursor_le, h.passed, ?_,
    fun expiry hnoted => ?_⟩
  · exact ⟨(h.started key w hget).1, (h.started key w hget).2.trans ht⟩
  · obtain ⟨start, hstart, hhorizon⟩ := h.past
    exact ⟨start, hstart.trans ht, hhorizon⟩
  · obtain ⟨start, hstart, hhorizon⟩ := h.noted expiry hnoted
    exact ⟨start, hstart.trans ht, hhorizon⟩

theorem get_of_find {place : ℕ} (h : l.map.find key = some (place, w)) :
    l.map.get key = some w := by rw [get_eq_find, h]; rfl

theorem exists_find (h : l.map.get key = some w) : ∃ place, l.map.find key = some (place, w) := by
  rw [get_eq_find] at h
  obtain ⟨⟨place, w'⟩, hfind, rfl⟩ := map_eq_some_iff.mp h
  exact ⟨place, hfind⟩

/-! ## One step of a pass -/

theorem Covered.opened (h : Covered windowMs clock l) : Covered windowMs clock l.opened := by
  rw [Ledger.opened]
  split_ifs
  · refine ⟨h.ordered, h.nonneg, h.started, h.horizon, fun cursor hcursor => ?_,
      fun cursor hcursor key place w _ hlt => ?_, h.past, fun _ => of_none⟩
    all_goals cases hcursor
    · exact zero_le _
    · exact absurd hlt (not_lt_zero place)
  · exact h

theorem sweepUntil_opened (l : Ledger) : l.opened.sweepUntil = l.sweepUntil := by
  rw [opened]
  split <;> rfl

theorem Covered.closePass (h : Covered windowMs clock l) (hcursor : l.evictCursor = some cursor)
    (hdone : l.map.next cursor = none) : Covered windowMs clock l.closePass := by
  have hall : ∀ key w, l.map.get key = some w →
      ∃ expiry, l.passEarliestExpiry = some expiry ∧ Horizon windowMs expiry w.start := by
    intro key w hget
    obtain ⟨place, hfind⟩ := exists_find hget
    exact h.passed cursor hcursor key place w hfind (lt_of_next_eq_none hdone hfind)
  rw [Ledger.closePass]
  cases hnoted : l.passEarliestExpiry with
  | none =>
    exact ⟨h.ordered, h.nonneg, h.started, h.horizon, fun _ => of_none, fun _ => of_none, h.past,
      fun e hsome => absurd hsome.symm (some_ne_none e)⟩
  | some expiry =>
    refine ⟨h.ordered, h.nonneg, h.started, fun key w hget => ?_, fun _ => of_none, fun _ => of_none,
      h.noted expiry hnoted, fun e hsome => h.noted e (hnoted.trans hsome)⟩
    obtain ⟨expiry', hsome, hhorizon⟩ := hall key w hget
    cases hnoted.symm.trans hsome
    exact hhorizon

theorem passEarliestExpiry_noteExpiry (l : Ledger) (expiry : ℚ) :
    ∃ least, (l.noteExpiry expiry).passEarliestExpiry = some least ∧ least ≤ expiry ∧
      (∀ expiry', l.passEarliestExpiry = some expiry' → least ≤ expiry') ∧
      (least = expiry ∨ l.passEarliestExpiry = some least) := by
  rw [noteExpiry]
  cases hnoted : l.passEarliestExpiry with
  | none =>
    refine ⟨expiry, rfl, le_rfl, fun expiry' hsome => ?_, .inl rfl⟩
    cases hsome.symm
  | some least =>
    simp only
    split_ifs with hlt
    · refine ⟨expiry, rfl, le_rfl, fun expiry' hsome => ?_, .inl rfl⟩
      exact some.inj hsome ▸ hlt.le
    · refine ⟨least, hnoted, not_lt.mp hlt, fun expiry' hsome => ?_, .inr rfl⟩
      exact (some.inj hsome).le

@[simp] theorem sweepUntil_noteExpiry (l : Ledger) (expiry : ℚ) :
    (l.noteExpiry expiry).sweepUntil = l.sweepUntil := by
  rw [noteExpiry]
  split
  · rfl
  · split <;> rfl

section

variable (h : Covered windowMs clock l)
include h

theorem Covered.leave (hwindow : 0 ≤ windowMs) {cursor' : ℕ} (hcursor : l.evictCursor = some cursor)
    (hnext : l.map.next cursor = some (key, w, cursor')) :
    Covered windowMs clock
      ({ l with evictCursor := some cursor' }.noteExpiry (nearest (w.start + windowMs))) := by
  obtain ⟨place, hfind, rfl, hbetween⟩ := find_of_next h.ordered hnext
  have hget := get_of_find hfind
  have hexpiry : Horizon windowMs (nearest (w.start + windowMs)) w.start :=
    horizon_expiry (add_nonneg (h.started key w hget).1 hwindow)
  obtain ⟨least, hleast, hle, hbelow, heither⟩ := passEarliestExpiry_noteExpiry
    { l with evictCursor := some (place + 1) } (nearest (w.start + windowMs))
  refine ⟨?_, h.nonneg, ?_, ?_, ?_, ?_, ?_, ?_⟩
  · rw [map_noteExpiry]
    exact h.ordered
  · rw [map_noteExpiry]
    exact h.started
  · rw [map_noteExpiry, sweepUntil_noteExpiry]
    exact h.horizon
  · rw [map_noteExpiry, evictCursor_noteExpiry]
    intro cursor'' hsome
    cases hsome
    exact h.ordered.find_lt hfind
  · rw [map_noteExpiry, evictCursor_noteExpiry]
    intro cursor'' hsome key' place' w' hfind' hlt
    cases hsome
    refine ⟨least, hleast, ?_⟩
    rcases hbetween key' place' w' hfind' hlt with rfl | hbefore
    · obtain ⟨-, rfl⟩ := Prod.mk.inj (some.inj (hfind.symm.trans hfind'))
      exact hexpiry.earlier hle
    · obtain ⟨expiry, hsome, hhorizon⟩ := h.passed cursor hcursor key' place' w' hfind' hbefore
      exact hhorizon.earlier (hbelow expiry hsome)
  · rw [sweepUntil_noteExpiry]
    exact h.past
  · intro expiry hsome
    cases hleast.symm.trans hsome
    rcases heither with rfl | hold
    · exact ⟨w.start, (h.started key w hget).2, hexpiry⟩
    · exact h.noted least hold

theorem Covered.delete (key : JsString) :
    Covered windowMs clock { l with map := l.map.delete key } := by
  have hget : ∀ other w, (l.map.delete key).get other = some w → l.map.get other = some w :=
    fun other w hget => drops_delete l key other w hget
  refine ⟨h.ordered.delete key, h.nonneg, fun other w h' => h.started other w (hget other w h'),
    fun other w h' => h.horizon other w (hget other w h'), h.cursor_le,
    fun cursor hcursor other place w hfind hlt => ?_, h.past, h.noted⟩
  simp only [find_delete] at hfind
  split_ifs at hfind
  exact h.passed cursor hcursor other place w hfind hlt

theorem Covered.drop {cursor' : ℕ} (hcursor : l.evictCursor = some cursor)
    (hnext : l.map.next cursor = some (key, w, cursor')) :
    Covered windowMs clock
      { l with evictCursor := some cursor', map := l.map.delete key } := by
  obtain ⟨place, hfind, rfl, hbetween⟩ := find_of_next h.ordered hnext
  have hdelete := h.delete key
  refine ⟨hdelete.ordered, h.nonneg, hdelete.started, hdelete.horizon, fun cursor'' hsome => ?_,
    fun cursor'' hsome other place' w' hfind' hlt => ?_, h.past, h.noted⟩
  all_goals cases hsome
  · exact h.ordered.find_lt hfind
  simp only [find_delete] at hfind'
  split_ifs at hfind' with hne
  rcases hbetween other place' w' hfind' hlt with heq | hbefore
  · exact absurd heq.symm hne
  · exact h.passed cursor hcursor other place' w' hfind' hbefore

/-- A window that is new starts now, and one that is there does not start earlier. -/
theorem Covered.set (key : JsString) {w : Window} (hnonneg : 0 ≤ w.start) (hle : w.start ≤ clock)
    (hlater : ∀ old, l.map.get key = some old → old.start ≤ w.start)
    (hnew : l.map.get key = none → w.start = clock) :
    Covered windowMs clock { l with map := l.map.set key w } := by
  refine ⟨h.ordered.set key w, h.nonneg, fun other w' hget => ?_, fun other w' hget => ?_,
    fun cursor hcursor => (h.cursor_le cursor hcursor).trans (added_le_set ..),
    fun cursor hcursor other place w' hfind hlt => ?_, h.past, h.noted⟩
  · rw [get_set] at hget
    split_ifs at hget with heq
    · cases hget
      exact ⟨hnonneg, hle⟩
    · exact h.started other w' hget
  · rw [get_set] at hget
    split_ifs at hget with heq
    · cases hget
      cases hold : l.map.get key with
      | none =>
        obtain ⟨start, hstart, hhorizon⟩ := h.past
        exact hhorizon.later (hnew hold ▸ hstart)
      | some old => exact (h.horizon key old hold).later (hlater old hold)
    · exact h.horizon other w' hget
  · simp only [find_set] at hfind
    split_ifs at hfind with heq
    · cases hfind
      cases hold : l.map.find key with
      | none =>
        rw [hold] at hlt
        exact absurd (h.cursor_le cursor hcursor) (not_le.mpr hlt)
      | some found =>
        obtain ⟨place, old⟩ := found
        rw [hold] at hlt
        obtain ⟨expiry, hsome, hhorizon⟩ := h.passed cursor hcursor key place old hold hlt
        exact ⟨expiry, hsome, hhorizon.later (hlater old (get_of_find hold))⟩
    · exact h.passed cursor hcursor other place w' hfind hlt

end

/-! ## A whole pass -/

theorem turnKeeps_covered (hwindow : 0 ≤ windowMs) :
    TurnKeeps nowMs windowMs (Covered windowMs clock) where
  opened h := h.opened
  closes h hcursor hdone := h.closePass hcursor hdone
  drops h hcursor hnext _ := h.drop hcursor hnext
  leaves h hcursor hnext := h.leave hwindow hcursor hnext

theorem Covered.dropVictim (h : Covered windowMs clock l) (victim : Option (JsString × ℚ)) :
    Covered windowMs clock (l.dropVictim victim) := by
  cases victim with
  | none => exact h
  | some victim =>
    have hdelete := h.delete victim.1
    exact ⟨hdelete.ordered, h.nonneg, hdelete.started, hdelete.horizon, h.cursor_le,
      hdelete.passed, h.past, h.noted⟩

theorem Covered.windowFor (hwindow : 0 ≤ o.windowMs) (h : Covered o.windowMs nowMs l)
    (key : JsString) : Covered o.windowMs nowMs (l.windowFor o c key nowMs).2 := by
  rw [Ledger.windowFor]
  cases hget : l.map.get key with
  | none =>
    have hroom : Covered o.windowMs nowMs (l.makeRoom o c nowMs) := 
      (turnKeeps_covered hwindow).makeRoom h fun victim hl => hl.dropVictim victim
    refine hroom.set key h.nonneg le_rfl (fun old hold => ?_) fun _ => rfl
    exact absurd (hget.symm.trans (drops_makeRoom l key old hold)) (some_ne_none old).symm
  | some w =>
    simp only
    split
    · refine h.set key h.nonneg le_rfl (fun old hold => (h.started key old hold).2) fun _ => rfl
    · exact h

theorem Covered.spend (h : Covered windowMs clock l) (hget : l.map.get key = some w)
    (messages deliveries bytes : ℕ) : Covered windowMs clock
      { l with map := l.map.set key (w.charge messages deliveries bytes) } := by
  obtain ⟨hnonneg, hle⟩ := h.started key w hget
  refine h.set key hnonneg hle (fun old hold => ?_) fun hnone => ?_
  · exact (congrArg Window.start (some.inj (hold.symm.trans hget))).le
  · cases hnone.symm.trans hget

/-! ## Room -/

theorem turnKeeps_size (n : ℕ) : TurnKeeps nowMs windowMs fun l => l.map.size ≤ n where
  opened h := by rwa [map_opened]
  closes h _ _ := by rwa [map_closePass]
  drops h _ hnext _ := (le_succ _).trans ((size_delete (get_of_next hnext)).trans_le h)
  leaves h _ _ := by rwa [map_noteExpiry]

theorem size_reclaimLoop_le (fuel steps wrapped : ℕ) (l : Ledger) :
    (reclaimLoop nowMs windowMs fuel steps wrapped l).map.size ≤ l.map.size :=
  (turnKeeps_size l.map.size).reclaimLoop le_rfl fuel steps wrapped

theorem size_reclaimExpired_le (l : Ledger) :
    (l.reclaimExpired nowMs windowMs).map.size ≤ l.map.size :=
  (turnKeeps_size l.map.size).reclaimExpired le_rfl

theorem get_reclaimExpired_of_live (hlive : w.lapsed nowMs windowMs = false)
    (hget : l.map.get other = some w) :
    (l.reclaimExpired nowMs windowMs).map.get other = some w := by
  have hkeeps : TurnKeeps nowMs windowMs fun l => l.map.get other = some w := by
    refine ⟨fun h => ?_, fun h _ _ => ?_, fun h _ hnext hlapsed => ?_, fun h _ _ => ?_⟩
    · rwa [map_opened]
    · rwa [map_closePass]
    · rw [get_delete, if_neg, h]
      rintro rfl
      cases (get_of_next hnext).symm.trans h
      cases hlive.symm.trans hlapsed
    · rwa [map_noteExpiry]
  exact hkeeps.reclaimExpired hget

theorem size_evictLoop_of_victim {sampled : ℕ} {victim : JsString × ℚ}
    (hmem : l.map.get victim.1 = some w) :
    (evictLoop c sample nowMs windowMs fuel sampled wrapped (some victim) l).map.size + 1 =
      l.map.size := by
  induction fuel generalizing sampled wrapped victim w l with
  | zero => exact size_delete hmem
  | succ fuel ih =>
    have hmap := map_opened l
    rw [evictLoop]
    split
    · simp only
      split
      · rw [ih (w := w) (by rwa [map_closePass, hmap]), map_closePass, hmap]
      · next key w' cursor hnext =>
        have hkey := get_of_next hnext
        split
        · rw [size_delete hkey, hmap]
        · by_cases hscore : nearest (spent c w' + w'.pu) < victim.2
          · simp only [all_some, hscore, decide_true, if_true]
            rw [ih (w := w') (by rwa [map_noteExpiry]), map_noteExpiry, hmap]
          · simp only [all_some, hscore, decide_false, Bool.false_eq_true, if_false]
            rw [ih (w := w) (by rwa [map_noteExpiry, hmap]), map_noteExpiry, hmap]
    · exact size_delete hmem

theorem size_evictLoop_of_next {sampled : ℕ} (hgo : sampled < sample ∧ wrapped < 2)
    (hnext : l.map.next (l.evictCursor.getD 0) = some (key, w, cursor)) :
    (evictLoop c sample nowMs windowMs (fuel + 1) sampled wrapped none l).map.size + 1 =
      l.map.size := by
  have hmap := map_opened l
  have hkey := get_of_next hnext
  rw [evictLoop, if_pos hgo]
  simp only [evictCursor_opened, getD_some, hmap, hnext, all_none, if_true]
  split
  · exact size_delete hkey
  · rw [size_evictLoop_of_victim (w := w) (by rwa [map_noteExpiry]), map_noteExpiry]

theorem size_evictOne (hsample : 1 ≤ sample) (hsize : 0 < l.map.size) :
    (l.evictOne c sample nowMs windowMs).map.size + 1 = l.map.size := by
  rw [evictOne]
  cases hnext : l.map.next (l.evictCursor.getD 0) with
  | some found =>
    obtain ⟨key, w, cursor⟩ := found
    exact size_evictLoop_of_next (by omega) hnext
  | none =>
    have hmap := map_opened l
    obtain ⟨key, w, cursor, hfirst⟩ := exists_next_zero hsize
    cases hcursor : l.evictCursor with
    | none =>
      rw [hcursor, getD_none, hfirst] at hnext
      cases hnext.symm
    | some cursor' =>
      rw [hcursor, getD_some] at hnext
      rw [evictLoop, if_pos (by omega)]
      simp only [evictCursor_opened, getD_some, hmap, hnext, hcursor, isNone_some]
      have hfirst' : l.opened.closePass.map.next (l.opened.closePass.evictCursor.getD 0) =
          some (key, w, cursor) := by
        rwa [evictCursor_closePass, map_closePass, hmap]
      rw [size_evictLoop_of_next (by simp; omega) hfirst', map_closePass, hmap]

theorem size_makeRoom_lt (hkeys : 1 ≤ o.maxKeys) (hsample : 1 ≤ o.evictionSample)
    (hsize : l.map.size ≤ o.maxKeys) : (l.makeRoom o c nowMs).map.size < o.maxKeys := by
  have hle : (l.reclaimExpired nowMs o.windowMs).map.size ≤ l.map.size := size_reclaimExpired_le l
  rw [makeRoom]
  split
  · simp only
    split
    · have hevict : ((l.reclaimExpired nowMs o.windowMs).evictOne c o.evictionSample nowMs
          o.windowMs).map.size + 1 = (l.reclaimExpired nowMs o.windowMs).map.size :=
        size_evictOne hsample (by omega)
      omega
    · omega
  · next hfloor =>
    have hshift : o.maxKeys - (o.maxKeys >>> slackShift) ≤ o.maxKeys := sub_le ..
    omega

theorem size_windowFor_le (hkeys : 1 ≤ o.maxKeys) (hsample : 1 ≤ o.evictionSample)
    (hsize : l.map.size ≤ o.maxKeys) (key : JsString) :
    (l.windowFor o c key nowMs).2.map.size ≤ o.maxKeys := by
  rw [windowFor]
  cases hget : l.map.get key with
  | none =>
    have hlt : (l.makeRoom o c nowMs).map.size < o.maxKeys :=
      size_makeRoom_lt hkeys hsample hsize
    simp only [size_set]
    split <;> omega
  | some w =>
    simp only
    split
    · simp only [size_set, hget, isSome_some, if_true]
      exact hsize
    · exact hsize

/-- A window that has not lapsed is only given up for a new key, in a ledger that is full after it
was swept. -/
theorem full_of_evicted (hget : l.map.get other = some w)
    (hlive : w.lapsed nowMs o.windowMs = false)
    (hgone : (l.windowFor o c key nowMs).2.map.get other = none) :
    l.map.get key = none ∧ o.maxKeys ≤ (l.reclaimExpired nowMs o.windowMs).map.size := by
  rw [windowFor] at hgone
  cases hkey : l.map.get key with
  | none =>
    refine ⟨rfl, ?_⟩
    simp only [hkey, get_set] at hgone
    split_ifs at hgone
    rw [makeRoom] at hgone
    split_ifs at hgone with hfloor
    · simp only at hgone
      split_ifs at hgone with hfull
      · exact hfull
      · rw [get_reclaimExpired_of_live hlive hget] at hgone
        cases hgone
    · cases hgone.symm.trans hget
  | some w' =>
    simp only [hkey] at hgone
    split at hgone
    · simp only [get_set] at hgone
      split_ifs at hgone
      cases hgone.symm.trans hget
    · cases hgone.symm.trans hget

/-! ## Turns of a sweep -/

section Turn

variable {fuel steps wrapped cursor : ℕ}

theorem reclaimLoop_of_stop (hgo : ¬(steps < sweepSteps ∧ wrapped < 2)) :
    reclaimLoop nowMs windowMs fuel steps wrapped l = l := by
  cases fuel with
  | zero => rfl
  | succ fuel => rw [reclaimLoop, if_neg hgo]

section

variable (hgo : steps < sweepSteps ∧ wrapped < 2)
include hgo

theorem reclaimLoop_of_end (hnext : l.map.next (l.evictCursor.getD 0) = none) :
    reclaimLoop nowMs windowMs (fuel + 1) steps wrapped l =
      reclaimLoop nowMs windowMs fuel steps
        (if l.evictCursor.isNone then wrapped + 1 else wrapped) l.opened.closePass := by
  rw [reclaimLoop, if_pos hgo]
  simp [evictCursor_opened, map_opened, hnext]

theorem reclaimLoop_of_live (hnext : l.map.next (l.evictCursor.getD 0) = some (key, w, cursor))
    (hlive : w.lapsed nowMs windowMs = false) :
    reclaimLoop nowMs windowMs (fuel + 1) steps wrapped l =
      reclaimLoop nowMs windowMs fuel (steps + 1)
        (if l.evictCursor.isNone then wrapped + 1 else wrapped)
        ({ l.opened with evictCursor := some cursor }.noteExpiry
          (nearest (w.start + windowMs))) := by
  rw [reclaimLoop, if_pos hgo]
  simp [evictCursor_opened, map_opened, hnext, hlive]

theorem reclaimLoop_of_lapsed (hnext : l.map.next (l.evictCursor.getD 0) = some (key, w, cursor))
    (hlapsed : w.lapsed nowMs windowMs = true) :
    reclaimLoop nowMs windowMs (fuel + 1) steps wrapped l =
      reclaimLoop nowMs windowMs fuel (steps + 1)
        (if l.evictCursor.isNone then wrapped + 1 else wrapped)
        { l.opened with evictCursor := some cursor, map := l.opened.map.delete key } := by
  rw [reclaimLoop, if_pos hgo]
  simp [evictCursor_opened, map_opened, hnext, hlapsed]

end

end Turn

/-! ## Filling a ledger

Keys that are new, one after the other, at one reading of the clock. -/

/-- A sweep of windows that have not lapsed drops none. -/
theorem map_reclaimExpired_of_live
    (hlive : ∀ key w, l.map.get key = some w → w.lapsed nowMs windowMs = false) :
    (l.reclaimExpired nowMs windowMs).map = l.map := by
  have hkeeps : TurnKeeps nowMs windowMs fun l' => l'.map = l.map := by
    refine ⟨fun h => ?_, fun h _ _ => ?_, fun h _ hnext hlapsed => ?_, fun h _ _ => ?_⟩
    · rwa [map_opened]
    · rwa [map_closePass]
    · cases (hlive _ _ (get_of_next (h ▸ hnext))).symm.trans hlapsed
    · rwa [map_noteExpiry]
  exact hkeeps.reclaimExpired rfl

theorem lapsed_self (hwindow : 0 < windowMs) (hstart : w.start = nowMs) :
    w.lapsed nowMs windowMs = false := by
  rw [Window.lapsed, hstart, sub_self, nearest_zero]
  exact decide_eq_false (not_le.mpr hwindow)

/-- The key of a number. -/
def fillKey (n : ℕ) : JsString := List.replicate n 0

/-- A ledger of the first keys, all read at one time. -/
structure Filled (start : ℚ) (n : ℕ) (l : Ledger) : Prop where
  size : l.map.size = n
  added : l.map.added = n
  windows : ∀ key w, l.map.get key = some w → w.start = start ∧ key.length < n

theorem filled_create (start : ℚ) : Filled start 0 .create := ⟨rfl, rfl, fun _ _ => of_none⟩

theorem Filled.live (h : Filled start n l) (hwindow : 0 < windowMs) :
    ∀ key w, l.map.get key = some w → w.lapsed start windowMs = false :=
  fun key w hget => lapsed_self hwindow (h.windows key w hget).1

theorem Filled.get_fillKey (h : Filled start n l) : l.map.get (fillKey n) = none := by
  cases hget : l.map.get (fillKey n) with
  | none => rfl
  | some w =>
    have hlt := (h.windows _ w hget).2
    rw [fillKey, List.length_replicate] at hlt
    exact absurd hlt (lt_irrefl n)

theorem Filled.windowFor (h : Filled start n l) (hwindow : 0 < o.windowMs) (hroom : n < o.maxKeys) :
    Filled start (n + 1) (l.windowFor o c (fillKey n) start).2 := by
  have hnone := h.get_fillKey
  have hmap : (l.makeRoom o c start).map = l.map := by
    have hreclaim := map_reclaimExpired_of_live (h.live hwindow)
    rw [makeRoom]
    split
    · simp only
      rw [if_neg (by rw [hreclaim, h.size]; exact not_le.mpr hroom)]
      exact hreclaim
    · rfl
  simp only [Ledger.windowFor, hnone, hmap]
  refine ⟨?_, ?_, fun key w hget => ?_⟩
  · rw [size_set, hnone, h.size]
    rfl
  · rw [added_set_of_get_eq_none hnone, h.added]
  · simp only [get_set] at hget
    split_ifs at hget with heq
    · cases hget
      refine ⟨rfl, ?_⟩
      rw [← heq, fillKey, List.length_replicate]
      exact lt_succ_self n
    · obtain ⟨hstart, hlt⟩ := h.windows key w hget
      exact ⟨hstart, lt_succ_of_lt hlt⟩

/-- The pass has come to the end of the ledger once, or past so many windows. -/
structure Advanced (expiry : ℚ) (passed : ℕ) (l : Ledger) : Prop where
  noted : ∀ e, l.passEarliestExpiry = some e → e = expiry
  advanced : l.sweepUntil = expiry ∨ l.sweepUntil = 0 ∧ passed ≤ l.evictCursor.getD 0

theorem Advanced.opened (h : Advanced expiry passed l) : Advanced expiry passed l.opened := by
  rw [Ledger.opened]
  split_ifs with hnone
  · rw [isNone_iff_eq_none] at hnone
    refine ⟨fun e hsome => absurd hsome.symm (some_ne_none e), ?_⟩
    rcases h.advanced with hdone | ⟨hzero, hle⟩
    · exact .inl hdone
    · rw [hnone, getD_none] at hle
      exact .inr ⟨hzero, hle⟩
  · exact h

/-- A turn that comes to a window goes one further, and one that does not ends the pass. -/
theorem Advanced.reclaimLoop {steps : ℕ} (hwindow : 0 < windowMs)
    (h : Advanced (nearest (start + windowMs)) passed l) (hcovered : Covered windowMs clock l)
    (hstarts : ∀ key w, l.map.get key = some w → w.start = start) (hsize : 0 < l.map.size)
    (hturns : l.sweepUntil = nearest (start + windowMs) ∨
      sweepSteps - steps ≤ fuel ∧ wrapped + (if l.evictCursor.isNone then 1 else 0) < 2) :
    Advanced (nearest (start + windowMs)) (passed + (sweepSteps - steps))
      (reclaimLoop start windowMs fuel steps wrapped l) := by
  induction fuel generalizing steps wrapped passed l with
  | zero =>
    refine ⟨h.noted, ?_⟩
    rcases hturns with hdone | ⟨hsteps, -⟩
    · exact .inl hdone
    · rw [le_zero.mp hsteps]
      exact h.advanced
  | succ fuel ih =>
    have hmap := map_opened l
    have hopened := hcovered.opened
    have hcursor := evictCursor_opened l
    by_cases hgo : steps < sweepSteps ∧ wrapped < 2
    · cases hnext : l.map.next (l.evictCursor.getD 0) with
      | none =>
        obtain ⟨key, w, cursor, hfirst⟩ := exists_next_zero hsize
        obtain ⟨place, hfind⟩ := exists_find (l := l.opened)
          (hmap ▸ get_of_next hfirst)
        obtain ⟨e, he, -⟩ := hopened.passed _ hcursor key place w hfind
          (lt_of_next_eq_none (hmap ▸ hnext) hfind)
        obtain rfl := h.opened.noted e he
        have hclose : l.opened.closePass = { l.opened with
            evictCursor := none, sweepUntil := nearest (start + windowMs) } := by
          simp [closePass, he]
        rw [reclaimLoop_of_end hgo hnext, hclose]
        refine ih ⟨h.opened.noted, .inl rfl⟩ ?_ ?_ ?_ (.inl rfl)
        · exact hclose ▸ hopened.closePass hcursor (hmap ▸ hnext)
        · rwa [hmap]
        · rwa [hmap]
      | some found =>
        obtain ⟨key, w, cursor⟩ := found
        have hget := get_of_next hnext
        have hlt := lt_of_next hnext
        obtain ⟨least, hleast, -, -, heither⟩ := passEarliestExpiry_noteExpiry
          { l.opened with evictCursor := some cursor } (nearest (w.start + windowMs))
        have hpassed : passed + (sweepSteps - steps) =
            passed + 1 + (sweepSteps - (steps + 1)) := by omega
        rw [reclaimLoop_of_live hgo hnext (lapsed_self hwindow (hstarts key w hget)), hpassed]
        refine ih ⟨fun e he => ?_, ?_⟩ ?_ ?_ ?_ ?_
        · cases hleast.symm.trans he
          rcases heither with rfl | hsame
          · rw [hstarts key w hget]
          · exact h.opened.noted least hsame
        · rw [sweepUntil_noteExpiry, evictCursor_noteExpiry, getD_some]
          rcases h.opened.advanced with hdone | ⟨hzero, hle⟩
          · exact .inl hdone
          · rw [hcursor, getD_some] at hle
            exact .inr ⟨hzero, by omega⟩
        · exact hopened.leave hwindow.le hcursor (hmap ▸ hnext)
        · rwa [map_noteExpiry, hmap]
        · rwa [map_noteExpiry, hmap]
        · rw [sweepUntil_noteExpiry, evictCursor_noteExpiry, sweepUntil_opened]
          rcases hturns with hdone | ⟨hsteps, hwrapped⟩
          · exact .inl hdone
          · simp only [isNone_some, Bool.false_eq_true, if_false]
            refine .inr ⟨by omega, ?_⟩
            split_ifs at hwrapped ⊢ <;> exact hwrapped
    · rw [reclaimLoop_of_stop hgo]
      refine ⟨h.noted, ?_⟩
      rcases hturns with hdone | ⟨hsteps, hwrapped⟩
      · exact .inl hdone
      · have hzero : sweepSteps - steps = 0 := by omega
        rw [hzero]
        exact h.advanced

theorem Advanced.reclaimExpired (hwindow : 0 < windowMs)
    (h : Advanced (nearest (start + windowMs)) passed l) (hcovered : Covered windowMs clock l)
    (hstarts : ∀ key w, l.map.get key = some w → w.start = start) (hsize : 0 < l.map.size)
    (hstart : 0 ≤ start) :
    Advanced (nearest (start + windowMs)) (passed + sweepSteps)
      (l.reclaimExpired start windowMs) := by
  rw [Ledger.reclaimExpired]
  split_ifs with hidle
  · refine ⟨h.noted, ?_⟩
    rcases h.advanced with hdone | ⟨hzero, -⟩
    · exact .inl hdone
    · exact absurd (hzero ▸ hidle) (not_lt.mpr hstart)
  · have hturns : sweepSteps - 0 ≤ sweepSteps + 3 ∧
        0 + (if l.evictCursor.isNone then 1 else 0) < 2 := by
      refine ⟨by omega, ?_⟩
      split <;> omega
    exact h.reclaimLoop hwindow hcovered hstarts hsize (.inr hturns)

/-- What the pass has come to after the next key is read. -/
theorem Advanced.windowFor (hwindow : 0 < o.windowMs)
    (h : Advanced (nearest (start + o.windowMs)) passed l) (hfilled : Filled start n l)
    (hcovered : Covered o.windowMs start l) (hroom : n < o.maxKeys) (hpos : 0 < n)
    (hfloor : o.maxKeys - (o.maxKeys >>> slackShift) ≤ n) :
    Advanced (nearest (start + o.windowMs)) (passed + sweepSteps)
      (l.windowFor o c (fillKey n) start).2 := by
  have hstarts : ∀ key w, l.map.get key = some w → w.start = start :=
    fun key w hget => (hfilled.windows key w hget).1
  have hsize : 0 < l.map.size := hfilled.size ▸ hpos
  have hswept := h.reclaimExpired hwindow hcovered hstarts hsize hcovered.nonneg
  have hmap := map_reclaimExpired_of_live (hfilled.live hwindow)
  have hmake : l.makeRoom o c start = l.reclaimExpired start o.windowMs := by
    rw [makeRoom, if_pos (hfilled.size ▸ hfloor)]
    simp only
    rw [if_neg (by rw [hmap, hfilled.size]; exact not_le.mpr hroom)]
  simp only [Ledger.windowFor, hfilled.get_fillKey, hmake]
  exact ⟨hswept.noted, hswept.advanced⟩

/-- A ledger that is not swept stays as it was created. -/
theorem windowFor_of_lt_floor (hfilled : Filled start n l)
    (hfloor : n < o.maxKeys - (o.maxKeys >>> slackShift)) :
    (l.windowFor o c (fillKey n) start).2 =
      { l with map := l.map.set (fillKey n) ⟨start, 0, 0, 0, 0⟩ } := by
  have hmake : l.makeRoom o c start = l := by
    rw [makeRoom, if_neg (by rw [hfilled.size]; exact not_le.mpr hfloor)]
  simp [windowFor, hfilled.get_fillKey, hmake]

/-! ## Runs -/

/-- A ledger and the last reading of the clock. -/
structure LedgerRun where
  ledger : Ledger
  clock : ℚ

/-- A call on a ledger, or a charge to a window it returned. -/
inductive LedgerEvent
  | windowFor (key : JsString) (nowMs : ℚ)
  | charge (key : JsString) (messages deliveries bytes : ℕ)

/-- One call. The clock reads doubles and does not go back. -/
def LedgerRun.call (o : EgressOptions) (c : Ceilings) (s : LedgerRun) :
    LedgerEvent → Option LedgerRun
  | .windowFor key nowMs =>
    if s.clock ≤ nowMs ∧ nearest nowMs = nowMs then
      some ⟨(s.ledger.windowFor o c key nowMs).2, nowMs⟩
    else none
  | .charge key messages deliveries bytes =>
    match s.ledger.map.get key with
    | none => none
    | some w =>
      let map := s.ledger.map.set key (w.charge messages deliveries bytes)
      some ⟨{ s.ledger with map := map }, s.clock⟩

/-- One ledger. -/
def ledgerMachine (o : EgressOptions) (c : Ceilings) : Machine LedgerRun LedgerEvent where
  init := ⟨.create, 0⟩
  step s e := s.call o c e

/-- What `normalizeEgressOptions` returns. -/
structure EgressOptions.Normalized (o : EgressOptions) : Prop where
  window : 100 ≤ o.windowMs
  keys : 1024 ≤ o.maxKeys
  sample : 1 ≤ o.evictionSample

/-- What is promised of a ledger: before its horizon no window has lapsed, it is within its bound,
and a window that has not lapsed is only given up where it is full and the sweep freed nothing. -/
structure Swept (o : EgressOptions) (c : Ceilings) (s : LedgerRun) : Prop where
  live : ∀ t, nearest t = t → t < s.ledger.sweepUntil → ∀ key w, s.ledger.map.get key = some w →
    t - w.start < o.windowMs
  /-- The test of the code, where it does not round. -/
  exact_test : ∀ t, nearest t = t → t < s.ledger.sweepUntil → ∀ key w,
    s.ledger.map.get key = some w → nearest (t - w.start) = t - w.start →
      w.lapsed t o.windowMs = false
  bounded : s.ledger.map.size ≤ o.maxKeys
  spared : ∀ key nowMs other w, s.clock ≤ nowMs → s.ledger.map.get other = some w →
    w.lapsed nowMs o.windowMs = false →
      (s.ledger.windowFor o c key nowMs).2.map.get other = none →
        s.ledger.map.get key = none ∧ s.ledger.map.size = o.maxKeys ∧
          (s.ledger.reclaimExpired nowMs o.windowMs).map.size = s.ledger.map.size

/-- What every call keeps. -/
structure Sweeping (o : EgressOptions) (s : LedgerRun) : Prop where
  covered : Covered o.windowMs s.clock s.ledger
  bounded : s.ledger.map.size ≤ o.maxKeys

variable {s : LedgerRun}

theorem Sweeping.call (ho : o.Normalized) (h : Sweeping o s) {e : LedgerEvent} {s' : LedgerRun}
    (hcall : s.call o c e = some s') : Sweeping o s' := by
  have hwindow : 0 ≤ o.windowMs := le_trans (by decide) ho.window
  have hkeys : 1 ≤ o.maxKeys := le_trans (by decide) ho.keys
  cases e with
  | windowFor key nowMs =>
    simp only [LedgerRun.call] at hcall
    split at hcall
    · next hclock =>
      cases hcall
      exact ⟨(h.covered.mono hclock.1).windowFor hwindow key,
        size_windowFor_le hkeys ho.sample h.bounded key⟩
    · cases hcall
  | charge key messages deliveries bytes =>
    simp only [LedgerRun.call] at hcall
    split at hcall
    · cases hcall
    · next w hget =>
      cases hcall
      refine ⟨h.covered.spend hget messages deliveries bytes, ?_⟩
      simp only [size_set, hget, isSome_some, if_true]
      exact h.bounded

theorem sweeping_of_reaches (ho : o.Normalized) {es : List LedgerEvent}
    (h : (ledgerMachine o c).Reaches es s) : Sweeping o s := by
  refine h.invariant (I := Sweeping o) ?_ fun s e s' hs _ hstep => hs.call ho hstep
  exact ⟨covered_create le_rfl (le_trans (by decide) ho.window), zero_le _⟩

theorem floor_pos (ho : o.Normalized) : 0 < o.maxKeys - (o.maxKeys >>> slackShift) := by
  have hkeys := ho.keys
  rw [slackShift, shiftRight_eq_div_pow]
  omega

/-- Keys that are new, read at one time. -/
def fillRun (start : ℚ) (n : ℕ) : List LedgerEvent :=
  (List.range n).map fun i => .windowFor (fillKey i) start

theorem exists_reaches_fillRun (c : Ceilings) (ho : o.Normalized) (start : ℚ) (hstart : 0 ≤ start)
    (hdouble : nearest start = start) (hn : n ≤ o.maxKeys) :
    ∃ s, (ledgerMachine o c).Reaches (fillRun start n) s ∧ s.clock ≤ start ∧
      Filled start n s.ledger ∧ Advanced (nearest (start + o.windowMs))
        (sweepSteps * (n - (o.maxKeys - (o.maxKeys >>> slackShift)))) s.ledger := by
  have hwindow : 0 < o.windowMs := lt_of_lt_of_le (by decide) ho.window
  induction n with
  | zero =>
    refine ⟨_, .start, hstart, filled_create start, fun _ => of_none, .inr ⟨rfl, ?_⟩⟩
    rw [Nat.zero_sub, mul_zero]
    exact zero_le _
  | succ n ih =>
    obtain ⟨s, hs, hclock, hfilled, hadvanced⟩ := ih (le_of_succ_le hn)
    have hcovered := (sweeping_of_reaches ho hs).covered.mono hclock
    refine ⟨⟨(s.ledger.windowFor o c (fillKey n) start).2, start⟩, ?_, le_rfl,
      hfilled.windowFor hwindow hn, ?_⟩
    · rw [fillRun, List.range_succ, List.map_append]
      exact hs.next trivial (if_pos ⟨hclock, hdouble⟩)
    · rcases lt_or_ge n (o.maxKeys - (o.maxKeys >>> slackShift)) with hlt | hge
      · rw [windowFor_of_lt_floor hfilled hlt, Nat.sub_eq_zero_of_le hlt]
        rw [Nat.sub_eq_zero_of_le hlt.le] at hadvanced
        exact ⟨hadvanced.noted, hadvanced.advanced⟩
      · rw [Nat.succ_sub hge, Nat.mul_succ]
        refine hadvanced.windowFor hwindow hfilled hcovered hn ?_ hge
        exact lt_of_lt_of_le (floor_pos ho) hge

/-- A reading of the clock, sixteen milliseconds and a few units of the last place. -/
def tieStart : ℚ := 16 + 3 / 2 ^ 44

/-- A reading one second later, less one unit. -/
def tieMs : ℚ := 1016 + 1 / 2 ^ 43

/-- In every run, no window has lapsed before the horizon of the sweep, the ledger is within its
bound, and only a full ledger whose sweep freed nothing gives up a window that has not lapsed. -/
theorem swept_of_reaches (ho : o.Normalized) {es : List LedgerEvent}
    (h : (ledgerMachine o c).Reaches es s) : Swept o c s := by
  obtain ⟨hcovered, hbounded⟩ := sweeping_of_reaches ho h
  have hlive : ∀ t, nearest t = t → t < s.ledger.sweepUntil → ∀ key w,
      s.ledger.map.get key = some w → t - w.start < o.windowMs := by
    intro t ht hlt key w hget
    rw [sub_lt_iff_lt_add']
    exact hcovered.horizon key w hget t ht hlt
  refine ⟨hlive, fun t ht hlt key w hget hexact => ?_, hbounded,
    fun key nowMs other w _ hget hw hgone => ?_⟩
  · rw [Window.lapsed, hexact]
    exact decide_eq_false (not_le.mpr (hlive t ht hlt key w hget))
  · obtain ⟨hnone, hfull⟩ := full_of_evicted hget hw hgone
    have hle : (s.ledger.reclaimExpired nowMs o.windowMs).map.size ≤ s.ledger.map.size :=
      size_reclaimExpired_le s.ledger
    exact ⟨hnone, by omega, by omega⟩

theorem normalized_smallEgress : smallEgress.Normalized := ⟨by decide, by decide, by decide⟩

theorem swept_of_reaches_fillRun :
    ∃ s, (ledgerMachine smallEgress smallEgress.topic).Reaches (fillRun tieStart 1024) s ∧
      Swept smallEgress smallEgress.topic s := by
  obtain ⟨s, hs, -⟩ := exists_reaches_fillRun smallEgress.topic normalized_smallEgress tieStart
    (by decide +kernel) (by decide +kernel) (n := 1024) (by decide)
  exact ⟨s, hs, swept_of_reaches normalized_smallEgress hs⟩

/-- The test of the code rounds: a difference just below the window can come out as the window. -/
theorem lapsed_before_sweepUntil : ¬∀ es s,
    (ledgerMachine smallEgress smallEgress.topic).Reaches es s → ∀ t, s.clock ≤ t →
      nearest t = t → t < s.ledger.sweepUntil → ∀ key w, s.ledger.map.get key = some w →
        w.lapsed t smallEgress.windowMs = false := by
  intro hall
  obtain ⟨s, hs, hclock, hfilled, hnoted, hadvanced⟩ :=
    exists_reaches_fillRun smallEgress.topic normalized_smallEgress tieStart (by decide +kernel)
      (by decide +kernel) (n := 992) (by decide)
  have hcovered := (sweeping_of_reaches normalized_smallEgress hs).covered
  have hsweep : s.ledger.sweepUntil = nearest (tieStart + smallEgress.windowMs) := by
    refine hadvanced.resolve_right fun ⟨_, hle⟩ => ?_
    cases hcursor : s.ledger.evictCursor with
    | none =>
      rw [hcursor] at hle
      cases hle
    | some cursor =>
      rw [hcursor, getD_some] at hle
      have hadded := hfilled.added ▸ hcovered.cursor_le cursor hcursor
      exact absurd (hle.trans hadded) (by decide)
  obtain ⟨key, w, cursor, hnext⟩ := exists_next_zero (m := s.ledger.map)
    (by rw [hfilled.size]; decide)
  have hget := get_of_next hnext
  have hlapsed : w.lapsed tieMs smallEgress.windowMs = true := by
    rw [Window.lapsed, (hfilled.windows key w hget).1]
    decide +kernel
  have hfalse := hall _ s hs tieMs (hclock.trans (by decide +kernel)) (by decide +kernel)
    (by rw [hsweep]; decide +kernel) key w hget
  cases (hfalse.symm.trans hlapsed)

end AdapterWs.Egress
