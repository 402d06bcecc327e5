import AdapterWs.Crdt.Authority

/-!
# CRDT authority: what one event does to one record

`RecordStep` lists everything that can happen to a record, with the guard under which the
authority does it. `step_records` says that a step of the authority creates a record or moves it
along this list, so that an invariant of records is one case analysis, and never a walk through
the authority's events.
-/

namespace AdapterWs.Crdt

open List Option TopicRecord

variable {Y : Yjs} {Topic : Type} [DecidableEq Topic] {cfg : Config} {r' : TopicRecord Y Topic}
  {e : Event Topic}

/-- What is known of the event that changes a record. -/
structure Guard (Y : Yjs) (Topic : Type) where
  /-- What is known of a record when the deadline of a flush expires on it. -/
  expire : FlushToken → TopicRecord Y Topic → Prop
  /-- Whether the event may count a reference. -/
  counts : Prop

/-- Nothing is known. -/
def Guard.any (Y : Yjs) (Topic : Type) : Guard Y Topic := ⟨fun _ _ => True, True⟩

/-- One change of a record. `live` and `live'` say whether the topic map holds the record before
and after the event. -/
inductive RecordStep (cfg : Config) (may : Guard Y Topic)
    (live live' : Bool) : TopicRecord Y Topic → TopicRecord Y Topic → Prop
  /-- A new joiner cancels the unload. -/
  | rejoin (r) : RecordStep cfg may live live' r { r with unloading := false }
  /-- An `acquire` resolves. -/
  | refer (r) : may.counts → r.load.phase = .loaded →
      RecordStep cfg may live live' r { r with refs := r.refs + 1 }
  /-- A reference is released. -/
  | dropRef (r) : may.counts → live = true → r.loaded = true →
      RecordStep cfg may live live' r (r.dropRef cfg).2
  /-- An update is merged. -/
  | edit (r) (u8 : List UInt8) (mono : ℚ) : live = true → r.loaded = true →
      RecordStep cfg may live live' r (r.edit cfg u8 mono)
  /-- A flush covers the record. -/
  | flushOne (r) (token : FlushToken) : RecordStep cfg may live live' r (r.flushOne cfg token)
  /-- A flush is over. -/
  | forgetFlush (r) (token : FlushToken) : RecordStep cfg may live live' r (r.forgetFlush token)
  /-- A flush deadline expires. -/
  | expire (r) (token : FlushToken) (reason : String) : may.expire token r →
      RecordStep cfg may live live' r (r.expire cfg live token reason)
  /-- A timer fires. -/
  | fire (r) : r.debounceTimer.isSome = true →
      RecordStep cfg may live live' r (r.fire cfg live)
  /-- The load moves on without an effect on the replica. -/
  | loading (r) (phase : LoadPhase) : phase ≠ .loaded → r.load.phase ≠ .loaded →
      (∀ err, r.load.phase ≠ .failed err) →
      RecordStep cfg may live live' r { r with load := { r.load with phase } }
  /-- The load succeeds. -/
  | hydrate (r r') (malformed : String) (a : LoadAnswer) : r.load.phase = .answered a →
      r.hydrate true malformed a = .ok r' → RecordStep cfg may live live' r r'
  /-- A store's turn comes. -/
  | dispatchStore (r) (k : ℕ) (c : StoreCall) : r.stores[k]? = some c → c.phase = .queued →
      r.chainReady k = true → RecordStep cfg may live live' r (r.dispatchStore k)
  /-- The host answers a store. -/
  | answerStore (r) (k : ℕ) (c : StoreCall) (a : StoreAnswer) : r.stores[k]? = some c →
      c.phase = .dispatched → RecordStep cfg may live live' r (r.answerStore k a)
  /-- A store's reaction runs. -/
  | settleStore (r) (k : ℕ) (c : StoreCall) (a : StoreAnswer) : r.stores[k]? = some c →
      c.phase = .answered a → ((r.settleStore cfg live k c a).1 = .unload → live' = false) →
      RecordStep cfg may live live' r (r.settleStore cfg live k c a).2
  /-- A store's chain resolves. -/
  | settleChain (r) (k : ℕ) (c : StoreCall) (outcome : Outcome) : r.stores[k]? = some c →
      c.phase = .settled outcome → c.chain = none →
      RecordStep cfg may live live' r (r.settleChain k outcome)
  /-- The record leaves the topic map. -/
  | unload (r) (reason : String) : live' = false →
      RecordStep cfg may live live' r (r.unload reason)

/-- Some record steps. -/
abbrev RecordSteps (cfg : Config) (may : Guard Y Topic)
    (live live' : Bool) : TopicRecord Y Topic → TopicRecord Y Topic → Prop :=
  Relation.ReflTransGen (RecordStep cfg may live live')

omit [DecidableEq Topic] in
theorem RecordSteps.invariant {may : Guard Y Topic} {live live' : Bool}
    {I : TopicRecord Y Topic → Prop}
    (hstep : ∀ r r', I r → RecordStep cfg may live live' r r' → I r') {r : TopicRecord Y Topic}
    (h : RecordSteps cfg may live live' r r') (hr : I r) : I r' := by
  induction h with
  | refl => exact hr
  | tail _ hs ih => exact hstep _ _ ih hs

namespace Authority

variable {s : Authority Y Topic} {i j : ℕ}

/-! ## Reading the heap after an update -/

theorem getElem?_update (f : TopicRecord Y Topic → TopicRecord Y Topic) :
    (s.update i f).recs[j]? = if i = j then (s.recs[j]?).map f else s.recs[j]? := by
  simp only [update, getElem?_modify]
  by_cases h : i = j
  · subst h; simp
  · simp [h]

theorem getElem?_updateAll (p : ℕ → Bool) (f : ℕ → TopicRecord Y Topic → TopicRecord Y Topic) :
    (s.updateAll p f).recs[j]? =
      (s.recs[j]?).map fun r => if p j then f j r else r := by
  simp [updateAll]

theorem getElem?_unload :
    (s.unload i).recs[j]? =
      if i = j then (s.recs[j]?).map (TopicRecord.unload TopicRecord.unloadedError)
      else s.recs[j]? := by
  unfold unload
  cases hr : s.recs[i]? with
  | none =>
    by_cases h : i = j
    · subst h; simp [hr]
    · simp [h]
  | some r => exact getElem?_update _

theorem current_eq (s : Authority Y Topic) {r : TopicRecord Y Topic} (hr : s.recs[i]? = some r) :
    s.current i = decide (s.topics.get r.topic = some i) := by
  simp [current, hr]

theorem live_iff {r : TopicRecord Y Topic} (hr : s.recs[i]? = some r) :
    s.live i = true ↔ s.destroyed = false ∧ s.topics.get r.topic = some i := by
  simp [live, current_eq s hr]

/-- The topic map agrees with the heap, and is empty once the authority was destroyed. -/
structure Mapped (s : Authority Y Topic) : Prop where
  /-- A topic maps to a record made for it. -/
  topic_eq : ∀ t i, s.topics.get t = some i → ∃ r, s.recs[i]? = some r ∧ r.topic = t
  /-- Nothing is mapped after a teardown. -/
  unmapped : s.destroyed = true → ∀ t, s.topics.get t = none

theorem Mapped.live_of_get (h : Mapped s) {t : Topic} (ht : s.topics.get t = some i) :
    s.live i = true ∧ s.destroyed = false := by
  obtain ⟨r, hr, rfl⟩ := h.topic_eq t i ht
  have hd : s.destroyed = false := by
    by_contra hd
    rw [h.unmapped (by simpa using hd)] at ht
    cases ht
  exact ⟨(live_iff hr).mpr ⟨hd, ht⟩, hd⟩

theorem live_unload_self : (s.unload i).live i = false := by
  cases hr : s.recs[i]? with
  | none => simp [unload, live, current, hr]
  | some r =>
    have hr' : (s.unload i).recs[i]? = some (r.unload unloadedError) := by
      rw [getElem?_unload, if_pos rfl, hr, map_some]
    rw [← Bool.not_eq_true, live_iff hr']
    rintro ⟨-, ht⟩
    have htopic : (r.unload unloadedError).topic = r.topic := rfl
    rw [htopic] at ht
    simp only [unload, hr] at ht
    by_cases h : s.topics.get r.topic = some i
    · rw [if_pos h, JsMap.get_delete_self] at ht
      cases ht
    · rw [if_neg h] at ht
      exact h ht

/-! ## Records move by record steps -/

section Moves

variable {may : Guard Y Topic} {s' : Authority Y Topic}
  {f : TopicRecord Y Topic → TopicRecord Y Topic} {t : Authority Y Topic}

/-- A change of the authority that creates no record: every record moves by record steps, and
topics only leave the map. -/
structure Moves (cfg : Config) (may : Guard Y Topic)
    (s s' : Authority Y Topic) : Prop where
  /-- Every record comes from the record in its place. -/
  records : ∀ j r', s'.recs[j]? = some r' →
    ∃ r, s.recs[j]? = some r ∧ RecordSteps cfg may (s.live j) (s'.live j) r r'
  /-- The heap keeps its length. -/
  length_eq : s'.recs.length = s.recs.length
  /-- A topic keeps its record or loses it. -/
  topics_sub : ∀ t i, s'.topics.get t = some i → s.topics.get t = some i
  /-- A teardown empties the map. -/
  destroyed : s'.destroyed = s.destroyed ∨
    s'.destroyed = true ∧ ∀ t, s'.topics.get t = none

theorem moves_of_recs_eq (h : s'.recs = s.recs) (ht : s'.topics = s.topics)
    (hd : s'.destroyed = s.destroyed) : Moves cfg may s s' := by
  refine ⟨fun j r' hr' => ⟨r', h ▸ hr', .refl⟩, by rw [h], fun t i hi => ht ▸ hi, .inl hd⟩

theorem moves_update (hrecs : s'.recs = (s.update i f).recs) (ht : s'.topics = s.topics)
    (hd : s'.destroyed = s.destroyed)
    (hf : ∀ r, s.recs[i]? = some r → RecordSteps cfg may (s.live i) (s'.live i) r (f r)) :
    Moves cfg may s s' := by
  refine ⟨fun j r' hr' => ?_, by rw [hrecs]; exact length_modify .., fun t i hi => ht ▸ hi,
    .inl hd⟩
  rw [hrecs, getElem?_update] at hr'
  by_cases hij : i = j
  · subst hij
    rw [if_pos rfl, map_eq_some_iff] at hr'
    obtain ⟨r, hr, rfl⟩ := hr'
    exact ⟨r, hr, hf r hr⟩
  · rw [if_neg hij] at hr'
    exact ⟨r', hr', .refl⟩

/-- Two updates in a row, the second of which may be made of any record. -/
theorem moves_updateAll_updateAll {p q : ℕ → Bool}
    {f g : ℕ → TopicRecord Y Topic → TopicRecord Y Topic}
    (hrecs : s'.recs = ((s.updateAll p f).updateAll q g).recs) (ht : s'.topics = s.topics)
    (hd : s'.destroyed = s.destroyed)
    (hf : ∀ j r, p j = true → s.recs[j]? = some r →
      RecordSteps cfg may (s.live j) (s'.live j) r (f j r))
    (hg : ∀ j r, RecordSteps cfg may (s.live j) (s'.live j) r (g j r)) : Moves cfg may s s' := by
  refine ⟨fun j r' hr' => ?_, ?_, fun t i hi => ht ▸ hi, .inl hd⟩
  · rw [hrecs, getElem?_updateAll, getElem?_updateAll, Option.map_map,
      map_eq_some_iff] at hr'
    obtain ⟨r, hr, rfl⟩ := hr'
    refine ⟨r, hr, ?_⟩
    have hfirst : RecordSteps cfg may (s.live j) (s'.live j) r (if p j then f j r else r) := by
      by_cases hp : p j = true
      · rw [if_pos hp]
        exact hf j r hp hr
      · rw [if_neg hp]
    simp only [Function.comp_apply]
    by_cases hq : q j = true
    · rw [if_pos hq]
      exact hfirst.trans (hg j _)
    · rw [if_neg hq]
      exact hfirst
  · rw [hrecs]
    simp [updateAll]

theorem moves_updateAll {p : ℕ → Bool} {f : ℕ → TopicRecord Y Topic → TopicRecord Y Topic}
    (hrecs : s'.recs = (s.updateAll p f).recs) (ht : s'.topics = s.topics)
    (hd : s'.destroyed = s.destroyed)
    (hf : ∀ j r, p j = true → s.recs[j]? = some r →
      RecordSteps cfg may (s.live j) (s'.live j) r (f j r)) : Moves cfg may s s' := by
  refine moves_updateAll_updateAll (q := fun _ => false) (g := fun _ r => r) ?_ ht hd hf
    fun _ _ => .refl
  rw [hrecs]
  refine ext_getElem? fun j => ?_
  simp only [updateAll, getElem?_mapIdx, Bool.false_eq_true, if_false]
  cases s.recs[j]? <;> rfl

theorem topics_unload_sub {t : Topic} {j : ℕ} (h : (s.unload i).topics.get t = some j) :
    s.topics.get t = some j := by
  unfold unload at h
  cases hr : s.recs[i]? with
  | none => simpa [hr] using h
  | some r =>
    simp only [hr] at h
    by_cases hc : s.topics.get r.topic = some i
    · rw [if_pos hc, JsMap.get_delete] at h
      by_cases ht : r.topic = t
      · rw [if_pos ht] at h
        cases h
      · rwa [if_neg ht] at h
    · rwa [if_neg hc] at h

theorem destroyed_unload : (s.unload i).destroyed = s.destroyed := by
  unfold unload
  cases s.recs[i]? <;> rfl

theorem length_unload : (s.unload i).recs.length = s.recs.length := by
  unfold unload
  cases s.recs[i]? with
  | none => rfl
  | some r => exact length_modify ..

theorem moves_update_unload (ht : t.recs = (s.update i f).recs) (htopics : t.topics = s.topics)
    (hd : t.destroyed = s.destroyed)
    (hf : ∀ r, s.recs[i]? = some r → RecordSteps cfg may (s.live i) false r (f r)) :
    Moves cfg may s (t.unload i) := by
  refine ⟨fun j r' hr' => ?_, ?_, fun t i hi => htopics ▸ topics_unload_sub hi, ?_⟩
  · rw [getElem?_unload, ht, getElem?_update] at hr'
    by_cases hij : i = j
    · subst hij
      rw [if_pos rfl, if_pos rfl, Option.map_map, Option.map_eq_some_iff] at hr'
      obtain ⟨r, hr, rfl⟩ := hr'
      rw [live_unload_self]
      exact ⟨r, hr, (hf r hr).tail (.unload (f r) _ rfl)⟩
    · rw [if_neg hij, if_neg hij] at hr'
      exact ⟨r', hr', .refl⟩
  · rw [length_unload, ht]
    exact length_modify ..
  · exact .inl (destroyed_unload.trans hd)

theorem moves_unload (ht : t.recs = s.recs) (htopics : t.topics = s.topics)
    (hd : t.destroyed = s.destroyed) : Moves cfg may s (t.unload i) := by
  refine moves_update_unload (f := fun r => r) ?_ htopics hd fun r _ => .refl
  rw [ht]
  refine ext_getElem? fun j => ?_
  rw [getElem?_update]
  by_cases hij : i = j
  · rw [if_pos hij]
    cases s.recs[j]? <;> rfl
  · rw [if_neg hij]

/-- The columns of promises and reports do not concern the records. -/
theorem Moves.columns (h : Moves cfg may s t) (acquisitions : List Acquisition)
    (flushes : List (Flush Topic)) (deferred : List DeferredRelease)
    (reported : List (String × Topic × Op)) :
    Moves cfg may s { t with acquisitions, flushes, deferred, reported } :=
  ⟨h.records, h.length_eq, h.topics_sub, h.destroyed⟩

/-! ## The events -/

theorem moves_settleAcquire (hcounts : may.counts) {a : ℕ} (h : s.settleAcquire a = some s') :
    Moves cfg may s s' := by
  unfold settleAcquire at h
  split at h
  · rename_i i released _
    cases hr : s.recs[i]? with
    | none => simp [hr] at h
    | some r =>
      simp only [hr, bind_eq_bind, bind_some] at h
      split at h
      · rename_i hp
        cases h
        refine moves_update rfl rfl rfl fun r' hr' => .single (.refer r' hcounts ?_)
        rw [hr, some.injEq] at hr'
        rw [← hr', hp]
      · cases h
        exact moves_of_recs_eq rfl rfl rfl
      · cases h
  · cases h

theorem moves_release (hm : Mapped s) (hcounts : may.counts) (topic : Topic) :
    Moves cfg may s (s.release cfg topic) := by
  unfold release
  cases ht : s.topics.get topic with
  | none => exact moves_of_recs_eq rfl rfl rfl
  | some i =>
    simp only
    cases hr : s.recs[i]? with
    | none => exact moves_of_recs_eq rfl rfl rfl
    | some r =>
      simp only
      by_cases hl : r.loaded = true
      · rw [if_pos hl]
        have hf : ∀ live' r', s.recs[i]? = some r' →
            RecordSteps cfg may (s.live i) live' r' (r'.dropRef cfg).2 := by
          intro live' r' hr'
          rw [hr, some.injEq] at hr'
          exact .single (.dropRef r' hcounts (hm.live_of_get ht).1 (hr' ▸ hl))
        by_cases hd : (r.dropRef cfg).1 = true
        · rw [if_pos hd]
          exact moves_update rfl rfl rfl (hf _)
        · rw [if_neg hd]
          exact moves_update rfl rfl rfl (hf _)
      · rw [if_neg hl]
        exact moves_of_recs_eq rfl rfl rfl

theorem moves_releaseBy (hm : Mapped s) (hcounts : may.counts) {topic : Topic} {holder : Option ℕ}
    (h : s.releaseBy cfg topic holder = some s') : Moves cfg may s s' := by
  cases holder with
  | none =>
    rw [releaseBy] at h
    cases h
    exact moves_release hm hcounts topic
  | some a =>
    rw [releaseBy] at h
    by_cases hh : s.holds a topic = true
    · rw [if_pos hh] at h
      cases h
      exact (moves_release hm hcounts topic).columns ..
    · rw [if_neg hh] at h
      cases h

theorem moves_settleRelease {d : ℕ} (h : s.settleRelease cfg d = some s') :
    Moves cfg may s s' := by
  unfold settleRelease at h
  split at h
  · rename_i i awaits _
    split at h
    · split at h
      · cases h
        exact moves_unload rfl rfl rfl
      · cases h
        exact moves_of_recs_eq rfl rfl rfl
    · cases h
  · cases h

theorem moves_applyUpdate (hm : Mapped s) (topic : Topic) (bytes : JsBytes) (mono : ℚ) :
    Moves cfg may s (s.applyUpdate cfg topic bytes mono).1 := by
  unfold applyUpdate
  cases ht : s.topics.get topic with
  | none => exact moves_of_recs_eq rfl rfl rfl
  | some i =>
    simp only
    cases hr : s.recs[i]? with
    | none => exact moves_of_recs_eq rfl rfl rfl
    | some r =>
      simp only
      obtain ⟨hlive, hd⟩ := hm.live_of_get ht
      by_cases hl : (!r.loaded || s.destroyed) = true
      · rw [if_pos hl]
        exact moves_of_recs_eq rfl rfl rfl
      · rw [if_neg hl]
        cases hb : toBytes bytes with
        | none => exact moves_of_recs_eq rfl rfl rfl
        | some u8 =>
          simp only
          by_cases hu : u8 = []
          · rw [if_pos hu]
            exact moves_of_recs_eq rfl rfl rfl
          · rw [if_neg hu]
            refine moves_update rfl rfl rfl fun r' hr' => .single (.edit r' u8 mono hlive ?_)
            rw [hr] at hr'
            cases hr'
            rw [hd, Bool.or_false, Bool.not_eq_true, Bool.not_eq_false'] at hl
            exact hl

theorem moves_runFlush (targets : List (Topic × ℕ)) (timeout : WithTop ℚ) (now : ℚ) :
    Moves cfg may s (s.runFlush cfg targets timeout now) := by
  unfold runFlush
  by_cases ht : targets = []
  · rw [if_pos ht]
    exact moves_updateAll_updateAll rfl rfl rfl (fun _ r _ _ => .single (.flushOne r _))
      fun _ r => .single (.forgetFlush r _)
  · rw [if_neg ht]
    exact moves_updateAll rfl rfl rfl fun _ r _ _ => .single (.flushOne r _)

theorem moves_persistNow (topic options : FlushArg Topic) (now : ℚ) :
    Moves cfg may s (s.persistNow cfg topic options now) := by
  unfold persistNow
  cases flushArgs cfg topic options with
  | error err => exact moves_of_recs_eq rfl rfl rfl
  | ok args => exact moves_runFlush _ _ _

theorem moves_settleFlush {f : ℕ} {topic : Topic} (h : s.settleFlush cfg f topic = some s') :
    Moves cfg may s s' := by
  simp only [settleFlush, bind_eq_bind, bind_eq_some_iff] at h
  obtain ⟨fl, -, target, -, outcome, -, h⟩ := h
  split at h
  · simp only [Option.pure_def, Option.some.injEq] at h
    split at h
    · subst h
      exact moves_updateAll rfl rfl rfl fun _ r _ _ => .single (.forgetFlush r fl.token)
    · subst h
      exact moves_of_recs_eq rfl rfl rfl
  · cases h

/-- What a guard says holds of an event. -/
structure Allows (may : Guard Y Topic) (s : Authority Y Topic) (e : Event Topic) : Prop where
  /-- Of the records on which the deadline of a flush expires. -/
  expire : ∀ f fl t r, e = .flushDeadline f → s.flushes[f]? = some fl → fl.timer = true →
    t ∈ fl.targets → t.topic ∈ fl.pending → s.recs[t.record]? = some r → may.expire fl.token r
  /-- Of an `acquire`. -/
  acquireSettles : ∀ a, e = .acquireSettles a → may.counts
  /-- Of a `release`. -/
  release : ∀ topic holder, e = .release topic holder → may.counts

theorem allows_any : Allows (Guard.any Y Topic) s e :=
  ⟨fun _ _ _ _ _ _ _ _ _ _ => trivial, fun _ _ => trivial, fun _ _ _ => trivial⟩

theorem moves_expireFlush {f : ℕ} (hmay : Allows may s (.flushDeadline f))
    (h : s.expireFlush cfg f = some s') : Moves cfg may s s' := by
  simp only [expireFlush, bind_eq_bind, bind_eq_some_iff] at h
  obtain ⟨fl, hfl, h⟩ := h
  split at h
  · rename_i htimer
    simp only [Option.pure_def] at h
    cases h
    refine moves_updateAll_updateAll rfl rfl rfl (fun j r hin hr => ?_)
      fun _ r => .single (.forgetFlush r fl.token)
    obtain ⟨t, ht, htj⟩ := mem_map.mp (of_decide_eq_true hin)
    obtain ⟨ht, hp⟩ := mem_filter.mp ht
    exact .single (.expire r _ _ (hmay.expire f fl t r rfl hfl htimer ht (by simpa using hp) (htj ▸ hr)))
  · cases h

theorem reportError_eq (s : Authority Y Topic) (err : String) (topic : Topic) (op : Op) :
    s.reportError cfg err topic op =
      { s with reported := (s.reportError cfg err topic op).reported } := by
  unfold reportError
  by_cases h : cfg.hasOnError = true
  · rw [if_pos h]
  · rw [if_neg h]

theorem reportRejection_eq (s : Authority Y Topic) (c : StoreCall) (a : StoreAnswer)
    (topic : Topic) : s.reportRejection cfg c a topic =
      { s with reported := (s.reportRejection cfg c a topic).reported } := by
  cases a with
  | resolved refused => rfl
  | rejected err =>
    simp only [reportRejection]
    by_cases h : (!c.silent && !s.destroyed) = true
    · rw [if_pos h]
      exact reportError_eq s err topic .store
    · rw [if_neg h]

theorem moves_settleLoad {malformed : String} (h : s.settleLoad cfg i malformed = some s') :
    Moves cfg may s s' := by
  simp only [settleLoad, bind_eq_bind, bind_eq_some_iff] at h
  obtain ⟨r, hr, h⟩ := h
  split at h
  · rename_i a hp
    split at h
    · rename_i r' hh
      cases h
      refine moves_update rfl rfl rfl fun r₀ hr₀ => ?_
      rw [hr] at hr₀
      cases hr₀
      by_cases hc : s.current i = true
      · rw [hc] at hh
        exact .single (.hydrate r r' malformed a hp hh)
      · rw [Bool.not_eq_true] at hc
        rw [hc] at hh
        cases a <;> cases hh
    · rename_i err hh
      rw [some.injEq] at h
      have hfail : ∀ r₀, s.recs[i]? = some r₀ → RecordSteps cfg may (s.live i) false r₀
          { r₀ with load := { r₀.load with phase := .failed err } } := by
        intro r₀ hr₀
        rw [hr] at hr₀
        cases hr₀
        refine .single (.loading r _ (by simp) (by simp [hp]) (by simp [hp]))
      split at h
      · subst h
        rw [reportError_eq]
        exact (moves_update_unload rfl rfl rfl hfail).columns ..
      · subst h
        exact moves_update_unload rfl rfl rfl hfail
  · cases h

theorem moves_settleStore {k : ℕ} (h : s.settleStore cfg i k = some s') :
    Moves cfg may s s' := by
  simp only [settleStore, bind_eq_bind, bind_eq_some_iff] at h
  obtain ⟨r, hr, c, hc, h⟩ := h
  split at h
  · rename_i a hp
    generalize hout : r.settleStore cfg (s.live i) k c a = out at h
    have hsettle : ∀ live' r₀, s.recs[i]? = some r₀ → (out.1 = .unload → live' = false) →
        RecordSteps cfg may (s.live i) live' r₀ out.2 := by
      intro live' r₀ hr₀ hv
      rw [hr, some.injEq] at hr₀
      subst hr₀ hout
      exact .single (.settleStore r k c a hc hp hv)
    rw [reportRejection_eq] at h
    split at h
    · rename_i hv
      cases h
      exact moves_update rfl rfl rfl fun r₀ hr₀ => hsettle _ r₀ hr₀ (by simp [hv])
    · cases h
      exact moves_update_unload rfl rfl rfl fun r₀ hr₀ =>
        hsettle false r₀ hr₀ fun _ => rfl
  · cases h

theorem moves_onStore {k : ℕ} {enabled : TopicRecord Y Topic → StoreCall → Bool}
    (hf : ∀ r c, r.stores[k]? = some c → enabled r c = true →
      RecordSteps cfg may (s.live i) (s'.live i) r (f r)) (h : s.onStore i k enabled f = some s') :
    Moves cfg may s s' := by
  simp only [onStore, bind_eq_bind, bind_eq_some_iff] at h
  obtain ⟨r, hr, c, hc, h⟩ := h
  split at h
  · rename_i hen
    cases h
    refine moves_update rfl rfl rfl fun r₀ hr₀ => ?_
    rw [hr] at hr₀
    cases hr₀
    exact hf r c hc hen
  · cases h

theorem moves_settleChain {k : ℕ} (h : s.settleChain i k = some s') : Moves cfg may s s' := by
  simp only [settleChain, bind_eq_bind, bind_eq_some_iff] at h
  obtain ⟨r, hr, c, hc, h⟩ := h
  split at h
  · rename_i outcome hp
    split at h
    · rename_i hnone
      cases h
      refine moves_update rfl rfl rfl fun r₀ hr₀ => ?_
      rw [hr] at hr₀
      cases hr₀
      exact .single (.settleChain r k c outcome hc hp (by simpa using hnone))
    · cases h
  · cases h

theorem moves_drop (topic : Topic) : Moves cfg may s (s.drop topic) := by
  unfold drop
  cases ht : s.topics.get topic with
  | none => exact moves_of_recs_eq rfl rfl rfl
  | some i => exact moves_unload rfl rfl rfl

theorem moves_destroy : Moves cfg may s s.destroy := by
  unfold destroy
  by_cases hd : s.destroyed = true
  · rw [if_pos hd]
    exact moves_of_recs_eq rfl rfl rfl
  · rw [if_neg hd]
    refine ⟨fun j r' hr' => ?_, ?_, (fun t i hi => by cases hi), .inr ⟨rfl, fun _ => rfl⟩⟩
    · rw [getElem?_updateAll, map_eq_some_iff] at hr'
      obtain ⟨r, hr, rfl⟩ := hr'
      refine ⟨r, hr, ?_⟩
      by_cases hc : s.current j = true
      · rw [if_pos hc]
        exact .single (.unload r _ rfl)
      · rw [if_neg hc]
    · simp [updateAll]

/-- A cold `acquire`: the heap grows by one fresh record, which the topic maps to. -/
structure Born (cfg : Config) (s s' : Authority Y Topic) (t : Topic) (id : UInt32) : Prop where
  /-- The record is new. -/
  recs_eq : s'.recs = s.recs ++ [TopicRecord.fresh Y cfg t id]
  /-- The topic had none. -/
  cold : s.topics.get t = none
  /-- The topic maps to it. -/
  topics_eq : s'.topics = s.topics.set t s.recs.length
  /-- The authority was not torn down. -/
  alive : s.destroyed = false ∧ s'.destroyed = false

/-- Every event changes every record by record steps only, or creates one record. -/
theorem moves_step (hm : Mapped s) (hmay : Allows may s e) (h : s.step cfg e = some s') :
    Moves cfg may s s' ∨ ∃ t id, e = .acquire t id ∧ Born cfg s s' t id := by
  cases e with
  | acquire topic clientID =>
    simp only [step, acquire, some.injEq] at h
    by_cases hd : s.destroyed = true
    · rw [if_pos hd] at h
      subst h
      exact .inl (moves_of_recs_eq rfl rfl rfl)
    · rw [if_neg hd] at h
      cases ht : s.topics.get topic with
      | some i =>
        simp only [ht] at h
        subst h
        exact .inl (moves_update rfl rfl rfl fun r _ => .single (.rejoin r))
      | none =>
        simp only [ht] at h
        subst h
        rw [Bool.not_eq_true] at hd
        exact .inr ⟨topic, clientID, rfl, rfl, ht, rfl, hd, hd⟩
  | acquireSettles a => exact .inl (moves_settleAcquire (hmay.acquireSettles a rfl) h)
  | release topic holder => exact .inl (moves_releaseBy hm (hmay.release topic holder rfl) h)
  | releaseSettles d => exact .inl (moves_settleRelease h)
  | applyUpdate topic bytes mono =>
    rw [step] at h
    cases h
    exact .inl (moves_applyUpdate hm topic bytes mono)
  | persistNow topic options now =>
    rw [step] at h
    cases h
    exact .inl (moves_persistNow topic options now)
  | flushSettles f topic => exact .inl (moves_settleFlush h)
  | flushDeadline f => exact .inl (moves_expireFlush hmay h)
  | timerFires i =>
    rw [step] at h
    split at h
    · rename_i hen
      cases h
      refine .inl (moves_update rfl rfl rfl fun r hr => .single (.fire r ?_))
      rwa [hr, any_some] at hen
    · cases h
  | loadDispatches i =>
    rw [step] at h
    split at h
    · rename_i hen
      cases h
      refine .inl (moves_update rfl rfl rfl fun r hr => ?_)
      rw [hr, any_some, decide_eq_true_eq] at hen
      refine .single (.loading r _ ?_ (by simp [hen]) (by simp [hen]))
      by_cases hl : cfg.hasLoad = true
      · simp [hl]
      · simp [hl]
    · cases h
  | loadAnswers i a =>
    rw [step] at h
    split at h
    · rename_i hen
      cases h
      refine .inl (moves_update rfl rfl rfl fun r hr => ?_)
      rw [hr, any_some, decide_eq_true_eq] at hen
      exact .single (.loading r _ (by simp) (by simp [hen]) (by simp [hen]))
    · cases h
  | loadSettles i malformed => exact .inl (moves_settleLoad h)
  | storeDispatches i k =>
    refine .inl (moves_onStore (fun r c hc hen => ?_) h)
    rw [Bool.and_eq_true, decide_eq_true_eq] at hen
    exact .single (.dispatchStore r k c hc hen.1 hen.2)
  | storeAnswers i k a =>
    refine .inl (moves_onStore (fun r c hc hen => ?_) h)
    rw [decide_eq_true_eq] at hen
    exact .single (.answerStore r k c a hc hen)
  | storeSettles i k => exact .inl (moves_settleStore h)
  | chainSettles i k => exact .inl (moves_settleChain h)
  | drop topic =>
    rw [step] at h
    cases h
    exact .inl (moves_drop topic)
  | destroy =>
    rw [step] at h
    cases h
    exact .inl moves_destroy

end Moves

end Authority

/-! ## The topic of a record, and the map of topics -/

section Fields

variable (r : TopicRecord Y Topic) (flush : Option FlushToken)

section

omit [DecidableEq Topic]

/-- Arming a store touches the schedule and appends one store. -/
theorem storeNow_eq : r.storeNow cfg flush =
    { r with
      debounceTimer := none, maxWaitStart := none, dirty := false, updatesSinceStore := 0
      stores := r.stores ++ if cfg.hasStore then [r.capture flush] else [] } := by
  unfold storeNow
  by_cases h : cfg.hasStore = true
  · simp only [if_pos h]
    rfl
  · simp only [if_neg h, append_nil]
    rfl

theorem requeue_eq (attempt : ℕ) : r.requeue cfg attempt =
    { r with
      storeAttempt := attempt, dirty := true
      debounceTimer := some (r.debounceTimer.getD (max 1000 cfg.debounceMaxWait)) } := by
  unfold requeue armRetry
  cases h : r.debounceTimer with
  | none => rfl
  | some wait => simp

/-- A load that succeeds loads the replica, and touches nothing else but the document. -/
theorem hydrate_ok {current : Bool} {malformed : String} {a : LoadAnswer} {r : TopicRecord Y Topic}
    (h : r.hydrate current malformed a = .ok r') :
    ∃ doc, r' = { r with doc, loaded := true, load := { r.load with phase := .loaded } } ∧
      (doc = r.doc ∨ ∃ bytes, doc = (Y.applyUpdate r.doc bytes).1) := by
  unfold hydrate at h
  split at h
  · cases h
  · split at h
    · split at h
      · cases h
        exact ⟨r.doc, rfl, .inl rfl⟩
      · split at h
        · cases h
        · rename_i bytes _
          simp only at h
          split at h
          · cases h
            exact ⟨_, rfl, .inr ⟨bytes, rfl⟩⟩
          · cases h
    · cases h

end

end Fields

omit [DecidableEq Topic] in
/-- A step is about the same topic, and leaves the references unless it is one of them. -/
theorem RecordStep.frame {may : Guard Y Topic} {live live' : Bool} {r : TopicRecord Y Topic}
    (h : RecordStep cfg may live live' r r') :
    r'.topic = r.topic ∧ (¬ may.counts → r'.refs = r.refs) := by
  cases h with
  | rejoin => exact ⟨rfl, fun _ => rfl⟩
  | refer hcounts => exact ⟨rfl, absurd hcounts⟩
  | dropRef hcounts =>
    refine ⟨?_, absurd hcounts⟩
    simp only [TopicRecord.dropRef, storeNow_eq]
    split
    · rfl
    · split <;> rfl
  | edit =>
    simp only [TopicRecord.edit, TopicRecord.scheduleStore, storeNow_eq]
    split
    · split
      · exact ⟨rfl, fun _ => rfl⟩
      · split <;> exact ⟨rfl, fun _ => rfl⟩
    · exact ⟨rfl, fun _ => rfl⟩
  | flushOne =>
    simp only [TopicRecord.flushOne, storeNow_eq]
    split <;> exact ⟨rfl, fun _ => rfl⟩
  | forgetFlush => exact ⟨rfl, fun _ => rfl⟩
  | expire =>
    simp only [TopicRecord.expire, requeue_eq]
    split
    · exact ⟨rfl, fun _ => rfl⟩
    · split <;> exact ⟨rfl, fun _ => rfl⟩
  | fire =>
    simp only [TopicRecord.fire, storeNow_eq]
    split <;> exact ⟨rfl, fun _ => rfl⟩
  | loading => exact ⟨rfl, fun _ => rfl⟩
  | hydrate _ malformed a hp hh =>
    obtain ⟨doc, rfl, -⟩ := hydrate_ok hh
    exact ⟨rfl, fun _ => rfl⟩
  | dispatchStore => exact ⟨rfl, fun _ => rfl⟩
  | answerStore => exact ⟨rfl, fun _ => rfl⟩
  | settleStore =>
    simp only [TopicRecord.settleStore, storeNow_eq, requeue_eq]
    split
    · exact ⟨rfl, fun _ => rfl⟩
    · split
      · exact ⟨rfl, fun _ => rfl⟩
      · split <;> exact ⟨rfl, fun _ => rfl⟩
      · split
        · split <;> exact ⟨rfl, fun _ => rfl⟩
        · exact ⟨rfl, fun _ => rfl⟩
  | settleChain => exact ⟨rfl, fun _ => rfl⟩
  | unload => exact ⟨rfl, fun _ => rfl⟩

namespace Authority

variable {s s' : Authority Y Topic} {may : Guard Y Topic}

theorem Moves.topic_eq (h : Moves cfg may s s') {j : ℕ} (hr' : s'.recs[j]? = some r') :
    ∃ r, s.recs[j]? = some r ∧ r'.topic = r.topic := by
  obtain ⟨r, hr, hsteps⟩ := h.records j r' hr'
  refine ⟨r, hr, ?_⟩
  exact RecordSteps.invariant (I := fun q => q.topic = r.topic)
    (fun _ _ hq hs => hs.frame.1.trans hq) hsteps rfl

/-- A record that left the topic map does not come back. -/
theorem Moves.live_of_live (h : Moves cfg may s s') {j : ℕ} (hl : s'.live j = true) :
    s.live j = true := by
  cases hr' : s'.recs[j]? with
  | none => simp [live, current, hr'] at hl
  | some r' =>
    obtain ⟨r, hr, ht⟩ := h.topic_eq hr'
    obtain ⟨hd, hg⟩ := (live_iff hr').mp hl
    refine (live_iff hr).mpr ⟨?_, ht ▸ h.topics_sub _ _ hg⟩
    rcases h.destroyed with hd' | ⟨hd', -⟩
    · rw [← hd', hd]
    · rw [hd] at hd'
      cases hd'

theorem mapped_moves (hm : Mapped s) (h : Moves cfg may s s') : Mapped s' := by
  refine ⟨fun t i ht => ?_, fun hd t => ?_⟩
  · obtain ⟨r, hr, rfl⟩ := hm.topic_eq t i (h.topics_sub t i ht)
    have hlt : i < s'.recs.length := by
      rw [h.length_eq]
      exact (List.getElem?_eq_some_iff.mp hr).1
    obtain ⟨r₀, hr₀, ht₀⟩ := h.topic_eq (getElem?_eq_getElem hlt)
    rw [hr, some.injEq] at hr₀
    exact ⟨_, getElem?_eq_getElem hlt, by rw [ht₀, hr₀]⟩
  · rcases h.destroyed with hd' | ⟨-, hnone⟩
    · cases ht : s'.topics.get t with
      | none => rfl
      | some i =>
        have := h.topics_sub t i ht
        rw [hm.unmapped (hd' ▸ hd)] at this
        cases this
    · exact hnone t

theorem mapped_born (hm : Mapped s) {t : Topic} {id : UInt32} (h : Born cfg s s' t id) :
    Mapped s' := by
  refine ⟨fun t' i ht => ?_, fun hd => ?_⟩
  · rw [h.topics_eq, JsMap.get_set] at ht
    rw [h.recs_eq]
    by_cases htt : t = t'
    · rw [if_pos htt, some.injEq] at ht
      exact ⟨_, by rw [← ht, getElem?_concat_length], htt⟩
    · rw [if_neg htt] at ht
      obtain ⟨r, hr, hrt⟩ := hm.topic_eq t' i ht
      exact ⟨r, by rw [List.getElem?_append_left (List.getElem?_eq_some_iff.mp hr).1, hr], hrt⟩
  · rw [h.alive.2] at hd
    cases hd

theorem mapped_start : Mapped (start : Authority Y Topic) :=
  ⟨(fun t i ht => by cases ht), fun _ _ => rfl⟩

theorem mapped_step (hm : Mapped s) (h : s.step cfg e = some s') : Mapped s' := by
  rcases moves_step hm allows_any h with hmv | ⟨t, id, -, hb⟩
  · exact mapped_moves hm hmv
  · exact mapped_born hm hb

/-- Every record after an event is new, or comes from the record in its place. -/
theorem step_records (hm : Mapped s) (hmay : Allows may s e) (h : s.step cfg e = some s') {j : ℕ}
    (hr' : s'.recs[j]? = some r') :
    (∃ t id, r' = fresh Y cfg t id ∧ s.recs[j]? = none) ∨
    ∃ r, s.recs[j]? = some r ∧ RecordSteps cfg may (s.live j) (s'.live j) r r' ∧
      (s'.live j = true → s.live j = true) := by
  rcases moves_step hm hmay h with hmv | ⟨t, id, -, hb⟩
  · obtain ⟨r, hr, hsteps⟩ := hmv.records j r' hr'
    exact .inr ⟨r, hr, hsteps, hmv.live_of_live⟩
  · have hrecs := hr'
    rw [hb.recs_eq, getElem?_append] at hrecs
    split at hrecs
    · rename_i hlt
      refine .inr ⟨r', hrecs, .refl, fun hl => ?_⟩
      obtain ⟨-, hg⟩ := (live_iff hr').mp hl
      rw [hb.topics_eq, JsMap.get_set] at hg
      by_cases ht : t = r'.topic
      · rw [if_pos ht, some.injEq] at hg
        omega
      · rw [if_neg ht] at hg
        exact (live_iff hrecs).mpr ⟨hb.alive.1, hg⟩
    · rename_i hge
      rw [getElem?_singleton] at hrecs
      split at hrecs
      · exact .inl ⟨t, id, (some.inj hrecs).symm,
          getElem?_eq_none (by omega)⟩
      · cases hrecs

end Authority
end AdapterWs.Crdt
