import AdapterWs.Crdt.Frame
import AdapterWs.Crdt.RecordEffect

/-!
# CRDT authority: reference counting

The count of a live record is the number of resolved acquisitions on it that were not released,
as long as a release finds the record its holder acquired. `release` knows its holder by the name
of the topic only: after a `drop` and a second `acquire`, the late release of a holder of the
dropped record counts down the record of somebody else. `ownRelease` is the condition that this
does not happen; `lateRun` is a run in which it does.
-/

namespace AdapterWs.Crdt

open List Option Authority Acquisition Bool

variable {Y : Yjs} {Topic : Type} {cfg : Config} {a : ℕ}

/-! ## Holders -/

/-- Whether an acquisition holds record `i`. -/
def Acquisition.holding (i : ℕ) (q : Acquisition) : Bool :=
  q.record = i && q.status = .resolved && !q.released

/-- How many acquisitions hold record `i`. -/
def holders (l : List Acquisition) (i : ℕ) : ℕ := l.countP (Acquisition.holding i)

theorem holders_append_waiting (l : List Acquisition) (i j : ℕ) :
    holders (l ++ [⟨j, .waiting, false⟩]) i = holders l i := by
  rw [holders, countP_append]
  simp [holding, holders]

variable {l : List Acquisition} {q : Acquisition}

theorem holders_set (hq : l[a]? = some q) (q' : Acquisition) (i : ℕ) :
    holders (l.set a q') i + (if q.holding i then 1 else 0) =
      holders l i + (if q'.holding i then 1 else 0) := by
  obtain ⟨hlt, hget⟩ := List.getElem?_eq_some_iff.mp hq
  have hle : (if q.holding i then 1 else 0) ≤ holders l i := by
    split
    · rename_i hh
      exact countP_pos_iff.mpr ⟨q, mem_of_getElem? hq, hh⟩
    · exact Nat.zero_le _
  rw [holders, countP_set hlt, hget]
  unfold holders at hle ⊢
  omega

theorem modify_eq_set (hq : l[a]? = some q) (f : Acquisition → Acquisition) :
    l.modify a f = l.set a (f q) := by
  refine ext_getElem? fun j => ?_
  rw [getElem?_modify, getElem?_set]
  obtain ⟨hlt, hget⟩ := List.getElem?_eq_some_iff.mp hq
  by_cases h : a = j
  · subst h
    simp [hlt, hget]
  · simp [h]

theorem holders_eq_zero {i : ℕ} (h : holders l i = 0) (hq : q ∈ l) (hi : q.record = i)
    (hs : q.status = .resolved) : q.released = true := by
  by_contra hne
  have hpos : 0 < holders l i :=
    countP_pos_iff.mpr ⟨q, hq, by simp [holding, hi, hs, hne]⟩
  omega

/-! ## Records -/

section Records

variable {r r' : TopicRecord Y Topic} {may : Guard Y Topic} {live live' : Bool}

theorem loaded_recordSteps (h : RecordSteps cfg may live live' r r') (hl : r.loaded = true) :
    r'.loaded = true := by
  refine RecordSteps.invariant (I := fun q => q.loaded = true) (fun q q' hq hs => ?_) h hl
  obtain ⟨kept, armed, he⟩ := hs.effect
  exact he.loaded hq

theorem RecordStep.loads (h : RecordStep cfg may live live' r r')
    (hr : r.load.phase = .loaded → r.loaded = true) :
    r'.load.phase = .loaded → r'.loaded = true := by
  have hmono : r.loaded = true → r'.loaded = true := fun hl => loaded_recordSteps (.single h) hl
  have hphase : r'.load.phase = .loaded → r.load.phase = .loaded ∨ r'.loaded = true := by
    cases h with
    | loading phase hne => exact fun hp => absurd hp hne
    | hydrate _ malformed a hp hh =>
      obtain ⟨doc, rfl, -⟩ := hydrate_ok hh
      exact fun _ => .inr rfl
    | unload reason =>
      intro hp
      refine .inl ?_
      simp only [TopicRecord.unload, TopicRecord.abortInFlight, TopicRecord.clearSchedule] at hp
      cases hin : r.load.inFlight with
      | true => simpa [hin] using hp
      | false => simpa [hin] using hp
    | dropRef =>
      simp only [TopicRecord.dropRef, storeNow_eq]
      split
      · exact .inl
      · split <;> exact .inl
    | edit =>
      simp only [TopicRecord.edit, TopicRecord.scheduleStore, storeNow_eq]
      split
      · split
        · exact .inl
        · split <;> exact .inl
      · exact .inl
    | flushOne =>
      simp only [TopicRecord.flushOne, storeNow_eq]
      split <;> exact .inl
    | expire =>
      simp only [TopicRecord.expire, requeue_eq]
      split
      · exact .inl
      · split <;> exact .inl
    | fire =>
      simp only [TopicRecord.fire, storeNow_eq]
      split <;> exact .inl
    | settleStore =>
      simp only [TopicRecord.settleStore, storeNow_eq, requeue_eq]
      split
      · exact .inl
      · split
        · exact .inl
        · split <;> exact .inl
        · split
          · split <;> exact .inl
          · exact .inl
    | _ => exact .inl
  intro hp
  rcases hphase hp with hp' | hl
  · exact hmono (hr hp')
  · exact hl

theorem refs_dropRef (r : TopicRecord Y Topic) : (r.dropRef cfg).2.refs = r.refs - 1 := by
  simp only [TopicRecord.dropRef, storeNow_eq]
  split
  · rfl
  · split <;> rfl

/-- The reaction of a store unloads a record nobody refers to. -/
theorem refs_of_unload {k : ℕ} {c : StoreCall} {a : StoreAnswer}
    (h : (r.settleStore cfg live k c a).1 = .unload) : r.refs = 0 := by
  revert h
  simp only [TopicRecord.settleStore]
  split
  · intro h
    cases h
  · split
    · intro h
      cases h
    · split
      · rename_i hun
        intro _
        simp only [and_eq_true, decide_eq_true_eq] at hun
        exact hun.2
      · intro h
        cases h
    · split
      · rename_i hun
        intro _
        simp only [and_eq_true, decide_eq_true_eq] at hun
        exact hun.2
      · intro h
        cases h

end Records

/-! ## The invariant -/

section Counting

variable [DecidableEq Topic] {s s' : Authority Y Topic} {e : Event Topic} {topic : Topic}

/-- The count of a live record is the number of its holders. -/
structure Counted (s : Authority Y Topic) : Prop where
  /-- The topic map is right. -/
  mapped : s.Mapped
  /-- A record whose load ended well is loaded. -/
  loads : ∀ (i : ℕ) r, s.recs[i]? = some r → r.load.phase = .loaded → r.loaded = true
  /-- Only a resolved acquisition is released. -/
  waiting : ∀ q ∈ s.acquisitions, q.status = .waiting → q.released = false
  /-- An acquisition has a record, which is loaded once it resolved. -/
  record : ∀ q ∈ s.acquisitions, ∃ r, s.recs[q.record]? = some r ∧
    (q.status = .resolved → r.loaded = true)
  /-- The count. -/
  refs_eq : ∀ (i : ℕ) r, s.recs[i]? = some r → s.live i = true → r.refs = holders s.acquisitions i

theorem loads_step (hm : s.Mapped)
    (h : ∀ (i : ℕ) r, s.recs[i]? = some r → r.load.phase = .loaded → r.loaded = true)
    (hstep : s.step cfg e = some s') :
    ∀ (i : ℕ) r, s'.recs[i]? = some r → r.load.phase = .loaded → r.loaded = true := by
  intro i r' hr'
  rcases step_records hm allows_any hstep hr' with
    ⟨t, id, rfl, -⟩ | ⟨r, hr, hsteps, -⟩
  · intro hp
    cases hp
  · exact RecordSteps.invariant (I := fun q => q.load.phase = .loaded → q.loaded = true)
      (fun _ _ hq hs => hs.loads hq) hsteps (h i r hr)

/-- The record of an acquisition stays, and stays loaded. -/
theorem record_step (hm : s.Mapped) (hstep : s.step cfg e = some s') {i : ℕ} {b : Prop}
    (h : ∃ r, s.recs[i]? = some r ∧ (b → r.loaded = true)) :
    ∃ r, s'.recs[i]? = some r ∧ (b → r.loaded = true) := by
  obtain ⟨r, hr, hl⟩ := h
  have hlt := (List.getElem?_eq_some_iff.mp hr).1
  rcases moves_step hm allows_any hstep with hmv | ⟨t, id, -, hb⟩
  · have hlt' : i < s'.recs.length := by
      rw [hmv.length_eq]
      exact hlt
    obtain ⟨r₀, hr₀, hsteps⟩ := hmv.records i _ (getElem?_eq_getElem hlt')
    rw [hr] at hr₀
    cases hr₀
    exact ⟨_, getElem?_eq_getElem hlt', fun hb => loaded_recordSteps hsteps (hl hb)⟩
  · refine ⟨r, ?_, hl⟩
    rw [hb.recs_eq, getElem?_append_left hlt, hr]

theorem counted_keep (h : Counted s) (hstep : s.step cfg e = some s')
    (hacquire : ∀ a, e ≠ .acquireSettles a) (hrelease : ∀ t holder, e ≠ .release t holder)
    (hacq : s'.acquisitions = s.acquisitions ∨
      ∃ i, i < s'.recs.length ∧ s'.acquisitions = s.acquisitions ++ [⟨i, .waiting, false⟩]) :
    Counted s' := by
  have hmem : ∀ q ∈ s'.acquisitions, q ∈ s.acquisitions ∨
      q.status = .waiting ∧ q.released = false ∧ q.record < s'.recs.length := by
    intro q hq
    rcases hacq with heq | ⟨i, hi, heq⟩
    · exact .inl (heq ▸ hq)
    · rw [heq, mem_append, mem_singleton] at hq
      rcases hq with hq | rfl
      · exact .inl hq
      · exact .inr ⟨rfl, rfl, hi⟩
  have hholders : ∀ i, holders s'.acquisitions i = holders s.acquisitions i := by
    intro i
    rcases hacq with heq | ⟨j, -, heq⟩
    · rw [heq]
    · rw [heq, holders_append_waiting]
  refine ⟨mapped_step h.mapped hstep, loads_step h.mapped h.loads hstep,
    fun q hq hw => ?_, fun q hq => ?_, fun i r' hr' hlive => ?_⟩
  · rcases hmem q hq with hq | ⟨-, hrel, -⟩
    · exact h.waiting q hq hw
    · exact hrel
  · rcases hmem q hq with hq | ⟨hw, -, hlt⟩
    · exact record_step h.mapped hstep (h.record q hq)
    · exact ⟨_, getElem?_eq_getElem hlt, fun hs => by rw [hw] at hs; cases hs⟩
  · rw [hholders]
    have hallows : Allows ⟨fun _ _ => True, False⟩ s e :=
      ⟨fun _ _ _ _ _ _ _ _ _ _ => trivial, fun a he => hacquire a he,
        fun t holder he => hrelease t holder he⟩
    rcases step_records h.mapped hallows hstep hr' with
      ⟨t, id, rfl, hnone⟩ | ⟨r, hr, hsteps, hl⟩
    · refine (countP_eq_zero.mpr fun q hq => ?_).symm
      obtain ⟨r, hr, -⟩ := h.record q hq
      have hne : q.record ≠ i := by
        rintro rfl
        rw [hnone] at hr
        cases hr
      simp [holding, hne]
    · rw [← h.refs_eq i r hr (hl hlive)]
      exact RecordSteps.invariant (I := fun q => q.refs = r.refs)
        (fun _ _ hq hs => (hs.frame.2 id).trans hq) hsteps rfl

theorem settleAcquire_cases (h : s.settleAcquire a = some s') :
    ∃ q r, s.acquisitions[a]? = some q ∧ q.status = .waiting ∧ s.recs[q.record]? = some r ∧
      ((r.load.phase = .loaded ∧
          s' = { s.update q.record (fun r => { r with refs := r.refs + 1 }) with
            acquisitions := s.acquisitions.set a { q with status := .resolved } }) ∨
        ∃ err, s' = { s with
          acquisitions := s.acquisitions.set a { q with status := .rejected err } }) := by
  unfold settleAcquire at h
  split at h
  · rename_i i released ha
    simp only [bind_eq_bind, bind_eq_some_iff] at h
    obtain ⟨r, hr, h⟩ := h
    refine ⟨_, r, ha, rfl, hr, ?_⟩
    split at h
    · rename_i hp
      exact .inl ⟨hp, (some.inj h).symm⟩
    · rename_i err hp
      exact .inr ⟨err, (some.inj h).symm⟩
    · cases h
  · cases h

theorem counted_set (h : Counted s) (hstep : s.step cfg e = some s') {q' : Acquisition}
    (ha : s.acquisitions[a]? = some q) (hacq : s'.acquisitions = s.acquisitions.set a q')
    (hrecord : q'.record = q.record) (hwait : q'.status ≠ .waiting)
    (hloaded : q'.status = .resolved → ∃ r, s.recs[q.record]? = some r ∧ r.loaded = true)
    (hrefs : ∀ (i : ℕ) r', s'.recs[i]? = some r' → s'.live i = true →
      r'.refs = holders s'.acquisitions i) : Counted s' := by
  refine ⟨mapped_step h.mapped hstep, loads_step h.mapped h.loads hstep,
    fun p hp hw => ?_, fun p hp => ?_, hrefs⟩
  · rw [hacq] at hp
    rcases mem_or_eq_of_mem_set hp with hp | rfl
    · exact h.waiting p hp hw
    · exact absurd hw hwait
  · rw [hacq] at hp
    rcases mem_or_eq_of_mem_set hp with hp | rfl
    · exact record_step h.mapped hstep (h.record p hp)
    · rw [hrecord]
      refine record_step h.mapped hstep ?_
      obtain ⟨r, hr, -⟩ := h.record q (mem_of_getElem? ha)
      refine ⟨r, hr, fun hs => ?_⟩
      obtain ⟨r₀, hr₀, hl⟩ := hloaded hs
      rw [hr, some.injEq] at hr₀
      exact hr₀ ▸ hl

theorem counted_settleAcquire (h : Counted s) (hstep : s.step cfg (.acquireSettles a) = some s') :
    Counted s' := by
  obtain ⟨q, r, ha, hw, hr, ⟨hp, hs'⟩ | ⟨err, hs'⟩⟩ := settleAcquire_cases hstep
  · have hrel := h.waiting q (mem_of_getElem? ha) hw
    have hset := holders_set ha { q with status := .resolved }
    have hacq : s'.acquisitions = s.acquisitions.set a { q with status := .resolved } := by
      rw [hs']
    refine counted_set h hstep ha hacq rfl (by simp)
      (fun _ => ⟨r, hr, h.loads _ r hr hp⟩) fun i r' hr' hlive => ?_
    have hlive' : s.live i = true := by
      rcases step_records h.mapped allows_any hstep hr' with
        ⟨t, id, -, hnone⟩ | ⟨r₀, -, -, hl⟩
      · rw [hs'] at hr'
        simp [getElem?_update, hnone] at hr'
      · exact hl hlive
    specialize hset i
    have hbefore : q.holding i = false := by simp [holding, hw]
    simp only [hbefore, false_eq_true, if_false] at hset
    rw [hacq]
    have hrecs : (s.update q.record fun r => { r with refs := r.refs + 1 }).recs[i]? =
        some r' := by
      rw [← hr', hs']
    rw [getElem?_update] at hrecs
    by_cases hi : q.record = i
    · rw [if_pos hi] at hrecs
      subst hi
      rw [hr, map_some] at hrecs
      cases hrecs
      have hcount := h.refs_eq _ r hr hlive'
      have hafter : ({ q with status := .resolved } : Acquisition).holding q.record = true := by
        simp [holding, hrel]
      simp only [hafter, if_true] at hset
      simp only
      omega
    · rw [if_neg hi] at hrecs
      have hcount := h.refs_eq i r' hrecs hlive'
      have hafter : ({ q with status := .resolved } : Acquisition).holding i = false := by
        simp [holding, hi]
      simp only [hafter, false_eq_true, if_false] at hset
      omega
  · have hset := holders_set ha { q with status := .rejected err }
    have hacq : s'.acquisitions = s.acquisitions.set a { q with status := .rejected err } := by
      rw [hs']
    refine counted_set h hstep ha hacq rfl (by simp) (fun hs => by cases hs)
      fun i r' hr' hlive => ?_
    specialize hset i
    rw [hacq]
    rw [hs'] at hr' hlive
    have hcount := h.refs_eq i r' hr' hlive
    have hbefore : q.holding i = false := by simp [holding, hw]
    have hafter : ({ q with status := .rejected err } : Acquisition).holding i = false := by
      simp [holding]
    simp only [hbefore, hafter, false_eq_true, if_false] at hset
    omega

/-! ## Releases -/

/-- A release by the holder of an acquisition. -/
def matched : Event Topic → Bool
  | .release _ holder => holder.isSome
  | _ => true

/-- The condition on a release: the topic maps to the record its holder acquired, or to no loaded
record. -/
def ownRelease (s : Authority Y Topic) : Event Topic → Bool
  | .release topic (some a) =>
    (s.topics.get topic).all fun i => ((s.acquisitions[a]?).any fun q => q.record = i) ||
      (s.recs[i]?).all fun r => !r.loaded
  | _ => true

theorem releaseBy_cases (h : s.releaseBy cfg topic (some a) = some s') :
    ∃ q r, s.acquisitions[a]? = some q ∧ q.status = .resolved ∧ q.released = false ∧
      s.recs[q.record]? = some r ∧ r.topic = topic ∧
      s' = { s.release cfg topic with
        acquisitions := s.acquisitions.set a { q with released := true } } := by
  rw [releaseBy] at h
  split at h
  · rename_i hh
    simp only [holds, Option.any_eq_true, and_eq_true, decide_eq_true_eq,
      not_eq_true'] at hh
    obtain ⟨q, hq, ⟨hs, hrel⟩, r, hr, ht⟩ := hh
    refine ⟨q, r, hq, hs, hrel, hr, ht, ?_⟩
    rw [← some.inj h, modify_eq_set hq]
  · cases h

/-- The release of a topic that has no loaded record does nothing. -/
theorem release_noop
    (h : ∀ i, s.topics.get topic = some i → (s.recs[i]?).all (fun r => !r.loaded) = true) :
    s.release cfg topic = s := by
  unfold release
  split
  · rfl
  · rename_i i hi
    split
    · rfl
    · rename_i r hr
      have hl := h i hi
      rw [hr, all_some, not_eq_true'] at hl
      rw [if_neg (by simp [hl])]

/-- The release of a topic counts its loaded record down. -/
theorem recs_release {i : ℕ} {r : TopicRecord Y Topic} (ht : s.topics.get topic = some i)
    (hr : s.recs[i]? = some r) (hl : r.loaded = true) :
    (s.release cfg topic).recs = (s.update i fun r => (r.dropRef cfg).2).recs := by
  unfold release
  simp only [ht, hr, if_pos hl]
  split <;> rfl

theorem counted_release (h : Counted s) (hown : ownRelease s (.release topic (some a)) = true)
    (hstep : s.step cfg (.release topic (some a)) = some s') : Counted s' := by
  obtain ⟨q, r, ha, hs, hrel, hr, ht, hs'⟩ := releaseBy_cases hstep
  have hacq : s'.acquisitions = s.acquisitions.set a { q with released := true } := by
    rw [hs']
  have hl : r.loaded = true := by
    obtain ⟨r₀, hr₀, hl⟩ := h.record q (mem_of_getElem? ha)
    rw [hr, some.injEq] at hr₀
    exact hr₀ ▸ hl hs
  refine counted_set h hstep ha hacq rfl (by simp [hs]) (fun _ => ⟨r, hr, hl⟩)
    fun i r' hr' hlive => ?_
  have hlive' : s.live i = true := by
    rcases step_records h.mapped allows_any hstep hr' with
      ⟨t, id, rfl, hnone⟩ | ⟨r₀, -, -, hlive'⟩
    · obtain ⟨-, hget⟩ := (live_iff hr').mp hlive
      obtain ⟨recs, deferred, hrelease⟩ := release_eq cfg s topic
      rw [hs', hrelease] at hget
      obtain ⟨r₀, hr₀, -⟩ := h.mapped.topic_eq _ _ hget
      rw [hnone] at hr₀
      cases hr₀
    · exact hlive' hlive
  have hset := holders_set ha { q with released := true } i
  have hafter : ({ q with released := true } : Acquisition).holding i = false := by
    simp [holding]
  simp only [hafter, false_eq_true, if_false] at hset
  rw [hacq]
  by_cases hcur : s.topics.get topic = some q.record
  · -- the holder's own record is counted down
    have hrecs : (s.update q.record fun r => (r.dropRef cfg).2).recs[i]? = some r' := by
      rw [← hr', hs', ← recs_release hcur hr hl]
    rw [getElem?_update] at hrecs
    by_cases hi : q.record = i
    · rw [if_pos hi] at hrecs
      subst hi
      rw [hr, map_some] at hrecs
      cases hrecs
      have hcount := h.refs_eq _ r hr hlive'
      have hbefore : q.holding q.record = true := by simp [holding, hs, hrel]
      simp only [hbefore, if_true] at hset
      rw [refs_dropRef]
      omega
    · rw [if_neg hi] at hrecs
      have hcount := h.refs_eq i r' hrecs hlive'
      have hbefore : q.holding i = false := by simp [holding, hi]
      simp only [hbefore, false_eq_true, if_false] at hset
      omega
  · -- the holder's record left the map, and nothing happens to the others
    have hnoop : s.release cfg topic = s := by
      refine release_noop fun j hj => ?_
      have hne : ¬ q.record = j := fun heq => hcur (heq ▸ hj)
      simpa [ownRelease, hj, ha, hne] using hown
    have hi : q.record ≠ i := by
      rintro rfl
      obtain ⟨-, hget⟩ := (live_iff hr).mp hlive'
      exact hcur (ht ▸ hget)
    rw [hs', hnoop] at hr'
    have hcount := h.refs_eq i r' hr' hlive'
    have hbefore : q.holding i = false := by simp [holding, hi]
    simp only [hbefore, false_eq_true, if_false] at hset
    omega

/-! ## Runs -/

theorem acquisitions_acquire (hm : s.Mapped) (topic : Topic) (id : UInt32) :
    (s.acquire cfg topic id).acquisitions = s.acquisitions ∨
    ∃ i, i < (s.acquire cfg topic id).recs.length ∧
      (s.acquire cfg topic id).acquisitions = s.acquisitions ++ [⟨i, .waiting, false⟩] := by
  unfold acquire
  split
  · exact .inl rfl
  · split
    · rename_i i hi
      obtain ⟨r, hr, -⟩ := hm.topic_eq _ _ hi
      refine .inr ⟨i, ?_, rfl⟩
      simp only [update, length_modify]
      exact (List.getElem?_eq_some_iff.mp hr).1
    · exact .inr ⟨s.recs.length, by simp, rfl⟩

theorem counted_step (h : Counted s) (hmatched : matched e = true)
    (hown : ownRelease s e = true) (hstep : s.step cfg e = some s') : Counted s' := by
  have hframe := frame_step hstep
  cases e with
  | acquireSettles a => exact counted_settleAcquire h hstep
  | release topic holder =>
    cases holder with
    | none => cases hmatched
    | some a => exact counted_release h hown hstep
  | acquire topic id =>
    refine counted_keep h hstep (fun _ => by simp) (fun _ _ => by simp) ?_
    rw [step, some.injEq] at hstep
    exact hstep ▸ acquisitions_acquire h.mapped topic id
  | releaseSettles _ | loadSettles _ _ | storeSettles _ _ | destroy =>
    refine counted_keep h hstep (fun _ => by simp) (fun _ _ => by simp) ?_
    obtain ⟨_, _, _, rfl⟩ := hframe
    exact .inl rfl
  | persistNow _ _ _ | flushSettles _ _ | flushDeadline _ | drop _ =>
    refine counted_keep h hstep (fun _ => by simp) (fun _ _ => by simp) ?_
    obtain ⟨_, _, rfl⟩ := hframe
    exact .inl rfl
  | applyUpdate _ _ _ | timerFires _ | loadDispatches _ | loadAnswers _ _ | storeDispatches _ _
  | storeAnswers _ _ _ | chainSettles _ _ =>
    refine counted_keep h hstep (fun _ => by simp) (fun _ _ => by simp) ?_
    obtain ⟨_, rfl⟩ := hframe
    exact .inl rfl

theorem counted_of_reaches {es : List (Event Topic)}
    (h : (crdtAuthority Y Topic cfg).ReachesWhere
      (fun s e => matched e = true ∧ ownRelease s e = true) es s) : Counted s := by
  refine Machine.ReachesWhere.invariant (I := Counted) ?_ ?_ h
  · refine ⟨mapped_start, ?_, ?_, ?_, ?_⟩ <;> simp [crdtAuthority, start]
  · exact fun s e s' hs hok hstep => counted_step hs hok.1 hok.2 hstep

/-- In every run whose releases find the record their holder acquired, or none, a record is
unloaded for want of references only when every acquisition that resolved onto it was released;
and the release by the holder of a record that left the map does nothing to the records. -/
theorem references_respected {es : List (Event Topic)}
    (h : (crdtAuthority Y Topic cfg).ReachesWhere
      (fun s e => matched e = true ∧ ownRelease s e = true) es s) :
    (∀ (e : Event Topic) s', s.step cfg e = some s' → (∀ t, e ≠ .drop t) → e ≠ .destroy →
      (∀ j m, e ≠ .loadSettles j m) → ∀ (t : Topic) (i : ℕ), s.topics.get t = some i →
        s'.topics.get t ≠ some i → ∀ q ∈ s.acquisitions, q.record = i → q.status = .resolved →
          q.released = true) ∧
    ∀ (topic : Topic) (a : ℕ) q s', ownRelease s (.release topic (some a)) = true →
      s.step cfg (.release topic (some a)) = some s' → s.acquisitions[a]? = some q →
      s.live q.record = false →
        s' = { s with acquisitions := s.acquisitions.set a { q with released := true } } := by
  have hcounted := counted_of_reaches h
  refine ⟨fun e s' hstep hdrop hdestroy hload t i ht ht' q hq hi hs => ?_,
    fun topic a q s' hown hstep ha hdead => ?_⟩
  · have hzero : ∃ r, s.recs[i]? = some r ∧ s.live i = true ∧ r.refs = 0 := by
      cases leaves_of_removed hcounted.mapped hstep hdrop hdestroy hload ht ht' with
      | released hd hr hlive hrel =>
        simp only [TopicRecord.releasable, and_eq_true, decide_eq_true_eq] at hrel
        exact ⟨_, hr, hlive, hrel.1.1⟩
      | settled hr hlive hc hp hv => exact ⟨_, hr, hlive, refs_of_unload hv⟩
    obtain ⟨r, hr, hlive, hrefs⟩ := hzero
    have hcount := hcounted.refs_eq i r hr hlive
    exact holders_eq_zero (by omega) hq hi hs
  · obtain ⟨q₀, r, ha₀, -, -, hr, ht, hs'⟩ := releaseBy_cases hstep
    rw [ha] at ha₀
    cases ha₀
    have hnoop : s.release cfg topic = s := by
      refine release_noop fun j hj => ?_
      have hne : ¬ q.record = j := by
        rintro rfl
        rw [(hcounted.mapped.live_of_get hj).1] at hdead
        cases hdead
      simpa [ownRelease, hj, ha, hne] using hown
    rw [hs', hnoop]

end Counting

/-- Two holders of one record, of whom one has released; then the other releases. -/
def sharedRun : List (Event ℕ) :=
  [.acquire 0 1, .loadDispatches 0, .loadSettles 0 "", .acquireSettles 0, .acquire 0 1,
    .acquireSettles 1, .release 0 (some 0), .release 0 (some 1)]

theorem references_respected_sharedRun :
    ∃ s s' : Authority Yjs.log ℕ,
      (crdtAuthority Yjs.log ℕ (Config.defaults true)).ReachesWhere
        (fun s e => matched e = true ∧ ownRelease s e = true) sharedRun s ∧
      s.step (Config.defaults true) (.releaseSettles 0) = some s' ∧
      s.topics.get 0 = some 0 ∧ s'.topics.get 0 = none ∧
      ∀ q ∈ s.acquisitions, q.record = 0 → q.status = .resolved → q.released = true := by
  obtain ⟨s, hs, hp⟩ : ∃ s, (crdtAuthority Yjs.log ℕ (Config.defaults true)).ReachesWhere
      (fun s e => matched e = true ∧ ownRelease s e = true) sharedRun s ∧
      (s.topics.get 0 = some 0 && (s.step (Config.defaults true) (.releaseSettles 0)).any fun s' =>
      s'.topics.get 0 = none) = true :=
    Machine.exists_of_execWhere (by decide +kernel)
  rw [and_eq_true, Option.any_eq_true, decide_eq_true_eq] at hp
  obtain ⟨ht, s', hstep, ht'⟩ := hp
  rw [decide_eq_true_eq] at ht'
  exact ⟨s, s', hs, hstep, ht, ht', (references_respected hs).1 _ s' hstep (fun t => by simp)
    (by simp) (fun j m => by simp) 0 0 ht (by simp [ht'])⟩

/-- A record is dropped under its holder and acquired again by somebody else, whose reference the
late release of the first holder takes. -/
def lateRun : List (Event ℕ) :=
  [.acquire 0 1, .loadDispatches 0, .loadSettles 0 "", .acquireSettles 0, .drop 0, .acquire 0 1,
    .loadDispatches 1, .loadSettles 1 "", .acquireSettles 1, .release 0 (some 0)]

/-- The check of the late release unloads a record that its holder has not released. -/
theorem unloaded_under_holder :
    ¬ ∀ (es : List (Event ℕ)) (s : Authority Yjs.log ℕ),
      (crdtAuthority Yjs.log ℕ (Config.defaults true)).ReachesWhere
        (fun _ e => matched e = true) es s →
        ∀ (e : Event ℕ) s', s.step (Config.defaults true) e = some s' →
          (∀ t, e ≠ .drop t) → e ≠ .destroy → (∀ j m, e ≠ .loadSettles j m) →
          ∀ (t : ℕ) (i : ℕ), s.topics.get t = some i → s'.topics.get t ≠ some i →
            ∀ q ∈ s.acquisitions, q.record = i → q.status = .resolved → q.released = true := by
  intro h
  obtain ⟨s, hs, hp⟩ : ∃ s, (crdtAuthority Yjs.log ℕ (Config.defaults true)).ReachesWhere
      (fun _ e => matched e = true) lateRun s ∧ (s.topics.get 0 = some 1 &&
      (s.step (Config.defaults true) (.releaseSettles 0)).any (fun s' => s'.topics.get 0 = none) &&
      s.acquisitions.any fun q => q.record = 1 && q.status = .resolved && !q.released) = true :=
    Machine.exists_of_execWhere (by decide +kernel)
  simp only [and_eq_true, Option.any_eq_true, List.any_eq_true, decide_eq_true_eq,
    not_eq_true'] at hp
  obtain ⟨⟨ht, s', hstep, ht'⟩, q, hq, ⟨hi, hres⟩, hrel⟩ := hp
  have hreleased := h _ s hs _ s' hstep (fun t => by simp) (by simp) (fun j m => by simp)
    0 1 ht (by simp [ht']) q hq hi hres
  rw [hrel] at hreleased
  cases hreleased

end AdapterWs.Crdt
