import AdapterWs.Crdt.RecordStep

/-!
# CRDT authority: what an event leaves alone

The columns an event may change, and what this says of the topic map: besides `drop`, `destroy`
and a failed load, a topic loses its record in two ways only, through the check of the unload
that `release` deferred and through the reaction of a store.
-/

namespace AdapterWs.Crdt

open Option

variable {Y : Yjs} {Topic : Type} [DecidableEq Topic] {cfg : Config}

namespace Authority

variable {s s' : Authority Y Topic} {i : ℕ}

/-! ## What an event leaves alone -/

/-- The columns an event may change; it leaves the others alone. -/
def Frame (s s' : Authority Y Topic) : Event Topic → Prop
  | .acquire _ _ => ∃ topics recs acquisitions, s' = { s with topics, recs, acquisitions }
  | .acquireSettles _ => ∃ recs acquisitions, s' = { s with recs, acquisitions }
  | .release _ _ => ∃ recs acquisitions deferred, s' = { s with recs, acquisitions, deferred }
  | .releaseSettles _ => ∃ topics recs deferred, s' = { s with topics, recs, deferred }
  | .persistNow _ _ _ | .flushSettles _ _ | .flushDeadline _ =>
    ∃ recs flushes, s' = { s with recs, flushes }
  | .loadSettles _ _ | .storeSettles _ _ =>
    ∃ topics recs reported, s' = { s with topics, recs, reported }
  | .drop _ => ∃ topics recs, s' = { s with topics, recs }
  | .destroy => ∃ topics recs destroyed, s' = { s with topics, recs, destroyed }
  | _ => ∃ recs, s' = { s with recs }

theorem unload_eq (s : Authority Y Topic) (i : ℕ) :
    ∃ topics recs, s.unload i = { s with topics, recs } := by
  unfold unload
  split <;> exact ⟨_, _, rfl⟩

theorem release_eq (cfg : Config) (s : Authority Y Topic) (topic : Topic) :
    ∃ recs deferred, s.release cfg topic = { s with recs, deferred } := by
  unfold release
  split
  · exact ⟨_, _, rfl⟩
  · split
    · exact ⟨_, _, rfl⟩
    · split
      · simp only
        split <;> exact ⟨_, _, rfl⟩
      · exact ⟨_, _, rfl⟩

theorem runFlush_eq (s : Authority Y Topic) (targets : List (Topic × ℕ)) (timeout : WithTop ℚ)
    (now : ℚ) : ∃ recs flushes, s.runFlush cfg targets timeout now = { s with recs, flushes } := by
  unfold runFlush
  by_cases ht : targets = []
  · rw [if_pos ht]
    exact ⟨_, _, rfl⟩
  · rw [if_neg ht]
    exact ⟨_, _, rfl⟩

theorem applyUpdate_eq (s : Authority Y Topic) (topic : Topic) (bytes : JsBytes) (mono : ℚ) :
    ∃ recs, (s.applyUpdate cfg topic bytes mono).1 = { s with recs } := by
  unfold applyUpdate
  split
  · exact ⟨_, rfl⟩
  · split
    · exact ⟨_, rfl⟩
    · split
      · exact ⟨_, rfl⟩
      · split
        · exact ⟨_, rfl⟩
        · split <;> exact ⟨_, rfl⟩

theorem onStore_eq {k : ℕ} {enabled : TopicRecord Y Topic → StoreCall → Bool}
    {f : TopicRecord Y Topic → TopicRecord Y Topic} (h : s.onStore i k enabled f = some s') :
    ∃ recs, s' = { s with recs } := by
  simp only [onStore, bind_eq_bind, bind_eq_some_iff] at h
  obtain ⟨r, -, c, -, h⟩ := h
  split at h
  · exact ⟨_, (some.inj h).symm⟩
  · cases h

theorem settleChain_eq {k : ℕ} (h : s.settleChain i k = some s') :
    ∃ recs, s' = { s with recs } := by
  simp only [settleChain, bind_eq_bind, bind_eq_some_iff] at h
  obtain ⟨r, -, c, -, h⟩ := h
  split at h
  · split at h
    · exact ⟨_, (some.inj h).symm⟩
    · cases h
  · cases h

theorem settleAcquire_eq {a : ℕ} (h : s.settleAcquire a = some s') :
    ∃ recs acquisitions, s' = { s with recs, acquisitions } := by
  unfold settleAcquire at h
  split at h
  · simp only [bind_eq_bind, bind_eq_some_iff] at h
    obtain ⟨r, -, h⟩ := h
    split at h
    · exact ⟨_, _, (some.inj h).symm⟩
    · exact ⟨_, _, (some.inj h).symm⟩
    · cases h
  · cases h

theorem settleRelease_eq {d : ℕ} (h : s.settleRelease cfg d = some s') :
    ∃ topics recs deferred, s' = { s with topics, recs, deferred } := by
  unfold settleRelease at h
  split at h
  · rename_i j awaits _
    split at h
    · split at h
      · obtain ⟨topics, recs, hun⟩ :=
          unload_eq { s with deferred := s.deferred.set d ⟨j, awaits, true⟩ } j
        exact ⟨topics, recs, _, (some.inj h).symm.trans hun⟩
      · exact ⟨_, _, _, (some.inj h).symm⟩
    · cases h
  · cases h

theorem settleLoad_eq {malformed : String} (h : s.settleLoad cfg i malformed = some s') :
    ∃ topics recs reported, s' = { s with topics, recs, reported } := by
  simp only [settleLoad, bind_eq_bind, bind_eq_some_iff] at h
  obtain ⟨r, -, h⟩ := h
  split at h
  · split at h
    · exact ⟨_, _, _, (some.inj h).symm⟩
    · rename_i err _
      obtain ⟨topics, recs, hun⟩ := unload_eq (s.update i fun r =>
        { r with load := { r.load with phase := .failed err } }) i
      rw [hun, reportError_eq] at h
      split at h <;> exact ⟨topics, recs, _, (some.inj h).symm⟩
  · cases h

theorem settleStore_eq {k : ℕ} (h : s.settleStore cfg i k = some s') :
    ∃ topics recs reported, s' = { s with topics, recs, reported } := by
  simp only [settleStore, bind_eq_bind, bind_eq_some_iff] at h
  obtain ⟨r, -, c, -, h⟩ := h
  split at h
  · rw [reportRejection_eq] at h
    split at h
    · exact ⟨_, _, _, (some.inj h).symm⟩
    · cases h
      exact ((unload_eq _ i).imp fun topics h => h.imp fun recs h => ⟨_, h⟩)
  · cases h

/-- Every event leaves the columns that are not its own alone. -/
theorem frame_step {e : Event Topic} (h : s.step cfg e = some s') : Frame s s' e := by
  cases e with
  | acquire topic clientID =>
    simp only [step, acquire, some.injEq] at h
    split at h
    · exact ⟨_, _, _, h.symm⟩
    · split at h <;> exact ⟨_, _, _, h.symm⟩
  | acquireSettles a => exact settleAcquire_eq h
  | release topic holder =>
    obtain ⟨recs, deferred, hrel⟩ := release_eq cfg s topic
    cases holder with
    | none =>
      simp only [step, releaseBy, hrel, some.injEq] at h
      exact ⟨_, _, _, h.symm⟩
    | some a =>
      simp only [step, releaseBy, hrel] at h
      split at h
      · exact ⟨_, _, _, (some.inj h).symm⟩
      · cases h
  | releaseSettles d => exact settleRelease_eq h
  | applyUpdate topic bytes mono =>
    rw [step, some.injEq] at h
    exact h ▸ applyUpdate_eq s topic bytes mono
  | persistNow topic options now =>
    simp only [step, persistNow, some.injEq] at h
    split at h
    · exact ⟨_, _, h.symm⟩
    · exact h ▸ runFlush_eq s _ _ _
  | flushSettles f topic =>
    simp only [step, settleFlush, bind_eq_bind, bind_eq_some_iff] at h
    obtain ⟨fl, -, target, -, outcome, -, h⟩ := h
    split at h
    · rw [pure_def, some.injEq] at h
      split at h <;> exact ⟨_, _, h.symm⟩
    · cases h
  | flushDeadline f =>
    simp only [step, expireFlush, bind_eq_bind, bind_eq_some_iff] at h
    obtain ⟨fl, -, h⟩ := h
    split at h
    · exact ⟨_, _, (some.inj h).symm⟩
    · cases h
  | timerFires j =>
    rw [step] at h
    split at h
    · exact ⟨_, (some.inj h).symm⟩
    · cases h
  | loadDispatches j =>
    rw [step] at h
    split at h
    · exact ⟨_, (some.inj h).symm⟩
    · cases h
  | loadAnswers j a =>
    rw [step] at h
    split at h
    · exact ⟨_, (some.inj h).symm⟩
    · cases h
  | loadSettles j m => exact settleLoad_eq h
  | storeDispatches j k => exact onStore_eq h
  | storeAnswers j k a => exact onStore_eq h
  | storeSettles j k => exact settleStore_eq h
  | chainSettles j k => exact settleChain_eq h
  | drop topic =>
    simp only [step, drop, some.injEq] at h
    split at h
    · exact ⟨_, _, h.symm⟩
    · exact h ▸ unload_eq s _
  | destroy =>
    simp only [step, destroy, some.injEq] at h
    split at h <;> exact ⟨_, _, _, h.symm⟩

/-! ## Leaving the topic map -/

/-- The record `i` is unloaded because nobody refers to it. -/
inductive Leaves (cfg : Config) (s s' : Authority Y Topic) (i : ℕ) : Event Topic → Prop
  /-- By the check that a release deferred. -/
  | released {d : ℕ} {awaits : Option ℕ} {r : TopicRecord Y Topic} :
      s.deferred[d]? = some ⟨i, awaits, false⟩ → s.recs[i]? = some r → s.live i = true →
      r.releasable cfg = true →
      s'.recs[i]? = some (r.unload TopicRecord.unloadedError) → Leaves cfg s s' i (.releaseSettles d)
  /-- By the reaction of a store. -/
  | settled {k : ℕ} {r : TopicRecord Y Topic} {c : StoreCall} {a : StoreAnswer} :
      s.recs[i]? = some r → s.live i = true → r.stores[k]? = some c → c.phase = .answered a →
      (r.settleStore cfg true k c a).1 = .unload →
      s'.recs[i]? = some ((r.settleStore cfg true k c a).2.unload TopicRecord.unloadedError) →
      Leaves cfg s s' i (.storeSettles i k)

/-- Unloading one record takes no other record's topic. -/
theorem topics_unload_of_ne {t : Topic} {j : ℕ} (hne : i ≠ j) (h : s.topics.get t = some j) :
    (s.unload i).topics.get t = some j := by
  unfold unload
  split
  · exact h
  · rename_i r hr
    simp only
    split
    · rename_i hc
      rw [JsMap.get_delete]
      by_cases ht : r.topic = t
      · rw [ht, h, some.injEq] at hc
        exact absurd hc.symm hne
      · rw [if_neg ht, h]
    · exact h

/-- A topic that lost its record lost it because nobody refers to the record. -/
theorem leaves_of_removed (hm : Mapped s) {e : Event Topic} (h : s.step cfg e = some s')
    (hdrop : ∀ t, e ≠ .drop t) (hdestroy : e ≠ .destroy) (hload : ∀ j m, e ≠ .loadSettles j m)
    {t : Topic} (ht : s.topics.get t = some i) (ht' : s'.topics.get t ≠ some i) :
    Leaves cfg s s' i e := by
  have hkept : s'.topics ≠ s.topics := fun heq => ht' (heq ▸ ht)
  have hlive := (hm.live_of_get ht).1
  have hframe := frame_step h
  cases e with
  | acquire topic clientID =>
    exfalso
    simp only [step, acquire, some.injEq] at h
    split at h
    · exact hkept (by rw [← h])
    · split at h
      · exact hkept (by rw [← h]; rfl)
      · rename_i hcold
        apply ht'
        rw [← h]
        simp only [JsMap.get_set]
        rw [if_neg (fun heq => by rw [heq, ht] at hcold; cases hcold), ht]
  | releaseSettles d =>
    simp only [step] at h
    unfold settleRelease at h
    split at h
    · rename_i j awaits hd
      split at h
      · split at h
        · rename_i hguard
          cases h
          rw [Bool.and_eq_true] at hguard
          have hij : j = i := by
            by_contra hne
            exact ht' (topics_unload_of_ne hne ht)
          subst hij
          obtain ⟨r, hr, hrel⟩ := (any_eq_true _ _).mp hguard.2
          refine .released hd hr hlive hrel ?_
          rw [getElem?_unload, if_pos rfl]
          simp [hr]
        · exact absurd (by rw [← some.inj h]) hkept
      · cases h
    · cases h
  | storeSettles j k =>
    simp only [step, settleStore, bind_eq_bind, bind_eq_some_iff] at h
    obtain ⟨r, hr, c, hc, h⟩ := h
    split at h
    · rename_i a hp
      rw [reportRejection_eq] at h
      split at h
      · exact absurd (by rw [← some.inj h]; rfl) hkept
      · rename_i hv
        cases h
        have hij : j = i := by
          by_contra hne
          exact ht' (topics_unload_of_ne hne ht)
        subst hij
        rw [hlive] at hv ⊢
        refine .settled hr hlive hc hp hv ?_
        rw [getElem?_unload, if_pos rfl]
        simp [getElem?_update, hr]
    · cases h
  | loadSettles j m => exact absurd rfl (hload j m)
  | drop topic => exact absurd rfl (hdrop topic)
  | destroy => exact absurd rfl hdestroy
  | acquireSettles a =>
    obtain ⟨recs, acquisitions, rfl⟩ := hframe
    exact absurd rfl hkept
  | release topic holder =>
    obtain ⟨recs, acquisitions, deferred, rfl⟩ := hframe
    exact absurd rfl hkept
  | persistNow _ _ _ | flushSettles _ _ | flushDeadline _ =>
    obtain ⟨recs, flushes, rfl⟩ := hframe
    exact absurd rfl hkept
  | applyUpdate _ _ _ | timerFires _ | loadDispatches _ | loadAnswers _ _ | storeDispatches _ _
  | storeAnswers _ _ _ | chainSettles _ _ =>
    obtain ⟨recs, rfl⟩ := hframe
    exact absurd rfl hkept

end Authority
end AdapterWs.Crdt
