import AdapterWs.Crdt.Frame
import AdapterWs.Crdt.RecordEffect

/-!
# CRDT authority: no edit is stranded

A live record that holds unstored edits has a timer armed, and one that does not has a newest
store that is in flight or was confirmed. So every accepted update is in a confirmed blob, in a
blob on its way, or behind a timer.

A record leaves the topic map in three ways besides a teardown or a failed load: through the
reaction of its newest store, and through the check that `release` defers behind the store chain.
The check looks at `dirty`, which is cleared when a store is armed. `quietRelease` says that no
store of the record is in flight when the check unloads it. Under it a record leaves only with
everything confirmed, or declined by the host; `strandedRun` is a run in which the check abandons
a queued store and drops the edit it captured.
-/

namespace AdapterWs.Crdt

open List TopicRecord StoreCall

variable {Y : Yjs} {Topic : Type} {cfg : Config}

/-- Whether an update of the log is in a blob the host confirmed. -/
def Confirmed (r : TopicRecord Y Topic) (u : List UInt8) : Prop :=
  ∃ c ∈ r.stores, c.confirmed = true ∧ Y.Contains c.blob u

/-- A live record loses nothing: what is dirty has a timer, and what is clean has a newest store
that is on its way or arrived. -/
structure Retained (r : TopicRecord Y Topic) : Prop where
  /-- Unstored edits have a timer. -/
  armed : r.dirty = true → r.debounceTimer.isSome = true
  /-- The newest store of a clean record is in flight or confirmed. -/
  newest : r.dirty = false → ∀ c, r.stores.getLast? = some c →
    c.inFlight = true ∨ c.confirmed = true

section Steps

variable {r r' : TopicRecord Y Topic} {f : StoreCall → StoreCall} {k : ℕ} {c : StoreCall}

theorem retained_fresh (topic : Topic) (id : UInt32) :
    Retained (fresh Y cfg topic id) := by
  refine ⟨(fun h => by cases h), fun _ c hc => ?_⟩
  simp [fresh] at hc

theorem retained_storeNow (hs : cfg.hasStore = true) {flush : Option FlushToken} :
    Retained (r.storeNow cfg flush) := by
  rw [storeNow_eq]
  refine ⟨(fun h => by cases h), fun _ c hc => .inl ?_⟩
  simp only [hs, if_true, getLast?_concat, Option.some.injEq] at hc
  rw [← hc]
  rfl

/-- A step that keeps the flag and the timer, and the newest store's standing. -/
theorem Retained.keep (h : Retained r) (hdirty : r'.dirty = r.dirty)
    (htimer : r'.debounceTimer = r.debounceTimer)
    (hlast : ∀ c', r'.stores.getLast? = some c' → ∃ c, r.stores.getLast? = some c ∧
      (c.inFlight = true → c'.inFlight = true ∨ c'.confirmed = true) ∧
      (c.confirmed = true → c'.confirmed = true)) : Retained r' := by
  refine ⟨fun hd => ?_, fun hd c' hc' => ?_⟩
  · rw [htimer]
    exact h.armed (hdirty ▸ hd)
  · obtain ⟨c, hc, hfl, hcf⟩ := hlast c' hc'
    rcases h.newest (hdirty ▸ hd) c hc with h₁ | h₁
    · exact hfl h₁
    · exact .inr (hcf h₁)

theorem Retained.same (h : Retained r) (hdirty : r'.dirty = r.dirty)
    (htimer : r'.debounceTimer = r.debounceTimer) (hstores : r'.stores = r.stores) :
    Retained r' :=
  h.keep hdirty htimer fun c' hc' => ⟨c', hstores ▸ hc', .inl, id⟩

theorem getLast?_map {l : List StoreCall} {c' : StoreCall} (h : (l.map f).getLast? = some c') :
    ∃ c, l.getLast? = some c ∧ c' = f c := by
  rw [List.getLast?_map, Option.map_eq_some_iff] at h
  obtain ⟨c, hc, rfl⟩ := h
  exact ⟨c, hc, rfl⟩

theorem getLast?_modify {l : List StoreCall} {c' : StoreCall}
    (h : (l.modify k f).getLast? = some c') :
    ∃ c, l.getLast? = some c ∧ (c' = f c ∧ k + 1 = l.length ∨ c' = c ∧ k + 1 ≠ l.length) := by
  rw [getLast?_eq_getElem?, length_modify, getElem?_modify] at h
  rw [getLast?_eq_getElem?]
  rw [Option.map_eq_map, Option.map_eq_some_iff] at h
  obtain ⟨c, hc, rfl⟩ := h
  have hlt := (List.getElem?_eq_some_iff.mp hc).1
  by_cases hk : k = l.length - 1
  · exact ⟨c, hc, .inl ⟨if_pos hk, by omega⟩⟩
  · exact ⟨c, hc, .inr ⟨if_neg hk, by omega⟩⟩

/-- One store changed in place keeps the newest store's standing. -/
theorem Retained.modify (h : Retained r) (hc : r.stores[k]? = some c)
    (hfl : c.inFlight = true → (f c).inFlight = true ∨ (f c).confirmed = true)
    (hcf : c.confirmed = true → (f c).confirmed = true) :
    Retained { r with stores := r.stores.modify k f } := by
  refine h.keep rfl rfl fun c' hc' => ?_
  obtain ⟨d, hd, ⟨rfl, hk⟩ | ⟨rfl, -⟩⟩ := getLast?_modify hc'
  · refine ⟨d, hd, ?_⟩
    rw [getLast?_eq_getElem?, ← hk, Nat.add_sub_cancel, hc, Option.some.injEq] at hd
    exact hd ▸ ⟨hfl, hcf⟩
  · exact ⟨c', hd, .inl, id⟩

/-- Stores changed in place everywhere keep the newest store's standing. -/
theorem Retained.map (h : Retained r) (hfl : ∀ c, c.inFlight = true → (f c).inFlight = true)
    (hcf : ∀ c, (f c).confirmed = c.confirmed) : Retained { r with stores := r.stores.map f } := by
  refine h.keep rfl rfl fun c' hc' => ?_
  obtain ⟨c, hc, rfl⟩ := getLast?_map hc'
  exact ⟨c, hc, fun hin => .inl (hfl c hin), fun hcon => (hcf c).trans hcon⟩

/-- A store that confirmed nothing leaves the record dirty and a timer armed. -/
theorem retained_requeue (attempt : ℕ) : Retained (r.requeue cfg attempt) := by
  rw [requeue_eq]
  exact ⟨fun _ => rfl, fun hd => by cases hd⟩

theorem retained_edit (hs : cfg.hasStore = true) (h : Retained r) (u8 : List UInt8) (mono : ℚ) :
    Retained (r.edit cfg u8 mono) := by
  by_cases ha : (Y.applyUpdate r.doc u8).2 = true
  · simp only [edit, if_pos ha]
    split
    · exact retained_storeNow hs
    · rw [scheduleStore, if_pos hs]
      exact ⟨fun _ => rfl, fun hd => by cases hd⟩
  · simp only [edit, if_neg ha]
    exact h.same rfl rfl rfl

theorem retained_expire (h : Retained r) (token : FlushToken) (reason : String) :
    Retained (r.expire cfg true token reason) := by
  unfold expire
  simp only
  split
  · rename_i hnone
    -- nothing was given up, so every store in flight is still awaited by somebody
    refine h.keep rfl rfl fun c' hc' => ?_
    obtain ⟨c, hc, rfl⟩ := getLast?_map hc'
    have hlast : c.lastWaiter token = false := by
      rw [getLast?_eq_none_iff, filter_eq_nil_iff] at hnone
      simpa using hnone c (mem_of_getLast? hc)
    refine ⟨c, hc, fun hin => .inl ?_, fun hcon => ?_⟩
    · rw [if_neg (by simp [hlast]), if_pos hin]
      exact hin
    · rw [if_neg (by simp [hlast])]
      split <;> exact hcon
  · rw [if_pos trivial]
    exact retained_requeue _

theorem retained_settleStore (hs : cfg.hasStore = true) (h : Retained r) {a : StoreAnswer}
    (hc : r.stores[k]? = some c) (hp : c.phase = .answered a) (hh : c.Honest)
    (hv : (r.settleStore cfg true k c a).1 ≠ .unload) :
    Retained (r.settleStore cfg true k c a).2 := by
  have hset : ∀ outcome, c.abandoned = true ∨ k + 1 ≠ r.stores.length ∨ c.confirmed = true →
      Retained { r with stores := r.stores.modify k fun d => { d with phase := .settled outcome } } := by
    intro outcome hcase
    refine h.keep rfl rfl fun c' hc' => ?_
    obtain ⟨d, hd, ⟨rfl, hk⟩ | ⟨rfl, -⟩⟩ := getLast?_modify hc'
    · refine ⟨d, hd, fun hin => ?_, id⟩
      rw [getLast?_eq_getElem?, ← hk, Nat.add_sub_cancel, hc] at hd
      cases hd
      rcases hcase with hab | hne | hcon
      · simp [inFlight, hab] at hin
      · exact absurd hk hne
      · exact .inr hcon
    · exact ⟨c', hd, .inl, id⟩
  revert hv
  simp only [settleStore, length_modify]
  split
  · rename_i hkeep
    intro _
    refine hset _ ?_
    simp only [Bool.not_true, Bool.or_false, Bool.or_eq_true, decide_eq_true_eq] at hkeep
    rcases hkeep with hab | hne
    · exact .inl hab
    · exact .inr (.inl hne)
  · rename_i hnewest
    have hab : c.abandoned = false := by
      by_contra hne
      simp [hne] at hnewest
    split
    · exact fun _ => retained_requeue _
    · split
      · intro hv
        exact absurd rfl hv
      · exact fun _ => retained_requeue _
    · have hcon : c.confirmed = true := hh.answered hab hp
      split
      · split
        · exact fun _ => retained_storeNow hs
        · intro hv
          exact absurd rfl hv
      · intro _
        exact (hset _ (.inr (.inr hcon))).same rfl rfl rfl

/-- Whatever happens to a record that stays in the map, it loses nothing. -/
theorem retained_recordStep {may : Guard Y Topic}
    (hs : cfg.hasStore = true) (hf : Faithful cfg r) (h : Retained r)
    (hstep : RecordStep cfg may true true r r') : Retained r' := by
  cases hstep with
  | rejoin => exact h.same rfl rfl rfl
  | refer => exact h.same rfl rfl rfl
  | dropRef =>
    simp only [dropRef]
    split
    · exact h.same rfl rfl rfl
    · split
      · exact retained_storeNow hs
      · exact h.same rfl rfl rfl
  | edit u8 mono => exact retained_edit hs h u8 mono
  | flushOne token =>
    simp only [flushOne]
    split
    · exact retained_storeNow hs
    · refine h.map (fun c hin => ?_) fun c => ?_
      · rw [if_pos hin]
        exact hin
      · split <;> rfl
  | forgetFlush token =>
    refine h.map (fun c hin => ?_) fun c => ?_
    · rw [if_pos hin]
      exact hin
    · split <;> rfl
  | expire token reason => exact retained_expire h token reason
  | fire =>
    simp only [fire]
    split
    · exact retained_storeNow hs
    · rename_i hd
      simp only [Bool.true_and, Bool.not_eq_true] at hd
      exact ⟨fun hd' => absurd (hd.symm.trans hd') (by simp), h.newest⟩
  | loading => exact h.same rfl rfl rfl
  | hydrate _ malformed a hp hh =>
    obtain ⟨doc, rfl, -⟩ := hydrate_ok hh
    exact h.same rfl rfl rfl
  | dispatchStore k c hc hp =>
    refine h.modify hc (fun hin => .inl ?_) fun hcon => ?_
    · have hab : c.abandoned = false := by
        by_contra hne
        simp [inFlight, hne] at hin
      rw [if_neg (by simp [hab])]
      simpa [inFlight, abandoned] using hab
    · split <;> exact hcon
  | answerStore k c a hc hp =>
    refine h.modify hc (fun hin => .inl ?_) fun hcon => by simp [hcon]
    simpa [inFlight, abandoned, hp] using hin
  | settleStore k c a hc hp hv =>
    exact retained_settleStore hs h hc hp (hf.honest c (mem_of_getElem? hc))
      fun hun => by cases hv hun
  | settleChain k c outcome hc hp hch =>
    refine h.modify hc (fun hin => .inl ?_) id
    simpa [inFlight, abandoned] using hin
  | unload reason hl => cases hl

/-- Everything a clean record accepted is in its newest store. -/
theorem newest_contains {r : TopicRecord Y Topic} (hs : cfg.hasStore = true)
    (hf : Faithful cfg r) (hd : r.dirty = false) {u : List UInt8} (hu : u ∈ r.accepted) :
    ∃ c, r.stores.getLast? = some c ∧ Y.Contains c.blob u := by
  rcases hf.clean hs hd with hnil | ⟨c, hc, hcap⟩
  · simp [hnil] at hu
  · obtain ⟨n, hn⟩ := getElem?_of_mem hu
    have hlt : n < c.captured := hcap ▸ (List.getElem?_eq_some_iff.mp hn).1
    exact ⟨c, hc, hf.contains c (mem_of_getLast? hc) n u hlt hn⟩

theorem confirmed_unload {r : TopicRecord Y Topic} {u : List UInt8} (h : Confirmed r u)
    (reason : String) : Confirmed (r.unload reason) u := by
  obtain ⟨c, hc, hcon, hu⟩ := h
  refine ⟨if c.inFlight then c.abandon reason true else c, ?_, ?_, ?_⟩
  · exact mem_map.mpr ⟨c, hc, rfl⟩
  · split <;> exact hcon
  · split <;> exact hu

/-- What a record that left says for itself: nobody refers to it, and everything it accepted is
confirmed, or the host declined its newest store. -/
structure LeftWritten (r : TopicRecord Y Topic) : Prop where
  /-- Nobody refers to it. -/
  refs_eq : r.refs = 0
  /-- Nothing is unwritten that the host did not decline. -/
  written : (∀ u ∈ r.accepted, Confirmed r u) ∨
    ∃ c, r.stores.getLast? = some c ∧ c.phase = .settled .declined

/-- The deferred check of a release, where no store is in flight. -/
theorem leftWritten_released {r : TopicRecord Y Topic} (hs : cfg.hasStore = true)
    (hpe : cfg.persistOnEmpty = true) (hf : Faithful cfg r) (h : Retained r)
    (hrel : r.releasable cfg = true)
    (hquiet : ∀ c, r.stores.getLast? = some c → c.inFlight = true → c.confirmed = true)
    (reason : String) :
    LeftWritten (r.unload reason) := by
  simp only [releasable, hs, hpe, Bool.not_true, Bool.or_false, Bool.and_eq_true,
    decide_eq_true_eq, Bool.not_eq_true'] at hrel
  obtain ⟨⟨hrefs, -⟩, hd⟩ := hrel
  refine ⟨hrefs, .inl fun u hu => confirmed_unload ?_ reason⟩
  obtain ⟨c, hc, hcu⟩ := newest_contains hs hf hd hu
  have hcon : c.confirmed = true := by
    rcases h.newest hd c hc with hin | hcon
    · exact hquiet c hc hin
    · exact hcon
  exact ⟨c, mem_of_getLast? hc, hcon, hcu⟩

theorem leftWritten_settled {r : TopicRecord Y Topic} (hs : cfg.hasStore = true)
    (hf : Faithful cfg r) {a : StoreAnswer} (hc : r.stores[k]? = some c)
    (hp : c.phase = .answered a) (hv : (r.settleStore cfg true k c a).1 = .unload) (reason : String) :
    LeftWritten ((r.settleStore cfg true k c a).2.unload reason) := by
  revert hv
  simp only [settleStore, length_modify]
  split
  · intro hv
    cases hv
  · rename_i hnewest
    simp only [Bool.not_true, Bool.or_false, Bool.or_eq_true, decide_eq_true_eq, not_or,
      Bool.not_eq_true, not_not] at hnewest
    obtain ⟨hab, hk⟩ := hnewest
    have hlast : r.stores.getLast? = some c := by
      rw [getLast?_eq_getElem?, ← hk, Nat.add_sub_cancel, hc]
    cases a with
    | rejected err =>
      intro hv
      cases hv
    | resolved refused =>
      cases refused with
      | true =>
        simp only
        split
        · rename_i hun
          intro _
          simp only [Bool.and_eq_true, decide_eq_true_eq] at hun
          refine ⟨hun.2, .inr ⟨{ c with phase := .settled .declined }, ?_, rfl⟩⟩
          simp only [unload, abortInFlight, clearSchedule,
            List.getLast?_map]
          rw [List.getLast?_eq_getElem?, List.length_modify, ← hk, Nat.add_sub_cancel,
            getElem?_modify_eq, hc]
          simp [outcomeOf, hab, inFlight]
        · intro hv
          cases hv
      | false =>
        have hcon : c.confirmed = true :=
          (hf.honest c (mem_of_getElem? hc)).answered hab hp
        simp only
        split
        · rename_i hun
          split
          · intro hv
            cases hv
          · rename_i hd
            intro _
            simp only [Bool.and_eq_true, decide_eq_true_eq] at hun
            refine ⟨hun.2, .inl fun u hu => confirmed_unload ?_ reason⟩
            obtain ⟨c', hc', hcu⟩ := newest_contains hs hf (by simpa using hd) hu
            rw [hlast] at hc'
            cases hc'
            refine ⟨{ c with phase := .settled (outcomeOf c.abandoned
              (.resolved false)) }, ?_, hcon, hcu⟩
            refine mem_of_getElem? (i := k) ?_
            simp [hc]
        · intro hv
          cases hv

end Steps

/-! ## Runs -/

section Runs

variable [DecidableEq Topic] {s s' : Authority Y Topic} {e : Event Topic}

/-- The condition on the deferred check of a release: it does not unload a record whose newest
store is in flight and not confirmed. -/
def quietRelease (cfg : Config) (s : Authority Y Topic) : Event Topic → Bool
  | .releaseSettles d => (s.deferred[d]?).all fun q =>
    (s.recs[q.record]?).all fun r => !(s.live q.record && r.releasable cfg) ||
      (r.stores.getLast?).all fun c => !c.inFlight || c.confirmed
  | _ => true

/-- Every record in the topic map loses nothing. -/
def AllRetained (s : Authority Y Topic) : Prop :=
  ∀ (i : ℕ) r, s.recs[i]? = some r → s.live i = true → Retained r

theorem allRetained_step (hs : cfg.hasStore = true) (hsound : s.Sound cfg) (h : AllRetained s)
    (hstep : s.step cfg e = some s') : AllRetained s' := by
  intro i r' hr' hlive'
  rcases Authority.step_records hsound.mapped Authority.allows_any hstep hr' with
    ⟨t, id, rfl, -⟩ | ⟨r, hr, hsteps, hlive⟩
  · exact retained_fresh t id
  · rw [hlive', hlive hlive'] at hsteps
    have hinv : Faithful cfg r' ∧ Retained r' := by
      refine RecordSteps.invariant (I := fun q => Faithful cfg q ∧ Retained q) ?_ hsteps
        ⟨hsound.faithful i r hr, h i r hr (hlive hlive')⟩
      intro q q' hq hqs
      exact ⟨(faithful_recordSteps hq.1 (.single hqs)).1, retained_recordStep hs hq.1 hq.2 hqs⟩
    exact hinv.2

theorem allRetained_of_reaches {ok : Authority Y Topic → Event Topic → Prop}
    (hs : cfg.hasStore = true) {es : List (Event Topic)}
    (h : (crdtAuthority Y Topic cfg).ReachesWhere ok es s) : AllRetained s := by
  have hinv : s.Sound cfg ∧ AllRetained s := by
    refine Machine.ReachesWhere.invariant (I := fun s => s.Sound cfg ∧ AllRetained s) ?_ ?_ h
    · exact ⟨Authority.sound_start, fun i r hr => by simp [crdtAuthority, Authority.start] at hr⟩
    · intro s e s' hI _ hstep
      exact ⟨Authority.sound_step hI.1 hstep, allRetained_step hs hI.1 hI.2 hstep⟩
  exact hinv.2

/-- In every run whose deferred checks are quiet, an update that a live record accepted is in a
confirmed blob, behind a timer, or in the newest store, which is on its way; and a record leaves
the topic map, other than by `drop`, `destroy` or a failed load, only with nobody referring to it
and with everything confirmed or its newest store declined. -/
theorem edits_retained (hs : cfg.hasStore = true) (hpe : cfg.persistOnEmpty = true)
    {es : List (Event Topic)}
    (h : (crdtAuthority Y Topic cfg).ReachesWhere (fun s e => quietRelease cfg s e = true) es s) :
    (∀ (i : ℕ) r, s.live i = true → s.recs[i]? = some r → ∀ u ∈ r.accepted, ¬ Confirmed r u →
      r.debounceTimer.isSome = true ∨
      ∃ c, r.stores.getLast? = some c ∧ c.inFlight = true ∧ Y.Contains c.blob u) ∧
    ∀ (e : Event Topic) s', quietRelease cfg s e = true → s.step cfg e = some s' →
      (∀ t, e ≠ .drop t) → e ≠ .destroy → (∀ j m, e ≠ .loadSettles j m) →
      ∀ (t : Topic) (i : ℕ), s.topics.get t = some i → s'.topics.get t ≠ some i →
        ∃ r', s'.recs[i]? = some r' ∧ LeftWritten r' := by
  have hsound := Authority.sound_of_reaches h
  have hret := allRetained_of_reaches hs h
  refine ⟨fun i r hlive hr u hu hcon => ?_,
    fun e s' hquiet hstep hdrop hdestroy hload t i ht ht' => ?_⟩
  · cases hd : r.dirty with
    | true => exact .inl ((hret i r hr hlive).armed hd)
    | false =>
      obtain ⟨c, hc, hcu⟩ := newest_contains hs (hsound.faithful i r hr) hd hu
      rcases (hret i r hr hlive).newest hd c hc with hin | hcf
      · exact .inr ⟨c, hc, hin, hcu⟩
      · exact absurd ⟨c, mem_of_getLast? hc, hcf, hcu⟩ hcon
  · cases Authority.leaves_of_removed hsound.mapped hstep hdrop hdestroy hload ht ht' with
    | released hd hr hlive hrel hr' =>
      refine ⟨_, hr', leftWritten_released hs hpe (hsound.faithful i _ hr)
        (hret i _ hr hlive) hrel (fun c hc hin => ?_) _⟩
      simpa [quietRelease, hd, hr, hlive, hrel, hc, hin] using hquiet
    | settled hr hlive hc hp hv hr' =>
      exact ⟨_, hr', leftWritten_settled hs (hsound.faithful i _ hr) hc hp hv _⟩

end Runs

/-- The last holder leaves a clean record, and the check waits for its store. A second holder
comes, edits and leaves: the edit is captured by a store queued behind the first one. -/
def strandedRun : List (Event ℕ) :=
  warmRun ++ [.timerFires 0, .storeDispatches 0 0, .release 0 (some 0), .acquire 0 1,
    .acquireSettles 1, .applyUpdate 0 (.uint8Array [2]) 10, .release 0 (some 1),
    .storeAnswers 0 0 (.resolved false), .storeSettles 0 0, .chainSettles 0 0]

/-- The record of a second holder that waits for its store, whose check is then quiet. -/
theorem edits_retained_quietRun :
    ∃ s : Authority Yjs.log ℕ,
      (crdtAuthority Yjs.log ℕ (Config.defaults true)).ReachesWhere
        (fun s e => quietRelease (Config.defaults true) s e = true) strandedRun s ∧
      ∃ r, s.recs[0]? = some r ∧ s.live 0 = true ∧ r.accepted = [[1], [2]] ∧
        ∀ u ∈ r.accepted, ¬ Confirmed r u → r.debounceTimer.isSome = true ∨
          ∃ c, r.stores.getLast? = some c ∧ c.inFlight = true ∧ Yjs.log.Contains c.blob u := by
  obtain ⟨s, hs, hp⟩ : ∃ s, (crdtAuthority Yjs.log ℕ (Config.defaults true)).ReachesWhere
      (fun s e => quietRelease (Config.defaults true) s e = true) strandedRun s ∧
      (s.live 0 && (s.recs[0]?).any fun r => r.accepted = [[1], [2]]) = true :=
    Machine.exists_of_execWhere (by decide +kernel)
  rw [Bool.and_eq_true, Option.any_eq_true] at hp
  obtain ⟨hlive, r, hr, hacc⟩ := hp
  exact ⟨s, hs, r, hr, hlive, of_decide_eq_true hacc,
    (edits_retained rfl rfl hs).1 0 r hlive hr⟩

/-- The check registered for the first holder gives the queued store up and unloads the record,
with an accepted edit in no confirmed blob. -/
theorem edit_unloaded :
    ¬ ∀ (es : List (Event ℕ)) (s : Authority Yjs.log ℕ),
      (crdtAuthority Yjs.log ℕ (Config.defaults true)).Reaches es s →
        ∀ (e : Event ℕ) s', s.step (Config.defaults true) e = some s' →
          (∀ t, e ≠ .drop t) → e ≠ .destroy → (∀ j m, e ≠ .loadSettles j m) →
          ∀ (t : ℕ) (i : ℕ), s.topics.get t = some i → s'.topics.get t ≠ some i →
            ∃ r', s'.recs[i]? = some r' ∧ LeftWritten r' := by
  intro h
  obtain ⟨s, hs, hp⟩ : ∃ s, (crdtAuthority Yjs.log ℕ (Config.defaults true)).Reaches strandedRun s ∧
      (s.topics.get 0 = some 0 && (s.step (Config.defaults true) (.releaseSettles 0)).any fun s' =>
      s'.topics.get 0 = none && (s'.recs[0]?).any fun r => [2] ∈ r.accepted &&
      (r.stores.getLast?).all (fun c => c.phase ≠ .settled .declined) && r.stores.all fun c =>
      !(c.confirmed && decide ([2] <:+: c.blob))) = true :=
    Machine.exists_of_exec (by decide +kernel)
  rw [Bool.and_eq_true, Option.any_eq_true, decide_eq_true_eq] at hp
  obtain ⟨ht, s', hstep, hp⟩ := hp
  rw [Bool.and_eq_true, Option.any_eq_true, decide_eq_true_eq] at hp
  obtain ⟨ht', r, hr, hp⟩ := hp
  simp only [Bool.and_eq_true, decide_eq_true_eq, all_eq_true] at hp
  obtain ⟨⟨hmem, hlast⟩, hall⟩ := hp
  obtain ⟨r', hr', hleft⟩ := h _ s hs _ s' hstep (fun t => by simp) (by simp) (fun j m => by simp)
    0 0 ht (by simp [ht'])
  rw [hr] at hr'
  cases hr'
  rcases hleft.written with hcon | ⟨c, hc, hp⟩
  · obtain ⟨c, hc, hconf, hcu⟩ := hcon [2] hmem
    have hinfix : [2] <:+: c.blob := hcu
    simpa [hconf, hinfix] using hall c hc
  · simp [hc, hp] at hlast

end AdapterWs.Crdt
