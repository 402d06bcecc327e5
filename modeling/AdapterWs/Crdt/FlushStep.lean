import AdapterWs.Crdt.Frame

/-!
# CRDT authority: what one event does to one flush

A flush is opened once, learns the outcome of one topic after the other, and resolves with the
last of them or with its deadline. `flush_cases` says that nothing else happens to it.
-/

namespace AdapterWs.Crdt

open List Option

variable {Y : Yjs} {Topic : Type} [DecidableEq Topic] {cfg : Config}
  {s s' : Authority Y Topic} {f : ℕ} {fl fl' : Flush Topic} {e : Event Topic} {topic : Topic}

/-- A flush that an event opened. -/
inductive FlushOpen (cfg : Config) (s s' : Authority Y Topic) : Flush Topic → Prop
  /-- Over some records. -/
  | pending (token : FlushToken) (targets : List (Topic × ℕ)) :
      (∀ p ∈ targets, s.topics.get p.1 = some p.2) → (targets.map Prod.fst).Nodup →
      targets ≠ [] →
      s'.recs = (s.updateAll (fun i => i ∈ targets.map Prod.snd) fun _ =>
        TopicRecord.flushOne cfg token).recs →
      FlushOpen cfg s s' (s'.openFlush token targets)
  /-- Over nothing, so that it resolves at once. -/
  | empty (token : FlushToken) (res : FlushResult Topic) :
      FlushOpen cfg s s' ((s'.openFlush token []).resolve res)

/-- A flush that an event moves. -/
inductive FlushStep (cfg : Config) (s s' : Authority Y Topic) (f : ℕ) (fl : Flush Topic) :
    Event Topic → Flush Topic → Prop
  /-- A topic answers, and others are pending. -/
  | answer (t : FlushTarget Topic) (outcome : Outcome) : t ∈ fl.targets →
      s.chainValue t.record t.awaits = some outcome → t.topic ∈ fl.pending →
      (fl.answer t.topic outcome).waiting ≠ 0 →
      FlushStep cfg s s' f fl (.flushSettles f t.topic) (fl.answer t.topic outcome)
  /-- The last topic answers. -/
  | last (t : FlushTarget Topic) (outcome : Outcome) : t ∈ fl.targets →
      s.chainValue t.record t.awaits = some outcome → t.topic ∈ fl.pending →
      (fl.answer t.topic outcome).waiting = 0 → s'.topics = s.topics →
      s'.destroyed = s.destroyed →
      s'.recs = (s.updateAll (fun i => i ∈ fl.targets.map FlushTarget.record) fun _ =>
        TopicRecord.forgetFlush fl.token).recs →
      FlushStep cfg s s' f fl (.flushSettles f t.topic) ((fl.answer t.topic outcome).resolve
        (s'.buildFlushResult cfg fl.targets (fl.answer t.topic outcome).outcomes))
  /-- The deadline passes. -/
  | expire : fl.timer = true →
      FlushStep cfg s s' f fl (.flushDeadline f) (fl.timeOut.resolve
        (s'.buildFlushResult cfg fl.targets fl.timeOut.outcomes))

namespace Authority

/-- Forgetting the waiters changes nothing a report reads. -/
theorem buildFlushResult_congr {targets : List (FlushTarget Topic)}
    {outcomes : JsMap Topic Outcome} (ht : s'.topics = s.topics)
    (hrecs : ∀ i : ℕ, ((s'.recs[i]?).any fun r => r.dirty) = ((s.recs[i]?).any fun r => r.dirty)) :
    s'.buildFlushResult cfg targets outcomes = s.buildFlushResult cfg targets outcomes := by
  have hun : s'.unconfirmed outcomes = s.unconfirmed outcomes := by
    funext t
    rw [unconfirmed, unconfirmed, hrecs, ht]
  rw [buildFlushResult, buildFlushResult, hun]

theorem dirty_forgetFlush {p : ℕ → Bool} {token : FlushToken} (i : ℕ) :
    ((s.updateAll p fun _ => TopicRecord.forgetFlush token).recs[i]?.any fun r => r.dirty) =
      ((s.recs[i]?).any fun r => r.dirty) := by
  rw [getElem?_updateAll]
  cases s.recs[i]? with
  | none => rfl
  | some r =>
    rw [map_some, any_some, any_some]
    split <;> rfl

/-- The report is the one the authority would give right after it. -/
theorem flushes_finish (s : Authority Y Topic) (f : ℕ) (fl : Flush Topic) :
    (s.finish cfg f fl).flushes = s.flushes.set f
      (fl.resolve ((s.finish cfg f fl).buildFlushResult cfg fl.targets fl.outcomes)) := by
  have hres : (s.finish cfg f fl).buildFlushResult cfg fl.targets fl.outcomes =
      s.buildFlushResult cfg fl.targets fl.outcomes :=
    buildFlushResult_congr rfl dirty_forgetFlush
  rw [hres]
  rfl

theorem flushes_finish_last {l : List (Flush Topic)} {fl₀ : Flush Topic}
    (hl : s.flushes = l ++ [fl₀]) (fl : Flush Topic) :
    (s.finish cfg l.length fl).flushes = l ++
      [fl.resolve ((s.finish cfg l.length fl).buildFlushResult cfg fl.targets fl.outcomes)] := by
  rw [flushes_finish, hl, set_append_right _ _ le_rfl, Nat.sub_self]
  rfl

theorem flushes_runFlush {targets : List (Topic × ℕ)}
    (hget : ∀ p ∈ targets, s.topics.get p.1 = some p.2) (hnd : (targets.map Prod.fst).Nodup)
    (timeout : WithTop ℚ) (now : ℚ) :
    ∃ fl, (s.runFlush cfg targets timeout now).flushes = s.flushes ++ [fl] ∧
      FlushOpen cfg s (s.runFlush cfg targets timeout now) fl := by
  unfold runFlush
  by_cases ht : targets = []
  · subst ht
    rw [if_pos rfl]
    exact ⟨_, flushes_finish_last rfl _, .empty ⟨s.flushes.length, Option.map (now + ·) timeout⟩ _⟩
  · rw [if_neg ht]
    exact ⟨_, rfl, .pending _ targets hget hnd ht rfl⟩

theorem flushes_persistNow (topic options : FlushArg Topic) (now : ℚ) :
    (s.persistNow cfg topic options now).flushes = s.flushes ∨
    ∃ fl, (s.persistNow cfg topic options now).flushes = s.flushes ++ [fl] ∧
      FlushOpen cfg s (s.persistNow cfg topic options now) fl := by
  unfold persistNow
  split
  · exact .inl rfl
  · rename_i name timeout _
    refine .inr (flushes_runFlush (fun p hp => ?_) ?_ timeout now)
    · cases name with
      | none => exact JsMap.get_eq_some_iff.mpr hp
      | some t =>
        obtain ⟨i, hi, rfl⟩ := mem_map.mp hp
        exact mem_toList.mp hi
    · cases name with
      | none => exact s.topics.nodup
      | some t => cases s.topics.get t <;> simp

theorem flushes_settleFlush (h : s.settleFlush cfg f topic = some s') :
    ∃ fl fl', s.flushes[f]? = some fl ∧ s'.flushes = s.flushes.set f fl' ∧
      FlushStep cfg s s' f fl (.flushSettles f topic) fl' := by
  simp only [settleFlush, bind_eq_bind, bind_eq_some_iff] at h
  obtain ⟨fl, hfl, target, htarget, outcome, hch, h⟩ := h
  have hmem := mem_of_find?_eq_some htarget
  have htopic : target.topic = topic := by simpa using find?_some htarget
  subst htopic
  split at h
  · rename_i hp
    rw [Option.pure_def, Option.some.injEq] at h
    split at h
    · rename_i hzero
      subst h
      refine ⟨fl, _, hfl, ?_, .last target outcome hmem hch hp hzero rfl rfl rfl⟩
      rw [flushes_finish, set_set]
      rfl
    · rename_i hrest
      subst h
      exact ⟨fl, _, hfl, rfl, .answer target outcome hmem hch hp hrest⟩
  · cases h

theorem flushes_expireFlush (h : s.expireFlush cfg f = some s') :
    ∃ fl fl', s.flushes[f]? = some fl ∧ s'.flushes = s.flushes.set f fl' ∧
      FlushStep cfg s s' f fl (.flushDeadline f) fl' := by
  simp only [expireFlush, bind_eq_bind, bind_eq_some_iff] at h
  obtain ⟨fl, hfl, h⟩ := h
  split at h
  · rename_i htimer
    rw [Option.pure_def] at h
    cases h
    refine ⟨fl, _, hfl, ?_, .expire htimer⟩
    rw [flushes_finish, set_set]
    rfl
  · cases h

/-- Every event leaves a flush alone, opens it, or moves it. -/
theorem flush_cases (h : s.step cfg e = some s') (hfl' : s'.flushes[f]? = some fl') :
    s.flushes[f]? = some fl' ∨ s.flushes[f]? = none ∧ FlushOpen cfg s s' fl' ∨
    ∃ fl, s.flushes[f]? = some fl ∧ FlushStep cfg s s' f fl e fl' := by
  have hmoved : (∃ g fl₀ fl₁, s.flushes[g]? = some fl₀ ∧ s'.flushes = s.flushes.set g fl₁ ∧
      FlushStep cfg s s' g fl₀ e fl₁) →
      s.flushes[f]? = some fl' ∨ ∃ fl, s.flushes[f]? = some fl ∧ FlushStep cfg s s' f fl e fl' := by
    rintro ⟨g, fl₀, fl₁, hfl₀, hset, hstep⟩
    rw [hset] at hfl'
    by_cases hg : g = f
    · subst hg
      rw [List.getElem?_set_self (List.getElem?_eq_some_iff.mp hfl₀).1, Option.some.injEq] at hfl'
      exact .inr ⟨fl₀, hfl₀, hfl' ▸ hstep⟩
    · rw [getElem?_set_ne hg] at hfl'
      exact .inl hfl'
  have hframe := frame_step h
  cases e with
  | persistNow topic options now =>
    rw [step] at h
    cases h
    rcases flushes_persistNow topic options now with heq | ⟨fl, heq, hopen⟩
    · exact .inl (heq ▸ hfl')
    · rw [heq, getElem?_append] at hfl'
      split at hfl'
      · exact .inl hfl'
      · rename_i hlt
        rw [getElem?_singleton] at hfl'
        split at hfl'
        · cases hfl'
          exact .inr (.inl ⟨getElem?_eq_none (by omega), hopen⟩)
        · cases hfl'
  | flushSettles g topic =>
    obtain ⟨fl₀, fl₁, hmv⟩ := flushes_settleFlush h
    exact (hmoved ⟨g, fl₀, fl₁, hmv⟩).imp id .inr
  | flushDeadline g =>
    obtain ⟨fl₀, fl₁, hmv⟩ := flushes_expireFlush h
    exact (hmoved ⟨g, fl₀, fl₁, hmv⟩).imp id .inr
  | acquire _ _ | releaseSettles _ | loadSettles _ _ | storeSettles _ _ | release _ _ | destroy =>
    obtain ⟨_, _, _, rfl⟩ := hframe
    exact .inl hfl'
  | acquireSettles _ | drop _ =>
    obtain ⟨_, _, rfl⟩ := hframe
    exact .inl hfl'
  | applyUpdate _ _ _ | timerFires _ | loadDispatches _ | loadAnswers _ _ | storeDispatches _ _
  | storeAnswers _ _ _ | chainSettles _ _ =>
    obtain ⟨_, rfl⟩ := hframe
    exact .inl hfl'

end Authority

/-! ## The shape of a flush -/

/-- What a flush keeps of its own columns. -/
structure FlushShape (fl : Flush Topic) : Prop where
  /-- It covers a topic once. -/
  nodup : (fl.targets.map FlushTarget.topic).Nodup
  /-- A topic is pending once. -/
  pending_nodup : fl.pending.Nodup
  /-- What is pending is covered. -/
  pending_sub : ∀ topic ∈ fl.pending, topic ∈ fl.targets.map FlushTarget.topic
  /-- While something is pending, it counts what is. -/
  waiting_eq : fl.pending ≠ [] → fl.waiting = fl.pending.length
  /-- What is not pending has answered. -/
  answered : ∀ t ∈ fl.targets, t.topic ∈ fl.pending ∨ fl.outcomes.get t.topic ≠ none
  /-- While the deadline is armed, something is pending. -/
  timed : fl.timer = true → fl.pending ≠ []

theorem shape_open (token : FlushToken) {targets : List (Topic × ℕ)}
    (hnd : (targets.map Prod.fst).Nodup) : FlushShape (s.openFlush token targets) := by
  have hmap : (s.openFlush token targets).targets.map FlushTarget.topic =
      targets.map Prod.fst := by
    rw [Authority.openFlush, List.map_map]
    rfl
  refine ⟨hmap ▸ hnd, hnd, fun topic h => hmap ▸ h, fun _ => ?_, fun t ht => .inl ?_,
    fun ht => ?_⟩
  · simp [Authority.openFlush]
  · have := mem_map_of_mem (f := FlushTarget.topic) ht
    rwa [hmap] at this
  · simp only [Authority.openFlush, Bool.and_eq_true, decide_eq_true_eq] at ht ⊢
    simpa using ht.2

theorem length_answer (h : FlushShape fl) (hp : topic ∈ fl.pending) (outcome : Outcome) :
    (fl.answer topic outcome).waiting =
      (fl.answer topic outcome).pending.length := by
  have hlen : (fl.pending.filter (· ≠ topic)).length = fl.pending.length - 1 := by
    rw [← length_erase_of_mem hp, h.pending_nodup.erase_eq_filter]
    congr 1
    exact filter_congr fun x _ => by by_cases hx : x = topic <;> simp [hx]
  rw [Flush.answer, hlen, h.waiting_eq (ne_nil_of_mem hp)]

theorem answered_answer (h : FlushShape fl) (topic : Topic) (outcome : Outcome) :
    ∀ t ∈ fl.targets, t.topic ∈ (fl.answer topic outcome).pending ∨
      (fl.answer topic outcome).outcomes.get t.topic ≠ none := by
  intro t ht
  simp only [Flush.answer, JsMap.get_set]
  by_cases heq : topic = t.topic
  · exact .inr (by simp [heq])
  · rw [if_neg heq]
    rcases h.answered t ht with hpend | hans
    · exact .inl (mem_filter.mpr ⟨hpend, by simpa using Ne.symm heq⟩)
    · exact .inr hans

theorem get_foldl_timedout (l : List Topic) (m : JsMap Topic Outcome) (topic : Topic) :
    (l.foldl (fun m topic => m.set topic .timedout) m).get topic =
      if topic ∈ l then some .timedout else m.get topic := by
  induction l generalizing m with
  | nil => simp
  | cons a l ih =>
    rw [foldl_cons, ih, JsMap.get_set]
    by_cases hl : topic ∈ l
    · simp [hl]
    · by_cases ha : a = topic
      · simp [ha]
      · simp [hl, ha, Ne.symm ha]

theorem get_timeOut (fl : Flush Topic) (topic : Topic) : fl.timeOut.outcomes.get topic =
    if topic ∈ fl.pending then some .timedout else fl.outcomes.get topic :=
  get_foldl_timedout fl.pending fl.outcomes topic

theorem answered_timeOut (h : FlushShape fl) :
    ∀ t ∈ fl.targets, fl.timeOut.outcomes.get t.topic ≠ none := by
  intro t ht
  rw [get_timeOut]
  by_cases hp : t.topic ∈ fl.pending
  · simp [hp]
  · rw [if_neg hp]
    exact (h.answered t ht).resolve_left hp

theorem shape_resolve (g : Flush Topic) (hnd : (g.targets.map FlushTarget.topic).Nodup)
    (hp : g.pending = []) (hans : ∀ t ∈ g.targets, g.outcomes.get t.topic ≠ none)
    (res : FlushResult Topic) : FlushShape (g.resolve res) := by
  refine ⟨hnd, ?_, ?_, ?_, fun t ht => .inr (hans t ht), fun ht => by cases ht⟩
  · rw [Flush.resolve, hp]
    exact nodup_nil
  · rw [Flush.resolve, hp]
    intro topic h
    cases h
  · rw [Flush.resolve, hp]
    intro h
    exact absurd rfl h

theorem pending_last (h : FlushShape fl) (hp : topic ∈ fl.pending) {outcome : Outcome}
    (hzero : (fl.answer topic outcome).waiting = 0) : (fl.answer topic outcome).pending = [] := by
  rw [length_answer h hp] at hzero
  exact length_eq_zero_iff.mp hzero

theorem shape_step (h : FlushShape fl) (hs : FlushStep cfg s s' f fl e fl') : FlushShape fl' := by
  cases hs with
  | answer t outcome _ _ hp hrest =>
    refine ⟨h.nodup, h.pending_nodup.filter _,
      fun t ht => h.pending_sub t (mem_filter.mp ht).1,
      fun _ => length_answer h hp outcome, answered_answer h _ outcome, fun _ hnil => hrest ?_⟩
    rw [length_answer h hp, hnil, length_nil]
  | last t outcome _ _ hp hzero =>
    have hnil := pending_last h hp hzero
    refine shape_resolve (fl.answer t.topic outcome) h.nodup hnil (fun t' ht' => ?_) _
    rcases answered_answer h t.topic outcome t' ht' with hpend | hans
    · rw [hnil] at hpend
      cases hpend
    · exact hans
  | expire => exact shape_resolve fl.timeOut h.nodup rfl (fun t ht => answered_timeOut h t ht) _

/-- Every flush has its shape. -/
def AllShaped (s : Authority Y Topic) : Prop :=
  ∀ (f : ℕ) fl, s.flushes[f]? = some fl → FlushShape fl

theorem allShaped_step (h : AllShaped s) (hstep : s.step cfg e = some s') : AllShaped s' := by
  intro f fl' hfl'
  rcases Authority.flush_cases hstep hfl' with hold | ⟨-, hopen⟩ | ⟨fl, hfl, hs⟩
  · exact h f fl' hold
  · cases hopen with
    | pending token targets _ hnd => exact shape_open token hnd
    | empty token res => exact shape_resolve (s'.openFlush token []) nodup_nil rfl (fun t ht => by cases ht) res
  · exact shape_step (h f fl hfl) hs

end AdapterWs.Crdt
