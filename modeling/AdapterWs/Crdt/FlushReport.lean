import AdapterWs.Crdt.FlushStep
import AdapterWs.Crdt.RecordEffect

/-!
# CRDT authority: what a flush reports

A flush awaits, for each of its records, the chain of a store that captured everything the record
had accepted when the flush began: the store it armed, or the newest one if the record was clean.
So a durable answer means that a blob with all of it was confirmed, and it stays so, because logs
only grow and confirmations stay.
-/

namespace AdapterWs.Crdt

open List Authority

variable {Y : Yjs} {Topic : Type} {cfg : Config}

/-- The first `n` updates of the log are in confirmed blobs captured after them. -/
def Written (r : TopicRecord Y Topic) (n : ℕ) : Prop :=
  ∀ (k : ℕ) u, k < n → r.accepted[k]? = some u →
    ∃ c ∈ r.stores, k < c.captured ∧ c.confirmed = true ∧ Y.Contains c.blob u

section Records

variable {r r' : TopicRecord Y Topic}

theorem written_of_confirmed (hf : Faithful cfg r) {c : StoreCall} (hc : c ∈ r.stores)
    (hcon : c.confirmed = true) {n : ℕ} (hn : n ≤ c.captured) : Written r n := by
  intro k u hk hu
  have hlt : k < c.captured := by omega
  exact ⟨c, hc, hlt, hcon, hf.contains c hc k u hlt hu⟩

theorem Written.grows {n : ℕ} (h : Written r n) (hg : Grows r r') (hn : n ≤ r.accepted.length) :
    Written r' n := by
  intro k u hk hu
  obtain ⟨rest, hrest⟩ := hg.log_prefix
  rw [← hrest, getElem?_append_left (by omega)] at hu
  obtain ⟨c, hc, hcap, hcon, hcu⟩ := h k u hk hu
  obtain ⟨j, hj⟩ := getElem?_of_mem hc
  obtain ⟨c', hc', hf⟩ := hg.stores j c hj
  refine ⟨c', mem_of_getElem? hc', ?_, hf.confirmed hcon, ?_⟩
  · rw [hf.captured_eq]
    exact hcap
  · rw [hf.blob_eq]
    exact hcu

/-- A record a flush has just covered is clean, or was never edited. -/
theorem flushOne_clean (hs : cfg.hasStore = true) (token : FlushToken)
    (hf : Faithful cfg (r.flushOne cfg token)) :
    (r.flushOne cfg token).dirty = false ∨ (r.flushOne cfg token).accepted = [] := by
  cases hl : (r.flushOne cfg token).loaded with
  | false => exact .inr (hf.unloaded hl).1
  | true =>
    refine .inl ?_
    revert hl
    simp only [TopicRecord.flushOne, storeNow_eq, hs, Bool.and_true]
    split
    · exact fun _ => rfl
    · rename_i hd
      intro hl
      have hl : r.loaded = true := hl
      simpa [hl] using hd

/-- The chain of a clean record belongs to a store that captured all of it. -/
theorem storing_captures (hs : cfg.hasStore = true) (hf : Faithful cfg r)
    (hclean : r.dirty = false ∨ r.accepted = []) :
    (storing r = none → r.accepted.length = 0) ∧
    ∀ k, storing r = some k →
      ∃ c, r.stores[k]? = some c ∧ r.accepted.length ≤ c.captured := by
  have hcap : r.accepted = [] ∨ ∃ c, r.stores.getLast? = some c ∧
      c.captured = r.accepted.length := by
    rcases hclean with hd | hnil
    · exact hf.clean hs hd
    · exact .inl hnil
  unfold storing
  split
  · rename_i hnil
    refine ⟨fun _ => ?_, (fun k hk => by cases hk)⟩
    rcases hcap with hacc | ⟨c, hc, -⟩
    · rw [hacc, length_nil]
    · simp [hnil] at hc
  · rename_i hne
    refine ⟨(fun h => by cases h), fun k hk => ?_⟩
    cases hk
    have hpos : 0 < r.stores.length := length_pos_iff.mpr hne
    rcases hcap with hacc | ⟨c, hc, hlen⟩
    · refine ⟨_, getElem?_eq_getElem (by omega), ?_⟩
      rw [hacc, length_nil]
      exact Nat.zero_le _
    · rw [getLast?_eq_getElem?] at hc
      exact ⟨c, hc, hlen.ge⟩

end Records

/-! ## The invariant of a flush -/

section Flushes

variable [DecidableEq Topic] {s s' : Authority Y Topic} {t : FlushTarget Topic} {f : ℕ}
  {fl : Flush Topic}

/-- The store a flush awaits for a record captured everything accepted before the flush. -/
def TargetOk (s : Authority Y Topic) (t : FlushTarget Topic) : Prop :=
  ∃ r, s.recs[t.record]? = some r ∧ t.acceptedBefore ≤ r.accepted.length ∧
    (t.awaits = none → t.acceptedBefore = 0) ∧
    ∀ k, t.awaits = some k → ∃ c, r.stores[k]? = some c ∧ t.acceptedBefore ≤ c.captured

/-- Everything accepted before the flush is in a confirmed blob. -/
def WrittenBefore (s : Authority Y Topic) (t : FlushTarget Topic) : Prop :=
  ∃ r, s.recs[t.record]? = some r ∧ t.acceptedBefore ≤ r.accepted.length ∧
    Written r t.acceptedBefore

/-- What the answers and the report of a flush promise. -/
structure FlushOk (s : Authority Y Topic) (fl : Flush Topic) : Prop where
  /-- It awaits stores that captured enough. -/
  targets : ∀ t ∈ fl.targets, TargetOk s t
  /-- A durable answer means that the bytes are written. -/
  durable : ∀ t ∈ fl.targets, fl.outcomes.get t.topic = some .durable → WrittenBefore s t
  /-- So does a topic reported durable. -/
  reported : ∀ res, fl.result = some res → ∀ t ∈ fl.targets, t.topic ∈ res.durable →
    WrittenBefore s t

theorem TargetOk.grows (h : TargetOk s t)
    (hg : ∀ r, s.recs[t.record]? = some r → ∃ r', s'.recs[t.record]? = some r' ∧ Grows r r') :
    TargetOk s' t := by
  obtain ⟨r, hr, hle, hnone, hsome⟩ := h
  obtain ⟨r', hr', hgrow⟩ := hg r hr
  refine ⟨r', hr', hle.trans hgrow.log_prefix.length_le, hnone, fun k hk => ?_⟩
  obtain ⟨c, hc, hcap⟩ := hsome k hk
  obtain ⟨c', hc', hf⟩ := hgrow.stores k c hc
  exact ⟨c', hc', hf.captured_eq ▸ hcap⟩

theorem WrittenBefore.grows (h : WrittenBefore s t)
    (hg : ∀ r, s.recs[t.record]? = some r → ∃ r', s'.recs[t.record]? = some r' ∧ Grows r r') :
    WrittenBefore s' t := by
  obtain ⟨r, hr, hle, hw⟩ := h
  obtain ⟨r', hr', hgrow⟩ := hg r hr
  exact ⟨r', hr', hle.trans hgrow.log_prefix.length_le, hw.grows hgrow hle⟩

theorem FlushOk.grows (h : FlushOk s fl)
    (hg : ∀ (i : ℕ) r, s.recs[i]? = some r → ∃ r', s'.recs[i]? = some r' ∧ Grows r r') :
    FlushOk s' fl :=
  ⟨fun t ht => (h.targets t ht).grows (hg t.record),
    fun t ht ho => (h.durable t ht ho).grows (hg t.record),
    fun res hres t ht hd => (h.reported res hres t ht hd).grows (hg t.record)⟩

/-- A chain that resolved durably is a confirmation of what the flush awaited. -/
theorem writtenBefore_of_chain (hsound : s.Sound cfg) (h : TargetOk s t)
    (hch : s.chainValue t.record t.awaits = some .durable) : WrittenBefore s t := by
  obtain ⟨r, hr, hle, hnone, hsome⟩ := h
  refine ⟨r, hr, hle, ?_⟩
  cases hk : t.awaits with
  | none =>
    intro n u hn _
    rw [hnone hk] at hn
    omega
  | some k =>
    obtain ⟨c, hc, hcap⟩ := hsome k hk
    have hf := hsound.faithful t.record r hr
    have hmem := mem_of_getElem? hc
    simp only [chainValue, hk, hr, hc, Option.bind_some] at hch
    exact written_of_confirmed hf hmem ((hf.honest c hmem).chained hch) hcap

/-- Whether a topic is reported durable depends on its answer. -/
theorem mem_durable {outcomes : JsMap Topic Outcome} {targets : List (FlushTarget Topic)}
    (h : t.topic ∈ (s.buildFlushResult cfg targets outcomes).durable) :
    outcomes.get t.topic = none ∨ outcomes.get t.topic = some .durable := by
  simp only [buildFlushResult, mem_topicsWhere, Bool.and_eq_true,
    decide_eq_true_eq] at h
  obtain ⟨t', -, ⟨⟨⟨hdec, hfail⟩, htime⟩, -⟩, htopic⟩ := h
  rw [← htopic]
  cases ho : outcomes.get t'.topic with
  | none => exact .inl rfl
  | some outcome =>
    cases outcome with
    | durable => exact .inr rfl
    | declined => exact absurd ho hdec
    | failed => exact absurd ho hfail
    | timedout => exact absurd ho htime

theorem flushOk_resolve (g : Flush Topic) (h : FlushOk s g)
    (hans : ∀ t ∈ g.targets, g.outcomes.get t.topic ≠ none) (v : Authority Y Topic) :
    FlushOk s (g.resolve (v.buildFlushResult cfg g.targets g.outcomes)) := by
  refine ⟨h.targets, h.durable, fun res hres t ht hd => ?_⟩
  simp only [Flush.resolve] at hres
  cases hres
  rcases mem_durable hd with hnone | hdur
  · exact absurd hnone (hans t ht)
  · exact h.durable t ht hdur

theorem flushOk_answer (hsound : s.Sound cfg) (hshape : FlushShape fl) (h : FlushOk s fl)
    (ht : t ∈ fl.targets) {outcome : Outcome}
    (hch : s.chainValue t.record t.awaits = some outcome) :
    FlushOk s (fl.answer t.topic outcome) := by
  refine ⟨h.targets, fun t' ht' ho => ?_, h.reported⟩
  simp only [Flush.answer, JsMap.get_set] at ho
  by_cases heq : t.topic = t'.topic
  · rw [if_pos heq, Option.some.injEq] at ho
    have htt : t = t' := inj_on_of_nodup_map hshape.nodup ht ht' heq
    subst htt ho
    exact writtenBefore_of_chain hsound (h.targets t ht) hch
  · rw [if_neg heq] at ho
    exact h.durable t' ht' ho

/-- A flush whose deadline passes learns nothing durable. -/
theorem flushOk_timeOut (h : FlushOk s fl) : FlushOk s fl.timeOut := by
  refine ⟨h.targets, fun t ht ho => ?_, h.reported⟩
  rw [get_timeOut] at ho
  by_cases hp : t.topic ∈ fl.pending
  · simp [hp] at ho
  · rw [if_neg hp] at ho
    exact h.durable t ht ho

theorem flushOk_step (hsound : s.Sound cfg) (hshape : FlushShape fl) (h : FlushOk s fl)
    {e : Event Topic} {fl' : Flush Topic} (hs : FlushStep cfg s s' f fl e fl') :
    FlushOk s fl' := by
  cases hs with
  | answer t outcome ht hch => exact flushOk_answer hsound hshape h ht hch
  | last t outcome ht hch hp hzero =>
    refine flushOk_resolve (fl.answer t.topic outcome) (flushOk_answer hsound hshape h ht hch)
      (fun t' ht' => ?_) s'
    rcases answered_answer hshape t.topic outcome t' ht' with hpend | hans
    · rw [pending_last hshape hp hzero] at hpend
      cases hpend
    · exact hans
  | expire =>
    exact flushOk_resolve fl.timeOut (flushOk_timeOut h)
      (fun t ht => answered_timeOut hshape t ht) s'

/-- A flush opens over records of distinct topics, and awaits enough. -/
theorem flushOk_open (hs : cfg.hasStore = true) (hm : s.Mapped) (hsound : s'.Sound cfg)
    (hopen : FlushOpen cfg s s' fl) : FlushOk s' fl := by
  cases hopen with
  | empty token res =>
    exact ⟨(fun t ht => by cases ht), (fun t ht => by cases ht),
      fun _ _ t ht => by cases ht⟩
  | pending token targets hget _ _ hrecs =>
    refine ⟨fun t ht => ?_, (fun t ht ho => by cases ho), fun _ hres => by cases hres⟩
    obtain ⟨p, hp, rfl⟩ := mem_map.mp ht
    obtain ⟨r, hr, -⟩ := hm.topic_eq _ _ (hget p hp)
    have hr' : s'.recs[p.2]? = some (r.flushOne cfg token) := by
      rw [hrecs, getElem?_updateAll, hr, Option.map_some,
        if_pos (decide_eq_true (mem_map_of_mem hp))]
    have hf := hsound.faithful p.2 _ hr'
    have hcap := storing_captures hs hf (flushOne_clean hs token hf)
    refine ⟨_, hr', ?_, ?_, ?_⟩
    · simp [hr']
    · simpa [hr'] using hcap.1
    · simpa [hr'] using hcap.2

/-! ## Runs -/

/-- Every flush keeps its promises. -/
def AllFlushOk (s : Authority Y Topic) : Prop :=
  ∀ (f : ℕ) fl, s.flushes[f]? = some fl → FlushOk s fl

theorem allFlushOk_step (hs : cfg.hasStore = true) (hsound : s.Sound cfg) (hshape : AllShaped s)
    (h : AllFlushOk s) {e : Event Topic} (hstep : s.step cfg e = some s') : AllFlushOk s' := by
  have hgrow : ∀ (i : ℕ) r, s.recs[i]? = some r → ∃ r', s'.recs[i]? = some r' ∧ Grows r r' :=
    fun i r hr => grows_step hsound hstep hr
  intro f fl' hfl'
  rcases flush_cases hstep hfl' with hold | ⟨-, hopen⟩ | ⟨fl, hfl, hmove⟩
  · exact (h f fl' hold).grows hgrow
  · exact flushOk_open hs hsound.mapped (sound_step hsound hstep) hopen
  · exact (flushOk_step hsound (hshape f fl hfl) (h f fl hfl) hmove).grows hgrow

/-- Whatever a run does, a topic that a flush reports durable has every update its record accepted
before the flush in a blob that was captured after the update and that the host confirmed before
the store was abandoned. -/
theorem durable_sound (hs : cfg.hasStore = true) {es : List (Event Topic)}
    (h : (crdtAuthority Y Topic cfg).Reaches es s) (hfl : s.flushes[f]? = some fl)
    {res : FlushResult Topic} (hres : fl.result = some res) (ht : t ∈ fl.targets)
    (hd : t.topic ∈ res.durable) :
    ∃ r, s.recs[t.record]? = some r ∧ t.acceptedBefore ≤ r.accepted.length ∧
      ∀ (k : ℕ) u, k < t.acceptedBefore → r.accepted[k]? = some u →
        ∃ c ∈ r.stores, k < c.captured ∧ c.confirmed = true ∧ Y.Contains c.blob u := by
  have hinv : (s.Sound cfg ∧ AllShaped s) ∧ AllFlushOk s := by
    refine Machine.ReachesWhere.invariant
      (I := fun s => (s.Sound cfg ∧ AllShaped s) ∧ AllFlushOk s) ?_ ?_ h
    · refine ⟨⟨sound_start, fun f fl hfl => ?_⟩, fun f fl hfl => ?_⟩
      all_goals simp [crdtAuthority, start] at hfl
    · intro s e s' hI _ hstep
      exact ⟨⟨sound_step hI.1.1 hstep, allShaped_step hI.1.2 hstep⟩,
        allFlushOk_step hs hI.1.1 hI.1.2 hI.2 hstep⟩
  exact (hinv.2 f fl hfl).reported res hres t ht hd

end Flushes

/-- A flush stores an edited topic, and the host writes it. -/
def flushedRun : List (Event ℕ) :=
  warmRun ++ [.persistNow .undefined (.bag (.number 1000)) 0, .storeDispatches 0 0,
    .storeAnswers 0 0 (.resolved false), .storeSettles 0 0, .chainSettles 0 0, .flushSettles 0 0]

theorem durable_sound_flushedRun :
    ∃ s : Authority Yjs.log ℕ,
      (crdtAuthority Yjs.log ℕ (Config.defaults true)).Reaches flushedRun s ∧
      ∃ fl t, s.flushes[0]? = some fl ∧ t ∈ fl.targets ∧ t.record = 0 ∧ t.acceptedBefore = 1 ∧
        ∃ r, s.recs[t.record]? = some r ∧ t.acceptedBefore ≤ r.accepted.length ∧
          ∀ (k : ℕ) u, k < t.acceptedBefore → r.accepted[k]? = some u →
            ∃ c ∈ r.stores, k < c.captured ∧ c.confirmed = true ∧ Yjs.log.Contains c.blob u := by
  obtain ⟨s, hs, hp⟩ : ∃ s, (crdtAuthority Yjs.log ℕ (Config.defaults true)).Reaches flushedRun s ∧
      ((s.flushes[0]?).any fun fl => fl.result.any fun res => fl.targets.any fun t =>
      t.topic ∈ res.durable && t.record = 0 && t.acceptedBefore = 1) = true :=
    Machine.exists_of_exec (by decide +kernel)
  obtain ⟨fl, hfl, hp⟩ := (Option.any_eq_true _ _).mp hp
  obtain ⟨res, hres, hp⟩ := (Option.any_eq_true _ _).mp hp
  obtain ⟨t, ht, hp⟩ := any_eq_true.mp hp
  simp only [Bool.and_eq_true, decide_eq_true_eq] at hp
  obtain ⟨⟨hd, hrec⟩, hacc⟩ := hp
  exact ⟨s, hs, fl, t, hfl, ht, hrec, hacc, durable_sound rfl hs hfl hres ht hd⟩

end AdapterWs.Crdt
