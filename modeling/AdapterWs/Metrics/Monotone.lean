import AdapterWs.Metrics.Series
import Mathlib.Algebra.BigOperators.Group.List.Basic
import Mathlib.Data.List.Chain

/-!
# Cluster counters between scrapes

What is known of a series is what is carried of it and what the last reports of the live workers
count towards it. It never falls: a report replaces one that counted no more, and an exit moves
the last report of a worker to what is carried. A document hands out all of it, unless a worker
with a last report was counted off without one.
-/

namespace AdapterWs.Metrics

open JsString MetricsCollections Option Series

/-- What a document counts towards a series. -/
def Series.inDocument (σ : Series) (d : Document) : ℕ :=
  (d.reports.map fun r => σ.total r.samples).sum

/-- What the reports of workers count towards a series. -/
def Series.inParts (σ : Series) (parts : List (ℕ × List Sample)) : ℕ :=
  (parts.map fun p => σ.total p.2).sum

/-- What is known of a series: what is carried, and the last reports. -/
def Series.known (σ : Series) (c : MetricsCollections) : ℕ :=
  σ.carried c.retired + c.lastByThread.total σ.total

/-- A worker reports well-formed samples until it exits, and none of its counters decreases
from one non-empty report to a later one. -/
def Admissible (m : Manifest) (s : Scrapes) : ScrapeEvent → Prop
  | .note _ threadId samples =>
    threadId ∉ s.exited ∧ (∀ x ∈ samples.getD [], x.WellFormed m) ∧
      (samples.getD [] ≠ [] → ∀ earlier, (threadId, earlier) ∈ s.sent →
        ∀ σ : Series, σ.Cumulative m → σ.total earlier ≤ σ.total (samples.getD []))
  | _ => True

/-- A worker whose last report is kept is in a collection with what it reported, or is owed. -/
def InCollection (e : Collection) (threadId : ℕ) : Prop :=
  threadId ∈ e.targets ∧
    (threadId ∉ e.answeredThreads ∨ ∃ r ∈ e.reports, r.worker = .thread threadId ∧ r.samples ≠ [])

/-- A collection is finished with every worker in it whose last report is kept. -/
def NoneCountedOff (s : Scrapes) : ScrapeEvent → Prop
  | .finish => ∀ e, s.collections.active = some e → ∀ threadId samples,
      s.collections.lastByThread.get threadId = some samples → InCollection e threadId
  | _ => True

/-- No series falls from one document to the next. -/
def NeverFalls (m : Manifest) (documents : List Document) : Prop :=
  documents.IsChain fun d d' => ∀ σ : Series, σ.Cumulative m → σ.inDocument d ≤ σ.inDocument d'

/-- A document counts one report of each of some workers. -/
def CountedOnce (m : Manifest) (s : Scrapes) : Prop :=
  ∀ d ∈ s.documents, ∃ parts : List (ℕ × List Sample), (parts.map Prod.fst).Nodup ∧
    (∀ p ∈ parts, p ∈ s.sent) ∧ ∀ σ : Series, σ.Cumulative m → σ.inDocument d = σ.inParts parts

/-- What the documents promise. -/
def Sound (m : Manifest) (s : Scrapes) : Prop := NeverFalls m s.documents ∧ CountedOnce m s

/-- The report of a worker in an open collection is the last one of that worker. -/
structure Reported (s : Scrapes) (e : Collection) (r : Report) : Prop where
  worker : ∃ threadId, r.worker = .thread threadId ∧ threadId ∈ e.answeredThreads ∧
    threadId ∈ e.targets ∧
    (r.samples ≠ [] → s.collections.lastByThread.get threadId = some r.samples)

/-- What the bookkeeping keeps. -/
structure Kept (m : Manifest) (s : Scrapes) : Prop where
  carried : CarriedOk m s.collections.retired
  wellFormed : ∀ p ∈ s.sent, ∀ x ∈ p.2, x.WellFormed m
  last : ∀ threadId samples, s.collections.lastByThread.get threadId = some samples →
    samples ≠ [] ∧ (threadId, samples) ∈ s.sent ∧ threadId ∉ s.exited
  reports : ∀ e, s.collections.active = some e →
    (e.reports.map Report.worker).Nodup ∧ ∀ r ∈ e.reports, Reported s e r
  /-- What is carried is one report of each of some workers that exited. -/
  folded : ∃ parts : List (ℕ × List Sample), (parts.map Prod.fst).Nodup ∧
    (∀ p ∈ parts, p ∈ s.sent ∧ p.1 ∈ s.exited) ∧
    ∀ σ : Series, σ.Cumulative m → σ.carried s.collections.retired = σ.inParts parts

variable {m : Manifest} {σ : Series} {s : Scrapes} {e : Collection} {p : ℕ × List Sample}
  {s' : Scrapes}

@[simp] theorem Series.inParts_append (σ : Series) (p q : List (ℕ × List Sample)) :
    σ.inParts (p ++ q) = σ.inParts p + σ.inParts q := by
  simp [inParts]

/-! ## One document -/

/-- The reports in a collection, by worker. -/
def liveParts (e : Collection) : List (ℕ × List Sample) :=
  e.reports.filterMap fun r =>
    match r.worker with
    | .thread threadId => if r.samples = [] then none else some (threadId, r.samples)
    | _ => none

/-- The last reports of the workers that are owed. -/
def staleParts (c : MetricsCollections) (e : Collection) : List (ℕ × List Sample) :=
  (e.targets.elems.filter fun threadId => threadId ∉ e.answeredThreads).filterMap fun threadId =>
    (c.lastByThread.get threadId).map fun samples => (threadId, samples)

theorem total_liveParts (hreports : ∀ r ∈ e.reports, Reported s e r) :
    (e.reports.map fun r => σ.total r.samples).sum = σ.inParts (liveParts e) := by
  rw [liveParts]
  generalize e.reports = reports at hreports
  induction reports with
  | nil => rfl
  | cons r reports ih =>
    obtain ⟨threadId, hworker, -⟩ := (hreports r (.head _)).worker
    have ih := ih fun r hr => hreports r (.tail _ hr)
    rw [List.map_cons, List.sum_cons, ih]
    by_cases hempty : r.samples = []
    · simp [hworker, hempty]
    · simp [hworker, hempty, inParts]

/-- What is stale counts what the last reports of the workers that are owed do. -/
theorem total_staleOf (h : Kept m s) (hσ : σ.Cumulative m) (e : Collection) :
    σ.total (s.collections.staleOf m e) = σ.inParts (staleParts s.collections e) := by
  rw [staleOf, staleParts]
  generalize (e.targets.elems.filter fun threadId => threadId ∉ e.answeredThreads) = owed
  induction owed with
  | nil => rfl
  | cons threadId owed ih =>
    rw [List.flatMap_cons, total_append, ih]
    cases hget : s.collections.lastByThread.get threadId with
    | none => simp [hget, cumulativeSamplesOf]
    | some samples =>
      obtain ⟨-, hsent, -⟩ := h.last threadId samples hget
      have htotal := total_cumulativeSamplesOf (h.wellFormed _ hsent) hσ
      simp [hget, inParts, htotal]

/-- A document counts the reports in its collection, those of the workers that are owed, and what
is carried. -/
theorem inDocument_finish (h : Kept m s) (hσ : σ.Cumulative m) {d : Document}
    (hactive : s.collections.active = some e)
    (hd : (finishMetricsCollection m s.collections).1 = some d) :
    σ.inDocument d = σ.inParts (liveParts e ++ staleParts s.collections e) +
      σ.carried s.collections.retired := by
  rw [finishMetricsCollection, take, hactive] at hd
  simp only [map_some] at hd
  cases hd
  have hstale : ((if s.collections.staleOf m e = [] then ([] : List Report) else
      [⟨.stale, s.collections.staleOf m e⟩]).map fun r => σ.total r.samples).sum =
        σ.inParts (staleParts s.collections e) := by
    rw [← total_staleOf h hσ e]
    split_ifs with hempty
    · rw [hempty]
      rfl
    · simp
  have hcarried : ((MetricsCollections.retiredReport { s.collections with active := none }).toList.map
      fun r => σ.total r.samples).sum = σ.carried s.collections.retired := by
    rw [carried, JsMap.total_eq_sum, retiredReport]
    split_ifs with hempty
    · rw [List.length_eq_zero_iff.mp hempty]
      rfl
    · simp [total, List.map_map, Function.comp_def]
  rw [inDocument]
  simp only [List.map_append, List.sum_append, hstale, hcarried, inParts_append]
  rw [total_liveParts (h.reports e hactive).2]

theorem mem_liveParts :
    p ∈ liveParts e ↔ ∃ r ∈ e.reports, r.worker = .thread p.1 ∧ r.samples ≠ [] ∧ r.samples = p.2 := by
  rw [liveParts, List.mem_filterMap]
  refine exists_congr fun r => and_congr_right fun _ => ?_
  cases r.worker with
  | thread threadId =>
    by_cases hempty : r.samples = []
    · simp [hempty]
    · simp [hempty, Prod.ext_iff]
  | stale => simp
  | retired => simp

theorem mem_staleParts {c : MetricsCollections} :
    p ∈ staleParts c e ↔ p.1 ∈ e.targets ∧ p.1 ∉ e.answeredThreads ∧
      c.lastByThread.get p.1 = some p.2 := by
  rw [staleParts, List.mem_filterMap]
  constructor
  · rintro ⟨threadId, hmem, hp⟩
    obtain ⟨samples, hget, rfl⟩ := map_eq_some_iff.mp hp
    obtain ⟨htarget, howed⟩ := List.mem_filter.mp hmem
    exact ⟨htarget, of_decide_eq_true howed, hget⟩
  · rintro ⟨htarget, howed, hget⟩
    exact ⟨p.1, List.mem_filter.mpr ⟨htarget, decide_eq_true howed⟩, by rw [hget]; rfl⟩

/-- What is picked from a list keeps apart what the list keeps apart. -/
theorem nodup_map_filterMap {α β γ : Type} {l : List α} {f : α → γ} {g : α → Option β} {k : β → γ}
    (hl : (l.map f).Nodup) (hk : ∀ a b, g a = some b → k b = f a) :
    ((l.filterMap g).map k).Nodup := by
  have hsub : ((l.filterMap g).map k).Sublist (l.map f) := by
    clear hl
    induction l with
    | nil => exact List.Sublist.refl _
    | cons a l ih =>
      cases hg : g a with
      | none => simpa [hg] using ih.cons (f a)
      | some b => simpa [hg, hk a b hg] using ih
  exact hsub.nodup hl

theorem nodup_parts (h : Kept m s) (hactive : s.collections.active = some e) :
    ((liveParts e ++ staleParts s.collections e).map Prod.fst).Nodup := by
  obtain ⟨hnodup, hreports⟩ := h.reports e hactive
  have hlive : ((liveParts e).map fun p => Origin.thread p.1).Nodup := by
    refine nodup_map_filterMap hnodup fun r p hp => ?_
    cases hworker : r.worker with
    | thread threadId =>
      simp only [hworker] at hp
      split_ifs at hp
      rw [← some.inj hp]
    | stale => simp [hworker] at hp
    | retired => simp [hworker] at hp
  have hstale : ((staleParts s.collections e).map Prod.fst).Nodup := by
    refine nodup_map_filterMap (f := id) (by simpa using e.targets.nodup.filter _)
      fun threadId p hp => ?_
    obtain ⟨samples, -, rfl⟩ := map_eq_some_iff.mp hp
    rfl
  rw [List.map_append, List.nodup_append]
  refine ⟨?_, hstale, ?_⟩
  · rw [← Function.comp_def Origin.thread, ← List.map_map] at hlive
    exact hlive.of_map
  · rintro t ht t' ht' rfl
    obtain ⟨p, hp, rfl⟩ := List.mem_map.mp ht
    obtain ⟨q, hq, hpq⟩ := List.mem_map.mp ht'
    obtain ⟨r, hr, hworker, -⟩ := mem_liveParts.mp hp
    obtain ⟨threadId, hthread, hanswered, -⟩ := (hreports r hr).worker
    rw [hworker, Origin.thread.injEq] at hthread
    exact (mem_staleParts.mp hq).2.1 (hpq ▸ hthread ▸ hanswered)

/-- What a document counts of a worker is its last report. -/
theorem last_of_mem_parts (h : Kept m s) (hactive : s.collections.active = some e)
    (hp : p ∈ liveParts e ++ staleParts s.collections e) :
    s.collections.lastByThread.get p.1 = some p.2 := by
  rcases List.mem_append.mp hp with hp | hp
  · obtain ⟨r, hr, hworker, hne, hsamples⟩ := mem_liveParts.mp hp
    obtain ⟨threadId, hthread, -, -, hlast⟩ := ((h.reports e hactive).2 r hr).worker
    rw [hworker, Origin.thread.injEq] at hthread
    rw [← hsamples, hthread]
    exact hlast hne
  · exact (mem_staleParts.mp hp).2.2

/-- With every worker in it whose last report is kept, a document counts what is known. -/
theorem inDocument_eq_known (h : Kept m s) (hσ : σ.Cumulative m) {d : Document}
    (hactive : s.collections.active = some e)
    (hd : (finishMetricsCollection m s.collections).1 = some d)
    (hall : ∀ threadId samples, s.collections.lastByThread.get threadId = some samples →
      InCollection e threadId) : σ.inDocument d = σ.known s.collections := by
  have hmem : ∀ p, p ∈ liveParts e ++ staleParts s.collections e ↔
      p ∈ s.collections.lastByThread.entries := by
    intro p
    constructor
    · intro hp
      exact JsMap.get_eq_some_iff.mp (last_of_mem_parts h hactive hp)
    · intro hp
      have hget := JsMap.get_eq_some_iff.mpr hp
      obtain ⟨htarget, howed | ⟨r, hr, hworker, hne⟩⟩ := hall p.1 p.2 hget
      · exact List.mem_append_right _ (mem_staleParts.mpr ⟨htarget, howed, hget⟩)
      · refine List.mem_append_left _ (mem_liveParts.mpr ⟨r, hr, hworker, hne, ?_⟩)
        obtain ⟨threadId, hthread, -, -, hlast⟩ := ((h.reports e hactive).2 r hr).worker
        rw [hworker, Origin.thread.injEq] at hthread
        rw [← hthread, hget] at hlast
        exact (some.inj (hlast hne)).symm
  have hperm : (liveParts e ++ staleParts s.collections e).Perm s.collections.lastByThread.entries :=
    (List.perm_ext_iff_of_nodup (nodup_parts h hactive).of_map
      s.collections.lastByThread.nodup.of_map).mpr hmem
  rw [inDocument_finish h hσ hactive hd, known, JsMap.total_eq_sum, add_comm,
    inParts, (hperm.map fun p => σ.total p.2).sum_eq]

/-! ## One call -/

/-- A report stays the last one of its worker while that one is kept. -/
theorem Reported.mono {e' : Collection} {r : Report} (h : Reported s e r)
    (htargets : e'.targets = e.targets)
    (hanswered : ∀ t ∈ e.answeredThreads, t ∈ e'.answeredThreads)
    (hlast : ∀ t, r.worker = .thread t → s.collections.lastByThread.get t = some r.samples →
      s'.collections.lastByThread.get t = some r.samples) : Reported s' e' r := by
  obtain ⟨t, hworker, hmem, htarget, hkept⟩ := h.worker
  exact ⟨t, hworker, hanswered t hmem, htargets ▸ htarget, fun hne => hlast t hworker (hkept hne)⟩

theorem mem_withdraw {t : ℕ} {r : Report} (hnodup : (e.reports.map Report.worker).Nodup)
    (hr : r ∈ (withdraw t e).reports) : r ∈ e.reports ∧ r.worker ≠ .thread t := by
  rw [withdraw] at hr
  simp only at hr
  refine ⟨List.mem_of_mem_eraseP hr, fun hworker => ?_⟩
  generalize e.reports = reports at hnodup hr
  induction reports with
  | nil => cases hr
  | cons q reports ih =>
    rw [List.map_cons, List.nodup_cons] at hnodup
    by_cases hq : q.worker = .thread t
    · rw [List.eraseP_cons_of_pos (by simpa using hq)] at hr
      exact hnodup.1 (hq ▸ hworker ▸ List.mem_map_of_mem hr)
    · rw [List.eraseP_cons_of_neg (by simpa using hq)] at hr
      rcases List.mem_cons.mp hr with rfl | hr
      · exact hq hworker
      · exact ih hnodup.2 hr

section

variable (h : Kept m s)
include h

/-- What is written beside the reports keeps everything. -/
theorem Kept.congr (hretired : s'.collections.retired = s.collections.retired)
    (hlast : s'.collections.lastByThread = s.collections.lastByThread) (hsent : s'.sent = s.sent)
    (hexited : s'.exited = s.exited)
    (hactive : ∀ e', s'.collections.active = some e' → e'.reports = [] ∨
      ∃ e, s.collections.active = some e ∧ e'.reports = e.reports ∧ e'.targets = e.targets ∧
        ∀ t ∈ e.answeredThreads, t ∈ e'.answeredThreads) : Kept m s' := by
  refine ⟨hretired ▸ h.carried, hsent ▸ h.wellFormed, ?_, fun e' he' => ?_, ?_⟩
  · rw [hlast, hsent, hexited]
    exact h.last
  · rcases hactive e' he' with hempty | ⟨e, he, hreports, htargets, hanswered⟩
    · rw [hempty]
      exact ⟨List.nodup_nil, List.forall_mem_nil _⟩
    · rw [hreports]
      refine ⟨(h.reports e he).1, fun r hr => ?_⟩
      exact ((h.reports e he).2 r hr).mono htargets hanswered fun t _ hget => by rw [hlast, hget]
  · rw [hretired, hsent, hexited]
    exact h.folded

theorem Kept.begin (requester : ℕ) (id : JsString) (targets : List ℕ) :
    Kept m (s.call m (.begin requester id targets)) ∧
      ∀ σ : Series, σ.known (s.call m (.begin requester id targets)).collections =
        σ.known s.collections := by
  simp only [Scrapes.call, MetricsCollections.begin]
  cases hactive : s.collections.active with
  | some e => exact ⟨h, fun _ => rfl⟩
  | none =>
    refine ⟨h.congr rfl rfl rfl rfl fun e' he' => .inl ?_, fun _ => rfl⟩
    rw [← some.inj he']

theorem Kept.join (requester : ℕ) (id : JsString) :
    Kept m (s.call m (.join requester id)) ∧
      ∀ σ : Series, σ.known (s.call m (.join requester id)).collections =
        σ.known s.collections := by
  simp only [Scrapes.call, MetricsCollections.join]
  cases hactive : s.collections.active with
  | none => exact ⟨h, fun _ => rfl⟩
  | some e =>
    simp only
    split_ifs
    · exact ⟨h, fun _ => rfl⟩
    · refine ⟨h.congr rfl rfl rfl rfl fun e' he' => .inr ⟨e, hactive, ?_⟩, fun _ => rfl⟩
      rw [← some.inj he']
      exact ⟨rfl, rfl, fun _ ht => ht⟩

theorem Kept.missed (threadId : Option ℕ) :
    Kept m (s.call m (.missed threadId)) ∧
      ∀ σ : Series, σ.known (s.call m (.missed threadId)).collections = σ.known s.collections := by
  simp only [Scrapes.call, MetricsCollections.missed]
  cases hactive : s.collections.active with
  | none => exact ⟨h, fun _ => rfl⟩
  | some e =>
    cases threadId with
    | none =>
      refine ⟨h.congr rfl rfl rfl rfl fun e' he' => .inr ⟨e, hactive, ?_⟩, fun _ => rfl⟩
      rw [← some.inj he']
      exact ⟨rfl, rfl, fun _ ht => ht⟩
    | some t =>
      simp only
      split_ifs
      · exact ⟨h, fun _ => rfl⟩
      · refine ⟨h.congr rfl rfl rfl rfl fun e' he' => .inr ⟨e, hactive, ?_⟩, fun _ => rfl⟩
        rw [← some.inj he']
        exact ⟨rfl, rfl, fun t ht => JsSet.mem_add.mpr (.inr ht)⟩

theorem Kept.send (hp : ∀ x ∈ p.2, x.WellFormed m) : Kept m { s with sent := s.sent ++ [p] } := by
  refine ⟨h.carried, fun q hq => ?_, fun t samples hget => ?_, fun e he => ⟨(h.reports e he).1,
    fun r hr => ((h.reports e he).2 r hr).mono rfl (fun _ ht => ht) fun _ _ hget => hget⟩, ?_⟩
  · rcases mem_concat.mp hq with hq | rfl
    · exact h.wellFormed q hq
    · exact hp
  · obtain ⟨hne, hsent, hlive⟩ := h.last t samples hget
    exact ⟨hne, List.mem_append_left _ hsent, hlive⟩
  · obtain ⟨parts, hnodup, hmem, hsum⟩ := h.folded
    exact ⟨parts, hnodup, fun q hq => ⟨List.mem_append_left _ (hmem q hq).1, (hmem q hq).2⟩, hsum⟩

theorem Kept.accept {threadId : ℕ} {samples : List Sample} {e' : Collection}
    (hactive : s.collections.active = some e) (howed : threadId ∉ e.answeredThreads)
    (htarget : threadId ∈ e.targets) (hlive : threadId ∉ s.exited)
    (hsent : (threadId, samples) ∈ s.sent) (htargets : e'.targets = e.targets)
    (hanswered : e'.answeredThreads = e.answeredThreads.add threadId)
    (hreports : e'.reports = e.reports ++ [⟨.thread threadId, samples⟩]) :
    Kept m { s with
      collections :=
        { s.collections with
          active := some e'
          lastByThread :=
            if samples = [] then s.collections.lastByThread
            else s.collections.lastByThread.set threadId samples } } := by
  obtain ⟨hnodup, hold⟩ := h.reports e hactive
  have hother : ∀ t, t ≠ threadId → (if samples = [] then s.collections.lastByThread
      else s.collections.lastByThread.set threadId samples).get t =
        s.collections.lastByThread.get t := by
    intro t ht
    split_ifs
    · rfl
    · rw [JsMap.get_set, if_neg (Ne.symm ht)]
  have hne : ∀ r ∈ e.reports, r.worker ≠ .thread threadId := by
    intro r hr hworker
    obtain ⟨t, hthread, hmem, -⟩ := (hold r hr).worker
    rw [hworker, Origin.thread.injEq] at hthread
    exact howed (hthread ▸ hmem)
  refine ⟨h.carried, h.wellFormed, fun t xs hget => ?_, fun e₁ he₁ => ?_, h.folded⟩
  · by_cases ht : t = threadId
    · subst ht
      simp only at hget
      split_ifs at hget with hempty
      · exact h.last t xs hget
      · rw [JsMap.get_set_self] at hget
        cases hget
        exact ⟨hempty, hsent, hlive⟩
    · simp only [hother t ht] at hget
      exact h.last t xs hget
  · cases he₁
    rw [hreports]
    refine ⟨?_, fun r hr => ?_⟩
    · rw [List.map_append, List.nodup_append]
      refine ⟨hnodup, List.nodup_singleton _, ?_⟩
      rintro w hw w' hw' rfl
      obtain ⟨r, hr, rfl⟩ := List.mem_map.mp hw
      exact hne r hr (List.mem_singleton.mp hw')
    · rcases mem_concat.mp hr with hmem | rfl
      · refine (hold r hmem).mono htargets (fun t ht => ?_) fun t hworker hget => ?_
        · rw [hanswered]
          exact JsSet.mem_add.mpr (.inr ht)
        · refine (hother t ?_).trans hget
          rintro rfl
          exact hne r hmem hworker
      · refine ⟨threadId, rfl, ?_, htargets ▸ htarget, fun hempty => ?_⟩
        · rw [hanswered]
          exact JsSet.mem_add.mpr (.inl rfl)
        · simp only at hempty ⊢
          rw [if_neg hempty, JsMap.get_set_self]

theorem Kept.note {collectId : JsString} {threadId : ℕ} {samples : Option (List Sample)}
    (hok : Admissible m s (.note collectId threadId samples)) :
    Kept m (s.call m (.note collectId threadId samples)) ∧
      ∀ σ : Series, σ.Cumulative m → σ.known s.collections ≤
        σ.known (s.call m (.note collectId threadId samples)).collections := by
  obtain ⟨hlive, hwf, hgrows⟩ := hok
  have hsend := h.send (p := (threadId, samples.getD [])) hwf
  simp only [Scrapes.call, MetricsCollections.note]
  cases hactive : s.collections.active with
  | none => exact ⟨hsend, fun _ _ => le_rfl⟩
  | some e =>
    by_cases hasked :
        collectId = e.collectId ∧ threadId ∈ e.targets ∧ threadId ∉ e.answeredThreads
    · simp only [if_pos hasked]
      obtain ⟨-, htarget, howed⟩ := hasked
      refine ⟨hsend.accept hactive howed htarget hlive
        (List.mem_concat_self) ?_ ?_ ?_, fun σ hσ => ?_⟩
      · rfl
      · rfl
      · rfl
      simp only [known]
      split_ifs with hempty
      · exact le_rfl
      · have htotal := JsMap.total_set σ.total s.collections.lastByThread threadId (samples.getD [])
        cases hget : s.collections.lastByThread.get threadId with
        | none =>
          rw [hget] at htotal
          simp only [map_none, getD_none] at htotal
          omega
        | some earlier =>
          have hle := hgrows hempty earlier (h.last _ _ hget).2.1 σ hσ
          rw [hget] at htotal
          simp only [map_some, getD_some] at htotal
          omega
    · simp only [if_neg hasked]
      exact ⟨hsend, fun _ _ => le_rfl⟩

theorem Kept.retire (threadId : ℕ) :
    Kept m (s.call m (.retire threadId)) ∧ ∀ σ : Series, σ.Cumulative m →
      σ.known (s.call m (.retire threadId)).collections = σ.known s.collections := by
  simp only [Scrapes.call, MetricsCollections.retire]
  cases hget : s.collections.lastByThread.get threadId with
  | none =>
    refine ⟨⟨h.carried, h.wellFormed, fun t xs hlast => ?_, fun e he => ⟨(h.reports e he).1,
      fun r hr => ((h.reports e he).2 r hr).mono rfl (fun _ ht => ht) fun _ _ hget => hget⟩, ?_⟩,
      fun _ _ => rfl⟩
    · obtain ⟨hne, hsent, hlive⟩ := h.last t xs hlast
      refine ⟨hne, hsent, ?_⟩
      rw [List.mem_append, List.mem_singleton, not_or]
      refine ⟨hlive, ?_⟩
      rintro rfl
      rw [hget] at hlast
      cases hlast
    · obtain ⟨parts, hnodup, hmem, hsum⟩ := h.folded
      exact ⟨parts, hnodup, fun q hq => ⟨(hmem q hq).1, List.mem_append_left _ (hmem q hq).2⟩, hsum⟩
  | some samples =>
    obtain ⟨-, hsent, hlive⟩ := h.last threadId samples hget
    have hwf := h.wellFormed _ hsent
    have hcumulative : ∀ x ∈ cumulativeSamplesOf m samples, x.Cumulative m := by
      intro x hx
      obtain ⟨y, hy, hxy⟩ := List.mem_filterMap.mp hx
      exact cumulative_of_cumulativeSample (hwf y hy) hxy
    obtain ⟨hcarried, hsum⟩ := foldl_carry hcumulative h.carried
    have hfold : ∀ σ : Series, σ.Cumulative m →
        σ.carried ((cumulativeSamplesOf m samples).foldl carry s.collections.retired) =
          σ.carried s.collections.retired + σ.total samples := fun σ hσ => by
      rw [hsum σ, total_cumulativeSamplesOf hwf hσ]
    refine ⟨⟨hcarried, h.wellFormed, fun t xs hlast => ?_, fun e' he' => ?_, ?_⟩, fun σ hσ => ?_⟩
    · simp only [JsMap.get_delete] at hlast
      split_ifs at hlast with ht
      obtain ⟨hne, hsent', hlive'⟩ := h.last t xs hlast
      refine ⟨hne, hsent', ?_⟩
      rw [List.mem_append, List.mem_singleton, not_or]
      exact ⟨hlive', Ne.symm ht⟩
    · obtain ⟨e, he, rfl⟩ := map_eq_some_iff.mp he'
      obtain ⟨hnodup, hold⟩ := h.reports e he
      refine ⟨((List.eraseP_sublist).map Report.worker).nodup hnodup, fun r hr => ?_⟩
      obtain ⟨hmem, hworker⟩ := mem_withdraw hnodup hr
      refine (hold r hmem).mono rfl (fun _ ht => ht) fun t hthread hlast => ?_
      simp only [JsMap.get_delete]
      rw [if_neg, hlast]
      rintro rfl
      exact hworker hthread
    · obtain ⟨parts, hnodup, hmem, hparts⟩ := h.folded
      refine ⟨parts ++ [(threadId, samples)], ?_, fun q hq => ?_, fun σ hσ => ?_⟩
      · rw [List.map_append, List.nodup_append]
        refine ⟨hnodup, List.nodup_singleton _, ?_⟩
        rintro t ht t' ht' rfl
        obtain ⟨q, hq, rfl⟩ := List.mem_map.mp ht
        have hexited := (hmem q hq).2
        rw [List.mem_singleton.mp ht'] at hexited
        exact hlive hexited
      · rcases mem_concat.mp hq with hq | rfl
        · exact ⟨(hmem q hq).1, List.mem_append_left _ (hmem q hq).2⟩
        · exact ⟨hsent, by simp⟩
      · rw [hfold σ hσ, hparts σ hσ, inParts_append]
        simp [inParts]
    · have htotal := JsMap.total_delete σ.total s.collections.lastByThread threadId
      rw [hget] at htotal
      simp only [map_some, getD_some] at htotal
      simp only [known, hfold σ hσ]
      omega

theorem Kept.finish :
    Kept m (s.call m .finish) ∧
      ∀ σ : Series, σ.known (s.call m .finish).collections = σ.known s.collections := by
  refine ⟨h.congr rfl rfl rfl rfl fun e' he' => ?_, fun _ => rfl⟩
  cases he'

/-- A call keeps the bookkeeping, and no series falls in it. -/
theorem Kept.call {e : ScrapeEvent} (hok : Admissible m s e) :
    Kept m (s.call m e) ∧ ∀ σ : Series, σ.Cumulative m →
      σ.known s.collections ≤ σ.known (s.call m e).collections := by
  have hle : ∀ {s' : Scrapes}, (Kept m s' ∧ ∀ σ : Series, σ.known s'.collections =
      σ.known s.collections) → Kept m s' ∧ ∀ σ : Series, σ.Cumulative m →
        σ.known s.collections ≤ σ.known s'.collections :=
    fun hs => ⟨hs.1, fun σ _ => le_of_eq (hs.2 σ).symm⟩
  cases e with
  | begin requester id targets => exact hle (h.begin requester id targets)
  | join requester id => exact hle (h.join requester id)
  | note collectId threadId samples => exact h.note hok
  | missed threadId => exact hle (h.missed threadId)
  | retire threadId =>
    obtain ⟨hkept, hsame⟩ := h.retire threadId
    exact ⟨hkept, fun σ hσ => le_of_eq (hsame σ hσ).symm⟩
  | finish => exact hle h.finish
  | retiredReport => exact hle ⟨h, fun _ => rfl⟩

end

/-! ## Every run -/

/-- What holds of the bookkeeping and the documents between calls. -/
structure Steady (m : Manifest) (s : Scrapes) : Prop where
  kept : Kept m s
  sound : Sound m s
  /-- No series was higher in the last document than it is known to be. -/
  last : ∀ d ∈ s.documents.getLast?, ∀ σ : Series, σ.Cumulative m →
    σ.inDocument d ≤ σ.known s.collections

theorem countedOnce_finish (h : Kept m s) {d : Document}
    (hd : (finishMetricsCollection m s.collections).1 = some d) :
    ∃ parts : List (ℕ × List Sample), (parts.map Prod.fst).Nodup ∧ (∀ p ∈ parts, p ∈ s.sent) ∧
      ∀ σ : Series, σ.Cumulative m → σ.inDocument d = σ.inParts parts := by
  obtain ⟨e, hactive⟩ : ∃ e, s.collections.active = some e := by
    cases hactive : s.collections.active with
    | none => simp [finishMetricsCollection, take, hactive] at hd
    | some e => exact ⟨e, rfl⟩
  obtain ⟨folded, hnodup, hmem, hsum⟩ := h.folded
  refine ⟨liveParts e ++ staleParts s.collections e ++ folded, ?_, fun p hp => ?_, fun σ hσ => ?_⟩
  · rw [List.map_append, List.nodup_append]
    refine ⟨nodup_parts h hactive, hnodup, ?_⟩
    rintro t ht t' ht' rfl
    obtain ⟨p, hp, rfl⟩ := List.mem_map.mp ht
    obtain ⟨q, hq, hpq⟩ := List.mem_map.mp ht'
    exact (h.last _ _ (last_of_mem_parts h hactive hp)).2.2 (hpq ▸ (hmem q hq).2)
  · rcases List.mem_append.mp hp with hp | hp
    · exact (h.last _ _ (last_of_mem_parts h hactive hp)).2.1
    · exact (hmem p hp).1
  · rw [inDocument_finish h hσ hactive hd, hsum σ hσ, ← inParts_append]

theorem CountedOnce.mono (h : CountedOnce m s) (hdocuments : s'.documents = s.documents)
    (hsent : ∀ p ∈ s.sent, p ∈ s'.sent) : CountedOnce m s' := by
  intro d hd
  obtain ⟨parts, hnodup, hmem, hsum⟩ := h d (hdocuments ▸ hd)
  exact ⟨parts, hnodup, fun p hp => hsent p (hmem p hp), hsum⟩

/-- A call hands out a document only when it finishes a collection. -/
theorem documents_call {e : ScrapeEvent} (he : e ≠ .finish) :
    (s.call m e).documents = s.documents ∧ ∀ p ∈ s.sent, p ∈ (s.call m e).sent := by
  cases e with
  | finish => exact absurd rfl he
  | note => exact ⟨rfl, fun p hp => List.mem_append_left _ hp⟩
  | _ => exact ⟨rfl, fun p hp => hp⟩

/-- A call with none counted off keeps what holds between calls. -/
theorem Steady.call (h : Steady m s) {e : ScrapeEvent} (hok : Admissible m s e)
    (hnone : NoneCountedOff s e) : Steady m (s.call m e) := by
  obtain ⟨hkept, hknown⟩ := h.kept.call hok
  by_cases he : e = .finish
  · subst he
    have hcall : (s.call m .finish).documents =
        s.documents ++ (finishMetricsCollection m s.collections).1.toList := rfl
    cases hd : (finishMetricsCollection m s.collections).1 with
    | none =>
      rw [hd, toList_none, List.append_nil] at hcall
      refine ⟨hkept, ⟨hcall ▸ h.sound.1, h.sound.2.mono hcall fun p hp => hp⟩, ?_⟩
      rw [hcall]
      exact fun d hd σ hσ => le_trans (h.last d hd σ hσ) (hknown σ hσ)
    | some d =>
      rw [hd, toList_some] at hcall
      obtain ⟨e, hactive⟩ : ∃ e, s.collections.active = some e := by
        cases hactive : s.collections.active with
        | none => simp [finishMetricsCollection, take, hactive] at hd
        | some e => exact ⟨e, rfl⟩
      have hall : ∀ σ : Series, σ.Cumulative m → σ.inDocument d = σ.known s.collections :=
        fun σ hσ => inDocument_eq_known h.kept hσ hactive hd (hnone e hactive)
      refine ⟨hkept, ⟨?_, ?_⟩, ?_⟩
      · rw [NeverFalls, hcall]
        refine List.isChain_append.mpr ⟨h.sound.1, List.isChain_singleton d, ?_⟩
        intro d' hd' d'' hd'' σ hσ
        rw [← some.inj hd'', hall σ hσ]
        exact h.last d' hd' σ hσ
      · intro d' hd'
        rw [hcall] at hd'
        rcases mem_concat.mp hd' with hd' | rfl
        · exact h.sound.2 d' hd'
        · exact countedOnce_finish h.kept hd
      · rw [hcall, List.getLast?_concat]
        intro d' hd' σ hσ
        rw [← some.inj hd', hall σ hσ]
        exact hknown σ hσ
  · obtain ⟨hdocuments, hsent⟩ := documents_call (m := m) (s := s) he
    refine ⟨hkept, ⟨?_, h.sound.2.mono hdocuments hsent⟩, ?_⟩
    · rw [hdocuments]
      exact h.sound.1
    · rw [hdocuments]
      exact fun d hd σ hσ => le_trans (h.last d hd σ hσ) (hknown σ hσ)

theorem steady_init (m : Manifest) : Steady m (scrapeMachine m).init where
  kept :=
    { carried := fun _ _ hget => by cases hget
      wellFormed := fun _ hp => by cases hp
      last := fun _ _ hget => by cases hget
      reports := fun _ he => by cases he
      folded := ⟨[], List.nodup_nil, List.forall_mem_nil _, fun _ _ => rfl⟩ }
  sound := ⟨List.isChain_nil, fun _ hd => by cases hd⟩
  last := fun _ hd => by cases hd

/-- In a run that finishes no collection with a worker counted off, no series falls from one
document to the next, and no worker is counted twice. -/
theorem sound_of_noneCountedOff {es : List ScrapeEvent}
    (h : (scrapeMachine m).ReachesWhere (fun s e => Admissible m s e ∧ NoneCountedOff s e) es s) :
    Sound m s := by
  have hsteady : Steady m s := by
    refine h.invariant (steady_init m) fun s e s' hs hok hstep => ?_
    cases hstep
    exact hs.call hok.1 hok.2
  exact hsteady.sound

/-! ## Two runs -/

/-- One counter, named c. -/
def oneCounter : Manifest where
  type name := if name = lit "c" then some .counter else none
  labels _ := []
  counts _ := 0
  name_ok := by
    intro name hname
    split_ifs at hname with hc
    · rw [hc]
      decide
    · exact absurd rfl hname
  label_ok := by
    intro _ _ hmem
    cases hmem

/-- The counter at a value. -/
def counterAt (n : ℕ) : Sample := ⟨lit "c", some .empty, some n, none⟩

theorem wellFormed_counterAt (n : ℕ) : (counterAt n).WellFormed oneCounter :=
  fun _ => ⟨List.forall_mem_nil _, .inl ⟨rfl, rfl, rfl⟩⟩

/-- The first scrape of a worker whose counter is at five. -/
def firstScrape : Scrapes :=
  (((scrapeMachine oneCounter).init.call oneCounter (.begin 0 (lit "x") [1])).call oneCounter
    (.note (lit "x") 1 (some [counterAt 5]))).call oneCounter .finish

instance (e : Collection) (t : ℕ) : Decidable (InCollection e t) :=
  inferInstanceAs (Decidable (_ ∧ _))

theorem noneCountedOff_of_all {s : Scrapes} (h : (s.collections.active.all fun e =>
    s.collections.lastByThread.entries.all fun p => decide (InCollection e p.1)) = true) :
    NoneCountedOff s .finish := by
  intro e he t samples hget
  rw [he, all_some, List.all_eq_true] at h
  exact of_decide_eq_true (h _ (JsMap.get_eq_some_iff.mp hget))

theorem reaches_call {ok : Scrapes → ScrapeEvent → Prop} {es : List ScrapeEvent}
    (h : (scrapeMachine m).ReachesWhere ok es s) (e : ScrapeEvent) (hok : ok s e) :
    (scrapeMachine m).ReachesWhere ok (es ++ [e]) (s.call m e) :=
  .next h hok rfl

theorem reaches_firstScrape : ∃ es, (scrapeMachine oneCounter).ReachesWhere
    (fun s e => Admissible oneCounter s e ∧ NoneCountedOff s e) es firstScrape := by
  have hstart : (scrapeMachine oneCounter).ReachesWhere
      (fun s e => Admissible oneCounter s e ∧ NoneCountedOff s e) [] _ := .start
  have hbegun := reaches_call hstart
    (.begin 0 (lit "x") [1]) ⟨trivial, trivial⟩
  have hnoted := reaches_call hbegun (.note (lit "x") 1 (some [counterAt 5]))
    ⟨⟨List.not_mem_nil, fun x hx => List.mem_singleton.mp hx ▸ wellFormed_counterAt 5,
      fun _ _ hmem => absurd hmem List.not_mem_nil⟩, trivial⟩
  exact ⟨_, reaches_call hnoted .finish
    ⟨trivial, noneCountedOff_of_all (by decide +kernel)⟩⟩

/-- The counter of a worker that exited is carried. -/
theorem sound_of_noneCountedOff_exitRun : ∃ s : Scrapes, Sound oneCounter s ∧
    s.documents.map (fun d => d.reports.map fun r => (r.worker, r.samples)) =
      [[(.thread 1, [counterAt 5])], [(.retired, [counterAt 5])]] := by
  obtain ⟨es, hfirst⟩ := reaches_firstScrape
  have hexited := reaches_call hfirst (.retire 1) ⟨trivial, trivial⟩
  have hbegun := reaches_call hexited (.begin 0 (lit "y") []) ⟨trivial, trivial⟩
  have hfinished := reaches_call hbegun .finish
    ⟨trivial, noneCountedOff_of_all (by decide +kernel)⟩
  exact ⟨_, sound_of_noneCountedOff hfinished, by decide +kernel⟩

/-- A live worker that could not be asked drops out of the next document. -/
theorem not_sound_missedRun : ¬ ∀ (m : Manifest) (es : List ScrapeEvent) (s : Scrapes),
    (scrapeMachine m).ReachesWhere (Admissible m) es s → Sound m s := by
  intro hall
  obtain ⟨es, hfirst⟩ := reaches_firstScrape
  have hrun : (scrapeMachine oneCounter).ReachesWhere (Admissible oneCounter) es firstScrape :=
    hfirst.mono fun s e h => h.1
  have hbegun := reaches_call hrun (.begin 0 (lit "y") [1]) trivial
  have hmissed := reaches_call hbegun (.missed (some 1)) trivial
  have hfinished := reaches_call hmissed .finish trivial
  have hfalls : ∃ d d', ((((firstScrape.call oneCounter (.begin 0 (lit "y") [1])).call oneCounter
      (.missed (some 1))).call oneCounter .finish).documents = [d, d']) ∧
      (mk (lit "c") [] .value).inDocument d' < (mk (lit "c") [] .value).inDocument d :=
    ⟨_, _, rfl, by decide +kernel⟩
  obtain ⟨d, d', hdocuments, hless⟩ := hfalls
  have hnever := (hall _ _ _ hfinished).1
  rw [NeverFalls, hdocuments, List.isChain_pair] at hnever
  exact not_le.mpr hless (hnever _ (.inl rfl))

end AdapterWs.Metrics
