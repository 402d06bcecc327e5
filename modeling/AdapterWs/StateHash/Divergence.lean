import AdapterWs.Lib.Machine
import AdapterWs.StateHash.Detector
import Mathlib.Data.Int.Interval

/-!
# Divergences that persist

A run of reports and exits under a clock that does not go back and one bucket width. What a lane
returns is a divergence of all live workers in the current epoch, and the last judged epochs of the
lane diverged with the same minority. The quiet lane returns a constellation again only after
another one or an agreement.
-/

namespace AdapterWs.StateHash

open JsString List Option JsMap Function

/-- The two lanes. -/
inductive LaneName
  | active
  | quiet
  deriving DecidableEq

/-- A lane of a detector. -/
def Detector.lane (detector : Detector) : LaneName → Lane
  | .active => detector.active
  | .quiet => detector.quiet

/-- `record` or `recordQuiet`. -/
def Detector.report (o : DetectorOptions) (detector : Detector) (lane : LaneName)
    (threadId hash : ℕ) (liveThreadIds : List ℕ) (epoch : ℤ) :
    Detector × Option Verdict × Option Divergence :=
  match lane with
  | .active => detector.record o threadId hash liveThreadIds epoch
  | .quiet => detector.recordQuiet o threadId hash liveThreadIds epoch

/-- A detector with its clock, what every thread has last reported to a lane in an epoch unless it
was forgotten, the verdicts of the lanes with their epochs, and what the quiet lane has returned
since its last agreement. -/
structure Watch where
  detector : Detector
  clock : ℚ
  reports : LaneName → ℤ → ℕ → Option ℕ
  verdicts : LaneName → List (ℤ × Verdict)
  returned : List Divergence

/-- What happens to a detector. -/
inductive WatchEvent
  | report (lane : LaneName) (threadId hash : ℕ) (liveThreadIds : List ℕ) (epochMs : Option ℚ)
      (now : ℚ)
  | forget (threadId : ℕ)

namespace Watch

/-- The quiet returns after an answer. -/
def returnedAfter (w : Watch) (lane : LaneName) (verdict : Option Verdict)
    (divergence : Option Divergence) : List Divergence :=
  match lane with
  | .active => w.returned
  | .quiet =>
    match verdict with
    | none => w.returned
    | some .agree => []
    | some (.diverge _) => w.returned ++ divergence.toList

theorem returnedAfter_diverge (w : Watch) (d : Divergence) (divergence : Option Divergence) :
    w.returnedAfter .quiet (some (.diverge d)) divergence = w.returned ++ divergence.toList := rfl

/-- What an event does. The clock does not go back and all buckets are of one width. -/
def step (o : DetectorOptions) (width : ℚ) (w : Watch) : WatchEvent → Option Watch
  | .report lane threadId hash liveThreadIds epochMs now =>
    if w.clock ≤ now ∧ o.width epochMs = width then
      let epoch := ⌊now / width⌋
      let answer := w.detector.report o lane threadId hash liveThreadIds epoch
      some
        { detector := answer.1
          clock := now
          reports := Function.update w.reports lane (Function.update (w.reports lane) epoch
            (Function.update (w.reports lane epoch) threadId (some hash)))
          verdicts := Function.update w.verdicts lane
            (w.verdicts lane ++ (answer.2.1.map (epoch, ·)).toList)
          returned := w.returnedAfter lane answer.2.1 answer.2.2 }
    else none
  | .forget threadId => some
      { w with
        detector := w.detector.forget threadId
        reports := fun lane epoch => Function.update (w.reports lane epoch) threadId none }

end Watch

/-- The runs from some time on. -/
def watching (o : DetectorOptions) (width start : ℚ) : Machine Watch WatchEvent where
  init := ⟨.create, start, fun _ _ _ => none, fun _ => [], []⟩
  step := Watch.step o width

/-! ## Buckets -/

/-- The buckets from the current epoch on are what was reported and judged, and there are not
many. -/
structure BucketsSound (o : DetectorOptions) (epoch : ℤ) (reports : ℤ → ℕ → Option ℕ)
    (judged : List ℤ) (buckets : JsMap ℤ Bucket) : Prop where
  keys_le : ∀ e b, buckets.get e = some b → e ≤ epoch
  size_le : buckets.size ≤ o.buckets + 1
  hashes_eq : ∀ e, epoch ≤ e → ∀ id,
    ((buckets.get e).bind fun b => b.hashes.get id) = reports e id
  judged_iff : ∀ e, epoch ≤ e → ((buckets.get e).map Bucket.judged = some true ↔ e ∈ judged)
  judged_le : ∀ e ∈ judged, e ≤ epoch
  ascending : judged.Pairwise (· < ·)

variable {o : DetectorOptions} {epoch later : ℤ} {reports : ℤ → ℕ → Option ℕ} {judged : List ℤ}
  {buckets : JsMap ℤ Bucket} {id hash : ℕ} {live : List ℕ} {map : JsMap ℤ Bucket}

theorem BucketsSound.mono (h : BucketsSound o epoch reports judged buckets)
    (hle : epoch ≤ later) : BucketsSound o later reports judged buckets where
  keys_le e b hget := (h.keys_le e b hget).trans hle
  size_le := h.size_le
  hashes_eq e he := h.hashes_eq e (hle.trans he)
  judged_iff e he := h.judged_iff e (hle.trans he)
  judged_le e he := (h.judged_le e he).trans hle
  ascending := h.ascending

theorem get_pruneMap (o : DetectorOptions) (map : JsMap ℤ Bucket) {e : ℤ}
    (he : epoch - o.buckets ≤ e) : (pruneMap o map epoch).get e = map.get e := by
  rw [pruneMap]
  split_ifs
  · rfl
  · rw [JsMap.get_filter, decide_eq_false (not_lt.mpr he), Bool.not_false]
    cases map.get e <;> rfl

theorem size_le_of_keys {n : ℕ} (h : ∀ e ∈ map.keys, epoch - n ≤ e ∧ e ≤ epoch) :
    map.size ≤ n + 1 := by
  have hsub : map.keys.toFinset ⊆ Finset.Icc (epoch - n) epoch := by
    intro e he
    rw [List.mem_toFinset] at he
    exact Finset.mem_Icc.mpr (h e he)
  have hcard := Finset.card_le_card hsub
  rw [toFinset_card_of_nodup map.nodup_keys, length_keys, Int.card_Icc] at hcard
  omega

theorem size_pruneMap (o : DetectorOptions) (h : ∀ e b, map.get e = some b → e ≤ epoch) :
    (pruneMap o map epoch).size ≤ o.buckets + 1 := by
  rw [pruneMap]
  split_ifs with hsize
  · exact hsize.trans (Nat.le_succ _)
  · refine @size_le_of_keys epoch _ _ fun e he => ?_
    cases hget : (map.filter fun epoch' _ => !decide (epoch' < epoch - o.buckets)).get e with
    | none => exact absurd he (get_eq_none_iff.mp hget)
    | some b =>
      rw [JsMap.get_filter, filter_eq_some_iff] at hget
      have hrecent := hget.2
      simp only [Bool.not_eq_true', decide_eq_false_iff_not, not_lt] at hrecent
      exact ⟨hrecent, h e b hget.1⟩

theorem get_of_pruneMap {e : ℤ} {b : Bucket} (h : (pruneMap o map epoch).get e = some b) :
    map.get e = some b := by
  rw [pruneMap] at h
  split_ifs at h
  · exact h
  · rw [JsMap.get_filter, filter_eq_some_iff] at h
    exact h.1

/-- What was reported, with one report more. -/
def reportsAfter (reports : ℤ → ℕ → Option ℕ) (epoch : ℤ) (threadId hash : ℕ) :
    ℤ → ℕ → Option ℕ :=
  Function.update reports epoch (Function.update (reports epoch) threadId (some hash))

section

variable (h : BucketsSound o epoch reports judged buckets)
include h

theorem BucketsSound.put {b : Bucket} {buckets' : JsMap ℤ Bucket} {judged' : List ℤ}
    (hashes : ∀ i, b.hashes.get i = reportsAfter reports epoch id hash epoch i)
    (hget : ∀ e, epoch ≤ e → buckets'.get e = if epoch = e then some b else buckets.get e)
    (hkeys : ∀ e b, buckets'.get e = some b → e ≤ epoch) (hsize : buckets'.size ≤ o.buckets + 1)
    (hjudged : judged' = judged ∧ (b.judged = true ↔ epoch ∈ judged) ∨
      judged' = judged ++ [epoch] ∧ b.judged = true ∧ epoch ∉ judged) :
    BucketsSound o epoch (reportsAfter reports epoch id hash) judged' buckets' := by
  refine ⟨hkeys, hsize, fun e he i => ?_, fun e he => ?_, fun e he => ?_, ?_⟩
  · rw [hget e he]
    split_ifs with heq
    · subst heq
      exact hashes i
    · rw [reportsAfter, update_of_ne (Ne.symm heq)]
      exact h.hashes_eq e he i
  · rw [hget e he]
    rcases hjudged with ⟨rfl, hb⟩ | ⟨rfl, hb, -⟩
    · split_ifs with heq
      · subst heq
        rw [map_some, some.injEq]
        exact hb
      · exact h.judged_iff e he
    · rw [mem_append, mem_singleton]
      split_ifs with heq
      · subst heq
        rw [map_some, hb]
        exact iff_of_true rfl (.inr rfl)
      · rw [h.judged_iff e he, or_iff_left (Ne.symm heq)]
  · rcases hjudged with ⟨rfl, -⟩ | ⟨rfl, -⟩
    · exact h.judged_le e he
    · rcases mem_append.mp he with he | he
      · exact h.judged_le e he
      · exact (mem_singleton.mp he).le
  · rcases hjudged with ⟨rfl, -⟩ | ⟨rfl, -, hnot⟩
    · exact h.ascending
    · refine pairwise_append.mpr ⟨h.ascending, pairwise_singleton .., ?_⟩
      intro e he e' he'
      rw [mem_singleton.mp he']
      exact lt_of_le_of_ne (h.judged_le e he) fun heq => hnot (heq ▸ he)

/-- One report: the buckets stay sound, and a verdict is that of all live threads in an epoch that
was not judged before. -/
theorem judge_sound (id hash : ℕ) (live : List ℕ) :
    ((judge o buckets id hash live epoch).2 = none ∧
      BucketsSound o epoch (reportsAfter reports epoch id hash) judged
        (judge o buckets id hash live epoch).1) ∨
    ((judge o buckets id hash live epoch).2 = some (verdictOf epoch
        (fun i => (reportsAfter reports epoch id hash epoch i).getD 0) live) ∧
      (∀ i ∈ live, (reportsAfter reports epoch id hash epoch i).isSome = true) ∧
      BucketsSound o epoch (reportsAfter reports epoch id hash) (judged ++ [epoch])
        (judge o buckets id hash live epoch).1) := by
  have hreports := h.hashes_eq epoch le_rfl
  have hjudged := h.judged_iff epoch le_rfl
  -- the bucket of the epoch, before the report
  obtain ⟨bucket, hbucket, hhashes, hflag⟩ : ∃ bucket,
      (buckets.get epoch).getD ⟨.empty, false⟩ = bucket ∧
        (∀ i, bucket.hashes.get i = reports epoch i) ∧ (bucket.judged = true ↔ epoch ∈ judged) := by
    cases hget : buckets.get epoch with
    | none =>
      rw [hget] at hreports hjudged
      exact ⟨_, rfl, hreports, iff_of_false Bool.false_ne_true
        fun hmem => absurd (hjudged.mpr hmem) (by simp)⟩
    | some bucket =>
      rw [hget] at hreports hjudged
      rw [map_some, some.injEq] at hjudged
      exact ⟨bucket, rfl, hreports, hjudged⟩
  have hafter : ∀ i, (bucket.hashes.set id hash).get i =
      reportsAfter reports epoch id hash epoch i := by
    intro i
    rw [get_set, reportsAfter, update_self, update_apply, hhashes]
    simp [eq_comm]
  have hput : ∀ e b, (buckets.set epoch ⟨bucket.hashes.set id hash, bucket.judged⟩).get e = some b →
      e ≤ epoch := by
    intro e b hget
    rw [get_set] at hget
    split_ifs at hget with heq
    · exact heq.ge
    · exact h.keys_le e b hget
  have hrecent : ∀ e, epoch ≤ e → epoch - o.buckets ≤ e := fun e he => by omega
  -- the bucket with the report, in the buckets that are kept
  set pruned := pruneMap o (buckets.set epoch ⟨bucket.hashes.set id hash, bucket.judged⟩) epoch
    with hpruned
  have hkept : BucketsSound o epoch (reportsAfter reports epoch id hash) judged pruned := by
    refine h.put (b := ⟨bucket.hashes.set id hash, bucket.judged⟩) hafter (fun e he => ?_)
      (fun e b hget => hput e b (get_of_pruneMap hget))
      (size_pruneMap o hput) (.inl ⟨rfl, hflag⟩)
    rw [hpruned, get_pruneMap o _ (hrecent e he), get_set]
  rw [judge, hbucket]
  by_cases hdone : bucket.judged = true
  · rw [if_pos hdone]
    exact .inl ⟨rfl, hkept⟩
  · rw [if_neg hdone]
    split_ifs with hall
    · right
      rw [List.all_eq_true] at hall
      refine ⟨?_, fun i hi => hafter i ▸ hall i hi, ?_⟩
      · simp [hafter]
      · refine h.put hafter (b := ⟨bucket.hashes.set id hash, true⟩) (fun e he => ?_)
          (fun e b hget => ?_) ?_ (.inr ⟨rfl, rfl, fun hmem => hdone (hflag.mpr hmem)⟩)
        · rw [get_set, get_pruneMap o _ (hrecent e he), get_set]
          split_ifs <;> rfl
        · rw [get_set] at hget
          split_ifs at hget with heq
          · exact heq.ge
          · exact hkept.keys_le e b hget
        · have hself : pruned.get epoch = some ⟨bucket.hashes.set id hash, bucket.judged⟩ := by
            rw [hpruned, get_pruneMap o _ (hrecent epoch le_rfl), get_set, if_pos rfl]
          rw [size_set, hself, isSome_some, if_pos rfl]
          exact hkept.size_le
    · exact .inl ⟨rfl, hkept⟩

theorem BucketsSound.forget (id : ℕ) :
    BucketsSound o epoch (fun e => update (reports e) id none) judged
      (Detector.forgetIn buckets id) := by
  have hget : ∀ e, (Detector.forgetIn buckets id).get e = (buckets.get e).map fun bucket =>
      { bucket with hashes := bucket.hashes.delete id } := fun e => get_mapVals ..
  refine ⟨fun e b hb => ?_, ?_, fun e he i => ?_, fun e he => ?_, h.judged_le, h.ascending⟩
  · rw [hget] at hb
    obtain ⟨bucket, hbucket, -⟩ := map_eq_some_iff.mp hb
    exact h.keys_le e bucket hbucket
  · exact (length_map _).trans_le h.size_le
  · rw [hget, update_apply, ← h.hashes_eq e he i]
    cases buckets.get e with
    | none =>
      split_ifs <;> rfl
    | some bucket =>
      rw [map_some, bind_some, bind_some, get_delete]
      simp [eq_comm]
  · rw [hget, ← h.judged_iff e he]
    cases buckets.get e <;> rfl

end

/-! ## Streaks -/

/-- The last verdicts of a lane, as many as its streak, are divergences of one minority. -/
def Streak (lane : Lane) (verdicts : List (ℤ × Verdict)) : Prop :=
  ∃ earlier recent, verdicts = earlier ++ recent ∧ recent.length = lane.streak ∧
    ∀ v ∈ recent, ∃ d, v.2 = .diverge d ∧ d.minorityThreadIds ≠ [] ∧
      some (partitionOf d) = lane.streakPartition

variable {lane : Lane} {verdicts : List (ℤ × Verdict)} {d d' : Divergence}

theorem minority_eq_of_partitionOf (hne : d.minorityThreadIds ≠ [])
    (hne' : d'.minorityThreadIds ≠ []) (h : partitionOf d = partitionOf d') :
    d.minorityThreadIds = d'.minorityThreadIds := by
  have hcomma : ∀ ids : List ℕ, ∀ p ∈ ids.map decimal, unit ',' ∉ p := by
    intro ids p hp hmem
    obtain ⟨n, -, rfl⟩ := mem_map.mp hp
    cases isDigit_of_mem_decimal hmem
  refine decimal_injective.list_map (intercalate_injective ?_ ?_ (hcomma _) (hcomma _) h)
  · simpa using hne
  · simpa using hne'

theorem Streak.follow (h : Streak lane verdicts) (epoch : ℤ) {v : Verdict}
    (hne : ∀ d, v = .diverge d → d.minorityThreadIds ≠ []) (buckets : JsMap ℤ Bucket) :
    Streak (Lane.follow { lane with buckets := buckets } v) (verdicts ++ [(epoch, v)]) := by
  obtain ⟨earlier, recent, heq, hlength, hrecent⟩ := h
  cases v with
  | agree =>
    exact ⟨verdicts ++ [(epoch, .agree)], [], (append_nil _).symm, rfl,
      forall_mem_nil _⟩
  | diverge d =>
    rw [Lane.follow]
    split_ifs with hsame
    · refine ⟨earlier, recent ++ [(epoch, .diverge d)], by rw [heq, append_assoc], ?_,
        fun v hv => ?_⟩
      · rw [length_append, hlength]
        rfl
      · rcases mem_concat.mp hv with hv | rfl
        · exact hrecent v hv
        · exact ⟨d, rfl, hne d rfl, hsame⟩
    · refine ⟨verdicts, [(epoch, .diverge d)], rfl, rfl, fun v hv => ?_⟩
      rw [mem_singleton.mp hv]
      exact ⟨d, rfl, hne d rfl, rfl⟩

theorem Diverges.minority_ne_nil {hashOf : ℕ → ℕ} (h : Diverges hashOf live d) :
    d.minorityThreadIds ≠ [] := by
  obtain ⟨id, hid, id', hid', hdiffer⟩ := h.differ
  by_cases hmajority : hashOf id = d.majorityHash
  · exact ne_nil_of_mem ((h.minority id').mpr ⟨hid', fun heq =>
      hdiffer (hmajority.trans heq.symm)⟩)
  · exact ne_nil_of_mem ((h.minority id).mpr ⟨hid, hmajority⟩)

/-- The last verdicts of a lane are divergences of one minority, the last one in this epoch. -/
def Persisted (o : DetectorOptions) (epoch : ℤ) (verdicts : List (ℤ × Verdict))
    (d : Divergence) : Prop :=
  ∃ earlier recent, verdicts = earlier ++ recent ∧ recent.length = o.persist ∧
    recent.getLast? = some (epoch, .diverge d) ∧
    ∀ v ∈ recent, ∃ d', v.2 = .diverge d' ∧ d'.minorityThreadIds = d.minorityThreadIds

theorem DetectorOptions.persist_pos (o : DetectorOptions) : 0 < o.persist := by
  rw [DetectorOptions.persist]
  split_ifs with h
  · exact h
  · exact two_pos

theorem Streak.persisted (h : Streak lane (verdicts ++ [(epoch, .diverge d)]))
    (hpartition : lane.streakPartition = some (partitionOf d)) (hne : d.minorityThreadIds ≠ [])
    (hlong : o.persist ≤ lane.streak) :
    Persisted o epoch (verdicts ++ [(epoch, .diverge d)]) d := by
  obtain ⟨earlier, recent, heq, hlength, hrecent⟩ := h
  have hsplit := take_append_drop (recent.length - o.persist) recent
  have hdrop : (recent.drop (recent.length - o.persist)).length = o.persist := by
    rw [length_drop]
    omega
  refine ⟨earlier ++ recent.take (recent.length - o.persist),
    recent.drop (recent.length - o.persist), ?_, hdrop, ?_, fun v hv => ?_⟩
  · rw [append_assoc, hsplit, heq]
  · have hnonempty : recent.drop (recent.length - o.persist) ≠ [] := by
      intro hnil
      rw [hnil, length_nil] at hdrop
      exact absurd hdrop o.persist_pos.ne
    have hlast : (earlier ++ recent).getLast? = some (epoch, .diverge d) := by
      rw [← heq, getLast?_concat]
    rw [← hsplit, ← append_assoc, getLast?_append_of_ne_nil _ hnonempty] at hlast
    exact hlast
  · obtain ⟨d', hd', hne', hsame⟩ := hrecent v (mem_of_mem_drop hv)
    refine ⟨d', hd', minority_eq_of_partitionOf hne' hne ?_⟩
    rw [hpartition] at hsame
    exact some.inj hsame

/-! ## Runs -/

/-- The buckets and the streak of a lane. -/
structure LaneSound (o : DetectorOptions) (epoch : ℤ) (reports : ℤ → ℕ → Option ℕ)
    (verdicts : List (ℤ × Verdict)) (lane : Lane) : Prop where
  buckets : BucketsSound o epoch reports (verdicts.map Prod.fst) lane.buckets
  streak : Streak lane verdicts

/-- Two divergences are of one constellation. -/
def SameConstellation (d d' : Divergence) : Prop :=
  ∀ id, d.hashesByThread.get id = d'.hashesByThread.get id

theorem signatureOf_congr (h : SameConstellation d d') : signatureOf d = signatureOf d' := by
  have hperm : d.hashesByThread.keys.Perm d'.hashesByThread.keys := by
    refine (perm_ext_iff_of_nodup d.hashesByThread.nodup_keys
      d'.hashesByThread.nodup_keys).mpr fun id => ?_
    rw [← not_iff_not, ← get_eq_none_iff, ← get_eq_none_iff, h id]
  have hkeys : d.hashesByThread.keys.insertionSort (· ≤ ·) =
      d'.hashesByThread.keys.insertionSort (· ≤ ·) :=
    List.Perm.eq_of_pairwise' (pairwise_insertionSort ..) (pairwise_insertionSort ..)
      ((perm_insertionSort ..).trans (hperm.trans (perm_insertionSort ..).symm))
  have hentries : entriesOf d.hashesByThread = entriesOf d'.hashesByThread := by
    rw [entriesOf, entriesOf, hkeys]
    exact map_congr_left fun id _ => by rw [h id]
  rw [signatureOf, signatureOf, hentries]

/-- The state of a detector in a run. -/
structure WatchSound (o : DetectorOptions) (width : ℚ) (w : Watch) : Prop where
  lanes : ∀ lane, LaneSound o ⌊w.clock / width⌋ (w.reports lane) (w.verdicts lane)
    (w.detector.lane lane)
  signature : w.detector.quietSignature = w.returned.getLast?.map signatureOf

variable {w w' : Watch} {width start now : ℚ} {epochMs : Option ℚ} {name : LaneName}

theorem width_pos (o : DetectorOptions) (epochMs : Option ℚ) : 0 < o.width epochMs := by
  have hdefault : 0 < o.defaultEpochMs := by
    rw [DetectorOptions.defaultEpochMs]
    split_ifs with h
    · exact h
    · exact zero_lt_one
  cases epochMs with
  | none => exact hdefault
  | some w =>
    simp only [DetectorOptions.width]
    split_ifs with h
    · exact h
    · exact hdefault

/-- What a report to a lane comes to: its buckets and streak follow, and what it returns is the
divergence of its verdict, where it has persisted. -/
structure Answered (o : DetectorOptions) (epoch : ℤ) (reports : ℤ → ℕ → Option ℕ) (live : List ℕ)
    (verdicts : List (ℤ × Verdict)) (lane : Lane) (verdict : Option Verdict)
    (returned : Option Divergence) : Prop where
  sound : LaneSound o epoch reports (verdicts ++ (verdict.map (epoch, ·)).toList) lane
  complete : ∀ v, verdict = some v → (∀ i ∈ live, (reports epoch i).isSome = true) ∧
    verdictOf epoch (fun i => (reports epoch i).getD 0) live = v
  persisted : ∀ d, returned = some d → verdict = some (.diverge d) ∧
    lane.streakPartition = some (partitionOf d) ∧ o.persist ≤ lane.streak

@[simp] theorem buckets_follow (lane : Lane) (v : Verdict) :
    (lane.follow v).buckets = lane.buckets := by
  cases v with
  | agree => rfl
  | diverge d =>
    rw [Lane.follow]
    split_ifs <;> rfl

theorem streakPartition_follow (lane : Lane) (d : Divergence) :
    (lane.follow (.diverge d)).streakPartition = some (partitionOf d) := by
  rw [Lane.follow]
  split_ifs with hsame
  · exact hsame.symm
  · rfl

theorem answered_none (h : LaneSound o epoch reports verdicts lane)
    (hbuckets : BucketsSound o epoch (reportsAfter reports epoch id hash) (verdicts.map Prod.fst)
      buckets) : Answered o epoch (reportsAfter reports epoch id hash) live verdicts
        { lane with buckets := buckets } none none := by
  refine ⟨⟨?_, ?_⟩, fun v hv => ?_, fun d hd => ?_⟩
  · rw [map_none, toList_none, append_nil]
    exact hbuckets
  · rw [map_none, toList_none, append_nil]
    exact h.streak
  · cases hv
  · cases hd

/-- A report that completes a bucket, with what it returns. -/
theorem answered_some (h : LaneSound o epoch reports verdicts lane) {v : Verdict}
    (hv : verdictOf epoch (fun i => (reportsAfter reports epoch id hash epoch i).getD 0) live = v)
    (hall : ∀ i ∈ live, (reportsAfter reports epoch id hash epoch i).isSome = true)
    (hbuckets : BucketsSound o epoch (reportsAfter reports epoch id hash)
      (verdicts.map Prod.fst ++ [epoch]) buckets) {returned : Option Divergence}
    (hreturned : ∀ d, returned = some d → v = .diverge d ∧
      o.persist ≤ (Lane.follow { lane with buckets := buckets } v).streak) :
    Answered o epoch (reportsAfter reports epoch id hash) live verdicts
      (Lane.follow { lane with buckets := buckets } v) (some v) returned := by
  refine ⟨⟨?_, ?_⟩, fun v' hv' => ?_, fun d hd => ?_⟩
  · rw [buckets_follow, map_some, toList_some, map_append]
    exact hbuckets
  · refine h.streak.follow epoch (fun d hd => ?_) buckets
    rw [hd] at hv
    exact (diverges_of_verdictOf hv).2.minority_ne_nil
  · cases hv'
    exact ⟨hall, hv⟩
  · obtain ⟨rfl, hlong⟩ := hreturned d hd
    exact ⟨rfl, streakPartition_follow _ d, hlong⟩

section

variable (id hash) (live)

theorem record_answered {detector : Detector}
    (h : LaneSound o epoch reports verdicts detector.active) :
    Answered o epoch (reportsAfter reports epoch id hash) live verdicts
      (detector.record o id hash live epoch).1.active (detector.record o id hash live epoch).2.1
      (detector.record o id hash live epoch).2.2 ∧
    (detector.record o id hash live epoch).1.quiet = detector.quiet ∧
    (detector.record o id hash live epoch).1.quietSignature = detector.quietSignature := by
  rw [Detector.record]
  rcases judge_sound h.buckets id hash live with ⟨hnone, hbuckets⟩ | ⟨hsome, hall, hbuckets⟩
  · rw [hnone]
    exact ⟨answered_none h hbuckets, rfl, rfl⟩
  · rw [hsome]
    cases hv : verdictOf epoch (fun i => (reportsAfter reports epoch id hash epoch i).getD 0)
        live with
    | agree =>
      exact ⟨answered_some h hv hall hbuckets fun d hd => absurd hd (by simp), rfl, rfl⟩
    | diverge d =>
      refine ⟨answered_some h hv hall hbuckets fun d' hd' => ?_, rfl, rfl⟩
      simp only at hd'
      split_ifs at hd' with hshort
      cases hd'
      exact ⟨rfl, not_lt.mp hshort⟩

/-- The quiet lane follows the same rules, and does not return the last constellation again. -/
theorem recordQuiet_answered {detector : Detector} {returned : List Divergence}
    (h : LaneSound o epoch reports verdicts detector.quiet)
    (hsignature : detector.quietSignature = returned.getLast?.map signatureOf) :
    Answered o epoch (reportsAfter reports epoch id hash) live verdicts
      (detector.recordQuiet o id hash live epoch).1.quiet
      (detector.recordQuiet o id hash live epoch).2.1
      (detector.recordQuiet o id hash live epoch).2.2 ∧
    (detector.recordQuiet o id hash live epoch).1.active = detector.active ∧
    (∀ d d', (detector.recordQuiet o id hash live epoch).2.2 = some d →
      returned.getLast? = some d' → ¬SameConstellation d d') ∧
    ∀ w : Watch, w.returned = returned →
      (detector.recordQuiet o id hash live epoch).1.quietSignature =
        (w.returnedAfter .quiet (detector.recordQuiet o id hash live epoch).2.1
          (detector.recordQuiet o id hash live epoch).2.2).getLast?.map signatureOf := by
  rw [Detector.recordQuiet]
  rcases judge_sound h.buckets id hash live with ⟨hnone, hbuckets⟩ | ⟨hsome, hall, hbuckets⟩
  · rw [hnone]
    refine ⟨answered_none h hbuckets, rfl, fun d d' hd => absurd hd (by simp), fun w hw => ?_⟩
    rw [← hw] at hsignature
    exact hsignature
  · rw [hsome]
    cases hv : verdictOf epoch (fun i => (reportsAfter reports epoch id hash epoch i).getD 0)
        live with
    | agree =>
      exact ⟨answered_some h hv hall hbuckets fun d hd => absurd hd (by simp), rfl,
        fun d d' hd => absurd hd (by simp), fun w _ => rfl⟩
    | diverge d =>
      simp only
      split_ifs with hshort hsame
      · refine ⟨answered_some h hv hall hbuckets fun d' hd' => absurd hd' (by simp), rfl,
          fun d d' hd => absurd hd (by simp), fun w hw => ?_⟩
        rw [Watch.returnedAfter_diverge, toList_none, append_nil, hw]
        exact hsignature
      · refine ⟨answered_some h hv hall hbuckets fun d' hd' => absurd hd' (by simp), rfl,
          fun d d' hd => absurd hd (by simp), fun w hw => ?_⟩
        rw [Watch.returnedAfter_diverge, toList_none, append_nil, hw]
        exact hsignature
      · refine ⟨answered_some h hv hall hbuckets fun d' hd' => ?_, rfl,
          fun d' last hd' hlast heq => hsame ?_, fun w hw => ?_⟩
        · cases hd'
          exact ⟨rfl, not_lt.mp hshort⟩
        · cases hd'
          rw [hsignature, hlast, map_some, signatureOf_congr heq]
        · rw [Watch.returnedAfter_diverge, toList_some, getLast?_concat]
          rfl

theorem report_answered
    (h : LaneSound o epoch (w.reports name) (w.verdicts name) (w.detector.lane name))
    (hsignature : w.detector.quietSignature = w.returned.getLast?.map signatureOf) :
    Answered o epoch (reportsAfter (w.reports name) epoch id hash) live (w.verdicts name)
      ((w.detector.report o name id hash live epoch).1.lane name)
      (w.detector.report o name id hash live epoch).2.1
      (w.detector.report o name id hash live epoch).2.2 ∧
    (∀ other, other ≠ name →
      (w.detector.report o name id hash live epoch).1.lane other = w.detector.lane other) ∧
    (name = .quiet → ∀ d d', (w.detector.report o name id hash live epoch).2.2 = some d →
      w.returned.getLast? = some d' → ¬SameConstellation d d') ∧
    (w.detector.report o name id hash live epoch).1.quietSignature =
      (w.returnedAfter name (w.detector.report o name id hash live epoch).2.1
        (w.detector.report o name id hash live epoch).2.2).getLast?.map signatureOf := by
  cases name with
  | active =>
    obtain ⟨hanswered, hquiet, hsame⟩ := record_answered id hash live h
    refine ⟨hanswered, fun other hother => ?_, fun heq => absurd heq (by simp),
      hsame.trans hsignature⟩
    cases other with
    | active => exact absurd rfl hother
    | quiet => exact hquiet
  | quiet =>
    obtain ⟨hanswered, hactive, hnew, hsame⟩ :=
      recordQuiet_answered id hash live h hsignature
    refine ⟨hanswered, fun other hother => ?_, fun _ => hnew, hsame w rfl⟩
    cases other with
    | active => exact hactive
    | quiet => exact absurd rfl hother

end

theorem LaneSound.mono (h : LaneSound o epoch reports verdicts lane) (hle : epoch ≤ later) :
    LaneSound o later reports verdicts lane :=
  ⟨h.buckets.mono hle, h.streak⟩

theorem WatchSound.inEpoch (h : WatchSound o width w)
    (hguard : w.clock ≤ now ∧ o.width epochMs = width) (name : LaneName) :
    LaneSound o ⌊now / width⌋ (w.reports name) (w.verdicts name) (w.detector.lane name) := by
  refine (h.lanes name).mono (Int.floor_le_floor ?_)
  have hpos : 0 < width := hguard.2 ▸ width_pos o epochMs
  exact div_le_div_of_nonneg_right hguard.1 hpos.le

theorem WatchSound.step (h : WatchSound o width w) {e : WatchEvent}
    (hstep : w.step o width e = some w') : WatchSound o width w' := by
  cases e with
  | report name id hash live epochMs now =>
    obtain ⟨hguard, ⟨⟩⟩ := ite_none_right_eq_some.mp hstep
    obtain ⟨hanswered, hothers, -, hsignature⟩ :=
      report_answered id hash live (h.inEpoch hguard name) h.signature
    refine ⟨fun other => ?_, hsignature⟩
    simp only
    by_cases hother : other = name
    · subst hother
      rw [update_self, update_self]
      exact hanswered.sound
    · rw [update_of_ne hother, update_of_ne hother, hothers other hother]
      exact h.inEpoch hguard other
  | forget id =>
    cases hstep
    refine ⟨fun other => ?_, h.signature⟩
    have hother := h.lanes other
    refine ⟨?_, ?_⟩
    · cases other with
      | active => exact hother.buckets.forget id
      | quiet => exact hother.buckets.forget id
    · cases other with
      | active => exact hother.streak
      | quiet => exact hother.streak

theorem watchSound_init (o : DetectorOptions) (width start : ℚ) :
    WatchSound o width (watching o width start).init := by
  refine ⟨fun name => ⟨⟨fun e b hget => ?_, ?_, fun e _ i => ?_, fun e _ => ?_, fun e he => ?_,
    .nil⟩, ⟨[], [], rfl, ?_, forall_mem_nil _⟩⟩, rfl⟩
  · cases name <;> cases hget
  · cases name <;> exact Nat.zero_le _
  · cases name <;> rfl
  · cases name <;> exact iff_of_false (by simp [watching, Detector.create, Detector.lane,
      JsMap.empty, JsMap.get, JsMap.lookup]) not_mem_nil
  · cases he
  · cases name <;> rfl

theorem watchSound_of_reaches {es : List WatchEvent}
    (h : (watching o width start).Reaches es w) : WatchSound o width w :=
  Machine.ReachesWhere.invariant (I := WatchSound o width) (watchSound_init o width start)
    (fun _ _ _ ih _ hstep => ih.step hstep) h

/-- In any run: no lane keeps more than one bucket beyond its bound, no epoch is judged twice, and a
divergence that a lane returns is one of hashes that all live workers have reported in the current
epoch, its majority is held by a largest group, and the last judged epochs diverged with the same
minority. The quiet lane does not return its last constellation again before an agreement. -/
theorem divergence_persists (o : DetectorOptions) (width start : ℚ) {es : List WatchEvent}
    {w : Watch} (h : (watching o width start).Reaches es w) :
    (∀ name, (w.detector.lane name).buckets.size ≤ o.buckets + 1 ∧
      ((w.verdicts name).map Prod.fst).Pairwise (· < ·)) ∧
    ∀ name id hash live epochMs now w',
      w.step o width (.report name id hash live epochMs now) = some w' →
      ∀ d, (w.detector.report o name id hash live ⌊now / width⌋).2.2 = some d →
        d.epoch = ⌊now / width⌋ ∧
        (∀ i ∈ live, (w'.reports name ⌊now / width⌋ i).isSome = true) ∧
        Diverges (fun i => (w'.reports name ⌊now / width⌋ i).getD 0) live d ∧
        Persisted o ⌊now / width⌋ (w'.verdicts name) d ∧
        (name = .quiet → ∀ d', w.returned.getLast? = some d' → ¬SameConstellation d d') := by
  have hsound := watchSound_of_reaches h
  refine ⟨fun name => ⟨(hsound.lanes name).buckets.size_le, (hsound.lanes name).buckets.ascending⟩,
    fun name id hash live epochMs now w' hstep d hd => ?_⟩
  obtain ⟨hguard, ⟨⟩⟩ := ite_none_right_eq_some.mp hstep
  obtain ⟨hanswered, -, hnew, -⟩ :=
    report_answered id hash live (hsound.inEpoch hguard name) hsound.signature
  obtain ⟨hverdict, hpartition, hlong⟩ := hanswered.persisted d hd
  obtain ⟨hall, hv⟩ := hanswered.complete _ hverdict
  obtain ⟨hepoch, hdiverges⟩ := diverges_of_verdictOf hv
  rw [reportsAfter, update_self] at hall hdiverges
  have hstreak := hanswered.sound.streak
  rw [hverdict, map_some, toList_some] at hstreak
  have hpersisted := hstreak.persisted hpartition hdiverges.minority_ne_nil hlong
  simp only [update_self]
  refine ⟨hepoch, hall, hdiverges, ?_, fun hname d' hlast => hnew hname d d' hd hlast⟩
  rw [hverdict, map_some, toList_some]
  exact hpersisted

/-- Reports of two workers to a lane, one after the other in an epoch of a hundred. -/
def round (name : LaneName) (epoch : ℕ) (hash hash' : ℕ) : List WatchEvent :=
  [.report name 1 hash [1, 2] none (100 * epoch), .report name 2 hash' [1, 2] none (100 * epoch)]

/-- Options of a hundred milliseconds a bucket. -/
def hundredMs (persistEpochs : ℕ) : DetectorOptions := ⟨100, 0, persistEpochs⟩

/-- The second round in a row in which the second worker disagrees is returned. -/
theorem divergence_persists_fork : ∃ w, (watching (hundredMs 2) 100 0).Reaches
    (round .active 0 7 8 ++ [.report .active 1 5 [1, 2] none 100]) w ∧
    (∀ i ∈ [1, 2], (((w.step (hundredMs 2) 100 (.report .active 2 9 [1, 2] none 100)).map
      fun w' => w'.reports .active 1 i).join).isSome = true) ∧
    ((w.detector.report (hundredMs 2) .active 2 9 [1, 2] 1).2.2.map
      Divergence.minorityThreadIds) = some [2] := by
  obtain ⟨w, hreaches, hminority, hstep⟩ : ∃ w, (watching (hundredMs 2) 100 0).Reaches
      (round .active 0 7 8 ++ [.report .active 1 5 [1, 2] none 100]) w ∧
      (w.detector.report (hundredMs 2) .active 2 9 [1, 2] 1).2.2.map
        Divergence.minorityThreadIds = some [2] ∧
      (w.step (hundredMs 2) 100 (.report .active 2 9 [1, 2] none 100)).isSome = true :=
    Machine.exists_of_exec (by decide +kernel)
  obtain ⟨w', hstep⟩ := isSome_iff_exists.mp hstep
  obtain ⟨d, hd, -⟩ := map_eq_some_iff.mp hminority
  have hepoch : ⌊(100 : ℚ) / 100⌋ = 1 := by decide +kernel
  obtain ⟨-, hall, -⟩ := (divergence_persists _ _ _ hreaches).2 .active 2 9 [1, 2] none 100 w'
    hstep d (hepoch ▸ hd)
  rw [hepoch] at hall
  refine ⟨w, hreaches, ?_, hminority⟩
  rw [hstep]
  exact hall

/-- The quiet lane returns a constellation again after another one of the same minority. -/
theorem exists_returned_again : ∃ w, (watching (hundredMs 1) 100 0).Reaches
    (round .quiet 0 7 8 ++ round .quiet 1 7 9 ++ round .quiet 2 7 8) w ∧
    (w.returned.map fun d => (entriesOf d.hashesByThread, d.minorityThreadIds)) =
      [([(1, 7), (2, 8)], [2]), ([(1, 7), (2, 9)], [2]), ([(1, 7), (2, 8)], [2])] ∧
    (w.verdicts .quiet).length = 3 :=
  Machine.exists_of_exec (by decide +kernel)

end AdapterWs.StateHash
