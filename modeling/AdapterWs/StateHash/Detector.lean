import AdapterWs.Lib.Decimal
import AdapterWs.Lib.JsMap
import Mathlib.Data.Rat.Floor

/-!
# The state-hash detector of the primary

Workers report a hash of their state, and the primary puts every report into the bucket of its own
epoch. A bucket is judged once every live worker has reported into it. Two lanes of buckets follow
the same rules; the active one returns a divergence that has persisted, the quiet one returns a
standing divergence once.
-/

namespace AdapterWs.StateHash

open JsString List

/-- The options of `createStateHashDetector`; zero is what is not given. -/
structure DetectorOptions where
  epochMs : ℚ
  maxBuckets : ℕ
  persistEpochs : ℕ

namespace DetectorOptions

variable (o : DetectorOptions)

/-- The width of a bucket where a report brings none. -/
def defaultEpochMs : ℚ := if 0 < o.epochMs then o.epochMs else 1

/-- How many recent epochs a lane keeps. -/
def buckets : ℕ := if 0 < o.maxBuckets then o.maxBuckets else 8

/-- How many epochs a divergence has to persist. -/
def persist : ℕ := if 0 < o.persistEpochs then o.persistEpochs else 2

/-- The width of the bucket of a report. -/
def width (epochMs : Option ℚ) : ℚ :=
  match epochMs with
  | some w => if 0 < w then w else o.defaultEpochMs
  | none => o.defaultEpochMs

end DetectorOptions

/-- The reports of one epoch by thread. -/
structure Bucket where
  hashes : JsMap ℕ ℕ
  judged : Bool

/-- `StateDivergence`. -/
structure Divergence where
  epoch : ℤ
  majorityHash : ℕ
  hashesByThread : JsMap ℕ ℕ
  minorityThreadIds : List ℕ

/-- What a complete bucket shows. -/
inductive Verdict
  | agree
  | diverge (d : Divergence)

/-- The buckets of a lane by epoch, and how often the same threads have disagreed in a row. -/
structure Lane where
  buckets : JsMap ℤ Bucket
  streak : ℕ
  streakPartition : Option JsString

/-- The two lanes, and the last constellation that the quiet one returned. -/
structure Detector where
  active : Lane
  quiet : Lane
  quietSignature : Option JsString

/-! ## One report -/

/-- `pruneMap(map, currentEpoch)`. -/
def pruneMap (o : DetectorOptions) (map : JsMap ℤ Bucket) (currentEpoch : ℤ) : JsMap ℤ Bucket :=
  if map.size ≤ o.buckets then map
  else map.filter fun epoch _ => !decide (epoch < currentEpoch - o.buckets)

/-- The threads of each hash. -/
def byHash (hashOf : ℕ → ℕ) (liveThreadIds : List ℕ) : JsMap ℕ (List ℕ) :=
  liveThreadIds.foldl (fun m id => m.set (hashOf id) ((m.get (hashOf id)).getD [] ++ [id])) .empty

/-- The threads of one hash, in order, with the greatest. -/
structure Group where
  hash : ℕ
  ids : List ℕ
  max : ℕ

/-- The group of an entry. -/
def Group.ofEntry (entry : ℕ × List ℕ) : Group :=
  let sorted := entry.2.insertionSort (· ≤ ·)
  ⟨entry.1, sorted, sorted.getLast?.getD 0⟩

/-- The order of groups: larger ones first, and of two alike the one with the smaller greatest. -/
def Group.Before (a b : Group) : Prop :=
  b.ids.length < a.ids.length ∨ b.ids.length = a.ids.length ∧ a.max ≤ b.max

instance (a b : Group) : Decidable (a.Before b) := inferInstanceAs (Decidable (_ ∨ _))

/-- What the hashes of all live threads show. -/
def verdictOf (epoch : ℤ) (hashOf : ℕ → ℕ) (liveThreadIds : List ℕ) : Verdict :=
  let hashes := byHash hashOf liveThreadIds
  if hashes.size ≤ 1 then .agree
  else
    match (hashes.entries.map Group.ofEntry).insertionSort Group.Before with
    | [] => .agree
    | majority :: _ => .diverge
        { epoch := epoch, majorityHash := majority.hash
          hashesByThread := liveThreadIds.foldl (fun m id => m.set id (hashOf id)) .empty
          minorityThreadIds := (liveThreadIds.filter fun id =>
            decide (hashOf id ≠ majority.hash)).insertionSort (· ≤ ·) }

/-- `judge(map, threadId, hash, liveThreadIds, epochMs)` in an epoch: the buckets after it, and the
verdict where the report completes a bucket that was not judged. -/
def judge (o : DetectorOptions) (map : JsMap ℤ Bucket) (threadId hash : ℕ)
    (liveThreadIds : List ℕ) (epoch : ℤ) : JsMap ℤ Bucket × Option Verdict :=
  let bucket := (map.get epoch).getD ⟨.empty, false⟩
  let hashes := bucket.hashes.set threadId hash
  let pruned := pruneMap o (map.set epoch ⟨hashes, bucket.judged⟩) epoch
  if bucket.judged then (pruned, none)
  else if liveThreadIds.all fun id => (hashes.get id).isSome then
    (pruned.set epoch ⟨hashes, true⟩,
      some (verdictOf epoch (fun id => (hashes.get id).getD 0) liveThreadIds))
  else (pruned, none)

/-! ## The lanes -/

/-- `minorityThreadIds.join(',')`. -/
def partitionOf (d : Divergence) : JsString :=
  [unit ','].intercalate (d.minorityThreadIds.map decimal)

/-- The streak after a verdict. -/
def Lane.follow (lane : Lane) : Verdict → Lane
  | .agree => { lane with streak := 0, streakPartition := none }
  | .diverge d =>
    if some (partitionOf d) = lane.streakPartition then { lane with streak := lane.streak + 1 }
    else { lane with streak := 1, streakPartition := some (partitionOf d) }

/-- `Object.entries(hashesByThread)`: the keys of such an object come in ascending order. -/
def entriesOf (hashesByThread : JsMap ℕ ℕ) : List (ℕ × ℕ) :=
  (hashesByThread.keys.insertionSort (· ≤ ·)).map fun id =>
    (id, (hashesByThread.get id).getD 0)

/-- The order of strings by their units. -/
def unitsLe : JsString → JsString → Bool
  | [], _ => true
  | _ :: _, [] => false
  | a :: s, b :: t => decide (a < b) || decide (a = b) && unitsLe s t

/-- The signature of a constellation. -/
def signatureOf (d : Divergence) : JsString :=
  [unit ','].intercalate (((entriesOf d.hashesByThread).map fun entry =>
    decimal entry.1 ++ unit ':' :: decimal entry.2).insertionSort (unitsLe · · = true))

namespace Detector

/-- `createStateHashDetector(opts)`. -/
def create : Detector := ⟨⟨.empty, 0, none⟩, ⟨.empty, 0, none⟩, none⟩

/-- `record(threadId, hash, liveThreadIds, epochMs)` in an epoch, with the verdict it comes to and
the divergence it returns. -/
def record (o : DetectorOptions) (detector : Detector) (threadId hash : ℕ)
    (liveThreadIds : List ℕ) (epoch : ℤ) : Detector × Option Verdict × Option Divergence :=
  let judged := judge o detector.active.buckets threadId hash liveThreadIds epoch
  let lane := { detector.active with buckets := judged.1 }
  match judged.2 with
  | none => ({ detector with active := lane }, none, none)
  | some .agree => ({ detector with active := lane.follow .agree }, some .agree, none)
  | some (.diverge d) =>
    let followed := lane.follow (.diverge d)
    ({ detector with active := followed }, some (.diverge d),
      if followed.streak < o.persist then none else some d)

/-- `recordQuiet(threadId, hash, liveThreadIds, epochMs)` in an epoch. -/
def recordQuiet (o : DetectorOptions) (detector : Detector) (threadId hash : ℕ)
    (liveThreadIds : List ℕ) (epoch : ℤ) : Detector × Option Verdict × Option Divergence :=
  let judged := judge o detector.quiet.buckets threadId hash liveThreadIds epoch
  let lane := { detector.quiet with buckets := judged.1 }
  match judged.2 with
  | none => ({ detector with quiet := lane }, none, none)
  | some .agree =>
    ({ detector with quiet := lane.follow .agree, quietSignature := none }, some .agree, none)
  | some (.diverge d) =>
    let followed := lane.follow (.diverge d)
    if followed.streak < o.persist then
      ({ detector with quiet := followed }, some (.diverge d), none)
    else if some (signatureOf d) = detector.quietSignature then
      ({ detector with quiet := followed }, some (.diverge d), none)
    else
      ({ detector with quiet := followed, quietSignature := some (signatureOf d) },
        some (.diverge d), some d)

/-- A thread leaves the buckets of a lane. -/
def forgetIn (map : JsMap ℤ Bucket) (threadId : ℕ) : JsMap ℤ Bucket :=
  map.mapVals fun _ bucket => { bucket with hashes := bucket.hashes.delete threadId }

/-- `forget(threadId)`. -/
def forget (detector : Detector) (threadId : ℕ) : Detector :=
  { detector with
    active := { detector.active with buckets := forgetIn detector.active.buckets threadId }
    quiet := { detector.quiet with buckets := forgetIn detector.quiet.buckets threadId } }

end Detector

/-! ## Verdicts -/

variable {epoch : ℤ} {hashOf : ℕ → ℕ} {live : List ℕ} {d : Divergence}

/-- The live threads of a hash. -/
def holders (hashOf : ℕ → ℕ) (live : List ℕ) (h : ℕ) : List ℕ :=
  live.filter fun id => decide (hashOf id = h)

theorem mem_holders {h id : ℕ} : id ∈ holders hashOf live h ↔ id ∈ live ∧ hashOf id = h := by
  rw [holders, mem_filter, decide_eq_true_iff]

section

variable (hashOf) (live)

theorem holders_concat (id h : ℕ) :
    holders hashOf (live ++ [id]) h =
      if hashOf id = h then holders hashOf live h ++ [id] else holders hashOf live h := by
  rw [holders, filter_append, filter_singleton, ← holders]
  by_cases hid : hashOf id = h <;> simp [hid]

theorem byHash_concat (id : ℕ) : byHash hashOf (live ++ [id]) =
    (byHash hashOf live).set (hashOf id)
      (((byHash hashOf live).get (hashOf id)).getD [] ++ [id]) := by
  rw [byHash, foldl_append]
  rfl

theorem get_byHash (h : ℕ) : (byHash hashOf live).get h =
    if holders hashOf live h = [] then none else some (holders hashOf live h) := by
  induction live using reverseRecOn generalizing h with
  | nil => rfl
  | append_singleton live id ih =>
    rw [byHash_concat, JsMap.get_set, holders_concat]
    by_cases hid : hashOf id = h
    · subst hid
      rw [if_pos rfl, if_pos rfl, ih, if_neg (append_ne_nil_of_right_ne_nil _ (by simp))]
      by_cases hnil : holders hashOf live (hashOf id) = []
      · rw [if_pos hnil, hnil]
        rfl
      · rw [if_neg hnil]
        rfl
    · rw [if_neg hid, if_neg hid, ih]

end

theorem mem_keys_byHash {h : ℕ} :
    h ∈ (byHash hashOf live).keys ↔ ∃ id ∈ live, hashOf id = h := by
  have hnone := @JsMap.get_eq_none_iff _ _ _ (byHash hashOf live) h
  rw [get_byHash] at hnone
  constructor
  · intro hmem
    by_contra hnot
    refine hnone.mp (if_pos ?_) hmem
    refine filter_eq_nil_iff.mpr fun id hid => ?_
    simpa using fun heq => hnot ⟨id, hid, heq⟩
  · rintro ⟨id, hid, heq⟩
    by_contra hnot
    have hempty := hnone.mpr hnot
    split_ifs at hempty with hnil
    have hmem := mem_holders.mpr ⟨hid, heq⟩
    rw [hnil] at hmem
    cases hmem

theorem size_byHash_le_one_iff : (byHash hashOf live).size ≤ 1 ↔
    ∀ id ∈ live, ∀ id' ∈ live, hashOf id = hashOf id' := by
  rw [← JsMap.length_keys]
  have hnodup := (byHash hashOf live).nodup_keys
  constructor
  · intro hle id hid id' hid'
    have hmem : hashOf id ∈ (byHash hashOf live).keys := mem_keys_byHash.mpr ⟨id, hid, rfl⟩
    have hmem' : hashOf id' ∈ (byHash hashOf live).keys := mem_keys_byHash.mpr ⟨id', hid', rfl⟩
    cases hkeys : (byHash hashOf live).keys with
    | nil =>
      rw [hkeys] at hmem
      cases hmem
    | cons h rest =>
      rw [hkeys, length_cons] at hle
      have hrest := eq_nil_of_length_eq_zero (by omega : rest.length = 0)
      rw [hkeys, hrest] at hmem hmem'
      rw [mem_singleton.mp hmem, mem_singleton.mp hmem']
  · intro hsame
    by_contra hlt
    cases hkeys : (byHash hashOf live).keys with
    | nil => simp [hkeys] at hlt
    | cons h rest =>
      cases rest with
      | nil => simp [hkeys] at hlt
      | cons h' rest =>
        have hmem : h ∈ (byHash hashOf live).keys := by simp [hkeys]
        have hmem' : h' ∈ (byHash hashOf live).keys := by simp [hkeys]
        obtain ⟨id, hid, rfl⟩ := mem_keys_byHash.mp hmem
        obtain ⟨id', hid', rfl⟩ := mem_keys_byHash.mp hmem'
        rw [hkeys, hsame id hid id' hid'] at hnodup
        exact absurd (.head _) (nodup_cons.mp hnodup).1

instance : Std.Total Group.Before where
  total a b := by
    rw [Group.Before, Group.Before]
    omega

instance : IsTrans Group Group.Before where
  trans a b c hab hbc := by
    rw [Group.Before] at hab hbc ⊢
    omega

/-- The groups are not empty where there is a live thread. -/
theorem sorted_ne_nil (h : ¬(byHash hashOf live).size ≤ 1) :
    ((byHash hashOf live).entries.map Group.ofEntry).insertionSort Group.Before ≠ [] := by
  intro hnil
  have hlength := congrArg length hnil
  rw [length_insertionSort, length_map] at hlength
  rw [JsMap.size] at h
  simp only [length_nil] at hlength
  omega

/-- The threads agree where the verdict is that they do. -/
theorem agree_iff : verdictOf epoch hashOf live = .agree ↔
    ∀ id ∈ live, ∀ id' ∈ live, hashOf id = hashOf id' := by
  rw [← size_byHash_le_one_iff, verdictOf]
  split_ifs with hsize
  · exact iff_of_true rfl hsize
  · refine iff_of_false ?_ hsize
    split
    · next hnil => exact absurd hnil (sorted_ne_nil hsize)
    · intro heq
      cases heq

theorem get_foldl_set (hashOf : ℕ → ℕ) (live : List ℕ) (id : ℕ) :
    (live.foldl (fun m id => JsMap.set m id (hashOf id)) .empty).get id =
      if id ∈ live then some (hashOf id) else none := by
  induction live using reverseRecOn with
  | nil => rfl
  | append_singleton live last ih =>
    rw [foldl_append, foldl_cons, foldl_nil, JsMap.get_set, ih]
    by_cases heq : last = id
    · subst heq
      rw [if_pos rfl, if_pos (mem_concat_self)]
    · rw [if_neg heq]
      refine if_congr ?_ rfl rfl
      rw [mem_append, mem_singleton, or_iff_left (Ne.symm heq)]

/-- What a divergence says of the hashes of the live threads. -/
structure Diverges (hashOf : ℕ → ℕ) (live : List ℕ) (d : Divergence) : Prop where
  differ : ∃ id ∈ live, ∃ id' ∈ live, hashOf id ≠ hashOf id'
  hashes : ∀ id, d.hashesByThread.get id = if id ∈ live then some (hashOf id) else none
  majority : ∃ id ∈ live, hashOf id = d.majorityHash
  largest : ∀ h, (holders hashOf live h).length ≤ (holders hashOf live d.majorityHash).length
  minority : ∀ id, id ∈ d.minorityThreadIds ↔ id ∈ live ∧ hashOf id ≠ d.majorityHash
  sorted : d.minorityThreadIds.Pairwise (· ≤ ·)

theorem largest_of_sorted {majority : Group} {rest : List Group}
    (h : ((byHash hashOf live).entries.map Group.ofEntry).insertionSort Group.Before =
      majority :: rest) :
    (∃ id ∈ live, hashOf id = majority.hash) ∧
      ∀ k, (holders hashOf live k).length ≤ (holders hashOf live majority.hash).length := by
  have hentry : ∀ g ∈ majority :: rest, g.ids.length = (holders hashOf live g.hash).length ∧
      ∃ id ∈ live, hashOf id = g.hash := by
    intro g hg
    rw [← h, mem_insertionSort] at hg
    obtain ⟨⟨k, ids⟩, hmem, rfl⟩ := mem_map.mp hg
    have hget := JsMap.get_eq_some_iff.mpr hmem
    rw [get_byHash] at hget
    split_ifs at hget with hnil
    cases hget
    refine ⟨length_insertionSort .., ?_⟩
    obtain ⟨id, hid⟩ := exists_mem_of_ne_nil _ hnil
    exact ⟨id, mem_holders.mp hid⟩
  obtain ⟨hlength, hmajority⟩ := hentry majority (.head _)
  refine ⟨hmajority, fun k => ?_⟩
  by_cases hnil : holders hashOf live k = []
  · rw [hnil]
    exact Nat.zero_le _
  · have hget := (get_byHash hashOf live k).trans (if_neg hnil)
    have hmem : Group.ofEntry (k, holders hashOf live k) ∈ majority :: rest := by
      rw [← h, mem_insertionSort]
      exact mem_map_of_mem (JsMap.get_eq_some_iff.mp hget)
    have hsorted := pairwise_insertionSort Group.Before
      ((byHash hashOf live).entries.map Group.ofEntry)
    rw [h] at hsorted
    obtain ⟨hk, -⟩ := hentry _ hmem
    have hle : (Group.ofEntry (k, holders hashOf live k)).ids.length ≤ majority.ids.length := by
      rcases mem_cons.mp hmem with heq | hrest
      · rw [heq]
      · have hbefore := (pairwise_cons.mp hsorted).1 _ hrest
        rw [Group.Before] at hbefore
        omega
    rw [hk, hlength] at hle
    exact hle

theorem diverges_of_verdictOf (h : verdictOf epoch hashOf live = .diverge d) :
    d.epoch = epoch ∧ Diverges hashOf live d := by
  have hdiffer : ¬∀ id ∈ live, ∀ id' ∈ live, hashOf id = hashOf id' := fun hall => by
    rw [agree_iff.mpr hall] at h
    cases h
  rw [verdictOf] at h
  split_ifs at h with hsize
  cases hsorted : ((byHash hashOf live).entries.map Group.ofEntry).insertionSort Group.Before with
  | nil => exact absurd hsorted (sorted_ne_nil hsize)
  | cons majority rest =>
    rw [hsorted] at h
    obtain rfl := Verdict.diverge.inj h
    obtain ⟨hmajority, hlargest⟩ := largest_of_sorted hsorted
    refine ⟨rfl, ?_, get_foldl_set hashOf live, hmajority, hlargest, fun id => ?_,
      pairwise_insertionSort (· ≤ ·) _⟩
    · simpa only [not_forall, exists_prop] using hdiffer
    · rw [mem_insertionSort, mem_filter, decide_eq_true_iff]

end AdapterWs.StateHash
