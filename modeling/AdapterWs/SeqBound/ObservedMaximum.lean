import AdapterWs.SeqBound.SeenMaximum

/-!
# The observed maximum

`recordStampedSeen` writes without a comparison until the first foreign number: the numbers of one
counter increase, across evictions too, so the one that is recorded next is the highest. That rests
on the order of the records. A number that is recorded after a later one of its topic, as when the
`toJSON` of a batch entry publishes to the topic of the batch, is written over it.
-/

namespace AdapterWs.SeqBound

open JsString List Registries Option

/-- What is called. -/
inductive SeenEvent
  | stamp (j : Judgement) (opt : SeqOption) (topic : JsString)
  /-- Record the `i`-th number that the counter of a topic gave out. -/
  | recordStampedSeen (j : Judgement) (topic : JsString) (i : ℕ)
  /-- Record a foreign or an explicit number. -/
  | recordSeen (j : Judgement) (topic : JsString) (seq : ℤ)
  | useQuietProbe

/-- A worker's registries and what was recorded in the seen map. -/
structure Observation where
  numbering : Numbering
  /-- The numbers of each topic that are not after the last one recorded. -/
  marks : JsString → ℕ
  /-- The numbers recorded for each topic since it last entered the map. -/
  recorded : JsString → List ℤ
  /-- The calls of `onSeenInsert`. -/
  told : List JsString
  /-- The topics that entered the map. -/
  entered : List JsString

namespace Observation

/-- The number the map holds of a topic. -/
def seen (o : Observation) (topic : JsString) : Option ℤ :=
  o.numbering.registries.seenMap.get topic

/-- The registries after a call that records nothing. -/
def quiet (o : Observation) (numbering : Numbering) : Observation :=
  { o with
    numbering := numbering
    entered := o.entered ++ Registries.newlyEntered o.numbering.registries numbering.registries }

/-- The registries after a number was recorded. -/
def record (o : Observation) (topic : JsString) (seq : ℤ) (after : Registries × List JsString) :
    Observation :=
  { o with
    numbering := { o.numbering with registries := after.1 }
    recorded := Function.update o.recorded topic
      (if o.seen topic = none then [seq] else o.recorded topic ++ [seq])
    told := o.told ++ after.2
    entered := o.entered ++ Registries.newlyEntered o.numbering.registries after.1 }

end Observation

/-- One worker's registries, from empty maps and an unlatched recorder. -/
def seenMachine (cfg : BoundConfig) : Machine Observation SeenEvent where
  init := ⟨⟨.start .empty .empty, []⟩, fun _ => 0, fun _ => [], [], []⟩
  step o
    | .stamp j opt topic =>
      let (answer, registries) := o.numbering.registries.stampSeqValue cfg j opt topic
      some (o.quiet ⟨registries,
        o.numbering.issued ++ ((counterValue opt answer).map fun n => (topic, n)).toList⟩)
    | .recordStampedSeen j topic i =>
      match (issuedTo o.numbering topic)[i]? with
      | none => none
      | some n =>
        let after := o.numbering.registries.recordStampedSeenTold cfg j topic n
        some { o.record topic n after with
          marks := Function.update o.marks topic (max (o.marks topic) (i + 1)) }
    | .recordSeen j topic seq =>
      some (o.record topic seq (o.numbering.registries.recordSeenTold cfg j topic seq))
    | .useQuietProbe =>
      some (o.quiet { o.numbering with
        registries := { o.numbering.registries with quietProbe := true } })

/-- No number is recorded after a later one of its topic. -/
def InOrder (o : Observation) : SeenEvent → Prop
  | .recordStampedSeen _ topic i => o.marks topic ≤ i
  | _ => True

instance instDecidableInOrder (o : Observation) : (e : SeenEvent) → Decidable (InOrder o e)
  | .recordStampedSeen _ topic i => inferInstanceAs (Decidable (o.marks topic ≤ i))
  | .stamp _ _ _ => isTrue trivial
  | .recordSeen _ _ _ => isTrue trivial
  | .useQuietProbe => isTrue trivial

namespace Observation

/-- Every topic of the map has the largest number recorded since it entered. -/
def HoldsMaximum (o : Observation) : Prop :=
  ∀ topic v, o.seen topic = some v → v ∈ o.recorded topic ∧ ∀ m ∈ o.recorded topic, m ≤ v

end Observation

variable {cfg : BoundConfig} {j : Judgement} {o o' : Observation} {topic t : JsString}
  {after : Registries × List JsString} {seq : ℤ}

/-! ## The invariant -/

/-- The numbers of a topic increase in the order of issue, and until the latch flips the map holds
only numbers that were issued before everything still to be recorded. -/
structure Observed (o : Observation) : Prop where
  carried : Carried o.numbering
  stamped : o.numbering.registries.foreignSeqRecorded = false → ∀ t v, o.seen t = some v →
    ∃ k n, k < o.marks t ∧ (issuedTo o.numbering t)[k]? = some n ∧ v = (n : ℤ)
  maximum : o.HoldsMaximum
  told : o.told = o.entered

theorem Observed.quiet (ho : Observed o) {numbering : Numbering} {l : List (JsString × ℕ)}
    (hcarried : Carried numbering) (hissued : numbering.issued = o.numbering.issued ++ l)
    (hforgets : o.numbering.registries.Forgets numbering.registries) :
    Observed (o.quiet numbering) ∧
      ∀ t v v', o.seen t = some v → (o.quiet numbering).seen t = some v' → v ≤ v' := by
  have hseen : ∀ t v, (o.quiet numbering).seen t = some v → o.seen t = some v :=
    hforgets.get_of_get
  refine ⟨⟨hcarried, fun hlatch t v hv => ?_, fun t v hv => ho.maximum t v (hseen t v hv), ?_⟩, ?_⟩
  · obtain ⟨k, n, hk, hn, hvn⟩ := ho.stamped (hforgets.latch ▸ hlatch) t v (hseen t v hv)
    refine ⟨k, n, hk, ?_, hvn⟩
    have hlist : issuedTo numbering t =
        issuedTo o.numbering t ++ (l.filter fun e => e.1 = t).map Prod.snd := by
      rw [issuedTo, hissued, filter_append, map_append]
      rfl
    have hlt : k < (issuedTo o.numbering t).length := (List.getElem?_eq_some_iff.mp hn).1
    simp only [Observation.quiet]
    rw [hlist, getElem?_append_left hlt, hn]
  · simp only [Observation.quiet]
    rw [hforgets.newlyEntered_eq, append_nil, ho.told]
  · intro t v v' hv hv'
    rw [hseen t v' hv'] at hv
    exact le_of_eq (some.inj hv).symm

theorem record_holdsMaximum (ho : o.HoldsMaximum) {v : ℤ}
    (hrecords : o.numbering.registries.Records after topic v)
    (hle : ∀ prev, o.seen topic = some prev → prev ≤ v) (hseq : seq ≤ v)
    (hv : v = seq ∨ o.seen topic = some v) :
    (o.record topic seq after).HoldsMaximum ∧
      ∀ t u u', o.seen t = some u → (o.record topic seq after).seen t = some u' → u ≤ u' := by
  have hother : ∀ t u, topic ≠ t → (o.record topic seq after).seen t = some u →
      o.seen t = some u := hrecords.others
  have hown : (o.record topic seq after).seen topic = some v := hrecords.own
  constructor
  · intro t u hu
    by_cases ht : topic = t
    · subst ht
      obtain rfl : v = u := some.inj (hown.symm.trans hu)
      simp only [Observation.record, Function.update_self]
      cases hget : o.seen topic with
      | none =>
        rw [if_pos rfl]
        have hvseq : v = seq := hv.resolve_right (by simp [hget])
        simp [hvseq]
      | some prev =>
        rw [if_neg (by simp)]
        obtain ⟨hmem, hmax⟩ := ho topic prev hget
        have hprev := hle prev hget
        constructor
        · rw [mem_append, mem_singleton]
          rcases hv with hv | hv
          · exact .inr hv
          · obtain rfl : prev = v := some.inj (hget.symm.trans hv)
            exact .inl hmem
        · intro m hm
          rw [mem_append, mem_singleton] at hm
          rcases hm with hm | rfl
          · exact le_trans (hmax m hm) hprev
          · exact hseq
    · have hrecorded : (o.record topic seq after).recorded t = o.recorded t :=
        Function.update_of_ne (Ne.symm ht) _ _
      rw [hrecorded]
      exact ho t u (hother t u ht hu)
  · intro t u u' hu hu'
    by_cases ht : topic = t
    · subst ht
      obtain rfl : v = u' := some.inj (hown.symm.trans hu')
      exact hle u hu
    · rw [hother t u' ht hu'] at hu
      exact le_of_eq (some.inj hu).symm

theorem record_holdsMaximum_max (ho : o.HoldsMaximum)
    (hrecords : o.numbering.registries.Records after topic
      (((o.seen topic).map (max seq)).getD seq)) :
    (o.record topic seq after).HoldsMaximum ∧
      ∀ t u u', o.seen t = some u → (o.record topic seq after).seen t = some u' → u ≤ u' := by
  refine record_holdsMaximum ho hrecords (fun prev hprev => ?_) ?_ ?_
  · rw [hprev]
    exact le_max_right seq prev
  · cases o.seen topic with
    | none => exact le_refl seq
    | some prev => exact le_max_left seq prev
  · cases hget : o.seen topic with
    | none => exact .inl rfl
    | some prev =>
      rcases le_total seq prev with hle | hle
      · exact .inr (congrArg some (max_eq_right hle).symm)
      · exact .inl (max_eq_left hle)

theorem Observed.latched (ho : Observed o) {v : ℤ} (marks : JsString → ℕ)
    (hrecords : o.numbering.registries.Records after topic v)
    (hlatch : after.1.foreignSeqRecorded = true)
    (hlevel : ∀ t, o.numbering.registries.level t ≤ after.1.level t)
    (hmax : (o.record topic seq after).HoldsMaximum) :
    Observed { o.record topic seq after with marks := marks } := by
  refine ⟨ho.carried.of_level hlevel, fun h => ?_, hmax, ?_⟩
  · cases hlatch.symm.trans h
  · simp only [Observation.record]
    rw [hrecords.newlyEntered_eq, ho.told]

theorem Observed.recordSeen (ho : Observed o) (topic : JsString) (seq : ℤ) :
    let o' := o.record topic seq (o.numbering.registries.recordSeenTold cfg j topic seq)
    Observed o' ∧ ∀ t v v', o.seen t = some v → o'.seen t = some v' → v ≤ v' := by
  let r : Registries := { o.numbering.registries with foreignSeqRecorded := true }
  have hraise : r.Records (r.raiseSeenTold cfg j topic seq) topic _ :=
    records_raiseSeenTold r topic seq
  have hrecords : o.numbering.registries.Records
      (o.numbering.registries.recordSeenTold cfg j topic seq) topic _ :=
    ⟨hraise.own, hraise.others, hraise.told⟩
  obtain ⟨hmax, hle⟩ := record_holdsMaximum_max ho.maximum hrecords
  refine ⟨ho.latched o.marks hrecords ?_ (fun t => ?_) hmax, hle⟩
  · exact foreignSeqRecorded_raiseSeenTold _ topic seq
  · rw [fst_recordSeenTold]
    exact level_recordSeen _ topic seq t

/-- A number that was issued after every one recorded so far is recorded. -/
theorem Observed.recordStampedSeen (ho : Observed o) {topic : JsString} {i n : ℕ}
    (hn : (issuedTo o.numbering topic)[i]? = some n) (hmark : o.marks topic ≤ i) :
    let o' := { o.record topic n (o.numbering.registries.recordStampedSeenTold cfg j topic n) with
      marks := Function.update o.marks topic (max (o.marks topic) (i + 1)) }
    Observed o' ∧ ∀ t v v', o.seen t = some v → o'.seen t = some v' → v ≤ v' := by
  have hlevel : ∀ t, o.numbering.registries.level t ≤
      (o.numbering.registries.recordStampedSeenTold cfg j topic n).1.level t := by
    intro t
    rw [fst_recordStampedSeenTold]
    exact level_recordStampedSeen _ topic n t
  cases hlatch : o.numbering.registries.foreignSeqRecorded with
  | true =>
    have htold : o.numbering.registries.recordStampedSeenTold cfg j topic n =
        o.numbering.registries.raiseSeenTold cfg j topic n := by
      rw [recordStampedSeenTold, if_pos hlatch]
    rw [htold] at hlevel ⊢
    have hrecords : o.numbering.registries.Records
        (o.numbering.registries.raiseSeenTold cfg j topic n) topic _ :=
      records_raiseSeenTold o.numbering.registries topic n
    obtain ⟨hmax, hle⟩ := record_holdsMaximum_max ho.maximum hrecords
    refine ⟨ho.latched _ hrecords ?_ hlevel hmax, hle⟩
    rw [foreignSeqRecorded_raiseSeenTold, hlatch]
  | false =>
    have hrecords : o.numbering.registries.Records
        (o.numbering.registries.recordStampedSeenTold cfg j topic n) topic n :=
      records_recordStampedSeenTold hlatch topic n
    -- what the map holds was issued earlier, and so is lower
    have hlower : ∀ prev, o.seen topic = some prev → prev ≤ n := by
      intro prev hprev
      obtain ⟨k, m, hk, hm, rfl⟩ := ho.stamped hlatch topic prev hprev
      obtain ⟨hkl, hkm⟩ := List.getElem?_eq_some_iff.mp hm
      obtain ⟨hil, hin⟩ := List.getElem?_eq_some_iff.mp hn
      have hlt := List.pairwise_iff_getElem.mp (ho.carried.increasing topic) k i hkl hil
        (by omega)
      rw [hkm, hin] at hlt
      omega
    obtain ⟨hmax, hle⟩ := record_holdsMaximum ho.maximum hrecords hlower (le_refl _) (.inl rfl)
    refine ⟨⟨ho.carried.of_level hlevel, fun _ t v hv => ?_, hmax, ?_⟩, hle⟩
    · by_cases ht : topic = t
      · subst ht
        refine ⟨i, n, ?_, hn, some.inj (hv.symm.trans hrecords.own)⟩
        simp only [Function.update_self]
        omega
      · obtain ⟨k, m, hk, hm, hvm⟩ := ho.stamped hlatch t v (hrecords.others t v ht hv)
        refine ⟨k, m, ?_, hm, hvm⟩
        simp only [Function.update_of_ne (Ne.symm ht)]
        exact hk
    · simp only [Observation.record]
      rw [hrecords.newlyEntered_eq, ho.told]

/-- What every call in order keeps, and that it lowers no number of the map. -/
theorem Observed.step {e : SeenEvent} (ho : Observed o) (hok : InOrder o e)
    (h : (seenMachine cfg).step o e = some o') :
    Observed o' ∧ ∀ t v v', o.seen t = some v → o'.seen t = some v' → v ≤ v' := by
  cases e with
  | stamp j opt topic =>
    cases h
    exact ho.quiet (ho.carried.stamp opt topic) rfl
      (forgets_stampSeqValue o.numbering.registries opt topic)
  | recordStampedSeen j topic i =>
    simp only [seenMachine] at h
    cases hn : (issuedTo o.numbering topic)[i]? with
    | none =>
      rw [hn] at h
      cases h
    | some n =>
      rw [hn] at h
      cases h
      exact ho.recordStampedSeen hn hok
  | recordSeen j topic seq =>
    cases h
    exact ho.recordSeen topic seq
  | useQuietProbe =>
    cases h
    refine ho.quiet (l := []) (ho.carried.of_level fun t => le_rfl) ?_ ⟨?_, rfl⟩
    · exact (append_nil _).symm
    · exact fun _ _ hv => hv

end AdapterWs.SeqBound
