import AdapterWs.SeqBound.Bounded

/-!
# What a record does to the seen map

A record puts one number under its topic. Where the topic is new to the map, the bound hears of it
and may forget other topics, in either registry, but not the one that was admitted.
-/

namespace AdapterWs.SeqBound

open JsString JsMap

variable {cfg : BoundConfig} {j : Judgement} {s s' : Registries} {topic t : JsString}

namespace Registries

/-! ## Reports to the bound -/

/-- `raiseSeen`, with the calls of `onSeenInsert`. -/
def raiseSeenTold (cfg : BoundConfig) (j : Judgement) (s : Registries) (topic : JsString)
    (seq : ℤ) : Registries × List JsString :=
  match s.seenMap.get topic with
  | none => ({ s with seenMap := s.seenMap.set topic seq }.onSeenInsert cfg j topic, [topic])
  | some prev => (if prev < seq then { s with seenMap := s.seenMap.set topic seq } else s, [])

/-- `recordSeen`, with the calls of `onSeenInsert`. -/
def recordSeenTold (cfg : BoundConfig) (j : Judgement) (s : Registries) (topic : JsString)
    (seq : ℤ) : Registries × List JsString :=
  { s with foreignSeqRecorded := true }.raiseSeenTold cfg j topic seq

/-- `recordStampedSeen`, with the calls of `onSeenInsert`. -/
def recordStampedSeenTold (cfg : BoundConfig) (j : Judgement) (s : Registries) (topic : JsString)
    (seq : ℤ) : Registries × List JsString :=
  if s.foreignSeqRecorded = true then s.raiseSeenTold cfg j topic seq
  else
    let before := s.seenMap.size
    let s := { s with seenMap := s.seenMap.set topic seq }
    if s.seenMap.size ≠ before then (s.onSeenInsert cfg j topic, [topic]) else (s, [])

section

variable (s) (topic) (seq : ℤ)

theorem fst_raiseSeenTold : (s.raiseSeenTold cfg j topic seq).1 = s.raiseSeen cfg j topic seq := by
  rw [raiseSeenTold, raiseSeen]
  cases s.seenMap.get topic <;> rfl

theorem fst_recordSeenTold : (s.recordSeenTold cfg j topic seq).1 = s.recordSeen cfg j topic seq :=
  fst_raiseSeenTold _ topic seq

/-- The calls aside, `recordStampedSeenTold` is `recordStampedSeen`. -/
theorem fst_recordStampedSeenTold :
    (s.recordStampedSeenTold cfg j topic seq).1 = s.recordStampedSeen cfg j topic seq := by
  rw [recordStampedSeenTold, recordStampedSeen]
  split_ifs
  · exact fst_raiseSeenTold s topic seq
  · simp only
    split_ifs <;> rfl

end

/-! ## What the bound leaves of the seen map -/

/-- Topics are forgotten, and the numbers of the others stay. -/
structure Forgets (s s' : Registries) : Prop where
  get_of_get : ∀ t v, s'.seenMap.get t = some v → s.seenMap.get t = some v
  latch : s'.foreignSeqRecorded = s.foreignSeqRecorded

theorem Forgets.refl (s : Registries) : s.Forgets s := ⟨fun _ _ h => h, rfl⟩

theorem Forgets.trans {s'' : Registries} (h : s.Forgets s') (h' : s'.Forgets s'') :
    s.Forgets s'' :=
  ⟨fun t v hv => h.get_of_get t v (h'.get_of_get t v hv), h'.latch.trans h.latch⟩

/-- The victim of a walk is not the topic that was admitted. -/
theorem walk_ne_admitted {skip : JsString → Bool} {l acc p : List JsString} {budget : ℕ}
    {admitted v : JsString} (h : walk skip admitted l budget acc = (p, some v)) :
    v ≠ admitted := by
  induction l generalizing budget acc with
  | nil => cases (Prod.mk.inj h).2
  | cons c l ih =>
    rw [walk.eq_def] at h
    simp only at h
    by_cases hc : c = admitted
    · rw [if_pos hc] at h
      exact ih h
    · rw [if_neg hc] at h
      cases budget with
      | zero => cases (Prod.mk.inj h).2
      | succ budget =>
        simp only at h
        split_ifs at h with hskip
        · exact ih h
        · cases (Prod.mk.inj h).2
          exact hc

section

variable (s)

theorem seenMap_evict (victim : JsString) :
    (s.evict cfg victim).seenMap = s.seenMap.delete victim := by
  rw [evict]
  cases s.seqMap.get victim with
  | none => rfl
  | some last => exact congrArg (fun m => delete m victim) (seenMap_recordFloor victim last)

theorem foreignSeqRecorded_evict (victim : JsString) :
    (s.evict cfg victim).foreignSeqRecorded = s.foreignSeqRecorded := by
  rw [evict]
  cases s.seqMap.get victim with
  | none => rfl
  | some last =>
    simp only [recordFloor]
    split_ifs <;> rfl

theorem get_seenMap_rotate (p : List JsString) (r : Registry) (t : JsString) :
    (s.rotate p r).seenMap.get t = s.seenMap.get t := by
  cases r with
  | seq => rfl
  | seen => exact get_foldl_rotateOne s.seenMap p t

theorem forgets_rotate (p : List JsString) (r : Registry) : s.Forgets (s.rotate p r) := by
  refine ⟨fun t v hv => ?_, ?_⟩
  · rwa [get_seenMap_rotate] at hv
  · cases r <;> rfl

theorem forgets_evict (victim : JsString) : s.Forgets (s.evict cfg victim) := by
  refine ⟨fun t v hv => ?_, foreignSeqRecorded_evict s victim⟩
  rw [seenMap_evict, get_delete] at hv
  split_ifs at hv
  exact hv

end

/-- A sweep forgets topics, and not the one that was admitted. -/
theorem seenMap_sweep (r : Registry) (admitted : JsString) (passes : ℕ) (s : Registries) :
    s.Forgets (sweep cfg j r admitted passes s).2 ∧
      (sweep cfg j r admitted passes s).2.seenMap.get admitted = s.seenMap.get admitted := by
  induction passes generalizing s with
  | zero => exact ⟨.refl s, rfl⟩
  | succ passes ih =>
    rw [sweep]
    cases hwalk : walk (s.skips j) admitted (s.topics r) cfg.scanLimit [] with
    | mk p victim =>
      have hrotate := forgets_rotate s p r
      have hget := get_seenMap_rotate s p r admitted
      cases victim with
      | some victim =>
        refine ⟨hrotate.trans (forgets_evict _ victim), ?_⟩
        simp only [seenMap_evict]
        rw [get_delete, if_neg (walk_ne_admitted hwalk), hget]
      | none =>
        simp only
        split_ifs
        · exact ⟨hrotate, hget⟩
        · obtain ⟨hforgets, hadmitted⟩ := ih (s.rotate p r)
          exact ⟨hrotate.trans hforgets, hadmitted.trans hget⟩

/-- The bound forgets topics, and not the one that was admitted. -/
theorem seenMap_enforce (r : Registry) (s : Registries) (admitted : JsString) :
    s.Forgets (s.enforce cfg j r admitted) ∧
      (s.enforce cfg j r admitted).seenMap.get admitted = s.seenMap.get admitted := by
  have hskip : ∀ (s : Registries) n, s.Forgets ((s.setBlockedSkip n r).onOverCap r) ∧
      ((s.setBlockedSkip n r).onOverCap r).seenMap = s.seenMap := by
    intro s n
    cases r <;> exact ⟨⟨fun _ _ h => h, rfl⟩, rfl⟩
  rw [enforce]
  split_ifs
  · exact ⟨.refl s, rfl⟩
  · exact ⟨(hskip s _).1, by rw [(hskip s _).2]⟩
  · have hsweep : s.Forgets (sweep cfg j r admitted 2 s).2 ∧ _ = _ := seenMap_sweep r admitted 2 s
    obtain ⟨hforgets, hadmitted⟩ := hsweep
    rw [evictOldestUnprotected]
    cases h : sweep cfg j r admitted 2 s with
    | mk found s' =>
      rw [h] at hforgets hadmitted
      cases found with
      | true => exact ⟨hforgets, hadmitted⟩
      | false =>
        refine ⟨hforgets.trans (hskip s' _).1, ?_⟩
        simp only [(hskip s' _).2]
        exact hadmitted

theorem forgets_drawCounter (s : Registries) (topic : JsString) :
    s.Forgets (s.drawCounter cfg j topic).2 := by
  rw [drawCounter]
  cases s.seqMap.get topic with
  | some current => exact ⟨fun _ _ h => h, rfl⟩
  | none =>
    let r : Registries := { s with seqMap := s.seqMap.set topic (s.floorOf topic + 1) }
    have hbound : r.Forgets (r.enforce cfg j .seq topic) := (seenMap_enforce .seq r topic).1
    exact ⟨hbound.get_of_get, hbound.latch⟩

theorem forgets_stampSeqValue (s : Registries) (opt : SeqOption) (topic : JsString) :
    s.Forgets (s.stampSeqValue cfg j opt topic).2 := by
  cases opt with
  | undefined => exact forgets_drawCounter s topic
  | bool b =>
    cases b with
    | true => exact forgets_drawCounter s topic
    | false => exact .refl s
  | null => exact .refl s
  | number n => exact .refl s
  | bigint n => exact .refl s
  | other => exact .refl s

/-! ## Records -/

/-- The topics of the seen map that it did not hold before. -/
def newlyEntered (s s' : Registries) : List JsString :=
  s'.seenMap.keys.filter fun t => (s.seenMap.get t).isNone

/-- A topic gets a number, others may be forgotten, and the bound is told if the topic is new. -/
structure Records (s : Registries) (after : Registries × List JsString) (topic : JsString)
    (value : ℤ) : Prop where
  own : after.1.seenMap.get topic = some value
  others : ∀ t v, topic ≠ t → after.1.seenMap.get t = some v → s.seenMap.get t = some v
  told : after.2 = if s.seenMap.get topic = none then [topic] else []

theorem Forgets.newlyEntered_eq (h : s.Forgets s') : newlyEntered s s' = [] := by
  rw [newlyEntered, List.filter_eq_nil_iff]
  intro t ht hnew
  rw [Option.isNone_iff_eq_none] at hnew
  cases hget : s'.seenMap.get t with
  | none => exact get_eq_none_iff.mp hget ht
  | some v =>
    have hbefore := h.get_of_get t v hget
    rw [hnew] at hbefore
    cases hbefore

theorem Records.newlyEntered_eq {after : Registries × List JsString} {value : ℤ}
    (h : s.Records after topic value) : newlyEntered s after.1 = after.2 := by
  have hmem : ∀ t, t ∈ newlyEntered s after.1 ↔ t = topic ∧ s.seenMap.get topic = none := by
    intro t
    rw [newlyEntered, List.mem_filter, Option.isNone_iff_eq_none]
    constructor
    · intro ⟨hafter, hbefore⟩
      by_cases ht : topic = t
      · exact ⟨ht.symm, ht ▸ hbefore⟩
      · cases hget : after.1.seenMap.get t with
        | none => exact absurd hafter (get_eq_none_iff.mp hget)
        | some v =>
          rw [h.others t v ht hget] at hbefore
          cases hbefore
    · rintro ⟨rfl, hbefore⟩
      refine ⟨?_, hbefore⟩
      by_contra hnot
      have hnone := get_eq_none_iff.mpr hnot
      rw [h.own] at hnone
      cases hnone
  rw [h.told]
  split_ifs with hnew
  · have hnodup : (newlyEntered s after.1).Nodup := (nodup_keys _).filter _
    refine List.perm_singleton.mp ?_
    rw [List.perm_ext_iff_of_nodup hnodup (List.nodup_singleton topic)]
    intro t
    rw [hmem, List.mem_singleton]
    exact ⟨fun ht => ht.1, fun ht => ⟨ht, hnew⟩⟩
  · rw [List.eq_nil_iff_forall_not_mem]
    exact fun t ht => hnew ((hmem t).mp ht).2

theorem records_onSeenInsert {seq : ℤ} (hnew : s.seenMap.get topic = none) :
    s.Records ({ s with seenMap := s.seenMap.set topic seq }.onSeenInsert cfg j topic, [topic])
      topic seq := by
  let r : Registries := { s with seenMap := s.seenMap.set topic seq }
  have hbound : r.Forgets (r.enforce cfg j .seen topic) ∧ _ = _ := seenMap_enforce .seen r topic
  obtain ⟨hforgets, hadmitted⟩ := hbound
  refine ⟨hadmitted.trans (get_set_self _ _ _), fun t v ht hv => ?_, (if_pos hnew).symm⟩
  have hset := hforgets.get_of_get t v hv
  rwa [get_set, if_neg ht] at hset

theorem records_set {seq : ℤ} (hold : s.seenMap.get topic ≠ none) :
    s.Records ({ s with seenMap := s.seenMap.set topic seq }, []) topic seq := by
  refine ⟨get_set_self _ _ _, fun t v ht hv => ?_, (if_neg hold).symm⟩
  rwa [get_set, if_neg ht] at hv

theorem records_raiseSeenTold (s : Registries) (topic : JsString) (seq : ℤ) :
    s.Records (s.raiseSeenTold cfg j topic seq) topic
      (((s.seenMap.get topic).map (max seq)).getD seq) := by
  rw [raiseSeenTold]
  cases hget : s.seenMap.get topic with
  | none => exact records_onSeenInsert hget
  | some prev =>
    have hold : s.seenMap.get topic ≠ none := by simp [hget]
    simp only [Option.map_some, Option.getD_some]
    split_ifs with hlt
    · rw [max_eq_left (le_of_lt hlt)]
      exact records_set hold
    · rw [max_eq_right (not_lt.mp hlt)]
      exact ⟨hget, fun t v _ hv => hv, (if_neg hold).symm⟩

theorem records_recordStampedSeenTold (hlatch : s.foreignSeqRecorded = false) (topic : JsString)
    (seq : ℤ) : s.Records (s.recordStampedSeenTold cfg j topic seq) topic seq := by
  have hsize := size_set s.seenMap topic seq
  rw [recordStampedSeenTold, if_neg (by simp [hlatch])]
  simp only
  cases hget : s.seenMap.get topic with
  | none =>
    rw [hget, Option.isSome_none, if_neg Bool.false_ne_true] at hsize
    rw [if_pos (by omega)]
    exact records_onSeenInsert hget
  | some prev =>
    rw [hget, Option.isSome_some, if_pos rfl] at hsize
    rw [if_neg (by omega)]
    exact records_set (by simp [hget])

theorem foreignSeqRecorded_raiseSeenTold (s : Registries) (topic : JsString) (seq : ℤ) :
    (s.raiseSeenTold cfg j topic seq).1.foreignSeqRecorded = s.foreignSeqRecorded := by
  rw [raiseSeenTold]
  cases s.seenMap.get topic with
  | none =>
    exact (seenMap_enforce .seen { s with seenMap := s.seenMap.set topic seq } topic).1.latch
  | some prev =>
    simp only
    split_ifs <;> rfl

end Registries

end AdapterWs.SeqBound
