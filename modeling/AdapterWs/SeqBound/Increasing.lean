import AdapterWs.SeqBound.Registries

/-!
# Counters never repeat

`level` is the number below which a topic draws nothing again: its counter while the registry
holds it, what `floorOf` gives once it is forgotten. No call lowers the level of any topic, and
a draw is one above it.
-/

namespace AdapterWs.SeqBound

open JsString List JsMap

variable {cfg : BoundConfig} {j : Judgement} {s s' : Registries} {topic t : JsString}

namespace Registries

/-- The counter of a topic, or its floor where it is forgotten. -/
def level (s : Registries) (topic : JsString) : ℕ := (s.seqMap.get topic).getD (s.floorOf topic)

/-! ## Floors -/

theorem floorOf_eq (s : Registries) (topic : JsString) :
    s.floorOf topic = max s.highWater ((s.floors.get (fnv32 topic)).getD 0) := by
  have hempty : s.floors.size = 0 → s.floors.get (fnv32 topic) = none := by
    intro hsize
    rw [JsMap.get_eq_none_iff, JsMap.keys, length_eq_zero_iff.mp hsize]
    exact not_mem_nil
  rw [floorOf]
  split_ifs with hsize
  · simp [hempty hsize]
  · cases s.floors.get (fnv32 topic) with
    | none => simp
    | some exact =>
      simp only [Option.getD_some]
      split_ifs <;> omega

theorem le_foldl_mark {K : Type} (l : List (K × ℕ)) (mark : ℕ) :
    mark ≤ l.foldl (fun mark e => if mark < e.2 then e.2 else mark) mark ∧
      ∀ e ∈ l, e.2 ≤ l.foldl (fun mark e => if mark < e.2 then e.2 else mark) mark := by
  induction l generalizing mark with
  | nil => exact ⟨le_rfl, forall_mem_nil _⟩
  | cons e l ih =>
    rw [foldl_cons]
    obtain ⟨hmark, hall⟩ := ih (if mark < e.2 then e.2 else mark)
    constructor
    · refine le_trans ?_ hmark
      split_ifs <;> omega
    · intro e' he'
      rcases mem_cons.mp he' with rfl | he'
      · refine le_trans ?_ hmark
        split_ifs <;> omega
      · exact hall e' he'

/-- Absorbing the floors raises what every topic starts above, if anything. -/
theorem floorOf_absorb (s : Registries) (topic : JsString) :
    s.floorOf topic ≤ s.absorb.floorOf topic := by
  obtain ⟨hmark, hall⟩ := le_foldl_mark s.floors.entries s.highWater
  rw [floorOf_eq, floorOf_eq]
  refine le_trans (Nat.max_le.mpr ⟨hmark, ?_⟩) (Nat.le_max_left _ _)
  cases hget : s.floors.get (fnv32 topic) with
  | none => exact Nat.zero_le _
  | some exact => exact hall _ (get_eq_some_iff.mp hget)

theorem get_raiseFloor (floors : JsMap UInt32 ℕ) (key : UInt32) (lastSeq : ℕ) :
    (∀ k, (floors.get k).getD 0 ≤ ((raiseFloor floors key lastSeq).get k).getD 0) ∧
      lastSeq ≤ ((raiseFloor floors key lastSeq).get key).getD 0 := by
  have hset : ((floors.get key).getD 0 ≤ lastSeq) →
      ∀ k, (floors.get k).getD 0 ≤ ((floors.set key lastSeq).get k).getD 0 := by
    intro hle k
    rw [get_set]
    split_ifs with hk
    · exact hk ▸ hle
    · exact le_rfl
  rw [raiseFloor]
  cases hget : floors.get key with
  | none => exact ⟨hset (by rw [hget]; exact Nat.zero_le _), by simp⟩
  | some prev =>
    simp only
    split_ifs with hlt
    · exact ⟨hset (by rw [hget]; exact le_of_lt hlt), by simp⟩
    · exact ⟨fun k => le_rfl, by rw [hget]; exact Nat.le_of_not_lt hlt⟩

/-- A recorded floor lowers none, and is one under its topic. -/
theorem floorOf_recordFloor (cfg : BoundConfig) (s : Registries) (topic : JsString) (lastSeq : ℕ) :
    (∀ t, s.floorOf t ≤ (s.recordFloor cfg topic lastSeq).floorOf t) ∧
      lastSeq ≤ (s.recordFloor cfg topic lastSeq).floorOf topic := by
  obtain ⟨hraised, hown⟩ := get_raiseFloor s.floors (fnv32 topic) lastSeq
  rw [recordFloor]
  generalize raiseFloor s.floors (fnv32 topic) lastSeq = floors at hraised hown
  -- before the overflow check
  have hkept : (∀ t, s.floorOf t ≤ { s with floors := floors }.floorOf t) ∧
      lastSeq ≤ { s with floors := floors }.floorOf topic := by
    constructor
    · intro t
      rw [floorOf_eq, floorOf_eq]
      exact Nat.max_le.mpr ⟨Nat.le_max_left _ _,
        le_trans (hraised (fnv32 t)) (Nat.le_max_right _ _)⟩
    · rw [floorOf_eq]
      exact le_trans hown (Nat.le_max_right _ _)
  split_ifs
  · exact ⟨fun t => le_trans (hkept.1 t) (floorOf_absorb _ t),
      le_trans hkept.2 (floorOf_absorb _ topic)⟩
  · exact hkept

@[simp] theorem seqMap_recordFloor (topic : JsString) (lastSeq : ℕ) :
    (s.recordFloor cfg topic lastSeq).seqMap = s.seqMap := by
  simp only [recordFloor]
  split_ifs <;> rfl

@[simp] theorem seenMap_recordFloor (topic : JsString) (lastSeq : ℕ) :
    (s.recordFloor cfg topic lastSeq).seenMap = s.seenMap := by
  simp only [recordFloor]
  split_ifs <;> rfl

/-! ## Levels -/

/-- The level of a topic rests on the counters, the floors and the mark. -/
theorem level_congr (hseq : s'.seqMap = s.seqMap) (hfloors : s'.floors = s.floors)
    (hmark : s'.highWater = s.highWater) (topic : JsString) : s'.level topic = s.level topic := by
  rw [level, level, floorOf, floorOf, hseq, hfloors, hmark]

theorem level_evict (cfg : BoundConfig) (s : Registries) (victim topic : JsString) :
    s.level topic ≤ (s.evict cfg victim).level topic := by
  rw [evict]
  cases hget : s.seqMap.get victim with
  | none => exact le_of_eq (level_congr rfl rfl rfl topic).symm
  | some last =>
    obtain ⟨hall, hown⟩ := floorOf_recordFloor cfg s victim last
    simp only [level, seqMap_recordFloor, get_delete]
    by_cases hv : victim = topic
    · subst hv
      rw [if_pos rfl, hget]
      exact hown
    · rw [if_neg hv]
      cases s.seqMap.get topic with
      | none => exact hall topic
      | some current => exact le_rfl

theorem get_rotateOne {V : Type} (m : JsMap JsString V) (topic t : JsString) :
    (rotateOne m topic).get t = m.get t := by
  rw [rotateOne]
  cases hget : m.get topic with
  | none => rfl
  | some value =>
    simp only [get_set, get_delete]
    split_ifs with h
    · rw [← h, hget]
    · rfl

theorem get_foldl_rotateOne {V : Type} (m : JsMap JsString V) (passedOver : List JsString)
    (t : JsString) : (passedOver.foldl rotateOne m).get t = m.get t := by
  induction passedOver generalizing m with
  | nil => rfl
  | cons topic passedOver ih => rw [foldl_cons, ih, get_rotateOne]

theorem level_rotate (passedOver : List JsString) (r : Registry) (topic : JsString) :
    (s.rotate passedOver r).level topic = s.level topic := by
  cases r with
  | seq =>
    simp only [level, rotate, get_foldl_rotateOne]
    rfl
  | seen => rfl

theorem level_sweep (r : Registry) (admitted : JsString) (passes : ℕ) (topic : JsString) :
    s.level topic ≤ (sweep cfg j r admitted passes s).2.level topic := by
  induction passes generalizing s with
  | zero => exact le_rfl
  | succ passes ih =>
    rw [sweep]
    generalize walk (s.skips j) admitted (s.topics r) cfg.scanLimit [] = w
    obtain ⟨passedOver, victim⟩ := w
    have hrotate := level_rotate (s := s) passedOver r topic
    cases victim with
    | some victim => exact hrotate ▸ level_evict cfg _ victim topic
    | none =>
      simp only
      split_ifs
      · exact le_of_eq hrotate.symm
      · exact hrotate ▸ ih

theorem level_enforce (r : Registry) (s : Registries) (admitted topic : JsString) :
    s.level topic ≤ (s.enforce cfg j r admitted).level topic := by
  have hskip : ∀ (s : Registries) n, ((s.setBlockedSkip n r).onOverCap r).level topic =
      s.level topic := by
    intro s n
    cases r <;> exact level_congr rfl rfl rfl topic
  rw [enforce]
  split_ifs
  · exact le_rfl
  · exact le_of_eq (hskip _ _).symm
  · have hsweep : s.level topic ≤ (sweep cfg j r admitted 2 s).2.level topic :=
      level_sweep r admitted 2 topic
    rw [evictOldestUnprotected]
    cases h : sweep cfg j r admitted 2 s with
    | mk found s' =>
      rw [h] at hsweep
      cases found with
      | true => exact hsweep
      | false => exact hskip s' _ ▸ hsweep

section

variable (s) (topic)

theorem level_raiseSeen (seq : ℤ) (t : JsString) :
    s.level t ≤ (s.raiseSeen cfg j topic seq).level t := by
  rw [raiseSeen]
  cases s.seenMap.get topic with
  | none => exact level_enforce .seen { s with seenMap := s.seenMap.set topic seq } topic t
  | some prev =>
    simp only
    split_ifs <;> exact le_rfl

theorem level_recordSeen (seq : ℤ) (t : JsString) :
    s.level t ≤ (s.recordSeen cfg j topic seq).level t :=
  level_raiseSeen { s with foreignSeqRecorded := true } topic seq t

theorem level_recordStampedSeen (seq : ℤ) (t : JsString) :
    s.level t ≤ (s.recordStampedSeen cfg j topic seq).level t := by
  rw [recordStampedSeen]
  split_ifs
  · exact level_raiseSeen s topic seq t
  · simp only
    split_ifs
    · exact level_enforce .seen { s with seenMap := s.seenMap.set topic seq } topic t
    · exact le_rfl

/-- A draw is one above the level of its topic, which it becomes, and lowers no other. -/
theorem drawCounter_spec :
    (s.drawCounter cfg j topic).1 = s.level topic + 1 ∧
      (s.drawCounter cfg j topic).1 ≤ (s.drawCounter cfg j topic).2.level topic ∧
      ∀ t, s.level t ≤ (s.drawCounter cfg j topic).2.level t := by
  -- the new counter alone raises the level of its topic and keeps the others
  have hset : ∀ n, s.level topic ≤ n → n ≤ { s with seqMap := s.seqMap.set topic n }.level topic ∧
      ∀ t, s.level t ≤ { s with seqMap := s.seqMap.set topic n }.level t := by
    intro n hn
    have hown : { s with seqMap := s.seqMap.set topic n }.level topic = n := by simp [level]
    refine ⟨le_of_eq hown.symm, fun t => ?_⟩
    by_cases ht : topic = t
    · subst ht
      rw [hown]
      exact hn
    · exact le_of_eq (by simp only [level, get_set, if_neg ht]; rfl)
  rw [drawCounter]
  cases hget : s.seqMap.get topic with
  | some current =>
    have hlevel : s.level topic = current := by rw [level, hget]; rfl
    obtain ⟨hown, hall⟩ := hset (current + 1) (by omega)
    exact ⟨by rw [hlevel], hown, hall⟩
  | none =>
    have hlevel : s.level topic = s.floorOf topic := by rw [level, hget]; rfl
    obtain ⟨hown, hall⟩ := hset (s.floorOf topic + 1) (by omega)
    let s₁ : Registries := { s with seqMap := s.seqMap.set topic (s.floorOf topic + 1) }
    have hbound : ∀ t, s₁.level t ≤ (s₁.enforce cfg j .seq topic).level t :=
      level_enforce .seq s₁ topic
    exact ⟨by rw [hlevel], le_trans hown (hbound topic),
      fun t => le_trans (hall t) (hbound t)⟩

end

end Registries

/-! ## Runs -/

variable {n n' : Numbering}

/-- The numbers given out for a topic, oldest first. -/
def issuedTo (n : Numbering) (topic : JsString) : List ℕ :=
  (n.issued.filter fun e => e.1 = topic).map Prod.snd

/-- The numbers the counters gave out for a topic increase strictly. -/
def StrictlyIncreasing (n : Numbering) : Prop :=
  ∀ topic, (issuedTo n topic).Pairwise (· < ·)

/-- The numbers of a topic increase up to its level. -/
structure Carried (n : Numbering) : Prop where
  increasing : StrictlyIncreasing n
  le_level : ∀ topic, ∀ m ∈ issuedTo n topic, m ≤ n.registries.level topic

theorem Carried.of_level (hn : Carried n) {registries : Registries}
    (hlevel : ∀ topic, n.registries.level topic ≤ registries.level topic) :
    Carried { n with registries := registries } :=
  ⟨hn.increasing, fun topic m hm => le_trans (hn.le_level topic m hm) (hlevel topic)⟩

/-- A number above the level of its topic is given out. -/
theorem Carried.issue (hn : Carried n) {registries : Registries} {m : ℕ}
    (hnew : n.registries.level topic < m) (hown : m ≤ registries.level topic)
    (hlevel : ∀ t, n.registries.level t ≤ registries.level t) :
    Carried ⟨registries, n.issued ++ [(topic, m)]⟩ := by
  have hissued : ∀ t, issuedTo ⟨registries, n.issued ++ [(topic, m)]⟩ t =
      issuedTo n t ++ if topic = t then [m] else [] := by
    intro t
    rw [issuedTo, issuedTo, filter_append, map_append]
    by_cases ht : topic = t <;> simp [ht]
  constructor
  · intro t
    rw [hissued]
    split_ifs with ht
    · subst ht
      rw [pairwise_append]
      refine ⟨hn.increasing topic, pairwise_singleton _ _, fun k hk l hl => ?_⟩
      rw [mem_singleton.mp hl]
      exact lt_of_le_of_lt (hn.le_level topic k hk) hnew
    · rw [append_nil]
      exact hn.increasing t
  · intro t k hk
    rw [hissued, mem_append] at hk
    rcases hk with hk | hk
    · exact le_trans (hn.le_level t k hk) (hlevel t)
    · split_ifs at hk with ht
      · subst ht
        rw [mem_singleton.mp hk]
        exact hown
      · cases hk

theorem Carried.drawCounter (hn : Carried n) (topic : JsString) :
    Carried ⟨(n.registries.drawCounter cfg j topic).2,
      n.issued ++ [(topic, (n.registries.drawCounter cfg j topic).1)]⟩ := by
  have hspec : _ ∧ _ ∧ ∀ t, n.registries.level t ≤ (n.registries.drawCounter cfg j topic).2.level t :=
    Registries.drawCounter_spec n.registries topic
  exact hn.issue (by omega) hspec.2.1 hspec.2.2

/-- A stamp draws the counter, or gives out nothing and changes nothing. -/
theorem Carried.stamp (hn : Carried n) (opt : SeqOption) (topic : JsString) :
    Carried ⟨(n.registries.stampSeqValue cfg j opt topic).2,
      n.issued ++ ((counterValue opt (n.registries.stampSeqValue cfg j opt topic).1).map
        fun m => (topic, m)).toList⟩ := by
  have hkeep : Carried ⟨n.registries, n.issued ++ []⟩ := by
    rw [append_nil]
    exact hn
  cases opt with
  | undefined => exact hn.drawCounter topic
  | null => exact hkeep
  | bool b =>
    cases b with
    | true => exact hn.drawCounter topic
    | false => exact hkeep
  | number m => exact hkeep
  | bigint m => exact hkeep
  | other => exact hkeep

theorem carried_init (seqMap : JsMap JsString ℕ) (seenMap : JsMap JsString ℤ) :
    Carried (seqMachine cfg seqMap seenMap).init :=
  ⟨fun _ => List.Pairwise.nil, fun _ _ h => absurd h not_mem_nil⟩

theorem Carried.step {seqMap : JsMap JsString ℕ} {seenMap : JsMap JsString ℤ} {e : SeqEvent}
    (hn : Carried n) (h : (seqMachine cfg seqMap seenMap).step n e = some n') : Carried n' := by
  cases e with
  | stamp j opt topic =>
    cases h
    exact hn.stamp opt topic
  | recordSeen j topic seq =>
    cases h
    exact hn.of_level fun t => Registries.level_recordSeen _ topic seq t
  | recordStampedSeen j topic seq =>
    cases h
    exact hn.of_level fun t => Registries.level_recordStampedSeen _ topic seq t
  | useQuietProbe =>
    cases h
    exact hn.of_level fun t => le_rfl

/-- Along every run, whatever the capacities and the probes say, the numbers the counters give
out for a topic increase strictly. -/
theorem strictlyIncreasing_of_reaches {seqMap : JsMap JsString ℕ} {seenMap : JsMap JsString ℤ}
    {es : List SeqEvent} (hrun : (seqMachine cfg seqMap seenMap).Reaches es n) :
    StrictlyIncreasing n := by
  have hcarried : Carried n :=
    hrun.invariant (carried_init seqMap seenMap) fun _ _ _ hI _ hstep => hI.step hstep
  exact hcarried.increasing

/-- A topic that was forgotten draws on above its floor. -/
theorem strictlyIncreasing_of_reaches_forgottenRun : ∃ n : Numbering,
    StrictlyIncreasing n ∧ issuedTo n (lit "a") = [1, 2] ∧ issuedTo n (lit "b") = [1] := by
  let j : Judgement := ⟨fun _ => true, fun _ => false⟩
  obtain ⟨n, hrun, hp⟩ : ∃ n, (seqMachine ⟨1, 4, 16⟩ empty empty).Reaches
      [.stamp j .undefined (lit "a"), .stamp j .undefined (lit "b"),
      .stamp j (.bool true) (lit "a")] n ∧ issuedTo n (lit "a") = [1, 2] ∧ issuedTo n (lit "b") =
      [1] :=
    Machine.exists_of_exec (by decide +kernel)
  exact ⟨n, strictlyIncreasing_of_reaches hrun, hp⟩

end AdapterWs.SeqBound
