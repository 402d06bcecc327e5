import AdapterWs.SeqBound.Increasing

/-!
# The registries stay near their capacity

A sweep judges two windows of entries and evicts at most one, and after a sweep that finds nothing
sixteen inserts are let through. While every sweep that can find a victim does, a registry is over
its capacity by no more than the topics that cannot be evicted and the inserts let through.
-/

namespace AdapterWs.SeqBound

open JsString List JsMap

/-- A new topic enters a registry, or the probe is installed. -/
inductive InsertEvent
  | seq (j : Judgement) (topic : JsString) (value : ℕ)
  | seen (j : Judgement) (topic : JsString) (value : ℤ)
  | useQuietProbe

namespace InsertEvent

/-- The registries with the new topic, before the bound is enforced. -/
def entered (s : Registries) : InsertEvent → Registries
  | .seq _ topic value => { s with seqMap := s.seqMap.set topic value }
  | .seen _ topic value => { s with seenMap := s.seenMap.set topic value }
  | .useQuietProbe => { s with quietProbe := true }

end InsertEvent

/-- Every call of `onInsert` and `onSeenInsert` follows the entry of one new topic. -/
def insertMachine (cfg : BoundConfig) : Machine Registries InsertEvent where
  init := .start .empty .empty
  step s e :=
    match e with
    | .seq j topic _ =>
      if s.seqMap.get topic = none then some ((e.entered s).onInsert cfg j topic) else none
    | .seen j topic _ =>
      if s.seenMap.get topic = none then some ((e.entered s).onSeenInsert cfg j topic) else none
    | .useQuietProbe => some (e.entered s)

variable {cfg : BoundConfig} {j : Judgement} {s s' : Registries} {admitted t : JsString}
  {r r' : Registry}

namespace Registries

/-- The topics held in either registry. -/
def held (s : Registries) : List JsString :=
  s.topics .seq ++ (s.topics .seen).filter (· ∉ s.topics .seq)

/-- The topics held that are protected or not judged quiet by an installed probe. -/
def unevictable (s : Registries) (j : Judgement) : List JsString := s.held.filter (s.skips j)

/-- The topics of a registry that a sweep may judge. -/
def others (s : Registries) (r : Registry) (admitted : JsString) : List JsString :=
  (s.topics r).filter (· ≠ admitted)

/-- The two windows hold a victim, if the registry does. -/
def HoldsVictim (cfg : BoundConfig) (j : Judgement) (r : Registry) (s : Registries)
    (admitted : JsString) : Prop :=
  (∃ t ∈ (s.others r admitted).take (2 * cfg.scanLimit), s.skips j t = false) ∨
    ∀ t ∈ s.others r admitted, s.skips j t = true

instance : Decidable (HoldsVictim cfg j r s admitted) := inferInstanceAs (Decidable (_ ∨ _))

end Registries

open Registries

/-- At most `P` topics are unevictable while an insert is answered. -/
def FewUnevictable (P : ℕ) (s : Registries) (e : InsertEvent) : Prop :=
  match e with
  | .seq j _ _ | .seen j _ _ => ((e.entered s).unevictable j).length ≤ P
  | .useQuietProbe => True

instance instDecidableFewUnevictable (P : ℕ) (s : Registries) :
    (e : InsertEvent) → Decidable (FewUnevictable P s e)
  | .seq _ _ _ => inferInstanceAs (Decidable (_ ≤ _))
  | .seen _ _ _ => inferInstanceAs (Decidable (_ ≤ _))
  | .useQuietProbe => isTrue trivial

/-- A sweep that an insert starts finds a victim, if its registry holds one. -/
def FindsVictim (cfg : BoundConfig) (s : Registries) (e : InsertEvent) : Prop :=
  match e with
  | .seq j topic _ =>
    cfg.capacity < (e.entered s).size .seq → s.blockedSkip .seq = 0 →
      HoldsVictim cfg j .seq (e.entered s) topic
  | .seen j topic _ =>
    cfg.capacity < (e.entered s).size .seen → s.blockedSkip .seen = 0 →
      HoldsVictim cfg j .seen (e.entered s) topic
  | .useQuietProbe => True

instance instDecidableFindsVictim (cfg : BoundConfig) (s : Registries) :
    (e : InsertEvent) → Decidable (FindsVictim cfg s e)
  | .seq _ _ _ => inferInstanceAs (Decidable (_ → _ → _))
  | .seen _ _ _ => inferInstanceAs (Decidable (_ → _ → _))
  | .useQuietProbe => isTrue trivial

namespace Registries

/-! ## One window -/

variable {l p : List JsString}

/-- A walk without a victim passes over the whole window. -/
theorem walk_eq_none {skip : JsString → Bool} {acc : List JsString} {budget : ℕ}
    (h : walk skip admitted l budget acc = (p, none)) :
    p = acc ++ (l.filter (· ≠ admitted)).take budget ∧
      ∀ t ∈ (l.filter (· ≠ admitted)).take budget, skip t = true := by
  induction l generalizing budget acc with
  | nil =>
    obtain ⟨rfl, -⟩ := Prod.mk.inj h
    simp
  | cons c l ih =>
    rw [walk.eq_def] at h
    simp only at h
    by_cases hc : c = admitted
    · rw [if_pos hc] at h
      rw [filter_cons_of_neg (by simpa using hc)]
      exact ih h
    · rw [if_neg hc] at h
      rw [filter_cons_of_pos (by simpa using hc)]
      cases budget with
      | zero =>
        obtain ⟨rfl, -⟩ := Prod.mk.inj h
        simp
      | succ budget =>
        simp only at h
        split_ifs at h with hskip
        · obtain ⟨rfl, hall⟩ := ih h
          rw [take_succ_cons, append_assoc]
          exact ⟨rfl, forall_mem_cons.mpr ⟨hskip, hall⟩⟩
        · cases (Prod.mk.inj h).2

/-- The victim of a walk is an entry that may be evicted. -/
theorem walk_eq_some {skip : JsString → Bool} {acc : List JsString} {budget : ℕ} {v : JsString}
    (h : walk skip admitted l budget acc = (p, some v)) : v ∈ l := by
  induction l generalizing budget acc with
  | nil => cases (Prod.mk.inj h).2
  | cons c l ih =>
    rw [walk.eq_def] at h
    simp only at h
    by_cases hc : c = admitted
    · rw [if_pos hc] at h
      exact .tail _ (ih h)
    · rw [if_neg hc] at h
      cases budget with
      | zero => cases (Prod.mk.inj h).2
      | succ budget =>
        simp only at h
        split_ifs at h with hskip
        · exact .tail _ (ih h)
        · cases (Prod.mk.inj h).2
          exact (.head _)

/-- A walk passes over entries of the registry, in its order. -/
theorem walk_sublist (skip : JsString → Bool) (admitted : JsString) (l acc : List JsString)
    (budget : ℕ) : ∃ q, (walk skip admitted l budget acc).1 = acc ++ q ∧ q.Sublist l := by
  induction l generalizing budget acc with
  | nil => exact ⟨[], by simp [walk], List.Sublist.refl _⟩
  | cons c l ih =>
    have hnone : ∃ q, acc = acc ++ q ∧ q.Sublist (c :: l) := ⟨[], by simp, nil_sublist _⟩
    rw [walk.eq_def]
    simp only
    by_cases hc : c = admitted
    · rw [if_pos hc]
      obtain ⟨q, hq, hsub⟩ := ih acc budget
      exact ⟨q, hq, hsub.cons c⟩
    · rw [if_neg hc]
      cases budget with
      | zero => exact hnone
      | succ budget =>
        simp only
        by_cases hskip : skip c = true
        · rw [if_pos hskip]
          obtain ⟨q, hq, hsub⟩ := ih (acc ++ [c]) budget
          exact ⟨c :: q, by rw [hq, append_assoc]; rfl, hsub.cons_cons c⟩
        · rw [if_neg hskip]
          exact hnone

/-! ## Rotation -/

theorem keys_rotateOne {V : Type} {m : JsMap JsString V} (h : t ∈ m.keys) :
    (rotateOne m t).keys = m.keys.filter (· ≠ t) ++ [t] := by
  rw [rotateOne]
  cases hget : m.get t with
  | none => exact absurd h (get_eq_none_iff.mp hget)
  | some value =>
    simp only
    rw [keys_set_of_get_eq_none (get_delete_self m t), keys_delete]

theorem keys_foldl_rotateOne {V : Type} {m : JsMap JsString V} (hp : p.Nodup)
    (hmem : ∀ t ∈ p, t ∈ m.keys) : (p.foldl rotateOne m).keys = m.keys.filter (· ∉ p) ++ p := by
  induction p generalizing m with
  | nil => simp
  | cons t p ih =>
    rw [nodup_cons] at hp
    have hkeys := keys_rotateOne (hmem t (.head _))
    rw [foldl_cons, ih hp.2 fun u hu => ?_, hkeys, filter_append, filter_filter]
    · simp only [hp.1, not_false_eq_true, decide_true, filter_cons_of_pos, filter_nil,
        append_assoc, singleton_append, mem_cons, not_or]
      congr 1
      refine filter_congr fun u _ => ?_
      by_cases hu : u = t <;> simp [hu]
    · rw [hkeys, mem_append, mem_filter]
      refine .inl ⟨hmem u (.tail _ hu), ?_⟩
      simp only [ne_eq, decide_not, Bool.not_eq_true', decide_eq_false_iff_not]
      exact fun heq => hp.1 (heq ▸ hu)

theorem nodup_topics (s : Registries) (r : Registry) : (s.topics r).Nodup := by
  cases r <;> exact nodup_keys _

theorem length_topics (s : Registries) (r : Registry) : (s.topics r).length = s.size r := by
  cases r <;> exact length_keys _

/-- Rotation moves what was passed over to the tail of its registry. -/
theorem topics_rotate (hp : p.Nodup) (hmem : ∀ t ∈ p, t ∈ s.topics r) :
    (s.rotate p r).topics r = (s.topics r).filter (· ∉ p) ++ p := by
  cases r <;> exact keys_foldl_rotateOne hp hmem

theorem topics_rotate_of_ne (h : r' ≠ r) : (s.rotate p r).topics r' = s.topics r' := by
  cases r <;> cases r' <;> first | rfl | exact absurd rfl h

@[simp] theorem skips_rotate (s : Registries) (p : List JsString) (r : Registry) (j : Judgement) :
    (s.rotate p r).skips j = s.skips j := by
  cases r <;> rfl

theorem size_rotate (hp : p.Nodup) (hmem : ∀ t ∈ p, t ∈ s.topics r) (r' : Registry) :
    (s.rotate p r).size r' = s.size r' := by
  rw [← length_topics, ← length_topics]
  by_cases h : r' = r
  · subst h
    have hperm : ((s.topics r').filter (· ∈ p)).Perm p := by
      rw [perm_ext_iff_of_nodup ((s.nodup_topics r').filter _) hp]
      intro t
      simpa using hmem t
    have hsplit := length_eq_length_filter_add (l := s.topics r') (fun t => decide (t ∈ p))
    rw [topics_rotate hp hmem, length_append, ← hperm.length_eq, hsplit, add_comm]
    simp
  · rw [topics_rotate_of_ne h]

/-! ## A sweep -/

section

variable (cfg)

theorem topics_evict (s : Registries) (victim : JsString) (r : Registry) :
    (s.evict cfg victim).topics r = (s.topics r).filter (· ≠ victim) := by
  rw [evict]
  cases hget : s.seqMap.get victim with
  | none =>
    cases r with
    | seq =>
      have hnot := get_eq_none_iff.mp hget
      refine (filter_eq_self.mpr fun t ht => ?_).symm
      simpa using fun heq : t = victim => hnot (heq ▸ ht)
    | seen => exact keys_delete _ _
  | some last =>
    cases r with
    | seq =>
      simp only [topics, seqMap_recordFloor]
      exact keys_delete _ _
    | seen =>
      simp only [topics, seenMap_recordFloor]
      exact keys_delete _ _

theorem size_evict_le (s : Registries) (victim : JsString) (r : Registry) :
    (s.evict cfg victim).size r ≤ s.size r := by
  rw [← length_topics, ← length_topics, topics_evict]
  exact length_filter_le _ _

theorem size_evict_lt {victim : JsString} (h : victim ∈ s.topics r) :
    (s.evict cfg victim).size r < s.size r := by
  rw [← length_topics, ← length_topics, topics_evict]
  refine lt_of_le_of_ne (length_filter_le _ _) fun heq => ?_
  have hall := length_filter_eq_length_iff.mp heq victim h
  simp at hall

@[simp] theorem blockedSkip_evict (s : Registries) (victim : JsString) (r : Registry) :
    (s.evict cfg victim).blockedSkip r = s.blockedSkip r := by
  rw [evict]
  cases s.seqMap.get victim with
  | none => cases r <;> rfl
  | some last =>
    simp only [recordFloor]
    split_ifs <;> cases r <;> rfl

/-- What a sweep leaves beside the order of its registry and the victim. -/
theorem sweep_spec (j : Judgement) (r : Registry) (s : Registries) (admitted : JsString)
    (passes : ℕ) :
    (∀ r', (sweep cfg j r admitted passes s).2.size r' ≤ s.size r' ∧
        (sweep cfg j r admitted passes s).2.blockedSkip r' = s.blockedSkip r') ∧
      ((sweep cfg j r admitted passes s).1 = true →
        (sweep cfg j r admitted passes s).2.size r < s.size r) := by
  induction passes generalizing s with
  | zero => exact ⟨fun r' => ⟨le_rfl, rfl⟩, fun h => absurd h Bool.false_ne_true⟩
  | succ passes ih =>
    rw [sweep]
    obtain ⟨q, hq, hsub⟩ := walk_sublist (s.skips j) admitted (s.topics r) [] cfg.scanLimit
    cases hwalk : walk (s.skips j) admitted (s.topics r) cfg.scanLimit [] with
    | mk p victim =>
      rw [hwalk, nil_append] at hq
      subst hq
      have hsize := size_rotate (hsub.nodup (s.nodup_topics r)) hsub.subset
      have hskip : ∀ r', (s.rotate p r).blockedSkip r' = s.blockedSkip r' := by
        intro r'
        cases r <;> rfl
      cases victim with
      | some victim =>
        have hmem : victim ∈ (s.rotate p r).topics r := by
          rw [topics_rotate (hsub.nodup (s.nodup_topics r)) hsub.subset, mem_append,
            mem_filter]
          by_cases hp : victim ∈ p
          · exact .inr hp
          · exact .inl ⟨walk_eq_some hwalk, by simpa using hp⟩
        exact ⟨fun r' => ⟨hsize r' ▸ size_evict_le cfg _ victim r',
          (blockedSkip_evict cfg _ victim r').trans (hskip r')⟩,
          fun _ => hsize r ▸ size_evict_lt cfg hmem⟩
      | none =>
        simp only
        split_ifs
        · exact ⟨fun r' => ⟨(hsize r').le, hskip r'⟩, fun h => absurd h (by simp)⟩
        · obtain ⟨hle, hlt⟩ := ih (s.rotate p r)
          exact ⟨fun r' => ⟨hsize r' ▸ (hle r').1, (hle r').2.trans (hskip r')⟩,
            fun h => hsize r ▸ hlt h⟩

end

theorem filter_not_mem_take (h : l.Nodup) (n : ℕ) : l.filter (· ∉ l.take n) = l.drop n := by
  obtain ⟨a, c, hac⟩ : ∃ a c, l.take n = a ∧ l.drop n = c := ⟨_, _, rfl, rfl⟩
  have hl : l = a ++ c := by rw [← hac.1, ← hac.2, take_append_drop]
  rw [hl] at h
  rw [hac.1, hac.2, hl, filter_append, filter_eq_nil_iff.mpr (by simp), nil_append]
  refine filter_eq_self.mpr fun t ht => ?_
  simpa using fun hmem => disjoint_of_nodup_append h hmem ht

theorem sweep_eq_false (h : (sweep cfg j r admitted 2 s).1 = false) :
    ∀ t ∈ (s.others r admitted).take (2 * cfg.scanLimit), s.skips j t = true := by
  rw [sweep] at h
  cases hwalk : walk (s.skips j) admitted (s.topics r) cfg.scanLimit [] with
  | mk p victim =>
    rw [hwalk] at h
    cases victim with
    | some victim => cases h
    | none =>
      obtain ⟨rfl, hfirst⟩ := walk_eq_none hwalk
      simp only [nil_append] at h hfirst
      rw [show (s.topics r).filter (· ≠ admitted) = s.others r admitted from rfl] at h hfirst
      generalize hL : cfg.scanLimit = L at *
      have hnodup : (s.others r admitted).Nodup := (s.nodup_topics r).filter _
      have htake : ((s.others r admitted).take L).Nodup := (take_sublist L _).nodup hnodup
      have hmem : ∀ t ∈ (s.others r admitted).take L, t ∈ s.topics r := fun t ht =>
        (mem_filter.mp (mem_of_mem_take ht)).1
      split_ifs at h with hnil
      · -- there was nothing to judge
        have hempty : (s.others r admitted).take (2 * L) = [] := by
          rcases take_eq_nil_iff.mp hnil with h0 | h0
          · rw [h0, mul_zero, take_zero]
          · rw [h0, take_nil]
        rw [hempty]
        exact forall_mem_nil _
      · rw [sweep] at h
        cases hwalk' : walk ((s.rotate ((s.others r admitted).take L) r).skips j) admitted
            ((s.rotate ((s.others r admitted).take L) r).topics r) L [] with
        | mk p victim =>
          rw [hL, hwalk'] at h
          cases victim with
          | some victim => cases h
          | none =>
            obtain ⟨-, hsecond⟩ := walk_eq_none hwalk'
            rw [topics_rotate htake hmem, skips_rotate, filter_append,
              filter_comm] at hsecond
            rw [show (s.topics r).filter (· ≠ admitted) = s.others r admitted from rfl,
              filter_not_mem_take hnodup] at hsecond
            intro t ht
            rw [Nat.two_mul, take_add, mem_append] at ht
            rcases ht with ht | ht
            · exact hfirst t ht
            · refine hsecond t ?_
              rw [take_append]
              exact mem_append_left _ ht

/-! ## One insert -/

theorem size_le_of_all_skipped (h : ∀ t ∈ s.others r admitted, s.skips j t = true) :
    s.size r ≤ (s.unevictable j).length + 1 := by
  have hnodup : (s.others r admitted).Nodup := (s.nodup_topics r).filter _
  have hheld : ∀ t ∈ s.topics r, t ∈ s.held := by
    intro t ht
    rw [held, mem_append, mem_filter]
    cases r with
    | seq => exact .inl ht
    | seen =>
      by_cases hseq : t ∈ s.topics .seq
      · exact .inl hseq
      · exact .inr ⟨ht, by simpa using hseq⟩
  have hsub : s.others r admitted ⊆ s.unevictable j := fun t ht =>
    mem_filter.mpr ⟨hheld t (mem_filter.mp ht).1, h t ht⟩
  have hle := (hnodup.subperm hsub).length_le
  have herase : (s.others r admitted).length + 1 ≥ (s.topics r).length := by
    have heq : s.others r admitted = (s.topics r).erase admitted := by
      rw [(s.nodup_topics r).erase_eq_filter]
      exact filter_congr fun t _ => by by_cases ht : t = admitted <;> simp [ht]
    rw [heq, length_erase]
    split_ifs <;> omega
  rw [← length_topics]
  omega

/-- How far a registry may still grow before it is swept. -/
structure Near (cfg : BoundConfig) (P : ℕ) (s : Registries) : Prop where
  skips : ∀ r, s.blockedSkip r ≤ BLOCKED_BACKOFF
  sizes : ∀ r, s.size r + s.blockedSkip r ≤ max cfg.capacity (P + 1) + BLOCKED_BACKOFF

@[simp] theorem size_setBlockedSkip (s : Registries) (n : ℕ) (r r' : Registry) :
    ((s.setBlockedSkip n r).onOverCap r).size r' = s.size r' := by
  cases r <;> cases r' <;> rfl

theorem blockedSkip_setBlockedSkip (s : Registries) (n : ℕ) (r r' : Registry) :
    ((s.setBlockedSkip n r).onOverCap r).blockedSkip r' = if r' = r then n else s.blockedSkip r' := by
  cases r <;> cases r' <;> rfl

/-- The insert of a new topic keeps the registries near their capacity. -/
theorem Near.enforce {P : ℕ} {s₀ : Registries} (hpos : 0 < cfg.capacity) (h : Near cfg P s₀)
    (hskips : ∀ r', s.blockedSkip r' = s₀.blockedSkip r') (hsize : s.size r ≤ s₀.size r + 1)
    (hother : ∀ r', r' ≠ r → s.size r' = s₀.size r') (hfew : (s.unevictable j).length ≤ P)
    (hvictim : cfg.capacity < s.size r → s₀.blockedSkip r = 0 → HoldsVictim cfg j r s admitted) :
    Near cfg P (s.enforce cfg j r admitted) := by
  have hold := h.sizes r
  have hle := h.skips r
  rw [Registries.enforce, hskips r]
  by_cases hcap : cfg.capacity = 0 ∨ s.size r ≤ cfg.capacity
  · rw [if_pos hcap]
    refine ⟨fun r' => hskips r' ▸ h.skips r', fun r' => ?_⟩
    rw [hskips r']
    by_cases hr : r' = r
    · subst hr
      omega
    · rw [hother r' hr]
      exact h.sizes r'
  · rw [if_neg hcap]
    rw [not_or, not_le] at hcap
    by_cases hskip : 0 < s₀.blockedSkip r
    · -- one of the inserts that are let through
      rw [if_pos hskip]
      refine ⟨fun r' => ?_, fun r' => ?_⟩
      · have := h.skips r'
        rw [blockedSkip_setBlockedSkip, hskips r']
        split_ifs <;> omega
      · rw [blockedSkip_setBlockedSkip, size_setBlockedSkip, hskips r']
        split_ifs with hr
        · subst hr
          omega
        · rw [hother r' hr]
          exact h.sizes r'
    · rw [if_neg hskip, evictOldestUnprotected]
      have hzero : s₀.blockedSkip r = 0 := by omega
      obtain ⟨hsweep, hfound⟩ := sweep_spec cfg j r s admitted 2
      cases hresult : sweep cfg j r admitted 2 s with
      | mk found s' =>
        rw [hresult] at hsweep hfound
        change (∀ r', s'.size r' ≤ s.size r' ∧ s'.blockedSkip r' = s.blockedSkip r') at hsweep
        cases found with
        | true =>
          have hlt : s'.size r < s.size r := hfound rfl
          change Near cfg P s'
          refine ⟨fun r' => ?_, fun r' => ?_⟩
          · rw [(hsweep r').2, hskips r']
            exact h.skips r'
          · have hle' : s'.size r' ≤ s.size r' := (hsweep r').1
            have hsizes := h.sizes r'
            rw [(hsweep r').2, hskips r']
            by_cases hr : r' = r
            · subst hr
              omega
            · rw [hother r' hr] at hle'
              omega
        | false =>
          -- no entry can be evicted, so the registry is small
          have hjudged := sweep_eq_false (s := s) (by rw [hresult])
          have hall : ∀ t ∈ s.others r admitted, s.skips j t = true := by
            rcases hvictim hcap.2 hzero with ⟨t, ht, hfree⟩ | hall
            · rw [hjudged t ht] at hfree
              cases hfree
            · exact hall
          have hsmall := size_le_of_all_skipped hall
          change Near cfg P ((s'.setBlockedSkip BLOCKED_BACKOFF r).onOverCap r)
          refine ⟨fun r' => ?_, fun r' => ?_⟩
          · have := h.skips r'
            rw [blockedSkip_setBlockedSkip, (hsweep r').2, hskips r']
            split_ifs <;> omega
          · have hle' : s'.size r' ≤ s.size r' := (hsweep r').1
            have hsizes := h.sizes r'
            rw [blockedSkip_setBlockedSkip, size_setBlockedSkip, (hsweep r').2, hskips r']
            split_ifs with hr
            · subst hr
              omega
            · rw [hother r' hr] at hle'
              omega

end Registries

/-! ## Every run -/

theorem near_start (cfg : BoundConfig) (P : ℕ) : Near cfg P (.start .empty .empty) := by
  refine ⟨fun r => ?_, fun r => ?_⟩ <;> cases r <;> exact Nat.zero_le _

theorem Registries.Near.step {P : ℕ} {e : InsertEvent} (hpos : 0 < cfg.capacity) (h : Near cfg P s)
    (hfew : FewUnevictable P s e) (hvictim : FindsVictim cfg s e)
    (hstep : (insertMachine cfg).step s e = some s') : Near cfg P s' := by
  cases e with
  | seq j topic value =>
    obtain ⟨-, ⟨⟩⟩ := Option.ite_none_right_eq_some.mp hstep
    refine h.enforce hpos (fun r' => by cases r' <;> rfl) (size_set_le _ _ _)
      (fun r' hr => ?_) hfew hvictim
    cases r' with
    | seq => exact absurd rfl hr
    | seen => rfl
  | seen j topic value =>
    obtain ⟨-, ⟨⟩⟩ := Option.ite_none_right_eq_some.mp hstep
    refine h.enforce hpos (fun r' => by cases r' <;> rfl) (size_set_le _ _ _)
      (fun r' hr => ?_) hfew hvictim
    cases r' with
    | seq => rfl
    | seen => exact absurd rfl hr
  | useQuietProbe =>
    cases hstep
    refine ⟨fun r => ?_, fun r => ?_⟩
    · cases r with
      | seq => exact h.skips .seq
      | seen => exact h.skips .seen
    · cases r with
      | seq => exact h.sizes .seq
      | seen => exact h.sizes .seen

/-- Where every sweep that can find a victim does, the registries stay near their capacity. -/
theorem size_le_of_findsVictim {P : ℕ} (hpos : 1 ≤ cfg.capacity) {es : List InsertEvent}
    (h : (insertMachine cfg).ReachesWhere
      (fun s e => FewUnevictable P s e ∧ FindsVictim cfg s e) es s) :
    s.size .seq ≤ cfg.capacity + P + 17 ∧ s.size .seen ≤ cfg.capacity + P + 17 := by
  have hnear : Near cfg P s := h.invariant (near_start cfg P) fun _ _ _ hs hok hstep =>
    hs.step hpos hok.1 hok.2 hstep
  have hseq := hnear.sizes .seq
  have hseen := hnear.sizes .seen
  rw [BLOCKED_BACKOFF] at hseq hseen
  omega

/-- The topics named by the units below `n` are protected, the others are quiet. -/
def protectsBelow (n : UInt16) : Judgement := ⟨fun _ => true, fun t => decide (t.all (· < n))⟩

/-- The topics named by the first units enter `seqMap` in order. -/
def enterFirst (j : Judgement) (n : ℕ) : List InsertEvent :=
  (List.range n).map fun i => .seq j [UInt16.ofNat i] 1

/-- Three protected topics stay while twenty others pass through. -/
theorem size_le_of_findsVictim_enterFirst :
    ∃ s, (insertMachine ⟨4, 8, 16⟩).ReachesWhere
        (fun s e => FewUnevictable 3 s e ∧ FindsVictim ⟨4, 8, 16⟩ s e)
        (enterFirst (protectsBelow 3) 23) s ∧
      (s.size .seq ≤ 4 + 3 + 17 ∧ s.size .seen ≤ 4 + 3 + 17) ∧ s.highWater = 1 :=
  Machine.exists_and_of_execWhere (by decide +kernel) fun _ hrun _ =>
    size_le_of_findsVictim (by decide) hrun

/-- Thirty-two protected topics fill two windows again and again. -/
theorem not_size_le_enterFirst :
    ∃ s, (insertMachine ⟨1, 4, 16⟩).ReachesWhere (FewUnevictable 32)
        (enterFirst (protectsBelow 32) 60) s ∧ 1 + 32 + 17 < s.size .seq :=
  Machine.exists_of_execWhere (by decide +kernel)

end AdapterWs.SeqBound
