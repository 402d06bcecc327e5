import Mathlib.Data.List.Count
import AdapterWs.Subscribe.Lanes

/-!
# The attempts in flight and their entries

The entry of a topic counts the attempts of the topic in flight, and the token an attempt
carries lags the entry's epoch by the number of revocations since the attempt began. Both are
said of one list: the attempts in flight.
-/

namespace AdapterWs

open Option
namespace Subscribe

variable {ud : UserData} {revoked : List String} {live live' : List Attempt} {a : Attempt}
  {topic topic' : String} {entry : PendingEntry}

/-- The entries of `ud` agree with the attempts in flight, after the revocations so far. -/
structure Enrolled (ud : UserData) (revoked : List String) (live : List Attempt) : Prop where
  /-- An entry counts the attempts of its topic. -/
  counted : ∀ topic, inflight ud topic = live.countP fun a => a.topic = topic
  /-- An entry is there for an attempt. -/
  positive : ∀ topic entry, ud.pending.get topic = some entry → 0 < entry.inflight
  /-- The pending total is the sum of the counts. -/
  total : ud.pendingTotal = pendingSum ud
  /-- The epoch has moved on from a token by the revocations since the attempt began. -/
  token : ∀ a ∈ live, ∀ entry, ud.pending.get a.topic = some entry →
    a.token + revoked.count a.topic = entry.epoch + a.revocations

theorem inflight_of_get (hget : ud.pending.get topic = some entry) :
    inflight ud topic = entry.inflight := by
  rw [inflight, hget]
  rfl

theorem inflight_of_get_none (hget : ud.pending.get topic = none) : inflight ud topic = 0 := by
  rw [inflight, hget]
  rfl

theorem Enrolled.empty :
    Enrolled { subscriptions := JsSet.empty, pending := JsMap.empty, pendingTotal := 0 } [] [] where
  counted _ := rfl
  positive _ _ hget := by cases hget
  total := rfl
  token _ ha := by cases ha

section

variable (h : Enrolled ud revoked live)
include h

theorem Enrolled.perm (hperm : live.Perm live') :
    Enrolled ud revoked live' where
  counted topic := by rw [h.counted, hperm.countP_eq]
  positive := h.positive
  total := h.total
  token a ha := h.token a (hperm.mem_iff.mpr ha)

theorem Enrolled.congr {ud' : UserData} (hpending : ud'.pending = ud.pending)
    (htotal : ud'.pendingTotal = ud.pendingTotal) :
    Enrolled ud' revoked live where
  counted topic := by rw [inflight, hpending, ← h.counted topic, inflight]
  positive topic entry := by
    rw [hpending]
    exact h.positive topic entry
  total := by rw [htotal, h.total, pendingSum, pendingSum, hpending]
  token a ha entry := by
    rw [hpending]
    exact h.token a ha entry

theorem Enrolled.exists_entry (ha : a ∈ live) : ∃ entry, ud.pending.get a.topic = some entry := by
  have hpos : 0 < live.countP fun b => b.topic = a.topic :=
    List.countP_pos_iff.mpr ⟨a, ha, by simp⟩
  rw [← h.counted] at hpos
  cases hget : ud.pending.get a.topic with
  | none =>
    rw [inflight_of_get_none hget] at hpos
    cases hpos
  | some entry => exact ⟨entry, rfl⟩

/-- With nothing in flight on a topic its entry is gone. -/
theorem Enrolled.get_eq_none (hquiet : ∀ a ∈ live, a.topic ≠ topic) :
    ud.pending.get topic = none := by
  cases hget : ud.pending.get topic with
  | none => rfl
  | some entry =>
    have hzero : live.countP (fun a => a.topic = topic) = 0 := by
      rw [List.countP_eq_zero]
      intro a ha
      simp [hquiet a ha]
    rw [← h.counted, inflight_of_get hget] at hzero
    exact absurd hzero (ne_of_gt (h.positive topic entry hget))

/-- A token is current exactly where no revocation came after the attempt began. -/
theorem Enrolled.token_eq_iff (ha : a ∈ live) (hget : ud.pending.get a.topic = some entry) :
    entry.epoch = a.token ↔ a.revocations = revoked.count a.topic := by
  have := h.token a ha entry hget
  omega

theorem Enrolled.begin (topic : String) (held : Bool) :
    Enrolled (beginPendingSubscribe ud topic held).2 revoked
      ({ topic := topic
         token := (beginPendingSubscribe ud topic held).1
         revocations := revoked.count topic } :: live) where
  counted topic' := by
    rw [List.countP_cons, ← h.counted topic', inflight, get_begin, inflight]
    by_cases ht : topic = topic'
    · subst ht
      rw [enrolled]
      cases ud.pending.get topic with
      | none => simp
      | some entry => simp
    · simp [ht]
  positive topic' entry hget := by
    rw [get_begin] at hget
    split at hget
    · cases hget
      exact Nat.succ_pos _
    · exact h.positive topic' entry hget
  total := by rw [pendingTotal_begin, pendingSum_begin, h.total]
  token a ha entry hget := by
    rw [get_begin] at hget
    have hold : ∀ entry, ud.pending.get a.topic = some entry → a ∈ live →
        a.token + revoked.count a.topic = entry.epoch + a.revocations :=
      fun entry hget ha => h.token a ha entry hget
    rcases List.mem_cons.mp ha with rfl | ha
    · simp only [if_true] at hget
      cases hget
      rfl
    · split at hget
      · next ht =>
        cases hget
        obtain ⟨entry, hsome⟩ := h.exists_entry ha
        rw [← ht] at hsome
        rw [enrolled, hsome]
        exact hold entry (ht ▸ hsome) ha
      · exact hold entry hget ha

end

/-- One attempt leaves its entry, with whatever authority the entry then records. -/
theorem Enrolled.leave (h : Enrolled ud revoked (a :: live))
    (hget : ud.pending.get a.topic = some entry) (granted : Bool) :
    Enrolled (leavePending ud a.topic { entry with granted := granted }) revoked live := by
  have hpos := h.positive a.topic entry hget
  have hcount := h.counted a.topic
  rw [inflight_of_get hget, List.countP_cons_of_pos (by simp)] at hcount
  have hleave (topic : String) :
      (leavePending ud a.topic { entry with granted := granted }).pending.get topic =
        if a.topic = topic then
          if entry.inflight = 1 then none
          else some { entry with inflight := entry.inflight - 1, granted := granted }
        else ud.pending.get topic :=
    get_leave hpos
  refine ⟨?_, ?_, ?_, ?_⟩
  · intro topic
    rw [inflight, hleave]
    by_cases ht : a.topic = topic
    · subst ht
      rw [if_pos rfl]
      by_cases hlast : entry.inflight = 1
      · rw [if_pos hlast]
        simp only [map_none, getD_none]
        omega
      · rw [if_neg hlast]
        simp only [map_some, getD_some]
        omega
    · rw [if_neg ht]
      have hother := h.counted topic
      rw [List.countP_cons_of_neg (by simpa using ht)] at hother
      exact hother
  · intro topic entry' hget'
    rw [hleave] at hget'
    split at hget'
    · split at hget'
      · cases hget'
      · next hlast =>
        cases hget'
        exact Nat.sub_pos_of_lt (lt_of_le_of_ne hpos (Ne.symm hlast))
    · exact h.positive topic entry' hget'
  · have hsum : pendingSum (leavePending ud a.topic { entry with granted := granted }) + 1 =
        pendingSum ud := pendingSum_leave hget rfl hpos
    rw [pendingTotal_leave, h.total]
    omega
  · intro b hb entry' hget'
    have hold := h.token b (List.mem_cons_of_mem a hb)
    rw [hleave] at hget'
    split at hget'
    · next ht =>
      obtain ⟨-, ⟨⟩⟩ := ite_none_left_eq_some.mp hget'
      exact hold entry (ht ▸ hget)
    · exact hold entry' hget'

/-- A revocation moves the epoch on and cancels no attempt's enrolment. -/
theorem Enrolled.tombstone (h : Enrolled ud revoked live) (topic : String) :
    Enrolled (tombstonePendingSubscribe ud topic).2 (revoked ++ [topic]) live := by
  have hget (topic' : String) :
      (tombstonePendingSubscribe ud topic).2.pending.get topic' =
        if topic = topic' then
          (ud.pending.get topic).map fun entry =>
            { entry with epoch := entry.epoch + 1, granted := false }
        else ud.pending.get topic' :=
    get_tombstone topic' (h.positive topic)
  refine ⟨?_, ?_, ?_, ?_⟩
  · intro topic'
    rw [← h.counted topic', inflight, hget, inflight]
    by_cases ht : topic = topic'
    · subst ht
      rw [if_pos rfl, map_map]
      rfl
    · rw [if_neg ht]
  · intro topic' entry hsome
    rw [hget] at hsome
    split at hsome
    · obtain ⟨old, hold, rfl⟩ := map_eq_some_iff.mp hsome
      exact h.positive topic old hold
    · exact h.positive topic' entry hsome
  · rw [pendingTotal_tombstone, pendingSum_tombstone, h.total]
  · intro a ha entry hsome
    rw [hget] at hsome
    rw [List.count_append]
    split at hsome
    · next ht =>
      obtain ⟨old, hold, rfl⟩ := map_eq_some_iff.mp hsome
      have := h.token a ha old (ht ▸ hold)
      rw [← ht] at this ⊢
      simp only [List.count_singleton_self]
      omega
    · next ht =>
      have := h.token a ha entry hsome
      rw [List.count_singleton, if_neg (by simpa using ht)]
      omega

/-- A release withdraws authority and leaves the epoch. -/
theorem Enrolled.withdrawGrant (h : Enrolled ud revoked live) (topic : String) :
    Enrolled (withdrawGrant ud topic) revoked live := by
  have hget (topic' : String) :
      (Subscribe.withdrawGrant ud topic).pending.get topic' =
        if topic = topic' then
          (ud.pending.get topic).map fun entry => { entry with granted := false }
        else ud.pending.get topic' :=
    get_withdrawGrant
  have hback : ∀ topic' entry, (Subscribe.withdrawGrant ud topic).pending.get topic' = some entry →
      ∃ old, ud.pending.get topic' = some old ∧ old.epoch = entry.epoch ∧
        old.inflight = entry.inflight := by
    intro topic' entry hsome
    rw [hget] at hsome
    split at hsome
    · next ht =>
      obtain ⟨old, hold, rfl⟩ := map_eq_some_iff.mp hsome
      exact ⟨old, ht ▸ hold, rfl, rfl⟩
    · exact ⟨entry, hsome, rfl, rfl⟩
  refine ⟨?_, ?_, ?_, ?_⟩
  · intro topic'
    rw [← h.counted topic', inflight, hget, inflight]
    by_cases ht : topic = topic'
    · subst ht
      rw [if_pos rfl, map_map]
      rfl
    · rw [if_neg ht]
  · intro topic' entry hsome
    obtain ⟨old, hold, -, hinflight⟩ := hback topic' entry hsome
    exact hinflight ▸ h.positive topic' old hold
  · rw [pendingTotal_withdrawGrant, pendingSum_withdrawGrant, h.total]
  · intro a ha entry hsome
    obtain ⟨old, hold, hepoch, -⟩ := hback a.topic entry hsome
    exact hepoch ▸ h.token a ha old hold

end Subscribe
end AdapterWs
