import AdapterWs.Lib.JsMap
import AdapterWs.Lib.JsSet
import AdapterWs.Lib.JsString
import AdapterWs.Lib.Ledger
import AdapterWs.Lib.Machine

/-!
# Logical subscriptions are charged exactly once

Every connection has a registry of the topics it holds. A registry that grows or shrinks charges
the worker's counter, until the close path settles the registry as a whole. The registry stays
populated after that, so the mark that settles it is what keeps a late release from charging again.
The hook and the marks are slots of `globalThis`, and every copy of the module reaches the same.
-/

namespace AdapterWs.Membership

open JsString List Ledger JsSet

/-- `REGISTRY_UNACCOUNTED` and `REGISTRY_SETTLED`. -/
inductive Mark
  | unaccounted
  | settled
  deriving DecidableEq

/-- A worker: its registries, the slots the copies of the module share, and its counter. -/
structure Worker where
  /-- The registries that were created, each known by its place. -/
  sets : List (JsSet JsString)
  /-- The slot `REGISTRY_STATES`. -/
  states : JsMap ℕ Mark
  /-- What was passed to the accounting hook, oldest first. -/
  deltas : List (ℤ × JsString)
  totalSubscriptions : ℤ
  /-- How often `subs.total-negative` was asserted. -/
  negatives : ℕ

namespace Worker

/-- A worker before any connection. -/
def start : Worker := ⟨[], .empty, [], 0, 0⟩

/-- `adjustTotalSubscriptions(delta)`, which the worker installs as the hook. -/
def adjustTotalSubscriptions (w : Worker) (delta : ℤ) : Worker :=
  let next := w.totalSubscriptions + delta
  if next < 0 then { w with totalSubscriptions := 0, negatives := w.negatives + 1 }
  else { w with totalSubscriptions := next }

/-- `accountSubscriptionDelta(delta, topic)`. -/
def accountSubscriptionDelta (w : Worker) (delta : ℤ) (topic : JsString) : Worker :=
  { w with deltas := w.deltas ++ [(delta, topic)] }.adjustTotalSubscriptions delta

/-- `new Set()` at the open of a connection. -/
def openRegistry (w : Worker) : Worker := { w with sets := w.sets ++ [.empty] }

/-- `createUnaccountedSubscriptionRegistry()`. -/
def createUnaccountedSubscriptionRegistry (w : Worker) : Worker :=
  { w with
    sets := w.sets ++ [.empty]
    states := w.states.set w.sets.length .unaccounted }

/-- `addLogicalSubscription(subscriptions, topic)`. -/
def addLogicalSubscription (w : Worker) (r : ℕ) (subscriptions : JsSet JsString)
    (topic : JsString) : Bool × Worker :=
  if topic ∈ subscriptions then (false, w)
  else
    let w := { w with sets := w.sets.set r (subscriptions.add topic) }
    (true, if w.states.get r = none then w.accountSubscriptionDelta 1 topic else w)

/-- `removeLogicalSubscription(subscriptions, topic)`. -/
def removeLogicalSubscription (w : Worker) (r : ℕ) (subscriptions : JsSet JsString)
    (topic : JsString) : Bool × Worker :=
  if topic ∉ subscriptions then (false, w)
  else
    let w := { w with sets := w.sets.set r (subscriptions.delete topic) }
    (true, if w.states.get r = none then w.accountSubscriptionDelta (-1) topic else w)

/-- `accountClosedLogicalSubscriptions(subscriptions)`. -/
def accountClosedLogicalSubscriptions (w : Worker) (r : ℕ) (subscriptions : JsSet JsString) :
    ℕ × Worker :=
  let state := w.states.get r
  if state = some .settled then (0, w)
  else
    let count := subscriptions.size
    let w := { w with states := w.states.set r .settled }
    (count,
      if state ≠ some .unaccounted then
        subscriptions.elems.foldl (fun w topic => w.accountSubscriptionDelta (-1) topic) w
      else w)

/-- Whether the topics of a registry are charged, with them. -/
def holders (w : Worker) : List (JsSet JsString × Option Mark) :=
  w.sets.mapIdx fun r subscriptions => (subscriptions, w.states.get r)

/-- The registries that are accounted and not settled. -/
def live (w : Worker) : List (JsSet JsString) :=
  (w.holders.filter fun h => h.2 = none).map Prod.fst

end Worker

/-- What is called, and through which copy of the module. -/
inductive AccountingEvent
  | openRegistry
  | createUnaccounted (copy : ℕ)
  | add (copy : ℕ) (r : ℕ) (topic : JsString)
  | remove (copy : ℕ) (r : ℕ) (topic : JsString)
  /-- The close path runs for a registry. -/
  | accountClosed (copy : ℕ) (r : ℕ)
  /-- The close path runs for a slot that holds no `Set`. -/
  | accountClosedCorrupt (copy : ℕ)

/-- One worker. A copy of the module keeps nothing of its own: every call is on the shared slots. -/
def accountingMachine : Machine Worker AccountingEvent where
  init := .start
  step w
    | .openRegistry => some w.openRegistry
    | .createUnaccounted _ => some w.createUnaccountedSubscriptionRegistry
    | .add _ r topic => (w.sets[r]?).map fun s => (w.addLogicalSubscription r s topic).2
    | .remove _ r topic => (w.sets[r]?).map fun s => (w.removeLogicalSubscription r s topic).2
    | .accountClosed _ r => (w.sets[r]?).map fun s => (w.accountClosedLogicalSubscriptions r s).2
    | .accountClosedCorrupt _ => some w

variable {w w' : Worker} {r : ℕ} {s s' : JsSet JsString} {topic : JsString} {δ : JsString → ℤ}
  {l : List JsString}

/-! ## Weights

A weight `δ` of the topics covers both sums: one for each topic gives the total, and one for a
single topic gives the count of that topic. -/

/-- The weight of the deltas. -/
def weightOfDeltas (δ : JsString → ℤ) (deltas : List (ℤ × JsString)) : ℤ :=
  (deltas.map fun d => d.1 * δ d.2).sum

/-- The weight of a registry. -/
def weight (δ : JsString → ℤ) (s : JsSet JsString) : ℤ := (s.elems.map δ).sum

/-- What a registry owes the counter. -/
def dues (δ : JsString → ℤ) (h : JsSet JsString × Option Mark) : ℤ :=
  if h.2 = none then weight δ h.1 else 0

theorem weightOfDeltas_append (δ : JsString → ℤ) (l l' : List (ℤ × JsString)) :
    weightOfDeltas δ (l ++ l') = weightOfDeltas δ l + weightOfDeltas δ l' := by
  simp [weightOfDeltas]

theorem weight_add (hs : topic ∉ s) : weight δ (s.add topic) = weight δ s + δ topic := by
  rw [weight, weight, add, dif_neg (fun h => hs (mem_elems.mp h))]
  simp

theorem sum_map_filter_ne (hl : l.Nodup) (hmem : topic ∈ l) :
    ((l.filter (· ≠ topic)).map δ).sum = (l.map δ).sum - δ topic := by
  induction l with
  | nil => cases hmem
  | cons t l ih =>
    rw [nodup_cons] at hl
    by_cases ht : t = topic
    · subst ht
      have hself : l.filter (· ≠ t) = l := by
        rw [filter_eq_self]
        intro u hu
        simpa using fun h : u = t => hl.1 (h ▸ hu)
      rw [filter_cons_of_neg (by simp), hself, map_cons, sum_cons]
      omega
    · have hrest := ih hl.2 ((mem_cons.mp hmem).resolve_left (Ne.symm ht))
      rw [filter_cons_of_pos (by simpa using ht), map_cons, sum_cons, hrest,
        map_cons, sum_cons]
      omega

theorem weight_delete (hs : topic ∈ s) : weight δ (s.delete topic) = weight δ s - δ topic :=
  sum_map_filter_ne s.nodup hs

theorem weight_one (s : JsSet JsString) : weight (fun _ => 1) s = s.size := by
  simp [weight, size]

theorem sum_map_single (hl : l.Nodup) (topic : JsString) :
    (l.map fun t => if t = topic then (1 : ℤ) else 0).sum =
      if decide (topic ∈ l) = true then 1 else 0 := by
  induction l with
  | nil => rfl
  | cons t l ih =>
    rw [nodup_cons] at hl
    rw [map_cons, sum_cons, ih hl.2]
    by_cases ht : t = topic
    · subst ht
      simp [hl.1]
    · simp [ht, Ne.symm ht]

theorem weight_single (s : JsSet JsString) (topic : JsString) :
    weight (fun t => if t = topic then 1 else 0) s = if topic ∈ s then 1 else 0 := by
  rw [weight, sum_map_single s.nodup]
  by_cases h : topic ∈ s
  · rw [if_pos (decide_eq_true (mem_elems.mpr h)), if_pos h]
  · rw [if_neg (by simpa using h), if_neg h]

/-! ## The registries -/

theorem getElem?_holders (hs : w.sets[r]? = some s) :
    w.holders[r]? = some (s, w.states.get r) := by
  rw [Worker.holders, getElem?_mapIdx, hs]
  rfl

/-- A registry that changes is one holder that changes. -/
theorem holders_set (w : Worker) (r : ℕ) (s : JsSet JsString) :
    { w with sets := w.sets.set r s }.holders = w.holders.set r (s, w.states.get r) := by
  refine ext_getElem? fun i => ?_
  simp only [Worker.holders, getElem?_mapIdx, getElem?_set, length_mapIdx]
  by_cases hi : r = i
  · subst hi
    by_cases hlt : r < w.sets.length <;> simp [hlt]
  · simp [hi]

/-- A registry that is settled is one holder that changes. -/
theorem holders_settle (hs : w.sets[r]? = some s) (mark : Mark) :
    { w with states := w.states.set r mark }.holders = w.holders.set r (s, some mark) := by
  refine ext_getElem? fun i => ?_
  simp only [Worker.holders, getElem?_mapIdx, getElem?_set, length_mapIdx,
    JsMap.get_set]
  by_cases hi : r = i
  · subst hi
    obtain ⟨hlt, hget⟩ := List.getElem?_eq_some_iff.mp hs
    simp [hlt, hget]
  · simp [hi]

theorem holders_open (w : Worker) :
    w.openRegistry.holders = w.holders ++ [(.empty, w.states.get w.sets.length)] := by
  simp only [Worker.holders, Worker.openRegistry, mapIdx_append]
  simp

theorem holders_createUnaccounted (w : Worker) :
    w.createUnaccountedSubscriptionRegistry.holders =
      w.holders ++ [(.empty, some .unaccounted)] := by
  rw [Worker.holders, Worker.createUnaccountedSubscriptionRegistry, mapIdx_append]
  congr 1
  · refine ext_getElem? fun i => ?_
    simp only [Worker.holders, getElem?_mapIdx]
    cases hi : w.sets[i]? with
    | none => rfl
    | some s =>
      have hlt : i < w.sets.length := (List.getElem?_eq_some_iff.mp hi).1
      simp [JsMap.get_set, ne_of_gt hlt]
  · simp

theorem total_dues (δ : JsString → ℤ) (w : Worker) :
    total (dues δ) w.holders = (w.live.map (weight δ)).sum := by
  rw [Worker.live]
  induction w.holders with
  | nil => rfl
  | cons h l ih =>
    rw [total] at ih ⊢
    rw [map_cons, sum_cons, ih]
    by_cases hh : h.2 = none
    · rw [filter_cons_of_pos (by simpa using hh)]
      simp [dues, hh]
    · rw [filter_cons_of_neg (by simpa using hh)]
      simp [dues, hh]

/-! ## Charges -/

/-- The counter is the sum of what was charged, and no sum of a first part is negative. -/
structure Sound (w : Worker) : Prop where
  nonneg : ∀ p, p <+: w.deltas → ∀ δ : JsString → ℤ, (∀ t, 0 ≤ δ t) → 0 ≤ weightOfDeltas δ p
  counter : w.totalSubscriptions = weightOfDeltas (fun _ => 1) w.deltas
  negatives : w.negatives = 0

/-- What was charged is what the registries owe. -/
def Exact (w : Worker) : Prop :=
  ∀ δ, weightOfDeltas δ w.deltas = Ledger.total (dues δ) w.holders

theorem accountSubscriptionDelta_sets (w : Worker) (d : ℤ) (topic : JsString) :
    (w.accountSubscriptionDelta d topic).sets = w.sets ∧
      (w.accountSubscriptionDelta d topic).states = w.states ∧
      (w.accountSubscriptionDelta d topic).deltas = w.deltas ++ [(d, topic)] := by
  simp only [Worker.accountSubscriptionDelta, Worker.adjustTotalSubscriptions]
  split_ifs <;> exact ⟨rfl, rfl, rfl⟩

/-- A charge that no weight answers with a negative sum. -/
theorem Sound.charge (hw : Sound w) {d : ℤ}
    (hd : ∀ δ : JsString → ℤ, (∀ t, 0 ≤ δ t) → 0 ≤ weightOfDeltas δ w.deltas + d * δ topic) :
    Sound (w.accountSubscriptionDelta d topic) := by
  have hsum : ∀ δ, weightOfDeltas δ (w.deltas ++ [(d, topic)]) =
      weightOfDeltas δ w.deltas + d * δ topic := by
    intro δ
    rw [weightOfDeltas_append]
    simp [weightOfDeltas]
  have hnext : ¬ w.totalSubscriptions + d < 0 := by
    have hone := hd (fun _ => 1) fun _ => Int.one_nonneg
    rw [hw.counter]
    omega
  constructor
  · intro p hp δ hδ
    rw [(accountSubscriptionDelta_sets w d topic).2.2, prefix_concat_iff] at hp
    rcases hp with rfl | hp
    · rw [hsum]
      exact hd δ hδ
    · exact hw.nonneg p hp δ hδ
  · rw [(accountSubscriptionDelta_sets w d topic).2.2, hsum, ← hw.counter]
    simp only [Worker.accountSubscriptionDelta, Worker.adjustTotalSubscriptions, if_neg hnext]
    omega
  · simp only [Worker.accountSubscriptionDelta, Worker.adjustTotalSubscriptions, if_neg hnext]
    exact hw.negatives

theorem Sound.release (hw : Sound w)
    (hl : ∀ δ : JsString → ℤ, (∀ t, 0 ≤ δ t) → (l.map δ).sum ≤ weightOfDeltas δ w.deltas) :
    let w' := l.foldl (fun w topic => w.accountSubscriptionDelta (-1) topic) w
    Sound w' ∧ w'.sets = w.sets ∧ w'.states = w.states ∧
      ∀ δ, weightOfDeltas δ w'.deltas = weightOfDeltas δ w.deltas - (l.map δ).sum := by
  induction l generalizing w with
  | nil => exact ⟨hw, rfl, rfl, fun δ => by simp⟩
  | cons topic l ih =>
    obtain ⟨hsets, hstates, hdeltas⟩ := accountSubscriptionDelta_sets w (-1) topic
    have hsum : ∀ δ, weightOfDeltas δ (w.accountSubscriptionDelta (-1) topic).deltas =
        weightOfDeltas δ w.deltas - δ topic := by
      intro δ
      rw [hdeltas, weightOfDeltas_append]
      simp only [weightOfDeltas, map_cons, map_nil, sum_cons, sum_nil]
      omega
    have hfirst : Sound (w.accountSubscriptionDelta (-1) topic) := by
      refine hw.charge fun δ hδ => ?_
      have hle := hl δ hδ
      have hrest : 0 ≤ (l.map δ).sum :=
        sum_nonneg fun n hn => by
          obtain ⟨t, -, rfl⟩ := mem_map.mp hn
          exact hδ t
      rw [map_cons, sum_cons] at hle
      omega
    obtain ⟨hsound, hs, hst, hd⟩ := ih hfirst fun δ hδ => by
      have hle := hl δ hδ
      rw [map_cons, sum_cons] at hle
      rw [hsum]
      omega
    refine ⟨hsound, hs.trans hsets, hst.trans hstates, fun δ => ?_⟩
    rw [foldl_cons, hd δ, hsum, map_cons, sum_cons]
    omega

/-- The invariant. -/
structure Charged (w : Worker) : Prop where
  sound : Sound w
  exact : Exact w

section

variable (hw : Charged w)
include hw

theorem Charged.weight_le (hs : w.sets[r]? = some s) (hlive : w.states.get r = none)
    (δ : JsString → ℤ) (hδ : ∀ t, 0 ≤ δ t) : weight δ s ≤ weightOfDeltas δ w.deltas := by
  have hnonneg : ∀ s : JsSet JsString, 0 ≤ weight δ s := by
    intro s
    refine sum_nonneg fun n hn => ?_
    obtain ⟨t, -, rfl⟩ := mem_map.mp hn
    exact hδ t
  have hmem : (s, w.states.get r) ∈ w.holders :=
    mem_of_getElem? (getElem?_holders hs)
  have hdue : dues δ (s, w.states.get r) ≤ total (dues δ) w.holders := by
    refine due_le_total (fun h _ => ?_) hmem
    rw [dues]
    split_ifs
    · exact hnonneg h.1
    · exact le_refl 0
  rw [hw.exact δ]
  rwa [dues, if_pos hlive] at hdue

theorem Charged.openRegistry : Charged w.openRegistry := by
  refine ⟨⟨hw.sound.nonneg, hw.sound.counter, hw.sound.negatives⟩, fun δ => ?_⟩
  rw [holders_open, total_append, ← hw.exact δ]
  simp [dues, weight, empty, Worker.openRegistry]

theorem Charged.createUnaccounted : Charged w.createUnaccountedSubscriptionRegistry := by
  refine ⟨⟨hw.sound.nonneg, hw.sound.counter, hw.sound.negatives⟩, fun δ => ?_⟩
  rw [holders_createUnaccounted, total_append, ← hw.exact δ]
  simp [dues, Worker.createUnaccountedSubscriptionRegistry]

/-- A registry that grows or shrinks is charged for it, unless it is marked. -/
theorem Charged.change (hs : w.sets[r]? = some s) {d : ℤ}
    (hweight : ∀ δ, weight δ s' = weight δ s + d * δ topic)
    (hd : w.states.get r = none → ∀ δ : JsString → ℤ, (∀ t, 0 ≤ δ t) →
      0 ≤ weightOfDeltas δ w.deltas + d * δ topic) :
    Charged (if { w with sets := w.sets.set r s' }.states.get r = none then
      { w with sets := w.sets.set r s' }.accountSubscriptionDelta d topic
      else { w with sets := w.sets.set r s' }) := by
  have hsound : Sound { w with sets := w.sets.set r s' } :=
    ⟨hw.sound.nonneg, hw.sound.counter, hw.sound.negatives⟩
  have hold := getElem?_holders hs
  split_ifs with hlive
  · refine ⟨hsound.charge (hd hlive), fun δ => ?_⟩
    obtain ⟨hsets, hstates, hdeltas⟩ :=
      accountSubscriptionDelta_sets { w with sets := w.sets.set r s' } d topic
    rw [Worker.holders, hsets, hstates, hdeltas, ← Worker.holders, holders_set,
      weightOfDeltas_append]
    refine balanced_set (hw.exact δ) hold ?_
    have hlive' : w.states.get r = none := hlive
    simp only [dues, if_pos hlive', hweight, weightOfDeltas, map_cons, map_nil,
      sum_cons, sum_nil]
    omega
  · refine ⟨hsound, fun δ => ?_⟩
    rw [holders_set]
    refine balanced_set (hw.exact δ) hold ?_
    have hmarked : ¬ w.states.get r = none := hlive
    simp [dues, if_neg hmarked]

theorem Charged.add (hs : w.sets[r]? = some s) (topic : JsString) :
    Charged (w.addLogicalSubscription r s topic).2 := by
  rw [Worker.addLogicalSubscription]
  split_ifs with hmem
  · exact hw
  · refine hw.change hs (fun δ => ?_) fun _ δ hδ => ?_
    · rw [weight_add hmem, one_mul]
    · have hsum := hw.sound.nonneg w.deltas (prefix_refl _) δ hδ
      have htopic := hδ topic
      omega

theorem Charged.remove (hs : w.sets[r]? = some s) (topic : JsString) :
    Charged (w.removeLogicalSubscription r s topic).2 := by
  rw [Worker.removeLogicalSubscription]
  split_ifs with hmem
  · refine hw.change hs (fun δ => ?_) fun hlive δ hδ => ?_
    · rw [weight_delete hmem]
      omega
    · have hle := hw.weight_le hs hlive δ hδ
      have htopic : δ topic ≤ weight δ s := by
        refine single_le_sum ?_ _ (mem_map_of_mem (mem_elems.mpr hmem))
        intro n hn
        obtain ⟨t, -, rfl⟩ := mem_map.mp hn
        exact hδ t
      omega
  · exact hw

/-- A registry is settled: what it still owes is released, and it owes nothing from then on. -/
theorem Charged.accountClosed (hs : w.sets[r]? = some s) :
    Charged (w.accountClosedLogicalSubscriptions r s).2 := by
  have hsettled : Sound { w with states := w.states.set r .settled } :=
    ⟨hw.sound.nonneg, hw.sound.counter, hw.sound.negatives⟩
  have hold := getElem?_holders hs
  rw [Worker.accountClosedLogicalSubscriptions]
  cases hstate : w.states.get r with
  | none =>
    obtain ⟨hsound, hsets, hstates, hdeltas⟩ :=
      hsettled.release (l := s.elems) (hw.weight_le hs hstate)
    refine ⟨hsound, fun δ => ?_⟩
    simp only [reduceCtorEq, if_false, ne_eq, not_false_eq_true, if_true]
    rw [hdeltas, Worker.holders, hsets, hstates]
    change _ = total (dues δ) { w with states := w.states.set r .settled }.holders
    rw [holders_settle hs]
    refine balanced_set (hw.exact δ) hold ?_
    simp only [dues, hstate, weight, reduceCtorEq, if_false, if_true]
    omega
  | some mark =>
    cases mark with
    | settled => exact hw
    | unaccounted =>
      refine ⟨hsettled, fun δ => ?_⟩
      simp only [Option.some.injEq, reduceCtorEq, if_false, ne_eq, not_true_eq_false]
      rw [holders_settle hs]
      refine balanced_set (hw.exact δ) hold ?_
      simp [dues, hstate]

end

/-! ## Runs -/

theorem charged_start : Charged .start := by
  refine ⟨⟨fun p hp δ _ => ?_, rfl, rfl⟩, fun δ => rfl⟩
  rw [prefix_nil.mp hp]
  exact le_refl 0

theorem Charged.step {e : AccountingEvent} (hw : Charged w)
    (h : accountingMachine.step w e = some w') : Charged w' := by
  cases e with
  | openRegistry =>
    cases h
    exact hw.openRegistry
  | createUnaccounted copy =>
    cases h
    exact hw.createUnaccounted
  | add copy r topic =>
    obtain ⟨s, hs, rfl⟩ := Option.map_eq_some_iff.mp h
    exact hw.add hs topic
  | remove copy r topic =>
    obtain ⟨s, hs, rfl⟩ := Option.map_eq_some_iff.mp h
    exact hw.remove hs topic
  | accountClosed copy r =>
    obtain ⟨s, hs, rfl⟩ := Option.map_eq_some_iff.mp h
    exact hw.accountClosed hs
  | accountClosedCorrupt copy =>
    cases h
    exact hw

/-- The sum of the deltas, and the sum of the deltas of one topic. -/
def sumOfDeltas (deltas : List (ℤ × JsString)) : ℤ := (deltas.map Prod.fst).sum

def sumOfTopic (topic : JsString) (deltas : List (ℤ × JsString)) : ℤ :=
  sumOfDeltas (deltas.filter fun d => d.2 = topic)

theorem weightOfDeltas_one (deltas : List (ℤ × JsString)) :
    weightOfDeltas (fun _ => 1) deltas = sumOfDeltas deltas := by
  simp [weightOfDeltas, sumOfDeltas]

theorem weightOfDeltas_single (topic : JsString) (deltas : List (ℤ × JsString)) :
    weightOfDeltas (fun t => if t = topic then 1 else 0) deltas = sumOfTopic topic deltas := by
  induction deltas with
  | nil => rfl
  | cons d deltas ih =>
    rw [weightOfDeltas] at ih ⊢
    rw [sumOfTopic, sumOfDeltas] at ih ⊢
    rw [map_cons, sum_cons, ih]
    by_cases hd : d.2 = topic <;> simp [hd]

theorem sum_map_weight_one (l : List (JsSet JsString)) :
    (l.map (weight fun _ => 1)).sum = ((l.map size).sum : ℕ) := by
  induction l with
  | nil => rfl
  | cons s l ih =>
    rw [map_cons, sum_cons, ih, weight_one, map_cons, sum_cons]
    omega

theorem sum_map_weight_single (topic : JsString) (l : List (JsSet JsString)) :
    (l.map (weight fun t => if t = topic then 1 else 0)).sum =
      (l.countP fun s => decide (topic ∈ s) : ℕ) := by
  induction l with
  | nil => rfl
  | cons s l ih =>
    rw [map_cons, sum_cons, ih, weight_single, countP_cons]
    by_cases hs : topic ∈ s <;> simp [hs, Int.add_comm]

/-- In every run the deltas sum to the topics of the live registries, those of a topic to the live
registries that hold it, and neither sum was ever negative. The worker's counter is the sum, and
nothing is left of it once every accounted registry is settled. -/
theorem charged_of_reaches {es : List AccountingEvent} (hrun : accountingMachine.Reaches es w) :
    sumOfDeltas w.deltas = ((w.live.map JsSet.size).sum : ℕ) ∧
      (∀ topic, sumOfTopic topic w.deltas = (w.live.countP fun s => decide (topic ∈ s) : ℕ)) ∧
      (∀ p, p <+: w.deltas → 0 ≤ sumOfDeltas p ∧ ∀ topic, 0 ≤ sumOfTopic topic p) ∧
      w.totalSubscriptions = sumOfDeltas w.deltas ∧ w.negatives = 0 ∧
      (w.live = [] → w.totalSubscriptions = 0 ∧ ∀ topic, sumOfTopic topic w.deltas = 0) := by
  have hw : Charged w := hrun.invariant charged_start fun _ _ _ hI _ hstep => hI.step hstep
  have htotal : sumOfDeltas w.deltas = ((w.live.map size).sum : ℕ) := by
    rw [← weightOfDeltas_one, hw.exact, total_dues, sum_map_weight_one]
  have htopic : ∀ topic, sumOfTopic topic w.deltas =
      (w.live.countP fun s => decide (topic ∈ s) : ℕ) := by
    intro topic
    rw [← weightOfDeltas_single, hw.exact, total_dues, sum_map_weight_single]
  have hcounter : w.totalSubscriptions = sumOfDeltas w.deltas := by
    rw [hw.sound.counter, weightOfDeltas_one]
  refine ⟨htotal, htopic, fun p hp => ⟨?_, fun topic => ?_⟩, hcounter, hw.sound.negatives, ?_⟩
  · rw [← weightOfDeltas_one]
    exact hw.sound.nonneg p hp _ fun _ => Int.one_nonneg
  · rw [← weightOfDeltas_single]
    refine hw.sound.nonneg p hp _ fun t => ?_
    split_ifs <;> decide
  · intro hlive
    rw [hcounter, htotal, hlive]
    refine ⟨rfl, fun topic => ?_⟩
    rw [htopic, hlive]
    rfl

/-- A late release and a late addition, through different copies, on a closed connection. -/
theorem charged_of_reaches_lateRun : ∃ w : Worker,
    (sumOfDeltas w.deltas = ((w.live.map JsSet.size).sum : ℕ) ∧
      (∀ topic, sumOfTopic topic w.deltas = (w.live.countP fun s => decide (topic ∈ s) : ℕ)) ∧
      (∀ p, p <+: w.deltas → 0 ≤ sumOfDeltas p ∧ ∀ topic, 0 ≤ sumOfTopic topic p) ∧
      w.totalSubscriptions = sumOfDeltas w.deltas ∧ w.negatives = 0 ∧
      (w.live = [] → w.totalSubscriptions = 0 ∧ ∀ topic, sumOfTopic topic w.deltas = 0)) ∧
      w.deltas = [(1, lit "a"), (1, lit "b"), (1, lit "a"), (-1, lit "a"), (-1, lit "b")] ∧
      w.live.map JsSet.size = [1] := by
  obtain ⟨w, hrun, hp⟩ : ∃ w, accountingMachine.Reaches [.openRegistry, .openRegistry,
      .createUnaccounted 0, .add 0 0 (lit "a"), .add 1 0 (lit "b"), .add 0 1 (lit "a"),
      .add 1 2 (lit "a"), .accountClosed 0 0, .remove 1 0 (lit "a"), .add 0 0 (lit "c"),
      .accountClosed 1 0, .accountClosed 1 2] w ∧ w.deltas = [(1, lit "a"), (1, lit "b"),
      (1, lit "a"), (-1, lit "a"), (-1, lit "b")] ∧ w.live.map size = [1] :=
    Machine.exists_of_exec (by decide +kernel)
  exact ⟨w, charged_of_reaches hrun, hp⟩

end AdapterWs.Membership
