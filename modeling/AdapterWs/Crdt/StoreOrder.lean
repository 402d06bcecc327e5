import AdapterWs.Crdt.RecordStep

/-!
# CRDT authority: one store at a time

The stores of a record are chained, so a store is called only after every store before it
settled or was abandoned. `abandon` releases the chain of the abandoned store at once, whether or
not the stores before it are over, and a flush deadline abandons only the stores it was the last
one waiting on. When it abandons a queued store and leaves an earlier one in flight, the next
store is called beside that one.

`expiresInOrder` says of a flush deadline that it does not do this. Under it at most one store of
a record is outstanding; `overlappingRun` is a run in which two are.
-/

namespace AdapterWs.Crdt

open List Option TopicRecord StoreCall

variable {Y : Yjs} {Topic : Type} [DecidableEq Topic] {cfg : Config} {k : ℕ}

/-- The stores that were called, have not settled, and whose signal has not fired. -/
def outstanding (r : TopicRecord Y Topic) : List StoreCall :=
  r.stores.filter fun c => c.phase = .dispatched && !c.abandoned

/-- Whatever a flush gives up on a record, it also gives up the stores in flight before it. -/
def OldestFirst (token : FlushToken) (stores : List StoreCall) : Prop :=
  stores.Pairwise fun c d => d.lastWaiter token = true → c.inFlight = true →
    c.lastWaiter token = true

instance (token : FlushToken) (stores : List StoreCall) :
    Decidable (OldestFirst token stores) :=
  inferInstanceAs (Decidable (List.Pairwise _ _))

/-- A flush deadline never abandons a store behind one it leaves in flight. -/
def expiresInOrder (s : Authority Y Topic) : Event Topic → Bool
  | .flushDeadline f =>
    (s.flushes[f]?).all fun fl => fl.targets.all fun t =>
      t.topic ∉ fl.pending || (s.recs[t.record]?).all fun r => OldestFirst fl.token r.stores
  | _ => true

/-! ## The invariant -/

/-- The store left the queue, or what waits behind it may leave the queue. -/
def StoreCall.Passed (c : StoreCall) : Prop := c.phase ≠ .queued ∨ c.chain ≠ none

/-- A store passes only after every store before it is over. -/
structure Ordered (l : List StoreCall) : Prop where
  /-- Nothing before a passed store is in flight. -/
  before : ∀ (i j : ℕ) (c d : StoreCall), i < j → l[i]? = some c → l[j]? = some d → d.Passed → c.inFlight = false
  /-- A store whose chain resolved is over. -/
  released : ∀ (j : ℕ) (d : StoreCall), l[j]? = some d → d.chain ≠ none → d.inFlight = false

theorem ordered_nil : Ordered [] := by
  refine ⟨fun i j c d _ hc => ?_, fun j d hd => ?_⟩
  · simp at hc
  · simp at hd

variable {c : StoreCall}

theorem inFlight_congr {d : StoreCall} (ha : c.aborted = d.aborted) (hp : c.phase = d.phase) :
    c.inFlight = d.inFlight := by
  simp [inFlight, abandoned, ha, hp]

theorem inFlight_of_abandoned (h : c.abandoned = true) : c.inFlight = false := by
  simp [inFlight, h]

theorem inFlight_of_settled {outcome : Outcome} (h : c.phase = .settled outcome) :
    c.inFlight = false := by
  simp [inFlight, h]

variable {l : List StoreCall}

/-- Changing stores in place: what is over stays over, and a store that newly passes or whose
chain newly resolves finds everything up to it over. -/
theorem Ordered.change {l' : List StoreCall} (h : Ordered l)
    (hover : ∀ (k : ℕ) (c' : StoreCall), l'[k]? = some c' → ∃ c : StoreCall, l[k]? = some c ∧
      (c.inFlight = false → c'.inFlight = false))
    (hpass : ∀ (k : ℕ) (c' : StoreCall), l'[k]? = some c' → c'.Passed →
      (∃ c : StoreCall, l[k]? = some c ∧ c.Passed) ∨
      ∀ (i : ℕ) (d : StoreCall), i < k → l'[i]? = some d → d.inFlight = false)
    (hchain : ∀ (k : ℕ) (c' : StoreCall), l'[k]? = some c' → c'.chain ≠ none →
      (∃ c : StoreCall, l[k]? = some c ∧ c.chain ≠ none) ∨ c'.inFlight = false) : Ordered l' := by
  refine ⟨fun i j c' d' hij hc' hd' hp => ?_, fun j d' hd' hch => ?_⟩
  · rcases hpass j d' hd' hp with ⟨d, hd, hp⟩ | hall
    · obtain ⟨c, hc, hover⟩ := hover i c' hc'
      exact hover (h.before i j c d hij hc hd hp)
    · exact hall i c' hij hc'
  · rcases hchain j d' hd' hch with ⟨d, hd, hch⟩ | hover'
    · obtain ⟨c, hc, hover⟩ := hover j d' hd'
      rw [hd] at hc
      cases hc
      exact hover (h.released j d hd hch)
    · exact hover'

/-- A change of every store that keeps its phase, its signal and its chain. -/
theorem Ordered.map_same (h : Ordered l) {f : StoreCall → StoreCall}
    (hf : ∀ c, (f c).phase = c.phase ∧ (f c).aborted = c.aborted ∧ (f c).chain = c.chain) :
    Ordered (l.map f) := by
  have hget : ∀ (k : ℕ) c', (l.map f)[k]? = some c' → ∃ c, l[k]? = some c ∧ c' = f c := by
    intro k c' hc'
    rw [getElem?_map, map_eq_some_iff] at hc'
    obtain ⟨c, hc, rfl⟩ := hc'
    exact ⟨c, hc, rfl⟩
  refine h.change (fun k c' hc' => ?_) (fun k c' hc' hp => ?_) (fun k c' hc' hch => ?_)
  · obtain ⟨c, hc, rfl⟩ := hget k c' hc'
    refine ⟨c, hc, fun hover => ?_⟩
    rw [inFlight_congr (hf c).2.1 (hf c).1, hover]
  · obtain ⟨c, hc, rfl⟩ := hget k c' hc'
    refine .inl ⟨c, hc, ?_⟩
    rwa [Passed, (hf c).1, (hf c).2.2] at hp
  · obtain ⟨c, hc, rfl⟩ := hget k c' hc'
    exact .inl ⟨c, hc, (hf c).2.2 ▸ hch⟩

theorem Ordered.append (h : Ordered l) (hp : c.phase = .queued) (hch : c.chain = none) :
    Ordered (l ++ [c]) := by
  have hlast : ∀ (k : ℕ) d, (l ++ [c])[k]? = some d → l[k]? = some d ∨ d = c := by
    intro k d hd
    rw [getElem?_append] at hd
    by_cases hk : k < l.length
    · rw [if_pos hk] at hd
      exact .inl hd
    · rw [if_neg hk, getElem?_singleton] at hd
      split at hd
      · exact .inr (some.inj hd).symm
      · cases hd
  have hnot : ¬ c.Passed := by
    rintro (h₁ | h₁)
    · exact h₁ hp
    · exact h₁ hch
  refine ⟨fun i j d e hij hd he hpe => ?_, fun j d hd hchd => ?_⟩
  · rcases hlast j e he with he | rfl
    · have hi : i < l.length := by
        have := (List.getElem?_eq_some_iff.mp he).1
        omega
      rw [getElem?_append_left hi] at hd
      exact h.before i j d e hij hd he hpe
    · exact absurd hpe hnot
  · rcases hlast j d hd with hd | rfl
    · exact h.released j d hd hchd
    · exact absurd hch hchd

theorem Ordered.modify (h : Ordered l) {f : StoreCall → StoreCall} (hc : l[k]? = some c)
    (hover : c.inFlight = false → (f c).inFlight = false)
    (hpass : (f c).Passed → c.Passed ∨ ∀ (i : ℕ) (d : StoreCall), i < k → l[i]? = some d → d.inFlight = false)
    (hchain : (f c).chain ≠ none → c.chain ≠ none ∨ (f c).inFlight = false) :
    Ordered (l.modify k f) := by
  have hself : (l.modify k f)[k]? = some (f c) := by simp [hc]
  have hother : ∀ i, i ≠ k → (l.modify k f)[i]? = l[i]? := by
    intro i hi
    simp [Ne.symm hi]
  refine h.change (fun i c' hc' => ?_) (fun i c' hc' hp => ?_) (fun i c' hc' hch => ?_)
  all_goals by_cases hi : i = k
  · subst hi
    rw [hself, some.injEq] at hc'
    exact ⟨c, hc, hc' ▸ hover⟩
  · rw [hother i hi] at hc'
    exact ⟨c', hc', id⟩
  · subst hi
    rw [hself] at hc'
    cases hc'
    rcases hpass hp with hp | hall
    · exact .inl ⟨c, hc, hp⟩
    · refine .inr fun j d hj hd => hall j d hj ?_
      rwa [hother j (by omega)] at hd
  · rw [hother i hi] at hc'
    exact .inl ⟨c', hc', hp⟩
  · subst hi
    rw [hself] at hc'
    cases hc'
    rcases hchain hch with hch | hover'
    · exact .inl ⟨c, hc, hch⟩
    · exact .inr hover'
  · rw [hother i hi] at hc'
    exact .inl ⟨c', hc', hch⟩

/-! ## Every record step keeps the order -/

section Steps

variable {r r' : TopicRecord Y Topic} {live : Bool} {a : StoreAnswer}

omit [DecidableEq Topic]

theorem ordered_storeNow {flush : Option FlushToken} (h : Ordered r.stores) :
    Ordered (r.storeNow cfg flush).stores := by
  rw [storeNow_eq]
  by_cases hs : cfg.hasStore = true
  · simp only [if_pos hs]
    exact h.append rfl rfl
  · simpa only [if_neg hs, append_nil] using h

theorem ordered_unload {reason : String} :
    Ordered (r.unload reason).stores := by
  have hover : ∀ (k : ℕ) c', (r.unload reason).stores[k]? = some c' → c'.inFlight = false := by
    intro k c' hc'
    simp only [unload, abortInFlight, clearSchedule,
      getElem?_map, map_eq_some_iff] at hc'
    obtain ⟨c, hc, rfl⟩ := hc'
    by_cases hf : c.inFlight = true
    · rw [if_pos hf]
      exact inFlight_of_abandoned rfl
    · rw [if_neg hf]
      simpa using hf
  exact ⟨fun i j c d _ hc _ _ => hover i c hc, fun j d hd _ => hover j d hd⟩

/-- A deadline that expires oldest first abandons no store behind one it leaves in flight. -/
theorem ordered_expire {token : FlushToken} {reason : String} (h : Ordered r.stores)
    (hfirst : OldestFirst token r.stores) : Ordered (r.expire cfg live token reason).stores := by
  have hstores : (r.expire cfg live token reason).stores = r.stores.map fun c =>
      if c.lastWaiter token then (c.leave token).abandon reason false
      else if c.inFlight then c.leave token
      else c := by
    simp only [expire, requeue_eq]
    split
    · rfl
    · split <;> rfl
  rw [hstores]
  have hget : ∀ (k : ℕ) c', (r.stores.map fun c =>
      if c.lastWaiter token then (c.leave token).abandon reason false
      else if c.inFlight then c.leave token
      else c)[k]? = some c' → ∃ c, r.stores[k]? = some c ∧
        (c.inFlight = false → c'.inFlight = false) ∧
        (c.lastWaiter token = true → c'.inFlight = false) ∧
        (c.lastWaiter token = true ∨ c'.phase = c.phase ∧ c'.chain = c.chain) := by
    intro k c' hc'
    rw [getElem?_map, map_eq_some_iff] at hc'
    obtain ⟨c, hc, rfl⟩ := hc'
    refine ⟨c, hc, ?_⟩
    by_cases hl : c.lastWaiter token = true
    · rw [if_pos hl]
      exact ⟨fun _ => inFlight_of_abandoned rfl, fun _ => inFlight_of_abandoned rfl, .inl hl⟩
    · rw [if_neg hl]
      by_cases hf : c.inFlight = true
      · rw [if_pos hf]
        exact ⟨fun hn => absurd hf (by simp [hn]), fun hl' => absurd hl' hl, .inr ⟨rfl, rfl⟩⟩
      · rw [if_neg hf]
        exact ⟨id, fun hl' => absurd hl' hl, .inr ⟨rfl, rfl⟩⟩
  refine h.change (fun k c' hc' => ?_) (fun k c' hc' hp => ?_) (fun k c' hc' hch => ?_)
  · obtain ⟨c, hc, hover, -⟩ := hget k c' hc'
    exact ⟨c, hc, hover⟩
  · obtain ⟨c, hc, -, -, hl | ⟨hphase, hchain⟩⟩ := hget k c' hc'
    · -- a store given up here: everything in flight before it is given up as well
      refine .inr fun i d' hik hd' => ?_
      obtain ⟨d, hd, hover, hgiven, -⟩ := hget i d' hd'
      by_cases hf : d.inFlight = true
      · obtain ⟨hk, rfl⟩ := List.getElem?_eq_some_iff.mp hc
        obtain ⟨hi, rfl⟩ := List.getElem?_eq_some_iff.mp hd
        exact hgiven (List.pairwise_iff_getElem.mp hfirst i k hi hk hik hl hf)
      · exact hover (by simpa using hf)
    · refine .inl ⟨c, hc, ?_⟩
      rwa [Passed, hphase, hchain] at hp
  · obtain ⟨c, hc, -, hgiven, hl | ⟨-, hchain⟩⟩ := hget k c' hc'
    · exact .inr (hgiven hl)
    · exact .inl ⟨c, hc, hchain ▸ hch⟩

theorem ordered_dispatchStore (h : Ordered r.stores) (hc : r.stores[k]? = some c)
    (hp : c.phase = .queued) (hready : r.chainReady k = true) :
    Ordered (r.dispatchStore k).stores := by
  have hbefore : ∀ (i : ℕ) (d : StoreCall), i < k → r.stores[i]? = some d →
      d.inFlight = false := by
    intro i d hik hd
    cases k with
    | zero => omega
    | succ k =>
      simp only [chainReady, Option.any_eq_true] at hready
      obtain ⟨e, he, hch⟩ := hready
      have hch : e.chain ≠ none := by
        intro hn
        simp [hn] at hch
      by_cases hik' : i = k
      · subst hik'
        rw [hd, some.injEq] at he
        exact he ▸ h.released i d hd (he ▸ hch)
      · exact h.before i k d e (by omega) hd he (.inr hch)
  refine h.modify hc (fun hover => ?_) (fun _ => .inr hbefore) (fun hch => ?_)
  · by_cases ha : c.abandoned = true
    · rw [if_pos ha]
      exact inFlight_of_abandoned ha
    · rw [Bool.not_eq_true] at ha
      simp [inFlight, ha, hp] at hover
  · refine .inl ?_
    by_cases ha : c.abandoned = true
    · rwa [if_pos ha] at hch
    · rwa [if_neg ha] at hch

theorem ordered_answerStore (h : Ordered r.stores) (hc : r.stores[k]? = some c)
    (hp : c.phase = .dispatched) : Ordered (r.answerStore k a).stores := by
  refine h.modify hc (fun hover => ?_) (fun _ => .inl (.inl (by simp [hp]))) .inl
  have ha : c.abandoned = true := by
    simpa [inFlight, hp] using hover
  exact inFlight_of_abandoned ha

theorem ordered_settle (outcome : Outcome) (h : Ordered r.stores) (hc : r.stores[k]? = some c)
    (hp : c.phase = .answered a) :
    Ordered (r.stores.modify k fun c => { c with phase := .settled outcome }) :=
  h.modify hc (fun _ => inFlight_of_settled rfl) (fun _ => .inl (.inl (by simp [hp]))) .inl

section

variable (h : Ordered r.stores)
include h

theorem ordered_settleStore (hc : r.stores[k]? = some c) (hp : c.phase = .answered a) :
    Ordered (r.settleStore cfg live k c a).2.stores := by
  have hset := ordered_settle (outcomeOf c.abandoned a) h hc hp
  simp only [settleStore, requeue_eq]
  split
  · exact hset
  · split
    · exact hset
    · split <;> exact hset
    · split
      · split
        · exact ordered_storeNow hset
        · exact hset
      · exact hset

theorem ordered_settleChain {outcome : Outcome} (hc : r.stores[k]? = some c)
    (hp : c.phase = .settled outcome) : Ordered (r.settleChain k outcome).stores :=
  h.modify hc (fun _ => inFlight_of_settled hp) (fun _ => .inl (.inl (by simp [hp])))
    fun _ => .inr (inFlight_of_settled hp)

/-- The order of a record's stores is kept by everything that can happen to it, where deadlines
expire oldest first. -/
theorem ordered_recordStep {live' : Bool}
    (hs : RecordStep cfg ⟨fun token r => OldestFirst token r.stores, True⟩ live live' r r') :
    Ordered r'.stores := by
  cases hs with
  | rejoin => exact h
  | refer => exact h
  | dropRef =>
    simp only [dropRef]
    split
    · exact h
    · split
      · exact ordered_storeNow h
      · exact h
  | edit u8 =>
    simp only [edit, scheduleStore]
    split
    · split
      · exact ordered_storeNow h
      · split <;> exact h
    · exact h
  | flushOne token =>
    have hjoin : Ordered (r.stores.map fun c => if c.inFlight then c.join token else c) :=
      h.map_same fun c => by split <;> exact ⟨rfl, rfl, rfl⟩
    simp only [flushOne]
    split
    · exact ordered_storeNow hjoin
    · exact hjoin
  | forgetFlush token => exact h.map_same fun c => by split <;> exact ⟨rfl, rfl, rfl⟩
  | expire token reason hfirst => exact ordered_expire h hfirst
  | fire =>
    simp only [fire]
    split
    · exact ordered_storeNow h
    · exact h
  | loading => exact h
  | hydrate _ malformed a hp hh =>
    obtain ⟨doc, rfl, -⟩ := hydrate_ok hh
    exact h
  | dispatchStore k c hc hp hready => exact ordered_dispatchStore h hc hp hready
  | answerStore k c a hc hp => exact ordered_answerStore h hc hp
  | settleStore k c a hc hp => exact ordered_settleStore h hc hp
  | settleChain k c outcome hc hp => exact ordered_settleChain h hc hp
  | unload => exact ordered_unload

/-- In an ordered record at most one store is outstanding. -/
theorem outstanding_length_le : (outstanding r).length ≤ 1 := by
  have hpair : r.stores.Pairwise fun c d =>
      ¬ ((c.phase = .dispatched && !c.abandoned) = true ∧
        (d.phase = .dispatched && !d.abandoned) = true) := by
    refine pairwise_iff_getElem.mpr fun i j hi hj hij => ?_
    rintro ⟨hc, hd⟩
    simp only [Bool.and_eq_true, decide_eq_true_eq, Bool.not_eq_true'] at hc hd
    have hover := h.before i j _ _ hij (getElem?_eq_getElem hi) (getElem?_eq_getElem hj)
      (.inl (by simp [hd.1]))
    simp [inFlight, hc.1, hc.2] at hover
  have hfilter := hpair.filter fun c => c.phase = .dispatched && !c.abandoned
  unfold outstanding
  cases hl : r.stores.filter fun c => c.phase = .dispatched && !c.abandoned with
  | nil => simp
  | cons c l =>
    cases l with
    | nil => simp
    | cons d l =>
      rw [hl] at hfilter
      have hcd := (pairwise_cons.mp hfilter).1 d (by simp)
      have hmem : ∀ e ∈ c :: d :: l, (e.phase = .dispatched && !e.abandoned) = true := by
        intro e he
        rw [← hl] at he
        exact (mem_filter.mp he).2
      exact absurd ⟨hmem c (by simp), hmem d (by simp)⟩ hcd

end

end Steps

/-! ## Runs -/

/-- Every record of the heap is ordered. -/
def AllOrdered (s : Authority Y Topic) : Prop :=
  ∀ (i : ℕ) r, s.recs[i]? = some r → Ordered r.stores

theorem allOrdered_step {s s' : Authority Y Topic} {e : Event Topic} (hm : s.Mapped)
    (h : AllOrdered s) (hok : expiresInOrder s e = true) (hs : s.step cfg e = some s') :
    AllOrdered s' := by
  have hmay : Authority.Allows ⟨fun token r => OldestFirst token r.stores, True⟩ s e := by
    refine ⟨?_, fun _ _ => trivial, fun _ _ _ => trivial⟩
    rintro f fl t r rfl hfl - ht hp hr
    simp only [expiresInOrder, hfl, Option.all_some, List.all_eq_true] at hok
    simpa [hp, hr] using hok t ht
  intro i r' hr'
  rcases Authority.step_records hm hmay hs hr' with ⟨t, id, rfl, -⟩ | ⟨r, hr, hsteps, -⟩
  · exact ordered_nil
  · exact RecordSteps.invariant (I := fun q => Ordered q.stores)
      (fun _ _ hq hqs => ordered_recordStep hq hqs) hsteps (h i r hr)

/-- At every moment of a run whose flush deadlines expire in order, at most one store of a record
was dispatched to the host, has not settled and has not been abandoned. -/
theorem outstanding_le_one {es : List (Event Topic)} {s : Authority Y Topic}
    (h : (crdtAuthority Y Topic cfg).ReachesWhere (fun s e => expiresInOrder s e = true) es s)
    {i : ℕ} {r : TopicRecord Y Topic} (hr : s.recs[i]? = some r) :
    (outstanding r).length ≤ 1 := by
  have hinv : s.Mapped ∧ AllOrdered s := by
    refine Machine.ReachesWhere.invariant (I := fun s => s.Mapped ∧ AllOrdered s) ?_ ?_ h
    · refine ⟨Authority.mapped_start, fun i r hr => ?_⟩
      simp [crdtAuthority, Authority.start] at hr
    · intro s e s' hs hok hstep
      exact ⟨Authority.mapped_step hs.1 hstep, allOrdered_step hs.1 hs.2 hok hstep⟩
  exact outstanding_length_le (hinv.2 i r hr)

/-- A flush gives up a store that hangs, and the retry is called while the host may still be
working on the store given up. -/
def abandonedRun : List (Event ℕ) :=
  warmRun ++ [.persistNow .undefined (.bag (.number 1000)) 0, .storeDispatches 0 0,
    .flushDeadline 0, .timerFires 0, .storeDispatches 0 1]

theorem outstanding_le_one_abandonedRun :
    ∃ s : Authority Yjs.log ℕ,
      (crdtAuthority Yjs.log ℕ (Config.defaults true)).ReachesWhere
        (fun s e => expiresInOrder s e = true) abandonedRun s ∧
      ∃ r, s.recs[0]? = some r ∧
        r.stores.map (fun c => (c.phase, c.abandoned)) =
          [(.dispatched, true), (.dispatched, false)] ∧
        (outstanding r).length ≤ 1 := by
  obtain ⟨s, hs, hp⟩ : ∃ s, (crdtAuthority Yjs.log ℕ (Config.defaults true)).ReachesWhere
      (fun s e => expiresInOrder s e = true) abandonedRun s ∧ (s.recs[0]?).any fun r =>
      r.stores.map (fun c => (c.phase, c.abandoned)) =
        [(.dispatched, true), (.dispatched, false)] :=
    Machine.exists_of_execWhere (by decide +kernel)
  obtain ⟨r, hr, hp⟩ := (any_eq_true _ _).mp hp
  exact ⟨s, hs, r, hr, of_decide_eq_true hp, outstanding_le_one hs hr⟩

/-- A flush without a deadline awaits a hanging store; a second one joins it, arms a store behind
it, and runs out of budget. Only the queued store is given up, its chain is released, and the
retry is called beside the hanging store. -/
def overlappingRun : List (Event ℕ) :=
  warmRun ++ [.persistNow .undefined (.bag .infinity) 0, .storeDispatches 0 0,
    .applyUpdate 0 (.uint8Array [2]) 10, .persistNow .undefined (.bag (.number 1000)) 10,
    .flushDeadline 1, .timerFires 0, .storeDispatches 0 2]

/-- Two stores of a live record outstanding at once, neither of them abandoned. -/
theorem two_outstanding :
    ¬ ∀ (es : List (Event ℕ)) (s : Authority Yjs.log ℕ),
      (crdtAuthority Yjs.log ℕ (Config.defaults true)).Reaches es s →
        ∀ (i : ℕ) r, s.live i = true → s.recs[i]? = some r → (outstanding r).length ≤ 1 := by
  intro h
  obtain ⟨s, hs, hp⟩ : ∃ s, (crdtAuthority Yjs.log ℕ (Config.defaults true)).Reaches overlappingRun
      s ∧ (s.live 0 && (s.recs[0]?).any fun r => (outstanding r).length = 2) = true :=
    Machine.exists_of_exec (by decide +kernel)
  rw [Bool.and_eq_true, Option.any_eq_true] at hp
  obtain ⟨hlive, r, hr, hp⟩ := hp
  have := h _ s hs 0 r hlive hr
  rw [of_decide_eq_true hp] at this
  omega

end AdapterWs.Crdt
