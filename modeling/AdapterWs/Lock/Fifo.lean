import AdapterWs.Lock.Exclusion
import AdapterWs.Lock.History

/-!
# First come, first served

In a run without a clear a key is named from the start of its first function until its queue has
run dry. Its accepted calls that have not given up are the functions started for it, in their
order, and behind them the waiters that have not given up. The record of the run tells each call's
settlement: its function's outcome or the timeout, once.
-/

namespace AdapterWs.Lock

open JsString List LockRegistry LockHistory

variable {o : LockOptions} {s s' : LockRegistry} {V : Type} {h h' : LockHistory V} {w : Waiter}
  {call : ℕ} {hd : Holder} {key : JsString} {i : ℕ} {ks : KeyState} {e : LockError}
  {result : Except V V}

/-! ## The promise -/

namespace LockHistory

/-- The call of a settlement with an error of the lock. -/
def failedCall (t : ℕ × Settlement V) : Option ℕ :=
  match t.2 with
  | .failed _ => some t.1
  | .outcome _ => none

/-- The calls that the lock rejected, at once or later. -/
def failedCalls (h : LockHistory V) : List ℕ := h.settlements.filterMap failedCall

/-- The accepted calls of a key that were not rejected later. -/
def keptCalls (h : LockHistory V) (key : JsString) : List ℕ :=
  (h.accepted.filter fun a => a.2 = key ∧ a.1 ∉ h.failedCalls).map Prod.fst

/-- The calls of a key whose functions were started, in the order of the starts. -/
def startedOf (h : LockHistory V) (key : JsString) : List ℕ :=
  (h.started.filter fun hd => hd.key = key).map Holder.call

end LockHistory

/-- What a lock promises of a run. -/
structure FifoLock (es : List (HistoryEvent V)) (h : LockHistory V) : Prop where
  /-- The functions of a key run one at a time. -/
  exclusive : ∀ key, (h.lock.holders.filter fun hd => hd.key = key).length ≤ 1
  /-- The calls are numbered in their order. -/
  ascending : (h.accepted.map Prod.fst).Pairwise (· < ·)
  /-- Every call is accepted or rejected. -/
  answered : ∀ call < h.lock.calls, call ∈ h.accepted.map Prod.fst ∨ call ∈ h.failedCalls
  /-- The functions of a key are started in the order of the calls that do not time out. -/
  order : ∀ key, h.keptCalls key = h.startedOf key ++ h.waitingCalls key
  started_once : h.startedCalls.Nodup
  settled_once : h.settledCalls.Nodup
  /-- An accepted call is settled with its function's outcome, or with a timeout and its function
  is not started. -/
  settled_with : ∀ a ∈ h.accepted, ∀ t, (a.1, t) ∈ h.settlements →
    (∃ result, t = .outcome result ∧ a.1 ∈ h.startedCalls ∧ .settle a.1 result ∈ es) ∨
      ∃ ms, t = .failed (.timedOut a.2 ms) ∧ a.1 ∉ h.startedCalls
  /-- The outcome of a function settles its call. -/
  settles : ∀ call result, .settle call result ∈ es → (call, .outcome result) ∈ h.settlements
  /-- Where no function of a key runs, no caller waits for it and no entry is left. -/
  released : ∀ key, (∀ hd ∈ h.lock.holders, hd.key ≠ key) →
    h.waitingCalls key = [] ∧ h.lock.states.get key = none

/-! ## The calls that wait -/

/-- The waiters that have not given up, by their calls. -/
def liveOf (queue : List Waiter) : List ℕ := (queue.filter fun w => !w.cancelled).map Waiter.call

/-- The waiters of a key that have not given up. -/
def LockRegistry.liveCalls (s : LockRegistry) (key : JsString) : List ℕ := liveOf (s.queueOf key)

@[simp] theorem liveOf_nil : liveOf [] = [] := rfl

theorem liveOf_append (queue queue' : List Waiter) :
    liveOf (queue ++ queue') = liveOf queue ++ liveOf queue' := by
  simp [liveOf]

theorem liveOf_dropWhile (queue : List Waiter) :
    liveOf (queue.dropWhile Waiter.cancelled) = liveOf queue := by
  induction queue with
  | nil => rfl
  | cons w queue ih =>
    by_cases hw : w.cancelled = true
    · rw [dropWhile_cons_of_pos hw, ih]
      simp [liveOf, hw]
    · rw [dropWhile_cons_of_neg hw]

theorem liveOf_cons (hw : w.cancelled = false) (queue : List Waiter) :
    liveOf (w :: queue) = w.call :: liveOf queue := by
  simp [liveOf, hw]

/-- A timeout takes its call out of the ones that wait. -/
theorem liveOf_cancel (call : ℕ) (queue : List Waiter) :
    liveOf (queue.map fun w => if w.call = call then w.cancel else w) =
      (liveOf queue).filter fun c => c ≠ call := by
  induction queue with
  | nil => rfl
  | cons w queue ih =>
    rw [liveOf] at ih ⊢
    by_cases hcall : w.call = call <;> by_cases hw : w.cancelled = true <;>
      simp_all [liveOf, Waiter.cancel]

theorem mem_liveOf {queue : List Waiter} :
    call ∈ liveOf queue ↔ ∃ w ∈ queue, w.cancelled = false ∧ w.call = call := by
  simp [liveOf, and_assoc]

/-! ## The invariant -/

/-- A lock without a clear and the record of its calls. -/
structure Ordered (h : LockHistory V) : Prop where
  owned : Owned h.lock
  clears : h.lock.clears = 0
  ascending : (h.accepted.map Prod.fst).Pairwise (· < ·)
  accepted_lt : ∀ a ∈ h.accepted, a.1 < h.lock.calls
  answered : ∀ call < h.lock.calls, call ∈ h.accepted.map Prod.fst ∨ call ∈ h.failedCalls
  order : ∀ key, h.keptCalls key = h.startedOf key ++ h.lock.liveCalls key
  started_once : h.startedCalls.Nodup
  settled_once : h.settledCalls.Nodup
  /-- A call has one function that runs. -/
  holders_once : (h.lock.holders.map Holder.call).Nodup
  /-- A function that runs has not settled. -/
  unsettled : ∀ hd ∈ h.lock.holders, hd.call ∉ h.settledCalls
  /-- An outcome is the one of a function that was started. -/
  outcomes : ∀ call result, (call, .outcome result) ∈ h.settlements → call ∈ h.startedCalls
  /-- A call that the lock rejected is never started, and was refused or timed out. -/
  failures : ∀ call e, (call, .failed e) ∈ h.settlements → call ∉ h.startedCalls ∧
    ∀ key, (call, key) ∈ h.accepted → ∃ ms, e = .timedOut key ms

theorem ordered_init : Ordered (historyMachine V o).init where
  owned := owned_create
  clears := rfl
  ascending := List.Pairwise.nil
  accepted_lt _ ha := absurd ha not_mem_nil
  answered _ hlt := absurd hlt (Nat.not_lt_zero _)
  order _ := rfl
  started_once := nodup_nil
  settled_once := nodup_nil
  holders_once := nodup_nil
  unsettled _ hh := absurd hh not_mem_nil
  outcomes _ _ hh := absurd hh not_mem_nil
  failures _ _ hh := absurd hh not_mem_nil

theorem Ordered.current (hs : Ordered h) (hmem : hd ∈ h.lock.holders) :
    h.lock.states.get hd.key = some hd.state := by
  have hle := hs.owned.since_le hd hmem
  have hclears := hs.clears
  exact hs.owned.current hd hmem (by omega)

theorem LockHistory.mem_failedCalls :
    call ∈ h.failedCalls ↔ ∃ e, (call, .failed e) ∈ h.settlements := by
  rw [failedCalls, mem_filterMap]
  constructor
  · rintro ⟨⟨c, t⟩, hmem, ht⟩
    cases t with
    | outcome result => cases ht
    | failed e =>
      cases ht
      exact ⟨e, hmem⟩
  · rintro ⟨e, hmem⟩
    exact ⟨_, hmem, rfl⟩

theorem LockHistory.settled_of_failed (hmem : call ∈ h.failedCalls) : call ∈ h.settledCalls := by
  obtain ⟨e, he⟩ := mem_failedCalls.mp hmem
  exact mem_map.mpr ⟨_, he, rfl⟩

/-- The callers that wait are the waiters that have not given up. -/
theorem Ordered.waitingCalls_eq (hs : Ordered h) (hl : Logged h) (key : JsString) :
    h.waitingCalls key = h.lock.liveCalls key := by
  have hfilter : h.waitingCalls key =
      (h.keptCalls key).filter fun call => call ∉ h.startedCalls ∧ call ∉ h.settledCalls := by
    rw [waitingCalls, keptCalls, filter_map, filter_filter]
    congr 1
    refine filter_congr fun a _ => ?_
    have hfailed : a.1 ∈ h.failedCalls → a.1 ∈ h.settledCalls := settled_of_failed
    simp only [Function.comp_def, ← Bool.decide_and]
    rw [decide_eq_decide]
    tauto
  have hstarted : (h.startedOf key).filter
      (fun call => call ∉ h.startedCalls ∧ call ∉ h.settledCalls) = [] := by
    rw [filter_eq_nil_iff]
    intro call hcall
    obtain ⟨hd, hhd, rfl⟩ := mem_map.mp hcall
    have hmem : hd.call ∈ h.startedCalls := mem_map_of_mem (mem_filter.mp hhd).1
    simp [hmem]
  have hlive : (h.lock.liveCalls key).filter
      (fun call => call ∉ h.startedCalls ∧ call ∉ h.settledCalls) = h.lock.liveCalls key := by
    rw [filter_eq_self]
    intro call hcall
    obtain ⟨w, hw, hcancelled, rfl⟩ := mem_liveOf.mp hcall
    rw [queueOf] at hw
    cases hget : h.lock.states.get key with
    | none => simp [hget] at hw
    | some i =>
      rw [hget] at hw
      obtain ⟨-, hstarted, hsettled⟩ := hl.live i w hw hcancelled
      simp [hstarted, hsettled]
  rw [hfilter, hs.order key, filter_append, hstarted, hlive, nil_append]

/-! ## The calls that wait, after a step -/

theorem LockRegistry.liveCalls_of_get (hi : s.states.get key = some i) :
    s.liveCalls key = liveOf (queueAt s.heap i) := by
  rw [liveCalls, queueOf_of_get hi]

theorem LockRegistry.liveCalls_of_none (hkey : s.states.get key = none) : s.liveCalls key = [] := by
  rw [liveCalls, queueOf, hkey]
  rfl

/-- The waiters of a key where it names the same queue as before. -/
theorem LockRegistry.liveCalls_congr (hget : s'.states.get key = s.states.get key)
    (hqueue : ∀ i, s.states.get key = some i → queueAt s'.heap i = queueAt s.heap i) :
    s'.liveCalls key = s.liveCalls key := by
  cases hi : s.states.get key with
  | none => rw [liveCalls_of_none hi, liveCalls_of_none (hget.trans hi)]
  | some i => rw [liveCalls_of_get hi, liveCalls_of_get (hget.trans hi), hqueue i hi]

theorem liveCalls_afterAcquired (hkey : s.states.get key = none) (key' : JsString) :
    (s.afterAcquired key).liveCalls key' = s.liveCalls key' := by
  by_cases hk : key = key'
  · subst hk
    have hget : (s.afterAcquired key).states.get key = some s.heap.length := by
      simp [afterAcquired, runHead]
    rw [liveCalls_of_none hkey, liveCalls_of_get hget]
    simp [afterAcquired, runHead, queueAt]
  · refine liveCalls_congr ?_ fun i _ => queueAt_concat _ _ _
    simp [afterAcquired, runHead, JsMap.get_set, hk]

theorem liveCalls_afterQueued (hn : Named s) (hkey : s.states.get key = some i)
    (hks : s.heap[i]? = some ks) (ms : Option ℕ) (key' : JsString) :
    (s.afterQueued i ks (s.nextWaiter key ms)).liveCalls key' =
      s.liveCalls key' ++ if key = key' then [s.calls] else [] := by
  have hlt := hn.lt hkey
  by_cases hk : key = key'
  · subst hk
    have hget : (s.afterQueued i ks (s.nextWaiter key ms)).states.get key = some i := hkey
    rw [liveCalls_of_get hkey, liveCalls_of_get hget, if_pos rfl,
      afterQueued, queueAt_set hlt, if_pos rfl, queueAt_of_getElem? hks,
      liveOf_append]
    rfl
  · rw [if_neg hk, append_nil]
    refine liveCalls_congr rfl fun j hj => ?_
    rw [afterQueued, queueAt_set hlt, if_neg]
    rintro rfl
    exact hk (hn.injective key key' i hkey hj)

theorem liveCalls_afterPromoted (hn : Named s) (hmem : hd ∈ s.holders)
    (hkey : s.states.get hd.key = some hd.state) (hks : s.heap[hd.state]? = some ks)
    {queue : List Waiter} (hdrop : ks.queue.dropWhile Waiter.cancelled = w :: queue)
    (key : JsString) :
    s.liveCalls key =
      (if hd.key = key then [w.call] else []) ++
        (s.afterPromoted hd ks w queue).liveCalls key := by
  have hlt := hn.exists_state hd hmem
  by_cases hk : hd.key = key
  · subst hk
    have hget : (s.afterPromoted hd ks w queue).states.get hd.key = some hd.state := hkey
    rw [liveCalls_of_get hkey, liveCalls_of_get hget, if_pos rfl,
      queueAt_of_getElem? hks, ← liveOf_dropWhile, hdrop,
      liveOf_cons (promoted_of_dropWhile hdrop).2.1, afterPromoted,
      runHead, queueAt_set hlt, if_pos rfl]
    rfl
  · rw [if_neg hk, nil_append]
    symm
    refine liveCalls_congr rfl fun j hj => ?_
    rw [afterPromoted, runHead, queueAt_set hlt, if_neg]
    rintro rfl
    exact hk (hn.owner hd hmem key hj).symm

theorem liveCalls_afterReleased (hn : Named s) (hmem : hd ∈ s.holders)
    (hkey : s.states.get hd.key = some hd.state) (hks : s.heap[hd.state]? = some ks)
    (hall : ∀ w ∈ ks.queue, w.cancelled = true) (key : JsString) :
    (s.afterReleased hd).liveCalls key = s.liveCalls key := by
  have hlt := hn.exists_state hd hmem
  by_cases hk : hd.key = key
  · subst hk
    have hget : (s.afterReleased hd).states.get hd.key = none := by
      simp [afterReleased]
    have hnil : ks.queue.dropWhile Waiter.cancelled = [] := dropWhile_eq_nil_iff.mpr hall
    rw [liveCalls_of_none hget, liveCalls_of_get hkey,
      queueAt_of_getElem? hks, ← liveOf_dropWhile, hnil, liveOf_nil]
  · refine liveCalls_congr ?_ fun j hj => ?_
    · simp [afterReleased, JsMap.get_delete, hk]
    · rw [afterReleased, queueAt_set hlt, if_neg]
      rintro rfl
      exact hk (hn.owner hd hmem key hj).symm

theorem liveCalls_recordTimedOut (h : LockHistory V) (w : Waiter) (ms : ℕ) (key : JsString) :
    (h.recordTimedOut w ms).lock.liveCalls key =
      (h.lock.liveCalls key).filter fun call => call ≠ w.call := by
  cases hi : h.lock.states.get key with
  | none =>
    rw [liveCalls_of_none hi, liveCalls_of_none]
    · rfl
    · exact hi
  | some i =>
    have hget : (h.recordTimedOut w ms).lock.states.get key = some i := hi
    rw [liveCalls_of_get hi, liveCalls_of_get hget, ← liveOf_cancel,
      ← queueAt_map_cancelCall]
    rfl

/-! ## The calls that are kept, after a step -/

/-- A new call is put at the end of a list without repetitions. -/
theorem nodup_snoc {l : List ℕ} (hl : l.Nodup) (hcall : call ∉ l) : (l ++ [call]).Nodup := by
  simpa using List.Nodup.concat hcall hl

theorem LockHistory.failedCalls_append (settlements : List (ℕ × Settlement V))
    (t : ℕ × Settlement V) (hsettlements : h'.settlements = settlements ++ [t]) :
    h'.failedCalls = settlements.filterMap failedCall ++ (failedCall t).toList := by
  rw [failedCalls, hsettlements, filterMap_append]
  cases ht : failedCall t <;> simp [ht]

section

variable (h h')

theorem LockHistory.keptCalls_concat (haccepted : h'.accepted = h.accepted ++ [(call, key)])
    (hsettlements : h'.settlements = h.settlements) (hcall : call ∉ h.failedCalls) (key' : JsString) :
    h'.keptCalls key' = h.keptCalls key' ++ if key = key' then [call] else [] := by
  have hfailed : h'.failedCalls = h.failedCalls := by rw [failedCalls, failedCalls, hsettlements]
  rw [keptCalls, keptCalls, haccepted, hfailed, filter_append, map_append]
  congr 1
  by_cases hk : key = key' <;> simp [hk, hcall]

theorem LockHistory.keptCalls_failed (haccepted : h'.accepted = h.accepted)
    (hsettlements : h'.settlements = h.settlements ++ [(call, .failed e)]) (key : JsString) :
    h'.keptCalls key = (h.keptCalls key).filter fun c => c ≠ call := by
  have hfailed : h'.failedCalls = h.failedCalls ++ [call] :=
    failedCalls_append h.settlements _ hsettlements
  rw [keptCalls, keptCalls, haccepted, hfailed, filter_map, filter_filter]
  congr 1
  refine filter_congr fun a _ => ?_
  simp only [Function.comp_def, mem_append, mem_singleton, ← Bool.decide_and]
  rw [decide_eq_decide]
  tauto

theorem LockHistory.keptCalls_outcome (haccepted : h'.accepted = h.accepted)
    (hsettlements : h'.settlements = h.settlements ++ [(call, .outcome result)]) (key : JsString) :
    h'.keptCalls key = h.keptCalls key := by
  have hfailed : h'.failedCalls = h.failedCalls := by
    rw [failedCalls_append h.settlements _ hsettlements]
    exact append_nil _
  rw [keptCalls, keptCalls, haccepted, hfailed]

theorem LockHistory.startedOf_concat (hstarted : h'.started = h.started ++ [hd]) (key : JsString) :
    h'.startedOf key = h.startedOf key ++ if hd.key = key then [hd.call] else [] := by
  rw [startedOf, startedOf, hstarted, filter_append, map_append]
  by_cases hk : hd.key = key <;> simp [hk]

end

/-! ## The steps -/

theorem Ordered.not_failed (hl : Logged h) : h.lock.calls ∉ h.failedCalls := by
  intro hmem
  exact absurd (hl.settled_lt _ (settled_of_failed hmem)) (lt_irrefl _)

section

variable (hs : Ordered h)
include hs

theorem Ordered.mem_accepted_lt (hmem : call ∈ h.accepted.map Prod.fst) : call < h.lock.calls := by
  obtain ⟨a, ha, rfl⟩ := mem_map.mp hmem
  exact hs.accepted_lt a ha

theorem Ordered.recordRejected (hl : Logged h) (howned : Owned (h.recordRejected e).lock) :
    Ordered (h.recordRejected e) where
  owned := howned
  clears := hs.clears
  ascending := hs.ascending
  accepted_lt a ha := Nat.lt_succ_of_lt (hs.accepted_lt a ha)
  answered call hlt := by
    rw [failedCalls_append h.settlements _ rfl]
    rcases Nat.lt_succ_iff_lt_or_eq.mp hlt with hlt | rfl
    · exact (hs.answered call hlt).imp_right (mem_append_left _)
    · exact .inr (mem_concat_self)
  order key := by
    rw [keptCalls_failed h (h.recordRejected e) rfl rfl, filter_eq_self.mpr]
    · exact hs.order key
    · intro call hcall
      obtain ⟨a, ha, rfl⟩ := mem_map.mp hcall
      have hlt := hs.accepted_lt a (mem_filter.mp ha).1
      simp [ne_of_lt hlt]
  started_once := hs.started_once
  settled_once := by
    have hfresh : h.lock.calls ∉ h.settledCalls := fun hmem =>
      absurd (hl.settled_lt _ hmem) (lt_irrefl _)
    simp only [LockHistory.settledCalls, LockHistory.recordRejected, map_append]
    exact nodup_snoc hs.settled_once hfresh
  holders_once := hs.holders_once
  unsettled hd hmem := by
    simp only [LockHistory.settledCalls, LockHistory.recordRejected, map_append,
      mem_append, not_or]
    refine ⟨hs.unsettled hd hmem, fun heq => ?_⟩
    have hlt := hl.started_lt _ (hl.running hd hmem)
    exact absurd (mem_singleton.mp heq) (ne_of_lt hlt)
  outcomes call result hmem := by
    rcases mem_append.mp hmem with hmem | hmem
    · exact hs.outcomes call result hmem
    · simp at hmem
  failures call e' hmem := by
    rcases mem_append.mp hmem with hmem | hmem
    · exact hs.failures call e' hmem
    · obtain ⟨rfl, -⟩ := Prod.mk.inj (mem_singleton.mp hmem)
      refine ⟨fun hstarted => ?_, fun key hacc => ?_⟩
      · exact absurd (hl.started_lt _ hstarted) (lt_irrefl _)
      · exact absurd (hs.accepted_lt _ hacc) (lt_irrefl _)

theorem Ordered.accept (h' : LockHistory V)
    (haccepted : h'.accepted = h.accepted ++ [(h.lock.calls, key)])
    (hcalls : h'.lock.calls = h.lock.calls + 1) (hsettlements : h'.settlements = h.settlements) :
    (h'.accepted.map Prod.fst).Pairwise (· < ·) ∧ (∀ a ∈ h'.accepted, a.1 < h'.lock.calls) ∧
      ∀ call < h'.lock.calls, call ∈ h'.accepted.map Prod.fst ∨ call ∈ h'.failedCalls := by
  have hfailed : h'.failedCalls = h.failedCalls := by
    rw [failedCalls, failedCalls, hsettlements]
  rw [haccepted, hcalls, hfailed, map_append]
  refine ⟨pairwise_append.mpr ⟨hs.ascending, pairwise_singleton .., ?_⟩, ?_, ?_⟩
  · intro call hcall call' hcall'
    rw [mem_singleton.mp hcall']
    exact hs.mem_accepted_lt hcall
  · intro a ha
    rcases mem_concat.mp ha with ha | rfl
    · exact Nat.lt_succ_of_lt (hs.accepted_lt a ha)
    · exact Nat.lt_succ_self _
  · intro call hlt
    rcases Nat.lt_succ_iff_lt_or_eq.mp hlt with hlt | rfl
    · exact (hs.answered call hlt).imp_left (mem_append_left _)
    · exact .inl (mem_concat_self)

/-- A call that the lock rejected is not accepted later. -/
theorem Ordered.accept_failures (hl : Logged h) (hmem : (call, .failed e) ∈ h.settlements)
    {key' : JsString} (hacc : (call, key') ∈ h.accepted ++ [(h.lock.calls, key)]) :
    ∃ ms, e = .timedOut key' ms := by
  rcases mem_append.mp hacc with hacc | hacc
  · exact (hs.failures call e hmem).2 key' hacc
  · obtain ⟨rfl, -⟩ := Prod.mk.inj (mem_singleton.mp hacc)
    exact absurd (hl.settled_lt _ (mem_map.mpr ⟨_, hmem, rfl⟩)) (lt_irrefl _)

theorem Ordered.recordAcquired (hl : Logged h) (hkey : h.lock.states.get key = none)
    (howned : Owned (h.recordAcquired key).lock) : Ordered (h.recordAcquired key) := by
  obtain ⟨hascending, hlt, hanswered⟩ := hs.accept (h.recordAcquired key) rfl rfl rfl
  have hfresh : ∀ call ∈ h.startedCalls, call ≠ h.lock.calls := fun call hmem =>
    ne_of_lt (hl.started_lt call hmem)
  refine ⟨howned, hs.clears, hascending, hlt, hanswered, fun key' => ?_, ?_, hs.settled_once, ?_,
    fun hd hmem => ?_, fun call result hmem => ?_, fun call e hmem => ?_⟩
  · have hlive : (h.recordAcquired key).lock.liveCalls key' = h.lock.liveCalls key' :=
      liveCalls_afterAcquired hkey key'
    have hempty : key = key' → h.lock.liveCalls key' = [] := by
      rintro rfl
      exact liveCalls_of_none hkey
    rw [keptCalls_concat h (h.recordAcquired key) rfl rfl (Ordered.not_failed hl), hs.order key',
      startedOf_concat h (h.recordAcquired key) rfl, hlive]
    by_cases hk : key = key'
    · simp [hk, hempty hk]
    · simp [hk]
  · rw [startedCalls_recordAcquired]
    exact nodup_snoc hs.started_once fun hmem => hfresh _ hmem rfl
  · simp only [LockHistory.recordAcquired, afterAcquired, runHead,
      map_append]
    refine nodup_snoc hs.holders_once fun hmem => ?_
    obtain ⟨hd, hhd, heq⟩ := mem_map.mp hmem
    exact hfresh _ (hl.running hd hhd) heq
  · rcases mem_concat.mp hmem with hmem | rfl
    · exact hs.unsettled hd hmem
    · exact fun hsettled => absurd (hl.settled_lt _ hsettled) (lt_irrefl _)
  · rw [startedCalls_recordAcquired]
    exact mem_append_left _ (hs.outcomes call result hmem)
  · rw [startedCalls_recordAcquired, mem_append, not_or]
    refine ⟨⟨(hs.failures call e hmem).1, fun heq => ?_⟩, fun key' =>
      hs.accept_failures hl hmem⟩
    rw [mem_singleton.mp heq] at hmem
    exact absurd (hl.settled_lt _ (mem_map.mpr ⟨_, hmem, rfl⟩)) (lt_irrefl _)

theorem Ordered.recordQueued (hl : Logged h) (hn : Named h.lock)
    (hkey : h.lock.states.get key = some i) (hks : h.lock.heap[i]? = some ks) {ms : Option ℕ}
    (howned : Owned (h.recordQueued key i ks ms).lock) : Ordered (h.recordQueued key i ks ms) := by
  obtain ⟨hascending, hlt, hanswered⟩ :=
    hs.accept (h.recordQueued key i ks ms) rfl rfl rfl
  refine ⟨howned, hs.clears, hascending, hlt, hanswered, fun key' => ?_, hs.started_once,
    hs.settled_once, hs.holders_once, hs.unsettled, hs.outcomes, fun call e hmem => ?_⟩
  · have hlive : (h.recordQueued key i ks ms).lock.liveCalls key' =
        h.lock.liveCalls key' ++ if key = key' then [h.lock.calls] else [] :=
      liveCalls_afterQueued hn hkey hks ms key'
    rw [keptCalls_concat h (h.recordQueued key i ks ms) rfl rfl (Ordered.not_failed hl), hs.order key',
      hlive, append_assoc]
    rfl
  · exact ⟨(hs.failures call e hmem).1, fun key' => hs.accept_failures hl hmem⟩

theorem Ordered.eq_of_call {hd' : Holder} (hmem : hd ∈ h.lock.holders)
    (hmem' : hd' ∈ h.lock.holders) (heq : hd.call = hd'.call) : hd = hd' :=
  inj_on_of_nodup_map hs.holders_once hmem hmem' heq

theorem Ordered.settled (h' : LockHistory V) (hmem : hd ∈ h.lock.holders)
    (hsettlements : h'.settlements = h.settlements ++ [(hd.call, .outcome result)]) :
    h'.settledCalls.Nodup ∧ (∀ hd' ∈ h.lock.holders.erase hd, hd'.call ∉ h'.settledCalls) ∧
      h'.failedCalls = h.failedCalls := by
  have hsettled : h'.settledCalls = h.settledCalls ++ [hd.call] := by
    simp [settledCalls, hsettlements]
  rw [hsettled]
  refine ⟨nodup_snoc hs.settled_once (hs.unsettled hd hmem), fun hd' hmem' hcall => ?_, ?_⟩
  · have hne := (mem_erase_holder hs.owned).mp hmem'
    rcases mem_append.mp hcall with hcall | hcall
    · exact hs.unsettled hd' hne.2 hcall
    · exact hne.1 (hs.eq_of_call hne.2 hmem (mem_singleton.mp hcall))
  · rw [failedCalls_append h.settlements _ hsettlements]
    exact append_nil _

theorem Ordered.outcome_started (hl : Logged h) (hmem : hd ∈ h.lock.holders) {result' : Except V V}
    (hout : (call, .outcome result') ∈ h.settlements ++ [(hd.call, .outcome result)]) :
    call ∈ h.startedCalls := by
  rcases mem_append.mp hout with hout | hout
  · exact hs.outcomes call result' hout
  · obtain ⟨rfl, -⟩ := Prod.mk.inj (mem_singleton.mp hout)
    exact hl.running hd hmem

end

theorem mem_failed_of_outcome {t : ℕ}
    (hmem : (call, .failed e) ∈ h.settlements ++ [(t, .outcome result)]) :
    (call, .failed e) ∈ h.settlements := by
  rcases mem_append.mp hmem with hmem | hmem
  · exact hmem
  · simp at hmem

theorem Ordered.recordPromoted (hs : Ordered h) (hl : Logged h) (hn : Named h.lock)
    (hmem : hd ∈ h.lock.holders) (hks : h.lock.heap[hd.state]? = some ks) {queue : List Waiter}
    (hdrop : ks.queue.dropWhile Waiter.cancelled = w :: queue)
    (howned : Owned (h.recordPromoted hd ks w queue result).lock) :
    Ordered (h.recordPromoted hd ks w queue result) := by
  obtain ⟨hsettled, hunsettled, hfailed⟩ :=
    hs.settled (h.recordPromoted hd ks w queue result) hmem rfl
  obtain ⟨hw, hlivew, -⟩ := promoted_of_dropWhile hdrop
  rw [← queueAt_of_getElem? hks] at hw
  obtain ⟨-, hstartedw, hsettledw⟩ := hl.live _ w hw hlivew
  have hrunning : ∀ hd' ∈ h.lock.holders, hd'.call ≠ w.call := fun hd' hmem' heq =>
    hstartedw (heq ▸ hl.running hd' hmem')
  refine ⟨howned, hs.clears, hs.ascending, hs.accepted_lt, fun call hlt => ?_, fun key => ?_, ?_,
    hsettled, ?_, fun hd' hmem' => ?_, fun call result' hout => ?_, fun call e hfail => ?_⟩
  · rw [hfailed]
    exact hs.answered call hlt
  · have hlive : h.lock.liveCalls key = (if hd.key = key then [w.call] else []) ++
        (h.recordPromoted hd ks w queue result).lock.liveCalls key :=
      liveCalls_afterPromoted hn hmem (hs.current hmem) hks hdrop key
    rw [keptCalls_outcome h (h.recordPromoted hd ks w queue result) rfl rfl,
      hs.order key, startedOf_concat h (h.recordPromoted hd ks w queue result) rfl,
      hlive, append_assoc]
  · rw [startedCalls_recordPromoted]
    exact nodup_snoc hs.started_once hstartedw
  · simp only [LockHistory.recordPromoted, afterPromoted, runHead,
      map_append]
    refine nodup_snoc (hs.holders_once.sublist ((erase_sublist).map _)) fun hcall => ?_
    obtain ⟨hd', hmem', heq⟩ := mem_map.mp hcall
    exact hrunning hd' (mem_of_mem_erase hmem') heq
  · rcases mem_concat.mp hmem' with hmem' | rfl
    · exact hunsettled hd' hmem'
    · rw [settledCalls_recordPromoted, mem_append,
        not_or, mem_singleton]
      exact ⟨hsettledw, (hrunning hd hmem).symm⟩
  · rw [startedCalls_recordPromoted]
    exact mem_append_left _ (hs.outcome_started hl hmem hout)
  · have hold := mem_failed_of_outcome (h := h) hfail
    obtain ⟨hnot, hacc⟩ := hs.failures call e hold
    rw [startedCalls_recordPromoted, mem_append, not_or, mem_singleton]
    refine ⟨⟨hnot, ?_⟩, hacc⟩
    rintro rfl
    exact hsettledw (mem_map.mpr ⟨_, hold, rfl⟩)

theorem Ordered.recordReleased (hs : Ordered h) (hl : Logged h) (hn : Named h.lock)
    (hmem : hd ∈ h.lock.holders) (hks : h.lock.heap[hd.state]? = some ks)
    (hall : ∀ w ∈ ks.queue, w.cancelled = true) (howned : Owned (h.recordReleased hd result).lock) :
    Ordered (h.recordReleased hd result) := by
  obtain ⟨hsettled, hunsettled, hfailed⟩ := hs.settled (h.recordReleased hd result) hmem rfl
  refine ⟨howned, hs.clears, hs.ascending, hs.accepted_lt, fun call hlt => ?_, fun key => ?_,
    hs.started_once, hsettled, hs.holders_once.sublist ((erase_sublist).map _), hunsettled,
    fun call result' hout => hs.outcome_started hl hmem hout, fun call e hfail => ?_⟩
  · rw [hfailed]
    exact hs.answered call hlt
  · have hlive : (h.recordReleased hd result).lock.liveCalls key = h.lock.liveCalls key :=
      liveCalls_afterReleased hn hmem (hs.current hmem) hks hall key
    rw [keptCalls_outcome h (h.recordReleased hd result) rfl rfl, hlive]
    exact hs.order key
  · exact hs.failures call e (mem_failed_of_outcome (h := h) hfail)

theorem Ordered.recordTimedOut (hs : Ordered h) (hl : Logged h) (hw : w ∈ queueAt h.lock.heap i)
    (hlivew : w.cancelled = false) {ms : ℕ} (howned : Owned (h.recordTimedOut w ms).lock) :
    Ordered (h.recordTimedOut w ms) := by
  obtain ⟨haccw, hstartedw, hsettledw⟩ := hl.live i w hw hlivew
  have hfailed : (h.recordTimedOut w ms).failedCalls = h.failedCalls ++ [w.call] := by
    rw [failedCalls_append h.settlements (w.call, .failed (.timedOut w.key ms)) rfl]
    rfl
  refine ⟨howned, hs.clears, hs.ascending, hs.accepted_lt, fun call hlt => ?_, fun key => ?_,
    hs.started_once, ?_, hs.holders_once, fun hd hmem => ?_, fun call result hout => ?_,
    fun call e hfail => ?_⟩
  · rw [hfailed]
    exact (hs.answered call hlt).imp_right (mem_append_left _)
  · have hstarted : (h.startedOf key).filter (fun call => call ≠ w.call) = h.startedOf key := by
      rw [filter_eq_self]
      intro call hcall
      obtain ⟨hd, hmem, rfl⟩ := mem_map.mp hcall
      have hne : hd.call ≠ w.call := fun heq =>
        hstartedw (heq ▸ mem_map_of_mem (mem_filter.mp hmem).1)
      exact decide_eq_true hne
    rw [keptCalls_failed h (h.recordTimedOut w ms) rfl rfl, hs.order key,
      filter_append, hstarted, liveCalls_recordTimedOut]
    rfl
  · rw [settledCalls_recordTimedOut]
    exact nodup_snoc hs.settled_once hsettledw
  · rw [settledCalls_recordTimedOut, mem_append, not_or, mem_singleton]
    refine ⟨hs.unsettled hd hmem, fun heq => hstartedw ?_⟩
    rw [← heq]
    exact hl.running hd hmem
  · rcases mem_append.mp hout with hout | hout
    · exact hs.outcomes call result hout
    · simp at hout
  · rcases mem_append.mp hfail with hfail | hfail
    · exact hs.failures call e hfail
    · obtain ⟨rfl, he⟩ := Prod.mk.inj (mem_singleton.mp hfail)
      refine ⟨hstartedw, fun key hacc => ⟨ms, ?_⟩⟩
      have hkey : key = w.key := by
        have heq := inj_on_of_nodup_map (hs.ascending.imp ne_of_lt) hacc haccw rfl
        exact congrArg Prod.snd heq
      cases he
      rw [hkey]

/-- What holds of a lock and its record in a run without a clear. -/
structure Fair (o : LockOptions) (h : LockHistory V) : Prop where
  recorded : Recorded o h
  ordered : Ordered h

theorem Fair.step (hs : Fair o h) {e : HistoryEvent V} (he : e ≠ .clear)
    (hstep : (historyMachine V o).step h e = some h') : Fair o h' := by
  refine ⟨hs.recorded.step hstep, ?_⟩
  obtain ⟨⟨hplaced, hl⟩, hs⟩ := hs
  have hn := hplaced.named
  cases e with
  | withLock c =>
    have howned : Owned (h.withLock o c).lock := hs.owned.withLock c
    cases hstep
    rcases history_withLock_cases (o := o) hn c with ⟨e, heq, -⟩ | ⟨key, hkey, heq⟩ |
      ⟨key, ms, i, ks, hkey, hks, -, heq⟩ <;> rw [heq] at howned ⊢
    · exact hs.recordRejected hl howned
    · exact hs.recordAcquired hl hkey howned
    · exact hs.recordQueued hl hn hkey hks howned
  | settle call result =>
    have howned : Owned h'.lock := by
      obtain ⟨s, hsettle, rfl⟩ := Option.map_eq_some_iff.mp hstep
      refine hs.owned.settle (fun hd hfind i hi => ?_) hsettle
      have hget := hs.current (mem_of_find?_eq_some hfind)
      exact Option.some.inj (hi.symm.trans hget)
    obtain ⟨hd, hmem, rfl, ks, hks, ⟨w, queue, hdrop, rfl⟩ | ⟨hall, rfl⟩⟩ :=
      history_settle_cases hn hstep
    · exact hs.recordPromoted hl hn hmem hks hdrop howned
    · exact hs.recordReleased hl hn hmem hks hall howned
  | timeout call =>
    have howned : Owned h'.lock := by
      obtain ⟨s, hexpire, rfl⟩ := Option.map_eq_some_iff.mp hstep
      exact hs.owned.expire hexpire
    obtain ⟨i, w, ms, hw, rfl, htimer, rfl⟩ := history_timeout_cases hstep
    refine hs.recordTimedOut hl hw ?_ howned
    cases hcancelled : w.cancelled with
    | false => rfl
    | true =>
      rw [hl.disarmed i w hw hcancelled] at htimer
      cases htimer
  | clear => exact absurd rfl he

theorem fair_of_reachesWhere {es : List (HistoryEvent V)}
    (hrun : (historyMachine V o).ReachesWhere (fun _ e => e ≠ .clear) es h) : Fair o h :=
  hrun.invariant ⟨recorded_init, ordered_init⟩ fun _ _ _ hI he hstep => hI.step he hstep

/-! ## Outcomes and events -/

@[simp] theorem rejection_ne (r : ℕ × LockError) (call : ℕ) (result : Except V V) :
    rejection r ≠ (call, Settlement.outcome result) := by
  simp [rejection]

/-- A step settles a call with an outcome exactly if it is the completion of its function. -/
theorem outcome_mem_step {e : HistoryEvent V} (hstep : (historyMachine V o).step h e = some h')
    (call : ℕ) (result : Except V V) : (call, .outcome result) ∈ h'.settlements ↔
      (call, .outcome result) ∈ h.settlements ∨ e = .settle call result := by
  cases e with
  | withLock c =>
    cases hstep
    simp [LockHistory.withLock]
  | settle call' result' =>
    obtain ⟨s, -, rfl⟩ := Option.map_eq_some_iff.mp hstep
    simp [eq_comm]
  | timeout call' =>
    obtain ⟨s, -, rfl⟩ := Option.map_eq_some_iff.mp hstep
    simp [giveUp]
  | clear =>
    cases hstep
    simp [giveUp]

theorem outcome_mem_iff {ok : LockHistory V → HistoryEvent V → Prop} {es : List (HistoryEvent V)}
    (hrun : (historyMachine V o).ReachesWhere ok es h) (call : ℕ) (result : Except V V) :
    (call, .outcome result) ∈ h.settlements ↔ .settle call result ∈ es := by
  refine hrun.invariant_trace (I := fun es h => (call, .outcome result) ∈ h.settlements ↔
    .settle call result ∈ es) (by simp [historyMachine]) fun es h e h' hI _ hstep => ?_
  rw [outcome_mem_step hstep, hI, mem_append, mem_singleton, eq_comm]

/-! ## Runs -/

/-- Every run of a lock without a clear. -/
theorem fifoLock_of_reachesWhere {es : List (HistoryEvent V)}
    (hrun : (historyMachine V o).ReachesWhere (fun _ e => e ≠ .clear) es h) : FifoLock es h := by
  obtain ⟨⟨hplaced, hl⟩, hs⟩ := fair_of_reachesWhere hrun
  have hwaiting := hs.waitingCalls_eq hl
  refine ⟨fun key => ?_, hs.ascending, hs.answered, fun key => ?_, hs.started_once,
    hs.settled_once, fun a ha t ht => ?_, fun call result hmem => ?_, fun key hnone => ?_⟩
  · have hsince : ∀ hd ∈ h.lock.holders, hd.since = h.lock.clears := fun hd hmem => by
      have hle := hs.owned.since_le hd hmem
      have hclears := hs.clears
      omega
    have hsame : (h.lock.holders.filter fun hd => hd.key = key) =
        h.lock.holders.filter fun hd => hd.key = key ∧ hd.since = h.lock.clears :=
      filter_congr fun hd hmem => by simp [hsince hd hmem]
    rw [hsame]
    exact hs.owned.exclusive key
  · rw [hwaiting]
    exact hs.order key
  · cases t with
    | outcome result =>
      exact .inl ⟨result, rfl, hs.outcomes _ _ ht, (outcome_mem_iff hrun _ _).mp ht⟩
    | failed e =>
      obtain ⟨hnot, htimed⟩ := hs.failures _ _ ht
      obtain ⟨ms, rfl⟩ := htimed a.2 ha
      exact .inr ⟨ms, rfl, hnot⟩
  · exact (outcome_mem_iff hrun call result).mpr hmem
  · have hget : h.lock.states.get key = none := by
      cases hi : h.lock.states.get key with
      | none => rfl
      | some i =>
        obtain ⟨-, -, -, -, hd, hmem, -, hkey, -⟩ := hs.owned.registered key i hi
        exact absurd hkey (hnone hd hmem)
    exact ⟨by rw [hwaiting, liveCalls_of_none hget], hget⟩

/-- A caller that waits 50 ms for the key of the run below. -/
def briefCall : WithLockCall := ⟨some (lit "user:1"), true, some (some 50)⟩

/-- A function runs, the first caller that waits gives up, and the second one is promoted. -/
theorem fifoLock_of_reachesWhere_promotedRun :
    ∃ (es : List (HistoryEvent Unit)) (h : LockHistory Unit), FifoLock es h ∧
      h.startedOf (lit "user:1") = [0, 2] ∧ h.settledCalls = [1, 0] := by
  have hheld : (historyMachine Unit smallOptions).ReachesWhere (fun _ e => e ≠ .clear) _ _ :=
    .next .start (fun he : HistoryEvent.withLock sharedCall = .clear => by cases he) rfl
  have hbrief : (historyMachine Unit smallOptions).ReachesWhere (fun _ e => e ≠ .clear) _ _ :=
    .next hheld (fun he : HistoryEvent.withLock briefCall = .clear => by cases he) rfl
  have hqueued : (historyMachine Unit smallOptions).ReachesWhere (fun _ e => e ≠ .clear) _ _ :=
    .next hbrief (fun he : HistoryEvent.withLock sharedCall = .clear => by cases he) rfl
  have htimed : (historyMachine Unit smallOptions).ReachesWhere (fun _ e => e ≠ .clear) _ _ :=
    .next hqueued (fun he : HistoryEvent.timeout 1 = .clear => by cases he) rfl
  have hsettled : (historyMachine Unit smallOptions).ReachesWhere (fun _ e => e ≠ .clear) _ _ :=
    .next htimed (fun he : HistoryEvent.settle 0 (.ok ()) = .clear => by cases he) rfl
  exact ⟨_, _, fifoLock_of_reachesWhere hsettled, rfl, rfl⟩

end AdapterWs.Lock
