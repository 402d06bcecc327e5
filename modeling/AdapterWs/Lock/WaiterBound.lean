import AdapterWs.Lock.Fifo

/-!
# The bound on the waiters of a key

A call is refused where the queue of its key is full. A waiter that timed out stays in the queue
until a completion passes it, so it counts while the function that holds the key runs. A later
call can be refused with nobody waiting.
-/

namespace AdapterWs.Lock

open JsString List LockRegistry

variable {o : LockOptions} {s : LockRegistry} {V : Type} {h h' : LockHistory V} {c : WithLockCall}
  {key : JsString}

/-- Each call that a full queue refused found enough callers that were still waiting. -/
def WaiterBound (o : LockOptions) (h : LockHistory V) : Prop :=
  ∀ r ∈ h.refusals, o.maxWaitersPerKey ≤ r.2.toFinset.card

/-- The queue of a call's key has room, or every waiter in it is still waiting. -/
def Counted (o : LockOptions) (s : LockRegistry) : HistoryEvent V → Prop
  | .withLock c => ∀ key ms, LockRegistry.checkCall o c = .ok (key, ms) →
      (s.queueOf key).length < o.maxWaitersPerKey ∨ ∀ w ∈ s.queueOf key, w.cancelled = false
  | _ => True

/-! ## What a call is refused for -/

theorem LockHistory.refusal_eq_some {r : ℕ × LockError} {p : JsString × List ℕ}
    (hr : h.refusal r = some p) :
    ∃ key max, r.2 = .queueFull key max ∧ p = (key, h.waitingCalls key) := by
  rw [refusal] at hr
  cases he : r.2 with
  | queueFull key max =>
    rw [he] at hr
    exact ⟨key, max, rfl, (Option.some.inj hr).symm⟩
  | _ => simp [he] at hr

/-- A call adds a refusal only where the queue of its key is full. -/
theorem mem_refusals_withLock (hn : Named h.lock) {r : JsString × List ℕ}
    (hr : r ∈ (h.withLock o c).refusals) : r ∈ h.refusals ∨
      ∃ key ms, checkCall o c = .ok (key, ms) ∧
        o.maxWaitersPerKey ≤ (h.lock.queueOf key).length ∧ r = (key, h.waitingCalls key) := by
  rcases history_withLock_cases (o := o) hn c with ⟨e, heq, hfull⟩ | ⟨key, -, heq⟩ |
    ⟨key, ms, i, ks, -, -, -, heq⟩ <;> rw [heq] at hr
  · refine (mem_append.mp hr).imp_right fun hr => ?_
    obtain ⟨key, max, he, rfl⟩ := LockHistory.refusal_eq_some (Option.mem_toList.mp hr)
    obtain ⟨ms, hcheck, hlength⟩ := hfull key max he
    exact ⟨key, ms, hcheck, hlength, rfl⟩
  · exact .inl hr
  · exact .inl hr

theorem withLock_full (hn : Named s) {ms : Option ℕ}
    (hcheck : checkCall o c = .ok (key, ms))
    (hfull : o.maxWaitersPerKey ≤ (s.queueOf key).length) :
    s.withLock o c = s.afterRejected (.queueFull key o.maxWaitersPerKey) := by
  have hpos := o.maxWaitersPerKey_pos
  cases hkey : s.states.get key with
  | none =>
    rw [queueOf, hkey, length_nil] at hfull
    omega
  | some i =>
    obtain ⟨ks, hks, hrunning⟩ := hn.running key i hkey
    rw [queueOf_of_get hkey, queueAt_of_getElem? hks] at hfull
    rw [withLock, hcheck]
    simp only [hkey, hks, acquire]
    rw [if_neg (by rw [hrunning]; exact Bool.noConfusion), if_pos hfull]
    rfl

theorem mem_refusals_of_full (hn : Named h.lock) {ms : Option ℕ}
    (hcheck : checkCall o c = .ok (key, ms))
    (hfull : o.maxWaitersPerKey ≤ (h.lock.queueOf key).length) :
    (key, h.waitingCalls key) ∈ (h.withLock o c).refusals := by
  simp [LockHistory.withLock, withLock_full hn hcheck hfull, LockHistory.newRejections,
    afterRejected, reject, LockHistory.refusal]

/-! ## Who waits -/

/-- The waiters in the queue of a key are distinct callers. -/
theorem Queued.nodup_calls (hq : Queued o s) (key : JsString) :
    ((s.queueOf key).map Waiter.call).Nodup := by
  cases hkey : s.states.get key with
  | none => simp [queueOf, hkey]
  | some i =>
    have hasc := hq.ascending i
    rw [tagsAt, pairwise_map] at hasc
    rw [queueOf_of_get hkey, List.Nodup, pairwise_map]
    exact hasc.imp ne_of_lt

/-- A waiter that has not given up is a caller of its key that is still waiting. -/
theorem mem_waitingCalls (hs : Recorded o h) {w : Waiter} (hw : w ∈ h.lock.queueOf key)
    (hlive : w.cancelled = false) : w.call ∈ h.waitingCalls key := by
  cases hkey : h.lock.states.get key with
  | none => simp [queueOf, hkey] at hw
  | some i =>
    rw [queueOf_of_get hkey] at hw
    obtain ⟨hacc, hstarted, hsettled⟩ := hs.logged.live i w hw hlive
    have hwkey := hs.placed.queued.key_eq key i hkey _ (mem_tagsAt hw)
    refine mem_map.mpr ⟨_, mem_filter.mpr ⟨hacc, ?_⟩, rfl⟩
    exact decide_eq_true ⟨hwkey, hstarted, hsettled⟩

/-- A queue in which nobody gave up is no longer than the callers that wait. -/
theorem length_le_card_waitingCalls (hs : Recorded o h)
    (hall : ∀ w ∈ h.lock.queueOf key, w.cancelled = false) :
    (h.lock.queueOf key).length ≤ (h.waitingCalls key).toFinset.card := by
  have hnodup := hs.placed.queued.nodup_calls key
  have hsub : ((h.lock.queueOf key).map Waiter.call).toFinset ⊆
      (h.waitingCalls key).toFinset := by
    intro call hcall
    obtain ⟨w, hw, rfl⟩ := mem_map.mp (mem_toFinset.mp hcall)
    exact mem_toFinset.mpr (mem_waitingCalls hs hw (hall w hw))
  calc
    (h.lock.queueOf key).length = ((h.lock.queueOf key).map Waiter.call).toFinset.card := by
      rw [toFinset_card_of_nodup hnodup, length_map]
    _ ≤ (h.waitingCalls key).toFinset.card := Finset.card_le_card hsub

theorem Queued.length_queueOf_le (hq : Queued o s) (key : JsString) :
    (s.queueOf key).length ≤ o.maxWaitersPerKey := by
  cases hkey : s.states.get key with
  | none => simp [queueOf, hkey]
  | some i =>
    rw [queueOf_of_get hkey, ← length_tagsAt]
    exact hq.bounded i

/-- Without a clear only the waiters that have not given up are still waiting. -/
theorem Fair.all_live (hs : Fair o h)
    (hmax : o.maxWaitersPerKey ≤ (h.waitingCalls key).toFinset.card) :
    ∀ w ∈ h.lock.queueOf key, w.cancelled = false := by
  have hbound := hs.recorded.placed.queued.length_queueOf_le key
  have hcard := toFinset_card_le (h.waitingCalls key)
  rw [hs.ordered.waitingCalls_eq hs.recorded.logged, liveCalls, liveOf,
    length_map] at hcard
  have hlength : ((h.lock.queueOf key).filter fun w => !w.cancelled).length =
      (h.lock.queueOf key).length := by
    have hle := length_filter_le (fun w => !w.cancelled) (h.lock.queueOf key)
    rw [hs.ordered.waitingCalls_eq hs.recorded.logged, liveCalls, liveOf] at hmax
    omega
  intro w hw
  have hlive := length_filter_eq_length_iff.mp hlength w hw
  simpa using hlive

/-! ## Runs -/

/-- A call that meets the condition is refused only with enough callers waiting. -/
theorem WaiterBound.withLock (hb : WaiterBound o h) (hs : Recorded o h)
    (hok : Counted o h.lock (.withLock c : HistoryEvent V)) : WaiterBound o (h.withLock o c) := by
  intro r hr
  rcases mem_refusals_withLock hs.placed.named hr with hr | ⟨key, ms, hcheck, hfull, rfl⟩
  · exact hb r hr
  · rcases hok key ms hcheck with hroom | hall
    · omega
    · exact hfull.trans (length_le_card_waitingCalls hs hall)

theorem WaiterBound.step (hb : WaiterBound o h) (hs : Recorded o h) {e : HistoryEvent V}
    (hok : Counted o h.lock e) (hstep : (historyMachine V o).step h e = some h') :
    WaiterBound o h' := by
  cases e with
  | withLock c =>
    cases hstep
    exact hb.withLock hs hok
  | settle call result =>
    obtain ⟨s, -, rfl⟩ := Option.map_eq_some_iff.mp hstep
    exact hb
  | timeout call =>
    obtain ⟨s, -, rfl⟩ := Option.map_eq_some_iff.mp hstep
    exact hb
  | clear =>
    cases hstep
    exact hb

/-- Without a clear a call that fails the condition is refused with too few callers waiting. -/
theorem Fair.counted_of_waiterBound (hs : Fair o h) (hb : WaiterBound o (h.withLock o c)) :
    Counted o h.lock (.withLock c : HistoryEvent V) := by
  intro key ms hcheck
  rcases lt_or_ge (h.lock.queueOf key).length o.maxWaitersPerKey with hroom | hfull
  · exact .inl hroom
  · exact .inr (hs.all_live
      (hb _ (mem_refusals_of_full hs.recorded.placed.named hcheck hfull)))

/-- Along a run whose calls meet the condition each refused call found enough callers waiting,
and without a clear the next call does exactly if it meets the condition, too. -/
theorem waiterBound_of_counted {es : List (HistoryEvent V)}
    (hrun : (historyMachine V o).ReachesWhere (fun h e => Counted o h.lock e) es h) :
    WaiterBound o h ∧ (.clear ∉ es → ∀ c,
      WaiterBound o (h.withLock o c) ↔ Counted o h.lock (.withLock c : HistoryEvent V)) := by
  have hboth : Recorded o h ∧ WaiterBound o h := by
    refine hrun.invariant (I := fun h => Recorded o h ∧ WaiterBound o h) ?_ ?_
    · exact ⟨recorded_init, forall_mem_nil _⟩
    · exact fun _ _ _ hI hok hstep => ⟨hI.1.step hstep, hI.2.step hI.1 hok hstep⟩
  refine ⟨hboth.2, fun hclear c => ⟨fun hb => ?_, hboth.2.withLock hboth.1⟩⟩
  have hfair : Fair o h := fair_of_reachesWhere
    (hrun.of_forall_mem (p := fun e => e ≠ .clear) fun e he heq => hclear (heq ▸ he))
  exact hfair.counted_of_waiterBound hb

/-- One waiter for each key. -/
def tightOptions : LockOptions :=
  ⟨10, 10, 1, Nat.succ_pos 9, Nat.succ_pos 9, Nat.one_pos⟩

/-- The condition on a call for the key of the runs here. -/
theorem counted_sharedCall
    (hqueue : (s.queueOf (lit "user:1")).length < o.maxWaitersPerKey ∨
      ∀ w ∈ s.queueOf (lit "user:1"), w.cancelled = false) :
    Counted o s (.withLock sharedCall : HistoryEvent V) := by
  intro key ms hcheck
  cases checkCall_ok hcheck
  exact hqueue

/-- A function runs, one caller waits, and the next one is refused. -/
theorem waiterBound_of_counted_crowdedRun :
    ∃ h : LockHistory Unit, (WaiterBound tightOptions h ∧
      (.clear ∉ ([.withLock sharedCall, .withLock sharedCall, .withLock sharedCall] :
        List (HistoryEvent Unit)) → ∀ c, WaiterBound tightOptions (h.withLock tightOptions c) ↔
          Counted tightOptions h.lock (.withLock c : HistoryEvent Unit))) ∧
      h.refusals = [(lit "user:1", [1])] := by
  have hheld : (historyMachine Unit tightOptions).ReachesWhere
      (fun h e => Counted tightOptions h.lock e) ([] ++ [.withLock sharedCall]) _ :=
    .next .start (counted_sharedCall (by decide)) rfl
  have hqueued : (historyMachine Unit tightOptions).ReachesWhere
      (fun h e => Counted tightOptions h.lock e) (_ ++ [.withLock sharedCall]) _ :=
    .next hheld (counted_sharedCall (by decide)) rfl
  have hrefused : (historyMachine Unit tightOptions).ReachesWhere
      (fun h e => Counted tightOptions h.lock e) (_ ++ [.withLock sharedCall]) _ :=
    .next hqueued (counted_sharedCall (by decide)) rfl
  exact ⟨_, waiterBound_of_counted hrefused, by decide⟩

/-- A function runs and the caller that waits gives up. The next call is refused. -/
theorem not_waiterBound_timedOutRun :
    ¬ ∀ (o : LockOptions) (es : List (HistoryEvent Unit)) (h : LockHistory Unit),
      (historyMachine Unit o).Reaches es h → WaiterBound o h := by
  intro h
  have hrun : (historyMachine Unit tightOptions).exec (historyMachine Unit tightOptions).init
      [.withLock sharedCall, .withLock briefCall, .timeout 1, .withLock sharedCall] = some _ := rfl
  have hone := h tightOptions _ _ (Machine.reaches_of_exec hrun) (lit "user:1", [])
    (mem_singleton_self _)
  revert hone
  decide

end AdapterWs.Lock
