import AdapterWs.Lock.Waiters

/-!
# What a run of a lock has done

A lock forgets a call once it is settled. The history of a run keeps beside the lock which calls
were accepted, which functions were started and in which order, and what each promise was
settled with. It only observes: every entry is read off the state before a step and the state
after it.
-/

namespace AdapterWs.Lock

open JsString List LockRegistry Waiter

variable {o : LockOptions} {s s' : LockRegistry}

/-! ## The record of a run -/

/-- What a promise is settled with. -/
inductive Settlement (V : Type)
  /-- The outcome of the function: what it returned, or what it threw. -/
  | outcome (result : Except V V)
  /-- An error of the lock. -/
  | failed (error : LockError)

/-- What happens to a lock, with the outcomes of the functions. -/
inductive HistoryEvent (V : Type)
  | withLock (c : WithLockCall)
  | settle (call : ℕ) (result : Except V V)
  | timeout (call : ℕ)
  | clear

/-- A lock and what has happened to its calls. -/
structure LockHistory (V : Type) where
  lock : LockRegistry
  /-- The calls that were not rejected when they were made, with their keys. -/
  accepted : List (ℕ × JsString)
  /-- The functions that were started, in their order. -/
  started : List Holder
  /-- Every time a promise was resolved or rejected. -/
  settlements : List (ℕ × Settlement V)
  /-- The calls that a full queue refused: the key, and the callers that waited for it. -/
  refusals : List (JsString × List ℕ)

namespace LockHistory

variable {V : Type}

/-- The calls whose functions were started. -/
def startedCalls (h : LockHistory V) : List ℕ := h.started.map Holder.call

/-- The calls whose promises were settled. -/
def settledCalls (h : LockHistory V) : List ℕ := h.settlements.map Prod.fst

/-- The callers of a key that are still waiting: accepted, neither promoted nor settled. -/
def waitingCalls (h : LockHistory V) (key : JsString) : List ℕ :=
  (h.accepted.filter fun a =>
    a.2 = key ∧ a.1 ∉ h.startedCalls ∧ a.1 ∉ h.settledCalls).map Prod.fst

/-- The rejections that a step added. -/
def newRejections (h : LockHistory V) (s : LockRegistry) : List (ℕ × LockError) :=
  s.rejected.drop h.lock.rejected.length

/-- The settlement of a call that the lock rejects. -/
def rejection (r : ℕ × LockError) : ℕ × Settlement V := (r.1, .failed r.2)

/-- The entry of a call that a full queue refuses. -/
def refusal (h : LockHistory V) (r : ℕ × LockError) : Option (JsString × List ℕ) :=
  match r.2 with
  | .queueFull key _ => some (key, h.waitingCalls key)
  | _ => none

/-- A call is made. The functions run behind the ones that ran before. -/
def withLock (o : LockOptions) (h : LockHistory V) (c : WithLockCall) : LockHistory V :=
  let s := h.lock.withLock o c
  let rejections := h.newRejections s
  { lock := s
    accepted :=
      if rejections = [] then h.accepted ++ c.key.toList.map fun key => (h.lock.calls, key)
      else h.accepted
    started := h.started ++ s.holders.drop h.lock.holders.length
    settlements := h.settlements ++ rejections.map rejection
    refusals := h.refusals ++ rejections.filterMap h.refusal }

/-- A function settles, and the promise of its call with it. -/
def settle (h : LockHistory V) (call : ℕ) (result : Except V V) : Option (LockHistory V) :=
  (h.lock.settle call).map fun s =>
    { h with
      lock := s
      started := h.started ++ s.holders.drop (h.lock.holders.length - 1)
      settlements := h.settlements ++ [(call, .outcome result)] }

/-- The lock rejects callers that wait. -/
def giveUp (h : LockHistory V) (s : LockRegistry) : LockHistory V :=
  { h with lock := s, settlements := h.settlements ++ (h.newRejections s).map rejection }

/-- One event. -/
def step (o : LockOptions) (h : LockHistory V) : HistoryEvent V → Option (LockHistory V)
  | .withLock c => some (h.withLock o c)
  | .settle call result => h.settle call result
  | .timeout call => (h.lock.expire call).map h.giveUp
  | .clear => some (h.giveUp h.lock.clear)

end LockHistory

/-- One lock with its record. -/
def historyMachine (V : Type) (o : LockOptions) : Machine (LockHistory V) (HistoryEvent V) where
  init := ⟨.create, [], [], [], []⟩
  step := LockHistory.step o

variable {V : Type} {h h' : LockHistory V} {call i : ℕ} {w : Waiter} {j : ℕ} {ks : KeyState}
  {queue : List Waiter}

/-! ## What a step records -/

namespace LockHistory

/-- The record of a call that is rejected. -/
def recordRejected (h : LockHistory V) (e : LockError) : LockHistory V :=
  { h with
    lock := h.lock.afterRejected e
    settlements := h.settlements ++ [(h.lock.calls, .failed e)]
    refusals := h.refusals ++ (h.refusal (h.lock.calls, e)).toList }

/-- The record of a call that acquires a free key. -/
def recordAcquired (h : LockHistory V) (key : JsString) : LockHistory V :=
  { h with
    lock := h.lock.afterAcquired key
    accepted := h.accepted ++ [(h.lock.calls, key)]
    started := h.started ++ [⟨h.lock.calls, key, h.lock.heap.length, h.lock.clears⟩] }

/-- The record of a call that waits. -/
def recordQueued (h : LockHistory V) (key : JsString) (i : ℕ) (ks : KeyState)
    (ms : Option ℕ) : LockHistory V :=
  { h with
    lock := h.lock.afterQueued i ks (h.lock.nextWaiter key ms)
    accepted := h.accepted ++ [(h.lock.calls, key)] }

/-- The record of a completion that promotes a waiter. -/
def recordPromoted (h : LockHistory V) (hd : Holder) (ks : KeyState) (w : Waiter)
    (queue : List Waiter) (result : Except V V) : LockHistory V :=
  { h with
    lock := h.lock.afterPromoted hd ks w queue
    started := h.started ++ [⟨w.call, hd.key, hd.state, w.since⟩]
    settlements := h.settlements ++ [(hd.call, .outcome result)] }

/-- The record of a completion that releases its key. -/
def recordReleased (h : LockHistory V) (hd : Holder) (result : Except V V) : LockHistory V :=
  { h with
    lock := h.lock.afterReleased hd
    settlements := h.settlements ++ [(hd.call, .outcome result)] }

/-- The record of a timeout. -/
def recordTimedOut (h : LockHistory V) (w : Waiter) (ms : ℕ) : LockHistory V :=
  { h with
    lock := { h.lock with heap := h.lock.heap.map (LockRegistry.cancelCall w.call) }.reject w.call
      (.timedOut w.key ms)
    settlements := h.settlements ++ [(w.call, .failed (.timedOut w.key ms))] }

end LockHistory

/-- A call is recorded as rejected, as running or as waiting. -/
theorem history_withLock_cases (hs : Named h.lock) (c : WithLockCall) :
    (∃ e, h.withLock o c = h.recordRejected e ∧ ∀ key max, e = .queueFull key max →
      ∃ ms, checkCall o c = .ok (key, ms) ∧
        o.maxWaitersPerKey ≤ (h.lock.queueOf key).length) ∨
    (∃ key, h.lock.states.get key = none ∧ h.withLock o c = h.recordAcquired key) ∨
    ∃ key ms i ks, h.lock.states.get key = some i ∧ h.lock.heap[i]? = some ks ∧
      ks.queue.length < o.maxWaitersPerKey ∧ h.withLock o c = h.recordQueued key i ks ms := by
  rcases withLock_cases (o := o) hs c with ⟨e, heq, hfull⟩ | ⟨key, hkey, hget, heq⟩ |
    ⟨key, ms, i, ks, hcheck, hget, hks, -, hroom, heq⟩
  · refine .inl ⟨e, ?_, hfull⟩
    simp only [LockHistory.withLock, heq, LockHistory.newRejections, afterRejected,
      reject, drop_left, drop_length, LockHistory.recordRejected,
      map_cons, map_nil, LockHistory.rejection, append_nil, cons_ne_nil,
      if_false]
    cases hr : h.refusal (h.lock.calls, e) <;> simp [hr]
  · refine .inr (.inl ⟨key, hget, ?_⟩)
    simp [LockHistory.withLock, heq, LockHistory.newRejections, afterAcquired,
      runHead, LockHistory.recordAcquired, hkey]
  · refine .inr (.inr ⟨key, ms, i, ks, hget, hks, hroom, ?_⟩)
    simp [LockHistory.withLock, heq, LockHistory.newRejections, afterQueued,
      LockHistory.recordQueued, checkCall_ok hcheck]

/-- A completion is recorded with the promotion it makes, or alone. -/
theorem history_settle_cases (hs : Named h.lock) {result : Except V V}
    (hstep : h.settle call result = some h') :
    ∃ hd ∈ h.lock.holders, hd.call = call ∧ ∃ ks, h.lock.heap[hd.state]? = some ks ∧
      ((∃ w queue, ks.queue.dropWhile cancelled = w :: queue ∧
          h' = h.recordPromoted hd ks w queue result) ∨
        (∀ w ∈ ks.queue, w.cancelled = true) ∧ h' = h.recordReleased hd result) := by
  obtain ⟨s, hsettle, rfl⟩ := Option.map_eq_some_iff.mp hstep
  obtain ⟨hd, hmem, rfl, ks, hks, hcases⟩ := settle_cases hs hsettle
  have hlength := length_erase_of_mem hmem
  refine ⟨hd, hmem, rfl, ks, hks, ?_⟩
  rcases hcases with ⟨w, queue, hdrop, rfl⟩ | ⟨hall, rfl⟩
  · refine .inl ⟨w, queue, hdrop, ?_⟩
    rw [LockHistory.recordPromoted, afterPromoted, runHead, ← hlength,
      drop_left]
  · refine .inr ⟨hall, ?_⟩
    rw [LockHistory.recordReleased, afterReleased, ← hlength, drop_length,
      append_nil]

theorem history_timeout_cases (hstep : (h.lock.expire call).map h.giveUp = some h') :
    ∃ i w ms, w ∈ queueAt h.lock.heap i ∧ w.call = call ∧ w.timer = some ms ∧
      h' = h.recordTimedOut w ms := by
  obtain ⟨s, hexpire, rfl⟩ := Option.map_eq_some_iff.mp hstep
  obtain ⟨i, w, ms, hw, rfl, htimer, rfl⟩ := expire_cases hexpire
  refine ⟨i, w, ms, hw, rfl, htimer, ?_⟩
  simp [LockHistory.giveUp, LockHistory.newRejections, reject,
    LockHistory.recordTimedOut, LockHistory.rejection]

/-! ## What the record says of the waiters -/

/-- The record of a run agrees with the queues of its lock. -/
structure Logged (h : LockHistory V) : Prop where
  /-- A function that runs was started. -/
  running : ∀ hd ∈ h.lock.holders, hd.call ∈ h.startedCalls
  /-- A function that was started was passed. -/
  started_lt : ∀ call ∈ h.startedCalls, call < h.lock.calls
  /-- A promise that was settled was returned. -/
  settled_lt : ∀ call ∈ h.settledCalls, call < h.lock.calls
  /-- A waiter that gave up has no timer. -/
  disarmed : ∀ i, ∀ w ∈ queueAt h.lock.heap i, w.cancelled = true → w.timer = none
  /-- A waiter that did not give up was accepted, and is neither started nor settled. -/
  live : ∀ i, ∀ w ∈ queueAt h.lock.heap i, w.cancelled = false →
    (w.call, w.key) ∈ h.accepted ∧ w.call ∉ h.startedCalls ∧ w.call ∉ h.settledCalls

theorem logged_init : Logged (historyMachine V o).init where
  running _ hh := absurd hh not_mem_nil
  started_lt _ hh := absurd hh not_mem_nil
  settled_lt _ hh := absurd hh not_mem_nil
  disarmed _ _ hh := absurd hh not_mem_nil
  live _ _ hh := absurd hh not_mem_nil

theorem Queued.lt (hs : Queued o s) (hw : w ∈ queueAt s.heap i) : w.call < s.calls :=
  hs.fresh i _ (mem_tagsAt hw)

theorem Logged.recordRejected (hs : Logged h) (hq : Queued o h.lock) (e : LockError) :
    Logged (h.recordRejected e) where
  running := hs.running
  started_lt call hcall := Nat.lt_succ_of_lt (hs.started_lt call hcall)
  settled_lt call hcall := by
    simp only [LockHistory.settledCalls, LockHistory.recordRejected, map_append,
      mem_append] at hcall
    rcases hcall with hcall | hcall
    · exact Nat.lt_succ_of_lt (hs.settled_lt call hcall)
    · rw [mem_singleton.mp hcall]
      exact Nat.lt_succ_self _
  disarmed := hs.disarmed
  live i w hw hlive := by
    obtain ⟨hacc, hstarted, hsettled⟩ := hs.live i w hw hlive
    refine ⟨hacc, hstarted, ?_⟩
    simp only [LockHistory.settledCalls, LockHistory.recordRejected, map_append,
      mem_append, not_or]
    refine ⟨hsettled, fun hmem => ?_⟩
    exact absurd (mem_singleton.mp hmem) (ne_of_lt (hq.lt hw))

theorem LockHistory.startedCalls_recordAcquired (h : LockHistory V) (key : JsString) :
    (h.recordAcquired key).startedCalls = h.startedCalls ++ [h.lock.calls] := by
  simp [startedCalls, recordAcquired]

theorem Logged.recordAcquired (hs : Logged h) (hq : Queued o h.lock) (key : JsString) :
    Logged (h.recordAcquired key) where
  running hd hhd := by
    rw [LockHistory.startedCalls_recordAcquired]
    rcases mem_concat.mp hhd with hhd | rfl
    · exact mem_append_left _ (hs.running hd hhd)
    · exact mem_concat_self
  started_lt call hcall := by
    rw [LockHistory.startedCalls_recordAcquired] at hcall
    rcases mem_concat.mp hcall with hcall | rfl
    · exact Nat.lt_succ_of_lt (hs.started_lt call hcall)
    · exact Nat.lt_succ_self _
  settled_lt call hcall := Nat.lt_succ_of_lt (hs.settled_lt call hcall)
  disarmed i w hw := hs.disarmed i w ((queueAt_concat _ _ i) ▸ hw)
  live i w hw hlive := by
    replace hw : w ∈ queueAt h.lock.heap i := (queueAt_concat _ _ i) ▸ hw
    obtain ⟨hacc, hstarted, hsettled⟩ := hs.live i w hw hlive
    refine ⟨mem_append_left _ hacc, ?_, hsettled⟩
    rw [LockHistory.startedCalls_recordAcquired, mem_append, not_or]
    refine ⟨hstarted, fun hmem => ?_⟩
    exact absurd (mem_singleton.mp hmem) (ne_of_lt (hq.lt hw))

theorem mem_queueAt_afterQueued {w' : Waiter} (hks : s.heap[i]? = some ks) :
    w' ∈ queueAt (s.afterQueued i ks w).heap j ↔
      w' ∈ queueAt s.heap j ∨ i = j ∧ w' = w := by
  rw [afterQueued, queueAt_set (List.getElem?_eq_some_iff.mp hks).1]
  by_cases hij : i = j
  · subst hij
    simp [queueAt_of_getElem? hks]
  · simp [hij]

theorem Logged.recordQueued (hs : Logged h) (key : JsString) (hks : h.lock.heap[i]? = some ks)
    (ms : Option ℕ) : Logged (h.recordQueued key i ks ms) where
  running := hs.running
  started_lt call hcall := Nat.lt_succ_of_lt (hs.started_lt call hcall)
  settled_lt call hcall := Nat.lt_succ_of_lt (hs.settled_lt call hcall)
  disarmed j w hw hcancelled := by
    rcases (mem_queueAt_afterQueued hks).mp hw with hw | ⟨-, rfl⟩
    · exact hs.disarmed j w hw hcancelled
    · cases hcancelled
  live j w hw hlive := by
    rcases (mem_queueAt_afterQueued hks).mp hw with hw | ⟨-, rfl⟩
    · obtain ⟨hacc, hrest⟩ := hs.live j w hw hlive
      exact ⟨mem_append_left _ hacc, hrest⟩
    · refine ⟨mem_concat_self, fun hmem => ?_, fun hmem => ?_⟩
      · exact absurd (hs.started_lt _ hmem) (lt_irrefl _)
      · exact absurd (hs.settled_lt _ hmem) (lt_irrefl _)

theorem LockHistory.startedCalls_recordPromoted (h : LockHistory V) (hd : Holder) (ks : KeyState)
    (w : Waiter) (queue : List Waiter) (result : Except V V) :
    (h.recordPromoted hd ks w queue result).startedCalls = h.startedCalls ++ [w.call] := by
  simp [startedCalls, recordPromoted]

theorem LockHistory.settledCalls_recordPromoted (h : LockHistory V) (hd : Holder) (ks : KeyState)
    (w : Waiter) (queue : List Waiter) (result : Except V V) :
    (h.recordPromoted hd ks w queue result).settledCalls = h.settledCalls ++ [hd.call] := by
  simp [settledCalls, recordPromoted]

/-- A completion leaves each queue or takes waiters off its front. -/
theorem mem_of_mem_queueAt_set {b : Bool} (hks : s.heap[i]? = some ks) (hsub : queue ⊆ ks.queue)
    (hw : w ∈ queueAt (s.heap.set i ⟨b, queue⟩) j) :
    w ∈ queueAt s.heap j ∧ (i = j → w ∈ queue) := by
  rw [queueAt_set (List.getElem?_eq_some_iff.mp hks).1] at hw
  by_cases hij : i = j
  · subst hij
    rw [if_pos rfl] at hw
    exact ⟨by rw [queueAt_of_getElem? hks]; exact hsub hw, fun _ => hw⟩
  · rw [if_neg hij] at hw
    exact ⟨hw, fun heq => absurd heq hij⟩

/-- The waiter a completion promotes, and the ones it keeps. -/
theorem promoted_of_dropWhile {l : List Waiter} (hdrop : l.dropWhile cancelled = w :: queue) :
    w ∈ l ∧ w.cancelled = false ∧ queue ⊆ l := by
  have hsub := (dropWhile_sublist (l := l) cancelled).subset
  rw [hdrop] at hsub
  refine ⟨hsub (.head _), ?_, fun w' hw' => hsub (.tail _ hw')⟩
  have hne : l.dropWhile cancelled ≠ [] := by simp [hdrop]
  have hhead := head_dropWhile_not cancelled hne
  simpa [hdrop] using hhead

/-- The waiter that a completion promotes is in no queue after it. -/
theorem Queued.call_ne (hs : Queued o s) {w' : Waiter} (hks : s.heap[i]? = some ks)
    (hdrop : ks.queue.dropWhile cancelled = w :: queue) (hw' : w' ∈ queueAt s.heap j)
    (hqueue : i = j → w' ∈ queue) : w'.call ≠ w.call := by
  intro heq
  have hw : w ∈ queueAt s.heap i := by
    rw [queueAt_of_getElem? hks]
    exact (promoted_of_dropWhile hdrop).1
  have hij := hs.apart i j _ (mem_tagsAt hw) _ (mem_tagsAt hw') heq.symm
  have hasc := hs.ascending i
  rw [tagsAt, queueAt_of_getElem? hks] at hasc
  have htail : ((w :: queue).map fun w => (w.call, w.key)).Sublist
      (ks.queue.map fun w => (w.call, w.key)) := by
    rw [← hdrop]
    exact (dropWhile_sublist _).map _
  have hlt := rel_of_pairwise_cons (hasc.sublist htail)
    (mem_map_of_mem (f := fun w => (w.call, w.key)) (hqueue hij))
  exact absurd heq.symm (ne_of_lt hlt)

theorem Logged.recordPromoted (hs : Logged h) (hq : Queued o h.lock) {hd : Holder}
    (hmem : hd ∈ h.lock.holders) (hks : h.lock.heap[hd.state]? = some ks)
    (hdrop : ks.queue.dropWhile cancelled = w :: queue) (result : Except V V) :
    Logged (h.recordPromoted hd ks w queue result) := by
  obtain ⟨hw, hlivew, hsub⟩ := promoted_of_dropWhile hdrop
  have hw' : w ∈ queueAt h.lock.heap hd.state := by
    rw [queueAt_of_getElem? hks]
    exact hw
  refine ⟨fun hd' hhd' => ?_, fun call hcall => ?_, fun call hcall => ?_,
    fun i w' hw' => hs.disarmed i w' (mem_of_mem_queueAt_set hks hsub hw').1,
    fun i w' hw' hlive => ?_⟩
  · rw [LockHistory.startedCalls_recordPromoted]
    rcases mem_concat.mp hhd' with hhd' | rfl
    · exact mem_append_left _ (hs.running hd' (mem_of_mem_erase hhd'))
    · exact mem_concat_self
  · rw [LockHistory.startedCalls_recordPromoted] at hcall
    rcases mem_concat.mp hcall with hcall | rfl
    · exact hs.started_lt call hcall
    · exact hq.lt hw'
  · rw [LockHistory.settledCalls_recordPromoted] at hcall
    rcases mem_concat.mp hcall with hcall | rfl
    · exact hs.settled_lt call hcall
    · exact hs.started_lt _ (hs.running hd hmem)
  · obtain ⟨hold, hqueue⟩ := mem_of_mem_queueAt_set hks hsub hw'
    obtain ⟨hacc, hstarted, hsettled⟩ := hs.live i w' hold hlive
    rw [LockHistory.startedCalls_recordPromoted, LockHistory.settledCalls_recordPromoted,
      mem_append, mem_append, not_or, not_or, mem_singleton, mem_singleton]
    refine ⟨hacc, ⟨hstarted, hq.call_ne hks hdrop hold hqueue⟩, hsettled, ?_⟩
    intro heq
    exact hstarted (heq ▸ hs.running hd hmem)

theorem LockHistory.settledCalls_recordReleased (h : LockHistory V) (hd : Holder)
    (result : Except V V) :
    (h.recordReleased hd result).settledCalls = h.settledCalls ++ [hd.call] := by
  simp [settledCalls, recordReleased]

theorem Logged.recordReleased (hs : Logged h) {hd : Holder} (hmem : hd ∈ h.lock.holders)
    (hks : h.lock.heap[hd.state]? = some ks) (result : Except V V) :
    Logged (h.recordReleased hd result) where
  running hd' hhd' := hs.running hd' (mem_of_mem_erase hhd')
  started_lt := hs.started_lt
  settled_lt call hcall := by
    rw [LockHistory.settledCalls_recordReleased] at hcall
    rcases mem_concat.mp hcall with hcall | rfl
    · exact hs.settled_lt call hcall
    · exact hs.started_lt _ (hs.running hd hmem)
  disarmed i w hw :=
    hs.disarmed i w (mem_of_mem_queueAt_set hks (nil_subset _) hw).1
  live i w hw hlive := by
    obtain ⟨hold, -⟩ := mem_of_mem_queueAt_set hks (nil_subset _) hw
    obtain ⟨hacc, hstarted, hsettled⟩ := hs.live i w hold hlive
    refine ⟨hacc, hstarted, ?_⟩
    rw [LockHistory.settledCalls_recordReleased, mem_append, not_or, mem_singleton]
    refine ⟨hsettled, fun heq => hstarted ?_⟩
    rw [heq]
    exact hs.running hd hmem

/-- A waiter after a timeout: another one, as before, or the one that gave up. -/
theorem mem_queueAt_cancelCall (hw : w ∈ queueAt (s.heap.map (cancelCall call)) j) :
    w ∈ queueAt s.heap j ∧ w.call ≠ call ∨
      w.cancelled = true ∧ w.timer = none := by
  rw [queueAt_map_cancelCall] at hw
  obtain ⟨w', hw', rfl⟩ := mem_map.mp hw
  by_cases hcall : w'.call = call
  · rw [if_pos hcall]
    exact .inr ⟨rfl, rfl⟩
  · rw [if_neg hcall]
    exact .inl ⟨hw', hcall⟩

theorem LockHistory.settledCalls_recordTimedOut (h : LockHistory V) (w : Waiter) (ms : ℕ) :
    (h.recordTimedOut w ms).settledCalls = h.settledCalls ++ [w.call] := by
  simp [settledCalls, recordTimedOut]

theorem Logged.recordTimedOut (hs : Logged h) (hq : Queued o h.lock)
    (hw : w ∈ queueAt h.lock.heap i) (ms : ℕ) : Logged (h.recordTimedOut w ms) where
  running := hs.running
  started_lt := hs.started_lt
  settled_lt call hcall := by
    rw [LockHistory.settledCalls_recordTimedOut] at hcall
    rcases mem_concat.mp hcall with hcall | rfl
    · exact hs.settled_lt call hcall
    · exact hq.lt hw
  disarmed j w' hw' hcancelled := by
    rcases mem_queueAt_cancelCall hw' with ⟨hold, -⟩ | ⟨-, htimer⟩
    · exact hs.disarmed j w' hold hcancelled
    · exact htimer
  live j w' hw' hlive := by
    rcases mem_queueAt_cancelCall hw' with ⟨hold, hne⟩ | ⟨hcancelled, -⟩
    · obtain ⟨hacc, hstarted, hsettled⟩ := hs.live j w' hold hlive
      refine ⟨hacc, hstarted, ?_⟩
      rw [LockHistory.settledCalls_recordTimedOut, mem_append, not_or, mem_singleton]
      exact ⟨hsettled, hne⟩
    · rw [hlive] at hcancelled
      cases hcancelled

/-- A waiter after a clear: one that no key names, as before, or one that has given up. -/
theorem mem_queueAt_clear (hw : w ∈ queueAt s.clear.heap j) :
    (w ∈ queueAt s.heap j ∧ ∀ key, s.states.get key ≠ some j) ∨
      w.cancelled = true ∧ (w ∈ queueAt s.heap j ∨ w.timer = none) := by
  rw [queueAt_clear] at hw
  split_ifs at hw with hnamed
  · obtain ⟨w', hw', rfl⟩ := mem_map.mp hw
    by_cases hcancelled : w'.cancelled = true
    · rw [if_pos hcancelled]
      exact .inr ⟨hcancelled, .inl hw'⟩
    · rw [if_neg hcancelled]
      exact .inr ⟨rfl, .inr rfl⟩
  · refine .inl ⟨hw, fun key hkey => hnamed ⟨_, JsMap.get_eq_some_iff.mp hkey, rfl⟩⟩

theorem mem_waiting (hw : w ∈ s.waiting) :
    ∃ key i, s.states.get key = some i ∧ w ∈ queueAt s.heap i := by
  obtain ⟨e, he, hmem⟩ := mem_flatMap.mp hw
  exact ⟨e.1, e.2, JsMap.get_eq_some_iff.mpr he, (mem_filter.mp hmem).1⟩

theorem LockHistory.settledCalls_clear (h : LockHistory V) :
    (h.giveUp h.lock.clear).settledCalls =
      h.settledCalls ++ h.lock.waiting.map Waiter.call := by
  simp [settledCalls, giveUp, newRejections, clear, rejection, Function.comp_def]

theorem Logged.clear (hs : Logged h) (hq : Queued o h.lock) :
    Logged (h.giveUp h.lock.clear) where
  running := hs.running
  started_lt := hs.started_lt
  settled_lt call hcall := by
    rw [LockHistory.settledCalls_clear] at hcall
    rcases mem_append.mp hcall with hcall | hcall
    · exact hs.settled_lt call hcall
    · obtain ⟨w, hw, rfl⟩ := mem_map.mp hcall
      obtain ⟨-, i, -, hmem⟩ := mem_waiting hw
      exact hq.lt hmem
  disarmed j w hw hcancelled := by
    rcases mem_queueAt_clear hw with ⟨hold, -⟩ | ⟨-, hold | htimer⟩
    · exact hs.disarmed j w hold hcancelled
    · exact hs.disarmed j w hold hcancelled
    · exact htimer
  live j w hw hlive := by
    rcases mem_queueAt_clear hw with ⟨hold, hunnamed⟩ | ⟨hcancelled, -⟩
    · obtain ⟨hacc, hstarted, hsettled⟩ := hs.live j w hold hlive
      refine ⟨hacc, hstarted, ?_⟩
      rw [LockHistory.settledCalls_clear, mem_append, not_or]
      refine ⟨hsettled, fun hmem => ?_⟩
      obtain ⟨w', hw', heq⟩ := mem_map.mp hmem
      obtain ⟨key, i, hkey, hmem'⟩ := mem_waiting hw'
      have hij := hq.apart i j _ (mem_tagsAt hmem') _ (mem_tagsAt hold) heq
      exact hunnamed key (hij ▸ hkey)
    · rw [hlive] at hcancelled
      cases hcancelled

/-! ## Every run -/

/-- What holds of a lock and its record in any run. -/
structure Recorded (o : LockOptions) (h : LockHistory V) : Prop where
  placed : Placed o h.lock
  logged : Logged h

theorem recorded_init : Recorded o (historyMachine V o).init := ⟨placed_create o, logged_init⟩

theorem Recorded.step (hs : Recorded o h) {e : HistoryEvent V}
    (hstep : (historyMachine V o).step h e = some h') : Recorded o h' := by
  obtain ⟨hplaced, hlogged⟩ := hs
  cases e with
  | withLock c =>
    cases hstep
    refine ⟨hplaced.withLock c, ?_⟩
    rcases history_withLock_cases (o := o) hplaced.named c with ⟨e, heq, -⟩ | ⟨key, -, heq⟩ |
      ⟨key, ms, i, ks, -, hks, -, heq⟩ <;> rw [heq]
    · exact hlogged.recordRejected hplaced.queued e
    · exact hlogged.recordAcquired hplaced.queued key
    · exact hlogged.recordQueued key hks ms
  | settle call result =>
    have hplaced' : Placed o h'.lock := by
      obtain ⟨s, hsettle, rfl⟩ := Option.map_eq_some_iff.mp hstep
      exact hplaced.settle hsettle
    refine ⟨hplaced', ?_⟩
    obtain ⟨hd, hmem, rfl, ks, hks, ⟨w, queue, hdrop, rfl⟩ | ⟨-, rfl⟩⟩ :=
      history_settle_cases hplaced.named hstep
    · exact hlogged.recordPromoted hplaced.queued hmem hks hdrop result
    · exact hlogged.recordReleased hmem hks result
  | timeout call =>
    obtain ⟨s, hexpire, hs⟩ := Option.map_eq_some_iff.mp hstep
    obtain ⟨i, w, ms, hw, rfl, -, heq⟩ := history_timeout_cases hstep
    refine ⟨?_, heq ▸ hlogged.recordTimedOut hplaced.queued hw ms⟩
    cases hs
    exact hplaced.expire hexpire
  | clear =>
    cases hstep
    exact ⟨hplaced.clear, hlogged.clear hplaced.queued⟩

theorem recorded_of_reaches {es : List (HistoryEvent V)}
    (hrun : (historyMachine V o).Reaches es h) : Recorded o h :=
  hrun.invariant recorded_init fun _ _ _ hI _ hstep => hI.step hstep

end AdapterWs.Lock
