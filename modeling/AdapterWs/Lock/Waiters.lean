import AdapterWs.Lock.KeyState

/-!
# The waiters of a lock

The key states that a key names, their holders and their queues, in any run: also after a clear
has left the functions running, and after such a function has released its key by name.
-/

namespace AdapterWs.Lock

open JsString List LockRegistry

variable {o : LockOptions} {s s' : LockRegistry} {heap : List KeyState} {i : ℕ} {ks : KeyState}
  {key : JsString} {call : ℕ}

/-! ## Queues -/

/-- The waiters of a key state. -/
def queueAt (heap : List KeyState) (i : ℕ) : List Waiter := (heap[i]?.map KeyState.queue).getD []

/-- The waiters of a key. -/
def LockRegistry.queueOf (s : LockRegistry) (key : JsString) : List Waiter :=
  match s.states.get key with
  | some i => queueAt s.heap i
  | none => []

theorem queueAt_of_getElem? (h : heap[i]? = some ks) : queueAt heap i = ks.queue := by
  simp [queueAt, h]

theorem queueAt_set (hi : i < heap.length) (ks : KeyState) (j : ℕ) :
    queueAt (heap.set i ks) j = if i = j then ks.queue else queueAt heap j := by
  by_cases hij : i = j
  · subst hij
    simp [queueAt, hi]
  · simp [queueAt, hij]

theorem queueAt_concat (heap : List KeyState) (b : Bool) (j : ℕ) :
    queueAt (heap ++ [⟨b, []⟩]) j = queueAt heap j := by
  rcases lt_trichotomy j heap.length with hj | rfl | hj
  · simp [queueAt, getElem?_append_left hj]
  · simp [queueAt]
  · have hout : (heap ++ [KeyState.mk b []]).length ≤ j := by
      rw [length_append]
      exact hj
    rw [queueAt, queueAt, getElem?_eq_none hout, getElem?_eq_none hj.le]

theorem queueAt_map_cancelCall (heap : List KeyState) (call j : ℕ) :
    queueAt (heap.map (cancelCall call)) j =
      (queueAt heap j).map fun w => if w.call = call then w.cancel else w := by
  cases hj : heap[j]? <;> simp [queueAt, hj, cancelCall]

theorem LockRegistry.queueOf_of_get (h : s.states.get key = some i) :
    s.queueOf key = queueAt s.heap i := by
  rw [queueOf, h]

/-- The call of each waiter of a key state, and the key it waits for. -/
def tagsAt (heap : List KeyState) (i : ℕ) : List (ℕ × JsString) :=
  (queueAt heap i).map fun w => (w.call, w.key)

theorem mem_tagsAt {w : Waiter} (h : w ∈ queueAt heap i) : (w.call, w.key) ∈ tagsAt heap i :=
  mem_map_of_mem h

@[simp] theorem length_tagsAt (heap : List KeyState) (i : ℕ) :
    (tagsAt heap i).length = (queueAt heap i).length :=
  length_map _

theorem tagsAt_map_cancelCall (heap : List KeyState) (call j : ℕ) :
    tagsAt (heap.map (cancelCall call)) j = tagsAt heap j := by
  rw [tagsAt, queueAt_map_cancelCall, map_map]
  refine map_congr_left fun w _ => ?_
  by_cases hw : w.call = call <;> simp [hw, Waiter.cancel]

/-! ## The invariants of a lock -/

/-- What the names of the registry and the holders refer to. -/
structure Named (s : LockRegistry) : Prop where
  /-- A key state that a key names is running. -/
  running : ∀ key i, s.states.get key = some i → ∃ ks, s.heap[i]? = some ks ∧ ks.running = true
  /-- Two keys name two key states. -/
  injective : ∀ key key' i, s.states.get key = some i → s.states.get key' = some i → key = key'
  /-- Only the key of a holder names the key state it acquired. -/
  owner : ∀ h ∈ s.holders, ∀ key, s.states.get key = some h.state → key = h.key
  /-- A holder's key state exists. -/
  exists_state : ∀ h ∈ s.holders, h.state < s.heap.length

/-- Where the waiters are. -/
structure Queued (o : LockOptions) (s : LockRegistry) : Prop where
  /-- The waiters of a key wait for it. -/
  key_eq : ∀ key i, s.states.get key = some i → ∀ t ∈ tagsAt s.heap i, t.2 = key
  /-- A queue is in the order of the calls. -/
  ascending : ∀ i, (tagsAt s.heap i).Pairwise fun t t' => t.1 < t'.1
  /-- A waiter has called. -/
  fresh : ∀ i, ∀ t ∈ tagsAt s.heap i, t.1 < s.calls
  /-- A call waits in one queue. -/
  apart : ∀ i j, ∀ t ∈ tagsAt s.heap i, ∀ t' ∈ tagsAt s.heap j, t.1 = t'.1 → i = j
  /-- No queue exceeds its bound. -/
  bounded : ∀ i, (tagsAt s.heap i).length ≤ o.maxWaitersPerKey

/-- What holds of a lock in any run. -/
structure Placed (o : LockOptions) (s : LockRegistry) : Prop where
  named : Named s
  queued : Queued o s

theorem named_create : Named .create where
  running _ _ h := by cases h
  injective _ _ _ h := by cases h
  owner _ h := absurd h not_mem_nil
  exists_state _ h := absurd h not_mem_nil

theorem queued_create (o : LockOptions) : Queued o .create where
  key_eq _ _ h := by cases h
  ascending _ := List.Pairwise.nil
  fresh _ _ h := absurd h not_mem_nil
  apart _ _ _ h := absurd h not_mem_nil
  bounded _ := Nat.zero_le _

theorem placed_create (o : LockOptions) : Placed o .create := ⟨named_create, queued_create o⟩

/-- Waiters leave, and no name comes to an older queue. -/
theorem Queued.of_sublist (hs : Queued o s) (hcalls : s.calls ≤ s'.calls)
    (hget : ∀ key i, s'.states.get key = some i →
      s.states.get key = some i ∨ tagsAt s'.heap i = [])
    (hsub : ∀ i, (tagsAt s'.heap i).Sublist (tagsAt s.heap i)) : Queued o s' where
  key_eq key i hi t ht := by
    rcases hget key i hi with hold | hnil
    · exact hs.key_eq key i hold t ((hsub i).subset ht)
    · rw [hnil] at ht
      cases ht
  ascending i := (hs.ascending i).sublist (hsub i)
  fresh i t ht := (hs.fresh i t ((hsub i).subset ht)).trans_le hcalls
  apart i j t ht t' ht' := hs.apart i j t ((hsub i).subset ht) t' ((hsub j).subset ht')
  bounded i := (hsub i).length_le.trans (hs.bounded i)

/-! ## What a step can do -/

/-- The state after a call that is rejected. -/
def LockRegistry.afterRejected (s : LockRegistry) (e : LockError) : LockRegistry :=
  { s with calls := s.calls + 1 }.reject s.calls e

/-- The state after a call that acquires a free key. -/
def LockRegistry.afterAcquired (s : LockRegistry) (key : JsString) : LockRegistry :=
  { s with
    calls := s.calls + 1
    states := s.states.set key s.heap.length
    heap := s.heap ++ [KeyState.mk true []] }.runHead s.calls key s.heap.length s.clears

/-- The waiter of the next call. -/
def LockRegistry.nextWaiter (s : LockRegistry) (key : JsString) (maxWaitMs : Option ℕ) : Waiter :=
  ⟨s.calls, key, s.clears, maxWaitMs, false⟩

/-- The state after a call that waits. -/
def LockRegistry.afterQueued (s : LockRegistry) (i : ℕ) (ks : KeyState) (w : Waiter) :
    LockRegistry :=
  { s with
    calls := s.calls + 1
    heap := s.heap.set i { ks with queue := ks.queue ++ [w] } }

/-- The state after a completion that promotes a waiter. -/
def LockRegistry.afterPromoted (s : LockRegistry) (h : Holder) (ks : KeyState) (w : Waiter)
    (queue : List Waiter) : LockRegistry :=
  { s with
    holders := s.holders.erase h
    heap := s.heap.set h.state { ks with queue := queue } }.runHead w.call h.key h.state w.since

/-- The state after a completion that releases its key. -/
def LockRegistry.afterReleased (s : LockRegistry) (h : Holder) : LockRegistry :=
  { s with
    holders := s.holders.erase h
    heap := s.heap.set h.state ⟨false, []⟩
    states := s.states.delete h.key }

theorem checkCall_ok {c : WithLockCall} {maxWaitMs : Option ℕ}
    (h : checkCall o c = .ok (key, maxWaitMs)) : c.key = some key := by
  rw [checkCall] at h
  cases hkey : c.key with
  | none => simp [hkey] at h
  | some k =>
    simp only [hkey] at h
    split_ifs at h
    cases hwait : c.maxWaitMs with
    | none => simp_all
    | some m => cases m <;> simp_all

theorem checkCall_error {c : WithLockCall} {e : LockError}
    (h : checkCall o c = .error e) (key : JsString) (max : ℕ) :
    e ≠ .queueFull key max := by
  rintro rfl
  rw [checkCall] at h
  cases hkey : c.key with
  | none => simp [hkey] at h
  | some k =>
    simp only [hkey] at h
    split_ifs at h <;> try simp at h
    cases hwait : c.maxWaitMs with
    | none => simp [hwait] at h
    | some m => cases m <;> simp [hwait] at h

/-- A call is rejected, acquires a free key or waits for one that is held. -/
theorem withLock_cases (hs : Named s) (c : WithLockCall) :
    (∃ e, s.withLock o c = s.afterRejected e ∧ ∀ key max, e = .queueFull key max →
      ∃ ms, checkCall o c = .ok (key, ms) ∧
        o.maxWaitersPerKey ≤ (s.queueOf key).length) ∨
    (∃ key, c.key = some key ∧ s.states.get key = none ∧
      s.withLock o c = s.afterAcquired key) ∨
    ∃ key ms i ks, checkCall o c = .ok (key, ms) ∧ s.states.get key = some i ∧
      s.heap[i]? = some ks ∧ ks.running = true ∧ ks.queue.length < o.maxWaitersPerKey ∧
      s.withLock o c = s.afterQueued i ks (s.nextWaiter key ms) := by
  rw [withLock]
  cases hcheck : checkCall o c with
  | error e =>
    refine .inl ⟨e, rfl, fun key max he => ?_⟩
    exact absurd he (checkCall_error hcheck key max)
  | ok p =>
    obtain ⟨key, ms⟩ := p
    simp only
    cases hkey : s.states.get key with
    | none =>
      by_cases hmax : o.maxKeys ≤ s.states.size
      · refine .inl ⟨.activeKeys o.maxKeys, by simp only [if_pos hmax]; rfl, ?_⟩
        intro key' max he
        cases he
      · exact .inr (.inl ⟨key, checkCall_ok hcheck, hkey, by simp only [if_neg hmax]; rfl⟩)
    | some i =>
      obtain ⟨ks, hks, hrunning⟩ := hs.running key i hkey
      simp only [hks, acquire]
      rw [if_neg (by rw [hrunning]; exact Bool.noConfusion)]
      by_cases hfull : o.maxWaitersPerKey ≤ ks.queue.length
      · refine .inl ⟨.queueFull key o.maxWaitersPerKey, if_pos hfull, ?_⟩
        intro key' max he
        cases he
        refine ⟨ms, rfl, ?_⟩
        rw [queueOf_of_get hkey, queueAt_of_getElem? hks]
        exact hfull
      · exact .inr (.inr ⟨key, ms, i, ks, rfl, hkey, hks, hrunning, Nat.lt_of_not_le hfull,
          if_neg hfull⟩)

/-- A completion promotes the first waiter that has not given up, or releases the key. -/
theorem settle_cases (hs : Named s) (h : s.settle call = some s') :
    ∃ hd ∈ s.holders, hd.call = call ∧ ∃ ks, s.heap[hd.state]? = some ks ∧
      ((∃ w queue, ks.queue.dropWhile Waiter.cancelled = w :: queue ∧
          s' = s.afterPromoted hd ks w queue) ∨
        (∀ w ∈ ks.queue, w.cancelled = true) ∧ s' = s.afterReleased hd) := by
  obtain ⟨hd, hfind, rfl⟩ := Option.map_eq_some_iff.mp h
  have hmem := mem_of_find?_eq_some hfind
  have hcall : hd.call = call := by simpa using find?_some hfind
  obtain ⟨ks, hks⟩ : ∃ ks, s.heap[hd.state]? = some ks :=
    ⟨_, getElem?_eq_getElem (hs.exists_state hd hmem)⟩
  refine ⟨hd, hmem, hcall, ks, hks, ?_⟩
  simp only [advance, hks]
  cases hq : ks.queue.dropWhile Waiter.cancelled with
  | nil => exact .inr ⟨dropWhile_eq_nil_iff.mp hq, rfl⟩
  | cons w queue => exact .inl ⟨w, queue, rfl, rfl⟩

theorem expire_cases (h : s.expire call = some s') :
    ∃ i w ms, w ∈ queueAt s.heap i ∧ w.call = call ∧ w.timer = some ms ∧
      s' = { s with heap := s.heap.map (cancelCall call) }.reject call
        (.timedOut w.key ms) := by
  obtain ⟨⟨w, ms⟩, harmed, rfl⟩ := Option.map_eq_some_iff.mp h
  obtain ⟨w', hw', hsome⟩ := exists_of_findSome?_eq_some harmed
  obtain ⟨ks, hks, hmem⟩ := mem_flatMap.mp hw'
  obtain ⟨i, hi⟩ := mem_iff_getElem?.mp hks
  split_ifs at hsome with hcall
  obtain ⟨ms', htimer, hpair⟩ := Option.map_eq_some_iff.mp hsome
  obtain ⟨rfl, rfl⟩ := Prod.mk.inj hpair
  exact ⟨i, w', ms', by rw [queueAt_of_getElem? hi]; exact hmem, hcall, htimer, rfl⟩

/-! ## The steps keep the invariants -/

section

variable (hs : Named s)
include hs

theorem Named.afterRejected (e : LockError) : Named (s.afterRejected e) :=
  ⟨hs.running, hs.injective, hs.owner, hs.exists_state⟩

theorem Named.lt (hi : s.states.get key = some i) : i < s.heap.length := by
  obtain ⟨ks, hks, -⟩ := hs.running key i hi
  exact (List.getElem?_eq_some_iff.mp hks).1

theorem Named.afterAcquired (key : JsString) : Named (s.afterAcquired key) where
  running key' i hi := by
    simp only [LockRegistry.afterAcquired, LockRegistry.runHead, JsMap.get_set] at hi ⊢
    split_ifs at hi with hk
    · cases hi
      exact ⟨⟨true, []⟩, getElem?_concat_length, rfl⟩
    · obtain ⟨ks, hks, hrunning⟩ := hs.running key' i hi
      exact ⟨ks, (getElem?_append_left (hs.lt hi)).trans hks, hrunning⟩
  injective key' key'' i hi hi' := by
    simp only [LockRegistry.afterAcquired, LockRegistry.runHead, JsMap.get_set] at hi hi'
    split_ifs at hi hi' with hk hk' hk'
    · exact hk.symm.trans hk'
    · cases hi
      exact absurd (hs.lt hi') (lt_irrefl _)
    · cases hi'
      exact absurd (hs.lt hi) (lt_irrefl _)
    · exact hs.injective key' key'' i hi hi'
  owner h hh key' hi := by
    simp only [LockRegistry.afterAcquired, LockRegistry.runHead, JsMap.get_set] at hi
    rcases mem_concat.mp hh with hh | rfl
    · split_ifs at hi with hk
      · have hlt := hs.exists_state h hh
        rw [← Option.some.inj hi] at hlt
        exact absurd hlt (lt_irrefl _)
      · exact hs.owner h hh key' hi
    · split_ifs at hi with hk
      · exact hk.symm
      · exact absurd (hs.lt hi) (lt_irrefl _)
  exists_state h hh := by
    simp only [LockRegistry.afterAcquired, LockRegistry.runHead, length_append,
      length_singleton]
    rcases mem_concat.mp hh with hh | rfl
    · exact Nat.lt_succ_of_lt (hs.exists_state h hh)
    · exact Nat.lt_succ_self _

theorem Named.setHeap (hlength : heap.length = s.heap.length)
    (hrunning : ∀ (i : ℕ) (ks : KeyState), s.heap[i]? = some ks →
      ∃ ks' : KeyState, heap[i]? = some ks' ∧ ks'.running = ks.running) :
    Named { s with heap := heap } where
  running key i hi := by
    obtain ⟨ks, hks, hrun⟩ := hs.running key i hi
    obtain ⟨ks', hks', heq⟩ := hrunning i ks hks
    exact ⟨ks', hks', heq.trans hrun⟩
  injective := hs.injective
  owner := hs.owner
  exists_state h hh := hlength ▸ hs.exists_state h hh

theorem Named.setQueue (hks : s.heap[i]? = some ks) (queue : List Waiter) :
    Named { s with heap := s.heap.set i { ks with queue := queue } } := by
  refine hs.setHeap (length_set ..) fun j ks' hks' => ?_
  by_cases hij : i = j
  · subst hij
    cases hks.symm.trans hks'
    exact ⟨_, List.getElem?_set_self (List.getElem?_eq_some_iff.mp hks).1, rfl⟩
  · exact ⟨ks', (getElem?_set_ne hij).trans hks', rfl⟩

theorem Named.afterQueued (hks : s.heap[i]? = some ks) (w : Waiter) :
    Named (s.afterQueued i ks w) :=
  let hset := hs.setQueue hks (ks.queue ++ [w])
  ⟨hset.running, hset.injective, hset.owner, hset.exists_state⟩

theorem Named.afterPromoted {h : Holder} (hh : h ∈ s.holders) (hks : s.heap[h.state]? = some ks)
    (w : Waiter) (queue : List Waiter) :
    Named (s.afterPromoted h ks w queue) where
  running := (hs.setQueue hks queue).running
  injective := hs.injective
  owner h' hh' key hi := by
    rcases mem_concat.mp hh' with hh' | rfl
    · exact hs.owner h' (mem_of_mem_erase hh') key hi
    · exact hs.owner h hh key hi
  exists_state h' hh' := by
    simp only [LockRegistry.afterPromoted, LockRegistry.runHead, length_set]
    rcases mem_concat.mp hh' with hh' | rfl
    · exact hs.exists_state h' (mem_of_mem_erase hh')
    · exact hs.exists_state h hh

theorem Named.afterReleased {h : Holder} (hh : h ∈ s.holders) : Named (s.afterReleased h) := by
  have hget : ∀ key i, (s.afterReleased h).states.get key = some i → h.key ≠ key ∧
      s.states.get key = some i := by
    intro key i hi
    simp only [LockRegistry.afterReleased, JsMap.get_delete] at hi
    split_ifs at hi with hk
    exact ⟨hk, hi⟩
  refine ⟨fun key i hi => ?_, fun key key' i hi hi' => ?_, fun h' hh' key hi => ?_,
    fun h' hh' => ?_⟩
  · obtain ⟨hk, hi⟩ := hget key i hi
    obtain ⟨ks, hks, hrunning⟩ := hs.running key i hi
    have hne : h.state ≠ i := by
      rintro rfl
      exact hk (hs.owner h hh key hi).symm
    exact ⟨ks, (getElem?_set_ne hne).trans hks, hrunning⟩
  · exact hs.injective key key' i (hget key i hi).2 (hget key' i hi').2
  · exact hs.owner h' (mem_of_mem_erase hh') key (hget key _ hi).2
  · simp only [LockRegistry.afterReleased, length_set]
    exact hs.exists_state h' (mem_of_mem_erase hh')

end

theorem Queued.afterAcquired (hs : Queued o s) (key : JsString) :
    Queued o (s.afterAcquired key) := by
  have htags : ∀ i, tagsAt (s.afterAcquired key).heap i = tagsAt s.heap i := by
    intro i
    rw [tagsAt, tagsAt, LockRegistry.afterAcquired, LockRegistry.runHead, queueAt_concat]
  refine hs.of_sublist (Nat.le_succ _) (fun key' i hi => ?_) fun i => by rw [htags]
  simp only [LockRegistry.afterAcquired, LockRegistry.runHead, JsMap.get_set] at hi
  split_ifs at hi with hk
  · cases hi
    refine .inr ((htags _).trans ?_)
    simp [tagsAt, queueAt]
  · exact .inl hi

theorem tagsAt_afterQueued (hks : s.heap[i]? = some ks) (w : Waiter) (j : ℕ) :
    tagsAt (s.afterQueued i ks w).heap j =
      tagsAt s.heap j ++ if i = j then [(w.call, w.key)] else [] := by
  rw [tagsAt, afterQueued, queueAt_set (List.getElem?_eq_some_iff.mp hks).1]
  by_cases hij : i = j
  · subst hij
    simp [tagsAt, queueAt_of_getElem? hks]
  · simp [tagsAt, hij]

theorem Queued.afterQueued (hs : Queued o s) (hn : Named s) (hkey : s.states.get key = some i)
    (hks : s.heap[i]? = some ks) (hroom : ks.queue.length < o.maxWaitersPerKey) (ms : Option ℕ) :
    Queued o (s.afterQueued i ks (s.nextWaiter key ms)) := by
  have hmem : ∀ j, ∀ t ∈ tagsAt (s.afterQueued i ks (s.nextWaiter key ms)).heap j,
      t ∈ tagsAt s.heap j ∨ i = j ∧ t = (s.calls, key) := by
    intro j t ht
    rw [tagsAt_afterQueued hks] at ht
    rcases mem_append.mp ht with ht | ht
    · exact .inl ht
    · split_ifs at ht with hij
      · exact .inr ⟨hij, mem_singleton.mp ht⟩
      · cases ht
  refine ⟨fun key' j hj t ht => ?_, fun j => ?_, fun j t ht => ?_, fun j k t ht t' ht' heq => ?_,
    fun j => ?_⟩
  · rcases hmem j t ht with ht | ⟨rfl, rfl⟩
    · exact hs.key_eq key' j hj t ht
    · exact hn.injective key key' i hkey hj
  · rw [tagsAt_afterQueued hks]
    by_cases hij : i = j
    · rw [if_pos hij, pairwise_append]
      refine ⟨hs.ascending j, pairwise_singleton .., fun t ht t' ht' => ?_⟩
      rw [mem_singleton.mp ht']
      exact hs.fresh j t ht
    · rw [if_neg hij, append_nil]
      exact hs.ascending j
  · rcases hmem j t ht with ht | ⟨rfl, rfl⟩
    · exact Nat.lt_succ_of_lt (hs.fresh j t ht)
    · exact Nat.lt_succ_self _
  · rcases hmem j t ht with ht | ⟨rfl, rfl⟩ <;> rcases hmem k t' ht' with ht' | ⟨rfl, rfl⟩
    · exact hs.apart j k t ht t' ht' heq
    · exact absurd heq (ne_of_lt (hs.fresh j t ht))
    · exact absurd heq.symm (ne_of_lt (hs.fresh k t' ht'))
    · rfl
  · rw [tagsAt_afterQueued hks, length_append]
    by_cases hij : i = j
    · subst hij
      rw [length_tagsAt, queueAt_of_getElem? hks, if_pos rfl]
      exact hroom
    · rw [if_neg hij]
      exact hs.bounded j

/-- A completion takes waiters off the front of one queue. -/
theorem Queued.afterSet (hs : Queued o s) (hks : s.heap[i]? = some ks) {b : Bool}
    {queue : List Waiter} (hsub : queue.Sublist ks.queue)
    (hheap : s'.heap = s.heap.set i ⟨b, queue⟩) (hcalls : s.calls ≤ s'.calls)
    (hget : ∀ key j, s'.states.get key = some j → s.states.get key = some j) : Queued o s' := by
  refine hs.of_sublist hcalls (fun key j hj => .inl (hget key j hj)) fun j => ?_
  rw [hheap, tagsAt, queueAt_set (List.getElem?_eq_some_iff.mp hks).1]
  by_cases hij : i = j
  · subst hij
    rw [if_pos rfl, tagsAt, queueAt_of_getElem? hks]
    exact hsub.map _
  · rw [if_neg hij]
    exact List.Sublist.refl _

theorem Placed.withLock (hs : Placed o s) (c : WithLockCall) : Placed o (s.withLock o c) := by
  rcases withLock_cases (o := o) hs.named c with ⟨e, heq, -⟩ | ⟨key, -, -, heq⟩ |
    ⟨key, ms, i, ks, -, hkey, hks, -, hroom, heq⟩ <;> rw [heq]
  · refine ⟨hs.named.afterRejected e, hs.queued.of_sublist (Nat.le_succ _) ?_ ?_⟩
    · exact fun _ _ hi => .inl hi
    · exact fun _ => List.Sublist.refl _
  · exact ⟨hs.named.afterAcquired key, hs.queued.afterAcquired key⟩
  · exact ⟨hs.named.afterQueued hks _, hs.queued.afterQueued hs.named hkey hks hroom ms⟩

theorem Placed.settle (hs : Placed o s) (h : s.settle call = some s') : Placed o s' := by
  obtain ⟨hd, hmem, -, ks, hks, ⟨w, queue, hdrop, rfl⟩ | ⟨-, rfl⟩⟩ := settle_cases hs.named h
  · refine ⟨hs.named.afterPromoted hmem hks w queue, hs.queued.afterSet hks ?_ rfl le_rfl ?_⟩
    · have hsub := dropWhile_sublist (l := ks.queue) Waiter.cancelled
      rw [hdrop] at hsub
      exact (sublist_cons_self w queue).trans hsub
    · exact fun _ _ hi => hi
  · refine ⟨hs.named.afterReleased hmem, hs.queued.afterSet hks (nil_sublist _) rfl le_rfl ?_⟩
    intro key i hi
    simp only [afterReleased, JsMap.get_delete] at hi
    split_ifs at hi
    exact hi

theorem Placed.expire (hs : Placed o s) (h : s.expire call = some s') : Placed o s' := by
  obtain ⟨i, w, ms, -, -, -, rfl⟩ := expire_cases h
  constructor
  · have hmap : Named { s with heap := s.heap.map (cancelCall call) } := by
      refine hs.named.setHeap (length_map _) fun j ks hks => ?_
      exact ⟨cancelCall call ks, by simp [hks], rfl⟩
    exact ⟨hmap.running, hmap.injective, hmap.owner, hmap.exists_state⟩
  · refine hs.queued.of_sublist le_rfl (fun _ _ hi => .inl hi) fun j => ?_
    simp only [reject, tagsAt_map_cancelCall]
    exact List.Sublist.refl _

/-- A clear cancels the waiters of the key states that a key names. -/
theorem queueAt_clear (s : LockRegistry) (i : ℕ) :
    queueAt s.clear.heap i = if ∃ e ∈ s.states.entries, e.2 = i
      then (queueAt s.heap i).map fun w => if w.cancelled then w else w.cancel
      else queueAt s.heap i := by
  cases hi : s.heap[i]? with
  | none => simp [queueAt, clear, hi]
  | some ks =>
    by_cases hnamed : ∃ e ∈ s.states.entries, e.2 = i
    · simp only [queueAt, clear, getElem?_mapIdx, hi, Option.map_some,
        Option.getD_some, if_pos hnamed]
      rfl
    · simp [queueAt, clear, hi, if_neg hnamed]

theorem tagsAt_clear (s : LockRegistry) (i : ℕ) : tagsAt s.clear.heap i = tagsAt s.heap i := by
  rw [tagsAt, queueAt_clear]
  by_cases hnamed : ∃ e ∈ s.states.entries, e.2 = i
  · rw [if_pos hnamed, map_map, tagsAt]
    refine map_congr_left fun w _ => ?_
    by_cases hw : w.cancelled = true <;> simp [hw, Waiter.cancel]
  · rw [if_neg hnamed, tagsAt]

theorem Named.clear (hs : Named s) : Named s.clear where
  running _ _ hi := by cases hi
  injective _ _ _ hi := by cases hi
  owner _ _ _ hi := by cases hi
  exists_state h hh := by
    simp only [LockRegistry.clear, length_mapIdx]
    exact hs.exists_state h hh

theorem Placed.clear (hs : Placed o s) : Placed o s.clear := by
  refine ⟨hs.named.clear, hs.queued.of_sublist le_rfl (fun _ _ hi => by cases hi) fun i => ?_⟩
  rw [tagsAt_clear]

end AdapterWs.Lock
