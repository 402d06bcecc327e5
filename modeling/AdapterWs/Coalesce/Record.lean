import AdapterWs.Coalesce.Pump

/-!
# What was set and what was sent

The queue of a connection has the newest value of a key as long as it is not accepted. This needs of
the loops that they send a value only while it is in the queue, and that they take it out then.
-/

namespace AdapterWs.Coalesce

open List

variable {C K D : Type} [DecidableEq C] [DecidableEq K] {s s' : Coalescer C K D} {conn c : C}
  {key k : K} {log : List (LogEntry C K)} {n : ℕ} {status : SendStatus}

/-- The newest value of a key. -/
def newest (log : List (LogEntry C K)) (conn : C) (key : K) : Option ℕ :=
  (log.filterMap fun
    | .set c k n => if c = conn ∧ k = key then some n else none
    | .send .. => none).head?

/-- The values that were sent or accepted. -/
def acceptedOf (log : List (LogEntry C K)) : List ℕ :=
  log.filterMap fun
    | .set .. => none
    | .send _ _ n status => if status = .dropped then none else some n

/-- The last outcome of a send on a connection. -/
def lastStatus (log : List (LogEntry C K)) (conn : C) : Option SendStatus :=
  (log.filterMap fun
    | .set .. => none
    | .send c _ _ status => if c = conn then some status else none).head?

theorem newest_set (c : C) (k : K) (n : ℕ) : newest (.set c k n :: log) conn key =
    if c = conn ∧ k = key then some n else newest log conn key := by
  by_cases heq : c = conn ∧ k = key
  · simp [newest, heq]
  · simp [newest, heq]

omit [DecidableEq C] [DecidableEq K] in
theorem acceptedOf_send (c : C) (k : K) (n : ℕ) (status : SendStatus) :
    acceptedOf (.send c k n status :: log) =
      if status = .dropped then acceptedOf log else n :: acceptedOf log := by
  by_cases heq : status = .dropped
  · simp [acceptedOf, heq]
  · simp [acceptedOf, heq]

theorem mem_of_newest (h : newest log conn key = some n) : .set conn key n ∈ log := by
  induction log with
  | nil => cases h
  | cons entry log ih =>
    cases entry with
    | set c k m =>
      rw [newest_set] at h
      split_ifs at h with heq
      · obtain ⟨rfl, rfl⟩ := heq
        cases h
        exact (.head _)
      · exact .tail _ (ih h)
    | send c k m status => exact .tail _ (ih h)

/-- What is sent is the newest value of its key. -/
def FreshSends (log : List (LogEntry C K)) : Prop :=
  ∀ later conn key n status earlier, log = later ++ .send conn key n status :: earlier →
    newest earlier conn key = some n

theorem FreshSends.set (h : FreshSends log) (c : C) (k : K) (n : ℕ) :
    FreshSends (.set c k n :: log) := by
  intro later conn key m status earlier heq
  cases later with
  | nil => cases heq
  | cons entry later =>
    obtain ⟨-, rfl⟩ := cons.inj heq
    exact h later conn key m status earlier rfl

theorem FreshSends.send (h : FreshSends log) (hnewest : newest log conn key = some n)
    (status : SendStatus) : FreshSends (.send conn key n status :: log) := by
  intro later c k m status' earlier heq
  cases later with
  | nil =>
    obtain ⟨hentry, rfl⟩ := cons.inj heq
    obtain ⟨rfl, rfl, rfl, rfl⟩ := LogEntry.send.inj hentry
    exact hnewest
  | cons entry later =>
    obtain ⟨-, rfl⟩ := cons.inj heq
    exact h later c k m status' earlier rfl

/-- The queues agree with the log. -/
structure Recorded (s : Coalescer C K D) : Prop where
  ordered : ∀ conn, (s.pending conn).Ordered
  once : (acceptedOf s.log).Nodup
  fresh : FreshSends s.log
  lt : ∀ conn key n, .set conn key n ∈ s.log → n < s.sets
  accepted_lt : ∀ n ∈ acceptedOf s.log, n < s.sets
  unique : ∀ conn key c k n, .set conn key n ∈ s.log → .set c k n ∈ s.log → conn = c ∧ key = k
  queued : ∀ conn key entry, (s.pending conn).get key = some entry →
    newest s.log conn key = some entry.serial ∧ entry.serial ∉ acceptedOf s.log
  kept : ∀ conn, s.closed conn = false → ∀ key n, newest s.log conn key = some n →
    n ∈ acceptedOf s.log ∨ ((s.pending conn).get key).map QueuedEntry.serial = some n

theorem Recorded.congr (h : Recorded s) (hpending : s'.pending = s.pending)
    (hlog : s'.log = s.log) (hsets : s'.sets = s.sets) (hclosed : s'.closed = s.closed) :
    Recorded s' := by
  refine ⟨fun c => ?_, hlog ▸ h.once, ?_, fun c k n hmem => ?_, fun n hn => ?_,
    fun c k c' k' n hmem hmem' => ?_, fun c k e he => ?_, fun c hopen k n hn => ?_⟩
  · rw [hpending]
    exact h.ordered c
  · rw [hlog]
    exact h.fresh
  · rw [hsets]
    exact h.lt c k n (hlog ▸ hmem)
  · rw [hsets]
    exact h.accepted_lt n (hlog ▸ hn)
  · exact h.unique c k c' k' n (hlog ▸ hmem) (hlog ▸ hmem')
  · rw [hpending] at he
    rw [hlog]
    exact h.queued c k e he
  · rw [hclosed] at hopen
    rw [hlog] at hn ⊢
    rw [hpending]
    exact h.kept c hopen k n hn

omit [DecidableEq K] in
theorem pending_store (conn c : C) (queue : CursorMap K (QueuedEntry D)) :
    (s.store conn queue).pending c = if conn = c then queue else s.pending c := by
  by_cases heq : conn = c
  · subst heq
    simp [Coalescer.store]
  · simp [Coalescer.store, heq, Function.update_of_ne (Ne.symm heq)]

theorem Recorded.enqueue (h : Recorded s) (conn : C) (key : K) (entry : QueuedEntry D)
    (hserial : entry.serial = s.sets) : Recorded (s.enqueue conn key entry) := by
  have hget : ∀ c k, ((s.enqueue conn key entry).pending c).get k =
      if conn = c ∧ key = k then some entry else (s.pending c).get k := by
    intro c k
    change ((s.store conn _).pending c).get k = _
    rw [pending_store]
    by_cases heq : conn = c
    · subst heq
      rw [if_pos rfl, CursorMap.get_set]
      by_cases hkey : key = k <;> simp [hkey]
    · simp [heq]
  have haccepted : acceptedOf (s.enqueue conn key entry).log = acceptedOf s.log := rfl
  have hnewest : ∀ c k, newest (s.enqueue conn key entry).log c k =
      if conn = c ∧ key = k then some entry.serial else newest s.log c k := fun c k =>
    newest_set ..
  have hfresh : FreshSends (s.enqueue conn key entry).log :=
    h.fresh.set conn key entry.serial
  have hnew : ∀ c k, .set c k entry.serial ∉ s.log := fun c k hmem =>
    absurd (h.lt c k _ hmem) (hserial ▸ lt_irrefl _)
  refine ⟨fun c => ?_, h.once, hfresh, fun c k n hmem => ?_, fun n hn => ?_,
    fun c k c' k' n hmem hmem' => ?_, fun c k e he => ?_, fun c hopen k n hn => ?_⟩
  · change ((s.store conn _).pending c).Ordered
    rw [pending_store]
    split_ifs
    · exact (h.ordered conn).set key entry
    · exact h.ordered c
  · rcases mem_cons.mp hmem with heq | hmem
    · obtain ⟨-, -, rfl⟩ := LogEntry.set.inj heq
      rw [hserial]
      exact Nat.lt_succ_self _
    · exact Nat.lt_succ_of_lt (h.lt c k n hmem)
  · exact Nat.lt_succ_of_lt (h.accepted_lt n hn)
  · rcases mem_cons.mp hmem with heq | hold
    · obtain ⟨rfl, rfl, rfl⟩ := LogEntry.set.inj heq
      rcases mem_cons.mp hmem' with heq' | hold'
      · obtain ⟨rfl, rfl, -⟩ := LogEntry.set.inj heq'
        exact ⟨rfl, rfl⟩
      · exact absurd hold' (hnew c' k')
    · rcases mem_cons.mp hmem' with heq' | hold'
      · obtain ⟨rfl, rfl, rfl⟩ := LogEntry.set.inj heq'
        exact absurd hold (hnew c k)
      · exact h.unique _ _ _ _ _ hold hold'
  · rw [hget] at he
    rw [hnewest, haccepted]
    split_ifs at he ⊢ with hsame
    · cases he
      refine ⟨rfl, fun hmem => ?_⟩
      exact absurd (h.accepted_lt _ hmem) (hserial ▸ lt_irrefl _)
    · exact h.queued c k e he
  · rw [hnewest] at hn
    rw [hget, haccepted]
    split_ifs at hn ⊢ with hsame
    · exact .inr hn
    · exact h.kept c hopen k n hn

theorem Recorded.sent (h : Recorded s) {entry : QueuedEntry D}
    (hget : (s.pending conn).get key = some entry) (status : SendStatus)
    (hpending : s'.pending = if status = .dropped then s.pending
      else (s.store conn ((s.pending conn).delete key)).pending)
    (hlog : s'.log = .send conn key entry.serial status :: s.log) (hsets : s'.sets = s.sets)
    (hclosed : s'.closed = s.closed) : Recorded s' := by
  obtain ⟨hnewest, hnot⟩ := h.queued conn key entry hget
  have hnewest' : ∀ c k, newest s'.log c k = newest s.log c k := fun c k => by
    rw [hlog]
    rfl
  have hset : ∀ c k m, .set c k m ∈ s'.log → .set c k m ∈ s.log := by
    intro c k m hmem
    rw [hlog] at hmem
    rcases mem_cons.mp hmem with heq | hmem
    · cases heq
    · exact hmem
  have haccepted : acceptedOf s'.log =
      if status = .dropped then acceptedOf s.log else entry.serial :: acceptedOf s.log := by
    rw [hlog, acceptedOf_send]
  have hget' : ∀ c k, (s'.pending c).get k = if status ≠ .dropped ∧ conn = c ∧ key = k then none
      else (s.pending c).get k := by
    intro c k
    rw [hpending]
    by_cases hdropped : status = .dropped
    · simp [hdropped]
    · rw [if_neg hdropped, pending_store]
      by_cases heq : conn = c
      · subst heq
        rw [if_pos rfl, CursorMap.get_delete]
        by_cases hkey : key = k <;> simp [hkey, hdropped]
      · simp [heq]
  refine ⟨fun c => ?_, ?_, hlog ▸ h.fresh.send hnewest status,
    fun c k m hmem => hsets ▸ h.lt c k m (hset c k m hmem), fun m hm => ?_,
    fun c k c' k' m hmem hmem' => h.unique _ _ _ _ _ (hset _ _ _ hmem) (hset _ _ _ hmem'),
    fun c k e he => ?_, fun c hopen k m hm => ?_⟩
  · rw [hpending]
    split_ifs
    · exact h.ordered c
    · rw [pending_store]
      split_ifs
      · exact (h.ordered conn).delete key
      · exact h.ordered c
  · rw [haccepted]
    split_ifs
    · exact h.once
    · exact nodup_cons.mpr ⟨hnot, h.once⟩
  · rw [hsets]
    rw [haccepted] at hm
    split_ifs at hm
    · exact h.accepted_lt m hm
    · rcases mem_cons.mp hm with rfl | hm
      · exact h.lt _ _ _ (mem_of_newest hnewest)
      · exact h.accepted_lt m hm
  · rw [hget'] at he
    split_ifs at he with hdeleted
    obtain ⟨hnewestE, hnotE⟩ := h.queued c k e he
    rw [hnewest', haccepted]
    refine ⟨hnewestE, ?_⟩
    split_ifs with hdropped
    · exact hnotE
    · intro hmem
      rcases mem_cons.mp hmem with heq | hmem
      · -- a value is that of one key
        rw [heq] at hnewestE
        obtain ⟨rfl, rfl⟩ :=
          h.unique _ _ _ _ _ (mem_of_newest hnewest) (mem_of_newest hnewestE)
        exact hdeleted ⟨hdropped, rfl, rfl⟩
      · exact hnotE hmem
  · rw [hnewest'] at hm
    rw [hclosed] at hopen
    rw [haccepted, hget']
    have hkept := h.kept c hopen k m hm
    by_cases hdropped : status = .dropped
    · simpa [hdropped] using hkept
    · rw [if_neg hdropped]
      by_cases hsame : conn = c ∧ key = k
      · obtain ⟨rfl, rfl⟩ := hsame
        rw [hnewest] at hm
        cases hm
        exact .inl (.head _)
      · rw [if_neg (fun hdeleted => hsame hdeleted.2)]
        exact hkept.imp_left (mem_cons_of_mem _)

end AdapterWs.Coalesce
