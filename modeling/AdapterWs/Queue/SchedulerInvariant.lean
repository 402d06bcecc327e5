import AdapterWs.Lib.Ledger
import AdapterWs.Queue.Scheduler

/-!
# What the queue keeps

Four groups of facts, each kept by every move of the scheduler: the lists are what their links
say, the places in line are the keys' own, every task belongs to the key that the map names, and
the counters are the totals of the keys.
-/

namespace AdapterWs.Queue

open JsString Function List QueueState Int Ledger

namespace Bound

/-- `n <= bound`. -/
def Allows : Bound → ℤ → Prop
  | .finite b _, n => n ≤ b
  | .infinite, _ => True

theorem Allows.mono {b : Bound} {m n : ℤ} (h : b.Allows n) (hle : m ≤ n) : b.Allows m := by
  cases b with
  | finite b _ => exact le_trans hle h
  | infinite => trivial

/-- One more than what has not reached a bound is within it. -/
theorem allows_succ {b : Bound} {n : ℤ} (h : b.reached n = false) : b.Allows (n + 1) := by
  cases b with
  | finite b _ =>
    simp only [reached, decide_eq_false_iff_not] at h
    simp only [Allows]
    omega
  | infinite => trivial

theorem allows_zero (b : Bound) : b.Allows 0 := by
  cases b with
  | finite b _ => simp [Allows]
  | infinite => trivial

end Bound

namespace TaskQueue

/-- A key has a waiting task and room to run it. -/
def Startable (o : QueueOptions) (s : TaskQueue) (q : ℕ) : Prop :=
  0 < (s.states q).items.size ∧ (s.states q).running < o.concurrency

/-- The tasks of a key. -/
def work (s : TaskQueue) (q : ℕ) : ℤ := (s.states q).items.size + (s.states q).running

/-- The line and the waiting tasks are the lists their links say, and no task waits twice. -/
structure Lists (s : TaskQueue) (l : List ℕ) (w : ℕ → List ℕ) : Prop where
  line : s.serviceLine.Holds l
  fifo : ∀ q, (s.states q).items.Holds s.tasks (w q)
  apart : ∀ q q', q ≠ q' → ∀ i ∈ w q, i ∉ w q'
  allocated : ∀ q, ∀ i ∈ w q, i < s.allocated

/-- The places in line are the keys' own. -/
structure Places (o : QueueOptions) (s : TaskQueue) (l : List ℕ) : Prop where
  placed : ∀ q node, (s.states q).lineNode = some node →
    node ∈ l ∧ s.queues.get (s.serviceLine.nodes node).key = some q
  owned : ∀ node ∈ l, ∃ q, (s.states q).lineNode = some node
  startable : ∀ q, (s.states q).lineNode ≠ none → s.Startable o q

/-- Every task belongs to the key that the map names. -/
structure Homes (s : TaskQueue) (w : ℕ → List ℕ) : Prop where
  injective : ∀ k k' q, s.queues.get k = some q → s.queues.get k' = some q → k = k'
  made : ∀ k q, s.queues.get k = some q → q < s.made
  waiting : ∀ q, ∀ i ∈ w q, s.queues.get (s.tasks i).key = some q
  inFlight : ∀ f ∈ s.inFlight, s.queues.get f.key = some f.state
  running : ∀ q, (s.states q).running = s.inFlight.countP fun f => f.state = q

/-- The counters are the totals of the keys, within the bounds. -/
structure Counted (o : QueueOptions) (s : TaskQueue) : Prop where
  pending : s.pendingCurrent =
    Ledger.total (fun q => (s.states q).items.size) (List.range s.made)
  running : s.runningCurrent = Ledger.total (fun q => (s.states q).running) (List.range s.made)
  pushed : s.pushedTotal = s.pendingCurrent + s.runningCurrent + s.completedTotal +
    s.failedTotal + s.clearedTotal
  concurrency : ∀ q, (s.states q).running ≤ o.concurrency
  maxRunning : o.maxRunningTotal.Allows s.runningCurrent
  maxPending : o.maxPendingTotal.Allows s.pendingCurrent
  maxKeys : o.maxKeys.Allows s.queues.size

/-- The four together. -/
structure Wf (o : QueueOptions) (s : TaskQueue) (l : List ℕ) (w : ℕ → List ℕ) : Prop where
  lists : Lists s l w
  places : Places o s l
  homes : Homes s w
  counted : Counted o s

variable {o : QueueOptions} {s s' : TaskQueue} {l : List ℕ} {w : ℕ → List ℕ} {q x : ℕ}
  {key : JsString} {st : QueueState} {r : List ℕ}

@[simp] theorem states_setState : (s.setState q st).states = update s.states q st := rfl

/-! ## Reading the lists -/

theorem Lists.size (h : Lists s l w) (q : ℕ) : (s.states q).items.size = (w q).length :=
  (h.fifo q).size

theorem Lists.size_nonneg (h : Lists s l w) (q : ℕ) : 0 ≤ (s.states q).items.size := by
  rw [h.size]
  exact natCast_nonneg _

theorem Homes.running_nonneg (h : Homes s w) (q : ℕ) : 0 ≤ (s.states q).running := by
  rw [h.running]
  exact natCast_nonneg _

theorem Lists.exists_cons (h : Lists s l w) (hsize : 0 < (s.states q).items.size) :
    ∃ x r, w q = x :: r := by
  rw [h.size] at hsize
  cases hw : w q with
  | nil => simp [hw] at hsize
  | cons x r => exact ⟨x, r, rfl⟩

theorem Lists.head (h : Lists s l w) (hw : w q = x :: r) : (s.states q).items.head = some x := by
  rw [(h.fifo q).head, hw]
  rfl

/-! ## One queue state at a time -/

/-- A total over the queue states follows the one that is written. -/
theorem total_update {f f' : ℕ → ℤ} {n : ℕ} (hq : q < n) (hf : ∀ i, i ≠ q → f' i = f i) :
    total f' (List.range n) = total f (List.range n) - f q + f' q := by
  induction n with
  | zero => omega
  | succ n ih =>
    rw [range_succ, total_append, total_append]
    by_cases hn : q = n
    · subst hn
      have hrest : total f' (range q) = total f (range q) :=
        total_congr fun i hi => hf i (by have := mem_range.mp hi; omega)
      rw [hrest]
      omega
    · rw [ih (by omega), hf n (Ne.symm hn)]
      omega

theorem Lists.congr (h : Lists s l w) (hitems : ∀ q, (s'.states q).items = (s.states q).items)
    (htasks : s'.tasks = s.tasks) (hallocated : s'.allocated = s.allocated)
    (hline : s'.serviceLine = s.serviceLine) : Lists s' l w := by
  refine ⟨hline ▸ h.line, fun q => ?_, h.apart, fun q i hi => hallocated ▸ h.allocated q i hi⟩
  rw [hitems, htasks]
  exact h.fifo q

theorem Counted.congr (h : Counted o s) (hitems : ∀ q, (s'.states q).items = (s.states q).items)
    (hrunning : ∀ q, (s'.states q).running = (s.states q).running) (hmade : s'.made = s.made)
    (hqueues : s'.queues = s.queues) (hpending : s'.pendingCurrent = s.pendingCurrent)
    (hrunningCurrent : s'.runningCurrent = s.runningCurrent)
    (hpushed : s'.pushedTotal = s.pushedTotal) (hcompleted : s'.completedTotal = s.completedTotal)
    (hfailed : s'.failedTotal = s.failedTotal) (hcleared : s'.clearedTotal = s.clearedTotal) :
    Counted o s' := by
  refine ⟨?_, ?_, ?_, fun q => ?_, ?_, ?_, ?_⟩
  · rw [hpending, h.pending, hmade]
    exact total_congr fun q _ => by rw [hitems]
  · rw [hrunningCurrent, h.running, hmade]
    exact total_congr fun q _ => by rw [hrunning]
  · rw [hpushed, hpending, hrunningCurrent, hcompleted, hfailed, hcleared]
    exact h.pushed
  · rw [hrunning]
    exact h.concurrency q
  · rw [hrunningCurrent]
    exact h.maxRunning
  · rw [hpending]
    exact h.maxPending
  · rw [hqueues]
    exact h.maxKeys

theorem Counted.move (h : Counted o s) (hq : q < s.made) (hstates : s'.states = update s.states q st)
    (hmade : s'.made = s.made) (hqueues : s'.queues = s.queues)
    (hpending : s'.pendingCurrent - st.items.size = s.pendingCurrent - (s.states q).items.size)
    (hrunning : s'.runningCurrent - st.running = s.runningCurrent - (s.states q).running)
    (hpushed : s'.pushedTotal = s'.pendingCurrent + s'.runningCurrent + s'.completedTotal +
      s'.failedTotal + s'.clearedTotal)
    (hconcurrency : st.running ≤ o.concurrency)
    (hmaxRunning : o.maxRunningTotal.Allows s'.runningCurrent)
    (hmaxPending : o.maxPendingTotal.Allows s'.pendingCurrent) : Counted o s' := by
  have hother : ∀ i, i ≠ q → s'.states i = s.states i := fun i hi => by
    rw [hstates, update_of_ne hi]
  have hself : s'.states q = st := by rw [hstates, update_self]
  refine ⟨?_, ?_, hpushed, fun i => ?_, hmaxRunning, hmaxPending, hqueues ▸ h.maxKeys⟩
  · rw [hmade, total_update (f := fun q => (s.states q).items.size) hq
      fun i hi => by rw [hother i hi], hself, ← h.pending]
    omega
  · rw [hmade, total_update (f := fun q => (s.states q).running) hq
      fun i hi => by rw [hother i hi], hself, ← h.running]
    omega
  · by_cases hi : i = q
    · rw [hi, hself]
      exact hconcurrency
    · rw [hother i hi]
      exact h.concurrency i

theorem Places.congr (h : Places o s l)
    (hnode : ∀ q, (s'.states q).lineNode = (s.states q).lineNode)
    (hstartable : ∀ q, (s.states q).lineNode ≠ none → s.Startable o q → s'.Startable o q)
    (hline : s'.serviceLine = s.serviceLine) (hqueues : s'.queues = s.queues) : Places o s' l := by
  refine ⟨fun q node hq => ?_, fun node hmem => ?_, fun q hq => ?_⟩
  · rw [hnode] at hq
    rw [hline, hqueues]
    exact h.placed q node hq
  · obtain ⟨q, hq⟩ := h.owned node hmem
    exact ⟨q, by rw [hnode, hq]⟩
  · rw [hnode] at hq
    exact hstartable q hq (h.startable q hq)

theorem keep {α : Type} (f : QueueState → α) (hstates : s'.states = update s.states q st)
    (h : f st = f (s.states q) := by rfl) : ∀ i, f (s'.states i) = f (s.states i) := by
  intro i
  rw [hstates]
  by_cases hi : i = q
  · rw [hi, update_self, h]
  · rw [update_of_ne hi]

/-! ## Places -/

theorem Homes.congr (h : Homes s w) (hqueues : s'.queues = s.queues) (hmade : s'.made = s.made)
    (hkey : ∀ i, (s'.tasks i).key = (s.tasks i).key) (hinFlight : s'.inFlight = s.inFlight)
    (hrunning : ∀ q, (s'.states q).running = (s.states q).running) : Homes s' w := by
  refine ⟨?_, ?_, fun q i hi => ?_, fun f hf => ?_, fun q => ?_⟩
  · rw [hqueues]
    exact h.injective
  · rw [hqueues, hmade]
    exact h.made
  · rw [hqueues, hkey]
    exact h.waiting q i hi
  · rw [hqueues]
    exact h.inFlight f (hinFlight ▸ hf)
  · rw [hrunning, hinFlight]
    exact h.running q

/-- Two states of one scheduler, which differ in what is written beside it. -/
structure SameScheduler (s s' : TaskQueue) : Prop where
  items : ∀ q, (s'.states q).items = (s.states q).items := by exact fun _ => rfl
  running : ∀ q, (s'.states q).running = (s.states q).running := by exact fun _ => rfl
  lineNode : ∀ q, (s'.states q).lineNode = (s.states q).lineNode := by exact fun _ => rfl
  queues : s'.queues = s.queues := by rfl
  made : s'.made = s.made := by rfl
  tasks : s'.tasks = s.tasks := by rfl
  allocated : s'.allocated = s.allocated := by rfl
  serviceLine : s'.serviceLine = s.serviceLine := by rfl
  inFlight : s'.inFlight = s.inFlight := by rfl
  pendingCurrent : s'.pendingCurrent = s.pendingCurrent := by rfl
  runningCurrent : s'.runningCurrent = s.runningCurrent := by rfl
  pushedTotal : s'.pushedTotal = s.pushedTotal := by rfl
  completedTotal : s'.completedTotal = s.completedTotal := by rfl
  failedTotal : s'.failedTotal = s.failedTotal := by rfl
  clearedTotal : s'.clearedTotal = s.clearedTotal := by rfl

theorem SameScheduler.startable (h : SameScheduler s s') (q : ℕ) :
    s'.Startable o q ↔ s.Startable o q := by
  rw [Startable, Startable, h.items, h.running]

theorem Wf.congr (h : Wf o s l w) (hsame : SameScheduler s s') : Wf o s' l w :=
  ⟨h.lists.congr hsame.items hsame.tasks hsame.allocated hsame.serviceLine,
    h.places.congr hsame.lineNode (fun q _ => (hsame.startable q).mpr) hsame.serviceLine
      hsame.queues,
    h.homes.congr hsame.queues hsame.made (fun _ => by rw [hsame.tasks]) hsame.inFlight
      hsame.running,
    h.counted.congr hsame.items hsame.running hsame.made hsame.queues hsame.pendingCurrent
      hsame.runningCurrent hsame.pushedTotal hsame.completedTotal hsame.failedTotal
      hsame.clearedTotal⟩

theorem Wf.place (h : Wf o s l w) (hget : s.queues.get key = some q)
    (hnone : (s.states q).lineNode = none) (hstart : s.Startable o q) :
    Wf o ({ s with serviceLine := (lineAppend s.serviceLine key).2 }.setState q
      { s.states q with lineNode := some (lineAppend s.serviceLine key).1 })
      (l ++ [(lineAppend s.serviceLine key).1]) w := by
  have hnew : s.serviceLine.allocated ∉ l :=
    fun hmem => lt_irrefl _ (h.lists.line.allocated _ hmem)
  refine ⟨⟨h.lists.line.append key, fun i => ?_, h.lists.apart, h.lists.allocated⟩, ?_,
    h.homes.congr rfl rfl (fun _ => rfl) rfl (keep running rfl),
    h.counted.congr (keep items rfl) (keep running rfl)
      rfl rfl rfl rfl rfl rfl rfl rfl⟩
  · rw [keep items (s := s) rfl]
    exact h.lists.fifo i
  · refine ⟨fun i node hi => ?_, fun node hmem => ?_, fun i hi => ?_⟩
    · by_cases hiq : i = q
      · subst hiq
        rw [states_setState, update_self] at hi
        cases hi
        refine ⟨by simp, ?_⟩
        change s.queues.get ((lineAppend s.serviceLine key).2.nodes _).key = _
        rw [key_lineAppend, node_lineAppend, if_pos rfl, hget]
      · rw [states_setState, update_of_ne hiq] at hi
        obtain ⟨hmem, hkey⟩ := h.places.placed i node hi
        refine ⟨mem_append_left _ hmem, ?_⟩
        change s.queues.get ((lineAppend s.serviceLine key).2.nodes _).key = _
        rw [key_lineAppend, if_neg (by rintro rfl; exact hnew hmem), hkey]
    · rcases mem_concat.mp hmem with hmem | rfl
      · obtain ⟨i, hi⟩ := h.places.owned node hmem
        have hiq : i ≠ q := by
          rintro rfl
          rw [hnone] at hi
          cases hi
        exact ⟨i, by rw [states_setState, update_of_ne hiq, hi]⟩
      · exact ⟨q, by rw [states_setState, update_self]⟩
    · rw [Startable, keep items (s := s) rfl, keep running (s := s) rfl]
      by_cases hiq : i = q
      · rw [hiq]
        exact hstart
      · rw [states_setState, update_of_ne hiq] at hi
        exact h.places.startable i hi

theorem Wf.unplace (h : Wf o s l w) {node : ℕ} (hnode : (s.states q).lineNode = some node) :
    ∃ a c, l = a ++ node :: c ∧
      Wf o ({ s with serviceLine := lineRemove s.serviceLine node }.setState q
        { s.states q with lineNode := none }) (a ++ c) w := by
  obtain ⟨hmem, hkey⟩ := h.places.placed q node hnode
  obtain ⟨a, c, rfl⟩ := append_of_mem hmem
  refine ⟨a, c, rfl, ?_⟩
  have hnot : node ∉ a ++ c := by
    have hnodup := h.lists.line.nodup
    rw [nodup_middle] at hnodup
    exact (nodup_cons.mp hnodup).1
  have hne : ∀ i, i ≠ q → (s.states i).lineNode ≠ some node := by
    intro i hi hsame
    have hother := (h.places.placed i node hsame).2
    rw [hkey, Option.some.injEq] at hother
    exact hi hother.symm
  refine ⟨⟨h.lists.line.remove, fun i => ?_, h.lists.apart, h.lists.allocated⟩, ?_,
    h.homes.congr rfl rfl (fun _ => rfl) rfl (keep running rfl),
    h.counted.congr (keep items rfl) (keep running rfl)
      rfl rfl rfl rfl rfl rfl rfl rfl⟩
  · rw [keep items (s := s) rfl]
    exact h.lists.fifo i
  · refine ⟨fun i n hi => ?_, fun n hn => ?_, fun i hi => ?_⟩
    · by_cases hiq : i = q
      · subst hiq
        rw [states_setState, update_self] at hi
        cases hi
      · rw [states_setState, update_of_ne hiq] at hi
        obtain ⟨hn, hkey⟩ := h.places.placed i n hi
        have hnn : n ≠ node := by
          rintro rfl
          exact hne i hiq hi
        refine ⟨by simpa [hnn] using hn, ?_⟩
        change s.queues.get ((lineRemove s.serviceLine node).nodes _).key = _
        rw [key_lineRemove, hkey]
    · obtain ⟨i, hi⟩ := h.places.owned n (by
        rcases mem_append.mp hn with hn | hn <;> simp [hn])
      have hiq : i ≠ q := by
        rintro rfl
        rw [hnode, Option.some.injEq] at hi
        exact hnot (hi ▸ hn)
      exact ⟨i, by rw [states_setState, update_of_ne hiq, hi]⟩
    · by_cases hiq : i = q
      · subst hiq
        rw [states_setState, update_self] at hi
        exact absurd rfl hi
      · rw [Startable, keep items (s := s) rfl,
          keep running (s := s) rfl]
        rw [states_setState, update_of_ne hiq] at hi
        exact h.places.startable i hi

/-- A key is put in line where it can be started and has no place. -/
theorem Wf.markReady (h : Wf o s l w) (hget : s.queues.get key = some q) :
    (∃ l', Wf o (s.markReady o key q) l' w) ∧
      (s.Startable o q → ((s.markReady o key q).states q).lineNode ≠ none) := by
  rw [TaskQueue.markReady]
  simp only
  split_ifs with hskip
  · refine ⟨⟨l, h⟩, fun hstart hnone => ?_⟩
    obtain ⟨hsize, hrunning⟩ := hstart
    rcases hskip with hskip | hskip | hskip
    · exact hskip hnone
    · omega
    · omega
  · rw [not_or, not_or, not_not, not_le] at hskip
    obtain ⟨hnone, hsize, hrunning⟩ := hskip
    have hstart : s.Startable o q := ⟨by have := h.lists.size_nonneg q; omega, hrunning⟩
    exact ⟨⟨_, h.place hget hnone hstart⟩, fun _ => by simp⟩

theorem Wf.unmarkReady (h : Wf o s l w) (q : ℕ) :
    (∃ l', Wf o (s.unmarkReady q) l' w) ∧ ((s.unmarkReady q).states q).lineNode = none := by
  rw [TaskQueue.unmarkReady]
  cases hnode : (s.states q).lineNode with
  | none => exact ⟨⟨l, h⟩, hnode⟩
  | some node =>
    obtain ⟨a, c, -, hwf⟩ := h.unplace hnode
    exact ⟨⟨a ++ c, hwf⟩, by simp⟩

/-! ## Tasks -/

/-- What waits after the oldest task is taken waited before. -/
theorem mem_of_take (hw : w q = x :: r) {i j : ℕ} (hj : j ∈ update w q r i) : j ∈ w i := by
  by_cases hi : i = q
  · rw [hi, update_self] at hj
    rw [hi, hw]
    exact mem_cons_of_mem x hj
  · rwa [update_of_ne hi] at hj

theorem Lists.take (h : Lists s l w) (hw : w q = x :: r)
    (htasks : s'.tasks = (fifoShift s.tasks (s.states q).items x).1)
    (hstates : s'.states = update s.states q st)
    (hitems : st.items = (fifoShift s.tasks (s.states q).items x).2)
    (hline : s'.serviceLine = s.serviceLine) (hallocated : s'.allocated = s.allocated) :
    Lists s' l (update w q r) := by
  refine ⟨hline ▸ h.line, fun i => ?_, fun i i' hne j hj hj' => ?_, fun i j hj => ?_⟩
  · rw [hstates, htasks]
    by_cases hi : i = q
    · rw [hi, update_self, update_self, hitems]
      have hfifo := h.fifo q
      rw [hw] at hfifo
      exact hfifo.shift
    · rw [update_of_ne hi, update_of_ne hi]
      refine (h.fifo i).congr fun j hj => fifoShift_other ?_
      rintro rfl
      exact h.apart i q hi j hj (by simp [hw])
  · exact h.apart i i' hne j (mem_of_take hw hj) (mem_of_take hw hj')
  · rw [hallocated]
    exact h.allocated i j (mem_of_take hw hj)

theorem size_fifoShift (tasks : Tasks) (fifo : Fifo) (x : ℕ) :
    (fifoShift tasks fifo x).2.size = fifo.size - 1 := rfl

theorem Places.change (h : Places o s l) (hnone : (s.states q).lineNode = none)
    (hstates : s'.states = update s.states q st) (hst : st.lineNode = none)
    (hline : s'.serviceLine = s.serviceLine) (hqueues : s'.queues = s.queues) : Places o s' l := by
  have hnode : ∀ i, (s'.states i).lineNode = (s.states i).lineNode := by
    exact keep lineNode hstates (by rw [hnone, hst])
  refine h.congr hnode (fun i hi hstart => ?_) hline hqueues
  have hiq : i ≠ q := by
    rintro rfl
    exact hi hnone
  rw [Startable, hstates, update_of_ne hiq]
  exact hstart

theorem Wf.startOldest (h : Wf o s l w) (hget : s.queues.get key = some q)
    (hnone : (s.states q).lineNode = none) (hw : w q = x :: r)
    (hcap : (s.states q).running < o.concurrency)
    (hroom : o.maxRunningTotal.reached s.runningCurrent = false) :
    Wf o (s.start key q) l (update w q r) := by
  have hrunning := h.homes.running q
  have hpending := h.counted.pushed
  rw [TaskQueue.start, h.lists.head hw]
  simp only
  refine ⟨h.lists.take hw rfl rfl rfl rfl rfl, h.places.change hnone rfl hnone rfl rfl, ?_, ?_⟩
  · refine ⟨h.homes.injective, h.homes.made, fun i j hj => ?_, fun f hf => ?_, fun i => ?_⟩
    · change s.queues.get ((fifoShift s.tasks (s.states q).items x).1 j).key = _
      rw [key_fifoShift]
      exact h.homes.waiting i j (mem_of_take hw hj)
    · rcases mem_concat.mp hf with hf | rfl
      · exact h.homes.inFlight f hf
      · exact hget
    · rw [states_setState]
      change _ = (((s.inFlight ++ [_]).countP _ : ℕ) : ℤ)
      rw [countP_append, countP_singleton]
      by_cases hi : i = q
      · rw [hi, update_self]
        simp only [hrunning, decide_true, if_true]
        push_cast
        rfl
      · rw [update_of_ne hi, h.homes.running i]
        simp [Ne.symm hi]
  · refine h.counted.move (h.homes.made key q hget) rfl rfl rfl ?_ ?_ ?_ ?_ ?_ ?_
    · simp only [setState, size_fifoShift]
      omega
    · simp only [setState]
      omega
    · simp only [setState]
      omega
    · exact add_one_le_of_lt hcap
    · exact Bound.allows_succ hroom
    · exact h.counted.maxPending.mono (Int.sub_le_self _ Int.one_nonneg)

theorem Wf.start (h : Wf o s l w) (hget : s.queues.get key = some q)
    (hnone : (s.states q).lineNode = none) (hstart : s.Startable o q)
    (hroom : o.maxRunningTotal.reached s.runningCurrent = false) :
    ∃ w', Wf o (s.start key q) l w' := by
  obtain ⟨x, r, hw⟩ := h.lists.exists_cons hstart.1
  exact ⟨_, h.startOldest hget hnone hw hstart.2 hroom⟩

theorem Wf.work_start (h : Wf o s l w) (hsize : 0 < (s.states q).items.size) (i : ℕ) :
    (s.start key q).work i = s.work i := by
  obtain ⟨x, r, hw⟩ := h.lists.exists_cons hsize
  rw [TaskQueue.start, h.lists.head hw]
  simp only [work, states_setState]
  by_cases hi : i = q
  · rw [hi, update_self]
    simp only [size_fifoShift]
    omega
  · rw [update_of_ne hi]

theorem Wf.reject (h : Wf o s l w) (hget : s.queues.get key = some q)
    (hnone : (s.states q).lineNode = none) (hw : w q = x :: r) (call : ℕ) (outcome : Outcome) :
    Wf o (({ s with
      tasks := (fifoShift s.tasks (s.states q).items x).1
      pendingCurrent := s.pendingCurrent - 1
      clearedTotal := s.clearedTotal + 1 }.setState q
        { s.states q with items := (fifoShift s.tasks (s.states q).items x).2 }).answer call outcome)
      l (update w q r) := by
  have hpushed := h.counted.pushed
  refine ⟨h.lists.take hw rfl rfl rfl rfl rfl, h.places.change hnone rfl hnone rfl rfl, ?_, ?_⟩
  · refine ⟨h.homes.injective, h.homes.made, fun i j hj => ?_, h.homes.inFlight, fun i => ?_⟩
    · change s.queues.get ((fifoShift s.tasks (s.states q).items x).1 j).key = _
      rw [key_fifoShift]
      exact h.homes.waiting i j (mem_of_take hw hj)
    · rw [keep running (s := s) rfl]
      exact h.homes.running i
  · refine h.counted.move (h.homes.made key q hget) rfl rfl rfl ?_ rfl ?_ (h.counted.concurrency q)
      h.counted.maxRunning (h.counted.maxPending.mono (Int.sub_le_self _ Int.one_nonneg))
    · simp only [answer, setState, size_fifoShift]
      omega
    · simp only [answer, setState]
      omega

/-- What waits after a task is queued waited before, or is that task. -/
theorem mem_of_push {i j : ℕ} (hj : j ∈ update w q (w q ++ [x]) i) :
    j ∈ w i ∨ i = q ∧ j = x := by
  by_cases hi : i = q
  · rw [hi, update_self, mem_append, mem_singleton] at hj
    rw [hi]
    exact hj.imp_right fun hj => ⟨rfl, hj⟩
  · rw [update_of_ne hi] at hj
    exact .inl hj

theorem Lists.not_mem_allocated (h : Lists s l w) (i : ℕ) : s.allocated ∉ w i :=
  fun hi => lt_irrefl _ (h.allocated i _ hi)

theorem Lists.fifo_allocate (h : Lists s l w) (task : WaitingTask) (i : ℕ) :
    (s.states i).items.Holds (update s.tasks s.allocated task) (w i) :=
  (h.fifo i).congr fun _ hj => update_of_ne (by rintro rfl; exact h.not_mem_allocated i hj) _ _

theorem Lists.size_fifoPush (h : Lists s l w) (task : WaitingTask) (q : ℕ) :
    (fifoPush (update s.tasks s.allocated task) (s.states q).items s.allocated).2.size =
      (s.states q).items.size + 1 := by
  have hsize := ((h.fifo_allocate task q).push (h.not_mem_allocated q)).size
  rwa [length_append, length_singleton, Nat.cast_add, ← h.size] at hsize

theorem Lists.size_enqueue (h : Lists s l w) (call : ℕ) (key : JsString) (q : ℕ) :
    ((s.enqueue call key q).states q).items.size = (s.states q).items.size + 1 := by
  rw [TaskQueue.enqueue, states_setState, update_self]
  exact h.size_fifoPush ⟨call, key, none⟩ q

/-- A task is queued behind those that wait for its key. -/
theorem Wf.enqueue (h : Wf o s l w) (hget : s.queues.get key = some q)
    (hroom : o.maxPendingTotal.reached s.pendingCurrent = false) (call : ℕ) :
    Wf o (s.enqueue call key q) l (update w q (w q ++ [s.allocated])) := by
  have hfresh := h.lists.not_mem_allocated
  have hfifo := h.lists.fifo_allocate ⟨call, key, none⟩
  have hpushed := h.counted.pushed
  have hsize := h.lists.size_fifoPush ⟨call, key, none⟩ q
  refine ⟨?_, ?_, ?_, ?_⟩
  · refine ⟨h.lists.line, fun i => ?_, fun i i' hne j hj hj' => ?_, fun i j hj => ?_⟩
    · simp only [TaskQueue.enqueue, states_setState]
      by_cases hi : i = q
      · rw [hi, update_self, update_self]
        exact (hfifo q).push (hfresh q)
      · rw [update_of_ne hi, update_of_ne hi]
        exact (hfifo i).congr fun j hj => fifoPush_other (hfifo q) (h.lists.apart i q hi j hj)
          (by rintro rfl; exact hfresh i hj)
    · rcases mem_of_push hj with hj | ⟨hi, hj⟩ <;> rcases mem_of_push hj' with hj' | ⟨hi', hj'⟩
      · exact h.lists.apart i i' hne j hj hj'
      · exact hfresh i (hj' ▸ hj)
      · exact hfresh i' (hj ▸ hj')
      · exact hne (hi.trans hi'.symm)
    · refine Nat.lt_succ_iff_lt_or_eq.mpr ?_
      exact (mem_of_push hj).imp (h.lists.allocated i j) And.right
  · refine h.places.congr (keep lineNode rfl)
      (fun i hi hstart => ?_) rfl rfl
    simp only [Startable, TaskQueue.enqueue, states_setState]
    by_cases hiq : i = q
    · subst hiq
      have hpos := hstart.1
      rw [update_self]
      simp only [hsize]
      exact ⟨add_pos hpos one_pos, hstart.2⟩
    · rw [update_of_ne hiq]
      exact hstart
  · refine ⟨h.homes.injective, h.homes.made, fun i j hj => ?_, h.homes.inFlight, fun i => ?_⟩
    · simp only [TaskQueue.enqueue, setState, key_fifoPush]
      rcases mem_of_push hj with hj | ⟨rfl, rfl⟩
      · rw [update_of_ne (by rintro rfl; exact hfresh i hj)]
        exact h.homes.waiting i j hj
      · rw [update_self]
        exact hget
    · rw [keep running (s := s) rfl]
      exact h.homes.running i
  · refine h.counted.move (h.homes.made key q hget) rfl rfl rfl ?_ rfl ?_ (h.counted.concurrency q)
      h.counted.maxRunning (Bound.allows_succ hroom)
    · simp only [TaskQueue.enqueue, setState, hsize]
      omega
    · simp only [TaskQueue.enqueue, setState]
      omega

theorem Wf.finish (h : Wf o s l w) {f : InFlight} (hf : f ∈ s.inFlight) {c e : ℤ} (hce : c + e = 1) :
    Wf o ({ s with
      inFlight := s.inFlight.erase f
      runningCurrent := s.runningCurrent - 1
      completedTotal := s.completedTotal + c
      failedTotal := s.failedTotal + e }.setState f.state
        { s.states f.state with running := (s.states f.state).running - 1 }) l w := by
  have hget := h.homes.inFlight f hf
  have hpushed := h.counted.pushed
  refine ⟨h.lists.congr (keep items rfl) rfl rfl rfl, ?_, ?_, ?_⟩
  · refine h.places.congr (keep lineNode rfl)
      (fun i _ hstart => ?_) rfl rfl
    refine ⟨by rw [keep items (s := s) rfl]; exact hstart.1, ?_⟩
    rw [states_setState]
    by_cases hi : i = f.state
    · rw [hi, update_self]
      exact Int.lt_of_le_of_lt (Int.sub_le_self _ Int.one_nonneg) (hi ▸ hstart.2)
    · rw [update_of_ne hi]
      exact hstart.2
  · refine ⟨h.homes.injective, h.homes.made, h.homes.waiting,
      fun g hg => h.homes.inFlight g (mem_of_mem_erase hg), fun i => ?_⟩
    have hcount : (s.inFlight.countP fun g => g.state = i) =
        ((s.inFlight.erase f).countP fun g => g.state = i) + if f.state = i then 1 else 0 := by
      rw [(perm_cons_erase hf).countP_eq, countP_cons]
      simp
    have hrunning := h.homes.running i
    rw [states_setState]
    change _ = (((s.inFlight.erase f).countP _ : ℕ) : ℤ)
    by_cases hi : i = f.state
    · subst hi
      rw [if_pos rfl] at hcount
      rw [update_self]
      simp only
      omega
    · rw [if_neg (Ne.symm hi), add_zero] at hcount
      rw [update_of_ne hi, ← hcount]
      exact hrunning
  · refine h.counted.move (h.homes.made f.key f.state hget) rfl rfl rfl rfl ?_ ?_ ?_ ?_ h.counted.maxPending
    · simp only [setState]
      omega
    · simp only [setState]
      omega
    · exact Int.le_trans (Int.sub_le_self _ Int.one_nonneg) (h.counted.concurrency _)
    · exact h.counted.maxRunning.mono (Int.sub_le_self _ Int.one_nonneg)

/-! ## Keys -/

/-- A queue state that the map does not name has no task. -/
theorem Wf.idle_of_not_named (h : Wf o s l w) (hnamed : ∀ k, s.queues.get k ≠ some q) :
    w q = [] ∧ (s.states q).running = 0 ∧ (s.states q).lineNode = none := by
  have hempty : w q = [] := by
    by_contra hne
    obtain ⟨i, hi⟩ := exists_mem_of_ne_nil _ hne
    exact hnamed _ (h.homes.waiting q i hi)
  refine ⟨hempty, ?_, ?_⟩
  · rw [h.homes.running, natCast_eq_zero, countP_eq_zero]
    intro f hf hstate
    rw [← of_decide_eq_true hstate] at hnamed
    exact hnamed f.key (h.homes.inFlight f hf)
  · by_contra hnode
    have hpos := (h.places.startable q hnode).1
    rw [h.lists.size, hempty] at hpos
    exact lt_irrefl 0 hpos

/-- The new queue state has the numbers of one that was never used. -/
theorem Wf.states_register (h : Wf o s l w) (key : JsString) (i : ℕ) :
    ((s.register key).states i).running = (s.states i).running ∧
      ((s.register key).states i).lineNode = (s.states i).lineNode ∧
      ((s.register key).states i).items.size = (s.states i).items.size := by
  rw [TaskQueue.register, states_setState]
  by_cases hi : i = s.made
  · obtain ⟨hempty, hidle, hnone⟩ := h.idle_of_not_named (q := i)
      (fun k hk => lt_irrefl _ (hi ▸ h.homes.made k i hk))
    have hsize := h.lists.size i
    rw [hempty] at hsize
    rw [hidle, hnone, hsize, hi, update_self]
    exact ⟨rfl, rfl, rfl⟩
  · rw [update_of_ne hi]
    exact ⟨rfl, rfl, rfl⟩

theorem Wf.register (h : Wf o s l w) (hget : s.queues.get key = none)
    (hroom : o.maxKeys.reached s.queues.size = false) : Wf o (s.register key) l w := by
  have hfresh : ∀ k, s.queues.get k ≠ some s.made := fun k hk =>
    lt_irrefl _ (h.homes.made k _ hk)
  have hold : ∀ k i, s.queues.get k = some i → (s.register key).queues.get k = some i := by
    intro k i hk
    rw [TaskQueue.register, setState, JsMap.get_set, if_neg, hk]
    rintro rfl
    rw [hget] at hk
    cases hk
  refine ⟨⟨h.lists.line, fun i => ?_, h.lists.apart, h.lists.allocated⟩, ?_, ?_, ?_⟩
  · by_cases hi : i = s.made
    · rw [hi, (h.idle_of_not_named hfresh).1, TaskQueue.register, states_setState, update_self]
      exact holds_fifoCreate _
    · rw [TaskQueue.register, states_setState, update_of_ne hi]
      exact h.lists.fifo i
  · refine ⟨fun i node hi => ?_, fun node hmem => ?_, fun i hi => ?_⟩
    · rw [(h.states_register key i).2.1] at hi
      exact ⟨(h.places.placed i node hi).1, hold _ _ (h.places.placed i node hi).2⟩
    · obtain ⟨i, hi⟩ := h.places.owned node hmem
      exact ⟨i, (h.states_register key i).2.1.trans hi⟩
    · rw [(h.states_register key i).2.1] at hi
      rw [Startable, (h.states_register key i).1, (h.states_register key i).2.2]
      exact h.places.startable i hi
  · refine ⟨fun k k' i hk hk' => ?_, fun k i hk => ?_, fun i j hj => hold _ _ (h.homes.waiting i j hj),
      fun f hf => hold _ _ (h.homes.inFlight f hf),
      fun i => (h.states_register key i).1.trans (h.homes.running i)⟩
    · simp only [TaskQueue.register, setState, JsMap.get_set] at hk hk'
      split_ifs at hk hk' with hkk hkk'
      · exact hkk.symm.trans hkk'
      · rw [← hk] at hk'
        exact absurd hk' (hfresh k')
      · rw [← hk'] at hk
        exact absurd hk (hfresh k)
      · exact h.homes.injective k k' i hk hk'
    · simp only [TaskQueue.register, setState, JsMap.get_set] at hk ⊢
      split_ifs at hk with hkk
      · rw [Option.some.injEq] at hk
        omega
      · exact Nat.lt_succ_of_lt (h.homes.made k i hk)
  · obtain ⟨hempty, hidle, -⟩ := h.idle_of_not_named hfresh
    have hsize := h.lists.size s.made
    rw [hempty] at hsize
    refine ⟨?_, ?_, h.counted.pushed, fun i => (h.states_register key i).1 ▸ h.counted.concurrency i,
      h.counted.maxRunning, h.counted.maxPending, ?_⟩
    · rw [total_congr fun i _ => (h.states_register key i).2.2]
      change _ = total _ (range (s.made + 1))
      rw [range_succ, total_append, hsize, ← h.counted.pending]
      exact (add_zero _).symm
    · rw [total_congr fun i _ => (h.states_register key i).1]
      change _ = total _ (range (s.made + 1))
      rw [range_succ, total_append, hidle, ← h.counted.running]
      exact (add_zero _).symm
    · refine (Bound.allows_succ hroom).mono ?_
      have hle := JsMap.size_set_le s.queues key s.made
      simp only [TaskQueue.register, setState]
      omega

theorem Wf.forget (h : Wf o s l w) (hget : s.queues.get key = some q)
    (hrunning : (s.states q).running = 0) (hsize : (s.states q).items.size = 0)
    (hnone : (s.states q).lineNode = none) (drained : List ℕ) :
    Wf o { s with queues := s.queues.delete key, drained := drained } l w := by
  have hempty : w q = [] := by
    rw [h.lists.size, natCast_eq_zero] at hsize
    exact length_eq_zero_iff.mp hsize
  have hold : ∀ k i, i ≠ q → s.queues.get k = some i → (s.queues.delete key).get k = some i := by
    intro k i hi hk
    rw [JsMap.get_delete, if_neg, hk]
    rintro rfl
    rw [hget, Option.some.injEq] at hk
    exact hi hk.symm
  have hback : ∀ k i, (s.queues.delete key).get k = some i → s.queues.get k = some i := by
    intro k i hk
    rw [JsMap.get_delete] at hk
    split_ifs at hk
    exact hk
  refine ⟨h.lists.congr (fun _ => rfl) rfl rfl rfl, ⟨fun i node hi => ?_, h.places.owned,
    h.places.startable⟩, ⟨?_, ?_, fun i j hj => ?_, fun f hf => ?_, h.homes.running⟩, ?_⟩
  · have hiq : i ≠ q := by
      rintro rfl
      rw [hnone] at hi
      cases hi
    exact ⟨(h.places.placed i node hi).1, hold _ _ hiq (h.places.placed i node hi).2⟩
  · exact fun k k' i hk hk' => h.homes.injective k k' i (hback k i hk) (hback k' i hk')
  · exact fun k i hk => h.homes.made k i (hback k i hk)
  · have hiq : i ≠ q := by
      rintro rfl
      rw [hempty] at hj
      cases hj
    exact hold _ _ hiq (h.homes.waiting i j hj)
  · have hfq : f.state ≠ q := by
      rintro rfl
      rw [h.homes.running, natCast_eq_zero, countP_eq_zero] at hrunning
      exact hrunning f hf (decide_eq_true rfl)
    exact hold _ _ hfq (h.homes.inFlight f hf)
  · refine ⟨h.counted.pending, h.counted.running, h.counted.pushed, h.counted.concurrency,
      h.counted.maxRunning, h.counted.maxPending, h.counted.maxKeys.mono ?_⟩
    exact ofNat_le.mpr (JsMap.size_delete_le s.queues key)

theorem wf_create (o : QueueOptions) : Wf o create [] fun _ => [] := by
  refine ⟨⟨holds_lineCreate, fun _ => holds_fifoCreate _, fun _ _ _ i hi => absurd hi not_mem_nil,
    fun _ i hi => absurd hi not_mem_nil⟩, ⟨fun q node hq => ?_, fun node hmem => ?_,
    fun q hq => absurd rfl hq⟩, ⟨fun k k' q hk => ?_, fun k q hk => ?_, fun q i hi => ?_,
    fun f hf => ?_, fun q => rfl⟩, ⟨rfl, rfl, rfl, fun q => ?_, ?_, ?_, ?_⟩⟩
  · cases hq
  · cases hmem
  · cases hk
  · cases hk
  · cases hi
  · cases hf
  · exact natCast_nonneg _
  · exact Bound.allows_zero _
  · exact Bound.allows_zero _
  · exact Bound.allows_zero _

end TaskQueue
end AdapterWs.Queue
