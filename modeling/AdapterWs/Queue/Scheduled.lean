import AdapterWs.Queue.SchedulerInvariant

/-!
# Every startable task is started

A key with startable work holds a place in line, and the pump empties the line unless the bound
on running tasks stops it. Scheduling moves tasks from waiting to running and loses none, so a key
that had work keeps it.
-/

namespace AdapterWs.Queue

open JsString Function List Option QueueState Ledger

namespace TaskQueue

variable {o : QueueOptions} {s s' t : TaskQueue} {l : List ℕ} {w : ℕ → List ℕ} {q : ℕ}
  {key : JsString}

/-- Every key with startable work, but one, holds a place in line. -/
def ReadyBut (o : QueueOptions) (s : TaskQueue) (q : ℕ) : Prop :=
  ∀ i, i ≠ q → s.Startable o i → (s.states i).lineNode ≠ none

/-- Every key with startable work holds a place in line. -/
def Ready (o : QueueOptions) (s : TaskQueue) : Prop :=
  ∀ i, s.Startable o i → (s.states i).lineNode ≠ none

/-- The same keys, with the same tasks. -/
structure Kept (s s' : TaskQueue) : Prop where
  queues : s'.queues = s.queues
  work : ∀ q, s'.work q = s.work q

theorem Kept.refl (s : TaskQueue) : Kept s s := ⟨rfl, fun _ => rfl⟩

theorem Kept.trans (h : Kept s s') (h' : Kept s' t) : Kept s t :=
  ⟨h'.queues.trans h.queues, fun q => (h'.work q).trans (h.work q)⟩

/-- What an operation writes to a key leaves the others ready. -/
theorem ReadyBut.congr (h : ReadyBut o s q) (hother : ∀ i, i ≠ q → s'.states i = s.states i) :
    ReadyBut o s' q := by
  intro i hi hstart
  rw [Startable, hother i hi] at hstart
  rw [hother i hi]
  exact h i hi hstart

theorem Ready.but (h : Ready o s) (q : ℕ) : ReadyBut o s q := fun i _ => h i

theorem ReadyBut.ready (h : ReadyBut o s q)
    (hq : s.Startable o q → (s.states q).lineNode ≠ none) : Ready o s := by
  intro i
  by_cases hi : i = q
  · rw [hi]
    exact hq
  · exact h i hi

/-! ## One visit -/

theorem markReady_other (key : JsString) {i : ℕ} (hi : i ≠ q) :
    (s.markReady o key q).states i = s.states i := by
  simp only [markReady]
  split_ifs
  · rfl
  · exact update_of_ne hi _ _

theorem kept_markReady (o : QueueOptions) (s : TaskQueue) (key : JsString) (q : ℕ) :
    Kept s (s.markReady o key q) := by
  simp only [markReady]
  split_ifs
  · exact .refl s
  · refine ⟨rfl, fun i => ?_⟩
    rw [work, keep items (s := s) rfl, keep running (s := s) rfl]
    rfl

theorem start_other (key : JsString) {i : ℕ} (hi : i ≠ q) :
    (s.start key q).states i = s.states i := by
  simp only [start]
  cases (s.states q).items.head with
  | none => rfl
  | some node => exact update_of_ne hi _ _

@[simp] theorem queues_start (key : JsString) (q : ℕ) : (s.start key q).queues = s.queues := by
  simp only [start]
  cases (s.states q).items.head <;> rfl

@[simp] theorem line_start (key : JsString) (q : ℕ) :
    (s.start key q).serviceLine = s.serviceLine := by
  simp only [start]
  cases (s.states q).items.head <;> rfl

/-- Putting a key in line makes the line at most one place longer. -/
theorem size_markReady (o : QueueOptions) (s : TaskQueue) (key : JsString) (q : ℕ) :
    (s.markReady o key q).serviceLine.size ≤ s.serviceLine.size + 1 ∧
      (s.markReady o key q).pendingCurrent = s.pendingCurrent := by
  simp only [markReady]
  split_ifs
  · exact ⟨by omega, rfl⟩
  · simp [setState, lineAppend, Line.make]

theorem pending_start (h : Wf o s l w) (hsize : 0 < (s.states q).items.size) (key : JsString) :
    (s.start key q).pendingCurrent = s.pendingCurrent - 1 := by
  obtain ⟨x, r, hw⟩ := h.lists.exists_cons hsize
  rw [start, h.lists.head hw]
  rfl

/-- A key that is marked ready leaves every key with startable work in line. -/
theorem ReadyBut.markReady (hbut : ReadyBut o s q) (h : Wf o s l w)
    (hget : s.queues.get key = some q) : Ready o (s.markReady o key q) := by
  refine ReadyBut.ready (hbut.congr fun i hi => markReady_other key hi) fun hstart => ?_
  refine (h.markReady hget).2 ?_
  simp only [TaskQueue.markReady] at hstart
  split_ifs at hstart
  · exact hstart
  · rwa [Startable, keep items (s := s) rfl, keep running (s := s) rfl]
      at hstart

/-- A key without a place in line has a task started and is put in line for the next. -/
theorem start_spec (h : Wf o s l w) (hget : s.queues.get key = some q)
    (hnone : (s.states q).lineNode = none) (hstart : s.Startable o q) (hbut : ReadyBut o s q)
    (hroom : o.maxRunningTotal.reached s.runningCurrent = false) :
    (∃ l' w', Wf o ((s.start key q).markReady o key q) l' w') ∧
      Ready o ((s.start key q).markReady o key q) ∧
      Kept s ((s.start key q).markReady o key q) ∧
      ((s.start key q).markReady o key q).serviceLine.size +
        ((s.start key q).markReady o key q).pendingCurrent ≤
          s.serviceLine.size + s.pendingCurrent := by
  obtain ⟨w', hstarted⟩ := h.start hget hnone hstart hroom
  have hget' : (s.start key q).queues.get key = some q := by rw [queues_start, hget]
  obtain ⟨l', hmarked⟩ := (hstarted.markReady hget').1
  have hkept := kept_markReady o (s.start key q) key q
  have hsize := size_markReady o (s.start key q) key q
  refine ⟨⟨l', w', hmarked⟩, ?_, ?_, ?_⟩
  · exact ReadyBut.markReady (hbut.congr fun i hi => start_other key hi) hstarted hget'
  · exact Kept.trans ⟨queues_start key q, h.work_start hstart.1⟩ hkept
  · rw [hsize.2, pending_start h hstart.1]
    rw [line_start] at hsize
    omega

/-- A visit starts a task of the key that is first in line. -/
theorem visit_spec {node : ℕ} (h : Wf o s (node :: l) w) (hready : Ready o s)
    (hroom : o.maxRunningTotal.reached s.runningCurrent = false) :
    (∃ l' w', Wf o (s.visit o node) l' w') ∧ Ready o (s.visit o node) ∧
      Kept s (s.visit o node) ∧
      (s.visit o node).serviceLine.size + (s.visit o node).pendingCurrent <
        s.serviceLine.size + s.pendingCurrent := by
  obtain ⟨q, hq⟩ := h.places.owned node (.head _)
  have hget := (h.places.placed q node hq).2
  have hstart := h.places.startable q (by rw [hq]; exact some_ne_none _)
  obtain ⟨a, c, -, hwf⟩ := h.unplace hq
  rw [visit]
  simp only [hget]
  have hitems : ∀ i, (({ s with serviceLine := lineRemove s.serviceLine node }.setState q
      { s.states q with lineNode := none }).states i).items = (s.states i).items :=
    keep items rfl
  have hrunning : ∀ i, (({ s with serviceLine := lineRemove s.serviceLine node }.setState q
      { s.states q with lineNode := none }).states i).running = (s.states i).running :=
    keep running rfl
  have hsize : (lineRemove s.serviceLine node).size = s.serviceLine.size - 1 := by
    simp [lineRemove]
  rw [if_neg]
  · obtain ⟨hwf', hready', hkept, hless⟩ := start_spec hwf hget (by simp)
      (by rw [Startable, hitems, hrunning]; exact hstart)
      ((hready.but q).congr fun i hi => update_of_ne hi _ _) hroom
    refine ⟨hwf', hready', Kept.trans ?_ hkept, Int.lt_of_le_of_lt hless ?_⟩
    · refine ⟨rfl, fun i => ?_⟩
      rw [work, hitems, hrunning]
      rfl
    · simp only [setState, hsize]
      omega
  · rw [hitems, hrunning, not_or]
    exact ⟨Int.ne_of_gt hstart.1, Int.not_le.mpr hstart.2⟩

/-! ## The pump -/

/-- The pump stops where the bound on running tasks does, or with nobody in line. -/
def Pumped (o : QueueOptions) (s : TaskQueue) : Prop :=
  o.maxRunningTotal.reached s.runningCurrent = true ∨ s.serviceLine.head = none

theorem Wf.pending_nonneg (h : Wf o s l w) : 0 ≤ s.pendingCurrent := by
  rw [h.counted.pending, total]
  refine sum_nonneg fun n hn => ?_
  obtain ⟨i, -, rfl⟩ := mem_map.mp hn
  exact h.lists.size_nonneg i

/-- The loop runs to its end on the fuel of its measure. -/
theorem pumpLoop_spec (fuel : ℕ) (h : Wf o s l w) (hready : Ready o s)
    (hfuel : s.serviceLine.size + s.pendingCurrent ≤ fuel) :
    (∃ l' w', Wf o (pumpLoop o fuel s) l' w') ∧ Ready o (pumpLoop o fuel s) ∧
      Kept s (pumpLoop o fuel s) ∧ Pumped o (pumpLoop o fuel s) := by
  induction fuel generalizing s l w with
  | zero =>
    have hsize := h.lists.line.size
    have hpending := h.pending_nonneg
    have hempty : l = [] := length_eq_zero_iff.mp (by omega)
    refine ⟨⟨l, w, h⟩, hready, .refl s, .inr ?_⟩
    rw [pumpLoop, h.lists.line.head, hempty]
    rfl
  | succ fuel ih =>
    rw [pumpLoop]
    cases hroom : o.maxRunningTotal.reached s.runningCurrent with
    | true => exact ⟨⟨l, w, h⟩, hready, .refl s, .inl hroom⟩
    | false =>
      rw [if_neg (by simp)]
      cases l with
      | nil =>
        have hhead : s.serviceLine.head = none := h.lists.line.head
        rw [hhead]
        exact ⟨⟨[], w, h⟩, hready, .refl s, .inr hhead⟩
      | cons node l =>
        have hhead : s.serviceLine.head = some node := h.lists.line.head
        rw [hhead]
        obtain ⟨⟨l', w', hwf⟩, hready', hkept, hless⟩ := visit_spec h hready hroom
        obtain ⟨hwf'', hready'', hkept', hpumped⟩ := ih hwf hready' (by omega)
        exact ⟨hwf'', hready'', hkept.trans hkept', hpumped⟩

/-- A key that gained a task or finished one is scheduled. -/
theorem schedule_spec (h : Wf o s l w) (hget : s.queues.get key = some q) (hbut : ReadyBut o s q) :
    (∃ l' w', Wf o (s.schedule o key q) l' w') ∧ Ready o (s.schedule o key q) ∧
      Kept s (s.schedule o key q) ∧ Pumped o (s.schedule o key q) := by
  -- the key is in line afterwards if anything of it is left to start
  have hmarked : (∃ l' w', Wf o ((s.startAhead o key q).markReady o key q) l' w') ∧
      Ready o ((s.startAhead o key q).markReady o key q) ∧
      Kept s ((s.startAhead o key q).markReady o key q) := by
    rw [startAhead]
    split_ifs with hahead
    · obtain ⟨hhead, hsize, hrunning, hroom⟩ := hahead
      have hempty : l = [] := by
        rw [h.lists.line.head] at hhead
        exact head?_eq_none_iff.mp hhead
      have hnone : (s.states q).lineNode = none := by
        by_contra hne
        obtain ⟨node, hnode⟩ := ne_none_iff_exists'.mp hne
        have hmem := (h.places.placed q node hnode).1
        rw [hempty] at hmem
        cases hmem
      obtain ⟨hwf, hready, hkept, -⟩ := start_spec h hget hnone ⟨hsize, hrunning⟩ hbut hroom
      exact ⟨hwf, hready, hkept⟩
    · obtain ⟨l', hwf⟩ := (h.markReady hget).1
      exact ⟨⟨l', w, hwf⟩, hbut.markReady h hget, kept_markReady o s key q⟩
  obtain ⟨⟨l', w', hwf⟩, hready, hkept⟩ := hmarked
  have hpending := hwf.pending_nonneg
  have hsize := hwf.lists.line.size
  obtain ⟨hwf', hready', hkept', hpumped⟩ := pumpLoop_spec _ hwf hready (Int.self_le_toNat _)
  exact ⟨hwf', hready', hkept.trans hkept', hpumped⟩

/-! ## Operations -/

/-- What holds of a queue after each operation. -/
structure Serviced (o : QueueOptions) (s : TaskQueue) : Prop where
  wf : ∃ l w, Wf o s l w
  ready : Ready o s
  pumped : Pumped o s
  live : ∀ key q, s.queues.get key = some q → 0 < s.work q

theorem Serviced.congr (h : Serviced o s) (hsame : SameScheduler s s') : Serviced o s' := by
  obtain ⟨l, w, hwf⟩ := h.wf
  refine ⟨⟨l, w, hwf.congr hsame⟩, fun q hq => ?_, ?_, fun key q hget => ?_⟩
  · rw [hsame.lineNode]
    exact h.ready q ((hsame.startable q).mp hq)
  · rw [Pumped, hsame.runningCurrent, hsame.serviceLine]
    exact h.pumped
  · rw [work, hsame.items, hsame.running]
    exact h.live key q (hsame.queues ▸ hget)

theorem cleanup_spec (hwf : Wf o s l w) (hready : Ready o s) (hpumped : Pumped o s)
    (hlive : ∀ k q, k ≠ key → s.queues.get k = some q → 0 < s.work q) :
    Serviced o (s.cleanup key) := by
  rw [cleanup]
  cases hget : s.queues.get key with
  | none =>
    refine ⟨⟨l, w, hwf⟩, hready, hpumped, fun k q hk => hlive k q ?_ hk⟩
    rintro rfl
    rw [hget] at hk
    cases hk
  | some q =>
    simp only
    have hsize := hwf.lists.size_nonneg q
    have hrunning := hwf.homes.running_nonneg q
    split_ifs with hidle
    · have hnone : (s.states q).lineNode = none := by
        by_contra hne
        have hpos := (hwf.places.startable q hne).1
        omega
      have hsame : s.unmarkReady q = s := by rw [unmarkReady, hnone]
      rw [hsame]
      refine ⟨⟨l, w, hwf.forget hget hidle.1 hidle.2 hnone _⟩, hready, hpumped,
        fun k i hk => ?_⟩
      rw [JsMap.get_delete] at hk
      split_ifs at hk with hkk
      exact hlive k i (Ne.symm hkk) hk
    · refine ⟨⟨l, w, hwf⟩, hready, hpumped, fun k i hk => ?_⟩
      by_cases hkk : k = key
      · subst hkk
        rw [hget] at hk
        cases hk
        rw [work]
        omega
      · exact hlive k i hkk hk

theorem get_cleanup {k : JsString} (hk : k ≠ key) :
    (s.cleanup key).queues.get k = s.queues.get k := by
  have hunmark : ∀ q, (s.unmarkReady q).queues = s.queues := fun q => by
    rw [unmarkReady]
    cases (s.states q).lineNode <;> rfl
  rw [cleanup]
  cases s.queues.get key with
  | none => rfl
  | some q =>
    simp only
    split_ifs
    · rw [hunmark, JsMap.get_delete, if_neg (Ne.symm hk)]
    · rfl

theorem rejectLoop_spec (fuel : ℕ) (h : Wf o s l w) (hget : s.queues.get key = some q)
    (hnone : (s.states q).lineNode = none) (hfuel : (w q).length = fuel) :
    (∃ w', Wf o (rejectLoop key q fuel s) l w' ∧ w' q = []) ∧
      (∀ i, i ≠ q → (rejectLoop key q fuel s).states i = s.states i) ∧
      (rejectLoop key q fuel s).queues = s.queues ∧
      (rejectLoop key q fuel s).runningCurrent = s.runningCurrent ∧
      (rejectLoop key q fuel s).serviceLine = s.serviceLine := by
  induction fuel generalizing s w with
  | zero => exact ⟨⟨w, h, length_eq_zero_iff.mp hfuel⟩, fun _ _ => rfl, rfl, rfl, rfl⟩
  | succ fuel ih =>
    cases hw : w q with
    | nil => rw [hw] at hfuel; cases hfuel
    | cons x r =>
      rw [rejectLoop]
      simp only [h.lists.head hw]
      have hreject := h.reject hget hnone hw (s.tasks x).call (.refused (.cleared key))
      have hlen : (update w q r q).length = fuel := by
        rw [hw] at hfuel
        rw [update_self]
        exact Nat.succ.inj hfuel
      obtain ⟨hwf, hother, hqueues, hrunning⟩ := ih hreject hget
        (by simp [answer, hnone]) hlen
      refine ⟨hwf, fun i hi => ?_, hqueues, hrunning⟩
      rw [hother i hi]
      exact update_of_ne hi _ _

theorem rejectWaiting_spec (h : Wf o s l w) (hget : s.queues.get key = some q) :
    (∃ l' w', Wf o (s.rejectWaiting key q) l' w' ∧ w' q = []) ∧
      (∀ i, i ≠ q → (s.rejectWaiting key q).states i = s.states i) ∧
      (s.rejectWaiting key q).queues = s.queues ∧
      (s.rejectWaiting key q).runningCurrent = s.runningCurrent ∧
      (s.serviceLine.head = none → (s.rejectWaiting key q).serviceLine.head = none) := by
  obtain ⟨⟨l', hwf⟩, hnone⟩ := h.unmarkReady q
  have hunmark : (s.unmarkReady q).queues = s.queues ∧
      (s.unmarkReady q).runningCurrent = s.runningCurrent ∧
      (∀ i, i ≠ q → (s.unmarkReady q).states i = s.states i) ∧
      (s.serviceLine.head = none → (s.unmarkReady q).serviceLine.head = none) := by
    rw [unmarkReady]
    cases hnode : (s.states q).lineNode with
    | none => exact ⟨rfl, rfl, fun _ _ => rfl, id⟩
    | some node =>
      refine ⟨rfl, rfl, fun i hi => update_of_ne hi _ _, fun hhead => ?_⟩
      have hmem := (h.places.placed q node hnode).1
      rw [h.lists.line.head, head?_eq_none_iff] at hhead
      rw [hhead] at hmem
      cases hmem
  obtain ⟨hqueues, hrunning, hother, hhead⟩ := hunmark
  have hsize : (w q).length = ((s.unmarkReady q).states q).items.size.toNat := by
    rw [hwf.lists.size, Int.toNat_natCast]
  obtain ⟨⟨w', hwf', hempty⟩, hother', hqueues', hrunning', hline⟩ :=
    rejectLoop_spec _ hwf (hqueues ▸ hget) hnone hsize
  refine ⟨⟨l', w', hwf', hempty⟩, fun i hi => (hother' i hi).trans (hother i hi),
    hqueues'.trans hqueues, hrunning'.trans hrunning, fun hnone => ?_⟩
  exact (congrArg Line.head hline).trans (hhead hnone)

theorem Serviced.clearKey (h : Serviced o s) (hget : s.queues.get key = some q) :
    Serviced o (s.clearKey key q) ∧
      ∀ k, k ≠ key → (s.clearKey key q).queues.get k = s.queues.get k := by
  obtain ⟨l, w, hwf⟩ := h.wf
  obtain ⟨⟨l', w', hwf', hempty⟩, hother, hqueues, hrunning, hhead⟩ := rejectWaiting_spec hwf hget
  rw [TaskQueue.clearKey]
  constructor
  · refine cleanup_spec hwf' (fun i hstart => ?_) ?_ fun k i hk hki => ?_
    · have hi : i ≠ q := by
        rintro rfl
        have hpos := hstart.1
        rw [hwf'.lists.size, hempty] at hpos
        exact Int.lt_irrefl 0 hpos
      rw [Startable, hother i hi] at hstart
      rw [hother i hi]
      exact h.ready i hstart
    · rw [Pumped, hrunning]
      exact h.pumped.imp_right hhead
    · rw [hqueues] at hki
      have hi : i ≠ q := by
        rintro rfl
        exact hk (hwf.homes.injective k key i hki hget)
      rw [work, hother i hi]
      exact h.live k i hki
  · intro k hk
    rw [get_cleanup hk, hqueues]

theorem Serviced.clear (h : Serviced o s) (key : KeyArgument) : Serviced o (s.clear key) := by
  have hall : ∀ entries : List (JsString × ℕ), (entries.map Prod.fst).Nodup → ∀ s, Serviced o s →
      (∀ e ∈ entries, s.queues.get e.1 = some e.2) →
      Serviced o (entries.foldl (fun s e => s.clearKey e.1 e.2) s) := by
    intro entries hnodup
    induction entries with
    | nil => exact fun s h _ => h
    | cons e entries ih =>
      intro s h hget
      rw [map_cons, nodup_cons] at hnodup
      obtain ⟨hcleared, hother⟩ := h.clearKey (hget e (.head _))
      refine ih hnodup.2 _ hcleared fun e' he' => ?_
      have hne : e'.1 ≠ e.1 := fun heq => hnodup.1 (heq ▸ mem_map_of_mem he')
      rw [hother _ hne]
      exact hget e' (.tail _ he')
  cases key with
  | nullish => exact hall _ s.queues.nodup s h fun e he => JsMap.get_eq_some_iff.mpr he
  | string key =>
    rw [TaskQueue.clear]
    cases hget : s.queues.get key with
    | none => exact h
    | some q => exact (h.clearKey hget).1
  | other => exact h

theorem SameScheduler.trans {s'' : TaskQueue} (h : SameScheduler s s')
    (h' : SameScheduler s' s'') : SameScheduler s s'' :=
  ⟨fun q => (h'.items q).trans (h.items q), fun q => (h'.running q).trans (h.running q),
    fun q => (h'.lineNode q).trans (h.lineNode q), h'.queues.trans h.queues,
    h'.made.trans h.made, h'.tasks.trans h.tasks, h'.allocated.trans h.allocated,
    h'.serviceLine.trans h.serviceLine, h'.inFlight.trans h.inFlight,
    h'.pendingCurrent.trans h.pendingCurrent, h'.runningCurrent.trans h.runningCurrent,
    h'.pushedTotal.trans h.pushedTotal, h'.completedTotal.trans h.completedTotal,
    h'.failedTotal.trans h.failedTotal, h'.clearedTotal.trans h.clearedTotal⟩

/-- A call of `drain` settles no task. -/
structure Drained (s s' : TaskQueue) : Prop where
  same : SameScheduler s s'
  settled : s'.settled = s.settled
  calls : s.calls ≤ s'.calls

theorem Drained.trans {s'' : TaskQueue} (h : Drained s s') (h' : Drained s' s'') : Drained s s'' :=
  ⟨h.same.trans h'.same, h'.settled.trans h.settled, h.calls.trans h'.calls⟩

theorem drained_drainKey (s : TaskQueue) (call : ℕ) (key : JsString) :
    Drained s (s.drainKey call key) := by
  rw [drainKey]
  cases s.queues.get key with
  | none => exact ⟨{}, rfl, le_rfl⟩
  | some q =>
    simp only
    split_ifs
    · exact ⟨{}, rfl, le_rfl⟩
    · refine ⟨{ items := ?_, running := ?_, lineNode := ?_ }, rfl, le_rfl⟩
      · exact keep items (s := s) rfl
      · exact keep running (s := s) rfl
      · exact keep lineNode (s := s) rfl

theorem drained_drain (s : TaskQueue) (key : KeyArgument) : Drained s (s.drain key) := by
  have hcall : Drained s { s with calls := s.calls + 1 } := ⟨{}, rfl, Nat.le_succ _⟩
  have hall : ∀ (entries : List (JsString × ℕ)) (s' : TaskQueue), Drained s s' →
      Drained s (entries.foldl (fun s' e => s'.drainKey s.calls e.1) s') := by
    intro entries
    induction entries with
    | nil => exact fun _ h => h
    | cons e entries ih => exact fun s' h => ih _ (h.trans (drained_drainKey s' s.calls e.1))
  cases key with
  | nullish =>
    rw [drain]
    simp only
    split_ifs
    · exact ⟨{}, rfl, Nat.le_succ _⟩
    · exact hall _ _ hcall
  | string key => exact hcall.trans (drained_drainKey _ s.calls key)
  | other => exact ⟨{}, rfl, Nat.le_succ _⟩

theorem Serviced.drain (h : Serviced o s) (key : KeyArgument) : Serviced o (s.drain key) :=
  h.congr (drained_drain s key).same

/-- Settling a promise leaves the lists and the counters alone. -/
theorem Wf.answer (h : Wf o s l w) (call : ℕ) (outcome : Outcome) :
    Wf o (s.answer call outcome) l w :=
  h.congr {}

theorem Serviced.settle (h : Serviced o s) {call : ℕ} {completed : Bool}
    (hsettle : s.settle o call completed = some s') : Serviced o s' := by
  obtain ⟨l, w, hwf⟩ := h.wf
  obtain ⟨f, hfind, rfl⟩ := map_eq_some_iff.mp hsettle
  have hf := mem_of_find?_eq_some hfind
  have hget := hwf.homes.inFlight f hf
  have hce : ((if completed then 1 else 0 : ℤ) + if completed then 0 else 1) = 1 := by
    cases completed <;> rfl
  have hfinished := hwf.finish hf hce
  have hbut : ReadyBut o ({ s with
      inFlight := s.inFlight.erase f
      runningCurrent := s.runningCurrent - 1
      completedTotal := s.completedTotal + if completed then 1 else 0
      failedTotal := s.failedTotal + if completed then 0 else 1 }.setState f.state
        { s.states f.state with running := (s.states f.state).running - 1 }) f.state :=
    (h.ready.but f.state).congr fun i hi => update_of_ne hi _ _
  obtain ⟨⟨l', w', hwf'⟩, hready, hkept, hpumped⟩ :=
    schedule_spec (hfinished.answer call (if completed then .resolved else .failed)) hget hbut
  refine cleanup_spec hwf' hready hpumped fun k i hk hki => ?_
  rw [hkept.queues] at hki
  have hi : i ≠ f.state := by
    rintro rfl
    exact hk (hwf.homes.injective k f.key _ hki hget)
  rw [hkept.work, work, answer, states_setState, update_of_ne hi]
  exact h.live k i hki

theorem ensure_spec (h : Serviced o s) (hroom : s.overload o key = none) :
    (∃ l w, Wf o (s.ensure key).1 l w) ∧ Ready o (s.ensure key).1 ∧
      (s.ensure key).1.queues.get key = some (s.ensure key).2 ∧
      o.maxPendingTotal.reached (s.ensure key).1.pendingCurrent = false ∧
      ∀ k q, k ≠ key → (s.ensure key).1.queues.get k = some q → 0 < (s.ensure key).1.work q := by
  obtain ⟨l, w, hwf⟩ := h.wf
  rw [overload] at hroom
  rw [ensure]
  cases hget : s.queues.get key with
  | some q =>
    simp only [hget] at hroom
    split_ifs at hroom with hsize hpending
    exact ⟨⟨l, w, hwf⟩, h.ready, hget, Bool.eq_false_of_not_eq_true hpending,
      fun k i _ hk => h.live k i hk⟩
  | none =>
    simp only [hget] at hroom
    split_ifs at hroom with hkeys hpending
    refine ⟨⟨l, w, hwf.register hget (Bool.eq_false_of_not_eq_true hkeys)⟩, fun i hi => ?_,
      JsMap.get_set_self _ _ _, Bool.eq_false_of_not_eq_true hpending, fun k i hk hki => ?_⟩
    · obtain ⟨hrunning, hnode, hsize⟩ := hwf.states_register key i
      rw [Startable, hrunning, hsize] at hi
      rw [hnode]
      exact h.ready i hi
    · obtain ⟨hrunning, -, hsize⟩ := hwf.states_register key i
      change (s.queues.set key s.made).get k = some i at hki
      rw [JsMap.get_set, if_neg (Ne.symm hk)] at hki
      rw [work, hsize, hrunning]
      exact h.live k i hki

theorem Serviced.push (h : Serviced o s) (key : KeyArgument) (callable sinkThrows : Bool) :
    Serviced o (s.push o key callable sinkThrows) := by
  have hcall : Serviced o { s with calls := s.calls + 1 } :=
    h.congr {}
  have hanswer : ∀ outcome, Serviced o ({ s with calls := s.calls + 1 }.answer s.calls outcome) :=
    fun _ => h.congr {}
  cases key with
  | nullish => exact hanswer _
  | other => exact hanswer _
  | string key =>
    rw [TaskQueue.push]
    simp only
    generalize { s with calls := s.calls + 1 } = s₁ at hcall hanswer
    split_ifs
    · exact hanswer _
    · exact hanswer _
    · cases hroom : s₁.overload o key with
      | some p =>
        exact hcall.congr {}
      | none =>
        obtain ⟨⟨l, w, hwf⟩, hready, hget, hpending, hlive⟩ := ensure_spec hcall hroom
        simp only
        generalize s₁.ensure key = p at hwf hready hget hpending hlive
        obtain ⟨s₂, q⟩ := p
        simp only at hwf hready hget hpending hlive ⊢
        have hqueued := hwf.enqueue hget hpending s.calls
        have hother : ∀ i, i ≠ q → (s₂.enqueue s.calls key q).states i = s₂.states i :=
          fun i hi => update_of_ne hi _ _
        obtain ⟨⟨l', w'', hwf'⟩, hready', hkept, hpumped⟩ :=
          schedule_spec hqueued hget ((hready.but q).congr hother)
        refine ⟨⟨l', w'', hwf'⟩, hready', hpumped, fun k i hk => ?_⟩
        rw [hkept.queues] at hk
        rw [hkept.work]
        by_cases hi : i = q
        · rw [hi, work, hwf.lists.size_enqueue]
          have hsize := hwf.lists.size_nonneg q
          have hrunning := hqueued.homes.running_nonneg q
          omega
        · rw [work, hother i hi]
          refine hlive k i ?_ hk
          rintro rfl
          exact hi (some.inj (hk.symm.trans hget))

/-! ## Every run -/

/-- A task waits for a key. -/
def Waits (s : TaskQueue) (key : JsString) : Prop :=
  ∃ q l, (s.states q).items.Holds s.tasks l ∧ ∃ i ∈ l, (s.tasks i).key = key

/-- What holds of a queue after each operation. -/
structure Consistent (o : QueueOptions) (s : TaskQueue) : Prop where
  pending : s.pendingCurrent = Ledger.total (fun e => (s.states e.2).items.size) s.queues.entries
  running : s.runningCurrent = Ledger.total (fun e => (s.states e.2).running) s.queues.entries
  pushed : s.pushedTotal = s.pendingCurrent + s.runningCurrent + s.completedTotal +
    s.failedTotal + s.clearedTotal
  /-- The numbers of a key are those of its tasks. -/
  numbers : ∀ key q, s.queues.get key = some q →
    (∃ l, (s.states q).items.Holds s.tasks l ∧ ∀ i ∈ l, (s.tasks i).key = key) ∧
      (s.states q).running = s.inFlight.countP fun f => f.key = key
  concurrency : ∀ key q, s.queues.get key = some q → (s.states q).running ≤ o.concurrency
  maxRunningTotal : o.maxRunningTotal.Allows s.runningCurrent
  maxPendingTotal : o.maxPendingTotal.Allows s.pendingCurrent
  maxKeys : o.maxKeys.Allows s.queues.size
  live : ∀ key, (∃ q, s.queues.get key = some q) ↔ s.Waits key ∨ ∃ f ∈ s.inFlight, f.key = key
  /-- The service line holds the places of the keys with startable work. -/
  line : ∃ l, s.serviceLine.Holds l ∧ (l.map fun node => (s.serviceLine.nodes node).key).Nodup ∧
    (∀ node, node ∈ l ↔ ∃ key q, s.queues.get key = some q ∧ (s.states q).lineNode = some node) ∧
    ∀ node ∈ l, ∃ q, s.queues.get (s.serviceLine.nodes node).key = some q ∧
      (s.states q).lineNode = some node ∧ s.Startable o q
  started : o.maxRunningTotal.reached s.runningCurrent = false →
    ∀ key q, s.queues.get key = some q → ¬ s.Startable o q

/-- A total over every queue state is one over the keys, where the others have nothing. -/
theorem total_entries {f : ℕ → ℤ} {n : ℕ} {m : JsMap JsString ℕ}
    (hinjective : ∀ k k' q, m.get k = some q → m.get k' = some q → k = k')
    (hmade : ∀ k q, m.get k = some q → q < n) (hzero : ∀ q, (∀ k, m.get k ≠ some q) → f q = 0) :
    total f (List.range n) = total (fun e => f e.2) m.entries := by
  have hnodup : (m.entries.map Prod.snd).Nodup := by
    refine List.Nodup.map_on (fun e he e' he' heq => ?_) (List.Nodup.of_map _ m.nodup)
    have hget := JsMap.get_eq_some_iff.mpr he
    have hget' := JsMap.get_eq_some_iff.mpr he'
    exact Prod.ext (hinjective e.1 e'.1 e.2 hget (heq ▸ hget')) heq
  have hentries : total (fun e => f e.2) m.entries =
      total f (m.entries.map Prod.snd) := by
    rw [total, total, List.map_map]
    rfl
  rw [hentries]
  refine total_of_subset nodup_range hnodup (fun q hq => ?_) fun q _ hq => ?_
  · obtain ⟨e, he, rfl⟩ := mem_map.mp hq
    exact mem_range.mpr (hmade e.1 e.2 (JsMap.get_eq_some_iff.mpr he))
  · exact hzero q fun k hk => hq (mem_map_of_mem (JsMap.get_eq_some_iff.mp hk))

/-- A waiting task of a key waits in the queue state that the map names. -/
theorem Wf.waits_iff (h : Wf o s l w) :
    s.Waits key ↔ ∃ q, s.queues.get key = some q ∧ w q ≠ [] := by
  constructor
  · rintro ⟨q, l', hholds, i, hi, rfl⟩
    rw [hholds.unique (h.lists.fifo q)] at hi
    exact ⟨q, h.homes.waiting q i hi, ne_nil_of_mem hi⟩
  · rintro ⟨q, hget, hne⟩
    obtain ⟨i, hi⟩ := exists_mem_of_ne_nil _ hne
    exact ⟨q, w q, h.lists.fifo q, i, hi, h.homes.injective _ _ q (h.homes.waiting q i hi) hget⟩

/-- The tasks in flight of a key are those of the queue state that the map names. -/
theorem Homes.flight_iff (h : Homes s w) (hget : s.queues.get key = some q) {f : InFlight}
    (hf : f ∈ s.inFlight) : f.key = key ↔ f.state = q := by
  have hhome := h.inFlight f hf
  constructor
  · rintro rfl
    exact some.inj (hhome.symm.trans hget)
  · rintro rfl
    exact h.injective _ _ _ hhome hget

/-- What the scheduler keeps says what holds of the queue. -/
theorem Serviced.consistent (h : Serviced o s) : Consistent o s := by
  obtain ⟨l, w, hwf⟩ := h.wf
  have hidle : ∀ q, (∀ k, s.queues.get k ≠ some q) →
      (s.states q).items.size = 0 ∧ (s.states q).running = 0 := fun q hq => by
    obtain ⟨hempty, hrunning, -⟩ := hwf.idle_of_not_named hq
    rw [hwf.lists.size, hempty]
    exact ⟨rfl, hrunning⟩
  refine ⟨?_, ?_, hwf.counted.pushed, fun key q hget => ⟨⟨w q, hwf.lists.fifo q, fun i hi => ?_⟩, ?_⟩,
    fun _ q _ => hwf.counted.concurrency q, hwf.counted.maxRunning, hwf.counted.maxPending,
    hwf.counted.maxKeys, fun key => ⟨?_, ?_⟩, ⟨l, hwf.lists.line, ?_, fun node => ⟨fun hmem => ?_, ?_⟩,
      fun node hmem => ?_⟩, ?_⟩
  · rw [hwf.counted.pending]
    exact total_entries hwf.homes.injective hwf.homes.made fun q hq => (hidle q hq).1
  · rw [hwf.counted.running]
    exact total_entries hwf.homes.injective hwf.homes.made fun q hq => (hidle q hq).2
  · exact hwf.homes.injective _ _ q (hwf.homes.waiting q i hi) hget
  · rw [hwf.homes.running, Int.natCast_inj]
    refine countP_congr fun f hf => ?_
    simp [hwf.homes.flight_iff hget hf]
  · rintro ⟨q, hget⟩
    have hwork := h.live key q hget
    rw [work, hwf.lists.size, hwf.homes.running] at hwork
    by_cases hempty : w q = []
    · rw [hempty, length_nil, Int.natCast_zero, Int.zero_add, Int.natCast_pos,
        countP_pos_iff] at hwork
      obtain ⟨f, hf, hstate⟩ := hwork
      exact .inr ⟨f, hf, (hwf.homes.flight_iff hget hf).mpr (of_decide_eq_true hstate)⟩
    · exact .inl (hwf.waits_iff.mpr ⟨q, hget, hempty⟩)
  · rintro (hwaits | ⟨f, hf, rfl⟩)
    · obtain ⟨q, hget, -⟩ := hwf.waits_iff.mp hwaits
      exact ⟨q, hget⟩
    · exact ⟨f.state, hwf.homes.inFlight f hf⟩
  · refine List.Nodup.map_on (fun n hn n' hn' heq => ?_) hwf.lists.line.nodup
    obtain ⟨q, hq⟩ := hwf.places.owned n hn
    obtain ⟨q', hq'⟩ := hwf.places.owned n' hn'
    have hkey := (hwf.places.placed q n hq).2
    rw [heq, (hwf.places.placed q' n' hq').2, some.injEq] at hkey
    rw [← hkey, hq', some.injEq] at hq
    exact hq.symm
  · obtain ⟨q, hq⟩ := hwf.places.owned node hmem
    exact ⟨_, q, (hwf.places.placed q node hq).2, hq⟩
  · rintro ⟨key, q, -, hq⟩
    exact (hwf.places.placed q node hq).1
  · obtain ⟨q, hq⟩ := hwf.places.owned node hmem
    exact ⟨q, (hwf.places.placed q node hq).2, hq,
      hwf.places.startable q (by rw [hq]; exact some_ne_none _)⟩
  · intro hroom key q _ hstart
    rcases h.pumped with hfull | hhead
    · rw [hroom] at hfull
      cases hfull
    · obtain ⟨node, hnode⟩ := ne_none_iff_exists'.mp (h.ready q hstart)
      have hmem := (hwf.places.placed q node hnode).1
      rw [hwf.lists.line.head, head?_eq_none_iff] at hhead
      rw [hhead] at hmem
      cases hmem

end TaskQueue

open TaskQueue

/-- What holds of a queue after each operation holds after every run. -/
theorem consistent_of_reaches {o : QueueOptions} {es : List QueueEvent} {s : TaskQueue}
    (h : (queueMachine o).Reaches es s) : s.Consistent o := by
  refine Serviced.consistent (h.invariant ?_ fun s e s' hs _ hstep => ?_)
  · exact ⟨⟨[], _, wf_create o⟩, fun q hq => absurd hq.1 (Int.lt_irrefl 0), .inr rfl,
      fun key q hget => by cases hget⟩
  · cases e with
    | push key callable sinkThrows =>
      cases hstep
      exact hs.push key callable sinkThrows
    | settle call completed => exact hs.settle hstep
    | clear key =>
      cases hstep
      exact hs.clear key
    | drain key =>
      cases hstep
      exact hs.drain key

/-- With one task at a time, the key that waited in line runs before the key that ran. -/
theorem consistent_of_reaches_servedRun : ∃ (o : QueueOptions) (s : TaskQueue), s.Consistent o ∧
    s.pendingCurrent = 1 ∧ s.serviceLine.size = 1 ∧ s.inFlight.map InFlight.key = [lit "b"] := by
  let o : QueueOptions :=
    { concurrency := 1, maxSize := .infinite, maxKeys := .infinite, maxPendingTotal := .infinite,
      maxRunningTotal := .finite 1 le_rfl, maxKeyLength := 256, onDrop := false,
      concurrency_pos := le_refl 1, maxKeyLength_pos := by decide }
  obtain ⟨s, hrun, hp⟩ : ∃ s, (queueMachine o).Reaches [.push (.string (lit "a")) true false,
      .push (.string (lit "a")) true false, .push (.string (lit "b")) true false, .settle 0 true]
      s ∧ s.pendingCurrent = 1 ∧ s.serviceLine.size = 1 ∧ s.inFlight.map InFlight.key = [lit "b"] :=
    Machine.exists_of_exec (by decide +kernel)
  exact ⟨o, s, consistent_of_reaches hrun, hp⟩

end AdapterWs.Queue
