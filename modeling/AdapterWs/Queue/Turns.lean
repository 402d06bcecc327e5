import AdapterWs.Lib.RoundRobin
import AdapterWs.Queue.Scheduled

/-!
# The scheduler takes turns

What each operation of the queue does is read off the states it goes through: the tasks it
accepts, starts and drops, the places it gives and takes, the calls it answers. Read so, the
scheduler follows the rules of a line of keys that take turns.
-/

namespace AdapterWs.Queue

open JsString Function RoundRobin List

/-- What the queue does: keys in line, pushes as the calls, and their outcomes. -/
abbrev QueueTurn := Turn JsString Outcome

namespace TaskQueue

/-! ## What an operation does -/

/-- What `markReady(key, q)` does. -/
def markReadyTurns (o : QueueOptions) (s : TaskQueue) (key : JsString) (q : ℕ) : List QueueTurn :=
  if (s.states q).lineNode ≠ none ∨ (s.states q).items.size = 0 ∨
      (o.concurrency : ℤ) ≤ (s.states q).running then []
  else [.place key]

/-- What `unmarkReady(q)` does. -/
def unmarkReadyTurns (s : TaskQueue) (q : ℕ) : List QueueTurn :=
  match (s.states q).lineNode with
  | none => []
  | some node => [.leave (s.serviceLine.nodes node).key]

/-- What `start(key, q)` does. -/
def startTurns (s : TaskQueue) (key : JsString) (q : ℕ) : List QueueTurn :=
  match (s.states q).items.head with
  | none => []
  | some node => [.start (s.tasks node).call key]

/-- A key is taken off the line. -/
def unline (s : TaskQueue) (node q : ℕ) : TaskQueue :=
  { s with serviceLine := lineRemove s.serviceLine node }.setState q
    { s.states q with lineNode := none }

/-- What one visit does. -/
def visitTurns (o : QueueOptions) (s : TaskQueue) (node : ℕ) : List QueueTurn :=
  let key := (s.serviceLine.nodes node).key
  .leave key ::
    match s.queues.get key with
    | none => []
    | some q =>
      let s := s.unline node q
      if (s.states q).items.size = 0 ∨ (o.concurrency : ℤ) ≤ (s.states q).running then []
      else s.startTurns key q ++ (s.start key q).markReadyTurns o key q

/-- What the loop of `pump` does. -/
def pumpTurns (o : QueueOptions) : ℕ → TaskQueue → List QueueTurn
  | 0, _ => []
  | fuel + 1, s =>
    if o.maxRunningTotal.reached s.runningCurrent then []
    else
      match s.serviceLine.head with
      | none => []
      | some node => s.visitTurns o node ++ pumpTurns o fuel (s.visit o node)

/-- What the shortcut of `schedule` does. -/
def startAheadTurns (o : QueueOptions) (s : TaskQueue) (key : JsString) (q : ℕ) :
    List QueueTurn :=
  if s.serviceLine.head = none ∧ 0 < (s.states q).items.size ∧
      (s.states q).running < o.concurrency ∧ o.maxRunningTotal.reached s.runningCurrent = false then
    s.startTurns key q
  else []

/-- What `schedule(key, q)` does. -/
def scheduleTurns (o : QueueOptions) (s : TaskQueue) (key : JsString) (q : ℕ) : List QueueTurn :=
  let started := s.startAhead o key q
  let marked := started.markReady o key q
  s.startAheadTurns o key q ++ started.markReadyTurns o key q ++
    pumpTurns o (marked.serviceLine.size + marked.pendingCurrent).toNat marked

/-- What `cleanup(key)` does. -/
def cleanupTurns (s : TaskQueue) (key : JsString) : List QueueTurn :=
  match s.queues.get key with
  | none => []
  | some q =>
    if (s.states q).running = 0 ∧ (s.states q).items.size = 0 then s.unmarkReadyTurns q else []

/-- What the loop of `rejectWaiting` does. -/
def rejectTurns (key : JsString) (q : ℕ) : ℕ → TaskQueue → List QueueTurn
  | 0, _ => []
  | fuel + 1, s =>
    match (s.states q).items.head with
    | none => []
    | some node =>
      .drop (s.tasks node).call key (.refused (.cleared key)) ::
        rejectTurns key q fuel (rejectLoop key q 1 s)

/-- What cancelling the waiting tasks of a key does. -/
def clearKeyTurns (s : TaskQueue) (key : JsString) (q : ℕ) : List QueueTurn :=
  let unmarked := s.unmarkReady q
  s.unmarkReadyTurns q ++ rejectTurns key q (unmarked.states q).items.size.toNat unmarked ++
    (s.rejectWaiting key q).cleanupTurns key

/-- What clearing one key after another does. -/
def clearAllTurns : List (JsString × ℕ) → TaskQueue → List QueueTurn
  | [], _ => []
  | e :: entries, s => s.clearKeyTurns e.1 e.2 ++ clearAllTurns entries (s.clearKey e.1 e.2)

/-- What `clear(key)` does. -/
def clearTurns (s : TaskQueue) : KeyArgument → List QueueTurn
  | .nullish => clearAllTurns s.queues.entries s
  | .string key =>
    match s.queues.get key with
    | some q => s.clearKeyTurns key q
    | none => []
  | .other => []

/-- What `push(key, task)` does. -/
def pushTurns (o : QueueOptions) (s : TaskQueue) (key : KeyArgument) (callable : Bool) :
    List QueueTurn :=
  let call := s.calls
  let s := { s with calls := s.calls + 1 }
  match key with
  | .string key =>
    if o.maxKeyLength < key.length then
      [.refuse call (.refused (.keyLength key.length o.maxKeyLength))]
    else if callable = false then [.refuse call (.refused .taskNotFunction)]
    else
      match s.overload o key with
      | some (reason, limit) => [.refuse call (.refused (.overload key reason limit))]
      | none =>
        let (s, q) := s.ensure key
        .accept call key :: (s.enqueue call key q).scheduleTurns o key q
  | _ => [.refuse call (.refused .keyNotString)]

/-- A running task's promise settles, before the scheduler is asked. -/
def finish (s : TaskQueue) (f : InFlight) (completed : Bool) : TaskQueue :=
  ({ s with
    inFlight := s.inFlight.erase f
    runningCurrent := s.runningCurrent - 1
    completedTotal := s.completedTotal + if completed then 1 else 0
    failedTotal := s.failedTotal + if completed then 0 else 1 }.setState f.state
      { s.states f.state with running := (s.states f.state).running - 1 }).answer f.call
        (if completed then .resolved else .failed)

/-- What the settlement of a task does. -/
def settleTurns (o : QueueOptions) (s : TaskQueue) (call : ℕ) (completed : Bool) :
    List QueueTurn :=
  match s.inFlight.find? fun f => f.call = call with
  | none => []
  | some f =>
    let finished := s.finish f completed
    .finish f.call f.key (if completed then .resolved else .failed) ::
      (finished.scheduleTurns o f.key f.state ++
        (finished.schedule o f.key f.state).cleanupTurns f.key)

/-! ## The abstract state -/

/-- The line, the waiting tasks and the running ones that a queue stands for. -/
structure Stands (o : QueueOptions) (s : TaskQueue) (l : List ℕ) (w : ℕ → List ℕ)
    (r : Rota JsString) : Prop where
  wf : Wf o s l w
  line : r.line = l.map fun n => (s.serviceLine.nodes n).key
  waiting : ∀ key q, s.queues.get key = some q →
    r.waiting key = (w q).map fun i => (s.tasks i).call
  idle : ∀ key, s.queues.get key = none → r.waiting key = []
  running : r.running = s.inFlight.map fun f => (f.call, f.key)
  calls : r.calls ≤ s.calls

/-- A run of the rules leads to a queue, which has answered the calls of the trace. -/
def Leads (o : QueueOptions) (r : Rota JsString) (settled : List (ℕ × Outcome))
    (tr : List QueueTurn) (s' : TaskQueue) : Prop :=
  ∃ l' w' r', Stands o s' l' w' r' ∧ Steps o.concurrency r tr r' ∧
    s'.settled = settled ++ answered tr

variable {o : QueueOptions} {s s' t : TaskQueue} {l : List ℕ} {w : ℕ → List ℕ} {q x : ℕ}
  {key : JsString} {r r' : Rota JsString} {rest : List ℕ}
  {tr tr' : List QueueTurn} {e : QueueTurn} {settled : List (ℕ × Outcome)}

theorem answered_append (tr tr' : List QueueTurn) :
    answered (tr ++ tr') = answered tr ++ answered tr' :=
  filterMap_append

theorem Stands.leads (h : Stands o s l w r) : Leads o r s.settled [] s :=
  ⟨l, w, r, h, .refl r, (append_nil _).symm⟩

theorem Stands.leads_step {l' : List ℕ} {w' : ℕ → List ℕ} (h : Stands o s' l' w' r')
    (hstep : Step o.concurrency r e r') (hsettled : s'.settled = s.settled ++ answered [e]) :
    Leads o r s.settled [e] s' :=
  ⟨l', w', r', h, hstep.steps, hsettled⟩

theorem Leads.trans (h : Leads o r settled tr s')
    (h' : ∀ l' w' r', Stands o s' l' w' r' → Leads o r' s'.settled tr' t) :
    Leads o r settled (tr ++ tr') t := by
  obtain ⟨l', w', r', hstands, hsteps, hsettled⟩ := h
  obtain ⟨l'', w'', r'', hstands', hsteps', hsettled'⟩ := h' l' w' r' hstands
  refine ⟨l'', w'', r'', hstands', hsteps.trans hsteps', ?_⟩
  rw [hsettled', hsettled, answered_append, append_assoc]

theorem Leads.cons (h : Leads o r settled [e] s')
    (h' : ∀ l' w' r', Stands o s' l' w' r' → Leads o r' s'.settled tr' t) :
    Leads o r settled (e :: tr') t :=
  h.trans h'

/-! ## Places -/

section

variable (h : Stands o s l w r)
include h

theorem Stands.load_eq (hget : s.queues.get key = some q) :
    (r.load key : ℤ) = (s.states q).running := by
  rw [Rota.load, h.running, h.wf.homes.running, countP_map]
  refine congrArg Nat.cast (countP_congr fun f hf => ?_)
  have hiff : f.key = key ↔ f.state = q := by
    have hhome := h.wf.homes.inFlight f hf
    constructor
    · rintro rfl
      exact Option.some.inj (hhome.symm.trans hget)
    · rintro rfl
      exact h.wf.homes.injective _ _ _ hhome hget
  simp [hiff]

/-- A key is put in line where it can be started and has no place. -/
theorem Stands.leads_markReady (hget : s.queues.get key = some q) :
    Leads o r s.settled (s.markReadyTurns o key q) (s.markReady o key q) := by
  rw [markReadyTurns, markReady]
  simp only
  split_ifs with hskip
  · exact h.leads
  · rw [not_or, not_or, not_not, not_le] at hskip
    obtain ⟨hnone, hsize, hrunning⟩ := hskip
    have hstart : s.Startable o q := ⟨by have := h.wf.lists.size_nonneg q; omega, hrunning⟩
    have hwf := h.wf.place hget hnone hstart
    have hnot : key ∉ r.line := by
      rw [h.line]
      intro hmem
      obtain ⟨n, hn, hkey⟩ := mem_map.mp hmem
      obtain ⟨q', hq'⟩ := h.wf.places.owned n hn
      have hplaced := (h.wf.places.placed q' n hq').2
      rw [hkey, hget, Option.some.injEq] at hplaced
      rw [← hplaced, hnone] at hq'
      cases hq'
    refine ⟨_, w, { r with turn := none, line := r.line ++ [key] },
      ⟨hwf, ?_, h.waiting, h.idle, h.running, h.calls⟩, (Step.place hnot).steps,
      (append_nil _).symm⟩
    simp only [setState, map_append, map_singleton, key_lineAppend, node_lineAppend,
      if_true, h.line]
    congr 1
    refine map_congr_left fun n hn => ?_
    rw [if_neg (ne_of_lt (h.wf.lists.line.allocated n hn))]

theorem Stands.leaveLine {node : ℕ} (hnode : (s.states q).lineNode = some node) :
    ∃ a c, l = a ++ node :: c ∧ Stands o (s.unline node q) (a ++ c) w
      { r with
        turn := if a = [] then some (s.serviceLine.nodes node).key else none
        line := (a ++ c).map fun n => (s.serviceLine.nodes n).key } ∧
      Step o.concurrency r (.leave (s.serviceLine.nodes node).key : QueueTurn)
        { r with
          turn := if a = [] then some (s.serviceLine.nodes node).key else none
          line := (a ++ c).map fun n => (s.serviceLine.nodes n).key } := by
  obtain ⟨a, c, rfl, hwf⟩ := h.wf.unplace hnode
  refine ⟨a, c, rfl, ⟨hwf, ?_, h.waiting, h.idle, h.running, h.calls⟩, ?_⟩
  · refine map_congr_left fun n _ => ?_
    exact (key_lineRemove node n).symm
  · have hline : r.line = a.map (fun n => (s.serviceLine.nodes n).key) ++
        (s.serviceLine.nodes node).key :: c.map (fun n => (s.serviceLine.nodes n).key) := by
      rw [h.line, map_append, map_cons]
    have hstep : Step o.concurrency r (.leave (s.serviceLine.nodes node).key : QueueTurn) _ :=
      .leave hline
    simp only [map_eq_nil_iff, ← map_append] at hstep
    exact hstep

theorem Stands.leads_unmarkReady (q : ℕ) :
    Leads o r s.settled (s.unmarkReadyTurns q) (s.unmarkReady q) := by
  rw [unmarkReadyTurns, unmarkReady]
  cases hnode : (s.states q).lineNode with
  | none => exact h.leads
  | some node =>
    obtain ⟨a, c, -, hstands, hstep⟩ := h.leaveLine hnode
    exact hstands.leads_step hstep (append_nil _).symm

end

/-! ## Tasks -/

section

variable (h : Stands o s l w r) (hget : s.queues.get key = some q)
include h hget

/-- The calls that wait after the oldest task of a key is taken. -/
theorem Stands.waiting_take (hw : w q = x :: rest) :
    r.waiting key = (s.tasks x).call :: rest.map (fun i => (s.tasks i).call) ∧
      ∀ k i, s.queues.get k = some i →
        update r.waiting key (rest.map fun i => (s.tasks i).call) k =
          (update w q rest i).map fun i => (s.tasks i).call := by
  refine ⟨?_, fun k i hk => ?_⟩
  · rw [h.waiting key q hget, hw, map_cons]
  · by_cases hkey : k = key
    · subst hkey
      cases hget.symm.trans hk
      rw [update_self, update_self]
    · have hi : i ≠ q := by
        rintro rfl
        exact hkey (h.wf.homes.injective k key i hk hget)
      rw [update_of_ne hkey, update_of_ne hi]
      exact h.waiting k i hk

theorem Stands.idle_update (calls : List ℕ) {k : JsString} (hk : s.queues.get k = none) :
    update r.waiting key calls k = [] := by
  rw [update_of_ne]
  · exact h.idle k hk
  · rintro rfl
    rw [hget] at hk
    cases hk

/-- A task is started by a key whose turn it is, or with nobody in line. -/
theorem Stands.leads_start (hnone : (s.states q).lineNode = none) (hstart : s.Startable o q)
    (hroom : o.maxRunningTotal.reached s.runningCurrent = false)
    (hturn : r.turn = some key ∨ r.line = []) :
    Leads o r s.settled (s.startTurns key q) (s.start key q) := by
  obtain ⟨x, rest, hw⟩ := h.wf.lists.exists_cons hstart.1
  have hwf := h.wf.startOldest hget hnone hw hstart.2 hroom
  obtain ⟨hwaiting, hupdate⟩ := h.waiting_take hget hw
  have hload : r.load key < o.concurrency := by
    have hrunning := h.load_eq hget
    have hlt := hstart.2
    omega
  rw [startTurns, h.wf.lists.head hw]
  refine ⟨l, update w q rest, { r with
    turn := none
    waiting := update r.waiting key (rest.map fun i => (s.tasks i).call)
    running := r.running ++ [((s.tasks x).call, key)] }, ⟨hwf, ?_, fun k i hk => ?_, fun k hk => ?_,
    ?_, ?_⟩, (Step.start hturn hwaiting hload).steps, ?_⟩
  · rw [line_start]
    exact h.line
  · rw [queues_start] at hk
    rw [TaskQueue.start, h.wf.lists.head hw]
    simp only [setState, call_fifoShift]
    exact hupdate k i hk
  · rw [queues_start] at hk
    exact h.idle_update hget _ hk
  · rw [TaskQueue.start, h.wf.lists.head hw]
    simp [setState, h.running]
  · rw [TaskQueue.start, h.wf.lists.head hw]
    exact h.calls
  · rw [TaskQueue.start, h.wf.lists.head hw]
    exact (append_nil _).symm

theorem Stands.leads_reject (hnone : (s.states q).lineNode = none) (hw : w q = x :: rest) :
    Leads o r s.settled [.drop (s.tasks x).call key (.refused (.cleared key))]
      (rejectLoop key q 1 s) := by
  obtain ⟨hwaiting, hupdate⟩ := h.waiting_take hget hw
  have hone : rejectLoop key q 1 s = ({ s with
      tasks := (fifoShift s.tasks (s.states q).items x).1
      pendingCurrent := s.pendingCurrent - 1
      clearedTotal := s.clearedTotal + 1 }.setState q
        { s.states q with items := (fifoShift s.tasks (s.states q).items x).2 }).answer
          (s.tasks x).call (.refused (.cleared key)) := by
    rw [rejectLoop]
    simp [h.wf.lists.head hw, rejectLoop]
  rw [hone]
  refine ⟨l, update w q rest, { r with
    turn := none, waiting := update r.waiting key (rest.map fun i => (s.tasks i).call) },
    ⟨h.wf.reject hget hnone hw _ _, h.line, fun k i hk => ?_, fun k hk => ?_, h.running, h.calls⟩,
    (Step.drop hwaiting _).steps, rfl⟩
  · simp only [answer, setState, call_fifoShift]
    exact hupdate k i hk
  · exact h.idle_update hget _ hk

/-- A task is queued behind those that wait for its key. -/
theorem Stands.leads_enqueue (hroom : o.maxPendingTotal.reached s.pendingCurrent = false) {call : ℕ}
    (hfresh : r.calls ≤ call) (hcall : call < s.calls) :
    Leads o r s.settled [.accept call key] (s.enqueue call key q) := by
  have hwf := h.wf.enqueue hget hroom call
  have hold : ∀ i, ∀ j ∈ w i, ((s.enqueue call key q).tasks j).call = (s.tasks j).call := by
    intro i j hj
    have hne : j ≠ s.allocated := ne_of_lt (h.wf.lists.allocated i j hj)
    simp [enqueue, setState, update_of_ne hne]
  have hnew : ((s.enqueue call key q).tasks s.allocated).call = call := by
    simp [enqueue, setState, update_self]
  refine ⟨l, _, { r with
    turn := none, waiting := update r.waiting key (r.waiting key ++ [call]), calls := call + 1 },
    ⟨hwf, h.line, fun k i hk => ?_, fun k hk => h.idle_update hget _ hk, h.running, hcall⟩,
    (Step.accept key hfresh).steps, (append_nil _).symm⟩
  replace hk : s.queues.get k = some i := hk
  by_cases hkey : k = key
  · subst hkey
    cases hget.symm.trans hk
    simp only [update_self, map_append, map_singleton, hnew]
    rw [h.waiting k q hget, map_congr_left (hold q)]
  · have hi : i ≠ q := by
      rintro rfl
      exact hkey (h.wf.homes.injective k key i hk hget)
    simp only [update_of_ne hkey, update_of_ne hi]
    rw [h.waiting k i hk, map_congr_left (hold i)]

end

theorem Stands.leads_finish (h : Stands o s l w r) {f : InFlight} (hf : f ∈ s.inFlight)
    (completed : Bool) : Leads o r s.settled
      [.finish f.call f.key (if completed then .resolved else .failed)] (s.finish f completed) := by
  have hce : ((if completed then 1 else 0 : ℤ) + if completed then 0 else 1) = 1 := by
    cases completed <;> rfl
  obtain ⟨a, c, -, hsplit, herase⟩ := exists_erase_eq hf
  have hrunning : r.running = a.map (fun f => (f.call, f.key)) ++
      (f.call, f.key) :: c.map (fun f => (f.call, f.key)) := by
    rw [h.running, hsplit, map_append, map_cons]
  refine ⟨l, w, { r with
    turn := none
    running := a.map (fun f => (f.call, f.key)) ++ c.map (fun f => (f.call, f.key)) },
    ⟨(h.wf.finish hf hce).answer _ _, h.line, h.waiting, h.idle, ?_, h.calls⟩,
    (Step.finish hrunning _).steps, rfl⟩
  simp [finish, answer, setState, herase]

theorem Stands.register (h : Stands o s l w r) (hget : s.queues.get key = none)
    (hroom : o.maxKeys.reached s.queues.size = false) : Stands o (s.register key) l w r := by
  refine ⟨h.wf.register hget hroom, h.line, fun k i hk => ?_, fun k hk => ?_, h.running, h.calls⟩
  · simp only [TaskQueue.register, setState, JsMap.get_set] at hk ⊢
    split_ifs at hk with hkk
    · -- the new queue state has no task
      cases hk
      have hfresh : ∀ k, s.queues.get k ≠ some s.made := fun k hk =>
        lt_irrefl _ (h.wf.homes.made k _ hk)
      rw [(h.wf.idle_of_not_named hfresh).1, ← hkk]
      exact h.idle key hget
    · exact h.waiting k i hk
  · simp only [TaskQueue.register, setState, JsMap.get_set] at hk
    split_ifs at hk
    exact h.idle k hk

theorem Stands.forget (h : Stands o s l w r) (hget : s.queues.get key = some q)
    (hrunning : (s.states q).running = 0) (hsize : (s.states q).items.size = 0)
    (hnone : (s.states q).lineNode = none) (drained : List ℕ) :
    Stands o { s with queues := s.queues.delete key, drained := drained } l w r := by
  refine ⟨h.wf.forget hget hrunning hsize hnone drained, h.line, fun k i hk => ?_, fun k hk => ?_,
    h.running, h.calls⟩
  · simp only [JsMap.get_delete] at hk
    split_ifs at hk
    exact h.waiting k i hk
  · simp only [JsMap.get_delete] at hk
    split_ifs at hk with hkk
    · have hempty : w q = [] := by
        rw [h.wf.lists.size, Int.natCast_eq_zero] at hsize
        exact length_eq_zero_iff.mp hsize
      rw [← hkk, h.waiting key q hget, hempty]
      rfl
    · exact h.idle k hk

/-! ## The scheduler -/

theorem Leads.after_step {r₁ : Rota JsString} (hstep : Step o.concurrency r e r₁)
    (he : e.answered = none) (h : Leads o r₁ settled tr t) : Leads o r settled (e :: tr) t := by
  obtain ⟨l', w', r', hstands, hsteps, hsettled⟩ := h
  refine ⟨l', w', r', hstands, hstep.steps.trans hsteps, ?_⟩
  rw [hsettled, answered, answered, filterMap_cons_none he]

/-- A key without a place starts a task and is put in line for the next. -/
theorem Stands.leads_serve (h : Stands o s l w r) (hget : s.queues.get key = some q)
    (hnone : (s.states q).lineNode = none) (hstart : s.Startable o q)
    (hroom : o.maxRunningTotal.reached s.runningCurrent = false)
    (hturn : r.turn = some key ∨ r.line = []) :
    Leads o r s.settled (s.startTurns key q ++ (s.start key q).markReadyTurns o key q)
      ((s.start key q).markReady o key q) :=
  (h.leads_start hget hnone hstart hroom hturn).trans fun _ _ _ h' =>
    h'.leads_markReady ((congrArg (JsMap.get · key) (queues_start key q)).trans hget)

/-- A visit is the turn of the key that is first in line. -/
theorem Stands.leads_visit {node : ℕ} (h : Stands o s (node :: l) w r)
    (hroom : o.maxRunningTotal.reached s.runningCurrent = false) :
    Leads o r s.settled (s.visitTurns o node) (s.visit o node) := by
  obtain ⟨q, hq⟩ := h.wf.places.owned node (.head _)
  have hget := (h.wf.places.placed q node hq).2
  have hstart := h.wf.places.startable q (by rw [hq]; exact Option.some_ne_none _)
  obtain ⟨a, c, hsplit, hstands, hstep⟩ := h.leaveLine hq
  have ha : a = [] := by
    have hnodup := h.wf.lists.line.nodup
    cases a with
    | nil => rfl
    | cons n a =>
      obtain ⟨rfl, hl⟩ := cons.inj hsplit
      rw [nodup_cons, hl] at hnodup
      exact absurd (mem_append_right _ (.head _)) hnodup.1
  subst ha
  have hitems : ((s.unline node q).states q).items = (s.states q).items := by
    simp [unline]
  have hrunning : ((s.unline node q).states q).running = (s.states q).running := by
    simp [unline]
  have hguard : ¬ (((s.unline node q).states q).items.size = 0 ∨
      (o.concurrency : ℤ) ≤ ((s.unline node q).states q).running) := by
    rw [hitems, hrunning, not_or]
    exact ⟨Int.ne_of_gt hstart.1, Int.not_le.mpr hstart.2⟩
  have hvisit : s.visit o node = ((s.unline node q).start (s.serviceLine.nodes node).key q).markReady
      o (s.serviceLine.nodes node).key q := by
    rw [visit]
    simp only [hget]
    exact if_neg hguard
  have hturns : s.visitTurns o node = .leave (s.serviceLine.nodes node).key ::
      ((s.unline node q).startTurns (s.serviceLine.nodes node).key q ++
        ((s.unline node q).start (s.serviceLine.nodes node).key q).markReadyTurns o
          (s.serviceLine.nodes node).key q) := by
    rw [visitTurns]
    simp only [hget]
    rw [if_neg hguard]
  rw [hvisit, hturns]
  refine Leads.after_step hstep rfl ?_
  refine hstands.leads_serve hget (by simp [unline]) ?_ hroom (.inl (by simp))
  rw [Startable, hitems, hrunning]
  exact hstart

theorem Stands.leads_pump (fuel : ℕ) (h : Stands o s l w r) :
    Leads o r s.settled (pumpTurns o fuel s) (pumpLoop o fuel s) := by
  induction fuel generalizing s l w r with
  | zero => exact h.leads
  | succ fuel ih =>
    rw [pumpTurns, pumpLoop]
    cases hroom : o.maxRunningTotal.reached s.runningCurrent with
    | true => exact h.leads
    | false =>
      rw [if_neg Bool.false_ne_true, if_neg Bool.false_ne_true]
      cases l with
      | nil =>
        have hhead : s.serviceLine.head = none := h.wf.lists.line.head
        rw [hhead]
        exact h.leads
      | cons node l =>
        have hhead : s.serviceLine.head = some node := h.wf.lists.line.head
        rw [hhead]
        exact (h.leads_visit hroom).trans fun _ _ _ h' => ih h'

theorem Stands.leads_startAhead (h : Stands o s l w r) (hget : s.queues.get key = some q) :
    Leads o r s.settled (s.startAheadTurns o key q) (s.startAhead o key q) := by
  rw [startAheadTurns, startAhead]
  split_ifs with hahead
  · obtain ⟨hhead, hsize, hrunning, hroom⟩ := hahead
    have hempty : l = [] := by
      rw [h.wf.lists.line.head] at hhead
      exact head?_eq_none_iff.mp hhead
    have hnone : (s.states q).lineNode = none := by
      by_contra hne
      obtain ⟨node, hnode⟩ := Option.ne_none_iff_exists'.mp hne
      have hmem := (h.wf.places.placed q node hnode).1
      rw [hempty] at hmem
      cases hmem
    refine h.leads_start hget hnone ⟨hsize, hrunning⟩ hroom (.inr ?_)
    rw [h.line, hempty]
    rfl
  · exact h.leads

/-- A key that gained a task or finished one is scheduled. -/
theorem Stands.leads_schedule (h : Stands o s l w r) (hget : s.queues.get key = some q) :
    Leads o r s.settled (s.scheduleTurns o key q) (s.schedule o key q) := by
  have hahead : (s.startAhead o key q).queues.get key = some q := by
    rw [startAhead]
    split_ifs
    · rw [queues_start]
      exact hget
    · exact hget
  have hmarked := (h.leads_startAhead hget).trans fun _ _ _ h' => h'.leads_markReady hahead
  exact hmarked.trans fun _ _ _ h' => h'.leads_pump _

/-! ## Operations -/

theorem Stands.leads_cleanup (h : Stands o s l w r) (key : JsString) :
    Leads o r s.settled (s.cleanupTurns key) (s.cleanup key) := by
  rw [cleanupTurns, cleanup]
  cases hget : s.queues.get key with
  | none => exact h.leads
  | some q =>
    simp only
    split_ifs with hidle
    · have hnone : (s.states q).lineNode = none := by
        by_contra hne
        have hpos := (h.wf.places.startable q hne).1
        omega
      have hsame : s.unmarkReady q = s := by rw [unmarkReady, hnone]
      have hturns : s.unmarkReadyTurns q = [] := by rw [unmarkReadyTurns, hnone]
      rw [hsame, hturns]
      exact ⟨l, w, r, h.forget hget hidle.1 hidle.2 hnone _, .refl r, (append_nil _).symm⟩
    · exact h.leads

/-- The waiting tasks of a key are dropped, oldest first. -/
theorem Stands.leads_rejectLoop (fuel : ℕ) (h : Stands o s l w r)
    (hget : s.queues.get key = some q) (hnone : (s.states q).lineNode = none) :
    Leads o r s.settled (rejectTurns key q fuel s) (rejectLoop key q fuel s) := by
  induction fuel generalizing s l w r with
  | zero => exact h.leads
  | succ fuel ih =>
    rw [rejectTurns]
    cases hw : w q with
    | nil =>
      have hhead : (s.states q).items.head = none := by
        rw [(h.wf.lists.fifo q).head, hw]
        rfl
      have hloop : rejectLoop key q (fuel + 1) s = s := by
        rw [rejectLoop]
        simp [hhead]
      simp only [hhead]
      rw [hloop]
      exact h.leads
    | cons x rest =>
      have hhead := h.wf.lists.head hw
      have hloop : rejectLoop key q (fuel + 1) s =
          rejectLoop key q fuel (rejectLoop key q 1 s) := by
        rw [rejectLoop, rejectLoop]
        simp [hhead, rejectLoop]
      have hkept : (rejectLoop key q 1 s).queues = s.queues ∧
          ((rejectLoop key q 1 s).states q).lineNode = none := by
        rw [rejectLoop]
        simp only [hhead, rejectLoop]
        exact ⟨rfl, by simp [answer, hnone]⟩
      simp only [hhead]
      rw [hloop]
      exact (h.leads_reject hget hnone hw).cons fun _ _ _ h' =>
        ih h' (hkept.1 ▸ hget) hkept.2

theorem Stands.leads_clearKey (h : Stands o s l w r) (hget : s.queues.get key = some q) :
    Leads o r s.settled (s.clearKeyTurns key q) (s.clearKey key q) := by
  have hqueues : (s.unmarkReady q).queues = s.queues := by
    rw [unmarkReady]
    cases (s.states q).lineNode <;> rfl
  have hunmarked := h.leads_unmarkReady q
  have hnone := (h.wf.unmarkReady q).2
  have hrejected := hunmarked.trans fun _ _ _ h' =>
    h'.leads_rejectLoop ((s.unmarkReady q).states q).items.size.toNat (hqueues ▸ hget) hnone
  exact hrejected.trans fun _ _ _ h' => h'.leads_cleanup key

theorem get_clearKey (h : Stands o s l w r) (hget : s.queues.get key = some q) {k : JsString}
    (hk : k ≠ key) : (s.clearKey key q).queues.get k = s.queues.get k := by
  rw [clearKey, get_cleanup hk, (rejectWaiting_spec h.wf hget).2.2.1]

theorem Stands.leads_clearAll (entries : List (JsString × ℕ)) (h : Stands o s l w r)
    (hnodup : (entries.map Prod.fst).Nodup) (hget : ∀ e ∈ entries, s.queues.get e.1 = some e.2) :
    Leads o r s.settled (clearAllTurns entries s)
      (entries.foldl (fun s e => s.clearKey e.1 e.2) s) := by
  induction entries generalizing s l w r with
  | nil => exact h.leads
  | cons e entries ih =>
    rw [map_cons, nodup_cons] at hnodup
    have hfirst := hget e (.head _)
    refine (h.leads_clearKey hfirst).trans fun _ _ _ h' => ih h' hnodup.2 fun e' he' => ?_
    have hne : e'.1 ≠ e.1 := fun heq => hnodup.1 (heq ▸ mem_map_of_mem he')
    rw [get_clearKey h hfirst hne]
    exact hget e' (.tail _ he')

section

variable (h : Stands o s l w r)
include h

theorem Stands.leads_clear (key : KeyArgument) :
    Leads o r s.settled (s.clearTurns key) (s.clear key) := by
  cases key with
  | nullish =>
    exact h.leads_clearAll _ s.queues.nodup fun e he => JsMap.get_eq_some_iff.mpr he
  | string key =>
    rw [clearTurns, clear]
    cases hget : s.queues.get key with
    | none => exact h.leads
    | some q => exact h.leads_clearKey hget
  | other => exact h.leads

theorem Stands.congr (hsame : SameScheduler s s') (hcalls : s.calls ≤ s'.calls) :
    Stands o s' l w r := by
  refine ⟨h.wf.congr hsame, ?_, ?_, ?_, ?_, h.calls.trans hcalls⟩
  · rw [hsame.serviceLine]
    exact h.line
  · rw [hsame.queues, hsame.tasks]
    exact h.waiting
  · rw [hsame.queues]
    exact h.idle
  · rw [hsame.inFlight]
    exact h.running

theorem Stands.count : Stands o { s with calls := s.calls + 1 } l w r :=
  h.congr {} (Nat.le_succ _)

theorem Stands.leads_refuse (out : Outcome) :
    Leads o r s.settled [.refuse s.calls out]
      ({ s with calls := s.calls + 1 }.answer s.calls out) := by
  have hstands : Stands o ({ s with calls := s.calls + 1 }.answer s.calls out) l w r :=
    h.congr {} (Nat.le_succ _)
  exact ⟨l, w, { r with turn := none, calls := s.calls + 1 },
    ⟨hstands.wf, h.line, h.waiting, h.idle, h.running, le_rfl⟩,
    (Step.refuse out h.calls).steps, rfl⟩

theorem Stands.ensure (hroom : s.overload o key = none) :
    Stands o (s.ensure key).1 l w r ∧
      (s.ensure key).1.queues.get key = some (s.ensure key).2 ∧
      o.maxPendingTotal.reached (s.ensure key).1.pendingCurrent = false ∧
      (s.ensure key).1.calls = s.calls ∧ (s.ensure key).1.settled = s.settled := by
  rw [overload] at hroom
  rw [TaskQueue.ensure]
  cases hget : s.queues.get key with
  | some q =>
    simp only [hget] at hroom
    split_ifs at hroom with hsize hpending
    exact ⟨h, hget, Bool.eq_false_of_not_eq_true hpending, rfl, rfl⟩
  | none =>
    simp only [hget] at hroom
    split_ifs at hroom with hkeys hpending
    exact ⟨h.register hget (Bool.eq_false_of_not_eq_true hkeys), JsMap.get_set_self _ _ _,
      Bool.eq_false_of_not_eq_true hpending, rfl, rfl⟩

theorem Stands.leads_push (key : KeyArgument) (callable sinkThrows : Bool) :
    Leads o r s.settled (s.pushTurns o key callable) (s.push o key callable sinkThrows) := by
  cases key with
  | nullish => exact h.leads_refuse _
  | other => exact h.leads_refuse _
  | string key =>
    rw [pushTurns, push]
    simp only
    split_ifs with hlength hcallable
    · exact h.leads_refuse _
    · exact h.leads_refuse _
    · cases hroom : ({ s with calls := s.calls + 1 } : TaskQueue).overload o key with
      | some p =>
        obtain ⟨l', w', r', hstands, hsteps, hsettled⟩ :=
          h.leads_refuse (.refused (.overload key p.1 p.2))
        exact ⟨l', w', r', hstands.congr {} le_rfl, hsteps, hsettled⟩
      | none =>
        obtain ⟨hstands, hget, hpending, hcalls, hsettled⟩ := h.count.ensure hroom
        simp only
        generalize ({ s with calls := s.calls + 1 } : TaskQueue).ensure key = p
          at hstands hget hpending hcalls hsettled
        obtain ⟨s₂, q⟩ := p
        simp only at hstands hget hpending hcalls hsettled ⊢
        rw [← hsettled]
        have hlt : s.calls < s₂.calls := by
          rw [hcalls]
          exact Nat.lt_succ_self _
        refine (hstands.leads_enqueue hget hpending h.calls hlt).cons fun _ _ _ h' =>
          h'.leads_schedule hget

/-- A settlement ends a task, schedules its key and forgets it where nothing is left. -/
theorem Stands.leads_settle {call : ℕ} {completed : Bool}
    (hsettle : s.settle o call completed = some s') :
    Leads o r s.settled (s.settleTurns o call completed) s' := by
  obtain ⟨f, hfind, rfl⟩ := Option.map_eq_some_iff.mp hsettle
  have hf := mem_of_find?_eq_some hfind
  have hcall : f.call = call := by simpa using find?_some hfind
  subst hcall
  have hget : (s.finish f completed).queues.get f.key = some f.state :=
    h.wf.homes.inFlight f hf
  rw [settleTurns, hfind]
  refine (h.leads_finish hf completed).cons fun _ _ _ h' => ?_
  exact (h'.leads_schedule hget).trans fun _ _ _ h'' => h''.leads_cleanup f.key

theorem Stands.leads_drain (key : KeyArgument) : Leads o r s.settled [] (s.drain key) := by
  have hdrained := drained_drain s key
  exact ⟨l, w, r, h.congr hdrained.same hdrained.calls, .refl r,
    hdrained.settled.trans (append_nil _).symm⟩

end

end TaskQueue
end AdapterWs.Queue
