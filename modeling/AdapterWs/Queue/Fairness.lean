import AdapterWs.Queue.Turns

/-!
# Order and fairness

The record of a run is what its operations did, one after another. The queue follows the rules of
a line of keys that take turns, so the record has the properties of such a line: tasks of a key
start in push order, each once, and a key in line is passed by every other key at most once.
-/

namespace AdapterWs.Queue

open JsString Function RoundRobin List

/-! ## The record -/

/-- What an event does. -/
def turnsOf (o : QueueOptions) (s : TaskQueue) : QueueEvent → List QueueTurn
  | .push key callable _ => s.pushTurns o key callable
  | .settle call completed => s.settleTurns o call completed
  | .clear key => s.clearTurns key
  | .drain _ => []

/-- A queue and the record of its run. -/
structure QueueHistory where
  queue : TaskQueue
  turns : List QueueTurn

/-- One queue with its record. -/
def historyMachine (o : QueueOptions) : Machine QueueHistory QueueEvent where
  init := ⟨.create, []⟩
  step h e := ((queueMachine o).step h.queue e).map fun s => ⟨s, h.turns ++ turnsOf o h.queue e⟩

/-- The answer to a task that settled. -/
def outcomeOf (completed : Bool) : Outcome := if completed then .resolved else .failed

/-! ## The promise -/

/-- What a queue promises of a run. -/
structure FairQueue (o : QueueOptions) (es : List QueueEvent) (h : QueueHistory) : Prop where
  /-- The pushes are numbered in their order. -/
  ascending : ((accepted h.turns).map Prod.fst).Pairwise (· < ·)
  /-- The tasks of a key start in the order of the pushes that are not cleared. -/
  order : ∀ key, (ofKey (started h.turns) key).IsPrefix (keptOf h.turns key)
  started_once : ((started h.turns).map Prod.fst).Nodup
  settled_once : (h.queue.settled.map Prod.fst).Nodup
  /-- An accepted push is settled with its task's outcome, or cleared and never started. -/
  settled_with : ∀ t key, (t, key) ∈ accepted h.turns → ∀ out, (t, out) ∈ h.queue.settled →
    (∃ completed, out = outcomeOf completed ∧ .settle t completed ∈ es ∧
        (t, key) ∈ started h.turns) ∨
      out = .refused (.cleared key) ∧ t ∉ (started h.turns).map Prod.fst
  /-- The outcome of a task settles its push. -/
  settles : ∀ t completed, .settle t completed ∈ es → (t, outcomeOf completed) ∈ h.queue.settled
  /-- What was started has ended or is in flight. -/
  balance : ∀ key, starts h.turns key =
    ends h.turns key + h.queue.inFlight.countP fun f => f.key = key
  /-- At no point do more tasks of a key overlap than may. -/
  overlap : ∀ A B, h.turns = A ++ B → ∀ key, starts A key ≤ ends A key + o.concurrency
  /-- A key with a place in line took it and has not left it. -/
  placed : ∀ key q, h.queue.queues.get key = some q → (h.queue.states q).lineNode ≠ none →
    ∃ A B, h.turns = A ++ .place key :: B ∧ .leave key ∉ B
  /-- While a key holds its place, every other key starts at most one task. -/
  fair : ∀ A key B C, h.turns = A ++ .place key :: (B ++ C) → .leave key ∉ B →
    ∀ key', key' ≠ key → starts B key' ≤ 1

/-! ## What an event answers -/

/-- Who is answered, and with what, when an event happens. -/
def Answers (ev : QueueEvent) : QueueTurn → Prop
  | .finish t _ out => ∃ completed, ev = .settle t completed ∧ out = outcomeOf completed
  | .drop _ key out => out = .refused (.cleared key)
  | _ => True

variable {ev : QueueEvent}

theorem answers_of_answered {e : QueueTurn} (he : e.answered = none) : Answers ev e := by
  cases e with
  | finish t k out => cases he
  | drop t k out => cases he
  | _ => trivial

namespace TaskQueue

variable {o : QueueOptions} {s s' : TaskQueue} {key : JsString} {q : ℕ} {e : QueueTurn}

theorem answered_markReadyTurns (he : e ∈ s.markReadyTurns o key q) : e.answered = none := by
  rw [markReadyTurns] at he
  split_ifs at he
  · cases he
  · rw [mem_singleton.mp he]
    rfl

theorem answered_unmarkReadyTurns (he : e ∈ s.unmarkReadyTurns q) : e.answered = none := by
  rw [unmarkReadyTurns] at he
  cases hnode : (s.states q).lineNode with
  | none => simp [hnode] at he
  | some node =>
    rw [hnode] at he
    rw [mem_singleton.mp he]
    rfl

theorem answered_startTurns (he : e ∈ s.startTurns key q) : e.answered = none := by
  rw [startTurns] at he
  cases hhead : (s.states q).items.head with
  | none => simp [hhead] at he
  | some node =>
    rw [hhead] at he
    rw [mem_singleton.mp he]
    rfl

theorem answered_visitTurns {node : ℕ} (he : e ∈ s.visitTurns o node) : e.answered = none := by
  rw [visitTurns] at he
  rcases mem_cons.mp he with rfl | he
  · rfl
  · cases hget : s.queues.get (s.serviceLine.nodes node).key with
    | none => simp [hget] at he
    | some q =>
      simp only [hget] at he
      split_ifs at he
      · cases he
      · rcases mem_append.mp he with he | he
        · exact answered_startTurns he
        · exact answered_markReadyTurns he

theorem answered_pumpTurns (fuel : ℕ) (he : e ∈ pumpTurns o fuel s) : e.answered = none := by
  induction fuel generalizing s with
  | zero => cases he
  | succ fuel ih =>
    rw [pumpTurns] at he
    split_ifs at he
    · cases he
    · cases hhead : s.serviceLine.head with
      | none => simp [hhead] at he
      | some node =>
        rw [hhead] at he
        rcases mem_append.mp he with he | he
        · exact answered_visitTurns he
        · exact ih he

theorem answered_scheduleTurns (he : e ∈ s.scheduleTurns o key q) : e.answered = none := by
  rw [scheduleTurns] at he
  rcases mem_append.mp he with he | he
  · rcases mem_append.mp he with he | he
    · rw [startAheadTurns] at he
      split_ifs at he
      · exact answered_startTurns he
      · cases he
    · exact answered_markReadyTurns he
  · exact answered_pumpTurns _ he

theorem answered_cleanupTurns (he : e ∈ s.cleanupTurns key) : e.answered = none := by
  rw [cleanupTurns] at he
  cases hget : s.queues.get key with
  | none => simp [hget] at he
  | some q =>
    simp only [hget] at he
    split_ifs at he
    · exact answered_unmarkReadyTurns he
    · cases he

variable {ev : QueueEvent}

theorem answers_rejectTurns (fuel : ℕ) (he : e ∈ rejectTurns key q fuel s) : Answers ev e := by
  induction fuel generalizing s with
  | zero => cases he
  | succ fuel ih =>
    rw [rejectTurns] at he
    cases hhead : (s.states q).items.head with
    | none => simp [hhead] at he
    | some node =>
      rw [hhead] at he
      rcases mem_cons.mp he with rfl | he
      · rfl
      · exact ih he

theorem answers_clearKeyTurns (he : e ∈ s.clearKeyTurns key q) : Answers ev e := by
  rw [clearKeyTurns] at he
  rcases mem_append.mp he with he | he
  · rcases mem_append.mp he with he | he
    · exact answers_of_answered (answered_unmarkReadyTurns he)
    · exact answers_rejectTurns _ he
  · exact answers_of_answered (answered_cleanupTurns he)

theorem answers_clearAllTurns (entries : List (JsString × ℕ)) (he : e ∈ clearAllTurns entries s) :
    Answers ev e := by
  induction entries generalizing s with
  | nil => cases he
  | cons entry entries ih =>
    rcases mem_append.mp he with he | he
    · exact answers_clearKeyTurns he
    · exact ih he

theorem settleTurns_eq {call : ℕ} {completed : Bool}
    (hsettle : s.settle o call completed = some s') : ∃ key turns,
      s.settleTurns o call completed = .finish call key (outcomeOf completed) :: turns ∧
        ∀ e ∈ turns, e.answered = none := by
  obtain ⟨f, hfind, -⟩ := Option.map_eq_some_iff.mp hsettle
  have hcall : f.call = call := by simpa using find?_some hfind
  subst hcall
  rw [settleTurns, hfind]
  refine ⟨f.key, _, rfl, fun e he => ?_⟩
  rcases mem_append.mp he with he | he
  · exact answered_scheduleTurns he
  · exact answered_cleanupTurns he

theorem answers_turnsOf (hstep : (queueMachine o).step s ev = some s') (he : e ∈ turnsOf o s ev) :
    Answers ev e := by
  cases ev with
  | push key callable sinkThrows =>
    rw [turnsOf] at he
    cases key with
    | nullish =>
      rw [mem_singleton.mp he]
      trivial
    | other =>
      rw [mem_singleton.mp he]
      trivial
    | string key =>
      rw [pushTurns] at he
      simp only at he
      split_ifs at he
      · rw [mem_singleton.mp he]
        trivial
      · rw [mem_singleton.mp he]
        trivial
      · cases hroom : ({ s with calls := s.calls + 1 } : TaskQueue).overload o key with
        | some p =>
          rw [hroom] at he
          rw [mem_singleton.mp he]
          trivial
        | none =>
          rw [hroom] at he
          rcases mem_cons.mp he with rfl | he
          · trivial
          · exact answers_of_answered (answered_scheduleTurns he)
  | settle call completed =>
    obtain ⟨key, turns, heq, hquiet⟩ := settleTurns_eq hstep
    rw [turnsOf, heq] at he
    rcases mem_cons.mp he with rfl | he
    · exact ⟨completed, rfl, rfl⟩
    · exact answers_of_answered (hquiet e he)
  | clear key =>
    rw [turnsOf] at he
    cases key with
    | nullish => exact answers_clearAllTurns _ he
    | other => cases he
    | string key =>
      rw [clearTurns] at he
      cases hget : s.queues.get key with
      | none => simp [hget] at he
      | some q =>
        simp only [hget] at he
        exact answers_clearKeyTurns he
  | drain key => cases he

end TaskQueue

open TaskQueue

/-! ## Runs -/

/-- A queue follows the rules, and has answered the calls of its record. -/
structure Follows (o : QueueOptions) (es : List QueueEvent) (h : QueueHistory) : Prop where
  leads : Leads o .empty [] h.turns h.queue
  /-- Each answer belongs to its event. -/
  answers : ∀ e ∈ h.turns, ∃ ev ∈ es, Answers ev e
  settles : ∀ t completed, .settle t completed ∈ es → ∃ key,
    .finish t key (outcomeOf completed) ∈ h.turns

theorem stands_create (o : QueueOptions) : Stands o create [] (fun _ => []) .empty where
  wf := wf_create o
  line := rfl
  waiting _ _ hget := by cases hget
  idle _ _ := rfl
  running := rfl
  calls := le_rfl

variable {o : QueueOptions} {es : List QueueEvent} {h h' : QueueHistory}

theorem leads_step {s s' : TaskQueue} {l : List ℕ} {w : ℕ → List ℕ} {r : Rota JsString}
    (hs : Stands o s l w r) (hstep : (queueMachine o).step s ev = some s') :
    Leads o r s.settled (turnsOf o s ev) s' := by
  cases ev with
  | push key callable sinkThrows =>
    cases hstep
    exact hs.leads_push key callable sinkThrows
  | settle call completed => exact hs.leads_settle hstep
  | clear key =>
    cases hstep
    exact hs.leads_clear key
  | drain key =>
    cases hstep
    exact hs.leads_drain key

theorem Follows.step (hs : Follows o es h) (hstep : (historyMachine o).step h ev = some h') :
    Follows o (es ++ [ev]) h' := by
  obtain ⟨s', hqueue, rfl⟩ := Option.map_eq_some_iff.mp hstep
  refine ⟨hs.leads.trans fun _ _ _ hstands => leads_step hstands hqueue, fun e he => ?_,
    fun t completed hmem => ?_⟩
  · rcases mem_append.mp he with he | he
    · obtain ⟨ev', hev', hanswers⟩ := hs.answers e he
      exact ⟨ev', mem_append_left _ hev', hanswers⟩
    · exact ⟨ev, mem_append_right _ (mem_singleton_self ev), answers_turnsOf hqueue he⟩
  · rcases mem_append.mp hmem with hmem | hmem
    · obtain ⟨key, hfinish⟩ := hs.settles t completed hmem
      exact ⟨key, mem_append_left _ hfinish⟩
    · rw [← mem_singleton.mp hmem] at hqueue ⊢
      obtain ⟨key, turns, heq, -⟩ := settleTurns_eq hqueue
      refine ⟨key, mem_append_right _ ?_⟩
      rw [turnsOf, heq]
      exact (.head _)

theorem follows_of_reaches (hrun : (historyMachine o).Reaches es h) : Follows o es h := by
  refine hrun.invariant_trace ?_ fun es h ev h' hI _ hstep => hI.step hstep
  exact ⟨⟨[], _, _, stands_create o, .refl _, rfl⟩, forall_mem_nil _,
    fun t completed hmem => absurd hmem not_mem_nil⟩

/-- Every run of a queue. -/
theorem fairQueue_of_reaches (hrun : (historyMachine o).Reaches es h) : FairQueue o es h := by
  obtain ⟨⟨l, w, r, hstands, hsteps, hsettled⟩, hanswers, hsettles⟩ := follows_of_reaches hrun
  have hkept := hsteps.kept
  rw [nil_append] at hsettled
  refine ⟨hkept.ascending, fun key => ?_, hkept.started_once, ?_, fun t key hacc out hout => ?_,
    fun t completed hmem => ?_, fun key => ?_, fun A B hAB key => hsteps.load_le hAB key,
    fun key q hget hnode => ?_, fun A key B C hABC hleave key' hne =>
      hsteps.fair hABC hleave hne⟩
  · rw [hkept.order key]
    exact prefix_append _ _
  · rw [hsettled]
    exact hkept.answered_once
  · rw [hsettled] at hout
    obtain ⟨e, he, hanswered⟩ := mem_filterMap.mp hout
    obtain ⟨ev, hev, hans⟩ := hanswers e he
    cases e with
    | refuse t' out' =>
      cases hanswered
      exact absurd (mem_map_of_mem hacc) (hkept.refuse _ _ he)
    | finish t' k out' =>
      cases hanswered
      obtain ⟨completed, rfl, hout'⟩ := hans
      have hstarted := hkept.finish _ _ _ he
      obtain rfl := hkept.key_unique (hkept.started_accepted hstarted) hacc
      exact .inl ⟨completed, hout', hev, hstarted⟩
    | drop t' k out' =>
      cases hanswered
      obtain ⟨hdropped, hnot⟩ := hkept.drop _ _ _ he
      obtain rfl := hkept.key_unique hdropped hacc
      exact .inr ⟨hans, hnot⟩
    | _ => cases hanswered
  · obtain ⟨key, hfinish⟩ := hsettles t completed hmem
    rw [hsettled]
    exact mem_filterMap.mpr ⟨_, hfinish, rfl⟩
  · rw [hsteps.balance key, Rota.load, hstands.running, countP_map]
    rfl
  · obtain ⟨node, hq⟩ := Option.ne_none_iff_exists'.mp hnode
    obtain ⟨hmem, hplaced⟩ := hstands.wf.places.placed q node hq
    have hkey := hstands.wf.homes.injective _ _ _ hplaced hget
    refine hsteps.placed ?_
    rw [hstands.line, ← hkey]
    exact mem_map_of_mem hmem

/-- With one task at a time, the key that waited in line starts before the key that ran does
again. -/
theorem fairQueue_of_reaches_servedRun : ∃ (o : QueueOptions) (es : List QueueEvent)
    (h : QueueHistory), FairQueue o es h ∧
      started h.turns = [(0, lit "a"), (2, lit "b"), (1, lit "a")] := by
  let o : QueueOptions :=
    { concurrency := 1, maxSize := .infinite, maxKeys := .infinite, maxPendingTotal := .infinite,
      maxRunningTotal := .finite 1 Nat.one_pos, maxKeyLength := 256, onDrop := false,
      concurrency_pos := Nat.one_pos, maxKeyLength_pos := Nat.succ_pos 255 }
  obtain ⟨h, hrun, hp⟩ : ∃ h, (historyMachine o).Reaches [.push (.string (lit "a")) true false,
      .push (.string (lit "a")) true false, .push (.string (lit "b")) true false, .settle 0 true,
      .settle 2 false] h ∧ started h.turns = [(0, lit "a"), (2, lit "b"), (1, lit "a")] :=
    Machine.exists_of_exec (by decide +kernel)
  exact ⟨o, _, h, fairQueue_of_reaches hrun, hp⟩

end AdapterWs.Queue
