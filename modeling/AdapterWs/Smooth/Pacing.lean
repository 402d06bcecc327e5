import AdapterWs.Smooth.Reports

/-!
# Command pacing

A tick applies all the commands of an entity, or a prefix of at most `maxCommandsPerTick`. Where
`apply` is pure, the ticks have no part in the outcome: it is the fold over the commands.

An oversized batch is cut to its newest `queueCap` entries before its commands are looked at, so a
batch has to be no longer than that.
-/

namespace AdapterWs.Smooth

open List Option Authority

variable {K W S C V : Type} {o : AuthorityOptions} {a a' : Authority K W S C V}
  {l : TickLocals K W S V} {f : TickFrame K W S C V} {e : Entity W S C} {key k : K}
  {remaining : List K}

/-! ## The calls of a run -/

section

variable [DecidableEq K]

/-- A call for an entity that may change it. -/
def AuthorityEvent.isCall (key : K) : AuthorityEvent K W S C V → Bool
  | .ensure k .. | .enqueue k _ | .inject k _ | .set k _ | .remove k => decide (k = key)
  | .drain | .emitEvent .. | .applied _ | .missed _ | .threw => false

/-- The first state of an entity and the commands since. -/
def AuthorityEvent.record (key : K) (h : Option (S × List (QueuedCommand C))) :
    AuthorityEvent K W S C V → Option (S × List (QueuedCommand C))
  | .ensure k _ initialState _ => if k = key then h.or (some (initialState, [])) else h
  | .enqueue k commands =>
    if k = key then h.map fun h => (h.1, h.2 ++ commands.filterMap id) else h
  | _ => h

/-- The first state of an entity and its commands in a run. -/
def history (key : K) (es : List (AuthorityEvent K W S C V)) :
    Option (S × List (QueuedCommand C)) := es.foldl (AuthorityEvent.record key) none

theorem history_filter (key : K) (es : List (AuthorityEvent K W S C V)) :
    history key (es.filter (AuthorityEvent.isCall key)) = history key es := by
  suffices h : ∀ h, (es.filter (AuthorityEvent.isCall key)).foldl (AuthorityEvent.record key) h =
      es.foldl (AuthorityEvent.record key) h from h none
  induction es with
  | nil => exact fun _ => rfl
  | cons ev es ih =>
    intro h
    rw [filter_cons, foldl_cons]
    split_ifs with hcall
    · rw [foldl_cons, ih]
    · have hsame : AuthorityEvent.record key h ev = h := by
        cases ev <;> simp_all [AuthorityEvent.isCall, AuthorityEvent.record]
      rw [hsame, ih]

/-- The states that the commands of an entity lead to. -/
def applyAll (apply : K → S → QueuedCommand C → S) (key : K) (s : S)
    (cmds : List (QueuedCommand C)) : S := cmds.foldl (apply key) s

/-- The last of some ids, or zero. -/
def lastId (cmds : List (QueuedCommand C)) : ℕ := (cmds.getLast?.map QueuedCommand.id).getD 0

/-- A step of a run whose `apply` is a function that returns, and that has no command of the server,
no replaced state, and no more than `queueCap` waiting commands of an entity. -/
def Pure (o : AuthorityOptions) (apply : K → S → QueuedCommand C → S) (key : K)
    (a : Authority K W S C V) : AuthorityEvent K W S C V → Prop
  | .ensure k ws _ _ => k = key → ∀ e, a.entities.get key = some e → e.ws = ws
  | .enqueue k commands => a.drain = none ∧ (k = key → ∀ e, a.entities.get key = some e →
      e.queue.length + (commands.filterMap id).length ≤ o.queueCap)
  | .remove k => k ≠ key
  | .applied s => ∀ f, a.drain = some f → ∀ owned i c, f.call = .command owned i c →
      s = apply f.key f.s c
  | .drain | .emitEvent .. => True
  | .inject .. | .set .. | .missed _ | .threw => False

/-- A step with no batch for an entity that is longer than `queueCap`. -/
def Short (o : AuthorityOptions) (key : K) : AuthorityEvent K W S C V → Prop
  | .enqueue k commands => k = key → commands.length ≤ o.queueCap
  | _ => True

/-! ## What a drain reports -/

/-- A drain committed at most one batch of an entity, within the budget, and acknowledged the last
command of each. -/
structure TickLocals.Paced (o : AuthorityOptions) (l : TickLocals K W S V) : Prop where
  acks : l.tick.acks.map (fun ack => (ack.key, ack.ws, some ack.id)) =
    l.commits.map fun commit => (commit.key, commit.ws, commit.ids.getLast?)
  nodup : (l.commits.map Commit.key).Nodup
  bounded : ∀ commit ∈ l.commits, ∀ n, o.maxCommandsPerTick = some n → commit.ids.length ≤ n

/-- A drain that is over returned, and was paced. -/
def DrainRecord.Paced (o : AuthorityOptions) (r : DrainRecord K W S V) : Prop :=
  ∃ tick, r.tick = some tick ∧ TickLocals.Paced o ⟨tick, r.commits, r.start⟩

/-- The drain is at a command of an entity that it has not visited before. -/
structure Regular.Call (o : AuthorityOptions) (a : Authority K W S C V) (f : TickFrame K W S C V) :
    Prop where
  paced : f.toTickLocals.Paced o
  fresh : ∀ commit ∈ f.commits, commit.key ≠ f.key ∧ commit.key ∉ f.remaining
  nodup : f.remaining.Nodup ∧ f.key ∉ f.remaining
  call : ∃ owned i c e, f.call = .command owned i c ∧ f.applied.length = i ∧
    a.entities.get f.key = some e ∧ (owned.getD e.queue)[i]? = some c ∧
    ∀ n, o.maxCommandsPerTick = some n → ∃ own, owned = some own ∧ own.length ≤ n

/-- There are no commands of the server, the drains that are over were paced, and the one in
progress is. -/
structure Regular (o : AuthorityOptions) (a : Authority K W S C V) : Prop where
  servers : ∀ k e, a.entities.get k = some e → e.serverQueue = []
  drains : ∀ r, .drained r ∈ a.log → r.Paced o
  inCall : ∀ f, a.drain = some f → Regular.Call o a f

/-- What a drain that has some entities left needs. -/
structure Regular.Visit (o : AuthorityOptions) (a : Authority K W S C V)
    (l : TickLocals K W S V) (remaining : List K) : Prop where
  servers : ∀ k e, a.entities.get k = some e → e.serverQueue = []
  drains : ∀ r, .drained r ∈ a.log → r.Paced o
  paced : l.Paced o
  fresh : ∀ commit ∈ l.commits, commit.key ∉ remaining
  nodup : remaining.Nodup

theorem servers_put {entities : JsMap K (Entity W S C)}
    (h : ∀ k e, entities.get k = some e → e.serverQueue = []) (key : K) {e : Entity W S C}
    (hserver : e.serverQueue = []) :
    ∀ k e', (entities.set key e).get k = some e' → e'.serverQueue = [] := by
  intro k e' hget
  rw [JsMap.get_set] at hget
  split_ifs at hget
  · cases hget
    exact hserver
  · exact h k e' hget

theorem Regular.Visit.tail (h : Regular.Visit o a l (key :: remaining)) :
    Regular.Visit o a l remaining :=
  ⟨h.servers, h.drains, h.paced,
    fun commit hcommit hmem => h.fresh commit hcommit (mem_cons_of_mem key hmem),
    (nodup_cons.mp h.nodup).2⟩

theorem Regular.Visit.enter (h : Regular.Visit o a l (key :: remaining)) {e' : Entity W S C}
    (hget : a.entities.get key = some e') {owned : Option (List (QueuedCommand C))}
    {c : QueuedCommand C} (hcall : (owned.getD e'.queue)[0]? = some c)
    (hbudget : ∀ n, o.maxCommandsPerTick = some n → ∃ own, owned = some own ∧ own.length ≤ n)
    (before s : S) :
    Regular o (a.enter ⟨l, remaining, key, before, s, [], .command owned 0 c⟩) := by
  refine ⟨by rw [entities_enter]; exact h.servers, by rw [log_enter]; exact h.drains,
    fun f hf => ?_⟩
  rw [drain_enter] at hf
  cases hf
  refine ⟨h.paced, fun commit hcommit => ⟨fun heq => ?_, fun hmem => ?_⟩, ?_,
    owned, 0, c, e', rfl, rfl, ?_, hcall, hbudget⟩
  · exact h.fresh commit hcommit (heq ▸ (.head _))
  · exact h.fresh commit hcommit (mem_cons_of_mem key hmem)
  · exact (nodup_cons.mp h.nodup).symm
  · rw [entities_enter]
    exact hget

variable [DecidableEq S]

omit [DecidableEq K] in
theorem TickLocals.Paced.rest (h : l.Paced o) (key : K) (before : S) (e : Entity W S C) :
    TickLocals.Paced o { l with tick := l.tick.finish key before e false false } := by
  refine ⟨?_, h.nodup, h.bounded⟩
  simpa [Tick.finish] using h.acks

theorem regular_visit (hmissing : o.onMissing = false) (h : Regular.Visit o a l remaining) :
    Regular o (a.visit o l remaining) := by
  induction remaining generalizing a l with
  | nil =>
    refine ⟨h.servers, fun r hr => ?_, nofun⟩
    rcases mem_cons.mp hr with heq | hr
    · obtain rfl := LogEntry.drained.inj heq
      exact ⟨l.tick, rfl, h.paced⟩
    · exact h.drains r hr
  | cons key remaining ih =>
    rw [visit]
    cases hget : a.entities.get key with
    | none => exact ih h.tail
    | some e =>
      have hserver := h.servers key e hget
      obtain ⟨state, ws, queue, lastAckedId, lastCommand, active, serverQueue⟩ := e
      obtain rfl : serverQueue = [] := hserver
      have hput : ∀ e' : Entity W S C, e'.serverQueue = [] →
          Regular.Visit o (a.put key e') l (key :: remaining) := fun e' he' =>
        ⟨servers_put h.servers key he', h.drains, h.paced, h.fresh, h.nodup⟩
      cases queue with
      | cons c queue =>
        cases hbudget : o.maxCommandsPerTick with
        | none =>
          have hcall : ((none : Option (List (QueuedCommand C))).getD (c :: queue))[0]? = some c := rfl
          refine h.enter hget hcall (fun n hn => ?_) _ _
          rw [hbudget] at hn
          cases hn
        | some n =>
          refine (hput _ rfl).enter (get_put ..) ?_ (fun m hm => ?_) _ _
          · rw [getD_some, getElem?_take, if_pos (o.budget_pos n hbudget)]
            rfl
          · rw [hbudget] at hm
            cases hm
            exact ⟨_, rfl, length_take_le n _⟩
      | nil =>
        simp only [hmissing, Bool.and_false, Bool.false_eq_true, if_false]
        have hrest := (hput ⟨state, ws, [], lastAckedId, lastCommand, false, []⟩ rfl).tail
        exact ih ⟨hrest.servers, hrest.drains, hrest.paced.rest key state _, hrest.fresh,
          hrest.nodup⟩

/-- A command of the client is applied: another follows, or the batch is committed. -/
theorem Regular.applied (hmissing : o.onMissing = false) (h : Regular o a)
    (hdrain : a.drain = some f) (hget : a.entities.get f.key = some e) {s : S}
    (hstep : a.applied o f e s = some a') : Regular o a' := by
  have hin := h.inCall f hdrain
  obtain ⟨owned, i, c, e', hcall, hlength, hget', hc, hbudget⟩ := hin.call
  cases hget.symm.trans hget'
  have hserver := h.servers f.key e hget
  rw [Authority.applied, hcall] at hstep
  simp only at hstep
  cases hnext : (owned.getD e.queue)[i + 1]? with
  | some c' =>
    simp only [hnext] at hstep
    cases hstep
    refine ⟨?_, by rw [log_enter]; exact h.drains, fun f' hf' => ?_⟩
    · rw [entities_enter]
      refine servers_put h.servers f.key ?_
      exact hserver
    rw [drain_enter] at hf'
    cases hf'
    refine ⟨⟨hin.paced.acks, hin.paced.nodup, hin.paced.bounded⟩, hin.fresh, hin.nodup,
      owned, i + 1, c', { e with lastAckedId := c.id, lastCommand := some c.cmd }, rfl, ?_, ?_,
      hnext, hbudget⟩
    · rw [length_append, hlength]
      rfl
    · rw [entities_enter]
      exact get_put ..
  | none =>
    simp only [hnext] at hstep
    cases hstep
    rw [serverPhase, hserver]
    refine regular_visit hmissing ⟨servers_put h.servers f.key rfl, h.drains, ⟨?_, ?_, ?_⟩,
      fun commit hcommit => ?_, hin.nodup.1⟩
    · have hacks := hin.paced.acks
      simp only [Tick.finish, Tick.collect, if_true, map_append, map_cons,
        map_nil, hacks, getLast?_concat]
    · rw [map_append, map_singleton, nodup_append]
      refine ⟨hin.paced.nodup, nodup_singleton _, fun k hk k' hk' => ?_⟩
      obtain ⟨commit, hcommit, rfl⟩ := mem_map.mp hk
      obtain rfl := mem_singleton.mp hk'
      exact (hin.fresh commit hcommit).1
    · intro commit hcommit n hn
      rcases mem_concat.mp hcommit with hcommit | rfl
      · exact hin.paced.bounded commit hcommit n hn
      · obtain ⟨own, rfl, hown⟩ := hbudget n hn
        have hlt := (List.getElem?_eq_some_iff.mp hc).1
        rw [getD_some] at hlt
        simp only [length_append, length_singleton, hlength]
        omega
    · rcases mem_concat.mp hcommit with hcommit | rfl
      · exact (hin.fresh commit hcommit).2
      · exact hin.nodup.2

omit [DecidableEq S] in
theorem Regular.between (h : Regular o a) (hnone : a.drain = none)
    (hdrain : a'.drain = a.drain)
    (hservers : ∀ k e, a'.entities.get k = some e → e.serverQueue = [])
    (hlog : ∀ r, .drained r ∈ a'.log → .drained r ∈ a.log) : Regular o a' := by
  refine ⟨hservers, fun r hr => h.drains r (hlog r hr), fun f hf => ?_⟩
  rw [hdrain, hnone] at hf
  cases hf

theorem Regular.step [DecidableEq W] {apply : K → S → QueuedCommand C → S}
    (hmissing : o.onMissing = false) (h : Regular o a) {ev : AuthorityEvent K W S C V}
    (hpure : Pure o apply key a ev) (hstep : a.step o ev = some a') : Regular o a' := by
  cases ev with
  | ensure k ws initialState active =>
    obtain ⟨hnone, ⟨⟩⟩ := ite_none_right_eq_some.mp hstep
    have hdrain := isNone_iff_eq_none.mp hnone
    rw [ensure]
    cases hget : a.entities.get k with
    | none => exact h.between hdrain rfl (servers_put h.servers k rfl) fun r hr => hr
    | some e =>
      simp only
      split_ifs with hsame
      · exact h
      · refine h.between hdrain rfl (servers_put h.servers k (h.servers k e hget)) fun r hr => ?_
        rcases mem_cons.mp hr with heq | hr
        · cases heq
        · exact hr
  | enqueue k commands =>
    cases hstep
    rw [enqueue]
    cases hget : a.entities.get k with
    | none => exact h
    | some e =>
      simp only
      split
      · exact h
      · exact h.between hpure.1 rfl (servers_put h.servers k (h.servers k e hget)) fun r hr => hr
  | remove k =>
    obtain ⟨hnone, ⟨⟩⟩ := ite_none_right_eq_some.mp hstep
    refine h.between (isNone_iff_eq_none.mp hnone) rfl (fun k' e hget => ?_) fun r hr => ?_
    · rw [remove, JsMap.get_delete] at hget
      split_ifs at hget
      exact h.servers k' e hget
    · rcases mem_cons.mp hr with heq | hr
      · cases heq
      · exact hr
  | drain =>
    obtain ⟨-, ⟨⟩⟩ := ite_none_right_eq_some.mp hstep
    have hempty : ∀ r, r ∉ ([] : List (Commit K W)) := fun _ => not_mem_nil
    exact regular_visit hmissing ⟨h.servers, h.drains,
      ⟨rfl, nodup_nil, fun r hr => absurd hr (hempty r)⟩, fun r hr => absurd hr (hempty r),
      a.entities.nodup_keys⟩
  | emitEvent type data key =>
    simp only [Authority.step, bind_eq_some_iff] at hstep
    obtain ⟨f, hdrain, e, -, hstep⟩ := hstep
    obtain ⟨owned, i, c, e', hcall, hrest⟩ := (h.inCall f hdrain).call
    rw [hcall] at hstep
    cases hstep
    exact ⟨h.servers, h.drains, fun f hf =>
      ⟨(h.inCall f hf).paced, (h.inCall f hf).fresh, (h.inCall f hf).nodup,
        (h.inCall f hf).call⟩⟩
  | applied s =>
    simp only [Authority.step, bind_eq_some_iff] at hstep
    obtain ⟨f, hdrain, e, hget, hstep⟩ := hstep
    exact h.applied hmissing hdrain hget hstep
  | inject k cmd => exact hpure.elim
  | set k state => exact hpure.elim
  | missed s => exact hpure.elim
  | threw => exact hpure.elim

theorem regular_of_reachesWhere [DecidableEq W] {apply : K → S → QueuedCommand C → S}
    (hmissing : o.onMissing = false) {es : List (AuthorityEvent K W S C V)}
    (h : (authorityMachine o).ReachesWhere (Pure o apply key) es a) : Regular o a :=
  h.invariant (I := Regular o) ⟨fun _ _ hget => by simp [authorityMachine] at hget,
    fun _ hr => absurd hr not_mem_nil, fun f hf => absurd hf.symm (some_ne_none f)⟩
    fun _ _ _ ha hpure hstep => ha.step hmissing hpure hstep

/-! ## The commands of an entity -/

/-- The commands of an entity that a drain has committed. -/
def idsOf (key : K) (commits : List (Commit K W)) : List ℕ :=
  (commits.filter fun commit => decide (commit.key = key)).flatMap Commit.ids

/-- The commands of an entity that were committed, in order. -/
def committedIds (key : K) : List (LogEntry K W S V) → List ℕ
  | [] => []
  | .drained r :: log => committedIds key log ++ idsOf key r.commits
  | .removed _ :: log => committedIds key log
  | .bound _ :: log => committedIds key log

/-- With those that the drain in progress has committed. -/
def Authority.ids (a : Authority K W S C V) (key : K) : List ℕ :=
  committedIds key a.log ++ a.drain.elim [] fun f => idsOf key f.commits

/-- The state of an entity is the fold over some of its commands, which are committed, and the
others wait. -/
def Waits (apply : K → S → QueuedCommand C → S) (key : K)
    (h : Option (S × List (QueuedCommand C))) (ids : List ℕ) : Option (Entity W S C) → Prop
  | none => h = none ∧ ids = []
  | some e => ∃ s₀ done, h = some (s₀, done ++ e.queue) ∧ e.state = applyAll apply key s₀ done ∧
      e.lastAckedId = lastId done ∧ ids = done.map QueuedCommand.id

/-- The drain is at a command of the entity, and has the fold over those before it. -/
def Works (apply : K → S → QueuedCommand C → S) (key : K)
    (h : Option (S × List (QueuedCommand C))) (ids : List ℕ) (f : TickFrame K W S C V)
    (e : Entity W S C) : Prop :=
  ∃ s₀ done owned i c, f.call = .command owned i c ∧
    h = some (s₀, done ++ (owned.getD e.queue ++ if owned.isNone then [] else e.queue)) ∧
    e.state = applyAll apply key s₀ done ∧
    f.s = applyAll apply key e.state ((owned.getD e.queue).take i) ∧
    f.applied = ((owned.getD e.queue).take i).map QueuedCommand.id ∧
    ids = done.map QueuedCommand.id

/-- The commands of an entity are accounted for. -/
structure Accounted (apply : K → S → QueuedCommand C → S) (key : K)
    (h : Option (S × List (QueuedCommand C))) (a : Authority K W S C V) : Prop where
  waits : (∀ f, a.drain = some f → f.key ≠ key) →
    Waits apply key h (a.ids key) (a.entities.get key)
  works : ∀ f e, a.drain = some f → f.key = key → a.entities.get key = some e →
    Works apply key h (a.ids key) f e

variable {apply : K → S → QueuedCommand C → S} {h : Option (S × List (QueuedCommand C))}

section

omit [DecidableEq S]

theorem get_put_of_ne (hne : k ≠ key) (e : Entity W S C) :
    (a.put k e).entities.get key = a.entities.get key := by
  rw [put, JsMap.get_set, if_neg hne]

theorem idsOf_append_of_ne {commits : List (Commit K W)} (hne : k ≠ key) (ws : W)
    (ids : List ℕ) : idsOf key (commits ++ [⟨k, ws, ids⟩]) = idsOf key commits := by
  simp [idsOf, hne]

theorem idsOf_append_self (commits : List (Commit K W)) (ws : W) (ids : List ℕ) :
    idsOf key (commits ++ [⟨key, ws, ids⟩]) = idsOf key commits ++ ids := by
  simp [idsOf]

theorem ids_enter (f : TickFrame K W S C V) (key : K) :
    (a.enter f).ids key = committedIds key a.log ++ idsOf key f.commits := by
  rw [ids, drain_enter, log_enter]
  rfl

theorem accounted_enter_other (hne : f.key ≠ key)
    (hwaits : Waits apply key h (committedIds key a.log ++ idsOf key f.commits)
      (a.entities.get key)) : Accounted apply key h (a.enter f) := by
  refine ⟨fun _ => ?_, fun f' e hf' hkey => ?_⟩
  · rw [ids_enter, entities_enter]
    exact hwaits
  · rw [drain_enter] at hf'
    cases hf'
    exact absurd hkey hne

theorem accounted_enter_self (hkey : f.key = key) (hget : a.entities.get key = some e)
    (hworks : Works apply key h (committedIds key a.log ++ idsOf key f.commits) f e) :
    Accounted apply key h (a.enter f) := by
  refine ⟨fun hnone => ?_, fun f' e' hf' _ hget' => ?_⟩
  · exact absurd hkey (hnone f (drain_enter f))
  · rw [drain_enter] at hf'
    cases hf'
    rw [entities_enter, hget] at hget'
    cases hget'
    rw [ids_enter]
    exact hworks

end

omit [DecidableEq K] [DecidableEq S] in
theorem Waits.works {ids : List ℕ} (hwaits : Waits apply key h ids (some e))
    (owned : Option (List (QueuedCommand C))) (e' : Entity W S C) (hstate : e'.state = e.state)
    (hqueue : e.queue = owned.getD e'.queue ++ if owned.isNone then [] else e'.queue)
    (c : QueuedCommand C) (l : TickLocals K W S V) (remaining : List K) :
    Works apply key h ids ⟨l, remaining, key, e.state, e.state, [], .command owned 0 c⟩ e' := by
  obtain ⟨s₀, done, rfl, hdone, -, hids⟩ := hwaits
  refine ⟨s₀, done, owned, 0, c, rfl, by rw [hqueue], hstate.trans hdone, ?_, ?_, hids⟩
  · rw [take_zero, hstate]
    rfl
  · rw [take_zero]
    rfl

theorem accounted_visit (hmissing : o.onMissing = false)
    (hservers : ∀ k e, a.entities.get k = some e → e.serverQueue = [])
    (hwaits : Waits apply key h (committedIds key a.log ++ idsOf key l.commits)
      (a.entities.get key)) : Accounted apply key h (a.visit o l remaining) := by
  induction remaining generalizing a l with
  | nil =>
    refine ⟨fun _ => ?_, nofun⟩
    rw [ids]
    simpa [visit, endDrain, committedIds] using hwaits
  | cons k remaining ih =>
    rw [visit]
    cases hget : a.entities.get k with
    | none => exact ih hservers hwaits
    | some e =>
      have hserver := hservers k e hget
      obtain ⟨state, ws, queue, lastAckedId, lastCommand, active, serverQueue⟩ := e
      obtain rfl : serverQueue = [] := hserver
      by_cases hkey : k = key
      · subst hkey
        rw [hget] at hwaits
        cases queue with
        | cons c queue =>
          cases hbudget : o.maxCommandsPerTick with
          | none =>
            refine accounted_enter_self rfl hget ?_
            exact hwaits.works none _ rfl (by simp) c l remaining
          | some n =>
            refine accounted_enter_self rfl (get_put ..) ?_
            exact hwaits.works (some ((c :: queue).take n))
              ⟨state, ws, (c :: queue).drop n, lastAckedId, lastCommand, active, []⟩ rfl
              (take_append_drop n _).symm c l remaining
        | nil =>
          simp only [hmissing, Bool.and_false, Bool.false_eq_true, if_false]
          refine ih (servers_put hservers k rfl) ?_
          rw [get_put]
          exact hwaits
      · cases queue with
        | cons c queue =>
          cases hbudget : o.maxCommandsPerTick with
          | none => exact accounted_enter_other hkey hwaits
          | some n =>
            refine accounted_enter_other hkey ?_
            rw [get_put_of_ne hkey]
            exact hwaits
        | nil =>
          simp only [hmissing, Bool.and_false, Bool.false_eq_true, if_false]
          refine ih (servers_put hservers k rfl) ?_
          rw [get_put_of_ne hkey]
          exact hwaits

section

omit [DecidableEq K] [DecidableEq S]

theorem applyAll_concat (apply : K → S → QueuedCommand C → S) (key : K) (s : S)
    (cmds : List (QueuedCommand C)) (c : QueuedCommand C) :
    applyAll apply key s (cmds ++ [c]) = apply key (applyAll apply key s cmds) c := by
  rw [applyAll, foldl_append]
  rfl

theorem take_succ_of_getElem? {cmds : List (QueuedCommand C)} {i : ℕ} {c : QueuedCommand C}
    (h : cmds[i]? = some c) : cmds.take (i + 1) = cmds.take i ++ [c] := by
  rw [take_add_one, h]
  rfl

theorem take_of_last {cmds : List (QueuedCommand C)} {i : ℕ} (h : cmds[i + 1]? = none) :
    cmds.take (i + 1) = cmds := take_of_length_le (getElem?_eq_none_iff.mp h)

end

/-- A command of the entity is applied: another follows, or they are committed. -/
theorem Accounted.applied_self (hmissing : o.onMissing = false) (hregular : Regular o a)
    (hacc : Accounted apply key h a) (hdrain : a.drain = some f) (hkey : f.key = key)
    (hget : a.entities.get f.key = some e)
    {s : S} (hpure : ∀ owned i c, f.call = .command owned i c → s = apply f.key f.s c)
    (hstep : a.applied o f e s = some a') : Accounted apply key h a' := by
  subst hkey
  obtain ⟨s₀, done, owned, i, c, hcall, rfl, hdone, hfold, happlied, hids⟩ :=
    hacc.works f e hdrain rfl hget
  obtain ⟨owned', i', c', e', hcall', -, hget', hc, -⟩ := (hregular.inCall f hdrain).call
  obtain ⟨rfl, rfl, rfl⟩ := HookCall.command.inj (hcall.symm.trans hcall')
  cases hget.symm.trans hget'
  have hs := hpure owned i c hcall
  have hserver := hregular.servers f.key e hget
  have hids' : committedIds f.key a.log ++ idsOf f.key f.commits = done.map QueuedCommand.id := by
    rw [← hids, ids, hdrain]
    rfl
  -- the fold and the ids up to this command
  have htake := take_succ_of_getElem? hc
  have hfold' : s = applyAll apply f.key e.state ((owned.getD e.queue).take (i + 1)) := by
    rw [hs, hfold, htake, applyAll_concat]
  have happlied' : f.applied ++ [c.id] =
      ((owned.getD e.queue).take (i + 1)).map QueuedCommand.id := by
    rw [happlied, htake, map_append]
    rfl
  rw [applied, hcall] at hstep
  simp only at hstep
  cases hnext : (owned.getD e.queue)[i + 1]? with
  | some next =>
    simp only [hnext] at hstep
    cases hstep
    refine accounted_enter_self rfl (get_put ..) ?_
    exact ⟨s₀, done, owned, i + 1, next, rfl, rfl, hdone, hfold', happlied', hids'⟩
  | none =>
    simp only [hnext] at hstep
    cases hstep
    rw [take_of_last hnext] at hfold' happlied' htake
    rw [serverPhase, hserver]
    refine accounted_visit hmissing (servers_put hregular.servers f.key rfl) ?_
    rw [get_put, idsOf_append_self]
    refine ⟨s₀, done ++ owned.getD e.queue, ?_, ?_, ?_, ?_⟩
    · rw [append_assoc]
    · rw [hfold', hdone, applyAll, applyAll, applyAll, foldl_append]
    · rw [lastId, htake, ← append_assoc, getLast?_concat]
      rfl
    · rw [happlied', map_append, ← hids', append_assoc]
      rfl

theorem Accounted.applied_other (hmissing : o.onMissing = false) (hregular : Regular o a)
    (hacc : Accounted apply key h a) (hdrain : a.drain = some f) (hne : f.key ≠ key)
    (hget : a.entities.get f.key = some e) {s : S} (hstep : a.applied o f e s = some a') :
    Accounted apply key h a' := by
  obtain ⟨owned, i, c, e', hcall, -, -, hc, -⟩ := (hregular.inCall f hdrain).call
  have hserver := hregular.servers f.key e hget
  have hwaits := hacc.waits fun f' hf' => by
    cases hdrain.symm.trans hf'
    exact hne
  rw [ids, hdrain] at hwaits
  rw [applied, hcall] at hstep
  simp only at hstep
  cases hnext : (owned.getD e.queue)[i + 1]? with
  | some next =>
    simp only [hnext] at hstep
    cases hstep
    refine accounted_enter_other hne ?_
    rw [get_put_of_ne hne]
    exact hwaits
  | none =>
    simp only [hnext] at hstep
    cases hstep
    rw [serverPhase, hserver]
    refine accounted_visit hmissing (servers_put hregular.servers f.key rfl) ?_
    rw [get_put_of_ne hne, idsOf_append_of_ne hne]
    exact hwaits

omit [DecidableEq S] in
theorem accounted_of_waits (hnone : a.drain = none)
    (hwaits : Waits apply key h (committedIds key a.log) (a.entities.get key)) :
    Accounted apply key h a := by
  refine ⟨fun _ => ?_, fun f e hf => ?_⟩
  · rw [ids, hnone, elim_none, append_nil]
    exact hwaits
  · rw [hnone] at hf
    cases hf

section

variable (hacc : Accounted apply key h a) (hnone : a.drain = none)
include hacc hnone

section

omit [DecidableEq S]

theorem Accounted.idle : Waits apply key h (committedIds key a.log) (a.entities.get key) := by
  have hwaits := hacc.waits fun f hf => by
    rw [hnone] at hf
    cases hf
  rwa [ids, hnone, elim_none, append_nil] at hwaits

theorem Accounted.ensure [DecidableEq W] {ws : W}
    (hbound : k = key → ∀ e, a.entities.get key = some e → e.ws = ws) (initialState : S)
    (active : Bool) :
    Accounted apply key (AuthorityEvent.record key h
      (.ensure k ws initialState active : AuthorityEvent K W S C V))
      (a.ensure k ws initialState active).2 := by
  have hwaits := hacc.idle hnone
  rw [Authority.ensure, AuthorityEvent.record]
  by_cases hkey : k = key
  · subst hkey
    rw [if_pos rfl]
    cases hget : a.entities.get k with
    | none =>
      rw [hget] at hwaits
      obtain ⟨rfl, hids⟩ := hwaits
      refine accounted_of_waits hnone ?_
      rw [get_put]
      exact ⟨initialState, [], rfl, rfl, rfl, hids⟩
    | some e =>
      have hws := hbound rfl e hget
      rw [hget] at hwaits
      obtain ⟨s₀, done, rfl, hrest⟩ := hwaits
      simp only [if_pos hws]
      refine accounted_of_waits hnone ?_
      rw [hget]
      exact ⟨s₀, done, rfl, hrest⟩
  · rw [if_neg hkey]
    cases hget : a.entities.get k with
    | none =>
      refine accounted_of_waits hnone ?_
      rw [get_put_of_ne hkey]
      exact hwaits
    | some e =>
      simp only
      split_ifs with hsame
      · exact hacc
      · refine accounted_of_waits hnone ?_
        change Waits apply key h _ ((a.put k _).entities.get key)
        rw [get_put_of_ne hkey]
        exact hwaits

theorem Accounted.enqueue {commands : List (Option (QueuedCommand C))}
    (hshort : k = key → commands.length ≤ o.queueCap)
    (hbacklog : k = key → ∀ e, a.entities.get key = some e →
      e.queue.length + (commands.filterMap id).length ≤ o.queueCap) :
    Accounted apply key (AuthorityEvent.record key h
      (.enqueue k commands : AuthorityEvent K W S C V)) (a.enqueue o k commands).2 := by
  have hwaits := hacc.idle hnone
  rw [Authority.enqueue, AuthorityEvent.record]
  by_cases hkey : k = key
  · subst hkey
    rw [if_pos rfl]
    cases hget : a.entities.get k with
    | none =>
      rw [hget] at hwaits
      obtain ⟨rfl, hids⟩ := hwaits
      exact hacc
    | some e =>
      have hroom := hbacklog rfl e hget
      rw [hget] at hwaits
      obtain ⟨s₀, done, rfl, hstate, hack, hids⟩ := hwaits
      -- the whole batch is looked at, and nothing overflows
      simp only [Nat.sub_eq_zero_of_le (hshort rfl), Nat.sub_eq_zero_of_le hroom, drop_zero]
      split_ifs with hempty
      · refine accounted_of_waits hnone ?_
        rw [hget, hempty]
        exact ⟨s₀, done, by simp, hstate, hack, hids⟩
      · refine accounted_of_waits hnone ?_
        rw [get_put]
        exact ⟨s₀, done, by simp, hstate, hack, hids⟩
  · rw [if_neg hkey]
    cases hget : a.entities.get k with
    | none => exact hacc
    | some e =>
      simp only
      split_ifs
      · exact hacc
      · refine accounted_of_waits hnone ?_
        rw [get_put_of_ne hkey]
        exact hwaits

end

end

theorem Accounted.step [DecidableEq W] (hmissing : o.onMissing = false) (hregular : Regular o a)
    (hacc : Accounted apply key h a) {ev : AuthorityEvent K W S C V}
    (hpure : Pure o apply key a ev) (hshort : Short o key ev) (hstep : a.step o ev = some a') :
    Accounted apply key (AuthorityEvent.record key h ev) a' := by
  cases ev with
  | ensure k ws initialState active =>
    obtain ⟨hnone, ⟨⟩⟩ := ite_none_right_eq_some.mp hstep
    exact hacc.ensure (isNone_iff_eq_none.mp hnone) hpure initialState active
  | enqueue k commands =>
    cases hstep
    exact hacc.enqueue hpure.1 hshort hpure.2
  | remove k =>
    obtain ⟨hnone, ⟨⟩⟩ := ite_none_right_eq_some.mp hstep
    have hdrain := isNone_iff_eq_none.mp hnone
    refine accounted_of_waits hdrain ?_
    rw [remove, JsMap.get_delete, if_neg hpure]
    exact hacc.idle hdrain
  | drain =>
    obtain ⟨hnone, ⟨⟩⟩ := ite_none_right_eq_some.mp hstep
    refine accounted_visit hmissing hregular.servers ?_
    rw [show idsOf key ([] : List (Commit K W)) = [] from rfl, append_nil]
    exact hacc.idle (isNone_iff_eq_none.mp hnone)
  | emitEvent type data eventKey =>
    simp only [Authority.step, bind_eq_some_iff] at hstep
    obtain ⟨f, hdrain, e, -, hstep⟩ := hstep
    obtain ⟨owned, i, c, e', hcall, -⟩ := (hregular.inCall f hdrain).call
    rw [hcall] at hstep
    cases hstep
    exact ⟨hacc.waits, hacc.works⟩
  | applied s =>
    simp only [Authority.step, bind_eq_some_iff] at hstep
    obtain ⟨f, hdrain, e, hget, hstep⟩ := hstep
    by_cases hkey : f.key = key
    · exact hacc.applied_self hmissing hregular hdrain hkey hget (hpure f hdrain) hstep
    · exact hacc.applied_other hmissing hregular hdrain hkey hget hstep
  | inject k cmd => exact hpure.elim
  | set k state => exact hpure.elim
  | missed s => exact hpure.elim
  | threw => exact hpure.elim

end

/-! ## Runs -/

variable [DecidableEq K] [DecidableEq W] [DecidableEq S] {apply : K → S → QueuedCommand C → S}

theorem accounted_of_reachesWhere (hmissing : o.onMissing = false)
    {es : List (AuthorityEvent K W S C V)}
    (hrun : (authorityMachine o).ReachesWhere
      (fun a ev => Pure o apply key a ev ∧ Short o key ev) es a) :
    Regular o a ∧ Accounted apply key (history key es) a := by
  refine ⟨regular_of_reachesWhere hmissing (hrun.mono fun _ _ hok => hok.1), ?_⟩
  have hboth : Regular o a ∧ Accounted apply key (history key es) a := by
    refine hrun.invariant_trace
      (I := fun es a => Regular o a ∧ Accounted apply key (history key es) a) ?_ ?_
    · have hstart : (authorityMachine (K := K) (W := W) (S := S) (C := C) (V := V) o).ReachesWhere
          (Pure o apply key) [] (authorityMachine o).init := .start
      refine ⟨regular_of_reachesWhere hmissing hstart, ?_⟩
      exact accounted_of_waits rfl ⟨rfl, rfl⟩
    · intro es a ev a' ⟨hregular, hacc⟩ hok hstep
      refine ⟨hregular.step hmissing hok.1 hstep, ?_⟩
      rw [history, foldl_append]
      exact hacc.step hmissing hregular hok.1 hok.2 hstep
  exact hboth.2

omit [DecidableEq W] [DecidableEq S] in
theorem Accounted.empty {h : Option (S × List (QueuedCommand C))} (hacc : Accounted apply key h a)
    (hnone : a.drain = none) (hget : a.entities.get key = some e) (hempty : e.queue = []) :
    ∃ s₀ cmds, h = some (s₀, cmds) ∧ e.state = applyAll apply key s₀ cmds ∧
      e.lastAckedId = lastId cmds ∧ committedIds key a.log = cmds.map QueuedCommand.id := by
  have hwaits := hacc.idle hnone
  rw [hget] at hwaits
  obtain ⟨s₀, done, hhistory, hrest⟩ := hwaits
  rw [hempty, append_nil] at hhistory
  exact ⟨s₀, done, hhistory, hrest⟩

/-- Where `apply` is pure, each drain applies a prefix within the budget and acknowledges its last
command. Two runs with the same calls for an entity, whatever their budgets and wherever their
drains, lead to the same state and acknowledgement once its queue is empty: those of the fold over
its commands, each of which was committed once and in order. -/
theorem pacing_spec (apply : K → S → QueuedCommand C → S) (key : K) :
    (∀ (o : AuthorityOptions) (es : List (AuthorityEvent K W S C V)) a, o.onMissing = false →
      (authorityMachine o).ReachesWhere (Pure o apply key) es a →
      ∀ r, .drained r ∈ a.log → r.Paced o) ∧
    ∀ (o₁ o₂ : AuthorityOptions) (es₁ es₂ : List (AuthorityEvent K W S C V)) a₁ a₂ e₁ e₂,
      o₁.onMissing = false → o₂.onMissing = false →
      (authorityMachine o₁).ReachesWhere (fun a ev => Pure o₁ apply key a ev ∧ Short o₁ key ev)
        es₁ a₁ →
      (authorityMachine o₂).ReachesWhere (fun a ev => Pure o₂ apply key a ev ∧ Short o₂ key ev)
        es₂ a₂ →
      es₁.filter (AuthorityEvent.isCall key) = es₂.filter (AuthorityEvent.isCall key) →
      a₁.drain = none → a₂.drain = none → a₁.entities.get key = some e₁ →
      a₂.entities.get key = some e₂ → e₁.queue = [] → e₂.queue = [] →
      ∃ s₀ cmds, history key es₁ = some (s₀, cmds) ∧
        (e₁.state = applyAll apply key s₀ cmds ∧ e₁.lastAckedId = lastId cmds ∧
          committedIds key a₁.log = cmds.map QueuedCommand.id) ∧
        e₂.state = applyAll apply key s₀ cmds ∧ e₂.lastAckedId = lastId cmds ∧
          committedIds key a₂.log = cmds.map QueuedCommand.id := by
  refine ⟨fun o es a hmissing hrun => (regular_of_reachesWhere hmissing hrun).drains, ?_⟩
  intro o₁ o₂ es₁ es₂ a₁ a₂ e₁ e₂ hm₁ hm₂ hrun₁ hrun₂ hcalls hidle₁ hidle₂ hget₁ hget₂ hempty₁
    hempty₂
  have hsame : history key es₁ = history key es₂ := by
    rw [← history_filter, hcalls, history_filter]
  obtain ⟨s₀, cmds, hhistory, hfirst⟩ :=
    (accounted_of_reachesWhere hm₁ hrun₁).2.empty hidle₁ hget₁ hempty₁
  obtain ⟨s₀', cmds', hhistory', hsecond⟩ :=
    (accounted_of_reachesWhere hm₂ hrun₂).2.empty hidle₂ hget₂ hempty₂
  obtain ⟨rfl, rfl⟩ := Prod.mk.inj (some.inj (hhistory.symm.trans (hsame.trans hhistory')))
  exact ⟨s₀, cmds, hhistory, hfirst, hsecond⟩

/-! ## Two placements of drains -/

/-- The command of the client that a hook is called for. -/
def HookCall.clientCommand : HookCall S C → Option (QueuedCommand C)
  | .command _ _ c => some c
  | .missing | .injected .. => none

omit [DecidableEq S] in
theorem HookCall.clientCommand_eq_some {call : HookCall S C} {P : QueuedCommand C → Prop} :
    (∀ c ∈ call.clientCommand, P c) ↔ ∀ owned i c, call = .command owned i c → P c := by
  cases call <;> simp [HookCall.clientCommand]

instance instDecidablePure (o : AuthorityOptions) (apply : K → S → QueuedCommand C → S) (key : K)
    (a : Authority K W S C V) :
    (ev : AuthorityEvent K W S C V) → Decidable (Pure o apply key a ev)
  | .ensure k ws _ _ => inferInstanceAs (Decidable (k = key → ∀ e ∈ a.entities.get key, e.ws = ws))
  | .enqueue k commands => decidable_of_iff (a.drain.isNone = true ∧
      (k = key → ∀ e ∈ a.entities.get key,
        e.queue.length + (commands.filterMap id).length ≤ o.queueCap))
      (and_congr_left' Option.isNone_iff_eq_none)
  | .remove k => inferInstanceAs (Decidable (k ≠ key))
  | .applied s => decidable_of_iff
      (∀ f ∈ a.drain, ∀ c ∈ f.call.clientCommand, s = apply f.key f.s c)
      (forall_congr' fun _ => forall_congr' fun _ => HookCall.clientCommand_eq_some)
  | .drain | .emitEvent .. => .isTrue trivial
  | .inject .. | .set .. | .missed _ | .threw => .isFalse id

instance instDecidableShort (o : AuthorityOptions) (key : K) :
    (ev : AuthorityEvent K W S C V) → Decidable (Short o key ev)
  | .enqueue k commands => inferInstanceAs (Decidable (k = key → commands.length ≤ o.queueCap))
  | .ensure .. | .inject .. | .set .. | .remove _ | .drain | .emitEvent .. | .applied _ |
    .missed _ | .threw => .isTrue trivial

theorem one_budget : ∀ n, (some 1 : Option ℕ) = some n → 0 < n := by
  rintro n ⟨⟩
  exact one_pos

theorem slowCap_pos : 0 < 3 := Nat.succ_pos 2

/-- One command a tick. -/
def slowOptions : AuthorityOptions := ⟨false, some 1, 3, one_budget, slowCap_pos⟩

/-- Whole queues at once, beside another entity. -/
def fastRun : List (AuthorityEvent ℕ ℕ ℕ ℕ ℕ) :=
  [.ensure 0 10 0 false, .ensure 1 11 0 false, .enqueue 0 [some ⟨1, 5⟩, none, some ⟨2, 6⟩],
    .enqueue 1 [some ⟨9, 1⟩], .drain, .applied 5, .emitEvent [] 3 none, .applied 11, .applied 1,
    .enqueue 0 [some ⟨3, 7⟩], .drain, .applied 18]

/-- The same commands, one a tick. -/
def slowRun : List (AuthorityEvent ℕ ℕ ℕ ℕ ℕ) :=
  [.ensure 0 10 0 false, .enqueue 0 [some ⟨1, 5⟩, none, some ⟨2, 6⟩], .drain, .applied 5,
    .enqueue 0 [some ⟨3, 7⟩], .drain, .applied 11, .drain, .applied 18]

/-- An entity of a state between drains, with an empty queue. -/
def atRest (a : Authority ℕ ℕ ℕ ℕ ℕ) (key : ℕ) : Bool :=
  a.drain.isNone && (a.entities.get key).any fun e => e.queue.isEmpty

theorem exists_of_atRest {a : Authority ℕ ℕ ℕ ℕ ℕ} {key : ℕ} (h : atRest a key = true) :
    a.drain = none ∧ ∃ e, a.entities.get key = some e ∧ e.queue = [] := by
  rw [atRest, Bool.and_eq_true, Option.isNone_iff_eq_none, Option.any_eq_true] at h
  obtain ⟨hnone, e, hget, hempty⟩ := h
  exact ⟨hnone, e, hget, isEmpty_iff.mp hempty⟩

/-- The commands add up. -/
def addCommand (_ : ℕ) (s : ℕ) (c : QueuedCommand ℕ) : ℕ := s + c.cmd

theorem pacing_spec_slowRun : ∃ a₁ a₂ : Authority ℕ ℕ ℕ ℕ ℕ, ∃ e₁ e₂,
    a₁.entities.get 0 = some e₁ ∧ a₂.entities.get 0 = some e₂ ∧ e₁.state = 18 ∧ e₂.state = 18 ∧
      e₁.lastAckedId = 3 ∧ e₂.lastAckedId = 3 := by
  obtain ⟨a₁, hrun₁, hrest₁⟩ : ∃ a, (authorityMachine plainOptions).ReachesWhere
      (fun a ev => Pure plainOptions addCommand 0 a ev ∧ Short plainOptions 0 ev) fastRun a ∧
      atRest a 0 = true := Machine.exists_of_execWhere (by decide +kernel)
  obtain ⟨a₂, hrun₂, hrest₂⟩ : ∃ a, (authorityMachine slowOptions).ReachesWhere
      (fun a ev => Pure slowOptions addCommand 0 a ev ∧ Short slowOptions 0 ev) slowRun a ∧
      atRest a 0 = true := Machine.exists_of_execWhere (by decide +kernel)
  obtain ⟨hnone₁, e₁, hget₁, hempty₁⟩ := exists_of_atRest hrest₁
  obtain ⟨hnone₂, e₂, hget₂, hempty₂⟩ := exists_of_atRest hrest₂
  obtain ⟨s₀, cmds, hhistory, ⟨hs₁, hack₁, -⟩, hs₂, hack₂, -⟩ :=
    (pacing_spec addCommand 0).2 plainOptions slowOptions fastRun slowRun a₁ a₂ e₁ e₂ rfl rfl
      hrun₁ hrun₂ rfl hnone₁ hnone₂ hget₁ hget₂ hempty₁ hempty₂
  cases hhistory
  exact ⟨a₁, a₂, e₁, e₂, hget₁, hget₂, hs₁, hs₂, hack₁, hack₂⟩

/-! ## A long batch -/

/-- One command, and as many entries that are none as the queue may hold. -/
def paddedRun : List (AuthorityEvent ℕ ℕ ℕ ℕ ℕ) :=
  [.ensure 0 10 0 false, .enqueue 0 [some ⟨1, 5⟩, none, none, none]]

/-- The command is cut off although nothing waits. -/
theorem not_paced_paddedRun :
    ¬∀ (o : AuthorityOptions) (apply : ℕ → ℕ → QueuedCommand ℕ → ℕ) (key : ℕ)
      (es : List (AuthorityEvent ℕ ℕ ℕ ℕ ℕ)) a e, o.onMissing = false →
      (authorityMachine o).ReachesWhere (Pure o apply key) es a → a.drain = none →
      a.entities.get key = some e → e.queue = [] →
      ∃ s₀ cmds, history key es = some (s₀, cmds) ∧ e.state = applyAll apply key s₀ cmds := by
  intro hall
  obtain ⟨a, hrun, hrest⟩ : ∃ a, (authorityMachine plainOptions).ReachesWhere
      (Pure plainOptions addCommand 0) paddedRun a ∧
      atRest a 0 = true ∧ (a.entities.get 0).map Entity.state = some 0 :=
    Machine.exists_of_execWhere (by decide +kernel)
  obtain ⟨hnone, e, hget, hempty⟩ := exists_of_atRest hrest.1
  obtain ⟨s₀, cmds, hhistory, hstate⟩ := hall plainOptions addCommand 0 paddedRun a e rfl hrun
    hnone hget hempty
  cases hhistory
  have hzero := hrest.2
  rw [hget, map_some, hstate] at hzero
  cases some.inj hzero

end AdapterWs.Smooth
