import AdapterWs.Smooth.Reports

/-!
# What the authority has acknowledged

The drain notes the id of each command as it applies it and stores the state when it is through the
prefix. A throw in between leaves an id behind whose command is in no state.
-/

namespace AdapterWs.Smooth

open Option Authority

variable {K W S C V : Type} {o : AuthorityOptions} {a a' : Authority K W S C V}
  {l : TickLocals K W S V} {f : TickFrame K W S C V} {e : Entity W S C} {key : K}
  {remaining : List K}

section

variable [DecidableEq K] {e' : Entity W S C}

/-- The last command of an entity that a drain has committed. -/
def lastOfCommits (key : K) (commits : List (Commit K W)) : Option ℕ :=
  ((commits.filter fun commit => decide (commit.key = key)).getLast?).bind fun commit =>
    commit.ids.getLast?

/-- The last command of an entity that was committed since it has its connection. -/
def lastCommitted (key : K) : List (LogEntry K W S V) → Option ℕ
  | [] => none
  | .drained r :: log => (lastOfCommits key r.commits).or (lastCommitted key log)
  | .removed key' :: log => if key' = key then none else lastCommitted key log
  | .bound key' :: log => if key' = key then none else lastCommitted key log

/-- What `ensure` returns to the connection of an entity is its state and zero, or the id of the
last command whose effect the drain has stored. -/
def AckMatches [DecidableEq W] (a : Authority K W S C V) : Prop :=
  ∀ key e initialState active, a.entities.get key = some e →
    (a.ensure key e.ws initialState active).1.1 = e.state ∧
      ((a.ensure key e.ws initialState active).1.2 = 0 ∨
        lastCommitted key a.log = some (a.ensure key e.ws initialState active).1.2)

/-- A step that does not throw when the drain has applied a command of the entity and not stored the
state. -/
def ThrowsFirst (a : Authority K W S C V) : AuthorityEvent K W S C V → Prop
  | .threw => ∀ f, a.drain = some f → ∀ owned i c, f.call = .command owned i c → i = 0
  | _ => True

/-! ## The invariant -/

/-- The id that is noted for an entity. -/
def ackOf (a : Authority K W S C V) (key : K) : ℕ := (a.entities.get key).elim 0 Entity.lastAckedId

/-- The last command that was committed, by the drain in progress or before it. -/
def Authority.committed (a : Authority K W S C V) (key : K) : Option ℕ :=
  match a.drain with
  | none => lastCommitted key a.log
  | some f => (lastOfCommits key f.commits).or (lastCommitted key a.log)

/-- The drain is between two commands of an entity. -/
def Between (a : Authority K W S C V) (key : K) : Prop :=
  ∃ f owned i c, a.drain = some f ∧ f.key = key ∧ f.call = .command owned i c ∧ i ≠ 0

/-- Except between two commands, the id that is noted is that of the last one committed. -/
def Watermarks (a : Authority K W S C V) : Prop :=
  ∀ key, ¬Between a key → ackOf a key = (a.committed key).getD 0

/-- A drain has noted what it committed. -/
def Noted (a : Authority K W S C V) (l : TickLocals K W S V) : Prop :=
  ∀ key, ackOf a key = ((lastOfCommits key l.commits).or (lastCommitted key a.log)).getD 0

theorem ackOf_put (key k : K) (e : Entity W S C) :
    ackOf (a.put key e) k = if key = k then e.lastAckedId else ackOf a k := by
  rw [ackOf, put, JsMap.get_set]
  split_ifs <;> rfl

theorem ackOf_put_of_eq (hget : a.entities.get key = some e)
    (hacked : e'.lastAckedId = e.lastAckedId) : ackOf (a.put key e') = ackOf a := by
  funext k
  rw [ackOf_put]
  split_ifs with heq
  · rw [hacked, ← heq, ackOf, hget]
    rfl
  · rfl

theorem lastOfCommits_append (commits : List (Commit K W)) (key k : K) (ws : W) (ids : List ℕ)
    (id : ℕ) :
    lastOfCommits k (commits ++ [⟨key, ws, ids ++ [id]⟩]) =
      if key = k then some id else lastOfCommits k commits := by
  by_cases h : key = k <;> simp [lastOfCommits, h]

theorem watermarks_enter (h : Noted a f.toTickLocals) : Watermarks (a.enter f) := by
  intro key _
  rw [ackOf, entities_enter, committed, drain_enter, log_enter]
  exact h key

theorem Noted.put (h : Noted a l) (hget : a.entities.get key = some e)
    (hacked : e'.lastAckedId = e.lastAckedId) : Noted (a.put key e') l := by
  intro k
  rw [ackOf_put_of_eq hget hacked]
  exact h k

theorem watermarks_endDrain (h : Noted a l) (tick : Option (Tick K W S V)) :
    Watermarks (a.endDrain l tick) := fun key _ => h key

variable [DecidableEq S]

theorem watermarks_visit (o : AuthorityOptions) (h : Noted a l) :
    Watermarks (a.visit o l remaining) := by
  induction remaining generalizing a l with
  | nil => exact watermarks_endDrain h _
  | cons key remaining ih =>
    rw [visit]
    cases hget : a.entities.get key with
    | none => exact ih h
    | some e =>
      obtain ⟨state, ws, queue, lastAckedId, lastCommand, active, serverQueue⟩ := e
      cases queue with
      | cons c queue =>
        cases hbudget : o.maxCommandsPerTick with
        | none => exact watermarks_enter h
        | some n => exact watermarks_enter (h.put hget rfl)
      | nil =>
        simp only
        split
        · exact watermarks_enter h
        · cases serverQueue with
          | cons c queue => exact watermarks_enter (h.put hget rfl)
          | nil => exact ih (h.put hget rfl)

theorem watermarks_serverPhase (o : AuthorityOptions) (h : Noted a f.toTickLocals)
    (e : Entity W S C) (commanded : Bool) : Watermarks (a.serverPhase o f e commanded) := by
  rw [serverPhase]
  cases e.serverQueue with
  | cons c queue => exact watermarks_enter h
  | nil => exact watermarks_visit o h

section

variable (h : Watermarks a) (hdrain : a.drain = some f)
include h hdrain

omit [DecidableEq S] in
/-- A drain that is not between two commands has noted what it committed. -/
theorem Watermarks.noted (hfirst : ∀ owned i c, f.call = .command owned i c → i = 0) :
    Noted a f.toTickLocals := by
  intro key
  have hmark := h key (by
    rintro ⟨f', owned, i, c, hf', -, hcall, hi⟩
    cases hdrain.symm.trans hf'
    exact hi (hfirst owned i c hcall))
  rwa [committed, hdrain] at hmark

omit [DecidableEq S] in
theorem Watermarks.others (hne : f.key ≠ key) :
    ackOf a key = ((lastOfCommits key f.commits).or (lastCommitted key a.log)).getD 0 := by
  have hmark := h key (by
    rintro ⟨f', owned, i, c, hf', hkey, -⟩
    cases hdrain.symm.trans hf'
    exact hne hkey)
  rwa [committed, hdrain] at hmark

theorem Watermarks.applied (hget : a.entities.get f.key = some e) {s : S}
    (hstep : a.applied o f e s = some a') : Watermarks a' := by
  rw [Authority.applied] at hstep
  cases hhook : f.call with
  | missing =>
    rw [hhook] at hstep
    cases hstep
  | command owned i c =>
    rw [hhook] at hstep
    simp only at hstep
    cases hnext : (owned.getD e.queue)[i + 1]? with
    | some c' =>
      simp only [hnext] at hstep
      cases hstep
      intro key hbetween
      have hne : f.key ≠ key := fun heq =>
        hbetween ⟨_, owned, i + 1, c', drain_enter _, heq, rfl, Nat.succ_ne_zero i⟩
      rw [ackOf, entities_enter, committed, drain_enter, log_enter]
      change ackOf (put _ _ _) key = _
      rw [ackOf_put, if_neg hne]
      have hother := h.others hdrain hne
      exact hother
    | none =>
      simp only [hnext] at hstep
      cases hstep
      refine watermarks_serverPhase o (fun key => ?_) _ true
      rw [ackOf_put, lastOfCommits_append]
      by_cases heq : f.key = key
      · rw [if_pos heq, if_pos heq]
        rfl
      · rw [if_neg heq, if_neg heq]
        have hother := h.others hdrain heq
        exact hother
  | injected commanded i c =>
    have hnoted : Noted a f.toTickLocals := h.noted hdrain fun owned i' c' hcall => by
      rw [hhook] at hcall
      cases hcall
    rw [hhook] at hstep
    simp only at hstep
    cases hnext : e.serverQueue[i + 1]? with
    | some c' =>
      simp only [hnext] at hstep
      cases hstep
      exact watermarks_enter hnoted
    | none =>
      simp only [hnext] at hstep
      cases hstep
      exact watermarks_visit o (Noted.put (a := { a with eventSink := [] }) hnoted hget rfl)

theorem Watermarks.missed (hget : a.entities.get f.key = some e) {s : Option S}
    (hstep : a.missed o f e s = some a') : Watermarks a' := by
  cases hhook : f.call with
  | missing =>
    have hnoted : Noted a f.toTickLocals := h.noted hdrain fun owned i' c' hcall => by
      rw [hhook] at hcall
      cases hcall
    simp only [Authority.missed, hhook] at hstep
    cases hstep
    refine watermarks_serverPhase o (hnoted.put hget ?_) _ false
    cases s with
    | none => rfl
    | some s =>
      simp only
      split_ifs <;> rfl
  | command owned i c => simp [Authority.missed, hhook] at hstep
  | injected commanded i c => simp [Authority.missed, hhook] at hstep

omit [DecidableEq S] in
theorem Watermarks.threw (hget : a.entities.get f.key = some e)
    (hfirst : ∀ owned i c, f.call = .command owned i c → i = 0) : Watermarks (a.threw o f e) := by
  have hnoted := h.noted hdrain hfirst
  cases hhook : f.call with
  | missing =>
    simp only [Authority.threw, hhook]
    exact watermarks_endDrain hnoted none
  | injected commanded i c =>
    simp only [Authority.threw, hhook]
    exact watermarks_endDrain hnoted none
  | command owned i c =>
    cases owned with
    | none =>
      simp only [Authority.threw, hhook]
      exact watermarks_endDrain hnoted none
    | some owned =>
      simp only [Authority.threw, hhook]
      refine watermarks_endDrain (hnoted.put hget ?_) none
      rfl

end

section

omit [DecidableEq S]

theorem Watermarks.queued (h : Watermarks a) (hget : a.entities.get key = some e)
    (hentities : a'.entities = a.entities.set key e') (hacked : e'.lastAckedId = e.lastAckedId)
    (hdrain : a'.drain = a.drain) (hlog : a'.log = a.log) : Watermarks a' := by
  intro k hbetween
  have hack : ackOf a' k = ackOf a k := by
    rw [ackOf, hentities]
    exact congrFun (ackOf_put_of_eq hget hacked) k
  rw [hack, committed, hdrain, hlog]
  exact h k fun ⟨f, owned, i, c, hf, hrest⟩ => hbetween ⟨f, owned, i, c, hdrain ▸ hf, hrest⟩

/-- Between drains an entity is created, bound, replaced or removed. -/
theorem Watermarks.idle (h : Watermarks a) (hnone : a.drain = none) (key : K) :
    ackOf a key = (lastCommitted key a.log).getD 0 := by
  have hmark := h key (by
    rintro ⟨f, owned, i, c, hf, -⟩
    exact absurd (hnone.symm.trans hf) (some_ne_none f).symm)
  rwa [committed, hnone] at hmark

theorem watermarks_of_idle (hnone : a.drain = none)
    (h : ∀ key, ackOf a key = (lastCommitted key a.log).getD 0) : Watermarks a := by
  intro key _
  rw [committed, hnone]
  exact h key

theorem Watermarks.ensure [DecidableEq W] (h : Watermarks a) (hnone : a.drain = none) (key : K)
    (ws : W) (initialState : S) (active : Bool) :
    Watermarks (a.ensure key ws initialState active).2 := by
  rw [Authority.ensure]
  cases hget : a.entities.get key with
  | none =>
    refine watermarks_of_idle hnone fun k => ?_
    rw [ackOf_put]
    refine Eq.trans ?_ (h.idle hnone k)
    split_ifs with heq
    · rw [← heq, ackOf, hget]
      rfl
    · rfl
  | some e =>
    simp only
    split_ifs with hsame
    · exact h
    · refine watermarks_of_idle hnone fun k => ?_
      change ackOf (a.put key _) k = _
      rw [ackOf_put, lastCommitted]
      split_ifs with heq
      · rfl
      · exact h.idle hnone k

theorem Watermarks.remove (h : Watermarks a) (hnone : a.drain = none) (key : K) :
    Watermarks (a.remove key).2 := by
  refine watermarks_of_idle hnone fun k => ?_
  rw [Authority.remove, ackOf, JsMap.get_delete, lastCommitted]
  split_ifs with heq
  · rfl
  · exact h.idle hnone k

end

theorem Watermarks.step [DecidableEq W] {ev : AuthorityEvent K W S C V} (h : Watermarks a)
    (hok : ThrowsFirst a ev) (hstep : a.step o ev = some a') : Watermarks a' := by
  cases ev with
  | ensure key ws initialState active =>
    obtain ⟨hnone, ⟨⟩⟩ := ite_none_right_eq_some.mp hstep
    exact h.ensure (isNone_iff_eq_none.mp hnone) key ws initialState active
  | enqueue key commands =>
    cases hstep
    rw [enqueue]
    cases hget : a.entities.get key with
    | none => exact h
    | some e =>
      simp only
      split
      · exact h
      · exact h.queued hget rfl rfl rfl rfl
  | inject key cmd =>
    cases hstep
    rw [inject]
    cases hget : a.entities.get key with
    | none => exact h
    | some e => exact h.queued hget rfl rfl rfl rfl
  | set key state =>
    obtain ⟨-, ⟨⟩⟩ := ite_none_right_eq_some.mp hstep
    rw [Authority.set]
    cases hget : a.entities.get key with
    | none => exact h
    | some e => exact h.queued hget rfl rfl rfl rfl
  | remove key =>
    obtain ⟨hnone, ⟨⟩⟩ := ite_none_right_eq_some.mp hstep
    exact h.remove (isNone_iff_eq_none.mp hnone) key
  | drain =>
    obtain ⟨hnone, ⟨⟩⟩ := ite_none_right_eq_some.mp hstep
    exact watermarks_visit o (h.idle (isNone_iff_eq_none.mp hnone))
  | emitEvent type data key =>
    simp only [Authority.step, bind_eq_some_iff] at hstep
    obtain ⟨f, -, e, -, hstep⟩ := hstep
    cases hcall : f.call with
    | missing =>
      rw [hcall] at hstep
      cases hstep
    | command owned i c =>
      rw [hcall] at hstep
      cases hstep
      exact h
    | injected commanded i c =>
      rw [hcall] at hstep
      cases hstep
      exact h
  | applied s =>
    simp only [Authority.step, bind_eq_some_iff] at hstep
    obtain ⟨f, hdrain, e, hget, hstep⟩ := hstep
    exact h.applied hdrain hget hstep
  | missed s =>
    simp only [Authority.step, bind_eq_some_iff] at hstep
    obtain ⟨f, hdrain, e, hget, hstep⟩ := hstep
    exact h.missed hdrain hget hstep
  | threw =>
    simp only [Authority.step, bind_eq_some_iff, map_eq_some_iff] at hstep
    obtain ⟨f, hdrain, e, hget, rfl⟩ := hstep
    exact h.threw hdrain hget (hok f hdrain)

end

variable [DecidableEq K] [DecidableEq W] [DecidableEq S]

theorem watermarks_of_reachesWhere (o : AuthorityOptions) {es : List (AuthorityEvent K W S C V)}
    (h : (authorityMachine o).ReachesWhere ThrowsFirst es a) : Watermarks a := by
  refine h.invariant (I := Watermarks) ?_ fun _ _ _ ha hok hstep => ha.step hok hstep
  exact watermarks_of_idle rfl fun _ => rfl

omit [DecidableEq S] in
theorem Watermarks.ackMatches (h : Watermarks a) (hnone : a.drain = none) : AckMatches a := by
  intro key e initialState active hget
  have hensure : (a.ensure key e.ws initialState active).1 = (e.state, e.lastAckedId) := by
    simp [Authority.ensure, hget]
  have hidle := h.idle hnone key
  rw [ackOf, hget] at hidle
  rw [hensure]
  refine ⟨rfl, ?_⟩
  cases hlast : lastCommitted key a.log with
  | none =>
    rw [hlast] at hidle
    exact .inl hidle
  | some id =>
    rw [hlast] at hidle
    exact .inr (congrArg some hidle.symm)

/-- In a run where no hook throws between two commands of an entity, what `ensure` returns is the
id of the last command whose effect was stored. -/
theorem ackMatches_of_throwsFirst (o : AuthorityOptions)
    {es : List (AuthorityEvent K W S C V)} {a : Authority K W S C V}
    (h : (authorityMachine o).ReachesWhere ThrowsFirst es a) (hnone : a.drain = none) :
    AckMatches a :=
  (watermarks_of_reachesWhere o h).ackMatches hnone

omit [DecidableEq K] [DecidableEq W] [DecidableEq S] in
/-- The place of a command in its prefix. -/
def HookCall.place : HookCall S C → ℕ
  | .command _ i _ => i
  | .missing | .injected .. => 0

omit [DecidableEq S] in
theorem HookCall.place_eq_zero_iff {call : HookCall S C} :
    call.place = 0 ↔ ∀ owned i c, call = .command owned i c → i = 0 := by
  cases call <;> simp [HookCall.place]

instance instDecidableThrowsFirst (a : Authority K W S C V) :
    (ev : AuthorityEvent K W S C V) → Decidable (ThrowsFirst a ev)
  | .threw => decidable_of_iff (∀ f ∈ a.drain, f.call.place = 0)
      (forall_congr' fun _ => forall_congr' fun _ => HookCall.place_eq_zero_iff)
  | .ensure .. | .enqueue .. | .inject .. | .set .. | .remove _ | .drain | .emitEvent .. |
    .applied _ | .missed _ => .isTrue trivial

/-- The commands of two entities, a throw before the first of the second, another connection, and a
retry. -/
def retriedRun : List (AuthorityEvent ℕ ℕ ℕ ℕ ℕ) :=
  [.ensure 0 10 0 false, .ensure 1 11 0 false, .enqueue 0 [some ⟨1, 5⟩, some ⟨2, 5⟩],
    .enqueue 1 [some ⟨7, 6⟩], .drain, .applied 5, .applied 10, .threw, .ensure 1 12 0 false,
    .enqueue 1 [some ⟨3, 6⟩], .set 0 20, .drain, .missed (some 20), .applied 6]

theorem ackMatches_of_throwsFirst_retriedRun :
    ∃ a, (authorityMachine budgetOptions).ReachesWhere ThrowsFirst retriedRun a ∧ AckMatches a ∧
      lastCommitted 0 a.log = some 2 ∧ lastCommitted 1 a.log = some 3 := by
  obtain ⟨a, ha, hnone, hlast⟩ : ∃ a, (authorityMachine budgetOptions).ReachesWhere ThrowsFirst
      retriedRun a ∧ a.drain.isNone = true ∧ lastCommitted 0 a.log = some 2 ∧
      lastCommitted 1 a.log = some 3 :=
    Machine.exists_of_execWhere (by decide +kernel)
  exact ⟨a, ha, ackMatches_of_throwsFirst _ ha (isNone_iff_eq_none.mp hnone), hlast⟩

/-! ## An id without a state -/

/-- The first of two commands is applied, and the second throws. -/
def halfwayRun : List (AuthorityEvent ℕ ℕ ℕ ℕ ℕ) :=
  [.ensure 0 10 0 false, .enqueue 0 [some ⟨1, 5⟩, some ⟨2, 5⟩], .drain, .applied 5, .threw]

/-- The id of the first is left behind. -/
theorem not_ackMatches_halfwayRun :
    ¬∀ (o : AuthorityOptions) (es : List (AuthorityEvent ℕ ℕ ℕ ℕ ℕ)) (a : Authority ℕ ℕ ℕ ℕ ℕ),
      (authorityMachine o).Reaches es a → a.drain = none → AckMatches a := by
  intro hall
  obtain ⟨a, ha, hnone, hws, hacked, hlast⟩ : ∃ a, (authorityMachine budgetOptions).Reaches
      halfwayRun a ∧ a.drain.isNone = true ∧ (a.entities.get 0).map Entity.ws = some 10 ∧
      (a.ensure 0 10 0 false).1.2 = 1 ∧ lastCommitted 0 a.log = none :=
    Machine.exists_of_exec (by decide +kernel)
  obtain ⟨e, hget, hws⟩ := map_eq_some_iff.mp hws
  have hmatches := hall _ _ _ ha (isNone_iff_eq_none.mp hnone) 0 e 0 false hget
  rw [hws, hacked, hlast] at hmatches
  simp at hmatches

end AdapterWs.Smooth
