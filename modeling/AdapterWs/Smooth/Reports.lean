import AdapterWs.Smooth.Authority

/-!
# What the authority reports

A drain that returns has reported every change and every command it committed, and has tagged every
event with the connection of the entity whose command emitted it. A drain that throws leaves what it
has committed unreported, and its last events in the sink, so it has to throw before either.
-/

namespace AdapterWs.Smooth

open List Option Authority

variable {K W S C V : Type} {o : AuthorityOptions} {a a' : Authority K W S C V}
  {l : TickLocals K W S V} {f : TickFrame K W S C V} {e : Entity W S C} {key k : K}
  {remaining : List K}

/-! ## The log -/

/-- An entry has an update with the state of an entity after a drain. -/
def LogEntry.Updates (key : K) : LogEntry K W S V → Prop
  | .drained ⟨_, finish, _, some tick⟩ =>
    ∃ update ∈ tick.updates, update.key = key ∧ finish key = some update.state
  | _ => False

/-- An entry has an acknowledgement of the last command of a drain for an entity and its
connection. -/
def LogEntry.Acks (key : K) (ws : W) : LogEntry K W S V → Prop
  | .drained ⟨_, _, commits, some tick⟩ =>
    ∃ ack ∈ tick.acks, ack.key = key ∧ ack.ws = ws ∧
      ∃ commit ∈ commits, commit.key = key ∧ commit.ids.getLast? = some ack.id
  | _ => False

/-- An entry is a drain that returned. -/
def LogEntry.Returned : LogEntry K W S V → Prop
  | .drained ⟨_, _, _, some _⟩ => True
  | _ => False

/-- An entity is removed or bound to another connection. -/
def LogEntry.Leaves (key : K) : LogEntry K W S V → Prop
  | .drained _ => False
  | .removed key' => key' = key
  | .bound key' => key' = key

/-- The events of an entry. -/
def LogEntry.events : LogEntry K W S V → List (TickEvent W V)
  | .drained ⟨_, _, _, some tick⟩ => tick.events
  | _ => []

/-- What the authority promises: once a drain has returned, the changes and the commands of the
drains up to it are reported, and every event is returned once, as that of its emitter. -/
structure Reports (log : List (LogEntry K W S V)) : Prop where
  updates : ∀ later r earlier, log = later ++ .drained r :: earlier →
    (∃ entry ∈ later ++ [.drained r], entry.Returned) → ∀ key, r.start key ≠ r.finish key →
      ∃ entry ∈ later ++ [.drained r], entry.Updates key
  acks : ∀ later r earlier, log = later ++ .drained r :: earlier →
    (∃ entry ∈ later ++ [.drained r], entry.Returned) → ∀ commit ∈ r.commits,
      (∃ entry ∈ later ++ [.drained r], entry.Acks commit.key commit.ws) ∨
        ∃ entry ∈ later, entry.Leaves commit.key
  once : ((log.flatMap LogEntry.events).map fun event => event.emission.serial).Nodup
  tags : ∀ event ∈ log.flatMap LogEntry.events, event.ws = event.emission.owner

/-- A drain that threw has committed nothing, and one that returned has reported it. -/
structure DrainRecord.Settled (r : DrainRecord K W S V) : Prop where
  updates : ∀ key, r.start key ≠ r.finish key → LogEntry.Updates key (.drained r)
  acks : ∀ commit ∈ r.commits, LogEntry.Acks commit.key commit.ws (.drained r)
  tags : ∀ event ∈ LogEntry.events (.drained r), event.ws = event.emission.owner

theorem reports_of_settled {log : List (LogEntry K W S V)}
    (h : ∀ r, .drained r ∈ log → r.Settled)
    (honce : ((log.flatMap LogEntry.events).map fun event => event.emission.serial).Nodup) :
    Reports log := by
  have hmem : ∀ {later : List (LogEntry K W S V)} {r earlier},
      log = later ++ .drained r :: earlier → r.Settled := by
    intro later r earlier heq
    refine h r (heq ▸ mem_append_right later (.head _))
  have hlast : ∀ (later : List (LogEntry K W S V)) r, .drained r ∈ later ++ [.drained r] :=
    fun later r => mem_append_right later (.head _)
  refine ⟨fun later r earlier heq _ key hchanged => ?_, fun later r earlier heq _ commit hcommit => ?_,
    honce, fun event hevent => ?_⟩
  · exact ⟨_, hlast later r, (hmem heq).updates key hchanged⟩
  · exact .inl ⟨_, hlast later r, (hmem heq).acks commit hcommit⟩
  · obtain ⟨entry, hentry, hin⟩ := mem_flatMap.mp hevent
    cases entry with
    | drained r => exact (h r hentry).tags event hin
    | removed key => cases hin
    | bound key => cases hin

/-! ## The entities that are done -/

/-- What a drain has collected for the entities that are done, and that it has not touched those
that remain. -/
structure Tallied (states : K → Option S) (l : TickLocals K W S V) (remaining : List K)
    (current : Option K) : Prop where
  updates : ∀ key, key ∉ remaining → current ≠ some key → l.start key ≠ states key →
    ∃ update ∈ l.tick.updates, update.key = key ∧ states key = some update.state
  kept : ∀ key ∈ remaining, l.start key = states key
  acks : ∀ commit ∈ l.commits, current ≠ some commit.key → ∃ ack ∈ l.tick.acks,
    ack.key = commit.key ∧ ack.ws = commit.ws ∧ commit.ids.getLast? = some ack.id
  done : ∀ commit ∈ l.commits, commit.key ∉ remaining
  tags : ∀ event ∈ l.tick.events, event.ws = event.emission.owner
  nodup : remaining.Nodup
  fresh : ∀ key, current = some key → key ∉ remaining

/-- The commands a drain has committed for an entity, which it will acknowledge if `commanded`. -/
def Owes (l : TickLocals K W S V) (key : K) (e : Entity W S C) (commanded : Bool) : Prop :=
  ∀ commit ∈ l.commits, commit.key = key →
    commanded = true ∧ commit.ws = e.ws ∧ commit.ids.getLast? = some e.lastAckedId

section Tallied

variable {states states' : K → Option S}

section

variable (h : Tallied states l (key :: remaining) none)
include h

theorem Tallied.skip :
    Tallied states l remaining none where
  updates k hk hnone hchanged := by
    refine h.updates k (fun hmem => ?_) hnone hchanged
    rcases mem_cons.mp hmem with rfl | hmem
    · exact hchanged (h.kept k (.head _))
    · exact hk hmem
  kept k hk := h.kept k (mem_cons_of_mem key hk)
  acks := h.acks
  done commit hcommit hmem := h.done commit hcommit (mem_cons_of_mem key hmem)
  tags := h.tags
  nodup := (nodup_cons.mp h.nodup).2
  fresh k hk := absurd hk.symm (some_ne_none k)

theorem Tallied.enter :
    Tallied states l remaining (some key) where
  updates k hk _ hchanged := h.skip.updates k hk (fun hsome => some_ne_none k hsome.symm)
    hchanged
  kept := h.skip.kept
  acks commit hcommit _ :=
    h.acks commit hcommit (fun hsome => some_ne_none commit.key hsome.symm)
  done := h.skip.done
  tags := h.tags
  nodup := h.skip.nodup
  fresh _ hk := some.inj hk ▸ (nodup_cons.mp h.nodup).1

theorem Tallied.owes_of_cons (e : Entity W S C) (commanded : Bool) :
    Owes l key e commanded := fun commit hcommit hkey =>
  absurd (hkey ▸ (.head _)) (h.done commit hcommit)

end

section

variable (h : Tallied states l remaining (some key))
include h

theorem Tallied.congr (hstates : ∀ k, k ≠ key → states' k = states k) :
    Tallied states' l remaining (some key) where
  updates k hk hcurrent hchanged := by
    have hne : k ≠ key := fun heq => hcurrent (heq ▸ rfl)
    rw [hstates k hne] at hchanged ⊢
    exact h.updates k hk hcurrent hchanged
  kept k hk := by
    have hne : k ≠ key := fun heq => h.fresh key rfl (heq ▸ hk)
    rw [hstates k hne]
    exact h.kept k hk
  acks := h.acks
  done := h.done
  tags := h.tags
  nodup := h.nodup
  fresh := h.fresh

theorem Tallied.finish [DecidableEq S] {before : S} {commanded injected : Bool}
    (hstart : l.start key = some before) (hstate : states key = some e.state)
    (howes : Owes l key e commanded) :
    Tallied states { l with tick := l.tick.finish key before e commanded injected } remaining
      none where
  updates k hk _ hchanged := by
    by_cases heq : key = k
    · subst heq
      rw [hstart, hstate] at hchanged
      have hne : e.state ≠ before := fun hsame => hchanged (congrArg some hsame.symm)
      refine ⟨⟨key, e.state, e.ws, commanded && !injected⟩, ?_, rfl, hstate⟩
      simp [Tick.finish, hne]
    · obtain ⟨update, hupdate, hkey⟩ :=
        h.updates k hk (fun hsome => heq (some.inj hsome)) hchanged
      exact ⟨update, mem_append_left _ hupdate, hkey⟩
  kept := h.kept
  acks commit hcommit _ := by
    by_cases heq : key = commit.key
    · obtain ⟨rfl, hws, hlast⟩ := howes commit hcommit heq.symm
      refine ⟨⟨key, e.ws, e.lastAckedId, e.state⟩, ?_, heq, hws.symm, hlast⟩
      simp [Tick.finish]
    · obtain ⟨ack, hack, hcovers⟩ :=
        h.acks commit hcommit (fun hsome => heq (some.inj hsome))
      exact ⟨ack, mem_append_left _ hack, hcovers⟩
  done := h.done
  tags := h.tags
  nodup := h.nodup
  fresh k hk := absurd hk.symm (some_ne_none k)

/-- The events of the sink are those of the entity whose command emitted them. -/
theorem Tallied.collect {sink : List (Emission W V)} {ws : W}
    (hsink : ∀ emission ∈ sink, emission.owner = ws) (commanded : Bool) :
    Tallied states { l with tick := l.tick.collect sink ws commanded } remaining (some key) where
  updates := h.updates
  kept := h.kept
  acks := h.acks
  done := h.done
  tags event hevent := by
    rcases mem_append.mp hevent with hevent | hevent
    · exact h.tags event hevent
    · obtain ⟨emission, hemission, rfl⟩ := mem_map.mp hevent
      exact (hsink emission hemission).symm
  nodup := h.nodup
  fresh := h.fresh

theorem Tallied.commit (ws : W) (ids : List ℕ) :
    Tallied states { l with commits := l.commits ++ [⟨key, ws, ids⟩] } remaining (some key) where
  updates := h.updates
  kept := h.kept
  acks commit hcommit hcurrent := by
    rcases mem_concat.mp hcommit with hcommit | rfl
    · exact h.acks commit hcommit hcurrent
    · exact absurd rfl hcurrent
  done commit hcommit := by
    rcases mem_concat.mp hcommit with hcommit | rfl
    · exact h.done commit hcommit
    · exact h.fresh key rfl
  tags := h.tags
  nodup := h.nodup
  fresh := h.fresh

end

theorem Tallied.settled (h : Tallied states l [] none) :
    DrainRecord.Settled ⟨l.start, states, l.commits, some l.tick⟩ where
  updates k hchanged := h.updates k not_mem_nil
    (fun hsome => some_ne_none k hsome.symm) hchanged
  acks commit hcommit := by
    obtain ⟨ack, hack, hkey, hws, hlast⟩ :=
      h.acks commit hcommit (fun hsome => some_ne_none commit.key hsome.symm)
    exact ⟨ack, hack, hkey, hws, commit, hcommit, rfl, hlast⟩
  tags := h.tags

end Tallied

/-! ## The drain, call by call -/

/-- Whether the commands of the owner are committed when a hook is called. -/
def HookCall.commanded : HookCall S C → Bool
  | .injected commanded _ _ => commanded
  | .command .. | .missing => false

variable [DecidableEq K]

/-- A drain in a call of a hook. -/
structure InCall (a : Authority K W S C V) (f : TickFrame K W S C V) : Prop where
  tallied : Tallied a.stateOf f.toTickLocals f.remaining (some f.key)
  start : f.start f.key = some f.before
  owes : ∀ e, a.entities.get f.key = some e → Owes f.toTickLocals f.key e f.call.commanded
  sink : ∀ e, a.entities.get f.key = some e → ∀ emission ∈ a.eventSink, emission.owner = e.ws
  missing : f.call = .missing → a.eventSink = []

/-- The invariant: the drains that are over have reported, and the one in progress will. -/
structure Orderly (a : Authority K W S C V) : Prop where
  settled : ∀ r, .drained r ∈ a.log → r.Settled
  idle : a.drain = none → a.eventSink = []
  inCall : ∀ f, a.drain = some f → InCall a f

theorem stateOf_put (key k : K) (e : Entity W S C) :
    (a.put key e).stateOf k = if key = k then some e.state else a.stateOf k := by
  rw [stateOf, put, JsMap.get_set]
  split_ifs <;> rfl

@[simp] theorem get_put (key : K) (e : Entity W S C) :
    (a.put key e).entities.get key = some e := JsMap.get_set_self ..

section

omit [DecidableEq K]

section

variable (f)

@[simp] theorem entities_enter : (a.enter f).entities = a.entities := by
  rw [enter]
  cases f.call <;> rfl

@[simp] theorem eventSink_enter : (a.enter f).eventSink = a.eventSink := by
  rw [enter]
  cases f.call <;> rfl

@[simp] theorem drain_enter : (a.enter f).drain = some f := by
  rw [enter]
  cases f.call <;> rfl

@[simp] theorem log_enter : (a.enter f).log = a.log := by
  rw [enter]
  cases f.call <;> rfl

@[simp] theorem serial_enter : (a.enter f).serial = a.serial := by
  rw [enter]
  cases f.call <;> rfl

end

end

theorem orderly_enter (hlog : ∀ r, .drained r ∈ a.log → r.Settled) (hsink : a.eventSink = [])
    (hget : a.entities.get f.key = some e)
    (htallied : Tallied a.stateOf f.toTickLocals f.remaining (some f.key))
    (hstart : f.start f.key = some f.before) (howes : Owes f.toTickLocals f.key e f.call.commanded) :
    Orderly (a.enter f) := by
  refine ⟨fun r hr => hlog r (log_enter f ▸ hr), fun hnone => ?_, fun f' hf' => ?_⟩
  · rw [drain_enter] at hnone
    cases hnone
  · rw [drain_enter] at hf'
    cases hf'
    refine ⟨?_, hstart, fun e' he' => ?_, fun e' _ emission hemission => ?_, fun _ => ?_⟩
    · have hstates : (a.enter f).stateOf = a.stateOf := by
        funext k
        rw [stateOf, entities_enter, stateOf]
      rw [hstates]
      exact htallied
    · rw [entities_enter, hget] at he'
      cases he'
      exact howes
    · rw [eventSink_enter, hsink] at hemission
      cases hemission
    · rw [eventSink_enter, hsink]

variable [DecidableEq S]

theorem visit_orderly (o : AuthorityOptions) (hlog : ∀ r, .drained r ∈ a.log → r.Settled)
    (hsink : a.eventSink = []) (h : Tallied a.stateOf l remaining none) :
    Orderly (a.visit o l remaining) := by
  induction remaining generalizing a l with
  | nil =>
    refine ⟨fun r hr => ?_, fun _ => hsink, fun f hf => absurd hf.symm (some_ne_none f)⟩
    rcases mem_cons.mp hr with heq | hr
    · obtain rfl := LogEntry.drained.inj heq
      exact h.settled
    · exact hlog r hr
  | cons key remaining ih =>
    rw [visit]
    cases hget : a.entities.get key with
    | none => exact ih hlog hsink h.skip
    | some e =>
      have hstate : a.stateOf key = some e.state := by rw [stateOf, hget]; rfl
      have hstart : l.start key = some e.state :=
        (h.kept key (.head _)).trans hstate
      -- what is stored of the entity here is its state
      have hput : ∀ e' : Entity W S C, e'.state = e.state → (a.put key e').stateOf = a.stateOf := by
        intro e' he'
        funext k
        rw [stateOf_put]
        split_ifs with heq
        · rw [← heq, hstate, he']
        · rfl
      have hentered : ∀ e' : Entity W S C, e'.state = e.state →
          Tallied (a.put key e').stateOf l remaining (some key) := fun e' he' => by
        rw [hput e' he']
        exact h.enter
      obtain ⟨state, ws, queue, lastAckedId, lastCommand, active, serverQueue⟩ := e
      cases queue with
      | cons c queue =>
        cases hbudget : o.maxCommandsPerTick with
        | none => exact orderly_enter hlog hsink hget h.enter hstart (h.owes_of_cons _ false)
        | some n =>
          exact orderly_enter (a := a.put key _) hlog hsink (get_put ..) (hentered _ rfl)
            hstart (h.owes_of_cons _ false)
      | nil =>
        simp only
        by_cases hmissing : (active && o.onMissing) = true
        · rw [if_pos hmissing]
          exact orderly_enter hlog hsink hget h.enter hstart (h.owes_of_cons _ false)
        · rw [if_neg hmissing]
          cases serverQueue with
          | cons c queue =>
            exact orderly_enter (a := a.put key _) hlog hsink (get_put ..) (hentered _ rfl)
              hstart (h.owes_of_cons _ false)
          | nil =>
            refine ih (a := a.put key _) hlog hsink ?_
            refine (hentered ⟨state, ws, [], lastAckedId, lastCommand, false, []⟩
              rfl).finish hstart ?_ (h.owes_of_cons _ false)
            rw [stateOf_put, if_pos rfl]

theorem leave_orderly (hlog : ∀ r, .drained r ∈ a.log → r.Settled) (hsink : a.eventSink = [])
    (hget : a.entities.get f.key = some e)
    (htallied : Tallied a.stateOf f.toTickLocals f.remaining (some f.key))
    (hstart : f.start f.key = some f.before) {commanded : Bool}
    (howes : Owes f.toTickLocals f.key e commanded) (injected : Bool) :
    Orderly (a.leave o f e commanded injected) := by
  refine visit_orderly o hlog hsink (htallied.finish hstart ?_ howes)
  rw [stateOf, hget]
  rfl

theorem serverPhase_orderly (hlog : ∀ r, .drained r ∈ a.log → r.Settled)
    (hsink : a.eventSink = []) (hget : a.entities.get f.key = some e)
    (htallied : Tallied a.stateOf f.toTickLocals f.remaining (some f.key))
    (hstart : f.start f.key = some f.before) {commanded : Bool}
    (howes : Owes f.toTickLocals f.key e commanded) :
    Orderly (a.serverPhase o f e commanded) := by
  rw [serverPhase]
  cases e.serverQueue with
  | cons c queue => exact orderly_enter hlog hsink hget htallied hstart howes
  | nil => exact leave_orderly hlog hsink hget htallied hstart howes false

omit [DecidableEq S] in
theorem InCall.put (h : InCall a f) (e : Entity W S C) :
    Tallied (a.put f.key e).stateOf f.toTickLocals f.remaining (some f.key) := by
  refine h.tallied.congr fun k hne => ?_
  rw [stateOf_put, if_neg hne.symm]

theorem Orderly.applied (h : Orderly a) (hdrain : a.drain = some f)
    (hget : a.entities.get f.key = some e) {s : S} (hstep : a.applied o f e s = some a') :
    Orderly a' := by
  have hcall := h.inCall f hdrain
  have hsink := hcall.sink e hget
  have howes := hcall.owes e hget
  rw [Authority.applied] at hstep
  cases hhook : f.call with
  | missing =>
    rw [hhook] at hstep
    cases hstep.symm
  | command owned i c =>
    rw [hhook] at hstep howes
    -- no command of this entity is committed yet
    have hnone : ∀ e' : Entity W S C, ∀ commanded, Owes f.toTickLocals f.key e' commanded :=
      fun e' commanded commit hcommit hkey =>
        absurd (howes commit hcommit hkey).1 Bool.false_ne_true
    simp only at hstep
    cases hnext : (owned.getD e.queue)[i + 1]? with
    | some c' =>
      simp only [hnext] at hstep
      cases hstep
      refine orderly_enter ?_ rfl (get_put ..) ?_ hcall.start ?_
      · exact h.settled
      · exact (hcall.put _).collect hsink true
      · exact hnone _ false
    | none =>
      simp only [hnext] at hstep
      cases hstep
      refine serverPhase_orderly ?_ ?_ ?_ ?_ ?_ ?_
      · exact h.settled
      · rfl
      · exact get_put ..
      · exact ((hcall.put _).collect hsink true).commit e.ws (f.applied ++ [c.id])
      · exact hcall.start
      · intro commit hcommit hkey
        rcases mem_concat.mp hcommit with hcommit | rfl
        · exact absurd (howes commit hcommit hkey).1 Bool.false_ne_true
        · exact ⟨rfl, rfl, getLast?_concat⟩
  | injected commanded i c =>
    rw [hhook] at hstep howes
    simp only at hstep
    cases hnext : e.serverQueue[i + 1]? with
    | some c' =>
      simp only [hnext] at hstep
      cases hstep
      exact orderly_enter h.settled rfl hget (hcall.tallied.collect hsink false) hcall.start
        howes
    | none =>
      simp only [hnext] at hstep
      cases hstep
      refine leave_orderly ?_ ?_ ?_ ?_ ?_ ?_ true
      · exact h.settled
      · rfl
      · exact get_put ..
      · exact (hcall.put _).collect hsink false
      · exact hcall.start
      · exact howes

theorem Orderly.missed (h : Orderly a) (hdrain : a.drain = some f)
    (hget : a.entities.get f.key = some e) {s : Option S} (hstep : a.missed o f e s = some a') :
    Orderly a' := by
  have hcall := h.inCall f hdrain
  have howes := hcall.owes e hget
  cases hhook : f.call with
  | missing =>
    rw [hhook] at howes
    simp only [Authority.missed, hhook] at hstep
    cases hstep
    refine serverPhase_orderly ?_ ?_ (get_put ..) (hcall.put _) hcall.start
      fun commit hcommit hkey => ?_
    · exact h.settled
    · exact hcall.missing hhook
    · exact absurd (howes commit hcommit hkey).1 Bool.false_ne_true
  | command owned i c =>
    simp only [Authority.missed, hhook] at hstep
    cases hstep.symm
  | injected commanded i c =>
    simp only [Authority.missed, hhook] at hstep
    cases hstep.symm

section

omit [DecidableEq S]

/-- The queues of an entity have no part in what is reported. -/
theorem Orderly.queued (h : Orderly a) (hget : a.entities.get key = some e) {e' : Entity W S C}
    (hentities : a'.entities = a.entities.set key e') (hstate : e'.state = e.state)
    (hws : e'.ws = e.ws) (hacked : e'.lastAckedId = e.lastAckedId) (hsink : a'.eventSink = a.eventSink)
    (hdrain : a'.drain = a.drain) (hlog : a'.log = a.log) : Orderly a' := by
  have hstates : a'.stateOf = a.stateOf := by
    funext k
    rw [stateOf, hentities, JsMap.get_set, stateOf]
    split_ifs with heq
    · rw [← heq, hget, map_some, map_some, hstate]
    · rfl
  have hentity : ∀ k e₁, a'.entities.get k = some e₁ → ∃ e₀, a.entities.get k = some e₀ ∧
      e₁.ws = e₀.ws ∧ e₁.lastAckedId = e₀.lastAckedId := by
    intro k e₁ he₁
    rw [hentities, JsMap.get_set] at he₁
    split_ifs at he₁ with heq
    · cases he₁
      exact ⟨e, heq ▸ hget, hws, hacked⟩
    · exact ⟨e₁, he₁, rfl, rfl⟩
  refine ⟨fun r hr => h.settled r (hlog ▸ hr), fun hnone => ?_, fun f hf => ?_⟩
  · rw [hsink]
    exact h.idle (hdrain ▸ hnone)
  · have hcall := h.inCall f (hdrain ▸ hf)
    refine ⟨hstates ▸ hcall.tallied, hcall.start, fun e₁ he₁ => ?_, fun e₁ he₁ emission hin => ?_,
      fun hmissing => hsink ▸ hcall.missing hmissing⟩
    · obtain ⟨e₀, he₀, hws₀, hacked₀⟩ := hentity _ _ he₁
      rw [Owes, hws₀, hacked₀]
      exact hcall.owes e₀ he₀
    · obtain ⟨e₀, he₀, hws₀, -⟩ := hentity _ _ he₁
      rw [hws₀]
      exact hcall.sink e₀ he₀ emission (hsink ▸ hin)

theorem Orderly.between (h : Orderly a) (hnone : a.drain = none) (hdrain : a'.drain = a.drain)
    (hsink : a'.eventSink = a.eventSink) (hlog : ∀ r, .drained r ∈ a'.log → .drained r ∈ a.log) :
    Orderly a' := by
  refine ⟨fun r hr => h.settled r (hlog r hr), fun _ => hsink ▸ h.idle hnone, fun f hf => ?_⟩
  rw [hdrain, hnone] at hf
  cases hf.symm

theorem Orderly.emitEvent (h : Orderly a) (hdrain : a.drain = some f)
    (hget : a.entities.get f.key = some e) (hcall : f.call ≠ .missing) (type : JsString) (data : V)
    (key : Option JsString) : Orderly (a.emitEvent e.ws type data key).2 := by
  refine ⟨h.settled, fun hnone => absurd (hdrain.symm.trans hnone) (some_ne_none f),
    fun f' hf' => ?_⟩
  cases hdrain.symm.trans hf'
  have hin := h.inCall f hdrain
  refine ⟨hin.tallied, hin.start, hin.owes, fun e' he' emission hemission => ?_,
    fun hmissing => absurd hmissing hcall⟩
  cases hget.symm.trans he'
  rcases mem_concat.mp hemission with hemission | rfl
  · exact hin.sink e hget emission hemission
  · rfl

end

/-- A step that does not throw after its drain has changed a state, committed a command or emitted
an event. -/
def Clean (a : Authority K W S C V) : AuthorityEvent K W S C V → Prop
  | .threw => ∀ f, a.drain = some f →
      (∀ key ∈ a.entities.keys, f.start key = a.stateOf key) ∧ f.commits = [] ∧ a.eventSink = []
  | _ => True

omit [DecidableEq S] in
theorem Orderly.threw (h : Orderly a) (hdrain : a.drain = some f)
    (hget : a.entities.get f.key = some e) (hstart : ∀ key ∈ a.entities.keys,
      f.start key = a.stateOf key) (hcommits : f.commits = []) (hsink : a.eventSink = []) :
    Orderly (a.threw o f e) := by
  have hcall := h.inCall f hdrain
  -- an entity that is none has no update
  have hsame : ∀ k, f.start k = a.stateOf k := by
    intro k
    by_cases hk : k ∈ a.entities.keys
    · exact hstart k hk
    · have hnone : a.stateOf k = none := by
        rw [stateOf, JsMap.get_eq_none_iff.mpr hk]
        rfl
      by_contra hchanged
      by_cases hremains : k ∈ f.remaining
      · exact hchanged (hcall.tallied.kept k hremains)
      · have hother : some f.key ≠ some k := by
          rintro hsame
          cases hsame
          rw [JsMap.get_eq_none_iff.mpr hk] at hget
          cases hget.symm
        obtain ⟨update, -, -, hstate⟩ := hcall.tallied.updates k hremains hother hchanged
        rw [hnone] at hstate
        cases hstate.symm
  have hended : ∀ a' : Authority K W S C V, a'.stateOf = a.stateOf → a'.log = a.log →
      a'.eventSink = [] → Orderly (a'.endDrain f.toTickLocals none) := by
    intro a' hstates hlog hsink'
    refine ⟨fun r hr => ?_, fun _ => hsink', fun f' hf' =>
      absurd hf'.symm (some_ne_none f')⟩
    rcases mem_cons.mp hr with heq | hr
    · obtain rfl := LogEntry.drained.inj heq
      refine ⟨fun k hchanged => ?_, fun commit hcommit => ?_, fun event hevent =>
        absurd hevent not_mem_nil⟩
      · simp only [hstates] at hchanged
        exact absurd (hsame k) hchanged
      · simp only [hcommits] at hcommit
        cases hcommit
    · exact h.settled r (hlog ▸ hr)
  cases hhook : f.call with
  | missing =>
    simp only [Authority.threw, hhook]
    exact hended a rfl rfl hsink
  | injected commanded i c =>
    simp only [Authority.threw, hhook]
    exact hended a rfl rfl hsink
  | command owned i c =>
    cases owned with
    | none =>
      simp only [Authority.threw, hhook]
      exact hended a rfl rfl hsink
    | some owned =>
      simp only [Authority.threw, hhook]
      refine hended _ ?_ rfl hsink
      funext k
      rw [stateOf_put]
      split_ifs with heq
      · rw [← heq, stateOf, hget]
        rfl
      · rfl

theorem Orderly.drain (h : Orderly a) (hnone : a.drain = none) :
    Orderly (a.visit o ⟨⟨[], [], [], true⟩, [], a.stateOf⟩ a.entities.keys) := by
  refine visit_orderly o h.settled (h.idle hnone) ⟨fun key hkey _ hchanged => ?_, fun _ _ => rfl,
    forall_mem_nil _,
    forall_mem_nil _,
    forall_mem_nil _, a.entities.nodup_keys,
    fun key hkey => absurd hkey.symm (some_ne_none key)⟩
  exact absurd rfl hchanged

/-! ## The numbers of the events -/

section Numbers

omit [DecidableEq K] [DecidableEq S]

/-- The emissions of the sink, of some events, and of the drains that are over. -/
def emissionsOf (a : Authority K W S C V) (events : List (TickEvent W V)) : List (Emission W V) :=
  a.eventSink ++ (events ++ a.log.flatMap LogEntry.events).map TickEvent.emission

/-- The emissions that may be returned or were. -/
def Authority.emissions (a : Authority K W S C V) : List (Emission W V) :=
  emissionsOf a (a.drain.elim [] fun f => f.tick.events)

/-- No two emissions have the same number, and the next is a new one. -/
structure Numbered (a : Authority K W S C V) : Prop where
  nodup : (a.emissions.map Emission.serial).Nodup
  lt : ∀ emission ∈ a.emissions, emission.serial < a.serial

theorem Numbered.of_subperm (h : Numbered a) (hserial : a'.serial = a.serial)
    (hsub : a'.emissions.Subperm a.emissions) : Numbered a' := by
  refine ⟨?_, fun emission hemission => hserial ▸ h.lt emission (hsub.subset hemission)⟩
  obtain ⟨l, hperm, hsublist⟩ := hsub
  exact (hperm.map Emission.serial).nodup_iff.mp
    ((hsublist.map Emission.serial).nodup h.nodup)

theorem Numbered.congr (h : Numbered a) (hserial : a'.serial = a.serial)
    (hemissions : a'.emissions = a.emissions) : Numbered a' :=
  h.of_subperm hserial (hemissions ▸ List.Subperm.refl _)

theorem emissions_enter (f : TickFrame K W S C V) :
    (a.enter f).emissions = emissionsOf a f.tick.events := by
  rw [emissions, drain_enter, emissionsOf, eventSink_enter, log_enter]
  rfl

section

variable (o)

theorem emissions_visit [DecidableEq K] [DecidableEq S] (a : Authority K W S C V)
    (l : TickLocals K W S V) (remaining : List K) :
    (a.visit o l remaining).emissions = emissionsOf a l.tick.events ∧
      (a.visit o l remaining).serial = a.serial := by
  induction remaining generalizing a l with
  | nil => exact ⟨rfl, rfl⟩
  | cons key remaining ih =>
    rw [visit]
    cases a.entities.get key with
    | none => exact ih a l
    | some e =>
      simp only
      cases e.queue with
      | cons c queue =>
        cases o.maxCommandsPerTick with
        | none => exact ⟨emissions_enter _, serial_enter _⟩
        | some n => exact ⟨emissions_enter _, serial_enter _⟩
      | nil =>
        simp only
        split
        · exact ⟨emissions_enter _, serial_enter _⟩
        · cases e.serverQueue with
          | cons c queue => exact ⟨emissions_enter _, serial_enter _⟩
          | nil => exact ih (a.put key _) _

theorem emissions_leave [DecidableEq K] [DecidableEq S] (f : TickFrame K W S C V) (e : Entity W S C)
    (commanded injected : Bool) :
    (a.leave o f e commanded injected).emissions = emissionsOf a f.tick.events ∧
      (a.leave o f e commanded injected).serial = a.serial :=
  emissions_visit o a _ f.remaining

theorem emissions_serverPhase [DecidableEq K] [DecidableEq S] (f : TickFrame K W S C V)
    (e : Entity W S C) (commanded : Bool) :
    (a.serverPhase o f e commanded).emissions = emissionsOf a f.tick.events ∧
      (a.serverPhase o f e commanded).serial = a.serial := by
  rw [serverPhase]
  cases e.serverQueue with
  | cons c queue => exact ⟨emissions_enter _, serial_enter _⟩
  | nil => exact emissions_leave o f e commanded false

end

theorem perm_collect (tick : Tick K W S V) (ws : W) (commanded : Bool) :
    (emissionsOf { a with eventSink := [] } (tick.collect a.eventSink ws commanded).events).Perm
      (emissionsOf a tick.events) := by
  have hmap : (a.eventSink.map fun emission => TickEvent.mk emission ws commanded).map
      TickEvent.emission = a.eventSink := by
    rw [List.map_map]
    exact map_id _
  simp only [emissionsOf, Tick.collect, nil_append, map_append, hmap]
  rw [append_assoc]
  exact perm_append_comm_assoc ..

end Numbers

section

variable (h : Numbered a) (hdrain : a.drain = some f)
include h hdrain

theorem Numbered.applied {s : S} (hstep : a.applied o f e s = some a') : Numbered a' := by
  have hemissions : a.emissions = emissionsOf a f.tick.events := by
    rw [emissions, hdrain]
    rfl
  have hcollected : ∀ commanded, a'.emissions = emissionsOf { a with eventSink := [] }
      (f.tick.collect a.eventSink e.ws commanded).events → a'.serial = a.serial →
      Numbered a' := by
    intro commanded heq hserial
    refine h.of_subperm hserial ?_
    rw [heq, hemissions]
    exact (perm_collect f.tick e.ws commanded).subperm
  rw [Authority.applied] at hstep
  cases hhook : f.call with
  | missing =>
    rw [hhook] at hstep
    cases hstep.symm
  | command owned i c =>
    rw [hhook] at hstep
    simp only at hstep
    split at hstep
    · cases hstep
      exact hcollected true (emissions_enter _) (serial_enter _)
    · cases hstep
      exact hcollected true (emissions_serverPhase o _ _ true).1
        (emissions_serverPhase o _ _ true).2
  | injected commanded i c =>
    rw [hhook] at hstep
    simp only at hstep
    split at hstep
    · cases hstep
      exact hcollected false (emissions_enter _) (serial_enter _)
    · cases hstep
      exact hcollected false (emissions_leave o _ _ commanded true).1
        (emissions_leave o _ _ commanded true).2

theorem Numbered.missed {s : Option S} (hstep : a.missed o f e s = some a') : Numbered a' := by
  have hemissions : a.emissions = emissionsOf a f.tick.events := by
    rw [emissions, hdrain]
    rfl
  cases hhook : f.call with
  | missing =>
    simp only [Authority.missed, hhook] at hstep
    cases hstep
    obtain ⟨heq, hserial⟩ := emissions_serverPhase (a := a.put f.key _) o f _ false
    exact h.congr hserial (heq.trans hemissions.symm)
  | command owned i c =>
    simp only [Authority.missed, hhook] at hstep
    cases hstep.symm
  | injected commanded i c =>
    simp only [Authority.missed, hhook] at hstep
    cases hstep.symm

omit [DecidableEq S] in
/-- A drain that throws loses the events it has collected. -/
theorem Numbered.threw : Numbered (a.threw o f e) := by
  have hsub : (emissionsOf a ([] : List (TickEvent W V))).Subperm a.emissions := by
    rw [emissions, hdrain]
    refine (List.Sublist.append_left ?_ _).subperm
    exact (sublist_append_right _ _).map _
  have hended : (a.threw o f e).emissions = emissionsOf a [] ∧
      (a.threw o f e).serial = a.serial := by
    rw [Authority.threw]
    cases f.call with
    | command owned i c => cases owned <;> exact ⟨rfl, rfl⟩
    | missing => exact ⟨rfl, rfl⟩
    | injected commanded i c => exact ⟨rfl, rfl⟩
  exact h.of_subperm hended.2 (hended.1 ▸ hsub)

end

omit [DecidableEq K] [DecidableEq S] in
theorem Numbered.emitEvent (h : Numbered a) (ws : W) (type : JsString) (data : V)
    (key : Option JsString) : Numbered (a.emitEvent ws type data key).2 := by
  have hperm : ∃ emission : Emission W V, emission.serial = a.serial ∧
      ((a.emitEvent ws type data key).2).emissions.Perm (emission :: a.emissions) := by
    refine ⟨⟨type, (a.emitEvent ws type data key).1, data, a.currentId, a.serial, ws⟩, rfl, ?_⟩
    rw [emissions, emissions, emissionsOf, emissionsOf]
    simp only [Authority.emitEvent, append_assoc, cons_append, nil_append]
    exact perm_middle
  obtain ⟨emission, hserial, hperm⟩ := hperm
  refine ⟨?_, fun emission' hemission => ?_⟩
  · rw [(hperm.map Emission.serial).nodup_iff, map_cons, nodup_cons]
    refine ⟨fun hmem => ?_, h.nodup⟩
    obtain ⟨old, hold, heq⟩ := mem_map.mp hmem
    have hlt := h.lt old hold
    rw [heq, hserial] at hlt
    exact lt_irrefl _ hlt
  · rcases mem_cons.mp (hperm.subset hemission) with rfl | hold
    · exact hserial ▸ Nat.lt_succ_self _
    · exact Nat.lt_succ_of_lt (h.lt emission' hold)

/-! ## Runs -/

variable [DecidableEq W]

omit [DecidableEq S] in
theorem emissions_ensure (a : Authority K W S C V) (key : K) (ws : W) (initialState : S)
    (active : Bool) : (a.ensure key ws initialState active).2.emissions = a.emissions ∧
      (a.ensure key ws initialState active).2.serial = a.serial ∧
      (a.ensure key ws initialState active).2.drain = a.drain ∧
      (a.ensure key ws initialState active).2.eventSink = a.eventSink ∧
      ∀ r, .drained r ∈ (a.ensure key ws initialState active).2.log → .drained r ∈ a.log := by
  rw [ensure]
  cases a.entities.get key with
  | none => exact ⟨rfl, rfl, rfl, rfl, fun r hr => hr⟩
  | some e =>
    simp only
    split_ifs with hsame
    · exact ⟨rfl, rfl, rfl, rfl, fun r hr => hr⟩
    · refine ⟨rfl, rfl, rfl, rfl, fun r hr => ?_⟩
      rcases mem_cons.mp hr with heq | hr
      · cases heq
      · exact hr

/-- A step of a clean run keeps the invariant, and no emission is numbered twice. -/
theorem step_orderly {ev : AuthorityEvent K W S C V} (h : Orderly a) (hnumbered : Numbered a)
    (hclean : Clean a ev) (hstep : a.step o ev = some a') : Orderly a' ∧ Numbered a' := by
  cases ev with
  | ensure key ws initialState active =>
    obtain ⟨hnone, ⟨⟩⟩ := ite_none_right_eq_some.mp hstep
    obtain ⟨hemissions, hserial, hdrain, hsink, hlog⟩ :=
      emissions_ensure a key ws initialState active
    exact ⟨h.between (isNone_iff_eq_none.mp hnone) hdrain hsink hlog,
      hnumbered.congr hserial hemissions⟩
  | enqueue key commands =>
    cases hstep
    rw [enqueue]
    cases hget : a.entities.get key with
    | none => exact ⟨h, hnumbered⟩
    | some e =>
      simp only
      split
      · exact ⟨h, hnumbered⟩
      · exact ⟨h.queued hget rfl rfl rfl rfl rfl rfl rfl, hnumbered.congr rfl rfl⟩
  | inject key cmd =>
    cases hstep
    rw [inject]
    cases hget : a.entities.get key with
    | none => exact ⟨h, hnumbered⟩
    | some e => exact ⟨h.queued hget rfl rfl rfl rfl rfl rfl rfl, hnumbered.congr rfl rfl⟩
  | set key state =>
    obtain ⟨hnone, ⟨⟩⟩ := ite_none_right_eq_some.mp hstep
    rw [Authority.set]
    cases hget : a.entities.get key with
    | none => exact ⟨h, hnumbered⟩
    | some e =>
      exact ⟨h.between (isNone_iff_eq_none.mp hnone) rfl rfl fun r hr => hr,
        hnumbered.congr rfl rfl⟩
  | remove key =>
    obtain ⟨hnone, ⟨⟩⟩ := ite_none_right_eq_some.mp hstep
    refine ⟨h.between (isNone_iff_eq_none.mp hnone) rfl rfl fun r hr => ?_,
      hnumbered.congr rfl rfl⟩
    rcases mem_cons.mp hr with heq | hr
    · cases heq
    · exact hr
  | drain =>
    obtain ⟨hnone, ⟨⟩⟩ := ite_none_right_eq_some.mp hstep
    have hdrain := isNone_iff_eq_none.mp hnone
    obtain ⟨hemissions, hserial⟩ :=
      emissions_visit o a ⟨⟨[], [], [], true⟩, [], a.stateOf⟩ a.entities.keys
    refine ⟨h.drain hdrain, hnumbered.congr hserial (hemissions.trans ?_)⟩
    rw [emissions, hdrain]
    rfl
  | emitEvent type data key =>
    simp only [step, bind_eq_some_iff] at hstep
    obtain ⟨f, hdrain, e, hget, hstep⟩ := hstep
    cases hcall : f.call with
    | missing =>
      rw [hcall] at hstep
      cases hstep.symm
    | command owned i c =>
      rw [hcall] at hstep
      cases hstep
      refine ⟨h.emitEvent hdrain hget (fun hmissing => ?_) type data key,
        hnumbered.emitEvent e.ws type data key⟩
      rw [hcall] at hmissing
      cases hmissing
    | injected commanded i c =>
      rw [hcall] at hstep
      cases hstep
      refine ⟨h.emitEvent hdrain hget (fun hmissing => ?_) type data key,
        hnumbered.emitEvent e.ws type data key⟩
      rw [hcall] at hmissing
      cases hmissing
  | applied s =>
    simp only [step, bind_eq_some_iff] at hstep
    obtain ⟨f, hdrain, e, hget, hstep⟩ := hstep
    exact ⟨h.applied hdrain hget hstep, hnumbered.applied hdrain hstep⟩
  | missed s =>
    simp only [step, bind_eq_some_iff] at hstep
    obtain ⟨f, hdrain, e, hget, hstep⟩ := hstep
    exact ⟨h.missed hdrain hget hstep, hnumbered.missed hdrain hstep⟩
  | threw =>
    simp only [step, bind_eq_some_iff, map_eq_some_iff] at hstep
    obtain ⟨f, hdrain, e, hget, rfl⟩ := hstep
    obtain ⟨hstart, hcommits, hsink⟩ := hclean f hdrain
    exact ⟨h.threw hdrain hget hstart hcommits hsink, hnumbered.threw hdrain⟩

/-- In a run where no hook throws after its drain has committed or emitted, the authority reports
every change. -/
theorem reports_of_clean (o : AuthorityOptions) {es : List (AuthorityEvent K W S C V)}
    {a : Authority K W S C V} (h : (authorityMachine o).ReachesWhere Clean es a) :
    Reports a.log := by
  have hboth : Orderly a ∧ Numbered a := by
    refine h.invariant (I := fun a => Orderly a ∧ Numbered a) ?_ fun a ev a' ha hclean hstep =>
      step_orderly ha.1 ha.2 hclean hstep
    exact ⟨⟨fun r hr => absurd hr not_mem_nil, fun _ => rfl,
      fun f hf => absurd hf.symm (some_ne_none f)⟩, ⟨nodup_nil,
      forall_mem_nil _⟩⟩
  obtain ⟨horderly, hnumbered⟩ := hboth
  refine reports_of_settled horderly.settled ?_
  -- the events that were returned are some of the emissions
  have hreturned : ((a.log.flatMap LogEntry.events).map TickEvent.emission).Sublist
      a.emissions := by
    rw [emissions, emissionsOf, map_append]
    exact (sublist_append_right _ _).trans (sublist_append_right _ _)
  have hnodup := (hreturned.map Emission.serial).nodup hnumbered.nodup
  rw [List.map_map] at hnodup
  exact hnodup

omit [DecidableEq W] in
instance instDecidableClean (a : Authority K W S C V) :
    (ev : AuthorityEvent K W S C V) → Decidable (Clean a ev)
  | .threw => inferInstanceAs (Decidable (∀ f ∈ a.drain,
      (∀ key ∈ a.entities.keys, f.start key = a.stateOf key) ∧ f.commits = [] ∧
        a.eventSink = []))
  | .ensure .. | .enqueue .. | .inject .. | .set .. | .remove _ | .drain | .emitEvent .. |
    .applied _ | .missed _ => .isTrue trivial

theorem two_budget : ∀ n, (some 2 : Option ℕ) = some n → 0 < n := by
  rintro n ⟨⟩
  exact Nat.two_pos

theorem no_budget : ∀ n, (none : Option ℕ) = some n → 0 < n :=
  fun n hnone => absurd hnone.symm (some_ne_none n)

/-- Two commands a tick, and an `onMissing`. -/
def budgetOptions : AuthorityOptions := ⟨true, some 2, 4, two_budget, Nat.succ_pos 3⟩

/-- Three commands of one entity, a throw before the first, a command of the server for the other,
which injects one into the first, and the entities come to rest. -/
def shotRun : List (AuthorityEvent ℕ ℕ ℕ ℕ ℕ) :=
  [.ensure 0 10 0 false, .ensure 1 11 0 false,
    .enqueue 0 [some ⟨1, 5⟩, none, some ⟨2, 5⟩, some ⟨3, 5⟩], .inject 1 7, .drain, .threw, .drain,
    .emitEvent [] 3 none, .applied 5, .applied 10, .inject 0 9, .emitEvent [] 4 none, .applied 7,
    .drain, .applied 15, .applied 24, .drain, .missed (some 24), .remove 1]

/-- What the ticks of a log reported: the states of their updates, the ids of their
acknowledgements, and the owners of their events. -/
def ticksOf (log : List (LogEntry ℕ ℕ ℕ ℕ)) : List (List ℕ × List ℕ × List ℕ) :=
  log.filterMap fun
    | .drained ⟨_, _, _, some tick⟩ => some (tick.updates.map Update.state, tick.acks.map Ack.id,
        tick.events.map TickEvent.ws)
    | _ => none

theorem reports_of_clean_shotRun : ∃ a, (authorityMachine budgetOptions).ReachesWhere Clean
    shotRun a ∧ Reports a.log ∧
      ticksOf a.log = [([], [], []), ([24], [3], []), ([10, 7], [2], [10, 11])] :=
  Machine.exists_and_of_execWhere (by decide +kernel) fun _ ha _ => reports_of_clean _ ha

/-! ## A change that is lost -/

/-- No budget, and no `onMissing`. -/
def plainOptions : AuthorityOptions := ⟨false, none, 3, no_budget, Nat.succ_pos 2⟩

/-- The first entity's command is committed, the second's throws. The next tick has the second's
alone, and then nothing is left. -/
def lostRun : List (AuthorityEvent ℕ ℕ ℕ ℕ ℕ) :=
  [.ensure 0 10 0 false, .ensure 1 11 0 false, .enqueue 0 [some ⟨1, 5⟩], .enqueue 1 [some ⟨1, 6⟩],
    .drain, .applied 5, .emitEvent [] 3 none, .threw, .drain, .applied 6, .drain, .drain]

instance instDecidableReturned : (entry : LogEntry K W S V) → Decidable entry.Returned
  | .drained ⟨_, _, _, some _⟩ => .isTrue trivial
  | .drained ⟨_, _, _, none⟩ | .removed _ | .bound _ => .isFalse id

instance instDecidableUpdates (key : K) : (entry : LogEntry K W S V) → Decidable (entry.Updates key)
  | .drained ⟨_, finish, _, some tick⟩ => inferInstanceAs (Decidable
      (∃ update ∈ tick.updates, update.key = key ∧ finish key = some update.state))
  | .drained ⟨_, _, _, none⟩ | .removed _ | .bound _ => .isFalse id

/-- The first drain of a log changed an entity, one returned, and none has an update for it. -/
def losesFirst (key : K) (log : List (LogEntry K W S V)) : Bool :=
  match log.getLast? with
  | some (.drained r) => decide (r.start key ≠ r.finish key ∧ (∃ entry ∈ log, entry.Returned) ∧
      ∀ entry ∈ log, ¬entry.Updates key)
  | _ => false

omit [DecidableEq W] in
theorem not_reports_of_losesFirst {log : List (LogEntry K W S V)} (h : losesFirst key log = true) :
    ¬Reports log := by
  intro hreports
  rw [losesFirst] at h
  split at h
  · next r hlast =>
    obtain ⟨hchanged, hreturned, hnone⟩ := of_decide_eq_true h
    have hlog : log.dropLast ++ [.drained r] = log := dropLast_append_getLast? _ hlast
    obtain ⟨entry, hentry, hupdates⟩ :=
      hreports.updates log.dropLast r [] hlog.symm (hlog.symm ▸ hreturned) key hchanged
    exact hnone entry (hlog ▸ hentry) hupdates
  · cases h

/-- A throw loses what the drain has committed before it. -/
theorem not_reports_lostRun :
    ¬∀ (o : AuthorityOptions) (es : List (AuthorityEvent ℕ ℕ ℕ ℕ ℕ)) (a : Authority ℕ ℕ ℕ ℕ ℕ),
      (authorityMachine o).Reaches es a → Reports a.log := by
  intro hall
  obtain ⟨a, ha, hlost⟩ : ∃ a, (authorityMachine plainOptions).Reaches lostRun a ∧
      (losesFirst 0 a.log) = true :=
    Machine.exists_of_exec (by decide +kernel)
  exact not_reports_of_losesFirst hlost (hall _ _ _ ha)

end AdapterWs.Smooth
