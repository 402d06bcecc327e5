import AdapterWs.Coalesce.FastPath

/-!
# What the callers see

A flush that `sendCoalesced` starts throws the failure of the value its caller set, once the loop
has ended; a value of another call that fails is reported. A call that starts no flush returns at
once. Over every behaviour of the serializers and the sockets, a call that takes the flush of a
single entry sends, keeps, arms and throws what it would with `flushCoalescedFor`.
-/

namespace AdapterWs.Coalesce

open JsString Coalescer

/-- What a call throws: the native error of a serializer, or a `TypeError`. -/
inductive Thrown (E : Type)
  | native (err : E)
  | typeError
deriving DecidableEq

/-- What a flush knows of its call: the entry the call set, and the failure of that entry. -/
structure Caller (E : Type) where
  callerEntry : Option ℕ
  callerError : Option (Thrown E)

/-- A failure that is reported, or the end of a call, with what it throws. -/
inductive Outcome (C K E : Type)
  | reported (conn : C) (key : K) (serial : ℕ) (err : Thrown E)
  | ended (callerError : Option (Thrown E))

/-- The queues, the calls of the flushes that wait, innermost first, and what was seen, newest
first. -/
structure Calls (C K D E : Type) where
  queues : Coalescer C K D
  callers : List (Caller E)
  outcomes : List (Outcome C K E)

/-- What happens. The serializer of the innermost flush may throw anything. -/
inductive CallEvent (C K D E : Type)
  | sendCoalesced (conn : C) (key : K) (topic event : JsString) (data : D)
  | drain (conn : C)
  | continuation (conn : C)
  | close (conn : C)
  | serialized (status : SendStatus)
  | failed (failure : Option E)
  | aborted

variable {C K D E : Type} [DecidableEq C] [DecidableEq K]

namespace Calls

/-- A call has flushed: it waits for a serializer, or it ends. -/
def began (s : Calls C K D E) (queues : Coalescer C K D) (callerEntry : Option ℕ) :
    Calls C K D E :=
  if s.queues.stack.length < queues.stack.length then
    ⟨queues, ⟨callerEntry, none⟩ :: s.callers, s.outcomes⟩
  else ⟨queues, s.callers, .ended none :: s.outcomes⟩

/-- The innermost flush has gone on: it waits again, or its call ends and throws. -/
def went (s : Calls C K D E) (queues : Coalescer C K D) (caller : Caller E)
    (callers : List (Caller E)) : Calls C K D E :=
  if queues.stack.length < s.queues.stack.length then
    ⟨queues, callers, .ended caller.callerError :: s.outcomes⟩
  else ⟨queues, caller :: callers, s.outcomes⟩

/-- `writeCoalesced`, where the value has no JSON form: a superseded value is passed over, that of
the caller is kept for the caller, and any other is reported. -/
def failed (s : Calls C K D E) (f : Flush C K D) (stack : List (Flush C K D)) (caller : Caller E)
    (callers : List (Caller E)) (err : Thrown E) : Calls C K D E :=
  let popped := { s.queues with stack := stack }
  if popped.superseded f then s.went (popped.failed f) caller callers
  else if caller.callerEntry = some f.value.serial then
    s.went (popped.failed f) { caller with callerError := some err } callers
  else
    { s with outcomes := .reported f.conn f.key f.value.serial err :: s.outcomes }.went
      (popped.failed f) caller callers

/-- One step. -/
def step (s : Calls C K D E) : CallEvent C K D E → Option (Calls C K D E)
  | .sendCoalesced conn key topic event data =>
    some (s.began (s.queues.sendCoalesced conn key topic event data) (some s.queues.sets))
  | .drain conn =>
    if s.queues.stack.isEmpty then some (s.began (s.queues.flushCoalescedFor conn) none) else none
  | .continuation conn =>
    if s.queues.stack.isEmpty ∧ conn ∈ s.queues.coalescedContinuations then
      some (s.began (s.queues.continuation conn) none)
    else none
  | .close conn =>
    let closed := Function.update s.queues.closed conn true
    some { s with queues := { s.queues with closed := closed } }
  | .serialized status =>
    match s.queues.stack, s.callers with
    | f :: stack, caller :: callers =>
      some (s.went ({ s.queues with stack := stack }.serialized f status) caller callers)
    | _, _ => none
  | .failed failure =>
    match s.queues.stack, s.callers with
    | f :: stack, caller :: callers =>
      some (s.failed f stack caller callers (failure.elim .typeError .native))
    | _, _ => none
  | .aborted =>
    match s.queues.stack, s.callers with
    | f :: stack, caller :: callers =>
      some (s.went ({ s.queues with stack := stack }.aborted f) caller callers)
    | _, _ => none

end Calls

/-- The calls of all connections. -/
def callMachine : Machine (Calls C K D E) (CallEvent C K D E) where
  init := ⟨coalesceMachine.init, [], []⟩
  step s e := s.step e

/-- Everything that serializers and sockets do until no flush waits. -/
def flushMachine (s : Calls C K D E) : Machine (Calls C K D E) (CallEvent C K D E) where
  init := s
  step s e := if s.queues.stack.isEmpty then none else s.step e

variable {s s' a b : Calls C K D E} {conn : C} {key : K}

section

variable (s)

omit [DecidableEq C] [DecidableEq K] in
theorem queues_began (queues : Coalescer C K D) (callerEntry : Option ℕ) :
    (s.began queues callerEntry).queues = queues := by
  rw [Calls.began]
  split <;> rfl

omit [DecidableEq C] [DecidableEq K] in
theorem queues_went (queues : Coalescer C K D) (caller : Caller E) (callers : List (Caller E)) :
    (s.went queues caller callers).queues = queues := by
  rw [Calls.went]
  split <;> rfl

theorem queues_failed (f : Flush C K D) (stack : List (Flush C K D)) (caller : Caller E)
    (callers : List (Caller E)) (err : Thrown E) :
    (s.failed f stack caller callers err).queues = { s.queues with stack := stack }.failed f := by
  rw [Calls.failed]
  simp only
  split
  · exact queues_went ..
  · split
    · exact queues_went ..
    · exact queues_went ..

end

/-- What an event is to the queues. -/
def CallEvent.queued : CallEvent C K D E → CoalesceEvent C K D
  | .sendCoalesced conn key topic event data => .sendCoalesced conn key topic event data
  | .drain conn => .drain conn
  | .continuation conn => .continuation conn
  | .close conn => .close conn
  | .serialized status => .serialized status
  | .failed _ => .failed
  | .aborted => .aborted

theorem step_queues {e : CallEvent C K D E} (hstep : s.step e = some s') :
    s.queues.step e.queued = some s'.queues := by
  cases e with
  | sendCoalesced conn key topic event data =>
    cases hstep
    rw [queues_began]
    rfl
  | drain conn =>
    simp only [Calls.step] at hstep
    split at hstep
    · next hnil =>
      cases hstep
      rw [queues_began]
      exact if_pos hnil
    · cases hstep
  | continuation conn =>
    simp only [Calls.step] at hstep
    split at hstep
    · next harmed =>
      cases hstep
      rw [queues_began]
      exact if_pos harmed
    · cases hstep
  | close conn =>
    cases hstep
    rfl
  | serialized status =>
    simp only [Calls.step] at hstep
    split at hstep
    · next f stack caller callers hstack _ =>
      cases hstep
      rw [queues_went]
      simp [CallEvent.queued, step, hstack]
    · cases hstep
  | failed failure =>
    simp only [Calls.step] at hstep
    split at hstep
    · next f stack caller callers hstack _ =>
      cases hstep
      rw [queues_failed]
      simp [CallEvent.queued, step, hstack]
    · cases hstep
  | aborted =>
    simp only [Calls.step] at hstep
    split at hstep
    · next f stack caller callers hstack _ =>
      cases hstep
      rw [queues_went]
      simp [CallEvent.queued, step, hstack]
    · cases hstep

theorem queues_of_reaches {es : List (CallEvent C K D E)}
    (h : (callMachine : Machine (Calls C K D E) _).Reaches es s) :
    (coalesceMachine : Machine (Coalescer C K D) _).Reaches (es.map CallEvent.queued) s.queues := by
  induction h with
  | start => exact .start
  | next _ _ hstep ih =>
    rw [List.map_append]
    exact ih.next trivial (step_queues hstep)

/-- What two flushes have in common: the queues and their order, the sends, the timers, the values
whose serializers run, and what the callers and the reports saw. -/
structure Alike (a b : Calls C K D E) : Prop where
  queues : Same a.queues b.queues
  values : a.queues.stack.map (fun f => (f.conn, f.key, f.value)) =
    b.queues.stack.map fun f => (f.conn, f.key, f.value)
  callers : a.callers = b.callers
  outcomes : a.outcomes = b.outcomes

/-- Two flushes side by side. -/
structure Beside (conn : C) (a b : Calls C K D E) : Prop where
  agree : Agree conn a.queues b.queues
  orderlyA : Orderly a.queues
  orderlyB : Orderly b.queues
  callers : a.callers = b.callers
  outcomes : a.outcomes = b.outcomes

section

omit [DecidableEq C]

theorem Beside.alike (h : Beside conn a b) : Alike a b :=
  ⟨h.agree.same, h.agree.values_eq, h.callers, h.outcomes⟩

theorem Beside.began (hlength : a.queues.stack.length = b.queues.stack.length)
    (hcallers : a.callers = b.callers) (houtcomes : a.outcomes = b.outcomes)
    {queuesA queuesB : Coalescer C K D} (hagree : Agree conn queuesA queuesB)
    (hA : Orderly queuesA) (hB : Orderly queuesB) (callerEntry : Option ℕ) :
    Beside conn (a.began queuesA callerEntry) (b.began queuesB callerEntry) := by
  rw [Calls.began, Calls.began, hlength, hagree.length_eq, hcallers, houtcomes]
  split
  · exact ⟨hagree, hA, hB, rfl, rfl⟩
  · exact ⟨hagree, hA, hB, rfl, rfl⟩

theorem Beside.went (hlength : a.queues.stack.length = b.queues.stack.length)
    (houtcomes : a.outcomes = b.outcomes)
    {queuesA queuesB : Coalescer C K D} (hagree : Agree conn queuesA queuesB)
    (hA : Orderly queuesA) (hB : Orderly queuesB) (caller : Caller E) (callers : List (Caller E)) :
    Beside conn (a.went queuesA caller callers) (b.went queuesB caller callers) := by
  rw [Calls.went, Calls.went, hlength, hagree.length_eq, houtcomes]
  split
  · exact ⟨hagree, hA, hB, rfl, rfl⟩
  · exact ⟨hagree, hA, hB, rfl, rfl⟩

end

theorem Beside.step (h : Beside conn a b) (hne : a.queues.stack ≠ []) (e : CallEvent C K D E) :
    Option.Rel (Beside conn) (a.step e) (b.step e) := by
  obtain ⟨f, g, stackA, stackB, hstackA, hstackB, hpopped⟩ := h.agree.pop h.orderlyA hne
  have hlength := h.agree.length_eq
  have hneB : b.queues.stack ≠ [] := by
    rw [hstackB]
    exact List.cons_ne_nil _ _
  have hatA := h.orderlyA.popped hstackA
  have hatB := h.orderlyB.popped hstackB
  cases e with
  | sendCoalesced c key topic event data =>
    simp only [Calls.step]
    rw [← h.agree.same.sets]
    exact .some (Beside.began hlength h.callers h.outcomes
      (h.agree.sendCoalesced h.orderlyA h.orderlyB hne c key topic event data)
      (h.orderlyA.sendCoalesced c key topic event data)
      (h.orderlyB.sendCoalesced c key topic event data) _)
  | drain c =>
    simp only [Calls.step, List.isEmpty_iff, if_neg hne, if_neg hneB]
    exact .none
  | continuation c =>
    simp only [Calls.step, List.isEmpty_iff, hne, hneB, false_and, if_false]
    exact .none
  | close c =>
    exact .some ⟨h.agree.close hne c,
      ⟨h.orderlyA.guarded.congr rfl rfl rfl rfl, h.orderlyA.ordered⟩,
      ⟨h.orderlyB.guarded.congr rfl rfl rfl rfl, h.orderlyB.ordered⟩, h.callers, h.outcomes⟩
  | serialized status =>
    simp only [Calls.step, hstackA, hstackB, ← h.callers]
    cases a.callers with
    | nil => exact .none
    | cons caller callers =>
      exact .some (Beside.went hlength h.outcomes (hpopped.serialized status)
        (hatA.serialized status) (hatB.serialized status) caller callers)
  | failed failure =>
    simp only [Calls.step, hstackA, hstackB, ← h.callers]
    cases a.callers with
    | nil => exact .none
    | cons caller callers =>
      refine .some ?_
      rw [Calls.failed, Calls.failed]
      simp only [hpopped.superseded, hpopped.conn_eq, hpopped.key_eq, hpopped.value_eq,
        ← h.outcomes]
      have hfailedA := hatA.afterWrite .sent
      have hfailedB := hatB.afterWrite .sent
      split_ifs
      · exact Beside.went hlength h.outcomes hpopped.failed hfailedA hfailedB caller callers
      · exact Beside.went hlength h.outcomes hpopped.failed hfailedA hfailedB _ callers
      · generalize hreported :
            (.reported f.conn f.key f.value.serial (failure.elim .typeError .native) ::
              a.outcomes : List (Outcome C K E)) = reported
        exact Beside.went (a := { a with outcomes := reported })
          (b := { b with outcomes := reported }) hlength rfl hpopped.failed hfailedA hfailedB
          caller callers
  | aborted =>
    simp only [Calls.step, hstackA, hstackB, ← h.callers]
    cases a.callers with
    | nil => exact .none
    | cons caller callers =>
      exact .some (Beside.went hlength h.outcomes hpopped.aborted hatA.aborted hatB.aborted
        caller callers)

theorem Beside.exec (h : Beside conn a b) (s s' : Calls C K D E) (es : List (CallEvent C K D E)) :
    Option.Rel Alike ((flushMachine s).exec a es) ((flushMachine s').exec b es) := by
  induction es generalizing a b with
  | nil => exact .some h.alike
  | cons e es ih =>
    rw [Machine.exec_cons, Machine.exec_cons]
    by_cases hnil : a.queues.stack = []
    · have hnil' : b.queues.stack = [] := by
        refine List.eq_nil_of_length_eq_zero ?_
        rw [← h.agree.length_eq, hnil]
        rfl
      have hendA : (flushMachine s).step a e = none := if_pos (List.isEmpty_iff.mpr hnil)
      have hendB : (flushMachine s').step b e = none := if_pos (List.isEmpty_iff.mpr hnil')
      rw [hendA, hendB]
      exact .none
    · have hnil' : b.queues.stack ≠ [] := by
        intro hnil'
        refine hnil (List.eq_nil_of_length_eq_zero ?_)
        rw [h.agree.length_eq, hnil']
        rfl
      have hgoA : (flushMachine s).step a e = a.step e := if_neg (mt List.isEmpty_iff.mp hnil)
      have hgoB : (flushMachine s').step b e = b.step e := if_neg (mt List.isEmpty_iff.mp hnil')
      have hstep := h.step hnil e
      rw [hgoA, hgoB]
      generalize a.step e = stepA at hstep ⊢
      generalize b.step e = stepB at hstep ⊢
      cases hstep with
      | none => exact .none
      | some hnext => exact ih hnext

/-- The flush of a single entry and the drain: whatever the serializers and the sockets do, both
send the same in the same order, leave the same queue, arm the same timers and throw the same. -/
theorem alike_of_single {es₀ : List (CallEvent C K D E)}
    (h : (callMachine : Machine (Calls C K D E) _).Reaches es₀ s)
    (hsingle : s.queues.singleFlushPending = none) (hdepth : s.queues.coalescedDrainDepth = 0)
    (conn : C) (key : K) (topic event : JsString) (data : D)
    (hsize : (((s.queues.evict conn key).enqueue conn key
      ⟨s.queues.sets, topic, event, data⟩).pending conn).size = 1)
    (es : List (CallEvent C K D E)) :
    let single := s.began (s.queues.sendCoalesced conn key topic event data) (some s.queues.sets)
    let drained := s.began (s.queues.sendDrained conn key topic event data) (some s.queues.sets)
    Option.Rel Alike ((flushMachine single).exec single es)
      ((flushMachine drained).exec drained es) := by
  have horderly := orderly_of_reaches (queues_of_reaches h)
  have hnil := horderly.guarded.eq_nil hsingle hdepth
  suffices hagree : Agree conn (s.queues.sendCoalesced conn key topic event data)
      (s.queues.sendDrained conn key topic event data) by
    have hbegan := Beside.began (a := s) (b := s) rfl rfl rfl hagree
      (horderly.sendCoalesced conn key topic event data)
      (horderly.sendDrained conn key topic event data) (some s.queues.sets)
    exact hbegan.exec _ _ es
  cases hclosed : s.queues.closed conn with
  | true =>
    rw [sendCoalesced, sendDrained, if_pos hclosed, if_pos hclosed]
    exact .inr ⟨⟨rfl, rfl, rfl, rfl, rfl⟩, hnil, hnil⟩
  | false =>
    have hqueued := (horderly.evict conn key).enqueue conn key
      ⟨s.queues.sets, topic, event, data⟩
    obtain ⟨hclosed', hsingle', hdepth'⟩ := evict_eq s.queues conn key
    have hget : (((s.queues.evict conn key).enqueue conn key
        ⟨s.queues.sets, topic, event, data⟩).pending conn).get key =
          some ⟨s.queues.sets, topic, event, data⟩ := by
      change (((s.queues.evict conn key).store conn _).pending conn).get key = _
      rw [pending_store, if_pos rfl, CursorMap.get_set_self]
    have hstart := hqueued.agree_start (hsingle'.trans hsingle) (hdepth'.trans hdepth)
      ((congrFun hclosed' conn).trans hclosed) hget hsize
    rw [sendCoalesced, sendDrained, hclosed]
    simp only [Bool.false_eq_true, if_false]
    rw [if_pos ⟨hsize, hsingle'.trans hsingle, hdepth'.trans hdepth⟩]
    exact hstart

/-- A value whose serializer sets another key and throws. -/
def rethrownRun : List (CallEvent ℕ ℕ ℕ ℕ) :=
  [.sendCoalesced 0 2 (lit "t") (lit "e") 11, .failed (some 7), .serialized .sent]

theorem alike_of_single_rethrownRun :
    let s : Calls ℕ ℕ ℕ ℕ := callMachine.init
    let single := s.began (s.queues.sendCoalesced 0 1 (lit "t") (lit "e") 10) (some 0)
    let drained := s.began (s.queues.sendDrained 0 1 (lit "t") (lit "e") 10) (some 0)
    Option.Rel Alike ((flushMachine single).exec single rethrownRun)
        ((flushMachine drained).exec drained rethrownRun) ∧
      ((flushMachine single).exec single rethrownRun).isSome = true :=
  ⟨alike_of_single .start rfl rfl 0 1 (lit "t") (lit "e") 10 (by decide) rethrownRun,
    by decide +kernel⟩

end AdapterWs.Coalesce
