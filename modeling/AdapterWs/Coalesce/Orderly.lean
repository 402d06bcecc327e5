import AdapterWs.Coalesce.LatestWins

/-!
# Flushes in order

Whatever the serializers, the sockets and the app do, also where a key gives way, a value has no
JSON form or a socket throws: the variables the flushes share are those of the flushes that wait,
and every queue is in the order of its keys.
-/

namespace AdapterWs.Coalesce

open JsString

variable {C K D : Type} [DecidableEq C] [DecidableEq K] {s s' : Coalescer C K D}
  {f f' : Flush C K D} {frames : List (Flush C K D)} {conn c : C} {key : K}

/-- The shared variables are those of the flushes that wait, and every queue is in order. -/
structure OrderlyAt (s : Coalescer C K D) (frames : List (Flush C K D)) : Prop where
  guarded : Guarded s frames
  ordered : ∀ conn, (s.pending conn).Ordered

/-- The flushes that wait are those of the stack. -/
def Orderly (s : Coalescer C K D) : Prop := OrderlyAt s s.stack

omit [DecidableEq C] [DecidableEq K] in
theorem OrderlyAt.replace (h : OrderlyAt s (f :: frames)) (hconn : f'.conn = f.conn)
    (hsingle : f'.isSingle = f.isSingle) (hlinked : ∀ previous cursor,
      f'.pass = .drain previous cursor → ∃ cursor', f.pass = .drain previous cursor') :
    OrderlyAt s (f' :: frames) :=
  ⟨h.guarded.replace hconn hsingle hlinked, h.ordered⟩

section

omit [DecidableEq K]

theorem ordered_store (h : ∀ conn, (s.pending conn).Ordered) {queue : CursorMap K (QueuedEntry D)}
    (hqueue : queue.Ordered) (c : C) : ((s.store conn queue).pending c).Ordered := by
  rw [pending_store]
  split
  · exact hqueue
  · exact h c

theorem OrderlyAt.store (h : OrderlyAt s frames) (conn : C) {queue : CursorMap K (QueuedEntry D)}
    (hqueue : queue.Ordered) : OrderlyAt (s.store conn queue) frames :=
  ⟨h.guarded.congr rfl rfl rfl rfl, ordered_store h.ordered hqueue⟩

theorem ordered_clear (queue : CursorMap K (QueuedEntry D)) :
    ({ queue with map := .empty } : CursorMap K (QueuedEntry D)).Ordered :=
  ⟨.nil, List.forall_mem_nil _⟩

end

section

variable (h : OrderlyAt s (f :: s.stack))
include h

section

omit [DecidableEq K]

theorem OrderlyAt.finish (yielded : Bool) : Orderly (s.finish f yielded) := by
  obtain ⟨hpending, -, -, -, hstack, -, -⟩ := finish_eq s f yielded
  refine ⟨?_, fun conn => ?_⟩
  · rw [hstack]
    exact h.guarded.finish
  · rw [hpending]
    exact h.ordered conn

theorem OrderlyAt.attempt : Orderly (s.attempt f) := by
  rw [Coalescer.attempt]
  split
  · exact h.finish true
  · have hnext : OrderlyAt s ({ f with remaining := f.remaining - 1 } :: s.stack) :=
      h.replace rfl rfl fun previous cursor heq => ⟨cursor, heq⟩
    exact ⟨hnext.guarded.congr rfl rfl rfl rfl, hnext.ordered⟩

theorem OrderlyAt.visit {cursor : ℕ} {pass : ℕ → Pass C K}
    (hsingle : ∀ cursor', Flush.isSingle { f with pass := pass cursor' } = f.isSingle)
    (hlinked : ∀ cursor' previous cursor'', pass cursor' = .drain previous cursor'' →
      ∃ cursor''', f.pass = .drain previous cursor''') : Orderly (s.visit f cursor pass) := by
  rw [Coalescer.visit]
  split
  · exact h.finish _
  · next key value cursor' _ =>
    exact OrderlyAt.attempt (h.replace rfl (hsingle cursor') (hlinked cursor'))

end

theorem OrderlyAt.advance : Orderly (s.advance f) := by
  rw [Coalescer.advance]
  cases hloop : f.pass with
  | drain previous cursor =>
    refine h.visit (fun _ => ?_) fun _ _ _ heq => ⟨cursor, ?_⟩
    · rw [Flush.isSingle, Flush.isSingle, hloop]
    · cases heq
      exact hloop
  | single firstKey rest =>
    have hsingle : ∀ cursor', Flush.isSingle { f with pass := .single firstKey (some cursor') } =
        f.isSingle := fun _ => by rw [Flush.isSingle, Flush.isSingle, hloop]
    cases rest with
    | some cursor => exact h.visit hsingle fun _ _ _ heq => by cases heq
    | none =>
      simp only
      split
      · exact h.finish _
      · exact h.visit hsingle fun _ _ _ heq => by cases heq

theorem OrderlyAt.afterWrite (result : SendStatus) : Orderly (s.afterWrite f result) := by
  have hdeleted : OrderlyAt (s.store f.conn ((s.pending f.conn).delete f.key)) (f :: s.stack) :=
    h.store f.conn ((h.ordered f.conn).delete f.key)
  rw [Coalescer.afterWrite]
  split
  · exact h.finish false
  · split
    · simp only
      split
      · exact OrderlyAt.finish hdeleted false
      · exact OrderlyAt.advance hdeleted
    · split
      · exact h.finish false
      · split
        · exact h.advance
        · split
          · exact OrderlyAt.advance (f := { f with yielded := true })
              (h.replace rfl rfl fun previous cursor heq => ⟨cursor, heq⟩)
          · exact OrderlyAt.attempt (h.replace rfl rfl fun previous cursor heq => ⟨cursor, heq⟩)

end

omit [DecidableEq C] [DecidableEq K] in
theorem OrderlyAt.log (h : OrderlyAt s frames) (log : List (LogEntry C K)) :
    OrderlyAt { s with log := log } frames := ⟨h.guarded.congr rfl rfl rfl rfl, h.ordered⟩

theorem OrderlyAt.serialized (h : OrderlyAt s (f :: s.stack)) (status : SendStatus) :
    Orderly (s.serialized f status) := by
  rw [Coalescer.serialized]
  split
  · exact h.afterWrite .sent
  · exact OrderlyAt.afterWrite
      (h.log (.send f.conn f.key f.value.serial status :: s.log)) status

theorem OrderlyAt.aborted (h : OrderlyAt s (f :: s.stack)) : Orderly (s.aborted f) := by
  rw [Coalescer.aborted]
  split
  · exact h.afterWrite .sent
  · exact OrderlyAt.store (h.finish false) f.conn (ordered_clear _)

section

variable (h : Orderly s)
include h

omit [DecidableEq K] in
theorem Orderly.flushCoalescedFor (conn : C) : Orderly (s.flushCoalescedFor conn) := by
  rw [Coalescer.flushCoalescedFor]
  split
  · exact h
  · split_ifs with hclosed hsingle hdraining
    · exact h
    · exact ⟨h.guarded.congr rfl rfl rfl rfl, h.ordered⟩
    · exact h
    · have hfresh : conn ∉ s.stack.map Flush.conn := fun hmem =>
        (h.guarded.mem_iff.mp hmem).elim hsingle hdraining
      exact OrderlyAt.attempt ⟨h.guarded.drain hfresh rfl rfl, h.ordered⟩

theorem Orderly.evict (conn : C) (key : K) : Orderly (s.evict conn key) := by
  rw [Coalescer.evict]
  simp only
  split
  · split
    · exact h
    · next oldest _ _ _ =>
      have hstored := OrderlyAt.store h conn ((h.ordered conn).delete oldest)
      split
      · exact ⟨hstored.guarded.congr rfl rfl rfl rfl, hstored.ordered⟩
      · exact hstored
  · exact h

theorem Orderly.enqueue (conn : C) (key : K) (entry : QueuedEntry D) :
    Orderly (s.enqueue conn key entry) := by
  have hstored := OrderlyAt.store h conn ((h.ordered conn).set key entry)
  exact ⟨hstored.guarded.congr rfl rfl rfl rfl, hstored.ordered⟩

theorem Orderly.sendCoalesced (conn : C) (key : K) (topic event : JsString) (data : D) :
    Orderly (s.sendCoalesced conn key topic event data) := by
  rw [Coalescer.sendCoalesced]
  split
  · exact h
  · have hqueued := (h.evict conn key).enqueue conn key ⟨s.sets, topic, event, data⟩
    simp only
    generalize (s.evict conn key).enqueue conn key ⟨s.sets, topic, event, data⟩ = s₁ at hqueued ⊢
    split_ifs with hstart
    · obtain ⟨-, hsingle, hdepth⟩ := hstart
      have hguarded := hqueued.guarded
      have hnil : s₁.stack = [] := hguarded.eq_nil hsingle hdepth
      rw [hnil] at hguarded
      refine OrderlyAt.attempt ⟨?_, hqueued.ordered⟩
      change Guarded _ (_ :: s₁.stack)
      rw [hnil]
      exact ⟨List.nodup_singleton _, rfl, hguarded.depth, hguarded.draining, hguarded.parents,
        fun _ _ heq => (by cases heq), trivial⟩
    · exact hqueued.flushCoalescedFor conn

omit [DecidableEq K] in
theorem Orderly.continuation (conn : C) : Orderly (s.continuation conn) := by
  have hdisarmed : Orderly { s with
      coalescedContinuations := s.coalescedContinuations.delete conn } :=
    ⟨h.guarded.congr rfl rfl rfl rfl, h.ordered⟩
  rw [Coalescer.continuation]
  simp only
  split
  · exact OrderlyAt.store hdisarmed conn (ordered_clear _)
  · exact hdisarmed.flushCoalescedFor conn

omit [DecidableEq C] [DecidableEq K] in
theorem Orderly.popped (hstack : s.stack = f :: frames) :
    OrderlyAt { s with stack := frames } (f :: frames) := by
  have hguarded := h.guarded
  rw [hstack] at hguarded
  exact ⟨hguarded.congr rfl rfl rfl rfl, h.ordered⟩

theorem Orderly.step (e : CoalesceEvent C K D) (hstep : s.step e = some s') : Orderly s' := by
  cases e with
  | sendCoalesced conn key topic event data =>
    cases hstep
    exact h.sendCoalesced conn key topic event data
  | drain conn =>
    obtain ⟨-, ⟨⟩⟩ := Option.ite_none_right_eq_some.mp hstep
    exact h.flushCoalescedFor conn
  | continuation conn =>
    obtain ⟨-, ⟨⟩⟩ := Option.ite_none_right_eq_some.mp hstep
    exact h.continuation conn
  | close conn =>
    cases hstep
    exact ⟨h.guarded.congr rfl rfl rfl rfl, h.ordered⟩
  | serialized status =>
    simp only [Coalescer.step] at hstep
    split at hstep
    · cases hstep
    · next f stack hstack =>
      cases hstep
      exact (h.popped hstack).serialized status
  | failed =>
    simp only [Coalescer.step] at hstep
    split at hstep
    · cases hstep
    · next f stack hstack =>
      cases hstep
      exact (h.popped hstack).afterWrite .sent
  | aborted =>
    simp only [Coalescer.step] at hstep
    split at hstep
    · cases hstep
    · next f stack hstack =>
      cases hstep
      exact (h.popped hstack).aborted

end

theorem orderly_of_reaches {es : List (CoalesceEvent C K D)}
    (h : (coalesceMachine : Machine (Coalescer C K D) _).Reaches es s) : Orderly s := by
  refine h.invariant (I := Orderly) ?_ fun s e s' hs _ hstep => hs.step e hstep
  exact ⟨⟨.nil, rfl, rfl, rfl, fun _ => Iff.rfl, trivial⟩, fun _ => CursorMap.ordered_empty⟩

end AdapterWs.Coalesce
