import AdapterWs.Coalesce.Orderly

/-!
# Two flushes side by side

`flushSingleCoalesced` is `drainCoalesced` without an iterator for the first entry, and with two
flags in place of the lookups. Here two states run side by side that differ in the outermost flush,
which is the one in the first and the other in the second. A serializer flushes other connections
inside of it, and may set values of its own.
-/

namespace AdapterWs.Coalesce

open JsString List Option CursorMap

variable {C K D : Type} [DecidableEq C] [DecidableEq K]
  {s s' a b : Coalescer C K D} {f f₀ : Flush C K D} {pass₀ : Pass C K}
  {nested : List (Flush C K D)} {conn c : C} {key : K} {c₀ : ℕ}

/-! ## Side by side -/

/-- A drain that interrupts none, inside a drain of a connection. -/
def Pass.graft (conn : C) : Pass C K → Pass C K
  | .drain none cursor => .drain (some conn) cursor
  | pass => pass

/-- A flush that interrupts no drain, inside a drain of a connection. -/
def Flush.graft (conn : C) (f : Flush C K D) : Flush C K D := { f with pass := f.pass.graft conn }

omit [DecidableEq C] [DecidableEq K] in
@[simp] theorem conn_graft (f : Flush C K D) (conn : C) : (f.graft conn).conn = f.conn := rfl

/-- What two states have in common: everything but the flushes that wait and what they share. -/
structure Same (a b : Coalescer C K D) : Prop where
  pending : a.pending = b.pending
  closed : a.closed = b.closed
  continuations : a.coalescedContinuations = b.coalescedContinuations
  sets : a.sets = b.sets
  log : a.log = b.log

/-- The iterator of the drain has passed the slot of the first key, and only that. It may still be
there if no key was evicted. -/
structure FirstSlot (s : Coalescer C K D) (conn : C) (firstKey : K) (cursor : ℕ) : Prop where
  before : ∀ key place value, (s.pending conn).find key = some (place, value) → place < cursor →
    key = firstKey ∧ s.singleFlushEvicted = false
  behind : s.singleFlushEvicted = false → ∀ place value,
    (s.pending conn).find firstKey = some (place, value) → place < cursor

/-- The iterators of the two loops. -/
inductive Iterators (s : Coalescer C K D) (conn : C) (key : K) : Pass C K → Pass C K → Prop
  | opened (firstKey : K) (cursor : ℕ) :
      Iterators s conn key (.single firstKey (some cursor)) (.drain none cursor)
  | closed (cursor : ℕ) (hslot : FirstSlot s conn key cursor) :
      Iterators s conn key (.single key none) (.drain none cursor)

/-- The outermost flush of `flushSingleCoalesced`, and the pass of that of `drainCoalesced`, which
is at the same value. -/
structure First (conn : C) (s : Coalescer C K D) (f : Flush C K D) (pass : Pass C K) : Prop where
  conn_eq : f.conn = conn
  iterators : Iterators s conn f.key f.pass pass
  slot : ∀ firstKey cursor, f.pass = .single firstKey none → pass = .drain none cursor →
    cursor ≤ (s.pending conn).added ∧
      (s.singleFlushEvicted = false → ((s.pending conn).find firstKey).isSome)
  untouched : s.singleFlushTouched = false → s.holds conn f.key f.value = true

/-- Two states that differ in the outermost flush. -/
structure Twins (conn : C) (a b : Coalescer C K D) (nested : List (Flush C K D))
    (f₀ : Flush C K D) (pass₀ : Pass C K) : Prop where
  same : Same a b
  single : a.singleFlushPending = some conn
  drained : b.singleFlushPending = none
  stackA : a.stack = nested ++ [f₀]
  stackB : b.stack = nested.map (Flush.graft conn) ++ [{ f₀ with pass := pass₀ }]
  inner : ∀ f ∈ nested, f.isSingle = false ∧ f.conn ≠ conn
  first : First conn a f₀ pass₀

section

omit [DecidableEq C]

theorem Same.holds (h : Same a b) (conn : C) (key : K) (value : QueuedEntry D) :
    a.holds conn key value = b.holds conn key value := by
  rw [Coalescer.holds, Coalescer.holds, h.pending]

theorem Iterators.pass_eq {passA passB : Pass C K} (h : Iterators s conn key passA passB) :
    (∃ firstKey rest, passA = .single firstKey rest) ∧ ∃ cursor, passB = .drain none cursor := by
  cases h with
  | opened firstKey cursor => exact ⟨⟨firstKey, some cursor, rfl⟩, cursor, rfl⟩
  | closed cursor hslot => exact ⟨⟨key, none, rfl⟩, cursor, rfl⟩

theorem Iterators.congr {passA passB : Pass C K} (h : Iterators s conn key passA passB)
    (hfind : ∀ k place value, (s'.pending conn).find k = some (place, value) →
      (s.pending conn).find k = some (place, value))
    (hevicted : s'.singleFlushEvicted = s.singleFlushEvicted) :
    Iterators s' conn key passA passB := by
  cases h with
  | opened firstKey cursor => exact .opened firstKey cursor
  | closed cursor hslot =>
    refine .closed cursor ⟨fun k place value hk => ?_, fun hno place value hk => ?_⟩
    · rw [hevicted]
      exact hslot.before k place value (hfind k place value hk)
    · exact hslot.behind (hevicted ▸ hno) place value (hfind key place value hk)

/-- Only the queue of the connection and the flags count. -/
theorem First.congr (h : First conn s f₀ pass₀)
    (hpending : s'.pending conn = s.pending conn)
    (hevicted : s'.singleFlushEvicted = s.singleFlushEvicted)
    (htouched : s'.singleFlushTouched = s.singleFlushTouched) : First conn s' f₀ pass₀ := by
  obtain ⟨hconn, hiterators, hslot, huntouched⟩ := h
  refine ⟨hconn, hiterators.congr (fun k place value hk => ?_) hevicted, ?_, fun hno => ?_⟩
  · rwa [hpending] at hk
  · rw [hpending, hevicted]
    exact hslot
  · rw [Coalescer.holds, hpending]
    exact huntouched (htouched ▸ hno)

theorem Twins.congr (h : Twins conn a b nested f₀ pass₀) {a' b' : Coalescer C K D}
    (hsame : Same a' b') (hsingle : a'.singleFlushPending = a.singleFlushPending)
    (hdrained : b'.singleFlushPending = b.singleFlushPending) (hstackA : a'.stack = a.stack)
    (hstackB : b'.stack = b.stack) (hpending : a'.pending conn = a.pending conn)
    (hevicted : a'.singleFlushEvicted = a.singleFlushEvicted)
    (htouched : a'.singleFlushTouched = a.singleFlushTouched) :
    Twins conn a' b' nested f₀ pass₀ :=
  ⟨hsame, hsingle.trans h.single, hdrained.trans h.drained, hstackA.trans h.stackA,
    hstackB.trans h.stackB, h.inner, h.first.congr hpending hevicted htouched⟩

end

/-- The innermost flush is one of `drainCoalesced` of another connection. -/
def Inner (conn : C) (f : Flush C K D) : Prop := f.isSingle = false ∧ f.conn ≠ conn

omit [DecidableEq C] [DecidableEq K] in
theorem Inner.pass (h : Inner conn f) : ∃ previous cursor, f.pass = .drain previous cursor := by
  obtain ⟨hsingle, -⟩ := h
  rw [Flush.isSingle] at hsingle
  cases hpass : f.pass with
  | drain previous cursor => exact ⟨previous, cursor, rfl⟩
  | single firstKey rest =>
    rw [hpass] at hsingle
    cases hsingle

theorem Twins.settle (h : Twins conn a b nested f₀ pass₀) (c : C) (yielded : Bool) :
    Twins conn (a.settle c yielded) (b.settle c yielded) nested f₀ pass₀ := by
  rw [Coalescer.settle, Coalescer.settle]
  split
  · refine h.congr ⟨h.same.pending, h.same.closed, ?_, h.same.sets, h.same.log⟩ rfl rfl rfl rfl
      rfl rfl rfl
    rw [h.same.continuations]
  · exact h

theorem Twins.finish (h : Twins conn a b nested f₀ pass₀) (hinner : Inner conn f) (yielded : Bool) :
    Twins conn (a.finish f yielded) (b.finish (f.graft conn) yielded) nested f₀ pass₀ := by
  obtain ⟨previous, cursor, hpass⟩ := hinner.pass
  have hgraft : ∃ previous', (f.graft conn).pass = .drain previous' cursor := by
    rw [Flush.graft, hpass]
    cases previous with
    | none => exact ⟨some conn, rfl⟩
    | some previous => exact ⟨some previous, rfl⟩
  obtain ⟨previous', hpass'⟩ := hgraft
  simp only [Coalescer.finish, hpass, hpass']
  refine Twins.settle ?_ f.conn yielded
  exact h.congr ⟨h.same.pending, h.same.closed, h.same.continuations, h.same.sets, h.same.log⟩
    rfl rfl rfl rfl rfl rfl rfl

/-- Two states whose innermost flushes go on. -/
def Paired (conn : C) (a b : Coalescer C K D) : Prop :=
  ∃ nested f₀ pass₀, Twins conn a b nested f₀ pass₀

section

variable (h : Twins conn a b nested f₀ pass₀)
include h

theorem Twins.attempt (hinner : Inner conn f) :
    Paired conn (a.attempt f) (b.attempt (f.graft conn)) := by
  rw [Coalescer.attempt, Coalescer.attempt]
  split
  · next hzero =>
    rw [if_pos (by exact hzero)]
    exact ⟨nested, f₀, pass₀, h.finish hinner true⟩
  · next hne =>
    rw [if_neg (by exact hne)]
    refine ⟨{ f with remaining := f.remaining - 1 } :: nested, f₀, pass₀, ?_⟩
    refine ⟨⟨h.same.pending, h.same.closed, h.same.continuations, h.same.sets, h.same.log⟩,
      h.single, h.drained, ?_, ?_, ?_, h.first.congr rfl rfl rfl⟩
    · rw [h.stackA]
      rfl
    · rw [h.stackB]
      rfl
    · intro g hg
      rcases mem_cons.mp hg with rfl | hg
      · exact hinner
      · exact h.inner g hg

theorem Twins.advance (hinner : Inner conn f) :
    Paired conn (a.advance f) (b.advance (f.graft conn)) := by
  obtain ⟨previous, cursor, hpass⟩ := hinner.pass
  have hvisit : ∀ previous', (f.graft conn).pass = .drain previous' cursor →
      (∀ cursor', (Pass.drain previous cursor' : Pass C K).graft conn = .drain previous' cursor') →
      Paired conn (a.visit f cursor (.drain previous))
        (b.visit (f.graft conn) cursor (.drain previous')) := by
    intro previous' hpass' hgraft
    rw [Coalescer.visit, Coalescer.visit, conn_graft, ← h.same.pending]
    cases (a.pending f.conn).next cursor with
    | none => exact ⟨nested, f₀, pass₀, h.finish hinner _⟩
    | some found =>
      obtain ⟨key, value, cursor'⟩ := found
      have hattempt := h.attempt (f := { f with
        key := key, value := value, retried := false, pass := .drain previous cursor' })
        ⟨rfl, hinner.2⟩
      rw [Flush.graft] at hattempt
      simp only [hgraft] at hattempt
      exact hattempt
  rw [Coalescer.advance, Coalescer.advance, hpass]
  cases previous with
  | none =>
    have hpass' : (f.graft conn).pass = .drain (some conn) cursor := by
      rw [Flush.graft, hpass]
      rfl
    rw [hpass']
    exact hvisit (some conn) hpass' fun _ => rfl
  | some previous =>
    have hpass' : (f.graft conn).pass = .drain (some previous) cursor := by
      rw [Flush.graft, hpass]
      rfl
    rw [hpass']
    exact hvisit (some previous) hpass' fun _ => rfl

theorem Twins.store (hne : c ≠ conn) (queue : CursorMap K (QueuedEntry D)) :
    Twins conn (a.store c queue) (b.store c queue) nested f₀ pass₀ := by
  refine h.congr ⟨?_, h.same.closed, h.same.continuations, h.same.sets, h.same.log⟩
    rfl rfl rfl rfl ?_ rfl rfl
  · rw [Coalescer.store, Coalescer.store, h.same.pending]
  · rw [pending_store, if_neg hne]

theorem Twins.afterWrite (hinner : Inner conn f) (result : SendStatus) :
    Paired conn (a.afterWrite f result) (b.afterWrite (f.graft conn) result) := by
  have hsingle : (f.graft conn).isSingle = false := by
    obtain ⟨previous, cursor, hpass⟩ := hinner.pass
    rw [Flush.isSingle, Flush.graft, hpass]
    cases previous <;> rfl
  have hqueue : b.pending f.conn = a.pending f.conn := by rw [h.same.pending]
  have hstored := h.store hinner.2 ((a.pending f.conn).delete f.key)
  have hkey : (f.graft conn).key = f.key := rfl
  have hvalue : (f.graft conn).value = f.value := rfl
  have hretry : (f.graft conn).retried = f.retried := rfl
  rw [Coalescer.afterWrite, Coalescer.afterWrite, hinner.1, hsingle]
  simp only [Bool.false_and, Bool.false_or]
  rw [conn_graft, hkey, hvalue, hretry, ← h.same.holds, hqueue]
  split_ifs with hdropped hholds henqueued henqueued hretried
  · exact ⟨nested, f₀, pass₀, h.finish hinner false⟩
  · exact ⟨nested, f₀, pass₀, hstored.finish hinner false⟩
  · exact hstored.advance hinner
  · exact ⟨nested, f₀, pass₀, h.finish hinner false⟩
  · cases (a.pending f.conn).get f.key with
    | none => exact h.advance hinner
    | some value => exact h.advance (f := { f with yielded := true }) hinner
  · cases (a.pending f.conn).get f.key with
    | none => exact h.advance hinner
    | some value => exact h.attempt (f := { f with retried := true, value := value }) hinner

theorem Twins.superseded (hinner : Inner conn f) :
    b.superseded (f.graft conn) = a.superseded f := by
  have hne : a.singleFlushPending ≠ some f.conn := by
    rw [h.single]
    exact fun heq => hinner.2 (some.inj heq).symm
  have hne' : b.singleFlushPending ≠ some f.conn := by
    rw [h.drained]
    exact some_ne_none _ ∘ Eq.symm
  change ((decide (b.singleFlushPending ≠ some f.conn) || b.singleFlushTouched) &&
    !(b.holds f.conn f.key f.value)) = _
  rw [Coalescer.superseded, decide_eq_true hne, decide_eq_true hne', h.same.holds]
  simp

theorem Twins.serialized (hinner : Inner conn f) (status : SendStatus) :
    Paired conn (a.serialized f status) (b.serialized (f.graft conn) status) := by
  rw [Coalescer.serialized, Coalescer.serialized, h.superseded hinner]
  split
  · exact h.afterWrite hinner .sent
  · have hlog : Twins conn
        { a with log := .send f.conn f.key f.value.serial status :: a.log }
        { b with log := .send f.conn f.key f.value.serial status :: b.log } nested f₀ pass₀ := by
      refine h.congr ⟨h.same.pending, h.same.closed, h.same.continuations, h.same.sets, ?_⟩
        rfl rfl rfl rfl rfl rfl rfl
      rw [h.same.log]
    exact hlog.afterWrite hinner status

theorem Twins.aborted (hinner : Inner conn f) :
    Paired conn (a.aborted f) (b.aborted (f.graft conn)) := by
  rw [Coalescer.aborted, Coalescer.aborted, h.superseded hinner]
  split
  · exact h.afterWrite hinner .sent
  · refine ⟨nested, f₀, pass₀, ?_⟩
    have hfinished := (h.finish hinner false).store hinner.2
      ({ a.pending f.conn with map := .empty } : CursorMap K (QueuedEntry D))
    change Twins conn _ ((b.finish (f.graft conn) false).store f.conn
      { b.pending f.conn with map := .empty }) nested f₀ pass₀
    rw [← h.same.pending]
    exact hfinished

end

/-! ## The calls of a serializer -/

section

omit [DecidableEq C] [DecidableEq K]

theorem drainsOf_append (frames frames' : List (Flush C K D)) :
    drainsOf (frames ++ frames') = drainsOf frames ++ drainsOf frames' :=
  filterMap_append ..

theorem drains_graft (conn : C) (f : Flush C K D) : (f.graft conn).drains = f.drains := by
  rw [Flush.drains, Flush.drains, Flush.graft, Flush.isSingle, Flush.isSingle]
  cases f.pass with
  | drain previous cursor => cases previous <;> rfl
  | single firstKey rest => rfl

theorem drainsOf_graft (conn : C) (frames : List (Flush C K D)) :
    drainsOf (frames.map (Flush.graft conn)) = drainsOf frames := by
  rw [drainsOf, drainsOf, filterMap_map]
  exact congrArg (filterMap · frames) (funext (drains_graft conn))

end

section

variable (h : Twins conn a b nested f₀ pass₀)
include h

section

omit [DecidableEq C]

/-- The drains that wait, in the one state and in the other. -/
theorem Twins.drainsOf_stack :
    drainsOf a.stack = drainsOf nested ∧ drainsOf b.stack = drainsOf nested ++ [conn] := by
  obtain ⟨⟨firstKey, rest, hpassA⟩, cursor, hpassB⟩ := h.first.iterators.pass_eq
  constructor
  · rw [h.stackA, drainsOf_append, drainsOf_cons, Flush.drains, Flush.isSingle, hpassA]
    exact append_nil _
  · rw [h.stackB, drainsOf_append, drainsOf_graft, drainsOf_cons, Flush.drains, Flush.isSingle,
      hpassB, ← h.first.conn_eq]
    rfl

/-- Another drain is refused in both states, or starts in both. -/
theorem Twins.mem_conns (c : C) : c ∈ b.stack.map Flush.conn ↔ c ∈ a.stack.map Flush.conn := by
  rw [h.stackA, h.stackB, List.map_append, List.map_append, List.map_map]
  exact Iff.rfl

theorem Twins.graft_draining (ha : Orderly a) (hb : Orderly b) (cursor : ℕ) :
    (Pass.drain a.drainingCoalesced cursor : Pass C K).graft conn =
      .drain b.drainingCoalesced cursor := by
  obtain ⟨hdrainsA, hdrainsB⟩ := h.drainsOf_stack
  rw [ha.guarded.draining, hb.guarded.draining, hdrainsA, hdrainsB]
  cases drainsOf nested <;> rfl

end

theorem Twins.flushCoalescedFor (ha : Orderly a) (hb : Orderly b) (hne : c ≠ conn) :
    Paired conn (a.flushCoalescedFor c) (b.flushCoalescedFor c) := by
  have hsingleA : a.singleFlushPending ≠ some c := by
    rw [h.single]
    exact fun heq => hne (some.inj heq).symm
  have hsingleB : b.singleFlushPending ≠ some c := by
    rw [h.drained]
    exact some_ne_none _ ∘ Eq.symm
  have hguard : (b.drainingCoalesced = some c ∨ c ∈ b.parentDrains) ↔
      (a.drainingCoalesced = some c ∨ c ∈ a.parentDrains) := by
    have hmemA : c ∈ a.stack.map Flush.conn ↔ _ := ha.guarded.mem_iff
    have hmemB : c ∈ b.stack.map Flush.conn ↔ _ := hb.guarded.mem_iff
    rw [or_iff_right hsingleA] at hmemA
    rw [or_iff_right hsingleB] at hmemB
    rw [← hmemA, ← hmemB]
    exact h.mem_conns c
  rw [Coalescer.flushCoalescedFor, Coalescer.flushCoalescedFor, ← h.same.pending, ← h.same.closed]
  cases (a.pending c).next 0 with
  | none => exact ⟨nested, f₀, pass₀, h⟩
  | some found =>
    obtain ⟨key, value, cursor⟩ := found
    simp only [if_neg hsingleA, if_neg hsingleB, hguard]
    split_ifs
    · exact ⟨nested, f₀, pass₀, h⟩
    · exact ⟨nested, f₀, pass₀, h⟩
    · have hstarted : Twins conn
          { a with
            coalescedDrainDepth := a.coalescedDrainDepth + 1
            drainingCoalesced := some c
            parentDrains := a.drainingCoalesced.elim a.parentDrains a.parentDrains.add }
          { b with
            coalescedDrainDepth := b.coalescedDrainDepth + 1
            drainingCoalesced := some c
            parentDrains := b.drainingCoalesced.elim b.parentDrains b.parentDrains.add }
          nested f₀ pass₀ :=
        h.congr ⟨h.same.pending, h.same.closed, h.same.continuations, h.same.sets, h.same.log⟩
          rfl rfl rfl rfl rfl rfl rfl
      have hattempt := hstarted.attempt (f := ⟨c, key, value, false, (a.pending c).size * 2,
        false, .drain a.drainingCoalesced cursor⟩) ⟨rfl, hne⟩
      rw [Flush.graft] at hattempt
      simp only [h.graft_draining ha hb] at hattempt
      simpa only [h.same.pending, h.same.closed] using hattempt

end

/-- The flag of the loop that waits. -/
def Coalescer.touch (s : Coalescer C K D) : Coalescer C K D := { s with singleFlushTouched := true }

omit [DecidableEq C] in
theorem Twins.touch (h : Twins conn a b nested f₀ pass₀) : Twins conn a.touch b nested f₀ pass₀ :=
  ⟨⟨h.same.pending, h.same.closed, h.same.continuations, h.same.sets, h.same.log⟩, h.single,
    h.drained, h.stackA, h.stackB, h.inner, h.first.conn_eq,
    h.first.iterators.congr (fun _ _ _ hk => hk) rfl, h.first.slot, fun hno => by cases hno⟩

omit [DecidableEq K] in
/-- A flush of the connection of the single flush: the values are compared from now on. -/
theorem flushCoalescedFor_of_single (hsingle : s.singleFlushPending = some conn)
    (hopen : s.closed conn = false) {found : K × QueuedEntry D × ℕ}
    (hnext : (s.pending conn).next 0 = some found) : s.flushCoalescedFor conn = s.touch := by
  obtain ⟨key, value, cursor⟩ := found
  rw [Coalescer.flushCoalescedFor, hnext]
  simp only
  rw [if_neg (by rw [hopen]; exact Bool.false_ne_true), if_pos hsingle]
  rfl

/-- A flush of the connection of the outermost drain: it is refused. -/
theorem Twins.flushCoalescedFor_self (h : Twins conn a b nested f₀ pass₀) (hb : Orderly b)
    (hopen : b.closed conn = false) {found : K × QueuedEntry D × ℕ}
    (hnext : (b.pending conn).next 0 = some found) : b.flushCoalescedFor conn = b := by
  obtain ⟨key, value, cursor⟩ := found
  have hsingleB : b.singleFlushPending ≠ some conn := by
    rw [h.drained]
    exact some_ne_none _ ∘ Eq.symm
  have hguarded : b.drainingCoalesced = some conn ∨ conn ∈ b.parentDrains := by
    have hmem : conn ∈ b.stack.map Flush.conn := by
      rw [h.stackB, map_append]
      exact mem_append_right _ (mem_singleton.mpr h.first.conn_eq.symm)
    exact (hb.guarded.mem_iff.mp hmem).resolve_left hsingleB
  rw [Coalescer.flushCoalescedFor, hnext]
  simp [hopen, if_neg hsingleB, if_pos hguarded]

omit [DecidableEq C] in
/-- The oldest entry is the first one, as long as it is there. -/
theorem FirstSlot.evict (h : FirstSlot s conn key c₀) (hordered : (s.pending conn).Ordered)
    {oldest : K} {value : QueuedEntry D} {cursor : ℕ}
    (hnext : (s.pending conn).next 0 = some (oldest, value, cursor))
    (hpending : s'.pending conn = (s.pending conn).delete oldest)
    (hevicted : s'.singleFlushEvicted = true) : FirstSlot s' conn key c₀ := by
  obtain ⟨place₁, hfind₁, rfl, hfirst⟩ := find_of_next hordered hnext
  refine ⟨fun k place v hk hlt => ?_, fun hno => by rw [hevicted] at hno; cases hno⟩
  rw [hpending, find_delete] at hk
  split_ifs at hk with hne
  obtain ⟨rfl, hnever⟩ := h.before k place v hk hlt
  rcases lt_or_ge place (place₁ + 1) with hbefore | hafter
  · rcases hfirst k place v hk hbefore with rfl | hzero
    · exact absurd rfl hne
    · exact absurd hzero (Nat.not_lt_zero _)
  · exact absurd (h.before oldest place₁ value hfind₁ (by omega)).1 hne

omit [DecidableEq C] in
theorem First.evict (h : First conn s f pass₀) (hordered : (s.pending conn).Ordered)
    {oldest : K} {value : QueuedEntry D} {cursor : ℕ}
    (hnext : (s.pending conn).next 0 = some (oldest, value, cursor))
    (hpending : s'.pending conn = (s.pending conn).delete oldest)
    (hevicted : s'.singleFlushEvicted = true) (htouched : s'.singleFlushTouched = true) :
    First conn s' f pass₀ := by
  obtain ⟨hconn, hiterators, hslot, -⟩ := h
  refine ⟨hconn, ?_, fun firstKey c₀ hpassA hpassB => ?_, fun hno => ?_⟩
  · generalize f.pass = passA at hiterators ⊢
    cases hiterators with
    | opened firstKey cursor => exact .opened firstKey cursor
    | closed c₀ hfirst => exact .closed c₀ (hfirst.evict hordered hnext hpending hevicted)
  · refine ⟨?_, fun hno => ?_⟩
    · rw [hpending]
      exact (hslot firstKey c₀ hpassA hpassB).1
    · rw [hevicted] at hno
      cases hno
  · rw [htouched] at hno
    cases hno

theorem Twins.evict (h : Twins conn a b nested f₀ pass₀) (ha : Orderly a) (c : C) (key : K) :
    Twins conn (a.evict c key) (b.evict c key) nested f₀ pass₀ := by
  rw [Coalescer.evict, Coalescer.evict, ← h.same.pending]
  simp only
  split
  · cases hnext : (a.pending c).next 0 with
    | none => exact h
    | some found =>
      obtain ⟨oldest, value, cursor⟩ := found
      simp only
      have hsingleB : (b.store c ((a.pending c).delete oldest)).singleFlushPending ≠ some c := by
        change b.singleFlushPending ≠ some c
        rw [h.drained]
        exact some_ne_none _ ∘ Eq.symm
      rw [if_neg hsingleB]
      by_cases heq : c = conn
      · subst heq
        rw [if_pos (show (a.store c _).singleFlushPending = some c from h.single)]
        refine ⟨⟨?_, h.same.closed, h.same.continuations, h.same.sets, h.same.log⟩, h.single,
          h.drained, h.stackA, h.stackB, h.inner, h.first.evict (ha.ordered c) hnext ?_ rfl rfl⟩
        · simp [Coalescer.store, h.same.pending]
        · change (a.store c ((a.pending c).delete oldest)).pending c = _
          rw [pending_store, if_pos rfl]
      · have hsingleA : (a.store c ((a.pending c).delete oldest)).singleFlushPending ≠
            some c := by
          change a.singleFlushPending ≠ some c
          rw [h.single]
          exact fun hsome => heq (some.inj hsome).symm
        rw [if_neg hsingleA]
        exact h.store heq _
  · exact h

omit [DecidableEq C] in
/-- A key keeps its slot, and a new one goes behind the iterators. -/
theorem FirstSlot.set (h : FirstSlot s conn key c₀) (hle : c₀ ≤ (s.pending conn).added)
    (hkept : s.singleFlushEvicted = false → ((s.pending conn).find key).isSome) {k : K}
    {entry : QueuedEntry D} (hpending : s'.pending conn = (s.pending conn).set k entry)
    (hevicted : s'.singleFlushEvicted = s.singleFlushEvicted) : FirstSlot s' conn key c₀ := by
  refine ⟨fun k' place v hk hlt => ?_, fun hno place v hk => ?_⟩
  · rw [hpending, find_set] at hk
    rw [hevicted]
    split_ifs at hk with heq
    · subst heq
      cases hk
      cases hfind : (s.pending conn).find k with
      | none =>
        rw [hfind] at hlt
        exact absurd hle (not_le.mpr hlt)
      | some slot =>
        rw [hfind] at hlt
        exact h.before k slot.1 slot.2 hfind hlt
    · exact h.before k' place v hk hlt
  · rw [hevicted] at hno
    rw [hpending, find_set] at hk
    split_ifs at hk with heq
    · subst heq
      cases hk
      obtain ⟨slot, hfind⟩ := isSome_iff_exists.mp (hkept hno)
      rw [hfind]
      exact h.behind hno slot.1 slot.2 hfind
    · exact h.behind hno place v hk

omit [DecidableEq C] in
theorem First.set (h : First conn s f pass₀) {k : K} {entry : QueuedEntry D}
    (hpending : s'.pending conn = (s.pending conn).set k entry)
    (hevicted : s'.singleFlushEvicted = s.singleFlushEvicted)
    (htouched : s'.singleFlushTouched = true) : First conn s' f pass₀ := by
  obtain ⟨hconn, hiterators, hslot, -⟩ := h
  refine ⟨hconn, ?_, fun firstKey c₀ hpassA hpassB => ?_, fun hno => ?_⟩
  · generalize hpassA : f.pass = passA at hiterators ⊢
    cases hiterators with
    | opened firstKey cursor => exact .opened firstKey cursor
    | closed c₀ hfirst =>
      obtain ⟨hle, hkept⟩ := hslot f.key c₀ hpassA rfl
      exact .closed c₀ (hfirst.set hle hkept hpending hevicted)
  · obtain ⟨hle, hkept⟩ := hslot firstKey c₀ hpassA hpassB
    rw [hpending, hevicted]
    refine ⟨hle.trans (added_le_set ..), fun hno => ?_⟩
    rw [find_set]
    split
    · rfl
    · exact hkept hno
  · rw [htouched] at hno
    cases hno

theorem Twins.enqueue (h : Twins conn a b nested f₀ pass₀) (c : C) (key : K)
    (entry : QueuedEntry D) (htouched : c = conn → a.singleFlushTouched = true) :
    Twins conn (a.enqueue c key entry) (b.enqueue c key entry) nested f₀ pass₀ := by
  have hsame : Same (a.enqueue c key entry) (b.enqueue c key entry) := by
    simp only [Coalescer.enqueue, Coalescer.store]
    exact ⟨by rw [h.same.pending], h.same.closed, h.same.continuations, by rw [h.same.sets],
      by rw [h.same.log]⟩
  by_cases heq : c = conn
  · subst heq
    have hpending : (a.enqueue c key entry).pending c = (a.pending c).set key entry := by
      change (a.store c ((a.pending c).set key entry)).pending c = _
      rw [pending_store, if_pos rfl]
    exact ⟨hsame, h.single, h.drained, h.stackA, h.stackB, h.inner,
      h.first.set hpending rfl (htouched rfl)⟩
  · refine h.congr hsame rfl rfl rfl rfl ?_ rfl rfl
    change (a.store c ((a.pending c).set key entry)).pending conn = _
    rw [pending_store, if_neg heq]

theorem evict_eq (s : Coalescer C K D) (conn : C) (key : K) :
    (s.evict conn key).closed = s.closed ∧
      (s.evict conn key).singleFlushPending = s.singleFlushPending ∧
      (s.evict conn key).coalescedDrainDepth = s.coalescedDrainDepth := by
  rw [Coalescer.evict]
  simp only
  split
  · split
    · exact ⟨rfl, rfl, rfl⟩
    · split <;> exact ⟨rfl, rfl, rfl⟩
  · exact ⟨rfl, rfl, rfl⟩

/-- A queue with a value that was just set has a first entry. -/
theorem exists_next_enqueue (s : Coalescer C K D) (conn : C) (key : K) (entry : QueuedEntry D) :
    ∃ found, ((s.enqueue conn key entry).pending conn).next 0 = some found := by
  have hget : ((s.enqueue conn key entry).pending conn).get key = some entry := by
    change ((s.store conn _).pending conn).get key = _
    rw [pending_store, if_pos rfl, get_set_self]
  rw [get_eq_find] at hget
  obtain ⟨slot, hfind, -⟩ := map_eq_some_iff.mp hget
  obtain ⟨k, v, cursor, hnext⟩ := exists_next_zero (size_pos hfind)
  exact ⟨_, hnext⟩

omit [DecidableEq C] in
theorem Twins.depth_ne_zero (h : Twins conn a b nested f₀ pass₀) (hb : Orderly b) :
    b.coalescedDrainDepth ≠ 0 := by
  rw [hb.guarded.depth, h.drainsOf_stack.2, length_append]
  exact Nat.succ_ne_zero _

theorem Twins.sendCoalesced (h : Twins conn a b nested f₀ pass₀) (ha : Orderly a) (hb : Orderly b)
    (c : C) (key : K) (topic event : JsString) (data : D) :
    Paired conn (a.sendCoalesced c key topic event data)
      (b.sendCoalesced c key topic event data) := by
  rw [Coalescer.sendCoalesced, Coalescer.sendCoalesced, ← h.same.closed, ← h.same.sets]
  split
  · exact ⟨nested, f₀, pass₀, h⟩
  · next hclosed =>
    simp only
    have hqueuedA := (ha.evict c key).enqueue c key ⟨a.sets, topic, event, data⟩
    have hqueuedB := (hb.evict c key).enqueue c key ⟨a.sets, topic, event, data⟩
    have hevicted := h.evict ha c key
    have hnotA : ¬((((a.evict c key).enqueue c key ⟨a.sets, topic, event, data⟩).pending c).size =
        1 ∧ ((a.evict c key).enqueue c key ⟨a.sets, topic, event, data⟩).singleFlushPending =
        none ∧ ((a.evict c key).enqueue c key ⟨a.sets, topic, event, data⟩).coalescedDrainDepth =
        0) := by
      rintro ⟨-, hnone, -⟩
      cases hnone.symm.trans hevicted.single
    have hnotB : ¬((((b.evict c key).enqueue c key ⟨a.sets, topic, event, data⟩).pending c).size =
        1 ∧ ((b.evict c key).enqueue c key ⟨a.sets, topic, event, data⟩).singleFlushPending =
        none ∧ ((b.evict c key).enqueue c key ⟨a.sets, topic, event, data⟩).coalescedDrainDepth =
        0) := by
      rintro ⟨-, -, hzero⟩
      exact hevicted.depth_ne_zero (hb.evict c key) hzero
    rw [if_neg hnotA, if_neg hnotB]
    by_cases heq : c = conn
    · subst heq
      have htouched : Twins c ((a.evict c key).enqueue c key ⟨a.sets, topic, event, data⟩).touch
          ((b.evict c key).enqueue c key ⟨a.sets, topic, event, data⟩) nested f₀ pass₀ :=
        hevicted.touch.enqueue c key ⟨a.sets, topic, event, data⟩ fun _ => rfl
      obtain ⟨found, hnext⟩ := exists_next_enqueue (a.evict c key) c key
        ⟨a.sets, topic, event, data⟩
      have hopenA : ((a.evict c key).enqueue c key ⟨a.sets, topic, event, data⟩).closed c =
          false := by
        change (a.evict c key).closed c = false
        rw [(evict_eq a c key).1]
        exact eq_false_of_ne_true hclosed
      have hsame := htouched.same
      have hsingleA : ((a.evict c key).enqueue c key
          ⟨a.sets, topic, event, data⟩).singleFlushPending = some c := htouched.single
      rw [flushCoalescedFor_of_single hsingleA hopenA hnext,
        htouched.flushCoalescedFor_self hqueuedB (by rw [← hsame.closed]; exact hopenA)
          (by rw [← hsame.pending]; exact hnext)]
      exact ⟨nested, f₀, pass₀, htouched⟩
    · exact (hevicted.enqueue c key _ fun hc => absurd hc heq).flushCoalescedFor hqueuedA hqueuedB
        heq

end AdapterWs.Coalesce
