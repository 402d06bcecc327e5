import AdapterWs.Coalesce.Twins

/-!
# The flush of a single entry

The two loops step by step: both write the same value, and then both end, or go on to the same
entry. The iterator that `flushSingleCoalesced` opens past the slot of its first entry comes to what
the iterator of the drain comes to.
-/

namespace AdapterWs.Coalesce

open JsString Option Coalescer CursorMap

variable {C K D : Type} [DecidableEq C] [DecidableEq K]
  {s a b : Coalescer C K D} {f f₀ : Flush C K D} {pass₀ : Pass C K} {conn : C} {key : K} {c₀ : ℕ}

/-! ## The outermost flush -/

/-- Two states between the steps of the outermost flush. -/
structure Bare (conn : C) (a b : Coalescer C K D) : Prop where
  same : Same a b
  single : a.singleFlushPending = some conn
  drained : b.singleFlushPending = none
  emptyA : a.stack = []
  emptyB : b.stack = []

/-- Both flushes wait at the same value, or both have ended. -/
def Agree (conn : C) (a b : Coalescer C K D) : Prop :=
  Paired conn a b ∨ Same a b ∧ a.stack = [] ∧ b.stack = []

theorem Bare.finish (h : Bare conn a b) {f : Flush C K D}
    (hiterators : Iterators s conn key f.pass pass₀) (yielded : Bool) :
    Same (a.finish f yielded) (b.finish { f with pass := pass₀ } yielded) ∧
      (a.finish f yielded).stack = [] ∧
      (b.finish { f with pass := pass₀ } yielded).stack = [] := by
  obtain ⟨⟨firstKey, rest, hpassA⟩, cursor, rfl⟩ := hiterators.pass_eq
  simp only [finish, hpassA]
  cases yielded with
  | false =>
    exact ⟨⟨h.same.pending, h.same.closed, h.same.continuations, h.same.sets, h.same.log⟩,
      h.emptyA, h.emptyB⟩
  | true =>
    refine ⟨⟨h.same.pending, h.same.closed, ?_, h.same.sets, h.same.log⟩, h.emptyA, h.emptyB⟩
    simp [settle, h.same.continuations]

theorem Bare.attempt (h : Bare conn a b) (hfirst : First conn a f pass₀) :
    Agree conn (a.attempt f) (b.attempt { f with pass := pass₀ }) := by
  rw [Coalescer.attempt, Coalescer.attempt]
  split
  · exact .inr (h.finish hfirst.iterators true)
  · refine .inl ⟨[], { f with remaining := f.remaining - 1 }, pass₀, ?_⟩
    refine ⟨⟨h.same.pending, h.same.closed, h.same.continuations, h.same.sets, h.same.log⟩,
      h.single, h.drained, ?_, ?_, List.forall_mem_nil _,
      hfirst.conn_eq, hfirst.iterators.congr (fun _ _ _ hk => hk) rfl, hfirst.slot,
      hfirst.untouched⟩
    · rw [h.emptyA]
      rfl
    · rw [h.emptyB]
      rfl

/-- Both loops visit the next entry, with an open iterator each. -/
theorem Bare.visit (h : Bare conn a b) (hconn : f.conn = conn) {firstKey : K} {rest : Option ℕ}
    {cursorA cursorB cursor : ℕ} (hpassA : f.pass = .single firstKey rest)
    (hnext : (a.pending conn).next cursorA = (a.pending conn).next cursorB) :
    Agree conn (a.visit f cursorA fun cursor => .single firstKey (some cursor))
      (b.visit { f with pass := .drain none cursor } cursorB (.drain none)) := by
  subst hconn
  rw [visit, visit]
  simp only
  rw [← h.same.pending, ← hnext]
  cases hfound : (a.pending f.conn).next cursorA with
  | none =>
    have hopened : Iterators a f.conn firstKey (.single firstKey (some cursor))
        (.drain none cursor) := .opened firstKey cursor
    have hended := h.finish (f := { f with pass := .single firstKey (some cursor) }) hopened
      f.yielded
    rw [Coalescer.finish] at hended
    simp only at hended ⊢
    refine .inr ?_
    rw [Coalescer.finish, hpassA]
    exact hended
  | some found =>
    obtain ⟨key, value, cursor'⟩ := found
    refine h.attempt (f := { f with
      key := key, value := value, retried := false, pass := .single firstKey (some cursor') })
      ⟨rfl, .opened firstKey cursor', fun _ _ heq => (by cases heq), fun _ => ?_⟩
    have hget := get_of_next hfound
    change decide (((a.pending f.conn).get key).map QueuedEntry.serial = some value.serial) = true
    rw [hget]
    exact decide_eq_true rfl

omit [DecidableEq C] in
/-- The iterator that is opened past the slot of the first entry goes on where the drain is. -/
theorem FirstSlot.next_eq (h : FirstSlot s conn key c₀) (hordered : (s.pending conn).Ordered) :
    (s.pending conn).next (if !s.singleFlushEvicted && ((s.pending conn).get key).isSome then
      ((s.pending conn).next 0).elim 0 fun entry => entry.2.2 else 0) =
        (s.pending conn).next c₀ := by
  refine next_congr fun k place value hk => ?_
  rw [get_eq_find, isSome_map]
  cases hevicted : s.singleFlushEvicted with
  | true =>
    -- nothing that the drain has passed is left
    refine ⟨fun _ => not_lt.mp fun hlt => ?_, fun _ => Nat.zero_le _⟩
    have hno := (h.before k place value hk hlt).2
    rw [hevicted] at hno
    cases hno
  | false =>
    cases hfind : (s.pending conn).find key with
    | none =>
      refine ⟨fun _ => not_lt.mp fun hlt => ?_, fun _ => Nat.zero_le _⟩
      obtain ⟨rfl, -⟩ := h.before k place value hk hlt
      rw [hfind] at hk
      cases hk
    | some slot =>
      obtain ⟨place₀, value₀⟩ := slot
      have hlt₀ := h.behind hevicted place₀ value₀ hfind
      obtain ⟨k₁, v₁, cursor₁, hnext⟩ := exists_next_zero (m := s.pending conn)
        (size_pos hfind)
      obtain ⟨place₁, hfind₁, rfl, hfirst⟩ := find_of_next hordered hnext
      have hkey : key = k₁ := by
        rcases lt_or_ge place₀ (place₁ + 1) with hlt | hge
        · exact (hfirst key place₀ value₀ hfind hlt).resolve_right (Nat.not_lt_zero _)
        · exact ((h.before k₁ place₁ v₁ hfind₁ (by omega)).1).symm
      subst hkey
      have hplace : place₁ = place₀ := by
        rw [hfind₁] at hfind
        exact congrArg Prod.fst (some.inj hfind)
      subst hplace
      simp only [Bool.not_false, isSome_some, Bool.and_self, if_true, hnext,
        elim_some]
      constructor
      · intro hle
        by_contra hlt
        obtain ⟨rfl, -⟩ := h.before k place value hk (not_le.mp hlt)
        rw [hfind₁] at hk
        have heq := congrArg Prod.fst (some.inj hk)
        omega
      · intro hle
        omega

theorem Bare.advance (h : Bare conn a b) (hconn : f.conn = conn)
    (hordered : (a.pending conn).Ordered) (hiterators : Iterators a conn f.key f.pass pass₀) :
    Agree conn (a.advance f) (b.advance { f with pass := pass₀ }) := by
  subst hconn
  rw [advance, advance]
  generalize hpassA : f.pass = passA at hiterators
  cases hiterators with
  | opened firstKey cursor => exact h.visit rfl hpassA rfl
  | closed cursor hslot =>
    simp only
    split
    · next hempty =>
      have hpasses : Iterators a f.conn f.key f.pass (.drain none cursor) := by
        rw [hpassA]
        exact .closed cursor hslot
      have hend := h.finish hpasses f.yielded
      rw [Coalescer.visit]
      simp only
      rw [← h.same.pending, next_of_size_eq_zero hempty]
      exact .inr hend
    · exact h.visit rfl hpassA (hslot.next_eq hordered)

theorem First.store_delete (h : First conn s f pass₀) :
    Iterators (s.store conn ((s.pending conn).delete f.key)) conn f.key f.pass pass₀ := by
  refine h.iterators.congr (fun k place value hk => ?_) rfl
  rw [pending_store, if_pos rfl, find_delete] at hk
  split_ifs at hk
  exact hk

omit [DecidableEq K] in
theorem Bare.store (h : Bare conn a b) (queue : CursorMap K (QueuedEntry D)) :
    Bare conn (a.store conn queue) (b.store conn queue) := by
  refine ⟨⟨?_, h.same.closed, h.same.continuations, h.same.sets, h.same.log⟩, h.single, h.drained,
    h.emptyA, h.emptyB⟩
  rw [Coalescer.store, Coalescer.store, h.same.pending]

omit [DecidableEq C] in
/-- Without a touch the value is still the one of its key. -/
theorem First.held (h : First conn s f pass₀) :
    ((f.isSingle && !s.singleFlushTouched) || s.holds f.conn f.key f.value) =
      s.holds f.conn f.key f.value := by
  cases htouched : s.singleFlushTouched with
  | true => simp
  | false =>
    rw [h.conn_eq, h.untouched htouched]
    simp

theorem Bare.afterWrite (h : Bare conn a b) (hordered : (a.pending conn).Ordered)
    (hfirst : First conn a f pass₀) (result : SendStatus) :
    Agree conn (a.afterWrite f result) (b.afterWrite { f with pass := pass₀ } result) := by
  obtain rfl := hfirst.conn_eq
  obtain ⟨-, cursor, hpassB⟩ := hfirst.iterators.pass_eq
  have hqueue : b.pending f.conn = a.pending f.conn := by rw [h.same.pending]
  have hstored := h.store ((a.pending f.conn).delete f.key)
  have hdeleted := hfirst.store_delete
  have hordered' :
      ((a.store f.conn ((a.pending f.conn).delete f.key)).pending f.conn).Ordered := by
    rw [pending_store, if_pos rfl]
    exact hordered.delete f.key
  have hsingle : Flush.isSingle { f with pass := pass₀ } = false := by
    rw [Flush.isSingle, hpassB]
  rw [afterWrite, afterWrite, hfirst.held, hsingle]
  simp only [Bool.false_and, Bool.false_or]
  rw [← h.same.holds, hqueue]
  split_ifs with hdropped hholds henqueued henqueued hretried
  · exact .inr (h.finish hfirst.iterators false)
  · exact .inr (hstored.finish hdeleted false)
  · exact hstored.advance rfl hordered' hdeleted
  · exact .inr (h.finish hfirst.iterators false)
  · cases (a.pending f.conn).get f.key with
    | none => exact h.advance rfl hordered hfirst.iterators
    | some value =>
      exact h.advance (f := { f with yielded := true }) rfl hordered hfirst.iterators
  · cases hget : (a.pending f.conn).get f.key with
    | none => exact h.advance rfl hordered hfirst.iterators
    | some value =>
      refine h.attempt (f := { f with retried := true, value := value })
        ⟨rfl, hfirst.iterators, hfirst.slot, fun _ => ?_⟩
      change decide (((a.pending f.conn).get f.key).map _ = some value.serial) = true
      rw [hget]
      exact decide_eq_true rfl

theorem Bare.superseded (h : Bare conn a b) (hfirst : First conn a f pass₀) :
    b.superseded { f with pass := pass₀ } = a.superseded f := by
  have hne : b.singleFlushPending ≠ some f.conn := by
    rw [h.drained]
    exact some_ne_none _ ∘ Eq.symm
  change ((decide (b.singleFlushPending ≠ some f.conn) || b.singleFlushTouched) &&
    !(b.holds f.conn f.key f.value)) = _
  rw [Coalescer.superseded, decide_eq_true hne, h.single, hfirst.conn_eq, ← h.same.holds]
  cases htouched : a.singleFlushTouched with
  | true => simp
  | false => simp [hfirst.untouched htouched]

theorem Bare.serialized (h : Bare conn a b) (hordered : (a.pending conn).Ordered)
    (hfirst : First conn a f pass₀) (status : SendStatus) :
    Agree conn (a.serialized f status) (b.serialized { f with pass := pass₀ } status) := by
  rw [Coalescer.serialized, Coalescer.serialized, h.superseded hfirst]
  split
  · exact h.afterWrite hordered hfirst .sent
  · have hlog : Bare conn { a with log := .send f.conn f.key f.value.serial status :: a.log }
        { b with log := .send f.conn f.key f.value.serial status :: b.log } := by
      refine ⟨⟨h.same.pending, h.same.closed, h.same.continuations, h.same.sets, ?_⟩, h.single,
        h.drained, h.emptyA, h.emptyB⟩
      rw [h.same.log]
    exact hlog.afterWrite hordered (hfirst.congr rfl rfl rfl) status

theorem Bare.aborted (h : Bare conn a b) (hordered : (a.pending conn).Ordered)
    (hfirst : First conn a f pass₀) :
    Agree conn (a.aborted f) (b.aborted { f with pass := pass₀ }) := by
  rw [Coalescer.aborted, Coalescer.aborted, h.superseded hfirst]
  split
  · exact h.afterWrite hordered hfirst .sent
  · obtain ⟨hsame, hemptyA, hemptyB⟩ := h.finish hfirst.iterators false
    refine .inr ⟨⟨?_, hsame.closed, hsame.continuations, hsame.sets, hsame.log⟩, hemptyA, hemptyB⟩
    rw [Coalescer.store, Coalescer.store, hsame.pending, h.same.pending]

/-! ## Steps -/

section

omit [DecidableEq C]

theorem Agree.length_eq (h : Agree conn a b) : a.stack.length = b.stack.length := by
  rcases h with ⟨nested, f₀, pass₀, h⟩ | ⟨-, hA, hB⟩
  · rw [h.stackA, h.stackB, List.length_append, List.length_append, List.length_map]
    rfl
  · rw [hA, hB]

theorem Agree.values_eq (h : Agree conn a b) :
    a.stack.map (fun f => (f.conn, f.key, f.value)) =
      b.stack.map fun f => (f.conn, f.key, f.value) := by
  rcases h with ⟨nested, f₀, pass₀, h⟩ | ⟨-, hA, hB⟩
  · rw [h.stackA, h.stackB, List.map_append, List.map_append, List.map_map]
    rfl
  · rw [hA, hB]

theorem Agree.same (h : Agree conn a b) : Same a b := by
  rcases h with ⟨nested, f₀, pass₀, h⟩ | ⟨hsame, -, -⟩
  · exact h.same
  · exact hsame

end

/-- The innermost flushes are at the same value, and whatever the serializer and the socket do, both
do the same. -/
structure Popped (conn : C) (a b : Coalescer C K D) (f g : Flush C K D) : Prop where
  conn_eq : g.conn = f.conn
  key_eq : g.key = f.key
  value_eq : g.value = f.value
  superseded : b.superseded g = a.superseded f
  serialized : ∀ status, Agree conn (a.serialized f status) (b.serialized g status)
  failed : Agree conn (a.failed f) (b.failed g)
  aborted : Agree conn (a.aborted f) (b.aborted g)

theorem Agree.pop (h : Agree conn a b) (ha : Orderly a) (hne : a.stack ≠ []) :
    ∃ f g stackA stackB, a.stack = f :: stackA ∧ b.stack = g :: stackB ∧
      Popped conn { a with stack := stackA } { b with stack := stackB } f g := by
  rcases h with ⟨nested, f₀, pass₀, h⟩ | ⟨-, hnil, -⟩
  · cases nested with
    | nil =>
      refine ⟨f₀, { f₀ with pass := pass₀ }, [], [], h.stackA, h.stackB, ?_⟩
      have hbare : Bare conn { a with stack := [] } { b with stack := [] } :=
        ⟨⟨h.same.pending, h.same.closed, h.same.continuations, h.same.sets, h.same.log⟩, h.single,
          h.drained, rfl, rfl⟩
      have hfirst : First conn { a with stack := [] } f₀ pass₀ := h.first.congr rfl rfl rfl
      have hordered := ha.ordered conn
      exact ⟨rfl, rfl, rfl, hbare.superseded hfirst, hbare.serialized hordered hfirst,
        hbare.afterWrite hordered hfirst .sent, hbare.aborted hordered hfirst⟩
    | cons f nested =>
      have hstackB : b.stack = f.graft conn ::
          (nested.map (Flush.graft conn) ++ [{ f₀ with pass := pass₀ }]) := h.stackB
      refine ⟨f, f.graft conn, nested ++ [f₀], _, h.stackA, hstackB, ?_⟩
      have hinner : Inner conn f := h.inner f (.head _)
      have hpopped : Twins conn { a with stack := nested ++ [f₀] }
          { b with stack := nested.map (Flush.graft conn) ++ [{ f₀ with pass := pass₀ }] }
          nested f₀ pass₀ :=
        ⟨⟨h.same.pending, h.same.closed, h.same.continuations, h.same.sets, h.same.log⟩, h.single,
          h.drained, rfl, rfl, fun g hg => h.inner g (List.mem_cons_of_mem f hg),
          h.first.congr rfl rfl rfl⟩
      exact ⟨rfl, rfl, rfl, hpopped.superseded hinner,
        fun status => .inl (hpopped.serialized hinner status),
        .inl (hpopped.afterWrite hinner .sent), .inl (hpopped.aborted hinner)⟩
  · exact absurd hnil hne

theorem Agree.sendCoalesced (h : Agree conn a b) (ha : Orderly a) (hb : Orderly b)
    (hne : a.stack ≠ []) (c : C) (key : K) (topic event : JsString) (data : D) :
    Agree conn (a.sendCoalesced c key topic event data)
      (b.sendCoalesced c key topic event data) := by
  rcases h with ⟨nested, f₀, pass₀, h⟩ | ⟨-, hnil, -⟩
  · exact .inl (h.sendCoalesced ha hb c key topic event data)
  · exact absurd hnil hne

theorem Agree.close (h : Agree conn a b) (hne : a.stack ≠ []) (c : C) :
    Agree conn { a with closed := Function.update a.closed c true }
      { b with closed := Function.update b.closed c true } := by
  rcases h with ⟨nested, f₀, pass₀, h⟩ | ⟨-, hnil, -⟩
  · refine .inl ⟨nested, f₀, pass₀, h.congr ⟨h.same.pending, ?_, h.same.continuations, h.same.sets,
      h.same.log⟩ rfl rfl rfl rfl rfl rfl rfl⟩
    rw [h.same.closed]
  · exact absurd hnil hne

/-! ## The start of a flush -/

/-- `sendCoalesced`, if it had `flushCoalescedFor` alone. -/
def Coalescer.sendDrained (s : Coalescer C K D) (conn : C) (key : K) (topic event : JsString)
    (data : D) : Coalescer C K D :=
  if s.closed conn then s
  else
    let entry := ⟨s.sets, topic, event, data⟩
    ((s.evict conn key).enqueue conn key entry).flushCoalescedFor conn

theorem Orderly.sendDrained (h : Orderly s) (conn : C) (key : K) (topic event : JsString)
    (data : D) : Orderly (s.sendDrained conn key topic event data) := by
  rw [Coalescer.sendDrained]
  split
  · exact h
  · exact ((h.evict conn key).enqueue conn key _).flushCoalescedFor conn

theorem key_of_size_eq_one {m : CursorMap K (QueuedEntry D)} (hsize : m.size = 1) {k : K}
    {value value' : QueuedEntry D} (hget : m.get key = some value) (hk : m.get k = some value') :
    k = key := by
  by_contra hne
  have hdelete := size_delete hget
  have hsize' : 0 < (m.delete key).size := by
    have hfind : (m.delete key).get k = some value' := by
      rw [get_delete, if_neg (Ne.symm hne)]
      exact hk
    rw [get_eq_find] at hfind
    obtain ⟨slot, hslot, -⟩ := map_eq_some_iff.mp hfind
    exact size_pos hslot
  omega

theorem Orderly.agree_start (h : Orderly s) (hsingle : s.singleFlushPending = none)
    (hdepth : s.coalescedDrainDepth = 0) (hopen : s.closed conn = false) {entry : QueuedEntry D}
    (hget : (s.pending conn).get key = some entry) (hsize : (s.pending conn).size = 1) :
    Agree conn
      ({ s with
        singleFlushPending := some conn
        singleFlushEvicted := false
        singleFlushTouched := false }.attempt ⟨conn, key, entry, false, 2, false, .single key none⟩)
      (s.flushCoalescedFor conn) := by
  have hnil := h.guarded.eq_nil hsingle hdepth
  have hguarded := h.guarded
  rw [hnil] at hguarded
  have hdraining : s.drainingCoalesced = none := hguarded.draining
  have hparents : conn ∉ s.parentDrains := fun hmem =>
    absurd ((hguarded.parents conn).mp hmem) List.not_mem_nil
  obtain ⟨place, hfind⟩ : ∃ place, (s.pending conn).find key = some (place, entry) := by
    rw [get_eq_find] at hget
    obtain ⟨⟨place, entry'⟩, hfind, rfl⟩ := map_eq_some_iff.mp hget
    exact ⟨place, hfind⟩
  obtain ⟨k, value, cursor, hnext⟩ := exists_next_zero (size_pos hfind)
  have hk := key_of_size_eq_one hsize hget (get_of_next hnext)
  subst hk
  obtain ⟨place', hfind', rfl, -⟩ := find_of_next (h.ordered conn) hnext
  rw [hfind] at hfind'
  cases hfind'
  have hnotB : ¬(s.drainingCoalesced = some conn ∨ conn ∈ s.parentDrains) := by
    rintro (hsome | hmem)
    · cases hdraining.symm.trans hsome
    · exact hparents hmem
  have hbare : Bare conn
      { s with
        singleFlushPending := some conn
        singleFlushEvicted := false
        singleFlushTouched := false }
      { s with
        coalescedDrainDepth := s.coalescedDrainDepth + 1
        drainingCoalesced := some conn
        parentDrains := s.drainingCoalesced.elim s.parentDrains s.parentDrains.add } :=
    ⟨⟨rfl, rfl, rfl, rfl, rfl⟩, rfl, hsingle, hnil, hnil⟩
  have hfirst : First conn
      { s with
        singleFlushPending := some conn
        singleFlushEvicted := false
        singleFlushTouched := false }
      ⟨conn, k, entry, false, 2, false, .single k none⟩ (.drain none (place + 1)) := by
    refine ⟨rfl, .closed (place + 1) ⟨fun k' p v hk' hlt => ?_, fun _ p v hk' => ?_⟩,
      fun firstKey c₀ hpassA hpassB => ?_, fun _ => ?_⟩
    · have hget' : (s.pending conn).get k' = some v := by
        rw [get_eq_find]
        exact congrArg (Option.map Prod.snd) hk'
      exact ⟨key_of_size_eq_one hsize hget hget', rfl⟩
    · rw [hfind] at hk'
      cases hk'
      exact Nat.lt_succ_self _
    · cases hpassA
      cases hpassB
      refine ⟨(h.ordered conn).find_lt hfind, fun _ => ?_⟩
      change ((s.pending conn).find k).isSome = true
      rw [hfind]
      rfl
    · change decide (((s.pending conn).get k).map _ = some entry.serial) = true
      rw [hget]
      exact decide_eq_true rfl
  have hattempt := hbare.attempt hfirst
  rw [Coalescer.flushCoalescedFor, hnext]
  simp only
  rw [if_neg (by rw [hopen]; exact Bool.false_ne_true),
    if_neg (by rw [hsingle]; exact (some_ne_none conn).symm), if_neg hnotB, hsize, hdraining]
  rw [hdraining] at hattempt
  exact hattempt

end AdapterWs.Coalesce
