import AdapterWs.Coalesce.Record

/-!
# Flushes that wait

A connection has at most one flush that waits, whatever the serializers call: the guards refuse
another. While it waits, what its iterator has passed is the entry it is at, or it has given up on
an entry and will go on in a timer. So a loop that ends leaves an empty queue, a socket under
pressure, or a timer.
-/

namespace AdapterWs.Coalesce

open List Flush

variable {C K D : Type}

/-! ## The shared variables -/

/-- The connection of a flush of `drainCoalesced`. -/
def Flush.drains (f : Flush C K D) : Option C := if f.isSingle then none else some f.conn

/-- The connection of a flush of `flushSingleCoalesced`. -/
def Flush.singles (f : Flush C K D) : Option C := if f.isSingle then some f.conn else none

/-- The connections of the flushes of `drainCoalesced`, innermost first. -/
def drainsOf (frames : List (Flush C K D)) : List C := frames.filterMap Flush.drains

/-- Every drain keeps the one it interrupted. -/
def Linked : List (Flush C K D) → Prop
  | [] => True
  | f :: frames =>
    (∀ previous cursor, f.pass = .drain previous cursor → previous = (drainsOf frames).head?) ∧
      Linked frames

/-- The shared variables are those of the flushes that wait, which are of different connections. -/
structure Guarded (s : Coalescer C K D) (frames : List (Flush C K D)) : Prop where
  nodup : (frames.map Flush.conn).Nodup
  single : frames.filterMap Flush.singles = s.singleFlushPending.toList
  depth : s.coalescedDrainDepth = (drainsOf frames).length
  draining : s.drainingCoalesced = (drainsOf frames).head?
  parents : ∀ conn, conn ∈ s.parentDrains ↔ conn ∈ (drainsOf frames).tail
  linked : Linked frames

section Guarded

variable {s s' : Coalescer C K D} {f f' : Flush C K D} {frames : List (Flush C K D)} {conn : C}

theorem drainsOf_cons (f : Flush C K D) (frames : List (Flush C K D)) :
    drainsOf (f :: frames) = f.drains.toList ++ drainsOf frames := by
  rw [drainsOf, filterMap_cons]
  cases f.drains <;> rfl

theorem singles_cons (f : Flush C K D) (frames : List (Flush C K D)) :
    (f :: frames).filterMap singles =
      f.singles.toList ++ frames.filterMap singles := by
  rw [filterMap_cons]
  cases f.singles <;> rfl

theorem drainsOf_sublist (frames : List (Flush C K D)) :
    (drainsOf frames).Sublist (frames.map Flush.conn) := by
  induction frames with
  | nil => exact .slnil
  | cons f frames ih =>
    rw [drainsOf_cons, map_cons, drains]
    split_ifs
    · exact ih.cons f.conn
    · exact ih.cons_cons f.conn

theorem Guarded.mem_iff (h : Guarded s frames) : conn ∈ frames.map Flush.conn ↔
    s.singleFlushPending = some conn ∨ s.drainingCoalesced = some conn ∨ conn ∈ s.parentDrains := by
  have hdrains : conn ∈ drainsOf frames ↔
      s.drainingCoalesced = some conn ∨ conn ∈ s.parentDrains := by
    rw [h.draining, h.parents]
    cases drainsOf frames with
    | nil => simp
    | cons first rest => simp [eq_comm]
  have hsingle : conn ∈ frames.filterMap singles ↔ s.singleFlushPending = some conn := by
    rw [h.single]
    cases s.singleFlushPending <;> simp [eq_comm]
  rw [← hdrains, ← hsingle]
  constructor
  · intro hmem
    obtain ⟨f, hf, rfl⟩ := mem_map.mp hmem
    cases hsingle : f.isSingle with
    | true => exact .inl (mem_filterMap.mpr ⟨f, hf, by rw [singles, hsingle]; rfl⟩)
    | false =>
      refine .inr (mem_filterMap.mpr ⟨f, hf, ?_⟩)
      rw [drains, hsingle]
      rfl
  · rintro (hmem | hmem)
    · obtain ⟨f, hf, hsingles⟩ := mem_filterMap.mp hmem
      rw [singles] at hsingles
      split_ifs at hsingles
      exact mem_map.mpr ⟨f, hf, Option.some.inj hsingles⟩
    · exact (drainsOf_sublist frames).subset hmem

/-- A flush of `flushSingleCoalesced` is that of the shared variable. -/
theorem Guarded.single_of_mem (h : Guarded s frames) (hf : f ∈ frames) (hsingle : f.isSingle) :
    s.singleFlushPending = some f.conn := by
  have hmem : f.conn ∈ frames.filterMap singles :=
    mem_filterMap.mpr ⟨f, hf, by rw [singles, if_pos hsingle]⟩
  rw [h.single] at hmem
  cases hpending : s.singleFlushPending with
  | none =>
    rw [hpending] at hmem
    cases hmem
  | some conn =>
    rw [hpending] at hmem
    rw [mem_singleton.mp hmem]

theorem Guarded.congr (h : Guarded s frames)
    (hsingle : s'.singleFlushPending = s.singleFlushPending)
    (hdepth : s'.coalescedDrainDepth = s.coalescedDrainDepth)
    (hdraining : s'.drainingCoalesced = s.drainingCoalesced)
    (hparents : s'.parentDrains = s.parentDrains) : Guarded s' frames :=
  ⟨h.nodup, hsingle ▸ h.single, hdepth ▸ h.depth, hdraining ▸ h.draining, hparents ▸ h.parents,
    h.linked⟩

theorem Guarded.replace (h : Guarded s (f :: frames)) (hconn : f'.conn = f.conn)
    (hsingle : f'.isSingle = f.isSingle) (hlinked : ∀ previous cursor,
      f'.pass = .drain previous cursor → ∃ cursor', f.pass = .drain previous cursor') :
    Guarded s (f' :: frames) := by
  have hdrains : drainsOf (f' :: frames) = drainsOf (f :: frames) := by
    rw [drainsOf_cons, drainsOf_cons, drains, drains, hconn, hsingle]
  have hsingles : (f' :: frames).filterMap singles =
      (f :: frames).filterMap singles := by
    rw [singles_cons, singles_cons, singles, singles, hconn, hsingle]
  refine ⟨?_, hsingles ▸ h.single, hdrains ▸ h.depth, hdrains ▸ h.draining, hdrains ▸ h.parents,
    fun previous cursor hpass => ?_, h.linked.2⟩
  · have hnodup := h.nodup
    rw [map_cons] at hnodup ⊢
    rwa [hconn]
  · obtain ⟨cursor', hpass'⟩ := hlinked previous cursor hpass
    exact h.linked.1 previous cursor' hpass'

end Guarded

/-! ## The queue of a flush -/

section

variable [DecidableEq K]

/-- Where the iterator of a flush stands: before everything as long as it is not open. -/
def Flush.cursor (f : Flush C K D) : ℕ :=
  match f.pass with
  | .drain _ cursor => cursor
  | .single _ none => 0
  | .single _ (some cursor) => cursor

/-- What a flush that waits has passed: nothing that is still queued, apart from the entry it is at,
if it will not go on in a timer. -/
structure InPass (s : Coalescer C K D) (f : Flush C K D) : Prop where
  cursor_le : f.cursor ≤ (s.pending f.conn).added
  passed : f.yielded = false → ∀ key place value,
    (s.pending f.conn).find key = some (place, value) → place < f.cursor → key = f.key
  first : ∀ firstKey, f.pass = .single firstKey none → f.key = firstKey

/-- Why a queue may wait without a flush: it is empty, the socket is under pressure, or a timer is
armed. -/
def Owed [DecidableEq C] (s : Coalescer C K D) (conn : C) : Prop :=
  (s.pending conn).size = 0 ∨ (∃ status, lastStatus s.log conn = some status ∧ status ≠ .sent) ∨
    conn ∈ s.coalescedContinuations

variable [DecidableEq C]

/-- The invariant, with the flushes that wait, and the connections a flush is about to start for. -/
structure Sound (s : Coalescer C K D) (frames : List (Flush C K D)) (starts : C → Prop) :
    Prop where
  recorded : Recorded s
  guarded : Guarded s frames
  passes : ∀ f ∈ frames, InPass s f
  untouched : ∀ f ∈ frames, ¬starts f.conn → f.isSingle = true → s.singleFlushTouched = false →
    s.holds f.conn f.key f.value = true
  owed : ∀ conn, ¬starts conn → s.closed conn = false → conn ∉ frames.map Flush.conn → Owed s conn

/-! ## The loops -/

variable {s s' : Coalescer C K D} {f f' : Flush C K D} {frames : List (Flush C K D)} {conn : C}
  {yielded : Bool}

omit [DecidableEq K] in
theorem finish_eq (s : Coalescer C K D) (f : Flush C K D) (yielded : Bool) :
    (s.finish f yielded).pending = s.pending ∧ (s.finish f yielded).log = s.log ∧
      (s.finish f yielded).sets = s.sets ∧ (s.finish f yielded).closed = s.closed ∧
      (s.finish f yielded).stack = s.stack ∧
      (s.finish f yielded).singleFlushTouched = s.singleFlushTouched ∧
      (s.finish f yielded).coalescedContinuations =
        if yielded then s.coalescedContinuations.add f.conn else s.coalescedContinuations := by
  rw [Coalescer.finish]
  cases f.pass <;> cases yielded <;> exact ⟨rfl, rfl, rfl, rfl, rfl, rfl, rfl⟩

omit [DecidableEq K] in
theorem Guarded.finish (h : Guarded s (f :: frames)) : Guarded (s.finish f yielded) frames := by
  obtain ⟨hnodup, hsingle, hdepth, hdraining, hparents, hlinked⟩ := h
  have hframes : (frames.map conn).Nodup := (nodup_cons.mp hnodup).2
  rw [singles_cons] at hsingle
  rw [drainsOf_cons] at hdepth hdraining hparents
  have hsettled : ∀ s' : Coalescer C K D, Guarded s' frames →
      Guarded (s'.settle f.conn yielded) frames := by
    intro s' hs'
    rw [Coalescer.settle]
    split_ifs
    · exact hs'.congr rfl rfl rfl rfl
    · exact hs'
  rw [Coalescer.finish]
  cases hpass : f.pass with
  | drain previous cursor =>
    have hdrains : f.drains = some f.conn := by rw [drains, isSingle, hpass]; rfl
    have hsingles : f.singles = none := by rw [singles, isSingle, hpass]; rfl
    rw [hsingles] at hsingle
    rw [hdrains] at hdepth hdraining hparents
    refine hsettled _ ⟨hframes, hsingle, ?_, hlinked.1 previous cursor hpass, fun conn => ?_,
      hlinked.2⟩
    · simp [hdepth]
    · have hprevious := hlinked.1 previous cursor hpass
      have hconn := hparents conn
      have hnodup' := hframes.sublist (drainsOf_sublist frames)
      simp only [Option.toList_some, cons_append, nil_append, tail_cons] at hconn
      cases hrest : drainsOf frames with
      | nil =>
        rw [hrest] at hprevious hconn
        subst hprevious
        exact hconn
      | cons first rest =>
        rw [hrest] at hprevious hconn hnodup'
        subst hprevious
        have hnot := (nodup_cons.mp hnodup').1
        simp only [head?_cons, Option.elim_some, JsSet.mem_delete, hconn, mem_cons,
          tail_cons]
        constructor
        · rintro ⟨hne, rfl | hmem⟩
          · exact absurd rfl hne
          · exact hmem
        · intro hmem
          exact ⟨fun heq => hnot (heq ▸ hmem), .inr hmem⟩
  | single firstKey rest =>
    have hdrains : f.drains = none := by rw [drains, isSingle, hpass]; rfl
    have hsingles : f.singles = some f.conn := by rw [singles, isSingle, hpass]; rfl
    rw [hsingles] at hsingle
    rw [hdrains] at hdepth hdraining hparents
    refine hsettled _ ⟨hframes, ?_, hdepth, hdraining, hparents, hlinked.2⟩
    cases hpending : s.singleFlushPending with
    | none =>
      rw [hpending] at hsingle
      cases hsingle
    | some conn =>
      rw [hpending] at hsingle
      exact (cons.inj hsingle).2

/-- No flush is about to start. -/
def Settled (s : Coalescer C K D) (frames : List (Flush C K D)) : Prop :=
  Sound s frames fun _ => False

/-- The innermost flush is between two values. -/
def Running (s : Coalescer C K D) (f : Flush C K D) (frames : List (Flush C K D)) : Prop :=
  Sound s (f :: frames) fun conn => conn = f.conn

theorem Settled.running (h : Settled s (f :: frames)) : Running s f frames :=
  ⟨h.recorded, h.guarded, h.passes, fun g hg _ => h.untouched g hg id,
    fun conn _ => h.owed conn id⟩

theorem Running.finish (h : Running s f frames) (hdone : yielded = true ∨ Owed s f.conn) :
    Settled (s.finish f yielded) frames := by
  obtain ⟨hpending, hlog, hsets, hclosed, -, htouched, hcontinuations⟩ := finish_eq s f yielded
  refine ⟨h.recorded.congr hpending hlog hsets hclosed, h.guarded.finish, fun g hg => ?_,
    fun g hg hstarts hsingle hnot => ?_, fun conn hstarts hopen hconn => ?_⟩
  · obtain ⟨hle, hpassed, hfirst⟩ := h.passes g (mem_cons_of_mem f hg)
    exact ⟨hpending ▸ hle, hpending ▸ hpassed, hfirst⟩
  · have hother : g.conn ≠ f.conn := fun heq =>
      (nodup_cons.mp h.guarded.nodup).1 (heq ▸ mem_map_of_mem hg)
    rw [Coalescer.holds, hpending]
    exact h.untouched g (mem_cons_of_mem f hg) hother hsingle (htouched ▸ hnot)
  · rw [Owed, hpending, hlog, hcontinuations]
    by_cases heq : conn = f.conn
    · subst heq
      rcases hdone with rfl | howed
      · exact .inr (.inr (JsSet.mem_add.mpr (.inl rfl)))
      · refine howed.imp_right (Or.imp_right fun harmed => ?_)
        split_ifs
        · exact JsSet.mem_add.mpr (.inr harmed)
        · exact harmed
    · have hother : conn ∉ (f :: frames).map Flush.conn := by
        rw [map_cons, mem_cons, not_or]
        exact ⟨heq, hconn⟩
      refine (h.owed conn heq (hclosed ▸ hopen) hother).imp_right (Or.imp_right fun harmed => ?_)
      split_ifs
      · exact JsSet.mem_add.mpr (.inr harmed)
      · exact harmed

/-- The innermost flush goes on to a value that is queued, or with another value of its key. -/
theorem Running.replace (h : Running s f frames) (hconn : f'.conn = f.conn)
    (hsingle : f'.isSingle = f.isSingle) (hlinked : ∀ previous cursor,
      f'.pass = .drain previous cursor → ∃ cursor', f.pass = .drain previous cursor')
    (hpass : InPass s f') (huntouched : f'.isSingle = true → s.singleFlushTouched = false →
      s.holds f'.conn f'.key f'.value = true) : Settled s (f' :: frames) := by
  refine ⟨h.recorded, h.guarded.replace hconn hsingle hlinked, fun g hg => ?_,
    fun g hg hstarts hs hnot => ?_, fun conn hstarts hopen hmem => ?_⟩
  · rcases mem_cons.mp hg with rfl | hg
    · exact hpass
    · exact h.passes g (mem_cons_of_mem f hg)
  · rcases mem_cons.mp hg with rfl | hg
    · exact huntouched hs hnot
    · have hother : g.conn ≠ f.conn := fun heq =>
        (nodup_cons.mp h.guarded.nodup).1 (heq ▸ mem_map_of_mem hg)
      exact h.untouched g (mem_cons_of_mem f hg) hother hs hnot
  · rw [map_cons, hconn] at hmem
    exact h.owed conn (fun heq => hmem (heq ▸ (.head _))) hopen hmem

/-- The flushes that wait are those of a stack. -/
def Stacked (s : Coalescer C K D) : Prop := Settled s s.stack

theorem Running.stacked_finish (h : Running s f s.stack)
    (hdone : yielded = true ∨ Owed s f.conn) : Stacked (s.finish f yielded) := by
  rw [Stacked, (finish_eq s f yielded).2.2.2.2.1]
  exact h.finish hdone

theorem Settled.attempt (h : Settled s (f :: s.stack)) : Stacked (s.attempt f) := by
  rw [Coalescer.attempt]
  split_ifs with hzero
  · exact h.running.stacked_finish (.inl rfl)
  · have hpass := h.passes f (.head _)
    have hnext : Settled s ({ f with remaining := f.remaining - 1 } :: s.stack) :=
      h.running.replace rfl rfl (fun previous cursor heq => ⟨cursor, heq⟩)
        ⟨hpass.cursor_le, hpass.passed, hpass.first⟩
        (h.untouched f (.head _) id)
    exact ⟨hnext.recorded.congr rfl rfl rfl rfl, hnext.guarded.congr rfl rfl rfl rfl,
      fun g hg => ⟨(hnext.passes g hg).cursor_le, (hnext.passes g hg).passed,
        (hnext.passes g hg).first⟩,
      hnext.untouched, hnext.owed⟩

/-- The loop visits the next entry. All before it is gone, unless the loop has given up on one. -/
theorem Running.visit (h : Running s f s.stack) {cursor : ℕ} {pass : ℕ → Pass C K}
    (hgone : f.yielded = false → ∀ key place value,
      (s.pending f.conn).find key = some (place, value) → cursor ≤ place)
    (hcursor : ∀ cursor', Flush.cursor { f with pass := pass cursor' } = cursor')
    (hsingle : ∀ cursor', isSingle { f with pass := pass cursor' } = f.isSingle)
    (hlinked : ∀ cursor' previous cursor'', pass cursor' = .drain previous cursor'' →
      ∃ cursor''', f.pass = .drain previous cursor''')
    (hfirst : ∀ cursor' firstKey, pass cursor' ≠ .single firstKey none) :
    Stacked (s.visit f cursor pass) := by
  have hordered := h.recorded.ordered f.conn
  rw [Coalescer.visit]
  cases hnext : (s.pending f.conn).next cursor with
  | none =>
    refine h.stacked_finish ?_
    cases hyielded : f.yielded with
    | true => exact .inl rfl
    | false =>
      refine .inr (.inl (CursorMap.size_eq_zero fun key => ?_))
      cases hfind : (s.pending f.conn).find key with
      | none => rfl
      | some entry =>
        have hlt := CursorMap.lt_of_next_eq_none hnext hfind
        exact absurd (hgone hyielded key _ _ hfind) (not_le.mpr hlt)
  | some entry =>
    obtain ⟨key, value, cursor'⟩ := entry
    obtain ⟨place, hfind, hplace, hpassed⟩ := CursorMap.find_of_next hordered hnext
    refine Settled.attempt (h.replace rfl (hsingle cursor') (hlinked cursor') ⟨?_,
      fun hyielded k p v hk hlt => ?_, fun firstKey heq => absurd heq (hfirst cursor' firstKey)⟩
      fun _ _ => ?_)
    · change Flush.cursor { f with pass := pass cursor' } ≤ (s.pending f.conn).added
      rw [hcursor, hplace]
      exact hordered.find_lt hfind
    · change p < Flush.cursor { f with pass := pass cursor' } at hlt
      rw [hcursor] at hlt
      rcases hpassed k p v hk hlt with heq | hbefore
      · exact heq
      · exact absurd (hgone hyielded k p v hk) (not_le.mpr hbefore)
    · rw [Coalescer.holds, CursorMap.get_eq_find, hfind]
      simp

/-- The loop goes on. The entry it was at is gone, unless it has given up on one. -/
theorem Running.advance (h : Running s f s.stack)
    (hgone : f.yielded = false → (s.pending f.conn).get f.key = none) :
    Stacked (s.advance f) := by
  have hpass := h.passes f (.head _)
  have hbefore : f.yielded = false → ∀ key place value,
      (s.pending f.conn).find key = some (place, value) → f.cursor ≤ place := by
    intro hyielded key place value hfind
    by_contra hlt
    obtain rfl := hpass.passed hyielded key place value hfind (not_le.mp hlt)
    have hnone := hgone hyielded
    rw [CursorMap.get_eq_find, hfind] at hnone
    cases hnone
  rw [Coalescer.advance]
  cases hloop : f.pass with
  | drain previous cursor =>
    have hcursor : f.cursor = cursor := by rw [Flush.cursor, hloop]
    refine h.visit (hcursor ▸ hbefore) (fun _ => rfl) (fun _ => ?_)
      (fun _ _ _ heq => ⟨cursor, ?_⟩) fun _ _ heq => by cases heq
    · rw [Flush.isSingle, Flush.isSingle, hloop]
    · cases heq
      exact hloop
  | single firstKey rest =>
    have hsingle : ∀ cursor', isSingle { f with pass := .single firstKey (some cursor') } =
        f.isSingle := fun _ => by rw [isSingle, isSingle, hloop]
    cases rest with
    | some cursor =>
      have hcursor : f.cursor = cursor := by rw [Flush.cursor, hloop]
      exact h.visit (hcursor ▸ hbefore) (fun _ => rfl) hsingle
        (fun _ _ _ heq => by cases heq) fun _ _ heq => by cases heq
    | none =>
      simp only
      split_ifs with hempty hskip
      · exact h.stacked_finish (.inr (.inl hempty))
      · -- the first entry is still queued only if the loop has given up on it
        refine h.visit (fun hyielded => ?_) (fun _ => rfl) hsingle
          (fun _ _ _ heq => by cases heq) fun _ _ heq => by cases heq
        have hnone := hgone hyielded
        rw [hpass.first firstKey hloop] at hnone
        rw [hnone] at hskip
        simp at hskip
      · exact h.visit (fun _ _ _ _ _ => Nat.zero_le _) (fun _ => rfl) hsingle
          (fun _ _ _ heq => by cases heq) fun _ _ heq => by cases heq

end

end AdapterWs.Coalesce
