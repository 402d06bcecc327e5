import AdapterWs.Cursor.Tracker

/-!
# The cursor at rest

Whatever a cursor is given last is on its way: a timer holds it, or it was broadcast, or what was
broadcast last has its position. The settle timer alone may let go of a payload, where its position
is that of the last broadcast that had one.
-/

namespace AdapterWs.Cursor

open Binary64 List Option CursorTracker

variable {D : Type} {o : CursorOptions D} {t t' : CursorTracker D} {e : CursorEntry D}
  {move : Move D} {data : D} {now later : ℚ}

/-- The broadcast that waits for the tick. -/
def CursorTracker.dirty (t : CursorTracker D) : Option (Move D) :=
  t.topicFlush.bind TopicFlush.dirty

/-- What was broadcast and what waits for the tick, newest first. -/
def CursorTracker.shown (t : CursorTracker D) : List (Move D) := t.dirty.toList ++ t.sent

/-- A broadcast stands for a payload: it is that payload, or the filter sees no difference. -/
def Shows (o : CursorOptions D) (sent data : D) : Prop :=
  sent = data ∨ (0 < o.minMove ∧ ∃ p, o.finitePosition sent = some p ∧ o.finitePosition data = some p)

/-- A broadcast is of the payload its call had. -/
def Genuine (received : List D) (move : Move D) : Prop :=
  received.reverse[move.call]? = some move.data

theorem Genuine.call_lt {received : List D} (h : Genuine received move) :
    move.call < received.length := by
  obtain ⟨hlt, -⟩ := List.getElem?_eq_some_iff.mp h
  rwa [length_reverse] at hlt

theorem Genuine.cons {received : List D} (h : Genuine received move) (data : D) :
    Genuine (data :: received) move := by
  have hlt : move.call < received.reverse.length := by
    rw [length_reverse]
    exact h.call_lt
  rw [Genuine, reverse_cons, getElem?_append_left hlt]
  exact h

theorem genuine_last (received : List D) (data : D) :
    Genuine (data :: received) ⟨received.length, data⟩ := by
  rw [Genuine, reverse_cons, ← length_reverse]
  exact getElem?_concat_length

/-- The broadcasts are of the payloads of their calls, and none is older than one before. -/
structure Ordered (received : List D) (shown : List (Move D)) : Prop where
  genuine : ∀ move ∈ shown, Genuine received move
  ordered : shown.Pairwise fun newer older => older.call ≤ newer.call

theorem ordered_nil (received : List D) : Ordered received [] :=
  ⟨forall_mem_nil _, .nil⟩

theorem Ordered.received {received : List D} {shown : List (Move D)} (h : Ordered received shown)
    (data : D) : Ordered (data :: received) shown :=
  ⟨fun move hmem => (h.genuine move hmem).cons data, h.ordered⟩

theorem Ordered.sublist {received : List D} {shown shown' : List (Move D)}
    (h : Ordered received shown) (hsub : shown'.Sublist shown) : Ordered received shown' :=
  ⟨fun move hmem => h.genuine move (hsub.subset hmem), h.ordered.sublist hsub⟩

theorem Ordered.cons {rest : List D} {shown : List (Move D)}
    (h : Ordered (data :: rest) shown) : Ordered (data :: rest) (⟨rest.length, data⟩ :: shown) := by
  refine ⟨fun move hmem => ?_, pairwise_cons.mpr ⟨fun move hmem => ?_, h.ordered⟩⟩
  · rcases mem_cons.mp hmem with rfl | hmem
    · exact genuine_last rest data
    · exact h.genuine move hmem
  · have hlt := (h.genuine move hmem).call_lt
    rw [length_cons] at hlt
    exact Nat.le_of_lt_succ hlt

theorem sublist_shown (t : CursorTracker D) : t.sent.Sublist t.shown :=
  sublist_append_right _ _

/-! ## The invariant -/

/-- A cursor and what was broadcast of it last. -/
structure Resting (o : CursorOptions D) (e : CursorEntry D) (newest : Option (Move D)) : Prop where
  /-- Nothing holds the last payload: what was broadcast last stands for it. -/
  shown : e.timer = false → e.settleTimer = false →
    ∃ move, newest = some move ∧ Shows o move.data e.data.data
  /-- The filter measures from the last broadcast, if that has a position. -/
  anchor : ∀ move p, newest = some move → o.posOf move.data = some p → e.lastSentPos = some p
  settling : e.settleTimer = true →
    e.timer = false ∧ 0 < o.minMove ∧ newest.isSome ∧ (o.finitePosition e.data.data).isSome
  sentPos : e.lastSentPos.isSome → newest.isSome

/-- The state of a tracker. -/
structure Coherent (o : CursorOptions D) (t : CursorTracker D) : Prop where
  ordered : Ordered t.received t.shown
  data : ∀ e, t.entry = some e → ∃ data rest, t.received = data :: rest ∧
    e.data = ⟨rest.length, data⟩
  fresh : t.entry = none → t.received = []
  waiting : ∀ move, t.dirty = some move →
    0 < o.topicThrottle ∧ t.dirtyTopic = true ∧ t.tickTimer = true
  resting : ∀ e, t.entry = some e → Resting o e t.shown.head?

theorem dirty_broadcast (move : Move D) (now : ℚ) : (t.broadcast o move now).dirty =
    if o.topicThrottle ≤ 0 then t.dirty else some move := by
  rw [broadcast]
  split_ifs <;> rfl

theorem broadcast_eq (move : Move D) (now : ℚ) : (t.broadcast o move now).entry = t.entry ∧
    (t.broadcast o move now).received = t.received := by
  rw [broadcast]
  split_ifs <;> exact ⟨rfl, rfl⟩

theorem shown_broadcast (hwaiting : ∀ move, t.dirty = some move → 0 < o.topicThrottle)
    (move : Move D) (now : ℚ) : (t.broadcast o move now).shown = move :: t.sent := by
  rw [shown, dirty_broadcast, broadcast]
  split_ifs with hzero
  · cases hdirty : t.dirty with
    | none => rfl
    | some waiting => exact absurd (hwaiting waiting hdirty) (not_lt.mpr hzero)
  · rfl

theorem Coherent.broadcast {rest : List D} (hordered : Ordered t.received t.shown)
    (hwaiting : ∀ move, t.dirty = some move → 0 < o.topicThrottle ∧ t.dirtyTopic = true ∧
      t.tickTimer = true)
    (hentry : t.entry = some e) (hreceived : t.received = data :: rest)
    (hdata : e.data = ⟨rest.length, data⟩) (htimer : e.settleTimer = false)
    (hanchor : ∀ p, o.posOf data = some p → e.lastSentPos = some p) (now : ℚ) :
    Coherent o (t.broadcast o e.data now) := by
  have hshown := shown_broadcast (fun move hdirty => (hwaiting move hdirty).1) e.data now
  obtain ⟨hentry', hreceived'⟩ := broadcast_eq (o := o) (t := t) e.data now
  have hdirty := dirty_broadcast (o := o) (t := t) e.data now
  refine ⟨?_, fun e' he' => ?_, fun hnone => ?_, fun move hmove => ?_, fun e' he' => ?_⟩
  · rw [hshown, hreceived', hreceived, hdata]
    exact ((hreceived ▸ hordered).sublist (sublist_shown t)).cons
  · rw [hentry', hentry] at he'
    cases he'
    exact ⟨data, rest, hreceived'.trans hreceived, hdata⟩
  · rw [hentry', hentry] at hnone
    cases hnone
  · rw [hdirty] at hmove
    rw [CursorTracker.broadcast]
    split_ifs at hmove ⊢ with hzero
    · exact hwaiting move hmove
    · exact ⟨not_le.mp hzero, rfl, rfl⟩
  · rw [hentry', hentry] at he'
    cases he'
    rw [hshown, head?_cons]
    refine ⟨fun _ _ => ⟨e.data, rfl, .inl rfl⟩, fun move p hmove hp => ?_, fun hsettle => ?_,
      fun _ => rfl⟩
    · cases hmove
      rw [hdata] at hp
      exact hanchor p hp
    · exact absurd hsettle (Bool.eq_false_iff.mp htimer)

/-! ## The calls and the timers -/

theorem posOf_of_pos (hpos : 0 < o.minMove) (data : D) : o.posOf data = o.finitePosition data :=
  if_pos hpos

theorem anchored_sent (data : D) (lastSentPos : Option Point) (p : Point)
    (hp : o.posOf data = some p) : (o.posOf data <|> lastSentPos) = some p := by
  rw [hp]
  rfl

/-- The filter drops a position near the last one that was sent. -/
theorem of_drops {pos lastSentPos : Option Point} (h : o.drops pos lastSentPos = true) :
    pos.isSome ∧ lastSentPos.isSome := by
  cases pos with
  | none => cases h
  | some p =>
    cases lastSentPos with
    | none => cases h
    | some q => exact ⟨rfl, rfl⟩

theorem pos_of_posOf (h : (o.posOf data).isSome) : 0 < o.minMove ∧
    (o.finitePosition data).isSome := by
  rw [CursorOptions.posOf] at h
  split_ifs at h with hpos
  · exact ⟨hpos, h⟩
  · cases h

/-- A cursor that a call finds: its entry, or a new one. -/
structure Found (o : CursorOptions D) (e : CursorEntry D) (newest : Option (Move D)) : Prop where
  anchor : ∀ move p, newest = some move → o.posOf move.data = some p → e.lastSentPos = some p
  sentPos : e.lastSentPos.isSome → newest.isSome
  settleTimer : e.settleTimer = false

section

variable (h : Coherent o t)
include h

/-- `update` disarms the settle timer before it reads the position. -/
theorem Coherent.found (move : Move D) :
    Found o (if 0 < o.minMove
      then { t.entry.getD ⟨move, 0, false, none, false⟩ with settleTimer := false }
      else t.entry.getD ⟨move, 0, false, none, false⟩) t.shown.head? := by
  cases hentry : t.entry with
  | none =>
    have hnone : t.shown.head? = none := by
      cases hshown : t.shown with
      | nil => rfl
      | cons newest rest =>
        have hlt := (h.ordered.genuine newest (hshown ▸ (.head _))).call_lt
        rw [h.fresh hentry] at hlt
        exact absurd hlt (Nat.not_lt_zero _)
    rw [hnone]
    refine ⟨fun _ _ hsome => absurd hsome.symm (some_ne_none _), ?_, ?_⟩
    · split_ifs <;> exact id
    · split_ifs <;> rfl
  | some e =>
    have hresting := h.resting e hentry
    by_cases hpos : 0 < o.minMove
    · rw [if_pos hpos]
      exact ⟨hresting.anchor, hresting.sentPos, rfl⟩
    · rw [if_neg hpos]
      refine ⟨hresting.anchor, hresting.sentPos, Bool.eq_false_iff.mpr fun hsettle => ?_⟩
      exact hpos (hresting.settling hsettle).2.1

theorem Coherent.stored (hreceived : t'.received = data :: t.received)
    (hflush : t'.topicFlush = t.topicFlush) (hsent : t'.sent = t.sent)
    (hdirty : t'.dirtyTopic = t.dirtyTopic) (htick : t'.tickTimer = t.tickTimer)
    (hentry : t'.entry = some e) (hdata : e.data = ⟨t.received.length, data⟩)
    (hresting : Resting o e t.shown.head?) : Coherent o t' := by
  have hdirty' : t'.dirty = t.dirty := by rw [dirty, hflush, dirty]
  have hshown : t'.shown = t.shown := by
    rw [shown, hdirty', hsent, shown]
  refine ⟨?_, fun e' he' => ?_, fun hnone => ?_, fun move hmove => ?_, fun e' he' => ?_⟩
  · rw [hreceived, hshown]
    exact h.ordered.received data
  · rw [hentry] at he'
    cases he'
    exact ⟨data, t.received, hreceived, hdata⟩
  · rw [hentry] at hnone
    cases hnone
  · rw [hdirty'] at hmove
    rw [hdirty, htick]
    exact h.waiting move hmove
  · rw [hentry] at he'
    cases he'
    rw [hshown]
    exact hresting

theorem Coherent.clock (now : ℚ) : Coherent o { t with clock := now } :=
  ⟨h.ordered, h.data, h.fresh, h.waiting, h.resting⟩

theorem Coherent.update (data : D) (now later : ℚ) : Coherent o (t.update o data now later) := by
  rw [CursorTracker.update]
  split
  · exact h.clock now
  · simp only
    have hfound := h.found ⟨t.received.length, data⟩
    generalize (if 0 < o.minMove
      then { t.entry.getD ⟨⟨t.received.length, data⟩, 0, false, none, false⟩ with
        settleTimer := false }
      else t.entry.getD ⟨⟨t.received.length, data⟩, 0, false, none, false⟩) = e at hfound ⊢
    by_cases hdrops : o.drops (o.posOf data) e.lastSentPos = true
    · -- the payload is held by the trailing timer or by the settle timer
      rw [if_pos hdrops]
      obtain ⟨hpos, hsent⟩ := of_drops hdrops
      obtain ⟨hminMove, hfinite⟩ := pos_of_posOf hpos
      refine h.stored rfl rfl rfl rfl rfl rfl rfl ⟨fun htimer hsettle => ?_, hfound.anchor,
        fun hsettle => ?_, hfound.sentPos⟩
      · simp only at htimer hsettle
        rw [htimer] at hsettle
        cases hsettle
      · simp only [Bool.not_eq_true'] at hsettle
        exact ⟨hsettle, hminMove, hfound.sentPos hsent, hfinite⟩
    · rw [if_neg hdrops]
      split
      · refine Coherent.broadcast (e := ⟨⟨t.received.length, data⟩, now, false,
          o.posOf data <|> e.lastSentPos, e.settleTimer⟩) ?_ ?_ rfl rfl rfl hfound.settleTimer
          (anchored_sent data _) later
        · exact h.ordered.received data
        · exact h.waiting
      · refine h.stored rfl rfl rfl rfl rfl rfl rfl ⟨fun htimer => ?_, hfound.anchor,
          fun hsettle => ?_, hfound.sentPos⟩
        · cases htimer.symm
        · exact absurd hsettle (Bool.eq_false_iff.mp hfound.settleTimer)

theorem Coherent.trailing (hentry : t.entry = some e) (htimer : e.timer = true) (now later : ℚ) :
    Coherent o (t.trailing o e now later) := by
  obtain ⟨data, rest, hreceived, hdata⟩ := h.data e hentry
  have hsettle : e.settleTimer = false := Bool.eq_false_iff.mpr fun hsettle => by
    rw [((h.resting e hentry).settling hsettle).1] at htimer
    cases htimer
  refine Coherent.broadcast (e := ⟨e.data, now, false, o.posOf e.data.data <|> e.lastSentPos,
    e.settleTimer⟩) ?_ ?_ rfl ?_ hdata hsettle (fun p hp => ?_) later
  · exact h.ordered
  · exact h.waiting
  · exact hreceived
  · rw [hdata]
    exact anchored_sent data _ p hp

end

/-- The settle timer goes by the last broadcast that had a position, and so it may only if the last
broadcast had one. -/
def SettlesByLast (o : CursorOptions D) (t : CursorTracker D) (e : CursorEntry D) : Prop :=
  o.finitePosition e.data.data = e.lastSentPos →
    ∀ move, t.shown.head? = some move → (o.finitePosition move.data).isSome

theorem Coherent.settle (h : Coherent o t) (hentry : t.entry = some e)
    (hsettle : e.settleTimer = true) (hlast : SettlesByLast o t e) (now later : ℚ) :
    Coherent o (t.settle o e now later) := by
  obtain ⟨data, rest, hreceived, hdata⟩ := h.data e hentry
  have hresting := h.resting e hentry
  obtain ⟨htimer, hpos, hnewest, hfinite⟩ := hresting.settling hsettle
  have hposOf := posOf_of_pos hpos
  rw [CursorTracker.settle]
  simp only
  split_ifs with hmoved
  · refine Coherent.broadcast (e := ⟨e.data, now, e.timer, o.finitePosition e.data.data, false⟩)
      ?_ ?_ rfl ?_ hdata rfl (fun p hp => ?_) later
    · exact h.ordered
    · exact h.waiting
    · exact hreceived
    · rw [hposOf] at hp
      simp only [hdata]
      exact hp
  · -- the position is the one that was sent last, by the last broadcast
    have hsame : o.finitePosition e.data.data = e.lastSentPos := by
      by_contra hne
      exact hmoved ⟨hfinite, hne⟩
    refine ⟨h.ordered, fun e' he' => ?_, fun hnone => ?_, h.waiting, fun e' he' => ?_⟩
    · cases he'
      exact ⟨data, rest, hreceived, hdata⟩
    · cases hnone
    · cases he'
      obtain ⟨move, hmove⟩ := isSome_iff_exists.mp hnewest
      obtain ⟨p, hp⟩ := isSome_iff_exists.mp (hlast hsame move hmove)
      have hanchor := hresting.anchor move p hmove (by rw [hposOf, hp])
      refine ⟨fun _ _ => ⟨move, hmove, .inr ⟨hpos, p, hp, hsame.trans hanchor⟩⟩, hresting.anchor,
        fun hnever => absurd hnever Bool.false_ne_true, hresting.sentPos⟩

/-- A tick sends what waits, and what was broadcast last is the same. -/
theorem Coherent.tick (h : Coherent o t) (now : ℚ) : Coherent o (t.tick o now) := by
  have hkept : ∀ t' : CursorTracker D, t'.shown = t.shown → t'.received = t.received →
      t'.entry = t.entry → (∀ move, t'.dirty = some move → t.dirty = some move ∧
        t'.dirtyTopic = true ∧ t'.tickTimer = true) → Coherent o t' := by
    intro t' hshown hreceived hentry hwaiting
    refine ⟨?_, fun e he => ?_, fun hnone => ?_, fun move hmove => ?_, fun e he => ?_⟩
    · rw [hshown, hreceived]
      exact h.ordered
    · rw [hreceived]
      exact h.data e (hentry ▸ he)
    · rw [hreceived]
      exact h.fresh (hentry ▸ hnone)
    · obtain ⟨hdirty, hwaits⟩ := hwaiting move hmove
      exact ⟨(h.waiting move hdirty).1, hwaits⟩
    · rw [hshown]
      exact h.resting e (hentry ▸ he)
  cases hdirty : t.dirty with
  | none =>
    have hidle : t.tick o now = { t with
        clock := now
        tickTimer := false
        dirtyTopic := false } := by
      rw [CursorTracker.tick]
      cases htopic : t.dirtyTopic with
      | false => simp
      | true =>
        cases hflush : t.topicFlush with
        | none => simp
        | some state =>
          have hstate : state.dirty = none := by
            rw [dirty, hflush] at hdirty
            exact hdirty
          simp [hstate]
    rw [hidle]
    refine hkept _ rfl rfl rfl fun move hmove => ?_
    have hnone : some move = none := hmove.symm.trans hdirty
    cases hnone
  | some waits =>
    obtain ⟨-, htopic, -⟩ := h.waiting waits hdirty
    cases hflush : t.topicFlush with
    | none =>
      rw [dirty, hflush] at hdirty
      cases hdirty.symm
    | some state =>
      have hstate : state.dirty = some waits := by
        rw [dirty, hflush] at hdirty
        exact hdirty
      rw [CursorTracker.tick]
      simp only [htopic, hflush, hstate, Bool.not_true, Bool.false_eq_true, if_false]
      by_cases hdue : nearest (state.lastFlush + o.topicThrottle) ≤ now
      · rw [if_pos hdue]
        refine hkept _ ?_ rfl rfl fun move hmove => ?_
        · rw [shown, shown, hdirty]
          rfl
        · cases hmove.symm
      · rw [if_neg hdue]
        refine hkept _ ?_ rfl rfl fun move hmove => ⟨?_, rfl, rfl⟩
        · rw [shown, shown, dirty,
            dirty, hflush]
        · rw [dirty, hflush]
          exact hmove

/-! ## Runs -/

/-- A step where the settle timer, if it fires, goes by the last broadcast. -/
def Anchored (o : CursorOptions D) (t : CursorTracker D) : TrackerEvent D → Prop
  | .settle _ _ => ∀ e, t.entry = some e → SettlesByLast o t e
  | _ => True

/-- No timer is armed. -/
def CursorTracker.Idle (t : CursorTracker D) : Prop :=
  (∀ e, t.entry = some e → e.timer = false ∧ e.settleTimer = false) ∧ t.tickTimer = false

/-- What the tracker promises: the last broadcast of an idle tracker stands for the last payload,
and no broadcast is older than one before it. -/
structure AtRest (o : CursorOptions D) (t : CursorTracker D) : Prop where
  final : t.Idle → ∀ data, t.received.head? = some data →
    ∃ move, t.sent.head? = some move ∧ Shows o move.data data
  genuine : ∀ move ∈ t.sent, Genuine t.received move
  ordered : t.sent.Pairwise fun newer older => older.call ≤ newer.call

theorem Coherent.atRest (h : Coherent o t) : AtRest o t := by
  have hsent := h.ordered.sublist (sublist_shown t)
  refine ⟨fun hidle data hdata => ?_, hsent.genuine, hsent.ordered⟩
  have hnone : t.dirty = none := by
    cases hdirty : t.dirty with
    | none => rfl
    | some move =>
      have htick := (h.waiting move hdirty).2.2
      rw [hidle.2] at htick
      cases htick
  have hshown : t.shown = t.sent := by rw [shown, hnone]; rfl
  cases hentry : t.entry with
  | none =>
    rw [h.fresh hentry] at hdata
    cases hdata.symm
  | some e =>
    obtain ⟨last, rest, hreceived, hlast⟩ := h.data e hentry
    obtain ⟨htimer, hsettle⟩ := hidle.1 e hentry
    obtain ⟨move, hmove, hdelivers⟩ := (h.resting e hentry).shown htimer hsettle
    rw [hreceived] at hdata
    cases hdata
    rw [hlast] at hdelivers
    exact ⟨move, hshown ▸ hmove, hdelivers⟩

/-- In a run whose settle timers go by the last broadcast, the cursor comes to rest where it is. -/
theorem atRest_of_anchored (o : CursorOptions D) (clock : ℚ) {es : List (TrackerEvent D)}
    {t : CursorTracker D} (h : (cursorTrackerMachine o clock).ReachesWhere (Anchored o) es t) :
    AtRest o t := by
  have hcoherent : Coherent o t := by
    refine h.invariant (I := Coherent o) ?_ fun t e t' ht hanchored hstep => ?_
    · exact ⟨ordered_nil [], fun e he => absurd he.symm (some_ne_none e), fun _ => rfl,
        fun move hmove => absurd hmove.symm (some_ne_none move),
        fun e he => absurd he.symm (some_ne_none e)⟩
    cases e with
    | update data now later =>
      obtain ⟨-, ⟨⟩⟩ := ite_none_right_eq_some.mp hstep
      exact ht.update data now later
    | trailing now later =>
      simp only [cursorTrackerMachine, step, bind_eq_some_iff,
        ite_none_right_eq_some] at hstep
      obtain ⟨e, hentry, ⟨htimer, -⟩, hstep⟩ := hstep
      cases hstep
      exact ht.trailing hentry htimer now later
    | settle now later =>
      simp only [cursorTrackerMachine, step, bind_eq_some_iff,
        ite_none_right_eq_some] at hstep
      obtain ⟨e, hentry, ⟨hsettle, -⟩, hstep⟩ := hstep
      cases hstep
      exact ht.settle hentry hsettle (hanchored e hentry) now later
    | tick now =>
      obtain ⟨-, ⟨⟩⟩ := ite_none_right_eq_some.mp hstep
      exact ht.tick now
  exact hcoherent.atRest

instance instDecidableAnchored (o : CursorOptions D) (t : CursorTracker D) :
    (e : TrackerEvent D) → Decidable (Anchored o t e)
  | .settle _ _ =>
    inferInstanceAs (Decidable (∀ e ∈ t.entry, o.finitePosition e.data.data = e.lastSentPos →
      ∀ move ∈ t.shown.head?, (o.finitePosition move.data).isSome = true))
  | .update .. | .trailing .. | .tick _ => .isTrue trivial

theorem frame_nonneg : (0 : ℚ) ≤ 16 := by norm_num

theorem step_nonneg : (0 : ℚ) ≤ 2 := by norm_num

/-- A frame of the display for the cursor and for the topic, and moves of two units. Payloads are
positions or have none. -/
def frameOptions : CursorOptions (Option Point) :=
  ⟨16, 16, 2, id, fun _ => true, frame_nonneg, frame_nonneg, step_nonneg⟩

/-- A move at once, one that waits for the end of the window, a payload without a position, and a
short move that settles. -/
def settledRun : List (TrackerEvent (Option Point)) :=
  [.update (some ⟨0, 0⟩) 100 100, .tick 100, .update (some ⟨5, 0⟩) 104 104, .trailing 116 116,
    .tick 120, .update none 140 141, .tick 141, .update (some ⟨6, 0⟩) 150 150, .settle 166 166,
    .tick 170]

theorem atRest_of_anchored_settledRun : ∃ t,
    (cursorTrackerMachine frameOptions 0).ReachesWhere (Anchored frameOptions) settledRun t ∧
      AtRest frameOptions t ∧ t.sent.map Move.data =
        [some ⟨6, 0⟩, none, some ⟨5, 0⟩, some ⟨0, 0⟩] :=
  Machine.exists_and_of_execWhere (by decide +kernel) fun _ ht _ => atRest_of_anchored _ _ ht

/-! ## A rest that is not sent -/

/-- No throttles, and moves of two units. -/
def unthrottled : CursorOptions (Option Point) :=
  ⟨0, 0, 2, id, fun _ => true, le_refl _, le_refl _, step_nonneg⟩

/-- A position, a payload without one, and the position again. -/
def strandedRun : List (TrackerEvent (Option Point)) :=
  [.update (some ⟨0, 0⟩) 100 100, .update none 200 200, .update (some ⟨0, 0⟩) 300 300,
    .settle 316 316]

/-- The filter measures from the last position, whatever was broadcast after it. -/
theorem not_atRest_strandedRun :
    ¬∀ (o : CursorOptions (Option Point)) (clock : ℚ) (es : List (TrackerEvent (Option Point)))
      (t : CursorTracker (Option Point)), (cursorTrackerMachine o clock).Reaches es t →
        AtRest o t := by
  intro hall
  obtain ⟨t, ht, htimers, htick, hreceived, hsent⟩ : ∃ t,
      (cursorTrackerMachine unthrottled 0).Reaches strandedRun t ∧ (∀ e ∈ t.entry, e.timer = false ∧
      e.settleTimer = false) ∧ t.tickTimer = false ∧ t.received.head? = some (some ⟨0, 0⟩) ∧
      t.sent.head?.map Move.data = some none :=
    Machine.exists_of_exec (by decide +kernel)
  obtain ⟨move, hmove, hdelivers⟩ :=
    (hall _ _ _ _ ht).final ⟨fun e he => htimers e he, htick⟩ _ hreceived
  rw [hmove, map_some] at hsent
  have hnone : move.data = none := some.inj hsent
  rw [hnone] at hdelivers
  rcases hdelivers with hsame | ⟨-, p, hp, -⟩
  · cases hsame.symm
  · cases hp.symm

end AdapterWs.Cursor
