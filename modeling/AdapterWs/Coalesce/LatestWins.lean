import AdapterWs.Coalesce.Flushing

/-!
# The latest value wins

Over every run of calls, drain callbacks and timers, with serializers that call again and sockets
that answer as they like, a value is accepted at most once, what is sent is the newest value of its
key, and a value that is not accepted stays queued and is owed a flush.
-/

namespace AdapterWs.Coalesce

open JsString List Option CursorMap

variable {C K D : Type} [DecidableEq C] [DecidableEq K] {s s' : Coalescer C K D}
  {f : Flush C K D} {frames : List (Flush C K D)} {conn : C} {key : K} {status : SendStatus}

/-! ## A write -/

omit [DecidableEq C] [DecidableEq K] in
/-- The flush of the shared variable is the one of `flushSingleCoalesced`. -/
theorem Guarded.isSingle (h : Guarded s frames) (hf : f ∈ frames)
    (hpending : s.singleFlushPending = some f.conn) : f.isSingle = true := by
  have hmem : f.conn ∈ frames.filterMap Flush.singles := by
    rw [h.single, hpending]
    exact mem_singleton_self _
  obtain ⟨g, hg, hsingles⟩ := mem_filterMap.mp hmem
  rw [Flush.singles] at hsingles
  split_ifs at hsingles with hsingle
  obtain rfl := inj_on_of_nodup_map h.nodup hg hf (some.inj hsingles)
  exact hsingle

/-- A value that a serializer has replaced is passed over. -/
theorem Settled.superseded (h : Settled s (f :: s.stack)) (hsup : s.superseded f = true) :
    Stacked (s.afterWrite f .sent) := by
  simp only [Coalescer.superseded, Bool.and_eq_true, Bool.not_eq_true', Bool.or_eq_true,
    decide_eq_true_eq] at hsup
  obtain ⟨hguard, hnot⟩ := hsup
  have htouched : f.isSingle = true → s.singleFlushTouched = true := fun hsingle =>
    hguard.resolve_left fun hne => hne (h.guarded.single_of_mem (.head _) hsingle)
  have hkept : ¬((f.isSingle && !s.singleFlushTouched) || s.holds f.conn f.key f.value) = true := by
    rw [hnot, Bool.or_false, Bool.and_eq_true, Bool.not_eq_true']
    rintro ⟨hsingle, huntouched⟩
    rw [htouched hsingle] at huntouched
    cases huntouched
  have hpass := h.passes f (.head _)
  rw [Coalescer.afterWrite, if_neg (by decide), if_neg hkept, if_neg (by decide)]
  cases hget : (s.pending f.conn).get f.key with
  | none => exact h.running.advance fun _ => hget
  | some value =>
    simp only
    split_ifs with hretried
    · -- the loop gives up on the key until the timer
      have hyielded : Settled s ({ f with yielded := true } :: s.stack) :=
        h.running.replace rfl rfl (fun previous cursor heq => ⟨cursor, heq⟩)
          ⟨hpass.cursor_le, fun hno => (Bool.noConfusion hno), hpass.first⟩
          (h.untouched f (.head _) id)
      exact hyielded.running.advance fun hno => Bool.noConfusion hno
    · refine Settled.attempt (h.running.replace rfl rfl
        (fun previous cursor heq => ⟨cursor, heq⟩) ⟨hpass.cursor_le, hpass.passed, hpass.first⟩
        fun hsingle huntouched => ?_)
      rw [htouched hsingle] at huntouched
      cases huntouched

omit [DecidableEq K] in
theorem lastStatus_send (log : List (LogEntry C K)) (c : C) (k : K) (n : ℕ)
    (status : SendStatus) (conn : C) : lastStatus (.send c k n status :: log) conn =
      if c = conn then some status else lastStatus log conn := by
  by_cases heq : c = conn <;> simp [lastStatus, heq]

/-- The flush has sent its value, and has taken it out if it was accepted. -/
theorem Settled.sent (h : Settled s (f :: frames)) (hholds : s.holds f.conn f.key f.value = true)
    (hpending : s'.pending = if status = .dropped then s.pending
      else (s.store f.conn ((s.pending f.conn).delete f.key)).pending)
    (hlog : s'.log = .send f.conn f.key f.value.serial status :: s.log) (hsets : s'.sets = s.sets)
    (hclosed : s'.closed = s.closed)
    (hcontinuations : s'.coalescedContinuations = s.coalescedContinuations)
    (htouched : s'.singleFlushTouched = s.singleFlushTouched)
    (hguarded : Guarded s' (f :: frames)) :
    Running s' f frames := by
  obtain ⟨entry, hget, hserial⟩ := map_eq_some_iff.mp (of_decide_eq_true hholds)
  have hrecorded : Recorded s' :=
    h.recorded.sent hget status hpending (hserial ▸ hlog) hsets hclosed
  have hother : ∀ c, c ≠ f.conn → s'.pending c = s.pending c := by
    intro c hne
    rw [hpending]
    split_ifs
    · rfl
    · rw [pending_store, if_neg (Ne.symm hne)]
  have hadded : (s'.pending f.conn).added = (s.pending f.conn).added := by
    rw [hpending]
    split_ifs
    · rfl
    · rw [pending_store, if_pos rfl]
      rfl
  have hfind : ∀ k place value, (s'.pending f.conn).find k = some (place, value) →
      (s.pending f.conn).find k = some (place, value) := by
    intro k place value hfind
    rw [hpending] at hfind
    split_ifs at hfind
    · exact hfind
    · rw [pending_store, if_pos rfl, find_delete] at hfind
      split_ifs at hfind
      exact hfind
  have hne : ∀ g ∈ frames, g.conn ≠ f.conn := fun g hg heq =>
    (nodup_cons.mp h.guarded.nodup).1 (heq ▸ mem_map_of_mem hg)
  refine ⟨hrecorded, hguarded, fun g hg => ?_, fun g hg hstarts hsingle hnot => ?_,
    fun c hstarts hopen hmem => ?_⟩
  · rcases mem_cons.mp hg with rfl | hg
    · obtain ⟨hle, hpassed, hfirst⟩ := h.passes g (.head _)
      exact ⟨hadded ▸ hle, fun hyielded k place value hk =>
        hpassed hyielded k place value (hfind k place value hk), hfirst⟩
    · obtain ⟨hle, hpassed, hfirst⟩ := h.passes g (mem_cons_of_mem f hg)
      have hsame := hother g.conn (hne g hg)
      exact ⟨hsame ▸ hle, hsame ▸ hpassed, hfirst⟩
  · rcases mem_cons.mp hg with rfl | hg
    · exact absurd rfl hstarts
    · rw [Coalescer.holds, hother g.conn (hne g hg)]
      exact h.untouched g (mem_cons_of_mem f hg) id hsingle (htouched ▸ hnot)
  · rw [Owed, hother c hstarts, hcontinuations, hlog, lastStatus_send, if_neg (Ne.symm hstarts)]
    exact h.owed c id (hclosed ▸ hopen) hmem

theorem Settled.serialized (h : Settled s (f :: s.stack)) (status : SendStatus) :
    Stacked (s.serialized f status) := by
  rw [Coalescer.serialized]
  split_ifs with hsup
  · exact h.superseded hsup
  · have hholds : s.holds f.conn f.key f.value = true := by
      by_contra hnot
      have hfalse : s.holds f.conn f.key f.value = false := Bool.eq_false_iff.mpr hnot
      simp only [Coalescer.superseded, hfalse, Bool.not_false, Bool.and_true, Bool.or_eq_true,
        decide_eq_true_eq, not_or, not_not, Bool.not_eq_true] at hsup
      obtain ⟨hpending, htouched⟩ := hsup
      exact hnot (h.untouched f (.head _) id
        (h.guarded.isSingle (.head _) hpending) htouched)
    have howed : status ≠ .sent → ∀ s' : Coalescer C K D,
        s'.log = .send f.conn f.key f.value.serial status :: s.log → Owed s' f.conn := by
      intro hne s' hlog
      refine .inr (.inl ⟨status, ?_, hne⟩)
      rw [hlog, lastStatus_send, if_pos rfl]
    rw [Coalescer.afterWrite]
    by_cases hdropped : status = .dropped
    · subst hdropped
      rw [if_pos rfl]
      refine Running.stacked_finish ?_ (.inr (howed (by decide) _ rfl))
      exact h.sent hholds (by rw [if_pos rfl]) rfl rfl rfl rfl rfl
        (h.guarded.congr rfl rfl rfl rfl)
    · have hcondition : ((f.isSingle && !s.singleFlushTouched) ||
          s.holds f.conn f.key f.value) = true := by rw [hholds, Bool.or_true]
      rw [if_neg hdropped]
      change Stacked (if ((f.isSingle && !s.singleFlushTouched) ||
        s.holds f.conn f.key f.value) = true then _ else _)
      rw [if_pos hcondition]
      -- an accepted value is taken out
      have hrunning : ∀ s' : Coalescer C K D,
          s' = { s with log := .send f.conn f.key f.value.serial status :: s.log }.store f.conn
            ((s.pending f.conn).delete f.key) → Running s' f s.stack := by
        rintro s' rfl
        exact h.sent hholds (by rw [if_neg hdropped]; rfl) rfl rfl rfl rfl rfl
          (h.guarded.congr rfl rfl rfl rfl)
      split_ifs with henqueued
      · refine (hrunning _ rfl).stacked_finish (.inr (howed (by rw [henqueued]; decide) _ rfl))
      · refine (hrunning _ rfl).advance fun _ => ?_
        rw [pending_store, if_pos rfl, get_delete, if_pos rfl]

/-! ## A flush starts -/

theorem Sound.settled (h : Sound s frames (· = conn))
    (huntouched : ∀ f ∈ frames, f.conn = conn → f.isSingle = true →
      s.singleFlushTouched = false → s.holds f.conn f.key f.value = true)
    (howed : s.closed conn = false → conn ∉ frames.map Flush.conn → Owed s conn) :
    Settled s frames := by
  refine ⟨h.recorded, h.guarded, h.passes, fun f hf _ hsingle hnot => ?_,
    fun c _ hopen hmem => ?_⟩
  · by_cases heq : f.conn = conn
    · exact huntouched f hf heq hsingle hnot
    · exact h.untouched f hf heq hsingle hnot
  · by_cases heq : c = conn
    · subst heq
      exact howed hopen hmem
    · exact h.owed c heq hopen hmem

omit [DecidableEq C] [DecidableEq K] in
theorem drainsOf_drain (hpass : ∃ previous cursor, f.pass = .drain previous cursor) :
    drainsOf (f :: frames) = f.conn :: drainsOf frames := by
  obtain ⟨previous, cursor, hpass⟩ := hpass
  rw [drainsOf_cons, Flush.drains, Flush.isSingle, hpass]
  rfl

omit [DecidableEq K] in
theorem Guarded.drain (h : Guarded s frames) {cursor : ℕ} (hfresh : conn ∉ frames.map Flush.conn)
    (hconn : f.conn = conn) (hpass : f.pass = .drain s.drainingCoalesced cursor) :
    Guarded { s with
      coalescedDrainDepth := s.coalescedDrainDepth + 1
      drainingCoalesced := some conn
      parentDrains := s.drainingCoalesced.elim s.parentDrains s.parentDrains.add }
        (f :: frames) := by
  have hdrains : drainsOf (f :: frames) = f.conn :: drainsOf frames :=
    drainsOf_drain ⟨_, _, hpass⟩
  have hsingles : f.singles = none := by rw [Flush.singles, Flush.isSingle, hpass]; rfl
  refine ⟨?_, ?_, ?_, ?_, fun c => ?_, fun previous cursor' heq => ?_, h.linked⟩
  · rw [map_cons, hconn]
    exact nodup_cons.mpr ⟨hfresh, h.nodup⟩
  · rw [singles_cons, hsingles]
    exact h.single
  · rw [hdrains, length_cons, ← h.depth]
  · rw [hdrains, hconn]
    rfl
  · rw [hdrains, tail_cons]
    have hparents := h.parents c
    simp only [h.draining]
    cases hrest : drainsOf frames with
    | nil =>
      rw [hrest] at hparents
      exact hparents
    | cons first rest =>
      rw [hrest] at hparents
      simp [hparents]
  · rw [hpass] at heq
    cases heq
    exact h.draining

theorem Sound.flushCoalescedFor (h : Sound s s.stack (· = conn))
    (hopen : s.stack ≠ [] → s.closed conn = false ∧ (s.pending conn).next 0 ≠ none) :
    Stacked (s.flushCoalescedFor conn) := by
  have hempty : s.closed conn = true ∨ (s.pending conn).next 0 = none → s.stack = [] := by
    rintro hno
    by_contra hne
    obtain ⟨hclosed, hsome⟩ := hopen hne
    rcases hno with htrue | hnone
    · rw [hclosed] at htrue
      cases htrue
    · exact hsome hnone
  rw [Coalescer.flushCoalescedFor]
  cases hnext : (s.pending conn).next 0 with
  | none =>
    have hnil := hempty (.inr hnext)
    refine h.settled (fun f hf => ?_) fun _ _ => .inl (size_eq_zero fun key => ?_)
    · rw [hnil] at hf
      cases hf
    · cases hfind : (s.pending conn).find key with
      | none => rfl
      | some entry => exact absurd (lt_of_next_eq_none hnext hfind) (Nat.not_lt_zero _)
  | some entry =>
    obtain ⟨key, value, cursor⟩ := entry
    simp only
    split_ifs with hclosed hsingle hdraining
    · have hnil := hempty (.inl hclosed)
      refine h.settled (fun f hf => ?_) fun hno => absurd (hclosed.symm.trans hno) (by decide)
      rw [hnil] at hf
      cases hf
    · -- the loop that waits compares values from now on
      refine @Sound.settled _ _ _ _ _ _ _ conn ⟨h.recorded.congr rfl rfl rfl rfl,
        h.guarded.congr rfl rfl rfl rfl, fun f hf => ?_, fun _ _ _ _ hno => ?_, h.owed⟩
        (fun _ _ _ _ hno => ?_) fun _ hmem => ?_
      · obtain ⟨hle, hpassed, hfirst⟩ := h.passes f hf
        exact ⟨hle, hpassed, hfirst⟩
      · cases hno
      · cases hno
      · exact absurd (h.guarded.mem_iff.mpr (.inl hsingle)) hmem
    · refine h.settled (fun f hf heq hs _ => ?_) fun _ hmem =>
        absurd (h.guarded.mem_iff.mpr (.inr hdraining)) hmem
      exact absurd (heq ▸ h.guarded.single_of_mem hf hs) hsingle
    · have hfresh : conn ∉ s.stack.map Flush.conn := fun hmem =>
        (h.guarded.mem_iff.mp hmem).elim hsingle hdraining
      obtain ⟨place, hfind, hplace, hpassed⟩ :=
        find_of_next (h.recorded.ordered conn) hnext
      have hother : ∀ f ∈ s.stack, f.conn ≠ conn := fun f hf heq =>
        hfresh (heq ▸ mem_map_of_mem hf)
      refine Settled.attempt ⟨h.recorded.congr rfl rfl rfl rfl,
        h.guarded.drain hfresh rfl rfl, fun f hf => ?_, fun f hf _ hs hno => ?_,
        fun c _ hc hmem => ?_⟩
      · rcases mem_cons.mp hf with rfl | hf
        · refine ⟨?_, fun _ k p v hk hlt => ?_, fun _ heq => by cases heq⟩
          · rw [Flush.cursor, hplace]
            exact (h.recorded.ordered conn).find_lt hfind
          · exact (hpassed k p v hk hlt).resolve_right (Nat.not_lt_zero _)
        · obtain ⟨hle, hpassed, hfirst⟩ := h.passes f hf
          exact ⟨hle, hpassed, hfirst⟩
      · rcases mem_cons.mp hf with rfl | hf
        · cases hs
        · exact h.untouched f hf (hother f hf) hs hno
      · rw [map_cons, mem_cons, not_or] at hmem
        exact h.owed c hmem.1 hc hmem.2

/-! ## A call -/

omit [DecidableEq C] [DecidableEq K] in
theorem Guarded.eq_nil (h : Guarded s frames) (hsingle : s.singleFlushPending = none)
    (hdepth : s.coalescedDrainDepth = 0) : frames = [] := by
  refine eq_nil_iff_forall_not_mem.mpr fun f hf => ?_
  cases hs : f.isSingle with
  | true =>
    have hpending := h.single_of_mem hf hs
    rw [hsingle] at hpending
    cases hpending
  | false =>
    have hmem : f.conn ∈ drainsOf frames :=
      mem_filterMap.mpr ⟨f, hf, by rw [Flush.drains, hs]; rfl⟩
    have hnil : drainsOf frames = [] := eq_nil_of_length_eq_zero (h.depth ▸ hdepth)
    rw [hnil] at hmem
    exact not_mem_nil hmem

theorem Settled.enqueue (h : Settled s frames) (conn : C) (key : K) (entry : QueuedEntry D)
    (hserial : entry.serial = s.sets) : Sound (s.enqueue conn key entry) frames (· = conn) := by
  have hpending : ∀ c, (s.enqueue conn key entry).pending c =
      if conn = c then (s.pending conn).set key entry else s.pending c := fun c => pending_store ..
  have hother : ∀ c, c ≠ conn → (s.enqueue conn key entry).pending c = s.pending c := by
    intro c hne
    rw [hpending, if_neg (Ne.symm hne)]
  refine ⟨h.recorded.enqueue conn key entry hserial, h.guarded.congr rfl rfl rfl rfl,
    fun f hf => ?_, fun f hf hne hsingle hnot => ?_, fun c hne hopen hmem => ?_⟩
  · obtain ⟨hle, hpassed, hfirst⟩ := h.passes f hf
    by_cases heq : conn = f.conn
    · subst heq
      refine ⟨?_, fun hyielded k place value hfind hlt => ?_, hfirst⟩
      · rw [hpending, if_pos rfl]
        exact hle.trans (added_le_set ..)
      · rw [hpending, if_pos rfl, find_set] at hfind
        split_ifs at hfind with hkey
        · -- a key that is set again keeps its place, and a new one goes behind the iterator
          subst hkey
          cases hold : (s.pending f.conn).find key with
          | none =>
            rw [hold] at hfind
            simp only [map_none, getD_none, some.injEq,
              Prod.mk.injEq] at hfind
            exact absurd (hfind.1 ▸ hle) (not_le.mpr hlt)
          | some old =>
            obtain ⟨oldPlace, oldValue⟩ := old
            rw [hold] at hfind
            simp only [map_some, getD_some, some.injEq,
              Prod.mk.injEq] at hfind
            exact hpassed hyielded key oldPlace oldValue hold (hfind.1 ▸ hlt)
        · exact hpassed hyielded k place value hfind hlt
    · have hsame := hother f.conn (Ne.symm heq)
      exact ⟨hsame ▸ hle, hsame ▸ hpassed, hfirst⟩
  · rw [Coalescer.holds, hother f.conn hne]
    exact h.untouched f hf id hsingle hnot
  · rw [Owed, hother c hne]
    exact h.owed c id hopen hmem

theorem Stacked.sendCoalesced (h : Stacked s) (key : K) (topic event : JsString) (data : D)
    (hfits : s.evict conn key = s) : Stacked (s.sendCoalesced conn key topic event data) := by
  rw [Coalescer.sendCoalesced]
  split_ifs with hclosed
  · exact h
  · simp only [hfits]
    generalize hentry : (⟨s.sets, topic, event, data⟩ : QueuedEntry D) = entry
    have hsound : Sound (s.enqueue conn key entry) s.stack (· = conn) :=
      h.enqueue conn key entry (hentry ▸ rfl)
    have hget : ((s.enqueue conn key entry).pending conn).get key = some entry := by
      change ((s.store conn _).pending conn).get key = _
      rw [pending_store, if_pos rfl, get_set_self]
    split_ifs with hstart
    · obtain ⟨-, hsingle, hdepth⟩ := hstart
      have hnil : s.stack = [] := hsound.guarded.eq_nil hsingle hdepth
      rw [hnil] at hsound
      refine Settled.attempt ?_
      change Settled _ (_ :: s.stack)
      rw [hnil]
      refine ⟨hsound.recorded.congr rfl rfl rfl rfl, ⟨nodup_singleton _, rfl,
        hsound.guarded.depth, hsound.guarded.draining, hsound.guarded.parents,
        fun _ _ heq => (by cases heq), trivial⟩, fun f hf => ?_, fun f hf _ _ _ => ?_,
        fun c _ hopen hmem => ?_⟩
      · obtain rfl := mem_singleton.mp hf
        refine ⟨Nat.zero_le _, fun _ _ _ _ _ hlt => absurd hlt (Nat.not_lt_zero _),
          fun firstKey heq => ?_⟩
        cases heq
        rfl
      · obtain rfl := mem_singleton.mp hf
        change decide (Option.map _ (((s.enqueue conn key entry).pending conn).get key) = _) = true
        rw [hget]
        exact decide_eq_true rfl
      · exact hsound.owed c (fun heq => hmem (heq ▸ mem_singleton_self _)) hopen
          not_mem_nil
    · refine Sound.flushCoalescedFor hsound fun _ =>
        ⟨Bool.eq_false_iff.mpr hclosed, fun hnone => ?_⟩
      rw [get_eq_find] at hget
      obtain ⟨found, hfind, -⟩ := map_eq_some_iff.mp hget
      exact absurd (lt_of_next_eq_none hnone hfind) (Nat.not_lt_zero _)

/-! ## Drain callbacks, timers and closes -/

theorem Settled.sound (h : Settled s frames) (conn : C) : Sound s frames (· = conn) :=
  ⟨h.recorded, h.guarded, h.passes, fun f hf _ => h.untouched f hf id,
    fun c _ => h.owed c id⟩

/-- The queue of a connection that is closed is dropped. -/
theorem Recorded.clear (h : Recorded s) (hclosed : s.closed conn = true) :
    Recorded (s.store conn { s.pending conn with map := .empty }) := by
  have hget : ∀ c k, ((s.store conn { s.pending conn with map := .empty }).pending c).get k =
      if conn = c then none else (s.pending c).get k := by
    intro c k
    rw [pending_store]
    split_ifs <;> rfl
  refine ⟨fun c => ?_, h.once, h.fresh, h.lt, h.accepted_lt, h.unique, fun c k e he => ?_,
    fun c hopen k n hn => ?_⟩
  · rw [pending_store]
    split_ifs
    · exact ⟨.nil, forall_mem_nil _⟩
    · exact h.ordered c
  · rw [hget] at he
    split_ifs at he
    exact h.queued c k e he
  · have hne : conn ≠ c := fun heq => absurd (heq ▸ hclosed) (Bool.eq_false_iff.mp hopen)
    rw [hget, if_neg hne]
    exact h.kept c hopen k n hn

theorem Stacked.continuation (h : Stacked s) (hnil : s.stack = []) :
    Stacked (s.continuation conn) := by
  have hdisarmed : Sound { s with
      coalescedContinuations := s.coalescedContinuations.delete conn } s.stack (· = conn) := by
    refine ⟨h.recorded.congr rfl rfl rfl rfl, h.guarded.congr rfl rfl rfl rfl, fun f hf => ?_,
      fun f hf _ => h.untouched f hf id, fun c hne hopen hmem => ?_⟩
    · obtain ⟨hle, hpassed, hfirst⟩ := h.passes f hf
      exact ⟨hle, hpassed, hfirst⟩
    · refine (h.owed c id hopen hmem).imp_right (Or.imp_right fun harmed => ?_)
      exact JsSet.mem_delete.mpr ⟨hne, harmed⟩
  rw [Coalescer.continuation]
  split_ifs with hclosed
  · change Settled _ s.stack
    rw [hnil] at hdisarmed ⊢
    refine ⟨hdisarmed.recorded.clear hclosed, hdisarmed.guarded.congr rfl rfl rfl rfl,
      forall_mem_nil _, forall_mem_nil _,
      fun c _ hopen hmem => ?_⟩
    have hne : conn ≠ c := fun heq => absurd (heq ▸ hclosed) (Bool.eq_false_iff.mp hopen)
    rw [Owed, pending_store, if_neg hne]
    exact hdisarmed.owed c (Ne.symm hne) hopen hmem
  · exact hdisarmed.flushCoalescedFor fun hne => absurd hnil hne

theorem Stacked.close (h : Stacked s) (conn : C) :
    Stacked { s with closed := Function.update s.closed conn true } := by
  have hclosed : ∀ c, Function.update s.closed conn true c = false → s.closed c = false := by
    intro c hopen
    rw [Function.update_apply] at hopen
    split_ifs at hopen
    exact hopen
  obtain ⟨hordered, honce, hfresh, hlt, haccepted, hunique, hqueued, hkept⟩ := h.recorded
  refine ⟨⟨hordered, honce, hfresh, hlt, haccepted, hunique, hqueued,
    fun c hopen => hkept c (hclosed c hopen)⟩, h.guarded.congr rfl rfl rfl rfl, fun f hf => ?_,
    fun f hf _ => h.untouched f hf id, fun c _ hopen hmem => h.owed c id (hclosed c hopen) hmem⟩
  obtain ⟨hle, hpassed, hfirst⟩ := h.passes f hf
  exact ⟨hle, hpassed, hfirst⟩

/-! ## Runs -/

/-- A call evicts no key, a value has a JSON form, and the socket does not throw. -/
def Fits (s : Coalescer C K D) : CoalesceEvent C K D → Prop
  | .sendCoalesced conn key _ _ _ =>
    (s.pending conn).size < MAX_COALESCED_KEYS_PER_CONNECTION ∨
      ((s.pending conn).get key).isSome = true
  | .failed => False
  | .aborted => False
  | _ => True

theorem Fits.evict {topic event : JsString} {data : D}
    (h : Fits s (.sendCoalesced conn key topic event data)) : s.evict conn key = s := by
  rw [Coalescer.evict]
  refine if_neg fun hfull => ?_
  rcases h with hlt | hsome
  · exact absurd hfull.1 (not_le.mpr hlt)
  · rw [hfull.2] at hsome
    cases hsome

theorem Stacked.step (h : Stacked s) (e : CoalesceEvent C K D) (hfits : Fits s e)
    (hstep : s.step e = some s') : Stacked s' := by
  cases e with
  | sendCoalesced conn key topic event data =>
    cases hstep
    exact h.sendCoalesced key topic event data hfits.evict
  | drain conn =>
    obtain ⟨hnil, heq⟩ := ite_none_right_eq_some.mp hstep
    cases heq
    exact (Settled.sound h conn).flushCoalescedFor fun hne =>
      absurd (isEmpty_iff.mp hnil) hne
  | continuation conn =>
    obtain ⟨⟨hnil, -⟩, heq⟩ := ite_none_right_eq_some.mp hstep
    cases heq
    exact h.continuation (isEmpty_iff.mp hnil)
  | close conn =>
    cases hstep
    exact h.close conn
  | serialized status =>
    simp only [Coalescer.step] at hstep
    split at hstep
    · cases hstep
    · next f stack hstack =>
      cases hstep
      rw [Stacked, hstack] at h
      have hsettled : Settled { s with stack := stack } (f :: stack) := by
        refine ⟨h.recorded.congr rfl rfl rfl rfl, h.guarded.congr rfl rfl rfl rfl,
          fun g hg => ?_, h.untouched, h.owed⟩
        obtain ⟨hle, hpassed, hfirst⟩ := h.passes g hg
        exact ⟨hle, hpassed, hfirst⟩
      exact hsettled.serialized status
  | failed => exact hfits.elim
  | aborted => exact hfits.elim

/-- The connection has been promised what its app set: a value is accepted at most once, what is
sent is the newest value of its key, and when no flush of the connection waits, the newest value of
a key that was not accepted is queued, for a drain callback or a timer. -/
structure LatestWins (s : Coalescer C K D) (conn : C) : Prop where
  once : (acceptedOf s.log).Nodup
  fresh : FreshSends s.log
  kept : ∀ key n, newest s.log conn key = some n → n ∉ acceptedOf s.log →
    ((s.pending conn).get key).map QueuedEntry.serial = some n
  owed : conn ∉ s.stack.map Flush.conn → ∀ key n, newest s.log conn key = some n →
    n ∉ acceptedOf s.log → (∃ status, lastStatus s.log conn = some status ∧ status ≠ .sent) ∨
      conn ∈ s.coalescedContinuations

theorem Stacked.latestWins (h : Stacked s) (hopen : s.closed conn = false) : LatestWins s conn := by
  have hkept : ∀ key n, newest s.log conn key = some n → n ∉ acceptedOf s.log →
      ((s.pending conn).get key).map QueuedEntry.serial = some n := fun key n hn hnot =>
    (h.recorded.kept conn hopen key n hn).resolve_left hnot
  refine ⟨h.recorded.once, h.recorded.fresh, hkept, fun hmem key n hn hnot => ?_⟩
  refine (h.owed conn id hopen hmem).resolve_left fun hempty => ?_
  obtain ⟨entry, hget, -⟩ := map_eq_some_iff.mp (hkept key n hn hnot)
  obtain ⟨place, hfind, -⟩ := map_eq_some_iff.mp hget
  have hmem := JsMap.get_eq_some_iff.mp hfind
  rw [eq_nil_of_length_eq_zero hempty] at hmem
  exact not_mem_nil hmem

theorem stacked_init : Stacked (coalesceMachine : Machine (Coalescer C K D) _).init := by
  refine ⟨⟨fun _ => ordered_empty, .nil, fun later c k n status earlier heq => ?_,
    fun _ _ _ hmem => absurd hmem not_mem_nil, forall_mem_nil _,
    fun _ _ _ _ _ hmem => absurd hmem not_mem_nil, fun _ _ _ he => ?_,
    fun _ _ _ _ hn => ?_⟩, ⟨.nil, rfl, rfl, rfl, fun c => ?_, trivial⟩,
    forall_mem_nil _, forall_mem_nil _,
    fun _ _ _ _ => .inl rfl⟩
  · exact absurd heq.symm (append_ne_nil_of_right_ne_nil _ (cons_ne_nil _ _))
  · cases he
  · cases hn
  · exact iff_of_false (JsSet.not_mem_empty c) not_mem_nil

/-- In every run of calls that evict no key, with values that have a JSON form, whatever the
serializers call and the sockets answer, the latest value of a key wins on every open
connection. -/
theorem latestWins_of_fits {es : List (CoalesceEvent C K D)}
    (h : coalesceMachine.ReachesWhere Fits es s) (hopen : s.closed conn = false) :
    LatestWins s conn := by
  have hstacked : Stacked s :=
    h.invariant stacked_init fun _ e _ hs hfits hstep => hs.step e hfits hstep
  exact hstacked.latestWins hopen

instance (s : Coalescer C K D) (e : CoalesceEvent C K D) : Decidable (Fits s e) :=
  match e with
  | .sendCoalesced conn key _ _ _ => 
    inferInstanceAs (Decidable ((s.pending conn).size < MAX_COALESCED_KEYS_PER_CONNECTION ∨
      ((s.pending conn).get key).isSome = true))
  | .drain _ | .continuation _ | .close _ | .serialized _ => .isTrue trivial
  | .failed | .aborted => .isFalse id

/-- The serializers of one connection send again on it and on another, a value is dropped, and what
is left goes out in a drain callback and a timer. -/
def requeuedRun : List (CoalesceEvent ℕ ℕ ℕ) :=
  let send := fun conn key data =>
    CoalesceEvent.sendCoalesced conn key (JsString.lit "t") (JsString.lit "e") data
  [send 0 1 10, send 0 1 11, send 1 5 50, .serialized .dropped, .serialized .sent, send 0 1 12,
    .serialized .sent, .continuation 0, .serialized .sent, send 0 2 13, .serialized .dropped,
    .drain 1, .serialized .sent]

theorem latestWins_of_fits_requeuedRun : ∃ s : Coalescer ℕ ℕ ℕ,
    coalesceMachine.ReachesWhere Fits requeuedRun s ∧ LatestWins s 0 ∧
      acceptedOf s.log = [2, 3] ∧ newest s.log 0 2 = some 4 := by
  obtain ⟨s, hs, hopen, haccepted, hnewest⟩ : ∃ s, coalesceMachine.ReachesWhere Fits requeuedRun s ∧
      s.closed 0 = false ∧ acceptedOf s.log = [2, 3] ∧ newest s.log 0 2 = some 4 :=
    Machine.exists_of_execWhere (by decide +kernel)
  exact ⟨s, hs, latestWins_of_fits hs hopen, haccepted, hnewest⟩

end AdapterWs.Coalesce
