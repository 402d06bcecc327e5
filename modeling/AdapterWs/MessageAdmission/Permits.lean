import AdapterWs.MessageAdmission.Gate

/-!
# Permits and waits

The running work is counted three times: by the worker, by the connections and by the permits that
are not released. A grant takes the first entry that can start, which is the first of its
connection, so that the entries of a connection are granted in their order. Draining ends with no
entry that could start, and a wait leaves the queue when it is settled.
-/

namespace AdapterWs.MessageAdmission

open List Gate Bool

variable {W : Type} [DecidableEq W] {o : MessageAdmissionConfig} {g g' : Gate W}
  {ws ws' : W} {entry : Waiting W} {l : List (Permit W)} {id : ℕ} {p : Permit W}

namespace Gate

/-- The permits that are not released. -/
def unreleased (g : Gate W) : ℕ := g.permits.countP fun p => !p.released

/-- The permits of a connection that are not released. -/
def held (g : Gate W) (ws : W) : ℕ := g.permits.countP fun p => decide (p.ws = ws) && !p.released

/-- The entries of a connection. -/
def waiting (g : Gate W) (ws : W) : List (Waiting W) := g.queue.filter fun entry => entry.ws = ws

/-- The waits of a connection that were settled with a permit, in the order they were. -/
def granted (g : Gate W) (ws : W) : List ℕ :=
  (g.settled.filter fun s => decide (s.1.ws = ws) && decide (s.2 ≠ .connectionClosed)).map
    fun s => s.1.wait

end Gate

/-- What a wait may be settled with. -/
def Gate.Allows (g : Gate W) (ws : W) : Outcome → Prop
  | .permit id => ∃ p, g.permits[id]? = some p ∧ p.ws = ws
  | .connectionClosed => (g.stateFor ws).closed = true

/-- The counts, the bounds and the waits of a gate. -/
structure Counted (o : MessageAdmissionConfig) (g : Gate W) : Prop where
  active : g.active = g.unreleased
  share : ∀ ws, (g.stateFor ws).active = g.held ws
  queued : ∀ ws, (g.stateFor ws).queued = (g.waiting ws).length
  global : 0 < o.globalConcurrent → g.active ≤ o.globalConcurrent
  perConnection : 0 < o.perConnectionConcurrent →
    ∀ ws, (g.stateFor ws).active ≤ o.perConnectionConcurrent
  queueBound : g.queue.length ≤ o.maxQueue
  /-- A wait is in the queue or was settled, once. -/
  settledOnce : (g.queue.map Waiting.wait ++ g.settled.map fun s => s.1.wait).Perm
    (List.range g.waits)
  /-- The entries of a connection are granted in their order, none that waits before. -/
  inOrder : ∀ ws, (g.granted ws ++ (g.waiting ws).map Waiting.wait).Pairwise (· < ·)
  outcome : ∀ s ∈ g.settled, g.Allows s.1.ws s.2

/-- A gate with its counts right, where no entry of the queue can start. -/
structure Sound (o : MessageAdmissionConfig) (g : Gate W) : Prop extends Counted o g where
  blocked : ∀ entry ∈ g.queue, g.startable o entry = false

/-! ## Connections -/

theorem stateFor_setState (g : Gate W) (ws ws' : W) (state : ConnectionState) :
    (g.setState ws state).stateFor ws' = if ws = ws' then state else g.stateFor ws' := by
  rw [stateFor, setState, JsMap.get_set]
  split <;> rfl

/-- Two gates that differ in their buckets at most. -/
structure SameWork (g g' : Gate W) : Prop where
  active : g'.active = g.active
  queue : g'.queue = g.queue
  permits : g'.permits = g.permits
  waits : g'.waits = g.waits
  settled : g'.settled = g.settled
  running : ∀ ws, (g'.stateFor ws).active = (g.stateFor ws).active
  queued : ∀ ws, (g'.stateFor ws).queued = (g.stateFor ws).queued
  closed : ∀ ws, (g'.stateFor ws).closed = (g.stateFor ws).closed

theorem SameWork.refl (g : Gate W) : SameWork g g :=
  ⟨rfl, rfl, rfl, rfl, rfl, fun _ => rfl, fun _ => rfl, fun _ => rfl⟩

theorem SameWork.trans {g'' : Gate W} (h : SameWork g g') (h' : SameWork g' g'') :
    SameWork g g'' where
  active := h'.active.trans h.active
  queue := h'.queue.trans h.queue
  permits := h'.permits.trans h.permits
  waits := h'.waits.trans h.waits
  settled := h'.settled.trans h.settled
  running ws := (h'.running ws).trans (h.running ws)
  queued ws := (h'.queued ws).trans (h.queued ws)
  closed ws := (h'.closed ws).trans (h.closed ws)

theorem sameWork_setState {state : ConnectionState} (hactive : state.active = (g.stateFor ws).active)
    (hqueued : state.queued = (g.stateFor ws).queued)
    (hclosed : state.closed = (g.stateFor ws).closed) : SameWork g (g.setState ws state) where
  active := rfl
  queue := rfl
  permits := rfl
  waits := rfl
  settled := rfl
  running ws' := by
    rw [stateFor_setState]
    split
    · next heq => rw [hactive, heq]
    · rfl
  queued ws' := by
    rw [stateFor_setState]
    split
    · next heq => rw [hqueued, heq]
    · rfl
  closed ws' := by
    rw [stateFor_setState]
    split
    · next heq => rw [hclosed, heq]
    · rfl

theorem sameWork_setBucket (g : Gate W) (b : Bucket) (lane : RateLane W) :
    SameWork g (g.setBucket b lane) := by
  cases lane with
  | connectionRate ws => exact sameWork_setState rfl rfl rfl
  | connectionBytes ws => exact sameWork_setState rfl rfl rfl
  | globalRate => exact ⟨rfl, rfl, rfl, rfl, rfl, fun _ => rfl, fun _ => rfl, fun _ => rfl⟩
  | globalBytes => exact ⟨rfl, rfl, rfl, rfl, rfl, fun _ => rfl, fun _ => rfl, fun _ => rfl⟩

theorem sameWork_chargeRates (bytes : ℕ) (now : ℚ) (lanes : List (RateLane W)) (g : Gate W) :
    SameWork g (chargeRates o bytes now lanes g) := by
  induction lanes generalizing g with
  | nil => exact .refl g
  | cons lane lanes ih =>
    rw [chargeRates]
    refine SameWork.trans ?_ (ih _)
    split
    · exact sameWork_setBucket g _ lane
    · exact .refl g

theorem SameWork.startable (h : SameWork g g') (entry : Waiting W) :
    g'.startable o entry = g.startable o entry := by
  simp [Gate.startable, Gate.canStart, h.active, h.running, h.closed]

theorem SameWork.sound (h : SameWork g g') (hg : Sound o g) : Sound o g' where
  active := by rw [h.active, hg.active, unreleased, unreleased, h.permits]
  share ws := by rw [h.running, hg.share, held, held, h.permits]
  queued ws := by rw [h.queued, hg.queued, waiting, waiting, h.queue]
  global := by rw [h.active]; exact hg.global
  perConnection hpos ws := by rw [h.running]; exact hg.perConnection hpos ws
  queueBound := by rw [h.queue]; exact hg.queueBound
  settledOnce := by rw [h.queue, h.settled, h.waits]; exact hg.settledOnce
  inOrder ws := by
    rw [granted, waiting, h.settled, h.queue]
    exact hg.inOrder ws
  outcome s hs := by
    rw [h.settled] at hs
    have houtcome := hg.outcome s hs
    cases hs2 : s.2 with
    | permit id =>
      rw [hs2] at houtcome
      rw [Allows, h.permits]
      exact houtcome
    | connectionClosed =>
      rw [hs2] at houtcome
      exact (h.closed s.1.ws).trans houtcome
  blocked entry hentry := by
    rw [h.queue] at hentry
    rw [h.startable]
    exact hg.blocked entry hentry

/-! ## Permits -/

theorem stateFor_permit (g : Gate W) (ws ws' : W) : (g.permit ws).2.stateFor ws' =
    if ws = ws' then { g.stateFor ws with active := (g.stateFor ws).active + 1 }
    else g.stateFor ws' :=
  stateFor_setState g ws ws' _

theorem unreleased_permit (g : Gate W) (ws : W) :
    (g.permit ws).2.unreleased = g.unreleased + 1 := by
  simp [unreleased, permit]

theorem held_permit (g : Gate W) (ws ws' : W) :
    (g.permit ws).2.held ws' = g.held ws' + if ws = ws' then 1 else 0 := by
  by_cases heq : ws = ws' <;> simp [held, permit, heq]

/-- What a wait was settled with stays, where permits and closed connections do. -/
theorem Gate.Allows.mono {outcome : Outcome} (h : g.Allows ws outcome)
    (hpermits : ∀ (id : ℕ) (p : Permit W), g.permits[id]? = some p →
      ∃ p', g'.permits[id]? = some p' ∧ p'.ws = p.ws)
    (hclosed : (g.stateFor ws).closed = true → (g'.stateFor ws).closed = true) :
    g'.Allows ws outcome := by
  cases outcome with
  | permit id =>
    obtain ⟨p, hp, rfl⟩ := h
    exact hpermits id p hp
  | connectionClosed => exact hclosed h

omit [DecidableEq W] in
theorem getElem?_append_permit (p' : Permit W) (id : ℕ) (p : Permit W) (hp : l[id]? = some p) :
    ∃ p'', (l ++ [p'])[id]? = some p'' ∧ p''.ws = p.ws :=
  ⟨p, (List.getElem?_append_left (List.getElem?_eq_some_iff.mp hp).1).trans hp, rfl⟩

theorem closed_permit (h : (g.stateFor ws').closed = true) (ws : W) :
    ((g.permit ws).2.stateFor ws').closed = true := by
  rw [stateFor_permit]
  split
  · next heq => rw [heq]; exact h
  · exact h

theorem startable_permit (h : g.startable o entry = false) (ws : W) :
    (g.permit ws).2.startable o entry = false := by
  rw [startable, and_eq_false_iff] at h ⊢
  rw [stateFor_permit]
  rcases h with hclosed | hfull
  · left
    split
    · next heq => rw [heq]; exact hclosed
    · exact hclosed
  · right
    simp only [canStart, and_eq_false_iff, or_eq_false_iff, decide_eq_false_iff_not,
      permit] at hfull ⊢
    rcases hfull with ⟨hlimit, hfull⟩ | ⟨hlimit, hfull⟩
    · exact .inl ⟨hlimit, decide_eq_false (by omega)⟩
    · refine .inr ⟨hlimit, ?_⟩
      split
      · next heq =>
        rw [heq]
        simp only
        omega
      · exact hfull

omit [DecidableEq W] in
theorem limits_of_canStart {state : ConnectionState} (h : g.canStart o state = true) :
    (0 < o.globalConcurrent → g.active < o.globalConcurrent) ∧
      (0 < o.perConnectionConcurrent → state.active < o.perConnectionConcurrent) := by
  simp only [canStart, and_eq_true, or_eq_true, decide_eq_true_eq] at h
  omega

theorem Sound.permit (h : Sound o g) (hcan : g.canStart o (g.stateFor ws) = true) :
    Sound o (g.permit ws).2 where
  active := by
    rw [unreleased_permit, Nat.cast_succ, ← h.active]
    rfl
  share ws' := by
    rw [stateFor_permit, held_permit]
    split
    · next heq => rw [← heq, Nat.cast_succ, ← h.share]
    · exact h.share ws'
  queued ws' := by
    rw [stateFor_permit]
    split
    · next heq => rw [heq]; exact h.queued ws'
    · exact h.queued ws'
  global hpos := by
    have := (limits_of_canStart hcan).1 hpos
    exact this
  perConnection hpos ws' := by
    rw [stateFor_permit]
    split
    · exact (limits_of_canStart hcan).2 hpos
    · exact h.perConnection hpos ws'
  queueBound := h.queueBound
  settledOnce := h.settledOnce
  inOrder := h.inOrder
  outcome s hs :=
    (h.outcome s hs).mono (getElem?_append_permit _) fun hclosed => closed_permit hclosed ws
  blocked entry hentry := startable_permit (h.blocked entry hentry) ws

/-! ## Grants -/

/-- An entry that can start first is the first of its connection. -/
theorem exists_of_find (hfind : g.queue.find? (g.startable o) = some entry) :
    ∃ before after, g.queue = before ++ entry :: after ∧
      g.queue.eraseP (g.startable o) = before ++ after ∧ ∀ e ∈ before, e.ws ≠ entry.ws := by
  obtain ⟨hstart, before, after, hqueue, hbefore⟩ := find?_eq_some_iff_append.mp hfind
  have hnone : ∀ e ∈ before, ¬g.startable o e = true := fun e he => by
    simpa using hbefore e he
  refine ⟨before, after, hqueue, ?_, fun e he heq => hnone e he ?_⟩
  · rw [hqueue, eraseP_append_right _ hnone, eraseP_cons_of_pos hstart]
  · rw [startable, heq]
    exact hstart

section

variable (g) (entry)

theorem stateFor_grant (ws : W) :
    (g.grant o entry).stateFor ws = if entry.ws = ws then
      { g.stateFor entry.ws with
        active := (g.stateFor entry.ws).active + 1
        queued := (g.stateFor entry.ws).queued - 1 }
    else g.stateFor ws := by
  simp only [grant, permit, setState, stateFor, JsMap.get_set, if_true,
    Option.getD_some]
  split <;> rfl

theorem settled_grant :
    (g.grant o entry).settled = g.settled ++ [(entry, .permit g.permits.length)] := rfl

theorem closed_grant (ws : W) :
    ((g.grant o entry).stateFor ws).closed = (g.stateFor ws).closed := by
  rw [stateFor_grant]
  split
  · next heq => rw [heq]
  · rfl

end

theorem Counted.grant (h : Counted o g) (hfind : g.queue.find? (g.startable o) = some entry) :
    Counted o (g.grant o entry) := by
  obtain ⟨before, after, hqueue, herase, hbefore⟩ := exists_of_find hfind
  have hstart := find?_some hfind
  rw [startable, and_eq_true] at hstart
  obtain ⟨hglobal, hper⟩ := limits_of_canStart hstart.2
  have hwaiting : ∀ ws, g.waiting ws =
      (if entry.ws = ws then [entry] else []) ++ (g.grant o entry).waiting ws := by
    intro ws
    change g.queue.filter _ = _ ++ (g.queue.eraseP _).filter _
    rw [herase, hqueue, filter_append, filter_append]
    by_cases heq : entry.ws = ws
    · have hnil : before.filter (fun e => decide (e.ws = ws)) = [] :=
        filter_eq_nil_iff.mpr fun e he => by simpa [← heq] using hbefore e he
      simp [hnil, heq]
    · simp [heq]
  have hgranted : ∀ ws, (g.grant o entry).granted ws =
      g.granted ws ++ if entry.ws = ws then [entry.wait] else [] := by
    intro ws
    by_cases heq : entry.ws = ws <;> simp [granted, settled_grant, heq]
  refine ⟨?_, fun ws => ?_, fun ws => ?_, fun hpos => ?_, fun hpos ws => ?_, ?_, ?_, fun ws => ?_,
    fun s hs => ?_⟩
  · change g.active + 1 = ((permit g entry.ws).2.unreleased : ℤ)
    rw [unreleased_permit, h.active, Nat.cast_succ]
  · change _ = ((permit g entry.ws).2.held ws : ℤ)
    rw [held_permit, stateFor_grant, Nat.cast_add, ← h.share ws]
    split
    · next heq => rw [heq]; rfl
    · simp
  · have hqueued := h.queued ws
    rw [hwaiting] at hqueued
    rw [stateFor_grant]
    split
    · next heq =>
      rw [if_pos heq] at hqueued
      simp only [length_append, length_singleton, Nat.cast_add] at hqueued
      rw [heq]
      simp only
      omega
    · next heq =>
      rw [if_neg heq] at hqueued
      exact hqueued
  · exact hglobal hpos
  · rw [stateFor_grant]
    split
    · exact hper hpos
    · exact h.perConnection hpos ws
  · refine le_trans ?_ h.queueBound
    exact eraseP_sublist.length_le
  · refine List.Perm.trans ?_ h.settledOnce
    change ((g.queue.eraseP _).map _ ++ (g.settled ++ [_]).map _).Perm _
    rw [herase, hqueue]
    simp only [map_append, map_cons, map_nil, append_assoc]
    refine List.Perm.append_left _ ?_
    rw [← append_assoc]
    exact perm_append_singleton _ _
  · have horder := h.inOrder ws
    rw [hwaiting ws] at horder
    rw [hgranted]
    by_cases heq : entry.ws = ws <;> simpa [heq] using horder
  · rw [settled_grant] at hs
    rcases mem_concat.mp hs with hs | rfl
    · exact (h.outcome s hs).mono (getElem?_append_permit _) (closed_grant g entry s.1.ws).trans
    · exact ⟨⟨entry.ws, false⟩, getElem?_concat_length, rfl⟩

/-! ## Draining -/

theorem length_queue_grant (hfind : g.queue.find? (g.startable o) = some entry) :
    (g.grant o entry).queue.length + 1 = g.queue.length := by
  obtain ⟨before, after, hqueue, herase, -⟩ := exists_of_find hfind
  change (g.queue.eraseP _).length + 1 = _
  rw [herase, hqueue]
  simp only [length_append, length_cons]
  omega

theorem Counted.drainLoop {fuel : ℕ} (h : Counted o g) (hfuel : g.queue.length ≤ fuel) :
    Sound o (drainLoop o fuel g) := by
  induction fuel generalizing g with
  | zero =>
    refine ⟨h, fun entry hentry => ?_⟩
    have hnil := eq_nil_of_length_eq_zero (Nat.le_zero.mp hfuel)
    exact absurd (hnil ▸ hentry) not_mem_nil
  | succ fuel ih =>
    rw [drainLoop]
    split
    · next hfind =>
      exact ⟨h, fun entry hentry =>
        eq_false_iff.mpr (find?_eq_none.mp hfind entry hentry)⟩
    · next entry hfind =>
      have hlength := length_queue_grant hfind
      exact ih (h.grant hfind) (by omega)

theorem Counted.drain (h : Counted o g) : Sound o (g.drain o) := h.drainLoop (le_refl _)

/-! ## Releases -/

omit [DecidableEq W] in
theorem countP_set_released {q : Permit W → Bool} (hp : l[id]? = some p) (hq : q p = true)
    (hq' : q { p with released := true } = false) :
    (l.set id { p with released := true }).countP q + 1 = l.countP q := by
  obtain ⟨hid, rfl⟩ := List.getElem?_eq_some_iff.mp hp
  have hpos : 0 < l.countP q := countP_pos_iff.mpr ⟨_, getElem_mem hid, hq⟩
  rw [countP_set hid, if_pos hq, hq']
  simp only [false_eq_true, if_false]
  omega

omit [DecidableEq W] in
theorem countP_set_other {q : Permit W → Bool} (hp : l[id]? = some p) (hq : q p = false)
    (hq' : q { p with released := true } = false) :
    (l.set id { p with released := true }).countP q = l.countP q := by
  obtain ⟨hid, rfl⟩ := List.getElem?_eq_some_iff.mp hp
  rw [countP_set hid, hq, hq']
  simp

/-- A permit that is released is one of its connection less. -/
theorem Counted.released (h : Counted o g) (hp : g.permits[id]? = some p)
    (hreleased : p.released = false) (hactive : g'.active = g.active - 1)
    (hpermits : g'.permits = g.permits.set id { p with released := true })
    (hqueue : g'.queue = g.queue) (hwaits : g'.waits = g.waits) (hsettled : g'.settled = g.settled)
    (hstate : ∀ ws, g'.stateFor ws = if p.ws = ws then
      { g.stateFor p.ws with active := (g.stateFor p.ws).active - 1 } else g.stateFor ws) :
    Counted o g' := by
  have hless : ∀ ws, (g'.stateFor ws).active ≤ (g.stateFor ws).active := by
    intro ws
    rw [hstate]
    split
    · next heq =>
      rw [heq]
      simp only
      omega
    · exact le_refl _
  refine ⟨?_, fun ws => ?_, fun ws => ?_, fun hpos => ?_, fun hpos ws => ?_, ?_, ?_, fun ws => ?_,
    fun s hs => ?_⟩
  · have hcount := countP_set_released (q := fun p => !p.released) hp (by simp [hreleased])
      (by simp)
    have hwas := h.active
    rw [unreleased] at hwas ⊢
    rw [hpermits]
    omega
  · have hwas := h.share ws
    rw [held] at hwas ⊢
    rw [hstate, hpermits]
    by_cases heq : p.ws = ws
    · subst heq
      have hcount := countP_set_released (q := fun q => decide (q.ws = p.ws) && !q.released) hp
        (by simp [hreleased]) (by simp)
      rw [if_pos rfl]
      simp only
      omega
    · have hcount := countP_set_other (q := fun p => decide (p.ws = ws) && !p.released) hp
        (by simp [heq]) (by simp)
      rw [if_neg heq, hcount]
      exact hwas
  · rw [waiting, hqueue, hstate]
    split
    · next heq => rw [heq]; exact h.queued ws
    · exact h.queued ws
  · have := h.global hpos
    omega
  · exact (hless ws).trans (h.perConnection hpos ws)
  · rw [hqueue]
    exact h.queueBound
  · rw [hqueue, hsettled, hwaits]
    exact h.settledOnce
  · rw [granted, waiting, hsettled, hqueue]
    exact h.inOrder ws
  · rw [hsettled] at hs
    refine (h.outcome s hs).mono (fun other q hq => ?_) fun hclosed => ?_
    · rw [hpermits]
      by_cases hid : id = other
      · subst hid
        cases hp.symm.trans hq
        exact ⟨_, List.getElem?_set_self (List.getElem?_eq_some_iff.mp hp).1, rfl⟩
      · exact ⟨q, (getElem?_set_ne hid).trans hq, rfl⟩
    · rw [hstate]
      split
      · next heq => rw [heq]; exact hclosed
      · exact hclosed

theorem Sound.release (h : Sound o g) (id : ℕ) : Sound o (g.release o id) := by
  rw [Gate.release]
  cases hp : g.permits[id]? with
  | none => exact h
  | some p =>
    simp only
    split
    · exact h
    · next hreleased =>
      refine Counted.drain ?_
      exact h.toCounted.released hp (eq_false_iff.mpr hreleased) rfl rfl rfl rfl rfl
        fun ws => stateFor_setState g p.ws ws _

/-! ## Closes -/

/-- The entries of a connection that closes are settled. -/
theorem Counted.closed (h : Counted o g) (hactive : g'.active = g.active)
    (hpermits : g'.permits = g.permits)
    (hqueue : g'.queue = g.queue.filter fun entry => entry.ws ≠ ws) (hwaits : g'.waits = g.waits)
    (hsettled : g'.settled =
      g.settled ++ (g.waiting ws).reverse.map fun entry => (entry, .connectionClosed))
    (hstate : ∀ ws', g'.stateFor ws' = if ws = ws' then
      { g.stateFor ws with
        closed := true
        queued := (g.stateFor ws).queued - (g.waiting ws).length }
    else g.stateFor ws') : Counted o g' := by
  have hwaiting : ∀ ws', g'.waiting ws' = if ws = ws' then [] else g.waiting ws' := by
    intro ws'
    rw [waiting, hqueue, filter_filter]
    split
    · next heq => simp [heq]
    · next heq =>
      refine filter_congr fun entry _ => ?_
      by_cases hentry : entry.ws = ws'
      · simp [hentry, Ne.symm heq]
      · simp [hentry]
  have hgranted : ∀ ws', g'.granted ws' = g.granted ws' := by
    intro ws'
    rw [granted, hsettled, filter_append, map_append, granted]
    simp
  have hclosed : ∀ ws', (g.stateFor ws').closed = true → (g'.stateFor ws').closed = true := by
    intro ws' hclosed
    rw [hstate]
    split
    · rfl
    · exact hclosed
  refine ⟨?_, fun ws' => ?_, fun ws' => ?_, fun hpos => ?_, fun hpos ws' => ?_, ?_, ?_,
    fun ws' => ?_, fun s hs => ?_⟩
  · rw [hactive, h.active, unreleased, unreleased, hpermits]
  · have hwas := h.share ws'
    rw [held] at hwas ⊢
    rw [hpermits, hstate, ← hwas]
    split
    · next heq => rw [heq]
    · rfl
  · have hwas := h.queued ws'
    rw [hstate, hwaiting]
    split
    · next heq =>
      rw [heq, hwas]
      simp
    · exact hwas
  · rw [hactive]
    exact h.global hpos
  · have hwas := h.perConnection hpos ws'
    rw [hstate]
    split
    · next heq => rw [heq]; exact hwas
    · exact hwas
  · rw [hqueue]
    exact (length_filter_le _ _).trans h.queueBound
  · rw [hqueue, hsettled, hwaits]
    refine List.Perm.trans ?_ h.settledOnce
    have hsplit : ((g.queue.filter fun entry => entry.ws ≠ ws) ++ g.waiting ws).Perm g.queue := by
      simpa [waiting] using filter_append_perm (fun entry => decide (entry.ws ≠ ws)) g.queue
    have hgone : (((g.waiting ws).reverse.map fun entry => (entry, Outcome.connectionClosed)).map
        fun s => s.1.wait).Perm ((g.waiting ws).map Waiting.wait) := by
      rw [map_map]
      exact (reverse_perm _).map _
    rw [map_append]
    refine List.Perm.trans (((perm_append_comm).trans (hgone.append_right _)).append_left _) ?_
    rw [← append_assoc, ← map_append]
    exact (hsplit.map _).append_right _
  · have hwas := h.inOrder ws'
    rw [hgranted, hwaiting]
    split
    · rw [map_nil, append_nil]
      exact (pairwise_append.mp hwas).1
    · exact hwas
  · rw [hsettled] at hs
    rcases mem_append.mp hs with hs | hs
    · exact (h.outcome s hs).mono (fun id p hp => ⟨p, by rw [hpermits]; exact hp, rfl⟩)
        (hclosed s.1.ws)
    · obtain ⟨entry, hentry, rfl⟩ := mem_map.mp hs
      have hws : entry.ws = ws := by
        simpa [waiting] using (mem_filter.mp (mem_reverse.mp hentry)).2
      change (g'.stateFor entry.ws).closed = true
      rw [hstate, if_pos hws.symm]

theorem Sound.close (h : Sound o g) (ws : W) : Sound o (g.close o ws) := by
  rw [Gate.close]
  cases hget : g.connections.get ws with
  | none => exact h
  | some state =>
    have hstate : g.stateFor ws = state := by rw [stateFor, hget, Option.getD_some]
    subst hstate
    refine Counted.drain ?_
    exact h.toCounted.closed rfl rfl rfl rfl rfl fun ws' => stateFor_setState g ws ws' _

/-! ## Entering -/

/-- A frame that waits is the last of its connection, and cannot start. -/
theorem Sound.enqueue (h : Sound o g) (hstart : g.canStart o (g.stateFor ws) = false)
    (hroom : g.queue.length < o.maxQueue) (hactive : g'.active = g.active)
    (hpermits : g'.permits = g.permits) (hqueue : g'.queue = g.queue ++ [⟨ws, g.waits⟩])
    (hwaits : g'.waits = g.waits + 1) (hsettled : g'.settled = g.settled)
    (hstate : ∀ ws', g'.stateFor ws' = if ws = ws' then
      { g.stateFor ws with queued := (g.stateFor ws).queued + 1 } else g.stateFor ws') :
    Sound o g' := by
  have hkept : ∀ ws', (g'.stateFor ws').active = (g.stateFor ws').active ∧
      (g'.stateFor ws').closed = (g.stateFor ws').closed := by
    intro ws'
    rw [hstate]
    split
    · next heq => rw [heq]; exact ⟨rfl, rfl⟩
    · exact ⟨rfl, rfl⟩
  have hstartable : ∀ entry, g'.startable o entry = g.startable o entry := by
    intro entry
    simp [startable, canStart, hactive, (hkept entry.ws).1, (hkept entry.ws).2]
  have hwaiting : ∀ ws', g'.waiting ws' =
      g.waiting ws' ++ if ws = ws' then [⟨ws, g.waits⟩] else [] := by
    intro ws'
    rw [waiting, hqueue, filter_append, waiting]
    by_cases heq : ws = ws' <;> simp [heq]
  have hbefore : ∀ n ∈ g.queue.map Waiting.wait ++ g.settled.map (fun s => s.1.wait),
      n < g.waits := fun n hn => mem_range.mp (h.settledOnce.mem_iff.mp hn)
  refine ⟨⟨?_, fun ws' => ?_, fun ws' => ?_, fun hpos => ?_, fun hpos ws' => ?_, ?_, ?_,
    fun ws' => ?_, fun s hs => ?_⟩, fun entry hentry => ?_⟩
  · rw [hactive, h.active, unreleased, unreleased, hpermits]
  · rw [(hkept ws').1, h.share, held, held, hpermits]
  · have hwas := h.queued ws'
    rw [hstate, hwaiting]
    split
    · next heq =>
      rw [heq]
      simp [hwas]
    · rw [append_nil]
      exact hwas
  · rw [hactive]
    exact h.global hpos
  · rw [(hkept ws').1]
    exact h.perConnection hpos ws'
  · rw [hqueue, length_append, length_singleton]
    exact hroom
  · rw [hqueue, hsettled, hwaits, map_append, append_assoc, range_succ]
    refine List.Perm.trans (perm_append_comm.append_left _) ?_
    rw [← append_assoc]
    exact h.settledOnce.append_right _
  · have hwas := h.inOrder ws'
    have hgranted : g'.granted ws' = g.granted ws' := by rw [granted, hsettled, granted]
    rw [hgranted, hwaiting, map_append, ← append_assoc]
    split
    · refine pairwise_append.mpr ⟨hwas, pairwise_singleton _ _, fun n hn m hm => ?_⟩
      obtain rfl := mem_singleton.mp hm
      refine hbefore n ?_
      rcases mem_append.mp hn with hn | hn
      · refine mem_append_right _ (map_subset _ ?_ hn)
        exact filter_sublist.subset
      · refine mem_append_left _ (map_subset _ ?_ hn)
        exact filter_sublist.subset
    · rw [map_nil, append_nil]
      exact hwas
  · rw [hsettled] at hs
    exact (h.outcome s hs).mono (fun id p hp => ⟨p, by rw [hpermits]; exact hp, rfl⟩)
      fun hclosed => (hkept s.1.ws).2.trans hclosed
  · rw [hstartable]
    rw [hqueue] at hentry
    rcases mem_concat.mp hentry with hentry | rfl
    · exact h.blocked entry hentry
    · rw [startable, hstart, Bool.and_false]

theorem Sound.place (h : Sound o g) (ws : W) : Sound o (g.place o ws).2 := by
  rw [Gate.place]
  simp only
  split
  · next hcan => exact h.permit hcan
  · next hcan =>
    split
    · exact h
    · split
      · exact h
      · next hfull =>
        exact h.enqueue (eq_false_iff.mpr hcan) (by omega) rfl rfl rfl rfl rfl
          fun ws' => stateFor_setState g ws ws' _

omit [DecidableEq W] in
theorem canStart_of_disabled (h : o.enabled = false) (g : Gate W) (state : ConnectionState) :
    g.canStart o state = true := by
  simp only [MessageAdmissionConfig.enabled, or_eq_false_iff, decide_eq_false_iff_not,
    not_lt, Nat.le_zero] at h
  simp [canStart, h]

theorem Sound.enter (h : Sound o g) (ws : W) (bytes : ℕ) (now : ℚ) :
    Sound o (g.enter o ws bytes now).2 := by
  have hstored : Sound o (g.setState ws (g.stateFor ws)) :=
    (sameWork_setState rfl rfl rfl).sound h
  rw [Gate.enter]
  simp only
  split
  · next hdisabled =>
    rw [not_eq_true'] at hdisabled
    exact hstored.permit (canStart_of_disabled hdisabled _ _)
  · split
    · exact hstored
    · split
      · exact (sameWork_setBucket _ _ _).sound hstored
      · exact ((sameWork_chargeRates _ _ _ _).sound hstored).place ws

theorem sound_create (o : MessageAdmissionConfig) : Sound o (create : Gate W) where
  active := rfl
  share _ := rfl
  queued _ := rfl
  global _ := Int.natCast_nonneg _
  perConnection _ _ := Int.natCast_nonneg _
  queueBound := Nat.zero_le _
  settledOnce := List.Perm.refl _
  inOrder _ := List.Pairwise.nil
  outcome _ hs := absurd hs not_mem_nil
  blocked _ hentry := absurd hentry not_mem_nil

end AdapterWs.MessageAdmission
