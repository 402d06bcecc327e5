import AdapterWs.Smooth.Channel

/-!
# A resynchronisation on each connection

While a request is in flight, a transition to open asks for nothing and the reply that comes
belongs to the connection before. Where no request is in flight at a transition, one is issued
after it, and every reply that is installed was asked for on the connection it is installed on.
-/

namespace AdapterWs.Smooth

namespace Channel

variable {S C : Type} {o : ChannelOptions S C} {c c' : Channel S C}

/-- Once its jobs have run, an open connection has been asked for a catalog; and no reply was
installed on a connection that opened after the request was issued. -/
structure Resynced (c : Channel S C) : Prop where
  served : c.destroyed = false → c.prevStatus = some .opened → c.scheduled = [] → c.served = true
  current : ∀ i ∈ c.installs, i.issued = i.installed

/-- The status becomes open only with no request in flight. -/
def OpensIdle (c : Channel S C) : ChannelEvent S C → Prop
  | .status status _ => status = .opened → c.prevStatus ≠ some .opened → c.calls = []
  | _ => True

instance (c : Channel S C) : DecidablePred (OpensIdle c)
  | .status status _ =>
    inferInstanceAs (Decidable (status = .opened → c.prevStatus ≠ some .opened → c.calls = []))
  | .issue | .settle .. | .update .. | .remove .. | .ack .. | .loop .. | .command .. | .resync ..
  | .destroy => .isTrue trivial

/-- What a channel keeps. -/
structure Kept (c : Channel S C) : Prop where
  flag : c.syncInFlight = true → c.scheduled ≠ [] ∨ c.calls ≠ []
  served : c.destroyed = false → c.prevStatus = some .opened → c.served = true ∨ c.scheduled ≠ []
  calls : ∀ call ∈ c.calls, call.opens = c.opens
  installs : ∀ i ∈ c.installs, i.issued = i.installed

theorem Kept.resynced (h : c.Kept) : c.Resynced :=
  ⟨fun hlive hopen hjobs => (h.served hlive hopen).resolve_right (not_not_intro hjobs), h.installs⟩

theorem kept_create (o : ChannelOptions S C) : (create o).Kept :=
  ⟨fun h => (by cases h), fun _ h => (by cases h), List.forall_mem_nil _,
    List.forall_mem_nil _⟩

/-! ## Asking -/

theorem Kept.resync (h : c.Kept) (mode : Mode) (mono : ℤ) : (c.resync mode mono).Kept := by
  rw [Channel.resync]
  split_ifs
  · exact h
  · exact ⟨fun _ => .inl (by simp), fun _ _ => .inr (by simp), h.calls, h.installs⟩

theorem Kept.notifyOverflow (h : c.Kept) (state : Bool) (cb : Callback) (mono : ℤ) :
    (c.notifyOverflow state cb mono).1.Kept := by
  have hnoted : Kept { c with wasOverflowed := state } :=
    ⟨h.flag, h.served, h.calls, h.installs⟩
  rw [Channel.notifyOverflow]
  simp only
  split_ifs
  · exact hnoted.resync _ _
  · exact hnoted

theorem Kept.clear (h : c.Kept) : Kept { c with syncInFlight := false } :=
  ⟨fun hflag => (by cases hflag), h.served, h.calls, h.installs⟩

/-- A channel that is asked to resynchronise has a job or a request. -/
theorem Kept.asked (h : c.Kept) (hlive : c.destroyed = false) (mode : Mode) (mono : ℤ) :
    (c.resync mode mono).scheduled ≠ [] ∨ c.calls ≠ [] := by
  rw [Channel.resync, hlive, Bool.false_or]
  split_ifs with hflag
  · exact h.flag hflag
  · exact .inl (by simp)

theorem resync_frame (c : Channel S C) (mode : Mode) (mono : ℤ) :
    (c.resync mode mono).calls = c.calls ∧ (c.resync mode mono).prevStatus = c.prevStatus ∧
      (c.resync mode mono).destroyed = c.destroyed := by
  rw [Channel.resync]
  split_ifs <;> exact ⟨rfl, rfl, rfl⟩

/-- A status is delivered, with no request in flight where it opens the connection. -/
theorem Kept.onStatus (h : c.Kept) (hlive : c.destroyed = false) {status : Status} (mono : ℤ)
    (hidle : status = .opened → c.prevStatus ≠ some .opened → c.calls = []) :
    (c.onStatus status mono).Kept := by
  rw [Channel.onStatus]
  generalize hopening : decide (status = .opened ∧ c.prevStatus ≠ some .opened) = opening
  by_cases hopen : status = .opened
  · by_cases hstill : c.prevStatus = some .opened
    · -- the connection was open already
      obtain rfl : opening = false := by simp [← hopening, hstill]
      simp only [if_pos hopen, Bool.false_eq_true, if_false, add_zero]
      generalize (if c.prevStatus = some .suspended then Mode.soft else .fresh) = mode
      have hresynced := h.resync mode mono
      refine ⟨hresynced.flag, fun hlive _ => hresynced.served hlive ?_, hresynced.calls,
        hresynced.installs⟩
      rw [(resync_frame c mode mono).2.1, hstill]
    · have hcalls := hidle hopen hstill
      have hbegun : Kept { c with opens := c.opens + 1, served := false } :=
        ⟨h.flag, fun _ hprev => absurd hprev hstill, fun call hcall =>
          absurd (hcalls ▸ hcall) List.not_mem_nil, h.installs⟩
      obtain rfl : opening = true := by simp [← hopening, hstill, hopen]
      simp only [if_pos hopen, if_true]
      generalize (if c.prevStatus = some .suspended then Mode.soft else .fresh) = mode
      have hresynced := hbegun.resync mode mono
      refine ⟨hresynced.flag, fun _ _ => .inr ?_, hresynced.calls, hresynced.installs⟩
      exact (hbegun.asked hlive mode mono).resolve_right (not_not_intro hcalls)
  · obtain rfl : opening = false := by simp [← hopening, hopen]
    simp only [if_neg hopen, Bool.false_eq_true, if_false, add_zero]
    refine ⟨h.flag, fun _ hprev => ?_, h.calls, h.installs⟩
    exact absurd (Option.some.inj hprev) hopen

/-- A job issues its request on the connection it runs on. -/
theorem Kept.issue (h : c.Kept) (hissue : c.issue = some c') : c'.Kept := by
  rw [Channel.issue] at hissue
  cases hjobs : c.scheduled with
  | nil => simp [hjobs] at hissue
  | cons job scheduled =>
    simp only [hjobs] at hissue
    cases hissue
    refine ⟨fun _ => .inr (by simp), fun _ _ => .inl rfl, fun call hcall => ?_, h.installs⟩
    rcases List.mem_append.mp hcall with hcall | hcall
    · exact h.calls call hcall
    · rw [List.mem_singleton.mp hcall]

/-! ## Replies -/

theorem Kept.settled (h : c.Kept) (call : SyncCall) :
    Kept { c with calls := c.calls.erase call, syncInFlight := false } :=
  ⟨fun hflag => (by cases hflag), h.served,
    fun k hk => h.calls k (List.mem_of_mem_erase hk), h.installs⟩

theorem Kept.adopt (h : c.Kept) (reply : SyncReply S) : (c.adopt reply).Kept :=
  ⟨h.flag, h.served, h.calls, h.installs⟩

/-- A reply is installed on the connection it was asked for on. -/
theorem Kept.rebuild (h : c.Kept) {call : SyncCall} (hcall : call.opens = c.opens)
    (reply : SyncReply S) (recvMono : ℤ) : (c.rebuild o call reply recvMono).Kept := by
  have hinstalls : ∀ i ∈ c.installs ++ [⟨call.opens, c.opens⟩], i.issued = i.installed := by
    intro i hi
    rcases mem_concat.mp hi with hi | rfl
    · exact h.installs i hi
    · exact hcall
  rw [Channel.rebuild]
  cases call.job.mode with
  | soft => exact ⟨h.flag, h.served, h.calls, hinstalls⟩
  | fresh => exact ⟨h.flag, h.served, h.calls, hinstalls⟩

theorem Kept.onReply (h : c.Kept) {call : SyncCall} (hcall : call ∈ c.calls)
    (reply : Option (SyncReply S)) (cb : Callback) (recvMono : ℤ) :
    (c.onReply o call reply cb recvMono).Kept := by
  have hsettled := h.settled call
  cases reply with
  | none => exact hsettled
  | some reply =>
    simp only [Channel.onReply]
    have hrebuilt := (hsettled.adopt reply).rebuild (o := o) (h.calls call hcall) reply recvMono
    split_ifs
    · exact hsettled
    · exact (hrebuilt.notifyOverflow false cb recvMono).clear
    · exact hrebuilt.notifyOverflow false cb recvMono
    · exact hrebuilt

theorem Kept.settle (h : c.Kept) {id : ℕ} {outcome : Option (Option (SyncReply S))} {cb : Callback}
    {recvMono : ℤ} (hsettle : c.settle o id outcome cb recvMono = some c') : c'.Kept := by
  obtain ⟨call, hfind, rfl⟩ := Option.map_eq_some_iff.mp hsettle
  have hcall := List.mem_of_find?_eq_some hfind
  cases outcome with
  | none => exact h.settled call
  | some reply => exact h.onReply hcall reply cb recvMono

/-! ## Frames, commands and overflows -/

section

variable (h : c.Kept)
include h

theorem Kept.onUpdate (key : JsString) (state : S) (t : Option ℤ) (recvMono : ℤ) :
    (c.onUpdate o key state t recvMono).Kept := by
  rw [Channel.onUpdate]
  cases o.unpack state with
  | none => exact h
  | some state =>
    simp only
    split_ifs
    · exact ⟨h.flag, h.served, h.calls, h.installs⟩
    · exact ⟨h.flag, h.served, h.calls, h.installs⟩

theorem Kept.onAck (id : ℕ) (state : S) (t : Option ℤ) (cb : Callback) (recvMono : ℤ) :
    (c.onAck o id state t cb recvMono).Kept := by
  rw [Channel.onAck]
  cases o.unpack state with
  | none => exact h
  | some state =>
    simp only
    cases c.predictor.ack o.toPredictorOptions id state with
    | none => exact h
    | some r =>
      simp only
      have hacked : ∀ (p : Predictor S C) (l : List ClockSample),
          Kept { c with predictor := p, clock := l } :=
        fun _ _ => ⟨h.flag, h.served, h.calls, h.installs⟩
      split_ifs
      · exact (hacked _ _).notifyOverflow false cb recvMono
      · exact hacked _ _

theorem Kept.loop (cb : Callback) (mono : ℤ) : (c.loop o cb mono).Kept := by
  have hchecked : Kept
      { c with predictor := c.predictor.checkOverflow o.toPredictorOptions mono } :=
    ⟨h.flag, h.served, h.calls, h.installs⟩
  rw [Channel.loop]
  simp only
  by_cases hdestroyed : c.destroyed = true
  · rw [if_pos hdestroyed]
    exact h
  · rw [if_neg hdestroyed]
    split_ifs
    · exact (hchecked.notifyOverflow true cb mono)
    · exact (hchecked.notifyOverflow true cb mono).resync .fresh mono
    · exact hchecked.resync .fresh mono
    · exact hchecked
    · exact hchecked

theorem Kept.command (cmd : C) (cb : Callback) (mono : ℤ) : (c.command o cmd cb mono).Kept := by
  have hsent : Kept
      { c with predictor := (c.predictor.command o.toPredictorOptions cmd mono).2 } :=
    ⟨h.flag, h.served, h.calls, h.installs⟩
  rw [Channel.command]
  simp only
  split_ifs
  · exact hsent.notifyOverflow true cb mono
  · exact (hsent.notifyOverflow true cb mono).resync .fresh mono
  · exact hsent

theorem Kept.destroy : c.destroy.Kept :=
  ⟨h.flag, fun hlive => (by cases hlive), h.calls, h.installs⟩

end

end Channel

open Channel JsString

variable {S C : Type} {o : ChannelOptions S C} {c : Channel S C} {es : List (ChannelEvent S C)}

/-- In a run whose connections open with no request in flight, every connection is served, by a
reply of its own. -/
theorem resynced_of_opensIdle (h : (channelMachine o).ReachesWhere OpensIdle es c) :
    c.Resynced := by
  refine Kept.resynced (h.invariant (kept_create o) fun c e c' hc hok hstep => ?_)
  cases e with
  | status status mono =>
    simp only [channelMachine] at hstep
    split_ifs at hstep with hdestroyed
    cases hstep
    exact hc.onStatus (Bool.eq_false_of_not_eq_true hdestroyed) mono hok
  | issue => exact hc.issue hstep
  | settle id outcome cb mono => exact hc.settle hstep
  | update key state t mono =>
    simp only [channelMachine] at hstep
    split_ifs at hstep
    cases hstep
    exact hc.onUpdate key state t mono
  | remove key mono =>
    simp only [channelMachine] at hstep
    split_ifs at hstep
    cases hstep
    exact ⟨hc.flag, hc.served, hc.calls, hc.installs⟩
  | ack id state t cb mono =>
    simp only [channelMachine] at hstep
    split_ifs at hstep
    cases hstep
    exact hc.onAck id state t cb mono
  | loop cb mono =>
    cases hstep
    exact hc.loop cb mono
  | command cmd cb mono =>
    cases hstep
    exact hc.command cmd cb mono
  | resync mono =>
    cases hstep
    exact hc.resync .fresh mono
  | destroy =>
    cases hstep
    exact hc.destroy

/-- Options of a channel whose states are numbers. -/
def counterOptions : ChannelOptions ℕ ℕ where
  apply := (· + ·)
  initial := 0
  windowCap := 4
  windowMaxAgeMs := 1000
  unpack := some

/-- A reply that holds one entity and the caller's own state. -/
def counterReply : SyncReply ℕ where
  topic := some (lit "room")
  you := some (lit "a")
  lc := false
  cells := false
  t := some 100
  states := [⟨some (lit "a"), 7⟩, ⟨some (lit "b"), 9⟩]
  ack := 0

/-- A connection is served and closes, and the next one is served too. -/
def reconnectRun : List (ChannelEvent ℕ ℕ) :=
  [.status .opened 0, .issue, .settle 0 (some (some counterReply)) ⟨false, false⟩ 5,
    .status .disconnected 6, .status .opened 8, .issue,
    .settle 1 (some (some counterReply)) ⟨false, false⟩ 9]

theorem resynced_of_opensIdle_reconnectRun :
    ∃ es c, (channelMachine counterOptions).ReachesWhere OpensIdle es c ∧ c.installs.length = 2 ∧
      c.Resynced := by
  obtain ⟨c, hrun, hlength⟩ : ∃ c, (channelMachine counterOptions).ReachesWhere OpensIdle
      reconnectRun c ∧ c.installs.length = 2 :=
    Machine.exists_of_execWhere (by decide +kernel)
  exact ⟨_, c, hrun, hlength, resynced_of_opensIdle hrun⟩

/-- A request outlives its connection: the next one asks for nothing and takes its reply. -/
def pendingRun : List (ChannelEvent ℕ ℕ) :=
  [.status .opened 0, .issue, .status .disconnected 6, .status .opened 8,
    .settle 0 (some (some counterReply)) ⟨false, false⟩ 9]

theorem not_resynced_pendingRun :
    ∃ es c, (channelMachine counterOptions).Reaches es c ∧ c.destroyed = false ∧ ¬c.Resynced := by
  obtain ⟨c, hrun, hlive, hopen, hjobs, hserved⟩ : ∃ c, (channelMachine counterOptions).Reaches
      pendingRun c ∧ c.destroyed = false ∧ c.prevStatus = some .opened ∧ c.scheduled = [] ∧
      c.served = false :=
    Machine.exists_of_exec (by decide +kernel)
  refine ⟨_, c, hrun, hlive, fun h => ?_⟩
  rw [h.served hlive hopen hjobs] at hserved
  cases hserved

end AdapterWs.Smooth
