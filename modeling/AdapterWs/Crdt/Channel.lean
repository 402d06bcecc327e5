import AdapterWs.Lib.JsString
import AdapterWs.Lib.Machine

/-!
# A channel and its reference on the server

A sync that is sent takes a reference on the server, and a close gives it back. The channel closes
when it is destroyed, but only if a reply to a sync went through.
-/

namespace AdapterWs.Crdt

open JsString

/-- What of a sync has happened. -/
inductive SyncStage
  | queued
  | discarded
  | sent
  | settled
  deriving DecidableEq

/-- A sync, with the generation it was issued under. -/
structure Sync where
  gen : ℕ
  stage : SyncStage
  deriving DecidableEq

/-- How the request of a sync ends: with an error, with no object, or with a reply that may name a
topic, and whose handling may throw. -/
inductive SyncReply
  | rejected
  | noObject
  | reply (topic : JsString) (throws : Bool)

/-- What a channel sends besides updates. -/
inductive MountFrame
  | sync
  | close
  deriving DecidableEq

/-- The connection state of a channel. With it, the connection there is now, and the frames of the
mount, each with the connection it was sent on. -/
structure Channel where
  destroyed : Bool
  synced : Bool
  everSynced : Bool
  degraded : Bool
  syncGen : ℕ
  syncInFlightGen : Option ℕ
  lastStatus : JsString
  wireTopic : Option JsString
  syncs : List Sync
  connection : ℕ
  frames : List (ℕ × MountFrame)
  deriving DecidableEq

namespace Channel

/-- `resync()`. -/
def resync (s : Channel) : Channel :=
  if s.destroyed = true ∨ s.syncInFlightGen = some s.syncGen then s
  else
    { s with
      syncInFlightGen := some s.syncGen
      syncs := s.syncs ++ [⟨s.syncGen, .queued⟩] }

/-- The turn of a sync, which sends its request unless the channel or the generation is gone. -/
def send (s : Channel) (i : ℕ) (sync : Sync) : Channel :=
  if s.destroyed = true ∨ sync.gen ≠ s.syncGen then
    { s with syncs := s.syncs.set i { sync with stage := .discarded } }
  else
    { s with
      syncs := s.syncs.set i { sync with stage := .sent }
      frames := s.frames ++ [(s.connection, .sync)] }

/-- The request of a sync ends, or was discarded. -/
def settle (s : Channel) (i : ℕ) (sync : Sync) (reply : SyncReply) : Channel :=
  let s :=
    { s with
      syncs := s.syncs.set i { sync with stage := .settled }
      syncInFlightGen := if s.syncInFlightGen = some sync.gen then none else s.syncInFlightGen }
  if s.destroyed = true ∨ sync.stage = .discarded ∨ sync.gen ≠ s.syncGen then s
  else
    match reply with
    | .rejected | .noObject => { s with degraded := true }
    | .reply topic throws =>
      let wireTopic :=
        if s.wireTopic = none ∧ topic ≠ [] then some (lit "__crdt:" ++ topic) else s.wireTopic
      let s := { s with wireTopic }
      if throws = true ∨ wireTopic = none then { s with degraded := true }
      else
        let s := { s with everSynced := true }
        if s.lastStatus ≠ lit "open" then s else { s with synced := true, degraded := false }

/-- The status store has a value. -/
def onStatus (s : Channel) (status : JsString) : Channel :=
  if s.destroyed = true then { s with lastStatus := status }
  else
    let s := { s with
      lastStatus := status
      syncGen := if status = s.lastStatus then s.syncGen else s.syncGen + 1
      synced := false }
    if status = lit "open" then s.resync else s

/-- `destroy()`, where the transport has a `close` or not. -/
def destroy (closes : Bool) (s : Channel) : Channel :=
  if s.destroyed = true then s
  else
    { s with
      destroyed := true
      frames := s.frames ++
        if s.everSynced = true ∧ closes = true then [(s.connection, .close)] else [] }

/-- The mount's reference is given back: a close follows the syncs of the connection. -/
def Released (s : Channel) : Prop :=
  (s.connection, .sync) ∈ s.frames → ∃ before after,
    s.frames = before ++ (s.connection, .close) :: after ∧ (s.connection, .sync) ∉ after

end Channel

/-- What happens to a channel. The app, the status and the timers call `resync`. -/
inductive ChannelEvent
  | resync
  | send (i : ℕ)
  | settle (i : ℕ) (reply : SyncReply)
  | status (status : JsString)
  | reconnect
  | destroy

/-- Every order of these. -/
def crdtChannel (closes : Bool) : Machine Channel ChannelEvent where
  init := ⟨false, false, false, false, 0, none, [], none, [], 0, []⟩
  step s
    | .resync => some s.resync
    | .send i => s.syncs[i]?.bind fun sync =>
      if sync.stage = .queued then some (s.send i sync) else none
    | .settle i reply => s.syncs[i]?.bind fun sync =>
      if sync.stage = .discarded ∨ sync.stage = .sent then some (s.settle i sync reply) else none
    | .status status => some (s.onStatus status)
    | .reconnect => some { s with connection := s.connection + 1 }
    | .destroy => some (s.destroy closes)

namespace Channel

variable {s t : Channel} {closes : Bool} {e : ChannelEvent} {es fs : List ChannelEvent}

/-- What a step sends: a sync at most, but for a destroy. -/
structure Moves (s t : Channel) : Prop where
  destroyed : t.destroyed = s.destroyed
  frames : t.frames = s.frames ∨ s.destroyed = false ∧ t.frames = s.frames ++ [(s.connection, .sync)]

theorem moves_resync (s : Channel) : Moves s s.resync ∧ s.resync.connection = s.connection := by
  rw [resync]
  split <;> exact ⟨⟨rfl, .inl rfl⟩, rfl⟩

theorem moves_settle (i : ℕ) (sync : Sync) (reply : SyncReply) :
    Moves s (s.settle i sync reply) ∧ (s.settle i sync reply).connection = s.connection := by
  unfold settle
  simp only
  split
  · exact ⟨⟨rfl, .inl rfl⟩, rfl⟩
  · cases reply with
    | rejected | noObject => exact ⟨⟨rfl, .inl rfl⟩, rfl⟩
    | reply topic throws =>
      simp only
      split_ifs <;> exact ⟨⟨rfl, .inl rfl⟩, rfl⟩

theorem moves_onStatus (status : JsString) :
    Moves s (s.onStatus status) ∧ (s.onStatus status).connection = s.connection := by
  unfold onStatus resync
  simp only
  split_ifs <;> exact ⟨⟨rfl, .inl rfl⟩, rfl⟩

theorem moves_of_step (he : e ≠ .destroy) (hs : (crdtChannel closes).step s e = some t) :
    Moves s t ∧ (e ≠ .reconnect → t.connection = s.connection) := by
  cases e with
  | resync =>
    cases hs
    exact (moves_resync s).imp_right fun h _ => h
  | send i =>
    obtain ⟨sync, -, hstep⟩ := Option.bind_eq_some_iff.mp hs
    obtain ⟨-, ⟨⟩⟩ := Option.ite_none_right_eq_some.mp hstep
    rw [send]
    split
    · exact ⟨⟨rfl, .inl rfl⟩, fun _ => rfl⟩
    · next hgo =>
      rw [not_or, Bool.not_eq_true] at hgo
      exact ⟨⟨rfl, .inr ⟨hgo.1, rfl⟩⟩, fun _ => rfl⟩
  | settle i reply =>
    obtain ⟨sync, -, hstep⟩ := Option.bind_eq_some_iff.mp hs
    obtain ⟨-, ⟨⟩⟩ := Option.ite_none_right_eq_some.mp hstep
    exact (moves_settle i sync reply).imp_right fun h _ => h
  | status status =>
    cases hs
    exact (moves_onStatus status).imp_right fun h _ => h
  | reconnect =>
    cases hs
    exact ⟨⟨rfl, .inl rfl⟩, fun hne => absurd rfl hne⟩
  | destroy => exact absurd rfl he

theorem frames_of_destroyed (hdestroyed : s.destroyed = true)
    (hs : (crdtChannel closes).step s e = some t) :
    t.destroyed = true ∧ t.frames = s.frames ∧ (e ≠ .reconnect → t.connection = s.connection) := by
  by_cases he : e = .destroy
  · subst he
    cases hs
    rw [destroy, if_pos hdestroyed]
    exact ⟨hdestroyed, rfl, fun _ => rfl⟩
  · obtain ⟨hmoves, hconnection⟩ := moves_of_step he hs
    refine ⟨hmoves.destroyed.trans hdestroyed, hmoves.frames.resolve_right fun hsent => ?_,
      hconnection⟩
    cases hdestroyed.symm.trans hsent.1

theorem frames_of_exec (hdestroyed : s.destroyed = true)
    (hs : (crdtChannel closes).exec s fs = some t) (hfs : ∀ e ∈ fs, e ≠ .reconnect) :
    t.frames = s.frames ∧ t.connection = s.connection := by
  induction fs generalizing s with
  | nil =>
    cases hs
    exact ⟨rfl, rfl⟩
  | cons e fs ih =>
    obtain ⟨s', hstep, hrest⟩ := Option.bind_eq_some_iff.mp hs
    obtain ⟨hgone, hframes, hconnection⟩ := frames_of_destroyed hdestroyed hstep
    obtain ⟨hframes', hconnection'⟩ := ih hgone hrest fun e he => hfs e (.tail _ he)
    exact ⟨hframes'.trans hframes, hconnection'.trans (hconnection (hfs e (.head _)))⟩

theorem no_close (h : (crdtChannel closes).Reaches es s) (hlive : s.destroyed = false) :
    ∀ frame ∈ s.frames, frame.2 = .sync := by
  refine h.invariant (I := fun s => s.destroyed = false → ∀ frame ∈ s.frames, frame.2 = .sync)
    (fun _ _ hframe => absurd hframe List.not_mem_nil) (fun s e t ih _ hs hlive => ?_) hlive
  by_cases he : e = .destroy
  · subst he
    cases hs
    rw [destroy] at hlive
    split at hlive
    · next hgone => cases hgone.symm.trans hlive
    · cases hlive
  · obtain ⟨hmoves, -⟩ := moves_of_step he hs
    have hold := ih (hmoves.destroyed.symm.trans hlive)
    rcases hmoves.frames with hsame | ⟨-, hsent⟩
    · rwa [hsame]
    · intro frame hframe
      rcases mem_concat.mp (hsent ▸ hframe) with hmem | rfl
      · exact hold frame hmem
      · rfl

/-- After a destroy no sync is sent, and the reference is given back exactly where the channel was
synced once and can close, or has sent no sync on the connection. -/
theorem released_iff (h : (crdtChannel closes).Reaches es s) (hlive : s.destroyed = false)
    (ht : (crdtChannel closes).exec s (.destroy :: fs) = some t) (hfs : ∀ e ∈ fs, e ≠ .reconnect) :
    (∃ closed, t.frames = s.frames ++ closed ∧ ∀ frame ∈ closed, frame.2 = .close) ∧
      (t.Released ↔
        (s.everSynced = true ∧ closes = true) ∨ (s.connection, .sync) ∉ s.frames) := by
  have hdestroy : s.destroy closes = { s with
      destroyed := true
      frames := s.frames ++
        if s.everSynced = true ∧ closes = true then [(s.connection, .close)] else [] } :=
    if_neg (by simp [hlive])
  obtain ⟨hframes, hconnection⟩ := frames_of_exec (s := s.destroy closes) (by rw [hdestroy]) ht hfs
  have hopen := no_close h hlive
  rw [hdestroy] at hframes hconnection
  simp only at hframes hconnection
  rw [Released, hframes, hconnection]
  by_cases hcloses : s.everSynced = true ∧ closes = true
  · rw [if_pos hcloses]
    exact ⟨⟨_, rfl, fun frame hframe => List.mem_singleton.mp hframe ▸ rfl⟩,
      iff_of_true (fun _ => ⟨s.frames, [], rfl, List.not_mem_nil⟩) (.inl hcloses)⟩
  · rw [if_neg hcloses, List.append_nil]
    refine ⟨⟨[], (List.append_nil _).symm, fun _ hframe => absurd hframe List.not_mem_nil⟩,
      fun hreleased => .inr fun hsync => ?_, fun hsent hsync => absurd hsync ?_⟩
    · obtain ⟨before, after, heq, -⟩ := hreleased hsync
      cases hopen (s.connection, .close) (heq ▸ List.mem_append_right _ (.head _))
    · exact hsent.resolve_left hcloses

/-- A channel that was synced, and is destroyed while another sync is on its way. -/
theorem released_iff_synced : ∃ s, (crdtChannel true).Reaches
    [.status (lit "open"), .send 0, .settle 0 (.reply [97] false), .resync, .send 1] s ∧
      (s.destroy true).Released ∧ s.frames = [(0, .sync), (0, .sync)] := by
  obtain ⟨s, hs, hframes, hlive, hsynced⟩ : ∃ s, (crdtChannel true).Reaches
      [.status (lit "open"), .send 0, .settle 0 (.reply [97] false), .resync, .send 1] s ∧
        s.frames = [(0, .sync), (0, .sync)] ∧ s.destroyed = false ∧ s.everSynced = true :=
    Machine.exists_of_exec (by decide +kernel)
  have hboth := released_iff hs hlive (rfl : (crdtChannel true).exec s [.destroy] = some _)
    fun _ he => absurd he List.not_mem_nil
  exact ⟨s, hs, hboth.2.mpr (.inl ⟨hsynced, rfl⟩), hframes⟩

/-- A channel that is destroyed while its first sync is on its way. -/
theorem not_released_firstSync : ¬∀ (es : List ChannelEvent) (t : Channel),
    (crdtChannel true).Reaches (es ++ [.destroy]) t → t.Released := by
  intro h
  obtain ⟨t, ht, hconnection, hframes⟩ : ∃ t, (crdtChannel true).Reaches
      ([.status (lit "open"), .send 0] ++ [.destroy]) t ∧ t.connection = 0 ∧
        t.frames = [(0, .sync)] := Machine.exists_of_exec (by decide +kernel)
  have hreleased := h _ t ht
  rw [Released, hconnection, hframes] at hreleased
  obtain ⟨before, after, heq, -⟩ := hreleased (.head _)
  have hclose : ((0, .close) : ℕ × MountFrame) ∈ [(0, .sync)] :=
    heq ▸ List.mem_append_right _ (.head _)
  cases List.mem_singleton.mp hclose

end Channel
end AdapterWs.Crdt
