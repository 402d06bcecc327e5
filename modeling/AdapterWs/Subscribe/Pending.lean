import AdapterWs.Lib.JsMap
import AdapterWs.Lib.JsSet

/-!
# Pending subscribes of one connection

Every subscribe that awaits its authorization is enrolled under its topic. The attempts of one
topic share one entry: the revocation epoch they must present when they land, how many of them
are in flight, and whether live authority backs the membership. The three settle functions close
one attempt and read the entry each in its own way.
-/

namespace AdapterWs.Subscribe

/-- The entry the attempts of one topic share. -/
structure PendingEntry where
  epoch : ℕ
  inflight : ℕ
  granted : Bool
  deriving DecidableEq

/-- The subscription slots of a connection. -/
structure UserData where
  /-- `WS_SUBSCRIPTIONS`. -/
  subscriptions : JsSet String
  /-- `WS_PENDING_SUBSCRIBES`. -/
  pending : JsMap String PendingEntry
  /-- `WS_PENDING_SUBSCRIBES_TOTAL`. -/
  pendingTotal : ℕ

/-- The verdicts of `settleHeldSubscribe`; `settleDeniedSubscribe` never answers `ack`. -/
inductive Verdict
  | ack
  | deny
  | denyUnwind
  deriving DecidableEq

variable {ud : UserData} {topic topic' : String} {token : ℕ} {entry : PendingEntry} (held : Bool)

/-- `membershipUnconfirmed(ud, topic)`. -/
def membershipUnconfirmed (ud : UserData) (topic : String) : Bool :=
  if ud.pendingTotal = 0 then false else (ud.pending.get topic).any fun entry => !entry.granted

/-- `heldLandingWouldAck(ud, topic, token)`. -/
def heldLandingWouldAck (ud : UserData) (topic : String) (token : ℕ) : Bool :=
  match ud.pending.get topic with
  | none => true
  | some entry => decide (entry.epoch = token) || entry.granted

/-- `isPendingSubscribeCancelled(ud, topic, token)`. -/
def isPendingSubscribeCancelled (ud : UserData) (topic : String) (token : ℕ) : Bool :=
  match ud.pending.get topic with
  | none => true
  | some entry => decide (entry.epoch ≠ token)

/-- The entry a new attempt joins: the open one, or a fresh one that takes its authority from the
membership. -/
def enrolled (ud : UserData) (topic : String) (held : Bool) : PendingEntry :=
  (ud.pending.get topic).getD { epoch := 0, inflight := 0, granted := held }

/-- `beginPendingSubscribe(ud, topic, held)`: the token and the slots after it. -/
def beginPendingSubscribe (ud : UserData) (topic : String) (held : Bool) : ℕ × UserData :=
  let entry := enrolled ud topic held
  (entry.epoch,
    { ud with
      pending := ud.pending.set topic { entry with inflight := entry.inflight + 1 }
      pendingTotal := ud.pendingTotal + 1 })

/-- One attempt leaves its entry, which goes with the last one. -/
def leavePending (ud : UserData) (topic : String) (entry : PendingEntry) : UserData :=
  { ud with
    pending :=
      if entry.inflight - 1 = 0 then ud.pending.delete topic
      else ud.pending.set topic { entry with inflight := entry.inflight - 1 }
    pendingTotal := ud.pendingTotal - 1 }

/-- `settlePendingSubscribe(ud, topic, token, granted)`: whether the grant may be installed. -/
def settlePendingSubscribe (ud : UserData) (topic : String) (token : ℕ) (granted : Bool) :
    Bool × UserData :=
  match ud.pending.get topic with
  | none => (false, ud)
  | some entry =>
    (decide (entry.epoch = token),
      leavePending ud topic
        { entry with granted := entry.granted || (granted && decide (entry.epoch = token)) })

/-- `settleHeldSubscribe(ud, topic, token)`. -/
def settleHeldSubscribe (ud : UserData) (topic : String) (token : ℕ) : Verdict × UserData :=
  match ud.pending.get topic with
  | none => (.ack, ud)
  | some entry =>
    if entry.epoch = token then (.ack, leavePending ud topic { entry with granted := true })
    else
      (if entry.granted then .ack else if entry.inflight ≤ 1 then .denyUnwind else .deny,
        leavePending ud topic entry)

/-- `settleDeniedSubscribe(ud, topic, token, held)`; the source does not read its token. -/
def settleDeniedSubscribe (ud : UserData) (topic : String) (held : Bool) : Verdict × UserData :=
  match ud.pending.get topic with
  | none => (.deny, ud)
  | some entry =>
    (if !held || entry.granted || decide (1 < entry.inflight) then .deny else .denyUnwind,
      leavePending ud topic entry)

/-- `tombstonePendingSubscribe(ud, topic)`: whether an attempt was cancelled. -/
def tombstonePendingSubscribe (ud : UserData) (topic : String) : Bool × UserData :=
  match ud.pending.get topic with
  | none => (false, ud)
  | some entry =>
    if entry.inflight = 0 then (false, ud)
    else
      (true,
        { ud with
          pending := ud.pending.set topic
            { entry with epoch := entry.epoch + 1, granted := false } })

/-- The first lines of `releaseMembership`: completed authority is withdrawn, the epoch stays. -/
def withdrawGrant (ud : UserData) (topic : String) : UserData :=
  match ud.pending.get topic with
  | none => ud
  | some entry => { ud with pending := ud.pending.set topic { entry with granted := false } }

/-- `addLogicalSubscription`. -/
def addLogical (ud : UserData) (topic : String) : UserData :=
  { ud with subscriptions := ud.subscriptions.add topic }

/-- `removeLogicalSubscription`. -/
def removeLogical (ud : UserData) (topic : String) : UserData :=
  { ud with subscriptions := ud.subscriptions.delete topic }

/-! ## The entries after each operation -/

/-- The in-flight count of a topic. -/
def inflight (ud : UserData) (topic : String) : ℕ :=
  ((ud.pending.get topic).map PendingEntry.inflight).getD 0

/-- The in-flight counts of all entries together. -/
def pendingSum (ud : UserData) : ℕ := ud.pending.total PendingEntry.inflight

theorem get_begin :
    (beginPendingSubscribe ud topic held).2.pending.get topic' =
      if topic = topic' then
        some { enrolled ud topic held with inflight := (enrolled ud topic held).inflight + 1 }
      else ud.pending.get topic' :=
  JsMap.get_set _ _ _ _

@[simp] theorem pendingTotal_begin :
    (beginPendingSubscribe ud topic held).2.pendingTotal = ud.pendingTotal + 1 := rfl

theorem pendingSum_begin :
    pendingSum (beginPendingSubscribe ud topic held).2 = pendingSum ud + 1 := by
  have hset := ud.pending.total_set PendingEntry.inflight topic
    { enrolled ud topic held with inflight := (enrolled ud topic held).inflight + 1 }
  have hold : ((ud.pending.get topic).map PendingEntry.inflight).getD 0 =
      (enrolled ud topic held).inflight := by
    rw [enrolled]
    cases ud.pending.get topic with
    | none => rfl
    | some entry => rfl
  rw [hold] at hset
  change (ud.pending.set topic _).total _ = _
  rw [pendingSum]
  simp only at hset
  omega

theorem get_leave (hentry : 0 < entry.inflight) :
    (leavePending ud topic entry).pending.get topic' =
      if topic = topic' then
        if entry.inflight = 1 then none else some { entry with inflight := entry.inflight - 1 }
      else ud.pending.get topic' := by
  rw [leavePending]
  by_cases hlast : entry.inflight = 1
  · simp [hlast, JsMap.get_delete]
  · have hmore : entry.inflight - 1 ≠ 0 := by omega
    simp [hlast, hmore, JsMap.get_set]

@[simp] theorem pendingTotal_leave :
    (leavePending ud topic entry).pendingTotal = ud.pendingTotal - 1 := rfl

/-- Leaving takes one off the counts together, whatever becomes of the entry's authority. -/
theorem pendingSum_leave {old : PendingEntry} (hget : ud.pending.get topic = some old)
    (hinflight : entry.inflight = old.inflight) (hpos : 0 < old.inflight) :
    pendingSum (leavePending ud topic entry) + 1 = pendingSum ud := by
  have hset := ud.pending.total_set PendingEntry.inflight topic
    { entry with inflight := entry.inflight - 1 }
  have hdelete := ud.pending.total_delete PendingEntry.inflight topic
  rw [hget] at hset hdelete
  simp only [Option.map_some, Option.getD_some] at hset hdelete
  rw [pendingSum, pendingSum, leavePending]
  split
  · dsimp only
    omega
  · dsimp only
    omega

theorem get_tombstone (topic' : String)
    (hpos : ∀ entry, ud.pending.get topic = some entry → 0 < entry.inflight) :
    (tombstonePendingSubscribe ud topic).2.pending.get topic' =
      if topic = topic' then
        (ud.pending.get topic).map fun entry =>
          { entry with epoch := entry.epoch + 1, granted := false }
      else ud.pending.get topic' := by
  rw [tombstonePendingSubscribe]
  cases h : ud.pending.get topic with
  | none =>
    by_cases ht : topic = topic'
    · subst ht
      simp [h]
    · simp [ht]
  | some entry =>
    have := hpos entry h
    simp [ne_of_gt this, JsMap.get_set]

@[simp] theorem subscriptions_tombstone :
    (tombstonePendingSubscribe ud topic).2.subscriptions = ud.subscriptions := by
  rw [tombstonePendingSubscribe]
  split
  · rfl
  · split <;> rfl

@[simp] theorem pendingTotal_tombstone :
    (tombstonePendingSubscribe ud topic).2.pendingTotal = ud.pendingTotal := by
  rw [tombstonePendingSubscribe]
  split
  · rfl
  · split <;> rfl

@[simp] theorem pendingSum_tombstone :
    pendingSum (tombstonePendingSubscribe ud topic).2 = pendingSum ud := by
  rw [tombstonePendingSubscribe]
  split
  · rfl
  · next entry hget =>
    split
    · rfl
    · have hset := ud.pending.total_set PendingEntry.inflight topic
        { entry with epoch := entry.epoch + 1, granted := false }
      rw [hget] at hset
      simp only [Option.map_some, Option.getD_some] at hset
      rw [pendingSum, pendingSum]
      dsimp only
      omega

theorem get_withdrawGrant :
    (withdrawGrant ud topic).pending.get topic' =
      if topic = topic' then
        (ud.pending.get topic).map fun entry => { entry with granted := false }
      else ud.pending.get topic' := by
  rw [withdrawGrant]
  cases h : ud.pending.get topic with
  | none =>
    by_cases ht : topic = topic'
    · subst ht
      simp [h]
    · simp [ht]
  | some entry => simp [JsMap.get_set]

@[simp] theorem subscriptions_withdrawGrant :
    (withdrawGrant ud topic).subscriptions = ud.subscriptions := by
  rw [withdrawGrant]
  split <;> rfl

@[simp] theorem pendingTotal_withdrawGrant :
    (withdrawGrant ud topic).pendingTotal = ud.pendingTotal := by
  rw [withdrawGrant]
  split <;> rfl

@[simp] theorem pendingSum_withdrawGrant : pendingSum (withdrawGrant ud topic) = pendingSum ud := by
  rw [withdrawGrant]
  split
  · rfl
  · next entry hget =>
    have hset := ud.pending.total_set PendingEntry.inflight topic { entry with granted := false }
    rw [hget] at hset
    simp only [Option.map_some, Option.getD_some] at hset
    rw [pendingSum, pendingSum]
    dsimp only
    omega

end AdapterWs.Subscribe
