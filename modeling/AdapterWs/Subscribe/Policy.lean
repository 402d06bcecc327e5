import AdapterWs.Subscribe.Pending

/-!
# The subscribe policy

The predicates the subscribe lanes ask. They are pure functions of the gate, of the app's hooks
and of the connection's slots. Which topics a plugin owns is a parameter: a plugin registers its
prefixes when it is built.
-/

namespace AdapterWs.Subscribe

/-- The most topics a connection may hold. -/
def MAX_SUBSCRIPTIONS_PER_CONNECTION : ℕ := 65536

/-- The most subscribes a connection may have in flight. -/
def MAX_PENDING_SUBSCRIBES_PER_CONNECTION : ℕ := 4096

/-- One reading of `subscribeAuth` and of the app's subscribe hooks. -/
structure Gate where
  enabled : Bool
  strict : Bool
  /-- `hasUserSubscribeHook()`. -/
  userHook : Bool

/-- The `hasUserHook` a gate predicate is given: a strict gate reads no app hook. -/
def Gate.hasUserHook (gate : Gate) : Bool := gate.userHook && !gate.strict

/-- The `wireAuthz` the recover lane is given: armed, and no app hook decides. -/
def Gate.wireAuthz (gate : Gate) : Bool := gate.enabled && (gate.strict || !gate.userHook)

/-- `deniesWireSubscribePreHook`. -/
def deniesWireSubscribePreHook (gate : Gate) (pluginOwned held : Bool) : Bool :=
  if !gate.enabled || gate.hasUserHook then false
  else if held then false
  else !pluginOwned

/-- `deniesWireSubscribeLanding`. -/
def deniesWireSubscribeLanding (gate : Gate) (pluginOwned held : Bool) : Bool :=
  if pluginOwned then !held
  else if !gate.enabled || gate.hasUserHook then false
  else !held

/-- `recoverIsRevoked`. -/
def recoverIsRevoked (held pluginOwned wireAuthz cancelled : Bool) : Bool :=
  !held && (pluginOwned || wireAuthz || cancelled)

/-- `exceedsSubscriptionCap`, with the cap a number. -/
def exceedsSubscriptionCap (held : Bool) (size max : ℕ) : Bool :=
  if held then false else decide (max ≤ size)

/-- `exceedsPendingSubscribeCap`, with the cap and the count numbers. -/
def exceedsPendingSubscribeCap (pending max : ℕ) : Bool := decide (max ≤ pending)

/-- `heldSubscribeIsAuthorized(ud, topic, token)`. -/
def heldSubscribeIsAuthorized (ud : UserData) (pluginOwned : Bool) (topic : String) (token : ℕ) :
    Bool :=
  !membershipUnconfirmed ud topic || (pluginOwned && heldLandingWouldAck ud topic token)

end AdapterWs.Subscribe
