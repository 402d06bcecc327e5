import AdapterWs.Lib.CursorMap
import AdapterWs.Lib.JsString
import AdapterWs.Lib.Machine
import AdapterWs.Lib.Nearest

/-!
# The egress account

Each scope, the topics and the tenants, keeps a window of usage for every key in a ledger of at
most `maxKeys` keys. A window is read when a publish is admitted and charged when it was written;
each reads the clock and starts the window again if it has lapsed. A key that is new drops lapsed
windows first, and the least spent of a sample where the ledger is full.
-/

namespace AdapterWs.Egress

open Binary64

/-- The ceilings of a scope. Zero disarms one. -/
structure Ceilings where
  messages : ℕ
  deliveries : ℕ
  bytes : ℕ

/-- Whether a ceiling is armed. -/
def Ceilings.enabled (c : Ceilings) : Bool :=
  decide (0 < c.messages) || decide (0 < c.deliveries) || decide (0 < c.bytes)

/-- The options of an account. -/
structure EgressOptions where
  windowMs : ℚ
  maxKeys : ℕ
  evictionSample : ℕ
  topic : Ceilings
  tenant : Ceilings

/-- The usage of a key: when its window started, what the window before it spent, and the
messages, bytes and deliveries charged. -/
structure Window where
  start : ℚ
  pu : ℚ
  m : ℕ
  b : ℕ
  d : ℕ

/-- The ledger of a scope, with the iterator that sweeps and samples it. -/
structure Ledger where
  map : CursorMap JsString Window
  evictCursor : Option ℕ
  /-- Until when no window of the ledger has lapsed. -/
  sweepUntil : ℚ
  /-- The least expiry seen by the pass that is going on, if it saw any. -/
  passEarliestExpiry : Option ℚ
  /-- How many windows were dropped before they lapsed. -/
  evicted : ℕ

/-- `EGRESS_SWEEP_STEPS`. -/
def sweepSteps : ℕ := 32

/-- `EGRESS_SLACK_SHIFT`. -/
def slackShift : ℕ := 4

/-- The greater of what is spent and a part of an armed ceiling. -/
def spentOf (used ceiling : ℕ) (u : ℚ) : ℚ :=
  if 0 < ceiling then
    let r := nearest (used / ceiling)
    if u < r then r else u
  else u

/-- `spent(w)`. -/
def spent (c : Ceilings) (w : Window) : ℚ :=
  spentOf w.b c.bytes (spentOf w.d c.deliveries (spentOf w.m c.messages 0))

/-- Whether a window has lapsed. -/
def Window.lapsed (w : Window) (nowMs windowMs : ℚ) : Bool :=
  decide (windowMs ≤ nearest (nowMs - w.start))

namespace Ledger

/-- A ledger without keys. -/
def create : Ledger := ⟨.empty, none, 0, none, 0⟩

/-- `openPass()`. -/
def openPass (l : Ledger) : Ledger := { l with evictCursor := some 0, passEarliestExpiry := none }

/-- The pass that is going on, or a new one. -/
def opened (l : Ledger) : Ledger := if l.evictCursor.isNone then l.openPass else l

/-- `closePass()`. -/
def closePass (l : Ledger) : Ledger :=
  match l.passEarliestExpiry with
  | none => { l with evictCursor := none }
  | some expiry => { l with evictCursor := none, sweepUntil := expiry }

/-- The expiry of a window that a pass leaves. -/
def noteExpiry (l : Ledger) (expiry : ℚ) : Ledger :=
  match l.passEarliestExpiry with
  | none => { l with passEarliestExpiry := some expiry }
  | some least => if expiry < least then { l with passEarliestExpiry := some expiry } else l

/-- The loop of `reclaimExpired`. A pass that ends is followed by at most two more, so that three
turns more than steps are enough. -/
def reclaimLoop (nowMs windowMs : ℚ) : ℕ → ℕ → ℕ → Ledger → Ledger
  | 0, _, _, l => l
  | fuel + 1, steps, wrapped, l =>
    if steps < sweepSteps ∧ wrapped < 2 then
      let wrapped := if l.evictCursor.isNone then wrapped + 1 else wrapped
      let l := l.opened
      match l.map.next (l.evictCursor.getD 0) with
      | none => reclaimLoop nowMs windowMs fuel steps wrapped l.closePass
      | some (key, w, cursor) =>
        let l := { l with evictCursor := some cursor }
        reclaimLoop nowMs windowMs fuel (steps + 1) wrapped
          (if w.lapsed nowMs windowMs then { l with map := l.map.delete key }
          else l.noteExpiry (nearest (w.start + windowMs)))
    else l

/-- `reclaimExpired(nowMs, windowMs)`. -/
def reclaimExpired (l : Ledger) (nowMs windowMs : ℚ) : Ledger :=
  if nowMs < l.sweepUntil then l else reclaimLoop nowMs windowMs (sweepSteps + 3) 0 0 l

/-- The window that is least spent of a sample is dropped before it lapsed. -/
def dropVictim (l : Ledger) : Option (JsString × ℚ) → Ledger
  | none => l
  | some (key, _) => { l with map := l.map.delete key, evicted := l.evicted + 1 }

/-- The loop of `evictOne`, and the key that is least spent so far with its score. -/
def evictLoop (c : Ceilings) (evictionSample : ℕ) (nowMs windowMs : ℚ) :
    ℕ → ℕ → ℕ → Option (JsString × ℚ) → Ledger → Ledger
  | 0, _, _, victim, l => l.dropVictim victim
  | fuel + 1, sampled, wrapped, victim, l =>
    if sampled < evictionSample ∧ wrapped < 2 then
      let wrapped := if l.evictCursor.isNone then wrapped + 1 else wrapped
      let l := l.opened
      match l.map.next (l.evictCursor.getD 0) with
      | none => evictLoop c evictionSample nowMs windowMs fuel sampled wrapped victim l.closePass
      | some (key, w, cursor) =>
        let l := { l with evictCursor := some cursor }
        if w.lapsed nowMs windowMs then { l with map := l.map.delete key }
        else
          let l := l.noteExpiry (nearest (w.start + windowMs))
          let score := nearest (spent c w + w.pu)
          evictLoop c evictionSample nowMs windowMs fuel (sampled + 1) wrapped
            (if victim.all fun v => decide (score < v.2) then some (key, score) else victim) l
    else l.dropVictim victim

/-- `evictOne(nowMs, windowMs)`. -/
def evictOne (l : Ledger) (c : Ceilings) (evictionSample : ℕ) (nowMs windowMs : ℚ) : Ledger :=
  evictLoop c evictionSample nowMs windowMs (evictionSample + 3) 0 0 none l

/-- Room for a key that is new. -/
def makeRoom (o : EgressOptions) (c : Ceilings) (l : Ledger) (nowMs : ℚ) : Ledger :=
  if o.maxKeys - (o.maxKeys >>> slackShift) ≤ l.map.size then
    let l := l.reclaimExpired nowMs o.windowMs
    if o.maxKeys ≤ l.map.size then l.evictOne c o.evictionSample nowMs o.windowMs else l
  else l

/-- `windowFor(key, nowMs, windowMs)`. -/
def windowFor (o : EgressOptions) (c : Ceilings) (l : Ledger) (key : JsString) (nowMs : ℚ) :
    Window × Ledger :=
  match l.map.get key with
  | none =>
    let l := l.makeRoom o c nowMs
    let w : Window := ⟨nowMs, 0, 0, 0, 0⟩
    (w, { l with map := l.map.set key w })
  | some w =>
    if w.lapsed nowMs o.windowMs then
      let pu := if nearest (nowMs - w.start) < nearest (o.windowMs * 2) then spent c w else 0
      let w : Window := ⟨nowMs, pu, 0, 0, 0⟩
      (w, { l with map := l.map.set key w })
    else (w, l)

end Ledger

/-- What a publish crosses. -/
inductive Dimension
  | messages
  | deliveries
  | bytes
  deriving DecidableEq

/-- `over(usage, ceilings, messages, deliveries)`. -/
def overCeiling (usage : Window) (c : Ceilings) (messages deliveries : ℕ) : Option Dimension :=
  if 0 < c.messages ∧ c.messages < usage.m + messages then some .messages
  else if 0 < c.deliveries ∧ c.deliveries < usage.d + deliveries then some .deliveries
  else if 0 < c.bytes ∧ c.bytes ≤ usage.b then some .bytes
  else none

/-- What a publish crosses in one scope, if anything. A publish without a key, or a scope without
ceilings, is not asked. -/
def Ledger.admitKey (o : EgressOptions) (c : Ceilings) (l : Ledger) (key : Option JsString)
    (messages deliveries : ℕ) (nowMs : ℚ) : Option Dimension × Ledger :=
  match key with
  | none => (none, l)
  | some key =>
    if c.enabled then
      let (w, l) := l.windowFor o c key nowMs
      (overCeiling w c messages deliveries, l)
    else (none, l)

/-- A window after a charge. -/
def Window.charge (w : Window) (messages deliveries bytes : ℕ) : Window :=
  { w with m := w.m + messages, d := w.d + deliveries, b := w.b + bytes }

/-- A charge to a key. -/
def Ledger.charge (o : EgressOptions) (c : Ceilings) (l : Ledger) (key : JsString)
    (messages deliveries bytes : ℕ) (nowMs : ℚ) : Ledger :=
  let (w, l) := l.windowFor o c key nowMs
  { l with map := l.map.set key (w.charge messages deliveries bytes) }

/-- A charge to one scope. -/
def Ledger.chargeKey (o : EgressOptions) (c : Ceilings) (l : Ledger) (key : Option JsString)
    (messages deliveries bytes : ℕ) (nowMs : ℚ) : Ledger :=
  match key with
  | none => l
  | some key => if c.enabled then l.charge o c key messages deliveries bytes nowMs else l

/-- The ledgers of the two scopes. -/
structure Account where
  topicWindows : Ledger
  tenantWindows : Ledger

namespace Account

/-- `createEgressAccount(io)`. -/
def create : Account := ⟨.create, .create⟩

/-- `admitTopic(topic, messages, deliveries)`. -/
def admitTopic (o : EgressOptions) (a : Account) (topic : Option JsString)
    (messages deliveries : ℕ) (nowMs : ℚ) : Option Dimension × Account :=
  let (dim, l) := a.topicWindows.admitKey o o.topic topic messages deliveries nowMs
  (dim, { a with topicWindows := l })

/-- `admitTenant(tenantId, topic, messages, deliveries)`. -/
def admitTenant (o : EgressOptions) (a : Account) (tenantId : Option JsString)
    (messages deliveries : ℕ) (nowMs : ℚ) : Option Dimension × Account :=
  let (dim, l) := a.tenantWindows.admitKey o o.tenant tenantId messages deliveries nowMs
  (dim, { a with tenantWindows := l })

/-- `admit(topic, tenantId, messages, deliveries)`, with the readings of the clock: what the
publish crosses, if anything. -/
def admitPublish (o : EgressOptions) (a : Account) (topic tenantId : Option JsString)
    (messages deliveries : ℕ) (topicMs tenantMs : ℚ) : Option Dimension × Account :=
  match a.admitTopic o topic messages deliveries topicMs with
  | (some dim, a) => (some dim, a)
  | (none, a) => a.admitTenant o tenantId messages deliveries tenantMs

/-- `charge(topic, tenantId, messages, deliveries, bytes)`. -/
def charge (o : EgressOptions) (a : Account) (topic tenantId : Option JsString)
    (messages deliveries bytes : ℕ) (nowMs : ℚ) : Account where
  topicWindows := a.topicWindows.chargeKey o o.topic topic messages deliveries bytes nowMs
  tenantWindows := a.tenantWindows.chargeKey o o.tenant tenantId messages deliveries bytes nowMs

end Account

/-! ## Runs -/

/-- What one publish charged. -/
structure Charge where
  messages : ℕ
  deliveries : ℕ
  bytes : ℕ

/-- The charges of the windows of a key, the newest window and the newest charge first. -/
abbrev WindowLog := JsString → List (List Charge)

/-- Whether reading a key starts a window. -/
def Ledger.starts (o : EgressOptions) (l : Ledger) (key : JsString) (nowMs : ℚ) : Bool :=
  (l.map.get key).all fun w => w.lapsed nowMs o.windowMs

/-- The windows of a key after it is read. -/
def WindowLog.read (log : WindowLog) (o : EgressOptions) (l : Ledger) (key : JsString)
    (nowMs : ℚ) : WindowLog :=
  if l.starts o key nowMs then Function.update log key ([] :: log key) else log

/-- The windows of a key after it is charged. -/
def WindowLog.charge (log : WindowLog) (key : JsString) (charge : Charge) : WindowLog :=
  Function.update log key ((log key).modifyHead (charge :: ·))

/-- A publish that may be charged. -/
structure Admitted where
  topic : Option JsString
  tenantId : Option JsString
  messages : ℕ
  deliveries : ℕ

/-- An account, the last reading of the clock, the publish that was admitted last and is not yet
charged, and the windows of the two scopes. -/
structure History where
  account : Account
  clock : ℚ
  admitted : Option Admitted
  topicLog : WindowLog
  tenantLog : WindowLog

/-- A call, with what it reads from the clock. -/
inductive EgressEvent
  | admitPublish (topic tenantId : Option JsString) (messages deliveries : ℕ) (topicMs tenantMs : ℚ)
  | charge (bytes : ℕ) (nowMs : ℚ)

/-- The windows of a scope after a key is read, where the scope is enabled. -/
def readLog (o : EgressOptions) (c : Ceilings) (l : Ledger) (log : WindowLog)
    (key : Option JsString) (nowMs : ℚ) : WindowLog :=
  match key with
  | none => log
  | some key => if c.enabled then log.read o l key nowMs else log

/-- The windows of a scope after a key is charged, where the scope is enabled. -/
def chargeLog (o : EgressOptions) (c : Ceilings) (l : Ledger) (log : WindowLog)
    (key : Option JsString) (charge : Charge) (nowMs : ℚ) : WindowLog :=
  match key with
  | none => log
  | some key => if c.enabled then (log.read o l key nowMs).charge key charge else log

/-- One call. A publish is charged once, right after it was admitted. -/
def History.call (o : EgressOptions) (s : History) : EgressEvent → Option History
  | .admitPublish topic tenantId messages deliveries topicMs tenantMs =>
    if s.clock ≤ topicMs ∧ topicMs ≤ tenantMs then
      let (crossed, account) :=
        s.account.admitPublish o topic tenantId messages deliveries topicMs tenantMs
      some
        { account := account
          clock := tenantMs
          admitted :=
            if crossed.isNone then some ⟨topic, tenantId, messages, deliveries⟩ else none
          topicLog := readLog o o.topic s.account.topicWindows s.topicLog topic topicMs
          tenantLog :=
            -- the tenant is only asked where the topic admits
            match (s.account.admitTopic o topic messages deliveries topicMs).1 with
            | some _ => s.tenantLog
            | none =>
              readLog o o.tenant s.account.tenantWindows s.tenantLog tenantId tenantMs }
    else none
  | .charge bytes nowMs =>
    match s.admitted with
    | none => none
    | some p =>
      if s.clock ≤ nowMs then
        let charge : Charge := ⟨p.messages, p.deliveries, bytes⟩
        some
          { account :=
              s.account.charge o p.topic p.tenantId p.messages p.deliveries bytes nowMs
            clock := nowMs
            admitted := none
            topicLog :=
              chargeLog o o.topic s.account.topicWindows s.topicLog p.topic charge nowMs
            tenantLog :=
              chargeLog o o.tenant s.account.tenantWindows s.tenantLog p.tenantId charge nowMs }
      else none

/-- One account, from a reading of the clock on. -/
def egressMachine (o : EgressOptions) (clock : ℚ) : Machine History EgressEvent where
  init := ⟨.create, clock, none, fun _ => [], fun _ => []⟩
  step s e := s.call o e

/-- What the ceilings promise of a window: messages and deliveries within theirs, and the bytes
before the last charge below theirs. -/
structure Within (c : Ceilings) (window : List Charge) : Prop where
  messages : 0 < c.messages → (window.map Charge.messages).sum ≤ c.messages
  deliveries : 0 < c.deliveries → (window.map Charge.deliveries).sum ≤ c.deliveries
  bytes : 0 < c.bytes → (window.tail.map Charge.bytes).sum < c.bytes

/-- Every window of a scope is within its ceilings. -/
def WindowLog.Within (log : WindowLog) (c : Ceilings) : Prop :=
  ∀ key, ∀ window ∈ log key, Egress.Within c window

end AdapterWs.Egress
