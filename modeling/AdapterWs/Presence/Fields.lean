import AdapterWs.Lib.JsSet
import AdapterWs.Lib.Machine
import AdapterWs.Wire.Value

/-!
# Rosters with fields

The users of one topic have the data that `select` returned and the fields that `update` has set.
Joins, leaves and updates are collected for each user and published together: a join reads the user
when it is published, a leave and an update are what they were. A connection that joins or observes
the topic is sent the whole roster, and from then on every publication. No call here makes room for
another.
-/

namespace AdapterWs.Presence

open JsString Wire OwnProperties

/-- Fields by name. -/
abbrev Fields := JsMap JsString Value

/-- An object that `select` returns: its own properties, and what JSON makes of it. -/
structure Data where
  own : Fields
  json : Option Value

/-- An object with some properties. -/
def Data.plain (own : Fields) : Data := ⟨own, (Value.object own.entries).jsonView⟩

/-- What `select` returns, with the key field as a string, if it has one. -/
structure Resolved where
  keyField : Option JsString
  data : Data

/-- A user of the topic. -/
structure Member where
  data : Data
  fields : Option Fields
  fieldsBytes : ℤ
  count : ℤ

/-- The change of a user that is not published yet. -/
inductive PendingOp
  | join
  | leave (data : Data)
  | update (changed : Fields)

/-- The options of `createPresence` that `update` reads, and what the tests in it answer: the size
of an object, of a value and of a name as JSON, where it can be serialized, the depth, the reserved
names and `deepEqual`. -/
structure UpdateOptions where
  transientFields : JsSet JsString
  clientUpdateFields : Option (JsSet JsString)
  maxFieldsBytes : ℕ
  maxTotalFieldsBytes : ℕ
  fieldsBytes : Fields → Option ℕ
  valueBytes : Value → Option ℕ
  nameBytes : JsString → ℕ
  exceedsDepth : Fields → Bool
  isReservedField : JsString → Bool
  deepEqual : Value → Value → Bool
  sameData : Data → Data → Bool

/-- `JSON_FIELD_OVERHEAD_BYTES`. -/
def JSON_FIELD_OVERHEAD_BYTES : ℕ := 2

/-! ## What is sent -/

/-- `publicData(entry)`. -/
def publicData (o : UpdateOptions) (entry : Member) : Data :=
  match entry.fields with
  | none => entry.data
  | some fields =>
    .plain (entry.data.own.assign (fields.filter fun k _ => !decide (k ∈ o.transientFields)))

/-- The roster of a client. -/
abbrev View := JsMap JsString Value

/-- The publication of the changes, after JSON. -/
structure Diff where
  joins : View
  leaves : View
  updates : View

/-- The own properties of a value that is spread. -/
def spread : Value → List (JsString × Value)
  | .object props => props
  | .array elems => elems.mapIdx fun i v => (lit (toString i), v)
  | .string s => s.mapIdx fun i c => (lit (toString i), .string [c])
  | _ => []

/-- `{ ...prev, ...fields }`. -/
def mergeFields (prev fields : Value) : Value :=
  .object ((spread fields).foldl (fun o p => define p.1 p.2 o) (spread prev))

/-- Whether the fields of an update are an object. -/
def isFields : Value → Bool
  | .object _ | .array _ => true
  | _ => false

/-- A user of the client is updated, if it has the user. -/
def View.merge (view : View) (key : JsString) (fields : Value) : View :=
  match view.get key with
  | none => view
  | some prev => if isFields fields then view.set key (mergeFields prev fields) else view

/-- A client applies a publication: it deletes, sets, and merges. -/
def View.apply (view : View) (d : Diff) : View :=
  let view := d.leaves.keys.foldl JsMap.delete view
  let view := view.assign d.joins
  d.updates.entries.foldl (fun view p => view.merge p.1 p.2) view

/-! ## The roster -/

/-- The topic: the connections that have joined with their keys, the users, the observers, what is
not published, and the rosters of the clients that are subscribed. -/
structure TopicRoster (W : Type) where
  joined : JsMap W JsString
  users : JsMap JsString Member
  observers : JsSet W
  pending : JsMap JsString PendingOp
  connCounter : ℕ
  views : JsMap W View

namespace TopicRoster

variable {W : Type} [DecidableEq W]

section

omit [DecidableEq W]

/-- `snapshotState(users)`, after JSON. -/
def snapshotState (o : UpdateOptions) (r : TopicRoster W) : View :=
  r.users.filterMap fun _ entry => (publicData o entry).json

/-- The publication of `flushDiffs`, after JSON. -/
def diff (o : UpdateOptions) (r : TopicRoster W) : Diff where
  joins := r.pending.filterMap fun key op =>
    match op with
    | .join => (r.users.get key).bind fun live => (publicData o live).json
    | _ => none
  leaves := r.pending.filterMap fun _ op =>
    match op with
    | .leave data => data.json
    | _ => none
  updates := r.pending.filterMap fun _ op =>
    match op with
    | .update changed => (Data.plain changed).json
    | _ => none

/-- `flushDiffs(platform)`. -/
def flushDiffs (o : UpdateOptions) (r : TopicRoster W) : TopicRoster W :=
  { r with
    views := r.views.mapVals fun _ view => view.apply (r.diff o)
    pending := .empty }

end

/-- A client is sent the state. -/
def emitState (o : UpdateOptions) (r : TopicRoster W) (ws : W) : TopicRoster W :=
  { r with views := r.views.set ws (r.snapshotState o) }

omit [DecidableEq W] in
/-- `bufferUpdate(topic, key, changed)`. -/
def bufferUpdate (r : TopicRoster W) (key : JsString) (changed : Fields) : TopicRoster W :=
  match r.pending.get key with
  | some (.update earlier) =>
    { r with pending := r.pending.set key (.update (earlier.assign changed)) }
  | some _ => r
  | none => { r with pending := r.pending.set key (.update changed) }

omit [DecidableEq W] in
/-- One connection less of a user. -/
def release (o : UpdateOptions) (r : TopicRoster W) (key : JsString) (existing : Member) :
    TopicRoster W :=
  if existing.count - 1 ≤ 0 then
    { r with
      users := r.users.delete key
      pending := r.pending.set key (.leave (publicData o existing)) }
  else { r with users := r.users.set key { existing with count := existing.count - 1 } }

/-- `leaveTopic(ws, topic, connTopics)`. -/
def leaveTopic (o : UpdateOptions) (r : TopicRoster W) (ws : W) : TopicRoster W :=
  match r.joined.get ws with
  | none => r
  | some key =>
    let r := { r with joined := r.joined.delete ws }
    match r.users.get key with
    | none => r
    | some existing =>
      let r := r.release o key existing
      if ws ∈ r.observers then r else { r with views := r.views.delete ws }

omit [DecidableEq W] in
/-- `resolveKey(data)`, with the counter of connections without a key. -/
def resolveKey (r : TopicRoster W) (selected : Resolved) : JsString × ℕ :=
  let fallback := (lit "__conn:" ++ lit (toString (r.connCounter + 1)), r.connCounter + 1)
  match selected.keyField with
  | none => fallback
  | some key =>
    if key = lit "__proto__" ∨ key = lit "constructor" ∨ key = lit "prototype" then fallback
    else (key, r.connCounter)

omit [DecidableEq W] in
/-- One connection more of a user, or a new user. -/
def enter (o : UpdateOptions) (r : TopicRoster W) (key : JsString) (data : Data) :
    TopicRoster W :=
  match r.users.get key with
  | some existing =>
    if o.sameData existing.data data then
      { r with users := r.users.set key { existing with count := existing.count + 1 } }
    else
      { r with
        users := r.users.set key { existing with data := data, count := existing.count + 1 }
        pending := r.pending.set key .join }
  | none =>
    { r with
      users := r.users.set key ⟨data, none, 0, 1⟩
      pending := r.pending.set key .join }

/-- `join(ws, topic)`, where `select` returned an object, and the subscription to the presence
channel was taken or not. -/
def join (o : UpdateOptions) (r : TopicRoster W) (ws : W) (selected : Resolved)
    (subscribed : Bool) : TopicRoster W :=
  if (r.joined.get ws).isSome then r
  else
    let (key, connCounter) := r.resolveKey selected
    let r := { r with joined := r.joined.set ws key, connCounter := connCounter }
    let r := r.enter o key selected.data
    if subscribed then r.emitState o ws else r.leaveTopic o ws

/-- `leave(ws)`. -/
def leave (o : UpdateOptions) (r : TopicRoster W) (ws : W) : TopicRoster W :=
  let r := r.leaveTopic o ws
  if ws ∈ r.observers then
    { r with views := r.views.delete ws, observers := r.observers.delete ws }
  else r

/-- `sync(ws, topic)` after its authorization, where the subscription was taken or not. -/
def sync (o : UpdateOptions) (r : TopicRoster W) (ws : W) (subscribed : Bool) : TopicRoster W :=
  if subscribed then { r with observers := r.observers.add ws }.emitState o ws
  else { r with observers := r.observers.delete ws }

/-! ## Updates -/

end TopicRoster

/-- The fields of an update that count: those a client may set, if it comes from one. -/
def effectiveFields (o : UpdateOptions) (fields : Fields) (fromClient : Bool) : Option Fields :=
  if fromClient then
    match o.clientUpdateFields with
    | none => none
    | some allowed =>
      let effective := fields.filter fun k _ => decide (k ∈ allowed)
      if effective.size = 0 then none else some effective
  else some fields

/-- An update that is serializable, and neither too large nor too deep. -/
def admits (o : UpdateOptions) (effective : Fields) : Bool :=
  ((o.fieldsBytes effective).any fun bytes => decide (bytes ≤ o.maxFieldsBytes)) &&
    !o.exceedsDepth effective

/-- A name that an update may not set. -/
def refused (o : UpdateOptions) (fromClient : Bool) (k : JsString) : Bool :=
  match o.clientUpdateFields with
  | none => fromClient || o.isReservedField k
  | some allowed => !decide (k ∈ allowed)

/-- The bytes a field adds, if it and the one before it can be serialized. -/
def fieldDelta (o : UpdateOptions) (fields : Fields) (k : JsString) (v : Value) : Option ℤ :=
  (o.valueBytes v).bind fun valueBytes =>
    match fields.get k with
    | none => some (valueBytes + (o.nameBytes k + JSON_FIELD_OVERHEAD_BYTES))
    | some old => (o.valueBytes old).map fun oldBytes => (valueBytes : ℤ) - oldBytes

/-- `deepEqual(entry.fields[k], v)`. -/
def unchanged (o : UpdateOptions) (fields : Fields) (k : JsString) (v : Value) : Bool :=
  o.deepEqual ((fields.get k).getD .undefined) v

/-- The fields that change. -/
def changedFields (o : UpdateOptions) (fields effective : Fields) (fromClient : Bool) : Fields :=
  effective.filter fun k v =>
    !refused o fromClient k && !unchanged o fields k v && (fieldDelta o fields k v).isSome

/-- The bytes that changed fields add. -/
def deltaBytes (o : UpdateOptions) (fields changed : Fields) : ℤ :=
  (changed.entries.map fun p => (fieldDelta o fields p.1 p.2).getD 0).sum

/-- The user has fields from now on. -/
def Member.allocate (entry : Member) : Member :=
  match entry.fields with
  | none => { entry with fields := some .empty, fieldsBytes := 0 }
  | some _ => entry

/-- The changed fields of an update, if there are any and they fit. -/
def accepted (o : UpdateOptions) (entry : Member) (effective : Fields) (fromClient : Bool) :
    Option Fields :=
  let fields := entry.allocate.fields.getD .empty
  let changed := changedFields o fields effective fromClient
  if changed.size = 0 then none
  else if o.maxTotalFieldsBytes < entry.allocate.fieldsBytes + deltaBytes o fields changed then none
  else some changed

/-- The changed fields are stored. -/
def Member.store (o : UpdateOptions) (entry : Member) (changed : Fields) : Member :=
  let fields := entry.allocate.fields.getD .empty
  { entry.allocate with
    fields := some (fields.assign changed)
    fieldsBytes := entry.allocate.fieldsBytes + deltaBytes o fields changed }

namespace TopicRoster

variable {W : Type} [DecidableEq W]

/-- The user a connection stands for. -/
def memberOf (r : TopicRoster W) (ws : W) : Option (JsString × Member) :=
  (r.joined.get ws).bind fun key => (r.users.get key).map fun entry => (key, entry)

/-- `update(ws, topic, fields, platform, fromClient)`. -/
def update (o : UpdateOptions) (r : TopicRoster W) (ws : W) (fields : Fields)
    (fromClient : Bool) : TopicRoster W :=
  match effectiveFields o fields fromClient, r.memberOf ws with
  | some effective, some (key, entry) =>
    if admits o effective then
      match accepted o entry effective fromClient with
      | none => { r with users := r.users.set key entry.allocate }
      | some changed =>
        { r with users := r.users.set key (entry.store o changed) }.bufferUpdate key changed
    else r
  | _, _ => r

end TopicRoster

/-! ## Runs -/

/-- A call, or the timer of a publication. -/
inductive RosterEvent (W : Type)
  | join (ws : W) (selected : Resolved) (subscribed : Bool)
  | leave (ws : W)
  | unsubscribe (ws : W)
  | sync (ws : W) (subscribed : Bool)
  | update (ws : W) (fields : Fields) (fromClient : Bool)
  | flush

/-- One step. -/
def TopicRoster.step {W : Type} [DecidableEq W] (o : UpdateOptions) (r : TopicRoster W) :
    RosterEvent W → Option (TopicRoster W)
  | .join ws selected subscribed => some (r.join o ws selected subscribed)
  | .leave ws => some (r.leave o ws)
  | .unsubscribe ws => some (r.leaveTopic o ws)
  | .sync ws subscribed => some (r.sync o ws subscribed)
  | .update ws fields fromClient => some (r.update o ws fields fromClient)
  | .flush => some (r.flushDiffs o)

/-- The roster of one topic. -/
def rosterMachine {W : Type} [DecidableEq W] (o : UpdateOptions) :
    Machine (TopicRoster W) (RosterEvent W) where
  init := ⟨.empty, .empty, .empty, .empty, 0, .empty⟩
  step r e := r.step o e

end AdapterWs.Presence
