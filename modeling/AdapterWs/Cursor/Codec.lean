import AdapterWs.Lib.Machine
import AdapterWs.Wire.KeyDict
import AdapterWs.Wire.StreamFidelity

/-!
# The streamed cursor wire

Cursor events at schema version 4: short ids for keys, a delta stamp on position frames, and each
coordinate, narrowed to binary32, in the value stream of its cursor. A frame that cannot be
represented is declined, and then travels as JSON.
-/

namespace AdapterWs.Cursor

open JsString Throwing Wire

/-! ## Events -/

/-- A value where a position is expected. -/
inductive Position
  | notObject
  /-- `x` and `y` where they are numbers, and whether there is any other field. -/
  | object (x y : Option Binary64) (extra : Bool)
  deriving DecidableEq

/-- `JSON.stringify` and `JSON.parse` on users. -/
structure UserJson (U V : Type) where
  /-- `JSON.stringify(user ?? null)`, or `none` where it throws. -/
  stringify : U → Option (Option JsString)
  /-- `JSON.parse(text)`, or `none` where it throws. -/
  parse : JsString → Option V
  /-- The value that JSON keeps of a user. -/
  view : U → V
  isText_stringify : ∀ u text, stringify u = some (some text) → isText text = true
  parse_stringify : ∀ u text, stringify u = some (some text) → parse text = some (view u)

/-- An event of the cursor channel. `none` is data that is missing, no array, or no string. -/
inductive CursorEvent (U : Type)
  | update (data : Option (Option JsString × Position))
  | bulk (data : Option (List (Option (Option JsString × Position))))
  | remove (data : Option (Option JsString))
  | join (data : Option (Option JsString × U))
  | catalog (data : Option (List (Option (Option JsString × U))))
  | other
  deriving DecidableEq

/-- An event that the decoder delivers. -/
inductive DecodedCursor (V : Type)
  | update (key : JsString) (x y : Binary64) (t : ℕ)
  | bulk (entries : List (JsString × Binary64 × Binary64)) (t : ℕ)
  | remove (key : JsString)
  | join (key : JsString) (user : V)
  | catalog (entries : List (JsString × V))
  deriving DecidableEq

/-- `isXY(d)`, with the pair. -/
def isXY : Position → Option (Binary64 × Binary64)
  | .object (some x) (some y) false =>
    if x.fround.isFinite && y.fround.isFinite then some (x, y) else none
  | _ => none

/-- An entry with a string key and a pair. -/
def checkEntry : Option (Option JsString × Position) → Option (JsString × Binary64 × Binary64)
  | some (some key, p) => (isXY p).map fun xy => (key, xy)
  | _ => none

/-- Every entry passes a check, or the frame is declined. -/
def checkAll {α β : Type} (check : α → Option β) : List α → Option (List β)
  | [] => some []
  | a :: as =>
    match check a, checkAll check as with
    | some b, some bs => some (b :: bs)
    | _, _ => none

/-! ## The encoder -/

/-- The value streams of each cursor. -/
abbrev CursorSlots := JsMap JsString (Slot × Slot)

/-- `slotsFor(dict, key)`. -/
def slotsFor (slots : CursorSlots) (key : JsString) : Slot × Slot :=
  (slots.get key).getD (createStreamSlot, createStreamSlot)

/-- `CursorStreamEncodeDict`. -/
structure CursorStreamEncodeDict where
  keys : KeyEncodeDict
  lastT : Option ℕ
  slots : CursorSlots

/-- The position of one cursor. -/
def writePosition (slots : CursorSlots) (key : JsString) (x y : Binary64) : Bits × CursorSlots :=
  let s := slotsFor slots key
  let bx := writeStreamValue s.1 x.fround
  let by' := writeStreamValue s.2 y.fround
  (bx.1 ++ by'.1, slots.set key (bx.2, by'.2))

/-- The positions of a bulk frame, in entry order. -/
def writePositions (slots : CursorSlots) :
    List (JsString × Binary64 × Binary64) → Bits × CursorSlots
  | [] => ([], slots)
  | (key, x, y) :: entries =>
    let first := writePosition slots key x y
    let rest := writePositions first.2 entries
    (first.1 ++ rest.1, rest.2)

/-- The keys of a bulk frame, in entry order. -/
def writeKeys (keys : KeyEncodeDict) : List JsString → Bytes × KeyEncodeDict
  | [] => ([], keys)
  | key :: ks =>
    let first := keys.writeKey key
    let rest := writeKeys first.2 ks
    (first.1 ++ rest.1, rest.2)

/-- The entries of a catalog. -/
def writeUsers (keys : KeyEncodeDict) : List (JsString × JsString) → Bytes × KeyEncodeDict
  | [] => ([], keys)
  | (key, text) :: entries =>
    let first := keys.writeKey key
    let rest := writeUsers first.2 entries
    (first.1 ++ str text ++ rest.1, rest.2)

/-- The text of a user; `str(undefined)` writes the empty one. -/
def userText {U V : Type} (json : UserJson U V) (user : U) : Option JsString :=
  (json.stringify user).map (·.getD [])

/-- An entry of a catalog with a string key and the text of its user. -/
def checkUser {U V : Type} (json : UserJson U V) :
    Option (Option JsString × U) → Option (JsString × JsString)
  | some (some key, user) => (userText json user).map fun text => (key, text)
  | _ => none

/-- The stamp of a position frame and what follows it, unless the time source throws. -/
def stamped (e : CursorStreamEncodeDict) (reading : TimeReading) (op : UInt8)
    (body : CursorStreamEncodeDict → Bytes × CursorStreamEncodeDict) :
    Option Bytes × CursorStreamEncodeDict :=
  match reading.value with
  | none => (none, e)
  | some t =>
    let stamp := writeDeltaStamp e.lastT t
    let r := body { e with lastT := some stamp.2 }
    (some (op :: stamp.1 ++ r.1), r.2)

/-- The body of an update frame. -/
def updateBody (key : JsString) (x y : Binary64) (e : CursorStreamEncodeDict) :
    Bytes × CursorStreamEncodeDict :=
  let ref := e.keys.writeKey key
  let bits := writePosition e.slots key x y
  (ref.1 ++ finish bits.1, { e with keys := ref.2, slots := bits.2 })

/-- The body of a bulk frame. -/
def bulkBody (entries : List (JsString × Binary64 × Binary64)) (e : CursorStreamEncodeDict) :
    Bytes × CursorStreamEncodeDict :=
  let refs := writeKeys e.keys (entries.map Prod.fst)
  let bits := writePositions e.slots entries
  (varint entries.length ++ refs.1 ++ finish bits.1, { e with keys := refs.2, slots := bits.2 })

/-- `encodeCursor(event, data, state)`: the payload, or `none` where the frame is declined. -/
def encodeCursor {U V : Type} (json : UserJson U V) (e : CursorStreamEncodeDict)
    (event : CursorEvent U) (reading : TimeReading) : Option Bytes × CursorStreamEncodeDict :=
  let e := { e with keys := e.keys.beginFrame }
  match event with
  | .update data =>
    match checkEntry data with
    | none => (none, e)
    | some (key, x, y) => stamped e reading 1 (updateBody key x y)
  | .bulk data =>
    match data.bind (checkAll checkEntry) with
    | none => (none, e)
    | some entries => stamped e reading 2 (bulkBody entries)
  | .remove data =>
    match data.join with
    | none => (none, e)
    | some key =>
      let ref := e.keys.writeKey key
      (some (3 :: ref.1), { e with keys := ref.2, slots := e.slots.delete key })
  | .join data =>
    match checkUser json data with
    | none => (none, e)
    | some (key, text) =>
      let ref := e.keys.writeKey key
      (some (4 :: ref.1 ++ str text), { e with keys := ref.2 })
  | .catalog data =>
    match data.bind (checkAll (checkUser json)) with
    | none => (none, e)
    | some entries =>
      let refs := writeUsers e.keys entries
      (some (5 :: varint entries.length ++ refs.1), { e with keys := refs.2 })
  | .other => (none, e)

/-! ## The decoder -/

/-- `CursorDecodeDict`. -/
structure CursorDecodeDict where
  keys : KeyDecodeDict
  lastT : Option ℕ
  slots : CursorSlots

abbrev CursorReader := Throwing (CursorDecodeDict × Bytes)

/-- `readKeyRef(r, dict)`. -/
def readKeyRef : CursorReader JsString :=
  Wire.readKey.onPart (fun s => (s.1.keys, s.2)) fun s t => ({ s.1 with keys := t.1 }, t.2)

/-- `dict.lastT = t`. -/
def setLastT (t : ℕ) : CursorReader Unit := fun s => (some (), ({ s.1 with lastT := some t }, s.2))

/-- `dict.lastT`. -/
def getLastT : CursorReader (Option ℕ) := fun s => (some s.1.lastT, s)

/-- `readStamp(r, dict)`. -/
def readStamp : CursorReader ℕ := do
  let lastT ← getLastT
  let t ← onInput (readDeltaStamp lastT)
  setLastT t
  pure t

/-- The position of one cursor. -/
def readPosition (key : JsString) : Throwing (CursorSlots × Bits) (Binary64 × Binary64) := do
  let x ← readStreamValue.onPart (fun s => ((slotsFor s.1 key).1, s.2))
    fun s t => (s.1.set key (t.1, (slotsFor s.1 key).2), t.2)
  let y ← readStreamValue.onPart (fun s => ((slotsFor s.1 key).2, s.2))
    fun s t => (s.1.set key ((slotsFor s.1 key).1, t.1), t.2)
  pure (x, y)

/-- The positions of a bulk frame, in entry order. -/
def readPositions :
    List JsString → Throwing (CursorSlots × Bits) (List (JsString × Binary64 × Binary64))
  | [] => pure []
  | key :: keys => do
    let xy ← readPosition key
    let rest ← readPositions keys
    pure ((key, xy) :: rest)

/-- The trailing bit block. -/
def onBlock {α : Type} (x : Throwing (CursorSlots × Bits) α) : CursorReader α :=
  x.onPart (fun s => (s.1.slots, bitsOf s.2)) fun s t => ({ s.1 with slots := t.1 }, [])

/-- `dict.slots.delete(key)`. -/
def deleteSlots (key : JsString) : CursorReader Unit := fun s =>
  (some (), ({ s.1 with slots := s.1.slots.delete key }, s.2))

/-- `JSON.parse(text)`. -/
def parseUser {U V : Type} (json : UserJson U V) (text : JsString) : CursorReader V := fun s =>
  (json.parse text, s)

/-- An entry of a catalog. -/
def readUserEntry {U V : Type} (json : UserJson U V) : CursorReader (JsString × V) := do
  let key ← readKeyRef
  let text ← onInput readStr
  let user ← parseUser json text
  pure (key, user)

/-- `decodeCursor(payload, state, 4)`, before what it throws is caught. -/
def readCursor {U V : Type} (json : UserJson U V) : CursorReader (DecodedCursor V) := do
  let op ← onInput readU8
  if op = 1 then
    let t ← readStamp
    let key ← readKeyRef
    let xy ← onBlock (readPosition key)
    pure (.update key xy.1 xy.2 t)
  else if op = 2 then
    let t ← readStamp
    let count ← onInput readVarint
    let keys ← times count readKeyRef
    let entries ← onBlock (readPositions keys)
    pure (.bulk entries t)
  else if op = 3 then
    let key ← readKeyRef
    deleteSlots key
    pure (.remove key)
  else if op = 4 then
    let entry ← readUserEntry json
    pure (.join entry.1 entry.2)
  else if op = 5 then
    let count ← onInput readVarint
    let entries ← times count (readUserEntry json)
    pure (.catalog entries)
  else throw

/-- `decodeCursor(payload, state, 4)`, or `none` for a frame that is dropped. -/
def decodeCursor {U V : Type} (json : UserJson U V) (d : CursorDecodeDict) (payload : Bytes) :
    Option (DecodedCursor V) × CursorDecodeDict :=
  let r := readCursor json (d, payload)
  (r.1, r.2.1)

/-! ## The stream of frames -/

/-- The two ends of a connection, and each frame that was sent with what it was read as. -/
structure CursorLink (U V : Type) where
  encoder : CursorStreamEncodeDict
  decoder : CursorDecodeDict
  frames : List (CursorEvent U × Option (DecodedCursor V))

/-- Every payload is decoded in order. -/
def cursorMachine {U V : Type} (json : UserJson U V) (maxEntries : ℕ) :
    Machine (CursorLink U V) (CursorEvent U × TimeReading) where
  init := ⟨⟨.create maxEntries, none, .empty⟩, ⟨.create, none, .empty⟩, []⟩
  step s e :=
    match encodeCursor json s.encoder e.1 e.2 with
    | (none, encoder) => some { s with encoder := encoder }
    | (some payload, encoder) =>
      let r := decodeCursor json s.decoder payload
      some ⟨encoder, r.2, s.frames ++ [(e.1, r.1)]⟩

end AdapterWs.Cursor
