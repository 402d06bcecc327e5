import Mathlib.Algebra.Order.Ring.Rat
import Mathlib.Order.WithBot

/-!
# CRDT authority: options and bytes

What `createCrdtAuthority` reads from its caller, the checks it makes and the texts it throws,
and the Yjs document library it is written against.
-/

namespace AdapterWs.Crdt

/-- The Yjs operations the authority calls. `Contains blob u` says that a document loaded from
`blob` has merged the update `u`. -/
structure Yjs where
  /-- A document. -/
  Doc : Type
  /-- `new Y.Doc({ gc })` with its client id. -/
  newDoc : Bool → UInt32 → Doc
  /-- `Y.applyUpdate`: the document after the call, and whether the call returned. -/
  applyUpdate : Doc → List UInt8 → Doc × Bool
  /-- `Y.encodeStateAsUpdate` of the full document. -/
  encodeStateAsUpdate : Doc → List UInt8
  /-- Whether an encoded state has merged an update. -/
  Contains : List UInt8 → List UInt8 → Prop
  /-- An update that was applied is in the state. -/
  contains_applied : ∀ d u, (applyUpdate d u).2 = true →
    Contains (encodeStateAsUpdate (applyUpdate d u).1) u
  /-- Applying an update loses nothing. -/
  contains_mono : ∀ d u v, Contains (encodeStateAsUpdate d) u →
    Contains (encodeStateAsUpdate (applyUpdate d v).1) u

/-- A document that logs its updates one behind the other. -/
def Yjs.log : Yjs where
  Doc := List UInt8
  newDoc _ _ := []
  applyUpdate d u := (d ++ u, true)
  encodeStateAsUpdate d := d
  Contains blob u := u <:+: blob
  contains_applied d u _ := (List.suffix_append d u).isInfix
  contains_mono _ _ v h := h.trans (List.prefix_append _ v).isInfix

/-! ## Bytes -/

/-- A value passed where bytes are expected. -/
inductive JsBytes
  | uint8Array (bytes : List UInt8)
  /-- An array; an element that is not a finite number is `none`. -/
  | array (elements : List (Option ℚ))
  /-- Anything else. -/
  | other
  deriving DecidableEq

/-- One element of a `number[]`: an integer in `[0, 255]`. -/
def toByte (b : Option ℚ) : Option UInt8 :=
  match b with
  | some q => if q.den = 1 ∧ 0 ≤ q.num ∧ q.num ≤ 255 then some (UInt8.ofNat q.num.toNat) else none
  | none => none

/-- Normalize opaque CRDT bytes: a `Uint8Array` or a `number[]` of bytes. -/
def toBytes : JsBytes → Option (List UInt8)
  | .uint8Array bytes => some bytes
  | .array elements => elements.mapM toByte
  | .other => none

/-! ## Options -/

/-- A numeric option as the caller passes it. -/
inductive Knob
  /-- `undefined`: the default is adopted. -/
  | undefined
  /-- A finite number. -/
  | number (q : ℚ)
  | infinity
  /-- `NaN`, `-Infinity`, or not a number. -/
  | other
  deriving DecidableEq

/-- A hook as the caller passes it. -/
inductive HookOption
  | undefined
  | function
  /-- Anything else. -/
  | other
  deriving DecidableEq

/-- `options.persist` as the caller passes it. -/
inductive PersistOption
  | undefined
  /-- `null`, or not an object. -/
  | notObject
  /-- An object with its two hooks. -/
  | hooks (load store : HookOption)
  deriving DecidableEq

/-- The options object of `createCrdtAuthority`. A flag is `none` where it is not a boolean. -/
structure Options where
  /-- The host's load and store hooks. -/
  persist : PersistOption
  /-- The trailing debounce. -/
  debounceWait : Knob
  /-- The sustained-edit force. -/
  debounceMaxWait : Knob
  /-- The update-count compaction trigger. -/
  snapshotEvery : Knob
  /-- The default budget of an explicit flush. -/
  flushTimeout : Knob
  /-- Whether the last release stores. -/
  persistOnEmpty : Option Bool
  /-- Whether documents collect garbage. -/
  gc : Option Bool
  /-- The error handler. -/
  onError : HookOption
  deriving DecidableEq

/-- The validated options. -/
structure Config where
  /-- Whether `persist.load` is a function. -/
  hasLoad : Bool
  /-- Whether `persist.store` is a function. -/
  hasStore : Bool
  /-- Milliseconds of the trailing debounce. -/
  debounceWait : ℚ
  /-- Milliseconds an edited document may go without a checkpoint. -/
  debounceMaxWait : ℚ
  /-- Updates between two compactions. -/
  snapshotEvery : ℚ
  /-- The default flush budget; `⊤` is `Infinity`. -/
  flushTimeout : WithTop ℚ
  /-- Whether the last release stores. -/
  persistOnEmpty : Bool
  /-- Whether documents collect garbage. -/
  gc : Bool
  /-- Whether there is an error handler. -/
  hasOnError : Bool
  /-- The debounce is not negative. -/
  debounceWait_nonneg : 0 ≤ debounceWait
  /-- Nor is the force. -/
  debounceMaxWait_nonneg : 0 ≤ debounceMaxWait
  /-- A compaction takes at least one update. -/
  one_le_snapshotEvery : 1 ≤ snapshotEvery
  /-- The flush budget is not negative. -/
  flushTimeout_nonneg : ((0 : ℚ) : WithTop ℚ) ≤ flushTimeout

/-- Validate one numeric knob: `undefined` adopts the default, anything else must be a finite
number at or above `min`. -/
def checkKnob (v : Knob) (label : String) (min : ℕ) :
    Except String (Option { q : ℚ // (min : ℚ) ≤ q }) :=
  let error := "crdt: " ++ label ++ " must be a number >= " ++ toString min
  match v with
  | .undefined => .ok none
  | .number q => if h : (min : ℚ) ≤ q then .ok (some ⟨q, h⟩) else .error error
  | .infinity => .error error
  | .other => .error error

/-- Validate a flush budget: a finite number that is not negative, or `Infinity`. -/
def checkTimeout (v : Knob) (label : String) :
    Except String (Option { t : WithTop ℚ // ((0 : ℚ) : WithTop ℚ) ≤ t }) :=
  let error := "crdt: " ++ label ++ " must be a number >= 0 or Infinity"
  match v with
  | .undefined => .ok none
  | .infinity => .ok (some ⟨⊤, le_top⟩)
  | .number q => if h : 0 ≤ q then .ok (some ⟨q, WithTop.coe_le_coe.mpr h⟩) else .error error
  | .other => .error error

/-- The option checks of `createCrdtAuthority`, in the source's order. -/
def createCrdtAuthority (options : Option Options) : Except String Config := do
  let some options := options | throw "crdt: options must be an object"
  let (load, store) ←
    match options.persist with
    | .undefined => pure (HookOption.undefined, HookOption.undefined)
    | .notObject => throw "crdt: persist must be an object with load/store hooks"
    | .hooks load store => pure (load, store)
  if load = .other then throw "crdt: persist.load must be a function"
  if store = .other then throw "crdt: persist.store must be a function"
  if options.onError = .other then throw "crdt: onError must be a function"
  let debounceWait := (← checkKnob options.debounceWait "debounceWait" 0).getD
    ⟨2000, by decide⟩
  let debounceMaxWait := (← checkKnob options.debounceMaxWait "debounceMaxWait" 0).getD
    ⟨10000, by decide⟩
  let snapshotEvery := (← checkKnob options.snapshotEvery "snapshotEvery" 1).getD
    ⟨200, by decide⟩
  let flushTimeout := (← checkTimeout options.flushTimeout "flushTimeout").getD
    ⟨((10000 : ℚ) : WithTop ℚ), WithTop.coe_le_coe.mpr (by decide)⟩
  return {
    hasLoad := load = .function
    hasStore := store = .function
    debounceWait := debounceWait
    debounceMaxWait := debounceMaxWait
    snapshotEvery := snapshotEvery
    flushTimeout := flushTimeout
    persistOnEmpty := options.persistOnEmpty ≠ some false
    gc := options.gc ≠ some false
    hasOnError := options.onError = .function
    debounceWait_nonneg := by simpa using debounceWait.2
    debounceMaxWait_nonneg := by simpa using debounceMaxWait.2
    one_le_snapshotEvery := by simpa using snapshotEvery.2
    flushTimeout_nonneg := flushTimeout.2 }

/-- The configuration of an authority given no options but a store hook, or not even that. -/
def Config.defaults (hasStore : Bool) : Config where
  hasLoad := false
  hasStore := hasStore
  debounceWait := 2000
  debounceMaxWait := 10000
  snapshotEvery := 200
  flushTimeout := ((10000 : ℚ) : WithTop ℚ)
  persistOnEmpty := true
  gc := true
  hasOnError := false
  debounceWait_nonneg := by decide
  debounceMaxWait_nonneg := by decide
  one_le_snapshotEvery := by decide
  flushTimeout_nonneg := WithTop.coe_le_coe.mpr (by decide)

theorem createCrdtAuthority_defaults (hasStore : Bool) :
    createCrdtAuthority (some {
      persist := .hooks .undefined (if hasStore then .function else .undefined)
      debounceWait := .undefined, debounceMaxWait := .undefined, snapshotEvery := .undefined
      flushTimeout := .undefined, persistOnEmpty := none, gc := none, onError := .undefined }) =
      .ok (Config.defaults hasStore) := by
  cases hasStore <;> rfl

end AdapterWs.Crdt
