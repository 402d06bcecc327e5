import AdapterWs.Lib.OwnProperties
import AdapterWs.Wire.Bytes

/-!
# The generic value codec

JSON values as tagged bytes: null, false, true, an integer of at most `2^52`, another finite
number, a string, an array, an object. What JSON drops is dropped, and what it makes null is null.
-/

namespace AdapterWs.Wire

open JsString Throwing OwnProperties

/-- A value with objects as their own properties, in the order of enumeration. -/
inductive Value where
  | undefined
  | null
  | bool (b : Bool)
  | number (x : Binary64)
  | string (s : JsString)
  /-- A function; JSON makes `answer` of what it returns as a method `toJSON`. -/
  | function (answer : Value)
  | symbol
  /-- A gap of an array is an undefined element. -/
  | array (elems : List Value)
  | object (props : List (JsString × Value))

namespace Value

/-- A property that JSON keeps. -/
def isKept : Value → Bool
  | .undefined | .function _ | .symbol => false
  | _ => true

end Value

/-! ## Writing -/

/-- The integers that travel as varints. -/
def INT_LIMIT : ℤ := 2 ^ 52

/-- Negative and other integers in turn. -/
def zigzag (n : ℤ) : ℕ := if 0 ≤ n then (n * 2).toNat else (n * -2 - 1).toNat

def writeNumber (x : Binary64) : Bytes :=
  if !x.isFinite then [0]
  else if x.isInteger && Binary64.le (.ofInt (-INT_LIMIT)) x && x.le (.ofInt INT_LIMIT) then
    3 :: varint (zigzag x.toInt)
  else 4 :: f64 x

mutual

/-- `writeValue(w, v)`. -/
def writeValue : Value → Bytes
  | .null | .undefined => [0]
  | .bool false => [1]
  | .bool true => [2]
  | .number x => writeNumber x
  | .string s => 5 :: str s
  | .array elems => 6 :: varint elems.length ++ writeElems elems
  | .object props => 7 :: varint (props.countP fun p => p.2.isKept) ++ writeProps props
  | .function _ | .symbol => [0]

/-- The elements of an array. -/
def writeElems : List Value → Bytes
  | [] => []
  | v :: vs => writeValue v ++ writeElems vs

/-- The properties of an object that JSON keeps. -/
def writeProps : List (JsString × Value) → Bytes
  | [] => []
  | (key, v) :: props => (if v.isKept then str key ++ writeValue v else []) ++ writeProps props

end

/-- `encodeValue(v)`. -/
def encodeValue (v : Value) : Bytes := writeValue v

/-! ## Reading -/

/-- The integer of a zigzag code. -/
def unzigzag (u : ℕ) : ℤ := if u % 2 = 0 then u / 2 else -((u + 1) / 2)

/-- A property of an object. -/
def readProp (value : Throwing Bytes Value) : Throwing Bytes (JsString × Value) := do
  let key ← readStr
  let v ← value
  pure (key, v)

/-- `readValue(r)`, to a depth that the bytes bound. -/
def readValueTo : ℕ → Throwing Bytes Value
  | 0 => throw
  | depth + 1 => do
    let tag ← readU8
    if tag = 0 then pure .null
    else if tag = 1 then pure (.bool false)
    else if tag = 2 then pure (.bool true)
    else if tag = 3 then
      let u ← readVarint
      pure (.number (.ofInt (unzigzag u)))
    else if tag = 4 then
      let x ← readF64
      pure (.number x)
    else if tag = 5 then
      let s ← readStr
      pure (.string s)
    else if tag = 6 then
      let n ← readVarint
      let elems ← times n (readValueTo depth)
      pure (.array elems)
    else if tag = 7 then
      let n ← readVarint
      let props ← times n (readProp (readValueTo depth))
      pure (.object (ofList props))
    else throw

/-- `readValue(r)`: every value takes a byte. -/
def readValue : Throwing Bytes Value := fun bytes => readValueTo bytes.length bytes

/-- `decodeValue(bytes)`, and the bytes it left. -/
def decodeValue (bytes : Bytes) : Option Value × Bytes := readValue bytes

/-! ## JSON -/

namespace Value

/-- JSON has no negative zero. -/
def plainNumber (x : Binary64) : Value :=
  if !x.isFinite then .null else if x.strictEq (.ofInt 0) then .number (.ofInt 0) else .number x

/-- The method `toJSON` of an object. -/
def toJSONMethod : List (JsString × Value) → Option Value
  | [] => none
  | (key, .function answer) :: props =>
    if key = lit "toJSON" then some answer else toJSONMethod props
  | _ :: props => toJSONMethod props

mutual

/-- What JSON keeps of a value. -/
def jsonView : Value → Option Value
  | .undefined | .function _ | .symbol => none
  | .null => some .null
  | .bool b => some (.bool b)
  | .number x => some (plainNumber x)
  | .string s => some (.string s)
  | .array elems => some (.array (jsonElems elems))
  | .object props =>
    match toJSONMethod props with
    | some answer => if answer.isKept then some answer else none
    | none => some (.object (ofList (jsonProps props)))

/-- The elements of an array. -/
def jsonElems : List Value → List Value
  | [] => []
  | v :: vs => v.jsonView.getD .null :: jsonElems vs

/-- The properties of an object. -/
def jsonProps : List (JsString × Value) → List (JsString × Value)
  | [] => []
  | (key, v) :: props => (v.jsonView.map fun j => (key, j)).toList ++ jsonProps props

end

/-- `JSON.parse(JSON.stringify(v))`, with undefined read as null. -/
def jsonRoundTrip (v : Value) : Value := v.jsonView.getD .null

mutual

/-- Every object has its properties in the order of enumeration. -/
def isOrdered : Value → Bool
  | .array elems => isOrderedElems elems
  | .object props => decide (Ordered props) && isOrderedProps props
  | _ => true

def isOrderedElems : List Value → Bool
  | [] => true
  | v :: vs => v.isOrdered && isOrderedElems vs

def isOrderedProps : List (JsString × Value) → Bool
  | [] => true
  | (_, v) :: props => v.isOrdered && isOrderedProps props

end

mutual

/-- No object has a method `toJSON`. -/
def hasNoToJSON : Value → Bool
  | .array elems => elemsHaveNoToJSON elems
  | .object props => (toJSONMethod props).isNone && propsHaveNoToJSON props
  | _ => true

def elemsHaveNoToJSON : List Value → Bool
  | [] => true
  | v :: vs => v.hasNoToJSON && elemsHaveNoToJSON vs

def propsHaveNoToJSON : List (JsString × Value) → Bool
  | [] => true
  | (_, v) :: props => v.hasNoToJSON && propsHaveNoToJSON props

end

mutual

/-- Every string and every key that JSON keeps is a text. -/
def isTextual : Value → Bool
  | .string s => isText s
  | .array elems => isTextualElems elems
  | .object props => isTextualProps props
  | _ => true

def isTextualElems : List Value → Bool
  | [] => true
  | v :: vs => v.isTextual && isTextualElems vs

def isTextualProps : List (JsString × Value) → Bool
  | [] => true
  | (key, v) :: props => (!v.isKept || isText key && v.isTextual) && isTextualProps props

end

end Value

/-- A value whose objects have their properties in the order of enumeration. -/
structure PlainValue where
  value : Value
  ordered : value.isOrdered = true

end AdapterWs.Wire
