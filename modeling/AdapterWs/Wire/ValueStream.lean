import AdapterWs.Wire.Words

/-!
# Temporal value streams

A series of numbers is written against the previous sample of its slot: integers as the difference
of two differences, other numbers as the exclusive or of two patterns, in the window of the
previous one where it fits.
-/

namespace AdapterWs.Wire

open Throwing

/-- The temporal state of a series. -/
structure Slot where
  has : Bool
  prev : Binary64
  prevDelta : Binary64
  hasWindow : Bool
  wLead : ℕ
  wLen : ℕ
  deriving DecidableEq

/-- `createStreamSlot()`. -/
def createStreamSlot : Slot := ⟨false, .ofInt 0, .ofInt 0, false, 0, 64⟩

/-- `writeSigned(bw, value, bits)`. -/
def writeSigned (value : ℤ) (bits : ℕ) : Bits :=
  writeBits (if value < 0 then value + 2 ^ bits else value).toNat bits

/-- `readSigned(br, bits)`. -/
def readSigned (bits : ℕ) : Throwing Bits ℤ := do
  let u ← readBits bits
  pure (if 2 ^ (bits - 1) ≤ u then (u : ℤ) - 2 ^ bits else u)

/-- `min <= dod && dod <= max`. -/
def between (min max : ℤ) (dod : Binary64) : Bool :=
  Binary64.le (.ofInt min) dod && dod.le (.ofInt max)

/-- The double difference of a sample that rides the integer path, or `none`. -/
def intPath (slot : Slot) (value : Binary64) : Option (Binary64 × Binary64) :=
  if value.isSafeInteger && slot.prev.isSafeInteger then
    let delta := value.sub slot.prev
    let dod := delta.sub slot.prevDelta
    if Binary64.le (.ofInt (-2 ^ 31)) dod && dod.lt (.ofInt (2 ^ 31)) then some (delta, dod)
    else none
  else none

/-- A double difference, by the size of it. -/
def writeDod (dod : Binary64) : Bits :=
  if dod.strictEq (.ofInt 0) then [false]
  else if between (-64) 63 dod then true :: false :: writeSigned dod.toInt 7
  else if between (-256) 255 dod then true :: writeBits 0b10 2 ++ writeSigned dod.toInt 9
  else if between (-2048) 2047 dod then true :: writeBits 0b110 3 ++ writeSigned dod.toInt 12
  else true :: writeBits 0b111 3 ++ writeSigned dod.toInt 32

/-- The exclusive or with the previous pattern: in the established window, or in a new one. -/
def writeXor (slot : Slot) (x : Words) : Bits × Slot :=
  if x = ⟨0, 0⟩ then ([false], slot)
  else
    let lead := x.clz64
    let len := 64 - lead - x.ctz64
    if slot.hasWindow && decide (slot.wLead ≤ lead ∧ lead + len ≤ slot.wLead + slot.wLen) then
      (true :: false :: x.writeSpan slot.wLead slot.wLen, slot)
    else
      (true :: true :: writeBits lead 6 ++ writeBits (len - 1) 6 ++ x.writeSpan lead len,
        { slot with hasWindow := true, wLead := lead, wLen := len })

/-- `writeStreamValue(bw, slot, value)`: the bits, and the slot after it. -/
def writeStreamValue (slot : Slot) (value : Binary64) : Bits × Slot :=
  if !slot.has then
    let w := f64ToWords value
    (writeBits w.hi.toNat 32 ++ writeBits w.lo.toNat 32,
      { slot with has := true, prev := value, prevDelta := .ofInt 0, hasWindow := false })
  else
    match intPath slot value with
    | some (delta, dod) => (false :: writeDod dod, { slot with prev := value, prevDelta := delta })
    | none =>
      let r := writeXor slot ((f64ToWords value).xor (f64ToWords slot.prev))
      (true :: r.1, { r.2 with prev := value, prevDelta := .ofInt 0 })

/-- A double difference is read. -/
def readDod : Throwing Bits ℤ := do
  if ← readBit then
    if ← readBit then
      if ← readBit then
        if ← readBit then readSigned 32 else readSigned 12
      else readSigned 9
    else readSigned 7
  else pure 0

/-- The bits beside a slot. -/
def onBits {α : Type} (x : Throwing Bits α) : Throwing (Slot × Bits) α :=
  x.onPart Prod.snd fun s bits => (s.1, bits)

def getSlot : Throwing (Slot × Bits) Slot := fun s => (some s.1, s)

def setSlot (slot : Slot) : Throwing (Slot × Bits) Unit := fun s => (some (), (slot, s.2))

/-- The sample of an exclusive or. -/
def readXor (slot : Slot) : Throwing (Slot × Bits) Binary64 := do
  if ← onBits readBit then
    if ← onBits readBit then
      let lead ← onBits (readBits 6)
      let len ← onBits (readBits 6)
      setSlot { slot with hasWindow := true, wLead := lead, wLen := len + 1 }
      let x ← onBits (Words.readSpan lead (len + 1))
      pure (wordsToF64 (x.xor (f64ToWords slot.prev)))
    else
      let x ← onBits (Words.readSpan slot.wLead slot.wLen)
      pure (wordsToF64 (x.xor (f64ToWords slot.prev)))
  else pure slot.prev

/-- `readStreamValue(br, slot)`. -/
def readStreamValue : Throwing (Slot × Bits) Binary64 := do
  let slot ← getSlot
  if !slot.has then
    let hi ← onBits (readBits 32)
    let lo ← onBits (readBits 32)
    let value := wordsToF64 ⟨BitVec.ofNat 32 hi, BitVec.ofNat 32 lo⟩
    setSlot { slot with has := true, prev := value, prevDelta := .ofInt 0, hasWindow := false }
    pure value
  else if ← onBits readBit then
    let value ← readXor slot
    let slot ← getSlot
    setSlot { slot with prev := value, prevDelta := .ofInt 0 }
    pure value
  else
    let dod ← onBits readDod
    let delta := slot.prevDelta.add (.ofInt dod)
    let value := slot.prev.add delta
    setSlot { slot with prev := value, prevDelta := delta }
    pure value

end AdapterWs.Wire
