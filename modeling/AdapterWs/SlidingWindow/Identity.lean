import AdapterWs.SafeUrl.Literal

/-!
# The identity a request is metered under

`rateLimitKey` folds an IPv6 address to the prefix its site was given, and takes the port off a
dotted IPv4 address. Everything else is its own identity.
-/

namespace AdapterWs.SlidingWindow

open JsString
open SafeUrl (isDecimal isHex parseInt)

/-! ## Groups -/

/-- `/^\d{1,n}$/`. -/
def isDigits (n : ℕ) (s : JsString) : Bool :=
  decide (1 ≤ s.length) && decide (s.length ≤ n) && s.all isDecimal

/-- A lower-case hexadecimal digit. -/
def isLowerHex (c : UInt16) : Bool := isDecimal c || (97 ≤ c.toNat && c.toNat ≤ 102)

/-- `/^[0-9a-f]{1,4}$/`. -/
def isGroup (s : JsString) : Bool :=
  decide (1 ≤ s.length) && decide (s.length ≤ 4) && s.all isLowerHex

/-- `value.toString(16)`. -/
def toHex (n : ℕ) : JsString := (Nat.toDigits 16 n).map unit

/-- The groups of a run between colons: none of an empty run. -/
def groupsOf (run : JsString) : List JsString := if run = [] then [] else split (unit ':') run

/-- The eight groups of an address, not checked yet. A double colon stands for the missing ones. -/
def fillGroups (head : JsString) : Option (List JsString) :=
  match splitDouble (unit ':') head with
  | [left] => if (groupsOf left).length = 8 then some (groupsOf left) else none
  | [left, right] =>
    let missing : ℤ := 8 - (groupsOf left).length - (groupsOf right).length
    if missing < 0 then none
    else some (groupsOf left ++ List.replicate missing.toNat (lit "0") ++ groupsOf right)
  | _ => none

/-- The value of an octet of an embedded IPv4 address. -/
def octetValue (octet : JsString) : Option ℕ :=
  if isDigits 3 octet = true ∧ parseInt octet 10 ≤ 255 then some (parseInt octet 10) else none

/-- The two groups an embedded IPv4 address stands for. -/
def tailGroups (last : JsString) : Option (JsString × JsString) :=
  match (split (unit '.') last).mapM octetValue with
  | some [n₀, n₁, n₂, n₃] => some (toHex (n₀ <<< 8 ||| n₁), toHex (n₂ <<< 8 ||| n₃))
  | _ => none

/-- Every group is checked, and those of the key are written the shortest way. -/
def normalizeGroups (groups : List JsString) : Option (List JsString) :=
  if groups.all isGroup = true then
    some ((groups.take 4).map (fun group => toHex (parseInt group 16)) ++ groups.drop 4)
  else none

/-- The groups of an IPv6 literal in lower case. -/
def expandIpv6 (host : JsString) : Option (List JsString) :=
  let last := host.rtakeWhile (· ≠ unit ':')
  if unit '.' ∈ last then
    (tailGroups last).bind fun tail =>
      (fillGroups (host.rdropWhile (· ≠ unit ':') ++ lit "0:0")).bind fun groups =>
        normalizeGroups ((groups.set 6 tail.1).set 7 tail.2)
  else (fillGroups host).bind normalizeGroups

/-! ## Folding -/

/-- The prefix of an address, unless unrelated clients share it. -/
def allocationPrefix (groups : List JsString) : Option JsString :=
  let group := fun i => groups.getD i []
  if group 0 = lit "0" ∧ group 1 = lit "0" ∧ group 2 = lit "0" ∧ group 3 = lit "0" then none
  else if group 0 = lit "64" ∧ group 1 = lit "ff9b" then none
  else if group 0 = lit "2001" ∧ group 1 = lit "0" then none
  else if parseInt (group 0) 16 &&& 0xffc0 = 0xfe80 then none
  else if group 0 = lit "2002" then
    some (group 0 ++ lit ":" ++ group 1 ++ lit ":" ++ group 2 ++ lit "::")
  else some (group 0 ++ lit ":" ++ group 1 ++ lit ":" ++ group 2 ++ lit ":" ++ group 3 ++ lit "::")

/-- A port: up to five digits, no more than 65535. -/
def isPort (s : JsString) : Bool := isDigits 5 s && decide (parseInt s 10 ≤ 65535)

/-- What stands between the brackets of a value that opens one, with a port after them. -/
def unbracket (value : JsString) : Option JsString :=
  if value.head? = some (unit '[') then
    if unit ']' ∉ value then none
    else
      let host := (value.drop 1).takeWhile (· ≠ unit ']')
      let suffix := value.drop (host.length + 2)
      if suffix ≠ [] ∧ ¬(suffix.head? = some (unit ':') ∧ isPort (suffix.drop 1) = true) then none
      else some host
  else some value

/-- `/^(0{1,4}:){n}/`. -/
def leadsWithZeros : ℕ → JsString → Bool
  | 0, _ => true
  | n + 1, s =>
    let zeros := s.takeWhile (· = unit '0')
    decide (1 ≤ zeros.length) && decide (zeros.length ≤ 4) &&
      decide ((s.drop zeros.length).head? = some (unit ':')) &&
        leadsWithZeros n (s.drop (zeros.length + 1))

/-- `/^(0{1,4}:){4}|^::/`. -/
def leadsWithNothing (host : JsString) : Bool :=
  leadsWithZeros 4 host || decide (host.take 2 = lit "::")

/-- `/^(\d{1,3}(?:\.\d{1,3}){3}):(\d{1,5})$/`. -/
def withPort (host : JsString) : Option (JsString × JsString) :=
  match split (unit ':') host with
  | [address, port] =>
    if (split (unit '.') address).length = 4 ∧
        (split (unit '.') address).all (isDigits 3) = true ∧ isDigits 5 port = true then
      some (address, port)
    else none
  | _ => none

/-- An octet that two readers may read differently, or that is none. -/
def isDoubtful (octet : JsString) : Bool :=
  (decide (1 < octet.length) && decide (octet.head? = some (unit '0'))) ||
    decide (255 < parseInt octet 10)

/-- The identity of a lowered host, `value` where it is not folded. -/
def foldLowered (value host : JsString) : JsString :=
  match withPort host with
  | some (address, port) =>
    if 65535 < parseInt port 10 then value
    else if (split (unit '.') address).any isDoubtful = true then value
    else address
  | none => ((expandIpv6 host).bind allocationPrefix).getD value

/-- The prefix of a value that is an address. -/
def foldToPrefix (case : CaseMap) (value : JsString) : JsString :=
  match unbracket value with
  | none => value
  | some host =>
    if unit ':' ∉ host then value
    else if leadsWithNothing host = true then value
    else if unit '%' ∈ host then value
    else foldLowered value (case.toLowerCase host)

/-- The bucket one client gets. -/
def rateLimitKey (case : CaseMap) (maxKeyLen : ℕ) (clientIp : JsString) : JsString :=
  let bounded := clientIp.take maxKeyLen
  (foldToPrefix case bounded).take maxKeyLen

end AdapterWs.SlidingWindow
