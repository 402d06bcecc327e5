import Mathlib.Data.BitVec

/-!
# Blocked addresses

`classifyIpv4` and `classifyIpv6` name the blocked range an address lies in. An IPv6 address
can carry an IPv4 address in many forms; every form is unwrapped and the IPv4 checked again.
A NAT64 address does not record the length of its prefix, so that without a declared prefix
its IPv4 is read at every length, and with one at exactly that length.
-/

namespace AdapterWs.SafeUrl

/-- Why a URL or an address is refused. -/
inductive Reason
  | loopback
  | rfc1918
  | linkLocal
  | metadata
  | ula
  | unspecified
  | cgnat
  | benchmark
  | multicast
  | reserved
  | unresolvedHost
  | notAllowlisted
  | badScheme
  | parseError
  | notAnIp
  deriving DecidableEq

/-- A 32-bit IPv4 address. -/
abbrev Ipv4 := BitVec 32

/-- The eight 16-bit groups of an IPv6 address. -/
abbrev Ipv6 := Fin 8 → BitVec 16

/-- The blocked range of an IPv4 address. -/
def classifyIpv4 (addr : Ipv4) : Option Reason :=
  let a := (addr >>> 24) &&& 0xff
  let b := (addr >>> 16) &&& 0xff
  let c := (addr >>> 8) &&& 0xff
  let d := addr &&& 0xff
  if a = 169 ∧ b = 254 ∧ c = 169 ∧ d = 254 then some .metadata
  else if a = 0 then some .unspecified
  else if a = 127 then some .loopback
  else if a = 169 ∧ b = 254 then some .linkLocal
  else if a = 10 then some .rfc1918
  else if a = 172 ∧ 16 ≤ b ∧ b ≤ 31 then some .rfc1918
  else if a = 192 ∧ b = 168 then some .rfc1918
  else if a = 100 ∧ 64 ≤ b ∧ b ≤ 127 then some .cgnat
  else if a = 198 ∧ (b = 18 ∨ b = 19) then some .benchmark
  else if a = 192 ∧ b = 0 ∧ c = 0 then some .reserved
  else if 224 ≤ a ∧ a ≤ 239 then some .multicast
  else if 240 ≤ a then some .reserved
  else none

/-- A group as the operand of a 32-bit operation. -/
def wide (group : BitVec 16) : Ipv4 := group.setWidth 32

/-- Two groups read as one IPv4 address. -/
def embedded (hi lo : BitVec 16) : Ipv4 := (wide hi <<< 16) ||| wide lo

/-- `64:ff9b::/32` read at every length, the shortest first. -/
def readings (g : Ipv6) : List Ipv4 :=
  [(wide (g 2) <<< 16) ||| wide (g 3),
    ((wide (g 2) &&& 0xff) <<< 24) ||| (wide (g 3) <<< 8) ||| (wide (g 4) &&& 0xff),
    (wide (g 3) <<< 16) ||| ((wide (g 4) &&& 0xff) <<< 8) ||| (wide (g 5) >>> 8),
    ((wide (g 3) &&& 0xff) <<< 24) ||| ((wide (g 4) &&& 0xff) <<< 16) ||| wide (g 5),
    ((wide (g 4) &&& 0xff) <<< 24) ||| (wide (g 5) <<< 8) ||| (wide (g 6) >>> 8),
    (wide (g 6) <<< 16) ||| wide (g 7)]

/-- The prefix lengths RFC 6052 section 2.2 defines, shortest first. -/
def NAT64_PREFIX_LENGTHS : List ℕ := [32, 40, 48, 56, 64, 96]

/-- A declared NAT64 prefix. -/
structure Nat64 where
  /-- The prefix. -/
  groups : Ipv6
  /-- Its length. -/
  len : ℕ
  /-- The length is one of the six. -/
  len_mem : len ∈ NAT64_PREFIX_LENGTHS

/-- Read the IPv4 embedded at one prefix length. -/
def nat64ReadAt (g : Ipv6) (len : ℕ) : Ipv4 :=
  if len = 32 then (wide (g 2) <<< 16) ||| wide (g 3)
  else if len = 40 then
    ((wide (g 2) &&& 0xff) <<< 24) ||| (wide (g 3) <<< 8) ||| (wide (g 4) &&& 0xff)
  else if len = 48 then
    (wide (g 3) <<< 16) ||| ((wide (g 4) &&& 0xff) <<< 8) ||| (wide (g 5) >>> 8)
  else if len = 56 then
    ((wide (g 3) &&& 0xff) <<< 24) ||| ((wide (g 4) &&& 0xff) <<< 16) ||| wide (g 5)
  else if len = 64 then
    ((wide (g 4) &&& 0xff) <<< 24) ||| (wide (g 5) <<< 8) ||| (wide (g 6) >>> 8)
  else (wide (g 6) <<< 16) ||| wide (g 7)

/-- One bit of an address, counted from the left. -/
def bitAt (g : Ipv6) (bit : ℕ) : Bool :=
  ((g (Fin.ofNat 8 (bit / 16)) >>> (15 - bit % 16)) &&& 1#16) ≠ 0#16

/-- Where the suffix after the embedded address starts. -/
def suffixStart (len : ℕ) : ℕ := if len = 96 then 128 else if len = 64 then 104 else len + 40

/-- Are any bits set after the embedded address? -/
def nat64SuffixDirty (g : Ipv6) (len : ℕ) : Bool :=
  (List.range' (suffixStart len) (128 - suffixStart len)).any (bitAt g)

/-- Does the address sit inside the declared prefix? -/
def nat64InPrefix (g groups : Ipv6) (len : ℕ) : Bool :=
  let whole := len / 16
  let rest := len % 16
  let mask := 0xffff#16 <<< (16 - rest)
  (List.range whole).all (fun i => g (Fin.ofNat 8 i) = groups (Fin.ofNat 8 i)) &&
    (rest = 0 || g (Fin.ofNat 8 whole) &&& mask = groups (Fin.ofNat 8 whole) &&& mask)

/-- Whether the IPv4 address lies in `0.0.0.0/8`. -/
def zeroNet (v : Ipv4) : Bool := v >>> 24 = 0

/-- The first five groups are zero. -/
def allZeroHigh (g : Ipv6) : Prop := g 0 = 0 ∧ g 1 = 0 ∧ g 2 = 0 ∧ g 3 = 0 ∧ g 4 = 0

instance (g : Ipv6) : Decidable (allZeroHigh g) := inferInstanceAs (Decidable (_ ∧ _))

/-- The native IPv6 ranges checked before the NAT64 forms. -/
def classifyNative (g : Ipv6) : Option Reason :=
  if g 0 &&& 0xfe00 = 0xfc00 then some .ula
  else if g 0 &&& 0xffc0 = 0xfe80 then some .linkLocal
  else if g 0 &&& 0xffc0 = 0xfec0 then some .ula
  else if g 0 &&& 0xff00 = 0xff00 then some .multicast
  else none

/-- An address inside the declared prefix, read at its length only. -/
def classifyDeclared (g : Ipv6) (len : ℕ) : Option Reason :=
  (classifyIpv4 (nat64ReadAt g len)).or
    (if g 4 >>> 8 ≠ 0 then some .reserved
    else if nat64SuffixDirty g len then some .reserved
    else none)

/-- The readings in turn. One in `0.0.0.0/8` is skipped unless every reading lies there. -/
def classifyReadings (g : Ipv6) : Option Reason :=
  let allPadding := (readings g).all zeroNet
  (readings g).findSome? fun v =>
    if !allPadding && zeroNet v then none else classifyIpv4 v

/-- An address under `64:ff9b::/32`, read at every length. -/
def classifyNat64 (g : Ipv6) : Option Reason :=
  (classifyReadings g).or
    (if g 3 = 0 ∧ g 4 = 0 ∧ g 5 = 0 ∧ g 6 = 0 ∧ g 7 = 0 then some .unspecified
    else if g 4 >>> 8 ≠ 0 then some .reserved
    else none)

/-- The interface identifier of an ISATAP address. -/
def isatap (g : Ipv6) : Prop := (g 4 = 0x0000 ∨ g 4 = 0x0200) ∧ g 5 = 0x5efe

instance (g : Ipv6) : Decidable (isatap g) := inferInstanceAs (Decidable (_ ∧ _))

/-- 6to4, Teredo and ISATAP. -/
def classifyTunnel (g : Ipv6) : Option Reason :=
  (if g 0 = 0x2002 then classifyIpv4 (embedded (g 1) (g 2)) else none).or
    (if g 0 = 0x2001 ∧ g 1 = 0 then some .reserved
    else if isatap g then classifyIpv4 (embedded (g 6) (g 7))
    else none)

/-- The checks after the IPv4-mapped, compatible and translated forms. -/
def classifyUnwrapped (g : Ipv6) (nat64 : Option Nat64) : Option Reason :=
  (classifyNative g).or
    (match nat64.filter fun n => nat64InPrefix g n.groups n.len with
    | some n => (classifyDeclared g n.len).or (classifyTunnel g)
    | none => if g 0 = 0x0064 ∧ g 1 = 0xff9b then classifyNat64 g else classifyTunnel g)

/-- The blocked range of an IPv6 address. -/
def classifyIpv6 (g : Ipv6) (nat64 : Option Nat64) : Option Reason :=
  let v4 := embedded (g 6) (g 7)
  if allZeroHigh g ∧ g 5 = 0xffff then classifyIpv4 v4
  else
    (if allZeroHigh g ∧ g 5 = 0 ∧ (g 6 ≠ 0 ∨ g 7 ≠ 0) ∧ v4 ≠ 1 then classifyIpv4 v4 else none).or
      (if ∀ i, g i = 0 then some .unspecified
      else if allZeroHigh g ∧ g 5 = 0 ∧ g 6 = 0 ∧ g 7 = 1 then some .loopback
      else if g 0 = 0xfd00 ∧ g 1 = 0x0ec2 ∧ g 2 = 0 ∧ g 3 = 0 ∧ g 4 = 0 ∧ g 5 = 0 ∧ g 6 = 0 ∧
          g 7 = 0x0254 then some .metadata
      else if g 0 = 0 ∧ g 1 = 0 ∧ g 2 = 0 ∧ g 3 = 0 ∧ g 4 = 0xffff ∧ g 5 = 0 then classifyIpv4 v4
      else classifyUnwrapped g nat64)

end AdapterWs.SafeUrl
