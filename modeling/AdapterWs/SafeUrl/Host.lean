import AdapterWs.SafeUrl.Literal

/-!
# The URL checks

`classifyHost` judges the text of a host. `classifyAddress` and `checkUrlResolved` both hand it
address strings, bracketed where they have a colon, and read its three-way answer separately.
The URL parser and the Unicode tables are parameters.
-/

namespace AdapterWs.SafeUrl

open JsString

/-- What the URL parser gives. -/
structure Url where
  /-- The scheme with its colon. -/
  protocol : JsString
  /-- The host. -/
  hostname : JsString

/-- The platform's string and URL functions. -/
structure Platform where
  /-- `toLowerCase`. -/
  case : CaseMap
  /-- `new URL`, or `none` where it throws. -/
  parseUrl : JsString → Option Url

/-- The posture. -/
inductive Mode
  | strict
  | allowlist
  | off
  deriving DecidableEq

/-- A value a resolver returns, or an element of its array. -/
inductive JsValue
  | str (s : JsString)
  | other
  deriving DecidableEq

/-- What awaiting the resolver gives. -/
inductive Resolution
  | threw
  | single (value : JsValue)
  | array (values : List JsValue)

/-- The options of the URL checks. -/
structure SafeUrlOptions where
  /-- The posture. -/
  mode : Mode
  /-- The allowlisted hosts. -/
  allow : List JsString
  /-- The resolver, if one is supplied. -/
  resolve : Option (JsString → Resolution)
  nat64Prefix : Option JsString

/-- The answer about a host text. -/
inductive HostClass
  /-- A blocked literal or name. -/
  | reason (r : Reason)
  | dnsName (name : JsString)
  /-- `null`. -/
  | clear
  deriving DecidableEq

/-- The answer about a URL. -/
inductive CheckUrlResult
  | safe
  | refused (r : Reason)
  deriving DecidableEq

/-- The answer for a literal of a given range. -/
def HostClass.ofReason : Option Reason → HostClass
  | some r => .reason r
  | none => .clear

/-- Strip one trailing dot. -/
def stripDot (host : JsString) : JsString :=
  if host.getLast? = some (unit '.') then host.dropLast else host

/-- Whether the text stands in brackets. -/
def bracketed (host : JsString) : Bool :=
  host.head? = some (unit '[') && host.getLast? = some (unit ']')

/-- `host.slice(1, -1)`. -/
def inner (host : JsString) : JsString := (host.drop 1).dropLast

/-- Classify a host that is in lower case and without its trailing dot. -/
def classifyNormal (host : JsString) (nat64 : Option Nat64) : HostClass :=
  if host.length = 0 then .clear
  else if bracketed host = true then
    match parseIpv6 (inner host) with
    | none => .reason .parseError
    | some groups => .ofReason (classifyIpv6 groups nat64)
  else if host = lit "localhost" then .reason .loopback
  else if host = lit "metadata.google.internal" ∨ host = lit "metadata" then .reason .metadata
  else
    match parseIpv4 host with
    | some v4 => .ofReason (classifyIpv4 v4)
    | none => .dnsName host

section Platform

variable (P : Platform)

/-- Classify a hostname by its literal text. -/
def classifyHost (hostname : JsString) (nat64 : Option Nat64) : HostClass :=
  classifyNormal (stripDot (P.case.toLowerCase hostname)) nat64

/-- Put a bare IPv6 text in brackets. -/
def bracket (ip : JsString) : JsString :=
  if unit ':' ∈ ip ∧ ip.head? ≠ some (unit '[') then unit '[' :: ip ++ [unit ']'] else ip

/-- Classify a bare address literal: `none` is a public one. -/
def classifyAddress (ip : JsValue) (options : SafeUrlOptions) : Option Reason :=
  match ip with
  | .other => some .notAnIp
  | .str ip =>
    let host := bracket ip
    match classifyHost P host (parseNat64Prefix options.nat64Prefix) with
    | .clear =>
      let bare := if host.head? = some (unit '[') then inner host else host
      if bare.length = 0 then some .notAnIp
      else if (parseIpv4 bare).isSome ∨ (parseIpv6 bare).isSome then none
      else some .notAnIp
    | .reason r => some r
    | .dnsName _ => some .notAnIp

/-- Whether the host is on the allowlist. -/
def allowed (options : SafeUrlOptions) (hostname : JsString) : Bool :=
  options.allow.any fun entry =>
    stripDot (P.case.toLowerCase entry) = stripDot (P.case.toLowerCase hostname)

/-- Check a URL by its literal host. -/
def checkUrl (url : JsString) (options : SafeUrlOptions) : CheckUrlResult :=
  match P.parseUrl url with
  | none => .refused .parseError
  | some parsed =>
    if parsed.protocol ≠ lit "http:" ∧ parsed.protocol ≠ lit "https:" then .refused .badScheme
    else if options.mode = .off then .safe
    else
      match classifyHost P parsed.hostname (parseNat64Prefix options.nat64Prefix) with
      | .reason r => .refused r
      | _ =>
        if options.mode = .allowlist ∧ allowed P options parsed.hostname = false then
          .refused .notAllowlisted
        else .safe

/-- Check the addresses a resolver returned, in order. -/
def checkAddresses (nat64 : Option Nat64) : List JsValue → CheckUrlResult
  | [] => .safe
  | .other :: _ => .refused .unresolvedHost
  | .str addr :: addresses =>
    if addr.length = 0 then .refused .unresolvedHost
    else
      match classifyHost P (bracket addr) nat64 with
      | .reason r => .refused r
      | .dnsName _ => .refused .unresolvedHost
      | .clear => checkAddresses nat64 addresses

/-- The addresses of a resolver's answer. -/
def Resolution.addresses : Resolution → Option (List JsValue)
  | .threw => none
  | .single value => some [value]
  | .array values => some values

/-- Check a URL, and every address its name resolves to. -/
def checkUrlResolved (url : JsString) (options : SafeUrlOptions) : CheckUrlResult :=
  match checkUrl P url options with
  | .refused r => .refused r
  | .safe =>
    if options.mode = .off then .safe
    else
      match options.resolve, P.parseUrl url with
      | some resolve, some parsed =>
        let nat64 := parseNat64Prefix options.nat64Prefix
        match classifyHost P parsed.hostname nat64 with
        | .dnsName name =>
          match (resolve name).addresses with
          | none => .refused .unresolvedHost
          | some [] => .refused .unresolvedHost
          | some addresses => checkAddresses P nat64 addresses
        | _ => .safe
      | _, _ => .safe

end Platform

end AdapterWs.SafeUrl
