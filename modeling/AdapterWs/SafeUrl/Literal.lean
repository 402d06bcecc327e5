import AdapterWs.Lib.JsString
import AdapterWs.SafeUrl.Address

/-!
# Address literals

The text of an IPv4 address in every encoding a resolver accepts, the text of an IPv6 address,
and the declared NAT64 prefix. What parses is written in literal units only, up to a zone
identifier, so that parsing does not tell a string from its lowered form.
-/

namespace AdapterWs.SafeUrl

open JsString List Option Bool

/-- A decimal digit. -/
def isDecimal (c : UInt16) : Bool := 48 ≤ c.toNat && c.toNat ≤ 57

/-- An octal digit. -/
def isOctal (c : UInt16) : Bool := 48 ≤ c.toNat && c.toNat ≤ 55

/-- A hexadecimal digit. -/
def isHex (c : UInt16) : Bool :=
  isDecimal c || (65 ≤ c.toNat && c.toNat ≤ 70) || (97 ≤ c.toNat && c.toNat ≤ 102)

/-- The value of a digit. -/
def digitValue (c : UInt16) : ℕ :=
  if c.toNat ≤ 57 then c.toNat - 48 else if c.toNat ≤ 70 then c.toNat - 55 else c.toNat - 87

/-- `parseInt` of a run of digits. -/
def parseInt (digits : JsString) (base : ℕ) : ℕ :=
  digits.foldl (fun value c => value * base + digitValue c) 0

/-- One part of an IPv4 host: hexadecimal, octal, zero or decimal. -/
def parsePart : JsString → Option ℕ
  | [] => none
  | [c] =>
    if c.toNat = 48 then some 0
    else if isDecimal c then some (parseInt [c] 10)
    else none
  | c :: d :: rest =>
    if c.toNat = 48 ∧ (d.toNat = 120 ∨ d.toNat = 88) ∧ rest ≠ [] ∧ rest.all isHex = true then
      some (parseInt rest 16)
    else if c.toNat = 48 ∧ (d :: rest).all isOctal = true then some (parseInt (d :: rest) 8)
    else if c.toNat ≠ 48 ∧ (c :: d :: rest).all isDecimal = true then
      some (parseInt (c :: d :: rest) 10)
    else none

/-- The address of the parts of a host: the last one fills the remaining low-order bytes. -/
def joinParts (nums : List ℕ) : Option Ipv4 :=
  let last := nums.getLast?.getD 0
  let leading := nums.dropLast
  if 256 ^ (4 - leading.length) ≤ last then none
  else if leading.any (fun n => 255 < n) then none
  else
    let addr := last + (leading.mapIdx fun i n => n * 256 ^ (3 - i)).foldl (· + ·) 0
    some (BitVec.ofNat 32 addr)

/-- Parse a host as an IPv4 address in any encoding. -/
def parseIpv4 (host : JsString) : Option Ipv4 :=
  if host.length = 0 then none
  else
    let parts := split (unit '.') host
    if 4 < parts.length then none else (parts.mapM parsePart).bind joinParts

/-- One octet of a dotted-quad tail. -/
def parseOctet (part : JsString) : Option ℕ :=
  if part ≠ [] ∧ part.length ≤ 3 ∧ part.all isDecimal = true ∧ parseInt part 10 ≤ 255 then
    some (parseInt part 10)
  else none

/-- Parse the dotted-quad tail of an IPv6 literal. -/
def parseDottedQuadV6Tail (tail : JsString) : Option Ipv4 :=
  let parts := split (unit '.') tail
  if parts.length ≠ 4 then none
  else (parts.mapM parseOctet).map fun octets =>
    BitVec.ofNat 32 (octets.foldl (fun addr n => addr * 256 + n) 0)

/-- The groups of a run of tokens. A dotted quad is legal as the last one. -/
def expandTokens : List JsString → Option (List (BitVec 16))
  | [] => some []
  | tok :: rest =>
    if unit '.' ∈ tok then
      if rest ≠ [] then none
      else (parseDottedQuadV6Tail tok).map fun v4 : Ipv4 =>
        [(v4 >>> 16).setWidth 16, v4.setWidth 16]
    else if tok ≠ [] ∧ tok.length ≤ 4 ∧ tok.all isHex = true then
      (expandTokens rest).map (BitVec.ofNat 16 (parseInt tok 16) :: ·)
    else none

/-- Expand a colon-separated run. -/
def expand (run : JsString) : Option (List (BitVec 16)) :=
  if run.length = 0 then some [] else expandTokens (split (unit ':') run)

/-- Eight groups as an address. -/
def toGroups (l : List (BitVec 16)) : Option Ipv6 :=
  if h : l.length = 8 then some fun i => l.get (i.cast h.symm) else none

/-- The groups of an IPv6 text without a zone. -/
def parseGroups (host : JsString) : Option Ipv6 :=
  match splitDouble (unit ':') host with
  | [_] => (expand host).bind toGroups
  | [first, second] =>
    (expand first).bind fun head =>
      (expand second).bind fun tail =>
        if 8 < head.length + tail.length then none
        else toGroups (head ++ List.replicate (8 - head.length - tail.length) 0 ++ tail)
  | _ => none

/-- Parse a bracket-stripped IPv6 host. -/
def parseIpv6 (host : JsString) : Option Ipv6 :=
  parseGroups (host.takeWhile (· ≠ unit '%'))

/-- Parse a declared NAT64 prefix. Without one every length is read. -/
def parseNat64Prefix (spec : Option JsString) : Option Nat64 :=
  spec.bind fun spec =>
    let parts := split (unit '/') spec
    let length := parts.getLast?.getD []
    let before := spec.take (spec.length - length.length - 1)
    let opened := if before.head? = some (unit '[') then before.drop 1 else before
    let closed := if opened.getLast? = some (unit ']') then opened.dropLast else opened
    if parts.length < 2 then none
    else
      (NAT64_PREFIX_LENGTHS.attach.find? fun len => lit (toString len.val) = length).bind
        fun len => (parseIpv6 closed).map fun groups => ⟨groups, len.val, len.property⟩

/-! ## Case -/

section Case

variable {s t : JsString} {c : UInt16} {β : Type} {v4 : Ipv4}

theorem isHex_asciiLower (c : UInt16) : isHex (asciiLower c) = isHex c := by
  rw [Bool.eq_iff_iff]
  simp only [isHex, isDecimal, toNat_asciiLower, or_eq_true, and_eq_true,
    decide_eq_true_eq]
  split_ifs <;> omega

theorem isDecimal_asciiLower (c : UInt16) : isDecimal (asciiLower c) = isDecimal c := by
  rw [Bool.eq_iff_iff]
  simp only [isDecimal, toNat_asciiLower, and_eq_true, decide_eq_true_eq]
  split_ifs <;> omega

theorem isOctal_asciiLower (c : UInt16) : isOctal (asciiLower c) = isOctal c := by
  rw [Bool.eq_iff_iff]
  simp only [isOctal, toNat_asciiLower, and_eq_true, decide_eq_true_eq]
  split_ifs <;> omega

theorem digitValue_asciiLower (h : isHex c = true) : digitValue (asciiLower c) = digitValue c := by
  simp only [isHex, isDecimal, or_eq_true, and_eq_true, decide_eq_true_eq] at h
  simp only [digitValue, toNat_asciiLower]
  split_ifs <;> omega

theorem isHex_of_isDecimal (h : isDecimal c = true) : isHex c = true := by
  simp [isHex, h]

theorem isHex_of_isOctal (h : isOctal c = true) : isHex c = true := by
  simp only [isOctal, and_eq_true, decide_eq_true_eq] at h
  simp only [isHex, isDecimal, or_eq_true, and_eq_true, decide_eq_true_eq]
  omega

/-- The units of the parts of an IPv4 host. -/
def isPartUnit (c : UInt16) : Bool := isHex c || c.toNat = 120 || c.toNat = 88

/-- The units of an address without brackets and zone. -/
def isAddressUnit (c : UInt16) : Bool := isPartUnit c || c.toNat = 46 || c.toNat = 58

theorem isLiteralUnit_of_isAddressUnit (h : isAddressUnit c = true) : isLiteralUnit c = true := by
  simp only [isAddressUnit, isPartUnit, isHex, isDecimal, or_eq_true, and_eq_true,
    decide_eq_true_eq] at h
  simp only [isLiteralUnit, or_eq_true, and_eq_true, decide_eq_true_eq]
  omega

theorem isPartUnit_of_isHex (h : isHex c = true) : isPartUnit c = true := by
  simp [isPartUnit, h]

theorem isAddressUnit_of_isPartUnit (h : isPartUnit c = true) : isAddressUnit c = true := by
  simp [isAddressUnit, h]

theorem parseInt_map (base : ℕ) (h : s.all isHex = true) :
    parseInt (s.map asciiLower) base = parseInt s base := by
  have hfold : ∀ value, (s.map asciiLower).foldl (fun value c => value * base + digitValue c) value =
      s.foldl (fun value c => value * base + digitValue c) value := by
    induction s with
    | nil => exact fun _ => rfl
    | cons c s ih =>
      intro value
      rw [all_cons, and_eq_true] at h
      rw [map_cons, foldl_cons, foldl_cons, digitValue_asciiLower h.1, ih h.2]
  exact hfold 0

theorem all_map_asciiLower {p : UInt16 → Bool} (hp : ∀ c, p (asciiLower c) = p c) (s : JsString) :
    (s.map asciiLower).all p = s.all p := by
  rw [List.all_map]
  exact congrArg (all s) (funext hp)

theorem all_isHex_of_isDecimal (h : s.all isDecimal = true) : s.all isHex = true :=
  all_eq_true.mpr fun c hc => isHex_of_isDecimal (all_eq_true.mp h c hc)

theorem all_isHex_of_isOctal (h : s.all isOctal = true) : s.all isHex = true :=
  all_eq_true.mpr fun c hc => isHex_of_isOctal (all_eq_true.mp h c hc)

theorem parsePart_map (s : JsString) : parsePart (s.map asciiLower) = parsePart s := by
  match s with
  | [] => rfl
  | [c] =>
    have hzero : (asciiLower c).toNat = 48 ↔ c.toNat = 48 := by
      rw [toNat_asciiLower]
      split_ifs <;> omega
    simp only [map_cons, map_nil, parsePart, hzero, isDecimal_asciiLower]
    split_ifs with _ hdec
    · rfl
    · have hint := parseInt_map (s := [c]) 10 (by simp [isHex_of_isDecimal hdec])
      rw [← hint]
      rfl
    · rfl
  | c :: d :: rest =>
    have hzero : (asciiLower c).toNat = 48 ↔ c.toNat = 48 := by
      rw [toNat_asciiLower]
      split_ifs <;> omega
    have hx : ((asciiLower d).toNat = 120 ∨ (asciiLower d).toNat = 88) ↔
        (d.toNat = 120 ∨ d.toNat = 88) := by
      rw [toNat_asciiLower]
      split_ifs <;> omega
    have hhex := all_map_asciiLower isHex_asciiLower rest
    have hoct := all_map_asciiLower isOctal_asciiLower (d :: rest)
    have hdec := all_map_asciiLower isDecimal_asciiLower (c :: d :: rest)
    rw [map_cons] at hoct hdec
    rw [map_cons] at hdec
    simp only [map_cons, parsePart, hzero, hx, hhex, hoct, hdec, ne_eq, map_eq_nil_iff]
    split_ifs with h₁ h₂ h₃
    · rw [parseInt_map 16 h₁.2.2.2]
    · rw [← parseInt_map 8 (all_isHex_of_isOctal h₂.2)]
      rfl
    · rw [← parseInt_map 10 (all_isHex_of_isDecimal h₃.2)]
      rfl
    · rfl

theorem isPartUnit_of_parsePart {n : ℕ} (h : parsePart s = some n) (hc : c ∈ s) :
    isPartUnit c = true := by
  have hzero : ∀ d : UInt16, d.toNat = 48 → isPartUnit d = true := by
    intro d hd
    simp [isPartUnit, isHex, isDecimal, hd]
  match s with
  | [] => cases hc
  | [d] =>
    rw [mem_singleton.mp hc]
    rw [parsePart] at h
    split_ifs at h with hd hdec
    · exact hzero d hd
    · exact isPartUnit_of_isHex (isHex_of_isDecimal hdec)
  | d :: e :: rest =>
    rw [parsePart] at h
    split_ifs at h with h₁ h₂ h₃
    · obtain ⟨hd, hx, -, hall⟩ := h₁
      rcases mem_cons.mp hc with rfl | hc
      · exact hzero _ hd
      · rcases mem_cons.mp hc with rfl | hc
        · rcases hx with hx | hx <;> simp [isPartUnit, hx]
        · exact isPartUnit_of_isHex (all_eq_true.mp hall c hc)
    · rcases mem_cons.mp hc with rfl | hc
      · exact hzero _ h₂.1
      · exact isPartUnit_of_isHex (isHex_of_isOctal (all_eq_true.mp h₂.2 c hc))
    · exact isPartUnit_of_isHex (isHex_of_isDecimal (all_eq_true.mp h₃.2 c hc))

theorem asciiLower_eq_iff (mark : UInt16) (hmark : mark.toNat < 65 ∨
    90 < mark.toNat ∧ mark.toNat < 97) (c : UInt16) : asciiLower c = mark ↔ c = mark := by
  rw [← UInt16.toNat_inj, ← UInt16.toNat_inj, toNat_asciiLower]
  split_ifs <;> omega

theorem mapM_map_asciiLower (f : JsString → Option β) (hf : ∀ p, f (p.map asciiLower) = f p)
    (parts : List JsString) : (parts.map (List.map asciiLower)).mapM f = parts.mapM f := by
  induction parts with
  | nil => rfl
  | cons p parts ih => rw [map_cons, mapM_cons, mapM_cons, hf, ih]

theorem exists_of_mapM {α : Type} {f : α → Option β} {l : List α} {r : List β}
    (h : l.mapM f = some r) {x : α} (hx : x ∈ l) : ∃ y, f x = some y := by
  induction l generalizing r with
  | nil => cases hx
  | cons a l ih =>
    rw [mapM_cons] at h
    obtain ⟨y, hy, h⟩ := bind_eq_some_iff.mp h
    obtain ⟨ys, hys, -⟩ := bind_eq_some_iff.mp h
    rcases mem_cons.mp hx with rfl | hx
    · exact ⟨y, hy⟩
    · exact ih hys hx

theorem parseIpv4_map (s : JsString) : parseIpv4 (s.map asciiLower) = parseIpv4 s := by
  have hparts := split_map (unit '.') asciiLower (asciiLower_eq_iff _ (by decide)) s
  simp [parseIpv4, hparts, mapM_map_asciiLower parsePart parsePart_map]

theorem isPartUnit_of_parseIpv4 (h : parseIpv4 s = some v4) (hc : c ∈ s) :
    c = unit '.' ∨ isPartUnit c = true := by
  simp only [parseIpv4] at h
  split_ifs at h
  obtain ⟨nums, hnums, -⟩ := bind_eq_some_iff.mp h
  rcases mem_split (unit '.') hc with rfl | ⟨p, hp, hcp⟩
  · exact .inl rfl
  · obtain ⟨n, hn⟩ := exists_of_mapM hnums hp
    exact .inr (isPartUnit_of_parsePart hn hcp)

theorem isAddressUnit_of_parseIpv4 (h : parseIpv4 s = some v4) (hc : c ∈ s) :
    isAddressUnit c = true := by
  rcases isPartUnit_of_parseIpv4 h hc with rfl | hpart
  · decide
  · exact isAddressUnit_of_isPartUnit hpart

theorem parseIpv4_append_dot (s : JsString) : parseIpv4 (s ++ [unit '.']) = none := by
  by_contra h
  obtain ⟨v4, hv4⟩ := ne_none_iff_exists'.mp h
  simp only [parseIpv4] at hv4
  split_ifs at hv4
  obtain ⟨nums, hnums, -⟩ := bind_eq_some_iff.mp hv4
  have hempty : [] ∈ split (unit '.') (s ++ [unit '.']) := by
    rw [split_append_self]
    exact mem_concat_self
  obtain ⟨n, hn⟩ := exists_of_mapM hnums hempty
  cases hn

theorem parseOctet_map (s : JsString) : parseOctet (s.map asciiLower) = parseOctet s := by
  have hdec := all_map_asciiLower isDecimal_asciiLower s
  simp only [parseOctet, length_map, hdec, ne_eq, map_eq_nil_iff]
  by_cases hall : s.all isDecimal = true
  · rw [parseInt_map 10 (all_isHex_of_isDecimal hall)]
  · rw [if_neg fun h => hall h.2.2.1, if_neg fun h => hall h.2.2.1]

theorem parseDottedQuadV6Tail_map (s : JsString) :
    parseDottedQuadV6Tail (s.map asciiLower) = parseDottedQuadV6Tail s := by
  have hparts := split_map (unit '.') asciiLower (asciiLower_eq_iff _ (by decide)) s
  simp [parseDottedQuadV6Tail, hparts, mapM_map_asciiLower parseOctet parseOctet_map]

theorem isAddressUnit_of_parseDottedQuadV6Tail (h : parseDottedQuadV6Tail s = some v4) (hc : c ∈ s) :
    isAddressUnit c = true := by
  simp only [parseDottedQuadV6Tail] at h
  split_ifs at h
  obtain ⟨octets, hoctets, -⟩ := map_eq_some_iff.mp h
  rcases mem_split (unit '.') hc with rfl | ⟨p, hp, hcp⟩
  · decide
  · obtain ⟨n, hn⟩ := exists_of_mapM hoctets hp
    rw [parseOctet] at hn
    split_ifs at hn with hpart
    exact isAddressUnit_of_isPartUnit (isPartUnit_of_isHex
      (isHex_of_isDecimal (all_eq_true.mp hpart.2.2.1 c hcp)))

theorem expandTokens_map (tokens : List JsString) :
    expandTokens (tokens.map (List.map asciiLower)) = expandTokens tokens := by
  induction tokens with
  | nil => rfl
  | cons tok rest ih =>
    have hdot : unit '.' ∈ tok.map asciiLower ↔ unit '.' ∈ tok := by
      rw [List.mem_map]
      constructor
      · rintro ⟨c, hc, h⟩
        rwa [← (asciiLower_eq_iff _ (by decide) c).mp h]
      · intro h
        exact ⟨_, h, by decide⟩
    have hhex := all_map_asciiLower isHex_asciiLower tok
    simp only [map_cons, expandTokens, hdot, hhex, length_map, ne_eq,
      map_eq_nil_iff, parseDottedQuadV6Tail_map, ih]
    by_cases hall : tok.all isHex = true
    · rw [parseInt_map 16 hall]
    · simp [hall]

theorem isAddressUnit_of_expandTokens {tokens : List JsString} {l : List (BitVec 16)}
    (h : expandTokens tokens = some l) {tok : JsString} (htok : tok ∈ tokens) (hc : c ∈ tok) :
    isAddressUnit c = true := by
  induction tokens generalizing l with
  | nil => cases htok
  | cons first rest ih =>
    rw [expandTokens] at h
    split_ifs at h with hdot hrest hhex
    · obtain ⟨v4, hv4, -⟩ := map_eq_some_iff.mp h
      rw [not_not.mp hrest, mem_singleton] at htok
      subst htok
      exact isAddressUnit_of_parseDottedQuadV6Tail hv4 hc
    · obtain ⟨l', hl', -⟩ := map_eq_some_iff.mp h
      rcases mem_cons.mp htok with rfl | htok
      · exact isAddressUnit_of_isPartUnit
          (isPartUnit_of_isHex (all_eq_true.mp hhex.2.2 c hc))
      · exact ih hl' htok

theorem expand_map (s : JsString) : expand (s.map asciiLower) = expand s := by
  have htokens := split_map (unit ':') asciiLower (asciiLower_eq_iff _ (by decide)) s
  simp [expand, htokens, expandTokens_map]

theorem isAddressUnit_of_expand {l : List (BitVec 16)} (h : expand s = some l) (hc : c ∈ s) :
    isAddressUnit c = true := by
  rw [expand, if_neg fun h => by simp [length_eq_zero_iff.mp h] at hc] at h
  rcases mem_split (unit ':') hc with rfl | ⟨tok, htok, hctok⟩
  · decide
  · exact isAddressUnit_of_expandTokens h htok hctok

theorem parseGroups_map (s : JsString) : parseGroups (s.map asciiLower) = parseGroups s := by
  have hhalves := splitDouble_map (unit ':') asciiLower (asciiLower_eq_iff _ (by decide)) s
  simp only [parseGroups, hhalves]
  match splitDouble (unit ':') s with
  | [] => rfl
  | [_] => simp [expand_map]
  | [first, second] => simp [expand_map]
  | _ :: _ :: _ :: _ => rfl

theorem isAddressUnit_of_parseGroups {g : Ipv6} (h : parseGroups s = some g) (hc : c ∈ s) :
    isAddressUnit c = true := by
  rw [parseGroups] at h
  split at h
  · obtain ⟨l, hl, -⟩ := bind_eq_some_iff.mp h
    exact isAddressUnit_of_expand hl hc
  · next first second hhalves =>
    obtain ⟨head, hhead, h⟩ := bind_eq_some_iff.mp h
    obtain ⟨tail, htail, -⟩ := bind_eq_some_iff.mp h
    rcases mem_splitDouble (unit ':') hc with rfl | ⟨p, hp, hcp⟩
    · decide
    · rw [hhalves] at hp
      rcases mem_cons.mp hp with rfl | hp
      · exact isAddressUnit_of_expand hhead hcp
      · rw [mem_singleton.mp hp] at hcp
        exact isAddressUnit_of_expand htail hcp
  · cases h

/-- A parser of address units that does not read case reads a string as its lowered form. -/
theorem parse_of_lowers {parse : JsString → Option β}
    (hmap : ∀ s, parse (s.map asciiLower) = parse s)
    (hunits : ∀ s y, parse s = some y → ∀ c ∈ s, isAddressUnit c = true) (h : Lowers s t) :
    parse t = parse s := by
  have hascii : (∀ c ∈ s, c.toNat < 128) → parse t = parse s := by
    intro hs
    rw [h.eq_map_of_ascii hs, hmap]
  cases ht : parse t with
  | some y =>
    rw [← ht]
    exact hascii (h.ascii_of_literal fun c hc =>
      isLiteralUnit_of_isAddressUnit (hunits t y ht c hc))
  | none =>
    cases hs : parse s with
    | none => rfl
    | some y =>
      rw [← hs, ← ht]
      refine hascii fun c hc => ?_
      have hunit := isLiteralUnit_of_isAddressUnit (hunits s y hs c hc)
      simp only [isLiteralUnit, or_eq_true, and_eq_true, decide_eq_true_eq] at hunit
      omega

theorem parseIpv4_of_lowers (h : Lowers s t) : parseIpv4 t = parseIpv4 s :=
  parse_of_lowers parseIpv4_map (fun _ _ hs _ hc => isAddressUnit_of_parseIpv4 hs hc) h

/-- An IPv6 literal parses as its lowered form does: the zone is dropped from both. -/
theorem parseIpv6_of_lowers (h : Lowers s t) : parseIpv6 t = parseIpv6 s := by
  have hbefore := h.takeWhile_ne (unit '%') (by decide) (by decide)
    (asciiLower_eq_iff _ (by decide))
  have hgroups := parse_of_lowers parseGroups_map
    (fun _ _ hs _ hc => isAddressUnit_of_parseGroups hs hc) hbefore
  exact hgroups

end Case

end AdapterWs.SafeUrl
