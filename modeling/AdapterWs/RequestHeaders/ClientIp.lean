import AdapterWs.RequestHeaders.Collection

/-!
# The address of a client

A proxy appends its line, so the last line of the address header is its own, and the address is
read from the end of a chain. A chain that is too long loses its head, and with it the address it
was cut in.
-/

namespace AdapterWs.RequestHeaders

open JsString List

def xForwardedFor : JsString := lit "x-forwarded-for"

def maxAddressHeaderLength : ℕ := 128

def maxXffLength : ℕ := 8192

def comma : UInt16 := 44

/-- Units that `trim` removes. -/
def isSpace (c : UInt16) : Bool :=
  (9 ≤ c.toNat && c.toNat ≤ 13) || c.toNat = 32 || c.toNat = 160 || c.toNat = 5760 ||
    (8192 ≤ c.toNat && c.toNat ≤ 8202) || c.toNat = 8232 || c.toNat = 8233 || c.toNat = 8239 ||
      c.toNat = 8287 || c.toNat = 12288 || c.toNat = 65279

/-- `s.trim()`. -/
def trim (s : JsString) : JsString := (s.dropWhile isSpace).rdropWhile isSpace

def detachFromHeader (value : JsString) : JsString :=
  if value.length < 13 then value else (32 :: value).drop 1

/-- The names that an ordinary object inherits. -/
def inheritedNames : List JsString :=
  [lit "constructor", lit "__proto__", lit "hasOwnProperty", lit "isPrototypeOf",
    lit "propertyIsEnumerable", lit "toLocaleString", lit "toString", lit "valueOf",
    lit "__defineGetter__", lit "__defineSetter__", lit "__lookupGetter__",
    lit "__lookupSetter__"]

/-- What is read of an object: a text, or what it inherits under a name. -/
inductive HeaderValue
  | text (value : JsString)
  | inherited (name : JsString)
deriving DecidableEq

/-- `headers[key]`. -/
def HeaderBag.read (headers : HeaderBag) (key : JsString) : Option HeaderValue :=
  match headers.own.get key with
  | some value => some (.text value)
  | none =>
    if headers.plain && inheritedNames.contains key then some (.inherited key) else none

/-- What `createClientIpResolver` is given, with the `match` of any matcher. -/
structure ResolverOptions where
  addressHeader : JsString
  xffDepth : ℕ
  matcher : Option (JsString → Bool)

/-- The addresses of a chain, cut to its bound. An address it is cut in does not count. -/
def addressesOf (value : JsString) : List JsString :=
  let bounded :=
    if maxXffLength < value.length then value.drop (value.length - maxXffLength) else value
  if bounded.length = value.length then split comma bounded else (split comma bounded).tail

/-- The address that the depth names; `none` where it is zero, which throws. -/
def ResolverOptions.fromChain (o : ResolverOptions) (rawIp value : JsString) : Option JsString :=
  let addresses := addressesOf value
  if addresses.length < o.xffDepth then some rawIp
  else addresses[addresses.length - o.xffDepth]?.map fun address => detachFromHeader (trim address)

/-- The address of a value from a peer that is trusted. -/
def ResolverOptions.believed (o : ResolverOptions) (rawIp : JsString) :
    HeaderValue → Option HeaderValue
  | .inherited name => some (.inherited name)
  | .text value =>
    if o.addressHeader = xForwardedFor then (o.fromChain rawIp value).map .text
    else if maxAddressHeaderLength < value.length then
      some (.text (detachFromHeader (value.take maxAddressHeaderLength)))
    else some (.text value)

/-- `resolveClientIp(rawIp, headers, directIp)`. -/
def ResolverOptions.resolveClientIp (o : ResolverOptions) (rawIp : JsString) (headers : HeaderBag)
    (directIp : JsString) : Option HeaderValue :=
  if o.addressHeader = [] then some (.text rawIp)
  else
    match headers.read o.addressHeader with
    | none => some (.text rawIp)
    | some (.text []) => some (.text rawIp)
    | some value =>
      if o.matcher.any fun m => !m directIp then some (.text rawIp) else o.believed rawIp value

/-- The lines of a request end in one of a name. -/
def Appended (cm : CaseMap) (key line : JsString) (source : HeaderSource) : Prop :=
  ∃ client, source.lines cm = client ++ [(key, line)]

/-- A line ends in as many addresses as the depth counts, and they are shorter than the bound. Those
that are the whole line leave room for the comma before them. -/
def EndsIn (depth : ℕ) (line : JsString) : Prop :=
  line ≠ [] ∧ ∃ chain : JsString, (split comma chain).length = depth ∧
    (line = chain ∧ chain.length + 1 < maxXffLength ∨
      (∃ head, line = head ++ comma :: chain) ∧ chain.length < maxXffLength)

/-- The last line of the address header names the address. -/
def ResolverOptions.Names (o : ResolverOptions) (proxy : List JsString) (line : JsString) : Prop :=
  o.addressHeader = xForwardedFor ∧ EndsIn o.xffDepth line ∨
    o.addressHeader ∈ proxy ∧ o.addressHeader ≠ lit "set-cookie"

/-- What a client cannot change. -/
structure KeepsAddress (cm : CaseMap) (proxy : List JsString) (o : ResolverOptions) : Prop where
  /-- Two requests that end in one line of the proxy, not refused where the name has one value. -/
  same : ∀ line source source' plain rawIp directIp, o.Names proxy line →
    Appended cm o.addressHeader line source → Appended cm o.addressHeader line source' →
    (o.addressHeader ∈ singleValued →
      (collectRequestHeaders cm proxy source plain).1 = none ∧
        (collectRequestHeaders cm proxy source' plain).1 = none) →
    o.resolveClientIp rawIp (collectRequestHeaders cm proxy source plain).2 directIp =
      o.resolveClientIp rawIp (collectRequestHeaders cm proxy source' plain).2 directIp
  untrusted : ∀ (m : JsString → Bool) headers rawIp directIp, o.matcher = some m →
    m directIp = false → o.resolveClientIp rawIp headers directIp = some (.text rawIp)

variable {o : ResolverOptions} {cm : CaseMap} {proxy : List JsString}
  {line value chain key rawIp directIp : JsString} {source source' : HeaderSource} {plain : Bool}

/-! ## Chains -/

/-- What stands before a comma may be cut, but not the addresses after it. -/
theorem addressesOf_of_comma (head : JsString) (hlength : chain.length < maxXffLength) :
    ∃ parts, addressesOf (head ++ comma :: chain) = parts ++ split comma chain := by
  rw [addressesOf]
  by_cases hlong : maxXffLength < (head ++ comma :: chain).length
  · have hle : (head ++ comma :: chain).length - maxXffLength ≤ head.length := by
      rw [length_append, length_cons]
      omega
    have hcut : ((head ++ comma :: chain).drop
        ((head ++ comma :: chain).length - maxXffLength)).length ≠
          (head ++ comma :: chain).length := by
      rw [length_drop]
      have hpos : 0 < maxXffLength := by simp [maxXffLength]
      omega
    rw [drop_append_of_le_length hle] at hcut
    simp only [if_pos hlong, drop_append_of_le_length hle, if_neg hcut, split_append_cons]
    rw [tail_append_of_ne_nil (split_ne_nil comma _)]
    exact ⟨_, rfl⟩
  · simp only [if_neg hlong, if_true, split_append_cons]
    exact ⟨_, rfl⟩

theorem fromChain_of_addressesOf {parts : List JsString}
    (h : addressesOf value = parts ++ split comma chain)
    (hdepth : (split comma chain).length = o.xffDepth) : o.fromChain rawIp value =
      (split comma chain).head?.map fun address => detachFromHeader (trim address) := by
  have hlength : (addressesOf value).length = parts.length + o.xffDepth := by
    rw [h, length_append, hdepth]
  simp only [ResolverOptions.fromChain, hlength]
  rw [if_neg (by omega), Nat.add_sub_cancel, h, getElem?_append_right le_rfl, Nat.sub_self,
    head?_eq_getElem?]

/-- An address after a space is the same address. -/
theorem head?_split_space (chain : JsString) :
    ((split comma (32 :: chain)).head?.map fun address => detachFromHeader (trim address)) =
      (split comma chain).head?.map fun address => detachFromHeader (trim address) := by
  obtain ⟨address, addresses, h⟩ := exists_cons_of_ne_nil (split_ne_nil comma chain)
  rw [split, if_neg (by decide), h]
  simp [trim, dropWhile_cons_of_pos (show isSpace 32 = true by decide)]

/-- The address of the chain that a line ends in, whatever is joined before the line. -/
theorem fromChain_of_endsIn (h : EndsIn o.xffDepth line) : ∃ address, ∀ value rawIp,
    (value = line ∨ ∃ before, value = before ++ lit ", " ++ line) →
      value ≠ [] ∧ o.fromChain rawIp value = address := by
  obtain ⟨hne, chain, hdepth, hcase⟩ := h
  refine ⟨(split comma chain).head?.map fun address => detachFromHeader (trim address),
    fun value rawIp hvalue => ⟨?_, ?_⟩⟩
  · rcases hvalue with rfl | ⟨before, rfl⟩
    · exact hne
    · exact append_ne_nil_of_right_ne_nil _ hne
  have hjoin : ∀ before, before ++ lit ", " ++ line = before ++ comma :: 32 :: line :=
    fun before => append_assoc ..
  rcases hcase with ⟨rfl, hshort⟩ | ⟨⟨head, rfl⟩, hlength⟩
  · have hspace : (split comma (32 :: line)).length = o.xffDepth := by
      rw [split, if_neg (by decide), length_modifyHead, hdepth]
    rcases hvalue with rfl | ⟨before, rfl⟩
    · have hle : ¬maxXffLength < value.length := by omega
      have hparts : addressesOf value = [] ++ split comma value := by
        simp only [addressesOf, if_neg hle, if_true, nil_append]
      exact fromChain_of_addressesOf hparts hdepth
    · have hcut : (32 :: line : JsString).length < maxXffLength := hshort
      obtain ⟨parts, hparts⟩ := addressesOf_of_comma before hcut
      rw [hjoin, fromChain_of_addressesOf hparts hspace, head?_split_space]
  · obtain ⟨head', rfl⟩ : ∃ head', value = head' ++ comma :: chain := by
      rcases hvalue with rfl | ⟨before, rfl⟩
      · exact ⟨head, rfl⟩
      · exact ⟨before ++ lit ", " ++ head, (append_assoc ..).symm⟩
    obtain ⟨parts, hparts⟩ := addressesOf_of_comma head' hlength
    exact fromChain_of_addressesOf hparts hdepth

/-! ## Headers -/

/-- What is collected of a name whose last line is known. -/
theorem get_of_appended (proxy : List JsString) (plain : Bool)
    (happended : Appended cm key line source) : ∃ earlier,
    (collectRequestHeaders cm proxy source plain).2.own.get key =
        (if plain = true ∧ key = lit "__proto__" then none
        else (classOf proxy key).value (earlier ++ [line])) ∧
      ((collectRequestHeaders cm proxy source plain).1 = none →
        key ∈ singleValued → earlier = []) := by
  obtain ⟨client, hlines⟩ := happended
  have h := collected proxy plain (source.lines cm)
  have hvalues : valuesOf (source.lines cm) key = valuesOf client key ++ [line] := by
    rw [hlines, valuesOf_concat, if_pos rfl]
  refine ⟨valuesOf client key, hvalues ▸ h.get key, fun haccepted hmem => ?_⟩
  simp only [collectRequestHeaders, Option.or_eq_none_iff] at haccepted
  have hone := h.ambiguous.mp haccepted.2.2 key hmem
  rw [hvalues, length_append, length_singleton] at hone
  exact length_eq_zero_iff.mp (by omega)

theorem xForwardedFor_not_mem (cm : CaseMap) (names : List (Option JsString)) :
    xForwardedFor ∉ proxySingleValued cm names := by
  rw [proxySingleValued, mem_append, not_or]
  refine ⟨by decide +kernel, fun hmem => ?_⟩
  have hne := (mem_filter.mp hmem).2
  simp [xForwardedFor] at hne

/-- The lines of a chain are joined. -/
theorem read_chain (hnot : xForwardedFor ∉ proxy) (plain : Bool)
    (happended : Appended cm xForwardedFor line source) : ∃ value,
    (collectRequestHeaders cm proxy source plain).2.read xForwardedFor = some (.text value) ∧
      (value = line ∨ ∃ before, value = before ++ lit ", " ++ line) := by
  obtain ⟨earlier, hget, -⟩ := get_of_appended proxy plain happended
  have hclass : classOf proxy xForwardedFor = .list := by
    rw [classOf, if_neg (by decide +kernel), if_neg (by decide +kernel),
      if_neg (by simpa using hnot), if_neg (by decide +kernel)]
  rw [hclass, if_neg fun hhides => absurd hhides.2 (by decide +kernel),
    HeaderClass.value_concat] at hget
  simp only [HeaderBag.read, hget]
  refine ⟨_, rfl, ?_⟩
  cases HeaderClass.value .list earlier with
  | none => exact .inl rfl
  | some before => exact .inr ⟨before, rfl⟩

/-- Any other declared name has the value of its last line. -/
theorem read_declared (happended : Appended cm key line source) (hdeclared : key ∈ proxy)
    (hcookie : key ≠ lit "set-cookie")
    (haccepted : key ∈ singleValued → (collectRequestHeaders cm proxy source plain).1 = none) :
    (collectRequestHeaders cm proxy source plain).2.read key =
      some (if plain = true ∧ key = lit "__proto__" then .inherited key else .text line) := by
  obtain ⟨earlier, hget, hrefused⟩ := get_of_appended proxy plain happended
  have hlast : (classOf proxy key).value (earlier ++ [line]) = some line := by
    by_cases hmem : key ∈ singleValued
    · rw [hrefused (haccepted hmem) hmem]
      rfl
    · rw [classOf, if_neg (by simpa using hmem), if_neg hcookie, if_pos (by simpa using hdeclared),
        HeaderClass.value_concat]
      cases HeaderClass.value .last earlier <;> rfl
  have hbag := (collected proxy plain (source.lines cm)).bag
  have hinherited : inheritedNames.contains (lit "__proto__") = true := by decide +kernel
  rw [hlast] at hget
  by_cases hhides : plain = true ∧ key = lit "__proto__"
  · rw [if_pos hhides] at hget ⊢
    obtain ⟨rfl, rfl⟩ := hhides
    have hplain : (collectRequestHeaders cm proxy source true).2.plain = true := hbag
    simp only [HeaderBag.read, hget, hplain, hinherited, Bool.and_self, if_true]
  · rw [if_neg hhides] at hget ⊢
    simp only [HeaderBag.read, hget]

/-! ## Addresses -/

theorem resolveClientIp_congr {headers headers' : HeaderBag}
    (h : headers.read o.addressHeader = headers'.read o.addressHeader) :
    o.resolveClientIp rawIp headers directIp = o.resolveClientIp rawIp headers' directIp := by
  rw [ResolverOptions.resolveClientIp, h, ResolverOptions.resolveClientIp]

/-- The lines before that of the proxy do not change the address. -/
theorem keepsAddress (cm : CaseMap) (names : List (Option JsString)) (o : ResolverOptions) :
    KeepsAddress cm (proxySingleValued cm names) o := by
  refine ⟨fun line source source' plain rawIp directIp hnames happended happended' haccepted => ?_,
    fun m headers rawIp directIp hm huntrusted => ?_⟩
  · rcases hnames with ⟨hchain, hends⟩ | ⟨hdeclared, hcookie⟩
    · obtain ⟨address, haddress⟩ := fromChain_of_endsIn hends
      rw [hchain] at happended happended'
      have hsame : ∀ {source}, Appended cm xForwardedFor line source →
          o.resolveClientIp rawIp
              (collectRequestHeaders cm (proxySingleValued cm names) source plain).2 directIp =
            if o.matcher.any fun m => !m directIp then some (.text rawIp)
            else address.map .text := by
        intro source happended
        obtain ⟨value, hread, hvalue⟩ := read_chain (xForwardedFor_not_mem cm names) plain happended
        obtain ⟨hne, hfrom⟩ := haddress value rawIp hvalue
        have hheader : o.addressHeader ≠ [] := hchain ▸ by decide
        obtain ⟨c, cs, rfl⟩ := exists_cons_of_ne_nil hne
        simp only [ResolverOptions.resolveClientIp, if_neg hheader, hchain ▸ hread,
          ResolverOptions.believed, if_pos hchain, hfrom]
      rw [hsame happended, hsame happended']
    · refine resolveClientIp_congr ?_
      rw [read_declared happended hdeclared hcookie fun hmem => (haccepted hmem).1,
        read_declared happended' hdeclared hcookie fun hmem => (haccepted hmem).2]
  · have hrefuses : (o.matcher.any fun m => !m directIp) = true := by simp [hm, huntrusted]
    rw [ResolverOptions.resolveClientIp]
    split_ifs
    · rfl
    · rcases headers.read o.addressHeader with _ | (_ | _) | _ <;> rfl

/-- The address that the lines of a request tell, where one name is declared. -/
def told (header : JsString) (values : List JsString) : Option HeaderValue :=
  ResolverOptions.resolveClientIp ⟨header, 1, none⟩ (lit "9.9.9.9")
    (collectRequestHeaders SafeUrl.asciiCase (proxySingleValued SafeUrl.asciiCase [some header])
      (.rawHeaders (values.map fun value => (header, value))) true).2 (lit "9.9.9.9")

/-- An address that fills the bound is cut where a line of the client stands before it. -/
theorem told_ne (hlength : line.length = 8191) (hdigits : ∀ c ∈ line, c = 49) :
    told xForwardedFor [line] ≠ told xForwardedFor [lit "6.6.6.6", line] := by
  have hcomma : comma ∉ line := fun hmem => absurd (hdigits _ hmem) (by decide)
  have hsplit : split comma (32 :: line) = [32 :: line] :=
    split_of_not_mem (not_mem_cons_of_ne_of_not_mem (by decide) hcomma)
  have hfull : (lit "6.6.6.6" ++ comma :: 32 :: line).length = 8200 := congrArg (· + 9) hlength
  have hwhole : addressesOf line = [line] := by
    simp [addressesOf, hlength, maxXffLength, split_of_not_mem hcomma]
  have hcut : addressesOf (lit "6.6.6.6" ++ comma :: 32 :: line) = [] := by
    rw [addressesOf, hfull]
    show (if line.length + 1 = 8200 then _ else (split comma (32 :: line)).tail) = []
    rw [hlength, hsplit]
    rfl
  obtain ⟨c, cs, rfl⟩ := exists_cons_of_length_eq_add_one hlength
  have hone : told xForwardedFor [c :: cs] = some (.text (detachFromHeader (trim (c :: cs)))) := by
    show (ResolverOptions.fromChain ⟨xForwardedFor, 1, none⟩ _ _).map HeaderValue.text = _
    simp [ResolverOptions.fromChain, hwhole]
  have htwo : told xForwardedFor [lit "6.6.6.6", c :: cs] = some (.text (lit "9.9.9.9")) := by
    show (ResolverOptions.fromChain ⟨xForwardedFor, 1, none⟩ _
      (lit "6.6.6.6" ++ comma :: 32 :: c :: cs)).map HeaderValue.text = _
    simp [ResolverOptions.fromChain, hcut]
  rw [hone, htwo]
  intro heq
  have htext : trim (c :: cs) = lit "9.9.9.9" := by
    simpa [detachFromHeader] using heq
  have hmem : (57 : UInt16) ∈ trim (c :: cs) := htext ▸ by decide
  have hsub : trim (c :: cs) <+: (c :: cs).dropWhile isSpace := rdropWhile_prefix ..
  exact absurd (hdigits 57 ((hsub.sublist.trans (dropWhile_sublist _)).subset hmem)) (by decide)

/-- A name that keeps its first line, a request that is refused, and an address that fills the
bound. -/
theorem not_keepsAddress :
    (∀ header ∈ [lit "set-cookie", lit "origin"],
      told header [lit "1.1.1.1"] ≠ told header [lit "6.6.6.6", lit "1.1.1.1"]) ∧
      ∃ line : JsString, line.length < maxXffLength ∧ comma ∉ line ∧
        told xForwardedFor [line] ≠ told xForwardedFor [lit "6.6.6.6", line] :=
  ⟨by decide +kernel, replicate 8191 49, by rw [length_replicate]; decide,
    fun hmem => absurd (eq_of_mem_replicate hmem) (by decide),
    told_ne length_replicate fun _ hmem => eq_of_mem_replicate hmem⟩

end AdapterWs.RequestHeaders
