import AdapterWs.Lib.JsMap
import AdapterWs.SafeUrl.Resolved

/-!
# The headers of a request

A line of a header that stands in a request again is joined to the others, dropped, kept instead
of them, or refuses the request, after the class of its name. A refusal names a header that frames
the body where there is one.
-/

namespace AdapterWs.RequestHeaders

open JsString List

def transferEncoding : JsString := lit "transfer-encoding"

def contentLength : JsString := lit "content-length"

/-- Names whose second line refuses the request. -/
def singleValued : List JsString :=
  [lit "host", contentLength, transferEncoding, lit "content-type", lit "authorization",
    lit "proxy-authorization", lit "origin"]

def chunked : JsString := lit "chunked"

/-- A bare decimal count. -/
def isDecimalCount (value : JsString) : Bool :=
  !value.isEmpty && value.all fun c => 48 ≤ c.toNat && c.toNat ≤ 57

/-- The header that frames the body in another way, where there is one. -/
def framingRefusal (cm : CaseMap) (encoding length : Option JsString) : Option JsString :=
  if encoding.any (fun value => decide (cm.toLowerCase value ≠ chunked)) = true then
    some transferEncoding
  else if encoding.isSome = true ∧ length.isSome = true then some transferEncoding
  else if length.any (fun value => !isDecimalCount value) = true then some contentLength
  else none

def isFramingHeader (header : JsString) : Bool :=
  decide (header = contentLength ∨ header = transferEncoding)

def wellKnownProxySingleValued : List JsString :=
  [lit "x-forwarded-proto", lit "x-forwarded-protocol", lit "x-forwarded-scheme",
    lit "x-forwarded-host", lit "x-forwarded-port", lit "x-real-ip", lit "cf-connecting-ip",
    lit "true-client-ip", lit "x-client-ip", lit "fly-client-ip"]

/-- The names kept by their last line after `declareSingleValuedProxyHeaders(names)`. -/
def proxySingleValued (cm : CaseMap) (names : List (Option JsString)) : List JsString :=
  wellKnownProxySingleValued ++ (names.map fun raw => cm.toLowerCase (raw.getD [])).filter
    fun name => decide (name ≠ [] ∧ name ≠ lit "x-forwarded-for")

/-- The object the headers are collected into, an ordinary one or one without a prototype. -/
structure HeaderBag where
  plain : Bool
  own : JsMap JsString JsString

/-- A name an ordinary object takes no string for. -/
def HeaderBag.Hides (headers : HeaderBag) (key : JsString) : Prop :=
  headers.plain = true ∧ key = lit "__proto__"

instance (headers : HeaderBag) (key : JsString) : Decidable (headers.Hides key) :=
  inferInstanceAs (Decidable (_ ∧ _))

/-- `headers[key] = value`. -/
def HeaderBag.put (headers : HeaderBag) (key value : JsString) : HeaderBag :=
  if headers.Hides key then headers else { headers with own := headers.own.set key value }

/-- One line: the name, if it is refused. -/
def takeHeaderLine (proxy : List JsString) (headers : HeaderBag) (key value : JsString) :
    Option JsString × HeaderBag :=
  match headers.own.get key with
  | none => (none, headers.put key value)
  | some previous =>
    if singleValued.contains key then (some key, headers)
    else if key = lit "set-cookie" then (none, headers)
    else if proxy.contains key then (none, headers.put key value)
    else if key = lit "cookie" then (none, headers.put key (previous ++ lit "; " ++ value))
    else (none, headers.put key (previous ++ lit ", " ++ value))

/-- The pairs node keeps, or a request that shows its lines to a visitor. -/
inductive HeaderSource
  | rawHeaders (lines : List (JsString × JsString))
  | visitor (lines : List (JsString × JsString))

/-- The lines with their keys. Those a visitor is shown are taken as they are given. -/
def HeaderSource.lines (cm : CaseMap) : HeaderSource → List (JsString × JsString)
  | .rawHeaders lines => lines.map fun line => (cm.toLowerCase line.1, line.2)
  | .visitor lines => lines

/-- A collection, with the first name that was refused and the first that frames the body. -/
structure Collection where
  headers : HeaderBag
  ambiguous : Option JsString
  framingRepeat : Option JsString

def Collection.take (proxy : List JsString) (s : Collection) (line : JsString × JsString) :
    Collection :=
  match takeHeaderLine proxy s.headers line.1 line.2 with
  | (none, headers) => { s with headers }
  | (some refused, headers) =>
    { headers
      ambiguous := s.ambiguous.or (some refused)
      framingRepeat := s.framingRepeat.or (if isFramingHeader refused then some refused else none) }

/-- All lines into an empty object that is ordinary or not. -/
def Collection.walk (proxy : List JsString) (plain : Bool) (lines : List (JsString × JsString)) :
    Collection :=
  lines.foldl (take proxy) ⟨⟨plain, .empty⟩, none, none⟩

/-- `collectRequestHeaders(source, headers)`. -/
def collectRequestHeaders (cm : CaseMap) (proxy : List JsString) (source : HeaderSource)
    (plain : Bool) : Option JsString × HeaderBag :=
  let s := Collection.walk proxy plain (source.lines cm)
  ((framingRefusal cm (s.headers.own.get transferEncoding) (s.headers.own.get contentLength)).or
    (s.framingRepeat.or s.ambiguous), s.headers)

/-! ## Classes of names -/

/-- What becomes of the values of a name. -/
inductive HeaderClass
  | refused
  | first
  | last
  | cookie
  | list

def classOf (proxy : List JsString) (key : JsString) : HeaderClass :=
  if singleValued.contains key then .refused
  else if key = lit "set-cookie" then .first
  else if proxy.contains key then .last
  else if key = lit "cookie" then .cookie
  else .list

namespace HeaderClass

/-- What a further value makes of those before. -/
def merge : HeaderClass → JsString → JsString → JsString
  | .refused, previous, _ => previous
  | .first, previous, _ => previous
  | .last, _, value => value
  | .cookie, previous, value => previous ++ lit "; " ++ value
  | .list, previous, value => previous ++ lit ", " ++ value

/-- What values collect to, in the order they arrived. -/
def value (c : HeaderClass) : List JsString → Option JsString
  | [] => none
  | v :: vs => some (vs.foldl c.merge v)

@[simp] theorem value_eq_none {c : HeaderClass} {vs : List JsString} :
    c.value vs = none ↔ vs = [] := by
  cases vs <;> simp [value]

theorem value_concat (c : HeaderClass) (vs : List JsString) (v : JsString) :
    c.value (vs ++ [v]) = some (match c.value vs with
      | none => v
      | some previous => c.merge previous v) := by
  cases vs with
  | nil => rfl
  | cons w vs => simp [value]

theorem value_refused (vs : List JsString) : value .refused vs = vs.head? := by
  cases vs with
  | nil => rfl
  | cons v vs =>
    simp only [value, head?_cons, Option.some.injEq]
    induction vs with
    | nil => rfl
    | cons w vs ih => exact ih

end HeaderClass

/-- The values of a name. -/
def valuesOf (lines : List (JsString × JsString)) (key : JsString) : List JsString :=
  (lines.filter fun line => decide (line.1 = key)).map Prod.snd

theorem valuesOf_concat (lines : List (JsString × JsString)) (line : JsString × JsString)
    (key : JsString) : valuesOf (lines ++ [line]) key =
      if line.1 = key then valuesOf lines key ++ [line.2] else valuesOf lines key := by
  by_cases h : line.1 = key <;> simp [valuesOf, h]

/-- The framing tells one end of the body. -/
def OneReading (cm : CaseMap) (encodings lengths : List JsString) : Prop :=
  (encodings = [] ∨ (∃ v, encodings = [v] ∧ cm.toLowerCase v = chunked) ∧ lengths = []) ∧
    (lengths = [] ∨ ∃ v, lengths = [v] ∧ isDecimalCount v = true)

/-- What a collection of headers says of the lines of a request. -/
structure Collects (cm : CaseMap) (proxy : List JsString) (source : HeaderSource)
    (plain : Bool) : Prop where
  /-- A request is refused where a name that has one value stands twice, and where the framing has
  not one reading. -/
  accepts : (collectRequestHeaders cm proxy source plain).1 = none ↔
    (∀ name ∈ singleValued, (valuesOf (source.lines cm) name).length ≤ 1) ∧
      OneReading cm (valuesOf (source.lines cm) transferEncoding)
        (valuesOf (source.lines cm) contentLength)
  /-- A header that frames the body is named before any other. -/
  framing : ((∃ name, isFramingHeader name = true ∧ 2 ≤ (valuesOf (source.lines cm) name).length) ∨
      ¬OneReading cm (valuesOf (source.lines cm) transferEncoding)
        (valuesOf (source.lines cm) contentLength)) →
    ∃ name, isFramingHeader name = true ∧
      (collectRequestHeaders cm proxy source plain).1 = some name
  values : ∀ key, (collectRequestHeaders cm proxy source plain).2.own.get key =
    if plain = true ∧ key = lit "__proto__" then none
    else (classOf proxy key).value (valuesOf (source.lines cm) key)

/-! ## One line -/

variable {cm : CaseMap} {proxy : List JsString} {headers : HeaderBag} {key value : JsString}

theorem HeaderBag.get_put (headers : HeaderBag) (key value k : JsString) :
    (headers.put key value).own.get k =
      if key = k ∧ ¬headers.Hides k then some value else headers.own.get k := by
  rw [put]
  by_cases hhides : headers.Hides key
  · rw [if_pos hhides, if_neg]
    rintro ⟨rfl, hnot⟩
    exact hnot hhides
  · rw [if_neg hhides, JsMap.get_set]
    by_cases hkey : key = k
    · subst hkey
      simp [hhides]
    · simp [hkey]

@[simp] theorem HeaderBag.plain_put (headers : HeaderBag) (key value : JsString) :
    (headers.put key value).plain = headers.plain := by
  rw [put]
  split <;> rfl

/-- What a line does to the headers, and when it is refused. -/
theorem takeHeaderLine_spec (proxy : List JsString) (headers : HeaderBag) (key value : JsString) :
    (takeHeaderLine proxy headers key value).1 =
        (if key ∈ singleValued ∧ headers.own.get key ≠ none then some key else none) ∧
      (takeHeaderLine proxy headers key value).2.plain = headers.plain ∧
      ∀ k, (takeHeaderLine proxy headers key value).2.own.get k =
        if key = k ∧ ¬headers.Hides k then
          some (match headers.own.get key with
            | none => value
            | some previous => (classOf proxy key).merge previous value)
        else headers.own.get k := by
  rw [takeHeaderLine]
  cases hget : headers.own.get key with
  | none => simp [HeaderBag.get_put]
  | some previous =>
    have hkept : ∀ k, headers.own.get k =
        if key = k ∧ ¬headers.Hides k then some previous else headers.own.get k := by
      intro k
      split_ifs with heq
      · rw [← heq.1, hget]
      · rfl
    simp only [classOf, ← contains_iff_mem, ne_eq, reduceCtorEq, not_false_eq_true, and_true]
    split_ifs <;> simp [HeaderBag.get_put, HeaderClass.merge, ← hkept]

/-! ## All lines -/

/-- What is known after some lines. -/
structure Collected (proxy : List JsString) (plain : Bool) (lines : List (JsString × JsString))
    (s : Collection) : Prop where
  bag : s.headers.plain = plain
  get : ∀ key, s.headers.own.get key = if plain = true ∧ key = lit "__proto__" then none
    else (classOf proxy key).value (valuesOf lines key)
  ambiguous : s.ambiguous = none ↔ ∀ name ∈ singleValued, (valuesOf lines name).length ≤ 1
  framingRepeat : s.framingRepeat = none ↔
    ∀ name, isFramingHeader name = true → (valuesOf lines name).length ≤ 1
  isFraming : ∀ name, s.framingRepeat = some name → isFramingHeader name = true

theorem mem_singleValued_of_framing (h : isFramingHeader key = true) : key ∈ singleValued := by
  rcases of_decide_eq_true h with rfl | rfl <;> simp [singleValued]

theorem ne_proto_of_mem (h : key ∈ singleValued) : key ≠ lit "__proto__" := by
  rintro rfl
  revert h
  decide +kernel

theorem Collected.take {plain : Bool} {lines : List (JsString × JsString)} {s : Collection}
    (h : Collected proxy plain lines s) (line : JsString × JsString) :
    Collected proxy plain (lines ++ [line]) (s.take proxy line) := by
  obtain ⟨hrefused, hplain, hget⟩ := takeHeaderLine_spec proxy s.headers line.1 line.2
  have hnone : ∀ name ∈ singleValued,
      s.headers.own.get name = none ↔ (valuesOf lines name).length = 0 := by
    intro name hname
    have hnot : ¬(plain = true ∧ name = lit "__proto__") := fun hhides =>
      ne_proto_of_mem hname hhides.2
    rw [h.get, if_neg hnot, HeaderClass.value_eq_none, length_eq_zero_iff]
  have hheaders : ∀ key, (takeHeaderLine proxy s.headers line.1 line.2).2.own.get key =
      if plain = true ∧ key = lit "__proto__" then none
      else (classOf proxy key).value (valuesOf (lines ++ [line]) key) := by
    intro key
    simp only [hget, HeaderBag.Hides, h.bag, valuesOf_concat]
    by_cases hhides : plain = true ∧ key = lit "__proto__"
    · rw [if_neg fun hand => hand.2 hhides, if_pos hhides, h.get, if_pos hhides]
    rw [if_neg hhides]
    by_cases hkey : line.1 = key
    · subst hkey
      rw [if_pos ⟨rfl, hhides⟩, if_pos rfl, HeaderClass.value_concat, h.get, if_neg hhides]
    · rw [if_neg fun hand => hkey hand.1, if_neg hkey, h.get, if_neg hhides]
  rw [Collection.take]
  rcases htake : takeHeaderLine proxy s.headers line.1 line.2 with ⟨refused, headers⟩
  rw [htake] at hrefused hplain hheaders
  simp only at hrefused hplain hheaders
  split_ifs at hrefused with hsecond
  · obtain ⟨hmem, hsome⟩ := hsecond
    have hlength : ¬(valuesOf (lines ++ [line]) line.1).length ≤ 1 := by
      have hne := mt (hnone _ hmem).mpr hsome
      rw [valuesOf_concat, if_pos rfl, length_append, length_singleton]
      omega
    subst hrefused
    refine ⟨hplain.trans h.bag, hheaders, ?_, ?_, fun name hname => ?_⟩ <;> simp only at *
    · exact iff_of_false (by cases s.ambiguous <;> simp) fun hall => hlength (hall _ hmem)
    · by_cases hframing : isFramingHeader line.1 = true
      · rw [if_pos hframing]
        exact iff_of_false (by cases s.framingRepeat <;> simp) fun hall =>
          hlength (hall _ hframing)
      · rw [if_neg hframing, Option.or_none, h.framingRepeat]
        refine forall₂_congr fun name hname => ?_
        rw [valuesOf_concat, if_neg fun heq : line.1 = name => hframing (heq ▸ hname)]
    · cases hrepeat : s.framingRepeat with
      | some name' =>
        rw [hrepeat] at hname
        exact h.isFraming name (hrepeat.trans hname)
      | none =>
        rw [hrepeat, Option.none_or] at hname
        split_ifs at hname with hframing
        exact Option.some.inj hname ▸ hframing
  · subst hrefused
    have hsame : ∀ name ∈ singleValued, (valuesOf lines name).length ≤ 1 ↔
        (valuesOf (lines ++ [line]) name).length ≤ 1 := by
      intro name hname
      rw [valuesOf_concat]
      split_ifs with heq
      · subst heq
        have hempty := (hnone _ hname).mp (not_not.mp fun hsome => hsecond ⟨hname, hsome⟩)
        rw [length_append, length_singleton]
        omega
      · rfl
    exact ⟨hplain.trans h.bag, hheaders, h.ambiguous.trans (forall₂_congr hsame),
      h.framingRepeat.trans (forall₂_congr fun name hname =>
        hsame name (mem_singleValued_of_framing hname)), h.isFraming⟩

theorem framingRefusal_heads (cm : CaseMap) (encodings lengths : List JsString) :
    framingRefusal cm encodings.head? lengths.head? = none ∧ encodings.length ≤ 1 ∧
      lengths.length ≤ 1 ↔ OneReading cm encodings lengths := by
  match encodings, lengths with
  | [], [] => simp [framingRefusal, OneReading]
  | [], [v] => simp [framingRefusal, OneReading]
  | [v], [] => simp [framingRefusal, OneReading]
  | v :: w :: _, _ => simp [OneReading]
  | _, v :: w :: _ => simp [OneReading]
  | [v], [w] => simp [framingRefusal, OneReading]

theorem isFraming_framingRefusal {encoding length : Option JsString}
    (h : framingRefusal cm encoding length = some key) : isFramingHeader key = true := by
  rw [framingRefusal] at h
  split_ifs at h <;> cases h <;> rfl

theorem collected (proxy : List JsString) (plain : Bool) (lines : List (JsString × JsString)) :
    Collected proxy plain lines (.walk proxy plain lines) := by
  induction lines using reverseRecOn with
  | nil => exact ⟨rfl, fun _ => (ite_self _).symm, by simp [valuesOf, Collection.walk],
    by simp [valuesOf, Collection.walk], by simp [Collection.walk]⟩
  | append_singleton lines line ih =>
    rw [Collection.walk, foldl_append]
    exact ih.take line

/-- Exactly the ambiguous requests are refused, and each name collects to what its class makes of
its values. -/
theorem collects (cm : CaseMap) (proxy : List JsString) (source : HeaderSource) (plain : Bool) :
    Collects cm proxy source plain := by
  have h := collected proxy plain (source.lines cm)
  have hheads : ∀ name ∈ singleValued, (Collection.walk proxy plain
      (source.lines cm)).headers.own.get name = (valuesOf (source.lines cm) name).head? := by
    intro name hname
    have hnot : ¬(plain = true ∧ name = lit "__proto__") := fun hhides =>
      ne_proto_of_mem hname hhides.2
    rw [h.get, if_neg hnot, classOf, if_pos (contains_iff_mem.mpr hname), HeaderClass.value_refused]
  have hmem : ∀ {name}, isFramingHeader name = true → name ∈ singleValued :=
    mem_singleValued_of_framing
  have hreading := framingRefusal_heads cm (valuesOf (source.lines cm) transferEncoding)
    (valuesOf (source.lines cm) contentLength)
  rw [← hheads _ (hmem rfl), ← hheads _ (hmem rfl)] at hreading
  refine ⟨?_, fun hcase => ?_, h.get⟩
  · simp only [collectRequestHeaders, Option.or_eq_none_iff, h.ambiguous, ← hreading]
    refine ⟨fun ⟨hframing, _, hall⟩ => ⟨hall, hframing, hall _ (hmem rfl), hall _ (hmem rfl)⟩,
      fun ⟨hall, hframing, _⟩ => ⟨hframing, h.framingRepeat.mpr fun name hname =>
        hall name (hmem hname), hall⟩⟩
  · rw [collectRequestHeaders]
    cases hframing : framingRefusal cm
        ((Collection.walk proxy plain (source.lines cm)).headers.own.get transferEncoding)
        ((Collection.walk proxy plain (source.lines cm)).headers.own.get contentLength) with
    | some name => exact ⟨name, isFraming_framingRefusal hframing, by simp⟩
    | none =>
      cases hrepeat : (Collection.walk proxy plain (source.lines cm)).framingRepeat with
      | some name => exact ⟨name, h.isFraming name hrepeat, by simp⟩
      | none =>
        have hall := h.framingRepeat.mp hrepeat
        rcases hcase with ⟨name, hname, htwice⟩ | hmany
        · exact absurd (hall name hname) (by omega)
        · exact absurd (hreading.mp ⟨hframing, hall _ rfl, hall _ rfl⟩) hmany

/-- A visitor that shows `Host` twice is not refused. -/
theorem not_accepts_visitor : ¬∀ (cm : CaseMap) (lines : List (JsString × JsString)),
    (collectRequestHeaders cm (proxySingleValued cm []) (.visitor lines) true).1 = none →
      ∀ name ∈ singleValued,
        (lines.filter fun line => decide (cm.toLowerCase line.1 = name)).length ≤ 1 := by
  intro h
  have hhost := h SafeUrl.asciiCase [(lit "Host", lit "a"), (lit "Host", lit "b")]
    (by decide +kernel) (lit "host") (.head _)
  revert hhost
  decide +kernel

end AdapterWs.RequestHeaders
