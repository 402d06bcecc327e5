import AdapterWs.SafeUrl.Host

/-!
# What a resolver can return

`classifyHost` drops one trailing dot before it looks at a literal. `classifyAddress` asks in
addition that the text it was handed parses as it stands, so that it refuses a dotted literal
and a lone dot. `checkUrlResolved` takes the answer of `classifyHost` alone and accepts both.
-/

namespace AdapterWs.SafeUrl

open JsString List

variable {P : Platform} {nat64 : Option Nat64} {b s t : JsString} (m : JsString) {a : JsString}
  {options : SafeUrlOptions}

/-- The text is an address literal outside every blocked range. -/
def PublicLiteral (nat64 : Option Nat64) (host : JsString) : Prop :=
  if bracketed host = true then ∃ g, parseIpv6 (inner host) = some g ∧ classifyIpv6 g nat64 = none
  else ∃ v4, parseIpv4 host = some v4 ∧ classifyIpv4 v4 = none

/-! ## Brackets and dots -/

theorem bracketed_iff (s : JsString) :
    bracketed s = true ↔ ∃ m, s = unit '[' :: (m ++ [unit ']']) := by
  constructor
  · intro h
    simp only [bracketed, Bool.and_eq_true, decide_eq_true_eq] at h
    obtain ⟨c, s, rfl⟩ := exists_cons_of_ne_nil (l := s) (by rintro rfl; cases h.1)
    obtain rfl : c = unit '[' := by simpa using h.1
    rcases eq_nil_or_concat s with rfl | ⟨m, d, rfl⟩
    · cases h.2
    · obtain rfl : d = unit ']' := by
        simpa [getLast?_cons, concat_eq_append] using h.2
      exact ⟨m, by rw [concat_eq_append]⟩
  · rintro ⟨m, rfl⟩
    simp [bracketed, getLast?_cons]

@[simp] theorem inner_brackets : inner (unit '[' :: (m ++ [unit ']'])) = m := by
  simp [inner]

/-- Lowering keeps the brackets and lowers what stands in them. -/
theorem bracketed_of_lowers (h : Lowers s t) : bracketed t = bracketed s ∧
    (bracketed s = true → Lowers (inner s) (inner t)) := by
  have hto : bracketed s = true → bracketed t = true ∧ Lowers (inner s) (inner t) := by
    intro hs
    obtain ⟨m, rfl⟩ := (bracketed_iff s).mp hs
    obtain ⟨t', rfl, ht'⟩ := h.of_cons (by decide)
    obtain ⟨m', rfl, hm'⟩ := ht'.of_append_singleton (by decide)
    exact ⟨(bracketed_iff _).mpr ⟨m', rfl⟩, by
      rw [inner_brackets]
      exact (inner_brackets m').symm ▸ hm'⟩
  have hof : bracketed t = true → bracketed s = true := by
    intro ht
    obtain ⟨m, rfl⟩ := (bracketed_iff t).mp ht
    obtain ⟨c, s', rfl, -, hc, hs'⟩ := h.to_cons (by decide)
    obtain ⟨s'', d, rfl, -, hd, -⟩ := hs'.to_append_singleton (by decide)
    rw [(asciiLower_eq_iff _ (by decide) c).mp hc, (asciiLower_eq_iff _ (by decide) d).mp hd]
    exact (bracketed_iff _).mpr ⟨s'', rfl⟩
  refine ⟨?_, fun hs => (hto hs).2⟩
  cases hs : bracketed s with
  | true => exact (hto hs).1
  | false =>
    cases ht : bracketed t with
    | true => rw [hof ht] at hs; cases hs
    | false => rfl

/-- A text in lower case and without its dot is clear exactly where it is empty or a public
literal. -/
theorem classifyNormal_eq_clear_iff (h : Lowers s t) :
    classifyNormal t nat64 = .clear ↔ s = [] ∨ PublicLiteral nat64 s := by
  obtain ⟨hbrackets, hinner⟩ := bracketed_of_lowers h
  have hv4 := parseIpv4_of_lowers h
  have hof : ∀ r, HostClass.ofReason r = .clear ↔ r = none := by
    intro r
    cases r <;> simp [HostClass.ofReason]
  by_cases hnil : s = []
  · subst hnil
    rw [h.eq_nil_iff.mp rfl]
    simp [classifyNormal]
  · have hne : ¬ t.length = 0 := fun ht => hnil (h.eq_nil_iff.mpr (length_eq_zero_iff.mp ht))
    rw [classifyNormal, if_neg hne, PublicLiteral, hbrackets]
    simp only [hnil, false_or]
    by_cases hb : bracketed s = true
    · rw [if_pos hb, if_pos hb, parseIpv6_of_lowers (hinner hb)]
      cases parseIpv6 (inner s) with
      | none => simp
      | some g => simp [hof]
    · rw [if_neg hb, if_neg hb]
      -- the names that are blocked do not parse
      by_cases hlocal : t = lit "localhost"
      · rw [if_pos hlocal, ← hv4, hlocal]
        have hno : parseIpv4 (lit "localhost") = none := by decide
        simp [hno]
      · rw [if_neg hlocal]
        by_cases hmeta : t = lit "metadata.google.internal" ∨ t = lit "metadata"
        · rw [if_pos hmeta, ← hv4]
          have hno : parseIpv4 t = none := by
            rcases hmeta with h | h <;> rw [h] <;> decide
          simp [hno]
        · rw [if_neg hmeta, hv4]
          cases parseIpv4 s with
          | none => simp
          | some v4 => simp [hof]

/-! ## The trailing dot -/

@[simp] theorem stripDot_append_dot : stripDot (m ++ [unit '.']) = m := by
  simp [stripDot]

theorem stripDot_of_no_dot (h : ∀ m, s ≠ m ++ [unit '.']) : stripDot s = s := by
  rw [stripDot, if_neg]
  intro hlast
  rcases eq_nil_or_concat s with rfl | ⟨m, d, rfl⟩
  · cases hlast
  · obtain rfl : d = unit '.' := by simpa [concat_eq_append] using hlast
    exact h m concat_eq_append

/-- The trailing dot is dropped alike from a text and from its lowered form. -/
theorem stripDot_of_lowers (h : Lowers s t) : Lowers (stripDot s) (stripDot t) := by
  by_cases hdot : ∃ m, s = m ++ [unit '.']
  · obtain ⟨m, rfl⟩ := hdot
    obtain ⟨t', rfl, ht'⟩ := h.of_append_singleton (by decide)
    rw [stripDot_append_dot, show asciiLower (unit '.') = unit '.' by decide, stripDot_append_dot]
    exact ht'
  · rw [stripDot_of_no_dot fun m hm => hdot ⟨m, hm⟩, stripDot_of_no_dot]
    · exact h
    · rintro m rfl
      obtain ⟨s', c, rfl, -, hc, -⟩ := h.to_append_singleton (by decide)
      exact hdot ⟨s', by rw [(asciiLower_eq_iff _ (by decide) c).mp hc]⟩

/-- A host is clear exactly where it is empty or a public literal, up to a trailing dot. -/
theorem classifyHost_eq_clear_iff (P : Platform) (host : JsString) :
    classifyHost P host nat64 = .clear ↔
      stripDot host = [] ∨ PublicLiteral nat64 (stripDot host) :=
  classifyNormal_eq_clear_iff (stripDot_of_lowers (P.case.lowers host))

/-! ## Literals -/

/-- No unit of an IPv4 literal is a bracket, a colon or a percent sign. -/
theorem not_mem_of_parseIpv4 {v4 : Ipv4} {c : UInt16} (h : parseIpv4 s = some v4)
    (hdot : c ≠ unit '.') (hpart : isPartUnit c = false) : c ∉ s := by
  intro hc
  rcases isPartUnit_of_parseIpv4 h hc with h | h
  · exact hdot h
  · rw [hpart] at h
    cases h

theorem parseIpv6_of_no_colon (h : unit ':' ∉ s) : parseIpv6 s = none := by
  have hbefore : unit ':' ∉ s.takeWhile (· ≠ unit '%') := fun hc =>
    h ((takeWhile_sublist _).subset hc)
  rw [parseIpv6, parseGroups, splitDouble_of_not_mem hbefore, expand, split_of_not_mem hbefore]
  split_ifs
  · rfl
  · -- one token gives two groups at most
    rw [expandTokens]
    split_ifs with hdot hrest
    · exact absurd rfl hrest
    · cases parseDottedQuadV6Tail (s.takeWhile (· ≠ unit '%')) <;> rfl
    · rfl
    · rfl

@[simp] theorem not_publicLiteral_nil : ¬ PublicLiteral nat64 [] := by
  rintro ⟨v4, hv4, -⟩
  cases hv4

theorem not_publicLiteral_append_dot : ¬ PublicLiteral nat64 (m ++ [unit '.']) := by
  have hb : ¬ bracketed (m ++ [unit '.']) = true := by
    intro hb
    obtain ⟨m', hm'⟩ := (bracketed_iff _).mp hb
    rw [← cons_append] at hm'
    exact absurd (append_inj' hm' rfl).2 (by decide)
  rw [PublicLiteral, if_neg hb, parseIpv4_append_dot]
  rintro ⟨v4, hv4, -⟩
  cases hv4

/-- What a public literal looks like: brackets, or neither bracket nor colon. -/
theorem shape_of_publicLiteral (h : PublicLiteral nat64 s) :
    (∃ m, s = unit '[' :: (m ++ [unit ']'])) ∨
      s.head? ≠ some (unit '[') ∧ unit ':' ∉ s ∧ unit '%' ∉ s := by
  rw [PublicLiteral] at h
  split_ifs at h with hb
  · exact .inl ((bracketed_iff s).mp hb)
  · obtain ⟨v4, hv4, -⟩ := h
    refine .inr ⟨fun hhead => ?_, not_mem_of_parseIpv4 hv4 (by decide) (by decide),
      not_mem_of_parseIpv4 hv4 (by decide) (by decide)⟩
    exact not_mem_of_parseIpv4 hv4 (by decide) (by decide) (List.mem_of_head? hhead)

/-! ## What is accepted -/

/-- A lone dot, or a public literal with a dot after it. -/
def Dotted (nat64 : Option Nat64) (a : JsString) : Prop :=
  a = [unit '.'] ∨ ∃ b, a = b ++ [unit '.'] ∧ PublicLiteral nat64 b

/-- The loop over the resolved addresses goes past this one. -/
def Accepts (P : Platform) (nat64 : Option Nat64) (a : JsString) : Prop :=
  a ≠ [] ∧ classifyHost P (bracket a) nat64 = .clear

theorem bracket_of_append_dot {m : JsString} (h : bracket s = m ++ [unit '.']) :
    s = m ++ [unit '.'] := by
  rw [bracket] at h
  split_ifs at h
  · exact absurd (append_inj' h rfl).2 (by decide)
  · exact h

theorem bracket_append_dot (h : PublicLiteral nat64 b) :
    bracket (b ++ [unit '.']) = b ++ [unit '.'] := by
  rw [bracket, if_neg]
  rintro ⟨hcolon, hhead⟩
  rcases shape_of_publicLiteral h with ⟨m, rfl⟩ | ⟨-, hno, -⟩
  · exact hhead rfl
  · rcases mem_append.mp hcolon with hc | hc
    · exact hno hc
    · exact absurd hc (by decide)

/-- An address is accepted exactly where it is a public literal or dotted. -/
theorem accepts_iff (P : Platform) (a : JsString) :
    Accepts P nat64 a ↔ PublicLiteral nat64 (bracket a) ∨ Dotted nat64 a := by
  rw [Accepts, classifyHost_eq_clear_iff]
  by_cases hdot : ∃ m, bracket a = m ++ [unit '.']
  · obtain ⟨m, hm⟩ := hdot
    obtain rfl := bracket_of_append_dot hm
    rw [hm, stripDot_append_dot]
    simp only [not_publicLiteral_append_dot, false_or, Dotted]
    constructor
    · rintro ⟨-, rfl | hpub⟩
      · exact .inl rfl
      · exact .inr ⟨m, rfl, hpub⟩
    · rintro (hlone | ⟨b, hb, hpub⟩)
      · have hm : m ++ [unit '.'] = [] ++ [unit '.'] := hlone
        exact ⟨by simp, .inl (append_cancel_right hm)⟩
      · rw [append_cancel_right hb]
        exact ⟨by simp, .inr hpub⟩
  · rw [stripDot_of_no_dot fun m hm => hdot ⟨m, hm⟩]
    have hnil : bracket a = [] ↔ a = [] := by
      rw [bracket]
      split_ifs with hcolon
      · simp [ne_nil_of_mem hcolon.1]
      · rfl
    constructor
    · rintro ⟨hne, hempty | hpub⟩
      · exact absurd (hnil.mp hempty) hne
      · exact .inl hpub
    · rintro (hpub | hlone | ⟨b, rfl, hpub⟩)
      · refine ⟨?_, .inr hpub⟩
        rintro rfl
        exact not_publicLiteral_nil hpub
      · exact absurd ⟨[], by rw [hlone]; decide⟩ hdot
      · exact absurd ⟨b, bracket_append_dot hpub⟩ hdot

/-- The text `classifyAddress` parses once more. -/
def bare (a : JsString) : JsString :=
  if (bracket a).head? = some (unit '[') then inner (bracket a) else bracket a

/-- The text is an address literal outside every blocked range once its brackets are off. -/
def IpLiteral (nat64 : Option Nat64) (a : JsString) : Prop :=
  (∃ v4, parseIpv4 (bare a) = some v4 ∧ classifyIpv4 v4 = none) ∨
    ∃ g, parseIpv6 (bare a) = some g ∧ classifyIpv6 g nat64 = none

theorem ipLiteral_of_publicLiteral (h : PublicLiteral nat64 (bracket a)) : IpLiteral nat64 a := by
  rw [IpLiteral, bare]
  rcases shape_of_publicLiteral h with ⟨m, hm⟩ | ⟨hhead, -, -⟩
  · have hb := (bracketed_iff _).mpr ⟨m, hm⟩
    rw [PublicLiteral, if_pos hb] at h
    exact .inr (by rw [if_pos (by rw [hm]; rfl)]; exact h)
  · have hb : ¬ bracketed (bracket a) = true := by
      intro hb
      obtain ⟨m, hm⟩ := (bracketed_iff _).mp hb
      exact hhead (by rw [hm]; rfl)
    rw [PublicLiteral, if_neg hb] at h
    exact .inl (by rw [if_neg hhead]; exact h)

/-- A text that has a zone parses with another unit after it as well. -/
theorem parseIpv6_append_of_zone {m : JsString} (hzone : unit '%' ∈ m) (c : UInt16) :
    parseIpv6 (m ++ [c]) = parseIpv6 m := by
  have hshort : (m.takeWhile (· ≠ unit '%')).length ≠ m.length := by
    intro hlen
    have hall := (List.takeWhile_prefix (· ≠ unit '%')).eq_of_length hlen
    have hpercent := all_eq_true.mp all_takeWhile _ (hall.symm ▸ hzone)
    simp at hpercent
  rw [parseIpv6, parseIpv6, takeWhile_append, if_neg hshort]

/-- A text without a zone does not parse with a bracket after it. -/
theorem parseIpv6_append_bracket {m : JsString} (hzone : unit '%' ∉ m) :
    parseIpv6 (m ++ [unit ']']) = none := by
  by_contra h
  obtain ⟨g, hg⟩ := Option.ne_none_iff_exists'.mp h
  have hpass : ∀ c ∈ m ++ [unit ']'], decide (c ≠ unit '%') = true := by
    intro c hc
    rw [decide_eq_true_eq]
    rintro rfl
    rcases List.mem_append.mp hc with hc | hc
    · exact hzone hc
    · exact absurd hc (by decide)
  have hwhole : (m ++ [unit ']'] ++ []).takeWhile (· ≠ unit '%') = m ++ [unit ']'] ++ [] :=
    List.takeWhile_append_of_pos hpass
  rw [List.append_nil] at hwhole
  rw [parseIpv6, hwhole] at hg
  have hunit := isAddressUnit_of_parseGroups hg (List.mem_append_right m (.head _))
  cases hunit

/-- What `classifyAddress` says of an accepted address rests on its second parse alone. -/
theorem classifyAddress_of_accepts (h : Accepts P (parseNat64Prefix options.nat64Prefix) a) :
    classifyAddress P (.str a) options = none ↔
      parseIpv4 (bare a) ≠ none ∨ parseIpv6 (bare a) ≠ none := by
  have hparse : classifyAddress P (.str a) options =
      if (bare a).length = 0 then some .notAnIp
      else if (parseIpv4 (bare a)).isSome ∨ (parseIpv6 (bare a)).isSome then none
      else some .notAnIp := by
    rw [classifyAddress]
    simp only [h.2]
    rfl
  rw [hparse]
  split_ifs with hnil hsome
  · rw [length_eq_zero_iff.mp hnil]
    simp [show parseIpv4 [] = none from rfl, show parseIpv6 [] = none from rfl]
  · simpa [Option.isSome_iff_ne_none] using hsome
  · simpa [Option.isSome_iff_ne_none] using hsome

theorem classifyAddress_of_publicLiteral
    (h : PublicLiteral (parseNat64Prefix options.nat64Prefix) (bracket a)) :
    classifyAddress P (.str a) options = none := by
  rw [classifyAddress_of_accepts ((accepts_iff P a).mpr (.inl h))]
  rcases ipLiteral_of_publicLiteral h with ⟨v4, hv4, -⟩ | ⟨g, hg, -⟩
  · exact .inl (by simp [hv4])
  · exact .inr (by simp [hg])

/-- The second parse of a dotted text sees the closing bracket or the dot. -/
theorem bare_of_dotted {a : JsString} (h : Dotted nat64 a) :
    (∃ m g, a = unit '[' :: (m ++ [unit ']']) ++ [unit '.'] ∧ bare a = m ++ [unit ']'] ∧
      parseIpv6 m = some g ∧ classifyIpv6 g nat64 = none) ∨
    ∃ b, a = b ++ [unit '.'] ∧ bare a = a ∧ unit ':' ∉ a ∧ unit '%' ∉ a := by
  rcases h with rfl | ⟨b, rfl, hpub⟩
  · exact .inr ⟨[], rfl, by decide, by decide, by decide⟩
  · have hbracket := bracket_append_dot hpub
    rcases shape_of_publicLiteral hpub with ⟨m, rfl⟩ | ⟨hhead, hcolon, hzone⟩
    · rw [PublicLiteral, if_pos ((bracketed_iff _).mpr ⟨m, rfl⟩), inner_brackets] at hpub
      obtain ⟨g, hg, hpublic⟩ := hpub
      refine .inl ⟨m, g, rfl, ?_, hg, hpublic⟩
      rw [bare, hbracket]
      simp [inner]
    · have hb : b ≠ [] := by
        rintro rfl
        exact not_publicLiteral_nil hpub
      refine .inr ⟨b, rfl, ?_, ?_, ?_⟩
      · rw [bare, hbracket, if_neg]
        rwa [List.head?_append_of_ne_nil _ hb]
      · simpa [show unit ':' ≠ unit '.' by decide] using hcolon
      · simpa [show unit '%' ≠ unit '.' by decide] using hzone

theorem classifyAddress_of_dotted (h : Dotted (parseNat64Prefix options.nat64Prefix) a)
    (hzone : unit '%' ∉ a) : classifyAddress P (.str a) options ≠ none := by
  rw [ne_eq, classifyAddress_of_accepts ((accepts_iff P a).mpr (.inr h))]
  rcases bare_of_dotted h with ⟨m, g, rfl, hbare, -, -⟩ | ⟨b, rfl, hbare, hcolon, -⟩
  · have hm : unit '%' ∉ m := fun hm => hzone (by simp [hm])
    have hno4 : parseIpv4 (m ++ [unit ']']) = none := by
      by_contra hsome
      obtain ⟨v4, hv4⟩ := Option.ne_none_iff_exists'.mp hsome
      exact not_mem_of_parseIpv4 hv4 (by decide) (by decide)
        (mem_append_right m (.head _))
    rw [hbare, hno4, parseIpv6_append_bracket hm]
    simp
  · rw [hbare, parseIpv4_append_dot, parseIpv6_of_no_colon hcolon]
    simp

/-- A dotted text with a zone is a literal: the zone hides the dot. -/
theorem ipLiteral_of_dotted (h : Dotted nat64 a) (hzone : unit '%' ∈ a) : IpLiteral nat64 a := by
  rcases bare_of_dotted h with ⟨m, g, rfl, hbare, hg, hpublic⟩ | ⟨b, -, -, -, hno⟩
  · have hm : unit '%' ∈ m := by
      simpa [show unit '%' ≠ unit '[' by decide, show unit '%' ≠ unit ']' by decide,
        show unit '%' ≠ unit '.' by decide] using hzone
    exact .inr ⟨g, by rw [hbare, parseIpv6_append_of_zone hm, hg], hpublic⟩
  · exact absurd hzone hno

theorem classifyAddress_of_zone (h : Dotted (parseNat64Prefix options.nat64Prefix) a)
    (hzone : unit '%' ∈ a) : classifyAddress P (.str a) options = none := by
  rw [classifyAddress_of_accepts ((accepts_iff P a).mpr (.inr h))]
  rcases ipLiteral_of_dotted h hzone with ⟨v4, hv4, -⟩ | ⟨g, hg, -⟩
  · exact .inl (by simp [hv4])
  · exact .inr (by simp [hg])

theorem checkAddresses_eq_safe_iff (addresses : List JsValue) :
    checkAddresses P nat64 addresses = .safe ↔
      ∀ a ∈ addresses, ∃ s, a = .str s ∧ Accepts P nat64 s := by
  induction addresses with
  | nil => simp [checkAddresses]
  | cons a addresses ih =>
    cases a with
    | other => simp [checkAddresses]
    | str addr =>
      rw [checkAddresses]
      split_ifs with hlen
      · simp [Accepts, length_eq_zero_iff.mp hlen]
      · have hne : addr ≠ [] := fun h => hlen (by rw [h]; rfl)
        cases hc : classifyHost P (bracket addr) nat64 with
        | clear => simp [ih, Accepts, hne, hc]
        | reason r => simp [Accepts, hc]
        | dnsName name => simp [Accepts, hc]

/-! ## The property -/

section Property

variable (P : Platform) (url : JsString) (options : SafeUrlOptions)

/-- The host of the URL is a DNS name, and this is what the resolver gives for it. -/
def Asked (answer : Resolution) : Prop :=
  ∃ resolve parsed name, options.resolve = some resolve ∧ P.parseUrl url = some parsed ∧
    classifyHost P parsed.hostname (parseNat64Prefix options.nat64Prefix) = .dnsName name ∧
    answer = resolve name

/-- A resolved URL is safe only where the resolver returned addresses and `classifyAddress`
passes every one, each a literal outside every blocked range. -/
def ResolvedStrictly : Prop :=
  ∀ answer, options.mode ≠ .off → Asked P url options answer →
    checkUrlResolved P url options = .safe →
    ∃ addresses, answer.addresses = some addresses ∧ addresses ≠ [] ∧
      ∀ a ∈ addresses, classifyAddress P a options = none ∧
        ∃ s, a = .str s ∧ IpLiteral (parseNat64Prefix options.nat64Prefix) s

/-- The resolver returns public literals and dotted ones, and a dotted one without a zone. -/
def EvadesResolver : Prop :=
  options.mode ≠ .off ∧ checkUrl P url options = .safe ∧
    ∃ answer addresses, Asked P url options answer ∧ answer.addresses = some addresses ∧
      (∀ a ∈ addresses, ∃ s, a = .str s ∧
        (PublicLiteral (parseNat64Prefix options.nat64Prefix) (bracket s) ∨
          Dotted (parseNat64Prefix options.nat64Prefix) s)) ∧
      ∃ s, .str s ∈ addresses ∧ Dotted (parseNat64Prefix options.nat64Prefix) s ∧ unit '%' ∉ s

variable {P url options}

/-- A resolved URL is safe exactly where its literal is and every address is accepted. -/
theorem checkUrlResolved_eq_safe_iff {answer : Resolution} (hmode : options.mode ≠ .off)
    (hasked : Asked P url options answer) :
    checkUrlResolved P url options = .safe ↔
      checkUrl P url options = .safe ∧
        ∃ addresses, answer.addresses = some addresses ∧ addresses ≠ [] ∧
          ∀ a ∈ addresses, ∃ s, a = .str s ∧
            Accepts P (parseNat64Prefix options.nat64Prefix) s := by
  obtain ⟨resolve, parsed, name, hresolve, hparsed, hname, rfl⟩ := hasked
  rw [checkUrlResolved]
  cases hliteral : checkUrl P url options with
  | refused r => simp
  | safe =>
    simp only [hmode, if_false, hresolve, hparsed, hname, true_and]
    match (resolve name).addresses with
    | none => simp
    | some [] => simp
    | some (a :: addresses) =>
      simp only [checkAddresses_eq_safe_iff]
      constructor
      · exact fun h => ⟨_, rfl, cons_ne_nil _ _, h⟩
      · rintro ⟨_, heq, -, h⟩
        exact Option.some.inj heq ▸ h

/-- The resolved check is as strict as `classifyAddress` exactly where the resolver returns no
dotted answer among accepted ones. -/
theorem resolvedStrictly_iff :
    ResolvedStrictly P url options ↔ ¬ EvadesResolver P url options := by
  constructor
  · rintro hstrict ⟨hmode, hliteral, answer, addresses, hasked, haddresses, hall, s, hs, hdot,
      hzone⟩
    have hsafe := (checkUrlResolved_eq_safe_iff hmode hasked).mpr
      ⟨hliteral, addresses, haddresses, ne_nil_of_mem hs, fun a ha => by
        obtain ⟨t, rfl, ht⟩ := hall a ha
        exact ⟨t, rfl, (accepts_iff P t).mpr ht⟩⟩
    obtain ⟨addresses', haddresses', -, hnone⟩ := hstrict answer hmode hasked hsafe
    rw [haddresses] at haddresses'
    cases haddresses'
    exact classifyAddress_of_dotted hdot hzone (hnone _ hs).1
  · intro hno answer hmode hasked hsafe
    obtain ⟨hliteral, addresses, haddresses, hne, hall⟩ :=
      (checkUrlResolved_eq_safe_iff hmode hasked).mp hsafe
    refine ⟨addresses, haddresses, hne, fun a ha => ?_⟩
    obtain ⟨s, rfl, hs⟩ := hall a ha
    rcases (accepts_iff P s).mp hs with hpub | hdot
    · exact ⟨classifyAddress_of_publicLiteral hpub, s, rfl, ipLiteral_of_publicLiteral hpub⟩
    · by_cases hzone : unit '%' ∈ s
      · exact ⟨classifyAddress_of_zone hdot hzone, s, rfl, ipLiteral_of_dotted hdot hzone⟩
      · refine absurd ⟨hmode, hliteral, answer, addresses, hasked, haddresses, ?_, s, ha, hdot,
          hzone⟩ hno
        intro b hb
        obtain ⟨t, rfl, ht⟩ := hall b hb
        exact ⟨t, rfl, (accepts_iff P t).mp ht⟩

end Property

/-! ## A lone dot -/

/-- The ASCII letters alone have a lower case. -/
def asciiCase : CaseMap where
  toLowerCase s := s.map asciiLower
  lowers s := by
    induction s with
    | nil => exact .nil
    | cons c s ih =>
      by_cases hc : c.toNat < 128
      · exact .ascii hc ih
      · have hsame : asciiLower c = c := by
          rw [asciiLower, if_neg]
          omega
        have hlit : isLiteralUnit c = false := by
          simp only [isLiteralUnit, Bool.or_eq_false_iff, Bool.and_eq_false_iff,
            decide_eq_false_iff_not]
          omega
        rw [List.map_cons, hsame]
        exact .other (u := [c]) (v := [c]) (by simp) (by simpa using hc) (by simp)
          (by simpa using hlit) ih

/-- A platform that knows one URL. -/
def hooksPlatform : Platform where
  case := asciiCase
  parseUrl url :=
    if url = lit "https://hooks.example/" then some ⟨lit "https:", lit "hooks.example"⟩ else none

/-- The strict posture, with a resolver that answers with the root zone. -/
def rootZoneOptions : SafeUrlOptions where
  mode := .strict
  allow := []
  resolve := some fun _ => .array [.str [unit '.']]
  nat64Prefix := none

/-- The answer `.` is accepted, and is no address. -/
theorem not_resolvedStrictly_dot :
    ¬ ResolvedStrictly hooksPlatform (lit "https://hooks.example/") rootZoneOptions := by
  intro h
  have hasked : Asked hooksPlatform (lit "https://hooks.example/") rootZoneOptions
      (.array [.str [unit '.']]) := by
    refine ⟨_, ⟨lit "https:", lit "hooks.example"⟩, lit "hooks.example", rfl, ?_, by decide, rfl⟩
    simp [hooksPlatform]
  obtain ⟨_, haddresses, -, hall⟩ := h _ (by decide) hasked (by decide)
  cases haddresses
  have hnone := (hall _ (.head _)).1
  revert hnone
  decide

end AdapterWs.SafeUrl
