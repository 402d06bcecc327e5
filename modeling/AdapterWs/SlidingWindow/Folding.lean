import AdapterWs.SafeUrl.Resolved
import AdapterWs.SlidingWindow.Expansion

/-!
# What the identities fold

A value is folded where it is the text of an address outside the exempt prefixes, or a dotted IPv4
address with a port, and is its own identity otherwise. The code meets this but for two kinds of
values: a double colon at the start is taken for four groups that are zero, and one that stands for
no group is taken for a double colon.
-/

namespace AdapterWs.SlidingWindow

open JsString List
open SafeUrl (isDecimal isHex parseInt)

/-! ## What a value holds -/

/-- The host of a value: the value, or what stands between brackets, with a port after them or
without. -/
inductive Encloses : JsString → JsString → Prop
  | bare (host : JsString) : Encloses host host
  | bracketed {host : JsString} (h : unit ']' ∉ host) :
      Encloses (unit '[' :: (host ++ [unit ']'])) host
  | bracketedPort {host port : JsString} (h : unit ']' ∉ host) (hport : isPort port = true) :
      Encloses (unit '[' :: (host ++ unit ']' :: unit ':' :: port)) host

/-- A dotted IPv4 address: four octets without leading zeros. -/
def IsIpv4 (s : JsString) : Prop :=
  (∃ a b c d, List.Forall₂ IsOctet (split (unit '.') s) [a, b, c, d]) ∧
    ∀ octet ∈ split (unit '.') s, octet.length = 1 ∨ octet.head? ≠ some (unit '0')

/-- A value that holds an IPv6 address. -/
def Address (value : JsString) (ns : List ℕ) : Prop := ∃ host, Encloses value host ∧ IsIpv6 host ns

/-- A value that holds an IPv4 address with a port. -/
def Dotted (value address : JsString) : Prop := ∃ port,
  Encloses value (address ++ unit ':' :: port) ∧ IsIpv4 address ∧ isPort port = true

/-! ## Prefixes -/

/-- The prefixes that are not folded: `::/64`, `64:ff9b::/32`, `2001::/32` and `fe80::/10`. -/
def Exempt (ns : List ℕ) : Prop :=
  ns.take 4 = [0, 0, 0, 0] ∨ ns.take 2 = [0x64, 0xff9b] ∨ ns.take 2 = [0x2001, 0] ∨
    ns.headD 0 &&& 0xffc0 = 0xfe80

instance (ns : List ℕ) : Decidable (Exempt ns) := inferInstanceAs (Decidable (_ ∨ _ ∨ _ ∨ _))

/-- The pieces of a prefix: three under `2002::/16`, four elsewhere. -/
def prefixPieces (ns : List ℕ) : List ℕ := if ns.headD 0 = 0x2002 then ns.take 3 else ns.take 4

/-- The text of a prefix. -/
def prefixText (ns : List ℕ) : JsString :=
  [unit ':'].intercalate ((prefixPieces ns).map toHex) ++ lit "::"

/-- The identity of a value: the prefix of an address that is not exempt, a dotted address without
its port, and else the value. -/
structure FoldsExactly (value key : JsString) : Prop where
  address : ∀ ns, Address value ns → ¬Exempt ns → key = prefixText ns
  dotted : ∀ address, Dotted value address → key = address
  otherwise : (∀ ns, Address value ns → Exempt ns) → (∀ address, ¬Dotted value address) →
    key = value

/-- An address outside `::/64` that begins with a double colon, or eight groups with a double colon
that stands for none. -/
def Missed (value : JsString) : Prop := ∃ host ns, Encloses value host ∧ ¬Exempt ns ∧
  (IsIpv6 host ns ∧ host.take 2 = lit "::" ∨ Overfull host ns ∧ host.take 2 ≠ lit "::")

/-! ## Pieces of a text -/

variable {c : UInt16}

theorem digitValue_lt (h : isHex c = true) : SafeUrl.digitValue c < 16 := by
  simp only [isHex, isDecimal, Bool.or_eq_true, Bool.and_eq_true, decide_eq_true_eq] at h
  rw [SafeUrl.digitValue]
  split_ifs <;> omega

variable {s : JsString}

theorem parseInt_lt (h : s.all isHex = true) : parseInt s 16 < 16 ^ s.length := by
  induction s using reverseRecOn with
  | nil => decide
  | append_singleton s c ih =>
    rw [all_append, Bool.and_eq_true, all_cons, all_nil, Bool.and_true] at h
    have hvalue := digitValue_lt h.2
    have hs := ih h.1
    rw [parseInt_append_singleton, length_append, length_singleton, pow_succ]
    omega

theorem IsPiece.lt {n : ℕ} (h : IsPiece s n) : n < 65536 := by
  rw [← h.value]
  exact (parseInt_lt h.digits).trans_le (Nat.pow_le_pow_right (by decide) h.le)

variable {ts : List JsString} {ns : List ℕ}

theorem Pieces.lt (h : Pieces ts ns) : ∀ n ∈ ns, n < 65536 := by
  intro n hn
  obtain ⟨i, hi, rfl⟩ := getElem_of_mem hn
  exact (h.get (h.length_eq.symm ▸ hi) hi).lt

theorem Ending.lt (h : Ending ts ns) : ∀ n ∈ ns, n < 65536 := by
  rcases h with h | ⟨before, last, ms, tail, rfl, rfl, hbefore, hquad⟩
  · exact h.lt
  · obtain ⟨high, low, rfl, -, hhigh, hlow⟩ := hquad.exists_tail
    intro n hn
    rcases mem_append.mp hn with hn | hn
    · exact hbefore.lt n hn
    · rcases mem_pair.mp hn with rfl | rfl
      · exact hhigh
      · exact hlow

variable {limit : ℕ}

theorem Spells.lt (h : Spells limit s ns) : ∀ n ∈ ns, n < 65536 := by
  cases h with
  | full h _ => exact h.lt
  | doubled h _ =>
    obtain ⟨l, r, rfl, hl, hr⟩ := h
    intro n hn
    rcases mem_append.mp hn with hn | hn
    · rcases mem_append.mp hn with hn | hn
      · exact hl.lt n hn
      · rw [eq_of_mem_replicate hn]
        decide
    · exact hr.lt n hn

/-! ## The text of a prefix -/

theorem not_mem_colon_toHex (n : ℕ) : unit ':' ∉ toHex n := by
  intro hmem
  exact absurd (all_eq_true.mp (all_isLowerHex_toHex n) _ hmem) (by decide)

theorem pieces_map_toHex (h : ∀ n ∈ ns, n < 65536) : Pieces (ns.map toHex) ns := by
  rw [Pieces, forall₂_map_left_iff, forall₂_same]
  exact fun n hn => isPiece_toHex (h n hn)

theorem mem_prefixPieces {n : ℕ} (h : n ∈ prefixPieces ns) : n ∈ ns := by
  rw [prefixPieces] at h
  split_ifs at h <;> exact mem_of_mem_take h

theorem length_prefixPieces (h : ns.length = 8) :
    (prefixPieces ns).length = if ns.headD 0 = 0x2002 then 3 else 4 := by
  rw [prefixPieces]
  split_ifs <;> rw [length_take, h] <;> rfl

theorem prefixPieces_ne_nil (h : ns.length = 8) : prefixPieces ns ≠ [] := by
  intro hnil
  have hlen := length_prefixPieces h
  rw [hnil] at hlen
  split_ifs at hlen

theorem doubled_prefixText (hlen : ns.length = 8) (h : ∀ n ∈ ns, n < 65536) :
    Doubled (prefixText ns) (prefixPieces ns) [] := by
  have hpieces := pieces_map_toHex fun n hn => h n (@mem_prefixPieces ns n hn)
  have hne : (prefixPieces ns).map toHex ≠ [] := by
    rw [ne_eq, map_eq_nil_iff]
    exact prefixPieces_ne_nil hlen
  refine ⟨_, [], rfl, ?_, .inl .nil⟩
  have hcolon : ∀ p ∈ (prefixPieces ns).map toHex, unit ':' ∉ p := by
    intro p hp
    obtain ⟨n, -, rfl⟩ := mem_map.mp hp
    exact not_mem_colon_toHex n
  have hsplit := split_intercalate hne hcolon
  have hjoin : [unit ':'].intercalate ((prefixPieces ns).map toHex) ≠ [] := by
    intro hnil
    rw [hnil] at hsplit
    exact hpieces.not_mem_nil (hsplit ▸ mem_singleton.mpr rfl)
  rw [groupsOf_of_ne_nil hjoin, hsplit]
  exact hpieces

/-- Two prefixes are written alike where they are the same. -/
theorem prefixText_eq_iff {ns' : List ℕ} (hlen : ns.length = 8) (hlen' : ns'.length = 8)
    (h : ∀ n ∈ ns, n < 65536) (h' : ∀ n ∈ ns', n < 65536) :
    prefixText ns = prefixText ns' ↔ prefixPieces ns = prefixPieces ns' := by
  constructor
  · intro heq
    have hdoubled := doubled_prefixText hlen' h'
    rw [← heq] at hdoubled
    exact ((doubled_prefixText hlen h).unique hdoubled).1
  · intro heq
    rw [prefixText, prefixText, heq]

theorem exists_eight (h : ns.length = 8) : ∃ a b c d rest, ns = a :: b :: c :: d :: rest := by
  match ns, h with
  | a :: b :: c :: d :: rest, _ => exact ⟨a, b, c, d, rest, rfl⟩

theorem length_toHex_le {n : ℕ} (h : n < 65536) : (toHex n).length ≤ 4 :=
  (isGroup_iff.mp (isGroup_toHex h)).2.1

theorem length_prefixText_le (hlen : ns.length = 8) (h : ∀ n ∈ ns, n < 65536) :
    (prefixText ns).length ≤ 21 := by
  obtain ⟨a, b, c, d, rest, rfl⟩ := exists_eight hlen
  have ha := length_toHex_le (h a (by simp))
  have hb := length_toHex_le (h b (by simp))
  have hc := length_toHex_le (h c (by simp))
  have hd := length_toHex_le (h d (by simp))
  have htwo : (lit "::").length = 2 := rfl
  rw [prefixText, prefixPieces]
  split_ifs <;>
    simp only [take_succ_cons, take_zero, map_cons, map_nil,
      intercalate_cons_cons, intercalate_singleton, length_append,
      length_singleton, htwo] <;>
    omega

theorem toHex_eq_iff {m n : ℕ} (hs : toHex m = s) : toHex n = s ↔ n = m := by
  rw [← hs]
  exact ⟨toHex_injective, congrArg toHex⟩

theorem allocationPrefix_eq {groups : List JsString} (hlen : ns.length = 8)
    (h : groups.take 4 = (ns.take 4).map toHex) :
    allocationPrefix groups = if Exempt ns then none else some (prefixText ns) := by
  obtain ⟨a, b, c, d, rest, rfl⟩ := exists_eight hlen
  obtain ⟨tail, rfl⟩ : ∃ tail, groups = toHex a :: toHex b :: toHex c :: toHex d :: tail :=
    ⟨groups.drop 4, by rw [← take_append_drop 4 groups, h]; rfl⟩
  have hzero : ∀ n, toHex n = lit "0" ↔ n = 0 := fun n => toHex_eq_iff rfl
  have hnat64 : toHex a = lit "64" ↔ a = 0x64 := toHex_eq_iff rfl
  have hnat64' : toHex b = lit "ff9b" ↔ b = 0xff9b := toHex_eq_iff rfl
  have hteredo : toHex a = lit "2001" ↔ a = 0x2001 := toHex_eq_iff rfl
  have hsixToFour : toHex a = lit "2002" ↔ a = 0x2002 := toHex_eq_iff rfl
  have hcolon : lit ":" = [unit ':'] := rfl
  have htext : prefixText (a :: b :: c :: d :: rest) = if a = 0x2002 then
      toHex a ++ lit ":" ++ toHex b ++ lit ":" ++ toHex c ++ lit "::"
      else toHex a ++ lit ":" ++ toHex b ++ lit ":" ++ toHex c ++ lit ":" ++ toHex d ++
        lit "::" := by
    rw [prefixText, prefixPieces, headD_cons]
    split_ifs <;> simp [intercalate_cons_cons, hcolon]
  rw [htext]
  simp only [allocationPrefix, getD_cons_zero, getD_cons_succ, hzero, hnat64, hnat64',
    hteredo, hsixToFour, parseInt_toHex, Exempt, take_succ_cons, take_zero,
    cons.injEq, and_true, headD_cons]
  rw [ite_or, ite_or, ite_or]
  split_ifs <;> rfl

/-! ## Brackets -/

theorem not_mem_of_isAddressUnit (h : ∀ c ∈ s, SafeUrl.isAddressUnit c = true)
    (hc : SafeUrl.isAddressUnit c = false) : c ∉ s :=
  fun hmem => absurd (h c hmem) (by rw [hc]; exact Bool.false_ne_true)

theorem unbracket_bare {value : JsString} (h : value.head? ≠ some (unit '[')) :
    unbracket value = some value :=
  if_neg h

/-- What stands between brackets is the host, unless something else than a port follows. -/
theorem unbracket_bracketed {host : JsString} (h : unit ']' ∉ host) (suffix : JsString) :
    unbracket (unit '[' :: (host ++ unit ']' :: suffix)) =
      if suffix ≠ [] ∧ ¬(suffix.head? = some (unit ':') ∧ isPort (suffix.drop 1) = true) then none
      else some host := by
  have hmem : unit ']' ∈ unit '[' :: (host ++ unit ']' :: suffix) := by simp
  have hinside : (host ++ unit ']' :: suffix).takeWhile (· ≠ unit ']') = host := by
    rw [takeWhile_append_of_pos fun c hc => decide_eq_true (ne_of_mem_of_not_mem hc h),
      takeWhile_cons_of_neg (by simp), append_nil]
  have hafter : (host ++ unit ']' :: suffix).drop (host.length + 1) = suffix := by
    rw [drop_append, drop_eq_nil_of_le (Nat.le_succ _), Nat.add_sub_cancel_left]
    rfl
  rw [unbracket, head?_cons, if_pos rfl, if_neg (not_not.mpr hmem)]
  simp only [drop_succ_cons, drop_zero, hinside, hafter]

theorem encloses_of_unbracket {value host : JsString} (h : unbracket value = some host) :
    Encloses value host := by
  by_cases hopen : value.head? = some (unit '[')
  · obtain ⟨rest, rfl⟩ := head?_eq_some_iff.mp hopen
    by_cases hclose : unit ']' ∈ rest
    · obtain ⟨inner, suffix, rfl, hinner⟩ := eq_append_cons_of_mem hclose
      rw [unbracket_bracketed hinner] at h
      split_ifs at h with hsuffix
      cases h
      rw [not_and_or, not_not, not_not] at hsuffix
      rcases hsuffix with rfl | ⟨hhead, hport⟩
      · exact .bracketed hinner
      · obtain ⟨port, rfl⟩ := head?_eq_some_iff.mp hhead
        exact .bracketedPort hinner hport
    · have hnone : unit ']' ∉ unit '[' :: rest := by
        rw [mem_cons, not_or]
        exact ⟨by decide, hclose⟩
      rw [unbracket, if_pos hopen, if_pos hnone] at h
      cases h
  · rw [unbracket_bare hopen] at h
    cases h
    exact .bare value

theorem unbracket_of_encloses {value host : JsString} (h : Encloses value host)
    (hopen : unit '[' ∉ host) : unbracket value = some host := by
  cases h with
  | bare => exact unbracket_bare fun hhead => hopen (List.mem_of_mem_head? hhead)
  | bracketed hclose =>
    rw [unbracket_bracketed hclose]
    exact if_neg fun h => h.1 rfl
  | bracketedPort hclose hport =>
    rw [unbracket_bracketed hclose]
    exact if_neg fun h => h.2 ⟨rfl, hport⟩

/-! ## Leading zeros -/

/-- Groups of zeros. -/
def Zeros (zs : List JsString) : Prop := ∀ z ∈ zs, z ≠ [] ∧ ∀ c ∈ z, c = unit '0'

theorem parseInt_zeros (n : ℕ) : parseInt (List.replicate n (unit '0')) 16 = 0 := by
  induction n with
  | zero => rfl
  | succ n ih =>
    rw [replicate_succ', parseInt_append_singleton, ih]
    rfl

theorem Zeros.parseInt_eq {zs : List JsString} (h : Zeros zs) :
    zs.map (parseInt · 16) = List.replicate zs.length 0 := by
  refine eq_replicate_iff.mpr ⟨length_map _, fun n hn => ?_⟩
  obtain ⟨z, hz, rfl⟩ := mem_map.mp hn
  rw [eq_replicate_of_mem (h z hz).2, parseInt_zeros]

theorem exists_zeros {n : ℕ} {host : JsString} (h : leadsWithZeros n host = true) :
    ∃ zs rest, zs.length = n ∧ Zeros zs ∧
      split (unit ':') host = zs ++ split (unit ':') rest := by
  induction n generalizing host with
  | zero => exact ⟨[], host, rfl, forall_mem_nil _, rfl⟩
  | succ n ih =>
    rw [leadsWithZeros] at h
    simp only [Bool.and_eq_true, decide_eq_true_eq] at h
    obtain ⟨⟨⟨hpos, -⟩, hcolon⟩, hrest⟩ := h
    obtain ⟨zs, rest, hlen, hzeros, hsplit⟩ := ih hrest
    have hleading : ∀ c ∈ host.takeWhile (· = unit '0'), c = unit '0' := by
      intro c hc
      have himp := mem_takeWhile_imp hc
      exact of_decide_eq_true himp
    obtain ⟨tail, htail⟩ := takeWhile_prefix (l := host) (· = unit '0')
    generalize host.takeWhile (· = unit '0') = z at *
    subst htail
    rw [drop_left] at hcolon
    obtain ⟨after, rfl⟩ := head?_eq_some_iff.mp hcolon
    have hnext : (z ++ unit ':' :: after).drop (z.length + 1) = after := by
      rw [← drop_drop, drop_left]
      rfl
    have hz : unit ':' ∉ z := fun hmem => absurd (hleading _ hmem) (by decide)
    rw [hnext] at hsplit
    refine ⟨z :: zs, rest, by rw [length_cons, hlen], ?_, ?_⟩
    · intro t ht
      rcases mem_cons.mp ht with rfl | ht
      · exact ⟨ne_nil_of_length_pos hpos, hleading⟩
      · exact hzeros t ht
    · rw [split_append_cons, split_of_not_mem hz, hsplit]
      rfl

theorem Ending.take (h : Ending ts ns) {k : ℕ} (hk : k < ts.length) :
    Pieces (ts.take k) (ns.take k) := by
  rcases h with h | ⟨before, last, ms, tail, rfl, rfl, hbefore, -⟩
  · exact forall₂_take k h
  · have hle : k ≤ before.length := by
      rw [length_append] at hk
      exact Nat.le_of_lt_succ hk
    rw [take_append_of_le_length hle, take_append_of_le_length (hbefore.length_eq ▸ hle)]
    exact forall₂_take k hbefore

/-- An address that leads with four groups of zeros is exempt. -/
theorem Spells.exempt_of_zeros {host : JsString} (h : Spells 8 host ns)
    (hzeros : leadsWithZeros 4 host = true) : Exempt ns := by
  obtain ⟨zs, rest, hlen, hzeros, hsplit⟩ := exists_zeros hzeros
  have hne : host ≠ [] := by
    rintro rfl
    have hshort := congrArg length hsplit
    rw [length_append, hlen] at hshort
    exact absurd hshort (by simp [split]; omega)
  have hvalues : ∀ ms, Pieces zs ms → ms = [0, 0, 0, 0] := by
    intro ms hms
    rw [← hms.map_parseInt, hzeros.parseInt_eq, hlen]
    rfl
  have hnil : [] ∉ zs := fun hmem => (hzeros _ hmem).1 rfl
  refine .inl ?_
  cases h with
  | full h _ =>
    rw [groupsOf_of_ne_nil hne, hsplit] at h
    have hmore : 4 < (zs ++ split (unit ':') rest).length := by
      have hpos := length_pos_of_ne_nil (split_ne_nil (unit ':') rest)
      rw [length_append]
      omega
    have htake := h.take hmore
    rw [take_append_of_le_length hlen.ge, take_of_length_le hlen.le] at htake
    exact hvalues _ htake
  | @doubled before after h _ =>
    obtain ⟨l, r, rfl, hl, -⟩ := h
    rw [append_cons, split_append_cons, split_append_self] at hsplit
    have hfour : 4 ≤ (split (unit ':') l).length := by
      by_contra hlt
      have hmem : [] ∈ ((split (unit ':') l ++ [[]]) ++ split (unit ':') r).take 4 := by
        rw [append_assoc, take_append, mem_append]
        refine .inr ?_
        obtain ⟨k, hk⟩ : ∃ k, 4 - (split (unit ':') l).length = k + 1 :=
          ⟨3 - (split (unit ':') l).length, by omega⟩
        rw [hk]
        exact (.head _)
      rw [hsplit, take_append_of_le_length hlen.ge, take_of_length_le hlen.le] at hmem
      exact hnil hmem
    have htake : (split (unit ':') l).take 4 = zs := by
      have heq := congrArg (take 4) hsplit
      rwa [append_assoc, take_append_of_le_length hfour,
        take_append_of_le_length hlen.ge, take_of_length_le hlen.le] at heq
    have hlne : l ≠ [] := by
      rintro rfl
      exact absurd hfour (by simp [split])
    rw [groupsOf_of_ne_nil hlne] at hl
    have hcount : 4 ≤ before.length := hl.length_eq ▸ hfour
    have hpieces := forall₂_take 4 hl
    rw [htake] at hpieces
    rw [append_assoc, take_append_of_le_length hcount]
    exact hvalues _ hpieces

/-! ## Dotted addresses -/

theorem asciiLower_of_lt (h : c.toNat < 65) : asciiLower c = c :=
  if_neg fun hupper => by omega

theorem map_asciiLower_of_lt (h : ∀ c ∈ s, c.toNat < 65) : s.map asciiLower = s := by
  rw [map_congr_left fun c hc => asciiLower_of_lt (h c hc)]
  exact map_id' s

/-- A text of digits and marks is its own lowered form. -/
theorem eq_of_lowers {t : JsString} (h : Lowers s t) (hs : ∀ c ∈ s, c.toNat < 65) : t = s := by
  rw [h.eq_map_of_ascii fun c hc => (hs c hc).trans (by decide), map_asciiLower_of_lt hs]

theorem eq_of_lowers' {t : JsString} (h : Lowers s t) (ht : ∀ c ∈ t, c.toNat < 65)
    (hlit : ∀ c ∈ t, isLiteralUnit c = true) : t = s := by
  have hmap := h.eq_map_of_ascii (h.ascii_of_literal hlit)
  refine eq_of_lowers h fun c hc => ?_
  have hlow := ht (asciiLower c) (hmap ▸ mem_map_of_mem hc)
  rw [toNat_asciiLower] at hlow
  split_ifs at hlow <;> omega

/-- The parts of a dotted text with a port. -/
structure Ported (host address port : JsString) : Prop where
  eq : host = address ++ unit ':' :: port
  octets : (split (unit '.') address).length = 4
  digits : ∀ octet ∈ split (unit '.') address, isDigits 3 octet = true
  port : isDigits 5 port = true

theorem isDecimal_of_isDigits {n : ℕ} (h : isDigits n s = true) (hc : c ∈ s) : isDecimal c = true :=
  all_eq_true.mp (isDigits_iff.mp h).2.2 c hc

variable {address port : JsString}

section

variable {host : JsString} (h : Ported host address port)
include h

/-- A dotted text with a port is written with digits, dots and a colon. -/
theorem Ported.unit_of_mem (hc : c ∈ host) : c = unit '.' ∨ c = unit ':' ∨ isDecimal c = true := by
  rw [h.eq] at hc
  rcases mem_append.mp hc with hc | hc
  · rcases mem_split (unit '.') hc with hdot | ⟨octet, hoctet, hmem⟩
    · exact .inl hdot
    · exact .inr (.inr (isDecimal_of_isDigits (h.digits octet hoctet) hmem))
  · rcases mem_cons.mp hc with hcolon | hc
    · exact .inr (.inl hcolon)
    · exact .inr (.inr (isDecimal_of_isDigits h.port hc))

theorem Ported.lt (hc : c ∈ host) : c.toNat < 65 ∧ SafeUrl.isAddressUnit c = true := by
  rcases h.unit_of_mem hc with rfl | rfl | hdecimal
  · decide
  · decide
  · refine ⟨?_, isAddressUnit_of_isHex (SafeUrl.isHex_of_isDecimal hdecimal)⟩
    simp only [isDecimal, Bool.and_eq_true, decide_eq_true_eq] at hdecimal
    omega

theorem Ported.not_mem_colon : unit ':' ∉ address ∧ unit ':' ∉ port := by
  constructor
  · intro hmem
    rcases mem_split (unit '.') hmem with hdot | ⟨octet, hoctet, hcolon⟩
    · cases hdot
    · exact absurd (isDecimal_of_isDigits (h.digits octet hoctet) hcolon) (by decide)
  · intro hmem
    cases isDecimal_of_isDigits h.port hmem

theorem Ported.split_eq : split (unit ':') host = [address, port] := by
  rw [h.eq, split_append_cons, split_of_not_mem h.not_mem_colon.1,
    split_of_not_mem h.not_mem_colon.2]
  rfl

theorem Ported.mem_dot : unit '.' ∈ address := by
  by_contra hno
  have hoctets := h.octets
  rw [split_of_not_mem hno] at hoctets
  cases hoctets

end

theorem withPort_eq_some_iff {host : JsString} {found : JsString × JsString} :
    withPort host = some found ↔ Ported host found.1 found.2 := by
  rw [withPort]
  constructor
  · intro h
    split at h
    · next address port hsplit =>
      obtain ⟨hshape, ⟨⟩⟩ := Option.ite_none_right_eq_some.mp h
      have hjoin := @intercalate_split _ _ (unit ':') host
      rw [hsplit, intercalate_cons_cons, intercalate_singleton, append_assoc]
        at hjoin
      exact ⟨hjoin.symm, hshape.1, all_eq_true.mp hshape.2.1, hshape.2.2⟩
    · cases h
  · intro h
    rw [h.split_eq]
    exact if_pos ⟨h.octets, all_eq_true.mpr h.digits, h.port⟩

theorem isPort_iff : isPort s = true ↔ isDigits 5 s = true ∧
    parseInt s 10 ≤ 65535 := by
  rw [isPort, Bool.and_eq_true, decide_eq_true_iff]

theorem IsIpv4.ported {host : JsString} (h : IsIpv4 address) (hport : isPort port = true)
    (heq : host = address ++ unit ':' :: port) : Ported host address port := by
  obtain ⟨⟨a, b, c, d, hoctets⟩, -⟩ := h
  refine ⟨heq, hoctets.length_eq, fun octet hoctet => ?_, (isPort_iff.mp hport).1⟩
  obtain ⟨i, hi, rfl⟩ := getElem_of_mem hoctet
  exact (hoctets.get hi (hoctets.length_eq ▸ hi)).digits

theorem isDoubtful_eq_false_iff {octet : JsString} : isDoubtful octet = false ↔
    (1 < octet.length → octet.head? ≠ some (unit '0')) ∧ parseInt octet 10 ≤ 255 := by
  simp only [isDoubtful, Bool.or_eq_false_iff, Bool.and_eq_false_iff, decide_eq_false_iff_not,
    not_lt, ne_eq]
  constructor
  · rintro ⟨hlead, hle⟩
    exact ⟨fun hlong => hlead.resolve_left (not_le.mpr hlong), hle⟩
  · rintro ⟨hlead, hle⟩
    refine ⟨?_, hle⟩
    by_cases hlong : 1 < octet.length
    · exact .inr (hlead hlong)
    · exact .inl (not_lt.mp hlong)

theorem isIpv4_iff (hlen : (split (unit '.') address).length = 4)
    (hdigits : ∀ octet ∈ split (unit '.') address, isDigits 3 octet = true) :
    IsIpv4 address ↔ (split (unit '.') address).any isDoubtful = false := by
  rw [any_eq_false]
  simp only [Bool.not_eq_true, isDoubtful_eq_false_iff]
  constructor
  · rintro ⟨⟨a, b, c, d, hoctets⟩, hlead⟩ octet hoctet
    obtain ⟨i, hi, rfl⟩ := getElem_of_mem hoctet
    have hvalue := hoctets.get hi (hoctets.length_eq ▸ hi)
    refine ⟨fun hlong => (hlead _ hoctet).resolve_left hlong.ne', ?_⟩
    exact hvalue.value.trans_le hvalue.le
  · intro h
    have hoctets : List.Forall₂ IsOctet (split (unit '.') address)
        ((split (unit '.') address).map (parseInt · 10)) := by
      rw [forall₂_map_right_iff, forall₂_same]
      exact fun octet hoctet => ⟨hdigits octet hoctet, rfl, (h octet hoctet).2⟩
    refine ⟨?_, fun octet hoctet => ?_⟩
    · generalize split (unit '.') address = parts at hlen hoctets
      match parts, hlen with
      | [_, _, _, _], _ => exact ⟨_, _, _, _, hoctets⟩
    · have hpos := (isDigits_iff.mp (hdigits octet hoctet)).1
      by_cases hone : octet.length = 1
      · exact .inl hone
      · exact .inr ((h octet hoctet).1 (by omega))

theorem Ported.not_spells {host : JsString} (h : Ported host address port) : ¬Spells 8 host ns := by
  intro hspells
  have hsplit := h.split_eq
  have haddress : address ≠ [] := by
    rintro rfl
    cases h.mem_dot
  have hport : port ≠ [] := by
    rintro rfl
    exact absurd (isDigits_iff.mp h.port).1 (by decide)
  cases hspells with
  | full hending hlen =>
    have hne : host ≠ [] := by
      rintro rfl
      exact absurd (congrArg length hsplit) (by simp [split])
    rw [groupsOf_of_ne_nil hne, hsplit] at hending
    rcases hending with hpieces | ⟨before, last, ms, tail, heq, rfl, hbefore, hquad⟩
    · cases hpieces.length_eq.trans hlen
    · obtain ⟨high, low, rfl, -, -, -⟩ := hquad.exists_tail
      have hcount := congrArg length heq
      rw [length_append, hbefore.length_eq] at hcount
      rw [length_append] at hlen
      simp only [length_cons, length_nil] at hcount hlen
      omega
  | doubled hdoubled _ =>
    obtain ⟨l, r, rfl, -, -⟩ := hdoubled
    have hmem : [] ∈ split (unit ':') (l ++ unit ':' :: unit ':' :: r) := by
      rw [append_cons, split_append_cons, split_append_self]
      simp
    rw [hsplit, mem_pair] at hmem
    rcases hmem with hnil | hnil
    · exact haddress hnil.symm
    · exact hport hnil.symm

theorem Ported.not_leads {host : JsString} (h : Ported host address port) :
    leadsWithNothing host = false := by
  have hdot := h.mem_dot
  rw [leadsWithNothing, Bool.or_eq_false_iff, decide_eq_false_iff_not]
  refine ⟨Bool.eq_false_iff.mpr fun hzeros => ?_, fun htake => ?_⟩
  · obtain ⟨zs, rest, hlen, -, hsplit⟩ := exists_zeros hzeros
    have hshort := congrArg length hsplit
    rw [h.split_eq, length_append, hlen] at hshort
    have htwo : ([address, port] : List JsString).length = 2 := rfl
    omega
  · cases address with
    | nil => cases hdot
    | cons c address =>
      rw [h.eq, cons_append] at htake
      have hhead := congrArg head? htake
      rw [head?_take, if_neg (by decide)] at hhead
      exact h.not_mem_colon.1 (Option.some.inj hhead ▸ (.head _))

/-! ## The identity of a value -/

variable {case : CaseMap} {value key host : JsString} {ns : List ℕ} {maxKeyLen : ℕ}

theorem foldToPrefix_eq (case : CaseMap) (h : unbracket value = some host) :
    foldToPrefix case value =
      if unit ':' ∉ host ∨ leadsWithNothing host = true ∨ unit '%' ∈ host then value
      else foldLowered value (case.toLowerCase host) := by
  rw [foldToPrefix, h]
  simp only
  rw [ite_or, ite_or]

theorem Spells.not_mem (h : Spells limit host ns) (hc : SafeUrl.isAddressUnit c = false) :
    c ∉ host :=
  not_mem_of_isAddressUnit (fun _ => h.unit_of_mem) hc

theorem Spells.unbracket_eq (h : Spells limit host ns) (hvalue : Encloses value host) :
    unbracket value = some host :=
  unbracket_of_encloses hvalue (h.not_mem (by decide))

theorem foldToPrefix_of_dotted (case : CaseMap) (h : Dotted value address) :
    foldToPrefix case value = address := by
  obtain ⟨port, hvalue, hipv4, hport⟩ := h
  have hported := hipv4.ported hport rfl
  have hunits : ∀ c, SafeUrl.isAddressUnit c = false → c ∉ address ++ unit ':' :: port :=
    fun c hc => not_mem_of_isAddressUnit (fun _ hmem => (hported.lt hmem).2) hc
  have hlowered := eq_of_lowers (case.lowers _) fun c hc => (hported.lt hc).1
  have hmem : unit ':' ∈ address ++ unit ':' :: port := by simp
  have hdoubtful := (isIpv4_iff hported.octets hported.digits).mp hipv4
  rw [foldToPrefix_eq case (unbracket_of_encloses hvalue (hunits _ (by decide))), if_neg, hlowered,
    foldLowered, withPort_eq_some_iff.mpr (show Ported _ (address, port).1 (address, port).2 from
      hported)]
  · simp only
    rw [if_neg (not_lt.mpr (isPort_iff.mp hport).2), hdoubtful, if_neg Bool.false_ne_true]
  · rw [hported.not_leads]
    rintro (hno | hlead | hzone)
    · exact hno hmem
    · cases hlead
    · exact hunits _ (by decide) hzone

theorem mem_colon_of_spells (h : Spells limit host ns) : unit ':' ∈ host := by
  cases h with
  | full h hlen =>
    by_contra hno
    have hgroups : (groupsOf host).length ≤ 1 := by
      rw [groupsOf]
      split_ifs
      · exact Nat.zero_le 1
      · rw [split_of_not_mem hno]
        rfl
    rcases h with h | ⟨before, last, ms, tail, heq, rfl, hbefore, hquad⟩
    · have hcount := h.length_eq
      omega
    · obtain ⟨high, low, rfl, -, -, -⟩ := hquad.exists_tail
      have hcount := hbefore.length_eq
      rw [heq, length_append] at hgroups
      rw [length_append] at hlen
      simp only [length_cons, length_nil] at hgroups hlen
      omega
  | doubled h _ =>
    obtain ⟨l, r, rfl, -, -⟩ := h
    simp

section

variable (case)

/-- The lowered form of the text of an address is no dotted text with a port. -/
theorem withPort_of_spells (h : Spells 8 host ns) : withPort (case.toLowerCase host) = none := by
  have hlowered := (spells_of_lowers (case.lowers host)).mpr h
  cases hport : withPort (case.toLowerCase host) with
  | none => rfl
  | some found => exact ((withPort_eq_some_iff.mp hport).not_spells hlowered).elim

/-- What the code reads of a lowered text of eight groups. -/
theorem expandIpv6_toLowerCase (h : Spells 8 host ns) :
    ∃ groups, expandIpv6 (case.toLowerCase host) = some groups ∧
      groups.take 4 = (ns.take 4).map toHex := by
  have hascii : ∀ c ∈ host, c.toNat < 128 := by
    intro c hc
    have hunit := SafeUrl.isLiteralUnit_of_isAddressUnit (h.unit_of_mem hc)
    simp only [isLiteralUnit, Bool.or_eq_true, Bool.and_eq_true, decide_eq_true_eq] at hunit
    omega
  refine expandIpv6_of_spells ((spells_of_lowers (case.lowers host)).mpr h) fun c hc => ?_
  rw [(case.lowers host).eq_map_of_ascii hascii] at hc
  obtain ⟨d, -, rfl⟩ := mem_map.mp hc
  rw [← UInt16.toNat_inj, toNat_asciiLower, toNat_asciiLower]
  split_ifs <;> omega

/-- Eight groups outside the exempt prefixes are folded, unless a double colon begins them. -/
theorem foldToPrefix_of_spells (hvalue : Encloses value host) (h : Spells 8 host ns)
    (hexempt : ¬Exempt ns) (hbegin : host.take 2 ≠ lit "::") :
    foldToPrefix case value = prefixText ns := by
  obtain ⟨groups, hgroups, htake⟩ := expandIpv6_toLowerCase case h
  rw [foldToPrefix_eq case (h.unbracket_eq hvalue), if_neg, foldLowered,
    withPort_of_spells case h]
  · simp only
    rw [hgroups, Option.bind_some, allocationPrefix_eq (h.length_eq le_rfl) htake,
      if_neg hexempt]
    rfl
  · rintro (hno | hlead | hzone)
    · exact hno (mem_colon_of_spells h)
    · rw [leadsWithNothing, Bool.or_eq_true, decide_eq_true_iff] at hlead
      rcases hlead with hzeros | htake
      · exact hexempt (h.exempt_of_zeros hzeros)
      · exact hbegin htake
    · exact h.not_mem (by decide) hzone

theorem foldToPrefix_of_begin (h : unbracket value = some host) (hbegin : host.take 2 = lit "::") :
    foldToPrefix case value = value := by
  rw [foldToPrefix_eq case h]
  refine if_pos (.inr (.inl ?_))
  rw [leadsWithNothing, decide_eq_true hbegin, Bool.or_true]

theorem foldToPrefix_cases (value : JsString) :
    (∃ address, Dotted value address ∧ foldToPrefix case value = address) ∨
      (∃ host ns, Encloses value host ∧ Spells 8 host ns ∧ ¬Exempt ns ∧
        host.take 2 ≠ lit "::" ∧ foldToPrefix case value = prefixText ns) ∨
        foldToPrefix case value = value := by
  cases hopen : unbracket value with
  | none =>
    refine .inr (.inr ?_)
    rw [foldToPrefix, hopen]
  | some host =>
    have hvalue := encloses_of_unbracket hopen
    rw [foldToPrefix_eq case hopen]
    by_cases hskip : unit ':' ∉ host ∨ leadsWithNothing host = true ∨ unit '%' ∈ host
    · exact .inr (.inr (if_pos hskip))
    · rw [if_neg hskip, foldLowered]
      cases hport : withPort (case.toLowerCase host) with
      | some found =>
        obtain ⟨address, port⟩ := found
        have hported := withPort_eq_some_iff.mp hport
        have hhost := eq_of_lowers' (case.lowers host) (fun c hc => (hported.lt hc).1)
          fun c hc => SafeUrl.isLiteralUnit_of_isAddressUnit (hported.lt hc).2
        rw [hhost] at hported
        simp only
        split_ifs with hlarge hdoubtful
        · exact .inr (.inr rfl)
        · exact .inr (.inr rfl)
        · refine .inl ⟨address, ⟨port, hported.eq ▸ hvalue, ?_, ?_⟩, rfl⟩
          · exact (isIpv4_iff hported.octets hported.digits).mpr
              (Bool.not_eq_true _ ▸ hdoubtful)
          · exact isPort_iff.mpr ⟨hported.port, not_lt.mp hlarge⟩
      | none =>
        simp only
        cases hgroups : expandIpv6 (case.toLowerCase host) with
        | none => exact .inr (.inr rfl)
        | some groups =>
          obtain ⟨ns, hlowered, htake⟩ := spells_of_expandIpv6 hgroups
          have hspells := (spells_of_lowers (case.lowers host)).mp hlowered
          rw [Option.bind_some, allocationPrefix_eq (hspells.length_eq le_rfl) htake]
          split_ifs with hexempt
          · exact .inr (.inr rfl)
          · refine .inr (.inl ⟨host, ns, hvalue, hspells, hexempt, fun hbegin => ?_, rfl⟩)
            refine hskip (.inr (.inl ?_))
            rw [leadsWithNothing, decide_eq_true hbegin, Bool.or_true]

theorem rateLimitKey_eq (hmax : 21 ≤ maxKeyLen) (hlen : value.length ≤ maxKeyLen) :
    rateLimitKey case maxKeyLen value = foldToPrefix case value := by
  have hfits : (foldToPrefix case value).length ≤ maxKeyLen := by
    rcases foldToPrefix_cases case value with ⟨address, ⟨port, hvalue, -, -⟩, heq⟩ |
      ⟨host, ns, -, hspells, -, -, heq⟩ | heq
    · rw [heq]
      cases hvalue <;>
        simp only [length_append, length_cons, length_nil] at hlen <;> omega
    · rw [heq]
      exact (length_prefixText_le (hspells.length_eq le_rfl) hspells.lt).trans hmax
    · rwa [heq]
  rw [rateLimitKey, take_of_length_le hlen, take_of_length_le hfits]

end

/-! ## The text of a prefix is no other value -/

theorem head?_prefixText (hlen : ns.length = 8) :
    ∃ c, (prefixText ns).head? = some c ∧ isLowerHex c = true := by
  obtain ⟨a, b, c, d, rest, rfl⟩ := exists_eight hlen
  obtain ⟨after, hafter⟩ : ∃ after, prefixText (a :: b :: c :: d :: rest) = toHex a ++ after := by
    rw [prefixText, prefixPieces]
    split_ifs <;>
      simp only [take_succ_cons, map_cons, intercalate_cons_cons,
        append_assoc] <;>
      exact ⟨_, rfl⟩
  have hall := all_isLowerHex_toHex a
  have hpos : 1 ≤ (toHex a).length := by
    rw [length_toHex]
    exact Nat.length_toDigits_pos
  rw [hafter]
  match toHex a, hpos, hall with
  | x :: s, _, hall =>
    rw [all_cons, Bool.and_eq_true] at hall
    exact ⟨x, rfl, hall.1⟩

theorem Encloses.eq_or_head (h : Encloses value host) :
    value = host ∨ value.head? = some (unit '[') := by
  cases h with
  | bare => exact .inl rfl
  | bracketed => exact .inr rfl
  | bracketedPort => exact .inr rfl

theorem Encloses.eq_of_prefixText (h : Encloses (prefixText ns) host) (hlen : ns.length = 8) :
    host = prefixText ns := by
  rcases h.eq_or_head with heq | hopen
  · exact heq.symm
  · obtain ⟨c, hhead, hc⟩ := head?_prefixText hlen
    rw [hhead] at hopen
    rw [Option.some.inj hopen] at hc
    cases hc

theorem prefixText_not_begin (hlen : ns.length = 8) : (prefixText ns).take 2 ≠ lit "::" := by
  intro hbegin
  obtain ⟨c, hhead, hc⟩ := head?_prefixText hlen
  have htake := congrArg head? hbegin
  rw [head?_take, if_neg (by decide), hhead] at htake
  rw [Option.some.inj htake] at hc
  cases hc

theorem not_overfull_prefixText (hlen : ns.length = 8) (h : ∀ n ∈ ns, n < 65536) {ms : List ℕ} :
    ¬Overfull (prefixText ns) ms := by
  rintro ⟨before, after, hdoubled, hcount, -⟩
  obtain ⟨rfl, rfl⟩ := hdoubled.unique (doubled_prefixText hlen h)
  rw [length_prefixPieces hlen, length_nil] at hcount
  split_ifs at hcount <;> omega

/-! ## The claim -/

/-- The host of the text of an address is the one the code finds. -/
theorem Encloses.unique {host' : JsString} {ns' : List ℕ} (h : Encloses value host)
    (h' : Encloses value host') (hspells : Spells 8 host ns) (hspells' : Spells 8 host' ns') :
    host = host' := by
  have hopen := hspells.unbracket_eq h
  rw [hspells'.unbracket_eq h'] at hopen
  exact (Option.some.inj hopen).symm

theorem IsIpv6.spells (h : IsIpv6 host ns) : Spells 8 host ns := spells_eight_iff.mpr (.inl h)

theorem Dotted.not_spells (h : Dotted value address) (hvalue : Encloses value host) :
    ¬Spells 8 host ns := by
  obtain ⟨port, hdotted, hipv4, hport⟩ := h
  intro hspells
  have hported := hipv4.ported hport rfl
  have hopen : unit '[' ∉ address ++ unit ':' :: port :=
    not_mem_of_isAddressUnit (fun _ hmem => (hported.lt hmem).2) (by decide)
  have hsame := unbracket_of_encloses hdotted hopen
  rw [hspells.unbracket_eq hvalue] at hsame
  rw [Option.some.inj hsame] at hspells
  exact hported.not_spells hspells

/-- The code meets the claim where a double colon stands for a group, and begins no address. -/
theorem foldsExactly_foldToPrefix (case : CaseMap) (hmissed : ¬Missed value) :
    FoldsExactly value (foldToPrefix case value) := by
  refine ⟨?_, fun address => foldToPrefix_of_dotted case, ?_⟩
  · rintro ns ⟨host, hvalue, hipv6⟩ hexempt
    refine foldToPrefix_of_spells case hvalue hipv6.spells hexempt fun hbegin => ?_
    exact hmissed ⟨host, ns, hvalue, hexempt, .inl ⟨hipv6, hbegin⟩⟩
  · intro hnone hdotted
    rcases foldToPrefix_cases case value with ⟨address, h, -⟩ |
      ⟨host, ns, hvalue, hspells, hexempt, hbegin, -⟩ | heq
    · exact (hdotted address h).elim
    · rcases spells_eight_iff.mp hspells with hipv6 | hoverfull
      · exact (hexempt (hnone ns ⟨host, hvalue, hipv6⟩)).elim
      · exact (hmissed ⟨host, ns, hvalue, hexempt, .inr ⟨hoverfull, hbegin⟩⟩).elim
    · exact heq

theorem not_foldsExactly_of_missed (case : CaseMap) (hmissed : Missed value) :
    ¬FoldsExactly value (foldToPrefix case value) := by
  obtain ⟨host, ns, hvalue, hexempt, ⟨hipv6, hbegin⟩ | ⟨hoverfull, hbegin⟩⟩ := hmissed
  · intro h
    have hlen := hipv6.spells.length_eq le_rfl
    have hkey := h.address ns ⟨host, hvalue, hipv6⟩ hexempt
    rw [foldToPrefix_of_begin case (hipv6.spells.unbracket_eq hvalue) hbegin] at hkey
    subst hkey
    rw [hvalue.eq_of_prefixText hlen] at hbegin
    exact prefixText_not_begin hlen hbegin
  · intro h
    have hspells := spells_eight_iff.mpr (.inr hoverfull)
    have hlen := hspells.length_eq le_rfl
    have hkey : foldToPrefix case value = value := by
      refine h.otherwise ?_ fun address hdotted => hdotted.not_spells hvalue hspells
      rintro ns' ⟨host', hvalue', hipv6⟩
      obtain rfl := hvalue.unique hvalue' hspells hipv6.spells
      exact (hoverfull.not_isIpv6 hipv6).elim
    rw [foldToPrefix_of_spells case hvalue hspells hexempt hbegin] at hkey
    subst hkey
    rw [hvalue.eq_of_prefixText hlen] at hoverfull
    exact not_overfull_prefixText hlen hspells.lt hoverfull

theorem not_missed_of_address (hvalue : Encloses value host) (hipv6 : IsIpv6 host ns)
    (hbegin : host.take 2 ≠ lit "::") : ¬Missed value := by
  rintro ⟨host', ns', hvalue', -, ⟨hipv6', hbegin'⟩ | ⟨hoverfull, -⟩⟩
  · obtain rfl := hvalue.unique hvalue' hipv6.spells hipv6'.spells
    exact hbegin hbegin'
  · obtain rfl := hvalue.unique hvalue' hipv6.spells (spells_eight_iff.mpr (.inr hoverfull))
    exact hoverfull.not_isIpv6 hipv6

/-- The identities fold exactly the valid addresses, but for an address outside `::/64` that begins
with a double colon and for eight groups with a double colon; elsewhere two addresses have one
identity where they have one prefix. -/
theorem foldsExactly_iff (case : CaseMap) (hmax : 21 ≤ maxKeyLen) :
    (∀ value : JsString, value.length ≤ maxKeyLen →
      (FoldsExactly value (rateLimitKey case maxKeyLen value) ↔ ¬Missed value)) ∧
    ∀ (value value' : JsString) (ns ns' : List ℕ), value.length ≤ maxKeyLen →
      value'.length ≤ maxKeyLen → Address value ns → Address value' ns' → ¬Exempt ns →
        ¬Exempt ns' → ¬Missed value → ¬Missed value' →
          (rateLimitKey case maxKeyLen value = rateLimitKey case maxKeyLen value' ↔
            prefixPieces ns = prefixPieces ns') := by
  constructor
  · intro value hlen
    rw [rateLimitKey_eq case hmax hlen]
    refine ⟨fun h hmissed => ?_, foldsExactly_foldToPrefix case⟩
    exact not_foldsExactly_of_missed case hmissed h
  · intro value value' ns ns' hlen hlen' haddress haddress' hexempt hexempt' hmissed hmissed'
    have hkey := (foldsExactly_foldToPrefix case hmissed).address ns haddress hexempt
    have hkey' := (foldsExactly_foldToPrefix case hmissed').address ns' haddress' hexempt'
    obtain ⟨host, -, hipv6⟩ := haddress
    obtain ⟨host', -, hipv6'⟩ := haddress'
    rw [rateLimitKey_eq case hmax hlen, rateLimitKey_eq case hmax hlen', hkey, hkey']
    exact prefixText_eq_iff (hipv6.spells.length_eq le_rfl) (hipv6'.spells.length_eq le_rfl)
      hipv6.spells.lt hipv6'.spells.lt

theorem isPiece_iff {n : ℕ} : IsPiece s n ↔
    1 ≤ s.length ∧ s.length ≤ 4 ∧ s.all isHex = true ∧ parseInt s 16 = n :=
  ⟨fun h => ⟨h.pos, h.le, h.digits, h.value⟩, fun ⟨hpos, hle, hdigits, hvalue⟩ =>
    ⟨hpos, hle, hdigits, hvalue⟩⟩

instance (s : JsString) (n : ℕ) : Decidable (IsPiece s n) := decidable_of_iff _ isPiece_iff.symm

theorem isIpv6_documented : IsIpv6 (lit "2001:DB8::1") [0x2001, 0xdb8, 0, 0, 0, 0, 0, 1] :=
  @Spells.doubled 7 _ [0x2001, 0xdb8] [1]
    ⟨lit "2001:DB8", lit "1", by decide, by decide, .inl (by decide)⟩ (by decide)

theorem isIpv6_bracketed : IsIpv6 (lit "2001:db8:0:0:5::") [0x2001, 0xdb8, 0, 0, 5, 0, 0, 0] :=
  @Spells.doubled 7 _ [0x2001, 0xdb8, 0, 0, 5] []
    ⟨lit "2001:db8:0:0:5", [], by decide, by decide, .inl .nil⟩ (by decide)

theorem foldsExactly_iff_bracketed :
    FoldsExactly (lit "2001:DB8::1") (rateLimitKey SafeUrl.asciiCase 128 (lit "2001:DB8::1")) ∧
      (rateLimitKey SafeUrl.asciiCase 128 (lit "2001:DB8::1") =
        rateLimitKey SafeUrl.asciiCase 128 (lit "[2001:db8:0:0:5::]:443")) := by
  have hclosed : unit ']' ∉ lit "2001:db8:0:0:5::" := by decide
  have hvalue : Encloses (lit "[2001:db8:0:0:5::]:443") (lit "2001:db8:0:0:5::") :=
    @Encloses.bracketedPort _ (lit "443") hclosed (by decide)
  have hmissed := not_missed_of_address (.bare _) isIpv6_documented (by decide)
  have hmissed' := not_missed_of_address hvalue isIpv6_bracketed (by decide)
  have hboth := @foldsExactly_iff 128 SafeUrl.asciiCase (by decide)
  refine ⟨(hboth.1 _ (by decide)).mpr hmissed, (hboth.2 _ _ _ _ (by decide) (by decide)
    ⟨_, .bare _, isIpv6_documented⟩ ⟨_, hvalue, isIpv6_bracketed⟩ (by decide) (by decide)
    hmissed hmissed').mpr rfl⟩

/-- Eight groups with a double colon land in the bucket of a client, and an address that begins with
a double colon has a bucket of its own. -/
theorem not_foldsExactly_doubleColon :
    ¬FoldsExactly (lit "1:2:3:4::5:6:7:8")
        (rateLimitKey SafeUrl.asciiCase 128 (lit "1:2:3:4::5:6:7:8")) ∧
      ¬FoldsExactly (lit "::2:3:4:5:6:7:8")
        (rateLimitKey SafeUrl.asciiCase 128 (lit "::2:3:4:5:6:7:8")) := by
  constructor
  · rw [rateLimitKey_eq _ (by decide) (by decide)]
    refine not_foldsExactly_of_missed _ ⟨_, [1, 2, 3, 4, 5, 6, 7, 8], .bare _, by decide, .inr ?_⟩
    exact ⟨⟨[1, 2, 3, 4], [5, 6, 7, 8], ⟨lit "1:2:3:4", lit "5:6:7:8", by decide, by decide,
      .inl (by decide)⟩, rfl, rfl⟩, by decide⟩
  · rw [rateLimitKey_eq _ (by decide) (by decide)]
    refine not_foldsExactly_of_missed _ ⟨_, [0, 2, 3, 4, 5, 6, 7, 8], .bare _, by decide, .inl ?_⟩
    exact ⟨@Spells.doubled 7 _ [] [2, 3, 4, 5, 6, 7, 8]
      ⟨[], lit "2:3:4:5:6:7:8", by decide, by decide, .inl (by decide)⟩ (by decide), by decide⟩

end AdapterWs.SlidingWindow
