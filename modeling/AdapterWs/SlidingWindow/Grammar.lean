import AdapterWs.SlidingWindow.Identity

/-!
# The text of an IPv6 address

RFC 4291, section 2.2: eight pieces between colons, the last two of which may be written as a
dotted quad; a double colon, once, stands for one or more pieces that are zero.
-/

namespace AdapterWs.SlidingWindow

open JsString List
open SafeUrl (isDecimal isHex parseInt)

/-! ## Hexadecimal text -/

theorem digitValue_digitChar : ∀ d < 16, SafeUrl.digitValue (unit (Nat.digitChar d)) = d ∧
    isLowerHex (unit (Nat.digitChar d)) = true := by
  decide

theorem parseInt_append_singleton (s : JsString) (c : UInt16) (base : ℕ) :
    parseInt (s ++ [c]) base = parseInt s base * base + SafeUrl.digitValue c := by
  rw [parseInt, foldl_append]
  rfl

variable {n : ℕ}

theorem toHex_of_lt (h : n < 16) : toHex n = [unit (Nat.digitChar n)] := by
  rw [toHex, Nat.toDigits_of_lt_base h]
  rfl

theorem toHex_of_le (h : 16 ≤ n) : toHex n = toHex (n / 16) ++ [unit (Nat.digitChar (n % 16))] := by
  rw [toHex, Nat.toDigits_of_base_le (by decide) h, map_append]
  rfl

theorem parseInt_toHex (n : ℕ) : parseInt (toHex n) 16 = n := by
  induction n using Nat.strong_induction_on with
  | _ n ih =>
    by_cases hlt : n < 16
    · rw [toHex_of_lt hlt]
      change 0 * 16 + SafeUrl.digitValue (unit (Nat.digitChar n)) = n
      rw [(digitValue_digitChar n hlt).1, zero_mul, zero_add]
    · rw [toHex_of_le (not_lt.mp hlt), parseInt_append_singleton, ih (n / 16) (by omega),
        (digitValue_digitChar (n % 16) (by omega)).1]
      omega

theorem toHex_injective {m : ℕ} (h : toHex m = toHex n) : m = n := by
  rw [← parseInt_toHex m, h, parseInt_toHex]

theorem all_isLowerHex_toHex (n : ℕ) : (toHex n).all isLowerHex = true := by
  induction n using Nat.strong_induction_on with
  | _ n ih =>
    by_cases hlt : n < 16
    · rw [toHex_of_lt hlt, all_cons, all_nil, Bool.and_true]
      exact (digitValue_digitChar n hlt).2
    · rw [toHex_of_le (not_lt.mp hlt), all_append, ih (n / 16) (by omega), all_cons,
        all_nil, Bool.and_true, Bool.true_and]
      exact (digitValue_digitChar (n % 16) (by omega)).2

theorem length_toHex (n : ℕ) : (toHex n).length = (Nat.toDigits 16 n).length := length_map _

theorem isGroup_toHex (h : n < 65536) : isGroup (toHex n) = true := by
  have hpos : 1 ≤ (toHex n).length := by
    rw [length_toHex]
    exact Nat.length_toDigits_pos
  have hle : (toHex n).length ≤ 4 := by
    rw [length_toHex]
    exact (Nat.length_toDigits_le_iff (by decide) (by decide)).mpr h
  rw [isGroup, all_isLowerHex_toHex, decide_eq_true hpos, decide_eq_true hle]
  rfl

/-! ## Pieces -/

/-- A piece: one to four hexadecimal digits. -/
structure IsPiece (s : JsString) (n : ℕ) : Prop where
  pos : 1 ≤ s.length
  le : s.length ≤ 4
  digits : s.all isHex = true
  value : parseInt s 16 = n

/-- A decimal number of eight bits. -/
structure IsOctet (s : JsString) (n : ℕ) : Prop where
  digits : isDigits 3 s = true
  value : parseInt s 10 = n
  le : n ≤ 255

/-- A dotted quad, and the two pieces it stands for. -/
def IsQuad (s : JsString) (ns : List ℕ) : Prop :=
  ∃ a b c d, List.Forall₂ IsOctet (split (unit '.') s) [a, b, c, d] ∧
    ns = [a * 256 + b, c * 256 + d]

/-- Pieces. -/
abbrev Pieces : List JsString → List ℕ → Prop := List.Forall₂ IsPiece

/-- Pieces, with a dotted quad for the last two of them or without. -/
def Ending (ts : List JsString) (ns : List ℕ) : Prop :=
  Pieces ts ns ∨ ∃ before last ms tail,
    ts = before ++ [last] ∧ ns = ms ++ tail ∧ Pieces before ms ∧ IsQuad last tail

/-- A text with a double colon, the pieces before it and those after it. -/
def Doubled (s : JsString) (before after : List ℕ) : Prop :=
  ∃ l r, s = l ++ unit ':' :: unit ':' :: r ∧
    Pieces (groupsOf l) before ∧ Ending (groupsOf r) after

/-- The eight pieces of a text. A double colon stands for the missing ones, where no more than so
many are written. -/
inductive Spells (limit : ℕ) (s : JsString) : List ℕ → Prop
  | full {ns : List ℕ} (h : Ending (groupsOf s) ns) (hlen : ns.length = 8) : Spells limit s ns
  | doubled {before after : List ℕ} (h : Doubled s before after)
      (hlen : before.length + after.length ≤ limit) : Spells limit s
        (before ++ List.replicate (8 - before.length - after.length) 0 ++ after)

/-- The text of an address: a double colon stands for one piece at least. -/
def IsIpv6 (s : JsString) (ns : List ℕ) : Prop := Spells 7 s ns

/-- Eight pieces, and a double colon that stands for none. -/
def Overfull (s : JsString) (ns : List ℕ) : Prop :=
  ∃ before after, Doubled s before after ∧ before.length + after.length = 8 ∧ ns = before ++ after

/-! ## What a text is written with -/

variable {s : JsString}

theorem IsPiece.ne_nil (h : IsPiece s n) : s ≠ [] := by
  rintro rfl
  cases h.pos

variable {ts : List JsString} {ns : List ℕ}

theorem Pieces.not_mem_nil (h : Pieces ts ns) : [] ∉ ts := by
  induction h with
  | nil => exact List.not_mem_nil
  | cons hpiece _ ih =>
    rw [mem_cons, not_or]
    exact ⟨hpiece.ne_nil.symm, ih⟩

variable {c : UInt16}

theorem isAddressUnit_of_isHex (h : isHex c = true) : SafeUrl.isAddressUnit c = true :=
  SafeUrl.isAddressUnit_of_isPartUnit (SafeUrl.isPartUnit_of_isHex h)

theorem isDigits_iff :
    isDigits n s = true ↔ 1 ≤ s.length ∧ s.length ≤ n ∧ s.all isDecimal = true := by
  rw [isDigits, Bool.and_eq_true, Bool.and_eq_true, decide_eq_true_iff, decide_eq_true_iff,
    and_assoc]

theorem IsOctet.isDecimal (h : IsOctet s n) (hc : c ∈ s) : isDecimal c = true :=
  all_eq_true.mp (isDigits_iff.mp h.digits).2.2 c hc

theorem IsQuad.unit_of_mem (h : IsQuad s ns) (hc : c ∈ s) : c = unit '.' ∨ isDecimal c = true := by
  obtain ⟨a, b, e, d, hoctets, -⟩ := h
  rcases mem_split (unit '.') hc with hdot | ⟨part, hpart, hmem⟩
  · exact .inl hdot
  · obtain ⟨i, hi, rfl⟩ := getElem_of_mem hpart
    exact .inr ((hoctets.get hi (hoctets.length_eq ▸ hi)).isDecimal hmem)

theorem IsQuad.mem_dot (h : IsQuad s ns) : unit '.' ∈ s := by
  by_contra hno
  obtain ⟨a, b, c, d, hoctets, -⟩ := h
  rw [split_of_not_mem hno] at hoctets
  cases hoctets.length_eq

theorem not_isHex_dot : isHex (unit '.') = false := by decide

theorem IsPiece.not_mem_dot (h : IsPiece s n) : unit '.' ∉ s := by
  intro hmem
  exact absurd (all_eq_true.mp h.digits _ hmem) (by rw [not_isHex_dot]; decide)

theorem Ending.not_mem_nil (h : Ending ts ns) : [] ∉ ts := by
  rcases h with h | ⟨before, last, ms, tail, rfl, -, hbefore, hquad⟩
  · exact h.not_mem_nil
  · rw [mem_append, mem_singleton, not_or]
    refine ⟨hbefore.not_mem_nil, ?_⟩
    rintro rfl
    cases hquad.mem_dot

theorem mem_groupsOf (hc : c ∈ s) : c = unit ':' ∨ ∃ t ∈ groupsOf s, c ∈ t := by
  rw [groupsOf, if_neg (ne_nil_of_mem hc)]
  exact mem_split _ hc

variable {t : JsString}

theorem Pieces.isAddressUnit (h : Pieces ts ns) (ht : t ∈ ts) (hc : c ∈ t) :
    SafeUrl.isAddressUnit c = true := by
  obtain ⟨i, hi, rfl⟩ := getElem_of_mem ht
  exact isAddressUnit_of_isHex
    (all_eq_true.mp (h.get hi (h.length_eq ▸ hi)).digits c hc)

theorem Ending.isAddressUnit (h : Ending ts ns) (ht : t ∈ ts) (hc : c ∈ t) :
    SafeUrl.isAddressUnit c = true := by
  rcases h with h | ⟨before, last, ms, tail, rfl, -, hbefore, hquad⟩
  · exact h.isAddressUnit ht hc
  · rcases mem_append.mp ht with ht | ht
    · exact hbefore.isAddressUnit ht hc
    · rw [mem_singleton.mp ht] at hc
      rcases hquad.unit_of_mem hc with rfl | hdecimal
      · decide
      · exact isAddressUnit_of_isHex (SafeUrl.isHex_of_isDecimal hdecimal)

theorem Ending.unit_of_mem (h : Ending (groupsOf s) ns) (hc : c ∈ s) :
    SafeUrl.isAddressUnit c = true := by
  rcases mem_groupsOf hc with rfl | ⟨t, ht, hct⟩
  · decide
  · exact h.isAddressUnit ht hct

variable {limit : ℕ}

/-- A text is written with hexadecimal digits, colons and dots. -/
theorem Spells.unit_of_mem (h : Spells limit s ns) (hc : c ∈ s) :
    SafeUrl.isAddressUnit c = true := by
  cases h with
  | full h _ => exact h.unit_of_mem hc
  | doubled h _ =>
    obtain ⟨l, r, rfl, hl, hr⟩ := h
    rcases mem_append.mp hc with hc | hc
    · exact Ending.unit_of_mem (.inl hl) hc
    · rcases mem_cons.mp hc with rfl | hc
      · decide
      · rcases mem_cons.mp hc with rfl | hc
        · decide
        · exact hr.unit_of_mem hc

/-! ## One reading -/

theorem groupsOf_of_ne_nil (h : s ≠ []) : groupsOf s = split (unit ':') s :=
  if_neg h

theorem splitDouble_of_groups {l : JsString} (h : [] ∉ groupsOf l) (r : JsString) :
    splitDouble (unit ':') (l ++ unit ':' :: unit ':' :: r) = l :: splitDouble (unit ':') r := by
  by_cases hnil : l = []
  · rw [hnil, nil_append, splitDouble, if_pos ⟨rfl, rfl⟩]
  · rw [groupsOf_of_ne_nil hnil] at h
    rw [splitDouble_append_of_parts h, splitDouble, if_pos ⟨rfl, rfl⟩, modifyHead_cons,
      append_nil]

theorem splitDouble_self (h : [] ∉ groupsOf s) : splitDouble (unit ':') s = [s] := by
  by_cases hnil : s = []
  · rw [hnil]
    rfl
  · rw [groupsOf_of_ne_nil hnil] at h
    exact splitDouble_of_parts h

variable {ns' : List ℕ}

theorem Pieces.unique (h : Pieces ts ns) (h' : Pieces ts ns') : ns = ns' := by
  have hunique : Relator.RightUnique IsPiece := fun s m n hm hn => hm.value.symm.trans hn.value
  exact hunique.forall₂ h h'

theorem IsQuad.unique (h : IsQuad s ns) (h' : IsQuad s ns') : ns = ns' := by
  have hunique : Relator.RightUnique IsOctet := fun s m n hm hn => hm.value.symm.trans hn.value
  obtain ⟨a, b, c, d, hoctets, rfl⟩ := h
  obtain ⟨a', b', c', d', hoctets', rfl⟩ := h'
  obtain ⟨rfl, rfl, rfl, rfl⟩ : a = a' ∧ b = b' ∧ c = c' ∧ d = d' := by
    simpa using hunique.forall₂ hoctets hoctets'
  rfl

theorem Pieces.not_quad {before : List JsString} {last : JsString} {tail : List ℕ}
    (h : Pieces (before ++ [last]) ns) (hquad : IsQuad last tail) : False := by
  have hi : before.length < (before ++ [last]).length := by simp
  have hpiece := h.get hi (h.length_eq ▸ hi)
  rw [get_eq_getElem, getElem_concat_length rfl] at hpiece
  exact hpiece.not_mem_dot hquad.mem_dot

theorem Ending.unique (h : Ending ts ns) (h' : Ending ts ns') : ns = ns' := by
  rcases h with h | ⟨before, last, ms, tail, rfl, rfl, hbefore, hquad⟩ <;>
    rcases h' with h' | ⟨before', last', ms', tail', heq, rfl, hbefore', hquad'⟩
  · exact h.unique h'
  · subst heq
    exact (h.not_quad hquad').elim
  · exact (h'.not_quad hquad).elim
  · obtain ⟨rfl, hlast⟩ := append_inj' heq rfl
    obtain rfl := singleton_inj.mp hlast
    rw [hbefore.unique hbefore', hquad.unique hquad']

variable {before after : List ℕ}

theorem Doubled.splitDouble_eq (h : Doubled s before after) :
    ∃ l r, splitDouble (unit ':') s = [l, r] ∧
      Pieces (groupsOf l) before ∧ Ending (groupsOf r) after := by
  obtain ⟨l, r, rfl, hl, hr⟩ := h
  exact ⟨l, r, by rw [splitDouble_of_groups hl.not_mem_nil, splitDouble_self hr.not_mem_nil],
    hl, hr⟩

theorem Doubled.unique {before' after' : List ℕ} (h : Doubled s before after)
    (h' : Doubled s before' after') : before = before' ∧ after = after' := by
  obtain ⟨l, r, hsplit, hl, hr⟩ := h.splitDouble_eq
  obtain ⟨l', r', hsplit', hl', hr'⟩ := h'.splitDouble_eq
  obtain ⟨rfl, rfl⟩ : l = l' ∧ r = r' := by
    simpa using hsplit.symm.trans hsplit'
  exact ⟨hl.unique hl', hr.unique hr'⟩

theorem Doubled.not_ending (h : Doubled s before after) (h' : Ending (groupsOf s) ns) : False := by
  obtain ⟨l, r, hsplit, -, -⟩ := h.splitDouble_eq
  rw [splitDouble_self h'.not_mem_nil] at hsplit
  cases congrArg length hsplit

theorem Spells.unique {m : ℕ} (h : Spells m s ns) (h' : Spells n s ns') : ns = ns' := by
  cases h with
  | full h _ =>
    cases h' with
    | full h' _ => exact h.unique h'
    | doubled h' _ => exact (h'.not_ending h).elim
  | doubled h _ =>
    cases h' with
    | full h' _ => exact (h.not_ending h').elim
    | doubled h' _ =>
      obtain ⟨rfl, rfl⟩ := h.unique h'
      rfl

theorem Overfull.not_isIpv6 (h : Overfull s ns) : ¬IsIpv6 s ns' := by
  obtain ⟨before, after, hdoubled, hlen, -⟩ := h
  intro h'
  cases h' with
  | full h' _ => exact hdoubled.not_ending h'
  | doubled h' hle =>
    obtain ⟨rfl, rfl⟩ := hdoubled.unique h'
    omega

/-- Up to eight pieces beside a double colon: an address, or a double colon that stands for
none. -/
theorem spells_eight_iff : Spells 8 s ns ↔ IsIpv6 s ns ∨ Overfull s ns := by
  constructor
  · intro h
    cases h with
    | full h hlen => exact .inl (.full h hlen)
    | @doubled before after h hle =>
      by_cases hlen : before.length + after.length = 8
      · have hnone : 8 - before.length - after.length = 0 := by omega
        refine .inr ⟨before, after, h, hlen, ?_⟩
        rw [hnone, replicate_zero, append_nil]
      · exact .inl (.doubled h (by omega))
  · rintro (h | ⟨before, after, h, hlen, rfl⟩)
    · cases h with
      | full h hlen => exact .full h hlen
      | doubled h hle => exact .doubled h (hle.trans (by decide))
    · have hnone : 8 - before.length - after.length = 0 := by omega
      have hspells := Spells.doubled h hlen.le
      rwa [hnone, replicate_zero, append_nil] at hspells

theorem Spells.length_eq (h : Spells limit s ns) (hlimit : limit ≤ 8) : ns.length = 8 := by
  cases h with
  | full _ hlen => exact hlen
  | doubled _ hle =>
    rw [length_append, length_append, length_replicate]
    omega

/-! ## Case -/

theorem isPiece_map : IsPiece (s.map asciiLower) n ↔ IsPiece s n := by
  have hdigits := SafeUrl.all_map_asciiLower SafeUrl.isHex_asciiLower s
  constructor
  · intro h
    have hhex := hdigits ▸ h.digits
    exact ⟨length_map asciiLower ▸ h.pos, length_map asciiLower ▸ h.le, hhex,
      SafeUrl.parseInt_map 16 hhex ▸ h.value⟩
  · intro h
    exact ⟨(length_map asciiLower).symm ▸ h.pos, (length_map asciiLower).symm ▸ h.le,
      hdigits.trans h.digits, (SafeUrl.parseInt_map 16 h.digits).trans h.value⟩

theorem pieces_map : Pieces (ts.map (List.map asciiLower)) ns ↔ Pieces ts ns := by
  rw [Pieces, forall₂_map_left_iff]
  simp [isPiece_map]

theorem isDigits_map (n : ℕ) (s : JsString) : isDigits n (s.map asciiLower) = isDigits n s := by
  rw [isDigits, isDigits, length_map,
    SafeUrl.all_map_asciiLower SafeUrl.isDecimal_asciiLower]

theorem isOctet_map : IsOctet (s.map asciiLower) n ↔ IsOctet s n := by
  have hdigits := isDigits_map 3 s
  constructor
  · intro h
    have hdecimal := hdigits ▸ h.digits
    have hhex := SafeUrl.all_isHex_of_isDecimal (isDigits_iff.mp hdecimal).2.2
    exact ⟨hdecimal, SafeUrl.parseInt_map 10 hhex ▸ h.value, h.le⟩
  · intro h
    have hhex := SafeUrl.all_isHex_of_isDecimal (isDigits_iff.mp h.digits).2.2
    exact ⟨hdigits.trans h.digits, (SafeUrl.parseInt_map 10 hhex).trans h.value, h.le⟩

theorem isQuad_map : IsQuad (s.map asciiLower) ns ↔ IsQuad s ns := by
  rw [IsQuad, IsQuad, split_map _ _ (SafeUrl.asciiLower_eq_iff _ (by decide))]
  simp [isOctet_map]

theorem ending_map : Ending (ts.map (List.map asciiLower)) ns ↔ Ending ts ns := by
  constructor
  · rintro (h | ⟨before, last, ms, tail, heq, rfl, hbefore, hquad⟩)
    · exact .inl (pieces_map.mp h)
    · obtain ⟨before', last', rfl, rfl, hlast⟩ := map_eq_append_iff.mp heq
      obtain ⟨last'', rfl, rfl⟩ := map_eq_singleton_iff.mp hlast
      exact .inr ⟨before', last'', ms, tail, rfl, rfl, pieces_map.mp hbefore, isQuad_map.mp hquad⟩
  · rintro (h | ⟨before, last, ms, tail, rfl, rfl, hbefore, hquad⟩)
    · exact .inl (pieces_map.mpr h)
    · exact .inr ⟨before.map (map asciiLower), last.map asciiLower, ms, tail,
        map_append, rfl, pieces_map.mpr hbefore, isQuad_map.mpr hquad⟩

theorem groupsOf_map (s : JsString) :
    groupsOf (s.map asciiLower) = (groupsOf s).map (List.map asciiLower) := by
  rw [groupsOf, groupsOf, split_map _ _ (SafeUrl.asciiLower_eq_iff _ (by decide))]
  simp only [map_eq_nil_iff]
  split <;> rfl

theorem doubled_map : Doubled (s.map asciiLower) before after ↔ Doubled s before after := by
  have hcolon := SafeUrl.asciiLower_eq_iff (unit ':') (by decide)
  constructor
  · rintro ⟨l, r, heq, hl, hr⟩
    obtain ⟨l', rest, rfl, rfl, hrest⟩ := map_eq_append_iff.mp heq
    obtain ⟨c, rest', rfl, hc, hrest'⟩ := map_eq_cons_iff.mp hrest
    obtain ⟨d, r', rfl, hd, rfl⟩ := map_eq_cons_iff.mp hrest'
    rw [groupsOf_map] at hl hr
    rw [(hcolon c).mp hc, (hcolon d).mp hd]
    exact ⟨l', r', rfl, pieces_map.mp hl, ending_map.mp hr⟩
  · rintro ⟨l, r, rfl, hl, hr⟩
    refine ⟨l.map asciiLower, r.map asciiLower, ?_, ?_, ?_⟩
    · simp [(hcolon _).mpr rfl]
    · rw [groupsOf_map]
      exact pieces_map.mpr hl
    · rw [groupsOf_map]
      exact ending_map.mpr hr

theorem spells_map : Spells limit (s.map asciiLower) ns ↔ Spells limit s ns := by
  constructor
  · intro h
    cases h with
    | full h hlen =>
      rw [groupsOf_map] at h
      exact .full (ending_map.mp h) hlen
    | doubled h hle => exact .doubled (doubled_map.mp h) hle
  · intro h
    cases h with
    | full h hlen =>
      refine .full ?_ hlen
      rw [groupsOf_map]
      exact ending_map.mpr h
    | doubled h hle => exact .doubled (doubled_map.mpr h) hle

theorem spells_of_lowers (h : Lowers s t) : Spells limit t ns ↔ Spells limit s ns := by
  have hmap : (∀ c ∈ s, c.toNat < 128) → (Spells limit t ns ↔ Spells limit s ns) := by
    intro hs
    rw [h.eq_map_of_ascii hs, spells_map]
  constructor
  · intro ht
    exact (hmap (h.ascii_of_literal fun c hc =>
      SafeUrl.isLiteralUnit_of_isAddressUnit (ht.unit_of_mem hc))).mp ht
  · intro hs
    refine (hmap fun c hc => ?_).mpr hs
    have hunit := SafeUrl.isLiteralUnit_of_isAddressUnit (hs.unit_of_mem hc)
    simp only [isLiteralUnit, Bool.or_eq_true, Bool.and_eq_true, decide_eq_true_eq] at hunit
    omega

end AdapterWs.SlidingWindow
