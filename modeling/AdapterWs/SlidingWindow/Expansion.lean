import AdapterWs.SlidingWindow.Grammar

/-!
# What `expandIpv6` accepts

It reads the texts of RFC 4291 and those in which a double colon stands for no piece, and nothing
else. A dotted quad is taken out first and two groups `0:0` put in its place, so that the splitter
meets pieces only.
-/

namespace AdapterWs.SlidingWindow

open JsString List Option
open SafeUrl (isDecimal isHex parseInt)

/-! ## Groups and pieces -/

variable {c : UInt16}

theorem isHex_of_isLowerHex (h : isLowerHex c = true) : isHex c = true := by
  simp only [isLowerHex, isHex, isDecimal, Bool.or_eq_true, Bool.and_eq_true,
    decide_eq_true_eq] at h ⊢
  omega

theorem isLowerHex_of_isHex (h : isHex c = true) (hlow : asciiLower c = c) :
    isLowerHex c = true := by
  have hnat := toNat_asciiLower c
  rw [hlow] at hnat
  simp only [isLowerHex, isHex, isDecimal, Bool.or_eq_true, Bool.and_eq_true,
    decide_eq_true_eq] at h ⊢
  split_ifs at hnat <;> omega

variable {s : JsString}

theorem isGroup_iff : isGroup s = true ↔ 1 ≤ s.length ∧ s.length ≤ 4 ∧ s.all isLowerHex = true := by
  rw [isGroup, Bool.and_eq_true, Bool.and_eq_true, decide_eq_true_iff, decide_eq_true_iff,
    and_assoc]

theorem isPiece_of_isGroup (h : isGroup s = true) : IsPiece s (parseInt s 16) := by
  obtain ⟨hpos, hle, hlower⟩ := isGroup_iff.mp h
  refine ⟨hpos, hle, all_eq_true.mpr fun c hc => ?_, rfl⟩
  exact isHex_of_isLowerHex (all_eq_true.mp hlower c hc)

theorem IsPiece.isGroup {n : ℕ} (h : IsPiece s n) (hlow : ∀ c ∈ s, asciiLower c = c) :
    isGroup s = true := by
  refine isGroup_iff.mpr ⟨h.pos, h.le, all_eq_true.mpr fun c hc => ?_⟩
  exact isLowerHex_of_isHex (all_eq_true.mp h.digits c hc) (hlow c hc)

theorem isPiece_toHex {n : ℕ} (h : n < 65536) : IsPiece (toHex n) n := by
  have hpiece := isPiece_of_isGroup (isGroup_toHex h)
  rwa [parseInt_toHex] at hpiece

theorem isPiece_zero : IsPiece (lit "0") 0 := ⟨by decide, by decide, by decide, by decide⟩

variable {groups : List JsString}

theorem pieces_of_isGroup (h : groups.all isGroup = true) :
    Pieces groups (groups.map (parseInt · 16)) := by
  rw [Pieces, forall₂_map_right_iff, forall₂_same]
  exact fun s hs => isPiece_of_isGroup (all_eq_true.mp h s hs)

variable {ts : List JsString} {ns : List ℕ}

theorem Pieces.map_parseInt (h : Pieces ts ns) : ts.map (parseInt · 16) = ns := by
  induction h with
  | nil => rfl
  | cons hpiece _ ih => rw [map_cons, ih, hpiece.value]

theorem Pieces.append {ts' : List JsString} {ns' : List ℕ} (h : Pieces ts ns) (h' : Pieces ts' ns') :
    Pieces (ts ++ ts') (ns ++ ns') :=
  rel_append h h'

theorem pieces_replicate (n : ℕ) : Pieces (List.replicate n (lit "0")) (List.replicate n 0) := by
  induction n with
  | zero => exact .nil
  | succ n ih => exact .cons isPiece_zero ih

/-- The first four groups are written the shortest way. -/
theorem take_normalizeGroups {gs : List JsString} (h : Pieces groups ns) (hlen : ns.length = 8)
    (hgroups : normalizeGroups groups = some gs) : gs.take 4 = (ns.take 4).map toHex := by
  obtain ⟨-, ⟨⟩⟩ := ite_none_right_eq_some.mp hgroups
  have hfour : ((groups.take 4).map fun group => toHex (parseInt group 16)).length = 4 := by
    rw [length_map, length_take, h.length_eq, hlen]
    rfl
  rw [take_append_of_le_length hfour.ge, take_of_length_le hfour.le, ← h.map_parseInt,
    ← List.map_take, List.map_map]
  rfl

theorem normalizeGroups_of_pieces (h : Pieces groups ns) (hlen : ns.length = 8)
    (hall : groups.all isGroup = true) :
    ∃ gs, normalizeGroups groups = some gs ∧ gs.take 4 = (ns.take 4).map toHex := by
  have hsome : normalizeGroups groups = some _ := if_pos hall
  exact ⟨_, hsome, take_normalizeGroups h hlen hsome⟩

theorem all_isGroup_of_normalizeGroups {gs : List JsString} (h : normalizeGroups groups = some gs) :
    groups.all isGroup = true := by
  rw [normalizeGroups] at h
  split_ifs at h with hall
  exact hall

/-! ## The dotted quad -/

theorem octetValue_eq_some_iff {n : ℕ} : octetValue s = some n ↔ IsOctet s n := by
  rw [octetValue]
  constructor
  · intro h
    obtain ⟨hoctet, ⟨⟩⟩ := ite_none_right_eq_some.mp h
    exact ⟨hoctet.1, rfl, hoctet.2⟩
  · intro h
    rw [if_pos ⟨h.digits, h.value ▸ h.le⟩, h.value]

theorem mapM_eq_some_iff {α β : Type} {f : α → Option β} {l : List α} {r : List β} :
    l.mapM f = some r ↔ List.Forall₂ (fun a b => f a = some b) l r := by
  induction l generalizing r with
  | nil =>
    rw [mapM_nil, forall₂_nil_left_iff]
    exact ⟨fun h => (some.inj h).symm, fun h => h ▸ rfl⟩
  | cons a l ih =>
    rw [mapM_cons, forall₂_cons_left_iff]
    constructor
    · intro h
      obtain ⟨b, hb, h⟩ := bind_eq_some_iff.mp h
      obtain ⟨bs, hbs, h⟩ := bind_eq_some_iff.mp h
      exact ⟨b, bs, hb, ih.mp hbs, (some.inj h).symm⟩
    · rintro ⟨b, bs, hb, hbs, rfl⟩
      rw [hb, ih.mpr hbs]
      rfl

theorem octets_value {a b : ℕ} (hb : b ≤ 255) : a <<< 8 ||| b = a * 256 + b := by
  rw [← Nat.shiftLeft_add_eq_or_of_lt (by omega), Nat.shiftLeft_eq]

theorem octets_le {parts : List JsString} {a b c d : ℕ}
    (h : List.Forall₂ IsOctet parts [a, b, c, d]) : a ≤ 255 ∧ b ≤ 255 ∧ c ≤ 255 ∧ d ≤ 255 := by
  obtain _ | ⟨ha, _ | ⟨hb, _ | ⟨hc, _ | ⟨hd, _⟩⟩⟩⟩ := h
  exact ⟨ha.le, hb.le, hc.le, hd.le⟩

theorem mapM_octetValue_iff {parts : List JsString} :
    parts.mapM octetValue = some ns ↔ List.Forall₂ IsOctet parts ns := by
  rw [mapM_eq_some_iff]
  simp [octetValue_eq_some_iff]

/-- An embedded IPv4 address is a quad, and its two groups are written the shortest way. -/
theorem exists_quad {tail : JsString × JsString} (h : tailGroups s = some tail) :
    ∃ high low, IsQuad s [high, low] ∧ tail = (toHex high, toHex low) ∧
      high < 65536 ∧ low < 65536 := by
  rw [tailGroups] at h
  split at h
  · next a b c d hsome =>
    cases h
    have hall := mapM_octetValue_iff.mp hsome
    obtain ⟨ha, hb, hc, hd⟩ := octets_le hall
    refine ⟨a * 256 + b, c * 256 + d, ⟨a, b, c, d, hall, rfl⟩, ?_, by omega, by omega⟩
    rw [octets_value hb, octets_value hd]
  · cases h

theorem IsQuad.exists_tail (h : IsQuad s ns) : ∃ high low,
    ns = [high, low] ∧ tailGroups s = some (toHex high, toHex low) ∧
      high < 65536 ∧ low < 65536 := by
  obtain ⟨a, b, c, d, hall, rfl⟩ := h
  obtain ⟨ha, hb, hc, hd⟩ := octets_le hall
  refine ⟨a * 256 + b, c * 256 + d, rfl, ?_, by omega, by omega⟩
  rw [tailGroups, mapM_octetValue_iff.mpr hall]
  simp [octets_value hb, octets_value hd]

/-! ## The groups of a text of pieces -/

theorem mem_of_mem_groupsOf {t : JsString} (ht : t ∈ groupsOf s) (hc : c ∈ t) : c ∈ s := by
  rw [groupsOf] at ht
  split_ifs at ht
  · cases ht
  · exact mem_of_mem_split ht hc

theorem Pieces.all_isGroup (h : Pieces ts ns) (hlow : ∀ t ∈ ts, ∀ c ∈ t, asciiLower c = c) :
    ts.all isGroup = true := by
  refine all_eq_true.mpr fun t ht => ?_
  obtain ⟨i, hi, rfl⟩ := getElem_of_mem ht
  exact (h.get hi (h.length_eq ▸ hi)).isGroup (hlow _ ht)

theorem all_isGroup_replicate (n : ℕ) : (List.replicate n (lit "0")).all isGroup = true := by
  refine all_eq_true.mpr fun t ht => ?_
  rw [eq_of_mem_replicate ht]
  decide

theorem fillGroups_full {head : JsString} (h : [] ∉ groupsOf head)
    (hlen : (groupsOf head).length = 8) : fillGroups head = some (groupsOf head) := by
  rw [fillGroups, splitDouble_self h]
  exact if_pos hlen

theorem fillGroups_doubled {l r : JsString} (hl : [] ∉ groupsOf l) (hr : [] ∉ groupsOf r)
    (hle : (groupsOf l).length + (groupsOf r).length ≤ 8) :
    fillGroups (l ++ unit ':' :: unit ':' :: r) = some (groupsOf l ++
      List.replicate (8 - (groupsOf l).length - (groupsOf r).length) (lit "0") ++ groupsOf r) := by
  have hcount : ((8 : ℤ) - (groupsOf l).length - (groupsOf r).length).toNat =
      8 - (groupsOf l).length - (groupsOf r).length := by omega
  rw [fillGroups, splitDouble_of_groups hl, splitDouble_self hr]
  simp only
  rw [if_neg (by omega), hcount]

theorem fillGroups_cases {head : JsString} (h : fillGroups head = some groups) :
    groups = groupsOf head ∧ (groupsOf head).length = 8 ∨
      ∃ l r, head = l ++ unit ':' :: unit ':' :: r ∧
        (groupsOf l).length + (groupsOf r).length ≤ 8 ∧ groups = groupsOf l ++
          List.replicate (8 - (groupsOf l).length - (groupsOf r).length) (lit "0") ++
            groupsOf r := by
  have hjoin := @intercalate_splitDouble _ _ (unit ':') head
  rw [fillGroups] at h
  split at h
  · next left hsplit =>
    rw [hsplit, intercalate_singleton] at hjoin
    split_ifs at h with hlen
    exact .inl ⟨hjoin ▸ (some.inj h).symm, hjoin ▸ hlen⟩
  · next left right hsplit =>
    rw [hsplit, intercalate_cons_cons, intercalate_singleton, append_assoc]
      at hjoin
    simp only at h
    split_ifs at h with hmissing
    have hcount : ((8 : ℤ) - (groupsOf left).length - (groupsOf right).length).toNat =
        8 - (groupsOf left).length - (groupsOf right).length := by omega
    refine .inr ⟨left, right, hjoin.symm, by omega, ?_⟩
    rw [← some.inj h, hcount]
  · cases h

/-! ## The last part -/

/-- What comes up to the last colon of a host, and what follows it. -/
abbrev throughLast (host : JsString) : JsString := host.rdropWhile (· ≠ unit ':')

/-- What follows the last colon of a host. -/
abbrev lastPart (host : JsString) : JsString := host.rtakeWhile (· ≠ unit ':')

theorem lastPart_doubled (l r : JsString) :
    lastPart (l ++ unit ':' :: unit ':' :: r) = lastPart r := by
  rw [append_cons, lastPart, rtakeWhile_append_cons]

theorem throughLast_doubled (l r : JsString) :
    throughLast (l ++ unit ':' :: unit ':' :: r) = l ++ unit ':' :: unit ':' :: throughLast r := by
  rw [append_cons, throughLast, rdropWhile_append_cons, ← append_cons]

theorem through_append_last (host : JsString) : throughLast host ++ lastPart host = host :=
  rdropWhile_append_rtakeWhile

theorem groupsOf_zeros (s : JsString) :
    groupsOf (s ++ lit "0:0") = split (unit ':') (s ++ lit "0:0") :=
  groupsOf_of_ne_nil (append_ne_nil_of_right_ne_nil _ (by decide))

variable {before : List JsString}

theorem set_last_two (h : before.length = 6) (p q high low : JsString) :
    ((before ++ [p, q]).set 6 high).set 7 low = before ++ [high, low] := by
  rw [set_append_right _ _ h.le, set_append_right _ _ (by omega), h]
  rfl

variable {host : JsString}

theorem expandIpv6_of_pieces (hdot : unit '.' ∉ lastPart host) :
    expandIpv6 host = (fillGroups host).bind normalizeGroups :=
  if_neg hdot

theorem expandIpv6_of_quad {tail : JsString × JsString} (hdot : unit '.' ∈ lastPart host)
    (htail : tailGroups (lastPart host) = some tail)
    (hfill : fillGroups (throughLast host ++ lit "0:0") = some (before ++ [lit "0", lit "0"]))
    (hlen : before.length = 6) :
    expandIpv6 host = normalizeGroups (before ++ [tail.1, tail.2]) := by
  have hset := set_last_two hlen (lit "0") (lit "0") tail.1 tail.2
  rw [expandIpv6, if_pos hdot, htail, bind_some, hfill, bind_some, hset]

/-- A run ends in a piece or a quad; two groups `0:0` in the place of the quad are pieces. -/
theorem Ending.last_cases (h : Ending (groupsOf s) ns) :
    Pieces (groupsOf s) ns ∧ unit '.' ∉ lastPart s ∨ ∃ before ms tail,
      groupsOf (throughLast s ++ lit "0:0") = before ++ [lit "0", lit "0"] ∧
        (∀ t ∈ before, t ∈ groupsOf s) ∧ (groupsOf s).length = before.length + 1 ∧
          ns = ms ++ tail ∧ Pieces before ms ∧ IsQuad (lastPart s) tail := by
  rcases h with h | ⟨before, last, ms, tail, hgroups, rfl, hbefore, hquad⟩
  · refine .inl ⟨h, fun hdot => ?_⟩
    have hmem : unit '.' ∈ s := (rtakeWhile_suffix _ _).subset hdot
    rcases mem_groupsOf hmem with heq | ⟨t, ht, hdot⟩
    · cases heq
    · obtain ⟨i, hi, rfl⟩ := getElem_of_mem ht
      exact (h.get hi (h.length_eq ▸ hi)).not_mem_dot hdot
  · have hne : s ≠ [] := by
      rintro rfl
      exact absurd (congrArg length hgroups) (by simp [groupsOf])
    obtain ⟨parts, hsplit, happend⟩ := exists_split_last (unit ':') s
    have hparts := hgroups
    rw [groupsOf_of_ne_nil hne, hsplit] at hparts
    obtain ⟨rfl, hlast⟩ := append_inj' hparts rfl
    obtain rfl := singleton_inj.mp hlast
    refine .inr ⟨parts, ms, tail, ?_, fun t ht => ?_, ?_, rfl, hbefore, hquad⟩
    · rw [groupsOf_zeros, happend]
      rfl
    · rw [hgroups]
      exact mem_append_left _ ht
    · rw [hgroups, length_append]
      rfl

/-! ## The two directions -/

/-- Eight pieces are accepted, with a quad for the last two or without. -/
theorem expandIpv6_of_ending (h : Ending (groupsOf host) ns) (hlen : ns.length = 8)
    (hlow : ∀ c ∈ host, asciiLower c = c) :
    ∃ groups, expandIpv6 host = some groups ∧ groups.take 4 = (ns.take 4).map toHex := by
  rcases h.last_cases with ⟨hpieces, hdot⟩ |
    ⟨before, ms, tail, hzeros, hmem, -, rfl, hbefore, hquad⟩
  · have hcount := hpieces.length_eq.trans hlen
    have hall := hpieces.all_isGroup fun t ht c hc => hlow c (mem_of_mem_groupsOf ht hc)
    rw [expandIpv6_of_pieces hdot, fillGroups_full hpieces.not_mem_nil hcount]
    exact normalizeGroups_of_pieces hpieces hlen hall
  · obtain ⟨high, low, rfl, htail, hhigh, hlow'⟩ := hquad.exists_tail
    have hms : ms.length = 6 := by
      rw [length_append] at hlen
      exact Nat.add_right_cancel hlen
    have hcount : before.length = 6 := hbefore.length_eq.trans hms
    have hpieces := hbefore.append (.cons (isPiece_toHex hhigh) (.cons (isPiece_toHex hlow') .nil))
    have hfill : fillGroups (throughLast host ++ lit "0:0") =
        some (before ++ [lit "0", lit "0"]) := by
      have hnil := (hbefore.append (.cons isPiece_zero (.cons isPiece_zero .nil))).not_mem_nil
      rw [← hzeros] at hnil ⊢
      refine fillGroups_full hnil ?_
      rw [hzeros, length_append, hcount]
      rfl
    have hall : (before ++ [toHex high, toHex low]).all isGroup = true := by
      rw [all_append, hbefore.all_isGroup fun t ht c hc =>
        hlow c (mem_of_mem_groupsOf (hmem t ht) hc), all_cons, all_cons,
        isGroup_toHex hhigh, isGroup_toHex hlow']
      rfl
    rw [expandIpv6_of_quad hquad.mem_dot htail hfill hcount]
    exact normalizeGroups_of_pieces hpieces hlen hall

/-- Up to eight pieces beside a double colon are accepted. -/
theorem expandIpv6_of_doubled {bs as : List ℕ} (h : Doubled host bs as)
    (hle : bs.length + as.length ≤ 8) (hlow : ∀ c ∈ host, asciiLower c = c) :
    ∃ groups, expandIpv6 host = some groups ∧ groups.take 4 =
      ((bs ++ List.replicate (8 - bs.length - as.length) 0 ++ as).take 4).map toHex := by
  have hlength := (Spells.doubled h hle).length_eq le_rfl
  obtain ⟨l, r, rfl, hl, hr⟩ := h
  have hlowl : ∀ t ∈ groupsOf l, ∀ c ∈ t, asciiLower c = c := fun t ht c hc =>
    hlow c (mem_append_left _ (mem_of_mem_groupsOf ht hc))
  have hlowr : ∀ t ∈ groupsOf r, ∀ c ∈ t, asciiLower c = c := fun t ht c hc =>
    hlow c (mem_append_right _ (.tail _ (mem_cons_of_mem _
      (mem_of_mem_groupsOf ht hc))))
  rcases hr.last_cases with ⟨hpieces, hdot⟩ |
    ⟨before, ms, tail, hzeros, hmem, -, rfl, hbefore, hquad⟩
  · rw [← lastPart_doubled l r] at hdot
    rw [← hl.length_eq, ← hpieces.length_eq] at hle
    have hall := (hl.append (pieces_replicate (8 - bs.length - as.length))).append hpieces
    rw [expandIpv6_of_pieces hdot, fillGroups_doubled hl.not_mem_nil hpieces.not_mem_nil hle,
      hl.length_eq, hpieces.length_eq]
    refine normalizeGroups_of_pieces hall hlength ?_
    rw [all_append, all_append, hl.all_isGroup hlowl, all_isGroup_replicate,
      hpieces.all_isGroup hlowr]
    rfl
  · obtain ⟨high, low, rfl, htail, hhigh, hlow'⟩ := hquad.exists_tail
    rw [← lastPart_doubled l r] at htail
    have hdot := hquad.mem_dot
    rw [← lastPart_doubled l r] at hdot
    have htwo : (ms ++ [high, low]).length = ms.length + 2 := length_append
    rw [htwo] at hle hlength ⊢
    have hzerosPieces := hbefore.append (.cons isPiece_zero (.cons isPiece_zero .nil))
    have hcount : (before ++ [lit "0", lit "0"]).length = ms.length + 2 := by
      rw [length_append, hbefore.length_eq]
      rfl
    have hfill : fillGroups (throughLast (l ++ unit ':' :: unit ':' :: r) ++ lit "0:0") =
        some (groupsOf l ++ replicate (8 - bs.length - (ms.length + 2)) (lit "0") ++
          before ++ [lit "0", lit "0"]) := by
      rw [← hzeros] at hzerosPieces hcount
      rw [throughLast_doubled, append_assoc, cons_append, cons_append,
        fillGroups_doubled hl.not_mem_nil hzerosPieces.not_mem_nil
          (by rw [hl.length_eq, hcount]; exact hle), hl.length_eq, hcount, hzeros,
        append_assoc _ before]
    have hsix : (groupsOf l ++ replicate (8 - bs.length - (ms.length + 2)) (lit "0") ++
        before).length = 6 := by
      rw [length_append, length_append, length_replicate, hl.length_eq,
        hbefore.length_eq]
      omega
    have hpieces := ((hl.append (pieces_replicate (8 - bs.length - (ms.length + 2)))).append
      hbefore).append (.cons (isPiece_toHex hhigh) (.cons (isPiece_toHex hlow') .nil))
    rw [expandIpv6_of_quad hdot htail hfill hsix]
    rw [append_assoc _ ms] at hpieces
    refine normalizeGroups_of_pieces hpieces hlength ?_
    rw [all_append, all_append, all_append, hl.all_isGroup hlowl,
      all_isGroup_replicate, hbefore.all_isGroup fun t ht => hlowr t (hmem t ht), all_cons,
      all_cons, isGroup_toHex hhigh, isGroup_toHex hlow']
    rfl

/-- A text in lower case is accepted, and its first four groups are written the shortest way. -/
theorem expandIpv6_of_spells (h : Spells 8 host ns) (hlow : ∀ c ∈ host, asciiLower c = c) :
    ∃ groups, expandIpv6 host = some groups ∧ groups.take 4 = (ns.take 4).map toHex := by
  cases h with
  | full h hlen => exact expandIpv6_of_ending h hlen hlow
  | doubled h hle => exact expandIpv6_of_doubled h hle hlow

/-- A run that ends in a quad, from the run that ends in the two groups in its place. -/
theorem Pieces.ending_of_zeros {ms tail : List ℕ} (hbefore : Pieces before ms)
    (hquad : IsQuad (lastPart s) tail)
    (hzeros : groupsOf (throughLast s ++ lit "0:0") = before ++ [lit "0", lit "0"]) :
    Ending (groupsOf s) (ms ++ tail) ∧ (groupsOf s).length = before.length + 1 := by
  have hne : s ≠ [] := by
    rintro rfl
    cases hquad.mem_dot
  obtain ⟨parts, hsplit, happend⟩ := exists_split_last (unit ':') s
  rw [groupsOf_zeros, happend] at hzeros
  obtain ⟨rfl, -⟩ := append_inj' hzeros rfl
  rw [groupsOf_of_ne_nil hne, hsplit]
  exact ⟨.inr ⟨parts, _, ms, tail, rfl, rfl, hbefore, hquad⟩, by rw [length_append]; rfl⟩

/-- A double colon stands before the two groups in the place of the quad. -/
theorem exists_side_of_zeros {l r : JsString}
    (h : throughLast s ++ lit "0:0" = l ++ unit ':' :: unit ':' :: r) : ∃ r',
      s = l ++ unit ':' :: unit ':' :: r' ∧ r = throughLast r' ++ lit "0:0" ∧
        lastPart r' = lastPart s := by
  have hrev := congrArg reverse h
  simp only [reverse_append, reverse_cons, append_assoc, singleton_append]
    at hrev
  obtain ⟨w, rfl⟩ : ∃ w, r = w ++ lit "0:0" := by
    have hzero : unit '0' ≠ unit ':' := by decide
    have hlit : (lit "0:0").reverse = [unit '0', unit ':', unit '0'] := rfl
    rw [hlit] at hrev
    rw [← reverse_reverse r]
    generalize r.reverse = t at hrev ⊢
    match t, hrev with
    | [], hrev => exact absurd (cons.inj hrev).1 hzero
    | [_], hrev => exact absurd (cons.inj (cons.inj (cons.inj hrev).2).2).1 hzero
    | [_, _], hrev => exact absurd (cons.inj (cons.inj (cons.inj hrev).2).2).1 hzero
    | a :: b :: c :: t, hrev =>
      obtain ⟨ha, htail⟩ := cons.inj hrev
      obtain ⟨hb, htail'⟩ := cons.inj htail
      obtain ⟨hc, -⟩ := cons.inj htail'
      refine ⟨t.reverse, ?_⟩
      rw [← ha, ← hb, ← hc, reverse_cons, reverse_cons, reverse_cons]
      simp [lit]
  have hthrough : throughLast s = l ++ unit ':' :: unit ':' :: w := by
    refine append_cancel_right (h.trans ?_)
    simp
  have hs : s = l ++ unit ':' :: unit ':' :: (w ++ lastPart s) := by
    have happend := through_append_last s
    rw [hthrough, append_assoc] at happend
    exact happend.symm
  have hlast := lastPart_doubled l (w ++ lastPart s)
  have hdrop := throughLast_doubled l (w ++ lastPart s)
  rw [← hs] at hlast hdrop
  refine ⟨w ++ lastPart s, hs, ?_, hlast.symm⟩
  rw [hthrough] at hdrop
  have hw := append_cancel_left hdrop
  rw [← (cons.inj (cons.inj hw).2).2]

/-- Only texts of addresses are accepted, and those with a double colon that stands for none. -/
theorem spells_of_expandIpv6 (h : expandIpv6 host = some groups) :
    ∃ ns, Spells 8 host ns ∧ groups.take 4 = (ns.take 4).map toHex := by
  by_cases hdot : unit '.' ∈ lastPart host
  · rw [expandIpv6, if_pos hdot] at h
    obtain ⟨tail, htail, h⟩ := bind_eq_some_iff.mp h
    obtain ⟨filled, hfill, h⟩ := bind_eq_some_iff.mp h
    obtain ⟨high, low, hquad, rfl, hhigh, hlow⟩ := exists_quad htail
    have hgroups := all_isGroup_of_normalizeGroups h
    rcases fillGroups_cases hfill with ⟨rfl, hlen⟩ | ⟨l, r, hhead, hle, rfl⟩
    · obtain ⟨parts, -, happend⟩ := exists_split_last (unit ':') host
      have hzeros : groupsOf (throughLast host ++ lit "0:0") = parts ++ [lit "0", lit "0"] := by
        rw [groupsOf_zeros, happend]
        rfl
      have hsix : parts.length = 6 := by
        rw [hzeros, length_append] at hlen
        exact Nat.add_right_cancel hlen
      rw [hzeros, set_last_two hsix] at h hgroups
      have hparts : Pieces parts (parts.map (parseInt · 16)) := by
        rw [all_append, Bool.and_eq_true] at hgroups
        exact pieces_of_isGroup hgroups.1
      have hcount : (parts.map (parseInt · 16) ++ [high, low]).length = 8 := by
        rw [length_append, length_map, hsix]
        rfl
      refine ⟨_, .full (hparts.ending_of_zeros hquad hzeros).1 hcount, ?_⟩
      exact take_normalizeGroups (hparts.append
        (.cons (isPiece_toHex hhigh) (.cons (isPiece_toHex hlow) .nil))) hcount h
    · obtain ⟨r', rfl, rfl, hlast⟩ := exists_side_of_zeros hhead
      obtain ⟨parts, -, happend⟩ := exists_split_last (unit ':') r'
      have hzeros : groupsOf (throughLast r' ++ lit "0:0") = parts ++ [lit "0", lit "0"] := by
        rw [groupsOf_zeros, happend]
        rfl
      have htwo : (parts ++ [lit "0", lit "0"]).length = parts.length + 2 := length_append
      rw [hzeros, htwo] at hle h hgroups
      have hsix : (groupsOf l ++ replicate (8 - (groupsOf l).length - (parts.length + 2))
          (lit "0") ++ parts).length = 6 := by
        rw [length_append, length_append, length_replicate]
        omega
      rw [← append_assoc _ parts, set_last_two hsix] at h hgroups
      rw [all_append, all_append, all_append] at hgroups
      simp only [Bool.and_eq_true] at hgroups
      have hl := pieces_of_isGroup hgroups.1.1.1
      have hparts := pieces_of_isGroup hgroups.1.2
      have hquad' : IsQuad (lastPart r') [high, low] := by
        rw [hlast]
        exact hquad
      have hending := hparts.ending_of_zeros hquad' hzeros
      have hboth : ((parts.map (parseInt · 16)) ++ [high, low]).length = parts.length + 2 := by
        rw [length_append, length_map]
        rfl
      have hspells := @Spells.doubled 8 _ _ _ ⟨l, r', rfl, hl, hending.1⟩ (by
        rw [hboth, length_map]
        exact hle)
      refine ⟨_, hspells, ?_⟩
      refine take_normalizeGroups ?_ (hspells.length_eq le_rfl) h
      rw [hboth, length_map, ← append_assoc]
      exact ((hl.append (pieces_replicate _)).append hparts).append
        (.cons (isPiece_toHex hhigh) (.cons (isPiece_toHex hlow) .nil))
  · rw [expandIpv6_of_pieces hdot] at h
    obtain ⟨filled, hfill, h⟩ := bind_eq_some_iff.mp h
    have hgroups := all_isGroup_of_normalizeGroups h
    rcases fillGroups_cases hfill with ⟨rfl, hlen⟩ | ⟨l, r, rfl, hle, rfl⟩
    · have hpieces := pieces_of_isGroup hgroups
      have hcount := hpieces.length_eq.symm.trans hlen
      exact ⟨_, .full (.inl hpieces) hcount, take_normalizeGroups hpieces hcount h⟩
    · rw [all_append, all_append] at hgroups
      simp only [Bool.and_eq_true] at hgroups
      have hl := pieces_of_isGroup hgroups.1.1
      have hr := pieces_of_isGroup hgroups.2
      have hspells := @Spells.doubled 8 _ _ _ ⟨l, r, rfl, hl, .inl hr⟩ (by
        rw [length_map, length_map]
        exact hle)
      refine ⟨_, hspells, take_normalizeGroups ?_ (hspells.length_eq le_rfl) h⟩
      rw [length_map, length_map]
      exact (hl.append (pieces_replicate _)).append hr

end AdapterWs.SlidingWindow
