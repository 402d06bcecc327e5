import Mathlib.Data.List.DropRight
import Mathlib.Data.UInt

/-!
# Strings of UTF-16 code units

A JavaScript string is a list of 16-bit code units, lone surrogates included. `toLowerCase`
needs the Unicode tables, so that it is a parameter: `CaseMap` carries a function and what the
standard says about it here, that an ASCII unit is lowered alone and that no other text becomes
one of the units an address literal is written in.
-/

namespace AdapterWs

open List

/-- A string of UTF-16 code units. -/
abbrev JsString := List UInt16

namespace JsString

/-- The code unit of a character of the basic plane. -/
def unit (c : Char) : UInt16 := UInt16.ofNat c.toNat

/-- A string literal. -/
def lit (s : String) : JsString := s.toList.map unit

/-! ## Splitting -/

section Split

variable {α : Type} [DecidableEq α] {sep x : α} (s a b : List α)

/-- `s.split(sep)` for a separator of one unit. -/
def split (sep : α) : List α → List (List α)
  | [] => [[]]
  | c :: s => if c = sep then [] :: split sep s else (split sep s).modifyHead (c :: ·)

/-- `s.split(sep)` for a separator of one unit, twice. -/
def splitDouble (sep : α) : List α → List (List α)
  | [] => [[]]
  | [c] => [[c]]
  | c :: d :: s =>
    if c = sep ∧ d = sep then [] :: splitDouble sep s
    else (splitDouble sep (d :: s)).modifyHead (c :: ·)

theorem split_ne_nil (sep : α) (s : List α) : split sep s ≠ [] := by
  induction s with
  | nil => simp [split]
  | cons c s ih =>
    rw [split]
    split_ifs
    · simp
    · simpa using ih

theorem mem_of_mem_split {s p : List α} (hp : p ∈ split sep s) (hx : x ∈ p) : x ∈ s := by
  induction s generalizing p with
  | nil => exact (mem_singleton.mp hp) ▸ hx
  | cons c s ih =>
    obtain ⟨q, qs, hqs⟩ := exists_cons_of_ne_nil (split_ne_nil sep s)
    rw [split, hqs] at hp
    rw [hqs] at ih
    split_ifs at hp with hc
    · rcases mem_cons.mp hp with rfl | hp
      · cases hx
      · exact .tail _ (ih hp hx)
    · rcases mem_cons.mp hp with rfl | hp
      · rcases mem_cons.mp hx with rfl | hx
        · exact (.head _)
        · exact .tail _ (ih (.head _) hx)
      · exact .tail _ (ih (.tail _ hp) hx)

theorem split_append_self : split sep (s ++ [sep]) = split sep s ++ [[]] := by
  induction s with
  | nil => simp [split]
  | cons c s ih =>
    obtain ⟨p, ps, hps⟩ := exists_cons_of_ne_nil (split_ne_nil sep s)
    rw [cons_append, split, split, ih, hps]
    split_ifs <;> rfl

/-- Splitting commutes with a map that neither makes nor loses separators. -/
theorem split_map (sep : α) (f : α → α) (hf : ∀ c, f c = sep ↔ c = sep) (s : List α) :
    split sep (s.map f) = (split sep s).map (List.map f) := by
  induction s with
  | nil => rfl
  | cons c s ih =>
    obtain ⟨p, ps, hps⟩ := exists_cons_of_ne_nil (split_ne_nil sep s)
    rw [map_cons, split, split, ih, hps]
    by_cases hc : c = sep
    · rw [if_pos ((hf c).mpr hc), if_pos hc]
      rfl
    · rw [if_neg fun h => hc ((hf c).mp h), if_neg hc]
      rfl

theorem split_of_not_mem {s : List α} (h : sep ∉ s) : split sep s = [s] := by
  induction s with
  | nil => rfl
  | cons c s ih =>
    obtain ⟨hc, hs⟩ := ne_and_not_mem_of_not_mem_cons h
    rw [split, if_neg (Ne.symm hc), ih hs]
    rfl

theorem splitDouble_of_not_mem {s : List α} (h : sep ∉ s) : splitDouble sep s = [s] := by
  induction s using splitDouble.induct sep with
  | case1 => rfl
  | case2 c => rfl
  | case3 c d s hsep ih => exact absurd (hsep.1 ▸ (.head _)) h
  | case4 c d s hsep ih =>
    rw [splitDouble, if_neg hsep, ih fun hmem => h (.tail _ hmem)]
    rfl

theorem splitDouble_ne_nil (sep : α) (s : List α) : splitDouble sep s ≠ [] := by
  induction s using splitDouble.induct sep with
  | case1 => simp [splitDouble]
  | case2 c => simp [splitDouble]
  | case3 c d s h ih => simp [splitDouble, h]
  | case4 c d s h ih => simpa [splitDouble, h] using ih

theorem splitDouble_map (sep : α) (f : α → α) (hf : ∀ c, f c = sep ↔ c = sep) (s : List α) :
    splitDouble sep (s.map f) = (splitDouble sep s).map (List.map f) := by
  induction s using splitDouble.induct sep with
  | case1 => rfl
  | case2 c => rfl
  | case3 c d s h ih =>
    rw [map_cons, map_cons, splitDouble, splitDouble, if_pos h,
      if_pos ⟨(hf c).mpr h.1, (hf d).mpr h.2⟩, ih]
    rfl
  | case4 c d s h ih =>
    obtain ⟨p, ps, hps⟩ := exists_cons_of_ne_nil (splitDouble_ne_nil sep (d :: s))
    rw [map_cons] at ih
    rw [map_cons, map_cons, splitDouble, splitDouble, if_neg h,
      if_neg fun h' => h ⟨(hf c).mp h'.1, (hf d).mp h'.2⟩, ih, hps]
    rfl

/-- The parts of two strings with a separator between them. -/
theorem split_append_cons : split sep (a ++ sep :: b) = split sep a ++ split sep b := by
  induction a with
  | nil => simp [split]
  | cons c a ih =>
    obtain ⟨p, ps, hps⟩ := exists_cons_of_ne_nil (split_ne_nil sep a)
    rw [cons_append, split, split, ih, hps]
    split_ifs <;> rfl

/-- A join of parts without the separator splits into them. -/
theorem split_intercalate {parts : List (List α)} (hne : parts ≠ [])
    (h : ∀ p ∈ parts, sep ∉ p) : split sep ([sep].intercalate parts) = parts := by
  induction parts with
  | nil => exact absurd rfl hne
  | cons p parts ih =>
    have hp := split_of_not_mem (h p (.head _))
    cases parts with
    | nil => rw [intercalate_singleton, hp]
    | cons q parts =>
      rw [intercalate_cons_cons, append_assoc, singleton_append,
        split_append_cons, hp, ih (cons_ne_nil _ _) fun p hp => h p (.tail _ hp)]
      rfl

/-- The parts of a string with a separator between them are the string. -/
theorem intercalate_split : [sep].intercalate (split sep s) = s := by
  induction s with
  | nil => rfl
  | cons c s ih =>
    obtain ⟨p, ps, hps⟩ := exists_cons_of_ne_nil (split_ne_nil sep s)
    rw [hps] at ih
    rw [split, hps, ← ih]
    split_ifs with hc
    · rw [intercalate_cons_cons, hc]
      rfl
    · cases ps <;> simp [intercalate_cons_cons]

theorem splitDouble_cons_of_ne {c : α} (hc : c ≠ sep) (s : List α) :
    splitDouble sep (c :: s) = (splitDouble sep s).modifyHead (c :: ·) := by
  cases s with
  | nil => rfl
  | cons d s => rw [splitDouble, if_neg fun h => hc h.1]

/-- A text without the separator stays before the first part. -/
theorem splitDouble_append_of_not_mem {t : List α} (ht : sep ∉ t) (s : List α) :
    splitDouble sep (t ++ s) = (splitDouble sep s).modifyHead (t ++ ·) := by
  obtain ⟨p, ps, hps⟩ := exists_cons_of_ne_nil (splitDouble_ne_nil sep s)
  induction t with
  | nil => rw [nil_append, hps]; rfl
  | cons c t ih =>
    obtain ⟨hc, ht⟩ := ne_and_not_mem_of_not_mem_cons ht
    rw [cons_append, splitDouble_cons_of_ne hc.symm, ih ht, hps]
    rfl

/-- A text whose parts are not empty stays before the first part. -/
theorem splitDouble_append_of_parts {l : List α} (hl : [] ∉ split sep l) (s : List α) :
    splitDouble sep (l ++ s) = (splitDouble sep s).modifyHead (l ++ ·) := by
  obtain ⟨p, ps, hps⟩ := exists_cons_of_ne_nil (splitDouble_ne_nil sep s)
  induction hlen : l.length using Nat.strong_induction_on generalizing l with
  | _ n ih =>
    by_cases hmem : sep ∈ l
    · obtain ⟨t, rest, rfl, ht⟩ := eq_append_cons_of_mem hmem
      rw [split_append_cons] at hl
      have hrest : [] ∉ split sep rest := fun h => hl (mem_append_right _ h)
      cases rest with
      | nil => exact absurd (.head _) hrest
      | cons d rest =>
        have hd : d ≠ sep := by
          rintro rfl
          rw [split, if_pos rfl] at hrest
          exact hrest (.head _)
        have hshort : (d :: rest).length < n := by
          rw [← hlen, length_append, length_cons (a := sep)]
          omega
        have hih := ih _ hshort hrest rfl
        rw [append_assoc, splitDouble_append_of_not_mem ht, cons_append,
          cons_append, splitDouble, if_neg fun h => hd h.2, ← cons_append, hih, hps]
        simp
    · rw [splitDouble_append_of_not_mem hmem]

/-- A text whose parts are not empty has no doubled separator. -/
theorem splitDouble_of_parts {l : List α} (hl : [] ∉ split sep l) : splitDouble sep l = [l] := by
  have happend := splitDouble_append_of_parts hl []
  rwa [append_nil, splitDouble, modifyHead_cons, append_nil] at happend

/-- The parts of a string with a doubled separator between them are the string. -/
theorem intercalate_splitDouble : [sep, sep].intercalate (splitDouble sep s) = s := by
  induction s using splitDouble.induct sep with
  | case1 => rfl
  | case2 c => simp [splitDouble]
  | case3 c d s h ih =>
    obtain ⟨p, ps, hps⟩ := exists_cons_of_ne_nil (splitDouble_ne_nil sep s)
    rw [splitDouble, if_pos h, hps, intercalate_cons_cons, ← hps, ih, h.1, h.2]
    rfl
  | case4 c d s h ih =>
    obtain ⟨p, ps, hps⟩ := exists_cons_of_ne_nil (splitDouble_ne_nil sep (d :: s))
    rw [hps] at ih
    rw [splitDouble, if_neg h, hps, modifyHead_cons, ← ih]
    cases ps <;> simp [intercalate_cons_cons]

omit [DecidableEq α] in
/-- A unit of a join is one of the separator or lies in a part. -/
theorem mem_of_mem_intercalate {seps : List α} {parts : List (List α)}
    (hx : x ∈ seps.intercalate parts) : x ∈ seps ∨ ∃ p ∈ parts, x ∈ p := by
  induction parts with
  | nil => cases hx
  | cons p parts ih =>
    cases parts with
    | nil => exact .inr ⟨p, .head _, by rwa [intercalate_singleton] at hx⟩
    | cons q parts =>
      rw [intercalate_cons_cons, mem_append, mem_append] at hx
      rcases hx with (hx | hx) | hx
      · exact .inr ⟨p, .head _, hx⟩
      · exact .inl hx
      · rcases ih hx with hx | ⟨p, hp, hxp⟩
        · exact .inl hx
        · exact .inr ⟨p, .tail _ hp, hxp⟩

/-- A unit of the string is the separator or lies in a part. -/
theorem mem_split (sep : α) {s : List α} (hx : x ∈ s) : x = sep ∨ ∃ p ∈ split sep s, x ∈ p := by
  have hjoin : [sep].intercalate (split sep s) = s := intercalate_split s
  rw [← hjoin] at hx
  exact (mem_of_mem_intercalate hx).imp_left mem_singleton.mp

theorem mem_splitDouble (sep : α) {s : List α} (hx : x ∈ s) :
    x = sep ∨ ∃ p ∈ splitDouble sep s, x ∈ p := by
  have hjoin : [sep, sep].intercalate (splitDouble sep s) = s := intercalate_splitDouble s
  rw [← hjoin] at hx
  exact (mem_of_mem_intercalate hx).imp_left fun h => by simpa using h

theorem rtakeWhile_of_not_mem {s : List α} (h : sep ∉ s) : s.rtakeWhile (· ≠ sep) = s := by
  refine rtakeWhile_eq_self_iff.mpr fun c hc => ?_
  exact decide_eq_true fun heq => h (heq ▸ hc)

theorem rtakeWhile_append_cons : (a ++ sep :: b).rtakeWhile (· ≠ sep) = b.rtakeWhile (· ≠ sep) := by
  induction b using reverseRecOn with
  | nil => exact rtakeWhile_concat_neg _ _ _ (by simp)
  | append_singleton b c ih =>
    rw [← cons_append, ← append_assoc, rtakeWhile_concat, rtakeWhile_concat,
      ih]

theorem rdropWhile_append_cons :
    (a ++ sep :: b).rdropWhile (· ≠ sep) = a ++ sep :: b.rdropWhile (· ≠ sep) := by
  induction b using reverseRecOn with
  | nil => exact rdropWhile_concat_neg _ _ _ (by simp)
  | append_singleton b c ih =>
    rw [← cons_append, ← append_assoc, rdropWhile_concat, rdropWhile_concat,
      ih]
    split_ifs
    · rfl
    · simp

/-- The last part of a string, and what takes its place. -/
theorem exists_split_last (sep : α) (s : List α) : ∃ parts,
    split sep s = parts ++ [s.rtakeWhile (· ≠ sep)] ∧
      ∀ t, split sep (s.rdropWhile (· ≠ sep) ++ t) = parts ++ split sep t := by
  by_cases hmem : sep ∈ s
  · obtain ⟨b, a, hrev, hb⟩ := eq_append_cons_of_mem (mem_reverse.mpr hmem)
    have hs : s = a.reverse ++ sep :: b.reverse := by
      rw [← reverse_reverse s, hrev]
      simp
    have hlast : sep ∉ b.reverse := fun h => hb (mem_reverse.mp h)
    have hdrop : b.reverse.rdropWhile (· ≠ sep) = [] := by
      refine rdropWhile_eq_nil_iff.mpr fun c hc => ?_
      exact decide_eq_true fun heq => hlast (heq ▸ hc)
    refine ⟨split sep a.reverse, ?_, fun t => ?_⟩
    · rw [hs, split_append_cons, rtakeWhile_append_cons, split_of_not_mem hlast,
        rtakeWhile_of_not_mem hlast]
    · rw [hs, rdropWhile_append_cons, hdrop, append_assoc, singleton_append,
        split_append_cons]
  · refine ⟨[], ?_, fun t => ?_⟩
    · rw [split_of_not_mem hmem, rtakeWhile_of_not_mem hmem]
      rfl
    · have hdrop : s.rdropWhile (· ≠ sep) = [] := by
        refine rdropWhile_eq_nil_iff.mpr fun c hc => ?_
        exact decide_eq_true fun heq => hmem (heq ▸ hc)
      rw [hdrop]
      rfl

end Split

/-! ## Lower case -/

/-- The lower case of an ASCII unit. -/
def asciiLower (c : UInt16) : UInt16 := if 65 ≤ c.toNat ∧ c.toNat ≤ 90 then c + 32 else c

theorem toNat_asciiLower (c : UInt16) :
    (asciiLower c).toNat = if 65 ≤ c.toNat ∧ c.toNat ≤ 90 then c.toNat + 32 else c.toNat := by
  unfold asciiLower
  split_ifs with h
  · rw [UInt16.toNat_add]
    change (c.toNat + 32) % 65536 = c.toNat + 32
    omega
  · rfl

/-- The units address literals are written in: hexadecimal digits, `x`, and `.` `:` `[` `]` `%`. -/
def isLiteralUnit (c : UInt16) : Bool :=
  (48 ≤ c.toNat && c.toNat ≤ 58) || (65 ≤ c.toNat && c.toNat ≤ 70) ||
    (97 ≤ c.toNat && c.toNat ≤ 102) || c.toNat = 88 || c.toNat = 120 || c.toNat = 46 ||
      c.toNat = 91 || c.toNat = 93 || c.toNat = 37

/-- What `toLowerCase` makes of a string: an ASCII unit is lowered alone, and a piece of other
text becomes a piece of text without a literal unit. -/
inductive Lowers : JsString → JsString → Prop
  | nil : Lowers [] []
  | ascii {c : UInt16} {s t : JsString} (hc : c.toNat < 128) (h : Lowers s t) :
      Lowers (c :: s) (asciiLower c :: t)
  | other {u v s t : JsString} (hu : u ≠ []) (hunits : ∀ c ∈ u, 128 ≤ c.toNat) (hv : v ≠ [])
      (hout : ∀ c ∈ v, isLiteralUnit c = false) (h : Lowers s t) : Lowers (u ++ s) (v ++ t)

/-- `String.prototype.toLowerCase` over some Unicode tables. -/
structure CaseMap where
  /-- The function. -/
  toLowerCase : JsString → JsString
  /-- It lowers ASCII units alone and makes no literal unit of other text. -/
  lowers : ∀ s, Lowers s (toLowerCase s)

namespace Lowers

variable {s t : JsString}

theorem eq_map_of_ascii (h : Lowers s t) (hs : ∀ c ∈ s, c.toNat < 128) : t = s.map asciiLower := by
  induction h with
  | nil => rfl
  | ascii _ _ ih => rw [map_cons, ih fun c hc => hs c (.tail _ hc)]
  | @other u v s t hu hunits hv hout h ih =>
    obtain ⟨c, u, rfl⟩ := exists_cons_of_ne_nil hu
    have hlow := hs c (by simp)
    have hhigh := hunits c (by simp)
    omega

/-- A string whose lowered form has literal units only is ASCII. -/
theorem ascii_of_literal (h : Lowers s t) (ht : ∀ c ∈ t, isLiteralUnit c = true) :
    ∀ c ∈ s, c.toNat < 128 := by
  induction h with
  | nil => exact fun c hc => absurd hc (by simp)
  | ascii hc _ ih =>
    intro x hx
    rcases mem_cons.mp hx with rfl | hx
    · exact hc
    · exact ih (fun y hy => ht y (.tail _ hy)) x hx
  | @other u v s t hu hunits hv hout h ih =>
    obtain ⟨c, v, rfl⟩ := exists_cons_of_ne_nil hv
    have hlit := ht c (by simp)
    rw [hout c (by simp)] at hlit
    cases hlit

/-- Only the empty string is lowered to the empty string, and it only to itself. -/
theorem eq_nil_iff (h : Lowers s t) : s = [] ↔ t = [] := by
  cases h with
  | nil => simp
  | ascii => simp
  | other hu _ hv _ _ => simp [hu, hv]

/-- The text after an ASCII unit is lowered for itself. -/
theorem of_cons {c : UInt16} (hc : c.toNat < 128) (h : Lowers (c :: s) t) :
    ∃ t', t = asciiLower c :: t' ∧ Lowers s t' := by
  generalize hw : c :: s = w at h
  cases h with
  | nil => cases hw
  | ascii _ h =>
    obtain ⟨rfl, rfl⟩ := cons.inj hw
    exact ⟨_, rfl, h⟩
  | other hu hunits _ _ _ =>
    obtain ⟨e, u, rfl⟩ := exists_cons_of_ne_nil hu
    obtain ⟨rfl, -⟩ := cons.inj hw
    have hhigh := hunits c (.head _)
    omega

/-- A literal unit at the head of the lowered form is the first unit of the string, lowered. -/
theorem to_cons {d : UInt16} (hd : isLiteralUnit d = true) (h : Lowers s (d :: t)) :
    ∃ c s', s = c :: s' ∧ c.toNat < 128 ∧ asciiLower c = d ∧ Lowers s' t := by
  generalize hw : d :: t = w at h
  cases h with
  | nil => cases hw
  | @ascii c s w hc h =>
    obtain ⟨rfl, rfl⟩ := cons.inj hw
    exact ⟨c, s, rfl, hc, rfl, h⟩
  | other _ _ hv hout _ =>
    obtain ⟨e, v, rfl⟩ := exists_cons_of_ne_nil hv
    obtain ⟨rfl, -⟩ := cons.inj hw
    rw [hout d mem_cons_self] at hd
    cases hd

theorem append {s' t' : JsString} (h : Lowers s t) (h' : Lowers s' t') :
    Lowers (s ++ s') (t ++ t') := by
  induction h with
  | nil => exact h'
  | ascii hc _ ih => exact .ascii hc ih
  | other hu hunits hv hout _ ih =>
    rw [append_assoc, append_assoc]
    exact .other hu hunits hv hout ih

/-- Text is lowered from the end as from the start. -/
theorem reverse (h : Lowers s t) : Lowers s.reverse t.reverse := by
  induction h with
  | nil => exact .nil
  | ascii hc _ ih =>
    rw [reverse_cons, reverse_cons]
    exact ih.append (.ascii hc .nil)
  | @other u v _ _ hu hunits hv hout _ ih =>
    have hpiece : Lowers (u.reverse ++ []) (v.reverse ++ []) :=
      .other (by simpa using hu) (by simpa using hunits) (by simpa using hv) (by simpa using hout)
        .nil
    rw [append_nil, append_nil] at hpiece
    rw [reverse_append, reverse_append]
    exact ih.append hpiece

/-- The text before an ASCII unit is lowered for itself. -/
theorem of_append_singleton {c : UInt16} (hc : c.toNat < 128) (h : Lowers (s ++ [c]) t) :
    ∃ t', t = t' ++ [asciiLower c] ∧ Lowers s t' := by
  have hreverse := h.reverse
  rw [reverse_concat] at hreverse
  obtain ⟨t', ht, hs⟩ := of_cons hc hreverse
  refine ⟨t'.reverse, ?_, by simpa using hs.reverse⟩
  rw [← t.reverse_reverse, ht, reverse_cons]

/-- A literal unit at the end of the lowered form is the last unit of the string, lowered. -/
theorem to_append_singleton {d : UInt16} (hd : isLiteralUnit d = true)
    (h : Lowers s (t ++ [d])) :
    ∃ s' c, s = s' ++ [c] ∧ c.toNat < 128 ∧ asciiLower c = d ∧ Lowers s' t := by
  have hreverse := h.reverse
  rw [reverse_concat] at hreverse
  obtain ⟨c, s', hs, hc, hlow, ht⟩ := to_cons hd hreverse
  refine ⟨s'.reverse, c, ?_, hc, hlow, by simpa using ht.reverse⟩
  rw [← s.reverse_reverse, hs, reverse_cons]

/-- The text before the first of some mark is lowered for itself. -/
theorem takeWhile_ne (mark : UInt16) (hmark : mark.toNat < 128) (hlit : isLiteralUnit mark = true)
    (hsame : ∀ c, asciiLower c = mark ↔ c = mark) (h : Lowers s t) :
    Lowers (s.takeWhile (· ≠ mark)) (t.takeWhile (· ≠ mark)) := by
  induction h with
  | nil => exact .nil
  | @ascii c s t hc h ih =>
    by_cases hm : c = mark
    · rw [takeWhile_cons_of_neg (by simpa using hm),
        takeWhile_cons_of_neg (by simpa using (hsame c).mpr hm)]
      exact .nil
    · rw [takeWhile_cons_of_pos (by simpa using hm),
        takeWhile_cons_of_pos (by simpa using fun h => hm ((hsame c).mp h))]
      exact .ascii hc ih
  | @other u v s t hu hunits hv hout h ih =>
    have hpass : ∀ c ∈ u, decide (c ≠ mark) = true := by
      intro c hc
      rw [decide_eq_true_eq]
      rintro rfl
      have hhigh := hunits c hc
      omega
    have hpass' : ∀ c ∈ v, decide (c ≠ mark) = true := by
      intro c hc
      rw [decide_eq_true_eq]
      rintro rfl
      rw [hout c hc] at hlit
      cases hlit
    rw [takeWhile_append_of_pos hpass, takeWhile_append_of_pos hpass']
    exact .other hu hunits hv hout ih

end Lowers
end JsString
end AdapterWs
