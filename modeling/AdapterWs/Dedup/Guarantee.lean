import AdapterWs.Dedup.Window

/-!
# What the dedup cache promises

An id inside its window is never dropped: the oldest entries are, and all younger ones are inside
their windows too, so that there would be too many.
-/

namespace AdapterWs.Dedup

open Binary64 JsString List Option JsMap

variable {o : DedupOptions} {seen : Seen} {id id' : JsString} {t t' swept : ℚ} {h h' : History}

/-! ## The oldest entries -/

theorem length_dropOldest_le (max : ℕ) (l : List (JsString × ℚ)) :
    (dropOldest max l).length ≤ max := by
  induction l with
  | nil => exact Nat.zero_le max
  | cons p l ih =>
    rw [dropOldest]
    split_ifs with hmore
    · exact ih
    · exact not_lt.mp hmore

/-- An entry stays if there are not too many from it on. -/
theorem mem_dropOldest {max : ℕ} {p : JsString × ℚ} {before after : List (JsString × ℚ)}
    (hle : after.length + 1 ≤ max) : p ∈ dropOldest max (before ++ p :: after) := by
  induction before with
  | nil =>
    rw [nil_append, dropOldest, if_neg (by omega)]
    exact (.head _)
  | cons q before ih =>
    rw [cons_append, dropOldest]
    split_ifs
    · exact ih
    · exact .tail _ (mem_append_right _ (.head _))

/-! ## The entries of windows -/

/-- The entry of a claim that was granted. -/
def entryOf (o : DedupOptions) (p : JsString × ℚ) : JsString × ℚ := (p.1, nearest (p.2 + o.ttl))

/-- A window that is not cut short. -/
def IsExact (o : DedupOptions) (t : ℚ) : Prop := t + o.ttl ≤ nearest (t + o.ttl)

/-- The claims that were granted and not taken back are in order, and the entries of those inside
their windows are there. -/
structure Tracks (o : DedupOptions) (clock : ℚ) (windows seen : JsMap JsString ℚ) : Prop where
  sorted : windows.entries.Pairwise fun p q => p.2 ≤ q.2
  past : ∀ p ∈ windows.entries, p.2 ≤ clock
  exact : ∀ p ∈ windows.entries, IsExact o p.2
  entries : seen.entries.Sublist (windows.entries.map (entryOf o))
  kept : ∀ p ∈ windows.entries, clock < p.2 + o.ttl → entryOf o p ∈ seen.entries

variable {windows : JsMap JsString ℚ} {clock : ℚ}

theorem Tracks.mono (h : Tracks o clock windows seen) (ht : clock ≤ t) :
    Tracks o t windows seen :=
  ⟨h.sorted, fun p hp => (h.past p hp).trans ht, h.exact, h.entries,
    fun p hp hin => h.kept p hp (ht.trans_lt hin)⟩

theorem eq_of_mem_windows {p q : JsString × ℚ} (hp : p ∈ windows.entries)
    (hq : q ∈ windows.entries) (hid : p.1 = q.1) : p = q := by
  have hget := get_eq_some_iff.mpr (show (p.1, p.2) ∈ windows.entries from hp)
  have hget' := get_eq_some_iff.mpr (show (q.1, q.2) ∈ windows.entries from hq)
  rw [hid, hget'] at hget
  exact Prod.ext hid (some.inj hget).symm

theorem Tracks.filter (h : Tracks o clock windows seen) :
    Tracks o clock windows (seen.filter fun _ expiresAt => !decide (expiresAt ≤ clock)) := by
  refine ⟨h.sorted, h.past, h.exact, filter_sublist.trans h.entries, fun p hp hin => ?_⟩
  refine mem_filter.mpr ⟨h.kept p hp hin, ?_⟩
  simp [entryOf, not_le.mpr (hin.trans_le (h.exact p hp))]

/-- The oldest entries may go, as long as not too many ids are inside their windows. -/
theorem Tracks.evict (h : Tracks o clock windows seen)
    (hsparse : (windows.entries.filter fun p => decide (clock < p.2 + o.ttl)).length ≤
      o.maxEntries) : Tracks o clock windows (Seen.evict o.maxEntries seen) := by
  refine ⟨h.sorted, h.past, h.exact, (dropOldest_sublist _ _).trans h.entries,
    fun p hp hin => ?_⟩
  obtain ⟨before, after, hsplit⟩ := append_of_mem (h.kept p hp hin)
  have hsub : (entryOf o p :: after).Sublist (windows.entries.map (entryOf o)) := by
    refine List.Sublist.trans ?_ h.entries
    rw [hsplit]
    exact sublist_append_right _ _
  obtain ⟨claims, hclaims, hmap⟩ := sublist_map_iff.mp hsub
  cases claims with
  | nil => cases hmap
  | cons q claims =>
    obtain ⟨hq, hafter⟩ := cons.inj hmap
    obtain rfl : q = p := (eq_of_mem_windows (hclaims.subset (.head _)) hp
      (congrArg Prod.fst hq).symm)
    -- what is younger than an id inside its window is inside its own
    have hopen : ∀ r ∈ q :: claims, decide (clock < r.2 + o.ttl) = true := by
      have hsorted := pairwise_cons.mp (h.sorted.sublist hclaims)
      intro r hr
      rw [decide_eq_true_eq]
      rcases mem_cons.mp hr with rfl | hr
      · exact hin
      · exact hin.trans_le (add_le_add_left (hsorted.1 r hr) _)
    have hinside := (hclaims.filter fun r => decide (clock < r.2 + o.ttl)).length_le
    rw [filter_eq_self.mpr hopen, length_cons] at hinside
    have hlength : after.length = claims.length := by rw [hafter, length_map]
    change entryOf o q ∈ dropOldest o.maxEntries seen.entries
    rw [hsplit]
    exact mem_dropOldest (by omega)

theorem Tracks.prune (h : Tracks o clock windows seen)
    (hsparse : (windows.entries.filter fun p => decide (clock < p.2 + o.ttl)).length ≤
      o.maxEntries) : Tracks o clock windows (pruneIfFull o seen clock) := by
  rw [pruneIfFull]
  split_ifs
  · exact h
  · exact h.filter.evict hsparse

theorem entries_claimed (m : JsMap JsString ℚ) (id : JsString) (t : ℚ) :
    ((m.delete id).set id t).entries = (m.delete id).entries ++ [(id, t)] :=
  entries_set_of_get_eq_none (get_delete_self m id) t

theorem entries_take (seen : Seen) (id : JsString) (t : ℚ) :
    (take o seen id t).entries = (seen.delete id).entries ++ [entryOf o (id, t)] := by
  rw [take]
  cases hget : seen.get id with
  | some prev => exact entries_claimed seen id _
  | none =>
    have hsame : (seen.delete id).entries = seen.entries := by
      refine filter_eq_self.mpr fun p hp => ?_
      rw [decide_eq_true_eq]
      rintro rfl
      exact get_eq_none_iff.mp hget (mem_map_of_mem hp)
    rw [hsame]
    exact entries_set_of_get_eq_none hget _

theorem Tracks.delete (h : Tracks o clock windows seen) (id : JsString) :
    Tracks o clock (windows.delete id) (seen.delete id) := by
  have hentries : (map (entryOf o) windows.entries).filter (fun p => decide (p.1 ≠ id)) =
      (windows.delete id).entries.map (entryOf o) := by
    rw [List.filter_map]
    rfl
  refine ⟨h.sorted.sublist filter_sublist, fun p hp => h.past p (mem_of_mem_filter hp),
    fun p hp => h.exact p (mem_of_mem_filter hp), ?_, fun p hp hin => ?_⟩
  · rw [← hentries]
    exact h.entries.filter _
  · obtain ⟨hmem, hne⟩ := mem_filter.mp hp
    exact mem_filter.mpr ⟨h.kept p hmem hin, hne⟩

theorem Tracks.take (h : Tracks o clock windows seen) (hclock : clock ≤ t) (hexact : IsExact o t)
    (id : JsString) : Tracks o t ((windows.delete id).set id t) (take o seen id t) := by
  have hdelete := (h.delete id).mono hclock
  refine ⟨?_, ?_, ?_, ?_, ?_⟩
  · rw [entries_claimed, pairwise_append]
    refine ⟨hdelete.sorted, pairwise_singleton .., fun p hp q hq => ?_⟩
    obtain rfl := mem_singleton.mp hq
    exact hdelete.past p hp
  · rw [entries_claimed]
    intro p hp
    rcases mem_append.mp hp with hp | hp
    · exact hdelete.past p hp
    · rw [mem_singleton.mp hp]
  · rw [entries_claimed]
    intro p hp
    rcases mem_concat.mp hp with hp | rfl
    · exact hdelete.exact p hp
    · exact hexact
  · rw [entries_claimed, entries_take, map_append]
    exact hdelete.entries.append (List.Sublist.refl _)
  · rw [entries_claimed, entries_take]
    intro p hp hin
    rcases mem_concat.mp hp with hp | rfl
    · exact mem_append_left _ (hdelete.kept p hp hin)
    · exact mem_concat_self

theorem Tracks.expire (h : Tracks o clock windows seen) {expiresAt : ℚ}
    (hget : seen.get id = some expiresAt) (hover : expiresAt ≤ clock) :
    Tracks o clock windows (seen.delete id) := by
  refine ⟨h.sorted, h.past, h.exact, filter_sublist.trans h.entries, fun p hp hin => ?_⟩
  refine mem_filter.mpr ⟨h.kept p hp hin, ?_⟩
  rw [decide_eq_true_eq]
  rintro rfl
  have hkept := get_eq_some_iff.mpr (h.kept p hp hin)
  rw [show (entryOf o p).1 = p.1 from rfl] at hget
  cases hget.symm.trans hkept
  exact absurd (hin.trans_le (h.exact p hp)) (not_lt.mpr hover)

/-! ## Sizes -/

/-- The most entries that a claim leaves. -/
def DedupOptions.most (o : DedupOptions) : ℕ := ⌊(11 / 10 : ℚ) * o.maxEntries⌋₊

theorem size_take_le (seen : Seen) (id : JsString) (t : ℚ) :
    (take o seen id t).size ≤ seen.size + 1 := by
  have hlength := congrArg length (entries_take (o := o) seen id t)
  rw [length_append, length_singleton] at hlength
  have hle := size_delete_le seen id
  simp only [size] at hle ⊢
  omega

theorem size_prune_le (hcap : o.threshold < o.most + 1) (seen : Seen) (t : ℚ) :
    (pruneIfFull o seen t).size ≤ o.most := by
  rw [pruneIfFull]
  split_ifs with hsize
  · have hlt : ((seen.size : ℕ) : ℚ) < ((o.most + 1 : ℕ) : ℚ) := by
      push_cast
      exact hsize.trans_lt hcap
    exact Nat.lt_succ_iff.mp (Nat.cast_lt.mp hlt)
  · refine (length_dropOldest_le o.maxEntries _).trans ?_
    rw [DedupOptions.most]
    refine Nat.le_floor ?_
    have hnonneg : (0 : ℚ) ≤ o.maxEntries := Nat.cast_nonneg _
    linarith

/-- The threshold is below the next entry for caps of this size. -/
theorem threshold_lt (hmax : o.maxEntries ≤ 2 ^ 48) : o.threshold < o.most + 1 := by
  have htenth : nearest (11 / 10) = 11 / 10 + 1 / (5 * 2 ^ 51) := by
    have hdouble : nearest (11 / 10) = 2476979795053773 / 2251799813685248 := by decide +kernel
    rw [hdouble]
    norm_num
  have hmost : 11 * o.maxEntries < 10 * (o.most + 1) := by
    have hfloor := Nat.lt_floor_add_one ((11 / 10 : ℚ) * o.maxEntries)
    have hscaled : (11 : ℚ) * o.maxEntries < 10 * (o.most + 1) := by
      rw [DedupOptions.most]
      linarith
    exact_mod_cast hscaled
  have hstep : (11 : ℚ) * o.maxEntries + 1 ≤ 10 * (o.most + 1) := by exact_mod_cast hmost
  have hcast : (o.maxEntries : ℚ) ≤ 281474976710656 := by exact_mod_cast hmax
  have hnonneg : (0 : ℚ) ≤ o.maxEntries := Nat.cast_nonneg _
  rw [DedupOptions.threshold, htenth]
  have hpos : (0 : ℚ) ≤ o.maxEntries * (11 / 10 + 1 / (5 * 2 ^ 51)) := by positivity
  refine (nearest_le hpos).trans_lt ?_
  norm_num only
  linarith

/-! ## The invariant -/

/-- The windows, the sizes, and the last claim of every id. -/
structure Sound (o : DedupOptions) (h : History) : Prop where
  tracks : Tracks o h.clock h.windows h.seen
  size : h.seen.size ≤ o.most
  top : h.seen.size ≤ h.peak
  peak : h.peak ≤ o.most + 1
  last : ∀ later earlier id t, h.log = later ++ .claimed id t :: earlier →
    .deleted id ∉ later → .cleared ∉ later → ∃ t', h.windows.get id = some t' ∧ t ≤ t'
  twice : ∀ later between earlier id t t',
    h.log = later ++ .claimed id t' :: between ++ .claimed id t :: earlier →
    .deleted id ∉ between → .cleared ∉ between → t + o.ttl ≤ t'

theorem split_cons {e : DedupEntry} {log later rest : List DedupEntry} {x : DedupEntry}
    (h : e :: log = later ++ x :: rest) :
    later = [] ∧ e = x ∧ log = rest ∨ ∃ later', later = e :: later' ∧ log = later' ++ x :: rest := by
  cases later with
  | nil =>
    obtain ⟨rfl, rfl⟩ := cons.inj h
    exact .inl ⟨rfl, rfl, rfl⟩
  | cons e' later =>
    obtain ⟨rfl, hrest⟩ := cons.inj h
    exact .inr ⟨later, rfl, hrest⟩

theorem Sound.get_of_inside (h' : Sound o h) (hget : h.windows.get id = some t)
    (hin : h.clock < t + o.ttl) : ∃ expiresAt, h.seen.get id = some expiresAt ∧
      t + o.ttl ≤ expiresAt := by
  have hmem : (id, t) ∈ h.windows.entries := get_eq_some_iff.mp hget
  exact ⟨nearest (t + o.ttl), get_eq_some_iff.mpr (h'.tracks.kept (id, t) hmem hin),
    h'.tracks.exact (id, t) hmem⟩

/-- A claim that is granted, of an id that is not inside its window. -/
theorem Sound.granted (hs : Sound o h) (hcap : o.threshold < o.most + 1) (hclock : h.clock ≤ t)
    (hswept : t ≤ swept) (hexact : IsExact o t)
    (hfree : (h.seen.get id).any (fun prev => decide (t < prev)) = false)
    (hsparse : (((h.windows.delete id).set id t).entries.filter fun p =>
      decide (swept < p.2 + o.ttl)).length ≤ o.maxEntries) :
    Sound o
      { seen := pruneIfFull o (take o h.seen id t) swept
        clock := swept
        windows := (h.windows.delete id).set id t
        peak := max h.peak (take o h.seen id t).size
        log := .claimed id t :: h.log } := by
  have hover : ∀ t₀, h.windows.get id = some t₀ → t₀ + o.ttl ≤ t := by
    intro t₀ hget
    by_contra hin
    rw [not_le] at hin
    obtain ⟨expiresAt, hseen, hle⟩ := hs.get_of_inside hget (hclock.trans_lt hin)
    rw [hseen, any_some, decide_eq_false_iff_not, not_lt] at hfree
    exact absurd (hin.trans_le hle) (not_lt.mpr hfree)
  have hsize := size_prune_le hcap (take o h.seen id t) swept
  have htake := (size_take_le h.seen id t (o := o)).trans (Nat.succ_le_succ hs.size)
  refine ⟨(((hs.tracks.take hclock hexact id).mono hswept).prune hsparse), hsize, ?_, ?_, ?_, ?_⟩
  · refine le_trans ?_ (le_max_right ..)
    rw [pruneIfFull]
    split_ifs
    · exact le_rfl
    · exact (dropOldest_sublist _ _).length_le.trans (length_filter_le ..)
  · exact max_le hs.peak htake
  · intro later earlier id' t' hlog hdeleted hcleared
    rw [get_set]
    rcases split_cons hlog with ⟨-, heq, -⟩ | ⟨later', rfl, hrest⟩
    · obtain ⟨rfl, rfl⟩ := DedupEntry.claimed.inj heq
      exact ⟨t, if_pos rfl, le_rfl⟩
    · rw [mem_cons, not_or] at hdeleted hcleared
      obtain ⟨t₀, hget, hle⟩ := hs.last later' earlier id' t' hrest hdeleted.2 hcleared.2
      by_cases heq : id = id'
      · subst heq
        have hpos := o.ttl_pos
        exact ⟨t, if_pos rfl, by linarith [hover t₀ hget]⟩
      · rw [if_neg heq, get_delete, if_neg heq]
        exact ⟨t₀, hget, hle⟩
  · intro later between earlier id' t' t'' hlog hdeleted hcleared
    rw [append_assoc, cons_append] at hlog
    rcases split_cons hlog with ⟨-, heq, hrest⟩ | ⟨later', -, hrest⟩
    · obtain ⟨rfl, rfl⟩ := DedupEntry.claimed.inj heq
      obtain ⟨t₀, hget, hle⟩ := hs.last between earlier id t' hrest hdeleted hcleared
      exact (add_le_add_left hle _).trans (hover t₀ hget)
    · refine hs.twice later' between earlier id' t' t'' ?_ hdeleted hcleared
      rw [hrest, append_assoc, cons_append]

theorem Sound.wait (hs : Sound o h) (hclock : h.clock ≤ t) : Sound o { h with clock := t } :=
  ⟨hs.tracks.mono hclock, hs.size, hs.top, hs.peak, hs.last, hs.twice⟩

theorem Sound.claim (hs : Sound o h) (hcap : o.threshold < o.most + 1) (hclock : h.clock ≤ t)
    (hswept : t ≤ swept) (hexact : IsExact o t)
    (hsparse : ((h.claim o id t swept).inside o).length ≤ o.maxEntries) :
    Sound o (h.claim o id t swept) := by
  rw [History.claim, Dedup.claim] at hsparse ⊢
  cases hvalid : validateId o id with
  | some e => exact hs.wait hclock
  | none =>
    rw [hvalid] at hsparse
    cases hfree : (h.seen.get id).any fun prev => decide (t < prev) with
    | true =>
      simp only [if_true]
      exact hs.wait hclock
    | false =>
      simp only [hfree, Bool.false_eq_true, if_false] at hsparse ⊢
      exact hs.granted hcap hclock hswept hexact hfree hsparse

theorem Sound.has (hs : Sound o h) (hclock : h.clock ≤ t) (id : JsString) :
    Sound o { h with seen := (Dedup.has o h.seen id t).2, clock := t } := by
  rw [Dedup.has]
  cases validateId o id with
  | some e => exact hs.wait hclock
  | none =>
    cases hget : h.seen.get id with
    | none => exact hs.wait hclock
    | some expiresAt =>
      simp only
      split_ifs with hover
      · have hle := size_delete_le h.seen id
        exact ⟨(hs.tracks.mono hclock).expire hget hover, hle.trans hs.size, hle.trans hs.top,
          hs.peak, hs.last, hs.twice⟩
      · exact hs.wait hclock

/-- An id that is forgotten, whether it is there or not. -/
theorem delete_of_none (hnone : seen.get id = none) : seen.delete id = seen := by
  refine ext (filter_eq_self.mpr fun p hp => ?_)
  rw [decide_eq_true_eq]
  rintro rfl
  exact get_eq_none_iff.mp hnone (mem_map_of_mem hp)

theorem Sound.forget (hs : Sound o h) (hclock : h.clock ≤ t) (id : JsString) :
    Sound o
      { h with
        seen := h.seen.delete id
        clock := t
        windows := h.windows.delete id
        log := .deleted id :: h.log } := by
  have hle := size_delete_le h.seen id
  refine ⟨(hs.tracks.delete id).mono hclock, hle.trans hs.size, hle.trans hs.top, hs.peak, ?_, ?_⟩
  · intro later earlier id' t' hlog hdeleted hcleared
    rcases split_cons hlog with ⟨-, heq, -⟩ | ⟨later', rfl, hrest⟩
    · cases heq
    · rw [mem_cons, not_or] at hdeleted hcleared
      obtain ⟨t₀, hget, hle⟩ := hs.last later' earlier id' t' hrest hdeleted.2 hcleared.2
      have hne : id ≠ id' := fun heq => hdeleted.1 (heq ▸ rfl)
      exact ⟨t₀, by rw [get_delete, if_neg hne]; exact hget, hle⟩
  · intro later between earlier id' t' t'' hlog hdeleted hcleared
    rw [append_assoc, cons_append] at hlog
    rcases split_cons hlog with ⟨-, heq, -⟩ | ⟨later', -, hrest⟩
    · cases heq
    · refine hs.twice later' between earlier id' t' t'' ?_ hdeleted hcleared
      rw [hrest, append_assoc, cons_append]

theorem Sound.delete (hs : Sound o h) (hclock : h.clock ≤ t) (id : JsString) :
    Sound o (h.delete o id t) := by
  rw [History.delete, Dedup.delete]
  cases validateId o id with
  | some e => exact hs.wait hclock
  | none =>
    cases hget : h.seen.get id with
    | none =>
      have hforget := hs.forget hclock id
      rwa [delete_of_none hget] at hforget
    | some expiresAt => exact hs.forget hclock id

theorem tracks_empty (o : DedupOptions) (clock : ℚ) : Tracks o clock .empty .empty :=
  ⟨List.Pairwise.nil, forall_mem_nil _,
    forall_mem_nil _, List.Sublist.refl _,
    forall_mem_nil _⟩

theorem Sound.clear (hs : Sound o h) :
    Sound o { h with seen := .empty, windows := .empty, log := .cleared :: h.log } := by
  refine ⟨tracks_empty o h.clock, Nat.zero_le _, Nat.zero_le _, hs.peak, ?_, ?_⟩
  · intro later earlier id t hlog hdeleted hcleared
    rcases split_cons hlog with ⟨-, heq, -⟩ | ⟨later', rfl, hrest⟩
    · cases heq
    · exact absurd (.head _) hcleared
  · intro later between earlier id t t' hlog hdeleted hcleared
    rw [append_assoc, cons_append] at hlog
    rcases split_cons hlog with ⟨-, heq, -⟩ | ⟨later', -, hrest⟩
    · cases heq
    · refine hs.twice later' between earlier id t t' ?_ hdeleted hcleared
      rw [hrest, append_assoc, cons_append]

/-! ## Runs -/

/-- A claim whose window is not cut short by rounding. -/
def Exact (o : DedupOptions) : DedupEvent → Prop
  | .claim _ t _ => IsExact o t
  | .has _ _ | .delete _ _ | .clear => True

theorem has_eq (o : DedupOptions) (seen : Seen) (id : JsString) (t swept : ℚ) :
    (has o seen id t).1 = (claim o seen id t swept).1.map (!·) := by
  rw [has, claim]
  cases validateId o id with
  | some e => rfl
  | none =>
    cases seen.get id with
    | none => rfl
    | some expiresAt =>
      simp only [any_some]
      by_cases hover : expiresAt ≤ t
      · simp [hover, not_lt.mpr hover, Except.map]
      · simp [hover, not_le.mp hover, Except.map]

theorem claim_of_duplicate (hdup : (claim o seen id t swept).1 = .ok false) :
    (claim o seen id t swept).2 = seen := by
  rw [claim] at hdup ⊢
  cases hvalid : validateId o id with
  | some e => rfl
  | none =>
    rw [hvalid] at hdup
    simp only at hdup ⊢
    split_ifs at hdup ⊢
    · rfl
    · cases hdup

theorem Sound.windowed (hs : Sound o h) : Windowed o h :=
  ⟨hs.twice, has_eq o h.seen, fun _ _ _ => claim_of_duplicate, hs.top, hs.peak⟩

/-- A cache keeps its promises in every run in which there are never too many ids inside their
windows and no window is cut short by rounding. -/
theorem windowed_of_exact (o : DedupOptions) (hcap : o.threshold < o.most + 1) (clock : ℚ)
    {es : List DedupEvent}
    (hrun : (dedupMachine o clock).ReachesWhere (fun h e => Sparse o h e ∧ Exact o e) es h) :
    Windowed o h := by
  have hsound : Sound o h := by
    refine hrun.invariant (I := Sound o) ?_ fun h e h' hs hok hstep => ?_
    · exact ⟨tracks_empty o clock, Nat.zero_le _, le_rfl, Nat.zero_le _,
        fun _ _ _ _ hlog => by simp [dedupMachine] at hlog,
        fun _ _ _ _ _ _ hlog => by simp [dedupMachine] at hlog⟩
    obtain ⟨hsparse, hexact⟩ := hok
    cases e with
    | claim id t swept =>
      have hinside := hsparse h' hstep
      obtain ⟨⟨hclock, hswept⟩, ⟨⟩⟩ := ite_none_right_eq_some.mp hstep
      exact hs.claim hcap hclock hswept hexact hinside
    | has id t =>
      simp only [dedupMachine, ite_none_right_eq_some] at hstep
      obtain ⟨hclock, hstep⟩ := hstep
      exact some.inj hstep ▸ hs.has hclock id
    | delete id t =>
      simp only [dedupMachine, ite_none_right_eq_some] at hstep
      obtain ⟨hclock, hstep⟩ := hstep
      exact some.inj hstep ▸ hs.delete hclock id
    | clear => exact some.inj hstep ▸ hs.clear
  exact hsound.windowed

/-! ## Two windows -/

instance {o : DedupOptions} {h : History} {e : DedupEvent} : Decidable (Sparse o h e) :=
  decidable_of_iff (((dedupMachine o h.clock).step h e).all fun h' =>
    decide ((h'.inside o).length ≤ o.maxEntries)) (by
      rw [Sparse]
      cases (dedupMachine o h.clock).step h e <;> simp)

instance {o : DedupOptions} {e : DedupEvent} : Decidable (Exact o e) :=
  match e with
  | .claim _ t _ => inferInstanceAs (Decidable (t + o.ttl ≤ nearest (t + o.ttl)))
  | .has _ _ | .delete _ _ | .clear => isTrue trivial

theorem second_pos : (0 : ℚ) < 1000 := by norm_num

/-- Two ids, and a window of a second. -/
def secondOptions : DedupOptions :=
  ⟨1000, 2, 256, second_pos, Nat.two_pos, Nat.succ_pos 255⟩

/-- Claims of two ids, the first of which is taken back once. -/
def secondRun : List DedupEvent :=
  [.claim (lit "a") 0 0, .claim (lit "a") 5 5, .claim (lit "b") 10 10, .delete (lit "a") 12,
    .claim (lit "a") 20 20, .has (lit "a") 30, .claim (lit "a") 1020 1025]

theorem windowed_of_exact_secondRun :
    ∃ h, (dedupMachine secondOptions 0).ReachesWhere
        (fun h e => Sparse secondOptions h e ∧ Exact secondOptions e) secondRun h ∧
      h.log = [.claimed (lit "a") 1020, .claimed (lit "a") 20, .deleted (lit "a"),
        .claimed (lit "b") 10, .claimed (lit "a") 0] ∧ Windowed secondOptions h := by
  obtain ⟨h, hrun, hlog⟩ : ∃ h, (dedupMachine secondOptions 0).ReachesWhere (fun h e =>
      Sparse secondOptions h e ∧ Exact secondOptions e) secondRun h ∧ h.log =
      [.claimed (lit "a") 1020, .claimed (lit "a") 20, .deleted (lit "a"), .claimed (lit "b") 10,
      .claimed (lit "a") 0] :=
    Machine.exists_of_execWhere (by decide +kernel)
  exact ⟨h, hrun, hlog, windowed_of_exact secondOptions
    (threshold_lt (by decide +kernel)) 0 hrun⟩

theorem short_pos : (0 : ℚ) < 1 / 1048576 := by norm_num

/-- A window that no reading of the clock is inside of. -/
def shortOptions : DedupOptions :=
  ⟨1 / 1048576, 2, 256, short_pos, Nat.two_pos, Nat.succ_pos 255⟩

/-- Two claims of an id in one millisecond. -/
def sameTime : List DedupEvent :=
  [.claim (lit "a") 1700000000000 1700000000000, .claim (lit "a") 1700000000000 1700000000000]

/-- The sum is rounded to the reading of the clock, and both claims are granted. -/
theorem not_windowed_sameTime :
    ∃ h, (dedupMachine shortOptions 1700000000000).ReachesWhere (Sparse shortOptions) sameTime h ∧
      h.log = [.claimed (lit "a") 1700000000000, .claimed (lit "a") 1700000000000] ∧
      ¬Windowed shortOptions h := by
  obtain ⟨h, hrun, hlog⟩ : ∃ h, (dedupMachine shortOptions 1700000000000).ReachesWhere
      (Sparse shortOptions) sameTime h ∧ h.log = [.claimed (lit "a") 1700000000000,
      .claimed (lit "a") 1700000000000] :=
    Machine.exists_of_execWhere (by decide +kernel)
  refine ⟨h, hrun, hlog, fun hwindowed => ?_⟩
  have htwice := hwindowed.twice [] [] [] (lit "a") 1700000000000 1700000000000 hlog
    not_mem_nil not_mem_nil
  exact absurd htwice (not_le.mpr (lt_add_of_pos_right _ shortOptions.ttl_pos))

end AdapterWs.Dedup
