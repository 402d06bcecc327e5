import Mathlib.Data.List.Nodup
import Mathlib.Algebra.Ring.Nat

/-!
# Insertion-ordered maps

A JavaScript `Map` iterates its entries in insertion order, keeps the position of a key that is
set again, and appends a new one. `JsMap` is the list of those entries together with the proof
that no key occurs twice.
-/

namespace AdapterWs

open List Option

universe u v w

/-- Entries in insertion order, with no key twice. -/
structure JsMap (K : Type u) (V : Type v) where
  /-- The entries, oldest first. -/
  entries : List (K × V)
  /-- No key occurs twice. -/
  nodup : (entries.map Prod.fst).Nodup

namespace JsMap

variable {K : Type u} {V : Type v}

@[ext] theorem ext {m n : JsMap K V} (h : m.entries = n.entries) : m = n := by
  cases m; cases n; congr

instance [DecidableEq K] [DecidableEq V] : DecidableEq (JsMap K V) := fun m n =>
  decidable_of_iff (m.entries = n.entries) ⟨ext, fun h => by rw [h]⟩

/-- The map without entries. -/
def empty : JsMap K V := ⟨[], List.nodup_nil⟩

/-- The keys in iteration order. -/
def keys (m : JsMap K V) : List K := m.entries.map Prod.fst

/-- `map.size`. -/
def size (m : JsMap K V) : ℕ := m.entries.length

variable [DecidableEq K] (k : K) (m : JsMap K V) {W : Type v} (f : V → ℕ)

/-- The first value stored under `k` in a list of entries. -/
def lookup (k : K) : List (K × V) → Option V
  | [] => none
  | (k', v) :: l => if k' = k then some v else lookup k l

/-- A list of entries with `v` stored under `k`, in the place `k` already has or at the end. -/
def insert (k : K) (v : V) : List (K × V) → List (K × V)
  | [] => [(k, v)]
  | (k', v') :: l => if k' = k then (k, v) :: l else (k', v') :: insert k v l

theorem mem_map_fst_insert {k k' : K} {v : V} {l : List (K × V)} :
    k' ∈ (insert k v l).map Prod.fst ↔ k' = k ∨ k' ∈ l.map Prod.fst := by
  induction l with
  | nil => simp [insert]
  | cons p l ih =>
    obtain ⟨k₀, v₀⟩ := p
    by_cases h : k₀ = k
    · subst h; simp [insert]
    · simp only [insert, if_neg h, map_cons, mem_cons, ih]
      constructor
      · rintro (h | h | h) <;> simp [h]
      · rintro (h | h | h) <;> simp [h]

theorem nodup_insert {k : K} {v : V} {l : List (K × V)} (h : (l.map Prod.fst).Nodup) :
    ((insert k v l).map Prod.fst).Nodup := by
  induction l with
  | nil => simp [insert]
  | cons p l ih =>
    obtain ⟨k₀, v₀⟩ := p
    rw [map_cons, nodup_cons] at h
    by_cases hk : k₀ = k
    · subst hk
      simpa [insert] using h
    · simp only [insert, if_neg hk, map_cons, nodup_cons, mem_map_fst_insert, not_or]
      exact ⟨⟨hk, h.1⟩, ih h.2⟩

/-- `map.get(k)`. -/
def get (m : JsMap K V) (k : K) : Option V := lookup k m.entries

/-- `map.set(k, v)`. -/
def set (m : JsMap K V) (k : K) (v : V) : JsMap K V := ⟨insert k v m.entries, nodup_insert m.nodup⟩

/-- `map.delete(k)`. -/
def delete (m : JsMap K V) (k : K) : JsMap K V :=
  ⟨m.entries.filter fun p => p.1 ≠ k, (List.filter_sublist.map Prod.fst).nodup m.nodup⟩

omit [DecidableEq K] in
/-- Every value replaced by a function of its key and itself, in place. -/
def mapVals {W : Type v} (f : K → V → W) (m : JsMap K V) : JsMap K W :=
  ⟨m.entries.map fun p => (p.1, f p.1 p.2), by
    simpa [List.map_map, Function.comp_def] using m.nodup⟩

@[simp] theorem get_empty : (empty : JsMap K V).get k = none := rfl

theorem lookup_insert (k' : K) (v : V) (l : List (K × V)) :
    lookup k' (insert k v l) = if k = k' then some v else lookup k' l := by
  induction l with
  | nil => simp [insert, lookup]
  | cons p l ih =>
    obtain ⟨k₀, v₀⟩ := p
    by_cases h : k₀ = k
    · subst h
      by_cases h' : k₀ = k' <;> simp [insert, lookup, h']
    · by_cases h' : k₀ = k'
      · subst h'
        simp [insert, lookup, h, Ne.symm h]
      · simp [insert, lookup, h, h', ih]

theorem get_set (k k' : K) (v : V) : (m.set k v).get k' = if k = k' then some v else m.get k' :=
  lookup_insert k k' v m.entries

@[simp] theorem get_set_self (k : K) (v : V) : (m.set k v).get k = some v := by
  simp [get_set]

theorem lookup_filter_ne (k' : K) (l : List (K × V)) :
    lookup k' (l.filter fun p => p.1 ≠ k) = if k = k' then none else lookup k' l := by
  induction l with
  | nil => simp [lookup]
  | cons p l ih =>
    obtain ⟨k₀, v₀⟩ := p
    by_cases h : k₀ = k
    · subst h
      rw [filter_cons_of_neg (by simp), ih]
      by_cases h' : k₀ = k' <;> simp [lookup, h']
    · rw [filter_cons_of_pos (by simpa using h)]
      by_cases h' : k₀ = k'
      · subst h'
        simp [lookup, Ne.symm h]
      · simp only [lookup, if_neg h', ih]

theorem get_delete (k k' : K) : (m.delete k).get k' = if k = k' then none else m.get k' :=
  lookup_filter_ne k k' m.entries

@[simp] theorem get_delete_self (k : K) : (m.delete k).get k = none := by
  simp [get_delete]

theorem lookup_map (f : K → V → W) (k : K) (l : List (K × V)) :
    lookup k (l.map fun p => (p.1, f p.1 p.2)) = (lookup k l).map (f k) := by
  induction l with
  | nil => rfl
  | cons p l ih =>
    obtain ⟨k₀, v₀⟩ := p
    by_cases h : k₀ = k
    · subst h; simp [lookup]
    · simp [lookup, h, ih]

@[simp] theorem get_mapVals (f : K → V → W) (m : JsMap K V) (k : K) :
    (m.mapVals f).get k = (m.get k).map (f k) :=
  lookup_map f k m.entries

theorem mem_of_lookup {k : K} {v : V} {l : List (K × V)} (h : lookup k l = some v) :
    (k, v) ∈ l := by
  induction l with
  | nil => simp [lookup] at h
  | cons p l ih =>
    obtain ⟨k₀, v₀⟩ := p
    by_cases hk : k₀ = k
    · subst hk
      simp only [lookup, if_true, some.injEq] at h
      simp [h]
    · simp only [lookup, if_neg hk] at h
      exact .tail _ (ih h)

theorem lookup_of_mem {k : K} {v : V} {l : List (K × V)} (hn : (l.map Prod.fst).Nodup)
    (h : (k, v) ∈ l) : lookup k l = some v := by
  induction l with
  | nil => simp at h
  | cons p l ih =>
    obtain ⟨k₀, v₀⟩ := p
    rw [map_cons, nodup_cons] at hn
    rcases mem_cons.mp h with h | h
    · simp only [Prod.mk.injEq] at h
      simp [lookup, h.1, h.2]
    · have hne : k₀ ≠ k := by
        rintro rfl
        exact hn.1 (mem_map.mpr ⟨_, h, rfl⟩)
      simp [lookup, if_neg hne, ih hn.2 h]

theorem get_eq_some_iff {m : JsMap K V} {k : K} {v : V} :
    m.get k = some v ↔ (k, v) ∈ m.entries :=
  ⟨mem_of_lookup, lookup_of_mem m.nodup⟩

theorem get_eq_none_iff {m : JsMap K V} {k : K} : m.get k = none ↔ k ∉ m.keys := by
  constructor
  · intro h hk
    obtain ⟨⟨k', v⟩, hp, rfl⟩ := mem_map.mp hk
    rw [get_eq_some_iff.mpr hp] at h
    cases h
  · intro h
    by_contra hne
    obtain ⟨v, hv⟩ := ne_none_iff_exists'.mp hne
    exact h (mem_map.mpr ⟨_, get_eq_some_iff.mp hv, rfl⟩)

/-- A selection that only the entry of one key can meet reads that entry alone. -/
theorem filter_flatMap_entries {β : Type w} {m : JsMap K V} {k : K} {f : K × V → List β}
    {p : β → Bool} (hf : ∀ q ∈ m.entries, q.1 ≠ k → (f q).filter p = []) :
    (m.entries.flatMap f).filter p = ((m.get k).map fun v => (f (k, v)).filter p).getD [] := by
  obtain ⟨entries, hn⟩ := m
  simp only [get] at hf ⊢
  induction entries with
  | nil => rfl
  | cons q entries ih =>
    obtain ⟨k₀, v₀⟩ := q
    have hn' := hn
    rw [map_cons, nodup_cons] at hn'
    have ih := ih hn'.2 fun q hq => hf q (.tail _ hq)
    rw [flatMap_cons, filter_append, ih, lookup]
    by_cases hk : k₀ = k
    · subst hk
      have hnone : lookup k₀ entries = none := get_eq_none_iff (m := ⟨entries, hn'.2⟩).mpr hn'.1
      simp [hnone]
    · simp [hf (k₀, v₀) (.head _) hk, hk]

/-! ## Keys -/

omit [DecidableEq K] in
theorem nodup_keys : m.keys.Nodup := m.nodup

omit [DecidableEq K] in
theorem length_keys : m.keys.length = m.size := length_map _

theorem get_eq_none_of_size {m : JsMap K V} (h : m.size = 0) (k : K) : m.get k = none := by
  rw [get_eq_none_iff, eq_nil_of_length_eq_zero ((length_keys m).trans h)]
  exact not_mem_nil

theorem size_eq_zero {m : JsMap K V} (h : ∀ k, m.get k = none) : m.size = 0 := by
  rw [size, length_eq_zero_iff, eq_nil_iff_forall_not_mem]
  intro entry hentry
  have hsome := get_eq_some_iff.mpr hentry
  rw [h] at hsome
  cases hsome

theorem keys_delete (k : K) : (m.delete k).keys = m.keys.filter (· ≠ k) := by
  rw [keys, keys, List.filter_map]
  rfl

theorem entries_set_of_get_eq_none {m : JsMap K V} {k : K} (h : m.get k = none) (v : V) :
    (m.set k v).entries = m.entries ++ [(k, v)] := by
  rw [get_eq_none_iff] at h
  obtain ⟨entries, hn⟩ := m
  simp only [keys, set] at h ⊢
  clear hn
  induction entries with
  | nil => rfl
  | cons p entries ih =>
    obtain ⟨k₀, v₀⟩ := p
    rw [map_cons, mem_cons, not_or] at h
    rw [insert, if_neg (Ne.symm h.1), ih h.2]
    rfl

theorem keys_set_of_get_eq_none {m : JsMap K V} {k : K} (h : m.get k = none) (v : V) :
    (m.set k v).keys = m.keys ++ [k] := by
  rw [keys, keys, entries_set_of_get_eq_none h, map_append]
  rfl

/-! ## Filters -/

omit [DecidableEq K] in
/-- The entries that pass a test. -/
def filter (f : K → V → Bool) (m : JsMap K V) : JsMap K V :=
  ⟨m.entries.filter fun p => f p.1 p.2, (List.filter_sublist.map Prod.fst).nodup m.nodup⟩

theorem get_filter (f : K → V → Bool) (m : JsMap K V) (k : K) :
    (m.filter f).get k = (m.get k).filter (f k) := by
  ext v
  rw [filter_eq_some_iff, get_eq_some_iff, get_eq_some_iff, filter, mem_filter]

/-! ## Entries of another map -/

/-- `Object.assign(m, n)`: the entries of `n` set in turn. -/
def assign (m n : JsMap K V) : JsMap K V := n.entries.foldl (fun m p => m.set p.1 p.2) m

theorem get_foldl_set (l : List (K × V)) (hn : (l.map Prod.fst).Nodup) (m : JsMap K V) (k : K) :
    (l.foldl (fun m p => m.set p.1 p.2) m).get k = (lookup k l).or (m.get k) := by
  induction l generalizing m with
  | nil => rfl
  | cons p l ih =>
    obtain ⟨k₀, v₀⟩ := p
    rw [map_cons, nodup_cons] at hn
    rw [foldl_cons, ih hn.2, get_set, lookup]
    by_cases hk : k₀ = k
    · subst hk
      have hnone : lookup k₀ l = none := get_eq_none_iff (m := ⟨l, hn.2⟩).mpr hn.1
      simp [hnone]
    · simp [hk]

theorem get_assign (n : JsMap K V) (k : K) : (m.assign n).get k = (n.get k).or (m.get k) :=
  get_foldl_set n.entries n.nodup m k

omit [DecidableEq K] in
theorem keys_filterMap_sublist (f : K → V → Option W) (l : List (K × V)) :
    ((l.filterMap fun p => (f p.1 p.2).map (p.1, ·)).map Prod.fst).Sublist (l.map Prod.fst) := by
  induction l with
  | nil => exact .slnil
  | cons p l ih =>
    rw [filterMap_cons, map_cons]
    cases f p.1 p.2 with
    | none => exact ih.cons p.1
    | some w => exact ih.cons_cons p.1

omit [DecidableEq K] in
/-- The values a function has an answer for, replaced by it. -/
def filterMap {W : Type v} (f : K → V → Option W) (m : JsMap K V) : JsMap K W :=
  ⟨m.entries.filterMap fun p => (f p.1 p.2).map (p.1, ·),
    (keys_filterMap_sublist f m.entries).nodup m.nodup⟩

theorem get_filterMap (f : K → V → Option W) (m : JsMap K V) (k : K) :
    (m.filterMap f).get k = (m.get k).bind (f k) := by
  ext w
  rw [get_eq_some_iff, filterMap, mem_filterMap, bind_eq_some_iff]
  constructor
  · rintro ⟨⟨k', v⟩, hp, heq⟩
    obtain ⟨w', hw, heq⟩ := map_eq_some_iff.mp heq
    simp only [Prod.mk.injEq] at heq
    obtain ⟨rfl, rfl⟩ := heq
    exact ⟨v, get_eq_some_iff.mpr hp, hw⟩
  · rintro ⟨v, hv, hw⟩
    exact ⟨(k, v), get_eq_some_iff.mp hv, by rw [hw]; rfl⟩

/-! ## Sizes -/

theorem length_insert (v : V) (l : List (K × V)) :
    (insert k v l).length = if (lookup k l).isSome then l.length else l.length + 1 := by
  induction l with
  | nil => rfl
  | cons p l ih =>
    obtain ⟨k₀, v₀⟩ := p
    by_cases hk : k₀ = k
    · simp [insert, lookup, hk]
    · simp only [insert, lookup, if_neg hk, length_cons, ih]
      split <;> rfl

theorem size_set (k : K) (v : V) :
    (m.set k v).size = if (m.get k).isSome then m.size else m.size + 1 :=
  length_insert k v m.entries

theorem size_set_le (k : K) (v : V) : (m.set k v).size ≤ m.size + 1 := by
  rw [size_set]
  split <;> omega

theorem size_delete_le (k : K) : (m.delete k).size ≤ m.size :=
  length_filter_le _ _

/-- Deleting a key of the map makes it one entry shorter. -/
theorem size_delete {m : JsMap K V} {k : K} {v : V} (h : m.get k = some v) :
    (m.delete k).size + 1 = m.size := by
  have hmem : k ∈ m.keys := by
    by_contra hnot
    rw [get_eq_none_iff.mpr hnot] at h
    cases h
  have hkeys : (m.delete k).keys = m.keys.erase k := by
    rw [keys_delete, m.nodup_keys.erase_eq_filter]
    exact filter_congr fun k' _ => by by_cases hk : k' = k <;> simp [hk]
  have hpos := length_pos_of_mem hmem
  rw [← length_keys, ← length_keys, hkeys, length_erase_of_mem hmem]
  omega

/-! ## Totals over the values -/

/-- What `f` gives for the values together. -/
def total (f : V → ℕ) (m : JsMap K V) : ℕ := m.entries.foldr (fun p n => f p.2 + n) 0

omit [DecidableEq K] in
theorem total_eq_sum (m : JsMap K V) : m.total f = (m.entries.map fun p => f p.2).sum := by
  rw [total]
  induction m.entries with
  | nil => rfl
  | cons p entries ih => rw [foldr_cons, ih, map_cons, sum_cons]

/-- A stored entry takes the place of the old one in a sum. -/
theorem sum_set {M : Type*} [AddCommMonoid M] (f : K → V → M) (m : JsMap K V) (k : K) (v : V) :
    ((m.set k v).entries.map fun p => f p.1 p.2).sum + ((m.get k).map (f k)).getD 0 =
      (m.entries.map fun p => f p.1 p.2).sum + f k v := by
  obtain ⟨entries, hn⟩ := m
  simp only [set, get]
  clear hn
  induction entries with
  | nil => simp [insert, lookup]
  | cons p entries ih =>
    obtain ⟨k₀, v₀⟩ := p
    by_cases hk : k₀ = k
    · subst hk
      simp only [insert, lookup, if_true, map_cons, sum_cons, map_some, getD_some]
      rw [add_assoc, add_comm, add_comm _ (f k₀ v₀)]
    · simp only [insert, lookup, if_neg hk, map_cons, sum_cons]
      rw [add_assoc, ih, add_assoc]

theorem total_set (m : JsMap K V) (k : K) (v : V) :
    (m.set k v).total f + ((m.get k).map f).getD 0 = m.total f + f v := by
  rw [total_eq_sum, total_eq_sum]
  exact sum_set (fun _ => f) m k v

theorem total_delete (m : JsMap K V) (k : K) :
    (m.delete k).total f + ((m.get k).map f).getD 0 = m.total f := by
  obtain ⟨entries, hn⟩ := m
  simp only [total, delete, get]
  induction entries with
  | nil => simp [lookup]
  | cons p entries ih =>
    obtain ⟨k₀, v₀⟩ := p
    rw [map_cons, nodup_cons] at hn
    have ih := ih hn.2
    by_cases hk : k₀ = k
    · subst hk
      have hnone : lookup k₀ entries = none := get_eq_none_iff (m := ⟨entries, hn.2⟩).mpr hn.1
      rw [hnone] at ih
      rw [filter_cons_of_neg (by simp)]
      simp only [lookup, if_true, foldr_cons, map_some, getD_some]
      simp only [map_none, getD_none] at ih
      omega
    · rw [filter_cons_of_pos (by simpa using hk)]
      simp only [lookup, if_neg hk, foldr_cons]
      omega

end JsMap
end AdapterWs
