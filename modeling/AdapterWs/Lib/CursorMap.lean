import AdapterWs.Lib.JsMap
import Mathlib.Data.List.Find

/-!
# Maps walked by a kept iterator

An iterator of a JavaScript `Map` that is kept across calls goes on from where it stopped: it
passes over entries that were deleted, and comes to those that were added since. Every entry is
numbered in the order of its insertion, and the iterator is the number it has come to.
-/

namespace AdapterWs

open List Option JsMap

universe u v

/-- A map with its entries numbered in the order of their insertion. -/
structure CursorMap (K : Type u) (V : Type v) where
  map : JsMap K (ℕ × V)
  /-- How many entries were inserted. -/
  added : ℕ

namespace CursorMap

variable {K : Type u} {V : Type v}

/-- The map without entries. -/
def empty : CursorMap K V := ⟨.empty, 0⟩

/-- `map.size`. -/
def size (m : CursorMap K V) : ℕ := m.map.size

/-- `iterator.next()`: the first entry that is not before the iterator. -/
def next (m : CursorMap K V) (cursor : ℕ) : Option (K × V × ℕ) :=
  (m.map.entries.find? fun entry => decide (cursor ≤ entry.2.1)).map fun entry =>
    (entry.1, entry.2.2, entry.2.1 + 1)

/-- The entries that pass a test, the others deleted. -/
def filter (f : K → V → Bool) (m : CursorMap K V) : CursorMap K V :=
  { m with map := m.map.filter fun k entry => f k entry.2 }

variable [DecidableEq K] {m : CursorMap K V} {v : V} {cursor place : ℕ}

/-- `map.get(k)`. -/
def get (m : CursorMap K V) (k : K) : Option V := (m.map.get k).map Prod.snd

/-- `map.set(k, v)`. -/
def set (m : CursorMap K V) (k : K) (v : V) : CursorMap K V :=
  match m.map.get k with
  | some (place, _) => { m with map := m.map.set k (place, v) }
  | none => ⟨m.map.set k (m.added, v), m.added + 1⟩

/-- `map.delete(k)`. -/
def delete (m : CursorMap K V) (k : K) : CursorMap K V := { m with map := m.map.delete k }

section

variable (m)

theorem get_set (k k' : K) (v : V) : (m.set k v).get k' = if k = k' then some v else m.get k' := by
  rw [set]
  split <;> simp only [get, JsMap.get_set] <;> split <;> rfl

@[simp] theorem get_set_self (k : K) (v : V) : (m.set k v).get k = some v := by
  rw [get_set, if_pos rfl]

theorem get_delete (k k' : K) : (m.delete k).get k' = if k = k' then none else m.get k' := by
  rw [get, delete, JsMap.get_delete]
  split <;> rfl

end

theorem get_filter (f : K → V → Bool) (m : CursorMap K V) (k : K) :
    (m.filter f).get k = (m.get k).filter (f k) := by
  rw [get, filter, JsMap.get_filter, get]
  cases m.map.get k with
  | none => rfl
  | some entry =>
    rw [filter_some, map_some, filter_some]
    split <;> rfl

theorem size_set (m : CursorMap K V) (k : K) (v : V) :
    (m.set k v).size = if (m.get k).isSome then m.size else m.size + 1 := by
  rw [set, get, isSome_map]
  cases hget : m.map.get k with
  | none => simp [size, JsMap.size_set, hget]
  | some entry => simp [size, JsMap.size_set, hget]

omit [DecidableEq K] in
theorem size_filter_le (f : K → V → Bool) (m : CursorMap K V) : (m.filter f).size ≤ m.size :=
  length_filter_le _ _

theorem size_delete {k : K} (h : m.get k = some v) : (m.delete k).size + 1 = m.size := by
  obtain ⟨entry, hget, -⟩ := map_eq_some_iff.mp h
  exact JsMap.size_delete hget

theorem exists_ne (hsize : 2 ≤ m.size) (k : K) : ∃ k' v, k' ≠ k ∧ m.get k' = some v := by
  by_contra hnone
  have hothers : ∀ k', k ≠ k' → m.map.get k' = none := by
    intro k' hne
    cases hget : m.map.get k' with
    | none => rfl
    | some entry => exact absurd ⟨k', entry.2, hne.symm, by rw [get, hget]; rfl⟩ hnone
  have hempty : (m.map.delete k).size = 0 := by
    refine size_eq_zero fun k' => ?_
    rw [JsMap.get_delete]
    split_ifs with heq
    · rfl
    · exact hothers k' heq
  cases hget : m.map.get k with
  | some entry =>
    have hdelete := JsMap.size_delete hget
    rw [size] at hsize
    omega
  | none =>
    have hzero : m.map.size = 0 := size_eq_zero fun k' => by
      by_cases heq : k = k'
      · exact heq ▸ hget
      · exact hothers k' heq
    rw [size] at hsize
    omega

/-! ## Walks of a bounded number of steps

A walk that goes on with a kept iterator opens a new one at the head where the last one has ended,
and stops after its steps or after the second that it opened. -/

/-- How many turns a walk can take: its steps, and the ends of its iterators. -/
def turnsLeft (budget steps wrapped : ℕ) (cursor : Option ℕ) : ℕ :=
  budget - steps + if wrapped < 2 then 2 - wrapped + (if cursor.isNone then 0 else 1) else 0

section Turns

variable {budget steps wrapped fuel : ℕ} {cursor : Option ℕ}

theorem turnsLeft_end (h : turnsLeft budget steps wrapped cursor ≤ fuel + 1)
    (hgo : steps < budget ∧ wrapped < 2) :
    turnsLeft budget steps (if cursor.isNone then wrapped + 1 else wrapped) none ≤ fuel := by
  simp only [turnsLeft, isNone_none, if_true] at h ⊢
  split_ifs at h ⊢ <;> omega

theorem turnsLeft_step (h : turnsLeft budget steps wrapped cursor ≤ fuel + 1)
    (hgo : steps < budget ∧ wrapped < 2) (place : ℕ) :
    turnsLeft budget (steps + 1) (if cursor.isNone then wrapped + 1 else wrapped) (some place) ≤
      fuel := by
  simp only [turnsLeft, isNone_some] at h ⊢
  split_ifs at h ⊢ <;> omega

theorem not_of_turnsLeft_eq_zero (h : turnsLeft budget steps wrapped cursor ≤ 0) :
    ¬(steps < budget ∧ wrapped < 2) := by
  rw [turnsLeft] at h
  omega

end Turns

/-! ## Entries an iterator comes to -/

theorem get_of_next {k : K} (h : m.next cursor = some (k, v, place)) : m.get k = some v := by
  obtain ⟨entry, hfind, hentry⟩ := map_eq_some_iff.mp h
  obtain ⟨k', place', v'⟩ := entry
  simp only [Prod.mk.injEq] at hentry
  obtain ⟨rfl, rfl, -⟩ := hentry
  rw [get, get_eq_some_iff.mpr (mem_of_find?_eq_some hfind)]
  rfl

/-- The places of the entries, in iteration order. -/
def places (m : CursorMap K V) : List ℕ := m.map.entries.map fun entry => entry.2.1

/-- The entries stand in the order of their insertion. -/
structure Ordered (m : CursorMap K V) : Prop where
  ascending : m.places.Pairwise (· < ·)
  lt : ∀ place ∈ m.places, place < m.added

omit [DecidableEq K] in
theorem ordered_empty : (empty : CursorMap K V).Ordered :=
  ⟨.nil, forall_mem_nil _⟩

/-- The place and the value of a key. -/
def find (m : CursorMap K V) (k : K) : Option (ℕ × V) := m.map.get k

section

variable (m)

theorem get_eq_find (k : K) : m.get k = (m.find k).map Prod.snd := rfl

/-- A key keeps its place, and a new one goes to the end. -/
theorem find_set (k k' : K) (v : V) : (m.set k v).find k' =
    if k = k' then some (((m.find k).map Prod.fst).getD m.added, v) else m.find k' := by
  rw [set, find, find]
  split
  · next place old hget =>
    rw [JsMap.get_set, hget]
    rfl
  · next hget =>
    rw [JsMap.get_set, hget]
    rfl

theorem find_delete (k k' : K) :
    (m.delete k).find k' = if k = k' then none else m.find k' := JsMap.get_delete ..

theorem added_le_set (k : K) (v : V) : m.added ≤ (m.set k v).added := by
  rw [set]
  split
  · exact le_refl _
  · exact Nat.le_succ _

end

theorem added_set_of_get_eq_none {k : K} (h : m.get k = none) (v : V) :
    (m.set k v).added = m.added + 1 := by
  rw [set]
  rw [get, map_eq_none_iff] at h
  rw [h]

theorem insert_of_lookup {l : List (K × ℕ × V)} {k : K} {old : V}
    (h : JsMap.lookup k l = some (place, old)) :
    (insert k (place, v) l).map (fun entry => entry.2.1) = l.map fun entry => entry.2.1 := by
  induction l with
  | nil => cases h
  | cons entry l ih =>
    obtain ⟨k₀, place₀, v₀⟩ := entry
    by_cases hk : k₀ = k
    · subst hk
      simp only [JsMap.lookup, if_true, some.injEq, Prod.mk.injEq] at h
      simp [JsMap.insert, h.1]
    · simp only [JsMap.lookup, if_neg hk] at h
      simp [JsMap.insert, hk, ih h]

theorem insert_of_lookup_eq_none {l : List (K × ℕ × V)} {k : K} (h : JsMap.lookup k l = none)
    (entry : ℕ × V) : insert k entry l = l ++ [(k, entry)] := by
  induction l with
  | nil => rfl
  | cons first l ih =>
    obtain ⟨k₀, entry₀⟩ := first
    by_cases hk : k₀ = k
    · simp [JsMap.lookup, hk] at h
    · simp only [JsMap.lookup, if_neg hk] at h
      simp [JsMap.insert, hk, ih h]

theorem Ordered.set (h : m.Ordered) (k : K) (v : V) : (m.set k v).Ordered := by
  rw [CursorMap.set]
  split
  · next place old hget =>
    have hplaces : CursorMap.places { m with map := m.map.set k (place, v) } = m.places :=
      insert_of_lookup hget
    exact ⟨hplaces ▸ h.ascending, fun p hp => h.lt p (hplaces ▸ hp)⟩
  · next hget =>
    have hplaces : CursorMap.places ⟨m.map.set k (m.added, v), m.added + 1⟩ =
        m.places ++ [m.added] := by
      rw [places, JsMap.set]
      simp only
      rw [insert_of_lookup_eq_none hget, map_append]
      rfl
    refine ⟨?_, fun p hp => ?_⟩
    · rw [hplaces, pairwise_append]
      refine ⟨h.ascending, pairwise_singleton .., fun p hp q hq => ?_⟩
      rw [mem_singleton.mp hq]
      exact h.lt p hp
    · rw [hplaces, mem_append, mem_singleton] at hp
      rcases hp with hp | rfl
      · exact Nat.lt_succ_of_lt (h.lt p hp)
      · exact Nat.lt_succ_self _

theorem Ordered.delete (h : m.Ordered) (k : K) : (m.delete k).Ordered := by
  have hsub : (m.delete k).places.Sublist m.places := filter_sublist.map _
  exact ⟨h.ascending.sublist hsub, fun p hp => h.lt p (hsub.subset hp)⟩

omit [DecidableEq K] in
theorem Ordered.filter (h : m.Ordered) (f : K → V → Bool) : (m.filter f).Ordered := by
  have hsub : (m.filter f).places.Sublist m.places := filter_sublist.map _
  exact ⟨h.ascending.sublist hsub, fun p hp => h.lt p (hsub.subset hp)⟩

theorem Ordered.find_lt (h : m.Ordered) {k : K} (hfind : m.find k = some (place, v)) :
    place < m.added :=
  h.lt place (mem_map.mpr ⟨_, get_eq_some_iff.mp hfind, rfl⟩)

/-- An iterator comes to the first entry at its place or after it. -/
theorem find_of_next (h : m.Ordered) {cursor' : ℕ} {k : K}
    (hnext : m.next cursor = some (k, v, cursor')) : ∃ place, m.find k = some (place, v) ∧
      cursor' = place + 1 ∧ ∀ k' place' v', m.find k' = some (place', v') → place' < cursor' →
        k' = k ∨ place' < cursor := by
  obtain ⟨entry, hfind, hentry⟩ := map_eq_some_iff.mp hnext
  obtain ⟨k₀, place, v₀⟩ := entry
  simp only [Prod.mk.injEq] at hentry
  obtain ⟨rfl, rfl, rfl⟩ := hentry
  refine ⟨place, get_eq_some_iff.mpr (mem_of_find?_eq_some hfind), rfl,
    fun k' place' v' hfind' hlt => ?_⟩
  obtain ⟨-, before, after, heq, hbefore⟩ := find?_eq_some_iff_append.mp hfind
  have hmem := get_eq_some_iff.mp hfind'
  have hascending := h.ascending
  rw [places, heq, map_append, map_cons, pairwise_append] at hascending
  rw [heq] at hmem
  rcases mem_append.mp hmem with hmem | hmem
  · have hnot := hbefore _ hmem
    simp only [Bool.not_eq_true', decide_eq_false_iff_not, not_le] at hnot
    exact .inr hnot
  · rcases mem_cons.mp hmem with hsame | hmem
    · exact .inl (congrArg Prod.fst hsame)
    · have hafter := (pairwise_cons.mp hascending.2.1).1 place'
        (mem_map.mpr ⟨_, hmem, rfl⟩)
      exact absurd (lt_of_lt_of_le hafter (Nat.le_of_lt_succ hlt)) (lt_irrefl place)

theorem lt_of_next_eq_none (hnext : m.next cursor = none) {k : K}
    (hfind : m.find k = some (place, v)) : place < cursor := by
  rw [next, map_eq_none_iff, find?_eq_none] at hnext
  have hnot := hnext _ (get_eq_some_iff.mp hfind)
  simpa using hnot

theorem size_eq_zero (h : ∀ k, m.find k = none) : m.size = 0 :=
  JsMap.size_eq_zero h

theorem size_pos {k : K} {entry : ℕ × V} (h : m.find k = some entry) : 0 < m.size := by
  refine length_pos_of_mem (a := (k, entry)) ?_
  exact get_eq_some_iff.mp h

/-- Two iterators between which no entry stands come to the same. -/
theorem next_congr {cursor' : ℕ}
    (h : ∀ k place v, m.find k = some (place, v) → (cursor ≤ place ↔ cursor' ≤ place)) :
    m.next cursor = m.next cursor' := by
  rw [next, next]
  refine congrArg _ (find?_congr fun entry hmem => ?_)
  obtain ⟨k, place, v⟩ := entry
  rw [decide_eq_decide]
  exact h k place v (get_eq_some_iff.mpr hmem)

omit [DecidableEq K] in
theorem next_of_size_eq_zero (h : m.size = 0) (cursor : ℕ) : m.next cursor = none := by
  have hnil : m.map.entries = [] := eq_nil_of_length_eq_zero h
  rw [next, hnil]
  rfl

/-! ## Samples -/

/-- The entries a walk comes to, up to one where it stops, and where its iterator stands then. It
takes at most `budget` steps. -/
def walk (m : CursorMap K V) (stop : K → V → Bool) (budget : ℕ) :
    ℕ → ℕ → ℕ → Option ℕ → List (K × V) × Option ℕ
  | 0, _, _, cursor => ([], cursor)
  | fuel + 1, steps, wrapped, cursor =>
    if steps < budget ∧ wrapped < 2 then
      let wrapped := if cursor.isNone then wrapped + 1 else wrapped
      match m.next (cursor.getD 0) with
      | none => walk m stop budget fuel steps wrapped none
      | some (k, v, place) =>
        if stop k v then ([(k, v)], some place)
        else
          let rest := walk m stop budget fuel (steps + 1) wrapped (some place)
          ((k, v) :: rest.1, rest.2)
    else ([], cursor)

section Walk

variable {m : CursorMap K V} {stop : K → V → Bool} {budget fuel steps wrapped cursor place : ℕ}
  {k : K} {v : V}

section

omit [DecidableEq K]

theorem walk_of_next {cursor : Option ℕ} (hgo : steps < budget ∧ wrapped < 2)
    (hnext : m.next (cursor.getD 0) = some (k, v, place)) :
    (m.walk stop budget (fuel + 1) steps wrapped cursor).1 = (k, v) :: if stop k v then [] else
      (m.walk stop budget fuel (steps + 1) (if cursor.isNone then wrapped + 1 else wrapped)
        (some place)).1 := by
  rw [walk, if_pos hgo, hnext]
  simp only
  split_ifs <;> rfl

/-- A walk goes on after an entry that does not stop it. -/
theorem walk_of_pass (stop : K → V → Bool) (fuel : ℕ) {cursor : Option ℕ}
    (hgo : steps < budget ∧ wrapped < 2)
    (hnext : m.next (cursor.getD 0) = some (k, v, place)) (hpass : stop k v = false) :
    m.walk stop budget (fuel + 1) steps wrapped cursor =
      ((k, v) :: (m.walk stop budget fuel (steps + 1)
          (if cursor.isNone then wrapped + 1 else wrapped) (some place)).1,
        (m.walk stop budget fuel (steps + 1)
          (if cursor.isNone then wrapped + 1 else wrapped) (some place)).2) := by
  rw [walk, if_pos hgo, hnext]
  simp [hpass]

theorem walk_of_end {cursor : Option ℕ} (hgo : steps < budget ∧ wrapped < 2)
    (hnext : m.next (cursor.getD 0) = none) :
    m.walk stop budget (fuel + 1) steps wrapped cursor =
      m.walk stop budget fuel steps (if cursor.isNone then wrapped + 1 else wrapped) none := by
  rw [walk, if_pos hgo, hnext]

theorem walk_of_stop {cursor : Option ℕ} (hgo : ¬(steps < budget ∧ wrapped < 2)) :
    m.walk stop budget (fuel + 1) steps wrapped cursor = ([], cursor) := by
  rw [walk, if_neg hgo]

end

theorem get_of_mem_walk {cursor : Option ℕ} {entry : K × V}
    (h : entry ∈ (m.walk stop budget fuel steps wrapped cursor).1) :
    m.get entry.1 = some entry.2 := by
  induction fuel generalizing steps wrapped cursor with
  | zero => cases h
  | succ fuel ih =>
    by_cases hgo : steps < budget ∧ wrapped < 2
    · cases hnext : m.next (cursor.getD 0) with
      | none =>
        rw [walk_of_end hgo hnext] at h
        exact ih h
      | some step =>
        obtain ⟨k, v, place⟩ := step
        rw [walk_of_next hgo hnext] at h
        rcases mem_cons.mp h with rfl | h
        · exact get_of_next hnext
        · split_ifs at h
          · cases h
          all_goals exact ih h
    · rw [walk_of_stop hgo] at h
      cases h

omit [DecidableEq K] in
theorem lt_of_next (h : m.next cursor = some (k, v, place)) : cursor < place := by
  obtain ⟨⟨k', p, v'⟩, hfind, hentry⟩ := map_eq_some_iff.mp h
  simp only [Prod.mk.injEq] at hentry
  have hle := find?_some hfind
  simp only [decide_eq_true_eq] at hle
  omega

theorem exists_next_zero (hsize : 0 < m.size) :
    ∃ k v place, m.next 0 = some (k, v, place) := by
  cases hnext : m.next 0 with
  | some step => exact ⟨step.1, step.2.1, step.2.2, rfl⟩
  | none =>
    have hzero : m.size = 0 := size_eq_zero fun k => by
      cases hfind : m.find k with
      | none => rfl
      | some entry => exact absurd (lt_of_next_eq_none hnext hfind) (Nat.not_lt_zero _)
    omega

/-- A walk of a step or more comes to an entry of a map that has one. -/
theorem walk_ne_nil {cursor : Option ℕ} (hsize : 0 < m.size) (hbudget : 1 ≤ budget) :
    (m.walk stop budget (fuel + 2) 0 0 cursor).1 ≠ [] := by
  have hhead : ∀ fuel wrapped, wrapped < 2 →
      (m.walk stop budget (fuel + 1) 0 wrapped none).1 ≠ [] := by
    intro fuel wrapped hwrapped
    obtain ⟨k, v, place, hnext⟩ := exists_next_zero hsize
    rw [walk_of_next ⟨hbudget, hwrapped⟩ hnext]
    exact cons_ne_nil _ _
  cases cursor with
  | none => exact hhead _ _ Nat.zero_lt_two
  | some cursor =>
    cases hnext : m.next cursor with
    | none =>
      rw [walk_of_end ⟨hbudget, Nat.zero_lt_two⟩ hnext]
      exact hhead _ _ Nat.zero_lt_two
    | some step =>
      obtain ⟨k, v, place⟩ := step
      rw [walk_of_next ⟨hbudget, Nat.zero_lt_two⟩ hnext]
      exact cons_ne_nil _ _

theorem ne_of_next (h : m.Ordered) (hnext : m.next cursor = some (k, v, place)) {k' : K} {v' : V}
    {place' : ℕ} (hnext' : m.next place = some (k', v', place')) : k' ≠ k := by
  rintro rfl
  obtain ⟨p, hfind, hp, -⟩ := find_of_next h hnext
  obtain ⟨p', hfind', hp', -⟩ := find_of_next h hnext'
  have hlt := lt_of_next hnext'
  rw [hfind, some.injEq, Prod.mk.injEq] at hfind'
  omega

theorem exists_next_of_first (h : m.Ordered) (hsize : 2 ≤ m.size)
    (hnext : m.next 0 = some (k, v, place)) :
    ∃ k' v' place', m.next place = some (k', v', place') := by
  obtain ⟨k', v', hne, hget⟩ := exists_ne hsize k
  obtain ⟨p, -, -, hpassed⟩ := find_of_next h hnext
  cases hnext' : m.next place with
  | some step => exact ⟨step.1, step.2.1, step.2.2, rfl⟩
  | none =>
    obtain ⟨⟨p', v''⟩, hfind, -⟩ := map_eq_some_iff.mp hget
    rcases hpassed k' p' v'' hfind (lt_of_next_eq_none hnext' hfind) with heq | hlt
    · exact absurd heq hne
    · exact absurd hlt (Nat.not_lt_zero _)

theorem ne_first_of_last (h : m.Ordered) (hsize : 2 ≤ m.size)
    (hnext : m.next cursor = some (k, v, place)) (hend : m.next place = none) {k' : K} {v' : V}
    {place' : ℕ} (hfirst : m.next 0 = some (k', v', place')) : k' ≠ k := by
  rintro rfl
  obtain ⟨p, hfind, hp, -⟩ := find_of_next h hnext
  obtain ⟨p', hfind', hp', -⟩ := find_of_next h hfirst
  rw [hfind, some.injEq, Prod.mk.injEq] at hfind'
  obtain ⟨k'', v'', place'', hnext'⟩ := exists_next_of_first h hsize hfirst
  rw [show place' = place by omega, hend] at hnext'
  cases hnext'

/-- A walk from the head comes to an entry that stops it or to two entries. -/
theorem walk_head (stop : K → V → Bool) (fuel steps : ℕ) (h : m.Ordered) (hsize : 2 ≤ m.size)
    (hsteps : steps + 2 ≤ budget) (hwrapped : wrapped = 0) :
    ∃ k v place, m.next 0 = some (k, v, place) ∧
      (k, v) ∈ (m.walk stop budget (fuel + 2) steps wrapped none).1 ∧
      (stop k v = true ∨ ∃ entry ∈ (m.walk stop budget (fuel + 2) steps wrapped none).1,
        entry.1 ≠ k) := by
  obtain ⟨k, v, place, hnext⟩ := exists_next_zero (m := m) (by omega)
  obtain ⟨k', v', place', hnext'⟩ := exists_next_of_first h hsize hnext
  refine ⟨k, v, place, hnext, ?_⟩
  rw [walk_of_next (by omega) hnext]
  refine ⟨(.head _), ?_⟩
  cases hstop : stop k v with
  | true => exact .inl rfl
  | false =>
    right
    rw [if_neg (by simp), walk_of_next (by simp; omega) hnext']
    exact ⟨(k', v'), .tail _ (.head _), ne_of_next h hnext hnext'⟩

/-- A walk through two entries or more comes to an entry that stops it or to two entries. -/
theorem exists_ne_of_walk (stop : K → V → Bool) (fuel : ℕ) (h : m.Ordered) (hsize : 2 ≤ m.size)
    (hbudget : 2 ≤ budget) (cursor : Option ℕ) :
    (∃ entry ∈ (m.walk stop budget (fuel + 4) 0 0 cursor).1, stop entry.1 entry.2 = true) ∨
      ∃ entry ∈ (m.walk stop budget (fuel + 4) 0 0 cursor).1,
        ∃ entry' ∈ (m.walk stop budget (fuel + 4) 0 0 cursor).1, entry'.1 ≠ entry.1 := by
  have hsplit : ∀ {entries : List (K × V)} {k : K} {v : V}, (k, v) ∈ entries →
      (stop k v = true ∨ ∃ entry ∈ entries, entry.1 ≠ k) →
      (∃ entry ∈ entries, stop entry.1 entry.2 = true) ∨
        ∃ entry ∈ entries, ∃ entry' ∈ entries, entry'.1 ≠ entry.1 := by
    intro entries k v hmem hor
    rcases hor with hstop | ⟨entry, hentry, hne⟩
    · exact .inl ⟨_, hmem, hstop⟩
    · exact .inr ⟨_, hmem, entry, hentry, hne⟩
  cases cursor with
  | none =>
    obtain ⟨k, v, place, -, hmem, hor⟩ :=
      walk_head stop (fuel + 2) 0 h hsize hbudget rfl
    exact hsplit hmem hor
  | some cursor =>
    cases hnext : m.next cursor with
    | none =>
      rw [walk_of_end (by omega) hnext]
      obtain ⟨k, v, place, -, hmem, hor⟩ :=
        walk_head stop (fuel + 1) 0 h hsize hbudget rfl
      exact hsplit hmem hor
    | some step =>
      obtain ⟨k, v, place⟩ := step
      refine hsplit (k := k) (v := v) ?_ ?_
      · rw [walk_of_next (by omega) hnext]
        exact (.head _)
      · rw [walk_of_next (by omega) hnext]
        cases hstop : stop k v with
        | true => exact .inl rfl
        | false =>
          right
          rw [if_neg (by simp)]
          cases hnext' : m.next place with
          | some step' =>
            obtain ⟨k', v', place'⟩ := step'
            rw [walk_of_next (by simp; omega) hnext']
            exact ⟨(k', v'), .tail _ (.head _),
              ne_of_next h hnext hnext'⟩
          | none =>
            obtain ⟨k', v', place', hfirst⟩ := exists_next_zero (m := m) (by omega)
            rw [walk_of_end (by simp; omega) hnext', walk_of_next (by simp; omega) hfirst]
            exact ⟨(k', v'), .tail _ (.head _),
              ne_first_of_last h hsize hnext hnext' hfirst⟩

end Walk

end CursorMap
end AdapterWs
