import Mathlib.Data.List.Nodup

/-!
# Insertion-ordered sets

A JavaScript `Set` iterates its elements in insertion order and ignores an element that is added
again. `JsSet` is the list of those elements together with the proof that none occurs twice.
-/

namespace AdapterWs

universe u

/-- Elements in insertion order, none twice. -/
structure JsSet (α : Type u) where
  /-- The elements, oldest first. -/
  elems : List α
  /-- No element occurs twice. -/
  nodup : elems.Nodup

namespace JsSet

variable {α : Type u} {s : JsSet α} {a : α}

@[ext] theorem ext {t : JsSet α} (h : s.elems = t.elems) : s = t := by
  cases s; cases t; congr

instance [DecidableEq α] : DecidableEq (JsSet α) := fun s t =>
  decidable_of_iff (s.elems = t.elems) ⟨ext, fun h => by rw [h]⟩

instance : Membership α (JsSet α) := ⟨fun s a => a ∈ s.elems⟩

instance [DecidableEq α] (a : α) (s : JsSet α) : Decidable (a ∈ s) :=
  inferInstanceAs (Decidable (a ∈ s.elems))

/-- `new Set()`. -/
def empty : JsSet α := ⟨[], List.nodup_nil⟩

/-- `set.size`. -/
def size (s : JsSet α) : ℕ := s.elems.length

@[simp] theorem mem_elems : a ∈ s.elems ↔ a ∈ s := Iff.rfl

@[simp] theorem not_mem_empty (a : α) : a ∉ (empty : JsSet α) := List.not_mem_nil

variable [DecidableEq α]

/-- `set.add(a)`. -/
def add (s : JsSet α) (a : α) : JsSet α :=
  if h : a ∈ s.elems then s
  else ⟨s.elems ++ [a], by
    rw [List.nodup_append]
    refine ⟨s.nodup, List.nodup_singleton a, ?_⟩
    intro b hb c hc hbc
    rw [List.mem_singleton] at hc
    exact h (hc ▸ hbc ▸ hb)⟩

/-- `set.delete(a)`. -/
def delete (s : JsSet α) (a : α) : JsSet α :=
  ⟨s.elems.filter (· ≠ a), s.nodup.filter _⟩

@[simp] theorem mem_add {b : α} : b ∈ s.add a ↔ b = a ∨ b ∈ s := by
  by_cases h : a ∈ s.elems
  · rw [add, dif_pos h]
    constructor
    · exact .inr
    · rintro (rfl | hb)
      · exact h
      · exact hb
  · rw [add, dif_neg h]
    change b ∈ s.elems ++ [a] ↔ b = a ∨ b ∈ s.elems
    rw [List.mem_append, List.mem_singleton, or_comm]

@[simp] theorem mem_delete {b : α} : b ∈ s.delete a ↔ b ≠ a ∧ b ∈ s := by
  change b ∈ s.elems.filter (· ≠ a) ↔ b ≠ a ∧ b ∈ s.elems
  simp [and_comm]

/-! ## Sizes -/

theorem size_add_of_mem (h : a ∈ s) : (s.add a).size = s.size := by
  rw [add, dif_pos (mem_elems.mpr h)]

theorem size_add_of_not_mem (h : a ∉ s) : (s.add a).size = s.size + 1 := by
  rw [add, dif_neg (fun hmem => h (mem_elems.mp hmem)), size, size, List.length_append]
  rfl

theorem size_add_le (s : JsSet α) (a : α) : (s.add a).size ≤ s.size + 1 := by
  by_cases h : a ∈ s
  · rw [size_add_of_mem h]
    exact Nat.le_succ _
  · exact Nat.le_of_eq (size_add_of_not_mem h)

theorem size_delete_le (s : JsSet α) (a : α) : (s.delete a).size ≤ s.size :=
  List.length_filter_le _ _

end JsSet
end AdapterWs
