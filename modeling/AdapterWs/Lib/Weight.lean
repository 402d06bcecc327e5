import AdapterWs.Lib.JsMap
import Mathlib.Algebra.BigOperators.Group.List.Basic
import Mathlib.Algebra.Ring.Int.Defs

/-!
# Weights of maps

A number for each entry of a map, and the sum over the entries, as entries are stored.
-/

namespace AdapterWs.JsMap

universe u v

variable {K : Type u} {V : Type v} [DecidableEq K] (f : K → V → ℕ) (m : JsMap K V)

omit [DecidableEq K] in
/-- What `f` gives for the entries together. -/
def weight (f : K → V → ℕ) (m : JsMap K V) : ℕ := (m.entries.map fun p => f p.1 p.2).sum

/-- What a key adds to the sum. -/
def weightAt (f : K → V → ℕ) (m : JsMap K V) (k : K) : ℕ := ((m.get k).map (f k)).getD 0

theorem weight_set (k : K) (v : V) :
    (m.set k v).weight f + m.weightAt f k = m.weight f + f k v :=
  sum_set f m k v

theorem weightAt_set_of_ne {k k' : K} (h : k ≠ k') (v : V) :
    (m.set k v).weightAt f k' = m.weightAt f k' := by
  rw [weightAt, get_set, if_neg h]
  rfl

/-- The entries of another map take the places of the old ones. -/
theorem weight_assign (n : JsMap K V) :
    ((m.assign n).weight f : ℤ) =
      m.weight f + (n.entries.map fun p => (f p.1 p.2 : ℤ) - m.weightAt f p.1).sum := by
  have hfold : ∀ (l : List (K × V)) (m : JsMap K V), (l.map Prod.fst).Nodup →
      ((l.foldl (fun m p => m.set p.1 p.2) m).weight f : ℤ) =
        m.weight f + (l.map fun p => (f p.1 p.2 : ℤ) - m.weightAt f p.1).sum := by
    intro l
    induction l with
    | nil => exact fun m _ => (add_zero _).symm
    | cons p l ih =>
      intro m hn
      rw [List.map_cons, List.nodup_cons] at hn
      have hset := weight_set f m p.1 p.2
      -- the later keys are others, so the first entry leaves what they add
      have hrest : (l.map fun q => (f q.1 q.2 : ℤ) - (m.set p.1 p.2).weightAt f q.1) =
          l.map fun q => (f q.1 q.2 : ℤ) - m.weightAt f q.1 := by
        refine List.map_congr_left fun q hq => ?_
        have hne : p.1 ≠ q.1 := fun heq => hn.1 (heq ▸ List.mem_map_of_mem hq)
        rw [weightAt_set_of_ne f m hne]
      rw [List.foldl_cons, ih _ hn.2, hrest, List.map_cons, List.sum_cons]
      omega
  exact hfold n.entries m n.nodup

end AdapterWs.JsMap
