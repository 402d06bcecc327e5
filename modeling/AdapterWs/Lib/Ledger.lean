import Mathlib.Algebra.Order.Group.Int
import Mathlib.Algebra.Order.BigOperators.Group.List

/-!
# Ledgers

A shared counter and the holders it stands for: every holder owes the counter some amount, and
the counter is meant to equal the total of the dues. A change of one holder keeps the equality
exactly when it moves the counter and the holder's dues by the same amount, so each operation
is checked against one holder only.
-/

namespace AdapterWs

open List
namespace Ledger

variable {α : Type*} {G : Type*} [AddCommGroup G] {dues : α → G} {xs : List α} {x y : α}

/-- What the holders owe together. -/
def total (dues : α → G) (xs : List α) : G :=
  (xs.map dues).sum

@[simp] theorem total_nil : total dues [] = 0 := rfl

@[simp] theorem total_append : total dues (xs ++ [y]) = total dues xs + dues y := by
  simp [total]

theorem total_congr {dues' : α → G} (h : ∀ z ∈ xs, dues z = dues' z) :
    total dues xs = total dues' xs := by
  rw [total, total, map_congr_left h]

/-- Replacing one holder moves the total by the difference of its dues. -/
theorem total_set {i : ℕ} (h : xs[i]? = some x) :
    total dues (xs.set i y) = total dues xs - dues x + dues y := by
  obtain ⟨hi, hx⟩ := List.getElem?_eq_some_iff.mp h
  have hlen : i < (xs.map dues).length := by simpa using hi
  rw [total, map_set, sum_set', dif_pos hlen, getElem_map, hx, total,
    sub_eq_add_neg, add_assoc]

/-- A balanced change of one holder keeps the counter equal to the total. -/
theorem balanced_set {c c' : G} {i : ℕ} (hc : c = total dues xs) (h : xs[i]? = some x)
    (hbalanced : c' - dues y = c - dues x) : c' = total dues (xs.set i y) := by
  rw [total_set h, ← hc, ← hbalanced, sub_add_cancel]

/-- A newcomer that takes from the counter what it owes keeps the counter equal to the
total. -/
theorem balanced_append {c c' : G} (hc : c = total dues xs) (hbalanced : c' - dues y = c) :
    c' = total dues (xs ++ [y]) := by
  rw [total_append, ← hc, ← hbalanced, sub_add_cancel]

/-- Holders that owe nothing may be left out of the total. -/
theorem total_of_subset [DecidableEq α] {ys : List α} (hx : xs.Nodup) (hy : ys.Nodup)
    (hsub : ∀ z ∈ ys, z ∈ xs) (hzero : ∀ z ∈ xs, z ∉ ys → dues z = 0) :
    total dues xs = total dues ys := by
  induction ys generalizing xs with
  | nil =>
    refine sum_eq_zero fun d hd => ?_
    obtain ⟨z, hz, rfl⟩ := mem_map.mp hd
    exact hzero z hz not_mem_nil
  | cons y ys ih =>
    rw [nodup_cons] at hy
    have hmem := hsub y (.head _)
    have hperm : total dues xs = dues y + total dues (xs.erase y) := by
      rw [total, ((perm_cons_erase hmem).map dues).sum_eq, map_cons, sum_cons,
        total]
    have hcons : total dues (y :: ys) = dues y + total dues ys := by
      rw [total, map_cons, sum_cons, total]
    rw [hperm, hcons]
    refine congrArg (dues y + ·) (ih (hx.erase y) hy.2 (fun z hz => ?_) fun z hz hzy => ?_)
    · refine (mem_erase_of_ne ?_).mpr (hsub z (mem_cons_of_mem y hz))
      rintro rfl
      exact hy.1 hz
    · rw [hx.mem_erase_iff] at hz
      refine hzero z hz.2 fun hcons => ?_
      rcases mem_cons.mp hcons with hcons | hcons
      · exact hz.1 hcons
      · exact hzy hcons

/-- No holder owes more than the total where no holder owes a negative amount. -/
theorem due_le_total {dues : α → ℤ} (hnonneg : ∀ z ∈ xs, 0 ≤ dues z) (hx : x ∈ xs) :
    dues x ≤ total dues xs := by
  apply single_le_sum
  · intro n hn
    obtain ⟨z, hz, rfl⟩ := mem_map.mp hn
    exact hnonneg z hz
  · exact mem_map_of_mem hx

/-- Two holders at different places owe no more than the total together. -/
theorem due_add_due_le_total {dues : α → ℤ} {i j : ℕ} (hnonneg : ∀ z ∈ xs, 0 ≤ dues z)
    (hij : i ≠ j) (hi : xs[i]? = some x) (hj : xs[j]? = some y) :
    dues x + dues y ≤ total dues xs := by
  obtain ⟨hlt, hx⟩ := List.getElem?_eq_some_iff.mp hi
  have hperm : total dues xs = dues x + total dues (xs.eraseIdx i) := by
    have := ((getElem_cons_eraseIdx_perm hlt).map dues).sum_eq
    rw [total, ← this, hx, map_cons, sum_cons, total]
  have hmem : y ∈ xs.eraseIdx i :=
    mem_eraseIdx_iff_getElem?.mpr ⟨j, Ne.symm hij, hj⟩
  have hrest : dues y ≤ total dues (xs.eraseIdx i) :=
    due_le_total (fun z hz => hnonneg z (mem_of_mem_eraseIdx hz)) hmem
  omega

theorem total_ite_eq_countP (p : α → Bool) :
    total (fun z => if p z then (1 : ℤ) else 0) xs = xs.countP p := by
  induction xs with
  | nil => rfl
  | cons z xs ih =>
    have hcons : total (fun z => if p z then (1 : ℤ) else 0) (z :: xs) =
        (if p z then 1 else 0) + total (fun z => if p z then (1 : ℤ) else 0) xs := by
      simp [total]
    rw [hcons, ih, countP_cons]
    cases p z with
    | true =>
      simp only [if_true]
      push_cast
      exact Int.add_comm _ _
    | false => simp

end Ledger
end AdapterWs
