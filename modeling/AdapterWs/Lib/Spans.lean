import Mathlib.Algebra.Order.BigOperators.Group.List
import Mathlib.Tactic.Linarith

/-!
# Amounts over spans of time

What a limiter lets through is a list of amounts with the times they passed at. A limit bounds
their total over a span of time, so the totals over the times that meet a condition are added,
compared and split here.
-/

namespace AdapterWs

/-- An amount, and the time it passed at. -/
structure Timed where
  time : ℚ
  amount : ℚ
  deriving DecidableEq

namespace Spans

variable {log : List Timed} {x : Timed} {p q r : ℚ → Prop} [DecidablePred p] [DecidablePred q]
  [DecidablePred r]

/-- The total of the amounts at the times that meet a condition. -/
def total (p : ℚ → Prop) [DecidablePred p] (log : List Timed) : ℚ :=
  ((log.filter fun x => decide (p x.time)).map Timed.amount).sum

@[simp] theorem total_nil : total p [] = 0 := rfl

theorem total_append : total p (log ++ [x]) = total p log + if p x.time then x.amount else 0 := by
  rw [total, total, List.filter_append, List.map_append, List.sum_append]
  by_cases hp : p x.time <;> simp [hp]

theorem total_congr (h : ∀ y ∈ log, (p y.time ↔ q y.time)) : total p log = total q log := by
  have hfilter : (log.filter fun y => decide (p y.time)) =
      log.filter fun y => decide (q y.time) :=
    List.filter_congr fun y hy => by simp [h y hy]
  rw [total, total, hfilter]

theorem total_eq_zero (h : ∀ y ∈ log, ¬p y.time) : total p log = 0 := by
  have hnil : (log.filter fun y => decide (p y.time)) = [] :=
    List.filter_eq_nil_iff.mpr fun y hy => by simpa using h y hy
  rw [total, hnil, List.map_nil, List.sum_nil]

theorem total_cons (log : List Timed) :
    total p (x :: log) = (if p x.time then x.amount else 0) + total p log := by
  by_cases hp : p x.time <;> simp [total, hp]

theorem total_nonneg (h : ∀ y ∈ log, 0 ≤ y.amount) : 0 ≤ total p log := by
  induction log with
  | nil => exact le_refl 0
  | cons x log ih =>
    rw [total_cons]
    have hrest := ih fun y hy => h y (.tail _ hy)
    have hx := h x (.head _)
    split_ifs <;> linarith

/-- A condition that two others cover has at most their totals. -/
theorem total_le_add (hnonneg : ∀ y ∈ log, 0 ≤ y.amount)
    (h : ∀ y ∈ log, p y.time → q y.time ∨ r y.time) : total p log ≤ total q log + total r log := by
  induction log with
  | nil => simp
  | cons x log ih =>
    have hrest := ih (fun y hy => hnonneg y (.tail _ hy))
      fun y hy => h y (.tail _ hy)
    have hx := hnonneg x (.head _)
    have hcover := h x (.head _)
    simp only [total_cons]
    split_ifs <;> first | linarith | simp_all

theorem total_mono (hnonneg : ∀ y ∈ log, 0 ≤ y.amount) (h : ∀ y ∈ log, p y.time → q y.time) :
    total p log ≤ total q log := by
  have hle := total_le_add (r := fun _ => False) hnonneg fun y hy hp => .inl (h y hy hp)
  have hzero : total (fun _ => False) log = 0 := total_eq_zero fun _ _ hf => hf
  linarith

end Spans
end AdapterWs
