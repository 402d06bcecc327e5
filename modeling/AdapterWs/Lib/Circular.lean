import Mathlib.Data.List.GetD
import Mathlib.Data.Nat.Init
import Mathlib.Logic.Function.Basic

/-!
# Circular memories

A memory of `cap` cells is written and read around its end. A run of at most `cap` cells is
written in two pieces, the second from cell zero, and is read back the same way. Positions are
taken modulo `cap`, so a position may be any number.
-/

namespace AdapterWs

open List Nat
namespace Circular

universe u

variable {α : Type u} {cap pos n m : ℕ} {data : ℕ → α} {xs : List α}

/-- The cells from `pos` on hold `xs`, the others what they held. -/
def put (data : ℕ → α) (pos : ℕ) (xs : List α) (i : ℕ) : α :=
  if i < pos then data i else xs.getD (i - pos) (data i)

/-- The `n` cells from `pos` on. -/
def window (data : ℕ → α) (pos n : ℕ) : List α := (List.range n).map fun i => data (pos + i)

/-- `xs` written from `pos` on, around the end. -/
def putAround (cap : ℕ) (data : ℕ → α) (pos : ℕ) (xs : List α) : ℕ → α :=
  put (put data pos (xs.take (cap - pos))) 0 (xs.drop (cap - pos))

/-- The `n` cells from `pos` on, around the end. -/
def around (cap : ℕ) (data : ℕ → α) (pos n : ℕ) : List α :=
  (List.range n).map fun i => data ((pos + i) % cap)

@[simp] theorem length_window : (window data pos n).length = n := by simp [window]

@[simp] theorem length_around : (around cap data pos n).length = n := by simp [around]

theorem getElem_around {i : ℕ} (hi : i < (around cap data pos n).length) :
    (around cap data pos n)[i] = data ((pos + i) % cap) := by simp [around]

theorem head?_around :
    (around cap data pos n).head? = if 0 < n then some (data (pos % cap)) else none := by
  cases n with
  | zero => rfl
  | succ n =>
    rw [around, range_succ_eq_map]
    simp

theorem around_mod : around cap data (pos % cap) n = around cap data pos n := by
  apply ext_getElem
  · simp
  · intro i hi hi'
    simp [getElem_around]

theorem around_congr (h : pos % cap = m % cap) : around cap data pos n = around cap data m n := by
  rw [← around_mod, h, around_mod]

theorem around_update {place : ℕ} {a : α} (h : ∀ i < n, (pos + i) % cap ≠ place) :
    around cap (Function.update data place a) pos n = around cap data pos n :=
  map_congr_left fun i hi => Function.update_of_ne (h i (mem_range.mp hi)) _ _

theorem around_add : around cap data pos (n + m) =
    around cap data pos n ++ around cap data (pos + n) m := by
  rw [around, range_add, map_append, map_map]
  congr 1
  apply map_congr_left
  intro i _
  simp [Nat.add_assoc]

theorem take_around (h : m ≤ n) : (around cap data pos n).take m = around cap data pos m := by
  obtain ⟨k, rfl⟩ := Nat.exists_eq_add_of_le h
  rw [around_add, take_left' length_around]

theorem drop_around (h : m ≤ n) :
    (around cap data pos n).drop m = around cap data (pos + m) (n - m) := by
  obtain ⟨k, rfl⟩ := Nat.exists_eq_add_of_le h
  rw [around_add, drop_left' length_around, Nat.add_sub_cancel_left]

theorem window_append_window (hpos : pos < cap) (hn : n ≤ cap) :
    window data pos (min n (cap - pos)) ++ window data 0 (n - min n (cap - pos)) =
      around cap data pos n := by
  apply ext_getElem
  · simp only [length_append, length_window, length_around]
    omega
  · intro i hi hi'
    rw [getElem_around, getElem_append]
    simp only [length_around] at hi'
    split
    · next hfirst =>
      rw [length_window] at hfirst
      have hin : (pos + i) % cap = pos + i := mod_eq_of_lt (by omega)
      simp [window, hin]
    · next hfirst =>
      rw [length_window] at hfirst
      have hout : (pos + i) % cap = pos + i - cap := by
        rw [mod_eq_sub_mod (by omega), mod_eq_of_lt (by omega)]
      have hcell : i - min n (cap - pos) = pos + i - cap := by omega
      simp [window, hout, hcell]

theorem putAround_apply {i : ℕ} (hpos : pos < cap) (hlen : xs.length ≤ cap) (hi : i < cap) :
    putAround cap data pos xs ((pos + i) % cap) =
      xs.getD i (data ((pos + i) % cap)) := by
  rw [putAround, put, if_neg (Nat.not_lt_zero _), Nat.sub_zero]
  by_cases hfirst : pos + i < cap
  · rw [mod_eq_of_lt hfirst]
    have hrest : (xs.drop (cap - pos)).length ≤ pos + i := by
      rw [length_drop]
      omega
    rw [getD_eq_default _ _ hrest, put, if_neg (by omega), Nat.add_sub_cancel_left]
    simp only [getD_eq_getElem?_getD, getElem?_take]
    rw [if_pos (by omega)]
  · have hout : (pos + i) % cap = pos + i - cap := by
      rw [mod_eq_sub_mod (by omega), mod_eq_of_lt (by omega)]
    rw [hout]
    have hput : put data pos (xs.take (cap - pos)) (pos + i - cap) = data (pos + i - cap) := by
      rw [put, if_pos (by omega)]
    have hindex : cap - pos + (pos + i - cap) = i := by omega
    rw [hput]
    simp [hindex]

theorem around_putAround_self (hpos : pos < cap) (hlen : xs.length ≤ cap) :
    around cap (putAround cap data pos xs) pos xs.length = xs := by
  apply ext_getElem
  · simp
  · intro i hi hi'
    rw [getElem_around, putAround_apply hpos hlen (by omega), getD_eq_getElem _ _ hi']

/-- A write leaves the run before it, as far as both fit. -/
theorem around_putAround_before (hcap : 0 < cap) (hfit : n + xs.length ≤ cap) :
    around cap (putAround cap data ((pos + n) % cap) xs) pos n = around cap data pos n := by
  apply ext_getElem
  · simp
  · intro i hi hi'
    rw [length_around] at hi'
    rw [getElem_around, getElem_around]
    have hback : ((pos + n) % cap + (cap - n + i)) % cap = (pos + i) % cap := by
      rw [mod_add_mod]
      have hsum : pos + n + (cap - n + i) = pos + i + cap := by omega
      rw [hsum, add_mod_right]
    rw [← hback, putAround_apply (mod_lt _ hcap) (by omega) (by omega),
      getD_eq_default _ _ (by omega)]

/-- Two positions of a run of at most `cap` cells are different cells. -/
theorem add_mod_ne {i j : ℕ} (hij : i < j) (hj : j < i + cap) : (pos + i) % cap ≠ (pos + j) % cap := by
  intro heq
  obtain ⟨k, rfl⟩ := Nat.exists_eq_add_of_lt hij
  have hsub : (pos + (i + k + 1)) % cap = ((pos + i) % cap + (k + 1)) % cap := by
    rw [mod_add_mod]
    congr 1
    omega
  rw [hsub] at heq
  have hk : k + 1 < cap := by omega
  have hlt := mod_lt (pos + i) (show 0 < cap by omega)
  generalize (pos + i) % cap = r at heq hlt
  rcases Nat.lt_or_ge (r + (k + 1)) cap with h | h
  · rw [Nat.mod_eq_of_lt h] at heq
    omega
  · rw [mod_eq_sub_mod h, mod_eq_of_lt (by omega)] at heq
    omega

end Circular
end AdapterWs
