import Mathlib.Data.List.Basic

/-!
# Computations that throw

A reader changes a state as it goes and may throw. What it wrote before it threw stays written.
-/

namespace AdapterWs

universe u v w

/-- A computation over a state that returns a value or throws. -/
def Throwing (σ : Type u) (α : Type v) := σ → Option α × σ

namespace Throwing

variable {σ : Type u} {τ : Type u} {α : Type v} {β : Type v}

/-- `x`, and if it returns `f` of what it returned. -/
def andThen (x : Throwing σ α) (f : α → Throwing σ β) : Throwing σ β := fun s =>
  match x s with
  | (some a, s) => f a s
  | (none, s) => (none, s)

instance : Monad (Throwing.{u, v} σ) where
  pure a := fun s => (some a, s)
  bind := andThen

/-- `throw`, or a return that gives up. -/
def throw : Throwing σ α := fun s => (none, s)

/-- A computation on a part of the state. -/
def onPart (get : σ → τ) (put : σ → τ → σ) (x : Throwing τ α) : Throwing σ α := fun s =>
  ((x (get s)).1, put s (x (get s)).2)

/-- `n` rounds, and what they return in order. -/
def times : ℕ → Throwing σ α → Throwing σ (List α)
  | 0, _ => pure []
  | n + 1, x => do
    let a ← x
    let as ← times n x
    pure (a :: as)

/-- The computation returns. -/
def Gives (x : Throwing σ α) (s : σ) (a : α) (s' : σ) : Prop := x s = (some a, s')

variable {x : Throwing σ α} {f : α → Throwing σ β} {s s' s'' : σ} {a : α} {b : β} {n : ℕ}

theorem gives_pure (a : α) (s : σ) : Gives (pure a) s a s := rfl

theorem Gives.bind (hx : x.Gives s a s') (hf : (f a).Gives s' b s'') : (x >>= f).Gives s b s'' := by
  change (match x s with
    | (some a, s) => f a s
    | (none, s) => (none, s)) = (some b, s'')
  rw [show x s = (some a, s') from hx]
  exact hf

theorem Gives.bind_eq (hx : x.Gives s a s') : (x >>= f) s = f a s' := by
  change (match x s with
    | (some a, s) => f a s
    | (none, s) => (none, s)) = _
  rw [show x s = (some a, s') from hx]

theorem Gives.of_bind (h : (x >>= f).Gives s b s'') :
    ∃ a s', x.Gives s a s' ∧ (f a).Gives s' b s'' := by
  change (match x s with
    | (some a, s) => f a s
    | (none, s) => (none, s)) = (some b, s'') at h
  split at h
  next a s' heq => exact ⟨a, s', heq, h⟩
  next => cases h

theorem Gives.map {g : α → β} (hx : x.Gives s a s') :
    (x >>= fun a => pure (g a)).Gives s (g a) s' :=
  hx.bind (gives_pure (g a) s')

theorem Gives.onPart {x : Throwing τ α} {get : σ → τ} {put : σ → τ → σ} {t : τ}
    (hx : x.Gives (get s) a t) : (x.onPart get put).Gives s a (put s t) := by
  rw [Gives, Throwing.onPart, show x (get s) = (some a, t) from hx]

theorem gives_times_zero (x : Throwing σ α) (s : σ) : (times 0 x).Gives s [] s := rfl

theorem Gives.times_succ {as : List α} (hx : x.Gives s a s') (hrest : (times n x).Gives s' as s'') :
    (times (n + 1) x).Gives s (a :: as) s'' :=
  hx.bind (hrest.bind (gives_pure (a :: as) s''))

theorem bind_apply (x : Throwing σ α) (f : α → Throwing σ β) (s : σ) : (x >>= f) s =
    match x s with
    | (some a, s) => f a s
    | (none, s) => (none, s) := rfl

/-- A loop that returns has returned the first round and the others. -/
theorem times_succ_eq_some {l : List α} (hx : x.Gives s a s')
    (h : (times (n + 1) x s).1 = some l) : ∃ as, (times n x s').1 = some as ∧ l = a :: as := by
  simp only [times, bind_apply, show x s = (some a, s') from hx] at h
  split at h
  · next as t heq =>
    cases h
    exact ⟨as, by rw [heq], rfl⟩
  · cases h

end Throwing
end AdapterWs
