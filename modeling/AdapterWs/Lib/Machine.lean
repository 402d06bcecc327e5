import Mathlib.Data.List.Basic
import Mathlib.Data.Option.Basic

/-!
# Event-driven machines

A `Machine` is a deterministic transition function over events: the environment picks the
next event, and `step` answers with the state after it or with `none` where the event is not
enabled. Every interleaving of a concurrent program is one list of events, so a statement
about every run is a statement about every list.

`ReachesWhere ok` keeps only the runs whose steps all meet a condition on the state before
the step. `Reaches` is the unconditional case. An invariant is proved by `invariant`, and a
concrete run is evaluated by `exec` and turned into a reached state by `exists_of_exec`.
-/

namespace AdapterWs

universe u v

theorem mem_concat {α : Type u} {l : List α} {a b : α} : a ∈ l ++ [b] ↔ a ∈ l ∨ a = b := by simp

/-- An initial state and a partial step: `step s e = none` where `s` does not enable `e`. -/
structure Machine (σ : Type u) (ε : Type v) where
  /-- The state before any event. -/
  init : σ
  /-- The state after one event, if the event is enabled. -/
  step : σ → ε → Option σ

namespace Machine

variable {σ : Type u} {ε : Type v}

/-- The state after a list of events, or `none` at the first event that is not enabled. -/
def exec (M : Machine σ ε) : σ → List ε → Option σ
  | s, [] => some s
  | s, e :: es => (M.step s e).bind fun s' => M.exec s' es

/-- The states reached by runs whose every step starts in a state that `ok` accepts. -/
inductive ReachesWhere (M : Machine σ ε) (ok : σ → ε → Prop) : List ε → σ → Prop
  | start : ReachesWhere M ok [] M.init
  | next {es : List ε} {s s' : σ} {e : ε} :
      ReachesWhere M ok es s → ok s e → M.step s e = some s' →
        ReachesWhere M ok (es ++ [e]) s'

/-- The states reached by any run. -/
def Reaches (M : Machine σ ε) : List ε → σ → Prop :=
  ReachesWhere M fun _ _ => True

variable {M : Machine σ ε} {ok : σ → ε → Prop}

@[simp] theorem exec_nil (s : σ) : M.exec s [] = some s := rfl

@[simp] theorem exec_cons (s : σ) (e : ε) (es : List ε) :
    M.exec s (e :: es) = (M.step s e).bind fun s' => M.exec s' es := rfl

/-- The invariant rule: what holds at the start and across every accepted step holds of every
state a run reaches. -/
theorem ReachesWhere.invariant {I : σ → Prop} (hinit : I M.init)
    (hstep : ∀ s e s', I s → ok s e → M.step s e = some s' → I s')
    {es : List ε} {s : σ} (h : M.ReachesWhere ok es s) : I s := by
  induction h with
  | start => exact hinit
  | next _ hok hs ih => exact hstep _ _ _ ih hok hs

/-- The invariant rule for an invariant that also reads the events of the run so far. -/
theorem ReachesWhere.invariant_trace {I : List ε → σ → Prop} (hinit : I [] M.init)
    (hstep : ∀ es s e s', I es s → ok s e → M.step s e = some s' → I (es ++ [e]) s')
    {es : List ε} {s : σ} (h : M.ReachesWhere ok es s) : I es s := by
  induction h with
  | start => exact hinit
  | next _ hok hs ih => exact hstep _ _ _ _ ih hok hs

/-- A run under a stronger condition is a run under a weaker one. -/
theorem ReachesWhere.mono {ok' : σ → ε → Prop} (hle : ∀ s e, ok s e → ok' s e)
    {es : List ε} {s : σ} (h : M.ReachesWhere ok es s) : M.ReachesWhere ok' es s := by
  induction h with
  | start => exact .start
  | next _ hok hs ih => exact .next ih (hle _ _ hok) hs

/-- A run whose events all meet a condition is a run under it. -/
theorem ReachesWhere.of_forall_mem {p : ε → Prop} {es : List ε} {s : σ}
    (h : M.ReachesWhere ok es s) (hall : ∀ e ∈ es, p e) :
    M.ReachesWhere (fun _ e => p e) es s := by
  induction h with
  | start => exact .start
  | next _ _ hs ih =>
    exact .next (ih fun e he => hall e (List.mem_append_left _ he))
      (hall _ (List.mem_concat_self)) hs

theorem ReachesWhere.reaches {es : List ε} {s : σ} (h : M.ReachesWhere ok es s) :
    M.Reaches es s :=
  h.mono fun _ _ _ => trivial

/-- Extending a run by the events that `exec` accepts from its last state. -/
theorem Reaches.exec {es fs : List ε} {s s' : σ} (h : M.Reaches es s)
    (hx : M.exec s fs = some s') : M.Reaches (es ++ fs) s' := by
  induction fs generalizing es s with
  | nil =>
    simp only [exec_nil] at hx
    cases hx
    simpa using h
  | cons e fs ih =>
    rw [exec_cons, Option.bind_eq_some_iff] at hx
    obtain ⟨t, ht, hx⟩ := hx
    have := ih (.next h trivial ht) hx
    simpa using this

/-- A list of events that `exec` accepts from the initial state is a run. -/
theorem reaches_of_exec {es : List ε} {s : σ} (h : M.exec M.init es = some s) :
    M.Reaches es s := by
  simpa using Reaches.exec (.start) h

/-- What the last state of a run shows, found by evaluation. -/
theorem exists_of_exec {es : List ε} {P : σ → Prop} [DecidablePred P]
    (h : (M.exec M.init es).any (fun s => decide (P s)) = true) : ∃ s, M.Reaches es s ∧ P s := by
  cases hx : M.exec M.init es with
  | none => simp [hx] at h
  | some s => exact ⟨s, reaches_of_exec hx, by simpa [hx] using h⟩

/-- What is proved of a run, beside what its last state shows. -/
theorem exists_and_of_exec {es : List ε} {A P : σ → Prop} [DecidablePred P]
    (h : (M.exec M.init es).any (fun s => decide (P s)) = true)
    (hA : ∀ s, M.Reaches es s → P s → A s) : ∃ s, M.Reaches es s ∧ A s ∧ P s :=
  (exists_of_exec h).imp fun s hs => ⟨hs.1, hA s hs.1 hs.2, hs.2⟩

/-- The state after a list of events whose every step meets a condition. -/
def execWhere (M : Machine σ ε) (ok : σ → ε → Prop) [∀ s e, Decidable (ok s e)] :
    σ → List ε → Option σ
  | s, [] => some s
  | s, e :: es => if ok s e then (M.step s e).bind fun s' => M.execWhere ok s' es else none

theorem ReachesWhere.execWhere [∀ s e, Decidable (ok s e)] {es fs : List ε} {s s' : σ}
    (h : M.ReachesWhere ok es s) (hx : M.execWhere ok s fs = some s') :
    M.ReachesWhere ok (es ++ fs) s' := by
  induction fs generalizing es s with
  | nil =>
    simp only [Machine.execWhere] at hx
    cases hx
    simpa using h
  | cons e fs ih =>
    by_cases hok : ok s e
    · rw [Machine.execWhere, if_pos hok, Option.bind_eq_some_iff] at hx
      obtain ⟨t, ht, hx⟩ := hx
      have := ih (.next h hok ht) hx
      simpa using this
    · rw [Machine.execWhere, if_neg hok] at hx
      cases hx

/-- What the last state of a run under a condition shows, found by evaluation. -/
theorem exists_of_execWhere [∀ s e, Decidable (ok s e)] {es : List ε} {P : σ → Prop}
    [DecidablePred P] (h : (M.execWhere ok M.init es).any (fun s => decide (P s)) = true) :
    ∃ s, M.ReachesWhere ok es s ∧ P s := by
  cases hx : M.execWhere ok M.init es with
  | none => simp [hx] at h
  | some s =>
    exact ⟨s, by simpa using ReachesWhere.execWhere .start hx, by simpa [hx] using h⟩

/-- What is proved of a run under a condition, beside what its last state shows. -/
theorem exists_and_of_execWhere [∀ s e, Decidable (ok s e)] {es : List ε} {A P : σ → Prop}
    [DecidablePred P] (h : (M.execWhere ok M.init es).any (fun s => decide (P s)) = true)
    (hA : ∀ s, M.ReachesWhere ok es s → P s → A s) : ∃ s, M.ReachesWhere ok es s ∧ A s ∧ P s :=
  (exists_of_execWhere h).imp fun s hs => ⟨hs.1, hA s hs.1 hs.2, hs.2⟩

end Machine
end AdapterWs
