import AdapterWs.Lib.Circular
import AdapterWs.Lib.Machine
import Mathlib.Data.Nat.Basic

/-!
# The pacing queue of the upgrades

Callbacks beyond the budget of a turn wait in a ring. A drain resets the counter and runs what the
budget allows, and there is another drain until one has nothing to run.
-/

namespace AdapterWs.UpgradeGate

open Circular Function

/-- The options of the pacing. -/
structure PacingOptions where
  perTickBudget : ℕ
  maxDeferred : ℕ

/-- The pacing of the upgrades, where a callback is the number of its `admit` call. With it, the
callbacks that were admitted and those that ran, and how many ran since the last drain started. -/
structure Pacing where
  perTickCount : ℕ
  deferred : ℕ → Option ℕ
  deferredHead : ℕ
  deferredTail : ℕ
  deferredDepth : ℕ
  deferredRejectedTotal : ℕ
  drainScheduled : Bool
  calls : ℕ
  admitted : List ℕ
  ran : List ℕ
  drained : ℕ
  synchronous : ℕ

namespace Pacing

/-- `admit(fn)`: whether the callback ran, or `none` where the queue is full. -/
def admitFn (o : PacingOptions) (s : Pacing) : Option Bool × Pacing :=
  let fn := s.calls
  let s := { s with calls := fn + 1 }
  if o.perTickBudget = 0 then
    (some true, { s with ran := s.ran ++ [fn], synchronous := s.synchronous + 1 })
  else if s.perTickCount < o.perTickBudget then
    (some true,
      { s with
        perTickCount := s.perTickCount + 1
        drainScheduled := true
        ran := s.ran ++ [fn]
        synchronous := s.synchronous + 1 })
  else if o.maxDeferred ≤ s.deferredDepth then
    (none, { s with deferredRejectedTotal := s.deferredRejectedTotal + 1 })
  else
    (some false,
      { s with
        deferred := update s.deferred s.deferredTail (some fn)
        deferredTail := if s.deferredTail + 1 = o.maxDeferred then 0 else s.deferredTail + 1
        deferredDepth := s.deferredDepth + 1
        drainScheduled := true })

/-- What `hasCapacity()` asks of the pacing. -/
def hasCapacity (o : PacingOptions) (s : Pacing) : Bool :=
  !(decide (0 < o.perTickBudget) && decide (o.perTickBudget ≤ s.perTickCount) &&
    decide (o.maxDeferred ≤ s.deferredDepth))

/-- `dequeue()`. -/
def dequeue (o : PacingOptions) (s : Pacing) : Option ℕ × Pacing :=
  let depth := s.deferredDepth - 1
  (s.deferred s.deferredHead,
    { s with
      deferred := update s.deferred s.deferredHead none
      deferredHead :=
        if depth = 0 then 0
        else if s.deferredHead + 1 = o.maxDeferred then 0 else s.deferredHead + 1
      deferredTail := if depth = 0 then 0 else s.deferredTail
      deferredDepth := depth })

/-- The loop of `drain()`. What a callback throws is caught. -/
def drainLoop (o : PacingOptions) : ℕ → Pacing → Pacing
  | 0, s => s
  | turns + 1, s =>
    if s.perTickCount < o.perTickBudget ∧ 0 < s.deferredDepth then
      let (entry, s) := s.dequeue o
      drainLoop o turns
        { s with
          perTickCount := s.perTickCount + 1
          ran := s.ran ++ entry.toList
          drained := s.drained + 1 }
    else s

/-- `drain()`. -/
def drain (o : PacingOptions) (s : Pacing) : Pacing :=
  let s := drainLoop o o.perTickBudget
    { s with drainScheduled := false, perTickCount := 0, drained := 0, synchronous := 0 }
  if 0 < s.deferredDepth ∨ 0 < s.perTickCount then { s with drainScheduled := true } else s

/-- The callbacks that wait, the oldest first. -/
def retained (o : PacingOptions) (s : Pacing) : List ℕ :=
  (around o.maxDeferred s.deferred s.deferredHead s.deferredDepth).filterMap id

end Pacing

/-- What happens to the pacing. -/
inductive PacingEvent
  | admitFn
  | drain

/-- Calls of `admit`, and drains that were scheduled. -/
def pacing (o : PacingOptions) : Machine Pacing PacingEvent where
  init := ⟨0, fun _ => none, 0, 0, 0, 0, false, 0, [], [], 0, 0⟩
  step s
    | .admitFn =>
      match s.admitFn o with
      | (none, s') => some s'
      | (some _, s') => some { s' with admitted := s.admitted ++ [s.calls] }
    | .drain => if s.drainScheduled = true then some (s.drain o) else none

/-- What is promised of a state. -/
structure Paced (o : PacingOptions) (s : Pacing) : Prop where
  synchronous : s.synchronous ≤ o.perTickBudget
  drained : s.drained ≤ o.perTickBudget
  ordered : s.ran ++ s.retained o = s.admitted
  increasing : s.admitted.Pairwise (· < ·)
  bounded : (s.retained o).length ≤ o.maxDeferred
  scheduled : s.retained o ≠ [] ∨ s.perTickCount ≠ 0 → s.drainScheduled = true
  capacity : s.hasCapacity o = false ↔ (s.admitFn o).1 = none
  emptied : ∃ n s', (pacing o).exec s (List.replicate n .drain) = some s' ∧ s'.ran = s.admitted

variable {o : PacingOptions} {s : Pacing} {l : List ℕ} {fn : ℕ}

/-! ## The ring -/

theorem next_mod {a cap : ℕ} (hcap : 0 < cap) :
    (if a % cap + 1 = cap then 0 else a % cap + 1) = (a + 1) % cap := by
  rw [← Nat.mod_add_mod]
  split
  · next hend => rw [hend, Nat.mod_self]
  · have hlt := Nat.mod_lt a hcap
    exact (Nat.mod_eq_of_lt (by omega)).symm

/-- A ring of `cap` places holds these callbacks. -/
structure Rings (cap : ℕ) (deferred : ℕ → Option ℕ) (head tail depth : ℕ) (l : List ℕ) : Prop where
  view : around cap deferred head depth = l.map some
  head_mod : head % cap = head
  tail_eq : tail = (head + depth) % cap
  le : depth ≤ cap

section

variable {cap head tail depth : ℕ} {deferred : ℕ → Option ℕ}

theorem Rings.depth_eq (h : Rings cap deferred head tail depth l) : depth = l.length := by
  simpa using congrArg List.length h.view

theorem Rings.filterMap (h : Rings cap deferred head tail depth l) :
    (around cap deferred head depth).filterMap id = l := by
  rw [h.view, List.filterMap_map]
  exact List.filterMap_some

theorem Rings.enqueue (h : Rings cap deferred head tail depth l) (hroom : depth < cap) :
    Rings cap (update deferred tail (some fn)) head (if tail + 1 = cap then 0 else tail + 1)
      (depth + 1) (l ++ [fn]) := by
  refine ⟨?_, h.head_mod, ?_, hroom⟩
  · rw [around_add, List.map_append, ← h.view, h.tail_eq]
    congr 1
    · exact around_update fun i hi => add_mod_ne hi (by omega)
    · simp [around]
  · rw [h.tail_eq, next_mod (by omega), Nat.add_assoc]

theorem Rings.dequeue (h : Rings cap deferred head tail depth (fn :: l)) :
    deferred head = some fn ∧ Rings cap (update deferred head none)
      (if depth - 1 = 0 then 0 else if head + 1 = cap then 0 else head + 1)
      (if depth - 1 = 0 then 0 else tail) (depth - 1) l := by
  have hle := h.le
  have hview := h.view
  cases h.depth_eq
  rw [List.length_cons, Nat.add_comm, around_add, List.map_cons, ← List.singleton_append] at hview
  obtain ⟨hfirst, hrest⟩ := List.append_inj hview (by simp)
  simp only [around, List.range_one, List.map_cons, List.map_nil, List.cons.injEq, Nat.add_zero,
    h.head_mod, and_true] at hfirst
  refine ⟨hfirst, ?_⟩
  rw [List.length_cons] at hle ⊢
  rw [Nat.add_sub_cancel]
  split
  · next hlast =>
    cases List.length_eq_zero_iff.mp hlast
    exact ⟨rfl, Nat.zero_mod _, (Nat.zero_mod _).symm, Nat.zero_le _⟩
  · next hmore =>
    have hnext : (if head + 1 = cap then 0 else head + 1) = (head + 1) % cap := by
      rw [← next_mod (by omega), h.head_mod]
    rw [hnext]
    refine ⟨?_, Nat.mod_mod _ _, ?_, by omega⟩
    · rw [around_mod]
      refine (around_update fun i hi heq => ?_).trans hrest
      have hne : (head + 0) % cap ≠ (head + i.succ) % cap :=
        add_mod_ne (Nat.succ_pos i) (by omega)
      rw [Nat.add_zero, h.head_mod, Nat.succ_eq_add_one, Nat.add_comm i, ← Nat.add_assoc] at hne
      exact hne heq.symm
    · rw [Nat.mod_add_mod, h.tail_eq, List.length_cons]
      congr 1
      omega

end

/-! ## Runs -/

/-- What the loop of a drain keeps too. -/
structure Waiting (o : PacingOptions) (s : Pacing) (l : List ℕ) : Prop where
  rings : Rings o.maxDeferred s.deferred s.deferredHead s.deferredTail s.deferredDepth l
  ordered : s.ran ++ l = s.admitted
  increasing : s.admitted.Pairwise (· < ·)
  issued : ∀ fn ∈ s.admitted, fn < s.calls
  counted : s.perTickCount = s.drained + s.synchronous
  within : s.perTickCount ≤ o.perTickBudget

/-- The loop runs callbacks until there are none or the budget is spent. -/
theorem Waiting.drainLoop (turns : ℕ) (h : Waiting o s l) : ∃ l', Waiting o (s.drainLoop o turns) l' ∧
    (s.drainLoop o turns).admitted = s.admitted ∧
    (s.drainLoop o turns).perTickCount + l'.length = s.perTickCount + l.length ∧
    (o.perTickBudget ≤ s.perTickCount + turns →
      l' = [] ∨ (s.drainLoop o turns).perTickCount = o.perTickBudget) := by
  induction turns generalizing s l with
  | zero => exact ⟨l, h, rfl, rfl, fun hspent => .inr (Nat.le_antisymm h.within hspent)⟩
  | succ turns ih =>
    rw [Pacing.drainLoop]
    split
    · next hgo =>
      cases l with
      | nil =>
        have hdepth := h.rings.depth_eq
        exact absurd hgo.2 (by simp [hdepth])
      | cons fn l =>
        obtain ⟨hentry, hrings⟩ := h.rings.dequeue
        have hnext : Waiting o { (s.dequeue o).2 with
            perTickCount := s.perTickCount + 1
            ran := s.ran ++ (s.deferred s.deferredHead).toList
            drained := s.drained + 1 } l := by
          refine ⟨hrings, ?_, h.increasing, h.issued, ?_, hgo.1⟩
          · simp only [hentry, Option.toList_some, List.append_assoc]
            exact h.ordered
          · have hcounted := h.counted
            simp only [Pacing.dequeue]
            omega
        obtain ⟨l', hl', hadmitted, hcount, hend⟩ := ih hnext
        refine ⟨l', hl', hadmitted, hcount.trans ?_, fun hspent => hend ?_⟩
        · rw [List.length_cons, Nat.add_assoc, Nat.add_comm 1]
        · simp only
          omega
    · next hstop =>
      refine ⟨l, h, rfl, rfl, fun _ => ?_⟩
      have hdepth := h.rings.depth_eq
      have hwithin := h.within
      rw [not_and_or, Nat.not_lt, Nat.not_lt, hdepth, Nat.le_zero, List.length_eq_zero_iff] at hstop
      exact hstop.symm.imp_right fun hspent => Nat.le_antisymm hwithin hspent

/-- What every state keeps: while callbacks wait the budget is spent, and a drain will come. -/
structure Settled (o : PacingOptions) (s : Pacing) (l : List ℕ) : Prop extends Waiting o s l where
  spent : l ≠ [] → s.perTickCount = o.perTickBudget
  scheduled : l ≠ [] ∨ s.perTickCount ≠ 0 → s.drainScheduled = true

theorem Settled.drain (hbudget : 0 < o.perTickBudget) (h : Settled o s l) :
    ∃ l', Settled o (s.drain o) l' ∧ (s.drain o).admitted = s.admitted ∧
      (l ≠ [] → l'.length < l.length) := by
  obtain ⟨l', hl', hadmitted, hcount, hend⟩ := Waiting.drainLoop (o := o) o.perTickBudget
    (s := { s with drainScheduled := false, perTickCount := 0, drained := 0, synchronous := 0 })
    (l := l) ⟨h.rings, h.ordered, h.increasing,
      h.issued, rfl, Nat.zero_le _⟩
  have hspent := hend (Nat.le_add_left _ _)
  have hshort : l ≠ [] → l'.length < l.length := by
    intro hne
    have hpos := List.length_pos_iff.mpr hne
    rcases hspent with rfl | hfull
    · exact hpos
    · rw [hfull, Nat.zero_add] at hcount
      omega
  have hdepth := hl'.rings.depth_eq
  rw [Pacing.drain]
  split
  · exact ⟨l', ⟨⟨hl'.rings, hl'.ordered, hl'.increasing, hl'.issued, hl'.counted, hl'.within⟩,
      hspent.resolve_left, fun _ => rfl⟩, hadmitted, hshort⟩
  · next hidle =>
    rw [not_or, Nat.not_lt, Nat.not_lt, hdepth, Nat.le_zero, Nat.le_zero,
      List.length_eq_zero_iff] at hidle
    exact ⟨l', ⟨hl', hspent.resolve_left, fun hwaits => (hwaits.elim (absurd hidle.1)
      (absurd hidle.2))⟩, hadmitted, hshort⟩

theorem Settled.step {s' : Pacing} {e : PacingEvent} (hbudget : 0 < o.perTickBudget)
    (h : Settled o s l) (hs : (pacing o).step s e = some s') : ∃ l', Settled o s' l' := by
  cases e with
  | admitFn =>
    have hissued : ∀ fn ∈ s.admitted ++ [s.calls], fn < s.calls + 1 := by
      intro fn hfn
      rcases mem_concat.mp hfn with hold | rfl
      · exact Nat.lt_succ_of_lt (h.issued fn hold)
      · exact Nat.lt_succ_self _
    have hincreasing : (s.admitted ++ [s.calls]).Pairwise (· < ·) :=
      List.pairwise_append.mpr ⟨h.increasing, List.pairwise_singleton _ _, fun fn hfn _ hnew =>
        List.mem_singleton.mp hnew ▸ h.issued fn hfn⟩
    have hcounted := h.counted
    simp only [pacing, Pacing.admitFn, if_neg (Nat.ne_of_gt hbudget)] at hs
    by_cases hroom : s.perTickCount < o.perTickBudget
    · simp only [if_pos hroom] at hs
      cases hs
      cases show l = [] from by_contra fun hne => absurd (h.spent hne) (Nat.ne_of_lt hroom)
      refine ⟨[], ⟨h.rings, ?_, hincreasing, hissued, ?_, hroom⟩, absurd rfl, fun _ => rfl⟩
      · rw [List.append_nil, ← h.ordered, List.append_nil]
      · simp only
        omega
    · have hfull : s.perTickCount = o.perTickBudget := Nat.le_antisymm h.within (Nat.not_lt.mp hroom)
      simp only [if_neg hroom] at hs
      by_cases hover : o.maxDeferred ≤ s.deferredDepth
      · simp only [if_pos hover] at hs
        cases hs
        exact ⟨l, ⟨h.rings, h.ordered, h.increasing,
          fun fn hfn => Nat.lt_succ_of_lt (h.issued fn hfn), hcounted, h.within⟩, h.spent,
          h.scheduled⟩
      · simp only [if_neg hover] at hs
        cases hs
        refine ⟨l ++ [s.calls], ⟨h.rings.enqueue (Nat.not_le.mp hover), ?_, hincreasing, hissued,
          hcounted, h.within⟩, fun _ => hfull, fun _ => rfl⟩
        rw [← List.append_assoc, h.ordered]
  | drain =>
    obtain ⟨-, ⟨⟩⟩ := Option.ite_none_right_eq_some.mp hs
    exact (h.drain hbudget).imp fun _ hl' => hl'.1

theorem Settled.emptied (hbudget : 0 < o.perTickBudget) (n : ℕ) (hn : l.length ≤ n)
    (h : Settled o s l) : ∃ m s', (pacing o).exec s (List.replicate m .drain) = some s' ∧
      s'.ran = s.admitted := by
  induction n generalizing s l with
  | zero =>
    cases List.length_eq_zero_iff.mp (Nat.le_zero.mp hn)
    exact ⟨0, s, rfl, by simpa using h.ordered⟩
  | succ n ih =>
    by_cases hne : l = []
    · cases hne
      exact ⟨0, s, rfl, by simpa using h.ordered⟩
    · obtain ⟨l', hl', hadmitted, hshort⟩ := h.drain hbudget
      obtain ⟨m, s', hs', hran⟩ := ih (by have := hshort hne; omega) hl'
      refine ⟨m + 1, s', ?_, hran.trans hadmitted⟩
      rw [List.replicate_succ, Machine.exec_cons]
      simp only [pacing, h.scheduled (.inl hne), if_true]
      exact hs'

/-- The queue answers a call with `none` exactly where it has no capacity. -/
theorem hasCapacity_eq_false_iff : s.hasCapacity o = false ↔ (s.admitFn o).1 = none := by
  simp only [Pacing.hasCapacity, Pacing.admitFn, Bool.not_eq_false', Bool.and_eq_true,
    decide_eq_true_eq]
  split_ifs <;> simp <;> omega

/-- The promise is kept in every run. -/
theorem paced_run {es : List PacingEvent} (hbudget : 0 < o.perTickBudget)
    (h : (pacing o).Reaches es s) : Paced o s := by
  have hsettled : ∃ l, Settled o s l := by
    refine h.invariant (I := fun s => ∃ l, Settled o s l) ?_
      fun _ _ _ hI _ hs => hI.elim fun _ hl => hl.step hbudget hs
    exact ⟨[], ⟨⟨⟨rfl, Nat.zero_mod _, (Nat.zero_mod _).symm, Nat.zero_le _⟩, rfl, .nil,
      fun _ hfn => absurd hfn List.not_mem_nil, rfl, Nat.zero_le _⟩, fun hne => absurd rfl hne,
      fun hwaits => hwaits.elim (absurd rfl) (absurd rfl)⟩⟩
  obtain ⟨l, hl⟩ := hsettled
  have hretained : s.retained o = l := hl.rings.filterMap
  have hcounted := hl.counted
  have hwithin := hl.within
  refine ⟨by omega, by omega, by rw [hretained, hl.ordered], hl.increasing, ?_, ?_,
    hasCapacity_eq_false_iff, hl.emptied hbudget l.length le_rfl⟩
  · rw [hretained, ← hl.rings.depth_eq]
    exact hl.rings.le
  · rw [hretained]
    exact hl.scheduled

/-- A ring of two places around its end, with one callback refused. -/
theorem paced_run_wrapped : ∃ s, (pacing ⟨1, 2⟩).Reaches
    [.admitFn, .admitFn, .admitFn, .admitFn, .drain, .admitFn, .drain] s ∧ Paced ⟨1, 2⟩ s ∧
      s.ran = [0, 1, 2] ∧ s.retained ⟨1, 2⟩ = [4] ∧ s.deferredRejectedTotal = 1 :=
  Machine.exists_and_of_exec (by decide) fun _ hs _ => paced_run (by decide) hs

end AdapterWs.UpgradeGate
