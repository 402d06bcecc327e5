import AdapterWs.Lib.JsMap
import AdapterWs.Lib.JsString
import Mathlib.Algebra.Order.Ring.Rat
import Mathlib.Tactic.Linarith

/-!
# The circuits of the endpoints

A breaker has a slot for each key that failed of late, and drops slots that record no failure. Above
it is a breaker with a circuit for every key and no slots, whose calls may only be missed by a
circuit that has seen no failure.
-/

namespace AdapterWs.Webhooks

open JsMap List

/-- The options that `createWebhookBreaker` accepts. -/
structure BreakerOptions where
  failureThreshold : ℕ
  resetMs : ℚ
  maxKeys : ℕ
  failureThreshold_pos : 1 ≤ failureThreshold
  resetMs_nonneg : 0 ≤ resetMs
  maxKeys_pos : 1 ≤ maxKeys

inductive Health
  | healthy
  | broken
  | probing
  deriving DecidableEq

/-- What a slot holds. -/
structure CircuitState where
  state : Health
  failures : ℕ
  openedAt : ℚ
  deriving DecidableEq

/-- What is called on the circuit of a key. -/
inductive CircuitCall
  | guard
  | success
  | failure
  deriving DecidableEq

/-- A call of the breaker; `reset()` is without a key. -/
inductive BreakerCall
  | on (call : CircuitCall) (key : JsString)
  | reset (key : Option JsString)
  deriving DecidableEq

namespace CircuitState

/-- The state of a key without a slot. -/
def fresh : CircuitState := ⟨.healthy, 0, 0⟩

def holdsFailureRecord (c : CircuitState) : Bool :=
  decide (c.state ≠ .healthy) || decide (0 < c.failures)

variable (o : BreakerOptions) (now : ℚ)

/-- `guard(key)` on the state of the key: `false` where it throws. -/
def guard (c : CircuitState) : Bool × CircuitState :=
  match c.state with
  | .healthy => (true, c)
  | .broken =>
    if o.resetMs ≤ now - c.openedAt then (true, { c with state := .probing }) else (false, c)
  | .probing => (false, c)

/-- `success(key)` on the state of the key. -/
def success (c : CircuitState) : CircuitState := { c with failures := 0, state := .healthy }

/-- `failure(err, key)` on the state of the key. -/
def failure (c : CircuitState) : CircuitState :=
  if c.state = .probing then { c with state := .broken, openedAt := now }
  else
    let failures := if c.failures < o.failureThreshold then c.failures + 1 else c.failures
    if c.state = .healthy ∧ o.failureThreshold ≤ failures then ⟨.broken, failures, now⟩
    else { c with failures := failures }

def call (c : CircuitState) : CircuitCall → Bool × CircuitState
  | .guard => c.guard o now
  | .success => (true, c.success)
  | .failure => (true, c.failure o now)

end CircuitState

/-- The slots, and until when no sweep runs. -/
structure Breaker where
  states : JsMap JsString CircuitState
  sweepBlockedUntil : ℚ

/-- What `stateFor` returns: a state, and whether it is that of a slot. -/
structure Found where
  circuit : CircuitState
  tracked : Bool
  breaker : Breaker

/-- The state is changed in its slot, if it has one. -/
def Found.put (f : Found) (key : JsString) (c : CircuitState) : Breaker :=
  if f.tracked then { f.breaker with states := f.breaker.states.set key c } else f.breaker

namespace Breaker

variable (o : BreakerOptions) (now : ℚ)

/-- `sweepReclaimable(states, holdsFailureRecord)`. -/
def sweepReclaimable (states : JsMap JsString CircuitState) : JsMap JsString CircuitState :=
  states.filter fun key c => decide (key = []) || c.holdsFailureRecord

/-- `stateFor(key)`. -/
def stateFor (s : Breaker) (key : JsString) : Found :=
  match s.states.get key with
  | some c => ⟨c, true, s⟩
  | none =>
    if ¬key = [] ∧ o.maxKeys ≤ s.states.size then
      let swept := sweepReclaimable s.states
      if now < s.sweepBlockedUntil then ⟨.fresh, false, s⟩
      else if swept.size = s.states.size then ⟨.fresh, false, ⟨swept, now + 1000⟩⟩
      else ⟨.fresh, true, { s with states := swept.set key .fresh }⟩
    else ⟨.fresh, true, { s with states := s.states.set key .fresh }⟩

/-- A call: whether it returned, and the breaker after it. -/
def call (s : Breaker) : BreakerCall → Bool × Breaker
  | .on call key =>
    let found := s.stateFor o now key
    ((found.circuit.call o now call).1, found.put key (found.circuit.call o now call).2)
  | .reset none => (true, ⟨.empty, 0⟩)
  | .reset (some key) =>
    match s.states.get key with
    | none => (true, ⟨s.states, 0⟩)
    | some _ => (true, ⟨s.states.set key .fresh, 0⟩)

/-- Which of some calls returned. -/
def answers (s : Breaker) : List (ℚ × BreakerCall) → List Bool
  | [] => []
  | c :: calls => (s.call o c.1 c.2).1 :: answers (s.call o c.1 c.2).2 calls

end Breaker

/-! ## Circuits without slots -/

/-- The circuit of an endpoint. -/
inductive Circuit
  | closed (failures : ℕ)
  | opened (since : ℚ)
  | probing
  deriving DecidableEq

variable {o : BreakerOptions} {now : ℚ}

/-- A call on a circuit. -/
def Circuit.call (o : BreakerOptions) (now : ℚ) : Circuit → CircuitCall → Bool × Circuit
  | .closed n, .guard => (true, .closed n)
  | .opened t, .guard => if o.resetMs ≤ now - t then (true, .probing) else (false, .opened t)
  | .probing, .guard => (false, .probing)
  | _, .success => (true, .closed 0)
  | .closed n, .failure =>
    (true, if o.failureThreshold ≤ n + 1 then .opened now else .closed (n + 1))
  | .opened t, .failure => (true, .opened t)
  | .probing, .failure => (true, .opened now)

/-- What a call may do to the circuits: a circuit that saw no failure may miss its call. -/
inductive CircuitStep (o : BreakerOptions) (now : ℚ) (f : JsString → Circuit) :
    BreakerCall → Bool → (JsString → Circuit) → Prop
  | seen (call : CircuitCall) (key : JsString) :
      CircuitStep o now f (.on call key) ((f key).call o now call).1
        (Function.update f key ((f key).call o now call).2)
  | missed (call : CircuitCall) (key : JsString) (hclosed : f key = .closed 0) :
      CircuitStep o now f (.on call key) true f
  | reset (key : JsString) :
      CircuitStep o now f (.reset (some key)) true (Function.update f key (.closed 0))
  | resetAll : CircuitStep o now f (.reset none) true fun _ => .closed 0

/-- Calls on the circuits, and which of them returned. -/
inductive CircuitRun (o : BreakerOptions) :
    (JsString → Circuit) → List (ℚ × BreakerCall) → List Bool → Prop
  | nil (f : JsString → Circuit) : CircuitRun o f [] []
  | cons {f f' : JsString → Circuit} {now : ℚ} {c : BreakerCall} {answer : Bool}
      {calls : List (ℚ × BreakerCall)} {answers : List Bool}
      (hstep : CircuitStep o now f c answer f') (hrun : CircuitRun o f' calls answers) :
      CircuitRun o f ((now, c) :: calls) (answer :: answers)

/-- The circuit a slot stands for. -/
def CircuitState.circuit (c : CircuitState) : Circuit :=
  match c.state with
  | .healthy => .closed c.failures
  | .broken => .opened c.openedAt
  | .probing => .probing

/-- The circuit of a key, with a slot or without. -/
def Breaker.circuit (s : Breaker) (key : JsString) : Circuit :=
  match s.states.get key with
  | none => .closed 0
  | some c => c.circuit

/-! ## Slots are not observed -/

variable {s : Breaker} {key : JsString} {c : CircuitState}

theorem circuit_call (o : BreakerOptions) (now : ℚ) (c : CircuitState) (call : CircuitCall) :
    (c.call o now call).1 = (c.circuit.call o now call).1 ∧
    (c.call o now call).2.circuit = (c.circuit.call o now call).2 := by
  obtain ⟨state, failures, openedAt⟩ := c
  cases call <;> cases state
  all_goals
    simp only [CircuitState.call, CircuitState.guard, CircuitState.success, CircuitState.failure,
      CircuitState.circuit, Circuit.call]
    try split_ifs
  all_goals simp_all <;> omega

theorem circuit_set (k : JsString) : (Breaker.mk (s.states.set key c) now).circuit k =
    Function.update s.circuit key c.circuit k := by
  rw [Breaker.circuit, get_set, Function.update_apply]
  by_cases h : key = k
  · rw [if_pos h, if_pos h.symm]
  · rw [if_neg h, if_neg (Ne.symm h)]
    rfl

/-- What a sweep drops is as if it were still there. -/
theorem circuit_sweepReclaimable (k : JsString) :
    (Breaker.mk (Breaker.sweepReclaimable s.states) now).circuit k = s.circuit k := by
  rw [Breaker.circuit, Breaker.circuit, Breaker.sweepReclaimable, get_filter]
  cases s.states.get k with
  | none => rfl
  | some c =>
    rw [Option.filter_some]
    split_ifs with hkept
    · rfl
    · simp_all [CircuitState.holdsFailureRecord, CircuitState.circuit]

/-- A state that is found stands for the circuit of its key, and finding it changes no circuit. -/
structure Found.Stands (s : Breaker) (key : JsString) (f : Found) : Prop where
  circuit : f.circuit.circuit = s.circuit key
  unchanged : f.breaker.circuit = s.circuit
  untracked : f.tracked = false → s.circuit key = .closed 0

theorem stands_stateFor (o : BreakerOptions) (now : ℚ) (s : Breaker) (key : JsString) :
    (s.stateFor o now key).Stands s key := by
  rw [Breaker.stateFor]
  cases hget : s.states.get key with
  | some c =>
    have hcircuit : s.circuit key = c.circuit := by rw [Breaker.circuit, hget]
    exact ⟨hcircuit.symm, rfl, nofun⟩
  | none =>
    have hcircuit : s.circuit key = .closed 0 := by rw [Breaker.circuit, hget]
    have hfresh {states : JsMap JsString CircuitState}
        (h : ∀ t k, (Breaker.mk states t).circuit k = s.circuit k) :
        (Breaker.mk (states.set key .fresh) s.sweepBlockedUntil).circuit = s.circuit := by
      funext k
      refine (circuit_set (s := ⟨states, s.sweepBlockedUntil⟩) k).trans ?_
      rw [funext (h _), show CircuitState.fresh.circuit = s.circuit key from hcircuit.symm,
        Function.update_eq_self]
    simp only
    split_ifs
    · exact ⟨hcircuit.symm, rfl, fun _ => hcircuit⟩
    · exact ⟨hcircuit.symm, funext circuit_sweepReclaimable, fun _ => hcircuit⟩
    · exact ⟨hcircuit.symm, hfresh fun _ => circuit_sweepReclaimable, nofun⟩
    · exact ⟨hcircuit.symm, hfresh fun _ _ => rfl, nofun⟩

theorem circuitStep_call (c : BreakerCall) :
    CircuitStep o now s.circuit c (s.call o now c).1 (s.call o now c).2.circuit := by
  cases c with
  | on call key =>
    obtain ⟨hcircuit, hunchanged, huntracked⟩ := stands_stateFor o now s key
    obtain ⟨hanswer, hafter⟩ := circuit_call o now (s.stateFor o now key).circuit call
    rw [Breaker.call, hanswer, hcircuit, Found.put]
    rw [hcircuit] at hafter
    split_ifs with htracked
    · rw [funext circuit_set, hafter, hunchanged]
      exact .seen call key
    · have hclosed := huntracked (Bool.not_eq_true _ ▸ htracked)
      have hanswer : ((s.circuit key).call o now call).1 = true := by
        rw [hclosed]
        cases call <;> rfl
      rw [hunchanged, hanswer]
      exact .missed call key hclosed
  | reset key =>
    cases key with
    | none => exact .resetAll
    | some key =>
      have hreset : Function.update s.circuit key (.closed 0) =
          (s.call o now (.reset (some key))).2.circuit := by
        rw [Breaker.call]
        cases hget : s.states.get key with
        | none =>
          rw [Function.update_eq_iff]
          exact ⟨by rw [Breaker.circuit, hget], fun _ _ => rfl⟩
        | some c =>
          simp only
          exact funext fun k => (circuit_set (c := .fresh) k).symm
      have hanswer : (s.call o now (.reset (some key))).1 = true := by
        rw [Breaker.call]
        cases s.states.get key <;> rfl
      rw [← hreset, hanswer]
      exact .reset key

theorem circuitRun_answers (o : BreakerOptions) (s : Breaker) (calls : List (ℚ × BreakerCall)) :
    CircuitRun o s.circuit calls (s.answers o calls) := by
  induction calls generalizing s with
  | nil => exact .nil _
  | cons c calls ih => exact .cons (circuitStep_call c.2) (ih _)

/-- The breaker after some calls. -/
def Breaker.after (o : BreakerOptions) (s : Breaker) (calls : List (ℚ × BreakerCall)) : Breaker :=
  calls.foldl (fun s c => (s.call o c.1 c.2).2) s

/-- A breaker before any call. -/
def Breaker.initial : Breaker := ⟨.empty, 0⟩

/-- Every run of the breaker is a run of the circuits: no call can tell a slot that was dropped, and
only a circuit that saw no failure misses a call. -/
theorem refines (o : BreakerOptions) (calls : List (ℚ × BreakerCall)) :
    CircuitRun o (fun _ => .closed 0) calls (Breaker.initial.answers o calls) :=
  circuitRun_answers o .initial calls

/-! ## Probes -/

/-- The times of the guards of a key that returned. -/
def passes (key : JsString) : List (ℚ × BreakerCall) → List Bool → List ℚ
  | c :: calls, answer :: answers =>
    if c.2 = .on .guard key ∧ answer = true then c.1 :: passes key calls answers
    else passes key calls answers
  | _, _ => []

/-- The call closes the circuit of the key. -/
def BreakerCall.closes (key : JsString) : BreakerCall → Prop
  | .on call k => call = .success ∧ k = key
  | .reset k => k = none ∨ k = some key

/-- The circuit has kept its endpoint out since a time. -/
def Circuit.KeptOut (last : ℚ) : Circuit → Prop
  | closed _ => False
  | opened since => last ≤ since
  | probing => True

variable {f f' : JsString → Circuit} {last : ℚ} {b : BreakerCall} {answer : Bool}

/-- A circuit that keeps its endpoint out goes on, and a guard that returns is a probe, a window
after the last. -/
theorem Circuit.KeptOut.call {circuit : Circuit} (h : circuit.KeptOut last) (hlast : last ≤ now)
    {c : CircuitCall} (hc : c ≠ .success) : (circuit.call o now c).2.KeptOut last ∧
      (c = .guard → (circuit.call o now c).1 = true →
        last + o.resetMs ≤ now ∧ (circuit.call o now c).2.KeptOut now) := by
  cases circuit with
  | closed => exact h.elim
  | opened since =>
    have hsince : last ≤ since := h
    cases c with
    | guard =>
      rw [Circuit.call]
      split_ifs with hreset
      · exact ⟨trivial, fun _ _ => ⟨by linarith, trivial⟩⟩
      · exact ⟨hsince, fun _ hpass => by cases hpass⟩
    | success => exact absurd rfl hc
    | failure => exact ⟨hsince, fun hguard => by cases hguard⟩
  | probing =>
    cases c with
    | guard => exact ⟨trivial, fun _ hpass => by cases hpass⟩
    | success => exact absurd rfl hc
    | failure => exact ⟨hlast, fun hguard => by cases hguard⟩

/-- What a step does to a circuit that it does not close, and that has seen a failure. -/
theorem CircuitStep.at_key (h : CircuitStep o now f b answer f') (hcloses : ¬ b.closes key)
    (hopen : f key ≠ .closed 0) :
    (∃ c, b = .on c key ∧ c ≠ .success ∧ answer = ((f key).call o now c).1 ∧
      f' key = ((f key).call o now c).2) ∨ (∀ c, b ≠ .on c key) ∧ f' key = f key := by
  cases h with
  | seen c k =>
    rcases eq_or_ne k key with rfl | hk
    · exact .inl ⟨c, rfl, fun hc => hcloses ⟨hc, rfl⟩, rfl, Function.update_self ..⟩
    · exact .inr ⟨fun c h => hk (BreakerCall.on.inj h).2, Function.update_of_ne hk.symm ..⟩
  | missed c k hclosed =>
    refine .inr ⟨fun c h => hopen ?_, rfl⟩
    rwa [(BreakerCall.on.inj h).2] at hclosed
  | reset k =>
    have hk : key ≠ k := fun hk => hcloses (.inr (congrArg some hk.symm))
    exact .inr ⟨nofun, Function.update_of_ne hk ..⟩
  | resetAll => exact absurd (.inl rfl) hcloses

theorem CircuitStep.keptOut (h : CircuitStep o now f b answer f') (hlast : last ≤ now)
    (hkey : (f key).KeptOut last) (hcloses : ¬ b.closes key) : (f' key).KeptOut last ∧
      (b = .on .guard key → answer = true → last + o.resetMs ≤ now ∧ (f' key).KeptOut now) := by
  have hopen : f key ≠ .closed 0 := by
    intro hclosed
    rw [hclosed] at hkey
    exact hkey
  obtain ⟨c, rfl, hc, rfl, heq⟩ | ⟨hother, heq⟩ := h.at_key hcloses hopen
  · obtain ⟨hout, hpass⟩ := hkey.call (o := o) hlast hc
    rw [heq]
    exact ⟨hout, fun hguard => hpass (BreakerCall.on.inj hguard).1⟩
  · rw [heq]
    exact ⟨hkey, fun hguard => absurd hguard (hother _)⟩

variable {calls : List (ℚ × BreakerCall)} {answers : List Bool}

theorem CircuitRun.spaced (h : CircuitRun o f calls answers)
    (hclock : (last :: calls.map Prod.fst).Pairwise (· ≤ ·)) (hkey : (f key).KeptOut last)
    (hcloses : ∀ c ∈ calls, ¬ c.2.closes key) :
    (last :: passes key calls answers).IsChain fun t u => t + o.resetMs ≤ u := by
  induction h generalizing last with
  | nil => exact .singleton _
  | @cons f f' now c answer calls answers hstep hrun ih =>
    obtain ⟨hcloses, hrest⟩ := forall_mem_cons.mp hcloses
    have hlast : last ≤ now := rel_of_pairwise_cons hclock (.head _)
    obtain ⟨hout, hpass⟩ := hstep.keptOut hlast hkey hcloses
    rw [passes]
    split_ifs with hprobe
    · obtain ⟨hspace, hnow⟩ := hpass hprobe.1 hprobe.2
      exact .cons_cons hspace (ih (pairwise_cons.mp hclock).2 hnow hrest)
    · exact ih (hclock.sublist (.cons_cons _ (.cons _ (.refl _)))) hout hrest

theorem CircuitRun.shut (h : CircuitRun o f calls answers) (hkey : f key = .probing)
    (hanswered : ∀ c ∈ calls, ¬ c.2.closes key ∧ c.2 ≠ .on .failure key) :
    passes key calls answers = [] := by
  induction h with
  | nil => rfl
  | @cons f f' now b answer calls answers hstep hrun ih =>
    obtain ⟨⟨hcloses, hfailure⟩, hrest⟩ := forall_mem_cons.mp hanswered
    have hopen : f key ≠ .closed 0 := by
      rw [hkey]
      exact nofun
    rw [passes]
    obtain ⟨c, rfl, hc, rfl, heq⟩ | ⟨hother, heq⟩ := hstep.at_key hcloses hopen
    · rw [hkey] at heq ⊢
      cases c with
      | guard =>
        rw [if_neg fun hpass => by cases hpass.2]
        exact ih heq hrest
      | success => exact absurd rfl hc
      | failure => exact absurd rfl hfailure
    · rw [if_neg fun hpass => hother _ hpass.1]
      exact ih (heq.trans hkey) hrest

/-- From the time its circuit opened, and until it succeeds or is reset, an endpoint is tried once
in a window, whatever the other keys are called for. -/
theorem probes_spaced (o : BreakerOptions) {s : Breaker} {key : JsString} {c : CircuitState}
    (hget : s.states.get key = some c) (hbroken : c.state = .broken)
    {calls : List (ℚ × BreakerCall)}
    (hclock : (c.openedAt :: calls.map Prod.fst).Pairwise (· ≤ ·))
    (hcloses : ∀ c ∈ calls, ¬ c.2.closes key) :
    (c.openedAt :: passes key calls (s.answers o calls)).IsChain fun t u => t + o.resetMs ≤ u := by
  refine (circuitRun_answers o s calls).spaced hclock ?_ hcloses
  simp only [Breaker.circuit, hget, CircuitState.circuit, hbroken]
  exact le_rfl

/-- A probe that is never answered, as by a delivery that ends before it reaches the network, keeps
its endpoint out for good. -/
theorem shut_while_probing (o : BreakerOptions) {s : Breaker} {key : JsString} {c : CircuitState}
    (hget : s.states.get key = some c) (hprobing : c.state = .probing)
    {calls : List (ℚ × BreakerCall)}
    (hanswered : ∀ c ∈ calls, ¬ c.2.closes key ∧ c.2 ≠ .on .failure key) :
    passes key calls (s.answers o calls) = [] := by
  refine (circuitRun_answers o s calls).shut ?_ hanswered
  simp only [Breaker.circuit, hget, CircuitState.circuit, hprobing]

/-- Three calls for an endpoint that is out, among those of another that fails. -/
def triedCalls : List (ℚ × BreakerCall) :=
  [(5, .on .guard [97]), (6, .on .failure [98]), (10, .on .guard [97]), (11, .on .guard [97])]

/-- One failure opens a circuit, and there is one slot. -/
def strictOptions : BreakerOptions := ⟨1, 10, 1, Nat.one_pos, by decide, Nat.one_pos⟩

theorem probes_spaced_triedCalls : ∃ s : Breaker, s.answers strictOptions triedCalls =
    [false, true, true, false] ∧
      (0 :: passes [97] triedCalls (s.answers strictOptions triedCalls)).IsChain
        fun t u => t + 10 ≤ u := by
  refine ⟨Breaker.initial.after strictOptions [(0, .on .failure [97])], by decide +kernel, ?_⟩
  refine probes_spaced strictOptions (c := ⟨.broken, 1, 0⟩) rfl rfl (by decide +kernel) ?_
  simp [triedCalls, BreakerCall.closes]

theorem shut_while_probing_triedCalls :
    passes [97] [(1000, .on .guard [97])] ((Breaker.initial.after strictOptions
      ((0, .on .failure [97]) :: triedCalls)).answers strictOptions [(1000, .on .guard [97])]) =
        [] := by
  refine shut_while_probing strictOptions (c := ⟨.probing, 1, 0⟩) (by decide +kernel) rfl ?_
  simp [BreakerCall.closes]

end AdapterWs.Webhooks
