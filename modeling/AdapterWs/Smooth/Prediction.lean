import AdapterWs.Lib.Decimal
import AdapterWs.Lib.Machine
import Mathlib.Data.Rat.Defs

/-!
# The window of a predictor

The commands that await their acknowledgement stand in an array, from a head on that moves over it
until the array is compacted. An acknowledgement replays them on the state it carries, and only
their first application emits events.
-/

namespace AdapterWs.Smooth

open JsString List

/-- An event `apply` emits, with the key it may name. -/
structure Emit (E : Type) where
  type : JsString
  key : Option JsString
  data : E

/-- An event of the sink. -/
structure LocalEvent (E : Type) where
  type : JsString
  key : JsString
  data : E
  id : ℕ

/-- The options of a predictor. From a state, a command and the seed of the random numbers, `apply`
gives the next state and what it emits. -/
structure PredictionOptions (S C E : Type) where
  apply : S → C → ℕ → S × List (Emit E)
  initial : S
  windowCap : ℕ
  windowMaxAgeMs : ℚ

/-- A command of the window. -/
structure SentCommand (C : Type) where
  id : ℕ
  cmd : C
  sentMono : ℚ

/-- The state of a predictor. -/
structure Prediction (S C E : Type) where
  base : S
  predicted : S
  lastAckedId : ℕ
  nextId : ℕ
  overflowed : Bool
  pending : List (SentCommand C)
  head : ℕ
  eventSink : List (LocalEvent E)

namespace Prediction

variable {S C E : Type} (o : PredictionOptions S C E) (p : Prediction S C E)

/-- `createPredictor(options)`. -/
def create : Prediction S C E := ⟨o.initial, o.initial, 0, 1, false, [], 0, []⟩

/-- What `emitEvent` puts in the sink. -/
def emitted (id : ℕ) (emits : List (Emit E)) : List (LocalEvent E) :=
  emits.mapIdx fun ordinal e =>
    ⟨e.type, e.key.getD (decimal id ++ lit ":" ++ decimal ordinal), e.data, id⟩

/-- `runApply(state, entry, firstTime)`, with the events for the sink. -/
def runApply (state : S) (entry : SentCommand C) (firstTime : Bool) : S × List (LocalEvent E) :=
  let r := o.apply state entry.cmd entry.id
  (r.1, if firstTime then emitted entry.id r.2 else [])

/-- The commands from the head on. -/
def window : List (SentCommand C) := p.pending.drop p.head

def killPrediction : Prediction S C E :=
  { p with pending := [], head := 0, predicted := p.base, overflowed := true }

def compactWindow : Prediction S C E :=
  if 32 < p.head ∧ p.pending.length ≤ p.head * 2 then
    { p with pending := p.pending.drop p.head, head := 0 }
  else p

/-- The oldest command of the window is too old. -/
def expired (monoNow : ℚ) : Bool :=
  match p.pending[p.head]? with
  | none => false
  | some entry => decide (o.windowMaxAgeMs < monoNow - entry.sentMono)

/-- `command(cmd, monoNow)`. -/
def command (cmd : C) (monoNow : ℚ) : ℕ × Prediction S C E :=
  let id := p.nextId
  if p.overflowed = true then (id, { p with nextId := id + 1 })
  else if o.windowCap ≤ p.pending.length - p.head ∨ p.expired o monoNow = true then
    (id, killPrediction { p with nextId := id + 1 })
  else
    let entry := ⟨id, cmd, monoNow⟩
    let r := runApply o p.predicted entry true
    (id, { p with
      nextId := id + 1
      pending := p.pending ++ [entry]
      predicted := r.1
      eventSink := p.eventSink ++ r.2 })

/-- The loop over the acknowledged commands: the head after it, and when the last was sent. -/
def confirm (ackedId : ℤ) : List (SentCommand C) → ℕ → Option ℚ → ℕ × Option ℚ
  | [], head, sentMono => (head, sentMono)
  | entry :: rest, head, sentMono =>
    if entry.id ≤ ackedId then
      confirm ackedId rest (head + 1) (if entry.id = ackedId then some entry.sentMono else sentMono)
    else (head, sentMono)

/-- `ack(ackedId, state, monoNow)`: when the command was sent, or `none` where it is ignored. -/
def ack (ackedId : ℤ) (state : S) : Option (Option ℚ × Prediction S C E) :=
  if ackedId ≤ p.lastAckedId ∨ (p.nextId : ℤ) ≤ ackedId then none
  else if p.overflowed = true then
    some (none, { p with
      lastAckedId := ackedId.toNat
      base := state
      predicted := state
      overflowed := false })
  else
    let r := confirm ackedId (p.pending.drop p.head) p.head none
    let q := compactWindow { p with lastAckedId := ackedId.toNat, base := state, head := r.1 }
    some (r.2, { q with
      predicted := q.window.foldl (fun next entry => (runApply o next entry false).1) state })

/-- `sync(state, ackedId)`. -/
def sync (state : S) (ackedId : ℤ) : Prediction S C E :=
  { p with
    base := state
    predicted := state
    lastAckedId := min ackedId.toNat (p.nextId - 1)
    pending := []
    head := 0
    overflowed := false }

/-- `rebase(state)`, or `none` while a command awaits its acknowledgement. -/
def rebase (state : S) : Option (Prediction S C E) :=
  if p.head < p.pending.length then none else some { p with base := state, predicted := state }

/-- `checkOverflow(monoNow)`. -/
def checkOverflow (monoNow : ℚ) : Prediction S C E :=
  if p.overflowed = false ∧ p.expired o monoNow = true then p.killPrediction else p

/-- `reset(initial)`. -/
def reset (initial : Option S) : Prediction S C E :=
  { p with
    base := initial.getD o.initial
    predicted := initial.getD o.initial
    lastAckedId := 0
    pending := []
    head := 0
    overflowed := false
    eventSink := [] }

end Prediction

/-- A run of a predictor: the ids it issued, the states it took over, each command with the state it
was first applied to, and the events it gave out. -/
structure PredictionRun (S C E : Type) where
  predictor : Prediction S C E
  issued : List ℕ
  accepted : List S
  applied : List (S × SentCommand C)
  drained : List (LocalEvent E)

inductive PredictionEvent (S C : Type)
  | command (cmd : C) (monoNow : ℚ)
  | ack (ackedId : ℤ) (state : S)
  | sync (state : S) (ackedId : ℤ)
  | rebase (state : S)
  | checkOverflow (monoNow : ℚ)
  | reset (initial : Option S)
  | drainEvents

variable {S C E : Type}

/-- Every order of calls. -/
def predictions (o : PredictionOptions S C E) : Machine (PredictionRun S C E) (PredictionEvent S C)
    where
  init := ⟨.create o, [], [], [], []⟩
  step s
    | .command cmd monoNow =>
      let r := s.predictor.command o cmd monoNow
      some { s with
        predictor := r.2
        issued := s.issued ++ [r.1]
        applied := if s.predictor.pending.length < r.2.pending.length then
          s.applied ++ [(s.predictor.predicted, ⟨r.1, cmd, monoNow⟩)] else s.applied }
    | .ack ackedId state =>
      match s.predictor.ack o ackedId state with
      | none => some s
      | some (_, p) => some { s with predictor := p, accepted := s.accepted ++ [state] }
    | .sync state ackedId =>
      some { s with
        predictor := s.predictor.sync state ackedId
        accepted := s.accepted ++ [state] }
    | .rebase state =>
      match s.predictor.rebase state with
      | none => some s
      | some p => some { s with predictor := p, accepted := s.accepted ++ [state] }
    | .checkOverflow monoNow =>
      some { s with predictor := s.predictor.checkOverflow o monoNow }
    | .reset initial =>
      some { s with
        predictor := s.predictor.reset o initial
        accepted := s.accepted ++ [initial.getD o.initial] }
    | .drainEvents =>
      some { s with
        predictor := { s.predictor with eventSink := [] }
        drained := s.drained ++ s.predictor.eventSink }

/-- The events of the first applications. -/
def firstEvents (o : PredictionOptions S C E) (applied : List (S × SentCommand C)) :
    List (LocalEvent E) :=
  applied.flatMap fun (state, entry) => (Prediction.runApply o state entry true).2

namespace Prediction

variable {o : PredictionOptions S C E} {p q : Prediction S C E}

/-- The prediction is the fold of the commands that await their acknowledgement. -/
structure Windowed (o : PredictionOptions S C E) (p : Prediction S C E) : Prop where
  head : p.head ≤ p.pending.length
  capped : p.window.length ≤ o.windowCap
  increasing : (p.window.map SentCommand.id).Pairwise (· < ·)
  acked : p.lastAckedId < p.nextId
  between : ∀ entry ∈ p.window, p.lastAckedId < entry.id ∧ entry.id < p.nextId
  folded : p.predicted = p.window.foldl
    (fun state entry => (o.apply state entry.cmd entry.id).1) p.base
  killed : p.overflowed = true → p.window = [] ∧ p.predicted = p.base

/-- A predictor whose commands are all acknowledged or dropped. -/
theorem windowed_of_empty (hhead : p.head ≤ p.pending.length) (hwindow : p.window = [])
    (hacked : p.lastAckedId < p.nextId) (hbase : p.predicted = p.base) : p.Windowed o where
  head := hhead
  capped := by simp [hwindow]
  increasing := by simp [hwindow]
  acked := hacked
  between := by simp [hwindow]
  folded := by simp [hwindow, hbase]
  killed _ := ⟨hwindow, hbase⟩

theorem windowed_killPrediction (hacked : p.lastAckedId < p.nextId) : p.killPrediction.Windowed o :=
  windowed_of_empty le_rfl rfl hacked rfl

theorem command_cases (o : PredictionOptions S C E) (p : Prediction S C E) (cmd : C)
    (monoNow : ℚ) : (p.command o cmd monoNow).1 = p.nextId ∧
      ((p.command o cmd monoNow).2 = { p with nextId := p.nextId + 1 } ∧ p.overflowed = true ∨
        (p.command o cmd monoNow).2 = killPrediction { p with nextId := p.nextId + 1 } ∨
        p.overflowed = false ∧ p.pending.length - p.head < o.windowCap ∧
          (p.command o cmd monoNow).2 = { p with
            nextId := p.nextId + 1
            pending := p.pending ++ [⟨p.nextId, cmd, monoNow⟩]
            predicted := (runApply o p.predicted ⟨p.nextId, cmd, monoNow⟩ true).1
            eventSink := p.eventSink ++
              (runApply o p.predicted ⟨p.nextId, cmd, monoNow⟩ true).2 }) := by
  rw [command]
  simp only
  split_ifs with hover hbound
  · exact ⟨rfl, .inl ⟨rfl, hover⟩⟩
  · exact ⟨rfl, .inr (.inl rfl)⟩
  · rw [not_or, not_le] at hbound
    exact ⟨rfl, .inr (.inr ⟨Bool.eq_false_iff.mpr hover, hbound.1, rfl⟩)⟩

theorem Windowed.command (h : p.Windowed o) (cmd : C) (monoNow : ℚ) :
    (p.command o cmd monoNow).2.Windowed o := by
  have hacked : p.lastAckedId < p.nextId + 1 := h.acked.trans (Nat.lt_succ_self _)
  obtain ⟨-, ⟨heq, hover⟩ | heq | ⟨hlive, hroom, heq⟩⟩ := command_cases o p cmd monoNow <;> rw [heq]
  · exact windowed_of_empty h.head (h.killed hover).1 hacked (h.killed hover).2
  · exact windowed_killPrediction hacked
  · have hwindow : (p.pending ++ [(⟨p.nextId, cmd, monoNow⟩ : SentCommand C)]).drop p.head =
        p.window ++ [⟨p.nextId, cmd, monoNow⟩] := drop_append_of_le_length h.head
    refine ⟨?_, ?_, ?_, hacked, ?_, ?_, fun hover => ?_⟩
    · simpa using h.head.trans (Nat.le_succ _)
    · simp only [window, hwindow]
      rw [length_append, length_singleton, length_drop]
      omega
    · simp only [window, hwindow, map_append, map_singleton]
      refine pairwise_append.mpr ⟨h.increasing, pairwise_singleton _ _, fun id hid id' hid' => ?_⟩
      obtain ⟨entry, hentry, rfl⟩ := mem_map.mp hid
      rw [mem_singleton.mp hid']
      exact (h.between entry hentry).2
    · simp only [window, hwindow]
      intro entry hentry
      rcases mem_concat.mp hentry with hold | rfl
      · exact (h.between entry hold).imp_right fun hlt => hlt.trans (Nat.lt_succ_self _)
      · exact ⟨h.acked, Nat.lt_succ_self _⟩
    · simp only [window, hwindow]
      rw [foldl_append, ← window, ← h.folded]
      rfl
    · cases hlive.symm.trans hover

/-- The loop ends at the first command that is not acknowledged. -/
theorem confirm_spec (ackedId : ℤ) (l : List (SentCommand C)) (head : ℕ) (sentMono : Option ℚ) :
    ∃ n ≤ l.length, (confirm ackedId l head sentMono).1 = head + n ∧
      l.drop n = l.dropWhile fun entry => (entry.id : ℤ) ≤ ackedId := by
  induction l generalizing head sentMono with
  | nil => exact ⟨0, le_rfl, rfl, rfl⟩
  | cons entry rest ih =>
    rw [confirm]
    by_cases hacked : (entry.id : ℤ) ≤ ackedId
    · rw [if_pos hacked]
      obtain ⟨n, hn, hhead, hdrop⟩ := ih (head + 1)
        (if (entry.id : ℤ) = ackedId then some entry.sentMono else sentMono)
      exact ⟨n + 1, Nat.succ_le_succ hn, by omega, by simpa [hacked] using hdrop⟩
    · rw [if_neg hacked]
      exact ⟨0, Nat.zero_le _, rfl, by simp [hacked]⟩

theorem lt_of_mem_dropWhile {ackedId : ℤ} {l : List (SentCommand C)} {entry : SentCommand C}
    (hl : (l.map SentCommand.id).Pairwise (· < ·))
    (hentry : entry ∈ l.dropWhile fun entry => (entry.id : ℤ) ≤ ackedId) : ackedId < entry.id := by
  induction l with
  | nil => cases hentry
  | cons first rest ih =>
    obtain ⟨hfirst, hrest⟩ := pairwise_cons.mp hl
    by_cases hacked : (first.id : ℤ) ≤ ackedId
    · exact ih hrest (by simpa [dropWhile_cons, hacked] using hentry)
    · have hmem : entry ∈ first :: rest := by simpa [dropWhile_cons, hacked] using hentry
      rcases mem_cons.mp hmem with rfl | hmem
      · omega
      · have := hfirst _ (mem_map_of_mem hmem)
        omega

@[simp] theorem window_compactWindow (p : Prediction S C E) : p.compactWindow.window = p.window := by
  rw [compactWindow]
  split_ifs <;> rfl

theorem compactWindow_eq (p : Prediction S C E) : ∃ pending head,
    p.compactWindow = { p with pending, head } ∧ (p.head ≤ p.pending.length → head ≤ pending.length) := by
  rw [compactWindow]
  split_ifs
  · exact ⟨_, _, rfl, fun _ => Nat.zero_le _⟩
  · exact ⟨_, _, rfl, id⟩

theorem Windowed.ack {ackedId : ℤ} {state : S} {sentMono : Option ℚ} (h : p.Windowed o)
    (hack : p.ack o ackedId state = some (sentMono, q)) : q.Windowed o ∧ q.base = state ∧
      q.nextId = p.nextId ∧ q.eventSink = p.eventSink := by
  rw [Prediction.ack] at hack
  split_ifs at hack with hignored hover <;> rw [not_or, not_le, not_le] at hignored
  · have hacked : ackedId.toNat < p.nextId := by omega
    obtain ⟨-, rfl⟩ := Prod.mk.inj (Option.some.inj hack)
    exact ⟨windowed_of_empty h.head (h.killed hover).1 hacked rfl, rfl, rfl, rfl⟩
  · have hacked : ackedId.toNat < p.nextId := by omega
    simp only at hack
    obtain ⟨n, hn, hhead, hdrop⟩ := confirm_spec ackedId (p.pending.drop p.head) p.head none
    rcases hconfirm : confirm ackedId (p.pending.drop p.head) p.head none with ⟨head, sent⟩
    rw [hconfirm] at hack hhead
    obtain ⟨-, rfl⟩ := Prod.mk.inj (Option.some.inj hack)
    obtain ⟨pending, head', heq, hle⟩ :=
      compactWindow_eq { p with lastAckedId := ackedId.toNat, base := state, head }
    have hwindow : pending.drop head' = p.window.dropWhile fun entry => (entry.id : ℤ) ≤ ackedId := by
      have hsame := window_compactWindow { p with lastAckedId := ackedId.toNat, base := state, head }
      rw [heq] at hsame
      exact hsame.trans (by rw [window, window, ← hdrop, drop_drop, ← hhead])
    have hsublist := hwindow ▸ dropWhile_sublist fun entry : SentCommand C => (entry.id : ℤ) ≤ ackedId
    rw [heq]
    refine ⟨⟨hle ?_, ?_, ?_, hacked, fun entry hentry => ?_, rfl, fun hkilled => ?_⟩, rfl, rfl, rfl⟩
    · rw [length_drop] at hn
      have hle' := h.head
      simp only at hhead ⊢
      omega
    · exact hsublist.length_le.trans h.capped
    · exact h.increasing.sublist (hsublist.map _)
    · have hmem : entry ∈ pending.drop head' := hentry
      have hlt := lt_of_mem_dropWhile h.increasing (hwindow ▸ hmem)
      exact ⟨by simp only; omega, (h.between entry (hsublist.subset hmem)).2⟩
    · exact absurd hkilled hover

theorem Windowed.sync (h : p.Windowed o) (state : S) (ackedId : ℤ) :
    (p.sync state ackedId).Windowed o := by
  have hacked := h.acked
  exact windowed_of_empty le_rfl rfl (by simp only [Prediction.sync]; omega) rfl

theorem Windowed.rebase {state : S} (h : p.Windowed o) (hrebase : p.rebase state = some q) :
    q.Windowed o := by
  obtain ⟨hempty, ⟨⟩⟩ := Option.ite_none_left_eq_some.mp hrebase
  exact windowed_of_empty h.head (drop_eq_nil_of_le (not_lt.mp hempty)) h.acked rfl

theorem Windowed.checkOverflow (h : p.Windowed o) (monoNow : ℚ) :
    (p.checkOverflow o monoNow).Windowed o := by
  rw [Prediction.checkOverflow]
  split_ifs
  · exact windowed_killPrediction h.acked
  · exact h

theorem Windowed.reset (h : p.Windowed o) (initial : Option S) : (p.reset o initial).Windowed o :=
  windowed_of_empty le_rfl rfl ((Nat.zero_le _).trans_lt h.acked) rfl

end Prediction

/-! ## Runs -/

variable {o : PredictionOptions S C E} {s t : PredictionRun S C E} {e : PredictionEvent S C}
  {es : List (PredictionEvent S C)}

/-- The predictor of a run is right, each id is issued once, and each event is drained once. -/
structure Predicts (o : PredictionOptions S C E) (s : PredictionRun S C E) : Prop where
  windowed : s.predictor.Windowed o
  authoritative : s.predictor.base = s.accepted.getLastD o.initial
  issued : ∀ id, id ∈ s.issued ↔ 1 ≤ id ∧ id < s.predictor.nextId
  issuedOnce : s.issued.Pairwise (· < ·)
  applied : ∀ entry ∈ s.applied, entry.2.id < s.predictor.nextId
  appliedOnce : (s.applied.map fun entry => entry.2.id).Pairwise (· < ·)
  drainedOnce : (s.drained ++ s.predictor.eventSink).Sublist (firstEvents o s.applied)

theorem Predicts.accept {p : Prediction S C E} (h : Predicts o s) (hwindowed : p.Windowed o)
    (hid : p.nextId = s.predictor.nextId)
    (hsink : p.eventSink.Sublist s.predictor.eventSink) :
    Predicts o { s with predictor := p, accepted := s.accepted ++ [p.base] } where
  windowed := hwindowed
  authoritative := (getLastD_concat ..).symm
  issued := by simpa only [hid] using h.issued
  issuedOnce := h.issuedOnce
  applied := by simpa only [hid] using h.applied
  appliedOnce := h.appliedOnce
  drainedOnce := ((Sublist.refl _).append hsink).trans h.drainedOnce

theorem Predicts.command (h : Predicts o s) {cmd : C} {monoNow : ℚ}
    (hs : (predictions o).step s (.command cmd monoNow) = some t) : Predicts o t := by
  have hwindowed := h.windowed.command cmd monoNow
  rw [← Option.some.inj hs]
  obtain ⟨hid, hcases⟩ := Prediction.command_cases o s.predictor cmd monoNow
  have hissued : ∀ id, id ∈ s.issued ++ [s.predictor.nextId] ↔
      1 ≤ id ∧ id < s.predictor.nextId + 1 := by
    intro id
    have hpos := h.windowed.acked
    rw [mem_concat, h.issued]
    omega
  have hissuedOnce : (s.issued ++ [s.predictor.nextId]).Pairwise (· < ·) := by
    refine pairwise_append.mpr ⟨h.issuedOnce, pairwise_singleton _ _, fun id hmem id' hmem' => ?_⟩
    rw [mem_singleton.mp hmem']
    exact ((h.issued id).mp hmem).2
  have hkept : ∀ entry ∈ s.applied, entry.2.id < s.predictor.nextId + 1 := fun entry hentry =>
    (h.applied entry hentry).trans (Nat.lt_succ_self _)
  simp only [hid]
  rcases hcases with ⟨heq, -⟩ | heq | ⟨-, -, heq⟩ <;> rw [heq] at hwindowed ⊢
  · rw [if_neg (Nat.lt_irrefl _)]
    exact ⟨hwindowed, h.authoritative, hissued, hissuedOnce, hkept, h.appliedOnce, h.drainedOnce⟩
  · simp only [Prediction.killPrediction, length_nil, Nat.not_lt_zero, if_false]
    exact ⟨hwindowed, h.authoritative, hissued, hissuedOnce, hkept, h.appliedOnce, h.drainedOnce⟩
  · rw [if_pos (by simp)]
    refine ⟨hwindowed, h.authoritative, hissued, hissuedOnce, fun entry hentry => ?_, ?_, ?_⟩
    · rcases mem_concat.mp hentry with hold | rfl
      · exact hkept entry hold
      · exact Nat.lt_succ_self _
    · rw [map_append]
      refine pairwise_append.mpr ⟨h.appliedOnce, pairwise_singleton _ _, fun id hmem id' hmem' => ?_⟩
      obtain ⟨entry, hentry, rfl⟩ := mem_map.mp hmem
      rw [mem_singleton.mp hmem']
      exact h.applied entry hentry
    · rw [firstEvents, flatMap_append, flatMap_singleton, ← append_assoc]
      exact h.drainedOnce.append (Sublist.refl _)

theorem predicts (h : (predictions o).Reaches es s) : Predicts o s := by
  refine h.invariant (I := Predicts o) ⟨Prediction.windowed_of_empty le_rfl rfl Nat.one_pos rfl, rfl,
    fun id => ?_, .nil, by simp [predictions], .nil, ?_⟩ fun s e t h _ hs => ?_
  · simp only [predictions, Prediction.create, not_mem_nil, false_iff]
    omega
  · exact Sublist.refl []
  cases e with
  | command cmd monoNow => exact h.command hs
  | ack ackedId state =>
    simp only [predictions] at hs
    cases hack : s.predictor.ack o ackedId state with
    | none =>
      rw [hack] at hs
      exact Option.some.inj hs ▸ h
    | some r =>
      obtain ⟨sentMono, p⟩ := r
      rw [hack] at hs
      obtain ⟨hwindowed, rfl, hid, hsink⟩ := h.windowed.ack hack
      exact Option.some.inj hs ▸ h.accept hwindowed hid (hsink ▸ .refl _)
  | sync state ackedId =>
    cases hs
    exact h.accept (h.windowed.sync state ackedId) rfl (.refl _)
  | rebase state =>
    simp only [predictions] at hs
    cases hrebase : s.predictor.rebase state with
    | none =>
      rw [hrebase] at hs
      exact Option.some.inj hs ▸ h
    | some p =>
      rw [hrebase] at hs
      have hwindowed := h.windowed.rebase hrebase
      obtain ⟨-, ⟨⟩⟩ := Option.ite_none_left_eq_some.mp hrebase
      exact Option.some.inj hs ▸ h.accept hwindowed rfl (.refl _)
  | checkOverflow monoNow =>
    have hwindowed := h.windowed.checkOverflow monoNow
    rw [← Option.some.inj hs]
    simp only [Prediction.checkOverflow] at hwindowed ⊢
    split_ifs at hwindowed ⊢ with hexpired
    · exact ⟨hwindowed, h.authoritative, h.issued, h.issuedOnce, h.applied, h.appliedOnce,
        h.drainedOnce⟩
    · exact h
  | reset initial =>
    cases hs
    exact h.accept (h.windowed.reset initial) rfl (nil_sublist _)
  | drainEvents =>
    cases hs
    exact ⟨⟨h.windowed.head, h.windowed.capped, h.windowed.increasing, h.windowed.acked,
      h.windowed.between, h.windowed.folded, h.windowed.killed⟩, h.authoritative, h.issued,
      h.issuedOnce, h.applied, h.appliedOnce, by simpa using h.drainedOnce⟩

/-- In every run the prediction is the fold of the window, and an acknowledgement of an old or a
foreign id changes nothing. -/
theorem predicts_of_reaches (h : (predictions o).Reaches es s) : Predicts o s ∧
    ∀ (ackedId : ℤ) (state : S),
      (ackedId ≤ s.predictor.lastAckedId ∨ ∀ id ∈ s.issued, (id : ℤ) ≠ ackedId) →
        (predictions o).step s (.ack ackedId state) = some s := by
  have hpredicts := predicts h
  refine ⟨hpredicts, fun ackedId state hforeign => ?_⟩
  have hignored : s.predictor.ack o ackedId state = none := by
    refine if_pos (or_iff_not_imp_left.mpr fun hnew => ?_)
    by_contra hlive
    refine hforeign.resolve_left hnew ackedId.toNat ((hpredicts.issued _).mpr ⟨?_, ?_⟩) ?_ <;> omega
  simp only [predictions, hignored]

/-- Adds commands to a number, with an event for each. -/
def adding : PredictionOptions ℕ ℕ Unit :=
  ⟨fun state cmd _ => (state + cmd, [⟨lit "add", none, ()⟩]), 0, 2, 3000⟩

/-- Two commands, the first of which is acknowledged with another state. -/
theorem predicts_of_reaches_adding : ∃ s, (predictions adding).Reaches
    [.command 1 0, .command 2 1, .drainEvents, .ack 1 10, .drainEvents] s ∧
      Predicts adding s ∧ s.predictor.predicted = 12 :=
  Machine.exists_and_of_exec (by decide +kernel) fun _ hs _ => (predicts_of_reaches hs).1

end AdapterWs.Smooth
