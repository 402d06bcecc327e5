import Mathlib.Data.List.Nodup
import Mathlib.Data.List.TakeWhile

/-!
# A line of keys that take turns

Tasks wait by key, oldest first. A key with something to start takes a place at the end of one
line, leaves it when it comes to the front, starts one task and may take a new place. With nobody
in line a key starts a task without one. A key can leave its place from anywhere.

The trace of a run lists what was done. Every statement here is about traces, so a scheduler that
does the steps has the properties whatever it keeps beside them.
-/

namespace AdapterWs.RoundRobin

open Function List Option Prod

universe u v

/-- What a scheduler does. A task is named by the number of the call that brought it. -/
inductive Turn (κ : Type u) (ω : Type v)
  /-- A task is accepted for a key. -/
  | accept (t : ℕ) (k : κ)
  /-- A call is refused. -/
  | refuse (t : ℕ) (out : ω)
  /-- A key takes a place at the end of the line. -/
  | place (k : κ)
  /-- A key leaves its place. -/
  | leave (k : κ)
  /-- The oldest task of a key is started. -/
  | start (t : ℕ) (k : κ)
  /-- A running task ends. -/
  | finish (t : ℕ) (k : κ) (out : ω)
  /-- The oldest task of a key is dropped. -/
  | drop (t : ℕ) (k : κ) (out : ω)

/-- Who is in line, and the tasks. -/
structure Rota (κ : Type u) where
  line : List κ
  /-- The key that has just left the front of the line. -/
  turn : Option κ
  /-- The tasks that wait, oldest first. -/
  waiting : κ → List ℕ
  /-- The tasks that run. -/
  running : List (ℕ × κ)
  /-- The calls so far have smaller numbers. -/
  calls : ℕ

section Rules

variable {κ : Type u} {ω : Type v} [DecidableEq κ]

/-- Nobody in line and nothing to do. -/
def Rota.empty : Rota κ := ⟨[], none, fun _ => [], [], 0⟩

/-- The tasks of a key that run. -/
def Rota.load (r : Rota κ) (k : κ) : ℕ := r.running.countP fun p => p.2 = k

/-- One step, for keys that may run `cap` tasks at once. -/
inductive Step (cap : ℕ) : Rota κ → Turn κ ω → Rota κ → Prop
  | accept {r : Rota κ} {t : ℕ} (k : κ) (hfresh : r.calls ≤ t) :
      Step cap r (.accept t k)
        { r with turn := none, waiting := update r.waiting k (r.waiting k ++ [t]), calls := t + 1 }
  | refuse {r : Rota κ} {t : ℕ} (out : ω) (hfresh : r.calls ≤ t) :
      Step cap r (.refuse t out) { r with turn := none, calls := t + 1 }
  | place {r : Rota κ} {k : κ} (hnot : k ∉ r.line) :
      Step cap r (.place k) { r with turn := none, line := r.line ++ [k] }
  | leave {r : Rota κ} {a c : List κ} {k : κ} (hline : r.line = a ++ k :: c) :
      Step cap r (.leave k) { r with turn := if a = [] then some k else none, line := a ++ c }
  | start {r : Rota κ} {t : ℕ} {ts : List ℕ} {k : κ} (hturn : r.turn = some k ∨ r.line = [])
      (hwaiting : r.waiting k = t :: ts) (hload : r.load k < cap) :
      Step cap r (.start t k)
        { r with
          turn := none, waiting := update r.waiting k ts, running := r.running ++ [(t, k)] }
  | finish {r : Rota κ} {a c : List (ℕ × κ)} {t : ℕ} {k : κ}
      (hrunning : r.running = a ++ (t, k) :: c) (out : ω) :
      Step cap r (.finish t k out) { r with turn := none, running := a ++ c }
  | drop {r : Rota κ} {t : ℕ} {ts : List ℕ} {k : κ} (hwaiting : r.waiting k = t :: ts) (out : ω) :
      Step cap r (.drop t k out) { r with turn := none, waiting := update r.waiting k ts }

/-- The steps of a run, with their trace. -/
inductive Steps (cap : ℕ) : Rota κ → List (Turn κ ω) → Rota κ → Prop
  | refl (r : Rota κ) : Steps cap r [] r
  | snoc {r r' r'' : Rota κ} {tr : List (Turn κ ω)} {e : Turn κ ω} :
      Steps cap r tr r' → Step cap r' e r'' → Steps cap r (tr ++ [e]) r''

variable {cap : ℕ} {r r' r'' : Rota κ} {tr tr' : List (Turn κ ω)} {e : Turn κ ω}

theorem Step.steps (h : Step cap r e r') : Steps cap r [e] r' := .snoc (.refl r) h

theorem Steps.trans (h : Steps cap r tr r') (h' : Steps cap r' tr' r'') :
    Steps cap r (tr ++ tr') r'' := by
  induction h' with
  | refl => rwa [append_nil]
  | snoc _ hstep ih =>
    rw [← append_assoc]
    exact .snoc ih hstep

/-- What holds at the start and across every step holds of every run. -/
theorem Steps.invariant {I : List (Turn κ ω) → Rota κ → Prop} (hinit : I [] r)
    (hstep : ∀ tr r e r', I tr r → Step cap r e r' → I (tr ++ [e]) r')
    (h : Steps cap r tr r') : I tr r' := by
  induction h with
  | refl => exact hinit
  | snoc _ hs ih => exact hstep _ _ _ _ ih hs

end Rules

/-! ## Reading a trace -/

section Traces

variable {κ : Type u} {ω : Type v}

/-- The task an entry accepts. -/
def Turn.accepted : Turn κ ω → Option (ℕ × κ)
  | .accept t k => some (t, k)
  | _ => none

/-- The task an entry starts. -/
def Turn.started : Turn κ ω → Option (ℕ × κ)
  | .start t k => some (t, k)
  | _ => none

/-- The task an entry drops. -/
def Turn.dropped : Turn κ ω → Option ℕ
  | .drop t _ _ => some t
  | _ => none

/-- The call an entry answers, and the answer. -/
def Turn.answered : Turn κ ω → Option (ℕ × ω)
  | .refuse t out => some (t, out)
  | .finish t _ out => some (t, out)
  | .drop t _ out => some (t, out)
  | _ => none

/-- The task an entry ends. -/
def Turn.finished : Turn κ ω → Option (ℕ × κ)
  | .finish t k _ => some (t, k)
  | _ => none

/-- The accepted tasks with their keys. -/
def accepted (tr : List (Turn κ ω)) : List (ℕ × κ) := tr.filterMap Turn.accepted

/-- The started tasks with their keys, in the order of the starts. -/
def started (tr : List (Turn κ ω)) : List (ℕ × κ) := tr.filterMap Turn.started

/-- The tasks that were dropped. -/
def dropped (tr : List (Turn κ ω)) : List ℕ := tr.filterMap Turn.dropped

/-- The answers to the calls. -/
def answered (tr : List (Turn κ ω)) : List (ℕ × ω) := tr.filterMap Turn.answered

/-- The tasks that ended. -/
def finished (tr : List (Turn κ ω)) : List (ℕ × κ) := tr.filterMap Turn.finished

section Concat

variable (tr : List (Turn κ ω)) (e : Turn κ ω)

theorem accepted_concat : accepted (tr ++ [e]) = accepted tr ++ e.accepted.toList := by
  cases h : e.accepted <;> simp [accepted, h]

theorem started_concat : started (tr ++ [e]) = started tr ++ e.started.toList := by
  cases h : e.started <;> simp [started, h]

theorem dropped_concat : dropped (tr ++ [e]) = dropped tr ++ e.dropped.toList := by
  cases h : e.dropped <;> simp [dropped, h]

theorem answered_concat : answered (tr ++ [e]) = answered tr ++ e.answered.toList := by
  cases h : e.answered <;> simp [answered, h]

theorem finished_concat : finished (tr ++ [e]) = finished tr ++ e.finished.toList := by
  cases h : e.finished <;> simp [finished, h]

end Concat

variable [DecidableEq κ]

/-- The tasks of one key in a list of tasks with their keys. -/
def ofKey (l : List (ℕ × κ)) (k : κ) : List ℕ := (l.filter fun p => p.2 = k).map Prod.fst

/-- The accepted tasks of a key that were not dropped. -/
def keptOf (tr : List (Turn κ ω)) (k : κ) : List ℕ :=
  (ofKey (accepted tr) k).filter fun t => t ∉ dropped tr

variable {tr : List (Turn κ ω)} {k : κ} {t : ℕ}

theorem mem_ofKey {l : List (ℕ × κ)} : t ∈ ofKey l k ↔ (t, k) ∈ l := by
  simp [ofKey]

theorem ofKey_append (l l' : List (ℕ × κ)) (k : κ) :
    ofKey (l ++ l') k = ofKey l k ++ ofKey l' k := by
  simp [ofKey]

theorem ofKey_singleton (t : ℕ) (j k : κ) : ofKey [(t, j)] k = if j = k then [t] else [] := by
  by_cases hj : j = k <;> simp [ofKey, hj]

theorem mem_keptOf : t ∈ keptOf tr k ↔ (t, k) ∈ accepted tr ∧ t ∉ dropped tr := by
  rw [keptOf, mem_filter, mem_ofKey]
  simp

end Traces

/-! ## Order, and what happens once -/

section Kept

variable {κ : Type u} {ω : Type v} [DecidableEq κ] {cap : ℕ} {r r' : Rota κ}
  {tr : List (Turn κ ω)} {e : Turn κ ω} {k : κ}

/-- The tasks of a run, by its trace. -/
structure Kept (tr : List (Turn κ ω)) (r : Rota κ) : Prop where
  /-- The calls have smaller numbers. -/
  accepted_lt : ∀ p ∈ accepted tr, p.1 < r.calls
  answered_lt : ∀ p ∈ answered tr, p.1 < r.calls
  /-- The accepted tasks are numbered in their order. -/
  ascending : ((accepted tr).map Prod.fst).Pairwise (· < ·)
  /-- The tasks of a key that are not dropped are the started ones and then the waiting ones. -/
  order : ∀ k, keptOf tr k = ofKey (started tr) k ++ r.waiting k
  started_once : ((started tr).map Prod.fst).Nodup
  answered_once : ((answered tr).map Prod.fst).Nodup
  /-- A task that waits is not answered. -/
  waiting : ∀ k, ∀ t ∈ r.waiting k, t ∉ (answered tr).map Prod.fst
  /-- A task that runs was started and is not answered. -/
  running : ∀ p ∈ r.running, p ∈ started tr ∧ p.1 ∉ (answered tr).map Prod.fst
  running_once : (r.running.map Prod.fst).Nodup
  /-- A task that ended was started. -/
  finish : ∀ t k out, .finish t k out ∈ tr → (t, k) ∈ started tr
  /-- A task that was dropped was accepted and never started. -/
  drop : ∀ t k out, .drop t k out ∈ tr →
    (t, k) ∈ accepted tr ∧ t ∉ (started tr).map Prod.fst
  /-- A call that was refused was not accepted. -/
  refuse : ∀ t out, .refuse t out ∈ tr → t ∉ (accepted tr).map Prod.fst

theorem kept_empty : Kept ([] : List (Turn κ ω)) (Rota.empty : Rota κ) where
  accepted_lt _ hp := absurd hp not_mem_nil
  answered_lt _ hp := absurd hp not_mem_nil
  ascending := List.Pairwise.nil
  order _ := rfl
  started_once := nodup_nil
  answered_once := nodup_nil
  waiting _ _ ht := absurd ht not_mem_nil
  running _ hp := absurd hp not_mem_nil
  running_once := nodup_nil
  finish _ _ _ h := absurd h not_mem_nil
  drop _ _ _ h := absurd h not_mem_nil
  refuse _ _ h := absurd h not_mem_nil

variable {t : ℕ}

section

variable (h : Kept tr r)
include h

theorem Kept.key_unique {k' : κ} (hk : (t, k) ∈ accepted tr) (hk' : (t, k') ∈ accepted tr) :
    k = k' := by
  have hnodup := h.ascending.imp ne_of_lt
  exact congrArg snd (inj_on_of_nodup_map hnodup hk hk' rfl)

theorem Kept.mem_accepted (ht : t ∈ r.waiting k) : (t, k) ∈ accepted tr := by
  have hmem : t ∈ keptOf tr k := by
    rw [h.order]
    exact mem_append_right _ ht
  exact (mem_keptOf.mp hmem).1

theorem Kept.started_accepted {p : ℕ × κ} (hp : p ∈ started tr) : p ∈ accepted tr := by
  have hmem : p.1 ∈ keptOf tr p.2 := by
    rw [h.order]
    exact mem_append_left _ (mem_ofKey.mpr hp)
  exact (mem_keptOf.mp hmem).1

theorem Kept.nodup_keptOf (k : κ) : (keptOf tr k).Nodup := by
  have hnodup := h.ascending.imp ne_of_lt
  exact (hnodup.sublist ((filter_sublist).map _)).filter _

theorem Kept.not_started (ht : t ∈ r.waiting k) : t ∉ (started tr).map fst := by
  intro hmem
  obtain ⟨p, hp, rfl⟩ := mem_map.mp hmem
  have hk := h.key_unique (h.mem_accepted ht) (h.started_accepted hp)
  subst hk
  have hnodup := h.nodup_keptOf p.2
  rw [h.order] at hnodup
  exact (nodup_append.mp hnodup).2.2 p.1 (mem_ofKey.mpr hp) p.1 ht rfl

theorem Kept.answered_lt' (ht : t ∈ (answered tr).map fst) : t < r.calls := by
  obtain ⟨p, hp, rfl⟩ := mem_map.mp ht
  exact h.answered_lt p hp

theorem Kept.accepted_lt' (ht : t ∈ (accepted tr).map fst) : t < r.calls := by
  obtain ⟨p, hp, rfl⟩ := mem_map.mp ht
  exact h.accepted_lt p hp

end

/-- A new number is put at the end of a list without repetitions. -/
theorem nodup_snoc {l : List ℕ} (hl : l.Nodup) (ht : t ∉ l) : (l ++ [t]).Nodup := by
  simpa using List.Nodup.concat ht hl

omit [DecidableEq κ] in
theorem mem_answered_of_mem {out : ω} (he : e ∈ tr) (hout : e.answered = some (t, out)) :
    t ∈ (answered tr).map fst :=
  mem_map.mpr ⟨(t, out), mem_filterMap.mpr ⟨e, he, hout⟩, rfl⟩

/-- The tasks of a key stay as they are where none is accepted or dropped. -/
theorem keptOf_concat (haccepted : e.accepted = none) (hdropped : e.dropped = none) (k : κ) :
    keptOf (tr ++ [e]) k = keptOf tr k := by
  simp [keptOf, accepted_concat, dropped_concat, haccepted, hdropped]

section

variable (h : Kept tr r)
include h

/-- What a step keeps of the tasks of a run: its numbers are new, it starts a task that was not
started and answers a call that was not answered, and the tasks of a key stay in order. -/
theorem Kept.concat (hcalls : r.calls ≤ r'.calls)
    (haccepted : ∀ p ∈ e.accepted, r.calls ≤ p.1 ∧ p.1 < r'.calls) (hstarted : ∀ p ∈ e.started,
      p.1 ∉ (started tr).map fst ∧ p.1 ∉ (answered tr).map fst)
    (hanswered : ∀ p ∈ e.answered, p.1 < r'.calls ∧ p.1 ∉ (answered tr).map fst)
    (horder : ∀ k, keptOf (tr ++ [e]) k = ofKey (started (tr ++ [e])) k ++ r'.waiting k)
    (hwaiting : ∀ k, ∀ t ∈ r'.waiting k,
      t ∉ (answered tr).map fst ∧ ∀ p ∈ e.answered, t ≠ p.1)
    (hrunning : ∀ p ∈ r'.running, (p ∈ started tr ∨ p ∈ e.started) ∧
      p.1 ∉ (answered tr).map fst ∧ ∀ q ∈ e.answered, p.1 ≠ q.1)
    (honce : (r'.running.map fst).Nodup)
    (hfinish : ∀ t k out, e = .finish t k out → (t, k) ∈ started tr)
    (hdrop : ∀ t k out, e = .drop t k out →
      (t, k) ∈ accepted tr ∧ t ∉ (started tr).map fst)
    (hrefuse : ∀ t out, e = .refuse t out → t ∉ (accepted tr).map fst) :
    Kept (tr ++ [e]) r' := by
  have ha : ∀ p, p ∈ accepted (tr ++ [e]) ↔ p ∈ accepted tr ∨ p ∈ e.accepted := by
    simp [accepted_concat]
  have hs : ∀ p, p ∈ started (tr ++ [e]) ↔ p ∈ started tr ∨ p ∈ e.started := by
    simp [started_concat]
  have hn : ∀ p, p ∈ answered (tr ++ [e]) ↔ p ∈ answered tr ∨ p ∈ e.answered := by
    simp [answered_concat]
  have hnot : ∀ t, t ∉ (answered tr).map fst → (∀ p ∈ e.answered, t ≠ p.1) →
      t ∉ (answered (tr ++ [e])).map fst := by
    intro t hold hnew hmem
    obtain ⟨p, hp, rfl⟩ := mem_map.mp hmem
    rcases (hn p).mp hp with hp | hp
    · exact hold (mem_map_of_mem hp)
    · exact hnew p hp rfl
  refine ⟨fun p hp => ?_, fun p hp => ?_, ?_, horder, ?_, ?_,
    fun k t ht => hnot t (hwaiting k t ht).1 (hwaiting k t ht).2,
    fun p hp => ⟨(hs p).mpr (hrunning p hp).1, hnot _ (hrunning p hp).2.1 (hrunning p hp).2.2⟩,
    honce, fun t k out he => (hs _).mpr (.inl ?_), fun t k out he => ?_, fun t out he => ?_⟩
  · rcases (ha p).mp hp with hp | hp
    · exact (h.accepted_lt p hp).trans_le hcalls
    · exact (haccepted p hp).2
  · rcases (hn p).mp hp with hp | hp
    · exact (h.answered_lt p hp).trans_le hcalls
    · exact (hanswered p hp).1
  · rw [accepted_concat, map_append, pairwise_append]
    refine ⟨h.ascending, by cases e.accepted <;> simp, fun t ht t' ht' => ?_⟩
    obtain ⟨p, hp, rfl⟩ := mem_map.mp ht'
    exact (h.accepted_lt' ht).trans_le (haccepted p (mem_toList.mp hp)).1
  · rw [started_concat]
    cases he : e.started with
    | none => simpa using h.started_once
    | some p => simpa using nodup_snoc h.started_once (hstarted p he).1
  · rw [answered_concat]
    cases he : e.answered with
    | none => simpa using h.answered_once
    | some p => simpa using nodup_snoc h.answered_once (hanswered p he).2
  · rcases mem_append.mp he with he | he
    · exact h.finish t k out he
    · exact hfinish t k out (mem_singleton.mp he).symm
  · rcases mem_append.mp he with he | he
    · obtain ⟨haccepted, hnever⟩ := h.drop t k out he
      refine ⟨(ha _).mpr (.inl haccepted), fun hmem => ?_⟩
      obtain ⟨p, hp, rfl⟩ := mem_map.mp hmem
      rcases (hs p).mp hp with hp | hp
      · exact hnever (mem_map_of_mem hp)
      · exact (hstarted p hp).2 (mem_answered_of_mem he rfl)
    · obtain rfl := mem_singleton.mp he
      obtain ⟨haccepted, hnever⟩ := hdrop t k out rfl
      exact ⟨(ha _).mpr (.inl haccepted), by simpa [started_concat, Turn.started] using hnever⟩
  · rcases mem_append.mp he with he | he
    · intro hmem
      obtain ⟨p, hp, rfl⟩ := mem_map.mp hmem
      rcases (ha p).mp hp with hp | hp
      · exact h.refuse p.1 out he (mem_map_of_mem hp)
      · have hlt := h.answered_lt' (mem_answered_of_mem he rfl)
        exact absurd ((haccepted p hp).1.trans_lt hlt) (lt_irrefl _)
    · obtain rfl := mem_singleton.mp he
      simpa [accepted_concat, Turn.accepted] using hrefuse t out rfl

/-- What a step that neither accepts, starts, drops nor answers leaves of a trace. -/
theorem Kept.silent (haccepted : e.accepted = none) (hstarted : e.started = none)
    (hdropped : e.dropped = none) (hanswered : e.answered = none)
    (hwaiting : r'.waiting = r.waiting) (hrunning : r'.running = r.running)
    (hcalls : r'.calls = r.calls) : Kept (tr ++ [e]) r' := by
  refine h.concat hcalls.ge (by simp [haccepted]) (by simp [hstarted]) (by simp [hanswered])
    (fun k => ?_) (fun k t ht => ⟨h.waiting k t (hwaiting ▸ ht), by simp [hanswered]⟩)
    (fun p hp => ?_) (hrunning ▸ h.running_once) ?_ ?_ ?_
  · rw [keptOf_concat haccepted hdropped, started_concat, hstarted, hwaiting]
    simpa using h.order k
  · obtain ⟨hold, hnot⟩ := h.running p (hrunning ▸ hp)
    exact ⟨.inl hold, hnot, by simp [hanswered]⟩
  · rintro t k out rfl
    cases hanswered
  · rintro t k out rfl
    cases hanswered
  · rintro t out rfl
    cases hanswered

theorem Kept.accept (k : κ) (hfresh : r.calls ≤ t) :
    Kept (tr ++ [(.accept t k : Turn κ ω)])
      { r with
        turn := none, waiting := update r.waiting k (r.waiting k ++ [t]), calls := t + 1 } := by
  have hnew : t ∉ (answered tr).map fst := fun hmem =>
    absurd ((h.answered_lt' hmem).trans_le hfresh) (lt_irrefl t)
  have hdropped : t ∉ dropped tr := by
    intro hmem
    obtain ⟨e, he, ht⟩ := mem_filterMap.mp hmem
    cases e <;> cases ht
    exact hnew (mem_answered_of_mem he rfl)
  refine h.concat (Nat.le_succ_of_le hfresh) (by rintro _ ⟨⟩; exact ⟨hfresh, Nat.lt_succ_self t⟩)
    nofun nofun (fun j => ?_) (fun j t' ht' => ⟨?_, nofun⟩)
    (fun p hp => ⟨.inl (h.running p hp).1, (h.running p hp).2, nofun⟩) h.running_once
    nofun nofun nofun
  · have horder := h.order j
    rw [keptOf] at horder ⊢
    simp only [accepted_concat, dropped_concat, started_concat, Turn.accepted, Turn.dropped,
      Turn.started, toList_some, toList_none, append_nil, ofKey_append,
      filter_append, horder, ofKey_singleton, append_assoc]
    congr 1
    by_cases hj : k = j
    · subst hj
      simp [hdropped]
    · simp [hj, update_of_ne (Ne.symm hj)]
  · by_cases hj : j = k
    · subst hj
      simp only [update_self, mem_append, mem_singleton] at ht'
      rcases ht' with ht' | rfl
      · exact h.waiting j t' ht'
      · exact hnew
    · simp only [update_of_ne hj] at ht'
      exact h.waiting j t' ht'

theorem Kept.refuseCall (out : ω) (hfresh : r.calls ≤ t) :
    Kept (tr ++ [(.refuse t out : Turn κ ω)]) { r with turn := none, calls := t + 1 } := by
  have hnew : ∀ p ∈ accepted tr, p.1 ≠ t := fun p hp =>
    ne_of_lt ((h.accepted_lt p hp).trans_le hfresh)
  refine h.concat (Nat.le_succ_of_le hfresh) nofun nofun ?_ (fun j => ?_)
    (fun j t' ht' => ⟨h.waiting j t' ht', ?_⟩)
    (fun p hp => ⟨.inl (h.running p hp).1, (h.running p hp).2, ?_⟩) h.running_once nofun nofun ?_
  · rintro _ ⟨⟩
    exact ⟨Nat.lt_succ_self t, fun hmem =>
      absurd ((h.answered_lt' hmem).trans_le hfresh) (lt_irrefl t)⟩
  · rw [keptOf_concat rfl rfl, started_concat]
    simpa [Turn.started] using h.order j
  · rintro _ ⟨⟩
    exact hnew _ (h.mem_accepted ht')
  · rintro _ ⟨⟩
    exact hnew p (h.started_accepted (h.running p hp).1)
  · rintro _ _ ⟨⟩ hmem
    obtain ⟨p, hp, heq⟩ := mem_map.mp hmem
    exact hnew p hp heq

theorem Kept.start {ts : List ℕ} (hwaiting : r.waiting k = t :: ts) :
    Kept (tr ++ [(.start t k : Turn κ ω)])
      { r with
        turn := none, waiting := update r.waiting k ts, running := r.running ++ [(t, k)] } := by
  have ht : t ∈ r.waiting k := by simp [hwaiting]
  have hnot := h.not_started ht
  refine h.concat le_rfl nofun ?_ nofun (fun j => ?_) (fun j t' ht' => ⟨?_, nofun⟩)
    (fun p hp => ?_) ?_ nofun nofun nofun
  · rintro _ ⟨⟩
    exact ⟨hnot, h.waiting k t ht⟩
  · rw [keptOf_concat rfl rfl, h.order j, started_concat, Turn.started, toList_some,
      ofKey_append, ofKey_singleton, append_assoc]
    by_cases hj : k = j
    · subst hj
      simp [hwaiting]
    · simp [hj, update_of_ne (Ne.symm hj)]
  · by_cases hj : j = k
    · subst hj
      simp only [update_self] at ht'
      exact h.waiting j t' (by rw [hwaiting]; exact mem_cons_of_mem t ht')
    · simp only [update_of_ne hj] at ht'
      exact h.waiting j t' ht'
  · rcases mem_append.mp hp with hp | hp
    · exact ⟨.inl (h.running p hp).1, (h.running p hp).2, nofun⟩
    · obtain rfl := mem_singleton.mp hp
      exact ⟨.inr rfl, h.waiting k t ht, nofun⟩
  · rw [map_append]
    refine nodup_snoc h.running_once fun hmem => hnot ?_
    obtain ⟨p, hp, hpt⟩ := mem_map.mp hmem
    exact mem_map.mpr ⟨p, (h.running p hp).1, hpt⟩

theorem Kept.finishTask {a c : List (ℕ × κ)} (hrunning : r.running = a ++ (t, k) :: c) (out : ω) :
    Kept (tr ++ [(.finish t k out : Turn κ ω)])
      { r with turn := none, running := a ++ c } := by
  obtain ⟨hstarted, hanswered⟩ := h.running (t, k) (by simp [hrunning])
  have hsub : (a ++ c).Sublist r.running := by
    rw [hrunning]
    exact (sublist_cons_self _ _).append_left a
  have hothers : ∀ p ∈ a ++ c, p.1 ≠ t := by
    intro p hp heq
    have hnodup := h.running_once
    rw [hrunning, map_append, map_cons, nodup_middle, nodup_cons,
      ← map_append] at hnodup
    exact hnodup.1 (mem_map.mpr ⟨p, hp, heq⟩)
  refine h.concat le_rfl nofun nofun ?_ (fun j => ?_)
    (fun j t' ht' => ⟨h.waiting j t' ht', ?_⟩) (fun p hp => ?_)
    (h.running_once.sublist (hsub.map _)) ?_ nofun nofun
  · rintro _ ⟨⟩
    exact ⟨h.accepted_lt _ (h.started_accepted hstarted), hanswered⟩
  · rw [keptOf_concat rfl rfl, started_concat]
    simpa [Turn.started] using h.order j
  · rintro _ ⟨⟩ rfl
    exact h.not_started ht' (mem_map_of_mem hstarted)
  · obtain ⟨hold, hnot⟩ := h.running p (hsub.subset hp)
    refine ⟨.inl hold, hnot, ?_⟩
    rintro _ ⟨⟩
    exact hothers p hp
  · rintro _ _ _ ⟨⟩
    exact hstarted

theorem Kept.dropTask {ts : List ℕ} (hwaiting : r.waiting k = t :: ts) (out : ω) :
    Kept (tr ++ [(.drop t k out : Turn κ ω)])
      { r with turn := none, waiting := update r.waiting k ts } := by
  have ht : t ∈ r.waiting k := by simp [hwaiting]
  have hnot := h.not_started ht
  have haccepted := h.mem_accepted ht
  have hothers : ∀ j, ∀ t' ∈ update r.waiting k ts j, t' ∈ r.waiting j ∧ t' ≠ t := by
    intro j t' ht'
    by_cases hj : j = k
    · subst hj
      rw [update_self] at ht'
      have hnodup := h.nodup_keptOf j
      rw [h.order, hwaiting] at hnodup
      have hcons := (nodup_cons.mp (nodup_append.mp hnodup).2.1).1
      refine ⟨by rw [hwaiting]; exact mem_cons_of_mem t ht', ?_⟩
      rintro rfl
      exact hcons ht'
    · rw [update_of_ne hj] at ht'
      refine ⟨ht', ?_⟩
      rintro rfl
      exact hj (h.key_unique (h.mem_accepted ht') haccepted)
  refine h.concat le_rfl nofun nofun ?_ (fun j => ?_) (fun j t' ht' => ?_) (fun p hp => ?_)
    h.running_once nofun ?_ nofun
  · rintro _ ⟨⟩
    exact ⟨h.accepted_lt _ haccepted, h.waiting k t ht⟩
  · -- the task leaves both the kept tasks and the waiting ones
    have hfilter : keptOf (tr ++ [(.drop t k out : Turn κ ω)]) j =
        (keptOf tr j).filter fun t' => t' ≠ t := by
      rw [keptOf, keptOf, List.filter_filter]
      simp [accepted_concat, dropped_concat, Turn.accepted, Turn.dropped, Bool.and_comm]
    have hstarted : (ofKey (started tr) j).filter (fun t' => t' ≠ t) = ofKey (started tr) j := by
      rw [filter_eq_self]
      intro t' ht'
      have hne : t' ≠ t := by
        rintro rfl
        exact hnot (mem_map_of_mem (mem_ofKey.mp ht'))
      exact decide_eq_true hne
    have hrest : (r.waiting j).filter (fun t' => t' ≠ t) = update r.waiting k ts j := by
      by_cases hj : j = k
      · subst hj
        rw [hwaiting, filter_cons_of_neg (by simp), update_self, filter_eq_self]
        intro t' ht'
        exact decide_eq_true (hothers j t' (by rwa [update_self])).2
      · rw [update_of_ne hj, filter_eq_self]
        intro t' ht'
        exact decide_eq_true (hothers j t' (by rwa [update_of_ne hj])).2
    simp only [started_concat, Turn.started, toList_none, append_nil]
    rw [hfilter, h.order j, filter_append, hstarted, hrest]
  · obtain ⟨hold, hne⟩ := hothers j t' ht'
    refine ⟨h.waiting j t' hold, ?_⟩
    rintro _ ⟨⟩
    exact hne
  · obtain ⟨hstarted, hanswered⟩ := h.running p hp
    refine ⟨.inl hstarted, hanswered, ?_⟩
    rintro _ ⟨⟩ heq
    exact hnot (mem_map.mpr ⟨p, hstarted, heq⟩)
  · rintro _ _ _ ⟨⟩
    exact ⟨haccepted, hnot⟩

theorem Kept.step (hstep : Step cap r e r') : Kept (tr ++ [e]) r' := by
  cases hstep with
  | accept k hfresh => exact h.accept k hfresh
  | refuse out hfresh => exact h.refuseCall out hfresh
  | place hnot => exact h.silent rfl rfl rfl rfl rfl rfl rfl
  | leave hline => exact h.silent rfl rfl rfl rfl rfl rfl rfl
  | start hturn hwaiting hload => exact h.start hwaiting
  | finish hrunning out => exact h.finishTask hrunning out
  | drop hwaiting out => exact h.dropTask hwaiting out

end

theorem Steps.kept (h : Steps cap (Rota.empty : Rota κ) tr r) : Kept tr r :=
  h.invariant kept_empty fun _ _ _ _ hI hstep => hI.step hstep

end Kept

/-! ## How many tasks run -/

section Load

variable {κ : Type u} {ω : Type v} [DecidableEq κ] {cap : ℕ} {r r' : Rota κ}
  {tr : List (Turn κ ω)} {e : Turn κ ω}

/-- The starts of a key in a trace. -/
def starts (tr : List (Turn κ ω)) (k : κ) : ℕ := (ofKey (started tr) k).length

/-- The tasks of a key that end in a trace. -/
def ends (tr : List (Turn κ ω)) (k : κ) : ℕ := (ofKey (finished tr) k).length

theorem starts_concat (tr : List (Turn κ ω)) (e : Turn κ ω) (k : κ) :
    starts (tr ++ [e]) k = starts tr k + (ofKey e.started.toList k).length := by
  rw [starts, started_concat, ofKey_append, length_append, starts]

theorem ends_concat (tr : List (Turn κ ω)) (e : Turn κ ω) (k : κ) :
    ends (tr ++ [e]) k = ends tr k + (ofKey e.finished.toList k).length := by
  rw [ends, finished_concat, ofKey_append, length_append, ends]

theorem starts_silent (he : e.started = none) (k : κ) : starts (tr ++ [e]) k = starts tr k := by
  rw [starts_concat, he]
  rfl

theorem ends_silent (he : e.finished = none) (k : κ) : ends (tr ++ [e]) k = ends tr k := by
  rw [ends_concat, he]
  rfl

theorem starts_start (tr : List (Turn κ ω)) (t : ℕ) (k j : κ) :
    starts (tr ++ [.start t k]) j = starts tr j + if k = j then 1 else 0 := by
  by_cases hj : k = j <;> simp [starts_concat, Turn.started, ofKey_singleton, hj]

theorem ends_finish (tr : List (Turn κ ω)) (t : ℕ) (k j : κ) (out : ω) :
    ends (tr ++ [.finish t k out]) j = ends tr j + if k = j then 1 else 0 := by
  by_cases hj : k = j <;> simp [ends_concat, Turn.finished, ofKey_singleton, hj]

/-- What runs, by the trace. -/
structure Loaded (cap : ℕ) (tr : List (Turn κ ω)) (r : Rota κ) : Prop where
  /-- What was started has ended or runs. -/
  balance : ∀ k, starts tr k = ends tr k + r.load k
  /-- No key runs more tasks than it may. -/
  load_le : ∀ k, r.load k ≤ cap

theorem Loaded.step (h : Loaded cap tr r) (hstep : Step cap r e r') :
    Loaded cap (tr ++ [e]) r' := by
  have hsilent : e.started = none → e.finished = none → r'.running = r.running →
      Loaded cap (tr ++ [e]) r' := by
    intro hstarted hfinished hrunning
    refine ⟨fun k => ?_, fun k => ?_⟩
    · rw [starts_silent hstarted, ends_silent hfinished, Rota.load, hrunning]
      exact h.balance k
    · rw [Rota.load, hrunning]
      exact h.load_le k
  cases hstep with
  | accept k hfresh => exact hsilent rfl rfl rfl
  | refuse out hfresh => exact hsilent rfl rfl rfl
  | place hnot => exact hsilent rfl rfl rfl
  | leave hline => exact hsilent rfl rfl rfl
  | drop hwaiting out => exact hsilent rfl rfl rfl
  | @start t ts k hturn hwaiting hload =>
    have hadd : ∀ j, (r.running ++ [(t, k)]).countP (fun p => p.2 = j) =
        r.load j + if k = j then 1 else 0 := by
      intro j
      rw [countP_append, countP_singleton, Rota.load]
      simp
    refine ⟨fun j => ?_, fun j => ?_⟩
    · have hbalance := h.balance j
      rw [starts_start, ends_silent rfl, Rota.load, hadd j]
      omega
    · rw [Rota.load, hadd j]
      by_cases hj : k = j
      · subst hj
        rw [if_pos rfl]
        exact hload
      · rw [if_neg hj]
        exact h.load_le j
  | @finish a c t k hrunning out =>
    have hsub : ∀ j, r.load j =
        (a ++ c).countP (fun p => p.2 = j) + if k = j then 1 else 0 := by
      intro j
      rw [Rota.load, hrunning, countP_append, countP_cons, countP_append]
      simp only [decide_eq_true_eq]
      omega
    refine ⟨fun j => ?_, fun j => ?_⟩
    · have hbalance := h.balance j
      rw [hsub j] at hbalance
      rw [starts_silent rfl, ends_finish, hbalance, Rota.load]
      dsimp only
      omega
    · have hle := h.load_le j
      rw [hsub j] at hle
      exact Nat.le_of_add_right_le hle

variable {A B : List (Turn κ ω)}

/-- At no point of a run does a key have more tasks started and not ended than it may run. -/
theorem Steps.load_le (h : Steps cap (Rota.empty : Rota κ) tr r) (htr : tr = A ++ B) (k : κ) :
    starts A k ≤ ends A k + cap := by
  have hloaded : Loaded cap tr r ∧
      ∀ A B, tr = A ++ B → starts A k ≤ ends A k + cap := by
    refine h.invariant (I := fun tr r => Loaded cap tr r ∧
      ∀ A B, tr = A ++ B → starts A k ≤ ends A k + cap) ?_ fun tr r e r' hI hstep => ?_
    · refine ⟨⟨fun _ => rfl, fun _ => Nat.zero_le _⟩, fun A B hAB => ?_⟩
      rw [(append_eq_nil_iff.mp hAB.symm).1]
      exact Nat.zero_le _
    · have hloaded := hI.1.step hstep
      refine ⟨hloaded, fun A B hAB => ?_⟩
      rcases eq_nil_or_concat' B with rfl | ⟨B, e', rfl⟩
      · rw [← (hAB.trans (append_nil A)), hloaded.balance k]
        exact Nat.add_le_add_left (hloaded.load_le k) _
      · rw [← append_assoc] at hAB
        exact hI.2 A B (append_inj' hAB rfl).1
  exact hloaded.2 A B htr

end Load

/-! ## Turns -/

section Fair

variable {κ : Type u} {ω : Type v} [DecidableEq κ] {cap : ℕ} {r r' : Rota κ}
  {tr : List (Turn κ ω)} {e : Turn κ ω} {k : κ}

/-- The keys before a key in a line. -/
def ahead (k : κ) (line : List κ) : List κ := line.takeWhile fun j => j ≠ k

theorem mem_of_mem_ahead {j : κ} {line : List κ} (hj : j ∈ ahead k line) : j ∈ line :=
  (takeWhile_sublist _).subset hj

theorem ahead_append {line : List κ} (hk : k ∈ line) (line' : List κ) :
    ahead k (line ++ line') = ahead k line := by
  induction line with
  | nil => cases hk
  | cons j line ih =>
    by_cases hj : j = k
    · simp [ahead, hj]
    · have hmem : k ∈ line := (mem_cons.mp hk).resolve_left (Ne.symm hj)
      have hrest := ih hmem
      rw [ahead, ahead] at hrest
      rw [ahead, ahead, cons_append, takeWhile_cons_of_pos (by simpa using hj),
        takeWhile_cons_of_pos (by simpa using hj), hrest]

theorem mem_ahead_of_leave {a c : List κ} {j j' : κ} (hj : j ≠ k)
    (hmem : j' ∈ ahead k (a ++ c)) : j' ∈ ahead k (a ++ j :: c) := by
  induction a with
  | nil =>
    rw [nil_append, ahead, takeWhile_cons_of_pos (by simpa using hj)]
    exact mem_cons_of_mem j hmem
  | cons i a ih =>
    by_cases hi : i = k
    · simp [ahead, hi] at hmem
    · rw [cons_append, ahead, takeWhile_cons_of_pos (by simpa using hi)] at hmem ⊢
      exact mem_cons.mpr ((mem_cons.mp hmem).imp_right ih)

/-- What holds while a key holds its place since `B` began. -/
structure Held (r : Rota κ) (k : κ) (B : List (Turn κ ω)) : Prop where
  mem : k ∈ r.line
  /-- Every other key started at most one task. -/
  others : ∀ j, j ≠ k → starts B j ≤ 1
  /-- The keys still ahead started none. -/
  ahead : ∀ j ∈ ahead k r.line, starts B j = 0
  /-- Nor did the key whose turn it is. -/
  turn : ∀ j, r.turn = some j → starts B j = 0

/-- Who is in line, and what the keys that wait have seen. -/
structure Fair (tr : List (Turn κ ω)) (r : Rota κ) : Prop where
  nodup : r.line.Nodup
  /-- The key whose turn it is has left the line. -/
  turn : ∀ j, r.turn = some j → j ∉ r.line
  held : ∀ A k B, tr = A ++ .place k :: B → .leave k ∉ B → Held r k B
  /-- A key in line took its place and has not left it. -/
  placed : ∀ k ∈ r.line, ∃ A B, tr = A ++ .place k :: B ∧ .leave k ∉ B

omit [DecidableEq κ] in
/-- An entry of a longer trace is the new one, or one of the trace before. -/
theorem place_cases (htr : tr ++ [e] = A ++ .place k :: B) :
    (B = [] ∧ e = .place k) ∨ ∃ B', B = B' ++ [e] ∧ tr = A ++ .place k :: B' := by
  rcases eq_nil_or_concat' B with rfl | ⟨B', e', rfl⟩
  · exact .inl ⟨rfl, singleton_inj.mp (append_inj' htr rfl).2⟩
  · have hassoc : tr ++ [e] = (A ++ .place k :: B') ++ [e'] := by rw [htr]; simp
    obtain ⟨hleft, hright⟩ := append_inj' hassoc rfl
    exact .inr ⟨B', by rw [singleton_inj.mp hright], hleft⟩

section

variable (h : Fair tr r)
include h

theorem Fair.placed_concat (hk : k ∈ r.line) (he : e ≠ .leave k) :
    ∃ A B, tr ++ [e] = A ++ .place k :: B ∧ .leave k ∉ B := by
  obtain ⟨A, B, rfl, hleave⟩ := h.placed k hk
  refine ⟨A, B ++ [e], by simp, fun hmem => ?_⟩
  rcases mem_append.mp hmem with hmem | hmem
  · exact hleave hmem
  · exact he (mem_singleton.mp hmem).symm

/-- What a step keeps of the keys that hold their places. -/
theorem Fair.keep (hne : ∀ k, e ≠ .place k) (hstay : ∀ k, e ≠ .leave k) (hline : r'.line = r.line)
    (hturn : r'.turn = none) (hstarted : e.started = none) : Fair (tr ++ [e]) r' := by
  refine ⟨hline ▸ h.nodup, fun j hj => ?_, fun A k B htr hleave => ?_,
    fun k hk => h.placed_concat (hline ▸ hk) (hstay k)⟩
  · rw [hturn] at hj
    cases hj
  · rcases place_cases htr with ⟨-, he⟩ | ⟨B', rfl, hprev⟩
    · exact absurd he (hne k)
    · have hheld := h.held A k B' hprev fun hmem => hleave (mem_append_left _ hmem)
      refine ⟨hline ▸ hheld.mem, fun j hj => ?_, fun j hj => ?_, fun j hj => ?_⟩
      · rw [starts_silent hstarted]
        exact hheld.others j hj
      · rw [starts_silent hstarted]
        rw [hline] at hj
        exact hheld.ahead j hj
      · rw [hturn] at hj
        cases hj

theorem Fair.place (hnot : k ∉ r.line) :
    Fair (tr ++ [(.place k : Turn κ ω)]) { r with turn := none, line := r.line ++ [k] } := by
  refine ⟨?_, fun j hj => absurd hj.symm (some_ne_none j), fun A k' B htr hleave => ?_,
    fun j hj => ?_⟩
  · rw [nodup_append]
    refine ⟨h.nodup, nodup_singleton k, fun j hj j' hj' heq => hnot ?_⟩
    rw [← mem_singleton.mp hj', ← heq]
    exact hj
  · rcases place_cases htr with ⟨rfl, he⟩ | ⟨B', rfl, hprev⟩
    · obtain rfl := Turn.place.inj he
      exact ⟨mem_concat_self, fun _ _ => Nat.zero_le _,
        fun _ _ => rfl, fun _ _ => rfl⟩
    · have hheld := h.held A k' B' hprev fun hmem => hleave (mem_append_left _ hmem)
      refine ⟨mem_append_left _ hheld.mem, fun j hj => ?_, fun j hj => ?_,
        fun j hj => absurd hj.symm (some_ne_none j)⟩
      · rw [starts_silent rfl]
        exact hheld.others j hj
      · rw [starts_silent rfl]
        rw [ahead_append hheld.mem] at hj
        exact hheld.ahead j hj
  · rcases mem_append.mp hj with hj | hj
    · exact h.placed_concat hj (fun he => by cases he)
    · rw [mem_singleton.mp hj]
      exact ⟨tr, [], rfl, not_mem_nil⟩

theorem Fair.leave {a c : List κ} (hline : r.line = a ++ k :: c) :
    Fair (tr ++ [(.leave k : Turn κ ω)])
      { r with turn := if a = [] then some k else none, line := a ++ c } := by
  have hnodup := h.nodup
  rw [hline, nodup_middle, nodup_cons] at hnodup
  refine ⟨hnodup.2, fun j hj => ?_, fun A k' B htr hleave => ?_, fun j hj => ?_⟩
  · simp only at hj
    obtain ⟨-, ⟨⟩⟩ := ite_none_right_eq_some.mp hj
    exact hnodup.1
  · rcases place_cases htr with ⟨-, he⟩ | ⟨B', rfl, hprev⟩
    · cases he
    · have hne : k ≠ k' := by
        rintro rfl
        exact hleave (mem_concat_self)
      have hheld := h.held A k' B' hprev fun hmem => hleave (mem_append_left _ hmem)
      have hmem := hheld.mem
      have hahead := hheld.ahead
      rw [hline] at hmem hahead
      refine ⟨?_, fun j hj => ?_, fun j hj => ?_, fun j hj => ?_⟩
      · rcases mem_append.mp hmem with hmem | hmem
        · exact mem_append_left _ hmem
        · exact mem_append_right _ ((mem_cons.mp hmem).resolve_left hne.symm)
      · rw [starts_silent rfl]
        exact hheld.others j hj
      · rw [starts_silent rfl]
        exact hahead j (mem_ahead_of_leave hne hj)
      · -- the key at the front was ahead of every other
        obtain ⟨ha, ⟨⟩⟩ := ite_none_right_eq_some.mp hj
        rw [starts_silent rfl]
        refine hahead k ?_
        rw [ha, nil_append, RoundRobin.ahead,
          takeWhile_cons_of_pos (by simpa using hne)]
        exact (.head _)
  · refine h.placed_concat ?_ fun he => hnodup.1 (Turn.leave.inj he ▸ hj)
    rw [hline]
    exact ((sublist_cons_self k c).append_left a).subset hj

/-- A key whose turn it is starts a task, or any key with nobody in line. -/
theorem Fair.start (hturn : r.turn = some k ∨ r.line = []) (hr' : r'.line = r.line)
    (hnone : r'.turn = none) : Fair (tr ++ [(.start t k : Turn κ ω)]) r' := by
  refine ⟨hr' ▸ h.nodup, fun j hj => ?_, fun A k' B htr hleave => ?_,
    fun j hj => h.placed_concat (hr' ▸ hj) (fun he => by cases he)⟩
  · rw [hnone] at hj
    cases hj
  · rcases place_cases htr with ⟨-, he⟩ | ⟨B', rfl, hprev⟩
    · cases he
    · have hheld := h.held A k' B' hprev fun hmem => hleave (mem_append_left _ hmem)
      have hmine : r.turn = some k := by
        refine hturn.resolve_right fun hempty => ?_
        have hmem := hheld.mem
        rw [hempty] at hmem
        cases hmem
      refine ⟨hr' ▸ hheld.mem, fun j hj => ?_, fun j hj => ?_, fun j hj => ?_⟩
      · rw [starts_start]
        by_cases hkj : k = j
        · subst hkj
          rw [hheld.turn k hmine, if_pos rfl]
        · rw [if_neg hkj]
          exact hheld.others j hj
      · rw [hr'] at hj
        have hkj : k ≠ j := by
          rintro rfl
          exact h.turn k hmine (mem_of_mem_ahead hj)
        rw [starts_start, if_neg hkj]
        exact hheld.ahead j hj
      · rw [hnone] at hj
        cases hj

theorem Fair.step (hstep : Step cap r e r') : Fair (tr ++ [e]) r' := by
  cases hstep with
  | accept k hfresh => exact h.keep (fun _ he => by cases he) (fun _ he => by cases he) rfl rfl rfl
  | refuse out hfresh => exact h.keep (fun _ he => by cases he) (fun _ he => by cases he) rfl rfl rfl
  | place hnot => exact h.place hnot
  | leave hline => exact h.leave hline
  | start hturn hwaiting hload => exact h.start hturn rfl rfl
  | finish hrunning out => exact h.keep (fun _ he => by cases he) (fun _ he => by cases he) rfl rfl rfl
  | drop hwaiting out => exact h.keep (fun _ he => by cases he) (fun _ he => by cases he) rfl rfl rfl

end

theorem fair_empty : Fair ([] : List (Turn κ ω)) (Rota.empty : Rota κ) where
  nodup := nodup_nil
  turn _ hj := by cases hj
  held A k B htr := by simp at htr
  placed _ hk := absurd hk not_mem_nil

section

variable (h : Steps cap (Rota.empty : Rota κ) tr r)
include h

theorem Steps.placed (hk : k ∈ r.line) : ∃ A B, tr = A ++ .place k :: B ∧ .leave k ∉ B :=
  (h.invariant fair_empty fun _ _ _ _ hI hstep => hI.step hstep).placed k hk

theorem Steps.balance (k : κ) : starts tr k = ends tr k + r.load k :=
  (h.invariant ⟨fun _ => rfl, fun _ => Nat.zero_le _⟩
    fun _ _ _ _ hI hstep => Loaded.step hI hstep).balance k

/-- While a key holds the place it took, every other key starts at most one task. -/
theorem Steps.fair {C : List (Turn κ ω)} (htr : tr = A ++ .place k :: (B ++ C))
    (hleave : .leave k ∉ B) {j : κ} (hj : j ≠ k) : starts B j ≤ 1 := by
  have hfair : Fair tr r ∧ ∀ A B C, tr = A ++ .place k :: (B ++ C) → .leave k ∉ B →
      starts B j ≤ 1 := by
    refine h.invariant (I := fun tr r => Fair tr r ∧ ∀ A B C, tr = A ++ .place k :: (B ++ C) →
      .leave k ∉ B → starts B j ≤ 1) ?_ fun tr r e r' hI hstep => ?_
    · refine ⟨fair_empty, fun A B C hABC => ?_⟩
      simp at hABC
    · have hfair := hI.1.step hstep
      refine ⟨hfair, fun A B C hABC hleave => ?_⟩
      rcases eq_nil_or_concat' C with rfl | ⟨C, e', rfl⟩
      · rw [append_nil] at hABC
        exact (hfair.held A k B hABC hleave).others j hj
      · have hassoc : tr ++ [e] = (A ++ .place k :: (B ++ C)) ++ [e'] := by rw [hABC]; simp
        exact hI.2 A B C (append_inj' hassoc rfl).1 hleave
  exact hfair.2 A B C htr hleave

end

end Fair

end AdapterWs.RoundRobin
