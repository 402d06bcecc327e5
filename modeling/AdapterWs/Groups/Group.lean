import AdapterWs.Lib.JsMap
import AdapterWs.Lib.JsSet
import AdapterWs.Lib.Machine
import Mathlib.Data.Rat.Cast.Order
import Mathlib.Data.List.Infix

/-!
# Broadcast groups

A group holds its members and announces each join and leave with the count. `join` checks that the
group is open, that the connection is no member and that there is room, then asks the application,
and then inserts, announces and subscribes. The application's hook runs in the middle, and it may
join, leave and close itself, so a join in its hook waits on a stack.
-/

namespace AdapterWs.Groups

open List

/-- A connection. -/
abbrev Ws := ℕ

/-- `VALID_ROLES`. -/
inductive Role
  | member
  | admin
  | viewer
  deriving DecidableEq

/-- The options of a group that its calls read. -/
structure GroupOptions where
  /-- The most members, or `none` for `Infinity`. -/
  maxMembers : Option ℚ
  /-- `maxMembers` is at least one. -/
  one_le : ∀ max ∈ maxMembers, 1 ≤ max
  /-- Whether there is an `onJoin` hook. -/
  onJoin : Bool

/-- What `onJoin` returns. -/
inductive Decision
  /-- `false`. -/
  | reject
  | role (role : Role)
  /-- A string that is no role. -/
  | invalidRole
  /-- A value with a `then`. -/
  | promise
  /-- Any other value. -/
  | other
  /-- The hook throws. -/
  | throws
  deriving DecidableEq

/-- What is published on the group's topic. -/
inductive Broadcast
  | join (role : Role) (count : ℕ)
  | leave (role : Role) (count : ℕ)
  | close
  deriving DecidableEq

/-- How a `join` ended: `none` where it threw. -/
structure Answer where
  ws : Ws
  result : Option Bool
  /-- Whether the group was closed. -/
  closed : Bool
  deriving DecidableEq

/-- A group. -/
structure Group where
  members : JsMap Ws Role
  closed : Bool
  /-- The joins that wait for their hook, the innermost first. -/
  stack : List (Ws × Role)
  /-- The connections that the group subscribed to its topic. -/
  subscribed : JsSet Ws
  broadcasts : List Broadcast
  /-- The lists of roles sent to joiners. -/
  rosters : List (Ws × List Role)
  answers : List Answer

namespace Group

/-- `createGroup`. -/
def create : Group := ⟨.empty, false, [], .empty, [], [], []⟩

/-- `membersList()`. -/
def membersList (g : Group) : List Role := g.members.entries.map Prod.snd

/-- `members.size >= maxMembers`. -/
def isFull (options : GroupOptions) (g : Group) : Bool :=
  match options.maxMembers with
  | none => false
  | some max => decide (max ≤ g.members.size)

/-- A `join` ends. -/
def answer (g : Group) (ws : Ws) (result : Option Bool) : Group :=
  { g with answers := g.answers ++ [⟨ws, result, g.closed⟩] }

/-- `join` past its hook. `subscribes` is what `trackedSubscribe` answers. -/
def enroll (g : Group) (ws : Ws) (role : Role) (subscribes : Bool) : Group :=
  let g := { g with members := g.members.set ws role }
  let g := { g with broadcasts := g.broadcasts ++ [Broadcast.join role g.members.size] }
  if subscribes then
    { g with
      subscribed := g.subscribed.add ws
      rosters := g.rosters ++ [(ws, g.membersList)] }.answer ws (some true)
  else { g with members := g.members.delete ws }.answer ws (some false)

/-- `join(ws, platform, role)` up to its hook. The role is `none` where it is no valid one. -/
def join (options : GroupOptions) (g : Group) (ws : Ws) (role : Option Role) (subscribes : Bool) :
    Group :=
  if g.closed then g.answer ws (some false)
  else if (g.members.get ws).isSome then g.answer ws (some true)
  else
    match role with
    | none => g.answer ws none
    | some role =>
      if g.isFull options then g.answer ws (some false)
      else if options.onJoin then { g with stack := (ws, role) :: g.stack }
      else g.enroll ws role subscribes

/-- The hook of the innermost `join` returns. -/
def onJoinReturns (g : Group) (decision : Decision) (subscribes : Bool) : Option Group :=
  match g.stack with
  | [] => none
  | (ws, requested) :: stack =>
    let g := { g with stack := stack }
    some
      (match decision with
      | .reject => g.answer ws (some false)
      | .role role => g.enroll ws role subscribes
      | .invalidRole => g.answer ws none
      | .promise => g.answer ws none
      | .other => g.enroll ws requested subscribes
      | .throws => g.answer ws none)

/-- `leave(ws, platform)`. -/
def leave (g : Group) (ws : Ws) : Group :=
  match g.members.get ws with
  | none => g
  | some role =>
    let g := { g with members := g.members.delete ws }
    { g with
      subscribed := g.subscribed.delete ws
      broadcasts := g.broadcasts ++ [Broadcast.leave role g.members.size] }

/-- `close(platform)`. -/
def close (g : Group) : Group :=
  if g.closed then g
  else
    { g with
      closed := true
      broadcasts := g.broadcasts ++ [.close]
      subscribed := g.members.keys.foldl JsSet.delete g.subscribed
      members := .empty }

end Group

/-- What is called, by the application or by one of its hooks. The hooks that a call runs last,
`onFull`, `onLeave` and `onClose`, make their calls as the next events. -/
inductive GroupEvent
  | join (ws : Ws) (role : Option Role) (subscribes : Bool)
  | onJoinReturns (decision : Decision) (subscribes : Bool)
  | leave (ws : Ws)
  | close

/-- One group. -/
def groupMachine (options : GroupOptions) : Machine Group GroupEvent where
  init := .create
  step g
    | .join ws role subscribes => some (g.join options ws role subscribes)
    | .onJoinReturns decision subscribes => g.onJoinReturns decision subscribes
    | .leave ws => some (g.leave ws)
    | .close => some g.close

/-! ## What is claimed -/

/-- One more member keeps the cap. -/
def HasRoom (options : GroupOptions) (g : Group) : Prop :=
  ∀ max ∈ options.maxMembers, ((g.members.size : ℚ) + 1) ≤ max

instance instDecidableHasRoom (options : GroupOptions) (g : Group) :
    Decidable (HasRoom options g) :=
  inferInstanceAs (Decidable (∀ max ∈ options.maxMembers, _ ≤ _))

/-- A join that is past its hook finds what it had checked, and the subscribe does not fail. -/
def Undisturbed (options : GroupOptions) (g : Group) (ws : Ws) (subscribes : Bool) : Prop :=
  g.closed = false ∧ g.members.get ws = none ∧ HasRoom options g ∧ subscribes = true

instance instDecidableUndisturbed (options : GroupOptions) (g : Group) (ws : Ws)
    (subscribes : Bool) : Decidable (Undisturbed options g ws subscribes) :=
  inferInstanceAs (Decidable (_ ∧ _ ∧ _ ∧ _))

/-- The decision admits. -/
def Decision.admits : Decision → Bool
  | .role _ => true
  | .other => true
  | _ => false

/-- Every join that gets past its hook is undisturbed. -/
def JoinsUndisturbed (options : GroupOptions) (g : Group) : GroupEvent → Prop
  | .join ws role subscribes =>
    g.closed = false → g.members.get ws = none → role.isSome = true → g.isFull options = false →
      options.onJoin = false → Undisturbed options g ws subscribes
  | .onJoinReturns decision subscribes =>
    decision.admits = true → ∀ p ∈ g.stack.head?, Undisturbed options g p.1 subscribes
  | _ => True

instance instDecidableJoinsUndisturbed (options : GroupOptions) (g : Group) :
    (e : GroupEvent) → Decidable (JoinsUndisturbed options g e)
  | .join _ _ _ => inferInstanceAs (Decidable (_ → _ → _ → _ → _ → Undisturbed _ _ _ _))
  | .onJoinReturns _ _ =>
    inferInstanceAs (Decidable (_ → ∀ p ∈ g.stack.head?, Undisturbed _ _ _ _))
  | .leave _ => isTrue trivial
  | .close => isTrue trivial

/-- The joins announced minus the leaves announced. -/
def balance (broadcasts : List Broadcast) : ℤ :=
  (broadcasts.map fun
    | .join _ _ => 1
    | .leave _ _ => -1
    | .close => 0).sum

/-- The count a broadcast carries. -/
def Broadcast.count : Broadcast → Option ℕ
  | .join _ count => some count
  | .leave _ count => some count
  | .close => none

/-- The members and the broadcasts agree. -/
structure Agrees (options : GroupOptions) (g : Group) : Prop where
  cap : ∀ max ∈ options.maxMembers, (g.members.size : ℚ) ≤ max
  subscribed : ∀ ws, g.members.get ws ≠ none → ws ∈ g.subscribed
  answers : ∀ a ∈ g.answers, a.result = some true → a.closed = false
  counted : g.closed = false → balance g.broadcasts = g.members.size
  carried : ∀ p b, p ++ [b] <+: g.broadcasts → ∀ n : ℕ, n ∈ b.count → (n : ℤ) = balance (p ++ [b])

variable {options : GroupOptions} {g g' : Group} {ws : Ws} {subscribes : Bool}

/-! ## The invariant -/

/-- A closed group has no members. -/
structure Kept (options : GroupOptions) (g : Group) : Prop where
  agrees : Agrees options g
  empty : g.closed = true → g.members = .empty

theorem balance_append (l : List Broadcast) (b : Broadcast) :
    balance (l ++ [b]) = balance l + balance [b] := by
  simp [balance]

theorem carried_append {l : List Broadcast} {b : Broadcast}
    (hl : ∀ p c, p ++ [c] <+: l → ∀ n : ℕ, n ∈ c.count → (n : ℤ) = balance (p ++ [c]))
    (hb : ∀ n : ℕ, n ∈ b.count → (n : ℤ) = balance (l ++ [b])) :
    ∀ p c, p ++ [c] <+: l ++ [b] → ∀ n : ℕ, n ∈ c.count → (n : ℤ) = balance (p ++ [c]) := by
  intro p c hp n hn
  rcases prefix_concat_iff.mp hp with heq | hp
  · obtain ⟨rfl, hc⟩ := append_inj' heq rfl
    obtain rfl := singleton_inj.mp hc
    exact hb n hn
  · exact hl p c hp n hn

section

variable (hg : Kept options g)
include hg

theorem Kept.answer {result : Option Bool} (hresult : result = some true → g.closed = false) :
    Kept options (g.answer ws result) := by
  refine ⟨⟨hg.agrees.cap, hg.agrees.subscribed, fun a ha htrue => ?_, hg.agrees.counted,
    hg.agrees.carried⟩, hg.empty⟩
  rcases mem_concat.mp ha with ha | rfl
  · exact hg.agrees.answers a ha htrue
  · exact hresult htrue

theorem Kept.enroll {role : Role} (hok : Undisturbed options g ws subscribes) :
    Kept options (g.enroll ws role subscribes) := by
  obtain ⟨hclosed, hnew, hroom, rfl⟩ := hok
  have hsize : (g.members.set ws role).size = g.members.size + 1 := by
    rw [JsMap.size_set, hnew]
    rfl
  let joined : Group :=
    { g with
      members := g.members.set ws role
      broadcasts := g.broadcasts ++ [Broadcast.join role (g.members.set ws role).size]
      subscribed := g.subscribed.add ws
      rosters := g.rosters ++ [(ws, (g.members.set ws role).entries.map Prod.snd)] }
  suffices hjoined : Kept options joined from hjoined.answer fun _ => hclosed
  refine ⟨⟨fun max hmax => ?_, fun w hw => ?_, hg.agrees.answers, fun _ => ?_, ?_⟩, fun h => ?_⟩
  · simp only [joined, hsize]
    exact_mod_cast hroom max hmax
  · simp only [joined, JsMap.get_set] at hw
    simp only [joined, JsSet.mem_add]
    split_ifs at hw with heq
    · exact .inl heq.symm
    · exact .inr (hg.agrees.subscribed w hw)
  · simp only [joined, hsize, balance_append, hg.agrees.counted hclosed]
    simp [balance]
  · refine carried_append hg.agrees.carried fun n hn => ?_
    simp only [Broadcast.count, Option.mem_some] at hn
    rw [balance_append, hg.agrees.counted hclosed, ← hn, hsize]
    simp [balance]
  · rw [hclosed] at h
    cases h

theorem Kept.join {role : Option Role} (hok : JoinsUndisturbed options g (.join ws role subscribes)) :
    Kept options (g.join options ws role subscribes) := by
  rw [Group.join.eq_def]
  by_cases hclosed : g.closed = true
  · rw [if_pos hclosed]
    exact hg.answer fun h => by cases h
  have hopen : g.closed = false := by simpa using hclosed
  by_cases hmember : (g.members.get ws).isSome = true
  · rw [if_neg hclosed, if_pos hmember]
    exact hg.answer fun _ => hopen
  rw [if_neg hclosed, if_neg hmember]
  cases role with
  | none => exact hg.answer fun h => by cases h
  | some role =>
    simp only
    split_ifs with hfull hhook
    · exact hg.answer fun h => by cases h
    · exact ⟨⟨hg.agrees.cap, hg.agrees.subscribed, hg.agrees.answers, hg.agrees.counted,
        hg.agrees.carried⟩, hg.empty⟩
    · exact hg.enroll (hok hopen (by simpa using hmember) rfl (by simpa using hfull)
        (by simpa using hhook))

theorem Kept.onJoinReturns {decision : Decision}
    (hok : JoinsUndisturbed options g (.onJoinReturns decision subscribes))
    (h : g.onJoinReturns decision subscribes = some g') : Kept options g' := by
  rw [Group.onJoinReturns] at h
  cases hstack : g.stack with
  | nil =>
    rw [hstack] at h
    cases h
  | cons p stack =>
    obtain ⟨ws, requested⟩ := p
    rw [hstack] at h
    cases h
    have hpopped : Kept options { g with stack := stack } :=
      ⟨⟨hg.agrees.cap, hg.agrees.subscribed, hg.agrees.answers, hg.agrees.counted,
        hg.agrees.carried⟩, hg.empty⟩
    have hadmits : decision.admits = true →
        Undisturbed options { g with stack := stack } ws subscribes := by
      intro hadmit
      exact hok hadmit (ws, requested) (by rw [hstack]; rfl)
    cases decision with
    | reject => exact hpopped.answer fun h => by cases h
    | role role => exact hpopped.enroll (hadmits rfl)
    | invalidRole => exact hpopped.answer fun h => by cases h
    | promise => exact hpopped.answer fun h => by cases h
    | other => exact hpopped.enroll (hadmits rfl)
    | throws => exact hpopped.answer fun h => by cases h

theorem Kept.leave (ws : Ws) : Kept options (g.leave ws) := by
  rw [Group.leave]
  cases hget : g.members.get ws with
  | none => exact hg
  | some role =>
    have hopen : g.closed = false := by
      cases hclosed : g.closed with
      | false => rfl
      | true =>
        rw [hg.empty hclosed] at hget
        cases hget
    have hsize : (g.members.delete ws).size + 1 = g.members.size := JsMap.size_delete hget
    refine ⟨⟨fun max hmax => ?_, fun w hw => ?_, hg.agrees.answers, fun _ => ?_, ?_⟩, fun h => ?_⟩
    · have hcap := hg.agrees.cap max hmax
      have hle : ((g.members.delete ws).size : ℚ) ≤ g.members.size := by
        exact_mod_cast (by omega : (g.members.delete ws).size ≤ g.members.size)
      exact le_trans hle hcap
    · simp only [JsMap.get_delete] at hw
      split_ifs at hw with heq
      · exact absurd rfl hw
      · rw [JsSet.mem_delete]
        exact ⟨Ne.symm heq, hg.agrees.subscribed w hw⟩
    · simp only [balance_append, hg.agrees.counted hopen]
      simp only [balance, map_cons, map_nil, sum_cons, sum_nil]
      omega
    · refine carried_append hg.agrees.carried fun n hn => ?_
      simp only [Broadcast.count, Option.mem_some] at hn
      rw [balance_append, hg.agrees.counted hopen, ← hn]
      simp only [balance, map_cons, map_nil, sum_cons, sum_nil]
      omega
    · rw [hopen] at h
      cases h

theorem Kept.close : Kept options g.close := by
  rw [Group.close]
  split_ifs with hclosed
  · exact hg
  · refine ⟨⟨fun max hmax => ?_, fun w hw => ?_, hg.agrees.answers, fun h => ?_, ?_⟩, fun _ => rfl⟩
    · exact le_trans (by norm_num [JsMap.empty, JsMap.size]) (options.one_le max hmax)
    · exact absurd rfl hw
    · cases h
    · exact carried_append hg.agrees.carried fun n hn => by cases hn

end

theorem kept_create : Kept options .create := by
  refine ⟨⟨fun max hmax => ?_, fun w hw => absurd rfl hw, forall_mem_nil _,
    fun _ => rfl, fun p b hp => ?_⟩, fun h => by cases h⟩
  · exact le_trans (by norm_num [Group.create, JsMap.empty, JsMap.size]) (options.one_le max hmax)
  · have hnil := prefix_nil.mp hp
    simp at hnil

theorem Kept.step {e : GroupEvent} (hg : Kept options g) (hok : JoinsUndisturbed options g e)
    (h : (groupMachine options).step g e = some g') : Kept options g' := by
  cases e with
  | join ws role subscribes =>
    cases h
    exact hg.join hok
  | onJoinReturns decision subscribes => exact hg.onJoinReturns hok h
  | leave ws =>
    cases h
    exact hg.leave ws
  | close =>
    cases h
    exact hg.close

/-- In every run whose joins are undisturbed, whatever else their hooks do: the members stay under
the cap and are subscribed, no join succeeds on a closed group, the joins announced minus the
leaves announced are the members until the close, and each announcement carries that count. -/
theorem agrees_of_undisturbed {es : List GroupEvent}
    (hrun : (groupMachine options).ReachesWhere (JoinsUndisturbed options) es g) :
    Agrees options g := by
  have hg : Kept options g :=
    hrun.invariant kept_create fun _ _ _ hI hok hstep => hI.step hok hstep
  exact hg.agrees

/-- A hook rejects one join, admits others, and makes one leave. -/
theorem agrees_of_undisturbed_nestedRun : ∃ (options : GroupOptions) (g : Group),
    Agrees options g ∧ g.broadcasts =
      [.join .member 1, .leave .member 0, .join .admin 1, .join .viewer 2, .leave .admin 1,
        .close] ∧
      g.answers.map (fun a => (a.ws, a.result)) =
        [(1, some true), (3, some false), (2, some true), (4, some true), (5, none),
          (1, some false)] := by
  let options : GroupOptions := ⟨some 2, by norm_num, true⟩
  obtain ⟨g, hrun, hp⟩ : ∃ g, (groupMachine options).ReachesWhere (JoinsUndisturbed options)
      [.join 1 (some .member) true, .onJoinReturns .other true, .join 2 (some .member) true,
      .join 3 (some .member) true, .onJoinReturns .reject true, .leave 1,
      .onJoinReturns (.role .admin) true, .join 4 (some .viewer) true, .onJoinReturns .other true,
      .leave 2, .join 5 (some .viewer) true, .onJoinReturns .promise true, .close,
      .join 1 (some .viewer) true] g ∧ g.broadcasts = [.join .member 1, .leave .member 0,
      .join .admin 1, .join .viewer 2, .leave .admin 1, .close] ∧ g.answers.map (fun a =>
      (a.ws, a.result)) = [(1, some true), (3, some false), (2, some true), (4, some true),
      (5, none), (1, some false)] :=
    Machine.exists_of_execWhere (by decide +kernel)
  exact ⟨options, g, agrees_of_undisturbed hrun, hp⟩

/-- A connection that closed before its join announces a member that is never taken back. -/
theorem not_agrees_rolledBack : ¬ ∀ (options : GroupOptions) (es : List GroupEvent) (g : Group),
    (groupMachine options).Reaches es g → Agrees options g := by
  intro hclaim
  let options : GroupOptions := ⟨some 2, by norm_num, false⟩
  obtain ⟨g, hrun, hbroadcasts, hsize, hclosed⟩ : ∃ g, (groupMachine options).Reaches
      [.join 1 (some .member) false] g ∧ g.broadcasts = [.join .member 1] ∧ g.members.size = 0 ∧
      g.closed = false :=
    Machine.exists_of_exec (by decide +kernel)
  have hcounted := (hclaim options _ g hrun).counted hclosed
  rw [hbroadcasts, hsize] at hcounted
  cases hcounted

end AdapterWs.Groups
