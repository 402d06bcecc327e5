import AdapterWs.Lib.Ledger
import AdapterWs.Cohort.OperationInvariant

/-!
# The cohorts partition the subscribers

The invariant of the whole server: every connection keeps its own invariant beside the table,
and the table's count of every topic is the total of the connections' dues. An operation of one
connection moves the count by its own dues, and the other connections keep their ids because
their own references are still counted.

Every run whose events name no cohort topic keeps the partition. The unsubscribe frame does not
validate its topic, so a client can name its own binary cohort: it leaves the cohort while it
holds the topic, and no later publish reaches it.
-/

namespace AdapterWs

open List
namespace Cohort

variable {s s' : Server} {c : Connection} {session : Session} {topic : String} {i : ℕ} {p : Prop}

/-- The table's counts are the dues of the connections, and every connection is accounted for. -/
structure Server.Counted (s : Server) : Prop where
  ledger : ∀ topic, (s.ids.refs topic : ℤ) = Ledger.total (due topic) s.connections
  accounted : ∀ c ∈ s.connections, Accounted ⟨s.ids, c⟩

/-- The server invariant. -/
structure Server.Inv (s : Server) : Prop where
  counted : s.Counted
  names : ∀ c ∈ s.connections, ∀ topic ∈ c.subscriptions, isCohortTopic topic = false
  split : ∀ c ∈ s.connections, ∀ topic, SplitAt (IsShared s.sharedTopics topic) c topic

theorem Server.Inv.ok (h : s.Inv) (hc : c ∈ s.connections) :
    Session.Ok s.sharedTopics ⟨s.ids, c⟩ :=
  ⟨h.counted.accounted c hc, h.names c hc, h.split c hc⟩

/-- The other connections keep their references while one connection moves its own. -/
theorem Server.Counted.put (h : s.Counted) (hi : s.connections[i]? = some c)
    (htransfer : Transfer ⟨s.ids, c⟩ session) (haccounted : Accounted session) :
    (s.put i session).Counted where
  ledger topic := Ledger.balanced_set (h.ledger topic) hi (htransfer.refs topic)
  accounted := by
    intro c' hc'
    obtain ⟨j, hj⟩ := mem_iff_getElem?.mp hc'
    change (s.connections.set i session.conn)[j]? = some c' at hj
    rw [getElem?_set] at hj
    split at hj
    · split at hj
      · cases hj
        exact haccounted
      · cases hj
    · next hij =>
      have hold := h.accounted c' (mem_of_getElem? hj)
      refine ⟨fun topic ht => ?_, List.Subset.trans hold.logged htransfer.assigned, hold.cut⟩
      obtain ⟨id, hid, hmem⟩ := hold.announced topic ht
      refine ⟨id, htransfer.keep topic id hid ?_, hmem⟩
      have hboth : due topic c + due topic c' ≤ Ledger.total (due topic) s.connections :=
        Ledger.due_add_due_le_total (fun z _ => due_nonneg topic z) hij hi hj
      have hdue : due topic c' = 1 := if_pos ht
      change due topic c < s.ids.refs topic
      have hledger := h.ledger topic
      omega

theorem Server.Inv.put (h : s.Inv) (hi : s.connections[i]? = some c)
    (hkept : Kept s.sharedTopics ⟨s.ids, c⟩ session) : (s.put i session).Inv where
  counted := h.counted.put hi hkept.transfer hkept.ok.accounted
  names c' hc' := by
    rcases mem_or_eq_of_mem_set hc' with hc' | rfl
    · exact h.names c' hc'
    · exact hkept.ok.names
  split c' hc' := by
    rcases mem_or_eq_of_mem_set hc' with hc' | rfl
    · exact h.split c' hc'
    · exact hkept.ok.split

theorem Server.Inv.openConnection (h : s.Inv) :
    ({ s with connections := s.connections ++ [Cohort.openConnection] } : Server).Inv where
  counted :=
    { ledger := by
        intro topic
        rw [Ledger.total_append, ← h.counted.ledger topic]
        simp [due, Cohort.openConnection]
      accounted := by
        intro c hc
        rcases mem_concat.mp hc with hc | rfl
        · exact h.counted.accounted c hc
        · refine ⟨fun t ht => absurd ht (JsSet.not_mem_empty t), nil_subset _, ?_⟩
          exact fun hcut => by cases hcut }
  names c hc := by
    rcases mem_concat.mp hc with hc | rfl
    · exact h.names c hc
    · exact fun t ht => absurd ht (JsSet.not_mem_empty t)
  split c hc := by
    rcases mem_concat.mp hc with hc | rfl
    · exact h.split c hc
    · intro topic
      refine ⟨fun ht => absurd ht (JsSet.not_mem_empty _),
        fun _ ht => absurd ht (JsSet.not_mem_empty _), fun _ => ?_, fun _ => ?_⟩
      · simp [Cohort.openConnection]
      · simp [Cohort.openConnection]

/-! ## The lazy migration -/

theorem isShared_set {shared : SharedTopics} {capability : Capability} {topic' : String}
    (hne : topic' ≠ topic) :
    IsShared (shared.set topic capability) topic' ↔ IsShared shared topic' := by
  rw [IsShared, IsShared, JsMap.get_set, if_neg (Ne.symm hne)]

theorem isShared_set_self {shared : SharedTopics} {capability : Capability} :
    IsShared (shared.set topic capability) topic := by
  simp [IsShared]

theorem SplitAt.congr {q : Prop} (h : SplitAt p c topic) (hpq : p ↔ q) : SplitAt q c topic :=
  propext hpq ▸ h

/-- A connection that the walk passes over is split for the new shared topic as it stands. -/
theorem SplitAt.of_passed {q : Prop} (h : SplitAt p c topic) (hp : ¬ p) (hq : q)
    (hpassed : c.readyState = .open → topic ∉ c.subscriptions) : SplitAt q c topic where
  shared _ := hq
  held := h.held
  bin := h.bin
  json ho := by
    rw [h.json ho]
    simp [hp, hpassed ho]

/-- An unshared topic the connection holds is ready for the cohort join. -/
theorem SplitAt.ready (h : SplitAt p c topic) (hp : ¬ p) (hheld : topic ∈ c.subscriptions) :
    JoinReady c topic where
  held _ := hheld
  bin := h.bin
  json _ hmem := absurd (h.shared hmem) hp

/-- The walk half-way: the first `n` connections are split with the topic shared, the others
with the registry as it was. -/
structure Server.Migrating (topic : String) (capability : Capability) (n : ℕ) (s : Server) :
    Prop where
  counted : s.Counted
  names : ∀ c ∈ s.connections, ∀ topic ∈ c.subscriptions, isCohortTopic topic = false
  done : ∀ j c, s.connections[j]? = some c → j < n →
    ∀ t, SplitAt (IsShared (s.sharedTopics.set topic capability) t) c t
  rest : ∀ j c, s.connections[j]? = some c → n ≤ j → ∀ t, SplitAt (IsShared s.sharedTopics t) c t

variable {capability : Capability} {egress : ℕ → Egress} {n : ℕ}

@[simp] theorem Server.migrateOne_sharedTopics :
    (migrateOne topic capability egress s i).sharedTopics = s.sharedTopics := by
  rw [migrateOne]
  split
  · rfl
  · split <;> rfl

@[simp] theorem Server.migrateOne_length :
    (migrateOne topic capability egress s i).connections.length = s.connections.length := by
  rw [migrateOne]
  split
  · rfl
  · split
    · simp [put]
    · rfl

section

variable (h : s.Migrating topic capability n)
include h

theorem Server.Migrating.pass (hn : ∀ c, s.connections[n]? = some c →
      ∀ t, SplitAt (IsShared (s.sharedTopics.set topic capability) t) c t) :
    s.Migrating topic capability (n + 1) where
  counted := h.counted
  names := h.names
  done j c hj hlt := by
    rcases Nat.lt_succ_iff_lt_or_eq.mp hlt with hlt | rfl
    · exact h.done j c hj hlt
    · exact hn c hj
  rest j c hj hle := h.rest j c hj (Nat.le_of_succ_le hle)

theorem Server.Migrating.put (hn : s.connections[n]? = some c)
    (htransfer : Transfer ⟨s.ids, c⟩ session) (haccounted : Accounted session)
    (hnames : ∀ topic ∈ session.conn.subscriptions, isCohortTopic topic = false)
    (hsplit : ∀ t, SplitAt (IsShared (s.sharedTopics.set topic capability) t) session.conn t) :
    (s.put n session).Migrating topic capability (n + 1) where
  counted := h.counted.put hn htransfer haccounted
  names c' hc' := by
    rcases mem_or_eq_of_mem_set hc' with hc' | rfl
    · exact h.names c' hc'
    · exact hnames
  done j c' hj hlt := by
    change (s.connections.set n session.conn)[j]? = some c' at hj
    rw [getElem?_set] at hj
    split at hj
    · split at hj
      · cases hj
        exact hsplit
      · cases hj
    · next hne => exact h.done j c' hj (by omega)
  rest j c' hj hle := by
    change (s.connections.set n session.conn)[j]? = some c' at hj
    rw [getElem?_set, if_neg (by omega)] at hj
    exact h.rest j c' hj (by omega)

theorem Server.Migrating.round (hunshared : ¬ IsShared s.sharedTopics topic) :
    (migrateOne topic capability egress s n).Migrating topic capability (n + 1) := by
  rw [migrateOne]
  split
  · next hn =>
    apply h.pass
    intro c hc
    rw [hn] at hc
    cases hc
  · next c hn =>
    have hold := h.rest n c hn le_rfl
    split
    · next hlive =>
      have hacc := h.counted.accounted c (mem_of_getElem? hn)
      have hjoin := joinSharedCohort_outcome hacc.cut topic capability (egress n)
      refine h.put hn (hjoin.transfer hacc) (hjoin.accounted hacc) ?_ ?_
      · rw [hjoin.subscriptions]
        exact h.names c (mem_of_getElem? hn)
      · intro t
        by_cases ht : t = topic
        · subst ht
          exact hjoin.splitAt ((hold t).ready hunshared hlive.2) isShared_set_self
        · exact ((hold t).of_sameAt (hjoin.sameAt ht)).congr (isShared_set ht).symm
    · next hpassed =>
      apply h.pass
      intro c' hc' t
      rw [hn] at hc'
      cases hc'
      by_cases ht : t = topic
      · subst ht
        refine (hold t).of_passed hunshared isShared_set_self fun ho hheld => ?_
        exact hpassed ⟨by rw [ho]; decide, hheld⟩
      · exact (hold t).congr (isShared_set ht).symm

end

theorem Server.Migrating.walk (egress : ℕ → Egress) (h : s.Migrating topic capability 0)
    (hunshared : ¬ IsShared s.sharedTopics topic) (n : ℕ) :
    ((List.range n).foldl (migrateOne topic capability egress) s).Migrating topic capability n ∧
      ((List.range n).foldl (migrateOne topic capability egress) s).sharedTopics =
        s.sharedTopics ∧
      ((List.range n).foldl (migrateOne topic capability egress) s).connections.length =
        s.connections.length := by
  induction n with
  | zero => exact ⟨h, rfl, rfl⟩
  | succ n ih =>
    obtain ⟨hwalk, hshared, hlength⟩ := ih
    rw [range_succ, foldl_append, foldl_cons, foldl_nil]
    refine ⟨hwalk.round (by rwa [hshared]), ?_, ?_⟩
    · rw [migrateOne_sharedTopics, hshared]
    · rw [migrateOne_length, hlength]

theorem Server.Inv.migrating (h : s.Inv) (topic : String) (capability : Capability) :
    s.Migrating topic capability 0 where
  counted := h.counted
  names := h.names
  done _ _ _ hlt := absurd hlt (Nat.not_lt_zero _)
  rest _ c hj _ := h.split c (mem_of_getElem? hj)

theorem Server.Inv.publishShared (h : s.Inv) (topic : String) (capability : Capability)
    (egress : ℕ → Egress) : (s.publishShared topic capability egress).Inv := by
  rw [Server.publishShared]
  split
  · exact h
  · next hunshared =>
    obtain ⟨hwalk, hshared, hlength⟩ :=
      (h.migrating topic capability).walk egress hunshared s.connections.length
    refine ⟨⟨hwalk.counted.ledger, hwalk.counted.accounted⟩, hwalk.names, ?_⟩
    intro c hc
    obtain ⟨j, hj⟩ := mem_iff_getElem?.mp hc
    have hlt := (List.getElem?_eq_some_iff.mp hj).1
    exact hwalk.done j c hj (hlength ▸ hlt)

/-! ## Every run -/

/-- One event that names no cohort keeps the server invariant. -/
theorem Server.Inv.step {e : Event} (h : s.Inv) (hspares : SparesCohorts s e)
    (hs : Cohort.step s e = some s') : s'.Inv := by
  cases e with
  | openConnection =>
    cases hs
    exact h.openConnection
  | registerDerivedTopicPrefix derived =>
    obtain ⟨-, ⟨⟩⟩ := Option.ite_none_left_eq_some.mp hs
    exact ⟨⟨h.counted.ledger, h.counted.accounted⟩, h.names, h.split⟩
  | publishShared topic capability egress =>
    obtain ⟨-, ⟨⟩⟩ := Option.ite_none_right_eq_some.mp hs
    exact h.publishShared topic capability egress
  | operation i op =>
    rw [Cohort.step, Option.bind_eq_some_iff] at hs
    obtain ⟨c, hc, hs⟩ := hs
    obtain ⟨session, hrun, rfl⟩ := Option.map_eq_some_iff.mp hs
    exact h.put hc (Operation.run_kept (h.ok (mem_of_getElem? hc)) (hspares c hc) hrun)

theorem Server.Inv.start : Server.start.Inv where
  counted := ⟨fun topic => by simp [Server.start, WireIdTable.refs, WireIdTable.empty],
    forall_mem_nil _⟩
  names _ hc := absurd hc not_mem_nil
  split _ hc := absurd hc not_mem_nil

/-- A walk over a cohort offers the frame once to each open connection registered on it. -/
theorem Server.count_fanOutCohort (hi : s.connections[i]? = some c) (ho : c.readyState = .open)
    (name : String) : (s.fanOutCohort name).count i = if name ∈ c.topics then 1 else 0 := by
  obtain ⟨hlt, hget⟩ := List.getElem?_eq_some_iff.mp hi
  rw [fanOutCohort, (nodup_range.filter _).count]
  simp [hget, ho, hlt]

theorem Server.Inv.partition (h : s.Inv) : CohortPartition s where
  subscriber topic hshared c hc ho hheld := by
    have hsplit := h.split c hc topic
    rw [hsplit.bin ho, hsplit.json ho]
    by_cases hmem : topic ∈ c.sharedCohorts
    · simp [hmem, Xor]
    · simp [hmem, hheld, IsShared, hshared, Xor]
  stranger topic hshared c hc ho hheld := by
    have hsplit := h.split c hc topic
    rw [hsplit.bin ho, hsplit.json ho]
    exact ⟨fun hmem => hheld (hsplit.held ho hmem), fun hjson => hheld hjson.2.1⟩
  binary topic _ c hc ho := (h.split c hc topic).bin ho
  refs topic _ := by
    have hledger := h.counted.ledger topic
    have hcount : Ledger.total (fun c => if decide (topic ∈ c.sharedCohorts) then (1 : ℤ) else 0)
        s.connections = s.connections.countP fun c => decide (topic ∈ c.sharedCohorts) :=
      Ledger.total_ite_eq_countP _
    simp only [decide_eq_true_eq] at hcount
    have hdue : due topic = fun c => if topic ∈ c.sharedCohorts then (1 : ℤ) else 0 := rfl
    rw [hdue, hcount] at hledger
    exact_mod_cast hledger
  announced topic _ c hc hmem := (h.counted.accounted c hc).announced topic hmem
  assignedOnce _ _ _ hid hid' := WireIdTable.eq_of_mem_assigned hid hid'
  onlyAssigned c hc _ hp := (h.counted.accounted c hc).logged hp
  offered topic hshared i c hi ho := by
    have hc := mem_of_getElem? hi
    have hsplit := h.split c hc topic
    rw [cohortSplitOffers, count_append, count_fanOutCohort hi ho]
    by_cases hmem : topic ∈ c.sharedCohorts
    · obtain ⟨id, hid, -⟩ := (h.counted.accounted c hc).announced topic hmem
      rw [hid, Option.isSome_some, if_pos rfl, count_fanOutCohort hi ho]
      simp [hsplit.bin ho, hsplit.json ho, hmem, hsplit.held ho hmem]
    · have hbin : (if (s.ids.getId topic).isSome then
          s.fanOutCohort (cohortTopics topic).bin else []).count i = 0 := by
        split
        · rw [count_fanOutCohort hi ho, if_neg (mt (hsplit.bin ho).mp hmem)]
        · rfl
      rw [hbin]
      simp [hsplit.json ho, hmem, IsShared, hshared]

/-- Every run whose events name no cohort topic keeps the cohorts of every shared topic a
partition of its subscribers. -/
theorem cohortPartition_of_spares {es : List Event} (h : server.ReachesWhere SparesCohorts es s) :
    CohortPartition s :=
  (h.invariant Server.Inv.start fun _ _ _ hI hok hs => Server.Inv.step hI hok hs).partition

/-- An announce that is within budget and taken. -/
def Egress.taken : Egress := ⟨true, .taken⟩

/-- A binary and a JSON subscriber of one shared topic, the one joined before its first shared
publish and the other after it, and a frame that unsubscribes another topic. -/
def splitRun : List Event :=
  [.openConnection, .openConnection, .operation 0 (.hello ["snap"]),
    .operation 0 (.landSubscribe "room" .intact Egress.taken),
    .publishShared "room" "snap" fun _ => Egress.taken,
    .operation 1 (.landSubscribe "room" .intact Egress.taken),
    .operation 1 (.landSubscribe "hall" .intact Egress.taken),
    .operation 1 (.unsubscribeFrame "hall")]

theorem cohortPartition_of_spares_splitRun :
    ∃ s, CohortPartition s ∧ s.cohortSplitOffers "room" = [0, 1] := by
  obtain ⟨s, hs, hoffers⟩ : ∃ s, server.ReachesWhere SparesCohorts splitRun s ∧
      decide (s.cohortSplitOffers "room" = [0, 1]) = true :=
    Machine.exists_of_execWhere (by decide)
  exact ⟨s, cohortPartition_of_spares hs, by simpa using hoffers⟩

/-- The client subscribes to a topic, is cohorted for it, and unsubscribes the name of its binary
cohort. -/
def cohortNameRun : List Event :=
  [.openConnection, .operation 0 (.hello ["snap"]),
    .operation 0 (.landSubscribe "room" .intact Egress.taken),
    .publishShared "room" "snap" fun _ => Egress.taken,
    .operation 0 (.unsubscribeFrame "room\x00bin")]

/-- Some open connection holds the shared topic and is on neither of its cohorts. -/
def losesSubscriber (topic : String) (s : Server) : Bool :=
  (s.sharedTopics.get topic).isSome &&
    s.connections.any fun c => decide (c.readyState = .open ∧ topic ∈ c.subscriptions ∧
      (cohortTopics topic).bin ∉ c.topics ∧ (cohortTopics topic).json ∉ c.topics)

/-- A client that unsubscribes the name of its own binary cohort is lost to the split. -/
theorem not_cohortPartition_unsubscribeFrame :
    ¬ ∀ es s, server.Reaches es s → CohortPartition s := by
  intro h
  obtain ⟨s, hs, hloses⟩ : ∃ s, server.Reaches cohortNameRun s ∧
      losesSubscriber "room" s = true := Machine.exists_of_exec (by decide)
  rw [losesSubscriber, Bool.and_eq_true, any_eq_true] at hloses
  obtain ⟨hshared, c, hc, hstate⟩ := hloses
  obtain ⟨ho, hheld, hbin, hjson⟩ := of_decide_eq_true hstate
  rcases (h _ s hs).subscriber "room" hshared c hc ho hheld with hmem | hmem
  · exact hbin hmem.1
  · exact hjson hmem.1

end Cohort
end AdapterWs
