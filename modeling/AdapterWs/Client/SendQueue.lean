import AdapterWs.Lib.Machine
import Mathlib.Data.List.Nodup

/-!
# The send queue of the client

Messages wait while no socket is open, and the open handler sends them at its end. The subscribers
that it notifies before run with the socket open already: what they send overtakes what waits.
-/

namespace AdapterWs.Client

open List

def maxQueueSize : ℕ := 1000

/-- The states of a socket. -/
inductive ReadyState
  | connecting
  | opened
  | closing
  | closed
  deriving DecidableEq

/-- A serialized message, and the number of the call. -/
structure Message (α : Type*) where
  call : ℕ
  data : α
  deriving DecidableEq

/-- The stores that the open handler sets. -/
inductive Notice
  | failureStore
  | statusStore
  deriving DecidableEq

/-- The state: the sockets so far and the current one, the open handler that runs and the store it
has set, and the queue. With it, the calls, what was sent, and what waited at each drop. -/
structure Connection (α : Type*) where
  ws : Option ℕ
  sockets : List ReadyState
  onopen : Option (ℕ × Notice)
  sendQueue : List (Message α)
  calls : List (Message α)
  sent : List (Message α)
  crowds : List (List (Message α))

/-- What happens: a call, a new socket, the end of the current one, a change of a socket, and what
the subscribers of a store do in the end. -/
inductive Event (α : Type*)
  | sendQueued (data : α)
  | openSocket
  | leave
  | close (sock : ℕ)
  | onclose (sock : ℕ)
  | onopen (sock : ℕ)
  | resume
  | throw

variable {α : Type*}

namespace Connection

/-- `ws?.readyState === WebSocket.OPEN`. -/
def isOpen (s : Connection α) : Bool := s.ws.any fun sock => s.sockets[sock]? = some .opened

/-- `sendQueued(data)`. -/
def sendQueued (s : Connection α) (data : α) : Connection α :=
  let serialized : Message α := ⟨s.calls.length, data⟩
  let s := { s with calls := s.calls ++ [serialized] }
  if s.isOpen then { s with sent := s.sent ++ [serialized] }
  else if maxQueueSize ≤ s.sendQueue.length then
    { s with
      sendQueue := s.sendQueue.drop 1 ++ [serialized]
      crowds := s.crowds ++ [s.sendQueue ++ [serialized]] }
  else { s with sendQueue := s.sendQueue ++ [serialized] }

/-- The loop that sends what waits. -/
def flush (s : Connection α) : Connection α := { s with sent := s.sent ++ s.sendQueue, sendQueue := [] }

/-- The open handler goes on where the subscribers of a store are done, unless its socket was
replaced. -/
def resume (s : Connection α) (sock : ℕ) : Notice → Connection α
  | .failureStore =>
    { s with onopen := if s.ws = some sock then some (sock, .statusStore) else none }
  | .statusStore => if s.ws = some sock then { s.flush with onopen := none }
    else { s with onopen := none }

end Connection

/-- The client. -/
def client : Machine (Connection α) (Event α) where
  init := ⟨none, [], none, [], [], [], []⟩
  step s
    | .sendQueued data => some (s.sendQueued data)
    | .openSocket =>
      some { s with ws := some s.sockets.length, sockets := s.sockets ++ [.connecting] }
    | .leave => some { s with ws := none }
    | .close sock => some { s with sockets := s.sockets.set sock .closing }
    | .onclose sock => some { s with
        sockets := s.sockets.set sock .closed
        ws := if s.ws = some sock then none else s.ws }
    | .onopen sock =>
      if s.onopen = none ∧ s.sockets[sock]? = some .connecting then some { s with
        sockets := s.sockets.set sock .opened
        onopen := if s.ws = some sock then some (sock, .failureStore) else none }
      else none
    | .resume => s.onopen.map fun handler => s.resume handler.1 handler.2
    | .throw => some { s with onopen := none }

/-! ## The order of the calls -/

/-- A message was the oldest of more than `maxQueueSize` that waited. -/
def Dropped (s : Connection α) (m : Message α) : Prop :=
  ∃ crowd ∈ s.crowds, maxQueueSize < crowd.length ∧ crowd.head? = some m

/-- What is promised of a state. -/
structure InOrder (s : Connection α) : Prop where
  sent : s.sent.Sublist s.calls
  once : s.sent.Nodup
  waiting : s.sendQueue.Sublist s.calls
  kept : ∀ m ∈ s.calls, m ∈ s.sent ∨ m ∈ s.sendQueue ∨ Dropped s m

/-- A call that finds the socket open finds nothing waiting. -/
def Unhurried (s : Connection α) : Event α → Prop
  | .sendQueued _ => s.isOpen = true → s.sendQueue = []
  | .openSocket | .leave | .close _ | .onclose _ | .onopen _ | .resume | .throw => True

instance instDecidableUnhurried [DecidableEq α] (s : Connection α) :
    (e : Event α) → Decidable (Unhurried s e)
  | .sendQueued _ => inferInstanceAs (Decidable (_ → _))
  | .openSocket | .leave | .close _ | .onclose _ | .onopen _ | .resume | .throw =>
    inferInstanceAs (Decidable True)

/-- What was sent, and after it what waits, is in the order of the calls. -/
structure Ordered (s : Connection α) : Prop where
  order : (s.sent ++ s.sendQueue).Sublist s.calls
  numbers : s.calls.map Message.call = List.range s.calls.length
  kept : ∀ m ∈ s.calls, m ∈ s.sent ∨ m ∈ s.sendQueue ∨ Dropped s m

variable {s s' : Connection α} {e : Event α} {es : List (Event α)}

theorem Ordered.nodup (h : Ordered s) : s.calls.Nodup :=
  List.Nodup.of_map Message.call (by rw [h.numbers]; exact nodup_range)

theorem Ordered.inOrder (h : Ordered s) : InOrder s where
  sent := (sublist_append_left ..).trans h.order
  once := h.nodup.sublist ((sublist_append_left ..).trans h.order)
  waiting := (sublist_append_right ..).trans h.order
  kept := h.kept

theorem Ordered.sendQueued (h : Ordered s) (data : α)
    (hopen : s.isOpen = true → s.sendQueue = []) : Ordered (s.sendQueued data) := by
  obtain ⟨m, hm⟩ : ∃ m : Message α, m = ⟨s.calls.length, data⟩ := ⟨_, rfl⟩
  have hnumbers : (s.calls ++ [m]).map Message.call = range (s.calls ++ [m]).length := by
    rw [map_append, h.numbers, length_append, length_singleton, range_succ, hm]
    rfl
  have horder := h.order.append (.refl [m])
  have hkept : ∀ m' ∈ s.calls ++ [m], m' ∈ s.calls ∨ m' = m := by simp
  rw [Connection.sendQueued, ← hm]
  dsimp only
  split_ifs with hdirect hfull
  · have hnil := hopen hdirect
    rw [hnil, append_nil] at horder
    refine ⟨by simpa [hnil] using horder, hnumbers, fun m' hm' => ?_⟩
    rcases hkept m' hm' with hm' | rfl
    · exact (h.kept m' hm').imp_left (mem_append_left _)
    · exact .inl (by simp)
  · refine ⟨?_, hnumbers, fun m' hm' => ?_⟩
    · refine List.Sublist.trans ?_ horder
      rw [← append_assoc]
      exact ((drop_sublist ..).append_left _).append_right _
    · rcases hkept m' hm' with hm' | rfl
      · rcases h.kept m' hm' with hsent | hwaits | ⟨crowd, hcrowd, hdropped⟩
        · exact .inl hsent
        · cases hqueue : s.sendQueue with
          | nil => simp [hqueue] at hwaits
          | cons oldest rest =>
            rw [hqueue] at hwaits hfull
            rcases mem_cons.mp hwaits with rfl | hrest
            · refine .inr (.inr ⟨m' :: rest ++ [m], by simp, ?_, rfl⟩)
              rw [length_append]
              exact Nat.lt_succ_of_le hfull
            · exact .inr (.inl (mem_append_left _ hrest))
        · exact .inr (.inr ⟨crowd, mem_append_left _ hcrowd, hdropped⟩)
      · exact .inr (.inl (by simp))
  · refine ⟨by rwa [← append_assoc], hnumbers, fun m' hm' => ?_⟩
    rcases hkept m' hm' with hm' | rfl
    · exact (h.kept m' hm').imp_right (.imp_left (mem_append_left _))
    · exact .inr (.inl (by simp))

theorem Ordered.flush (h : Ordered s) : Ordered s.flush := by
  refine ⟨by simpa [Connection.flush] using h.order, h.numbers, fun m hm => ?_⟩
  rcases h.kept m hm with hsent | hwaits | hdropped
  · exact .inl (mem_append_left _ hsent)
  · exact .inl (mem_append_right _ hwaits)
  · exact .inr (.inr hdropped)

theorem Ordered.step (h : Ordered s) (hok : Unhurried s e) (hs : client.step s e = some s') :
    Ordered s' := by
  cases e with
  | sendQueued data =>
    cases hs
    exact h.sendQueued data hok
  | openSocket | leave | close sock | onclose sock | throw =>
    cases hs
    exact ⟨h.order, h.numbers, h.kept⟩
  | onopen sock =>
    obtain ⟨-, ⟨⟩⟩ := Option.ite_none_right_eq_some.mp hs
    exact ⟨h.order, h.numbers, h.kept⟩
  | resume =>
    obtain ⟨⟨sock, notice⟩, -, rfl⟩ := Option.map_eq_some_iff.mp hs
    cases notice with
    | failureStore => exact ⟨h.order, h.numbers, h.kept⟩
    | statusStore =>
      dsimp only [Connection.resume]
      split
      · exact ⟨h.flush.order, h.flush.numbers, h.flush.kept⟩
      · exact ⟨h.order, h.numbers, h.kept⟩

/-- The messages are sent in the order of the calls, and only the oldest of a full queue is dropped,
in every run in which no call finds the socket open while messages wait. -/
theorem inOrder_run (h : client.ReachesWhere Unhurried es s) : InOrder s :=
  (h.invariant (I := Ordered) ⟨.refl _, rfl, forall_mem_nil _⟩
    fun _ _ _ hordered hok hs => hordered.step hok hs).inOrder

theorem inOrder_run_reconnect : ∃ s, client.ReachesWhere Unhurried
    [.sendQueued 10, .openSocket, .onopen 0, .resume, .resume, .sendQueued 20] s ∧
      InOrder s ∧ s.sent = [⟨0, 10⟩, ⟨1, 20⟩] :=
  Machine.exists_and_of_execWhere (by decide) fun _ hs _ => inOrder_run hs

/-- A subscriber of the status sends while a message waits. -/
theorem not_inOrder_subscriber :
    ¬∀ (es : List (Event ℕ)) (s : Connection ℕ), client.Reaches es s → InOrder s := by
  intro h
  obtain ⟨s, hs, hsent⟩ : ∃ s, client.Reaches
      [.sendQueued 10, .openSocket, .onopen 0, .resume, .sendQueued 20, .resume] s ∧
      ¬s.sent.Sublist s.calls := Machine.exists_of_exec (by decide)
  exact hsent (h _ s hs).sent

end AdapterWs.Client
