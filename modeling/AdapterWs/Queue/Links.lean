import AdapterWs.Lib.JsString
import AdapterWs.Lib.Linked

/-!
# The lists of the queue

The waiting tasks of a key thread themselves through their `next` fields. The service line is
doubly linked, and a key keeps the node that names it, so that its place can be given back from
anywhere. Tasks and nodes are named by their places in a heap.
-/

namespace AdapterWs.Queue

open JsString Function List

/-! ## Waiting tasks -/

/-- A task that waits. -/
structure WaitingTask where
  /-- The push it came with. -/
  call : ℕ
  /-- The key it was pushed for. -/
  key : JsString
  next : Option ℕ

/-- The waiting tasks of one key. -/
structure Fifo where
  head : Option ℕ
  tail : Option ℕ
  size : ℤ
  deriving DecidableEq

/-- The tasks made so far. -/
abbrev Tasks := ℕ → WaitingTask

/-- `fifoCreate()`. -/
def fifoCreate : Fifo := ⟨none, none, 0⟩

/-- Write the link after a task, or the head. -/
def setNext (tasks : Tasks) (fifo : Fifo) (p : Option ℕ) (v : Option ℕ) : Tasks × Fifo :=
  match p with
  | some i => (update tasks i { tasks i with next := v }, fifo)
  | none => (tasks, { fifo with head := v })

/-- `fifoPush(fifo, node)`. -/
def fifoPush (tasks : Tasks) (fifo : Fifo) (node : ℕ) : Tasks × Fifo :=
  let tasks := update tasks node { tasks node with next := none }
  let (tasks, fifo) := setNext tasks fifo fifo.tail (some node)
  (tasks, { fifo with tail := some node, size := fifo.size + 1 })

/-- `fifoShift(fifo)`, for a queue with that head. -/
def fifoShift (tasks : Tasks) (fifo : Fifo) (node : ℕ) : Tasks × Fifo :=
  let head := (tasks node).next
  let tail := if head = none then none else fifo.tail
  (update tasks node { tasks node with next := none }, ⟨head, tail, fifo.size - 1⟩)

/-- The link after a task, and the head before the first. -/
def nextTask (tasks : Tasks) (fifo : Fifo) : Option ℕ → Option ℕ
  | some i => (tasks i).next
  | none => fifo.head

/-- The tasks of a queue, oldest first. -/
structure Fifo.Holds (tasks : Tasks) (fifo : Fifo) (l : List ℕ) : Prop where
  path : Linked.Path (nextTask tasks fifo) none (l.map some)
  tail : fifo.tail = l.getLast?
  size : fifo.size = l.length
  nodup : l.Nodup

section Tasks

variable {tasks tasks' : Tasks} {fifo : Fifo} {l : List ℕ} {x : ℕ}

theorem nodup_sentinel (h : l.Nodup) : (none :: l.map some).Nodup := by
  rw [nodup_cons]
  exact ⟨by simp, h.map (Option.some_injective ℕ)⟩

theorem exists_front (l : List ℕ) : ∃ u, none :: l.map some = u ++ [l.getLast?] := by
  rcases eq_nil_or_concat l with rfl | ⟨l, x, rfl⟩
  · exact ⟨[], rfl⟩
  · exact ⟨none :: l.map some, by simp [concat_eq_append]⟩

theorem holds_fifoCreate (tasks : Tasks) : fifoCreate.Holds tasks [] :=
  ⟨Linked.path_nil rfl, rfl, rfl, nodup_nil⟩

theorem Fifo.Holds.head (h : fifo.Holds tasks l) : fifo.head = l.head? := by
  have hnext := h.path.next_sentinel
  cases l <;> exact hnext

theorem Fifo.Holds.unique {l' : List ℕ} (h : fifo.Holds tasks l) (h' : fifo.Holds tasks l') :
    l = l' := by
  refine map_injective_iff.mpr (Option.some_injective ℕ) (h.path.unique h'.path ?_ ?_)
  · simp
  · simp

theorem Fifo.Holds.congr (h : fifo.Holds tasks l) (htasks : ∀ i ∈ l, tasks' i = tasks i) :
    fifo.Holds tasks' l := by
  refine ⟨h.path.congr fun p hp => ?_, h.tail, h.size, h.nodup⟩
  cases p with
  | none => rfl
  | some i =>
    have hi : i ∈ l := by simpa using hp
    rw [nextTask, nextTask, htasks i hi]

theorem nextTask_setNext (p v : Option ℕ) :
    nextTask (setNext tasks fifo p v).1 (setNext tasks fifo p v).2 =
      update (nextTask tasks fifo) p v := by
  refine eq_update_iff.mpr ⟨?_, fun q hq => ?_⟩
  · cases p <;> simp [setNext, nextTask]
  · cases p <;> cases q <;> simp_all [setNext, nextTask]

theorem Fifo.Holds.push (h : fifo.Holds tasks l) (hx : x ∉ l) :
    (fifoPush tasks fifo x).2.Holds (fifoPush tasks fifo x).1 (l ++ [x]) := by
  obtain ⟨u, hu⟩ := exists_front l
  have hxs : some x ∉ none :: l.map some := by simpa using hx
  have hpath := h.path.enqueue (nodup_sentinel h.nodup) hxs hu
  have hnext : nextTask (fifoPush tasks fifo x).1 (fifoPush tasks fifo x).2 =
      update (update (nextTask tasks fifo) (some x) none) l.getLast? (some x) := by
    have hfirst : nextTask (update tasks x { tasks x with next := none }) fifo =
        update (nextTask tasks fifo) (some x) none := nextTask_setNext (some x) none
    rw [← hfirst, ← nextTask_setNext, ← h.tail]
    rfl
  refine ⟨?_, ?_, ?_, ?_⟩
  · rw [hnext, map_append]
    exact hpath
  · rw [getLast?_append]
    rfl
  · rw [length_append, length_singleton, Nat.cast_add, ← h.size]
    cases hp : fifo.tail <;> simp [fifoPush, hp, setNext]
  · rw [nodup_append]
    exact ⟨h.nodup, nodup_singleton x, by rintro a ha b hb rfl; simp_all⟩

theorem Fifo.Holds.shift (h : fifo.Holds tasks (x :: l)) :
    (fifoShift tasks fifo x).2.Holds (fifoShift tasks fifo x).1 l := by
  have hpath := h.path.dequeue (nodup_sentinel h.nodup)
  have hnext : nextTask (fifoShift tasks fifo x).1 (fifoShift tasks fifo x).2 =
      update (update (nextTask tasks fifo) none (tasks x).next) (some x) none := by
    have hhead : nextTask tasks { fifo with head := (tasks x).next } =
        update (nextTask tasks fifo) none (tasks x).next := nextTask_setNext none (tasks x).next
    rw [← hhead, ← nextTask_setNext]
    funext q
    cases q <;> rfl
  have hsecond : (tasks x).next = l.head? := by
    have hchain := (isChain_cons_cons.mp h.path).2
    cases l <;> exact (isChain_cons_cons.mp hchain).1
  refine ⟨?_, ?_, ?_, (nodup_cons.mp h.nodup).2⟩
  · rw [hnext]
    exact hpath
  · rw [fifoShift, hsecond]
    cases l with
    | nil => rfl
    | cons y l =>
      rw [head?_cons, if_neg (by simp), h.tail]
      rfl
  · have hsize := h.size
    rw [length_cons] at hsize
    rw [fifoShift]
    simp only
    omega

theorem fifoPush_other {i : ℕ} (h : fifo.Holds tasks l) (hi : i ∉ l) (hx : i ≠ x) :
    (fifoPush tasks fifo x).1 i = tasks i := by
  cases hp : fifo.tail with
  | none => simp [fifoPush, hp, setNext, update_of_ne hx]
  | some j =>
    have hij : i ≠ j := by
      rintro rfl
      exact hi (mem_of_getLast? (h.tail.symm.trans hp))
    simp [fifoPush, hp, setNext, update_of_ne hij, update_of_ne hx]

theorem fifoShift_other {i : ℕ} (hx : i ≠ x) : (fifoShift tasks fifo x).1 i = tasks i :=
  update_of_ne hx _ _

variable (i : ℕ)

@[simp] theorem key_fifoShift : ((fifoShift tasks fifo x).1 i).key = (tasks i).key := by
  by_cases hi : i = x <;> simp [fifoShift, hi]

@[simp] theorem key_fifoPush : ((fifoPush tasks fifo x).1 i).key = (tasks i).key := by
  have hnext : ∀ (tasks : Tasks) (j : ℕ) (v : Option ℕ),
      (update tasks j { tasks j with next := v } i).key = (tasks i).key := by
    intro tasks j v
    by_cases hi : i = j <;> simp [hi]
  cases hp : fifo.tail with
  | none => simp [fifoPush, hp, setNext, hnext]
  | some j => simp [fifoPush, hp, setNext, hnext]

@[simp] theorem call_fifoShift : ((fifoShift tasks fifo x).1 i).call = (tasks i).call := by
  by_cases hi : i = x <;> simp [fifoShift, hi]

@[simp] theorem call_fifoPush : ((fifoPush tasks fifo x).1 i).call = (tasks i).call := by
  have hnext : ∀ (tasks : Tasks) (j : ℕ) (v : Option ℕ),
      (update tasks j { tasks j with next := v } i).call = (tasks i).call := by
    intro tasks j v
    by_cases hi : i = j <;> simp [hi]
  cases hp : fifo.tail with
  | none => simp [fifoPush, hp, setNext, hnext]
  | some j => simp [fifoPush, hp, setNext, hnext]

end Tasks

/-! ## The service line -/

/-- A place in the line. -/
structure LineNode where
  key : JsString
  prev : Option ℕ
  next : Option ℕ

/-- The service line and the nodes made so far. -/
structure Line where
  head : Option ℕ
  tail : Option ℕ
  size : ℤ
  nodes : ℕ → LineNode
  /-- The place of the next node. -/
  allocated : ℕ

/-- `lineCreate()`. -/
def lineCreate : Line := ⟨none, none, 0, fun _ => ⟨[], none, none⟩, 0⟩

/-- Write the link after a node, or the head. -/
def Line.setNext (line : Line) (p v : Option ℕ) : Line :=
  match p with
  | some i => { line with nodes := update line.nodes i { line.nodes i with next := v } }
  | none => { line with head := v }

/-- Write the link before a node, or the tail. -/
def Line.setPrev (line : Line) (p v : Option ℕ) : Line :=
  match p with
  | some i => { line with nodes := update line.nodes i { line.nodes i with prev := v } }
  | none => { line with tail := v }

/-- Make the node that will follow the tail. -/
def Line.make (line : Line) (key : JsString) : Line :=
  { line with
    nodes := update line.nodes line.allocated ⟨key, line.tail, none⟩
    allocated := line.allocated + 1 }

/-- `lineAppend(line, key)`. -/
def lineAppend (line : Line) (key : JsString) : ℕ × Line :=
  let node := line.allocated
  let linked := ((line.make key).setNext line.tail (some node)).setPrev none (some node)
  (node, { linked with size := line.size + 1 })

/-- `lineRemove(line, node)`. -/
def lineRemove (line : Line) (node : ℕ) : Line :=
  let prev := (line.nodes node).prev
  let next := (line.nodes node).next
  let line := (line.setNext prev next).setPrev next prev
  let line := (line.setPrev (some node) none).setNext (some node) none
  { line with size := line.size - 1 }

/-- The link after a node, and the head before the first. -/
def Line.nextOf (line : Line) : Option ℕ → Option ℕ
  | some i => (line.nodes i).next
  | none => line.head

/-- The link before a node, and the tail after the last. -/
def Line.prevOf (line : Line) : Option ℕ → Option ℕ
  | some i => (line.nodes i).prev
  | none => line.tail

/-- The nodes of a line, in order. -/
structure Line.Holds (line : Line) (l : List ℕ) : Prop where
  ring : Linked.Ring line.nextOf line.prevOf none (l.map some)
  size : line.size = l.length
  nodup : l.Nodup
  allocated : ∀ i ∈ l, i < line.allocated

section Line

variable {line : Line} {l a c : List ℕ} {x : ℕ} (key : JsString)

theorem holds_lineCreate : lineCreate.Holds [] :=
  ⟨Linked.ring_nil rfl rfl, rfl, nodup_nil, forall_mem_nil _⟩

theorem Line.Holds.head (h : line.Holds l) : line.head = l.head? := by
  have hnext := h.ring.path.next_sentinel
  cases l <;> exact hnext

section

variable (p v : Option ℕ)

theorem Line.nextOf_setNext : (line.setNext p v).nextOf = update line.nextOf p v := by
  refine eq_update_iff.mpr ⟨?_, fun q hq => ?_⟩
  · cases p <;> simp [setNext, nextOf]
  · cases p <;> cases q <;> simp_all [setNext, nextOf]

theorem Line.prevOf_setPrev : (line.setPrev p v).prevOf = update line.prevOf p v := by
  refine eq_update_iff.mpr ⟨?_, fun q hq => ?_⟩
  · cases p <;> simp [setPrev, prevOf]
  · cases p <;> cases q <;> simp_all [setPrev, prevOf]

@[simp] theorem Line.prevOf_setNext : (line.setNext p v).prevOf = line.prevOf := by
  funext q
  cases p with
  | none => cases q <;> rfl
  | some i =>
    cases q with
    | none => rfl
    | some j => by_cases hj : j = i <;> simp [setNext, prevOf, hj]

@[simp] theorem Line.nextOf_setPrev : (line.setPrev p v).nextOf = line.nextOf := by
  funext q
  cases p with
  | none => cases q <;> rfl
  | some i =>
    cases q with
    | none => rfl
    | some j => by_cases hj : j = i <;> simp [setPrev, nextOf, hj]

@[simp] theorem Line.key_setNext (i : ℕ) :
    ((line.setNext p v).nodes i).key = (line.nodes i).key := by
  cases p with
  | none => rfl
  | some j => by_cases hj : i = j <;> simp [setNext, hj]

@[simp] theorem Line.key_setPrev (i : ℕ) :
    ((line.setPrev p v).nodes i).key = (line.nodes i).key := by
  cases p with
  | none => rfl
  | some j => by_cases hj : i = j <;> simp [setPrev, hj]

@[simp] theorem Line.allocated_setNext : (line.setNext p v).allocated = line.allocated := by
  cases p <;> rfl

@[simp] theorem Line.allocated_setPrev : (line.setPrev p v).allocated = line.allocated := by
  cases p <;> rfl

@[simp] theorem Line.size_setNext : (line.setNext p v).size = line.size := by
  cases p <;> rfl

@[simp] theorem Line.size_setPrev : (line.setPrev p v).size = line.size := by
  cases p <;> rfl

end

theorem key_lineRemove (node i : ℕ) :
    ((lineRemove line node).nodes i).key = (line.nodes i).key := by
  simp [lineRemove]

theorem allocated_lineRemove (node : ℕ) : (lineRemove line node).allocated = line.allocated := by
  simp [lineRemove]

theorem node_lineAppend : (lineAppend line key).1 = line.allocated := rfl

theorem key_lineAppend (i : ℕ) :
    ((lineAppend line key).2.nodes i).key =
      if i = line.allocated then key else (line.nodes i).key := by
  simp only [lineAppend, Line.key_setPrev, Line.key_setNext, Line.make]
  by_cases hi : i = line.allocated <;> simp [hi]

theorem allocated_lineAppend : (lineAppend line key).2.allocated = line.allocated + 1 := by
  simp [lineAppend, Line.make]

theorem Line.nextOf_make :
    (line.make key).nextOf = update line.nextOf (some line.allocated) none := by
  refine eq_update_iff.mpr ⟨by simp [make, nextOf], fun q hq => ?_⟩
  cases q <;> simp_all [make, nextOf]

theorem Line.prevOf_make :
    (line.make key).prevOf = update line.prevOf (some line.allocated) line.tail := by
  refine eq_update_iff.mpr ⟨by simp [make, prevOf], fun q hq => ?_⟩
  cases q <;> simp_all [make, prevOf]

theorem Line.Holds.append (h : line.Holds l) (key : JsString) :
    (lineAppend line key).2.Holds (l ++ [(lineAppend line key).1]) := by
  have hnew : line.allocated ∉ l := fun hmem => lt_irrefl _ (h.allocated _ hmem)
  have hring := h.ring.link (nodup_sentinel h.nodup)
    (show some line.allocated ∉ none :: l.map some by simpa using hnew)
  refine ⟨?_, ?_, ?_, ?_⟩
  · have hnext : (lineAppend line key).2.nextOf =
        update (update line.nextOf (some line.allocated) none) line.tail (some line.allocated) := by
      rw [← Line.nextOf_make key, ← Line.nextOf_setNext, ← Line.nextOf_setPrev none
        (some line.allocated)]
      rfl
    have hprev : (lineAppend line key).2.prevOf =
        update (update line.prevOf (some line.allocated) line.tail) none (some line.allocated) := by
      change (((line.make key).setNext line.tail _).setPrev none (some line.allocated)).prevOf = _
      rw [Line.prevOf_setPrev, Line.prevOf_setNext, Line.prevOf_make]
    rw [hnext, hprev, map_append]
    exact hring
  · simp [lineAppend, h.size]
  · rw [nodup_append]
    refine ⟨h.nodup, nodup_singleton _, fun i hi j hj heq => ?_⟩
    rw [heq, mem_singleton.mp hj] at hi
    exact hnew hi
  · intro i hi
    rw [allocated_lineAppend]
    rcases mem_append.mp hi with hi | hi
    · exact Nat.lt_succ_of_lt (h.allocated i hi)
    · rw [mem_singleton.mp hi]
      exact Nat.lt_succ_self _

/-- A key is taken out of the line, wherever it stands. -/
theorem Line.Holds.remove (h : line.Holds (a ++ x :: c)) :
    (lineRemove line x).Holds (a ++ c) := by
  have hring := h.ring
  rw [map_append, map_cons] at hring
  have hnodup := nodup_sentinel h.nodup
  rw [map_append, map_cons] at hnodup
  refine ⟨?_, ?_, ?_, ?_⟩
  · have hnext : (lineRemove line x).nextOf =
        update (update line.nextOf (line.prevOf (some x)) (line.nextOf (some x))) (some x) none := by
      change ((((line.setNext (line.nodes x).prev _).setPrev (line.nodes x).next _).setPrev
        (some x) none).setNext (some x) none).nextOf = _
      rw [Line.nextOf_setNext, Line.nextOf_setPrev, Line.nextOf_setPrev, Line.nextOf_setNext]
      rfl
    have hprev : (lineRemove line x).prevOf =
        update (update line.prevOf (line.nextOf (some x)) (line.prevOf (some x))) (some x) none := by
      change ((((line.setNext (line.nodes x).prev _).setPrev (line.nodes x).next _).setPrev
        (some x) none).setNext (some x) none).prevOf = _
      rw [Line.prevOf_setNext, Line.prevOf_setPrev, Line.prevOf_setPrev, Line.prevOf_setNext]
      rfl
    rw [hnext, hprev, map_append]
    exact hring.unlink hnodup
  · have hsize := h.size
    simp only [length_append, length_cons] at hsize
    simp only [lineRemove, Line.size_setNext, Line.size_setPrev, length_append]
    omega
  · have hsub : (a ++ c).Sublist (a ++ x :: c) := (sublist_cons_self x c).append_left a
    exact h.nodup.sublist hsub
  · intro i hi
    rw [allocated_lineRemove]
    refine h.allocated i ?_
    rcases mem_append.mp hi with hi | hi
    · exact mem_append_left _ hi
    · exact mem_append_right _ (.tail _ hi)

end Line

end AdapterWs.Queue
