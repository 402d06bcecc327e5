import AdapterWs.Replay.Buffer

/-!
# Replay and the messages published

While a topic is held its ring is the end of what was published since it was created, and every
number obtained since then separates the messages before it from those after it. What a replay
sends after a number is then what was published after it, unless the ring has passed it.
-/

namespace AdapterWs.Replay

open JsString List Circular ReplayBuffer

variable {D : Type} {o : ReplayOptions} {sends : D → Bool}

/-- The ring of a topic is the end of what was published from `first` on. -/
structure Holds (o : ReplayOptions) (state : TopicState D) (log : List (BufferedMessage D))
    (first : ℕ) : Prop where
  start : state.start < o.size
  len : state.len ≤ o.size
  first_le : first ≤ log.length
  cells : Circular.around o.size state.buf state.start state.len =
    ((log.drop first).drop ((log.drop first).length - o.size)).map some
  sorted : (log.drop first).Pairwise fun m m' => m.seq < m'.seq
  upTo : ∀ m ∈ log.drop first, m.seq ≤ state.seq

/-- A number separates the messages before it from those after it, unless the topic was evicted
since. -/
structure Names (counter : ℕ) (log : List (BufferedMessage D)) (first : ℕ) (pos : Position) :
    Prop where
  after_le : pos.after ≤ log.length
  number_le : pos.evicted = false → pos.number ≤ counter
  first_le : pos.evicted = false → first ≤ pos.after
  later : pos.evicted = false → ∀ m ∈ log.drop pos.after, pos.number < m.seq
  earlier : pos.evicted = false → ∀ m ∈ (log.take pos.after).drop first, m.seq ≤ pos.number
  gone : pos.evicted = true → pos.after ≤ first

/-- What holds of a topic, of the messages published on it and of its positions. -/
def Covered (o : ReplayOptions) (topic : JsString) (log : List (BufferedMessage D))
    (positions : List Position) : Option (TopicState D) → Prop
  | none => ∀ pos ∈ positions, pos.topic = topic → pos.after ≤ log.length ∧
      (pos.evicted = false → pos.after = log.length ∧ pos.number = 0)
  | some state => ∃ first, Holds o state log first ∧
      ∀ pos ∈ positions, pos.topic = topic → Names state.seq log first pos

variable {state : TopicState D} {log : List (BufferedMessage D)} {first : ℕ} {pos : Position}
  {msg : BufferedMessage D}

/-! ## The ring -/

theorem Holds.len_eq (h : Holds o state log first) :
    state.len = min o.size (log.drop first).length := by
  have hlen := congrArg length h.cells
  rw [length_around, length_map, length_drop] at hlen
  omega

theorem Holds.entries_eq (h : Holds o state log first) :
    state.entries o.size = (log.drop first).drop ((log.drop first).length - o.size) := by
  rw [TopicState.entries, h.cells, filterMap_map]
  exact filterMap_some

theorem Holds.oldest (h : Holds o state log first) :
    (if 0 < state.len then state.buf state.start else none) = (state.entries o.size).head? := by
  have hhead := congrArg head? h.cells
  rw [head?_around, Nat.mod_eq_of_lt h.start, head?_map, ← h.entries_eq] at hhead
  cases hentries : (state.entries o.size).head? with
  | none =>
    rw [hentries] at hhead
    split_ifs at hhead ⊢ with hlen
    · cases hhead
    · rfl
  | some oldest =>
    rw [hentries] at hhead
    split_ifs at hhead ⊢ with hlen
    · exact Option.some.inj hhead
    · cases hhead

theorem cells_pushMessage (msg : BufferedMessage D) (hstart : state.start < o.size)
    (hlen : state.len ≤ o.size) :
    let pushed := pushMessage o.size state msg
    pushed.start < o.size ∧ pushed.len ≤ o.size ∧
      around o.size pushed.buf pushed.start pushed.len =
        (around o.size state.buf state.start state.len ++ [some msg]).drop
          (state.len + 1 - o.size) := by
  intro pushed
  have hpos := o.size_pos
  by_cases hroom : state.len < o.size
  · have hpushed : pushed = { state with
        buf := putAround o.size state.buf ((state.start + state.len) % o.size) [some msg]
        len := state.len + 1 } := if_pos hroom
    rw [hpushed]
    refine ⟨hstart, hroom, ?_⟩
    simp only
    have hself : around o.size (putAround o.size state.buf
        ((state.start + state.len) % o.size) [some msg]) (state.start + state.len) 1 =
          [some msg] := by
      rw [← around_mod]
      exact around_putAround_self (Nat.mod_lt _ hpos) (by simp; omega)
    rw [around_add, around_putAround_before hpos (by simp; omega), hself,
      show state.len + 1 - o.size = 0 by omega, drop_zero]
  · have hfull : state.len = o.size := by omega
    have hpushed : pushed = { state with
        buf := putAround o.size state.buf ((state.start + state.len) % o.size) [some msg]
        start := (state.start + 1) % o.size } := if_neg hroom
    rw [hpushed]
    refine ⟨Nat.mod_lt _ hpos, hlen, ?_⟩
    simp only
    obtain ⟨n, hn⟩ : ∃ n, o.size = n + 1 := ⟨o.size - 1, by omega⟩
    have hend : (state.start + state.len) % o.size = (state.start + 1 + n) % o.size := by
      congr 1
      omega
    have hbefore : around o.size (putAround o.size state.buf
        ((state.start + 1 + n) % o.size) [some msg]) (state.start + 1) n =
          around o.size state.buf (state.start + 1) n :=
      around_putAround_before hpos (by simp; omega)
    have hself : around o.size (putAround o.size state.buf
        ((state.start + 1 + n) % o.size) [some msg]) (state.start + 1 + n) 1 = [some msg] := by
      rw [← around_mod]
      exact around_putAround_self (Nat.mod_lt _ hpos) (by simp; omega)
    rw [around_mod, hend, show state.len = n + 1 by omega, around_add, hself,
      hbefore, show n + 1 + 1 - o.size = 1 by omega, drop_append_of_le_length (by simp),
      drop_around (by omega), Nat.add_sub_cancel]

/-! ## One topic -/

theorem drop_append_singleton_sub {α : Type} (l : List α) (a : α) {size : ℕ} (hpos : 0 < size) :
    (l.drop (l.length - size) ++ [a]).drop (min size l.length + 1 - size) =
      (l ++ [a]).drop (l.length + 1 - size) := by
  rcases lt_or_ge l.length size with hlt | hge
  · rw [show l.length - size = 0 by omega, show min size l.length + 1 - size = 0 by omega,
      show l.length + 1 - size = 0 by omega, drop_zero, drop_zero, drop_zero]
  · rw [show min size l.length + 1 - size = 1 by omega,
      show l.length + 1 - size = (l.length - size) + 1 by omega, ← drop_drop]
    congr 1
    exact (drop_append_of_le_length (by omega)).symm

/-- A counter that was drawn without a message keeps the ring. -/
theorem Holds.draw (h : Holds o state log first) :
    Holds o { state with seq := state.seq + 1 } log first :=
  ⟨h.start, h.len, h.first_le, h.cells, h.sorted, fun m hm => Nat.le_succ_of_le (h.upTo m hm)⟩

theorem Holds.push (h : Holds o state log first) (hseq : msg.seq = state.seq + 1) :
    Holds o (pushMessage o.size { state with seq := state.seq + 1 } msg) (log ++ [msg]) first := by
  obtain ⟨hstart, hlen, hcells⟩ := cells_pushMessage msg h.draw.start h.draw.len
  have hlog : (log ++ [msg]).drop first = log.drop first ++ [msg] :=
    drop_append_of_le_length h.first_le
  have hcounter : (pushMessage o.size { state with seq := state.seq + 1 } msg).seq =
      state.seq + 1 := by
    rw [pushMessage]
    split_ifs <;> rfl
  refine ⟨hstart, hlen, by rw [length_append]; exact Nat.le_add_right_of_le h.first_le, ?_,
    ?_, fun m hm => ?_⟩
  · rw [hcells]
    simp only
    rw [h.cells, h.len_eq, hlog, length_append, length_singleton,
      ← drop_append_singleton_sub _ _ o.size_pos]
    simp
  · rw [hlog, pairwise_append]
    refine ⟨h.sorted, pairwise_singleton _ _, fun m hm m' hm' => ?_⟩
    obtain rfl := mem_singleton.mp hm'
    have := h.upTo m hm
    omega
  · rw [hlog, mem_append, mem_singleton] at hm
    rw [hcounter]
    rcases hm with hm | rfl
    · exact Nat.le_succ_of_le (h.upTo m hm)
    · exact hseq.le

variable {counter : ℕ}

theorem Names.draw (h : Names counter log first pos) : Names (counter + 1) log first pos :=
  ⟨h.after_le, fun he => Nat.le_succ_of_le (h.number_le he), h.first_le, h.later, h.earlier, h.gone⟩

/-- A message that is published comes after every position. -/
theorem Names.push (h : Names counter log first pos) (hseq : msg.seq = counter + 1) :
    Names (counter + 1) (log ++ [msg]) first pos := by
  refine ⟨by rw [length_append]; exact Nat.le_add_right_of_le h.after_le,
    fun he => Nat.le_succ_of_le (h.number_le he), h.first_le, fun he m hm => ?_, fun he m hm => ?_,
    h.gone⟩
  · rw [drop_append_of_le_length h.after_le, mem_append, mem_singleton] at hm
    rcases hm with hm | rfl
    · exact h.later he m hm
    · have := h.number_le he
      omega
  · rw [take_append_of_le_length h.after_le] at hm
    exact h.earlier he m hm

/-- The counter of a topic names the messages published so far. -/
theorem Holds.names (h : Holds o state log first) (topic : JsString) :
    Names state.seq log first ⟨topic, state.seq, log.length, false⟩ := by
  refine ⟨le_rfl, fun _ => le_rfl, fun _ => h.first_le, fun _ m hm => ?_,
    fun _ m hm => ?_, fun he => absurd he Bool.false_ne_true⟩
  · rw [drop_length] at hm
    cases hm
  · rw [take_length] at hm
    exact h.upTo m hm

/-- A topic that is created starts after what was published on it before. -/
theorem holds_fresh (o : ReplayOptions) (log : List (BufferedMessage D)) :
    Holds o ⟨0, fun _ => none, 0, 0⟩ log log.length := by
  refine ⟨o.size_pos, Nat.zero_le _, le_rfl, ?_, ?_, ?_⟩ <;> simp [around]

theorem names_fresh (h : pos.after ≤ log.length ∧
    (pos.evicted = false → pos.after = log.length ∧ pos.number = 0)) :
    Names 0 log log.length pos := by
  refine ⟨h.1, fun he => (h.2 he).2.le, fun he => (h.2 he).1.ge, fun he m hm => ?_,
    fun he m hm => ?_, fun _ => h.1⟩
  · rw [(h.2 he).1, drop_length] at hm
    cases hm
  · rw [(h.2 he).1, take_length, drop_length] at hm
    cases hm

/-! ## A replay -/

theorem Holds.readSince_eq (h : Holds o state log first) (since : ℕ) :
    readSince o.size state since =
      (state.entries o.size).filter fun entry => decide (since < entry.seq) := by
  rw [readSince]
  split_ifs with hnone
  · refine (filter_eq_nil_iff.mpr fun m hm => ?_).symm
    rw [h.entries_eq] at hm
    have hmem := mem_of_mem_drop hm
    rcases hnone with hlen | hseq
    · have hlen' := h.len_eq
      rw [hlen] at hlen'
      have hpos := length_pos_of_mem hmem
      have := o.size_pos
      omega
    · have := h.upTo m hmem
      simp only [decide_eq_true_eq]
      omega
  · rfl

/-- What is published after a number is what the topic has after it. -/
theorem Names.filter_eq (h : Names counter log first pos) (he : pos.evicted = false) :
    (log.drop first).filter (fun m => decide (pos.number < m.seq)) = log.drop pos.after := by
  have hsplit : log.drop first = (log.take pos.after).drop first ++ log.drop pos.after := by
    conv_lhs => rw [← take_append_drop pos.after log]
    rw [drop_append_of_le_length]
    rw [length_take]
    have := h.after_le
    have := h.first_le he
    omega
  rw [hsplit, filter_append, filter_eq_nil_iff.mpr, nil_append,
    filter_eq_self.mpr]
  · exact fun m hm => decide_eq_true (h.later he m hm)
  · exact fun m hm => by simpa using h.earlier he m hm

/-- A ring that has not passed a number holds what was published after it. -/
theorem readSince_eq_owed (h : Holds o state log first) (hpos : Names state.seq log first pos)
    (he : pos.evicted = false) (hcovered : isTruncated state pos.number = false) :
    readSince o.size state pos.number = log.drop pos.after := by
  rw [h.readSince_eq, ← hpos.filter_eq he]
  have hentries := h.entries_eq
  -- what the ring has lost is not beyond the number
  have hlost : (log.drop first).filter (fun m => decide (pos.number < m.seq)) =
      ((log.drop first).drop ((log.drop first).length - o.size)).filter
        (fun m => decide (pos.number < m.seq)) := by
    conv_lhs => rw [← take_append_drop ((log.drop first).length - o.size) (log.drop first)]
    rw [filter_append, filter_eq_nil_iff.mpr, nil_append]
    intro m hm
    simp only [decide_eq_true_eq, not_lt]
    cases hend : state.entries o.size with
    | nil =>
      rw [hend] at hentries
      have hempty := drop_eq_nil_iff.mp hentries.symm
      have := o.size_pos
      have hlen := length_pos_of_mem (mem_of_mem_take hm)
      omega
    | cons oldest rest =>
      have holdest := h.oldest
      rw [hend, head?_cons] at holdest
      split_ifs at holdest with hlen
      rw [isTruncated, decide_eq_true hlen, holdest, Bool.true_and, Option.any_some,
        decide_eq_false_iff_not] at hcovered
      have hsorted := h.sorted
      rw [← take_append_drop ((log.drop first).length - o.size) (log.drop first),
        pairwise_append] at hsorted
      have hbefore := hsorted.2.2 m hm oldest (by rw [← hentries, hend]; exact (.head _))
      omega
  rw [hlost, hentries]

/-- What is left of a topic that was created after a number has nothing to do with it, and nothing
was published since. -/
theorem readSince_eq_nil (h : Holds o state log first) (hpos : Names state.seq log first pos)
    (he : pos.evicted = true) (howed : log.drop pos.after = []) :
    readSince o.size state pos.number = [] := by
  rw [h.readSince_eq, h.entries_eq, filter_eq_nil_iff]
  intro m hm
  have hgone := hpos.gone he
  have hend := drop_eq_nil_iff.mp howed
  have hfirst : log.drop first = [] := drop_eq_nil_iff.mpr (by omega)
  rw [hfirst] at hm
  cases mem_of_mem_drop hm

/-! ## The topics -/

variable {b : ReplayBuffer D} {topic other : JsString} {positions : List Position}
  {st : Option (TopicState D)}

@[simp] theorem topics_touchTopic (b : ReplayBuffer D) (topic : JsString) :
    (b.touchTopic topic).topics = b.topics := by
  rw [touchTopic]
  split <;> rfl

/-- The state a publish starts from. -/
def stateOf (b : ReplayBuffer D) (topic : JsString) : TopicState D :=
  (b.topics.get topic).getD ⟨0, fun _ => none, 0, 0⟩

theorem getTopic_fst (b : ReplayBuffer D) : (b.getTopic o topic).1 = stateOf b topic := by
  rw [getTopic, stateOf]
  cases b.topics.get topic <;> rfl

theorem get_set_getTopic (b : ReplayBuffer D) (st : TopicState D) (other : JsString) :
    ((b.getTopic o topic).2.topics.set topic st).get other =
      if topic = other then some st
      else if b.evictedBy o topic = some other then none
      else b.topics.get other := by
  rw [JsMap.get_set]
  by_cases heq : topic = other
  · rw [if_pos heq, if_pos heq]
  · rw [if_neg heq, if_neg heq, getTopic, evictedBy]
    cases b.topics.get topic with
    | some state => simp
    | none =>
      simp only [JsMap.get_set, if_neg heq]
      cases b.victim o with
      | none => simp [evict]
      | some lru => simp [evict, JsMap.get_delete]

/-! ## Positions -/

theorem mem_markEvicted {lru : Option JsString} (h : pos ∈ markEvicted lru positions) :
    ∃ pos' ∈ positions, pos'.topic = pos.topic ∧ pos'.after = pos.after ∧
      (lru = some pos.topic → pos.evicted = true) ∧ (lru ≠ some pos.topic → pos' = pos) := by
  obtain ⟨pos', hmem, rfl⟩ := mem_map.mp h
  refine ⟨pos', hmem, ?_⟩
  split_ifs with hlru
  · exact ⟨rfl, rfl, fun _ => rfl, fun hne => absurd hlru.symm hne⟩
  · exact ⟨rfl, rfl, fun heq => absurd heq.symm hlru, fun _ => rfl⟩

section

variable (h : Covered o topic log positions st)
include h

theorem Covered.after_le (hmem : pos ∈ positions) (ht : pos.topic = topic) :
    pos.after ≤ log.length := by
  cases st with
  | none => exact (h pos hmem ht).1
  | some state =>
    obtain ⟨first, -, hnames⟩ := h
    exact (hnames pos hmem ht).after_le

/-- A topic that is evicted is forgotten, and its positions are marked. -/
theorem Covered.evict : Covered o topic log (markEvicted (some topic) positions) none := by
  intro pos hmem ht
  obtain ⟨pos', hmem', ht', hafter, hmarked, -⟩ := mem_markEvicted hmem
  rw [← hafter]
  refine ⟨h.after_le hmem' (ht'.trans ht), fun he => ?_⟩
  rw [hmarked (by rw [ht])] at he
  cases he

/-- The positions of the topics that are not evicted stay. -/
theorem Covered.mark {lru : Option JsString} (hne : lru ≠ some topic) :
    Covered o topic log (markEvicted lru positions) st := by
  have hsame : ∀ pos ∈ markEvicted lru positions, pos.topic = topic → pos ∈ positions := by
    intro pos hmem ht
    obtain ⟨pos', hmem', -, -, -, hkept⟩ := mem_markEvicted hmem
    rw [← hkept (by rwa [ht])]
    exact hmem'
  cases st with
  | none => exact fun pos hmem ht => h pos (hsame pos hmem ht) ht
  | some state =>
    obtain ⟨first, hholds, hnames⟩ := h
    exact ⟨first, hholds, fun pos hmem ht => hnames pos (hsame pos hmem ht) ht⟩

end

/-- A topic that is created starts after what was published before. -/
theorem Covered.fresh (h : Covered o topic log positions none) :
    Covered o topic log positions (some ⟨0, fun _ => none, 0, 0⟩) :=
  ⟨log.length, holds_fresh o log, fun pos hmem ht => names_fresh (h pos hmem ht)⟩

theorem Covered.draw (h : Covered o topic log positions (some state)) :
    Covered o topic log positions (some { state with seq := state.seq + 1 }) := by
  obtain ⟨first, hholds, hnames⟩ := h
  exact ⟨first, hholds.draw, fun pos hmem ht => (hnames pos hmem ht).draw⟩

theorem seq_pushMessage (size : ℕ) (state : TopicState D) (msg : BufferedMessage D) :
    (pushMessage size state msg).seq = state.seq := by
  rw [pushMessage]
  split_ifs <;> rfl

/-- A topic after a message is published on it: the message has its own position. -/
theorem Covered.push (h : Covered o topic log positions (some state))
    (hseq : msg.seq = state.seq + 1) :
    Covered o topic (log ++ [msg]) (positions ++ [⟨topic, msg.seq, log.length + 1, false⟩])
      (some (pushMessage o.size { state with seq := state.seq + 1 } msg)) := by
  obtain ⟨first, hholds, hnames⟩ := h
  refine ⟨first, hholds.push hseq, fun pos hmem ht => ?_⟩
  rw [seq_pushMessage]
  rcases mem_concat.mp hmem with hmem | rfl
  · exact (hnames pos hmem ht).push hseq
  · have hown := (hholds.push hseq).names topic
    rw [seq_pushMessage, length_append, length_singleton] at hown
    rwa [hseq]

/-- A position of another topic says nothing about this one. -/
theorem Covered.append (h : Covered o topic log positions st) {more : List Position}
    (hmore : ∀ pos ∈ more, pos.topic ≠ topic) : Covered o topic log (positions ++ more) st := by
  have hold : ∀ pos ∈ positions ++ more, pos.topic = topic → pos ∈ positions := by
    intro pos hmem ht
    rcases mem_append.mp hmem with hmem | hmem
    · exact hmem
    · exact absurd ht (hmore pos hmem)
  cases st with
  | none => exact fun pos hmem ht => h pos (hold pos hmem ht) ht
  | some state =>
    obtain ⟨first, hholds, hnames⟩ := h
    exact ⟨first, hholds, fun pos hmem ht => hnames pos (hold pos hmem ht) ht⟩

/-- The number that `seq` gives separates what was published before it from what comes. -/
theorem Covered.seq (h : Covered o topic log positions st) :
    Covered o topic log
      (positions ++ [⟨topic, (st.map TopicState.seq).getD 0, log.length, false⟩]) st := by
  cases st with
  | none =>
    intro pos hmem ht
    rcases mem_concat.mp hmem with hmem | rfl
    · exact h pos hmem ht
    · exact ⟨le_rfl, fun _ => ⟨rfl, rfl⟩⟩
  | some state =>
    obtain ⟨first, hholds, hnames⟩ := h
    refine ⟨first, hholds, fun pos hmem ht => ?_⟩
    rcases mem_concat.mp hmem with hmem | rfl
    · exact hnames pos hmem ht
    · exact hholds.names topic

/-- The answer to a position of a topic, if the topic has lost nothing to an eviction. -/
theorem Covered.complete (h : Covered o topic log positions (b.topics.get topic))
    (hmem : pos ∈ positions) (ht : pos.topic = topic)
    (hlost : pos.evicted = true → log.drop pos.after = []) :
    Served.Complete ⟨pos, (b.replay o sends topic pos.number).1, log.drop pos.after⟩ := by
  intro hended
  simp only [replay, topics_touchTopic] at hended ⊢
  cases hget : b.topics.get topic with
  | none =>
    rw [hget] at h
    have hpos := h pos hmem ht
    cases he : pos.evicted with
    | true => exact (hlost he).symm
    | false => exact (drop_eq_nil_iff.mpr (hpos.2 he).1.ge).symm
  | some state =>
    rw [hget] at h hended
    obtain ⟨first, hholds, hnames⟩ := h
    have hpos := hnames pos hmem ht
    simp only at hended ⊢
    split_ifs at hended ⊢ with hsent
    · have hcovered := Option.some.inj hended
      cases he : pos.evicted with
      | true => exact (readSince_eq_nil hholds hpos he (hlost he)).trans (hlost he).symm
      | false => exact readSince_eq_owed hholds hpos he hcovered

/-! ## Runs -/

/-- Every topic is covered, and every answer is complete. -/
structure Tracked (o : ReplayOptions) (s : History D) : Prop where
  covered : ∀ topic, Covered o topic (s.published topic) s.positions (s.buffer.topics.get topic)
  complete : ∀ served ∈ s.served, served.Complete

variable {s : History D}

theorem tracked_init : Tracked o (replayMachine o sends).init :=
  ⟨fun _ _ hmem => absurd hmem not_mem_nil, forall_mem_nil _⟩

section

variable (h : Tracked o s)
include h

theorem Tracked.mark (topic other : JsString) :
    Covered o other (s.published other) (markEvicted (s.buffer.evictedBy o topic) s.positions)
      (if s.buffer.evictedBy o topic = some other then none else s.buffer.topics.get other) := by
  split_ifs with hlru
  · rw [hlru]
    exact (h.covered other).evict
  · exact (h.covered other).mark hlru

/-- The topic that is published on, before its number is drawn. -/
theorem Tracked.ready (topic : JsString) :
    Covered o topic (s.published topic) (markEvicted (s.buffer.evictedBy o topic) s.positions)
      (some (stateOf s.buffer topic)) := by
  have hmark := h.mark topic topic
  rw [stateOf]
  cases hget : s.buffer.topics.get topic with
  | none =>
    rw [hget, ite_self] at hmark
    exact hmark.fresh
  | some state =>
    have hkept : s.buffer.evictedBy o topic = none := by
      rw [evictedBy, hget]
    rw [hkept, if_neg (by simp), hget] at hmark
    rw [hkept]
    exact hmark

theorem Tracked.publish (topic event : JsString) (snapshot : Option D) :
    Tracked o (s.call o sends (.publish topic event snapshot)) := by
  cases snapshot with
  | none =>
    refine ⟨fun other => ?_, h.complete⟩
    simp only [History.call, ReplayBuffer.publish, get_set_getTopic, getTopic_fst]
    by_cases hsame : topic = other
    · subst hsame
      rw [if_pos rfl]
      exact (h.ready topic).draw
    · rw [if_neg hsame]
      exact h.mark topic other
  | some data =>
    refine ⟨fun other => ?_, h.complete⟩
    simp only [History.call, ReplayBuffer.publish, get_set_getTopic, getTopic_fst]
    by_cases hsame : topic = other
    · subst hsame
      rw [if_pos rfl, Function.update_self]
      exact (h.ready topic).push rfl
    · rw [if_neg hsame, Function.update_of_ne (Ne.symm hsame)]
      refine (h.mark topic other).append fun pos hmem => ?_
      obtain rfl := mem_singleton.mp hmem
      exact hsame

theorem Tracked.seq (topic : JsString) : Tracked o (s.call o sends (.seq topic)) := by
  refine ⟨fun other => ?_, h.complete⟩
  simp only [History.call, seqOf, topics_touchTopic]
  by_cases hsame : topic = other
  · subst hsame
    exact (h.covered topic).seq
  · refine (h.covered other).append fun pos hmem => ?_
    obtain rfl := mem_singleton.mp hmem
    exact hsame

theorem Tracked.since (topic : JsString) (since : ℕ) :
    Tracked o (s.call o sends (.since topic since)) := by
  refine ⟨fun other => ?_, h.complete⟩
  simp only [History.call, sinceOf, topics_touchTopic]
  exact h.covered other

end

theorem topics_replay (b : ReplayBuffer D) (topic : JsString) (sinceSeq : ℕ) :
    (b.replay o sends topic sinceSeq).2.topics = b.topics := by
  simp only [replay]
  split
  · exact topics_touchTopic b topic
  · split <;> exact topics_touchTopic b topic

theorem Tracked.replay (h : Tracked o s) (topic : JsString) (sinceSeq : ℕ)
    (hlost : NotLost s (.replay topic sinceSeq)) :
    Tracked o (s.call o sends (.replay topic sinceSeq)) := by
  refine ⟨fun other => ?_, fun served hmem => ?_⟩
  · simp only [History.call, topics_replay]
    exact h.covered other
  · rcases mem_append.mp hmem with hmem | hmem
    · exact h.complete served hmem
    · obtain ⟨pos, hpos, rfl⟩ := mem_map.mp hmem
      obtain ⟨hknown, hnamed⟩ := mem_filter.mp hpos
      obtain ⟨ht, hnumber⟩ := of_decide_eq_true hnamed
      subst ht hnumber
      exact (h.covered pos.topic).complete hknown rfl (hlost pos hknown ⟨rfl, rfl⟩)

theorem Tracked.clear (h : Tracked o s) : Tracked o (s.call o sends .clear) :=
  ⟨fun _ _ hmem => absurd hmem not_mem_nil, h.complete⟩

theorem Tracked.clearTopic (h : Tracked o s) (topic : JsString) :
    Tracked o (s.call o sends (.clearTopic topic)) := by
  refine ⟨fun other => ?_, h.complete⟩
  simp only [History.call, ReplayBuffer.clearTopic, JsMap.get_delete]
  by_cases hsame : topic = other
  · subst hsame
    rw [if_pos rfl]
    intro pos hmem ht
    have hkept := (mem_filter.mp hmem).2
    simp [ht] at hkept
  · rw [if_neg hsame, Function.update_of_ne (Ne.symm hsame)]
    have hcovered := h.covered other
    cases hget : s.buffer.topics.get other with
    | none =>
      rw [hget] at hcovered
      exact fun pos hmem ht => hcovered pos (mem_of_mem_filter hmem) ht
    | some state =>
      rw [hget] at hcovered
      obtain ⟨first, hholds, hnames⟩ := hcovered
      exact ⟨first, hholds, fun pos hmem ht => hnames pos (mem_of_mem_filter hmem) ht⟩

/-- In a run whose replays name no position that has lost messages to an eviction, an answer that
ends without `truncated` sent exactly the messages published after the one it names. -/
theorem complete_of_notLost (o : ReplayOptions) (sends : D → Bool) {es : List (ReplayEvent D)}
    {s : History D} (h : (replayMachine o sends).ReachesWhere NotLost es s) :
    ∀ served ∈ s.served, served.Complete := by
  refine (h.invariant (I := Tracked o) tracked_init ?_).complete
  intro s e s' hs hok hstep
  cases hstep
  cases e with
  | publish topic event snapshot => exact hs.publish topic event snapshot
  | seq topic => exact hs.seq topic
  | since topic since => exact hs.since topic since
  | replay topic sinceSeq => exact hs.replay topic sinceSeq hok
  | clear => exact hs.clear
  | clearTopic topic => exact hs.clearTopic topic

/-- Two topics, two messages each. -/
def smallOptions : ReplayOptions := ⟨2, 2, Nat.two_pos, Nat.two_pos⟩

/-- A ring that is passed, and a topic that gives way. -/
def passedRun : List (ReplayEvent ℕ) :=
  [.seq (lit "a"), .publish (lit "a") [] (some 1), .publish (lit "a") [] (some 2),
    .publish (lit "a") [] (some 3), .replay (lit "a") 1, .replay (lit "a") 0,
    .publish (lit "b") [] (some 4), .publish (lit "c") [] (some 5),
    .replay (lit "a") 3]

theorem complete_of_notLost_passedRun : ∃ s, (replayMachine smallOptions fun _ => true).Reaches
    passedRun s ∧ (∀ served ∈ s.served, served.Complete) ∧ s.served.length = 3 := by
  obtain ⟨s, hs, hp⟩ : ∃ s, (replayMachine smallOptions fun _ => true).ReachesWhere NotLost
      passedRun s ∧ s.served.length = 3 :=
    Machine.exists_of_execWhere (by decide +kernel)
  exact ⟨s, hs.reaches, complete_of_notLost _ _ hs, hp⟩

/-- One topic, two messages. -/
def tinyOptions : ReplayOptions := ⟨2, 1, Nat.two_pos, Nat.one_pos⟩

/-- A topic gives way to another and is published on again. -/
def evictedRun : List (ReplayEvent ℕ) :=
  [.publish (lit "a") [] (some 1), .publish (lit "b") [] (some 2),
    .publish (lit "a") [] (some 3), .replay (lit "a") 1]

/-- The second message on `a` is numbered as the first, and the replay after the first one sends
nothing and reports no gap. -/
theorem not_complete_evictedRun : ¬ ∀ es s,
    (replayMachine tinyOptions fun _ : ℕ => true).Reaches es s →
      ∀ served ∈ s.served, served.Complete := by
  intro hall
  obtain ⟨s, hs, hp⟩ : ∃ s, (replayMachine tinyOptions fun _ : ℕ => true).Reaches evictedRun s ∧
      (s.served.any fun served => decide (served.answer.ended = some false) &&
      decide (served.answer.sent = []) && decide (served.owed ≠ [])) = true :=
    Machine.exists_of_exec (by decide +kernel)
  obtain ⟨served, hmem, hp⟩ := any_eq_true.mp hp
  simp only [Bool.and_eq_true, decide_eq_true_eq] at hp
  obtain ⟨⟨hended, hsent⟩, howed⟩ := hp
  have hcomplete := hall evictedRun s hs served hmem hended
  exact howed (hcomplete.symm.trans hsent)

end AdapterWs.Replay
