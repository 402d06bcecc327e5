import Mathlib.Data.List.Perm.Basic
import Mathlib.Data.List.Range
import AdapterWs.Subscribe.Capture

/-!
# What a capture holds and what a flush delivers

An open buffer holds every frame of its topic published since it was opened, or has overflowed.
A flush either ends the connection, or delivers the truncation marker, or delivers every frame of
the buffer that the resume does not cover, in order. Every buffer that was opened is either
unregistered once or still in a handle.
-/

namespace AdapterWs

open List Subscribe
namespace Subscribe

variable {cut : Cutover} {topic topic' : String} {published : List (String × Option ℕ)}
  {start : ℕ} {seq : Option ℕ} {entry : CaptureEntry} {entries : List CaptureEntry} {floor : ℤ}
  (closing : List CaptureEntry) (before : String → ℕ) (topics : List String)

/-! ## The frames of a topic -/

/-- The frames of a topic among the publishes from `start` on. -/
def framesOf (topic : String) (published : List (String × Option ℕ)) (start : ℕ) : List Frame :=
  (published.zipIdx.drop start).filterMap fun p =>
    if p.1.1 = topic then some { index := p.2, seq := p.1.2 } else none

theorem framesOf_length : framesOf topic published published.length = [] := by
  rw [framesOf, drop_eq_nil_of_le (by simp), filterMap_nil]

theorem framesOf_append (h : start ≤ published.length) :
    framesOf topic (published ++ [(topic', seq)]) start =
      framesOf topic published start ++
        if topic' = topic then [{ index := published.length, seq := seq }] else [] := by
  rw [framesOf, zipIdx_append, drop_append_of_le_length (by simpa using h),
    filterMap_append, ← framesOf]
  by_cases ht : topic' = topic
  · simp [ht]
  · simp [ht]

theorem mem_framesOf {frame : Frame} :
    frame ∈ framesOf topic published start ↔
      start ≤ frame.index ∧ published[frame.index]? = some (topic, frame.seq) := by
  rw [framesOf, mem_filterMap]
  constructor
  · rintro ⟨⟨⟨t, seq⟩, n⟩, hmem, hsome⟩
    obtain ⟨i, hi⟩ := mem_iff_getElem?.mp hmem
    rw [getElem?_drop, getElem?_zipIdx] at hi
    obtain ⟨q, hq, heq⟩ := Option.map_eq_some_iff.mp hi
    dsimp only at hsome
    split at hsome
    · next ht =>
      cases hsome
      cases heq
      cases ht
      simp only [zero_add]
      exact ⟨Nat.le_add_right _ _, hq⟩
    · cases hsome
  · rintro ⟨hstart, hget⟩
    refine ⟨((topic, frame.seq), frame.index), ?_, by simp⟩
    apply mem_iff_getElem?.mpr
    refine ⟨frame.index - start, ?_⟩
    rw [getElem?_drop, getElem?_zipIdx, Nat.add_sub_cancel' hstart, hget]
    simp

/-- The frames before the last publish are not changed by it. -/
theorem mem_framesOf_of_append {rest : List (String × Option ℕ)} {frame : Frame}
    (h : frame ∈ framesOf topic (published ++ rest) start) (hold : frame.index < published.length) :
    frame ∈ framesOf topic published start := by
  obtain ⟨hstart, hget⟩ := mem_framesOf.mp h
  rw [getElem?_append_left hold] at hget
  exact mem_framesOf.mpr ⟨hstart, hget⟩

theorem framesOf_increasing :
    (framesOf topic published start).Pairwise fun f g => f.index < g.index := by
  have hindices : published.zipIdx.Pairwise fun p q => p.2 < q.2 := by
    have hrange : (published.zipIdx.map Prod.snd).Pairwise (· < ·) := by
      rw [zipIdx_map_snd]
      exact pairwise_lt_range'
    exact pairwise_map.mp hrange
  have hdropped := hindices.sublist (drop_sublist start _)
  apply hdropped.filterMap
  intro p q hlt f hf g hg
  split at hf
  · split at hg
    · cases hf
      cases hg
      exact hlt
    · cases hg
  · cases hf

/-! ## The open buffers -/

/-- The buffer of an open capture holds the frames since its opening, or it overflowed. -/
structure Captured (cut : Cutover) (entry : CaptureEntry) : Prop where
  opened : entry.openedAt ≤ cut.published.length
  buffer : ∃ buffer, cut.resumeBuffers.get entry.buffer = some buffer ∧
    buffer.topic = entry.topic ∧
    buffer.frames <+: framesOf entry.topic cut.published entry.openedAt ∧
    (buffer.overflow = false →
      buffer.frames = framesOf entry.topic cut.published entry.openedAt) ∧
    (buffer.overflow = true → MAX_RESUME_BUFFERED_FRAMES ≤ buffer.frames.length)

/-- Every buffer that was opened was unregistered once or is in a handle. -/
structure Buffered (cut : Cutover) (entries : List CaptureEntry) : Prop where
  handles : (cut.unregistered ++ entries.map CaptureEntry.buffer).Perm
    (List.range cut.nextBuffer)
  captured : ∀ entry ∈ entries, Captured cut entry

theorem Buffered.perm {entries' : List CaptureEntry} (h : Buffered cut entries)
    (hperm : entries.Perm entries') : Buffered cut entries' where
  handles := ((hperm.map _).append_left _).symm.trans h.handles
  captured entry he := h.captured entry (hperm.mem_iff.mpr he)

theorem Buffered.buffer_lt (h : Buffered cut entries) (he : entry ∈ entries) :
    entry.buffer < cut.nextBuffer := by
  apply mem_range.mp
  apply h.handles.mem_iff.mp
  exact mem_append_right _ (mem_map_of_mem he)

theorem Buffered.buffer_ne (h : Buffered cut (entry :: entries)) {other : CaptureEntry}
    (ho : other ∈ entries) : entry.buffer ≠ other.buffer := by
  have hnodup := (h.handles.nodup_iff.mpr nodup_range).of_append_right
  rw [map_cons, nodup_cons] at hnodup
  intro heq
  exact hnodup.1 (heq ▸ mem_map_of_mem ho)

theorem Buffered.openCapture (h : Buffered cut entries) (before : String → ℕ) (topic : String) :
    Buffered (openCapture before cut topic).2 ((openCapture before cut topic).1 :: entries) where
  handles := by
    change (cut.unregistered ++ cut.nextBuffer :: entries.map CaptureEntry.buffer).Perm
      (range (cut.nextBuffer + 1))
    rw [range_succ]
    exact perm_middle.trans ((perm_append_singleton _ _).symm.trans
      (h.handles.append_right _))
  captured entry he := by
    have hget (n : ℕ) : (Subscribe.openCapture before cut topic).2.resumeBuffers.get n =
        if cut.nextBuffer = n then some { topic := topic, frames := [], overflow := false }
        else cut.resumeBuffers.get n := JsMap.get_set _ _ _ _
    rcases mem_cons.mp he with rfl | he
    · refine ⟨le_rfl, _, (hget _).trans (if_pos rfl), rfl, nil_prefix, ?_, ?_⟩
      · intro _
        exact framesOf_length.symm
      · intro hover
        cases hover
    · have hold := h.captured entry he
      obtain ⟨buffer, hsome, hrest⟩ := hold.buffer
      refine ⟨hold.opened, buffer, ?_, hrest⟩
      rw [hget, if_neg (ne_of_gt (h.buffer_lt he)), hsome]

theorem Buffered.beginResumeCapture (h : Buffered cut entries) (before : String → ℕ)
    (topics : List String) :
    Buffered (beginResumeCapture before topics cut).2
      ((beginResumeCapture before topics cut).1 ++ entries) := by
  induction topics generalizing cut entries with
  | nil => exact h
  | cons topic topics ih =>
    exact (ih (h.openCapture before topic)).perm perm_middle

theorem Buffered.unregister (h : Buffered cut (entry :: entries)) :
    Buffered (unregister cut entry) entries where
  handles := by
    change (cut.unregistered ++ [entry.buffer] ++ entries.map CaptureEntry.buffer).Perm _
    rw [append_assoc]
    exact h.handles
  captured other ho := by
    have hold := h.captured other (.tail _ ho)
    obtain ⟨buffer, hsome, hrest⟩ := hold.buffer
    refine ⟨hold.opened, buffer, ?_, hrest⟩
    change (cut.resumeBuffers.delete entry.buffer).get other.buffer = _
    rw [JsMap.get_delete, if_neg (h.buffer_ne ho), hsome]

theorem Buffered.discard (h : Buffered cut (closing ++ entries)) :
    Buffered (discardResumeCapture closing cut) entries := by
  induction closing generalizing cut with
  | nil => exact h
  | cons entry closing ih => exact ih h.unregister

section

variable (cut)

@[simp] theorem received_discard : (discardResumeCapture closing cut).received = cut.received := by
  induction closing generalizing cut with
  | nil => rfl
  | cons entry closing ih => exact ih (unregister cut entry)

@[simp] theorem published_discard :
    (discardResumeCapture closing cut).published = cut.published := by
  induction closing generalizing cut with
  | nil => rfl
  | cons entry closing ih => exact ih (unregister cut entry)

@[simp] theorem received_begin :
    (beginResumeCapture before topics cut).2.received = cut.received := by
  induction topics generalizing cut with
  | nil => rfl
  | cons topic topics ih => exact ih (openCapture before cut topic).2

@[simp] theorem published_begin :
    (beginResumeCapture before topics cut).2.published = cut.published := by
  induction topics generalizing cut with
  | nil => rfl
  | cons topic topics ih => exact ih (openCapture before cut topic).2

@[simp] theorem map_topic_begin :
    (beginResumeCapture before topics cut).1.map CaptureEntry.topic = topics := by
  induction topics generalizing cut with
  | nil => rfl
  | cons topic topics ih =>
    exact congrArg (topic :: ·) (ih (openCapture before cut topic).2)

end

theorem Buffered.congr {cut' : Cutover} (h : Buffered cut entries)
    (hbuffers : cut'.resumeBuffers = cut.resumeBuffers)
    (hnext : cut'.nextBuffer = cut.nextBuffer)
    (hunregistered : cut'.unregistered = cut.unregistered)
    (hpublished : cut'.published = cut.published) : Buffered cut' entries where
  handles := by
    rw [hunregistered, hnext]
    exact h.handles
  captured entry he := by
    have hold := h.captured entry he
    refine ⟨hpublished ▸ hold.opened, ?_⟩
    rw [hbuffers, hpublished]
    exact hold.buffer

theorem Captured.publish (h : Captured cut entry) (topic : String) (seq : Option ℕ)
    (reaches : Bool) : Captured (publish topic seq reaches cut) entry := by
  obtain ⟨buffer, hsome, htopic, hheld, hall, hover⟩ := h.buffer
  have hget : (Subscribe.publish topic seq reaches cut).resumeBuffers.get entry.buffer =
      some (if buffer.topic = topic then
        buffer.push { index := cut.published.length, seq := seq } else buffer) := by
    change (cut.resumeBuffers.mapVals _).get entry.buffer = _
    rw [JsMap.get_mapVals, hsome]
    rfl
  have hframes : framesOf entry.topic (Subscribe.publish topic seq reaches cut).published
      entry.openedAt = framesOf entry.topic cut.published entry.openedAt ++
        if topic = entry.topic then [{ index := cut.published.length, seq := seq }] else [] :=
    framesOf_append h.opened
  have hopened : entry.openedAt ≤ (Subscribe.publish topic seq reaches cut).published.length := by
    change _ ≤ (cut.published ++ [(topic, seq)]).length
    rw [length_append]
    exact le_trans h.opened (Nat.le_add_right _ _)
  rw [htopic] at hget
  by_cases ht : topic = entry.topic
  · rw [if_pos ht.symm] at hget
    rw [if_pos ht] at hframes
    refine ⟨hopened, _, hget, ?_⟩
    rw [hframes, ResumeBuffer.push]
    split
    · next hfull =>
      refine ⟨htopic, hheld.trans (prefix_append _ _), ?_, fun _ => hfull⟩
      intro hover'
      cases hover'
    · next hroom =>
      have hfalse : buffer.overflow = false := by
        cases ho : buffer.overflow with
        | false => rfl
        | true => exact absurd (hover ho) hroom
      dsimp only
      rw [hall hfalse]
      refine ⟨htopic, prefix_refl _, fun _ => rfl, ?_⟩
      intro ho
      rw [hfalse] at ho
      cases ho
  · rw [if_neg (Ne.symm ht)] at hget
    rw [if_neg ht, append_nil] at hframes
    refine ⟨hopened, buffer, hget, htopic, ?_⟩
    rw [hframes]
    exact ⟨hheld, hall, hover⟩

theorem Buffered.publish (h : Buffered cut entries) (topic : String) (seq : Option ℕ)
    (reaches : Bool) : Buffered (publish topic seq reaches cut) entries where
  handles := h.handles
  captured entry he := (h.captured entry he).publish topic seq reaches

/-! ## What a flush delivers -/

/-- The envelopes of a topic among what reached the client, by their place among the publishes. -/
def envelopes (topic : String) (received : List Received) : List ℕ :=
  received.filterMap fun
    | .envelope t index => if t = topic then some index else none
    | .truncated _ => none

theorem envelopes_append (received received' : List Received) :
    envelopes topic (received ++ received') =
      envelopes topic received ++ envelopes topic received' :=
  filterMap_append

theorem envelopes_map (frames : List Frame) :
    envelopes topic' (frames.map fun f => .envelope topic f.index) =
      if topic = topic' then frames.map Frame.index else [] := by
  rw [envelopes, filterMap_map]
  by_cases ht : topic = topic'
  · simp [ht]
  · simp [ht]

variable {s : Sending}

theorem deliver_received (payload : Received) :
    ((s.deliver payload).1 = true ∧ (s.deliver payload).2.received = s.received ++ [payload]) ∨
      ((s.deliver payload).1 = false ∧ (s.deliver payload).2.received = s.received) := by
  rw [Sending.deliver]
  cases s.answers with
  | nil => exact .inl ⟨rfl, rfl⟩
  | cons answer answers =>
    cases answer with
    | sent => exact .inl ⟨rfl, rfl⟩
    | refused => exact .inr ⟨rfl, rfl⟩
    | gone => exact .inr ⟨rfl, rfl⟩

/-- The loop sends some of the frames, in order; if it runs to its end, all that are not
covered. -/
theorem flushFrames_sent (topic : String) (floor : ℤ) (frames : List Frame) (s : Sending) :
    ∃ sent : List Frame, sent.Sublist frames ∧
      (flushFrames topic floor frames s).2.received =
        s.received ++ sent.map (fun f => .envelope topic f.index) ∧
      ((flushFrames topic floor frames s).1 = false →
        (flushFrames topic floor frames s).2.gone = false →
          ∀ f ∈ frames, f.covered floor = true ∨ f ∈ sent) := by
  induction frames generalizing s with
  | nil => exact ⟨[], List.Sublist.refl _, by simp [flushFrames], fun _ _ f hf => by cases hf⟩
  | cons frame frames ih =>
    rw [flushFrames]
    split
    · next hgone =>
      refine ⟨[], nil_sublist _, by simp, ?_⟩
      intro _ hnot
      rw [hgone] at hnot
      cases hnot
    · split
      · next hcovered =>
        obtain ⟨sent, hsub, hreceived, hall⟩ := ih s
        refine ⟨sent, hsub.cons _, hreceived, ?_⟩
        intro hran hopen f hf
        rcases mem_cons.mp hf with rfl | hf
        · exact .inl hcovered
        · exact hall hran hopen f hf
      · split
        · next s' hdeliver =>
          obtain ⟨sent, hsub, hreceived, hall⟩ := ih s'
          have htaken := deliver_received (s := s) (.envelope topic frame.index)
          rw [hdeliver] at htaken
          have hfirst : s'.received = s.received ++ [.envelope topic frame.index] := by
            rcases htaken with ⟨-, hr⟩ | ⟨hfalse, -⟩
            · exact hr
            · cases hfalse
          refine ⟨frame :: sent, hsub.cons_cons _, ?_, ?_⟩
          · rw [hreceived, hfirst]
            simp
          · intro hran hopen f hf
            rcases mem_cons.mp hf with rfl | hf
            · exact .inr (.head _)
            · exact (hall hran hopen f hf).imp id (mem_cons_of_mem _)
        · next s' hdeliver =>
          have htaken := deliver_received (s := s) (.envelope topic frame.index)
          rw [hdeliver] at htaken
          refine ⟨[], nil_sublist _, ?_, ?_⟩
          · rcases htaken with ⟨htrue, -⟩ | ⟨-, hr⟩
            · cases htrue
            · simpa using hr
          · intro hran hopen
            dsimp only at hran hopen
            rw [hopen] at hran
            cases hran

/-- What the sends of a flush leave: the markers and the frames sent are appended, and a flush
that leaves the connection usable delivered the marker or every frame that is not covered. -/
theorem flushSends_spec (topic : String) (floor : ℤ) (buffer : ResumeBuffer) (s : Sending) :
    ∃ (first : List Received) (sent : List Frame) (last : List Received), (first = [] ∨ first = [.truncated topic]) ∧
      (last = [] ∨ last = [.truncated topic]) ∧ sent.Sublist buffer.frames ∧
      (flushSends topic floor buffer s).2.received =
        s.received ++ (first ++ sent.map (fun f => .envelope topic f.index) ++ last) ∧
      ((flushSends topic floor buffer s).1 = false → first ≠ [] ∨ last ≠ [] ∨
        (buffer.overflow = false ∧ ∀ f ∈ buffer.frames, f.covered floor = true ∨ f ∈ sent)) := by
  rw [flushSends]
  generalize hmarker : (if buffer.overflow = true then s.deliver (.truncated topic)
    else (false, s)) = marker
  obtain ⟨first, hfirst, hreceived, hsignalled, hplain⟩ : ∃ first : List Received,
      (first = [] ∨ first = [.truncated topic]) ∧ marker.2.received = s.received ++ first ∧
      (marker.1 = true → first ≠ []) ∧ (marker.1 = true → buffer.overflow = true) := by
    subst hmarker
    split
    · next hover =>
      rcases deliver_received (s := s) (.truncated topic) with ⟨-, hr⟩ | ⟨hfalse, hr⟩
      · exact ⟨_, .inr rfl, hr, fun _ h => (by cases h), fun _ => hover⟩
      · refine ⟨[], .inl rfl, by simpa using hr, ?_, fun _ => hover⟩
        intro htrue
        rw [hfalse] at htrue
        cases htrue
    · exact ⟨[], .inl rfl, by simp, fun h => (by cases h), fun h => (by cases h)⟩
  obtain ⟨sent, hsub, hsent, hall⟩ :=
    flushFrames_sent topic floor buffer.frames marker.2
  dsimp only
  split
  · rcases deliver_received (s := (flushFrames topic floor buffer.frames marker.2).2)
      (.truncated topic) with ⟨htrue, hr⟩ | ⟨hfalse, hr⟩
    · refine ⟨first, sent, [.truncated topic], hfirst, .inr rfl, hsub, ?_, ?_⟩
      · rw [hr, hsent, hreceived]
        simp
      · intro _
        exact .inr (.inl fun h => by cases h)
    · refine ⟨first, sent, [], hfirst, .inl rfl, hsub, ?_, ?_⟩
      · rw [hr, hsent, hreceived]
        simp
      · intro husable
        simp [hfalse] at husable
  · next hquiet =>
    refine ⟨first, sent, [], hfirst, .inl rfl, hsub, ?_, ?_⟩
    · rw [hsent, hreceived]
      simp
    · intro hopen
      dsimp only at hopen
      cases hsignal : marker.1 with
      | true => exact .inl (hsignalled hsignal)
      | false =>
        right
        right
        simp only [hsignal, hopen, Bool.not_false, Bool.and_true, Bool.not_eq_true,
          Bool.or_eq_false_iff] at hquiet
        exact ⟨hquiet.1, hall hquiet.2 hopen⟩

/-- A flush appends envelopes of its topic in publish order, closes its buffer, and if the
connection stays usable it delivered the marker or every frame since the capture was opened that
the floor does not cover. -/
theorem flushResumeTopic_spec (h : Captured cut entry) (coveredSeq : Option ℤ)
    (answers : List SendResult) :
    ∃ extra : List Received,
      (flushResumeTopic entry coveredSeq answers cut).2 =
        unregister { cut with received := cut.received ++ extra } entry ∧
      (∀ t, t ≠ entry.topic → envelopes t extra = []) ∧
      (envelopes entry.topic extra).Pairwise (· < ·) ∧
      (∀ n ∈ envelopes entry.topic extra, n < cut.published.length) ∧
      ((flushResumeTopic entry coveredSeq answers cut).1 = false →
        .truncated entry.topic ∈ extra ∨ ∀ f ∈ framesOf entry.topic cut.published entry.openedAt,
          f.covered (entry.floor coveredSeq) = true ∨ .envelope entry.topic f.index ∈ extra) := by
  obtain ⟨buffer, hget, htopic, hheld, hall, -⟩ := h.buffer
  obtain ⟨first, sent, last, hfirst, hlast, hsub, hreceived, hcomplete⟩ :=
    flushSends_spec entry.topic (entry.floor coveredSeq) buffer
      { answers := answers, received := cut.received, gone := false }
  have hmarkers : ∀ t, envelopes t first = [] ∧ envelopes t last = [] := by
    intro t
    constructor
    · rcases hfirst with rfl | rfl <;> rfl
    · rcases hlast with rfl | rfl <;> rfl
  have henvelopes : ∀ t, envelopes t
      (first ++ sent.map (fun f => .envelope entry.topic f.index) ++ last) =
        if entry.topic = t then sent.map Frame.index else [] := by
    intro t
    rw [envelopes_append, envelopes_append, (hmarkers t).1, (hmarkers t).2, envelopes_map,
      nil_append, append_nil]
  have hsent : sent.Sublist (framesOf entry.topic cut.published entry.openedAt) :=
    hsub.trans hheld.sublist
  refine ⟨first ++ sent.map (fun f => .envelope entry.topic f.index) ++ last, ?_, ?_, ?_, ?_, ?_⟩
  · rw [flushResumeTopic, hget]
    dsimp only
    rw [hreceived]
  · intro t ht
    rw [henvelopes, if_neg (Ne.symm ht)]
  · rw [henvelopes, if_pos rfl]
    exact pairwise_map.mpr (framesOf_increasing.sublist hsent)
  · intro n hn
    rw [henvelopes, if_pos rfl] at hn
    obtain ⟨frame, hframe, rfl⟩ := mem_map.mp hn
    obtain ⟨-, hsome⟩ := mem_framesOf.mp (hsent.subset hframe)
    exact (List.getElem?_eq_some_iff.mp hsome).1
  · intro husable
    rw [flushResumeTopic, hget] at husable
    rcases hcomplete husable with hne | hne | ⟨hover, hframes⟩
    · left
      rcases hfirst with rfl | rfl
      · exact absurd rfl hne
      · simp
    · left
      rcases hlast with rfl | rfl
      · exact absurd rfl hne
      · simp
    · right
      intro frame hframe
      rw [← hall hover] at hframe
      rcases hframes frame hframe with hcovered | hmem
      · exact .inl hcovered
      · right
        apply mem_append_left
        apply mem_append_right
        exact mem_map_of_mem (f := fun f : Frame => Received.envelope entry.topic f.index) hmem

end Subscribe
end AdapterWs
