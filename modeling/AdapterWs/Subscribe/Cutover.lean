import AdapterWs.Subscribe.CaptureBuffers
import AdapterWs.Subscribe.Lanes

/-!
# The cutover from replay to live

A frame that asks for recovery is answered with `subscribed` on two exits. The fresh exit flushes
its own capture. The held exit, where another attempt installed the membership while the resume
hook was awaited, discards it: its frames reached the client only as far as the membership that
is there answers for them. Where that is all of them, no recovery leaves a gap.

The domain is the subscribe lanes and the publishes: memberships are installed by landings and
stay.
-/

namespace AdapterWs.Subscribe

open Connection List

variable {c c' : Connection} {setup : Setup} {open_ : List CaptureEntry} {a : Attempt}
  {topic : String} {gate : Gate} {entry : PendingEntry} {capture : CaptureEntry}
  {covered : Option ℤ} {answers : List SendResult} {open' : List CaptureEntry} {ud : UserData}

/-! ## The invariant -/

/-- Every frame published since a capture was opened and before the topic's membership was
installed is covered by a watermark or reached the client, or the truncation marker did, or a
flush closed the connection. -/
def NoGap (c : Connection) (r : Recovered) : Prop :=
  c.flushClosed = true ∨ .truncated r.topic ∈ c.cut.received ∨
    ∃ live ∈ c.liveSince.get r.topic, live.installedAt ≤ c.cut.published.length ∧
      ∀ f ∈ framesOf r.topic c.cut.published r.openedAt, f.index < live.installedAt →
        f.covered r.floor = true ∨ (live.answersFrom ≤ f.index ∧ f.covered live.floor = true) ∨
          .envelope r.topic f.index ∈ c.cut.received

instance (c : Connection) (r : Recovered) : Decidable (NoGap c r) := by
  unfold NoGap
  infer_instance

/-- The landing that installed a held topic answers for the frames it took over. -/
structure LiveCovers (c : Connection) (topic : String) (live : LiveSince) : Prop where
  get : c.liveSince.get topic = some live
  installed : live.installedAt ≤ c.cut.published.length
  delivered : .truncated topic ∈ c.cut.received ∨
    ∀ f ∈ framesOf topic c.cut.published live.answersFrom, f.index < live.installedAt →
      f.covered live.floor = true ∨ .envelope topic f.index ∈ c.cut.received

/-- The entry of a held topic has authority. -/
def Kept (ud : UserData) : Prop :=
  ∀ t ∈ ud.subscriptions, ∀ entry, ud.pending.get t = some entry → entry.granted = true

/-- The captures in flight hold what was published since, the client received every topic in
publish order, and no answered recovery left a gap. -/
structure Whole (c : Connection) (open_ : List CaptureEntry) : Prop where
  kept : Kept c.ud
  buffered : Buffered c.cut open_
  live : c.flushClosed = true ∨ ∀ t ∈ c.ud.subscriptions, ∃ live, LiveCovers c t live
  increasing : ∀ t, (envelopes t c.cut.received).Pairwise (· < ·)
  bounded : ∀ t, ∀ n ∈ envelopes t c.cut.received, n < c.cut.published.length
  silent : ∀ t, t ∉ c.ud.subscriptions → envelopes t c.cut.received = []
  recovered : ∀ r ∈ c.recovered, r.topic ∈ c.ud.subscriptions ∧ NoGap c r

theorem Whole.perm (h : Whole c open_) (hperm : open_.Perm open') : Whole c open' :=
  ⟨h.kept, h.buffered.perm hperm, h.live, h.increasing, h.bounded, h.silent, h.recovered⟩

/-- An exit that moves no membership: only the slots change, and they stay kept. -/
structure Steady (c c' : Connection) : Prop where
  kept : Kept c'.ud
  subscriptions : c'.ud.subscriptions = c.ud.subscriptions
  cut : c'.cut = c.cut
  liveSince : c'.liveSince = c.liveSince
  recovered : c'.recovered = c.recovered
  flushClosed : c'.flushClosed = c.flushClosed

theorem Whole.of_steady (h : Whole c open_) (hs : Steady c c') : Whole c' open_ where
  kept := hs.kept
  buffered := by
    rw [hs.cut]
    exact h.buffered
  live := by
    rw [hs.flushClosed, hs.subscriptions]
    refine h.live.imp id fun hall t ht => ?_
    obtain ⟨live, hcovers⟩ := hall t ht
    refine ⟨live, ?_, ?_, ?_⟩
    · rw [hs.liveSince]
      exact hcovers.get
    · rw [hs.cut]
      exact hcovers.installed
    · rw [hs.cut]
      exact hcovers.delivered
  increasing := by
    rw [hs.cut]
    exact h.increasing
  bounded := by
    rw [hs.cut]
    exact h.bounded
  silent := by
    rw [hs.subscriptions, hs.cut]
    exact h.silent
  recovered := by
    rw [hs.recovered, hs.subscriptions]
    intro r hr
    refine ⟨(h.recovered r hr).1, ?_⟩
    rw [NoGap, hs.flushClosed, hs.cut, hs.liveSince]
    exact (h.recovered r hr).2

/-! ## The slots -/

/-- What an entry is after one attempt of a topic left it. -/
theorem get_leave_some {t : String} {entry' : PendingEntry}
    (hsome : (leavePending ud topic entry).pending.get t = some entry') :
    (topic = t ∧ entry'.granted = entry.granted) ∨
      (topic ≠ t ∧ ud.pending.get t = some entry') := by
  rw [leavePending] at hsome
  dsimp only at hsome
  split at hsome
  · rw [JsMap.get_delete] at hsome
    split at hsome
    · cases hsome
    · next ht => exact .inr ⟨ht, hsome⟩
  · rw [JsMap.get_set] at hsome
    split at hsome
    · next ht =>
      cases hsome
      exact .inl ⟨ht, rfl⟩
    · next ht => exact .inr ⟨ht, hsome⟩

/-- An attempt leaves, and its topic, if held, has authority. -/
theorem Kept.leave (h : Kept ud) (hgranted : topic ∈ ud.subscriptions → entry.granted = true) :
    Kept (leavePending ud topic entry) := by
  intro t ht entry' hsome
  rcases get_leave_some hsome with ⟨rfl, heq⟩ | ⟨-, hold⟩
  · rw [heq]
    exact hgranted ht
  · exact h t ht entry' hold

theorem Kept.begin (h : Kept ud) (topic : String) :
    Kept (beginPendingSubscribe ud topic (decide (topic ∈ ud.subscriptions))).2 := by
  intro t ht entry' hsome
  rw [get_begin] at hsome
  split at hsome
  · next heq =>
    subst heq
    cases hsome
    rw [enrolled]
    cases hget : ud.pending.get topic with
    | none => exact decide_eq_true ht
    | some entry => exact h topic ht entry hget
  · exact h t ht entry' hsome

theorem Kept.settleDenied (h : Kept ud) (topic : String) :
    (settleDeniedSubscribe ud topic (decide (topic ∈ ud.subscriptions))).1 ≠ .denyUnwind ∧
      Kept (settleDeniedSubscribe ud topic (decide (topic ∈ ud.subscriptions))).2 := by
  rw [settleDeniedSubscribe]
  split
  · exact ⟨fun hv => (by cases hv), h⟩
  · next entry hget =>
    refine ⟨?_, h.leave fun ht => h topic ht entry hget⟩
    split
    · intro hv
      cases hv
    · next hunwinds =>
      simp only [Bool.or_eq_true, Bool.not_eq_true', not_or, Bool.not_eq_false,
        decide_eq_true_eq] at hunwinds
      exact absurd (h topic hunwinds.1.1 entry hget) hunwinds.1.2

theorem Kept.settleHeld (h : Kept ud) (hheld : topic ∈ ud.subscriptions) (token : ℕ) :
    (settleHeldSubscribe ud topic token).1 = .ack ∧
      Kept (settleHeldSubscribe ud topic token).2 ∧
      (settleHeldSubscribe ud topic token).2.subscriptions = ud.subscriptions := by
  rw [settleHeldSubscribe]
  split
  · exact ⟨rfl, h, rfl⟩
  · next entry hget =>
    have hgranted := h topic hheld entry hget
    split
    · exact ⟨rfl, h.leave fun _ => rfl, rfl⟩
    · exact ⟨rfl, h.leave fun _ => hgranted, rfl⟩

/-! ## The exits that move no membership -/

theorem answer_steady (h : Kept c.ud) (topic : String) (reason : Option String) :
    Steady c (c.answer topic reason) :=
  ⟨h, rfl, rfl, rfl, rfl, rfl⟩

theorem begin_steady (h : Kept c.ud) (topic : String) : Steady c (c.begin topic).2 :=
  ⟨h.begin topic, rfl, rfl, rfl, rfl, rfl⟩

theorem deny_steady (h : Kept c.ud) (a : Attempt) (reason : String) :
    Steady c (c.deny setup a reason) := by
  obtain ⟨hstays, hkept⟩ := h.settleDenied a.topic
  have hsettled : c.deny setup a reason =
      ({ c with ud := (settleDeniedSubscribe c.ud a.topic (c.holds a.topic)).2 } :
        Connection).answer a.topic (some reason) := by
    rw [Connection.deny]
    exact congrArg (fun c => Connection.answer c a.topic (some reason)) (if_neg hstays)
  have hsubs : (settleDeniedSubscribe c.ud a.topic (c.holds a.topic)).2.subscriptions =
      c.ud.subscriptions := by
    rw [settleDeniedSubscribe]
    split <;> rfl
  rw [hsettled]
  exact ⟨hkept, hsubs, rfl, rfl, rfl, rfl⟩

theorem settlePending_subscriptions (ud : UserData) (topic : String) (token : ℕ)
    (granted : Bool) :
    (settlePendingSubscribe ud topic token granted).2.subscriptions = ud.subscriptions := by
  rw [settlePendingSubscribe]
  split <;> rfl

theorem Kept.settlePending (h : Kept ud) (topic : String) (token : ℕ) (granted : Bool) :
    Kept (settlePendingSubscribe ud topic token granted).2 := by
  rw [settlePendingSubscribe]
  split
  · exact h
  · next entry hget =>
    apply h.leave
    intro ht
    simp [h topic ht entry hget]

theorem refuse_steady (h : Kept c.ud) (a : Attempt) (reason : String) :
    Steady c (c.refuse a reason) :=
  ⟨h.settlePending a.topic a.token false, settlePending_subscriptions _ _ _ _, rfl, rfl, rfl, rfl⟩

theorem authorize_eq (c : Connection) (a : Attempt) :
    ∃ audit, c.authorize a = { c with audit := audit } := by
  rw [authorize]
  split
  · exact ⟨c.audit, rfl⟩
  · exact ⟨_, rfl⟩

theorem landHeld_steady (setup : Setup) (h : Kept c.ud) (hheld : c.holds a.topic = true) :
    (c.landHeld setup a).1 = true ∧ Steady c (c.landHeld setup a).2 := by
  obtain ⟨hack, hkept, hsubs⟩ := h.settleHeld (of_decide_eq_true hheld) a.token
  obtain ⟨audit, hauthorize⟩ := authorize_eq c a
  rw [Connection.landHeld, hack, hauthorize]
  exact ⟨rfl, hkept, hsubs, rfl, rfl, rfl, rfl⟩

theorem landFresh_steady {capture : Option CaptureEntry} (h : Kept c.ud)
    (hrefused : (c.landFresh a capture covered answers).1 = .refused) :
    Steady c (c.landFresh a capture covered answers).2 := by
  obtain ⟨audit, hauthorize⟩ := authorize_eq c a
  have hkept := h.settlePending a.topic a.token true
  have hsubs := settlePending_subscriptions c.ud a.topic a.token true
  rw [landFresh, hauthorize] at hrefused ⊢
  dsimp only at hrefused ⊢
  split at hrefused
  · next hgrants =>
    rw [if_pos hgrants]
    exact ⟨hkept, hsubs, rfl, rfl, rfl, rfl⟩
  · next hgrants =>
    rw [if_neg hgrants]
    split at hrefused
    · next hclosed =>
      rw [if_pos hclosed]
      exact ⟨hkept, hsubs, rfl, rfl, rfl, rfl⟩
    · cases capture with
      | none => cases hrefused
      | some capture =>
        dsimp only at hrefused
        split at hrefused <;> cases hrefused

/-! ## Time passing -/

/-- What a later state has of an earlier one: deliveries and publishes appended, and from where a
topic is live. -/
structure Extends (c c' : Connection) (topic : String) : Prop where
  closed : c.flushClosed = true → c'.flushClosed = true
  received : ∀ x ∈ c.cut.received, x ∈ c'.cut.received
  published : ∃ rest, c'.cut.published = c.cut.published ++ rest
  live : c'.liveSince.get topic = c.liveSince.get topic

theorem NoGap.extends {r : Recovered} (h : NoGap c r) (hext : Extends c c' r.topic) :
    NoGap c' r := by
  obtain ⟨rest, hpublished⟩ := hext.published
  rcases h with hclosed | hmarker | ⟨live, hget, hinstalled, hall⟩
  · exact .inl (hext.closed hclosed)
  · exact .inr (.inl (hext.received _ hmarker))
  · refine .inr (.inr ⟨live, hext.live.trans hget, ?_, ?_⟩)
    · rw [hpublished, length_append]
      exact le_trans hinstalled (Nat.le_add_right _ _)
    · intro f hf hlt
      rw [hpublished] at hf
      have hold := mem_framesOf_of_append hf (lt_of_lt_of_le hlt hinstalled)
      exact (hall f hold hlt).imp id fun h => h.imp id (hext.received _)

theorem LiveCovers.extends {live : LiveSince} (h : LiveCovers c topic live)
    (hext : Extends c c' topic) : LiveCovers c' topic live := by
  obtain ⟨rest, hpublished⟩ := hext.published
  refine ⟨hext.live.trans h.get, ?_, ?_⟩
  · rw [hpublished, length_append]
    exact le_trans h.installed (Nat.le_add_right _ _)
  · refine h.delivered.imp (hext.received _) fun hall f hf hlt => ?_
    rw [hpublished] at hf
    have hold := mem_framesOf_of_append hf (lt_of_lt_of_le hlt h.installed)
    exact (hall f hold hlt).imp id (hext.received _)

/-- A publish reaches the connection only on a topic it holds. -/
theorem Whole.publish (h : Whole c open_) (topic : String) (seq : Option ℕ) (reaches : Bool)
    (hreaches : reaches = true → topic ∈ c.ud.subscriptions) :
    Whole { c with cut := publish topic seq reaches c.cut } open_ := by
  have hreceived : ∃ extra, (Subscribe.publish topic seq reaches c.cut).received =
      c.cut.received ++ extra ∧ (∀ t, envelopes t extra = [] ∨
        (reaches = true ∧ t = topic ∧ envelopes t extra = [c.cut.published.length])) := by
    rw [Subscribe.publish]
    cases reaches with
    | false => exact ⟨[], by simp, fun t => .inl rfl⟩
    | true =>
      refine ⟨[.envelope topic c.cut.published.length], rfl, fun t => ?_⟩
      by_cases ht : topic = t
      · exact .inr ⟨rfl, ht.symm, by simp [envelopes, ht]⟩
      · exact .inl (by simp [envelopes, ht])
  obtain ⟨extra, hreceived, hextra⟩ := hreceived
  have hpublished : (Subscribe.publish topic seq reaches c.cut).published =
      c.cut.published ++ [(topic, seq)] := rfl
  have hext (t : String) : Extends c
      { c with cut := Subscribe.publish topic seq reaches c.cut } t := by
    refine ⟨id, ?_, ⟨_, hpublished⟩, rfl⟩
    intro x hx
    change x ∈ (Subscribe.publish topic seq reaches c.cut).received
    rw [hreceived]
    exact mem_append_left _ hx
  refine ⟨h.kept, h.buffered.publish topic seq reaches, ?_, ?_, ?_, ?_, ?_⟩
  · refine h.live.imp id fun hall t ht => ?_
    obtain ⟨live, hcovers⟩ := hall t ht
    exact ⟨live, hcovers.extends (hext t)⟩
  · intro t
    change (envelopes t (Subscribe.publish topic seq reaches c.cut).received).Pairwise (· < ·)
    rw [hreceived, envelopes_append]
    rcases hextra t with hnone | ⟨-, -, hone⟩
    · rw [hnone, append_nil]
      exact h.increasing t
    · rw [hone, pairwise_append]
      refine ⟨h.increasing t, pairwise_singleton _ _, ?_⟩
      intro n hn m hm
      rw [mem_singleton.mp hm]
      exact h.bounded t n hn
  · intro t n hn
    change n ∈ envelopes t (Subscribe.publish topic seq reaches c.cut).received at hn
    change n < (c.cut.published ++ [(topic, seq)]).length
    rw [hreceived, envelopes_append] at hn
    rw [length_append, length_singleton]
    rcases mem_append.mp hn with hn | hn
    · exact Nat.lt_succ_of_lt (h.bounded t n hn)
    · rcases hextra t with hnone | ⟨-, -, hone⟩
      · rw [hnone] at hn
        cases hn
      · rw [hone, mem_singleton] at hn
        exact hn ▸ Nat.lt_succ_self _
  · intro t ht
    change envelopes t (Subscribe.publish topic seq reaches c.cut).received = []
    rw [hreceived, envelopes_append, h.silent t ht, nil_append]
    rcases hextra t with hnone | ⟨hr, heq, -⟩
    · exact hnone
    · exact absurd (hreaches hr) (heq ▸ ht)
  · intro r hr
    exact ⟨(h.recovered r hr).1, (h.recovered r hr).2.extends (hext r.topic)⟩

/-! ## Captures and landings -/

theorem Whole.of_buffers {cut' : Cutover} (h : Whole c open_) (hbuffered : Buffered cut' open')
    (hreceived : cut'.received = c.cut.received) (hpublished : cut'.published = c.cut.published) :
    Whole { c with cut := cut' } open' := by
  have hext (t : String) : Extends c { c with cut := cut' } t := by
    refine ⟨id, ?_, ⟨[], by simpa using hpublished⟩, rfl⟩
    intro x hx
    exact hreceived.symm ▸ hx
  refine ⟨h.kept, hbuffered, ?_, ?_, ?_, ?_, ?_⟩
  · refine h.live.imp id fun hall t ht => ?_
    obtain ⟨live, hcovers⟩ := hall t ht
    exact ⟨live, hcovers.extends (hext t)⟩
  · dsimp only
    rw [hreceived]
    exact h.increasing
  · dsimp only
    rw [hreceived, hpublished]
    exact h.bounded
  · dsimp only
    rw [hreceived]
    exact h.silent
  · intro r hr
    exact ⟨(h.recovered r hr).1, (h.recovered r hr).2.extends (hext r.topic)⟩

theorem Whole.discard (closing : List CaptureEntry) (h : Whole c (closing ++ open_)) :
    Whole (c.discard closing) open_ :=
  h.of_buffers (h.buffered.discard closing) (received_discard c.cut closing)
    (published_discard c.cut closing)

/-- What a landing that installs its topic does. -/
structure Lands (c c' : Connection) (topic : String) (live : LiveSince)
    (extra : List Received) : Prop where
  slots : c'.ud.subscriptions = c.ud.subscriptions.add topic
  received : c'.cut.received = c.cut.received ++ extra
  published : c'.cut.published = c.cut.published
  since : c'.liveSince = c.liveSince.set topic live
  installedAt : live.installedAt = c.cut.published.length
  closed : c.flushClosed = true → c'.flushClosed = true
  others : ∀ t, t ≠ topic → envelopes t extra = []
  increasing : (envelopes topic extra).Pairwise (· < ·)
  bounded : ∀ n ∈ envelopes topic extra, n < c.cut.published.length
  complete : c'.flushClosed = true ∨ .truncated topic ∈ extra ∨
    ∀ f ∈ framesOf topic c.cut.published live.answersFrom,
      f.covered live.floor = true ∨ .envelope topic f.index ∈ extra
  recovered : c'.recovered = c.recovered ∨ ∃ r, c'.recovered = c.recovered ++ [r] ∧
    r.topic = topic ∧ r.openedAt = live.answersFrom ∧ r.floor = live.floor

/-- A landing on a topic that was not held: nothing of it had reached the client before. -/
theorem Whole.lands (live : LiveSince) (extra : List Received) (h : Whole c open_)
    (hfree : topic ∉ c.ud.subscriptions) (hkept : Kept c'.ud) (hbuffered : Buffered c'.cut open')
    (hlands : Lands c c' topic live extra) : Whole c' open' := by
  have hmem (t : String) : t ∈ c'.ud.subscriptions ↔ t = topic ∨ t ∈ c.ud.subscriptions := by
    rw [hlands.slots, JsSet.mem_add]
  have hreceived : ∀ x ∈ c.cut.received, x ∈ c'.cut.received := by
    intro x hx
    rw [hlands.received]
    exact mem_append_left _ hx
  have hself : c'.liveSince.get topic = some live := by
    rw [hlands.since, JsMap.get_set_self]
  have hext : ∀ t ∈ c.ud.subscriptions, Extends c c' t := by
    intro t ht
    refine ⟨hlands.closed, hreceived, ⟨[], by simpa using hlands.published⟩, ?_⟩
    rw [hlands.since, JsMap.get_set, if_neg]
    rintro rfl
    exact hfree ht
  have hcovers : c'.flushClosed = true ∨ LiveCovers c' topic live := by
    refine hlands.complete.imp id fun hcomplete => ⟨hself, ?_, ?_⟩
    · rw [hlands.installedAt, hlands.published]
    · rw [hlands.received, hlands.published]
      refine hcomplete.imp (mem_append_right _) fun hall f hf _ => ?_
      exact (hall f hf).imp id (mem_append_right _)
  refine ⟨hkept, hbuffered, ?_, ?_, ?_, ?_, ?_⟩
  · rcases h.live with hclosed | hall
    · exact .inl (hlands.closed hclosed)
    · refine hcovers.imp id fun hcovers t ht => ?_
      rcases (hmem t).mp ht with rfl | ht
      · exact ⟨live, hcovers⟩
      · obtain ⟨old, hold⟩ := hall t ht
        exact ⟨old, hold.extends (hext t ht)⟩
  · intro t
    rw [hlands.received, envelopes_append]
    by_cases ht : t = topic
    · subst ht
      rw [h.silent t hfree, nil_append]
      exact hlands.increasing
    · rw [hlands.others t ht, append_nil]
      exact h.increasing t
  · intro t n hn
    rw [hlands.received, envelopes_append] at hn
    rw [hlands.published]
    rcases mem_append.mp hn with hn | hn
    · exact h.bounded t n hn
    · by_cases ht : t = topic
      · subst ht
        exact hlands.bounded n hn
      · rw [hlands.others t ht] at hn
        cases hn
  · intro t ht
    rw [hmem, not_or] at ht
    rw [hlands.received, envelopes_append, h.silent t ht.2, hlands.others t ht.1]
    rfl
  · have hold : ∀ r ∈ c.recovered, r.topic ∈ c'.ud.subscriptions ∧ NoGap c' r := by
      intro r hr
      obtain ⟨hheld, hgap⟩ := h.recovered r hr
      exact ⟨(hmem _).mpr (.inr hheld), hgap.extends (hext r.topic hheld)⟩
    rcases hlands.recovered with heq | ⟨r, heq, htopic, hopened, hfloor⟩
    · rw [heq]
      exact hold
    · rw [heq]
      intro r' hr'
      rcases mem_concat.mp hr' with hr' | rfl
      · exact hold r' hr'
      · refine ⟨(hmem _).mpr (.inl htopic), ?_⟩
        rw [NoGap, htopic, hopened, hfloor]
        refine hcovers.imp id fun hcovers => ?_
        refine hcovers.delivered.imp id fun hall => ⟨live, hself, hcovers.installed, ?_⟩
        exact fun f hf hlt => (hall f hf hlt).imp id .inr

/-- The frames of a capture that the membership of its topic does not answer for are covered. -/
def Spans (c : Connection) (capture : CaptureEntry) (floor : ℤ) : Prop :=
  c.flushClosed = true ∨ .truncated capture.topic ∈ c.cut.received ∨
    ∀ live ∈ c.liveSince.get capture.topic,
      ∀ f ∈ framesOf capture.topic c.cut.published capture.openedAt,
        f.index < live.answersFrom → f.covered floor = true

instance (c : Connection) (capture : CaptureEntry) (floor : ℤ) :
    Decidable (Spans c capture floor) := by
  unfold Spans
  infer_instance

theorem Whole.recover (h : Whole c open_) (hheld : capture.topic ∈ c.ud.subscriptions)
    (hspans : Spans c capture (capture.floor covered)) :
    Whole (c.recover capture covered) open_ := by
  have hgap : NoGap c
      { topic := capture.topic, openedAt := capture.openedAt, floor := capture.floor covered } := by
    rcases h.live with hclosed | hall
    · exact .inl hclosed
    · obtain ⟨live, hcovers⟩ := hall capture.topic hheld
      rcases hspans with hclosed | hmarker | hspans
      · exact .inl hclosed
      · exact .inr (.inl hmarker)
      · refine hcovers.delivered.elim (fun hmarker => .inr (.inl hmarker)) fun hdelivered => ?_
        refine .inr (.inr ⟨live, hcovers.get, hcovers.installed, ?_⟩)
        intro f hf hlt
        by_cases hbefore : f.index < live.answersFrom
        · exact .inl (hspans live hcovers.get f hf hbefore)
        · have hfrom := not_lt.mp hbefore
          have hframe := mem_framesOf.mpr ⟨hfrom, (mem_framesOf.mp hf).2⟩
          exact .inr ((hdelivered f hframe hlt).imp (fun hcovered => ⟨hfrom, hcovered⟩) id)
  refine ⟨h.kept, h.buffered, ?_, h.increasing, h.bounded, h.silent, ?_⟩
  · refine h.live.imp id fun hall t ht => ?_
    obtain ⟨live, hcovers⟩ := hall t ht
    exact ⟨live, hcovers.get, hcovers.installed, hcovers.delivered⟩
  · intro r hr
    rcases mem_concat.mp hr with hr | rfl
    · exact h.recovered r hr
    · exact ⟨hheld, hgap⟩

/-! ## The fresh exit -/

theorem Kept.install {token : ℕ} (h : Kept ud)
    (hgrants : (settlePendingSubscribe ud topic token true).1 = true) :
    Kept (addLogical (settlePendingSubscribe ud topic token true).2 topic) := by
  rw [settlePendingSubscribe] at hgrants ⊢
  split at hgrants
  · cases hgrants
  · next entry hget =>
    intro t ht entry' hsome
    rcases get_leave_some hsome with ⟨-, heq⟩ | ⟨hne, hold⟩
    · rw [heq]
      simpa using Or.inr hgrants
    · rcases JsSet.mem_add.mp ht with heq | ht
      · exact absurd heq.symm hne
      · exact h t ht entry' hold

theorem landFresh_plain (h : Kept c.ud)
    (hinstalled : (c.landFresh a none covered answers).1 ≠ .refused) :
    Kept (c.landFresh a none covered answers).2.ud ∧
      (c.landFresh a none covered answers).2.cut = c.cut ∧
      ∃ live extra, Lands c (c.landFresh a none covered answers).2 a.topic live extra := by
  obtain ⟨audit, hauthorize⟩ := authorize_eq c a
  have hsubs := settlePending_subscriptions c.ud a.topic a.token true
  rw [landFresh, hauthorize] at hinstalled ⊢
  dsimp only at hinstalled ⊢
  split at hinstalled
  · exact absurd rfl hinstalled
  · next hgrants =>
    rw [if_neg hgrants]
    split at hinstalled
    · exact absurd rfl hinstalled
    · next hopen =>
      rw [if_neg hopen]
      refine ⟨h.install (by simpa using hgrants), rfl,
        ⟨c.cut.published.length, c.cut.published.length, 0⟩, [], ?_⟩
      refine ⟨congrArg (JsSet.add · a.topic) hsubs, (append_nil _).symm, rfl, rfl, rfl, id,
        fun _ _ => rfl, List.Pairwise.nil, fun n hn => (by cases hn), ?_, .inl rfl⟩
      right
      right
      intro f hf
      dsimp only at hf
      rw [framesOf_length] at hf
      cases hf

/-- The fresh exit that installs and flushes its capture. -/
theorem landFresh_flushed (h : Kept c.ud) (hcaptured : Captured c.cut capture)
    (htopic : capture.topic = a.topic)
    (hinstalled : (c.landFresh a (some capture) covered answers).1 ≠ .refused) :
    Kept (c.landFresh a (some capture) covered answers).2.ud ∧
      ∃ live extra, Lands c (c.landFresh a (some capture) covered answers).2 a.topic live extra ∧
        (c.landFresh a (some capture) covered answers).2.cut =
          unregister { c.cut with received := c.cut.received ++ extra } capture := by
  obtain ⟨audit, hauthorize⟩ := authorize_eq c a
  have hsubs := settlePending_subscriptions c.ud a.topic a.token true
  obtain ⟨extra, hflush, hothers, hincreasing, hbounded, hcomplete⟩ :=
    flushResumeTopic_spec hcaptured covered answers
  rw [htopic] at hothers hincreasing hbounded hcomplete
  have hreceived : (flushResumeTopic capture covered answers c.cut).2.received =
      c.cut.received ++ extra := by
    rw [hflush]
    rfl
  have hpublished : (flushResumeTopic capture covered answers c.cut).2.published =
      c.cut.published := by
    rw [hflush]
    rfl
  rw [landFresh, hauthorize] at hinstalled ⊢
  dsimp only at hinstalled ⊢
  split at hinstalled
  · exact absurd rfl hinstalled
  · next hgrants =>
    rw [if_neg hgrants]
    split at hinstalled
    · exact absurd rfl hinstalled
    · next hopen =>
      rw [if_neg hopen]
      have hkept := h.install (by simpa using hgrants)
      split
      · refine ⟨hkept, ⟨c.cut.published.length, capture.openedAt, capture.floor covered⟩, extra,
          ?_, hflush⟩
        exact ⟨congrArg (JsSet.add · a.topic) hsubs, hreceived, hpublished, rfl, rfl,
          fun _ => rfl, hothers, hincreasing, hbounded, .inl rfl, .inl rfl⟩
      · next husable =>
        refine ⟨hkept, ⟨c.cut.published.length, capture.openedAt, capture.floor covered⟩,
          extra, ?_, hflush⟩
        refine ⟨congrArg (JsSet.add · a.topic) hsubs, hreceived, hpublished, rfl, rfl, id,
          hothers, hincreasing, hbounded, .inr (hcomplete (by simpa using husable)), ?_⟩
        exact .inr ⟨_, rfl, htopic, rfl, rfl⟩

end AdapterWs.Subscribe
