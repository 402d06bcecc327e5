import AdapterWs.Crdt.RecordStep

/-!
# CRDT authority: what a record step keeps

A record step changes the stores that exist in place, keeping what they captured and what the
host confirmed, and arms at most one new store, which captures the document as it then is. The
document only merges, and the log of accepted updates only grows. `Effect` says all of this once,
and the invariants of what was captured follow from it.
-/

namespace AdapterWs.Crdt

open List TopicRecord

variable {Y : Yjs} {Topic : Type} {cfg : Config} {live : Bool}

/-! ## Stores -/

/-- A store's columns agree: whatever says that the host wrote the bytes is confirmed by the host
itself. -/
structure StoreCall.Honest (c : StoreCall) : Prop where
  /-- An answer that is not `false`, before the store was abandoned, is a confirmation. -/
  answered : c.abandoned = false → c.phase = .answered (.resolved false) → c.confirmed = true
  /-- So is a durable outcome. -/
  settled : c.phase = .settled .durable → c.confirmed = true
  /-- So is a chain that resolved to it. -/
  chained : c.chain = some .durable → c.confirmed = true

/-- A store later in the run: the capture stays, and promises stay resolved. -/
structure Follows (c c' : StoreCall) : Prop where
  /-- The bytes stay. -/
  blob_eq : c'.blob = c.blob
  /-- So does what they hold. -/
  captured_eq : c'.captured = c.captured
  /-- A confirmation stays. -/
  confirmed : c.confirmed = true → c'.confirmed = true
  /-- A chain resolves once. -/
  chain : ∀ outcome, c.chain = some outcome → c'.chain = some outcome
  /-- An abandoned store stays abandoned. -/
  abandoned : c.abandoned = true → c'.abandoned = true
  /-- The columns stay in agreement. -/
  honest : c.Honest → c'.Honest

variable (c : StoreCall)

theorem Follows.refl : Follows c c :=
  ⟨rfl, rfl, id, fun _ => id, id, id⟩

theorem Follows.trans {c d e : StoreCall} (h₁ : Follows c d) (h₂ : Follows d e) : Follows c e :=
  ⟨h₂.blob_eq.trans h₁.blob_eq, h₂.captured_eq.trans h₁.captured_eq,
    fun h => h₂.confirmed (h₁.confirmed h), fun o h => h₂.chain o (h₁.chain o h),
    fun h => h₂.abandoned (h₁.abandoned h), fun h => h₂.honest (h₁.honest h)⟩

theorem follows_join (token : FlushToken) : Follows c (c.join token) :=
  ⟨rfl, rfl, id, fun _ => id, id, fun h => ⟨h.answered, h.settled, h.chained⟩⟩

theorem follows_leave (token : FlushToken) : Follows c (c.leave token) :=
  ⟨rfl, rfl, id, fun _ => id, id, fun h => ⟨h.answered, h.settled, h.chained⟩⟩

/-- Giving a store up releases its chain with a failure, never with a durable outcome. -/
theorem follows_abandon (reason : String) (silent : Bool) :
    Follows c (c.abandon reason silent) := by
  refine ⟨rfl, rfl, id, fun o h => ?_, fun _ => rfl, fun h => ⟨?_, h.settled, ?_⟩⟩
  · simp [StoreCall.abandon, h]
  · intro ha
    cases ha
  · intro hch
    cases hc : c.chain with
    | none => simp [StoreCall.abandon, hc] at hch
    | some o =>
      simp only [StoreCall.abandon, hc, Option.getD_some, Option.some.injEq] at hch
      exact h.chained (hch ▸ hc)

/-- The stores that exist, changed in their places. -/
structure InPlace (l m : List StoreCall) : Prop where
  /-- None comes or goes. -/
  length_eq : m.length = l.length
  /-- Each follows the one in its place. -/
  follows : ∀ (k : ℕ) c, l[k]? = some c → ∃ c', m[k]? = some c' ∧ Follows c c'

theorem InPlace.refl (l : List StoreCall) : InPlace l l :=
  ⟨rfl, fun _ c hc => ⟨c, hc, .refl c⟩⟩

variable {l : List StoreCall}

theorem InPlace.from {m : List StoreCall} (h : InPlace l m) {k : ℕ} {c' : StoreCall}
    (hc' : m[k]? = some c') : ∃ c, l[k]? = some c ∧ Follows c c' := by
  have hk : k < l.length := h.length_eq ▸ (List.getElem?_eq_some_iff.mp hc').1
  obtain ⟨d, hd, hf⟩ := h.follows k _ (getElem?_eq_getElem hk)
  rw [hc'] at hd
  cases hd
  exact ⟨_, getElem?_eq_getElem hk, hf⟩

theorem inPlace_map {f : StoreCall → StoreCall} (hf : ∀ c, Follows c (f c)) : InPlace l (l.map f) :=
  ⟨length_map f, fun k c hc => ⟨f c, by rw [getElem?_map, hc]; rfl, hf c⟩⟩

theorem inPlace_modify {k : ℕ} {c : StoreCall} {f : StoreCall → StoreCall} (hc : l[k]? = some c)
    (hf : Follows c (f c)) : InPlace l (l.modify k f) := by
  refine ⟨length_modify .., fun i d hd => ?_⟩
  by_cases hi : k = i
  · subst hi
    rw [hc] at hd
    cases hd
    exact ⟨f c, by simp [hc], hf⟩
  · exact ⟨d, by simp [hi, hd], .refl d⟩

/-! ## Records -/

/-- What one record step does: the stores in place, and the stores it arms. -/
structure Effect (cfg : Config) (r r' : TopicRecord Y Topic) (kept armed : List StoreCall) :
    Prop where
  /-- New stores come last. -/
  stores_eq : r'.stores = kept ++ armed
  /-- The others stay in place. -/
  inPlace : InPlace r.stores kept
  /-- At most one store is armed; it captures the document as it is, and cleans the record. -/
  armed_eq : armed = [] ∨ r'.dirty = false ∧ ∃ flush q, armed = [TopicRecord.capture flush q] ∧
    (q : TopicRecord Y Topic).doc = r'.doc ∧ q.accepted = r'.accepted
  /-- The document merges nothing, something unheeded, or one accepted update. -/
  merges : (r'.accepted = r.accepted ∧
      (r'.doc = r.doc ∨ ∃ bytes, r'.doc = (Y.applyUpdate r.doc bytes).1)) ∨
    r.loaded = true ∧ ∃ u, r'.accepted = r.accepted ++ [u] ∧
      r'.doc = (Y.applyUpdate r.doc u).1 ∧ (Y.applyUpdate r.doc u).2 = true
  /-- With a store hook, a record becomes clean by arming a store only. -/
  clean : cfg.hasStore = true → r'.dirty = false →
    armed ≠ [] ∨ r.dirty = false ∧ r'.accepted = r.accepted
  /-- A loaded record stays loaded. -/
  loaded : r.loaded = true → r'.loaded = true
  /-- A record without stores becomes dirty by an edit only. -/
  dirty : r.stores = [] → r.dirty = false → r'.dirty = true → r.loaded = true
  /-- A store is armed for a loaded record, or for a dirty one. -/
  armed_for : armed ≠ [] → r.loaded = true ∨ r.dirty = true

section Effects

variable {r r' : TopicRecord Y Topic}

variable {kept : List StoreCall}

/-- A step that leaves the document and the log alone, and does not clean the record. -/
theorem effect_keep (hstores : r'.stores = kept) (hin : InPlace r.stores kept)
    (hdoc : r'.doc = r.doc) (hacc : r'.accepted = r.accepted)
    (hloaded : r.loaded = true → r'.loaded = true)
    (hdirty : r'.dirty = r.dirty ∨ r'.dirty = true ∧ r.stores ≠ []) : Effect cfg r r' kept [] := by
  refine ⟨by simpa using hstores, hin, .inl rfl, .inl ⟨hacc, .inl hdoc⟩, fun _ hd => ?_,
    hloaded, fun hs hd hd' => ?_, fun h => absurd rfl h⟩
  · rcases hdirty with hdirty | ⟨hdirty, -⟩
    · exact .inr ⟨hdirty ▸ hd, hacc⟩
    · rw [hdirty] at hd
      cases hd
  · rcases hdirty with hdirty | ⟨-, hne⟩
    · rw [hdirty, hd] at hd'
      cases hd'
    · exact absurd hs hne

/-- A step that leaves the document and the log alone, and then arms a store. -/
theorem effect_storeNow {q : TopicRecord Y Topic} {flush : Option FlushToken}
    (hin : InPlace r.stores q.stores) (hdoc : q.doc = r.doc) (hacc : q.accepted = r.accepted)
    (hloaded : r.loaded = true → q.loaded = true) (hfor : r.loaded = true ∨ r.dirty = true) :
    Effect cfg r (q.storeNow cfg flush) q.stores
      (if cfg.hasStore then [q.capture flush] else []) := by
  rw [storeNow_eq]
  refine ⟨rfl, hin, ?_, .inl ⟨hacc, .inl hdoc⟩, fun hs _ => .inl (by simp [hs]), hloaded,
    (fun _ _ hd => by cases hd), fun _ => hfor⟩
  by_cases hs : cfg.hasStore = true
  · rw [if_pos hs]
    exact .inr ⟨rfl, flush, q, rfl, rfl, rfl⟩
  · rw [if_neg hs]
    exact .inl rfl

theorem effect_edit (u8 : List UInt8) (mono : ℚ) (hl : r.loaded = true) :
    ∃ kept armed, Effect cfg r (r.edit cfg u8 mono) kept armed := by
  by_cases ha : (Y.applyUpdate r.doc u8).2 = true
  · simp only [edit, if_pos ha]
    have hmerge : r.loaded = true ∧ ∃ u, r.accepted ++ [u8] = r.accepted ++ [u] ∧
        (Y.applyUpdate r.doc u8).1 = (Y.applyUpdate r.doc u).1 ∧
        (Y.applyUpdate r.doc u).2 = true := ⟨hl, u8, rfl, rfl, ha⟩
    split
    · refine ⟨r.stores, if cfg.hasStore then [capture none { r with
        doc := (Y.applyUpdate r.doc u8).1, dirty := true
        updatesSinceStore := r.updatesSinceStore + 1, accepted := r.accepted ++ [u8] }] else [],
        ?_⟩
      rw [storeNow_eq]
      refine ⟨rfl, .refl _, ?_, .inr hmerge, fun hs _ => .inl (by simp [hs]),
        fun h => h, fun _ _ _ => hl, fun _ => .inl hl⟩
      by_cases hs : cfg.hasStore = true
      · rw [if_pos hs]
        exact .inr ⟨rfl, none, _, rfl, rfl, rfl⟩
      · rw [if_neg hs]
        exact .inl rfl
    · refine ⟨r.stores, [], ?_⟩
      unfold scheduleStore
      split
      · exact ⟨by simp, .refl _, .inl rfl, .inr hmerge, (fun _ hd => by cases hd), fun h => h,
          fun _ _ _ => hl, fun h => absurd rfl h⟩
      · exact ⟨by simp, .refl _, .inl rfl, .inr hmerge, (fun _ hd => by cases hd), fun h => h,
          fun _ _ _ => hl, fun h => absurd rfl h⟩
  · simp only [edit, if_neg ha]
    exact ⟨r.stores, [], ⟨by simp, .refl _, .inl rfl, .inl ⟨rfl, .inr ⟨u8, rfl⟩⟩,
      fun _ hd => .inr ⟨hd, rfl⟩, fun h => h,
      (fun _ hd hd' => absurd (hd.symm.trans hd') (by simp)), fun h => absurd rfl h⟩⟩

theorem inPlace_expire {token : FlushToken} {reason : String} :
    InPlace r.stores (r.expire cfg live token reason).stores := by
  have hstores : (r.expire cfg live token reason).stores = r.stores.map fun c =>
      if c.lastWaiter token then (c.leave token).abandon reason false
      else if c.inFlight then c.leave token
      else c := by
    simp only [expire, requeue_eq]
    split
    · rfl
    · split <;> rfl
  rw [hstores]
  refine inPlace_map fun c => ?_
  split
  · exact (follows_leave c token).trans (follows_abandon _ reason false)
  · split
    · exact follows_leave c token
    · exact .refl c

theorem follows_dispatch :
    Follows c (if c.abandoned then { c with phase := .answered (.resolved false) }
      else { c with phase := .dispatched, handed := some (waiterDeadline c.waiters none) }) := by
  by_cases ha : c.abandoned = true
  · rw [if_pos ha]
    refine ⟨rfl, rfl, id, fun _ => id, id, fun h => ⟨fun hn => ?_, (fun hs => by cases hs),
      h.chained⟩⟩
    cases ha.symm.trans hn
  · rw [if_neg ha]
    exact ⟨rfl, rfl, id, fun _ => id, id, fun h => ⟨(fun _ hs => by cases hs),
      (fun hs => by cases hs), h.chained⟩⟩

theorem follows_answer (a : StoreAnswer) :
    Follows c { c with
      phase := .answered a
      confirmed := c.confirmed || !c.abandoned && a = .resolved false } := by
  refine ⟨rfl, rfl, fun h => by simp [h], fun _ => id, id, fun h => ⟨fun hn hs => ?_,
    (fun hs => by cases hs), fun hch => by simp [h.chained hch]⟩⟩
  simp only [StorePhase.answered.injEq] at hs
  have hn : c.abandoned = false := hn
  simp [hs, hn]

/-- A reaction reports a durable outcome only for an answer that was a confirmation. -/
theorem follows_settle (a : StoreAnswer) (hp : c.phase = .answered a) :
    Follows c { c with phase := .settled (outcomeOf c.abandoned a) } := by
  refine ⟨rfl, rfl, id, fun _ => id, id, fun h => ⟨(fun _ hs => by cases hs), fun hs => ?_,
    h.chained⟩⟩
  simp only [StorePhase.settled.injEq] at hs
  cases a with
  | rejected err => cases hs
  | resolved refused =>
    unfold outcomeOf at hs
    by_cases ha : c.abandoned = true
    · simp [ha] at hs
    · cases refused with
      | true => simp [ha] at hs
      | false => exact h.answered (by simpa using ha) hp

theorem follows_settleChain (outcome : Outcome) (hp : c.phase = .settled outcome)
    (hch : c.chain = none) : Follows c { c with chain := some (c.chain.getD outcome) } := by
  refine ⟨rfl, rfl, id, (fun o ho => by simp [hch] at ho), id,
    fun h => ⟨h.answered, h.settled, fun hd => ?_⟩⟩
  simp only [hch, Option.getD_none, Option.some.injEq] at hd
  exact h.settled (hd ▸ hp)

theorem effect_settleStore {k : ℕ} {c : StoreCall} {a : StoreAnswer} (hc : r.stores[k]? = some c)
    (hp : c.phase = .answered a) :
    ∃ kept armed, Effect cfg r (r.settleStore cfg live k c a).2 kept armed := by
  have hin : InPlace r.stores (r.stores.modify k fun d =>
      { d with phase := .settled (outcomeOf c.abandoned a) }) :=
    inPlace_modify hc (follows_settle c a hp)
  have hne : r.stores ≠ [] := by
    intro h
    simp [h] at hc
  simp only [settleStore, requeue_eq]
  split
  · exact ⟨_, [], effect_keep rfl hin rfl rfl id (.inl rfl)⟩
  · split
    · exact ⟨_, [], effect_keep rfl hin rfl rfl id (.inr ⟨rfl, hne⟩)⟩
    · split <;> exact ⟨_, [], effect_keep rfl hin rfl rfl id (.inr ⟨rfl, hne⟩)⟩
    · split
      · split
        · rename_i hd
          exact ⟨_, _, effect_storeNow hin rfl rfl id (.inr hd)⟩
        · exact ⟨_, [], effect_keep rfl hin rfl rfl id (.inl rfl)⟩
      · exact ⟨_, [], effect_keep rfl hin rfl rfl id (.inl rfl)⟩

theorem effect_expire {token : FlushToken} {reason : String} :
    ∃ kept armed, Effect cfg r (r.expire cfg live token reason) kept armed := by
  refine ⟨_, [], effect_keep rfl inPlace_expire ?_ ?_ ?_ ?_⟩
  all_goals simp [expire, requeue_eq]
  · split
    · rfl
    · split <;> rfl
  · split
    · rfl
    · split <;> rfl
  · intro h
    split
    · exact h
    · split <;> exact h
  · split
    · exact .inl rfl
    · rename_i newest hlast
      have hne : r.stores ≠ [] := by
        intro h
        simp [h] at hlast
      split
      · exact .inr ⟨rfl, hne⟩
      · exact .inl rfl

/-- Everything that can happen to a record has an effect of this kind. -/
theorem RecordStep.effect {may : Guard Y Topic} {live' : Bool}
    (h : RecordStep cfg may live live' r r') : ∃ kept armed, Effect cfg r r' kept armed := by
  cases h with
  | rejoin => exact ⟨_, [], effect_keep rfl (.refl _) rfl rfl id (.inl rfl)⟩
  | refer => exact ⟨_, [], effect_keep rfl (.refl _) rfl rfl id (.inl rfl)⟩
  | dropRef _ _ hl =>
    simp only [TopicRecord.dropRef]
    split
    · exact ⟨_, [], effect_keep rfl (.refl _) rfl rfl id (.inl rfl)⟩
    · split
      · exact ⟨_, _, effect_storeNow (.refl _) rfl rfl id (.inl hl)⟩
      · exact ⟨_, [], effect_keep rfl (.refl _) rfl rfl id (.inl rfl)⟩
  | edit u8 mono _ hl => exact effect_edit u8 mono hl
  | flushOne token =>
    have hjoin : InPlace r.stores
        (r.stores.map fun c => if c.inFlight then c.join token else c) :=
      inPlace_map fun c => by
        split
        · exact follows_join c token
        · exact .refl c
    simp only [TopicRecord.flushOne]
    split
    · rename_i hif
      simp only [Bool.and_eq_true] at hif
      exact ⟨_, _, effect_storeNow hjoin rfl rfl id (.inl hif.1.1)⟩
    · exact ⟨_, [], effect_keep rfl hjoin rfl rfl id (.inl rfl)⟩
  | forgetFlush token =>
    refine ⟨_, [], effect_keep rfl (inPlace_map fun c => ?_) rfl rfl id (.inl rfl)⟩
    split
    · exact follows_leave c token
    · exact .refl c
  | expire => exact effect_expire
  | fire =>
    simp only [TopicRecord.fire]
    split
    · rename_i hif
      simp only [Bool.and_eq_true] at hif
      exact ⟨_, _, effect_storeNow (.refl _) rfl rfl id (.inr hif.2)⟩
    · exact ⟨_, [], effect_keep rfl (.refl _) rfl rfl id (.inl rfl)⟩
  | loading => exact ⟨_, [], effect_keep rfl (.refl _) rfl rfl id (.inl rfl)⟩
  | hydrate _ malformed a hp hh =>
    obtain ⟨doc, rfl, hdoc⟩ := hydrate_ok hh
    exact ⟨r.stores, [], ⟨by simp, .refl _, .inl rfl, .inl ⟨rfl, hdoc⟩,
      fun _ hd => .inr ⟨hd, rfl⟩, fun _ => rfl,
      (fun _ hd hd' => absurd (hd.symm.trans hd') (by simp)), fun h => absurd rfl h⟩⟩
  | dispatchStore k c hc =>
    exact ⟨_, [], effect_keep rfl (inPlace_modify hc (follows_dispatch c)) rfl rfl id
      (.inl rfl)⟩
  | answerStore k c a hc =>
    exact ⟨_, [], effect_keep rfl (inPlace_modify hc (follows_answer c a)) rfl rfl id
      (.inl rfl)⟩
  | settleStore k c a hc hp => exact effect_settleStore hc hp
  | settleChain k c outcome hc hp hch =>
    exact ⟨_, [], effect_keep rfl (inPlace_modify hc (follows_settleChain c outcome hp hch))
      rfl rfl id (.inl rfl)⟩
  | unload reason =>
    refine ⟨_, [], effect_keep rfl (inPlace_map fun c => ?_) rfl rfl id (.inl rfl)⟩
    split
    · exact follows_abandon c reason true
    · exact .refl c

end Effects

/-! ## What was captured -/

/-- What a record captured is what it accepted, and a durable outcome is a confirmation. -/
structure Faithful (cfg : Config) (r : TopicRecord Y Topic) : Prop where
  /-- The document has merged every accepted update. -/
  merged : ∀ u ∈ r.accepted, Y.Contains (Y.encodeStateAsUpdate r.doc) u
  /-- A store captured a prefix of the log. -/
  captured_le : ∀ c ∈ r.stores, c.captured ≤ r.accepted.length
  /-- Its bytes contain that prefix. -/
  contains : ∀ c ∈ r.stores, ∀ (n : ℕ) u, n < c.captured → r.accepted[n]? = some u →
    Y.Contains c.blob u
  /-- Its columns agree. -/
  honest : ∀ c ∈ r.stores, c.Honest
  /-- A record that is not loaded holds nothing. -/
  unloaded : r.loaded = false → r.accepted = [] ∧ r.dirty = false ∧ r.stores = []
  /-- With a store hook, the newest store of a clean record captured everything. -/
  clean : cfg.hasStore = true → r.dirty = false → r.accepted = [] ∨
    ∃ c, r.stores.getLast? = some c ∧ c.captured = r.accepted.length

theorem faithful_fresh (topic : Topic) (id : UInt32) :
    Faithful cfg (fresh Y cfg topic id) := by
  refine ⟨?_, ?_, ?_, ?_, fun _ => ⟨rfl, rfl, rfl⟩, fun _ _ => .inl rfl⟩ <;>
    simp [fresh]

section Faithful

variable {r r' : TopicRecord Y Topic} {armed : List StoreCall}

theorem Effect.log_prefix (h : Effect cfg r r' kept armed) : r.accepted <+: r'.accepted := by
  rcases h.merges with ⟨hacc, -⟩ | ⟨-, u, hacc, -⟩
  · exact hacc ▸ prefix_rfl
  · exact ⟨[u], hacc.symm⟩

theorem Faithful.effect (h : Faithful cfg r) (he : Effect cfg r r' kept armed) :
    Faithful cfg r' := by
  have hpre := he.log_prefix
  have hmerged : ∀ u ∈ r'.accepted, Y.Contains (Y.encodeStateAsUpdate r'.doc) u := by
    intro u hu
    rcases he.merges with ⟨hacc, hdoc | ⟨bytes, hdoc⟩⟩ | ⟨-, v, hacc, hdoc, hok⟩
    · rw [hdoc]
      exact h.merged u (hacc ▸ hu)
    · rw [hdoc]
      exact Y.contains_mono _ _ _ (h.merged u (hacc ▸ hu))
    · rw [hdoc]
      rw [hacc, mem_append, mem_singleton] at hu
      rcases hu with hu | rfl
      · exact Y.contains_mono _ _ _ (h.merged u hu)
      · exact Y.contains_applied _ _ hok
  -- a store of the new record is one of the old ones, or it captured the new record
  have hstore : ∀ c' ∈ r'.stores, (∃ c ∈ r.stores, Follows c c') ∨
      c'.captured = r'.accepted.length ∧ c'.blob = Y.encodeStateAsUpdate r'.doc ∧ c'.Honest := by
    intro c' hc'
    rw [he.stores_eq, mem_append] at hc'
    rcases hc' with hc' | hc'
    · obtain ⟨k, hk⟩ := getElem?_of_mem hc'
      obtain ⟨c, hc, hf⟩ := he.inPlace.from hk
      exact .inl ⟨c, mem_of_getElem? hc, hf⟩
    · rcases he.armed_eq with harm | ⟨-, flush, q, harm, hdoc, hacc⟩
      · simp [harm] at hc'
      · rw [harm, mem_singleton] at hc'
        subst hc'
        refine .inr ⟨by rw [← hacc]; rfl, by rw [← hdoc]; rfl, ?_⟩
        exact ⟨(fun _ hs => by cases hs), (fun hs => by cases hs), fun hs => by cases hs⟩
  refine ⟨hmerged, fun c' hc' => ?_, fun c' hc' n u hn hu => ?_, fun c' hc' => ?_, fun hl => ?_,
    fun hs hd => ?_⟩
  · rcases hstore c' hc' with ⟨c, hc, hf⟩ | ⟨hcap, -, -⟩
    · rw [hf.captured_eq]
      exact (h.captured_le c hc).trans hpre.length_le
    · exact hcap.le
  · rcases hstore c' hc' with ⟨c, hc, hf⟩ | ⟨-, hblob, -⟩
    · rw [hf.captured_eq] at hn
      rw [hf.blob_eq]
      have hlt := h.captured_le c hc
      obtain ⟨rest, hrest⟩ := hpre
      rw [← hrest, getElem?_append_left (by omega)] at hu
      exact h.contains c hc n u hn hu
    · rw [hblob]
      exact hmerged u (mem_of_getElem? hu)
  · rcases hstore c' hc' with ⟨c, hc, hf⟩ | ⟨-, -, hh⟩
    · exact hf.honest (h.honest c hc)
    · exact hh
  · have hl₀ : r.loaded = false := by
      by_contra hne
      rw [he.loaded (by simpa using hne)] at hl
      cases hl
    obtain ⟨hacc, hd, hs⟩ := h.unloaded hl₀
    have harm : armed = [] := by
      by_contra hne
      rcases he.armed_for hne with h₁ | h₁
      · rw [hl₀] at h₁; cases h₁
      · rw [hd] at h₁; cases h₁
    refine ⟨?_, ?_, ?_⟩
    · rcases he.merges with ⟨hacc', -⟩ | ⟨h₁, -⟩
      · rw [hacc', hacc]
      · rw [hl₀] at h₁; cases h₁
    · by_contra hne
      have := he.dirty hs hd (by simpa using hne)
      rw [hl₀] at this
      cases this
    · rw [he.stores_eq, harm, append_nil, ← length_eq_zero_iff,
        he.inPlace.length_eq, hs, length_nil]
  · rcases he.clean hs hd with harm | ⟨hd₀, hacc⟩
    · rcases he.armed_eq with h₁ | ⟨-, flush, q, harm, -, hacc⟩
      · exact absurd h₁ harm
      · refine .inr ⟨q.capture flush, ?_, by rw [← hacc]; rfl⟩
        rw [he.stores_eq, harm]
        simp
    · rcases h.clean hs hd₀ with h₁ | ⟨c, hc, hcap⟩
      · exact .inl (hacc.trans h₁)
      · rcases he.armed_eq with harm | ⟨-, flush, q, harm, -, hacc'⟩
        · rw [getLast?_eq_getElem?] at hc
          obtain ⟨c', hc', hf⟩ := he.inPlace.follows _ c hc
          refine .inr ⟨c', ?_, by rw [hf.captured_eq, hcap, hacc]⟩
          rw [he.stores_eq, harm, append_nil, getLast?_eq_getElem?,
            he.inPlace.length_eq, hc']
        · refine .inr ⟨q.capture flush, ?_, by rw [← hacc']; rfl⟩
          rw [he.stores_eq, harm]
          simp

/-- What becomes of a record in a run: its log grows, and its stores follow. -/
structure Grows (r r' : TopicRecord Y Topic) : Prop where
  /-- It is a record of the same topic. -/
  topic_eq : r'.topic = r.topic
  /-- The log grows. -/
  log_prefix : r.accepted <+: r'.accepted
  /-- Every store is still in its place. -/
  stores : ∀ (k : ℕ) c, r.stores[k]? = some c → ∃ c', r'.stores[k]? = some c' ∧ Follows c c'

theorem Grows.refl (r : TopicRecord Y Topic) : Grows r r :=
  ⟨rfl, prefix_rfl, fun _ c hc => ⟨c, hc, .refl c⟩⟩

theorem Grows.trans {r'' : TopicRecord Y Topic} (h₁ : Grows r r') (h₂ : Grows r' r'') :
    Grows r r'' := by
  refine ⟨h₂.topic_eq.trans h₁.topic_eq, h₁.log_prefix.trans h₂.log_prefix, fun k c hc => ?_⟩
  obtain ⟨c', hc', hf⟩ := h₁.stores k c hc
  obtain ⟨c'', hc'', hf'⟩ := h₂.stores k c' hc'
  exact ⟨c'', hc'', hf.trans hf'⟩

theorem Effect.grows (h : Effect cfg r r' kept armed) (ht : r'.topic = r.topic) : Grows r r' := by
  refine ⟨ht, h.log_prefix, fun k c hc => ?_⟩
  obtain ⟨c', hc', hf⟩ := h.inPlace.follows k c hc
  refine ⟨c', ?_, hf⟩
  rw [h.stores_eq, List.getElem?_append_left (List.getElem?_eq_some_iff.mp hc').1, hc']

theorem faithful_recordSteps {may : Guard Y Topic} {live' : Bool} (h : Faithful cfg r)
    (hs : RecordSteps cfg may live live' r r') : Faithful cfg r' ∧ Grows r r' := by
  induction hs with
  | refl => exact ⟨h, .refl r⟩
  | tail _ hstep ih =>
    obtain ⟨kept, armed, he⟩ := hstep.effect
    exact ⟨ih.1.effect he, ih.2.trans (he.grows hstep.frame.1)⟩

end Faithful

/-! ## Runs -/

namespace Authority

variable [DecidableEq Topic] {s s' : Authority Y Topic}

/-- The topic map is right and every record of the heap is faithful. -/
structure Sound (cfg : Config) (s : Authority Y Topic) : Prop where
  /-- The topic map is right. -/
  mapped : Mapped s
  /-- Every record is faithful. -/
  faithful : ∀ (i : ℕ) r, s.recs[i]? = some r → Faithful cfg r

theorem sound_start : Sound cfg (start : Authority Y Topic) :=
  ⟨mapped_start, fun i r hr => by simp [start] at hr⟩

theorem sound_step (h : Sound cfg s) {e : Event Topic} (hs : s.step cfg e = some s') :
    Sound cfg s' := by
  refine ⟨mapped_step h.mapped hs, fun i r' hr' => ?_⟩
  rcases step_records h.mapped allows_any hs hr' with
    ⟨t, id, rfl, -⟩ | ⟨r, hr, hsteps, -⟩
  · exact faithful_fresh t id
  · exact (faithful_recordSteps (h.faithful i r hr) hsteps).1

theorem grows_step (h : Sound cfg s) {e : Event Topic} (hs : s.step cfg e = some s') {i : ℕ}
    {r : TopicRecord Y Topic} (hr : s.recs[i]? = some r) :
    ∃ r', s'.recs[i]? = some r' ∧ Grows r r' := by
  rcases moves_step h.mapped allows_any hs with hmv | ⟨t, id, -, hb⟩
  · have hlt : i < s'.recs.length := by
      rw [hmv.length_eq]
      exact (List.getElem?_eq_some_iff.mp hr).1
    refine ⟨_, getElem?_eq_getElem hlt, ?_⟩
    obtain ⟨r₀, hr₀, hsteps⟩ := hmv.records i _ (getElem?_eq_getElem hlt)
    rw [hr] at hr₀
    cases hr₀
    exact (faithful_recordSteps (h.faithful i r hr) hsteps).2
  · refine ⟨r, ?_, .refl r⟩
    rw [hb.recs_eq, List.getElem?_append_left (List.getElem?_eq_some_iff.mp hr).1, hr]

theorem sound_of_reaches {ok : Authority Y Topic → Event Topic → Prop} {es : List (Event Topic)}
    (h : (crdtAuthority Y Topic cfg).ReachesWhere ok es s) : Sound cfg s :=
  Machine.ReachesWhere.invariant (I := Sound cfg) sound_start
    (fun _ _ _ hs _ hstep => sound_step hs hstep) h

end Authority
end AdapterWs.Crdt
