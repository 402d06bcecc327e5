import AdapterWs.Wire.KeyDict

/-!
# Frames of keys

A connection writes a frame of keys after the other, each after `beginFrame`, and the other end
reads as many keys from the same bytes. Ids are taken back from earlier frames only.
-/

namespace AdapterWs.Wire

open JsString Throwing KeyEncodeDict

namespace KeyEncodeDict

/-- The id that a key is assigned, where it is new. -/
def assignedId (e : KeyEncodeDict) (key : JsString) : Option ℕ :=
  match e.byKey.get key with
  | some _ => none
  | none => e.alloc.1

/-- The id that a key is assigned or referenced by. -/
def usedId (e : KeyEncodeDict) (key : JsString) : Option ℕ :=
  match e.byKey.get key with
  | some entry => some entry.id
  | none => e.alloc.1

/-- The bytes of the keys of a frame. -/
def writeKeys (e : KeyEncodeDict) : List JsString → Bytes
  | [] => []
  | key :: keys => (e.writeKey key).1 ++ writeKeys (e.writeKey key).2 keys

end KeyEncodeDict

/-- The live ids are distinct and below the cap, and the reader has each. -/
structure KeysAgree (e : KeyEncodeDict) (d : KeyDecodeDict) : Prop where
  injective : ∀ key key' entry entry', e.byKey.get key = some entry →
    e.byKey.get key' = some entry' → entry.id = entry'.id → key = key'
  bounded : ∀ key entry, e.byKey.get key = some entry → entry.id < e.maxEntries
  contained : ∀ key entry, e.byKey.get key = some entry → d.byId.get entry.id = some key

/-- The rest of a frame is read back, and what follows it holds of the ends. The ids of the frame
so far are used. -/
def FrameLockStep (next : KeyEncodeDict → KeyDecodeDict → Prop) (e : KeyEncodeDict)
    (d : KeyDecodeDict) (used : List ℕ) : List JsString → Prop
  | [] => next e d
  | key :: keys => ∃ d',
      readKey.Gives (d, e.writeKeys (key :: keys)) key (d', (e.writeKey key).2.writeKeys keys) ∧
      KeysAgree (e.writeKey key).2 d' ∧
      (∀ id, e.assignedId key = some id → id ∉ used) ∧
      FrameLockStep next (e.writeKey key).2 d' ((e.usedId key).toList ++ used) keys

/-- The frames are read back. The reader may skip a frame without keys. -/
def KeyLockStep : List (List JsString) → KeyEncodeDict → KeyDecodeDict → Prop
  | [] => fun _ _ => True
  | frame :: frames => fun e d => FrameLockStep (KeyLockStep frames) e.beginFrame d [] frame

/-! ## The invariant -/

/-- The ends mirror, the keys survive UTF-8, and this frame used the entries of its ids. -/
structure Sound (e : KeyEncodeDict) (d : KeyDecodeDict) (used : List ℕ) : Prop where
  mirrors : Mirrors e d
  nextId_le : e.nextId ≤ e.maxEntries
  texts : ∀ key entry, e.byKey.get key = some entry → isText key = true
  used : ∀ id ∈ used, ∃ key entry, e.byKey.get key = some entry ∧ entry.id = id ∧
    entry.lastUsed = e.clock

variable {e : KeyEncodeDict} {d : KeyDecodeDict} {used : List ℕ} {key : JsString} {entry : KeyEntry}
  {id : ℕ} {e' : KeyEncodeDict}

theorem sound_create (maxEntries : ℕ) : Sound (.create maxEntries) .create [] :=
  ⟨mirrors_create maxEntries, Nat.zero_le _,
    fun _ _ h => by simp [create] at h, nofun⟩

theorem Sound.beginFrame (h : Sound e d used) : Sound e.beginFrame d [] :=
  ⟨h.mirrors.beginFrame, h.nextId_le, h.texts, nofun⟩

theorem Mirrors.injective (h : Mirrors e d) {key key' : JsString} {entry' : KeyEntry}
    (hkey : e.byKey.get key = some entry) (hkey' : e.byKey.get key' = some entry')
    (hid : entry.id = entry'.id) : key = key' := by
  have hresolve := h.resolves key entry hkey
  rw [hid, h.resolves key' entry' hkey'] at hresolve
  exact (Option.some.inj hresolve).symm

theorem Sound.keysAgree (h : Sound e d used) : KeysAgree e d :=
  ⟨fun _ _ _ _ => h.mirrors.injective,
    fun key entry hkey => (h.mirrors.fresh key entry hkey).trans_le h.nextId_le,
    h.mirrors.resolves⟩

namespace KeyEncodeDict

theorem lastUsed_victimStep {clock : ℕ} {l : List (JsString × KeyEntry)}
    {victim : Option (JsString × KeyEntry)} (hvictim : ∀ v, victim = some v → v.2.lastUsed < clock)
    {p : JsString × KeyEntry} (h : l.foldl (victimStep clock) victim = some p) :
    p.2.lastUsed < clock := by
  induction l generalizing victim with
  | nil => exact hvictim p h
  | cons q l ih =>
    refine ih (fun v hv => ?_) h
    rw [victimStep] at hv
    split_ifs at hv with hq
    · cases hv
      rw [Bool.and_eq_true, decide_eq_true_eq] at hq
      exact hq.1
    · exact hvictim v hv

theorem lastUsed_victim (h : e.victim = some (key, entry)) : entry.lastUsed < e.clock :=
  lastUsed_victimStep (fun _ hv => by cases hv) h

/-- An id is the next one, or taken back from the victim. -/
theorem alloc_cases (h : e.alloc = (some id, e')) :
    (e.nextId < e.maxEntries ∧ id = e.nextId ∧ e' = { e with nextId := e.nextId + 1 }) ∨
      ∃ victim entry, e.victim = some (victim, entry) ∧ id = entry.id ∧
        e' = { e with byKey := e.byKey.delete victim } := by
  rw [alloc] at h
  split_ifs at h with hlt
  · obtain ⟨hid, rfl⟩ := Prod.mk.inj h
    exact .inl ⟨hlt, (Option.some.inj hid).symm, rfl⟩
  · cases hvictim : e.victim with
    | none => simp [hvictim] at h
    | some p =>
      rw [hvictim] at h
      obtain ⟨hid, rfl⟩ := Prod.mk.inj h
      exact .inr ⟨p.1, p.2, rfl, (Option.some.inj hid).symm, rfl⟩

end KeyEncodeDict

theorem Sound.not_mem_used (h : Sound e d used) (halloc : e.alloc = (some id, e')) : id ∉ used := by
  intro hid
  obtain ⟨key, entry, hkey, hsame, hclock⟩ := h.used id hid
  rcases alloc_cases halloc with ⟨-, rfl, -⟩ | ⟨victim, old, hvictim, rfl, -⟩
  · exact (h.mirrors.fresh key entry hkey).ne hsame
  · have hold := get_victim hvictim
    obtain rfl := h.mirrors.injective hkey hold hsame
    cases hkey.symm.trans hold
    exact (lastUsed_victim hvictim).ne hclock

theorem get_alloc (halloc : e.alloc = (some id, e')) (hkey : e.byKey.get key = some entry)
    (hclock : entry.lastUsed = e.clock) : e'.byKey.get key = some entry := by
  rcases alloc_cases halloc with ⟨-, -, rfl⟩ | ⟨victim, old, hvictim, -, rfl⟩
  · exact hkey
  · have hne : victim ≠ key := by
      rintro rfl
      cases hkey.symm.trans (get_victim hvictim)
      exact (lastUsed_victim hvictim).ne hclock
    simpa [JsMap.get_delete, hne] using hkey

theorem counters_alloc (hle : e.nextId ≤ e.maxEntries) (halloc : e.alloc = (some id, e')) :
    e'.nextId ≤ e'.maxEntries ∧ e'.clock = e.clock := by
  rcases alloc_cases halloc with ⟨hlt, -, rfl⟩ | ⟨_, _, -, -, rfl⟩
  · exact ⟨hlt, rfl⟩
  · exact ⟨hle, rfl⟩

namespace KeyEncodeDict

/-- What a key writes: a reference, the key, or the key with its new id. -/
inductive Writes (e : KeyEncodeDict) (key : JsString) : Prop
  | known (entry : KeyEntry) (get : e.byKey.get key = some entry)
      (used : e.usedId key = some entry.id) (assigned : e.assignedId key = none)
      (writes : e.writeKey key = (varint (entry.id + 2),
        { e with byKey := e.byKey.set key { entry with lastUsed := e.clock } }))
  | inlined (get : e.byKey.get key = none) (used : e.usedId key = none)
      (assigned : e.assignedId key = none) (writes : e.writeKey key = (varint 1 ++ str key, e))
  | new (id : ℕ) (e' : KeyEncodeDict) (get : e.byKey.get key = none)
      (alloc : e.alloc = (some id, e')) (used : e.usedId key = some id)
      (assigned : e.assignedId key = some id)
      (writes : e.writeKey key = (varint 0 ++ varint id ++ str key,
        { e' with byKey := e'.byKey.set key ⟨id, e'.clock⟩ }))

theorem writes (e : KeyEncodeDict) (key : JsString) : e.Writes key := by
  cases hget : e.byKey.get key with
  | some entry =>
    exact .known entry hget (by rw [usedId, hget]) (by rw [assignedId, hget])
      (by rw [writeKey, hget])
  | none =>
    cases halloc : e.alloc with
    | mk id e' =>
      cases id with
      | none =>
        obtain rfl := alloc_none halloc
        exact .inlined hget (by rw [usedId, hget, halloc]) (by rw [assignedId, hget, halloc])
          (by rw [writeKey, hget]; simp only [halloc])
      | some id =>
        exact .new id e' hget halloc (by rw [usedId, hget, halloc])
          (by rw [assignedId, hget, halloc]) (by rw [writeKey, hget]; simp only [halloc])

end KeyEncodeDict

theorem sound_writeKey (h : Sound e d used) (htext : isText key = true) {d' : KeyDecodeDict}
    (hmirrors : Mirrors (e.writeKey key).2 d') :
    Sound (e.writeKey key).2 d' ((e.usedId key).toList ++ used) := by
  cases e.writes key with
  | known entry hget hused hassigned hwrites =>
    rw [hwrites] at hmirrors ⊢
    refine ⟨hmirrors, h.nextId_le, fun k entry' hk => ?_, fun id hid => ?_⟩
    · rw [JsMap.get_set] at hk
      split_ifs at hk with heq
      · exact heq ▸ htext
      · exact h.texts k entry' hk
    · rw [hused] at hid
      rcases List.mem_cons.mp hid with rfl | hid
      · exact ⟨key, _, JsMap.get_set_self _ _ _, rfl, rfl⟩
      · obtain ⟨k, entry', hk, hsame, hclock⟩ := h.used id hid
        by_cases heq : key = k
        · subst heq
          cases hget.symm.trans hk
          exact ⟨key, _, JsMap.get_set_self _ _ _, hsame, rfl⟩
        · exact ⟨k, entry', by rwa [JsMap.get_set, if_neg heq], hsame, hclock⟩
  | inlined hget hused hassigned hwrites =>
    rw [hwrites] at hmirrors ⊢
    rw [hused]
    exact ⟨hmirrors, h.nextId_le, h.texts, h.used⟩
  | new id e' hget halloc hused hassigned hwrites =>
    rw [hwrites] at hmirrors ⊢
    obtain ⟨hle, hclock⟩ := counters_alloc h.nextId_le halloc
    obtain ⟨-, -, hleft⟩ := alloc_spec h.mirrors halloc
    refine ⟨hmirrors, hle, fun k entry' hk => ?_, fun id' hid => ?_⟩
    · rw [JsMap.get_set] at hk
      split_ifs at hk with heq
      · exact heq ▸ htext
      · exact h.texts k entry' (hleft k entry' hk).1
    · rw [hused] at hid
      rcases List.mem_cons.mp hid with rfl | hid
      · exact ⟨key, _, JsMap.get_set_self _ _ _, rfl, rfl⟩
      · obtain ⟨k, entry', hk, hsame, hlast⟩ := h.used id' hid
        have hne : key ≠ k := by
          rintro rfl
          rw [hget] at hk
          cases hk
        exact ⟨k, entry', by rw [JsMap.get_set, if_neg hne, get_alloc halloc hk hlast], hsame,
          hlast.trans hclock.symm⟩

/-- A key that is assigned an id in a frame is not assigned one of the frame. -/
theorem Sound.assignedId_not_mem (h : Sound e d used) (hid : e.assignedId key = some id) :
    id ∉ used := by
  cases e.writes key with
  | known entry hget hused hassigned hwrites => simp [hassigned] at hid
  | inlined hget hused hassigned hwrites => simp [hassigned] at hid
  | new id' e' hget halloc hused hassigned hwrites =>
    cases hassigned.symm.trans hid
    exact h.not_mem_used halloc

theorem eq_of_readKey (hget : e.byKey.get key = none) {key' : JsString} {d' : KeyDecodeDict}
    {rest rest' : Bytes}
    (h : readKey.Gives (d, (e.writeKey key).1 ++ rest) key' (d', rest')) :
    key' = utf8Decode (utf8Encode key) := by
  cases e.writes key with
  | known entry hget' hused hassigned hwrites => simp [hget] at hget'
  | inlined hget' hused hassigned hwrites =>
    rw [hwrites, List.append_assoc] at h
    have hread : readKey.Gives (d, varint 1 ++ (str key ++ rest)) (utf8Decode (utf8Encode key))
        (d, rest) := by
      refine (gives_onInput (readVarint_varint _ _) d).bind ?_
      rw [if_neg Nat.one_ne_zero, if_pos rfl]
      exact gives_onInput (readStr_str_eq key rest) d
    exact (Option.some.inj (Prod.mk.inj (hread.symm.trans h)).1).symm
  | new id e' hget' halloc hused hassigned hwrites =>
    rw [hwrites, List.append_assoc, List.append_assoc] at h
    have hread : readKey.Gives (d, varint 0 ++ (varint id ++ (str key ++ rest)))
        (utf8Decode (utf8Encode key)) (⟨d.byId.set id (utf8Decode (utf8Encode key))⟩, rest) := by
      refine (gives_onInput (readVarint_varint _ _) d).bind ?_
      rw [if_pos rfl]
      exact (gives_onInput (readVarint_varint _ _) d).bind
        ((gives_onInput (readStr_str_eq key rest) d).bind
          (Gives.bind (a := ()) rfl (gives_pure _ _)))
    exact (Option.some.inj (Prod.mk.inj (hread.symm.trans h)).1).symm

/-! ## Frames -/

/-- A frame stays in step exactly if its keys survive UTF-8 and what follows holds. -/
theorem frameLockStep_iff {next : KeyEncodeDict → KeyDecodeDict → Prop} {P : Prop}
    (hnext : ∀ e d used, Sound e d used → (next e d ↔ P)) (h : Sound e d used)
    (keys : List JsString) :
    FrameLockStep next e d used keys ↔ (∀ key ∈ keys, isText key = true) ∧ P := by
  induction keys generalizing e d used with
  | nil => simpa [FrameLockStep] using hnext e d used h
  | cons key keys ih =>
    rw [List.forall_mem_cons, and_assoc]
    constructor
    · rintro ⟨d', hread, hagree, -, hrest⟩
      have htext : isText key = true := by
        cases hget : e.byKey.get key with
        | some entry => exact h.texts key entry hget
        | none => exact utf8Decode_utf8Encode_iff.mp (eq_of_readKey hget hread).symm
      obtain ⟨d'', hread', hmirrors⟩ :=
        readKey_writeKey h.mirrors htext ((e.writeKey key).2.writeKeys keys)
      obtain ⟨rfl, -⟩ := Prod.mk.inj (Prod.mk.inj (hread'.symm.trans hread)).2
      exact ⟨htext, (ih (sound_writeKey h htext hmirrors)).mp hrest⟩
    · rintro ⟨htext, hrest⟩
      obtain ⟨d', hread, hmirrors⟩ :=
        readKey_writeKey h.mirrors htext ((e.writeKey key).2.writeKeys keys)
      have hsound := sound_writeKey h htext hmirrors
      exact ⟨d', hread, hsound.keysAgree, fun _ => h.assignedId_not_mem, (ih hsound).mpr hrest⟩

theorem lockStep_iff (h : Sound e d used) (frames : List (List JsString)) :
    KeyLockStep frames e d ↔ ∀ frame ∈ frames, ∀ key ∈ frame, isText key = true := by
  induction frames generalizing e d used with
  | nil => simp [KeyLockStep]
  | cons frame frames ih =>
    rw [KeyLockStep, List.forall_mem_cons]
    exact frameLockStep_iff (fun _ _ _ h => ih h) h.beginFrame frame

/-- From new dictionaries, with any cap, the ends stay in step exactly while the keys survive
UTF-8. -/
theorem lockStep_iff_isText (maxEntries : ℕ) (frames : List (List JsString)) :
    KeyLockStep frames (.create maxEntries) .create ↔
      ∀ frame ∈ frames, ∀ key ∈ frame, isText key = true :=
  lockStep_iff (sound_create maxEntries) frames

/-- A key that starts with a byte order mark is read without it. -/
theorem not_lockStep_byteOrderMark :
    ¬∀ maxEntries : ℕ, 1 ≤ maxEntries → ∀ frames : List (List JsString),
      KeyLockStep frames (.create maxEntries) .create := by
  intro h
  obtain ⟨d', hread, -⟩ := h 1 le_rfl [[[0xFEFF, 0x61]]]
  have hkey : (readKey (.create, (create 1).beginFrame.writeKeys
      [[0xFEFF, 0x61]])).1 ≠ some [0xFEFF, 0x61] := by decide +kernel
  exact hkey (congrArg Prod.fst hread)

end AdapterWs.Wire
