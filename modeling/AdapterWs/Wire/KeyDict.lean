import AdapterWs.Lib.JsMap
import AdapterWs.Wire.Bytes

/-!
# Key dictionaries and delta stamps

A key travels once with a short id, and then as the id. Ids are bounded: at the cap a key takes the
id of the one used longest ago, unless this frame used it, and travels inline where there is none.
The server stamp of a frame is the difference to the one before.
-/

namespace AdapterWs.Wire

open JsString Throwing

/-- An interned key. -/
structure KeyEntry where
  id : ℕ
  lastUsed : ℕ

/-- The writer's dictionary. -/
structure KeyEncodeDict where
  maxEntries : ℕ
  byKey : JsMap JsString KeyEntry
  nextId : ℕ
  clock : ℕ

namespace KeyEncodeDict

/-- `new KeyEncodeDict(maxEntries)`. -/
def create (maxEntries : ℕ) : KeyEncodeDict := ⟨maxEntries, .empty, 0, 0⟩

/-- `beginFrame()`. -/
def beginFrame (e : KeyEncodeDict) : KeyEncodeDict := { e with clock := e.clock + 1 }

/-- The entry used longest ago, of those that this frame did not use. -/
def victimStep (clock : ℕ) (victim : Option (JsString × KeyEntry)) (entry : JsString × KeyEntry) :
    Option (JsString × KeyEntry) :=
  if entry.2.lastUsed < clock && victim.all fun v => decide (entry.2.lastUsed < v.2.lastUsed) then
    some entry
  else victim

def victim (e : KeyEncodeDict) : Option (JsString × KeyEntry) :=
  e.byKey.entries.foldl (victimStep e.clock) none

/-- `_alloc()`. -/
def alloc (e : KeyEncodeDict) : Option ℕ × KeyEncodeDict :=
  if e.nextId < e.maxEntries then (some e.nextId, { e with nextId := e.nextId + 1 })
  else
    match e.victim with
    | none => (none, e)
    | some (key, entry) => (some entry.id, { e with byKey := e.byKey.delete key })

/-- `writeKey(w, key)`. -/
def writeKey (e : KeyEncodeDict) (key : JsString) : Bytes × KeyEncodeDict :=
  match e.byKey.get key with
  | some entry =>
    (varint (entry.id + 2),
      { e with byKey := e.byKey.set key { entry with lastUsed := e.clock } })
  | none =>
    match e.alloc with
    | (none, e) => (varint 1 ++ str key, e)
    | (some id, e) =>
      (varint 0 ++ varint id ++ str key, { e with byKey := e.byKey.set key ⟨id, e.clock⟩ })

end KeyEncodeDict

/-- The reader's dictionary. -/
structure KeyDecodeDict where
  byId : JsMap ℕ JsString

namespace KeyDecodeDict

/-- `new KeyDecodeDict()`. -/
def create : KeyDecodeDict := ⟨.empty⟩

end KeyDecodeDict

/-- The bytes beside a dictionary. -/
def onInput {D α : Type} (x : Throwing Bytes α) : Throwing (D × Bytes) α :=
  x.onPart Prod.snd fun s input => (s.1, input)

/-- `byId.set(id, key)`. -/
def bindId (id : ℕ) (key : JsString) : Throwing (KeyDecodeDict × Bytes) Unit := fun s =>
  (some (), (⟨s.1.byId.set id key⟩, s.2))

/-- `byId.get(id)`, where a missing one gives the frame up. -/
def resolve (id : ℕ) : Throwing (KeyDecodeDict × Bytes) JsString := fun s => (s.1.byId.get id, s)

/-- `readKey(r)`. -/
def readKey : Throwing (KeyDecodeDict × Bytes) JsString := do
  let v ← onInput readVarint
  if v = 0 then
    let id ← onInput readVarint
    let key ← onInput readStr
    bindId id key
    pure key
  else if v = 1 then onInput readStr
  else resolve (v - 2)

/-- The reader resolves each id to the key the writer bound it to. -/
structure Mirrors (e : KeyEncodeDict) (d : KeyDecodeDict) : Prop where
  resolves : ∀ key entry, e.byKey.get key = some entry → d.byId.get entry.id = some key
  fresh : ∀ key entry, e.byKey.get key = some entry → entry.id < e.nextId

theorem mirrors_create (maxEntries : ℕ) : Mirrors (.create maxEntries) .create :=
  ⟨fun _ _ h => by simp [KeyEncodeDict.create] at h, fun _ _ h => by simp [KeyEncodeDict.create] at h⟩

variable {e : KeyEncodeDict} {d : KeyDecodeDict}

theorem Mirrors.beginFrame (h : Mirrors e d) : Mirrors e.beginFrame d := ⟨h.resolves, h.fresh⟩

namespace KeyEncodeDict

theorem victimStep_mem {clock : ℕ} {l : List (JsString × KeyEntry)} {victim p}
    (h : l.foldl (victimStep clock) victim = some p) : victim = some p ∨ p ∈ l := by
  induction l generalizing victim with
  | nil => exact .inl h
  | cons q l ih =>
    rcases ih h with hq | hq
    · rw [victimStep] at hq
      split_ifs at hq
      · exact .inr (Option.some.inj hq ▸ (.head _))
      · exact .inl hq
    · exact .inr (.tail _ hq)

theorem get_victim {key : JsString} {entry : KeyEntry} (h : e.victim = some (key, entry)) :
    e.byKey.get key = some entry :=
  JsMap.get_eq_some_iff.mpr ((victimStep_mem h).resolve_left (by simp))

/-- An id that is handed out is bound to no key that is left. -/
theorem alloc_spec (h : Mirrors e d) {id : ℕ} {e' : KeyEncodeDict} (halloc : e.alloc = (some id, e')) :
    id < e'.nextId ∧ e.nextId ≤ e'.nextId ∧ ∀ key entry, e'.byKey.get key = some entry →
      e.byKey.get key = some entry ∧ entry.id ≠ id := by
  rw [alloc] at halloc
  split_ifs at halloc
  · obtain ⟨hid, rfl⟩ := Prod.mk.inj halloc
    cases hid
    exact ⟨Nat.lt_succ_self _, Nat.le_succ _, fun key entry hget =>
      ⟨hget, (h.fresh key entry hget).ne⟩⟩
  · cases hvictim : e.victim with
    | none => simp [hvictim] at halloc
    | some p =>
      obtain ⟨victim, entry⟩ := p
      rw [hvictim] at halloc
      obtain ⟨hid, rfl⟩ := Prod.mk.inj halloc
      cases hid
      have hbound := get_victim hvictim
      refine ⟨h.fresh victim entry hbound, le_rfl, fun key other hget => ?_⟩
      rw [JsMap.get_delete] at hget
      split_ifs at hget with hne
      refine ⟨hget, fun hsame => hne ?_⟩
      have hother := h.resolves key other hget
      rw [hsame, h.resolves victim entry hbound] at hother
      exact Option.some.inj hother

theorem alloc_none {e' : KeyEncodeDict} (halloc : e.alloc = (none, e')) : e' = e := by
  rw [alloc] at halloc
  split_ifs at halloc
  · cases (Prod.mk.inj halloc).1
  · cases hvictim : e.victim with
    | none =>
      rw [hvictim] at halloc
      exact (Prod.mk.inj halloc).2.symm
    | some p =>
      rw [hvictim] at halloc
      cases (Prod.mk.inj halloc).1

end KeyEncodeDict

theorem gives_onInput {D α : Type} {x : Throwing Bytes α} {input rest : Bytes} {a : α}
    (h : x.Gives input a rest) (dict : D) : (onInput x).Gives (dict, input) a (dict, rest) := by
  rw [Gives, onInput, Throwing.onPart, show x input = _ from h]

theorem readKey_writeKey (h : Mirrors e d) {key : JsString} (hkey : isText key = true)
    (rest : Bytes) :
    ∃ d', readKey.Gives (d, (e.writeKey key).1 ++ rest) key (d', rest) ∧
      Mirrors (e.writeKey key).2 d' := by
  cases hget : e.byKey.get key with
  | some entry =>
    rw [KeyEncodeDict.writeKey, hget]
    refine ⟨d, (gives_onInput (readVarint_varint _ rest) d).bind ?_, fun k entry' hk => ?_,
      fun k entry' hk => ?_⟩
    · rw [if_neg (by omega), if_neg (by omega), Nat.add_sub_cancel, Gives, resolve,
        h.resolves key entry hget]
    · rw [JsMap.get_set] at hk
      split_ifs at hk with heq
      · cases hk
        exact heq ▸ h.resolves key entry hget
      · exact h.resolves k entry' hk
    · rw [JsMap.get_set] at hk
      split_ifs at hk with heq
      · cases hk
        exact h.fresh key entry hget
      · exact h.fresh k entry' hk
  | none =>
    cases halloc : e.alloc with
    | mk id e' =>
      cases id with
      | none =>
        rw [KeyEncodeDict.writeKey, hget]
        simp only [halloc]
        refine ⟨d, ?_, KeyEncodeDict.alloc_none halloc ▸ h⟩
        rw [List.append_assoc]
        refine (gives_onInput (readVarint_varint _ _) d).bind ?_
        rw [if_neg Nat.one_ne_zero, if_pos rfl]
        exact gives_onInput (readStr_str hkey rest) d
      | some id =>
        obtain ⟨hlt, hle, hleft⟩ := KeyEncodeDict.alloc_spec h halloc
        rw [KeyEncodeDict.writeKey, hget]
        simp only [halloc]
        refine ⟨⟨d.byId.set id key⟩, ?_, fun k entry' hk => ?_, fun k entry' hk => ?_⟩
        · rw [List.append_assoc, List.append_assoc]
          refine (gives_onInput (readVarint_varint _ _) d).bind ?_
          rw [if_pos rfl]
          exact (gives_onInput (readVarint_varint _ _) d).bind
            ((gives_onInput (readStr_str hkey rest) d).bind
              (Gives.bind (a := ()) rfl (gives_pure _ _)))
        · rw [JsMap.get_set] at hk ⊢
          split_ifs at hk with heq
          · cases hk
            rw [if_pos rfl, heq]
          · obtain ⟨hold, hne⟩ := hleft k entry' hk
            rw [if_neg hne.symm]
            exact h.resolves k entry' hold
        · rw [JsMap.get_set] at hk
          split_ifs at hk with heq
          · cases hk
            exact hlt
          · exact (h.fresh k entry' (hleft k entry' hk).1).trans_le hle

/-! ## Stamps -/

/-- What the time source answers: it throws, no finite number from zero, or a number's floor. -/
inductive TimeReading
  | throws
  | invalid
  | at (t : ℕ)
  deriving DecidableEq

/-- The reading, unless the source throws. -/
def TimeReading.value : TimeReading → Option (Option ℕ)
  | .throws => none
  | .invalid => some none
  | .at t => some (some t)

/-- `writeDeltaStamp(w, dict)`, and the `lastT` after it. -/
def writeDeltaStamp (lastT : Option ℕ) (reading : Option ℕ) : Bytes × ℕ :=
  match lastT with
  | none => (varint (reading.getD 0), reading.getD 0)
  | some last =>
    let d := reading.getD last - last
    (varint d, last + d)

/-- `readDeltaStamp(r, dict)`; the stamp is the `lastT` after it. -/
def readDeltaStamp (lastT : Option ℕ) : Throwing Bytes ℕ := do
  let v ← readVarint
  pure (match lastT with
    | none => v
    | some last => last + v)

theorem readDeltaStamp_writeDeltaStamp (lastT reading : Option ℕ) (rest : Bytes) :
    (readDeltaStamp lastT).Gives ((writeDeltaStamp lastT reading).1 ++ rest)
      (writeDeltaStamp lastT reading).2 rest := by
  cases lastT with
  | none => exact (readVarint_varint _ rest).map
  | some last => exact (readVarint_varint _ rest).map

end AdapterWs.Wire
