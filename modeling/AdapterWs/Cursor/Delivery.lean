import AdapterWs.Cursor.Codec

/-!
# Delivery over the streamed cursor wire

The two ends hold the same keys, the same stamp and, for every cursor, value streams that agree.
Each frame is read as the event that was encoded, and the ends agree again.
-/

namespace AdapterWs.Cursor

open JsString Throwing Wire List Option

variable {U V : Type} {json : UserJson U V} {x y : Binary64}
  {entry : JsString × Binary64 × Binary64}

/-! ## What is delivered -/

/-- A pair of coordinates, narrowed. -/
def SamePosition (p : Position) (x y : Binary64) : Prop :=
  ∃ x₀ y₀, p = .object (some x₀) (some y₀) false ∧ x.strictEq x₀.fround = true ∧
    y.strictEq y₀.fround = true

/-- An entry of a bulk frame. -/
def SameEntry (sent : Option (Option JsString × Position))
    (entry : JsString × Binary64 × Binary64) : Prop :=
  ∃ p, sent = some (some entry.1, p) ∧ SamePosition p entry.2.1 entry.2.2

/-- An entry of a catalog. -/
def SameUser (json : UserJson U V) (sent : Option (Option JsString × U)) (entry : JsString × V) :
    Prop :=
  ∃ user, sent = some (some entry.1, user) ∧ entry.2 = json.view user

/-- The same event with the same keys and users, and the coordinates narrowed. -/
def DecodedCursor.Matches (json : UserJson U V) : CursorEvent U → DecodedCursor V → Prop
  | .update data, .update key x y _ => SameEntry data (key, x, y)
  | .bulk data, .bulk entries _ => ∃ sent, data = some sent ∧ List.Forall₂ SameEntry sent entries
  | .remove data, .remove key => data = some (some key)
  | .join data, .join key user => SameUser json data (key, user)
  | .catalog data, .catalog entries =>
    ∃ sent, data = some sent ∧ List.Forall₂ (SameUser json) sent entries
  | _, _ => False

theorem SameEntry.strictEq {key : Option JsString} {extra : Bool}
    (h : SameEntry (some (key, .object (some x) (some y) extra)) entry) :
    entry.2.1.strictEq x.fround = true := by
  obtain ⟨p, hp, x₀, y₀, rfl, hx, -⟩ := h
  cases hp
  exact hx

/-! ## What a frame carries -/

/-- The positions of a frame; there are none where the frame is declined. -/
def framePositions (event : CursorEvent U) (reading : TimeReading) :
    List (JsString × Binary64 × Binary64) :=
  match reading.value, event with
  | some _, .update data => (checkEntry data).toList
  | some _, .bulk data => (data.bind (checkAll checkEntry)).getD []
  | _, _ => []

/-- The users of a frame, with their texts. -/
def frameUsers (json : UserJson U V) : CursorEvent U → List (JsString × JsString)
  | .join data => (checkUser json data).toList
  | .catalog data => (data.bind (checkAll (checkUser json))).getD []
  | _ => []

/-- The keys of a frame. -/
def frameKeys (json : UserJson U V) (event : CursorEvent U) (reading : TimeReading) :
    List JsString :=
  match event with
  | .remove data => data.join.toList
  | _ => (framePositions event reading).map Prod.fst ++ (frameUsers json event).map Prod.fst

/-- No sample of the entries, in order, is lost in the streams of the two ends. -/
def KeepsSigns (es ds : CursorSlots) : List (JsString × Binary64 × Binary64) → Prop
  | [] => True
  | (key, x, y) :: entries =>
    ¬Slot.Lost (slotsFor es key).1 (slotsFor ds key).1 x.fround ∧
    ¬Slot.Lost (slotsFor es key).2 (slotsFor ds key).2 y.fround ∧
    KeepsSigns (writePosition es key x y).2
      (readPosition key (ds, (writePosition es key x y).1)).2.1 entries

instance instDecidableKeepsSigns : ∀ (es ds : CursorSlots)
    (entries : List (JsString × Binary64 × Binary64)), Decidable (KeepsSigns es ds entries)
  | _, _, [] => isTrue trivial
  | es, ds, (key, x, y) :: entries =>
    have : Decidable (KeepsSigns (writePosition es key x y).2
        (readPosition key (ds, (writePosition es key x y).1)).2.1 entries) :=
      instDecidableKeepsSigns _ _ entries
    inferInstanceAs (Decidable (_ ∧ _ ∧ _))

/-- The keys of a frame are text, its users have a text, and no sample of it is lost. -/
def Carries (json : UserJson U V) (s : CursorLink U V) (e : CursorEvent U × TimeReading) : Prop :=
  (∀ key ∈ frameKeys json e.1 e.2, isText key = true) ∧
  (∀ user ∈ frameUsers json e.1, user.2 ≠ []) ∧
  KeepsSigns s.encoder.slots s.decoder.slots (framePositions e.1 e.2)

instance (s : CursorLink U V) (e : CursorEvent U × TimeReading) : Decidable (Carries json s e) :=
  inferInstanceAs (Decidable (_ ∧ _ ∧ _))

/-! ## The two ends -/

theorem slotsFor_set (slots : CursorSlots) (key key' : JsString) (s : Slot × Slot) :
    slotsFor (slots.set key s) key' = if key = key' then s else slotsFor slots key' := by
  rw [slotsFor, JsMap.get_set]
  split_ifs <;> rfl

theorem slotsFor_delete (slots : CursorSlots) (key key' : JsString) :
    slotsFor (slots.delete key) key' =
      if key = key' then (createStreamSlot, createStreamSlot) else slotsFor slots key' := by
  rw [slotsFor, JsMap.get_delete]
  split_ifs <;> rfl

/-- The streams of every cursor agree. -/
def SlotsAgree (es ds : CursorSlots) : Prop :=
  ∀ key, Slot.Agree (slotsFor es key).1 (slotsFor ds key).1 ∧
    Slot.Agree (slotsFor es key).2 (slotsFor ds key).2

/-- The two ends correspond. -/
structure InStep (e : CursorStreamEncodeDict) (d : CursorDecodeDict) : Prop where
  keys : Mirrors e.keys d.keys
  lastT : d.lastT = e.lastT
  slots : SlotsAgree e.slots d.slots

theorem slotsAgree_empty : SlotsAgree .empty .empty := fun _ =>
  ⟨Slot.agree_createStreamSlot, Slot.agree_createStreamSlot⟩

theorem SlotsAgree.delete {es ds : CursorSlots} (h : SlotsAgree es ds) (key : JsString) :
    SlotsAgree (es.delete key) (ds.delete key) := by
  intro k
  rw [slotsFor_delete, slotsFor_delete]
  split_ifs with hk
  · exact ⟨Slot.agree_createStreamSlot, Slot.agree_createStreamSlot⟩
  · exact h k

/-! ## Positions -/

theorem strictEq_of_scaled {a b : Binary64} (ha : a.isFinite = true) (hb : b.isFinite = true)
    (h : a.scaled = b.scaled) : a.strictEq b = true := by
  simp [Binary64.strictEq, Binary64.not_isNaN_of_isFinite ha, Binary64.not_isNaN_of_isFinite hb, h]

variable {es ds : CursorSlots} {key : JsString} {entries : List (JsString × Binary64 × Binary64)}

theorem gives_readPosition {dx dy : Slot} {bits bits' rest : Bits}
    (hx : readStreamValue.Gives ((slotsFor ds key).1, bits) x (dx, bits'))
    (hy : readStreamValue.Gives ((slotsFor ds key).2, bits') y (dy, rest)) :
    (readPosition key).Gives (ds, bits) (x, y)
      ((ds.set key (dx, (slotsFor ds key).2)).set key (dx, dy), rest) := by
  have hmid : slotsFor (ds.set key (dx, (slotsFor ds key).2)) key = (dx, (slotsFor ds key).2) := by
    rw [slotsFor_set, if_pos rfl]
  have hsecond : (readStreamValue.onPart (fun s : CursorSlots × Bits => ((slotsFor s.1 key).2, s.2))
      fun s t => (s.1.set key ((slotsFor s.1 key).1, t.1), t.2)).Gives
        (ds.set key (dx, (slotsFor ds key).2), bits') y
        ((ds.set key (dx, (slotsFor ds key).2)).set key (dx, dy), rest) := by
    rw [Gives, Throwing.onPart, hmid, show readStreamValue _ = _ from hy]
  rw [readPosition]
  exact Gives.bind (Gives.onPart hx) (hsecond.map (g := fun y => (x, y)))

/-- A position is read back, and the streams agree again. -/
theorem readPosition_writePosition (h : SlotsAgree es ds) (hx : x.fround.isFinite = true)
    (hy : y.fround.isFinite = true)
    (hkx : ¬Slot.Lost (slotsFor es key).1 (slotsFor ds key).1 x.fround)
    (hky : ¬Slot.Lost (slotsFor es key).2 (slotsFor ds key).2 y.fround) :
    ∃ x' y' ds', (∀ rest, (readPosition key).Gives (ds, (writePosition es key x y).1 ++ rest)
        (x', y') (ds', rest)) ∧
      x'.strictEq x.fround = true ∧ y'.strictEq y.fround = true ∧
      SlotsAgree (writePosition es key x y).2 ds' := by
  obtain ⟨x', dx, hreadx, hfx, hvx, hagreex⟩ :=
    readStreamValue_writeStreamValue (h key).1 hx hkx
  obtain ⟨y', dy, hready, hfy, hvy, hagreey⟩ :=
    readStreamValue_writeStreamValue (h key).2 hy hky
  refine ⟨x', y', (ds.set key (dx, (slotsFor ds key).2)).set key (dx, dy), fun rest => ?_,
    strictEq_of_scaled hfx hx hvx, strictEq_of_scaled hfy hy hvy, fun k => ?_⟩
  · rw [writePosition, append_assoc]
    exact gives_readPosition (hreadx _) (hready rest)
  · rw [writePosition, slotsFor_set, slotsFor_set]
    split_ifs with hk
    · exact ⟨hagreex, hagreey⟩
    · rw [slotsFor_set, if_neg hk]
      exact h k

/-- The entries of a frame are finite where narrowed. -/
def Finite (entry : JsString × Binary64 × Binary64) : Prop :=
  entry.2.1.fround.isFinite = true ∧ entry.2.2.fround.isFinite = true

/-- What is read of an entry. -/
def SameCoordinates (entry entry' : JsString × Binary64 × Binary64) : Prop :=
  entry'.1 = entry.1 ∧ entry'.2.1.strictEq entry.2.1.fround = true ∧
    entry'.2.2.strictEq entry.2.2.fround = true

theorem readPositions_writePositions (h : SlotsAgree es ds)
    (hfinite : ∀ entry ∈ entries, Finite entry) (hkept : KeepsSigns es ds entries) (rest : Bits) :
    ∃ entries' ds', (readPositions (entries.map Prod.fst)).Gives
        (ds, (writePositions es entries).1 ++ rest) entries' (ds', rest) ∧
      List.Forall₂ SameCoordinates entries entries' ∧
      SlotsAgree (writePositions es entries).2 ds' := by
  induction entries generalizing es ds with
  | nil => exact ⟨[], ds, gives_pure _ _, .nil, h⟩
  | cons entry entries ih =>
    obtain ⟨key, x, y⟩ := entry
    obtain ⟨hkx, hky, hkept⟩ := hkept
    obtain ⟨hx, hy⟩ := hfinite _ (.head _)
    obtain ⟨x', y', ds₁, hread, hsx, hsy, hagree⟩ := readPosition_writePosition h hx hy hkx hky
    have hnil := hread []
    rw [append_nil, Gives] at hnil
    rw [hnil] at hkept
    obtain ⟨entries', ds', hreads, hsame, hagree'⟩ :=
      ih hagree (fun e he => hfinite e (.tail _ he)) hkept
    refine ⟨(key, x', y') :: entries', ds', ?_, .cons ⟨rfl, hsx, hsy⟩ hsame, hagree'⟩
    rw [writePositions, append_assoc]
    exact (hread _).bind (hreads.bind (gives_pure _ _))

/-! ## Keys and users -/

variable {e e' : CursorStreamEncodeDict} {d : CursorDecodeDict} {ek : KeyEncodeDict}
  {text : JsString} {sent : List (Option (Option JsString × Position))} {reading : TimeReading}

/-- A key is read back, and the dictionaries mirror again. -/
theorem readKeyRef_writeKey (h : Mirrors ek d.keys) (hkey : isText key = true) (rest : Bytes) :
    ∃ dk, readKeyRef.Gives (d, (ek.writeKey key).1 ++ rest) key ({ d with keys := dk }, rest) ∧
      Mirrors (ek.writeKey key).2 dk := by
  obtain ⟨dk, hread, hmirrors⟩ := readKey_writeKey h hkey rest
  refine ⟨dk, ?_, hmirrors⟩
  rw [Gives, readKeyRef, Throwing.onPart, show Wire.readKey _ = _ from hread]

theorem readKeys_writeKeys {keys : List JsString} (h : Mirrors ek d.keys)
    (hkeys : ∀ key ∈ keys, isText key = true) (rest : Bytes) :
    ∃ dk, (times keys.length readKeyRef).Gives (d, (writeKeys ek keys).1 ++ rest) keys
        ({ d with keys := dk }, rest) ∧ Mirrors (writeKeys ek keys).2 dk := by
  induction keys generalizing ek d with
  | nil => exact ⟨d.keys, gives_times_zero _ _, h⟩
  | cons key keys ih =>
    obtain ⟨dk, hread, hmirrors⟩ := readKeyRef_writeKey h (hkeys key (.head _))
      ((writeKeys (ek.writeKey key).2 keys).1 ++ rest)
    obtain ⟨dk', hreads, hmirrors'⟩ := ih (d := { d with keys := dk }) hmirrors
      (fun k hk => hkeys k (.tail _ hk))
    rw [writeKeys, append_assoc]
    exact ⟨dk', hread.times_succ hreads, hmirrors'⟩

theorem parse_userText {user : U} (h : userText json user = some text) (hne : text ≠ []) :
    isText text = true ∧ json.parse text = some (json.view user) := by
  rw [userText, map_eq_some_iff] at h
  obtain ⟨t, hstringify, rfl⟩ := h
  cases t with
  | none => exact absurd rfl hne
  | some text =>
    exact ⟨json.isText_stringify user text hstringify, json.parse_stringify user text hstringify⟩

theorem checkUser_eq_some {sent : Option (Option JsString × U)}
    (h : checkUser json sent = some (key, text)) :
    ∃ user, sent = some (some key, user) ∧ userText json user = some text := by
  rcases sent with _ | ⟨_ | key', user⟩
  · cases h
  · cases h
  · rw [checkUser, map_eq_some_iff] at h
    obtain ⟨text', htext, hpair⟩ := h
    cases hpair
    exact ⟨user, rfl, htext⟩

theorem readUserEntry_write (h : Mirrors ek d.keys) {sent : Option (Option JsString × U)}
    (hcheck : checkUser json sent = some (key, text)) (hkey : isText key = true) (hne : text ≠ [])
    (rest : Bytes) :
    ∃ user dk, (readUserEntry json).Gives (d, (ek.writeKey key).1 ++ (str text ++ rest)) (key, user)
        ({ d with keys := dk }, rest) ∧
      SameUser json sent (key, user) ∧ Mirrors (ek.writeKey key).2 dk := by
  obtain ⟨user, rfl, htext⟩ := checkUser_eq_some hcheck
  obtain ⟨hlegible, hparse⟩ := parse_userText htext hne
  obtain ⟨dk, hread, hmirrors⟩ := readKeyRef_writeKey h hkey (str text ++ rest)
  refine ⟨json.view user, dk, ?_, ⟨user, rfl, rfl⟩, hmirrors⟩
  have hview : (parseUser json text).Gives ({ d with keys := dk }, rest) (json.view user)
      ({ d with keys := dk }, rest) := by
    rw [Gives, parseUser, hparse]
  exact hread.bind ((gives_onInput (readStr_str hlegible rest) _).bind (hview.map))

theorem checkAll_eq_some {α β : Type} {check : α → Option β} {as : List α} {bs : List β}
    (h : checkAll check as = some bs) : List.Forall₂ (fun a b => check a = some b) as bs := by
  induction as generalizing bs with
  | nil =>
    cases h
    exact .nil
  | cons a as ih =>
    rw [checkAll] at h
    cases hb : check a with
    | none => simp [hb] at h
    | some b =>
      cases hbs : checkAll check as with
      | none => simp [hb, hbs] at h
      | some bs' =>
        simp only [hb, hbs] at h
        cases h
        exact .cons hb (ih hbs)

theorem readUsers_writeUsers {sent : List (Option (Option JsString × U))}
    {entries : List (JsString × JsString)} (h : Mirrors ek d.keys)
    (hsent : List.Forall₂ (fun a b => checkUser json a = some b) sent entries)
    (hentries : ∀ entry ∈ entries, isText entry.1 = true ∧ entry.2 ≠ []) (rest : Bytes) :
    ∃ entries' dk, (times entries.length (readUserEntry json)).Gives
        (d, (writeUsers ek entries).1 ++ rest) entries' ({ d with keys := dk }, rest) ∧
      List.Forall₂ (SameUser json) sent entries' ∧ Mirrors (writeUsers ek entries).2 dk := by
  induction hsent generalizing ek d with
  | nil => exact ⟨[], d.keys, gives_times_zero _ _, .nil, h⟩
  | @cons a entry sent entries hcheck _ ih =>
    obtain ⟨key, text⟩ := entry
    obtain ⟨hkey, hne⟩ := hentries _ (.head _)
    obtain ⟨user, dk, hread, hsame, hmirrors⟩ := readUserEntry_write h hcheck hkey hne
      ((writeUsers (ek.writeKey key).2 entries).1 ++ rest)
    obtain ⟨entries', dk', hreads, hsames, hmirrors'⟩ := ih (d := { d with keys := dk }) hmirrors
      (fun e he => hentries e (.tail _ he))
    rw [writeUsers, append_assoc, append_assoc]
    exact ⟨(key, user) :: entries', dk', hread.times_succ hreads, .cons hsame hsames, hmirrors'⟩

/-! ## One frame -/

theorem InStep.beginFrame (h : InStep e d) : InStep { e with keys := e.keys.beginFrame } d :=
  ⟨h.keys.beginFrame, h.lastT, h.slots⟩

/-- The payload is read as the event, and the ends correspond again. -/
def Delivers (json : UserJson U V) (event : CursorEvent U) (payload : Bytes)
    (e : CursorStreamEncodeDict) (d : CursorDecodeDict) : Prop :=
  ∃ r d', (readCursor json).Gives (d, payload) r (d', []) ∧ r.Matches json event ∧ InStep e d'

theorem readStamp_writeDeltaStamp (h : d.lastT = e.lastT) (t : Option ℕ) (rest : Bytes) :
    readStamp.Gives (d, (writeDeltaStamp e.lastT t).1 ++ rest) (writeDeltaStamp e.lastT t).2
      ({ d with lastT := some (writeDeltaStamp e.lastT t).2 }, rest) := by
  have hget : getLastT.Gives (d, (writeDeltaStamp e.lastT t).1 ++ rest) e.lastT
      (d, (writeDeltaStamp e.lastT t).1 ++ rest) := by rw [Gives, getLastT, h]
  have hset : (setLastT (writeDeltaStamp e.lastT t).2).Gives (d, rest) ()
      ({ d with lastT := some (writeDeltaStamp e.lastT t).2 }, rest) := rfl
  exact hget.bind ((gives_onInput (readDeltaStamp_writeDeltaStamp e.lastT t rest) d).bind
    (hset.bind (gives_pure _ _)))

theorem gives_op (op : ℕ) (hop : op < 256) (rest : Bytes) :
    (onInput readU8).Gives (d, UInt8.ofNat op :: rest) op (d, rest) :=
  gives_onInput (readU8_ofNat hop rest) d

theorem isXY_eq_some {p : Position} (h : isXY p = some (x, y)) :
    p = .object (some x) (some y) false ∧ x.fround.isFinite = true ∧ y.fround.isFinite = true := by
  rcases p with _ | ⟨_ | x', _ | y', _ | _⟩ <;> try cases h
  obtain ⟨hfinite, ⟨⟩⟩ := ite_none_right_eq_some.mp h
  exact ⟨rfl, by simpa using hfinite⟩

theorem checkEntry_eq_some {sent : Option (Option JsString × Position)}
    (h : checkEntry sent = some entry) :
    ∃ p, sent = some (some entry.1, p) ∧ isXY p = some entry.2 := by
  rcases sent with _ | ⟨_ | key, p⟩
  · cases h
  · cases h
  · rw [checkEntry, map_eq_some_iff] at h
    obtain ⟨xy, hxy, rfl⟩ := h
    exact ⟨p, rfl, hxy⟩

/-- An entry that is read with the coordinates of an accepted one is that entry. -/
theorem sameEntry_of_check {sent : Option (Option JsString × Position)}
    {entry' : JsString × Binary64 × Binary64} (h : checkEntry sent = some entry)
    (hsame : SameCoordinates entry entry') : SameEntry sent entry' := by
  obtain ⟨p, rfl, hxy⟩ := checkEntry_eq_some h
  obtain ⟨hkey, hx, hy⟩ := hsame
  exact ⟨p, by rw [hkey], _, _, (isXY_eq_some hxy).1, hx, hy⟩

theorem finite_of_check {sent : Option (Option JsString × Position)}
    (h : checkEntry sent = some entry) : Finite entry := by
  obtain ⟨p, -, hxy⟩ := checkEntry_eq_some h
  exact (isXY_eq_some hxy).2

theorem finite_of_checkAll (h : List.Forall₂ (fun a b => checkEntry a = some b) sent entries) :
    ∀ entry ∈ entries, Finite entry := by
  induction h with
  | nil => simp
  | cons hcheck _ ih => exact forall_mem_cons.mpr ⟨finite_of_check hcheck, ih⟩

theorem sameEntries_of_checkAll {entries' : List (JsString × Binary64 × Binary64)}
    (h : List.Forall₂ (fun a b => checkEntry a = some b) sent entries)
    (hsame : List.Forall₂ SameCoordinates entries entries') :
    List.Forall₂ SameEntry sent entries' := by
  induction h generalizing entries' with
  | nil =>
    cases hsame
    exact .nil
  | cons hcheck _ ih =>
    cases hsame with
    | cons hfirst hrest => exact .cons (sameEntry_of_check hcheck hfirst) (ih hrest)

section

variable (h : InStep e d)
include h

theorem delivers_update {data : Option (Option JsString × Position)}
    (hcheck : checkEntry data = some (key, x, y)) (hkey : isText key = true)
    (hkept : KeepsSigns e.slots d.slots [(key, x, y)]) (t : Option ℕ) :
    Delivers json (.update data)
      (1 :: (writeDeltaStamp e.lastT t).1 ++
        (updateBody key x y { e with lastT := some (writeDeltaStamp e.lastT t).2 }).1)
      (updateBody key x y { e with lastT := some (writeDeltaStamp e.lastT t).2 }).2 d := by
  obtain ⟨hfx, hfy⟩ := finite_of_check hcheck
  obtain ⟨x', y', ds, hread, hx, hy, hagree⟩ :=
    readPosition_writePosition h.slots hfx hfy hkept.1 hkept.2.1
  obtain ⟨dk, hreadKey, hmirrors⟩ := readKeyRef_writeKey
    (d := { d with lastT := some (writeDeltaStamp e.lastT t).2 }) h.keys hkey
    (finish (writePosition e.slots key x y).1)
  obtain ⟨padding, hpad⟩ := bitsOf_finish (writePosition e.slots key x y).1
  have hblock : (onBlock (readPosition key)).Gives
      (⟨dk, some (writeDeltaStamp e.lastT t).2, d.slots⟩,
        finish (writePosition e.slots key x y).1) (x', y')
      (⟨dk, some (writeDeltaStamp e.lastT t).2, ds⟩, []) := by
    rw [Gives, onBlock, Throwing.onPart, hpad, show readPosition key _ = _ from hread padding]
  refine ⟨.update key x' y' (writeDeltaStamp e.lastT t).2,
    ⟨dk, some (writeDeltaStamp e.lastT t).2, ds⟩, Gives.bind (gives_op 1 (by decide) _) ?_,
    sameEntry_of_check hcheck ⟨rfl, hx, hy⟩, hmirrors, rfl, hagree⟩
  rw [if_pos rfl]
  exact (readStamp_writeDeltaStamp h.lastT t _).bind (hreadKey.bind (hblock.map))

theorem delivers_bulk (hcheck : checkAll checkEntry sent = some entries)
    (hkeys : ∀ key ∈ entries.map Prod.fst, isText key = true)
    (hkept : KeepsSigns e.slots d.slots entries) (t : Option ℕ) :
    Delivers json (.bulk (some sent))
      (2 :: (writeDeltaStamp e.lastT t).1 ++
        (bulkBody entries { e with lastT := some (writeDeltaStamp e.lastT t).2 }).1)
      (bulkBody entries { e with lastT := some (writeDeltaStamp e.lastT t).2 }).2 d := by
  have hall := checkAll_eq_some hcheck
  obtain ⟨padding, hpad⟩ := bitsOf_finish (writePositions e.slots entries).1
  obtain ⟨entries', ds, hread, hsame, hagree⟩ :=
    readPositions_writePositions h.slots (finite_of_checkAll hall) hkept padding
  obtain ⟨dk, hreadKeys, hmirrors⟩ := readKeys_writeKeys
    (d := { d with lastT := some (writeDeltaStamp e.lastT t).2 }) h.keys hkeys
    (finish (writePositions e.slots entries).1)
  have hblock : (onBlock (readPositions (entries.map Prod.fst))).Gives
      (⟨dk, some (writeDeltaStamp e.lastT t).2, d.slots⟩,
        finish (writePositions e.slots entries).1) entries'
      (⟨dk, some (writeDeltaStamp e.lastT t).2, ds⟩, []) := by
    rw [Gives, onBlock, Throwing.onPart, hpad, show readPositions _ _ = _ from hread]
  refine ⟨.bulk entries' (writeDeltaStamp e.lastT t).2,
    ⟨dk, some (writeDeltaStamp e.lastT t).2, ds⟩, Gives.bind (gives_op 2 (by decide) _) ?_,
    ⟨sent, rfl, ?_⟩, hmirrors, rfl, hagree⟩
  · rw [if_neg (by decide), if_pos rfl]
    rw [length_map] at hreadKeys
    refine (readStamp_writeDeltaStamp h.lastT t _).bind ?_
    rw [bulkBody, append_assoc]
    exact (gives_onInput (readVarint_varint entries.length _) _).bind (hreadKeys.bind (hblock.map))
  · exact sameEntries_of_checkAll hall hsame

/-- A removal is delivered, and both ends forget the streams. -/
theorem delivers_remove (hkey : isText key = true) :
    Delivers json (.remove (some (some key))) (3 :: (e.keys.writeKey key).1)
      { e with keys := (e.keys.writeKey key).2, slots := e.slots.delete key } d := by
  obtain ⟨dk, hread, hmirrors⟩ := readKeyRef_writeKey h.keys hkey []
  rw [append_nil] at hread
  have hdelete : (deleteSlots key).Gives ({ d with keys := dk }, []) ()
      ({ d with keys := dk, slots := d.slots.delete key }, []) := rfl
  refine ⟨.remove key, { d with keys := dk, slots := d.slots.delete key },
    Gives.bind (gives_op 3 (by decide) _) ?_, rfl, hmirrors, h.lastT, h.slots.delete key⟩
  rw [if_neg (by decide), if_neg (by decide), if_pos rfl]
  exact hread.bind (hdelete.bind (gives_pure _ _))

theorem delivers_join {data : Option (Option JsString × U)}
    (hcheck : checkUser json data = some (key, text)) (hkey : isText key = true) (hne : text ≠ []) :
    Delivers json (.join data) (4 :: (e.keys.writeKey key).1 ++ str text)
      { e with keys := (e.keys.writeKey key).2 } d := by
  obtain ⟨user, dk, hread, hsame, hmirrors⟩ := readUserEntry_write h.keys hcheck hkey hne []
  rw [append_nil] at hread
  refine ⟨.join key user, { d with keys := dk }, Gives.bind (gives_op 4 (by decide) _) ?_, hsame,
    hmirrors, h.lastT, h.slots⟩
  rw [if_neg (by decide), if_neg (by decide), if_neg (by decide), if_pos rfl]
  exact hread.map

theorem delivers_catalog {sent : List (Option (Option JsString × U))}
    {entries : List (JsString × JsString)} (hcheck : checkAll (checkUser json) sent = some entries)
    (hentries : ∀ entry ∈ entries, isText entry.1 = true ∧ entry.2 ≠ []) :
    Delivers json (.catalog (some sent)) (5 :: varint entries.length ++ (writeUsers e.keys entries).1)
      { e with keys := (writeUsers e.keys entries).2 } d := by
  obtain ⟨entries', dk, hread, hsame, hmirrors⟩ :=
    readUsers_writeUsers h.keys (checkAll_eq_some hcheck) hentries []
  rw [append_nil] at hread
  refine ⟨.catalog entries', { d with keys := dk }, Gives.bind (gives_op 5 (by decide) _) ?_,
    ⟨sent, rfl, hsame⟩, hmirrors, h.lastT, h.slots⟩
  rw [if_neg (by decide), if_neg (by decide), if_neg (by decide), if_neg (by decide), if_pos rfl]
  exact (gives_onInput (readVarint_varint entries.length _) _).bind hread.map

end

/-- What a stamped frame is where the time source returns. -/
theorem stamped_eq {op : UInt8} {body : CursorStreamEncodeDict → Bytes × CursorStreamEncodeDict}
    {payload : Bytes} (h : stamped e reading op body = (some payload, e')) :
    ∃ t, reading.value = some t ∧
      payload = op :: (writeDeltaStamp e.lastT t).1 ++
        (body { e with lastT := some (writeDeltaStamp e.lastT t).2 }).1 ∧
      e' = (body { e with lastT := some (writeDeltaStamp e.lastT t).2 }).2 := by
  rw [stamped] at h
  cases hreading : reading.value with
  | none => simp [hreading] at h
  | some t =>
    simp only [hreading, Prod.mk.injEq, some.injEq] at h
    exact ⟨t, rfl, h.1.symm, h.2.symm⟩

theorem stamped_none {op : UInt8} {body : CursorStreamEncodeDict → Bytes × CursorStreamEncodeDict}
    (h : stamped e reading op body = (none, e')) : e' = e := by
  rw [stamped] at h
  cases hreading : reading.value with
  | none =>
    simp only [hreading, Prod.mk.injEq, true_and] at h
    exact h.symm
  | some t => simp [hreading] at h

/-- A frame that is declined leaves everything but the clock. -/
theorem encodeCursor_none {event : CursorEvent U}
    (h : encodeCursor json e event reading = (none, e')) :
    e' = { e with keys := e.keys.beginFrame } := by
  rw [encodeCursor.eq_def] at h
  cases event with
  | update data =>
    cases hcheck : checkEntry data with
    | none => simpa [hcheck] using h.symm
    | some entry =>
      simp only [hcheck] at h
      exact stamped_none h
  | bulk data =>
    cases hcheck : data.bind (checkAll checkEntry) with
    | none => simpa [hcheck] using h.symm
    | some entries =>
      simp only [hcheck] at h
      exact stamped_none h
  | remove data =>
    cases hcheck : data.join with
    | none => simpa [hcheck] using h.symm
    | some key => simp [hcheck] at h
  | join data =>
    cases hcheck : checkUser json data with
    | none => simpa [hcheck] using h.symm
    | some entry => simp [hcheck] at h
  | catalog data =>
    cases hcheck : data.bind (checkAll (checkUser json)) with
    | none => simpa [hcheck] using h.symm
    | some entries => simp [hcheck] at h
  | other => simpa using h.symm

/-- A frame that carries its event is delivered, and the ends correspond again. -/
theorem decodeCursor_encodeCursor {s : CursorLink U V} {event : CursorEvent U} {payload : Bytes}
    (h : InStep s.encoder s.decoder) (hcarries : Carries json s (event, reading))
    (henc : encodeCursor json s.encoder event reading = (some payload, e')) :
    Delivers json event payload e' s.decoder := by
  obtain ⟨hkeys, husers, hkept⟩ := hcarries
  have hstart := h.beginFrame
  rw [encodeCursor.eq_def] at henc
  cases event with
  | update data =>
    cases hcheck : checkEntry data with
    | none => simp [hcheck] at henc
    | some entry =>
      obtain ⟨key, x, y⟩ := entry
      simp only [hcheck] at henc
      obtain ⟨t, ht, rfl, rfl⟩ := stamped_eq henc
      simp only [framePositions, ht, hcheck, toList_some] at hkept
      refine delivers_update hstart hcheck (hkeys key ?_) hkept t
      simp [frameKeys, framePositions, ht, hcheck]
  | bulk data =>
    cases data with
    | none => simp at henc
    | some sent =>
      cases hcheck : checkAll checkEntry sent with
      | none => simp [hcheck] at henc
      | some entries =>
        simp only [bind_some, hcheck] at henc
        obtain ⟨t, ht, rfl, rfl⟩ := stamped_eq henc
        simp only [framePositions, ht, bind_some, hcheck, getD_some] at hkept
        refine delivers_bulk hstart hcheck (fun key hkey => hkeys key ?_) hkept t
        simpa [frameKeys, framePositions, ht, hcheck, frameUsers] using hkey
  | remove data =>
    rcases data with _ | _ | key
    · simp at henc
    · simp at henc
    · simp only [join_some, Prod.mk.injEq, some.injEq] at henc
      obtain ⟨rfl, rfl⟩ := henc
      exact delivers_remove hstart (hkeys key (by simp [frameKeys]))
  | join data =>
    cases hcheck : checkUser json data with
    | none => simp [hcheck] at henc
    | some entry =>
      obtain ⟨key, text⟩ := entry
      simp only [hcheck, Prod.mk.injEq, some.injEq] at henc
      obtain ⟨rfl, rfl⟩ := henc
      exact delivers_join hstart hcheck (hkeys key (by simp [frameKeys, frameUsers, hcheck]))
        (husers (key, text) (by simp [frameUsers, hcheck]))
  | catalog data =>
    cases data with
    | none => simp at henc
    | some sent =>
      cases hcheck : checkAll (checkUser json) sent with
      | none => simp [hcheck] at henc
      | some entries =>
        simp only [bind_some, hcheck, Prod.mk.injEq, some.injEq] at henc
        obtain ⟨rfl, rfl⟩ := henc
        refine delivers_catalog hstart hcheck fun entry hentry => ⟨hkeys entry.1 ?_, ?_⟩
        · simp only [frameKeys, framePositions, frameUsers, bind_some, hcheck,
            getD_some, mem_append]
          exact .inr (mem_map_of_mem hentry)
        · exact husers entry (by simpa [frameUsers, hcheck] using hentry)
  | other => simp at henc

/-! ## Every frame -/

/-- The ends correspond, and every frame was delivered. -/
structure Delivered (json : UserJson U V) (s : CursorLink U V) : Prop where
  ends : InStep s.encoder s.decoder
  frames : ∀ frame ∈ s.frames, ∃ r, frame.2 = some r ∧ r.Matches json frame.1

theorem delivered_init (maxEntries : ℕ) : Delivered json (cursorMachine json maxEntries).init :=
  ⟨⟨mirrors_create maxEntries, rfl, slotsAgree_empty⟩, by simp [cursorMachine]⟩

theorem Delivered.step {maxEntries : ℕ} {s s' : CursorLink U V} {event : CursorEvent U × TimeReading}
    (h : Delivered json s) (hcarries : Carries json s event)
    (hstep : (cursorMachine json maxEntries).step s event = some s') : Delivered json s' := by
  simp only [cursorMachine] at hstep
  cases henc : encodeCursor json s.encoder event.1 event.2 with
  | mk payload e' =>
    cases payload with
    | none =>
      simp only [henc] at hstep
      cases hstep
      rw [encodeCursor_none henc]
      exact ⟨h.ends.beginFrame, h.frames⟩
    | some payload =>
      simp only [henc] at hstep
      cases hstep
      obtain ⟨r, d', hread, hmatches, hends⟩ := decodeCursor_encodeCursor h.ends hcarries henc
      rw [decodeCursor, show readCursor json _ = _ from hread]
      refine ⟨hends, fun frame hframe => ?_⟩
      rcases mem_concat.mp hframe with hold | rfl
      · exact h.frames frame hold
      · exact ⟨r, rfl, hmatches⟩

theorem delivered_of_carries {maxEntries : ℕ} {events : List (CursorEvent U × TimeReading)}
    {s : CursorLink U V} (h : (cursorMachine json maxEntries).ReachesWhere (Carries json) events s) :
    ∀ frame ∈ s.frames, ∃ r, frame.2 = some r ∧ r.Matches json frame.1 :=
  (h.invariant (delivered_init maxEntries) fun _ _ _ hs hok hstep => hs.step hok hstep).frames

/-- Users that are true or false. -/
def boolJson : UserJson Bool Bool where
  stringify user := some (some (lit (if user then "true" else "false")))
  parse text :=
    if text = lit "true" then some true else if text = lit "false" then some false else none
  view user := user
  isText_stringify user text h := by
    cases Option.some.inj h
    cases user <;> decide +kernel
  parse_stringify user text h := by
    cases Option.some.inj h
    cases user <;> decide +kernel

/-- The position of one cursor moves. -/
def moveTo (x y : Binary64) : CursorEvent Bool × TimeReading :=
  (.update (some (some (lit "a"), .object (some x) (some y) false)), .at 5)

/-- `0.5`. -/
def half : Binary64 := ⟨0x3fe0000000000000#64⟩

/-- A cursor joins, moves past zeros of either sign, leaves, and appears again. -/
def wanderingRun : List (CursorEvent Bool × TimeReading) :=
  [(.join (some (some (lit "a"), true)), .at 4), moveTo half negZero, moveTo (.ofInt 7) (.ofInt 3),
    moveTo (.ofInt 0) negZero, moveTo (.ofInt 0) (.ofInt 2), (.remove (some (some (lit "a"))), .at 6),
    moveTo half half]

theorem delivered_of_carries_wanderingRun :
    ∃ es s, (cursorMachine boolJson 65536).ReachesWhere (Carries boolJson) es s ∧
      s.frames.length = 7 ∧
      ∀ frame ∈ s.frames, ∃ r, frame.2 = some r ∧ r.Matches boolJson frame.1 := by
  obtain ⟨s, hrun, hlength⟩ : ∃ s, (cursorMachine boolJson 65536).ReachesWhere (Carries boolJson)
      wanderingRun s ∧ s.frames.length = 7 :=
    Machine.exists_of_execWhere (by decide +kernel)
  exact ⟨_, s, hrun, hlength, delivered_of_carries hrun⟩

/-- A cursor moves from zero to a negative zero, and then to one half. -/
def zeroRun : List (CursorEvent Bool × TimeReading) :=
  [moveTo (.ofInt 0) (.ofInt 0), moveTo negZero (.ofInt 0), moveTo half (.ofInt 0)]

/-- One half arrives as its negative. -/
theorem not_delivered_zeroRun :
    ∃ es s, (cursorMachine boolJson 65536).Reaches es s ∧
      ¬∀ frame ∈ s.frames, ∃ r, frame.2 = some r ∧ r.Matches boolJson frame.1 := by
  obtain ⟨s, hrun, hframe⟩ : ∃ s, (cursorMachine boolJson 65536).Reaches zeroRun s ∧
      ((moveTo half (.ofInt 0)).1, some (.update (lit "a") half.neg (.ofInt 0) 5)) ∈ s.frames :=
    Machine.exists_of_exec (by decide +kernel)
  refine ⟨_, s, hrun, fun h => ?_⟩
  obtain ⟨r, hr, hmatches⟩ := h _ hframe
  cases hr
  exact absurd (SameEntry.strictEq hmatches) (by decide +kernel)

end AdapterWs.Cursor
