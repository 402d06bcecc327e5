import AdapterWs.Wire.ValueReader

/-!
# Command batches

A batch of commands travels as its count and, for each command, the difference of its id to the one
before and its value. The encoder keeps the entries whose whole ids increase, and the decoder drops
an entry whose id does not. The decoder takes a batch of at most 4096.
-/

namespace AdapterWs.Smooth

open Wire Throwing Binary64 List ByteReader Bool

/-! ## The encoder -/

/-- A command with an id that is a number. -/
structure BatchCommand where
  id : Binary64
  cmd : Value

def SMOOTH_COMMAND_SCHEMA_VERSION : ℕ := 1

def SMOOTH_COMMAND_MAX : ℕ := 4096

/-- The entries with whole ids that increase; an entry without an id that is a number is none. -/
def keptEntries (last : Binary64) : List (Option BatchCommand) → List BatchCommand
  | [] => []
  | none :: batch => keptEntries last batch
  | some c :: batch =>
    if !c.id.isInteger || c.id.le last then keptEntries last batch
    else c :: keptEntries c.id batch

/-- The entries as they are written, after an id. -/
def writeEntries (prev : Binary64) : List BatchCommand → Bytes
  | [] => []
  | c :: kept => varint (c.id.sub prev).toInt.toNat ++ (writeValue c.cmd ++ writeEntries c.id kept)

/-- What is kept of a batch. -/
def keptBatch (batch : List (Option BatchCommand)) : List BatchCommand :=
  keptEntries (.ofInt (-1)) batch

/-- `encodeSmoothCommandBatch(batch)`. -/
def encodeSmoothCommandBatch (batch : List (Option BatchCommand)) : Bytes :=
  varint (keptBatch batch).length ++ writeEntries (.ofInt (0 : ℕ)) (keptBatch batch)

/-! ## The decoder -/

/-- The loop of the decoder. The first entry is not compared. -/
def decodeEntries (buf : ByteBuffer) (value : Throwing Binary64 Value) :
    ℕ → Bool → Binary64 → Throwing Binary64 (List BatchCommand)
  | 0, _, _ => pure []
  | n + 1, first, prev => do
    let delta ← ByteReader.varint buf
    let cmd ← value
    let id := prev.add delta
    if !first && id.le prev then decodeEntries buf value n false prev
    else do
      let out ← decodeEntries buf value n false id
      pure (⟨id, cmd⟩ :: out)

/-- The count of a batch, which is neither too large nor no length of an array. -/
def readCount (buf : ByteBuffer) : Throwing Binary64 ℕ := do
  let count ← ByteReader.varint buf
  if (Binary64.ofInt SMOOTH_COMMAND_MAX).lt count then throw
  else if ByteReader.isArrayLength count then pure count.toInt.toNat
  else throw

/-- A frame. -/
def decodeBatch (buf : ByteBuffer) (value : Throwing Binary64 Value) :
    Throwing Binary64 (List BatchCommand) := do
  let count ← readCount buf
  decodeEntries buf value count true (.ofInt (0 : ℕ))

/-- `decodeSmoothCommandBatch(payload, schemaVersion)`, with values read to a depth. A throw is
null. -/
def decodeSmoothCommandBatch (depth : ℕ) (payload : ByteBuffer) (schemaVersion : ℕ) :
    Option (List BatchCommand) :=
  if schemaVersion ≠ SMOOTH_COMMAND_SCHEMA_VERSION then none
  else (decodeBatch payload (ByteReader.readValueTo payload depth) (.ofInt (0 : ℕ))).1

/-! ## The property -/

/-- The differences of the entries. -/
def readDeltas (buf : ByteBuffer) (value : Throwing Binary64 Value) :
    ℕ → Throwing Binary64 (List Binary64)
  | 0 => pure []
  | n + 1 => do
    let delta ← ByteReader.varint buf
    let _ ← value
    let deltas ← readDeltas buf value n
    pure (delta :: deltas)

/-- The differences of a frame that can be read. -/
def frameDeltas (depth : ℕ) (payload : ByteBuffer) : Option (List Binary64) :=
  ((do
    let count ← readCount payload
    readDeltas payload (ByteReader.readValueTo payload depth) count :
      Throwing Binary64 (List Binary64)) (.ofInt (0 : ℕ))).1

/-- The differences of a frame add up to a finite number. -/
def FiniteIds (depth : ℕ) (payload : ByteBuffer) : Prop :=
  ∀ deltas, frameDeltas depth payload = some deltas →
    (deltas.foldl Binary64.add (.ofInt (0 : ℕ))).isFinite = true

/-- The ids are finite and increase. -/
def OrderedIds (out : List BatchCommand) : Prop :=
  (∀ c ∈ out, c.id.isFinite = true) ∧ out.Pairwise fun c d => c.id.lt d.id = true

/-! ## Any frame -/

variable {buf : ByteBuffer} {value : Throwing Binary64 Value} {pos pos' prev : Binary64}
  {out : List BatchCommand} {deltas : List Binary64} {n : ℕ} {first : Bool} {depth : ℕ}
  {payload : ByteBuffer} {last : ℤ}

/-- A round of the decoder that returned: the entry is dropped or kept. -/
theorem decodeEntries_succ (h : (decodeEntries buf value (n + 1) first prev).Gives pos out pos') :
    ∃ delta cmd p q, (varint buf).Gives pos delta p ∧ value.Gives p cmd q ∧
      (((!first && (prev.add delta).le prev) = true ∧
          (decodeEntries buf value n false prev).Gives q out pos') ∨
        ((!first && (prev.add delta).le prev) = false ∧
          ∃ rest, out = ⟨prev.add delta, cmd⟩ :: rest ∧
            (decodeEntries buf value n false (prev.add delta)).Gives q rest pos')) := by
  obtain ⟨delta, p, hdelta, h⟩ := h.of_bind
  obtain ⟨cmd, q, hcmd, h⟩ := h.of_bind
  refine ⟨delta, cmd, p, q, hdelta, hcmd, ?_⟩
  cases hdrop : !first && (prev.add delta).le prev with
  | true =>
    simp only [hdrop, if_true] at h
    exact .inl ⟨rfl, h⟩
  | false =>
    simp only [hdrop, false_eq_true, if_false] at h
    obtain ⟨rest, q', hrest, hout⟩ := h.of_bind
    obtain ⟨hsome, rfl⟩ := Prod.mk.inj hout
    exact .inr ⟨rfl, rest, (Option.some.inj hsome).symm, hrest⟩

theorem readDeltas_succ {delta : Binary64} {cmd : Value} {p q : Binary64}
    (hdelta : (varint buf).Gives pos delta p) (hcmd : value.Gives p cmd q)
    (hrest : (readDeltas buf value n).Gives q deltas pos') :
    (readDeltas buf value (n + 1)).Gives pos (delta :: deltas) pos' :=
  hdelta.bind (hcmd.bind hrest.map)

/-- The differences of the entries of a frame that is decoded. -/
theorem readDeltas_of_decodeEntries (h : (decodeEntries buf value n first prev).Gives pos out pos') :
    ∃ deltas, (readDeltas buf value n).Gives pos deltas pos' := by
  induction n generalizing first prev pos out with
  | zero => exact ⟨[], by rw [← (Prod.mk.inj h).2]; exact gives_pure _ _⟩
  | succ n ih =>
    obtain ⟨delta, cmd, p, q, hdelta, hcmd, ⟨-, hrest⟩ | ⟨-, rest, -, hrest⟩⟩ :=
      decodeEntries_succ h
    all_goals
      obtain ⟨deltas, hread⟩ := ih hrest
      exact ⟨delta :: deltas, readDeltas_succ hdelta hcmd hread⟩

theorem isFinite_of_foldl (deltas : List Binary64) {a : Binary64} (h : (deltas.foldl Binary64.add a).isFinite = true) :
    a.isFinite = true := by
  induction deltas generalizing a with
  | nil => exact h
  | cons delta deltas ih => exact (isFinite_of_add (ih h)).1

/-- The entries decoded after an id are in order, and after it, if and only if the differences add
up to a finite number. -/
theorem orderedIds_decodeEntries (hprev : prev.Unsigned) (hfinite : prev.isFinite = true)
    (h : (decodeEntries buf value n first prev).Gives pos out pos') :
    ∃ deltas, (readDeltas buf value n).Gives pos deltas pos' ∧
      ((deltas.foldl Binary64.add prev).isFinite = true →
        OrderedIds out ∧ (first = false → ∀ c ∈ out, prev.lt c.id = true)) ∧
      (OrderedIds out → (deltas.foldl Binary64.add prev).isFinite = true) := by
  induction n generalizing first prev pos out with
  | zero =>
    obtain ⟨hout, rfl⟩ := Prod.mk.inj h
    cases hout
    exact ⟨[], gives_pure _ _, fun _ => ⟨⟨nofun, .nil⟩, fun _ => nofun⟩, fun _ => hfinite⟩
  | succ n ih =>
    obtain ⟨delta, cmd, p, q, hdelta, hcmd, hround⟩ := decodeEntries_succ h
    have hsign : (prev.add delta).Unsigned := hprev.add (unsigned_varint hdelta)
    rcases hround with ⟨hdrop, hrest⟩ | ⟨hkeep, rest, rfl, hrest⟩
    · -- a dropped id is the one before
      rw [and_eq_true, not_eq_true'] at hdrop
      obtain ⟨hfirst, hle⟩ := hdrop
      have hid := hsign.isFinite_of_le hprev hfinite hle
      have hge := scaled_le_add hprev (unsigned_varint hdelta) hid
      rw [le, and_eq_true, decide_eq_true_eq] at hle
      have hsame := hsign.eq_of_scaled hprev hid hfinite (le_antisymm hle.2 hge)
      obtain ⟨deltas, hread, hordered, hsum⟩ := ih hprev hfinite hrest
      refine ⟨delta :: deltas, readDeltas_succ hdelta hcmd hread, ?_⟩
      rw [foldl_cons, hsame]
      exact ⟨fun h => ⟨(hordered h).1, fun _ => (hordered h).2 rfl⟩, hsum⟩
    · by_cases hid : (prev.add delta).isFinite = true
      · obtain ⟨deltas, hread, hordered, hsum⟩ := ih hsign hid hrest
        refine ⟨delta :: deltas, readDeltas_succ hdelta hcmd hread, fun h => ?_, fun h => ?_⟩
        · obtain ⟨⟨hids, hpairs⟩, hafter⟩ := hordered h
          refine ⟨⟨?_, .cons (hafter rfl) hpairs⟩, fun hfirst c hc => ?_⟩
          · exact forall_mem_cons.mpr ⟨hid, hids⟩
          · rw [hfirst, Bool.not_false, Bool.true_and] at hkeep
            have hlt := lt_of_not_le hid hfinite hkeep
            rcases mem_cons.mp hc with rfl | hc
            · exact hlt
            · exact Binary64.lt_trans hlt (hafter rfl c hc)
        · exact hsum ⟨fun c hc => h.1 c (.tail _ hc), h.2.of_cons⟩
      · obtain ⟨deltas, hread⟩ := readDeltas_of_decodeEntries hrest
        refine ⟨delta :: deltas, readDeltas_succ hdelta hcmd hread, fun h => ?_, fun h => ?_⟩
        · exact absurd (isFinite_of_foldl deltas h) hid
        · exact absurd (h.1 _ (.head _)) hid

/-- A frame decodes to ids that are finite and increase if and only if its differences add up. -/
theorem orderedIds_iff_finiteIds {schemaVersion : ℕ}
    (h : decodeSmoothCommandBatch depth payload schemaVersion = some out) :
    OrderedIds out ↔ FiniteIds depth payload := by
  rw [decodeSmoothCommandBatch] at h
  split_ifs at h
  have hzero := isIndex_ofInt (n := 0) (Nat.zero_le _)
  generalize hrun : decodeBatch payload (readValueTo payload depth) (.ofInt (0 : ℕ)) = r
    at h
  obtain ⟨result, pos'⟩ := r
  subst h
  obtain ⟨count, p, hcount, hentries⟩ := Gives.of_bind hrun
  obtain ⟨deltas, hread, hordered, hsum⟩ :=
    orderedIds_decodeEntries hzero.isNat.unsigned hzero.finite hentries
  have hframe : frameDeltas depth payload = some deltas :=
    congrArg Prod.fst (hcount.bind hread)
  constructor
  · intro h ds hds
    cases hframe.symm.trans hds
    exact hsum h
  · exact fun h => (hordered (h deltas hframe)).1

/-! ## A batch of issued ids -/

/-- A command with an id that a client channel issues, counting from one. -/
structure IssuedCommand where
  id : ℕ
  cmd : PlainValue
  id_pos : 0 < id
  id_le : id ≤ 2 ^ 53
  lengths : cmd.value.hasArrayLengths = true

/-- The entry of a batch. -/
def IssuedCommand.entry (c : IssuedCommand) : BatchCommand := ⟨.ofInt c.id, c.cmd.value⟩

/-- The entries of a batch that are kept, by their ids. -/
def keptIssued (last : ℤ) : List IssuedCommand → List IssuedCommand
  | [] => []
  | c :: batch => if c.id ≤ last then keptIssued last batch else c :: keptIssued c.id batch

/-- A command as it is decoded. -/
def IssuedCommand.sent (c : IssuedCommand) : BatchCommand := ⟨.ofInt c.id, c.cmd.value.sent⟩

theorem isIndex_id (c : IssuedCommand) : (Binary64.ofInt c.id).IsIndex c.id := isIndex_ofInt c.id_le

theorem keptEntries_entry {x : Binary64} (hx : x.IsInt last) (batch : List IssuedCommand) :
    keptEntries x (batch.map fun c => some c.entry) =
      (keptIssued last batch).map IssuedCommand.entry := by
  induction batch generalizing last x with
  | nil => rfl
  | cons c batch ih =>
    have hid : c.entry.id.IsInt c.id := (isIndex_id c).toIsInt
    rw [map_cons, keptEntries, keptIssued, hid.isInteger, Bool.not_true, Bool.false_or]
    by_cases h : c.id ≤ last
    · rw [if_pos ((hid.le_iff hx).mpr h), if_pos h]
      exact ih hx
    · rw [if_neg (fun h' => h ((hid.le_iff hx).mp h')), if_neg h, map_cons, ih hid]

variable (batch : List IssuedCommand)

theorem keptBatch_entry :
    keptBatch (batch.map fun c => some c.entry) =
      (keptIssued (-1) batch).map IssuedCommand.entry :=
  keptEntries_entry (isInt_ofInt (by decide)) batch

/-- The entries after an id are decoded. The first is compared with nothing. -/
theorem reads_entries {prev : ℕ} (hprev : prev ≤ 2 ^ 53)
    (hlast : first = true ∧ prev = 0 ∨ last = prev) (batch : List IssuedCommand)
    (hdepth : (writeEntries (.ofInt prev) ((keptIssued last batch).map IssuedCommand.entry)).length ≤
      depth) :
    Reads buf (decodeEntries buf (readValueTo buf depth) (keptIssued last batch).length
        first (.ofInt prev))
      (writeEntries (.ofInt prev) ((keptIssued last batch).map IssuedCommand.entry))
      ((keptIssued last batch).map IssuedCommand.sent) := by
  induction batch generalizing prev last first with
  | nil => exact Reads.pure []
  | cons c batch ih =>
    by_cases h : (c.id : ℤ) ≤ last
    · rw [keptIssued, if_pos h] at hdepth ⊢
      exact ih hprev hlast hdepth
    · have hpos := c.id_pos
      have hle := c.id_le
      have hbefore : prev ≤ c.id := by omega
      rw [keptIssued, if_neg h, map_cons, writeEntries] at hdepth
      simp only [length_append, IssuedCommand.entry] at hdepth
      have hsub : ((Binary64.ofInt c.id).sub (.ofInt prev)).toInt.toNat = c.id - prev := by
        rw [((isIndex_id c).toIsInt.sub (isIndex_ofInt hprev).toIsInt (by omega)).toInt]
        omega
      have hsum : (Binary64.ofInt prev).add (.ofInt (c.id - prev : ℕ)) = .ofInt c.id := by
        have hadd := (isIndex_ofInt hprev).add (isIndex_ofInt (n := c.id - prev) (by omega))
          (by omega)
        rw [Nat.add_sub_cancel' hbefore] at hadd
        exact hadd.toIsInt.eq (isIndex_id c).toIsInt (by omega)
      have hkeep : ¬(!first && (Binary64.ofInt c.id).le (.ofInt prev)) = true := by
        rw [and_eq_true, not_eq_true',
          (isIndex_id c).toIsInt.le_iff (isIndex_ofInt hprev).toIsInt]
        rintro ⟨rfl, hid⟩
        rcases hlast with ⟨hfirst, -⟩ | hlast
        · cases hfirst
        · omega
      rw [keptIssued, if_neg h, map_cons, writeEntries, map_cons, length_cons]
      simp only [IssuedCommand.entry, hsub]
      refine (reads_varint (by omega)).bind ((reads_value c.cmd.value (by omega) c.lengths).bind ?_)
      simp only [hsum]
      rw [if_neg hkeep]
      exact (ih hle (.inr rfl) (by omega)).map

theorem reads_readCount {k : ℕ} (hk : k ≤ SMOOTH_COMMAND_MAX) :
    Reads buf (readCount buf) (varint k) k := by
  rw [SMOOTH_COMMAND_MAX] at hk
  have hread : Reads buf (readCount buf) (varint k ++ []) k := by
    refine (reads_varint (by omega)).bind ?_
    have hlt : ¬(Binary64.ofInt SMOOTH_COMMAND_MAX).lt (.ofInt k) = true := by
      rw [SMOOTH_COMMAND_MAX, (isInt_ofInt (by decide)).lt_iff (isInt_ofInt (by omega))]
      omega
    rw [if_neg hlt, if_pos (isArrayLength_ofInt (by omega)),
      (isInt_ofInt (n := k) (by omega)).toInt, Int.toNat_natCast]
    exact Reads.pure k
  rwa [append_nil] at hread

theorem length_le_writeEntries (prev : Binary64) (kept : List BatchCommand) :
    kept.length ≤ (writeEntries prev kept).length := by
  induction kept generalizing prev with
  | nil => exact Nat.zero_le _
  | cons c kept ih =>
    have hrest := ih c.id
    have hpos := length_writeValue_pos c.cmd
    rw [writeEntries, length_append, length_append, length_cons]
    omega

/-- A batch that keeps at most 4096 commands is decoded. -/
theorem decode_encode_issued
    (hpayload : payload.bytes = encodeSmoothCommandBatch (batch.map fun c => some c.entry))
    (hdepth : payload.bytes.length ≤ depth)
    (hcount : (keptIssued (-1) batch).length ≤ SMOOTH_COMMAND_MAX) :
    decodeSmoothCommandBatch depth payload SMOOTH_COMMAND_SCHEMA_VERSION =
      some ((keptIssued (-1) batch).map IssuedCommand.sent) := by
  have hbytes := hpayload
  rw [encodeSmoothCommandBatch, keptBatch_entry, length_map] at hbytes
  have hlength := congrArg length hbytes
  rw [length_append] at hlength
  have hentries : Reads payload (decodeEntries payload (readValueTo payload depth)
      (keptIssued (-1) batch).length true (.ofInt (0 : ℕ)))
      (writeEntries (.ofInt (0 : ℕ)) ((keptIssued (-1) batch).map IssuedCommand.entry))
      ((keptIssued (-1) batch).map IssuedCommand.sent) :=
    reads_entries (Nat.zero_le _) (.inl ⟨rfl, rfl⟩) batch (by omega)
  have hread := (reads_readCount hcount).bind
    (f := fun count => decodeEntries payload (readValueTo payload depth) count true
      (.ofInt (0 : ℕ))) hentries
  obtain ⟨pos', hgives, -⟩ := hread (.ofInt (0 : ℕ)) 0 [] (isIndex_ofInt (Nat.zero_le _))
    (Nat.zero_le _) (by rw [drop_zero, append_nil, hbytes])
  rw [decodeSmoothCommandBatch, if_neg (by simp)]
  exact congrArg Prod.fst hgives

theorem readCount_of_lt {count : Binary64} (hread : (varint buf).Gives pos count pos')
    (hlt : (Binary64.ofInt SMOOTH_COMMAND_MAX).lt count = true) :
    readCount buf pos = (none, pos') := by
  rw [readCount, bind_apply, show varint buf pos = _ from hread]
  dsimp only
  rw [if_pos hlt]
  rfl

theorem decode_encode_long
    (hpayload : payload.bytes = encodeSmoothCommandBatch (batch.map fun c => some c.entry))
    (hcount : SMOOTH_COMMAND_MAX < (keptIssued (-1) batch).length) (schemaVersion : ℕ) :
    decodeSmoothCommandBatch depth payload schemaVersion = none := by
  have hbytes := hpayload
  rw [encodeSmoothCommandBatch, keptBatch_entry, length_map] at hbytes
  have hbound := payload.length_lt
  have hlength := congrArg length hbytes
  have hentries := length_le_writeEntries (.ofInt (0 : ℕ))
    ((keptIssued (-1) batch).map IssuedCommand.entry)
  rw [length_append] at hlength
  rw [length_map] at hentries
  have hk : (keptIssued (-1) batch).length ≤ 2 ^ 53 := by omega
  have hvarint : Reads payload (varint payload) (varint (keptIssued (-1) batch).length)
    (.ofInt (keptIssued (-1) batch).length) := reads_varint hk
  obtain ⟨pos', hread, -⟩ := hvarint (.ofInt (0 : ℕ)) 0 _ (isIndex_ofInt (Nat.zero_le _))
    (Nat.zero_le _) (by rw [drop_zero, hbytes])
  have hlt : (Binary64.ofInt SMOOTH_COMMAND_MAX).lt (.ofInt (keptIssued (-1) batch).length) =
      true := by
    rw [(isInt_ofInt (by decide)).lt_iff (isInt_ofInt (by omega))]
    exact_mod_cast hcount
  rw [decodeSmoothCommandBatch]
  split_ifs
  · rfl
  · rw [decodeBatch, bind_apply, readCount_of_lt hread hlt]

/-- Whatever the bytes, a batch whose differences add up decodes to ids that are finite and
increase. What the encoder keeps of a batch of issued ids is decoded as JSON reads it, unless it is
more than 4096 commands, which are dropped. -/
theorem commandBatch_spec :
    (∀ depth payload schemaVersion out,
      decodeSmoothCommandBatch depth payload schemaVersion = some out →
        FiniteIds depth payload → OrderedIds out) ∧
    ∀ (batch : List IssuedCommand) (payload : ByteBuffer) (depth : ℕ),
      payload.bytes = encodeSmoothCommandBatch (batch.map fun c => some c.entry) →
      payload.bytes.length ≤ depth →
      (∀ c ∈ keptBatch (batch.map fun c => some c.entry),
        c.cmd.hasNoToJSON = true ∧ c.cmd.isTextual = true) →
      decodeSmoothCommandBatch depth payload SMOOTH_COMMAND_SCHEMA_VERSION =
        if (keptBatch (batch.map fun c => some c.entry)).length ≤ SMOOTH_COMMAND_MAX then
          some ((keptBatch (batch.map fun c => some c.entry)).map
            fun c => ⟨c.id, c.cmd.jsonRoundTrip⟩)
        else none := by
  refine ⟨fun _ _ _ _ h hfinite => (orderedIds_iff_finiteIds h).mpr hfinite,
    fun batch payload depth hpayload hdepth htexts => ?_⟩
  rw [keptBatch_entry] at htexts ⊢
  rw [length_map]
  split_ifs with hcount
  · rw [decode_encode_issued batch hpayload hdepth hcount, map_map, Option.some.injEq]
    refine map_congr_left fun c hc => ?_
    obtain ⟨hmethod, htextual⟩ := htexts c.entry (mem_map_of_mem hc)
    rw [IssuedCommand.sent, (sent_eq_iff c.cmd.value c.cmd.ordered hmethod).mpr htextual]
    rfl
  · exact decode_encode_long batch hpayload (by omega) _

/-! ## A short batch -/

theorem three_pos : 0 < 3 := by decide

theorem three_le : 3 ≤ 2 ^ 53 := by decide

theorem five_pos : 0 < 5 := by decide

theorem five_le : 5 ≤ 2 ^ 53 := by decide

theorem isOrdered_true : (Value.bool true).isOrdered = true := rfl

theorem isOrdered_null : Value.null.isOrdered = true := rfl

theorem isOrdered_a : (Value.string [0x61]).isOrdered = true := rfl

/-- The values of the batch. -/
def trueValue : PlainValue := ⟨.bool true, isOrdered_true⟩

def nullValue : PlainValue := ⟨.null, isOrdered_null⟩

def textValue : PlainValue := ⟨.string [0x61], isOrdered_a⟩

theorem lengths_trueValue : trueValue.value.hasArrayLengths = true := rfl

theorem lengths_nullValue : nullValue.value.hasArrayLengths = true := rfl

theorem lengths_textValue : textValue.value.hasArrayLengths = true := rfl

/-- A command, a repeated id and a command. -/
def shortBatch : List IssuedCommand :=
  [⟨3, trueValue, three_pos, three_le, lengths_trueValue⟩,
    ⟨3, nullValue, three_pos, three_le, lengths_nullValue⟩,
    ⟨5, textValue, five_pos, five_le, lengths_textValue⟩]

theorem length_shortBatch :
    (encodeSmoothCommandBatch (shortBatch.map fun c => some c.entry)).length < 2 ^ 53 := by
  decide +kernel

/-- The frame of the short batch. -/
def shortFrame : ByteBuffer := ⟨_, length_shortBatch⟩

theorem frameDeltas_shortFrame :
    frameDeltas 20 shortFrame = some [.ofInt (3 : ℕ), .ofInt (2 : ℕ)] := by
  decide +kernel

/-- Two commands are kept and decoded, with ids in order. -/
theorem commandBatch_spec_shortBatch :
    ∃ out, decodeSmoothCommandBatch 20 shortFrame SMOOTH_COMMAND_SCHEMA_VERSION = some out ∧
      out.length = 2 ∧ OrderedIds out := by
  obtain ⟨hordered, hdecoded⟩ := commandBatch_spec
  have hkept : (keptBatch (shortBatch.map fun c => some c.entry)).length = 2 := by decide +kernel
  have htexts : ∀ c ∈ keptBatch (shortBatch.map fun c => some c.entry),
      c.cmd.hasNoToJSON = true ∧ c.cmd.isTextual = true := by
    have hall : (keptBatch (shortBatch.map fun c => some c.entry)).all
        (fun c => c.cmd.hasNoToJSON && c.cmd.isTextual) = true := by decide +kernel
    intro c hc
    exact (and_eq_true _ _).mp (all_eq_true.mp hall c hc)
  have hout := hdecoded shortBatch shortFrame 20 rfl (by decide +kernel) htexts
  rw [if_pos (by rw [hkept]; decide)] at hout
  refine ⟨_, hout, by rw [length_map, hkept], hordered _ _ _ _ hout fun deltas hdeltas => ?_⟩
  cases frameDeltas_shortFrame.symm.trans hdeltas
  decide +kernel

/-! ## A long batch -/

theorem succ_pos_of_short (i : Fin 4097) : 0 < i.val + 1 := Nat.succ_pos _

theorem succ_le_of_short (i : Fin 4097) : i.val + 1 ≤ 2 ^ 53 := by omega

/-- A command without a value. -/
def nullCommand (i : Fin 4097) : IssuedCommand :=
  ⟨i.val + 1, nullValue, succ_pos_of_short i, succ_le_of_short i, lengths_nullValue⟩

theorem keptIssued_of_increasing {batch : List IssuedCommand} (hlast : ∀ c ∈ batch, last < c.id)
    (h : batch.Pairwise fun c d => c.id < d.id) : keptIssued last batch = batch := by
  induction batch generalizing last with
  | nil => rfl
  | cons c batch ih =>
    obtain ⟨hc, hrest⟩ := pairwise_cons.mp h
    have hfirst := hlast c (.head _)
    rw [keptIssued, if_neg (by omega), ih (fun d hd => by exact_mod_cast hc d hd) hrest]

theorem length_writeEntries_null {prev : ℕ} (hprev : prev ≤ 2 ^ 53) {batch : List IssuedCommand}
    (hnull : ∀ c ∈ batch, c.cmd.value = .null) :
    (writeEntries (.ofInt prev) (batch.map IssuedCommand.entry)).length ≤ 9 * batch.length := by
  induction batch generalizing prev with
  | nil => exact Nat.zero_le _
  | cons c batch ih =>
    have hpos := c.id_pos
    have hle := c.id_le
    have hsub : ((Binary64.ofInt c.id).sub (.ofInt prev)).toInt.toNat ≤ 2 ^ 53 := by
      rw [((isIndex_id c).toIsInt.sub (isIndex_ofInt hprev).toIsInt (by omega)).toInt]
      omega
    have hvarint := length_varint_le (k := ((Binary64.ofInt c.id).sub (.ofInt prev)).toInt.toNat)
      (j := 7) (by omega)
    have hrest := ih hle fun d hd => hnull d (.tail _ hd)
    rw [map_cons, writeEntries]
    simp only [IssuedCommand.entry, length_append, length_cons,
      hnull c (.head _), writeValue, length_nil] at hrest ⊢
    omega

/-- One command more than a frame may hold. -/
def longBatch : List IssuedCommand := (List.finRange 4097).map nullCommand

theorem keptIssued_longBatch : keptIssued (-1) longBatch = longBatch := by
  refine keptIssued_of_increasing (fun c _ => by omega) ?_
  exact pairwise_map.mpr ((pairwise_lt_finRange 4097).imp fun h => Nat.succ_lt_succ h)

theorem length_longBatch : longBatch.length = 4097 := by
  rw [longBatch, length_map, length_finRange]

theorem length_encode_longBatch :
    (encodeSmoothCommandBatch (longBatch.map fun c => some c.entry)).length < 2 ^ 53 := by
  have hnull : ∀ c ∈ longBatch, c.cmd.value = .null := by
    intro c hc
    obtain ⟨i, -, rfl⟩ := mem_map.mp hc
    rfl
  have hentries := length_writeEntries_null (Nat.zero_le (2 ^ 53)) hnull
  have hcount := length_varint_le (k := longBatch.length) (j := 7) (by rw [length_longBatch]; decide)
  rw [encodeSmoothCommandBatch, keptBatch_entry, keptIssued_longBatch, length_append,
    length_map]
  rw [length_longBatch] at hentries hcount ⊢
  omega

/-- The frame of the long batch. -/
def longFrame : ByteBuffer := ⟨_, length_encode_longBatch⟩

/-- A batch of 4097 commands without values is kept whole and dropped by the decoder. -/
theorem not_decode_longBatch :
    ¬∀ (batch : List IssuedCommand) (payload : ByteBuffer) (depth : ℕ),
      payload.bytes = encodeSmoothCommandBatch (batch.map fun c => some c.entry) →
      payload.bytes.length ≤ depth →
      (∀ c ∈ keptBatch (batch.map fun c => some c.entry),
        c.cmd.hasNoToJSON = true ∧ c.cmd.isTextual = true) →
      decodeSmoothCommandBatch depth payload SMOOTH_COMMAND_SCHEMA_VERSION =
        some ((keptBatch (batch.map fun c => some c.entry)).map
          fun c => ⟨c.id, c.cmd.jsonRoundTrip⟩) := by
  intro hdecodes
  have hlong : decodeSmoothCommandBatch longFrame.bytes.length longFrame
      SMOOTH_COMMAND_SCHEMA_VERSION = none :=
    decode_encode_long longBatch rfl
      (by rw [keptIssued_longBatch, length_longBatch, SMOOTH_COMMAND_MAX]; omega) _
  rw [hdecodes longBatch longFrame _ rfl le_rfl ?_] at hlong
  · cases hlong
  · rw [keptBatch_entry, keptIssued_longBatch]
    intro c hc
    obtain ⟨d, hd, rfl⟩ := mem_map.mp hc
    obtain ⟨i, -, rfl⟩ := mem_map.mp hd
    exact ⟨rfl, rfl⟩

end AdapterWs.Smooth
