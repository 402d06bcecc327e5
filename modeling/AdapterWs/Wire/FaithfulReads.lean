import AdapterWs.Wire.ByteReader

/-!
# What a sequence of reads returns

A read throws, or it returns what the bytes between the two cursors say. A string is the exception:
the length of a long varint may be no number, which passes the test against the end.
-/

namespace AdapterWs.Wire

open JsString Throwing Binary64 List ByteReader Nat

/-! ## The property -/

/-- Two buffers are the same from a position to another. -/
def Agree (buf buf' : ByteBuffer) (n n' : ℕ) : Prop :=
  ∀ i, n ≤ i → i < n' → buf'.bytes[i]? = buf.bytes[i]?

/-- A string is the one of as many bytes before the cursor as its length says. -/
def IsBody (buf : ByteBuffer) (pos : Binary64) (n' : ℕ) (v : ReadValue) : Prop :=
  ∃ (len start : Binary64) (m k : ℕ), ByteReader.varint buf pos = (some len, start) ∧
    start.IsInt m ∧ len.IsInt k ∧ m + k = n' ∧
    v = .text (utf8Decode ((buf.bytes.drop m).take k))

/-- A read throws, or it returns a value, and not undefined, that the bytes from the old cursor to
the new one determine, where the cursors are integers in order and within the buffer. -/
def FaithfulRead (buf : ByteBuffer) (pos : Binary64) (call : ReadCall) : Prop :=
  ∀ v pos', ByteReader.read buf call pos = (some v, pos') →
    v ≠ .undefined ∧ ∃ n n' : ℕ, pos.IsInt n ∧ pos'.IsInt n' ∧ n ≤ n' ∧ n' ≤ buf.bytes.length ∧
      (∀ buf', Agree buf buf' n n' → ByteReader.read buf' call pos = (some v, pos')) ∧
      (call = .str → IsBody buf pos n' v)

/-- The length of a string has no group of zero past the range of a number. -/
def ProperLength (buf : ByteBuffer) (pos : Binary64) (call : ReadCall) : Prop :=
  call = .str → ∀ g rest, splitVarint (buf.bytes.drop pos.toInt.toNat) = some (g, rest) →
    ¬ZeroBeyond 0 g

/-- A fact of each read of a sequence. -/
def EachRead (buf : ByteBuffer) (p : Binary64 → ReadCall → Prop) : Binary64 → List ReadCall → Prop
  | _, [] => True
  | pos, call :: calls => p pos call ∧ EachRead buf p (ByteReader.read buf call pos).2 calls

/-! ## One read -/

/-- A read from an index throws, or the bytes between the indices determine what it returns. -/
inductive Settles {α : Type} (x : ByteBuffer → Throwing Binary64 α) (buf : ByteBuffer)
    (pos : Binary64) (n : ℕ) (good : α → ℕ → Prop) : Prop
  | throws (pos' : Binary64) (n' : ℕ) (run : x buf pos = (none, pos')) (cursor : pos'.IsIndex n')
      (le : n' ≤ buf.bytes.length + 1)
  | returns (a : α) (pos' : Binary64) (n' : ℕ)
      (run : ∀ buf', Agree buf buf' n n' → x buf' pos = (some a, pos')) (cursor : pos'.IsIndex n')
      (le : n ≤ n') (le_length : n' ≤ buf.bytes.length) (holds : good a n')

variable {buf buf' : ByteBuffer} {pos : Binary64} {n n' : ℕ} {α β : Type}

theorem Agree.refl (buf : ByteBuffer) (n n' : ℕ) : Agree buf buf n n' := fun _ _ _ => rfl

/-- What follows an index up to where the buffers agree is the same. -/
theorem Agree.drop (h : Agree buf buf' n n') (hn : n ≤ n') (hn' : n' ≤ buf.bytes.length) :
    ∃ rest, buf'.bytes.drop n = (buf.bytes.drop n).take (n' - n) ++ rest := by
  refine ⟨buf'.bytes.drop n', ?_⟩
  apply ext_getElem?
  intro i
  rw [getElem?_drop]
  by_cases hi : n + i < n'
  · rw [getElem?_append_left (by simp; omega), getElem?_take_of_lt (by omega),
      getElem?_drop, h _ (by omega) hi]
  · rw [getElem?_append_right (by simp; omega), getElem?_drop]
    congr 1
    simp
    omega

theorem Settles.map {x : ByteBuffer → Throwing Binary64 α} {y : ByteBuffer → Throwing Binary64 β}
    {good : α → ℕ → Prop} {good' : β → ℕ → Prop} {f : α → β} (h : Settles x buf pos n good)
    (hy : ∀ buf, y buf = x buf >>= fun a => pure (f a))
    (himp : ∀ a n', good a n' → good' (f a) n') : Settles y buf pos n good' := by
  cases h with
  | throws pos' n' run cursor le =>
    refine .throws pos' n' ?_ cursor le
    rw [hy, bind_apply, run]
  | returns a pos' n' run cursor le le_length holds =>
    refine .returns (f a) pos' n' (fun buf' h => ?_) cursor le le_length (himp a n' holds)
    rw [hy]
    exact Gives.map (run buf' h)

section

variable (h : pos.IsIndex n) (hn : n ≤ buf.bytes.length + 1)
include h hn

theorem settles_u8 : Settles u8 buf pos n fun b _ => b ≠ none := by
  have hbound := buf.length_lt
  cases hdrop : buf.bytes.drop n with
  | nil => exact .throws pos n (u8_of_drop_nil h hdrop) h hn
  | cons b bs =>
    obtain ⟨-, -, hlt⟩ := index_of_drop h hdrop
    refine .returns (some b) _ (n + 1) (fun buf' hagree => ?_)
      (h.add isIndex_unit (by omega)) (le_succ n) hlt nofun
    obtain ⟨rest, hrest⟩ := hagree.drop (le_succ n) hlt
    rw [hdrop, Nat.add_sub_cancel_left] at hrest
    exact u8_of_drop h hrest

theorem settles_varint : Settles ByteReader.varint buf pos n fun _ _ => True := by
  have hbound := buf.length_lt
  cases hsplit : splitVarint (buf.bytes.drop n) with
  | none =>
    obtain ⟨pos', n', hrun, hcursor, hle⟩ := varint_of_splitVarint_none h hn hsplit
    exact .throws pos' n' hrun hcursor hle
  | some p =>
    obtain ⟨g, rest⟩ := p
    obtain ⟨hdrop, hvarint⟩ := splitVarint_eq_some hsplit
    have hlength := congrArg length hdrop
    rw [length_drop, length_append] at hlength
    have hg := hvarint.length_pos
    have hle : n + g.length ≤ buf.bytes.length := by omega
    refine .returns (groupNumber g) _ (n + g.length) (fun buf' hagree => ?_)
      (isIndex_advance h (by omega)) (le_add_right _ _) hle trivial
    obtain ⟨rest', hrest⟩ := hagree.drop (le_add_right _ _) hle
    rw [hdrop, Nat.add_sub_cancel_left, take_left] at hrest
    exact varint_of_splitVarint h (hrest ▸ hvarint.split rest')

theorem settles_word {k : ℕ} (hpos : 0 < k) (hk : k ≤ 2 ^ 53) :
    Settles (word k) buf pos n fun _ _ => True := by
  have hbound := buf.length_lt
  by_cases hlt : buf.bytes.length < n + k
  · exact .throws pos n (word_of_lt h hk hlt) h hn
  · refine .returns (ofBigEndian ((buf.bytes.drop n).take k)) _ (n + k) (fun buf' hagree => ?_)
      (h.add (isIndex_ofInt hk) (by omega)) (le_add_right _ _) (by omega) trivial
    obtain ⟨rest, hrest⟩ := hagree.drop (le_add_right _ _) (by omega)
    rw [Nat.add_sub_cancel_left] at hrest
    have hlen : ((buf.bytes.drop n).take k).length = k := by
      simp
      omega
    have hlength := congrArg length hrest
    rw [length_drop, length_append, hlen] at hlength
    have htake : (buf.bytes.drop n).take k = (buf'.bytes.drop n).take k := by
      rw [hrest, take_left' hlen]
    rw [htake]
    exact word_of_le h (by omega)

theorem settles_str
    (hproper : ∀ g rest, splitVarint (buf.bytes.drop n) = some (g, rest) → ¬ZeroBeyond 0 g) :
    Settles ByteReader.str buf pos n fun s n' => IsBody buf pos n' (.text s) := by
  have hbound := buf.length_lt
  cases hsplit : splitVarint (buf.bytes.drop n) with
  | none =>
    obtain ⟨pos', n', hrun, hcursor, hle⟩ := varint_of_splitVarint_none h hn hsplit
    refine .throws pos' n' ?_ hcursor hle
    rw [ByteReader.str, bind_apply, hrun]
  | some p =>
    obtain ⟨g, rest⟩ := p
    have hg := hproper g rest hsplit
    obtain ⟨hdrop, hvarint⟩ := splitVarint_eq_some hsplit
    have hlength := congrArg length hdrop
    rw [length_drop, length_append] at hlength
    have hpos := hvarint.length_pos
    have hstart := isIndex_advance (k := g.length) h (by omega)
    by_cases hlen : groupValue g ≤ rest.length
    · have hnumber := (isNat_groupNumber hvarint hg).isIndex (by omega)
      have hle : n + (g.length + groupValue g) ≤ buf.bytes.length := by omega
      have hend := hstart.add hnumber (by omega)
      rw [add_assoc] at hend
      refine .returns (utf8Decode (rest.take (groupValue g))) _ _ (fun buf' hagree => ?_) hend
        (le_add_right _ _) hle ?_
      · obtain ⟨rest', hrest⟩ := hagree.drop (le_add_right _ _) hle
        rw [hdrop, Nat.add_sub_cancel_left, take_length_add_append, append_assoc] at hrest
        have hbody : (rest.take (groupValue g)).length = groupValue g :=
          length_take_of_le hlen
        have hlength' := congrArg length hrest
        rw [length_drop, length_append, length_append, hbody] at hlength'
        have htake : rest.take (groupValue g) =
            (rest.take (groupValue g) ++ rest').take (groupValue g) :=
          (take_left' hbody).symm
        rw [htake]
        refine str_of_splitVarint h (by omega) (hrest ▸ hvarint.split _) hg ?_
        rw [length_append, hbody]
        exact le_add_right _ _
      · refine ⟨groupNumber g, _, n + g.length, groupValue g,
          varint_of_splitVarint h hsplit, hstart.toIsInt, hnumber.toIsInt,
          add_assoc _ _ _, ?_⟩
        rw [← drop_drop, hdrop, drop_left]
    · exact .throws _ _ (str_of_lt h (by omega) hsplit hg (by omega)) hstart (by omega)

theorem settles_f32 : Settles ByteReader.f32 buf pos n fun _ _ => True :=
  (settles_word (k := 4) h hn (by omega) (by omega)).map (f := ofWord32)
    (fun _ => rfl) fun _ _ _ => trivial

theorem settles_f64 : Settles ByteReader.f64 buf pos n fun _ _ => True :=
  (settles_word (k := 8) h hn (by omega) (by omega)).map (f := ofWord64)
    (fun _ => rfl) fun _ _ _ => trivial

theorem settles_read {call : ReadCall} (hproper : ProperLength buf pos call) :
    Settles (read · call) buf pos n fun v n' =>
      v ≠ .undefined ∧ (call = .str → IsBody buf pos n' v) := by
  cases call with
  | u8 =>
    refine (settles_u8 h hn).map (f := ReadValue.ofByte) (fun _ => rfl) fun b n' hb => ⟨?_, nofun⟩
    cases b with
    | none => exact absurd rfl hb
    | some b => exact nofun
  | varint => exact (settles_varint h hn).map (fun _ => rfl) fun v n' _ => ⟨nofun, nofun⟩
  | f32 => exact (settles_f32 h hn).map (fun _ => rfl) fun v n' _ => ⟨nofun, nofun⟩
  | f64 => exact (settles_f64 h hn).map (fun _ => rfl) fun v n' _ => ⟨nofun, nofun⟩
  | str =>
    have hgroups := hproper rfl
    rw [h.toInt, Int.toNat_natCast] at hgroups
    exact (settles_str h hn hgroups).map (fun _ => rfl) fun s n' hs => ⟨nofun, fun _ => hs⟩

/-- A read is faithful if and only if its length is proper. -/
theorem faithfulRead_iff (call : ReadCall) :
    FaithfulRead buf pos call ↔ ProperLength buf pos call := by
  constructor
  · rintro hfaithful rfl g rest hsplit hg
    rw [h.toInt, Int.toNat_natCast] at hsplit
    obtain ⟨pos', hrun, hnan⟩ := str_of_zeroBeyond h hsplit hg
    obtain ⟨-, m, m', -, hcursor, -⟩ := hfaithful (.text []) pos' (Gives.map hrun)
    rw [not_isNaN_of_isFinite hcursor.finite] at hnan
    cases hnan
  · intro hproper v pos' hrun
    cases settles_read h hn hproper with
    | throws pos'' n' run cursor le =>
      rw [run] at hrun
      cases hrun
    | returns a pos'' n' run cursor le le_length holds =>
      obtain ⟨hv, rfl⟩ := Prod.mk.inj ((run buf (Agree.refl buf n n')).symm.trans hrun)
      cases hv
      exact ⟨holds.1, n, n', h.toIsInt, cursor.toIsInt, le, le_length, run, holds.2⟩

/-- The cursor after a read with a proper length is an index, past the end by one at most. -/
theorem isIndex_read {call : ReadCall} (hproper : ProperLength buf pos call) :
    ∃ n', (read buf call pos).2.IsIndex n' ∧ n' ≤ buf.bytes.length + 1 := by
  cases settles_read h hn hproper with
  | throws pos' n' run cursor le => exact ⟨n', by rwa [run], le⟩
  | returns a pos' n' run cursor le le_length holds =>
    exact ⟨n', by rwa [run buf (Agree.refl buf n n')], by omega⟩

end

/-! ## A sequence of reads -/

theorem eachRead_iff (h : pos.IsIndex n) (hn : n ≤ buf.bytes.length + 1) (calls : List ReadCall) :
    EachRead buf (FaithfulRead buf) pos calls ↔ EachRead buf (ProperLength buf) pos calls := by
  induction calls generalizing pos n with
  | nil => exact Iff.rfl
  | cons call calls ih =>
    rw [EachRead, EachRead, faithfulRead_iff h hn]
    refine and_congr_right fun hproper => ?_
    obtain ⟨n', hcursor, hle⟩ := isIndex_read h hn hproper
    exact ih hcursor hle

/-- Every read of a sequence is faithful if and only if every string of it has a proper length. -/
theorem eachRead_faithful_iff (buf : ByteBuffer) (calls : List ReadCall) :
    EachRead buf (FaithfulRead buf) (.ofInt (0 : ℕ)) calls ↔
      EachRead buf (ProperLength buf) (.ofInt (0 : ℕ)) calls :=
  eachRead_iff (isIndex_ofInt (zero_le _)) (zero_le _) calls

/-- The varint of zero in 148 bytes, and a byte. -/
def overlongBytes : Bytes := List.replicate 147 0x80 ++ [0x00, 0x41]

theorem length_overlongBytes : overlongBytes.length < 2 ^ 53 := by
  rw [overlongBytes, length_append, length_replicate]
  decide

def overlongZero : ByteBuffer := ⟨overlongBytes, length_overlongBytes⟩

/-- The length is no number: the string is empty, and the cursor is lost. -/
theorem not_eachRead_faithful_overlongZero :
    ¬EachRead overlongZero (FaithfulRead overlongZero) (.ofInt (0 : ℕ)) [.str, .u8] := by
  rintro ⟨hstr, -⟩
  have hproper := (faithfulRead_iff (isIndex_ofInt (zero_le _)) (zero_le _) .str).mp hstr
  refine hproper rfl (replicate 147 0x80 ++ [0x00]) [0x41] ?_ ⟨147, 0x00, le_rfl, rfl, rfl⟩
  decide +kernel

end AdapterWs.Wire
