import AdapterWs.RelayRing.Backlog
import AdapterWs.RelayRing.Framing

/-!
# The ring is a faithful stream

Between any two atomic accesses of the two threads, the bytes the reader took out, the bytes in
the ring and the bytes of the deque are the writes in order. The writer's copy goes to cells that
hold no unread byte, for the room it found can only have grown. The reader's frames are then the
writes themselves.

Positions are 32-bit numbers, so a ring of `2 ^ 32` bytes looks empty when it is full: the
capacity has to stay below that.
-/

namespace AdapterWs.RelayRing

open Circular List RelayRing Nat

variable {config : Config} {r r' : Ring} {live : List Bytes} {shared shared' : Shared}
  {w w' : Writer} {p : Push} {n : ℕ} {bytes : Bytes}

/-- The bytes in the ring that the reader has not taken out. -/
def Ring.inRing (config : Config) (r : Ring) : Bytes :=
  around config.cap r.shared.data r.shared.readIdx r.shared.unread

/-! ## What a thread has in hand -/

/-- A call of `_push` is about the deque as it is. -/
inductive Pushes (w : Writer) : List Bytes → Push → Prop
  | write (bytes : Bytes) (hbytes : bytes ≠ []) :
      Pushes w [] { caller := .write, bytes := bytes, offset := 0 }
  | flush (bytes : Bytes) (live : List Bytes) :
      Pushes w (bytes :: live) { caller := .flush, bytes := bytes, offset := w.pendingOffset }

/-- What the writer's thread has in hand agrees with the ring. -/
inductive WriterFits (config : Config) (shared : Shared) (w : Writer) (live : List Bytes) :
    WriterAt → Prop
  | idle : WriterFits config shared w live .idle
  | notify : WriterFits config shared w live .notify
  | arm : WriterFits config shared w live .arm
  | loadWrite (p : Push) (hp : Pushes w live p) : WriterFits config shared w live (.loadWrite p)
  | loadRead (p : Push) (hp : Pushes w live p) :
      WriterFits config shared w live (.loadRead p shared.writeIdx)
  | copy (p : Push) (n : ℕ) (hp : Pushes w live p) (hn : n ≤ p.bytes.length - p.offset)
      (hfit : shared.unread + n ≤ config.cap) :
      WriterFits config shared w live (.copy p shared.writeIdx n)
  | store (p : Push) (n : ℕ) (hp : Pushes w live p) (hn : n ≤ p.bytes.length - p.offset)
      (hfit : shared.unread + n ≤ config.cap)
      (hcopied : around config.cap shared.data shared.writeIdx n = (p.bytes.drop p.offset).take n) :
      WriterFits config shared w live (.store p shared.writeIdx n)

/-- What the reader's thread has in hand agrees with the ring. -/
inductive ReaderFits (config : Config) (shared : Shared) (acc : Bytes) : ReaderAt → Prop
  | idle : ReaderFits config shared acc .idle
  | loadWrite : ReaderFits config shared acc .loadWrite
  | notify (buf : Bytes) : ReaderFits config shared acc (.notify buf)
  | arm (write : ℕ) : ReaderFits config shared acc (.arm write)
  | loadRead (avail : ℕ) (havail : avail ≤ shared.unread) :
      ReaderFits config shared acc (.loadRead (advance shared.readIdx avail))
  | copy (write avail : ℕ) (havail : avail ≤ shared.unread) :
      ReaderFits config shared acc (.copy write shared.readIdx avail)
  | store (avail : ℕ) (havail : avail ≤ shared.unread) :
      ReaderFits config shared acc (.store shared.readIdx avail
        (acc ++ around config.cap shared.data shared.readIdx avail))

/-- The bytes the reader holds that are not in an emitted frame. -/
def Ring.unparsed (r : Ring) : Bytes :=
  match r.readerAt with
  | .notify buf => buf
  | _ => r.reader.acc

/-- The reader has bytes it has not looked for frames in. -/
def ReaderAt.isParsing : ReaderAt → Bool
  | notify _ => true
  | _ => false

/-- The emitted frames are the first of the writes, and the next one was not taken out whole. -/
def Emits (accepted : List Bytes) (emitted : List Bytes) (acc : Bytes) (parsing : Bool) : Prop :=
  (∀ bytes ∈ accepted, IsFrame bytes) →
    ∃ later, accepted = emitted ++ later ∧
      (parsing = false → ∀ frame ∈ later.head?, acc.length < frame.length)

/-- The invariant: the ring, its two threads and the deque agree. -/
structure Held (config : Config) (r : Ring) (live : List Bytes) : Prop where
  writeIdx_lt : r.shared.writeIdx < 2 ^ 32
  readIdx_lt : r.shared.readIdx < 2 ^ 32
  fits : r.shared.unread ≤ config.cap
  backlog : Backlog r.writer live
  stream : r.consumed ++ r.inRing config ++ live.flatten.drop r.writer.pendingOffset =
    r.accepted.flatten
  writer : WriterFits config r.shared r.writer live r.writerAt
  reader : ReaderFits config r.shared r.reader.acc r.readerAt
  taken : r.emitted.flatten ++ r.unparsed = r.consumed
  emits : Emits r.accepted r.emitted r.unparsed r.readerAt.isParsing

/-! ## What the other thread does -/

/-- A writer that copies or stores leaves the reader's bytes. -/
theorem ReaderFits.congr {acc : Bytes} {at' : ReaderAt} (h : ReaderFits config shared acc at')
    (hread : shared'.readIdx = shared.readIdx) (hunread : shared.unread ≤ shared'.unread)
    (hcells : ∀ n ≤ shared.unread, around config.cap shared'.data shared.readIdx n =
      around config.cap shared.data shared.readIdx n) : ReaderFits config shared' acc at' := by
  cases h with
  | idle => exact .idle
  | loadWrite => exact .loadWrite
  | notify buf => exact .notify buf
  | arm write => exact .arm write
  | loadRead avail havail =>
    rw [← hread]
    exact .loadRead avail (Nat.le_trans havail hunread)
  | copy write avail havail =>
    rw [← hread]
    exact .copy write avail (Nat.le_trans havail hunread)
  | store avail havail =>
    rw [← hcells avail havail, ← hread]
    exact .store avail (Nat.le_trans havail hunread)

/-- A reader that frees cells leaves the writer's room. -/
theorem WriterFits.congr {at' : WriterAt} (h : WriterFits config shared w live at')
    (hwrite : shared'.writeIdx = shared.writeIdx) (hdata : shared'.data = shared.data)
    (hunread : shared'.unread ≤ shared.unread) : WriterFits config shared' w live at' := by
  cases h with
  | idle => exact .idle
  | notify => exact .notify
  | arm => exact .arm
  | loadWrite p hp => exact .loadWrite p hp
  | loadRead p hp =>
    rw [← hwrite]
    exact .loadRead p hp
  | copy p n hp hn hfit =>
    rw [← hwrite]
    exact .copy p n hp hn (by omega)
  | store p n hp hn hfit hcopied =>
    rw [← hwrite]
    refine .store p n hp hn (by omega) ?_
    rw [hwrite, hdata, hcopied]

theorem Emits.accept {accepted emitted : List Bytes} {acc : Bytes} {parsing : Bool}
    (h : Emits accepted emitted acc parsing) (hwithin : emitted.flatten ++ acc <+: accepted.flatten) :
    Emits (accepted ++ [bytes]) emitted acc parsing := by
  intro hframes
  obtain ⟨later, hlater, hnext⟩ := h fun b hb => hframes b (mem_append_left _ hb)
  refine ⟨later ++ [bytes], by rw [hlater, append_assoc], fun hparsing frame hframe => ?_⟩
  cases later with
  | nil =>
    cases hframe
    have hempty : acc = [] := by
      have hle := hwithin.length_le
      rw [hlater, append_nil, length_append] at hle
      exact eq_nil_of_length_eq_zero (by omega)
    have hfour := (hframes bytes (mem_concat_self)).four_le
    rw [hempty, length_nil]
    omega
  | cons first later =>
    cases hframe
    exact hnext hparsing frame rfl

/-! ## The writer's steps -/

theorem Held.goOn {next : Writer × WriterAt} (h : Held config r live)
    (hbacklog : Backlog next.1 live) (hoffset : next.1.pendingOffset = r.writer.pendingOffset)
    (hfits : WriterFits config r.shared next.1 live next.2) : Held config (r.goOn next) live where
  writeIdx_lt := h.writeIdx_lt
  readIdx_lt := h.readIdx_lt
  fits := h.fits
  backlog := hbacklog
  stream := by
    change _ ++ _ ++ live.flatten.drop next.1.pendingOffset = _
    rw [hoffset]
    exact h.stream
  writer := hfits
  reader := h.reader
  taken := h.taken
  emits := h.emits

theorem Held.goAt {at' : WriterAt} (h : Held config { r with writerAt := .idle } live)
    (hfits : WriterFits config r.shared r.writer live at') :
    Held config { r with writerAt := at' } live :=
  ⟨h.writeIdx_lt, h.readIdx_lt, h.fits, h.backlog, h.stream, hfits, h.reader, h.taken, h.emits⟩

section

variable (h : Held config r live)
include h

theorem Held.armFlush : Held config (r.goOn r.writer.armFlush) live := by
  rcases armFlush_eq r.writer with heq | heq
  · rw [heq]
    exact h.goOn h.backlog rfl .idle
  · rw [heq]
    exact h.goOn (h.backlog.congr rfl rfl rfl rfl) rfl .arm

theorem Held.endFlush : Held config (r.goOn r.writer.endFlush) live := by
  rw [Writer.endFlush]
  split
  · next hzero => exact h.goOn (h.backlog.reset hzero) rfl .notify
  · exact h.goOn h.backlog rfl .notify

theorem Held.flushNext : Held config (r.goOn r.writer.flushNext) live := by
  cases live with
  | nil =>
    have hbytes := h.backlog.bytes
    simp only [flatten_nil, length_nil] at hbytes
    rw [h.backlog.flushNext_nil]
    exact h.goOn (h.backlog.reset (by omega)) rfl .notify
  | cons bytes live =>
    rw [h.backlog.flushNext_cons]
    exact h.goOn h.backlog rfl (.loadWrite _ (.flush bytes live))

theorem Held.append (hlive : live ≠ []) (hbytes : bytes ≠ []) :
    Held config
      { r with
        accepted := r.accepted ++ [bytes]
        writer :=
          { r.writer with
            pending := r.writer.pending ++ [some bytes]
            pendingBytes := r.writer.pendingBytes + bytes.length }
        writerAt := .idle }
      (live ++ [bytes]) where
  writeIdx_lt := h.writeIdx_lt
  readIdx_lt := h.readIdx_lt
  fits := h.fits
  backlog := h.backlog.append hlive hbytes
  stream := by
    have hle : r.writer.pendingOffset ≤ live.flatten.length := by
      have := h.backlog.bytes
      omega
    change r.consumed ++ r.inRing config ++ (live ++ [bytes]).flatten.drop r.writer.pendingOffset =
      (r.accepted ++ [bytes]).flatten
    rw [flatten_append, flatten_append, drop_append_of_le_length hle,
      ← append_assoc, h.stream]
  writer := .idle
  reader := h.reader
  taken := h.taken
  emits := by
    apply h.emits.accept
    rw [h.taken, ← h.stream, append_assoc]
    exact prefix_append _ _

end

/-- The ring took `n` bytes of a push that its caller has yet to count. -/
structure Took (config : Config) (r : Ring) (live : List Bytes) (p : Push) (n : ℕ) : Prop where
  writeIdx_lt : r.shared.writeIdx < 2 ^ 32
  readIdx_lt : r.shared.readIdx < 2 ^ 32
  fits : r.shared.unread ≤ config.cap
  backlog : Backlog r.writer live
  pushes : Pushes r.writer live p
  le : n ≤ p.bytes.length - p.offset
  stream : ∃ old, r.inRing config = old ++ (p.bytes.drop p.offset).take n ∧
    r.consumed ++ old ++ live.flatten.drop r.writer.pendingOffset = r.accepted.flatten
  reader : ReaderFits config r.shared r.reader.acc r.readerAt
  taken : r.emitted.flatten ++ r.unparsed = r.consumed
  emits : Emits r.accepted r.emitted r.unparsed r.readerAt.isParsing

theorem Held.took_zero (h : Held config { r with writerAt := .idle } live)
    (hp : Pushes r.writer live p) : Took config r live p 0 where
  writeIdx_lt := h.writeIdx_lt
  readIdx_lt := h.readIdx_lt
  fits := h.fits
  backlog := h.backlog
  pushes := hp
  le := zero_le _
  stream := ⟨r.inRing config, by simp, h.stream⟩
  reader := h.reader
  taken := h.taken
  emits := h.emits

theorem Took.pushed (h : Took config r live p n) : ∃ live', Held config (r.pushed p n) live' := by
  obtain ⟨old, hring, hstream⟩ := h.stream
  have hbefore : r.emitted.flatten ++ r.unparsed <+: r.accepted.flatten := by
    rw [h.taken, ← hstream, append_assoc]
    exact prefix_append _ _
  cases h.pushes with
  | write bytes hbytes =>
    have hold : r.consumed ++ old = r.accepted.flatten := by simpa using hstream
    have hring' : r.inRing config = old ++ bytes.take n := hring
    by_cases hn : n < bytes.length
    · have hfirst := h.backlog.first hn
      have hheld : Held config
          { r with
            accepted := r.accepted ++ [bytes]
            writer :=
              { r.writer with
                pending := r.writer.pending ++ [some bytes]
                pendingOffset := n
                pendingBytes := bytes.length - n }
            writerAt := .idle }
          [bytes] := by
        refine ⟨h.writeIdx_lt, h.readIdx_lt, h.fits, hfirst, ?_, .idle, h.reader, h.taken,
          h.emits.accept hbefore⟩
        change r.consumed ++ r.inRing config ++ [bytes].flatten.drop n =
          (r.accepted ++ [bytes]).flatten
        rw [hring', flatten_append, ← hold, flatten_singleton, append_assoc,
          append_assoc, take_append_drop, append_assoc]
      refine ⟨[bytes], ?_⟩
      rw [Ring.pushed]
      rw [if_pos hn]
      exact hheld.armFlush
    · have hwhole : bytes.take n = bytes := take_of_length_le (by omega)
      refine ⟨[], ?_⟩
      rw [Ring.pushed]
      rw [if_neg hn]
      refine ⟨h.writeIdx_lt, h.readIdx_lt, h.fits, h.backlog, ?_, .idle, h.reader, h.taken,
        h.emits.accept hbefore⟩
      change r.consumed ++ r.inRing config ++ ([] : List Bytes).flatten.drop _ =
        (r.accepted ++ [bytes]).flatten
      rw [hring', hwhole, flatten_append, ← hold, flatten_singleton]
      simp
  | flush bytes rest =>
    have hle : n ≤ bytes.length - r.writer.pendingOffset := h.le
    have hlt := h.backlog.offset bytes rfl
    have hdrop : (bytes :: rest).flatten.drop r.writer.pendingOffset =
        bytes.drop r.writer.pendingOffset ++ rest.flatten := by
      rw [flatten_cons, drop_append_of_le_length (Nat.le_of_lt hlt)]
    rw [hdrop] at hstream
    have hsplit : (bytes.drop r.writer.pendingOffset).take n ++
        (bytes.drop (r.writer.pendingOffset + n) ++ rest.flatten) =
        bytes.drop r.writer.pendingOffset ++ rest.flatten := by
      rw [← append_assoc, ← drop_drop, take_append_drop]
    have hmoved : r.consumed ++ r.inRing config ++
        (bytes.drop (r.writer.pendingOffset + n) ++ rest.flatten) = r.accepted.flatten := by
      rw [hring, ← hstream, append_assoc, append_assoc, hsplit, append_assoc]
    rw [Ring.pushed]
    dsimp only
    split
    · next hzero =>
      subst hzero
      have hheld : Held config { r with writerAt := .idle } (bytes :: rest) := by
        refine ⟨h.writeIdx_lt, h.readIdx_lt, h.fits, h.backlog, ?_, .idle, h.reader, h.taken,
          h.emits⟩
        change r.consumed ++ r.inRing config ++
          (bytes :: rest).flatten.drop r.writer.pendingOffset = r.accepted.flatten
        rw [hdrop]
        exact hmoved
      exact ⟨bytes :: rest, hheld.endFlush⟩
    · next hpos =>
      by_cases hdone : bytes.length ≤ r.writer.pendingOffset + n
      · rw [if_pos hdone]
        have hend : r.writer.pendingOffset + n = bytes.length := by omega
        have hheld : Held config
            { r with
              writer :=
                { r.writer with
                  pending := r.writer.pending.set r.writer.pendingHead none
                  pendingHead := r.writer.pendingHead + 1
                  pendingOffset := 0
                  pendingBytes := r.writer.pendingBytes - n }
              writerAt := .idle }
            rest := by
          refine ⟨h.writeIdx_lt, h.readIdx_lt, h.fits, h.backlog.completed hend, ?_, .idle,
            h.reader, h.taken, h.emits⟩
          rw [hend, drop_length] at hmoved
          exact hmoved
        exact ⟨rest, hheld.flushNext⟩
      · rw [if_neg hdone]
        have hmore : r.writer.pendingOffset + n < bytes.length := by omega
        have hheld : Held config
            { r with
              writer :=
                { r.writer with
                  pendingOffset := r.writer.pendingOffset + n
                  pendingBytes := r.writer.pendingBytes - n }
              writerAt := .idle }
            (bytes :: rest) := by
          refine ⟨h.writeIdx_lt, h.readIdx_lt, h.fits, h.backlog.progress hmore, ?_, .idle,
            h.reader, h.taken, h.emits⟩
          change r.consumed ++ r.inRing config ++
            (bytes :: rest).flatten.drop (r.writer.pendingOffset + n) = r.accepted.flatten
          rw [flatten_cons, drop_append_of_le_length (Nat.le_of_lt hmore)]
          exact hmoved
        exact ⟨bytes :: rest, hheld.flushNext⟩

section

variable (h : Held config r live) (hexp : config.exponent ≤ 31)
include h hexp

/-- The cell after the unread ones is the one the writer stands at. -/
theorem Held.mod_cap :
    r.shared.writeIdx % config.cap = (r.shared.readIdx + r.shared.unread) % config.cap := by
  rw [← advance_mod_cap hexp, Shared.unread, advance_distance h.writeIdx_lt h.readIdx_lt]

theorem Held.copy (hp : Pushes r.writer live p) (hn : n ≤ p.bytes.length - p.offset)
    (hfit : r.shared.unread + n ≤ config.cap) :
    Held config
      { r with
        shared := r.shared.set config r.shared.writeIdx ((p.bytes.drop p.offset).take n)
        writerAt := .store p r.shared.writeIdx n }
      live := by
  have hlength : ((p.bytes.drop p.offset).take n).length = n := by
    rw [length_take, length_drop]
    omega
  have hdata : (r.shared.set config r.shared.writeIdx ((p.bytes.drop p.offset).take n)).data =
      putAround config.cap r.shared.data ((r.shared.readIdx + r.shared.unread) % config.cap)
        ((p.bytes.drop p.offset).take n) := by
    rw [Shared.set, and_mask, h.mod_cap hexp]
  have hkept : around config.cap
      (r.shared.set config r.shared.writeIdx ((p.bytes.drop p.offset).take n)).data
      r.shared.readIdx r.shared.unread = r.inRing config := by
    rw [hdata, around_putAround_before config.cap_pos (by omega)]
    rfl
  have hcells : ∀ m ≤ r.shared.unread, around config.cap
      (r.shared.set config r.shared.writeIdx ((p.bytes.drop p.offset).take n)).data
      r.shared.readIdx m = around config.cap r.shared.data r.shared.readIdx m := by
    intro m hm
    rw [← take_around hm, hkept, Ring.inRing, take_around hm]
  refine ⟨h.writeIdx_lt, h.readIdx_lt, h.fits, h.backlog, ?_, ?_, ?_, h.taken, h.emits⟩
  · rw [← h.stream, ← hkept]
    rfl
  · refine .store p n hp hn hfit ?_
    have hread : around config.cap
        (putAround config.cap r.shared.data ((r.shared.readIdx + r.shared.unread) % config.cap)
          ((p.bytes.drop p.offset).take n))
        ((r.shared.readIdx + r.shared.unread) % config.cap)
        ((p.bytes.drop p.offset).take n).length = (p.bytes.drop p.offset).take n :=
      around_putAround_self (mod_lt _ config.cap_pos) (by omega)
    rw [hlength, ← hdata, around_mod, ← around_congr (h.mod_cap hexp)] at hread
    exact hread
  · exact h.reader.congr rfl (Nat.le_refl _) hcells

theorem Held.store (hp : Pushes r.writer live p) (hn : n ≤ p.bytes.length - p.offset)
    (hfit : r.shared.unread + n ≤ config.cap)
    (hcopied : around config.cap r.shared.data r.shared.writeIdx n =
      (p.bytes.drop p.offset).take n) :
    Took config
      { r with
        shared := { r.shared with writeIdx := advance r.shared.writeIdx n }
        owed := true }
      live p n := by
  have hcap := Config.cap_le hexp
  have hunread : distance (advance r.shared.writeIdx n) r.shared.readIdx =
      r.shared.unread + n :=
    distance_advance_left h.writeIdx_lt h.readIdx_lt (by rw [Shared.unread] at hfit; omega)
  refine ⟨advance_lt _ _, h.readIdx_lt, ?_, h.backlog, hp, hn, ⟨r.inRing config, ?_, h.stream⟩, ?_,
    h.taken, h.emits⟩
  · change distance (advance r.shared.writeIdx n) r.shared.readIdx ≤ config.cap
    rw [hunread]
    exact hfit
  · change around config.cap r.shared.data r.shared.readIdx
      (distance (advance r.shared.writeIdx n) r.shared.readIdx) = _
    rw [hunread, around_add, ← hcopied, ← around_congr (h.mod_cap hexp)]
    rfl
  · refine h.reader.congr rfl ?_ fun _ _ => rfl
    change r.shared.unread ≤ distance (advance r.shared.writeIdx n) r.shared.readIdx
    rw [hunread]
    exact le_add_right _ _

end

@[simp] theorem Ring.shared_noteRead (r : Ring) (p : Push) (n : ℕ) :
    (r.noteRead p n).shared = r.shared := by
  rw [Ring.noteRead]
  split <;> rfl

theorem Held.noteRead (h : Held config r live) (hp : Pushes r.writer live p) (n : ℕ) :
    Held config { r.noteRead p n with writerAt := .idle } live ∧
      Pushes (r.noteRead p n).writer live p := by
  rw [Ring.noteRead]
  split
  · refine ⟨⟨h.writeIdx_lt, h.readIdx_lt, h.fits, h.backlog.congr rfl rfl rfl rfl, h.stream, .idle,
      h.reader, h.taken, h.emits⟩, ?_⟩
    cases hp with
    | write bytes hbytes => exact .write bytes hbytes
    | flush bytes live => exact .flush bytes live
  · exact ⟨⟨h.writeIdx_lt, h.readIdx_lt, h.fits, h.backlog, h.stream, .idle, h.reader, h.taken,
      h.emits⟩, hp⟩

theorem Held.loadRead (h : Held config r live) (hp : Pushes r.writer live p) :
    ∃ live', Held config
      (if r.room config p r.shared.writeIdx = 0 then
        (r.noteRead p (r.room config p r.shared.writeIdx)).pushed p 0
      else
        { r.noteRead p (r.room config p r.shared.writeIdx) with
          writerAt := .copy p r.shared.writeIdx (r.room config p r.shared.writeIdx) })
      live' := by
  have hfit : r.shared.unread + r.room config p r.shared.writeIdx ≤ config.cap := by
    have hfits := h.fits
    rw [Ring.room, ← Shared.unread]
    omega
  have hle : r.room config p r.shared.writeIdx ≤ p.bytes.length - p.offset := Nat.min_le_right _ _
  generalize r.room config p r.shared.writeIdx = n at hfit hle
  obtain ⟨hheld, hpushes⟩ := h.noteRead hp n
  have hshared := r.shared_noteRead p n
  generalize r.noteRead p n = noted at hheld hpushes hshared ⊢
  split
  · exact (hheld.took_zero hpushes).pushed
  · have hcopy : WriterFits config r.shared noted.writer live (.copy p r.shared.writeIdx n) :=
      .copy p n hpushes hle hfit
    exact ⟨live, hheld.goAt (hcopy.congr (by rw [hshared]) (by rw [hshared])
      (Nat.le_of_eq (congrArg Shared.unread hshared)))⟩

theorem Held.writerStep (h : Held config r live) (hexp : config.exponent ≤ 31)
    (hs : r.writerStep config = some r') : ∃ live', Held config r' live' := by
  have hwriter := h.writer
  rw [Ring.writerStep] at hs
  cases hat : r.writerAt with
  | idle =>
    rw [hat] at hs
    cases hs
  | loadWrite p =>
    rw [hat] at hs hwriter
    cases hs
    cases hwriter with
    | loadWrite _ hp =>
      exact ⟨live, h.writeIdx_lt, h.readIdx_lt, h.fits, h.backlog, h.stream, .loadRead p hp,
        h.reader, h.taken, h.emits⟩
  | loadRead p write =>
    rw [hat] at hs hwriter
    cases hwriter with
    | loadRead _ hp =>
      cases hs
      exact h.loadRead hp
  | copy p write n =>
    rw [hat] at hs hwriter
    cases hs
    cases hwriter with
    | copy _ _ hp hn hfit => exact ⟨live, h.copy hexp hp hn hfit⟩
  | store p write n =>
    rw [hat] at hs hwriter
    cases hs
    cases hwriter with
    | store _ _ hp hn hfit hcopied => exact (h.store hexp hp hn hfit hcopied).pushed
  | notify =>
    rw [hat] at hs
    cases hs
    have hnotified : Held config
        { r with readWait := r.readWait.notify, owed := false, writerAt := .idle } live :=
      ⟨h.writeIdx_lt, h.readIdx_lt, h.fits, h.backlog, h.stream, .idle, h.reader, h.taken, h.emits⟩
    split
    · exact ⟨live, hnotified.armFlush⟩
    · exact ⟨live, hnotified⟩
  | arm =>
    rw [hat] at hs
    cases hs
    exact ⟨live, h.writeIdx_lt, h.readIdx_lt, h.fits, h.backlog, h.stream, .idle, h.reader,
      h.taken, h.emits⟩

/-! ## The reader's steps -/

theorem Held.take {avail : ℕ} (h : Held config r live) (hexp : config.exponent ≤ 31)
    (havail : avail ≤ r.shared.unread) (hat : r.unparsed = r.reader.acc) :
    Held config
      { r with
        shared := { r.shared with readIdx := advance r.shared.readIdx avail }
        consumed := r.consumed ++ around config.cap r.shared.data r.shared.readIdx avail
        readerAt := .notify
          (r.reader.acc ++ around config.cap r.shared.data r.shared.readIdx avail) }
      live := by
  have hunread : distance r.shared.writeIdx (advance r.shared.readIdx avail) =
      r.shared.unread - avail := distance_advance_right h.writeIdx_lt h.readIdx_lt havail
  have hrest : around config.cap r.shared.data (advance r.shared.readIdx avail)
      (r.shared.unread - avail) = (r.inRing config).drop avail := by
    rw [Ring.inRing, drop_around havail, around_congr (advance_mod_cap hexp _ _)]
  have hbegin : around config.cap r.shared.data r.shared.readIdx avail =
      (r.inRing config).take avail := by
    rw [Ring.inRing, take_around havail]
  refine ⟨h.writeIdx_lt, advance_lt _ _, ?_, h.backlog, ?_, ?_, .notify _, ?_, ?_⟩
  · change distance r.shared.writeIdx (advance r.shared.readIdx avail) ≤ config.cap
    rw [hunread]
    exact Nat.le_trans (Nat.sub_le _ _) h.fits
  · change r.consumed ++ _ ++ around config.cap r.shared.data (advance r.shared.readIdx avail)
      (distance r.shared.writeIdx (advance r.shared.readIdx avail)) ++ _ = _
    rw [hunread, hrest, hbegin, append_assoc r.consumed, take_append_drop]
    exact h.stream
  · refine h.writer.congr rfl rfl ?_
    change distance r.shared.writeIdx (advance r.shared.readIdx avail) ≤ _
    rw [hunread]
    exact sub_le _ _
  · change r.emitted.flatten ++ (r.reader.acc ++ _) = r.consumed ++ _
    rw [← append_assoc, ← hat, h.taken]
  · intro hframes
    obtain ⟨later, hlater, -⟩ := h.emits hframes
    exact ⟨later, hlater, fun hparsing => by cases hparsing⟩

theorem Held.parse {buf : Bytes} (h : Held config r live) (hat : r.readerAt = .notify buf)
    (hsize : (parse config buf).oversized = false) :
    Held config
      { r with
        flushWait := r.flushWait.notify
        emitted := r.emitted ++ (parse config buf).frames
        reader := { r.reader with acc := (parse config buf).rest }
        readerAt := .loadWrite }
      live := by
  have htaken := h.taken
  have hemits := h.emits
  rw [Ring.unparsed, hat] at htaken hemits
  refine ⟨h.writeIdx_lt, h.readIdx_lt, h.fits, h.backlog, h.stream, h.writer, .loadWrite, ?_, ?_⟩
  · change (r.emitted ++ (RelayRing.parse config buf).frames).flatten ++
      (RelayRing.parse config buf).rest = r.consumed
    rw [flatten_append, append_assoc, flatten_parse hsize]
    exact htaken
  · intro hframes
    obtain ⟨later, hlater, -⟩ := hemits hframes
    have hlaterFrames : ∀ frame ∈ later, IsFrame frame := by
      intro frame hframe
      apply hframes frame
      rw [hlater]
      exact mem_append_right _ hframe
    have hbuf : buf <+: later.flatten := by
      have hconsumed : r.consumed <+: r.accepted.flatten := by
        rw [← h.stream, append_assoc]
        exact prefix_append _ _
      rw [← htaken, hlater, flatten_append] at hconsumed
      exact (prefix_append_right_inj _).mp hconsumed
    obtain ⟨rest, hrest, hnext⟩ := parse_frames hsize hlaterFrames hbuf
    exact ⟨rest, by rw [append_assoc, ← hrest]; exact hlater, fun _ => hnext⟩

theorem Held.readerStep (h : Held config r live) (hexp : config.exponent ≤ 31)
    (hs : r.readerStep config = some r') (hopen : r'.reader.closed = false) :
    Held config r' live := by
  have hreader := h.reader
  have htaken := h.taken
  have hemits := h.emits
  rw [Ring.readerStep] at hs
  cases hat : r.readerAt with
  | idle =>
    rw [hat] at hs
    cases hs
  | loadWrite =>
    rw [Ring.unparsed, hat] at htaken hemits
    rw [hat] at hs
    cases hs
    refine ⟨h.writeIdx_lt, h.readIdx_lt, h.fits, h.backlog, h.stream, h.writer, ?_, htaken,
      hemits⟩
    have hload : ReaderFits config r.shared r.reader.acc
        (.loadRead (advance r.shared.readIdx r.shared.unread)) := .loadRead _ (Nat.le_refl _)
    rwa [Shared.unread, advance_distance h.writeIdx_lt h.readIdx_lt] at hload
  | loadRead write =>
    rw [Ring.unparsed, hat] at htaken hemits
    rw [hat] at hs hreader
    cases hreader with
    | loadRead avail havail =>
      have hlt : avail < 2 ^ 32 := Nat.lt_of_le_of_lt havail (distance_lt _ _)
      simp only [distance_advance h.readIdx_lt hlt] at hs
      cases hs
      split
      · exact ⟨h.writeIdx_lt, h.readIdx_lt, h.fits, h.backlog, h.stream, h.writer, .arm _,
          htaken, hemits⟩
      · exact ⟨h.writeIdx_lt, h.readIdx_lt, h.fits, h.backlog, h.stream, h.writer,
          .copy _ avail havail, htaken, hemits⟩
  | copy write read avail =>
    rw [Ring.unparsed, hat] at htaken hemits
    rw [hat] at hs hreader
    cases hs
    cases hreader with
    | copy _ _ havail =>
      refine ⟨h.writeIdx_lt, h.readIdx_lt, h.fits, h.backlog, h.stream, h.writer, ?_, htaken,
        hemits⟩
      have hsubarray : r.shared.subarray config r.shared.readIdx avail =
          around config.cap r.shared.data r.shared.readIdx avail := by
        rw [Shared.subarray, and_mask, window_append_window (mod_lt _ config.cap_pos)
          (Nat.le_trans havail h.fits), around_mod]
      rw [hsubarray]
      exact .store avail havail
  | store read avail buf =>
    have hunparsed : r.unparsed = r.reader.acc := by rw [Ring.unparsed, hat]
    rw [hat] at hs hreader
    cases hreader with
    | store _ havail =>
      simp only [drop_left] at hs
      cases hs
      exact h.take hexp havail hunparsed
  | notify buf =>
    rw [hat] at hs
    cases hs
    split
    · next hoversized =>
      rw [if_pos hoversized] at hopen
      cases hopen
    · next hsize => exact h.parse hat (by simpa using hsize)
  | arm expectedWrite =>
    rw [Ring.unparsed, hat] at htaken hemits
    rw [hat] at hs
    cases hs
    exact ⟨h.writeIdx_lt, h.readIdx_lt, h.fits, h.backlog, h.stream, h.writer, .idle, htaken,
      hemits⟩

/-! ## Every run -/

/-- Neither end is closed. -/
def Ring.isOpen (r : Ring) : Bool := !r.writer.closed && !r.reader.closed

/-- A write carries bytes. -/
def Event.carries : Event → Bool
  | .write bytes _ => !bytes.isEmpty
  | _ => true

/-- The domain: neither end is closed, and no write is empty. -/
def InStream (r : Ring) (e : Event) : Prop := (r.isOpen && e.carries) = true

instance (r : Ring) (e : Event) : Decidable (InStream r e) :=
  inferInstanceAs (Decidable (_ = true))

theorem Held.fresh (config : Config) (data : ℕ → UInt8) :
    Held config (Ring.fresh config data) [] where
  writeIdx_lt := config.origin_lt
  readIdx_lt := config.origin_lt
  fits := by
    change distance config.origin config.origin ≤ config.cap
    rw [distance_self]
    exact zero_le _
  backlog := by
    constructor
    · rfl
    · intro bytes hbytes
      cases hbytes
    · intro bytes hbytes
      cases hbytes
    · intro _
      rfl
    · rfl
  stream := by
    change [] ++ around config.cap data config.origin (distance config.origin config.origin) ++ [] =
      []
    rw [distance_self]
    rfl
  writer := .idle
  reader := .idle
  taken := rfl
  emits _ := ⟨[], rfl, fun _ frame hframe => by cases hframe⟩

theorem Held.write (h : Held config r live) (hbytes : bytes ≠ []) (aged : Bool)
    (hopen : (r.write config bytes aged).writer.closed = false) :
    ∃ live', Held config (r.write config bytes aged) live' := by
  rw [Ring.write] at hopen ⊢
  split
  · exact ⟨live, h⟩
  · next hclosed =>
    rw [if_neg hclosed] at hopen
    split
    · next hzero =>
      have hnil := h.backlog.eq_nil hzero
      subst hnil
      exact ⟨[], h.writeIdx_lt, h.readIdx_lt, h.fits, h.backlog, h.stream,
        .loadWrite _ (.write bytes hbytes), h.reader, h.taken, h.emits⟩
    · next hbacklog =>
      rw [if_neg hbacklog] at hopen
      split
      · next haged =>
        rw [if_pos haged] at hopen
        cases hopen
      · next haged =>
        rw [if_neg haged] at hopen
        split
        · next hover =>
          rw [if_pos hover] at hopen
          cases hopen
        · have hlive : live ≠ [] := by
            rintro rfl
            have hsum := h.backlog.bytes
            simp only [flatten_nil, length_nil] at hsum
            omega
          exact ⟨_, (h.append hlive hbytes).armFlush⟩

theorem Held.resumeFlush (h : Held config r live) (aged : Bool)
    (hopen : (r.resumeFlush aged).writer.closed = false) :
    Held config (r.resumeFlush aged) live := by
  have hresumed : Held config
      { r with
        writer := { r.writer with flushArmed := false }
        flushWait := .none
        writerAt := .idle }
      live :=
    ⟨h.writeIdx_lt, h.readIdx_lt, h.fits, h.backlog.congr rfl rfl rfl rfl, h.stream, .idle,
      h.reader, h.taken, h.emits⟩
  rw [Ring.resumeFlush] at hopen ⊢
  split
  · next hclosed =>
    rw [if_pos hclosed] at hopen
    have hfalse : r.writer.closed = false := hopen
    rw [hfalse] at hclosed
    cases hclosed
  · next hclosed =>
    rw [if_neg hclosed] at hopen
    split
    · next haged =>
      rw [if_pos haged] at hopen
      cases hopen
    · exact hresumed.flushNext

theorem ReaderAt.eq_idle {at' : ReaderAt} (h : at'.isIdle = true) : at' = .idle := by
  cases at' <;> first | rfl | cases h

theorem Held.drain (h : Held config r live) (hidle : r.readerAt = .idle) :
    Held config { r with readerAt := .loadWrite } live := by
  have htaken := h.taken
  have hemits := h.emits
  rw [Ring.unparsed, hidle] at htaken hemits
  exact ⟨h.writeIdx_lt, h.readIdx_lt, h.fits, h.backlog, h.stream, h.writer, .loadWrite, htaken,
    hemits⟩

theorem Held.step {e : Event} (h : Held config r live) (hexp : config.exponent ≤ 31)
    (hin : InStream r e) (hs : step config r e = some r') (hopen : r'.isOpen = true) :
    ∃ live', Held config r' live' := by
  simp only [Ring.isOpen, Bool.and_eq_true, Bool.not_eq_true'] at hopen
  simp only [InStream, Bool.and_eq_true] at hin
  cases e with
  | write bytes aged =>
    have hbytes : bytes ≠ [] := by simpa [Event.carries] using hin.2
    obtain ⟨-, ⟨⟩⟩ := Option.ite_none_right_eq_some.mp hs
    exact h.write hbytes aged hopen.1
  | notify =>
    obtain ⟨-, ⟨⟩⟩ := Option.ite_none_right_eq_some.mp hs
    exact ⟨live, h.writeIdx_lt, h.readIdx_lt, h.fits, h.backlog, h.stream, h.writer, h.reader,
      h.taken, h.emits⟩
  | resumeFlush aged =>
    obtain ⟨-, ⟨⟩⟩ := Option.ite_none_right_eq_some.mp hs
    exact ⟨live, h.resumeFlush aged hopen.1⟩
  | writer => exact h.writerStep hexp hs
  | closeWriter =>
    obtain ⟨-, ⟨⟩⟩ := Option.ite_none_right_eq_some.mp hs
    exact absurd hopen.1 (by simp [Ring.closeWriter, Writer.close])
  | start =>
    simp only [RelayRing.step] at hs
    split at hs
    · next hidle =>
      simp only [Bool.and_eq_true] at hidle
      cases hs
      split
      · exact ⟨live, h⟩
      · exact ⟨live, h.drain (ReaderAt.eq_idle hidle.1)⟩
    · cases hs
  | resumeDrain =>
    simp only [RelayRing.step] at hs
    split at hs
    · next hidle =>
      simp only [Bool.and_eq_true] at hidle
      have hresumed : Held config
          { r with reader := { r.reader with waiting := false }, readWait := .none } live :=
        ⟨h.writeIdx_lt, h.readIdx_lt, h.fits, h.backlog, h.stream, h.writer, h.reader, h.taken,
          h.emits⟩
      cases hs
      split
      · exact ⟨live, hresumed⟩
      · exact ⟨live, hresumed.drain (ReaderAt.eq_idle hidle.1)⟩
    · cases hs
  | reader => exact ⟨live, h.readerStep hexp hs hopen.2⟩
  | closeReader =>
    obtain ⟨-, ⟨⟩⟩ := Option.ite_none_right_eq_some.mp hs
    cases hopen.2

/-- The stream, the count, the copy and the frames of a ring. -/
structure Faithful (config : Config) (r : Ring) : Prop where
  /-- Nothing is lost, repeated or reordered. -/
  stream : r.consumed ++ r.inRing config ++ r.writer.held = r.accepted.flatten
  /-- `pendingBytes` is the number of bytes in the deque. -/
  counted : r.writer.pendingBytes = r.writer.held.length
  /-- No cell the writer is about to copy to holds an unread byte. -/
  spared : ∀ p write n, r.writerAt = .copy p write n → ∀ i < r.shared.unread, ∀ j < n,
    (r.shared.readIdx + i) % config.cap ≠ (write + j) % config.cap
  /-- The emitted frames are the first of the writes, and the next one is not there whole unless
  the reader is about to look for it. -/
  frames : (∀ bytes ∈ r.accepted, IsFrame bytes) → ∃ later, r.accepted = r.emitted ++ later ∧
    (r.readerAt.isParsing = false → ∀ frame ∈ later.head?,
      r.consumed.length < r.emitted.flatten.length + frame.length)

theorem Held.faithful (h : Held config r live) (hexp : config.exponent ≤ 31) :
    Faithful config r where
  stream := by
    rw [h.backlog.held]
    exact h.stream
  counted := h.backlog.pendingBytes
  spared p write n hat i hi j hj := by
    have hwriter := h.writer
    rw [hat] at hwriter
    cases hwriter with
    | copy _ _ _ _ hfit =>
      rw [add_mod r.shared.writeIdx, h.mod_cap hexp, ← add_mod, add_assoc]
      exact add_mod_ne (by omega) (by omega)
  frames hframes := by
    obtain ⟨later, hlater, hnext⟩ := h.emits hframes
    refine ⟨later, hlater, fun hparsing frame hframe => ?_⟩
    rw [← h.taken, length_append]
    exact Nat.add_lt_add_left (hnext hparsing frame hframe) _

theorem faithful_of_reaches {data : ℕ → UInt8} {es : List Event} (hexp : config.exponent ≤ 31)
    (hrun : (ring config data).ReachesWhere InStream es r) (hopen : r.isOpen = true) :
    Faithful config r := by
  have hheld : r.isOpen = true → ∃ live, Held config r live := by
    refine hrun.invariant (I := fun r => r.isOpen = true → ∃ live, Held config r live)
      (fun _ => ⟨[], Held.fresh config data⟩) ?_
    intro s e s' hinv hin hs hopen'
    obtain ⟨live, h⟩ := hinv (by
      simp only [InStream, Bool.and_eq_true] at hin
      exact hin.1)
    exact h.step hexp hin hs hopen'
  obtain ⟨live, h⟩ := hheld hopen
  exact h.faithful hexp

/-! ## Runs -/

/-- A ring of four bytes, three positions before they wrap. -/
def smallRing : Config where
  exponent := 2
  origin := 2 ^ 32 - 3
  origin_lt := by decide
  maxPendingBytes := none
  maxFrameBytes := none

/-- A frame with one byte. -/
def shortFrame : Bytes := [1, 0, 0, 0, 7]

/-- The frame is written in two pieces and read in two. -/
def wrappedRun : List Event :=
  [.write shortFrame false, .writer, .writer, .writer, .writer, .writer, .notify, .start, .reader,
    .reader, .reader, .reader, .reader, .resumeFlush false, .writer, .writer, .writer, .writer,
    .writer, .reader, .reader, .reader, .reader, .reader]

/-- The frame arrived, and nothing is left on the way. -/
def arrived (r : Ring) : Bool :=
  r.isOpen && decide (r.emitted = [shortFrame]) && decide (r.writer.pendingBytes = 0) &&
    decide (r.shared.writeIdx = 2)

theorem faithful_wrappedRun : ∃ r, Faithful smallRing r ∧ arrived r = true := by
  obtain ⟨r, hr, harrived⟩ :
      ∃ r, (ring smallRing fun _ => 0).ReachesWhere InStream wrappedRun r ∧ arrived r = true :=
    Machine.exists_of_execWhere (by decide +kernel)
  have hopen : r.isOpen = true := by
    simp only [arrived, Bool.and_eq_true] at harrived
    exact harrived.1.1.1
  exact ⟨r, faithful_of_reaches (by decide) hr hopen, harrived⟩

/-- A ring whose capacity is the number of positions. -/
def fullRing : Config where
  exponent := 32
  origin := 0
  origin_lt := by decide
  maxPendingBytes := none
  maxFrameBytes := none

/-- A frame of `2 ^ 32` bytes. -/
def fullFrame : Bytes := [252, 255, 255, 255] ++ List.replicate (2 ^ 32 - 4) 0

theorem length_fullFrame : fullFrame.length = 2 ^ 32 := by
  rw [fullFrame, length_append, length_replicate]
  rfl

theorem isFrame_fullFrame : IsFrame fullFrame := by
  rw [IsFrame, length_fullFrame]
  rfl

/-- The full ring after the copy of a frame of at least `2 ^ 32` bytes, before the store. -/
def overfull (frame : Bytes) : Ring :=
  { Ring.fresh fullRing fun _ => 0 with
    shared := (Ring.fresh fullRing fun _ => 0).shared.set fullRing 0 (frame.take (2 ^ 32))
    writerAt := .store { caller := .write, bytes := frame, offset := 0 } 0 (2 ^ 32) }

theorem next_fullRing {es : List Event} {s s' : Ring} {e : Event}
    (h : (ring fullRing fun _ => 0).ReachesWhere InStream es s)
    (hstep : step fullRing s e = some s') (hopen : s.isOpen = true)
    (hcarries : e.carries = true) :
    (ring fullRing fun _ => 0).ReachesWhere InStream (es ++ [e]) s' := by
  refine .next h ?_ hstep
  rw [InStream, hopen, hcarries]
  rfl

theorem reaches_overfull {frame : Bytes} (hlength : 2 ^ 32 ≤ frame.length) :
    (ring fullRing fun _ => 0).ReachesWhere InStream
      ([] ++ [.write frame false] ++ [.writer] ++ [.writer] ++ [.writer]) (overfull frame) := by
  have hcarries : (Event.write frame false).carries = true := by
    cases frame with
    | nil => cases hlength
    | cons byte rest => rfl
  let start := Ring.fresh fullRing fun _ => 0
  let p : Push := { caller := .write, bytes := frame, offset := 0 }
  have hroom : ({ start with writerAt := .loadRead p 0 } : Ring).room fullRing p 0 = 2 ^ 32 := by
    change min (2 ^ 32 - distance 0 0) (frame.length - 0) = _
    rw [distance_self]
    omega
  -- The snapshot of the read position is what the field holds already.
  have hnote : ({ start with writerAt := .loadRead p 0 } : Ring).noteRead p (2 ^ 32) =
      { start with writerAt := .loadRead p 0 } := by
    rw [Ring.noteRead]
    split <;> rfl
  have hwrite : step fullRing start (.write frame false) =
      some { start with writerAt := .loadWrite p } := rfl
  have hloadWrite : step fullRing { start with writerAt := .loadWrite p } .writer =
      some { start with writerAt := .loadRead p 0 } := rfl
  have hloadRead : step fullRing { start with writerAt := .loadRead p 0 } .writer =
      some { start with writerAt := .copy p 0 (2 ^ 32) } := by
    simp only [step, Ring.writerStep, hroom, hnote]
    rw [if_neg (by decide)]
  have hcopy : step fullRing { start with writerAt := .copy p 0 (2 ^ 32) } .writer =
      some (overfull frame) := rfl
  have hloads := next_fullRing (next_fullRing .start hwrite rfl hcarries) hloadWrite rfl rfl
  exact next_fullRing (next_fullRing hloads hloadRead rfl rfl) hcopy rfl rfl

/-- A frame of `2 ^ 32` bytes fills the ring, whose positions are then equal again. -/
theorem not_faithful_filledRing :
    ∃ es r, (ring fullRing fun _ => 0).ReachesWhere InStream es r ∧ r.isOpen = true ∧
      (∀ bytes ∈ r.accepted, IsFrame bytes) ∧ ¬ Faithful fullRing r := by
  have hlength := length_fullFrame
  have hframe := isFrame_fullFrame
  generalize fullFrame = frame at hlength hframe
  have hreaches := reaches_overfull (Nat.le_of_eq hlength.symm)
  let filled : Ring :=
    { overfull frame with
      shared := { (overfull frame).shared with writeIdx := 0 }
      writerAt := .idle
      accepted := [frame]
      owed := true }
  have hstore : step fullRing (overfull frame) .writer = some filled := by
    have hwhole : ¬ 2 ^ 32 < frame.length := by omega
    simp only [step, Ring.writerStep, overfull, Ring.pushed, if_neg hwhole]
    rfl
  refine ⟨_, filled, next_fullRing hreaches hstore rfl rfl, rfl, ?_, fun hfaithful => ?_⟩
  · intro bytes hbytes
    rw [mem_singleton.mp hbytes]
    exact hframe
  · have hstream := congrArg length hfaithful.stream
    have hring : filled.inRing fullRing = [] := by
      change Circular.around fullRing.cap _ 0 (distance 0 0) = []
      rw [distance_self]
      rfl
    rw [hring] at hstream
    rw [flatten_singleton, hlength] at hstream
    cases hstream

end AdapterWs.RelayRing
