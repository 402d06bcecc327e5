import AdapterWs.RelayRing.Ring

/-!
# Positions and the backlog

The arithmetic of positions that wrap at `2 ^ 32`, and the writer's deque: its entries before the
head are cleared, the first live entry is consumed up to the offset, and the byte count is what is
left.
-/

namespace AdapterWs

open List
namespace RelayRing

variable {config : Config} {write read n k : ℕ} (pos : ℕ)

/-! ## Positions -/

theorem advance_lt (n : ℕ) : advance pos n < 2 ^ 32 := Nat.mod_lt _ (by decide)

theorem distance_lt (write read : ℕ) : distance write read < 2 ^ 32 := Nat.mod_lt _ (by decide)

theorem distance_self : distance pos pos = 0 := by
  rw [distance]
  omega

theorem distance_advance (hread : read < 2 ^ 32) (hn : n < 2 ^ 32) :
    distance (advance read n) read = n := by
  rw [distance, advance]
  omega

theorem advance_distance (hwrite : write < 2 ^ 32) (hread : read < 2 ^ 32) :
    advance read (distance write read) = write := by
  rw [distance, advance]
  omega

theorem advance_advance (n k : ℕ) : advance (advance pos n) k = advance pos (n + k) := by
  rw [advance, advance, advance]
  omega

theorem distance_advance_left (hwrite : write < 2 ^ 32) (hread : read < 2 ^ 32)
    (hfit : distance write read + n < 2 ^ 32) :
    distance (advance write n) read = distance write read + n := by
  rw [← advance_distance hwrite hread, advance_advance, distance_advance hread hfit,
    distance_advance hread (distance_lt _ _)]

theorem distance_advance_right (hwrite : write < 2 ^ 32) (hread : read < 2 ^ 32)
    (hn : n ≤ distance write read) :
    distance write (advance read n) = distance write read - n := by
  rw [distance, advance]
  rw [distance] at hn ⊢
  omega

theorem Config.cap_pos (config : Config) : 0 < config.cap := Nat.two_pow_pos _

/-- Masking a position is taking it modulo the capacity. -/
theorem and_mask (config : Config) (pos : ℕ) : pos &&& (config.cap - 1) = pos % config.cap :=
  Nat.and_two_pow_sub_one_eq_mod _ _

theorem Config.cap_le (hexp : config.exponent ≤ 31) : config.cap ≤ 2 ^ 31 :=
  Nat.pow_le_pow_right (by decide) hexp

theorem advance_mod_cap (hexp : config.exponent ≤ 31) (pos n : ℕ) :
    advance pos n % config.cap = (pos + n) % config.cap :=
  Nat.mod_mod_of_dvd _ (Nat.pow_dvd_pow 2 (by omega))

/-! ## The deque -/

/-- The deque holds the writes `live`, the first of them up to the offset. -/
structure Backlog (w : Writer) (live : List Bytes) : Prop where
  entries : w.pending = List.replicate w.pendingHead none ++ live.map some
  nonempty : ∀ bytes ∈ live, bytes ≠ []
  offset : ∀ bytes ∈ live.head?, w.pendingOffset < bytes.length
  empty : live = [] → w.pendingOffset = 0
  bytes : w.pendingBytes + w.pendingOffset = live.flatten.length

variable {w : Writer} {live : List Bytes} {bytes : Bytes}

theorem filterMap_id_map_some (live : List Bytes) : (live.map some).filterMap id = live := by
  induction live with
  | nil => rfl
  | cons bytes live ih => simp

theorem Backlog.held (h : Backlog w live) : w.held = live.flatten.drop w.pendingOffset := by
  rw [Writer.held, h.entries, drop_left' (length_replicate), filterMap_id_map_some]

theorem Backlog.pendingBytes (h : Backlog w live) : w.pendingBytes = w.held.length := by
  have := h.bytes
  rw [h.held, length_drop]
  omega

theorem Backlog.pendingBytes_pos (h : Backlog w (bytes :: live)) : 0 < w.pendingBytes := by
  have hoffset := h.offset bytes rfl
  have hbytes := h.bytes
  rw [flatten_cons, length_append] at hbytes
  omega

theorem Backlog.eq_nil (h : Backlog w live) (hzero : w.pendingBytes = 0) : live = [] := by
  cases live with
  | nil => rfl
  | cons bytes live => exact absurd hzero (Nat.ne_of_gt h.pendingBytes_pos)

theorem Backlog.congr {w' : Writer} (h : Backlog w live) (hpending : w'.pending = w.pending)
    (hhead : w'.pendingHead = w.pendingHead) (hoffset : w'.pendingOffset = w.pendingOffset)
    (hbytes : w'.pendingBytes = w.pendingBytes) : Backlog w' live where
  entries := by rw [hpending, hhead, h.entries]
  nonempty := h.nonempty
  offset := by
    rw [hoffset]
    exact h.offset
  empty := by
    rw [hoffset]
    exact h.empty
  bytes := by rw [hbytes, hoffset, h.bytes]

theorem Backlog.append (h : Backlog w live) (hlive : live ≠ []) (hbytes : bytes ≠ []) :
    Backlog
      { w with
        pending := w.pending ++ [some bytes]
        pendingBytes := w.pendingBytes + bytes.length }
      (live ++ [bytes]) where
  entries := by
    dsimp only
    rw [h.entries, append_assoc, map_append]
    rfl
  nonempty b hb := by
    rcases mem_concat.mp hb with hb | rfl
    · exact h.nonempty b hb
    · exact hbytes
  offset := by
    rw [head?_append_of_ne_nil _ hlive]
    exact h.offset
  empty hnil := by simp at hnil
  bytes := by
    have := h.bytes
    simp only [flatten_append, length_append, flatten_singleton]
    omega

theorem Backlog.first (h : Backlog w []) (hn : n < bytes.length) :
    Backlog
      { w with
        pending := w.pending ++ [some bytes]
        pendingOffset := n
        pendingBytes := bytes.length - n }
      [bytes] where
  entries := by simp [h.entries]
  nonempty b hb := by
    rw [mem_singleton.mp hb]
    rintro rfl
    cases hn
  offset first hfirst := by
    cases hfirst
    exact hn
  empty hnil := by cases hnil
  bytes := by
    simp only [flatten_singleton]
    omega

theorem Backlog.progress (h : Backlog w (bytes :: live)) (hn : w.pendingOffset + n < bytes.length) :
    Backlog
      { w with
        pendingOffset := w.pendingOffset + n
        pendingBytes := w.pendingBytes - n }
      (bytes :: live) where
  entries := h.entries
  nonempty := h.nonempty
  offset first hfirst := by
    cases hfirst
    exact hn
  empty hnil := by cases hnil
  bytes := by
    have hbytes := h.bytes
    rw [flatten_cons, length_append] at hbytes ⊢
    dsimp only
    omega

theorem Backlog.completed (h : Backlog w (bytes :: live))
    (hn : w.pendingOffset + n = bytes.length) :
    Backlog
      { w with
        pending := w.pending.set w.pendingHead none
        pendingHead := w.pendingHead + 1
        pendingOffset := 0
        pendingBytes := w.pendingBytes - n }
      live where
  entries := by
    dsimp only
    rw [h.entries, set_append_right _ _ (by simp), length_replicate, Nat.sub_self,
      map_cons, set_cons_zero, replicate_succ', append_assoc]
    rfl
  nonempty b hb := h.nonempty b (.tail _ hb)
  offset first hfirst :=
    length_pos_of_ne_nil
      (h.nonempty first (.tail _ (mem_of_mem_head? hfirst)))
  empty _ := rfl
  bytes := by
    have hbytes := h.bytes
    rw [flatten_cons, length_append] at hbytes
    dsimp only
    omega

theorem Backlog.reset (h : Backlog w live) (hzero : w.pendingBytes = 0) :
    Backlog { w with pending := [], pendingHead := 0 } live := by
  have hnil := h.eq_nil hzero
  subst hnil
  exact ⟨rfl, h.nonempty, h.offset, h.empty, h.bytes⟩

/-! ## Where a call goes on -/

theorem armFlush_eq (w : Writer) :
    w.armFlush = (w, .idle) ∨ w.armFlush = ({ w with flushArmed := true }, .arm) := by
  rw [Writer.armFlush]
  split
  · exact .inl rfl
  · exact .inr rfl

/-- With a write left, the loop pushes what is left of it. -/
theorem Backlog.flushNext_cons (h : Backlog w (bytes :: live)) :
    w.flushNext =
      (w, .loadWrite { caller := .flush, bytes := bytes, offset := w.pendingOffset }) := by
  have hhead : w.pending[w.pendingHead]? = some (some bytes) := by
    rw [h.entries, getElem?_append_right (by simp)]
    simp
  rw [Writer.flushNext, if_neg (Nat.ne_of_gt h.pendingBytes_pos), hhead]

/-- With nothing left, the loop ends and the deque is reset. -/
theorem Backlog.flushNext_nil (h : Backlog w []) :
    w.flushNext = ({ w with pending := [], pendingHead := 0 }, .notify) := by
  have hbytes := h.bytes
  simp only [flatten_nil, length_nil] at hbytes
  have hzero : w.pendingBytes = 0 := by omega
  rw [Writer.flushNext, if_pos hzero, Writer.endFlush, if_pos hzero]

end RelayRing
end AdapterWs
