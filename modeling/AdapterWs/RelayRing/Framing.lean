import AdapterWs.RelayRing.Ring

/-!
# Framing

A frame starts with the number of the bytes after its first four. A stream of frames is cut back
into the frames, whatever part of the stream is at hand: what `_parse` emits is a beginning of the
frames, and what it keeps is shorter than the next one.
-/

namespace AdapterWs

open List
namespace RelayRing

variable {config : Config} {buf bytes bytes' : Bytes} {fuel : ℕ} {frames : List Bytes}

/-- The bytes are one frame. -/
def IsFrame (bytes : Bytes) : Prop := bytes.length = 4 + frameLength bytes

instance (bytes : Bytes) : Decidable (IsFrame bytes) := inferInstanceAs (Decidable (_ = _))

theorem IsFrame.four_le (h : IsFrame bytes) : 4 ≤ bytes.length := by
  rw [IsFrame] at h
  omega

theorem frameLength_congr (h : bytes.take 4 = bytes'.take 4) :
    frameLength bytes = frameLength bytes' := by
  have hget (i : ℕ) (hi : i < 4) : bytes.getD i 0 = bytes'.getD i 0 := by
    have hi' := congrArg (fun l : Bytes => l.getD i 0) h
    simpa [getD_eq_getElem?_getD, getElem?_take, hi] using hi'
  simp only [frameLength, hget 0 (by omega), hget 1 (by omega), hget 2 (by omega),
    hget 3 (by omega)]

/-- What is emitted and what is kept are the bytes at hand. -/
theorem flatten_parseLoop (hfuel : buf.length ≤ fuel)
    (hsize : (parseLoop config fuel buf).oversized = false) :
    (parseLoop config fuel buf).frames.flatten ++ (parseLoop config fuel buf).rest = buf := by
  induction fuel generalizing buf with
  | zero => rfl
  | succ fuel ih =>
    rw [parseLoop] at hsize ⊢
    split
    · rfl
    · next hfour =>
      rw [if_neg hfour] at hsize
      split
      · next hrefused =>
        rw [if_pos hrefused] at hsize
        cases hsize
      · next hrefused =>
        rw [if_neg hrefused] at hsize
        split
        · rfl
        · next hwhole =>
          rw [if_neg hwhole] at hsize
          have hshorter : (buf.drop (4 + frameLength buf)).length ≤ fuel := by
            rw [length_drop]; omega
          have hlater := ih hshorter hsize
          rw [flatten_cons, append_assoc, hlater, take_append_drop]

theorem flatten_parse (hsize : (parse config buf).oversized = false) :
    (parse config buf).frames.flatten ++ (parse config buf).rest = buf :=
  flatten_parseLoop (Nat.le_refl _) hsize

/-- Where the bytes are a beginning of some frames, the emitted ones are the first of them, and
the next one is not there whole. -/
theorem parseLoop_frames (hfuel : buf.length ≤ fuel)
    (hsize : (parseLoop config fuel buf).oversized = false)
    (hframes : ∀ frame ∈ frames, IsFrame frame) (hbuf : buf <+: frames.flatten) :
    ∃ later, frames = (parseLoop config fuel buf).frames ++ later ∧
      ∀ frame ∈ later.head?, (parseLoop config fuel buf).rest.length < frame.length := by
  induction fuel generalizing buf frames with
  | zero =>
    refine ⟨frames, rfl, fun frame hframe => ?_⟩
    have := (hframes frame (mem_of_mem_head? hframe)).four_le
    change buf.length < _
    omega
  | succ fuel ih =>
    cases frames with
    | nil =>
      have hempty : buf = [] := prefix_nil.mp hbuf
      subst hempty
      refine ⟨[], ?_, fun frame hframe => by cases hframe⟩
      rw [parseLoop, if_pos (by simp)]
      rfl
    | cons frame frames =>
      have hframe := hframes frame (.head _)
      have hrest : ∀ f ∈ frames, IsFrame f := fun f hf => hframes f (.tail _ hf)
      rw [flatten_cons] at hbuf
      rw [parseLoop] at hsize ⊢
      have hfour := hframe.four_le
      split
      · next hshort =>
        refine ⟨frame :: frames, rfl, fun f hf => ?_⟩
        cases hf
        dsimp only
        omega
      · next hlong =>
        rw [if_neg hlong] at hsize
        -- Both are beginnings of the stream, so they agree on the length.
        have hlength : frameLength buf = frameLength frame := by
          apply frameLength_congr
          obtain ⟨later, hlater⟩ := hbuf
          have htake := congrArg (take 4) hlater
          rwa [take_append_of_le_length (by omega),
            take_append_of_le_length hfour] at htake
        rw [IsFrame] at hframe
        split
        · next hrefused =>
          rw [if_pos hrefused] at hsize
          cases hsize
        · next hrefused =>
          rw [if_neg hrefused] at hsize
          split
          · next hpart =>
            refine ⟨frame :: frames, rfl, fun f hf => ?_⟩
            cases hf
            dsimp only
            omega
          · next hwhole =>
            rw [if_neg hwhole] at hsize
            have hle : frame.length ≤ buf.length := by omega
            obtain ⟨tail, rfl⟩ : frame <+: buf :=
              prefix_of_prefix_length_le (prefix_append _ _) hbuf hle
            have hcut : 4 + frameLength (frame ++ tail) = frame.length := by
              rw [hlength, hframe]
            rw [hcut, drop_left] at hsize
            rw [hcut, drop_left, take_left]
            rw [length_append] at hfuel
            obtain ⟨later, hlater, hnext⟩ := ih (by omega) hsize hrest
              ((prefix_append_right_inj frame).mp hbuf)
            exact ⟨later, by rw [cons_append, ← hlater], hnext⟩

theorem parse_frames (hsize : (parse config buf).oversized = false)
    (hframes : ∀ frame ∈ frames, IsFrame frame) (hbuf : buf <+: frames.flatten) :
    ∃ later, frames = (parse config buf).frames ++ later ∧
      ∀ frame ∈ later.head?, (parse config buf).rest.length < frame.length :=
  parseLoop_frames (Nat.le_refl _) hsize hframes hbuf

end RelayRing
end AdapterWs
