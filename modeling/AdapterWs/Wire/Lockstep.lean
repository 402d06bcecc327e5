import AdapterWs.Wire.StreamFidelity

/-!
# Slots in lock-step

A series of samples is written into one bit writer after another, and each buffer is read by a
reader of its own. On the integer path the reader adds, and a sum is never the negative zero. So a
negative zero on that path leaves two slots that differ, and the next exclusive or is wrong. Every
other sample leaves the two slots equal.
-/

namespace AdapterWs.Wire

open Throwing Binary64 List Slot

variable {e d : Slot} {v : Binary64} {samples : List Binary64}

/-! ## Frames -/

/-- Samples in one writer: the bits, and the slot after each. -/
def writeSamples (slot : Slot) : List Binary64 → Bits × List Slot
  | [] => ([], [])
  | v :: samples =>
    let w := writeStreamValue slot v
    let r := writeSamples w.2 samples
    (w.1 ++ r.1, w.2 :: r.2)

/-- The bytes of one writer, and the slot after each sample. -/
def writeFrame (slot : Slot) (samples : List Binary64) : Bytes × List Slot :=
  let r := writeSamples slot samples
  (finish r.1, r.2)

/-- A sample is read, with the slot after it. -/
def readSample : Throwing (Slot × Bits) (Binary64 × Slot) := do
  let value ← readStreamValue
  let slot ← getSlot
  pure (value, slot)

/-- The samples of one reader, with the slot after each. -/
def readFrame (slot : Slot) (count : ℕ) (bytes : Bytes) : Option (List (Binary64 × Slot)) :=
  (times count readSample (slot, bitsOf bytes)).1

/-- The slots of two ends are equal, the sample bit for bit. -/
structure Slot.Equal (e d : Slot) : Prop where
  has : d.has = e.has
  prev : d.prev = e.prev
  prevDelta : d.prevDelta.strictEq e.prevDelta = true
  hasWindow : d.hasWindow = e.hasWindow
  wLead : d.wLead = e.wLead
  wLen : d.wLen = e.wLen

/-- A sample was read as the number that was written, and left equal slots. -/
def Received (sent received : Binary64 × Slot) : Prop :=
  received.1.strictEq sent.1 = true ∧ sent.2.Equal received.2

/-- The samples of every writer are read as they were written, and leave equal slots. -/
def LockStep : Slot → Slot → List (List Binary64) → Prop
  | _, _, [] => True
  | e, d, samples :: frames =>
    let w := writeFrame e samples
    ∃ read, readFrame d samples.length w.1 = some read ∧
      List.Forall₂ Received (samples.zip w.2) read ∧
        LockStep (w.2.getLastD e) ((read.map Prod.snd).getLastD d) frames

/-- A negative zero on the integer path. -/
def LosesZero (slot : Slot) (value : Binary64) : Prop :=
  slot.has = true ∧ (intPath slot value).isSome = true ∧ value = negZero

instance (slot : Slot) (value : Binary64) : Decidable (LosesZero slot value) :=
  inferInstanceAs (Decidable (_ ∧ _ ∧ _))

/-- No negative zero rides the integer path. -/
def KeepsZeros : Slot → List Binary64 → Prop
  | _, [] => True
  | slot, v :: samples => ¬LosesZero slot v ∧ KeepsZeros (writeStreamValue slot v).2 samples

/-- Every difference on the integer path is exact. -/
def ExactDeltas : Slot → List Binary64 → Prop
  | _, [] => True
  | slot, v :: samples =>
    (slot.has = true → ∀ delta dod, intPath slot v = some (delta, dod) →
      delta.scaled = v.scaled - slot.prev.scaled ∧
        dod.scaled = delta.scaled - slot.prevDelta.scaled) ∧
      ExactDeltas (writeStreamValue slot v).2 samples

/-! ## One sample -/

/-- The slots of the two ends hold the same numbers and the same sample. -/
structure Slot.InStep (e d : Slot) : Prop where
  agree : Slot.Agree e d
  prev : d.prev = e.prev

theorem Slot.InStep.equal (h : InStep e d) : e.Equal d := by
  obtain ⟨n, he, hd, -⟩ := h.agree.delta
  exact ⟨h.agree.has, h.prev, (hd.strictEq_iff he).mpr rfl, h.agree.hasWindow, h.agree.wLead,
    h.agree.wLen⟩

/-- A sample that is no lost zero is read exactly, and the slots stay in step. -/
theorem readStreamValue_inStep (h : InStep e d) (hv : v.isFinite = true)
    (hkept : ¬LosesZero e v) :
    ∃ d', (∀ rest, readStreamValue.Gives (d, (writeStreamValue e v).1 ++ rest) v (d', rest)) ∧
      InStep (writeStreamValue e v).2 d' := by
  have hstep : ∀ d', Slot.Agree (writeStreamValue e v).2 d' → d'.prev = v →
      InStep (writeStreamValue e v).2 d' := fun d' hagree hprev =>
    ⟨hagree, hprev.trans (writeStreamValue_prev e v).symm⟩
  cases hhas : e.has with
  | false =>
    refine ⟨_, readStreamValue_first h.agree hhas v, hstep _ ?_ rfl⟩
    rw [writeStreamValue, hhas, Bool.not_false, if_pos rfl]
    exact h.agree.first hv
  | true =>
    cases hint : intPath e v with
    | some r =>
      obtain ⟨v', d', hread, hvalue, hagree, hprev, hsign'⟩ :=
        readStreamValue_int h.agree hhas hint
      have hsign : v ≠ negZero := fun hneg =>
        hkept ⟨hhas, Option.isSome_iff_exists.mpr ⟨r, hint⟩, hneg⟩
      have heq : v' = v := by
        by_cases hzero : v.scaled = 0
        · rw [eq_of_scaled_eq_zero hzero hsign,
            eq_of_scaled_eq_zero (hvalue.trans hzero) hsign']
        · exact eq_of_scaled_eq (not_isNaN_of_isFinite (hprev ▸ hagree.finite'))
            (not_isNaN_of_isFinite hv) hvalue (hvalue.symm ▸ hzero)
      rw [heq] at hread hprev
      exact ⟨d', hread, hstep d' hagree hprev⟩
    | none =>
      obtain ⟨d', hread, hprev, hagree⟩ := readStreamValue_xor h.agree hhas hint
      rw [h.prev, Words.xor_xor, wordsToF64_f64ToWords] at hread hprev hagree
      exact ⟨d', hread, hstep d' (hagree hv hv rfl) hprev⟩

theorem readStreamValue_losesZero (h : InStep e d) (hloses : LosesZero e v) :
    ∃ v' d', (∀ rest, readStreamValue.Gives (d, (writeStreamValue e v).1 ++ rest) v' (d', rest)) ∧
      d'.prev ≠ (writeStreamValue e v).2.prev := by
  obtain ⟨hhas, hsome, rfl⟩ := hloses
  obtain ⟨⟨delta, dod⟩, hint⟩ := Option.isSome_iff_exists.mp hsome
  obtain ⟨v', d', hread, -, -, hprev, hsign⟩ := readStreamValue_int h.agree hhas hint
  refine ⟨v', d', hread, ?_⟩
  rwa [writeStreamValue_prev, hprev]

/-! ## Samples and frames -/

theorem gives_readSample {bits rest : Bits} {d' : Slot}
    (h : readStreamValue.Gives (d, bits) v (d', rest)) :
    readSample.Gives (d, bits) (v, d') (d', rest) :=
  h.bind (Gives.bind (a := d') rfl (gives_pure _ _))

/-- Samples that keep their zeros are read, and the slots stay in step. -/
theorem gives_samples (h : InStep e d) (hfinite : ∀ v ∈ samples, v.isFinite = true)
    (hkeeps : KeepsZeros e samples) :
    ∃ read d', (∀ rest, (times samples.length readSample).Gives
        (d, (writeSamples e samples).1 ++ rest) read (d', rest)) ∧
      List.Forall₂ Received (samples.zip (writeSamples e samples).2) read ∧
        (read.map Prod.snd).getLastD d = d' ∧
          InStep ((writeSamples e samples).2.getLastD e) d' := by
  induction samples generalizing e d with
  | nil => exact ⟨[], d, fun rest => gives_times_zero _ _, .nil, rfl, h⟩
  | cons v samples ih =>
    obtain ⟨hkept, hrest⟩ := hkeeps
    have hv := hfinite v (.head _)
    obtain ⟨d₁, hread, hstep⟩ := readStreamValue_inStep h hv hkept
    obtain ⟨read, d', hreads, hreceived, hlast, hend⟩ :=
      ih hstep (fun w hw => hfinite w (mem_cons_of_mem v hw)) hrest
    refine ⟨(v, d₁) :: read, d', fun rest => ?_, .cons ⟨?_, hstep.equal⟩ hreceived, ?_, ?_⟩
    · rw [writeSamples, append_assoc]
      exact (gives_readSample (hread _)).times_succ (hreads rest)
    · rw [strictEq, not_isNaN_of_isFinite hv]
      simp
    · rw [map_cons, getLastD_cons]
      exact hlast
    · rw [writeSamples, getLastD_cons]
      exact hend

/-- Samples that are read in lock-step keep their zeros. -/
theorem keepsZeros_of_received {bits : Bits} (h : InStep e d)
    (hfinite : ∀ v ∈ samples, v.isFinite = true) {read : List (Binary64 × Slot)} (hread :
      (times samples.length readSample (d, (writeSamples e samples).1 ++ bits)).1 = some read)
    (hreceived : List.Forall₂ Received (samples.zip (writeSamples e samples).2) read) :
    KeepsZeros e samples := by
  induction samples generalizing e d read with
  | nil => trivial
  | cons v samples ih =>
    rw [writeSamples, append_assoc] at hread
    rw [writeSamples, zip_cons_cons] at hreceived
    by_cases hloses : LosesZero e v
    · obtain ⟨v', d', hsample, hprev⟩ := readStreamValue_losesZero h hloses
      obtain ⟨reads, -, rfl⟩ := times_succ_eq_some (gives_readSample (hsample _)) hread
      obtain ⟨⟨-, hequal⟩, -⟩ := forall₂_cons.mp hreceived
      exact absurd hequal.prev hprev
    · obtain ⟨d', hsample, hstep⟩ :=
        readStreamValue_inStep h (hfinite v (.head _)) hloses
      obtain ⟨reads, hreads, rfl⟩ := times_succ_eq_some (gives_readSample (hsample _)) hread
      obtain ⟨-, hrest⟩ := forall₂_cons.mp hreceived
      exact ⟨hloses, ih hstep (fun w hw => hfinite w (mem_cons_of_mem v hw)) hreads hrest⟩

theorem keepsZeros_append {samples' : List Binary64} :
    KeepsZeros e (samples ++ samples') ↔
      KeepsZeros e samples ∧ KeepsZeros ((writeSamples e samples).2.getLastD e) samples' := by
  induction samples generalizing e with
  | nil => exact iff_and_self.mpr fun _ => trivial
  | cons v samples ih =>
    rw [cons_append, KeepsZeros, KeepsZeros, ih, writeSamples, getLastD_cons, and_assoc]

/-- Frames are in lock-step if and only if no zero is lost. -/
theorem Slot.InStep.lockStep_iff {frames : List (List Binary64)} (h : InStep e d)
    (hfinite : ∀ v ∈ frames.flatten, v.isFinite = true) :
    LockStep e d frames ↔ KeepsZeros e frames.flatten := by
  induction frames generalizing e d with
  | nil => exact Iff.rfl
  | cons samples frames ih =>
    rw [flatten_cons] at hfinite ⊢
    have hfirst : ∀ v ∈ samples, v.isFinite = true := fun v hv =>
      hfinite v (mem_append_left _ hv)
    have hothers : ∀ v ∈ frames.flatten, v.isFinite = true := fun v hv =>
      hfinite v (mem_append_right _ hv)
    obtain ⟨padding, hbits⟩ := bitsOf_finish (writeSamples e samples).1
    have hreader : ∀ read, readFrame d samples.length (writeFrame e samples).1 = some read ↔
        (times samples.length readSample
          (d, (writeSamples e samples).1 ++ padding)).1 = some read := by
      intro read
      rw [readFrame, writeFrame, hbits]
    rw [keepsZeros_append]
    constructor
    · rintro ⟨read, hread, hreceived, hrest⟩
      have hkeeps := keepsZeros_of_received h hfirst ((hreader read).mp hread) hreceived
      obtain ⟨reads, d', hreads, -, hlast, hend⟩ := gives_samples h hfirst hkeeps
      have hsame : reads = read := by
        have hrun := (hreader read).mp hread
        rw [show times samples.length readSample _ = _ from hreads padding] at hrun
        exact Option.some.inj hrun
      subst hsame
      rw [hlast] at hrest
      exact ⟨hkeeps, (ih hend hothers).mp hrest⟩
    · rintro ⟨hkeeps, hrest⟩
      obtain ⟨reads, d', hreads, hreceived, hlast, hend⟩ := gives_samples h hfirst hkeeps
      refine ⟨reads, (hreader reads).mpr ?_, hreceived, ?_⟩
      · rw [show times samples.length readSample _ = _ from hreads padding]
      · rw [hlast]
        exact (ih hend hothers).mpr hrest

/-! ## Exact differences -/

theorem Slot.Agree.self (h : Slot.Agree e d) : Slot.Agree e e := by
  obtain ⟨n, he, -, hbound⟩ := h.delta
  exact ⟨rfl, rfl, rfl, rfl, h.fits, h.finite, h.finite, rfl, n, he, he, hbound⟩

theorem Slot.Agree.exactDeltas (h : Slot.Agree e e) (hfinite : ∀ v ∈ samples, v.isFinite = true) :
    ExactDeltas e samples := by
  induction samples generalizing e with
  | nil => trivial
  | cons v samples ih =>
    refine ⟨fun _ delta dod hint => ?_, ih ?_ fun w hw => hfinite w (mem_cons_of_mem v hw)⟩
    · obtain ⟨k, hk, -, hbound⟩ := h.delta
      obtain ⟨n, p, hn, hp, -, -, hdelta, -, hdod, -⟩ := intPath_spec hk hbound hint
      rw [hdelta.value, hdod.value, hn.value, hp.value, hk.value]
      exact ⟨by ring, by ring⟩
    · obtain ⟨_, d', -, -, -, hagree⟩ := readStreamValue_writeStreamValue h
        (hfinite v (.head _)) fun hlost => hlost.2.1 rfl
      exact hagree.self

/-! ## The series -/

/-- Samples in any number of writers, from fresh slots, are read in lock-step if and only if no
negative zero rides the integer path; every difference on that path is exact in any case. -/
theorem lockStep_iff_keepsZeros {frames : List (List Binary64)}
    (hfinite : ∀ v ∈ frames.flatten, v.isFinite = true) :
    (LockStep createStreamSlot createStreamSlot frames ↔
        KeepsZeros createStreamSlot frames.flatten) ∧
      ExactDeltas createStreamSlot frames.flatten :=
  ⟨InStep.lockStep_iff ⟨agree_createStreamSlot, rfl⟩ hfinite,
    agree_createStreamSlot.exactDeltas hfinite⟩

/-- A gauge that moves, with a negative zero as its first sample. -/
def gauge : List (List Binary64) := [[negZero, .ofInt 3], [.ofPattern false 1, .ofInt 5]]

theorem lockStep_iff_keepsZeros_gauge :
    (LockStep createStreamSlot createStreamSlot gauge ↔
        KeepsZeros createStreamSlot gauge.flatten) ∧
      ExactDeltas createStreamSlot gauge.flatten ∧ KeepsZeros createStreamSlot gauge.flatten := by
  have hfinite : ∀ v ∈ gauge.flatten, v.isFinite = true := by decide +kernel
  obtain ⟨hiff, hexact⟩ := lockStep_iff_keepsZeros hfinite
  refine ⟨hiff, hexact, ?_⟩
  exact ⟨by decide +kernel, by decide +kernel, by decide +kernel, by decide +kernel, trivial⟩

/-- `0.5`. -/
def half : Binary64 := .ofPattern false (1022 * 2 ^ 52)

/-- After a negative zero on the integer path the next sample has the wrong sign. -/
theorem not_lockStep_negZero : ¬ ∀ frames : List (List Binary64),
    (∀ v ∈ frames.flatten, v.isFinite = true) →
      LockStep createStreamSlot createStreamSlot frames := by
  intro h
  obtain ⟨read, hread, hreceived, -⟩ := h [[.ofInt 1, negZero, half]] (by decide +kernel)
  have hwrong : ((readFrame createStreamSlot 3
      (writeFrame createStreamSlot [.ofInt 1, negZero, half]).1).bind fun read => read[2]?).any
        (fun r => r.1.strictEq half) = false := by decide +kernel
  change readFrame createStreamSlot 3 _ = some read at hread
  rw [hread] at hwrong
  simp only [writeFrame, writeSamples, zip_cons_cons, forall₂_cons_left_iff] at hreceived
  obtain ⟨first, _, -, ⟨second, _, -, ⟨third, _, ⟨hvalue, -⟩, -, rfl⟩, rfl⟩, rfl⟩ := hreceived
  exact absurd hvalue (Bool.eq_false_iff.mp hwrong)

end AdapterWs.Wire
