import AdapterWs.Metrics.Collection

/-!
# Series and what is carried of them

A series is a name with its labels, and for a histogram one of its counts. The carried totals are
kept by a text that names the series, and two samples with the same text are samples of the same
series, so carrying a sample adds it to every series it counts towards.
-/

namespace AdapterWs.Metrics

open JsString MetricsCollections List Option

/-- One number of a sample. -/
inductive Part
  | value
  | bucket (i : ℕ)
  | count
  | sum

/-- The number of a sample, and zero where it has none. -/
def Part.of : Part → Sample → ℕ
  | .value, x => x.value.getD 0
  | .bucket i, x => (x.histogram.bind fun h => h.counts[i]?).getD 0
  | .count, x => (x.histogram.map Histogram.count).getD 0
  | .sum, x => (x.histogram.map Histogram.sum).getD 0

/-- A series: a name, its labels in any order, and which number. -/
structure Series where
  name : JsString
  labels : List (JsString × JsString)
  part : Part

/-- What a sample counts towards a series. -/
def Series.of (σ : Series) (x : Sample) : ℕ :=
  if x.name = σ.name ∧ x.labelsOf.entries.Perm σ.labels then σ.part.of x else 0

/-- What samples count towards a series together. -/
def Series.total (σ : Series) (samples : List Sample) : ℕ := (samples.map σ.of).sum

/-- The series of counters and histograms. -/
def Series.Cumulative (m : Manifest) (σ : Series) : Prop :=
  m.type σ.name = some .counter ∨ m.type σ.name = some .histogram

/-- Labels that the manifest declares, with values without comma or equals sign. -/
def Sample.LabelsOk (m : Manifest) (x : Sample) : Prop :=
  ∀ e ∈ x.labelsOf.entries, e.1 ∈ m.labels x.name ∧ unit ',' ∉ e.2 ∧ unit '=' ∉ e.2

/-- A counter with its value, or a histogram with the declared counts. -/
def Sample.Cumulative (m : Manifest) (x : Sample) : Prop :=
  x.LabelsOk m ∧
    (m.type x.name = some .counter ∧ x.value.isSome ∧ x.histogram = none ∨
      m.type x.name = some .histogram ∧ x.value = none ∧
        ∃ h, x.histogram = some h ∧ h.counts.length = m.counts x.name)

/-- A sample is what the manifest declares, if it is a counter or a histogram. -/
def Sample.WellFormed (m : Manifest) (x : Sample) : Prop :=
  m.type x.name = some .counter ∨ m.type x.name = some .histogram → x.Cumulative m

variable {m : Manifest} {σ : Series} {x y : Sample}

@[simp] theorem Series.total_nil (σ : Series) : σ.total [] = 0 := rfl

@[simp] theorem Series.total_append (σ : Series) (xs ys : List Sample) :
    σ.total (xs ++ ys) = σ.total xs + σ.total ys := by
  simp [Series.total]

@[simp] theorem Series.total_cons (σ : Series) (x : Sample) (xs : List Sample) :
    σ.total (x :: xs) = σ.of x + σ.total xs := by
  simp [Series.total]

theorem Series.of_eq_zero (h : x.name ≠ σ.name) : σ.of x = 0 :=
  if_neg fun hname => h hname.1

/-- Samples of one series count towards the same series. -/
theorem Series.of_congr (hname : y.name = x.name) (hlabels : y.labelsOf = x.labelsOf)
    (hpart : σ.part.of y = σ.part.of x) : σ.of y = σ.of x := by
  rw [Series.of, Series.of, hname, hlabels, hpart]

/-! ## Cumulative samples -/

/-- What is carried of a sample counts as much as the sample. -/
theorem cumulativeSample_spec (hx : x.WellFormed m) (hσ : σ.Cumulative m) :
    ((cumulativeSample m x).map σ.of).getD 0 = σ.of x := by
  rw [cumulativeSample]
  cases htype : m.type x.name with
  | none =>
    refine (Series.of_eq_zero ?_).symm
    rintro hname
    rw [Series.Cumulative, ← hname, htype] at hσ
    simp at hσ
  | some type =>
    cases type with
    | counter =>
      obtain ⟨-, ⟨-, hvalue, hhistogram⟩ | ⟨hother, -⟩⟩ := hx (.inl htype)
      · obtain ⟨v, hv⟩ := isSome_iff_exists.mp hvalue
        simp only [hv, map_some, getD_some]
        refine Series.of_congr rfl rfl ?_
        cases σ.part <;> simp [Part.of, hv, hhistogram]
      · rw [htype] at hother
        cases hother
    | gauge =>
      refine (Series.of_eq_zero ?_).symm
      rintro hname
      rw [Series.Cumulative, ← hname, htype] at hσ
      simp at hσ
    | histogram =>
      obtain ⟨-, ⟨hother, -⟩ | ⟨-, hvalue, h, hhistogram, -⟩⟩ := hx (.inr htype)
      · rw [htype] at hother
        cases hother
      · simp only [hhistogram, map_some, getD_some]
        refine Series.of_congr rfl rfl ?_
        cases σ.part <;> simp [Part.of, hvalue, hhistogram]

theorem cumulative_of_cumulativeSample (hx : x.WellFormed m) (hy : cumulativeSample m x = some y) :
    y.Cumulative m := by
  rw [cumulativeSample] at hy
  cases htype : m.type x.name with
  | none => simp [htype] at hy
  | some type =>
    cases type with
    | counter =>
      simp only [htype] at hy
      obtain ⟨v, hv, rfl⟩ := map_eq_some_iff.mp hy
      exact ⟨(hx (.inl htype)).1, .inl ⟨htype, rfl, rfl⟩⟩
    | gauge => simp [htype] at hy
    | histogram =>
      simp only [htype] at hy
      obtain ⟨h, hh, rfl⟩ := map_eq_some_iff.mp hy
      obtain ⟨hlabels, ⟨hother, -⟩ | ⟨-, -, g, hg, hlen⟩⟩ := hx (.inr htype)
      · rw [htype] at hother
        cases hother
      · rw [hh, some.injEq] at hg
        exact ⟨hlabels, .inr ⟨htype, rfl, h, rfl, hg ▸ hlen⟩⟩

/-- What is carried of a report counts as much as the report. -/
theorem total_cumulativeSamplesOf {samples : List Sample} (hs : ∀ x ∈ samples, x.WellFormed m)
    (hσ : σ.Cumulative m) : σ.total (cumulativeSamplesOf m samples) = σ.total samples := by
  induction samples with
  | nil => rfl
  | cons x xs ih =>
    have ih := ih fun y hy => hs y (mem_cons_of_mem x hy)
    have hx := cumulativeSample_spec (hs x (.head _)) hσ
    rw [cumulativeSamplesOf] at ih ⊢
    rw [Series.total_cons, ← ih, ← hx]
    cases hc : cumulativeSample m x with
    | none => simp [hc]
    | some y => simp [hc]

/-! ## The text of a series -/

/-- A separator that neither side has ends the front of both. -/
theorem append_cons_inj {α : Type} {c : α} {a a' b b' : List α} (ha : c ∉ a) (ha' : c ∉ a')
    (h : a ++ c :: b = a' ++ c :: b') : a = a' ∧ b = b' := by
  induction a generalizing a' with
  | nil =>
    cases a' with
    | nil => exact ⟨rfl, (cons.inj h).2⟩
    | cons d a' => exact absurd (mem_cons.mpr (.inl (cons.inj h).1)) ha'
  | cons d a ih =>
    cases a' with
    | nil => exact absurd (mem_cons.mpr (.inl (cons.inj h).1.symm)) ha
    | cons d' a' =>
      obtain ⟨hd, htail⟩ := cons.inj h
      obtain ⟨rfl, rfl⟩ := ih (fun hc => ha (mem_cons_of_mem d hc))
        (fun hc => ha' (mem_cons_of_mem d' hc)) htail
      exact ⟨by rw [hd], rfl⟩

theorem labelText_inj {e e' : JsString × JsString} (he : unit '=' ∉ e.1) (he' : unit '=' ∉ e'.1)
    (h : labelText e = labelText e') : e = e' :=
  Prod.ext (append_cons_inj he he' h).1 (append_cons_inj he he' h).2

/-- Texts without a comma are read back from what joins them. -/
theorem intercalate_inj {l l' : List JsString} (hl : ∀ p ∈ l, unit ',' ∉ p ∧ p ≠ [])
    (hl' : ∀ p ∈ l', unit ',' ∉ p ∧ p ≠ [])
    (h : [unit ','].intercalate l = [unit ','].intercalate l') : l = l' := by
  have hread : ∀ l : List JsString, (∀ p ∈ l, unit ',' ∉ p ∧ p ≠ []) → l ≠ [] →
      ([unit ','].intercalate l).splitOn (unit ',') = l := fun l hl hne =>
    splitOn_intercalate _ (fun p hp => (hl p hp).1) hne
  have hempty : ∀ l : List JsString, (∀ p ∈ l, unit ',' ∉ p ∧ p ≠ []) →
      [unit ','].intercalate l = [] → l = [] := by
    intro l hl hnil
    by_contra hne
    have hparts := hread l hl hne
    rw [hnil] at hparts
    exact (hl [] (hparts ▸ mem_singleton_self [])).2 rfl
  by_cases hne : l = []
  · subst hne
    exact (hempty l' hl' h.symm).symm
  · have hne' : l' ≠ [] := by
      rintro rfl
      exact hne (hempty l hl h)
    rw [← hread l hl hne, h, hread l' hl' hne']

theorem keyOf_inj (hx : x.Cumulative m) (hy : y.Cumulative m)
    (h : keyOf x.name x.labelsOf = keyOf y.name y.labelsOf) :
    x.name = y.name ∧ x.labelsOf.entries.Perm y.labelsOf.entries := by
  have hname : ∀ z : Sample, z.Cumulative m → unit '|' ∉ z.name := by
    rintro z ⟨-, ⟨htype, -⟩ | ⟨htype, -⟩⟩
    · exact m.name_ok _ (by rw [htype]; exact some_ne_none _)
    · exact m.name_ok _ (by rw [htype]; exact some_ne_none _)
  have hlabel : ∀ z : Sample, z.Cumulative m → ∀ e ∈ z.labelsOf.entries, unit '=' ∉ e.1 :=
    fun z hz e he => (m.label_ok _ _ (hz.1 e he).1).2
  have htext : ∀ z : Sample, z.Cumulative m → ∀ p ∈ (z.labelsOf.entries.insertionSort
      fun e e' => codeUnitLe e.1 e'.1 = true).map labelText, unit ',' ∉ p ∧ p ≠ [] := by
    intro z hz p hp
    obtain ⟨e, he, rfl⟩ := mem_map.mp hp
    rw [mem_insertionSort] at he
    refine ⟨?_, by simp [labelText]⟩
    rw [labelText, mem_append, mem_cons, not_or, not_or]
    exact ⟨(m.label_ok _ _ (hz.1 e he).1).1, by decide, (hz.1 e he).2.1⟩
  obtain ⟨hnames, htexts⟩ := append_cons_inj (hname x hx) (hname y hy) h
  have hsorted := intercalate_inj (htext x hx) (htext y hy) htexts
  refine ⟨hnames, ?_⟩
  have hentries : ∀ l l' : List (JsString × JsString), (∀ e ∈ l, unit '=' ∉ e.1) →
      (∀ e ∈ l', unit '=' ∉ e.1) → l.map labelText = l'.map labelText → l = l' := by
    intro l
    induction l with
    | nil =>
      intro l' _ _ hmap
      exact (map_eq_nil_iff.mp hmap.symm).symm
    | cons e l ih =>
      intro l' hl hl' hmap
      cases l' with
      | nil => cases hmap
      | cons e' l' =>
        obtain ⟨he, htail⟩ := cons.inj hmap
        rw [labelText_inj (hl e (.head _)) (hl' e' (.head _)) he,
          ih l' (fun e he => hl e (.tail _ he))
            (fun e he => hl' e (.tail _ he)) htail]
  have hperm := hentries _ _ (fun e he => hlabel x hx e (mem_insertionSort _ |>.mp he))
    (fun e he => hlabel y hy e (mem_insertionSort _ |>.mp he)) hsorted
  refine (perm_insertionSort (fun e e' => codeUnitLe e.1 e'.1 = true) _).symm.trans ?_
  rw [hperm]
  exact perm_insertionSort _ _

/-! ## Carrying -/

theorem addSample_spec (hx : x.Cumulative m) (hy : y.Cumulative m) (hname : x.name = y.name)
    (hlabels : x.labelsOf.entries.Perm y.labelsOf.entries) :
    (addSample x y).Cumulative m ∧ (addSample x y).name = x.name ∧
      (addSample x y).labelsOf = x.labelsOf ∧ ∀ σ : Series, σ.of (addSample x y) = σ.of x + σ.of y := by
  have hof : ∀ z : Sample, z.name = x.name → z.labelsOf = x.labelsOf →
      (∀ p : Part, p.of z = p.of x + p.of y) → ∀ σ : Series, σ.of z = σ.of x + σ.of y := by
    intro z hzname hzlabels hpart σ
    have hsame : (y.name = σ.name ∧ y.labelsOf.entries.Perm σ.labels) ↔
        x.name = σ.name ∧ x.labelsOf.entries.Perm σ.labels := by
      rw [hname]
      exact and_congr_right fun _ => ⟨hlabels.trans, hlabels.symm.trans⟩
    simp only [Series.of, hzname, hzlabels, hsame, hpart]
    split_ifs <;> rfl
  obtain ⟨hxlabels, ⟨hxtype, hxvalue, hxhist⟩ | ⟨hxtype, hxvalue, g, hg, hglen⟩⟩ := hx
  · obtain ⟨-, ⟨-, hyvalue, hyhist⟩ | ⟨hytype, -⟩⟩ := hy
    · obtain ⟨v, hv⟩ := isSome_iff_exists.mp hxvalue
      obtain ⟨v', hv'⟩ := isSome_iff_exists.mp hyvalue
      have hadd : addSample x y = { x with value := some (v + v') } := by
        simp [addSample, hyhist, hv, hv']
      rw [hadd]
      refine ⟨⟨hxlabels, .inl ⟨hxtype, rfl, hxhist⟩⟩, rfl, rfl, hof _ rfl rfl fun p => ?_⟩
      cases p <;> simp [Part.of, hv, hv', hxhist, hyhist]
    · rw [← hname, hxtype] at hytype
      cases hytype
  · obtain ⟨-, ⟨hytype, -⟩ | ⟨-, hyvalue, h, hh, hhlen⟩⟩ := hy
    · rw [← hname, hxtype] at hytype
      cases hytype
    · have hadd : addSample x y = { x with
          histogram := some { g with
            counts := g.counts.mapIdx fun i n => n + (h.counts[i]?).getD 0
            count := g.count + h.count
            sum := g.sum + h.sum } } := by
        simp [addSample, hg, hh]
      rw [hadd]
      refine ⟨⟨hxlabels, .inr ⟨hxtype, hxvalue, _, rfl, by simpa using hglen⟩⟩, rfl, rfl,
        hof _ rfl rfl fun p => ?_⟩
      cases p with
      | value => simp [Part.of, hxvalue, hyvalue]
      | count => simp [Part.of, hg, hh]
      | sum => simp [Part.of, hg, hh]
      | bucket i =>
        have hlen : g.counts.length = h.counts.length := by rw [hglen, hhlen, hname]
        simp only [Part.of, hg, hh, bind_some, getElem?_mapIdx]
        by_cases hi : i < g.counts.length
        · rw [getElem?_eq_getElem hi]
          rfl
        · rw [getElem?_eq_none (by omega), getElem?_eq_none (by omega)]
          rfl

/-- Each carried sample is kept under the text of its series. -/
def CarriedOk (m : Manifest) (retired : JsMap JsString Sample) : Prop :=
  ∀ key x, retired.get key = some x → key = keyOf x.name x.labelsOf ∧ x.Cumulative m

/-- What is carried towards a series. -/
def Series.carried (σ : Series) (retired : JsMap JsString Sample) : ℕ := retired.total σ.of

theorem carry_spec {retired : JsMap JsString Sample} (h : CarriedOk m retired) (hx : x.Cumulative m) :
    CarriedOk m (carry retired x) ∧
      ∀ σ : Series, σ.carried (carry retired x) = σ.carried retired + σ.of x := by
  rw [carry]
  have hset : ∀ y : Sample, y.Cumulative m → keyOf x.name x.labelsOf = keyOf y.name y.labelsOf →
      CarriedOk m (retired.set (keyOf x.name x.labelsOf) y) := by
    intro y hy hkey key z hz
    rw [JsMap.get_set] at hz
    split_ifs at hz with hk
    · cases hz
      exact ⟨hk.symm.trans hkey, hy⟩
    · exact h key z hz
  cases hget : retired.get (keyOf x.name x.labelsOf) with
  | none =>
    refine ⟨hset x hx rfl, fun σ => ?_⟩
    have htotal := JsMap.total_set σ.of retired (keyOf x.name x.labelsOf) x
    rw [hget] at htotal
    exact htotal
  | some y =>
    obtain ⟨hkey, hy⟩ := h _ y hget
    obtain ⟨hname, hlabels⟩ := keyOf_inj hy hx hkey.symm
    obtain ⟨hadd, haddname, haddlabels, hof⟩ := addSample_spec hy hx hname hlabels
    refine ⟨hset _ hadd (by rw [haddname, haddlabels]; exact hkey), fun σ => ?_⟩
    have htotal := JsMap.total_set σ.of retired (keyOf x.name x.labelsOf) (addSample y x)
    rw [hget, hof σ] at htotal
    simp only [map_some, getD_some] at htotal
    simp only [Series.carried]
    omega

theorem foldl_carry {samples : List Sample} (hs : ∀ x ∈ samples, x.Cumulative m)
    {retired : JsMap JsString Sample} (h : CarriedOk m retired) :
    CarriedOk m (samples.foldl carry retired) ∧
      ∀ σ : Series, σ.carried (samples.foldl carry retired) = σ.carried retired + σ.total samples := by
  induction samples generalizing retired with
  | nil => exact ⟨h, fun _ => rfl⟩
  | cons x xs ih =>
    obtain ⟨hcarried, hof⟩ := carry_spec h (hs x (.head _))
    obtain ⟨hfold, hsum⟩ := ih (fun y hy => hs y (mem_cons_of_mem x hy)) hcarried
    refine ⟨hfold, fun σ => ?_⟩
    rw [foldl_cons, hsum σ, hof σ, Series.total_cons]
    omega

end AdapterWs.Metrics
