import AdapterWs.Lib.JsMap
import AdapterWs.Lib.JsString

/-!
# Own properties

The own properties of a JavaScript object are enumerated with the array indices first, in
ascending order, and then the other keys in the order they were created.
-/

namespace AdapterWs.OwnProperties

open JsString List Prod

universe u

/-- A decimal digit. -/
def digit (c : UInt16) : Option ℕ :=
  if 48 ≤ c.toNat ∧ c.toNat ≤ 57 then some (c.toNat - 48) else none

/-- The number of a sequence of digits. -/
def decimal : ℕ → JsString → Option ℕ
  | n, [] => some n
  | n, c :: s =>
    match digit c with
    | some d => decimal (n * 10 + d) s
    | none => none

/-- The array index a key spells: a number below `2^32 - 1` without leading zeros. -/
def arrayIndex (key : JsString) : Option ℕ :=
  match key with
  | [] => none
  | c :: s =>
    if c.toNat = 48 ∧ s ≠ [] then none
    else (decimal 0 (c :: s)).filter fun n => decide (n < 2 ^ 32 - 1)

/-- Whether a new key is enumerated before an old one. -/
def precedes (key old : JsString) : Bool :=
  match arrayIndex key, arrayIndex old with
  | some m, some n => decide (m < n)
  | some _, none => true
  | none, _ => false

variable {V : Type u}

/-- A property is created, or its value replaced. -/
def define (key : JsString) (v : V) : List (JsString × V) → List (JsString × V)
  | [] => [(key, v)]
  | p :: props =>
    if p.1 = key then (key, v) :: props
    else if precedes key p.1 then (key, v) :: p :: props
    else p :: define key v props

/-- An object made of properties that are created in turn. -/
def ofList (props : List (JsString × V)) : List (JsString × V) :=
  props.foldl (fun o p => define p.1 p.2 o) []

/-- Properties in the order of enumeration, no key twice. -/
def Ordered (props : List (JsString × V)) : Prop :=
  props.Pairwise fun p q => p.1 ≠ q.1 ∧ precedes q.1 p.1 = false

instance (props : List (JsString × V)) : Decidable (Ordered props) :=
  inferInstanceAs (Decidable (props.Pairwise _))

variable {key : JsString} {v : V} {props acc : List (JsString × V)} {k : JsString}

theorem Ordered.nodup (h : Ordered props) : (props.map fst).Nodup :=
  pairwise_map.mpr (List.Pairwise.imp (fun h => h.1) h)

theorem ordered_iff_keys : Ordered props ↔
    (props.map fst).Pairwise fun k l => k ≠ l ∧ precedes l k = false := by
  rw [pairwise_map, Ordered]

/-- A property that comes after all others is appended. -/
theorem define_of_follows (h : ∀ p ∈ props, p.1 ≠ key ∧ precedes key p.1 = false) :
    define key v props = props ++ [(key, v)] := by
  induction props with
  | nil => rfl
  | cons p props ih =>
    obtain ⟨hne, hnot⟩ := h p (.head _)
    rw [define, if_neg hne, hnot, if_neg Bool.false_ne_true,
      ih fun q hq => h q (.tail _ hq), cons_append]

/-- Properties that are created in their order are appended. -/
theorem foldl_define (h : Ordered (acc ++ props)) :
    props.foldl (fun o p => define p.1 p.2 o) acc = acc ++ props := by
  induction props generalizing acc with
  | nil => simp
  | cons p props ih =>
    have hfollows : ∀ q ∈ acc, q.1 ≠ p.1 ∧ precedes p.1 q.1 = false := fun q hq =>
      (pairwise_append.mp h).2.2 q hq p (.head _)
    rw [foldl_cons, define_of_follows hfollows, ih (by simpa using h)]
    simp

theorem ofList_of_ordered (h : Ordered props) : ofList props = props := foldl_define h

theorem mem_keys_define :
    k ∈ (define key v props).map fst ↔ k = key ∨ k ∈ props.map fst := by
  induction props with
  | nil => simp [define]
  | cons p props ih =>
    rw [define]
    split_ifs with heq hbefore
    · simp [← heq]
    · simp
    · rw [map_cons, mem_cons, ih, map_cons, mem_cons]
      tauto

theorem mem_keys_ofList : k ∈ (ofList props).map fst ↔ k ∈ props.map fst := by
  have hfold : ∀ acc : List (JsString × V),
      k ∈ (props.foldl (fun o p => define p.1 p.2 o) acc).map fst ↔
        k ∈ acc.map fst ∨ k ∈ props.map fst := by
    induction props with
    | nil => simp
    | cons p props ih =>
      intro acc
      rw [foldl_cons, ih, mem_keys_define, map_cons, mem_cons]
      tauto
  rw [ofList, hfold]
  simp

/-- A property that was created is found, and the others are as before. -/
theorem lookup_define (k : JsString) : JsMap.lookup k (define key v props) =
    if key = k then some v else JsMap.lookup k props := by
  induction props with
  | nil => rfl
  | cons p props ih =>
    obtain ⟨key', v'⟩ := p
    rw [define]
    split_ifs with heq hbefore hk <;> simp_all [JsMap.lookup]

/-- A key that precedes another precedes what does not precede that. -/
theorem precedes_trans {old later : JsString} (h : precedes k old = true)
    (hlater : precedes later old = false) : precedes later k = false := by
  simp only [precedes] at h hlater ⊢
  cases hk : arrayIndex k with
  | none =>
    rw [hk] at h
    cases h
  | some m =>
    cases hl : arrayIndex later with
    | none => rfl
    | some n =>
      rw [hk] at h
      rw [hl] at hlater
      cases ho : arrayIndex old with
      | none =>
        rw [ho] at hlater
        cases hlater
      | some q =>
        rw [ho] at h hlater
        simp only [decide_eq_true_eq, decide_eq_false_iff_not, not_lt] at h hlater ⊢
        omega

theorem Ordered.define (h : Ordered props) (key : JsString) (v : V) :
    Ordered (define key v props) := by
  induction props with
  | nil => exact pairwise_singleton _ _
  | cons p props ih =>
    obtain ⟨hfirst, hrest⟩ := pairwise_cons.mp h
    rw [OwnProperties.define]
    split_ifs with heq hbefore
    · exact pairwise_cons.mpr ⟨fun q hq => heq ▸ hfirst q hq, hrest⟩
    · refine pairwise_cons.mpr ⟨fun q hq => ?_, h⟩
      rcases mem_cons.mp hq with rfl | hq
      · refine ⟨Ne.symm heq, ?_⟩
        exact precedes_trans hbefore (by simp only [precedes]; cases arrayIndex q.1 <;> simp)
      · obtain ⟨-, hnot⟩ := hfirst q hq
        refine ⟨?_, precedes_trans hbefore hnot⟩
        rintro rfl
        rw [hnot] at hbefore
        cases hbefore
    · refine pairwise_cons.mpr ⟨fun q hq => ?_, ih hrest⟩
      have hkeys : q.1 = key ∨ q.1 ∈ props.map fst :=
        mem_keys_define.mp (mem_map_of_mem hq)
      rcases hkeys with hkey | hkey
      · rw [hkey]
        exact ⟨heq, Bool.eq_false_iff.mpr hbefore⟩
      · obtain ⟨q', hq', hsame⟩ := mem_map.mp hkey
        rw [← hsame]
        exact hfirst q' hq'

theorem ordered_ofList (props : List (JsString × V)) : Ordered (ofList props) := by
  have hfold : ∀ acc : List (JsString × V), Ordered acc →
      Ordered (props.foldl (fun o p => define p.1 p.2 o) acc) := by
    induction props with
    | nil => exact fun _ h => h
    | cons p props ih => exact fun acc h => ih _ (h.define p.1 p.2)
  exact hfold [] .nil

/-- Properties that are created in turn hide the ones before them. -/
theorem lookup_foldl_define {l : List (JsString × V)} (hn : (l.map fst).Nodup)
    (acc : List (JsString × V)) (k : JsString) :
    JsMap.lookup k (l.foldl (fun o p => define p.1 p.2 o) acc) =
      (JsMap.lookup k l).or (JsMap.lookup k acc) := by
  induction l generalizing acc with
  | nil => rfl
  | cons p l ih =>
    obtain ⟨key, v⟩ := p
    rw [map_cons, nodup_cons] at hn
    rw [foldl_cons, ih hn.2, lookup_define, JsMap.lookup]
    by_cases hk : key = k
    · subst hk
      have hnone : JsMap.lookup key l = none :=
        (@JsMap.get_eq_none_iff _ _ _ ⟨l, hn.2⟩ key).mpr hn.1
      simp [hnone]
    · simp [hk]

theorem lookup_ofList (hn : (props.map fst).Nodup) (k : JsString) :
    JsMap.lookup k (ofList props) = JsMap.lookup k props := by
  rw [ofList, lookup_foldl_define hn, JsMap.lookup, Option.or_none]

end AdapterWs.OwnProperties
