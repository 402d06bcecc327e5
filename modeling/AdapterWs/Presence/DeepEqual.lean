import AdapterWs.Wire.ValueText

/-!
# Deep equality

The comparison of presence values. Past a depth it falls back on the texts of the two, and a pair
of objects that it meets again counts as equal, which no value without cycles can tell. On JSON
values of less depth it is equality, where the properties of an object have no order.
-/

namespace AdapterWs.Presence

open JsString Wire Value Bool

/-- `DEEP_EQUAL_MAX_DEPTH`. -/
def DEEP_EQUAL_MAX_DEPTH : ℕ := 256

mutual

/-- `deepEqual(a, b, seen, depth)`. Two functions, or two symbols, are not told to be one. -/
def deepEqual (depth : ℕ) : Value → Value → Bool
  | .undefined, .undefined => true
  | .null, .null => true
  | .bool a, .bool b => a == b
  | .number x, .number y => x.strictEq y
  | .string s, .string t => decide (s = t)
  | .array xs, .array ys =>
    if DEEP_EQUAL_MAX_DEPTH < depth + 1 then
      decide ((Value.array xs).stringify = (Value.array ys).stringify)
    else xs.length == ys.length && deepEqualElems (depth + 1) xs ys
  | .object ps, .object qs =>
    if DEEP_EQUAL_MAX_DEPTH < depth + 1 then
      decide ((Value.object ps).stringify = (Value.object qs).stringify)
    else ps.length == qs.length && deepEqualProps (depth + 1) ps qs
  | .array xs, .object qs =>
    decide (DEEP_EQUAL_MAX_DEPTH < depth + 1) &&
      decide ((Value.array xs).stringify = (Value.object qs).stringify)
  | .object ps, .array ys =>
    decide (DEEP_EQUAL_MAX_DEPTH < depth + 1) &&
      decide ((Value.object ps).stringify = (Value.array ys).stringify)
  | _, _ => false

/-- Every element equals the one in its place. -/
def deepEqualElems (depth : ℕ) : List Value → List Value → Bool
  | x :: xs, y :: ys => deepEqual depth x y && deepEqualElems depth xs ys
  | _, _ => true

/-- Every property equals the one of its name. -/
def deepEqualProps (depth : ℕ) :
    List (JsString × Value) → List (JsString × Value) → Bool
  | [], _ => true
  | (k, v) :: ps, qs =>
    (match JsMap.lookup k qs with
      | none => false
      | some w => deepEqual depth v w) && deepEqualProps depth ps qs

end

/-- The same JSON value: the properties of an object have no order. -/
inductive Same : Value → Value → Prop
  | null : Same .null .null
  | bool (b : Bool) : Same (.bool b) (.bool b)
  | number {x y : Binary64} (h : x.strictEq y = true) : Same (.number x) (.number y)
  | string (s : JsString) : Same (.string s) (.string s)
  | array {xs ys : List Value} (hlength : xs.length = ys.length)
      (h : ∀ (i : ℕ) v w, xs[i]? = some v → ys[i]? = some w → Same v w) :
      Same (.array xs) (.array ys)
  | object {ps qs : List (JsString × Value)}
      (hkeys : ∀ k, k ∈ ps.map Prod.fst ↔ k ∈ qs.map Prod.fst)
      (h : ∀ k v w, JsMap.lookup k ps = some v → JsMap.lookup k qs = some w → Same v w) :
      Same (.object ps) (.object qs)

theorem mem_keys_of_lookup {k : JsString} {v : Value} {ps : List (JsString × Value)}
    (h : JsMap.lookup k ps = some v) : k ∈ ps.map Prod.fst :=
  List.mem_map_of_mem (JsMap.mem_of_lookup h)

mutual

theorem Same.of_deepEqual (a b : Value) {depth : ℕ} (ha : a.isJson = true) (hb : b.isJson = true)
    (hdepth : depth + a.depth ≤ DEEP_EQUAL_MAX_DEPTH) (h : deepEqual depth a b = true) :
    Same a b := by
  cases a with
  | undefined => cases ha
  | function answer => cases ha
  | symbol => cases ha
  | null =>
    cases b with
    | null => exact .null
    | _ => cases h
  | bool x =>
    cases b with
    | bool y =>
      rw [eq_of_beq h]
      exact .bool y
    | _ => cases h
  | number x =>
    cases b with
    | number y => exact .number h
    | _ => cases h
  | string s =>
    cases b with
    | string t =>
      rw [of_decide_eq_true h]
      exact .string t
    | _ => cases h
  | array xs =>
    rw [Value.depth] at hdepth
    have hshallow : ¬DEEP_EQUAL_MAX_DEPTH < depth + 1 := by omega
    cases b with
    | array ys =>
      rw [deepEqual, if_neg hshallow, and_eq_true] at h
      exact .array (eq_of_beq h.1) (Same.of_deepEqualElems xs ys ha hb (by omega) h.2)
    | object qs =>
      rw [deepEqual, decide_eq_false hshallow] at h
      cases h
    | _ => cases h
  | object ps =>
    rw [Value.depth] at hdepth
    rw [isJson, and_eq_true, decide_eq_true_eq] at ha
    have hshallow : ¬DEEP_EQUAL_MAX_DEPTH < depth + 1 := by omega
    cases b with
    | object qs =>
      rw [isJson, and_eq_true, decide_eq_true_eq] at hb
      rw [deepEqual, if_neg hshallow, and_eq_true] at h
      have hprops := Same.of_deepEqualProps ps qs ha.2 hb.2 (by omega) h.2
      have hsub : ps.map Prod.fst ⊆ qs.map Prod.fst := by
        intro k hk
        obtain ⟨p, hp, rfl⟩ := List.mem_map.mp hk
        obtain ⟨w, hw, -⟩ := hprops p hp
        exact mem_keys_of_lookup hw
      have hperm : (ps.map Prod.fst).Perm (qs.map Prod.fst) := by
        refine (List.subperm_of_subset ha.1 hsub).perm_of_length_le ?_
        rw [List.length_map, List.length_map, eq_of_beq h.1]
      refine .object (fun k => hperm.mem_iff) fun k v w hv hw => ?_
      obtain ⟨w', hw', hsame⟩ := hprops (k, v) (JsMap.mem_of_lookup hv)
      cases hw.symm.trans hw'
      exact hsame
    | array ys =>
      rw [deepEqual, decide_eq_false hshallow] at h
      cases h
    | _ => cases h

theorem Same.of_deepEqualElems (xs ys : List Value) {depth : ℕ}
    (hxs : isJsonElems xs = true) (hys : isJsonElems ys = true)
    (hdepth : depth + depthElems xs ≤ DEEP_EQUAL_MAX_DEPTH)
    (h : deepEqualElems depth xs ys = true) :
    ∀ (i : ℕ) v w, xs[i]? = some v → ys[i]? = some w → Same v w := by
  cases xs with
  | nil => exact fun i v w hv => by cases hv
  | cons x xs =>
    cases ys with
    | nil => exact fun i v w _ hw => by cases hw
    | cons y ys =>
      rw [isJsonElems, and_eq_true] at hxs hys
      rw [depthElems] at hdepth
      rw [deepEqualElems, and_eq_true] at h
      intro i v w hv hw
      cases i with
      | zero =>
        cases hv
        cases hw
        exact Same.of_deepEqual x y hxs.1 hys.1 (by omega) h.1
      | succ i => exact Same.of_deepEqualElems xs ys hxs.2 hys.2 (by omega) h.2 i v w hv hw

theorem Same.of_deepEqualProps (ps qs : List (JsString × Value)) {depth : ℕ}
    (hps : isJsonProps ps = true) (hqs : isJsonProps qs = true)
    (hdepth : depth + depthProps ps ≤ DEEP_EQUAL_MAX_DEPTH)
    (h : deepEqualProps depth ps qs = true) :
    ∀ p ∈ ps, ∃ w, JsMap.lookup p.1 qs = some w ∧ Same p.2 w := by
  cases ps with
  | nil => exact fun p hp => by cases hp
  | cons q ps =>
    obtain ⟨k, v⟩ := q
    rw [isJsonProps, and_eq_true] at hps
    rw [depthProps] at hdepth
    rw [deepEqualProps, and_eq_true] at h
    intro p hp
    rcases List.mem_cons.mp hp with rfl | hp
    · cases hlookup : JsMap.lookup k qs with
      | none =>
        rw [hlookup] at h
        cases h.1
      | some w =>
        rw [hlookup] at h
        have hw := isJsonProps_iff.mp hqs _ (JsMap.mem_of_lookup hlookup)
        exact ⟨w, rfl, Same.of_deepEqual v w hps.1 hw (by omega) h.1⟩
    · exact Same.of_deepEqualProps ps qs hps.2 hqs (by omega) h.2 p hp

end

theorem strictEq_self {x : Binary64} (h : x.isFinite = true) : x.strictEq x = true := by
  rw [Binary64.strictEq, Binary64.not_isNaN_of_isFinite h]
  simp

mutual

theorem Same.refl (v : Value) (h : v.isJson = true) : Same v v := by
  cases v with
  | undefined => cases h
  | function answer => cases h
  | symbol => cases h
  | null => exact .null
  | bool b => exact .bool b
  | number x => exact .number (strictEq_self h)
  | string s => exact .string s
  | array xs =>
    refine .array rfl fun i v w hv hw => ?_
    cases hv.symm.trans hw
    exact Same.refl_elems xs h v (List.mem_of_getElem? hv)
  | object ps =>
    rw [isJson, and_eq_true] at h
    refine .object (fun _ => Iff.rfl) fun k v w hv hw => ?_
    cases hv.symm.trans hw
    exact Same.refl_props ps h.2 (k, v) (JsMap.mem_of_lookup hv)

theorem Same.refl_elems (xs : List Value) (h : isJsonElems xs = true) :
    ∀ v ∈ xs, Same v v := by
  cases xs with
  | nil => exact fun v hv => by cases hv
  | cons x xs =>
    rw [isJsonElems, and_eq_true] at h
    intro v hv
    rcases List.mem_cons.mp hv with hv | hv
    · rw [hv]
      exact Same.refl x h.1
    · exact Same.refl_elems xs h.2 v hv

theorem Same.refl_props (ps : List (JsString × Value)) (h : isJsonProps ps = true) :
    ∀ p ∈ ps, Same p.2 p.2 := by
  cases ps with
  | nil => exact fun p hp => by cases hp
  | cons q ps =>
    obtain ⟨k, v⟩ := q
    rw [isJsonProps, and_eq_true] at h
    intro p hp
    rcases List.mem_cons.mp hp with rfl | hp
    · exact Same.refl v h.1
    · exact Same.refl_props ps h.2 p hp

end

end AdapterWs.Presence
