import AdapterWs.Lib.Weight
import AdapterWs.Presence.DeepEqual
import AdapterWs.Presence.Fields

/-!
# The budget of the fields

A user of the topic keeps the fields that updates have set, and a running total of their bytes:
the name as JSON, the value as JSON, a colon and a comma. An update over the budget is dropped as a
whole. The total is exact in every state, so that small updates do not drift past the budget. The
object that is stored takes one byte more than the total: it has two braces and one comma less.
-/

namespace AdapterWs.Presence

open JsString Wire OwnProperties Option TopicRoster JsMap Value Member

/-- `MAX_PROJECTION_DEPTH`. -/
def MAX_PROJECTION_DEPTH : ℕ := 64

/-- The tests of an update, as JSON has them. -/
def UpdateOptions.json (o : UpdateOptions) : UpdateOptions :=
  { o with
    fieldsBytes := fun fields => (Value.object fields.entries).stringify.map byteLength
    valueBytes := fun v => some v.bytes
    nameBytes := fun k => byteLength (quote k)
    exceedsDepth := fun fields =>
      decide (MAX_PROJECTION_DEPTH < (Value.object fields.entries).depth)
    deepEqual := Presence.deepEqual 0 }

/-- What a field is charged. -/
def fieldSize (k : JsString) (v : Value) : ℕ :=
  byteLength (quote k) + v.bytes + JSON_FIELD_OVERHEAD_BYTES

/-- The fields of a user. -/
def storedFields (u : Member) : Fields := u.fields.getD .empty

/-- The total is exact and within the budget, and the fields are JSON. -/
structure Budgeted (o : UpdateOptions) (u : Member) : Prop where
  exact : u.fieldsBytes = (storedFields u).weight fieldSize
  capped : (storedFields u).weight fieldSize ≤ o.maxTotalFieldsBytes
  json : ∀ k v, (storedFields u).get k = some v →
    v.isJson = true ∧ v.depth < MAX_PROJECTION_DEPTH

/-- Every user is within the budget. -/
def Budgets (o : UpdateOptions) (users : JsMap JsString Member) : Prop :=
  ∀ key u, users.get key = some u → Budgeted o u

/-- The fields of an update are JSON values. -/
def JsonUpdates {W : Type} (_ : TopicRoster W) : RosterEvent W → Prop
  | .update _ fields _ => Value.isJsonProps fields.entries = true
  | _ => True

instance instDecidableJsonUpdates {W : Type} (r : TopicRoster W) :
    (e : RosterEvent W) → Decidable (JsonUpdates r e)
  | .join _ _ _ => inferInstanceAs (Decidable True)
  | .leave _ => inferInstanceAs (Decidable True)
  | .unsubscribe _ => inferInstanceAs (Decidable True)
  | .sync _ _ => inferInstanceAs (Decidable True)
  | .update _ _ _ => inferInstanceAs (Decidable (_ = _))
  | .flush => inferInstanceAs (Decidable True)

section Charges

variable {o : UpdateOptions} {u u' : Member} {users : JsMap JsString Member}
  {fields effective changed : Fields} {fromClient : Bool} {key k : JsString} {v w : Value}

/-! ## What an update adds -/

theorem fieldDelta_json (o : UpdateOptions) (fields : Fields) (k : JsString) (v : Value) :
    fieldDelta o.json fields k v = some ((fieldSize k v : ℤ) - fields.weightAt fieldSize k) := by
  simp only [fieldDelta, UpdateOptions.json, bind_some, weightAt]
  cases fields.get k with
  | none =>
    simp only [map_none, getD_none, fieldSize, some.injEq]
    omega
  | some old =>
    simp only [map_some, getD_some, fieldSize]
    change some ((v.bytes : ℤ) - old.bytes) = _
    rw [some.injEq]
    omega

theorem deltaBytes_json (o : UpdateOptions) (fields changed : Fields) :
    ((fields.assign changed).weight fieldSize : ℤ) =
      fields.weight fieldSize + deltaBytes o.json fields changed := by
  rw [weight_assign, deltaBytes]
  congr 2
  refine List.map_congr_left fun p _ => ?_
  rw [fieldDelta_json, getD_some]

theorem allocate_json (u : Member) : storedFields u.allocate = storedFields u := by
  cases hu : u.fields with
  | none => simp [storedFields, allocate, hu]
  | some fields => simp [storedFields, allocate, hu]

theorem fields_allocate (u : Member) : u.allocate.fields = some (storedFields u) := by
  cases hu : u.fields with
  | none => simp [storedFields, allocate, hu]
  | some fields => simp [storedFields, allocate, hu]

theorem Budgeted.congr (h : Budgeted o u) (hfields : u'.fields = u.fields)
    (hbytes : u'.fieldsBytes = u.fieldsBytes) : Budgeted o u' := by
  have hstored : storedFields u' = storedFields u := by rw [storedFields, hfields, storedFields]
  refine ⟨?_, ?_, ?_⟩
  · rw [hbytes, hstored]
    exact h.exact
  · rw [hstored]
    exact h.capped
  · rw [hstored]
    exact h.json

theorem Budgeted.fieldsBytes_allocate (h : Budgeted o u) :
    u.allocate.fieldsBytes = (storedFields u).weight fieldSize := by
  cases hu : u.fields with
  | none => simp only [allocate, hu, storedFields, getD_none]; rfl
  | some fields =>
    simp only [allocate, hu]
    exact h.exact

theorem Budgeted.allocate (h : Budgeted o u) : Budgeted o u.allocate := by
  refine ⟨?_, ?_, ?_⟩
  · rw [allocate_json]
    exact h.fieldsBytes_allocate
  · rw [allocate_json]
    exact h.capped
  · rw [allocate_json]
    exact h.json

theorem budgeted_new (o : UpdateOptions) (data : Data) : Budgeted o ⟨data, none, 0, 1⟩ :=
  ⟨rfl, Nat.zero_le _, fun _ _ hv => by cases hv⟩

/-! ## What an update stores -/

theorem depth_le_depthProps {props : List (JsString × Value)} :
    ∀ p ∈ props, p.2.depth ≤ depthProps props := by
  induction props with
  | nil => exact List.forall_mem_nil _
  | cons q props ih =>
    obtain ⟨k, v⟩ := q
    intro p hp
    rw [depthProps]
    rcases List.mem_cons.mp hp with rfl | hp
    · exact Nat.le_max_left _ _
    · exact (ih p hp).trans (Nat.le_max_right _ _)

theorem depth_lt_of_admits (h : admits o.json effective = true)
    (hv : effective.get k = some v) : v.depth < MAX_PROJECTION_DEPTH := by
  rw [admits, Bool.and_eq_true] at h
  have hdepth := of_decide_eq_false (Bool.not_eq_true' _ |>.mp h.2)
  have hle : v.depth ≤ _ := depth_le_depthProps _ (get_eq_some_iff.mp hv)
  rw [depth] at hdepth
  omega

/-- A field of an effective update is one of the update. -/
theorem get_of_effectiveFields (h : effectiveFields o fields fromClient = some effective)
    (hv : effective.get k = some v) : fields.get k = some v := by
  rw [effectiveFields] at h
  split_ifs at h
  · cases hallowed : o.clientUpdateFields with
    | none =>
      rw [hallowed] at h
      cases h
    | some allowed =>
      rw [hallowed] at h
      simp only at h
      split_ifs at h
      cases h
      rw [JsMap.get_filter, filter_eq_some_iff] at hv
      exact hv.1
  · cases h
    exact hv

theorem isJson_of_effectiveFields (hjson : isJsonProps fields.entries = true)
    (h : effectiveFields o fields fromClient = some effective) :
    ∀ k v, effective.get k = some v → v.isJson = true := fun k v hv =>
  isJsonProps_iff.mp hjson (k, v) (get_eq_some_iff.mp (get_of_effectiveFields h hv))

/-- A field that does not change has the value already. -/
theorem same_of_unchanged (h : Budgeted o u) (hv : v.isJson = true)
    (hequal : unchanged o.json (storedFields u) k v = true) :
    ∃ w, (storedFields u).get k = some w ∧ Same w v := by
  rw [unchanged] at hequal
  cases hget : (storedFields u).get k with
  | none =>
    rw [hget, getD_none] at hequal
    change deepEqual 0 .undefined v = true at hequal
    cases v with
    | undefined => cases hv
    | _ => cases hequal
  | some w =>
    rw [hget, getD_some] at hequal
    obtain ⟨hjson, hdepth⟩ := h.json k w hget
    have hle : 0 + w.depth ≤ DEEP_EQUAL_MAX_DEPTH := by
      rw [DEEP_EQUAL_MAX_DEPTH]
      rw [MAX_PROJECTION_DEPTH] at hdepth
      omega
    exact ⟨w, rfl, Same.of_deepEqual w v hjson hv hle hequal⟩

/-- The fields of an update that is accepted fit, and are JSON. -/
theorem accepted_eq_some (h : Budgeted o u)
    (haccepted : accepted o.json u effective fromClient = some changed) :
    changed = changedFields o.json (storedFields u) effective fromClient ∧
      ((storedFields u).assign changed).weight fieldSize ≤ o.maxTotalFieldsBytes := by
  simp only [accepted, fields_allocate, getD_some, h.fieldsBytes_allocate] at haccepted
  split_ifs at haccepted with hnone hover
  cases haccepted
  refine ⟨rfl, ?_⟩
  have hsum := deltaBytes_json o (storedFields u)
    (changedFields o.json (storedFields u) effective fromClient)
  change ¬(o.maxTotalFieldsBytes : ℤ) < _ at hover
  omega

/-- The fields of an update that is not accepted do not change, or do not fit. -/
theorem accepted_eq_none (h : Budgeted o u)
    (haccepted : accepted o.json u effective fromClient = none) :
    (changedFields o.json (storedFields u) effective fromClient).size = 0 ∨
      o.maxTotalFieldsBytes < ((storedFields u).assign
        (changedFields o.json (storedFields u) effective fromClient)).weight fieldSize := by
  simp only [accepted, fields_allocate, getD_some, h.fieldsBytes_allocate] at haccepted
  split_ifs at haccepted with hnone hover
  · exact .inl hnone
  · have hsum := deltaBytes_json o (storedFields u)
      (changedFields o.json (storedFields u) effective fromClient)
    change (o.maxTotalFieldsBytes : ℤ) < _ at hover
    refine .inr ?_
    omega

theorem storedFields_store (u : Member) (changed : Fields) :
    storedFields (u.store o.json changed) = (storedFields u).assign changed := by
  simp [storedFields, store, fields_allocate]

theorem get_changedFields (o : UpdateOptions) (fields effective : Fields) (fromClient : Bool)
    (k : JsString) : (changedFields o.json fields effective fromClient).get k =
      (effective.get k).filter fun v =>
        !refused o.json fromClient k && !unchanged o.json fields k v := by
  rw [changedFields, JsMap.get_filter]
  congr 1
  funext v
  rw [fieldDelta_json, isSome_some, Bool.and_true]

theorem Budgeted.store (h : Budgeted o u) (hadmits : admits o.json effective = true)
    (hjson : ∀ k v, effective.get k = some v → v.isJson = true)
    (haccepted : accepted o.json u effective fromClient = some changed) :
    Budgeted o (u.store o.json changed) := by
  obtain ⟨hchanged, hfits⟩ := accepted_eq_some h haccepted
  refine ⟨?_, ?_, fun k v hv => ?_⟩
  · rw [storedFields_store, deltaBytes_json o]
    simp [Member.store, fields_allocate, h.fieldsBytes_allocate]
  · rw [storedFields_store]
    exact hfits
  · rw [storedFields_store, get_assign, or_eq_some_iff] at hv
    rcases hv with hv | ⟨-, hv⟩
    · rw [hchanged, get_changedFields, filter_eq_some_iff] at hv
      exact ⟨hjson k v hv.1, depth_lt_of_admits hadmits hv.1⟩
    · exact h.json k v hv

/-- After an accepted update every field that the guard admits has the new value. -/
theorem same_of_store (h : Budgeted o u) (hjson : ∀ k v, effective.get k = some v → v.isJson = true)
    (hchanged : changed = changedFields o.json (storedFields u) effective fromClient)
    (hv : effective.get k = some v) (hguard : refused o.json fromClient k = false) :
    ∃ w, ((storedFields u).assign changed).get k = some w ∧ Same w v := by
  rw [get_assign, hchanged, get_changedFields, hv, hguard]
  cases hequal : unchanged o.json (storedFields u) k v with
  | false => exact ⟨v, by simp [hequal], Same.refl v (hjson k v hv)⟩
  | true =>
    obtain ⟨w, hw, hsame⟩ := same_of_unchanged h (hjson k v hv) hequal
    have hnone : (some v).filter (fun v =>
        !false && !unchanged o.json (storedFields u) k v) = none := by simp [hequal]
    exact ⟨w, by rw [hnone, none_or, hw], hsame⟩

end Charges

/-! ## Calls -/

section Calls

variable {W : Type} [DecidableEq W] {o : UpdateOptions} {r r' : TopicRoster W}
  {users : JsMap JsString Member} {u : Member} {key : JsString}

theorem Budgets.set (h : Budgets o users) (hu : Budgeted o u) : Budgets o (users.set key u) := by
  intro key' u' hget
  rw [get_set] at hget
  split_ifs at hget
  · cases hget
    exact hu
  · exact h key' u' hget

theorem Budgets.delete (h : Budgets o users) : Budgets o (users.delete key) := by
  intro key' u' hget
  rw [get_delete] at hget
  split_ifs at hget
  exact h key' u' hget

omit [DecidableEq W] in
theorem Budgets.enter (h : Budgets o r.users) (key : JsString) (data : Data) :
    Budgets o (r.enter o.json key data).users := by
  rw [TopicRoster.enter]
  cases hget : r.users.get key with
  | none => exact h.set (budgeted_new o data)
  | some existing =>
    have hexisting := h key existing hget
    simp only
    split_ifs
    · exact h.set (hexisting.congr rfl rfl)
    · exact h.set (hexisting.congr rfl rfl)

theorem Budgets.leaveTopic (h : Budgets o r.users) (ws : W) :
    Budgets o (r.leaveTopic o.json ws).users := by
  rw [TopicRoster.leaveTopic]
  cases r.joined.get ws with
  | none => exact h
  | some key =>
    simp only
    cases hget : r.users.get key with
    | none => exact h
    | some existing =>
      have hreleased : Budgets o ({ r with joined := r.joined.delete ws }.release o.json key
          existing).users := by
        rw [release]
        split_ifs
        · exact h.delete
        · exact h.set ((h key existing hget).congr rfl rfl)
      simp only
      split_ifs
      · exact hreleased
      · exact hreleased

theorem Budgets.join (h : Budgets o r.users) (ws : W) (selected : Resolved) (subscribed : Bool) :
    Budgets o (r.join o.json ws selected subscribed).users := by
  rw [TopicRoster.join]
  by_cases hjoined : (r.joined.get ws).isSome = true
  · rw [if_pos hjoined]
    exact h
  · rw [if_neg hjoined]
    generalize r.resolveKey selected = resolved
    obtain ⟨key, connCounter⟩ := resolved
    have hcounted : Budgets o
        { r with joined := r.joined.set ws key, connCounter := connCounter }.users := h
    have hentered := hcounted.enter key selected.data
    cases subscribed with
    | true => exact hentered
    | false => exact hentered.leaveTopic ws

variable {ws : W}

theorem get_of_memberOf (h : r.memberOf ws = some (key, u)) : r.users.get key = some u := by
  obtain ⟨key', -, hfound⟩ := bind_eq_some_iff.mp h
  obtain ⟨u', hget, heq⟩ := map_eq_some_iff.mp hfound
  cases heq
  exact hget

omit [DecidableEq W] in
theorem users_bufferUpdate (r : TopicRoster W) (key : JsString) (changed : Fields) :
    (r.bufferUpdate key changed).users = r.users := by
  rw [bufferUpdate]
  split <;> rfl

variable {fromClient : Bool}

theorem Budgets.update (h : Budgets o r.users) {fields : Fields}
    (hjson : isJsonProps fields.entries = true) :
    Budgets o (r.update o.json ws fields fromClient).users := by
  rw [TopicRoster.update]
  cases heffective : effectiveFields o.json fields fromClient with
  | none => exact h
  | some effective =>
    cases hmember : r.memberOf ws with
    | none => exact h
    | some member =>
      obtain ⟨key, u⟩ := member
      have hu := h key u (get_of_memberOf hmember)
      have heffectiveJson := isJson_of_effectiveFields hjson heffective
      simp only
      split_ifs with hadmits
      · cases haccepted : accepted o.json u effective fromClient with
        | none => exact h.set hu.allocate
        | some changed =>
          simp only [users_bufferUpdate]
          exact h.set (hu.store hadmits heffectiveJson haccepted)
      · exact h

theorem Budgets.step (h : Budgets o r.users) {e : RosterEvent W} (hjson : JsonUpdates r e)
    (hstep : r.step o.json e = some r') : Budgets o r'.users := by
  cases e with
  | join ws selected subscribed =>
    cases hstep
    exact h.join ws selected subscribed
  | leave ws =>
    cases hstep
    have hleft := h.leaveTopic ws
    rw [leave]
    split_ifs
    · exact hleft
    · exact hleft
  | unsubscribe ws =>
    cases hstep
    exact h.leaveTopic ws
  | sync ws subscribed =>
    cases hstep
    rw [sync]
    split_ifs
    · exact h
    · exact h
  | update ws fields fromClient =>
    cases hstep
    exact h.update hjson
  | flush =>
    cases hstep
    exact h

theorem budgets_of_reaches {es : List (RosterEvent W)}
    (h : (rosterMachine o.json).ReachesWhere JsonUpdates es r) : Budgets o r.users :=
  h.invariant (I := fun r => Budgets o r.users) (fun _ _ hu => by cases hu)
    fun _ _ _ hr hjson hnext => hr.step hjson hnext

end Calls

/-! ## The stored object -/

/-- The bytes of a stored object: one more than it is charged, and two braces where it is empty. -/
theorem bytes_fields {fields : Fields} (h : ∀ k v, fields.get k = some v → v.isJson = true) :
    (object fields.entries).bytes =
      if fields.size = 0 then 2 else fields.weight fieldSize + 1 := by
  have hjson : ∀ p ∈ fields.entries, p.2.isJson = true := fun p hp =>
    h p.1 p.2 (get_eq_some_iff.mpr hp)
  have hsum : ∀ l : List (JsString × Value),
      (l.map fun p => byteLength (quote p.1) + 1 + p.2.bytes).sum + l.length =
        (l.map fun p => fieldSize p.1 p.2).sum := by
    intro l
    induction l with
    | nil => rfl
    | cons p l ih =>
      simp only [List.map_cons, List.sum_cons, List.length_cons, fieldSize,
        JSON_FIELD_OVERHEAD_BYTES] at ih ⊢
      omega
  have hentries := hsum fields.entries
  rw [byteLength_stringify_object fields.nodup hjson, size]
  split_ifs with hempty
  · rw [List.length_eq_zero_iff.mp hempty]
    rfl
  · rw [weight]
    omega

variable {u : Member}

theorem Budgeted.lt_bytes {o : UpdateOptions} (h : Budgeted o u) {fields : Fields}
    (hfields : u.fields = some fields) : u.fieldsBytes < (object fields.entries).bytes := by
  have hstored : storedFields u = fields := by rw [storedFields, hfields, getD_some]
  have hbytes : (object fields.entries).bytes =
      if fields.size = 0 then 2 else fields.weight fieldSize + 1 :=
    bytes_fields fun k v hv => (h.json k v (hstored ▸ hv)).1
  rw [h.exact, hstored, hbytes]
  split_ifs with hempty
  · rw [weight, List.length_eq_zero_iff.mp hempty]
    decide
  · omega

/-! ## Every run -/

section Runs

variable {W : Type} [DecidableEq W] {o : UpdateOptions} {r : TopicRoster W}

/-- An update over the budget stores nothing and publishes nothing. -/
theorem update_of_exceeds (h : Budgets o r.users) {fields effective : Fields} {key : JsString}
    (heffective : effectiveFields o.json fields fromClient = some effective)
    (hmember : r.memberOf ws = some (key, u))
    (hover : o.maxTotalFieldsBytes < ((storedFields u).assign
      (changedFields o.json (storedFields u) effective fromClient)).weight fieldSize) :
    (r.update o.json ws fields fromClient).pending = r.pending ∧
      ∀ key', ((r.update o.json ws fields fromClient).users.get key').map storedFields =
        (r.users.get key').map storedFields := by
  have hget := get_of_memberOf hmember
  have hu := h key u hget
  have hnone : accepted o.json u effective fromClient = none := by
    cases haccepted : accepted o.json u effective fromClient with
    | none => rfl
    | some changed =>
      obtain ⟨rfl, hfits⟩ := accepted_eq_some hu haccepted
      omega
  simp only [update, heffective, hmember, hnone]
  split_ifs
  · refine ⟨rfl, fun key' => ?_⟩
    rw [get_set]
    split_ifs with hkey
    · rw [← hkey, hget, map_some, map_some, allocate_json]
    · rfl
  · exact ⟨rfl, fun _ => rfl⟩

/-- After an update within the budget the fields that the guard admits have their new values. -/
theorem update_of_fits (h : Budgets o r.users) {fields effective : Fields} {key : JsString}
    (hjson : isJsonProps fields.entries = true)
    (heffective : effectiveFields o.json fields fromClient = some effective)
    (hmember : r.memberOf ws = some (key, u)) (hadmits : admits o.json effective = true)
    (hfits : ((storedFields u).assign
      (changedFields o.json (storedFields u) effective fromClient)).weight fieldSize ≤
        o.maxTotalFieldsBytes) :
    ∃ u', (r.update o.json ws fields fromClient).users.get key = some u' ∧
      ∀ k v, effective.get k = some v → refused o.json fromClient k = false →
        ∃ w, (storedFields u').get k = some w ∧ Same w v := by
  have hu := h key u (get_of_memberOf hmember)
  have heffectiveJson := isJson_of_effectiveFields hjson heffective
  have hsame {k v} := @same_of_store o u effective _ fromClient k v hu heffectiveJson rfl
  simp only [update, heffective, hmember]
  rw [if_pos hadmits]
  cases haccepted : accepted o.json u effective fromClient with
  | none =>
    rcases accepted_eq_none hu haccepted with hempty | hover
    · refine ⟨u.allocate, get_set_self _ _ _, fun k v hv hguard => ?_⟩
      obtain ⟨w, hw, hsame⟩ := hsame hv hguard
      rw [get_assign, get_eq_none_of_size hempty, none_or] at hw
      rw [allocate_json]
      exact ⟨w, hw, hsame⟩
    · omega
  | some changed =>
    obtain ⟨rfl, -⟩ := accepted_eq_some hu haccepted
    simp only [users_bufferUpdate]
    refine ⟨_, get_set_self _ _ _, fun k v hv hguard => ?_⟩
    rw [storedFields_store]
    exact hsame hv hguard

/-- In every run whose updates are JSON the total of a user is exact and within the budget, and it
bounds the bytes of the stored object when there is none. An update over the budget changes
nothing, and one within it stores what the guard admits. -/
theorem budgeted_of_reaches {es : List (RosterEvent W)}
    (h : (rosterMachine o.json).ReachesWhere JsonUpdates es r) :
    (∀ key u, r.users.get key = some u →
      u.fieldsBytes = ((storedFields u).entries.map fun p =>
        byteLength (quote p.1) + p.2.bytes + JSON_FIELD_OVERHEAD_BYTES).sum ∧
      u.fieldsBytes ≤ o.maxTotalFieldsBytes ∧
      ((∀ fields, u.fields = some fields →
        ((Value.object fields.entries).bytes : ℤ) ≤ u.fieldsBytes) ↔ u.fields = none)) ∧
    ∀ ws fields fromClient effective key u,
      Value.isJsonProps fields.entries = true →
      effectiveFields o.json fields fromClient = some effective →
      r.memberOf ws = some (key, u) → admits o.json effective = true →
      (o.maxTotalFieldsBytes < ((storedFields u).assign
          (changedFields o.json (storedFields u) effective fromClient)).weight fieldSize →
        (r.update o.json ws fields fromClient).pending = r.pending ∧
          ∀ key', ((r.update o.json ws fields fromClient).users.get key').map storedFields =
            (r.users.get key').map storedFields) ∧
      (((storedFields u).assign
          (changedFields o.json (storedFields u) effective fromClient)).weight fieldSize ≤
          o.maxTotalFieldsBytes →
        ∃ u', (r.update o.json ws fields fromClient).users.get key = some u' ∧
          ∀ k v, effective.get k = some v → refused o.json fromClient k = false →
            ∃ w, (storedFields u').get k = some w ∧ Same w v) := by
  have hbudgets := budgets_of_reaches h
  refine ⟨fun key u hu => ?_, fun ws fields fromClient effective key u hjson heffective hmember
    hadmits => ⟨update_of_exceeds hbudgets heffective hmember,
      update_of_fits hbudgets hjson heffective hmember hadmits⟩⟩
  have hbudgeted := hbudgets key u hu
  refine ⟨hbudgeted.exact, ?_, fun hbound => ?_, fun hnone fields hfields => ?_⟩
  · rw [hbudgeted.exact]
    exact_mod_cast hbudgeted.capped
  · cases hfields : u.fields with
    | none => rfl
    | some fields =>
      have hle := hbound fields hfields
      have hlt := hbudgeted.lt_bytes hfields
      omega
  · rw [hnone] at hfields
    cases hfields

end Runs

/-- The options of the run below; its sizes are those of JSON. -/
def noteOptions : UpdateOptions where
  transientFields := .empty
  clientUpdateFields := none
  maxFieldsBytes := 8192
  maxTotalFieldsBytes := 65536
  fieldsBytes _ := none
  valueBytes _ := none
  nameBytes _ := 0
  exceedsDepth _ := false
  isReservedField k := decide (k = lit "id")
  deepEqual _ _ := false
  sameData _ _ := true

/-- A user sets a note of one letter. -/
def noteRun : List (RosterEvent ℕ) :=
  [.join 0 ⟨some (lit "1"), .plain (JsMap.empty.set (lit "id") (.string (lit "1")))⟩ true,
    .update 0 (JsMap.empty.set (lit "note") (.string (lit "a"))) false]

/-- The user is charged eleven bytes for an object of twelve. -/
theorem exists_noted : ∃ r u, (rosterMachine noteOptions.json).ReachesWhere JsonUpdates noteRun r ∧
    r.users.get (lit "1") = some u ∧ u.fieldsBytes = 11 ∧ u.fields.isSome = true := by
  obtain ⟨r, hr, hnoted⟩ : ∃ r, (rosterMachine noteOptions.json).ReachesWhere JsonUpdates noteRun
      r ∧ ((r.users.get (lit "1")).any fun u => decide (u.fieldsBytes = 11) && u.fields.isSome) =
      true :=
    Machine.exists_of_execWhere (by decide +kernel)
  obtain ⟨u, hu, hfields⟩ := (any_eq_true _ _).mp hnoted
  rw [Bool.and_eq_true, decide_eq_true_eq] at hfields
  exact ⟨r, u, hr, hu, hfields⟩

theorem budgeted_of_reaches_noteRun : ∃ r u,
    (rosterMachine noteOptions.json).ReachesWhere JsonUpdates noteRun r ∧
      r.users.get (lit "1") = some u ∧ u.fieldsBytes = 11 ∧ u.fieldsBytes ≤ 65536 ∧
        ¬ ∀ fields, u.fields = some fields →
          ((Value.object fields.entries).bytes : ℤ) ≤ u.fieldsBytes := by
  obtain ⟨r, u, hr, hu, hbytes, hfields⟩ := exists_noted
  have h := (budgeted_of_reaches hr).1 _ u hu
  refine ⟨r, u, hr, hu, hbytes, h.2.1, fun hbound => ?_⟩
  rw [h.2.2.mp hbound] at hfields
  cases hfields

/-- The total does not bound the bytes of the stored object. -/
theorem not_bounded_noteRun : ¬ ∀ (o : UpdateOptions) (es : List (RosterEvent ℕ))
    (r : TopicRoster ℕ), (rosterMachine o.json).ReachesWhere JsonUpdates es r →
      ∀ key u fields, r.users.get key = some u → u.fields = some fields →
        ((Value.object fields.entries).bytes : ℤ) ≤ u.fieldsBytes := by
  intro h
  obtain ⟨r, u, hr, hu, -, hfields⟩ := exists_noted
  obtain ⟨fields, hfields⟩ := isSome_iff_exists.mp hfields
  have hle := h noteOptions noteRun r hr _ u fields hu hfields
  have hlt := (budgets_of_reaches hr _ u hu).lt_bytes hfields
  omega

end AdapterWs.Presence
