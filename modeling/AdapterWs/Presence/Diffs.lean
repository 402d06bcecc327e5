import AdapterWs.Presence.Fields

/-!
# Clients and the roster

A client that has the state and applies every publication has what a new state would give it. Joins
are read when they are published, and leaves delete. An update gives the last value of every field
that it changed, as far as JSON has a form for it: a field that was shown and is set to a value
JSON leaves out stays as it was on the client, and is gone from the state. The other conditions are
on what JSON and `{ ...data }` make of the data.
-/

namespace AdapterWs.Presence

open JsString Wire OwnProperties Option JsMap TopicRoster Value

/-! ## Properties after JSON -/

/-- A property of a value. -/
def prop (k : JsString) : Value → Option Value
  | .object props => JsMap.lookup k props
  | _ => none

theorem lookup_jsonProps {props : List (JsString × Value)} (hn : (props.map Prod.fst).Nodup)
    (k : JsString) :
    lookup k (jsonProps props) = (lookup k props).bind jsonView := by
  induction props with
  | nil => rfl
  | cons p props ih =>
    obtain ⟨key, v⟩ := p
    rw [List.map_cons, List.nodup_cons] at hn
    rw [jsonProps, lookup]
    by_cases hk : key = k
    · subst hk
      have hnone : lookup key props = none :=
        (@get_eq_none_iff _ _ _ ⟨props, hn.2⟩ key).mpr hn.1
      cases hv : v.jsonView with
      | none => simp [ih hn.2, hnone, hv]
      | some j => simp [lookup, hv]
    · cases v.jsonView with
      | none => simpa [hk] using ih hn.2
      | some j => simpa [lookup, hk] using ih hn.2

theorem keys_jsonProps_sublist (props : List (JsString × Value)) :
    ((jsonProps props).map Prod.fst).Sublist (props.map Prod.fst) := by
  induction props with
  | nil => exact .slnil
  | cons p props ih =>
    obtain ⟨key, v⟩ := p
    rw [jsonProps, List.map_append, List.map_cons]
    cases v.jsonView with
    | none => exact ih.cons key
    | some j => exact ih.cons_cons key

/-- The property `toJSON` is no function. -/
def NoMethod (own : Fields) : Prop := ∀ answer, own.get (lit "toJSON") ≠ some (.function answer)

theorem NoMethod.assign {own changed : Fields} (h : NoMethod own) (hchanged : NoMethod changed) :
    NoMethod (own.assign changed) := by
  intro answer
  rw [get_assign]
  cases hget : changed.get (lit "toJSON") with
  | none => exact h answer
  | some v =>
    rw [some_or, ← hget]
    exact hchanged answer

theorem NoMethod.filter {own : Fields} (h : NoMethod own) (f : JsString → Value → Bool) :
    NoMethod (own.filter f) := by
  intro answer hget
  rw [JsMap.get_filter, filter_eq_some_iff] at hget
  exact h answer hget.1

theorem noMethod_empty : NoMethod empty := fun _ h => absurd h.symm (some_ne_none _)

theorem toJSONMethod_eq_none {own : Fields} (h : NoMethod own) :
    toJSONMethod own.entries = none := by
  have hall : ∀ props : List (JsString × Value), (∀ p ∈ props, p ∈ own.entries) →
      toJSONMethod props = none := by
    intro props
    induction props with
    | nil => exact fun _ => rfl
    | cons p props ih =>
      intro hmem
      have hrest := ih fun q hq => hmem q (List.mem_cons_of_mem p hq)
      obtain ⟨key, v⟩ := p
      cases v with
      | function answer =>
        rw [toJSONMethod, hrest]
        refine if_neg fun hkey => h answer ?_
        exact get_eq_some_iff.mpr (hkey ▸ hmem _ (.head _))
      | _ => exact hrest
  exact hall own.entries fun _ => id

/-- What JSON makes of an object without a method `toJSON`. -/
theorem json_plain {own : Fields} (h : NoMethod own) : ∃ props : List (JsString × Value),
    (Data.plain own).json = some (.object props) ∧ (props.map Prod.fst).Nodup ∧
      ∀ k, lookup k props = (own.get k).bind jsonView := by
  refine ⟨ofList (jsonProps own.entries), ?_, (ordered_ofList _).nodup, fun k => ?_⟩
  · rw [Data.plain, jsonView, toJSONMethod_eq_none h]
  · rw [lookup_ofList ((keys_jsonProps_sublist _).nodup own.nodup), lookup_jsonProps own.nodup]
    rfl

/-- JSON and the spread of an object give the same. -/
def Data.IsPlain (data : Data) : Prop := NoMethod data.own ∧ data.json = (Data.plain data.own).json

theorem mergeFields_eq (prev : Value) {props : List (JsString × Value)}
    (hn : (props.map Prod.fst).Nodup) : ∃ merged,
      mergeFields prev (.object props) = .object merged ∧ ∀ k, lookup k merged = (lookup k props).or (lookup k (spread prev)) :=
  ⟨_, rfl, fun k => lookup_foldl_define hn (spread prev) k⟩

/-! ## What a client has of a user -/

section Shown

variable {o : UpdateOptions} {u u' : Member} {fields changed earlier : Fields}
  {entry : Option Value} {k : JsString}

/-- A field of a user in the state. -/
def publicField (o : UpdateOptions) (data : Data) (fields : Fields) (k : JsString) :
    Option Value :=
  if k ∈ o.transientFields then data.own.get k else (fields.get k).or (data.own.get k)

/-- A field of the data, or one that is not transient. -/
def IsShown (o : UpdateOptions) (data : Data) (k : JsString) : Prop :=
  k ∈ o.transientFields → (data.own.get k).isSome = true

/-- JSON has a form for a user, which is that of the fields if there are any. -/
structure Presentable (u : Member) : Prop where
  json : u.data.json.isSome = true
  plain : ∀ fields, u.fields = some fields → u.data.IsPlain ∧ NoMethod fields

/-- A client has of a user what the state has, apart from transient fields. -/
def Shows (o : UpdateOptions) (u : Member) (entry : Option Value) : Prop :=
  match u.fields with
  | none => entry = u.data.json
  | some fields => ∃ props, entry = some (.object props) ∧ ∀ k, IsShown o u.data k →
      JsMap.lookup k props = (publicField o u.data fields k).bind Value.jsonView

/-- A client has that of a user with fields, once some fields have changed. -/
def ShowsAfter (o : UpdateOptions) (data : Data) (fields changed : Fields)
    (entry : Option Value) : Prop :=
  ∃ prev, entry = some prev ∧ ∀ k, IsShown o data k →
    ((changed.get k).bind Value.jsonView).or (JsMap.lookup k (spread prev)) =
      (publicField o data fields k).bind Value.jsonView

theorem publicData_of_fields (hfields : u.fields = some fields) (hplain : u.data.IsPlain)
    (hmethod : NoMethod fields) : ∃ props : List (JsString × Value),
      (publicData o u).json = some (.object props) ∧
        ∀ k, lookup k props = (publicField o u.data fields k).bind jsonView := by
  have hnone : NoMethod (u.data.own.assign
      (fields.filter fun k _ => !decide (k ∈ o.transientFields))) :=
    hplain.1.assign (hmethod.filter _)
  obtain ⟨props, hjson, -, hprops⟩ := json_plain hnone
  refine ⟨props, ?_, fun k => ?_⟩
  · rw [publicData, hfields]
    exact hjson
  · rw [hprops, JsMap.get_assign, JsMap.get_filter, publicField]
    by_cases hk : k ∈ o.transientFields
    · simp [hk]
    · cases fields.get k <;> simp [hk, Option.filter]

theorem Presentable.shows (h : Presentable u) (o : UpdateOptions) :
    (publicData o u).json.isSome = true ∧ Shows o u (publicData o u).json := by
  cases hfields : u.fields with
  | none => simp [publicData, Shows, hfields, h.json]
  | some fields =>
    obtain ⟨hplain, hmethod⟩ := h.plain fields hfields
    obtain ⟨props, hjson, hprops⟩ := publicData_of_fields (o := o) hfields hplain hmethod
    simp only [Shows, hfields, hjson]
    exact ⟨rfl, props, rfl, fun k _ => hprops k⟩

theorem Presentable.allocate (h : Presentable u) (hplain : u.data.IsPlain) :
    Presentable u.allocate := by
  rw [Member.allocate]
  cases hfields : u.fields with
  | none =>
    refine ⟨h.json, fun fields heq => ⟨hplain, ?_⟩⟩
    cases heq
    exact noMethod_empty
  | some fields => exact h

theorem Shows.allocate (h : Shows o u entry) (hplain : u.data.IsPlain) :
    Shows o u.allocate entry := by
  rw [Member.allocate]
  cases hfields : u.fields with
  | none =>
    rw [Shows, hfields] at h
    obtain ⟨props, hjson, -, hprops⟩ := json_plain hplain.1
    refine ⟨props, h.trans (hplain.2.trans hjson), fun k _ => ?_⟩
    rw [hprops, publicField, get_empty, none_or, ite_self]
  | some fields => exact h

/-- A changed field that is shown has a form, or had none before, and a transient one does not hide
one of the data. -/
def KeepsForm (o : UpdateOptions) (data : Data) (fields : Fields) (k : JsString) (v : Value) :
    Prop :=
  if k ∈ o.transientFields then (data.own.get k).isSome = true → v.jsonView = none
  else v.jsonView = none → (publicField o data fields k).bind Value.jsonView = none

/-- Changed fields that are transient do not hide any of the data. -/
def SparesData (o : UpdateOptions) (data : Data) (changed : Fields) : Prop :=
  ∀ k v, changed.get k = some v → k ∈ o.transientFields → (data.own.get k).isSome = true →
    v.jsonView = none

theorem ShowsAfter.store {data : Data} (h : ShowsAfter o data fields earlier entry)
    (hearlier : SparesData o data earlier)
    (hkeeps : ∀ k v, changed.get k = some v → KeepsForm o data fields k v) :
    ShowsAfter o data (fields.assign changed) (earlier.assign changed) entry := by
  obtain ⟨prev, rfl, hprev⟩ := h
  refine ⟨prev, rfl, fun k hshown => ?_⟩
  have hold := hprev k hshown
  rw [publicField] at hold ⊢
  rw [get_assign, get_assign]
  cases hget : changed.get k with
  | none => simpa using hold
  | some v =>
    have hform := hkeeps k v hget
    rw [KeepsForm, publicField] at hform
    by_cases hk : k ∈ o.transientFields
    · simp only [if_pos hk] at hold hform ⊢
      have hsome := hshown hk
      have hnone : (earlier.get k).bind jsonView = none := by
        cases hgetE : earlier.get k with
        | none => rfl
        | some w => exact hearlier k w hgetE hk hsome
      rw [hnone] at hold
      simpa [hform hsome] using hold
    · simp only [if_neg hk] at hold hform ⊢
      cases hv : v.jsonView with
      | none =>
        rw [hform hv, or_eq_none_iff] at hold
        simp [hv, hold.2]
      | some j => simp [hv]

end Shown

/-! ## The invariant -/

section Tracks

variable {W : Type} [DecidableEq W] {o : UpdateOptions} {r r' : TopicRoster W} {u u' : Member}
  {user : Option Member} {op : Option PendingOp} {fields changed : Fields} {entry : Option Value}
  {key : JsString} {ws : W}

/-- A change that is not published fits the user: a join is of a user, a leave of none, and an
update is of the fields the user has. -/
def OpSound (o : UpdateOptions) (user : Option Member) : Option PendingOp → Prop
  | none => True
  | some .join => user.isSome = true
  | some (.leave data) => user = none ∧ data.json.isSome = true
  | some (.update changed) => ∃ u fields, user = some u ∧ u.fields = some fields ∧
      NoMethod changed ∧ (∀ k v, changed.get k = some v → fields.get k = some v) ∧
        SparesData o u.data changed

/-- A client has of a user what it should have before a change is published. -/
def EntryTracks (o : UpdateOptions) (user : Option Member) (entry : Option Value) :
    Option PendingOp → Prop
  | none => user.elim (entry = none) fun u => Shows o u entry
  | some (.update changed) => ∃ u fields, user = some u ∧ u.fields = some fields ∧
      ShowsAfter o u.data fields changed entry
  | some _ => True

/-- The users have forms, and every client has what it should have. -/
structure Tracks (o : UpdateOptions) (r : TopicRoster W) : Prop where
  presentable : ∀ key u, r.users.get key = some u → Presentable u
  ops : ∀ key, OpSound o (r.users.get key) (r.pending.get key)
  views : ∀ ws view, r.views.get ws = some view → ∀ key,
    EntryTracks o (r.users.get key) (view.get key) (r.pending.get key)

theorem Tracks.change (h : Tracks o r) (key : JsString)
    (husers : ∀ k, key ≠ k → r'.users.get k = r.users.get k)
    (hpending : ∀ k, key ≠ k → r'.pending.get k = r.pending.get k)
    (hviews : ∀ ws view, r'.views.get ws = some view → r.views.get ws = some view)
    (huser : ∀ u, r'.users.get key = some u → Presentable u)
    (hop : OpSound o (r'.users.get key) (r'.pending.get key))
    (hentry : ∀ entry, EntryTracks o (r.users.get key) entry (r.pending.get key) →
      EntryTracks o (r'.users.get key) entry (r'.pending.get key)) : Tracks o r' := by
  refine ⟨fun k u hu => ?_, fun k => ?_, fun ws view hview k => ?_⟩
  · by_cases hk : key = k
    · exact huser u (hk ▸ hu)
    · exact h.presentable k u (husers k hk ▸ hu)
  · by_cases hk : key = k
    · exact hk ▸ hop
    · rw [husers k hk, hpending k hk]
      exact h.ops k
  · have hold := h.views ws view (hviews ws view hview) k
    by_cases hk : key = k
    · subst hk
      exact hentry _ hold
    · rw [husers k hk, hpending k hk]
      exact hold

/-- Connections and observers do not count, and a client may be gone. -/
theorem Tracks.congr (h : Tracks o r) (husers : r'.users = r.users)
    (hpending : r'.pending = r.pending)
    (hviews : ∀ ws view, r'.views.get ws = some view → r.views.get ws = some view) :
    Tracks o r' := by
  refine ⟨husers ▸ h.presentable, fun k => ?_, fun ws view hview k => ?_⟩
  · rw [husers, hpending]
    exact h.ops k
  · rw [husers, hpending]
    exact h.views ws view (hviews ws view hview) k

theorem views_delete {ws ws' : W} {view : View} (h : (r.views.delete ws).get ws' = some view) :
    r.views.get ws' = some view := by
  rw [get_delete] at h
  split_ifs at h
  exact h

/-- The number of connections of a user does not count. -/
theorem OpSound.recount (h : OpSound o (some u) op) (hdata : u'.data = u.data)
    (hfields : u'.fields = u.fields) : OpSound o (some u') op := by
  match op, h with
  | none, _ => trivial
  | some .join, _ => rfl
  | some (.leave _), h => cases h.1
  | some (.update changed), h =>
    obtain ⟨_, fields, hu, hf, hrest⟩ := h
    cases hu
    exact ⟨u', fields, rfl, hfields.trans hf, hdata ▸ hrest⟩

theorem EntryTracks.recount (h : EntryTracks o (some u) entry op) (hdata : u'.data = u.data)
    (hfields : u'.fields = u.fields) : EntryTracks o (some u') entry op := by
  match op, h with
  | none, h =>
    rw [EntryTracks, elim_some, Shows, hdata, hfields]
    exact h
  | some .join, _ => trivial
  | some (.leave _), _ => trivial
  | some (.update changed), h =>
    obtain ⟨_, fields, hu, hf, hrest⟩ := h
    cases hu
    exact ⟨u', fields, rfl, hfields.trans hf, hdata ▸ hrest⟩

theorem Presentable.recount (h : Presentable u) (hdata : u'.data = u.data)
    (hfields : u'.fields = u.fields) : Presentable u' :=
  ⟨hdata ▸ h.json, fun fields heq => hdata ▸ h.plain fields (hfields ▸ heq)⟩

/-! ## Joins and leaves -/

theorem Tracks.enter (h : Tracks o r) {data : Data}
    (hstores : (∀ u, r.users.get key = some u → o.sameData u.data data = true) ∧
        (r.users.get key).isSome = true ∨
      data.json.isSome = true ∧ ∀ u, r.users.get key = some u → u.fields.isSome = true →
        data.IsPlain) : Tracks o (r.enter o key data) := by
  have hset : ∀ (u : Member) k, key ≠ k → (r.users.set key u).get k = r.users.get k :=
    fun u k hk => by rw [get_set, if_neg hk]
  have hjoin : ∀ k, key ≠ k → (r.pending.set key .join).get k = r.pending.get k :=
    fun k hk => by rw [get_set, if_neg hk]
  rw [TopicRoster.enter]
  cases hget : r.users.get key with
  | none =>
    have hjson : data.json.isSome = true := by
      rcases hstores with ⟨-, hsome⟩ | ⟨hjson, -⟩
      · rw [hget] at hsome
        cases hsome
      · exact hjson
    refine h.change key (hset _) hjoin (fun _ _ => id) (fun u hu => ?_) ?_ fun entry _ => ?_
    · cases (get_set_self ..).symm.trans hu
      exact ⟨hjson, fun fields heq => absurd heq.symm (some_ne_none fields)⟩
    · simp only [get_set_self]
      rfl
    · simp only [get_set_self]
      trivial
  | some existing =>
    have hold := h.presentable key existing hget
    simp only
    split_ifs with hsame
    · refine h.change key (hset _) (fun _ _ => rfl) (fun _ _ => id) (fun u hu => ?_) ?_
        fun entry hentry => ?_
      · cases (get_set_self ..).symm.trans hu
        exact hold.recount rfl rfl
      · have hop := h.ops key
        rw [hget] at hop
        simp only [get_set_self]
        exact hop.recount rfl rfl
      · rw [hget] at hentry
        simp only [get_set_self]
        exact hentry.recount rfl rfl
    · obtain ⟨hjson, hplain⟩ := hstores.resolve_left fun hno => hsame (hno.1 existing hget)
      refine h.change key (hset _) hjoin (fun _ _ => id) (fun u hu => ?_) ?_ fun entry _ => ?_
      · cases (get_set_self ..).symm.trans hu
        refine ⟨hjson, fun fields heq => ⟨hplain existing hget ?_, (hold.plain fields heq).2⟩⟩
        exact isSome_iff_exists.mpr ⟨fields, heq⟩
      · simp only [get_set_self]
        rfl
      · simp only [get_set_self]
        trivial

theorem Tracks.release (h : Tracks o r) (hget : r.users.get key = some u) :
    Tracks o (r.release o key u) := by
  rw [TopicRoster.release]
  split_ifs
  · refine h.change key (fun k hk => ?_) (fun k hk => ?_) (fun _ _ => id) (fun u' hu => ?_) ?_
      fun entry _ => ?_
    · rw [get_delete, if_neg hk]
    · rw [get_set, if_neg hk]
    · rw [get_delete_self] at hu
      cases hu
    · simp only [get_set_self, get_delete_self]
      exact ⟨rfl, ((h.presentable key u hget).shows o).1⟩
    · simp only [get_set_self]
      trivial
  · refine h.change key (fun k hk => ?_) (fun _ _ => rfl) (fun _ _ => id) (fun u' hu => ?_) ?_
      fun entry hentry => ?_
    · rw [get_set, if_neg hk]
    · cases (get_set_self ..).symm.trans hu
      exact (h.presentable key u hget).recount rfl rfl
    · have hop := h.ops key
      rw [hget] at hop
      simp only [get_set_self]
      exact hop.recount rfl rfl
    · rw [hget] at hentry
      simp only [get_set_self]
      exact hentry.recount rfl rfl

theorem Tracks.leaveTopic (h : Tracks o r) (ws : W) : Tracks o (r.leaveTopic o ws) := by
  rw [TopicRoster.leaveTopic]
  cases r.joined.get ws with
  | none => exact h
  | some key =>
    have hleft : Tracks o { r with joined := r.joined.delete ws } :=
      h.congr rfl rfl fun _ _ => id
    cases hget : r.users.get key with
    | none => simpa only [hget] using hleft
    | some existing =>
      have hreleased := hleft.release (r := { r with joined := r.joined.delete ws }) hget
      simp only [hget]
      split_ifs
      · exact hreleased
      · exact hreleased.congr rfl rfl fun _ _ => views_delete

theorem Tracks.emitState (h : Tracks o r) (ws : W) : Tracks o (r.emitState o ws) := by
  refine ⟨h.presentable, h.ops, fun ws' view hview key => ?_⟩
  rw [TopicRoster.emitState, get_set] at hview
  split_ifs at hview
  · cases hview
    have hop := h.ops key
    change EntryTracks o (r.users.get key) _ (r.pending.get key)
    rw [snapshotState, get_filterMap]
    cases hget : r.users.get key with
    | none =>
      rw [hget] at hop
      match hpending : r.pending.get key, hop with
      | none, _ => rfl
      | some .join, hop => cases hop
      | some (.leave _), _ => trivial
      | some (.update _), hop =>
        obtain ⟨u, fields, hu, -⟩ := hop
        cases hu
    | some u =>
      rw [hget] at hop
      have hshows := ((h.presentable key u hget).shows o).2
      match hpending : r.pending.get key, hop with
      | none, _ => exact hshows
      | some .join, _ => trivial
      | some (.leave _), _ => trivial
      | some (.update changed), hop =>
        obtain ⟨_, fields, hu, hfields, -, hchanged, hspares⟩ := hop
        cases hu
        rw [Shows, hfields] at hshows
        obtain ⟨props, hentry, hprops⟩ := hshows
        refine ⟨u, fields, rfl, hfields, .object props, hentry, fun k hshown => ?_⟩
        rw [spread, hprops k hshown]
        cases hk : changed.get k with
        | none => rfl
        | some v =>
          rw [publicField]
          by_cases htransient : k ∈ o.transientFields
          · simp [hspares k v hk htransient (hshown htransient)]
          · simp [htransient, hchanged k v hk]
  · exact h.views ws' view hview key

/-! ## Updates -/

theorem allocate_data (u : Member) : u.allocate.data = u.data := by
  rw [Member.allocate]
  cases u.fields <;> rfl

theorem allocate_fields (u : Member) :
    u.allocate.fields = some (u.allocate.fields.getD .empty) := by
  rw [Member.allocate]
  cases hfields : u.fields with
  | none => rfl
  | some fields => simp [hfields]

theorem OpSound.allocate (h : OpSound o (some u) op) : OpSound o (some u.allocate) op := by
  match op, h with
  | none, _ => trivial
  | some .join, _ => rfl
  | some (.leave _), h => cases h.1
  | some (.update changed), h =>
    obtain ⟨_, fields, hu, hf, hrest⟩ := h
    cases hu
    refine ⟨u.allocate, fields, rfl, ?_, (allocate_data u).symm ▸ hrest⟩
    rw [Member.allocate, hf]
    exact hf

theorem EntryTracks.allocate (h : EntryTracks o (some u) entry op) (hplain : u.data.IsPlain) :
    EntryTracks o (some u.allocate) entry op := by
  match op, h with
  | none, h => exact Shows.allocate h hplain
  | some .join, _ => trivial
  | some (.leave _), _ => trivial
  | some (.update changed), h =>
    obtain ⟨_, fields, hu, hf, hrest⟩ := h
    cases hu
    refine ⟨u.allocate, fields, rfl, ?_, (allocate_data u).symm ▸ hrest⟩
    rw [Member.allocate, hf]
    exact hf

/-- Fields that change, each of which keeps its form. -/
def KeepsChanged (o : UpdateOptions) (u : Member) (changed : Fields) : Prop :=
  NoMethod changed ∧ ∀ k v, changed.get k = some v →
    KeepsForm o u.data (u.allocate.fields.getD .empty) k v

theorem Tracks.store (h : Tracks o r) (hget : r.users.get key = some u) (hplain : u.data.IsPlain)
    (hkeeps : KeepsChanged o u changed) :
    Tracks o
      ({ r with users := r.users.set key (u.store o changed) }.bufferUpdate key changed) := by
  obtain ⟨hmethod, hforms⟩ := hkeeps
  have hdata : (u.store o changed).data = u.data := allocate_data u
  have hpresentable : Presentable (u.store o changed) := by
    have hallocated := (h.presentable key u hget).allocate hplain
    refine ⟨hdata ▸ hallocated.json, fun fields heq => ⟨hdata.symm ▸ hplain, ?_⟩⟩
    cases heq
    exact (hallocated.plain _ (allocate_fields u)).2.assign hmethod
  have hspares : SparesData o u.data changed := by
    intro k v hk htransient hsome
    have hform := hforms k v hk
    rw [KeepsForm, if_pos htransient] at hform
    exact hform hsome
  have huser : ∀ u', (r.users.set key (u.store o changed)).get key = some u' →
      Presentable u' := by
    intro u' hu
    cases (get_set_self ..).symm.trans hu
    exact hpresentable
  have hother : ∀ k, key ≠ k →
      (r.users.set key (u.store o changed)).get k = r.users.get k := fun k hk => by
    rw [get_set, if_neg hk]
  have hpend : ∀ (op : PendingOp) k, key ≠ k →
      (r.pending.set key op).get k = r.pending.get k := fun op k hk => by
    rw [get_set, if_neg hk]
  have hop := h.ops key
  rw [hget] at hop
  have hallocated := hop.allocate
  rw [bufferUpdate]
  match hpending : r.pending.get key with
  | none =>
    simp only
    refine h.change key hother (hpend _) (fun _ _ => id) huser ?_ fun entry hentry => ?_
    · simp only [get_set_self]
      refine ⟨_, _, rfl, rfl, hmethod, fun k v hk => ?_, hdata.symm ▸ hspares⟩
      rw [get_assign, hk, some_or]
    · rw [hget, hpending] at hentry
      simp only [get_set_self]
      have hshows : Shows o u.allocate entry := Shows.allocate hentry hplain
      rw [Shows, allocate_fields u] at hshows
      obtain ⟨props, rfl, hprops⟩ := hshows
      rw [allocate_data] at hprops
      refine ⟨_, _, rfl, rfl, ?_⟩
      rw [hdata]
      have hempty : ShowsAfter o u.data (u.allocate.fields.getD .empty) .empty
          (some (.object props)) := ⟨_, rfl, fun k hshown => hprops k hshown⟩
      obtain ⟨prev, hprev, hafter⟩ :=
        hempty.store (fun k v hk => absurd hk.symm (some_ne_none v)) hforms
      refine ⟨prev, hprev, fun k hshown => ?_⟩
      rw [← hafter k hshown, get_assign, get_empty, or_none]
  | some (.update earlier) =>
    simp only
    rw [hpending] at hallocated
    obtain ⟨_, fields, hu, hfields, hmethodE, hearlier, hsparesE⟩ := hallocated
    cases hu
    have hsame : fields = u.allocate.fields.getD .empty :=
      some.inj (hfields.symm.trans (allocate_fields u))
    rw [allocate_data] at hsparesE
    refine h.change key hother (hpend _) (fun _ _ => id) huser ?_ fun entry hentry => ?_
    · simp only [get_set_self]
      refine ⟨_, _, rfl, rfl, hmethodE.assign hmethod, fun k v hk => ?_, fun k v hk => ?_⟩
      · rw [get_assign] at hk ⊢
        cases hnew : changed.get k with
        | none =>
          rw [hnew, none_or] at hk
          rw [none_or, ← hsame]
          exact hearlier k v hk
        | some w =>
          rw [hnew] at hk
          exact hk
      · rw [hdata]
        rw [get_assign] at hk
        cases hnew : changed.get k with
        | none =>
          rw [hnew, none_or] at hk
          exact hsparesE k v hk
        | some w =>
          rw [hnew] at hk
          obtain rfl := some.inj hk
          exact hspares k w hnew
    · rw [hget, hpending] at hentry
      simp only [get_set_self]
      obtain ⟨_, fields', hu', hfields', hafter⟩ := EntryTracks.allocate hentry hplain
      cases hu'
      cases hfields'.symm.trans hfields
      rw [allocate_data] at hafter
      subst hsame
      exact ⟨_, _, rfl, rfl, hdata.symm ▸ hafter.store hsparesE hforms⟩
  | some .join =>
    simp only
    refine h.change key hother (fun _ _ => rfl) (fun _ _ => id) huser ?_ fun entry _ => ?_
    · simp only [get_set_self, hpending]
      rfl
    · simp only [hpending]
      trivial
  | some (.leave _) =>
    rw [hpending] at hop
    cases hop.1

/-- A user is given fields, whether or not any are stored. -/
theorem Tracks.allocate (h : Tracks o r) (hget : r.users.get key = some u)
    (hplain : u.data.IsPlain) : Tracks o { r with users := r.users.set key u.allocate } := by
  refine h.change key (fun k hk => ?_) (fun _ _ => rfl) (fun _ _ => id) (fun u' hu => ?_) ?_
    fun entry hentry => ?_
  · exact (get_set ..).trans (if_neg hk)
  · cases (get_set_self ..).symm.trans hu
    exact (h.presentable key u hget).allocate hplain
  · have hop := h.ops key
    rw [hget] at hop
    simp only [get_set_self]
    exact hop.allocate
  · rw [hget] at hentry
    simp only [get_set_self]
    exact hentry.allocate hplain

/-! ## Publications -/

theorem get_foldl_delete (keys : List JsString) (view : View) (k : JsString) :
    (keys.foldl delete view).get k = if k ∈ keys then none else view.get k := by
  induction keys generalizing view with
  | nil => rfl
  | cons key keys ih =>
    rw [List.foldl_cons, ih, get_delete]
    by_cases hk : key = k
    · simp [hk]
    · simp [hk, Ne.symm hk]

/-- What a client makes of its user and an update. -/
def updated (fields prev : Value) : Value :=
  if isFields fields then mergeFields prev fields else prev

theorem get_merge (view : View) (key k : JsString) (fields : Value) :
    (view.merge key fields).get k =
      if key = k then (view.get k).map (updated fields) else view.get k := by
  rw [View.merge]
  by_cases hk : key = k
  · subst hk
    cases hget : view.get key with
    | none => simp [hget]
    | some prev => cases hfields : isFields fields <;> simp [hget, updated, hfields]
  · cases view.get key with
    | none => simp [hk]
    | some prev => cases isFields fields <;> simp [hk, get_set]

theorem get_foldl_merge (l : List (JsString × Value)) (hn : (l.map Prod.fst).Nodup) (view : View)
    (k : JsString) : (l.foldl (fun view p => view.merge p.1 p.2) view).get k =
      match lookup k l with
      | none => view.get k
      | some fields => (view.get k).map (updated fields) := by
  induction l generalizing view with
  | nil => rfl
  | cons p l ih =>
    obtain ⟨key, fields⟩ := p
    rw [List.map_cons, List.nodup_cons] at hn
    rw [List.foldl_cons, ih hn.2, get_merge, lookup]
    by_cases hk : key = k
    · subst hk
      have hnone : lookup key l = none :=
        (@get_eq_none_iff _ _ _ ⟨l, hn.2⟩ key).mpr hn.1
      simp [hnone]
    · simp [hk]

theorem get_apply (view : View) (d : Diff) (k : JsString) : (view.apply d).get k =
    match d.updates.get k with
    | none => (d.joins.get k).or (if (d.leaves.get k).isSome then none else view.get k)
    | some fields => ((d.joins.get k).or
        (if (d.leaves.get k).isSome then none else view.get k)).map (updated fields) := by
  have hleaves : k ∈ d.leaves.keys ↔ (d.leaves.get k).isSome = true := by
    rw [← not_iff_not, ← get_eq_none_iff]
    simp
  have hfirst : ((d.leaves.keys.foldl delete view).assign d.joins).get k =
      (d.joins.get k).or (if (d.leaves.get k).isSome then none else view.get k) := by
    rw [get_assign, get_foldl_delete]
    simp [hleaves]
  rw [View.apply, get_foldl_merge _ d.updates.nodup, hfirst]
  rfl

omit [DecidableEq W] in
theorem EntryTracks.published {view : View} (hpresentable : ∀ u, r.users.get key = some u →
    Presentable u) (hop : OpSound o (r.users.get key) (r.pending.get key))
    (h : EntryTracks o (r.users.get key) (view.get key) (r.pending.get key)) :
    EntryTracks o (r.users.get key) ((view.apply (r.diff o)).get key) none := by
  rw [get_apply]
  simp only [diff, get_filterMap]
  match hpending : r.pending.get key with
  | none =>
    rw [hpending] at h
    simpa using h
  | some .join =>
    rw [hpending] at hop
    obtain ⟨u, hu⟩ := isSome_iff_exists.mp hop
    obtain ⟨hjson, hshows⟩ := (hpresentable u hu).shows o
    obtain ⟨j, hj⟩ := isSome_iff_exists.mp hjson
    simp only [hu, bind_some, hj, some_or]
    exact hj ▸ hshows
  | some (.leave data) =>
    rw [hpending] at hop
    simp only [bind_some, hop.2, if_true, or_none, hop.1]
    rfl
  | some (.update changed) =>
    rw [hpending] at h hop
    obtain ⟨u, fields, hu, hfields, prev, hprev, hafter⟩ := h
    obtain ⟨-, -, -, -, hmethod, -⟩ := hop
    obtain ⟨props, hjson, hn, hprops⟩ := json_plain hmethod
    obtain ⟨merged, hmerged, hlookup⟩ := mergeFields_eq prev hn
    simp only [hu, bind_some, hjson, hprev, isSome_none, Bool.false_eq_true,
      if_false, none_or, map_some, updated, isFields, if_true, hmerged]
    rw [EntryTracks, elim_some, Shows, hfields]
    refine ⟨merged, rfl, fun k hshown => ?_⟩
    rw [hlookup, hprops]
    exact hafter k hshown

theorem Tracks.flushDiffs (h : Tracks o r) : Tracks o (r.flushDiffs o) := by
  refine ⟨h.presentable, fun _ => trivial, fun ws view hview key => ?_⟩
  change (r.views.mapVals _).get ws = some view at hview
  rw [get_mapVals] at hview
  obtain ⟨before, hbefore, rfl⟩ := map_eq_some_iff.mp hview
  exact EntryTracks.published (r := r) (h.presentable key) (h.ops key)
    (h.views ws before hbefore key)

/-! ## Runs -/

/-- Two users are the same, for the fields that are shown. -/
def SameEntry (shown : JsString → Prop) : Option Value → Option Value → Prop
  | none, none => True
  | some i, some j => i = j ∨ ∃ props props', i = .object props ∧ j = .object props' ∧
      ∀ k, shown k → JsMap.lookup k props = JsMap.lookup k props'
  | _, _ => False

/-- Every client has what a new state has, restricted to the fields of the data and the ones that
are not transient. -/
def Converged (o : UpdateOptions) (r : TopicRoster W) : Prop :=
  ∀ ws view, r.views.get ws = some view → ∀ key,
    SameEntry (fun k => ∀ u, r.users.get key = some u → IsShown o u.data k) (view.get key)
      ((r.snapshotState o).get key)

theorem Tracks.converged (h : Tracks o r) (hpending : ∀ key, r.pending.get key = none) :
    Converged o r := by
  intro ws view hview key
  have hentry := h.views ws view hview key
  rw [hpending] at hentry
  rw [snapshotState, get_filterMap]
  cases hget : r.users.get key with
  | none =>
    rw [hget, EntryTracks, elim_none] at hentry
    rw [hentry]
    trivial
  | some u =>
    rw [hget, EntryTracks, elim_some] at hentry
    obtain ⟨hjson, hstate⟩ := (h.presentable key u hget).shows o
    rw [bind_some]
    cases hfields : u.fields with
    | none =>
      rw [Shows, hfields] at hentry hstate
      obtain ⟨j, hj⟩ := isSome_iff_exists.mp hjson
      rw [hentry, ← hstate, hj]
      exact .inl rfl
    | some fields =>
      rw [Shows, hfields] at hentry hstate
      obtain ⟨props, hprops, hlookup⟩ := hentry
      obtain ⟨props', hprops', hlookup'⟩ := hstate
      rw [hprops, hprops']
      refine .inr ⟨props, props', rfl, rfl, fun k hshown => ?_⟩
      rw [hlookup k (hshown u rfl), hlookup' k (hshown u rfl)]

/-- A step stores data that JSON has a form for, which is that of the fields of the data where there
are other fields, and updates with fields that keep their forms. -/
def KeepsForms (o : UpdateOptions) (r : TopicRoster W) : RosterEvent W → Prop
  | .join ws selected _ => r.joined.get ws = none →
      ((∀ u, r.users.get (r.resolveKey selected).1 = some u →
          o.sameData u.data selected.data = true) ∧
        (r.users.get (r.resolveKey selected).1).isSome = true) ∨
      (selected.data.json.isSome = true ∧ ∀ u, r.users.get (r.resolveKey selected).1 = some u →
        u.fields.isSome = true → selected.data.IsPlain)
  | .update ws fields fromClient => ∀ effective key u,
      effectiveFields o fields fromClient = some effective → r.memberOf ws = some (key, u) →
        admits o effective = true → u.data.IsPlain ∧
          ∀ changed, accepted o u effective fromClient = some changed → KeepsChanged o u changed
  | _ => True

theorem Tracks.step (h : Tracks o r) (e : RosterEvent W) (hkeeps : KeepsForms o r e)
    (hstep : r.step o e = some r') : Tracks o r' := by
  cases e with
  | join ws selected subscribed =>
    cases hstep
    rw [TopicRoster.join]
    by_cases hjoined : (r.joined.get ws).isSome = true
    · rw [if_pos hjoined]
      exact h
    · rw [if_neg hjoined]
      have hnone : r.joined.get ws = none := not_isSome_iff_eq_none.mp hjoined
      generalize hkey : r.resolveKey selected = resolved
      obtain ⟨key, connCounter⟩ := resolved
      have hstores := hkeeps hnone
      rw [hkey] at hstores
      have hcounted : Tracks o
          { r with joined := r.joined.set ws key, connCounter := connCounter } :=
        h.congr rfl rfl fun _ _ => id
      have hentered := hcounted.enter hstores
      cases subscribed with
      | true => exact hentered.emitState ws
      | false => exact hentered.leaveTopic ws
  | leave ws =>
    cases hstep
    have hleft := h.leaveTopic ws
    rw [leave]
    split_ifs
    · exact hleft.congr rfl rfl fun _ _ => views_delete
    · exact hleft
  | unsubscribe ws =>
    cases hstep
    exact h.leaveTopic ws
  | sync ws subscribed =>
    cases hstep
    rw [sync]
    split_ifs
    · have hobserved : Tracks o { r with observers := r.observers.add ws } :=
        h.congr rfl rfl fun _ _ => id
      exact hobserved.emitState ws
    · exact h.congr rfl rfl fun _ _ => id
  | update ws fields fromClient =>
    cases hstep
    rw [update]
    cases heffective : effectiveFields o fields fromClient with
    | none => exact h
    | some effective =>
      cases hmember : r.memberOf ws with
      | none => exact h
      | some member =>
        obtain ⟨key, u⟩ := member
        simp only
        split_ifs with hadmits
        · obtain ⟨hplain, hchanged⟩ := hkeeps effective key u heffective hmember hadmits
          obtain ⟨key', -, hfound⟩ := bind_eq_some_iff.mp hmember
          obtain ⟨u', hget, heq⟩ := map_eq_some_iff.mp hfound
          simp only [Prod.mk.injEq] at heq
          obtain ⟨rfl, rfl⟩ := heq
          cases haccepted : accepted o u' effective fromClient with
          | none => exact h.allocate hget hplain
          | some changed => exact h.store hget hplain (hchanged changed haccepted)
        · exact h
  | flush =>
    cases hstep
    exact h.flushDiffs

/-- In every run of joins, leaves, observers and updates that store what JSON has a form for, every
client has the roster after each publication. -/
theorem converged_of_keepsForms {es : List (RosterEvent W)}
    (h : (rosterMachine o).ReachesWhere (KeepsForms o) es r)
    (hstep : (rosterMachine o).step r .flush = some r') : Converged o r' := by
  have htracks : Tracks o r := by
    refine h.invariant ⟨fun _ _ hu => ?_, fun _ => trivial, fun _ _ hview => ?_⟩
      fun _ e _ hr hkeeps hnext => hr.step e hkeeps hnext
    · cases hu
    · cases hview
  cases hstep
  exact htracks.flushDiffs.converged fun _ => rfl

end Tracks

/-- The tests of the runs below, for texts. -/
def textOptions : UpdateOptions where
  transientFields := JsSet.empty.add (lit "typing")
  clientUpdateFields := none
  maxFieldsBytes := 8192
  maxTotalFieldsBytes := 65536
  fieldsBytes fields := some (fields.size * 16)
  valueBytes
    | .string s => some (s.length + 2)
    | _ => some 0
  nameBytes k := k.length + 2
  exceedsDepth _ := false
  isReservedField k := decide (k = lit "id")
  deepEqual
    | .string s, .string s' => decide (s = s')
    | .undefined, .undefined => true
    | _, _ => false
  sameData data data' := decide (data.own.keys = data'.own.keys)

/-- An object with one text. -/
def textField (name text : String) : Fields := JsMap.empty.set (lit name) (.string (lit text))

/-- A user that is told by the key field. -/
def textUser (id : String) : Resolved := ⟨some (lit id), .plain (textField "id" id)⟩

theorem noMethod_textField {name text : String} : NoMethod (textField name text) := by
  intro answer h
  obtain ⟨-, ⟨⟩⟩ := ite_none_right_eq_some.mp h

/-- Two users, a note and a flag of one of them, an observer, and a user that leaves. -/
def typingRun : List (RosterEvent ℕ) :=
  [.join 0 (textUser "1") true, .join 1 (textUser "2") true, .flush,
    .update 0 (textField "note" "a") false, .sync 2 true, .update 0 (textField "typing" "b") false,
    .leave 1]

theorem keepsChanged_textField {u : Member} {name text : String}
    (h : u.data.own.get (lit name) = none) : KeepsChanged textOptions u (textField name text) := by
  refine ⟨noMethod_textField, fun k v hk => ?_⟩
  obtain ⟨hname, ⟨⟩⟩ := ite_none_right_eq_some.mp hk
  subst hname
  rw [KeepsForm]
  split_ifs
  · intro hsome
    rw [h] at hsome
    cases hsome
  · intro hnone
    cases hnone

theorem converged_of_keepsForms_typingRun : ∃ r r' : TopicRoster ℕ,
    (rosterMachine textOptions).ReachesWhere (KeepsForms textOptions) typingRun r ∧
      (rosterMachine textOptions).step r .flush = some r' ∧ Converged textOptions r' ∧
        (((r'.views.get 0).getD .empty).get (lit "1")).bind (prop (lit "note")) =
          some (.string (lit "a")) := by
  have hjoin : ∀ (r : TopicRoster ℕ) ws id subscribed,
      r.users.get (r.resolveKey (textUser id)).1 = none →
        KeepsForms textOptions r (.join ws (textUser id) subscribed) := by
    intro r ws id subscribed hnone _
    refine .inr ⟨rfl, fun u hu => ?_⟩
    rw [hnone] at hu
    cases hu
  have hupdate : ∀ (r : TopicRoster ℕ) ws id (name text : String),
      (∀ key u, r.memberOf ws = some (key, u) → u.data = (textUser id).data ∧
        (textUser id).data.own.get (lit name) = none ∧
          ∀ changed, accepted textOptions u (textField name text) false = some changed →
            changed = textField name text) →
        KeepsForms textOptions r (.update ws (textField name text) false) := by
    intro r ws id name text hmember effective key u heffective hu _
    cases heffective
    obtain ⟨hdata, hnone, hchanged⟩ := hmember key u hu
    refine ⟨hdata ▸ ⟨noMethod_textField, rfl⟩, fun changed haccepted => ?_⟩
    rw [hchanged changed haccepted]
    exact keepsChanged_textField (hdata ▸ hnone)
  have hnext : ∀ {es : List (RosterEvent ℕ)} {r r' : TopicRoster ℕ} {e : RosterEvent ℕ},
      (rosterMachine textOptions).ReachesWhere (KeepsForms textOptions) es r →
        KeepsForms textOptions r e → r.step textOptions e = some r' →
          (rosterMachine textOptions).ReachesWhere (KeepsForms textOptions) (es ++ [e]) r' :=
    fun h hkeeps hstep => .next h hkeeps hstep
  have hjoined := hnext (hnext .start (hjoin _ 0 "1" true rfl) rfl) (hjoin _ 1 "2" true rfl) rfl
  have hpublished := hnext hjoined (e := .flush) trivial rfl
  have hnoted := hnext hpublished (hupdate _ 0 "1" "note" "a" fun key u hu => by
    cases hu
    refine ⟨rfl, rfl, fun changed haccepted => ?_⟩
    cases haccepted
    rfl) rfl
  have hobserved := hnext hnoted (e := .sync 2 true) trivial rfl
  have htyping := hnext hobserved (hupdate _ 0 "1" "typing" "b" fun key u hu => by
    cases hu
    refine ⟨rfl, rfl, fun changed haccepted => ?_⟩
    cases haccepted
    rfl) rfl
  have hleft := hnext htyping (e := .leave 1) trivial rfl
  exact ⟨_, _, hleft, rfl, converged_of_keepsForms hleft rfl, rfl⟩

/-- A field is shown, and then set to a value that JSON leaves out. -/
def clearedRun : List (RosterEvent ℕ) :=
  [.join 0 (textUser "1") true, .update 0 (textField "note" "a") false, .flush,
    .update 0 (JsMap.empty.set (lit "note") .undefined) false]

theorem not_converged_clearedRun :
    ¬ ∀ (o : UpdateOptions) (es : List (RosterEvent ℕ)) (r r' : TopicRoster ℕ),
      (rosterMachine o).Reaches es r → (rosterMachine o).step r .flush = some r' →
        Converged o r' := by
  intro h
  have hrun : (rosterMachine textOptions).exec (rosterMachine textOptions).init clearedRun =
      some _ := rfl
  have hconverged := h textOptions _ _ _ (Machine.reaches_of_exec hrun) rfl
  have hentry := hconverged 0 _ rfl (lit "1")
  rcases hentry with heq | ⟨props, props', hi, hj, hall⟩
  · have hnote := congrArg (prop (lit "note")) heq
    cases hnote
  · have hnote := hall (lit "note") fun u hu htransient => absurd htransient (by decide)
    obtain rfl := object.inj hi
    obtain rfl := object.inj hj
    cases hnote

end AdapterWs.Presence
