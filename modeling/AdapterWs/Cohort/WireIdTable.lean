import AdapterWs.Lib.JsMap

/-!
# The server-wide wire-id table

A shared topic has one wire id for all its binary subscribers. `acquire` allocates it for the
first reference and counts the later ones, `release` gives a reference back and retires the id
with the last one. The allocator only moves up, so a retired id is never handed out again.

The table also keeps the log of every assignment its allocator made. The source has no such log:
it is what the statement that no id is assigned to two topics speaks about.
-/

namespace AdapterWs

open List
namespace Cohort

/-- The first server-wide id, above every per-connection id. -/
def SHARED_WIRE_ID_BASE : ℕ := 0x100000000

/-- An assigned id and the number of connections on its binary cohort. -/
structure WireIdEntry where
  id : ℕ
  refs : ℕ
  deriving DecidableEq

/-- The live entries, the allocator, and every assignment it made, oldest first. -/
structure WireIdTable where
  byTopic : JsMap String WireIdEntry
  nextId : ℕ
  assigned : List (String × ℕ)
  /-- A live entry is referenced and was assigned. -/
  live : ∀ topic entry, byTopic.get topic = some entry →
    0 < entry.refs ∧ (topic, entry.id) ∈ assigned
  /-- The allocator is above every id it assigned. -/
  assigned_lt : ∀ p ∈ assigned, p.2 < nextId
  /-- No id was assigned twice. -/
  assigned_nodup : (assigned.map Prod.snd).Nodup

namespace WireIdTable

variable {ids : WireIdTable} {topic topic' : String} {id : ℕ} {entry : WireIdEntry}
  (topics : List String)

/-- `createSharedWireIdTable()`. -/
def empty : WireIdTable where
  byTopic := JsMap.empty
  nextId := SHARED_WIRE_ID_BASE
  assigned := []
  live := by simp
  assigned_lt := by simp
  assigned_nodup := by simp

/-- `get(topic)`: the id currently assigned to a topic. -/
def getId (ids : WireIdTable) (topic : String) : Option ℕ :=
  (ids.byTopic.get topic).map WireIdEntry.id

/-- `refs(topic)`: the number of references a topic has. -/
def refs (ids : WireIdTable) (topic : String) : ℕ :=
  ((ids.byTopic.get topic).map WireIdEntry.refs).getD 0

/-- The fresh id at the end of the log is above every id before it. -/
theorem nodup_assigned_append (ids : WireIdTable) (topic : String) :
    ((ids.assigned ++ [(topic, ids.nextId)]).map Prod.snd).Nodup := by
  rw [map_append, nodup_append]
  refine ⟨ids.assigned_nodup, nodup_singleton _, ?_⟩
  intro id hid fresh hfresh heq
  obtain ⟨p, hp, rfl⟩ := mem_map.mp hid
  rw [map_singleton, mem_singleton] at hfresh
  have hlt := ids.assigned_lt p hp
  rw [heq, hfresh] at hlt
  exact lt_irrefl _ hlt

/-- The entry of a topic's first reference. -/
def allocate (ids : WireIdTable) (topic : String) : WireIdTable where
  byTopic := ids.byTopic.set topic { id := ids.nextId, refs := 1 }
  nextId := ids.nextId + 1
  assigned := ids.assigned ++ [(topic, ids.nextId)]
  live := by
    intro t e he
    rw [JsMap.get_set] at he
    split at he
    · next ht => cases he; simp [ht]
    · exact ⟨(ids.live t e he).1, List.mem_append_left _ (ids.live t e he).2⟩
  assigned_lt := by
    intro p hp
    rcases List.mem_append.mp hp with hp | hp
    · exact Nat.lt_succ_of_lt (ids.assigned_lt p hp)
    · rw [List.mem_singleton] at hp
      rw [hp]
      exact Nat.lt_succ_self _
  assigned_nodup := ids.nodup_assigned_append topic

/-- A live entry with another positive count. -/
def recount (ids : WireIdTable) (topic : String) (entry : WireIdEntry) (n : ℕ)
    (h : ids.byTopic.get topic = some entry) (hn : 0 < n) : WireIdTable where
  byTopic := ids.byTopic.set topic { entry with refs := n }
  nextId := ids.nextId
  assigned := ids.assigned
  live := by
    intro t e he
    rw [JsMap.get_set] at he
    split at he
    · next ht => cases he; subst ht; exact ⟨hn, (ids.live _ _ h).2⟩
    · exact ids.live t e he
  assigned_lt := ids.assigned_lt
  assigned_nodup := ids.assigned_nodup

/-- An entry dropped from the table. -/
def retire (ids : WireIdTable) (topic : String) : WireIdTable where
  byTopic := ids.byTopic.delete topic
  nextId := ids.nextId
  assigned := ids.assigned
  live := by
    intro t e he
    rw [JsMap.get_delete] at he
    split at he
    · cases he
    · exact ids.live t e he
  assigned_lt := ids.assigned_lt
  assigned_nodup := ids.assigned_nodup

/-- `acquire(topic)`: take a reference, allocating the id on first use. -/
def acquire (ids : WireIdTable) (topic : String) : ℕ × WireIdTable :=
  match h : ids.byTopic.get topic with
  | none => (ids.nextId, ids.allocate topic)
  | some entry => (entry.id, ids.recount topic entry (entry.refs + 1) h (Nat.succ_pos _))

/-- `release(topic)`: give a reference back, retiring the id with the last one. -/
def release (ids : WireIdTable) (topic : String) : WireIdTable :=
  match h : ids.byTopic.get topic with
  | none => ids
  | some entry =>
    if hlast : entry.refs - 1 = 0 then ids.retire topic
    else ids.recount topic entry (entry.refs - 1) h (Nat.pos_of_ne_zero hlast)

theorem eq_of_mem_assigned (h : (topic, id) ∈ ids.assigned) (h' : (topic', id) ∈ ids.assigned) :
    topic = topic' := by
  have := inj_on_of_nodup_map ids.assigned_nodup h h' rfl
  exact congrArg Prod.fst this

theorem mem_assigned_of_getId (h : ids.getId topic = some id) : (topic, id) ∈ ids.assigned := by
  obtain ⟨entry, hentry, rfl⟩ := Option.map_eq_some_iff.mp h
  exact (ids.live topic entry hentry).2

theorem refs_pos_iff : 0 < ids.refs topic ↔ ∃ id, ids.getId topic = some id := by
  cases h : ids.byTopic.get topic with
  | none => simp [refs, getId, h]
  | some entry => simp [refs, getId, h, (ids.live topic entry h).1]

/-! ## `acquire` -/

theorem refs_acquire (ids : WireIdTable) (topic topic' : String) :
    (ids.acquire topic).2.refs topic' =
      ids.refs topic' + if topic = topic' then 1 else 0 := by
  rw [acquire]
  split
  · next h =>
    by_cases ht : topic = topic'
    · subst ht
      simp [refs, allocate, h]
    · simp [refs, allocate, JsMap.get_set, ht]
  · next entry h =>
    by_cases ht : topic = topic'
    · subst ht
      simp [refs, recount, h]
    · simp [refs, recount, JsMap.get_set, ht]

theorem getId_acquire_self (ids : WireIdTable) (topic : String) :
    (ids.acquire topic).2.getId topic = some (ids.acquire topic).1 := by
  rw [acquire]
  split
  · simp [getId, allocate]
  · simp [getId, recount]

theorem getId_acquire_of_some (h : ids.getId topic' = some id) :
    (ids.acquire topic).2.getId topic' = some id := by
  obtain ⟨entry, hentry, rfl⟩ := Option.map_eq_some_iff.mp h
  rw [acquire]
  split
  · next hnone =>
    have hne : topic ≠ topic' := by
      rintro rfl
      rw [hnone] at hentry
      cases hentry
    simp [getId, allocate, JsMap.get_set, hne, hentry]
  · next entry' hsome =>
    by_cases ht : topic = topic'
    · subst ht
      rw [hsome] at hentry
      cases hentry
      simp [getId, recount]
    · simp [getId, recount, JsMap.get_set, ht, hentry]

theorem assigned_acquire_subset (ids : WireIdTable) (topic : String) :
    ids.assigned ⊆ (ids.acquire topic).2.assigned := by
  rw [acquire]
  split
  · exact subset_append_left _ _
  · exact List.Subset.refl _

/-! ## `release` -/

theorem refs_release (ids : WireIdTable) (topic topic' : String) :
    (ids.release topic).refs topic' =
      ids.refs topic' - if topic = topic' then 1 else 0 := by
  rw [release]
  split
  · next h =>
    by_cases ht : topic = topic'
    · subst ht
      simp [refs, h]
    · simp [ht]
  · next entry h =>
    by_cases ht : topic = topic'
    · subst ht
      split
      · next hlast => simp [refs, retire, h, hlast]
      · simp [refs, recount, h]
    · split
      · simp [refs, retire, JsMap.get_delete, ht]
      · simp [refs, recount, JsMap.get_set, ht]

/-- A live id survives a release while a reference is left. -/
theorem getId_release (h : ids.getId topic' = some id)
    (hleft : 0 < (ids.release topic).refs topic') :
    (ids.release topic).getId topic' = some id := by
  obtain ⟨entry, hentry, rfl⟩ := Option.map_eq_some_iff.mp h
  rw [release] at hleft ⊢
  split at hleft
  · exact h
  · next entry' hsome =>
    by_cases ht : topic = topic'
    · subst ht
      rw [hsome] at hentry
      cases hentry
      split at hleft
      · simp [refs, retire] at hleft
      · next hlast => simp [getId, recount, hlast]
    · split
      · simp [getId, retire, JsMap.get_delete, ht, hentry]
      · simp [getId, recount, JsMap.get_set, ht, hentry]

/-- A live id survives a reference that is taken and given back. -/
theorem getId_attempt (h : ids.getId topic' = some id) :
    ((ids.acquire topic).2.release topic).getId topic' = some id := by
  apply getId_release (getId_acquire_of_some h)
  have := refs_pos_iff.mpr ⟨id, h⟩
  simpa [refs_release, refs_acquire] using this

@[simp] theorem assigned_release (ids : WireIdTable) (topic : String) :
    (ids.release topic).assigned = ids.assigned := by
  rw [release]
  split
  · rfl
  · split <;> rfl

/-! ## Releasing a list of references -/

theorem refs_foldl_release (ids : WireIdTable) (topic : String) :
    (topics.foldl release ids).refs topic = ids.refs topic - topics.count topic := by
  induction topics generalizing ids with
  | nil => simp
  | cons t topics ih =>
    rw [foldl_cons, ih, refs_release, count_cons, Nat.sub_sub, add_comm]
    simp

theorem getId_foldl_release (h : ids.getId topic = some id)
    (hleft : 0 < (topics.foldl release ids).refs topic) :
    (topics.foldl release ids).getId topic = some id := by
  induction topics generalizing ids with
  | nil => exact h
  | cons t topics ih =>
    apply ih (getId_release h ?_) hleft
    rw [foldl_cons, refs_foldl_release] at hleft
    omega

@[simp] theorem assigned_foldl_release (ids : WireIdTable) :
    (topics.foldl release ids).assigned = ids.assigned := by
  induction topics generalizing ids with
  | nil => rfl
  | cons t topics ih => rw [foldl_cons, ih, assigned_release]

end WireIdTable
end Cohort
end AdapterWs
