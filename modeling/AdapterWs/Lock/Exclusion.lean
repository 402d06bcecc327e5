import AdapterWs.Lock.KeyState

/-!
# Mutual exclusion across a clear

A holder that outlives a clear keeps a key state that no key names any more. When it settles,
`advance` finds no waiter in it and deletes the registry's entry by key, which by then can be
the key state of a later call. That call still runs, and the next one finds no entry and runs
beside it.
-/

namespace AdapterWs.Lock

open JsString List LockRegistry JsMap

variable {o : LockOptions} {s s' : LockRegistry} {h : Holder} {key : JsString} {call : ℕ}

/-! ## The property -/

/-- No two functions of one key that were passed after the last clear are running. -/
def Exclusive (s : LockRegistry) : Prop :=
  ∀ key, (s.holders.filter fun h => h.key = key ∧ h.since = s.clears).length ≤ 1

/-- The key of a function that was passed after the last clear is held while it runs. -/
def HeldWhileRunning (s : LockRegistry) : Prop :=
  ∀ h ∈ s.holders, h.since = s.clears → s.held h.key = true

/-- The completion of a function passed before the last clear leaves the later ones alone. -/
def Inert (s : LockRegistry) (call : ℕ) (s' : LockRegistry) : Prop :=
  ∀ h, s.holders.find? (fun h => h.call = call) = some h → h.since ≠ s.clears →
    (∀ key, s'.states.get key = s.states.get key) ∧
    (∀ key i, s.states.get key = some i → s'.heap[i]? = s.heap[i]?) ∧
    ∀ h', h'.since = s.clears → (h' ∈ s'.holders ↔ h' ∈ s.holders)

/-- The key of a function that settles names its own key state, or none. -/
def NoStaleRelease (s : LockRegistry) : LockEvent → Prop
  | .settle call => ∀ h, s.holders.find? (fun h => h.call = call) = some h →
      ∀ i, s.states.get h.key = some i → i = h.state
  | _ => True

/-! ## The invariant -/

/-- The key states that a key names have one holder each, and the others no waiter. -/
structure Owned (s : LockRegistry) : Prop where
  /-- A key state that a key names is running for a later call, and later calls wait for it. -/
  registered : ∀ key i, s.states.get key = some i → ∃ ks, s.heap[i]? = some ks ∧
    ks.running = true ∧ (∀ w ∈ ks.queue, w.since = s.clears) ∧
    ∃ h ∈ s.holders, h.state = i ∧ h.key = key ∧ h.since = s.clears
  /-- The key of a later call names the key state the call acquired. -/
  current : ∀ h ∈ s.holders, h.since = s.clears → s.states.get h.key = some h.state
  /-- No two functions hold one key state. -/
  distinct : (s.holders.map Holder.state).Nodup
  /-- The waiters of an earlier call are cancelled. -/
  orphaned : ∀ h ∈ s.holders, h.since ≠ s.clears → ∃ ks, s.heap[h.state]? = some ks ∧
    ∀ w ∈ ks.queue, w.cancelled = true
  since_le : ∀ h ∈ s.holders, h.since ≤ s.clears

theorem owned_create : Owned .create where
  registered _ _ h := by cases h
  current h hh := absurd hh not_mem_nil
  distinct := nodup_nil
  orphaned h hh := absurd hh not_mem_nil
  since_le h hh := absurd hh not_mem_nil

section

variable (hs : Owned s)
include hs

theorem Owned.eq_of_state {h' : Holder} (hh : h ∈ s.holders) (hh' : h' ∈ s.holders)
    (heq : h.state = h'.state) : h = h' :=
  inj_on_of_nodup_map hs.distinct hh hh' heq

theorem Owned.exists_state (hh : h ∈ s.holders) : ∃ ks, s.heap[h.state]? = some ks := by
  by_cases hsince : h.since = s.clears
  · obtain ⟨ks, hks, -⟩ := hs.registered _ _ (hs.current h hh hsince)
    exact ⟨ks, hks⟩
  · obtain ⟨ks, hks, -⟩ := hs.orphaned h hh hsince
    exact ⟨ks, hks⟩

/-- No earlier function holds a key state that a key names. -/
theorem Owned.ne_of_registered {i : ℕ} (hi : s.states.get key = some i) (hh : h ∈ s.holders)
    (hsince : h.since ≠ s.clears) : h.state ≠ i := by
  intro hstate
  obtain ⟨-, -, -, -, h', hh', hstate', -, hsince'⟩ := hs.registered key i hi
  obtain rfl := hs.eq_of_state hh hh' (hstate.trans hstate'.symm)
  exact hsince hsince'

theorem Owned.key_unique {key' : JsString} {i : ℕ} (hi : s.states.get key = some i)
    (hi' : s.states.get key' = some i) : key = key' := by
  obtain ⟨-, -, -, -, h, hh, hstate, rfl, -⟩ := hs.registered key i hi
  obtain ⟨-, -, -, -, h', hh', hstate', rfl, -⟩ := hs.registered key' i hi'
  rw [hs.eq_of_state hh hh' (hstate.trans hstate'.symm)]

theorem Owned.exclusive : Exclusive s := by
  intro key
  have hall : ∀ h ∈ s.holders.filter fun h => h.key = key ∧ h.since = s.clears,
      s.states.get key = some h.state := by
    intro h hh
    obtain ⟨hmem, hcond⟩ := mem_filter.mp hh
    obtain ⟨rfl, hsince⟩ := of_decide_eq_true hcond
    exact hs.current h hmem hsince
  have hnodup : ((s.holders.filter fun h => h.key = key ∧ h.since = s.clears).map
      Holder.state).Nodup :=
    hs.distinct.sublist (filter_sublist.map _)
  generalize s.holders.filter (fun h => h.key = key ∧ h.since = s.clears) = l at hall hnodup ⊢
  match l with
  | [] => exact Nat.zero_le _
  | [_] => exact le_rfl
  | h :: h' :: _ =>
    have hsame := (hall h (by simp)).symm.trans (hall h' (by simp))
    simp [Option.some.inj hsame] at hnodup

theorem Owned.heldWhileRunning : HeldWhileRunning s := by
  intro h hh hsince
  rw [held, hs.current h hh hsince]
  rfl

end

/-! ## The steps -/

section

variable (hs : Owned s)
include hs

theorem Owned.reject (call : ℕ) (e : LockError) : Owned (s.reject call e) :=
  ⟨hs.registered, hs.current, hs.distinct, hs.orphaned, hs.since_le⟩


/-- A key state that a key names and its queue are replaced. -/
theorem Owned.setQueue {i : ℕ} (hi : s.states.get key = some i) {queue : List Waiter}
    (hqueue : ∀ w ∈ queue, w.since = s.clears) :
    Owned { s with heap := s.heap.set i ⟨true, queue⟩ } where
  registered key' j hj := by
    obtain ⟨ks, hks, hrunning, hsince, hholder⟩ := hs.registered key' j hj
    by_cases hji : i = j
    · subst hji
      refine ⟨⟨true, queue⟩, ?_, rfl, hqueue, hholder⟩
      rw [List.getElem?_set_self (List.getElem?_eq_some_iff.mp hks).1]
    · exact ⟨ks, by rw [getElem?_set_ne hji]; exact hks, hrunning, hsince, hholder⟩
  current := hs.current
  distinct := hs.distinct
  orphaned h hh hsince := by
    obtain ⟨ks, hks, hall⟩ := hs.orphaned h hh hsince
    refine ⟨ks, ?_, hall⟩
    rw [getElem?_set_ne (hs.ne_of_registered hi hh hsince).symm]
    exact hks
  since_le := hs.since_le

/-- A key that names no key state gets one, with a holder. -/
theorem Owned.register (hkey : s.states.get key = none) (call : ℕ) :
    Owned ({ s with
      states := s.states.set key s.heap.length
      heap := s.heap ++ [KeyState.mk true []] }.runHead call key s.heap.length s.clears) where
  registered key' j hj := by
    rw [runHead, get_set] at hj
    split_ifs at hj with hk
    · cases hj
      subst hk
      refine ⟨⟨true, []⟩, getElem?_concat_length, rfl, by simp, ?_⟩
      exact ⟨_, mem_concat_self, rfl, rfl, rfl⟩
    · obtain ⟨ks, hks, hrunning, hsince, h, hh, hstate⟩ := hs.registered key' j hj
      refine ⟨ks, ?_, hrunning, hsince, h, mem_append_left _ hh, hstate⟩
      exact (List.getElem?_append_left (List.getElem?_eq_some_iff.mp hks).1).trans hks
  current h hh hsince := by
    rw [runHead, get_set]
    rcases mem_concat.mp hh with hh | rfl
    · have hget := hs.current h hh hsince
      rw [if_neg]
      · exact hget
      · rintro rfl
        rw [hkey] at hget
        cases hget
    · rw [if_pos rfl]
  distinct := by
    rw [runHead, map_append, nodup_append]
    refine ⟨hs.distinct, nodup_singleton _, ?_⟩
    intro i hi j hj heq
    obtain ⟨h, hh, rfl⟩ := mem_map.mp hi
    obtain ⟨ks, hks⟩ := hs.exists_state hh
    have hlt := (List.getElem?_eq_some_iff.mp hks).1
    obtain rfl : j = s.heap.length := by simpa using hj
    exact ne_of_lt hlt heq
  orphaned h hh hsince := by
    rcases mem_append.mp hh with hh | hh
    · obtain ⟨ks, hks, hall⟩ := hs.orphaned h hh hsince
      refine ⟨ks, ?_, hall⟩
      exact (List.getElem?_append_left (List.getElem?_eq_some_iff.mp hks).1).trans hks
    · rw [mem_singleton.mp hh] at hsince
      exact absurd rfl hsince
  since_le h hh := by
    rcases mem_concat.mp hh with hh | rfl
    · exact hs.since_le h hh
    · exact le_rfl

/-- A call takes a key that is free, waits for one that is not, or is rejected. -/
theorem Owned.withLock (c : WithLockCall) : Owned (s.withLock o c) := by
  have hcalls : Owned { s with calls := s.calls + 1 } :=
    ⟨hs.registered, hs.current, hs.distinct, hs.orphaned, hs.since_le⟩
  rw [LockRegistry.withLock]
  cases checkCall o c with
  | error e => exact hcalls.reject _ e
  | ok p =>
    obtain ⟨key, maxWaitMs⟩ := p
    simp only
    cases hkey : s.states.get key with
    | none =>
      simp only
      split_ifs
      · exact hcalls.reject _ _
      · exact hcalls.register hkey s.calls
    | some i =>
      obtain ⟨ks, hks, hrunning, hsince, -⟩ := hs.registered key i hkey
      simp only [hks]
      rw [acquire, if_neg (by rw [hrunning]; exact Bool.noConfusion)]
      split_ifs
      · exact hcalls.reject _ _
      · rw [hrunning]
        refine hcalls.setQueue hkey fun w hw => ?_
        rcases mem_append.mp hw with hw | hw
        · exact hsince w hw
        · rw [mem_singleton.mp hw]


/-- The key states keep their flag and their waiters keep their call. -/
theorem Owned.mapHeap {f : KeyState → KeyState} (hrunning : ∀ ks, (f ks).running = ks.running)
    (hsince : ∀ ks, ∀ w ∈ (f ks).queue, ∃ w' ∈ ks.queue, w.since = w'.since ∧
      (w'.cancelled = true → w.cancelled = true)) :
    Owned { s with heap := s.heap.map f } where
  registered key i hi := by
    obtain ⟨ks, hks, hrun, hqueue, hholder⟩ := hs.registered key i hi
    refine ⟨f ks, by simp [hks], by rw [hrunning, hrun], fun w hw => ?_, hholder⟩
    obtain ⟨w', hw', heq, -⟩ := hsince ks w hw
    exact heq.trans (hqueue w' hw')
  current := hs.current
  distinct := hs.distinct
  orphaned h hh hne := by
    obtain ⟨ks, hks, hall⟩ := hs.orphaned h hh hne
    refine ⟨f ks, by simp [hks], fun w hw => ?_⟩
    obtain ⟨w', hw', -, hcancelled⟩ := hsince ks w hw
    exact hcancelled (hall w' hw')
  since_le := hs.since_le

theorem Owned.expire (h : s.expire call = some s') : Owned s' := by
  obtain ⟨p, -, rfl⟩ := Option.map_eq_some_iff.mp h
  have hmap : Owned { s with heap := s.heap.map (cancelCall call) } := by
    refine hs.mapHeap (fun _ => rfl) fun ks w hw => ?_
    obtain ⟨w', hw', rfl⟩ := mem_map.mp hw
    refine ⟨w', hw', ?_⟩
    split_ifs <;> simp [Waiter.cancel]
  exact hmap.reject _ _

/-- A clear cancels every waiter and makes every holder an earlier one. -/
theorem Owned.clear : Owned s.clear where
  registered key i hi := by cases hi
  current h hh hsince := by
    have hle := hs.since_le h hh
    change h.since = s.clears + 1 at hsince
    omega
  distinct := hs.distinct
  orphaned h hh _ := by
    rw [LockRegistry.clear]
    by_cases hcurrent : h.since = s.clears
    · have hget := hs.current h hh hcurrent
      obtain ⟨ks, hks, -⟩ := hs.registered _ _ hget
      have hnamed : ∃ e ∈ s.states.entries, e.2 = h.state :=
        ⟨_, get_eq_some_iff.mp hget, rfl⟩
      refine ⟨cancelAll ks, by simp [hks, if_pos hnamed], fun w hw => ?_⟩
      obtain ⟨w', -, rfl⟩ := mem_map.mp hw
      by_cases hw' : w'.cancelled = true
      · rw [if_pos hw', hw']
      · rw [if_neg hw', Waiter.cancel]
    · obtain ⟨ks, hks, hall⟩ := hs.orphaned h hh hcurrent
      have hunnamed : ¬ ∃ e ∈ s.states.entries, e.2 = h.state := by
        rintro ⟨e, he, hstate⟩
        have hget : s.states.get e.1 = some e.2 := get_eq_some_iff.mpr he
        exact hs.ne_of_registered hget hh hcurrent hstate.symm
      exact ⟨ks, by simp [hks, if_neg hunnamed], hall⟩
  since_le h hh := Nat.le_succ_of_le (hs.since_le h hh)

end

/-! ## Completions -/

section

variable (hs : Owned s)
include hs

theorem mem_erase_holder {h' : Holder} : h' ∈ s.holders.erase h ↔ h' ≠ h ∧ h' ∈ s.holders :=
  (List.Nodup.of_map _ hs.distinct).mem_erase_iff

/-- The completion of an earlier call finds no waiter, and its key names no key state. -/
theorem advance_orphan (hh : h ∈ s.holders) (hsince : h.since ≠ s.clears) :
    { s with holders := s.holders.erase h }.advance h.key h.state =
      { s with
        holders := s.holders.erase h
        heap := s.heap.set h.state ⟨false, []⟩
        states := s.states.delete h.key } := by
  obtain ⟨ks, hks, hall⟩ := hs.orphaned h hh hsince
  have hnone : ks.queue.dropWhile Waiter.cancelled = [] := dropWhile_eq_nil_iff.mpr hall
  rw [advance]
  simp [hks, hnone]

/-- The completion of a later call promotes a waiter or releases the key. -/
theorem Owned.advance_current (hh : h ∈ s.holders) (hsince : h.since = s.clears) :
    Owned ({ s with holders := s.holders.erase h }.advance h.key h.state) := by
  have hget := hs.current h hh hsince
  obtain ⟨ks, hks, hrunning, hqueue, -⟩ := hs.registered _ _ hget
  have hlt := (List.getElem?_eq_some_iff.mp hks).1
  have hothers : ∀ h' ∈ s.holders.erase h, h'.state ≠ h.state := by
    intro h' hh' heq
    obtain ⟨hne, hmem⟩ := (mem_erase_holder hs).mp hh'
    exact hne (hs.eq_of_state hmem hh heq)
  have hsub : ∀ h' ∈ s.holders.erase h, h' ∈ s.holders := fun _ => mem_of_mem_erase
  have hwitness : ∀ key i, s.states.get key = some i → i ≠ h.state →
      ∃ h' ∈ s.holders.erase h, h'.state = i ∧ h'.key = key ∧ h'.since = s.clears := by
    intro key i hi hne
    obtain ⟨-, -, -, -, h', hh', hstate, hrest⟩ := hs.registered key i hi
    refine ⟨h', (mem_erase_holder hs).mpr ⟨?_, hh'⟩, hstate, hrest⟩
    rintro rfl
    exact hne hstate.symm
  rw [advance]
  simp only [hks]
  cases hq : ks.queue.dropWhile Waiter.cancelled with
  | nil =>
    refine ⟨fun key i hi => ?_, fun h' hh' hcur => ?_, ?_, fun h' hh' hne => ?_,
      fun h' hh' => hs.since_le h' (hsub h' hh')⟩
    · rw [get_delete] at hi
      split_ifs at hi with hk
      have hne : i ≠ h.state := by
        rintro rfl
        exact hk (hs.key_unique hget hi)
      obtain ⟨ks', hks', hrun', hqueue', -⟩ := hs.registered key i hi
      exact ⟨ks', by rw [getElem?_set_ne hne.symm]; exact hks', hrun', hqueue',
        hwitness key i hi hne⟩
    · have hget' := hs.current h' (hsub h' hh') hcur
      rw [get_delete, if_neg]
      · exact hget'
      · intro hk
        rw [← hk, hget] at hget'
        exact hothers h' hh' (Option.some.inj hget').symm
    · exact hs.distinct.sublist (erase_sublist.map _)
    · obtain ⟨ks', hks', hall⟩ := hs.orphaned h' (hsub h' hh') hne
      exact ⟨ks', by rw [getElem?_set_ne (hothers h' hh').symm]; exact hks', hall⟩
  | cons w queue =>
    have hmem : ∀ w' ∈ w :: queue, w'.since = s.clears := fun w' hw' =>
      hqueue w' ((dropWhile_sublist _).subset (hq ▸ hw'))
    refine ⟨fun key i hi => ?_, fun h' hh' hcur => ?_, ?_, fun h' hh' hne => ?_, fun h' hh' => ?_⟩
    · by_cases hi' : i = h.state
      · subst hi'
        refine ⟨⟨ks.running, queue⟩, getElem?_set_self hlt, hrunning,
          fun w' hw' => hmem w' (.tail _ hw'), ?_⟩
        exact ⟨_, mem_concat_self, rfl, hs.key_unique hget hi,
          hmem w (.head _)⟩
      · obtain ⟨ks', hks', hrun', hqueue', -⟩ := hs.registered key i hi
        obtain ⟨h', hh', hstate⟩ := hwitness key i hi hi'
        exact ⟨ks', (getElem?_set_ne (Ne.symm hi')).trans hks', hrun', hqueue', h',
          mem_append_left _ hh', hstate⟩
    · rcases mem_concat.mp hh' with hh' | rfl
      · exact hs.current h' (hsub h' hh') hcur
      · exact hget
    · change ((s.holders.erase h ++ [Holder.mk w.call h.key h.state w.since]).map Holder.state).Nodup
      rw [map_append, nodup_append]
      refine ⟨hs.distinct.sublist (erase_sublist.map _), nodup_singleton _, ?_⟩
      intro i hi j hj heq
      obtain ⟨h', hh', rfl⟩ := mem_map.mp hi
      obtain rfl : j = h.state := by simpa using hj
      exact hothers h' hh' heq
    · rcases mem_append.mp hh' with hh' | hh'
      · obtain ⟨ks', hks', hall⟩ := hs.orphaned h' (hsub h' hh') hne
        exact ⟨ks', (getElem?_set_ne (hothers h' hh').symm).trans hks', hall⟩
      · rw [mem_singleton.mp hh'] at hne
        exact absurd (hmem w (.head _)) hne
    · rcases mem_concat.mp hh' with hh' | rfl
      · exact hs.since_le h' (hsub h' hh')
      · exact le_of_eq (hmem w (.head _))


/-- The completion of an earlier call whose key names no key state. -/
theorem Owned.advance_orphan (hh : h ∈ s.holders) (hsince : h.since ≠ s.clears)
    (hkey : s.states.get h.key = none) :
    Owned ({ s with holders := s.holders.erase h }.advance h.key h.state) := by
  have hsub : ∀ h' ∈ s.holders.erase h, h' ∈ s.holders := fun _ => mem_of_mem_erase
  have hothers : ∀ h' ∈ s.holders.erase h, h'.state ≠ h.state := by
    intro h' hh' heq
    obtain ⟨hne, hmem⟩ := (mem_erase_holder hs).mp hh'
    exact hne (hs.eq_of_state hmem hh heq)
  have hget : ∀ key, (s.states.delete h.key).get key = s.states.get key := by
    intro key
    rw [get_delete]
    split_ifs with hk
    · rw [← hk, hkey]
    · rfl
  rw [Lock.advance_orphan hs hh hsince]
  refine ⟨fun key i hi => ?_, fun h' hh' hcur => ?_, ?_, fun h' hh' hne => ?_,
    fun h' hh' => hs.since_le h' (hsub h' hh')⟩
  · rw [hget] at hi
    obtain ⟨ks, hks, hrunning, hqueue, h', hh', hstate, hrest⟩ := hs.registered key i hi
    have hne := hs.ne_of_registered hi hh hsince
    refine ⟨ks, (getElem?_set_ne hne).trans hks, hrunning, hqueue, h', ?_, hstate, hrest⟩
    rw [mem_erase_holder hs]
    refine ⟨?_, hh'⟩
    rintro rfl
    exact hne hstate
  · rw [hget]
    exact hs.current h' (hsub h' hh') hcur
  · exact hs.distinct.sublist (erase_sublist.map _)
  · obtain ⟨ks, hks, hall⟩ := hs.orphaned h' (hsub h' hh') hne
    exact ⟨ks, (getElem?_set_ne (hothers h' hh').symm).trans hks, hall⟩

/-- An earlier call's key names no key state where its completion meets the condition. -/
theorem Owned.get_eq_none (hh : h ∈ s.holders) (hsince : h.since ≠ s.clears)
    (hspares : ∀ i, s.states.get h.key = some i → i = h.state) : s.states.get h.key = none := by
  cases hget : s.states.get h.key with
  | none => rfl
  | some i => exact absurd (hspares i hget).symm (hs.ne_of_registered hget hh hsince)

theorem Owned.settle (hok : NoStaleRelease s (.settle call)) (h : s.settle call = some s') :
    Owned s' := by
  obtain ⟨hold, hfind, rfl⟩ := Option.map_eq_some_iff.mp h
  have hmem := mem_of_find?_eq_some hfind
  by_cases hsince : hold.since = s.clears
  · exact hs.advance_current hmem hsince
  · exact hs.advance_orphan hmem hsince (hs.get_eq_none hmem hsince (hok hold hfind))

theorem Owned.step {e : LockEvent} (hok : NoStaleRelease s e)
    (h : (lockMachine o).step s e = some s') : Owned s' := by
  cases e with
  | withLock c =>
    cases h
    exact hs.withLock c
  | settle call => exact hs.settle hok h
  | timeout call => exact hs.expire h
  | clear =>
    cases h
    exact hs.clear

/-- A completion leaves later calls alone exactly where it meets the condition. -/
theorem Owned.inert_iff (h : s.settle call = some s') :
    Inert s call s' ↔ NoStaleRelease s (.settle call) := by
  obtain ⟨hold, hfind, rfl⟩ := Option.map_eq_some_iff.mp h
  have hmem := mem_of_find?_eq_some hfind
  constructor
  · intro hinert h' hfind' i hi
    rw [hfind] at hfind'
    cases hfind'
    by_cases hsince : hold.since = s.clears
    · have hget := hs.current hold hmem hsince
      rw [hi] at hget
      exact Option.some.inj hget
    · -- the deletion by name takes away the entry
      have hkeep := (hinert hold hfind hsince).1 hold.key
      rw [Lock.advance_orphan hs hmem hsince] at hkeep
      rw [hi, get_delete_self] at hkeep
      cases hkeep
  · intro hok h' hfind' hsince
    rw [hfind] at hfind'
    cases hfind'
    have hnone := hs.get_eq_none hmem hsince (hok hold hfind)
    rw [Lock.advance_orphan hs hmem hsince]
    refine ⟨fun key => ?_, fun key i hi => ?_, fun h' hcur => ?_⟩
    · rw [get_delete]
      split_ifs with hk
      · rw [← hk, hnone]
      · rfl
    · exact getElem?_set_ne (hs.ne_of_registered hi hmem hsince)
    · rw [mem_erase_holder hs]
      refine ⟨And.right, fun hh' => ⟨?_, hh'⟩⟩
      rintro rfl
      exact hsince hcur

end

/-! ## Runs -/

/-- Along a run whose completions meet the condition the later calls of a key exclude each other
and hold it, and a completion leaves them alone exactly where it meets the condition, too. -/
theorem exclusive_of_noStaleRelease {es : List LockEvent}
    (hrun : (lockMachine o).ReachesWhere NoStaleRelease es s) :
    Exclusive s ∧ HeldWhileRunning s ∧
      ∀ call s', (lockMachine o).step s (.settle call) = some s' →
        (Inert s call s' ↔ NoStaleRelease s (.settle call)) := by
  have hs : Owned s := hrun.invariant owned_create fun _ _ _ hI hok hstep => hI.step hok hstep
  exact ⟨hs.exclusive, hs.heldWhileRunning, fun call s' h => hs.inert_iff h⟩

/-- The key of the runs below. -/
def sharedCall : WithLockCall := ⟨some (lit "user:1"), true, none⟩

/-- Bounds that the runs below stay under. -/
def smallOptions : LockOptions := ⟨10, 10, 10, by decide, by decide, by decide⟩

/-- A function runs on across a clear, and its key is not taken again before it settles. -/
theorem exclusive_of_noStaleRelease_quietRun :
    ∃ s, (Exclusive s ∧ HeldWhileRunning s ∧
      ∀ call s', (lockMachine smallOptions).step s (.settle call) = some s' →
        (Inert s call s' ↔ NoStaleRelease s (.settle call))) ∧ s.calls = 2 := by
  have hfree : ∀ s c, NoStaleRelease s (.withLock c) := fun _ _ => trivial
  have hclear : ∀ s, NoStaleRelease s .clear := fun _ => trivial
  have hcleared : (lockMachine smallOptions).ReachesWhere NoStaleRelease _ _ :=
    .next (.next .start (hfree _ sharedCall) rfl) (hclear _) rfl
  have hspares : NoStaleRelease (withLock smallOptions .create sharedCall).clear
      (.settle 0) := by
    intro _ _ i hi
    cases hi
  have hsettled : (lockMachine smallOptions).ReachesWhere NoStaleRelease _ _ :=
    .next hcleared hspares rfl
  exact ⟨_, exclusive_of_noStaleRelease (.next hsettled (hfree _ sharedCall) rfl), rfl⟩

/-- A function runs on across a clear and settles while a later one holds its key: a third runs
beside the later one. -/
theorem not_exclusive_clearedRun :
    ¬ ∀ (o : LockOptions) (es : List LockEvent) (s : LockRegistry),
      (lockMachine o).Reaches es s → Exclusive s := by
  intro h
  have hrun : (lockMachine smallOptions).exec .create
      [.withLock sharedCall, .clear, .withLock sharedCall, .settle 0, .withLock sharedCall] =
      some _ := rfl
  have htwo := h smallOptions _ _ (Machine.reaches_of_exec hrun) (lit "user:1")
  revert htwo
  decide

end AdapterWs.Lock
