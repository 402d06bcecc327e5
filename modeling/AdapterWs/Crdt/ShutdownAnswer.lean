import Mathlib.Data.Rat.Floor
import AdapterWs.Crdt.FlushStep
import AdapterWs.Crdt.Retention

/-!
# CRDT authority: what `ok` answers

`ok` is read off the outcomes of a flush and the `dirty` flags of its records when it resolves.
The flag is cleared when a store is armed, not when it lands, and the compaction trigger clears
it even where there is no store hook to arm. So `ok` is right under two conditions, which
`answersHonestly` states of the step that resolves a flush: no clean record has a newest store
that is still in flight, and, without a hook, no record has accepted a positive multiple of
`snapshotEvery` updates.
-/

namespace AdapterWs.Crdt

open List Option Authority TopicRecord

variable {Y : Yjs} {Topic : Type} {cfg : Config}

/-! ## Without a store hook -/

/-- A record that no store is ever armed on: its flag counts the updates since the compaction
trigger last fired. -/
structure Bare (cfg : Config) (r : TopicRecord Y Topic) : Prop where
  /-- Nothing is stored. -/
  stores_eq : r.stores = []
  /-- Nothing is scheduled. -/
  timer_eq : r.debounceTimer = none
  /-- The count starts over with every compaction. -/
  count_eq : r.updatesSinceStore = r.accepted.length % ⌈cfg.snapshotEvery⌉₊
  /-- A clean record was just compacted. -/
  clean : r.dirty = false → r.updatesSinceStore = 0

section Bare

variable {r r' : TopicRecord Y Topic}

theorem Bare.same (h : Bare cfg r) (hstores : r'.stores = r.stores)
    (htimer : r'.debounceTimer = r.debounceTimer ∨ r'.debounceTimer = none)
    (hcount : r'.updatesSinceStore = r.updatesSinceStore) (hacc : r'.accepted = r.accepted)
    (hdirty : r'.dirty = r.dirty) : Bare cfg r' := by
  refine ⟨hstores.trans h.stores_eq, ?_, ?_, ?_⟩
  · rcases htimer with ht | ht
    · exact ht.trans h.timer_eq
    · exact ht
  · rw [hcount, hacc]
    exact h.count_eq
  · rw [hdirty, hcount]
    exact h.clean

end Bare

/-! ## The condition -/

/-- What a record must be like when a flush that covers it resolves. With a store hook, its newest
store is not in flight unconfirmed; without one, its updates do not end in a compaction. -/
def settled (cfg : Config) (r : TopicRecord Y Topic) : Bool :=
  if cfg.hasStore then r.dirty || (r.stores.getLast?).all fun c => !c.inFlight || c.confirmed
  else r.accepted.length % ⌈cfg.snapshotEvery⌉₊ ≠ 0 || r.accepted = []

variable [DecidableEq Topic] {s s' : Authority Y Topic} {e : Event Topic} {f : ℕ}

/-- A flush joins a store in flight, an edit is captured by a store behind it, and the flush
resolves with the first one. -/
def overtakenRun : List (Event ℕ) :=
  warmRun ++ [.timerFires 0, .storeDispatches 0 0, .persistNow .undefined .undefined 0,
    .applyUpdate 0 (.uint8Array [2]) 10, .timerFires 0, .storeAnswers 0 0 (.resolved false),
    .storeSettles 0 0, .chainSettles 0 0]

end AdapterWs.Crdt
