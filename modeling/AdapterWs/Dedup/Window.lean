import AdapterWs.Lib.JsMap
import AdapterWs.Lib.JsString
import AdapterWs.Lib.Machine
import AdapterWs.Lib.Nearest

/-!
# The dedup cache

`createDedup` remembers until when an id is taken. A claim of an id that is not taken is granted and
takes it for `ttl`. A map of more than 110% of its cap drops the ids that are free again, and then
the oldest ones while it is over the cap.
-/

namespace AdapterWs.Dedup

open Binary64 JsString

/-- `DedupOptions`. -/
structure DedupOptions where
  ttl : ℚ
  maxEntries : ℕ
  maxIdLength : ℕ
  ttl_pos : 0 < ttl
  maxEntries_pos : 0 < maxEntries
  maxIdLength_pos : 0 < maxIdLength

/-- What a call throws. -/
inductive DedupError
  | emptyId
  | idLength (length max : ℕ)
  deriving DecidableEq

/-- The text of an error. -/
def DedupError.message : DedupError → JsString
  | .emptyId => lit "dedup: id must be a non-empty string"
  | .idLength length max =>
    lit "dedup: id length " ++ lit (toString length) ++ lit " exceeds maxIdLength "
      ++ lit (toString max)

/-- `seen`: until when each id is taken. -/
abbrev Seen := JsMap JsString ℚ

/-- `validateId(id)`, with the error it throws. -/
def validateId (o : DedupOptions) (id : JsString) : Option DedupError :=
  if id.length = 0 then some .emptyId
  else if o.maxIdLength < id.length then some (.idLength id.length o.maxIdLength)
  else none

/-- `maxEntries * 1.1`. -/
def DedupOptions.threshold (o : DedupOptions) : ℚ := nearest (o.maxEntries * nearest (11 / 10))

/-- The oldest entries are dropped while there are more than `max`. -/
def dropOldest (max : ℕ) : List (JsString × ℚ) → List (JsString × ℚ)
  | [] => []
  | p :: l => if max < l.length + 1 then dropOldest max l else p :: l

theorem dropOldest_sublist (max : ℕ) (l : List (JsString × ℚ)) : (dropOldest max l).Sublist l := by
  induction l with
  | nil => exact .slnil
  | cons p l ih =>
    rw [dropOldest]
    split_ifs
    · exact ih.cons p
    · exact List.Sublist.refl _

/-- The oldest ids are forgotten while there are more than `max`. -/
def Seen.evict (max : ℕ) (seen : Seen) : Seen :=
  ⟨dropOldest max seen.entries, ((dropOldest_sublist max seen.entries).map Prod.fst).nodup
    seen.nodup⟩

/-- `pruneIfFull()`, at a reading of the clock. -/
def pruneIfFull (o : DedupOptions) (seen : Seen) (t : ℚ) : Seen :=
  if (seen.size : ℚ) ≤ o.threshold then seen
  else Seen.evict o.maxEntries (seen.filter fun _ expiresAt => !decide (expiresAt ≤ t))

/-- The map with an id that is taken now. -/
def take (o : DedupOptions) (seen : Seen) (id : JsString) (t : ℚ) : Seen :=
  (if (seen.get id).isSome then seen.delete id else seen).set id (nearest (t + o.ttl))

/-- `claim(id)`, at a reading of the clock and one of a sweep. -/
def claim (o : DedupOptions) (seen : Seen) (id : JsString) (t swept : ℚ) :
    Except DedupError Bool × Seen :=
  match validateId o id with
  | some e => (.error e, seen)
  | none =>
    if (seen.get id).any fun prev => decide (t < prev) then (.ok false, seen)
    else (.ok true, pruneIfFull o (take o seen id t) swept)

/-- `has(id)`. -/
def has (o : DedupOptions) (seen : Seen) (id : JsString) (t : ℚ) : Except DedupError Bool × Seen :=
  match validateId o id with
  | some e => (.error e, seen)
  | none =>
    match seen.get id with
    | none => (.ok false, seen)
    | some expiresAt => if expiresAt ≤ t then (.ok false, seen.delete id) else (.ok true, seen)

/-- `delete(id)`. -/
def delete (o : DedupOptions) (seen : Seen) (id : JsString) (t : ℚ) :
    Except DedupError Bool × Seen :=
  match validateId o id with
  | some e => (.error e, seen)
  | none =>
    match seen.get id with
    | none => (.ok false, seen)
    | some expiresAt => (.ok (decide (t < expiresAt)), seen.delete id)

/-! ## Runs -/

/-- What happened to ids. -/
inductive DedupEntry
  | claimed (id : JsString) (t : ℚ)
  | deleted (id : JsString)
  | cleared
  deriving DecidableEq

/-- The cache, the last reading of the clock, the claims that were granted and not taken back, the
largest size of the map, and what happened, the last first. -/
structure History where
  seen : Seen
  clock : ℚ
  windows : JsMap JsString ℚ
  peak : ℕ
  log : List DedupEntry

/-- A call, at readings of the clock. -/
inductive DedupEvent
  | claim (id : JsString) (t swept : ℚ)
  | has (id : JsString) (t : ℚ)
  | delete (id : JsString) (t : ℚ)
  | clear

/-- A claim, which is counted if it is granted. -/
def History.claim (o : DedupOptions) (h : History) (id : JsString) (t swept : ℚ) : History :=
  match Dedup.claim o h.seen id t swept with
  | (.ok true, seen) =>
    { seen := seen
      clock := swept
      windows := (h.windows.delete id).set id t
      peak := max h.peak (take o h.seen id t).size
      log := .claimed id t :: h.log }
  | (_, seen) => { h with seen := seen, clock := t }

/-- A `delete`, of an id that is valid. -/
def History.delete (o : DedupOptions) (h : History) (id : JsString) (t : ℚ) : History :=
  match Dedup.delete o h.seen id t with
  | (.ok _, seen) =>
    { h with
      seen := seen
      clock := t
      windows := h.windows.delete id
      log := .deleted id :: h.log }
  | (.error _, seen) => { h with seen := seen, clock := t }

/-- One cache. The clock does not go back. -/
def dedupMachine (o : DedupOptions) (clock : ℚ) : Machine History DedupEvent where
  init := ⟨.empty, clock, .empty, 0, []⟩
  step h
    | .claim id t swept => if h.clock ≤ t ∧ t ≤ swept then some (h.claim o id t swept) else none
    | .has id t =>
      if h.clock ≤ t then some { h with seen := (has o h.seen id t).2, clock := t } else none
    | .delete id t => if h.clock ≤ t then some (h.delete o id t) else none
    | .clear => some { h with seen := .empty, windows := .empty, log := .cleared :: h.log }

/-- The ids that are inside their windows. -/
def History.inside (o : DedupOptions) (h : History) : List (JsString × ℚ) :=
  h.windows.entries.filter fun p => decide (h.clock < p.2 + o.ttl)

/-- A call after which there are not too many ids inside their windows. -/
def Sparse (o : DedupOptions) (h : History) (e : DedupEvent) : Prop :=
  ∀ h', (dedupMachine o h.clock).step h e = some h' → (h'.inside o).length ≤ o.maxEntries

/-- What the cache promises. -/
structure Windowed (o : DedupOptions) (h : History) : Prop where
  /-- A second claim is granted after the window of the first, or after the id was forgotten. -/
  twice : ∀ later between earlier id t t',
    h.log = later ++ .claimed id t' :: between ++ .claimed id t :: earlier →
    .deleted id ∉ between → .cleared ∉ between → t + o.ttl ≤ t'
  /-- `has` tells what a claim would say. -/
  has : ∀ id t swept, (Dedup.has o h.seen id t).1 = (Dedup.claim o h.seen id t swept).1.map (!·)
  /-- A claim that is not granted changes nothing. -/
  duplicate : ∀ id t swept, (Dedup.claim o h.seen id t swept).1 = .ok false →
    (Dedup.claim o h.seen id t swept).2 = h.seen
  size : h.seen.size ≤ h.peak
  peak : h.peak ≤ ⌊(11 / 10 : ℚ) * o.maxEntries⌋₊ + 1

end AdapterWs.Dedup
