import Mathlib.Data.List.Chain
import Mathlib.Data.List.Nodup

/-!
# Linked lists through a sentinel

A list in a heap of nodes is a head, a tail and the pointers between its nodes. Read the head as
the successor of a sentinel and the tail as its predecessor: the list is then a ring from the
sentinel back to it, and taking a node out or putting one in changes one successor and one
predecessor, wherever in the list that is.
-/

namespace AdapterWs.Linked

open Function List

variable {P : Type} {next next' prev prev' : P → P} {s x : P} {l a c : List P}

/-- A chain for one relation is one for another that agrees on its neighbours. -/
theorem isChain_of_mem {R S : P → P → Prop} (h : l.IsChain R)
    (H : ∀ x ∈ l.dropLast, ∀ y ∈ l.tail, R x y → S x y) : l.IsChain S := by
  induction l with
  | nil => exact isChain_nil
  | cons x l ih =>
    cases l with
    | nil => exact isChain_singleton x
    | cons y l =>
      rw [isChain_cons_cons] at h ⊢
      refine ⟨H x (by simp) y (by simp) h.1, ih h.2 fun u hu v hv => ?_⟩
      exact H u (by simp [hu]) v (mem_of_mem_tail hv)

/-- The successors lead from the sentinel through the list back to it. -/
def Path (next : P → P) (s : P) (l : List P) : Prop :=
  (s :: (l ++ [s])).IsChain fun x y => next x = y

/-- The successors lead from the sentinel through the list back to it, and the predecessors
lead the other way. -/
def Ring (next prev : P → P) (s : P) (l : List P) : Prop :=
  (s :: (l ++ [s])).IsChain fun x y => next x = y ∧ prev y = x

/-- A path reads the successors of the sentinel and of the list. -/
theorem Path.congr (h : Path next s l) (hnext : ∀ x ∈ s :: l, next' x = next x) :
    Path next' s l := by
  refine isChain_of_mem h fun x hx y _ hxy => ?_
  rw [← cons_append, dropLast_concat] at hx
  rw [hnext x hx, hxy]

theorem Path.unique (h : Path next s l) (h' : Path next s a) (hl : s ∉ l) (ha : s ∉ a) : l = a := by
  have hfrom : ∀ (l a : List P) (x : P), s ∉ l → s ∉ a →
      (x :: (l ++ [s])).IsChain (fun x y => next x = y) →
      (x :: (a ++ [s])).IsChain (fun x y => next x = y) → l = a := by
    intro l
    induction l with
    | nil =>
      intro a x _ ha h h'
      cases a with
      | nil => rfl
      | cons y a =>
        have hs := (isChain_cons_cons.mp h).1
        have hy := (isChain_cons_cons.mp h').1
        exact absurd (mem_cons.mpr (.inl (hs.symm.trans hy))) ha
    | cons z l ih =>
      intro a x hl ha h h'
      have hz := isChain_cons_cons.mp h
      cases a with
      | nil =>
        have hs := (isChain_cons_cons.mp h').1
        exact absurd (mem_cons.mpr (.inl (hs.symm.trans hz.1))) hl
      | cons y a =>
        have hy := isChain_cons_cons.mp h'
        obtain rfl : z = y := hz.1.symm.trans hy.1
        rw [mem_cons, not_or] at hl ha
        rw [ih a z hl.2 ha.2 hz.2 hy.2]
  exact hfrom l a s hl ha h h'

theorem Path.next_sentinel (h : Path next s l) : next s = l.headD s := by
  cases l with
  | nil => exact (isChain_cons_cons.mp h).1
  | cons x l => exact (isChain_cons_cons.mp h).1

theorem Ring.path (h : Ring next prev s l) : Path next s l :=
  List.IsChain.imp (fun _ _ => And.left) h

theorem path_nil (h : next s = s) : Path next s [] := by
  simpa [Path] using h

theorem ring_nil (hnext : next s = s) (hprev : prev s = s) : Ring next prev s [] := by
  simpa [Ring] using ⟨hnext, hprev⟩

theorem exists_last (s : P) (l : List P) : ∃ u p, s :: l = u ++ [p] :=
  ⟨_, _, (dropLast_append_getLast (cons_ne_nil s l)).symm⟩

theorem not_mem_of_last {u : List P} {p : P} (hl : (u ++ [p]).Nodup) (hx : x ∉ u ++ [p]) :
    p ∉ u ∧ x ≠ p ∧ x ∉ u :=
  ⟨fun hp => (nodup_append.mp hl).2.2 p hp p (.head _) rfl, fun hxp => hx (by simp [hxp]),
    fun hxu => hx (mem_append_left _ hxu)⟩

theorem Ring.prev_sentinel (h : Ring next prev s l) {u : List P} {p : P} (hlast : s :: l = u ++ [p]) :
    prev s = p := by
  rw [Ring, ← cons_append, hlast, append_assoc] at h
  exact (isChain_append_cons_cons.mp h).2.1.2

variable [DecidableEq P]

theorem Path.enqueue (h : Path next s l) (hl : (s :: l).Nodup) (hx : x ∉ s :: l) {u : List P}
    {p : P} (hlast : s :: l = u ++ [p]) : Path (update (update next x s) p x) s (l ++ [x]) := by
  rw [Path, ← cons_append, hlast, append_assoc] at h
  obtain ⟨hfront, -, -⟩ := isChain_append_cons_cons.mp h
  rw [hlast] at hl hx
  obtain ⟨hp, hxp, hxu⟩ := not_mem_of_last hl hx
  rw [Path, ← cons_append, ← cons_append, hlast, append_assoc, append_assoc]
  refine isChain_append_cons_cons.mpr ⟨?_, update_self _ _ _, ?_⟩
  · refine isChain_of_mem hfront fun y hy z _ hyz => ?_
    rw [dropLast_concat] at hy
    rw [update_of_ne (by rintro rfl; exact hp hy), update_of_ne (by rintro rfl; exact hxu hy), hyz]
  · change [x, s].IsChain _
    rw [isChain_pair, update_of_ne hxp, update_self]

theorem Path.dequeue (h : Path next s (x :: l)) (hl : (s :: x :: l).Nodup) :
    Path (update (update next s (next x)) x s) s l := by
  obtain ⟨hs, hx, hrest⟩ : s ∉ x :: l ∧ x ∉ l ∧ l.Nodup := by simpa [and_assoc] using hl
  obtain ⟨-, h⟩ := isChain_cons_cons.mp h
  have hsx : s ≠ x := fun hsx => hs (by simp [hsx])
  change (x :: (l ++ [s])).IsChain _ at h
  rw [isChain_cons] at h
  rw [Path, isChain_cons]
  constructor
  · intro y hy
    rw [update_of_ne hsx, update_self]
    exact h.1 y hy
  · refine isChain_of_mem h.2 fun y hy z _ hyz => ?_
    rw [dropLast_concat] at hy
    rw [update_of_ne (by rintro rfl; exact hx hy),
      update_of_ne (by rintro rfl; exact hs (.tail _ hy)), hyz]

/-- A node is put in before the sentinel, after the node that was last. -/
theorem Ring.link (h : Ring next prev s l) (hl : (s :: l).Nodup) (hx : x ∉ s :: l) :
    Ring (update (update next x s) (prev s) x) (update (update prev x (prev s)) s x) s
      (l ++ [x]) := by
  obtain ⟨u, p, hlast⟩ := exists_last s l
  rw [h.prev_sentinel hlast]
  have htail : ∀ y ∈ (u ++ [p]).tail, y ≠ s := by
    rw [← hlast]
    rintro y hy rfl
    exact (nodup_cons.mp hl).1 hy
  rw [Ring, ← cons_append, hlast, append_assoc] at h
  obtain ⟨hfront, -, -⟩ := isChain_append_cons_cons.mp h
  rw [hlast] at hl hx
  obtain ⟨hp, hxp, hxu⟩ := not_mem_of_last hl hx
  have hxs : x ≠ s := by
    rintro rfl
    exact hx (hlast ▸ (.head _))
  rw [Ring, ← cons_append, ← cons_append, hlast, append_assoc, append_assoc]
  refine isChain_append_cons_cons.mpr ⟨?_, ⟨update_self _ _ _, ?_⟩, ?_⟩
  · refine isChain_of_mem hfront fun y hy z hz hyz => ?_
    rw [dropLast_concat] at hy
    refine ⟨?_, ?_⟩
    · rw [update_of_ne (by rintro rfl; exact hp hy), update_of_ne (by rintro rfl; exact hxu hy),
        hyz.1]
    · rw [update_of_ne (htail z hz), update_of_ne, hyz.2]
      rintro rfl
      exact hx (mem_of_mem_tail hz)
  · rw [update_of_ne hxs, update_self]
  · change [x, s].IsChain _
    rw [isChain_pair, update_of_ne hxp, update_self, update_self]
    exact ⟨rfl, rfl⟩

theorem Ring.unlink (h : Ring next prev s (a ++ x :: c)) (hl : (s :: (a ++ x :: c)).Nodup) :
    Ring (update (update next (prev x) (next x)) x s) (update (update prev (next x) (prev x)) x s)
      s (a ++ c) := by
  obtain ⟨u, p, hlast⟩ := exists_last s a
  obtain ⟨n, v, hfirst⟩ := exists_cons_of_ne_nil (l := c ++ [s]) (by simp)
  have hsplit : s :: (a ++ x :: c ++ [s]) = u ++ p :: x :: n :: v := by
    rw [append_assoc, cons_append, hfirst, ← cons_append, hlast, append_assoc]
    rfl
  rw [Ring, hsplit, isChain_append_cons_cons, isChain_cons_cons] at h
  obtain ⟨hfront, ⟨-, hprev⟩, ⟨hnext, -⟩, hback⟩ := h
  have hjoin : s :: (a ++ c ++ [s]) = u ++ p :: n :: v := by
    rw [append_assoc, hfirst, ← cons_append, hlast, append_assoc]
    rfl
  -- what lies before the node and what lies after it are apart
  have hparts : (s :: a).Nodup ∧ c.Nodup ∧ x ∉ s :: a ∧ x ∉ c ∧ ∀ y ∈ s :: a, y ∉ c := by
    rw [← cons_append, nodup_append, nodup_cons (a := x)] at hl
    obtain ⟨hfront, ⟨hx, hc⟩, hapart⟩ := hl
    exact ⟨hfront, hc, fun h => hapart x h x (by simp) rfl, hx,
      fun y hy hc => hapart y hy y (by simp [hc]) rfl⟩
  obtain ⟨ha, hc, hxa, hxc, hapart⟩ := hparts
  have hmemp : p ∈ s :: a := by simp [hlast]
  have hn : n ∈ c ∨ n = s := by
    have hmem : n ∈ c ++ [s] := by simp [hfirst]
    simpa using hmem
  have hpu : p ∉ u := by
    rw [hlast] at ha
    exact fun hp => (nodup_append.mp ha).2.2 p hp p (by simp) rfl
  have hpx : p ≠ x := by
    rintro rfl
    exact hxa hmemp
  have hnx : n ≠ x := by
    rintro rfl
    rcases hn with hn | rfl
    · exact hxc hn
    · exact hxa (.head _)
  rw [hprev, hnext, Ring, hjoin, isChain_append_cons_cons]
  refine ⟨?_, ⟨by rw [update_of_ne hpx, update_self], by rw [update_of_ne hnx, update_self]⟩, ?_⟩
  · refine isChain_of_mem hfront fun y hy z hz hyz => ?_
    rw [dropLast_concat] at hy
    rw [← hlast] at hz
    have hya : y ∈ s :: a := by simp [hlast, hy]
    refine ⟨?_, ?_⟩
    · rw [update_of_ne (by rintro rfl; exact hxa hya), update_of_ne (by rintro rfl; exact hpu hy),
        hyz.1]
    · have hza : z ∈ a := hz
      rw [update_of_ne (by rintro rfl; exact hxa (.tail _ hza)), update_of_ne, hyz.2]
      rintro rfl
      rcases hn with hn | rfl
      · exact hapart z (.tail _ hza) hn
      · exact (nodup_cons.mp ha).1 hza
  · refine isChain_of_mem hback fun y hy z hz hyz => ?_
    rw [← hfirst, dropLast_concat] at hy
    refine ⟨?_, ?_⟩
    · rw [update_of_ne (by rintro rfl; exact hxc hy),
        update_of_ne (by rintro rfl; exact hapart y hmemp hy), hyz.1]
    · have hzn : z ≠ x ∧ z ≠ n := by
        cases c with
        | nil =>
          obtain ⟨rfl, rfl⟩ := cons.inj hfirst
          cases hz
        | cons m c =>
          obtain ⟨rfl, rfl⟩ := cons.inj hfirst
          change z ∈ c ++ [s] at hz
          rcases mem_append.mp hz with hz | hz
          · exact ⟨by rintro rfl; exact hxc (.tail _ hz),
              by rintro rfl; exact (nodup_cons.mp hc).1 hz⟩
          · rw [mem_singleton.mp hz]
            exact ⟨by rintro rfl; exact hxa (.head _),
              by rintro rfl; exact hapart s (.head _) (.head _)⟩
      rw [update_of_ne hzn.1, update_of_ne hzn.2, hyz.2]

end AdapterWs.Linked
