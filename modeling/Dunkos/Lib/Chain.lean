import Mathlib.Data.List.Chain
import Mathlib.Data.List.Nodup
import Mathlib.Logic.Equiv.Basic
import Mathlib.Logic.Function.Basic

/-! # Doubly linked chains

A doubly linked structure over an arbitrary type `P` of cells is a pair of maps
`next prev : P → P`.  `Chain next prev cs` says that the cells `cs` are linked both ways in this
order: each one's `next` is its successor and each one's `prev` its predecessor.  The first and
the last cell are the end points (sentinels); the `prev` of the first and the `next` of the last
are not constrained.

The pointer operations are `link` (put a cell between two neighbours), `unlink` (join the
neighbours of a cell) and `swap` (exchange two cells).  `Chain.link`, `Chain.unlink` and `Chain.swap`
say what they do to the sequence,
`Chain.congr` is the frame rule: a chain depends only on the `next` fields of its cells but the
last and on the `prev` fields of its cells but the first. -/

namespace Linked

variable {P : Type*} {next prev next' prev' : P → P}

/-- The cells `cs` are linked both ways, in this order. -/
def Chain (next prev : P → P) (cs : List P) : Prop :=
  cs.IsChain (fun p q => next p = q ∧ prev q = p)

namespace Chain

theorem split_iff {l₁ l₂ : List P} {c : P} :
    Chain next prev (l₁ ++ c :: l₂) ↔ Chain next prev (l₁ ++ [c]) ∧ Chain next prev (c :: l₂) :=
  List.isChain_split

theorem cons_cons_iff {p q : P} {cs : List P} :
    Chain next prev (p :: q :: cs) ↔ (next p = q ∧ prev q = p) ∧ Chain next prev (q :: cs) :=
  List.isChain_cons_cons

/-- Two neighbours anywhere in a chain are linked. -/
theorem next_prev {l₁ l₂ : List P} {p q : P} (h : Chain next prev (l₁ ++ p :: q :: l₂)) :
    next p = q ∧ prev q = p :=
  (cons_cons_iff.mp (split_iff.mp h).2).1

/-- Read backwards, a chain is a chain of the swapped maps. -/
theorem reverse_iff {cs : List P} : Chain next prev cs ↔ Chain prev next cs.reverse := by
  unfold Chain
  rw [List.isChain_reverse]
  have e : (fun p q => next p = q ∧ prev q = p) = fun p q => flip (fun p q => prev p = q ∧ next q = p) p q := by
    funext p q
    exact propext and_comm
  rw [e]
  rfl

/-- A chain seen through a map of cells that commutes with the pointers the chain uses. -/
theorem map_inner {Q : Type*} {f : P → Q} {nextQ prevQ : Q → Q} {cs : List P} (h : Chain next prev cs)
    (hn : ∀ p ∈ cs.dropLast, nextQ (f p) = f (next p)) (hp : ∀ p ∈ cs.tail, prevQ (f p) = f (prev p)) :
    Chain nextQ prevQ (cs.map f) := by
  induction cs with
  | nil => exact List.isChain_nil
  | cons p cs ih =>
      cases cs with
      | nil => exact List.isChain_singleton _
      | cons q cs =>
          obtain ⟨⟨h₁, h₂⟩, h⟩ := cons_cons_iff.mp h
          rw [List.dropLast_cons_cons] at hn
          rw [List.map_cons, List.map_cons, cons_cons_iff]
          refine ⟨⟨?_, ?_⟩, ih h ?_ ?_⟩
          · rw [hn p List.mem_cons_self, h₁]
          · rw [hp q List.mem_cons_self, h₂]
          · exact fun y hy => hn y (List.mem_cons_of_mem _ hy)
          · exact fun y hy => hp y (List.mem_cons_of_mem _ hy)

/-- The frame rule: only the fields that the chain itself uses matter. -/
theorem congr {cs : List P} (h : Chain next prev cs) (hn : ∀ y ∈ cs.dropLast, next' y = next y)
    (hp : ∀ y ∈ cs.tail, prev' y = prev y) : Chain next' prev' cs := by
  have hmap := h.map_inner (f := id) hn hp
  rwa [List.map_id] at hmap

/-- A chain seen through a map of cells that commutes with the pointers. -/
theorem map {Q : Type*} {f : P → Q} {nextQ prevQ : Q → Q} {cs : List P} (h : Chain next prev cs)
    (hn : ∀ p ∈ cs, nextQ (f p) = f (next p)) (hp : ∀ p ∈ cs, prevQ (f p) = f (prev p)) :
    Chain nextQ prevQ (cs.map f) :=
  h.map_inner (fun p hmem => hn p (List.dropLast_subset _ hmem)) fun p hmem => hp p (List.mem_of_mem_tail hmem)

end Chain

/-! ### Linking and unlinking a cell -/

section operations
variable [DecidableEq P]

/-- The `next` map after `x` is put between `p` and `q`. -/
def linkNext (next : P → P) (p x q : P) : P → P :=
  Function.update (Function.update next p x) x q

/-- The `prev` map after `x` is put between `p` and `q`. -/
def linkPrev (prev : P → P) (p x q : P) : P → P :=
  Function.update (Function.update prev x p) q x

/-- The `next` map after the neighbours of `x` are joined. -/
def unlinkNext (next prev : P → P) (x : P) : P → P := Function.update next (prev x) (next x)

/-- The `prev` map after the neighbours of `x` are joined. -/
def unlinkPrev (next prev : P → P) (x : P) : P → P := Function.update prev (next x) (prev x)

theorem linkNext_of_ne {p x q y : P} (hp : y ≠ p) (hx : y ≠ x) : linkNext next p x q y = next y := by
  simp [linkNext, hp, hx]

theorem linkPrev_of_ne {p x q y : P} (hq : y ≠ q) (hx : y ≠ x) : linkPrev prev p x q y = prev y := by
  simp [linkPrev, hq, hx]

theorem linkNext_left {p x q : P} (h : p ≠ x) : linkNext next p x q p = x := by
  simp [linkNext, h]

@[simp] theorem linkNext_self {p x q : P} : linkNext next p x q x = q := by simp [linkNext]

@[simp] theorem linkPrev_right {p x q : P} : linkPrev prev p x q q = x := by simp [linkPrev]

theorem linkPrev_self {p x q : P} (h : x ≠ q) : linkPrev prev p x q x = p := by
  simp [linkPrev, h]

namespace Chain

/-- A fresh cell linked between two neighbours joins the chain at this place. -/
theorem link {l₁ l₂ : List P} {p x q : P} (h : Chain next prev (l₁ ++ p :: q :: l₂))
    (hnd : (l₁ ++ p :: x :: q :: l₂).Nodup) :
    Chain (linkNext next p x q) (linkPrev prev p x q) (l₁ ++ p :: x :: q :: l₂) := by
  rw [split_iff, cons_cons_iff] at h
  simp only [List.nodup_append, List.nodup_cons, List.mem_cons, not_or] at hnd
  obtain ⟨-, ⟨⟨hpx, hpq, hp₂⟩, ⟨hxq, hx₂⟩, hq₂, -⟩, h₁⟩ := hnd
  rw [split_iff, cons_cons_iff, cons_cons_iff]
  refine ⟨h.1.congr ?_ ?_, ⟨linkNext_left hpx, linkPrev_self hxq⟩, ⟨linkNext_self, linkPrev_right⟩,
    h.2.2.congr ?_ ?_⟩
  · intro y hy
    rw [List.dropLast_concat] at hy
    exact linkNext_of_ne (h₁ y hy p (by simp)) (h₁ y hy x (by simp))
  · intro y hy
    rcases List.mem_append.mp (List.mem_of_mem_tail hy) with hy | hy
    · exact linkPrev_of_ne (h₁ y hy q (by simp)) (h₁ y hy x (by simp))
    · rw [List.mem_singleton.mp hy]
      exact linkPrev_of_ne hpq hpx
  · intro y hy
    rcases List.mem_cons.mp (List.dropLast_subset _ hy) with rfl | hy
    · exact linkNext_of_ne (Ne.symm hpq) (Ne.symm hxq)
    · exact linkNext_of_ne (ne_of_mem_of_not_mem hy hp₂) (ne_of_mem_of_not_mem hy hx₂)
  · intro y hy
    rw [List.tail_cons] at hy
    exact linkPrev_of_ne (ne_of_mem_of_not_mem hy hq₂) (ne_of_mem_of_not_mem hy hx₂)

/-- A fresh cell linked between two end points makes a chain of one, whatever was there before. -/
theorem link_single {p x q : P} (hnd : [p, x, q].Nodup) :
    Chain (linkNext next p x q) (linkPrev prev p x q) [p, x, q] := by
  simp only [List.nodup_cons, List.mem_cons, not_or] at hnd
  rw [cons_cons_iff, cons_cons_iff]
  exact ⟨⟨linkNext_left hnd.1.1, linkPrev_self hnd.2.1.1⟩, ⟨linkNext_self, linkPrev_right⟩,
    List.isChain_singleton _⟩

/-- Joining the neighbours of a cell takes exactly this cell out of the chain. -/
theorem unlink {l₁ l₂ : List P} {p x q : P} (h : Chain next prev (l₁ ++ p :: x :: q :: l₂))
    (hnd : (l₁ ++ p :: x :: q :: l₂).Nodup) :
    Chain (unlinkNext next prev x) (unlinkPrev next prev x) (l₁ ++ p :: q :: l₂) := by
  rw [split_iff, cons_cons_iff, cons_cons_iff] at h
  simp only [List.nodup_append, List.nodup_cons, List.mem_cons, not_or] at hnd
  obtain ⟨-, ⟨⟨-, hpq, hp₂⟩, -, hq₂, -⟩, h₁⟩ := hnd
  unfold unlinkNext unlinkPrev
  rw [h.2.1.2, h.2.2.1.1, split_iff, cons_cons_iff]
  refine ⟨h.1.congr ?_ ?_, ⟨Function.update_self .., Function.update_self ..⟩, h.2.2.2.congr ?_ ?_⟩
  · intro y hy
    rw [List.dropLast_concat] at hy
    exact Function.update_of_ne (h₁ y hy p (by simp)) _ _
  · intro y hy
    rcases List.mem_append.mp (List.mem_of_mem_tail hy) with hy | hy
    · exact Function.update_of_ne (h₁ y hy q (by simp)) _ _
    · rw [List.mem_singleton.mp hy]
      exact Function.update_of_ne hpq _ _
  · intro y hy
    rcases List.mem_cons.mp (List.dropLast_subset _ hy) with rfl | hy
    · exact Function.update_of_ne (Ne.symm hpq) _ _
    · exact Function.update_of_ne (ne_of_mem_of_not_mem hy hp₂) _ _
  · intro y hy
    rw [List.tail_cons] at hy
    exact Function.update_of_ne (ne_of_mem_of_not_mem hy hq₂) _ _

end Chain
end operations

/-! ### Following the links -/

/-- Follow `step` from `c` for at most `k` cells, as long as the pointer is a cell of the pool
(`cell` names it); the cells met and the pointer at which the walk stops. -/
def follow {N : Type*} (step : P → P) (cell : P → Option N) : ℕ → P → List N × P
  | 0, c => ([], c)
  | k + 1, c =>
    match cell c with
    | none => ([], c)
    | some n => (n :: (follow step cell k (step c)).1, (follow step cell k (step c)).2)

/-- Following `next` from the first end point of a chain meets its cells and stops at the second. -/
theorem Chain.follow_next {N : Type*} {cell : P → Option N} {f : N → P} (hf : ∀ n, cell (f n) = some n)
    {a b : P} (hb : cell b = none) {xs : List N} (h : Chain next prev (a :: (xs.map f ++ [b]))) {k : ℕ}
    (hk : xs.length ≤ k) : follow next cell k (next a) = (xs, b) := by
  induction xs generalizing a k with
  | nil =>
      have hab : next a = b := (cons_cons_iff.mp h).1.1
      cases k with
      | zero => rw [hab]; rfl
      | succ k => rw [hab, follow, hb]
  | cons x xs ih =>
      have hax : next a = f x := (cons_cons_iff.mp h).1.1
      cases k with
      | zero => simp at hk
      | succ k =>
          rw [hax, follow, hf]
          have := ih (cons_cons_iff.mp h).2 (Nat.le_of_succ_le_succ hk)
          simp [this]

/-- Following `prev` from the second end point meets the cells backwards and stops at the first. -/
theorem Chain.follow_prev {N : Type*} {cell : P → Option N} {f : N → P} (hf : ∀ n, cell (f n) = some n)
    {a b : P} (ha : cell a = none) {xs : List N} (h : Chain next prev (a :: (xs.map f ++ [b]))) {k : ℕ}
    (hk : xs.length ≤ k) : follow prev cell k (prev b) = (xs.reverse, a) := by
  have hr : Chain prev next (b :: (xs.reverse.map f ++ [a])) := by
    have := reverse_iff.mp h
    simpa using this
  exact hr.follow_next hf ha (by simpa using hk)

/-! ### Exchanging two cells -/

namespace Chain

/-- A cell that is not the last one stands before the cell its `next` leads to. -/
theorem exists_split {cs : List P} {p : P} (h : Chain next prev cs) (hp : p ∈ cs.dropLast) :
    ∃ l₁ l₂, cs = l₁ ++ p :: next p :: l₂ := by
  induction cs with
  | nil => cases hp
  | cons c cs ih =>
      cases cs with
      | nil => cases hp
      | cons q cs =>
          rw [cons_cons_iff] at h
          rw [List.dropLast_cons_cons] at hp
          rcases List.mem_cons.mp hp with rfl | hp
          · exact ⟨[], cs, by rw [h.1.1]; rfl⟩
          · obtain ⟨l₁, l₂, hs⟩ := ih h.2 hp
            exact ⟨c :: l₁, l₂, by rw [hs]; rfl⟩

/-- The way back from the next cell. -/
theorem prev_next {cs : List P} {p : P} (h : Chain next prev cs) (hp : p ∈ cs.dropLast) : prev (next p) = p := by
  obtain ⟨l₁, l₂, hs⟩ := h.exists_split hp
  rw [hs] at h
  exact h.next_prev.2

/-- The way on from the cell before. -/
theorem next_of_prev {cs : List P} {p : P} (h : Chain next prev cs) (hp : p ∈ cs.tail) : next (prev p) = p := by
  refine (reverse_iff.mp h).prev_next ?_
  rw [List.dropLast_reverse]
  exact List.mem_reverse.mpr hp

theorem next_ne_self {cs : List P} {p : P} (h : Chain next prev cs) (hnd : cs.Nodup) (hp : p ∈ cs.dropLast) :
    next p ≠ p := by
  obtain ⟨l₁, l₂, hs⟩ := h.exists_split hp
  intro he
  rw [hs, he] at hnd
  simp [List.nodup_append] at hnd

end Chain

section exchange
variable [DecidableEq P] {x y : P}

/-- The `next` map after `x` and `y` have changed places. -/
def swapNext (next prev : P → P) (x y : P) : P → P :=
  Function.update (Function.update (Function.update (Function.update next (prev x) y) (prev y) x) x (next y)) y (next x)

/-- The `prev` map after `x` and `y` have changed places. -/
def swapPrev (next prev : P → P) (x y : P) : P → P :=
  Function.update (Function.update (Function.update (Function.update prev x (prev y)) y (prev x)) (next x) y) (next y) x

/-- `x` and `y` are two inner cells, and neither is the next one of the other. -/
structure Apart (next prev : P → P) (x y : P) : Prop where
  ne : x ≠ y
  next_left : next (prev x) = x
  next_right : next (prev y) = y
  prev_left : prev (next x) = x
  prev_right : prev (next y) = y
  next_ne_self : next x ≠ x
  next_ne_self' : next y ≠ y
  next_ne : next x ≠ y
  next_ne' : next y ≠ x

namespace Apart

omit [DecidableEq P] in
/-- The same cells backwards. -/
theorem symm (h : Apart next prev x y) : Apart prev next x y where
  ne := h.ne
  next_left := h.prev_left
  next_right := h.prev_right
  prev_left := h.next_left
  prev_right := h.next_right
  next_ne_self he := h.next_ne_self (by conv_rhs => rw [← h.next_left, he])
  next_ne_self' he := h.next_ne_self' (by conv_rhs => rw [← h.next_right, he])
  next_ne he := h.next_ne' (by rw [← he]; exact h.next_left)
  next_ne' he := h.next_ne (by rw [← he]; exact h.next_right)

omit [DecidableEq P] in
/-- In the other order. -/
theorem comm (h : Apart next prev x y) : Apart next prev y x where
  ne := h.ne.symm
  next_left := h.next_right
  next_right := h.next_left
  prev_left := h.prev_right
  prev_right := h.prev_left
  next_ne_self := h.next_ne_self'
  next_ne_self' := h.next_ne_self
  next_ne := h.next_ne'
  next_ne' := h.next_ne

omit [DecidableEq P] in
theorem prev_ne_prev (h : Apart next prev x y) : prev x ≠ prev y :=
  fun he => h.ne (by rw [← h.next_left, he, h.next_right])

theorem swapNext_comm (h : Apart next prev x y) : swapNext next prev x y = swapNext next prev y x := by
  unfold swapNext
  rw [Function.update_comm h.prev_ne_prev, Function.update_comm h.ne]

/-- Backwards the same cells are exchanged. -/
theorem swapPrev_eq (h : Apart next prev x y) : swapPrev next prev x y = swapNext prev next x y := by
  unfold swapPrev swapNext
  rw [Function.update_comm h.next_ne.symm, Function.update_comm h.next_ne_self.symm,
    Function.update_comm h.next_ne_self'.symm, Function.update_comm h.next_ne'.symm]

theorem swapNext_right : swapNext next prev x y y = next x := Function.update_self ..

theorem swapNext_left (h : Apart next prev x y) : swapNext next prev x y x = next y := by
  rw [h.swapNext_comm]
  exact swapNext_right

theorem swapNext_before (h : Apart next prev x y) : swapNext next prev x y (prev x) = y := by
  simp [swapNext, h.symm.next_ne, h.symm.next_ne_self, h.prev_ne_prev]

theorem swapNext_of_ne {z : P} (hx : z ≠ x) (hy : z ≠ y) (hx' : z ≠ prev x) (hy' : z ≠ prev y) :
    swapNext next prev x y z = next z := by
  simp [swapNext, hx, hy, hx', hy']

/-- The exchange commutes with every pointer that leads to a cell and back. -/
theorem swapNext_swap (h : Apart next prev x y) {p : P} (hp : prev (next p) = p) :
    swapNext next prev x y (Equiv.swap x y p) = Equiv.swap x y (next p) := by
  by_cases hx : p = x
  · rw [hx, Equiv.swap_apply_left, Equiv.swap_apply_of_ne_of_ne h.next_ne_self h.next_ne, swapNext_right]
  by_cases hy : p = y
  · rw [hy, Equiv.swap_apply_right, Equiv.swap_apply_of_ne_of_ne h.next_ne' h.next_ne_self', h.swapNext_left]
  rw [Equiv.swap_apply_of_ne_of_ne hx hy]
  by_cases hx' : p = prev x
  · rw [hx', h.swapNext_before, h.next_left, Equiv.swap_apply_left]
  by_cases hy' : p = prev y
  · rw [hy', h.swapNext_comm, h.comm.swapNext_before, h.next_right, Equiv.swap_apply_right]
  rw [swapNext_of_ne hx hy hx' hy']
  refine (Equiv.swap_apply_of_ne_of_ne ?_ ?_).symm
  · exact fun he => hx' (by rw [← he, hp])
  · exact fun he => hy' (by rw [← he, hp])

theorem swapPrev_left (h : Apart next prev x y) : swapPrev next prev x y x = prev y := by
  rw [h.swapPrev_eq]
  exact h.symm.swapNext_left

theorem swapPrev_right (h : Apart next prev x y) : swapPrev next prev x y y = prev x := by
  rw [h.swapPrev_eq]
  exact swapNext_right

/-- After the exchange the two are apart as before. -/
theorem swapped (h : Apart next prev x y) : Apart (swapNext next prev x y) (swapPrev next prev x y) x y where
  ne := h.ne
  next_left := by rw [h.swapPrev_left, h.swapNext_comm, h.comm.swapNext_before]
  next_right := by rw [h.swapPrev_right, h.swapNext_before]
  prev_left := by rw [h.swapNext_left, h.swapPrev_eq, h.symm.swapNext_comm, h.symm.comm.swapNext_before]
  prev_right := by rw [swapNext_right, h.swapPrev_eq, h.symm.swapNext_before]
  next_ne_self := by rw [h.swapNext_left]; exact h.next_ne'
  next_ne_self' := by rw [swapNext_right]; exact h.next_ne
  next_ne := by rw [h.swapNext_left]; exact h.next_ne_self'
  next_ne' := by rw [swapNext_right]; exact h.next_ne_self

/-- Exchanging them again puts every pointer back. -/
theorem swapNext_twice (h : Apart next prev x y) :
    swapNext (swapNext next prev x y) (swapPrev next prev x y) x y = next := by
  rw [swapNext, h.swapPrev_left, h.swapPrev_right, h.swapNext_left, swapNext_right]
  funext z
  by_cases hzy : z = y
  · rw [hzy, Function.update_self]
  by_cases hzx : z = x
  · rw [hzx, Function.update_of_ne h.ne, Function.update_self]
  rw [Function.update_of_ne hzy, Function.update_of_ne hzx]
  by_cases hzx' : z = prev x
  · rw [hzx', Function.update_self, h.next_left]
  rw [Function.update_of_ne hzx']
  by_cases hzy' : z = prev y
  · rw [hzy', Function.update_self, h.next_right]
  rw [Function.update_of_ne hzy', swapNext_of_ne hzx hzy hzx' hzy']

theorem swapPrev_twice (h : Apart next prev x y) :
    swapPrev (swapNext next prev x y) (swapPrev next prev x y) x y = prev := by
  rw [h.swapped.swapPrev_eq, h.swapPrev_eq, ← h.symm.swapPrev_eq]
  exact h.symm.swapNext_twice

end Apart

omit [DecidableEq P] in
/-- Two inner cells of a chain that are not neighbours. -/
theorem Chain.apart {cs : List P} (hc : Chain next prev cs) (hnd : cs.Nodup) (hx : x ∈ cs.dropLast) (hx' : x ∈ cs.tail)
    (hy : y ∈ cs.dropLast) (hy' : y ∈ cs.tail) (hne : x ≠ y) (hxy : next x ≠ y) (hyx : next y ≠ x) :
    Apart next prev x y where
  ne := hne
  next_left := hc.next_of_prev hx'
  next_right := hc.next_of_prev hy'
  prev_left := hc.prev_next hx
  prev_right := hc.prev_next hy
  next_ne_self := hc.next_ne_self hnd hx
  next_ne_self' := hc.next_ne_self hnd hy
  next_ne := hxy
  next_ne' := hyx

/-- Two cells apart change their places in a chain. -/
theorem Chain.swap {cs : List P} (hc : Chain next prev cs) (h : Apart next prev x y) :
    Chain (swapNext next prev x y) (swapPrev next prev x y) (cs.map (Equiv.swap x y)) := by
  rw [h.swapPrev_eq]
  exact hc.map_inner (fun p hp => h.swapNext_swap (hc.prev_next hp)) fun p hp => h.symm.swapNext_swap (hc.next_of_prev hp)

end exchange

end Linked
