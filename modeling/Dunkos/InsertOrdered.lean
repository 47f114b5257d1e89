import Dunkos.ListSpec
import Dunkos.Lib.Loop

/-! # Ordered insertion (`list_insert_ordered` of `shared/list.c`)

The loop looks for the first element that is not before the new one and has no other test; on an empty list it begins
with the sentinel `tail`, and it may come to `tail`, and to NULL behind it, on any list.  The new element goes behind
the one that was found (`listInsertOrdered_eq`), and the back link of the cell behind it is not written.  So no list
is well formed afterwards: `list_insert_ordered_never`. -/

namespace Dunkos

open Linked Elem Loop

section code
open LinkMem

variable {M L P : Type} [LinkMem M L P]

/-- `ne = pr->next; pr->next = el; el->next = ne; el->prev = pr;`. -/
def insertBehind (m : M) (pr el : P) : M := setPrev (setNext (setNext m pr el) el (next m pr)) el pr

/-- The branch for a list that begins with NULL. -/
def insertFirst (m : M) (li : L) (el : P) : M :=
  let m := setNext m (head M li) el
  let m := setPrev m el (head M li)
  let m := setPrev m (tail M li) el
  setNext m el (tail M li)

/-- `list_insert_ordered`; `none` when the loop does not end within `fuel` rounds. -/
def listInsertOrdered [DecidableEq P] (fuel : ℕ) (m : M) (li : L) (el : P) (cmp : P → P → Bool) : Option M :=
  let pr := listBegin m li
  (if pr ≠ null M then
    (runWhile (fun pr => cmp pr el) (fun pr => some (next m pr)) fuel pr).map fun pr => insertBehind m pr el
  else some (insertFirst m li el)).map fun m => setSize m li (size m li + 1)

end code

variable {L N : Type} [DecidableEq L] [DecidableEq N]

theorem Holds.listBegin_ne_null {m : ListMem L N} {li : L} {xs : List N} (h : Holds m li xs) :
    listBegin m li ≠ LinkMem.null (ListMem L N) := by
  rw [h.listBegin_eq]
  cases xs <;> simp [cellAt]

/-! ### Where the element goes -/

section
variable {m : ListMem L N} {σ : L → List N} {li : L} {cmp : Elem L N → Elem L N → Bool} {n y : N} {xs ys : List N}

/-- The loop comes to the first element that is not before the new one. -/
theorem search_eq (h : Represents m σ) {done : List N} (hσ : σ li = done ++ (xs ++ y :: ys))
    (hxs : ∀ x ∈ xs, cmp (node x) (node n) = true) (hy : cmp (node y) (node n) = false) {fuel : ℕ}
    (hf : xs.length ≤ fuel) : runWhile (fun pr => cmp pr (node n)) (fun pr => some (m.next pr)) fuel
      (cellAt li (xs ++ y :: ys)) = some (node y) := by
  induction xs generalizing done fuel with
  | nil => exact @runWhile_of_stop _ (fun pr => cmp pr (node n)) _ (node y) hy fuel
  | cons x xs ih =>
      obtain ⟨fuel, rfl⟩ : ∃ f, fuel = f + 1 := ⟨fuel - 1, by rw [List.length_cons] at hf; omega⟩
      rw [List.length_cons, Nat.add_le_add_iff_right] at hf
      have hnext : m.next (node x) = cellAt li (xs ++ y :: ys) := h.listNext_eq hσ
      have hround := @runWhile_of_go _ (fun pr => cmp pr (node n)) (fun pr => some (m.next pr)) (node x)
        (hxs x List.mem_cons_self) (cellAt li (xs ++ y :: ys)) (congrArg some hnext) fuel
      have hσ' : σ li = (done ++ [x]) ++ (xs ++ y :: ys) := by
        rw [hσ]
        simp
      exact hround.trans (ih hσ' (fun x' hx' => hxs x' (List.mem_cons_of_mem _ hx')) hf)

theorem listInsertOrdered_run (h : Represents m σ) (hσ : σ li = xs ++ y :: ys)
    (hxs : ∀ x ∈ xs, cmp (node x) (node n) = true) (hy : cmp (node y) (node n) = false) {fuel : ℕ}
    (hf : xs.length ≤ fuel) : listInsertOrdered fuel m li (node n) cmp =
      some ((insertBehind m (node y) (node n)).setSize li (m.size li + 1)) := by
  have hbegin := h.listBegin_eq li
  have hloop := search_eq h (hσ.trans (List.nil_append _).symm) hxs hy hf
  unfold listInsertOrdered
  dsimp only
  rw [if_pos (h.holds li).listBegin_ne_null, hbegin, hσ]
  exact congrArg _ (congrArg _ hloop)

omit [DecidableEq L] [DecidableEq N] in
theorem nodup_insertBehind (h : (xs ++ y :: ys).Nodup) (hn : n ∉ xs ++ y :: ys) : (xs ++ y :: n :: ys).Nodup := by
  have hperm : (xs ++ y :: n :: ys).Perm (n :: (xs ++ y :: ys)) := by
    rw [List.append_cons, List.append_cons xs y ys]
    exact List.perm_middle
  exact hperm.nodup_iff.mpr (List.nodup_cons.mpr ⟨hn, h⟩)

/-- The links forwards are those of the longer list. -/
theorem insertBehind_chain (h : Holds m li (xs ++ y :: ys)) (hn : n ∉ xs ++ y :: ys) :
    ∃ prev, Chain (insertBehind m (node y) (node n)).next prev (cells li (xs ++ y :: n :: ys)) := by
  obtain ⟨q, l₂, hq⟩ := List.exists_cons_of_ne_nil (l := ys.map node ++ [tail li]) (by simp)
  have hold : cells li (xs ++ y :: ys) = (head li :: xs.map node) ++ node y :: q :: l₂ := by
    rw [← hq]
    simp [cells]
  have hnew : cells li (xs ++ y :: n :: ys) = (head li :: xs.map node) ++ node y :: node n :: q :: l₂ := by
    rw [← hq]
    simp [cells]
  have hc := h.chain (by simp)
  have hcells := cells_nodup li (nodup_insertBehind h.nodup hn)
  rw [hold] at hc
  rw [hnew] at hcells
  have hnext : (insertBehind m (node y) (node n)).next = linkNext m.next (node y) (node n) q := by
    show Function.update (Function.update m.next _ _) _ (m.next (node y)) = _
    rw [hc.next_prev.1]
    rfl
  rw [hnew, hnext]
  exact ⟨_, hc.link hcells⟩

/-- **The element is put behind the first one that is not before it**, and so it reads forwards. -/
theorem listInsertOrdered_eq (h : Represents m σ) (hσ : σ li = xs ++ y :: ys)
    (hxs : ∀ x ∈ xs, cmp (node x) (node n) = true) (hy : cmp (node y) (node n) = false) (hn : ∀ l, n ∉ σ l) {fuel : ℕ}
    (hf : xs.length ≤ fuel) : ∃ m', listInsertOrdered fuel m li (node n) cmp = some m' ∧
      forward m' li = (xs ++ y :: n :: ys, listEnd m' li) := by
  refine ⟨_, listInsertOrdered_run h hσ hxs hy hf, ?_⟩
  have hli := h.holds li
  rw [hσ] at hli
  obtain ⟨prev, hc⟩ := insertBehind_chain hli (hσ ▸ hn li)
  have hsize : m.size li + 1 = (xs ++ y :: n :: ys).length := by
    rw [hli.size, List.length_append, List.length_append]
    rfl
  have hwalk := hc.follow_next node?_node (node?_tail li) hsize.ge
  unfold forward listBegin
  rw [if_neg]
  · show follow _ _ (Function.update m.size li (m.size li + 1) li) _ = _
    rw [Function.update_self]
    exact hwalk
  · have hpos : (Function.update m.size li (m.size li + 1) li == 0) = false := by
      rw [Function.update_self]
      rfl
    exact fun he => Bool.false_ne_true (hpos.symm.trans he)

end

/-! ### The back link -/

omit [DecidableEq L] [DecidableEq N] in
theorem Elem.eq_node {c : Elem L N} {n : N} (h : c.node? = some n) : c = node n := by
  cases c with
  | node x => exact congrArg node (Option.some.inj h)
  | _ => cases h

omit [DecidableEq L] [DecidableEq N] in
/-- What a walk meets is where it begins, or a step leads to it from what it met just before. -/
theorem mem_follow {step : Elem L N → Elem L N} {n : N} {k : ℕ} {c : Elem L N}
    (h : n ∈ (follow step Elem.node? k c).1) : c = node n ∨ ∃ l₁ x l₂,
      (follow step Elem.node? k c).1 = l₁ ++ x :: n :: l₂ ∧ step (node x) = node n := by
  induction k generalizing c with
  | zero => cases h
  | succ k ih =>
      rw [follow] at h ⊢
      cases hc : c.node? with
      | none =>
          rw [hc] at h
          cases h
      | some x =>
          rw [hc] at h
          obtain rfl := Elem.eq_node hc
          rcases List.mem_cons.mp h with rfl | h
          · exact .inl rfl
          · rcases ih h with hx | ⟨l₁, z, l₂, hz, hstep⟩
            · obtain ⟨l₂, hl₂⟩ : ∃ l₂, (follow step Elem.node? k (step (node x))).1 = n :: l₂ := by
                rw [hx] at h ⊢
                cases k with
                | zero => cases h
                | succ k => exact ⟨_, rfl⟩
              exact .inr ⟨[], x, l₂, congrArg (x :: ·) hl₂, hx⟩
            · exact .inr ⟨x :: l₁, z, l₂, congrArg (x :: ·) hz, hstep⟩

/-- A list reads both ways as the old elements with the new one, and none precedes one that is before it. -/
def InsertedInto (m' : ListMem L N) (li : L) (xs : List N) (n : N) (cmp : Elem L N → Elem L N → Bool) : Prop :=
  ∃ ys, Reads m' li ys ∧ ys.Perm (n :: xs) ∧ ys.Pairwise fun a b => cmp (node b) (node a) = false

section
variable {m m' : ListMem L N} {li : L} {xs : List N} {n : N}

omit [DecidableEq L] [DecidableEq N] in
/-- In a list of other elements no back link leads to the element. -/
theorem Holds.prev_ne (h : Holds m li xs) (hn : n ∉ xs) {c : Elem L N} (hc : c = tail li ∨ ∃ x ∈ xs, c = node x) :
    m.prev c ≠ node n := by
  have hmem : c ∈ (cells li xs).tail := by
    show c ∈ xs.map node ++ [tail li]
    rw [List.mem_append, List.mem_map, List.mem_singleton]
    rcases hc with hc | ⟨x, hx, hc⟩
    · exact .inr hc
    · exact .inl ⟨x, hx, hc.symm⟩
  rcases h.links with hl | ⟨rfl, -, hp⟩
  · -- the cell before one of the list is one of the list
    obtain ⟨l₁, l₂, hsplit⟩ := List.append_of_mem hmem
    have hcells : cells li xs = (head li :: l₁) ++ c :: l₂ := by
      rw [List.cons_append, ← hsplit]
      rfl
    obtain ⟨l, p, hp⟩ := (List.eq_nil_or_concat (head li :: l₁)).resolve_left (List.cons_ne_nil _ _)
    rw [hcells, hp, List.concat_eq_append, List.append_assoc] at hl
    intro he
    apply hn
    rw [← node_mem_cells (n := n), ← he, hl.next_prev.2, hcells, hp]
    simp
  · rcases hc with rfl | ⟨x, hx, -⟩
    · rw [hp]
      simp
    · cases hx

/-- Where no back link but that of the element itself is written, no list with the element reads both ways. -/
theorem not_insertedInto (h : Holds m li xs) (hn : n ∉ xs) (hprev : ∀ c, c ≠ node n → m'.prev c = m.prev c)
    (cmp : Elem L N → Elem L N → Bool) : ¬ InsertedInto m' li xs n cmp := by
  rintro ⟨ys, hr, hperm, -⟩
  have hin : n ∈ (backward m' li).1 := by
    rw [hr.prev_walk, List.mem_reverse, hperm.mem_iff]
    exact List.mem_cons_self
  rcases mem_follow hin with hstart | ⟨l₁, x, l₂, hsplit, hstep⟩
  · rw [hprev _ (by simp)] at hstart
    exact h.prev_ne hn (.inl rfl) hstart
  · have hwalk : (backward m' li).1 = l₁ ++ x :: n :: l₂ := hsplit
    rw [hr.prev_walk] at hwalk
    have hnd : (l₁ ++ x :: n :: l₂).Nodup := hwalk ▸ List.nodup_reverse.mpr hr.nodup
    have hne : x ≠ n := by
      rintro rfl
      simp [List.nodup_append] at hnd
    have hx : x ∈ n :: xs := by
      rw [← hperm.mem_iff, ← List.mem_reverse, hwalk]
      simp
    rw [hprev _ fun he => hne (Elem.node.inj he)] at hstep
    exact h.prev_ne hn (.inr ⟨x, (List.mem_cons.mp hx).resolve_left hne, rfl⟩) hstep

/-- **`list_insert_ordered` never leaves a well-formed list behind**: whatever the order, the list and the place, it
does not end, or the cell behind the new element has its old back link. -/
theorem list_insert_ordered_never (h : Holds m li xs) (hn : n ∉ xs) (cmp : Elem L N → Elem L N → Bool) :
    ¬ ∃ fuel m', listInsertOrdered fuel m li (node n) cmp = some m' ∧ InsertedInto m' li xs n cmp := by
  rintro ⟨fuel, m', hrun, hins⟩
  unfold listInsertOrdered at hrun
  dsimp only at hrun
  rw [if_pos h.listBegin_ne_null, Option.map_map, Option.map_eq_some_iff] at hrun
  obtain ⟨pr, -, rfl⟩ := hrun
  refine not_insertedInto h hn (fun c hc => ?_) cmp hins
  exact Function.update_of_ne hc _ _

end

/-- The list `1, 5`. -/
def oneFive : ListMem Unit ℕ :=
  listPushBack (listPushBack (listInit ⟨fun _ => null, fun _ => null, fun _ => 0⟩ ()) () (node 1)) () (node 5)

/-- Nodes in the order of their numbers, and no sentinel before another cell. -/
def nodeBefore : Elem Unit ℕ → Elem Unit ℕ → Bool
  | node a, node b => decide (a < b)
  | _, _ => false

theorem oneFive_holds : Holds oneFive () [1, 5] := by
  have h₀ : Represents (listInit (⟨fun _ => null, fun _ => null, fun _ => 0⟩ : ListMem Unit ℕ) ()) fun _ => [] :=
    .of_fresh fun _ => .inl (listInit_initialised _ _)
  have h₁ := h₀.pushBack () (n := 1) fun _ => List.not_mem_nil
  have h₂ := h₁.pushBack () (n := 5) (by intro li; cases li; decide)
  exact h₂.holds ()

theorem oneFive_represents : Represents oneFive fun _ => [1, 5] := by
  refine ⟨fun _ => oneFive_holds, ?_⟩
  intro l l' hne
  exact absurd rfl hne

theorem list_insert_ordered_never_one : ¬ ∃ fuel m', listInsertOrdered fuel oneFive () (node 3) nodeBefore = some m' ∧
    InsertedInto m' () [1, 5] 3 nodeBefore :=
  list_insert_ordered_never oneFive_holds (by decide) nodeBefore

/-- **3 into 1, 5**: it comes last, and is not there on the way back. -/
theorem list_insert_ordered_last : ∃ m', listInsertOrdered 1 oneFive () (node 3) nodeBefore = some m' ∧
    forward m' () = ([1, 5, 3], listEnd m' ()) ∧ (backward m' ()).1 = [5, 1] := by
  refine ⟨_, rfl, ?_, ?_⟩ <;> decide

end Dunkos
