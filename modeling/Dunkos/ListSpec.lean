import Dunkos.IntrusiveList
import Dunkos.Lib.Reach

/-! # The intrusive list refines a sequence

`Represents m σ` relates the pointer memory to a family of mathematical sequences.  One lemma per
operation of `list.c` says which sequence it leaves behind (`Represents.pushBack`,
`Represents.pushFront`, `Represents.popBack`, `Represents.popFront`, `Represents.remove`); the other
lists of the family are unchanged in each of them.  `list_refines_sequence` puts them together: over
any run of list operations, the two traversals, the size, the ends and the returned pointers are
those of the sequences. -/

namespace Dunkos

open Linked Elem

variable {L N : Type} [DecidableEq L] [DecidableEq N]

/-! ### The fields after an operation -/

/-- The cell before the end point: `&li->head` on an empty list, `tl->prev` otherwise. -/
def lastCell (m : ListMem L N) (li : L) : Elem L N :=
  if listEmpty m li then head li else m.prev (tail li)

/-- The cell after the start point: `&li->tail` on an empty list, `he->next` otherwise. -/
def firstCell (m : ListMem L N) (li : L) : Elem L N :=
  if listEmpty m li then tail li else m.next (head li)

theorem listPushBack_eq (m : ListMem L N) (li : L) (el : Elem L N) :
    listPushBack m li el =
      ⟨linkPrev m.prev (lastCell m li) el (tail li), linkNext m.next (lastCell m li) el (tail li),
        Function.update m.size li (m.size li + 1)⟩ := by
  unfold listPushBack lastCell
  split_ifs <;> rfl

theorem listPushFront_eq (m : ListMem L N) (li : L) (el : Elem L N) (h : el ≠ firstCell m li)
    (h' : el ≠ head li) :
    listPushFront m li el =
      ⟨linkPrev m.prev (head li) el (firstCell m li), linkNext m.next (head li) el (firstCell m li),
        Function.update m.size li (m.size li + 1)⟩ := by
  unfold listPushFront firstCell at *
  split_ifs at h ⊢ <;>
    simp [ListMem.setPrev, ListMem.setNext, ListMem.setSize, linkPrev, linkNext,
      Function.update_comm h, Function.update_comm h']

theorem unlink_eq (m : ListMem L N) (li : L) (el : Elem L N) :
    unlink m li el =
      ⟨unlinkPrev m.next m.prev el, unlinkNext m.next m.prev el,
        Function.update m.size li (m.size li - 1)⟩ := rfl

/-! ### Cells -/

omit [DecidableEq L] [DecidableEq N] in
theorem cells_nodup (li : L) {xs : List N} (h : xs.Nodup) : (cells li xs).Nodup := by
  unfold cells
  rw [List.nodup_cons, List.nodup_append]
  refine ⟨by simp, h.map (fun a b e => Elem.node.inj e), by simp, by simp⟩

omit [DecidableEq L] [DecidableEq N] in
@[simp] theorem node_mem_cells {li : L} {xs : List N} {n : N} : node n ∈ cells li xs ↔ n ∈ xs := by
  simp [cells]

omit [DecidableEq L] [DecidableEq N] in
/-- Two lists without a common node have no common cell. -/
theorem not_mem_cells {li li' : L} (hne : li ≠ li') {xs ys : List N} (hd : ∀ n ∈ xs, n ∉ ys)
    {y : Elem L N} (hy : y ∈ cells li xs) : y ∉ cells li' ys := by
  cases y with
  | null => simp [cells] at hy
  | head l =>
      simp only [cells, List.mem_cons, head.injEq, List.mem_append, List.mem_map, reduceCtorEq, and_false,
        exists_false, List.not_mem_nil, or_false] at hy ⊢
      rwa [hy]
  | tail l =>
      simp only [cells, List.mem_cons, reduceCtorEq, List.mem_append, List.mem_map, and_false,
        exists_false, tail.injEq, List.not_mem_nil, or_false, false_or] at hy ⊢
      rwa [hy]
  | node n =>
      rw [node_mem_cells] at hy ⊢
      exact hd n hy

omit [DecidableEq L] [DecidableEq N] in
theorem Holds.chain {m : ListMem L N} {li : L} {xs : List N} (h : Holds m li xs) (hne : xs ≠ []) :
    Chain m.next m.prev (cells li xs) :=
  h.links.resolve_right (fun e => hne e.1)

theorem Holds.listEmpty_iff {m : ListMem L N} {li : L} {xs : List N} (h : Holds m li xs) :
    listEmpty m li = true ↔ xs = [] := by
  simp [listEmpty, listSize, h.size]

omit [DecidableEq L] [DecidableEq N] in
/-- A list depends on its size and on the links of its own cells only. -/
theorem Holds.congr {m m' : ListMem L N} {li : L} {xs : List N} (h : Holds m li xs)
    (hs : m'.size li = m.size li) (hl : ∀ y ∈ cells li xs, m'.next y = m.next y ∧ m'.prev y = m.prev y) :
    Holds m' li xs := by
  refine ⟨hs.trans h.size, h.nodup, ?_⟩
  rcases h.links with hc | ⟨rfl, hn, hp⟩
  · exact .inl (hc.congr (fun y hy => (hl y (List.dropLast_subset _ hy)).1)
      (fun y hy => (hl y (List.mem_of_mem_tail hy)).2))
  · exact .inr ⟨rfl, by rw [(hl _ (by simp [cells])).1, hn], by rw [(hl _ (by simp [cells])).2, hp]⟩

omit [DecidableEq L] [DecidableEq N] in
/-- Memory that agrees on all cells of all lists represents the same sequences. -/
theorem Represents.congr {m m' : ListMem L N} {σ : L → List N} (h : Represents m σ)
    (hs : ∀ li, m'.size li = m.size li)
    (hl : ∀ li, ∀ y ∈ cells li (σ li), m'.next y = m.next y ∧ m'.prev y = m.prev y) : Represents m' σ :=
  ⟨fun li => (h.holds li).congr (hs li) (hl li), h.disjoint⟩

omit [DecidableEq N] in
/-- **The frame of a list operation.**  An operation that leaves `xs` on the list `li`, writes to
cells of this list and to the nodes it adds only, and adds no node of another list. -/
theorem Represents.replace {m m' : ListMem L N} {σ : L → List N} (h : Represents m σ) {li : L}
    {xs : List N} (hli : Holds m' li xs) (hs : ∀ li' ≠ li, m'.size li' = m.size li')
    (hl : ∀ y, y ∉ cells li (σ li) → y ∉ cells li xs → m'.next y = m.next y ∧ m'.prev y = m.prev y)
    (hx : ∀ n ∈ xs, n ∈ σ li ∨ ∀ li', n ∉ σ li') :
    Represents m' (Function.update σ li xs) := by
  have hd : ∀ li' ≠ li, ∀ n ∈ xs, n ∉ σ li' := by
    intro li' hne n hn
    rcases hx n hn with hn | hn
    · exact h.disjoint li li' hne.symm n hn
    · exact hn li'
  constructor
  · intro li'
    by_cases hne : li' = li
    · subst hne
      rw [Function.update_self]
      exact hli
    · rw [Function.update_of_ne hne]
      refine (h.holds li').congr (hs li' hne) (fun y hy => hl y ?_ ?_)
      · exact not_mem_cells hne (h.disjoint li' li hne) hy
      · exact not_mem_cells hne (fun n hn hn' => hd li' hne n hn' hn) hy
  · intro l l' hne n hn
    by_cases h₁ : l = li
    · subst h₁
      rw [Function.update_self] at hn
      rw [Function.update_of_ne (Ne.symm hne)]
      exact hd l' (Ne.symm hne) n hn
    · rw [Function.update_of_ne h₁] at hn
      by_cases h₂ : l' = li
      · subst h₂
        rw [Function.update_self]
        exact fun hn' => hd l hne n hn' hn
      · rw [Function.update_of_ne h₂]
        exact h.disjoint l l' hne n hn

/-! ### Where a cell is put in or taken out -/

section
omit [DecidableEq L] [DecidableEq N]

/-- Around a node of the list stand a cell before it and a cell after it. -/
theorem cells_around (li : L) (xs ys : List N) (n : N) : ∃ l₁ p q l₂,
    cells li (xs ++ n :: ys) = l₁ ++ p :: node n :: q :: l₂ ∧
      cells li (xs ++ ys) = l₁ ++ p :: q :: l₂ := by
  obtain ⟨l₁, p, h₁⟩ := (List.eq_nil_or_concat (head li :: xs.map node)).resolve_left (by simp)
  obtain ⟨q, l₂, h₂⟩ := List.exists_cons_of_ne_nil (l := ys.map node ++ [tail li]) (by simp)
  refine ⟨l₁, p, q, l₂, ?_, ?_⟩
  · have : cells li (xs ++ n :: ys) = (head li :: xs.map node) ++ node n :: (ys.map node ++ [tail li]) := by
      simp [cells]
    rw [this, h₁, h₂]
    simp
  · have : cells li (xs ++ ys) = (head li :: xs.map node) ++ (ys.map node ++ [tail li]) := by simp [cells]
    rw [this, h₁, h₂]
    simp

end

/-! ### One lemma per operation -/

namespace Represents
variable {m : ListMem L N} {σ : L → List N}

theorem lastCell_eq (h : Represents m σ) (li : L) (n : N) : ∃ l₁,
    cells li (σ li) = l₁ ++ lastCell m li :: tail li :: [] ∧
      cells li (σ li ++ [n]) = l₁ ++ lastCell m li :: node n :: tail li :: [] := by
  unfold lastCell
  by_cases he : σ li = []
  · rw [if_pos ((h.holds li).listEmpty_iff.mpr he), he]
    exact ⟨[], rfl, rfl⟩
  · rw [if_neg (fun e => he ((h.holds li).listEmpty_iff.mp e))]
    obtain ⟨xs, x, hx⟩ := (List.eq_nil_or_concat (σ li)).resolve_left he
    have hc := (h.holds li).chain he
    rw [List.concat_eq_append] at hx
    have e : cells li (xs ++ [x]) = (head li :: xs.map node) ++ node x :: tail li :: [] := by simp [cells]
    rw [hx, e] at hc ⊢
    rw [hc.next_prev.2]
    exact ⟨_, rfl, by simp [cells]⟩

theorem firstCell_eq (h : Represents m σ) (li : L) (n : N) : ∃ l₂,
    cells li (σ li) = head li :: firstCell m li :: l₂ ∧
      cells li (n :: σ li) = head li :: node n :: firstCell m li :: l₂ := by
  unfold firstCell
  by_cases he : σ li = []
  · rw [if_pos ((h.holds li).listEmpty_iff.mpr he), he]
    exact ⟨[], rfl, rfl⟩
  · rw [if_neg (fun e => he ((h.holds li).listEmpty_iff.mp e))]
    obtain ⟨x, xs, hx⟩ := List.exists_cons_of_ne_nil he
    have hc := (h.holds li).chain he
    rw [hx] at hc ⊢
    rw [(Chain.cons_cons_iff.mp hc).1.1]
    exact ⟨_, rfl, rfl⟩

/-- `list_push_back` of a node that is on no list appends it. -/
theorem pushBack (h : Represents m σ) (li : L) {n : N} (hn : ∀ li', n ∉ σ li') :
    Represents (listPushBack m li (node n)) (Function.update σ li (σ li ++ [n])) := by
  obtain ⟨l₁, h₀, h₁⟩ := h.lastCell_eq li n
  have hnd : (σ li ++ [n]).Nodup := by
    rw [List.nodup_append]
    refine ⟨(h.holds li).nodup, by simp, ?_⟩
    intro a ha b hb e
    rw [List.mem_singleton] at hb
    exact hn li (hb ▸ e ▸ ha)
  rw [listPushBack_eq]
  refine h.replace ⟨?_, hnd, .inl ?_⟩ ?_ ?_ ?_
  · simp [(h.holds li).size]
  · have hc := cells_nodup li hnd
    rw [h₁] at hc ⊢
    rcases (h.holds li).links with hl | ⟨he, -⟩
    · rw [h₀] at hl
      exact hl.link hc
    · have hp : l₁ = [] := by
        rw [he] at h₀
        have := congrArg List.length h₀
        simp [cells] at this
        exact this
      subst hp
      exact Chain.link_single hc
  · intro li' hne
    exact Function.update_of_ne hne _ _
  · intro y _ hy
    rw [h₁] at hy
    simp only [List.mem_append, List.mem_cons, List.not_mem_nil, or_false, not_or] at hy
    exact ⟨linkNext_of_ne hy.2.1 hy.2.2.1, linkPrev_of_ne hy.2.2.2 hy.2.2.1⟩
  · intro x hx
    rcases List.mem_append.mp hx with hx | hx
    · exact .inl hx
    · exact .inr (List.mem_singleton.mp hx ▸ hn)

/-- `list_push_front` of a node that is on no list puts it first. -/
theorem pushFront (h : Represents m σ) (li : L) {n : N} (hn : ∀ li', n ∉ σ li') :
    Represents (listPushFront m li (node n)) (Function.update σ li (n :: σ li)) := by
  obtain ⟨l₂, h₀, h₁⟩ := h.firstCell_eq li n
  have hnd : (n :: σ li).Nodup := List.nodup_cons.mpr ⟨hn li, (h.holds li).nodup⟩
  have hc := cells_nodup li hnd
  rw [h₁] at hc
  have hf : node n ≠ firstCell m li := by
    simp only [List.nodup_cons, List.mem_cons, not_or] at hc
    exact hc.2.1.1
  rw [listPushFront_eq m li (node n) hf (by simp)]
  refine h.replace ⟨?_, hnd, .inl ?_⟩ ?_ ?_ ?_
  · simp [(h.holds li).size]
  · rw [h₁]
    rcases (h.holds li).links with hl | ⟨he, -⟩
    · rw [h₀] at hl
      rw [← List.nil_append (head li :: _)] at hl hc
      exact hl.link hc
    · have hp : l₂ = [] := by
        rw [he] at h₀
        have := congrArg List.length h₀
        simp [cells] at this
        exact this
      subst hp
      exact Chain.link_single hc
  · intro li' hne
    exact Function.update_of_ne hne _ _
  · intro y _ hy
    rw [h₁] at hy
    simp only [List.mem_cons, not_or] at hy
    exact ⟨linkNext_of_ne hy.1 hy.2.1, linkPrev_of_ne hy.2.2.1 hy.2.1⟩
  · intro x hx
    rcases List.mem_cons.mp hx with rfl | hx
    · exact .inr hn
    · exact .inl hx

omit [DecidableEq L] [DecidableEq N] in
/-- The pointers of a node of a list lead to cells of the list. -/
theorem neighbours (h : Represents m σ) {li : L} {n : N} (hn : n ∈ σ li) :
    m.prev (node n) ∈ cells li (σ li) ∧ m.next (node n) ∈ cells li (σ li) := by
  obtain ⟨xs, ys, hx⟩ := List.append_of_mem hn
  obtain ⟨l₁, p, q, l₂, h₀, -⟩ := cells_around li xs ys n
  have hl := (h.holds li).chain (List.ne_nil_of_mem hn)
  rw [hx, h₀] at hl ⊢
  rw [hl.next_prev.2]
  rw [← List.singleton_append, ← List.append_assoc] at hl
  rw [hl.next_prev.1]
  simp

/-- Unlinking a node of a list takes it out of the sequence. -/
theorem unlinkNode (h : Represents m σ) {li : L} {xs ys : List N} {n : N} (hx : σ li = xs ++ n :: ys) :
    Represents (unlink m li (node n)) (Function.update σ li (xs ++ ys)) := by
  obtain ⟨l₁, p, q, l₂, h₀, h₁⟩ := cells_around li xs ys n
  have hli := h.holds li
  rw [hx] at hli
  have hnd : (xs ++ ys).Nodup := hli.nodup.sublist (by simp)
  have hl := hli.chain (by simp)
  rw [unlink_eq]
  have hc := cells_nodup li hli.nodup
  rw [h₀] at hl hc
  have hpn : m.prev (node n) = p := hl.next_prev.2
  have hnq : m.next (node n) = q := by
    rw [← List.singleton_append, ← List.append_assoc] at hl
    exact hl.next_prev.1
  refine h.replace ⟨?_, hnd, .inl ?_⟩ ?_ ?_ ?_
  · simp [hli.size]
  · rw [h₁]
    exact hl.unlink hc
  · intro li' hne
    exact Function.update_of_ne hne _ _
  · intro y hy _
    rw [hx, h₀] at hy
    simp only [List.mem_append, List.mem_cons, not_or] at hy
    unfold unlinkNext unlinkPrev
    rw [hpn, hnq]
    exact ⟨Function.update_of_ne hy.2.1 _ _, Function.update_of_ne hy.2.2.2.1 _ _⟩
  · intro x hx'
    rw [hx]
    exact .inl (by simpa [or_assoc, or_left_comm] using Or.inr (List.mem_append.mp hx'))

/-- On an empty list `list_pop_front` returns `NULL` and changes nothing. -/
theorem popFront_nil (h : Represents m σ) {li : L} (hx : σ li = []) : listPopFront m li = (m, null) := by
  unfold listPopFront
  rw [if_pos ((h.holds li).listEmpty_iff.mpr hx), ListMem.null_eq]

theorem popBack_nil (h : Represents m σ) {li : L} (hx : σ li = []) : listPopBack m li = (m, null) := by
  unfold listPopBack
  rw [if_pos ((h.holds li).listEmpty_iff.mpr hx), ListMem.null_eq]

/-- Otherwise it unlinks and returns the first node. -/
theorem popFront_cons (h : Represents m σ) {li : L} {n : N} {xs : List N} (hx : σ li = n :: xs) :
    listPopFront m li = (unlink m li (node n), node n) := by
  have hl := (h.holds li).chain (by simp [hx])
  rw [hx] at hl
  have he : listEmpty m li = false := by
    rw [Bool.eq_false_iff, ne_eq, (h.holds li).listEmpty_iff, hx]
    simp
  have hb : listBegin m li = node n := by
    unfold listBegin
    rw [if_neg (by simp [he])]
    exact (Chain.cons_cons_iff.mp hl).1.1
  unfold listPopFront
  rw [if_neg (by simp [he]), hb]

theorem popBack_concat (h : Represents m σ) {li : L} {n : N} {xs : List N} (hx : σ li = xs ++ [n]) :
    listPopBack m li = (unlink m li (node n), node n) := by
  have hl := (h.holds li).chain (by simp [hx])
  have e : cells li (xs ++ [n]) = (head li :: xs.map node) ++ node n :: tail li :: [] := by simp [cells]
  rw [hx, e] at hl
  have he : listEmpty m li = false := by
    rw [Bool.eq_false_iff, ne_eq, (h.holds li).listEmpty_iff, hx]
    simp
  unfold listPopBack listEnd
  rw [if_neg (by simp [he]), ListMem.prev_eq, ListMem.tail_eq, hl.next_prev.2]

theorem popFront (h : Represents m σ) (li : L) :
    Represents (listPopFront m li).1 (Function.update σ li (σ li).tail) := by
  cases hx : σ li with
  | nil =>
      rw [h.popFront_nil hx, List.tail_nil, ← hx, Function.update_eq_self]
      exact h
  | cons n xs =>
      rw [h.popFront_cons hx, List.tail_cons]
      rw [← List.nil_append (n :: xs)] at hx
      exact h.unlinkNode hx

theorem popBack (h : Represents m σ) (li : L) :
    Represents (listPopBack m li).1 (Function.update σ li (σ li).dropLast) := by
  rcases List.eq_nil_or_concat (σ li) with hx | ⟨xs, n, hx⟩
  · rw [h.popBack_nil hx, hx, List.dropLast_nil, ← hx, Function.update_eq_self]
    exact h
  · rw [List.concat_eq_append] at hx
    rw [h.popBack_concat hx, hx, List.dropLast_concat]
    have := h.unlinkNode hx
    rwa [List.append_nil] at this

/-- `list_remove` of a member takes it out. -/
theorem remove (h : Represents m σ) {li : L} {n : N} (hn : n ∈ σ li) :
    Represents (listRemove m li (node n)) (Function.update σ li ((σ li).erase n)) := by
  obtain ⟨xs, ys, hnx, hx, he⟩ := List.exists_erase_eq hn
  have hne : listEmpty m li = false := by
    rw [Bool.eq_false_iff, ne_eq, (h.holds li).listEmpty_iff, hx]
    simp
  unfold listRemove
  rw [if_neg (by simp [hne]), he]
  exact h.unlinkNode hx

end Represents

/-! ### Reading a list -/

/-- What the reading functions and both traversals of a list return when it holds `xs`. -/
structure Reads (m : ListMem L N) (li : L) (xs : List N) : Prop where
  next_walk : forward m li = (xs, listEnd m li)
  prev_walk : (backward m li).1 = xs.reverse
  prev_walk_end : (backward m li).2 = head li ∨ (xs = [] ∧ (backward m li).2 = null)
  nodup : xs.Nodup
  size : listSize m li = xs.length
  front : listFront m li = (xs.head?.map node).getD null
  back : listBack m li = (xs.getLast?.map node).getD null

/-- A list that holds `xs` reads as `xs`, both ways. -/
theorem Holds.reads {m : ListMem L N} {li : L} {xs : List N} (h : Holds m li xs) : Reads m li xs := by
  by_cases hx : xs = []
  · subst hx
    have he : listEmpty m li = true := h.listEmpty_iff.mpr rfl
    have hs : m.size li = 0 := h.size
    have hb : backward m li = ([], m.prev (tail li)) := by
      unfold backward
      rw [hs]
      rfl
    refine ⟨?_, by rw [hb]; rfl, ?_, h.nodup, h.size, by simp [listFront, he], by simp [listBack, he]⟩
    · unfold forward listBegin
      rw [hs, if_pos he]
      rfl
    · rw [hb]
      rcases h.links with hl | ⟨-, -, hp⟩
      · exact .inl (Chain.cons_cons_iff.mp hl).1.2
      · exact .inr ⟨rfl, hp⟩
  · have hl := h.chain hx
    have he : ¬ listEmpty m li = true := fun e => hx (h.listEmpty_iff.mp e)
    have hb : backward m li = (xs.reverse, head li) := hl.follow_prev node?_node (node?_head li) h.size.ge
    refine ⟨?_, by rw [hb], .inl (by rw [hb]), h.nodup, h.size, ?_, ?_⟩
    · unfold forward listBegin
      rw [if_neg he]
      exact hl.follow_next node?_node (node?_tail li) h.size.ge
    · obtain ⟨n, ys, rfl⟩ := List.exists_cons_of_ne_nil hx
      unfold listFront
      rw [if_neg he, ListMem.next_eq, ListMem.head_eq, (Chain.cons_cons_iff.mp hl).1.1]
      rfl
    · obtain ⟨ys, n, rfl⟩ := (List.eq_nil_or_concat xs).resolve_left hx
      have e : cells li (ys ++ [n]) = (head li :: ys.map node) ++ node n :: tail li :: [] := by simp [cells]
      rw [List.concat_eq_append, e] at hl
      unfold listBack
      rw [if_neg he, ListMem.prev_eq, ListMem.tail_eq, hl.next_prev.2]
      simp

theorem Represents.forward_eq {m : ListMem L N} {σ : L → List N} (h : Represents m σ) (li : L) :
    forward m li = (σ li, listEnd m li) := (h.holds li).reads.next_walk

/-- A memory represents one assignment of sequences at most. -/
theorem Represents.unique {m : ListMem L N} {σ σ' : L → List N} (h : Represents m σ) (h' : Represents m σ') : σ' = σ := by
  funext li
  exact congrArg Prod.fst ((h'.forward_eq li).symm.trans (h.forward_eq li))

/-! ### Steps of a walk -/

/-- Where a walk is that has `xs` still to come. -/
def cellAt (li : L) (xs : List N) : Elem L N := (xs.head?.map node).getD (tail li)

theorem Holds.listBegin_eq {m : ListMem L N} {li : L} {xs : List N} (h : Holds m li xs) :
    listBegin m li = cellAt li xs := by
  unfold listBegin
  cases xs with
  | nil => exact if_pos (h.listEmpty_iff.mpr rfl)
  | cons n xs =>
      rw [if_neg fun he => List.cons_ne_nil n xs (h.listEmpty_iff.mp he)]
      exact (Chain.cons_cons_iff.mp (h.chain (List.cons_ne_nil n xs))).1.1

namespace Represents
variable {m : ListMem L N} {σ : L → List N}

theorem listBegin_eq (h : Represents m σ) (li : L) : listBegin m li = cellAt li (σ li) := (h.holds li).listBegin_eq

theorem listNext_eq (h : Represents m σ) {li : L} {xs ys : List N} {n : N} (hx : σ li = xs ++ n :: ys) :
    listNext m (node n) = cellAt li ys := by
  have hl := (h.holds li).chain (hx ▸ by simp)
  have hcells : ∃ l₂, cells li (xs ++ n :: ys) = (head li :: xs.map node) ++ node n :: cellAt li ys :: l₂ := by
    cases ys with
    | nil => exact ⟨[], by simp [cells, cellAt]⟩
    | cons y ys => exact ⟨ys.map node ++ [tail li], by simp [cells, cellAt]⟩
  obtain ⟨l₂, hc⟩ := hcells
  rw [hx, hc] at hl
  exact hl.next_prev.1

/-- Appending to a list does not change the pointers of other nodes that are on no list. -/
theorem next_pushBack (h : Represents m σ) (li : L) {n c : N} (hc : ∀ li', c ∉ σ li') (hne : c ≠ n) :
    (listPushBack m li (node n)).next (node c) = m.next (node c) := by
  rw [listPushBack_eq]
  apply linkNext_of_ne
  · obtain ⟨l₁, hl, -⟩ := h.lastCell_eq li n
    intro he
    apply hc li
    rw [← node_mem_cells, he, hl]
    simp
  · exact fun he => hne (Elem.node.inj he)

/-- Taking a node out changes neither its own pointers nor those of nodes that are on no list. -/
theorem next_remove (h : Represents m σ) {li : L} {n c : N} (hn : n ∈ σ li) (hc : c = n ∨ c ∉ σ li) :
    (listRemove m li (node n)).next (node c) = m.next (node c) := by
  obtain ⟨xs, ys, hx⟩ := List.append_of_mem hn
  have hne : ¬ listEmpty m li = true := fun he => List.ne_nil_of_mem hn ((h.holds li).listEmpty_iff.mp he)
  unfold listRemove
  rw [if_neg hne, unlink_eq]
  apply Function.update_of_ne
  intro he
  obtain ⟨l₁, p, q, l₂, h₀, -⟩ := cells_around li xs ys n
  have hl := (h.holds li).chain (List.ne_nil_of_mem hn)
  have hnd := cells_nodup li (h.holds li).nodup
  rw [hx, h₀] at hl hnd
  rw [hl.next_prev.2] at he
  rcases hc with rfl | hc
  · rw [← he] at hnd
    simp [List.nodup_append] at hnd
  · apply hc
    rw [← node_mem_cells, hx, h₀, he]
    simp

end Represents

/-! ### Runs of list operations -/

/-- A call of one of the five operations on a named list. -/
inductive ListOp (L N : Type) where
  | pushBack (li : L) (n : N)
  | pushFront (li : L) (n : N)
  | popBack (li : L)
  | popFront (li : L)
  | remove (li : L) (n : N)

namespace ListOp

/-- What the code does: the memory afterwards and the pointer returned (`NULL` from a `void` function). -/
def exec : ListOp L N → ListMem L N → ListMem L N × Elem L N
  | pushBack li n, m => (listPushBack m li (node n), null)
  | pushFront li n, m => (listPushFront m li (node n), null)
  | popBack li, m => listPopBack m li
  | popFront li, m => listPopFront m li
  | remove li n, m => (listRemove m li (node n), null)

/-- What the name of the operation says about the sequences, and the node handed out. -/
def seq : ListOp L N → (L → List N) → (L → List N) × Option N
  | pushBack li n, σ => (Function.update σ li (σ li ++ [n]), none)
  | pushFront li n, σ => (Function.update σ li (n :: σ li), none)
  | popBack li, σ => (Function.update σ li (σ li).dropLast, (σ li).getLast?)
  | popFront li, σ => (Function.update σ li (σ li).tail, (σ li).head?)
  | remove li n, σ => (Function.update σ li ((σ li).erase n), none)

/-- The callers' duty: push a node that is on no list, remove a member of the named list. -/
def Ok : ListOp L N → (L → List N) → Prop
  | pushBack _ n, σ | pushFront _ n, σ => ∀ li, n ∉ σ li
  | remove li n, σ => n ∈ σ li
  | _, _ => True

/-- Memory and sequences in step. -/
def step (s : ListMem L N × (L → List N)) (op : ListOp L N) : Option (ListMem L N × (L → List N)) :=
  some ((op.exec s.1).1, (op.seq s.2).1)

/-- The runs from `m₀`, every list empty; the second component is the family of sequences. -/
def Run (m₀ : ListMem L N) : ListMem L N × (L → List N) → Prop :=
  Transition.Reach step (fun s op => op.Ok s.2) (m₀, fun _ => [])

theorem Run.then {m₀ m : ListMem L N} {σ : L → List N} (h : Run m₀ (m, σ)) (op : ListOp L N)
    (hok : op.Ok σ) : Run m₀ ((op.exec m).1, (op.seq σ).1) :=
  Transition.Reach.next h hok rfl

theorem exec_represents {m : ListMem L N} {σ : L → List N} (h : Represents m σ) (op : ListOp L N)
    (hok : op.Ok σ) : Represents (op.exec m).1 (op.seq σ).1 := by
  cases op with
  | pushBack li n => exact h.pushBack li hok
  | pushFront li n => exact h.pushFront li hok
  | popBack li => exact h.popBack li
  | popFront li => exact h.popFront li
  | remove li n => exact h.remove hok

/-- The pointer returned is the node the sequence hands out, and `NULL` when there is none. -/
theorem exec_returns {m : ListMem L N} {σ : L → List N} (h : Represents m σ) (op : ListOp L N) :
    (op.exec m).2 = ((op.seq σ).2.map node).getD null := by
  cases op with
  | pushBack li n => rfl
  | pushFront li n => rfl
  | remove li n => rfl
  | popBack li =>
      rcases List.eq_nil_or_concat (σ li) with hx | ⟨xs, n, hx⟩
      · simp [exec, seq, h.popBack_nil hx, hx]
      · rw [List.concat_eq_append] at hx
        simp [exec, seq, h.popBack_concat hx, hx]
  | popFront li =>
      cases hx : σ li with
      | nil => simp [exec, seq, h.popFront_nil hx, hx]
      | cons n xs => simp [exec, seq, h.popFront_cons hx, hx]

end ListOp

/-- What `list_init` writes. -/
def Initialised (m : ListMem L N) (li : L) : Prop :=
  m.prev (head li) = null ∧ m.next (head li) = tail li ∧ m.prev (tail li) = head li ∧
    m.next (tail li) = null ∧ m.size li = 0

/-- A list structure in zero-filled memory. -/
def ZeroFilled (m : ListMem L N) (li : L) : Prop :=
  m.prev (head li) = null ∧ m.next (head li) = null ∧ m.prev (tail li) = null ∧
    m.next (tail li) = null ∧ m.size li = 0

theorem listInit_initialised (m : ListMem L N) (li : L) : Initialised (listInit m li) li := by
  simp [Initialised, listInit, ListMem.setPrev, ListMem.setNext, ListMem.setSize]

/-- Setting up a list, itself included, keeps a list set up. -/
theorem Initialised.listInit {m : ListMem L N} {li : L} (h : Initialised m li) (li' : L) :
    Initialised (listInit m li') li := by
  by_cases hne : li = li'
  · rw [hne]
    exact listInit_initialised m li'
  · obtain ⟨h₁, h₂, h₃, h₄, h₅⟩ := h
    simp [Initialised, Dunkos.listInit, ListMem.setPrev, ListMem.setNext, ListMem.setSize, hne, h₁, h₂, h₃, h₄, h₅]

/-- After a loop of `list_init` over an array every list of the array is set up. -/
theorem foldl_listInit {lis : List L} {li : L} (m : ListMem L N) (h : li ∈ lis ∨ Initialised m li) :
    Initialised (lis.foldl listInit m) li :=
  Transition.foldl_establish listInit_initialised (fun _ _ l h => h.listInit l) h

omit [DecidableEq L] [DecidableEq N] in
/-- Either way the list holds the empty sequence. -/
theorem Holds.of_fresh {m : ListMem L N} {li : L} (h : Initialised m li ∨ ZeroFilled m li) :
    Holds m li [] := by
  rcases h with ⟨-, hn, hp, -, hs⟩ | ⟨-, hn, hp, -, hs⟩
  · exact ⟨hs, List.nodup_nil, .inl (List.isChain_pair.mpr ⟨hn, hp⟩)⟩
  · exact ⟨hs, List.nodup_nil, .inr ⟨rfl, hn, hp⟩⟩

omit [DecidableEq L] [DecidableEq N] in
theorem Represents.of_fresh {m : ListMem L N} (h : ∀ li, Initialised m li ∨ ZeroFilled m li) :
    Represents m (fun _ => []) :=
  ⟨fun li => .of_fresh (h li), fun _ _ _ _ hn => absurd hn List.not_mem_nil⟩

theorem run_represents {m₀ : ListMem L N} (h₀ : ∀ li, Initialised m₀ li ∨ ZeroFilled m₀ li)
    {s : ListMem L N × (L → List N)}
    (h : ListOp.Run m₀ s) : Represents s.1 s.2 := by
  refine Transition.Reach.invariant h (I := fun s => Represents s.1 s.2) (.of_fresh h₀) ?_
  intro s op t hs hok hst
  cases hst
  exact op.exec_represents hs hok

/-- **The intrusive list refines a sequence.**  In every state that a run of the five operations
reaches from lists set up by `list_init` or zero-filled, every list reads both ways as its
sequence, and so it does after one more operation `op`: the operation has its effect on the
sequence of the named list, returns what that sequence hands out, leaves the other sequences as
they are, and a pop of an empty list returns `NULL` and writes nothing. -/
theorem list_refines_sequence {m₀ : ListMem L N} (h₀ : ∀ li, Initialised m₀ li ∨ ZeroFilled m₀ li)
    {m : ListMem L N} {σ : L → List N}
    (h : ListOp.Run m₀ (m, σ)) :
    (∀ li, Reads m li (σ li)) ∧
      (∀ op : ListOp L N, op.Ok σ → (∀ li, Reads (op.exec m).1 li ((op.seq σ).1 li)) ∧
        (op.exec m).2 = ((op.seq σ).2.map node).getD null) ∧
      ∀ li, σ li = [] → listPopBack m li = (m, null) ∧ listPopFront m li = (m, null) := by
  have hr := run_represents h₀ h
  refine ⟨fun li => (hr.holds li).reads, ?_, fun li hx => ⟨hr.popBack_nil hx, hr.popFront_nil hx⟩⟩
  intro op hok
  exact ⟨fun li => ((op.exec_represents hr hok).holds li).reads, op.exec_returns hr⟩

/-- A list set up by `list_init` beside a zero-filled one: a node moves from the first to the second. -/
theorem list_refines_sequence_move :
    let m₀ : ListMem Bool ℕ := listInit ⟨fun _ => null, fun _ => null, fun _ => 0⟩ true
    let m := (listPopFront (listPushBack (listPushFront m₀ false (node 7)) true (node 4)) true).1
    Reads (listPushBack m false (node 4)) false [7, 4] := by
  intro m₀ m
  have h₀ : ∀ li, Initialised m₀ li ∨ ZeroFilled m₀ li := by
    intro li
    cases li with
    | false => exact .inr ⟨rfl, rfl, rfl, rfl, rfl⟩
    | true => exact .inl (listInit_initialised _ _)
  have r₀ : ListOp.Run m₀ (m₀, fun _ => []) := .start
  have r₁ := r₀.then (.pushFront false 7) fun _ => List.not_mem_nil
  have r₂ := r₁.then (.pushBack true 4) (by intro li; cases li <;> decide)
  have r₃ := r₂.then (.popFront true) trivial
  have r₄ := r₃.then (.pushBack false 4) (by intro li; cases li <;> decide)
  exact (list_refines_sequence h₀ r₄).1 false

end Dunkos
