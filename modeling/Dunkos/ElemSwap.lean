import Dunkos.InsertOrdered

/-! # Exchanging two elements (`elem_swap` of `shared/list.c`)

The four neighbours are read before the eight writes, so the function is right for two elements that are apart, and for
an element and itself (`exchanged_of_apart`, `exchanged_self`).  When one element comes right after the other, one of the
four is the other element, and the second of the two ends as its own successor (`elemSwap_next_self`).  So the exchange is
right exactly for elements that are not neighbours: `elem_swap_iff`. -/

namespace Dunkos

open Linked Elem

section code
open LinkMem

variable {M L P : Type} [LinkMem M L P]

/-- `elem_swap`. -/
def elemSwap (m : M) (lf ri : P) : M :=
  let lpr := prev m lf
  let rpr := prev m ri
  let rne := next m ri
  let lne := next m lf
  let m := setNext m lpr ri
  let m := setNext m rpr lf
  let m := setPrev m lf rpr
  let m := setPrev m ri lpr
  let m := setPrev m lne ri
  let m := setPrev m rne lf
  let m := setNext m lf rne
  setNext m ri lne

end code

variable {L N : Type} [DecidableEq L] [DecidableEq N]

theorem elemSwap_eq (m : ListMem L N) (lf ri : Elem L N) :
    elemSwap m lf ri = ⟨swapPrev m.next m.prev lf ri, swapNext m.next m.prev lf ri, m.size⟩ := rfl

/-! ### Neighbours -/

/-- One of the two comes right after the other. -/
def Neighbours (xs : List N) (a b : N) : Prop := [a, b] <:+: xs ∨ [b, a] <:+: xs

section
variable {m : ListMem L N} {σ : L → List N} {li : L} {a b : N}

theorem Represents.next_eq_iff (h : Represents m σ) (ha : a ∈ σ li) :
    m.next (node a) = node b ↔ [a, b] <:+: σ li := by
  obtain ⟨xs, ys, hx⟩ := List.append_of_mem ha
  constructor
  · intro he
    have hnext := h.listNext_eq hx
    rw [show listNext m (node a) = m.next (node a) from rfl, he] at hnext
    cases ys with
    | nil => cases hnext
    | cons y ys =>
        obtain rfl : b = y := Elem.node.inj hnext
        exact ⟨xs, ys, by rw [hx]; simp⟩
  · rintro ⟨xs', ys', hx'⟩
    rw [List.append_assoc] at hx'
    exact h.listNext_eq hx'.symm

omit [DecidableEq L] [DecidableEq N] in
/-- The sentinels are no nodes, so every node is an inner cell. -/
theorem node_inner (li : L) {xs : List N} (ha : a ∈ xs) :
    (node a : Elem L N) ∈ (cells li xs).dropLast ∧ (node a : Elem L N) ∈ (cells li xs).tail := by
  have hmem : (node a : Elem L N) ∈ xs.map node := List.mem_map_of_mem ha
  unfold cells
  rw [← List.cons_append, List.dropLast_concat, List.cons_append, List.tail_cons]
  exact ⟨List.mem_cons_of_mem _ hmem, List.mem_append_left _ hmem⟩

omit [DecidableEq L] [DecidableEq N] in
theorem Represents.next_ne_self (h : Represents m σ) (ha : a ∈ σ li) : m.next (node a) ≠ node a :=
  ((h.holds li).chain (List.ne_nil_of_mem ha)).next_ne_self (cells_nodup li (h.holds li).nodup) (node_inner li ha).1

theorem Represents.apart (h : Represents m σ) (ha : a ∈ σ li) (hb : b ∈ σ li) (hne : a ≠ b)
    (hn : ¬ Neighbours (σ li) a b) : Apart m.next m.prev (node a) (node b) := by
  have hc := (h.holds li).chain (List.ne_nil_of_mem ha)
  have hnd := cells_nodup li (h.holds li).nodup
  have ha' := node_inner li ha
  have hb' := node_inner li hb
  refine hc.apart hnd ha'.1 ha'.2 hb'.1 hb'.2 (fun he => hne (Elem.node.inj he)) ?_ ?_
  · exact fun he => hn (.inl ((h.next_eq_iff ha).mp he))
  · exact fun he => hn (.inr ((h.next_eq_iff hb).mp he))

/-! ### The exchange -/

/-- What `elem_swap` is for: the two elements have changed places, no other element of any list has moved, and a second
call takes the first one back. -/
def Exchanged (m : ListMem L N) (σ : L → List N) (li : L) (a b : N) : Prop :=
  Represents (elemSwap m (node a) (node b)) (Function.update σ li ((σ li).map (Equiv.swap a b))) ∧
    elemSwap (elemSwap m (node a) (node b)) (node a) (node b) = m

theorem swap_mem {xs : List N} (ha : a ∈ xs) (hb : b ∈ xs) {x : N} (hx : x ∈ xs) : Equiv.swap a b x ∈ xs := by
  by_cases hxa : x = a
  · rwa [hxa, Equiv.swap_apply_left]
  by_cases hxb : x = b
  · rwa [hxb, Equiv.swap_apply_right]
  rwa [Equiv.swap_apply_of_ne_of_ne hxa hxb]

theorem mem_map_swap {xs : List N} (ha : a ∈ xs) (hb : b ∈ xs) {n : N} : n ∈ xs.map (Equiv.swap a b) ↔ n ∈ xs := by
  rw [List.mem_map]
  constructor
  · rintro ⟨x, hx, rfl⟩
    exact swap_mem ha hb hx
  · exact fun hn => ⟨_, swap_mem ha hb hn, Equiv.swap_apply_self a b n⟩

omit [DecidableEq L] in
theorem map_cells (li : L) (xs : List N) (a b : N) [DecidableEq (Elem L N)] :
    (cells li xs).map (Equiv.swap (node a) (node b)) = cells li (xs.map (Equiv.swap a b)) := by
  have hinj : Function.Injective (node : N → Elem L N) := fun _ _ => Elem.node.inj
  unfold cells
  rw [List.map_cons, List.map_append, List.map_map, List.map_map, List.map_singleton]
  rw [Equiv.swap_apply_of_ne_of_ne (by simp) (by simp), Equiv.swap_apply_of_ne_of_ne (by simp) (by simp)]
  congr 2
  exact List.map_congr_left fun x _ => hinj.swap_apply a b x

/-- Exchanging an element with itself writes what is there. -/
theorem elemSwap_self (h : Represents m σ) (ha : a ∈ σ li) : elemSwap m (node a) (node a) = m := by
  have hc := (h.holds li).chain (List.ne_nil_of_mem ha)
  obtain ⟨hd, ht⟩ := node_inner li ha
  have hn : m.next (m.prev (node a)) = node a := hc.next_of_prev ht
  have hp : m.prev (m.next (node a)) = node a := hc.prev_next hd
  have hwrite : Function.update m.next (m.prev (node a)) (node a) = m.next := Function.update_eq_self_iff.mpr hn.symm
  have hnext : swapNext m.next m.prev (node a) (node a) = m.next := by
    unfold swapNext
    rw [Function.update_idem, Function.update_idem, hwrite, Function.update_eq_self]
  have hprev : swapPrev m.next m.prev (node a) (node a) = m.prev := by
    unfold swapPrev
    rw [Function.update_idem, Function.update_idem, Function.update_eq_self, Function.update_eq_self_iff.mpr hp.symm]
  rw [elemSwap_eq, hnext, hprev]

theorem exchanged_self (h : Represents m σ) (ha : a ∈ σ li) : Exchanged m σ li a a := by
  unfold Exchanged
  rw [elemSwap_self h ha, elemSwap_self h ha, Equiv.swap_self]
  refine ⟨?_, rfl⟩
  have hid : (σ li).map (Equiv.refl N) = σ li := List.map_id _
  rw [hid, Function.update_eq_self]
  exact h

theorem exchanged_of_apart (h : Represents m σ) (ha : a ∈ σ li) (hb : b ∈ σ li)
    (hapart : Apart m.next m.prev (node a) (node b)) : Exchanged m σ li a b := by
  have hli := h.holds li
  have hc := hli.chain (List.ne_nil_of_mem ha)
  constructor
  · rw [elemSwap_eq]
    refine h.replace ⟨?_, ?_, .inl ?_⟩ ?_ ?_ ?_
    · simp [hli.size]
    · exact hli.nodup.map (Equiv.swap a b).injective
    · rw [← map_cells]
      exact hc.swap hapart
    · exact fun _ _ => rfl
    · intro y hy _
      have hne : ∀ c ∈ cells li (σ li), y ≠ c := fun c hc he => hy (he ▸ hc)
      have hya := hne _ (node_mem_cells.mpr ha)
      have hyb := hne _ (node_mem_cells.mpr hb)
      obtain ⟨hpa, hna⟩ := h.neighbours ha
      obtain ⟨hpb, hnb⟩ := h.neighbours hb
      show swapNext _ _ _ _ _ = _ ∧ swapPrev _ _ _ _ _ = _
      rw [hapart.swapPrev_eq]
      exact ⟨Apart.swapNext_of_ne hya hyb (hne _ hpa) (hne _ hpb), Apart.swapNext_of_ne hya hyb (hne _ hna) (hne _ hnb)⟩
    · exact fun n hn => .inl ((mem_map_swap ha hb).mp hn)
  · rw [elemSwap_eq, elemSwap_eq]
    show (⟨_, _, _⟩ : ListMem L N) = m
    rw [hapart.swapNext_twice, hapart.swapPrev_twice]

/-- Of two neighbours the second one becomes its own successor. -/
theorem elemSwap_next_self (h : Represents m σ) (ha : a ∈ σ li) (hab : [a, b] <:+: σ li) :
    (elemSwap m (node a) (node b)).next (node b) = node b ∧ (elemSwap m (node b) (node a)).next (node b) = node b := by
  have hnext : m.next (node a) = node b := (h.next_eq_iff ha).mpr hab
  have hprev : m.prev (node b) = node a := by
    rw [← hnext]
    exact ((h.holds li).chain (List.ne_nil_of_mem ha)).prev_next (node_inner li ha).1
  rw [elemSwap_eq, elemSwap_eq]
  show swapNext _ _ _ _ _ = _ ∧ swapNext _ _ _ _ _ = _
  constructor
  · rw [Apart.swapNext_right, hnext]
  · have hne := h.next_ne_self ha
    unfold swapNext
    rw [hnext] at hne
    rw [Function.update_of_ne hne, Function.update_self, hnext]

theorem not_exchanged (h : Represents m σ) (ha : a ∈ σ li) (hb : b ∈ σ li) (hn : Neighbours (σ li) a b) :
    ¬ Exchanged m σ li a b := by
  rintro ⟨hr, -⟩
  have hmem : ∀ n ∈ σ li, n ∈ Function.update σ li ((σ li).map (Equiv.swap a b)) li := by
    intro n hn
    rw [Function.update_self]
    exact (mem_map_swap ha hb).mpr hn
  rcases hn with hab | hba
  · exact hr.next_ne_self (hmem b hb) (elemSwap_next_self h ha hab).1
  · exact hr.next_ne_self (hmem a ha) (elemSwap_next_self h hb hba).2

/-- **`elem_swap` exchanges two elements exactly if they are not neighbours.** -/
theorem elem_swap_iff (h : Represents m σ) (ha : a ∈ σ li) (hb : b ∈ σ li) :
    Exchanged m σ li a b ↔ ¬ Neighbours (σ li) a b := by
  constructor
  · exact fun he hn => not_exchanged h ha hb hn he
  · intro hn
    by_cases hne : a = b
    · rw [← hne]
      exact exchanged_self h ha
    · exact exchanged_of_apart h ha hb (h.apart ha hb hne hn)

end

/-! ### Short lists -/

/-- **1 and 5 of the list 1, 5**: 5 becomes its own successor. -/
theorem elem_swap_neighbours : ¬ ∀ (m : ListMem Unit ℕ) (σ : Unit → List ℕ) (li : Unit) (a b : ℕ), Represents m σ →
    a ∈ σ li → b ∈ σ li → Exchanged m σ li a b := by
  intro h
  obtain ⟨hr, -⟩ := h oneFive _ () 1 5 oneFive_represents (by decide) (by decide)
  have hmem : 5 ∈ Function.update (fun _ => [1, 5]) () ([1, 5].map (Equiv.swap 1 5)) () := by decide
  exact hr.next_ne_self hmem (by decide)

/-- The list `1, 5, 9`. -/
def oneFiveNine : ListMem Unit ℕ := listPushBack oneFive () (node 9)

theorem oneFiveNine_represents : Represents oneFiveNine fun _ => [1, 5, 9] := by
  have h := oneFive_represents.pushBack () (n := 9) fun _ => by decide
  exact h

/-- The two ends of a list of three change places. -/
theorem elem_swap_ends : Exchanged oneFiveNine (fun _ => [1, 5, 9]) () 1 9 :=
  (elem_swap_iff oneFiveNine_represents (by decide) (by decide)).mpr (by unfold Neighbours; decide)

end Dunkos
