import Dunkos.ListSpec
import Mathlib.Algebra.Group.Nat.Defs

/-! # Lists in a memory of words

`WordMem` is memory as the machine has it: 64-bit words at byte addresses.  A `struct list_elem` at
address `el` is the two words at `el` and `el + 8`, a `struct list` at `li` is its two sentinels and
its size, so the functions of `list.c` run on this memory too, and what they write may overlap with
anything else.

A `Placement` says where list structures and nodes may be such that they do not overlap.  Under a
placement the word memory simulates the memory of separate objects (`Sim`), and the theorems about
lists carry over: `Lists P m σ` says that the lists at `P.loc` hold the sequences `σ`, and
`Lists.pushBack`, `Lists.popFront_cons`, `Lists.remove` and `Lists.congr` say what keeps it. -/

namespace Dunkos

/-- The word at every address. -/
structure WordMem where
  word : ℕ → ℕ

namespace WordMem

/-- `*x = v`. -/
def set (m : WordMem) (x v : ℕ) : WordMem := ⟨Function.update m.word x v⟩

/-- `memset(dst, 0, len)`, both multiples of the word size. -/
def zero (m : WordMem) (dst len : ℕ) : WordMem := ⟨fun x => if dst ≤ x ∧ x < dst + len then 0 else m.word x⟩

@[simp] theorem set_self (m : WordMem) (x v : ℕ) : (m.set x v).word x = v := Function.update_self ..

theorem set_of_ne (m : WordMem) {x y : ℕ} (v : ℕ) (h : y ≠ x) : (m.set x v).word y = m.word y :=
  Function.update_of_ne h _ _

instance : LinkMem WordMem ℕ ℕ where
  null := 0
  head li := li
  tail li := li + 16
  prev m el := m.word el
  next m el := m.word (el + 8)
  size m li := m.word (li + 32)
  setPrev m el v := m.set el v
  setNext m el v := m.set (el + 8) v
  setSize m li v := m.set (li + 32) v

end WordMem

open Elem

/-- Places for list structures and for nodes, no two of them overlapping. -/
structure Placement (L : Type) where
  loc : L → ℕ
  IsNode : ℕ → Prop
  loc_apart : ∀ l l', l ≠ l' → loc l + 40 ≤ loc l' ∨ loc l' + 40 ≤ loc l
  node_apart : ∀ p q, IsNode p → IsNode q → p ≠ q → p + 16 ≤ q ∨ q + 16 ≤ p
  loc_node : ∀ l p, IsNode p → loc l + 40 ≤ p ∨ p + 16 ≤ loc l

variable {L : Type}

namespace Placement
variable (P : Placement L)

/-- The address of an element. -/
def addr : Elem L ℕ → ℕ
  | null => 0
  | head l => P.loc l
  | tail l => P.loc l + 16
  | node p => p

/-- The elements that stand somewhere: sentinels and nodes in their places. -/
def Cell : Elem L ℕ → Prop
  | null => False
  | node p => P.IsNode p
  | _ => True

@[simp] theorem addr_null : P.addr null = 0 := rfl
@[simp] theorem addr_head (l : L) : P.addr (head l) = P.loc l := rfl
@[simp] theorem addr_tail (l : L) : P.addr (tail l) = P.loc l + 16 := rfl
@[simp] theorem addr_node (p : ℕ) : P.addr (node p) = p := rfl

variable {P}

theorem addr_apart {e e' : Elem L ℕ} (he : P.Cell e) (he' : P.Cell e') (hne : e ≠ e') :
    P.addr e + 16 ≤ P.addr e' ∨ P.addr e' + 16 ≤ P.addr e := by
  cases e with
  | null => exact he.elim
  | node p =>
      cases e' with
      | null => exact he'.elim
      | node q => exact P.node_apart p q he he' fun h => hne (h ▸ rfl)
      | head l' =>
          have := P.loc_node l' p he
          rw [addr_node, addr_head]
          omega
      | tail l' =>
          have := P.loc_node l' p he
          rw [addr_node, addr_tail]
          omega
  | head l =>
      cases e' with
      | null => exact he'.elim
      | node q =>
          have := P.loc_node l q he'
          rw [addr_node, addr_head]
          omega
      | head l' =>
          have := P.loc_apart l l' fun h => hne (h ▸ rfl)
          rw [addr_head, addr_head]
          omega
      | tail l' =>
          by_cases h : l = l'
          · subst h
            exact .inl (Nat.le_refl _)
          · have := P.loc_apart l l' h
            rw [addr_head, addr_tail]
            omega
  | tail l =>
      cases e' with
      | null => exact he'.elim
      | node q =>
          have := P.loc_node l q he'
          rw [addr_node, addr_tail]
          omega
      | head l' =>
          by_cases h : l = l'
          · subst h
            exact .inr (Nat.le_refl _)
          · have := P.loc_apart l l' h
            rw [addr_head, addr_tail]
            omega
      | tail l' =>
          have := P.loc_apart l l' fun h => hne (h ▸ rfl)
          rw [addr_tail, addr_tail]
          omega

theorem size_apart {e : Elem L ℕ} (he : P.Cell e) (l : L) :
    P.addr e + 16 ≤ P.loc l + 32 ∨ P.loc l + 40 ≤ P.addr e := by
  have hloc : ∀ l', l' = l ∨ P.loc l' + 40 ≤ P.loc l ∨ P.loc l + 40 ≤ P.loc l' :=
    fun l' => (Classical.em (l' = l)).imp_right (P.loc_apart l' l)
  cases e with
  | null => exact he.elim
  | node p =>
      have := P.loc_node l p he
      rw [addr_node]
      omega
  | head l' =>
      rw [addr_head]
      rcases hloc l' with rfl | h <;> omega
  | tail l' =>
      rw [addr_tail]
      rcases hloc l' with rfl | h <;> omega

/-- The cells of a list stand somewhere when its nodes do. -/
theorem cell_of_mem (P : Placement L) {l : L} {xs : List ℕ} (hn : ∀ p ∈ xs, P.IsNode p) {e : Elem L ℕ}
    (he : e ∈ cells l xs) : P.Cell e := by
  cases e with
  | null => simp [cells] at he
  | head l' => trivial
  | tail l' => trivial
  | node p => exact hn p (node_mem_cells.mp he)

/-- No list function writes to `x`: it is not a word of a sentinel, of a size or of a node's place. -/
structure Outside (P : Placement L) (x : ℕ) : Prop where
  cell : ∀ e, P.Cell e → x ≠ P.addr e ∧ x ≠ P.addr e + 8
  size : ∀ l, x ≠ P.loc l + 32

/-- The same list structures, and nodes in fewer places. -/
def restrict (P : Placement L) (N : ℕ → Prop) : Placement L where
  loc := P.loc
  IsNode p := P.IsNode p ∧ N p
  loc_apart := P.loc_apart
  node_apart p q hp hq := P.node_apart p q hp.1 hq.1
  loc_node l p hp := P.loc_node l p hp.1

end Placement

/-! ### The simulation -/

/-- The words at the places of the elements are the pointers of a memory of separate objects. -/
structure Sim (P : Placement L) (m : WordMem) (lm : ListMem L ℕ) : Prop where
  prev : ∀ e, P.Cell e → m.word (P.addr e) = P.addr (lm.prev e)
  next : ∀ e, P.Cell e → m.word (P.addr e + 8) = P.addr (lm.next e)
  size : ∀ l, m.word (P.loc l + 32) = lm.size l

namespace Sim
variable [DecidableEq L] {P : Placement L} {m : WordMem} {lm : ListMem L ℕ} {e v : Elem L ℕ}

theorem setPrev (h : Sim P m lm) (he : P.Cell e) (v : Elem L ℕ) :
    Sim P (m.set (P.addr e) (P.addr v)) (lm.setPrev e v) := by
  refine ⟨fun e' he' => ?_, fun e' he' => ?_, fun l => ?_⟩
  · rw [ListMem.setPrev_prev]
    by_cases hee : e' = e
    · rw [hee, WordMem.set_self, Function.update_self]
    · have := Placement.addr_apart he' he hee
      rw [WordMem.set_of_ne _ _ (by omega), Function.update_of_ne hee, h.prev e' he']
  · rw [WordMem.set_of_ne, ListMem.setPrev_next, h.next e' he']
    by_cases hee : e' = e
    · rw [hee]
      omega
    · have := Placement.addr_apart he' he hee
      omega
  · have := Placement.size_apart he l
    rw [WordMem.set_of_ne _ _ (by omega), ListMem.setPrev_size, h.size l]

theorem setNext (h : Sim P m lm) (he : P.Cell e) (v : Elem L ℕ) :
    Sim P (m.set (P.addr e + 8) (P.addr v)) (lm.setNext e v) := by
  refine ⟨fun e' he' => ?_, fun e' he' => ?_, fun l => ?_⟩
  · rw [WordMem.set_of_ne, ListMem.setNext_prev, h.prev e' he']
    by_cases hee : e' = e
    · rw [hee]
      omega
    · have := Placement.addr_apart he' he hee
      omega
  · rw [ListMem.setNext_next]
    by_cases hee : e' = e
    · rw [hee, WordMem.set_self, Function.update_self]
    · have := Placement.addr_apart he' he hee
      rw [WordMem.set_of_ne _ _ (by omega), Function.update_of_ne hee, h.next e' he']
  · have := Placement.size_apart he l
    rw [WordMem.set_of_ne _ _ (by omega), ListMem.setNext_size, h.size l]

theorem setSize (h : Sim P m lm) (l : L) (n : ℕ) : Sim P (m.set (P.loc l + 32) n) (lm.setSize l n) := by
  refine ⟨fun e he => ?_, fun e he => ?_, fun l' => ?_⟩
  · have := Placement.size_apart he l
    rw [WordMem.set_of_ne _ _ (by omega), ListMem.setSize_prev, h.prev e he]
  · have := Placement.size_apart he l
    rw [WordMem.set_of_ne _ _ (by omega), ListMem.setSize_next, h.next e he]
  · rw [ListMem.setSize_size]
    by_cases hll : l' = l
    · rw [hll, WordMem.set_self, Function.update_self]
    · have := P.loc_apart l' l hll
      rw [WordMem.set_of_ne _ _ (by omega), Function.update_of_ne hll, h.size l']

theorem listEmpty (h : Sim P m lm) (l : L) : listEmpty m (P.loc l) = listEmpty lm l := by
  show (m.word (P.loc l + 32) == 0) = (lm.size l == 0)
  rw [h.size l]

/-- The cell that a push at the back links to stands where the code finds it. -/
theorem lastCell {σ : L → List ℕ} (h : Sim P m lm) (hr : Represents lm σ) (hn : ∀ l, ∀ p ∈ σ l, P.IsNode p)
    (l : L) : P.Cell (lastCell lm l) ∧ P.addr (Dunkos.lastCell lm l) =
      if Dunkos.listEmpty m (P.loc l) then P.loc l else m.word (P.loc l + 16) := by
  constructor
  · obtain ⟨l₁, h₀, -⟩ := hr.lastCell_eq l 0
    refine P.cell_of_mem (l := l) (hn l) ?_
    rw [h₀]
    simp
  · unfold Dunkos.lastCell
    rw [h.listEmpty l]
    split_ifs
    · rfl
    · exact (h.prev (tail l) trivial).symm

theorem pushBack {σ : L → List ℕ} (h : Sim P m lm) (hr : Represents lm σ) (hn : ∀ l, ∀ p ∈ σ l, P.IsNode p)
    (l : L) {p : ℕ} (hp : P.IsNode p) :
    Sim P (listPushBack m (P.loc l) p) (listPushBack lm l (node p)) ∧
      ∀ x, P.Outside x → (listPushBack m (P.loc l) p).word x = m.word x := by
  obtain ⟨hc, hl⟩ := h.lastCell hr hn l
  have e₁ : listPushBack m (P.loc l) p = ((((m.set p (P.addr (Dunkos.lastCell lm l))).set
      (P.addr (Dunkos.lastCell lm l) + 8) p).set (P.loc l + 16) p).set (p + 8) (P.loc l + 16)).set
      (P.loc l + 32) (m.word (P.loc l + 32) + 1) := by
    rw [hl]
    unfold listPushBack
    split_ifs <;> rfl
  have e₂ : listPushBack lm l (node p) = ((((lm.setPrev (node p) (Dunkos.lastCell lm l)).setNext
      (Dunkos.lastCell lm l) (node p)).setPrev (tail l) (node p)).setNext (node p) (tail l)).setSize l
      (lm.size l + 1) := by
    unfold listPushBack Dunkos.lastCell
    split_ifs <;> rfl
  rw [e₁, e₂]
  have hnode : P.Cell (node p) := hp
  have htail : P.Cell (tail l) := trivial
  constructor
  · rw [h.size l]
    exact ((((h.setPrev hnode _).setNext hc (node p)).setPrev htail (node p)).setNext hnode (tail l)).setSize l _
  · intro x hx
    have hxp : x ≠ p ∧ x ≠ p + 8 := hx.cell _ hnode
    have hxt : x ≠ P.loc l + 16 := (hx.cell _ htail).1
    rw [WordMem.set_of_ne _ _ (hx.size l), WordMem.set_of_ne _ _ hxp.2, WordMem.set_of_ne _ _ hxt,
      WordMem.set_of_ne _ _ (hx.cell _ hc).2, WordMem.set_of_ne _ _ hxp.1]

theorem unlink {σ : L → List ℕ} (h : Sim P m lm) (hr : Represents lm σ) (hn : ∀ l, ∀ p ∈ σ l, P.IsNode p)
    {l : L} {p : ℕ} (hp : p ∈ σ l) :
    Sim P (unlink m (P.loc l) p) (unlink lm l (node p)) ∧
      ∀ x, P.Outside x → (Dunkos.unlink m (P.loc l) p).word x = m.word x := by
  obtain ⟨h₁, h₂⟩ := hr.neighbours hp
  have hpr := P.cell_of_mem (hn l) h₁
  have hne := P.cell_of_mem (hn l) h₂
  have e₁ : Dunkos.unlink m (P.loc l) p = ((m.set (P.addr (lm.prev (node p)) + 8) (P.addr (lm.next (node p)))).set
      (P.addr (lm.next (node p))) (P.addr (lm.prev (node p)))).set (P.loc l + 32) (lm.size l - 1) := by
    rw [← h.prev (node p) (hn l p hp), ← h.next (node p) (hn l p hp), ← h.size l]
    rfl
  rw [e₁]
  constructor
  · exact ((h.setNext hpr (lm.next (node p))).setPrev hne (lm.prev (node p))).setSize l _
  · intro x hx
    rw [WordMem.set_of_ne _ _ (hx.size l), WordMem.set_of_ne _ _ (hx.cell _ hne).1,
      WordMem.set_of_ne _ _ (hx.cell _ hpr).2]

end Sim

/-! ### The lists of a placement -/

/-- The lists at the places of `P` hold the sequences `σ`. -/
structure Lists (P : Placement L) (m : WordMem) (σ : L → List ℕ) : Prop where
  nodes : ∀ l, ∀ p ∈ σ l, P.IsNode p
  sim : ∃ lm, Sim P m lm ∧ Represents lm σ

/-- The pointers of `lm` in sentinels and in the nodes `on`; in the other nodes they are whatever the words say. -/
def ListMem.readOff (lm : ListMem L ℕ) (on : ℕ → Prop) [DecidablePred on] (m : WordMem) : ListMem L ℕ where
  prev e := e.node?.elim (lm.prev e) fun p => if on p then lm.prev e else node (m.word p)
  next e := e.node?.elim (lm.next e) fun p => if on p then lm.next e else node (m.word (p + 8))
  size := lm.size

namespace Lists
variable [DecidableEq L] {P : Placement L} {m m' : WordMem} {σ : L → List ℕ} {l : L} {p : ℕ}

omit [DecidableEq L] in
theorem nodup (h : Lists P m σ) (l : L) : (σ l).Nodup := by
  obtain ⟨lm, -, hr⟩ := h.sim
  exact (hr.holds l).nodup

theorem listEmpty_iff (h : Lists P m σ) (l : L) : listEmpty m (P.loc l) = true ↔ σ l = [] := by
  obtain ⟨lm, hs, hr⟩ := h.sim
  rw [hs.listEmpty l, (hr.holds l).listEmpty_iff]

theorem pushBack (h : Lists P m σ) (l : L) (hp : P.IsNode p) (hn : ∀ l', p ∉ σ l') :
    Lists P (listPushBack m (P.loc l) p) (Function.update σ l (σ l ++ [p])) ∧
      ∀ x, P.Outside x → (listPushBack m (P.loc l) p).word x = m.word x := by
  obtain ⟨lm, hs, hr⟩ := h.sim
  obtain ⟨hs', ho⟩ := hs.pushBack hr h.nodes l hp
  refine ⟨⟨?_, _, hs', hr.pushBack l hn⟩, ho⟩
  intro l' q hq
  by_cases hl : l' = l
  · subst hl
    rw [Function.update_self, List.mem_append, List.mem_singleton] at hq
    rcases hq with hq | rfl
    · exact h.nodes l' q hq
    · exact hp
  · rw [Function.update_of_ne hl] at hq
    exact h.nodes l' q hq

/-- Shortening one list keeps the nodes in their places. -/
theorem nodes_update (h : Lists P m σ) {xs : List ℕ} (hsub : xs ⊆ σ l) :
    ∀ l', ∀ q ∈ Function.update σ l xs l', P.IsNode q := by
  intro l' q hq
  by_cases hl : l' = l
  · subst hl
    rw [Function.update_self] at hq
    exact h.nodes l' q (hsub hq)
  · rw [Function.update_of_ne hl] at hq
    exact h.nodes l' q hq

theorem popFront_cons (h : Lists P m σ) {xs : List ℕ} (hx : σ l = p :: xs) :
    ∃ m', listPopFront m (P.loc l) = (m', p) ∧ Lists P m' (Function.update σ l xs) ∧
      ∀ x, P.Outside x → m'.word x = m.word x := by
  obtain ⟨lm, hs, hr⟩ := h.sim
  have hp : p ∈ σ l := hx ▸ List.mem_cons_self
  obtain ⟨hs', ho⟩ := hs.unlink hr h.nodes hp
  have he : ¬ listEmpty m (P.loc l) = true := by
    rw [h.listEmpty_iff, hx]
    simp
  have hb : listBegin m (P.loc l) = p := by
    have hl := (hr.holds l).chain (by simp [hx])
    rw [hx] at hl
    unfold listBegin
    rw [if_neg he]
    show m.word (P.addr (head l) + 8) = p
    rw [hs.next (head l) trivial, (Linked.Chain.cons_cons_iff.mp hl).1.1, Placement.addr_node]
  refine ⟨unlink m (P.loc l) p, ?_, ⟨h.nodes_update (by simp [hx]), _, hs', ?_⟩, ho⟩
  · unfold listPopFront
    rw [if_neg he, hb]
  · rw [← List.nil_append (p :: xs)] at hx
    exact hr.unlinkNode hx

theorem remove (h : Lists P m σ) (hp : p ∈ σ l) :
    Lists P (listRemove m (P.loc l) p) (Function.update σ l ((σ l).erase p)) ∧
      ∀ x, P.Outside x → (listRemove m (P.loc l) p).word x = m.word x := by
  obtain ⟨lm, hs, hr⟩ := h.sim
  obtain ⟨xs, ys, -, hx, he⟩ := List.exists_erase_eq hp
  have hne : ¬ listEmpty m (P.loc l) = true := by
    rw [h.listEmpty_iff]
    exact List.ne_nil_of_mem hp
  obtain ⟨hs', ho⟩ := hs.unlink hr h.nodes hp
  unfold listRemove
  rw [if_neg hne]
  refine ⟨⟨h.nodes_update List.erase_subset, _, hs', ?_⟩, ho⟩
  rw [he]
  exact hr.unlinkNode hx

omit [DecidableEq L] in
open Classical in
/-- **The frame of the lists**: writes to neither a list structure nor a node on a list keep the lists. -/
theorem congr (h : Lists P m σ) (hl : ∀ l x, P.loc l ≤ x → x < P.loc l + 40 → m'.word x = m.word x)
    (hp : ∀ l, ∀ p ∈ σ l, ∀ x, p ≤ x → x < p + 16 → m'.word x = m.word x) : Lists P m' σ := by
  obtain ⟨lm, hs, hr⟩ := h.sim
  refine ⟨h.nodes, lm.readOff (fun p => ∃ l, p ∈ σ l) m', ⟨?_, ?_, ?_⟩, hr.congr (fun _ => rfl) ?_⟩
  · intro e he
    cases e with
    | null => exact he.elim
    | head l => exact (hl l _ (Nat.le_refl _) (by omega)).trans (hs.prev _ he)
    | tail l =>
        exact (hl l _ (by rw [Placement.addr_tail]; omega) (by rw [Placement.addr_tail]; omega)).trans (hs.prev _ he)
    | node p =>
        show m'.word p = P.addr (if ∃ l, p ∈ σ l then lm.prev (node p) else node (m'.word p))
        split_ifs with hon
        · obtain ⟨l, hmem⟩ := hon
          exact (hp l p hmem _ (Nat.le_refl _) (by omega)).trans (hs.prev _ he)
        · rfl
  · intro e he
    cases e with
    | null => exact he.elim
    | head l =>
        exact (hl l _ (by rw [Placement.addr_head]; omega) (by rw [Placement.addr_head]; omega)).trans (hs.next _ he)
    | tail l =>
        exact (hl l _ (by rw [Placement.addr_tail]; omega) (by rw [Placement.addr_tail]; omega)).trans (hs.next _ he)
    | node p =>
        show m'.word (p + 8) = P.addr (if ∃ l, p ∈ σ l then lm.next (node p) else node (m'.word (p + 8)))
        split_ifs with hon
        · obtain ⟨l, hmem⟩ := hon
          exact (hp l p hmem _ (by omega) (by omega)).trans (hs.next _ he)
        · rfl
  · intro l
    rw [hl l _ (by omega) (by omega)]
    exact hs.size l
  · intro l y hy
    cases y with
    | null => exact ⟨rfl, rfl⟩
    | head l' => exact ⟨rfl, rfl⟩
    | tail l' => exact ⟨rfl, rfl⟩
    | node p =>
        have hon : ∃ l, p ∈ σ l := ⟨l, node_mem_cells.mp hy⟩
        exact ⟨if_pos hon, if_pos hon⟩

omit [DecidableEq L] in
/-- List structures as `list_init` leaves them hold nothing. -/
theorem of_init (h : ∀ l, m.word (P.loc l) = 0 ∧ m.word (P.loc l + 8) = P.loc l + 16 ∧
      m.word (P.loc l + 16) = P.loc l ∧ m.word (P.loc l + 24) = 0 ∧ m.word (P.loc l + 32) = 0) :
    Lists P m (fun _ => []) := by
  let lm : ListMem L ℕ := {
    prev := fun e => match e with
      | tail l => head l
      | node p => node (m.word p)
      | _ => null
    next := fun e => match e with
      | head l => tail l
      | node p => node (m.word (p + 8))
      | _ => null
    size := fun _ => 0 }
  refine ⟨fun _ _ hp => absurd hp List.not_mem_nil, lm, ⟨?_, ?_, fun l => (h l).2.2.2.2⟩,
    .of_fresh fun l => .inl ⟨rfl, rfl, rfl, rfl, rfl⟩⟩
  · intro e he
    cases e with
    | null => exact he.elim
    | head l => exact (h l).1
    | tail l => exact (h l).2.2.1
    | node p => rfl
  · intro e he
    cases e with
    | null => exact he.elim
    | head l => exact (h l).2.1
    | tail l => exact (h l).2.2.2.1
    | node p => rfl

omit [DecidableEq L] in
/-- The nodes on the lists are the only ones there are. -/
theorem restrict (h : Lists P m σ) {N : ℕ → Prop} (hN : ∀ l, ∀ q ∈ σ l, N q) : Lists (P.restrict N) m σ := by
  obtain ⟨lm, hs, hr⟩ := h.sim
  have hcell : ∀ e, (P.restrict N).Cell e → P.Cell e := by
    intro e he
    cases e with
    | node q => exact he.1
    | _ => exact he
  refine ⟨fun l q hq => ⟨h.nodes l q hq, hN l q hq⟩, lm, ⟨fun e he => ?_, fun e he => ?_, hs.size⟩, hr⟩
  · exact hs.prev e (hcell e he)
  · exact hs.next e (hcell e he)

end Lists

/-- `x` is a word of neither a list structure nor a node on a list. -/
structure Placement.Clear (P : Placement L) (σ : L → List ℕ) (x : ℕ) : Prop where
  loc : ∀ l, x < P.loc l ∨ P.loc l + 40 ≤ x
  node : ∀ l, ∀ q ∈ σ l, x < q ∨ q + 16 ≤ x

namespace Placement.Clear
variable [DecidableEq L] {P : Placement L} {m : WordMem} {σ : L → List ℕ} {l : L} {p x : ℕ}

omit [DecidableEq L] in
theorem outside (h : P.Clear σ x) {N : ℕ → Prop} (hN : ∀ q, N q → (∃ l, q ∈ σ l) ∨ x < q ∨ q + 16 ≤ x) :
    (P.restrict N).Outside x := by
  constructor
  · intro e he
    cases e with
    | null => exact he.elim
    | head l =>
        have : _ ∨ _ := h.loc l
        show x ≠ P.loc l ∧ x ≠ P.loc l + 8
        omega
    | tail l =>
        have : _ ∨ _ := h.loc l
        show x ≠ P.loc l + 16 ∧ x ≠ P.loc l + 16 + 8
        omega
    | node q =>
        have hq : x < q ∨ q + 16 ≤ x := (hN q he.2).elim (fun ⟨l, hl⟩ => h.node l q hl) id
        show x ≠ q ∧ x ≠ q + 8
        omega
  · intro l
    have : _ ∨ _ := h.loc l
    show x ≠ P.loc l + 32
    omega

theorem update (h : P.Clear σ x) {xs : List ℕ} (hxs : ∀ q ∈ xs, x < q ∨ q + 16 ≤ x) :
    P.Clear (Function.update σ l xs) x := by
  refine ⟨h.loc, fun k q hq => ?_⟩
  by_cases hkl : k = l
  · rw [hkl, Function.update_self] at hq
    exact hxs q hq
  · rw [Function.update_of_ne hkl] at hq
    exact h.node k q hq

/-- **What the list functions write**: the list structures and the nodes on the lists, and the node pushed. -/
theorem pushBack (h : P.Clear σ x) (hl : Lists P m σ) (hp : P.IsNode p) (hn : ∀ l', p ∉ σ l')
    (hx : x < p ∨ p + 16 ≤ x) : (listPushBack m (P.loc l) p).word x = m.word x := by
  have hr := hl.restrict (N := fun q => (∃ l, q ∈ σ l) ∨ q = p) fun l q hq => .inl ⟨l, hq⟩
  refine (hr.pushBack l ⟨hp, .inr rfl⟩ hn).2 x (h.outside ?_)
  rintro q (hq | rfl)
  · exact .inl hq
  · exact .inr hx

theorem popFront (h : P.Clear σ x) (hl : Lists P m σ) {xs : List ℕ} (hx : σ l = p :: xs) :
    (listPopFront m (P.loc l)).1.word x = m.word x := by
  have hr := hl.restrict (N := fun q => ∃ l, q ∈ σ l) fun l q hq => ⟨l, hq⟩
  obtain ⟨m', hm, -, ho⟩ := hr.popFront_cons hx
  have hm : listPopFront m (P.loc l) = (m', p) := hm
  rw [hm]
  exact ho x (h.outside fun q hq => .inl hq)

theorem remove (h : P.Clear σ x) (hl : Lists P m σ) (hp : p ∈ σ l) :
    (listRemove m (P.loc l) p).word x = m.word x := by
  have hr := hl.restrict (N := fun q => ∃ l, q ∈ σ l) fun l q hq => ⟨l, hq⟩
  exact (hr.remove hp).2 x (h.outside fun q hq => .inl hq)

end Placement.Clear

/-- What the words at `li` say when the list there holds the nodes at `xs`: their number, and links
both ways between the sentinels (none in an empty list that is filled with zeros). -/
structure WordMem.HoldsAt (m : WordMem) (li : ℕ) (xs : List ℕ) : Prop where
  size : m.word (li + 32) = xs.length
  nodup : xs.Nodup
  links : Linked.Chain (fun el => m.word (el + 8)) m.word (li :: (xs ++ [li + 16])) ∨
    (xs = [] ∧ m.word (li + 8) = 0 ∧ m.word (li + 16) = 0)

theorem Lists.holdsAt {P : Placement L} {m : WordMem} {σ : L → List ℕ} (h : Lists P m σ) (l : L) :
    m.HoldsAt (P.loc l) (σ l) := by
  obtain ⟨lm, hs, hr⟩ := h.sim
  have hl := hr.holds l
  refine ⟨(hs.size l).trans hl.size, hl.nodup, ?_⟩
  have hcell : ∀ e ∈ cells l (σ l), P.Cell e := fun e => P.cell_of_mem (h.nodes l)
  have haddr : (cells l (σ l)).map P.addr = P.loc l :: (σ l ++ [P.loc l + 16]) := by
    simp [cells, Function.comp_def]
  rcases hl.links with hc | ⟨hx, hn, hp⟩
  · left
    rw [← haddr]
    exact hc.map (fun e he => hs.next e (hcell e he)) (fun e he => hs.prev e (hcell e he))
  · right
    refine ⟨hx, ?_, ?_⟩
    · have := hs.next (head l) trivial
      rwa [hn] at this
    · have := hs.prev (tail l) trivial
      rwa [hp] at this

end Dunkos
