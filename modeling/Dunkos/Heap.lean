import Dunkos.WordMem
import Dunkos.Paging

/-! # The kernel heap (`heap.h`, `heap.c`, `heapstruct.h`)

Sixteen descriptors serve blocks of `8 << i` bytes, cut from arenas of one page each.  A free block
is on the free list of its descriptor, through links inside the block; the header of an arena counts
its free blocks.  All of it is in a memory of words: the descriptors are a static array below
`PHYSBASE`, the arenas are pages above it.  The locks of the descriptors are left out, calls are
taken one after the other.

`kmalloc` takes the page that `page_allocate` would return, and the value that the variable `b`
happens to have where it is returned without being set; `none` is the panic of its assertion, or the
access through NULL when there is no page.
`kfree` returns the page it passes to `page_free`.

`kfree` pushes a block on the free list, and when the arena is not yet free pushes it once more.
Blocks of the first class are smaller than the links in them.  `heap_sound_of_fits` says that all is
well in runs that do neither; `kmalloc_same_block_twice` is a run that hands out one block twice. -/

namespace Dunkos

/-- `sizeof(struct heap_desc)`: `block_size`, `arena_size`, `free_list` at `16`, `desc_lock` at `56`. -/
def heapDescSize : ℕ := 112

/-- `sizeof(struct heap_arena)`: `magic`, `desc`, `free_count`. -/
def heapArenaSize : ℕ := 24

/-- `ARENA_MAGIC`. -/
def arenaMagic : ℕ := 0x9A548EED

/-- Where the linker puts the static array `descriptors`: below the window on physical memory. -/
structure HeapLayout where
  descriptors : ℕ
  below : descriptors + 16 * heapDescSize ≤ physBase

variable (Λ : HeapLayout)

/-- `descriptors + i`. -/
def heapDesc (i : Fin 16) : ℕ := Λ.descriptors + heapDescSize * i

/-- `&d->free_list`. -/
def freeList (d : ℕ) : ℕ := d + 16

def blockGetArena (b : ℕ) : ℕ := b / pageSize * pageSize

/-- `a + 1` of the header, plus `i * a->desc->block_size` bytes. -/
def arenaGetBlock (m : WordMem) (a i : ℕ) : ℕ := a + heapArenaSize + i * m.word (m.word (a + 8))

/-- The body of the loop in `init_heap`. -/
def initHeapDesc (m : WordMem) (i : Fin 16) : WordMem :=
  let d := heapDesc Λ i
  let blockSize := 8 <<< i.val
  listInit ((m.set d blockSize).set (d + 8) ((pageSize - heapArenaSize) / blockSize)) (freeList d)

def initHeap (m : WordMem) : WordMem := (List.finRange 16).foldl (initHeapDesc Λ) m

/-- The first descriptor with `block_size >= size`. -/
def findDesc (m : WordMem) (size : ℕ) : Option (Fin 16) :=
  (List.finRange 16).find? (fun i => decide (size ≤ m.word (heapDesc Λ i)))

/-- `for (i = ..; i < .. + k; ++i)` over the blocks of an arena. -/
def forBlocks (body : WordMem → ℕ → WordMem) (a : ℕ) : ℕ → ℕ → WordMem → WordMem
  | 0, _, m => m
  | k + 1, i, m => forBlocks body a k (i + 1) (body m (arenaGetBlock m a i))

/-- The header of a new arena in a zeroed page. -/
def newArena (m : WordMem) (d a : ℕ) : WordMem :=
  let m := m.zero a pageSize
  let m := m.set (a + 8) d
  let m := m.set (a + 16) (m.word (d + 8))
  m.set a arenaMagic

/-- The branch of `kmalloc` for an empty free list: the page `a` becomes an arena. -/
def growHeap (m : WordMem) (d a : ℕ) : WordMem :=
  let m := newArena m d a
  forBlocks (fun m b => listPushBack m (freeList d) b) a (m.word (d + 8)) 0 m

/-- Pop a block, clear it and count it out. -/
def takeBlock (m : WordMem) (d : ℕ) : Option (WordMem × ℕ) :=
  let r := listPopFront m (freeList d)
  let m := r.1.zero r.2 (r.1.word d)
  let a := blockGetArena r.2
  if m.word a = arenaMagic then some (m.set (a + 16) ((m.word (a + 16) + 2 ^ 64 - 1) % 2 ^ 64), r.2) else none

def kmalloc (page junk : ℕ) (m : WordMem) (size : ℕ) : Option (WordMem × ℕ) :=
  if size = 0 then some (m, 0)
  else
    match findDesc Λ m size with
    | none => some (m, junk)
    | some i =>
      let d := heapDesc Λ i
      if listEmpty m (freeList d) then
        if page = 0 then none else takeBlock (growHeap m d page) d
      else takeBlock m d

def kcalloc (page junk : ℕ) (m : WordMem) (nmemb size : ℕ) : Option (WordMem × ℕ) :=
  kmalloc Λ page junk m (nmemb * size % 2 ^ 64)

def kfree (m : WordMem) (p : ℕ) : WordMem × Option ℕ :=
  if p = 0 then (m, none)
  else
    let a := blockGetArena p
    let d := m.word (a + 8)
    let m := listPushBack m (freeList d) p
    let m := m.set (a + 16) ((m.word (a + 16) + 1) % 2 ^ 64)
    if m.word (a + 16) = m.word (d + 8) then
      (forBlocks (fun m b => listRemove m (freeList d) b) a (m.word (d + 8)) 0 m, some a)
    else (listPushBack m (freeList d) p, none)

/-! ### Blocks and arenas -/

/-- `block_size` of class `i`. -/
def classSize (i : Fin 16) : ℕ := 8 <<< i.val

/-- `arena_size` of class `i`. -/
def classBlocks (i : Fin 16) : ℕ := (pageSize - heapArenaSize) / classSize i

/-- Block `j` of the arena `a` of class `i`. -/
def classBlock (i : Fin 16) (a j : ℕ) : ℕ := a + heapArenaSize + j * classSize i

theorem class_facts : ∀ i : Fin 16, 8 ≤ classSize i ∧ classSize i ≤ 262144 ∧ 0 < classBlocks i ∧
    classBlocks i * classSize i ≤ pageSize - heapArenaSize ∧
    (i ≠ 0 → classSize i % 16 = 0 ∧ 16 ≤ classSize i) := by
  decide

/-- The places of the blocks of an arena. -/
theorem classBlock_bounds {i : Fin 16} {a j : ℕ} (hj : j < classBlocks i) :
    a + heapArenaSize ≤ classBlock i a j ∧ classBlock i a j + classSize i ≤ a + pageSize := by
  obtain ⟨-, -, -, hle, -⟩ := class_facts i
  have hmul : (j + 1) * classSize i ≤ classBlocks i * classSize i := Nat.mul_le_mul_right _ hj
  rw [Nat.add_mul, Nat.one_mul] at hmul
  unfold classBlock
  have : heapArenaSize ≤ pageSize := by decide
  omega

theorem blockGetArena_classBlock {i : Fin 16} {a j : ℕ} (ha : a % pageSize = 0) (hj : j < classBlocks i) :
    blockGetArena (classBlock i a j) = a := by
  obtain ⟨h₁, h₂⟩ := classBlock_bounds (a := a) hj
  obtain ⟨h₃, -⟩ := class_facts i
  unfold blockGetArena
  unfold pageSize at *
  unfold heapArenaSize at h₁
  omega

theorem classBlock_inj {i : Fin 16} {a j k : ℕ} (h : classBlock i a j = classBlock i a k) : j = k := by
  obtain ⟨h₁, -⟩ := class_facts i
  unfold classBlock at h
  exact Nat.eq_of_mul_eq_mul_right (by omega) (Nat.add_left_cancel h)

/-- The arenas in use: the class of every page that is one. -/
abbrev Arenas := ℕ → Option (Fin 16)

/-- `p` is a block of class `i` in a current arena. -/
def Arenas.Block (arenas : Arenas) (i : Fin 16) (p : ℕ) : Prop :=
  ∃ a j, arenas a = some i ∧ j < classBlocks i ∧ p = classBlock i a j

/-- Arenas are aligned pages of the window, and none is of the first class. -/
def Arenas.Valid (arenas : Arenas) : Prop :=
  ∀ a i, arenas a = some i → physBase ≤ a ∧ a % pageSize = 0 ∧ i ≠ 0

/-- The page `a` can become an arena. -/
structure Arenas.Fresh (arenas : Arenas) (a : ℕ) : Prop where
  high : physBase ≤ a
  aligned : a % pageSize = 0
  unused : arenas a = none

theorem Arenas.Fresh.ne_zero {arenas : Arenas} {a : ℕ} (h : arenas.Fresh a) : a ≠ 0 := by
  have hhigh := h.high
  unfold physBase at hhigh
  omega

instance (arenas : Arenas) (a : ℕ) : Decidable (arenas.Fresh a) :=
  decidable_of_iff (physBase ≤ a ∧ a % pageSize = 0 ∧ arenas a = none)
    ⟨fun h => ⟨h.1, h.2.1, h.2.2⟩, fun h => ⟨h.high, h.aligned, h.unused⟩⟩

namespace Arenas
variable {arenas : Arenas} {i k : Fin 16} {p q a : ℕ}

/-- A block lies in the window, behind the header of its arena and inside the page. -/
theorem Block.bounds (hv : arenas.Valid) (hp : arenas.Block i p) : physBase ≤ p ∧
    arenas (blockGetArena p) = some i ∧ blockGetArena p + heapArenaSize ≤ p ∧
      p + classSize i ≤ blockGetArena p + pageSize ∧ p % 16 = 8 := by
  obtain ⟨a, j, ha, hj, rfl⟩ := hp
  obtain ⟨h₁, h₂, h₃⟩ := hv a i ha
  obtain ⟨h₄, h₅⟩ := classBlock_bounds (a := a) hj
  rw [blockGetArena_classBlock h₂ hj]
  refine ⟨by omega, ha, h₄, h₅, ?_⟩
  obtain ⟨-, -, -, -, h₆⟩ := class_facts i
  have hmod : j * classSize i % 16 = 0 := by rw [Nat.mul_mod, (h₆ h₃).1, Nat.mul_zero, Nat.zero_mod]
  unfold classBlock heapArenaSize
  unfold pageSize at h₂
  omega

/-- The blocks of an arena are of one class. -/
theorem Block.class_eq_of_arena (hv : arenas.Valid) (hp : arenas.Block i p) (hq : arenas.Block k q)
    (ha : blockGetArena p = blockGetArena q) : i = k := by
  have h₁ := (hp.bounds hv).2.1
  rw [ha, (hq.bounds hv).2.1] at h₁
  exact (Option.some.inj h₁).symm

/-- A block belongs to one class only. -/
theorem Block.class_eq (hv : arenas.Valid) (hp : arenas.Block i p) (hq : arenas.Block k p) : i = k :=
  hp.class_eq_of_arena hv hq rfl

/-- Different blocks do not overlap. -/
theorem Block.apart (hv : arenas.Valid) (hp : arenas.Block i p) (hq : arenas.Block k q) (hne : p ≠ q) :
    p + classSize i ≤ q ∨ q + classSize k ≤ p := by
  by_cases ha : blockGetArena p = blockGetArena q
  · obtain rfl := hp.class_eq_of_arena hv hq ha
    obtain ⟨a, j, h₁, hj, rfl⟩ := hp
    obtain ⟨b, l, h₂, hl, rfl⟩ := hq
    rw [blockGetArena_classBlock (hv a _ h₁).2.1 hj, blockGetArena_classBlock (hv b _ h₂).2.1 hl] at ha
    subst ha
    unfold classBlock
    rcases Nat.lt_trichotomy j l with hjl | rfl | hjl
    · have := Nat.mul_le_mul_right (classSize i) (Nat.succ_le_of_lt hjl)
      rw [Nat.succ_mul] at this
      omega
    · exact absurd rfl hne
    · have := Nat.mul_le_mul_right (classSize i) (Nat.succ_le_of_lt hjl)
      rw [Nat.succ_mul] at this
      omega
  · obtain ⟨-, -, h₁, h₂, -⟩ := hp.bounds hv
    obtain ⟨-, -, h₃, h₄, -⟩ := hq.bounds hv
    unfold blockGetArena at ha h₁ h₂ h₃ h₄
    unfold pageSize at *
    omega

theorem Valid.update (hv : arenas.Valid) (hf : arenas.Fresh a) (hi : i ≠ 0) :
    Valid (Function.update arenas a (some i)) := by
  intro b k hb
  by_cases hba : b = a
  · rw [hba, Function.update_self, Option.some.injEq] at hb
    rw [hba, ← hb]
    exact ⟨hf.high, hf.aligned, hi⟩
  · rw [Function.update_of_ne hba] at hb
    exact hv b k hb

theorem Valid.drop (hv : arenas.Valid) (a : ℕ) : Valid (Function.update arenas a none) := by
  intro b k hb
  by_cases hba : b = a
  · rw [hba, Function.update_self] at hb
    cases hb
  · rw [Function.update_of_ne hba] at hb
    exact hv b k hb

/-- The blocks after a page has become an arena. -/
theorem block_update (hf : arenas.Fresh a) : Block (Function.update arenas a (some i)) k p ↔
    arenas.Block k p ∨ (k = i ∧ ∃ j, j < classBlocks i ∧ p = classBlock i a j) := by
  constructor
  · rintro ⟨b, j, hb, hj, hp⟩
    by_cases hba : b = a
    · rw [hba, Function.update_self, Option.some.injEq] at hb
      subst hba hb
      exact .inr ⟨rfl, j, hj, hp⟩
    · rw [Function.update_of_ne hba] at hb
      exact .inl ⟨b, j, hb, hj, hp⟩
  · rintro (⟨b, j, hb, hj, hp⟩ | ⟨rfl, j, hj, hp⟩)
    · refine ⟨b, j, ?_, hj, hp⟩
      rw [Function.update_of_ne, hb]
      rintro rfl
      rw [hf.unused] at hb
      cases hb
    · exact ⟨a, j, Function.update_self .., hj, hp⟩

/-- The blocks after an arena has been given back. -/
theorem block_drop (hv : arenas.Valid) : Block (Function.update arenas a none) k p ↔
    arenas.Block k p ∧ blockGetArena p ≠ a := by
  constructor
  · rintro ⟨b, j, hb, hj, hp⟩
    by_cases hba : b = a
    · rw [hba, Function.update_self] at hb
      cases hb
    · rw [Function.update_of_ne hba] at hb
      refine ⟨⟨b, j, hb, hj, hp⟩, ?_⟩
      rw [hp, blockGetArena_classBlock (hv b k hb).2.1 hj]
      exact hba
  · rintro ⟨⟨b, j, hb, hj, hp⟩, hne⟩
    rw [hp, blockGetArena_classBlock (hv b k hb).2.1 hj] at hne
    refine ⟨b, j, ?_, hj, hp⟩
    rw [Function.update_of_ne hne, hb]

end Arenas

/-- Where free blocks may be: links that fit between the header and the end of a page. -/
def HeapNode (p : ℕ) : Prop :=
  physBase ≤ p ∧ p % 16 = 8 ∧ heapArenaSize ≤ p % pageSize ∧ p % pageSize + 16 ≤ pageSize

/-- The free lists of the descriptors and the places of blocks. -/
def heapPlacement : Placement (Fin 16) where
  loc i := freeList (heapDesc Λ i)
  IsNode := HeapNode
  loc_apart := by
    intro i k hne
    have : i.val ≠ k.val := fun h => hne (Fin.ext h)
    unfold freeList heapDesc heapDescSize
    omega
  node_apart := by
    intro p q hp hq hne
    unfold HeapNode at hp hq
    omega
  loc_node := by
    intro i p hp
    have := Λ.below
    unfold HeapNode at hp
    unfold freeList heapDesc
    unfold heapDescSize at *
    omega

theorem Arenas.Block.heapNode {arenas : Arenas} (hv : arenas.Valid) {i : Fin 16} {p : ℕ}
    (hp : arenas.Block i p) : HeapNode p := by
  obtain ⟨h₁, h₂, h₃, h₄, h₅⟩ := hp.bounds hv
  obtain ⟨-, -, -, -, h₆⟩ := class_facts i
  have h₇ := (h₆ (hv _ _ h₂).2.2).2
  unfold blockGetArena at h₃ h₄
  unfold HeapNode
  unfold pageSize at *
  unfold heapArenaSize at *
  omega

/-- A word apart from the lists of the descriptors and from the places of blocks. -/
theorem outside_of {x : ℕ} (hloc : ∀ i, x < freeList (heapDesc Λ i) ∨ freeList (heapDesc Λ i) + 40 ≤ x)
    (hnode : ∀ p, HeapNode p → x ≠ p ∧ x ≠ p + 8) : (heapPlacement Λ).Outside x := by
  constructor
  · intro e he
    cases e with
    | null => exact he.elim
    | head i =>
        have : _ ∨ _ := hloc i
        show x ≠ freeList (heapDesc Λ i) ∧ x ≠ freeList (heapDesc Λ i) + 8
        omega
    | tail i =>
        have : _ ∨ _ := hloc i
        show x ≠ freeList (heapDesc Λ i) + 16 ∧ x ≠ freeList (heapDesc Λ i) + 16 + 8
        omega
    | node p => exact hnode p he
  · intro i
    have : _ ∨ _ := hloc i
    show x ≠ freeList (heapDesc Λ i) + 32
    omega

/-- `block_size` and `arena_size`. -/
theorem outside_desc (i : Fin 16) {x : ℕ} (h₁ : heapDesc Λ i ≤ x) (h₂ : x < heapDesc Λ i + 16) :
    (heapPlacement Λ).Outside x := by
  have hb := Λ.below
  apply outside_of
  · intro k
    unfold freeList heapDesc at *
    unfold heapDescSize at *
    omega
  · intro p hp
    unfold HeapNode at hp
    unfold heapDesc heapDescSize at *
    omega

/-- The header of a page. -/
theorem outside_header {a x : ℕ} (ha : physBase ≤ a) (hal : a % pageSize = 0) (h₁ : a ≤ x)
    (h₂ : x < a + heapArenaSize) : (heapPlacement Λ).Outside x := by
  have hb := Λ.below
  apply outside_of
  · intro k
    unfold freeList heapDesc
    unfold heapDescSize at *
    omega
  · intro p hp
    unfold HeapNode at hp
    unfold pageSize at *
    unfold heapArenaSize at *
    omega

/-! ### What the words of the heap say -/

theorem heapDesc_lt (i : Fin 16) {x : ℕ} (hx : x < heapDesc Λ i + heapDescSize) : x < physBase := by
  have hb := Λ.below
  unfold heapDesc at hx
  unfold heapDescSize at *
  omega

/-- A word of a page that is not a link of a free block. -/
theorem heapPlacement_clear {σ : Fin 16 → List ℕ} {x : ℕ} (hx : physBase ≤ x)
    (h : ∀ k, ∀ q ∈ σ k, x < q ∨ q + 16 ≤ x) : (heapPlacement Λ).Clear σ x := by
  refine ⟨fun l => .inr ?_, h⟩
  have hlow := @heapDesc_lt Λ l (heapDesc Λ l + 55) (by unfold heapDescSize; omega)
  show freeList (heapDesc Λ l) + 40 ≤ x
  unfold freeList
  omega

/-- The descriptors are as `init_heap` left them, the free lists hold `σ`, and the header of every
arena names its class and the number `count` of its free blocks. -/
structure HeapWords (m : WordMem) (arenas : Arenas) (σ : Fin 16 → List ℕ) (count : ℕ → ℕ) : Prop where
  desc : ∀ i, m.word (heapDesc Λ i) = classSize i ∧ m.word (heapDesc Λ i + 8) = classBlocks i
  lists : Lists (heapPlacement Λ) m σ
  header : ∀ a i, arenas a = some i →
    m.word a = arenaMagic ∧ m.word (a + 8) = heapDesc Λ i ∧ m.word (a + 16) = count a

namespace HeapWords
variable {Λ} {m m' : WordMem} {arenas : Arenas} {σ σ' : Fin 16 → List ℕ} {count : ℕ → ℕ} {i : Fin 16} {a p : ℕ}

/-- Writes into pages, but not to headers of arenas or to free blocks, change nothing. -/
theorem congr (h : HeapWords Λ m arenas σ count) (hlow : ∀ x, x < physBase → m'.word x = m.word x)
    (hfree : ∀ i, ∀ p ∈ σ i, ∀ x, p ≤ x → x < p + 16 → m'.word x = m.word x)
    (hhead : ∀ a i, arenas a = some i → ∀ x, a ≤ x → x < a + heapArenaSize → m'.word x = m.word x) :
    HeapWords Λ m' arenas σ count := by
  refine ⟨fun i => ?_, h.lists.congr ?_ hfree, fun a i ha => ?_⟩
  · have h₁ := heapDesc_lt Λ i (x := heapDesc Λ i) (by unfold heapDescSize; omega)
    have h₂ := heapDesc_lt Λ i (x := heapDesc Λ i + 8) (by unfold heapDescSize; omega)
    rw [hlow _ h₁, hlow _ h₂]
    exact h.desc i
  · intro i x _ hx
    refine hlow x (heapDesc_lt Λ i ?_)
    have : x < freeList (heapDesc Λ i) + 40 := hx
    unfold freeList at this
    unfold heapDescSize
    omega
  · have hh := hhead a i ha
    unfold heapArenaSize at hh
    rw [hh a (by omega) (by omega), hh (a + 8) (by omega) (by omega), hh (a + 16) (by omega) (by omega)]
    exact h.header a i ha

/-- What a list function does to the lists is all it does. -/
theorem of_outside (h : HeapWords Λ m arenas σ count) (hv : arenas.Valid)
    (hl : Lists (heapPlacement Λ) m' σ' ∧ ∀ x, (heapPlacement Λ).Outside x → m'.word x = m.word x) :
    HeapWords Λ m' arenas σ' count := by
  obtain ⟨hl, ho⟩ := hl
  refine ⟨fun i => ?_, hl, fun a i ha => ?_⟩
  · rw [ho _ (outside_desc Λ i (by omega) (by omega)), ho _ (outside_desc Λ i (by omega) (by omega))]
    exact h.desc i
  · obtain ⟨h₁, h₂, -⟩ := hv a i ha
    have hout := fun x => outside_header Λ h₁ h₂ (x := x)
    unfold heapArenaSize at hout
    rw [ho _ (hout a (by omega) (by omega)), ho _ (hout (a + 8) (by omega) (by omega)),
      ho _ (hout (a + 16) (by omega) (by omega))]
    exact h.header a i ha

/-- Writing `free_count`. -/
theorem setCount (h : HeapWords Λ m arenas σ count) (hv : arenas.Valid) (ha : arenas a = some i) (v : ℕ) :
    HeapWords Λ (m.set (a + 16) v) arenas σ (Function.update count a v) := by
  obtain ⟨h₁, h₂, -⟩ := hv a i ha
  have hne : ∀ x, ¬ (a ≤ x ∧ x < a + heapArenaSize) → (m.set (a + 16) v).word x = m.word x := by
    intro x hx
    refine WordMem.set_of_ne _ _ ?_
    rintro rfl
    unfold heapArenaSize at hx
    omega
  refine ⟨fun k => ?_, h.lists.congr ?_ ?_, fun b k hb => ?_⟩
  · have := heapDesc_lt Λ k (x := heapDesc Λ k + 8) (by unfold heapDescSize; omega)
    rw [hne _ (by omega), hne _ (by omega)]
    exact h.desc k
  · intro k x _ hx
    have : x < freeList (heapDesc Λ k) + 40 := hx
    have := heapDesc_lt Λ k (x := x) (by unfold freeList at this; unfold heapDescSize; omega)
    exact hne x (by omega)
  · intro k p hp x hx hx'
    have hn : HeapNode p := h.lists.nodes k p hp
    unfold HeapNode at hn
    refine hne x ?_
    unfold pageSize at *
    unfold heapArenaSize at *
    omega
  · obtain ⟨h₃, h₄, h₅⟩ := h.header b k hb
    obtain ⟨h₆, h₇, -⟩ := hv b k hb
    by_cases hab : b = a
    · subst hab
      rw [WordMem.set_of_ne _ _ (by omega), WordMem.set_of_ne _ _ (by omega), WordMem.set_self,
        Function.update_self]
      exact ⟨h₃, h₄, rfl⟩
    · have hpage : b + heapArenaSize ≤ a ∨ a + heapArenaSize ≤ b := by
        unfold pageSize at *
        unfold heapArenaSize
        omega
      unfold heapArenaSize at hpage
      rw [WordMem.set_of_ne _ _ (by omega), WordMem.set_of_ne _ _ (by omega), WordMem.set_of_ne _ _ (by omega),
        Function.update_of_ne hab]
      exact ⟨h₃, h₄, h₅⟩

/-- A new arena is written in its page. -/
theorem newArena_of_out (m : WordMem) (d : ℕ) {x : ℕ} (hx : x < a ∨ a + pageSize ≤ x) :
    (Dunkos.newArena m d a).word x = m.word x := by
  have h24 : 24 ≤ pageSize := by decide
  unfold Dunkos.newArena
  rw [WordMem.set_of_ne _ _ (by omega), WordMem.set_of_ne _ _ (by omega), WordMem.set_of_ne _ _ (by omega)]
  exact if_neg (by omega)

/-- The header of a new arena. -/
theorem newArena (h : HeapWords Λ m arenas σ count) (hv : arenas.Valid) (hf : arenas.Fresh a)
    (hfree : ∀ k, ∀ p ∈ σ k, blockGetArena p ≠ a) :
    HeapWords Λ (newArena m (heapDesc Λ i) a) (Function.update arenas a (some i)) σ
      (Function.update count a (classBlocks i)) := by
  have hd := heapDesc_lt Λ i (x := heapDesc Λ i + 8) (by unfold heapDescSize; omega)
  have hhigh := hf.high
  have hdesc : ((m.zero a pageSize).set (a + 8) (heapDesc Λ i)).word (heapDesc Λ i + 8) = classBlocks i := by
    rw [WordMem.set_of_ne _ _ (by omega)]
    show (if _ then _ else _) = _
    rw [if_neg (by omega), (h.desc i).2]
  have hold : HeapWords Λ (Dunkos.newArena m (heapDesc Λ i) a) arenas σ count := by
    refine h.congr (fun x hx => newArena_of_out m _ (by omega)) ?_ ?_
    · intro k p hp x hx hx'
      have hn : HeapNode p := h.lists.nodes k p hp
      have ha := hfree k p hp
      have hal := hf.aligned
      unfold HeapNode at hn
      unfold blockGetArena at ha
      refine newArena_of_out m _ ?_
      unfold pageSize at *
      omega
    · intro b k hb x hx hx'
      obtain ⟨-, hbal, -⟩ := hv b k hb
      have hba : b ≠ a := by
        rintro rfl
        rw [hf.unused] at hb
        cases hb
      have hal := hf.aligned
      refine newArena_of_out m _ ?_
      unfold pageSize at *
      unfold heapArenaSize at hx'
      omega
  refine ⟨hold.desc, hold.lists, fun b k hb => ?_⟩
  by_cases hba : b = a
  · rw [hba, Function.update_self, Option.some.injEq] at hb
    rw [hba, Function.update_self, ← hb]
    unfold Dunkos.newArena
    refine ⟨WordMem.set_self .., ?_, ?_⟩
    · rw [WordMem.set_of_ne _ _ (by omega), WordMem.set_of_ne _ _ (by omega), WordMem.set_self]
    · rw [WordMem.set_of_ne _ _ (by omega), WordMem.set_self, hdesc]
  · rw [Function.update_of_ne hba] at hb ⊢
    exact hold.header b k hb

/-- `arena_get_block`, in an arena. -/
theorem arenaGetBlock_eq (h : HeapWords Λ m arenas σ count) (ha : arenas a = some i) (j : ℕ) :
    arenaGetBlock m a j = classBlock i a j := by
  unfold arenaGetBlock classBlock
  rw [(h.header a i ha).2.1, (h.desc i).1]

end HeapWords

/-- **The loop over the blocks of an arena**: what its body carries from one index to the next holds
at the end. -/
theorem forBlocks_rule {I : ℕ → WordMem → Prop} {body : WordMem → ℕ → WordMem} {a k i : ℕ} {m : WordMem}
    (h : I i m) (hstep : ∀ j m, i ≤ j → j < i + k → I j m → I (j + 1) (body m (arenaGetBlock m a j))) :
    I (i + k) (forBlocks body a k i m) := by
  induction k generalizing i m with
  | zero => exact h
  | succ k ih =>
      unfold forBlocks
      rw [show i + (k + 1) = i + 1 + k by omega]
      exact ih (hstep i m (Nat.le_refl _) (by omega) h) fun j m h₁ h₂ => hstep j m (by omega) (by omega)

/-- The blocks of an arena, in order. -/
def arenaBlocks (i : Fin 16) (a n : ℕ) : List ℕ := (List.range n).map (classBlock i a)

theorem arenaBlocks_succ (i : Fin 16) (a n : ℕ) : arenaBlocks i a (n + 1) = arenaBlocks i a n ++ [classBlock i a n] := by
  unfold arenaBlocks
  rw [List.range_succ, List.map_append]
  rfl

theorem mem_arenaBlocks {i : Fin 16} {a n p : ℕ} : p ∈ arenaBlocks i a n ↔ ∃ j, j < n ∧ p = classBlock i a j := by
  unfold arenaBlocks
  simp [eq_comm]

theorem arenaBlocks_nodup (i : Fin 16) (a n : ℕ) : (arenaBlocks i a n).Nodup :=
  List.nodup_range.map fun _ _ h => classBlock_inj h

/-- The blocks of a current arena. -/
theorem Arenas.mem_blocks {arenas : Arenas} (hv : arenas.Valid) {i : Fin 16} {a q : ℕ} (ha : arenas a = some i) :
    q ∈ arenaBlocks i a (classBlocks i) ↔ arenas.Block i q ∧ blockGetArena q = a := by
  rw [mem_arenaBlocks]
  constructor
  · rintro ⟨j, hj, rfl⟩
    exact ⟨⟨a, j, ha, hj, rfl⟩, blockGetArena_classBlock (hv a i ha).2.1 hj⟩
  · rintro ⟨⟨b, j, hb, hj, rfl⟩, he⟩
    rw [blockGetArena_classBlock (hv b i hb).2.1 hj] at he
    exact ⟨j, hj, by rw [he]⟩

/-- Without the blocks of an arena, a list of blocks has those of the others. -/
theorem Arenas.filter_blocks {arenas : Arenas} (hv : arenas.Valid) {i : Fin 16} {a : ℕ} (ha : arenas a = some i)
    {xs : List ℕ} (hxs : ∀ q ∈ xs, arenas.Block i q) :
    xs.filter (fun q => q ∉ arenaBlocks i a (classBlocks i)) = xs.filter (fun q => blockGetArena q ≠ a) := by
  refine List.filter_congr fun q hq => ?_
  rw [decide_eq_decide, Arenas.mem_blocks hv ha]
  simp [hxs q hq]

namespace HeapWords
variable {Λ} {m m' : WordMem} {arenas : Arenas} {σ σ' : Fin 16 → List ℕ} {count : ℕ → ℕ} {i : Fin 16} {a p : ℕ}

/-- An empty free list is filled with the blocks of a new arena; other pages keep their words, links of
free blocks apart. -/
theorem grow (h : HeapWords Λ m arenas σ count) (hv : arenas.Valid) (hi : i ≠ 0) (hf : arenas.Fresh a)
    (hfree : ∀ k, ∀ p ∈ σ k, blockGetArena p ≠ a) (hempty : σ i = []) :
    HeapWords Λ (growHeap m (heapDesc Λ i) a) (Function.update arenas a (some i))
      (Function.update σ i (arenaBlocks i a (classBlocks i))) (Function.update count a (classBlocks i)) ∧
    ∀ x, (heapPlacement Λ).Clear σ x → (x < a ∨ a + pageSize ≤ x) →
      (growHeap m (heapDesc Λ i) a).word x = m.word x := by
  have hnew := h.newArena (i := i) hv hf hfree
  have hv' := hv.update hf hi
  have ha : Function.update arenas a (some i) a = some i := Function.update_self ..
  unfold growHeap
  dsimp only
  rw [(hnew.desc i).2]
  -- after `j` rounds the list holds the first `j` blocks
  have key := @forBlocks_rule (fun j m' => HeapWords Λ m' (Function.update arenas a (some i))
        (Function.update σ i (arenaBlocks i a j)) (Function.update count a (classBlocks i)) ∧
      ∀ x, (heapPlacement Λ).Clear σ x → (x < a ∨ a + pageSize ≤ x) → m'.word x = m.word x)
    (fun m b => listPushBack m (freeList (heapDesc Λ i)) b) a (classBlocks i) 0
    (Dunkos.newArena m (heapDesc Λ i) a) ?_ ?_
  · rwa [Nat.zero_add] at key
  · rw [show arenaBlocks i a 0 = σ i from hempty.symm, Function.update_eq_self]
    exact ⟨hnew, fun x _ hx => newArena_of_out m _ hx⟩
  · rintro j m' - hj ⟨hI, hout⟩
    rw [Nat.zero_add] at hj
    rw [hI.arenaGetBlock_eq ha]
    have hblock : Arenas.Block (Function.update arenas a (some i)) i (classBlock i a j) := ⟨a, j, ha, hj, rfl⟩
    have hnot : ∀ k, classBlock i a j ∉ Function.update σ i (arenaBlocks i a j) k := by
      intro k hk
      by_cases hki : k = i
      · rw [hki, Function.update_self, mem_arenaBlocks] at hk
        obtain ⟨l, hl, he⟩ := hk
        have := classBlock_inj he
        omega
      · rw [Function.update_of_ne hki] at hk
        exact hfree k _ hk (blockGetArena_classBlock hf.aligned hj)
    have hpush := hI.lists.pushBack i (hblock.heapNode hv') hnot
    rw [Function.update_self, Function.update_idem, ← arenaBlocks_succ] at hpush
    refine ⟨hI.of_outside hv' hpush, fun x hx hxa => ?_⟩
    -- the nodes so far are in the page
    have hin : ∀ l, l < classBlocks i → x < classBlock i a l ∨ classBlock i a l + 16 ≤ x := by
      intro l hl
      obtain ⟨h₁, h₂⟩ := classBlock_bounds (a := a) hl
      have h₃ := ((class_facts i).2.2.2.2 hi).2
      omega
    have hclear : (heapPlacement Λ).Clear (Function.update σ i (arenaBlocks i a j)) x := by
      refine hx.update fun q hq => ?_
      obtain ⟨l, hl, rfl⟩ := mem_arenaBlocks.mp hq
      exact hin l (by omega)
    exact (hclear.pushBack hI.lists (hblock.heapNode hv') hnot (hin j hj)).trans (hout x hx hxa)

/-- A block that is on no list is cleared. -/
theorem zeroBlock (h : HeapWords Λ m arenas σ count) (hv : arenas.Valid) (hp : arenas.Block i p)
    (hblock : ∀ k, ∀ q ∈ σ k, arenas.Block k q) (hnot : ∀ k, p ∉ σ k) :
    HeapWords Λ (m.zero p (classSize i)) arenas σ count := by
  obtain ⟨hhigh, -, hlow, hend, -⟩ := hp.bounds hv
  have hout : ∀ x, x < p ∨ p + classSize i ≤ x → (m.zero p (classSize i)).word x = m.word x :=
    fun x hx => if_neg (by omega)
  refine h.congr (fun x hx => hout x (by omega)) ?_ ?_
  · intro k q hq x h₁ h₂
    have hq' := hblock k q hq
    have hapart := hp.apart hv hq' (ne_of_mem_of_not_mem hq (hnot k)).symm
    have h16 := ((class_facts k).2.2.2.2 (hv _ _ (hq'.bounds hv).2.1).2.2).2
    exact hout x (by omega)
  · intro b k hb x h₁ h₂
    obtain ⟨-, hal, -⟩ := hv b k hb
    refine hout x ?_
    unfold blockGetArena at hlow hend
    unfold pageSize at *
    unfold heapArenaSize at *
    omega

/-- The first free block is popped, cleared and counted out, and nothing else is written. -/
theorem takeBlock (h : HeapWords Λ m arenas σ count) (hv : arenas.Valid)
    (hblock : ∀ k, ∀ q ∈ σ k, arenas.Block k q) {xs : List ℕ} (hx : σ i = p :: xs) :
    ∃ m', takeBlock m (heapDesc Λ i) = some (m', p) ∧ HeapWords Λ m' arenas (Function.update σ i xs)
      (Function.update count (blockGetArena p) ((count (blockGetArena p) + 2 ^ 64 - 1) % 2 ^ 64)) ∧
      ∀ x, (heapPlacement Λ).Clear σ x → (x < p ∨ p + classSize i ≤ x) → x ≠ blockGetArena p + 16 →
        m'.word x = m.word x := by
  have hp : arenas.Block i p := hblock i p (hx ▸ List.mem_cons_self)
  have ha := (hp.bounds hv).2.1
  obtain ⟨m₁, hpop, hl₁, ho₁⟩ := h.lists.popFront_cons hx
  have h₁ := h.of_outside hv ⟨hl₁, ho₁⟩
  have hnot : ∀ k, p ∉ Function.update σ i xs k := by
    intro k hk
    by_cases hki : k = i
    · have hnd := h.lists.nodup i
      rw [hki, Function.update_self] at hk
      rw [hx, List.nodup_cons] at hnd
      exact hnd.1 hk
    · rw [Function.update_of_ne hki] at hk
      exact hki ((hblock k p hk).class_eq hv hp)
  have hblock' : ∀ k, ∀ q ∈ Function.update σ i xs k, arenas.Block k q := by
    intro k q hq
    by_cases hki : k = i
    · rw [hki, Function.update_self] at hq
      exact hki ▸ hblock i q (hx ▸ List.mem_cons_of_mem _ hq)
    · rw [Function.update_of_ne hki] at hq
      exact hblock k q hq
  have h₂ := h₁.zeroBlock hv hp hblock' hnot
  have hfl : listPopFront m (freeList (heapDesc Λ i)) = (m₁, p) := hpop
  refine ⟨_, ?_, h₂.setCount hv ha _, fun x hc hxp hxa => ?_⟩
  · obtain ⟨h₃, -, h₅⟩ := h₂.header _ _ ha
    unfold Dunkos.takeBlock
    rw [hfl]
    dsimp only
    rw [(h₁.desc i).1, if_pos h₃, h₅]
  · have hzero : (m₁.zero p (classSize i)).word x = m₁.word x := if_neg (by omega)
    have hpopx : (listPopFront m (freeList (heapDesc Λ i))).1.word x = m.word x := hc.popFront h.lists hx
    rw [hfl] at hpopx
    rw [WordMem.set_of_ne _ _ hxa, hzero, hpopx]

/-- An arena given back. -/
theorem drop (h : HeapWords Λ m arenas σ count) (a : ℕ) :
    HeapWords Λ m (Function.update arenas a none) σ count := by
  refine ⟨h.desc, h.lists, fun b k hb => ?_⟩
  by_cases hba : b = a
  · rw [hba, Function.update_self] at hb
    cases hb
  · rw [Function.update_of_ne hba] at hb
    exact h.header b k hb

/-- The blocks of an arena are taken off the list one by one. -/
theorem removeBlocks (h : HeapWords Λ m arenas σ count) (hv : arenas.Valid) (ha : arenas a = some i)
    (hall : ∀ j, j < classBlocks i → classBlock i a j ∈ σ i) :
    HeapWords Λ (forBlocks (fun m b => listRemove m (freeList (heapDesc Λ i)) b) a (classBlocks i) 0 m) arenas
      (Function.update σ i ((σ i).filter (fun p => p ∉ arenaBlocks i a (classBlocks i)))) count ∧
    ∀ x, (heapPlacement Λ).Clear σ x →
      (forBlocks (fun m b => listRemove m (freeList (heapDesc Λ i)) b) a (classBlocks i) 0 m).word x = m.word x := by
  -- after `j` rounds the first `j` blocks are off the list
  have key := @forBlocks_rule (fun j m' => HeapWords Λ m' arenas
        (Function.update σ i ((σ i).filter (fun p => p ∉ arenaBlocks i a j))) count ∧
      ∀ x, (heapPlacement Λ).Clear σ x → m'.word x = m.word x)
    (fun m b => listRemove m (freeList (heapDesc Λ i)) b) a (classBlocks i) 0 m ?_ ?_
  · rwa [Nat.zero_add] at key
  · have hfilter : (σ i).filter (fun p => p ∉ arenaBlocks i a 0) = σ i := by
      rw [List.filter_eq_self]
      intro p _
      simp [arenaBlocks]
    rw [hfilter, Function.update_eq_self]
    exact ⟨h, fun _ _ => rfl⟩
  · rintro j m' - hj ⟨hI, hout⟩
    rw [Nat.zero_add] at hj
    rw [hI.arenaGetBlock_eq ha]
    have hmem : classBlock i a j ∈ Function.update σ i ((σ i).filter (fun p => p ∉ arenaBlocks i a j)) i := by
      rw [Function.update_self, List.mem_filter, decide_eq_true_iff, mem_arenaBlocks]
      refine ⟨hall j hj, ?_⟩
      rintro ⟨l, hl, he⟩
      have := classBlock_inj he
      omega
    have hrem := hI.lists.remove hmem
    have hfilter : ((σ i).filter (fun p => p ∉ arenaBlocks i a j)).erase (classBlock i a j) =
        (σ i).filter (fun p => p ∉ arenaBlocks i a (j + 1)) := by
      rw [((h.lists.nodup i).filter _).erase_eq_filter, List.filter_filter]
      refine List.filter_congr fun p _ => ?_
      rw [arenaBlocks_succ, Bool.eq_iff_iff]
      simp [and_comm]
    rw [Function.update_self, Function.update_idem, hfilter] at hrem
    refine ⟨hI.of_outside hv hrem, fun x hx => ?_⟩
    have hclear : (heapPlacement Λ).Clear (Function.update σ i ((σ i).filter (fun p => p ∉ arenaBlocks i a j))) x :=
      hx.update fun q hq => hx.node i q (List.mem_filter.mp hq).1
    exact (hclear.remove hI.lists hmem).trans (hout x hx)

/-- `kfree` of a block whose arena is free otherwise: all its blocks leave the list, and nothing but
links and the header is written. -/
theorem kfree_last (h : HeapWords Λ m arenas σ count) (hv : arenas.Valid) (hp : arenas.Block i p)
    (hblock : ∀ q ∈ σ i, arenas.Block i q) (hn : ∀ k, p ∉ σ k)
    (hcount : count (blockGetArena p) + 1 = classBlocks i)
    (hall : ∀ j, j < classBlocks i → classBlock i (blockGetArena p) j ≠ p →
      classBlock i (blockGetArena p) j ∈ σ i) :
    ∃ m' count', kfree m p = (m', some (blockGetArena p)) ∧
      HeapWords Λ m' (Function.update arenas (blockGetArena p) none)
        (Function.update σ i ((σ i).filter (fun q => blockGetArena q ≠ blockGetArena p))) count' ∧
      (∀ b, b ≠ blockGetArena p → count' b = count b) ∧
      ∀ x, (heapPlacement Λ).Clear σ x → (x < p ∨ p + 16 ≤ x) → x ≠ blockGetArena p + 16 →
        m'.word x = m.word x := by
  obtain ⟨hhigh, ha, -, -, -⟩ := hp.bounds hv
  have hp₀ : p ≠ 0 := by
    unfold physBase at hhigh
    omega
  have hsmall : ∀ k : Fin 16, classBlocks k < 2 ^ 64 := by decide
  obtain ⟨-, hd, hc⟩ := h.header _ _ ha
  have h₁ := h.of_outside hv (h.lists.pushBack i (hp.heapNode hv) hn)
  obtain ⟨-, hd₁, hc₁⟩ := h₁.header _ _ ha
  have h₂ := h₁.setCount hv ha (classBlocks i)
  have hmod : (count (blockGetArena p) + 1) % 2 ^ 64 = classBlocks i := by
    rw [hcount, Nat.mod_eq_of_lt (hsmall i)]
  have hfl : (heapPlacement Λ).loc i = freeList (heapDesc Λ i) := rfl
  rw [hfl] at h₁ h₂ hc₁
  have hall' : ∀ j, j < classBlocks i → classBlock i (blockGetArena p) j ∈
      Function.update σ i (σ i ++ [p]) i := by
    intro j hj
    rw [Function.update_self, List.mem_append, List.mem_singleton]
    by_cases hjp : classBlock i (blockGetArena p) j = p
    · exact .inr hjp
    · exact .inl (hall j hj hjp)
  obtain ⟨h₃, hout⟩ := h₂.removeBlocks hv ha hall'
  replace h₃ := h₃.drop (blockGetArena p)
  have hfilter : (σ i ++ [p]).filter (fun q => q ∉ arenaBlocks i (blockGetArena p) (classBlocks i)) =
      (σ i).filter (fun q => blockGetArena q ≠ blockGetArena p) := by
    rw [Arenas.filter_blocks hv ha, List.filter_append]
    · simp
    · intro q hq
      rw [List.mem_append, List.mem_singleton] at hq
      exact hq.elim (hblock q) fun h => h ▸ hp
  rw [Function.update_self, Function.update_idem, hfilter] at h₃
  refine ⟨_, _, ?_, h₃, fun b hb => Function.update_of_ne hb _ _, fun x hx hxp hxa => ?_⟩
  · obtain ⟨-, -, hc₂⟩ := h₂.header _ _ ha
    rw [Function.update_self] at hc₂
    unfold kfree
    rw [if_neg hp₀]
    dsimp only
    rw [hd, hc₁, hmod, hc₂, (h₂.desc i).2, if_pos rfl]
  · have hclear : (heapPlacement Λ).Clear (Function.update σ i (σ i ++ [p])) x := by
      refine hx.update fun q hq => ?_
      rw [List.mem_append, List.mem_singleton] at hq
      rcases hq with hq | rfl
      · exact hx.node i q hq
      · exact hxp
    rw [hout x hclear, WordMem.set_of_ne _ _ hxa]
    exact hx.pushBack h.lists (hp.heapNode hv) hn hxp

end HeapWords

/-! ### Free blocks and live blocks -/

/-- The number of blocks of the arena `a` among `xs`. -/
def freeIn (xs : List ℕ) (a : ℕ) : ℕ := xs.countP (fun p => blockGetArena p = a)

theorem freeIn_cons (p : ℕ) (xs : List ℕ) (a : ℕ) :
    freeIn (p :: xs) a = freeIn xs a + if blockGetArena p = a then 1 else 0 := by
  unfold freeIn
  rw [List.countP_cons]
  simp

/-- All blocks of one arena are blocks of this arena. -/
theorem freeIn_arenaBlocks {i : Fin 16} {page : ℕ} (hal : page % pageSize = 0) (a : ℕ) :
    freeIn (arenaBlocks i page (classBlocks i)) a = if a = page then classBlocks i else 0 := by
  have hpage : ∀ p ∈ arenaBlocks i page (classBlocks i), blockGetArena p = page := by
    intro p hp
    obtain ⟨j, hj, rfl⟩ := mem_arenaBlocks.mp hp
    exact blockGetArena_classBlock hal hj
  unfold freeIn
  split_ifs with ha
  · rw [List.countP_eq_length.mpr fun p hp => by rw [hpage p hp, ha, decide_eq_true rfl]]
    simp [arenaBlocks]
  · rw [List.countP_eq_zero]
    intro p hp
    rw [hpage p hp, decide_eq_true_iff]
    exact Ne.symm ha

/-- Blocks of other arenas are not counted. -/
theorem freeIn_filter (xs : List ℕ) {a b : ℕ} (hne : b ≠ a) :
    freeIn (xs.filter (fun p => blockGetArena p ≠ a)) b = freeIn xs b := by
  unfold freeIn
  rw [List.countP_filter]
  refine List.countP_congr fun p _ => ?_
  simp only [decide_eq_true_eq, Bool.and_eq_true, and_iff_left_iff_imp]
  rintro rfl
  exact hne

/-- Every block of a current arena is either free, and on the list of its class, or live. -/
structure HeapShape (arenas : Arenas) (σ : Fin 16 → List ℕ) (live : List Extent) : Prop where
  valid : arenas.Valid
  free : ∀ i p, p ∈ σ i ↔ arenas.Block i p ∧ ∀ e ∈ live, e.start ≠ p
  owner : ∀ e ∈ live, ∃ i, arenas.Block i e.start ∧ e.len = classSize i
  nodup : (live.map Extent.start).Nodup

namespace HeapShape
variable {arenas : Arenas} {σ : Fin 16 → List ℕ} {live : List Extent} {i : Fin 16} {a p : ℕ}

theorem block (h : HeapShape arenas σ live) : ∀ k, ∀ q ∈ σ k, arenas.Block k q :=
  fun k q hq => ((h.free k q).mp hq).1

/-- No block of a page that is not an arena is free or live. -/
theorem not_fresh (h : HeapShape arenas σ live) (hf : arenas.Fresh a) {k : Fin 16} {q : ℕ}
    (hq : arenas.Block k q) : blockGetArena q ≠ a := by
  intro hqa
  have := (hq.bounds h.valid).2.1
  rw [hqa, hf.unused] at this
  cases this

/-- A live block has no links of a free one in it, -/
theorem clear (h : HeapShape arenas σ live) (Λ : HeapLayout) {e : Extent} (he : e ∈ live) {x : ℕ}
    (hx : e.Covers x) : (heapPlacement Λ).Clear σ x := by
  unfold Extent.Covers at hx
  obtain ⟨k, hk, hlen⟩ := h.owner e he
  have hhigh := (hk.bounds h.valid).1
  refine heapPlacement_clear Λ (by omega) fun l q hq => ?_
  obtain ⟨hb, hlive⟩ := (h.free l q).mp hq
  have hapart := hk.apart h.valid hb (hlive e he)
  have h16 := ((class_facts l).2.2.2.2 (h.valid _ _ (hb.bounds h.valid).2.1).2.2).2
  omega

/-- no header of an arena, -/
theorem off_header (h : HeapShape arenas σ live) {e : Extent} (he : e ∈ live) {x : ℕ} (hx : e.Covers x)
    (hal : a % pageSize = 0) : x < a ∨ a + heapArenaSize ≤ x := by
  unfold Extent.Covers at hx
  obtain ⟨k, hk, hlen⟩ := h.owner e he
  obtain ⟨-, -, hlow, hend, -⟩ := hk.bounds h.valid
  unfold blockGetArena at hlow hend
  unfold pageSize at *
  unfold heapArenaSize at *
  omega

/-- and no word of a page that is not an arena. -/
theorem off_page (h : HeapShape arenas σ live) {e : Extent} (he : e ∈ live) {x : ℕ} (hx : e.Covers x)
    (hf : arenas.Fresh a) : x < a ∨ a + pageSize ≤ x := by
  unfold Extent.Covers at hx
  obtain ⟨k, hk, hlen⟩ := h.owner e he
  obtain ⟨-, -, hlow, hend, -⟩ := hk.bounds h.valid
  have hne := h.not_fresh hf hk
  have hal := hf.aligned
  unfold blockGetArena at hlow hend hne
  unfold pageSize at *
  omega

theorem apart (h : HeapShape arenas σ live) : live.Pairwise Extent.Apart := by
  have hstart := List.pairwise_map.mp h.nodup
  refine hstart.imp_of_mem ?_
  intro e e' he he' hne
  obtain ⟨k, hk, hlen⟩ := h.owner e he
  obtain ⟨l, hl, hlen'⟩ := h.owner e' he'
  have := hk.apart h.valid hl hne
  rw [← hlen, ← hlen'] at this
  rcases this with h₁ | h₁
  · exact Extent.apart_of_le h₁
  · exact (Extent.apart_of_le h₁).symm

theorem grow (h : HeapShape arenas σ live) (hf : arenas.Fresh a) (hi : i ≠ 0) (hempty : σ i = []) :
    HeapShape (Function.update arenas a (some i))
      (Function.update σ i (arenaBlocks i a (classBlocks i))) live := by
  refine ⟨h.valid.update hf hi, fun k p => ?_, fun e he => ?_, h.nodup⟩
  · rw [Arenas.block_update hf]
    by_cases hki : k = i
    · subst hki
      rw [Function.update_self, mem_arenaBlocks]
      constructor
      · rintro ⟨j, hj, rfl⟩
        refine ⟨.inr ⟨rfl, j, hj, rfl⟩, fun e he hep => ?_⟩
        obtain ⟨l, hl, -⟩ := h.owner e he
        rw [hep] at hl
        exact h.not_fresh hf hl (blockGetArena_classBlock hf.aligned hj)
      · rintro ⟨hb | ⟨-, hj⟩, hlive⟩
        · have := (h.free k p).mpr ⟨hb, hlive⟩
          rw [hempty] at this
          cases this
        · exact hj
    · rw [Function.update_of_ne hki, h.free k p]
      simp [hki]
  · obtain ⟨k, hk, hlen⟩ := h.owner e he
    exact ⟨k, (Arenas.block_update hf).mpr (.inl hk), hlen⟩

theorem take (h : HeapShape arenas σ live) {xs : List ℕ} (hx : σ i = p :: xs) (hnd : (σ i).Nodup) :
    HeapShape arenas (Function.update σ i xs) (⟨p, classSize i⟩ :: live) := by
  have hp : p ∈ σ i := hx ▸ List.mem_cons_self
  obtain ⟨hb, hlive⟩ := (h.free i p).mp hp
  rw [hx, List.nodup_cons] at hnd
  refine ⟨h.valid, fun k q => ?_, ?_, ?_⟩
  · by_cases hki : k = i
    · subst hki
      have hq := h.free k q
      rw [hx, List.mem_cons] at hq
      rw [Function.update_self, List.forall_mem_cons]
      constructor
      · intro hmem
        obtain ⟨h₁, h₂⟩ := hq.mp (.inr hmem)
        exact ⟨h₁, (ne_of_mem_of_not_mem hmem hnd.1).symm, h₂⟩
      · rintro ⟨h₁, h₂, h₃⟩
        exact (hq.mpr ⟨h₁, h₃⟩).resolve_left (Ne.symm h₂)
    · rw [Function.update_of_ne hki, h.free k q, List.forall_mem_cons]
      constructor
      · rintro ⟨h₁, h₂⟩
        refine ⟨h₁, ?_, h₂⟩
        rintro rfl
        exact hki (h₁.class_eq h.valid hb)
      · exact fun ⟨h₁, _, h₂⟩ => ⟨h₁, h₂⟩
  · rw [List.forall_mem_cons]
    exact ⟨⟨i, hb, rfl⟩, h.owner⟩
  · rw [List.map_cons, List.nodup_cons]
    refine ⟨?_, h.nodup⟩
    intro hmem
    obtain ⟨e, he, hep⟩ := List.mem_map.mp hmem
    exact hlive e he hep

/-- All blocks of the arena but the live one `p` are free; the arena goes. -/
theorem release (h : HeapShape arenas σ live) (hp : arenas.Block i p)
    (hall : ∀ q, arenas.Block i q → blockGetArena q = blockGetArena p → q ≠ p → q ∈ σ i) :
    HeapShape (Function.update arenas (blockGetArena p) none)
      (Function.update σ i ((σ i).filter (fun q => blockGetArena q ≠ blockGetArena p)))
      (live.filter (fun e => e.start ≠ p)) := by
  refine ⟨h.valid.drop _, fun k q => ?_, fun e he => ?_, ?_⟩
  · rw [Arenas.block_drop h.valid]
    have hlive : (blockGetArena q ≠ blockGetArena p) → ((∀ e ∈ live.filter (fun e => e.start ≠ p), e.start ≠ q) ↔
        ∀ e ∈ live, e.start ≠ q) := by
      intro hne
      simp only [List.mem_filter, decide_eq_true_eq, and_imp]
      constructor
      · intro hall e he heq
        refine hall e he ?_ heq
        rw [heq]
        rintro rfl
        exact hne rfl
      · exact fun hall e he _ => hall e he
    by_cases hki : k = i
    · subst hki
      rw [Function.update_self, List.mem_filter, decide_eq_true_iff, h.free k q]
      constructor
      · rintro ⟨⟨h₁, h₂⟩, h₃⟩
        exact ⟨⟨h₁, h₃⟩, (hlive h₃).mpr h₂⟩
      · rintro ⟨⟨h₁, h₂⟩, h₃⟩
        exact ⟨⟨h₁, (hlive h₂).mp h₃⟩, h₂⟩
    · rw [Function.update_of_ne hki, h.free k q]
      constructor
      · rintro ⟨h₁, h₂⟩
        have hne : blockGetArena q ≠ blockGetArena p := by
          intro he
          exact hki (h₁.class_eq_of_arena h.valid hp he)
        exact ⟨⟨h₁, hne⟩, (hlive hne).mpr h₂⟩
      · rintro ⟨⟨h₁, h₂⟩, h₃⟩
        exact ⟨h₁, (hlive h₂).mp h₃⟩
  · rw [List.mem_filter, decide_eq_true_iff] at he
    obtain ⟨k, hk, hlen⟩ := h.owner e he.1
    refine ⟨k, (Arenas.block_drop h.valid).mpr ⟨hk, ?_⟩, hlen⟩
    intro hpage
    obtain rfl := hk.class_eq_of_arena h.valid hp hpage
    exact ((h.free k _).mp (hall _ hk hpage he.2)).2 e he.1 rfl
  · exact h.nodup.sublist (List.filter_sublist.map _)

/-- The free blocks of an arena are among its blocks. -/
theorem filter_subset (h : HeapShape arenas σ live) (i : Fin 16) (a : ℕ) :
    (σ i).filter (fun q => blockGetArena q = a) ⊆ arenaBlocks i a (classBlocks i) := by
  intro q hq
  rw [List.mem_filter, decide_eq_true_iff] at hq
  have hb := h.block i q hq.1
  have ha := (hb.bounds h.valid).2.1
  rw [hq.2] at ha
  exact (Arenas.mem_blocks h.valid ha).mpr ⟨hb, hq.2⟩

theorem freeIn_le (h : HeapShape arenas σ live) (a : ℕ) (hnd : (σ i).Nodup) :
    freeIn (σ i) a ≤ classBlocks i := by
  have := (List.subperm_of_subset (hnd.filter _) (h.filter_subset i a)).length_le
  rw [← List.countP_eq_length_filter] at this
  unfold freeIn
  simpa [arenaBlocks] using this

/-- When the header counts all blocks of an arena but one as free, all but the live one are. -/
theorem all_free (h : HeapShape arenas σ live) (hp : arenas.Block i p) (hlive : ∃ e ∈ live, e.start = p)
    (hnd : (σ i).Nodup) (hcount : freeIn (σ i) (blockGetArena p) + 1 = classBlocks i) :
    ∀ q, arenas.Block i q → blockGetArena q = blockGetArena p → q ≠ p → q ∈ σ i := by
  have ha := (hp.bounds h.valid).2.1
  have hmem : ∀ q, arenas.Block i q → blockGetArena q = blockGetArena p →
      q ∈ arenaBlocks i (blockGetArena p) (classBlocks i) :=
    fun q hq he => (Arenas.mem_blocks h.valid ha).mpr ⟨hq, he⟩
  have hsub : (σ i).filter (fun q => blockGetArena q = blockGetArena p) ⊆
      (arenaBlocks i (blockGetArena p) (classBlocks i)).erase p := by
    intro q hq
    rw [(arenaBlocks_nodup _ _ _).mem_erase_iff]
    refine ⟨?_, h.filter_subset i _ hq⟩
    rintro rfl
    obtain ⟨e, he, heq⟩ := hlive
    exact ((h.free i q).mp (List.mem_filter.mp hq).1).2 e he heq
  -- the two lists have the same length, so they have the same members
  have hlen : ((arenaBlocks i (blockGetArena p) (classBlocks i)).erase p).length ≤
      ((σ i).filter (fun q => blockGetArena q = blockGetArena p)).length := by
    rw [List.length_erase_of_mem (hmem p hp rfl), ← List.countP_eq_length_filter]
    have : (arenaBlocks i (blockGetArena p) (classBlocks i)).length = classBlocks i := by simp [arenaBlocks]
    unfold freeIn at hcount
    omega
  have hperm := (List.subperm_of_subset (hnd.filter _) hsub).perm_of_length_le hlen
  intro q hq hqa hqp
  have := hperm.mem_iff.mpr ((List.mem_erase_of_ne hqp).mpr (hmem q hq hqa))
  exact (List.mem_filter.mp this).1

end HeapShape

/-! ### Runs -/

/-- The words of the blocks `live` are the same in `m'` as in `m`. -/
def Keeps (live : List Extent) (m m' : WordMem) : Prop := ∀ e ∈ live, ∀ x, e.Covers x → m'.word x = m.word x

theorem Keeps.refl (live : List Extent) (m : WordMem) : Keeps live m m := fun _ _ _ _ => rfl

theorem Keeps.trans {live : List Extent} {m m' m'' : WordMem} (h : Keeps live m m') (h' : Keeps live m' m'') :
    Keeps live m m'' :=
  fun e he x hx => (h' e he x hx).trans (h e he x hx)

/-- The memory, the arenas in use, and the blocks that `kmalloc` returned and that are still live. -/
structure HeapState where
  mem : WordMem
  arenas : Arenas
  live : List Extent

/-- A call, with the page and the stray value that `kmalloc` may come by, or a write by a client. -/
inductive HeapOp where
  | kmalloc (size page junk : ℕ)
  | kfree (p : ℕ)
  | write (x v : ℕ)

namespace HeapState

/-- The arenas after `kmalloc`: the page is one if the free list was empty. -/
def grown (s : HeapState) (size page : ℕ) : Arenas :=
  match findDesc Λ s.mem size with
  | none => s.arenas
  | some i =>
    if size ≠ 0 ∧ listEmpty s.mem (freeList (heapDesc Λ i)) = true then
      Function.update s.arenas page (some i)
    else s.arenas

/-- The live blocks after `kmalloc` returned `p`. -/
def allocated (s : HeapState) (size p : ℕ) : List Extent :=
  if p = 0 then s.live
  else ⟨p, (findDesc Λ s.mem size).elim size (fun i => s.mem.word (heapDesc Λ i))⟩ :: s.live

def step (s : HeapState) : HeapOp → Option HeapState
  | .kmalloc size page junk => (kmalloc Λ page junk s.mem size).map (fun r =>
      ⟨r.1, s.grown Λ size page, s.allocated Λ size r.2⟩)
  | .kfree p =>
    let r := kfree s.mem p
    some ⟨r.1, r.2.elim s.arenas (fun a => Function.update s.arenas a none),
      s.live.filter (fun e => e.start ≠ p)⟩
  | .write x v => some { s with mem := s.mem.set x v }

/-- What the callers and `page_allocate` promise: pages are fresh, what is freed is live, and clients
write to their own blocks. -/
def Promised (s : HeapState) : HeapOp → Prop
  | .kmalloc _ page _ => s.arenas.Fresh page
  | .kfree p => p = 0 ∨ ∃ e ∈ s.live, e.start = p
  | .write x _ => ∃ e ∈ s.live, e.start ≤ x ∧ x + 8 ≤ e.start + e.len

/-- The block is large enough for its links and not too large for the descriptors; the block freed is
the last of its arena that is not free. -/
def Fits (s : HeapState) : HeapOp → Prop
  | .kmalloc size _ _ => size = 0 ∨ 8 < size ∧ size ≤ 262144
  | .kfree p => p = 0 ∨ s.mem.word (blockGetArena p + 16) + 1 = s.mem.word (s.mem.word (blockGetArena p + 8) + 8)
  | .write _ _ => True

instance (s : HeapState) : ∀ op, Decidable (s.Promised op)
  | .kmalloc _ page _ => inferInstanceAs (Decidable (s.arenas.Fresh page))
  | .kfree p => inferInstanceAs (Decidable (p = 0 ∨ ∃ e ∈ s.live, e.start = p))
  | .write x _ => inferInstanceAs (Decidable (∃ e ∈ s.live, e.start ≤ x ∧ x + 8 ≤ e.start + e.len))

instance (s : HeapState) : ∀ op, Decidable (s.Fits op)
  | .kmalloc size _ _ => inferInstanceAs (Decidable (size = 0 ∨ 8 < size ∧ size ≤ 262144))
  | .kfree p => inferInstanceAs (Decidable (p = 0 ∨
      s.mem.word (blockGetArena p + 16) + 1 = s.mem.word (s.mem.word (blockGetArena p + 8) + 8)))
  | .write _ _ => inferInstanceAs (Decidable True)

/-- What the free lists, the headers and the live blocks are to be. -/
structure Sound (s : HeapState) : Prop where
  free : ∃ σ : Fin 16 → List ℕ, (∀ i, s.mem.HoldsAt (freeList (heapDesc Λ i)) (σ i)) ∧
    (∀ i p, p ∈ σ i ↔ s.arenas.Block i p ∧ ∀ e ∈ s.live, e.start ≠ p) ∧
    ∀ a i, s.arenas a = some i → s.mem.word (a + 16) = freeIn (σ i) a
  apart : s.live.Pairwise Extent.Apart

/-- The invariant of every run. -/
def Inv (s : HeapState) : Prop := ∃ σ count, HeapWords Λ s.mem s.arenas σ count ∧
  HeapShape s.arenas σ s.live ∧ ∀ a i, s.arenas a = some i → count a = freeIn (σ i) a

variable {Λ} {s : HeapState}

theorem Inv.sound (h : Inv Λ s) : Sound Λ s := by
  obtain ⟨σ, count, hw, hs, hc⟩ := h
  refine ⟨⟨σ, hw.lists.holdsAt, hs.free, fun a i ha => ?_⟩, hs.apart⟩
  rw [(hw.header a i ha).2.2, hc a i ha]

theorem Inv.grow (h : Inv Λ s) {i : Fin 16} (hi : i ≠ 0) {page : ℕ} (hf : s.arenas.Fresh page)
    (hempty : listEmpty s.mem (freeList (heapDesc Λ i)) = true) :
    Inv Λ ⟨growHeap s.mem (heapDesc Λ i) page, Function.update s.arenas page (some i), s.live⟩ ∧
      ¬ listEmpty (growHeap s.mem (heapDesc Λ i) page) (freeList (heapDesc Λ i)) = true ∧
      Keeps s.live s.mem (growHeap s.mem (heapDesc Λ i) page) := by
  obtain ⟨σ, count, hw, hs, hc⟩ := h
  have hx : σ i = [] := (hw.lists.listEmpty_iff i).mp hempty
  have hfree : ∀ k, ∀ p ∈ σ k, blockGetArena p ≠ page := fun k p hp => hs.not_fresh hf (hs.block k p hp)
  obtain ⟨hw', hout⟩ := hw.grow hs.valid hi hf hfree hx
  have hne : ¬ listEmpty (growHeap s.mem (heapDesc Λ i) page) (freeList (heapDesc Λ i)) = true := by
    intro he
    have hnil := (hw'.lists.listEmpty_iff i).mp he
    have hmem : classBlock i page 0 ∈ arenaBlocks i page (classBlocks i) :=
      mem_arenaBlocks.mpr ⟨0, (class_facts i).2.2.1, rfl⟩
    rw [Function.update_self] at hnil
    rw [hnil] at hmem
    cases hmem
  refine ⟨⟨_, _, hw', hs.grow hf hi hx, fun a k ha => ?_⟩, hne,
    fun e he x hex => hout x (hs.clear Λ he hex) (hs.off_page he hex hf)⟩
  dsimp only at ha
  by_cases hap : a = page
  · subst hap
    rw [Function.update_self, Option.some.injEq] at ha
    subst ha
    rw [Function.update_self, Function.update_self, freeIn_arenaBlocks hf.aligned, if_pos rfl]
  · rw [Function.update_of_ne hap] at ha
    rw [Function.update_of_ne hap, hc a k ha]
    by_cases hki : k = i
    · rw [hki, Function.update_self, freeIn_arenaBlocks hf.aligned, if_neg hap, hx]
      rfl
    · rw [Function.update_of_ne hki]

theorem Inv.take (h : Inv Λ s) {i : Fin 16} (hne : ¬ listEmpty s.mem (freeList (heapDesc Λ i)) = true) :
    ∃ m p, takeBlock s.mem (heapDesc Λ i) = some (m, p) ∧ p ≠ 0 ∧
      Inv Λ ⟨m, s.arenas, ⟨p, classSize i⟩ :: s.live⟩ ∧ Keeps s.live s.mem m := by
  obtain ⟨σ, count, hw, hs, hc⟩ := h
  obtain ⟨p, xs, hx⟩ := List.exists_cons_of_ne_nil fun hx => hne ((hw.lists.listEmpty_iff i).mpr hx)
  have hp : s.arenas.Block i p := hs.block i p (hx ▸ List.mem_cons_self)
  have hnd := hw.lists.nodup i
  obtain ⟨m, hm, hw', hout⟩ := hw.takeBlock hs.valid hs.block hx
  obtain ⟨hhigh, harena, -⟩ := hp.bounds hs.valid
  refine ⟨m, p, hm, ?_, ⟨_, _, hw', hs.take hx hnd, fun a k ha => ?_⟩, fun e he x hex => ?_⟩
  · unfold physBase at hhigh
    omega
  · have hca := hc a k ha
    by_cases hki : k = i
    · subst hki
      rw [Function.update_self]
      rw [hx, freeIn_cons] at hca
      by_cases hap : a = blockGetArena p
      · subst hap
        have hle := hs.freeIn_le (blockGetArena p) hnd
        have hsmall : ∀ k : Fin 16, classBlocks k < 2 ^ 64 := by decide
        have := hsmall k
        rw [if_pos rfl] at hca
        rw [hx, freeIn_cons, if_pos rfl] at hle
        rw [Function.update_self, hca]
        omega
      · rw [Function.update_of_ne hap, hca, if_neg (Ne.symm hap), Nat.add_zero]
    · have hap : a ≠ blockGetArena p := by
        rintro rfl
        rw [harena, Option.some.injEq] at ha
        exact hki ha.symm
      rw [Function.update_of_ne hki, Function.update_of_ne hap, hca]
  · have hclear := hs.clear Λ he hex
    have hhead := hs.off_header he hex (hs.valid _ _ harena).2.1
    obtain ⟨l, hl, hlen⟩ := hs.owner e he
    have hapart := hl.apart hs.valid hp (((hs.free i p).mp (hx ▸ List.mem_cons_self)).2 e he)
    unfold Extent.Covers at hex
    unfold heapArenaSize at hhead
    exact hout x hclear (by omega) (by omega)

/-- The descriptor found is not the first one. -/
theorem Inv.findDesc (h : Inv Λ s) {size : ℕ} (h₁ : 8 < size) (h₂ : size ≤ 262144) :
    ∃ i, findDesc Λ s.mem size = some i ∧ i ≠ 0 ∧ s.mem.word (heapDesc Λ i) = classSize i := by
  obtain ⟨σ, count, hw, -⟩ := h
  have hsome : (Dunkos.findDesc Λ s.mem size).isSome := by
    rw [Dunkos.findDesc, List.find?_isSome]
    refine ⟨15, List.mem_finRange _, ?_⟩
    rw [(hw.desc 15).1, decide_eq_true_iff]
    exact h₂
  obtain ⟨i, hi⟩ := Option.isSome_iff_exists.mp hsome
  refine ⟨i, hi, ?_, (hw.desc i).1⟩
  rintro rfl
  have := List.find?_some hi
  rw [decide_eq_true_iff, (hw.desc 0).1] at this
  have h₈ : classSize 0 = 8 := by decide
  omega

/-- `kmalloc` of a size that has a descriptor. -/
theorem kmalloc_eq {m : WordMem} {size : ℕ} {i : Fin 16} (page junk : ℕ) (hne : size ≠ 0)
    (hd : Dunkos.findDesc Λ m size = some i) : kmalloc Λ page junk m size =
      if listEmpty m (freeList (heapDesc Λ i)) = true then
        if page = 0 then none else takeBlock (growHeap m (heapDesc Λ i) page) (heapDesc Λ i)
      else takeBlock m (heapDesc Λ i) := by
  unfold kmalloc
  rw [if_neg hne, hd]

theorem step_kmalloc {size page junk : ℕ} {m : WordMem} {p : ℕ} (hk : kmalloc Λ page junk s.mem size = some (m, p)) :
    s.step Λ (.kmalloc size page junk) = some ⟨m, s.grown Λ size page, s.allocated Λ size p⟩ := by
  unfold step
  dsimp only
  rw [hk, Option.map_some]

/-- `kmalloc` of a size that is served returns a new block of the class found, and keeps the others. -/
theorem Inv.kmalloc_block (h : Inv Λ s) {size page : ℕ} (junk : ℕ) (hf : s.arenas.Fresh page) (h₁ : 8 < size)
    (h₂ : size ≤ 262144) : ∃ m p i, Dunkos.kmalloc Λ page junk s.mem size = some (m, p) ∧ p ≠ 0 ∧
      Dunkos.findDesc Λ s.mem size = some i ∧ s.mem.word (heapDesc Λ i) = classSize i ∧
      Inv Λ ⟨m, s.grown Λ size page, ⟨p, classSize i⟩ :: s.live⟩ ∧ Keeps s.live s.mem m := by
  have hne : size ≠ 0 := by omega
  obtain ⟨i, hd, hi, hsz⟩ := h.findDesc h₁ h₂
  have hk := kmalloc_eq page junk hne hd
  rw [if_neg hf.ne_zero] at hk
  have hg : s.grown Λ size page = if listEmpty s.mem (freeList (heapDesc Λ i)) = true then
      Function.update s.arenas page (some i) else s.arenas := by
    unfold grown
    rw [hd]
    simp only [ne_eq, hne, not_false_eq_true, true_and]
  by_cases hempty : listEmpty s.mem (freeList (heapDesc Λ i)) = true
  · obtain ⟨hgrow, hgrow', hkeep⟩ := h.grow hi hf hempty
    obtain ⟨m, p, hm, hp, ht, hkeep'⟩ := hgrow.take hgrow'
    rw [if_pos hempty] at hk hg
    refine ⟨m, p, i, hk.trans hm, hp, hd, hsz, ?_, hkeep.trans hkeep'⟩
    rw [hg]
    exact ht
  · obtain ⟨m, p, hm, hp, ht, hkeep⟩ := h.take hempty
    rw [if_neg hempty] at hk hg
    refine ⟨m, p, i, hk.trans hm, hp, hd, hsz, ?_, hkeep⟩
    rw [hg]
    exact ht

theorem Inv.kmalloc (h : Inv Λ s) {size page : ℕ} (junk : ℕ) (hf : s.arenas.Fresh page)
    (hsize : size = 0 ∨ 8 < size ∧ size ≤ 262144) :
    ∃ t, s.step Λ (.kmalloc size page junk) = some t ∧ Inv Λ t ∧ Keeps s.live s.mem t.mem := by
  by_cases hne : size = 0
  · have hk : Dunkos.kmalloc Λ page junk s.mem size = some (s.mem, 0) := if_pos hne
    have hg : s.grown Λ size page = s.arenas := by
      unfold grown
      cases Dunkos.findDesc Λ s.mem size with
      | none => rfl
      | some i => exact if_neg fun hc => hc.1 hne
    refine ⟨_, step_kmalloc hk, ?_, .refl _ _⟩
    rw [hg]
    exact h
  · obtain ⟨h₁, h₂⟩ := hsize.resolve_left hne
    obtain ⟨m, p, i, hk, hp, hd, hsz, ht, hkeep⟩ := h.kmalloc_block junk hf h₁ h₂
    have hlive : s.allocated Λ size p = ⟨p, classSize i⟩ :: s.live := by
      unfold allocated
      rw [if_neg hp, hd, Option.elim_some, hsz]
    refine ⟨_, step_kmalloc hk, ?_, hkeep⟩
    rw [hlive]
    exact ht

theorem step_kfree {p : ℕ} {m : WordMem} {a : ℕ} (hk : kfree s.mem p = (m, some a)) :
    s.step Λ (.kfree p) =
      some ⟨m, Function.update s.arenas a none, s.live.filter (fun e => e.start ≠ p)⟩ := by
  unfold step
  dsimp only
  rw [hk, Option.elim_some]

theorem step_kfree_zero : s.step Λ (.kfree 0) =
    some { s with live := s.live.filter (fun e => e.start ≠ 0) } := rfl

theorem Inv.kfree (h : Inv Λ s) {p : ℕ} (hp : s.Promised (.kfree p)) (hfit : s.Fits (.kfree p)) :
    ∃ t, s.step Λ (.kfree p) = some t ∧ Inv Λ t ∧ Keeps t.live s.mem t.mem := by
  obtain ⟨σ, count, hw, hs, hc⟩ := h
  by_cases hp₀ : p = 0
  · subst hp₀
    have hlive : s.live.filter (fun e => e.start ≠ 0) = s.live := by
      rw [List.filter_eq_self]
      intro e he
      obtain ⟨i, hb, -⟩ := hs.owner e he
      have := (hb.bounds hs.valid).1
      rw [decide_eq_true_iff]
      unfold physBase at this
      omega
    refine ⟨_, step_kfree_zero, ?_, .refl _ _⟩
    rw [hlive]
    exact ⟨σ, count, hw, hs, hc⟩
  · obtain ⟨e, he, hep⟩ := hp.resolve_left hp₀
    obtain ⟨i, hb, -⟩ := hs.owner e he
    rw [hep] at hb
    obtain ⟨-, ha, -⟩ := hb.bounds hs.valid
    have hcount : count (blockGetArena p) + 1 = classBlocks i := by
      have := hfit.resolve_left hp₀
      rwa [(hw.header _ _ ha).2.2, (hw.header _ _ ha).2.1, (hw.desc i).2] at this
    have hn : ∀ k, p ∉ σ k := fun k hk => ((hs.free k p).mp hk).2 e he hep
    have hall := hs.all_free hb ⟨e, he, hep⟩ (hw.lists.nodup i) (hc _ _ ha ▸ hcount)
    have hal := (hs.valid _ _ ha).2.1
    obtain ⟨m, count', hm, hw', hcount', hout⟩ := hw.kfree_last hs.valid hb (hs.block i) hn hcount
      fun j hj hne => hall _ ⟨_, j, ha, hj, rfl⟩ (blockGetArena_classBlock hal hj) hne
    refine ⟨_, step_kfree hm, ⟨_, _, hw', hs.release hb hall, fun a k hak => ?_⟩, fun e' he' x hex => ?_⟩
    · dsimp only at hak
      have hne : a ≠ blockGetArena p := by
        rintro rfl
        rw [Function.update_self] at hak
        cases hak
      rw [Function.update_of_ne hne] at hak
      rw [hcount' a hne, hc a k hak]
      by_cases hki : k = i
      · rw [hki, Function.update_self, freeIn_filter _ hne]
      · rw [Function.update_of_ne hki]
    · rw [List.mem_filter, decide_eq_true_iff] at he'
      have hclear := hs.clear Λ he'.1 hex
      have hhead := hs.off_header he'.1 hex hal
      obtain ⟨l, hl, hlen⟩ := hs.owner e' he'.1
      have hapart := hl.apart hs.valid hb he'.2
      have h16 := ((class_facts i).2.2.2.2 (hs.valid _ _ ha).2.2).2
      unfold Extent.Covers at hex
      unfold heapArenaSize at hhead
      exact hout x hclear (by omega) (by omega)

theorem Inv.write (h : Inv Λ s) {x : ℕ} (hx : s.Promised (.write x 0)) (v : ℕ) :
    Inv Λ { s with mem := s.mem.set x v } := by
  obtain ⟨σ, count, hw, hs, hc⟩ := h
  obtain ⟨e, he, h₁, h₂⟩ := hx
  have hcov : e.Covers x := ⟨h₁, by omega⟩
  obtain ⟨i, hb, -⟩ := hs.owner e he
  have hhigh := (hb.bounds hs.valid).1
  refine ⟨σ, count, hw.congr ?_ ?_ ?_, hs, hc⟩
  · intro y hy
    exact WordMem.set_of_ne _ _ (by omega)
  · intro k q hq y h₃ h₄
    have hlinks := (hs.clear Λ he hcov).node k q hq
    exact WordMem.set_of_ne _ _ (by omega)
  · intro a k ha y h₃ h₄
    have hhead := hs.off_header he hcov (hs.valid a k ha).2.1
    exact WordMem.set_of_ne _ _ (by omega)

/-- What the words of a descriptor say after `init_heap`. -/
def InitDesc (Λ : HeapLayout) (m : WordMem) (i : Fin 16) : Prop :=
  (m.word (heapDesc Λ i) = classSize i ∧ m.word (heapDesc Λ i + 8) = classBlocks i) ∧
    m.word (heapDesc Λ i + 16) = 0 ∧ m.word (heapDesc Λ i + 24) = heapDesc Λ i + 32 ∧
    m.word (heapDesc Λ i + 32) = heapDesc Λ i + 16 ∧ m.word (heapDesc Λ i + 40) = 0 ∧
    m.word (heapDesc Λ i + 48) = 0

/-- One round of `init_heap`, write by write. -/
theorem initHeapDesc_eq (m : WordMem) (i : Fin 16) : initHeapDesc Λ m i =
    ((((((m.set (heapDesc Λ i) (classSize i)).set (heapDesc Λ i + 8) (classBlocks i)).set
      (heapDesc Λ i + 16) 0).set (heapDesc Λ i + 24) (heapDesc Λ i + 32)).set
      (heapDesc Λ i + 32) (heapDesc Λ i + 16)).set (heapDesc Λ i + 40) 0).set (heapDesc Λ i + 48) 0 := rfl

/-- A round writes to its own descriptor only. -/
theorem initHeapDesc_of_ne (m : WordMem) (i : Fin 16) {x : ℕ}
    (hx : x < heapDesc Λ i ∨ heapDesc Λ i + heapDescSize ≤ x) : (initHeapDesc Λ m i).word x = m.word x := by
  unfold heapDescSize at hx
  rw [initHeapDesc_eq]
  iterate 7 rw [WordMem.set_of_ne _ _ (by omega)]

theorem initDesc_own (m : WordMem) (i : Fin 16) : InitDesc Λ (initHeapDesc Λ m i) i := by
  unfold InitDesc
  rw [initHeapDesc_eq]
  simp [WordMem.set]

theorem initDesc_keep (m : WordMem) (i k : Fin 16) (h : InitDesc Λ m i) : InitDesc Λ (initHeapDesc Λ m k) i := by
  by_cases hik : k = i
  · exact hik ▸ initDesc_own m k
  · have hout : ∀ x, heapDesc Λ i ≤ x → x < heapDesc Λ i + heapDescSize →
        (initHeapDesc Λ m k).word x = m.word x := by
      intro x h₁ h₂
      have : k.val ≠ i.val := fun hc => hik (Fin.ext hc)
      apply initHeapDesc_of_ne
      unfold heapDesc heapDescSize at *
      omega
    unfold heapDescSize at hout
    unfold InitDesc
    iterate 7 rw [hout _ (by omega) (by omega)]
    exact h

theorem initDesc_initHeap (Λ : HeapLayout) (m : WordMem) (i : Fin 16) : InitDesc Λ (initHeap Λ m) i :=
  Transition.foldl_establish (f := initHeapDesc Λ) initDesc_own (fun m i k => initDesc_keep m i k)
    (.inl (List.mem_finRange i))

/-- After `init_heap` there is no arena, and no free block. -/
theorem inv_init (Λ : HeapLayout) (m : WordMem) : Inv Λ ⟨initHeap Λ m, fun _ => none, []⟩ := by
  have hinit := initDesc_initHeap Λ m
  refine ⟨fun _ => [], fun _ => 0, ⟨fun i => (hinit i).1, Lists.of_init fun i => (hinit i).2, ?_⟩, ?_, ?_⟩
  · intro a i ha
    cases ha
  · refine ⟨fun a i ha => ?_, fun i p => ⟨fun hp => ?_, ?_⟩, fun e he => ?_, List.nodup_nil⟩
    · cases ha
    · cases hp
    · rintro ⟨⟨a, j, ha, -⟩, -⟩
      cases ha
    · cases he
  · intro a i ha
    cases ha

/-- Every call that fits returns, and keeps the invariant. -/
theorem inv_step (h : Inv Λ s) {op : HeapOp} (hok : s.Promised op) (hfit : s.Fits op) :
    ∃ t, s.step Λ op = some t ∧ Inv Λ t := by
  cases op with
  | kmalloc size page junk =>
      obtain ⟨t, ht, hinv, -⟩ := h.kmalloc junk hok hfit
      exact ⟨t, ht, hinv⟩
  | kfree p =>
      obtain ⟨t, ht, hinv, -⟩ := h.kfree hok hfit
      exact ⟨t, ht, hinv⟩
  | write x v => exact ⟨_, rfl, h.write hok v⟩

theorem inv_of_reach {m : WordMem} (h : Transition.Reach (step Λ) (fun s op => s.Promised op ∧ s.Fits op)
    ⟨initHeap Λ m, fun _ => none, []⟩ s) : Inv Λ s :=
  h.invariant (inv_init Λ m) fun s op t hs hop ht => by
    obtain ⟨t', ht', hinv⟩ := inv_step hs hop.1 hop.2
    rw [ht', Option.some.injEq] at ht
    exact ht ▸ hinv

end HeapState

/-- **The heap hands out blocks once.**  In every run from `init_heap` in which the callers keep their
promises and every call fits, the free list of each descriptor holds each block of its arenas that is
not live, once, and nothing else, the headers count these blocks, and live blocks do not overlap; the
next call that fits returns. -/
theorem heap_sound_of_fits {Λ : HeapLayout} {m : WordMem} {s : HeapState}
    (h : Transition.Reach (HeapState.step Λ) (fun s op => s.Promised op ∧ s.Fits op)
      ⟨initHeap Λ m, fun _ => none, []⟩ s) :
    HeapState.Sound Λ s ∧ ∀ op, s.Promised op → s.Fits op → (s.step Λ op).isSome := by
  have hinv := HeapState.inv_of_reach h
  refine ⟨hinv.sound, fun op hok hfit => ?_⟩
  obtain ⟨t, ht, -⟩ := HeapState.inv_step hinv hok hfit
  rw [ht, Option.isSome_some]

/-- A page becomes an arena, is given back with its only live block, and becomes an arena once more. -/
theorem heap_sound_of_fits_again :
    let Λ : HeapLayout := ⟨0x200000, by decide⟩
    let page := physBase + reservedEnd
    let p := page + heapArenaSize
    ∃ s, Transition.runs (HeapState.step Λ) (fun s op => s.Promised op ∧ s.Fits op)
        ⟨initHeap Λ ⟨fun _ => 0⟩, fun _ => none, []⟩
        [.kmalloc 262144 page 0, .write p 5, .kfree p, .kmalloc 200000 page 0] = some s ∧
      HeapState.Sound Λ s ∧ s.live = [⟨p, 262144⟩] := by
  intro Λ page p
  have hlive : (Transition.runs (HeapState.step Λ) (fun s op => s.Promised op ∧ s.Fits op)
      ⟨initHeap Λ ⟨fun _ => 0⟩, fun _ => none, []⟩
      [.kmalloc 262144 page 0, .write p 5, .kfree p, .kmalloc 200000 page 0]).map HeapState.live =
        some [⟨p, 262144⟩] := by
    decide +kernel
  obtain ⟨s, hs, hl⟩ := Option.map_eq_some_iff.mp hlive
  exact ⟨s, hs, (heap_sound_of_fits (.of_runs hs)).1, hl⟩

/-- All seven blocks of a page are handed out, the first one is freed, and so is on the list twice.
It is handed out, its new owner keeps two pointers in it, and it is handed out again. -/
theorem kmalloc_same_block_twice :
    let Λ : HeapLayout := ⟨0x200000, by decide⟩
    let page := physBase + reservedEnd
    let p := page + heapArenaSize
    ∃ s, Transition.Reach (HeapState.step Λ) HeapState.Promised
        ⟨initHeap Λ ⟨fun _ => 0⟩, fun _ => none, []⟩ s ∧
      s.live.take 2 = [⟨p, 262144⟩, ⟨p, 262144⟩] ∧ ¬ HeapState.Sound Λ s := by
  intro Λ page p
  let next := page + pageSize
  let q := p + 262144
  have hlive : (Transition.runs (HeapState.step Λ) HeapState.Promised
      ⟨initHeap Λ ⟨fun _ => 0⟩, fun _ => none, []⟩
      (.kmalloc 262144 page 0 :: (List.replicate 6 (.kmalloc 262144 next 0) ++
        [.kfree p, .kmalloc 262144 next 0, .write p q, .write (p + 8) q, .kmalloc 262144 next 0]))).map
        (fun s => s.live.take 2) = some [⟨p, 262144⟩, ⟨p, 262144⟩] := by
    decide +kernel
  obtain ⟨s, hs, hl⟩ := Option.map_eq_some_iff.mp hlive
  refine ⟨s, .of_runs hs, hl, fun hsound => ?_⟩
  have hapart : (s.live.take 2).Pairwise Extent.Apart := hsound.apart.sublist (List.take_sublist _ _)
  rw [hl, List.pairwise_pair] at hapart
  exact hapart p ⟨Nat.le_refl _, Nat.lt_add_of_pos_right (by decide)⟩
    ⟨Nat.le_refl _, Nat.lt_add_of_pos_right (by decide)⟩

end Dunkos
