import Dunkos.Heap

/-! # The words of the heap and the words of its clients (`heap.c`, `heapstruct.h`)

The links of a free block are in the block itself.  So every address is to belong to at most one of
these: a live block, the links of a free one, the header of an arena, the table of descriptors.

`struct heap_block` is the two words of a `struct list_elem`, and blocks of the first class have one:
`links_fit_iff` says that the links of a block stay out of the next one in the other classes only.
`heap_separate_of_fits` says that metadata and live blocks are apart, and stay apart, in the runs of
`heap_sound_of_fits`: those in which no call is for a block of the first class, and no block is freed
while another one of its arena is live.  `kfree_writes_live_block` is a run in which `kfree` writes a
link into the block behind the one it frees. -/

namespace Dunkos

/-- The links of every block end before the next block begins. -/
theorem links_fit_iff (i : Fin 16) (a : ℕ) :
    (∀ j, classBlock i a j + 16 ≤ classBlock i a (j + 1)) ↔ i ≠ 0 := by
  have hsucc : ∀ j, classBlock i a (j + 1) = classBlock i a j + classSize i := by
    intro j
    unfold classBlock
    rw [Nat.succ_mul]
    omega
  constructor
  · rintro h rfl
    have h₀ := h 0
    have h₈ : classSize 0 = 8 := by decide
    rw [hsucc] at h₀
    omega
  · intro hi j
    have h16 := ((class_facts i).2.2.2.2 hi).2
    rw [hsucc]
    omega

/-- The byte at `y`: one of the eight of the word around it. -/
def WordMem.byte (m : WordMem) (y : ℕ) : ℕ := m.word (y / 8 * 8) / 256 ^ (y % 8) % 256

namespace HeapState

/-- `q` is a block of class `i` that is not live. -/
def Free (s : HeapState) (i : Fin 16) (q : ℕ) : Prop := s.arenas.Block i q ∧ ∀ e ∈ s.live, e.start ≠ q

/-- The words the heap needs: descriptors, headers of arenas, links of free blocks. -/
def Metadata (Λ : HeapLayout) (s : HeapState) (x : ℕ) : Prop :=
  (∃ i, (Extent.mk (heapDesc Λ i) heapDescSize).Covers x) ∨
  (∃ a i, s.arenas a = some i ∧ (Extent.mk a heapArenaSize).Covers x) ∨
  ∃ i q, s.Free i q ∧ (Extent.mk q 16).Covers x

/-- The free lists hold the free blocks, and no word of a live block is metadata. -/
structure Separate (Λ : HeapLayout) (s : HeapState) : Prop where
  lists : ∃ σ : Fin 16 → List ℕ, (∀ i, s.mem.HoldsAt (freeList (heapDesc Λ i)) (σ i)) ∧
    ∀ i q, q ∈ σ i ↔ s.Free i q
  apart : ∀ e ∈ s.live, ∀ x, e.Covers x → ¬ s.Metadata Λ x

/-- What the owners of blocks write leaves all metadata as it is. -/
def OwnersHarmless (Λ : HeapLayout) (s : HeapState) : Prop :=
  ∀ x v, s.Promised (.write x v) → ∀ y, s.Metadata Λ y → (s.mem.set x v).word y = s.mem.word y

/-- The bytes of the blocks that are live before and after are the same. -/
def BytesKept (s t : HeapState) : Prop :=
  ∀ e ∈ s.live, e ∈ t.live → ∀ y, e.Covers y → t.mem.byte y = s.mem.byte y

variable {Λ : HeapLayout} {s t : HeapState}

theorem Inv.separate (h : Inv Λ s) : Separate Λ s := by
  obtain ⟨σ, count, hw, hs, -⟩ := h
  refine ⟨⟨σ, hw.lists.holdsAt, hs.free⟩, fun e he x hx => ?_⟩
  rintro (⟨i, hi⟩ | ⟨a, i, ha, hax⟩ | ⟨i, q, hq, hqx⟩)
  · obtain ⟨k, hk, -⟩ := hs.owner e he
    have hhigh := (hk.bounds hs.valid).1
    unfold Extent.Covers at hx hi
    have hlow := heapDesc_lt Λ i hi.2
    omega
  · have hhead := hs.off_header he hx (hs.valid a i ha).2.1
    unfold Extent.Covers at hax
    dsimp only at hax
    omega
  · have hlinks := (hs.clear Λ he hx).node i q ((hs.free i q).mpr hq)
    unfold Extent.Covers at hqx
    dsimp only at hqx
    omega

theorem Separate.ownersHarmless (h : Separate Λ s) : OwnersHarmless Λ s := by
  rintro x v ⟨e, he, h₁, h₂⟩ y hy
  refine WordMem.set_of_ne _ _ ?_
  rintro rfl
  exact h.apart e he y ⟨h₁, by omega⟩ hy

/-- Blocks begin and end where words do. -/
theorem Inv.bytes (h : Inv Λ s) {m : WordMem} {live : List Extent} (hsub : ∀ e ∈ live, e ∈ s.live)
    (hk : Keeps live s.mem m) {e : Extent} (he : e ∈ live) {y : ℕ} (hy : e.Covers y) :
    m.byte y = s.mem.byte y := by
  obtain ⟨σ, count, -, hs, -⟩ := h
  obtain ⟨k, hk', hlen⟩ := hs.owner e (hsub e he)
  have hal := (hk'.bounds hs.valid).2.2.2.2
  have hword : e.Covers (y / 8 * 8) := by
    unfold Extent.Covers at *
    omega
  unfold WordMem.byte
  rw [hk e he _ hword]

end HeapState

/-! ### The first class -/

/-- In a new arena `a` of the first class, whose descriptor is `d`, the blocks from `k` up to `j` are on the
free list.  The next link of a block is the previous link of the one behind it, and what the last push
leaves there is the block behind itself. -/
structure FirstClass (d a : ℕ) (m : WordMem) (k j count : ℕ) : Prop where
  desc : m.word d = 8 ∧ m.word (d + 8) = classBlocks 0
  header : m.word a = arenaMagic ∧ m.word (a + 8) = d ∧ m.word (a + 16) = count
  size : m.word (d + 48) = j - k
  first : m.word (d + 24) = a + 24 + 8 * k
  back : m.word (a + 24 + 8 * k) = d + 16
  self : ∀ l, k < l → l < j → m.word (a + 24 + 8 * l) = a + 24 + 8 * l
  last : m.word (d + 32) = a + 24 + 8 * (j - 1)

section FirstClass
variable {d a : ℕ} {m : WordMem} {k j count : ℕ}

theorem listEmpty_freeList : listEmpty m (freeList d) = true ↔ m.word (d + 48) = 0 := by
  show (m.word (d + 48) == 0) = true ↔ _
  simp

/-- A push on a free list that is not empty, write by write. -/
theorem listPushBack_of_ne (el : ℕ) (h : m.word (d + 48) ≠ 0) : listPushBack m (freeList d) el =
    ((((m.set el (m.word (d + 32))).set (m.word (d + 32) + 8) el).set (d + 32) el).set (el + 8) (d + 32)).set
      (d + 48) (m.word (d + 48) + 1) := by
  have hempty : ¬ listEmpty m (freeList d) = true := mt listEmpty_freeList.mp h
  unfold listPushBack
  rw [if_neg hempty]
  rfl

/-- The first push. -/
theorem listPushBack_of_eq (el : ℕ) (h : m.word (d + 48) = 0) : listPushBack m (freeList d) el =
    ((((m.set el (d + 16)).set (d + 24) el).set (d + 32) el).set (el + 8) (d + 32)).set (d + 48) 1 := by
  unfold listPushBack
  rw [if_pos (listEmpty_freeList.mpr h)]
  show WordMem.set _ (d + 48) (m.word (d + 48) + 1) = _
  rw [h]
  rfl

/-- A pop, write by write. -/
theorem listPopFront_of_ne (h : m.word (d + 48) ≠ 0) : listPopFront m (freeList d) =
    let el := m.word (d + 24)
    (((m.set (m.word el + 8) (m.word (el + 8))).set (m.word (el + 8)) (m.word el)).set (d + 48)
      (m.word (d + 48) - 1), el) := by
  have hempty : ¬ listEmpty m (freeList d) = true := mt listEmpty_freeList.mp h
  unfold listPopFront listBegin
  rw [if_neg hempty, if_neg hempty]
  rfl

namespace FirstClass

theorem push (h : FirstClass d a m k j count) (hda : d + heapDescSize ≤ a) (hk : k < j) :
    FirstClass d a (listPushBack m (freeList d) (a + 24 + 8 * j)) k (j + 1) count := by
  have hne : m.word (d + 48) ≠ 0 := by
    rw [h.size]
    omega
  unfold heapDescSize at hda
  rw [listPushBack_of_ne _ hne, h.last, h.size, show a + 24 + 8 * (j - 1) + 8 = a + 24 + 8 * j by omega]
  obtain ⟨⟨h₁, h₂⟩, ⟨h₃, h₄, h₅⟩, -, h₆, h₇, h₈, -⟩ := h
  refine ⟨⟨?_, ?_⟩, ⟨?_, ?_, ?_⟩, ?_, ?_, ?_, fun l hl hlj => ?_, ?_⟩ <;>
    simp (disch := omega) only [WordMem.set_of_ne, WordMem.set_self]
  · exact h₁
  · exact h₂
  · exact h₃
  · exact h₄
  · exact h₅
  · omega
  · exact h₆
  · exact h₇
  · -- the node pushed, or one before it
    by_cases hl' : l = j
    · rw [hl', WordMem.set_self]
    · rw [WordMem.set_of_ne _ _ (by omega), WordMem.set_of_ne _ _ (by omega)]
      exact h₈ l hl (by omega)
  · rw [Nat.add_sub_cancel]

/-- Blocks of the first class are popped in order. -/
theorem takeBlock (h : FirstClass d a m k j count) (hda : d + heapDescSize ≤ a) (hal : a % pageSize = 0)
    (hk : k + 1 < j) (hj : j ≤ classBlocks 0) :
    ∃ m', takeBlock m d = some (m', a + 24 + 8 * k) ∧ m'.word (a + 24 + 8 * k) = 0 ∧
      FirstClass d a m' (k + 1) j ((count + 2 ^ 64 - 1) % 2 ^ 64) := by
  have hne : m.word (d + 48) ≠ 0 := by
    rw [h.size]
    omega
  have harena : blockGetArena (a + 24 + 8 * k) = a := by
    have hb := blockGetArena_classBlock (i := 0) (j := k) hal (by omega)
    have h₈ : classSize 0 = 8 := by decide
    unfold classBlock heapArenaSize at hb
    rwa [h₈, Nat.mul_comm] at hb
  unfold heapDescSize at hda
  obtain ⟨⟨h₁, h₂⟩, ⟨h₃, h₄, h₅⟩, h₀, h₆, h₇, h₈, h₉⟩ := h
  have hnext : m.word (a + 24 + 8 * k + 8) = a + 24 + 8 * (k + 1) := h₈ (k + 1) (by omega) hk
  unfold Dunkos.takeBlock
  rw [listPopFront_of_ne hne, h₆]
  dsimp only
  rw [h₇, hnext, h₀, harena]
  have hzero : ∀ (m' : WordMem) x, ¬ (a + 24 + 8 * k ≤ x ∧ x < a + 24 + 8 * k + 8) →
      (m'.zero (a + 24 + 8 * k) 8).word x = m'.word x := fun m' x hx => if_neg hx
  simp (disch := omega) only [WordMem.set_of_ne, h₁, hzero, h₃, h₅, if_true]
  refine ⟨_, rfl, ?_, ⟨?_, ?_⟩, ⟨?_, ?_, ?_⟩, ?_, ?_, ?_, fun l hl hlj => ?_, ?_⟩ <;>
    simp (disch := omega) only [WordMem.set_of_ne, WordMem.set_self, hzero]
  · exact if_pos ⟨Nat.le_refl _, by omega⟩
  · exact h₁
  · exact h₂
  · exact h₃
  · exact h₄
  · omega
  · exact h₈ l (by omega) hlj
  · exact h₉

theorem newArena_header (h₂ : m.word (d + 8) = classBlocks 0) (hda : d + heapDescSize ≤ a) :
    (newArena m d a).word a = arenaMagic ∧ (newArena m d a).word (a + 8) = d ∧
      (newArena m d a).word (a + 16) = classBlocks 0 := by
  unfold heapDescSize at hda
  have hz : (m.zero a pageSize).word (d + 8) = m.word (d + 8) := if_neg (by omega)
  unfold newArena
  refine ⟨WordMem.set_self .., ?_, ?_⟩
  · rw [WordMem.set_of_ne _ _ (by omega), WordMem.set_of_ne _ _ (by omega), WordMem.set_self]
  · rw [WordMem.set_of_ne _ _ (by omega), WordMem.set_self, WordMem.set_of_ne _ _ (by omega), hz, h₂]

/-- The first block of a new arena. -/
theorem start (h₁ : m.word d = 8) (h₂ : m.word (d + 8) = classBlocks 0) (h₃ : m.word (d + 48) = 0)
    (hda : d + heapDescSize ≤ a) :
    FirstClass d a (listPushBack (newArena m d a) (freeList d) (a + 24 + 8 * 0)) 0 1 (classBlocks 0) := by
  obtain ⟨h₄, h₅, h₆⟩ := newArena_header h₂ hda
  unfold heapDescSize at hda
  have hlow : ∀ x, x < a → (newArena m d a).word x = m.word x :=
    fun x hx => HeapWords.newArena_of_out m d (.inl hx)
  rw [listPushBack_of_eq _ ((hlow _ (by omega)).trans h₃)]
  refine ⟨⟨?_, ?_⟩, ⟨?_, ?_, ?_⟩, ?_, ?_, ?_, fun l hl hlj => absurd hlj (by omega), ?_⟩ <;>
    simp (disch := omega) only [WordMem.set_of_ne, WordMem.set_self]
  · rw [hlow d (by omega), h₁]
  · rw [hlow (d + 8) (by omega), h₂]
  · exact h₄
  · exact h₅
  · exact h₆

/-- The blocks of a new arena are pushed in order. -/
theorem grow (h₁ : m.word d = 8) (h₂ : m.word (d + 8) = classBlocks 0) (h₃ : m.word (d + 48) = 0)
    (hda : d + heapDescSize ≤ a) : FirstClass d a (growHeap m d a) 0 (classBlocks 0) (classBlocks 0) := by
  have hstart := start h₁ h₂ h₃ hda
  have hdesc : (newArena m d a).word (a + 8) = d := (newArena_header h₂ hda).2.1
  -- the number of blocks stays a variable: the loop is not to be run
  obtain ⟨n, hn⟩ : ∃ n, classBlocks 0 = n + 1 := ⟨classBlocks 0 - 1, by decide⟩
  have hgrow := hda
  unfold heapDescSize at hgrow
  have hlow : ∀ x, x < a → (newArena m d a).word x = m.word x :=
    fun x hx => HeapWords.newArena_of_out m d (.inl hx)
  have hget : ∀ m' : WordMem, m'.word (a + 8) = d → m'.word d = 8 → ∀ j, arenaGetBlock m' a j = a + 24 + 8 * j := by
    intro m' h₄ h₅ j
    unfold arenaGetBlock heapArenaSize
    rw [h₄, h₅, Nat.mul_comm]
  unfold growHeap
  dsimp only
  rw [hlow (d + 8) (by omega), h₂]
  generalize classBlocks 0 = blocks at *
  subst hn
  unfold forBlocks
  rw [hget _ hdesc ((hlow d (by omega)).trans h₁)]
  have key := @forBlocks_rule (fun j m' => FirstClass d a m' 0 j (n + 1))
    (fun m b => listPushBack m (freeList d) b) a n 1 _ hstart ?_
  · rwa [Nat.add_comm 1 n] at key
  · intro j m' hj _ hI
    rw [hget m' hI.header.2.1 hI.desc.1]
    exact hI.push hda (by omega)

/-- `kfree` of the first block links it to the end of the list: its next link is the word of the second. -/
theorem kfree_first (h : FirstClass d a m k j count) (hda : d + heapDescSize ≤ a) (hal : a % pageSize = 0)
    (hk : k < j) (hcount : (count + 1) % 2 ^ 64 ≠ classBlocks 0) :
    ∃ m', kfree m (a + 24) = (m', none) ∧ m'.word (a + 32) = d + 32 := by
  have harena : blockGetArena (a + 24) = a := by
    unfold blockGetArena
    unfold pageSize at *
    omega
  have hne : m.word (d + 48) ≠ 0 := by
    rw [h.size]
    omega
  unfold heapDescSize at hda
  obtain ⟨⟨h₁, h₂⟩, ⟨h₃, h₄, h₅⟩, h₀, -, -, -, h₉⟩ := h
  have hpush := listPushBack_of_ne (a + 24) hne
  rw [h₀, h₉] at hpush
  have hcond : ((listPushBack m (freeList d) (a + 24)).set (a + 16) ((count + 1) % 2 ^ 64)).word (a + 16) ≠
      ((listPushBack m (freeList d) (a + 24)).set (a + 16) ((count + 1) % 2 ^ 64)).word (d + 8) := by
    rw [hpush]
    simp (disch := omega) only [WordMem.set_of_ne, WordMem.set_self, h₂]
    exact hcount
  have hcount' : (listPushBack m (freeList d) (a + 24)).word (a + 16) = count := by
    rw [hpush]
    simp (disch := omega) only [WordMem.set_of_ne, h₅]
  refine ⟨listPushBack ((listPushBack m (freeList d) (a + 24)).set (a + 16) ((count + 1) % 2 ^ 64)) (freeList d)
    (a + 24), ?_, ?_⟩
  · unfold kfree
    rw [if_neg (by omega)]
    dsimp only
    rw [harena, h₄, hcount', if_neg hcond]
  -- the second push
  rw [hpush, listPushBack_of_ne]
  · simp (disch := omega) only [WordMem.set_of_ne, WordMem.set_self]
  · simp (disch := omega) only [WordMem.set_of_ne, WordMem.set_self]
    omega

end FirstClass
end FirstClass

namespace HeapState
variable {Λ : HeapLayout} {s : HeapState}

theorem findDesc_first (h : s.mem.word (heapDesc Λ 0) = 8) : findDesc Λ s.mem 8 = some 0 := by
  unfold findDesc
  rw [List.finRange_succ, List.find?_cons_of_pos]
  rw [h]
  rfl

/-- `kmalloc` of eight bytes. -/
theorem step_first (h : s.mem.word (heapDesc Λ 0) = 8) (page : ℕ) (hpage : page ≠ 0) (junk : ℕ) {p : ℕ} {m : WordMem}
    (hp : p ≠ 0) (ht : takeBlock (if listEmpty s.mem (freeList (heapDesc Λ 0)) = true then growHeap s.mem (heapDesc Λ 0) page
      else s.mem) (heapDesc Λ 0) = some (m, p)) :
    s.step Λ (.kmalloc 8 page junk) = some ⟨m, if listEmpty s.mem (freeList (heapDesc Λ 0)) = true then
      Function.update s.arenas page (some 0) else s.arenas, ⟨p, 8⟩ :: s.live⟩ := by
  have hd := findDesc_first h
  have hk : kmalloc Λ page junk s.mem 8 = some (m, p) := by
    rw [kmalloc_eq page junk (by decide) hd, if_neg hpage, ← ht]
    split <;> rfl
  rw [step_kmalloc hk]
  unfold grown allocated
  rw [hd, if_neg hp, Option.elim_some, h]
  simp

/-- Two blocks of the first class are taken and the first of them is freed. -/
theorem first_class_run (Λ : HeapLayout) (m : WordMem) (page next : ℕ) (hpage : physBase ≤ page)
    (hal : page % pageSize = 0) (hnext : physBase ≤ next) (hnal : next % pageSize = 0) (hne : next ≠ page) :
    let p := page + heapArenaSize
    ∃ s t, Transition.Reach (step Λ) Promised ⟨initHeap Λ m, fun _ => none, []⟩ s ∧
      s.Promised (.kfree p) ∧ s.step Λ (.kfree p) = some t ∧
      s.live = [⟨p + 8, 8⟩, ⟨p, 8⟩] ∧ t.live = [⟨p + 8, 8⟩] ∧ t.arenas page = some 0 ∧
      s.mem.word (p + 8) = 0 ∧ t.mem.word (p + 8) = heapDesc Λ 0 + 32 := by
  have hda : heapDesc Λ 0 + heapDescSize ≤ page := by
    have := heapDesc_lt Λ 0 (x := heapDesc Λ 0 + 111) (by unfold heapDescSize; omega)
    unfold heapDescSize
    omega
  obtain ⟨⟨h₁, h₂⟩, -, -, -, -, h₃⟩ := initDesc_initHeap Λ m 0
  have hgrow := FirstClass.grow (a := page) h₁ h₂ h₃ hda
  have hblocks : 2 < classBlocks 0 := by decide
  obtain ⟨m₁, ht₁, -, hf₁⟩ := hgrow.takeBlock hda hal (by omega) (Nat.le_refl _)
  obtain ⟨m₂, ht₂, hz, hf₂⟩ := hf₁.takeBlock hda hal (by omega) (Nat.le_refl _)
  obtain ⟨m₃, hk, hw⟩ := hf₂.kfree_first hda hal (by omega) (by decide)
  have hp₀ : page + 24 + 8 * 0 = page + heapArenaSize := rfl
  have hp₁ : page + 24 + 8 * (0 + 1) = page + heapArenaSize + 8 := rfl
  rw [hp₀] at ht₁
  rw [hp₁] at ht₂ hz
  have hlow : 0 < physBase := by decide
  have hempty : listEmpty (initHeap Λ m) (freeList (heapDesc Λ 0)) = true := listEmpty_freeList.mpr h₃
  have hfull : ¬ listEmpty m₁ (freeList (heapDesc Λ 0)) = true := by
    rw [listEmpty_freeList, hf₁.size]
    omega
  have hs₁ := step_first (s := ⟨initHeap Λ m, fun _ => none, []⟩) h₁ page (by omega) 0 (by omega)
    ((congrArg (fun m => Dunkos.takeBlock m _) (if_pos hempty)).trans ht₁)
  rw [if_pos hempty] at hs₁
  have hs₂ := step_first (s := ⟨m₁, Function.update (fun _ => none) page (some 0), [⟨page + heapArenaSize, 8⟩]⟩)
    hf₁.desc.1 next (by omega) 0 (by omega) ((congrArg (fun m => Dunkos.takeBlock m _) (if_neg hfull)).trans ht₂)
  rw [if_neg hfull] at hs₂
  have hzero : Function.update (fun _ => none) page (some (0 : Fin 16)) page = some 0 := Function.update_self ..
  have hunused : Function.update (fun _ => none) page (some (0 : Fin 16)) next = none := Function.update_of_ne hne _ _
  have hok₁ : Promised ⟨initHeap Λ m, fun _ => none, []⟩ (.kmalloc 8 page 0) := ⟨hpage, hal, rfl⟩
  have hok₂ : Promised ⟨m₁, Function.update (fun _ => none) page (some 0), [⟨page + heapArenaSize, 8⟩]⟩
      (.kmalloc 8 next 0) := ⟨hnext, hnal, hunused⟩
  have hfree : HeapState.step Λ ⟨m₂, Function.update (fun _ => none) page (some 0),
      [⟨page + heapArenaSize + 8, 8⟩, ⟨page + heapArenaSize, 8⟩]⟩ (.kfree (page + heapArenaSize)) =
      some ⟨m₃, Function.update (fun _ => none) page (some 0), [⟨page + heapArenaSize + 8, 8⟩]⟩ := by
    have hk' : kfree m₂ (page + heapArenaSize) = (m₃, none) := hk
    unfold step
    dsimp only
    rw [hk']
    simp
  exact ⟨_, _, (Transition.Reach.start.next hok₁ hs₁).next hok₂ hs₂,
    .inr ⟨_, List.mem_cons_of_mem _ List.mem_cons_self, rfl⟩, hfree, rfl, rfl, hzero, hz, hw⟩

end HeapState

/-- **The words of the heap and of its clients are apart.**  In every run from `init_heap` in which the
callers keep their promises and every call fits, no word of a live block is metadata, what the owners
write leaves the metadata as it is, and the next call that fits returns and leaves the bytes of the
live blocks as they are. -/
theorem heap_separate_of_fits {Λ : HeapLayout} {m : WordMem} {s : HeapState}
    (h : Transition.Reach (HeapState.step Λ) (fun s op => s.Promised op ∧ s.Fits op)
      ⟨initHeap Λ m, fun _ => none, []⟩ s) :
    HeapState.Separate Λ s ∧ HeapState.OwnersHarmless Λ s ∧
      ∀ op, s.Promised op → s.Fits op → (∀ x v, op ≠ .write x v) →
        ∃ t, s.step Λ op = some t ∧ HeapState.BytesKept s t := by
  have hinv := HeapState.inv_of_reach h
  refine ⟨hinv.separate, hinv.separate.ownersHarmless, fun op hok hfit hop => ?_⟩
  cases op with
  | kmalloc size page junk =>
      obtain ⟨t, ht, -, hkeep⟩ := hinv.kmalloc junk hok hfit
      exact ⟨t, ht, fun e he _ y hy => hinv.bytes (fun _ h => h) hkeep he hy⟩
  | kfree p =>
      obtain ⟨t, ht, -, hkeep⟩ := hinv.kfree hok hfit
      have hsub : ∀ e ∈ t.live, e ∈ s.live := by
        unfold HeapState.step at ht
        rw [Option.some.injEq] at ht
        rw [← ht]
        exact fun e he => (List.mem_filter.mp he).1
      exact ⟨t, ht, fun e _ he y hy => hinv.bytes hsub hkeep he hy⟩
  | write x v => exact absurd rfl (hop x v)

/-- Two blocks of a page are handed out and one of them is written; a third call leaves both alone. -/
theorem heap_separate_of_fits_two :
    let Λ : HeapLayout := ⟨0x200000, by decide⟩
    let page := physBase + reservedEnd
    let p := page + heapArenaSize
    ∃ s t, Transition.runs (HeapState.step Λ) (fun s op => s.Promised op ∧ s.Fits op)
        ⟨initHeap Λ ⟨fun _ => 0⟩, fun _ => none, []⟩
        [.kmalloc 262144 page 0, .kmalloc 200000 (page + pageSize) 0, .write p 5] = some s ∧
      s.live = [⟨p + 262144, 262144⟩, ⟨p, 262144⟩] ∧ HeapState.Separate Λ s ∧ HeapState.OwnersHarmless Λ s ∧
      s.step Λ (.kmalloc 200000 (page + pageSize) 0) = some t ∧ HeapState.BytesKept s t := by
  intro Λ page p
  have hrun : (Transition.runs (HeapState.step Λ) (fun s op => s.Promised op ∧ s.Fits op)
      ⟨initHeap Λ ⟨fun _ => 0⟩, fun _ => none, []⟩
      [.kmalloc 262144 page 0, .kmalloc 200000 (page + pageSize) 0, .write p 5]).map
        (fun s => (s.live, decide (s.Promised (.kmalloc 200000 (page + pageSize) 0)))) =
      some ([⟨p + 262144, 262144⟩, ⟨p, 262144⟩], true) := by
    decide +kernel
  obtain ⟨s, hs, hl⟩ := Option.map_eq_some_iff.mp hrun
  rw [Prod.mk.injEq, decide_eq_true_iff] at hl
  obtain ⟨hsep, hown, hnext⟩ := heap_separate_of_fits (.of_runs hs)
  obtain ⟨t, ht, hkept⟩ := hnext (.kmalloc 200000 (page + pageSize) 0) hl.2 (.inr (by decide)) (by simp)
  exact ⟨s, t, hs, hl.1, hsep, hown, ht, hkept⟩

/-- `kfree` of a block of eight bytes writes a link into the live block behind it: the byte there
changes, the links of the block freed are no longer apart from it, and its owner can break them. -/
theorem kfree_writes_live_block :
    let Λ : HeapLayout := ⟨0x200000, by decide⟩
    let p := physBase + reservedEnd + heapArenaSize
    ∃ s t, Transition.Reach (HeapState.step Λ) HeapState.Promised ⟨initHeap Λ ⟨fun _ => 0⟩, fun _ => none, []⟩ s ∧
      s.Promised (.kfree p) ∧ s.step Λ (.kfree p) = some t ∧ s.live = [⟨p + 8, 8⟩, ⟨p, 8⟩] ∧
      ¬ HeapState.BytesKept s t ∧ ¬ HeapState.Separate Λ t ∧ ¬ HeapState.OwnersHarmless Λ t := by
  intro Λ p
  obtain ⟨s, t, hr, hok, ht, hs, hlive, ha, h₁, h₂⟩ := HeapState.first_class_run Λ ⟨fun _ => 0⟩
    (physBase + reservedEnd) (physBase + reservedEnd + pageSize) (by decide) (by decide) (by decide) (by decide) (by decide)
  have hfree : t.Free 0 p := by
    refine ⟨⟨_, 0, ha, by decide, rfl⟩, ?_⟩
    rw [hlive]
    simp [p]
  have hcov : (Extent.mk (p + 8) 8).Covers (p + 8) := ⟨Nat.le_refl _, by simp⟩
  have hmeta : t.Metadata Λ (p + 8) := .inr (.inr ⟨0, p, hfree, Nat.le_add_right _ _, by simp⟩)
  refine ⟨s, t, hr, hok, ht, hs, fun hkept => ?_, fun hsep => ?_, fun hown => ?_⟩
  · have hbyte := hkept ⟨p + 8, 8⟩ (by simp [hs, p]) (by simp [hlive, p]) (p + 8) hcov
    have hword : (p + 8) / 8 * 8 = p + 8 := by decide
    unfold WordMem.byte at hbyte
    rw [hword, h₁, h₂] at hbyte
    revert hbyte
    decide
  · exact hsep.apart ⟨p + 8, 8⟩ (by simp [hlive, p]) _ hcov hmeta
  · have hsame := hown (p + 8) (t.mem.word (p + 8) + 1) ⟨⟨p + 8, 8⟩, by simp [hlive, p], Nat.le_refl _, by simp⟩ _ hmeta
    rw [WordMem.set_self] at hsame
    omega

end Dunkos
