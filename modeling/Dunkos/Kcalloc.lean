import Dunkos.HeapMetadata

/-! # What `kmalloc` and `kcalloc` return (`heap.c`)

`kcalloc` multiplies without a look at what does not fit.  A size for which there is no descriptor leaves the variable
`b` as it is, and an empty free list is filled from the page that `page_allocate` returned, also when it returned
NULL.  `kcalloc_right_iff` says for which calls none of this shows; up to there a block of every class, the first one
included, is long enough and zero (`Inv.kmalloc_served`). -/

namespace Dunkos

/-- `p` is a zeroed block of class `i`. -/
structure Served (Λ : HeapLayout) (arenas : Arenas) (m : WordMem) (i : Fin 16) (p : ℕ) : Prop where
  block : arenas.Block i p
  owner : m.word (blockGetArena p + 8) = heapDesc Λ i
  size : m.word (heapDesc Λ i) = classSize i
  zero : ∀ x, x % 8 = 0 → (Extent.mk p (classSize i)).Covers x → m.word x = 0
  aligned : p % 8 = 0

/-- A block whose descriptor's `block_size` is at least `n`, with every byte of it zero. -/
def ZeroBlock (Λ : HeapLayout) (arenas : Arenas) (m : WordMem) (n p : ℕ) : Prop :=
  ∃ i, arenas.Block i p ∧ m.word (blockGetArena p + 8) = heapDesc Λ i ∧ n ≤ m.word (heapDesc Λ i) ∧
    ∀ y, (Extent.mk p (m.word (heapDesc Λ i))).Covers y → m.byte y = 0

variable {Λ : HeapLayout} {arenas : Arenas} {m m' : WordMem} {i : Fin 16} {p : ℕ}

theorem Served.zeroBlock (h : Served Λ arenas m i p) {n : ℕ} (hn : n ≤ classSize i) : ZeroBlock Λ arenas m n p := by
  refine ⟨i, h.block, h.owner, h.size ▸ hn, fun y hy => ?_⟩
  rw [h.size, Extent.covers_mk] at hy
  have hal := h.aligned
  have hword : m.word (y / 8 * 8) = 0 := h.zero _ (by omega) (Extent.covers_mk.mpr (by omega))
  unfold WordMem.byte
  rw [hword]
  simp

/-- The block taken is zero, where the header of its arena does not lie in it. -/
theorem takeBlock_zero {d x : ℕ} (h : takeBlock m d = some (m', p)) (hx : x ≠ blockGetArena p + 16)
    (hcov : (Extent.mk p ((listPopFront m (freeList d)).1.word d)).Covers x) : m'.word x = 0 := by
  unfold takeBlock at h
  dsimp only at h
  split at h
  · obtain ⟨rfl, rfl⟩ := Prod.mk.inj (Option.some.inj h)
    rw [WordMem.set_of_ne _ _ hx]
    exact if_pos hcov
  · cases h

namespace HeapState
variable {s : HeapState}

/-- A block from the free list. -/
theorem Inv.take_served (h : Inv Λ s) (hne : ¬ listEmpty s.mem (freeList (heapDesc Λ i)) = true) :
    ∃ m p, takeBlock s.mem (heapDesc Λ i) = some (m, p) ∧ p ≠ 0 ∧ Served Λ s.arenas m i p := by
  obtain ⟨σ, count, hw, hs, -⟩ := h
  obtain ⟨p, xs, hx⟩ := List.exists_cons_of_ne_nil fun hx => hne ((hw.lists.listEmpty_iff i).mpr hx)
  have hp : s.arenas.Block i p := hs.block i p (hx ▸ List.mem_cons_self)
  obtain ⟨hhigh, ha, hlow, -, hal⟩ := hp.bounds hs.valid
  obtain ⟨m, hm, hw', -⟩ := hw.takeBlock hs.valid hs.block hx
  obtain ⟨m₁, hpop, hl₁⟩ := hw.lists.popFront_cons hx
  have hfl : listPopFront s.mem (freeList (heapDesc Λ i)) = (m₁, p) := hpop
  have hsize : (listPopFront s.mem (freeList (heapDesc Λ i))).1.word (heapDesc Λ i) = classSize i := by
    rw [hfl]
    exact ((hw.of_outside hs.valid hl₁).desc i).1
  refine ⟨m, p, hm, ?_, hp, (hw'.header _ i ha).2.1, (hw'.desc i).1, fun x _ hcov => ?_, by omega⟩
  · unfold physBase at hhigh
    omega
  · refine takeBlock_zero hm ?_ (hsize ▸ hcov)
    rw [Extent.covers_mk] at hcov
    unfold heapArenaSize at hlow
    omega

/-- The first class has no free blocks. -/
theorem Inv.first_empty (h : Inv Λ s) : listEmpty s.mem (freeList (heapDesc Λ 0)) = true := by
  obtain ⟨σ, count, hw, hs, -⟩ := h
  refine (hw.lists.listEmpty_iff 0).mpr (List.eq_nil_iff_forall_not_mem.mpr fun p hp => ?_)
  obtain ⟨-, ha, -⟩ := (hs.block 0 p hp).bounds hs.valid
  exact (hs.valid _ _ ha).2.2 rfl

/-- The first block of a new arena of the first class. -/
theorem Inv.first_served (h : Inv Λ s) {page : ℕ} (hf : s.arenas.Fresh page) :
    ∃ m p, takeBlock (growHeap s.mem (heapDesc Λ 0) page) (heapDesc Λ 0) = some (m, p) ∧ p ≠ 0 ∧
      Served Λ (Function.update s.arenas page (some 0)) m 0 p := by
  have hempty := listEmpty_freeList.mp h.first_empty
  obtain ⟨σ, count, hw, -⟩ := h
  have hhigh := hf.high
  have hal := hf.aligned
  have hda : heapDesc Λ 0 + heapDescSize ≤ page := by
    have := heapDesc_lt Λ 0 (x := heapDesc Λ 0 + 111) (by unfold heapDescSize; omega)
    unfold heapDescSize
    omega
  have hgrow := FirstClass.grow (a := page) (hw.desc 0).1 (hw.desc 0).2 hempty hda
  obtain ⟨m, hm, hzero, hfirst⟩ := hgrow.takeBlock hda hal (by decide) (Nat.le_refl _)
  have hsize : classSize 0 = 8 := by decide
  have hp : page + 24 + 8 * 0 = classBlock 0 page 0 := by
    unfold classBlock heapArenaSize
    omega
  have harena : blockGetArena (classBlock 0 page 0) = page := blockGetArena_classBlock hal (by decide)
  rw [hp] at hm hzero
  have h₈ : classBlock 0 page 0 % 8 = 0 := by
    rw [← hp]
    unfold pageSize at hal
    omega
  refine ⟨m, classBlock 0 page 0, hm, by omega, ⟨page, 0, Function.update_self .., by decide, rfl⟩, ?_, ?_, ?_, h₈⟩
  · rw [harena]
    exact hfirst.header.2.1
  · exact hfirst.desc.1.trans hsize.symm
  · intro x hx hcov
    rw [hsize, Extent.covers_mk] at hcov
    obtain rfl : x = classBlock 0 page 0 := by omega
    exact hzero

/-- **A size that has a descriptor is served**, when there is a free block or a page. -/
theorem Inv.kmalloc_served (h : Inv Λ s) {size page : ℕ} (junk : ℕ) (hpage : page = 0 ∨ s.arenas.Fresh page)
    (hne : size ≠ 0) (hd : Dunkos.findDesc Λ s.mem size = some i)
    (hroom : page ≠ 0 ∨ ¬ listEmpty s.mem (freeList (heapDesc Λ i)) = true) :
    ∃ m p, Dunkos.kmalloc Λ page junk s.mem size = some (m, p) ∧ p ≠ 0 ∧
      Served Λ (s.grown Λ size page) m i p := by
  have hk := kmalloc_eq page junk hne hd
  have hg : s.grown Λ size page = if listEmpty s.mem (freeList (heapDesc Λ i)) = true then
      Function.update s.arenas page (some i) else s.arenas := by
    unfold grown
    rw [hd]
    simp only [ne_eq, hne, not_false_eq_true, true_and]
  rw [hk, hg]
  by_cases hempty : listEmpty s.mem (freeList (heapDesc Λ i)) = true
  · have hpage' : page ≠ 0 := hroom.resolve_right (not_not.mpr hempty)
    have hf := hpage.resolve_left hpage'
    rw [if_pos hempty, if_pos hempty, if_neg hpage']
    by_cases hi : i = 0
    · subst hi
      exact h.first_served hf
    · obtain ⟨hgrow, hfull, -⟩ := h.grow hi hf hempty
      exact hgrow.take_served hfull
  · rw [if_neg hempty, if_neg hempty]
    exact h.take_served hempty

/-- Every size up to the largest class has a descriptor, and its blocks are long enough. -/
theorem Inv.findDesc_le (h : Inv Λ s) {size : ℕ} (hle : size ≤ 262144) :
    ∃ i, Dunkos.findDesc Λ s.mem size = some i ∧ size ≤ classSize i := by
  obtain ⟨σ, count, hw, -⟩ := h
  have hsome : (Dunkos.findDesc Λ s.mem size).isSome := by
    rw [Dunkos.findDesc, List.find?_isSome]
    refine ⟨15, List.mem_finRange _, ?_⟩
    rw [(hw.desc 15).1, decide_eq_true_iff]
    exact hle
  obtain ⟨i, hi⟩ := Option.isSome_iff_exists.mp hsome
  have hsize := List.find?_some hi
  rw [decide_eq_true_iff, (hw.desc i).1] at hsize
  exact ⟨i, hi, hsize⟩

/-- A larger size has none. -/
theorem Inv.findDesc_none (h : Inv Λ s) {size : ℕ} (hlt : 262144 < size) : Dunkos.findDesc Λ s.mem size = none := by
  obtain ⟨σ, count, hw, -⟩ := h
  rw [Dunkos.findDesc, List.find?_eq_none]
  intro i _
  rw [(hw.desc i).1, decide_eq_true_iff]
  have := (class_facts i).2.1
  omega

/-- `kcalloc` returns NULL, or a block that is long enough and zero. -/
def KcallocRight (Λ : HeapLayout) (s : HeapState) (page junk nmemb size : ℕ) : Prop :=
  ∃ m p, kcalloc Λ page junk s.mem nmemb size = some (m, p) ∧
    (p = 0 ∨ ZeroBlock Λ (s.grown Λ (nmemb * size % 2 ^ 64) page) m (nmemb * size) p)

/-- The free list for a size has a block. -/
def HasFree (Λ : HeapLayout) (s : HeapState) (size : ℕ) : Prop :=
  ∀ i, Dunkos.findDesc Λ s.mem size = some i → ¬ listEmpty s.mem (freeList (heapDesc Λ i)) = true

section
variable {page nmemb size : ℕ} (junk : ℕ)

/-- Without a descriptor the stray value is returned. -/
theorem Inv.kcalloc_large (h : Inv Λ s) (hlt : 262144 < nmemb * size % 2 ^ 64) :
    KcallocRight Λ s page junk nmemb size ↔ junk = 0 := by
  have hk : kcalloc Λ page junk s.mem nmemb size = some (s.mem, junk) := by
    unfold kcalloc Dunkos.kmalloc
    rw [if_neg (by omega), h.findDesc_none hlt]
  constructor
  · rintro ⟨m, p, hr, hp⟩
    obtain ⟨rfl, rfl⟩ := Prod.mk.inj (Option.some.inj (hk.symm.trans hr))
    rcases hp with hp | ⟨k, -, -, hlen, -⟩
    · exact hp
    · -- no block is as long
      obtain ⟨σ, count, hw, -⟩ := h
      rw [(hw.desc k).1] at hlen
      have := (class_facts k).2.1
      have := Nat.mod_le (nmemb * size) (2 ^ 64)
      omega
  · rintro rfl
    exact ⟨s.mem, 0, hk, .inl rfl⟩

/-- What is served is long enough where the product did not wrap around. -/
theorem Inv.kcalloc_served (h : Inv Λ s) (hpage : page = 0 ∨ s.arenas.Fresh page) (hne : nmemb * size % 2 ^ 64 ≠ 0)
    (hle : nmemb * size % 2 ^ 64 ≤ 262144) (hd : Dunkos.findDesc Λ s.mem (nmemb * size % 2 ^ 64) = some i)
    (hroom : page ≠ 0 ∨ ¬ listEmpty s.mem (freeList (heapDesc Λ i)) = true) :
    KcallocRight Λ s page junk nmemb size ↔ nmemb * size ≤ 262144 := by
  obtain ⟨m, p, hk, hp₀, hserved⟩ := h.kmalloc_served junk hpage hne hd hroom
  constructor
  · rintro ⟨m', p', hr, hp⟩
    obtain ⟨rfl, rfl⟩ := Prod.mk.inj (Option.some.inj (hk.symm.trans hr))
    obtain ⟨k, -, howner, hlen, -⟩ := hp.resolve_left hp₀
    rw [← howner, hserved.owner, hserved.size] at hlen
    exact hlen.trans (class_facts i).2.1
  · intro hexact
    obtain ⟨k, hk', hsize⟩ := h.findDesc_le hle
    obtain rfl := Option.some.inj (hd.symm.trans hk')
    rw [Nat.mod_eq_of_lt (by omega)] at hsize
    exact ⟨m, p, hk, .inr (hserved.zeroBlock hsize)⟩

/-- Without a page the descriptor's list is filled through NULL. -/
theorem kcalloc_null (hne : nmemb * size % 2 ^ 64 ≠ 0)
    (hd : Dunkos.findDesc Λ s.mem (nmemb * size % 2 ^ 64) = some i)
    (hempty : listEmpty s.mem (freeList (heapDesc Λ i)) = true) : ¬ KcallocRight Λ s 0 junk nmemb size := by
  rintro ⟨m, p, hr, -⟩
  have hk := kmalloc_eq 0 junk hne hd
  rw [if_pos hempty, if_pos rfl] at hk
  cases hk.symm.trans hr

end

end HeapState

/-- **When `kcalloc` is right**, in every state that runs reach in which the callers keep their promises and every call
fits: the product that wraps around is zero; or it is too large and the variable happens to be NULL; or the product is
exact and of a class, and there is a free block or a page. -/
theorem kcalloc_right_iff {Λ : HeapLayout} {m : WordMem} {s : HeapState}
    (h : Transition.Reach (HeapState.step Λ) (fun s op => s.Promised op ∧ s.Fits op)
      ⟨initHeap Λ m, fun _ => none, []⟩ s) {page : ℕ} (hpage : page = 0 ∨ s.arenas.Fresh page)
    (junk nmemb size : ℕ) :
    s.KcallocRight Λ page junk nmemb size ↔
      nmemb * size % 2 ^ 64 = 0 ∨ (262144 < nmemb * size % 2 ^ 64 ∧ junk = 0) ∨
        (nmemb * size ≤ 262144 ∧ (page ≠ 0 ∨ s.HasFree Λ (nmemb * size))) := by
  have hinv := HeapState.inv_of_reach h
  have hmod : nmemb * size ≤ 262144 → nmemb * size % 2 ^ 64 = nmemb * size := fun hle => Nat.mod_eq_of_lt (by omega)
  by_cases hzero : nmemb * size % 2 ^ 64 = 0
  · exact iff_of_true ⟨s.mem, 0, if_pos hzero, .inl rfl⟩ (.inl hzero)
  rw [or_iff_right hzero]
  by_cases hlarge : 262144 < nmemb * size % 2 ^ 64
  · rw [hinv.kcalloc_large junk hlarge, and_iff_right hlarge, or_iff_left]
    rintro ⟨hle, -⟩
    have := hmod hle
    omega
  · have hle' := Nat.le_of_not_lt hlarge
    rw [or_iff_right fun hjunk => hlarge hjunk.1]
    obtain ⟨i, hd, -⟩ := hinv.findDesc_le hle'
    have hfree : nmemb * size ≤ 262144 → (s.HasFree Λ (nmemb * size) ↔
        ¬ listEmpty s.mem (freeList (heapDesc Λ i)) = true) := by
      intro hle
      unfold HeapState.HasFree
      rw [← hmod hle, hd]
      simp
    by_cases hroom : page ≠ 0 ∨ ¬ listEmpty s.mem (freeList (heapDesc Λ i)) = true
    · rw [hinv.kcalloc_served junk hpage hzero hle' hd hroom]
      exact ⟨fun hle => ⟨hle, hroom.imp_right (hfree hle).mpr⟩, fun h => h.1⟩
    · obtain ⟨rfl, hempty⟩ : page = 0 ∧ listEmpty s.mem (freeList (heapDesc Λ i)) = true := by
        rwa [not_or, not_not, not_not] at hroom
      refine iff_of_false (HeapState.kcalloc_null junk hzero hd hempty) ?_
      rintro ⟨hle, hpage | hhas⟩
      · exact hpage rfl
      · exact (hfree hle).mp hhas hempty

theorem layout_below : 0x200000 + 16 * heapDescSize ≤ physBase := by decide

def heapLayout : HeapLayout := ⟨0x200000, layout_below⟩

/-- The heap after `init_heap`. -/
def heapStart : HeapState := ⟨initHeap heapLayout ⟨fun _ => 0⟩, fun _ => none, []⟩

/-- Five bytes from a page that is not used yet: a block of eight. -/
theorem kcalloc_right_iff_five : heapStart.KcallocRight heapLayout (physBase + reservedEnd) 7 1 5 := by
  have hfresh : heapStart.arenas.Fresh (physBase + reservedEnd) := by decide
  exact (kcalloc_right_iff .start (.inr hfresh) 7 1 5).mpr (.inr (.inr ⟨by decide, .inl (by decide)⟩))

/-- **Three ways to go wrong**: the stray value for 300000 bytes, a block of 16 for `2^64 + 16`, and an access through
NULL for 100 when there is no page. -/
theorem kcalloc_wrong : ¬ heapStart.KcallocRight heapLayout (physBase + reservedEnd) 7 1 300000 ∧
    ¬ heapStart.KcallocRight heapLayout (physBase + reservedEnd) 7 (2 ^ 60 + 1) 16 ∧
    ¬ heapStart.KcallocRight heapLayout 0 7 1 100 := by
  have hinv : HeapState.Inv heapLayout heapStart := HeapState.inv_init _ _
  have hfresh : heapStart.arenas.Fresh (physBase + reservedEnd) := by decide
  refine ⟨?_, ?_, ?_⟩
  · rw [hinv.kcalloc_large 7 (by decide)]
    decide
  · have hle : (2 ^ 60 + 1) * 16 % 2 ^ 64 ≤ 262144 := by decide
    obtain ⟨i, hd, -⟩ := hinv.findDesc_le hle
    rw [hinv.kcalloc_served 7 (.inr hfresh) (by decide) hle hd (.inl hfresh.ne_zero)]
    decide
  · have hle : 1 * 100 % 2 ^ 64 ≤ 262144 := by decide
    obtain ⟨i, hd, -⟩ := hinv.findDesc_le hle
    refine HeapState.kcalloc_null 7 (by decide) hd ?_
    exact listEmpty_freeList.mpr (HeapState.initDesc_initHeap _ _ i).2.2.2.2.2

end Dunkos
