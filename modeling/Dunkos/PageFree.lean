import Dunkos.Paging

/-! # Giving pages back (`page_free` of `paging.c`)

The pools hold kernel addresses, and `page_free` compares them with a physical one: the page is never in
the range of the kernel pool, and its number in the user pool is past the end of the bitmap, where
`bitmap_set` writes nothing.  `page_free_restores_iff` says that no page that is allocated comes back. -/

namespace Dunkos

/-- `kernel - PHYSBASE`, for addresses as numbers. -/
def kernelAddrToPhys (kernel : ℕ) : ℕ := (kernel + 2 ^ 64 - physBase) % 2 ^ 64

/-- The range test is the one of `page_reserve`. -/
def pagePoolContains (pool : PagePool) (p : ℕ) : Prop := pool.Within p

instance (pool : PagePool) (p : ℕ) : Decidable (pagePoolContains pool p) := inferInstanceAs (Decidable (_ ∧ _))

def pagePoolFree (p : PagePool) (pg npages : ℕ) : PagePool :=
  let pgNo := (pg + 2 ^ 64 - p.base) % 2 ^ 64 / pageSize
  { p with occupancyMap := bitmapSet p.occupancyMap pgNo npages false }

def pageFree (pools : Pool → PagePool) (page : ℕ) : Pool → PagePool :=
  let frame := kernelAddrToPhys page
  let pool := if pagePoolContains (pools .kernel) frame then .kernel else .user
  Function.update pools pool (pagePoolFree (pools pool) frame 1)

/-- The operations on the pools. -/
inductive PoolCall where
  | allocate (flags : BitVec 32)
  | allocateMultiple (flags : BitVec 32) (pages : ℕ)
  | reserve (phys : ℕ)
  | free (page : ℕ)

def PoolCall.step (pools : Pool → PagePool) : PoolCall → Option (Pool → PagePool)
  | allocate flags => some (pageAllocate pools flags).1
  | allocateMultiple flags pages => some (pageAllocateMultiple pools flags pages).1
  | reserve phys => (pageReserve pools phys).map Prod.fst
  | free page => some (pageFree pools page)

/-! ### Where the pools are -/

/-- The pools are where `init_paging` put them, and no bitmap is longer than its pool.  (`memset` may clear
the length of a bitmap.) -/
def PoolsAt (totalPages : ℕ) (pools : Pool → PagePool) : Prop :=
  ∀ q, (pools q).base = pageSize * ((region totalPages q).start + 1) ∧
    (pools q).mapAddr = pageSize * (region totalPages q).start ∧
    (pools q).occupancyMap.bitcount ≤ poolPages totalPages q

namespace PoolsAt
variable {totalPages : ℕ} {pools pools' : Pool → PagePool}

/-- Only the bitmap of a pool ever changes, and it gets no longer. -/
theorem keep (h : PoolsAt totalPages pools) (hk : ∀ q, (pools' q).base = (pools q).base ∧
    (pools' q).mapAddr = (pools q).mapAddr ∧
    (pools' q).occupancyMap.bitcount ≤ (pools q).occupancyMap.bitcount) : PoolsAt totalPages pools' := by
  intro q
  obtain ⟨hbase, hmap, hcount⟩ := hk q
  exact ⟨hbase.trans (h q).1, hmap.trans (h q).2.1, Nat.le_trans hcount (h q).2.2⟩

theorem setMap (h : PoolsAt totalPages pools) (q : Pool) {bm : Bitmap}
    (hb : bm.bitcount = (pools q).occupancyMap.bitcount) :
    PoolsAt totalPages (Function.update pools q { pools q with occupancyMap := bm }) := by
  refine h.keep fun q' => ?_
  by_cases hq : q' = q
  · subst hq
    rw [Function.update_self]
    exact ⟨rfl, rfl, Nat.le_of_eq hb⟩
  · rw [Function.update_of_ne hq]
    exact ⟨rfl, rfl, Nat.le_refl _⟩

theorem memset (h : PoolsAt totalPages pools) (dst len : ℕ) :
    PoolsAt totalPages fun q => (pools q).memset dst len := by
  refine h.keep fun q => ⟨rfl, rfl, ?_⟩
  show (if _ then 0 else _) ≤ _
  split_ifs
  · exact Nat.zero_le _
  · exact Nat.le_refl _

theorem alloc (h : PoolsAt totalPages pools) (q : Pool) (npages : ℕ) :
    PoolsAt totalPages (Function.update pools q (pagePoolAlloc (pools q) npages).1) := by
  refine h.setMap q ?_
  rcases bitmapScanAndFlip_spec (pools q).occupancyMap 0 npages false with ⟨he, -⟩ | ⟨r, he, -⟩
  · rw [he]
  · rw [he]
    exact bitmapFlip_bitcount _ _ _

theorem allocateMultiple (h : PoolsAt totalPages pools) (flags : BitVec 32) (pages : ℕ) :
    PoolsAt totalPages (pageAllocateMultiple pools flags pages).1 := by
  unfold pageAllocateMultiple
  dsimp only
  split_ifs
  · exact (h.alloc _ _).memset _ _
  · exact h.alloc _ _

theorem reserve (h : PoolsAt totalPages pools) {phys : ℕ} (hp : (pageReserve pools phys).map Prod.fst = some pools') :
    PoolsAt totalPages pools' := by
  unfold pageReserve at hp
  cases hq : reservePool pools phys with
  | none =>
      rw [hq] at hp
      cases hp
      exact h
  | some q =>
      rw [hq] at hp
      dsimp only at hp
      unfold pagePoolReserve at hp
      dsimp only at hp
      split_ifs at hp
      · cases hp
      · rw [Option.map_some, Option.map_some] at hp
        rw [← Option.some.inj hp]
        exact h.setMap q (bitmapSet_bitcount _ _ _ _)

theorem free (h : PoolsAt totalPages pools) (page : ℕ) : PoolsAt totalPages (pageFree pools page) :=
  h.setMap _ (bitmapSet_bitcount _ _ _ _)

theorem step (h : PoolsAt totalPages pools) {call : PoolCall} (hs : call.step pools = some pools') :
    PoolsAt totalPages pools' := by
  cases call with
  | allocate flags =>
      cases hs
      rw [PageState.pageAllocate_eq]
      exact h.allocateMultiple flags 1
  | allocateMultiple flags pages =>
      cases hs
      exact h.allocateMultiple flags pages
  | reserve phys => exact h.reserve hs
  | free page =>
      cases hs
      exact h.free page

theorem init (hmax : totalPages ≤ maxPages) (h : totalPages < 2 ^ 64) (words : Pool → ℕ → BitVec 64) :
    PoolsAt totalPages (initPaging totalPages h words) := by
  intro q
  have hlt := region_lt hmax q
  have hone : pageRoundUp 0 / pageSize = 1 := by decide
  refine ⟨?_, poolBase_eq hmax q, Nat.le_refl _⟩
  show (poolBase totalPages q + pageRoundUp 0 / pageSize * pageSize) % 2 ^ 64 = _
  rw [hone, poolBase_eq hmax q]
  unfold pageSize
  omega

end PoolsAt

/-! ### Giving back -/

section
variable {totalPages : ℕ} {pools : Pool → PagePool}

theorem bitmapSet_past {bm : Bitmap} {start nbits : ℕ} {b : Bool} (h : bm.bitcount ≤ start) :
    bitmapSet bm start nbits b = bm := by
  cases nbits with
  | zero => rfl
  | succ n =>
      unfold bitmapSet
      rw [if_neg (Nat.not_lt.mpr h)]

/-- `page_free` of a page in the range of a pool changes nothing. -/
theorem pageFree_page (hmax : totalPages ≤ maxPages) (h : PoolsAt totalPages pools) {q : Pool} {r : ℕ}
    (hr : r < poolPages totalPages q) :
    pageFree pools (pageSize * ((region totalPages q).start + 1 + r)) = pools := by
  have hk := poolPages_le hmax .kernel
  have hu := poolPages_le hmax .user
  have hregion := region_start_user hmax
  obtain ⟨hkbase, -, -⟩ := h .kernel
  obtain ⟨hubase, -, hucount⟩ := h .user
  rw [region_start_kernel] at hkbase
  rw [hregion] at hubase
  -- the physical address, and how far it is from the user pool
  obtain ⟨f, hf, hf₁, hf₂⟩ : ∃ f, kernelAddrToPhys (pageSize * ((region totalPages q).start + 1 + r)) = pageSize * f ∧
      5 ≤ f ∧ f < 2 ^ 26 := by
    cases q with
    | kernel =>
        refine ⟨5 + r, ?_, by omega, by omega⟩
        rw [region_start_kernel]
        unfold kernelAddrToPhys physBase pageSize
        omega
    | user =>
        refine ⟨5 + poolPages totalPages .kernel + r, ?_, by omega, by omega⟩
        rw [hregion]
        unfold kernelAddrToPhys physBase pageSize
        omega
  have hout : ¬ pagePoolContains (pools .kernel) (pageSize * f) := by
    rintro ⟨hle, -⟩
    rw [hkbase] at hle
    unfold pageSize at hle
    omega
  have hpast : (pools .user).occupancyMap.bitcount ≤
      (pageSize * f + 2 ^ 64 - (pools .user).base) % 2 ^ 64 / pageSize := by
    rw [hubase]
    unfold pageSize
    omega
  unfold pageFree
  dsimp only
  rw [hf, if_neg hout]
  unfold pagePoolFree
  dsimp only
  rw [bitmapSet_past hpast]
  exact Function.update_eq_self _ _

/-- What `page_allocate` does, when it returns a page. -/
theorem pageAllocate_page (hmax : totalPages ≤ maxPages) (h : PoolsAt totalPages pools) (flags : BitVec 32) :
    pageAllocate pools flags = (pools, 0) ∨ ∃ r, r < poolPages totalPages (poolOf flags) ∧
      (pageAllocate pools flags).2 = pageSize * ((region totalPages (poolOf flags)).start + 1 + r) ∧
      bitmapTest (pools (poolOf flags)).occupancyMap r = false ∧
      bitmapTest ((pageAllocate pools flags).1 (poolOf flags)).occupancyMap r = true := by
  have hlt := region_lt hmax (poolOf flags)
  have hsize := poolPages_le hmax (poolOf flags)
  obtain ⟨hbase, hmap, hcount⟩ := h (poolOf flags)
  rcases bitmapScanAndFlip_spec (pools (poolOf flags)).occupancyMap 0 1 false with ⟨he, -⟩ | ⟨r, he, hne, -, hr, -⟩
  · refine .inl ?_
    unfold pageAllocate pagePoolAlloc
    simp [he]
  · have hr' : r < poolPages totalPages (poolOf flags) := Nat.lt_of_lt_of_le hr.lt hcount
    have hclear := hr.eq r ⟨Nat.le_refl r, Nat.lt_succ_self r⟩
    have hset : bitmapTest (bitmapFlip (pools (poolOf flags)).occupancyMap r 1) r = true := by
      rw [bitmapFlip_test, if_pos ⟨⟨Nat.le_refl r, Nat.lt_succ_self r⟩, hr.lt⟩, hclear]
      rfl
    have halloc : pagePoolAlloc (pools (poolOf flags)) 1 =
        ({ pools (poolOf flags) with occupancyMap := bitmapFlip (pools (poolOf flags)).occupancyMap r 1 },
          pageSize * ((region totalPages (poolOf flags)).start + 1 + r)) := by
      unfold pagePoolAlloc
      dsimp only
      rw [he, if_neg hne, hbase]
      unfold pageSize
      congr 1
      omega
    refine .inr ⟨r, hr', ?_, hclear, ?_⟩
    · unfold pageAllocate
      rw [halloc]
    · unfold pageAllocate
      rw [halloc]
      dsimp only
      split_ifs
      · -- the page is behind the one of the bitmap
        have hoff : ¬ (Extent.mk (pageSize * ((region totalPages (poolOf flags)).start + 1 + r)) pageSize).Covers
            ((pools (poolOf flags)).mapAddr + 16 + 8 * (r / 64)) := by
          rw [hmap, Extent.covers_mk]
          unfold pageSize
          omega
        unfold PagePool.memset
        simp only [Function.update_self]
        rw [memset_test, if_neg hoff]
        exact hset
      · rw [Function.update_self]
        exact hset

end

/-- **`page_free` gives nothing back.**  In every state of the pools, whatever their bitmaps held at the
start, and for all flags: when `page_allocate` returns a page, `page_free` of it changes nothing at all.  So
the bitmaps are as before the allocation exactly when there was no page to allocate. -/
theorem page_free_restores_iff {totalPages : ℕ} (hmax : totalPages ≤ maxPages) (h : totalPages < 2 ^ 64)
    {words : Pool → ℕ → BitVec 64} {pools : Pool → PagePool}
    (hs : Transition.Reach PoolCall.step (fun _ _ => True) (initPaging totalPages h words) pools) (flags : BitVec 32) :
    let r := pageAllocate pools flags
    ((r.2 ≠ 0 → ∀ q i, bitmapTest (pageFree r.1 r.2 q).occupancyMap i = bitmapTest (pools q).occupancyMap i) ↔
        r.2 = 0) ∧
      (r.2 ≠ 0 → pageFree r.1 r.2 = r.1) := by
  intro r
  have hat : PoolsAt totalPages pools :=
    hs.invariant (PoolsAt.init hmax h words) fun _ _ _ hp _ hst => hp.step hst
  rcases pageAllocate_page hmax hat flags with he | ⟨n, hn, hpage, hclear, hset⟩
  · have hr : r.2 = 0 := congrArg Prod.snd he
    exact ⟨⟨fun _ => hr, fun h₀ hne => absurd h₀ hne⟩, fun hne => absurd hr hne⟩
  · have hat' : PoolsAt totalPages r.1 := hat.step (show (PoolCall.allocate flags).step pools = some r.1 from rfl)
    have hfree : pageFree r.1 r.2 = r.1 := by
      rw [show r.2 = _ from hpage]
      exact pageFree_page hmax hat' hn
    refine ⟨⟨fun hright => ?_, fun h₀ hne => absurd h₀ hne⟩, fun _ => hfree⟩
    by_contra hne
    have hbit := hright hne (poolOf flags) n
    rw [hfree, hclear] at hbit
    exact absurd (hset.symm.trans hbit) (by decide)

/-- The first page of the kernel pool. -/
theorem page_free_restores_iff_first :
    let r := pageAllocate (initPaging 2044 (by decide) fun _ _ => 0) 0
    r.2 = 0xFFFF800000A00000 ∧ pageFree r.1 r.2 = r.1 := by
  intro r
  have hpage : r.2 = 0xFFFF800000A00000 := by decide +kernel
  refine ⟨hpage, (page_free_restores_iff (by decide) (by decide) .start 0).2 ?_⟩
  rw [show (pageAllocate _ 0).2 = _ from hpage]
  decide

/-- It is allocated and given back, and its bit is set, which was clear. -/
theorem page_free_keeps_bit :
    let pools := initPaging 2044 (by decide) fun _ _ => 0
    let r := pageAllocate pools 0
    r.2 ≠ 0 ∧ bitmapTest (pools .kernel).occupancyMap 0 = false ∧
      bitmapTest (pageFree r.1 r.2 .kernel).occupancyMap 0 = true := by
  decide +kernel

end Dunkos
