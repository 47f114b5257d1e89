import Dunkos.Bitmap

/-! # The page pools (`paging.h`, `paging.c`, `memory.h`)

Physical memory behind the kernel is split into two pools of pages.  The first page of a pool holds
its occupancy bitmap: a header of two words at the start of the page, the words of the map behind
it.  Addresses are numbers below `2 ^ 64` and all arithmetic on them wraps.  `memset` clears what it
covers of either bitmap.  Of `init_paging` the mapping of the pages and the interrupt handler are
left out, and so is the lock of a pool, which no operation takes.

`page_pool_init` subtracts the page of the bitmap from `pages` and adds it to `base`, but not to the
length of the bitmap, whose last bit therefore stands for the page behind the pool.
`pages_disjoint_of_fits` says that all is well in runs that never come to that bit, and
`page_allocate_past_pool` hands it out. -/

namespace Dunkos

/-- `PAGESIZE`. -/
def pageSize : ℕ := 2097152

/-- `PHYSBASE`. -/
def physBase : ℕ := 0xFFFF800000000000

/-- `_reserved_end`, as the linker script places it. -/
def reservedEnd : ℕ := 8388608

def physToKernel (frame : ℕ) : ℕ := (frame + physBase) % 2 ^ 64

/-- `addr & (~PAGESIZE + 1)` clears the offset in the page. -/
def pageRoundUp (addr : ℕ) : ℕ := (addr - addr % pageSize + pageSize) % 2 ^ 64

/-- The two static objects of type `struct page_pool`. -/
inductive Pool where
  | kernel
  | user
deriving DecidableEq, Repr

/-- `struct page_pool`; `occupancyMap` is the bitmap that `mapAddr` points to. -/
structure PagePool where
  pages : ℕ
  occupancyMap : Bitmap
  mapAddr : ℕ
  base : ℕ

/-- `oldPages` is `p->pages` before the call, `words` the memory behind the header at `base`. -/
def pagePoolInit (oldPages pages base : ℕ) (h : pages < 2 ^ 64) (words : ℕ → BitVec 64) : PagePool :=
  let bitmapPages := pageRoundUp oldPages / pageSize
  { occupancyMap := bitmapCreateBuffer pages h words pages
    mapAddr := base
    base := (base + bitmapPages * pageSize) % 2 ^ 64
    pages := (pages + 2 ^ 64 - bitmapPages) % 2 ^ 64 }

/-- How `init_paging` splits `total_pages`. -/
def poolPages (totalPages : ℕ) : Pool → ℕ
  | .kernel => totalPages - totalPages / 2
  | .user => totalPages / 2

/-- Where `init_paging` lets a pool begin. -/
def poolBase (totalPages : ℕ) : Pool → ℕ
  | .kernel => physToKernel reservedEnd
  | .user => (physToKernel reservedEnd + poolPages totalPages .kernel * pageSize) % 2 ^ 64

theorem poolPages_lt {totalPages : ℕ} (h : totalPages < 2 ^ 64) (q : Pool) : poolPages totalPages q < 2 ^ 64 := by
  cases q with
  | kernel =>
      show totalPages - totalPages / 2 < 2 ^ 64
      omega
  | user =>
      show totalPages / 2 < 2 ^ 64
      omega

/-- The pools are static, hence zero before the call. -/
def initPaging (totalPages : ℕ) (h : totalPages < 2 ^ 64) (words : Pool → ℕ → BitVec 64) (q : Pool) : PagePool :=
  pagePoolInit 0 (poolPages totalPages q) (poolBase totalPages q) (poolPages_lt h q) (words q)

/-- What a bitmap at `addr` is after `memset(dst, 0, len)`, both multiples of the word size. -/
def Bitmap.memset (bm : Bitmap) (addr dst len : ℕ) : Bitmap where
  bitcount := if (Extent.mk dst len).Covers addr then 0 else bm.bitcount
  bufsize := if (Extent.mk dst len).Covers (addr + 8) then 0 else bm.bufsize
  words := fun w => if (Extent.mk dst len).Covers (addr + 16 + 8 * w) then 0 else bm.words w
  bitcount_lt := by
    split_ifs
    · decide
    · exact bm.bitcount_lt

/-- What `memset(dst, 0, len)` does to a pool. -/
def PagePool.memset (p : PagePool) (dst len : ℕ) : PagePool :=
  { p with occupancyMap := p.occupancyMap.memset p.mapAddr dst len }

def pagePoolAlloc (p : PagePool) (npages : ℕ) : PagePool × ℕ :=
  let r := bitmapScanAndFlip p.occupancyMap 0 npages false
  ({ p with occupancyMap := r.2 },
    if r.1 = bitmapNpos then 0 else (p.base + r.1 * pageSize) % 2 ^ 64)

/-- `PAL_ZERO`. -/
def palZero : BitVec 32 := 1

/-- `PAL_USER`. -/
def palUser : BitVec 32 := 2

/-- `(flags & PAL_USER) ? &user_pool : &kernel_pool`. -/
def poolOf (flags : BitVec 32) : Pool := if flags &&& palUser ≠ 0 then .user else .kernel

def pageAllocateMultiple (pools : Pool → PagePool) (flags : BitVec 32) (pages : ℕ) :
    (Pool → PagePool) × ℕ :=
  let r := pagePoolAlloc (pools (poolOf flags)) pages
  let pools' := Function.update pools (poolOf flags) r.1
  (if r.2 ≠ 0 ∧ flags &&& palZero ≠ 0 then
      fun q => (pools' q).memset r.2 (pageSize * pages % 2 ^ 64)
    else pools', r.2)

def pageAllocate (pools : Pool → PagePool) (flags : BitVec 32) : (Pool → PagePool) × ℕ :=
  let r := pagePoolAlloc (pools (poolOf flags)) 1
  let pools' := Function.update pools (poolOf flags) r.1
  (if r.2 ≠ 0 ∧ flags &&& palZero ≠ 0 then fun q => (pools' q).memset r.2 pageSize else pools', r.2)

/-- `none` is the panic of a failed assertion. -/
def pagePoolReserve (p : PagePool) (ph : ℕ) : Option PagePool :=
  let pgnum := (physToKernel ph / pageSize + 2 ^ 64 - p.base / pageSize) % 2 ^ 64
  if bitmapAll p.occupancyMap pgnum 1 true then none
  else some { p with occupancyMap := bitmapSet p.occupancyMap pgnum 1 true }

/-- `kern >= base && kern < base + pages * PAGESIZE`, as `page_reserve` tests it. -/
def PagePool.Within (p : PagePool) (kern : ℕ) : Prop :=
  p.base ≤ kern ∧ kern < (p.base + p.pages * pageSize) % 2 ^ 64

instance (p : PagePool) (kern : ℕ) : Decidable (p.Within kern) := inferInstanceAs (Decidable (_ ∧ _))

/-- The pool whose range test `page_reserve` finds true first. -/
def reservePool (pools : Pool → PagePool) (phys : ℕ) : Option Pool :=
  if (pools .kernel).Within (physToKernel phys) then some .kernel
  else if (pools .user).Within (physToKernel phys) then some .user
  else none

/-- Outside of both pools the code prints, halts until the next interrupt and changes nothing. -/
def pageReserve (pools : Pool → PagePool) (phys : ℕ) : Option ((Pool → PagePool) × ℕ) :=
  match reservePool pools phys with
  | some q => (pagePoolReserve (pools q) phys).map (fun p => (Function.update pools q p, physToKernel phys))
  | none => some (pools, physToKernel phys)

/-! ### One pool -/

theorem memset_test (bm : Bitmap) (addr dst len i : ℕ) : bitmapTest (bm.memset addr dst len) i =
    if (Extent.mk dst len).Covers (addr + 16 + 8 * (i / 64)) then false else bitmapTest bm i := by
  rw [bitmapTest_eq, bitmapTest_eq]
  show (if _ then 0 else bm.words (i / 64)).getLsbD (i % 64) = _
  split_ifs with h
  · exact BitVec.getLsbD_zero
  · rfl

/-- A pool over the `size` pages from page `first` on, with what has been handed out of it: the page
of the bitmap comes first, and the ledger leaves the last bit of the bitmap out. -/
structure PoolInv (first size : ℕ) (p : PagePool) (out : List Extent) : Prop where
  base : p.base = pageSize * (first + 1)
  mapAddr : p.mapAddr = pageSize * first
  pages : p.pages = (size + 2 ^ 64 - 1) % 2 ^ 64
  bitcount : p.occupancyMap.bitcount = size
  ledger : ∃ l : Ledger (size - 1), Accounts p.occupancyMap l ∧ out = l.extents.map (Extent.shift (first + 1))
  empty : size = 0 → out = []

/-- A request for `npages` pages does not come to the last bit of the bitmap: there is no run of
that many clear bits, or one within the first `pages` bits. -/
def PagePool.Fits (p : PagePool) (npages : ℕ) : Prop :=
  (∃ i, p.occupancyMap.RunAt npages false i) →
    ∃ i, i + npages ≤ p.pages ∧ p.occupancyMap.RunAt npages false i

namespace PoolInv
variable {first size : ℕ} {p : PagePool} {out : List Extent}

theorem pages_eq (h : PoolInv first size p out) (hpos : 0 < size) : p.pages = size - 1 := by
  have hlt := p.occupancyMap.bitcount_lt
  rw [h.bitcount] at hlt
  rw [h.pages]
  omega

/-- A run within the first `pages` bits becomes a range handed out. -/
theorem take (h : PoolInv first size p out) {r n : ℕ} (hr : p.occupancyMap.RunAt n false r)
    (hin : r + n ≤ size - 1) {bm : Bitmap} (hb : bm.bitcount = p.occupancyMap.bitcount)
    (ha : ∀ {l : Ledger (size - 1)} (hl : Accounts p.occupancyMap l),
      Accounts bm (l.take ⟨r, n⟩ hin (hl.not_used hr))) :
    PoolInv first size { p with occupancyMap := bm } (⟨first + 1 + r, n⟩ :: out) := by
  obtain ⟨l, hl, ho⟩ := h.ledger
  refine ⟨h.base, h.mapAddr, h.pages, hb.trans h.bitcount, ⟨_, ha hl, ?_⟩, fun h₀ => ?_⟩
  · rw [ho, Ledger.take_extents, List.map_cons]
    unfold Extent.shift
    rw [Nat.add_comm r]
  · have := hr.lt
    rw [h.bitcount] at this
    omega

theorem alloc (h : PoolInv first size p out) (hs : first + size < 2 ^ 43) {n : ℕ} (hfit : p.Fits n) :
    pagePoolAlloc p n = (p, 0) ∨ ∃ r p', pagePoolAlloc p n = (p', pageSize * (first + 1 + r)) ∧
      r + n ≤ size - 1 ∧ PoolInv first size p' (⟨first + 1 + r, n⟩ :: out) := by
  unfold pagePoolAlloc
  rcases bitmapScanAndFlip_spec p.occupancyMap 0 n false with ⟨he, -⟩ | ⟨r, he, hne, -, hr, hleast⟩
  · exact .inl (by simp [he])
  · have hlt := hr.lt
    rw [h.bitcount] at hlt
    have hin : r + n ≤ size - 1 := by
      obtain ⟨i, hi, hri⟩ := hfit ⟨r, hr⟩
      rw [h.pages_eq (by omega)] at hi
      by_cases hir : i < r
      · exact absurd hri (hleast i (Nat.zero_le _) hir)
      · omega
    have hpage : (p.base + r * pageSize) % 2 ^ 64 = pageSize * (first + 1 + r) := by
      rw [h.base]
      unfold pageSize
      omega
    refine .inr ⟨r, _, ?_, hin, h.take hr hin (bitmapFlip_bitcount _ _ _) fun hl => hl.flip hr hin⟩
    simp only [he, if_neg hne, hpage]

theorem reserve (h : PoolInv first size p out) (hs : first + size < 2 ^ 43) {ph : ℕ}
    (hw : p.Within (physToKernel ph)) {p' : PagePool} (hp : pagePoolReserve p ph = some p') :
    ∃ r, r + 1 ≤ size - 1 ∧ physToKernel ph / pageSize = first + 1 + r ∧
      PoolInv first size p' (⟨first + 1 + r, 1⟩ :: out) := by
  obtain ⟨hle, hlt⟩ := hw
  have hpos : 0 < size := by
    by_contra h₀
    rw [h.base, h.pages] at hlt
    rw [h.base] at hle
    unfold pageSize at hle hlt
    omega
  rw [h.base, h.pages_eq hpos] at hlt
  rw [h.base] at hle
  obtain ⟨r, hr⟩ : ∃ r, physToKernel ph / pageSize = first + 1 + r :=
    ⟨physToKernel ph / pageSize - (first + 1), by unfold pageSize at hle ⊢; omega⟩
  have hin : r + 1 ≤ size - 1 := by
    unfold pageSize at hr hlt
    omega
  have hpg : (physToKernel ph / pageSize + 2 ^ 64 - p.base / pageSize) % 2 ^ 64 = r := by
    rw [hr, h.base, Nat.mul_div_cancel_left _ (by decide)]
    omega
  unfold pagePoolReserve at hp
  simp only [hpg] at hp
  have hne : r ≠ bitmapNpos := by
    unfold bitmapNpos
    omega
  by_cases hall : bitmapAll p.occupancyMap r 1 true = true
  · rw [if_pos hall] at hp
    cases hp
  · rw [if_neg hall] at hp
    cases hp
    rw [bitmapAll_iff _ hne] at hall
    have hrun : p.occupancyMap.RunAt 1 false r := by
      refine ⟨by rw [h.bitcount]; omega, by rw [h.bitcount]; omega, fun j hj => ?_⟩
      rw [Bool.eq_false_iff]
      refine fun ht => hall ⟨by rw [h.bitcount]; omega, by rw [h.bitcount]; omega, fun j' hj' => ?_⟩
      simp only [Extent.covers_mk] at hj hj'
      rw [show j' = j by omega, ht]
    exact ⟨r, hin, hr, h.take hrun hin (bitmapSet_bitcount _ _ _ _) fun hl => hl.set hrun hin⟩

/-- Clearing pages other than the one with the bitmap changes nothing. -/
theorem memset (h : PoolInv first size p out) (hfit : 16 + 8 * ((size + 63) / 64) ≤ pageSize) {e : Extent}
    (he : ¬ e.Covers first) : PoolInv first size (p.memset (pageSize * e.start) (pageSize * e.len)) out := by
  have hoff : ∀ a, a < pageSize → ¬ (Extent.mk (pageSize * e.start) (pageSize * e.len)).Covers (p.mapAddr + a) := by
    intro a ha hc
    rw [h.mapAddr] at hc
    refine he ?_
    unfold Extent.Covers at hc ⊢
    unfold pageSize at hc ha
    dsimp only at hc
    omega
  have hb : (p.memset (pageSize * e.start) (pageSize * e.len)).occupancyMap.bitcount =
      p.occupancyMap.bitcount := if_neg (hoff 0 (by decide))
  obtain ⟨l, hl, ho⟩ := h.ledger
  refine ⟨h.base, h.mapAddr, h.pages, hb.trans h.bitcount, ⟨l, ⟨hb ▸ hl.le, fun i hi => ?_⟩, ho⟩, h.empty⟩
  rw [hb] at hi
  unfold PagePool.memset
  rw [memset_test, Nat.add_assoc, if_neg, hl.test i hi]
  refine hoff _ ?_
  rw [h.bitcount] at hi
  omega

end PoolInv

/-! ### Runs over both pools -/

/-- The pages `init_paging` gives to a pool. -/
def region (totalPages : ℕ) (q : Pool) : Extent := ⟨poolBase totalPages q / pageSize, poolPages totalPages q⟩

/-- The pages that hold the bitmap of a pool, header and words. -/
def mapPages (totalPages : ℕ) (q : Pool) : Extent :=
  ⟨poolBase totalPages q / pageSize,
    (16 + 8 * ((poolPages totalPages q + 63) / 64) + pageSize - 1) / pageSize⟩

/-- Up to this number of pages the bitmaps fit into one page each. -/
def maxPages : ℕ := 33554176

/-- The pools and, for each, the ranges of pages returned or reserved so far. -/
structure PageState where
  pools : Pool → PagePool
  out : Pool → List Extent

inductive PageOp where
  | allocate (flags : BitVec 32)
  | allocateMultiple (flags : BitVec 32) (pages : ℕ)
  | reserve (phys : ℕ)

namespace PageState

/-- Note the range of `pages` pages at `page`, unless it is `NULL`. -/
def record (out : Pool → List Extent) (q : Pool) (page pages : ℕ) : Pool → List Extent :=
  if page = 0 then out else Function.update out q (⟨page / pageSize, pages⟩ :: out q)

def step (s : PageState) : PageOp → Option PageState
  | .allocate flags =>
    let r := pageAllocate s.pools flags
    some ⟨r.1, record s.out (poolOf flags) r.2 1⟩
  | .allocateMultiple flags pages =>
    let r := pageAllocateMultiple s.pools flags pages
    some ⟨r.1, record s.out (poolOf flags) r.2 pages⟩
  | .reserve phys => (pageReserve s.pools phys).map (fun r =>
      ⟨r.1, (reservePool s.pools phys).elim s.out (fun q => record s.out q r.2 1)⟩)

/-- No request comes to the last bit of the bitmap of its pool. -/
def Fits (s : PageState) : PageOp → Prop
  | .allocate flags => (s.pools (poolOf flags)).Fits 1
  | .allocateMultiple flags pages => (s.pools (poolOf flags)).Fits pages
  | .reserve _ => True

/-- What a caller of the page allocator relies on. -/
structure Sound (totalPages : ℕ) (s : PageState) : Prop where
  inside : ∀ q, ∀ e ∈ s.out q, (region totalPages q).start ≤ e.start ∧
    e.start + e.len ≤ (region totalPages q).start + (region totalPages q).len
  offMaps : ∀ q q', ∀ e ∈ s.out q, e.Apart (mapPages totalPages q')
  apart : ∀ q, (s.out q).Pairwise Extent.Apart
  across : ∀ q q', q ≠ q' → ∀ e ∈ s.out q, ∀ e' ∈ s.out q', e.Apart e'

def Inv (totalPages : ℕ) (s : PageState) : Prop :=
  ∀ q, PoolInv (region totalPages q).start (poolPages totalPages q) (s.pools q) (s.out q)

end PageState

section layout
variable {totalPages : ℕ}

theorem poolPages_le (h : totalPages ≤ maxPages) (q : Pool) : poolPages totalPages q ≤ 16777088 := by
  unfold maxPages at h
  cases q with
  | kernel =>
      show totalPages - totalPages / 2 ≤ _
      omega
  | user =>
      show totalPages / 2 ≤ _
      omega

theorem physToKernel_reservedEnd : physToKernel reservedEnd = 0xFFFF800000800000 := rfl

theorem region_start_kernel : (region totalPages .kernel).start = 2 ^ 43 - 2 ^ 26 + 4 := by
  show physToKernel reservedEnd / pageSize = _
  rw [physToKernel_reservedEnd]
  unfold pageSize
  omega

theorem region_start_user (h : totalPages ≤ maxPages) :
    (region totalPages .user).start = 2 ^ 43 - 2 ^ 26 + 4 + poolPages totalPages .kernel := by
  have hk := poolPages_le h .kernel
  show (physToKernel reservedEnd + poolPages totalPages .kernel * pageSize) % 2 ^ 64 / pageSize = _
  rw [physToKernel_reservedEnd]
  unfold pageSize
  omega

theorem poolBase_eq (h : totalPages ≤ maxPages) (q : Pool) :
    poolBase totalPages q = pageSize * (region totalPages q).start := by
  cases q with
  | kernel =>
      rw [region_start_kernel]
      show physToKernel reservedEnd = _
      rw [physToKernel_reservedEnd]
      unfold pageSize
      omega
  | user =>
      have hk := poolPages_le h .kernel
      rw [region_start_user h]
      show (physToKernel reservedEnd + poolPages totalPages .kernel * pageSize) % 2 ^ 64 = _
      rw [physToKernel_reservedEnd]
      unfold pageSize
      omega

theorem region_lt (h : totalPages ≤ maxPages) (q : Pool) :
    (region totalPages q).start + poolPages totalPages q + 1 < 2 ^ 43 := by
  have hk := poolPages_le h .kernel
  have hu := poolPages_le h .user
  cases q with
  | kernel =>
      rw [region_start_kernel]
      omega
  | user =>
      rw [region_start_user h]
      omega

theorem mapPages_len (h : totalPages ≤ maxPages) (q : Pool) : (mapPages totalPages q).len = 1 := by
  have hq := poolPages_le h q
  unfold mapPages pageSize
  dsimp only
  omega

/-- A page of a pool behind its bitmap is not the page of a bitmap. -/
theorem not_covers_region_start (h : totalPages ≤ maxPages) {q : Pool} {r n : ℕ}
    (hin : r + n ≤ poolPages totalPages q - 1) (q' : Pool) :
    ¬ (Extent.mk ((region totalPages q).start + 1 + r) n).Covers (region totalPages q').start := by
  unfold Extent.Covers
  dsimp only
  cases q with
  | kernel =>
      cases q' with
      | kernel => omega
      | user =>
          rw [region_start_user h, region_start_kernel]
          omega
  | user =>
      cases q' with
      | kernel =>
          rw [region_start_user h, region_start_kernel]
          omega
      | user => omega

end layout

namespace PageState
variable {totalPages : ℕ}

/-- Every pool starts out with one page set aside for its bitmap and nothing handed out. -/
theorem inv_init (hmax : totalPages ≤ maxPages) {h : totalPages < 2 ^ 64} {words : Pool → ℕ → BitVec 64}
    (hclear : ∀ q i, i < poolPages totalPages q →
      bitmapTest (initPaging totalPages h words q).occupancyMap i = false) :
    Inv totalPages ⟨initPaging totalPages h words, fun _ => []⟩ := by
  intro q
  have hlt := region_lt hmax q
  have hone : pageRoundUp 0 / pageSize = 1 := by decide
  refine ⟨?_, poolBase_eq hmax q, ?_, rfl, ⟨_, Accounts.empty (Nat.sub_le _ _) (hclear q), rfl⟩, fun _ => rfl⟩
  · show (poolBase totalPages q + pageRoundUp 0 / pageSize * pageSize) % 2 ^ 64 = _
    rw [hone, poolBase_eq hmax q]
    unfold pageSize
    omega
  · show (poolPages totalPages q + 2 ^ 64 - pageRoundUp 0 / pageSize) % 2 ^ 64 = _
    rw [hone]

theorem pageAllocate_eq (pools : Pool → PagePool) (flags : BitVec 32) :
    pageAllocate pools flags = pageAllocateMultiple pools flags 1 := by
  unfold pageAllocate pageAllocateMultiple
  rw [show pageSize * 1 % 2 ^ 64 = pageSize by decide]

/-- An operation on one pool that keeps the invariant of the pool. -/
theorem Inv.update {s : PageState} (hs : Inv totalPages s) (q : Pool) {p : PagePool} {out : List Extent}
    (hp : PoolInv (region totalPages q).start (poolPages totalPages q) p out) :
    Inv totalPages ⟨Function.update s.pools q p, Function.update s.out q out⟩ := by
  intro q'
  by_cases hq : q' = q
  · subst hq
    simpa only [Function.update_self] using hp
  · simpa only [Function.update_of_ne hq] using hs q'

theorem record_page (out : Pool → List Extent) (q : Pool) {k : ℕ} (hk : 0 < k) (n : ℕ) :
    record out q (pageSize * k) n = Function.update out q (⟨k, n⟩ :: out q) := by
  unfold record
  rw [if_neg (Nat.mul_ne_zero (by decide) (by omega)), Nat.mul_div_cancel_left _ (by decide)]

theorem inv_allocateMultiple (hmax : totalPages ≤ maxPages) {s : PageState} (hs : Inv totalPages s)
    {flags : BitVec 32} {n : ℕ} (hfit : (s.pools (poolOf flags)).Fits n) :
    Inv totalPages ⟨(pageAllocateMultiple s.pools flags n).1,
      record s.out (poolOf flags) (pageAllocateMultiple s.pools flags n).2 n⟩ := by
  have hlt := region_lt hmax (poolOf flags)
  have hsize := poolPages_le hmax (poolOf flags)
  unfold pageAllocateMultiple
  rcases (hs (poolOf flags)).alloc (by omega) hfit with he | ⟨r, p', he, hin, hp'⟩
  · simp only [he, record, if_true, ne_eq, not_true_eq_false, false_and, if_false, Function.update_eq_self]
    exact hs
  · have hlen : pageSize * n % 2 ^ 64 = pageSize * n := by
      unfold pageSize
      omega
    have hupd := hs.update (poolOf flags) hp'
    have hpos : 0 < (region totalPages (poolOf flags)).start + 1 + r := by omega
    simp only [he, record_page s.out (poolOf flags) hpos n, hlen]
    split_ifs
    · intro q
      have hq := poolPages_le hmax q
      have hmap : 16 + 8 * ((poolPages totalPages q + 63) / 64) ≤ pageSize := by
        unfold pageSize
        omega
      exact (hupd q).memset (e := ⟨(region totalPages (poolOf flags)).start + 1 + r, n⟩) hmap
        (not_covers_region_start hmax hin q)
    · exact hupd

theorem inv_reserve (hmax : totalPages ≤ maxPages) {s t : PageState} (hs : Inv totalPages s) {phys : ℕ}
    (hst : s.step (.reserve phys) = some t) : Inv totalPages t := by
  simp only [step, pageReserve] at hst
  cases hp : reservePool s.pools phys with
  | none =>
      rw [hp] at hst
      cases hst
      exact hs
  | some q =>
      have hw : (s.pools q).Within (physToKernel phys) := by
        unfold reservePool at hp
        split_ifs at hp with h₁ h₂ <;> cases hp <;> assumption
      have hlt := region_lt hmax q
      cases hp' : pagePoolReserve (s.pools q) phys with
      | none => simp [hp, hp'] at hst
      | some p' =>
          simp only [hp, hp', Option.map_some, Option.elim_some, Option.some.injEq] at hst
          obtain ⟨k, hin, hpage, hinv⟩ := (hs q).reserve (by omega) hw hp'
          have hrec : record s.out q (physToKernel phys) 1 = Function.update s.out q
              (⟨(region totalPages q).start + 1 + k, 1⟩ :: s.out q) := by
            unfold record
            rw [if_neg, hpage]
            intro h₀
            rw [h₀, Nat.zero_div] at hpage
            omega
          rw [hrec] at hst
          exact hst ▸ hs.update q hinv

theorem inv_step (hmax : totalPages ≤ maxPages) {s t : PageState} {op : PageOp} (hs : Inv totalPages s)
    (hfit : s.Fits op) (hst : s.step op = some t) : Inv totalPages t := by
  cases op with
  | allocate flags =>
      simp only [step, pageAllocate_eq] at hst
      cases hst
      exact inv_allocateMultiple hmax hs hfit
  | allocateMultiple flags pages =>
      cases hst
      exact inv_allocateMultiple hmax hs hfit
  | reserve phys => exact inv_reserve hmax hs hst

theorem Inv.sound (hmax : totalPages ≤ maxPages) {s : PageState} (hs : Inv totalPages s) :
    Sound totalPages s := by
  have hin : ∀ q, ∀ e ∈ s.out q, (region totalPages q).start + 1 ≤ e.start ∧
      e.start + e.len ≤ (region totalPages q).start + poolPages totalPages q := by
    intro q e he
    obtain ⟨l, -, ho⟩ := (hs q).ledger
    have hpos : poolPages totalPages q ≠ 0 := by
      intro h₀
      rw [(hs q).empty h₀] at he
      cases he
    rw [ho] at he
    obtain ⟨e', he', rfl⟩ := List.mem_map.mp he
    have := l.inside e' he'
    unfold Extent.shift
    dsimp only
    omega
  have hk := @region_start_kernel totalPages
  have hu := region_start_user hmax
  refine ⟨fun q e he => ⟨by have := (hin q e he).1; omega, (hin q e he).2⟩, ?_, ?_, ?_⟩
  · intro q q' e he i hi hi'
    have hlen := mapPages_len hmax q'
    have hstart : (mapPages totalPages q').start = (region totalPages q').start := rfl
    have := hin q e he
    unfold Extent.Covers at hi hi'
    cases q <;> cases q' <;> omega
  · intro q
    obtain ⟨l, -, ho⟩ := (hs q).ledger
    rw [ho, List.pairwise_map]
    exact l.apart.imp fun h => h.shift _
  · intro q q' hne e he e' he'
    have h₁ := hin q e he
    have h₂ := hin q' e' he'
    cases q with
    | kernel =>
        cases q' with
        | kernel => exact absurd rfl hne
        | user => exact Extent.apart_of_le (by omega)
    | user =>
        cases q' with
        | kernel => exact (Extent.apart_of_le (by omega)).symm
        | user => exact absurd rfl hne

end PageState

end Dunkos
