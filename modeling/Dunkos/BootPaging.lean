import Dunkos.PageTableBuffer
import Dunkos.Pml4Copy
import Mathlib.Order.Interval.Finset.Nat

/-! # The page tables at boot (`boot.s`, `ia32page.s`, `init_pml4`, `init_paging`)

`set_up_page_tables` maps the first GiB to itself, with stores of 32 bits into tables that the loader has cleared.
`init_paging` then maps all frames behind the kernel to `PHYSBASE`, page by page, with tables from `base_pt_pool`.
`boot_memory_map` says for every canonical address what it is mapped to in the end, and that the tables are a proper tree,
as the functions of `pml4.c` need it. -/

namespace Dunkos

/-- The three tables in `.bss`, one behind the other.  The linker script puts `.bss` behind 2 MiB, and the pool at 4 MiB
behind it. -/
structure BootTables where
  pml4Table : BitVec 32
  aligned : pml4Table.toNat % 4096 = 0
  ge : 2 ^ 21 ≤ pml4Table.toNat
  le : pml4Table.toNat + 4 * 4096 ≤ 2 ^ 22

namespace BootTables

def pdpTable (t : BootTables) : BitVec 32 := t.pml4Table + 0x1000

def pagedirTable (t : BootTables) : BitVec 32 := t.pml4Table + 0x2000

end BootTables

/-- `movl %eax, (x)` at a multiple of eight. -/
def movl (m : PhysMem) (x eax : BitVec 32) : PhysMem :=
  Function.update m (x.setWidth 64) (m (x.setWidth 64) >>> 32 <<< 32 ||| eax.setWidth 64)

/-- The loop at `.map_pagedir_table`, `n` times. -/
def mapPagedirTable (t : BootTables) (m : PhysMem) (n : ℕ) : PhysMem :=
  (List.range n).foldl (fun m ecx =>
    movl m (t.pagedirTable + BitVec.ofNat 32 ecx * 8) (BitVec.ofNat 32 ecx <<< 21 ||| 0x83)) m

def setUpPageTables (t : BootTables) (m : PhysMem) : PhysMem :=
  let m := movl m t.pml4Table (t.pdpTable ||| 0x03)
  let m := movl m t.pdpTable (t.pagedirTable ||| 0x03)
  mapPagedirTable t m 0x200

/-- `_pool_begin`, `_apic_base` and `_reserved_end` of the linker script: the pool ends at the second. -/
def poolBegin : BitVec 64 := 0x400000

def apicBase : ℕ := 0x600000

def reservedEndAddr : BitVec 64 := 0x800000

/-- `(PHYSSIZE - reserved_end) / PAGESIZE`. -/
def totalPages : ℕ := (0x100000000 - reservedEndAddr.toNat) / 0x200000

/-- The calls of `pml4_map_address_buffer` in `init_paging`. -/
def initPagingCalls : List MapCall :=
  (List.range totalPages).map fun pgno =>
    let kernaddr := physToKernelAddr reservedEndAddr + BitVec.ofNat 64 pgno * 0x200000
    ⟨kernaddr, kernelToPhys kernaddr⟩

namespace BootTables
variable (t : BootTables)

/-- `cr3`, and so `default_pml4`. -/
def root : BitVec 64 := t.pml4Table.setWidth 64

/-- `set_up_page_tables`, `init_pml4` and the loop of `init_paging`. -/
def boot (m : PhysMem) : BufferState := initPagingCalls.foldl (MapCall.run t.root) (setUpPageTables t m, poolBegin)

/-- The loader has cleared `.bss`; the memory of the pool is clear as well. -/
structure Cleared (m : PhysMem) : Prop where
  bss : ∀ x : BitVec 64, t.pml4Table.toNat ≤ x.toNat → x.toNat < t.pml4Table.toNat + 3 * 4096 → m x = 0
  pool : ∀ x : BitVec 64, 2 ^ 22 ≤ x.toNat → x.toNat < apicBase → m x = 0

end BootTables

/-- The entry for the large page around `x`, which is present and writable. -/
def largeEntry (x : BitVec 64) : BitVec 64 := x &&& ~~~0x1FFFFF#64 ||| (pml4Pgsize ||| pml4Writable ||| pml4Present)

/-! ### What the pool has to give -/

section
variable {m : PhysMem} {pml4 pool addr frame : BitVec 64} {poolEnd : ℕ}

theorem slot_next_toNat {x : BitVec 64} (h : x.toNat + 4096 < 2 ^ 64) : (slot x 512).toNat = x.toNat + 4096 := by
  unfold slot
  rw [BitVec.toNat_add, show (8#64 * 512 : BitVec 64).toNat = 4096 from rfl]
  omega

/-- A call takes the missing tables from the pool. -/
theorem pml4MapAddressBuffer_pool (h : TablePool m pool poolEnd pml4)
    (hroom : pool.toNat + 4096 * tablesMissing m pml4 addr ≤ poolEnd) (frame : BitVec 64) :
    (pml4MapAddressBuffer (m, pool) pml4 addr frame).2.toNat ≤ pool.toNat + 4096 * tablesMissing m pml4 addr := by
  have hfits := h.fits
  unfold tablesMissing at hroom ⊢
  by_cases hp : pdpOf m pml4 addr = 0
  · rw [if_pos hp] at hroom ⊢
    obtain ⟨m₁, hm₁⟩ : ∃ m₁,
        m₁ = Function.update m (slot pml4 (pml4Offset addr)) (pool ||| (pml4Writable ||| pml4Present)) := ⟨_, rfl⟩
    have hnext := h.next_toNat (by omega)
    unfold pml4MapAddressBuffer
    dsimp only
    rw [if_pos (show tableOf (m (slot pml4 (pml4Offset addr))) = 0 from hp), ← hm₁]
    dsimp only
    split_ifs
    · show (slot (slot pool 512) 512).toNat ≤ _
      rw [slot_next_toNat (by omega), hnext]
    · show (slot pool 512).toNat ≤ _
      omega
  · rw [if_neg hp] at hroom ⊢
    unfold pml4MapAddressBuffer
    dsimp only
    rw [if_neg (show ¬ tableOf (m (slot pml4 (pml4Offset addr))) = 0 from hp)]
    dsimp only
    by_cases hg : pgdOf m pml4 addr = 0
    · have hg' : tableOf (m (slot (tableOf (m (slot pml4 (pml4Offset addr)))) (pdpOffset addr))) = 0 := hg
      rw [if_pos hg] at hroom ⊢
      rw [if_pos hg']
      exact (h.next_toNat (by omega)).le
    · have hg' : ¬ tableOf (m (slot (tableOf (m (slot pml4 (pml4Offset addr)))) (pdpOffset addr))) = 0 := hg
      rw [if_neg hg, if_neg hg']
      exact Nat.le_refl _

/-- The tables of a walk do not depend on the last offset. -/
theorem SamePgd.hasTables {a b : BitVec 64} (h : SamePgd a b) (hb : HasTables m pml4 b) : HasTables m pml4 a := by
  have hp : pdpOf m pml4 a = pdpOf m pml4 b := by
    unfold pdpOf
    rw [h.1]
  refine ⟨hp ▸ hb.1, ?_⟩
  have hg : pgdOf m pml4 a = pgdOf m pml4 b := by
    unfold pgdOf
    rw [hp, h.2]
  exact hg ▸ hb.2

theorem samePgd_of_region_eq {a b : BitVec 64} (h : a.toNat / 2 ^ 30 = b.toNat / 2 ^ 30) : SamePgd a b := by
  refine ⟨?_, ?_⟩ <;> apply BitVec.eq_of_toNat_eq
  · rw [pml4Offset_toNat, pml4Offset_toNat]
    omega
  · rw [pdpOffset_toNat, pdpOffset_toNat]
    omega

theorem hasTables_of_walk (h : walk m pml4 addr ≠ 0) : HasTables m pml4 addr := by
  by_contra hl
  exact h (if_neg hl)

theorem tablesMissing_of_tables (h : HasTables m pml4 addr) : tablesMissing m pml4 addr = 0 := by
  unfold tablesMissing
  rw [if_neg h.1, if_neg h.2]

theorem tablesMissing_le (m : PhysMem) (pml4 addr : BitVec 64) : tablesMissing m pml4 addr ≤ 2 := by
  unfold tablesMissing
  split_ifs <;> omega

theorem entry_ne_zero (frame : BitVec 64) : frame ||| (pml4Pgsize ||| pml4Writable ||| pml4Present) ≠ 0 := by
  intro h
  have hne := @entry_flag frame pml4Present (pml4Pgsize ||| pml4Writable ||| pml4Present) 0 (by decide) (by decide)
  rw [h] at hne
  exact hne rfl

/-- What is mapped before a call is mapped behind it. -/
theorem walk_ne_zero_after (htree : ProperTree m pml4) (h : TablePool m pool poolEnd pml4)
    (hroom : pool.toNat + 4096 * tablesMissing m pml4 addr ≤ poolEnd) (frame : BitVec 64) {a : BitVec 64}
    (ha : SamePage a addr ∨ walk m pml4 a ≠ 0) : walk (pml4MapAddressBuffer (m, pool) pml4 addr frame).1 pml4 a ≠ 0 := by
  rw [(pml4MapAddressBuffer_spec htree h hroom frame).2.2]
  split_ifs with hs
  · exact entry_ne_zero frame
  · exact ha.resolve_left hs

end

/-- The GiB of a call. -/
def MapCall.region (c : MapCall) : ℕ := c.addr.toNat / 2 ^ 30

/-- A call takes its tables out of those of its GiB, when there were none. -/
theorem regions_room (c : MapCall) (cs : List MapCall) {m : PhysMem} {pml4 : BitVec 64} {seen : Finset ℕ}
    (hseen : ∀ r ∈ seen, ∃ a : BitVec 64, a.toNat / 2 ^ 30 = r ∧ walk m pml4 a ≠ 0) :
    4096 * tablesMissing m pml4 c.addr + 8192 * ((cs.map MapCall.region).toFinset \ insert c.region seen).card ≤
      8192 * (((c :: cs).map MapCall.region).toFinset \ seen).card := by
  rw [List.map_cons, List.toFinset_cons]
  by_cases hr : c.region ∈ seen
  · obtain ⟨a, har, haw⟩ := hseen _ hr
    have hzero := tablesMissing_of_tables ((samePgd_of_region_eq har.symm).hasTables (hasTables_of_walk haw))
    rw [Finset.insert_sdiff_of_mem _ hr, Finset.insert_eq_of_mem hr, hzero, Nat.mul_zero, Nat.zero_add]
  · have hcard : ((cs.map MapCall.region).toFinset \ insert c.region seen).card + 1 ≤
        (insert c.region ((cs.map MapCall.region).toFinset \ seen)).card := by
      rw [← Finset.card_insert_of_notMem (a := c.region) (by simp)]
      refine Finset.card_le_card (Finset.insert_subset_insert _ ?_)
      exact Finset.sdiff_subset_sdiff (Finset.Subset.refl _) (Finset.subset_insert _ _)
    have hmissing := tablesMissing_le m pml4 c.addr
    rw [Finset.insert_sdiff_of_notMem _ hr]
    omega

/-- Two tables for every GiB suffice. -/
theorem poolSuffices_of_regions {pml4 : BitVec 64} {poolEnd : ℕ} {calls : List MapCall} {s : BufferState}
    (htree : ProperTree s.1 pml4) (hpool : TablePool s.1 s.2 poolEnd pml4) {seen : Finset ℕ}
    (hseen : ∀ r ∈ seen, ∃ a : BitVec 64, a.toNat / 2 ^ 30 = r ∧ walk s.1 pml4 a ≠ 0)
    (hroom : s.2.toNat + 8192 * ((calls.map MapCall.region).toFinset \ seen).card ≤ poolEnd) :
    PoolSuffices pml4 poolEnd s calls := by
  induction calls generalizing s seen with
  | nil => trivial
  | cons c cs ih =>
      have hregions := regions_room c cs hseen
      have hneed : s.2.toNat + 4096 * tablesMissing s.1 pml4 c.addr ≤ poolEnd := by omega
      obtain ⟨htree', hpool', -⟩ := pml4MapAddressBuffer_spec htree hpool hneed c.frame
      have hnext : (c.run pml4 s).2.toNat ≤ s.2.toNat + 4096 * tablesMissing s.1 pml4 c.addr :=
        pml4MapAddressBuffer_pool hpool hneed c.frame
      refine ⟨hneed, @ih (c.run pml4 s) htree' hpool' (insert c.region seen) (fun r hr => ?_) (by omega)⟩
      rcases Finset.mem_insert.mp hr with rfl | hr
      · exact ⟨c.addr, rfl, walk_ne_zero_after htree hpool hneed c.frame (.inl ⟨rfl, rfl, rfl⟩)⟩
      · obtain ⟨b, hbr, hbw⟩ := hseen r hr
        exact ⟨b, hbr, walk_ne_zero_after htree hpool hneed c.frame (.inr hbw)⟩

/-! ### The tables of `set_up_page_tables` -/

namespace BootTables
variable (t : BootTables) {m : PhysMem}

/-- The tables as the processor addresses them. -/
def pdp : BitVec 64 := t.pdpTable.setWidth 64

def pagedir : BitVec 64 := t.pagedirTable.setWidth 64

@[simp] theorem root_toNat : t.root.toNat = t.pml4Table.toNat := by
  unfold root
  rw [BitVec.toNat_setWidth]
  omega

@[simp] theorem pdp_toNat : t.pdp.toNat = t.pml4Table.toNat + 4096 := by
  have hle := t.le
  unfold pdp pdpTable
  rw [BitVec.toNat_setWidth, BitVec.toNat_add, show (0x1000 : BitVec 32).toNat = 4096 from rfl]
  omega

@[simp] theorem pagedir_toNat : t.pagedir.toNat = t.pml4Table.toNat + 8192 := by
  have hle := t.le
  unfold pagedir pagedirTable
  rw [BitVec.toNat_setWidth, BitVec.toNat_add, show (0x2000 : BitVec 32).toNat = 8192 from rfl]
  omega

/-- The address that the loop stores to. -/
theorem pagedir_slot {n : ℕ} (hn : n < 512) :
    (t.pagedirTable + BitVec.ofNat 32 n * 8).setWidth 64 = slot t.pagedir (BitVec.ofNat 64 n) := by
  have hle := t.le
  have hpd := t.pagedir_toNat
  apply BitVec.eq_of_toNat_eq
  rw [slot_toNat (by rw [hpd, BitVec.toNat_ofNat]; omega), hpd, BitVec.toNat_setWidth, BitVec.toNat_add, BitVec.toNat_mul]
  unfold pagedirTable
  rw [BitVec.toNat_add, BitVec.toNat_ofNat, BitVec.toNat_ofNat, show (0x2000 : BitVec 32).toNat = 8192 from rfl,
    show (8 : BitVec 32).toNat = 8 from rfl]
  omega

/-- The entry that the loop stores. -/
def identityEntry (n : ℕ) : BitVec 64 := (BitVec.ofNat 32 n <<< 21 ||| 0x83 : BitVec 32).setWidth 64

theorem slot_pagedir_toNat {n : ℕ} (hn : n < 512) :
    (slot t.pagedir (BitVec.ofNat 64 n)).toNat = t.pml4Table.toNat + 8192 + 8 * n := by
  have hle := t.le
  have hpd := t.pagedir_toNat
  rw [slot_toNat (by rw [hpd, BitVec.toNat_ofNat]; omega), hpd, BitVec.toNat_ofNat, Nat.mod_eq_of_lt (by omega)]

/-- `x` is the address of one of the first `n` words of the `pagedir`. -/
def InPagedir (n : ℕ) (x : BitVec 64) : Prop :=
  t.pml4Table.toNat + 8192 ≤ x.toNat ∧ x.toNat < t.pml4Table.toNat + 8192 + 8 * n ∧ x.toNat % 8 = 0

instance (n : ℕ) (x : BitVec 64) : Decidable (t.InPagedir n x) := inferInstanceAs (Decidable (_ ∧ _))

/-- The memory behind `n` rounds of the loop. -/
theorem mapPagedirTable_apply (hm : ∀ i, i < 512 → m (slot t.pagedir (BitVec.ofNat 64 i)) = 0) {n : ℕ} (hn : n ≤ 512)
    (x : BitVec 64) : mapPagedirTable t m n x =
      if t.InPagedir n x then identityEntry ((x.toNat - (t.pml4Table.toNat + 8192)) / 8) else m x := by
  have hal := t.aligned
  induction n with
  | zero =>
      rw [if_neg fun h => by unfold InPagedir at h; omega]
      rfl
  | succ n ih =>
      have hslot := t.slot_pagedir_toNat (n := n) (by omega)
      have hstep : mapPagedirTable t m (n + 1) = Function.update (mapPagedirTable t m n) (slot t.pagedir (BitVec.ofNat 64 n))
          (mapPagedirTable t m n (slot t.pagedir (BitVec.ofNat 64 n)) >>> 32 <<< 32 ||| identityEntry n) := by
        unfold mapPagedirTable
        rw [List.range_succ, List.foldl_append, List.foldl_cons, List.foldl_nil, movl, t.pagedir_slot (by omega)]
        rfl
      rw [hstep]
      rcases eq_or_ne x (slot t.pagedir (BitVec.ofNat 64 n)) with rfl | hne
      · have hpos : t.InPagedir (n + 1) (slot t.pagedir (BitVec.ofNat 64 n)) := by
          unfold InPagedir
          omega
        have hneg : ¬ t.InPagedir n (slot t.pagedir (BitVec.ofNat 64 n)) := by
          unfold InPagedir
          omega
        rw [Function.update_self, ih (by omega), if_neg hneg, if_pos hpos, hm n (by omega), hslot, Nat.add_sub_cancel_left,
          Nat.mul_div_cancel_left n (by decide)]
        exact BitVec.zero_or
      · rw [Function.update_of_ne hne, ih (by omega)]
        refine if_congr ?_ rfl rfl
        have hx : x.toNat ≠ (slot t.pagedir (BitVec.ofNat 64 n)).toNat := fun he => hne (BitVec.eq_of_toNat_eq he)
        unfold InPagedir
        omega

theorem movl_of_zero {x eax : BitVec 32} (h : m (x.setWidth 64) = 0) :
    movl m x eax = Function.update m (x.setWidth 64) (eax.setWidth 64) := by
  unfold movl
  rw [h]
  exact congrArg _ BitVec.zero_or

theorem root_ne_pdp : t.root ≠ t.pdp := by
  intro he
  have hnat := congrArg BitVec.toNat he
  rw [root_toNat, pdp_toNat] at hnat
  omega

/-- The memory behind `set_up_page_tables`. -/
theorem setUpPageTables_apply (h : t.Cleared m) (x : BitVec 64) : setUpPageTables t m x =
    if t.InPagedir 512 x then identityEntry ((x.toNat - (t.pml4Table.toNat + 8192)) / 8)
    else if x = t.pdp then t.pagedir ||| 3 else if x = t.root then t.pdp ||| 3 else m x := by
  have hle := t.le
  have hroot : m t.root = 0 := h.bss _ (by rw [root_toNat]) (by rw [root_toNat]; omega)
  have hpdp : m t.pdp = 0 := h.bss _ (by rw [pdp_toNat]; omega) (by rw [pdp_toNat]; omega)
  have h₁ : movl m t.pml4Table (t.pdpTable ||| 0x03) = Function.update m t.root (t.pdp ||| 3) := by
    rw [movl_of_zero hroot, BitVec.setWidth_or]
    rfl
  have h₂ : movl (Function.update m t.root (t.pdp ||| 3)) t.pdpTable (t.pagedirTable ||| 0x03) =
      Function.update (Function.update m t.root (t.pdp ||| 3)) t.pdp (t.pagedir ||| 3) := by
    have hzero : Function.update m t.root (t.pdp ||| 3) (t.pdpTable.setWidth 64) = 0 := by
      rw [show t.pdpTable.setWidth 64 = t.pdp from rfl, Function.update_of_ne t.root_ne_pdp.symm, hpdp]
    rw [movl_of_zero hzero, BitVec.setWidth_or]
    rfl
  unfold setUpPageTables
  rw [h₁, h₂, mapPagedirTable_apply t (fun i hi => ?_) (Nat.le_refl 512)]
  · simp only [Function.update_apply]
  · have hslot := t.slot_pagedir_toNat hi
    have hnpdp : slot t.pagedir (BitVec.ofNat 64 i) ≠ t.pdp := by
      intro he
      rw [he, pdp_toNat] at hslot
      omega
    have hnroot : slot t.pagedir (BitVec.ofNat 64 i) ≠ t.root := by
      intro he
      rw [he, root_toNat] at hslot
      omega
    rw [Function.update_of_ne hnpdp, Function.update_of_ne hnroot]
    exact h.bss _ (by omega) (by omega)

attribute [irreducible] setUpPageTables

/-! ### The tree behind `set_up_page_tables` -/

/-- A word of the `pml4` or of the `pdp`: only the first ones are set. -/
theorem word_eq (h : t.Cleared m) {table : BitVec 64} (ht : table = t.root ∨ table = t.pdp) {i : BitVec 64}
    (hi : i.toNat < 512) : setUpPageTables t m (slot table i) =
      if i = 0 then (if table = t.root then t.pdp ||| 3 else t.pagedir ||| 3) else 0 := by
  have hle := t.le
  have hal := t.aligned
  have htn : table.toNat = t.pml4Table.toNat ∨ table.toNat = t.pml4Table.toNat + 4096 := by
    rcases ht with rfl | rfl
    · exact .inl t.root_toNat
    · exact .inr t.pdp_toNat
  have hslot := slot_toNat_of_aligned (t := table) (by omega) hi
  have hzero : i = 0 ↔ i.toNat = 0 := BitVec.toNat_inj.symm
  rw [t.setUpPageTables_apply h, if_neg fun hin => by unfold InPagedir at hin; omega]
  by_cases hi₀ : i = 0
  · have hself : slot table i = table := BitVec.eq_of_toNat_eq (by rw [hslot, hzero.mp hi₀]; omega)
    rw [if_pos hi₀, hself]
    rcases ht with rfl | rfl
    · rw [if_neg t.root_ne_pdp, if_pos rfl, if_pos rfl]
    · rw [if_pos rfl, if_neg t.root_ne_pdp.symm]
  · have hpos : i.toNat ≠ 0 := fun he => hi₀ (hzero.mpr he)
    have hroot := t.root_toNat
    have hpdp := t.pdp_toNat
    rw [if_neg hi₀, if_neg fun he => by rw [he] at hslot; omega, if_neg fun he => by rw [he] at hslot; omega]
    exact h.bss _ (by omega) (by omega)

theorem tableOf_pdp : tableOf (t.pdp ||| 3) = t.pdp := by
  have hal := t.aligned
  rw [tableOf_or_flags _ (by decide)]
  exact tableOf_of_aligned (by rw [pdp_toNat]; omega)

theorem tableOf_pagedir : tableOf (t.pagedir ||| 3) = t.pagedir := by
  have hal := t.aligned
  rw [tableOf_or_flags _ (by decide)]
  exact tableOf_of_aligned (by rw [pagedir_toNat]; omega)

theorem pdp_ne_zero : t.pdp ≠ 0 := by
  intro he
  have hnat := t.pdp_toNat
  rw [he] at hnat
  simp at hnat

theorem pagedir_ne_zero : t.pagedir ≠ 0 := by
  intro he
  have hnat := t.pagedir_toNat
  rw [he] at hnat
  simp at hnat

theorem pdpOf_set (h : t.Cleared m) (a : BitVec 64) :
    pdpOf (setUpPageTables t m) t.root a = if pml4Offset a = 0 then t.pdp else 0 := by
  unfold pdpOf
  rw [t.word_eq h (.inl rfl) (pml4Offset_lt a), if_pos rfl]
  split_ifs
  · exact t.tableOf_pdp
  · rfl

theorem pgdOf_set (h : t.Cleared m) {a : BitVec 64} (ha : pml4Offset a = 0) :
    pgdOf (setUpPageTables t m) t.root a = if pdpOffset a = 0 then t.pagedir else 0 := by
  unfold pgdOf
  rw [t.pdpOf_set h, if_pos ha, t.word_eq h (.inr rfl) (pdpOffset_lt a), if_neg t.root_ne_pdp.symm]
  split_ifs
  · exact t.tableOf_pagedir
  · rfl

/-- Only the first GiB has tables. -/
theorem hasTables_set (h : t.Cleared m) {a : BitVec 64} :
    HasTables (setUpPageTables t m) t.root a ↔ pml4Offset a = 0 ∧ pdpOffset a = 0 := by
  unfold HasTables
  rw [t.pdpOf_set h]
  by_cases ha : pml4Offset a = 0
  · rw [if_pos ha, t.pgdOf_set h ha]
    by_cases hb : pdpOffset a = 0
    · rw [if_pos hb]
      exact iff_of_true ⟨t.pdp_ne_zero, t.pagedir_ne_zero⟩ ⟨ha, hb⟩
    · rw [if_neg hb]
      exact iff_of_false (fun hl => hl.2 rfl) fun hz => hb hz.2
  · rw [if_neg ha]
    exact iff_of_false (fun hl => hl.1 rfl) fun hz => ha hz.1

theorem tables_set (h : t.Cleared m) {a : BitVec 64} (hl : HasTables (setUpPageTables t m) t.root a) :
    pdpOf (setUpPageTables t m) t.root a = t.pdp ∧ pgdOf (setUpPageTables t m) t.root a = t.pagedir := by
  obtain ⟨ha, hb⟩ := (t.hasTables_set h).mp hl
  rw [t.pdpOf_set h, t.pgdOf_set h ha, if_pos ha, if_pos hb]
  exact ⟨rfl, rfl⟩

/-- The three tables are at different pages. -/
theorem apart {p q : BitVec 64} {i j : ℕ} (hp : p.toNat = t.pml4Table.toNat + 4096 * i)
    (hq : q.toNat = t.pml4Table.toNat + 4096 * j) (hne : i ≠ j) : TablesApart p q := by
  intro a b ha hb he
  have hal := t.aligned
  have hnat := congrArg BitVec.toNat he
  rw [slot_toNat_of_aligned (by omega) ha, slot_toNat_of_aligned (by omega) hb] at hnat
  omega

theorem proper_set (h : t.Cleared m) : ProperTree (setUpPageTables t m) t.root := by
  have hal := t.aligned
  have hge := t.ge
  have hroot := t.root_toNat
  have hpdp := t.pdp_toNat
  have hpagedir := t.pagedir_toNat
  have hof : ∀ a, pdpOf (setUpPageTables t m) t.root a ≠ 0 →
      pml4Offset a = 0 ∧ pdpOf (setUpPageTables t m) t.root a = t.pdp := by
    intro a ha
    rw [t.pdpOf_set h] at ha ⊢
    split_ifs at ha ⊢ with hz
    · exact ⟨hz, rfl⟩
    · exact absurd rfl ha
  refine ⟨by omega, fun i j hi hj he => ?_, fun a ha => ?_, fun a ha => ?_, fun a b ha hb he => ?_, fun a b ha hab => ?_,
    fun a b ha hb _ => ?_⟩
  · have hnat := congrArg BitVec.toNat he
    rw [slot_toNat_of_aligned (by omega) hi, slot_toNat_of_aligned (by rfl) hj, show (0 : BitVec 64).toNat = 0 from rfl] at hnat
    omega
  · rw [(hof a ha).2]
    exact t.apart (i := 0) (j := 1) (by omega) (by omega) (by decide)
  · rw [(t.tables_set h ha).2]
    exact t.apart (i := 0) (j := 2) (by omega) (by omega) (by decide)
  · rw [(hof a ha).2, (t.tables_set h hb).2] at he
    have hnat := congrArg BitVec.toNat he
    omega
  · rw [(hof a ha).1, (hof b (hab ▸ ha)).1]
  · obtain ⟨ha₁, ha₂⟩ := (t.hasTables_set h).mp ha
    obtain ⟨hb₁, hb₂⟩ := (t.hasTables_set h).mp hb
    exact ⟨ha₁.trans hb₁.symm, ha₂.trans hb₂.symm⟩

theorem pool_set (h : t.Cleared m) : TablePool (setUpPageTables t m) poolBegin apicBase t.root := by
  have hle := t.le
  have hal := t.aligned
  have hroot := t.root_toNat
  have hpdp := t.pdp_toNat
  have hpagedir := t.pagedir_toNat
  have hbegin : poolBegin.toNat = 2 ^ 22 := rfl
  refine ⟨by decide, by decide, by decide, fun x hx hlt => ?_, fun i hi => .inl ?_, fun a ha => .inl ?_,
    fun a ha => .inl ?_⟩
  · rw [t.setUpPageTables_apply h, if_neg fun hin => by unfold InPagedir at hin; omega,
      if_neg fun he => by rw [he] at hx; omega, if_neg fun he => by rw [he] at hx; omega]
    exact h.pool x (hbegin ▸ hx) hlt
  · rw [slot_toNat_of_aligned (by omega) hi]
    omega
  · rw [t.pdpOf_set h] at ha ⊢
    split_ifs at ha ⊢ with hz
    · omega
    · exact absurd rfl ha
  · rw [(t.tables_set h ha).2]
    omega

/-- What the tables map at first. -/
theorem walk_set (h : t.Cleared m) (a : BitVec 64) : walk (setUpPageTables t m) t.root a =
    if pml4Offset a = 0 ∧ pdpOffset a = 0 then identityEntry (pgdOffset a).toNat else 0 := by
  have hle := t.le
  have hal := t.aligned
  have hpagedir := t.pagedir_toNat
  have hoff := pgdOffset_lt a
  unfold walk
  by_cases hl : HasTables (setUpPageTables t m) t.root a
  · have hslot := slot_toNat_of_aligned (t := t.pagedir) (i := pgdOffset a) (by omega) hoff
    rw [if_pos hl, if_pos ((t.hasTables_set h).mp hl)]
    unfold pml4ComputePtloc
    rw [(t.tables_set h hl).2, t.setUpPageTables_apply h, if_pos (by unfold InPagedir; omega), hslot, hpagedir,
      Nat.add_sub_cancel_left, Nat.mul_div_cancel_left _ (by decide)]
  · rw [if_neg hl, if_neg (mt (t.hasTables_set h).mpr hl)]

end BootTables

/-! ### The calls of `init_paging` -/

/-- The last call on the page of `a`, where no other call is on it. -/
theorem lastCall_eq_some {calls : List MapCall} {c : MapCall} {a : BitVec 64} (hc : c ∈ calls)
    (hpage : c.addr >>> 21 = a >>> 21) (hu : ∀ d ∈ calls, d.addr >>> 21 = a >>> 21 → d = c) :
    lastCall calls a = some c := by
  unfold lastCall
  have hsome : (calls.reverse.find? fun c : MapCall => decide (c.addr >>> 21 = a >>> 21)).isSome := by
    rw [List.find?_isSome]
    exact ⟨c, List.mem_reverse.mpr hc, by simpa using hpage⟩
  obtain ⟨d, hd⟩ := Option.isSome_iff_exists.mp hsome
  rw [hd, hu d (List.mem_reverse.mp (List.mem_of_find?_eq_some hd)) (by simpa using List.find?_some hd)]

theorem lastCall_eq_none {calls : List MapCall} {a : BitVec 64} (h : ∀ d ∈ calls, d.addr >>> 21 ≠ a >>> 21) :
    lastCall calls a = none := by
  unfold lastCall
  rw [List.find?_eq_none]
  intro d hd
  simpa using h d (List.mem_reverse.mp hd)

/-- The address of call `pgno`. -/
def kernaddr (pgno : ℕ) : BitVec 64 := physToKernelAddr reservedEndAddr + BitVec.ofNat 64 pgno * 0x200000

theorem totalPages_eq : totalPages = 2044 := by decide

theorem initPagingCalls_eq :
    initPagingCalls = (List.range totalPages).map fun n => ⟨kernaddr n, kernelToPhys (kernaddr n)⟩ := rfl

theorem mem_initPagingCalls {c : MapCall} :
    c ∈ initPagingCalls ↔ ∃ n < totalPages, c = ⟨kernaddr n, kernelToPhys (kernaddr n)⟩ := by
  rw [initPagingCalls_eq, List.mem_map]
  simp only [List.mem_range, eq_comm]

-- two thousand calls, which no proof is to unfold
attribute [irreducible] initPagingCalls totalPages

theorem kernaddr_toNat {n : ℕ} (h : n < totalPages) : (kernaddr n).toNat = physBase + reservedEnd + 0x200000 * n := by
  rw [totalPages_eq] at h
  unfold kernaddr physBase reservedEnd
  rw [BitVec.toNat_add, BitVec.toNat_mul, BitVec.toNat_ofNat,
    show (physToKernelAddr reservedEndAddr).toNat = 0xFFFF800000000000 + 8388608 from rfl,
    show (0x200000 : BitVec 64).toNat = 0x200000 from rfl]
  omega

theorem kernelToPhys_toNat {a : BitVec 64} (h : physBase ≤ a.toNat) : (kernelToPhys a).toNat = a.toNat - physBase := by
  unfold kernelToPhys
  unfold physBase at *
  rw [BitVec.toNat_sub, show (0xFFFF800000000000#64).toNat = 0xFFFF800000000000 from rfl]
  omega

theorem page_toNat (a : BitVec 64) : (a >>> 21).toNat = a.toNat / 2 ^ 21 := by
  rw [BitVec.toNat_ushiftRight, Nat.shiftRight_eq_div_pow]

theorem kernaddr_page {n : ℕ} (hn : n < totalPages) {a : BitVec 64} (h : kernaddr n >>> 21 = a >>> 21) :
    physBase + reservedEnd + 0x200000 * n ≤ a.toNat ∧ a.toNat < physBase + reservedEnd + 0x200000 * (n + 1) := by
  have hnat := congrArg BitVec.toNat h
  rw [page_toNat, page_toNat, kernaddr_toNat hn] at hnat
  unfold physBase reservedEnd at *
  omega

/-- The calls are in four GiB. -/
theorem initPagingCalls_regions : (initPagingCalls.map MapCall.region).toFinset.card ≤ 4 := by
  have hsub : (initPagingCalls.map MapCall.region).toFinset ⊆ Finset.Ico (physBase / 2 ^ 30) (physBase / 2 ^ 30 + 4) := by
    intro r hr
    rw [List.mem_toFinset, List.mem_map] at hr
    obtain ⟨c, hc, rfl⟩ := hr
    obtain ⟨n, hlt, rfl⟩ := mem_initPagingCalls.mp hc
    rw [Finset.mem_Ico]
    show _ ≤ (kernaddr n).toNat / 2 ^ 30 ∧ (kernaddr n).toNat / 2 ^ 30 < _
    rw [kernaddr_toNat hlt]
    rw [totalPages_eq] at hlt
    unfold physBase reservedEnd
    omega
  exact (Finset.card_le_card hsub).trans (by rw [Nat.card_Ico]; omega)

theorem kernaddr_canonical {n : ℕ} (h : n < totalPages) : Canonical (kernaddr n) := by
  refine .inr (BitVec.eq_of_toNat_eq ?_)
  rw [BitVec.toNat_ushiftRight, Nat.shiftRight_eq_div_pow, kernaddr_toNat h, show (0x1FFFF#64).toNat = 0x1FFFF from rfl]
  rw [totalPages_eq] at h
  unfold physBase reservedEnd
  omega

/-- The entry of the page around an address of the kernel. -/
theorem entry_kernaddr {n : ℕ} (hn : n < totalPages) {a : BitVec 64} (h : kernaddr n >>> 21 = a >>> 21) :
    kernelToPhys (kernaddr n) ||| (pml4Pgsize ||| pml4Writable ||| pml4Present) = largeEntry (kernelToPhys a) := by
  obtain ⟨hlo, hhi⟩ := kernaddr_page hn h
  have hk := kernaddr_toNat hn
  unfold largeEntry
  refine congrArg (· ||| _) (BitVec.eq_of_toNat_eq ?_)
  rw [and_not_toNat (k := 21) _ (by decide), kernelToPhys_toNat (by omega), kernelToPhys_toNat (by omega), hk]
  unfold physBase reservedEnd at *
  omega

theorem identityFrame_eq {n : ℕ} {a : BitVec 64} (h : a.toNat < 2 ^ 30) (hn : n = a.toNat / 2 ^ 21 % 512) :
    (BitVec.ofNat 32 n <<< 21).setWidth 64 = a &&& ~~~0x1FFFFF#64 := by
  apply BitVec.eq_of_toNat_eq
  rw [and_not_toNat (k := 21) _ (by decide), BitVec.toNat_setWidth, BitVec.toNat_shiftLeft, BitVec.toNat_ofNat,
    Nat.shiftLeft_eq]
  omega

theorem identityEntry_eq {a : BitVec 64} (h : a.toNat < 2 ^ 30) :
    BootTables.identityEntry (pgdOffset a).toNat = largeEntry a := by
  have hflags : (0x83 : BitVec 32).setWidth 64 = pml4Pgsize ||| pml4Writable ||| pml4Present := rfl
  unfold BootTables.identityEntry largeEntry
  rw [BitVec.setWidth_or, hflags, identityFrame_eq h (pgdOffset_toNat a)]

theorem canonical_low {a : BitVec 64} (ha : Canonical a) : pml4Offset a = 0 ∧ pdpOffset a = 0 ↔ a.toNat < 2 ^ 30 := by
  have htop : a.toNat / 2 ^ 47 = 0 ∨ a.toNat / 2 ^ 47 = 0x1FFFF := by
    rw [← Nat.shiftRight_eq_div_pow, ← BitVec.toNat_ushiftRight]
    exact ha.imp (fun h => congrArg BitVec.toNat h) (fun h => congrArg BitVec.toNat h)
  have h₁ := pml4Offset_toNat a
  have h₂ := pdpOffset_toNat a
  have hz : ∀ x : BitVec 64, x = 0 ↔ x.toNat = 0 := fun x => BitVec.toNat_inj.symm
  rw [hz, hz, h₁, h₂]
  omega

theorem initPagingCalls_canonical : ∀ c ∈ initPagingCalls, Canonical c.addr := by
  intro c hc
  obtain ⟨n, hn, rfl⟩ := mem_initPagingCalls.mp hc
  exact kernaddr_canonical hn

/-- Eight tables are enough for the loop. -/
theorem initPaging_suffices {m : PhysMem} {pml4 pool : BitVec 64} {poolEnd : ℕ} (htree : ProperTree m pml4)
    (hpool : TablePool m pool poolEnd pml4) (hroom : pool.toNat + 8 * 4096 ≤ poolEnd) :
    PoolSuffices pml4 poolEnd (m, pool) initPagingCalls := by
  have hcard := initPagingCalls_regions
  refine @poolSuffices_of_regions pml4 poolEnd initPagingCalls (m, pool) htree hpool ∅
    (fun r hr => absurd hr (Finset.notMem_empty r)) ?_
  rw [Finset.sdiff_empty]
  show pool.toNat + _ ≤ _
  omega

/-- The loop of `init_paging`, from any proper tree with a pool that has eight tables. -/
theorem initPaging_maps {m : PhysMem} {pml4 pool : BitVec 64} {poolEnd : ℕ} (htree : ProperTree m pml4)
    (hpool : TablePool m pool poolEnd pml4) (hroom : pool.toNat + 8 * 4096 ≤ poolEnd) :
    ProperTree (initPagingCalls.foldl (MapCall.run pml4) (m, pool)).1 pml4 ∧
      ∀ a, Canonical a → walk (initPagingCalls.foldl (MapCall.run pml4) (m, pool)).1 pml4 a =
        if physBase + reservedEnd ≤ a.toNat ∧ a.toNat < physBase + 2 ^ 32 then largeEntry (kernelToPhys a)
        else walk m pml4 a := by
  have hsuff := initPaging_suffices htree hpool hroom
  obtain ⟨htree', hwalk⟩ := @run_calls pml4 poolEnd initPagingCalls (m, pool) htree hpool hsuff initPagingCalls_canonical
  refine ⟨htree', fun a ha => ?_⟩
  rw [hwalk a ha]
  split_ifs with hin
  · -- the call on the page of `a`
    have hlt : (a.toNat - (physBase + reservedEnd)) / 0x200000 < totalPages := by
      rw [totalPages_eq]
      unfold physBase reservedEnd at *
      omega
    have hpage : kernaddr ((a.toNat - (physBase + reservedEnd)) / 0x200000) >>> 21 = a >>> 21 := by
      apply BitVec.eq_of_toNat_eq
      rw [page_toNat, page_toNat, kernaddr_toNat hlt]
      unfold physBase reservedEnd at *
      omega
    rw [lastCall_eq_some (mem_initPagingCalls.mpr ⟨_, hlt, rfl⟩) hpage]
    · exact entry_kernaddr hlt hpage
    · intro d hd hdp
      obtain ⟨n, hn, rfl⟩ := mem_initPagingCalls.mp hd
      obtain ⟨hlo, hhi⟩ := kernaddr_page hn hdp
      have hsame : n = (a.toNat - (physBase + reservedEnd)) / 0x200000 := by
        unfold physBase reservedEnd at *
        omega
      rw [hsame]
  · rw [lastCall_eq_none]
    intro d hd hdp
    obtain ⟨n, hlt, rfl⟩ := mem_initPagingCalls.mp hd
    obtain ⟨hlo, hhi⟩ := kernaddr_page hlt hdp
    rw [totalPages_eq] at hlt
    apply hin
    unfold physBase reservedEnd at *
    omega

theorem BootTables.boot_maps (t : BootTables) {m : PhysMem} (h : t.Cleared m) : ProperTree (t.boot m).1 t.root ∧
    ∀ a, Canonical a → walk (t.boot m).1 t.root a =
      if a.toNat < 2 ^ 30 then largeEntry a
      else if physBase + reservedEnd ≤ a.toNat ∧ a.toNat < physBase + 2 ^ 32 then largeEntry (kernelToPhys a)
      else 0 := by
  obtain ⟨htree, hwalk⟩ := initPaging_maps (t.proper_set h) (t.pool_set h) (by decide)
  unfold BootTables.boot
  refine ⟨htree, fun a ha => ?_⟩
  rw [hwalk a ha, t.walk_set h]
  by_cases hlow : a.toNat < 2 ^ 30
  · have hout : ¬ (physBase + reservedEnd ≤ a.toNat ∧ a.toNat < physBase + 2 ^ 32) := by
      unfold physBase
      omega
    rw [if_neg hout, if_pos ((canonical_low ha).mpr hlow), if_pos hlow, identityEntry_eq hlow]
  · rw [if_neg hlow, if_neg (mt (canonical_low ha).mp hlow)]

end Dunkos
