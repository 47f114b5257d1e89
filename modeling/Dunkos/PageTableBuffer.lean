import Dunkos.PageTable

/-! # Mapping from the table pool (`pml4_map_address_buffer`)

While there is no heap, `init_paging` maps pages with `pml4_map_address_buffer`, which takes new tables
from `base_pt_pool` one after the other.  `TablePool` is what the pool is relied on for: its tables are
zero, aligned, and apart from the tables of the tree.  A call links at most one `pdp` and one `pgd`, which
changes no walk (`link_pdp`, `link_pgd`), and then writes the entry.  `pml4_map_address_buffer_maps` is
about any sequence of calls that the pool suffices for. -/

namespace Dunkos

def pml4Pgsize : BitVec 64 := 128

/-- Memory and `base_pt_pool`. -/
abbrev BufferState := PhysMem × BitVec 64

/-- `base_pt_pool += 512` steps over one table. -/
def pml4MapAddressBuffer (s : BufferState) (pml4 addr frame : BitVec 64) : BufferState :=
  let (m, pool) := s
  let pdp := tableOf (m (slot pml4 (pml4Offset addr)))
  let (m, pool, pdp) :=
    if pdp = 0 then
      (Function.update m (slot pml4 (pml4Offset addr)) (pool ||| (pml4Writable ||| pml4Present)), slot pool 512, pool)
    else (m, pool, pdp)
  let pgd := tableOf (m (slot pdp (pdpOffset addr)))
  let (m, pool, pgd) :=
    if pgd = 0 then
      (Function.update m (slot pdp (pdpOffset addr)) (pool ||| (pml4Writable ||| pml4Present)), slot pool 512, pool)
    else (m, pool, pgd)
  (Function.update m (slot pgd (pgdOffset addr)) (frame ||| (pml4Pgsize ||| pml4Writable ||| pml4Present)), pool)

/-- A call: an address and a frame. -/
structure MapCall where
  addr : BitVec 64
  frame : BitVec 64

def MapCall.run (pml4 : BitVec 64) (s : BufferState) (c : MapCall) : BufferState :=
  pml4MapAddressBuffer s pml4 c.addr c.frame

/-- The number of tables missing on the way to the entry of `addr`. -/
def tablesMissing (m : PhysMem) (pml4 addr : BitVec 64) : ℕ :=
  if pdpOf m pml4 addr = 0 then 2 else if pgdOf m pml4 addr = 0 then 1 else 0

/-- Every call finds the tables it needs in the pool, which ends at `poolEnd`. -/
def PoolSuffices (pml4 : BitVec 64) (poolEnd : ℕ) : BufferState → List MapCall → Prop
  | _, [] => True
  | s, c :: cs => s.2.toNat + 4096 * tablesMissing s.1 pml4 c.addr ≤ poolEnd ∧ PoolSuffices pml4 poolEnd (c.run pml4 s) cs

/-! ### The pool -/

/-- The address is not in the pool. -/
def OffPool (pool : BitVec 64) (poolEnd : ℕ) (x : BitVec 64) : Prop := x.toNat < pool.toNat ∨ poolEnd ≤ x.toNat

/-- The tables of the pool are zero, at multiples of `4096`, and none of them is in the tree. -/
structure TablePool (m : PhysMem) (pool : BitVec 64) (poolEnd : ℕ) (pml4 : BitVec 64) : Prop where
  nonzero : pool ≠ 0
  aligned : pool.toNat % 4096 = 0
  fits : poolEnd < 2 ^ 64
  zeroed : ∀ x : BitVec 64, pool.toNat ≤ x.toNat → x.toNat < poolEnd → m x = 0
  root : ∀ i : BitVec 64, i.toNat < 512 → OffPool pool poolEnd (slot pml4 i)
  pdp : ∀ a, pdpOf m pml4 a ≠ 0 → OffPool pool poolEnd (pdpOf m pml4 a)
  pgd : ∀ a, HasTables m pml4 a → OffPool pool poolEnd (pgdOf m pml4 a)

section
variable {m : PhysMem} {pool pml4 addr : BitVec 64} {poolEnd : ℕ}

/-- A table off the pool has all its words off the pool. -/
theorem OffPool.slot {t i : BitVec 64} (h : OffPool pool poolEnd t) (hp : pool.toNat % 4096 = 0)
    (ht : t.toNat % 4096 = 0) (hi : i.toNat < 512) : OffPool pool poolEnd (slot t i) := by
  unfold OffPool at *
  rw [slot_toNat_of_aligned ht hi]
  omega

namespace TablePool

theorem next_toNat (h : TablePool m pool poolEnd pml4) (hroom : pool.toNat + 4096 ≤ poolEnd) :
    (slot pool 512).toNat = pool.toNat + 4096 := by
  have hfits := h.fits
  unfold slot
  rw [BitVec.toNat_add, show (8#64 * 512 : BitVec 64).toNat = 4096 from rfl]
  omega

/-- Words of the first table of the pool. -/
theorem zero_slot (h : TablePool m pool poolEnd pml4) (hroom : pool.toNat + 4096 ≤ poolEnd) {i : BitVec 64}
    (hi : i.toNat < 512) : m (slot pool i) = 0 := by
  have hs := slot_toNat_of_aligned h.aligned hi
  apply h.zeroed <;> omega

/-- A word off the pool is none of the first table. -/
theorem ne_slot (h : TablePool m pool poolEnd pml4) (hroom : pool.toNat + 4096 ≤ poolEnd) {x i : BitVec 64}
    (hx : OffPool pool poolEnd x) (hi : i.toNat < 512) : x ≠ slot pool i := by
  intro he
  have hs := slot_toNat_of_aligned h.aligned hi
  unfold OffPool at hx
  rw [he] at hx
  omega

theorem ne_pool (hroom : pool.toNat + 4096 ≤ poolEnd) {t : BitVec 64} (ht : OffPool pool poolEnd t) : t ≠ pool := by
  intro he
  unfold OffPool at ht
  rw [he] at ht
  omega

/-- The entry of the new table. -/
theorem tableOf_pool (h : TablePool m pool poolEnd pml4) : tableOf (pool ||| (pml4Writable ||| pml4Present)) = pool := by
  rw [tableOf_or_flags pool (by decide)]
  exact tableOf_of_aligned h.aligned

/-- The pool without its first table: what is off the pool before is off it now, and so is this table. -/
theorem offPool_next (h : TablePool m pool poolEnd pml4) (hroom : pool.toNat + 4096 ≤ poolEnd) {x : BitVec 64}
    (hx : OffPool pool poolEnd x ∨ x = pool) : OffPool (slot pool 512) poolEnd x := by
  unfold OffPool at *
  rw [h.next_toNat hroom]
  rcases hx with hx | rfl <;> omega

end TablePool

/-! ### Linking a table -/

/-- What is left of the pool, when its first table is linked from an entry off the pool. -/
theorem TablePool.link (h : TablePool m pool poolEnd pml4) (hroom : pool.toNat + 4096 ≤ poolEnd) {m' : PhysMem}
    {e v : BitVec 64} (hm : m' = Function.update m e v) (he : OffPool pool poolEnd e)
    (hpdp : ∀ b, pdpOf m' pml4 b ≠ 0 → pdpOf m' pml4 b = pool ∨ pdpOf m' pml4 b = pdpOf m pml4 b ∧ pdpOf m pml4 b ≠ 0)
    (hpgd : ∀ b, HasTables m' pml4 b → pgdOf m' pml4 b = pool ∨ pgdOf m' pml4 b = pgdOf m pml4 b ∧ HasTables m pml4 b) :
    TablePool m' (slot pool 512) poolEnd pml4 := by
  have hnext := h.next_toNat hroom
  have hal := h.aligned
  refine ⟨fun hz => ?_, by omega, h.fits, fun x hx hlt => ?_, fun i hi => ?_, fun a ha => ?_, fun a ha => ?_⟩
  · rw [hz] at hnext
    simp at hnext
  · rw [hm, Function.update_of_ne]
    · exact h.zeroed x (by omega) hlt
    · rintro rfl
      unfold OffPool at he
      omega
  · exact h.offPool_next hroom (.inl (h.root i hi))
  · rcases hpdp a ha with hnew | ⟨hold, hne⟩
    · exact h.offPool_next hroom (.inr hnew)
    · rw [hold]
      exact h.offPool_next hroom (.inl (h.pdp a hne))
  · rcases hpgd a ha with hnew | ⟨hold, hl⟩
    · exact h.offPool_next hroom (.inr hnew)
    · rw [hold]
      exact h.offPool_next hroom (.inl (h.pgd a hl))

/-- The tables after the table `pool`, which is empty, was linked as the `pdp` of `addr`. -/
structure NewPdp (m m' : PhysMem) (pml4 pool addr : BitVec 64) : Prop where
  pdp : ∀ b, pdpOf m' pml4 b = if pml4Offset b = pml4Offset addr then pool else pdpOf m pml4 b
  pgd : pgdOf m' pml4 addr = 0
  tables : ∀ b, HasTables m' pml4 b → pml4Offset b ≠ pml4Offset addr ∧ HasTables m pml4 b ∧
    pgdOf m' pml4 b = pgdOf m pml4 b

theorem newPdp (htree : ProperTree m pml4) (h : TablePool m pool poolEnd pml4) (hroom : pool.toNat + 4096 ≤ poolEnd)
    {m' : PhysMem}
    (hm : m' = Function.update m (slot pml4 (pml4Offset addr)) (pool ||| (pml4Writable ||| pml4Present))) :
    NewPdp m m' pml4 pool addr := by
  have hpdp : ∀ b, pdpOf m' pml4 b = if pml4Offset b = pml4Offset addr then pool else pdpOf m pml4 b := by
    intro b
    unfold pdpOf
    rw [hm]
    split_ifs with hb
    · rw [hb, Function.update_self]
      exact h.tableOf_pool
    · rw [Function.update_of_ne fun he => hb (slot_inj (pml4Offset_lt b) (pml4Offset_lt addr) he)]
  have hpgd_new : ∀ b, pml4Offset b = pml4Offset addr → pgdOf m' pml4 b = 0 := by
    intro b hb
    unfold pgdOf
    rw [hpdp, if_pos hb, hm, Function.update_of_ne, h.zero_slot hroom (pdpOffset_lt b)]
    · rfl
    · exact (h.ne_slot hroom (h.root _ (pml4Offset_lt addr)) (pdpOffset_lt b)).symm
  have hpgd_old : ∀ b, pml4Offset b ≠ pml4Offset addr → pdpOf m pml4 b ≠ 0 → pgdOf m' pml4 b = pgdOf m pml4 b := by
    intro b hb hne
    unfold pgdOf
    rw [hpdp, if_neg hb, hm]
    apply congrArg tableOf
    exact Function.update_of_ne (htree.root_pdp b hne _ _ (pml4Offset_lt addr) (pdpOffset_lt b)).symm _ _
  refine ⟨hpdp, hpgd_new addr rfl, fun b hb => ?_⟩
  have hne : pml4Offset b ≠ pml4Offset addr := fun he => hb.2 (hpgd_new b he)
  have hpb := hb.1
  rw [hpdp, if_neg hne] at hpb
  have hg := hpgd_old b hne hpb
  exact ⟨hne, ⟨hpb, hg ▸ hb.2⟩, hg⟩

theorem NewPdp.cases {m' : PhysMem} (hnew : NewPdp m m' pml4 pool addr) {b : BitVec 64} (hb : pdpOf m' pml4 b ≠ 0) :
    (pml4Offset b = pml4Offset addr ∧ pdpOf m' pml4 b = pool) ∨
      (pdpOf m' pml4 b = pdpOf m pml4 b ∧ pdpOf m pml4 b ≠ 0) := by
  rw [hnew.pdp] at hb ⊢
  split_ifs at hb ⊢ with he
  · exact .inl ⟨he, rfl⟩
  · exact .inr ⟨rfl, hb⟩

theorem NewPdp.proper {m' : PhysMem} (hnew : NewPdp m m' pml4 pool addr) (htree : ProperTree m pml4)
    (h : TablePool m pool poolEnd pml4) (hroom : pool.toNat + 4096 ≤ poolEnd) : ProperTree m' pml4 := by
  refine ⟨htree.aligned, htree.root_null, fun a ha => ?_, fun a ha => ?_, fun a b ha hb => ?_, fun a b ha hab => ?_,
    fun a b ha hb hab => ?_⟩
  · rcases hnew.cases ha with ⟨-, he⟩ | ⟨he, hne⟩
    · rw [he]
      exact fun i j hi hj => h.ne_slot hroom (h.root i hi) hj
    · rw [he]
      exact htree.root_pdp a hne
  · rw [(hnew.tables a ha).2.2]
    exact htree.root_pgd a (hnew.tables a ha).2.1
  · obtain ⟨-, hlb, hgb⟩ := hnew.tables b hb
    rw [hgb]
    rcases hnew.cases ha with ⟨-, he⟩ | ⟨he, hne⟩
    · rw [he]
      exact (TablePool.ne_pool hroom (h.pgd b hlb)).symm
    · rw [he]
      exact htree.pdp_pgd a b hne hlb
  · rcases hnew.cases ha with ⟨hsame, he⟩ | ⟨he, hne⟩ <;> rcases hnew.cases (hab ▸ ha) with ⟨hsame', he'⟩ | ⟨he', hne'⟩
    · rw [hsame, hsame']
    · rw [he, he'] at hab
      exact absurd hab.symm (TablePool.ne_pool hroom (h.pdp b hne'))
    · rw [he, he'] at hab
      exact absurd hab (TablePool.ne_pool hroom (h.pdp a hne))
    · rw [he, he'] at hab
      exact htree.pdp_shared a b hne hab
  · obtain ⟨-, hla, hga⟩ := hnew.tables a ha
    obtain ⟨-, hlb, hgb⟩ := hnew.tables b hb
    rw [hga, hgb] at hab
    exact htree.pgd_shared a b hla hlb hab

/-- **A new `pdp`** is empty, so no walk changes. -/
theorem link_pdp (htree : ProperTree m pml4) (h : TablePool m pool poolEnd pml4) (hp : pdpOf m pml4 addr = 0)
    (hroom : pool.toNat + 4096 ≤ poolEnd) {m' : PhysMem}
    (hm : m' = Function.update m (slot pml4 (pml4Offset addr)) (pool ||| (pml4Writable ||| pml4Present))) :
    ProperTree m' pml4 ∧ TablePool m' (slot pool 512) poolEnd pml4 ∧ pdpOf m' pml4 addr = pool ∧
      pgdOf m' pml4 addr = 0 ∧ ∀ a, walk m' pml4 a = walk m pml4 a := by
  have hnew := newPdp htree h hroom hm
  refine ⟨hnew.proper htree h hroom, ?_, by rw [hnew.pdp, if_pos rfl], hnew.pgd, fun a => ?_⟩
  · exact h.link hroom hm (h.root _ (pml4Offset_lt addr)) (fun b hb => (hnew.cases hb).imp_left And.right)
      fun b hb => .inr ⟨(hnew.tables b hb).2.2, (hnew.tables b hb).2.1⟩
  · by_cases ha : pml4Offset a = pml4Offset addr
    · have hold : pdpOf m pml4 a = 0 := by
        rw [← hp]
        unfold pdpOf
        rw [ha]
      unfold walk
      rw [if_neg fun hl => (hnew.tables a hl).1 ha, if_neg fun hl => hl.1 hold]
    · apply walk_congr
      · rw [hm]
        exact Function.update_of_ne (fun he => ha (slot_inj (pml4Offset_lt a) (pml4Offset_lt addr) he)) _ _
      · intro hne
        rw [hm]
        exact Function.update_of_ne (htree.root_pdp a hne _ _ (pml4Offset_lt addr) (pdpOffset_lt a)).symm _ _
      · intro hl
        rw [hm]
        exact Function.update_of_ne (htree.root_pgd a hl _ _ (pml4Offset_lt addr) (pgdOffset_lt a)).symm _ _

/-- The two addresses come to the same entry of a `pdp`. -/
def SamePgd (a b : BitVec 64) : Prop := pml4Offset a = pml4Offset b ∧ pdpOffset a = pdpOffset b

/-- The tables after the table `pool` was linked as the `pgd` of `addr`. -/
structure NewPgd (m m' : PhysMem) (pml4 pool addr : BitVec 64) : Prop where
  pdp : ∀ b, pdpOf m' pml4 b = pdpOf m pml4 b
  same : ∀ b, SamePgd b addr → pgdOf m' pml4 b = pool ∧ pgdOf m pml4 b = 0
  other : ∀ b, pdpOf m pml4 b ≠ 0 → ¬ SamePgd b addr →
    slot (pdpOf m pml4 b) (pdpOffset b) ≠ slot (pdpOf m pml4 addr) (pdpOffset addr) ∧ pgdOf m' pml4 b = pgdOf m pml4 b

theorem newPgd (htree : ProperTree m pml4) (h : TablePool m pool poolEnd pml4) (hp : pdpOf m pml4 addr ≠ 0)
    (hg : pgdOf m pml4 addr = 0) {m' : PhysMem}
    (hm : m' = Function.update m (slot (pdpOf m pml4 addr) (pdpOffset addr)) (pool ||| (pml4Writable ||| pml4Present))) :
    NewPgd m m' pml4 pool addr := by
  have hpdp : ∀ b, pdpOf m' pml4 b = pdpOf m pml4 b := by
    intro b
    apply congrArg tableOf
    rw [hm]
    exact Function.update_of_ne (htree.root_pdp addr hp _ _ (pml4Offset_lt b) (pdpOffset_lt addr)) _ _
  refine ⟨hpdp, fun b hs => ?_, fun b hb hne => ?_⟩
  · have hsame : pdpOf m pml4 b = pdpOf m pml4 addr := by
      unfold pdpOf
      rw [hs.1]
    refine ⟨?_, ?_⟩
    · unfold pgdOf
      rw [hpdp, hsame, hs.2, hm, Function.update_self]
      exact h.tableOf_pool
    · rw [← hg]
      unfold pgdOf
      rw [hsame, hs.2]
  · -- only addresses with the offsets of `addr` come to the entry that is written
    have hloc : slot (pdpOf m pml4 b) (pdpOffset b) ≠ slot (pdpOf m pml4 addr) (pdpOffset addr) := by
      intro he
      by_cases hsame : pdpOf m pml4 b = pdpOf m pml4 addr
      · rw [hsame] at he
        exact hne ⟨htree.pdp_shared b addr hb hsame, slot_inj (pdpOffset_lt b) (pdpOffset_lt addr) he⟩
      · exact tableOf_apart hsame _ _ (pdpOffset_lt b) (pdpOffset_lt addr) he
    refine ⟨hloc, ?_⟩
    unfold pgdOf
    rw [hpdp, hm]
    exact congrArg tableOf (Function.update_of_ne hloc _ _)

theorem NewPgd.cases {m' : PhysMem} (hnew : NewPgd m m' pml4 pool addr) {b : BitVec 64} (hb : HasTables m' pml4 b) :
    (SamePgd b addr ∧ pgdOf m' pml4 b = pool) ∨ (pgdOf m' pml4 b = pgdOf m pml4 b ∧ HasTables m pml4 b) := by
  have hpb : pdpOf m pml4 b ≠ 0 := hnew.pdp b ▸ hb.1
  by_cases hs : SamePgd b addr
  · exact .inl ⟨hs, (hnew.same b hs).1⟩
  · have hgb := (hnew.other b hpb hs).2
    exact .inr ⟨hgb, hpb, hgb ▸ hb.2⟩

theorem NewPgd.proper {m' : PhysMem} (hnew : NewPgd m m' pml4 pool addr) (htree : ProperTree m pml4)
    (h : TablePool m pool poolEnd pml4) (hroom : pool.toNat + 4096 ≤ poolEnd) : ProperTree m' pml4 := by
  have hpdp := hnew.pdp
  refine ⟨htree.aligned, htree.root_null, fun a ha => ?_, fun a ha => ?_, fun a b ha hb => ?_, fun a b ha hab => ?_,
    fun a b ha hb hab => ?_⟩
  · rw [hpdp] at ha ⊢
    exact htree.root_pdp a ha
  · rcases hnew.cases ha with ⟨-, he⟩ | ⟨he, hl⟩
    · rw [he]
      exact fun i j hi hj => h.ne_slot hroom (h.root i hi) hj
    · rw [he]
      exact htree.root_pgd a hl
  · rw [hpdp] at ha ⊢
    rcases hnew.cases hb with ⟨-, he⟩ | ⟨he, hl⟩
    · rw [he]
      exact TablePool.ne_pool hroom (h.pdp a ha)
    · rw [he]
      exact htree.pdp_pgd a b ha hl
  · rw [hpdp] at ha
    rw [hpdp, hpdp] at hab
    exact htree.pdp_shared a b ha hab
  · rcases hnew.cases ha with ⟨⟨h₁, h₂⟩, he⟩ | ⟨he, hl⟩ <;> rcases hnew.cases hb with ⟨⟨h₁', h₂'⟩, he'⟩ | ⟨he', hl'⟩
    · exact ⟨h₁.trans h₁'.symm, h₂.trans h₂'.symm⟩
    · rw [he, he'] at hab
      exact absurd hab.symm (TablePool.ne_pool hroom (h.pgd b hl'))
    · rw [he, he'] at hab
      exact absurd hab (TablePool.ne_pool hroom (h.pgd a hl))
    · rw [he, he'] at hab
      exact htree.pgd_shared a b hl hl' hab

/-- **A new `pgd`** is empty, so no walk changes. -/
theorem link_pgd (htree : ProperTree m pml4) (h : TablePool m pool poolEnd pml4) (hp : pdpOf m pml4 addr ≠ 0)
    (hg : pgdOf m pml4 addr = 0) (hroom : pool.toNat + 4096 ≤ poolEnd) {m' : PhysMem}
    (hm : m' = Function.update m (slot (pdpOf m pml4 addr) (pdpOffset addr)) (pool ||| (pml4Writable ||| pml4Present))) :
    ProperTree m' pml4 ∧ TablePool m' (slot pool 512) poolEnd pml4 ∧ pdpOf m' pml4 addr = pdpOf m pml4 addr ∧
      pgdOf m' pml4 addr = pool ∧ ∀ a, walk m' pml4 a = walk m pml4 a := by
  have hnew := newPgd htree h hp hg hm
  have hoff : OffPool pool poolEnd (slot (pdpOf m pml4 addr) (pdpOffset addr)) :=
    (h.pdp addr hp).slot h.aligned (tableOf_aligned _) (pdpOffset_lt addr)
  refine ⟨hnew.proper htree h hroom, ?_, hnew.pdp addr, (hnew.same addr ⟨rfl, rfl⟩).1, fun a => ?_⟩
  · exact h.link hroom hm hoff (fun b hb => .inr ⟨hnew.pdp b, hnew.pdp b ▸ hb⟩) fun b hb =>
      (hnew.cases hb).imp_left And.right
  · by_cases ha : SamePgd a addr
    · obtain ⟨hpool, hzero⟩ := hnew.same a ha
      have hentry : m' (slot pool (pgdOffset a)) = 0 := by
        rw [hm, Function.update_of_ne, h.zero_slot hroom (pgdOffset_lt a)]
        exact (h.ne_slot hroom hoff (pgdOffset_lt a)).symm
      rw [show walk m pml4 a = 0 from if_neg fun hl => hl.2 hzero]
      unfold walk
      split_ifs with hl
      · unfold pml4ComputePtloc
        rw [hpool]
        exact hentry
      · rfl
    · apply walk_congr
      · rw [hm]
        exact Function.update_of_ne (htree.root_pdp addr hp _ _ (pml4Offset_lt a) (pdpOffset_lt addr)) _ _
      · intro hne
        rw [hm]
        exact Function.update_of_ne (hnew.other a hne ha).1 _ _
      · intro hl
        rw [hm]
        exact Function.update_of_ne
          (tableOf_apart (htree.pdp_pgd addr a hp hl) _ _ (pdpOffset_lt addr) (pgdOffset_lt a)).symm _ _

/-- Writing an entry of a tree does not touch the pool. -/
theorem TablePool.setEntry (htree : ProperTree m pml4) (h : TablePool m pool poolEnd pml4) (hl : HasTables m pml4 addr)
    (v : BitVec 64) : TablePool (Function.update m (pml4ComputePtloc m pml4 addr) v) pool poolEnd pml4 := by
  have hoff : OffPool pool poolEnd (pml4ComputePtloc m pml4 addr) :=
    (h.pgd addr hl).slot h.aligned (tableOf_aligned _) (pgdOffset_lt addr)
  refine ⟨h.nonzero, h.aligned, h.fits, fun x hx hlt => ?_, h.root, fun a ha => ?_, fun a ha => ?_⟩
  · rw [Function.update_of_ne]
    · exact h.zeroed x hx hlt
    · intro he
      unfold OffPool at hoff
      rw [← he] at hoff
      omega
  · rw [(htree.setEntry_tables hl v a).1] at ha ⊢
    exact h.pdp a ha
  · have hp : pdpOf m pml4 a ≠ 0 := (htree.setEntry_tables hl v a).1 ▸ ha.1
    have hg := (htree.setEntry_tables hl v a).2 hp
    rw [hg]
    exact h.pgd a ⟨hp, hg ▸ ha.2⟩

/-- Writing the entry, when both tables are there. -/
theorem setEntry_spec {m₀ : PhysMem} (htree : ProperTree m pml4) (h : TablePool m pool poolEnd pml4)
    (hl : HasTables m pml4 addr) (hw : ∀ a, walk m pml4 a = walk m₀ pml4 a) (v : BitVec 64) :
    ProperTree (Function.update m (pml4ComputePtloc m pml4 addr) v) pml4 ∧
      TablePool (Function.update m (pml4ComputePtloc m pml4 addr) v) pool poolEnd pml4 ∧
      ∀ a, walk (Function.update m (pml4ComputePtloc m pml4 addr) v) pml4 a =
        if SamePage a addr then v else walk m₀ pml4 a := by
  refine ⟨?_, h.setEntry htree hl v, fun a => ?_⟩
  · exact htree.setEntry hl v
  · rw [htree.walk_setEntry hl, hw]

/-- Both tables are new. -/
theorem pml4MapAddressBuffer_of_no_pdp (hp : pdpOf m pml4 addr = 0) {m₁ m₂ : PhysMem}
    (hm₁ : m₁ = Function.update m (slot pml4 (pml4Offset addr)) (pool ||| (pml4Writable ||| pml4Present)))
    (hp₁ : pdpOf m₁ pml4 addr = pool) (hg₁ : pgdOf m₁ pml4 addr = 0)
    (hm₂ : m₂ = Function.update m₁ (slot (pdpOf m₁ pml4 addr) (pdpOffset addr))
      (slot pool 512 ||| (pml4Writable ||| pml4Present)))
    (hg₂ : pgdOf m₂ pml4 addr = slot pool 512) (frame : BitVec 64) : pml4MapAddressBuffer (m, pool) pml4 addr frame =
      (Function.update m₂ (pml4ComputePtloc m₂ pml4 addr) (frame ||| (pml4Pgsize ||| pml4Writable ||| pml4Present)),
        slot (slot pool 512) 512) := by
  have hp' : tableOf (m (slot pml4 (pml4Offset addr))) = 0 := hp
  have hg' : tableOf (m₁ (slot pool (pdpOffset addr))) = 0 := by
    rw [← hg₁]
    unfold pgdOf
    rw [hp₁]
  unfold pml4MapAddressBuffer pml4ComputePtloc
  dsimp only
  rw [if_pos hp', ← hm₁]
  dsimp only
  rw [if_pos hg']
  dsimp only
  rw [hg₂, hm₂, hp₁]

/-- The `pgd` is new. -/
theorem pml4MapAddressBuffer_of_no_pgd (hp : pdpOf m pml4 addr ≠ 0) (hg : pgdOf m pml4 addr = 0) {m₂ : PhysMem}
    (hm₂ : m₂ = Function.update m (slot (pdpOf m pml4 addr) (pdpOffset addr))
      (pool ||| (pml4Writable ||| pml4Present)))
    (hg₂ : pgdOf m₂ pml4 addr = pool) (frame : BitVec 64) : pml4MapAddressBuffer (m, pool) pml4 addr frame =
      (Function.update m₂ (pml4ComputePtloc m₂ pml4 addr) (frame ||| (pml4Pgsize ||| pml4Writable ||| pml4Present)),
        slot pool 512) := by
  have hp' : ¬ tableOf (m (slot pml4 (pml4Offset addr))) = 0 := hp
  have hg' : tableOf (m (slot (tableOf (m (slot pml4 (pml4Offset addr)))) (pdpOffset addr))) = 0 := hg
  unfold pml4MapAddressBuffer pml4ComputePtloc
  dsimp only
  rw [if_neg hp']
  dsimp only
  rw [if_pos hg']
  dsimp only
  rw [hg₂, hm₂]
  rfl

theorem pml4MapAddressBuffer_of_tables (hl : HasTables m pml4 addr) (frame : BitVec 64) :
    pml4MapAddressBuffer (m, pool) pml4 addr frame = (Function.update m (pml4ComputePtloc m pml4 addr)
      (frame ||| (pml4Pgsize ||| pml4Writable ||| pml4Present)), pool) := by
  have hp' : ¬ tableOf (m (slot pml4 (pml4Offset addr))) = 0 := hl.1
  have hg' : ¬ tableOf (m (slot (tableOf (m (slot pml4 (pml4Offset addr)))) (pdpOffset addr))) = 0 := hl.2
  unfold pml4MapAddressBuffer
  dsimp only
  rw [if_neg hp']
  dsimp only
  rw [if_neg hg']
  rfl

/-- **One call**: the tree stays proper, what is left of the pool stays as it was, and only the page of
`addr` is mapped anew. -/
theorem pml4MapAddressBuffer_spec (htree : ProperTree m pml4) (h : TablePool m pool poolEnd pml4)
    (hroom : pool.toNat + 4096 * tablesMissing m pml4 addr ≤ poolEnd) (frame : BitVec 64) :
    ProperTree (pml4MapAddressBuffer (m, pool) pml4 addr frame).1 pml4 ∧
      TablePool (pml4MapAddressBuffer (m, pool) pml4 addr frame).1 (pml4MapAddressBuffer (m, pool) pml4 addr frame).2
        poolEnd pml4 ∧
      ∀ a, walk (pml4MapAddressBuffer (m, pool) pml4 addr frame).1 pml4 a =
        if SamePage a addr then frame ||| (pml4Pgsize ||| pml4Writable ||| pml4Present) else walk m pml4 a := by
  unfold tablesMissing at hroom
  by_cases hp : pdpOf m pml4 addr = 0
  · rw [if_pos hp] at hroom
    obtain ⟨m₁, hm₁⟩ : ∃ m₁, m₁ = Function.update m (slot pml4 (pml4Offset addr)) (pool ||| (pml4Writable ||| pml4Present)) :=
      ⟨_, rfl⟩
    obtain ⟨htree₁, h₁, hp₁, hg₁, hw₁⟩ := link_pdp htree h hp (by omega) hm₁
    have hnext := h.next_toNat (by omega)
    have hne : pdpOf m₁ pml4 addr ≠ 0 := hp₁ ▸ h.nonzero
    obtain ⟨m₂, hm₂⟩ : ∃ m₂, m₂ = Function.update m₁ (slot (pdpOf m₁ pml4 addr) (pdpOffset addr))
      (slot pool 512 ||| (pml4Writable ||| pml4Present)) := ⟨_, rfl⟩
    obtain ⟨htree₂, h₂, hp₂, hg₂, hw₂⟩ := link_pgd htree₁ h₁ hne hg₁ (by omega) hm₂
    rw [pml4MapAddressBuffer_of_no_pdp hp hm₁ hp₁ hg₁ hm₂ hg₂]
    refine setEntry_spec htree₂ h₂ ⟨?_, ?_⟩ (fun a => (hw₂ a).trans (hw₁ a)) _
    · exact hp₂ ▸ hne
    · exact hg₂ ▸ h₁.nonzero
  · rw [if_neg hp] at hroom
    by_cases hg : pgdOf m pml4 addr = 0
    · rw [if_pos hg] at hroom
      obtain ⟨m₂, hm₂⟩ : ∃ m₂, m₂ = Function.update m (slot (pdpOf m pml4 addr) (pdpOffset addr))
        (pool ||| (pml4Writable ||| pml4Present)) := ⟨_, rfl⟩
      obtain ⟨htree₂, h₂, hp₂, hg₂, hw₂⟩ := link_pgd htree h hp hg (by omega) hm₂
      rw [pml4MapAddressBuffer_of_no_pgd hp hg hm₂ hg₂]
      exact setEntry_spec htree₂ h₂ ⟨hp₂ ▸ hp, hg₂ ▸ h.nonzero⟩ hw₂ _
    · rw [pml4MapAddressBuffer_of_tables ⟨hp, hg⟩]
      exact setEntry_spec htree h ⟨hp, hg⟩ (fun _ => rfl) _

end

/-! ### Sequences of calls -/

/-- The entry at `e`, of the `pml4` or of a `pdp`, links the table `t`. -/
inductive Links (m : PhysMem) (pml4 : BitVec 64) : BitVec 64 → BitVec 64 → Prop
  | pdp (a : BitVec 64) (h : pdpOf m pml4 a ≠ 0) : Links m pml4 (slot pml4 (pml4Offset a)) (pdpOf m pml4 a)
  | pgd (a : BitVec 64) (h : HasTables m pml4 a) :
      Links m pml4 (slot (pdpOf m pml4 a) (pdpOffset a)) (pgdOf m pml4 a)

/-- In a proper tree every table is linked from one entry. -/
theorem ProperTree.links_unique {m : PhysMem} {pml4 e e' t : BitVec 64} (h : ProperTree m pml4)
    (he : Links m pml4 e t) (he' : Links m pml4 e' t) : e = e' := by
  generalize ht : t = t' at he'
  cases he with
  | pdp a ha =>
      cases he' with
      | pdp b hb => rw [h.pdp_shared a b ha ht]
      | pgd b hb => exact absurd ht (h.pdp_pgd a b ha hb)
  | pgd a ha =>
      cases he' with
      | pdp b hb => exact absurd ht.symm (h.pdp_pgd b a hb ha)
      | pgd b hb =>
          obtain ⟨h₁, h₂⟩ := h.pgd_shared a b ha hb ht
          unfold pdpOf
          rw [h₁, h₂]

/-- Addresses of one page have the same offsets. -/
theorem samePage_of_page_eq {a b : BitVec 64} (h : a >>> 21 = b >>> 21) : SamePage a b := by
  have h' := congrArg BitVec.toNat h
  rw [BitVec.toNat_ushiftRight, BitVec.toNat_ushiftRight, Nat.shiftRight_eq_div_pow, Nat.shiftRight_eq_div_pow] at h'
  refine ⟨?_, ?_, ?_⟩ <;> apply BitVec.eq_of_toNat_eq
  · rw [pml4Offset_toNat, pml4Offset_toNat]
    omega
  · rw [pdpOffset_toNat, pdpOffset_toNat]
    omega
  · rw [pgdOffset_toNat, pgdOffset_toNat]
    omega

/-- The walk of `addr` ends in an entry for the large page `frame`. -/
structure LargePage (m : PhysMem) (pml4 addr frame : BitVec 64) : Prop where
  present : walk m pml4 addr &&& pml4Present ≠ 0
  writable : walk m pml4 addr &&& pml4Writable ≠ 0
  pgsize : walk m pml4 addr &&& pml4Pgsize ≠ 0
  frame : tableOf (walk m pml4 addr) = frame

theorem LargePage.of_walk {m : PhysMem} {pml4 addr frame : BitVec 64} (hf : FrameAligned frame)
    (hw : walk m pml4 addr = frame ||| (pml4Pgsize ||| pml4Writable ||| pml4Present)) : LargePage m pml4 addr frame := by
  have hbit : ∀ (flag : BitVec 64) (i : ℕ), flag.getLsbD i = true →
      (pml4Pgsize ||| pml4Writable ||| pml4Present).getLsbD i = true → walk m pml4 addr &&& flag ≠ 0 := by
    intro flag i h₁ h₂
    rw [hw]
    exact entry_flag frame i h₁ h₂
  refine ⟨hbit _ 0 (by decide) (by decide), hbit _ 1 (by decide) (by decide), hbit _ 7 (by decide) (by decide), ?_⟩
  have hmod := hf.toNat
  rw [hw, tableOf_or_flags frame (by decide)]
  exact tableOf_of_aligned (by omega)

/-- The last call on the page of `a`. -/
def lastCall (calls : List MapCall) (a : BitVec 64) : Option MapCall :=
  calls.reverse.find? fun c => decide (c.addr >>> 21 = a >>> 21)

theorem lastCall_cons (c : MapCall) (cs : List MapCall) (a : BitVec 64) :
    lastCall (c :: cs) a = (lastCall cs a).or (if c.addr >>> 21 = a >>> 21 then some c else none) := by
  unfold lastCall
  rw [List.reverse_cons, List.find?_append, List.find?_singleton]
  simp only [decide_eq_true_eq]

theorem run_calls {pml4 : BitVec 64} {poolEnd : ℕ} {calls : List MapCall} {s : BufferState}
    (htree : ProperTree s.1 pml4) (hpool : TablePool s.1 s.2 poolEnd pml4) (hsuff : PoolSuffices pml4 poolEnd s calls)
    (hcalls : ∀ c ∈ calls, Canonical c.addr) :
    ProperTree (calls.foldl (MapCall.run pml4) s).1 pml4 ∧
      ∀ a, Canonical a → walk (calls.foldl (MapCall.run pml4) s).1 pml4 a = match lastCall calls a with
        | some c => c.frame ||| (pml4Pgsize ||| pml4Writable ||| pml4Present)
        | none => walk s.1 pml4 a := by
  induction calls generalizing s with
  | nil => exact ⟨htree, fun a _ => rfl⟩
  | cons c cs ih =>
      obtain ⟨hroom, hsuff'⟩ := hsuff
      obtain ⟨htree', hpool', hw⟩ := pml4MapAddressBuffer_spec htree hpool hroom c.frame
      obtain ⟨htree'', hw'⟩ := ih (s := c.run pml4 s) htree' hpool' hsuff' fun c' hc' => hcalls c' (List.mem_cons_of_mem _ hc')
      refine ⟨htree'', fun a ha => ?_⟩
      have hstep : walk (c.run pml4 s).1 pml4 a = if c.addr >>> 21 = a >>> 21 then
          c.frame ||| (pml4Pgsize ||| pml4Writable ||| pml4Present) else walk s.1 pml4 a := by
        rw [show walk (c.run pml4 s).1 pml4 a = _ from hw a]
        by_cases hpage : c.addr >>> 21 = a >>> 21
        · rw [if_pos (samePage_of_page_eq hpage.symm), if_pos hpage]
        · rw [if_neg fun hs => hpage (hs.page_eq ha (hcalls c List.mem_cons_self)).symm, if_neg hpage]
      rw [List.foldl_cons, hw' a ha, lastCall_cons]
      cases lastCall cs a with
      | some c' => rfl
      | none =>
          rw [Option.none_or]
          dsimp only
          rw [hstep]
          split_ifs <;> rfl

/-- **Sequences of calls.**  After any sequence of calls that the pool suffices for, every page that was
named is a large page at the frame of the last call on it, all other pages are mapped as before, and no
table is linked from two entries. -/
theorem pml4_map_address_buffer_maps {pml4 : BitVec 64} {poolEnd : ℕ} {calls : List MapCall} {s : BufferState}
    (htree : ProperTree s.1 pml4) (hpool : TablePool s.1 s.2 poolEnd pml4) (hsuff : PoolSuffices pml4 poolEnd s calls)
    (hcalls : ∀ c ∈ calls, Canonical c.addr ∧ FrameAligned c.frame) :
    (∀ a, Canonical a → match lastCall calls a with
      | some c => LargePage (calls.foldl (MapCall.run pml4) s).1 pml4 a c.frame
      | none => walk (calls.foldl (MapCall.run pml4) s).1 pml4 a = walk s.1 pml4 a) ∧
      ∀ t e e', Links (calls.foldl (MapCall.run pml4) s).1 pml4 e t →
        Links (calls.foldl (MapCall.run pml4) s).1 pml4 e' t → e = e' := by
  obtain ⟨htree', hw⟩ := run_calls htree hpool hsuff fun c hc => (hcalls c hc).1
  refine ⟨fun a ha => ?_, fun t e e' he he' => htree'.links_unique he he'⟩
  have hwa := hw a ha
  cases hc : lastCall calls a with
  | none =>
      rw [hc] at hwa
      exact hwa
  | some c =>
      rw [hc] at hwa
      have hmem : c ∈ calls := List.mem_reverse.mp (List.mem_of_find?_eq_some hc)
      exact .of_walk (hcalls c hmem).2 hwa

/-- Two frames of the kernel's memory and one of them again, from an empty `pml4` and the pool at 4 MiB. -/
theorem pml4_map_address_buffer_maps_twice :
    let calls : List MapCall := [⟨0xFFFF800000800000#64, 0x800000#64⟩, ⟨0xFFFF800000A00000#64, 0xA00000#64⟩,
      ⟨0xFFFF800000800000#64, 0xC00000#64⟩]
    LargePage (calls.foldl (MapCall.run 0x1000#64) (fun _ => 0, 0x400000#64)).1 0x1000#64 0xFFFF800000800010#64
        0xC00000#64 ∧
      LargePage (calls.foldl (MapCall.run 0x1000#64) (fun _ => 0, 0x400000#64)).1 0x1000#64 0xFFFF800000A00000#64
        0xA00000#64 := by
  intro calls
  have hnone : ∀ a, pdpOf (fun _ => 0) 0x1000#64 a = 0 := fun _ => (by decide : tableOf 0 = 0)
  have htree : ProperTree (fun _ => 0) 0x1000#64 := by
    refine ⟨by decide, tableOf_apart_null (e := 0x1000) (by decide), fun a ha => absurd (hnone a) ha,
      fun a ha => absurd (hnone a) ha.1, fun a _ ha _ => absurd (hnone a) ha, fun a _ ha _ => absurd (hnone a) ha,
      fun a _ ha _ _ => absurd (hnone a) ha.1⟩
  have hpool : TablePool (fun _ => 0) 0x400000#64 0x600000 0x1000#64 := by
    refine ⟨by decide, by decide, by decide, fun _ _ _ => rfl, fun i hi => .inl ?_, fun a ha => absurd (hnone a) ha,
      fun a ha => absurd (hnone a) ha.1⟩
    rw [slot_toNat_of_aligned (by decide) hi, show (0x1000#64).toNat = 4096 from rfl, show (0x400000#64).toNat = 4194304 from rfl]
    omega
  have hsuff : PoolSuffices 0x1000#64 0x600000 (fun _ => 0, 0x400000#64) calls :=
    ⟨by decide +kernel, by decide +kernel, by decide +kernel, trivial⟩
  have hmaps := (pml4_map_address_buffer_maps htree hpool hsuff (by
    intro c hc
    simp only [calls, List.mem_cons, List.not_mem_nil, or_false] at hc
    rcases hc with rfl | rfl | rfl <;> exact ⟨.inr (by decide), by decide⟩)).1
  exact ⟨hmaps 0xFFFF800000800010#64 (.inr (by decide)), hmaps 0xFFFF800000A00000#64 (.inr (by decide))⟩

end Dunkos
