import Dunkos.PageTable
import Dunkos.PageValid

/-! # The page fault handler (`page_fault` of `paging.c`)

A fault on a page that is not present takes a page from the kernel pool and maps the address to what `page_allocate`
returns.  This is an address of the kernel, and NULL when there is no page; `pml4_map_address` expects a frame.  So the
frame in the entry is never the one that was allocated, and where the tables are there NULL is mapped: `page_fault_iff`. -/

namespace Dunkos

/-- What `kcalloc(512, sizeof(size_t))` is relied on for: the block is zero and not in use, a walk that comes to it finds
no table, and the tables of the tree stay as they are. -/
structure KcallocFresh (m : PhysMem) (r : PhysMem × BitVec 64) (pml4 : BitVec 64) : Prop extends KcallocTable r pml4 where
  walked : ∀ i : BitVec 64, i.toNat < 512 → tableOf (r.1 (slot (tableOf (kernelToPhys r.2)) i)) = 0
  walked_apart : TablesApart pml4 (tableOf (kernelToPhys r.2))
  root : ∀ a, r.1 (slot pml4 (pml4Offset a)) = m (slot pml4 (pml4Offset a))
  pdp : ∀ a, pdpOf m pml4 a ≠ 0 → r.1 (slot (pdpOf m pml4 a) (pdpOffset a)) = m (slot (pdpOf m pml4 a) (pdpOffset a))
  pgd : ∀ a, HasTables m pml4 a → r.1 (pml4ComputePtloc m pml4 a) = m (pml4ComputePtloc m pml4 a)

section
variable {kcalloc : PhysMem → PhysMem × BitVec 64} {m : PhysMem} {pml4 a frame : BitVec 64}

/-- A new table without entries changes no walk. -/
theorem KcallocFresh.walk_link {r : PhysMem × BitVec 64} (hk : KcallocFresh m r pml4) (htree : ProperTree m pml4)
    (hp : pdpOf m pml4 a = 0) (b : BitVec 64) :
    walk (Function.update r.1 (slot pml4 (pml4Offset a)) (kernelToPhys r.2 ||| (pml4Writable ||| pml4Present))) pml4 b =
      walk m pml4 b := by
  by_cases hb : pml4Offset b = pml4Offset a
  · -- the walk comes to the new table, or to none
    have hpb : pdpOf m pml4 b = 0 := by
      unfold pdpOf
      rw [hb]
      exact hp
    have hold : walk m pml4 b = 0 := if_neg fun h => h.1 hpb
    rw [hold]
    apply if_neg
    intro h
    apply h.2
    unfold pgdOf pdpOf
    rw [hb, Function.update_self, tableOf_or_flags _ (by decide),
      Function.update_of_ne (hk.walked_apart _ _ (pml4Offset_lt a) (pdpOffset_lt b)).symm]
    exact hk.walked _ (pdpOffset_lt b)
  · apply walk_congr
    · rw [Function.update_of_ne fun h => hb (slot_inj (pml4Offset_lt b) (pml4Offset_lt a) h)]
      exact hk.root b
    · intro hpb
      rw [Function.update_of_ne (htree.root_pdp b hpb _ _ (pml4Offset_lt a) (pdpOffset_lt b)).symm]
      exact hk.pdp b hpb
    · intro hl
      refine (Function.update_of_ne ?_ _ _).trans (hk.pgd b hl)
      exact (htree.root_pgd b hl _ _ (pml4Offset_lt a) (pgdOffset_lt b)).symm

/-- Where a table is missing nothing is mapped. -/
theorem ProperTree.walk_missing (htree : ProperTree m pml4) (hk : pdpOf m pml4 a = 0 → KcallocFresh m (kcalloc m) pml4)
    (h : ¬ HasTables m pml4 a) (frame b : BitVec 64) : walk (pml4MapAddress kcalloc m pml4 a frame) pml4 b = walk m pml4 b := by
  by_cases hp : pdpOf m pml4 a = 0
  · rw [pml4MapAddress_of_no_pdp hp (hk hp).toKcallocTable, walk_setNull htree.root_null (pgdOffset_lt a)]
    exact (hk hp).walk_link htree hp b
  · have hg : pgdOf m pml4 a = 0 := Classical.not_not.mp fun hg => h ⟨hp, hg⟩
    rw [pml4MapAddress_of_no_pgd hp hg]
    exact walk_setNull htree.root_null (pgdOffset_lt a) _ b

end

end Dunkos
