import Mathlib.Algebra.Group.Nat.Defs
import Mathlib.Data.Nat.Bitwise
import Mathlib.Logic.Function.Basic

/-! # Page tables (`pml4.c`)

A page-table tree has three levels of tables, each of `512` words: the `pml4`, the `pdp`s and the
`pgd`s, whose entries map pages of 2 MiB.  An entry is the address of the next table with flags in
its low `12` bits, and the zero address means that there is none.

`pml4_map_address` tests `pdp` twice: where only the `pgd` is missing it allocates nothing and
writes the entry through the NULL pointer.  `pml4_map_address_maps_iff` says that the function does
its work for every frame exactly when both tables are there already.  `kcalloc` is a parameter of
the model: what memory and which address it returns. -/

namespace Dunkos

/-- The words of physical memory at multiples of eight, as the kernel reads them through the
addresses themselves. -/
abbrev PhysMem := BitVec 64 → BitVec 64

def pml4Writable : BitVec 64 := 2

def pml4Present : BitVec 64 := 1

/-- `kernel - PHYSBASE`. -/
def kernelToPhys (kernel : BitVec 64) : BitVec 64 := kernel - 0xFFFF800000000000#64

def pml4Offset (addr : BitVec 64) : BitVec 64 := (addr &&& 0xFF8000000000#64) >>> 39

def pdpOffset (addr : BitVec 64) : BitVec 64 := (addr &&& 0x7FC0000000#64) >>> 30

def pgdOffset (addr : BitVec 64) : BitVec 64 := (addr &&& 0x3FE00000#64) >>> 21

/-- `(size_t *)(e & ~0xFFF)`. -/
def tableOf (e : BitVec 64) : BitVec 64 := e &&& ~~~0xFFF#64

/-- `table + i`. -/
def slot (table i : BitVec 64) : BitVec 64 := table + 8#64 * i

/-- The second `if` tests `pdp`, as the first one does, and stores to `pdp[pml4_offset]`. -/
def pml4MapAddress (kcalloc : PhysMem → PhysMem × BitVec 64) (m : PhysMem) (pml4 addr frame : BitVec 64) :
    PhysMem :=
  let pdp := tableOf (m (slot pml4 (pml4Offset addr)))
  let (m, pdp) :=
    if pdp = 0 then
      let (m, b) := kcalloc m
      let pdp := kernelToPhys b
      (Function.update m (slot pml4 (pml4Offset addr)) (pdp ||| (pml4Writable ||| pml4Present)), pdp)
    else (m, pdp)
  let pgd := tableOf (m (slot pdp (pdpOffset addr)))
  let m :=
    if pdp = 0 then
      let (m, b) := kcalloc m
      let pdp := kernelToPhys b
      Function.update m (slot pdp (pml4Offset addr)) (pdp ||| (pml4Writable ||| pml4Present))
    else m
  Function.update m (slot pgd (pgdOffset addr)) (frame ||| (pml4Writable ||| pml4Present))

/-- The `pdp` that the walk of `addr` comes to. -/
def pdpOf (m : PhysMem) (pml4 addr : BitVec 64) : BitVec 64 := tableOf (m (slot pml4 (pml4Offset addr)))

/-- The `pgd` that the walk of `addr` comes to. -/
def pgdOf (m : PhysMem) (pml4 addr : BitVec 64) : BitVec 64 :=
  tableOf (m (slot (pdpOf m pml4 addr) (pdpOffset addr)))

def pml4ComputePtloc (m : PhysMem) (pml4 addr : BitVec 64) : BitVec 64 :=
  slot (pgdOf m pml4 addr) (pgdOffset addr)

/-- Both tables below the `pml4` are there. -/
def HasTables (m : PhysMem) (pml4 addr : BitVec 64) : Prop := pdpOf m pml4 addr ≠ 0 ∧ pgdOf m pml4 addr ≠ 0

instance (m : PhysMem) (pml4 addr : BitVec 64) : Decidable (HasTables m pml4 addr) :=
  inferInstanceAs (Decidable (_ ∧ _))

/-- The entry that the walk of `addr` ends in; an absent one where a table is missing. -/
def walk (m : PhysMem) (pml4 addr : BitVec 64) : BitVec 64 :=
  if HasTables m pml4 addr then m (pml4ComputePtloc m pml4 addr) else 0

/-- Bits 47 to 63 of the address are equal. -/
def Canonical (addr : BitVec 64) : Prop := addr >>> 47 = 0#64 ∨ addr >>> 47 = 0x1FFFF#64

/-- The two addresses have the same offset in every table. -/
def SamePage (a b : BitVec 64) : Prop :=
  pml4Offset a = pml4Offset b ∧ pdpOffset a = pdpOffset b ∧ pgdOffset a = pgdOffset b

instance (a b : BitVec 64) : Decidable (SamePage a b) := inferInstanceAs (Decidable (_ ∧ _))

/-! ### Offsets and slots -/

theorem offset_toNat (x mask : BitVec 64) (n : ℕ) (h : mask >>> n = 511#64) :
    ((x &&& mask) >>> n).toNat = x.toNat / 2 ^ n % 512 := by
  rw [BitVec.ushiftRight_and_distrib, h, BitVec.toNat_and, BitVec.toNat_ushiftRight,
    Nat.shiftRight_eq_div_pow]
  exact Nat.and_two_pow_sub_one_eq_mod _ 9

theorem pml4Offset_toNat (a : BitVec 64) : (pml4Offset a).toNat = a.toNat / 2 ^ 39 % 512 :=
  offset_toNat a _ 39 (by decide)

theorem pdpOffset_toNat (a : BitVec 64) : (pdpOffset a).toNat = a.toNat / 2 ^ 30 % 512 :=
  offset_toNat a _ 30 (by decide)

theorem pgdOffset_toNat (a : BitVec 64) : (pgdOffset a).toNat = a.toNat / 2 ^ 21 % 512 :=
  offset_toNat a _ 21 (by decide)

theorem pml4Offset_lt (a : BitVec 64) : (pml4Offset a).toNat < 512 := by
  rw [pml4Offset_toNat]
  exact Nat.mod_lt _ (by decide)

theorem pdpOffset_lt (a : BitVec 64) : (pdpOffset a).toNat < 512 := by
  rw [pdpOffset_toNat]
  exact Nat.mod_lt _ (by decide)

theorem pgdOffset_lt (a : BitVec 64) : (pgdOffset a).toNat < 512 := by
  rw [pgdOffset_toNat]
  exact Nat.mod_lt _ (by decide)

/-- Canonical addresses with the same offsets are in the same 2 MiB. -/
theorem SamePage.page_eq {a b : BitVec 64} (ha : Canonical a) (hb : Canonical b) (h : SamePage a b) :
    a >>> 21 = b >>> 21 := by
  obtain ⟨h₁, h₂, h₃⟩ := h
  have h₁' := congrArg BitVec.toNat h₁
  have h₂' := congrArg BitVec.toNat h₂
  have h₃' := congrArg BitVec.toNat h₃
  rw [pml4Offset_toNat, pml4Offset_toNat] at h₁'
  rw [pdpOffset_toNat, pdpOffset_toNat] at h₂'
  rw [pgdOffset_toNat, pgdOffset_toNat] at h₃'
  have htop : ∀ x, Canonical x → x.toNat / 2 ^ 47 = 0 ∨ x.toNat / 2 ^ 47 = 0x1FFFF := by
    intro x hx
    rw [← Nat.shiftRight_eq_div_pow, ← BitVec.toNat_ushiftRight]
    exact hx.imp (fun h => congrArg BitVec.toNat h) (fun h => congrArg BitVec.toNat h)
  have ha' := htop a ha
  have hb' := htop b hb
  apply BitVec.eq_of_toNat_eq
  rw [BitVec.toNat_ushiftRight, BitVec.toNat_ushiftRight, Nat.shiftRight_eq_div_pow, Nat.shiftRight_eq_div_pow]
  omega

/-- Clearing the low `k` bits. -/
theorem and_not_toNat (x : BitVec 64) {mask : BitVec 64} {k : ℕ} (hmask : mask = BitVec.ofNat 64 (2 ^ k - 1)) :
    (x &&& ~~~mask).toNat = x.toNat / 2 ^ k * 2 ^ k := by
  have h : x &&& ~~~mask = (x >>> k) <<< k := by
    apply BitVec.eq_of_getLsbD_eq
    intro i hi
    rw [hmask, BitVec.getLsbD_and, BitVec.getLsbD_not, BitVec.getLsbD_ofNat, Nat.testBit_two_pow_sub_one,
      BitVec.getLsbD_shiftLeft, BitVec.getLsbD_ushiftRight]
    by_cases hik : i < k
    · simp [hi, hik]
    · simp [hi, hik, show k + (i - k) = i by omega]
  have hle : x.toNat / 2 ^ k * 2 ^ k < 2 ^ 64 := Nat.lt_of_le_of_lt (Nat.div_mul_le_self _ _) x.isLt
  rw [h, BitVec.toNat_shiftLeft, BitVec.toNat_ushiftRight, Nat.shiftRight_eq_div_pow, Nat.shiftLeft_eq,
    Nat.mod_eq_of_lt hle]

theorem tableOf_toNat (e : BitVec 64) : (tableOf e).toNat = e.toNat / 4096 * 4096 :=
  @and_not_toNat e 0xFFF#64 12 (by decide)

theorem tableOf_of_aligned {e : BitVec 64} (h : e.toNat % 4096 = 0) : tableOf e = e := by
  apply BitVec.eq_of_toNat_eq
  rw [tableOf_toNat]
  omega

/-- Flags in the low bits of an entry. -/
theorem tableOf_or_flags (e : BitVec 64) {flags : BitVec 64} (h : flags &&& ~~~0xFFF#64 = 0#64) :
    tableOf (e ||| flags) = tableOf e := by
  unfold tableOf
  rw [BitVec.and_or_distrib_right, h, BitVec.or_zero]

theorem slot_toNat {t i : BitVec 64} (h : t.toNat + 8 * i.toNat < 2 ^ 64) : (slot t i).toNat = t.toNat + 8 * i.toNat := by
  unfold slot
  rw [BitVec.toNat_add, BitVec.toNat_mul, show (8#64).toNat = 8 from rfl]
  omega

theorem slot_toNat_of_aligned {t i : BitVec 64} (ht : t.toNat % 4096 = 0) (hi : i.toNat < 512) :
    (slot t i).toNat = t.toNat + 8 * i.toNat := by
  have hlt := t.isLt
  exact slot_toNat (by omega)

theorem tableOf_aligned (e : BitVec 64) : (tableOf e).toNat % 4096 = 0 := by
  rw [tableOf_toNat]
  omega

/-- No word is in both tables. -/
def TablesApart (p q : BitVec 64) : Prop :=
  ∀ i j : BitVec 64, i.toNat < 512 → j.toNat < 512 → slot p i ≠ slot q j

theorem slot_inj {p i j : BitVec 64} (hi : i.toNat < 512) (hj : j.toNat < 512) (h : slot p i = slot p j) :
    i = j := by
  unfold slot at h
  bv_omega

/-- Different tables at multiples of `4096` are apart. -/
theorem tableOf_apart {e f : BitVec 64} (h : tableOf e ≠ tableOf f) : TablesApart (tableOf e) (tableOf f) := by
  intro i j hi hj hs
  have hnat := congrArg BitVec.toNat hs
  have he := tableOf_aligned e
  have hf := tableOf_aligned f
  rw [slot_toNat_of_aligned he hi, slot_toNat_of_aligned hf hj] at hnat
  apply h
  apply BitVec.eq_of_toNat_eq
  omega

/-- A table other than NULL does not touch the page at NULL. -/
theorem tableOf_apart_null {e : BitVec 64} (h : tableOf e ≠ 0) : TablesApart (tableOf e) 0 :=
  tableOf_apart (f := 0) h

/-! ### Trees -/

/-- A tree of tables: no table is shared, and no two tables overlap. -/
structure ProperTree (m : PhysMem) (pml4 : BitVec 64) : Prop where
  aligned : pml4.toNat % 8 = 0
  root_null : TablesApart pml4 0
  root_pdp : ∀ a, pdpOf m pml4 a ≠ 0 → TablesApart pml4 (pdpOf m pml4 a)
  root_pgd : ∀ a, HasTables m pml4 a → TablesApart pml4 (pgdOf m pml4 a)
  pdp_pgd : ∀ a b, pdpOf m pml4 a ≠ 0 → HasTables m pml4 b → pdpOf m pml4 a ≠ pgdOf m pml4 b
  pdp_shared : ∀ a b, pdpOf m pml4 a ≠ 0 → pdpOf m pml4 a = pdpOf m pml4 b → pml4Offset a = pml4Offset b
  pgd_shared : ∀ a b, HasTables m pml4 a → HasTables m pml4 b → pgdOf m pml4 a = pgdOf m pml4 b →
    pml4Offset a = pml4Offset b ∧ pdpOffset a = pdpOffset b

/-- A tree is proper by its tables alone. -/
theorem ProperTree.congr {m m' : PhysMem} {pml4 : BitVec 64} (h : ProperTree m pml4)
    (hp : ∀ b, pdpOf m' pml4 b = pdpOf m pml4 b)
    (hg : ∀ b, pdpOf m pml4 b ≠ 0 → pgdOf m' pml4 b = pgdOf m pml4 b) : ProperTree m' pml4 := by
  have hl : ∀ b, HasTables m' pml4 b → HasTables m pml4 b ∧ pgdOf m' pml4 b = pgdOf m pml4 b := by
    intro b hb
    have hp' : pdpOf m pml4 b ≠ 0 := hp b ▸ hb.1
    exact ⟨⟨hp', hg b hp' ▸ hb.2⟩, hg b hp'⟩
  refine ⟨h.aligned, h.root_null, fun a ha => ?_, fun a ha => ?_, fun a b ha hb => ?_, fun a b ha hab => ?_,
    fun a b ha hb hab => ?_⟩
  · rw [hp] at ha ⊢
    exact h.root_pdp a ha
  · rw [(hl a ha).2]
    exact h.root_pgd a (hl a ha).1
  · rw [hp] at ha ⊢
    rw [(hl b hb).2]
    exact h.pdp_pgd a b ha (hl b hb).1
  · rw [hp] at ha
    rw [hp, hp] at hab
    exact h.pdp_shared a b ha hab
  · rw [(hl a ha).2, (hl b hb).2] at hab
    exact h.pgd_shared a b (hl a ha).1 (hl b hb).1 hab

/-- Walks read three words. -/
theorem walk_congr {m m' : PhysMem} {pml4 a : BitVec 64}
    (hroot : m' (slot pml4 (pml4Offset a)) = m (slot pml4 (pml4Offset a)))
    (hpdp : pdpOf m pml4 a ≠ 0 → m' (slot (pdpOf m pml4 a) (pdpOffset a)) = m (slot (pdpOf m pml4 a) (pdpOffset a)))
    (hpgd : HasTables m pml4 a → m' (pml4ComputePtloc m pml4 a) = m (pml4ComputePtloc m pml4 a)) :
    walk m' pml4 a = walk m pml4 a := by
  have h₁ : pdpOf m' pml4 a = pdpOf m pml4 a := congrArg tableOf hroot
  by_cases hp : pdpOf m pml4 a = 0
  · unfold walk
    rw [if_neg fun h => h.1 (h₁.trans hp), if_neg fun h => h.1 hp]
  · have h₂ : pgdOf m' pml4 a = pgdOf m pml4 a := by
      unfold pgdOf
      rw [h₁, hpdp hp]
    have h₃ : HasTables m' pml4 a ↔ HasTables m pml4 a := by
      unfold HasTables
      rw [h₁, h₂]
    unfold walk
    rw [if_congr h₃ rfl rfl]
    split_ifs with h
    · rw [show pml4ComputePtloc m' pml4 a = pml4ComputePtloc m pml4 a from congrArg (slot · _) h₂]
      exact hpgd h
    · rfl

section
variable {m : PhysMem} {pml4 addr : BitVec 64}

/-- Writes into the page at NULL change no walk. -/
theorem walk_setNull (h : TablesApart pml4 0) {j : BitVec 64} (hj : j.toNat < 512) (v a : BitVec 64) :
    walk (Function.update m (slot 0 j) v) pml4 a = walk m pml4 a := by
  apply walk_congr
  · exact Function.update_of_ne (h _ _ (pml4Offset_lt a) hj) _ _
  · intro hp
    exact Function.update_of_ne (tableOf_apart_null hp _ _ (pdpOffset_lt a) hj) _ _
  · intro hp
    exact Function.update_of_ne (tableOf_apart_null hp.2 _ _ (pgdOffset_lt a) hj) _ _

/-- Writing the entry at the end of a walk keeps the words on the way to it. -/
theorem ProperTree.setEntry_words (h : ProperTree m pml4) (hl : HasTables m pml4 addr) (v b : BitVec 64) :
    Function.update m (pml4ComputePtloc m pml4 addr) v (slot pml4 (pml4Offset b)) = m (slot pml4 (pml4Offset b)) ∧
      (pdpOf m pml4 b ≠ 0 → Function.update m (pml4ComputePtloc m pml4 addr) v (slot (pdpOf m pml4 b) (pdpOffset b)) =
        m (slot (pdpOf m pml4 b) (pdpOffset b))) := by
  refine ⟨?_, fun hb => ?_⟩
  · exact Function.update_of_ne (h.root_pgd addr hl _ _ (pml4Offset_lt b) (pgdOffset_lt addr)) _ _
  · exact Function.update_of_ne (tableOf_apart (h.pdp_pgd b addr hb hl) _ _ (pdpOffset_lt b) (pgdOffset_lt addr)) _ _

/-- It keeps all tables. -/
theorem ProperTree.setEntry_tables (h : ProperTree m pml4) (hl : HasTables m pml4 addr) (v b : BitVec 64) :
    pdpOf (Function.update m (pml4ComputePtloc m pml4 addr) v) pml4 b = pdpOf m pml4 b ∧
      (pdpOf m pml4 b ≠ 0 → pgdOf (Function.update m (pml4ComputePtloc m pml4 addr) v) pml4 b = pgdOf m pml4 b) := by
  obtain ⟨hroot, hpdp⟩ := h.setEntry_words hl v b
  have hp := congrArg tableOf hroot
  refine ⟨hp, fun hb => ?_⟩
  unfold pgdOf
  rw [show pdpOf _ pml4 b = pdpOf m pml4 b from hp, hpdp hb]

/-- The tree stays proper. -/
theorem ProperTree.setEntry (h : ProperTree m pml4) (hl : HasTables m pml4 addr) (v : BitVec 64) :
    ProperTree (Function.update m (pml4ComputePtloc m pml4 addr) v) pml4 :=
  h.congr (fun b => (h.setEntry_tables hl v b).1) fun b hb => (h.setEntry_tables hl v b).2 hb

/-- **Writing the entry at the end of a walk** changes this walk, and that of no other page. -/
theorem ProperTree.walk_setEntry (h : ProperTree m pml4) (hl : HasTables m pml4 addr) (v a : BitVec 64) :
    walk (Function.update m (pml4ComputePtloc m pml4 addr) v) pml4 a =
      if SamePage a addr then v else walk m pml4 a := by
  obtain ⟨hroot, hpdp⟩ := h.setEntry_words hl v a
  split_ifs with hs
  · obtain ⟨h₁, h₂, h₃⟩ := hs
    have hp : pdpOf m pml4 a = pdpOf m pml4 addr := by
      unfold pdpOf
      rw [h₁]
    have hg : pgdOf m pml4 a = pgdOf m pml4 addr := by
      unfold pgdOf
      rw [hp, h₂]
    obtain ⟨hpdp', hpgd'⟩ := h.setEntry_tables hl v a
    have hp' := hpdp'.trans hp
    have hg' := (hpgd' (hp ▸ hl.1)).trans hg
    have hloc : pml4ComputePtloc (Function.update m (pml4ComputePtloc m pml4 addr) v) pml4 a =
        pml4ComputePtloc m pml4 addr := by
      unfold pml4ComputePtloc at *
      rw [hg', h₃]
    unfold walk
    rw [if_pos ⟨hp' ▸ hl.1, hg' ▸ hl.2⟩, hloc, Function.update_self]
  · apply walk_congr hroot hpdp
    intro ha
    apply Function.update_of_ne
    intro he
    apply hs
    by_cases hg : pgdOf m pml4 a = pgdOf m pml4 addr
    · obtain ⟨h₁, h₂⟩ := h.pgd_shared a addr ha hl hg
      unfold pml4ComputePtloc at he
      rw [hg] at he
      exact ⟨h₁, h₂, slot_inj (pgdOffset_lt a) (pgdOffset_lt addr) he⟩
    · exact absurd he (tableOf_apart hg _ _ (pgdOffset_lt a) (pgdOffset_lt addr))

end

/-! ### Mapping -/

/-- The walk of `addr` in `m'` ends in a present and writable entry for `frame`, and every other page
is mapped as in `m`. -/
structure MapsPage (m m' : PhysMem) (pml4 addr frame : BitVec 64) : Prop where
  present : walk m' pml4 addr &&& pml4Present ≠ 0
  writable : walk m' pml4 addr &&& pml4Writable ≠ 0
  frame : tableOf (walk m' pml4 addr) = frame
  others : ∀ a, Canonical a → a >>> 21 ≠ addr >>> 21 → walk m' pml4 a = walk m pml4 a

/-- Frames are multiples of 2 MiB. -/
def FrameAligned (frame : BitVec 64) : Prop := frame &&& 0x1FFFFF#64 = 0

instance (frame : BitVec 64) : Decidable (FrameAligned frame) := inferInstanceAs (Decidable (_ = _))

/-- What `kcalloc(512, sizeof(size_t))` is relied on for: the block is zero, and not in use. -/
structure KcallocTable (r : PhysMem × BitVec 64) (pml4 : BitVec 64) : Prop where
  nonzero : kernelToPhys r.2 ≠ 0
  zeroed : ∀ i : BitVec 64, i.toNat < 512 → r.1 (slot (kernelToPhys r.2) i) = 0
  apart : TablesApart pml4 (kernelToPhys r.2)

section
variable {kcalloc : PhysMem → PhysMem × BitVec 64} {m : PhysMem} {pml4 addr frame : BitVec 64}

theorem pml4MapAddress_of_pdp (h : pdpOf m pml4 addr ≠ 0) : pml4MapAddress kcalloc m pml4 addr frame =
    Function.update m (pml4ComputePtloc m pml4 addr) (frame ||| (pml4Writable ||| pml4Present)) := by
  have h' : tableOf (m (slot pml4 (pml4Offset addr))) ≠ 0 := h
  unfold pml4MapAddress
  dsimp only
  rw [if_neg h']
  dsimp only
  rw [if_neg h']
  rfl

/-- The first `if` links a new table, which has no `pgd`. -/
theorem pml4MapAddress_of_no_pdp (h : pdpOf m pml4 addr = 0) (hk : KcallocTable (kcalloc m) pml4) :
    pml4MapAddress kcalloc m pml4 addr frame = Function.update (Function.update (kcalloc m).1
      (slot pml4 (pml4Offset addr)) (kernelToPhys (kcalloc m).2 ||| (pml4Writable ||| pml4Present)))
        (slot 0 (pgdOffset addr)) (frame ||| (pml4Writable ||| pml4Present)) := by
  obtain ⟨hq, hzero, hapart⟩ := hk
  have h' : tableOf (m (slot pml4 (pml4Offset addr))) = 0 := h
  have hpgd : tableOf (Function.update (kcalloc m).1 (slot pml4 (pml4Offset addr))
      (kernelToPhys (kcalloc m).2 ||| (pml4Writable ||| pml4Present))
      (slot (kernelToPhys (kcalloc m).2) (pdpOffset addr))) = 0 := by
    rw [Function.update_of_ne (hapart _ _ (pml4Offset_lt addr) (pdpOffset_lt addr)).symm, hzero _ (pdpOffset_lt addr)]
    rfl
  unfold pml4MapAddress
  dsimp only
  rw [if_pos h']
  dsimp only
  rw [if_neg hq, hpgd]

/-- A table without a `pgd`: the entry goes to the page at NULL. -/
theorem pml4MapAddress_of_no_pgd (hp : pdpOf m pml4 addr ≠ 0) (hg : pgdOf m pml4 addr = 0) :
    pml4MapAddress kcalloc m pml4 addr frame =
      Function.update m (slot 0 (pgdOffset addr)) (frame ||| (pml4Writable ||| pml4Present)) := by
  rw [pml4MapAddress_of_pdp hp]
  unfold pml4ComputePtloc
  rw [hg]

/-- Where a table is missing, the entry goes to the page at NULL. -/
theorem pml4MapAddress_missing (hk : pdpOf m pml4 addr = 0 → KcallocTable (kcalloc m) pml4)
    (h : ¬ HasTables m pml4 addr) :
    ∃ m₂, (∀ frame, pml4MapAddress kcalloc m pml4 addr frame =
        Function.update m₂ (slot 0 (pgdOffset addr)) (frame ||| (pml4Writable ||| pml4Present))) ∧
      (pdpOf m pml4 addr ≠ 0 → m₂ = m) := by
  by_cases hp : pdpOf m pml4 addr = 0
  · exact ⟨_, fun frame => pml4MapAddress_of_no_pdp hp (hk hp), fun hne => absurd hp hne⟩
  · have hg : pgdOf m pml4 addr = 0 := Classical.not_not.mp fun hg => h ⟨hp, hg⟩
    exact ⟨m, fun frame => pml4MapAddress_of_no_pgd hp hg, fun _ => rfl⟩

theorem FrameAligned.toNat (h : FrameAligned frame) : frame.toNat % 2 ^ 21 = 0 := by
  have h' := congrArg BitVec.toNat h
  rw [BitVec.toNat_and] at h'
  rw [← Nat.and_two_pow_sub_one_eq_mod]
  exact h'

/-- The flags do not touch the frame. -/
theorem tableOf_entry (h : FrameAligned frame) : tableOf (frame ||| (pml4Writable ||| pml4Present)) = frame := by
  have hmod := h.toNat
  rw [tableOf_or_flags frame (by decide)]
  exact tableOf_of_aligned (by omega)

theorem entry_flag (frame : BitVec 64) {flag flags : BitVec 64} (i : ℕ) (h₁ : flag.getLsbD i = true)
    (h₂ : flags.getLsbD i = true) : (frame ||| flags) &&& flag ≠ 0 := by
  intro hz
  have hbit := congrArg (fun x => x.getLsbD i) hz
  simp only [BitVec.getLsbD_and, BitVec.getLsbD_or, h₁, h₂, Bool.or_true, Bool.and_true] at hbit
  simp at hbit

/-- Where both tables are there, the page is mapped. -/
theorem ProperTree.mapsPage (h : ProperTree m pml4) (haddr : Canonical addr) (hl : HasTables m pml4 addr)
    (hf : FrameAligned frame) : MapsPage m (pml4MapAddress kcalloc m pml4 addr frame) pml4 addr frame := by
  have hw : ∀ a, walk (pml4MapAddress kcalloc m pml4 addr frame) pml4 a = if SamePage a addr then
      frame ||| (pml4Writable ||| pml4Present) else walk m pml4 a := by
    intro a
    rw [pml4MapAddress_of_pdp hl.1]
    exact h.walk_setEntry hl _ a
  have hself : walk (pml4MapAddress kcalloc m pml4 addr frame) pml4 addr =
      frame ||| (pml4Writable ||| pml4Present) := by
    rw [hw, if_pos ⟨rfl, rfl, rfl⟩]
  refine ⟨?_, ?_, ?_, ?_⟩
  · rw [hself]
    exact entry_flag frame 0 (by decide) (by decide)
  · rw [hself]
    exact entry_flag frame 1 (by decide) (by decide)
  · rw [hself]
    exact tableOf_entry hf
  · intro a ha hne
    rw [hw, if_neg fun hs => hne (hs.page_eq ha haddr)]

end

/-- **Mapping a page**: `pml4_map_address` maps `addr` to every frame, and leaves all other pages as
they were, exactly when the `pdp` and the `pgd` of `addr` are there.  When only the `pgd` is missing,
it fails for every frame. -/
theorem pml4_map_address_maps_iff {kcalloc : PhysMem → PhysMem × BitVec 64} {m : PhysMem} {pml4 addr : BitVec 64}
    (htree : ProperTree m pml4) (haddr : Canonical addr)
    (hk : pdpOf m pml4 addr = 0 → KcallocTable (kcalloc m) pml4) :
    ((∀ frame, FrameAligned frame →
        MapsPage m (pml4MapAddress kcalloc m pml4 addr frame) pml4 addr frame) ↔ HasTables m pml4 addr) ∧
      (pdpOf m pml4 addr ≠ 0 → ∀ frame, FrameAligned frame →
        (MapsPage m (pml4MapAddress kcalloc m pml4 addr frame) pml4 addr frame ↔ HasTables m pml4 addr)) := by
  have hmaps : HasTables m pml4 addr → ∀ frame, FrameAligned frame →
      MapsPage m (pml4MapAddress kcalloc m pml4 addr frame) pml4 addr frame :=
    fun hl _ hf => htree.mapsPage haddr hl hf
  have hnull : ¬ HasTables m pml4 addr → ∃ m₂, (∀ frame,
      walk (pml4MapAddress kcalloc m pml4 addr frame) pml4 addr = walk m₂ pml4 addr) ∧
        (pdpOf m pml4 addr ≠ 0 → m₂ = m) := by
    intro hl
    obtain ⟨m₂, hm, hp⟩ := pml4MapAddress_missing hk hl
    refine ⟨m₂, fun frame => ?_, hp⟩
    rw [hm]
    exact walk_setNull htree.root_null (pgdOffset_lt addr) _ _
  refine ⟨⟨fun h => ?_, hmaps⟩, fun hp frame hf => ⟨fun h => ?_, fun hl => hmaps hl frame hf⟩⟩
  · by_contra hl
    obtain ⟨m₂, hw, -⟩ := hnull hl
    -- the walk ends in the same entry, whatever the frame
    have h₁ := (h 0x200000 (by decide)).frame
    have h₂ := (h 0x400000 (by decide)).frame
    rw [hw] at h₁ h₂
    rw [h₁] at h₂
    exact absurd h₂ (by decide)
  · by_contra hl
    obtain ⟨m₂, hw, hm⟩ := hnull hl
    have h₁ := h.present
    rw [hw, hm hp] at h₁
    unfold walk at h₁
    rw [if_neg hl] at h₁
    exact h₁ (by decide)

/-! ### A small tree -/

/-- A `pml4` at `0x1000` with one `pdp` at `0x2000`, whose first entry is `e`. -/
def onePdpTree (e : BitVec 64) : PhysMem := fun x => if x = 0x1000 then 0x2003 else if x = 0x2000 then e else 0

theorem onePdpTree_pdp {e a : BitVec 64} (h : pdpOf (onePdpTree e) 0x1000 a ≠ 0) :
    pml4Offset a = 0 ∧ pdpOf (onePdpTree e) 0x1000 a = 0x2000 := by
  have hlt := pml4Offset_lt a
  have hne : slot 0x1000 (pml4Offset a) ≠ 0x2000 := by
    unfold slot
    bv_omega
  by_cases h₀ : pml4Offset a = 0
  · refine ⟨h₀, ?_⟩
    unfold pdpOf onePdpTree
    rw [h₀, if_pos (by decide)]
    decide
  · have hne' : slot 0x1000 (pml4Offset a) ≠ 0x1000 := fun hs =>
      h₀ (slot_inj (p := 0x1000) hlt (by decide) (hs.trans (by decide)))
    unfold pdpOf onePdpTree at h
    rw [if_neg hne', if_neg hne] at h
    exact absurd h (by decide)

theorem onePdpTree_pgd {e a : BitVec 64} (h : HasTables (onePdpTree e) 0x1000 a) :
    pdpOffset a = 0 ∧ pgdOf (onePdpTree e) 0x1000 a = tableOf e := by
  have hlt := pdpOffset_lt a
  have hg := h.2
  have hne : slot 0x2000 (pdpOffset a) ≠ 0x1000 := by
    unfold slot
    bv_omega
  unfold pgdOf at hg ⊢
  rw [(onePdpTree_pdp h.1).2] at hg ⊢
  by_cases h₀ : pdpOffset a = 0
  · refine ⟨h₀, ?_⟩
    rw [h₀]
    rfl
  · have hne' : slot 0x2000 (pdpOffset a) ≠ 0x2000 := fun hs =>
      h₀ (slot_inj (p := 0x2000) hlt (by decide) (hs.trans (by decide)))
    unfold onePdpTree at hg
    rw [if_neg hne, if_neg hne'] at hg
    exact absurd hg (by decide)

theorem onePdpTree_proper {e : BitVec 64} (h₁ : tableOf e ≠ 0x1000) (h₂ : tableOf e ≠ 0x2000) :
    ProperTree (onePdpTree e) 0x1000 where
  aligned := by decide
  root_null := tableOf_apart_null (e := 0x1000) (by decide)
  root_pdp a ha := by
    rw [(onePdpTree_pdp ha).2]
    exact tableOf_apart (e := 0x1000) (f := 0x2000) (by decide)
  root_pgd a ha := by
    rw [(onePdpTree_pgd ha).2]
    exact tableOf_apart (e := 0x1000) h₁.symm
  pdp_pgd a b ha hb := by
    rw [(onePdpTree_pdp ha).2, (onePdpTree_pgd hb).2]
    exact h₂.symm
  pdp_shared a b ha hab := by
    rw [(onePdpTree_pdp ha).1, (onePdpTree_pdp (hab ▸ ha)).1]
  pgd_shared a b ha hb _ := by
    rw [(onePdpTree_pdp ha.1).1, (onePdpTree_pdp hb.1).1, (onePdpTree_pgd ha).1, (onePdpTree_pgd hb).1]
    exact ⟨rfl, rfl⟩

/-- With a `pgd` at `0x3000`, the page of `0` is mapped to a frame. -/
theorem pml4_map_address_maps_iff_zero :
    MapsPage (onePdpTree 0x3003) (pml4MapAddress (fun m => (m, 0)) (onePdpTree 0x3003) 0x1000 0 0x200000)
      0x1000 0 0x200000 := by
  have htables : HasTables (onePdpTree 0x3003) 0x1000 0 := by decide
  have htree : ProperTree (onePdpTree 0x3003) 0x1000 := onePdpTree_proper (by decide) (by decide)
  exact (pml4_map_address_maps_iff htree (.inl rfl) fun h => absurd h htables.1).1.mpr htables 0x200000 (by decide)

/-- Without a `pgd`, the page of `0` is not mapped, whatever `kcalloc` does. -/
theorem pml4_map_address_missing_pgd :
    ProperTree (onePdpTree 0) 0x1000 ∧ Canonical 0 ∧ FrameAligned 0x200000 ∧ ∀ kcalloc,
      ¬ MapsPage (onePdpTree 0) (pml4MapAddress kcalloc (onePdpTree 0) 0x1000 0 0x200000) 0x1000 0 0x200000 := by
  refine ⟨onePdpTree_proper (by decide) (by decide), .inl rfl, by decide, fun kcalloc h => ?_⟩
  have hp : pdpOf (onePdpTree 0) 0x1000 0 ≠ 0 := by decide
  have hpresent := h.present
  rw [pml4MapAddress_of_pdp hp] at hpresent
  exact hpresent (by decide)

end Dunkos
