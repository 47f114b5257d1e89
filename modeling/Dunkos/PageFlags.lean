import Dunkos.Lib.LastWrite
import Dunkos.PageTable

/-! # Flags of pages (`pml4.c`)

`pml4_set_writable`, `pml4_set_accessed` and `pml4_set_dirty` change one bit of the entry of a page, and `pml4_is_writable`
and its siblings read it by a walk of their own.  The masks are of type `int`: `~(value)` is negative, and its sign extension
keeps the upper half of the entry.  `pml4_flags_last_set` says what the getters report after any sequence of such calls. -/

namespace Dunkos

open Function LastWrite

/-- `pml4_set`.  An `int` is sign-extended to the width of the entry. -/
def pml4Set (m : PhysMem) (pml4 addr : BitVec 64) (cond : Bool) (value : BitVec 32) : PhysMem :=
  if cond then
    update m (pml4ComputePtloc m pml4 addr) (m (pml4ComputePtloc m pml4 addr) ||| value.signExtend 64)
  else
    update m (pml4ComputePtloc m pml4 addr) (m (pml4ComputePtloc m pml4 addr) &&& (~~~value).signExtend 64)

def pml4SetWritable (m : PhysMem) (pml4 addr : BitVec 64) (writable : Bool) : PhysMem :=
  pml4Set m pml4 addr writable (1#32 <<< 1)

def pml4SetAccessed (m : PhysMem) (pml4 addr : BitVec 64) (accessed : Bool) : PhysMem :=
  pml4Set m pml4 addr accessed (1#32 <<< 5)

def pml4SetDirty (m : PhysMem) (pml4 addr : BitVec 64) (dirty : Bool) : PhysMem :=
  pml4Set m pml4 addr dirty (1#32 <<< 6)

/-- `pml4_get`, which does not call `pml4_compute_ptloc`. -/
def pml4Get (m : PhysMem) (pml4 addr : BitVec 64) (test : BitVec 32) : Bool :=
  let pml4Offset := (addr &&& 0xFF8000000000#64) >>> 39
  let pdp := m (slot pml4 pml4Offset) &&& ~~~0xFFF#64
  let pdpOffset := (addr &&& 0x7FC0000000#64) >>> 30
  let pgd := m (slot pdp pdpOffset) &&& ~~~0xFFF#64
  let pgdOffset := (addr &&& 0x3FE00000#64) >>> 21
  m (slot pgd pgdOffset) &&& test.signExtend 64 != 0

def pml4IsWritable (m : PhysMem) (pml4 addr : BitVec 64) : Bool := pml4Get m pml4 addr (1#32 <<< 1)

def pml4IsAccessed (m : PhysMem) (pml4 addr : BitVec 64) : Bool := pml4Get m pml4 addr (1#32 <<< 5)

def pml4IsDirty (m : PhysMem) (pml4 addr : BitVec 64) : Bool := pml4Get m pml4 addr (1#32 <<< 6)

/-! ### What they are for -/

inductive PageFlag where
  | writable
  | accessed
  | dirty
deriving DecidableEq, Repr

namespace PageFlag

/-- The getter of a flag. -/
def get (m : PhysMem) (pml4 addr : BitVec 64) : PageFlag → Bool
  | writable => pml4IsWritable m pml4 addr
  | accessed => pml4IsAccessed m pml4 addr
  | dirty => pml4IsDirty m pml4 addr

/-- Its setter. -/
def set (m : PhysMem) (pml4 addr : BitVec 64) (cond : Bool) : PageFlag → PhysMem
  | writable => pml4SetWritable m pml4 addr cond
  | accessed => pml4SetAccessed m pml4 addr cond
  | dirty => pml4SetDirty m pml4 addr cond

/-- Its bit in an entry. -/
def bit : PageFlag → ℕ
  | writable => 1
  | accessed => 5
  | dirty => 6

end PageFlag

/-- A call of a setter. -/
structure FlagCall where
  flag : PageFlag
  addr : BitVec 64
  cond : Bool

namespace FlagCall

def apply (pml4 : BitVec 64) (m : PhysMem) (c : FlagCall) : PhysMem := c.flag.set m pml4 c.addr c.cond

/-- The call is about this flag of the 2 MiB page of the address. -/
def Hits (c : FlagCall) (k : PageFlag × BitVec 64) : Prop := c.flag = k.1 ∧ c.addr >>> 21 = k.2 >>> 21

instance (c : FlagCall) (k : PageFlag × BitVec 64) : Decidable (c.Hits k) := inferInstanceAs (Decidable (_ ∧ _))

/-- The value last set for a flag of the page of `a`. -/
def lastSet (flag : PageFlag) (a : BitVec 64) (calls : List FlagCall) : Option Bool :=
  last Hits (fun c _ => c.cond) (flag, a) calls

end FlagCall

/-- The walk of a canonical address ends in an entry, as that of every mapped address does. -/
structure HasEntry (m : PhysMem) (pml4 a : BitVec 64) : Prop where
  canonical : Canonical a
  tables : HasTables m pml4 a

/-- Two entries for the same frame, both present or both absent. -/
def SameMapping (e e' : BitVec 64) : Prop := tableOf e' = tableOf e ∧ e' &&& pml4Present = e &&& pml4Present

/-! ### Bits -/

/-- An entry with one bit set or cleared. -/
def withBit (e : BitVec 64) (i : ℕ) (cond : Bool) : BitVec 64 :=
  if cond then e ||| BitVec.twoPow 64 i else e &&& ~~~(BitVec.twoPow 64 i)

theorem withBit_getLsbD (e : BitVec 64) {i : ℕ} (cond : Bool) (hi : i < 64) (j : ℕ) :
    (withBit e i cond).getLsbD j = if j = i then cond else e.getLsbD j := by
  unfold withBit
  by_cases hj : j = i
  · subst hj
    cases cond <;> simp [hi]
  · by_cases hlt : j < 64
    · cases cond <;> simp [hj, hlt]
    · rw [BitVec.getLsbD_of_ge _ j (by omega), if_neg hj, BitVec.getLsbD_of_ge e j (by omega)]

/-- A mask without the bit does not see it. -/
theorem withBit_and {e mask : BitVec 64} {i : ℕ} (cond : Bool) (hi : i < 64) (hmask : mask.getLsbD i = false) :
    withBit e i cond &&& mask = e &&& mask := by
  apply BitVec.eq_of_getLsbD_eq
  intro j _
  rw [BitVec.getLsbD_and, BitVec.getLsbD_and, withBit_getLsbD e cond hi]
  split_ifs with h
  · rw [h, hmask, Bool.and_false, Bool.and_false]
  · rfl

theorem sameMapping_withBit (e : BitVec 64) (flag : PageFlag) (cond : Bool) :
    SameMapping e (withBit e flag.bit cond) := by
  have hlt : flag.bit < 64 := by cases flag <;> decide
  have hframe : (~~~0xFFF#64).getLsbD flag.bit = false := by cases flag <;> decide
  have hpresent : pml4Present.getLsbD flag.bit = false := by cases flag <;> decide
  exact ⟨withBit_and cond hlt hframe, withBit_and cond hlt hpresent⟩

section
variable {m : PhysMem} {pml4 a b : BitVec 64}

/-- Every setter, in one form: the sign extension of `~(value)` clears one bit. -/
theorem PageFlag.set_eq (flag : PageFlag) (cond : Bool) : flag.set m pml4 b cond =
    update m (pml4ComputePtloc m pml4 b) (withBit (m (pml4ComputePtloc m pml4 b)) flag.bit cond) := by
  have hset : ∀ value : BitVec 32, value.signExtend 64 = BitVec.twoPow 64 flag.bit →
      (~~~value).signExtend 64 = ~~~(BitVec.twoPow 64 flag.bit) → pml4Set m pml4 b cond value =
        update m (pml4ComputePtloc m pml4 b) (withBit (m (pml4ComputePtloc m pml4 b)) flag.bit cond) := by
    intro value hpos hneg
    unfold pml4Set withBit
    rw [hpos, hneg]
    cases cond <;> rfl
  cases flag with
  | writable => exact hset _ (by decide) (by decide)
  | accessed => exact hset _ (by decide) (by decide)
  | dirty => exact hset _ (by decide) (by decide)

/-- Every getter, in one form. -/
theorem PageFlag.get_eq (flag : PageFlag) : flag.get m pml4 a = (m (pml4ComputePtloc m pml4 a)).getLsbD flag.bit := by
  have hget : ∀ test : BitVec 32, test.signExtend 64 = BitVec.twoPow 64 flag.bit →
      pml4Get m pml4 a test = (m (pml4ComputePtloc m pml4 a)).getLsbD flag.bit := by
    intro test htest
    show (m (pml4ComputePtloc m pml4 a) &&& test.signExtend 64 != 0) = _
    rw [htest, BitVec.and_twoPow]
    cases (m (pml4ComputePtloc m pml4 a)).getLsbD flag.bit
    · rfl
    · cases flag <;> rfl
  cases flag with
  | writable => exact hget _ (by decide)
  | accessed => exact hget _ (by decide)
  | dirty => exact hget _ (by decide)

theorem HasEntry.get_eq (h : HasEntry m pml4 a) (flag : PageFlag) : flag.get m pml4 a = (walk m pml4 a).getLsbD flag.bit := by
  rw [flag.get_eq, walk, if_pos h.tables]

theorem PageFlag.bit_inj {flag flag' : PageFlag} (h : flag.bit = flag'.bit) : flag = flag' := by
  cases flag <;> cases flag' <;> first | rfl | exact absurd h (by decide)

/-- The walks of two addresses of a page end in the same place. -/
theorem SamePage.ptloc_eq (h : SamePage a b) : pml4ComputePtloc m pml4 a = pml4ComputePtloc m pml4 b := by
  obtain ⟨h₁, h₂, h₃⟩ := h
  unfold pml4ComputePtloc pgdOf pdpOf
  rw [h₁, h₂, h₃]

/-- Addresses in the same 2 MiB have the same offsets in every table. -/
theorem samePage_of_eq (h : a >>> 21 = b >>> 21) : SamePage a b := by
  have hnat := congrArg BitVec.toNat h
  rw [BitVec.toNat_ushiftRight, BitVec.toNat_ushiftRight, Nat.shiftRight_eq_div_pow, Nat.shiftRight_eq_div_pow] at hnat
  refine ⟨?_, ?_, ?_⟩
  · apply BitVec.eq_of_toNat_eq
    rw [pml4Offset_toNat, pml4Offset_toNat]
    omega
  · apply BitVec.eq_of_toNat_eq
    rw [pdpOffset_toNat, pdpOffset_toNat]
    omega
  · apply BitVec.eq_of_toNat_eq
    rw [pgdOffset_toNat, pgdOffset_toNat]
    omega

/-! ### One call -/

/-- Every word keeps its frame and its present bit, whatever the tables are. -/
theorem FlagCall.sameMapping (c : FlagCall) (x : BitVec 64) : SameMapping (m x) (c.apply pml4 m x) := by
  rw [FlagCall.apply, PageFlag.set_eq, update_apply]
  split_ifs with h
  · rw [h]
    exact sameMapping_withBit _ c.flag c.cond
  · exact ⟨rfl, rfl⟩

theorem FlagCall.walk_apply {c : FlagCall} (htree : ProperTree m pml4) (hc : HasEntry m pml4 c.addr)
    (ha : HasEntry m pml4 a) : walk (c.apply pml4 m) pml4 a =
      if c.addr >>> 21 = a >>> 21 then withBit (walk m pml4 a) c.flag.bit c.cond else walk m pml4 a := by
  rw [FlagCall.apply, PageFlag.set_eq, htree.walk_setEntry hc.tables]
  by_cases hpage : c.addr >>> 21 = a >>> 21
  · have hsame := samePage_of_eq hpage.symm
    rw [if_pos hsame, if_pos hpage, ← hsame.ptloc_eq, walk, if_pos ha.tables]
  · rw [if_neg hpage, if_neg fun hs => hpage (hs.page_eq ha.canonical hc.canonical).symm]

/-- **One call** sets its flag on its page, and no other. -/
theorem FlagCall.get_apply {c : FlagCall} (htree : ProperTree m pml4) (hc : HasEntry m pml4 c.addr)
    (ha : HasEntry m pml4 a) (ha' : HasEntry (c.apply pml4 m) pml4 a) (flag : PageFlag) :
    flag.get (c.apply pml4 m) pml4 a = if c.Hits (flag, a) then c.cond else flag.get m pml4 a := by
  have hlt : c.flag.bit < 64 := by cases c.flag <;> decide
  have hhits : c.Hits (flag, a) ↔ c.flag = flag ∧ c.addr >>> 21 = a >>> 21 := Iff.rfl
  rw [ha'.get_eq, ha.get_eq, FlagCall.walk_apply htree hc ha]
  by_cases hpage : c.addr >>> 21 = a >>> 21
  · rw [if_pos hpage, withBit_getLsbD _ _ hlt]
    by_cases hflag : c.flag = flag
    · rw [if_pos (hhits.mpr ⟨hflag, hpage⟩), if_pos (congrArg PageFlag.bit hflag.symm)]
    · rw [if_neg fun h => hflag (hhits.mp h).1, if_neg fun h => hflag (PageFlag.bit_inj h.symm)]
  · rw [if_neg hpage, if_neg fun h => hpage (hhits.mp h).2]

/-! ### Calls one after the other -/

/-- The tree is as proper as it was, and has the same tables. -/
structure SameTree (m m' : PhysMem) (pml4 : BitVec 64) : Prop where
  proper : ProperTree m' pml4
  tables : ∀ a, HasTables m pml4 a → HasTables m' pml4 a

theorem SameTree.hasEntry {m' : PhysMem} (h : SameTree m m' pml4) (ha : HasEntry m pml4 a) : HasEntry m' pml4 a :=
  ⟨ha.canonical, h.tables a ha.tables⟩

theorem SameTree.apply {m' : PhysMem} {c : FlagCall} (h : SameTree m m' pml4) (hc : HasEntry m pml4 c.addr) :
    SameTree m (c.apply pml4 m') pml4 := by
  have hc' := (h.hasEntry hc).tables
  rw [FlagCall.apply, PageFlag.set_eq]
  refine ⟨h.proper.setEntry hc' _, fun a ha => ?_⟩
  obtain ⟨hp, hg⟩ := h.proper.setEntry_tables hc' (withBit (m' (pml4ComputePtloc m' pml4 c.addr)) c.flag.bit c.cond) a
  have ha' := h.tables a ha
  exact ⟨hp ▸ ha'.1, hg ha'.1 ▸ ha'.2⟩

theorem FlagCall.get_foldl {calls : List FlagCall} (htree : ProperTree m pml4)
    (hcalls : ∀ c ∈ calls, HasEntry m pml4 c.addr) (ha : HasEntry m pml4 a) (flag : PageFlag) :
    SameTree m (calls.foldl (FlagCall.apply pml4) m) pml4 ∧
      flag.get (calls.foldl (FlagCall.apply pml4) m) pml4 a =
        (FlagCall.lastSet flag a calls).getD (flag.get m pml4 a) := by
  have hkeep : ∀ (m' : PhysMem) (c : FlagCall), SameTree m m' pml4 → HasEntry m pml4 c.addr →
      SameTree m (c.apply pml4 m') pml4 := fun m' c hI hc => hI.apply hc
  have hwrite : ∀ (m' : PhysMem) (c : FlagCall), SameTree m m' pml4 → HasEntry m pml4 c.addr →
      flag.get (c.apply pml4 m') pml4 a = if c.Hits (flag, a) then c.cond else flag.get m' pml4 a :=
    fun m' c hI hc => FlagCall.get_apply hI.proper (hI.hasEntry hc) (hI.hasEntry ha) ((hI.apply hc).hasEntry ha) flag
  exact read_foldl (k := (flag, a)) (I := fun m' => SameTree m m' pml4) (r := fun m' k => k.1.get m' pml4 k.2)
    hkeep hwrite hcalls ⟨htree, fun _ h => h⟩

end

/-- **Flags of pages.**  After any sequence of calls on addresses with an entry, the getters report for such an address the
value last set for that flag on its page, or else the one from before.  A further call for another page or another flag does
not change it.  No call changes the frame or the present bit of any entry. -/
theorem pml4_flags_last_set {m : PhysMem} {pml4 : BitVec 64} (htree : ProperTree m pml4) {calls : List FlagCall}
    (hcalls : ∀ c ∈ calls, HasEntry m pml4 c.addr) :
    (∀ a flag, HasEntry m pml4 a → flag.get (calls.foldl (FlagCall.apply pml4) m) pml4 a =
      (FlagCall.lastSet flag a calls).getD (flag.get m pml4 a)) ∧
    (∀ a (c : FlagCall) flag, HasEntry m pml4 a → HasEntry m pml4 c.addr → (c.addr >>> 21 ≠ a >>> 21 ∨ c.flag ≠ flag) →
      flag.get (c.apply pml4 (calls.foldl (FlagCall.apply pml4) m)) pml4 a =
        flag.get (calls.foldl (FlagCall.apply pml4) m) pml4 a) ∧
    ∀ (c : FlagCall) x, SameMapping (calls.foldl (FlagCall.apply pml4) m x)
      (c.apply pml4 (calls.foldl (FlagCall.apply pml4) m) x) := by
  refine ⟨fun a flag ha => (FlagCall.get_foldl htree hcalls ha flag).2, fun a c flag ha hc hother => ?_,
    fun c x => c.sameMapping x⟩
  obtain ⟨hsame, -⟩ := FlagCall.get_foldl htree hcalls ha flag
  rw [FlagCall.get_apply hsame.proper (hsame.hasEntry hc) (hsame.hasEntry ha) ((hsame.apply hc).hasEntry ha),
    if_neg fun h => hother.elim (· h.2) (· h.1)]

/-- Three calls on two pages. -/
theorem pml4_flags_last_set_two : PageFlag.get ([⟨.dirty, 0, true⟩, ⟨.dirty, 0x200000, false⟩,
    ⟨.writable, 0, true⟩].foldl (FlagCall.apply 0x1000) (onePdpTree 0x3003)) 0x1000 8 .dirty = true := by
  have htree : ProperTree (onePdpTree 0x3003) 0x1000 := onePdpTree_proper (by decide) (by decide)
  have h₀ : HasEntry (onePdpTree 0x3003) 0x1000 0 := ⟨.inl rfl, by decide⟩
  have h₁ : HasEntry (onePdpTree 0x3003) 0x1000 0x200000 := ⟨.inl rfl, by decide⟩
  have h₂ : HasEntry (onePdpTree 0x3003) 0x1000 8 := ⟨.inl rfl, by decide⟩
  have hcalls : ∀ c ∈ [(⟨.dirty, 0, true⟩ : FlagCall), ⟨.dirty, 0x200000, false⟩, ⟨.writable, 0, true⟩],
      HasEntry (onePdpTree 0x3003) 0x1000 c.addr := by
    rintro c hc
    simp only [List.mem_cons, List.not_mem_nil, or_false] at hc
    rcases hc with rfl | rfl | rfl
    · exact h₀
    · exact h₁
    · exact h₀
  rw [(pml4_flags_last_set htree hcalls).1 8 .dirty h₂]
  rfl

end Dunkos
