import Dunkos.PageTable
import Dunkos.Heap
import Dunkos.Lib.Loop
import Mathlib.Algebra.Order.BigOperators.Group.Finset

/-! # Copies of page tables (`_pml_copy`, `pml4_copy`)

`pml4_copy` copies a tree of page tables: it allocates a table for every table of the source, and copies
the entries.  An entry keeps the address of a table without its low `12` bits, so that a copy is found again
only where `kcalloc` returns multiples of `4096`.  The blocks of `heap.c` begin `24` bytes behind one, and
walks through the copy read every entry three slots off.

`pml4_copy_right_iff` says what the copy is for such blocks and for aligned ones. -/

namespace Dunkos

/-- `frame + PHYSBASE`, in the type of the words in tables. -/
def physToKernelAddr (frame : BitVec 64) : BitVec 64 := frame + 0xFFFF800000000000#64

theorem kernelToPhys_physToKernelAddr (frame : BitVec 64) : kernelToPhys (physToKernelAddr frame) = frame :=
  BitVec.add_sub_cancel frame _

/-- `(e & 0xFFD) | writable`, where `writable` is `!cow << 1`. -/
def copyFlags (cow : Bool) (e : BitVec 64) : BitVec 64 := (e &&& 0xFFD#64) ||| (if cow then 0 else pml4Writable)

/-- The loop over a table of the last level. -/
def copyEntries (cow : Bool) (dest src : BitVec 64) : PhysMem → Option PhysMem :=
  Loop.countUp (fun i m =>
    let e := m (slot (kernelToPhys src) (BitVec.ofNat 64 i))
    some (Function.update m (slot (kernelToPhys dest) (BitVec.ofNat 64 i)) (tableOf e ||| copyFlags cow e))) 512 0

/-- `_pml_copy`.  `dest` and `src` are addresses of the kernel. -/
def pmlCopy (kcalloc : PhysMem → Option (PhysMem × BitVec 64)) (cow : Bool) :
    ℕ → BitVec 64 → BitVec 64 → PhysMem → Option PhysMem
  | level + 3, dest, src => Loop.countUp (fun i m =>
      let e := m (slot (kernelToPhys src) (BitVec.ofNat 64 i))
      if tableOf e ≠ 0 then
        (kcalloc m).bind fun r =>
          (pmlCopy kcalloc cow (level + 2) r.2 (physToKernelAddr (tableOf e)) r.1).map fun m =>
            Function.update m (slot (kernelToPhys dest) (BitVec.ofNat 64 i)) (kernelToPhys r.2 ||| copyFlags cow e)
      else some m) 512 0
  | _, dest, src => copyEntries cow dest src

def pml4Copy (kcalloc : PhysMem → Option (PhysMem × BitVec 64)) (m : PhysMem) (destPml4 srcPml4 : BitVec 64)
    (cow : Bool) : Option PhysMem :=
  pmlCopy kcalloc cow 4 destPml4 srcPml4 m

/-! ### What a copy is for -/

/-- All tables of a tree, down to the last level. -/
def Tree (P : BitVec 64 → Prop) : ℕ → PhysMem → BitVec 64 → Prop
  | level + 3, m, t => P t ∧ ∀ i : BitVec 64, i.toNat < 512 → tableOf (m (slot t i)) ≠ 0 →
      Tree P (level + 2) m (tableOf (m (slot t i)))
  | _, _, t => P t

/-- The flags on the way to a page, and its own: `flag` is set in all of them. -/
def AllLevels (flag : BitVec 64) (m : PhysMem) (pml4 a : BitVec 64) : Prop :=
  HasTables m pml4 a ∧ m (slot pml4 (pml4Offset a)) &&& flag = flag ∧
    m (slot (pdpOf m pml4 a) (pdpOffset a)) &&& flag = flag ∧ walk m pml4 a &&& flag = flag

/-- The two entries are for the same frame, and have the same flags other than `PML4_WRITABLE`. -/
def SameEntry (e e' : BitVec 64) : Prop := tableOf e = tableOf e' ∧ e &&& 0xFFD#64 = e' &&& 0xFFD#64

/-- What `pml4_copy` is for. -/
structure CopiesTree (cow : Bool) (m m' : PhysMem) (dest src : BitVec 64) : Prop where
  entry : ∀ a, SameEntry (walk m' dest a) (walk m src a)
  writable : ∀ a, AllLevels (pml4Present ||| pml4Writable) m' dest a ↔
    cow = false ∧ AllLevels (pml4Present ||| pml4Writable) m src a
  separate : Tree (fun p => Tree (fun q => TablesApart p q) 4 m' src) 4 m' dest
  unchanged : Tree (fun p => ∀ i : BitVec 64, i.toNat < 512 → m' (slot p i) = m (slot p i)) 4 m src

/-! ### The heap under a copy -/

/-- `p` is a new block of `512` words, zero and apart from the blocks in use. -/
structure NewTable (offset : ℕ) (m m' : PhysMem) (used : List (BitVec 64)) (p : BitVec 64) : Prop where
  nonnull : 4096 ≤ p.toNat
  offset : p.toNat % 4096 = offset
  zeroed : ∀ i : BitVec 64, i.toNat < 512 → m' (slot p i) = 0
  apart : ∀ q ∈ used, TablesApart q p
  keeps : ∀ q ∈ used, ∀ i : BitVec 64, i.toNat < 512 → m' (slot q i) = m (slot q i)

/-- What `_pml_copy` relies on.  `Uses m used` says that the blocks `used` of `512` words are in use, and nothing
of the heap is in them; there is room for `capacity` of them.  All blocks of `kcalloc` begin `offset` bytes behind
a multiple of `4096`. -/
structure TableHeap (kcalloc : PhysMem → Option (PhysMem × BitVec 64)) (Uses : PhysMem → List (BitVec 64) → Prop)
    (capacity offset : ℕ) : Prop where
  alloc : ∀ {m used}, Uses m used → used.length < capacity → ∃ m' b, kcalloc m = some (m', b) ∧
    NewTable offset m m' used (kernelToPhys b) ∧ Uses m' (kernelToPhys b :: used)
  write : ∀ {m used p} {i : BitVec 64} (v : BitVec 64), Uses m used → p ∈ used → i.toNat < 512 →
    Uses (Function.update m (slot p i) v) used

/-- The tables that a copy allocates. -/
def tablesBelow (m : PhysMem) : ℕ → BitVec 64 → ℕ
  | level + 3, t => ∑ i ∈ Finset.range 512, if tableOf (m (slot t (BitVec.ofNat 64 i))) = 0 then 0
      else tablesBelow m (level + 2) (tableOf (m (slot t (BitVec.ofNat 64 i)))) + 1
  | _, _ => 0

/-- What is in the copy `d` of the table `s`, whose tables are among `new`. -/
def Copied (cow : Bool) (new : List (BitVec 64)) (m m' : PhysMem) : ℕ → BitVec 64 → BitVec 64 → Prop
  | level + 3, d, s => ∀ i : BitVec 64, i.toNat < 512 → if tableOf (m (slot s i)) = 0 then m' (slot d i) = 0 else
      ∃ p ∈ new, m' (slot d i) = p ||| copyFlags cow (m (slot s i)) ∧
        Copied cow new m m' (level + 2) p (tableOf (m (slot s i)))
  | _, d, s => ∀ i : BitVec 64, i.toNat < 512 →
      m' (slot d i) = tableOf (m (slot s i)) ||| copyFlags cow (m (slot s i))

/-- The levels from the last one up. -/
theorem level_induction {P : ℕ → Prop} (leaf : ∀ level ≤ 2, P level) (node : ∀ level, P (level + 2) → P (level + 3)) :
    ∀ level, P level
  | 0 => leaf 0 (by decide)
  | 1 => leaf 1 (by decide)
  | 2 => leaf 2 (by decide)
  | level + 3 => node level (level_induction leaf node (level + 2))

section
variable {cow : Bool} {level : ℕ} {m m' m'' : PhysMem} {s d : BitVec 64} {P Q : BitVec 64 → Prop}

theorem tree_leaf (h : level ≤ 2) : Tree P level m s ↔ P s := by
  match level, h with
  | 0, _ => exact Iff.rfl
  | 1, _ => exact Iff.rfl
  | 2, _ => exact Iff.rfl

theorem copied_leaf {new : List (BitVec 64)} (h : level ≤ 2) : Copied cow new m m' level d s ↔
    ∀ i : BitVec 64, i.toNat < 512 → m' (slot d i) = tableOf (m (slot s i)) ||| copyFlags cow (m (slot s i)) := by
  match level, h with
  | 0, _ => exact Iff.rfl
  | 1, _ => exact Iff.rfl
  | 2, _ => exact Iff.rfl

theorem tablesBelow_leaf (h : level ≤ 2) : tablesBelow m level s = 0 := by
  match level, h with
  | 0, _ => rfl
  | 1, _ => rfl
  | 2, _ => rfl

theorem pmlCopy_leaf {kcalloc : PhysMem → Option (PhysMem × BitVec 64)} (h : level ≤ 2) (dest src : BitVec 64) :
    pmlCopy kcalloc cow level dest src = copyEntries cow dest src := by
  match level, h with
  | 0, _ => rfl
  | 1, _ => rfl
  | 2, _ => rfl

theorem Tree.root (h : Tree P level m s) : P s := by
  match level, h with
  | 0, h => exact h
  | 1, h => exact h
  | 2, h => exact h
  | level + 3, h => exact h.1

theorem Tree.mono (h : Tree P level m s) (hPQ : ∀ t, P t → Q t) : Tree Q level m s := by
  induction level using level_induction generalizing s with
  | leaf level hl => exact (tree_leaf hl).mpr (hPQ s ((tree_leaf hl).mp h))
  | node level ih => exact ⟨hPQ s h.1, fun i hi ht => ih (h.2 i hi ht)⟩

/-- A tree is the same as long as the words of its tables are. -/
theorem Tree.congr (h : Tree P level m s)
    (hm : ∀ t, P t → ∀ i : BitVec 64, i.toNat < 512 → m' (slot t i) = m (slot t i)) : Tree P level m' s := by
  induction level using level_induction generalizing s with
  | leaf level hl => exact (tree_leaf hl).mpr ((tree_leaf hl).mp h)
  | node level ih =>
      refine ⟨h.1, fun i hi ht => ?_⟩
      rw [hm s h.1 i hi] at ht ⊢
      exact ih (h.2 i hi ht)

theorem Tree.tablesBelow_eq (h : Tree P level m s)
    (hm : ∀ t, P t → ∀ i : BitVec 64, i.toNat < 512 → m' (slot t i) = m (slot t i)) :
    tablesBelow m' level s = tablesBelow m level s := by
  induction level using level_induction generalizing s with
  | leaf level hl => rw [tablesBelow_leaf hl, tablesBelow_leaf hl]
  | node level ih =>
      refine Finset.sum_congr rfl fun n hn => ?_
      have hi : (BitVec.ofNat 64 n).toNat < 512 := by
        have := Finset.mem_range.mp hn
        rw [BitVec.toNat_ofNat]
        omega
      rw [hm s h.1 _ hi]
      split_ifs with ht
      · rfl
      · rw [ih (h.2 _ hi ht)]

/-- What is read of the source, is the same as long as the words of its tables are. -/
theorem Copied.congr_src {new : List (BitVec 64)} (h : Copied cow new m m'' level d s) (ht : Tree P level m s)
    (hm : ∀ t, P t → ∀ i : BitVec 64, i.toNat < 512 → m' (slot t i) = m (slot t i)) :
    Copied cow new m' m'' level d s := by
  induction level using level_induction generalizing s d with
  | leaf level hl =>
      rw [copied_leaf hl] at h ⊢
      intro i hi
      rw [hm s ht.root i hi]
      exact h i hi
  | node level ih =>
      intro i hi
      have hi' := h i hi
      rw [hm s ht.1 i hi]
      split_ifs at hi' ⊢ with he
      · exact hi'
      · obtain ⟨p, hp, hd, hc⟩ := hi'
        exact ⟨p, hp, hd, ih hc (ht.2 i hi he)⟩

/-- A copy stays one as long as the words of its tables are the same. -/
theorem Copied.congr_dest {new new' : List (BitVec 64)} (h : Copied cow new m m' level d s) (hnew : ∀ p ∈ new, p ∈ new')
    (hm : ∀ p, p = d ∨ p ∈ new → ∀ i : BitVec 64, i.toNat < 512 → m'' (slot p i) = m' (slot p i)) :
    Copied cow new' m m'' level d s := by
  induction level using level_induction generalizing s d with
  | leaf level hl =>
      rw [copied_leaf hl] at h ⊢
      intro i hi
      rw [hm d (.inl rfl) i hi]
      exact h i hi
  | node level ih =>
      intro i hi
      have hi' := h i hi
      rw [hm d (.inl rfl) i hi]
      split_ifs at hi' ⊢ with he
      · exact hi'
      · obtain ⟨p, hp, hd, hc⟩ := hi'
        refine ⟨p, hnew p hp, hd, ih hc fun q hq => hm q (.inr ?_)⟩
        rcases hq with rfl | hq
        · exact hp
        · exact hq

end

/-! ### The copy -/

theorem TablesApart.symm {p q : BitVec 64} (h : TablesApart p q) : TablesApart q p :=
  fun i j hi hj he => h j i hj hi he.symm

theorem index_toNat {n : ℕ} (h : n < 512) : (BitVec.ofNat 64 n).toNat = n := by
  rw [BitVec.toNat_ofNat]
  omega

/-- What a call of `_pml_copy` leaves: it allocated `new` and wrote to `d` and these only. -/
structure TreeCopy (Uses : PhysMem → List (BitVec 64) → Prop) (offset : ℕ) (m m' : PhysMem)
    (used new : List (BitVec 64)) (d : BitVec 64) : Prop where
  uses : Uses m' (new ++ used)
  blocks : ∀ p ∈ new, 4096 ≤ p.toNat ∧ p.toNat % 4096 = offset
  apart : ∀ p ∈ new, ∀ q ∈ used, TablesApart q p
  keeps : ∀ q ∈ used, TablesApart q d → ∀ i : BitVec 64, i.toNat < 512 → m' (slot q i) = m (slot q i)

section
variable {kcalloc : PhysMem → Option (PhysMem × BitVec 64)} {Uses : PhysMem → List (BitVec 64) → Prop}
  {capacity offset : ℕ} {cow : Bool} {m m₁ m₂ m₃ : PhysMem} {used new : List (BitVec 64)} {d : BitVec 64}

theorem TreeCopy.refl (hu : Uses m used) (d : BitVec 64) : TreeCopy Uses offset m m used [] d :=
  ⟨hu, fun _ hp => absurd hp List.not_mem_nil, fun _ hp => absurd hp List.not_mem_nil, fun _ _ _ _ _ => rfl⟩

/-- A word of `d` is written. -/
theorem TreeCopy.write (hk : TableHeap kcalloc Uses capacity offset) (h : TreeCopy Uses offset m m₁ used new d)
    (hd : d ∈ used) {x : BitVec 64} (hx : x.toNat < 512) (v : BitVec 64) :
    TreeCopy Uses offset m (Function.update m₁ (slot d x) v) used new d where
  uses := hk.write v h.uses (List.mem_append_right _ hd) hx
  blocks := h.blocks
  apart := h.apart
  keeps q hq hqd i hi := by
    rw [Function.update_of_ne (hqd i x hi hx)]
    exact h.keeps q hq hqd i hi

/-- A table is allocated and filled. -/
theorem TreeCopy.subtree (h : TreeCopy Uses offset m m₁ used new d) {p : BitVec 64} {new' : List (BitVec 64)}
    (hp : NewTable offset m₁ m₂ (new ++ used) p)
    (hc : TreeCopy Uses offset m₂ m₃ (p :: (new ++ used)) new' p) :
    TreeCopy Uses offset m m₃ used (new' ++ p :: new) d where
  uses := by
    rw [List.append_assoc]
    exact hc.uses
  blocks q hq := by
    rcases List.mem_append.mp hq with hq | hq
    · exact hc.blocks q hq
    · rcases List.mem_cons.mp hq with rfl | hq
      · exact ⟨hp.nonnull, hp.offset⟩
      · exact h.blocks q hq
  apart q hq r hr := by
    have hr' : r ∈ new ++ used := List.mem_append_right _ hr
    rcases List.mem_append.mp hq with hq | hq
    · exact hc.apart q hq r (List.mem_cons_of_mem _ hr')
    · rcases List.mem_cons.mp hq with rfl | hq
      · exact hp.apart r hr'
      · exact h.apart q hq r hr
  keeps q hq hqd i hi := by
    have hq' : q ∈ new ++ used := List.mem_append_right _ hq
    rw [hc.keeps q (List.mem_cons_of_mem _ hq') (hp.apart q hq') i hi, hp.keeps q hq' i hi]
    exact h.keeps q hq hqd i hi

/-- What `n` rounds of the loop over a table leave, where the entries go down to tables at `level`. -/
structure RoundsDone (cow : Bool) (Uses : PhysMem → List (BitVec 64) → Prop) (offset : ℕ) (m m' : PhysMem)
    (used new : List (BitVec 64)) (level : ℕ) (d s : BitVec 64) (n : ℕ) : Prop where
  copy : TreeCopy Uses offset m m' used new d
  count : new.length = ∑ i ∈ Finset.range n, if tableOf (m (slot s (BitVec.ofNat 64 i))) = 0 then 0
    else tablesBelow m level (tableOf (m (slot s (BitVec.ofNat 64 i)))) + 1
  done : ∀ i : BitVec 64, i.toNat < n → if tableOf (m (slot s i)) = 0 then m' (slot d i) = 0 else
    ∃ p ∈ new, m' (slot d i) = p ||| copyFlags cow (m (slot s i)) ∧
      Copied cow new m m' level p (tableOf (m (slot s i)))
  rest : ∀ i : BitVec 64, n ≤ i.toNat → i.toNat < 512 → m' (slot d i) = 0

theorem index_cases {i : BitVec 64} {n : ℕ} (hn : n < 512) (hi : i.toNat < n + 1) :
    i.toNat < n ∨ i = BitVec.ofNat 64 n := by
  rcases Nat.lt_succ_iff_lt_or_eq.mp hi with hi | hi
  · exact .inl hi
  · exact .inr (BitVec.eq_of_toNat_eq (hi.trans (index_toNat hn).symm))

namespace RoundsDone
variable {level n : ℕ} {s : BitVec 64}

theorem start (hu : Uses m used) (hz : ∀ i : BitVec 64, i.toNat < 512 → m (slot d i) = 0) :
    RoundsDone cow Uses offset m m used [] level d s 0 where
  copy := .refl hu d
  count := rfl
  done _ hi := absurd hi (Nat.not_lt_zero _)
  rest _ _ hi := hz _ hi

/-- A round without a table. -/
theorem skip (h : RoundsDone cow Uses offset m m₁ used new level d s n) (hn : n < 512)
    (he : tableOf (m (slot s (BitVec.ofNat 64 n))) = 0) :
    RoundsDone cow Uses offset m m₁ used new level d s (n + 1) where
  copy := h.copy
  count := by rw [Finset.sum_range_succ, if_pos he, Nat.add_zero, h.count]
  done i hi := by
    rcases index_cases hn hi with hi | rfl
    · exact h.done i hi
    · rw [if_pos he]
      exact h.rest _ (index_toNat hn).ge ((index_toNat hn).trans_lt hn)
  rest i hi hi' := h.rest i (Nat.le_of_succ_le hi) hi'

/-- A round that copies a table. -/
theorem table (hk : TableHeap kcalloc Uses capacity offset) (h : RoundsDone cow Uses offset m m₁ used new level d s n)
    (hd : d ∈ used) (hn : n < 512) (he : tableOf (m (slot s (BitVec.ofNat 64 n))) ≠ 0) {p : BitVec 64}
    (hp : NewTable offset m₁ m₂ (new ++ used) p) {new' : List (BitVec 64)}
    (hc : TreeCopy Uses offset m₂ m₃ (p :: (new ++ used)) new' p)
    (hcount : new'.length = tablesBelow m level (tableOf (m (slot s (BitVec.ofNat 64 n)))))
    (hcopied : Copied cow new' m m₃ level p (tableOf (m (slot s (BitVec.ofNat 64 n))))) :
    RoundsDone cow Uses offset m (Function.update m₃ (slot d (BitVec.ofNat 64 n))
        (p ||| copyFlags cow (m (slot s (BitVec.ofNat 64 n))))) used (new' ++ p :: new) level d s (n + 1) := by
  have hx : (BitVec.ofNat 64 n).toNat < 512 := (index_toNat hn).trans_lt hn
  have hd' : d ∈ new ++ used := List.mem_append_right _ hd
  -- the words that were there before the round, but for the one of `d` that is written
  have hold : ∀ q ∈ new ++ used, ∀ i : BitVec 64, i.toNat < 512 → m₃ (slot q i) = m₁ (slot q i) := by
    intro q hq i hi
    rw [hc.keeps q (List.mem_cons_of_mem _ hq) (hp.apart q hq) i hi, hp.keeps q hq i hi]
  have hword : ∀ i : BitVec 64, i.toNat < 512 → i ≠ BitVec.ofNat 64 n → ∀ v,
      Function.update m₃ (slot d (BitVec.ofNat 64 n)) v (slot d i) = m₁ (slot d i) := by
    intro i hi hne v
    rw [Function.update_of_ne fun hs => hne (slot_inj hi hx hs)]
    exact hold d hd' i hi
  have hpd : TablesApart d p := hp.apart d hd'
  refine ⟨(h.copy.subtree hp hc).write hk hd hx _, ?_, fun i hi => ?_, fun i hi hi' => ?_⟩
  · rw [Finset.sum_range_succ, if_neg he, ← h.count, ← hcount, List.length_append, List.length_cons]
    omega
  · rcases index_cases hn hi with hi | rfl
    · have hi' : i.toNat < 512 := Nat.lt_trans hi hn
      have hne : i ≠ BitVec.ofNat 64 n := by
        rintro rfl
        rw [index_toNat hn] at hi
        exact Nat.lt_irrefl _ hi
      have hdone := h.done i hi
      rw [hword i hi' hne]
      split_ifs at hdone ⊢
      · exact hdone
      · obtain ⟨q, hq, hdq, hcq⟩ := hdone
        have hsub : ∀ r ∈ new, r ∈ new' ++ p :: new := fun r hr =>
          List.mem_append_right _ (List.mem_cons_of_mem _ hr)
        refine ⟨q, hsub q hq, hdq, hcq.congr_dest hsub fun r hr j hj => ?_⟩
        have hr' : r ∈ new := hr.elim (fun hrq => hrq ▸ hq) id
        rw [Function.update_of_ne (h.copy.apart r hr' d hd _ _ hx hj).symm]
        exact hold r (List.mem_append_left _ hr') j hj
    · rw [if_neg he, Function.update_self]
      refine ⟨p, List.mem_append_right _ List.mem_cons_self, rfl, hcopied.congr_dest
        (fun r hr => List.mem_append_left _ hr) fun r hr j hj => ?_⟩
      apply Function.update_of_ne
      rcases hr with rfl | hr
      · exact (hpd _ _ hx hj).symm
      · exact (hc.apart r hr d (List.mem_cons_of_mem _ hd') _ _ hx hj).symm
  · have hne : i ≠ BitVec.ofNat 64 n := by
      rintro rfl
      rw [index_toNat hn] at hi
      omega
    rw [hword i hi' hne]
    exact h.rest i (Nat.le_of_succ_le hi) hi'

end RoundsDone

variable (cow) in
/-- The loop over a table of the last level. -/
theorem copyEntries_copied (hk : TableHeap kcalloc Uses capacity offset) {dest src : BitVec 64} (hu : Uses m used)
    (hd : kernelToPhys dest ∈ used) (hs : kernelToPhys src ∈ used)
    (hsd : TablesApart (kernelToPhys src) (kernelToPhys dest)) : ∃ m', copyEntries cow dest src m = some m' ∧
      TreeCopy Uses offset m m' used [] (kernelToPhys dest) ∧ ∀ i : BitVec 64, i.toNat < 512 →
        m' (slot (kernelToPhys dest) i) = tableOf (m (slot (kernelToPhys src) i)) |||
          copyFlags cow (m (slot (kernelToPhys src) i)) := by
  refine Loop.countUp_total (n := 512) (I := fun n m' => TreeCopy Uses offset m m' used [] (kernelToPhys dest) ∧
    ∀ i : BitVec 64, i.toNat < n → m' (slot (kernelToPhys dest) i) =
      tableOf (m (slot (kernelToPhys src) i)) ||| copyFlags cow (m (slot (kernelToPhys src) i)))
    (fun n m₁ hn hi => ?_) rfl ⟨.refl hu _, fun i hi => absurd hi (Nat.not_lt_zero _)⟩
  obtain ⟨hc, hdone⟩ := hi
  have hx : (BitVec.ofNat 64 n).toNat < 512 := (index_toNat hn).trans_lt hn
  refine ⟨_, rfl, hc.write hk hd hx _, fun i hi => ?_⟩
  rcases index_cases hn hi with hi | rfl
  · rw [Function.update_of_ne]
    · exact hdone i hi
    · intro he
      have heq := slot_inj (Nat.lt_trans hi hn) hx he
      rw [heq, index_toNat hn] at hi
      exact Nat.lt_irrefl _ hi
  · rw [Function.update_self, hc.keeps _ hs hsd _ hx]

/-- **The copy of a tree**: when the heap has room for its tables, `_pml_copy` returns, and what it wrote is a copy. -/
theorem pmlCopy_copied (hk : TableHeap kcalloc Uses capacity offset) (level : ℕ) {dest src : BitVec 64} {m : PhysMem}
    {used : List (BitVec 64)} (hu : Uses m used) (hd : kernelToPhys dest ∈ used)
    (ht : Tree (fun t => t ∈ used ∧ TablesApart t (kernelToPhys dest)) level m (kernelToPhys src))
    (hz : ∀ i : BitVec 64, i.toNat < 512 → m (slot (kernelToPhys dest) i) = 0)
    (hroom : used.length + tablesBelow m level (kernelToPhys src) ≤ capacity) :
    ∃ m' new, pmlCopy kcalloc cow level dest src m = some m' ∧
      TreeCopy Uses offset m m' used new (kernelToPhys dest) ∧
      new.length = tablesBelow m level (kernelToPhys src) ∧
      Copied cow new m m' level (kernelToPhys dest) (kernelToPhys src) := by
  induction level using level_induction generalizing dest src m used with
  | leaf level hl =>
      obtain ⟨hs, hsd⟩ := ht.root
      obtain ⟨m', hm, hc, hdone⟩ := copyEntries_copied cow hk hu hd hs hsd
      refine ⟨m', [], ?_, hc, (tablesBelow_leaf hl).symm, (copied_leaf hl).mpr hdone⟩
      rw [pmlCopy_leaf hl]
      exact hm
  | node level ih =>
      have hloop : ∃ m', pmlCopy kcalloc cow (level + 3) dest src m = some m' ∧ ∃ new,
          RoundsDone cow Uses offset m m' used new (level + 2) (kernelToPhys dest) (kernelToPhys src) 512 := by
        refine Loop.countUp_total (I := fun n m' => ∃ new, RoundsDone cow Uses offset m m' used new (level + 2)
          (kernelToPhys dest) (kernelToPhys src) n) (fun n m₁ hn hi => ?_) (Nat.zero_add 512) ⟨[], .start hu hz⟩
        obtain ⟨new, hr⟩ := hi
        have hx : (BitVec.ofNat 64 n).toNat < 512 := (index_toNat hn).trans_lt hn
        have hsrc : m₁ (slot (kernelToPhys src) (BitVec.ofNat 64 n)) = m (slot (kernelToPhys src) (BitVec.ofNat 64 n)) :=
          hr.copy.keeps _ ht.1.1 ht.1.2 _ hx
        dsimp only
        rw [hsrc]
        by_cases he : tableOf (m (slot (kernelToPhys src) (BitVec.ofNat 64 n))) = 0
        · exact ⟨m₁, if_neg (not_not.mpr he), new, hr.skip hn he⟩
        · -- the tables of the source are as they were when the copy of this one begins
          have hchild := ht.2 _ hx he
          have hsum : new.length + (tablesBelow m (level + 2)
              (tableOf (m (slot (kernelToPhys src) (BitVec.ofNat 64 n)))) + 1) ≤
                tablesBelow m (level + 3) (kernelToPhys src) := by
            have hle := Finset.sum_le_sum_of_subset (f := fun i =>
              if tableOf (m (slot (kernelToPhys src) (BitVec.ofNat 64 i))) = 0 then 0
              else tablesBelow m (level + 2) (tableOf (m (slot (kernelToPhys src) (BitVec.ofNat 64 i)))) + 1)
              (Finset.range_mono (Nat.succ_le_of_lt hn))
            rw [Finset.sum_range_succ, if_neg he, ← hr.count] at hle
            exact hle
          obtain ⟨m₂, b, hkc, hp, hu₂⟩ := hk.alloc hr.copy.uses (by rw [List.length_append]; omega)
          have hm₂ : ∀ t, t ∈ used ∧ TablesApart t (kernelToPhys dest) → ∀ i : BitVec 64, i.toNat < 512 →
              m₂ (slot t i) = m (slot t i) := by
            intro t ht i hi
            rw [hp.keeps t (List.mem_append_right _ ht.1) i hi]
            exact hr.copy.keeps t ht.1 ht.2 i hi
          have hphys := kernelToPhys_physToKernelAddr (tableOf (m (slot (kernelToPhys src) (BitVec.ofNat 64 n))))
          have hchild₂ := hchild.congr hm₂
          have hcount₂ := hchild.tablesBelow_eq hm₂
          obtain ⟨m₃, new', hm₃, hc, hcount, hcopied⟩ := @ih b
            (physToKernelAddr (tableOf (m (slot (kernelToPhys src) (BitVec.ofNat 64 n))))) m₂
            (kernelToPhys b :: (new ++ used)) hu₂ List.mem_cons_self (by
              rw [hphys]
              refine hchild₂.mono fun t ht => ?_
              have ht' : t ∈ new ++ used := List.mem_append_right _ ht.1
              exact ⟨List.mem_cons_of_mem _ ht', hp.apart t ht'⟩) hp.zeroed (by
              rw [hphys, hcount₂, List.length_cons, List.length_append]
              omega)
          rw [hphys, hcount₂] at hcount
          rw [hphys] at hcopied
          refine ⟨_, ?_, new' ++ kernelToPhys b :: new, hr.table hk hd hn he hp hc hcount
            (hcopied.congr_src hchild₂ fun t ht i hi => (hm₂ t ht i hi).symm)⟩
          rw [if_pos he, hkc, Option.bind_some, hm₃, Option.map_some]
      obtain ⟨m', hm, new, hr⟩ := hloop
      exact ⟨m', new, hm, hr.copy, hr.count, fun i hi => hr.done i hi⟩

end

/-! ### Walks through a copy -/

theorem copyFlags_low (cow : Bool) (e : BitVec 64) : copyFlags cow e &&& ~~~0xFFF#64 = 0#64 := by
  unfold copyFlags
  rw [BitVec.and_or_distrib_right, BitVec.and_assoc, show 0xFFD#64 &&& ~~~0xFFF#64 = 0#64 from rfl, BitVec.and_zero]
  cases cow <;> rfl

theorem tableOf_copy (cow : Bool) (p e : BitVec 64) : tableOf (p ||| copyFlags cow e) = tableOf p :=
  tableOf_or_flags p (copyFlags_low cow e)

theorem tableOf_tableOf (e : BitVec 64) : tableOf (tableOf e) = tableOf e := by
  unfold tableOf
  rw [BitVec.and_assoc, BitVec.and_self]

/-- The copy of an entry is for the same frame. -/
theorem sameEntry_copy (cow : Bool) (e : BitVec 64) : SameEntry (tableOf e ||| copyFlags cow e) e := by
  refine ⟨(tableOf_copy cow _ e).trans (tableOf_tableOf e), ?_⟩
  unfold copyFlags tableOf
  rw [BitVec.and_or_distrib_right, BitVec.and_or_distrib_right, BitVec.and_assoc,
    show ~~~0xFFF#64 &&& 0xFFD#64 = 0#64 from rfl, BitVec.and_zero, BitVec.zero_or, BitVec.and_assoc, BitVec.and_self]
  cases cow <;> simp [pml4Writable]

/-- A block is found `o` slots before its words. -/
theorem slot_tableOf {p i j : BitVec 64} {o : ℕ} (hp : p.toNat % 4096 = 8 * o) (hj : j.toNat = i.toNat + o) :
    slot (tableOf p) j = slot p i := by
  have hlt := p.isLt
  unfold slot
  apply BitVec.eq_of_toNat_eq
  rw [BitVec.toNat_add, BitVec.toNat_add, BitVec.toNat_mul, BitVec.toNat_mul, tableOf_toNat, hj,
    show (8#64).toNat = 8 from rfl]
  omega

theorem tableOf_ne_zero {p : BitVec 64} (hp : 4096 ≤ p.toNat) : tableOf p ≠ 0 := by
  intro h
  have h' := congrArg BitVec.toNat h
  rw [tableOf_toNat, show (0 : BitVec 64).toNat = 0 from rfl] at h'
  omega

/-- What a copy has on the way to a page. -/
inductive CopiedWalk (cow : Bool) (new : List (BitVec 64)) (m m' : PhysMem) (d s a : BitVec 64) : Prop
  | noPdp (missing : pdpOf m s a = 0) (root : m' (slot d (pml4Offset a)) = 0)
  | noPgd (p : BitVec 64) (mem : p ∈ new) (missing : pgdOf m s a = 0)
      (root : m' (slot d (pml4Offset a)) = p ||| copyFlags cow (m (slot s (pml4Offset a))))
      (dir : m' (slot p (pdpOffset a)) = 0)
  | page (p q : BitVec 64) (mem : p ∈ new) (mem' : q ∈ new) (tables : HasTables m s a)
      (root : m' (slot d (pml4Offset a)) = p ||| copyFlags cow (m (slot s (pml4Offset a))))
      (dir : m' (slot p (pdpOffset a)) = q ||| copyFlags cow (m (slot (pdpOf m s a) (pdpOffset a))))
      (leaf : m' (slot q (pgdOffset a)) = tableOf (walk m s a) ||| copyFlags cow (walk m s a))

/-- The addresses whose offsets in the last two tables differ by `o`. -/
def ShiftedBy (o : ℕ) (a b : BitVec 64) : Prop :=
  pml4Offset b = pml4Offset a ∧ (pdpOffset b).toNat = (pdpOffset a).toNat + o ∧
    (pgdOffset b).toNat = (pgdOffset a).toNat + o

section
variable {cow : Bool} {new : List (BitVec 64)} {m m' : PhysMem} {d s a b : BitVec 64}

theorem Copied.walk (h : Copied cow new m m' 4 d s) (a : BitVec 64) : CopiedWalk cow new m m' d s a := by
  have hroot := h (pml4Offset a) (pml4Offset_lt a)
  split_ifs at hroot with hp
  · exact .noPdp hp hroot
  · obtain ⟨p, hmem, hroot, hc⟩ := hroot
    have hdir := hc (pdpOffset a) (pdpOffset_lt a)
    split_ifs at hdir with hg
    · exact .noPgd p hmem hg hroot hdir
    · obtain ⟨q, hmem', hdir, hc'⟩ := hdir
      have hl : HasTables m s a := ⟨hp, hg⟩
      refine .page p q hmem hmem' hl hroot hdir ?_
      unfold Dunkos.walk
      rw [if_pos hl]
      exact hc' (pgdOffset a) (pgdOffset_lt a)

/-- **Where a walk through a copy ends**, when the tables are found `o` slots before their words: in the copy of
the entry that the source has for the address before. -/
theorem CopiedWalk.walk_eq {o : ℕ} (h : CopiedWalk cow new m m' d s a)
    (hnew : ∀ p ∈ new, 4096 ≤ p.toNat ∧ p.toNat % 4096 = 8 * o) (hab : ShiftedBy o a b) :
    (HasTables m' d b ↔ HasTables m s a) ∧ walk m' d b =
      if HasTables m s a then tableOf (walk m s a) ||| copyFlags cow (walk m s a) else 0 := by
  obtain ⟨hab₁, hab₂, hab₃⟩ := hab
  have hpdp : ∀ {p e}, m' (slot d (pml4Offset a)) = p ||| copyFlags cow e → pdpOf m' d b = tableOf p := by
    intro p e hroot
    unfold pdpOf
    rw [hab₁, hroot, tableOf_copy]
  cases h with
  | noPdp missing root =>
      have hp : pdpOf m' d b = 0 := by
        unfold pdpOf
        rw [hab₁, root]
        rfl
      have hno : ¬ HasTables m s a := fun hl => hl.1 missing
      have hno' : ¬ HasTables m' d b := fun hl => hl.1 hp
      refine ⟨iff_of_false hno' hno, ?_⟩
      unfold Dunkos.walk
      rw [if_neg hno', if_neg hno]
  | noPgd p mem missing root dir =>
      have hg : pgdOf m' d b = 0 := by
        unfold pgdOf
        rw [hpdp root, slot_tableOf (hnew p mem).2 hab₂, dir]
        rfl
      have hno : ¬ HasTables m s a := fun hl => hl.2 missing
      have hno' : ¬ HasTables m' d b := fun hl => hl.2 hg
      refine ⟨iff_of_false hno' hno, ?_⟩
      unfold Dunkos.walk
      rw [if_neg hno', if_neg hno]
  | page p q mem mem' tables root dir leaf =>
      have hp := hpdp root
      have hg : pgdOf m' d b = tableOf q := by
        unfold pgdOf
        rw [hp, slot_tableOf (hnew p mem).2 hab₂, dir, tableOf_copy]
      have hl : HasTables m' d b := by
        refine ⟨?_, ?_⟩
        · rw [hp]
          exact tableOf_ne_zero (hnew p mem).1
        · rw [hg]
          exact tableOf_ne_zero (hnew q mem').1
      refine ⟨iff_of_true hl tables, ?_⟩
      rw [if_pos tables, ← leaf, ← slot_tableOf (hnew q mem').2 hab₃, ← hg]
      exact if_pos hl

theorem CopiedWalk.sameEntry {o : ℕ} (h : CopiedWalk cow new m m' d s a)
    (hnew : ∀ p ∈ new, 4096 ≤ p.toNat ∧ p.toNat % 4096 = 8 * o) (hab : ShiftedBy o a b) :
    SameEntry (walk m' d b) (walk m s a) := by
  rw [(h.walk_eq hnew hab).2]
  split_ifs with hl
  · exact sameEntry_copy cow _
  · unfold Dunkos.walk
    rw [if_neg hl]
    exact ⟨rfl, rfl⟩

/-- An entry of the copy is present and writable when the bit of the copy is set and the source's is present. -/
theorem copyFlags_three {p : BitVec 64} (hp : tableOf p = p) (cow : Bool) (e : BitVec 64) :
    (p ||| copyFlags cow e) &&& (pml4Present ||| pml4Writable) = pml4Present ||| pml4Writable ↔
      cow = false ∧ e &&& pml4Present = pml4Present := by
  have hlow : p &&& 3#64 = 0#64 := by
    rw [← hp]
    unfold tableOf
    rw [BitVec.and_assoc, show ~~~0xFFF#64 &&& 3#64 = 0#64 from rfl, BitVec.and_zero]
  have hflags : (e &&& 0xFFD#64) &&& 3#64 = e &&& 1#64 := by
    rw [BitVec.and_assoc]
    rfl
  have hbit : e &&& 1#64 = 0#64 ∨ e &&& 1#64 = 1#64 := by
    have h := Nat.and_one_is_mod e.toNat
    rcases Nat.mod_two_eq_zero_or_one e.toNat with h₀ | h₀
    · exact .inl (BitVec.eq_of_toNat_eq (by rw [BitVec.toNat_and]; exact h.trans h₀))
    · exact .inr (BitVec.eq_of_toNat_eq (by rw [BitVec.toNat_and]; exact h.trans h₀))
  unfold copyFlags
  rw [show pml4Present ||| pml4Writable = 3#64 from rfl, show pml4Present = 1#64 from rfl,
    BitVec.and_or_distrib_right, BitVec.and_or_distrib_right, hlow, hflags, BitVec.zero_or]
  rcases hbit with hb | hb <;> rw [hb] <;> cases cow <;> decide

/-- In a copy with aligned tables, the pages that are present and writable are those that are present in the
source, and none when the copy is for copying on writes. -/
theorem CopiedWalk.writable_iff (h : CopiedWalk cow new m m' d s a)
    (hnew : ∀ p ∈ new, 4096 ≤ p.toNat ∧ p.toNat % 4096 = 0) :
    AllLevels (pml4Present ||| pml4Writable) m' d a ↔ cow = false ∧ AllLevels pml4Present m s a := by
  have halign : ∀ p ∈ new, tableOf p = p := fun p hp => tableOf_of_aligned (hnew p hp).2
  have hwalk := h.walk_eq (o := 0) hnew ⟨rfl, rfl, rfl⟩
  by_cases hl : HasTables m s a
  · cases h with
    | noPdp missing root => exact absurd missing hl.1
    | noPgd p mem missing root dir => exact absurd missing hl.2
    | page p q mem mem' tables root dir leaf =>
        have hp : pdpOf m' d a = p := by
          unfold pdpOf
          rw [root, tableOf_copy, halign p mem]
        unfold AllLevels
        rw [hwalk.1, hwalk.2, if_pos hl, hp, root, dir, copyFlags_three (halign p mem),
          copyFlags_three (halign q mem'), copyFlags_three (tableOf_tableOf _)]
        tauto
  · refine iff_of_false (fun hall => hl (hwalk.1.mp hall.1)) fun hall => hl hall.2.1

/-- The tables of a copy with aligned tables. -/
theorem Copied.tree {level : ℕ} (h : Copied cow new m m' level d s) (hnew : ∀ p ∈ new, p.toNat % 4096 = 0) :
    Tree (fun p => p = d ∨ p ∈ new) level m' d := by
  induction level using level_induction generalizing s d with
  | leaf level hl => exact (tree_leaf hl).mpr (.inl rfl)
  | node level ih =>
      refine ⟨.inl rfl, fun i hi ht => ?_⟩
      have hi' := h i hi
      split_ifs at hi' with he
      · rw [hi'] at ht
        exact absurd rfl ht
      · obtain ⟨p, hmem, hd, hc⟩ := hi'
        have hp : tableOf (m' (slot d i)) = p := by
          rw [hd, tableOf_copy]
          exact tableOf_of_aligned (hnew p hmem)
        rw [hp]
        refine (ih hc).mono fun q hq => .inr ?_
        rcases hq with rfl | hq
        · exact hmem
        · exact hq

end

/-! ### When a copy is right -/

theorem SameEntry.symm {e e' : BitVec 64} (h : SameEntry e e') : SameEntry e' e := ⟨h.1.symm, h.2.symm⟩

theorem SameEntry.trans {e₁ e₂ e₃ : BitVec 64} (h : SameEntry e₁ e₂) (h' : SameEntry e₂ e₃) : SameEntry e₁ e₃ :=
  ⟨h.1.trans h'.1, h.2.trans h'.2⟩

theorem AllLevels.present {m : PhysMem} {pml4 a : BitVec 64} (h : AllLevels (pml4Present ||| pml4Writable) m pml4 a) :
    AllLevels pml4Present m pml4 a := by
  have hbit : ∀ e : BitVec 64, e &&& (pml4Present ||| pml4Writable) = pml4Present ||| pml4Writable →
      e &&& pml4Present = pml4Present := by
    intro e he
    rw [show pml4Present = (pml4Present ||| pml4Writable) &&& pml4Present from rfl, ← BitVec.and_assoc, he]
  exact ⟨h.1, hbit _ h.2.1, hbit _ h.2.2.1, hbit _ h.2.2.2⟩

section
variable {Uses : PhysMem → List (BitVec 64) → Prop} {offset : ℕ} {cow : Bool} {m m' : PhysMem}
  {used new : List (BitVec 64)} {d s : BitVec 64}

/-- The tables of the source, which the copy does not touch. -/
theorem TreeCopy.unchanged (h : TreeCopy Uses offset m m' used new d)
    (ht : Tree (fun t => t ∈ used ∧ TablesApart t d) 4 m s) :
    Tree (fun p => ∀ i : BitVec 64, i.toNat < 512 → m' (slot p i) = m (slot p i)) 4 m s :=
  ht.mono fun t ht' => h.keeps t ht'.1 ht'.2

/-- A table of the copy, its root or a new one, is none of the source. -/
theorem TreeCopy.separate (h : TreeCopy Uses offset m m' used new d)
    (ht : Tree (fun t => t ∈ used ∧ TablesApart t d) 4 m s) {p : BitVec 64} (hp : p = d ∨ p ∈ new) :
    Tree (fun q => TablesApart p q) 4 m' s := by
  refine (ht.congr fun t ht' => h.keeps t ht'.1 ht'.2).mono fun t ht' => ?_
  rcases hp with rfl | hp
  · exact ht'.2.symm
  · exact (h.apart p hp t ht'.1).symm

/-- Where the source has no tables below its root, nothing is allocated. -/
theorem TreeCopy.copies_empty (h : TreeCopy Uses offset m m' used new d)
    (ht : Tree (fun t => t ∈ used ∧ TablesApart t d) 4 m s) (hc : Copied cow new m m' 4 d s)
    (hnone : ∀ i : BitVec 64, i.toNat < 512 → tableOf (m (slot s i)) = 0) : CopiesTree cow m m' d s := by
  have hzero : ∀ i : BitVec 64, i.toNat < 512 → m' (slot d i) = 0 := by
    intro i hi
    have hi' := hc i hi
    rwa [if_pos (hnone i hi)] at hi'
  have hno : ∀ a, ¬ HasTables m s a := fun a hl => hl.1 (hnone _ (pml4Offset_lt a))
  have hno' : ∀ a, ¬ HasTables m' d a := by
    intro a hl
    refine hl.1 ?_
    unfold pdpOf
    rw [hzero _ (pml4Offset_lt a)]
    rfl
  refine ⟨fun a => ?_, fun a => ?_, ⟨h.separate ht (.inl rfl), fun i hi hne => ?_⟩, h.unchanged ht⟩
  · unfold walk
    rw [if_neg (hno a), if_neg (hno' a)]
    exact ⟨rfl, rfl⟩
  · exact iff_of_false (fun hall => hno' a hall.1) fun hall => hno a hall.2.1
  · rw [hzero i hi] at hne
    exact absurd rfl hne

/-- With aligned tables, the copy is right but for pages that are not writable. -/
theorem TreeCopy.copies_aligned (h : TreeCopy Uses 0 m m' used new d)
    (ht : Tree (fun t => t ∈ used ∧ TablesApart t d) 4 m s) (hc : Copied cow new m m' 4 d s) :
    CopiesTree cow m m' d s ↔
      cow = true ∨ ∀ a, AllLevels pml4Present m s a → AllLevels (pml4Present ||| pml4Writable) m s a := by
  have hwrite := fun a => (hc.walk a).writable_iff h.blocks
  constructor
  · intro hright
    cases cow with
    | true => exact .inl rfl
    | false =>
        refine .inr fun a ha => ?_
        exact ((hright.writable a).mp ((hwrite a).mpr ⟨rfl, ha⟩)).2
  · intro hcond
    refine ⟨fun a => (hc.walk a).sameEntry (o := 0) h.blocks ⟨rfl, rfl, rfl⟩, fun a => ?_, ?_, h.unchanged ht⟩
    · rw [hwrite a]
      refine and_congr_right fun hcow => ⟨hcond.resolve_left ?_ a, AllLevels.present⟩
      rw [hcow]
      exact Bool.false_ne_true
    · exact (hc.tree fun p hp => (h.blocks p hp).2).mono fun p hp => h.separate ht hp

/-- With tables `8 * o` bytes behind multiples of `4096`, a copy is right only when the source maps all pages as
it maps the pages `o` entries before. -/
theorem TreeCopy.copies_shifted {o : ℕ} (h : TreeCopy Uses (8 * o) m m' used new d) (hc : Copied cow new m m' 4 d s)
    (hright : CopiesTree cow m m' d s) {a b : BitVec 64} (hab : ShiftedBy o a b) :
    SameEntry (walk m s b) (walk m s a) :=
  (hright.entry b).symm.trans ((hc.walk a).sameEntry h.blocks hab)

end

/-- **When `pml4_copy` is right.**  It returns when the heap has room for its tables.  It is right where there are
no tables to copy.  Where `kcalloc` returns multiples of `4096`, it is right exactly when it copies for copying on
writes, or all pages of the source that are present are writable: else it makes the others writable.  Where
`kcalloc` returns addresses `24` bytes behind a multiple of `4096`, it is right only when the source maps every
page as it maps the page three entries before it in the last two tables. -/
theorem pml4_copy_right_iff {kcalloc : PhysMem → Option (PhysMem × BitVec 64)}
    {Uses : PhysMem → List (BitVec 64) → Prop} {capacity offset : ℕ} (hk : TableHeap kcalloc Uses capacity offset)
    {m : PhysMem} {dest src : BitVec 64} (cow : Bool) {used : List (BitVec 64)} (hu : Uses m used)
    (hd : kernelToPhys dest ∈ used)
    (ht : Tree (fun t => t ∈ used ∧ TablesApart t (kernelToPhys dest)) 4 m (kernelToPhys src))
    (hz : ∀ i : BitVec 64, i.toNat < 512 → m (slot (kernelToPhys dest) i) = 0)
    (hroom : used.length + tablesBelow m 4 (kernelToPhys src) ≤ capacity) :
    ∃ m', pml4Copy kcalloc m dest src cow = some m' ∧
      ((∀ i : BitVec 64, i.toNat < 512 → tableOf (m (slot (kernelToPhys src) i)) = 0) →
        CopiesTree cow m m' (kernelToPhys dest) (kernelToPhys src)) ∧
      (offset = 0 → (CopiesTree cow m m' (kernelToPhys dest) (kernelToPhys src) ↔ cow = true ∨
        ∀ a, AllLevels pml4Present m (kernelToPhys src) a →
          AllLevels (pml4Present ||| pml4Writable) m (kernelToPhys src) a)) ∧
      (offset = 24 → CopiesTree cow m m' (kernelToPhys dest) (kernelToPhys src) → ∀ a b, ShiftedBy 3 a b →
        SameEntry (walk m (kernelToPhys src) b) (walk m (kernelToPhys src) a)) := by
  obtain ⟨m', new, hm, hcopy, -, hc⟩ := @pmlCopy_copied _ _ _ _ cow hk 4 _ _ _ _ hu hd ht hz hroom
  refine ⟨m', hm, hcopy.copies_empty ht hc, ?_, ?_⟩
  · rintro rfl
    exact hcopy.copies_aligned ht hc
  · rintro rfl hright a b hab
    exact hcopy.copies_shifted (o := 3) hc hright hab

/-! ### The blocks of `heap.c` -/

/-- **Tables from the heap**: in every state of the heap, `kcalloc(512, sizeof(size_t))` returns a block that begins
`24` bytes behind a multiple of `4096`, where the header of its arena ends. -/
theorem kcalloc_table_offset {Λ : HeapLayout} {s : HeapState} (h : HeapState.Inv Λ s) {page : ℕ} (junk : ℕ)
    (hf : s.arenas.Fresh page) : ∃ m p, kcalloc Λ page junk s.mem 512 8 = some (m, p) ∧ p % 4096 = 24 := by
  obtain ⟨m, p, i, hk, -, hd, hsz, ⟨σ, count, -, hshape, -⟩, -⟩ :=
    h.kmalloc_block junk hf (by decide : 8 < 4096) (by decide)
  have hle : 4096 ≤ classSize i := by
    have hfound := List.find?_some hd
    rwa [decide_eq_true_iff, hsz] at hfound
  have hclass : ∀ i : Fin 16, 4096 ≤ classSize i → classSize i % 4096 = 0 := by decide
  have hsame : ∀ i k : Fin 16, classSize i = classSize k → i = k := by decide
  obtain ⟨k, ⟨a, j, ha, -, hp⟩, hlen⟩ := hshape.owner ⟨p, classSize i⟩ List.mem_cons_self
  have hal := (hshape.valid a k ha).2.1
  have hmul : j * classSize k % 4096 = 0 := by
    rw [← hsame i k hlen, Nat.mul_mod, hclass i hle, Nat.mul_zero, Nat.zero_mod]
  refine ⟨m, p, hk, ?_⟩
  have hp' : p = a + 24 + j * classSize k := hp
  unfold pageSize at hal
  omega

/-! ### One page -/

/-- A `pml4` at `0x1000` with one `pdp` at `0x2000` and one `pgd` at `0x3000`, which maps the page of `0`. -/
def onePageTree : PhysMem := Function.update (onePdpTree 0x3003) 0x3000 0x200083

def smallBlock (n : ℕ) : BitVec 64 := BitVec.ofNat 64 (0x10018 + 0x1000 * n)

/-- A heap of two blocks, as `heap.c` cuts them from an arena.  The number of blocks in use is at `0x8000`. -/
def smallKcalloc (m : PhysMem) : Option (PhysMem × BitVec 64) :=
  let n := (m 0x8000).toNat
  if n < 2 then
    some (Function.update (fun x => if (smallBlock n).toNat ≤ x.toNat ∧ x.toNat < (smallBlock n).toNat + 4096 then 0
      else m x) 0x8000 (BitVec.ofNat 64 (n + 1)), physToKernelAddr (smallBlock n))
  else none

/-- The blocks handed out, the destination, the tables of the source, and the page at NULL. -/
def smallTables (n : ℕ) : List (BitVec 64) :=
  ((List.range n).map smallBlock).reverse ++ [0x4000, 0x1000, 0x2000, 0x3000, 0]

def SmallUses (m : PhysMem) (used : List (BitVec 64)) : Prop :=
  ∃ n, n ≤ 2 ∧ m 0x8000 = BitVec.ofNat 64 n ∧ used = smallTables n

theorem smallBlock_toNat {n : ℕ} (h : n ≤ 2) : (smallBlock n).toNat = 0x10018 + 0x1000 * n := by
  unfold smallBlock
  rw [BitVec.toNat_ofNat]
  omega

theorem mem_smallTables {q : BitVec 64} {n : ℕ} (hn : n ≤ 2) (hq : q ∈ smallTables n) :
    q.toNat + 4096 ≤ 0x10018 + 0x1000 * n ∧ (q.toNat + 4096 ≤ 0x8000 ∨ 0x8000 < q.toNat) := by
  unfold smallTables at hq
  rcases List.mem_append.mp hq with hq | hq
  · rw [List.mem_reverse, List.mem_map] at hq
    obtain ⟨j, hj, rfl⟩ := hq
    rw [List.mem_range] at hj
    rw [smallBlock_toNat (by omega)]
    omega
  · simp only [List.mem_cons, List.not_mem_nil, or_false] at hq
    rcases hq with rfl | rfl | rfl | rfl | rfl <;> bv_omega

theorem slot_toNat_of_le {p i : BitVec 64} (hp : p.toNat ≤ 0x20000) (hi : i.toNat < 512) :
    (slot p i).toNat = p.toNat + 8 * i.toNat :=
  slot_toNat (by omega)

theorem smallHeap : TableHeap smallKcalloc SmallUses 7 24 where
  alloc := by
    rintro m used ⟨n, hn, hm, rfl⟩ hroom
    have hlt : n < 2 := by
      simp only [smallTables, List.length_append, List.length_reverse, List.length_map, List.length_range,
        List.length_cons, List.length_nil] at hroom
      omega
    have hword : (m 0x8000).toNat = n := by
      rw [hm, BitVec.toNat_ofNat]
      omega
    have hblock := smallBlock_toNat hn
    have hk : smallKcalloc m = some (Function.update (fun x => if (smallBlock n).toNat ≤ x.toNat ∧
        x.toNat < (smallBlock n).toNat + 4096 then 0 else m x) 0x8000 (BitVec.ofNat 64 (n + 1)),
          physToKernelAddr (smallBlock n)) := by
      unfold smallKcalloc
      rw [hword]
      exact if_pos hlt
    have hcount : ∀ {q i : BitVec 64}, q.toNat ≤ 0x20000 → (q.toNat + 4096 ≤ 0x8000 ∨ 0x8000 < q.toNat) →
        i.toNat < 512 → slot q i ≠ 0x8000 := by
      intro q i hq hq' hi he
      have h := slot_toNat_of_le hq hi
      rw [he, show (0x8000 : BitVec 64).toNat = 0x8000 from rfl] at h
      omega
    refine ⟨_, _, hk, ?_, n + 1, hlt, Function.update_self .., ?_⟩
    · rw [kernelToPhys_physToKernelAddr]
      refine ⟨by omega, by omega, fun i hi => ?_, fun q hq i j hi hj he => ?_, fun q hq i hi => ?_⟩
      · have h := slot_toNat_of_le (by omega : (smallBlock n).toNat ≤ 0x20000) hi
        rw [Function.update_of_ne (hcount (by omega) (by omega) hi), h]
        exact if_pos (by omega)
      · have h := (mem_smallTables hn hq).1
        have h₁ := slot_toNat_of_le (by omega : q.toNat ≤ 0x20000) hi
        have h₂ := slot_toNat_of_le (by omega : (smallBlock n).toNat ≤ 0x20000) hj
        rw [he] at h₁
        omega
      · have h := mem_smallTables hn hq
        have h₁ := slot_toNat_of_le (by omega : q.toNat ≤ 0x20000) hi
        rw [Function.update_of_ne (hcount (by omega) h.2 hi), h₁]
        exact if_neg (by omega)
    · rw [kernelToPhys_physToKernelAddr]
      unfold smallTables
      rw [List.range_succ, List.map_append, List.reverse_append]
      rfl
  write := by
    rintro m used p i v ⟨n, hn, hm, rfl⟩ hp hi
    refine ⟨n, hn, ?_, rfl⟩
    rw [Function.update_of_ne, hm]
    have h := mem_smallTables hn hp
    have h₁ := slot_toNat_of_le (by omega : p.toNat ≤ 0x20000) hi
    intro he
    rw [← he, show (0x8000 : BitVec 64).toNat = 0x8000 from rfl] at h₁
    omega

theorem onePageTree_apply (x : BitVec 64) : onePageTree x =
    if x = 0x3000 then 0x200083 else if x = 0x1000 then 0x2003 else if x = 0x2000 then 0x3003 else 0 :=
  Function.update_apply ..

/-- Tables at multiples of `4096` have one entry at most. -/
theorem onePageTree_slot {t i : BitVec 64} (ht : t.toNat ≤ 0x20000) (hal : t.toNat % 4096 = 0) (hi : i.toNat < 512)
    (hne : i ≠ 0) : onePageTree (slot t i) = 0 := by
  have h := slot_toNat_of_le ht hi
  have hpos : i.toNat ≠ 0 := fun h₀ => hne (BitVec.eq_of_toNat_eq h₀)
  have hno : ∀ x : BitVec 64, x.toNat % 4096 = 0 → slot t i ≠ x := by
    rintro x hx rfl
    omega
  rw [onePageTree_apply, if_neg (hno _ (by decide)), if_neg (hno _ (by decide)), if_neg (hno _ (by decide))]

theorem onePageTree_tree :
    Tree (fun t => t ∈ smallTables 0 ∧ TablesApart t 0x4000) 4 onePageTree 0x1000 := by
  refine ⟨⟨by decide, tableOf_apart (e := 0x1000) (f := 0x4000) (by decide)⟩, fun i hi ht => ?_⟩
  obtain rfl : i = 0 := by
    by_contra hne
    rw [onePageTree_slot (by decide) (by decide) hi hne] at ht
    exact ht rfl
  refine ⟨⟨by decide, tableOf_apart (e := 0x2000) (f := 0x4000) (by decide)⟩, fun j hj ht' => ?_⟩
  obtain rfl : j = 0 := by
    by_contra hne
    have hzero : onePageTree (slot (tableOf (onePageTree (slot 0x1000 0))) j) = 0 :=
      onePageTree_slot (t := 0x2000) (by decide) (by decide) hj hne
    rw [hzero] at ht'
    exact ht' rfl
  exact ⟨by decide, tableOf_apart (e := 0x3000) (f := 0x4000) (by decide)⟩

theorem onePageTree_room :
    (smallTables 0).length + tablesBelow onePageTree 4 (kernelToPhys (physToKernelAddr 0x1000)) ≤ 7 := by
  rw [kernelToPhys_physToKernelAddr]
  decide +kernel

theorem onePageTree_zero {i : BitVec 64} (hi : i.toNat < 512) : onePageTree (slot 0x4000 i) = 0 := by
  by_cases hne : i = 0
  · subst hne
    decide
  · exact onePageTree_slot (by decide) (by decide) hi hne

theorem onePageTree_uses : SmallUses onePageTree (smallTables 0) := ⟨0, by decide, by decide, rfl⟩

/-- The page at `0` is found again three entries behind in both tables, and the source has no page there. -/
theorem onePageTree_shift : ShiftedBy 3 0 0xC0600000 ∧ walk onePageTree 0x1000 0 = 0x200083 ∧
    walk onePageTree 0x1000 0xC0600000 = 0 := by
  refine ⟨⟨by decide, by decide, by decide⟩, by decide, by decide⟩

/-- The copy of the tree for writes, from a heap whose blocks begin `24` bytes behind a page, is not right. -/
theorem pml4_copy_right_iff_onePage :
    ∃ m', pml4Copy smallKcalloc onePageTree (physToKernelAddr 0x4000) (physToKernelAddr 0x1000) true = some m' ∧
      ¬ CopiesTree true onePageTree m' 0x4000 0x1000 := by
  obtain ⟨hab, hsrc, hnone⟩ := onePageTree_shift
  obtain ⟨m', hm, -, -, hshift⟩ := @pml4_copy_right_iff _ _ _ _ smallHeap onePageTree (physToKernelAddr 0x4000)
    (physToKernelAddr 0x1000) true _ onePageTree_uses (by decide) onePageTree_tree
    (fun i hi => onePageTree_zero hi) onePageTree_room
  refine ⟨m', hm, fun hright => ?_⟩
  have h := hshift rfl hright 0 0xC0600000 hab
  rw [kernelToPhys_physToKernelAddr, hsrc, hnone] at h
  exact absurd h.1 (by decide)

/-- **One page, copied**: the copy has the page of `0` at `0xC0600000`, where the source has none. -/
theorem pml4_copy_shifts_page :
    ∃ m', pml4Copy smallKcalloc onePageTree (physToKernelAddr 0x4000) (physToKernelAddr 0x1000) true = some m' ∧
      walk onePageTree 0x1000 0 = 0x200083 ∧ walk onePageTree 0x1000 0xC0600000 = 0 ∧
      SameEntry (walk m' 0x4000 0xC0600000) 0x200083 ∧ ¬ CopiesTree true onePageTree m' 0x4000 0x1000 := by
  obtain ⟨hab, hsrc, hnone⟩ := onePageTree_shift
  obtain ⟨m', new, hm, hcopy, -, hc⟩ := @pmlCopy_copied _ _ _ _ true smallHeap 4 (physToKernelAddr 0x4000)
    (physToKernelAddr 0x1000) onePageTree _ onePageTree_uses (by decide) onePageTree_tree
    (fun i hi => onePageTree_zero hi) onePageTree_room
  rw [kernelToPhys_physToKernelAddr, kernelToPhys_physToKernelAddr] at hc
  have hentry := (hc.walk 0).sameEntry (o := 3) hcopy.blocks hab
  rw [hsrc] at hentry
  refine ⟨m', hm, hsrc, hnone, hentry, fun hright => ?_⟩
  have h := hentry.symm.trans (hright.entry 0xC0600000)
  rw [hnone] at h
  exact absurd h.1 (by decide)

end Dunkos
