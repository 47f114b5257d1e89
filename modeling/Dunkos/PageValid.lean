import Dunkos.Paging

/-! # Valid addresses of a process (`page_is_valid` of `spt.c`, `memunit.h`)

`KB`, `MB` and `GB` are products of `int`s, and `GB` is `MB * MB`: it does not fit and is 0.  So `STACKLIMIT` is
`PHYSBASE`, and no address of a process is in its stack (`pageValidStack_eq_false`). -/

namespace Dunkos

/-- `KB`, an `int`. -/
def KB : BitVec 32 := 0x400

def MB : BitVec 32 := KB * KB

/-- The product of two `int`s, kept to 32 bits. -/
def GB : BitVec 32 := MB * MB

/-- `STACKMAX`. -/
def stackMax : BitVec 32 := 1 * GB

/-- `(size_t)PHYSBASE - STACKMAX`. -/
def stackLimit : BitVec 64 := BitVec.ofNat 64 physBase - stackMax.signExtend 64

/-- The fields of the running process that bound its memory, and the stack pointer in its context. -/
structure ProcessImage where
  codeSegmentBegin : BitVec 64
  codeSegmentEnd : BitVec 64
  dataSegmentBegin : BitVec 64
  dataSegmentEnd : BitVec 64
  heapBegin : BitVec 64
  heapEnd : BitVec 64
  sp : BitVec 64

def pageWithinSegment (cur : ProcessImage) (p : BitVec 64) : Bool :=
  (cur.codeSegmentBegin ≤ p && p < cur.codeSegmentEnd) || (cur.dataSegmentBegin ≤ p && p < cur.dataSegmentEnd)

def pageValidStack (cur : ProcessImage) (p : BitVec 64) : Bool := stackLimit ≤ p && p ≥ cur.sp - 8

def pageWithinHeap (cur : ProcessImage) (p : BitVec 64) : Bool := cur.heapBegin ≤ p && p < cur.heapEnd

/-- `userLimit` is the address of `reserved_end`. -/
def pageIsValid (userLimit : BitVec 64) (cur : ProcessImage) (p : BitVec 64) : Bool :=
  userLimit ≤ p && p < BitVec.ofNat 64 physBase &&
    (pageWithinSegment cur p || pageValidStack cur p || pageWithinHeap cur p)

/-! ### What it is for -/

/-- One gibibyte. -/
def gibibyte : ℕ := 1024 * 1024 * 1024

/-- The address is in the code segment, the data segment or the heap. -/
def InImage (cur : ProcessImage) (p : BitVec 64) : Prop :=
  (cur.codeSegmentBegin.toNat ≤ p.toNat ∧ p.toNat < cur.codeSegmentEnd.toNat) ∨
    (cur.dataSegmentBegin.toNat ≤ p.toNat ∧ p.toNat < cur.dataSegmentEnd.toNat) ∨
    (cur.heapBegin.toNat ≤ p.toNat ∧ p.toNat < cur.heapEnd.toNat)

/-- The address is in the gibibyte below `PHYSBASE`, and not more than 8 below the stack pointer. -/
def InStack (cur : ProcessImage) (p : BitVec 64) : Prop :=
  cur.sp.toNat ≤ p.toNat + 8 ∧ physBase - gibibyte ≤ p.toNat ∧ p.toNat < physBase

section
variable {userLimit p : BitVec 64} {cur : ProcessImage}

/-- The gibibyte is lost. -/
theorem stackLimit_eq : stackLimit = BitVec.ofNat 64 physBase := by decide

theorem pageValidStack_eq_false (h : p < BitVec.ofNat 64 physBase) : pageValidStack cur p = false := by
  unfold pageValidStack
  rw [stackLimit_eq]
  simp [BitVec.not_le.mpr h]

/-- What is left are the other ranges. -/
theorem pageIsValid_iff (hlo : userLimit ≤ p) (hhi : p < BitVec.ofNat 64 physBase) :
    pageIsValid userLimit cur p = true ↔ InImage cur p := by
  unfold pageIsValid InImage
  simp [hlo, hhi, pageValidStack_eq_false hhi, pageWithinSegment, pageWithinHeap, BitVec.le_def, BitVec.lt_def, or_assoc]

/-- **`page_is_valid` is right exactly for the addresses that are not in the stack**, and for those that one of the other
ranges covers, too. -/
theorem page_is_valid_iff (userLimit : BitVec 64) (cur : ProcessImage) (p : BitVec 64) (hlo : userLimit ≤ p)
    (hhi : p < BitVec.ofNat 64 physBase) :
    (pageIsValid userLimit cur p = true ↔ InImage cur p ∨ InStack cur p) ↔ ¬ InStack cur p ∨ InImage cur p := by
  rw [pageIsValid_iff hlo hhi]
  constructor
  · intro h
    by_cases hs : InStack cur p
    · exact .inr (h.mpr (.inr hs))
    · exact .inl hs
  · rintro (hs | hi)
    · exact (or_iff_left hs).symm
    · exact iff_of_true hi (.inl hi)

end

/-- A process with one page of each kind, and its stack pointer 64 below `PHYSBASE`. -/
def smallProcess : ProcessImage where
  codeSegmentBegin := 0x1000000
  codeSegmentEnd := 0x1200000
  dataSegmentBegin := 0x1200000
  dataSegmentEnd := 0x1400000
  heapBegin := 0x1400000
  heapEnd := 0x1600000
  sp := 0xFFFF7FFFFFFFFFC0

/-- The first byte of the heap. -/
theorem page_is_valid_iff_heap : pageIsValid 0x800000 smallProcess 0x1400000 = true ↔
    InImage smallProcess 0x1400000 ∨ InStack smallProcess 0x1400000 :=
  (page_is_valid_iff 0x800000 smallProcess 0x1400000 (by decide) (by decide)).mpr (.inr (by unfold InImage; decide))

/-- **The word at the stack pointer** is not valid. -/
theorem page_is_valid_stack : ¬ ∀ (userLimit : BitVec 64) (cur : ProcessImage) (p : BitVec 64), userLimit ≤ p →
    p < BitVec.ofNat 64 physBase → (pageIsValid userLimit cur p = true ↔ InImage cur p ∨ InStack cur p) := by
  intro h
  have hvalid := (h 0x800000 smallProcess 0xFFFF7FFFFFFFFFC0 (by decide) (by decide)).mpr (.inr (by unfold InStack; decide))
  revert hvalid
  decide

end Dunkos
