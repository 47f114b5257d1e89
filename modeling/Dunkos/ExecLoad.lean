import Dunkos.Directory
import Dunkos.Lib.Loop
import Dunkos.Lib.Pack
import Dunkos.Paging

/-! # Loading executables (`process.c`)

`exec_process` goes through the program headers of an ELF64 file, and `load_segment` defers the loading of the pages of each
segment that is to be loaded, as far as the file has bytes for it.  What is behind these in memory is deferred only by
chance, and a page is deferred as read-only where the segment may be *read*.  `exec_loads_iff` says for which files all is
deferred right.  `file_read_at` is taken to read the file, and `kcalloc` to succeed. -/

namespace Dunkos

open Loop Pack

/-- `struct elf_header`, as far as it is used. -/
structure ElfHeader where
  magic : BitVec 32
  progheader : BitVec 64
  phentsize : BitVec 16
  phentcnt : BitVec 16
deriving DecidableEq, Repr

def ElfHeader.read (b : ℕ → Byte) : ElfHeader where
  magic := BitVec.ofNat 32 (leAt b 0 4)
  progheader := BitVec.ofNat 64 (leAt b 32 8)
  phentsize := BitVec.ofNat 16 (leAt b 54 2)
  phentcnt := BitVec.ofNat 16 (leAt b 56 2)

/-- `ELF_MAGIK`. -/
def elfMagik : BitVec 32 := 0x464C457F

/-- `struct program_header`, without `paddr` and `align`. -/
structure ProgramHeader where
  type : BitVec 32
  flags : BitVec 32
  offset : BitVec 64
  vaddr : BitVec 64
  size : BitVec 64
  memsz : BitVec 64
deriving DecidableEq, Repr

/-- The entry at `ofs`. -/
def ProgramHeader.read (b : ℕ → Byte) (ofs : ℕ) : ProgramHeader where
  type := BitVec.ofNat 32 (leAt b ofs 4)
  flags := BitVec.ofNat 32 (leAt b (ofs + 4) 4)
  offset := BitVec.ofNat 64 (leAt b (ofs + 8) 8)
  vaddr := BitVec.ofNat 64 (leAt b (ofs + 16) 8)
  size := BitVec.ofNat 64 (leAt b (ofs + 32) 8)
  memsz := BitVec.ofNat 64 (leAt b (ofs + 40) 8)

def fileinfoModeW : BitVec 32 := 0b010

def fileinfoModeR : BitVec 32 := 0b100

/-- A call of `page_defer_load`. -/
structure Deferral where
  page : BitVec 64
  ofs : BitVec 64
  readonly : Bool
deriving DecidableEq, Repr

/-- The variables of `load_segment`, and the calls so far. -/
structure LoadState where
  page : BitVec 64
  ofs : BitVec 64
  size : BitVec 64
  calls : List Deferral

/-- `size > 0`. -/
def LoadState.more (s : LoadState) : Bool := decide (0 < s.size.toInt)

/-- A round of the loop of `load_segment`. -/
def loadRound (readonly : Bool) (s : LoadState) : LoadState where
  page := s.page + BitVec.ofNat 64 pageSize
  ofs := s.ofs + BitVec.ofNat 64 pageSize
  size := s.size - BitVec.ofNat 64 pageSize
  calls := s.calls ++ [⟨s.page, s.ofs, readonly⟩]

/-- `load_segment`, to the calls that it makes; `none` when `fuel` rounds are not enough. -/
def loadSegment (fuel : ℕ) (start ofs size : BitVec 64) (readonly : Bool) : Option (List Deferral) :=
  (runWhile LoadState.more (fun s => some (loadRound readonly s)) fuel ⟨start, ofs, size, []⟩).map LoadState.calls

/-- The table that is read, in memory that was zero.  The product of the two halves is an `int`. -/
def programTable (file : ℕ → Byte) (header : ElfHeader) : ℕ → Byte := fun j =>
  if j < ((header.phentcnt.setWidth 32 * header.phentsize.setWidth 32).signExtend 64).toNat then
    file (header.progheader.toNat + j)
  else 0

/-- A round of the loop of `exec_process`, with the header that each call is made for. -/
def execRound (fuel : ℕ) (phte : ProgramHeader) : Option (List (ProgramHeader × Deferral)) :=
  if phte.type = 0x1 then
    (loadSegment fuel phte.vaddr phte.offset phte.size (phte.flags &&& fileinfoModeR != 0)).map (List.map (phte, ·))
  else some []

/-- `exec_process`, to the calls of `page_defer_load`; `none` also where its assertion fails. -/
def execProcess (fuel : ℕ) (file : ℕ → Byte) : Option (List (ProgramHeader × Deferral)) :=
  let header := ElfHeader.read file
  if header.magic = elfMagik then
    if header.phentcnt.toNat > 0 then
      let pht := programTable file header
      ((List.range header.phentcnt.toNat).mapM fun i => execRound fuel (ProgramHeader.read pht (56 * i))).map List.flatten
    else some []
  else none

/-! ### What it is for -/

/-- An ELF64 executable: entries have the size of ELF64, and what a loadable segment has in the file is in the file and fits
into what it has in memory. -/
structure ElfFile where
  bytes : ℕ → Byte
  length : ℕ
  length_lt : length < 2 ^ 63
  magic : (ElfHeader.read bytes).magic = elfMagik
  phentsize : (ElfHeader.read bytes).phentsize = 56
  segment : ∀ i < (ElfHeader.read bytes).phentcnt.toNat,
    (ProgramHeader.read bytes ((ElfHeader.read bytes).progheader.toNat + 56 * i)).type = 0x1 →
      (ProgramHeader.read bytes ((ElfHeader.read bytes).progheader.toNat + 56 * i)).offset.toNat +
          (ProgramHeader.read bytes ((ElfHeader.read bytes).progheader.toNat + 56 * i)).size.toNat ≤ length ∧
        (ProgramHeader.read bytes ((ElfHeader.read bytes).progheader.toNat + 56 * i)).size.toNat ≤
          (ProgramHeader.read bytes ((ElfHeader.read bytes).progheader.toNat + 56 * i)).memsz.toNat

namespace ElfFile
variable (f : ElfFile)

/-- The program headers. -/
def headers : List ProgramHeader := (List.range (ElfHeader.read f.bytes).phentcnt.toNat).map fun i =>
  ProgramHeader.read f.bytes ((ElfHeader.read f.bytes).progheader.toNat + 56 * i)

/-- Those of segments to be loaded. -/
def loadable : List ProgramHeader := f.headers.filter fun h => h.type = 0x1

end ElfFile

/-- `page_defer_load` has no body.  A page begins at the address that it is given, or at the multiple of `PAGESIZE` before. -/
inductive PageReading where
  | exact
  | aligned
deriving DecidableEq, Repr

/-- Where the page of an address begins. -/
def PageReading.base : PageReading → BitVec 64 → BitVec 64
  | exact, a => a
  | aligned, a => BitVec.ofNat 64 (a.toNat / pageSize * pageSize)

namespace Deferral

/-- The address is in the page. -/
def Covers (r : PageReading) (d : Deferral) (a : BitVec 64) : Prop := (a - r.base d.page).toNat < pageSize

/-- Where in the file its byte is. -/
def offsetOf (r : PageReading) (d : Deferral) (a : BitVec 64) : BitVec 64 := d.ofs + (a - r.base d.page)

end Deferral

/-- The calls cover the segments with the right bytes of the file, and nothing else, and make no page read-only that is
written to, nor any other one writable. -/
structure LoadsRight (r : PageReading) (f : ElfFile) (calls : List (ProgramHeader × Deferral)) : Prop where
  covered : ∀ h ∈ f.loadable, ∀ k < h.memsz.toNat, ∃ c ∈ calls, c.2.Covers r (h.vaddr + BitVec.ofNat 64 k) ∧
    (k < h.size.toNat → c.2.offsetOf r (h.vaddr + BitVec.ofNat 64 k) = h.offset + BitVec.ofNat 64 k)
  inside : ∀ c ∈ calls, ∃ h ∈ f.loadable, ∃ k < h.memsz.toNat, c.2.Covers r (h.vaddr + BitVec.ofNat 64 k)
  readonly : ∀ c ∈ calls, c.2.readonly = true ↔ c.1.flags &&& fileinfoModeW = 0

namespace ProgramHeader

/-- The pages that the bytes of the file make. -/
@[irreducible] def pages (h : ProgramHeader) : ℕ := (h.size.toNat + (pageSize - 1)) / pageSize

/-- The address is in one of them. -/
def Loads (r : PageReading) (h : ProgramHeader) (a : BitVec 64) : Prop :=
  (a - r.base h.vaddr).toNat < h.pages * pageSize

end ProgramHeader

/-- A segment with bytes in the file is readable or writable, and not both; and all its bytes are in the pages of the file's
bytes of some loadable segment, at the same distance from its file offset where they are in the file. -/
structure ElfFile.Plain (r : PageReading) (f : ElfFile) : Prop where
  flags : ∀ h ∈ f.loadable, h.size ≠ 0 → (h.flags &&& fileinfoModeR ≠ 0 ↔ h.flags &&& fileinfoModeW = 0)
  placed : ∀ h ∈ f.loadable, ∀ k < h.memsz.toNat, ∃ h' ∈ f.loadable, h'.Loads r (h.vaddr + BitVec.ofNat 64 k) ∧
    (k < h.size.toNat → h'.offset + (h.vaddr + BitVec.ofNat 64 k - r.base h'.vaddr) = h.offset + BitVec.ofNat 64 k)

/-! ### The loops -/

/-- The calls for `n` pages. -/
def pageCalls (start ofs : BitVec 64) (readonly : Bool) (n : ℕ) : List Deferral :=
  (List.range n).map fun i =>
    ⟨start + BitVec.ofNat 64 (i * pageSize), ofs + BitVec.ofNat 64 (i * pageSize), readonly⟩

theorem pageCalls_succ (start ofs : BitVec 64) (readonly : Bool) (n : ℕ) : pageCalls start ofs readonly (n + 1) =
    ⟨start, ofs, readonly⟩ ::
      pageCalls (start + BitVec.ofNat 64 pageSize) (ofs + BitVec.ofNat 64 pageSize) readonly n := by
  have hnext : ∀ (x : BitVec 64) i, x + BitVec.ofNat 64 pageSize + BitVec.ofNat 64 (i * pageSize) =
      x + BitVec.ofNat 64 ((i + 1) * pageSize) := by
    intro x i
    rw [BitVec.add_assoc, ← BitVec.ofNat_add, Nat.add_one_mul, Nat.add_comm pageSize]
  simp only [pageCalls, List.range_succ_eq_map, List.map_cons, List.map_map, Nat.zero_mul,
    BitVec.add_zero, hnext]
  rfl

/-- **The loop of `load_segment`**, by induction on the pages that are left. -/
theorem loadLoop_eq {readonly : Bool} {n fuel : ℕ} {s : LoadState} (hn : n ≤ fuel) (hle : s.size.toInt ≤ n * pageSize)
    (hlt : n ≠ 0 → ((n : ℤ) - 1) * pageSize < s.size.toInt) :
    (runWhile LoadState.more (fun s => some (loadRound readonly s)) fuel s).map LoadState.calls =
      some (s.calls ++ pageCalls s.page s.ofs readonly n) := by
  induction n generalizing s fuel with
  | zero =>
      have hstop : s.more = false := by
        rw [LoadState.more, decide_eq_false_iff_not]
        omega
      rw [runWhile_of_stop hstop]
      simp [pageCalls]
  | succ n ih =>
      obtain ⟨fuel, rfl⟩ : ∃ m, fuel = m + 1 := ⟨fuel - 1, by omega⟩
      have hlt := hlt n.succ_ne_zero
      have hpage : (BitVec.ofNat 64 pageSize).toInt = pageSize := rfl
      unfold pageSize at hle hlt hpage
      have hgo : s.more = true := decide_eq_true (by omega)
      have hsize : (loadRound readonly s).size.toInt = s.size.toInt - pageSize := by
        have hbound := s.size.toInt_lt
        show (s.size - BitVec.ofNat 64 pageSize).toInt = _
        unfold pageSize
        rw [BitVec.toInt_sub, hpage]
        exact Int.bmod_eq_of_le (by omega) (by omega)
      unfold pageSize at hsize
      have hround : runWhile LoadState.more (fun s => some (loadRound readonly s)) (fuel + 1) s =
          runWhile LoadState.more (fun s => some (loadRound readonly s)) fuel (loadRound readonly s) := by
        rw [runWhile, if_pos hgo, Option.bind_some]
      rw [hround, ih (by omega) (by unfold pageSize; omega) (by unfold pageSize; omega), pageCalls_succ, loadRound,
        List.append_assoc]
      rfl

theorem loadSegment_eq {h : ProgramHeader} {readonly : Bool} {fuel : ℕ} (hsize : h.size.toNat < 2 ^ 63)
    (hfuel : 2 ^ 42 ≤ fuel) :
    loadSegment fuel h.vaddr h.offset h.size readonly = some (pageCalls h.vaddr h.offset readonly h.pages) := by
  have hint : h.size.toInt = h.size.toNat := BitVec.toInt_eq_toNat_of_lt (by omega)
  have hn : h.pages ≤ fuel := by
    unfold ProgramHeader.pages pageSize
    omega
  have hle : h.size.toInt ≤ h.pages * pageSize := by
    unfold ProgramHeader.pages pageSize
    omega
  have hlt : h.pages ≠ 0 → ((h.pages : ℤ) - 1) * pageSize < h.size.toInt := by
    unfold ProgramHeader.pages pageSize
    omega
  unfold loadSegment
  rw [loadLoop_eq (s := ⟨h.vaddr, h.offset, h.size, []⟩) hn hle hlt, List.nil_append]

/-- The calls that are made for a header. -/
def ProgramHeader.calls (h : ProgramHeader) : List (ProgramHeader × Deferral) :=
  (pageCalls h.vaddr h.offset (h.flags &&& fileinfoModeR != 0) h.pages).map (h, ·)

def roundCalls (h : ProgramHeader) : List (ProgramHeader × Deferral) := if h.type = 0x1 then h.calls else []

theorem flatMap_ite {A B : Type} (p : A → Prop) [DecidablePred p] (g : A → List B) (as : List A) :
    (as.flatMap fun a => if p a then g a else []) = (as.filter fun a => p a).flatMap g := by
  induction as with
  | nil => rfl
  | cons a as ih =>
      rw [List.flatMap_cons, List.filter_cons, ih]
      by_cases ha : p a
      · rw [if_pos ha, if_pos (decide_eq_true ha), List.flatMap_cons]
      · rw [if_neg ha, if_neg (by simpa using ha), List.nil_append]

theorem leAt_congr {b b' : ℕ → Byte} {ofs ofs' n : ℕ} (h : ∀ j < n, b (ofs + j) = b' (ofs' + j)) :
    leAt b ofs n = leAt b' ofs' n := by
  induction n generalizing ofs ofs' with
  | zero => rfl
  | succ n ih =>
      have hfirst : b ofs = b' ofs' := h 0 n.succ_pos
      have hrest : leAt b (ofs + 1) n = leAt b' (ofs' + 1) n := ih fun j hj => by
        rw [Nat.add_assoc, Nat.add_assoc, Nat.add_comm 1 j]
        exact h (j + 1) (by omega)
      rw [leAt, leAt, hfirst, hrest]

/-- The bytes of a table whose entries have the size of ELF64. -/
theorem entries_toNat (cnt : BitVec 16) : ((cnt.setWidth 32 * (56#16).setWidth 32).signExtend 64).toNat = 56 * cnt.toNat := by
  have hlt := cnt.isLt
  have hentry : (56#16).setWidth 32 = 56#32 := rfl
  have hnat : (cnt.setWidth 32 * 56#32).toNat = 56 * cnt.toNat := by
    rw [BitVec.toNat_mul, BitVec.toNat_setWidth, BitVec.toNat_ofNat, Nat.mod_eq_of_lt (Nat.lt_trans hlt (by decide)),
      Nat.mod_eq_of_lt (by omega)]
    omega
  have hmsb : (cnt.setWidth 32 * 56#32).msb = false := by
    rw [BitVec.msb_eq_false_iff_two_mul_lt, hnat]
    omega
  rw [hentry, BitVec.signExtend_eq_setWidth_of_msb_false hmsb, BitVec.toNat_setWidth, hnat]
  omega

namespace ElfFile
variable {f : ElfFile} {h : ProgramHeader}

theorem mem_loadable : h ∈ f.loadable ↔ (∃ i < (ElfHeader.read f.bytes).phentcnt.toNat,
    ProgramHeader.read f.bytes ((ElfHeader.read f.bytes).progheader.toNat + 56 * i) = h) ∧ h.type = 0x1 := by
  unfold loadable headers
  rw [List.mem_filter, List.mem_map, decide_eq_true_iff]
  simp only [List.mem_range]

/-- A loadable segment is no longer in the file than in memory, and its length is an `off_t`. -/
theorem size_le (hh : h ∈ f.loadable) : h.size.toNat < 2 ^ 63 ∧ h.size.toNat ≤ h.memsz.toNat := by
  obtain ⟨⟨i, hi, rfl⟩, htype⟩ := mem_loadable.mp hh
  obtain ⟨hend, hle⟩ := f.segment i hi htype
  have hlength := f.length_lt
  exact ⟨by omega, hle⟩

/-- The entries of the table that is read are those of the file. -/
theorem read_programTable {i : ℕ} (hi : i < (ElfHeader.read f.bytes).phentcnt.toNat) :
    ProgramHeader.read (programTable f.bytes (ElfHeader.read f.bytes)) (56 * i) =
      ProgramHeader.read f.bytes ((ElfHeader.read f.bytes).progheader.toNat + 56 * i) := by
  have hcount : (((ElfHeader.read f.bytes).phentcnt.setWidth 32 * (ElfHeader.read f.bytes).phentsize.setWidth 32).signExtend
      64).toNat = 56 * (ElfHeader.read f.bytes).phentcnt.toNat := by
    rw [f.phentsize]
    exact entries_toNat _
  have hbyte : ∀ j < 56, programTable f.bytes (ElfHeader.read f.bytes) (56 * i + j) =
      f.bytes ((ElfHeader.read f.bytes).progheader.toNat + 56 * i + j) := by
    intro j hj
    unfold programTable
    rw [hcount, if_pos (by omega), Nat.add_assoc]
  have hfield : ∀ ofs n, ofs + n ≤ 56 → leAt (programTable f.bytes (ElfHeader.read f.bytes)) (56 * i + ofs) n =
      leAt f.bytes ((ElfHeader.read f.bytes).progheader.toNat + 56 * i + ofs) n := by
    intro ofs n hn
    refine leAt_congr fun j hj => ?_
    rw [Nat.add_assoc, hbyte _ (by omega), Nat.add_assoc (_ + _)]
  have hfirst := hfield 0 4 (by decide)
  rw [Nat.add_zero, Nat.add_zero] at hfirst
  unfold ProgramHeader.read
  rw [hfirst, hfield 4 4 (by decide), hfield 8 8 (by decide), hfield 16 8 (by decide), hfield 32 8 (by decide),
    hfield 40 8 (by decide)]

theorem execRound_eq {fuel : ℕ} (hfuel : 2 ^ 42 ≤ fuel) (hh : h ∈ f.headers) :
    execRound fuel h = some (roundCalls h) := by
  unfold execRound roundCalls
  split_ifs with htype
  · have hload : h ∈ f.loadable := List.mem_filter.mpr ⟨hh, decide_eq_true htype⟩
    rw [loadSegment_eq (size_le hload).1 hfuel, Option.map_some, ProgramHeader.calls]
  · rfl

/-- **The calls** that are made for a file. -/
theorem execProcess_eq {fuel : ℕ} (hfuel : 2 ^ 42 ≤ fuel) :
    execProcess fuel f.bytes = some (f.loadable.flatMap ProgramHeader.calls) := by
  have hrounds : ∀ i ∈ List.range (ElfHeader.read f.bytes).phentcnt.toNat,
      execRound fuel (ProgramHeader.read (programTable f.bytes (ElfHeader.read f.bytes)) (56 * i)) =
        some (roundCalls (ProgramHeader.read f.bytes ((ElfHeader.read f.bytes).progheader.toNat + 56 * i))) := by
    intro i hi
    rw [read_programTable (List.mem_range.mp hi)]
    exact execRound_eq hfuel (List.mem_map_of_mem hi)
  have hloop : ((List.range (ElfHeader.read f.bytes).phentcnt.toNat).mapM fun i =>
      execRound fuel (ProgramHeader.read (programTable f.bytes (ElfHeader.read f.bytes)) (56 * i))).map List.flatten =
        some (f.headers.flatMap roundCalls) := by
    rw [mapM_eq_some hrounds, Option.map_some, List.flatMap, headers, List.map_map]
    rfl
  have hload : f.headers.flatMap roundCalls = f.loadable.flatMap ProgramHeader.calls := flatMap_ite _ _ _
  unfold execProcess
  rw [if_pos f.magic, hloop, hload]
  split_ifs with hcnt
  · rfl
  · have hnone : f.headers = [] := by
      rw [headers, List.map_eq_nil_iff, List.range_eq_nil]
      omega
    rw [loadable, hnone]
    rfl

end ElfFile

/-! ### Pages -/

theorem pageSize_eq : pageSize = 2097152 := rfl

theorem PageReading.base_add (r : PageReading) (x : BitVec 64) (i : ℕ) :
    r.base (x + BitVec.ofNat 64 (i * pageSize)) = r.base x + BitVec.ofNat 64 (i * pageSize) := by
  cases r with
  | exact => rfl
  | aligned =>
      apply BitVec.eq_of_toNat_eq
      unfold PageReading.base
      dsimp only
      rw [pageSize_eq, BitVec.toNat_add, BitVec.toNat_ofNat, BitVec.toNat_add, BitVec.toNat_ofNat, BitVec.toNat_ofNat]
      omega

/-- An address is in a page that begins there. -/
theorem PageReading.sub_base_lt (r : PageReading) (a : BitVec 64) : (a - r.base a).toNat < pageSize := by
  have hlt := a.isLt
  cases r with
  | exact =>
      rw [PageReading.base, BitVec.sub_self]
      unfold pageSize
      decide
  | aligned =>
      rw [PageReading.base, BitVec.toNat_sub, BitVec.toNat_ofNat]
      unfold pageSize
      omega

/-- Some of `n` pages, one behind the other. -/
theorem exists_page_iff {n : ℕ} (hn : n * pageSize ≤ 2 ^ 64) (x : BitVec 64) :
    (∃ i < n, (x - BitVec.ofNat 64 (i * pageSize)).toNat < pageSize) ↔ x.toNat < n * pageSize := by
  have hx := x.isLt
  unfold pageSize at *
  constructor
  · rintro ⟨i, hi, hlt⟩
    rw [BitVec.toNat_sub, BitVec.toNat_ofNat] at hlt
    omega
  · intro hlt
    refine ⟨x.toNat / 2097152, by omega, ?_⟩
    rw [BitVec.toNat_sub, BitVec.toNat_ofNat]
    omega

section
variable {r : PageReading} {h : ProgramHeader} {a : BitVec 64} {readonly : Bool} {f : ElfFile}

/-- The `i`-th page of a segment. -/
theorem covers_page (i : ℕ) : Deferral.Covers r ⟨h.vaddr + BitVec.ofNat 64 (i * pageSize),
    h.offset + BitVec.ofNat 64 (i * pageSize), readonly⟩ a ↔
      (a - r.base h.vaddr - BitVec.ofNat 64 (i * pageSize)).toNat < pageSize := by
  have hsub : ∀ b c : BitVec 64, a - (b + c) = a - b - c := by
    intro b c
    bv_omega
  rw [Deferral.Covers, r.base_add, hsub]

/-- All pages of a segment have the same distance from the file. -/
theorem offsetOf_page (i : ℕ) : Deferral.offsetOf r ⟨h.vaddr + BitVec.ofNat 64 (i * pageSize),
    h.offset + BitVec.ofNat 64 (i * pageSize), readonly⟩ a = h.offset + (a - r.base h.vaddr) := by
  rw [Deferral.offsetOf, r.base_add]
  generalize BitVec.ofNat 64 (i * pageSize) = c
  bv_omega

theorem mem_calls {c : ProgramHeader × Deferral} : c ∈ f.loadable.flatMap ProgramHeader.calls ↔
    ∃ h ∈ f.loadable, ∃ i < h.pages, c = (h, ⟨h.vaddr + BitVec.ofNat 64 (i * pageSize),
      h.offset + BitVec.ofNat 64 (i * pageSize), h.flags &&& fileinfoModeR != 0⟩) := by
  simp only [List.mem_flatMap, ProgramHeader.calls, pageCalls, List.mem_map, List.mem_range, exists_exists_and_eq_and,
    eq_comm (a := c)]

theorem pages_mul_le (hh : h ∈ f.loadable) : h.pages * pageSize ≤ 2 ^ 64 := by
  have hlt := (ElfFile.size_le hh).1
  unfold ProgramHeader.pages pageSize
  omega

/-- **What is covered**: the pages of a segment, from its address on. -/
theorem covered_iff {ofs : BitVec 64} {P : Prop} : (∃ c ∈ f.loadable.flatMap ProgramHeader.calls, c.2.Covers r a ∧
    (P → c.2.offsetOf r a = ofs)) ↔
      ∃ h ∈ f.loadable, h.Loads r a ∧ (P → h.offset + (a - r.base h.vaddr) = ofs) := by
  constructor
  · rintro ⟨c, hc, hcovers, hofs⟩
    obtain ⟨h, hh, i, hi, rfl⟩ := mem_calls.mp hc
    rw [offsetOf_page] at hofs
    exact ⟨h, hh, (exists_page_iff (pages_mul_le hh) _).mp ⟨i, hi, (covers_page i).mp hcovers⟩, hofs⟩
  · rintro ⟨h, hh, hloads, hofs⟩
    obtain ⟨i, hi, hlt⟩ := (exists_page_iff (pages_mul_le hh) _).mpr hloads
    refine ⟨_, mem_calls.mpr ⟨h, hh, i, hi, rfl⟩, (covers_page i).mpr hlt, ?_⟩
    rw [offsetOf_page]
    exact hofs

/-- Every page has a byte of the segment that it is deferred for. -/
theorem calls_inside {c : ProgramHeader × Deferral} (hc : c ∈ f.loadable.flatMap ProgramHeader.calls) :
    ∃ h ∈ f.loadable, ∃ k < h.memsz.toNat, c.2.Covers r (h.vaddr + BitVec.ofNat 64 k) := by
  obtain ⟨h, hh, i, hi, rfl⟩ := mem_calls.mp hc
  have hle := (ElfFile.size_le hh).2
  refine ⟨h, hh, i * pageSize, ?_, r.sub_base_lt _⟩
  unfold ProgramHeader.pages at hi
  rw [pageSize_eq] at hi ⊢
  omega

theorem calls_readonly_iff : (∀ c ∈ f.loadable.flatMap ProgramHeader.calls,
    c.2.readonly = true ↔ c.1.flags &&& fileinfoModeW = 0) ↔
      ∀ h ∈ f.loadable, h.size ≠ 0 → (h.flags &&& fileinfoModeR ≠ 0 ↔ h.flags &&& fileinfoModeW = 0) := by
  have hpages : ∀ h : ProgramHeader, h.size ≠ 0 ↔ 0 < h.pages := by
    intro h
    have hzero : h.size = 0 ↔ h.size.toNat = 0 := ⟨congrArg BitVec.toNat, fun h => BitVec.eq_of_toNat_eq h⟩
    unfold ProgramHeader.pages
    rw [pageSize_eq, ne_eq, hzero]
    omega
  constructor
  · intro hall h hh hsize
    have hc := hall _ (mem_calls.mpr ⟨h, hh, 0, (hpages h).mp hsize, rfl⟩)
    rw [bne_iff_ne] at hc
    exact hc
  · intro hall c hc
    obtain ⟨h, hh, i, hi, rfl⟩ := mem_calls.mp hc
    have hflags := hall h hh ((hpages h).mpr (by omega))
    rw [bne_iff_ne]
    exact hflags

end

/-- **Loading executables.**  For every ELF64 file the loops end; and all is deferred right, whichever way the pages are
read, exactly when the segments with bytes in the file are readable or writable, not both, and all bytes of a segment are in
the pages of bytes of the file, at their distance. -/
theorem exec_loads_iff (f : ElfFile) {fuel : ℕ} (hfuel : 2 ^ 42 ≤ fuel) : ∃ calls, execProcess fuel f.bytes = some calls ∧
    ∀ r, LoadsRight r f calls ↔ f.Plain r := by
  refine ⟨_, f.execProcess_eq hfuel, fun r => ⟨fun h => ?_, fun h => ?_⟩⟩
  · exact ⟨calls_readonly_iff.mp h.readonly, fun g hg k hk => covered_iff.mp (h.covered g hg k hk)⟩
  · exact ⟨fun g hg k hk => covered_iff.mpr (h.placed g hg k hk), fun c hc => calls_inside hc,
      calls_readonly_iff.mpr h.flags⟩

/-- With pages that begin where the segments do, the bytes of the file are always in place, and only those of the memory
behind their last page have to be in the pages of another segment. -/
theorem plain_exact_iff (f : ElfFile) : f.Plain .exact ↔
    (∀ h ∈ f.loadable, h.size ≠ 0 → (h.flags &&& fileinfoModeR ≠ 0 ↔ h.flags &&& fileinfoModeW = 0)) ∧
      ∀ h ∈ f.loadable, ∀ k < h.memsz.toNat, h.pages * pageSize ≤ k →
        ∃ h' ∈ f.loadable, h'.Loads .exact (h.vaddr + BitVec.ofNat 64 k) := by
  have hfile : ∀ h : ProgramHeader, h.size.toNat ≤ h.pages * pageSize := by
    intro h
    unfold ProgramHeader.pages
    rw [pageSize_eq]
    omega
  have hself : ∀ (h : ProgramHeader) k, h.vaddr + BitVec.ofNat 64 k - PageReading.exact.base h.vaddr = BitVec.ofNat 64 k := by
    intro h k
    rw [PageReading.base, BitVec.add_comm, BitVec.add_sub_cancel]
  constructor
  · intro hp
    refine ⟨hp.flags, fun h hh k hk _ => ?_⟩
    obtain ⟨h', hh', hloads, -⟩ := hp.placed h hh k hk
    exact ⟨h', hh', hloads⟩
  · rintro ⟨hflags, hrest⟩
    refine ⟨hflags, fun h hh k hk => ?_⟩
    by_cases hpages : h.pages * pageSize ≤ k
    · obtain ⟨h', hh', hloads⟩ := hrest h hh k hk hpages
      exact ⟨h', hh', hloads, fun hlt => absurd hlt (Nat.not_lt.mpr (Nat.le_trans (hfile h) hpages))⟩
    · refine ⟨h, hh, ?_, fun _ => ?_⟩
      · rw [ProgramHeader.Loads, hself, BitVec.toNat_ofNat]
        exact Nat.lt_of_le_of_lt (Nat.mod_le _ _) (Nat.not_le.mp hpages)
      · rw [hself]

/-! ### A file with one segment -/

/-- A header, and a program header for all of the file. -/
def segmentBytes (writable : Bool) : ℕ → Byte := fun j =>
  ([0x7F, 0x45, 0x4C, 0x46, 2, 1, 1] ++ List.replicate 25 0 ++ [0x40] ++ List.replicate 21 0 ++ [56, 0, 1] ++
    List.replicate 7 0 ++ [1, 0, 0, 0, if writable then 6 else 5] ++ List.replicate 14 0 ++ [0x40] ++ List.replicate 12 0 ++
    [120] ++ List.replicate 7 0 ++ [120]).getD j 0

/-- The segment is at `0x40000000`. -/
def segmentHeader (writable : Bool) : ProgramHeader where
  type := 1
  flags := if writable then 6 else 5
  offset := 0
  vaddr := 0x40000000
  size := 120
  memsz := 120

theorem segmentBytes_header (writable : Bool) : ElfHeader.read (segmentBytes writable) = ⟨elfMagik, 64, 56, 1⟩ := by
  cases writable <;> decide

theorem segmentBytes_entry (writable : Bool) : ProgramHeader.read (segmentBytes writable) 64 = segmentHeader writable := by
  cases writable <;> decide

theorem segmentFile_magic (writable : Bool) : (ElfHeader.read (segmentBytes writable)).magic = elfMagik := by
  rw [segmentBytes_header]

theorem segmentFile_phentsize (writable : Bool) : (ElfHeader.read (segmentBytes writable)).phentsize = 56 := by
  rw [segmentBytes_header]

theorem segmentBytes_entries (writable : Bool) {i : ℕ} (hi : i < (ElfHeader.read (segmentBytes writable)).phentcnt.toNat) :
    ProgramHeader.read (segmentBytes writable) ((ElfHeader.read (segmentBytes writable)).progheader.toNat + 56 * i) =
      segmentHeader writable := by
  rw [segmentBytes_header] at hi ⊢
  obtain rfl : i = 0 := Nat.lt_one_iff.mp hi
  exact segmentBytes_entry writable

theorem segmentFile_segment (writable : Bool) : ∀ i < (ElfHeader.read (segmentBytes writable)).phentcnt.toNat,
    (ProgramHeader.read (segmentBytes writable)
      ((ElfHeader.read (segmentBytes writable)).progheader.toNat + 56 * i)).type = 0x1 →
      (ProgramHeader.read (segmentBytes writable)
            ((ElfHeader.read (segmentBytes writable)).progheader.toNat + 56 * i)).offset.toNat +
          (ProgramHeader.read (segmentBytes writable)
            ((ElfHeader.read (segmentBytes writable)).progheader.toNat + 56 * i)).size.toNat ≤ 120 ∧
        (ProgramHeader.read (segmentBytes writable)
            ((ElfHeader.read (segmentBytes writable)).progheader.toNat + 56 * i)).size.toNat ≤
          (ProgramHeader.read (segmentBytes writable)
            ((ElfHeader.read (segmentBytes writable)).progheader.toNat + 56 * i)).memsz.toNat := by
  intro i hi _
  rw [segmentBytes_entries writable hi]
  exact ⟨le_refl 120, le_refl 120⟩

theorem segmentFile_length_lt : 120 < 2 ^ 63 := by decide

/-- The file, of 120 bytes. -/
def segmentFile (writable : Bool) : ElfFile where
  bytes := segmentBytes writable
  length := 120
  length_lt := segmentFile_length_lt
  magic := segmentFile_magic writable
  phentsize := segmentFile_phentsize writable
  segment := segmentFile_segment writable

theorem mem_loadable_segmentFile {writable : Bool} {h : ProgramHeader} :
    h ∈ (segmentFile writable).loadable ↔ h = segmentHeader writable := by
  have hcount : (ElfHeader.read (segmentFile writable).bytes).phentcnt.toNat = 1 := by
    rw [segmentFile, segmentBytes_header]
    rfl
  rw [ElfFile.mem_loadable]
  constructor
  · rintro ⟨⟨i, hi, rfl⟩, -⟩
    exact segmentBytes_entries writable hi
  · rintro rfl
    refine ⟨⟨0, ?_, segmentBytes_entries writable ?_⟩, rfl⟩
    · rw [hcount]
      exact Nat.one_pos
    · exact hcount ▸ Nat.one_pos

/-- **A segment that may be read and written** is deferred as read-only. -/
theorem exec_loads_data : ∃ calls, execProcess (2 ^ 42) (segmentFile true).bytes = some calls ∧
    ∀ r, ¬ LoadsRight r (segmentFile true) calls := by
  refine ⟨_, ElfFile.execProcess_eq le_rfl, fun r h => ?_⟩
  have hflags := calls_readonly_iff.mp h.readonly _ (mem_loadable_segmentFile.mpr rfl) (by decide)
  exact absurd hflags (by decide)

/-- The segment begins with a page, whichever way the pages are read. -/
theorem segmentHeader_base (r : PageReading) (writable : Bool) :
    r.base (segmentHeader writable).vaddr = (segmentHeader writable).vaddr := by
  cases r <;> simp [PageReading.base, segmentHeader, pageSize_eq]

theorem segmentHeader_pages (writable : Bool) : (segmentHeader writable).pages = 1 := by
  simp [ProgramHeader.pages, segmentHeader, pageSize_eq]

theorem segmentFile_plain (r : PageReading) : (segmentFile false).Plain r := by
  have hself : ∀ k, (segmentHeader false).vaddr + BitVec.ofNat 64 k - r.base (segmentHeader false).vaddr =
      BitVec.ofNat 64 k := by
    intro k
    rw [segmentHeader_base, BitVec.add_comm, BitVec.add_sub_cancel]
  refine ⟨fun h hh _ => ?_, fun h hh k hk => ⟨h, hh, ?_, fun _ => ?_⟩⟩
  · rw [mem_loadable_segmentFile.mp hh]
    decide
  · obtain rfl := mem_loadable_segmentFile.mp hh
    have hmem : (segmentHeader false).memsz.toNat = 120 := rfl
    rw [ProgramHeader.Loads, hself, segmentHeader_pages, pageSize_eq, BitVec.toNat_ofNat]
    omega
  · obtain rfl := mem_loadable_segmentFile.mp hh
    rw [hself]

/-- One that may only be read is deferred right. -/
theorem exec_loads_text : ∃ calls, execProcess (2 ^ 42) (segmentFile false).bytes = some calls ∧
    ∀ r, LoadsRight r (segmentFile false) calls := by
  obtain ⟨calls, hcalls, hright⟩ := exec_loads_iff (segmentFile false) (le_refl (2 ^ 42))
  exact ⟨calls, hcalls, fun r => (hright r).mpr (segmentFile_plain r)⟩
end Dunkos
