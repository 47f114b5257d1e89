import Dunkos.DiskFormat
import Dunkos.Lib.Ledger

/-! # The image writer (`tools/mkusr`)

`ddir` writes a directory tree behind the header.  It leaves room for the entries of a directory, writes the children one
behind the other, and goes back to the directory's blocks for each child's entry.  The place it goes back to, `$prev`, is
the same for every child, and the extent of a file begins with the block of its inode.  `image_right_iff` says which trees
come out right all the same. -/

namespace Dunkos

open Pack

/-- The entries of a source directory other than `.` and `..`, in the order of `readdir`. -/
inductive SourceDir where
  | nil
  | file (name : FileName) (mode : BitVec 32) (data : List Byte) (rest : SourceDir)
  | dir (name : FileName) (children rest : SourceDir)

def SourceDir.count : SourceDir → ℕ
  | nil => 0
  | file _ _ _ rest => rest.count + 1
  | dir _ _ rest => rest.count + 1

/-! ### The writer -/

/-- The handle `$dsk`: what was written, and where the next byte goes. -/
structure Image where
  bytes : ℕ → Byte
  pos : ℕ

def Image.seek (img : Image) (pos : ℕ) : Image := { img with pos := pos }

def Image.print (img : Image) (l : List Byte) : Image :=
  ⟨writeBytes img.bytes (bytesOf l) img.pos l.length, img.pos + l.length⟩

def Image.diradd (img : Image) (name : List Byte) (sector : ℕ) : Image :=
  img.print (packDirent name (BitVec.ofNat 32 sector))

/-- `<$file>`. -/
def firstLine : List Byte → List Byte
  | [] => []
  | c :: l => if c = 10 then [c] else c :: firstLine l

/-- `$dirblcks`, for `n` entries besides `.` and `..`. -/
def dirBlocks (n : ℕ) : ℕ := (direntSize * (n + 2) + 511) / 512

/-- `$blocks`, with the inode's own. -/
def fileBlocks (size : ℕ) : ℕ := (size + 511) / 512 + 1

def dot : List Byte := [0x2e]

def dotdot : List Byte := [0x2e, 0x2e]

/-- `ddir` up to the loop, without the last `seek`. -/
def dirHead (parent : ℕ) (img : Image) : Image := (img.diradd dot (img.pos / 512)).diradd dotdot parent

/-- The file branch of the loop, up to `close`. -/
def writeFile (parent : ℕ) (mode : BitVec 32) (data : List Byte) (img : Image) : Image :=
  let size := data.length
  let blocks := fileBlocks size
  let cur := img.pos
  let ext : InodeExtent := if size > 0 then ⟨BitVec.ofNat 32 (cur / 512), BitVec.ofNat 32 (blocks - 1)⟩ else ⟨0, 0⟩
  let inode := packInode mode (BitVec.ofNat 32 size) (BitVec.ofNat 32 parent) (if size > 0 then 1 else 0) ext
  let img := (img.print inode).seek (cur + 512)
  if size > 0 then (img.print (firstLine data)).seek (cur + blocks * 512) else img

/-- The end of a round: the child's entry, at `prev`. -/
def link (prev : ℕ) (name : FileName) (chldsctr : ℕ) (img : Image) : Image :=
  ((img.seek prev).diradd name.chars chldsctr).seek img.pos

/-- The loop.  `ddirLoop_dir` has the call of `ddir` for a subdirectory. -/
def ddirLoop (prev sector parent : ℕ) : SourceDir → Image → Image
  | .nil, img => img
  | .file name mode data rest, img =>
      ddirLoop prev sector parent rest (link prev name (img.pos / 512) (writeFile parent mode data img))
  | .dir name children rest, img =>
      let head := dirHead sector img
      ddirLoop prev sector parent rest (link prev name (img.pos / 512)
        (ddirLoop head.pos (img.pos / 512) sector children (head.seek (img.pos + dirBlocks children.count * 512))))

/-- The image and the result. -/
def ddir (root : SourceDir) (parent : ℕ) (img : Image) : Image × ℕ :=
  let sector := img.pos / 512
  let head := dirHead parent img
  (ddirLoop head.pos sector parent root (head.seek (img.pos + dirBlocks root.count * 512)), sector)

theorem ddirLoop_dir (prev sector parent : ℕ) (name : FileName) (children rest : SourceDir) (img : Image) :
    ddirLoop prev sector parent (.dir name children rest) img =
      ddirLoop prev sector parent rest (link prev name (ddir children sector img).2 (ddir children sector img).1) := rfl

/-- `pack "Q Q Q Q Q a8 x![512]", ..`, with the text of `DUNKOS_MAGIK`. -/
def packHeader (imageSize fsBlockSize swapBlockStart swapBlockSize : ℕ) : List Byte :=
  pack [.word 8 imageSize, .word 8 1, .word 8 fsBlockSize, .word 8 swapBlockStart, .word 8 swapBlockSize,
    .text 8 [0x44, 0x75, 0x6e, 0x6b, 0x4f, 0x53, 0x21], .align 512]

/-- The image behind its header, which has the four numbers. -/
def headerImage (imageSize fsBlockSize swapBlockStart swapBlockSize : ℕ) : Image :=
  Image.print ⟨fun _ => 0, 0⟩ (packHeader imageSize fsBlockSize swapBlockStart swapBlockSize)

/-! ### What an image is to contain -/

/-- The blocks of the children and of all below them. -/
def SourceDir.blocks : SourceDir → ℕ
  | nil => 0
  | file _ _ data rest => fileBlocks data.length + rest.blocks
  | dir _ children rest => dirBlocks children.count + children.blocks + rest.blocks

/-- The `k`-th entry of the directory at a sector, as name and sector. -/
def slotAt (b : ℕ → Byte) (sector k : ℕ) : List Byte × ℕ :=
  ((List.range 32).map fun i => b (512 * sector + direntSize * k + i), leAt b (512 * sector + direntSize * k + 33) 4)

/-- The entries in the blocks of a directory of `n` children. -/
def dirList (b : ℕ → Byte) (sector n : ℕ) : List (List Byte × ℕ) :=
  ((List.range (512 * dirBlocks n / direntSize)).map (slotAt b sector)).filter fun e => e.1.getD 0 0 ≠ 0

def entry (name : List Byte) (sector : ℕ) : List Byte × ℕ := (fillText 32 name, sector)

/-- An entry for every child, with the sector where it was written.  The first was written at `next`. -/
def childEntries : ℕ → SourceDir → List (List Byte × ℕ)
  | _, .nil => []
  | next, .file name _ data rest => entry name.chars next :: childEntries (next + fileBlocks data.length) rest
  | next, .dir name children rest =>
      entry name.chars next :: childEntries (next + dirBlocks children.count + children.blocks) rest

/-- The extent of the inode at a sector. -/
def inodeExtent (b : ℕ → Byte) (sector : ℕ) : Extent := ⟨leAt b (512 * sector + 72) 4, leAt b (512 * sector + 80) 4⟩

/-- The inode has the file's mode and size, and its extent holds the file. -/
structure InodeRight (b : ℕ → Byte) (sector : ℕ) (mode : BitVec 32) (data : List Byte) : Prop where
  mode : leAt b (512 * sector) 8 = (mode &&& 0o777).toNat <<< 8
  size : leAt b (512 * sector + 8) 4 = data.length
  covers : data.length ≤ 512 * (inodeExtent b sector).len
  holds : ∀ i < data.length, b (512 * (inodeExtent b sector).start + i) = bytesOf data i

/-- The directory holds `.`, `..` and its children's entries. -/
def EntriesRight (b : ℕ → Byte) (sector parent : ℕ) (dir : SourceDir) : Prop :=
  (dirList b sector dir.count).Perm
    (entry dot sector :: entry dotdot parent :: childEntries (sector + dirBlocks dir.count) dir)

/-- The children of the directory at `sector` and all below them are as in the source. -/
def ChildrenRight (b : ℕ → Byte) : ℕ → ℕ → SourceDir → Prop
  | _, _, .nil => True
  | sector, next, .file _ mode data rest =>
      InodeRight b next mode data ∧ ChildrenRight b sector (next + fileBlocks data.length) rest
  | sector, next, .dir _ children rest =>
      (EntriesRight b next sector children ∧ ChildrenRight b next (next + dirBlocks children.count) children) ∧
        ChildrenRight b sector (next + dirBlocks children.count + children.blocks) rest

/-- The blocks of the inodes, of the files' data and of the directories. -/
def blockRanges (b : ℕ → Byte) : ℕ → SourceDir → List Extent
  | _, .nil => []
  | next, .file _ _ data rest => ⟨next, 1⟩ :: inodeExtent b next :: blockRanges b (next + fileBlocks data.length) rest
  | next, .dir _ children rest =>
      ⟨next, dirBlocks children.count⟩ :: blockRanges b (next + dirBlocks children.count) children ++
        blockRanges b (next + dirBlocks children.count + children.blocks) rest

/-- The image holds the tree, as a directory at `sector`. -/
structure TreeRight (b : ℕ → Byte) (sector parent : ℕ) (root : SourceDir) : Prop where
  dir : EntriesRight b sector parent root
  children : ChildrenRight b sector (sector + dirBlocks root.count) root
  apart : (⟨sector, dirBlocks root.count⟩ :: blockRanges b (sector + dirBlocks root.count) root).Pairwise Extent.Apart

/-- No directory has two children, and no file has data. -/
def SourceDir.Slim : SourceDir → Prop
  | nil => True
  | file _ _ data rest => data = [] ∧ rest.count = 0
  | dir _ children rest => children.Slim ∧ rest.count = 0

/-! ### What is written where -/

section
variable {img : Image} {l : List Byte} {i : ℕ}

@[simp] theorem seek_pos (img : Image) (p : ℕ) : (img.seek p).pos = p := rfl

@[simp] theorem seek_bytes (img : Image) (p : ℕ) : (img.seek p).bytes = img.bytes := rfl

@[simp] theorem print_pos : (img.print l).pos = img.pos + l.length := rfl

theorem print_frame (h : i < img.pos ∨ img.pos + l.length ≤ i) : (img.print l).bytes i = img.bytes i := by
  refine if_neg fun hin => ?_
  omega

theorem print_at (h : i < l.length) : (img.print l).bytes (img.pos + i) = bytesOf l i := by
  have hin : img.pos ≤ img.pos + i ∧ img.pos + i < img.pos + l.length := by omega
  refine (if_pos hin).trans ?_
  rw [Nat.add_sub_cancel_left]

end

@[simp] theorem length_packDirent (name : List Byte) (sector : BitVec 32) :
    (packDirent name sector).length = direntSize := by
  rw [packDirent_eq]
  simp [direntSize]

@[simp] theorem length_packInode (mode size parent extents : BitVec 32) (ext : InodeExtent) :
    (packInode mode size parent extents ext).length = 88 := by
  rw [packInode_eq]
  simp [inodeWords]

theorem length_firstLine_le (l : List Byte) : (firstLine l).length ≤ l.length := by
  induction l with
  | nil => simp [firstLine]
  | cons c l ih =>
      simp only [firstLine]
      split <;> simp
      exact ih

/-- What was written from one handle to the next lies between their positions, but for the entry at `prev`. -/
structure Wrote (prev blocks : ℕ) (img img' : Image) : Prop where
  pos : img'.pos = img.pos + 512 * blocks
  frame : ∀ i, i < img.pos ∨ img'.pos ≤ i → i < prev ∨ prev + direntSize ≤ i → img'.bytes i = img.bytes i

section
variable {img img' img'' : Image} {prev : ℕ}

theorem writeFile_wrote (prev parent : ℕ) (mode : BitVec 32) (data : List Byte) (img : Image) :
    Wrote prev (fileBlocks data.length) img (writeFile parent mode data img) := by
  have hline := length_firstLine_le data
  have hblocks : data.length + 512 ≤ 512 * fileBlocks data.length := by
    unfold fileBlocks
    omega
  unfold writeFile
  dsimp only
  split
  · constructor
    · simp [Nat.mul_comm]
    · intro i hi _
      simp only [seek_pos, seek_bytes] at hi ⊢
      rw [print_frame (by simp only [seek_pos]; omega), seek_bytes, print_frame (by simp; omega)]
  · have hone : fileBlocks data.length = 1 := by
      unfold fileBlocks
      omega
    constructor
    · simp [hone]
    · intro i hi _
      rw [seek_bytes, print_frame (by simp at hi ⊢; omega)]

@[simp] theorem link_pos {name : FileName} {chldsctr : ℕ} : (link prev name chldsctr img).pos = img.pos := rfl

theorem link_frame {name : FileName} {chldsctr i : ℕ} (h : i < prev ∨ prev + direntSize ≤ i) :
    (link prev name chldsctr img).bytes i = img.bytes i := by
  unfold link Image.diradd
  rw [seek_bytes, print_frame (by simpa using h), seek_bytes]

theorem link_at {name : FileName} {chldsctr j : ℕ} (h : j < direntSize) :
    (link prev name chldsctr img).bytes (prev + j) = bytesOf (packDirent name.chars (BitVec.ofNat 32 chldsctr)) j :=
  print_at (i := j) (by simpa using h)

theorem link_wrote {name : FileName} {chldsctr blocks : ℕ} (h : Wrote prev blocks img img') :
    Wrote prev blocks img (link prev name chldsctr img') :=
  ⟨h.pos, fun i hi hprev => (link_frame hprev).trans (h.frame i hi hprev)⟩

theorem Wrote.trans {blocks blocks' : ℕ} (h : Wrote prev blocks img img') (h' : Wrote prev blocks' img' img'') :
    Wrote prev (blocks + blocks') img img'' := by
  have hpos := h.pos
  have hpos' := h'.pos
  constructor
  · rw [hpos', hpos, Nat.mul_add, Nat.add_assoc]
  · intro i hi hprev
    rw [h'.frame i (by omega) hprev, h.frame i (by omega) hprev]

@[simp] theorem dirHead_pos {parent : ℕ} : (dirHead parent img).pos = img.pos + 2 * direntSize := by
  simp [dirHead, Image.diradd, direntSize]

theorem dirHead_frame {parent i : ℕ} (h : i < img.pos ∨ img.pos + 2 * direntSize ≤ i) :
    (dirHead parent img).bytes i = img.bytes i := by
  unfold dirHead Image.diradd
  rw [print_frame (by simp; omega), print_frame (by simp; omega)]

theorem dirHead_dot {parent j : ℕ} (h : j < direntSize) :
    (dirHead parent img).bytes (img.pos + j) = bytesOf (packDirent dot (BitVec.ofNat 32 (img.pos / 512))) j := by
  unfold dirHead Image.diradd
  rw [print_frame (by simp; omega), print_at (by simpa using h)]

theorem dirHead_dotdot {parent j : ℕ} (h : j < direntSize) :
    (dirHead parent img).bytes (img.pos + direntSize + j) = bytesOf (packDirent dotdot (BitVec.ofNat 32 parent)) j := by
  unfold dirHead
  have hpos : (img.diradd dot (img.pos / 512)).pos = img.pos + direntSize := by simp [Image.diradd]
  rw [← hpos]
  exact print_at (by simpa using h)

theorem two_entries_le (n : ℕ) : 3 * direntSize ≤ 512 * dirBlocks n := by
  unfold dirBlocks direntSize
  omega

theorem ddir_wrote_of {dir : SourceDir}
    (h : ∀ (prev sector parent : ℕ) (img : Image), Wrote prev dir.blocks img (ddirLoop prev sector parent dir img))
    (prev parent : ℕ) (img : Image) : Wrote prev (dirBlocks dir.count + dir.blocks) img (ddir dir parent img).1 := by
  have hroom := two_entries_le dir.count
  have hin : Wrote (dirHead parent img).pos dir.blocks ((dirHead parent img).seek (img.pos + dirBlocks dir.count * 512))
      (ddir dir parent img).1 := h _ _ _ _
  have hpos := hin.pos
  rw [seek_pos] at hpos
  constructor
  · rw [hpos, Nat.mul_add, Nat.mul_comm 512 (dirBlocks dir.count), Nat.add_assoc]
  · intro i hi _
    rw [hin.frame i (by rw [seek_pos]; omega) (by rw [dirHead_pos]; omega), seek_bytes, dirHead_frame (by omega)]

/-- **The blocks of a tree**: the writer fills them, and nothing else but the place where the children are entered. -/
theorem ddirLoop_wrote (dir : SourceDir) :
    ∀ (prev sector parent : ℕ) (img : Image), Wrote prev dir.blocks img (ddirLoop prev sector parent dir img) := by
  induction dir with
  | nil => exact fun _ _ _ _ => ⟨rfl, fun _ _ _ => rfl⟩
  | file name mode data rest ih =>
      intro prev sector parent img
      exact (link_wrote (writeFile_wrote prev parent mode data img)).trans (ih _ _ _ _)
  | dir name children rest ihc ih =>
      intro prev sector parent img
      rw [ddirLoop_dir]
      exact (link_wrote (ddir_wrote_of ihc prev sector img)).trans (ih _ _ _ _)

theorem ddir_wrote (prev parent : ℕ) (dir : SourceDir) (img : Image) :
    Wrote prev (dirBlocks dir.count + dir.blocks) img (ddir dir parent img).1 :=
  ddir_wrote_of (ddirLoop_wrote dir) prev parent img

end

/-! ### Reading a directory back -/

theorem leAt_lt (b : ℕ → Byte) (ofs n : ℕ) : leAt b ofs n < 256 ^ n := by
  induction n generalizing ofs with
  | zero => simp [leAt]
  | succ n ih =>
      have hbyte := (b ofs).isLt
      have hrest := ih (ofs + 1)
      rw [leAt, Nat.pow_succ]
      omega

theorem slotAt_of_packDirent {b : ℕ → Byte} {s k : ℕ} {name : List Byte} {sector : BitVec 32}
    (h : ∀ j < direntSize, b (512 * s + direntSize * k + j) = bytesOf (packDirent name sector) j) :
    slotAt b s k = entry name sector.toNat := by
  have hlen : (fillText 32 name).length = 32 := length_fillText _ _
  have hname : (List.range 32).map (fun i => b (512 * s + direntSize * k + i)) = fillText 32 name := by
    refine List.ext_getElem (by simp) fun i hi _ => ?_
    have hlt : i < 32 := by simpa using hi
    rw [List.getElem_map, List.getElem_range, h i (hlt.trans (by decide)), bytesOf, packDirent_eq,
      List.getD_append _ _ _ _ (by omega), List.getD_eq_getElem _ _ (by omega)]
  have hsector : leAt b (512 * s + direntSize * k + 33) 4 = sector.toNat := by
    have hbytes : ∀ i < 4, b (512 * s + direntSize * k + 33 + i) = (leBytes 4 sector.toNat).getD i 0 := by
      intro i hi
      have hsub : 33 + i - (fillText 32 name).length = i + 1 := by omega
      rw [Nat.add_assoc, h _ (by unfold direntSize; omega), bytesOf, packDirent_eq,
        List.getD_append_right _ _ _ _ (by omega), hsub]
      show (leBytes 4 sector.toNat ++ [0, 0, 0]).getD i 0 = _
      exact List.getD_append _ _ _ _ (by simpa using hi)
    rw [leAt_of_leBytes hbytes]
    exact Nat.mod_eq_of_lt sector.isLt
  exact congrArg₂ Prod.mk hname hsector

theorem slotAt_head (b : ℕ → Byte) (s k : ℕ) : (slotAt b s k).1.getD 0 0 = b (512 * s + direntSize * k) := rfl

/-- Only the first three entries of a directory are ever written. -/
theorem dirList_eq {b : ℕ → Byte} {s n : ℕ}
    (h : ∀ k ≥ 3, direntSize * k < 512 * dirBlocks n → b (512 * s + direntSize * k) = 0) :
    dirList b s n = [slotAt b s 0, slotAt b s 1, slotAt b s 2].filter fun e => e.1.getD 0 0 ≠ 0 := by
  obtain ⟨m, hm⟩ : ∃ m, 512 * dirBlocks n / direntSize = 3 + m := by
    refine Nat.exists_eq_add_of_le ((Nat.le_div_iff_mul_le (by decide)).mpr ?_)
    exact two_entries_le n
  have hrest : (((List.range m).map (3 + ·)).map (slotAt b s)).filter (fun e => e.1.getD 0 0 ≠ 0) = [] := by
    rw [List.filter_eq_nil_iff]
    intro e he
    simp only [List.map_map, List.mem_map, List.mem_range, Function.comp_apply] at he
    obtain ⟨k, hk, rfl⟩ := he
    have hlt : direntSize * (3 + k) < 512 * dirBlocks n := by
      have hle : 3 + k < 512 * dirBlocks n / direntSize := by omega
      have := (Nat.lt_div_iff_mul_lt (by decide)).mp hle
      unfold direntSize at *
      omega
    rw [slotAt_head, h _ (by omega) hlt]
    decide
  rw [dirList, hm, List.range_add, List.map_append, List.filter_append, hrest, List.append_nil]
  rfl

/-- The blocks from `s` on are those of a directory that `ddir` wrote to the end of an image. -/
structure Written (b : ℕ → Byte) (s parent : ℕ) (dir : SourceDir) (img : Image) : Prop where
  pos : img.pos = 512 * s
  fresh : ∀ i, img.pos ≤ i → img.bytes i = 0
  agrees : ∀ i, 512 * s ≤ i → i < 512 * (s + dirBlocks dir.count + dir.blocks) → b i = (ddir dir parent img).1.bytes i

section
variable {b : ℕ → Byte} {s parent : ℕ} {dir : SourceDir} {img : Image}

/-- The loop writes one entry into the blocks of the directory. -/
theorem Written.block (h : Written b s parent dir img) {i : ℕ} (hlo : 512 * s ≤ i)
    (hhi : i < 512 * (s + dirBlocks dir.count))
    (hprev : i < 512 * s + 2 * direntSize ∨ 512 * s + 3 * direntSize ≤ i) : b i = (dirHead parent img).bytes i := by
  have hpos := h.pos
  have hloop := ddirLoop_wrote dir (dirHead parent img).pos (img.pos / 512) parent
    ((dirHead parent img).seek (img.pos + dirBlocks dir.count * 512))
  rw [h.agrees i hlo (by omega)]
  refine hloop.frame i (Or.inl ?_) ?_
  · rw [seek_pos]
    omega
  · rw [dirHead_pos]
    omega

theorem Written.free (h : Written b s parent dir img) {i : ℕ} (hlo : 512 * s + 3 * direntSize ≤ i)
    (hhi : i < 512 * (s + dirBlocks dir.count)) : b i = 0 := by
  have hpos := h.pos
  rw [h.block (by omega) hhi (Or.inr hlo), dirHead_frame (by omega)]
  exact h.fresh i (by omega)

theorem Written.slot_dot (h : Written b s parent dir img) : slotAt b s 0 = entry dot (s % 2 ^ 32) := by
  have hroom := two_entries_le dir.count
  have hpos := h.pos
  have hs : img.pos / 512 = s := by omega
  rw [← BitVec.toNat_ofNat]
  refine slotAt_of_packDirent fun j hj => ?_
  rw [h.block (by omega) (by omega) (by omega), Nat.mul_zero, Nat.add_zero, ← hpos, dirHead_dot hj, hs]

theorem Written.slot_dotdot (h : Written b s parent dir img) : slotAt b s 1 = entry dotdot (parent % 2 ^ 32) := by
  have hroom := two_entries_le dir.count
  have hpos := h.pos
  rw [← BitVec.toNat_ofNat]
  refine slotAt_of_packDirent fun j hj => ?_
  rw [h.block (by omega) (by omega) (by omega), Nat.mul_one, ← hpos, dirHead_dotdot hj]

theorem Written.list_eq (h : Written b s parent dir img) : dirList b s dir.count =
    [entry dot (s % 2 ^ 32), entry dotdot (parent % 2 ^ 32)] ++ [slotAt b s 2].filter fun e => e.1.getD 0 0 ≠ 0 := by
  have hfree : ∀ k ≥ 3, direntSize * k < 512 * dirBlocks dir.count → b (512 * s + direntSize * k) = 0 := by
    intro k hk hlt
    have hle := Nat.mul_le_mul_left direntSize hk
    exact h.free (by omega) (by omega)
  rw [dirList_eq hfree, h.slot_dot, h.slot_dotdot]
  rfl

theorem Written.length_dirList_le (h : Written b s parent dir img) : (dirList b s dir.count).length ≤ 3 := by
  have hle := List.length_filter_le (fun e : List Byte × ℕ => e.1.getD 0 0 ≠ 0) [slotAt b s 2]
  rw [h.list_eq, List.length_append]
  simp only [List.length_cons, List.length_nil] at hle ⊢
  omega

theorem Written.dirList_nil (h : Written b s parent .nil img) :
    dirList b s 0 = [entry dot (s % 2 ^ 32), entry dotdot (parent % 2 ^ 32)] := by
  have hpos := h.pos
  have hone : dirBlocks 0 = 1 := rfl
  have hzero : b (512 * s + direntSize * 2) = 0 := by
    have hagrees := h.agrees (512 * s + direntSize * 2) (by omega)
      (by simp only [SourceDir.count, SourceDir.blocks, hone, direntSize]; omega)
    rw [hagrees]
    show (dirHead parent img).bytes _ = 0
    rw [dirHead_frame (by omega)]
    exact h.fresh _ (by omega)
  have hlist := h.list_eq
  rw [List.filter_cons_of_neg (by rw [slotAt_head, hzero]; decide)] at hlist
  exact hlist

theorem name_head (name : FileName) : (fillText 32 name.chars).getD 0 0 ≠ 0 := by
  have hne := name.ne_nil
  have hzero := name.nonzero
  rw [getD_fillText (by decide)]
  cases hc : name.chars with
  | nil => exact absurd hc hne
  | cons c l =>
      rw [hc] at hzero
      exact fun h => hzero (h ▸ List.mem_cons_self)

theorem Written.dirList_one (h : Written b s parent dir img) {name : FileName} {c : ℕ}
    (hprev : ∀ j < direntSize, b (512 * s + direntSize * 2 + j) = bytesOf (packDirent name.chars (BitVec.ofNat 32 c)) j) :
    dirList b s dir.count =
      [entry dot (s % 2 ^ 32), entry dotdot (parent % 2 ^ 32), entry name.chars (c % 2 ^ 32)] := by
  have hslot := slotAt_of_packDirent hprev
  have hhead : (slotAt b s 2).1.getD 0 0 ≠ 0 := by
    rw [hslot]
    exact name_head name
  rw [h.list_eq, List.filter_cons_of_pos (by simpa using hhead), hslot, BitVec.toNat_ofNat]
  rfl

theorem SourceDir.eq_nil (h : dir.count = 0) : dir = .nil := by
  cases dir with
  | nil => rfl
  | file => exact absurd h (Nat.succ_ne_zero _)
  | dir => exact absurd h (Nat.succ_ne_zero _)

/-! #### A directory with one child -/

section
variable {name : FileName} {mode : BitVec 32} {data : List Byte} {children : SourceDir}

/-- Where the only child is written. -/
def childImage (parent : ℕ) (img : Image) : Image := (dirHead parent img).seek (img.pos + dirBlocks 1 * 512)

theorem Written.childImage_pos (h : Written b s parent dir img) : (childImage parent img).pos = 512 * (s + 1) := by
  have hpos := h.pos
  have hone : dirBlocks 1 = 1 := rfl
  rw [childImage, seek_pos, hone, hpos]
  omega

theorem Written.childImage_fresh (h : Written b s parent dir img) :
    ∀ i, (childImage parent img).pos ≤ i → (childImage parent img).bytes i = 0 := by
  intro i hi
  have hpos := h.pos
  have hchild := h.childImage_pos
  rw [childImage, seek_bytes, dirHead_frame (by unfold direntSize; omega)]
  exact h.fresh i (by omega)

/-- The image of a directory with one child: the child's, with its entry. -/
theorem Written.agrees_child (h : Written b s parent dir img) (hone : dir.count = 1) (name : FileName) (img' : Image)
    (hddir : (ddir dir parent img).1 = link (dirHead parent img).pos name ((childImage parent img).pos / 512) img') :
    (∀ j < direntSize, b (512 * s + direntSize * 2 + j) = bytesOf (packDirent name.chars (BitVec.ofNat 32 (s + 1))) j) ∧
      ∀ i, 512 * (s + 1) ≤ i → i < 512 * (s + 1 + dir.blocks) → b i = img'.bytes i := by
  have hpos := h.pos
  have hblocks : dirBlocks dir.count = 1 := by rw [hone]; rfl
  have hprev : (dirHead parent img).pos = 512 * s + direntSize * 2 := by
    rw [dirHead_pos, hpos, Nat.mul_comm 2]
  have hs : (childImage parent img).pos / 512 = s + 1 := by
    have := h.childImage_pos
    omega
  rw [hprev, hs] at hddir
  constructor
  · intro j hj
    rw [h.agrees _ (by omega) (by unfold direntSize at *; omega), hddir]
    exact link_at hj
  · intro i hlo hhi
    rw [h.agrees i (by omega) (by omega), hddir]
    exact link_frame (by unfold direntSize; omega)

theorem Written.child_dir (h : Written b s parent (.dir name children .nil) img) :
    Written b (s + 1) s children (childImage parent img) := by
  have hpos := h.pos
  have hs : img.pos / 512 = s := by omega
  have hchild := h.agrees_child rfl name (ddir children s (childImage parent img)).1 (by rw [← hs]; rfl)
  refine ⟨h.childImage_pos, h.childImage_fresh, fun i hlo hhi => hchild.2 i hlo ?_⟩
  simp only [SourceDir.blocks]
  omega

theorem Written.child_dir_entry (h : Written b s parent (.dir name children .nil) img) :
    dirList b s 1 = [entry dot (s % 2 ^ 32), entry dotdot (parent % 2 ^ 32), entry name.chars ((s + 1) % 2 ^ 32)] := by
  have hpos := h.pos
  have hs : img.pos / 512 = s := by omega
  have hchild := h.agrees_child rfl name (ddir children s (childImage parent img)).1 (by rw [← hs]; rfl)
  exact h.dirList_one hchild.1

/-- The extent of a file, in an inode at `s`. -/
def writtenExtent (s size : ℕ) : InodeExtent :=
  if size > 0 then ⟨BitVec.ofNat 32 s, BitVec.ofNat 32 (fileBlocks size - 1)⟩ else ⟨0, 0⟩

theorem writeFile_inode (parent : ℕ) (mode : BitVec 32) (data : List Byte) (img : Image) {j : ℕ} (hj : j < 88) :
    (writeFile parent mode data img).bytes (img.pos + j) = bytesOf (packInode mode (BitVec.ofNat 32 data.length)
      (BitVec.ofNat 32 parent) (if data.length > 0 then 1 else 0) (writtenExtent (img.pos / 512) data.length)) j := by
  unfold writeFile
  dsimp only
  rw [← writtenExtent]
  split
  · rw [seek_bytes, print_frame (by simp only [seek_pos]; omega), seek_bytes, print_at (by simpa using hj)]
  · rw [seek_bytes, print_at (by simpa using hj)]

theorem Written.child_file (h : Written b s parent (.file name mode data .nil) img) :
    dirList b s 1 = [entry dot (s % 2 ^ 32), entry dotdot (parent % 2 ^ 32), entry name.chars ((s + 1) % 2 ^ 32)] ∧
      ∀ j < 88, b (512 * (s + 1) + j) = bytesOf (packInode mode (BitVec.ofNat 32 data.length) (BitVec.ofNat 32 parent)
        (if data.length > 0 then 1 else 0) (writtenExtent (s + 1) data.length)) j := by
  have hpos := h.pos
  have hchildPos := h.childImage_pos
  have hs : (childImage parent img).pos / 512 = s + 1 := by omega
  have hchild := h.agrees_child rfl name (writeFile parent mode data (childImage parent img)) rfl
  refine ⟨h.dirList_one hchild.1, fun j hj => ?_⟩
  have hblocks : 1 ≤ (SourceDir.file name mode data .nil).blocks := by
    simp only [SourceDir.blocks, fileBlocks]
    omega
  rw [hchild.2 _ (by omega) (by omega), ← hchildPos, writeFile_inode parent mode data _ hj, hs]

theorem leAt_packInode {c : ℕ} {size par extents : BitVec 32} {ext : InodeExtent}
    (h : ∀ j < 88, b (512 * c + j) = bytesOf (packInode mode size par extents ext) j) {i : ℕ} {v : BitVec 32}
    (hv : (inodeWords size par extents ext)[i]? = some v) : leAt b (512 * c + 8 * (i + 1)) 4 = v.toNat := by
  have hi : i < 10 := (List.getElem?_eq_some_iff.mp hv).1
  have hbytes : ∀ j < 4, b (512 * c + 8 * (i + 1) + j) = (leBytes 4 v.toNat).getD j 0 := by
    intro j hj
    rw [Nat.add_assoc, h _ (by omega), packInode_getD i (by omega), hv]
    exact List.getD_append _ _ _ _ (by simpa using hj)
  rw [leAt_of_leBytes hbytes]
  exact Nat.mod_eq_of_lt v.isLt

theorem Written.child_extent (h : Written b s parent (.file name mode data .nil) img) :
    inodeExtent b (s + 1) = ⟨(writtenExtent (s + 1) data.length).start.toNat,
      (writtenExtent (s + 1) data.length).sectors.toNat⟩ := by
  obtain ⟨-, hinode⟩ := h.child_file
  exact congrArg₂ Extent.mk (leAt_packInode hinode (i := 8) rfl) (leAt_packInode hinode (i := 9) rfl)

theorem Written.child_empty (h : Written b s parent (.file name mode [] .nil) img) : InodeRight b (s + 1) mode [] := by
  obtain ⟨-, hinode⟩ := h.child_file
  have hmode : (mode &&& 0o777).toNat <<< 8 < 2 ^ 64 := by
    have hlt := (mode &&& 0o777).isLt
    rw [Nat.shiftLeft_eq]
    omega
  refine ⟨?_, leAt_packInode hinode (i := 0) rfl, Nat.zero_le _, fun i hi => absurd hi (Nat.not_lt_zero _)⟩
  have hbytes : ∀ i < 8, b (512 * (s + 1) + i) = (leBytes 8 ((mode &&& 0o777).toNat <<< 8)).getD i 0 := by
    intro i hi
    rw [hinode i (by omega), bytesOf, packInode_eq, List.getD_append _ _ _ _ (by simpa using hi)]
  rw [leAt_of_leBytes hbytes]
  exact Nat.mod_eq_of_lt hmode

end

end

/-! ### Which trees come out right -/

theorem length_childEntries (next : ℕ) (dir : SourceDir) : (childEntries next dir).length = dir.count := by
  induction dir generalizing next with
  | nil => rfl
  | file name mode data rest ih => exact congrArg (· + 1) (ih _)
  | dir name children rest ihc ih => exact congrArg (· + 1) (ih _)

theorem dirList_lt {b : ℕ → Byte} {s n : ℕ} {e : List Byte × ℕ} (h : e ∈ dirList b s n) : e.2 < 2 ^ 32 := by
  obtain ⟨k, -, rfl⟩ := List.mem_map.mp (List.mem_of_mem_filter h)
  exact leAt_lt b _ 4

section
variable {b : ℕ → Byte} {s parent : ℕ} {dir : SourceDir} {img : Image}

/-- Every entry of a directory that came out right has a sector of 32 bits. -/
theorem EntriesRight.lt (h : EntriesRight b s parent dir) {e : List Byte × ℕ}
    (he : e ∈ entry dot s :: entry dotdot parent :: childEntries (s + dirBlocks dir.count) dir) : e.2 < 2 ^ 32 :=
  dirList_lt (h.mem_iff.mpr he)

/-- A directory that came out right has at most one child. -/
theorem EntriesRight.count_le (h : EntriesRight b s parent dir) (hw : Written b s parent dir img) : dir.count ≤ 1 := by
  have hlen := h.length_eq
  have hle := hw.length_dirList_le
  simp only [List.length_cons, length_childEntries] at hlen
  omega

/-- The extent of a file with data begins with its inode. -/
theorem InodeRight.data_eq_nil {name : FileName} {mode : BitVec 32} {data : List Byte}
    (h : InodeRight b (s + 1) mode data) (hw : Written b s parent (.file name mode data .nil) img) (hs : s + 1 < 2 ^ 32)
    (hapart : Extent.Apart ⟨s + 1, 1⟩ (inodeExtent b (s + 1))) : data = [] := by
  by_contra hne
  have hpos : data.length > 0 := List.length_pos_iff.mpr hne
  have hcovers := h.covers
  have hstart : (inodeExtent b (s + 1)).start = s + 1 := by
    rw [hw.child_extent, writtenExtent, if_pos hpos]
    exact Nat.mod_eq_of_lt hs
  refine hapart (s + 1) ⟨le_rfl, Nat.lt_succ_self _⟩ ⟨?_, ?_⟩
  · rw [hstart]
  · rw [hstart]
    omega

end

/-! #### A directory with one child -/

@[simp] theorem dirBlocks_one : dirBlocks (0 + 1) = 1 := rfl

theorem fileBlocks_zero : fileBlocks 0 = 1 := rfl

section
variable {b : ℕ → Byte} {s parent : ℕ} {name : FileName} {mode : BitVec 32} {data : List Byte} {children : SourceDir}

theorem treeRight_file : TreeRight b s parent (.file name mode data .nil) ↔
    (dirList b s 1).Perm [entry dot s, entry dotdot parent, entry name.chars (s + 1)] ∧ InodeRight b (s + 1) mode data ∧
      [⟨s, 1⟩, ⟨s + 1, 1⟩, inodeExtent b (s + 1)].Pairwise Extent.Apart := by
  have hranges : blockRanges b (s + 1) (.file name mode data .nil) = [⟨s + 1, 1⟩, inodeExtent b (s + 1)] := rfl
  constructor
  · rintro ⟨hdir, hchildren, hapart⟩
    simp only [EntriesRight, ChildrenRight, SourceDir.count, childEntries, dirBlocks_one, hranges] at hdir hchildren hapart
    exact ⟨hdir, hchildren.1, hapart⟩
  · rintro ⟨hdir, hchild, hapart⟩
    constructor
    · simpa only [EntriesRight, SourceDir.count, childEntries, dirBlocks_one] using hdir
    · simpa only [ChildrenRight, SourceDir.count, dirBlocks_one, and_true] using hchild
    · simpa only [SourceDir.count, dirBlocks_one, hranges] using hapart

theorem treeRight_dir : TreeRight b s parent (.dir name children .nil) ↔
    (dirList b s 1).Perm [entry dot s, entry dotdot parent, entry name.chars (s + 1)] ∧ TreeRight b (s + 1) s children ∧
      ∀ e ∈ blockRanges b (s + 1) (.dir name children .nil), Extent.Apart ⟨s, 1⟩ e := by
  have hranges : blockRanges b (s + 1) (.dir name children .nil) = ⟨s + 1, dirBlocks children.count⟩ ::
      blockRanges b (s + 1 + dirBlocks children.count) children := List.append_nil _
  constructor
  · rintro ⟨hdir, hchildren, hapart⟩
    simp only [EntriesRight, ChildrenRight, SourceDir.count, childEntries, dirBlocks_one, hranges] at hdir hchildren hapart
    rw [hranges]
    exact ⟨hdir, ⟨hchildren.1.1, hchildren.1.2, hapart.of_cons⟩, fun e he => List.rel_of_pairwise_cons hapart he⟩
  · rintro ⟨hdir, hchild, hapart⟩
    constructor
    · simpa only [EntriesRight, SourceDir.count, childEntries, dirBlocks_one] using hdir
    · simpa only [ChildrenRight, SourceDir.count, dirBlocks_one, and_true] using And.intro hchild.dir hchild.children
    · simp only [SourceDir.count, dirBlocks_one]
      refine List.pairwise_cons.mpr ⟨hapart, ?_⟩
      rw [hranges]
      exact hchild.apart

end

theorem slim_of_right (dir : SourceDir) : ∀ {b : ℕ → Byte} {s parent : ℕ} {img : Image}, Written b s parent dir img →
    TreeRight b s parent dir → dir.Slim ∧ s + dirBlocks dir.count + dir.blocks ≤ 2 ^ 32 := by
  induction dir with
  | nil =>
      intro b s parent img _ h
      have hdot : s < 2 ^ 32 := h.dir.lt List.mem_cons_self
      exact ⟨trivial, hdot⟩
  | file name mode data rest ih =>
      intro b s parent img hw h
      obtain rfl : rest = .nil := SourceDir.eq_nil (Nat.le_zero.mp (Nat.le_of_succ_le_succ (h.dir.count_le hw)))
      obtain ⟨hdir, hinode, hapart⟩ := treeRight_file.mp h
      have hchild : s + 1 < 2 ^ 32 := dirList_lt (hdir.mem_iff.mpr (.tail _ (.tail _ List.mem_cons_self)))
      have hext : Extent.Apart ⟨s + 1, 1⟩ (inodeExtent b (s + 1)) :=
        List.rel_of_pairwise_cons hapart.of_cons List.mem_cons_self
      obtain rfl : data = [] := hinode.data_eq_nil hw hchild hext
      refine ⟨⟨rfl, rfl⟩, ?_⟩
      simp only [SourceDir.count, SourceDir.blocks, dirBlocks_one, List.length_nil, fileBlocks_zero]
      exact hchild
  | dir name children rest ihc ih =>
      intro b s parent img hw h
      obtain rfl : rest = .nil := SourceDir.eq_nil (Nat.le_zero.mp (Nat.le_of_succ_le_succ (h.dir.count_le hw)))
      obtain ⟨-, hchild, -⟩ := treeRight_dir.mp h
      obtain ⟨hslim, hend⟩ := ihc hw.child_dir hchild
      refine ⟨⟨hslim, rfl⟩, ?_⟩
      simp only [SourceDir.count, SourceDir.blocks, dirBlocks_one]
      omega

/-- The blocks of a slim tree lie behind its first, but for the empty extents of its files. -/
def RangesFrom (b : ℕ → Byte) (s : ℕ) (dir : SourceDir) : Prop := ∀ e ∈ blockRanges b s dir, s ≤ e.start ∨ e.len = 0

theorem right_of_slim (dir : SourceDir) : ∀ {b : ℕ → Byte} {s parent : ℕ} {img : Image}, Written b s parent dir img →
    dir.Slim → s + dirBlocks dir.count + dir.blocks ≤ 2 ^ 32 → parent < 2 ^ 32 →
    TreeRight b s parent dir ∧ RangesFrom b (s + dirBlocks dir.count) dir := by
  induction dir with
  | nil =>
      intro b s parent img hw _ hend hparent
      have hs : s < 2 ^ 32 := hend
      refine ⟨⟨?_, trivial, List.pairwise_singleton _ _⟩, by simp [RangesFrom, blockRanges]⟩
      show (dirList b s 0).Perm _
      rw [hw.dirList_nil, Nat.mod_eq_of_lt hs, Nat.mod_eq_of_lt hparent]
      exact .refl _
  | file name mode data rest ih =>
      intro b s parent img hw hslim hend hparent
      obtain ⟨rfl, hrest⟩ := hslim
      obtain rfl := SourceDir.eq_nil hrest
      simp only [SourceDir.count, SourceDir.blocks, dirBlocks_one, List.length_nil, fileBlocks_zero] at hend
      have hs : s + 1 < 2 ^ 32 := hend
      have hext : inodeExtent b (s + 1) = ⟨0, 0⟩ := hw.child_extent
      have hempty : ∀ e : Extent, e.Apart ⟨0, 0⟩ := fun e i _ hi => absurd hi.2 (Nat.not_lt_zero _)
      refine ⟨treeRight_file.mpr ⟨?_, hw.child_empty, ?_⟩, ?_⟩
      · rw [hw.child_file.1, Nat.mod_eq_of_lt hs, Nat.mod_eq_of_lt (Nat.lt_of_succ_lt hs), Nat.mod_eq_of_lt hparent]
      · rw [hext]
        simp [hempty, Extent.apart_of_le]
      · simp [RangesFrom, blockRanges, SourceDir.count, hext]
  | dir name children rest ihc ih =>
      intro b s parent img hw hslim hend hparent
      obtain ⟨hslim, hrest⟩ := hslim
      obtain rfl := SourceDir.eq_nil hrest
      have hblocks := two_entries_le children.count
      simp only [SourceDir.count, SourceDir.blocks, dirBlocks_one] at hend
      have hs : s + 1 < 2 ^ 32 := by
        unfold direntSize at hblocks
        omega
      obtain ⟨hright, hranges⟩ := ihc hw.child_dir hslim (by omega) (by omega)
      have hall : RangesFrom b (s + 1) (.dir name children .nil) := by
        intro e he
        simp only [blockRanges, List.append_nil, List.mem_cons] at he
        rcases he with rfl | he
        · exact Or.inl le_rfl
        · exact (hranges e he).imp_left fun h => by omega
      refine ⟨treeRight_dir.mpr ⟨?_, hright, fun e he i hi hi' => ?_⟩,
        by simpa only [SourceDir.count, dirBlocks_one] using hall⟩
      · rw [hw.child_dir_entry, Nat.mod_eq_of_lt hs, Nat.mod_eq_of_lt (Nat.lt_of_succ_lt hs), Nat.mod_eq_of_lt hparent]
      · have hlo := hall e he
        simp only [Extent.covers_mk] at hi
        unfold Extent.Covers at hi'
        omega

/-- The image that `mkusr` makes of a tree. -/
def mkusrImage (imageSize fsBlockSize swapBlockStart swapBlockSize : ℕ) (root : SourceDir) : Image :=
  (ddir root 1 (headerImage imageSize fsBlockSize swapBlockStart swapBlockSize)).1

theorem length_packHeader (imageSize fsBlockSize swapBlockStart swapBlockSize : ℕ) :
    (packHeader imageSize fsBlockSize swapBlockStart swapBlockSize).length = 512 := by
  simp [packHeader, pack, Field.bytes, -List.reduceReplicate]

theorem headerImage_at (imageSize fsBlockSize swapBlockStart swapBlockSize : ℕ) {i : ℕ} (hi : i < 512) :
    (headerImage imageSize fsBlockSize swapBlockStart swapBlockSize).bytes i =
      bytesOf (packHeader imageSize fsBlockSize swapBlockStart swapBlockSize) i := by
  have hlen := length_packHeader imageSize fsBlockSize swapBlockStart swapBlockSize
  rw [← print_at (by omega), headerImage]
  exact congrArg _ (Nat.zero_add i).symm

theorem written_mkusrImage (imageSize fsBlockSize swapBlockStart swapBlockSize : ℕ) (root : SourceDir) :
    Written (mkusrImage imageSize fsBlockSize swapBlockStart swapBlockSize root).bytes 1 1 root
      (headerImage imageSize fsBlockSize swapBlockStart swapBlockSize) := by
  refine ⟨?_, fun i hi => ?_, fun _ _ _ => rfl⟩
  · rw [headerImage, print_pos, length_packHeader]
  · exact print_frame (Or.inr hi)

/-- **Images contain the tree** exactly when no directory has two children, no file has data, and the tree ends by the
last sector that 32 bits can name. -/
theorem image_right_iff (imageSize fsBlockSize swapBlockStart swapBlockSize : ℕ) (root : SourceDir) :
    TreeRight (mkusrImage imageSize fsBlockSize swapBlockStart swapBlockSize root).bytes 1 1 root ↔
      root.Slim ∧ 1 + dirBlocks root.count + root.blocks ≤ 2 ^ 32 := by
  have hw := written_mkusrImage imageSize fsBlockSize swapBlockStart swapBlockSize root
  constructor
  · exact slim_of_right root hw
  · rintro ⟨hslim, hend⟩
    exact (right_of_slim root hw hslim hend (by decide)).1

/-- Two empty files, `a` and `b`. -/
def twoFiles : SourceDir :=
  .file nameA 0o644 [] (.file ⟨[0x62], by decide, by decide, by decide⟩ 0o644 [] .nil)

/-- On an image of 64M the root directory is left with three entries: `b` is written over `a`. -/
theorem siblings_lost : ¬ TreeRight (mkusrImage 131072 98304 98304 131072 twoFiles).bytes 1 1 twoFiles ∧
    (dirList (mkusrImage 131072 98304 98304 131072 twoFiles).bytes 1 2).length ≤ 3 := by
  have hw := written_mkusrImage 131072 98304 98304 131072 twoFiles
  refine ⟨fun h => ?_, hw.length_dirList_le⟩
  obtain ⟨-, hrest⟩ := (slim_of_right twoFiles hw h).1
  exact absurd hrest (Nat.succ_ne_zero _)

end Dunkos
