import Dunkos.Filesys
import Dunkos.Lib.Pack

/-! # The format of the disk (`filesys.c`, `tools/mkusr`)

`mkusr` packs every word of an inode into eight bytes, where `struct inode_disk` has them one after the other, and the
sector of a directory entry right behind the name, where `struct dir_entry` has three bytes of padding.
`disk_format_wrong` says what the kernel makes of that: no inode is read as it was written, and of the directory entries
only those for sector 0. -/

namespace Dunkos

open Pack

def bytesOf (l : List Byte) (i : ℕ) : Byte := l.getD i 0

/-! ### What the kernel reads -/

/-- The `i`-th word of some bytes. -/
def wordAt (b : ℕ → Byte) (i : ℕ) : BitVec 32 := BitVec.ofNat 32 (leAt b (4 * i) 4)

/-- `struct inode_disk`; `inodeDiskOf` has the members from `next_extent` on. -/
structure InodeRecord where
  info : BitVec 64
  length : BitVec 32
  parent : BitVec 32
  body : InodeDisk

def InodeRecord.read (b : ℕ → Byte) : InodeRecord where
  info := BitVec.ofNat 64 (leAt b 0 8)
  length := wordAt b 2
  parent := wordAt b 3
  body := Filesys.inodeDiskOf (wordAt b)

/-! ### What `mkusr` writes -/

/-- A name of at most 32 bytes. -/
structure EntryName where
  chars : List Byte
  length_le : chars.length ≤ nameMax

/-- `pack "a32xLx![L]", $name, $sector`. -/
def packDirent (name : List Byte) (sector : BitVec 32) : List Byte :=
  pack [.text 32 name, .null, .word 4 sector.toNat, .align 4]

/-- The inode of `ddir`, with its number of extents and the first of these. -/
def packInode (mode size parent extents : BitVec 32) (ext : InodeExtent) : List Byte :=
  let npos := 0xFFFFFFFF
  pack [.word 8 ((mode &&& 0o777).toNat <<< 8), .word 4 size.toNat, .align 8, .word 4 parent.toNat, .align 8,
    .word 4 extents.toNat, .align 8, .word 4 npos, .align 8, .word 4 npos, .align 8, .word 4 npos, .align 8,
    .word 4 npos, .align 8, .word 4 npos, .align 8, .word 4 ext.start.toNat, .align 8, .word 4 ext.sectors.toNat, .align 8]

/-! ### Agreement -/

/-- The kernel reads the inode that was written. -/
structure InodeAgrees (mode size parent extents : BitVec 32) (ext : InodeExtent) (r : InodeRecord) : Prop where
  info : r.info = (mode &&& 0o777).setWidth 64 <<< 8
  length : r.length = size
  parent : r.parent = parent
  nextExtent : r.body.nextExtent = extents
  nextFirstLevel : r.body.nextFirstLevel = inodeDiskNpos
  nextSecondLevel : r.body.nextSecondLevel = inodeDiskNpos
  firstLevelTable : r.body.firstLevelTable = inodeDiskNpos
  secondLevelTable : r.body.secondLevelTable = inodeDiskNpos
  thirdLevelTable : r.body.thirdLevelTable = inodeDiskNpos
  headerExtent : r.body.headerExtents 0 = ext

/-- The kernel reads the entry that was written. -/
def DirentAgrees (name : List Byte) (sector : BitVec 32) (ent : DirEntry) : Prop :=
  (∀ i < nameLength, ent.name i = bytesOf name i) ∧ ent.sector = sector

theorem wordAt_of_leBytes {b : ℕ → Byte} {i : ℕ} {v : BitVec 32}
    (h : ∀ j < 4, b (4 * i + j) = (leBytes 4 v.toNat).getD j 0) : wordAt b i = v := by
  have hlt : v.toNat % 256 ^ 4 = v.toNat := Nat.mod_eq_of_lt v.isLt
  unfold wordAt
  rw [leAt_of_leBytes h, hlt, BitVec.ofNat_toNat, BitVec.setWidth_eq]

section
variable {mode size parent extents : BitVec 32} {ext : InodeExtent}

/-- The words of an inode behind its first. -/
def inodeWords (size parent extents : BitVec 32) (ext : InodeExtent) : List (BitVec 32) :=
  [size, parent, extents, inodeDiskNpos, inodeDiskNpos, inodeDiskNpos, inodeDiskNpos, inodeDiskNpos, ext.start, ext.sectors]

theorem packInode_eq : packInode mode size parent extents ext = leBytes 8 ((mode &&& 0o777).toNat <<< 8) ++
    (inodeWords size parent extents ext).flatMap fun v => leBytes 4 v.toNat ++ List.replicate 4 0 := by
  simp [packInode, pack, Field.bytes, inodeWords, inodeDiskNpos]

/-- Every word is followed by four bytes of padding. -/
theorem packInode_getD (i : ℕ) {j : ℕ} (hj : j < 8) : bytesOf (packInode mode size parent extents ext) (8 * (i + 1) + j) =
    ((inodeWords size parent extents ext)[i]?.elim [] fun v => leBytes 4 v.toNat ++ List.replicate 4 0).getD j 0 := by
  have hlen : (leBytes 8 ((mode &&& 0o777).toNat <<< 8)).length = 8 := length_leBytes _ _
  rw [bytesOf, packInode_eq, List.getD_append_right _ _ _ _ (by omega)]
  have hsub : 8 * (i + 1) + j - (leBytes 8 ((mode &&& 0o777).toNat <<< 8)).length = 8 * i + j := by omega
  rw [hsub]
  exact getD_flatMap (fun v => by simp) hj _ i

theorem wordAt_packInode {i : ℕ} {v : BitVec 32} (h : (inodeWords size parent extents ext)[i]? = some v) :
    wordAt (bytesOf (packInode mode size parent extents ext)) (2 * (i + 1)) = v ∧
      wordAt (bytesOf (packInode mode size parent extents ext)) (2 * (i + 1) + 1) = 0 := by
  have hlen : (leBytes 4 v.toNat).length = 4 := length_leBytes _ _
  constructor
  · refine wordAt_of_leBytes fun j hj => ?_
    have hpos : 4 * (2 * (i + 1)) + j = 8 * (i + 1) + j := by omega
    rw [hpos, packInode_getD i (by omega), h]
    exact List.getD_append _ _ _ _ (by omega)
  · refine wordAt_of_leBytes fun j hj => ?_
    have hpos : 4 * (2 * (i + 1) + 1) + j = 8 * (i + 1) + (4 + j) := by omega
    have hzero : ∀ j < 4, (List.replicate 4 (0 : Byte)).getD j 0 = (leBytes 4 (0 : BitVec 32).toNat).getD j 0 := by decide
    rw [hpos, packInode_getD i (by omega), h, ← hzero j hj]
    show (leBytes 4 v.toNat ++ List.replicate 4 0).getD (4 + j) 0 = _
    rw [List.getD_append_right _ _ _ _ (by omega), hlen, Nat.add_sub_cancel_left]

/-- The mode is in its place. -/
theorem info_packInode :
    (InodeRecord.read (bytesOf (packInode mode size parent extents ext))).info = (mode &&& 0o777).setWidth 64 <<< 8 := by
  have hbytes : ∀ i < 8, bytesOf (packInode mode size parent extents ext) (0 + i) =
      (leBytes 8 ((mode &&& 0o777).toNat <<< 8)).getD i 0 := by
    intro i hi
    rw [bytesOf, packInode_eq, List.getD_append _ _ _ _ (by simpa using hi), Nat.zero_add]
  show BitVec.ofNat 64 (leAt _ 0 8) = _
  rw [leAt_of_leBytes hbytes]
  apply BitVec.eq_of_toNat_eq
  have hmode : (mode &&& 0o777).toNat % 2 ^ 64 = (mode &&& 0o777).toNat := Nat.mod_eq_of_lt (by omega)
  rw [BitVec.toNat_ofNat, BitVec.toNat_shiftLeft, BitVec.toNat_setWidth, hmode]
  exact Nat.mod_mod_of_dvd _ (by decide)

/-- **What becomes of an inode**: from the length on, every other word is padding. -/
theorem read_packInode {r : InodeRecord} (hr : r = InodeRecord.read (bytesOf (packInode mode size parent extents ext))) :
    r.length = size ∧ r.parent = 0 ∧ r.body.nextExtent = parent ∧ r.body.nextFirstLevel = 0 ∧
      r.body.nextSecondLevel = extents ∧ r.body.firstLevelTable = 0 ∧ r.body.secondLevelTable = inodeDiskNpos ∧
        r.body.thirdLevelTable = 0 ∧ r.body.headerExtents 0 = ⟨inodeDiskNpos, 0⟩ := by
  subst hr
  have hword : ∀ {i : ℕ} {v : BitVec 32}, (inodeWords size parent extents ext)[i]? = some v →
      wordAt (bytesOf (packInode mode size parent extents ext)) (2 * (i + 1)) = v ∧
        wordAt (bytesOf (packInode mode size parent extents ext)) (2 * (i + 1) + 1) = 0 := wordAt_packInode
  obtain ⟨hsize, hzero⟩ := hword (i := 0) rfl
  obtain ⟨hparent, hzero₁⟩ := hword (i := 1) rfl
  obtain ⟨hextents, hzero₂⟩ := hword (i := 2) rfl
  obtain ⟨hnpos, hzero₃⟩ := hword (i := 3) rfl
  obtain ⟨hnpos', hzero₄⟩ := hword (i := 4) rfl
  refine ⟨hsize, hzero, hparent, hzero₁, hextents, hzero₂, hnpos, hzero₃, ?_⟩
  exact congrArg₂ InodeExtent.mk hnpos' hzero₄

end

theorem packDirent_eq (name : List Byte) (sector : BitVec 32) :
    packDirent name sector = fillText 32 name ++ (0 :: leBytes 4 sector.toNat ++ [0, 0, 0]) := by
  simp [packDirent, pack, Field.bytes, List.replicate]

/-- **What becomes of an entry**: its sector is read three bytes too far. -/
theorem readEntry_packDirent (name : EntryName) (sector : BitVec 32) :
    (∀ i < nameLength, (readEntry (bytesOf (packDirent name.chars sector)) 0).name i = bytesOf name.chars i) ∧
      (readEntry (bytesOf (packDirent name.chars sector)) 0).sector.toNat = sector.toNat / 2 ^ 24 := by
  have hlen : (fillText 32 name.chars).length = 32 := length_fillText _ _
  have hrest : ∀ i, bytesOf (packDirent name.chars sector) (32 + i) =
      (0 :: leBytes 4 sector.toNat ++ [0, 0, 0]).getD i 0 := by
    intro i
    rw [bytesOf, packDirent_eq, List.getD_append_right _ _ _ _ (by omega), hlen, Nat.add_sub_cancel_left]
  constructor
  · intro i hi
    show bytesOf (packDirent name.chars sector) (0 + i) = _
    rcases Nat.lt_or_ge i 32 with h | h
    · rw [Nat.zero_add, bytesOf, packDirent_eq, List.getD_append _ _ _ _ (by omega), getD_fillText h]
      rfl
    · obtain rfl : i = 32 := by
        unfold nameLength nameMax at hi
        omega
      have hname : bytesOf name.chars 32 = 0 := List.getD_eq_default _ _ name.length_le
      rw [hname]
      exact hrest 0
  · show (bytesOf _ (32 + 7) ++ bytesOf _ (32 + 6) ++ bytesOf _ (32 + 5) ++ bytesOf _ (32 + 4)).toNat = _
    simp only [hrest]
    have hzero : ∀ x : Byte, ((0 : Byte) ++ (0 : Byte) ++ (0 : Byte) ++ x).toNat = x.toNat := by decide
    have hlt := sector.isLt
    refine (hzero _).trans ?_
    simp [leBytes]
    omega

/-- **The format.**  For all inputs the kernel does not read the inode that was written, and it reads the entry that was
written if and only if that is for sector 0. -/
theorem disk_format_wrong (mode size parent extents sector : BitVec 32) (ext : InodeExtent) (name : EntryName) :
    ¬ InodeAgrees mode size parent extents ext (InodeRecord.read (bytesOf (packInode mode size parent extents ext))) ∧
      (DirentAgrees name.chars sector (readEntry (bytesOf (packDirent name.chars sector)) 0) ↔ sector = 0) := by
  constructor
  · intro h
    obtain ⟨-, -, -, hlevel, -⟩ :=
      read_packInode (r := InodeRecord.read (bytesOf (packInode mode size parent extents ext))) rfl
    exact absurd (hlevel.symm.trans h.nextFirstLevel) (by decide)
  · obtain ⟨hname, hsector⟩ := readEntry_packDirent name sector
    have hlt := sector.isLt
    constructor
    · rintro ⟨-, h⟩
      rw [h] at hsector
      exact BitVec.eq_of_toNat_eq (by simp; omega)
    · rintro rfl
      exact ⟨hname, BitVec.eq_of_toNat_eq (by simpa using hsector)⟩

/-- An empty file in the root directory.  The kernel takes `next_first_level` from the padding, as 0. -/
theorem inode_misread : let r := InodeRecord.read (bytesOf (packInode 0o644 0 1 0 ⟨0, 0⟩))
    r.body.nextFirstLevel = 0 ∧ r.parent = 0 ∧ ¬ InodeAgrees 0o644 0 1 0 ⟨0, 0⟩ r := by
  intro r
  refine ⟨rfl, rfl, fun h => ?_⟩
  exact absurd h.nextFirstLevel (by decide)

end Dunkos
