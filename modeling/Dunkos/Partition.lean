import Dunkos.BlockDevice
import Dunkos.Mkusr
import Mathlib.Algebra.Order.Floor.Semifield
import Mathlib.Data.Nat.Cast.Field
import Mathlib.Data.Rat.Floor
import Mathlib.Tactic.NormNum
import Mathlib.Tactic.Ring

/-! # The partitions of the disk (`block.c`, `tools/mkusr`)

The header says where the file system and the swap area begin and how long they are.  `mkusr` writes the blocks behind the
end of each where `init_block_devices` expects their number, so the areas always overlap as the header has them.
`partition_sound_iff` says when they do not in the 32 bits that the kernel keeps. -/

namespace Dunkos

open Pack Function

/-! ### What `mkusr` writes -/

/-- `%unit_mappings`. -/
inductive SizeUnit where
  | K
  | M
  | G
deriving DecidableEq, Repr

def SizeUnit.bytes : SizeUnit → ℕ
  | K => 0x400
  | M => 0x100000
  | G => 0x40000000

/-! A number of `--size` is any number of digits, so every `$num` is accepted.  Perl's numbers are not integers here, as
only `ddir` has `use integer`; they are taken without the error of those with more than 53 bits. -/

def dskblocks (num : ℕ) (unit : SizeUnit) : ℚ := num * unit.bytes / 512

def swapblocks (num : ℕ) (unit : SizeUnit) : ℚ := dskblocks num unit / 4

def fsblocks (num : ℕ) (unit : SizeUnit) : ℚ := dskblocks num unit - swapblocks num unit - 1

/-- The number that `pack "Q"` makes of one that is not negative. -/
def packQ (q : ℚ) : ℕ := min ⌊q⌋₊ (2 ^ 64 - 1)

def sizedImage (num : ℕ) (unit : SizeUnit) : Image :=
  headerImage (packQ (dskblocks num unit)) (packQ (fsblocks num unit + 1)) (packQ (fsblocks num unit + 1))
    (packQ (fsblocks num unit + swapblocks num unit + 1))

/-- The whole image: without `--root` it ends with the header. -/
def mkusr (num : ℕ) (unit : SizeUnit) (root : Option SourceDir) : Image :=
  match root with
  | none => sizedImage num unit
  | some root => (ddir root 1 (sizedImage num unit)).1

/-! ### What the kernel reads -/

/-- `struct dunkos_image_header`. -/
structure ImageHeader where
  imageSize : BitVec 64
  fsBlockStart : BitVec 64
  fsBlockSize : BitVec 64
  swapBlockStart : BitVec 64
  swapBlockSize : BitVec 64
  magic : BitVec 64
deriving DecidableEq

def ImageHeader.read (b : ℕ → Byte) : ImageHeader where
  imageSize := BitVec.ofNat 64 (leAt b 0 8)
  fsBlockStart := BitVec.ofNat 64 (leAt b 8 8)
  fsBlockSize := BitVec.ofNat 64 (leAt b 16 8)
  swapBlockStart := BitVec.ofNat 64 (leAt b 24 8)
  swapBlockSize := BitVec.ofNat 64 (leAt b 32 8)
  magic := BitVec.ofNat 64 (leAt b 40 8)

/-- `DUNKOS_MAGIK`, the bytes of `"DunkOS!"` from the last to the first. -/
def dunkosMagik : BitVec 64 := 0x0021534f6b6e7544

/-- `init_block_devices`, and whether its assertion held.  The devices are in static storage. -/
def initBlockDevices (disk : SectorBytes) : BlockState × Bool :=
  let hdr := ImageHeader.read (ideReadSectors disk 0 1 fun _ => 0)
  let devices : BlockType → Block := fun _ => ⟨0, 0, fun _ => 0⟩
  let devices := update devices .fs ⟨hdr.fsBlockStart.setWidth 32, hdr.fsBlockSize.setWidth 32, fun _ => 0⟩
  let devices := update devices .swap ⟨hdr.swapBlockStart.setWidth 32, hdr.swapBlockSize.setWidth 32, fun _ => 0⟩
  (⟨disk, devices⟩, hdr.magic == dunkosMagik)

/-- The sectors of an image. -/
def Image.sectors (img : Image) : SectorBytes := fun sector j => img.bytes (512 * sector + j)

/-! ### Sound partitions -/

/-- The two areas leave block 0 alone, and each other, and end by the end of the disk. -/
structure LayoutSound (imageSize : ℕ) (fs swap : Extent) : Prop where
  fsZero : ¬ fs.Covers 0
  swapZero : ¬ swap.Covers 0
  apart : fs.Apart swap
  fsEnd : fs.start + fs.len ≤ imageSize
  swapEnd : swap.start + swap.len ≤ imageSize

def ImageHeader.fs (hdr : ImageHeader) : Extent := ⟨hdr.fsBlockStart.toNat, hdr.fsBlockSize.toNat⟩

def ImageHeader.swap (hdr : ImageHeader) : Extent := ⟨hdr.swapBlockStart.toNat, hdr.swapBlockSize.toNat⟩

/-- The blocks of a device. -/
def BlockState.extent (s : BlockState) (b : BlockType) : Extent := ⟨(s.blockDevices b).start.toNat, (s.blockDevices b).size.toNat⟩

theorem packHeader_eq (imageSize fsBlockSize swapBlockStart swapBlockSize : ℕ) :
    packHeader imageSize fsBlockSize swapBlockStart swapBlockSize =
      [imageSize, 1, fsBlockSize, swapBlockStart, swapBlockSize].flatMap (leBytes 8) ++
        (fillText 8 [0x44, 0x75, 0x6e, 0x6b, 0x4f, 0x53, 0x21] ++ List.replicate 464 0) := by
  simp [packHeader, pack, Field.bytes, -List.reduceReplicate]

section
variable {imageSize fsBlockSize swapBlockStart swapBlockSize : ℕ} {b : ℕ → Byte}

theorem leAt_packHeader
    (h : ∀ i < 512, b i = bytesOf (packHeader imageSize fsBlockSize swapBlockStart swapBlockSize) i) {i v : ℕ}
    (hv : [imageSize, 1, fsBlockSize, swapBlockStart, swapBlockSize][i]? = some v) : leAt b (8 * i) 8 = v % 2 ^ 64 := by
  have hi : i < 5 := (List.getElem?_eq_some_iff.mp hv).1
  refine leAt_of_leBytes fun j hj => ?_
  have hlen : ([imageSize, 1, fsBlockSize, swapBlockStart, swapBlockSize].flatMap (leBytes 8)).length = 40 := by simp
  rw [h _ (by omega), bytesOf, packHeader_eq, List.getD_append _ _ _ _ (by omega),
    getD_flatMap (fun v => length_leBytes 8 v) hj, hv]
  rfl

/-- The header is read as it was written. -/
theorem read_packHeader
    (h : ∀ i < 512, b i = bytesOf (packHeader imageSize fsBlockSize swapBlockStart swapBlockSize) i) :
    ImageHeader.read b = ⟨BitVec.ofNat 64 imageSize, 1, BitVec.ofNat 64 fsBlockSize, BitVec.ofNat 64 swapBlockStart,
      BitVec.ofNat 64 swapBlockSize, dunkosMagik⟩ := by
  have hword : ∀ {i v : ℕ}, [imageSize, 1, fsBlockSize, swapBlockStart, swapBlockSize][i]? = some v →
      BitVec.ofNat 64 (leAt b (8 * i) 8) = BitVec.ofNat 64 v := by
    intro i v hv
    rw [leAt_packHeader h hv]
    exact BitVec.eq_of_toNat_eq (by simp)
  have hmagic : BitVec.ofNat 64 (leAt b 40 8) = dunkosMagik := by
    have hbytes : ∀ j < 8, b (40 + j) = (leBytes 8 dunkosMagik.toNat).getD j 0 := by
      intro j hj
      have hlen : ([imageSize, 1, fsBlockSize, swapBlockStart, swapBlockSize].flatMap (leBytes 8)).length = 40 := by simp
      rw [h _ (by omega), bytesOf, packHeader_eq, List.getD_append_right _ _ _ _ (by omega), hlen, Nat.add_sub_cancel_left,
        List.getD_append _ _ _ _ (by simpa using hj)]
      revert j
      decide
    rw [leAt_of_leBytes hbytes]
    rfl
  have hsize : BitVec.ofNat 64 (leAt b 0 8) = BitVec.ofNat 64 imageSize := hword (i := 0) rfl
  have hfsStart : BitVec.ofNat 64 (leAt b 8 8) = BitVec.ofNat 64 1 := hword (i := 1) rfl
  have hfsSize : BitVec.ofNat 64 (leAt b 16 8) = BitVec.ofNat 64 fsBlockSize := hword (i := 2) rfl
  have hswapStart : BitVec.ofNat 64 (leAt b 24 8) = BitVec.ofNat 64 swapBlockStart := hword (i := 3) rfl
  have hswapSize : BitVec.ofNat 64 (leAt b 32 8) = BitVec.ofNat 64 swapBlockSize := hword (i := 4) rfl
  rw [ImageHeader.read, hmagic, hsize, hfsStart, hfsSize, hswapStart, hswapSize]
  rfl

end

/-! ### The numbers of the header -/

/-- The blocks of the disk. -/
def blockCount (num : ℕ) (unit : SizeUnit) : ℕ := num * unit.bytes / 512

theorem dskblocks_eq (num : ℕ) (unit : SizeUnit) : dskblocks num unit = blockCount num unit := by
  have hdvd : 512 ∣ num * unit.bytes := Dvd.dvd.mul_left (by cases unit <;> decide) num
  rw [blockCount, Nat.cast_div hdvd (by norm_num), dskblocks]
  push_cast
  rfl

theorem packQ_dskblocks (num : ℕ) (unit : SizeUnit) :
    packQ (dskblocks num unit) = min (blockCount num unit) (2 ^ 64 - 1) := by
  rw [packQ, dskblocks_eq, Nat.floor_natCast]

theorem packQ_fsblocks (num : ℕ) (unit : SizeUnit) :
    packQ (fsblocks num unit + 1) = min (3 * blockCount num unit / 4) (2 ^ 64 - 1) := by
  have hfs : fsblocks num unit + 1 = ((3 * blockCount num unit : ℕ) : ℚ) / (4 : ℕ) := by
    rw [fsblocks, swapblocks, dskblocks_eq]
    push_cast
    ring
  rw [packQ, hfs, Nat.floor_div_eq_div]

/-- The end of the swap area is the end of the disk, exactly. -/
theorem packQ_swapblocks (num : ℕ) (unit : SizeUnit) :
    packQ (fsblocks num unit + swapblocks num unit + 1) = min (blockCount num unit) (2 ^ 64 - 1) := by
  have hend : fsblocks num unit + swapblocks num unit + 1 = dskblocks num unit := by
    rw [fsblocks]
    ring
  rw [hend, packQ_dskblocks]

theorem mkusr_header (num : ℕ) (unit : SizeUnit) (root : Option SourceDir) {i : ℕ} (hi : i < 512) :
    (mkusr num unit root).bytes i = (sizedImage num unit).bytes i := by
  cases root with
  | none => rfl
  | some root =>
      have hpos : (sizedImage num unit).pos = 512 := (written_mkusrImage _ _ _ _ root).pos
      exact (ddir_wrote 512 1 root (sizedImage num unit)).frame i (Or.inl (by omega)) (Or.inl hi)

/-- What `init_block_devices` finds in block 0. -/
theorem read_mkusr (num : ℕ) (unit : SizeUnit) (root : Option SourceDir) :
    ImageHeader.read (ideReadSectors (mkusr num unit root).sectors 0 1 fun _ => 0) =
      ⟨BitVec.ofNat 64 (min (blockCount num unit) (2 ^ 64 - 1)), 1,
        BitVec.ofNat 64 (min (3 * blockCount num unit / 4) (2 ^ 64 - 1)),
        BitVec.ofNat 64 (min (3 * blockCount num unit / 4) (2 ^ 64 - 1)),
        BitVec.ofNat 64 (min (blockCount num unit) (2 ^ 64 - 1)), dunkosMagik⟩ := by
  rw [← packQ_fsblocks]
  nth_rewrite 2 [← packQ_swapblocks]
  rw [← packQ_dskblocks]
  refine read_packHeader fun i hi => ?_
  have hsector : i / 512 = 0 := Nat.div_eq_of_lt hi
  have hread : ideReadSectors (mkusr num unit root).sectors 0 1 (fun _ => 0) i = (mkusr num unit root).bytes i := by
    rw [ideReadSectors, hsector, if_pos (by decide)]
    show (mkusr num unit root).bytes (512 * (0 + 0) + i % 512) = _
    rw [Nat.mod_eq_of_lt hi, Nat.zero_add]
  rw [hread, mkusr_header num unit root hi]
  exact headerImage_at _ _ _ _ hi

/-! ### When the partitions are sound -/

/-- Two areas as `mkusr` writes them, where the second begins with the last block of the first: they are sound when the
second is empty. -/
theorem layoutSound_iff {imageSize f e : ℕ} : LayoutSound imageSize ⟨1, f⟩ ⟨f, e⟩ ↔ e = 0 ∧ 1 + f ≤ imageSize := by
  constructor
  · intro h
    refine ⟨?_, h.fsEnd⟩
    by_contra he
    have hswap := h.swapZero
    simp only [Extent.covers_mk] at hswap
    refine h.apart f ?_ ?_
    · rw [Extent.covers_mk]
      omega
    · rw [Extent.covers_mk]
      omega
  · rintro ⟨rfl, hend⟩
    refine ⟨?_, ?_, fun i _ hi => ?_, hend, ?_⟩
    · simp
    · simp
    · rw [Extent.covers_mk] at hi
      omega
    · dsimp only
      omega

section
variable (disk : SectorBytes)

theorem extent_fs : (initBlockDevices disk).1.extent .fs =
    ⟨(ImageHeader.read (ideReadSectors disk 0 1 fun _ => 0)).fsBlockStart.toNat % 2 ^ 32,
      (ImageHeader.read (ideReadSectors disk 0 1 fun _ => 0)).fsBlockSize.toNat % 2 ^ 32⟩ := by
  have hne : BlockType.fs ≠ .swap := by decide
  simp only [initBlockDevices, BlockState.extent, update_of_ne hne, update_self, BitVec.toNat_setWidth]

theorem extent_swap : (initBlockDevices disk).1.extent .swap =
    ⟨(ImageHeader.read (ideReadSectors disk 0 1 fun _ => 0)).swapBlockStart.toNat % 2 ^ 32,
      (ImageHeader.read (ideReadSectors disk 0 1 fun _ => 0)).swapBlockSize.toNat % 2 ^ 32⟩ := by
  simp only [initBlockDevices, BlockState.extent, update_self, BitVec.toNat_setWidth]

end

/-- **The partitions**.  As the header has them they are never sound.  As the kernel's devices they are sound exactly when
the disk has a positive multiple of 2^32 blocks, below 2^64: the swap device has no blocks then. -/
theorem partition_sound_iff (num : ℕ) (unit : SizeUnit) (root : Option SourceDir) :
    let disk := (mkusr num unit root).sectors
    let hdr := ImageHeader.read (ideReadSectors disk 0 1 fun _ => 0)
    let s := (initBlockDevices disk).1
    ¬ LayoutSound hdr.imageSize.toNat hdr.fs hdr.swap ∧
      (LayoutSound hdr.imageSize.toNat (s.extent .fs) (s.extent .swap) ↔
        0 < blockCount num unit ∧ 2 ^ 32 ∣ blockCount num unit ∧ blockCount num unit < 2 ^ 64) := by
  intro disk hdr s
  have hhdr : hdr = _ := read_mkusr num unit root
  rw [extent_fs, extent_swap]
  change ¬ LayoutSound hdr.imageSize.toNat ⟨hdr.fsBlockStart.toNat, hdr.fsBlockSize.toNat⟩
      ⟨hdr.swapBlockStart.toNat, hdr.swapBlockSize.toNat⟩ ∧
    (LayoutSound hdr.imageSize.toNat ⟨hdr.fsBlockStart.toNat % 2 ^ 32, hdr.fsBlockSize.toNat % 2 ^ 32⟩
      ⟨hdr.swapBlockStart.toNat % 2 ^ 32, hdr.swapBlockSize.toNat % 2 ^ 32⟩ ↔ _)
  rw [hhdr]
  generalize blockCount num unit = D
  have hD : (BitVec.ofNat 64 (min D (2 ^ 64 - 1))).toNat = min D (2 ^ 64 - 1) := Nat.mod_eq_of_lt (by omega)
  have hf : (BitVec.ofNat 64 (min (3 * D / 4) (2 ^ 64 - 1))).toNat = min (3 * D / 4) (2 ^ 64 - 1) :=
    Nat.mod_eq_of_lt (by omega)
  have hone : (1 : BitVec 64).toNat = 1 := rfl
  simp only [hD, hf, hone]
  constructor
  · rw [layoutSound_iff]
    omega
  · rw [Nat.mod_eq_of_lt (show 1 < 2 ^ 32 by decide), layoutSound_iff]
    omega

/-- The image of `--size 64M`: the last block of the file system is the first of the swap area, which ends behind the
disk. -/
theorem partitions_overlap : let disk := (mkusr 64 .M none).sectors
    let s := (initBlockDevices disk).1
    s.extent .fs = ⟨1, 98304⟩ ∧ s.extent .swap = ⟨98304, 131072⟩ ∧ ¬ LayoutSound 131072 (s.extent .fs) (s.extent .swap) := by
  intro disk s
  have hhdr : ImageHeader.read (ideReadSectors disk 0 1 fun _ => 0) = _ := read_mkusr 64 .M none
  have hfs : s.extent .fs = ⟨1, 98304⟩ := by
    rw [extent_fs, hhdr]
    decide
  have hswap : s.extent .swap = ⟨98304, 131072⟩ := by
    rw [extent_swap, hhdr]
    decide
  refine ⟨hfs, hswap, ?_⟩
  rw [hfs, hswap, layoutSound_iff]
  decide

end Dunkos
