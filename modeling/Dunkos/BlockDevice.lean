import Dunkos.Directory
import Dunkos.Lib.Reach

/-! # Block devices (`block.c`)

`block_write` sends the bytes of a last sector that is not full through the `remainder` of the device, and with them what
earlier calls left behind them there.  `block_isolation` says that writes change nothing else as long as that is what
their sectors hold already.  `ide_read_sectors` and `ide_write_sectors` are taken to transfer the sectors named, none for a
negative number of them. -/

namespace Dunkos

open Function Transition

/-- `enum block_type`. -/
inductive BlockType where
  | kernel
  | fs
  | swap
  | journal
deriving DecidableEq, Repr

/-- The bytes of every sector; a sector has 512. -/
abbrev SectorBytes := ℕ → ℕ → Byte

/-- `struct block`, without its name and its lock. -/
structure Block where
  start : BitVec 32
  size : BitVec 32
  remainder : ℕ → Byte

structure BlockState where
  disk : SectorBytes
  blockDevices : BlockType → Block

/-- `ide_read_sectors`: what is then at `dest`. -/
def ideReadSectors (disk : SectorBytes) (start sectors : BitVec 32) (dest : ℕ → Byte) : ℕ → Byte := fun k =>
  if ((k / 512 : ℕ) : ℤ) < sectors.toInt then disk (start.toNat + k / 512) (k % 512) else dest k

def ideWriteSectors (disk : SectorBytes) (start sectors : BitVec 32) (src : ℕ → Byte) : SectorBytes := fun sector j =>
  if start.toNat ≤ sector ∧ (sector : ℤ) < start.toNat + sectors.toInt then src (512 * (sector - start.toNat) + j)
  else disk sector j

/-- `memcpy(dest + at, src, n)`. -/
def memcpyAt (dest : ℕ → Byte) (pos : ℕ) (src : ℕ → Byte) (n : ℕ) : ℕ → Byte := fun k =>
  if pos ≤ k ∧ k < pos + n then src (k - pos) else dest k

namespace BlockState
variable (s : BlockState)

/-- `b->start + (uint32_t)start`. -/
def sectorStart (b : BlockType) (start : BitVec 64) : BitVec 32 := (s.blockDevices b).start + start.setWidth 32

def setRemainder (b : BlockType) (remainder : ℕ → Byte) : BlockState :=
  { s with blockDevices := update s.blockDevices b { s.blockDevices b with remainder := remainder } }

/-- `block_read`, with what is then at `dest`. -/
def blockRead (b : BlockType) (dest : ℕ → Byte) (start bytes : BitVec 64) : BlockState × (ℕ → Byte) × ℕ :=
  let sectorStart := s.sectorStart b start
  let sectors := BitVec.ofNat 32 (bytes.toNat / 512)
  let rem := bytes.toNat % 512
  let dest := ideReadSectors s.disk sectorStart sectors dest
  if rem ≠ 0 then
    let remainder := ideReadSectors s.disk (sectorStart + sectors) 1 (s.blockDevices b).remainder
    (s.setRemainder b remainder, memcpyAt dest (512 * sectors.toNat) remainder rem, blockResult bytes.toNat)
  else (s, dest, blockResult bytes.toNat)

def blockWrite (b : BlockType) (src : ℕ → Byte) (start bytes : BitVec 64) : BlockState × ℕ :=
  let sectorStart := s.sectorStart b start
  let sectors := BitVec.ofNat 32 (bytes.toNat / 512)
  let rem := bytes.toNat % 512
  let disk := ideWriteSectors s.disk sectorStart sectors src
  if rem ≠ 0 then
    let remainder := memcpyAt (s.blockDevices b).remainder 0 (fun k => src (512 * sectors.toNat + k)) rem
    let disk := ideWriteSectors disk (sectorStart + sectors) 1 remainder
    ({ s.setRemainder b remainder with disk := disk }, blockResult bytes.toNat)
  else ({ s with disk := disk }, blockResult bytes.toNat)

/-- The first byte of the disk that a request names. -/
def firstByte (b : BlockType) (start : BitVec 64) : ℕ := 512 * ((s.blockDevices b).start.toNat + start.toNat)

end BlockState

/-! ### Isolation -/

inductive BlockOp where
  | read (b : BlockType) (dest : ℕ → Byte) (start bytes : BitVec 64)
  | write (b : BlockType) (src : ℕ → Byte) (start bytes : BitVec 64)

/-- A call: what was on the disk before and after it, and which bytes it may change. -/
structure Transfer where
  before : SectorBytes
  after : SectorBytes
  first : ℕ
  bytes : ℕ

/-- The other bytes are as they were. -/
def Transfer.Isolated (t : Transfer) : Prop := ∀ sector j, j < 512 →
  ¬ (t.first ≤ 512 * sector + j ∧ 512 * sector + j < t.first + t.bytes) → t.after sector j = t.before sector j

namespace BlockOp

def apply (s : BlockState) : BlockOp → BlockState
  | read b dest start bytes => (s.blockRead b dest start bytes).1
  | write b src start bytes => (s.blockWrite b src start bytes).1

/-- A read may change nothing. -/
def transfer (s : BlockState) (op : BlockOp) : Transfer :=
  match op with
  | read .. => ⟨s.disk, (op.apply s).disk, 0, 0⟩
  | write b _ start bytes => ⟨s.disk, (op.apply s).disk, s.firstByte b start, bytes.toNat⟩

/-- The sectors of the request have numbers below 2^32. -/
def OnDisk (s : BlockState) : BlockOp → Prop
  | read .. => True
  | write b _ start bytes => bytes = 0 ∨ s.firstByte b start + bytes.toNat ≤ 512 * 2 ^ 32

/-- A last sector that is not full holds what the `remainder` has behind the bytes that are written. -/
def TailKept (s : BlockState) : BlockOp → Prop
  | read .. => True
  | write b _ start bytes => bytes.toNat % 512 ≠ 0 → ∀ j, bytes.toNat % 512 ≤ j → j < 512 →
      (s.blockDevices b).remainder j = s.disk ((s.firstByte b start + bytes.toNat) / 512) j

end BlockOp

/-- The state, and the calls so far. -/
structure BlockRun where
  st : BlockState
  history : List Transfer

def BlockOp.step (s : BlockRun) (op : BlockOp) : Option BlockRun := some ⟨op.apply s.st, op.transfer s.st :: s.history⟩

section
variable {s : BlockState} {b : BlockType} {src : ℕ → Byte} {start bytes : BitVec 64}

theorem ofNat_div_toInt_le (n : ℕ) : (BitVec.ofNat 32 n).toInt ≤ n := by
  have hlt : n % 2 ^ 32 ≤ n := Nat.mod_le _ _
  rw [BitVec.toInt_eq_toNat_cond, BitVec.toNat_ofNat]
  split_ifs <;> omega

/-- The full sectors of a request are among those it names. -/
theorem ideWriteSectors_of_not_named {disk : SectorBytes} {first sectors : BitVec 32} {n : ℕ} (hn : sectors.toInt ≤ n)
    {sector j : ℕ} (h : ¬ (first.toNat ≤ sector ∧ sector < first.toNat + n)) :
    ideWriteSectors disk first sectors src sector j = disk sector j := by
  refine if_neg fun hin => h ⟨hin.1, ?_⟩
  omega

theorem ideWriteSectors_one {disk : SectorBytes} {first : BitVec 32} {sector j : ℕ} :
    ideWriteSectors disk first 1 src sector j = if sector = first.toNat then src j else disk sector j := by
  have hone : (1 : BitVec 32).toInt = 1 := rfl
  unfold ideWriteSectors
  rw [hone]
  by_cases h : sector = first.toNat
  · subst h
    simp
  · rw [if_neg (by omega), if_neg h]

/-- A request on the disk: where it begins, and the sector behind its full ones. -/
theorem sectorStart_toNat (hb : bytes ≠ 0) (h : s.firstByte b start + bytes.toNat ≤ 512 * 2 ^ 32) :
    512 * (s.sectorStart b start).toNat = s.firstByte b start := by
  have hpos : bytes.toNat ≠ 0 := fun h₀ => hb (BitVec.eq_of_toNat_eq h₀)
  have hlt := (s.blockDevices b).start.isLt
  unfold BlockState.firstByte BlockState.sectorStart at *
  rw [BitVec.toNat_add, BitVec.toNat_setWidth]
  omega

theorem lastSector_toNat (hb : bytes.toNat % 512 ≠ 0) (h : s.firstByte b start + bytes.toNat ≤ 512 * 2 ^ 32) :
    (s.sectorStart b start + BitVec.ofNat 32 (bytes.toNat / 512)).toNat = (s.firstByte b start + bytes.toNat) / 512 := by
  have hne : bytes ≠ 0 := fun h₀ => hb (by simp [h₀])
  have hstart := sectorStart_toNat hne h
  rw [BitVec.toNat_add, BitVec.toNat_ofNat]
  omega

theorem blockWrite_disk_zero : (s.blockWrite b src start 0).1.disk = s.disk := by
  funext sector j
  exact if_neg fun h => absurd h.2 (by simp; omega)

/-- The disk after a write of full sectors. -/
theorem blockWrite_disk_full (hrem : bytes.toNat % 512 = 0) : (s.blockWrite b src start bytes).1.disk =
    ideWriteSectors s.disk (s.sectorStart b start) (BitVec.ofNat 32 (bytes.toNat / 512)) src := by
  simp [BlockState.blockWrite, hrem]

/-- The disk after a write that ends inside a sector, which gets the rest of the buffer. -/
theorem blockWrite_disk_rest (hrem : bytes.toNat % 512 ≠ 0) (h : s.firstByte b start + bytes.toNat ≤ 512 * 2 ^ 32)
    (sector j : ℕ) : (s.blockWrite b src start bytes).1.disk sector j =
      if sector = (s.firstByte b start + bytes.toNat) / 512 then
        memcpyAt (s.blockDevices b).remainder 0
          (fun k => src (512 * (BitVec.ofNat 32 (bytes.toNat / 512)).toNat + k)) (bytes.toNat % 512) j
      else ideWriteSectors s.disk (s.sectorStart b start) (BitVec.ofNat 32 (bytes.toNat / 512)) src sector j := by
  simp only [BlockState.blockWrite, hrem, ne_eq, not_false_eq_true, if_true]
  rw [ideWriteSectors_one, lastSector_toNat hrem h]

theorem blockWrite_isolated_of_full (hrem : bytes.toNat % 512 = 0)
    (h : s.firstByte b start + bytes.toNat ≤ 512 * 2 ^ 32) :
    (BlockOp.transfer s (.write b src start bytes)).Isolated := by
  intro sector j hj hout
  show (s.blockWrite b src start bytes).1.disk sector j = s.disk sector j
  rw [blockWrite_disk_full hrem]
  have hsectors := ofNat_div_toInt_le (bytes.toNat / 512)
  by_cases hb : bytes = 0
  · subst hb
    exact ideWriteSectors_of_not_named hsectors (by simp)
  · have hstart := sectorStart_toNat hb h
    refine ideWriteSectors_of_not_named hsectors fun hin => hout ?_
    simp only [BlockOp.transfer]
    omega

/-- **One write** on the disk. -/
theorem blockWrite_isolated_iff (h : BlockOp.OnDisk s (.write b src start bytes)) :
    (BlockOp.transfer s (.write b src start bytes)).Isolated ↔ BlockOp.TailKept s (.write b src start bytes) := by
  rcases h with rfl | h
  · refine iff_of_true (fun sector j _ _ => ?_) fun hrem => absurd rfl hrem
    exact congrFun (congrFun blockWrite_disk_zero sector) j
  by_cases hrem : bytes.toNat % 512 = 0
  · exact iff_of_true (blockWrite_isolated_of_full hrem h) fun hne => absurd hrem hne
  · have hne : bytes ≠ 0 := fun h₀ => hrem (by simp [h₀])
    have hstart := sectorStart_toNat hne h
    have htail : ∀ j, bytes.toNat % 512 ≤ j →
        (s.blockWrite b src start bytes).1.disk ((s.firstByte b start + bytes.toNat) / 512) j =
          (s.blockDevices b).remainder j := by
      intro j hj
      rw [blockWrite_disk_rest hrem h, if_pos rfl]
      exact if_neg (by omega)
    constructor
    · intro hiso _ j hj hj'
      rw [← htail j hj]
      refine hiso _ j hj' fun hin => ?_
      simp only [BlockOp.transfer] at hin
      omega
    · intro hkept sector j hj hout
      simp only [BlockOp.transfer] at hout
      show (s.blockWrite b src start bytes).1.disk sector j = s.disk sector j
      by_cases hsector : sector = (s.firstByte b start + bytes.toNat) / 512
      · subst hsector
        have hj' : bytes.toNat % 512 ≤ j := by omega
        rw [htail j hj']
        exact hkept hrem j hj' hj
      · rw [blockWrite_disk_rest hrem h, if_neg hsector]
        refine ideWriteSectors_of_not_named (ofNat_div_toInt_le _) fun hin => hout ?_
        omega

/-- A write of what has just been read keeps the tail. -/
theorem tailKept_read (dest : ℕ → Byte) (h : BlockOp.OnDisk s (.write b src start bytes)) :
    BlockOp.TailKept ((BlockOp.read b dest start bytes).apply s) (.write b src start bytes) := by
  intro hrem j hj hj'
  have hd : s.firstByte b start + bytes.toNat ≤ 512 * 2 ^ 32 := h.resolve_left fun h₀ => hrem (by simp [h₀])
  have hlast := lastSector_toNat hrem hd
  have hread : (BlockOp.read b dest start bytes).apply s = s.setRemainder b (ideReadSectors s.disk
      (s.sectorStart b start + BitVec.ofNat 32 (bytes.toNat / 512)) 1 (s.blockDevices b).remainder) := by
    simp [BlockOp.apply, BlockState.blockRead, hrem]
  have hfirst : (s.setRemainder b (ideReadSectors s.disk (s.sectorStart b start + BitVec.ofNat 32 (bytes.toNat / 512)) 1
      (s.blockDevices b).remainder)).firstByte b start = s.firstByte b start := by
    simp [BlockState.firstByte, BlockState.setRemainder]
  have hone : (1 : BitVec 32).toInt = 1 := rfl
  rw [hread, hfirst]
  simp only [BlockState.setRemainder, update_self, ideReadSectors, hone]
  rw [if_pos (by omega), hlast, Nat.div_eq_of_lt hj', Nat.mod_eq_of_lt hj', Nat.add_zero]

theorem transfer_isolated {op : BlockOp} (hd : op.OnDisk s) (ht : op.TailKept s) : (op.transfer s).Isolated := by
  cases op with
  | read b dest start bytes =>
      intro sector j _ _
      show (s.blockRead b dest start bytes).1.disk sector j = s.disk sector j
      unfold BlockState.blockRead
      dsimp only
      split_ifs <;> rfl
  | write b src start bytes => exact (blockWrite_isolated_iff hd).mpr ht

end

/-- **Isolation.**  In every run whose writes are on the disk and keep the tails of their sectors, every call leaves all
other bytes of the disk alone; and the next write on the disk does so only if it keeps the tail. -/
theorem block_isolation {st : BlockState} {s : BlockRun}
    (h : Reach BlockOp.step (fun s op => op.OnDisk s.st ∧ op.TailKept s.st) ⟨st, []⟩ s) :
    (∀ t ∈ s.history, t.Isolated) ∧ ∀ op : BlockOp, op.OnDisk s.st → ((op.transfer s.st).Isolated ↔ op.TailKept s.st) := by
  refine ⟨?_, fun op hop => ?_⟩
  · refine h.invariant (I := fun s : BlockRun => ∀ t ∈ s.history, t.Isolated) nofun fun s op s' hs hok hstep => ?_
    rw [← Option.some.inj hstep]
    exact List.forall_mem_cons.mpr ⟨transfer_isolated hok.1 hok.2, hs⟩
  · cases op with
    | read b dest start bytes => exact iff_of_true (transfer_isolated trivial trivial) trivial
    | write b src start bytes => exact blockWrite_isolated_iff hop

/-- Devices as `init_block_devices` leaves them, with a filesystem from sector 1 on, and a disk full of ones. -/
def onesState : BlockState := ⟨fun _ _ => 1, fun _ => ⟨1, 8, fun _ => 0⟩⟩

/-- Half a sector is read, and written. -/
theorem block_isolation_half : ∃ s : BlockRun, s.history.length = 2 ∧ ∀ t ∈ s.history, t.Isolated :=
  ⟨_, rfl, (block_isolation ((Reach.start.next (a := .read .fs (fun _ => 0) 0 256) ⟨trivial, trivial⟩ rfl).next
    (a := .write .fs (fun _ => 2) 0 256) ⟨.inr (by decide), tailKept_read _ (s := onesState) (.inr (by decide))⟩ rfl)).1⟩

/-- Forty bytes are written.  The rest of the sector is cleared. -/
theorem block_write_spills : ¬ (BlockOp.transfer onesState (.write .fs (fun _ => 2) 0 40)).Isolated := by
  intro h
  have hsame := h 1 40 (by decide) (by decide)
  exact absurd hsame (by decide)

end Dunkos
