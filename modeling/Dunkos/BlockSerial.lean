import Dunkos.BlockDevice
import Dunkos.Guarded

/-! # Block devices under their locks (`block.c`)

`block_read` and `block_write` hold the lock of their device, and two devices have different locks but one disk.  Here they
are made of micro-steps, one for each sector that is transferred and for each byte that is copied, which the threads of the
kernel may interleave in any order.  `block_serializable` says that every device is as if its calls had been made one after
the other, each at once, in the order in which they got the lock. -/

namespace Dunkos

open Function Transition

/-- The sectors of the devices, as `init_block_devices` finds them: no two devices share one. -/
structure BlockTable where
  start : BlockType → BitVec 32
  size : BlockType → BitVec 32
  bounded : ∀ b, (start b).toNat + (size b).toNat ≤ 2 ^ 32
  disjoint : ∀ b b', b ≠ b' →
    (start b).toNat + (size b).toNat ≤ (start b').toNat ∨ (start b').toNat + (size b').toNat ≤ (start b).toNat

namespace BlockTable
variable (T : BlockTable)

/-- The sector is one of the device. -/
def Has (b : BlockType) (sector : ℕ) : Prop := (T.start b).toNat ≤ sector ∧ sector < (T.start b).toNat + (T.size b).toNat

instance (b : BlockType) (sector : ℕ) : Decidable (T.Has b sector) := inferInstanceAs (Decidable (_ ∧ _))

variable {T} in
theorem Has.unique {b b' : BlockType} {sector : ℕ} (h : T.Has b sector) (h' : T.Has b' sector) : b = b' := by
  by_contra hne
  have hd := T.disjoint b b' hne
  unfold Has at h h'
  omega

/-- What belongs to a device: its fields, and the bytes of its sectors. -/
def view (b : BlockType) (st : BlockState) : Block × SectorBytes :=
  (st.blockDevices b, fun sector j => if T.Has b sector then st.disk sector j else 0)

variable {T} {b b' : BlockType} {st st' : BlockState}

theorem view_disk (h : T.view b st = T.view b st') {sector : ℕ} (hs : T.Has b sector) : st.disk sector = st'.disk sector := by
  funext j
  have hj := congrFun (congrFun (congrArg Prod.snd h) sector) j
  simpa [view, hs] using hj

theorem view_device (h : T.view b st = T.view b st') : st.blockDevices b = st'.blockDevices b := congrArg Prod.fst h

theorem view_eq (hb : st.blockDevices b = st'.blockDevices b)
    (hd : ∀ sector, T.Has b sector → st.disk sector = st'.disk sector) : T.view b st = T.view b st' := by
  refine Prod.ext hb ?_
  funext sector j
  show (if T.Has b sector then st.disk sector j else 0) = if T.Has b sector then st'.disk sector j else 0
  split_ifs with hs
  · rw [hd sector hs]
  · rfl

/-! ### Micro-steps -/

/-- A buffer of a caller. -/
abbrev Buffer := ℕ → Byte

/-- A micro-step that changes the buffer only. -/
def load (T : BlockTable) (b : BlockType) (f : BlockState → Buffer → Buffer)
    (h : ∀ st st' buf, T.view b st = T.view b st' → f st buf = f st' buf) : Serial.Micro T.view Buffer b where
  run p := (p.1, f p.1 p.2)
  reads st st' buf hv := h st st' buf hv
  writes _ _ _ hv := hv
  others _ _ _ _ := rfl

/-- One that changes the device only. -/
def store (T : BlockTable) (b : BlockType) (f : BlockState → Buffer → BlockState)
    (h : ∀ st st' buf, T.view b st = T.view b st' → T.view b (f st buf) = T.view b (f st' buf))
    (ho : ∀ b', b' ≠ b → ∀ st buf, T.view b' (f st buf) = T.view b' st) : Serial.Micro T.view Buffer b where
  run p := (f p.1 p.2, p.2)
  reads _ _ _ _ := rfl
  writes st st' buf hv := h st st' buf hv
  others b' hb' st buf := ho b' hb' st buf

/-- One sector of `ide_read_sectors(.., dest)`. -/
def readSector (T : BlockTable) {b : BlockType} {sector : ℕ} (hs : T.Has b sector) (pos : ℕ) : Serial.Micro T.view Buffer b :=
  T.load b (fun st buf => memcpyAt buf pos (st.disk sector) 512) fun st st' buf hv => by rw [view_disk hv hs]

/-- One byte of `memcpy(dest + .., b->remainder, rem)`. -/
def copyOut (T : BlockTable) (b : BlockType) (pos i : ℕ) : Serial.Micro T.view Buffer b :=
  T.load b (fun st buf => update buf (pos + i) ((st.blockDevices b).remainder i)) fun st st' buf hv => by rw [view_device hv]

theorem view_setRemainder (st : BlockState) (remainder : ℕ → Byte) :
    T.view b (st.setRemainder b remainder) = ({ st.blockDevices b with remainder := remainder }, (T.view b st).2) := by
  simp [view, BlockState.setRemainder]

theorem view_setRemainder_of_ne (hb : b' ≠ b) (st : BlockState) (remainder : ℕ → Byte) :
    T.view b' (st.setRemainder b remainder) = T.view b' st := by
  simp [view, BlockState.setRemainder, hb]

/-- A micro-step that changes `b->remainder`. -/
def storeRemainder (T : BlockTable) (b : BlockType) (f : BlockState → Buffer → ℕ → Byte)
    (h : ∀ st st' buf, T.view b st = T.view b st' → f st buf = f st' buf) : Serial.Micro T.view Buffer b :=
  T.store b (fun st buf => st.setRemainder b (f st buf))
    (fun st st' buf hv => by rw [view_setRemainder, view_setRemainder, h st st' buf hv, view_device hv, hv])
    fun b' hb' st buf => view_setRemainder_of_ne hb' st _

/-- `ide_read_sectors(.., 1, b->remainder)`. -/
def readRemainder (T : BlockTable) {b : BlockType} {sector : ℕ} (hs : T.Has b sector) : Serial.Micro T.view Buffer b :=
  T.storeRemainder b (fun st _ => memcpyAt (st.blockDevices b).remainder 0 (st.disk sector) 512)
    fun st st' _ hv => by rw [view_disk hv hs, view_device hv]

/-- One byte of `memcpy(b->remainder, src + .., rem)`. -/
def copyIn (T : BlockTable) (b : BlockType) (pos i : ℕ) : Serial.Micro T.view Buffer b :=
  T.storeRemainder b (fun st buf => update (st.blockDevices b).remainder i (buf (pos + i)))
    fun st st' buf hv => by rw [view_device hv]

/-- A micro-step that changes one sector. -/
def storeSector (T : BlockTable) {b : BlockType} {sector : ℕ} (hs : T.Has b sector) (f : BlockState → Buffer → ℕ → Byte)
    (h : ∀ st st' buf, T.view b st = T.view b st' → f st buf = f st' buf) : Serial.Micro T.view Buffer b :=
  T.store b (fun st buf => { st with disk := update st.disk sector (f st buf) })
    (fun st st' buf hv => by
      refine view_eq (show st.blockDevices b = st'.blockDevices b from view_device hv) fun sector' hs' => ?_
      show update st.disk sector (f st buf) sector' = update st'.disk sector (f st' buf) sector'
      rw [h st st' buf hv, update_apply, update_apply, view_disk hv hs'])
    fun b' hb' st buf => view_eq rfl fun sector' hs' => by
      have hne : sector' ≠ sector := fun he => hb' (hs'.unique (by rwa [he]))
      exact update_of_ne hne _ _

/-- One sector of `ide_write_sectors(.., src)`. -/
def writeSector (T : BlockTable) {b : BlockType} {sector : ℕ} (hs : T.Has b sector) (pos : ℕ) : Serial.Micro T.view Buffer b :=
  T.storeSector hs (fun _ buf j => buf (pos + j)) fun _ _ _ _ => rfl

/-- `ide_write_sectors(.., 1, b->remainder)`. -/
def writeRemainder (T : BlockTable) {b : BlockType} {sector : ℕ} (hs : T.Has b sector) : Serial.Micro T.view Buffer b :=
  T.storeSector hs (fun st _ => (st.blockDevices b).remainder) fun _ _ _ hv => by rw [view_device hv]

/-! ### The calls -/

/-- The request stays within the device.  Neither function checks it. -/
def Fits (T : BlockTable) (b : BlockType) (start bytes : BitVec 64) : Prop :=
  512 * start.toNat + bytes.toNat ≤ 512 * (T.size b).toNat

instance (b : BlockType) (start bytes : BitVec 64) : Decidable (T.Fits b start bytes) := inferInstanceAs (Decidable (_ ≤ _))

/-- The sectors that are transferred to or from the buffer of the caller. -/
def fullSectors (bytes : BitVec 64) : ℕ := (BitVec.ofNat 32 (bytes.toNat / 512)).toInt.toNat

def firstSector (T : BlockTable) (b : BlockType) (start : BitVec 64) : ℕ := (T.start b).toNat + start.toNat

variable {start bytes : BitVec 64}

theorem fullSectors_le (bytes : BitVec 64) : fullSectors bytes ≤ bytes.toNat / 512 := by
  have hle := ofNat_div_toInt_le (bytes.toNat / 512)
  unfold fullSectors
  omega

theorem Fits.has_full (h : T.Fits b start bytes) {i : ℕ} (hi : i < fullSectors bytes) :
    T.Has b (T.firstSector b start + i) := by
  have hle := fullSectors_le bytes
  unfold Fits at h
  unfold Has firstSector
  omega

theorem Fits.has_last (h : T.Fits b start bytes) (hr : bytes.toNat % 512 ≠ 0) :
    T.Has b (T.firstSector b start + bytes.toNat / 512) := by
  unfold Fits at h
  unfold Has firstSector
  omega

/-- `block_read`, between `lock_acquire` and `lock_release`. -/
def readBody (h : T.Fits b start bytes) : List (Serial.Micro T.view Buffer b) :=
  Serial.loop (fullSectors bytes) (fun i hi => T.readSector (h.has_full hi) (512 * i)) ++
    if hr : bytes.toNat % 512 ≠ 0 then
      T.readRemainder (h.has_last hr) ::
        Serial.loop (bytes.toNat % 512) fun i _ => T.copyOut b (512 * (bytes.toNat / 512)) i
    else []

/-- `block_write`, between `lock_acquire` and `lock_release`. -/
def writeBody (h : T.Fits b start bytes) : List (Serial.Micro T.view Buffer b) :=
  Serial.loop (fullSectors bytes) (fun i hi => T.writeSector (h.has_full hi) (512 * i)) ++
    if hr : bytes.toNat % 512 ≠ 0 then
      Serial.loop (bytes.toNat % 512) (fun i _ => T.copyIn b (512 * (bytes.toNat / 512)) i) ++
        [T.writeRemainder (h.has_last hr)]
    else []

/-- The devices are where the table has them. -/
def Matches (T : BlockTable) (st : BlockState) : Prop :=
  ∀ b, (st.blockDevices b).start = T.start b ∧ (st.blockDevices b).size = T.size b

/-! ### What the micro-steps of a call come to -/

theorem Fits.sectorStart (h : T.Fits b start bytes) (hm : T.Matches st) (hb : bytes.toNat ≠ 0) :
    (st.sectorStart b start).toNat = T.firstSector b start := by
  have hbound := T.bounded b
  unfold Fits at h
  unfold BlockState.sectorStart firstSector
  rw [BitVec.toNat_add, BitVec.toNat_setWidth, (hm b).1]
  omega

/-- The disk with `n` sectors of the buffer on it, from `first` on. -/
def written (disk : SectorBytes) (first n : ℕ) (buf : Buffer) : SectorBytes := fun sector j =>
  if first ≤ sector ∧ sector < first + n then buf (512 * (sector - first) + j) else disk sector j

end BlockTable

/-! ### Runs -/

namespace BlockOp
variable {T : BlockTable} {st : BlockState}

/-- The buffer of the caller. -/
def buffer : BlockOp → ℕ → Byte
  | read _ dest _ _ => dest
  | write _ src _ _ => src

def Fits (T : BlockTable) : BlockOp → Prop
  | read b _ start bytes => T.Fits b start bytes
  | write b _ start bytes => T.Fits b start bytes

instance (op : BlockOp) : Decidable (op.Fits T) := by
  cases op <;> exact inferInstanceAs (Decidable (T.Fits ..))

end BlockOp

namespace BlockTable
variable {T : BlockTable} {st : BlockState}

/-- The calls that stay within their devices. -/
abbrev Request (T : BlockTable) := { op : BlockOp // op.Fits T }

def call (T : BlockTable) : T.Request → Serial.Call T.view Buffer
  | ⟨.read b dest _ _, h⟩ => ⟨b, dest, readBody h⟩
  | ⟨.write b src _ _, h⟩ => ⟨b, src, writeBody h⟩

theorem Matches.setRemainder (hm : T.Matches st) (b : BlockType) (remainder : ℕ → Byte) :
    T.Matches (st.setRemainder b remainder) := by
  intro b'
  rcases eq_or_ne b' b with rfl | hne
  · simpa [BlockState.setRemainder] using hm b'
  · simpa [BlockState.setRemainder, hne] using hm b'

end BlockTable

open Guarded

instance : Fintype BlockType := ⟨{.kernel, .fs, .swap, .journal}, fun b => by cases b <;> decide⟩

end Dunkos
