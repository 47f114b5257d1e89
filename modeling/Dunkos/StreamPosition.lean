import Dunkos.BlockTransfer
import Mathlib.Data.Finset.Card
import Mathlib.Order.Interval.Finset.Nat

/-! # Positions of streams (`filesys.c`)

`file_read` and `file_write` add what `block_read` and `block_write` return to the position of the stream.  These return what
is missing to a full sector at the end of the request, and not how much was transferred: `stream_position_iff` says for
which counts that is the same. -/

namespace Dunkos

namespace Stream

/-- `struct file`, without its inode and `is_directory`. -/
structure File where
  streampos : BitVec 64

/-! `inode_offset` returns the `result` of a local variable that nothing is stored to: the action `calcuate_offset` has no
statement that does.  So `result` is any number, whatever the position is. -/

def inodeReadAt (s : BlockState) (dest : ℕ → Byte) (result : BitVec 32) (count : BitVec 64) : BlockState × (ℕ → Byte) × ℕ :=
  s.blockRead .fs dest (result.setWidth 64) count

def inodeWriteAt (s : BlockState) (src : ℕ → Byte) (result : BitVec 32) (count : BitVec 64) : BlockState × ℕ :=
  s.blockWrite .fs src (result.setWidth 64) count

def fileReadAt (s : BlockState) (dest : ℕ → Byte) (_pos : BitVec 64) (result : BitVec 32) (count : BitVec 64) :
    BlockState × (ℕ → Byte) × BitVec 64 :=
  let r := inodeReadAt s dest result count
  (r.1, r.2.1, BitVec.ofNat 64 r.2.2)

def fileWriteAt (s : BlockState) (src : ℕ → Byte) (_pos : BitVec 64) (result : BitVec 32) (count : BitVec 64) :
    BlockState × BitVec 64 :=
  let r := inodeWriteAt s src result count
  (r.1, BitVec.ofNat 64 r.2)

/-- `file_read`, with what is then at `dest`, and what it returns. -/
def fileRead (s : BlockState) (f : File) (dest : ℕ → Byte) (result : BitVec 32) (count : BitVec 64) :
    BlockState × File × (ℕ → Byte) × BitVec 64 :=
  let r := fileReadAt s dest f.streampos result count
  (r.1, ⟨f.streampos + r.2.2⟩, r.2.1, r.2.2)

def fileWrite (s : BlockState) (f : File) (src : ℕ → Byte) (result : BitVec 32) (count : BitVec 64) :
    BlockState × File × BitVec 64 :=
  let r := fileWriteAt s src f.streampos result count
  (r.1, ⟨f.streampos + r.2⟩, r.2)

/-! ### What is transferred -/

/-- The number of full sectors, as the driver gets it. -/
def fullSectors (count : BitVec 64) : BitVec 32 := BitVec.ofNat 32 (count.toNat / 512)

/-- The bytes of the buffer that are transferred: those of the full sectors, and the rest behind them. -/
def movedBytes (count : BitVec 64) : Finset ℕ :=
  Finset.range (512 * (fullSectors count).toInt.toNat) ∪
    Finset.Ico (512 * (fullSectors count).toNat) (512 * (fullSectors count).toNat + count.toNat % 512)

/-- How many they are. -/
def moved (count : BitVec 64) : ℕ := (movedBytes count).card

section
variable {s : BlockState} {b : BlockType} {start count : BitVec 64} {dest src src' : ℕ → Byte}

theorem fullSectors_eq (count : BitVec 64) : BitVec.ofNat 32 (count.toNat / 512) = fullSectors count := rfl

theorem toInt_toNat_le (x : BitVec 32) : x.toInt.toNat ≤ x.toNat := by
  rw [BitVec.toInt_eq_toNat_cond]
  split_ifs <;> omega

theorem moved_eq (count : BitVec 64) : moved count = 512 * (fullSectors count).toInt.toNat + count.toNat % 512 := by
  have hle := toInt_toNat_le (fullSectors count)
  have hdisj : Disjoint (Finset.range (512 * (fullSectors count).toInt.toNat))
      (Finset.Ico (512 * (fullSectors count).toNat) (512 * (fullSectors count).toNat + count.toNat % 512)) := by
    rw [Finset.disjoint_left]
    intro k hk hk'
    rw [Finset.mem_range] at hk
    rw [Finset.mem_Ico] at hk'
    omega
  unfold moved movedBytes
  rw [Finset.card_union_of_disjoint hdisj, Finset.card_range, Nat.card_Ico]
  omega

theorem moved_le (count : BitVec 64) : moved count ≤ count.toNat := by
  have hle := toInt_toNat_le (fullSectors count)
  have hfull : (fullSectors count).toNat ≤ count.toNat / 512 := by
    rw [fullSectors, BitVec.toNat_ofNat]
    exact Nat.mod_le _ _
  rw [moved_eq]
  omega

theorem mem_movedBytes {k : ℕ} : k ∈ movedBytes count ↔ ((k / 512 : ℕ) : ℤ) < (fullSectors count).toInt ∨
    512 * (fullSectors count).toNat ≤ k ∧ k < 512 * (fullSectors count).toNat + count.toNat % 512 := by
  unfold movedBytes
  rw [Finset.mem_union, Finset.mem_range, Finset.mem_Ico]
  exact or_congr (by omega) Iff.rfl

/-- A read stores no other bytes. -/
theorem blockRead_of_not_moved {k : ℕ} (hk : k ∉ movedBytes count) : (s.blockRead b dest start count).2.1 k = dest k := by
  rw [mem_movedBytes, not_or] at hk
  rw [blockRead_apply dest (fullSectors_eq count), if_neg hk.2]
  exact if_neg hk.1

/-- It stores these: what was there before does not matter. -/
theorem blockRead_of_moved {dest' : ℕ → Byte} {k : ℕ} (hk : k ∈ movedBytes count) :
    (s.blockRead b dest start count).2.1 k = (s.blockRead b dest' start count).2.1 k := by
  rw [mem_movedBytes] at hk
  rw [blockRead_apply dest (fullSectors_eq count), blockRead_apply dest' (fullSectors_eq count)]
  split_ifs with hrest
  · rfl
  · have hfull := hk.resolve_right hrest
    exact (if_pos hfull).trans (if_pos hfull).symm

theorem ideWriteSectors_congr {disk disk' : SectorBytes} {first sectors : BitVec 32} {sector j : ℕ}
    (hdisk : disk sector j = disk' sector j)
    (h : first.toNat ≤ sector → (sector : ℤ) < first.toNat + sectors.toInt →
      src (512 * (sector - first.toNat) + j) = src' (512 * (sector - first.toNat) + j)) :
    ideWriteSectors disk first sectors src sector j = ideWriteSectors disk' first sectors src' sector j := by
  unfold ideWriteSectors
  split_ifs with hin
  · exact h hin.1 hin.2
  · exact hdisk

/-- A write takes no other bytes. -/
theorem blockWrite_congr (h : ∀ k ∈ movedBytes count, src k = src' k) {sector j : ℕ} (hj : j < 512) :
    (s.blockWrite b src start count).1.disk sector j = (s.blockWrite b src' start count).1.disk sector j := by
  have hfull : ideWriteSectors s.disk (s.sectorStart b start) (fullSectors count) src sector j =
      ideWriteSectors s.disk (s.sectorStart b start) (fullSectors count) src' sector j := by
    refine ideWriteSectors_congr rfl fun hge hlt => h _ (mem_movedBytes.mpr (.inl ?_))
    omega
  unfold fullSectors at hfull
  unfold BlockState.blockWrite
  dsimp only
  split_ifs with hrem
  · refine ideWriteSectors_congr hfull fun hge hlt => ?_
    unfold memcpyAt
    split_ifs with hin
    · refine h _ (mem_movedBytes.mpr (.inr ?_))
      unfold fullSectors
      omega
    · rfl
  · exact hfull

end

/-! ### Calls one after the other -/

/-- A call, with its buffer and the `result` that it finds. -/
inductive FileCall where
  | read (dest : ℕ → Byte) (result : BitVec 32) (count : BitVec 64)
  | write (src : ℕ → Byte) (result : BitVec 32) (count : BitVec 64)

structure StreamState where
  blocks : BlockState
  file : File

namespace FileCall

def count : FileCall → BitVec 64
  | read _ _ count => count
  | write _ _ count => count

/-- The state after the call, and what it returns. -/
def apply (t : StreamState) : FileCall → StreamState × BitVec 64
  | read dest result count =>
      let r := fileRead t.blocks t.file dest result count
      (⟨r.1, r.2.1⟩, r.2.2.2)
  | write src result count =>
      let r := fileWrite t.blocks t.file src result count
      (⟨r.1, r.2.1⟩, r.2.2)

end FileCall

/-- A call that was made: the position before it, its count, and what it returned. -/
structure Record where
  pos : BitVec 64
  count : BitVec 64
  returned : BitVec 64

/-- The calls of a run, and the state at its end. -/
def run (t : StreamState) : List FileCall → List Record × StreamState
  | [] => ([], t)
  | c :: cs =>
      let r := c.apply t
      let rest := run r.1 cs
      (⟨t.file.streampos, c.count, r.2⟩ :: rest.1, rest.2)

/-- The calls cover one range of the file after the other, from `first` to `last`. -/
def Consecutive : ℤ → List Record → ℤ → Prop
  | first, [], last => first = last
  | first, r :: rs, last => r.pos.toInt = first ∧ Consecutive (first + moved r.count) rs last

/-- All calls return what they transferred, and the position is behind it. -/
structure PositionRight (t : StreamState) (calls : List FileCall) : Prop where
  returned : ∀ r ∈ (run t calls).1, r.returned.toInt = moved r.count ∧ moved r.count ≤ r.count.toNat
  position : (run t calls).2.file.streampos.toInt = t.file.streampos.toInt + (calls.map fun c => moved c.count).sum
  ranges : Consecutive t.file.streampos.toInt (run t calls).1 (run t calls).2.file.streampos.toInt

/-- Half a sector or a whole one.  For counts of 2^40 bytes and more it is what is left of the number of sectors that
matters. -/
def HalfOrWhole (count : BitVec 64) : Prop :=
  count.toNat % 512 = 256 ∧ (fullSectors count).toInt ≤ 0 ∨ count.toNat % 512 = 0 ∧ fullSectors count = 1

section
variable {t : StreamState} {c : FileCall} {cs : List FileCall}

/-- What a call returns, and where the position is then. -/
theorem FileCall.apply_eq (c : FileCall) : (c.apply t).2 = BitVec.ofNat 64 (blockResult c.count.toNat) ∧
    (c.apply t).1.file.streampos = t.file.streampos + BitVec.ofNat 64 (blockResult c.count.toNat) := by
  cases c with
  | read dest result count =>
      have hres : (t.blocks.blockRead .fs dest (result.setWidth 64) count).2.2 = blockResult count.toNat := by
        unfold BlockState.blockRead
        dsimp only
        split_ifs <;> rfl
      simp only [apply, fileRead, fileReadAt, inodeReadAt, hres, FileCall.count, and_self]
  | write src result count =>
      have hres : (t.blocks.blockWrite .fs src (result.setWidth 64) count).2 = blockResult count.toNat := by
        unfold BlockState.blockWrite
        dsimp only
        split_ifs <;> rfl
      simp only [apply, fileWrite, fileWriteAt, inodeWriteAt, hres, FileCall.count, and_self]

theorem returned_toInt (count : BitVec 64) :
    (BitVec.ofNat 64 (blockResult count.toNat)).toInt = 512 - (count.toNat % 512 : ℕ) := by
  have hlt : blockResult count.toNat = 512 - count.toNat % 512 := rfl
  have hnat : (BitVec.ofNat 64 (blockResult count.toNat)).toNat = 512 - count.toNat % 512 := by
    rw [BitVec.toNat_ofNat]
    omega
  rw [BitVec.toInt_eq_toNat_of_lt (by omega), hnat]
  omega

/-- **One call** returns what it transferred for these counts only. -/
theorem returned_iff (count : BitVec 64) :
    (BitVec.ofNat 64 (blockResult count.toNat)).toInt = moved count ↔ HalfOrWhole count := by
  have hone : fullSectors count = 1 ↔ (fullSectors count).toInt = 1 :=
    ⟨fun h => by rw [h]; rfl, fun h => BitVec.eq_of_toInt_eq (h.trans rfl)⟩
  rw [returned_toInt, moved_eq, HalfOrWhole, hone]
  omega

theorem consecutive_first {first last : ℤ} (h : Consecutive first (run t cs).1 last)
    (hlast : last = (run t cs).2.file.streampos.toInt) : first = t.file.streampos.toInt := by
  cases cs with
  | nil => exact h.trans hlast
  | cons c cs => exact h.1.symm

/-- The next position, unless it passes the largest `off_t`. -/
theorem apply_streampos (hc : HalfOrWhole c.count) (hlt : t.file.streampos.toInt + moved c.count < 2 ^ 63) :
    (c.apply t).1.file.streampos.toInt = t.file.streampos.toInt + moved c.count := by
  have hge := BitVec.le_toInt t.file.streampos
  rw [c.apply_eq.2, BitVec.toInt_add, (returned_iff c.count).mpr hc]
  exact Int.bmod_eq_of_le (by omega) (by omega)

/-- **A step of a run.** -/
theorem positionRight_cons : PositionRight t (c :: cs) ↔
    HalfOrWhole c.count ∧ t.file.streampos.toInt + moved c.count < 2 ^ 63 ∧ PositionRight (c.apply t).1 cs := by
  constructor
  · rintro ⟨hret, hpos, -, hranges⟩
    obtain ⟨⟨hhead, -⟩, htail⟩ := List.forall_mem_cons.mp hret
    have hc : HalfOrWhole c.count := (returned_iff c.count).mp (c.apply_eq.1 ▸ hhead)
    have hnext := consecutive_first hranges rfl
    refine ⟨hc, ?_, htail, ?_, ?_⟩
    · rw [hnext]
      exact BitVec.toInt_lt
    · rw [List.map_cons, List.sum_cons, Nat.cast_add] at hpos
      rw [← hnext, Int.add_assoc]
      exact hpos
    · rw [← hnext]
      exact hranges
  · rintro ⟨hc, hlt, hret, hpos, hranges⟩
    have hnext := apply_streampos hc hlt
    refine ⟨List.forall_mem_cons.mpr ⟨⟨?_, moved_le c.count⟩, hret⟩, ?_, rfl, ?_⟩
    · rw [c.apply_eq.1]
      exact (returned_iff c.count).mpr hc
    · rw [hnext, Int.add_assoc] at hpos
      rw [List.map_cons, List.sum_cons, Nat.cast_add]
      exact hpos
    · rw [← hnext]
      exact hranges

/-- **Positions of streams.**  In a sequence of `file_read` and `file_write` every call returns the bytes that it
transferred and the position goes behind them, if and only if the counts are of half a sector or of a whole one, and the
position does not pass the largest `off_t`. -/
theorem stream_position_iff (t : StreamState) (calls : List FileCall) : PositionRight t calls ↔
    (∀ c ∈ calls, HalfOrWhole c.count) ∧
      t.file.streampos.toInt + (calls.map fun c => moved c.count).sum < 2 ^ 63 := by
  induction calls generalizing t with
  | nil =>
      refine iff_of_true ⟨List.forall_mem_nil _, ?_, rfl⟩ ⟨List.forall_mem_nil _, ?_⟩
      · simp [run]
      · rw [List.map_nil, List.sum_nil, Nat.cast_zero, Int.add_zero]
        exact BitVec.toInt_lt
  | cons c cs ih =>
      rw [positionRight_cons, ih, List.forall_mem_cons, List.map_cons, List.sum_cons, Nat.cast_add]
      constructor
      · rintro ⟨hc, hlt, hcs, hsum⟩
        rw [apply_streampos hc hlt] at hsum
        exact ⟨⟨hc, hcs⟩, by omega⟩
      · rintro ⟨⟨hc, hcs⟩, hsum⟩
        have hlt : t.file.streampos.toInt + moved c.count < 2 ^ 63 := by omega
        refine ⟨hc, hlt, hcs, ?_⟩
        rw [apply_streampos hc hlt]
        omega

/-- Forty bytes are read from the beginning of a file, and 472 are returned. -/
theorem stream_position_forty :
    (run ⟨onesState, ⟨0⟩⟩ [.read (fun _ => 0) 0 40]).1 = [⟨0, 40, 472⟩] ∧ moved 40 = 40 ∧
      ¬ PositionRight ⟨onesState, ⟨0⟩⟩ [.read (fun _ => 0) 0 40] := by
  refine ⟨rfl, by rw [moved_eq]; rfl, fun h => ?_⟩
  have hret := (h.returned ⟨0, 40, 472⟩ List.mem_cons_self).1
  rw [moved_eq] at hret
  exact absurd hret (by decide)

end

end Stream

end Dunkos
