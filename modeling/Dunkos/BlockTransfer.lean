import Dunkos.Partition

/-! # What a request transfers (`block.c`)

A request of `block_read` or `block_write` becomes one call of the driver for its full sectors, and one more for a last
sector that is not full.  `block_round_trip` says that what was written is read back whatever is done in between to other
sectors, through whichever device.  Nothing compares the request with the `size` of the device:
`block_confined_iff` says which requests stay in it. -/

namespace Dunkos

open Function

/-- A call of `ide_read_sectors` or of `ide_write_sectors`. -/
structure IdeCall where
  start : BitVec 32
  sectors : BitVec 32
deriving DecidableEq, Repr

/-- The sectors that the call names; `sectors` is an `int`. -/
def IdeCall.Names (c : IdeCall) (x : BitVec 32) : Prop := ∃ i : ℕ, (i : ℤ) < c.sectors.toInt ∧ x = c.start + BitVec.ofNat 32 i

namespace BlockState
variable (s : BlockState)

/-- The calls that `block_read` and `block_write` make. -/
def ideCalls (b : BlockType) (start bytes : BitVec 64) : List IdeCall :=
  let sectorStart := s.sectorStart b start
  let sectors := BitVec.ofNat 32 (bytes.toNat / 512)
  let rem := bytes.toNat % 512
  ⟨sectorStart, sectors⟩ :: if rem ≠ 0 then [⟨sectorStart + sectors, 1⟩] else []

/-- A sector of the request, one for each 512 bytes or less. -/
def Covers (b : BlockType) (start bytes : BitVec 64) (x : BitVec 32) : Prop :=
  ∃ i, 512 * i < bytes.toNat ∧ x = (s.blockDevices b).start + (start + BitVec.ofNat 64 i).setWidth 32

end BlockState

section
variable {s : BlockState} {b : BlockType} {start bytes : BitVec 64}

theorem sector_eq (i : ℕ) : (s.blockDevices b).start + (start + BitVec.ofNat 64 i).setWidth 32 =
    s.sectorStart b start + BitVec.ofNat 32 i := by
  apply BitVec.eq_of_toNat_eq
  simp only [BlockState.sectorStart, BitVec.toNat_add, BitVec.toNat_setWidth, BitVec.toNat_ofNat]
  omega

/-- A request transfers none but its own sectors. -/
theorem covers_of_named {c : IdeCall} {x : BitVec 32} (hc : c ∈ s.ideCalls b start bytes) (hx : c.Names x) :
    s.Covers b start bytes x := by
  obtain ⟨i, hi, rfl⟩ := hx
  simp only [BlockState.ideCalls, List.mem_cons] at hc
  rcases hc with rfl | hc
  · have hsectors := ofNat_div_toInt_le (bytes.toNat / 512)
    refine ⟨i, ?_, (sector_eq i).symm⟩
    dsimp only at hi
    omega
  · by_cases hrem : bytes.toNat % 512 = 0
    · simp [hrem] at hc
    · rw [if_pos hrem, List.mem_singleton] at hc
      subst hc
      have hone : (1 : BitVec 32).toInt = 1 := rfl
      have hi : i = 0 := by
        dsimp only at hi
        omega
      subst hi
      refine ⟨bytes.toNat / 512, by omega, ?_⟩
      rw [sector_eq]
      simp

theorem covers_congr {t : BlockState} (h : (t.blockDevices b).start = (s.blockDevices b).start) (x : BitVec 32) :
    t.Covers b start bytes x ↔ s.Covers b start bytes x := by
  unfold BlockState.Covers
  rw [h]

/-! ### What a request leaves alone -/

/-- The sectors of a call on a device. -/
def BlockOp.Covers (s : BlockState) (x : BitVec 32) : BlockOp → Prop
  | read b _ start bytes => s.Covers b start bytes x
  | write b _ start bytes => s.Covers b start bytes x

theorem setRemainder_start (b' : BlockType) (remainder : ℕ → Byte) :
    ((s.setRemainder b remainder).blockDevices b').start = (s.blockDevices b').start := by
  unfold BlockState.setRemainder
  by_cases h : b' = b
  · subst h
    simp
  · simp [h]

theorem apply_start (op : BlockOp) (b : BlockType) :
    ((op.apply s).blockDevices b).start = (s.blockDevices b).start := by
  cases op with
  | read b' dest start bytes =>
      simp only [BlockOp.apply, BlockState.blockRead]
      split_ifs
      · exact setRemainder_start b _
      · rfl
  | write b' src start bytes =>
      simp only [BlockOp.apply, BlockState.blockWrite]
      split_ifs
      · exact setRemainder_start b _
      · rfl

theorem ideWriteSectors_of_not_names {disk : SectorBytes} {src : ℕ → Byte} {c : IdeCall} {x : ℕ}
    (h : ¬ c.Names (BitVec.ofNat 32 x)) (j : ℕ) : ideWriteSectors disk c.start c.sectors src x j = disk x j := by
  refine if_neg fun hin => h ⟨x - c.start.toNat, by omega, ?_⟩
  apply BitVec.eq_of_toNat_eq
  rw [BitVec.toNat_add, BitVec.toNat_ofNat, BitVec.toNat_ofNat]
  omega

/-- **One call** leaves all sectors alone that it does not cover. -/
theorem apply_disk_of_not_covers {op : BlockOp} {x : ℕ} (h : ¬ op.Covers s (BitVec.ofNat 32 x)) (j : ℕ) :
    (op.apply s).disk x j = s.disk x j := by
  cases op with
  | read b dest start bytes =>
      simp only [BlockOp.apply, BlockState.blockRead]
      split_ifs <;> rfl
  | write b src start bytes =>
      have hcalls : ∀ c ∈ s.ideCalls b start bytes, ¬ c.Names (BitVec.ofNat 32 x) := fun c hc hn =>
        h (covers_of_named hc hn)
      simp only [BlockState.ideCalls] at hcalls
      simp only [BlockOp.apply, BlockState.blockWrite]
      split_ifs at hcalls ⊢
      · have hlast := hcalls _ (List.mem_cons_of_mem _ (List.mem_singleton_self _))
        have hfull := hcalls _ List.mem_cons_self
        exact (ideWriteSectors_of_not_names hlast j).trans (ideWriteSectors_of_not_names hfull j)
      · exact ideWriteSectors_of_not_names (hcalls _ (List.mem_singleton_self _)) j

theorem foldl_apply_start (ops : List BlockOp) (b : BlockType) :
    ((ops.foldl BlockOp.apply s).blockDevices b).start = (s.blockDevices b).start := by
  induction ops generalizing s with
  | nil => rfl
  | cons op ops ih => exact ih.trans (apply_start op b)

theorem BlockOp.covers_congr {t : BlockState} (h : ∀ b, (t.blockDevices b).start = (s.blockDevices b).start)
    (op : BlockOp) (x : BitVec 32) : op.Covers t x ↔ op.Covers s x := by
  cases op with
  | read b dest start bytes => exact Dunkos.covers_congr (h b) x
  | write b src start bytes => exact Dunkos.covers_congr (h b) x

/-- **Any number of calls.** -/
theorem foldl_apply_of_not_covers {ops : List BlockOp} {x : ℕ} (h : ∀ op ∈ ops, ¬ op.Covers s (BitVec.ofNat 32 x))
    (j : ℕ) : (ops.foldl BlockOp.apply s).disk x j = s.disk x j := by
  induction ops generalizing s with
  | nil => rfl
  | cons op ops ih =>
      obtain ⟨hop, hops⟩ := List.forall_mem_cons.mp h
      have hnext : ∀ op' ∈ ops, ¬ op'.Covers (op.apply s) (BitVec.ofNat 32 x) := fun op' hmem hc =>
        hops op' hmem ((op'.covers_congr (apply_start op) _).mp hc)
      exact (ih hnext).trans (apply_disk_of_not_covers hop j)

/-! ### Writing and reading back -/

/-- The bytes of the request are on the disk. -/
def BlockState.Holds (s : BlockState) (b : BlockType) (src : ℕ → Byte) (start bytes : BitVec 64) : Prop :=
  ∀ k < bytes.toNat, s.disk ((s.sectorStart b start).toNat + k / 512) (k % 512) = src k

theorem ofNat_div_toInt (h : bytes.toNat < 2 ^ 32) :
    (BitVec.ofNat 32 (bytes.toNat / 512)).toInt = (bytes.toNat / 512 : ℕ) ∧
      (BitVec.ofNat 32 (bytes.toNat / 512)).toNat = bytes.toNat / 512 := by
  have hnat : (BitVec.ofNat 32 (bytes.toNat / 512)).toNat = bytes.toNat / 512 := by
    rw [BitVec.toNat_ofNat]
    omega
  refine ⟨?_, hnat⟩
  rw [BitVec.toInt_eq_toNat_of_lt (by omega), hnat]

theorem holds_blockWrite {src : ℕ → Byte} (hn : bytes.toNat < 2 ^ 32) (hd : BlockOp.OnDisk s (.write b src start bytes)) :
    (s.blockWrite b src start bytes).1.Holds b src start bytes := by
  intro k hk
  have hne : bytes ≠ 0 := by
    rintro rfl
    exact absurd hk (Nat.not_lt_zero _)
  have hd := hd.resolve_left hne
  obtain ⟨hint, hnat⟩ := ofNat_div_toInt hn
  have hstart := sectorStart_toNat hne hd
  have hsame : (s.blockWrite b src start bytes).1.sectorStart b start = s.sectorStart b start :=
    congrArg (· + start.setWidth 32) (apply_start (.write b src start bytes) b)
  rw [hsame]
  have hfull : k / 512 < bytes.toNat / 512 → ideWriteSectors s.disk (s.sectorStart b start)
      (BitVec.ofNat 32 (bytes.toNat / 512)) src ((s.sectorStart b start).toNat + k / 512) (k % 512) = src k := by
    intro hlt
    unfold ideWriteSectors
    rw [hint, if_pos (by omega), Nat.add_sub_cancel_left, Nat.div_add_mod]
  by_cases hrem : bytes.toNat % 512 = 0
  · rw [blockWrite_disk_full hrem]
    exact hfull (by omega)
  · rw [blockWrite_disk_rest hrem hd]
    by_cases hlast : k / 512 = bytes.toNat / 512
    · rw [if_pos (by omega), memcpyAt, if_pos (by omega), hnat, ← hlast, Nat.sub_zero, Nat.div_add_mod]
    · rw [if_neg (by omega)]
      exact hfull (by omega)

/-- What a read does to one byte of the buffer. -/
theorem blockRead_apply (dest : ℕ → Byte) {sectors : BitVec 32} (hs : BitVec.ofNat 32 (bytes.toNat / 512) = sectors) (k : ℕ) :
    (s.blockRead b dest start bytes).2.1 k =
      if 512 * sectors.toNat ≤ k ∧ k < 512 * sectors.toNat + bytes.toNat % 512 then
        s.disk (s.sectorStart b start + sectors).toNat (k - 512 * sectors.toNat)
      else ideReadSectors s.disk (s.sectorStart b start) sectors dest k := by
  have hone : (1 : BitVec 32).toInt = 1 := rfl
  unfold BlockState.blockRead
  rw [hs]
  dsimp only
  split_ifs with hrem hk hk
  · show memcpyAt _ _ _ _ k = _
    unfold memcpyAt ideReadSectors
    rw [if_pos hk, hone, if_pos (by omega), Nat.div_eq_of_lt (by omega), Nat.mod_eq_of_lt (by omega), Nat.add_zero]
  · show memcpyAt _ _ _ _ k = _
    rw [memcpyAt, if_neg hk]
  · omega
  · rfl

/-- The same for counts that are not too large. -/
theorem blockRead_dest (dest : ℕ → Byte) (hn : bytes.toNat < 2 ^ 32) (k : ℕ) : (s.blockRead b dest start bytes).2.1 k =
    if k < bytes.toNat / 512 * 512 then s.disk ((s.sectorStart b start).toNat + k / 512) (k % 512)
    else if k < bytes.toNat then
      s.disk (s.sectorStart b start + BitVec.ofNat 32 (bytes.toNat / 512)).toNat (k % 512)
    else dest k := by
  obtain ⟨hint, hnat⟩ := ofNat_div_toInt hn
  rw [blockRead_apply dest rfl, hnat]
  by_cases hrest : bytes.toNat / 512 * 512 ≤ k ∧ k < bytes.toNat
  · rw [if_pos (by omega), if_neg (by omega), if_pos hrest.2]
    congr 1
    omega
  · rw [if_neg (by omega), ideReadSectors, hint]
    by_cases hfull : k < bytes.toNat / 512 * 512
    · rw [if_pos (by omega), if_pos hfull]
    · rw [if_neg (by omega), if_neg hfull, if_neg (by omega)]

theorem onDisk_congr {t : BlockState} {src : ℕ → Byte} (h : (t.blockDevices b).start = (s.blockDevices b).start) :
    BlockOp.OnDisk t (.write b src start bytes) ↔ BlockOp.OnDisk s (.write b src start bytes) := by
  show (bytes = 0 ∨ t.firstByte b start + _ ≤ _) ↔ (bytes = 0 ∨ s.firstByte b start + _ ≤ _)
  unfold BlockState.firstByte
  rw [h]

/-- A read of bytes that are on the disk. -/
theorem blockRead_of_holds {src : ℕ → Byte} (dest : ℕ → Byte) (hn : bytes.toNat < 2 ^ 32)
    (hd : BlockOp.OnDisk s (.write b src start bytes)) (h : s.Holds b src start bytes) (k : ℕ) :
    (s.blockRead b dest start bytes).2.1 k = if k < bytes.toNat then src k else dest k := by
  rw [blockRead_dest dest hn]
  by_cases hfull : k < bytes.toNat / 512 * 512
  · rw [if_pos hfull, if_pos (by omega), h k (by omega)]
  rw [if_neg hfull]
  by_cases hk : k < bytes.toNat
  · have hrem : bytes.toNat % 512 ≠ 0 := by omega
    have hne : bytes ≠ 0 := by
      rintro rfl
      exact absurd hk (Nat.not_lt_zero _)
    have hd := hd.resolve_left hne
    have hstart := sectorStart_toNat hne hd
    have hlast := lastSector_toNat hrem hd
    rw [if_pos hk, if_pos hk, ← h k hk]
    congr 1
    omega
  · rw [if_neg hk, if_neg hk]

end

/-- **Round trip.**  What a write of less than 2^32 bytes to sectors of the disk has put there is what a read of the same
request finds, whatever was done in between to other sectors, through any of the devices; and the read stores no byte
behind it. -/
theorem block_round_trip {s : BlockState} {b : BlockType} {src dest : ℕ → Byte} {start n : BitVec 64}
    (hn : n.toNat < 2 ^ 32) (hd : BlockOp.OnDisk s (.write b src start n)) {ops : List BlockOp}
    (hops : ∀ op ∈ ops, ∀ x, s.Covers b start n x → ¬ op.Covers s x) (k : ℕ) :
    ((ops.foldl BlockOp.apply (s.blockWrite b src start n).1).blockRead b dest start n).2.1 k =
      if k < n.toNat then src k else dest k := by
  have hwrite : ∀ b', ((s.blockWrite b src start n).1.blockDevices b').start = (s.blockDevices b').start :=
    apply_start (.write b src start n)
  generalize ht : ops.foldl BlockOp.apply (s.blockWrite b src start n).1 = t
  have hstart : (t.blockDevices b).start = (s.blockDevices b).start := by
    rw [← ht, foldl_apply_start, hwrite]
  refine blockRead_of_holds dest hn ((onDisk_congr hstart).mpr hd) (fun j hj => ?_) k
  have hholds := holds_blockWrite hn hd j hj
  unfold BlockState.sectorStart at hholds ⊢
  rw [hwrite] at hholds
  rw [hstart, ← ht, foldl_apply_of_not_covers, hholds]
  intro op hop hc
  refine hops op hop _ ⟨j / 512, by omega, ?_⟩ ((op.covers_congr hwrite _).mp hc)
  rw [sector_eq, BitVec.ofNat_add, BitVec.ofNat_toNat, BitVec.setWidth_eq]
  rfl

/-- A sector and a half is read back after the sector behind it has been written through the same buffer. -/
theorem block_round_trip_two :
    (([BlockOp.write .fs (fun _ => 3) 2 100].foldl BlockOp.apply (onesState.blockWrite .fs (fun _ => 2) 0 768).1).blockRead
      .fs (fun _ => 0) 0 768).2.1 700 = 2 := by
  have hops : ∀ op ∈ [BlockOp.write .fs (fun _ => 3) 2 100], ∀ x, onesState.Covers .fs 0 768 x → ¬ op.Covers onesState x := by
    intro op hop x ⟨i, hi, hx⟩
    rw [List.mem_singleton.mp hop]
    rintro ⟨j, hj, rfl⟩
    have hi : i = 0 ∨ i = 1 := by
      simp at hi
      omega
    obtain rfl : j = 0 := by
      simp at hj
      omega
    rcases hi with rfl | rfl
    · exact absurd hx (by decide)
    · exact absurd hx (by decide)
  rw [block_round_trip (by decide) (.inr (by decide)) hops]
  exact if_pos (by decide)

/-! ### Confinement -/

namespace BlockState
variable (s : BlockState)

/-- All sectors of the request are sectors of the device. -/
def Fits (b : BlockType) (start bytes : BitVec 64) : Prop :=
  ∀ i, 512 * i < bytes.toNat → start.toNat + i < (s.blockDevices b).size.toNat

/-- Their numbers are below 2^32. -/
def Numbered (b : BlockType) (start bytes : BitVec 64) : Prop :=
  ∀ i, 512 * i < bytes.toNat → (s.blockDevices b).start.toNat + start.toNat + i < 2 ^ 32

/-- The sectors that the driver is given are sectors of the device, and no sum of 32 bits wraps around. -/
structure Confined (b : BlockType) (start bytes : BitVec 64) : Prop where
  inside : ∀ c ∈ s.ideCalls b start bytes, ∀ x, c.Names x → (s.extent b).Covers x.toNat
  sums : ∀ i, 512 * i < bytes.toNat → (s.sectorStart b start + BitVec.ofNat 32 i).toNat =
    (s.blockDevices b).start.toNat + start.toNat + i

end BlockState

/-- No sector is given: none is left over, and the number of the full ones is not positive as an `int`. -/
def NoSector (bytes : BitVec 64) : Prop := bytes.toNat % 512 = 0 ∧ (BitVec.ofNat 32 (bytes.toNat / 512)).toInt ≤ 0

section
variable {s : BlockState} {b : BlockType} {start bytes : BitVec 64}

theorem sum_toNat {i : ℕ} (h : (s.blockDevices b).start.toNat + start.toNat + i < 2 ^ 32) :
    (s.sectorStart b start + BitVec.ofNat 32 i).toNat = (s.blockDevices b).start.toNat + start.toNat + i := by
  simp only [BlockState.sectorStart, BitVec.toNat_add, BitVec.toNat_setWidth, BitVec.toNat_ofNat]
  omega

theorem confined_of_fits (hf : s.Fits b start bytes) (hn : s.Numbered b start bytes) : s.Confined b start bytes := by
  refine ⟨fun c hc x hx => ?_, fun i hi => sum_toNat (hn i hi)⟩
  obtain ⟨i, hi, rfl⟩ := covers_of_named hc hx
  have hfit := hf i hi
  rw [sector_eq, sum_toNat (hn i hi), BlockState.extent, Extent.covers_mk]
  omega

theorem confined_of_noSector (hz : NoSector bytes) (hn : s.Numbered b start bytes) : s.Confined b start bytes := by
  refine ⟨fun c hc x ⟨i, hi, _⟩ => ?_, fun i hi => sum_toNat (hn i hi)⟩
  obtain ⟨hrem, hint⟩ := hz
  simp only [BlockState.ideCalls, hrem, ne_eq, not_true_eq_false, if_false, List.mem_singleton] at hc
  subst hc
  dsimp only at hi
  omega

theorem BlockState.Confined.numbered (h : s.Confined b start bytes) : s.Numbered b start bytes := by
  intro i hi
  rw [← h.sums i hi]
  exact BitVec.isLt _

/-- A sector that is given is one of the device. -/
theorem BlockState.Confined.lt_size (h : s.Confined b start bytes) {c : IdeCall} (hc : c ∈ s.ideCalls b start bytes) {i : ℕ}
    (hi : 512 * i < bytes.toNat) (hx : c.Names (s.sectorStart b start + BitVec.ofNat 32 i)) :
    start.toNat + i < (s.blockDevices b).size.toNat := by
  have hin := h.inside c hc _ hx
  rw [h.sums i hi, BlockState.extent, Extent.covers_mk] at hin
  omega

/-- The last sector of the request is given, unless none is. -/
theorem last_named (hz : ¬ NoSector bytes) (hn : s.Numbered b start bytes) {i : ℕ} (hi : 512 * i < bytes.toNat)
    (hlast : bytes.toNat ≤ 512 * i + 512) :
    ∃ c ∈ s.ideCalls b start bytes, c.Names (s.sectorStart b start + BitVec.ofNat 32 i) := by
  by_cases hrem : bytes.toNat % 512 = 0
  · have hq : bytes.toNat / 512 = i + 1 := by omega
    have hlt := hn i hi
    refine ⟨⟨s.sectorStart b start, BitVec.ofNat 32 (bytes.toNat / 512)⟩, List.mem_cons_self, i, ?_, rfl⟩
    have hpos : ¬ (BitVec.ofNat 32 (bytes.toNat / 512)).toInt ≤ 0 := fun h => hz ⟨hrem, h⟩
    rw [hq, BitVec.toInt_eq_toNat_cond, BitVec.toNat_ofNat] at hpos ⊢
    split_ifs at hpos ⊢ <;> omega
  · have hq : bytes.toNat / 512 = i := by omega
    refine ⟨⟨s.sectorStart b start + BitVec.ofNat 32 (bytes.toNat / 512), 1⟩, ?_, 0, Int.one_pos, ?_⟩
    · simp [BlockState.ideCalls, hrem]
    · rw [hq]
      simp

/-- **Requests and devices.**  Every request goes to the driver.  It stays in the device, without a sum that wraps around,
exactly when its sectors have numbers below 2^32 and are sectors of the device, or none of them is given.  Then it is
nowhere in an area that is apart from the device, such as another device or the header of the image. -/
theorem block_confined_iff (s : BlockState) (b : BlockType) (start bytes : BitVec 64) :
    s.ideCalls b start bytes ≠ [] ∧
      (s.Confined b start bytes ↔ s.Numbered b start bytes ∧ (s.Fits b start bytes ∨ NoSector bytes)) ∧
      (s.Confined b start bytes → ∀ e : Extent, (s.extent b).Apart e →
        ∀ c ∈ s.ideCalls b start bytes, ∀ x, c.Names x → ¬ e.Covers x.toNat) := by
  refine ⟨List.cons_ne_nil _ _, ⟨fun h => ⟨h.numbered, ?_⟩, fun ⟨hn, hf⟩ => ?_⟩, fun h e he c hc x hx => ?_⟩
  · by_cases hz : NoSector bytes
    · exact .inr hz
    · refine .inl fun i hi => ?_
      obtain ⟨c, hc, hx⟩ := last_named (i := (bytes.toNat - 1) / 512) hz h.numbered (by omega) (by omega)
      have hlt := h.lt_size hc (by omega) hx
      omega
  · exact hf.elim (confined_of_fits · hn) (confined_of_noSector · hn)
  · exact he _ (h.inside c hc x hx)

end

/-- A disk with a filesystem in the sectors from 1 to 8, and behind it four sectors for swap. -/
def areasState : BlockState where
  disk _ _ := 1
  blockDevices
    | .fs => ⟨1, 8, fun _ => 0⟩
    | .swap => ⟨9, 4, fun _ => 0⟩
    | _ => ⟨0, 0, fun _ => 0⟩

/-- The sector behind the filesystem is written through it. -/
theorem block_write_swap : ¬ areasState.Fits .fs 8 512 ∧ areasState.ideCalls .fs 8 512 = [⟨9, 1⟩] ∧
    ¬ areasState.Confined .fs 8 512 ∧ (areasState.extent .swap).Covers 9 ∧
    (areasState.blockWrite .fs (fun _ => 2) 8 512).1.disk 9 0 = 2 := by
  refine ⟨fun h => absurd (h 0 (by decide)) (by decide), by decide, fun h => ?_, by decide, by decide⟩
  have hin := h.inside ⟨9, 1⟩ (by decide) 9 ⟨0, by decide, by decide⟩
  exact absurd hin (by decide)

end Dunkos
