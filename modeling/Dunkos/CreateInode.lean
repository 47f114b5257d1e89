import Dunkos.AllocateSpace

/-! # Making an inode (`create_inode`)

`create_inode` takes a sector for the header, memory for the `inode_disk`, and sectors for the data, and writes the header.
When it fails behind the first step only the memory is given back.  `create_inode_atomic_iff` says when it can fail there.
No write is short: `block_write` returns 512 for a sector, whatever the device does. -/

namespace Dunkos

namespace Filesys

open Call

/-- `div_rnd_up(size, BLOCK_SECTOR_SIZE)`. -/
def sizeSectors (size : BitVec 64) : ℕ := (size.toNat + 511) % 2 ^ 64 / blockSectorSize

/-- The `inode_disk` before its extents. -/
def freshInodeDisk : InodeDisk where
  nextExtent := 0
  nextFirstLevel := inodeDiskNpos
  nextSecondLevel := inodeDiskNpos
  firstLevelTable := inodeDiskNpos
  secondLevelTable := inodeDiskNpos
  thirdLevelTable := inodeDiskNpos
  headerExtents _ := ⟨0, 0⟩

/-- The words of an `inode_disk`; `length` and `parent` are left as `kcalloc` makes them. -/
def inodeDiskWords (info : BitVec 64) (idisk : InodeDisk) : Sector
  | 0 => info.setWidth 32
  | 1 => (info >>> 32).setWidth 32
  | 2 => 0
  | 3 => 0
  | 4 => idisk.nextExtent
  | 5 => idisk.nextFirstLevel
  | 6 => idisk.nextSecondLevel
  | 7 => idisk.firstLevelTable
  | 8 => idisk.secondLevelTable
  | 9 => idisk.thirdLevelTable
  | i + 10 => if i % 2 = 0 then (idisk.headerExtents (i / 2)).start else (idisk.headerExtents (i / 2)).sectors

/-- `block_write(fs_block, idisk, header, sizeof *idisk)`. -/
def writeHeader (header : ℕ) (b : Sector) : FsCall ℕ := do
  modifyFs fun fs => { fs with disk := Function.update fs.disk (BitVec.ofNat 32 header) b }
  return blockResult blockSectorSize

/-- What a call returns, `*sector` unless `sector` is NULL, and the blocks that it holds. -/
structure CreateResult where
  success : Bool
  sector : Option (BitVec 64)
  held : List Addr
deriving DecidableEq, Repr

/-- `sectors == 0 || inode_disk_allocate_space(idisk, sectors)`. -/
def allocateData (fuel : ℕ) (idisk : InodeDisk) (sectors : ℕ) : FsCall (Bool × InodeDisk) :=
  if sectors = 0 then return (true, idisk) else inodeDiskAllocateSpace fuel idisk sectors

/-- `create_inode`.  `sector` is what `*sector` is before, and `block` what `kcalloc` returns. -/
def createInode (fuel : ℕ) (size info : BitVec 64) (sector : Option (BitVec 64)) (block : Addr) : FsCall CreateResult := do
  let header ← freeMapAllocate 1
  if header ≠ bitmapNpos then
    if block ≠ 0 then do
      let held := [block]
      let r ← allocateData fuel freshInodeDisk (sizeSectors size)
      let success ←
        if r.1 then do
          let written ← writeHeader header (inodeDiskWords info r.2)
          pure (written == blockSectorSize)
        else pure false
      return ⟨success, if success then sector.map fun _ => BitVec.ofNat 64 header else sector, held.erase block⟩
    else return ⟨false, sector, []⟩
  else return ⟨false, sector, []⟩

/-! ### What it is for -/

/-- Nothing is left of the call. -/
structure Undone (s t : FsState) (sector : Option (BitVec 64)) (r : CreateResult) : Prop where
  freeMap : t.fs.freeMap = s.fs.freeMap
  freeMapVar : t.fs.freeMapVar = s.fs.freeMapVar
  freeSectors : t.fs.freeSectors = s.fs.freeSectors
  sector : r.sector = sector
  held : r.held = []

/-- A call that fails leaves nothing behind. -/
def CreatesOrUndoes (size info : BitVec 64) (sector : Option (BitVec 64)) (block : Addr) (s : FsState) : Prop :=
  ∀ fuel r t, createInode fuel size info sector block s = (.ok r, t) → r.success = false → Undone s t sector r

/-! ### The calls of a thread on its own -/

section
variable {fs : Fs} {n : ℕ}

/-- What a call of `free_map_allocate` leaves. -/
def Fs.scanned (fs : Fs) (n : ℕ) : Fs := { fs with freeMapVar := (bitmapScanAndFlip fs.freeMapVar 0 n false).2 }

/-- No other thread runs, and the lock is free. -/
structure Idle (fs : Fs) (s : FsState) : Prop where
  eq : s.fs = fs
  sema : Open s
  others : s.others = []

theorem idle_acquire : Returns (Idle fs) (lockAcquire .freeMap) fun _ s => s.fs = fs ∧ s.others = [] := by
  intro s hs
  have hw : (s.event (.acquire .freeMap)).wait = s.event (.acquire .freeMap) := wait_of_alone hs.others
  have hsema : (s.event (.acquire .freeMap)).sema .freeMap ≠ 0 := Nat.ne_of_gt hs.sema
  unfold lockAcquire
  simp only [hw, if_neg hsema]
  exact ⟨hs.eq, hs.others⟩

theorem idle_release : Returns (fun s => s.fs = fs ∧ s.others = []) (lockRelease .freeMap) fun _ => Idle fs :=
  .modify fun s hs => ⟨hs.1, by simp [Open, FsState.event, FsState.setSema], hs.2⟩

theorem idle_allocate (n : ℕ) : Returns (Idle fs) (freeMapAllocate n) fun r s =>
    r = (bitmapScanAndFlip fs.freeMapVar 0 n false).1 ∧ Idle (fs.scanned n) s := by
  refine .bind idle_acquire fun _ => ?_
  refine .bind (.get (Q := fun u s => u.fs = fs ∧ s.fs = fs ∧ s.others = []) fun s hs => ⟨hs.1, hs⟩) fun u =>
    .intro fun hu => ?_
  refine .bind (.modify (Q := fun _ s => s.fs = fs.scanned n ∧ s.others = []) ?_) fun _ =>
    .bind idle_release fun _ => .pure fun s hs => ⟨by rw [hu], hs⟩
  rintro s ⟨hfs, hothers⟩
  exact ⟨by rw [hu, hfs, Fs.scanned], hothers⟩

/-- More than `fs_free_sectors`. -/
theorem idle_refused (h : fs.freeSectors < n) (fuel : ℕ) (idisk : InodeDisk) :
    Returns (Idle fs) (inodeDiskAllocateSpace fuel idisk n) fun r s => r = (false, idisk) ∧ Idle fs s := by
  refine .bind idle_acquire fun _ => ?_
  refine .bind (.get (Q := fun u s => u.fs = fs ∧ s.fs = fs ∧ s.others = []) fun s hs => ⟨hs.1, hs⟩) fun u =>
    .intro fun hu => .ite (fun hle => ?_) fun _ => ?_
  · rw [hu] at hle
    omega
  · exact .bind (.pure fun s hs => ⟨rfl, hs⟩) fun r => .intro fun hr =>
      .bind idle_release fun _ => .pure fun s hs => ⟨hr, hs⟩

/-- What is not more is not refused. -/
theorem idle_granted (h : n ≤ fs.freeSectors) (fuel : ℕ) (idisk : InodeDisk) :
    Triple (Idle fs) (inodeDiskAllocateSpace fuel idisk n) (fun r _ => r.1 = true ∧ True) fun _ _ => True := by
  intro s hs
  obtain ⟨bm, hrun⟩ := inodeDiskAllocateSpace_run hs.sema (by simp [CallsOnly, hs.others])
  have hend := hrun fuel idisk n
  match hc : inodeDiskAllocateSpace fuel idisk n s with
  | (.ok r, t) =>
      rw [hc] at hend
      refine ⟨?_, trivial⟩
      rw [hend.1]
      exact decide_eq_true (hs.eq ▸ h)
  | (.error e, t) => trivial

/-- A free sector is found, and marked. -/
theorem scan_one_of_free {bm : Bitmap} (h : SpaceState.Free bm) :
    (bitmapScanAndFlip bm 0 1 false).1 ≠ bitmapNpos ∧ (bitmapScanAndFlip bm 0 1 false).2 ≠ bm := by
  obtain ⟨i, hi⟩ := free_iff.mp h
  rcases bitmapScanAndFlip_spec bm 0 1 false with ⟨-, hno⟩ | ⟨r, he, hne, -, hr, -⟩
  · exact absurd hi (hno i i.zero_le)
  · have hclear : bitmapTest bm r = false := hr.eq r (by simp)
    rw [he]
    refine ⟨hne, fun heq => ?_⟩
    have hset : bitmapTest (bitmapFlip bm r 1) r = true := by
      rw [bitmapFlip_test, if_pos ⟨by simp, hr.lt⟩, hclear, Bool.not_false]
    rw [show bitmapFlip bm r 1 = bm from heq, hclear] at hset
    cases hset

theorem scan_one_of_full {bm : Bitmap} (h : ¬ SpaceState.Free bm) : bitmapScanAndFlip bm 0 1 false = (bitmapNpos, bm) := by
  rcases bitmapScanAndFlip_spec bm 0 1 false with ⟨he, -⟩ | ⟨r, -, -, -, hr, -⟩
  · exact he
  · exact absurd (free_iff.mpr ⟨r, hr⟩) h

variable (size info : BitVec 64) (sector : Option (BitVec 64)) (block : Addr)

/-- **The header is left marked** when the call fails behind it. -/
theorem createInode_leaks (hfree : SpaceState.Free fs.freeMapVar)
    (hfail : block = 0 ∨ fs.freeSectors < sizeSectors size) (fuel : ℕ) :
    Returns (Idle fs) (createInode fuel size info sector block) fun r s =>
      r.success = false ∧ s.fs.freeMapVar ≠ fs.freeMapVar := by
  obtain ⟨hheader, hmarked⟩ := scan_one_of_free hfree
  refine .bind (idle_allocate 1) fun header => .intro fun hr => .ite
    (fun _ => .ite (fun hblock => ?_) fun _ => ?_) fun hnone => ?_
  · have hmore : (fs.scanned 1).freeSectors < sizeSectors size := hfail.resolve_left hblock
    unfold allocateData
    rw [if_neg (show sizeSectors size ≠ 0 by omega)]
    refine .bind (idle_refused hmore fuel _) fun r => .intro fun hr => .ite (fun hone => ?_) fun _ => ?_
    · rw [hr] at hone
      cases hone
    · exact .bind (.pure fun s hs => ⟨rfl, hs⟩) fun success => .intro fun hs => .pure fun s hidle =>
        ⟨hs, by rw [hidle.eq]; exact hmarked⟩
  · exact .pure fun s hs => ⟨rfl, by rw [hs.eq]; exact hmarked⟩
  · exact absurd (hr ▸ hheader) hnone

theorem createInode_done (hok : ¬ SpaceState.Free fs.freeMapVar ∨ block ≠ 0 ∧ sizeSectors size ≤ fs.freeSectors) (fuel : ℕ) :
    Triple (Idle fs) (createInode fuel size info sector block)
      (fun r s => r.success = false → s.fs = fs ∧ r.sector = sector ∧ r.held = []) fun _ _ => True := by
  refine .bind (idle_allocate 1).triple fun header => .intro fun hr => .ite (fun hheader => ?_) fun hnone => ?_
  · have hfree : SpaceState.Free fs.freeMapVar := by
      by_contra hfull
      rw [scan_one_of_full hfull] at hr
      exact hheader hr
    obtain ⟨hblock, hle⟩ := hok.resolve_left (not_not.mpr hfree)
    refine .ite (fun _ => ?_) fun hnull => absurd hblock hnull
    have hgranted : sizeSectors size ≤ (fs.scanned 1).freeSectors := hle
    have hdata : Triple (Idle (fs.scanned 1)) (allocateData fuel freshInodeDisk (sizeSectors size))
        (fun r _ => r.1 = true ∧ True) fun _ _ => True := .ite (fun _ => .pure fun _ _ => ⟨rfl, trivial⟩) fun _ => idle_granted hgranted fuel _
    -- what is written is a sector
    have hwrite : ∀ b : Sector, Triple (fun _ => True) (writeHeader header b)
        (fun written _ => (written == blockSectorSize) = true ∧ True) fun _ _ => True :=
      fun b => .bind (.modify (Q := fun _ _ => True) fun _ _ => trivial) fun _ => .pure fun _ _ => ⟨rfl, trivial⟩
    refine .bind hdata fun r => .intro fun hgot => .ite (fun _ => ?_) fun hno => absurd hgot hno
    refine .bind (hwrite _) fun written => .intro fun hwhole =>
      .bind (.pure (Q := fun success _ => success = true) fun s _ => hwhole) fun success => .pure fun s hsuccess hfail => ?_
    rw [show success = true from hsuccess] at hfail
    cases hfail
  · have hfull : ¬ SpaceState.Free fs.freeMapVar := fun hfree =>
      (scan_one_of_free hfree).1 (hr ▸ not_not.mp hnone)
    refine .pure fun s hs _ => ⟨?_, rfl, rfl⟩
    rw [hs.eq, Fs.scanned, scan_one_of_full hfull]

end

/-- **Making an inode.**  On its own, for every size and state of the free map, a call that fails leaves nothing behind
exactly when no sector is free for the header, or the memory is there and `fs_free_sectors` is enough for the data. -/
theorem create_inode_atomic_iff {s : FsState} (hopen : Open s) (halone : s.others = []) (size info : BitVec 64)
    (sector : Option (BitVec 64)) (block : Addr) : CreatesOrUndoes size info sector block s ↔
      ¬ SpaceState.Free s.fs.freeMapVar ∨ block ≠ 0 ∧ sizeSectors size ≤ s.fs.freeSectors := by
  have hidle : Idle s.fs s := ⟨rfl, hopen, halone⟩
  constructor
  · intro h
    by_contra hbad
    obtain ⟨hfree, hfail⟩ := not_or.mp hbad
    rw [not_not] at hfree
    have hcase : block = 0 ∨ s.fs.freeSectors < sizeSectors size := by
      by_cases hblock : block = 0
      · exact .inl hblock
      · exact .inr (Nat.not_le.mp fun hle => hfail ⟨hblock, hle⟩)
    obtain ⟨r, t, hc, hsuccess, hmarked⟩ := (createInode_leaks size info sector block hfree hcase 0).result hidle
    exact hmarked (h 0 r t hc hsuccess).freeMapVar
  · intro hok fuel r t hc hfail
    have hend := createInode_done size info sector block hok fuel s hidle
    rw [hc] at hend
    obtain ⟨hfs, hsector, hheld⟩ := hend hfail
    exact ⟨by rw [hfs], by rw [hfs], by rw [hfs], hsector, hheld⟩

/-- The state behind `init_filesystem`, with the free sector of `twoSectors` and a right account of it. -/
def oneFree : FsState :=
  { initFilesystem 2 .zero with fs := { (initFilesystem 2 .zero).fs with freeMapVar := twoSectors, freeSectors := 1 } }

/-- With one sector for the data the call is right. -/
theorem create_inode_small : CreatesOrUndoes 512 0 none 4096 oneFree :=
  (create_inode_atomic_iff (by decide : 0 < oneFree.sema .freeMap) rfl 512 0 none 4096).mpr (.inr (by decide))

/-- **A file of two sectors** fails, and its header stays marked. -/
theorem create_inode_large : ∃ r t, createInode 0 1024 0 none 4096 oneFree = (.ok r, t) ∧ r.success = false ∧
    ¬ Undone oneFree t none r := by
  have hidle : Idle oneFree.fs oneFree := ⟨rfl, (by decide : 0 < oneFree.sema .freeMap), rfl⟩
  obtain ⟨r, t, hc, hsuccess, hmarked⟩ := (createInode_leaks 1024 0 none 4096
    (by decide : SpaceState.Free oneFree.fs.freeMapVar) (.inr (by decide)) 0).result hidle
  exact ⟨r, t, hc, hsuccess, fun h => hmarked h.freeMapVar⟩

end Filesys

end Dunkos
