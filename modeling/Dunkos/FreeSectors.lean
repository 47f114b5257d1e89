import Dunkos.Filesys
import Dunkos.Lib.Reach

/-! # The account of free sectors (`free_map_allocate`, `free_map_release`, `inode_disk_allocate_space`)

`fs_free_sectors` is never assigned, and no function but `init_filesystem` writes the bitmap that `fs_free_map` points to.
`free_sectors_wrong` says that the account is wrong in every state: from the first one on there are free sectors, of which
the counter knows nothing, and `inode_disk_allocate_space` refuses every request. -/

namespace Dunkos

namespace Filesys

open Call Transition

/-- The number of clear bits. -/
def clearBits (bm : Bitmap) : ℕ := ((List.range bm.bitcount).filter fun i => !bitmapTest bm i).length

def MapCall.track (out : ℕ → Bool) : MapCall → ℕ → Bool
  | allocated start sectors => fun i => out i || (start != bitmapNpos && decide (start ≤ i ∧ i < start + sectors))
  | released start sectors => fun i => out i && !decide (start ≤ i ∧ i < start + sectors)

/-- The sectors handed out and not released since. -/
def handedOut (log : List MapCall) : ℕ → Bool := log.foldl MapCall.track fun _ => false

/-- What is to hold between the calls. -/
structure Accounted (s : FsState) : Prop where
  count : s.fs.freeSectors = clearBits s.fs.freeMap
  root : bitmapTest s.fs.freeMap 0 = true
  given : ∀ i, i ≠ 0 → i < s.fs.freeMap.bitcount → (bitmapTest s.fs.freeMap i = true ↔ handedOut s.log i = true)
  opens : ∀ i, handedOut s.log i = true → bitmapAll s.fs.freeMap i 1 true = true
  space : ∀ idisk k, ∃ fuel r t, inodeDiskAllocateSpace fuel idisk k s = (.ok r, t) ∧ (r.1 = true ↔ k ≤ s.fs.freeSectors) ∧
    (r.1 = true → clearBits t.fs.freeMap + k = clearBits s.fs.freeMap)

inductive MapOp where
  | allocate (sectors : ℕ)
  | release (start sectors : ℕ)
  | allocateSpace (fuel : ℕ) (idisk : InodeDisk) (sectors : ℕ)

/-- The state that a call leaves, whether it returns or not. -/
def MapOp.step (s : FsState) : MapOp → Option FsState
  | allocate sectors => some (freeMapAllocate sectors s).2
  | release start sectors => some (freeMapRelease start sectors s).2
  | allocateSpace fuel idisk sectors => some (inodeDiskAllocateSpace fuel idisk sectors s).2

/-- The counter and the bitmap are still those of `init_filesystem`. -/
abbrev Untouched (m : Bitmap) : FsState → Prop := Alone fun fs _ => fs.freeSectors = 0 ∧ fs.freeMap = m

section
variable {m : Bitmap}

theorem untouched_allocate (sectors : ℕ) : Keeps (Untouched m) (freeMapAllocate sectors) := by
  refine .bind (alone_acquire _) fun _ => .bind .get fun s => ?_
  refine .bind (.modify fun t ht => ⟨ht.inv, ht.others⟩) fun _ => ?_
  exact .bind (alone_release _) fun _ => .pure _

theorem untouched_release (start sectors : ℕ) : Keeps (Untouched m) (freeMapRelease start sectors) := by
  refine .bind (alone_acquire _) fun _ => ?_
  exact .bind (.modify fun t ht => ⟨ht.inv, ht.others⟩) fun _ => alone_release _

theorem untouched_attempt (fuel n : ℕ) : Keeps (Untouched m) (attemptLoop fuel n) := by
  induction fuel generalizing n with
  | zero => exact .stop _
  | succ fuel ih =>
      refine .bind (untouched_allocate n) fun start => ?_
      exact .ite (fun _ => ih _) fun _ => .pure _

theorem untouched_space (fuel n : ℕ) (idisk : InodeDisk) : Keeps (Untouched m) (spaceLoop fuel idisk n) := by
  induction fuel generalizing idisk n with
  | zero => exact .stop _
  | succ fuel ih =>
      refine .ite (fun _ => ?_) fun _ => .pure _
      exact .bind (untouched_attempt fuel n) fun r => ih _ _

theorem untouched_allocateSpace (fuel n : ℕ) (idisk : InodeDisk) :
    Keeps (Untouched m) (inodeDiskAllocateSpace fuel idisk n) := by
  refine .bind (alone_acquire _) fun _ => .bind .get fun s => ?_
  refine .ite (fun _ => ?_) fun _ => ?_
  · refine .bind (alone_release _) fun _ => .bind (untouched_space fuel n idisk) fun _ => ?_
    exact .bind (.pure _) fun _ => .bind (alone_release _) fun _ => .pure _
  · exact .bind (.pure _) fun _ => .bind (alone_release _) fun _ => .pure _

theorem untouched_step {s t : FsState} {op : MapOp} (hs : Untouched m s) (h : op.step s = some t) : Untouched m t := by
  cases op with
  | allocate sectors => exact Option.some.inj h ▸ (untouched_allocate sectors).snd hs
  | release start sectors => exact Option.some.inj h ▸ (untouched_release start sectors).snd hs
  | allocateSpace fuel idisk sectors => exact Option.some.inj h ▸ (untouched_allocateSpace fuel sectors idisk).snd hs

end

/-- `init_filesystem` leaves all sectors but the first one free. -/
theorem initFilesystem_test (size : BitVec 32) (b : BootState) {i : ℕ} (hi : i < size.toNat) :
    bitmapTest (initFilesystem size b).fs.freeMap i = decide (i = 0) := by
  have hsize := size.isLt
  show bitmapTest (bitmapSet (bitmapCreate size.toNat _ b.words) 0 1 true) i = _
  rw [bitmapSet_test, bitmapCreate_test _ _ (by omega) hi]
  simp only [Extent.covers_mk, bitmapCreate]
  by_cases h : i = 0
  · rw [if_pos (by omega), decide_eq_true h]
  · rw [if_neg (by omega), decide_eq_false h]

theorem clearBits_pos {bm : Bitmap} {i : ℕ} (hi : i < bm.bitcount) (h : bitmapTest bm i = false) : 0 < clearBits bm :=
  List.length_pos_of_mem (List.mem_filter.mpr ⟨List.mem_range.mpr hi, by rw [h]; rfl⟩)

/-- **Free sectors.**  On a device of any size greater than 1, whatever was in memory, the account is wrong in every state
that the three functions reach from `init_filesystem`. -/
theorem free_sectors_wrong {size : BitVec 32} (hsize : 1 < size.toNat) (b : BootState) {s : FsState}
    (h : Reach MapOp.step (fun _ _ => True) (initFilesystem size b) s) : ¬ Accounted s := by
  have hs : Untouched (initFilesystem size b).fs.freeMap s :=
    h.invariant ⟨⟨rfl, rfl⟩, rfl⟩ fun _ _ _ hs _ ht => untouched_step hs ht
  have hone : bitmapTest s.fs.freeMap 1 = false := by
    rw [hs.inv.2, initFilesystem_test size b hsize]
    rfl
  have hcount : s.fs.freeMap.bitcount = size.toNat := by
    rw [hs.inv.2]
    exact bitmapSet_bitcount ..
  have hpos := clearBits_pos (hcount ▸ hsize) hone
  intro hacc
  have hzero := hacc.count
  rw [hs.inv.1] at hzero
  omega

theorem free_sectors_wrong_two : ¬ Accounted (inodeDiskAllocateSpace 1 (inodeDiskOf fun _ => 0) 0 (initFilesystem 2 .zero)).2 :=
  free_sectors_wrong (by decide) _ (.next (a := .allocateSpace 1 (inodeDiskOf fun _ => 0) 0) .start trivial rfl)

/-- On a device of two sectors, the free one is not given out. -/
theorem free_sectors_refused : clearBits (initFilesystem 2 .zero).fs.freeMap = 1 ∧
    (inodeDiskAllocateSpace 1 (inodeDiskOf fun _ => 0) 1 (initFilesystem 2 .zero)).1 = .ok (false, inodeDiskOf fun _ => 0) ∧
      ¬ Accounted (initFilesystem 2 .zero) := by
  refine ⟨by decide, rfl, fun h => ?_⟩
  exact absurd (show 0 = 1 from h.count) (by decide)

end Filesys

end Dunkos
