import Dunkos.Bitmap
import Dunkos.Directory
import Dunkos.Hashtable
import Dunkos.Lib.Call
import Dunkos.Lib.LockTrace

/-! # The filesystem (`filesys.c`)

The functions are calls on `FsState`: what is shared (`Fs`), the semaphores of the locks, and a record of what the calling
thread did to them.  A call stops when it waits for a lock that is never released, or goes through a pointer to no
object.  While a thread waits for a lock, other threads may do what `others` says.

Most functions say `&fs_free_map` where they mean `fs_free_map`, so that the bitmap they work on is the variable and the
memory behind it: `freeMapVar`.  Which variables the linker puts there is not in the source; here that memory is an object
of its own.  `block_read` is taken to return the contents of the sector, and `kcalloc` to succeed. -/

namespace Dunkos

namespace Filesys

open Function LockTrace InodeDisk

abbrev Addr := BitVec 64

/-- `fs_free_map_lock`, `inode_map_lock`, and the `lock` of a `struct inode`. -/
inductive FsLock where
  | freeMap
  | inodeMap
  | node (p : Addr)
deriving DecidableEq, Repr

/-- `struct inode`; `data` and `self` are the words of the `inode_disk` in it, and those of the object itself. -/
structure Inode where
  sector : BitVec 64
  openCount : ℕ
  removed : Bool
  data : Sector
  self : Sector

/-- The words of a `struct inode_disk`. -/
def inodeDiskOf (b : Sector) : InodeDisk where
  nextExtent := b 4
  nextFirstLevel := b 5
  nextSecondLevel := b 6
  firstLevelTable := b 7
  secondLevelTable := b 8
  thirdLevelTable := b 9
  headerExtents i := ⟨b (10 + 2 * i), b (10 + 2 * i + 1)⟩

/-- What the threads share.  The nodes of `inode_map` are the `struct inode`s and the local `key` of `get_inode` (`none`);
`files` gives the `inode` of every `struct file` and `struct dir`. -/
structure Fs where
  freeSectors : ℕ
  freeMap : Bitmap
  freeMapVar : Bitmap
  inodeMap : Hashtable (Option Addr) (BitVec 64)
  inodes : Addr → Option Inode
  files : Addr → Option Addr
  disk : Disk

/-- A range handed out by `free_map_allocate`, or one given to `free_map_release`. -/
inductive MapCall where
  | allocated (start sectors : ℕ)
  | released (start sectors : ℕ)
deriving DecidableEq, Repr

/-- The state of the calling thread.  `sema` are the semaphores as they are when the locks of other threads have been
released, `events` and `log` what the thread has done so far, and `others` what other threads do to the shared state before
its next acquisitions of a lock. -/
structure FsState where
  fs : Fs
  sema : FsLock → ℕ
  events : List (Event FsLock)
  log : List MapCall
  others : List (Fs → Fs)

/-- Why a call does not return. -/
inductive Stop where
  | blocked (l : FsLock)
  | wild
  | endless
deriving DecidableEq, Repr

abbrev FsCall (A : Type) := Call FsState Stop A

/-- What reads `inode->sector` for the hash table; `sector` is that of the local `key`. -/
def Fs.key (fs : Fs) (sector : BitVec 64) : Option Addr → BitVec 64
  | none => sector
  | some p => ((fs.inodes p).map Inode.sector).getD 0

/-- The other threads, while this one waits. -/
def FsState.wait (s : FsState) : FsState :=
  match s.others with
  | [] => s
  | f :: fs => { s with fs := f s.fs, others := fs }

def FsState.event (s : FsState) (e : Event FsLock) : FsState := { s with events := s.events ++ [e] }

def FsState.setSema (s : FsState) (l : FsLock) (n : ℕ) : FsState := { s with sema := update s.sema l n }

def modifyFs (f : Fs → Fs) : FsCall Unit := .modify fun s => { s with fs := f s.fs }

/-! ### Locks -/

/-- `lock_acquire`: `semaphore_dec` waits while the value is 0. -/
def lockAcquire (l : FsLock) : FsCall Unit := fun s =>
  let s := (s.event (.acquire l)).wait
  if s.sema l = 0 then (.error (.blocked l), s) else (.ok (), s.setSema l (s.sema l - 1))

def lockRelease (l : FsLock) : FsCall Unit := .modify fun s => (s.event (.release l)).setSema l (s.sema l + 1)

def lockInit (l : FsLock) : FsCall Unit := .modify fun s => s.setSema l 1

/-- `*node`. -/
def getNode (node : Addr) : FsCall Inode := do
  let s ← Call.get
  Call.ofOption .wild (s.fs.inodes node)

/-- `file->inode`. -/
def getFile (file : Addr) : FsCall Addr := do
  let s ← Call.get
  Call.ofOption .wild (s.fs.files file)

/-- `lock_acquire(&node->lock)`. -/
def nodeAcquire (node : Addr) : FsCall Unit := do
  let _ ← getNode node
  lockAcquire (.node node)

def nodeRelease (node : Addr) : FsCall Unit := lockRelease (.node node)

/-! ### The free map -/

/-- `elem_value(NULL, struct inode, inode_map_elem)`; the element is at offset 8. -/
def nullInode : Addr := 0 - 8

/-- What is there before `init_filesystem`: the words of the new bitmap, `fs_free_map` as it is read through
`&fs_free_map`, the buckets of the new table, what can be reached as an inode through `nullInode`, what the device holds;
and the hash of a sector. -/
structure BootState where
  words : ℕ → BitVec 64
  freeMapVar : Bitmap
  con : ListMem (Fin initBuckets) (Option Addr)
  null : Option Inode
  disk : Disk
  hash : BitVec 64 → ℕ

/-- All of it zero. -/
def BootState.zero : BootState where
  words _ := 0
  freeMapVar := bitmapCreate 0 (by decide) fun _ => 0
  con := ⟨fun _ => .null, fun _ => .null, fun _ => 0⟩
  null := none
  disk _ _ := 0
  hash _ := 0

/-- `init_filesystem`, on a device of `size` sectors. -/
def initFilesystem (size : BitVec 32) (b : BootState) : FsState where
  fs :=
    { freeSectors := 0
      freeMap := bitmapSet (bitmapCreate size.toNat (Nat.lt_trans size.isLt (by decide)) b.words) 0 1 true
      freeMapVar := b.freeMapVar
      inodeMap := hashtableInit b.con b.hash fun a b => a == b
      inodes := update (fun _ => none) nullInode b.null
      files := fun _ => none
      disk := b.disk }
  sema _ := 1
  events := []
  log := []
  others := []

theorem lawfulHash_sector (hash : BitVec 64 → ℕ) : LawfulHash hash fun a b => a == b where
  equiv := ⟨fun _ => beq_self_eq_true _, fun h => by simpa using (beq_iff_eq.mp h).symm, fun h h' => by
    simpa using (beq_iff_eq.mp h).trans (beq_iff_eq.mp h')⟩
  fn_eq _ _ h := congrArg hash (beq_iff_eq.mp h)

/-- Nothing is in the new table. -/
theorem table_init (b : BootState) (key : Option Addr → BitVec 64) :
    Table (hashtableInit b.con b.hash fun a b => a == b) key (fun _ => none) fun _ => [] := by
  obtain ⟨-, -, σ, ht⟩ := HashState.inv_init (lawfulHash_sector b.hash) b.con key
  have hσ : σ = fun _ => [] := by
    funext i
    refine List.eq_nil_iff_forall_not_mem.mpr fun e he => ?_
    have hlast := (ht.last_iff _ e).mpr ⟨ht.placed i e he ▸ he, beq_self_eq_true _⟩
    exact absurd hlast (by simp)
  exact hσ ▸ ht

/-- `n - 1`, as a `size_t`. -/
@[irreducible] def sizeDec (n : ℕ) : ℕ := (n + (2 ^ 64 - 1)) % 2 ^ 64

def freeMapAllocate (sectors : ℕ) : FsCall ℕ := do
  lockAcquire .freeMap
  let s ← Call.get
  let r := bitmapScanAndFlip s.fs.freeMapVar 0 sectors false
  Call.modify fun s =>
    { s with fs := { s.fs with freeMapVar := r.2 }, log := s.log ++ [.allocated r.1 sectors] }
  lockRelease .freeMap
  return r.1

def freeMapRelease (start sectors : ℕ) : FsCall Unit := do
  lockAcquire .freeMap
  Call.modify fun s =>
    { s with
      fs := { s.fs with freeMapVar := bitmapSet s.fs.freeMapVar start sectors false }
      log := s.log ++ [.released start sectors] }
  lockRelease .freeMap

/-- `inode_disk_insert_extent`, whose body is empty. -/
def inodeDiskInsertExtent (idisk : InodeDisk) (_ext : InodeExtent) : InodeDisk := idisk

/-- `while ((start = free_map_allocate(bestattempt)) == BITMAP_NPOS) bestattempt--;`, to `start` and `bestattempt`. -/
def attemptLoop : ℕ → ℕ → FsCall (ℕ × ℕ)
  | 0, _ => Call.stop .endless
  | fuel + 1, bestattempt => do
    let start ← freeMapAllocate bestattempt
    if start = bitmapNpos then attemptLoop fuel (sizeDec bestattempt) else return (start, bestattempt)

/-- `while (sectors > 0)`. -/
def spaceLoop : ℕ → InodeDisk → ℕ → FsCall InodeDisk
  | 0, _, _ => Call.stop .endless
  | fuel + 1, idisk, sectors =>
    if sectors > 0 then do
      let r ← attemptLoop fuel sectors
      let ext : InodeExtent := ⟨BitVec.ofNat 32 r.1, BitVec.ofNat 32 r.2⟩
      spaceLoop fuel (inodeDiskInsertExtent idisk ext) ((sectors + (2 ^ 64 - r.2)) % 2 ^ 64)
    else return idisk

def inodeDiskAllocateSpace (fuel : ℕ) (idisk : InodeDisk) (sectors : ℕ) : FsCall (Bool × InodeDisk) := do
  lockAcquire .freeMap
  let s ← Call.get
  let r ←
    if sectors ≤ s.fs.freeSectors then do
      lockRelease .freeMap
      let idisk ← spaceLoop fuel idisk sectors
      pure (true, idisk)
    else pure (false, idisk)
  lockRelease .freeMap
  return r

/-! ### Inodes in memory -/

/-- `elem_value(el, struct inode, inode_map_elem)`. -/
def elemValue {L : Type} : Elem L (Option Addr) → Option Addr
  | .null => some nullInode
  | .node (some p) => some p
  | _ => none

def getInode (sector : BitVec 64) : FsCall Addr := do
  lockAcquire .inodeMap
  let s ← Call.get
  let inodeEl ← Call.ofOption .wild (hashtableFind s.fs.inodeMap (s.fs.key sector) none)
  lockRelease .inodeMap
  Call.ofOption .wild (elemValue inodeEl)

/-- `open_inode`.  `block` is what `kcalloc` returns, and `fresh` what is there after `ide_read_sectors`. -/
def openInode (sector : BitVec 64) (block : Addr) (fresh : Inode) : FsCall Addr := do
  lockAcquire .freeMap
  lockRelease .freeMap
  lockAcquire .inodeMap
  let node ← getInode sector
  let node ←
    if node = 0 then do
      modifyFs fun fs => { fs with inodes := update fs.inodes block (some { fresh with openCount := 1, sector := sector }) }
      lockInit (.node block)
      let s ← Call.get
      let inodeMap ← Call.ofOption .wild (hashtableInsert s.fs.inodeMap (s.fs.key sector) (some block))
      modifyFs fun fs => { fs with inodeMap := inodeMap }
      pure block
    else do
      let inode ← getNode node
      let opened := { inode with openCount := (inode.openCount + 1) % 2 ^ 64 }
      modifyFs fun fs => { fs with inodes := update fs.inodes node (some opened) }
      pure node
  lockRelease .inodeMap
  return node

def inodeExtentFree (ext : InodeExtent) : FsCall Unit := do
  lockAcquire .freeMap
  lockRelease .freeMap
  freeMapRelease ext.start.toNat ext.sectors.toNat

def inodeFreeData (idisk : InodeDisk) : FsCall Unit := fun s =>
  let v := idisk.foreach (fun ext r => (inodeExtentFree ext).resume r) none none ⟨s.fs.disk, (.ok (), s)⟩
  (v.aux.1, { v.aux.2 with fs := { v.aux.2.fs with disk := v.disk } })

/-- `inode_read_at` and `inode_write_at`, without the bytes: `inode_offset` goes through the extents with an action that
does nothing. -/
def inodeTransferAt (inode : Addr) (count : ℕ) : FsCall ℕ := do
  nodeAcquire inode
  nodeRelease inode
  return blockResult count

def inodeReadAt (inode : Addr) (count : ℕ) : FsCall ℕ := inodeTransferAt inode count

def inodeWriteAt (inode : Addr) (count : ℕ) : FsCall ℕ := inodeTransferAt inode count

/-- The last reference goes away: `inode_close` up to `kfree(node)`.  `inode_free_data` is given the `struct inode`
itself. -/
def inodeDrop (node : Addr) (inode : Inode) : FsCall Unit := do
  if inode.removed then inodeFreeData (inodeDiskOf inode.self)
  else modifyFs fun fs => { fs with disk := update fs.disk (inode.sector.setWidth 32) inode.data }
  let s ← Call.get
  let inodeMap ← Call.ofOption .wild (hashtableRemove s.fs.inodeMap (s.fs.key 0) (some node))
  Call.modify fun s =>
    { s.event (.free (.node node)) with
      fs := { s.fs with inodeMap := inodeMap, inodes := update s.fs.inodes node none } }

def inodeClose (node : Addr) : FsCall Unit := do
  lockAcquire .inodeMap
  nodeAcquire node
  let inode ← getNode node
  let inode := { inode with openCount := sizeDec inode.openCount }
  modifyFs fun fs => { fs with inodes := update fs.inodes node (some inode) }
  if inode.openCount = 0 then inodeDrop node inode
  else nodeRelease node
  lockRelease .inodeMap

/-! ### Files and directories -/

/-- What `resolve_path` comes to: it has no `return`, and does not set `*parent`. -/
structure Resolved where
  filename : Option (ℕ → Byte)
  parent : Addr

/-- `dir_get_mapping`, with the lock of the directory taken for each slot; `data` is what it reads. -/
def dirMapping (dir : Addr) (data name : ℕ → Byte) : FsCall (BitVec 64) := do
  let inode ← getFile dir
  let mapping := dirGetMapping data name
  Call.rounds (inodeReadAt inode direntSize) ((mapping.2.map fun ofs => ofs / direntSize + 1).getD (dirSlots + 1))
  return mapping.1

def initFile (file inode : Addr) : FsCall Unit := do
  modifyFs fun fs => { fs with files := update fs.files file (some inode) }
  nodeAcquire inode
  nodeRelease inode

def fileClose (f : Addr) : FsCall Unit := do
  if f ≠ 0 then do
    let inode ← getFile f
    inodeClose inode
    modifyFs fun fs => { fs with files := update fs.files f none }

def dirClose (dir : Addr) : FsCall Unit := fileClose dir

/-- `open_file`; `block` is what `kcalloc` returns. -/
def openFile (path : Resolved) (data : ℕ → Byte) (block : Addr) : FsCall Addr := do
  let file ←
    match path.filename with
    | some filename => do
      let sector ← dirMapping path.parent data filename
      let inode ← getInode sector
      initFile block inode
      pure block
    | none => pure 0
  dirClose path.parent
  return file

def openDir (relative : Addr) (path : Resolved) (data : ℕ → Byte) (block : Addr) : FsCall Addr := do
  let inode ←
    match path.filename with
    | some filename => do
      let sector ← dirMapping path.parent data filename
      getInode sector
    | none =>
      if path.parent ≠ 0 then do
        let node ← getFile relative
        let inode ← getNode node
        getInode inode.sector
      else pure 0
  let dir ←
    if inode ≠ 0 then do
      initFile block inode
      pure block
    else pure 0
  dirClose path.parent
  return dir

/-- `ROOT_DIR_SECTOR`. -/
def rootDirSector : BitVec 64 := 0

def getRootDir (block : Addr) : FsCall Addr := do
  let inode ← getInode rootDirSector
  modifyFs fun fs => { fs with files := update fs.files block (some inode) }
  return block

/-- `dir_remove`, which returns no value; `data` is what the directory reads as. -/
def dirRemove (dir : Addr) (data name : ℕ → Byte) : FsCall Unit := do
  let sector ← dirMapping dir data name
  if sector ≠ dirNpos then do
    let inode ← getFile dir
    let _ ← inodeWriteAt inode direntSize
    let s ← Call.get
    inodeFreeData (inodeDiskOf (s.fs.disk (sector.setWidth 32)))

/-! ### A thread on its own -/

/-- No other thread runs, and `I` holds of what is shared and of what the thread has done to the free map. -/
structure Alone (I : Fs → List MapCall → Prop) (s : FsState) : Prop where
  inv : I s.fs s.log
  others : s.others = []

section
open Call

variable {I : Fs → List MapCall → Prop}

theorem wait_sema (s : FsState) : s.wait.sema = s.sema := by
  unfold FsState.wait
  split <;> rfl

theorem wait_of_alone {s : FsState} (h : s.others = []) : s.wait = s := by
  unfold FsState.wait
  rw [h]

theorem alone_acquire (l : FsLock) : Keeps (Alone I) (lockAcquire l) := by
  intro s hs
  have hw : (s.event (.acquire l)).wait = s.event (.acquire l) := wait_of_alone hs.others
  unfold lockAcquire
  simp only [hw]
  split_ifs
  · exact ⟨hs.inv, hs.others⟩
  · exact ⟨hs.inv, hs.others⟩

theorem alone_release (l : FsLock) : Keeps (Alone I) (lockRelease l) := .modify fun _ hs => ⟨hs.inv, hs.others⟩

theorem alone_init (l : FsLock) : Keeps (Alone I) (lockInit l) := .modify fun _ hs => ⟨hs.inv, hs.others⟩

theorem alone_modifyFs {f : Fs → Fs} (h : ∀ fs log, I fs log → I (f fs) log) : Keeps (Alone I) (modifyFs f) :=
  .modify fun _ hs => ⟨h _ _ hs.inv, hs.others⟩

theorem alone_lookup {A : Type} (f : Fs → Option A) : Triple (Alone I) (do let s ← Call.get; Call.ofOption Stop.wild (f s.fs))
    (fun a s => Alone I s ∧ f s.fs = some a) fun _ => Alone I := by
  refine .bind (.get (Q := fun s t => Alone I t ∧ s = t) fun s hs => ⟨hs, rfl⟩) fun s => ?_
  exact .ofOption (fun _ t ho ht => ⟨ht.1, ht.2 ▸ ho⟩) fun _ _ _ ht => ht.1

theorem alone_getNode (p : Addr) : Triple (Alone I) (getNode p)
    (fun inode s => Alone I s ∧ s.fs.inodes p = some inode) fun _ => Alone I := alone_lookup fun fs => fs.inodes p

theorem keeps_getNode (p : Addr) : Keeps (Alone I) (getNode p) :=
  (alone_getNode p).conseq (fun _ => id) (fun _ _ h => h.1) fun _ _ => id

theorem keeps_getFile (f : Addr) : Keeps (Alone I) (getFile f) :=
  (alone_lookup fun fs => fs.files f).conseq (fun _ => id) (fun _ _ h => h.1) fun _ _ => id

theorem alone_nodeAcquire (p : Addr) : Keeps (Alone I) (nodeAcquire p) :=
  .bind (keeps_getNode p) fun _ => alone_acquire _

theorem alone_getInode (sector : BitVec 64) : Keeps (Alone I) (getInode sector) := by
  refine .bind (alone_acquire _) fun _ => .bind .get fun s => .bind (.ofOption _ _) fun _ => ?_
  exact .bind (alone_release _) fun _ => .ofOption _ _

theorem alone_transfer (inode : Addr) (count : ℕ) : Keeps (Alone I) (inodeTransferAt inode count) :=
  .bind (alone_nodeAcquire _) fun _ => .bind (alone_release _) fun _ => .pure _

theorem alone_mapped (dir : Addr) (data name : ℕ → Byte) : Triple (Alone I) (dirMapping dir data name)
    (fun sector s => sector = (dirGetMapping data name).1 ∧ Alone I s) fun _ => Alone I := by
  refine .bind (keeps_getFile dir) fun inode => ?_
  exact .bind (Keeps.rounds (alone_transfer _ _) _) fun _ => .pure fun s hs => ⟨rfl, hs⟩

theorem alone_dirMapping (dir : Addr) (data name : ℕ → Byte) : Keeps (Alone I) (dirMapping dir data name) :=
  (alone_mapped dir data name).conseq (fun _ => id) (fun _ _ h => h.2) fun _ _ => id

theorem alone_inodeExtentFree (hmap : ∀ fs log freeMapVar e, I fs log → I { fs with freeMapVar := freeMapVar } (log ++ [e]))
    (ext : InodeExtent) : Keeps (Alone I) (inodeExtentFree ext) := by
  refine .bind (alone_acquire _) fun _ => .bind (alone_release _) fun _ => .bind (alone_acquire _) fun _ => ?_
  exact .bind (.modify fun s hs => ⟨hmap _ _ _ _ hs.inv, hs.others⟩) fun _ => alone_release _

theorem alone_inodeFreeData (hmap : ∀ fs log freeMapVar e, I fs log → I { fs with freeMapVar := freeMapVar } (log ++ [e]))
    (hdisk : ∀ fs log disk, I fs log → I { fs with disk := disk } log) (idisk : InodeDisk) :
    Keeps (Alone I) (inodeFreeData idisk) := by
  intro s hs
  unfold inodeFreeData
  generalize hv : idisk.foreach (fun ext r => (inodeExtentFree ext).resume r) none none ⟨s.fs.disk, (.ok (), s)⟩ = v
  have hend : Ends (fun _ => Alone I) (fun _ => Alone I) v.aux := by
    rw [← hv]
    exact InodeDisk.foreach_keeps (P := Ends (fun _ => Alone I) fun _ => Alone I) (by simp)
      (fun e _ ha => (alone_inodeExtentFree hmap e).resume ha) hs
  obtain ⟨disk, r, t⟩ := v
  cases r with
  | ok a => exact ⟨hdisk _ _ _ hend.inv, hend.others⟩
  | error e => exact ⟨hdisk _ _ _ hend.inv, hend.others⟩

/-! What the functions on files and directories keep, when it is not about these. -/

variable (hfiles : ∀ fs log files, I fs log → I { fs with files := files } log)
include hfiles

theorem alone_initFile (file inode : Addr) : Keeps (Alone I) (initFile file inode) := by
  refine .bind (alone_modifyFs fun fs log h => hfiles fs log _ h) fun _ => ?_
  exact .bind (alone_nodeAcquire _) fun _ => alone_release _

theorem alone_getRootDir (block : Addr) : Keeps (Alone I) (getRootDir block) := by
  refine .bind (alone_getInode _) fun _ => ?_
  exact .bind (alone_modifyFs fun fs log h => hfiles fs log _ h) fun _ => .pure _

variable (hclose : ∀ p, Keeps (Alone I) (inodeClose p))
include hclose

theorem alone_fileClose (f : Addr) : Keeps (Alone I) (fileClose f) := by
  refine .ite (fun _ => ?_) fun _ => .pure _
  refine .bind (keeps_getFile f) fun inode => ?_
  exact .bind (hclose inode) fun _ => alone_modifyFs fun fs log h => hfiles fs log _ h

theorem alone_openFile (path : Resolved) (data : ℕ → Byte) (block : Addr) : Keeps (Alone I) (openFile path data block) := by
  have hdone : ∀ file : Addr, Keeps (Alone I) (do dirClose path.parent; return file) := fun file =>
    .bind (alone_fileClose hfiles hclose _) fun _ => .pure _
  unfold openFile
  cases path.filename with
  | none => exact .bind (.pure _) hdone
  | some filename =>
      refine .bind (alone_dirMapping _ _ _) fun sector => .bind (alone_getInode _) fun inode => ?_
      exact .bind (alone_initFile hfiles _ _) fun _ => .bind (.pure _) hdone

theorem alone_openDir (relative : Addr) (path : Resolved) (data : ℕ → Byte) (block : Addr) :
    Keeps (Alone I) (openDir relative path data block) := by
  have hdone : ∀ dir : Addr, Keeps (Alone I) (do dirClose path.parent; return dir) := fun dir =>
    .bind (alone_fileClose hfiles hclose _) fun _ => .pure _
  have hopen : ∀ inode : Addr, Keeps (Alone I) (do
      let dir ←
        if inode ≠ 0 then do
          initFile block inode
          pure block
        else pure 0
      dirClose path.parent
      return dir) := by
    intro inode
    refine .ite (fun _ => ?_) fun _ => .bind (.pure _) hdone
    exact .bind (alone_initFile hfiles _ _) fun _ => .bind (.pure _) hdone
  unfold openDir
  cases path.filename with
  | none =>
      refine .ite (fun _ => ?_) fun _ => .bind (.pure _) hopen
      refine .bind (keeps_getFile relative) fun node => ?_
      refine .bind (keeps_getNode node) fun inode => ?_
      exact .bind (alone_getInode _) hopen
  | some filename => exact .bind (alone_dirMapping _ _ _) fun sector => .bind (alone_getInode _) hopen

end

end Filesys

end Dunkos
