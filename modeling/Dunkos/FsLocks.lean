import Dunkos.Filesys

/-! # The locks of the filesystem

A function is right when it acquires only locks that the thread does not hold, releases only locks that it holds, and
returns holding none; a lock in an inode that it frees is gone.  Other threads may do anything to the shared state that
keeps it standing, whenever the function waits for a lock.

`lock_discipline` says that all nine functions are right but two: `open_inode` waits for a lock that it holds itself, and
`inode_disk_allocate_space` releases a lock twice unless it refuses.  The calls that are right can be made by any number of
threads. -/

namespace Dunkos

namespace Filesys

open Call Function LockTrace

/-- `inode_map` is a table of inodes that are there. -/
def Valid (fs : Fs) : Prop := ∃ last σ, (∀ sector, Table fs.inodeMap (fs.key sector) last σ) ∧
  ∀ i, ∀ e ∈ σ i, ∃ p, e = some p ∧ (fs.inodes p).isSome

/-- What other threads may not change: the table is in order, the inode that the caller refers to stays, and nobody writes
`fs_free_sectors`. -/
structure Standing (node : Option Addr) (free : ℕ) (fs : Fs) : Prop where
  valid : Valid fs
  node : ∀ p, node = some p → (fs.inodes p).isSome
  free : fs.freeSectors = free

/-- The thread has been disciplined so far, and holds the locks `held`. -/
structure Traced (held : FsLock → Bool) (s : FsState) : Prop where
  disciplined : Disciplined (fun _ => false) s.events
  held : heldAfter (fun _ => false) s.events = held

/-- Moreover the semaphores say so, and the shared state stands and will. -/
structure Good (node : Option Addr) (free : ℕ) (held : FsLock → Bool) (s : FsState) : Prop where
  traced : Traced held s
  sema : ∀ l, s.sema l = if held l then 0 else 1
  standing : Standing node free s.fs
  others : ∀ f ∈ s.others, ∀ fs, Standing node free fs → Standing node free (f fs)

section
variable {node : Option Addr} {free : ℕ} {held : FsLock → Bool}

theorem update_back {l : FsLock} (hl : held l = false) : update (update held l true) l false = held := by
  rw [update_idem, ← hl, update_eq_self]

theorem Traced.event {s t : FsState} (h : Traced held s) {e : Event FsLock} (he : e.Allowed held)
    (ht : t.events = s.events ++ [e]) : Traced (e.apply held) t := by
  refine ⟨?_, ?_⟩
  · rw [ht, disciplined_concat, h.held]
    exact ⟨h.disciplined, he⟩
  · rw [ht, heldAfter_append, h.held]
    rfl

theorem Traced.of_events {s t : FsState} (h : Traced held s) (ht : t.events = s.events) : Traced held t := by
  refine ⟨?_, ?_⟩
  · rw [ht]
    exact h.disciplined
  · rw [ht]
    exact h.held

theorem wait_events (s : FsState) : s.wait.events = s.events := by
  unfold FsState.wait
  split <;> rfl

/-- The other threads leave the shared state standing. -/
theorem wait_standing {s : FsState} (hs : Standing node free s.fs)
    (ho : ∀ f ∈ s.others, ∀ fs, Standing node free fs → Standing node free (f fs)) :
    Standing node free s.wait.fs ∧ ∀ f ∈ s.wait.others, ∀ fs, Standing node free fs → Standing node free (f fs) := by
  unfold FsState.wait
  split
  · exact ⟨hs, ho⟩
  case h_2 f fs h =>
      rw [h] at ho
      exact ⟨ho f List.mem_cons_self _ hs, fun g hg => ho g (List.mem_cons_of_mem f hg)⟩

theorem sema_update {s : FsState} {l : FsLock} {v : Bool} {n : ℕ} (h : ∀ m, s.sema m = if held m then 0 else 1)
    (hn : n = if v then 0 else 1) (m : FsLock) : (s.setSema l n).sema m = if update held l v m then 0 else 1 := by
  by_cases hm : m = l
  · subst hm
    simp [FsState.setSema, hn]
  · simpa [FsState.setSema, hm] using h m

theorem good_acquire {l : FsLock} (hl : held l = false) :
    Returns (Good node free held) (lockAcquire l) fun _ => Good node free (update held l true) := by
  intro s hs
  obtain ⟨hstand, hothers⟩ := wait_standing (s := s.event (.acquire l)) hs.standing hs.others
  have hsema : (s.event (.acquire l)).wait.sema = s.sema := wait_sema _
  have hone : s.sema l = 1 := by simp [hs.sema, hl]
  unfold lockAcquire
  simp only [hsema, hone, one_ne_zero, if_false]
  refine ⟨hs.traced.event (e := .acquire l) hl ?_, sema_update (fun m => ?_) rfl, hstand, hothers⟩
  · exact wait_events _
  · rw [hsema]
    exact hs.sema m

/-- A thread that acquires what it holds waits for ever. -/
theorem good_blocked {l : FsLock} (hl : held l = true) {Q : Unit → FsState → Prop} :
    Triple (Good node free held) (lockAcquire l) Q fun _ _ => True := by
  intro s hs
  have hsema : (s.event (.acquire l)).wait.sema = s.sema := wait_sema _
  have hzero : s.sema l = 0 := by simp [hs.sema, hl]
  unfold lockAcquire
  simp only [hsema, hzero, if_true]
  trivial

/-- A lock that was not held before it was acquired is given back. -/
theorem good_release {l : FsLock} (hl : held l = false) :
    Returns (Good node free (update held l true)) (lockRelease l) fun _ => Good node free held := by
  intro s hs
  have hzero : s.sema l = 0 := by simp [hs.sema]
  rw [← update_back hl]
  refine ⟨hs.traced.event (e := .release l) (update_self _ _ _) rfl, sema_update hs.sema ?_, hs.standing, hs.others⟩
  rw [hzero]
  rfl

theorem traced_release {l : FsLock} (hl : held l = false) :
    Returns (Traced (update held l true)) (lockRelease l) fun _ => Traced held := by
  intro s hs
  rw [← update_back hl]
  exact hs.event (e := .release l) (update_self _ _ _) rfl

theorem good_modify {f : FsState → FsState} (h : ∀ s, Good node free held s → Good node free held (f s)) :
    Returns (Good node free held) (Call.modify f : FsCall Unit) fun _ => Good node free held := h

theorem good_modifyFs {f : Fs → Fs} (h : ∀ fs, Standing node free fs → Standing node free (f fs)) :
    Returns (Good node free held) (modifyFs f) fun _ => Good node free held :=
  good_modify fun _ hs => ⟨hs.traced.of_events rfl, hs.sema, h _ hs.standing, hs.others⟩

theorem good_get : Returns (Good node free held) (Call.get : FsCall FsState)
    fun s t => Standing node free s.fs ∧ Good node free held t :=
  fun _ hs => ⟨hs.standing, hs⟩

/-! ### The functions -/

theorem Standing.freeMapVar {fs : Fs} (h : Standing node free fs) (freeMapVar : Bitmap) :
    Standing node free { fs with freeMapVar := freeMapVar } := ⟨h.valid, h.node, h.free⟩

theorem Standing.disk {fs : Fs} (h : Standing node free fs) (disk : Disk) :
    Standing node free { fs with disk := disk } := ⟨h.valid, h.node, h.free⟩

theorem Standing.setInode {fs : Fs} (h : Standing node free fs) {p : Addr} {n n' : Inode} (hn : fs.inodes p = some n)
    (hsector : n'.sector = n.sector) : Standing node free { fs with inodes := update fs.inodes p (some n') } := by
  have hsome : ∀ q, (fs.inodes q).isSome → (update fs.inodes p (some n') q).isSome := by
    intro q hq
    by_cases hqp : q = p
    · simp [hqp]
    · simpa [hqp] using hq
  have hkey : ∀ sector, ({ fs with inodes := update fs.inodes p (some n') } : Fs).key sector = fs.key sector := by
    intro sector
    funext e
    cases e with
    | none => rfl
    | some q =>
        by_cases hqp : q = p
        · subst hqp
          simp [Fs.key, hn, hsector]
        · simp [Fs.key, hqp]
  obtain ⟨last, σ, htable, hnodes⟩ := h.valid
  refine ⟨⟨last, σ, fun sector => ?_, fun i e he => ?_⟩, fun q hq => hsome q (h.node q hq), h.free⟩
  · rw [hkey]
    exact htable sector
  · obtain ⟨q, hq, hq'⟩ := hnodes i e he
    exact ⟨q, hq, hsome q hq'⟩

theorem good_getNode (p : Addr) : Returns (Good (some p) free held) (getNode p)
    fun n s => Good (some p) free held s ∧ s.fs.inodes p = some n := by
  intro s hs
  obtain ⟨n, hn⟩ := Option.isSome_iff_exists.mp (hs.standing.node p rfl)
  have hget : getNode p s = (.ok n, s) := by
    show Call.ofOption Stop.wild (s.fs.inodes p) s = _
    rw [hn]
    rfl
  rw [hget]
  exact ⟨hs, hn⟩

theorem good_freeMapAllocate (hl : held .freeMap = false) (sectors : ℕ) :
    Returns (Good node free held) (freeMapAllocate sectors) fun _ => Good node free held := by
  refine .bind (good_acquire hl) fun _ => .bind (.get fun _ hs => hs) fun s => ?_
  refine .bind (good_modify fun t ht => ⟨ht.traced.of_events rfl, ht.sema, ht.standing.freeMapVar _, ht.others⟩) fun _ => ?_
  exact .bind (good_release hl) fun _ => .pure fun _ => id

theorem good_freeMapRelease (hl : held .freeMap = false) (start sectors : ℕ) :
    Returns (Good node free held) (freeMapRelease start sectors) fun _ => Good node free held := by
  refine .bind (good_acquire hl) fun _ => ?_
  refine .bind (good_modify fun t ht => ⟨ht.traced.of_events rfl, ht.sema, ht.standing.freeMapVar _, ht.others⟩) fun _ => ?_
  exact good_release hl

theorem good_inodeExtentFree (hl : held .freeMap = false) (ext : InodeExtent) :
    Returns (Good node free held) (inodeExtentFree ext) fun _ => Good node free held := by
  exact .bind (good_acquire hl) fun _ => .bind (good_release hl) fun _ => good_freeMapRelease hl _ _

theorem good_inodeFreeData (hl : held .freeMap = false) (idisk : InodeDisk) :
    Returns (Good node free held) (inodeFreeData idisk) fun _ => Good node free held := by
  intro s hs
  unfold inodeFreeData
  generalize hv : idisk.foreach (fun ext r => (inodeExtentFree ext).resume r) none none ⟨s.fs.disk, (.ok (), s)⟩ = v
  have hend : Ends (fun _ => Good node free held) (fun _ _ => False) v.aux := by
    rw [← hv]
    exact InodeDisk.foreach_keeps (P := Ends (fun _ => Good node free held) fun _ _ => False) (by simp)
      (fun e _ ha => (good_inodeExtentFree hl e).resume ha) hs
  obtain ⟨disk, r, t⟩ := v
  cases r with
  | ok a =>
      exact ⟨hend.traced.of_events rfl, hend.sema, hend.standing.disk _, hend.others⟩
  | error e => exact hend

theorem Valid.find {fs : Fs} (h : Valid fs) (sector : BitVec 64) :
    ∃ el p, hashtableFind fs.inodeMap (fs.key sector) none = some el ∧ elemValue el = some p := by
  obtain ⟨last, σ, htable, hnodes⟩ := h
  rw [(htable sector).find_eq]
  cases hlast : last (fs.key sector none) with
  | none => exact ⟨.null, nullInode, rfl, rfl⟩
  | some e =>
      obtain ⟨p, rfl, -⟩ := hnodes _ e (((htable sector).last_iff _ e).mp hlast).1
      exact ⟨.node (some p), p, rfl, rfl⟩

theorem good_getInode (hl : held .inodeMap = false) (sector : BitVec 64) :
    Returns (Good node free held) (getInode sector) fun _ => Good node free held := by
  refine .bind (good_acquire hl) fun _ => .bind good_get fun s => .intro fun hs => ?_
  obtain ⟨el, p, hfind, hvalue⟩ := hs.valid.find sector
  rw [hfind]
  refine .bind (.pure (Q := fun e t => e = el ∧ Good node free (update held .inodeMap true) t) fun t ht => ⟨rfl, ht⟩)
    fun e => .intro fun he => ?_
  subst he
  rw [hvalue]
  exact .bind (good_release hl) fun _ => .pure fun _ => id

/-- `open_inode` does not return. -/
theorem openInode_stops (hl : held .freeMap = false) (hl' : held .inodeMap = false) (sector : BitVec 64) (block : Addr)
    (fresh : Inode) : Triple (Good node free held) (openInode sector block fresh) (fun _ _ => False) fun _ _ => True := by
  have hstop : Triple (Good node free (update held .inodeMap true)) (getInode sector) (fun _ _ => False) fun _ _ => True :=
    .bind (good_blocked (update_self _ _ _)) fun _ => .unreached
  refine .bind (good_acquire hl |>.triple) fun _ => .bind (good_release hl |>.triple) fun _ => ?_
  refine .bind (good_acquire hl' |>.triple) fun _ => ?_
  exact .bind hstop fun _ => .unreached

theorem good_attempt (hl : held .freeMap = false) (fuel n : ℕ) :
    Triple (Good node free held) (attemptLoop fuel n) (fun _ => Good node free held) fun _ _ => True := by
  induction fuel generalizing n with
  | zero => exact .stop fun _ _ => trivial
  | succ fuel ih =>
      refine .bind (good_freeMapAllocate hl n |>.triple) fun start => ?_
      exact .ite (fun _ => ih _) fun _ => .pure fun _ => id

theorem good_space (hl : held .freeMap = false) (fuel n : ℕ) (idisk : InodeDisk) :
    Triple (Good node free held) (spaceLoop fuel idisk n) (fun _ => Good node free held) fun _ _ => True := by
  induction fuel generalizing idisk n with
  | zero => exact .stop fun _ _ => trivial
  | succ fuel ih =>
      refine .ite (fun _ => ?_) fun _ => .pure fun _ => id
      exact .bind (good_attempt hl fuel n) fun r => ih _ _

/-- A request that is refused. -/
theorem good_allocateSpace (hl : held .freeMap = false) {n : ℕ} (hn : free < n) (fuel : ℕ) (idisk : InodeDisk) :
    Returns (Good node free held) (inodeDiskAllocateSpace fuel idisk n) fun _ => Good node free held := by
  refine .bind (good_acquire hl) fun _ => .bind good_get fun s => .intro fun hs => ?_
  refine .ite (fun hle => absurd hle (by rw [hs.free]; omega)) fun _ => ?_
  exact .bind (.pure fun _ => id) fun _ => .bind (good_release hl) fun _ => .pure fun _ => id

/-- After any other request the lock is released once more. -/
theorem allocateSpace_undisciplined (hl : held .freeMap = false) {n : ℕ} (hn : n ≤ free) (fuel : ℕ) (idisk : InodeDisk) :
    Triple (Good node free held) (inodeDiskAllocateSpace fuel idisk n)
      (fun _ s => ¬ Disciplined (fun _ => false) s.events) fun _ _ => True := by
  have hrelease : Triple (Good node free held) (lockRelease .freeMap)
      (fun _ s => ¬ Disciplined (fun _ => false) s.events) fun _ _ => True := by
    intro s hs
    show ¬ Disciplined _ (s.events ++ [.release .freeMap])
    rw [disciplined_concat, hs.traced.held]
    rintro ⟨-, h⟩
    exact absurd (hl.symm.trans h) (by decide)
  refine .bind (good_acquire hl |>.triple) fun _ => ?_
  refine .bind (good_get.triple) fun s => .intro fun hs => ?_
  refine .ite (fun _ => ?_) fun hle => absurd hle (by rw [hs.free]; omega)
  refine .bind (good_release hl |>.triple) fun _ => ?_
  refine .bind (good_space hl fuel n idisk) fun _ => .bind (.pure (Q := fun _ => Good node free held) fun _ => id) fun _ => ?_
  exact .bind hrelease fun _ => .pure fun _ => id

theorem good_nodeAcquire {p : Addr} (hl : held (.node p) = false) :
    Returns (Good (some p) free held) (nodeAcquire p) fun _ => Good (some p) free (update held (.node p) true) :=
  .bind ((good_getNode p).conseq (fun _ => id) (fun _ _ h => h.1) fun _ _ => id) fun _ => good_acquire hl

theorem good_transfer {p : Addr} (hl : held (.node p) = false) (count : ℕ) :
    Returns (Good (some p) free held) (inodeTransferAt p count) fun _ => Good (some p) free held := by
  exact .bind (good_nodeAcquire hl) fun _ => .bind (good_release hl) fun _ => .pure fun _ => id

/-- The lock of an inode goes with the inode. -/
theorem good_inodeDrop {p : Addr} (hl : held .freeMap = false) (hp : held (.node p) = true) (inode : Inode) :
    Returns (Good node free held) (inodeDrop p inode) fun _ => Traced (update held (.node p) false) := by
  have hfree : Returns (Good node free held) (do
      let s ← Call.get
      let inodeMap ← Call.ofOption Stop.wild (hashtableRemove s.fs.inodeMap (s.fs.key 0) (some p))
      Call.modify fun s =>
        { s.event (.free (.node p)) with
          fs := { s.fs with inodeMap := inodeMap, inodes := update s.fs.inodes p none } })
      fun _ => Traced (update held (.node p) false) := by
    refine .bind good_get fun s => .intro fun hs => ?_
    obtain ⟨last, σ, htable, -⟩ := hs.valid
    obtain ⟨con, -, hremove, -⟩ := (htable 0).remove (some p)
    rw [hremove]
    refine .bind (.pure (Q := fun _ => Good node free held) fun _ => id) fun h => ?_
    exact .modify fun t ht => ht.traced.event (e := .free (.node p)) hp rfl
  refine .ite (fun _ => ?_) fun _ => ?_
  · exact .bind (good_inodeFreeData hl _) fun _ => hfree
  · exact .bind (good_modifyFs fun fs h => h.disk _) fun _ => hfree

theorem good_inodeClose {p : Addr} (hl : ∀ l, held l = false) :
    Returns (Good (some p) free held) (inodeClose p) fun _ => Traced held := by
  have hnode : update held .inodeMap true (.node p) = false := by simpa using hl (.node p)
  have hmap : Returns (Traced (update held .inodeMap true)) (lockRelease .inodeMap) fun _ => Traced held :=
    traced_release (hl _)
  have hmap' : held .freeMap = false := hl _
  refine .bind (good_acquire (hl _)) fun _ => .bind (good_nodeAcquire hnode) fun _ => .bind (good_getNode p) fun inode => ?_
  refine .bind (Q := fun _ => Good (some p) free (update (update held .inodeMap true) (.node p) true)) (.modify fun s hs =>
    ⟨hs.1.traced.of_events rfl, hs.1.sema, hs.1.standing.setInode hs.2 rfl, hs.1.others⟩) fun _ => ?_
  refine .ite (fun _ => ?_) fun _ => ?_
  · refine .bind (good_inodeDrop (by simpa using hmap') (update_self _ _ _) _) fun _ => ?_
    rwa [update_back hnode]
  · exact .bind ((good_release hnode).conseq (fun _ => id) (fun _ _ h => h.traced) fun _ _ => id) fun _ => hmap

end

/-! ### The discipline -/

/-- A call of one of the nine functions. -/
inductive LockCall where
  | allocateSpace (idisk : InodeDisk) (sectors : ℕ)
  | freeMapAllocate (sectors : ℕ)
  | freeMapRelease (start sectors : ℕ)
  | getInode (sector : BitVec 64)
  | openInode (sector : BitVec 64) (block : Addr) (fresh : Inode)
  | inodeExtentFree (ext : InodeExtent)
  | inodeReadAt (inode : Addr) (count : ℕ)
  | inodeWriteAt (inode : Addr) (count : ℕ)
  | inodeClose (node : Addr)

namespace LockCall

/-- The inode it is called with. -/
def node : LockCall → Option Addr
  | inodeReadAt p _ => some p
  | inodeWriteAt p _ => some p
  | inodeClose p => some p
  | _ => none

def run (fuel : ℕ) : LockCall → FsCall Unit
  | allocateSpace idisk sectors => do let _ ← inodeDiskAllocateSpace fuel idisk sectors
  | freeMapAllocate sectors => do let _ ← Filesys.freeMapAllocate sectors
  | freeMapRelease start sectors => Filesys.freeMapRelease start sectors
  | getInode sector => do let _ ← Filesys.getInode sector
  | openInode sector block fresh => do let _ ← Filesys.openInode sector block fresh
  | inodeExtentFree ext => Filesys.inodeExtentFree ext
  | inodeReadAt p count => do let _ ← Filesys.inodeReadAt p count
  | inodeWriteAt p count => do let _ ← Filesys.inodeWriteAt p count
  | inodeClose p => Filesys.inodeClose p

/-- The calls that keep the discipline, when `fs_free_sectors` is `free`. -/
def Meets (free : ℕ) : LockCall → Prop
  | allocateSpace _ sectors => free < sectors
  | openInode .. => False
  | _ => True

/-- The thread holds no lock; it has done nothing so far. -/
structure Start (call : LockCall) (s : FsState) : Prop where
  events : s.events = []
  sema : ∀ l, s.sema l = 1
  standing : Standing call.node s.fs.freeSectors s.fs
  others : ∀ f ∈ s.others, ∀ fs, Standing call.node s.fs.freeSectors fs → Standing call.node s.fs.freeSectors (f fs)

theorem Start.good {call : LockCall} {s : FsState} (h : call.Start s) :
    Good call.node s.fs.freeSectors (fun _ => false) s := by
  refine ⟨⟨?_, ?_⟩, fun l => ?_, h.standing, h.others⟩
  · rw [h.events]
    trivial
  · rw [h.events]
    rfl
  · rw [h.sema]
    rfl

/-- The call has returned, its use of the locks is disciplined, and it holds none. -/
structure Right (r : Except Stop Unit × FsState) : Prop where
  returns : r.1 = .ok ()
  traced : Traced (fun _ => false) r.2

theorem right_of_returns {P : FsState → Prop} {c : FsCall Unit} (h : Returns P c fun _ => Traced fun _ => false) {s : FsState}
    (hs : P s) : Right (c s) := by
  have hend := h s hs
  match hc : c s with
  | (.ok (), t) =>
      rw [hc] at hend
      exact ⟨rfl, hend⟩
  | (.error e, t) =>
      rw [hc] at hend
      exact hend.elim

theorem not_right {P : FsState → Prop} {c : FsCall Unit}
    (h : Triple P c (fun _ s => ¬ Disciplined (fun _ => false) s.events) fun _ _ => True) {s : FsState} (hs : P s) :
    ¬ Right (c s) := by
  rintro ⟨hret, htraced⟩
  have hend := h s hs
  match hc : c s with
  | (.ok (), t) =>
      rw [hc] at hend htraced
      exact hend htraced.disciplined
  | (.error e, t) =>
      rw [hc] at hret
      exact absurd hret (by simp)

theorem right_of_meets {call : LockCall} {s : FsState} (h : call.Start s) (hm : call.Meets s.fs.freeSectors) (fuel : ℕ) :
    Right (call.run fuel s) := by
  have hdone : ∀ {node : Option Addr} {free : ℕ}, Returns (Good node free fun _ => false) (pure () : FsCall Unit)
      fun _ => Traced fun _ => false := .pure fun _ h => h.traced
  refine right_of_returns ?_ h.good
  cases call with
  | allocateSpace idisk sectors => exact .bind (good_allocateSpace rfl hm fuel idisk) fun _ => hdone
  | freeMapAllocate sectors => exact .bind (good_freeMapAllocate rfl sectors) fun _ => hdone
  | freeMapRelease start sectors =>
      exact (good_freeMapRelease rfl start sectors).conseq (fun _ => id) (fun _ _ h => h.traced) fun _ _ => id
  | getInode sector => exact .bind (good_getInode rfl sector) fun _ => hdone
  | openInode sector block fresh => exact hm.elim
  | inodeExtentFree ext =>
      exact (good_inodeExtentFree rfl ext).conseq (fun _ => id) (fun _ _ h => h.traced) fun _ _ => id
  | inodeReadAt p count => exact .bind (good_transfer rfl count) fun _ => hdone
  | inodeWriteAt p count => exact .bind (good_transfer rfl count) fun _ => hdone
  | inodeClose p => exact good_inodeClose fun _ => rfl

theorem right_iff {call : LockCall} {s : FsState} (h : call.Start s) (fuel : ℕ) :
    Right (call.run fuel s) ↔ call.Meets s.fs.freeSectors := by
  refine ⟨fun hr => ?_, fun hm => right_of_meets h hm fuel⟩
  have hgood := h.good
  cases call with
  | allocateSpace idisk sectors =>
      by_contra hn
      have hle : sectors ≤ s.fs.freeSectors := not_lt.mp hn
      exact not_right (.bind (allocateSpace_undisciplined rfl hle fuel idisk) fun _ => .pure fun _ => id) hgood hr
  | openInode sector block fresh =>
      exact not_right (.bind (openInode_stops rfl rfl sector block fresh) fun _ => .unreached) hgood hr
  | _ => trivial

end LockCall

/-- A call that a thread makes, and the state it makes it in; what other threads do meanwhile is in that state. -/
structure LockUse where
  call : LockCall
  start : FsState
  fuel : ℕ
  started : call.Start start

namespace LockUse

def result (u : LockUse) : Except Stop Unit × FsState := u.call.run u.fuel u.start

def Meets (u : LockUse) : Prop := u.call.Meets u.start.fs.freeSectors

/-- What it does to the locks. -/
def events (u : LockUse) : List (Event FsLock) := u.result.2.events

end LockUse

/-- Threads that are about to make their calls. -/
def callers {T : Type} (uses : T → List LockUse) : Threads T FsLock :=
  ⟨fun t => ((uses t).map LockUse.events).flatten, fun _ _ => false, fun _ => 1⟩

/-- **Lock discipline.**  Whatever calls any number of threads make, all of them are right if and only if none is
`open_inode` and every `inode_disk_allocate_space` asks for more sectors than `fs_free_sectors`.  Then, in whatever order
the threads proceed, no semaphore exceeds 1 and no thread waits for itself. -/
theorem lock_discipline {T : Type} [DecidableEq T] (uses : T → List LockUse) :
    ((∀ t, ∀ u ∈ uses t, LockCall.Right u.result) ↔ ∀ t, ∀ u ∈ uses t, u.Meets) ∧
      ((∀ t, ∀ u ∈ uses t, u.Meets) → ∀ s, Transition.Reach Threads.step (fun _ _ => True) (callers uses) s → s.Safe) := by
  have hiff : (∀ t, ∀ u ∈ uses t, LockCall.Right u.result) ↔ ∀ t, ∀ u ∈ uses t, u.Meets :=
    forall_congr' fun t => forall₂_congr fun u _ => LockCall.right_iff u.started u.fuel
  refine ⟨hiff, fun hm s hr => Threads.safe_of_disciplined ⟨fun t => ?_, fun _ _ => rfl, fun _ => rfl⟩ hr⟩
  refine disciplined_flatten fun es hes => ?_
  obtain ⟨u, hu, rfl⟩ := List.mem_map.mp hes
  have htraced := (hiff.mpr hm t u hu).traced
  exact ⟨htraced.disciplined, htraced.held⟩

/-- After `init_filesystem`, with an inode at the address that stands for `NULL`. -/
def startState : FsState := initFilesystem 2 { BootState.zero with null := some ⟨0, 1, false, fun _ => 0, fun _ => 0⟩ }

theorem startState_start (call : LockCall) (h : call.node = none ∨ call.node = some nullInode) : call.Start startState where
  events := rfl
  sema _ := rfl
  standing := by
    refine ⟨?_, fun p hp => ?_, rfl⟩
    · exact ⟨fun _ => none, fun _ => [], fun sector => table_init _ _, fun _ _ he => absurd he List.not_mem_nil⟩
    · rcases h with h | h
      · simp [h] at hp
      · rw [h, Option.some.injEq] at hp
        subst hp
        rfl
  others _ hf := absurd hf List.not_mem_nil

def startUse (call : LockCall) (h : call.node = none ∨ call.node = some nullInode) : LockUse :=
  ⟨call, startState, 1, startState_start call h⟩

/-- Two threads: one closes an inode, the other asks for two sectors. -/
theorem lock_discipline_two : LockCall.Right (startUse (.inodeClose nullInode) (.inr rfl)).result ∧
    LockCall.Right (startUse (.allocateSpace (inodeDiskOf fun _ => 0) 2) (.inl rfl)).result := by
  have hright := (lock_discipline fun t : Bool =>
    [if t then startUse (.inodeClose nullInode) (.inr rfl)
      else startUse (.allocateSpace (inodeDiskOf fun _ => 0) 2) (.inl rfl)]).1.mpr fun t u hu => by
        rw [List.mem_singleton] at hu
        subst hu
        cases t
        · exact Nat.zero_lt_two
        · trivial
  exact ⟨hright true _ List.mem_cons_self, hright false _ List.mem_cons_self⟩

/-- `open_inode` waits for the lock that it holds; `inode_disk_allocate_space(0)` leaves the value 2. -/
theorem lock_discipline_broken :
    (openInode 0 4096 ⟨0, 0, false, fun _ => 0, fun _ => 0⟩ startState).1 = .error (.blocked .inodeMap) ∧
      (inodeDiskAllocateSpace 1 (inodeDiskOf fun _ => 0) 0 startState).2.sema .freeMap = 2 ∧
        ¬ LockCall.Right (startUse (.allocateSpace (inodeDiskOf fun _ => 0) 0) (.inl rfl)).result := by
  refine ⟨rfl, rfl, fun h => ?_⟩
  obtain ⟨-, -, hreleased, -⟩ := h.traced.disciplined
  exact absurd hreleased (by decide)

end Filesys

end Dunkos
