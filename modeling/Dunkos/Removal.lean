import Dunkos.InodeMap

/-! # Removing files (`dir_remove`, `inode_close`)

`dir_remove` releases the extents that the disk has for the inode there and then, whoever has the file open; nothing ever
sets `removed`, so that `inode_close` releases nothing, and nobody releases the sector of the inode itself.
`removal_right_of_unfound` says that removals are right as long as no `dir_remove` finds its name. -/

namespace Dunkos

namespace Filesys

open Call Transition Function InodeDisk

def Covers (e : InodeExtent) (i : ℕ) : Prop := e.start.toNat ≤ i ∧ i < e.start.toNat + e.sectors.toNat

def MapCall.releases (i : ℕ) : MapCall → Bool
  | allocated _ _ => false
  | released start sectors => decide (start ≤ i ∧ i < start + sectors)

/-- How often a sector has been marked free. -/
def timesReleased (log : List MapCall) (i : ℕ) : ℕ := log.countP (MapCall.releases i)

/-- An inode whose name has been removed: its sector, and its extents at that time. -/
structure Removed where
  sector : BitVec 64
  extents : List InodeExtent

/-- The sectors that go with it. -/
def Removed.Owns (r : Removed) (i : ℕ) : Prop :=
  i = r.sector.toNat ∨ ∃ e ∈ r.extents, Covers e i

/-- A file or directory refers to the inode. -/
def Fs.Referred (fs : Fs) (sector : BitVec 64) : Prop :=
  ∃ f p n, fs.files f = some p ∧ fs.inodes p = some n ∧ n.sector = sector

/-- The state, and what has been removed so far. -/
structure RemovalState where
  st : FsState
  gone : List Removed

/-- What is to hold between the calls. -/
structure RemovalRight (s : RemovalState) : Prop where
  live : ∀ f p n, s.st.fs.files f = some p → s.st.fs.inodes p = some n →
    ∀ e ∈ extents s.st.fs.disk (inodeDiskOf n.data), ∀ i, Covers e i → timesReleased s.st.log i = 0
  pending : ∀ r ∈ s.gone, s.st.fs.Referred r.sector → ∀ i, r.Owns i → timesReleased s.st.log i = 0
  once : ∀ r ∈ s.gone, ¬ s.st.fs.Referred r.sector → ∀ i, r.Owns i → timesReleased s.st.log i = 1
  only : ∀ i, 0 < timesReleased s.st.log i → ∃ r ∈ s.gone, ¬ s.st.fs.Referred r.sector ∧ r.Owns i

inductive RemovalOp where
  | call (op : FsOp)
  | dirRemove (dir : Addr) (data name : ℕ → Byte)

/-- `removed` is 0 in what `kcalloc` returns, and `ide_read_sectors` writes to `data` only. -/
def FsOp.Zeroed : FsOp → Bool
  | openInode _ _ fresh => !fresh.removed
  | _ => true

/-- What a call of `dir_remove` has removed. -/
def removedBy (fs : Fs) (data name : ℕ → Byte) : List Removed :=
  let sector := (dirGetMapping data name).1
  if sector ≠ dirNpos then [⟨sector, extents fs.disk (inodeDiskOf (fs.disk (sector.setWidth 32)))⟩] else []

/-- The state that a call leaves.  A name is removed when `dir_remove` returns. -/
def RemovalOp.step (s : RemovalState) : RemovalOp → Option RemovalState
  | call op => if op.Zeroed then (op.step ⟨s.st, []⟩).map fun t => { s with st := t.st } else none
  | dirRemove dir data name =>
    let r := Filesys.dirRemove dir data name s.st
    some ⟨r.2, if r.1.toOption.isSome then removedBy s.st.fs data name ++ s.gone else s.gone⟩

/-- The name is not found. -/
def RemovalOp.Unfound (_ : RemovalState) : RemovalOp → Prop
  | call _ => True
  | dirRemove _ data name => (dirGetMapping data name).1 = dirNpos

/-- No inode is marked as removed, and no sector has been marked free. -/
def NoneRemoved (fs : Fs) (log : List MapCall) : Prop := (∀ p n, fs.inodes p = some n → n.removed = false) ∧ log = []

/-! ### What the calls keep -/

theorem noneRemoved_update {fs : Fs} {log : List MapCall} (h : NoneRemoved fs log) (p : Addr) {o : Option Inode}
    (ho : ∀ n, o = some n → n.removed = false) : NoneRemoved { fs with inodes := update fs.inodes p o } log := by
  refine ⟨fun q n hq => ?_, h.2⟩
  by_cases hqp : q = p
  · subst hqp
    exact ho n ((update_self q o fs.inodes).symm.trans hq)
  · exact h.1 q n ((update_of_ne hqp o fs.inodes).symm.trans hq)

theorem noneRemoved_getNode (p : Addr) : Triple (Alone NoneRemoved) (getNode p)
    (fun inode s => inode.removed = false ∧ Alone NoneRemoved s) fun _ => Alone NoneRemoved :=
  (alone_getNode p).conseq (fun _ => id) (fun _ _ hs => ⟨hs.1.inv.1 p _ hs.2, hs.1⟩) fun _ _ => id

theorem noneRemoved_openInode (sector : BitVec 64) (block : Addr) {fresh : Inode} (hfresh : fresh.removed = false) :
    Keeps (Alone NoneRemoved) (openInode sector block fresh) := by
  refine .bind (alone_acquire _) fun _ => .bind (alone_release _) fun _ => .bind (alone_acquire _) fun _ => ?_
  refine .bind (alone_getInode _) fun node => .ite (fun _ => ?_) fun _ => ?_
  · refine .bind (alone_modifyFs fun fs log h => noneRemoved_update h block fun n hn => ?_) fun _ => ?_
    · exact Option.some.inj hn ▸ hfresh
    refine .bind (alone_init _) fun _ => .bind .get fun s => .bind (.ofOption _ _) fun inodeMap => ?_
    refine .bind (alone_modifyFs fun fs log h => h) fun _ => .bind (.pure _) fun _ => ?_
    exact .bind (alone_release _) fun _ => .pure _
  · refine Triple.bind (noneRemoved_getNode node) fun inode => .intro fun hinode => ?_
    refine Keeps.bind (alone_modifyFs fun fs log h => noneRemoved_update h node fun n hn => ?_) fun _ => ?_
    · exact Option.some.inj hn ▸ hinode
    exact .bind (.pure _) fun _ => .bind (alone_release _) fun _ => .pure _

/-- An inode that is not marked is written back. -/
theorem noneRemoved_inodeDrop (node : Addr) {inode : Inode} (h : inode.removed = false) :
    Keeps (Alone NoneRemoved) (inodeDrop node inode) := by
  refine .ite (fun hr => absurd (h.symm.trans hr) (by decide)) fun _ => ?_
  refine .bind (alone_modifyFs fun fs log h => h) fun _ => .bind .get fun s => .bind (.ofOption _ _) fun inodeMap => ?_
  refine .modify fun t ht => ⟨?_, ht.others⟩
  obtain ⟨hinodes, hlog⟩ := noneRemoved_update ht.inv node fun n hn => absurd hn (Option.some_ne_none n).symm
  exact ⟨hinodes, hlog⟩

theorem noneRemoved_inodeClose (p : Addr) : Keeps (Alone NoneRemoved) (inodeClose p) := by
  refine .bind (alone_acquire _) fun _ => .bind (alone_nodeAcquire _) fun _ => ?_
  refine Triple.bind (noneRemoved_getNode p) fun inode => .intro fun hinode => ?_
  refine Keeps.bind (alone_modifyFs fun fs log h => noneRemoved_update h p fun n hn => ?_) fun _ => ?_
  · exact Option.some.inj hn ▸ hinode
  · refine .ite (fun _ => ?_) fun _ => .bind (alone_release _) fun _ => alone_release _
    exact .bind (noneRemoved_inodeDrop p hinode) fun _ => alone_release _

theorem noneRemoved_dirRemove (dir : Addr) {data name : ℕ → Byte} (h : (dirGetMapping data name).1 = dirNpos) :
    Keeps (Alone NoneRemoved) (dirRemove dir data name) := by
  refine Triple.bind (alone_mapped dir data name) fun sector => .intro fun hsector => ?_
  exact Keeps.ite (fun hne => absurd (hsector.trans h) hne) fun _ => .pure _

/-- Nothing has been removed, and nothing is to be. -/
structure RemovalState.Clean (s : RemovalState) : Prop where
  alone : Alone NoneRemoved s.st
  gone : s.gone = []

theorem clean_step {s t : RemovalState} {op : RemovalOp} (hs : s.Clean) (hop : op.Unfound s) (h : op.step s = some t) :
    t.Clean := by
  cases op with
  | call op =>
      simp only [RemovalOp.step] at h
      split_ifs at h with hz
      obtain ⟨u, hu, rfl⟩ := Option.map_eq_some_iff.mp h
      refine ⟨alone_step (fun _ _ _ h => h) noneRemoved_inodeClose (fun sector block fresh hop => ?_) hs.alone hu, hs.gone⟩
      subst hop
      exact noneRemoved_openInode sector block (by simpa [FsOp.Zeroed] using hz)
  | dirRemove dir data name =>
      have hnone : removedBy s.st.fs data name = [] := by
        have hfound : (dirGetMapping data name).1 = dirNpos := hop
        simp [removedBy, hfound]
      rw [← Option.some.inj h]
      refine ⟨(noneRemoved_dirRemove dir hop).snd hs.alone, ?_⟩
      simp [hnone, hs.gone]

/-- While nothing has been removed, nothing is marked free. -/
theorem RemovalState.Clean.right {s : RemovalState} (h : s.Clean) : RemovalRight s := by
  have hzero : ∀ i, timesReleased s.st.log i = 0 := fun i => by
    rw [h.alone.inv.2]
    rfl
  refine ⟨fun _ _ _ _ _ _ _ i _ => hzero i, fun _ _ _ i _ => hzero i, fun r hr => ?_, fun i hi => ?_⟩
  · rw [h.gone] at hr
    exact absurd hr List.not_mem_nil
  · exact absurd (hzero i) hi.ne'

/-- **Removing files.**  In every run in which no `dir_remove` finds its name, removals are right in every state. -/
theorem removal_right_of_unfound {s t : RemovalState} (hs : s.Clean) (h : Reach RemovalOp.step (fun s op => op.Unfound s) s t) :
    RemovalRight t :=
  (h.invariant hs fun _ _ _ hs hop ht => clean_step hs hop ht).right

/-! ### A run -/

/-- An inode with one extent, sector 9. -/
def fileSector (i : ℕ) : BitVec 32 :=
  match i with
  | 4 => 1
  | 7 | 8 | 9 => inodeDiskNpos
  | 10 => 9
  | 11 => 1
  | _ => 0

/-- A name of 32 characters. -/
def nameOf (c : Byte) (i : ℕ) : Byte := if i < 32 then c else 0

/-- A directory that maps such a name to sector 5. -/
def dirData (i : ℕ) : Byte := if i = 36 then 5 else nameOf 97 i

/-- After `init_filesystem`; the inode in sector 5 is also at the address that stands for `NULL`, with two references. -/
def removalStart : RemovalState :=
  ⟨initFilesystem 16 { BootState.zero with
      null := some ⟨5, 2, false, fileSector, fun _ => 0⟩
      disk := fun sector => if sector = 5 then fileSector else fun _ => 0 }, []⟩

theorem removalStart_clean : removalStart.Clean where
  alone := by
    have hnone : NoneRemoved { removalStart.st.fs with inodes := fun _ => none } [] := ⟨fun _ _ h => absurd h (by simp), rfl⟩
    have hunmarked : ∀ n, some (⟨5, 2, false, fileSector, fun _ => 0⟩ : Inode) = some n → n.removed = false :=
      fun n hn => Option.some.inj hn ▸ rfl
    exact ⟨noneRemoved_update hnone nullInode hunmarked, rfl⟩
  gone := rfl

theorem removal_right_of_unfound_root :
    RemovalRight ⟨(dirRemove 4096 dirData (nameOf 98) (getRootDir 4096 removalStart.st).2).2, []⟩ :=
  removal_right_of_unfound removalStart_clean <| (Reach.start.next (a := .call (.getRootDir 4096)) trivial rfl).next
    (a := .dirRemove 4096 dirData (nameOf 98)) rfl rfl

/-- A file is opened and removed.  It is still open, and its extent has been released. -/
theorem removal_while_open : ∃ t, Reach RemovalOp.step (fun _ _ => True) removalStart t ∧
    t.st.fs.files 8192 = some nullInode ∧ t.st.log = [.released 9 1] ∧ ¬ RemovalRight t := by
  obtain ⟨t, hrun⟩ : ∃ t, runs RemovalOp.step (fun _ _ => True) removalStart [.call (.getRootDir 4096),
      .call (.openFile ⟨some (nameOf 97), 4096⟩ dirData 8192), .call (.getRootDir 4096),
      .dirRemove 4096 dirData (nameOf 97)] = some t := ⟨_, rfl⟩
  have hfile : t.st.fs.files 8192 = some nullInode := by
    rw [← Option.some.inj hrun]
    with_unfolding_all rfl
  have hinode : t.st.fs.inodes nullInode = some ⟨5, 1, false, fileSector, fun _ => 0⟩ := by
    rw [← Option.some.inj hrun]
    with_unfolding_all rfl
  have hlog : t.st.log = [.released 9 1] := by
    rw [← Option.some.inj hrun]
    with_unfolding_all rfl
  refine ⟨t, Reach.of_runs hrun, hfile, hlog, fun h => ?_⟩
  have hzero := h.live 8192 nullInode _ hfile hinode ⟨9, 1⟩ List.mem_cons_self 9 ⟨by decide, by decide⟩
  rw [hlog] at hzero
  exact absurd hzero (by decide)

end Filesys

end Dunkos
