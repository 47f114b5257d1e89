import Dunkos.Filesys
import Mathlib.Data.Set.Card

/-! # The table of open inodes (`inode_map`)

`get_inode` subtracts the offset of the element from what `hashtable_find` returns before anyone compares it with `NULL`,
so it never returns `NULL`; `open_inode` calls it with `inode_map_lock` held, and waits for itself.  So no inode is ever put
into the table, and `inode_map_wrong` says that it is wrong in every state. -/

namespace Dunkos

namespace Filesys

open Call Transition Function

inductive FsOp where
  | openInode (sector : BitVec 64) (block : Addr) (fresh : Inode)
  | openFile (path : Resolved) (data : ℕ → Byte) (block : Addr)
  | openDir (relative : Addr) (path : Resolved) (data : ℕ → Byte) (block : Addr)
  | getRootDir (block : Addr)
  | fileClose (f : Addr)
  | dirClose (dir : Addr)

/-- The state, and the results of `open_inode`. -/
structure OpenState where
  st : FsState
  direct : List Addr

/-- The state that a call leaves, whether it returns or not. -/
def FsOp.step (s : OpenState) : FsOp → Option OpenState
  | openInode sector block fresh =>
    let r := Filesys.openInode sector block fresh s.st
    some ⟨r.2, r.1.toOption.toList ++ s.direct⟩
  | openFile path data block => some { s with st := (Filesys.openFile path data block s.st).2 }
  | openDir relative path data block => some { s with st := (Filesys.openDir relative path data block s.st).2 }
  | getRootDir block => some { s with st := (Filesys.getRootDir block s.st).2 }
  | fileClose f => some { s with st := (Filesys.fileClose f s.st).2 }
  | dirClose dir => some { s with st := (Filesys.dirClose dir s.st).2 }

/-- A call keeps what `open_inode` and `inode_close` keep, when it is not about the files. -/
theorem alone_step {I : Fs → List MapCall → Prop} (hfiles : ∀ fs log files, I fs log → I { fs with files := files } log)
    (hclose : ∀ p, Keeps (Alone I) (inodeClose p)) {op : FsOp}
    (hopen : ∀ sector block fresh, op = .openInode sector block fresh → Keeps (Alone I) (Filesys.openInode sector block fresh))
    {s t : OpenState} (hs : Alone I s.st) (h : op.step s = some t) : Alone I t.st := by
  cases op with
  | openInode sector block fresh => exact Option.some.inj h ▸ (hopen sector block fresh rfl).snd hs
  | openFile path data block => exact Option.some.inj h ▸ (alone_openFile hfiles hclose path data block).snd hs
  | openDir relative path data block =>
      exact Option.some.inj h ▸ (alone_openDir hfiles hclose relative path data block).snd hs
  | getRootDir block => exact Option.some.inj h ▸ (alone_getRootDir hfiles block).snd hs
  | fileClose f => exact Option.some.inj h ▸ (alone_fileClose hfiles hclose f).snd hs
  | dirClose dir => exact Option.some.inj h ▸ (alone_fileClose hfiles hclose dir).snd hs

/-- The inode `n` is at `p`, and in the table. -/
structure Fs.Holds (fs : Fs) (p : Addr) (n : Inode) : Prop where
  linked : fs.inodeMap.Linked (some p)
  inode : fs.inodes p = some n

/-- How many files, directories and results of `open_inode` refer to an inode. -/
noncomputable def OpenState.refs (s : OpenState) (p : Addr) : ℕ :=
  Set.ncard {f | s.st.fs.files f = some p} + s.direct.count p

/-- What is to hold between the calls. -/
structure TableRight (s : OpenState) : Prop where
  unique : ∀ p q n m, s.st.fs.Holds p n → s.st.fs.Holds q m → n.sector = m.sector → p = q
  counted : ∀ p n, s.st.fs.Holds p n → n.openCount = s.refs p
  lookup : ∀ sector, (getInode sector s.st).1 = .ok 0 ↔ ¬ ∃ p n, s.st.fs.Holds p n ∧ n.sector = sector
  kept : ∀ p n, s.st.fs.inodes p = some n → s.st.fs.Holds p n ∧ 0 < s.refs p
  live : ∀ p, 0 < s.refs p → ∃ n, s.st.fs.Holds p n

/-- The table is as `init_filesystem` has left it, and there are no inodes, except for what is at the address that stands
for `NULL`. -/
def NoInodes (b : BootState) (fs : Fs) (_ : List MapCall) : Prop :=
  fs.inodeMap = hashtableInit b.con b.hash (fun a b => a == b) ∧ ∀ p, p ≠ nullInode → fs.inodes p = none

section
variable {b : BootState}

theorem find_init (b : BootState) (key : Option Addr → BitVec 64) (e : Option Addr) :
    hashtableFind (hashtableInit b.con b.hash fun a b => a == b) key e = some .null := by
  exact (table_init b key).find_eq e

theorem remove_init (b : BootState) (key : Option Addr → BitVec 64) (e : Option Addr) :
    hashtableRemove (hashtableInit b.con b.hash fun a b => a == b) key e =
      some (hashtableInit b.con b.hash fun a b => a == b) := by
  unfold hashtableRemove
  rw [(table_init b key).search_eq]
  simp [listEnd]

theorem not_linked_init (b : BootState) (e : Option Addr) :
    ¬ (hashtableInit b.con b.hash fun a b => a == b).Linked e := by
  rintro ⟨i, hi⟩
  rw [(table_init b fun _ => 0).represents.forward_eq] at hi
  exact absurd hi List.not_mem_nil

/-! ### What the calls keep -/

theorem getInode_null (sector : BitVec 64) : Triple (Alone (NoInodes b)) (getInode sector)
    (fun p s => p = nullInode ∧ Alone (NoInodes b) s) fun _ => Alone (NoInodes b) := by
  refine .bind (alone_acquire _) fun _ => ?_
  refine .bind (.get (Q := fun s t => s.fs.inodeMap = _ ∧ Alone (NoInodes b) t) fun s hs => ⟨hs.inv.1, hs⟩) fun s => ?_
  refine .intro fun hmap => ?_
  rw [hmap, find_init]
  refine .bind (.pure (Q := fun el s => el = Elem.null ∧ Alone (NoInodes b) s) fun s hs => ⟨rfl, hs⟩) fun el => ?_
  refine .intro fun hel => ?_
  subst hel
  exact .bind (alone_release _) fun _ => .pure fun s hs => ⟨rfl, hs⟩

/-- What is at the address that stands for `NULL` may change. -/
theorem noInodes_update {fs : Fs} {log : List MapCall} (h : NoInodes b fs log) (o : Option Inode) :
    NoInodes b { fs with inodes := update fs.inodes nullInode o } log :=
  ⟨h.1, fun p hp => (update_of_ne hp _ _).trans (h.2 p hp)⟩

theorem noInodes_getNode (p : Addr) : Triple (Alone (NoInodes b)) (getNode p)
    (fun _ s => p = nullInode ∧ Alone (NoInodes b) s) fun _ => Alone (NoInodes b) := by
  refine (alone_getNode p).conseq (fun _ => id) (fun inode s hs => ⟨?_, hs.1⟩) fun _ _ => id
  by_contra hp
  exact absurd (hs.1.inv.2 p hp) (by simp [hs.2])

theorem noInodes_openInode (sector : BitVec 64) (block : Addr) (fresh : Inode) :
    Keeps (Alone (NoInodes b)) (openInode sector block fresh) := by
  refine .bind (alone_acquire _) fun _ => .bind (alone_release _) fun _ => .bind (alone_acquire _) fun _ => ?_
  refine Triple.bind (getInode_null sector) fun node => .intro fun hnode => ?_
  subst hnode
  refine Keeps.ite (fun h => absurd h (by decide)) fun _ => ?_
  refine Keeps.bind (keeps_getNode _) fun inode => ?_
  refine .bind (alone_modifyFs fun fs log h => noInodes_update h _) fun _ => ?_
  exact .bind (.pure _) fun _ => .bind (alone_release _) fun _ => .pure _

theorem noInodes_inodeDrop (inode : Inode) : Keeps (Alone (NoInodes b)) (inodeDrop nullInode inode) := by
  have hgone : Keeps (Alone (NoInodes b)) (do
      let s ← Call.get
      let inodeMap ← Call.ofOption Stop.wild (hashtableRemove s.fs.inodeMap (s.fs.key 0) (some nullInode))
      Call.modify fun s =>
        { s.event (.free (.node nullInode)) with
          fs := { s.fs with inodeMap := inodeMap, inodes := update s.fs.inodes nullInode none } }) := by
    refine Triple.bind (.get (Q := fun s t => s.fs.inodeMap = _ ∧ Alone (NoInodes b) t) fun s hs => ⟨hs.inv.1, hs⟩)
      fun s => .intro fun hmap => ?_
    rw [hmap, remove_init]
    refine Triple.bind (.pure (Q := fun h s => h = _ ∧ Alone (NoInodes b) s) fun s hs => ⟨rfl, hs⟩) fun h => .intro fun hh => ?_
    subst hh
    exact .modify fun t ht => ⟨⟨rfl, (noInodes_update ht.inv none).2⟩, ht.others⟩
  refine .ite (fun _ => ?_) fun _ => ?_
  · exact .bind (alone_inodeFreeData (fun _ _ _ _ h => h) (fun _ _ _ h => h) _) fun _ => hgone
  · exact .bind (alone_modifyFs fun fs log h => h) fun _ => hgone

theorem noInodes_inodeClose (p : Addr) : Keeps (Alone (NoInodes b)) (inodeClose p) := by
  refine .bind (alone_acquire _) fun _ => .bind (alone_nodeAcquire _) fun _ => ?_
  refine Triple.bind (noInodes_getNode p) fun inode => .intro fun hp => ?_
  subst hp
  refine Keeps.bind (alone_modifyFs fun fs log h => noInodes_update h _) fun _ => ?_
  refine .ite (fun _ => ?_) fun _ => .bind (alone_release _) fun _ => alone_release _
  exact .bind (noInodes_inodeDrop _) fun _ => alone_release _

theorem noInodes_step {s t : OpenState} {op : FsOp} (hs : Alone (NoInodes b) s.st) (h : op.step s = some t) :
    Alone (NoInodes b) t.st :=
  alone_step (fun _ _ _ h => h) noInodes_inodeClose (fun _ _ _ _ => noInodes_openInode _ _ _) hs h

end

/-- **Open inodes.**  On every device, the table is wrong in every state that the calls reach from `init_filesystem`. -/
theorem inode_map_wrong (size : BitVec 32) (b : BootState) {s : OpenState}
    (h : Reach FsOp.step (fun _ _ => True) ⟨initFilesystem size b, []⟩ s) : ¬ TableRight s := by
  have hs : Alone (NoInodes b) s.st :=
    h.invariant ⟨⟨rfl, fun p hp => by simp [initFilesystem, hp]⟩, rfl⟩ fun _ _ _ hs _ ht => noInodes_step hs ht
  have hnone : ¬ ∃ p n, s.st.fs.Holds p n ∧ n.sector = 0 := by
    rintro ⟨p, n, hp, -⟩
    exact not_linked_init b (some p) (hs.inv.1 ▸ hp.linked)
  intro hright
  have hzero := (hright.lookup 0).mpr hnone
  have hend := getInode_null (b := b) 0 s.st hs
  generalize getInode 0 s.st = r at hzero hend
  obtain ⟨r, t⟩ := r
  dsimp only at hzero
  subst hzero
  exact absurd hend.1 (by decide)

theorem inode_map_wrong_root : ¬ TableRight ⟨(getRootDir 4096 (initFilesystem 2 .zero)).2, []⟩ :=
  inode_map_wrong 2 .zero (.next (a := .getRootDir 4096) .start trivial rfl)

/-- After `init_filesystem` no inode is open, `get_inode(0)` returns an address in place of `NULL`, and `open_inode(0)` waits
for itself. -/
theorem inode_map_first : (getInode 0 (initFilesystem 2 .zero)).1 = .ok nullInode ∧
    (openInode 0 4096 ⟨0, 0, false, fun _ => 0, fun _ => 0⟩ (initFilesystem 2 .zero)).1 = .error (.blocked .inodeMap) ∧
      ¬ TableRight ⟨initFilesystem 2 .zero, []⟩ := by
  refine ⟨rfl, rfl, fun h => ?_⟩
  have hnone : ¬ ∃ p n, (initFilesystem 2 .zero).fs.Holds p n ∧ n.sector = 0 := by
    rintro ⟨p, n, hp, -⟩
    exact not_linked_init .zero (some p) hp.linked
  have hnull : Except.ok nullInode = (Except.ok 0 : Except Stop Addr) := (h.lookup 0).mpr hnone
  exact absurd (Except.ok.inj hnull) (by decide)

end Filesys

end Dunkos
