import Dunkos.FdTable
import Dunkos.Lib.Call

/-! # Descriptors that are not open (`syscall.c`, `fdtable.c`)

The system calls hand what `fdtable_lookupfd` returns to `fd_read`, `fd_write`, `fd_free`, `fd_eof` and `fd_chmod`, and
each of these begins with a field of the struct.  None asks for NULL.  `fdtable_open` links the new struct before it opens
the file, and does not ask what `open_file` returned.  So no error path is right: `descriptor_errors_never`.

The structs that are gone through are recorded; `none` is NULL, where the model stops.  Locks are free. -/

namespace Dunkos

open Elem

/-- The functions of the files behind the structs, on whatever they change: an address and a length, both of 64 bits. -/
structure FileOps (I : Type) where
  read : ℕ → BitVec 64 → BitVec 64 → I → BitVec 64 × I
  write : ℕ → BitVec 64 → BitVec 64 → I → BitVec 64 × I
  eof : ℕ → I → Bool × I
  setMode : ℕ → BitVec 32 → I → I

/-- The table of the process, and the structs that have been gone through. -/
structure FdState (I : Type) where
  t : FdTable
  io : I
  touched : List (Option ℕ)

/-- Why a call does not return: it goes through NULL, or the search does not end. -/
inductive FdStop where
  | null
  | endless
deriving DecidableEq, Repr

abbrev FdCall (I A : Type) := Call (FdState I) FdStop A

variable {I : Type}

/-- `*fd`. -/
def derefFd (fd : Option ℕ) : FdCall I (ℕ × Fd) := do
  Call.modify fun s => { s with touched := s.touched ++ [fd] }
  let n ← Call.ofOption .null fd
  let s ← Call.get
  return (n, s.t.fds n)

/-- A call of a function of a file. -/
def fileCall {A : Type} (f : I → A × I) : FdCall I A := fun s => (.ok (f s.io).1, { s with io := (f s.io).2 })

/-- `fd_read`.  The lock that is taken is in the struct. -/
def fdRead (ops : FileOps I) (fd : Option ℕ) (dest bytes : BitVec 64) : FdCall I (BitVec 64) := do
  let (_, s) ← derefFd fd
  fileCall (ops.read s.ioObject dest bytes)

def fdWrite (ops : FileOps I) (fd : Option ℕ) (src bytes : BitVec 64) : FdCall I (BitVec 64) := do
  let (_, s) ← derefFd fd
  fileCall (ops.write s.ioObject src bytes)

def fdChmod (ops : FileOps I) (fd : Option ℕ) (m : BitVec 32) : FdCall I Bool := do
  let (_, s) ← derefFd fd
  if s.type = .file then do
    fileCall fun io => ((), ops.setMode s.ioObject m io)
    return true
  else return false

def fdEof (ops : FileOps I) (fd : Option ℕ) : FdCall I Bool := do
  let (_, s) ← derefFd fd
  if s.type = .file then fileCall (ops.eof s.ioObject)
  else return false

def fdGet (fd : Option ℕ) : FdCall I (BitVec 32) := do
  let (_, s) ← derefFd fd
  return s.fd

/-- `fd_free`; what it does to the table is `fdFree`. -/
def fdFreeCall (link : FreeLink) (fd : Option ℕ) : FdCall I Unit := do
  let (n, _) ← derefFd fd
  Call.modify fun s => { s with t := fdFree link s.t n }

/-- `fdtable_lookupfd(current_process()->fdtable, fd)`. -/
def lookupfd (fd : BitVec 32) : FdCall I (Option ℕ) := do
  let s ← Call.get
  Call.ofOption .endless (fdtableLookupfd s.t fd)

/-! ### The system calls -/

namespace Syscall

def read (ops : FileOps I) (fd : BitVec 32) (dest bytes : BitVec 64) : FdCall I (BitVec 64) := do
  let p ← lookupfd fd
  fdRead ops p dest bytes

def write (ops : FileOps I) (fd : BitVec 32) (src bytes : BitVec 64) : FdCall I (BitVec 64) := do
  let p ← lookupfd fd
  fdWrite ops p src bytes

def chmodfd (ops : FileOps I) (fd : BitVec 32) (m : BitVec 32) : FdCall I Bool := do
  let p ← lookupfd fd
  fdChmod ops p m

def eof (ops : FileOps I) (fd : BitVec 32) : FdCall I Bool := do
  let p ← lookupfd fd
  fdEof ops p

def close (link : FreeLink) (fd : BitVec 32) : FdCall I Unit := do
  let p ← lookupfd fd
  fdFreeCall link p

/-- `open`; `file` is what `open_file` returns. -/
def openFile (file : ℕ) : FdCall I (BitVec 32) := do
  let s ← Call.get
  let (t, n) ← Call.ofOption .endless (fdtableOpen s.t file)
  Call.modify fun s => { s with t := t }
  fdGet (some n)

end Syscall

/-! ### Going through a struct -/

/-- The call returns, and goes through no struct and changes nothing. -/
def Refuses {A : Type} (c : FdCall I A) (s : FdState I) : Prop := ∃ r, c s = (.ok r, s)

/-- The call goes through the struct `p`, and so does not refuse. -/
structure GoesThrough {A : Type} (p : Option ℕ) (c : FdCall I A) (s : FdState I) : Prop where
  touched : (c s).2.touched = s.touched ++ [p]
  not_refuses : ¬ Refuses c s

section
variable {A : Type} {c : FdCall I A} {s : FdState I} {p : Option ℕ}

theorem GoesThrough.of_touched (h : (c s).2.touched = s.touched ++ [p]) : GoesThrough p c s := by
  refine ⟨h, ?_⟩
  rintro ⟨r, hr⟩
  rw [hr] at h
  simp at h

/-- Whatever is done with a struct, it is gone through once. -/
theorem touched_derefFd {f : ℕ × Fd → FdCall I A} (hf : ∀ r t, (f r t).2.touched = t.touched) (p : Option ℕ) (s : FdState I) :
    ((derefFd p >>= f) s).2.touched = s.touched ++ [p] := by
  cases p with
  | none => rfl
  | some n => exact hf (n, s.t.fds n) { s with touched := s.touched ++ [some n] }

theorem touched_fdRead (ops : FileOps I) (dest bytes : BitVec 64) (p : Option ℕ) (s : FdState I) :
    (fdRead ops p dest bytes s).2.touched = s.touched ++ [p] := touched_derefFd (fun _ _ => rfl) p s

theorem touched_fdWrite (ops : FileOps I) (src bytes : BitVec 64) (p : Option ℕ) (s : FdState I) :
    (fdWrite ops p src bytes s).2.touched = s.touched ++ [p] := touched_derefFd (fun _ _ => rfl) p s

theorem touched_fdChmod (ops : FileOps I) (m : BitVec 32) (p : Option ℕ) (s : FdState I) :
    (fdChmod ops p m s).2.touched = s.touched ++ [p] := by
  refine touched_derefFd (fun r t => ?_) p s
  dsimp only
  split <;> rfl

theorem touched_fdEof (ops : FileOps I) (p : Option ℕ) (s : FdState I) :
    (fdEof ops p s).2.touched = s.touched ++ [p] := by
  refine touched_derefFd (fun r t => ?_) p s
  dsimp only
  split <;> rfl

theorem touched_fdFree (link : FreeLink) (p : Option ℕ) (s : FdState I) :
    (fdFreeCall link p s).2.touched = s.touched ++ [p] := touched_derefFd (fun _ _ => rfl) p s

/-- What is looked up is gone through. -/
theorem GoesThrough.of_lookup {f : Option ℕ → FdCall I A} (hf : ∀ p s, (f p s).2.touched = s.touched ++ [p])
    {fd : BitVec 32} (h : fdtableLookupfd s.t fd = some p) : GoesThrough p (lookupfd fd >>= f) s := by
  have hrun : (lookupfd fd >>= f) s = f p s := by
    simp [lookupfd, bind, Call.get, h, Call.ofOption, pure]
  refine .of_touched ?_
  rw [hrun]
  exact hf p s

end

/-! ### The error paths -/

/-- Some struct in use has the number. -/
def IsOpen (t : FdTable) (fd : BitVec 32) : Prop := ∃ n, t.fdmap.Linked n ∧ n ∉ t.freed ∧ (t.fds n).fd = fd

/-- The buckets are lists, and the next struct is not on one of them. -/
structure TableOk (t : FdTable) : Prop where
  eq : t.fdmap.eq = fdIdentity
  lists : ∃ σ, Represents t.fdmap.con σ ∧ ∀ b, t.next ∉ σ b

/-- With a number that is not open NULL is found, or a struct that was freed. -/
theorem lookup_of_not_open {t : FdTable} (h : TableOk t) {fd : BitVec 32} (hfd : ¬ IsOpen t fd) :
    ∃ p, fdtableLookupfd t fd = some p ∧ (p = none ∨ ∃ n ∈ t.freed, p = some n) := by
  obtain ⟨σ, hr, hnew⟩ := h.lists
  unfold fdtableLookupfd
  rw [hashtableFind_represents hr, if_pos rfl]
  refine ⟨_, rfl, ?_⟩
  cases hfind : (σ (t.fdmap.bucket fd)).find? fun n => t.fdmap.eq fd (if n = t.next then fd else (t.fds n).fd) with
  | none => exact .inl rfl
  | some n =>
      refine .inr ⟨n, ?_, rfl⟩
      have hmem := List.mem_of_find?_eq_some hfind
      have heq := List.find?_some hfind
      have hne : n ≠ t.next := fun he => hnew _ (he ▸ hmem)
      rw [if_neg hne, h.eq] at heq
      by_contra hfreed
      refine hfd ⟨n, ⟨t.fdmap.bucket fd, ?_⟩, hfreed, (beq_iff_eq.mp heq).symm⟩
      rw [hr.forward_eq]
      exact hmem

/-- The five calls with the number. -/
structure CallsRefuse (ops : FileOps I) (link : FreeLink) (s : FdState I) (fd : BitVec 32) : Prop where
  read : ∀ dest bytes, Refuses (Syscall.read ops fd dest bytes) s
  write : ∀ src bytes, Refuses (Syscall.write ops fd src bytes) s
  close : Refuses (Syscall.close link fd) s
  eof : Refuses (Syscall.eof ops fd) s
  chmodfd : ∀ m, Refuses (Syscall.chmodfd ops fd m) s

/-- `open` returns -1, and the table has the structs and the numbers it had. -/
def OpenRefuses (s : FdState I) (file : ℕ) : Prop :=
  ∃ s', Syscall.openFile file s = (.ok (BitVec.allOnes 32), s') ∧ s'.t.fdmap = s.t.fdmap ∧ s'.t.freefdmap = s.t.freefdmap

/-- The new struct is linked, whatever the file and the number are. -/
theorem fdtableOpen_links {t : FdTable} (h : TableOk t) (file : ℕ) : ¬ t.fdmap.Linked t.next ∧
    ∃ t', fdtableOpen t file = some (t', t.next) ∧ t'.fdmap.Linked t.next := by
  obtain ⟨σ, hr, hnew⟩ := h.lists
  obtain ⟨con, entries, hins, hr'⟩ :=
    hashtableInsert_represents (k := fun n => (Function.update t.fds t.next ⟨0, .file, 0⟩ n).fd) hr hnew
  constructor
  · rintro ⟨b, hb⟩
    rw [hr.forward_eq] at hb
    exact hnew b hb
  · unfold fdtableOpen
    dsimp only
    rw [hins]
    refine ⟨_, rfl, t.fdmap.bucket (Function.update t.fds t.next ⟨0, .file, 0⟩ t.next).fd, ?_⟩
    show t.next ∈ (forward con _).1
    rw [hr'.forward_eq, Function.update_self]
    simp

theorem not_openRefuses {s : FdState I} (h : TableOk s.t) (file : ℕ) : ¬ OpenRefuses s file := by
  obtain ⟨hfresh, t', hopen, hlinked⟩ := fdtableOpen_links h file
  rintro ⟨s', hrun, hmap, -⟩
  have hs' : (Syscall.openFile file s).2.t = t' := by
    simp [Syscall.openFile, fdGet, derefFd, bind, Call.get, Call.ofOption, Call.modify, pure, hopen]
  rw [hrun] at hs'
  apply hfresh
  rw [← hmap, show s'.t = t' from hs']
  exact hlinked

/-- **No error path of a descriptor is right.**  With a number that is not open every one of the five calls goes through
NULL or a struct that was freed, and `open` leaves another table, whatever the path names and whichever numbers are left. -/
theorem descriptor_errors_never (ops : FileOps I) (link : FreeLink) (s : FdState I) (h : TableOk s.t) :
    (∀ fd, ¬ IsOpen s.t fd → ∃ p, (p = none ∨ ∃ n ∈ s.t.freed, p = some n) ∧
      (∀ dest bytes, GoesThrough p (Syscall.read ops fd dest bytes) s) ∧
      (∀ src bytes, GoesThrough p (Syscall.write ops fd src bytes) s) ∧ GoesThrough p (Syscall.close link fd) s ∧
      GoesThrough p (Syscall.eof ops fd) s ∧ ∀ m, GoesThrough p (Syscall.chmodfd ops fd m) s) ∧
    ∀ file, ¬ OpenRefuses s file := by
  constructor
  · intro fd hfd
    obtain ⟨p, hlookup, hp⟩ := lookup_of_not_open h hfd
    refine ⟨p, hp, fun dest bytes => ?_, fun src bytes => ?_, ?_, ?_, fun m => ?_⟩
    · exact .of_lookup (touched_fdRead ops dest bytes) hlookup
    · exact .of_lookup (touched_fdWrite ops src bytes) hlookup
    · exact .of_lookup (touched_fdFree link) hlookup
    · exact .of_lookup (touched_fdEof ops) hlookup
    · exact .of_lookup (touched_fdChmod ops m) hlookup
  · exact not_openRefuses h

/-! ### A new table -/

/-- Files that are empty and take nothing. -/
def noFiles : FileOps Unit where
  read _ _ _ io := (0, io)
  write _ _ _ io := (0, io)
  eof _ io := (true, io)
  setMode _ _ io := io

def freshState : FdState Unit := ⟨freshTable, (), []⟩

theorem freshTable_represents : Represents freshTable.fdmap.con fun _ => [] :=
  .of_fresh fun b => .inl (foldl_listInit _ (.inl (List.mem_finRange b)))

theorem freshTable_ok : TableOk freshTable := ⟨rfl, _, freshTable_represents, fun _ => List.not_mem_nil⟩

theorem freshTable_not_open (fd : BitVec 32) : ¬ IsOpen freshTable fd := by
  rintro ⟨n, ⟨b, hb⟩, -, -⟩
  rw [freshTable_represents.forward_eq] at hb
  cases hb

/-- The number 5, and a path that names no file. -/
theorem descriptor_errors_never_five :
    (∃ p, GoesThrough p (Syscall.read noFiles 5 4096 8) freshState) ∧ ¬ OpenRefuses freshState 0 := by
  obtain ⟨hcalls, hopen⟩ := descriptor_errors_never noFiles ⟨0, .file, fun _ => null⟩ freshState freshTable_ok
  obtain ⟨p, -, hread, -⟩ := hcalls 5 (freshTable_not_open 5)
  exact ⟨⟨p, hread 4096 8⟩, hopen 0⟩

/-- **A read from the number 5 of a new table** goes through NULL, and `open` of a path that names no file returns the
number 0. -/
theorem descriptor_errors_wrong :
    (¬ ∀ (ops : FileOps Unit) (link : FreeLink) (s : FdState Unit) (fd : BitVec 32), TableOk s.t → ¬ IsOpen s.t fd →
      CallsRefuse ops link s fd) ∧
    ¬ ∀ s : FdState Unit, TableOk s.t → OpenRefuses s 0 := by
  constructor
  · intro h
    obtain ⟨r, hr⟩ := (h noFiles ⟨0, .file, fun _ => null⟩ freshState 5 freshTable_ok (freshTable_not_open 5)).read 4096 8
    have hnull : (Syscall.read noFiles 5 4096 8 freshState).1 = .error .null := by decide
    rw [hr] at hnull
    cases hnull
  · intro h
    obtain ⟨s', hs', -⟩ := h freshState freshTable_ok
    have hzero : (Syscall.openFile 0 freshState).1 = .ok 0 := by decide
    rw [hs'] at hzero
    cases hzero

end Dunkos
