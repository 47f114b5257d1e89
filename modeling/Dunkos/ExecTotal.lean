import Dunkos.ExecLoad

/-! # Executables that are none (`process.c`, `syscall.c`)

`exec_process` goes on with the file it is given: it makes it the executable of the process before it looks at it, asserts
that it begins as an ELF file, and reads as many bytes of program headers as the file says into the memory that it has
for them.  `exec_total_iff` says for which files nothing of this goes wrong.  `open_file` and `kcalloc` may fail, and
`file_read_at` reads any bytes. -/

namespace Dunkos

open Loop

/-- A call of `exec`.  `executable` is that of the process before the call, and `opened` the struct that `open_file` makes, if
it does; `file` is what `file_read_at` reads, and `length` the length of the file.  `granted` says whether `kcalloc` has
memory for the program headers. -/
structure ExecCall where
  executable : Option ℕ
  opened : Option ℕ
  fresh : ∀ p, opened = some p → executable ≠ some p
  file : ℕ → Byte
  length : ℕ
  granted : Bool

/-- What a call can run into: a NULL file that is read, an assertion that fails, or more program headers, read into the memory
for them or out of it, than it has room for. -/
inductive ExecFault where
  | nullFile
  | assertion
  | overrun
deriving DecidableEq, Repr

/-- The fault that ends a call, if any, the executable of the process, and the calls of `page_defer_load`. -/
structure ExecEnd where
  fault : Option ExecFault
  executable : Option ℕ
  calls : List (ProgramHeader × Deferral)
deriving DecidableEq, Repr

namespace ExecCall
variable (c : ExecCall)

/-- `header`. -/
def header : ElfHeader := ElfHeader.read c.file

/-- The bytes that `kcalloc` gives for the program headers. -/
def room : ℕ := if c.granted then c.header.phentcnt.toNat * 56 else 0

/-- `header.phentcnt * header.phentsize`, an `int`, as the `size_t` that `file_read_at` takes. -/
def count : BitVec 64 := (c.header.phentcnt.setWidth 32 * c.header.phentsize.setWidth 32).signExtend 64

/-- `exec_process`, whose loops are those of `execProcess`; `none` when `fuel` rounds are not enough. -/
def process (fuel : ℕ) : Option ExecEnd :=
  match c.opened with
  | none => some ⟨some .nullFile, none, []⟩
  | some executable =>
      if c.header.magic = elfMagik then
        if c.header.phentcnt.toNat > 0 ∧ (c.room < c.count.toNat ∨ c.room < c.header.phentcnt.toNat * 56) then
          some ⟨some .overrun, some executable, []⟩
        else (execProcess fuel c.file).map fun calls => ⟨none, some executable, calls⟩
      else some ⟨some .assertion, some executable, []⟩

/-- `exec`, with what it returns. -/
def exec (fuel : ℕ) : Option (ExecEnd × Option (BitVec 32)) :=
  (c.process fuel).map fun e => (e, if e.fault = none then some (-1) else none)

/-! ### What it is for -/

/-- The file is there, and an ELF64 executable with all of its headers. -/
structure Loadable : Prop where
  opened : c.opened ≠ none
  elf : ∃ f : ElfFile, f.bytes = c.file ∧ f.length = c.length
  long : 64 ≤ c.length
  table : c.header.progheader.toNat + 56 * c.header.phentcnt.toNat ≤ c.length

/-- Nothing goes wrong, and a file that cannot be loaded is refused without a trace. -/
structure Total (e : ExecEnd × Option (BitVec 32)) : Prop where
  fault : e.1.fault = none
  refused : ¬ c.Loadable → e.2 = some (-1) ∧ e.1.executable = c.executable ∧ e.1.calls = []

end ExecCall

/-! ### The loops end -/

/-- `load_segment` ends for every size. -/
theorem loadSegment_total {fuel : ℕ} (hfuel : 2 ^ 42 ≤ fuel) (start ofs size : BitVec 64) (readonly : Bool) :
    ∃ calls, loadSegment fuel start ofs size readonly = some calls := by
  have hlt := size.toInt_lt
  have hloop : (runWhile LoadState.more (fun s => some (loadRound readonly s)) fuel ⟨start, ofs, size, []⟩).map
      LoadState.calls = some ([] ++ pageCalls start ofs readonly ((size.toInt.toNat + (pageSize - 1)) / pageSize)) := by
    refine loadLoop_eq ?_ ?_ ?_ <;> unfold pageSize
    · omega
    · dsimp only
      omega
    · dsimp only
      omega
  exact ⟨_, hloop⟩

theorem execRound_total {fuel : ℕ} (hfuel : 2 ^ 42 ≤ fuel) (phte : ProgramHeader) :
    ∃ calls, execRound fuel phte = some calls := by
  unfold execRound
  split_ifs
  · obtain ⟨calls, hcalls⟩ := loadSegment_total hfuel phte.vaddr phte.offset phte.size (phte.flags &&& fileinfoModeR != 0)
    rw [hcalls]
    exact ⟨_, rfl⟩
  · exact ⟨_, rfl⟩

/-- `exec_process` ends for every file that begins as an ELF file. -/
theorem execProcess_total {fuel : ℕ} (hfuel : 2 ^ 42 ≤ fuel) {file : ℕ → Byte}
    (hmagic : (ElfHeader.read file).magic = elfMagik) : ∃ calls, execProcess fuel file = some calls := by
  choose calls hcalls using execRound_total hfuel
  unfold execProcess
  rw [if_pos hmagic]
  split_ifs
  · have hrounds : ∀ i ∈ List.range (ElfHeader.read file).phentcnt.toNat,
        execRound fuel (ProgramHeader.read (programTable file (ElfHeader.read file)) (56 * i)) =
          some (calls (ProgramHeader.read (programTable file (ElfHeader.read file)) (56 * i))) := fun i _ => hcalls _
    exact ⟨_, congrArg (Option.map List.flatten) (mapM_eq_some hrounds)⟩
  · exact ⟨_, rfl⟩

namespace ExecCall
variable {c : ExecCall} {fuel : ℕ}

/-- The table of an ELF64 file is as long as the memory for it. -/
theorem Loadable.sizes (h : c.Loadable) (hg : c.header.phentcnt.toNat = 0 ∨ c.granted = true) :
    c.room = 56 * c.header.phentcnt.toNat ∧ c.count.toNat = 56 * c.header.phentcnt.toNat := by
  obtain ⟨f, hfile, -⟩ := h.elf
  have hsize : c.header.phentsize = 56 := by
    rw [header, ← hfile]
    exact f.phentsize
  refine ⟨?_, ?_⟩
  · unfold room
    rcases hg with hzero | hg
    · simp [hzero]
    · rw [if_pos hg, Nat.mul_comm]
  · rw [count, hsize]
    exact entries_toNat _

theorem Loadable.magic (h : c.Loadable) : c.header.magic = elfMagik := by
  obtain ⟨f, hfile, -⟩ := h.elf
  rw [header, ← hfile]
  exact f.magic

/-- A file that can be loaded, when there is memory for its program headers. -/
theorem Loadable.process_eq (h : c.Loadable) (hg : c.header.phentcnt.toNat = 0 ∨ c.granted = true) (hfuel : 2 ^ 42 ≤ fuel) :
    ∃ calls, c.process fuel = some ⟨none, c.opened, calls⟩ := by
  obtain ⟨p, hp⟩ := Option.ne_none_iff_exists'.mp h.opened
  obtain ⟨calls, hcalls⟩ := execProcess_total hfuel h.magic
  obtain ⟨hroom, hcount⟩ := h.sizes hg
  refine ⟨calls, ?_⟩
  unfold process
  rw [hp]
  dsimp only
  rw [if_pos h.magic, if_neg (by omega), hcalls]
  rfl

/-- A call that runs into nothing has found a file and memory for its program headers, and has made the file the executable
of the process. -/
theorem process_clean {e : ExecEnd} (h : c.process fuel = some e) (hf : e.fault = none) :
    e.executable = c.opened ∧ c.opened ≠ none ∧ (c.header.phentcnt.toNat = 0 ∨ c.granted = true) := by
  unfold process at h
  cases hopened : c.opened with
  | none =>
      rw [hopened] at h
      cases h
      cases hf
  | some p =>
      rw [hopened] at h
      dsimp only at h
      split_ifs at h with hmagic hroom
      · cases h
        cases hf
      · obtain ⟨calls, -, rfl⟩ := Option.map_eq_some_iff.mp h
        refine ⟨rfl, Option.some_ne_none p, ?_⟩
        by_contra hno
        rw [not_or, Bool.not_eq_true] at hno
        have hzero : c.room = 0 := by
          rw [room, hno.2]
          rfl
        exact hroom ⟨by omega, .inr (by omega)⟩
      · cases h
        cases hf

/-- Every call ends. -/
theorem process_total (c : ExecCall) (hfuel : 2 ^ 42 ≤ fuel) : ∃ e, c.process fuel = some e := by
  unfold process
  split
  · exact ⟨_, rfl⟩
  · split_ifs with hmagic
    · exact ⟨_, rfl⟩
    · obtain ⟨calls, hcalls⟩ := execProcess_total hfuel hmagic
      exact ⟨_, congrArg _ hcalls⟩
    · exact ⟨_, rfl⟩

end ExecCall

/-- **Untrusted executables.**  For every file, and whatever `open_file` and `kcalloc` do, `exec` ends; nothing goes wrong,
and a file that cannot be loaded leaves no trace, exactly when it can be loaded and there is memory for its program
headers. -/
theorem exec_total_iff (c : ExecCall) {fuel : ℕ} (hfuel : 2 ^ 42 ≤ fuel) : ∃ e, c.exec fuel = some e ∧
    (c.Total e ↔ c.Loadable ∧ (c.header.phentcnt.toNat = 0 ∨ c.granted = true)) := by
  obtain ⟨e, he⟩ := c.process_total hfuel
  refine ⟨(e, if e.fault = none then some (-1) else none), ?_, fun h => ?_, fun ⟨hl, hg⟩ => ?_⟩
  · rw [ExecCall.exec, he]
    rfl
  · obtain ⟨hexec, hopened, hg⟩ := ExecCall.process_clean he h.fault
    refine ⟨?_, hg⟩
    by_contra hno
    -- the file is the executable of the process already
    obtain ⟨p, hp⟩ := Option.ne_none_iff_exists'.mp hopened
    have hsame : e.executable = c.executable := (h.refused hno).2.1
    exact c.fresh p hp (hsame.symm.trans (hexec.trans hp))
  · obtain ⟨calls, hcalls⟩ := hl.process_eq hg hfuel
    obtain rfl := Option.some.inj (he.symm.trans hcalls)
    exact ⟨rfl, fun hno => absurd hl hno⟩

/-- A file is opened at `7` by a process that has no executable. -/
def openedFile (file : ℕ → Byte) (length : ℕ) : ExecCall where
  executable := none
  opened := some 7
  fresh := fun _ _ => nofun
  file := file
  length := length
  granted := true

theorem exec_total_iff_text : ∃ e, (openedFile (segmentBytes false) 120).exec (2 ^ 42) = some e ∧
    (openedFile (segmentBytes false) 120).Total e := by
  obtain ⟨e, he, htotal⟩ := exec_total_iff (openedFile (segmentBytes false) 120) (le_refl (2 ^ 42))
  refine ⟨e, he, htotal.mpr ⟨⟨by simp [openedFile], ⟨segmentFile false, rfl, rfl⟩, by decide, ?_⟩, .inr rfl⟩⟩
  have hheader : (openedFile (segmentBytes false) 120).header = ⟨elfMagik, 64, 56, 1⟩ := segmentBytes_header false
  rw [hheader]
  decide

theorem not_loadable_cut : ¬ (openedFile (segmentBytes false) 119).Loadable := by
  rintro ⟨-, ⟨f, hfile, hlength⟩, -, -⟩
  have hfile' : f.bytes = segmentBytes false := hfile
  have hlength' : f.length = 119 := hlength
  have hcount : 0 < (ElfHeader.read f.bytes).phentcnt.toNat := by
    rw [hfile', segmentBytes_header]
    exact Nat.one_pos
  have hentry : ProgramHeader.read f.bytes ((ElfHeader.read f.bytes).progheader.toNat + 56 * 0) = segmentHeader false := by
    rw [hfile', segmentBytes_header]
    exact segmentBytes_entry false
  have hend := (f.segment 0 hcount (by rw [hentry]; rfl)).1
  rw [hentry, hlength'] at hend
  exact absurd hend (by decide)

/-- **What goes wrong**: no file, no ELF file, and program headers of 64 bytes; and a file that ends in its segment stays the
executable of the process. -/
theorem exec_total_never :
    let missing : ExecCall := ⟨none, none, nofun, fun _ => 0, 0, true⟩
    let zeros := openedFile (fun _ => 0) 120
    let long := openedFile (fun j => if j = 54 then 64 else segmentBytes false j) 120
    let cut := openedFile (segmentBytes false) 119
    (∃ e, missing.exec 1 = some e ∧ e.1.fault = some .nullFile ∧ ¬ missing.Total e) ∧
      (∃ e, zeros.exec 1 = some e ∧ e.1.fault = some .assertion ∧ ¬ zeros.Total e) ∧
      (∃ e, long.exec 1 = some e ∧ e.1.fault = some .overrun ∧ ¬ long.Total e) ∧
      ∃ e, cut.exec 1 = some e ∧ e.1.fault = none ∧ e.1.executable = some 7 ∧ ¬ cut.Total e := by
  intro missing zeros long cut
  have hlong : long.exec 1 = some (⟨some .overrun, some 7, []⟩, none) := by decide
  have hcut : cut.exec 1 = some (⟨none, some 7, [(segmentHeader false, ⟨0x40000000, 0, true⟩)]⟩, some (-1)) := by decide
  refine ⟨⟨_, rfl, rfl, fun h => nomatch h.fault⟩, ⟨_, rfl, rfl, fun h => nomatch h.fault⟩,
    ⟨_, hlong, rfl, fun h => nomatch h.fault⟩, _, hcut, rfl, rfl, fun h => ?_⟩
  exact absurd (h.refused not_loadable_cut).2.1 (by simp [cut, openedFile])

end Dunkos
