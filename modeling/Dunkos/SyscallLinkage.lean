import Dunkos.Lib.StackMachine

/-! # System calls (`usr/syscall.c`, `thr/syscall.c`, `sysentry.s`)

A wrapper puts a number and the arguments into registers, and `syscall_handler` calls what `syscall_table` has for the
number.  The wrapper `write` has the number of `open`, no function is installed for `growdata`, `syscall_handler` does not
look at the number, and it leaves `rcx` and `r11` to the function that it calls.  `syscall_linkage` says which calls are
linked all the same. -/

namespace Dunkos

open Function StackMachine

/-- `enum syscall_number`. -/
inductive SyscallNumber where
  | fork
  | getpid
  | exec
  | exit
  | wait
  | create
  | remove
  | open_
  | close
  | write
  | read
  | chmod
  | chmodfd
  | sleep
  | sleepts
  | growdata
  | sget
  | sunget
  | sinc
  | sdec
deriving DecidableEq, Repr

namespace SyscallNumber

def number (n : SyscallNumber) : ℕ := n.ctorIdx

/-- `SYS_COUNT`. -/
def count : ℕ := 20

end SyscallNumber

/-- A function of `system.h` or `synch.h` with its arguments. -/
inductive SystemCall where
  | fork
  | getpid
  | exec (file argv : Word)
  | exit (status : BitVec 32)
  | wait (p : BitVec 32)
  | create (file : Word) (m : BitVec 32)
  | remove (file : Word)
  | chmod (file : Word) (m : BitVec 32)
  | open_ (file : Word) (flags : BitVec 32)
  | close (fd : BitVec 32)
  | chmodfd (fd m : BitVec 32)
  | write (fd : BitVec 32) (src bytes : Word)
  | read (fd : BitVec 32) (dest bytes : Word)
  | sleep (ms : Word)
  | sleepts (ts : Word)
  | growdata (newsz : Word)
  | sget (value : Word)
  | sunget (sema : BitVec 32)
  | sinc (sema : BitVec 32)
  | sdec (sema : BitVec 32)
deriving DecidableEq, Repr

/-! ### The wrappers -/

/-- An argument of the inline assembly. -/
inductive Operand where
  | word (v : Word)
  | int (v : BitVec 32)

/-- What is in the register of an operand; nothing is said of the upper half for an `int`. -/
def Operand.load (upper : BitVec 32) : Operand → Word
  | word v => v
  | int v => upper ++ v

/-- The operands of a `syscall` instruction: `a`, then `D`, `S` and `d`. -/
structure Trap where
  number : SyscallNumber
  args : List Operand

def syscall0 (n : SyscallNumber) : Trap := ⟨n, []⟩

def syscall1 (n : SyscallNumber) (arg0 : Operand) : Trap := ⟨n, [arg0]⟩

def syscall2 (n : SyscallNumber) (arg0 arg1 : Operand) : Trap := ⟨n, [arg0, arg1]⟩

def syscall3 (n : SyscallNumber) (arg0 arg1 arg2 : Operand) : Trap := ⟨n, [arg0, arg1, arg2]⟩

namespace SystemCall

/-- The function that is called. -/
def name : SystemCall → SyscallNumber
  | fork => .fork
  | getpid => .getpid
  | exec _ _ => .exec
  | exit _ => .exit
  | wait _ => .wait
  | create _ _ => .create
  | remove _ => .remove
  | chmod _ _ => .chmod
  | open_ _ _ => .open_
  | close _ => .close
  | chmodfd _ _ => .chmodfd
  | write _ _ _ => .write
  | read _ _ _ => .read
  | sleep _ => .sleep
  | sleepts _ => .sleepts
  | growdata _ => .growdata
  | sget _ => .sget
  | sunget _ => .sunget
  | sinc _ => .sinc
  | sdec _ => .sdec

/-- The bodies of the wrappers. -/
def wrapper : SystemCall → Trap
  | fork => syscall0 .fork
  | getpid => syscall0 .getpid
  | exec file argv => syscall2 .exec (.word file) (.word argv)
  | exit status => syscall1 .exit (.int status)
  | wait p => syscall1 .wait (.int p)
  | create file m => syscall2 .create (.word file) (.int m)
  | remove file => syscall1 .remove (.word file)
  | chmod file m => syscall2 .chmod (.word file) (.int m)
  | open_ file flags => syscall2 .open_ (.word file) (.int flags)
  | close fd => syscall1 .close (.int fd)
  | chmodfd fd m => syscall2 .chmodfd (.int fd) (.int m)
  | write fd src bytes => syscall3 .open_ (.int fd) (.word src) (.word bytes)
  | read fd dest bytes => syscall3 .read (.int fd) (.word dest) (.word bytes)
  | sleep ms => syscall1 .sleep (.word ms)
  | sleepts ts => syscall1 .sleepts (.word ts)
  | growdata newsz => syscall1 .growdata (.word newsz)
  | sget value => syscall1 .sget (.word value)
  | sunget sema => syscall1 .sunget (.int sema)
  | sinc sema => syscall1 .sinc (.int sema)
  | sdec sema => syscall1 .sdec (.int sema)

end SystemCall

section
variable {K : Type*}

/-- The instruction `syscall`; `fmask` is what the kernel left in its mask of flags. -/
def syscallInstr (fmask rip : Word) (m : Machine K) : Machine K :=
  { (m.set .rcx rip).set .r11 m.flags with flags := m.flags &&& ~~~fmask }

/-- The inline assembly up to the kernel: `upper` is in the upper halves of the registers of `int`s. -/
def Trap.enter (t : Trap) (upper : Reg → BitVec 32) (fmask rip : Word) (m : Machine K) : Machine K :=
  let m := m.set .rax (BitVec.ofNat 64 t.number.number)
  let m := (t.args.zip [.rdi, .rsi, .rdx]).foldl (fun m p => m.set p.2 (p.1.load (upper p.2))) m
  syscallInstr fmask rip m

end

/-! ### The kernel -/

/-- `init_syscalls`: the entries and their functions. -/
def installs : List (SyscallNumber × SyscallNumber) :=
  [(.close, .close), (.create, .create), (.exec, .exec), (.exit, .exit), (.fork, .fork), (.getpid, .getpid),
    (.open_, .open_), (.read, .read), (.remove, .remove), (.wait, .wait), (.write, .write), (.sget, .sget),
    (.sunget, .sunget), (.sinc, .sinc), (.sdec, .sdec), (.chmod, .chmod), (.chmodfd, .chmodfd), (.sleep, .sleep),
    (.sleepts, .sleepts)]

/-- `syscall_table`, when the functions are at `address`. -/
def initSyscalls (address : SyscallNumber → Word) : ℕ → Word :=
  installs.foldl (fun table p => update table p.1.number (address p.2)) fun _ => 0

/-- The call that a kernel function sees: it takes its arguments from the registers. -/
def SyscallNumber.receive (regs : Reg → Word) : SyscallNumber → SystemCall
  | fork => .fork
  | getpid => .getpid
  | exec => .exec (regs .rdi) (regs .rsi)
  | exit => .exit ((regs .rdi).setWidth 32)
  | wait => .wait ((regs .rdi).setWidth 32)
  | create => .create (regs .rdi) ((regs .rsi).setWidth 32)
  | remove => .remove (regs .rdi)
  | open_ => .open_ (regs .rdi) ((regs .rsi).setWidth 32)
  | close => .close ((regs .rdi).setWidth 32)
  | write => .write ((regs .rdi).setWidth 32) (regs .rsi) (regs .rdx)
  | read => .read ((regs .rdi).setWidth 32) (regs .rsi) (regs .rdx)
  | chmod => .chmod (regs .rdi) ((regs .rsi).setWidth 32)
  | chmodfd => .chmodfd ((regs .rdi).setWidth 32) ((regs .rsi).setWidth 32)
  | sleep => .sleep (regs .rdi)
  | sleepts => .sleepts (regs .rdi)
  | growdata => .growdata (regs .rdi)
  | sget => .sget (regs .rdi)
  | sunget => .sunget ((regs .rdi).setWidth 32)
  | sinc => .sinc ((regs .rdi).setWidth 32)
  | sdec => .sdec ((regs .rdi).setWidth 32)

/-- `syscall_handler`: the address that is called, and the machine at `sysret` when the function there has returned. -/
def syscallHandler {K : Type*} (table : Word) (code : Word → Machine K → Machine K) (ret : Word) (m : Machine K) :
    Word × Option (Machine K) :=
  let target := m.mem (table + 8 * m.regs .rax)
  (target, m.call (code target) ret)

/-- A machine whose kernel has called `init_syscalls`.  The functions have different addresses, and none is null. -/
structure SyscallMachine (K : Type*) where
  machine : Machine K
  table : Word
  address : SyscallNumber → Word
  distinct : Injective address
  nonnull : ∀ n, address n ≠ 0
  installed : ∀ n < SyscallNumber.count, machine.mem (table + 8 * BitVec.ofNat 64 n) = initSyscalls address n

namespace SyscallMachine
variable {K : Type*} (k : SyscallMachine K)

/-- The address is one that `init_syscalls` put into the table. -/
def Installed (a : Word) : Prop := ∃ p ∈ installs, k.address p.2 = a

/-- Where a call of the kernel with the registers of `m` goes to. -/
def target (m : Machine K) : Word := (syscallHandler k.table (fun _ m => m) 0 m).1

/-- The wrapper, called with the arguments of `c`, leads to the function of its name, with these arguments. -/
def Linked (c : SystemCall) (upper : Reg → BitVec 32) (fmask rip : Word) : Prop :=
  k.target (c.wrapper.enter upper fmask rip k.machine) = k.address c.name ∧
    c.name.receive (c.wrapper.enter upper fmask rip k.machine).regs = c

end SyscallMachine

/-- A function that takes an `int` does not see the upper half of its register. -/
theorem setWidth_load (upper v : BitVec 32) : (upper ++ v).setWidth 32 = v := by
  apply BitVec.eq_of_toNat_eq
  have hv := v.isLt
  rw [BitVec.toNat_setWidth, BitVec.toNat_append, ← Nat.shiftLeft_add_eq_or_of_lt hv, Nat.shiftLeft_eq]
  omega

/-- **The arguments** arrive, whichever function takes them. -/
theorem receive_enter {K : Type*} (c : SystemCall) (upper : Reg → BitVec 32) (fmask rip : Word) (m : Machine K) :
    c.name.receive (c.wrapper.enter upper fmask rip m).regs = c := by
  cases c <;> simp [SystemCall.name, SystemCall.wrapper, SyscallNumber.receive, Trap.enter, syscallInstr, syscall1,
    syscall2, syscall3, Machine.set, update, setWidth_load, Operand.load]

theorem number_lt (n : SyscallNumber) : n.number < SyscallNumber.count := by
  cases n <;> decide

theorem number_injective : Injective SyscallNumber.number :=
  LeftInverse.injective SyscallNumber.ofNat_ctorIdx

theorem number_ofNat : ∀ i < SyscallNumber.count, (SyscallNumber.ofNat i).number = i := by decide

/-- Every function but `growdata` is in its entry, and that one is empty. -/
theorem initSyscalls_number (address : SyscallNumber → Word) (n : SyscallNumber) :
    initSyscalls address n.number = if n = .growdata then 0 else address n := by
  cases n <;> rfl

theorem mem_installs (n : SyscallNumber) : (∃ p ∈ installs, p.2 = n) ↔ n ≠ .growdata := by
  cases n <;> decide

namespace SyscallMachine
variable {K : Type*} {k : SyscallMachine K}

theorem installed_address (n : SyscallNumber) : k.Installed (k.address n) ↔ n ≠ .growdata := by
  rw [← mem_installs]
  constructor
  · rintro ⟨p, hp, h⟩
    exact ⟨p, hp, k.distinct h⟩
  · rintro ⟨p, hp, rfl⟩
    exact ⟨p, hp, rfl⟩

theorem not_installed_zero : ¬ k.Installed 0 := by
  rintro ⟨p, -, h⟩
  exact k.nonnull p.2 h

/-- The table is indexed by the lower 61 bits of `rax`. -/
theorem slot_eq (x : Word) : (8 : Word) * x = 8 * BitVec.ofNat 64 (x.toNat % 2 ^ 61) := by
  apply BitVec.eq_of_toNat_eq
  have hx := x.isLt
  rw [BitVec.toNat_mul, BitVec.toNat_mul, BitVec.toNat_ofNat]
  show 8 * x.toNat % 2 ^ 64 = 8 * (x.toNat % 2 ^ 61 % 2 ^ 64) % 2 ^ 64
  omega

/-- **Dispatch** of a number in the table. -/
theorem target_number {m : Machine K} (hm : m.mem = k.machine.mem) {n : SyscallNumber}
    (h : (m.regs .rax).toNat % 2 ^ 61 = n.number) : k.target m = if n = .growdata then 0 else k.address n := by
  show m.mem (k.table + 8 * m.regs .rax) = _
  rw [slot_eq, h, hm, k.installed _ (number_lt n)]
  exact initSyscalls_number k.address n

theorem wrapper_number (c : SystemCall) : c.wrapper.number = if c.name = .write then .open_ else c.name := by
  cases c <;> rfl

theorem enter_rax (c : SystemCall) (upper : Reg → BitVec 32) (fmask rip : Word) (m : Machine K) :
    ((c.wrapper.enter upper fmask rip m).regs .rax).toNat % 2 ^ 61 = c.wrapper.number.number := by
  have hrax : (c.wrapper.enter upper fmask rip m).regs .rax = BitVec.ofNat 64 c.wrapper.number.number := by
    cases c <;> rfl
  have hlt := number_lt c.wrapper.number
  unfold SyscallNumber.count at hlt
  rw [hrax, BitVec.toNat_ofNat]
  omega

theorem enter_mem (c : SystemCall) (upper : Reg → BitVec 32) (fmask rip : Word) (m : Machine K) :
    (c.wrapper.enter upper fmask rip m).mem = m.mem := by
  cases c <;> rfl

/-- Where the wrappers lead to. -/
theorem target_enter (c : SystemCall) (upper : Reg → BitVec 32) (fmask rip : Word) :
    k.target (c.wrapper.enter upper fmask rip k.machine) =
      if c.name = .write then k.address .open_ else if c.name = .growdata then 0 else k.address c.name := by
  rw [target_number (enter_mem c upper fmask rip k.machine) (enter_rax c upper fmask rip k.machine), wrapper_number]
  split_ifs <;> simp_all

theorem linked_iff (c : SystemCall) (upper : Reg → BitVec 32) (fmask rip : Word) :
    k.Linked c upper fmask rip ↔ c.name ≠ .write ∧ c.name ≠ .growdata := by
  unfold Linked
  rw [target_enter, and_iff_left (receive_enter c upper fmask rip k.machine)]
  by_cases hwrite : c.name = .write
  · rw [if_pos hwrite, hwrite]
    have hne : k.address .open_ ≠ k.address .write := fun h => absurd (k.distinct h) (by decide)
    simp [hne]
  · rw [if_neg hwrite]
    by_cases hgrow : c.name = .growdata
    · rw [if_pos hgrow]
      exact ⟨fun h => absurd h.symm (k.nonnull c.name), fun h => absurd hgrow h.2⟩
    · simp [hwrite, hgrow]

/-- The index that the processor makes of `rax`. -/
def index (m : Machine K) : ℕ := (m.regs .rax).toNat % 2 ^ 61

theorem installed_target : k.Installed (k.target k.machine) ↔
    (index k.machine < SyscallNumber.count ∧ index k.machine ≠ SyscallNumber.growdata.number) ∨
      (SyscallNumber.count ≤ index k.machine ∧
        k.Installed (k.machine.mem (k.table + 8 * BitVec.ofNat 64 (index k.machine)))) := by
  rcases Nat.lt_or_ge (index k.machine) SyscallNumber.count with hlt | hge
  · obtain ⟨n, hn⟩ : ∃ n : SyscallNumber, n.number = index k.machine := ⟨_, number_ofNat _ hlt⟩
    have hgrow : n.number = SyscallNumber.growdata.number ↔ n = .growdata := number_injective.eq_iff
    rw [target_number rfl hn.symm, ← hn, ne_eq, hgrow]
    have hcount := number_lt n
    by_cases h : n = .growdata
    · rw [if_pos h]
      simp only [h, not_true, and_false, false_or]
      exact ⟨fun h => absurd h not_installed_zero, fun h => absurd h.1 (by decide)⟩
    · rw [if_neg h, installed_address]
      simp [h, hcount]
  · have htarget : k.target k.machine = k.machine.mem (k.table + 8 * BitVec.ofNat 64 (index k.machine)) :=
      congrArg (fun ofs => k.machine.mem (k.table + ofs)) (slot_eq (k.machine.regs .rax))
    rw [htarget]
    simp [hge, Nat.not_lt.mpr hge]

/-- The registers that `sysret` goes by are as they were. -/
def Kept (m m' : Machine K) : Prop := m'.regs .rcx = m.regs .rcx ∧ m'.regs .r11 = m.regs .r11

theorem kept_iff {code : Word → Machine K → Machine K} {ret : Word} {m : Machine K}
    (h : (syscallHandler k.table code ret k.machine).2 = some m) :
    Kept k.machine m ↔ Kept k.machine (code (k.target k.machine) (k.machine.push ret)) := by
  have hcall : k.machine.call (code (k.target k.machine)) ret = some m := h
  unfold Machine.call at hcall
  split_ifs at hcall
  obtain rfl := Option.some.inj hcall
  unfold Kept
  rw [Machine.drop_regs _ (by decide), Machine.drop_regs _ (by decide)]

/-- A function that keeps to the calling convention and uses `rcx` and `r11`. -/
def clobber (m : Machine K) : Machine K := (m.set .rcx (m.regs .rcx + 1)).set .r11 (m.regs .r11 + 1)

theorem clobber_implements : Implements (clobber (K := K)) fun _ _ _ s => s where
  saved m r hr := by
    have hne : r ≠ .rcx ∧ r ≠ .r11 := by
      revert r
      decide
    unfold clobber
    rw [Machine.set_of_ne _ hne.2, Machine.set_of_ne _ hne.1]
  returns _ := rfl
  mem _ _ _ := rfl
  rest _ := rfl

theorem clobber_not_kept (ret : Word) : ∃ m, (syscallHandler k.table (fun _ => clobber) ret k.machine).2 = some m ∧
    m.regs .rcx ≠ k.machine.regs .rcx ∧ m.regs .r11 ≠ k.machine.regs .r11 := by
  have htop : (clobber (k.machine.push ret)).top = ret := update_self _ _ _
  refine ⟨(clobber (k.machine.push ret)).drop, if_pos htop, ?_, ?_⟩
  · show k.machine.regs .rcx + 1 ≠ _
    simp
  · show k.machine.regs .r11 + 1 ≠ _
    simp

/-- **System calls.**  A wrapper is linked when it is not `write` or `growdata`.  Whatever is in `rax`, a call is made, to an
installed function when the lower 61 bits are the number of one, or of a place behind the table with the address of one.
`rcx` and `r11` are what the function left in them, and the calling convention lets it leave anything. -/
theorem syscall_linkage (k : SyscallMachine K) :
    (∀ c upper fmask rip, k.Linked c upper fmask rip ↔ c.name ≠ .write ∧ c.name ≠ .growdata) ∧
      (k.Installed (k.target k.machine) ↔
        (index k.machine < SyscallNumber.count ∧ index k.machine ≠ SyscallNumber.growdata.number) ∨
          (SyscallNumber.count ≤ index k.machine ∧
            k.Installed (k.machine.mem (k.table + 8 * BitVec.ofNat 64 (index k.machine))))) ∧
      (∀ code ret m, (syscallHandler k.table code ret k.machine).2 = some m →
        (Kept k.machine m ↔ Kept k.machine (code (k.target k.machine) (k.machine.push ret)))) ∧
      ∃ callee f, Implements callee f ∧ ∀ ret, ∃ m,
        (syscallHandler k.table (fun _ => callee) ret k.machine).2 = some m ∧ ¬ Kept k.machine m := by
  refine ⟨linked_iff, installed_target, fun code ret m h => kept_iff h, clobber, _, clobber_implements, fun ret => ?_⟩
  obtain ⟨m, hm, hrcx, -⟩ := clobber_not_kept (k := k) ret
  exact ⟨m, hm, fun h => hrcx h.1⟩

/-- A machine with the table at 0x8000 and functions of 16 bytes from 0x1000 on. -/
def small (rax : Word) : SyscallMachine Unit where
  machine := {
    mem := fun a => initSyscalls (fun n => BitVec.ofNat 64 (0x1000 + 16 * n.number)) ((a - 0x8000).toNat / 8)
    rest := ()
    regs := fun r => if r = .rax then rax else 0
    flags := 0 }
  table := 0x8000
  address n := BitVec.ofNat 64 (0x1000 + 16 * n.number)
  distinct n n' h := by
    have hn := number_lt n
    have hn' := number_lt n'
    have hnat := congrArg BitVec.toNat h
    simp only [BitVec.toNat_ofNat] at hnat
    unfold SyscallNumber.count at hn hn'
    exact number_injective (by omega)
  nonnull n := by cases n <;> decide
  installed n hn := by
    have hslot : ∀ n < SyscallNumber.count, ((0x8000 : Word) + 8 * BitVec.ofNat 64 n - 0x8000).toNat / 8 = n := by decide
    exact congrArg (initSyscalls fun n => BitVec.ofNat 64 (0x1000 + 16 * n.number)) (hslot n hn)

/-- `write(1, buf, 5)` opens a file. -/
theorem write_opens : (small 0).target ((SystemCall.write 1 0x400000 5).wrapper.enter (fun _ => 0) 0 0 (small 0).machine) =
    (small 0).address .open_ ∧ ¬ (small 0).Linked (.write 1 0x400000 5) (fun _ => 0) 0 0 := by
  refine ⟨target_enter _ _ _ _, fun h => ?_⟩
  exact ((linked_iff _ _ _ _).mp h).1 rfl

end SyscallMachine

end Dunkos
