import Dunkos.Lib.StackMachine
import Dunkos.Thread

/-! # Interrupt stubs (`isrstub.s`, `isr_common_stub`)

`deliver` is what the processor does on an interrupt, with or without an error code, and `isrStub` the code
that `defstub` generates.  `isr_stub_restores_iff` says that a stub leads back to where the interrupt came
from exactly if there was no error code: nothing takes it off the stack. -/

namespace Dunkos

open StackMachine StackMachine.Instr

inductive InterruptDefer where
  | none
  | yield
deriving DecidableEq, Repr

/-- `intr_level`, and the number of calls of `_signal_eoi`. -/
structure InterruptState where
  level : InterruptLevel
  eois : ℕ
deriving DecidableEq, Repr

/-- A handler gets the index of the interrupt in `intr_table`, and the addresses of the frame and of the
registers. -/
abbrev InterruptHandler :=
  (intr intrframe registers : Word) → Store InterruptState → Store InterruptState × InterruptDefer

def setLevel (level : InterruptLevel) (s : Store InterruptState) : Store InterruptState :=
  { s with rest := { s.rest with level := level } }

def signalEoi (s : Store InterruptState) : Store InterruptState :=
  { s with rest := { s.rest with eois := s.rest.eois + 1 } }

def isrCommonStub (handler : Word → InterruptHandler) (yieldCurrent : Store InterruptState → Store InterruptState)
    (intr intrframe registers : Word) (s : Store InterruptState) : Store InterruptState :=
  let oldLevel := s.rest.level
  let r := handler intr intr intrframe registers (setLevel .context s)
  let s := match r.2 with
    | .none => r.1
    | .yield => yieldCurrent r.1
  signalEoi (setLevel oldLevel s)

/-- Without `INTRDEFR_YIELD` the level is the only thing that changes beside what the handler does. -/
theorem isrCommonStub_none {handler : Word → InterruptHandler} {intr intrframe registers : Word}
    {s : Store InterruptState} (h : (handler intr intr intrframe registers (setLevel .context s)).2 = .none)
    (yieldCurrent : Store InterruptState → Store InterruptState) :
    isrCommonStub handler yieldCurrent intr intrframe registers s =
      signalEoi (setLevel s.rest.level (handler intr intr intrframe registers (setLevel .context s)).1) := by
  simp only [isrCommonStub, h]

/-! ### The stub -/

/-- `defstub n`, up to the call. -/
def stubEntry (n : Word) : List Instr :=
  [.push .rbp, .mov .rsp .rbp, .push .r11, .push .r10, .push .r9, .push .r8, .push .rdi, .push .rsi, .push .rbx,
    .push .rcx, .push .rdx, .push .rax, .cld, .movImm n .rdi, .lea 8 .rbp .rsi, .mov .rsp .rdx]

/-- `defstub`, behind the call, up to `iretq`. -/
def stubExit : List Instr :=
  [.pop .rax, .pop .rdx, .pop .rcx, .pop .rbx, .pop .rsi, .pop .rdi, .pop .r8, .pop .r9, .pop .r10, .pop .r11, .pop .rbp]

/-- The stub up to `iretq`; `callee` is the compiled `isr_common_stub`. -/
def isrStub (callee : Machine InterruptState → Machine InterruptState) (ret n : Word) (m : Machine InterruptState) :
    Option (Machine InterruptState) :=
  ((run (stubEntry n) m).call callee ret).map (run stubExit)

structure BenignInterruptFrame where
  rip : Word
  cs : Word
  rflags : Word
  rsp : Word
  ss : Word
deriving DecidableEq, Repr

def BenignInterruptFrame.words (f : BenignInterruptFrame) : List Word := [f.rip, f.cs, f.rflags, f.rsp, f.ss]

/-- The flags that an interrupt gate clears: `TF`, `IF`, `NT`, `RF` and `VM`. -/
def gateFlags : Word := 0x34300

/-- The interrupted code, and the stack that the interrupt uses: that of the code or the one of the task state
segment. -/
structure Interrupted where
  machine : Machine InterruptState
  rip : Word
  cs : Word
  ss : Word
  stack : Word

namespace Interrupted
variable (i : Interrupted)

def frame : BenignInterruptFrame := ⟨i.rip, i.cs, i.machine.flags, i.machine.regs .rsp, i.ss⟩

/-- The processor aligns the stack. -/
def base : Word := i.stack &&& ~~~0xf

/-- Where the frame ends up. -/
def frameAddr : Word := i.base - 40

/-- The interrupt: the frame and the error code, if there is one, are pushed. -/
def deliver (error : Option Word) : Machine InterruptState :=
  let m := (i.machine.set .rsp i.base).pushes (i.frame.words.reverse ++ error.toList)
  { m with flags := m.flags &&& ~~~gateFlags }

/-- The stub is about to return to the interrupted code: the registers are as they were, and the stack pointer is at
the frame. -/
structure Restored (m : Machine InterruptState) : Prop where
  regs : ∀ r, r ≠ .rsp → m.regs r = i.machine.regs r
  sp : m.regs .rsp = i.frameAddr
  frame : StackAt m.mem i.frameAddr i.frame.words

variable {i} {error : Option Word} {handler : Word → InterruptHandler}
  {yieldCurrent : Store InterruptState → Store InterruptState}
  {callee : Machine InterruptState → Machine InterruptState} {n ret : Word}

/-! ### Up to the call -/

/-- What an interrupt pushes, from the top on. -/
def delivered (i : Interrupted) (error : Option Word) : List Word := error.toList ++ i.frame.words

theorem delivered_length (i : Interrupted) (error : Option Word) :
    (i.delivered error).length = error.toList.length + 5 := List.length_append

theorem toList_length_le (error : Option Word) : error.toList.length ≤ 1 := by
  cases error <;> simp

theorem deliver_regs {r : Reg} (hr : r ≠ .rsp) : (i.deliver error).regs r = i.machine.regs r :=
  ((pushes_pushed _ _).regs r hr).trans (i.machine.set_of_ne hr _)

theorem deliver_sp : (i.deliver error).regs .rsp = i.frameAddr - 8 * (error.toList.length : Word) := by
  have hsp := (pushes_pushed (i.machine.set .rsp i.base) (i.frame.words.reverse ++ error.toList)).sp
  have hlen : ((i.frame.words.reverse ++ error.toList).length : Word) = 5 + (error.toList.length : Word) := by
    rw [List.length_append, Nat.cast_add]
    rfl
  rw [hlen, Machine.set_self] at hsp
  refine hsp.trans ?_
  rw [frameAddr, mul_add, show (8 * 5 : Word) = 40 from rfl, sub_add_eq_sub_sub]

theorem deliver_stack (i : Interrupted) (error : Option Word) :
    StackAt (i.deliver error).mem ((i.deliver error).regs .rsp) (i.delivered error) := by
  have hp := pushes_pushed (i.machine.set .rsp i.base) (i.frame.words.reverse ++ error.toList)
  have hlen : (i.frame.words.reverse ++ error.toList).length = 5 + error.toList.length := List.length_append
  have hle := toList_length_le error
  have hst := hp.stack [] (by rw [hlen, List.length_nil]; omega) trivial
  rw [List.append_nil, List.reverse_append, List.reverse_reverse] at hst
  have hrev : error.toList.reverse = error.toList := by
    cases error <;> rfl
  rwa [hrev] at hst

end Interrupted

/-- The registers that the stub saves behind `rbp`, in this order. -/
def savedRegisters : List Reg := [.r11, .r10, .r9, .r8, .rdi, .rsi, .rbx, .rcx, .rdx, .rax]

/-- A state at the call of `isr_common_stub`, when the stub was entered in `m` with `ws` on the stack. -/
structure Entered (n : Word) (m : Machine InterruptState) (ws : List Word) (m' : Machine InterruptState) : Prop where
  stack : StackAt m'.mem (m'.regs .rsp) ((savedRegisters.reverse ++ [Reg.rbp]).map m.regs ++ ws)
  sp : m'.regs .rsp = m.regs .rsp - 88
  rdi : m'.regs .rdi = n
  rsi : m'.regs .rsi = m.regs .rsp
  rdx : m'.regs .rdx = m.regs .rsp - 88
  kept : ∀ r ∈ ([.r12, .r13, .r14, .r15] : List Reg), m'.regs r = m.regs r

theorem stubEntry_eq (n : Word) : stubEntry n =
    [.push .rbp, .mov .rsp .rbp] ++ (savedRegisters.map .push ++ [.cld, .movImm n .rdi, .lea 8 .rbp .rsi, .mov .rsp .rdx]) :=
  rfl

/-- `rbp` is pushed, and points to where it was pushed. -/
theorem stubFrame {m : Machine InterruptState} {ws : List Word} (hlen : ws.length ≤ 2 ^ 59)
    (hw : StackAt m.mem (m.regs .rsp) ws) :
    let m' := run [.push .rbp, .mov .rsp .rbp] m
    StackAt m'.mem (m'.regs .rsp) (m.regs .rbp :: ws) ∧ m'.regs .rsp = m.regs .rsp - 8 ∧
      m'.regs .rbp = m.regs .rsp - 8 ∧ ∀ r, r ≠ .rbp → r ≠ .rsp → m'.regs r = m.regs r := by
  have hsp : (m.push (m.regs .rbp)).regs .rsp = m.regs .rsp - 8 := push_sp _
  refine ⟨hw.push (Nat.le_trans hlen (by decide)) (m.regs .rbp), hsp, hsp, fun r hb hs => ?_⟩
  exact (Machine.set_of_ne _ hb _).trans (push_regs _ hs)

/-- The arguments of `isr_common_stub`. -/
theorem stubArguments (n : Word) (m : Machine InterruptState) :
    let m' := run [.cld, .movImm n .rdi, .lea 8 .rbp .rsi, .mov .rsp .rdx] m
    m'.mem = m.mem ∧ m'.regs .rdi = n ∧ m'.regs .rsi = m.regs .rbp + 8 ∧ m'.regs .rdx = m.regs .rsp ∧
      ∀ r ∉ ([.rdi, .rsi, .rdx] : List Reg), m'.regs r = m.regs r := by
  refine ⟨rfl, rfl, rfl, rfl, fun r hr => ?_⟩
  simp only [List.mem_cons, List.not_mem_nil, or_false, not_or] at hr
  exact (Machine.set_of_ne _ hr.2.2 _).trans ((Machine.set_of_ne _ hr.2.1 _).trans (Machine.set_of_ne _ hr.1 _))

theorem stubEntry_entered (n : Word) {m : Machine InterruptState} {ws : List Word} (hlen : ws.length ≤ 2 ^ 59)
    (hw : StackAt m.mem (m.regs .rsp) ws) : Entered n m ws (run (stubEntry n) m) := by
  rw [stubEntry_eq, run_append, run_append]
  obtain ⟨hst, hsp, hbp, hregs⟩ := stubFrame hlen hw
  generalize run [.push .rbp, .mov .rsp .rbp] m = m₁ at hst hsp hbp hregs ⊢
  have hp := run_pushes savedRegisters (by decide) m₁
  obtain ⟨hmem, hdi, hsi, hdx, hothers⟩ := stubArguments n (run (savedRegisters.map .push) m₁)
  generalize run (savedRegisters.map .push) m₁ = m₂ at hp hmem hdi hsi hdx hothers ⊢
  have hsp₂ : m₂.regs .rsp = m.regs .rsp - 88 := by
    rw [hp.sp, hsp, sub_sub]
    rfl
  have hmap : savedRegisters.map m₁.regs = savedRegisters.map m.regs :=
    List.map_congr_left fun r hr => hregs r (by rintro rfl; revert hr; decide) (by rintro rfl; revert hr; decide)
  have hst₂ := hp.stack (m.regs .rbp :: ws) (by simp [savedRegisters]; omega) hst
  rw [hmap] at hst₂
  refine ⟨?_, (hothers _ (by decide)).trans hsp₂, hdi, ?_, hdx.trans hsp₂, fun r hr => ?_⟩
  · rw [hmem, hothers .rsp (by decide), List.map_append, List.map_reverse, List.append_assoc]
    exact hst₂
  · rw [hsi, hp.regs _ (by decide), hbp, sub_add_cancel]
  · rw [hothers r ?_, hp.regs r ?_, hregs r ?_ ?_]
    all_goals
      revert hr
      revert r
      decide

/-! ### Behind the call -/

/-- What the handler does, when `isr_common_stub` is called in a state. -/
def handled (handler : Word → InterruptHandler) (n ret : Word) (m : Machine InterruptState) :
    Store InterruptState × InterruptDefer :=
  handler n n (m.regs .rsi) (m.regs .rdx) (setLevel .context (m.push ret).toStore)

/-- The handler returns `INTRDEFR_NONE` and leaves the words that are on the stack when `isr_common_stub` is called. -/
structure Harmless (handler : Word → InterruptHandler) (n ret : Word) (m : Machine InterruptState) (words : ℕ) :
    Prop where
  none : (handled handler n ret m).2 = .none
  keeps : ∀ i < words, (handled handler n ret m).1.mem (m.regs .rsp + 8 * (i : Word)) = m.mem (m.regs .rsp + 8 * (i : Word))

theorem call_isrCommonStub {handler : Word → InterruptHandler} {yieldCurrent : Store InterruptState → Store InterruptState}
    {callee : Machine InterruptState → Machine InterruptState} (hc : Implements callee (isrCommonStub handler yieldCurrent))
    {n ret : Word} {m : Machine InterruptState} {vs : List Word} (hn : m.regs .rdi = n) (hlen : vs.length ≤ 2 ^ 59)
    (hh : Harmless handler n ret m vs.length) (hv : StackAt m.mem (m.regs .rsp) vs) :
    ∃ m', m.call callee ret = some m' ∧ m'.regs .rsp = m.regs .rsp ∧ StackAt m'.mem (m'.regs .rsp) vs ∧
      ∀ r ∈ ([.r12, .r13, .r14, .r15] : List Reg), m'.regs r = m.regs r := by
  have hsp : (callee (m.push ret)).regs .rsp = m.regs .rsp - 8 := (hc.saved _ .rsp (by decide)).trans (push_sp ret)
  have htop : (callee (m.push ret)).top = ret := by
    have hret := hc.returns (m.push ret)
    rw [push_sp] at hret
    rw [Machine.top, hsp, hret]
    exact Function.update_self ..
  have hdrop : (callee (m.push ret)).drop.regs .rsp = m.regs .rsp := by
    rw [Machine.drop_sp, hsp, sub_add_cancel]
  refine ⟨(callee (m.push ret)).drop, if_pos htop, hdrop, ?_, fun r hr => ?_⟩
  · rw [hdrop]
    refine hv.congr fun i hi => ?_
    have hstub : (isrCommonStub handler yieldCurrent n (m.regs .rsi) (m.regs .rdx) (m.push ret).toStore).mem =
        (handled handler n ret m).1.mem := by
      rw [isrCommonStub_none hh.none yieldCurrent]
      rfl
    have habove : Above ((m.push ret).regs .rsp + 8) (m.regs .rsp + 8 * (i : Word)) := by
      rw [push_sp, sub_add_cancel]
      exact above_word (by omega)
    have hmem := hc.mem (m.push ret) _ habove
    rw [push_regs _ (by decide), push_regs _ (by decide), push_regs _ (by decide), hn, hstub] at hmem
    exact hmem.trans (hh.keeps i hi)
  · have hne : r ≠ .rsp := by
      rintro rfl
      revert hr
      decide
    have hsaved : r ∈ calleeSaved := by
      revert hr
      cases r <;> decide
    exact (Machine.drop_regs _ hne).trans ((hc.saved _ r hsaved).trans (push_regs ret hne))

/-- **A stub** gives back the registers and takes from the stack what it has put there itself. -/
theorem isrStub_eq {handler : Word → InterruptHandler} {yieldCurrent : Store InterruptState → Store InterruptState}
    {callee : Machine InterruptState → Machine InterruptState} (hc : Implements callee (isrCommonStub handler yieldCurrent))
    {n ret : Word} {m : Machine InterruptState} {ws : List Word} (hlen : ws.length ≤ 2 ^ 58)
    (hw : StackAt m.mem (m.regs .rsp) ws) (hh : Harmless handler n ret (run (stubEntry n) m) (11 + ws.length)) :
    ∃ m', isrStub callee ret n m = some m' ∧ (∀ r, m'.regs r = m.regs r) ∧ StackAt m'.mem (m'.regs .rsp) ws := by
  have he := stubEntry_entered n (Nat.le_trans hlen (by decide)) hw
  have hwords : ((savedRegisters.reverse ++ [Reg.rbp]).map m.regs ++ ws).length = 11 + ws.length := by
    rw [List.length_append]
    rfl
  obtain ⟨m', hcall, hsp, hst, hkept⟩ := call_isrCommonStub hc he.rdi (by rw [hwords]; omega) (hwords ▸ hh) he.stack
  rw [stackAt_append] at hst
  have hp := run_pops (savedRegisters.reverse ++ [Reg.rbp]) (by decide) (by decide) hst.1
  have hexit : stubExit = (savedRegisters.reverse ++ [Reg.rbp]).map .pop := rfl
  have hback : m'.regs .rsp + 8 * (11 : Word) = m.regs .rsp := by
    rw [hsp, he.sp]
    exact sub_add_cancel _ 88
  refine ⟨run stubExit m', ?_, fun r => ?_, ?_⟩
  · rw [isrStub, hcall]
    rfl
  · rw [hexit]
    by_cases hr : r ∈ savedRegisters.reverse ++ [Reg.rbp]
    · exact hp.popped r hr
    · rcases eq_or_ne r .rsp with rfl | hs
      · exact hp.sp.trans hback
      · have hrest : r ∈ ([.r12, .r13, .r14, .r15] : List Reg) := by
          revert hr hs
          cases r <;> decide
        rw [hp.others r hr hs, hkept r hrest, he.kept r hrest]
  · have htop : (run stubExit m').regs .rsp = m.regs .rsp := hp.sp.trans hback
    rw [htop, hexit, hp.store, ← hback]
    exact hst.2

/-! ### What the C code sees -/

structure RegisterState where
  rax : Word
  rdx : Word
  rcx : Word
  rbx : Word
  rsi : Word
  rdi : Word
  r8 : Word
  r9 : Word
  r10 : Word
  r11 : Word
deriving DecidableEq, Repr

structure FaultInterruptFrame where
  error : Word
  frame : BenignInterruptFrame
deriving DecidableEq, Repr

/-- The `struct register_state` at an address. -/
def RegisterState.read (mem : Word → Word) (a : Word) : RegisterState :=
  ⟨mem a, mem (a + 8), mem (a + 16), mem (a + 24), mem (a + 32), mem (a + 40), mem (a + 48), mem (a + 56), mem (a + 64),
    mem (a + 72)⟩

def BenignInterruptFrame.read (mem : Word → Word) (a : Word) : BenignInterruptFrame :=
  ⟨mem a, mem (a + 8), mem (a + 16), mem (a + 24), mem (a + 32)⟩

def FaultInterruptFrame.read (mem : Word → Word) (a : Word) : FaultInterruptFrame :=
  ⟨mem a, BenignInterruptFrame.read mem (a + 8)⟩

theorem BenignInterruptFrame.read_eq {mem : Word → Word} {a : Word} {f : BenignInterruptFrame} (h : StackAt mem a f.words) :
    BenignInterruptFrame.read mem a = f := by
  obtain ⟨h₀, h₁, h₂, h₃, h₄, -⟩ := h
  simp only [add_assoc] at h₁ h₂ h₃ h₄
  exact BenignInterruptFrame.mk.injEq .. ▸ ⟨h₀, h₁, h₂, h₃, h₄⟩

/-- The registers of a state, as `struct register_state` has them. -/
def RegisterState.of (m : Machine InterruptState) : RegisterState :=
  ⟨m.regs .rax, m.regs .rdx, m.regs .rcx, m.regs .rbx, m.regs .rsi, m.regs .rdi, m.regs .r8, m.regs .r9, m.regs .r10,
    m.regs .r11⟩

theorem RegisterState.of_congr {m m' : Machine InterruptState} (h : ∀ r, r ≠ .rsp → m.regs r = m'.regs r) :
    RegisterState.of m = .of m' := by
  simp (disch := decide) only [RegisterState.of, h]

theorem RegisterState.read_eq {mem : Word → Word} {a : Word} {m : Machine InterruptState} {ws : List Word}
    (h : StackAt mem a ((savedRegisters.reverse ++ [Reg.rbp]).map m.regs ++ ws)) :
    RegisterState.read mem a = .of m := by
  obtain ⟨h₀, h₁, h₂, h₃, h₄, h₅, h₆, h₇, h₈, h₉, -⟩ := h
  simp only [add_assoc] at h₁ h₂ h₃ h₄ h₅ h₆ h₇ h₈ h₉
  exact RegisterState.mk.injEq .. ▸ ⟨h₀, h₁, h₂, h₃, h₄, h₅, h₆, h₇, h₈, h₉⟩

/-- What has been pushed can be read where it stands on the stack. -/
theorem views_of_stack {i : Interrupted} {error : Option Word} {mem : Word → Word} {sp : Word} :
    StackAt mem sp ((savedRegisters.reverse ++ [Reg.rbp]).map (i.deliver error).regs ++ i.delivered error) →
      RegisterState.read mem sp = .of i.machine ∧
        match error with
        | none => BenignInterruptFrame.read mem (sp + 88) = i.frame
        | some e => FaultInterruptFrame.read mem (sp + 88) = ⟨e, i.frame⟩ := by
  intro h
  constructor
  · rw [RegisterState.read_eq h]
    exact RegisterState.of_congr fun r hr => Interrupted.deliver_regs hr
  · have hrest : StackAt mem (sp + 88) (i.delivered error) := (stackAt_append.mp h).2
    cases error with
    | none => exact BenignInterruptFrame.read_eq hrest
    | some e => exact congrArg₂ FaultInterruptFrame.mk hrest.1 (BenignInterruptFrame.read_eq hrest.2)

/-- **The views of the handlers agree** with what has been pushed: `rdx` points to the registers, and `rsi` to the error
code, if there is one, and else to the frame. -/
theorem stubEntry_views (i : Interrupted) (n : Word) (error : Option Word) :
    let m := run (stubEntry n) (i.deliver error)
    RegisterState.read m.mem (m.regs .rdx) = .of i.machine ∧
      match error with
      | none => BenignInterruptFrame.read m.mem (m.regs .rsi) = i.frame
      | some e => FaultInterruptFrame.read m.mem (m.regs .rsi) = ⟨e, i.frame⟩ := by
  intro m
  have hlen := i.delivered_length error
  have hle := Interrupted.toList_length_le error
  have he := stubEntry_entered n (by omega) (i.deliver_stack error)
  have hsp : m.regs .rsp = m.regs .rdx := he.sp.trans he.rdx.symm
  have hsi : m.regs .rsp + 88 = m.regs .rsi := by
    rw [he.sp, he.rsi]
    exact sub_add_cancel _ 88
  have hviews := views_of_stack he.stack
  rwa [hsi, hsp] at hviews

/-- **Stubs.**  For every vector and every state of the interrupted code, when the handler returns `INTRDEFR_NONE` and
leaves what has been saved, the stub comes to `iretq`, and it has restored the registers and is at the frame if and
only if the processor pushed no error code. -/
theorem isr_stub_restores_iff {handler : Word → InterruptHandler}
    {yieldCurrent : Store InterruptState → Store InterruptState} {callee : Machine InterruptState → Machine InterruptState}
    (hc : Implements callee (isrCommonStub handler yieldCurrent)) {n ret : Word} {i : Interrupted} {error : Option Word}
    (hh : Harmless handler n ret (run (stubEntry n) (i.deliver error)) (16 + error.toList.length)) :
    ∃ m, isrStub callee ret n (i.deliver error) = some m ∧ (i.Restored m ↔ error = none) := by
  have hlen := i.delivered_length error
  have hle := Interrupted.toList_length_le error
  have hwords : 16 + error.toList.length = 11 + (i.delivered error).length := by omega
  obtain ⟨m, hm, hregs, hst⟩ := isrStub_eq hc (by omega) (i.deliver_stack error) (hwords ▸ hh)
  refine ⟨m, hm, fun hr => ?_, fun he => ?_⟩
  · have hsp := hr.sp
    rw [hregs, Interrupted.deliver_sp] at hsp
    cases error with
    | none => rfl
    | some e =>
        rw [sub_eq_self] at hsp
        change (8 * ((1 : ℕ) : Word)) = 0 at hsp
        exact absurd hsp (by decide)
  · subst he
    have hsp : m.regs .rsp = i.frameAddr := by
      rw [hregs, Interrupted.deliver_sp]
      exact sub_zero _
    exact ⟨fun r hr => (hregs r).trans (Interrupted.deliver_regs hr), hsp, hsp ▸ hst⟩

/-- A handler that does nothing. -/
def idleHandler : InterruptHandler := fun _ _ _ s => (s, .none)

/-- `isr_common_stub`, compiled to code that uses `rax`. -/
def compiledStub (m : Machine InterruptState) : Machine InterruptState :=
  { m.set .rax 0 with
    toStore := isrCommonStub (fun _ => idleHandler) id (m.regs .rdi) (m.regs .rsi) (m.regs .rdx) m.toStore }

theorem compiledStub_implements : Implements compiledStub (isrCommonStub (fun _ => idleHandler) id) where
  saved m r hr := by
    refine Machine.set_of_ne m ?_ 0
    rintro rfl
    revert hr
    decide
  returns _ := rfl
  mem _ _ _ := rfl
  rest _ := rfl

/-- Kernel code, interrupted at `0x100000` with the stack at `0x9000`. -/
def interruptedKernel : Interrupted where
  machine := ⟨⟨fun _ => 0, ⟨.enabled, 0⟩⟩, fun r => if r = .rsp then 0x9000 else 7, 0x202⟩
  rip := 0x100000
  cs := 0x08
  ss := 0x10
  stack := 0x9000

theorem isr_stub_restores_iff_timer :
    ∃ m, isrStub compiledStub 0x200000 0x20 (interruptedKernel.deliver none) = some m ∧ interruptedKernel.Restored m := by
  have hh : Harmless (fun _ => idleHandler) 0x20 0x200000 (run (stubEntry 0x20) (interruptedKernel.deliver none)) 16 := by
    refine ⟨rfl, fun i hi => ?_⟩
    refine Function.update_of_ne (fun he => ?_) _ _
    exact not_above_below (he ▸ above_word (Nat.lt_trans hi (by decide)))
  obtain ⟨m, hm, hr⟩ := isr_stub_restores_iff compiledStub_implements hh
  exact ⟨m, hm, hr.mpr rfl⟩

/-- A page fault comes to `iretq` one word too early. -/
theorem page_fault_not_restored :
    ∃ m, isrStub compiledStub 0x200000 0xe (interruptedKernel.deliver (some 0)) = some m ∧
      m.regs .rsp = interruptedKernel.frameAddr - 8 ∧ ¬ interruptedKernel.Restored m := by
  have hrun : (isrStub compiledStub 0x200000 0xe (interruptedKernel.deliver (some 0))).map (fun m => m.regs .rsp) =
      some (interruptedKernel.frameAddr - 8) := by
    decide +kernel
  obtain ⟨m, hm, hsp⟩ := Option.map_eq_some_iff.mp hrun
  refine ⟨m, hm, hsp, fun hr => ?_⟩
  rw [hr.sp] at hsp
  exact absurd hsp (by decide)

end Dunkos
