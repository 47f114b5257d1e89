import Dunkos.Lib.StackMachine
import Dunkos.Lib.Reach

/-! # Switching between threads (`switch_to`, `create_thread`)

`switchTo` is the code of `switch_to`.  `Switching` runs it between any number of threads: what else the
running thread does to the registers and to memory is arbitrary, as long as it leaves alone what the threads
that do not run have saved.  `switch_to_resumes_iff` says that a thread gets back the stack pointer and
the flags, and all the registers it counts on exactly if the thread before it had the same values in those
that `SAVE_CONTEXT` leaves out. -/

namespace Dunkos

open StackMachine StackMachine.Instr

/-- `offsetof(struct thread, context.sp)`. -/
def threadRsp : Word := 264

/-- `sizeof(struct thread)`. -/
def threadSize : Word := 312

def kthreadStackSize : Word := 0x1000

/-- `sizeof(struct register_state)`. -/
def registerStateSize : Word := 80

def threadStackTop (thr : Word) : Word := thr + threadSize + kthreadStackSize

def contextRegisters : List Reg := [.rax, .rdx, .rcx, .rbx, .rsi, .rdi, .r8, .r9, .r10, .r11]

/-- `SAVE_CONTEXT`. -/
def saveContext : List Instr := .pushf :: contextRegisters.map .push

/-- `RESTORE_CONTEXT`. -/
def restoreContext : List Instr := contextRegisters.reverse.map .pop ++ [.popf]

/-- `switch_to`, up to the change of stacks. -/
def switchOut : List Instr := saveContext ++ [.store .rsp threadRsp .rdi]

/-- `switch_to` on the new stack, up to its return. -/
def switchIn : List Instr := .load threadRsp .rsi .rsp :: restoreContext

/-- `switch_to`, with its return. -/
def switchTo (m : Machine Unit) : Word × Machine Unit := (run (switchOut ++ switchIn) m).ret

/-- What a thread that does not run is to get back: the stack pointer behind its return, where that leads, the flags and
the registers.  It called `switch_to`, or `create_thread` has laid out its stack. -/
structure Context where
  sp : Word
  rip : Word
  flags : Word
  regs : Reg → Word
  called : Bool

namespace Context
variable (c : Context)

/-- Where its stack is while it does not run. -/
def top : Word := c.sp - 8 - registerStateSize - 8

/-- What stands there. -/
def words : List Word := contextRegisters.reverse.map c.regs ++ [c.flags, c.rip]

/-- The thread that has called `switch_to` in `m`. -/
def ofCall (m : Machine Unit) : Context := ⟨m.regs .rsp + 8, m.top, m.flags, m.regs, true⟩

/-- The stack that `create_thread` has laid out: below `start_thread` stands what `kcalloc` has left there. -/
def ofCreate (startThread thr : Word) (mem : Word → Word) : Context :=
  let sp := threadStackTop thr - 8 - registerStateSize - 8
  ⟨threadStackTop thr, startThread, mem (sp + registerStateSize),
    fun r => mem (sp + 8 * (contextRegisters.reverse.idxOf r : Word)), false⟩

/-- The call of `switch_to` returns and the thread goes on as the convention says, or it starts with what stands on its
stack. -/
structure Resumes (r : Word × Machine Unit) : Prop where
  rip : r.1 = c.rip
  sp : r.2.regs .rsp = c.sp
  flags : r.2.flags = c.flags
  started : c.called = false → ∀ reg ∈ contextRegisters, r.2.regs reg = c.regs reg
  preserved : c.called = true → ∀ reg ∈ calleeSaved, reg ≠ .rsp → r.2.regs reg = c.regs reg

end Context

/-- The threads that run and do not run, by the addresses of their `struct thread`. -/
structure Switching where
  machine : Machine Unit
  running : Word
  suspended : Word → Option Context

inductive SwitchAction where
  | work (m : Machine Unit)
  | create (thr : Word) (mem : Word → Word)
  | free (thr : Word)
  | switchTo (next : Word)

namespace Switching
variable (s : Switching)

/-- `create_thread`, when the memory is `mem` behind `kcalloc` and `thread_init`. -/
def createThread (startThread thr : Word) (mem : Word → Word) : Switching :=
  let stack := threadStackTop thr - 8
  let mem := Function.update mem stack startThread
  let mem := Function.update mem (thr + threadRsp) (stack - registerStateSize - 8)
  { s with
    machine := { s.machine with mem := mem }
    suspended := Function.update s.suspended thr (some (.ofCreate startThread thr mem)) }

/-- The threads while `switch_to` is between two stacks. -/
def switchedOut : Switching :=
  { s with
    machine := run switchOut s.machine
    suspended := Function.update s.suspended s.running (some (.ofCall s.machine)) }

/-- The next step of the running thread. -/
def step (startThread : Word) (s : Switching) : SwitchAction → Option Switching
  | .work m => some { s with machine := m }
  | .create thr mem =>
      if thr ≠ s.running ∧ s.suspended thr = none then some (s.createThread startThread thr mem) else none
  | .free thr => some { s with suspended := Function.update s.suspended thr none }
  | .switchTo next =>
      if s.machine.regs .rdi = s.running ∧ s.machine.regs .rsi = next ∧ s.switchedOut.suspended next ≠ none then
        some {
          machine := (switchTo s.machine).2
          running := next
          suspended := Function.update s.switchedOut.suspended next none }
      else none

/-- The words that the threads that do not run have saved. -/
def Saved (a : Word) : Prop :=
  ∃ thr c, s.suspended thr = some c ∧ (a = thr + threadRsp ∨ ∃ i < 12, a = c.top + 8 * ((i : ℕ) : Word))

/-- A step leaves alone what the threads that do not run have saved, and `switch_to` does not save `context.sp` into
the frame it has just pushed. -/
def Spares (startThread : Word) (s : Switching) : SwitchAction → Prop
  | .work m => ∀ a, s.Saved a → m.mem a = s.machine.mem a
  | .create thr mem => ∀ a, s.Saved a → (s.createThread startThread thr mem).machine.mem a = s.machine.mem a
  | .free _ => True
  | .switchTo _ => (∀ a, s.Saved a → s.switchedOut.machine.mem a = s.machine.mem a) ∧
      ∀ i < 12, s.running + threadRsp ≠ (Context.ofCall s.machine).top + 8 * ((i : ℕ) : Word)

/-- Before `create_thread` has been called. -/
def start (machine : Machine Unit) (running : Word) : Switching := ⟨machine, running, fun _ => none⟩

/-- Every thread that does not run has its context where `context.sp` says. -/
def Inv : Prop :=
  ∀ thr c, s.suspended thr = some c →
    s.machine.mem (thr + threadRsp) = c.top ∧ StackAt s.machine.mem c.top c.words

end Switching

/-! ### The code -/

variable {m : Machine Unit} {c : Context}

theorem Context.top_ofCall (m : Machine Unit) : (Context.ofCall m).top = m.regs .rsp - 88 := by
  unfold Context.top Context.ofCall registerStateSize
  ring

theorem Context.top_add (c : Context) : c.top + 80 + 8 + 8 = c.sp := by
  unfold Context.top registerStateSize
  ring

theorem saveContext_pushed (m : Machine Unit) :
    Pushed m (m.flags :: contextRegisters.map m.regs) (run saveContext m) := by
  have hregs : contextRegisters.map m.regs = contextRegisters.map (m.push m.flags).regs := by
    refine List.map_congr_left fun r hr => (push_regs _ ?_).symm
    rintro rfl
    revert hr
    decide
  have hrun : run saveContext m = run (contextRegisters.map .push) (m.push m.flags) := run_cons ..
  rw [hregs, hrun]
  exact (run_pushes contextRegisters (by decide) (m.push m.flags)).cons

/-- What `switch_to` leaves on the old stack. -/
theorem switchOut_spec (m : Machine Unit) :
    (run switchOut m).mem (m.regs .rdi + threadRsp) = (Context.ofCall m).top ∧
      (∀ r, r ≠ .rsp → (run switchOut m).regs r = m.regs r) ∧
      ((∀ i < 12, m.regs .rdi + threadRsp ≠ (Context.ofCall m).top + 8 * ((i : ℕ) : Word)) →
        StackAt (run switchOut m).mem (Context.ofCall m).top (Context.ofCall m).words) := by
  have hp := saveContext_pushed m
  have hrun : run switchOut m = Instr.exec (.store .rsp threadRsp .rdi) (run saveContext m) := run_append ..
  have hsp : (run saveContext m).regs .rsp = (Context.ofCall m).top := hp.sp.trans (Context.top_ofCall m).symm
  have hdi : (run saveContext m).regs .rdi = m.regs .rdi := hp.regs _ (by decide)
  have hmem : (run switchOut m).mem =
      Function.update (run saveContext m).mem (m.regs .rdi + threadRsp) (Context.ofCall m).top := by
    rw [hrun, ← hsp, ← hdi]
    rfl
  refine ⟨?_, fun r hr => ?_, fun hoff => ?_⟩
  · rw [hmem, Function.update_self]
  · rw [hrun]
    exact hp.regs r hr
  · have hst := hp.stack [m.top] (by simp [contextRegisters]) ⟨rfl, trivial⟩
    rw [hsp, List.reverse_cons, List.append_assoc, ← List.map_reverse] at hst
    rw [hmem]
    refine hst.congr fun i hi => Function.update_of_ne (Ne.symm (hoff i ?_)) _ _
    exact hi

/-- What `switch_to` takes from the new stack. -/
theorem switchIn_spec (hsp : m.mem (m.regs .rsi + threadRsp) = c.top) (hst : StackAt m.mem c.top c.words) :
    let r := (run switchIn m).ret
    r.1 = c.rip ∧ r.2.regs .rsp = c.sp ∧ r.2.flags = c.flags ∧ r.2.mem = m.mem ∧
      (∀ reg ∈ contextRegisters, r.2.regs reg = c.regs reg) ∧
      ∀ reg ∉ contextRegisters, reg ≠ .rsp → r.2.regs reg = m.regs reg := by
  obtain ⟨m₁, hm₁⟩ : ∃ m₁, m₁ = m.set .rsp (m.mem (m.regs .rsi + threadRsp)) := ⟨_, rfl⟩
  have hsp₁ : m₁.regs .rsp = c.top := by
    rw [hm₁, Machine.set_self, hsp]
  have hmem₁ : m₁.mem = m.mem := by rw [hm₁, Machine.set_mem]
  rw [Context.words, stackAt_append] at hst
  obtain ⟨hregs, hflags, hrip, -⟩ := hst
  have hp := run_pops contextRegisters.reverse (by decide) (by decide) (f := c.regs) (m := m₁) (by rwa [hmem₁, hsp₁])
  have hrun : run switchIn m = Instr.exec .popf (run (contextRegisters.reverse.map .pop) m₁) := by
    rw [hm₁]
    exact (run_cons ..).trans (run_append ..)
  generalize run (contextRegisters.reverse.map .pop) m₁ = m₂ at hp hrun
  have hmem₂ : m₂.mem = m.mem := (congrArg Store.mem hp.store).trans hmem₁
  have hsp₂ : m₂.regs .rsp = c.top + 80 := hp.sp.trans (by rw [hsp₁]; rfl)
  obtain ⟨m₃, hm₃⟩ : ∃ m₃, m₃ = Instr.exec .popf m₂ := ⟨_, rfl⟩
  have hsp₃ : m₃.regs .rsp = c.top + 80 + 8 := by
    rw [hm₃, ← hsp₂]
    exact m₂.drop_sp
  have hothers : ∀ reg, reg ≠ .rsp → m₃.drop.regs reg = m₂.regs reg := by
    intro reg hne
    rw [hm₃]
    exact (Machine.drop_regs _ hne).trans (m₂.drop_regs hne)
  have hmem₃ : m₃.mem = m.mem := by
    rw [hm₃, ← hmem₂]
    rfl
  rw [hrun, ← hm₃]
  refine ⟨?_, ?_, ?_, hmem₃, fun reg hreg => ?_, fun reg hreg hne => ?_⟩
  · show m₃.mem (m₃.regs .rsp) = c.rip
    rw [hmem₃, hsp₃]
    exact hrip
  · exact m₃.drop_sp.trans (by rw [hsp₃, c.top_add])
  · have hflags₃ : m₃.flags = m₂.mem (m₂.regs .rsp) := by
      rw [hm₃]
      rfl
    rw [hmem₂, hsp₂] at hflags₃
    exact hflags₃.trans hflags
  · have hne : reg ≠ .rsp := by
      rintro rfl
      revert hreg
      decide
    exact (hothers reg hne).trans (hp.popped reg (List.mem_reverse.mpr hreg))
  · rw [← List.mem_reverse] at hreg
    refine (hothers reg hne).trans ((hp.others reg hreg hne).trans ?_)
    rw [hm₁, Machine.set_of_ne _ hne]

/-! ### Runs -/

namespace Switching
variable {s s' : Switching} {startThread thr next : Word}

/-- Contexts are kept by what leaves alone the words that have been saved. -/
theorem Inv.keep (h : s.Inv) {mem : Word → Word} (hm : ∀ a, s.Saved a → mem a = s.machine.mem a)
    (hc : s.suspended thr = some c) : mem (thr + threadRsp) = c.top ∧ StackAt mem c.top c.words := by
  obtain ⟨hsp, hst⟩ := h thr c hc
  refine ⟨(hm _ ⟨thr, c, hc, .inl rfl⟩).trans hsp, hst.congr fun i hi => hm _ ⟨thr, c, hc, .inr ⟨i, ?_, rfl⟩⟩⟩
  exact hi

theorem createThread_self (s : Switching) (startThread thr : Word) (mem : Word → Word) :
    (s.createThread startThread thr mem).suspended thr =
      some (.ofCreate startThread thr (s.createThread startThread thr mem).machine.mem) :=
  Function.update_self ..

theorem switchedOut_self (s : Switching) : s.switchedOut.suspended s.running = some (.ofCall s.machine) :=
  Function.update_self ..

theorem ofCreate_regs (startThread thr : Word) (mem : Word → Word) (r : Reg) :
    (Context.ofCreate startThread thr mem).regs r =
      mem ((Context.ofCreate startThread thr mem).top + 8 * (contextRegisters.reverse.idxOf r : Word)) :=
  rfl

theorem ofCreate_flags (startThread thr : Word) (mem : Word → Word) : (Context.ofCreate startThread thr mem).flags =
    mem ((Context.ofCreate startThread thr mem).top + registerStateSize) :=
  rfl

/-- The words below `start_thread` are what they are taken for. -/
theorem ofCreate_registers (startThread thr : Word) (mem : Word → Word) :
    StackAt mem (Context.ofCreate startThread thr mem).top
      (contextRegisters.reverse.map (Context.ofCreate startThread thr mem).regs) := by
  rw [stackAt_iff]
  intro i hi
  have hi' : i < contextRegisters.reverse.length := by rwa [List.length_map] at hi
  rw [List.getElem_map, ofCreate_regs, List.Nodup.idxOf_getElem (by decide) i hi']

/-- The word above them is the address of `start_thread`, which `context.sp` has not been written over. -/
theorem createThread_rip (s : Switching) (startThread thr : Word) (mem : Word → Word) :
    (s.createThread startThread thr mem).machine.mem
      ((Context.ofCreate startThread thr (s.createThread startThread thr mem).machine.mem).top + 80 + 8) = startThread := by
  have haddr : (Context.ofCreate startThread thr (s.createThread startThread thr mem).machine.mem).top + 80 + 8 =
      threadStackTop thr - 8 := by
    unfold Context.top registerStateSize
    rw [add_assoc, show (80 + 8 : Word) = 8 + 80 from by decide, ← add_assoc, sub_add_cancel, sub_add_cancel]
    rfl
  have hne : threadStackTop thr - 8 ≠ thr + threadRsp := by
    unfold threadStackTop threadSize kthreadStackSize threadRsp
    rw [add_assoc, add_sub_assoc]
    exact fun h => absurd (add_left_cancel h) (by decide)
  have hmem : (s.createThread startThread thr mem).machine.mem (threadStackTop thr - 8) = startThread := by
    unfold Switching.createThread
    dsimp only
    rw [Function.update_of_ne hne, Function.update_self]
  exact (congrArg _ haddr).trans hmem

/-- What `create_thread` lays out. -/
theorem Inv.createThread (h : s.Inv) {mem : Word → Word} (hok : s.Spares startThread (.create thr mem)) :
    (s.createThread startThread thr mem).Inv := by
  intro t c hc
  rcases eq_or_ne t thr with rfl | ht
  · rw [createThread_self] at hc
    obtain rfl := Option.some.inj hc
    refine ⟨Function.update_self .., ?_⟩
    rw [Context.words, stackAt_append]
    exact ⟨ofCreate_registers .., (ofCreate_flags ..).symm, createThread_rip .., trivial⟩
  · exact h.keep hok ((Function.update_of_ne ht _ _).symm.trans hc)

/-- The thread that calls `switch_to` leaves its context behind. -/
theorem Inv.switchedOut (h : s.Inv) (hdi : s.machine.regs .rdi = s.running)
    (hok : s.Spares startThread (.switchTo next)) : s.switchedOut.Inv := by
  intro t c hc
  obtain ⟨hsp, -, hst⟩ := switchOut_spec s.machine
  rw [hdi] at hsp hst
  rcases eq_or_ne t s.running with rfl | ht
  · rw [switchedOut_self] at hc
    obtain rfl := Option.some.inj hc
    exact ⟨hsp, hst hok.2⟩
  · exact h.keep hok.1 ((Function.update_of_ne ht _ _).symm.trans hc)

theorem switchTo_eq (m : Machine Unit) : switchTo m = (run switchIn (run switchOut m)).ret := by
  rw [switchTo, run_append]

/-- What the next thread gets, when it is at its turn. -/
theorem Inv.resumed (h : s.switchedOut.Inv) (hsi : s.machine.regs .rsi = next)
    (hc : s.switchedOut.suspended next = some c) :
    let r := switchTo s.machine
    r.1 = c.rip ∧ r.2.regs .rsp = c.sp ∧ r.2.flags = c.flags ∧ r.2.mem = s.switchedOut.machine.mem ∧
      (∀ reg ∈ contextRegisters, r.2.regs reg = c.regs reg) ∧
      ∀ reg ∉ contextRegisters, reg ≠ .rsp → r.2.regs reg = s.machine.regs reg := by
  obtain ⟨hsp, hst⟩ := h next c hc
  obtain ⟨-, hregs, -⟩ := switchOut_spec s.machine
  have hsi' : (run switchOut s.machine).regs .rsi = next := (hregs _ (by decide)).trans hsi
  have hin := switchIn_spec (m := run switchOut s.machine) (hsi'.symm ▸ hsp) hst
  rw [switchTo_eq]
  refine ⟨hin.1, hin.2.1, hin.2.2.1, hin.2.2.2.1, hin.2.2.2.2.1, fun reg hreg hne => ?_⟩
  exact (hin.2.2.2.2.2 reg hreg hne).trans (hregs reg hne)

/-- A step of `switch_to`, at its call. -/
theorem step_switchTo {next : Word} (hs : s.step startThread (.switchTo next) = some s') :
    (s.machine.regs .rdi = s.running ∧ s.machine.regs .rsi = next ∧ s.switchedOut.suspended next ≠ none) ∧
      s' = ⟨(switchTo s.machine).2, next, Function.update s.switchedOut.suspended next none⟩ := by
  obtain ⟨hcall, hs⟩ := Option.ite_none_right_eq_some.mp hs
  exact ⟨hcall, (Option.some.inj hs).symm⟩

/-- **One step.** -/
theorem Inv.step (h : s.Inv) {act : SwitchAction} (hok : s.Spares startThread act)
    (hs : s.step startThread act = some s') : s'.Inv := by
  cases act with
  | work m =>
      cases hs
      exact fun t c hc => h.keep hok hc
  | create thr mem =>
      obtain ⟨-, hs⟩ := Option.ite_none_right_eq_some.mp hs
      cases hs
      exact h.createThread hok
  | free thr =>
      cases hs
      intro t c hc
      rcases eq_or_ne t thr with rfl | ht
      · cases (Function.update_self ..).symm.trans hc
      · exact h t c ((Function.update_of_ne ht _ _).symm.trans hc)
  | switchTo next =>
      obtain ⟨⟨hdi, hsi, hne⟩, rfl⟩ := step_switchTo hs
      have hinv := h.switchedOut hdi hok
      obtain ⟨c, hc⟩ := Option.ne_none_iff_exists'.mp hne
      have hmem := (hinv.resumed hsi hc).2.2.2.1
      intro t c' hc'
      rcases eq_or_ne t next with rfl | ht
      · cases (Function.update_self ..).symm.trans hc'
      · rw [hmem]
        exact hinv t c' ((Function.update_of_ne ht _ _).symm.trans hc')

end Switching

open Switching

/-- The registers that `SAVE_CONTEXT` leaves out, and that a function must give back. -/
def unsavedRegisters : List Reg := [.rbp, .r12, .r13, .r14, .r15]

/-- **Switches.**  In every run, when `switch_to` comes to a thread, its call of `switch_to` returns as the calling
convention says if and only if the thread before it had the same values in `rbp` and `r12` to `r15`; a thread that
`create_thread` has made always starts with what stands on its stack. -/
theorem switch_to_resumes_iff {startThread running next : Word} {machine : Machine Unit} {s s' : Switching} {c : Context}
    (h : Transition.Reach (Switching.step startThread) (Spares startThread) (start machine running) s)
    (hok : s.Spares startThread (.switchTo next)) (hs : s.step startThread (.switchTo next) = some s')
    (hc : s.switchedOut.suspended next = some c) :
    c.Resumes (switchTo s.machine) ↔
      (c.called = true → ∀ reg ∈ unsavedRegisters, s.machine.regs reg = c.regs reg) := by
  have hinv : s.Inv := h.invariant (I := Inv) nofun fun _ _ _ hi hok hs => hi.step hok hs
  obtain ⟨hcall, -⟩ := step_switchTo hs
  obtain ⟨hrip, hsp, hflags, -, hsaved, hothers⟩ := (hinv.switchedOut hcall.1 hok).resumed hcall.2.1 hc
  constructor
  · intro hr hcalled reg hreg
    have hoff : reg ∉ contextRegisters ∧ reg ∈ calleeSaved ∧ reg ≠ .rsp := by
      revert hreg
      cases reg <;> decide
    exact (hothers reg hoff.1 hoff.2.2).symm.trans (hr.preserved hcalled reg hoff.2.1 hoff.2.2)
  · intro hsame
    refine ⟨hrip, hsp, hflags, fun _ => hsaved, fun hcalled reg hreg hne => ?_⟩
    by_cases hin : reg ∈ contextRegisters
    · exact hsaved reg hin
    · have hunsaved : reg ∈ unsavedRegisters := by
        revert hreg hne hin
        cases reg <;> decide
      exact (hothers reg hin hne).trans (hsame hcalled reg hunsaved)

/-- Thread `0x10000` is about to switch to `0x20000`. -/
def firstThread : Machine Unit where
  mem _ := 0
  rest := ()
  flags := 0x202
  regs
    | .rdi => 0x10000
    | .rsi => 0x20000
    | .rsp => 0x9000
    | .rbp => 1
    | _ => 0

def twoThreads : Switching := (start firstThread 0x10000).createThread 0x100000 0x20000 fun _ => 0

/-- Thread `0x20000` is about to switch back, with any value in `rbp`. -/
def switchingBack (rbp : Word) : Switching where
  running := 0x20000
  suspended := Function.update twoThreads.switchedOut.suspended 0x20000 none
  machine := { (switchTo twoThreads.machine).2 with
    regs
      | .rdi => 0x20000
      | .rsi => 0x10000
      | .rsp => 0x21000
      | .rbp => rbp
      | _ => 0 }

/-- When only one thread does not run, its words are the ones saved. -/
theorem Switching.Saved.of_one {s : Switching} {thr : Word} {c : Context} (h : ∀ t c', s.suspended t = some c' → t = thr ∧ c' = c)
    {P : Word → Prop} (hsp : P (thr + threadRsp)) (hst : ∀ i < 12, P (c.top + 8 * ((i : ℕ) : Word))) {a : Word}
    (ha : s.Saved a) : P a := by
  obtain ⟨t, c', hc, ha⟩ := ha
  obtain ⟨rfl, rfl⟩ := h t c' hc
  rcases ha with rfl | ⟨i, hi, rfl⟩
  · exact hsp
  · exact hst i hi

theorem suspended_two {t : Word} {c : Context} (h : twoThreads.suspended t = some c) :
    t = 0x20000 ∧ c = .ofCreate 0x100000 0x20000 twoThreads.machine.mem := by
  rcases eq_or_ne t 0x20000 with rfl | ht
  · exact ⟨rfl, (Option.some.inj ((createThread_self ..).symm.trans h)).symm⟩
  · cases (Function.update_of_ne ht _ _).symm.trans h

theorem suspended_back {rbp t : Word} {c : Context} (h : (switchingBack rbp).suspended t = some c) :
    t = 0x10000 ∧ c = .ofCall twoThreads.machine := by
  unfold switchingBack at h
  dsimp only at h
  rcases eq_or_ne t 0x20000 with rfl | ht
  · rw [Function.update_self] at h
    cases h
  · rw [Function.update_of_ne ht] at h
    rcases eq_or_ne t 0x10000 with rfl | ht'
    · exact ⟨rfl, (Option.some.inj ((switchedOut_self twoThreads).symm.trans h)).symm⟩
    · exact absurd (suspended_two ((Function.update_of_ne ht' _ _).symm.trans h)).1 ht

theorem twoThreads_spares : twoThreads.Spares 0x100000 (.switchTo 0x20000) :=
  ⟨fun _ ha => ha.of_one (fun _ _ => suspended_two)
      (P := fun a => twoThreads.switchedOut.machine.mem a = twoThreads.machine.mem a)
      (by decide +kernel) (by decide +kernel),
    by decide +kernel⟩

theorem switchingBack_reached (rbp : Word) :
    Transition.Reach (Switching.step 0x100000) (Spares 0x100000) (start firstThread 0x10000) (switchingBack rbp) := by
  have h₁ : Transition.Reach (Switching.step 0x100000) (Spares 0x100000) (start firstThread 0x10000) twoThreads := by
    refine Transition.Reach.start.next (a := .create 0x20000 fun _ => 0) ?_ (by rfl)
    rintro a ⟨t, c, hc, -⟩
    cases hc
  have h₂ := h₁.next twoThreads_spares (by rfl)
  exact h₂.next (a := .work (switchingBack rbp).machine) (fun _ _ => rfl) rfl

/-- The step back to thread `0x10000`. -/
theorem switchingBack_spares {rbp : Word} (h : rbp = 1 ∨ rbp = 2) :
    (switchingBack rbp).Spares 0x100000 (.switchTo 0x10000) := by
  refine ⟨fun a ha => ha.of_one (fun _ _ => suspended_back)
    (P := fun a => (switchingBack rbp).switchedOut.machine.mem a = (switchingBack rbp).machine.mem a) ?_ ?_, ?_⟩
  all_goals
    rcases h with rfl | rfl
    all_goals decide +kernel

theorem switch_to_resumes_iff_same : (Context.ofCall twoThreads.machine).Resumes (switchTo (switchingBack 1).machine) := by
  refine (switch_to_resumes_iff (switchingBack_reached 1) (switchingBack_spares (.inl rfl)) (by rfl)
    (c := .ofCall twoThreads.machine) (by rfl)).mpr fun _ => ?_
  decide +kernel

/-- The first thread comes back with the `rbp` of the second. -/
theorem switch_to_loses_rbp :
    Transition.Reach (Switching.step 0x100000) (Spares 0x100000) (start firstThread 0x10000) (switchingBack 2) ∧
      (switchingBack 2).Spares 0x100000 (.switchTo 0x10000) ∧
      (switchingBack 2).switchedOut.suspended 0x10000 = some (.ofCall twoThreads.machine) ∧
      ¬ (Context.ofCall twoThreads.machine).Resumes (switchTo (switchingBack 2).machine) := by
  refine ⟨switchingBack_reached 2, switchingBack_spares (.inr rfl), by rfl, fun h => ?_⟩
  have hrbp := h.preserved rfl .rbp (by decide) (by decide)
  revert hrbp
  decide +kernel

end Dunkos
