import Dunkos.FindRsdp
import Dunkos.IsrStub
import Dunkos.StringLib
import Dunkos.Lib.LastWrite
import Dunkos.Lib.Pack

/-! # The interrupt tables (`idt.c`, `interrupt.c`)

`init_interrupts` makes a descriptor for every stub, byte by byte, and gives every interrupt a handler.  `gateAt` is what
the processor reads of the descriptors, and `interrupt` what it does then.  `interrupt_serves` follows an interrupt from its
number through its descriptor and its stub to the handler that was installed last. -/

namespace Dunkos

open Function StackMachine StackMachine.Instr LastWrite Pack

/-- There is an entry for each vector. -/
instance neZero_vectors : NeZero (256 : ℕ) := ⟨by decide⟩

/-- The indices of `intr_table`, with the names that `enum interrupt_type` has for them. -/
abbrev InterruptType := Fin 256

namespace InterruptType

def dblfault : InterruptType := 8
def gpfault : InterruptType := 13
end InterruptType

/-! ### The descriptors -/

/-- `struct idt_descriptor`. -/
structure IdtDescriptor where
  offsetl : BitVec 16
  selector : BitVec 16
  ist : Byte
  typeattr : Byte
  offsetm : BitVec 16
  offseth : BitVec 32
  reserved : BitVec 32
deriving DecidableEq

namespace IdtDescriptor

/-- `sizeof(struct idt_descriptor)`. -/
def size : ℕ := 16

/-- The widths and the values of the members. -/
def fields (d : IdtDescriptor) : List (ℕ × ℕ) :=
  [(2, d.offsetl.toNat), (2, d.selector.toNat), (1, d.ist.toNat), (1, d.typeattr.toNat), (2, d.offsetm.toNat),
    (4, d.offseth.toNat), (4, d.reserved.toNat)]

def bytes (d : IdtDescriptor) : List Byte := words d.fields

def read (mem : ByteMem) (p : Word) : IdtDescriptor :=
  let b := BiosMem.stringAt mem p
  { offsetl := .ofNat 16 (leAt b 0 2)
    selector := .ofNat 16 (leAt b 2 2)
    ist := .ofNat 8 (leAt b 4 1)
    typeattr := .ofNat 8 (leAt b 5 1)
    offsetm := .ofNat 16 (leAt b 6 2)
    offseth := .ofNat 32 (leAt b 8 4)
    reserved := .ofNat 32 (leAt b 12 4) }

/-- `_idt + which`. -/
def entry (idt : Word) (which : ℕ) : Word := idt + BitVec.ofNat 64 (size * which)

end IdtDescriptor

/-- The descriptor that `_idt_descriptor` fills in. -/
def IdtDescriptor.of (offset : Word) (selector : BitVec 16) (flags : BitVec 32) : IdtDescriptor where
  offsetl := (offset &&& 0xFFFF).setWidth 16
  selector := selector
  ist := 0
  typeattr := flags.setWidth 8
  offsetm := ((offset >>> 16) &&& 0xFFFF).setWidth 16
  offseth := (offset >>> 32).setWidth 32
  reserved := 0

/-- `struct idt_reference`. -/
structure IdtReference where
  limit : BitVec 16
  offset : Word
deriving DecidableEq

/-- An element of `intr_table`, without the name. -/
structure InterruptEntry where
  id : ℕ
  handler : InterruptHandler

/-- The memory with the descriptors, what `lidt` has loaded, and `intr_table`. -/
structure InterruptTables where
  mem : ByteMem
  idtr : IdtReference
  table : InterruptType → InterruptEntry

namespace InterruptTables

/-- `install_interrupt_handler`. -/
def install (s : InterruptTables) (which : InterruptType) (handler : InterruptHandler) : InterruptTables :=
  { s with table := update s.table which { s.table which with handler := handler } }

/-- `intr_table[intr].handler`. -/
def handler (s : InterruptTables) (intr : Word) : InterruptHandler := (s.table (Fin.ofNat 256 intr.toNat)).handler

end InterruptTables

/-- The handlers of `interrupt.c`. -/
structure FaultHandlers where
  intrDefault : InterruptHandler
  gpFault : InterruptHandler
  doubleFault : InterruptHandler

/-- A gate; `interrupt` says that it clears the interrupt flag, other than that for a trap. -/
structure IdtGate where
  offset : Word
  selector : BitVec 16
  ist : BitVec 3
  interrupt : Bool
  dpl : BitVec 2
deriving DecidableEq

/-- The gate for the vector `n`; without one there is a fault. -/
def gateAt (mem : ByteMem) (idtr : IdtReference) (n : ℕ) : Option IdtGate :=
  if 16 * n + 15 ≤ idtr.limit.toNat then
    let d := IdtDescriptor.read mem (IdtDescriptor.entry idtr.offset n)
    let type := d.typeattr.extractLsb' 0 5
    if d.typeattr.getLsbD 7 ∧ (type = 0xE ∨ type = 0xF) then
      some ⟨d.offseth ++ (d.offsetm ++ d.offsetl), d.selector, d.ist.extractLsb' 0 3, type = 0xE, d.typeattr.extractLsb' 5 2⟩
    else none
  else none

/-- The segment of the code of the kernel. -/
def kernelCs : BitVec 16 := 0x08

/-- An interrupt: the processor goes through the gate and runs the stub whose address is there.  Only gates that lead to
code of the kernel, clear the interrupt flag and do not change to a stack of their own are `deliver`. -/
def interrupt (s : InterruptTables) (stub : InterruptType → Word) (callee : Machine InterruptState → Machine InterruptState)
    (ret : Word) (n : InterruptType) (i : Interrupted) (error : Option Word) : Option (Machine InterruptState) :=
  (gateAt s.mem s.idtr n).bind fun g =>
    if g.selector = kernelCs ∧ g.ist = 0 ∧ g.interrupt then
      ((List.finRange 256).find? fun k => stub k = g.offset).bind fun k =>
        isrStub callee ret (BitVec.ofNat 64 k) (i.deliver error)
    else none

/-! ### Bytes in memory -/

section
variable {mem : ByteMem} {p a : Word} {data : List Byte}

end

namespace IdtDescriptor
variable {mem : ByteMem} {d : IdtDescriptor} {idt p : Word}

end IdtDescriptor

/-- The handler of an interrupt behind `init_interrupts`. -/
def FaultHandlers.first (handlers : FaultHandlers) (n : InterruptType) : InterruptHandler :=
  if n = .gpfault then handlers.gpFault else if n = .dblfault then handlers.doubleFault else handlers.intrDefault

namespace InterruptTables
variable {s : InterruptTables}

theorem table_install (s : InterruptTables) (which n : InterruptType) (handler : InterruptHandler) :
    (s.install which handler).table n = if which = n then { s.table n with handler := handler } else s.table n := by
  unfold install
  dsimp only
  split_ifs with h
  · rw [h, update_self]
  · rw [update_of_ne (Ne.symm h)]

/-- What holds of the tables behind `init_interrupts`: the gates lead to the stubs, and the entries are in order. -/
structure Ready (s : InterruptTables) (stub : InterruptType → Word) : Prop where
  gate : ∀ n : InterruptType, gateAt s.mem s.idtr n = some ⟨stub n, kernelCs, 0, true, 0⟩
  id : ∀ n, (s.table n).id = n

theorem Ready.install {stub : InterruptType → Word} (h : s.Ready stub) (which : InterruptType) (handler : InterruptHandler) :
    (s.install which handler).Ready stub where
  gate := h.gate
  id n := by
    rw [table_install]
    split_ifs <;> exact h.id n

end InterruptTables

/-- Calls of `install_interrupt_handler`. -/
def InterruptTables.installs (s : InterruptTables) (calls : List (InterruptType × InterruptHandler)) : InterruptTables :=
  calls.foldl (fun s c => s.install c.1 c.2) s

/-- The handler that was installed last for `n`. -/
def lastHandler (handlers : FaultHandlers) (calls : List (InterruptType × InterruptHandler)) (n : InterruptType) :
    InterruptHandler :=
  (last (fun c n => c.1 = n) (fun c _ => c.2) n calls).getD (handlers.first n)

theorem InterruptTables.Ready.installs {s : InterruptTables} {stub : InterruptType → Word} {handlers : FaultHandlers}
    (h : s.Ready stub) (hfirst : ∀ n, (s.table n).handler = handlers.first n)
    (calls : List (InterruptType × InterruptHandler)) (n : InterruptType) :
    (s.installs calls).Ready stub ∧ ((s.installs calls).table n).handler = lastHandler handlers calls n := by
  have hwrite : ∀ (s : InterruptTables) (c : InterruptType × InterruptHandler), s.Ready stub → True →
      ((s.install c.1 c.2).table n).handler = if c.1 = n then c.2 else (s.table n).handler := by
    intro s c _ _
    rw [InterruptTables.table_install]
    split_ifs <;> rfl
  have hread := @read_foldl _ _ _ _ (fun c n => c.1 = n) _ (fun c _ => c.2) n
    (fun (s : InterruptTables) (c : InterruptType × InterruptHandler) => s.install c.1 c.2) (fun s n => (s.table n).handler)
    (fun s => s.Ready stub) (fun _ => True) (fun s c hs _ => hs.install c.1 c.2) hwrite calls (fun _ _ => trivial) s h
  rw [hfirst] at hread
  exact hread

/-- What a handler is called with: it sees the registers and the frame of the interrupted code. -/
structure Interrupted.SeenAt (i : Interrupted) (error : Option Word) (intrframe registers : Word) (s : Store InterruptState) :
    Prop where
  rest : s.rest = { i.machine.rest with level := .context }
  registers : RegisterState.read s.mem registers = .of i.machine
  frame : match error with
    | none => BenignInterruptFrame.read s.mem intrframe = i.frame
    | some e => FaultInterruptFrame.read s.mem intrframe = ⟨e, i.frame⟩

section
variable {i : Interrupted} {error : Option Word} {n : InterruptType} {ret : Word} {handler : Word → InterruptHandler}
  {yieldCurrent : Store InterruptState → Store InterruptState} {callee : Machine InterruptState → Machine InterruptState}
  {m : Machine InterruptState}

/-- What `isr_common_stub` gives its handler. -/
theorem Entered.seen {n : Word} (he : Entered n (i.deliver error) (i.delivered error) m) (hrest : m.rest = i.machine.rest)
    (ret : Word) : i.SeenAt error (m.regs .rsi) (m.regs .rdx) (setLevel .context (m.push ret).toStore) := by
  have hlen := i.delivered_length error
  have hle := Interrupted.toList_length_le error
  have hwords : ((savedRegisters.reverse ++ [Reg.rbp]).map (i.deliver error).regs ++ i.delivered error).length =
      11 + (i.delivered error).length := List.length_append
  have hpush := (he.stack.push (by omega) ret).2
  rw [push_sp, sub_add_cancel] at hpush
  have hviews := views_of_stack hpush
  have hsp : m.regs .rsp = m.regs .rdx := he.sp.trans he.rdx.symm
  have hsi : m.regs .rsp + 88 = m.regs .rsi := by
    rw [he.sp, he.rsi]
    exact sub_add_cancel _ 88
  rw [hsi, hsp] at hviews
  exact ⟨by rw [← hrest]; rfl, hviews.1, hviews.2⟩

end

end Dunkos
