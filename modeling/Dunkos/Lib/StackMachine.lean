import Mathlib.Data.BitVec
import Mathlib.Logic.Function.Basic
import Mathlib.Tactic.Ring

/-! # Code that keeps values on a stack

A machine with the registers of x86-64, a memory of words at multiples of eight, and any further state.
`StackAt` says which words stand on a stack.  `Pushed` and `Popped` say what sequences of pushes and of
pops do; `run_pushes` and `run_pops` are for code that saves and restores registers.  `Implements` is the
calling convention: what a compiled function may do besides what it is for. -/

namespace StackMachine

abbrev Word := BitVec 64

inductive Reg where
  | rax | rbx | rcx | rdx | rsi | rdi | rbp | rsp
  | r8 | r9 | r10 | r11 | r12 | r13 | r14 | r15
deriving DecidableEq, Repr

/-- The memory, and the state that is not modelled by words of it. -/
structure Store (K : Type*) where
  mem : Word → Word
  rest : K

structure Machine (K : Type*) extends Store K where
  regs : Reg → Word
  flags : Word

namespace Machine
variable {K : Type*} (m : Machine K)

def set (r : Reg) (v : Word) : Machine K := { m with regs := Function.update m.regs r v }

def push (v : Word) : Machine K :=
  { m.set .rsp (m.regs .rsp - 8) with mem := Function.update m.mem (m.regs .rsp - 8) v }

def pushes (vs : List Word) : Machine K := vs.foldl push m

/-- The word on top of the stack. -/
def top : Word := m.mem (m.regs .rsp)

def drop : Machine K := m.set .rsp (m.regs .rsp + 8)

/-- Where a return goes to, and the state there. -/
def ret : Word × Machine K := (m.top, m.drop)

@[simp] theorem set_mem (r : Reg) (v : Word) : (m.set r v).mem = m.mem := rfl

@[simp] theorem set_rest (r : Reg) (v : Word) : (m.set r v).rest = m.rest := rfl

@[simp] theorem set_flags (r : Reg) (v : Word) : (m.set r v).flags = m.flags := rfl

@[simp] theorem set_self (r : Reg) (v : Word) : (m.set r v).regs r = v := Function.update_self ..

theorem set_of_ne {r r' : Reg} (h : r' ≠ r) (v : Word) : (m.set r v).regs r' = m.regs r' :=
  Function.update_of_ne h _ _

theorem drop_sp : m.drop.regs .rsp = m.regs .rsp + 8 := m.set_self .rsp (m.regs .rsp + 8)

theorem drop_regs {r : Reg} (h : r ≠ .rsp) : m.drop.regs r = m.regs r := m.set_of_ne h (m.regs .rsp + 8)

/-- A call: `callee` runs with the return address on the stack, and `ret` goes back if it still stands there. -/
def call (callee : Machine K → Machine K) (ret : Word) : Option (Machine K) :=
  if (callee (m.push ret)).top = ret then some (callee (m.push ret)).drop else none

end Machine

inductive Instr where
  | push (r : Reg)
  | pop (r : Reg)
  | pushf
  | popf
  | mov (src dst : Reg)
  | movImm (v : Word) (dst : Reg)
  | lea (disp : Word) (base dst : Reg)
  | store (src : Reg) (disp : Word) (base : Reg)
  | load (disp : Word) (base dst : Reg)
  | cld
deriving DecidableEq, Repr

/-- The direction flag. -/
def directionFlag : Word := 0x400

namespace Instr
variable {K : Type*}

def exec : Instr → Machine K → Machine K
  | push r, m => m.push (m.regs r)
  | pop r, m => m.drop.set r m.top
  | pushf, m => m.push m.flags
  | popf, m => { m.drop with flags := m.top }
  | mov src dst, m => m.set dst (m.regs src)
  | movImm v dst, m => m.set dst v
  | lea disp base dst, m => m.set dst (m.regs base + disp)
  | store src disp base, m => { m with mem := Function.update m.mem (m.regs base + disp) (m.regs src) }
  | load disp base dst, m => m.set dst (m.mem (m.regs base + disp))
  | cld, m => { m with flags := m.flags &&& ~~~directionFlag }

/-- Straight-line code. -/
def run (is : List Instr) (m : Machine K) : Machine K := is.foldl (fun m i => i.exec m) m

theorem run_cons (i : Instr) (is : List Instr) (m : Machine K) : run (i :: is) m = run is (i.exec m) := rfl

theorem run_append (is js : List Instr) (m : Machine K) : run (is ++ js) m = run js (run is m) :=
  List.foldl_append

end Instr

/-! ### Words on a stack -/

/-- The words of a stack from the top on. -/
def StackAt (mem : Word → Word) : Word → List Word → Prop
  | _, [] => True
  | sp, v :: vs => mem sp = v ∧ StackAt mem (sp + 8) vs

section
variable {mem mem' : Word → Word} {sp : Word} {vs ws : List Word}

theorem stackAt_append : StackAt mem sp (vs ++ ws) ↔ StackAt mem sp vs ∧ StackAt mem (sp + 8 * vs.length) ws := by
  induction vs generalizing sp with
  | nil => simp [StackAt]
  | cons v vs ih =>
      have hlen : sp + 8 * ((v :: vs).length : Word) = sp + 8 + 8 * (vs.length : Word) := by
        rw [List.length_cons, Nat.cast_succ]
        ring
      rw [List.cons_append, StackAt, StackAt, ih, hlen, and_assoc]

theorem stackAt_iff : StackAt mem sp vs ↔ ∀ (i : ℕ) (hi : i < vs.length), mem (sp + 8 * (i : Word)) = vs[i] := by
  induction vs generalizing sp with
  | nil => exact ⟨fun _ i hi => absurd hi (Nat.not_lt_zero i), fun _ => trivial⟩
  | cons v vs ih =>
      have hnext : ∀ i : ℕ, sp + 8 + 8 * (i : Word) = sp + 8 * ((i + 1 : ℕ) : Word) := by
        intro i
        rw [Nat.cast_succ]
        ring
      rw [StackAt, ih]
      constructor
      · rintro ⟨h₀, h⟩ i hi
        cases i with
        | zero => rwa [Nat.cast_zero, mul_zero, add_zero]
        | succ i => exact hnext i ▸ h i (Nat.lt_of_succ_lt_succ hi)
      · intro h
        refine ⟨?_, fun i hi => ?_⟩
        · have h₀ := h 0 (Nat.zero_lt_succ _)
          rwa [Nat.cast_zero, mul_zero, add_zero] at h₀
        · rw [hnext]
          exact h (i + 1) (Nat.succ_lt_succ hi)

theorem StackAt.congr (h : StackAt mem sp vs) (hm : ∀ i < vs.length, mem' (sp + 8 * (i : Word)) = mem (sp + 8 * (i : Word))) :
    StackAt mem' sp vs :=
  stackAt_iff.mpr fun i hi => (hm i hi).trans (stackAt_iff.mp h i hi)

/-- The words from `sp` on, up to half of the memory. -/
def Above (sp a : Word) : Prop := (a - sp).toNat < 2 ^ 63

theorem above_word {i : ℕ} (hi : i < 2 ^ 60) : Above sp (sp + 8 * (i : Word)) := by
  have hsub : sp + 8 * (i : Word) - sp = 8 * (i : Word) := by ring
  have hcast : (i : Word).toNat = i := by
    rw [BitVec.natCast_eq_ofNat, BitVec.toNat_ofNat]
    omega
  unfold Above
  rw [hsub, BitVec.toNat_mul, hcast]
  simp only [BitVec.reduceToNat]
  omega

/-- What happens below the top of a stack does not change it. -/
theorem StackAt.above (h : StackAt mem sp vs) (hlen : vs.length ≤ 2 ^ 60) (hm : ∀ a, Above sp a → mem' a = mem a) :
    StackAt mem' sp vs :=
  h.congr fun _ hi => hm _ (above_word (Nat.lt_of_lt_of_le hi hlen))

theorem not_above_below : ¬ Above sp (sp - 8) := by
  have hsub : sp - 8 - sp = -8 := by ring
  unfold Above
  rw [hsub]
  decide

end

/-! ### Pushes -/

variable {K : Type*} {m m' : Machine K}

theorem push_regs (v : Word) {r : Reg} (hr : r ≠ .rsp) : (m.push v).regs r = m.regs r :=
  Function.update_of_ne hr _ _

theorem push_sp (v : Word) : (m.push v).regs .rsp = m.regs .rsp - 8 := m.set_self .rsp (m.regs .rsp - 8)

theorem StackAt.push {vs : List Word} (h : StackAt m.mem (m.regs .rsp) vs) (hlen : vs.length ≤ 2 ^ 60) (v : Word) :
    StackAt (m.push v).mem ((m.push v).regs .rsp) (v :: vs) := by
  rw [push_sp]
  refine ⟨Function.update_self .., ?_⟩
  rw [sub_add_cancel]
  refine h.above hlen fun a ha => Function.update_of_ne ?_ _ _
  rintro rfl
  exact not_above_below ha

/-- `m'` is `m` with words pushed, the last one on top. -/
structure Pushed (m : Machine K) (vs : List Word) (m' : Machine K) : Prop where
  regs : ∀ r, r ≠ .rsp → m'.regs r = m.regs r
  sp : m'.regs .rsp = m.regs .rsp - 8 * vs.length
  flags : m'.flags = m.flags
  rest : m'.rest = m.rest
  mem : ∀ a, (∀ i < vs.length, a ≠ m.regs .rsp - 8 * ((i : Word) + 1)) → m'.mem a = m.mem a
  stack : ∀ ws, ws.length + vs.length ≤ 2 ^ 60 → StackAt m.mem (m.regs .rsp) ws →
    StackAt m'.mem (m'.regs .rsp) (vs.reverse ++ ws)

theorem Pushed.nil (m : Machine K) : Pushed m [] m where
  regs _ _ := rfl
  sp := by simp
  flags := rfl
  rest := rfl
  mem _ _ := rfl
  stack _ _ h := h

theorem Pushed.cons {v : Word} {vs : List Word} (h : Pushed (m.push v) vs m') : Pushed m (v :: vs) m' where
  regs r hr := (h.regs r hr).trans (push_regs v hr)
  sp := by
    rw [h.sp, push_sp, List.length_cons, Nat.cast_succ]
    ring
  flags := h.flags
  rest := h.rest
  mem a ha := by
    rw [h.mem a fun i hi => ?_]
    · refine Function.update_of_ne ?_ _ _
      simpa using ha 0 (Nat.zero_lt_succ _)
    · rw [push_sp]
      convert ha (i + 1) (Nat.succ_lt_succ hi) using 1
      rw [Nat.cast_succ]
      ring
  stack ws hlen hw := by
    rw [List.length_cons] at hlen
    rw [List.reverse_cons, List.append_assoc]
    refine h.stack (v :: ws) ?_ (hw.push (by omega) v)
    rw [List.length_cons]
    omega

theorem pushes_pushed (m : Machine K) (vs : List Word) : Pushed m vs (m.pushes vs) := by
  induction vs generalizing m with
  | nil => exact .nil m
  | cons v vs ih => exact (ih (m.push v)).cons

theorem run_pushes (rs : List Reg) (hrs : .rsp ∉ rs) (m : Machine K) :
    Pushed m (rs.map m.regs) (Instr.run (rs.map .push) m) := by
  induction rs generalizing m with
  | nil => exact .nil m
  | cons r rs ih =>
      rw [List.map_cons, List.map_cons, Instr.run_cons]
      have hregs : rs.map m.regs = rs.map (m.push (m.regs r)).regs := by
        refine List.map_congr_left fun r' hr' => (push_regs _ ?_).symm
        rintro rfl
        exact hrs (List.mem_cons_of_mem _ hr')
      rw [hregs]
      exact (ih (fun h => hrs (List.mem_cons_of_mem _ h)) _).cons

/-! ### Pops -/

/-- `m'` is `m` with the registers `rs` popped, the first one from the top. -/
structure Popped (m : Machine K) (rs : List Reg) (f : Reg → Word) (m' : Machine K) : Prop where
  popped : ∀ r ∈ rs, m'.regs r = f r
  others : ∀ r ∉ rs, r ≠ .rsp → m'.regs r = m.regs r
  sp : m'.regs .rsp = m.regs .rsp + 8 * rs.length
  flags : m'.flags = m.flags
  store : m'.toStore = m.toStore

theorem run_pops (rs : List Reg) (hrs : .rsp ∉ rs) (hnodup : rs.Nodup) {f : Reg → Word}
    (h : StackAt m.mem (m.regs .rsp) (rs.map f)) : Popped m rs f (Instr.run (rs.map .pop) m) := by
  induction rs generalizing m with
  | nil =>
      refine ⟨fun r hr => ?_, fun _ _ _ => rfl, by simp [Instr.run], rfl, rfl⟩
      cases hr
  | cons r rs ih =>
      rw [List.nodup_cons] at hnodup
      rw [List.mem_cons, not_or] at hrs
      obtain ⟨htop, htail⟩ := h
      rw [List.map_cons, Instr.run_cons]
      have hsp : (Instr.exec (.pop r) m).regs .rsp = m.regs .rsp + 8 :=
        (Machine.set_of_ne _ hrs.1 _).trans m.drop_sp
      have hp := ih (m := Instr.exec (.pop r) m) hrs.2 hnodup.2 (by rw [hsp]; exact htail)
      refine ⟨fun r' hr' => ?_, fun r' hr' hsp' => ?_, ?_, hp.flags, hp.store⟩
      · rcases List.mem_cons.mp hr' with rfl | hr'
        · rw [hp.others r' hnodup.1 (Ne.symm hrs.1), ← htop]
          exact Machine.set_self ..
        · exact hp.popped r' hr'
      · rw [List.mem_cons, not_or] at hr'
        rw [hp.others r' hr'.2 hsp']
        exact (Machine.set_of_ne _ hr'.1 _).trans (m.drop_regs hsp')
      · rw [hp.sp, hsp, List.length_cons, Nat.cast_succ]
        ring

/-! ### Calls -/

/-- The registers that a function gives back as it got them. -/
def calleeSaved : List Reg := [.rbx, .rbp, .rsp, .r12, .r13, .r14, .r15]

/-- `callee` is compiled from a function of three arguments: it gives back the saved registers, leaves its return
address, and does what the function does to the memory above it. -/
structure Implements (callee : Machine K → Machine K) (f : Word → Word → Word → Store K → Store K) : Prop where
  saved : ∀ m, ∀ r ∈ calleeSaved, (callee m).regs r = m.regs r
  returns : ∀ m, (callee m).mem (m.regs .rsp) = m.mem (m.regs .rsp)
  mem : ∀ m a, Above (m.regs .rsp + 8) a →
    (callee m).mem a = (f (m.regs .rdi) (m.regs .rsi) (m.regs .rdx) m.toStore).mem a
  rest : ∀ m, (callee m).rest = (f (m.regs .rdi) (m.regs .rsi) (m.regs .rdx) m.toStore).rest

end StackMachine
