import Dunkos.IntrusiveList
import Mathlib.Algebra.Group.Nat.Defs

/-! # Threads, semaphores, locks and condition variables (`thread.c`, `synch.h`)

One processor runs one thread at a time.  A thread is its number (`tid_t`); its `status_elem` is the
link by which it is on the ready list or on a list of waiters.

The functions of `thread.c` are lists of statements.  A statement runs without interruption: its
section disables interrupts, or it is one call of a list function.  `cont t` is what thread `t` has
still to run, and it is empty when `t` is outside the kernel.  A thread that calls `switch_to` goes
on where it stopped when it is running again, so the body of the loop in `semaphore_dec` is a
statement of its own, which keeps the local variables `value` and `old_level`.

`step` is one action: the running thread calls a function, or runs its next statement, or is
interrupted by the timer, which yields.  `none` stands for what the machine cannot do: a call from
inside the kernel, an interrupt while they are disabled, or a switch to a pointer that is no thread
(the threads are those with ids below `next_tid`).  The functions are over any memory `M` that has
the lists (`ThreadQueues`). -/

namespace Dunkos

/-- `THRSTAT_BLOCKED` is zero, the status of a thread in zeroed memory. -/
inductive ThreadStatus where
  | blocked
  | ready
  | running
  | dead
deriving DecidableEq, Repr

inductive InterruptLevel where
  | disabled
  | enabled
  | context
deriving DecidableEq, Repr

/-- A semaphore by itself, or the one in a lock. -/
inductive Sema where
  | sem (i : ℕ)
  | binary (l : ℕ)
deriving DecidableEq, Repr

/-- The lists that link threads by `status_elem`. -/
inductive Queue where
  | ready
  | sema (s : Sema)
  | cond (c : ℕ)
deriving DecidableEq, Repr

/-- The list functions that `thread.c` uses, and what is on a list for those who state properties. -/
class ThreadQueues (M : Type) where
  isEmpty : M → Queue → Bool
  pushBack : M → Queue → Elem Queue ℕ → M
  popFront : M → Queue → M × Elem Queue ℕ
  remove : M → Queue → Elem Queue ℕ → M
  members : M → Queue → List ℕ

instance : ThreadQueues (ListMem Queue ℕ) where
  isEmpty := listEmpty
  pushBack := listPushBack
  popFront := listPopFront
  remove := listRemove
  members m l := (forward m l).1

open ThreadQueues

/-- The statements of the functions below.  `decLoop` is the rest of `semaphore_dec` behind
`block_current`, `waitPush` and `waitBlock` are the middle of `condvar_wait`, `signalMove` that of
`condvar_signal_one`, and `isrReturn` is the rest of `isr_common_stub` behind `yield_current`. -/
inductive Stmt where
  | startThread
  | isrReturn (old : InterruptLevel)
  | createThread
  | yieldCurrent
  | blockCurrent
  | threadBlock (thr : ℕ)
  | threadUnblock (thr : ℕ)
  | exitThread
  | semaphoreInc (s : Sema)
  | semaphoreDec (s : Sema)
  | decLoop (s : Sema) (value : ℕ) (old : InterruptLevel)
  | setHolder (l : ℕ)
  | clearHolder (l : ℕ)
  | waitPush (c : ℕ)
  | waitBlock (c : ℕ)
  | signalMove (c : ℕ)
  | signalAll (c l : ℕ)
deriving DecidableEq, Repr

/-- All but the lists.  `intr` is the interrupt flag of the processor, `saved` the flag on the stack
of every thread that is not running, `level` is `intr_level`; `freed` are the threads given to
`kfree`. -/
structure Threads where
  status : ℕ → ThreadStatus
  running : ℕ
  idle : ℕ
  nextTid : ℕ
  value : Sema → ℕ
  holder : ℕ → Option ℕ
  level : InterruptLevel
  intr : Bool
  saved : ℕ → Bool
  cont : ℕ → List Stmt
  freed : List ℕ

structure Kernel (M : Type) extends Threads where
  mem : M

namespace Kernel
variable {M : Type} [ThreadQueues M] (k : Kernel M)

/-- `thr->status = st`. -/
def setStatus (thr : ℕ) (st : ThreadStatus) : Kernel M := { k with status := Function.update k.status thr st }

/-- The running thread runs `stmts` next. -/
def enter (stmts : List Stmt) : Kernel M :=
  { k with cont := Function.update k.cont k.running (stmts ++ k.cont k.running) }

/-! ### Interrupts and switches -/

/-- `cli`, `sti`, or neither; the old level is `k.level`. -/
def setInterruptLevel (level : InterruptLevel) : Kernel M :=
  { k with
    level := level
    intr := match level with
      | .disabled => false
      | .enabled => true
      | .context => k.intr }

def disableInterrupts : Kernel M := k.setInterruptLevel .disabled

def nextThread : Kernel M × Option ℕ :=
  if isEmpty k.mem .ready then (k, some k.idle)
  else
    let r := popFront k.mem .ready
    ({ k with mem := r.1 }, r.2.node?)

/-- The flags go to the stack of `prev` and come from that of `next`. -/
def switchTo (prev next : ℕ) : Kernel M :=
  let saved := Function.update k.saved prev k.intr
  { k with saved := saved, intr := saved next }

/-- Behind `switch_to` it is the resumed thread that goes on, with its own `prev`: itself.  (A new
thread goes on in `start_thread`, but its status is not `THRSTAT_DEAD`.) -/
def scheduleNext : Option (Kernel M) :=
  match k.nextThread with
  | (_, none) => none
  | (k, some next) =>
      if next < k.nextTid then
        let k := { k.switchTo k.running next with running := next }
        some (if k.status next = .dead then { k with freed := next :: k.freed } else k)
      else none

def yieldCurrent : Option (Kernel M) :=
  if k.status k.running ≠ .blocked then
    { k with mem := pushBack k.mem .ready (.node k.running) }.scheduleNext
  else k.scheduleNext

def blockCurrent : Option (Kernel M) :=
  (k.disableInterrupts.setStatus k.running .blocked).yieldCurrent

def threadBlock (thr : ℕ) : Option (Kernel M) :=
  if thr = k.running then k.blockCurrent
  else some { k.setStatus thr .blocked with mem := remove k.mem .ready (.node thr) }

def threadUnblock (thr : ℕ) : Kernel M :=
  let oldLevel := k.level
  let k := k.disableInterrupts
  let k := if thr ≠ k.idle then { k with mem := pushBack k.mem .ready (.node thr) } else k
  (k.setStatus thr .ready).setInterruptLevel oldLevel

def exitThread : Option (Kernel M) :=
  (k.disableInterrupts.setStatus k.running .dead).scheduleNext

/-! ### Creation -/

/-- Memory for a new thread, its id, and its stack: the flags there are zero, and it starts in
`start_thread`. -/
def newThread : Kernel M :=
  { k.setStatus k.nextTid .blocked with
    nextTid := k.nextTid + 1
    saved := Function.update k.saved k.nextTid false
    cont := Function.update k.cont k.nextTid [.startThread] }

def createThread : Kernel M := k.newThread.threadUnblock k.nextTid

/-! ### Semaphores -/

/-- The `if` in `semaphore_inc`. -/
def wakeWaiter (s : Sema) : Option (Kernel M) :=
  if isEmpty k.mem (.sema s) then some k
  else
    let r := popFront k.mem (.sema s)
    match r.2.node? with
    | none => none
    | some topWaiter => some ({ k with mem := r.1 }.threadUnblock topWaiter)

def semaphoreInc (s : Sema) : Option (Kernel M) :=
  let oldLevel := k.level
  let k := k.disableInterrupts
  let k := { k with value := Function.update k.value s ((k.value s + 1) % 2 ^ 64) }
  (k.wakeWaiter s).map (fun k => k.setInterruptLevel oldLevel)

/-- The loop of `semaphore_dec`, from its test on. -/
def decLoop (s : Sema) (value : ℕ) (oldLevel : InterruptLevel) : Option (Kernel M) :=
  if value = 0 then
    let k := { k with mem := pushBack k.mem (.sema s) (.node k.running) }
    (k.enter [.decLoop s value oldLevel]).blockCurrent
  else some ({ k with value := Function.update k.value s (value - 1) }.setInterruptLevel oldLevel)

def semaphoreDec (s : Sema) : Option (Kernel M) :=
  let oldLevel := k.level
  let k := k.disableInterrupts
  k.decLoop s (k.value s) oldLevel

end Kernel

/-! ### Function bodies -/

def lockAcquire (l : ℕ) : List Stmt := [.semaphoreDec (.binary l), .setHolder l]

def lockRelease (l : ℕ) : List Stmt := [.clearHolder l, .semaphoreInc (.binary l)]

def condvarWait (c l : ℕ) : List Stmt := lockRelease l ++ [.waitPush c, .waitBlock c] ++ lockAcquire l

def condvarSignalOne (c l : ℕ) : List Stmt := lockRelease l ++ [.signalMove c] ++ lockAcquire l

/-- One statement: the test of the loop, which runs the body and comes back. -/
def condvarSignalAll (c l : ℕ) : List Stmt := [.signalAll c l]

/-- The functions that threads call. -/
inductive ThreadOp where
  | createThread
  | yieldCurrent
  | blockCurrent
  | threadBlock (thr : ℕ)
  | threadUnblock (thr : ℕ)
  | exitThread
  | semaphoreInc (i : ℕ)
  | semaphoreDec (i : ℕ)
  | lockAcquire (l : ℕ)
  | lockRelease (l : ℕ)
  | condvarWait (c l : ℕ)
  | condvarSignalOne (c l : ℕ)
  | condvarSignalAll (c l : ℕ)
deriving DecidableEq, Repr

def ThreadOp.body : ThreadOp → List Stmt
  | createThread => [.createThread]
  | yieldCurrent => [.yieldCurrent]
  | blockCurrent => [.blockCurrent]
  | threadBlock thr => [.threadBlock thr]
  | threadUnblock thr => [.threadUnblock thr]
  | exitThread => [.exitThread]
  | semaphoreInc i => [.semaphoreInc (.sem i)]
  | semaphoreDec i => [.semaphoreDec (.sem i)]
  | lockAcquire l => Dunkos.lockAcquire l
  | lockRelease l => Dunkos.lockRelease l
  | condvarWait c l => Dunkos.condvarWait c l
  | condvarSignalOne c l => Dunkos.condvarSignalOne c l
  | condvarSignalAll c l => Dunkos.condvarSignalAll c l

namespace Kernel
variable {M : Type} [ThreadQueues M] (k : Kernel M)

/-- The running thread runs one statement, which is off `cont` already. -/
def exec : Stmt → Option (Kernel M)
  | .startThread => some (k.setInterruptLevel .enabled)
  | .isrReturn old => some { k.setInterruptLevel old with intr := true }
  | .createThread => some k.createThread
  | .yieldCurrent => k.yieldCurrent
  | .blockCurrent => k.blockCurrent
  | .threadBlock thr => k.threadBlock thr
  | .threadUnblock thr => some (k.threadUnblock thr)
  | .exitThread => k.exitThread
  | .semaphoreInc s => k.semaphoreInc s
  | .semaphoreDec s => k.semaphoreDec s
  | .decLoop s value old => k.decLoop s value old
  | .setHolder l => some { k with holder := Function.update k.holder l (some k.running) }
  | .clearHolder l => some { k with holder := Function.update k.holder l none }
  | .waitPush c => some { k with mem := pushBack k.mem (.cond c) (.node k.running) }
  | .waitBlock _ => k.blockCurrent
  | .signalMove c =>
      let r := popFront k.mem (.cond c)
      some { k with mem := pushBack r.1 .ready r.2 }
  | .signalAll c l =>
      some (if isEmpty k.mem (.cond c) then k else k.enter (condvarSignalOne c l ++ condvarSignalAll c l))

end Kernel

inductive Action where
  | call (op : ThreadOp)
  | run
  | interrupt
deriving DecidableEq, Repr

namespace Kernel
variable {M : Type} [ThreadQueues M]

/-- The next statement of the running thread. -/
def next? (k : Kernel M) : Option Stmt := (k.cont k.running).head?

/-- The idle thread never calls anything.  On an interrupt the processor disables interrupts, and the
handler sets the level; `isrReturn` enables them again. -/
def step (k : Kernel M) : Action → Option (Kernel M)
  | .call op => if k.running ≠ k.idle ∧ k.cont k.running = [] then some (k.enter op.body) else none
  | .run =>
      match k.cont k.running with
      | [] => none
      | stmt :: rest => { k with cont := Function.update k.cont k.running rest }.exec stmt
  | .interrupt =>
      if k.intr then (k.disableInterrupts.enter [.isrReturn k.level]).yieldCurrent else none

end Kernel

/-- The kernel after `init_threads`, when `ready_threads` and the lists of waiters in `mem` are
initialised, semaphores have their first `value`, locks are free, and interrupts are as given.  The
initial thread has id `0` and its status is that of zeroed memory. -/
def initThreads {M : Type} [ThreadQueues M] (mem : M) (value : ℕ → ℕ) (level : InterruptLevel) (intr : Bool) :
    Kernel M :=
  let k : Kernel M := {
    mem := mem
    status := fun _ => .blocked
    running := 0
    idle := 0
    nextTid := 1
    value := fun s => match s with
      | .sem i => value i
      | .binary _ => 1
    holder := fun _ => none
    level := level
    intr := intr
    saved := fun _ => false
    cont := fun _ => []
    freed := [] }
  ({ k.newThread with idle := k.nextTid }).threadUnblock k.nextTid

end Dunkos
