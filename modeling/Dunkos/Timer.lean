import Dunkos.ThreadRun
import Dunkos.ListSpec
import Dunkos.Lib.Reach
import Mathlib.Algebra.Order.Ring.Int

/-! # Sleeping threads and the timer interrupt (`timer.c`)

`Sleepers` runs `sleep_ticks` of any number of threads over the kernel of `Thread.lean`, with the
timer interrupt between any two steps.  `list_push_back` is one step for each store here, since
`sleep_ticks` does not disable interrupts around it.

`timer_interrupt` increments the `sleep_sema` of every thread of the queue whose `sleep_end` has been
reached, and never takes a thread out of the queue.  `sleep_right_while` says that sleeping is right
as long as no interrupt reaches anybody's end. -/

namespace Dunkos

open Elem ThreadQueues Kernel

def timeSlice : BitVec 64 := 100

/-- The semaphores with even numbers are those that threads sleep on. -/
def sleepSema (t : ℕ) : ℕ := 2 * t

/-- The number of `sleep_queue_lock`. -/
def sleepQueueLock : ℕ := 0

/-- Where a thread is in `sleep_ticks`, outside of the functions of `thread.c`.  `acquire`, `release` and
`asleep` are behind the calls of `lock_acquire`, `lock_release` and `semaphore_dec`, the others are
between the stores of `list_push_back`. -/
inductive SleepPc where
  | user
  | acquire
  | pushNext (pr : Elem Unit ℕ)
  | pushTail
  | pushElem
  | pushSize
  | release
  | asleep
deriving DecidableEq, Repr

/-- A call of `sleep_ticks`: the tick it started at and its argument, whether its thread is on the queue, the
number of the first interrupt after which `ticks >= start + duration`, and the numbers of those that
incremented the `sleep_sema` for it. -/
structure SleepCall where
  start : BitVec 64
  duration : BitVec 64
  queued : Bool
  dueAt : Option ℕ
  incs : List ℕ
deriving DecidableEq, Repr

/-- `ticks >= start + duration`, without overflow. -/
def SleepCall.Due (c : SleepCall) (ticks : BitVec 64) : Prop :=
  (c.start.toNat : ℤ) + c.duration.toInt ≤ ticks.toNat

instance (c : SleepCall) (ticks : BitVec 64) : Decidable (c.Due ticks) := inferInstanceAs (Decidable (_ ≤ _))

/-- The record of a call behind the `n`-th interrupt. -/
def SleepCall.tick (n : ℕ) (ticks : BitVec 64) (c : SleepCall) : SleepCall :=
  { c with dueAt := if c.dueAt = none ∧ c.Due ticks then some n else c.dueAt }

def SleepCall.inc (n : ℕ) (c : SleepCall) : SleepCall := { c with incs := c.incs ++ [n] }

/-- `interrupts` counts the timer interrupts, `calls` records the calls of a thread, the last one first. -/
structure Sleepers (M : Type) where
  kernel : Kernel M
  ticks : BitVec 64
  threadTicks : BitVec 64
  sleepEnd : ℕ → BitVec 64
  sleepQueue : ListMem Unit ℕ
  pc : ℕ → SleepPc
  interrupts : ℕ
  calls : ℕ → List SleepCall

inductive SleepAction where
  | kernel (act : Action)
  | sleep (t : BitVec 64)
  | advance
  | tick
deriving DecidableEq, Repr

namespace Sleepers
variable {M : Type}

section
variable (s : Sleepers M)

def move (pc : SleepPc) : Sleepers M := { s with pc := Function.update s.pc s.kernel.running pc }

/-- The running thread calls a function of `thread.c`. -/
def call (op : ThreadOp) : Sleepers M := { s with kernel := s.kernel.enter op.body }

/-- The running thread is outside of the functions of `thread.c`. -/
def Outside : Prop := s.kernel.running ≠ s.kernel.idle ∧ s.kernel.cont s.kernel.running = []

instance : Decidable s.Outside := inferInstanceAs (Decidable (_ ∧ _))

/-- `sleep_ticks(t)` up to the call of `lock_acquire`. -/
def sleepTicks (t : BitVec 64) : Sleepers M :=
  { (s.call (.lockAcquire sleepQueueLock)).move .acquire with
    sleepEnd := Function.update s.sleepEnd s.kernel.running (s.ticks + t)
    calls := Function.update s.calls s.kernel.running (⟨s.ticks, t, false, none, []⟩ :: s.calls s.kernel.running) }

/-- The thread is on the queue. -/
def enqueued : Sleepers M :=
  { s with
    calls := Function.update s.calls s.kernel.running
      ((s.calls s.kernel.running).modifyHead fun c => { c with queued := true }) }

/-- The next step of the running thread in `sleep_ticks`.  `list_push_back` links the element behind the last one. -/
def advance : SleepPc → Option (Sleepers M)
  | .user => none
  | .acquire => some { s.move (.pushNext (lastCell s.sleepQueue ())) with
      sleepQueue := s.sleepQueue.setPrev (node s.kernel.running) (lastCell s.sleepQueue ()) }
  | .pushNext pr => some { s.move .pushTail with sleepQueue := s.sleepQueue.setNext pr (node s.kernel.running) }
  | .pushTail => some { s.move .pushElem with sleepQueue := s.sleepQueue.setPrev (tail ()) (node s.kernel.running) }
  | .pushElem => some { s.move .pushSize with sleepQueue := s.sleepQueue.setNext (node s.kernel.running) (tail ()) }
  | .pushSize => some { (s.enqueued.call (.lockRelease sleepQueueLock)).move .release with
      sleepQueue := s.sleepQueue.setSize () (listSize s.sleepQueue () + 1) }
  | .release => some ((s.call (.semaphoreDec (sleepSema s.kernel.running))).move .asleep)
  | .asleep => some (s.move .user)

/-- The record behind an interrupt that incremented the semaphores of `woken`. -/
def recordTick (ticks : BitVec 64) (woken : List ℕ) (u : ℕ) : List SleepCall :=
  let cs := (s.calls u).map (SleepCall.tick (s.interrupts + 1) ticks)
  if u ∈ woken then cs.modifyHead (SleepCall.inc (s.interrupts + 1)) else cs

end

section
variable [ThreadQueues M] (s : Sleepers M)

/-- The loop of `timer_interrupt` from `el` on, and the threads whose semaphore it incremented.  It comes to threads
only: a traversal longer than there are threads does not end. -/
def wakeSleepers (ticks : BitVec 64) : ℕ → Kernel M → Elem Unit ℕ → Option (Kernel M × List ℕ)
  | 0, _, _ => none
  | n + 1, k, el =>
      if el = listEnd s.sleepQueue () then some (k, [])
      else el.node?.bind fun sleeper =>
        if s.sleepEnd sleeper ≤ ticks then
          (k.semaphoreInc (.sem (sleepSema sleeper))).bind fun k =>
            (wakeSleepers ticks n k (listNext s.sleepQueue el)).map fun r => (r.1, sleeper :: r.2)
        else wakeSleepers ticks n k (listNext s.sleepQueue el)

/-- The timer interrupt.  The processor clears its interrupt flag, `isr_common_stub` and the handler set the level.
`halt` waits for an interrupt that the flag keeps away; the model goes on behind it, as if one came. -/
def timerInterrupt : Option (Sleepers M) :=
  if s.kernel.intr then
    let old := s.kernel.level
    let k := ({ s.kernel with intr := false }.setInterruptLevel .context).disableInterrupts
    let ticks := s.ticks + 1
    (s.wakeSleepers ticks (s.kernel.nextTid + 1) k (listBegin s.sleepQueue ())).bind fun r =>
      let yield := timeSlice < s.threadTicks + 1
      let k' := if yield then (r.1.enter [.isrReturn old]).yieldCurrent
        else some { r.1.setInterruptLevel old with intr := true }
      k'.map fun k' =>
        { s with
          kernel := k'
          ticks := ticks
          threadTicks := if yield then 0 else s.threadTicks + 1
          interrupts := s.interrupts + 1
          calls := s.recordTick ticks r.2 }
  else none

def step : SleepAction → Option (Sleepers M)
  | .kernel .interrupt => none
  | .kernel (.call op) =>
      if s.pc s.kernel.running = .user then (s.kernel.step (.call op)).map fun k => { s with kernel := k } else none
  | .kernel .run => (s.kernel.step .run).map fun k => { s with kernel := k }
  | .sleep t => if s.Outside ∧ s.pc s.kernel.running = .user then some (s.sleepTicks t) else none
  | .advance => if s.Outside then s.advance (s.pc s.kernel.running) else none
  | .tick => s.timerInterrupt

end

/-- The semaphores that threads sleep on are used by `sleep_ticks` and the timer only. -/
def Unrelated (_ : Sleepers M) : SleepAction → Prop
  | .kernel (.call (.semaphoreInc i)) => i % 2 = 1
  | .kernel (.call (.semaphoreDec i)) => i % 2 = 1
  | _ => True

instance (s : Sleepers M) (act : SleepAction) : Decidable (s.Unrelated act) := by
  unfold Unrelated
  split <;> infer_instance

end Sleepers

/-- Inside `list_push_back`, with a store done. -/
def SleepPc.pushing : SleepPc → Bool
  | pushNext _ => true
  | pushTail => true
  | pushElem => true
  | pushSize => true
  | _ => false

/-- Behind `list_push_back`. -/
def SleepPc.queued : SleepPc → Bool
  | release => true
  | asleep => true
  | _ => false

namespace Sleepers
variable {M : Type}

/-- A timer interrupt finds no thread inside `list_push_back`, reaches the end of no call, and no `sleep_end` of a thread
on the queue. -/
def Quiet (s : Sleepers M) (act : SleepAction) : Prop :=
  act = .tick → ∀ u < s.kernel.nextTid, (s.pc u).pushing = false ∧
    ∀ c ∈ s.calls u, ¬ c.Due (s.ticks + 1) ∧ (c.queued = true → ¬ s.sleepEnd u ≤ s.ticks + 1)

instance (s : Sleepers M) (act : SleepAction) : Decidable (s.Quiet act) :=
  inferInstanceAs (Decidable (_ → ∀ u < _, _ ∧ ∀ c ∈ s.calls u, _ ∧ _))

/-- What sleeping is to be.  Each call is woken once, by the interrupt that reaches its end.  Unless a thread is being
linked, the queue is well formed and holds the threads on it whose end has not been reached.  No call returned before
its end. -/
structure Right (s : Sleepers M) : Prop where
  wakes : ∀ u, ∀ c ∈ s.calls u, c.incs = c.dueAt.toList
  queue : (∀ u, (s.pc u).pushing = false) → ∃ xs, Represents s.sleepQueue (fun _ => xs) ∧
    ∀ u, u ∈ xs ↔ ∃ c, (s.calls u).head? = some c ∧ c.queued = true ∧ c.dueAt = none
  returns : ∀ u, s.pc u = .user → ∀ c ∈ s.calls u, c.dueAt ≠ none

/-- After `init_threads` and `init_timer`. -/
def start [ThreadQueues M] (mem : M) (value : ℕ → ℕ) (level : InterruptLevel) (intr : Bool)
    (queue : ListMem Unit ℕ) : Sleepers M where
  kernel := initThreads mem (fun i => if i % 2 = 0 then 0 else value i) level intr
  ticks := 0
  threadTicks := 0
  sleepEnd := fun _ => -1
  sleepQueue := listInit queue ()
  pc := fun _ => .user
  interrupts := 0
  calls := fun _ => []

/-! ### Where threads are -/

variable {s s' : Sleepers M} {xs : List ℕ}

/-- The queue `q` while `list_push_back` of `t` is at a given place: some of the stores are done. -/
def partlyPushed (q : ListMem Unit ℕ) (t : ℕ) : SleepPc → ListMem Unit ℕ
  | .pushNext _ => q.setPrev (node t) (lastCell q ())
  | .pushTail => (q.setPrev (node t) (lastCell q ())).setNext (lastCell q ()) (node t)
  | .pushElem =>
      ((q.setPrev (node t) (lastCell q ())).setNext (lastCell q ()) (node t)).setPrev (tail ()) (node t)
  | .pushSize => (((q.setPrev (node t) (lastCell q ())).setNext (lastCell q ()) (node t)).setPrev (tail ())
      (node t)).setNext (node t) (tail ())
  | _ => q

/-- The last store makes it the queue with `t` appended. -/
theorem partlyPushed_size (q : ListMem Unit ℕ) (t : ℕ) :
    (partlyPushed q t .pushSize).setSize () (listSize (partlyPushed q t .pushSize) () + 1) =
      listPushBack q () (node t) := by
  rw [listPushBack_eq]
  rfl

/-- The queue when the running thread is at a given place. -/
def Linked (s : Sleepers M) (xs : List ℕ) (pc : SleepPc) : Prop :=
  ∃ q : ListMem Unit ℕ, Represents q (fun _ => xs) ∧ s.sleepQueue = partlyPushed q s.kernel.running pc ∧
    ∀ pr, pc = .pushNext pr → pr = lastCell q ()

theorem partlyPushed_of_not_pushing {pc : SleepPc} (h : pc.pushing = false) (q : ListMem Unit ℕ) (t : ℕ) :
    partlyPushed q t pc = q := by
  cases pc <;> first | rfl | cases h

theorem linked_iff {pc : SleepPc} (h : pc.pushing = false) :
    s.Linked xs pc ↔ Represents s.sleepQueue (fun _ => xs) := by
  constructor
  · rintro ⟨q, hq, he, -⟩
    rw [he, partlyPushed_of_not_pushing h]
    exact hq
  · intro hq
    refine ⟨s.sleepQueue, hq, (partlyPushed_of_not_pushing h _ _).symm, ?_⟩
    rintro pr rfl
    cases h

/-- What holds of one thread. -/
structure At (s : Sleepers M) (xs : List ℕ) (u : ℕ) : Prop where
  awake : s.pc u = .user → s.calls u = []
  sleeping : s.pc u ≠ .user → ∃ c, s.calls u = [c] ∧ c.incs = [] ∧ c.dueAt = none ∧ c.queued = (s.pc u).queued
  asleep : s.pc u = .asleep → pending (.sem (sleepSema u)) (s.kernel.cont u) ≠ []
  pushing : (s.pc u).pushing = true → u = s.kernel.running ∧ s.kernel.cont u = []
  mem : u ∈ xs ↔ (s.pc u).queued = true

/-- What holds of all of them together: nobody has been woken. -/
structure Common (s : Sleepers M) : Prop where
  sane : s.kernel.Sane
  fresh : ∀ u, s.kernel.nextTid ≤ u → s.pc u = .user ∧ ∀ x, pending x (s.kernel.cont u) = []
  zero : ∀ u, s.kernel.value (.sem (sleepSema u)) = 0
  unposted : ∀ t u, .semaphoreInc (.sem (sleepSema u)) ∉ s.kernel.cont t

/-- The invariant. -/
structure Inv (s : Sleepers M) (xs : List ℕ) : Prop where
  common : s.Common
  threads : ∀ u, s.At xs u
  linked : s.Linked xs (s.pc s.kernel.running)

theorem right_of_inv (h : s.Inv xs) : s.Right where
  wakes u c hc := by
    by_cases hu : s.pc u = .user
    · rw [(h.threads u).awake hu] at hc
      cases hc
    · obtain ⟨c', hcs, hi, hd, -⟩ := (h.threads u).sleeping hu
      rw [hcs] at hc
      rw [List.mem_singleton.mp hc, hi, hd]
      rfl
  queue hp := by
    refine ⟨xs, (linked_iff (hp s.kernel.running)).mp h.linked, fun u => ?_⟩
    rw [(h.threads u).mem]
    by_cases hu : s.pc u = .user
    · rw [hu, (h.threads u).awake hu]
      simp [SleepPc.queued]
    · obtain ⟨c, hcs, -, hd, hq⟩ := (h.threads u).sleeping hu
      simp [hcs, hd, hq]
  returns u hu c hc := by
    rw [(h.threads u).awake hu] at hc
    cases hc

/-! ### Steps -/

/-- A step, as a thread sees it that does not take it. -/
structure Keeps (s s' : Sleepers M) (xs xs' : List ℕ) (u : ℕ) : Prop where
  pc : s'.pc u = s.pc u
  calls : s'.calls u = s.calls u
  mem : u ∈ xs' ↔ u ∈ xs
  waiting : pending (.sem (sleepSema u)) (s.kernel.cont u) ≠ [] → pending (.sem (sleepSema u)) (s'.kernel.cont u) ≠ []

theorem At.keep {xs' : List ℕ} {u : ℕ} (h : s.At xs u) (hk : Keeps s s' xs xs' u) (hp : (s.pc u).pushing = false) :
    s'.At xs' u where
  awake hu := hk.calls.trans (h.awake (hk.pc ▸ hu))
  sleeping hu := by
    rw [hk.pc] at hu
    rw [hk.calls, hk.pc]
    exact h.sleeping hu
  asleep hu := hk.waiting (h.asleep (hk.pc ▸ hu))
  pushing hu := by
    rw [hk.pc, hp] at hu
    cases hu
  mem := by
    rw [hk.mem, hk.pc]
    exact h.mem

namespace Inv

theorem pushing_others (h : s.Inv xs) {u : ℕ} (hu : u ≠ s.kernel.running) : (s.pc u).pushing = false := by
  rw [← Bool.not_eq_true]
  exact fun hp => hu ((h.threads u).pushing hp).1

/-- A step of the running thread outside of the kernel. -/
theorem update (h : s.Inv xs) {xs' : List ℕ} (hc : s'.Common)
    (hk : ∀ u, u ≠ s.kernel.running → Keeps s s' xs xs' u) (hrun : s'.kernel.running = s.kernel.running)
    (ho : s'.At xs' s.kernel.running) (hl : s'.Linked xs' (s'.pc s.kernel.running)) : s'.Inv xs' := by
  refine ⟨hc, fun u => ?_, hrun.symm ▸ hl⟩
  rcases eq_or_ne u s.kernel.running with rfl | hu
  · exact ho
  · exact (h.threads u).keep (hk u hu) (h.pushing_others hu)

/-- A step while no thread is being linked. -/
theorem update_all (h : s.Inv xs) (hc : s'.Common) (hno : ∀ u, (s.pc u).pushing = false)
    (hk : ∀ u, Keeps s s' xs xs u) (hq : s'.sleepQueue = s.sleepQueue) : s'.Inv xs := by
  refine ⟨hc, fun u => (h.threads u).keep (hk u) (hno u), ?_⟩
  have hno' : (s'.pc s'.kernel.running).pushing = false := (hk _).pc ▸ hno _
  rw [linked_iff hno', hq]
  exact (linked_iff (hno _)).mp h.linked

/-- The running thread goes on, and calls a function of the kernel or none. -/
theorem goes (h : s.Inv xs) (hout : s.Outside) {xs' : List ℕ} (ys : List Stmt) (hk : s'.kernel = s.kernel.enter ys)
    (hy : Formed ys) (hno : ∀ u, .semaphoreInc (.sem (sleepSema u)) ∉ ys)
    (hpc : ∀ u, u ≠ s.kernel.running → s'.pc u = s.pc u) (hcalls : ∀ u, u ≠ s.kernel.running → s'.calls u = s.calls u)
    (hmem : ∀ u, u ≠ s.kernel.running → (u ∈ xs' ↔ u ∈ xs)) (ho : s'.At xs' s.kernel.running)
    (hl : s'.Linked xs' (s'.pc s.kernel.running)) : s'.Inv xs' := by
  have hothers : ∀ u, u ≠ s.kernel.running → s'.kernel.cont u = s.kernel.cont u := by
    intro u hu
    rw [hk]
    exact enter_others _ _ hu
  refine h.update ⟨?_, fun u hu => ?_, fun u => ?_, fun t u hin => ?_⟩ (fun u hu => ?_) (by rw [hk]; rfl) ho hl
  · rw [hk]
    exact h.common.sane.enter hout.1 hout.2 hy
  · rw [hk] at hu
    have hne : u ≠ s.kernel.running := (Nat.lt_of_lt_of_le h.common.sane.exists_running hu).ne'
    rw [hpc u hne, hothers u hne]
    exact h.common.fresh u hu
  · rw [hk]
    exact h.common.zero u
  · rw [hk] at hin
    exact h.common.unposted t u (mem_of_mem_enter (hno u) hin)
  · refine ⟨hpc u hu, hcalls u hu, hmem u hu, fun hp => ?_⟩
    rwa [hothers u hu]

/-- A step inside of `list_push_back`. -/
theorem stores (h : s.Inv xs) (hout : s.Outside) {pc : SleepPc} (hpc : s.pc s.kernel.running = pc) (hu : pc ≠ .user)
    (hq : pc.queued = false) (pc' : SleepPc) (hp : pc'.pushing = true) {q : ListMem Unit ℕ}
    (hl : Linked { s.move pc' with sleepQueue := q } xs pc') : Inv { s.move pc' with sleepQueue := q } xs := by
  have hself : Function.update s.pc s.kernel.running pc' s.kernel.running = pc' := Function.update_self ..
  have hq' : pc'.queued = false := by cases pc' <;> first | rfl | cases hp
  obtain ⟨c, hcs, hi, hd, hqc⟩ := (h.threads s.kernel.running).sleeping (hpc ▸ hu)
  refine h.goes hout [] (enter_nil _).symm .nil (fun _ => List.not_mem_nil) (fun u hne => Function.update_of_ne hne _ _)
    (fun _ _ => rfl) (fun _ _ => Iff.rfl) ⟨fun he => ?_, fun _ => ⟨c, hcs, hi, hd, ?_⟩, fun he => ?_, fun _ => ⟨rfl, hout.2⟩, ?_⟩
    ?_
  · rw [hself.symm.trans he] at hp
    cases hp
  · rw [hqc, hpc, hq, ← hq']
    exact congrArg SleepPc.queued hself.symm
  · rw [hself.symm.trans he] at hp
    cases hp
  · rw [(h.threads s.kernel.running).mem, hpc, hq, ← hq']
    exact iff_of_eq (congrArg (fun p => SleepPc.queued p = true) hself.symm)
  · show Linked _ xs (Function.update s.pc s.kernel.running pc' s.kernel.running)
    rw [hself]
    exact hl

/-- `sleep_ticks` up to `lock_acquire`. -/
theorem sleepTicks (h : s.Inv xs) (hout : s.Outside) (hpc : s.pc s.kernel.running = .user) (t : BitVec 64) :
    (s.sleepTicks t).Inv xs := by
  have hself : (s.sleepTicks t).pc s.kernel.running = .acquire := Function.update_self ..
  have hmem := (h.threads s.kernel.running).mem
  refine h.goes hout (lockAcquire sleepQueueLock) rfl (.acquire .done) (by simp [lockAcquire])
    (fun u hne => Function.update_of_ne hne _ _) (fun u hne => Function.update_of_ne hne _ _) (fun _ _ => Iff.rfl)
    ⟨fun he => ?_, fun _ => ⟨⟨s.ticks, t, false, none, []⟩, ?_, rfl, rfl, ?_⟩, fun he => ?_, fun he => ?_, ?_⟩ ?_
  · rw [hself] at he
    cases he
  · refine (Function.update_self ..).trans ?_
    rw [(h.threads s.kernel.running).awake hpc]
  · rw [hself]
    rfl
  · rw [hself] at he
    cases he
  · rw [hself] at he
    cases he
  · rw [hself, hmem, hpc]
    rfl
  · rw [hself, linked_iff rfl]
    have hl := h.linked
    rwa [hpc, linked_iff rfl] at hl

/-- The last store of `list_push_back`, and the call of `lock_release`. -/
theorem pushSize (h : s.Inv xs) (hout : s.Outside) (hpc : s.pc s.kernel.running = .pushSize)
    (hs : s.advance .pushSize = some s') : s'.Inv (xs ++ [s.kernel.running]) := by
  obtain ⟨q, hq, he, -⟩ := hpc ▸ h.linked
  obtain ⟨c, hcs, hi, hd, -⟩ := (h.threads s.kernel.running).sleeping (by simp [hpc])
  have hoff : s.kernel.running ∉ xs := by
    rw [(h.threads s.kernel.running).mem, hpc]
    exact Bool.false_ne_true
  have hself : Function.update s.pc s.kernel.running SleepPc.release s.kernel.running = .release :=
    Function.update_self ..
  cases hs
  refine h.goes hout (lockRelease sleepQueueLock) rfl (.release .done) (by simp [lockRelease])
    (fun u hne => Function.update_of_ne hne _ _) (fun u hne => Function.update_of_ne hne _ _) (fun u hne => ?_)
    ⟨fun he => ?_, fun _ => ⟨{ c with queued := true }, ?_, hi, hd, ?_⟩, fun he => ?_, fun he => ?_, ?_⟩ ?_
  · simp [hne]
  · cases hself.symm.trans he
  · refine (Function.update_self ..).trans ?_
    rw [hcs]
    rfl
  · exact (congrArg SleepPc.queued hself).symm
  · cases hself.symm.trans he
  · have hrel : SleepPc.pushing .release = true := (congrArg SleepPc.pushing hself).symm.trans he
    cases hrel
  · exact iff_of_true (List.mem_append_right _ (List.mem_singleton_self _)) (congrArg SleepPc.queued hself)
  · show Linked _ _ (Function.update s.pc s.kernel.running .release s.kernel.running)
    rw [hself, linked_iff rfl]
    have hpush := hq.pushBack () (fun _ => hoff)
    rw [← partlyPushed_size, ← he] at hpush
    have hxs : Function.update (fun _ => xs) () (xs ++ [s.kernel.running]) = fun _ => xs ++ [s.kernel.running] := by
      funext u
      cases u
      rw [Function.update_self]
    exact hxs ▸ hpush

/-- **One step** of the running thread in `sleep_ticks`. -/
theorem advance (h : s.Inv xs) (hout : s.Outside) (hs : s.advance (s.pc s.kernel.running) = some s') :
    ∃ xs', s'.Inv xs' := by
  have hl := h.linked
  cases hpc : s.pc s.kernel.running with
  | user =>
      rw [hpc] at hs
      cases hs
  | acquire =>
      rw [hpc] at hs hl
      cases hs
      obtain ⟨q, hq, he, -⟩ := hl
      obtain rfl : s.sleepQueue = q := he
      exact ⟨xs, h.stores hout hpc nofun rfl (.pushNext _) rfl ⟨_, hq, rfl, fun pr hp => (SleepPc.pushNext.inj hp).symm⟩⟩
  | pushNext pr =>
      rw [hpc] at hs hl
      cases hs
      obtain ⟨q, hq, he, hp⟩ := hl
      rw [hp pr rfl, he]
      exact ⟨xs, h.stores hout hpc nofun rfl .pushTail rfl ⟨q, hq, rfl, nofun⟩⟩
  | pushTail =>
      rw [hpc] at hs hl
      cases hs
      obtain ⟨q, hq, he, -⟩ := hl
      rw [he]
      exact ⟨xs, h.stores hout hpc nofun rfl .pushElem rfl ⟨q, hq, rfl, nofun⟩⟩
  | pushElem =>
      rw [hpc] at hs hl
      cases hs
      obtain ⟨q, hq, he, -⟩ := hl
      rw [he]
      exact ⟨xs, h.stores hout hpc nofun rfl .pushSize rfl ⟨q, hq, rfl, nofun⟩⟩
  | pushSize => exact ⟨_, h.pushSize hout hpc (hpc ▸ hs)⟩
  | release =>
      rw [hpc] at hs hl
      cases hs
      have hself : Function.update s.pc s.kernel.running SleepPc.asleep s.kernel.running = .asleep :=
        Function.update_self ..
      obtain ⟨c, hcs, hi, hd, hq⟩ := (h.threads s.kernel.running).sleeping (by simp [hpc])
      refine ⟨xs, h.goes hout (ThreadOp.semaphoreDec (sleepSema s.kernel.running)).body rfl
        (ThreadOp.formed _) (by simp [ThreadOp.body]) (fun u hne => Function.update_of_ne hne _ _) (fun _ _ => rfl)
        (fun _ _ => Iff.rfl) ⟨fun he => ?_, fun _ => ⟨c, hcs, hi, hd, ?_⟩, fun _ => ?_, fun he => ?_, ?_⟩ ?_⟩
      · cases hself.symm.trans he
      · rw [hq, hpc]
        exact (congrArg SleepPc.queued hself).symm
      · rw [show ((s.call _).move _).kernel.cont s.kernel.running = _ from enter_self s.kernel _, hout.2]
        simp [ThreadOp.body, pending, Stmt.sema?]
      · have hrel : SleepPc.pushing .asleep = true := (congrArg SleepPc.pushing hself).symm.trans he
        cases hrel
      · rw [(h.threads s.kernel.running).mem, hpc]
        exact iff_of_true rfl (congrArg SleepPc.queued hself)
      · show Linked _ _ (Function.update s.pc s.kernel.running .asleep s.kernel.running)
        rw [hself, linked_iff rfl]
        exact (linked_iff rfl).mp hl
  | asleep =>
      have hp := (h.threads s.kernel.running).asleep hpc
      rw [hout.2] at hp
      exact absurd rfl hp

end Inv

section
variable [ThreadQueues M]

namespace Inv

/-- A function of the kernel that another one calls. -/
theorem kernelCall (h : s.Inv xs) {op : ThreadOp} {k' : Kernel M} (hok : s.Unrelated (.kernel (.call op)))
    (hpc : s.pc s.kernel.running = .user) (hk : s.kernel.step (.call op) = some k') :
    Inv { s with kernel := k' } xs := by
  obtain ⟨hidle, hc, rfl⟩ := step_call hk
  have ha := h.threads s.kernel.running
  have hl := h.linked
  rw [hpc, linked_iff rfl] at hl
  refine h.goes ⟨hidle, hc⟩ op.body rfl op.formed (fun u hin => ?_) (fun _ _ => rfl) (fun _ _ => rfl) (fun _ _ => Iff.rfl)
    ⟨ha.awake, fun hu => absurd hpc hu, fun hu => ?_, fun hu => ?_, ha.mem⟩ ?_
  · cases op with
    | semaphoreInc i =>
        have hi : i % 2 = 1 := hok
        have heq : sleepSema u = i := by simpa [ThreadOp.body] using hin
        unfold sleepSema at heq
        omega
    | condvarWait c l => simp [ThreadOp.body, condvarWait, lockAcquire, lockRelease] at hin
    | condvarSignalOne c l => simp [ThreadOp.body, condvarSignalOne, lockAcquire, lockRelease] at hin
    | condvarSignalAll c l => simp [ThreadOp.body, condvarSignalAll] at hin
    | lockAcquire l => simp [ThreadOp.body, lockAcquire] at hin
    | lockRelease l => simp [ThreadOp.body, lockRelease] at hin
    | _ => simp [ThreadOp.body] at hin
  · cases hpc.symm.trans hu
  · rw [show Sleepers.pc _ _ = _ from hpc] at hu
    cases hu
  · show Linked _ xs (s.pc s.kernel.running)
    rw [hpc, linked_iff rfl]
    exact hl

/-- One statement of the running thread. -/
theorem run (h : s.Inv xs) {k' : Kernel M} (hk : s.kernel.step .run = some k') : Inv { s with kernel := k' } xs := by
  obtain ⟨stmt, ys, hc, he, -⟩ := run_effect h.common.sane hk
  have hno : ∀ u, (s.pc u).pushing = false := by
    intro u
    rw [← Bool.not_eq_true]
    intro hp
    obtain ⟨rfl, hnil⟩ := (h.threads u).pushing hp
    rw [hc] at hnil
    cases hnil
  have hinc : ∀ u, stmt ≠ .semaphoreInc (.sem (sleepSema u)) := fun u hs =>
    h.common.unposted s.kernel.running u (hc ▸ hs ▸ List.mem_cons_self)
  have hothers : ∀ t x, t ≠ s.kernel.running → pending x (k'.cont t) = pending x (s.kernel.cont t) := fun t x ht =>
    he.pending_others ht fun hn => (h.common.fresh t hn.ge).2 x
  have hf := hc ▸ h.common.sane.formed s.kernel.running
  refine h.update_all ⟨he.sane h.common.sane hc, fun u hu => ?_, fun u => ?_, fun t u hin => ?_⟩ hno (fun u => ?_) rfl
  · have hu' := Nat.le_trans he.nextTid hu
    have hne : u ≠ s.kernel.running := (Nat.lt_of_lt_of_le h.common.sane.exists_running hu').ne'
    refine ⟨(h.common.fresh u hu').1, fun x => ?_⟩
    rw [hothers u x hne]
    exact (h.common.fresh u hu').2 x
  · exact he.stays_zero hf (hinc u) (h.common.zero u)
  · exact h.common.unposted t u (he.called hc hin trivial)
  · refine ⟨rfl, rfl, Iff.rfl, fun hp => ?_⟩
    rcases eq_or_ne u s.kernel.running with rfl | hu
    · exact he.keeps_waiting hc hf (hinc _) (h.common.zero _) hp
    · rwa [hothers u _ hu]

end Inv

/-! ### The timer interrupt -/

/-- The loop increments the semaphores of the threads on the queue whose `sleep_end` has been reached. -/
theorem wakeSleepers_eq (hq : Represents s.sleepQueue (fun _ => xs)) {ticks : BitVec 64} {n : ℕ} {ys : List ℕ}
    (hys : ys <:+ xs) {k : Kernel M} {r : Kernel M × List ℕ}
    (hr : s.wakeSleepers ticks n k (cellAt () ys) = some r) :
    r.2 = ys.filter (fun u => s.sleepEnd u ≤ ticks) ∧ (r.2 = [] → r.1 = k) := by
  induction n generalizing k ys r with
  | zero => cases hr
  | succ n ih =>
      cases ys with
      | nil =>
          have he : cellAt () ([] : List ℕ) = listEnd s.sleepQueue () := rfl
          rw [wakeSleepers, if_pos he] at hr
          cases hr
          exact ⟨rfl, fun _ => rfl⟩
      | cons u ys =>
          obtain ⟨zs, hx⟩ := hys
          have hnext : listNext s.sleepQueue (cellAt () (u :: ys)) = cellAt () ys := hq.listNext_eq hx.symm
          have hsuf : ys <:+ xs := ⟨zs ++ [u], by rw [← hx, List.append_assoc]; rfl⟩
          have hne : cellAt () (u :: ys) ≠ listEnd s.sleepQueue () := nofun
          have hnode : (cellAt () (u :: ys)).node? = some u := rfl
          rw [wakeSleepers, if_neg hne, hnode, Option.bind_some, hnext] at hr
          by_cases hu : s.sleepEnd u ≤ ticks
          · rw [if_pos hu] at hr
            obtain ⟨k₁, -, hr⟩ := Option.bind_eq_some_iff.mp hr
            obtain ⟨r', hr', rfl⟩ := Option.map_eq_some_iff.mp hr
            obtain ⟨hw, -⟩ := ih hsuf hr'
            refine ⟨?_, fun hnil => absurd hnil (List.cons_ne_nil _ _)⟩
            rw [List.filter_cons_of_pos (by simpa using hu), ← hw]
          · rw [if_neg hu] at hr
            rw [List.filter_cons_of_neg (by simpa using hu)]
            exact ih hsuf hr

/-- What an interrupt does, when the loop leads to the kernel and the threads of `r`. -/
structure Ticked (s s' : Sleepers M) (r : Kernel M × List ℕ) : Prop where
  woken : s.wakeSleepers (s.ticks + 1) (s.kernel.nextTid + 1) s.kernel.disableInterrupts (listBegin s.sleepQueue ()) = some r
  kernel : (r.1.enter [.isrReturn s.kernel.level]).yieldCurrent = some s'.kernel ∨
    s'.kernel = { r.1.setInterruptLevel s.kernel.level with intr := true }
  enabled : s.kernel.intr = true
  pc : s'.pc = s.pc
  sleepQueue : s'.sleepQueue = s.sleepQueue
  calls : s'.calls = s.recordTick (s.ticks + 1) r.2

theorem timerInterrupt_cases (hs : s.timerInterrupt = some s') : ∃ r, Ticked s s' r := by
  unfold timerInterrupt at hs
  split_ifs at hs with hi
  obtain ⟨r, hr, hs⟩ := Option.bind_eq_some_iff.mp hs
  obtain ⟨k', hk, rfl⟩ := Option.map_eq_some_iff.mp hs
  refine ⟨r, hr, ?_, hi, rfl, rfl, rfl⟩
  split_ifs at hk
  · exact .inl hk
  · exact .inr (Option.some.inj hk).symm

theorem Ticked.woken_eq {r : Kernel M × List ℕ} (ht : Ticked s s' r) (hq : Represents s.sleepQueue (fun _ => xs)) :
    r.2 = xs.filter (fun u => s.sleepEnd u ≤ s.ticks + 1) ∧ (r.2 = [] → r.1 = s.kernel.disableInterrupts) := by
  have hw := ht.woken
  rw [hq.listBegin_eq] at hw
  exact wakeSleepers_eq hq List.suffix_rfl hw

/-- An interrupt that wakes nobody leaves the kernel as one without the loop does. -/
structure Undisturbed (k k' : Kernel M) : Prop where
  sane : k'.Sane
  nextTid : k'.nextTid = k.nextTid
  value : k'.value = k.value
  pending : ∀ x t, Kernel.pending x (k'.cont t) = Kernel.pending x (k.cont t)

theorem Ticked.undisturbed {r : Kernel M × List ℕ} (ht : Ticked s s' r) (hr : r.1 = s.kernel.disableInterrupts)
    (hs : s.kernel.Sane) : Undisturbed s.kernel s'.kernel := by
  rcases ht.kernel with hk | hk
  · have hstep : s.kernel.step .interrupt = some s'.kernel := by
      rw [hr] at hk
      exact (if_pos ht.enabled).trans hk
    have hsw := yieldCurrent_switch (step_interrupt hstep).2
    exact ⟨hs.step hstep, hsw.nextTid, hsw.value, interrupt_pending hstep⟩
  · rw [hk, hr]
    exact ⟨⟨hs.exists_running, hs.exists_idle, hs.formed, hs.idle_cont⟩, rfl, rfl, fun _ _ => rfl⟩

omit [ThreadQueues M] in
/-- Behind an interrupt that wakes nobody and reaches the end of no call. -/
theorem recordTick_nil {ticks : BitVec 64} {u : ℕ} (hc : ∀ c ∈ s.calls u, ¬ c.Due ticks) :
    s.recordTick ticks [] u = s.calls u := by
  rw [recordTick, if_neg List.not_mem_nil]
  refine (List.map_congr_left fun c hin => ?_).trans (List.map_id _)
  have hdue : ¬(c.dueAt = none ∧ c.Due ticks) := fun h => hc c hin h.2
  unfold SleepCall.tick
  rw [if_neg hdue]
  rfl

namespace Inv

omit [ThreadQueues M] in
theorem exists_of_calls (h : s.Inv xs) {u : ℕ} {c : SleepCall} (hc : c ∈ s.calls u) :
    u < s.kernel.nextTid ∧ s.pc u ≠ .user ∧ s.calls u = [c] ∧ c.incs = [] ∧ c.dueAt = none ∧
      (c.queued = true ↔ u ∈ xs) := by
  have hpc : s.pc u ≠ .user := by
    intro hu
    rw [(h.threads u).awake hu] at hc
    cases hc
  obtain ⟨c', hcs, hi, hd, hq⟩ := (h.threads u).sleeping hpc
  rw [hcs] at hc
  obtain rfl := List.mem_singleton.mp hc
  refine ⟨?_, hpc, hcs, hi, hd, ?_⟩
  · by_contra hn
    exact hpc (h.common.fresh u (Nat.le_of_not_lt hn)).1
  · rw [hq]
    exact (h.threads u).mem.symm

omit [ThreadQueues M] in
theorem quiet_not_pushing (h : s.Inv xs) (hquiet : s.Quiet .tick) (u : ℕ) : (s.pc u).pushing = false := by
  by_cases hu : s.pc u = .user
  · rw [hu]
    rfl
  · obtain ⟨c, hcs, -⟩ := (h.threads u).sleeping hu
    exact (hquiet rfl u (h.exists_of_calls (hcs ▸ List.mem_singleton_self c)).1).1

omit [ThreadQueues M] in
/-- No end of a thread on the queue is reached. -/
theorem quiet_filter (h : s.Inv xs) (hquiet : s.Quiet .tick) :
    xs.filter (fun u => s.sleepEnd u ≤ s.ticks + 1) = [] := by
  rw [List.filter_eq_nil_iff]
  intro u hu
  have hqueued := (h.threads u).mem.mp hu
  have hpc : s.pc u ≠ .user := fun he => by simp [he, SleepPc.queued] at hqueued
  obtain ⟨c, hcs, -, -, hq⟩ := (h.threads u).sleeping hpc
  have hc : c ∈ s.calls u := hcs ▸ List.mem_singleton_self c
  simpa using ((hquiet rfl u (h.exists_of_calls hc).1).2 c hc).2 (hq.trans hqueued)

/-- **A quiet interrupt.** -/
theorem tick (h : s.Inv xs) (hquiet : s.Quiet .tick) (hs : s.timerInterrupt = some s') : s'.Inv xs := by
  obtain ⟨r, ht⟩ := timerInterrupt_cases hs
  have hno := h.quiet_not_pushing hquiet
  obtain ⟨hw, hk⟩ := ht.woken_eq ((linked_iff (hno _)).mp h.linked)
  have hnil : r.2 = [] := hw.trans (h.quiet_filter hquiet)
  have hcalls : ∀ u, s'.calls u = s.calls u := by
    intro u
    rw [ht.calls, hnil]
    exact recordTick_nil fun c hc => ((hquiet rfl u (h.exists_of_calls hc).1).2 c hc).1
  have hu := ht.undisturbed (hk hnil) h.common.sane
  have hpending : ∀ t x, .semaphoreInc x ∈ s'.kernel.cont t → .semaphoreInc x ∈ s.kernel.cont t := by
    intro t x hin
    have hmem : .semaphoreInc x ∈ pending x (s'.kernel.cont t) := List.mem_filter.mpr ⟨hin, by simp [Stmt.sema?]⟩
    rw [hu.pending] at hmem
    exact (List.mem_filter.mp hmem).1
  refine h.update_all ⟨hu.sane, fun u hn => ?_, fun u => ?_, fun t u hin => ?_⟩ hno (fun u => ?_) ht.sleepQueue
  · rw [hu.nextTid] at hn
    refine ⟨by rw [ht.pc]; exact (h.common.fresh u hn).1, fun x => ?_⟩
    rw [hu.pending]
    exact (h.common.fresh u hn).2 x
  · rw [hu.value]
    exact h.common.zero u
  · exact h.common.unposted t u (hpending t _ hin)
  · refine ⟨by rw [ht.pc], hcalls u, Iff.rfl, fun hp => ?_⟩
    rwa [hu.pending]

/-- **An interrupt that is not quiet** leaves a thread on the queue whose end has been reached, or comes too early
for a thread. -/
theorem quiet_of_right (h : s.Inv xs) (hno : ∀ u, (s.pc u).pushing = false) (hs : s.timerInterrupt = some s')
    (hright : s'.Right) : s.Quiet .tick := by
  obtain ⟨r, ht⟩ := timerInterrupt_cases hs
  have hq := (linked_iff (hno _)).mp h.linked
  obtain ⟨hw, -⟩ := ht.woken_eq hq
  obtain ⟨xs', hq', hmem⟩ := hright.queue (ht.pc ▸ hno)
  rw [ht.sleepQueue] at hq'
  obtain rfl : xs' = xs := congrFun (hq.unique hq') ()
  intro _ u _
  refine ⟨hno u, fun c hc => ?_⟩
  obtain ⟨-, -, hcs, hi, hd, hqueued⟩ := h.exists_of_calls hc
  have hcalls : s'.calls u = s.recordTick (s.ticks + 1) r.2 u := by rw [ht.calls]
  have hwoken : u ∉ r.2 := by
    intro hin
    rw [recordTick, if_pos hin, hcs] at hcalls
    obtain ⟨c', hhead, -, hnone⟩ := (hmem u).mp (List.mem_of_mem_filter (hw ▸ hin))
    have hwakes := hright.wakes u c' (List.mem_of_head? hhead)
    rw [hcalls] at hhead
    obtain rfl := Option.some.inj hhead
    rw [hnone] at hwakes
    exact List.append_ne_nil_of_right_ne_nil _ (List.cons_ne_nil _ _) hwakes
  rw [recordTick, if_neg hwoken, hcs] at hcalls
  constructor
  · intro hdue
    have hwakes := hright.wakes u (c.tick (s.interrupts + 1) (s.ticks + 1)) (by simp [hcalls])
    have hdueAt : (c.tick (s.interrupts + 1) (s.ticks + 1)).dueAt = some (s.interrupts + 1) := if_pos ⟨hd, hdue⟩
    rw [hdueAt] at hwakes
    cases hi.symm.trans hwakes
  · intro hc hle
    refine hwoken (hw ▸ List.mem_filter.mpr ⟨hqueued.mp hc, ?_⟩)
    simpa using hle

/-- **One step.** -/
theorem step (h : s.Inv xs) {act : SleepAction} (hok : s.Unrelated act) (hquiet : s.Quiet act)
    (hs : s.step act = some s') : ∃ xs', s'.Inv xs' := by
  cases act with
  | kernel act =>
      cases act with
      | call op =>
          unfold Sleepers.step at hs
          dsimp only at hs
          split_ifs at hs with hpc
          obtain ⟨k', hk, rfl⟩ := Option.map_eq_some_iff.mp hs
          exact ⟨xs, h.kernelCall hok hpc hk⟩
      | run =>
          obtain ⟨k', hk, rfl⟩ := Option.map_eq_some_iff.mp hs
          exact ⟨xs, h.run hk⟩
      | interrupt => cases hs
  | sleep t =>
      unfold Sleepers.step at hs
      dsimp only at hs
      split_ifs at hs with hout
      cases hs
      exact ⟨xs, h.sleepTicks hout.1 hout.2 t⟩
  | advance =>
      unfold Sleepers.step at hs
      dsimp only at hs
      split_ifs at hs with hout
      exact h.advance hout hs
  | tick => exact ⟨xs, h.tick hquiet hs⟩

end Inv

theorem inv_start (mem : M) (value : ℕ → ℕ) (level : InterruptLevel) (intr : Bool) (queue : ListMem Unit ℕ) :
    (start mem value level intr queue).Inv [] where
  common := by
    refine ⟨initThreads_sane .., fun u _ => ⟨rfl, fun x => initThreads_pending _ _ _ _ x u⟩, fun u => ?_, fun t u hin => ?_⟩
    · show (initThreads ..).value _ = 0
      rw [initThreads_value, sleepSema, if_pos (Nat.mul_mod_right ..)]
    · exact absurd hin (initThreads_not_mem _ _ _ _ (by simp) t)
  threads u := ⟨fun _ => rfl, fun hu => absurd rfl hu, nofun, nofun, ⟨nofun, nofun⟩⟩
  linked := by
    rw [linked_iff rfl]
    exact .of_fresh fun _ => .inl (listInit_initialised queue ())

end

end Sleepers

open Sleepers

/-- **Sleeping** is right as long as no timer interrupt comes while a thread is being linked, and none reaches anybody's
end.  Outside of `list_push_back`, no other interrupt leaves it right. -/
theorem sleep_right_while {M : Type} [ThreadQueues M] {mem : M} {value : ℕ → ℕ} {level : InterruptLevel} {intr : Bool}
    {queue : ListMem Unit ℕ} {s : Sleepers M}
    (h : Transition.Reach Sleepers.step (fun s act => s.Unrelated act ∧ s.Quiet act)
      (start mem value level intr queue) s) :
    s.Right ∧ ((∀ u, (s.pc u).pushing = false) → ∀ s', s.step .tick = some s' → (s'.Right ↔ s.Quiet .tick)) := by
  obtain ⟨xs, hinv⟩ : ∃ xs, s.Inv xs := by
    refine h.invariant (I := fun s => ∃ xs, s.Inv xs) ⟨[], inv_start mem value level intr queue⟩ ?_
    rintro s act s' ⟨xs, hinv⟩ ⟨hok, hquiet⟩ hs
    exact hinv.step hok hquiet hs
  refine ⟨right_of_inv hinv, fun hno s' hs => ⟨hinv.quiet_of_right hno hs, fun hquiet => ?_⟩⟩
  exact right_of_inv (hinv.tick hquiet hs)

/-- Thread `2` sleeps for two ticks. -/
def sleepTwo : List SleepAction :=
  [.kernel (.call .createThread), .kernel .run, .kernel (.call .yieldCurrent), .kernel .run, .kernel .run, .sleep 2,
    .kernel .run, .kernel .run, .advance, .advance, .advance, .advance, .advance, .kernel .run, .kernel .run, .advance,
    .kernel .run, .kernel .run]

def startSleepers : Sleepers (ListMem Queue ℕ) :=
  start ⟨fun _ => null, fun _ => null, fun _ => 0⟩ (fun _ => 0) .enabled true ⟨fun _ => null, fun _ => null, fun _ => 0⟩

/-- The first interrupt wakes nobody. -/
theorem sleep_right_while_early :
    ∃ s, Transition.runs Sleepers.step (fun s act => s.Unrelated act ∧ s.Quiet act) startSleepers
        (sleepTwo ++ [.tick]) = some s ∧ (s.pc 2, s.ticks, s.interrupts) = (.asleep, 1, 1) ∧ s.Right := by
  have hrun : (Transition.runs Sleepers.step (fun s act => s.Unrelated act ∧ s.Quiet act) startSleepers
      (sleepTwo ++ [.tick])).map (fun s => (s.pc 2, s.ticks, s.interrupts)) = some (.asleep, 1, 1) := by
    decide +kernel
  obtain ⟨s, hs, he⟩ := Option.map_eq_some_iff.mp hrun
  exact ⟨s, hs, he, (sleep_right_while (.of_runs hs)).1⟩

/-- The second one wakes the thread, and the third one does so again. -/
theorem sleep_wakes_twice :
    ∃ s, Transition.Reach Sleepers.step Unrelated startSleepers s ∧
      s.calls 2 = [⟨0, 2, true, some 2, [2, 3]⟩] ∧ s.kernel.value (.sem (sleepSema 2)) = 2 ∧ ¬ s.Right := by
  have hrun : (Transition.runs Sleepers.step Unrelated startSleepers (sleepTwo ++ [.tick, .tick, .tick])).map
      (fun s => (s.calls 2, s.kernel.value (.sem (sleepSema 2)))) = some ([⟨0, 2, true, some 2, [2, 3]⟩], 2) := by
    decide +kernel
  obtain ⟨s, hs, he⟩ := Option.map_eq_some_iff.mp hrun
  obtain ⟨hcalls, hvalue⟩ := Prod.mk.inj he
  refine ⟨s, .of_runs hs, hcalls, hvalue, fun hright => ?_⟩
  have hwakes := hright.wakes 2 ⟨0, 2, true, some 2, [2, 3]⟩ (by simp [hcalls])
  exact absurd hwakes (by decide)

end Dunkos
